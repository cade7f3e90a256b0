import ValueTrace.Proofs.Safety.Instructions

/-! No instruction does anything unexpected if what it calls does not. -/

namespace ValueTrace.Analysis.Agree

variable {S : Setting} {s : Shape} {i : Instruction} {p : Path} {call call' : Caller}

theorem callOperands (hcall : Caller.Agree S call call') (counts : Nat)
    (star starStar : Option VarId) (hp : p.Steady) :
    Agree S (callOperands call counts star starStar p)
      (callOperands call' counts star starStar p) Path.Steady := by
  refine bind (popN _ hp) fun r hq => ?_
  obtain ⟨pairs, q⟩ := r
  refine bind (namedPairs ..) fun named _ => bind (popN _ hq) fun r hr => ?_
  obtain ⟨positional, r⟩ := r
  refine bind (pop hr) fun f ht => ?_
  obtain ⟨func, t⟩ := f
  cases star with
  | none =>
    exact bind (pure (Q := fun _ => True) trivial) fun _ _ =>
      bind (callOrReport hcall ..) fun _ _ => pure ht
  | some v =>
    exact bind (tupleItems ..) fun _ _ => bind (callOrReport hcall ..) fun _ _ => pure ht

theorem popIf (present : Bool) (hp : p.Steady) :
    Safe S (callWith.popIf present p) fun r => r.2.Steady := by
  cases present with
  | false => exact pure hp
  | true => exact bind (pop hp) fun _ hq => pure hq

theorem callWith (hcall : Caller.Agree S call call') (hi : i.FitsCode s.code.code)
    (hop : i.op.hasArg = true) (hasStar hasStarStar : Bool) (hp : p.Steady) :
    Agree S (callWith call i hasStar hasStarStar p) (callWith call' i hasStar hasStarStar p)
      Path.Steady := by
  refine bind (argument hi hop) fun _ _ => ?_
  refine bind (popIf _ hp) fun _ hq => ?_
  refine bind (popIf _ hq) fun _ hr => ?_
  exact callOperands hcall _ _ _ hr

theorem annotatedClass (n : NodeId) (name : String) (v : VarId) :
    Safe S (annotatedClass n name v) fun _ => True := by
  unfold Analysis.annotatedClass
  refine bind get fun m _ => bind (dataAt v n) fun data _ => ?_
  extract_lets single finish
  have hfinish (u : Unit) : Safe S (finish u) fun _ => True :=
    bind (report ..) fun _ _ => pure trivial
  clear_value single
  cases single with
  | none => exact hfinish ()
  | some d =>
    dsimp only
    split
    · exact pure trivial
    · split
      · exact pure trivial
      · exact hfinish ()

theorem popAnnotated (count : Nat) (hp : p.Steady) :
    Safe S (popAnnotated count p) fun r => r.2.Steady := by
  unfold Analysis.popAnnotated
  split
  · exact pure hp
  · refine bind (pop hp) fun r hq => ?_
    obtain ⟨names, q⟩ := r
    refine bind (popN _ hq) fun r hr => ?_
    obtain ⟨values, r⟩ := r
    refine bind (tupleItems ..) fun items _ => ?_
    refine bind (mapM fun _ _ => textIn ..) fun names _ => ?_
    refine bind (foldlM (fun classes entry _ => ?_) _) fun _ _ => pure hr
    obtain ⟨name, v⟩ := entry
    dsimp only
    split
    · exact pure trivial
    · refine bind (annotatedClass ..) fun o _ => ?_
      cases o with
      | some d => exact pure trivial
      | none => exact pure trivial

theorem popFunctionParts (counts : Nat) (hasClosure : Bool) (hp : p.Steady) :
    Safe S (popFunctionParts counts hasClosure p) fun r => r.2.Steady := by
  unfold Analysis.popFunctionParts
  refine bind get fun m _ => ?_
  extract_lets third finish
  have hfinish (r : List VarId × Path) (hr : r.2.Steady) :
      Safe S (finish r) fun r => r.2.Steady := by
    dsimp only [finish]
    split
    · refine bind (popAnnotated _ hr) fun _ hq => ?_
      refine bind (popN _ hq) fun _ hr => ?_
      refine bind (namedPairs ..) fun _ _ => ?_
      refine bind (popN _ hr) fun _ hp => ?_
      exact pure hp
    · exact bind (popN _ hr) fun _ hq => pure hq
  split
  · exact bind (pop hp) fun _ hq => bind (tupleItems ..) fun _ _ =>
      bind (pure (Q := fun r => r.2.Steady) hq) hfinish
  · exact bind (pure (Q := fun r => r.2.Steady) hp) hfinish

theorem makeFunction (hs : S.frames.head? = some s) (hi : i.FitsCode s.code.code)
    (hop : i.op.hasArg = true) (hasClosure : Bool) (hp : p.Steady) :
    Safe S (makeFunction i hasClosure p) Path.Steady := by
  unfold Analysis.makeFunction
  refine bind (argument hi hop) fun counts _ => bind get fun m _ => ?_
  extract_lets finish
  have hfinish (q : Path) (hq : q.Steady) : Safe S (finish q) Path.Steady := by
    refine bind (pop hq) fun r hr => ?_
    obtain ⟨codeVar, r⟩ := r
    refine bind (popFunctionParts _ _ hr) fun t ht => ?_
    obtain ⟨parts, t⟩ := t
    refine bind get fun m hm => bind (dataAt ..) fun data _ => ?_
    dsimp only
    cases hcode : data.findSome? m.store.code? with
    | none => exact bind (newUnsolvable _) fun _ _ => pure ht
    | some code =>
      obtain ⟨d, -, hd⟩ := List.exists_of_findSome?_eq_some hcode
      refine bind (frame (ne_nil_of_head? hs)) fun f _ => ?_
      refine bind (addValue (hm.code?_valid hd)) fun _ _ => ?_
      refine bind (variableWith ..) fun _ _ => ?_
      exact pure ht
  split
  · exact bind (discard hp) hfinish
  · exact bind (pure hp) hfinish

theorem buildClassFromParts (hp : p.Steady) : Safe S (buildClassFromParts p) Path.Steady := by
  refine bind (popThree hp) fun _ hq => ?_
  refine bind get fun _ _ => ?_
  refine bind (textIn ..) fun _ _ => ?_
  refine bind (dataAt ..) fun _ _ => ?_
  refine bind (objectMembers ..) fun _ _ => ?_
  refine bind (makeClass ..) fun _ _ => ?_
  exact pure hq

theorem importName (name : String) (hp : p.Steady) : Safe S (importName name p) Path.Steady := by
  refine bind (popTwo hp) fun _ hq => ?_
  refine bind (intIn ..) fun _ _ => ?_
  refine bind get fun _ _ => ?_
  refine bind (dataAt ..) fun _ _ => ?_
  refine bind (importModule ..) fun _ _ => ?_
  exact pure hq

theorem importFrom (name : String) (hp : p.Steady) : Safe S (importFrom name p) Path.Steady := by
  unfold Analysis.importFrom
  refine bind top fun module _ => ?_
  refine bind (newVariable name) fun result _ => ?_
  refine bind (visible ..) fun bs _ => ?_
  refine bind (mapM (R := fun _ => True) fun b _ => ?_) fun found _ => ?_
  · refine bind (dataOf b) fun d _ => bind (value d) fun x _ => ?_
    split
    · exact bind (bindVariable ..) fun _ _ => pure trivial
    · refine bind (attributeOf ..) fun o _ => ?_
      split
      · exact pasteAttribute ..
      · exact pure trivial
  · split
    · exact pure hp
    · refine bind get fun _ _ => ?_
      refine bind (report ..) fun _ _ => ?_
      refine bind (newUnsolvable _) fun _ _ => ?_
      exact pure hp

theorem importStar (hS : S.frames ≠ []) (hp : p.Steady) : Safe S (importStar p) Path.Steady := by
  refine bind (pop hp) fun r hq => ?_
  obtain ⟨module, q⟩ := r
  refine bind (frame hS) fun f _ => ?_
  refine bind get fun m _ => ?_
  refine bind (dataAt ..) fun data _ => ?_
  refine bind (forM fun d _ => ?_) fun _ _ => forward hq
  refine bind (value d) fun x _ => ?_
  split
  · split
    · refine forM fun k _ => bind (attributeOf ..) fun o _ => ?_
      split
      · exact storeValue ..
      · exact pure trivial
    · exact pure trivial
  · exact pure trivial

theorem setupHandled (hs : S.frames.head? = some s) (hi : i.FitsCode s.code.code)
    (hop : i.op.hasTarget = true) (hp : p.Steady) : Safe S (setupHandled i p) Path.Steady := by
  refine bind (target hi hop) fun _ _ => ?_
  refine bind (pushException hp) fun _ _ => ?_
  refine bind (storeJump (ne_nil_of_head? hs) ..) fun _ _ => ?_
  exact pure hp

theorem setupCleanup (hs : S.frames.head? = some s) (hi : i.FitsCode s.code.code)
    (hop : i.op.hasTarget = true) (hp : p.Steady) : Safe S (setupCleanup i p) Path.Steady := by
  refine bind (target hi hop) fun _ _ => ?_
  refine bind (newNone _) fun _ _ => ?_
  refine bind (storeJump (ne_nil_of_head? hs) ..) fun _ _ => ?_
  exact pure hp

theorem setupContext (hcall : Caller.Agree S call call') (hs : S.frames.head? = some s)
    (hi : i.FitsCode s.code.code) (hop : i.op.hasTarget = true) (hp : p.Steady) :
    Agree S (setupContext call i p) (setupContext call' i p) Path.Steady := by
  refine bind (target hi hop) fun _ _ => ?_
  refine bind (pop hp) fun _ hq => ?_
  refine bind (loadAttribute ..) fun _ _ => ?_
  refine bind (newNone _) fun _ _ => ?_
  refine bind (storeJump (ne_nil_of_head? hs) ..) fun _ _ => ?_
  refine bind get fun _ _ => ?_
  refine bind (callMethod hcall ..) fun _ _ => ?_
  exact pure hq

theorem leaveContext (hcall : Caller.Agree S call call') (hp : p.Steady) :
    Agree S (leaveContext call p) (leaveContext call' p) Path.Steady := by
  unfold Analysis.leaveContext
  refine bind top fun v _ => bind (isAllNone ..) fun nothing _ => ?_
  split
  · exact bind (popTwo hp) fun _ hq => bind (callOrReport hcall ..) fun _ _ => pure hq
  · refine bind (popThree hp) fun _ hq => ?_
    refine bind (pop hq) fun _ hr => ?_
    refine bind (callOrReport hcall ..) fun _ _ => ?_
    refine pure (Path.Steady.pushAll ?_ _)
    exact hr

theorem endCleanup (hp : p.Steady) : Safe S (endCleanup p) Path.Steady := by
  unfold Analysis.endCleanup
  refine bind (pop hp) fun r hq => ?_
  obtain ⟨v, q⟩ := r
  refine bind (isAllNone ..) fun nothing _ => ?_
  split
  · exact pure hq
  · exact discardN 2 hq

theorem unknownException (n : NodeId) : Safe S (unknownException n) fun _ => True := by
  refine bind (newUnknown n) fun _ _ => ?_
  refine bind (newUnknown n) fun _ _ => ?_
  refine bind (newUnknown n) fun _ _ => ?_
  exact pure trivial

theorem raise (count : Nat) (hp : p.Steady) : Safe S (raise count p) Path.Steady := by
  unfold Analysis.raise
  split
  · split
    · exact bind (pure (Q := fun _ => True) trivial) fun _ _ => pure fun h => by cases h
    · exact bind (unknownException _) fun _ _ => pure fun h => by cases h
  · refine bind (popN count hp) fun r _ => ?_
    refine bind (unknownException _) fun e _ => ?_
    refine bind get fun m _ => ?_
    split
    · exact pure fun h => by cases h
    · exact pure fun h => by split at h <;> cases h

theorem returnValue (hS : S.frames ≠ []) (hp : p.Steady) : Safe S (returnValue p) Path.Steady := by
  refine bind (pop hp) fun _ _ => ?_
  refine bind (frame hS) fun _ _ => ?_
  refine bind (paste ..) fun _ _ => ?_
  exact pure fun h => by cases h

theorem yieldValue (hS : S.frames ≠ []) (hp : p.Steady) : Safe S (yieldValue p) Path.Steady := by
  refine bind (pop hp) fun _ _ => ?_
  refine bind (frame hS) fun _ _ => ?_
  refine bind (paste ..) fun _ _ => ?_
  exact pure fun h => by cases h

theorem step (hcall : Caller.Agree S call call') (hs : S.frames.head? = some s)
    (hi : i.FitsCode s.code.code) (hp : p.Steady) :
    Agree S (step call i p) (step call' i p) i.Leads := by
  have hS := ne_nil_of_head? hs
  have hsteady {x y : Analysis Path} (h : Agree S x y Path.Steady) : Agree S x y i.Leads :=
    weaken h fun _ hq h => absurd h hq
  obtain ⟨k, op, a, line, t⟩ := i
  unfold Analysis.step
  cases op with
  -- operands
  | nop | popExcept | printNewline => exact hsteady (pure hp)
  | popTop => exact hsteady (discard hp)
  | dupTop => exact hsteady (bind top fun _ _ => pure hp)
  | dupTopx => exact hsteady (bind (argument hi rfl) fun _ _ => duplicate _ hp)
  | dupTopTwo => exact hsteady (duplicate 2 hp)
  | rotTwo | rotThree | rotFour => exact hsteady (rotate _ hp)
  | loadConst => exact hsteady (bind (constAt hs hi rfl) fun _ _ => pure hp)
  | printExpr | printItem | printNewlineTo | printItemTo | execStmt => exact hsteady (discardN _ hp)
  -- names
  | loadName | loadGlobal =>
    exact hsteady (bind (nameAt hs hi rfl) fun _ _ => loadName hS _ _ hp)
  | loadFast => exact hsteady (bind (localAt hs hi rfl) fun _ _ => loadName hS _ _ hp)
  | storeName | storeGlobal =>
    exact hsteady (bind (nameAt hs hi rfl) fun _ _ => bind (frame hS) fun _ _ => storeName _ _ hp)
  | storeFast =>
    exact hsteady (bind (localAt hs hi rfl) fun _ _ => bind (frame hS) fun _ _ => storeName _ _ hp)
  | deleteName | deleteGlobal => exact hsteady (bind (nameAt hs hi rfl) fun _ _ => pure hp)
  | deleteFast => exact hsteady (bind (localAt hs hi rfl) fun _ _ => pure hp)
  | loadClosure => exact hsteady (bind (cellAt hs hi rfl) fun _ _ => pure hp)
  | loadDeref => exact hsteady (bind (cellAt hs hi rfl) fun _ _ => loadCell _ hp)
  | storeDeref => exact hsteady (bind (cellAt hs hi rfl) fun _ _ => storeCell _ hp)
  | loadLocals => exact hsteady (loadLocals hS hp)
  | storeLocals => exact hsteady (storeLocals hp)
  -- operators
  | unaryNot => exact hsteady (unaryNot hp)
  | unaryNegative | unaryPositive | unaryInvert => exact hsteady (unaryOperator hcall _ hp)
  | unaryConvert => exact hsteady (unaryConvert hp)
  | compareOp => exact hsteady (bind (argument hi rfl) fun _ _ => compareOperands hcall _ hp)
  | binarySubscr => exact hsteady (subscript hcall hp)
  | binaryPower | binaryMultiply | binaryDivide | binaryModulo | binaryAdd | binarySubtract
  | binaryFloorDivide | binaryTrueDivide | binaryLshift | binaryRshift
  | binaryAnd | binaryXor | binaryOr
  | inplaceFloorDivide | inplaceTrueDivide | inplaceAdd | inplaceSubtract | inplaceMultiply
  | inplaceDivide | inplaceModulo | inplacePower | inplaceLshift | inplaceRshift | inplaceAnd
  | inplaceXor | inplaceOr => exact hsteady (runOperator hcall _ hp)
  -- attributes
  | loadAttr =>
    exact hsteady (bind (nameAt hs hi rfl) fun _ _ => bind (pop hp) fun _ hq =>
      bind (loadAttribute ..) fun _ _ => pure hq)
  | storeAttr =>
    exact hsteady (bind (nameAt hs hi rfl) fun _ _ => bind (popTwo hp) fun _ hq =>
      bind (storeAttribute ..) fun _ _ => forward hq)
  | deleteAttr => exact hsteady (bind (nameAt hs hi rfl) fun _ _ => discard hp)
  -- containers
  | buildTuple => exact hsteady (bind (argument hi rfl) fun _ _ => buildTuple _ hp)
  | buildList | buildSet =>
    exact hsteady (bind (argument hi rfl) fun _ _ => buildContainer (by decide) _ hp)
  | buildMap => exact hsteady (buildMap hp)
  | buildSlice => exact hsteady (bind (argument hi rfl) fun _ _ => buildSlice _ hp)
  | storeMap => exact hsteady (addEntry hcall (pure trivial) hp)
  | mapAdd => exact hsteady (addEntry hcall (weaken (argument hi rfl) fun _ _ => trivial) hp)
  | listAppend | setAdd =>
    exact hsteady (addItem hcall _ (weaken (argument hi rfl) fun _ _ => trivial) hp)
  | storeSubscr => exact hsteady (storeSubscript hcall hp)
  | deleteSubscr => exact hsteady (deleteSubscript hcall hp)
  | unpackSequence => exact hsteady (bind (argument hi rfl) fun _ _ => unpack _ hp)
  | slice0 | slice1 | slice2 | slice3 => exact hsteady (loadSlice hcall _ hp)
  | storeSlice0 | storeSlice1 | storeSlice2 | storeSlice3 => exact hsteady (storeSlice hcall _ hp)
  | deleteSlice0 | deleteSlice1 | deleteSlice2 | deleteSlice3 =>
    exact hsteady (deleteSlice hcall _ hp)
  -- branches and loops
  | jumpForward | jumpAbsolute => exact hsteady (jump hs hi rfl hp)
  | jumpIfTrue | jumpIfFalse | popJumpIfTrue | popJumpIfFalse | jumpIfTrueOrPop
  | jumpIfFalseOrPop => exact hsteady (jumpIf hs hi rfl _ _ hp)
  | getIter => exact hsteady (getIterator hcall hp)
  | forIter => exact hsteady (nextItem hcall hs hi rfl hp)
  -- regions, exceptions and returns
  | setupLoop => exact hsteady (bind (target hi rfl) fun _ _ => pure hp)
  | setupExcept => exact hsteady (setupHandled hs hi rfl hp)
  | setupFinally => exact hsteady (setupCleanup hs hi rfl hp)
  | setupWith => exact hsteady (setupContext hcall hs hi rfl hp)
  | popBlock => exact hsteady (bind (leave hp) fun _ hq => pure hq)
  | breakLoop => exact pure fun h => by cases h
  | continueLoop => exact pure fun _ => hi.target rfl
  | withCleanup => exact hsteady (leaveContext hcall hp)
  | endFinally => exact hsteady (endCleanup hp)
  | raiseVarargs => exact hsteady (bind (argument hi rfl) fun _ _ => raise _ hp)
  | returnValue => exact hsteady (returnValue hS hp)
  | yieldValue => exact hsteady (yieldValue hS hp)
  -- calls, functions and classes
  | callFunction | callFunctionVar | callFunctionKw | callFunctionVarKw =>
    exact hsteady (callWith hcall hi rfl _ _ hp)
  | makeFunction | makeClosure => exact hsteady (makeFunction hs hi rfl _ hp)
  | buildClass => exact hsteady (buildClassFromParts hp)
  | loadBuildClass => exact hsteady (bind (specialForm _) fun _ _ => pure hp)
  -- imports
  | importName => exact hsteady (bind (nameAt hs hi rfl) fun _ _ => importName _ hp)
  | importFrom => exact hsteady (bind (nameAt hs hi rfl) fun _ _ => importFrom _ hp)
  | importStar => exact hsteady (importStar hS hp)

end ValueTrace.Analysis.Agree
