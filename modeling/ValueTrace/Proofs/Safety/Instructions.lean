import ValueTrace.Proofs.Findings.Rollback
import ValueTrace.Proofs.Safety.Paths
import ValueTrace.Step.Instruction

/-! Instructions do nothing unexpected if what they call does not. -/
namespace ValueTrace

def Caller.Agree (S : Setting) (call call' : Caller) : Prop :=
  ∀ n v args, Attempt.Agree S (call n v args) (call' n v args) fun _ => True

theorem Setting.Fits.code?_valid {S : Setting} {m : Machine} (hm : S.Fits m) {d : DataId}
    {c : PlacedCode} (h : m.store.code? d = some c) : c.code.validate = .ok () := by
  have hgood := hm.values d
  unfold Store.code? Store.object? at h
  cases hv : m.store.get d with
  | object o =>
    obtain ⟨cls, params, members, payload⟩ := o
    rw [hv] at h hgood
    rcases payload with _ | _ | _ | code <;> cases h
    exact hgood
  | _ =>
    rw [hv] at h
    cases h

namespace Analysis.Agree

variable {S : Setting} {s : Shape} {i : Instruction} {p : Path} {call call' : Caller}

theorem callOrReport (hcall : Caller.Agree S call call') (n : NodeId) (func : VarId)
    (args : CallArgs) :
    Agree S (callOrReport call n func args) (callOrReport call' n func args) fun _ => True := by
  refine bind (hcall n func args).run fun r _ => ?_
  cases r with
  | ok done => exact pure trivial
  | error e => exact bind (report ..) fun _ _ => bind (newUnsolvable n) fun _ _ => pure trivial

theorem callQuietly (hcall : Caller.Agree S call call') (n : NodeId) (func : VarId)
    (args : CallArgs) :
    Agree S (callQuietly call n func args) (callQuietly call' n func args) fun _ => True := by
  refine bind (hcall n func args).run fun r _ => ?_
  cases r with
  | ok done => exact pure trivial
  | error e => exact bind (newVariable _) fun _ _ => pure trivial

theorem callMethod (hcall : Caller.Agree S call call') (n : NodeId) (obj : VarId) (name : String)
    (args : List VarId) :
    Agree S (callMethod call n obj name args) (callMethod call' n obj name args) fun _ => True :=
  bind (loadAttribute ..) fun _ _ => callOrReport hcall ..

theorem tryMethod (hcall : Caller.Agree S call call') (n : NodeId) (obj : VarId) (method : String)
    (arg : VarId) :
    Agree S (tryMethod call n obj method arg) (tryMethod call' n obj method arg) fun _ => True := by
  unfold Analysis.tryMethod
  refine bind (loadAttribute? ..) fun o _ => ?_
  split
  · exact pure trivial
  · exact bind (callQuietly hcall ..) fun _ _ => bind (isBound _) fun _ _ => pure trivial

theorem tryOperator (hcall : Caller.Agree S call call') (n : NodeId) (method : String)
    (x y : VarId) :
    Agree S (tryOperator call n method x y) (tryOperator call' n method x y) fun _ => True := by
  unfold Analysis.tryOperator
  refine bind (tryMethod hcall ..) fun o _ => ?_
  split
  · exact pure trivial
  · refine bind get fun m _ => ?_
    split
    · exact pure trivial
    · split
      · exact tryMethod hcall ..
      · exact pure trivial

theorem applyOperator (hcall : Caller.Agree S call call') (n : NodeId) (method : String)
    (x y : VarId) :
    Agree S (applyOperator call n method x y) (applyOperator call' n method x y)
      fun _ => True := by
  unfold Analysis.applyOperator
  refine bind (tryOperator hcall ..) fun o _ => ?_
  have hfinish : Safe S (do return (n, ← Analysis.newUnsolvable n)) fun _ => True :=
    bind (newUnsolvable n) fun _ _ => pure trivial
  split
  · exact pure trivial
  · refine bind (visible x n) fun _ _ => bind (visible y n) fun _ _ => ?_
    split
    · exact hfinish
    · refine bind (typeNames ..) fun _ _ => ?_
      refine bind (typeNames ..) fun _ _ => ?_
      refine bind (report ..) fun _ _ => ?_
      exact hfinish

theorem binaryOperator (hcall : Caller.Agree S call call') (method : String) (hp : p.Steady) :
    Agree S (binaryOperator call method p) (binaryOperator call' method p) Path.Steady :=
  bind (popTwo hp) fun _ hq => bind (applyOperator hcall ..) fun _ _ => pure hq

theorem subscript (hcall : Caller.Agree S call call') (hp : p.Steady) :
    Agree S (subscript call p) (subscript call' p) Path.Steady := by
  rw [subscript_eq, subscript_eq]
  exact binaryOperator hcall _ hp

theorem inplaceOperator (hcall : Caller.Agree S call call') (inplace binary : String)
    (hp : p.Steady) : Agree S (inplaceOperator call inplace binary p)
      (inplaceOperator call' inplace binary p) Path.Steady := by
  refine bind (popTwo hp) fun _ hq => bind (tryMethod hcall ..) fun o _ => ?_
  split
  · exact pure hq
  · exact bind (applyOperator hcall ..) fun _ _ => pure hq

theorem unaryOperator (hcall : Caller.Agree S call call') (method : String) (hp : p.Steady) :
    Agree S (unaryOperator call method p) (unaryOperator call' method p) Path.Steady :=
  bind (pop hp) fun _ hq => bind (callMethod hcall ..) fun _ _ => pure hq

theorem runOperator (hcall : Caller.Agree S call call') (op : Op) (hp : p.Steady) :
    Agree S (runOperator call op p) (runOperator call' op p) Path.Steady := by
  unfold Analysis.runOperator
  split
  · exact binaryOperator hcall _ hp
  · exact inplaceOperator hcall _ _ hp
  · exact pure hp

theorem unaryNot (hp : p.Steady) : Safe S (unaryNot p) Path.Steady := by
  refine bind (pop hp) fun _ hq => ?_
  refine bind (newVariable _) fun _ _ => ?_
  refine bind (visible ..) fun _ _ => ?_
  refine bind (forM fun b _ => ?_) fun _ _ => pure hq
  exact bind get fun _ _ => bind (truth _) fun _ _ => bindVariable ..

theorem unaryConvert (hp : p.Steady) : Safe S (unaryConvert p) Path.Steady := by
  refine bind (discard hp) fun _ hq => ?_
  refine bind (plainObject (needed (by decide))) fun _ _ => ?_
  refine bind (variableWith ..) fun _ _ => ?_
  exact pure hq

theorem unknownTruth (n : NodeId) (vars : List VarId) :
    Safe S (unknownTruth n vars) fun _ => True := by
  refine bind (truth none) fun _ _ => ?_
  refine bind (newVariable _) fun _ _ => ?_
  refine bind get fun _ _ => ?_
  refine bind (bindVariable ..) fun _ _ => ?_
  exact pure trivial

theorem identity (n : NodeId) (x y : VarId) (negated : Bool) :
    Safe S (identity n x y negated) fun _ => True := by
  refine bind (newVariable _) fun _ _ => ?_
  refine bind (visible ..) fun _ _ => ?_
  refine bind (visible ..) fun _ _ => ?_
  refine bind (forM fun a _ => forM fun b _ => ?_) fun _ _ => pure trivial
  refine bind get fun _ _ => ?_
  refine bind (dataOf a) fun _ _ => ?_
  refine bind (dataOf b) fun _ _ => ?_
  refine bind (truth _) fun _ _ => ?_
  exact bindVariable ..

theorem compareOperands (hcall : Caller.Agree S call call') (number : Nat) (hp : p.Steady) :
    Agree S (compareOperands call number p) (compareOperands call' number p) Path.Steady := by
  unfold Analysis.compareOperands
  refine bind (popTwo hp) fun r hq => ?_
  obtain ⟨x, y, q⟩ := r
  cases Comparison.ofNat? number with
  | none => exact throw trivial
  | some c =>
    dsimp only
    split
    · refine bind (tryOperator hcall ..) fun o _ => ?_
      split
      · exact pure hq
      · exact bind (newVariable _) fun _ _ => bind (unknownTruth ..) fun _ _ => pure hq
    · split
      · exact bind (identity ..) fun _ _ => pure hq
      · exact bind (identity ..) fun _ _ => pure hq
      · exact bind (unknownTruth ..) fun _ _ => pure hq

theorem jump (hs : S.frames.head? = some s) (hi : i.FitsCode s.code.code)
    (hop : i.op.hasTarget = true) (hp : p.Steady) : Safe S (jump i p) Path.Steady := by
  refine bind (target hi hop) fun _ _ => ?_
  refine bind (forward hp) fun _ hq => ?_
  refine bind (storeJump (ne_nil_of_head? hs) ..) fun _ _ => ?_
  exact pure hq

theorem jumpIf (hs : S.frames.head? = some s) (hi : i.FitsCode s.code.code)
    (hop : i.op.hasTarget = true) (sense : Bool) (tested : Tested) (hp : p.Steady) :
    Safe S (jumpIf i sense tested p) Path.Steady := by
  unfold Analysis.jumpIf
  refine bind (target hi hop) fun dest _ => ?_
  refine bind top fun v _ => ?_
  refine bind get fun m _ => ?_
  refine bind (onGraph _) fun sides _ => ?_
  obtain ⟨yes, no⟩ := sides
  dsimp -zeta only
  generalize (if sense then (yes, no) else (no, yes)) = sides
  obtain ⟨taken, other⟩ := sides
  dsimp -zeta only
  extract_lets carryOn fallThrough branch
  have hcarryOn (q : Path) (hq : q.Steady) : Safe S (carryOn q) Path.Steady := by
    dsimp only [carryOn]
    split
    · exact pure fun h => by cases h
    · exact forward (hq.restrict _)
  have hfallThrough (u : Unit) : Safe S (fallThrough u) Path.Steady := by
    dsimp only [fallThrough]
    split
    · exact bind (pure hp) hcarryOn
    · exact bind (discard hp) hcarryOn
  have hbranch (q : Path) (hq : q.Steady) : Safe S (branch q) Path.Steady :=
    bind (forward (hq.restrict taken)) fun r _ =>
      bind (storeJump (ne_nil_of_head? hs) dest r) fun u _ => hfallThrough u
  split
  · split
    · exact bind (discard hp) hbranch
    · exact bind (pure hp) hbranch
  · exact hfallThrough ()

theorem getIterator (hcall : Caller.Agree S call call') (hp : p.Steady) :
    Agree S (getIterator call p) (getIterator call' p) Path.Steady := by
  unfold Analysis.getIterator
  refine bind (pop hp) fun r hq => ?_
  obtain ⟨seq, q⟩ := r
  refine bind (loadAttribute? ..) fun o _ => ?_
  split
  · exact bind (callOrReport hcall ..) fun _ _ => pure hq
  · refine bind (loadAttribute? ..) fun o _ => ?_
    split
    · exact bind (newUnsolvable _) fun _ _ => pure hq
    · exact bind (loadAttribute ..) fun _ _ => pure hq

theorem nextItem (hcall : Caller.Agree S call call') (hs : S.frames.head? = some s)
    (hi : i.FitsCode s.code.code) (hop : i.op.hasTarget = true) (hp : p.Steady) :
    Agree S (nextItem call i p) (nextItem call' i p) Path.Steady := by
  refine bind (target hi hop) fun dest _ => ?_
  refine bind (discard hp) fun q _ => ?_
  refine bind (storeJump (ne_nil_of_head? hs) ..) fun _ _ => ?_
  refine bind get fun m _ => ?_
  refine bind top fun v _ => ?_
  refine bind (callMethod hcall ..) fun _ _ => ?_
  exact pure hp

theorem buildTuple (count : Nat) (hp : p.Steady) : Safe S (buildTuple count p) Path.Steady := by
  refine bind (popN count hp) fun _ hq => ?_
  refine bind (tupleObject ..) fun _ _ => ?_
  refine bind (variableWith ..) fun _ _ => ?_
  exact pure hq

theorem buildContainer {cls : String} (hcls : cls ∈ Library.needed) (count : Nat)
    (hp : p.Steady) : Safe S (buildContainer cls count p) Path.Steady := by
  refine bind (popN count hp) fun _ hq => ?_
  refine bind (libraryClass (needed hcls)) fun _ _ => ?_
  refine bind (newObject_none _) fun _ _ => ?_
  refine bind (fillTypeParam ..) fun _ _ => ?_
  refine bind (variableWith ..) fun _ _ => ?_
  exact pure hq

theorem buildMap (hp : p.Steady) : Safe S (buildMap p) Path.Steady := by
  refine bind (libraryClass (needed (by decide))) fun _ _ => ?_
  refine bind (newObject_none _) fun _ _ => ?_
  refine bind (variableWith ..) fun _ _ => ?_
  exact pure hp

theorem newSlice (n : NodeId) : Safe S (newSlice n) fun _ => True :=
  bind (plainObject (needed (by decide))) fun _ _ => variableWith ..

theorem buildSlice (count : Nat) (hp : p.Steady) : Safe S (buildSlice count p) Path.Steady :=
  bind (discardN count hp) fun _ hq => bind (newSlice _) fun _ _ => pure hq

theorem storeItem (hcall : Caller.Agree S call call') (obj key v : VarId) (hp : p.Steady) :
    Agree S (storeItem call obj key v p) (storeItem call' obj key v p) Path.Steady :=
  bind (callMethod hcall ..) fun _ _ => pure hp

theorem addEntry (hcall : Caller.Agree S call call') {depth : Analysis Nat}
    (hdepth : Safe S depth fun _ => True) (hp : p.Steady) :
    Agree S (addEntry call depth p) (addEntry call' depth p) Path.Steady := by
  refine bind (popTwo hp) fun _ hq => ?_
  refine bind hdepth fun _ _ => ?_
  refine bind (peek _) fun _ _ => ?_
  exact storeItem hcall _ _ _ hq

theorem storeSubscript (hcall : Caller.Agree S call call') (hp : p.Steady) :
    Agree S (storeSubscript call p) (storeSubscript call' p) Path.Steady :=
  bind (popThree hp) fun _ hq => bind (storeItem hcall _ _ _ hq) fun _ hr => forward hr

theorem deleteSubscript (hcall : Caller.Agree S call call') (hp : p.Steady) :
    Agree S (deleteSubscript call p) (deleteSubscript call' p) Path.Steady :=
  bind (popTwo hp) fun _ hq => bind (callMethod hcall ..) fun _ _ => pure hq

theorem addItem (hcall : Caller.Agree S call call') (method : String) {depth : Analysis Nat}
    (hdepth : Safe S depth fun _ => True) (hp : p.Steady) :
    Agree S (addItem call method depth p) (addItem call' method depth p) Path.Steady := by
  refine bind (pop hp) fun _ hq => ?_
  refine bind hdepth fun _ _ => ?_
  refine bind (peek _) fun _ _ => ?_
  refine bind (callMethod hcall ..) fun _ _ => ?_
  exact pure hq

theorem loadSlice (hcall : Caller.Agree S call call') (bounds : Nat) (hp : p.Steady) :
    Agree S (loadSlice call bounds p) (loadSlice call' bounds p) Path.Steady := by
  refine bind (discardN bounds hp) fun _ hq => ?_
  refine bind (pop hq) fun _ hr => ?_
  refine bind (newSlice _) fun _ _ => ?_
  refine bind (applyOperator hcall ..) fun _ _ => ?_
  exact pure hr

theorem storeSlice (hcall : Caller.Agree S call call') (bounds : Nat) (hp : p.Steady) :
    Agree S (storeSlice call bounds p) (storeSlice call' bounds p) Path.Steady := by
  refine bind (discardN bounds hp) fun _ hq => ?_
  refine bind (pop hq) fun _ hr => ?_
  refine bind (pop hr) fun _ ht => ?_
  refine bind (newSlice _) fun _ _ => ?_
  exact storeItem hcall _ _ _ ht

theorem deleteSlice (hcall : Caller.Agree S call call') (bounds : Nat) (hp : p.Steady) :
    Agree S (deleteSlice call bounds p) (deleteSlice call' bounds p) Path.Steady := by
  refine bind (discardN bounds hp) fun _ hq => ?_
  refine bind (pop hq) fun _ hr => ?_
  refine bind (newSlice _) fun _ _ => ?_
  refine bind (callMethod hcall ..) fun _ _ => ?_
  exact pure hr

theorem pasteVia (dst src : VarId) (via : BindingId) (n : NodeId) :
    Safe S (pasteVia dst src via n) fun _ => True :=
  bind (allBindings src) fun _ _ => forM fun b _ => bind (dataOf b) fun _ _ => bindVariable ..

theorem unpackValue (n : NodeId) (outputs : List VarId) (b : BindingId) :
    Safe S (unpackValue n outputs b) fun _ => True := by
  unfold Analysis.unpackValue
  refine bind get fun m _ => bind (dataOf b) fun d _ => ?_
  dsimp only
  split
  · exact forM fun _ _ => pasteVia ..
  · exact forM fun _ _ => pasteVia ..
  · exact forM fun _ _ => bindVariable ..

theorem unpack (count : Nat) (hp : p.Steady) : Safe S (unpack count p) Path.Steady := by
  refine bind (pop hp) fun r hq => ?_
  refine bind (mapM fun _ _ => newVariable _) fun _ _ => ?_
  refine bind (visible ..) fun _ _ => ?_
  refine bind (forM fun _ _ => unpackValue ..) fun _ _ => ?_
  exact pure (Path.Steady.pushAll hq _)

theorem loadName (hS : S.frames ≠ []) (scope : Scope) (name : String) (hp : p.Steady) :
    Safe S (loadName scope name p) Path.Steady := by
  unfold Analysis.loadName
  refine bind (frame hS) fun f _ => bind (visibleInAny ..) fun o _ => ?_
  split
  · exact pure hp
  · split
    · refine bind (libraryClassVar (needed (by decide))) fun _ _ => ?_
      refine bind (newUnknown _) fun _ _ => ?_
      refine bind (newUnknown _) fun _ _ => ?_
      exact pure fun h => by cases h
    · refine bind (loadBuiltin ..) fun o _ => ?_
      split
      · exact pure hp
      · exact bind (report ..) fun _ _ => bind (newUnsolvable _) fun _ _ => pure hp

theorem storeName (ns : NamespaceId) (name : String) (hp : p.Steady) :
    Safe S (storeName ns name p) Path.Steady :=
  bind (pop hp) fun _ hq => bind (storeValue ..) fun _ _ => forward hq

theorem loadCell (cell : VarId) (hp : p.Steady) : Safe S (loadCell cell p) Path.Steady :=
  bind (copyVisible ..) fun _ _ => pure hp

theorem storeCell (cell : VarId) (hp : p.Steady) : Safe S (storeCell cell p) Path.Steady :=
  bind (pop hp) fun _ hq => bind (paste ..) fun _ _ => forward hq

theorem loadLocals (hS : S.frames ≠ []) (hp : p.Steady) : Safe S (loadLocals p) Path.Steady := by
  refine bind (frame hS) fun f _ => ?_
  refine bind get fun m _ => ?_
  refine bind (libraryClass (needed (by decide))) fun _ _ => ?_
  refine bind (newObject_none _) fun d _ => ?_
  refine bind (modifyValue (fun v hv => ?_) rfl fun c => ⟨c, rfl, rfl, rfl⟩)
    fun _ _ => bind (variableWith ..) fun _ _ => pure hp
  cases v with
  | object o =>
    obtain ⟨cls, params, members, payload⟩ := o
    rcases payload with _ | _ | _ | _ <;> exact hv
  | _ => exact hv

theorem storeLocals (hp : p.Steady) : Safe S (storeLocals p) Path.Steady := by
  refine bind (pop hp) fun _ hq => ?_
  refine bind (objectMembers ..) fun _ _ => ?_
  refine bind newNamespace fun _ _ => ?_
  refine bind (setNamespaces fun _ => rfl) fun _ _ => ?_
  refine bind (modifyFrame (fun _ => rfl) fun _ h => ⟨h.entry, h.raised⟩) fun _ _ => ?_
  exact pure hq

end Analysis.Agree

end ValueTrace
