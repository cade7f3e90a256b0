import ValueTrace.Proofs.Findings.Rollback
import ValueTrace.Proofs.References.Paths
import ValueTrace.Step.Instruction

/-! Instructions leave a sound machine if what they call does. -/

namespace ValueTrace

/-- The second way to call follows the first one. -/
def Caller.Follows (call call' : Caller) : Prop :=
  ∀ (e : Extent) (n : NodeId) (v : VarId) (args : CallArgs), e.HasNode n → e.HasArgs args →
    Attempt.Follows e (call n v args) (call' n v args) Extent.HasResult

namespace Analysis.Follows

variable {e : Extent} {n : NodeId} {v : VarId} {i : Instruction} {p : Path} {call call' : Caller}

theorem callOrReport (hcall : Caller.Follows call call') (hn : e.HasNode n) (func : VarId)
    (args : CallArgs) (ha : e.HasArgs args) :
    Follows e (callOrReport call n func args) (callOrReport call' n func args)
      Extent.HasResult := by
  refine bind (hcall e n func args hn ha) fun he r hr => ?_
  cases r with
  | ok done => exact pure fun he' => (hr done rfl).mono he'
  | error failure =>
    exact bind (report ..) fun he₁ _ _ => bind (newUnsolvable (hn.mono (he.trans he₁)))
      fun he₂ v hv => pure fun he₃ => ⟨by grind, hv.mono he₃⟩

theorem callQuietly (hcall : Caller.Follows call call') (hn : e.HasNode n) (func : VarId)
    (args : CallArgs) (ha : e.HasArgs args) :
    Follows e (callQuietly call n func args) (callQuietly call' n func args)
      Extent.HasResult := by
  refine bind (hcall e n func args hn ha) fun he r hr => ?_
  cases r with
  | ok done => exact pure fun he' => (hr done rfl).mono he'
  | error failure =>
    exact bind (newVariable _) fun he₁ v hv => pure fun he₂ => ⟨by grind, hv.mono he₂⟩

theorem callMethod (hcall : Caller.Follows call call') (hn : e.HasNode n) (obj : VarId)
    (name : String) {args : List VarId} (ha : e.HasVars args) :
    Follows e (callMethod call n obj name args) (callMethod call' n obj name args)
      Extent.HasResult :=
  bind (loadAttribute hn obj name) fun he v _ =>
    callOrReport hcall (hn.mono he) v { positional := args } (ha.mono he)

/-- The result of an operator is there, if it has one. -/
abbrev MayHaveResult (e : Extent) (o : Option (NodeId × VarId)) : Prop :=
  ∀ r, o = some r → e.HasResult r

theorem tryMethod (hcall : Caller.Follows call call') (hn : e.HasNode n) (obj : VarId)
    (method : String) {arg : VarId} (ha : e.HasVar arg) :
    Follows e (tryMethod call n obj method arg) (tryMethod call' n obj method arg)
      MayHaveResult := by
  unfold Analysis.tryMethod
  refine bind (loadAttribute? hn obj method) fun he o _ => ?_
  split
  · exact pure fun _ _ h => by cases h
  · refine bind (callQuietly hcall (hn.mono he) _ { positional := [arg] }
      (ha.mono he).single) fun he₁ r hr => bind (isBound r.2) fun he₂ b _ => pure fun he₃ => ?_
    cases b with
    | true =>
      intro r' h
      cases h
      exact hr.mono (he₂.trans he₃)
    | false => exact fun _ h => by cases h

theorem tryOperator (hcall : Caller.Follows call call') (hn : e.HasNode n) (method : String)
    {x y : VarId} (hx : e.HasVar x) (hy : e.HasVar y) :
    Follows e (tryOperator call n method x y) (tryOperator call' n method x y)
      MayHaveResult := by
  unfold Analysis.tryOperator
  refine bind (tryMethod hcall hn x method hy) fun he o ho => ?_
  split
  · exact pure fun he' r h => (ho r h).mono he'
  · refine bind get fun he₁ m _ => ?_
    split
    · exact pure fun _ _ h => by cases h
    · split
      · exact tryMethod hcall (by grind) y _ (by grind)
      · exact pure fun _ _ h => by cases h

theorem applyOperator (hcall : Caller.Follows call call') (hn : e.HasNode n) (method : String)
    {x y : VarId} (hx : e.HasVar x) (hy : e.HasVar y) :
    Follows e (applyOperator call n method x y) (applyOperator call' n method x y)
      Extent.HasResult := by
  unfold Analysis.applyOperator
  refine bind (tryOperator hcall hn method hx hy) fun {e₁} he o ho => ?_
  have hfinish {e' : Extent} (he' : e₁ ≤ e') :
      Keeps e' (do return (n, ← Analysis.newUnsolvable n)) Extent.HasResult :=
    bind (newUnsolvable (by grind)) fun he₂ v hv => pure fun he₃ => ⟨by grind, hv.mono he₃⟩
  split
  · next r => exact pure fun he' => (ho r rfl).mono he'
  · refine bind (visible x n) fun he₁ _ _ => bind (visible y n) fun he₂ _ _ => ?_
    split
    · exact hfinish (he₁.trans he₂)
    · refine bind (typeNames ..) fun he₃ _ _ => ?_
      refine bind (typeNames ..) fun he₄ _ _ => ?_
      refine bind (report ..) fun he₅ _ _ => ?_
      exact hfinish (by grind)

theorem binaryOperator (hcall : Caller.Follows call call') (method : String) (hp : e.HasPath p) :
    Follows e (binaryOperator call method p) (binaryOperator call' method p) Extent.HasPath :=
  bind (popTwo hp) fun _ _ hq => bind (applyOperator hcall hq.2.2.node method hq.1 hq.2.1)
    fun he _ hr => pure fun he' => ((hq.2.2.mono he).withResult hr).mono he'

theorem subscript (hcall : Caller.Follows call call') (hp : e.HasPath p) :
    Follows e (subscript call p) (subscript call' p) Extent.HasPath := by
  rw [subscript_eq, subscript_eq]
  exact binaryOperator hcall _ hp

theorem inplaceOperator (hcall : Caller.Follows call call') (inplace binary : String)
    (hp : e.HasPath p) : Follows e (inplaceOperator call inplace binary p)
      (inplaceOperator call' inplace binary p) Extent.HasPath := by
  refine bind (popTwo hp) fun _ q hq => bind (tryMethod hcall hq.2.2.node _ inplace hq.2.1)
    fun he o ho => ?_
  split
  · next r =>
    exact bind (pure fun he' => (ho r rfl).mono he') fun he₁ r hr => pure fun he₂ =>
      ((hq.2.2.mono (he.trans he₁)).withResult hr).mono he₂
  · exact bind (applyOperator hcall (hq.2.2.node.mono he) binary (hq.1.mono he) (hq.2.1.mono he))
      fun he₁ r hr => pure fun he₂ => ((hq.2.2.mono (he.trans he₁)).withResult hr).mono he₂

theorem unaryOperator (hcall : Caller.Follows call call') (method : String) (hp : e.HasPath p) :
    Follows e (unaryOperator call method p) (unaryOperator call' method p) Extent.HasPath :=
  bind (pop hp) fun _ _ hq => bind (callMethod hcall hq.2.node _ method (Extent.hasVars_nil _))
    fun he _ hr => pure fun he' => ((hq.2.mono he).withResult hr).mono he'

theorem runOperator (hcall : Caller.Follows call call') (op : Op) (hp : e.HasPath p) :
    Follows e (runOperator call op p) (runOperator call' op p) Extent.HasPath := by
  unfold Analysis.runOperator
  split
  · exact binaryOperator hcall _ hp
  · exact inplaceOperator hcall _ _ hp
  · exact pure fun he => hp.mono he

/-- An operand goes on top. -/
theorem pushed {x : Analysis VarId} (hp : e.HasPath p) (hx : Keeps e x Extent.HasVar) :
    Keeps e (do return p.push (← x)) Extent.HasPath :=
  bind hx fun he _ hv => pure fun he' => (hp.mono (he.trans he')).push (hv.mono he')

theorem unaryNot (hp : e.HasPath p) : Keeps e (unaryNot p) Extent.HasPath := by
  refine bind (pop hp) fun he₁ r hr => ?_
  refine bind (newVariable _) fun he₂ result hresult => ?_
  refine bind (visible _ _) fun he₃ bs hbs => ?_
  refine bind (forM fun b hb e₄ he₄ => ?_) fun he₄ _ _ => pure fun he₅ => ?_
  · have hb : e₄.HasBindings [b] := ((hbs b hb).mono he₄).single
    have hn := hr.2.node
    exact bind get fun he₅ m _ => bind (truth _) fun he₆ d _ =>
      bindVariable (by grind) (by grind) (by grind) (List.cons_ne_nil _ _) d
  · exact (hr.2.mono (by grind)).push (by grind)

theorem unaryConvert (hp : e.HasPath p) : Keeps e (unaryConvert p) Extent.HasPath :=
  bind (discard hp) fun _ _ hq => bind (plainObject _) fun he d _ =>
    pushed (hq.mono he) (variableHolding _ d (hq.node.mono he))

theorem unknownTruth (hn : e.HasNode n) (vars : List VarId) :
    Keeps e (unknownTruth n vars) Extent.HasVar := by
  refine bind (truth none) fun he₁ d _ => ?_
  refine bind (newOwn _) fun he₂ v hown => ?_
  refine bind get fun he₃ m hm => ?_
  refine bind (bindOwn (hown.mono he₃) (by grind) (fun b hb => ?_) d)
    fun he₄ _ _ => pure fun he₅ => hown.hasVar.mono (by grind)
  obtain ⟨w, -, hw⟩ := List.mem_filterMap.mp hb
  split at hw
  · next b' hvisible =>
    cases hw
    exact (((Graph.hasBindings_visible hm.1.built w n) b
      (hvisible ▸ List.mem_singleton_self b)).mono m.graph_extent_le).mono hm.2
  · cases hw

theorem identity (hn : e.HasNode n) (x y : VarId) (negated : Bool) :
    Keeps e (identity n x y negated) Extent.HasVar := by
  refine bind (newVariable _) fun he₁ result hresult => ?_
  refine bind (visible x n) fun he₂ xs hxs => ?_
  refine bind (visible y n) fun he₃ ys hys => ?_
  refine bind (forM fun a ha e₄ he₄ => forM fun b hb e₅ he₅ => ?_)
    fun he₄ _ _ => pure fun he₅ => by grind
  have hsources : e₅.HasBindings [a, b] :=
    .cons ((hxs a ha).mono (by grind)) ((hys b hb).mono (by grind)).single
  have hn : e₅.HasNode n := by grind
  have hresult : e₅.HasVar result := by grind
  refine bind get fun _ m _ => ?_
  refine bind (dataOf a) fun _ _ _ => ?_
  refine bind (dataOf b) fun _ _ _ => ?_
  refine bind (truth _) fun _ d _ => ?_
  exact bindVariable (by grind) (by grind) (by grind) (List.cons_ne_nil _ _) d

theorem compareOperands (hcall : Caller.Follows call call') (number : Nat) (hp : e.HasPath p) :
    Follows e (compareOperands call number p) (compareOperands call' number p)
      Extent.HasPath := by
  unfold Analysis.compareOperands
  refine bind (popTwo hp) fun _ r hr => ?_
  obtain ⟨x, y, q⟩ := r
  obtain ⟨hx, hy, hq⟩ := hr
  cases Comparison.ofNat? number with
  | none => exact throw _
  | some c =>
    dsimp only
    split
    · refine bind (tryOperator hcall hq.node _ hx hy) fun he o ho => ?_
      split
      · next r => exact pure fun he' => ((hq.mono he).withResult (ho _ rfl)).mono he'
      · exact bind (newVariable _) fun he₁ _ _ =>
          pushed (hq.mono (he.trans he₁)) (unknownTruth (hq.node.mono (he.trans he₁)) _)
    · split
      · exact pushed hq (identity hq.node x y false)
      · exact pushed hq (identity hq.node x y true)
      · exact pushed hq (unknownTruth hq.node _)

theorem jump (i : Instruction) (hp : e.HasPath p) : Keeps e (jump i p) Extent.HasPath := by
  refine bind (target i) fun he _ _ => ?_
  refine bind (forward (hp.mono he)) fun _ _ hq => ?_
  refine bind (storeJump _ hq) fun he' _ _ => ?_
  exact pure fun he'' => hq.mono (he'.trans he'')

theorem jumpIf (i : Instruction) (sense : Bool) (tested : Tested) (hp : e.HasPath p) :
    Keeps e (jumpIf i sense tested p) Extent.HasPath := by
  unfold Analysis.jumpIf
  refine bind (target i) fun he₁ dest _ => ?_
  refine bind (top (hp.mono he₁)) fun he₂ v _ => ?_
  refine bind get fun he₃ m _ => ?_
  refine bind (onGraph (Q := fun e' r => ∀ b, r.1 = .holds b ∨ r.2 = .holds b → e'.HasBinding b)
    fun m' hm' he₄ => ?_) fun {e₄} he₄ sides hsides => ?_
  · have hp := hp.mono (he₁.trans (he₂.trans (he₃.trans he₄)))
    exact (Graph.Succeeds.refl hm'.built hm'.closed).split (hm'.lt_of_hasNode le_rfl hp.node)
      hp.condition m.store v
  · obtain ⟨yes, no⟩ := sides
    dsimp -zeta only
    have hsense : ∀ b, ((if sense then (yes, no) else (no, yes)).1 = .holds b ∨
        (if sense then (yes, no) else (no, yes)).2 = .holds b) → e₄.HasBinding b := by
      intro b hb
      cases sense with
      | true => exact hsides b hb
      | false => exact hsides b hb.symm
    generalize (if sense then (yes, no) else (no, yes)) = sides at hsense ⊢
    obtain ⟨taken, other⟩ := sides
    dsimp -zeta only at hsense ⊢
    have hp : e₄.HasPath p := by grind
    extract_lets carryOn fallThrough branch
    have hcarryOn {e' : Extent} (he : e₄ ≤ e') (q : Path) (hq : e'.HasPath q) :
        Keeps e' (carryOn q) Extent.HasPath := by
      dsimp only [carryOn]
      split
      · exact pure fun he' => (hq.mono he').reshape _ _
      · exact forward (hq.restrict fun b hb => (hsense b (.inr hb)).mono he)
    have hfallThrough {e' : Extent} (he : e₄ ≤ e') (u : Unit) :
        Keeps e' (fallThrough u) Extent.HasPath := by
      dsimp only [fallThrough]
      split
      · exact bind (pure fun he' => hp.mono (he.trans he'))
          fun he' q hq => hcarryOn (he.trans he') q hq
      · exact bind (discard (hp.mono he)) fun he' q hq => hcarryOn (he.trans he') q hq
    have hbranch {e' : Extent} (he : e₄ ≤ e') (q : Path) (hq : e'.HasPath q) :
        Keeps e' (branch q) Extent.HasPath :=
      bind (forward (hq.restrict fun b hb => (hsense b (.inl hb)).mono he)) fun he' r hr =>
        bind (storeJump dest hr) fun he'' u _ => hfallThrough (by grind) u
    split
    · split
      · exact bind (discard hp) fun he q hq => hbranch he q hq
      · exact bind (pure fun he => hp.mono he) fun he q hq => hbranch he q hq
    · exact hfallThrough le_rfl ()

theorem getIterator (hcall : Caller.Follows call call') (hp : e.HasPath p) :
    Follows e (getIterator call p) (getIterator call' p) Extent.HasPath := by
  unfold Analysis.getIterator
  refine bind (pop hp) fun _ r hr => ?_
  obtain ⟨seq, q⟩ := r
  obtain ⟨hseq, hq⟩ := hr
  refine bind (loadAttribute? hq.node seq _) fun he o _ => ?_
  split
  · exact bind (callOrReport hcall (hq.node.mono he) _ {} (Extent.hasVars_nil _))
      fun he₁ _ hr => pure fun he₂ => ((hq.mono (he.trans he₁)).withResult hr).mono he₂
  · refine bind (loadAttribute? (hq.node.mono he) seq _) fun he' o _ => ?_
    have hq := hq.mono (he.trans he')
    split
    · exact pushed hq (newUnsolvable hq.node)
    · exact pushed hq (loadAttribute hq.node seq _)

theorem nextItem (hcall : Caller.Follows call call') (i : Instruction) (hp : e.HasPath p) :
    Follows e (nextItem call i p) (nextItem call' i p) Extent.HasPath := by
  refine bind (target i) fun he₁ dest _ => ?_
  refine bind (discard (hp.mono he₁)) fun he₂ _ hq => ?_
  refine bind (storeJump dest hq) fun he₃ _ _ => ?_
  refine bind get fun he₄ m _ => ?_
  refine bind (top (hp.mono (by grind))) fun he₅ v _ => ?_
  refine bind (callMethod hcall (hp.mono (by grind)).node v _ (Extent.hasVars_nil _))
    fun he₆ _ hr => ?_
  exact pure fun he₇ => ((hp.mono (by grind)).withResult hr).mono he₇

theorem buildTuple (count : Nat) (hp : e.HasPath p) : Keeps e (buildTuple count p) Extent.HasPath :=
  bind (popN count hp) fun _ _ hq => bind (tupleObject hq.1 hq.2.node) fun he d _ =>
    pushed (hq.2.mono he) (variableHolding _ d (hq.2.node.mono he))

theorem buildContainer (cls : String) (count : Nat) (hp : e.HasPath p) :
    Keeps e (buildContainer cls count p) Extent.HasPath := by
  refine bind (popN count hp) fun _ _ hq => ?_
  refine bind (libraryClass cls) fun he₁ _ _ => ?_
  refine bind (newObject_none _) fun he₂ d _ => ?_
  refine bind (fillTypeParam d _ _ (hq.2.node.mono (he₁.trans he₂))) fun he₃ _ _ => ?_
  exact pushed (hq.2.mono (by grind)) (variableHolding _ d (hq.2.node.mono (by grind)))

theorem buildMap (hp : e.HasPath p) : Keeps e (buildMap p) Extent.HasPath :=
  bind (libraryClass _) fun he₁ _ _ => bind (newObject_none _) fun he₂ d _ =>
    pushed (hp.mono (he₁.trans he₂)) (variableHolding _ d (hp.node.mono (he₁.trans he₂)))

theorem newSlice (hn : e.HasNode n) : Keeps e (newSlice n) Extent.HasVar :=
  bind (plainObject _) fun he d _ => variableHolding _ d (hn.mono he)

theorem buildSlice (count : Nat) (hp : e.HasPath p) : Keeps e (buildSlice count p) Extent.HasPath :=
  bind (discardN count hp) fun _ _ hq => pushed hq (newSlice hq.node)

theorem storeItem (hcall : Caller.Follows call call') (obj : VarId) {key v : VarId}
    (hkey : e.HasVar key) (hv : e.HasVar v) (hp : e.HasPath p) :
    Follows e (storeItem call obj key v p) (storeItem call' obj key v p) Extent.HasPath :=
  bind (callMethod hcall hp.node obj _ (.cons hkey hv.single)) fun he _ hr => pure fun he' =>
    ((hp.mono he).withNode hr.node).mono he'

theorem addEntry (hcall : Caller.Follows call call') {depth : Analysis Nat}
    (hdepth : ∀ {e}, Keeps e depth fun _ _ => True) (hp : e.HasPath p) :
    Follows e (addEntry call depth p) (addEntry call' depth p) Extent.HasPath := by
  refine bind (popTwo hp) fun _ _ hq => ?_
  refine bind hdepth fun he k _ => ?_
  refine bind (peek k (hq.2.2.mono he)) fun he' obj _ => ?_
  exact storeItem hcall obj (by grind) (by grind) (hq.2.2.mono (he.trans he'))

theorem storeSubscript (hcall : Caller.Follows call call') (hp : e.HasPath p) :
    Follows e (storeSubscript call p) (storeSubscript call' p) Extent.HasPath :=
  bind (popThree hp) fun _ _ hq => bind (storeItem hcall _ hq.2.2.1 hq.1 hq.2.2.2)
    fun _ _ hr => forward hr

theorem deleteSubscript (hcall : Caller.Follows call call') (hp : e.HasPath p) :
    Follows e (deleteSubscript call p) (deleteSubscript call' p) Extent.HasPath :=
  bind (popTwo hp) fun _ _ hq => bind (callMethod hcall hq.2.2.node _ _ hq.2.1.single)
    fun he _ hr => pure fun he' => ((hq.2.2.mono he).withNode hr.node).mono he'

theorem addItem (hcall : Caller.Follows call call') (method : String) {depth : Analysis Nat}
    (hdepth : ∀ {e}, Keeps e depth fun _ _ => True) (hp : e.HasPath p) :
    Follows e (addItem call method depth p) (addItem call' method depth p) Extent.HasPath := by
  refine bind (pop hp) fun _ _ hq => ?_
  refine bind hdepth fun he k _ => ?_
  refine bind (peek k (hq.2.mono he)) fun he₁ obj _ => ?_
  refine bind (callMethod hcall (hq.2.node.mono (by grind)) obj method (hq.1.mono (by grind)).single)
    fun he₂ _ hr => ?_
  exact pure fun he₃ => ((hq.2.mono (by grind)).withNode hr.node).mono he₃

theorem loadSlice (hcall : Caller.Follows call call') (bounds : Nat) (hp : e.HasPath p) :
    Follows e (loadSlice call bounds p) (loadSlice call' bounds p) Extent.HasPath := by
  refine bind (discardN bounds hp) fun _ _ hq => ?_
  refine bind (pop hq) fun _ _ hr => ?_
  refine bind (newSlice hr.2.node) fun he _ hv => ?_
  refine bind (applyOperator hcall (hr.2.node.mono he) _ (hr.1.mono he) hv) fun he' _ ht => ?_
  exact pure fun he'' => ((hr.2.mono (he.trans he')).withResult ht).mono he''

theorem storeSlice (hcall : Caller.Follows call call') (bounds : Nat) (hp : e.HasPath p) :
    Follows e (storeSlice call bounds p) (storeSlice call' bounds p) Extent.HasPath := by
  refine bind (discardN bounds hp) fun _ _ hq => ?_
  refine bind (pop hq) fun _ _ hr => ?_
  refine bind (pop hr.2) fun _ _ ht => ?_
  refine bind (newSlice ht.2.node) fun he _ hv => ?_
  exact storeItem hcall _ hv (ht.1.mono he) (ht.2.mono he)

theorem deleteSlice (hcall : Caller.Follows call call') (bounds : Nat) (hp : e.HasPath p) :
    Follows e (deleteSlice call bounds p) (deleteSlice call' bounds p) Extent.HasPath := by
  refine bind (discardN bounds hp) fun _ _ hq => ?_
  refine bind (pop hq) fun _ _ hr => ?_
  refine bind (newSlice hr.2.node) fun he _ hv => ?_
  refine bind (callMethod hcall (hr.2.node.mono he) _ _ hv.single) fun he' _ ht => ?_
  exact pure fun he'' => ((hr.2.mono (he.trans he')).withNode ht.node).mono he''

theorem pasteVia {dst : VarId} {via : BindingId} (hdst : e.HasVar dst) (src : VarId)
    (hvia : e.HasBinding via) (hn : e.HasNode n) :
    Keeps e (pasteVia dst src via n) fun _ _ => True :=
  bind (allBindings src) fun he bs hbs => forM fun b hb _ he' => bind (dataOf b) fun he'' d _ =>
    bindVariable (by grind) (by grind)
      (.cons ((hbs b hb).mono (by grind)) (hvia.mono (by grind)).single) (List.cons_ne_nil _ _) d

theorem unpackValue (hn : e.HasNode n) {outputs : List VarId} (ho : e.HasVars outputs)
    {b : BindingId} (hb : e.HasBinding b) :
    Keeps e (unpackValue n outputs b) fun _ _ => True := by
  unfold Analysis.unpackValue
  refine bind get fun he₁ m _ => bind (dataOf b) fun he₂ d _ => ?_
  have hout {out : VarId} (h : out ∈ outputs) := (ho out h).mono (he₁.trans he₂)
  dsimp only
  split
  · refine forM fun pair hpair _ he₃ => pasteVia ?_ _ (hb.mono (by grind)) (hn.mono (by grind))
    exact (hout (List.of_mem_zip (a := pair.1) (b := pair.2) hpair).1).mono he₃
  · exact forM fun out h _ he₃ => pasteVia ((hout h).mono he₃) _ (hb.mono (by grind))
      (hn.mono (by grind))
  · exact forM fun out h _ he₃ => bindVariable ((hout h).mono he₃) (hn.mono (by grind))
      (hb.mono (by grind)).single (List.cons_ne_nil _ _) _

theorem unpack (count : Nat) (hp : e.HasPath p) : Keeps e (unpack count p) Extent.HasPath := by
  refine bind (pop hp) fun _ r hr => bind (mapM (fun he hv => hv.mono he) fun _ _ _ _ =>
    newVariable _) fun he₁ outputs ho => bind (visible _ _) fun he₂ bs hbs =>
      bind (forM fun b hb _ he₃ => unpackValue (hr.2.node.mono (by grind))
        (Extent.HasVars.mono ho (he₂.trans he₃)) ((hbs b hb).mono he₃)) fun he₃ _ _ =>
          pure fun he₄ => ?_
  refine (hr.2.mono (by grind)).pushAll fun v hv => ?_
  exact (ho v (List.mem_reverse.mp hv)).mono (he₂.trans (he₃.trans he₄))

theorem loadName (scope : Scope) (name : String) (hp : e.HasPath p) :
    Keeps e (loadName scope name p) Extent.HasPath := by
  unfold Analysis.loadName
  refine bind frame fun he f _ => bind (visibleInAny name (hp.mono he).node _) fun he₁ o ho => ?_
  have hp := hp.mono (he.trans he₁)
  split
  · exact pure fun he₂ => (hp.push (ho _ rfl)).mono he₂
  · split
    · refine bind (libraryClassVar _) fun he₂ type htype => ?_
      refine bind (newUnknown (hp.mono he₂).node) fun he₃ value hvalue => ?_
      refine bind (newUnknown (hp.mono (by grind)).node) fun he₄ tb htb => ?_
      refine pure fun he₅ => ?_
      have hp := hp.mono (he₂.trans (he₃.trans (he₄.trans he₅)))
      refine ⟨hp.node, hp.stack, hp.condition, fun r hr => ?_⟩
      cases hr
      exact ⟨by grind, by grind, by grind⟩
    · refine bind (loadBuiltin hp.node name) fun he₂ o ho => ?_
      split
      · exact pure fun he₃ => ((hp.mono he₂).push (ho _ rfl)).mono he₃
      · exact bind (report ..) fun he₃ _ _ =>
          pushed (hp.mono (he₂.trans he₃)) (newUnsolvable (hp.mono (he₂.trans he₃)).node)

theorem storeName (ns : NamespaceId) (name : String) (hp : e.HasPath p) :
    Keeps e (storeName ns name p) Extent.HasPath :=
  bind (pop hp) fun _ _ hq => bind (storeValue hq.2.node ns name _) fun he _ _ =>
    forward (hq.2.mono he)

theorem loadCell (cell : VarId) (hp : e.HasPath p) : Keeps e (loadCell cell p) Extent.HasPath :=
  pushed hp (copyVisible cell hp.node)

theorem storeCell {cell : VarId} (hcell : e.HasVar cell) (hp : e.HasPath p) :
    Keeps e (storeCell cell p) Extent.HasPath :=
  bind (pop hp) fun he _ hq => bind (paste (hcell.mono he) hq.2.node _) fun he' _ _ =>
    forward (hq.2.mono he')

/-- The variables of a namespace are there. -/
theorem membersIn {m : Machine} (hm : m.Sound ∧ m.extent ≤ e) (ns : NamespaceId) :
    e.HasMembers ((m.store.namespace? ns).getD ∅) := by
  cases hms : m.store.namespace? ns with
  | none => exact Extent.hasMembers_empty _
  | some ms => exact (hasStore hm).namespaces ns ms hms

/-- What is in a namespace may be shared. -/
theorem slotsIn (m : Machine) (ns : NamespaceId) :
    slotsOf ((m.store.namespace? ns).getD ∅) ⊆ m.store.slots := by
  cases hms : m.store.namespace? ns with
  | none => exact slotsOf_empty.subset.trans (Set.empty_subset _)
  | some ms => exact Store.mem_slots_of_namespace? hms

theorem loadLocals (hp : e.HasPath p) : Keeps e (loadLocals p) Extent.HasPath := by
  refine bind frame fun he₁ f _ => KeepsWith.of_get fun m hm he₂ => ?_
  have hms := membersIn ⟨hm, le_rfl⟩ f.locals
  have hp := hp.mono (he₁.trans he₂)
  refine .bind (libraryClass _) (.libraryClass _) fun he₃ _ _ => .bind (newObject_none _)
    (.newObject _ _) fun he₄ d _ => ?_
  refine KeepsWith.mono (slotsIn m f.locals) (.gains (fun s => ((), s.modify d _))
    (fun s he₅ hs => hs.modify rfl fun x hx => ?_) (fun s => .modify s d rfl fun _ =>
      ⟨_, rfl, rfl, rfl⟩) (fun s => .modify s d rfl (fun x => ?_) fun x => ?_) fun he₅ _ =>
        pushed (hp.mono (by grind)) (variableHolding _ d (hp.node.mono (by grind))))
  · cases x with
    | object o => exact ⟨hx.1, hms.mono (he₃.trans (he₄.trans he₅)), hx.2.2⟩
    | _ => exact hx
  · cases x with
    | object o =>
      rintro slot ⟨ms, hms, hslot⟩
      cases hms
      exact .inr hslot
    | _ => exact Set.subset_union_left
  · cases x with
    | object o =>
      rintro v ⟨o', name, ho, hv⟩
      cases ho
      exact .inl ⟨o, name, rfl, hv⟩
    | _ => exact Set.subset_union_left

theorem storeLocals (hp : e.HasPath p) : Keeps e (storeLocals p) Extent.HasPath := by
  refine bind (pop hp) fun _ _ hq => ?_
  refine withMembers _ fun he₁ ms hms => ?_
  refine .bind newNamespace (.onStore fun _ => Store.slots_subset_newNamespace) fun he₂ ns _ => ?_
  refine .gains (fun s => ((), s.modifyNamespace ns fun _ => ms))
    (fun _ he₃ hs => hs.modifyNamespace fun _ _ => hms.mono (he₂.trans he₃))
    (fun _ => .of_values rfl) (fun s => .modifyNamespace s ns fun _ _ h => .inr h) fun he₃ _ => ?_
  refine bind (modifyFrame fun f _ hf => ⟨hf.cells, hf.result, hf.yielded, hf.entry, hf.raised⟩)
    fun he₄ _ _ => ?_
  exact pure fun he₅ => hq.2.mono (by grind)

theorem callOperands (hcall : Caller.Follows call call') (counts : Nat)
    (star starStar : Option VarId) (hp : e.HasPath p) :
    Follows e (callOperands call counts star starStar p) (callOperands call' counts star starStar p)
      Extent.HasPath := by
  unfold Analysis.callOperands
  refine bind (popN _ hp) fun _ r hq => ?_
  obtain ⟨pairs, q⟩ := r
  refine bind (namedPairs ..) fun he₁ named _ => bind (popN _ (hq.2.mono he₁)) fun _ r hr => ?_
  obtain ⟨positional, r⟩ := r
  refine bind (pop hr.2) fun {e₁} he₂ f ht => ?_
  obtain ⟨func, t⟩ := f
  have hpositional : e₁.HasVars positional := hr.1.mono he₂
  have hfinish {e' : Extent} (he : e₁ ≤ e') {args : CallArgs} (ha : e'.HasArgs args) :
      Follows e' (do
          let r ← Analysis.callOrReport call t.node func args
          return Path.push { t with node := r.1 } r.2)
        (do
          let r ← Analysis.callOrReport call' t.node func args
          return Path.push { t with node := r.1 } r.2) Extent.HasPath :=
    bind (callOrReport hcall (ht.2.mono he).node func _ ha) fun he' _ hr => pure fun he'' =>
      ((ht.2.mono (he.trans he')).withResult hr).mono he''
  cases star with
  | none =>
    refine bind (pure (Q := fun e' o => ∀ items, o = some items → e'.HasVars items)
      fun _ _ h => by cases h) fun he o ho => hfinish he ?_
    cases o with
    | none => exact hpositional.mono he
    | some items => exact (hpositional.mono he).append (ho items rfl)
  | some v =>
    refine bind (tupleItems v _) fun he o ho => hfinish he ?_
    cases o with
    | none => exact hpositional.mono he
    | some items => exact (hpositional.mono he).append (ho items rfl)

theorem popIf (present : Bool) (hp : e.HasPath p) :
    Keeps e (callWith.popIf present p) fun e' r => e'.HasPath r.2 := by
  cases present with
  | false => exact pure fun he => hp.mono he
  | true => exact bind (pop hp) fun _ _ hq => pure fun he => hq.2.mono he

theorem callWith (hcall : Caller.Follows call call') (i : Instruction) (hasStar hasStarStar : Bool)
    (hp : e.HasPath p) :
    Follows e (callWith call i hasStar hasStarStar p) (callWith call' i hasStar hasStarStar p)
      Extent.HasPath := by
  refine bind (argument i) fun he _ _ => ?_
  refine bind (popIf _ (hp.mono he)) fun _ _ hq => ?_
  refine bind (popIf _ hq) fun _ _ hr => ?_
  exact callOperands hcall _ _ _ hr

theorem annotatedClass (n : NodeId) (name : String) (v : VarId) :
    Keeps e (annotatedClass n name v) fun _ _ => True := by
  unfold Analysis.annotatedClass
  refine bind get fun _ m _ => bind (dataAt v n) fun _ data _ => ?_
  extract_lets single finish
  have hfinish {e : Extent} (u : Unit) : Keeps e (finish u) fun _ _ => True :=
    bind (report ..) fun _ _ _ => pure fun _ => trivial
  clear_value single
  cases single with
  | none => exact hfinish ()
  | some d =>
    dsimp only
    split
    · exact pure fun _ => trivial
    · split
      · exact pure fun _ => trivial
      · exact hfinish ()

theorem popAnnotated (count : Nat) (hp : e.HasPath p) :
    Keeps e (popAnnotated count p) fun e' r => e'.HasPath r.2 := by
  unfold Analysis.popAnnotated
  split
  · exact pure fun he => hp.mono he
  · refine bind (pop hp) fun _ r hq => ?_
    obtain ⟨names, q⟩ := r
    refine bind (popN _ hq.2) fun _ r hr => ?_
    obtain ⟨values, r⟩ := r
    refine bind (tupleItems ..) fun he₁ items _ => ?_
    refine bind (mapM (R := fun _ _ => True) (fun _ _ => trivial) fun v _ _ _ => textIn v _)
      fun he₂ names _ => ?_
    refine bind (foldlM (fun classes entry _ _ _ => ?_) _)
      fun he₃ _ _ => pure fun he₄ => hr.2.mono (by grind)
    obtain ⟨name, v⟩ := entry
    dsimp only
    split
    · exact pure fun _ => trivial
    · refine bind (annotatedClass ..) fun _ o _ => ?_
      cases o with
      | some d => exact pure fun _ => trivial
      | none => exact pure fun _ => trivial

theorem popFunctionParts (counts : Nat) (hasClosure : Bool) (hp : e.HasPath p) :
    Keeps e (popFunctionParts counts hasClosure p)
      fun e' r => e'.HasVars r.1.closure ∧ e'.HasPath r.2 := by
  unfold Analysis.popFunctionParts
  refine bind get fun he m _ => ?_
  have hp := hp.mono he
  extract_lets third finish
  have hfinish {e : Extent} (r : List VarId × Path) (hr : e.HasVars r.1 ∧ e.HasPath r.2) :
      Keeps e (finish r) fun e' r => e'.HasVars r.1.closure ∧ e'.HasPath r.2 := by
    dsimp only [finish]
    split
    · refine bind (popAnnotated _ hr.2) fun he₁ _ hq => ?_
      refine bind (popN _ hq) fun he₂ _ hs => ?_
      refine bind (namedPairs ..) fun he₃ _ _ => ?_
      refine bind (popN _ (hs.2.mono he₃)) fun he₄ _ ht => ?_
      exact pure fun he₅ => ⟨hr.1.mono (by grind), ht.2.mono he₅⟩
    · exact bind (popN _ hr.2) fun he₁ _ hq => pure fun he₂ =>
        ⟨hr.1.mono (he₁.trans he₂), hq.2.mono he₂⟩
  split
  · refine bind (pop hp) fun _ r hq => bind (tupleItems ..) fun he o ho => bind
      (pure (Q := fun e' r => e'.HasVars r.1 ∧ e'.HasPath r.2) fun he' =>
        ⟨?_, hq.2.mono (he.trans he')⟩) fun _ r hr => hfinish r hr
    cases o with
    | none => exact Extent.hasVars_nil _
    | some items => exact (ho items rfl).mono he'
  · exact bind (pure (Q := fun e' r => e'.HasVars r.1 ∧ e'.HasPath r.2) fun he =>
      ⟨Extent.hasVars_nil _, hp.mono he⟩) fun _ r hr => hfinish r hr

theorem makeFunction (i : Instruction) (hasClosure : Bool) (hp : e.HasPath p) :
    Keeps e (makeFunction i hasClosure p) Extent.HasPath := by
  unfold Analysis.makeFunction
  refine bind (argument i) fun he counts _ => bind get fun he' m _ => ?_
  have hp := hp.mono (he.trans he')
  extract_lets finish
  have hfinish {e : Extent} (q : Path) (hq : e.HasPath q) : Keeps e (finish q) Extent.HasPath := by
    refine bind (pop hq) fun _ r hr => ?_
    obtain ⟨codeVar, r⟩ := r
    refine bind (popFunctionParts _ _ hr.2) fun _ t ht => ?_
    obtain ⟨parts, t⟩ := t
    refine bind get fun he₁ m _ => bind (dataAt ..) fun he₂ data _ => ?_
    have hq := ht.2.mono (he₁.trans he₂)
    have hclosure := ht.1.mono (he₁.trans he₂)
    dsimp only
    split
    · exact pushed hq (newUnsolvable hq.node)
    · exact bind frame fun he₃ f _ =>
        bind (addValue ⟨Extent.hasMembers_empty _, hclosure.mono he₃⟩
          (.of_members? (fun _ h => by cases h; rfl) rfl)) fun he₄ d _ =>
          pushed (hq.mono (he₃.trans he₄)) (variableHolding _ d (hq.node.mono (he₃.trans he₄)))
  split
  · exact bind (discard hp) fun _ q hq => hfinish q hq
  · exact bind (pure fun he => hp.mono he) fun _ q hq => hfinish q hq

theorem buildClassFromParts (hp : e.HasPath p) :
    Keeps e (buildClassFromParts p) Extent.HasPath := by
  refine bind (popThree hp) fun _ _ hq => ?_
  refine bind get fun he₁ _ _ => ?_
  refine bind (textIn ..) fun he₂ _ _ => ?_
  refine bind (dataAt ..) fun he₃ _ _ => ?_
  refine withMembers _ fun he₄ _ hms => ?_
  refine .andThen (makeClass (hq.2.2.2.node.mono (by grind)) _ _ hms) fun he₅ _ hv => ?_
  exact pure fun he₆ => (hq.2.2.2.mono (by grind)).push (hv.mono he₆)

theorem importName (name : String) (hp : e.HasPath p) :
    Keeps e (importName name p) Extent.HasPath := by
  refine bind (popTwo hp) fun _ _ hq => ?_
  refine bind (intIn ..) fun he₁ _ _ => ?_
  refine bind get fun he₂ _ _ => ?_
  refine bind (dataAt ..) fun he₃ _ _ => ?_
  exact pushed (hq.2.2.mono (by grind)) (importModule (hq.2.2.node.mono (by grind)) ..)

theorem importFrom (name : String) (hp : e.HasPath p) :
    Keeps e (importFrom name p) Extent.HasPath := by
  unfold Analysis.importFrom
  refine bind (top hp) fun he₁ module _ => ?_
  refine bind (newVariable name) fun he₂ result hresult => ?_
  refine bind (visible module p.node) fun he₃ bs hbs => ?_
  refine bind (mapM (R := fun _ _ => True) (fun _ _ => trivial) fun b hb e₄ he₄ => ?_)
    fun he₄ found _ => ?_
  · have hn : e₄.HasNode p.node := hp.node.mono (by grind)
    have hresult : e₄.HasVar result := by grind
    have hb : e₄.HasBinding b := (hbs b hb).mono he₄
    refine bind (dataOf b) fun _ d _ => bind (value d) fun _ x _ => ?_
    split
    · exact bind (bindVariable (by grind) (by grind) (hb.single.mono (by grind))
        (List.cons_ne_nil _ _) _) fun _ _ _ => pure fun _ => trivial
    · refine bind (attributeOf (by grind) d name (hb.single.mono (by grind))) fun _ o _ => ?_
      split
      · exact pasteAttribute (by grind) (by grind) _ (by grind)
      · exact pure fun _ => trivial
  · split
    · exact pure fun he₅ => (hp.mono (by grind)).push (by grind)
    · exact bind get fun he₅ _ _ => bind (report ..) fun he₆ _ _ =>
        pushed (hp.mono (by grind)) (newUnsolvable (hp.node.mono (by grind)))

theorem importStar (hp : e.HasPath p) : Keeps e (importStar p) Extent.HasPath := by
  refine bind (pop hp) fun _ r hr => ?_
  obtain ⟨module, q⟩ := r
  have hq := hr.2
  refine bind frame fun he₁ f _ => ?_
  refine bind get fun he₂ m _ => ?_
  refine bind (dataAt ..) fun he₃ data _ => ?_
  refine bind (forM fun d _ e₄ he₄ => ?_) fun he₄ _ _ => forward (hq.mono (by grind))
  refine bind (value d) fun he₅ x _ => ?_
  split
  · split
    · refine forM fun k _ e₆ he₆ => bind (attributeOf (hq.node.mono (by grind)) d k
        (Extent.hasBindings_nil _)) fun he₇ o _ => ?_
      split
      · exact storeValue (hq.node.mono (by grind)) ..
      · exact pure fun _ => trivial
    · exact pure fun _ => trivial
  · exact pure fun _ => trivial

theorem enter (hp : e.HasPath p) (kind : RegionKind) (handler : Nat) :
    e.HasPath (p.enter kind handler) := hp.reshape _ _

theorem setupHandled (i : Instruction) (hp : e.HasPath p) :
    Keeps e (setupHandled i p) Extent.HasPath := by
  refine bind (target i) fun he₁ _ _ => ?_
  refine bind (pushException (hp.mono he₁)) fun he₂ _ hq => ?_
  refine bind (storeJump _ hq) fun he₃ _ _ => ?_
  exact pure fun he₄ => enter (hp.mono (by grind)) ..

theorem setupCleanup (i : Instruction) (hp : e.HasPath p) :
    Keeps e (setupCleanup i p) Extent.HasPath := by
  refine bind (target i) fun he₁ _ _ => ?_
  refine bind (newNone (hp.node.mono he₁)) fun he₂ _ hv => ?_
  refine bind (storeJump _ ((hp.mono (he₁.trans he₂)).push hv)) fun he₃ _ _ => ?_
  exact pure fun he₄ => enter (hp.mono (by grind)) ..

theorem setupContext (hcall : Caller.Follows call call') (i : Instruction) (hp : e.HasPath p) :
    Follows e (setupContext call i p) (setupContext call' i p) Extent.HasPath := by
  refine bind (target i) fun he₁ _ _ => ?_
  refine bind (pop (hp.mono he₁)) fun he₂ _ hq => ?_
  refine bind (loadAttribute hq.2.node _ _) fun he₃ _ hv => ?_
  refine bind (newNone (hq.2.node.mono he₃)) fun he₄ _ hnone => ?_
  refine bind (storeJump _ (((hq.2.mono (he₃.trans he₄)).push (hv.mono he₄)).push hnone))
    fun he₅ _ _ => ?_
  refine bind get fun he₆ _ _ => ?_
  refine bind (callMethod hcall (hq.2.node.mono (by grind)) _ _ (Extent.hasVars_nil _))
    fun he₇ _ hr => ?_
  refine pure fun he₈ => Extent.HasPath.mono ?_ he₈
  exact (enter ((hq.2.mono (by grind)).push (hv.mono (by grind))) ..).withResult hr

theorem leaveContext (hcall : Caller.Follows call call') (hp : e.HasPath p) :
    Follows e (leaveContext call p) (leaveContext call' p) Extent.HasPath := by
  unfold Analysis.leaveContext
  refine bind (top hp) fun he₁ v _ => bind (isAllNone ..) fun he₂ nothing _ => ?_
  have hp := hp.mono (he₁.trans he₂)
  split
  · refine bind (popTwo hp) fun _ r hr => ?_
    obtain ⟨out, v, q⟩ := r
    obtain ⟨hout, hv, hq⟩ := hr
    exact bind (callOrReport hcall hq.node out { positional := [v, v, v] }
      (.cons hv (.cons hv hv.single))) fun he _ hr => pure fun he' =>
        (((hq.mono he).withNode hr.node).push (hv.mono he)).mono he'
  · refine bind (popThree hp) fun _ r hr => ?_
    obtain ⟨tb, value, type, q⟩ := r
    obtain ⟨htb, hvalue, htype, hq⟩ := hr
    refine bind (pop hq) fun he _ hq => bind (callOrReport hcall hq.2.node _
      { positional := [type, value, tb] } (.cons (htype.mono he) (.cons (hvalue.mono he)
        (htb.mono he).single))) fun he' _ hr => pure fun he'' => ?_
    exact (((hq.2.mono he').withNode hr.node).pushAll (.cons (htb.mono (he.trans he'))
      (.cons (hvalue.mono (he.trans he')) (htype.mono (he.trans he')).single))).mono he''

theorem endCleanup (hp : e.HasPath p) : Keeps e (endCleanup p) Extent.HasPath := by
  unfold Analysis.endCleanup
  refine bind (pop hp) fun _ r hr => ?_
  obtain ⟨v, q⟩ := r
  refine bind (isAllNone ..) fun he nothing _ => ?_
  split
  · exact pure fun he' => hr.2.mono (he.trans he')
  · exact discardN 2 (hr.2.mono he)

theorem unknownException (hn : e.HasNode n) : Keeps e (unknownException n) Extent.HasRaised := by
  refine bind (newUnknown hn) fun he₁ _ ht => ?_
  refine bind (newUnknown (hn.mono he₁)) fun he₂ _ hv => ?_
  refine bind (newUnknown (hn.mono (he₁.trans he₂))) fun he₃ _ htb => ?_
  exact pure fun he₄ => ⟨ht.mono (by grind), hv.mono (by grind), htb.mono he₄⟩

theorem raise (count : Nat) (hp : e.HasPath p) : Keeps e (raise count p) Extent.HasPath := by
  have hstopped {e e' : Extent} (he : e ≤ e') {q : Path} (hq : e.HasPath q) {r : Raised}
      (hr : e'.HasRaised r) (stop : Option Stop) :
      e'.HasPath { q with exception := some r, stop } := by
    have hq := hq.mono he
    refine ⟨hq.node, hq.stack, hq.condition, fun r' h => ?_⟩
    cases h
    exact hr
  unfold Analysis.raise
  split
  · split
    · next r hr =>
      exact bind (pure fun he => (hp.exception r hr).mono he) fun he r hr => pure fun he' =>
        hstopped (he.trans he') hp (hr.mono he') _
    · exact bind (unknownException hp.node) fun he r hr => pure fun he' =>
        hstopped (he.trans he') hp (hr.mono he') _
  · refine bind (popN count hp) fun _ s hs => ?_
    refine bind (unknownException hs.2.node) fun he₁ r hr => ?_
    refine bind get fun {e₂} he₂ m _ => ?_
    obtain ⟨items, q⟩ := s
    obtain ⟨hitems, hq⟩ := hs
    have hitem (k : Nat) {v : VarId} (hv : e₂.HasVar v) : e₂.HasVar (items[k]?.getD v) :=
      Extent.HasVar?.getD (fun w hw => (hitems w (List.mem_of_getElem? hw)).mono (he₁.trans he₂)) hv
    have hr := hr.mono he₂
    have htype : e₂.HasVar (items.head?.getD r.type) := by
      rw [List.head?_eq_getElem?]
      exact hitem 0 hr.type
    split
    · refine pure fun he₃ => hstopped ((he₁.trans he₂).trans he₃) hq ?_ _
      exact ⟨htype.mono he₃, htype.mono he₃, hr.traceback.mono he₃⟩
    · refine pure fun he₃ => hstopped ((he₁.trans he₂).trans he₃) hq ?_ _
      exact ⟨htype.mono he₃, (hitem 1 hr.value).mono he₃, (hitem 2 hr.traceback).mono he₃⟩

theorem returnValue (hp : e.HasPath p) : Keeps e (returnValue p) Extent.HasPath := by
  refine bind (pop hp) fun _ _ hq => ?_
  refine bind frame fun he _ hf => ?_
  refine bind (paste hf.result (hq.2.node.mono he) _) fun he' _ _ => ?_
  exact pure fun he'' => (hq.2.mono (by grind)).reshape _ _

theorem yieldValue (hp : e.HasPath p) : Keeps e (yieldValue p) Extent.HasPath := by
  refine bind (pop hp) fun _ _ hq => ?_
  refine bind frame fun he _ hf => ?_
  refine bind (paste hf.yielded (hq.2.node.mono he) _) fun he' _ _ => ?_
  exact pure fun he'' => (hq.2.mono (by grind)).reshape _ _

theorem step (hcall : Caller.Follows call call') (i : Instruction) (hp : e.HasPath p) :
    Follows e (step call i p) (step call' i p) Extent.HasPath := by
  have hsame : Keeps e (Pure.pure p) Extent.HasPath := pure fun he => hp.mono he
  obtain ⟨k, op, a, line, t⟩ := i
  unfold Analysis.step
  cases op with
  -- operands
  | nop | popExcept | printNewline => exact hsame
  | popTop => exact discard hp
  | dupTop => exact pushed hp (top hp)
  | dupTopx => exact bind (argument _) fun he _ _ => duplicate _ (hp.mono he)
  | dupTopTwo => exact duplicate 2 hp
  | rotTwo | rotThree | rotFour => exact rotate _ hp
  | loadConst => exact pushed hp (constAt _)
  | printExpr | printItem | printNewlineTo | printItemTo | execStmt => exact discardN _ hp
  -- names
  | loadName | loadGlobal => exact bind (nameAt _) fun he _ _ => loadName _ _ (hp.mono he)
  | loadFast => exact bind (localAt _) fun he _ _ => loadName _ _ (hp.mono he)
  | storeName | storeGlobal =>
    exact bind (nameAt _) fun he _ _ => bind frame fun he' _ _ =>
      storeName _ _ (hp.mono (he.trans he'))
  | storeFast =>
    exact bind (localAt _) fun he _ _ => bind frame fun he' _ _ =>
      storeName _ _ (hp.mono (he.trans he'))
  | deleteName | deleteGlobal =>
    exact bind (nameAt _) fun he _ _ => pure fun he' => hp.mono (he.trans he')
  | deleteFast => exact bind (localAt _) fun he _ _ => pure fun he' => hp.mono (he.trans he')
  | loadClosure => exact pushed hp (cellAt _)
  | loadDeref => exact bind (cellAt _) fun he _ _ => loadCell _ (hp.mono he)
  | storeDeref => exact bind (cellAt _) fun he _ hcell => storeCell hcell (hp.mono he)
  | loadLocals => exact loadLocals hp
  | storeLocals => exact storeLocals hp
  -- operators
  | unaryNot => exact unaryNot hp
  | unaryNegative | unaryPositive | unaryInvert => exact unaryOperator hcall _ hp
  | unaryConvert => exact unaryConvert hp
  | compareOp => exact bind (argument _) fun he _ _ => compareOperands hcall _ (hp.mono he)
  | binarySubscr => exact subscript hcall hp
  | binaryPower | binaryMultiply | binaryDivide | binaryModulo | binaryAdd | binarySubtract
  | binaryFloorDivide | binaryTrueDivide | binaryLshift | binaryRshift
  | binaryAnd | binaryXor | binaryOr
  | inplaceFloorDivide | inplaceTrueDivide | inplaceAdd | inplaceSubtract | inplaceMultiply
  | inplaceDivide | inplaceModulo | inplacePower | inplaceLshift | inplaceRshift | inplaceAnd
  | inplaceXor | inplaceOr => exact runOperator hcall _ hp
  -- attributes
  | loadAttr =>
    exact bind (nameAt _) fun he _ _ => bind (pop (hp.mono he)) fun _ _ hq =>
      pushed hq.2 (loadAttribute hq.2.node _ _)
  | storeAttr =>
    refine bind (nameAt _) fun he _ _ => ?_
    refine bind (popTwo (hp.mono he)) fun _ _ hq => ?_
    refine bind (storeAttribute hq.2.2.node _ _ _) fun he' _ _ => ?_
    exact forward (hq.2.2.mono he')
  | deleteAttr => exact bind (nameAt _) fun he _ _ => discard (hp.mono he)
  -- containers
  | buildTuple => exact bind (argument _) fun he _ _ => buildTuple _ (hp.mono he)
  | buildList | buildSet => exact bind (argument _) fun he _ _ => buildContainer _ _ (hp.mono he)
  | buildMap => exact buildMap hp
  | buildSlice => exact bind (argument _) fun he _ _ => buildSlice _ (hp.mono he)
  | storeMap => exact addEntry hcall (pure fun _ => trivial) hp
  | mapAdd => exact addEntry hcall (argument _) hp
  | listAppend | setAdd => exact addItem hcall _ (argument _) hp
  | storeSubscr => exact storeSubscript hcall hp
  | deleteSubscr => exact deleteSubscript hcall hp
  | unpackSequence => exact bind (argument _) fun he _ _ => unpack _ (hp.mono he)
  | slice0 | slice1 | slice2 | slice3 => exact loadSlice hcall _ hp
  | storeSlice0 | storeSlice1 | storeSlice2 | storeSlice3 => exact storeSlice hcall _ hp
  | deleteSlice0 | deleteSlice1 | deleteSlice2 | deleteSlice3 => exact deleteSlice hcall _ hp
  -- branches and loops
  | jumpForward | jumpAbsolute => exact jump _ hp
  | jumpIfTrue | jumpIfFalse | popJumpIfTrue | popJumpIfFalse | jumpIfTrueOrPop
  | jumpIfFalseOrPop => exact jumpIf _ _ _ hp
  | getIter => exact getIterator hcall hp
  | forIter => exact nextItem hcall _ hp
  -- regions, exceptions and returns
  | setupLoop =>
    exact bind (target _) fun he _ _ => pure fun he' => enter (hp.mono (he.trans he')) ..
  | setupExcept => exact setupHandled _ hp
  | setupFinally => exact setupCleanup _ hp
  | setupWith => exact setupContext hcall _ hp
  | popBlock => exact bind (leave hp) fun _ _ hq => pure fun he => hq.mono he
  | breakLoop | continueLoop => exact pure fun he => (hp.mono he).reshape _ _
  | withCleanup => exact leaveContext hcall hp
  | endFinally => exact endCleanup hp
  | raiseVarargs => exact bind (argument _) fun he _ _ => raise _ (hp.mono he)
  | returnValue => exact returnValue hp
  | yieldValue => exact yieldValue hp
  -- calls, functions and classes
  | callFunction | callFunctionVar | callFunctionKw | callFunctionVarKw =>
    exact callWith hcall _ _ _ hp
  | makeFunction | makeClosure => exact makeFunction _ _ hp
  | buildClass => exact buildClassFromParts hp
  | loadBuildClass => exact pushed hp (specialForm _)
  -- imports
  | importName => exact bind (nameAt _) fun he _ _ => importName _ (hp.mono he)
  | importFrom => exact bind (nameAt _) fun he _ _ => importFrom _ (hp.mono he)
  | importStar => exact importStar hp

end Analysis.Follows

end ValueTrace
