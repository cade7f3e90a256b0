import ValueTrace.Proofs.References.Calls
import ValueTrace.Proofs.Safety.Points

/-!
# Sound runs

The machine is sound at every point of a run, and the path holds only what is there. So what follows
from that, and from what is known to hold at every point, holds at every point.
-/

namespace ValueTrace

variable {e : Extent} {n : NodeId} {step step' function function' classBody classBody' :
  Analysis.Stepper} {call call' : Caller} {direct direct' : ValueCaller}

namespace Analysis.Follows

theorem newFrame (hn : e.HasNode n) (code : PlacedCode) (globals : NamespaceId)
    (locals : Option NamespaceId) {closure : List VarId} (hclosure : e.HasVars closure)
    (args : Members) : Keeps e (newFrame code globals locals closure args n) Extent.HasFrame := by
  unfold Analysis.newFrame
  extract_lets given finish
  have hfinish {e' : Extent} (he : e ≤ e') (locals : NamespaceId) :
      Keeps e' (finish locals) Extent.HasFrame := by
    refine bind (mapM (R := Extent.HasVar) (fun he hv => hv.mono he) fun name _ _ he₁ => ?_)
      fun he₁ cells hcells => ?_
    · refine bind (newVariable name) fun he₂ cell hcell => ?_
      dsimp only
      split
      · next arg _ =>
        exact bind (paste hcell (hn.mono (by grind)) arg) fun he₃ _ _ => pure fun he₄ => by grind
      · exact pure fun he₃ => hcell.mono he₃
    refine bind (mapM (R := Extent.HasVar) (fun he hv => hv.mono he) fun entry _ _ he₂ => ?_)
      fun he₂ free hfree => ?_
    · obtain ⟨name, i⟩ := entry
      dsimp only
      split
      · next v hv =>
        exact pure fun he₃ => (hclosure v (List.mem_of_getElem? hv)).mono (by grind)
      · exact newVariable name
    refine bind (forM fun entry _ _ he₃ => ?_) fun he₃ _ _ => ?_
    · have hcopy := bindCopy (k := Pure.pure ()) (R := fun _ _ => True) entry.1
        (hn.mono (he.trans (he₁.trans (he₂.trans he₃)))) entry.2 locals
        fun _ => pure fun _ => trivial
      simpa only [bind_pure_unit] using hcopy
    refine bind (newVariable _) fun he₄ result hresult => ?_
    refine bind (newVariable _) fun he₅ yielded hyielded => pure fun he₆ => ?_
    refine ⟨?_, by grind, by grind, fun i p h => by simp at h, fun i p h => by simp at h⟩
    exact Extent.HasVars.append (Extent.HasVars.mono hcells (by grind))
      (Extent.HasVars.mono hfree (by grind))
  clear_value given
  split
  · exact bind (pure (Q := fun _ _ => True) fun _ => trivial) fun he ns _ => hfinish he ns
  · exact bind newNamespace fun he ns _ => hfinish he ns

theorem enterNode (hn : e.HasNode n) (name : String) : Keeps e (enterNode n name) Extent.HasNode :=
  grow fun m hm he _ _ h => by
    obtain ⟨hs, hk⟩ := (Graph.Succeeds.refl hm.built hm.closed).connectNew (hm.lt_of_hasNode he hn)
      (fun _ hc => by cases hc) h
    exact ⟨hs, .inr hk⟩

theorem runInstruction (hstep : Stepper.Follows step step') (i : Instruction) {p : Path}
    (hp : e.HasPath p) :
    Follows e (runInstruction step i p) (runInstruction step' i p) Extent.HasPath := by
  refine bind (modify fun m hm => ⟨⟨hm.built, hm.closed, hm.root, hm.start, hm.store, hm.literals,
    hm.frames, hm.apart⟩, le_rfl⟩) fun he₁ _ _ => bind (modifyFrame fun f _ hf => ⟨hf.cells, hf.result,
      hf.yielded, hf.entry, hf.raised⟩) fun he₂ _ _ => bind (mapFailure rfl
        (hstep _ i p (hp.mono (he₁.trans he₂)))) fun _ q hq => pure fun he => ?_
  split
  · exact (hq.mono he).reshape _ _
  · exact hq.mono he

theorem runInstructions (hstep : Stepper.Follows step step') (is : List Instruction)
    (last : Instruction) {p : Path} (hp : e.HasPath p) :
    Follows e (runInstructions step last p is) (runInstructions step' last p is)
      fun e' r => e'.HasPath r.2 := by
  induction is generalizing e last p with
  | nil => exact pure fun he => hp.mono he
  | cons i is ih =>
    unfold Analysis.runInstructions
    split
    · exact pure fun he => hp.mono he
    · exact bind (runInstruction hstep i hp) fun _ q hq => ih i hq

theorem runBlock (hstep : Stepper.Follows step step') (b : Block) {p : Path} (hp : e.HasPath p) :
    Follows e (runBlock step b p) (runBlock step' b p)
      fun e' o => ∀ n, o = some n → e'.HasNode n := by
  unfold Analysis.runBlock
  cases b.ops with
  | nil => exact pure fun _ _ h => by cases h
  | cons i is =>
    refine bind (runInstruction hstep i hp) fun _ q hq =>
      bind (runInstructions hstep is i hq) fun _ r hr => ?_
    obtain ⟨last, r⟩ := r
    have hreturn {e' : Extent} (h : e'.HasPath r) (n : NodeId) (hn : some r.node = some n) :
        e'.HasNode n := by
      cases hn
      exact h.node
    dsimp only
    split
    · exact pure fun he => hreturn (hr.mono he)
    · exact pure fun he => hreturn (hr.mono he)
    · exact pure fun _ _ h => by cases h
    · exact bind (unwind last hr _) fun _ _ _ => pure fun _ _ h => by cases h
    · split
      · exact bind (storeJump _ hr) fun _ _ _ => pure fun _ _ h => by cases h
      · exact pure fun _ _ h => by cases h

theorem runEntries (hstep : Stepper.Follows step step') (b : Block) :
    Follows e (runEntries step b) (runEntries step' b) fun e' ns => ∀ n ∈ ns, e'.HasNode n := by
  unfold Analysis.runEntries
  split
  · next start _ =>
    refine bind frame fun _ f hf => ?_
    extract_lets paths
    split
    · exact pure fun _ _ h => by simp at h
    · refine bind (modifyFrame fun f _ hf => ⟨hf.cells, hf.result, hf.yielded, hf.entry,
        hf.raised⟩) fun he₁ _ _ => bind (mapM (R := fun e' o => ∀ n, o = some n → e'.HasNode n)
          (fun he h n hn => (h n hn).mono he) fun p hp _ he₂ => runBlock hstep b ?_)
            fun _ rs hrs => pure fun he₃ n hn => ?_
      · rcases List.mem_append.mp hp with hp | hp
        · exact (hf.entry start p (Option.mem_toList.mp hp)).mono (he₁.trans he₂)
        · exact (hf.raised start p (Option.mem_toList.mp hp)).mono (he₁.trans he₂)
      · obtain ⟨o, ho, hn⟩ := List.mem_filterMap.mp hn
        exact (hrs o ho n hn).mono he₃
  · exact pure fun _ _ h => by simp at h

theorem runFrame (hstep : Stepper.Follows step step') {f : Frame} (hf : e.HasFrame f)
    (hn : e.HasNode n) :
    Follows e (runFrame step f n) (runFrame step' f n) Extent.HasResult := by
  unfold Analysis.runFrame
  dsimp only
  split
  · next first _ =>
    have hpath : e.HasPath { node := n } := ⟨hn, Extent.hasVars_nil e, nofun, nofun⟩
    refine bind (withFrame (hf.insert hpath _) (bind
      (mapM (R := fun e' ns => ∀ k ∈ ns, e'.HasNode k) (fun he h k hk => (h k hk).mono he)
        fun b _ _ _ => runEntries hstep b) fun _ nss hnss =>
        pure (Q := fun e' ns => ∀ k ∈ ns, e'.HasNode k) fun he k hk => ?_)) fun he₁ ns hns => ?_
    · obtain ⟨ns, hns, hk⟩ := List.mem_flatten.mp hk
      exact (hnss ns hns k hk).mono he
    · split
      · exact pure fun he₂ => ⟨hn.mono (he₁.trans he₂), hf.result.mono (he₁.trans he₂)⟩
      · exact bind (joinNodes hns) fun he₂ join hjoin => pure fun he₃ =>
          ⟨hjoin.mono he₃, hf.result.mono (by grind)⟩
  · exact throw _

theorem typeOf (hn : e.HasNode n) (v : VarId) : Keeps e (typeOf n v) fun _ _ => True := by
  refine bind (newVariable _) fun he₁ result hresult => ?_
  refine bind (visible v n) fun he₂ bs hbs => ?_
  refine bind (forM fun b hb e₃ he₃ => ?_) fun _ _ _ => pure fun _ => trivial
  have hb : e₃.HasBindings [b] := ((hbs b hb).mono he₃).single
  have hn : e₃.HasNode n := by grind
  have hresult : e₃.HasVar result := by grind
  refine bind (dataOf b) fun he₄ d _ => bind (value d) fun {e₅} he₅ x _ => ?_
  have hbind {e' : Extent} (he : e₅ ≤ e') (cls : DataId) :
      Keeps e' (Analysis.bind result cls [b] n) fun _ _ => True :=
    bindVariable (by grind) (by grind) (by grind) (List.cons_ne_nil _ _) cls
  have hclass (name : String) := bind (libraryClass name) fun he cls _ => hbind he cls
  have hpure (cls : DataId) := bind (pure (a := cls) (Q := fun _ _ => True) fun _ => trivial)
    fun he cls _ => hbind he cls
  cases x with
  | object o => exact hpure _
  | ofClass c => exact hclass _
  | function f | native f | method r f | special form => exact hclass _
  | module name members => exact hclass _
  | unknown members | unsolvable => exact hpure _

theorem isInstance (hn : e.HasNode n) (obj cls : VarId) :
    Keeps e (isInstance n obj cls) fun _ _ => True := by
  refine bind (newVariable _) fun he₁ result hresult => ?_
  refine bind (visible obj n) fun he₂ objs hobjs => ?_
  refine bind (visible cls n) fun he₃ classes hclasses => ?_
  refine bind (forM fun o ho e₄ he₄ => forM fun c hc e₅ he₅ => ?_)
    fun _ _ _ => pure fun _ => trivial
  have hsources : e₅.HasBindings [o, c] :=
    .cons ((hobjs o ho).mono (by grind)) ((hclasses c hc).mono (by grind)).single
  have hn : e₅.HasNode n := by grind
  have hresult : e₅.HasVar result := by grind
  refine bind get fun _ m _ => ?_
  refine bind (dataOf c) fun _ d _ => ?_
  refine bind (dataOf o) fun _ d' _ => ?_
  refine bind (truth _) fun _ t _ => ?_
  exact bindVariable (by grind) (by grind) (by grind) (List.cons_ne_nil _ _) t

end Analysis.Follows

/-- The binding of the value that has been called is there, and the node at which the call ended. -/
structure Answered (e : Extent) (t : BindingId × Except CallFailure (NodeId × VarId)) : Prop where
  binding : e.HasBinding t.1
  node : ∀ r, t.2 = .ok r → e.HasNode r.1

theorem Answered.mono {e' : Extent} {t : BindingId × Except CallFailure (NodeId × VarId)}
    (ht : Answered e t) (h : e ≤ e') : Answered e' t :=
  ⟨ht.binding.mono h, fun r hr => (ht.node r hr).mono h⟩

namespace Attempt.Follows

/-- A value that is tried. -/
theorem tryOne (hdirect : ValueCaller.Follows direct direct') (hn : e.HasNode n) {b : BindingId}
    (hb : e.HasBinding b) {args : CallArgs} (ha : e.HasArgs args) :
    Analysis.Follows e (do return (b, ← (direct n (← Analysis.dataOf b) b args).run))
      (do return (b, ← (direct' n (← Analysis.dataOf b) b args).run)) Answered :=
  .bind (.dataOf b) fun he d _ => .bind (hdirect _ n d b args (by grind) (hb.mono he) (by grind))
    fun he₁ r hr => .pure fun he₂ => ⟨hb.mono (by grind), fun r' h => (hr r' h).mono he₂⟩

/-- After all tries a call joins them. It succeeds if one of them does. -/
theorem callEach_tail (n : NodeId) :
    ∃ tail : VarId → List (BindingId × Except CallFailure (NodeId × VarId)) →
        Analysis (Except CallFailure (NodeId × VarId)),
      (∀ (direct : ValueCaller) (func : VarId) (args : CallArgs),
        (Analysis.callEach direct n func args).run = do
          let result ← Analysis.newVariable "return"
          let tries ← (← Analysis.visible func n).mapM fun b => do
            return (b, ← (direct n (← Analysis.dataOf b) b args).run)
          tail result tries) ∧
      ∀ {e : Extent} {result : VarId} {tries : List (BindingId × Except CallFailure (NodeId × VarId))},
        e.HasNode n → e.HasVar result → (∀ t ∈ tries, Answered e t) →
          Analysis.Keeps e (tail result tries) fun e' r => (∀ a, r = .ok a → e'.HasResult a) ∧
            ∀ b a, (b, .ok a) ∈ tries → ∃ a, r = .ok a := by
  refine ⟨_, fun _ _ _ => rfl, fun {e result tries} hn hresult htries => ?_⟩
  extract_lets done
  have hdone : ∀ entry ∈ done, (entry.1, .ok entry.2) ∈ tries := by
    intro entry hentry
    obtain ⟨⟨b, r⟩, ht, hmatch⟩ := List.mem_filterMap.mp hentry
    cases r <;> cases hmatch
    exact ht
  have hnone (hempty : done.isEmpty = true) (b : BindingId) (a : NodeId × VarId)
      (h : (b, .ok a) ∈ tries) : False := by
    have hmem : (b, a) ∈ done := List.mem_filterMap.mpr ⟨_, h, rfl⟩
    rw [List.isEmpty_iff.mp hempty] at hmem
    cases hmem
  clear_value done
  split
  · next hempty =>
    split
    · exact .pure fun _ => ⟨nofun, fun b a h => (hnone hempty b a h).elim⟩
    · refine .pure fun he => ⟨fun _ h => ?_, fun _ _ _ => ⟨_, rfl⟩⟩
      cases h
      exact ⟨hn.mono he, hresult.mono he⟩
  · refine .bind (.joinNodes fun k hk => ?_) fun he₁ stop hstop => .bind (.forM fun entry hentry e₂
      he₂ => ?_) fun he₂ _ _ => .pure fun he₃ => ⟨fun r h => ?_, fun _ _ _ => ⟨_, rfl⟩⟩
    · obtain ⟨entry, hentry, rfl⟩ := List.mem_map.mp hk
      exact (htries _ (hdone entry hentry)).node _ rfl
    · obtain ⟨b, after, ret⟩ := entry
      have hb : e₂.HasBinding b := (htries _ (hdone _ hentry)).binding.mono (he₁.trans he₂)
      have hresult : e₂.HasVar result := by grind
      exact .bind (.visible ret after) fun he₃ rs hrs => .forM fun r hr e₄ he₄ =>
        .bind (.dataOf r) fun he₅ d _ => .bindVariable (by grind) (by grind)
          (.cons ((hrs r hr).mono (by grind)) (hb.mono (by grind)).single) (List.cons_ne_nil _ _) d
    · cases h
      exact ⟨by grind, by grind⟩

theorem callEach (hdirect : ValueCaller.Follows direct direct') :
    Caller.Follows (Analysis.callEach direct) (Analysis.callEach direct') := by
  intro e n func args hn ha
  obtain ⟨tail, heq, htail⟩ := callEach_tail n
  unfold Follows
  rw [heq, heq]
  exact .bind (.newVariable _) fun he₁ result hresult => .bind (.visible func n)
    fun he₂ bs hbs => .bind (.mapM (σ := BindingId) (R := Answered) (fun he h => h.mono he)
      fun b hb _ he₃ => tryOne hdirect (by grind) ((hbs b hb).mono (by grind)) (by grind))
        fun he₃ tries htries => (htail (by grind) (by grind) htries).weaken fun _ _ hr => hr.1

theorem callFunction (hstep : Analysis.Stepper.Follows step step') (hn : e.HasNode n)
    {f : FunctionValue} (hf : e.HasVars f.closure) {args : CallArgs} (ha : e.HasArgs args) :
    Follows e (Analysis.callFunction step n f args) (Analysis.callFunction step' n f args)
      fun e' r => e'.HasNode r.1 := by
  refine bind (bindArguments hn _ ha) fun he₁ bound _ => ?_
  refine bind (checkAnnotated ..) fun he₂ _ _ => ?_
  refine bind get fun he₃ m _ => ?_
  have hn := hn.mono (he₁.trans (he₂.trans he₃))
  have hf := hf.mono (he₁.trans (he₂.trans he₃))
  split
  · exact unsolved hn
  · split
    · exact unsolved hn
    · refine bind (lift (.newFrame hn _ _ _ hf _) fun he hf => hf.mono he)
        fun he₄ frame hframe => ?_
      refine bind (lift (.enterNode (hn.mono he₄) _) fun he hn => hn.mono he)
        fun he₅ start hstart => ?_
      refine bind (lift (.runFrame hstep (hframe.mono he₅) hstart) fun he hr => hr.mono he)
        fun he₆ r hr => ?_
      obtain ⟨stop, result⟩ := r
      dsimp only
      split
      · refine bind (liftTrue (.libraryClass _)) fun he₇ _ _ => ?_
        refine bind (liftTrue (.newObject_none _)) fun he₈ d _ => ?_
        refine bind (liftTrue (.fillTypeParam d _ _ (hr.node.mono (by grind)))) fun he₉ _ _ => ?_
        refine bind (lift (.variableHolding _ d (hr.node.mono (by grind))) fun he hv => hv.mono he)
          fun he₁₀ _ _ => ?_
        exact pure fun he₁₁ => hr.node.mono (by grind)
      · exact pure fun he₇ => hr.node.mono he₇

theorem instantiateClass (hcall : Caller.Follows call call') (hn : e.HasNode n) (d : DataId)
    (c : ClassValue) {args : CallArgs} (ha : e.HasArgs args) :
    Follows e (Analysis.instantiateClass call n d c args)
      (Analysis.instantiateClass call' n d c args)
      fun e' r => e'.HasNode r.1 := by
  unfold Analysis.instantiateClass
  split
  · exact bind (liftTrue (.typeOf hn _)) fun he _ _ => pure fun he' => hn.mono (he.trans he')
  · extract_lets finish finish'
    have hfinish {e' : Extent} (he : e ≤ e') (d : DataId) :
        Follows e' (finish d) (finish' d) fun e' r => e'.HasNode r.1 := by
      refine bind (lift (.variableHolding _ d (hn.mono he)) fun he hv => hv.mono he)
        fun he₁ v hv => bind (lift (.allBindings v) fun he hbs => hbs.mono he) fun he₂ bs hbs =>
          bind (lift (.attributeOf (hn.mono (by grind)) d "__init__" fun b hb =>
            hbs b (List.mem_of_head? (Option.mem_toList.mp hb))) fun he ho => ho.mono he)
              fun he₃ o _ => ?_
      cases o with
      | none => exact pure fun he₄ => hn.mono (by grind)
      | some init =>
        exact bind (hcall _ n init args (hn.mono (by grind)) (ha.mono (by grind))) fun he₄ r hr =>
          pure fun he₅ => hr.node.mono he₅
    split
    · exact bind (liftTrue (.sharedObject _)) fun he d _ => hfinish he d
    · exact bind (liftTrue (.newObject_none _)) fun he d _ => hfinish he d

theorem buildClass (hstep : Analysis.Stepper.Follows step step') (hn : e.HasNode n)
    (args : CallArgs) :
    Follows e (Analysis.buildClass step n args) (Analysis.buildClass step' n args)
      fun e' r => e'.HasNode r.1 := by
  unfold Analysis.buildClass
  split
  · refine bind get fun he₁ m hm => ?_
    refine bind (liftTrue (.dataAt ..)) fun he₂ data _ => ?_
    refine bind (liftTrue (.textIn ..)) fun {e₃} he₃ name _ => ?_
    have hn := hn.mono (he₁.trans (he₂.trans he₃))
    dsimp only
    split
    · exact unsolved hn
    · next f hf =>
      obtain ⟨d, -, hd⟩ := List.exists_of_findSome?_eq_some hf
      have hclosure : e₃.HasVars f.closure := by
        have hvalue := (Analysis.Follows.hasStore hm).values d
        split at hd
        · next hv =>
          cases hd
          rw [hv] at hvalue
          exact hvalue.2.mono (he₂.trans he₃)
        · cases hd
      refine bind (lift (.newFrame hn _ _ _ hclosure _) fun he hf => hf.mono he)
        fun he₄ frame hframe => ?_
      refine bind (lift (.enterNode (hn.mono he₄) name) fun he hn => hn.mono he)
        fun he₅ start hstart => ?_
      refine bind (lift (.runFrame hstep (hframe.mono he₅) hstart) fun he hr => hr.mono he)
        fun he₆ r hr => ?_
      exact Attempt.Follows.getLift (fun m hm he₇ => .mono
        (Analysis.Follows.slotsIn m frame.locals) (Analysis.Follows.makeClass
        (hr.node.mono he₇) name _ (Analysis.Follows.membersIn ⟨hm, le_rfl⟩ frame.locals)))
        fun he₇ _ _ _ => pure fun he₈ => hr.node.mono (he₇.trans he₈)
  · exact throw _

theorem callSpecial (hstep : Analysis.Stepper.Follows step step') (hn : e.HasNode n)
    (form : SpecialForm) (args : CallArgs) :
    Follows e (Analysis.callSpecial step n form args) (Analysis.callSpecial step' n form args)
      fun e' r => e'.HasNode r.1 := by
  unfold Analysis.callSpecial
  cases form with
  | super => exact unsolved hn
  | isInstance =>
    dsimp only
    split
    · exact bind (liftTrue (.isInstance hn ..)) fun he _ _ => pure fun he' => hn.mono (he.trans he')
    · exact throw _
  | buildClass => exact buildClass hstep hn args

theorem callVia (hdirect : ValueCaller.Follows direct direct')
    (hfunction : Analysis.Stepper.Follows function function')
    (hclass : Analysis.Stepper.Follows classBody classBody') :
    ValueCaller.Follows (Analysis.callVia function classBody direct)
      (Analysis.callVia function' classBody' direct') := by
  intro e n d b args hn hb ha
  refine bind (lift (.value d) fun he hx => hx.mono he) fun he x hx => ?_
  have hn := hn.mono he
  have ha := ha.mono he
  cases x with
  | function f => exact callFunction hfunction hn hx.2 ha
  | native f => exact callLibrary hn f args
  | method receiver f => exact hdirect _ n f b _ hn (hb.mono he) (Extent.HasVars.cons hx ha)
  | ofClass c => exact instantiateClass (callEach hdirect) hn d c ha
  | object o =>
    refine bind (lift (.attributeOf hn d "__call__" (hb.mono he).single) fun he ho => ho.mono he)
      fun he' method _ => ?_
    cases method with
    | some method =>
      exact weaken (callEach hdirect _ n method args (hn.mono he') (ha.mono he'))
        fun _ _ hr => hr.node
    | none => exact bind get fun _ _ _ => throw _
  | module name members => exact bind get fun _ _ _ => throw _
  | unknown members =>
    exact bind (lift (.newUnknown hn) fun he hv => hv.mono he) fun he' _ _ => pure fun he'' =>
      hn.mono (he'.trans he'')
  | unsolvable => exact unsolved hn
  | special form => exact callSpecial hclass hn form args

end Attempt.Follows

end ValueTrace
