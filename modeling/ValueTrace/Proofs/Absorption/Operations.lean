import ValueTrace.Proofs.Absorption.Quiet
import ValueTrace.Proofs.Safety.Routes
import ValueTrace.Step.Instruction

/-!
# What is done with values that have been given up

Each operation on a variable that gives up answers with a variable that gives up at the same node,
and says nothing about it. An answer is justified by what has been found in the variable, together
with new bindings that nothing justifies.
-/

namespace ValueTrace

/-- Each call of a value that has been given up is answered with a new one, where the call is. -/
def ValueCaller.Absorbs (call : ValueCaller) : Prop :=
  ∀ (m : Machine) (n : NodeId) (d : DataId) (b : BindingId) (args : CallArgs), m.Sound →
    n < m.graph.nodes.size → m.store.GivenUp d →
      Analysis.Quiet False m m (call n d b args).run fun r m' =>
        ∃ v c, r = .ok (n, v) ∧ m'.graph.BoundBy n v Machine.unsolvable c []

/-- A variable that gives up may be called with any arguments. -/
def Caller.Absorbs (call : Caller) : Prop :=
  ∀ (m : Machine) (n : NodeId) (v : VarId) (args : CallArgs), m.Sound → m.GivesUp n v →
    Analysis.Quiet False m m (call n v args).run fun r m' => ∃ w, r = .ok (n, w) ∧ m'.GivesUp n w

namespace Analysis.Quiet

variable {m m₀ : Machine} {n : NodeId} {v w r : VarId} {b : BindingId} {d : DataId} {fails : Prop}
  {name : String}

theorem attributeOf (hm : m.Sound) (hn : n < m.graph.nodes.size) (hd : m.store.GivenUp d)
    (name : String) (receiver : Option BindingId) :
    Quiet fails m m (attributeOf n d name receiver) fun o m' =>
      ∃ v c, o = some v ∧ m'.graph.BoundBy n v Machine.unsolvable c [] := by
  unfold Analysis.attributeOf
  refine read (a := m.store.get d) rfl ?_
  rw [hd.get]
  refine bind (newUnsolvable hm hn) fun v m' hm' hv => pure hm' ?_
  obtain ⟨c, hc⟩ := hv
  exact ⟨v, c, rfl, hc⟩

/-- What a new variable holds is copied on behalf of a binding that could hold in the beginning. -/
theorem collectFree (h₀ : m₀.Sound) (hm : m₀.Widens m) (hr : m₀.Collects m r)
    (hb : b ∈ m₀.graph.visible v n) {c : BindingId}
    (hw : m.graph.BoundBy n w Machine.unsolvable c []) :
    m.graph.visible w n = [c] ∧
      Quiet fails m₀ m ([c].forM fun a => do Analysis.bind r (← dataOf a) [a, b] n) fun _ m' =>
        m₀.Backed m' n r ∧ m₀.Retains n m m' := by
  have hwf := hm.sound.built.wellFormed
  have hdata : m.graph.dataOf c = Machine.unsolvable := (hw.only.eq_singleton hwf hw.listed).2
  constructor
  · refine hw.visible_eq hwf ((hm.canHold h₀ hb).1.mono fun a ha => ?_)
    cases ha
  · refine bind (read (a := Machine.unsolvable) (congrArg (EStateM.Result.ok · m) hdata)
      (collect h₀ hm hr hb [c] fun a ha => ?_)) fun _ m' hm' h => pure hm' h
    exact List.mem_singleton.mp ha ▸ ⟨w, hw⟩

theorem pasteAttribute (h₀ : m₀.Sound) (hm : m₀.Widens m) (hr : m₀.Collects m r)
    (hb : b ∈ m₀.graph.visible v n) {c : BindingId}
    (hw : m.graph.BoundBy n w Machine.unsolvable c []) :
    Quiet fails m₀ m (pasteAttribute n r w b) fun ok m' =>
      ok = true ∧ m₀.Backed m' n r ∧ m₀.Retains n m m' := by
  obtain ⟨hvisible, hpaste⟩ := collectFree h₀ hm hr hb hw
  exact read (a := [c]) (congrArg (EStateM.Result.ok · m) hvisible)
    (bind hpaste fun _ m' hm' h => pure hm' ⟨rfl, h⟩)

theorem loadAttribute? (hm : m.Sound) (hv : m.GivesUp n v) (name : String) :
    Quiet fails m m (loadAttribute? n v name) fun o m' => ∃ w, o = some w ∧ m'.GivesUp n w := by
  have hn := (hv.lt hm).1
  refine bind (newVariable hm name) fun r m₁ hm₁ hr => ?_
  have hvisible := hv.visible_widens hm hm₁
  refine read (a := m.graph.visible v n) (congrArg (EStateM.Result.ok · m₁) hvisible) ?_
  refine bind (mapM (fun oks m' => m.Collects m' r ∧ (∀ ok ∈ oks, ok = true) ∧
    (oks ≠ [] → m.Backed m' n r)) hm₁ ⟨hr, by simp, by simp⟩ fun b hb oks m₂ hm₂ hI => ?_)
    fun oks m₂ hm₂ hI => ?_
  · obtain ⟨hcollects, hoks, -⟩ := hI
    have hd := hv.givenUp_widens hm hm₂ hb
    refine read (a := m₂.graph.dataOf b) rfl ?_
    refine bind (after hm₂ (attributeOf hm₂.sound
      (hn.trans_le hm₂.graph.nodes_le) hd name (some b)))
      fun o m₃ hm₃ ho => ?_
    obtain ⟨hm₂₃, w, c, rfl, hw⟩ := ho
    have hretains : m.Retains n m₂ m₃ := .of_widens hm₂.sound hm₂₃
    refine weaken (pasteAttribute hm hm₃ (hretains.collects r hcollects) hb hw)
      fun ok m₄ _ h => ?_
    obtain ⟨hok, hbacked, hretains'⟩ := h
    refine ⟨hretains'.collects r (hretains.collects r hcollects), fun ok' hmem => ?_,
      fun _ => hbacked⟩
    rcases List.mem_append.mp hmem with hmem | hmem
    · exact hoks ok' hmem
    · rw [List.mem_singleton.mp hmem, hok]
  · obtain ⟨⟨-, hoks, hbacked⟩, hlength⟩ := hI
    have hne : oks ≠ [] := hv.ne_nil hlength
    obtain ⟨ok, hok⟩ := List.exists_mem_of_ne_nil oks hne
    have hany : oks.any id = true := List.any_eq_true.mpr ⟨ok, hok, hoks ok hok⟩
    refine pure hm₂ ⟨r, ?_, (hbacked hne).givesUp hm hm₂⟩
    rw [if_pos hany]

theorem loadAttribute (hm : m.Sound) (hv : m.GivesUp n v) (name : String) :
    Quiet fails m m (loadAttribute n v name) fun w m' => m'.GivesUp n w := by
  refine bind (loadAttribute? hm hv name) fun o m₁ hm₁ ho => ?_
  obtain ⟨w, rfl, hw⟩ := ho
  exact pure hm₁ hw

/-- A step that is part of an attempt. -/
theorem bindRun {α β : Type} {x : Analysis α} {f : α → Attempt β} {Q : α → Machine → Prop}
    {R : Except CallFailure β → Machine → Prop} (hx : Quiet fails m₀ m x Q)
    (hf : ∀ a m', m₀.Widens m' → Q a m' → Quiet fails m₀ m' (f a).run R) :
    Quiet fails m₀ m (liftM x >>= f : Attempt β).run R := by
  rw [ExceptT.run_bind]
  refine bind (Q := fun a m' => ∃ a', a = .ok a' ∧ Q a' m') ?_ fun a m' hm' ha => ?_
  · exact bind hx fun a m' hm' ha => pure hm' ⟨a, rfl, ha⟩
  · obtain ⟨a, rfl, ha⟩ := ha
    exact hf a m' hm' ha

theorem callValue (step : Caller → Stepper) (fuel : Nat) :
    ValueCaller.Absorbs (callValue step (fuel + 1)) := by
  intro m n d b args hm hn hd
  rw [callValue_succ]
  refine bindRun (Q := fun a m' => a = .unsolvable ∧ m' = m)
    (of_ok rfl (.refl hm) ⟨hd.get, rfl⟩) fun a m' hm' ha => ?_
  obtain ⟨rfl, rfl⟩ := ha
  refine bindRun (newUnsolvable hm hn) fun v m' hm' hv => pure hm' ?_
  obtain ⟨c, hc⟩ := hv
  exact ⟨v, c, rfl, hc⟩

/-- Where all paths are at one node already, there is nothing to join. -/
theorem joinNodes {ns : List NodeId} (hne : ns ≠ []) (h : ∀ k ∈ ns, k = n) :
    Analysis.joinNodes ns = Pure.pure n := by
  cases ns with
  | nil => exact absurd rfl hne
  | cons k ns =>
    obtain rfl := h k List.mem_cons_self
    have hrest : ns.filter (fun b => !b == k) = [] := List.filter_eq_nil_iff.mpr fun b hb => by
      simp [h b (List.mem_cons_of_mem k hb)]
    unfold Analysis.joinNodes
    rw [List.eraseDups_cons, hrest]
    rfl

theorem callEach {call : ValueCaller} (hcall : call.Absorbs) : Caller.Absorbs (callEach call) := by
  intro m n v args hm hv
  have hn := (hv.lt hm).1
  refine bind (newVariable hm "return") fun r m₁ hm₁ hr => ?_
  have hvisible := hv.visible_widens hm hm₁
  refine read (a := m.graph.visible v n) (congrArg (EStateM.Result.ok · m₁) hvisible) ?_
  refine bind (mapM (fun tries m' => m.Collects m' r ∧ ∀ t ∈ tries, t.1 ∈ m.graph.visible v n ∧
    ∃ w c, t.2 = .ok (n, w) ∧ m'.graph.BoundBy n w Machine.unsolvable c []) hm₁ ⟨hr, by simp⟩
    fun b hb tries m₂ hm₂ hI => ?_) fun tries m₂ hm₂ hI => ?_
  · obtain ⟨hcollects, htries⟩ := hI
    have hd := hv.givenUp_widens hm hm₂ hb
    refine read (a := m₂.graph.dataOf b) rfl ?_
    refine bind (after hm₂ (hcall m₂ n _ b args hm₂.sound (hn.trans_le hm₂.graph.nodes_le) hd))
      fun t m₃ hm₃ ht => pure hm₃ ?_
    obtain ⟨hm₂₃, w, c, rfl, hw⟩ := ht
    have hretains : m.Retains n m₂ m₃ := .of_widens hm₂.sound hm₂₃
    refine ⟨hretains.collects r hcollects, fun t ht => ?_⟩
    rcases List.mem_append.mp ht with ht | ht
    · obtain ⟨hmem, w, c, heq, hw⟩ := htries t ht
      exact ⟨hmem, w, c, heq, hretains.boundBy w c [] hw⟩
    · obtain rfl := List.mem_singleton.mp ht
      exact ⟨hb, w, c, rfl, hw⟩
  · obtain ⟨⟨hcollects, htries⟩, hlength⟩ := hI
    extract_lets done
    have hdone : ∀ t ∈ done, t.1 ∈ m.graph.visible v n ∧ t.2.1 = n ∧
        ∃ c, m₂.graph.BoundBy n t.2.2 Machine.unsolvable c [] := by
      intro t ht
      obtain ⟨t', ht', heq⟩ := List.mem_filterMap.mp ht
      obtain ⟨hmem, w, c, hok, hw⟩ := htries t' ht'
      obtain ⟨b, r⟩ := t'
      dsimp only at hok
      subst hok
      cases heq
      exact ⟨hmem, rfl, c, hw⟩
    have hne : done ≠ [] := by
      obtain ⟨⟨b, r⟩, ht⟩ := List.exists_mem_of_ne_nil tries (hv.ne_nil hlength)
      obtain ⟨-, w, c, hok, -⟩ := htries _ ht
      dsimp only at hok
      subst hok
      exact List.ne_nil_of_mem (List.mem_filterMap.mpr ⟨_, ht, rfl⟩)
    rw [if_neg (by simpa using hne)]
    have hstop : Analysis.joinNodes (done.map (·.2.1)) = Pure.pure n :=
      joinNodes (by simpa using hne) fun k hk => by
        obtain ⟨t, ht, rfl⟩ := List.mem_map.mp hk
        exact (hdone t ht).2.1
    rw [hstop, pure_bind]
    refine bind (forM (fun through m' => m.Collects m' r ∧
      (∀ t ∈ done, ∃ c, m'.graph.BoundBy n t.2.2 Machine.unsolvable c []) ∧
      (through ≠ [] → m.Backed m' n r)) hm₂ ⟨hcollects, fun t ht => (hdone t ht).2.2, by simp⟩
      fun t ht through m₃ hm₃ hI => ?_) fun _ m₃ hm₃ hI => ?_
    · obtain ⟨hcollects, hbound, -⟩ := hI
      obtain ⟨c, hc⟩ := hbound t ht
      obtain ⟨b, after, w⟩ := t
      obtain ⟨hb, rfl, -⟩ := hdone _ ht
      obtain ⟨hvisible, hpaste⟩ := collectFree hm hm₃ hcollects hb hc
      refine read (a := [c]) (congrArg (EStateM.Result.ok · m₃) hvisible) ?_
      refine weaken hpaste fun _ m₄ _ h => ?_
      obtain ⟨hbacked, hretains⟩ := h
      refine ⟨hretains.collects r hcollects, fun t ht => ?_, fun _ => hbacked⟩
      obtain ⟨c, hc⟩ := hbound t ht
      exact ⟨c, hretains.boundBy _ c [] hc⟩
    · exact pure hm₃ ⟨r, rfl, (hI.2.2 hne).givesUp hm hm₃⟩

theorem callOrReport {call : Caller} (hcall : call.Absorbs) (hm : m.Sound) (hv : m.GivesUp n v)
    (args : CallArgs) : Quiet False m m (callOrReport call n v args) fun r m' =>
      ∃ w, r = (n, w) ∧ m'.GivesUp n w := by
  refine bind (hcall m n v args hm hv) fun r m' hm' hr => ?_
  obtain ⟨w, rfl, hw⟩ := hr
  exact pure hm' ⟨w, rfl, hw⟩

theorem callQuietly {call : Caller} (hcall : call.Absorbs) (hm : m.Sound) (hv : m.GivesUp n v)
    (args : CallArgs) : Quiet False m m (callQuietly call n v args) fun r m' =>
      ∃ w, r = (n, w) ∧ m'.GivesUp n w := by
  refine bind (hcall m n v args hm hv) fun r m' hm' hr => ?_
  obtain ⟨w, rfl, hw⟩ := hr
  exact pure hm' ⟨w, rfl, hw⟩

theorem callMethod {call : Caller} (hcall : call.Absorbs) (hm : m.Sound) (hv : m.GivesUp n v)
    (name : String) (args : List VarId) : Quiet False m m (callMethod call n v name args)
      fun r m' => ∃ w, r = (n, w) ∧ m'.GivesUp n w := by
  refine bind (loadAttribute hm hv name) fun w m₁ hm₁ hw => ?_
  exact weaken (after hm₁ (callOrReport hcall hm₁.sound hw _)) fun r m₂ _ h => h.2

theorem tryMethod {call : Caller} (hcall : call.Absorbs) (hm : m.Sound) (hv : m.GivesUp n v)
    (method : String) (arg : VarId) : Quiet False m m (tryMethod call n v method arg)
      fun o m' => ∃ w, o = some (n, w) ∧ m'.GivesUp n w := by
  refine bind (loadAttribute? hm hv method) fun o m₁ hm₁ ho => ?_
  obtain ⟨attr, rfl, hattr⟩ := ho
  refine bind (after hm₁ (callQuietly hcall hm₁.sound hattr _)) fun r m₂ hm₂ hr => ?_
  obtain ⟨-, w, rfl, hw⟩ := hr
  have hbound : m₂.graph.allBindings w ≠ [] := fun hnil => hw.visible_ne_nil (by
    rw [Graph.visible_eq_filter, hnil, List.filter_nil])
  refine read (a := true) (congrArg (EStateM.Result.ok · m₂) ?_) (pure hm₂ ⟨w, rfl, hw⟩)
  simpa using hbound

theorem applyOperator {call : Caller} (hcall : call.Absorbs) (hm : m.Sound) (hv : m.GivesUp n v)
    (method : String) (y : VarId) : Quiet False m m (applyOperator call n method v y)
      fun r m' => ∃ w, r = (n, w) ∧ m'.GivesUp n w := by
  unfold Analysis.applyOperator Analysis.tryOperator
  refine bind (Q := fun o m' => ∃ w, o = some (n, w) ∧ m'.GivesUp n w) ?_ fun o m₁ hm₁ ho => ?_
  · refine bind (tryMethod hcall hm hv method y) fun o m₁ hm₁ ho => ?_
    obtain ⟨w, rfl, hw⟩ := ho
    exact pure hm₁ ⟨w, rfl, hw⟩
  · obtain ⟨w, rfl, hw⟩ := ho
    exact pure hm₁ ⟨w, rfl, hw⟩

/-- One more operand lies on top of the rest: a variable that gives up where the path is. -/
def Pushes (p : Path) (rest : List VarId) (q : Path) (m : Machine) : Prop :=
  ∃ w, q = { p with stack := w :: rest } ∧ m.GivesUp p.node w

/-- What a path does on its own either fails or changes nothing but the path. -/
theorem readPath {α β : Type} {z : Except Failure α} {a : α} {f : α → Analysis β}
    {R : β → Machine → Prop} (hz : z = .ok a) (h : Quiet fails m₀ m (f a) R) :
    Quiet fails m₀ m (liftM z >>= f) R := by
  subst hz
  exact read rfl h

variable {call : Caller} {p : Path} {rest : List VarId} {y : VarId}

theorem binaryOperator (hcall : call.Absorbs) (hm : m.Sound) (hv : m.GivesUp p.node v)
    (hp : p.stack = y :: v :: rest) (method : String) :
    Quiet False m m (binaryOperator call method p) (Pushes p rest) := by
  refine readPath (a := (v, y, { p with stack := rest })) (by simp [Path.popTwo, hp]) ?_
  refine bind (applyOperator hcall hm hv method y) fun r m₁ hm₁ hr => ?_
  obtain ⟨w, rfl, hw⟩ := hr
  exact pure hm₁ ⟨w, rfl, hw⟩

theorem inplaceOperator (hcall : call.Absorbs) (hm : m.Sound) (hv : m.GivesUp p.node v)
    (hp : p.stack = y :: v :: rest) (inplace binary : String) :
    Quiet False m m (inplaceOperator call inplace binary p) (Pushes p rest) := by
  refine readPath (a := (v, y, { p with stack := rest })) (by simp [Path.popTwo, hp]) ?_
  refine bind (tryMethod hcall hm hv inplace y) fun o m₁ hm₁ ho => ?_
  obtain ⟨w, rfl, hw⟩ := ho
  exact pure hm₁ ⟨w, rfl, hw⟩

theorem runOperator (hcall : call.Absorbs) (hm : m.Sound) (hv : m.GivesUp p.node v)
    (hp : p.stack = y :: v :: rest) {op : Op}
    (hop : op.binaryMethod?.isSome ∨ op.inplaceMethods?.isSome) :
    Quiet False m m (runOperator call op p) (Pushes p rest) := by
  unfold Analysis.runOperator
  split
  · exact binaryOperator hcall hm hv hp _
  · exact inplaceOperator hcall hm hv hp _ _
  · next hb hi => simp [hb, hi] at hop

theorem unaryOperator (hcall : call.Absorbs) (hm : m.Sound) (hv : m.GivesUp p.node v)
    (hp : p.stack = v :: rest) (method : String) :
    Quiet False m m (unaryOperator call method p) (Pushes p rest) := by
  refine readPath (a := (v, { p with stack := rest })) (by simp [Path.pop, hp]) ?_
  refine bind (callMethod hcall hm hv method []) fun r m₁ hm₁ hr => ?_
  obtain ⟨w, rfl, hw⟩ := hr
  exact pure hm₁ ⟨w, rfl, hw⟩

theorem getIterator (hcall : call.Absorbs) (hm : m.Sound) (hv : m.GivesUp p.node v)
    (hp : p.stack = v :: rest) : Quiet False m m (getIterator call p) (Pushes p rest) := by
  refine readPath (a := (v, { p with stack := rest })) (by simp [Path.pop, hp]) ?_
  refine bind (loadAttribute? hm hv "__iter__") fun o m₁ hm₁ ho => ?_
  obtain ⟨attr, rfl, hattr⟩ := ho
  refine bind (after hm₁ (callOrReport hcall hm₁.sound hattr {})) fun r m₂ hm₂ hr => ?_
  obtain ⟨-, w, rfl, hw⟩ := hr
  exact pure hm₂ ⟨w, rfl, hw⟩

/-- A slice is made quietly if its class is there. -/
theorem newSlice (hm : m.Sound) (hn : n < m.graph.nodes.size)
    (hslice : ∃ d m', libraryClass "slice" m = .ok d m') :
    Quiet False m m (newSlice n) fun _ _ => True := by
  obtain ⟨cls, m₁, hok⟩ := hslice
  have hclass : m.Widens m₁ := by
    have h : Quiet True m m (libraryClass "slice") fun _ _ => True :=
      read rfl (libraryClassWithin hm _ _)
    unfold Quiet at h
    rw [hok] at h
    exact h.1
  have hobject : Quiet False m m (plainObject "slice") fun _ _ => True :=
    bind (Q := fun _ _ => True) (of_ok hok hclass trivial) fun cls m₂ hm₂ _ =>
      weaken (after hm₂ (sharedObject hm₂.sound cls)) fun _ _ _ _ => trivial
  refine bind hobject fun d m₂ hm₂ _ => ?_
  refine weaken (after hm₂ (variableWith hm₂.sound (hn.trans_le hm₂.graph.nodes_le) "slice" d ?_))
    fun _ _ _ _ => trivial
  exact fun c hc => by cases hc

theorem loadSlice (hcall : call.Absorbs) (hm : m.Sound) (hv : m.GivesUp p.node v)
    (hslice : ∃ d m', libraryClass "slice" m = .ok d m') {bounds : List VarId}
    (hp : p.stack = bounds ++ v :: rest) :
    Quiet False m m (loadSlice call bounds.length p) (Pushes p rest) := by
  refine readPath (a := { p with stack := v :: rest }) ?_ ?_
  · simp [Path.discardN, Path.popN, hp, Bind.bind, Except.bind, Pure.pure, Except.pure]
  refine readPath (a := (v, { p with stack := rest })) rfl ?_
  refine bind (newSlice hm (hv.lt hm).1 hslice) fun slice m₁ hm₁ _ => ?_
  refine bind (after hm₁ (applyOperator hcall hm₁.sound (hv.widens hm hm₁) "__getitem__" slice))
    fun r m₂ hm₂ hr => ?_
  obtain ⟨-, w, rfl, hw⟩ := hr
  exact pure hm₂ ⟨w, rfl, hw⟩

/-- All items of what has been given up have been given up. -/
theorem unpackValue (h₀ : m₀.Sound) (hm : m₀.Widens m) (hb : b ∈ m₀.graph.visible v n)
    (hd : m.store.GivenUp (m.graph.dataOf b)) {outputs : List VarId}
    (houtputs : ∀ w ∈ outputs, m₀.Collects m w) :
    Quiet fails m₀ m (unpackValue n outputs b) fun _ m' =>
      ∀ w ∈ outputs, m₀.Collects m' w ∧ m₀.Backed m' n w := by
  have hopaque : m.store.get (m.graph.dataOf b) = .unsolvable := hd.get
  refine read rfl (read (a := m.graph.dataOf b) rfl ?_)
  have hitems : m.store.tupleItems? (m.graph.dataOf b) = none := by
    simp [Store.tupleItems?, Store.object?, hopaque, Value.object?]
  have hparam : m.store.typeParam? (m.graph.dataOf b) "T" = none := by
    simp [Store.typeParam?, Store.object?, hopaque, Value.object?]
  simp only [hitems, hparam, Option.filter_none]
  refine weaken (forM (fun done m' => (∀ w ∈ outputs, m₀.Collects m' w) ∧
    ∀ w ∈ done, m₀.Backed m' n w) hm ⟨houtputs, by simp⟩ fun w hw done m₁ hm₁ hI => ?_)
    fun _ m₁ _ hI w hw => ⟨hI.1 w hw, hI.2 w hw⟩
  obtain ⟨hcollects, hbacked⟩ := hI
  refine weaken (collect h₀ hm₁ (hcollects w hw) hb [] (by simp)) fun _ m₂ _ h => ?_
  obtain ⟨hlast, hretains⟩ := h
  refine ⟨fun u hu => hretains.collects u (hcollects u hu), fun u hu => ?_⟩
  rcases List.mem_append.mp hu with hu | hu
  · exact hretains.backed (hbacked u hu)
  · exact List.mem_singleton.mp hu ▸ hlast

theorem unpack (hm : m.Sound) (hv : m.GivesUp p.node v) (hp : p.stack = v :: rest) (count : Nat) :
    Quiet fails m m (unpack count p) fun q m' => ∃ items, items.length = count ∧
      q = { p with stack := items ++ rest } ∧ ∀ w ∈ items, m'.GivesUp p.node w := by
  refine readPath (a := (v, { p with stack := rest })) (by simp [Path.pop, hp]) ?_
  refine bind (mapM (fun items m' => ∀ w ∈ items, m.Collects m' w) (.refl hm) (by simp)
    fun i _ items m₁ hm₁ hI => ?_) fun items m₁ hm₁ hitems => ?_
  · refine weaken (after hm₁ (newVariable hm₁.sound "item")) fun w m₂ _ hw u hu => ?_
    have hretains : m.Retains p.node m₁ m₂ := .of_widens hm₁.sound hw.1
    rcases List.mem_append.mp hu with hu | hu
    · exact hretains.collects u (hI u hu)
    · rw [List.mem_singleton.mp hu]
      exact ⟨hm₁.graph.vars_le.trans hw.2.new, hw.2.bound, hw.2.only⟩
  · obtain ⟨hcollects, hlength⟩ := hitems
    have hvisible := hv.visible_widens hm hm₁
    refine read (a := m.graph.visible v p.node) (congrArg (EStateM.Result.ok · m₁) hvisible) ?_
    refine bind (forM (fun through m' => ∀ w ∈ items, m.Collects m' w ∧
      (through ≠ [] → m.Backed m' p.node w)) hm₁ (fun w hw => ⟨hcollects w hw, by simp⟩)
      fun b hb through m₂ hm₂ hI => ?_) fun _ m₂ hm₂ hI => pure hm₂ ?_
    · exact weaken (unpackValue hm hm₂ hb (hv.givenUp_widens hm hm₂ hb) fun w hw => (hI w hw).1)
        fun _ m₃ _ h w hw => ⟨(h w hw).1, fun _ => (h w hw).2⟩
    · refine ⟨items, by simpa using hlength, ?_, fun w hw =>
        ((hI w hw).2 hv.visible_ne_nil).givesUp hm hm₂⟩
      have hpush (q : Path) (vs : List VarId) :
          q.pushAll vs.reverse = { q with stack := vs ++ q.stack } := by
        unfold Path.pushAll
        induction vs with
        | nil => rfl
        | cons u vs ih => simp [ih, Path.push]
      exact hpush _ items

theorem importFrom (hm : m.Sound) (hv : m.GivesUp p.node v) (hp : p.stack = v :: rest)
    (name : String) : Quiet fails m m (importFrom name p) (Pushes p p.stack) := by
  refine readPath (a := v) (by simp [Path.top, Path.peek, hp]) ?_
  refine bind (newVariable hm name) fun r m₁ hm₁ hr => ?_
  have hvisible := hv.visible_widens hm hm₁
  refine read (a := m.graph.visible v p.node) (congrArg (EStateM.Result.ok · m₁) hvisible) ?_
  refine bind (mapM (fun oks m' => m.Collects m' r ∧ (∀ ok ∈ oks, ok = true) ∧
    (oks ≠ [] → m.Backed m' p.node r)) hm₁ ⟨hr, by simp, by simp⟩ fun b hb oks m₂ hm₂ hI => ?_)
    fun oks m₂ hm₂ hI => ?_
  · obtain ⟨hcollects, hoks, -⟩ := hI
    have hopaque := (hv.givenUp_widens hm hm₂ hb).get
    refine read (a := m₂.graph.dataOf b) rfl (read (a := .unsolvable)
      (congrArg (EStateM.Result.ok · m₂) hopaque) ?_)
    refine bind (collect hm hm₂ hcollects hb [] (by simp)) fun _ m₃ hm₃ h => pure hm₃ ?_
    refine ⟨h.2.collects r hcollects, fun ok hmem => ?_, fun _ => h.1⟩
    rcases List.mem_append.mp hmem with hmem | hmem
    · exact hoks ok hmem
    · exact List.mem_singleton.mp hmem
  · obtain ⟨⟨-, hoks, hbacked⟩, hlength⟩ := hI
    have hne : oks ≠ [] := hv.ne_nil hlength
    obtain ⟨ok, hok⟩ := List.exists_mem_of_ne_nil oks hne
    rw [if_pos (List.any_eq_true.mpr ⟨ok, hok, hoks ok hok⟩)]
    exact pure hm₂ ⟨r, rfl, (hbacked hne).givesUp hm hm₂⟩

end Analysis.Quiet

end ValueTrace
