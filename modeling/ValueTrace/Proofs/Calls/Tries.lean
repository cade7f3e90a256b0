import ValueTrace.Proofs.Machine.Operands
import ValueTrace.Proofs.References.Soundness
import ValueTrace.Proofs.Signatures.Filling

/-!
# Calls that are tried

A call tries each value that can be called. A library function looks at every view of its arguments,
and it succeeds if one of them fits. What a try brings about is not lost in those that come after it.
-/

namespace ValueTrace.Analysis

variable {m m' m₁ : Machine} {n : NodeId} {f : NativeValue} {args : CallArgs} {d fd : DataId}
  {self func result : VarId} {b : BindingId} {bs : List BindingId} {direct : ValueCaller}
  {step : Caller → Stepper} {res : Except CallFailure (NodeId × VarId)}

/-- Only a call that reads an item of a dictionary gets one that is known. -/
theorem dictItem_none {vars : List VarId} (hf : f.name ≠ "dict.__getitem__") :
    Yields m (dictItem n f vars) (· = none) := by
  unfold dictItem
  extract_lets operands
  have hassigns (d k : VarId) (assigned : Option VarId) (h : operands = some (d, k, assigned)) :
      assigned ≠ none := by
    rintro rfl
    simp only [operands] at h
    split at h
    · cases h
    · exact hf ‹_›
    · cases h
  clear_value operands
  split
  · next dict key assigned =>
    refine .skip fun m => ?_
    extract_lets store
    refine .skip fun data => ?_
    split
    · refine .skip fun keys => ?_
      split
      · split
        · split
          · split
            · exact .skip fun _ => .pure rfl
            · exact absurd rfl (hassigns dict key none rfl)
          · exact .pure rfl
        · exact .pure rfl
      · exact .pure rfl
    · exact .pure rfl
  · exact .pure rfl

/-- The answer for a view that fits says so. -/
theorem callView_fits {view : List BindingId} {sig : Signature} {σ : Subst} {result : VarId}
    {fits : Bool} (h : m.fitting? f args view = some (sig, σ))
    (hrun : callView n f args result view m = .ok fits m') : fits = true := by
  rw [callView_eq h] at hrun
  obtain ⟨ret, m₁, -, hrun⟩ := bind_ok.mp hrun
  obtain ⟨rs, m₂, -, hrun⟩ := bind_ok.mp hrun
  obtain ⟨_, m₃, -, hrun⟩ := bind_ok.mp hrun
  cases hr : m.receiver? sig view with
  | none =>
    rw [hr] at hrun
    exact (pure_ok.mp hrun).1.symm
  | some r =>
    rw [hr] at hrun
    obtain ⟨_, m₄, -, hrun⟩ := bind_ok.mp hrun
    exact (pure_ok.mp hrun).1.symm

/-- A loop comes to each element of its list. -/
theorem mapM_comesTo {σ β : Type} {x : σ → Analysis β} {l : List σ} {a : σ} {bs : List β}
    (ha : a ∈ l) (h : l.mapM x m = .ok bs m') : ∃ before after cs m₁ b m₂,
      l = before ++ a :: after ∧ before.mapM x m = .ok cs m₁ ∧ x a m₁ = .ok b m₂ ∧ b ∈ bs := by
  obtain ⟨before, after, rfl⟩ := List.append_of_mem ha
  rw [List.mapM_append] at h
  obtain ⟨cs, m₁, hbefore, h⟩ := bind_ok.mp h
  obtain ⟨ds, m₂, hrest, hpure⟩ := bind_ok.mp h
  obtain ⟨b, m₃, es, hb, -, rfl⟩ := mapM_cons_ok hrest
  obtain ⟨rfl, -⟩ := pure_ok.mp hpure
  exact ⟨before, after, cs, m₁, b, m₃, rfl, hbefore, hb, by simp⟩

/-- A call that may be made and whose arguments all show something looks at all its views, and it
succeeds if one of them fits. -/
theorem callLibrary_looks (hshut : args.isOpen = false)
    (haccepts : f.signatures.any (·.accepts args) = true) {vars : List VarId}
    (hvars : args.positional ++ args.named.map (·.2) = vars)
    (hshown : ∀ v ∈ vars, m.graph.visible v n ≠ []) (hf : f.name ≠ "dict.__getitem__")
    (hcall : (callLibrary n f args).run m = .ok res m') :
    ∃ m₁ m₂ m₃ result fits, dictItem n f vars m = .ok none m₁ ∧
      newVariable "return" m₁ = .ok result m₂ ∧
      (views m₂.options.maxNativeViews (vars.map (m.graph.visible · n))).mapM
        (callView n f args result) m₂ = .ok fits m₃ ∧ (true ∈ fits → res = .ok (n, result)) := by
  subst hvars
  unfold callLibrary at hcall
  extract_lets vars sig accepted at hcall
  replace hcall : (accepted ()).run m = .ok res m' := by
    rw [hshut, haccepts] at hcall
    exact hcall
  simp only [accepted] at hcall
  have hnone : ¬ ((vars.map (m.graph.visible · n)).any (·.isEmpty)) = true := by
    simp only [List.any_eq_true, List.isEmpty_iff]
    rintro ⟨_, hmem, rfl⟩
    obtain ⟨v, hv, hnil⟩ := List.mem_map.mp hmem
    exact hshown v hv hnil
  rw [Attempt.mapM_lift, Attempt.lift_bind_run, bind_eq_of_ok (mapM_visible vars n), if_neg hnone,
    Attempt.lift_bind_run] at hcall
  obtain ⟨item, m₁, hitem, hcall⟩ := bind_ok.mp hcall
  obtain rfl := dictItem_none hf item m₁ hitem
  dsimp only at hcall
  rw [Attempt.lift_bind_run] at hcall
  obtain ⟨result, m₂, hnew, hcall⟩ := bind_ok.mp hcall
  replace hcall : (((liftM (get : Analysis Machine) : Attempt Machine)) >>= _).run m₂ = _ := hcall
  rw [Attempt.lift_bind_run, bind_eq_of_ok (get_ok.mpr ⟨rfl, rfl⟩), Attempt.mapM_lift,
    Attempt.lift_bind_run] at hcall
  obtain ⟨fits, m₃, hviews, hcall⟩ := bind_ok.mp hcall
  refine ⟨m₁, m₂, m₃, result, fits, hitem, hnew, hviews, fun hfits => ?_⟩
  rw [if_pos (List.any_eq_true.mpr ⟨true, hfits, rfl⟩)] at hcall
  cases hcall
  rfl

/-- A method of a library function calls the function, with the object in front. -/
theorem callValue_method (hd : m.store.get d = .method self fd) (hf : m.store.get fd = .native f)
    (hcall : (callValue step fuel n d b args).run m = .ok res m') :
    (callLibrary n f (args.withReceiver self)).run m = .ok res m' := by
  have hvalue {d : DataId} {x : Value} (h : m.store.get d = x) : value d m = .ok x m :=
    congrArg (EStateM.Result.ok · m) h
  cases fuel with
  | zero => cases hcall
  | succ fuel =>
    unfold callValue at hcall
    rw [Attempt.lift_bind_run, bind_eq_of_ok (hvalue hd)] at hcall
    cases fuel with
    | zero => cases hcall
    | succ fuel =>
      dsimp only at hcall
      unfold callValue at hcall
      rwa [Attempt.lift_bind_run, bind_eq_of_ok (hvalue hf)] at hcall

/-- What the first try brings about is there after the call, and if it succeeds so does the call. -/
theorem callEach_first (hdirect : ValueCaller.Follows direct direct) (hm : m.Sound)
    (hn : m.extent.HasNode n) (ha : m.extent.HasArgs args)
    (hnew : newVariable "return" m = .ok result m₁) (hvisible : m₁.graph.visible func n = b :: bs)
    (hcall : (callEach direct n func args).run m = .ok res m') :
    ∃ r m₂, (direct n (m₁.graph.dataOf b) b args).run m₁ = .ok r m₂ ∧ m₂.extent ≤ m'.extent ∧
      ∀ done, r = .ok done → ∃ done, res = .ok done := by
  obtain ⟨tail, heq, htail⟩ := Attempt.Follows.callEach_tail n
  rw [heq, bind_eq_of_ok hnew] at hcall
  have hshown : visible func n m₁ = .ok (b :: bs) m₁ := congrArg (EStateM.Result.ok · m₁) hvisible
  rw [bind_eq_of_ok hshown] at hcall
  obtain ⟨tries, m₃, htries, hjoin⟩ := bind_ok.mp hcall
  obtain ⟨t, m₂, ts, hfirst, hrest, rfl⟩ := mapM_cons_ok htries
  obtain ⟨hm₁, hle₁, hresult⟩ := (Follows.newVariable "return").left hm le_rfl hnew
  have hbs : m₁.extent.HasBindings (b :: bs) :=
    hvisible ▸ (Graph.hasBindings_visible hm₁.built func n).mono m₁.graph_extent_le
  obtain ⟨hb, hbs⟩ := List.forall_mem_cons.mp hbs
  obtain ⟨hm₂, hle₂, ht⟩ :=
    (Attempt.Follows.tryOne hdirect (hn.mono hle₁) hb (ha.mono hle₁)).left hm₁ le_rfl hfirst
  have hle := hle₁.trans hle₂
  obtain ⟨hm₃, hle₃, hts⟩ := (Follows.mapM (R := Answered) (fun he h => h.mono he) fun c hc e he =>
    Attempt.Follows.tryOne hdirect (hn.mono (hle.trans he)) ((hbs c hc).mono (hle₂.trans he))
      (ha.mono (hle.trans he))).left hm₂ le_rfl hrest
  obtain ⟨-, hle₄, -, hsucceeds⟩ := (htail (hn.mono (hle.trans hle₃))
    (hresult.mono (hle₂.trans hle₃))
    (List.forall_mem_cons.mpr ⟨ht.mono hle₃, hts⟩)).left hm₃ le_rfl hjoin
  obtain ⟨_, _, hdata, hfirst⟩ := bind_ok.mp hfirst
  cases hdata
  obtain ⟨r, _, hrun, hpure⟩ := bind_ok.mp hfirst
  obtain ⟨rfl, rfl⟩ := pure_ok.mp hpure
  refine ⟨r, _, hrun, hle₃.trans hle₄, fun done h => hsucceeds b done ?_⟩
  rw [h]
  exact List.mem_cons_self

end ValueTrace.Analysis
