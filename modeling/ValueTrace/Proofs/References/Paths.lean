import ValueTrace.Proofs.References.Lookups
import ValueTrace.Step.Branch

/-! Paths that lead from one instruction to the next hold only what is there. -/

namespace ValueTrace.Analysis.Follows

variable {α : Type} {e : Extent} {n : NodeId} {v : VarId} {p : Path} {i : Instruction}

theorem ofExcept {Q : Extent → α → Prop} {z : Except Failure α}
    (h : ∀ a, z = .ok a → ∀ {e'}, e ≤ e' → Q e' a) : Keeps e (liftM z : Analysis α) Q := by
  cases z with
  | ok a => exact pure (h a rfl)
  | error failure => exact throw failure

theorem pop (hp : e.HasPath p) :
    Keeps e (liftM p.pop) fun e' r => e'.HasVar r.1 ∧ e'.HasPath r.2 := by
  refine ofExcept fun r hr e' he => ?_
  unfold Path.pop at hr
  split at hr
  · next v stack hstack =>
    cases hr
    have hvs := hp.stack
    rw [hstack] at hvs
    obtain ⟨hv, hvs⟩ := List.forall_mem_cons.mp hvs
    exact ⟨hv.mono he, (hp.withStack hvs).mono he⟩
  · cases hr

theorem discard (hp : e.HasPath p) : Keeps e (liftM p.discard) Extent.HasPath := by
  refine ofExcept fun q hq e' he => ?_
  unfold Path.discard Path.pop at hq
  cases hstack : p.stack with
  | nil => rw [hstack] at hq; cases hq
  | cons v stack =>
    rw [hstack] at hq
    cases hq
    exact (hp.withStack (hp.stack.subset (hstack ▸ List.subset_cons_self v stack))).mono he

theorem popN (k : Nat) (hp : e.HasPath p) :
    Keeps e (liftM (p.popN k)) fun e' r => e'.HasVars r.1 ∧ e'.HasPath r.2 := by
  refine ofExcept fun r hr e' he => ?_
  unfold Path.popN at hr
  split at hr
  · cases hr
  · cases hr
    refine ⟨(hp.stack.subset fun v hv => ?_).mono he,
      (hp.withStack (hp.stack.subset (List.drop_subset k _))).mono he⟩
    exact List.take_subset k _ (List.mem_reverse.mp hv)

theorem popTwo (hp : e.HasPath p) : Keeps e (liftM p.popTwo) fun e' r =>
    e'.HasVar r.1 ∧ e'.HasVar r.2.1 ∧ e'.HasPath r.2.2 := by
  refine ofExcept fun r hr e' he => ?_
  unfold Path.popTwo at hr
  split at hr
  · next y x stack hstack =>
    cases hr
    have hvs := hp.stack.mono he
    rw [hstack] at hvs
    obtain ⟨hy, hvs⟩ := List.forall_mem_cons.mp hvs
    obtain ⟨hx, hvs⟩ := List.forall_mem_cons.mp hvs
    exact ⟨hx, hy, (hp.mono he).withStack hvs⟩
  · cases hr

theorem popThree (hp : e.HasPath p) : Keeps e (liftM p.popThree) fun e' r =>
    e'.HasVar r.1 ∧ e'.HasVar r.2.1 ∧ e'.HasVar r.2.2.1 ∧ e'.HasPath r.2.2.2 := by
  refine ofExcept fun r hr e' he => ?_
  unfold Path.popThree at hr
  split at hr
  · next z y x stack hstack =>
    cases hr
    have hvs := hp.stack.mono he
    rw [hstack] at hvs
    obtain ⟨hz, hvs⟩ := List.forall_mem_cons.mp hvs
    obtain ⟨hy, hvs⟩ := List.forall_mem_cons.mp hvs
    obtain ⟨hx, hvs⟩ := List.forall_mem_cons.mp hvs
    exact ⟨hx, hy, hz, (hp.mono he).withStack hvs⟩
  · cases hr

theorem peek (k : Nat) (hp : e.HasPath p) : Keeps e (liftM (p.peek k)) Extent.HasVar := by
  refine ofExcept fun v hv e' he => ?_
  unfold Path.peek at hv
  split at hv
  · cases hv
  · next d =>
    cases hd : p.stack[d]? with
    | none => rw [hd] at hv; cases hv
    | some w =>
      rw [hd] at hv
      cases hv
      exact (hp.stack v (List.mem_of_getElem? hd)).mono he

theorem top (hp : e.HasPath p) : Keeps e (liftM p.top) Extent.HasVar := peek 1 hp

theorem discardN (k : Nat) (hp : e.HasPath p) : Keeps e (liftM (p.discardN k)) Extent.HasPath := by
  refine ofExcept fun q hq e' he => ?_
  unfold Path.discardN Path.popN at hq
  split at hq
  · cases hq
  · cases hq
    exact (hp.withStack (hp.stack.subset (List.drop_subset k _))).mono he

theorem rotate (k : Nat) (hp : e.HasPath p) : Keeps e (liftM (p.rotate k)) Extent.HasPath := by
  refine ofExcept fun q hq e' he => ?_
  unfold Path.rotate Path.popN at hq
  split at hq
  · cases hq
  · cases hq
    refine ((hp.withStack (hp.stack.subset (List.drop_subset k _))).pushAll ?_).mono he
    refine hp.stack.subset fun v hv => List.take_subset k _ (List.mem_reverse.mp ?_)
    rcases List.mem_append.mp hv with hv | hv
    · exact List.mem_of_getLast? (Option.mem_toList.mp hv)
    · exact List.mem_of_mem_dropLast hv

theorem duplicate (k : Nat) (hp : e.HasPath p) :
    Keeps e (liftM (p.duplicate k)) Extent.HasPath := by
  refine ofExcept fun q hq e' he => ?_
  unfold Path.duplicate Path.popN at hq
  split at hq
  · cases hq
  · cases hq
    have hvs : e.HasVars (p.stack.take k).reverse :=
      hp.stack.subset fun v hv => List.take_subset k _ (List.mem_reverse.mp hv)
    exact (((hp.withStack (hp.stack.subset (List.drop_subset k _))).pushAll hvs).pushAll
      hvs).mono he

theorem leave (hp : e.HasPath p) : Keeps e (liftM p.leave) fun e' r => e'.HasPath r.2 := by
  refine ofExcept fun r hr e' he => ?_
  unfold Path.leave at hr
  split at hr
  · cases hr
    exact (hp.mono he).reshape _ _
  · cases hr

theorem argument (i : Instruction) : Keeps e (argument i) fun _ _ => True := by
  unfold Analysis.argument
  cases i.arg with
  | none => exact throw _
  | some k => exact pure fun _ => trivial

theorem target (i : Instruction) : Keeps e (target i) fun _ _ => True := by
  unfold Analysis.target
  cases i.target with
  | none => exact throw _
  | some k => exact pure fun _ => trivial

theorem entryAt {table : CodeTable} {entries : Frame → List α} {Q : Extent → α → Prop}
    (hQ : ∀ {e e'} {a : α}, e ≤ e' → Q e a → Q e' a)
    (hentries : ∀ {e'} (f : Frame), e'.HasFrame f → ∀ a ∈ entries f, Q e' a) (i : Instruction) :
    Keeps e (entryAt table entries i) Q := by
  refine bind (argument i) fun _ k _ => bind frame fun _ f hf => ?_
  cases hk : (entries f)[k]? with
  | none => exact throw _
  | some a => exact pure fun he => hQ he (hentries f hf a (List.mem_of_getElem? hk))

theorem nameAt (i : Instruction) : Keeps e (nameAt i) fun _ _ => True :=
  entryAt (fun _ _ => trivial) (fun _ _ _ _ => trivial) i

theorem localAt (i : Instruction) : Keeps e (localAt i) fun _ _ => True :=
  entryAt (fun _ _ => trivial) (fun _ _ _ _ => trivial) i

theorem cellAt (i : Instruction) : Keeps e (cellAt i) Extent.HasVar :=
  entryAt (fun he hv => hv.mono he) (fun _ hf => hf.cells) i

theorem constAt (i : Instruction) : Keeps e (constAt i) Extent.HasVar := by
  refine bind (entryAt (fun _ _ => trivial) (fun _ _ _ _ => trivial) i) fun _ c _ => ?_
  refine bind frame fun _ _ _ => ?_
  refine bind (argument i) fun _ _ _ => ?_
  refine bind (constant _ c) fun _ _ hv => ?_
  exact pure fun he => hv.mono he

theorem forward (hp : e.HasPath p) : Keeps e (Analysis.grow p.forward) Extent.HasPath := by
  refine grow fun m hm he q g' hq => ?_
  unfold Path.forward at hq
  obtain ⟨g, _, hget, hq⟩ := bind_ok.mp hq
  obtain ⟨rfl, rfl⟩ := get_ok.mp hget
  obtain ⟨n, g₁, hnode, hq⟩ := bind_ok.mp hq
  obtain ⟨rfl, rfl⟩ := pure_ok.mp hq
  obtain ⟨hs, hn⟩ := (Graph.Succeeds.refl hm.built hm.closed).connectNew
    (hm.lt_of_hasNode he hp.node) (fun c hc => (hp.condition c hc).mono he) hnode
  have hle := he.trans (Machine.extent_le_withGraph hm.built.wellFormed hs.grows)
  exact ⟨hs, (hp.mono hle).withNode (.inr hn)⟩

theorem merge {existing : Path} (hp : e.HasPath p) (hexisting : e.HasPath existing) (k : Nat) :
    Keeps e (Analysis.lift (p.merge existing k)) Extent.HasPath := by
  refine lift fun m hm he q g' hq => ?_
  unfold Path.merge at hq
  obtain ⟨_, g₁, hcheck, hq⟩ := bind_ok.mp hq
  obtain ⟨-, rfl⟩ := ofExcept_ok.mp hcheck
  obtain ⟨hs, hjoined⟩ := (Graph.Succeeds.refl hm.built hm.closed).joinTo hm.root
    (Machine.hasPath_graph (hp.mono he)) (Machine.hasPath_graph (hexisting.mono he))
    (Graph.Growth.run_ok hq)
  exact ⟨hs, hjoined.mono (Machine.graph_extent_le { m with graph := g' })⟩

theorem storeJump (k : Nat) (hp : e.HasPath p) : Keeps e (storeJump k p) fun _ _ => True := by
  have hq : e.HasPath { p with stop := none } := hp.reshape _ _
  unfold Analysis.storeJump
  refine bind frame fun he f hf => ?_
  dsimp -zeta only
  extract_lets finish
  have hfinish {e' : Extent} (p : Path) (hp : e'.HasPath p) : Keeps e' (finish p) fun _ _ => True :=
    modifyFrame fun f he hf => hf.insert (hp.mono he) k
  split
  · split
    · next stored hstored =>
      have hstored := hf.entry k stored hstored
      refine bind (ofExcept fun _ _ _ _ => trivial) fun he₂ _ _ =>
        bind (grow (Q := fun _ _ => True) fun m hm he₃ _ g' h => ?_) fun he₃ _ _ =>
          forM fun pair hpair e₄ he₄ => paste ?_ ((hq.mono (by grind)).node) pair.2
      · exact ⟨(Graph.Succeeds.refl hm.built hm.closed).connect
          (hm.lt_of_hasNode he₃ ((hq.mono (by grind)).node))
          (hm.lt_of_hasNode he₃ ((hstored.mono he₂).node)) h, trivial⟩
      · have hmem := (List.of_mem_zip (a := pair.1) (b := pair.2) (List.mem_reverse.mp hpair)).1
        exact (hstored.stack _ hmem).mono (by grind)
    · exact pure fun _ => trivial
  · split
    · next existing hexisting =>
      exact bind (merge (hq.mono he) (hf.entry k existing hexisting) k) fun _ r hr => hfinish r hr
    · exact bind (pure fun he' => hq.mono (he.trans he')) fun _ r hr => hfinish r hr

theorem storeRaised (k : Nat) (hp : e.HasPath p) : Keeps e (storeRaised k p) fun _ _ => True := by
  have hp : e.HasPath { p with stop := none } := hp.reshape _ _
  unfold Analysis.storeRaised
  refine bind frame fun he f hf => ?_
  have hfinish {e' : Extent} (p : Path) (hp : e'.HasPath p) :
      Keeps e' (Analysis.modifyFrame fun f =>
        { f with raisedEntries := f.raisedEntries.insert k p }) fun _ _ => True :=
    modifyFrame fun f he hf => hf.insertRaised (hp.mono he) k
  split
  · exact pure fun _ => trivial
  · split
    · next existing hexisting =>
      exact bind (merge (hp.mono he) (hf.raised k existing hexisting) k) fun _ r hr => hfinish r hr
    · exact bind (pure fun he' => hp.mono (he.trans he')) fun _ r hr => hfinish r hr

theorem pushException (hp : e.HasPath p) : Keeps e (pushException p) Extent.HasPath := by
  unfold Analysis.pushException
  extract_lets finish
  have hfinish {e' : Extent} (he : e ≤ e') (r : Raised) (hr : e'.HasRaised r) :
      Keeps e' (finish r) Extent.HasPath := by
    refine pure fun he' => Extent.HasPath.pushAll ⟨?_, ?_, ?_, fun _ h => by cases h⟩ ?_
    · exact (hp.mono (he.trans he')).node
    · exact (hp.mono (he.trans he')).stack
    · exact (hp.mono (he.trans he')).condition
    · exact .cons (hr.mono he').traceback (.cons (hr.mono he').value (.cons (hr.mono he').type
        (Extent.hasVars_nil _)))
  split
  · next r hr =>
      exact bind (pure fun he => (hp.exception r hr).mono he) fun he r hr => hfinish he r hr
  · refine bind (plainObject _) fun he₁ d _ => ?_
    refine bind (variableHolding _ d (hp.mono he₁).node) fun he₂ tb htb => ?_
    refine bind (newUnknown (hp.mono (by grind)).node) fun he₃ value hvalue => ?_
    refine bind (newUnknown (hp.mono (by grind)).node) fun he₄ type htype => ?_
    refine bind (pure (Q := Extent.HasRaised) fun he₅ => ⟨by grind, by grind, by grind⟩)
      fun he₅ r hr => ?_
    exact hfinish (by grind) r hr

theorem unwind (i : Instruction) (hp : e.HasPath p) (regions : List Region) :
    Keeps e (unwind i p regions) fun _ _ => True := by
  induction regions with
  | nil => exact pure fun _ => trivial
  | cons r regions ih =>
    have hleft (regions : List Region) : e.HasPath (Path.truncate { p with regions } r.level) :=
      (hp.reshape regions p.stop).withStack (hp.stack.subset (List.drop_subset _ _))
    unfold Analysis.unwind
    dsimp only
    split
    · cases i.target with
      | none => exact throw _
      | some k => exact storeJump k (hp.reshape _ _)
    · exact storeJump _ (hleft regions)
    · exact bind (pushException (hleft regions)) fun _ q hq => storeJump _ hq
    · exact bind (pushException (hleft regions)) fun _ q hq => storeRaised _ hq
    · exact bind (pushException (hleft regions)) fun _ q hq => storeRaised _ hq
    · exact ih

end ValueTrace.Analysis.Follows
