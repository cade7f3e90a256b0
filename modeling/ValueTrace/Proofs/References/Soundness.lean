import ValueTrace.Proofs.References.Runs
import ValueTrace.Proofs.Safety.Programs

/-!
# Sound runs

The machine is sound at every point of a run, and the path holds only what is there. So what follows
from that, and from what is known to hold at every point, holds at every point.
-/

namespace ValueTrace

variable {e : Extent} {code : PlacedCode}
  {step step' : List Entry → Caller → Analysis.Stepper}

/-- A machine that has not run anything is sound. -/
theorem Machine.sound_make {options : Options} {m : Machine} (h : Machine.make options = .ok m) :
    m.Sound := by
  unfold make at h
  obtain ⟨_, -, h⟩ := Except.bind_eq_ok.mp h
  obtain ⟨l, -, h⟩ := Except.bind_eq_ok.mp h
  split at h
  · next n g hnode =>
    cases h
    have hempty : Graph.Succeeds { limit := options.complexityLimit }
        { limit := options.complexityLimit } :=
      .refl (.empty _) ⟨fun n h => by simp at h, fun b h => by simp at h⟩
    obtain ⟨hs, hn⟩ := hempty.newNode hnode
    have hslots : Store.slots { values := #[.unsolvable], namespaces := #[∅] } = ∅ := by
      refine Set.eq_empty_of_forall_notMem ?_
      rintro slot (⟨d, ms, hms, -⟩ | ⟨ns, ms, hms, hslot⟩)
      · rcases d with (_ | i) | _ <;> cases hms
      · rcases ns with _ | ns
        · cases hms
          exact slotsOf_empty.subset hslot
        · cases hms
    refine ⟨hs.built, hs.closed, (Nat.zero_le n).trans_lt hn, .inl rfl, ⟨rfl, fun d => ?_,
      fun ns ms hms => ?_⟩, fun key d v h => by simp at h, fun f hf => by simp at hf,
      fun h => by simp [hslots] at h, fun h => by simp [hslots] at h⟩
    · cases d with
      | marker => trivial
      | value i =>
        cases i with
        | zero => trivial
        | succ i => trivial
    · cases ns with
      | zero =>
        cases hms
        exact Extent.hasMembers_empty _
      | succ ns => cases hms
  · cases h

/-- There is a machine that has not run anything. -/
theorem Machine.exists_make :
    ∃ S m, Machine.make {} = .ok m ∧ Setting.Fits S m ∧ m.Sound := by
  obtain ⟨m, hm⟩ : ∃ m, Machine.make {} = .ok m := by
    unfold Machine.make
    rw [Library.builtins_eq]
    exact ⟨_, rfl⟩
  obtain ⟨S, -, -, hfits⟩ := Machine.fits_make hm
  exact ⟨S, m, hm, hfits, sound_make hm⟩

namespace Analysis

/-- The second way to run instructions follows the first one, whatever the frames have been entered
for. -/
def FollowsEverywhere (step step' : List Entry → Caller → Stepper) : Prop :=
  ∀ (es : List Entry) (call call' : Caller), Caller.Follows call call' →
    Stepper.Follows (step es call) (step' es call')

theorem callTracked_follows (hstep : FollowsEverywhere step step') (fuel : Nat) (es : List Entry) :
    ValueCaller.Follows (callTracked step fuel es) (callTracked step' fuel es) := by
  induction fuel generalizing es with
  | zero => exact fun _ _ _ _ _ _ _ _ => .fail _
  | succ fuel ih =>
    exact .callVia (ih es) (hstep _ _ _ (.callEach (ih _))) (hstep _ _ _ (.callEach (ih _)))

/-- Calls leave a sound machine, however deep they may be nested. -/
theorem callValue_follows (depth : Nat) : ValueCaller.Follows
    (callValue Analysis.step depth) (callValue Analysis.step depth) := by
  have hstep : FollowsEverywhere (fun _ => Analysis.step) fun _ => Analysis.step :=
    fun _ _ _ hcall _ i _ hp => .step hcall i hp
  rw [← callTracked_const Analysis.step depth []]
  exact callTracked_follows hstep depth []

theorem callEach_follows (depth : Nat) : Caller.Follows
    (callEach (callValue Analysis.step depth)) (callEach (callValue Analysis.step depth)) :=
  .callEach (callValue_follows depth)

namespace Follows

variable {step step' : Stepper}

theorem enterModule (code : PlacedCode) :
    Keeps e (enterModule code) fun e' r => e'.HasFrame r.1 ∧ e'.HasNode r.2 := by
  refine bind get fun _ m hm => ?_
  refine bind (enterNode (hm.1.start.mono hm.2) _) fun he₁ n hn => ?_
  refine bind newNamespace fun he₂ globals _ => ?_
  refine bind (literalVar _) fun he₃ main _ => ?_
  refine bindCopy _ (hn.mono (he₂.trans he₃)) main globals fun he₄ => ?_
  refine bind (newFrame (hn.mono (by grind)) code globals (some globals) (Extent.hasVars_nil _) ∅)
    fun he₅ f hf => ?_
  exact pure fun he₆ => ⟨hf.mono he₆, hn.mono (by grind)⟩

theorem runModule (hstep : Stepper.Follows step step') (code : PlacedCode) :
    Follows e (runModule step code) (runModule step' code) fun _ _ => True := by
  refine bind (enterModule code) fun _ _ hr => ?_
  refine bind (runFrame hstep hr.1 hr.2) fun _ _ _ => ?_
  exact pure fun _ => trivial

theorem runProgramWith (hstep : Stepper.Follows step step') (code : PlacedCode) :
    Follows e (runProgramWith step code ∅) (runProgramWith step' code ∅) fun _ _ => True := by
  have hempty (ms : Members) : ms.insertMany (∅ : Members).toList = ms := Std.TreeMap.insertMany_nil
  refine bind (setStore ?_ (fun _ => .of_values rfl) ?_) fun _ _ _ => ?_
  · intro s _ _ hs
    exact hs.modifyNamespace fun ms hms => (hempty ms).symm ▸ hms
  · intro s
    refine .modifyNamespace s _ fun ms => ?_
    rw [hempty, Set.union_empty]
    exact Set.subset_union_left
  refine bind (runModule hstep code) fun _ _ _ => ?_
  refine bind (bind get fun _ _ _ => pure (Q := fun _ _ => True) fun _ => trivial) fun _ _ _ => ?_
  exact pure fun _ => trivial

end Follows

/-- What holds wherever the machine is sound holds at every point, given what is known to. -/
theorem always_of_sound {F P : Point → Prop} [DecidablePred F] [DecidablePred P] {code : Code}
    {options : Options} (hcode : code.validate = .ok ()) (hF : Always F code options)
    (hP : ∀ pt, F pt → pt.machine.Sound → pt.machine.extent.HasPath pt.path → P pt) :
    Always P code options := by
  intro fuel
  cases hm : Machine.make options with
  | error failure => rw [analyzeWithin, analyzeWith_of_make_error hm, analyzeWith_of_make_error hm]
  | ok m =>
    have hchecked : FollowsEverywhere (checked F) (checked P) := by
      intro es call call' hcall e i p hp
      refine ⟨fun m hm he => ?_⟩
      unfold checked
      by_cases hpoint : F ⟨es, i, p, m⟩
      · rw [if_pos hpoint, if_pos (hP _ hpoint hm (hp.mono he))]
        exact (Follows.step hcall i hp).follows m hm he
      · exact .inl ⟨m, if_neg hpoint⟩
    have hrun : Follows m.extent
        (runProgramWith (stepTracked (checked F) fuel) ⟨[0], code⟩ ∅)
        (runProgramWith (stepTracked (checked P) fuel) ⟨[0], code⟩ ∅) fun _ _ => True :=
      .runProgramWith (hchecked _ _ _ (.callEach (callTracked_follows hchecked fuel _))) _
    rw [← hF fuel]
    rcases hrun.follows m (Machine.sound_make hm) le_rfl with ⟨m', hstray⟩ | ⟨heq, -⟩
    · have hmissed := analyzeWith_of_error hm hstray
      rw [hF fuel] at hmissed
      exact absurd hmissed (analyzeWithin_ne_strayPoint hcode hm fuel)
    · cases hr : runProgramWith (stepTracked (checked F) fuel) ⟨[0], code⟩ ∅ m with
      | ok o m' => rw [analyzeWith_of_ok hm hr, analyzeWith_of_ok hm (heq.trans hr)]
      | error failure m' => rw [analyzeWith_of_error hm hr, analyzeWith_of_error hm (heq.trans hr)]

end Analysis

end ValueTrace
