import Mathlib.Data.List.Nodup
import ValueTrace.Finding.Log

/-!
# Reports that are taken back

The keys that are taken are those of the findings, one for each. So whatever has been reported and
taken back since a mark, going back to the mark gives the log as it was there.
-/

namespace ValueTrace.FindingLog

/-- What is done to a log. -/
inductive Action where
  | report (f : Finding)
  | revert (mark : Nat)
  deriving DecidableEq, Repr

/-- Nothing before the mark is taken back. -/
def Action.Spares (mark : Nat) : Action → Prop
  | report _ => True
  | revert mark' => mark ≤ mark'

instance (mark : Nat) (a : Action) : Decidable (a.Spares mark) := by
  cases a <;> unfold Action.Spares <;> infer_instance

def act (l : FindingLog) : Action → FindingLog
  | .report f => l.report f
  | .revert mark => l.revertTo mark

def run (l : FindingLog) (as : List Action) : FindingLog := as.foldl act l

def keys (l : FindingLog) : List Finding.Key := l.findings.map Finding.key

/-- The keys that are taken are those of the findings, the latest first, and each finding has one of
its own. -/
structure Indexed (l : FindingLog) : Prop where
  seen : l.seen = l.keys.reverse
  distinct : l.keys.Nodup

variable {l l' : FindingLog} {f : Finding} {a : Action} {as : List Action} {mark : Nat}

namespace Indexed

theorem empty : Indexed {} := ⟨rfl, List.nodup_nil⟩

theorem mem_seen (h : l.Indexed) {k : Finding.Key} :
    k ∈ l.seen ↔ ∃ f ∈ l.findings, f.key = k := by
  rw [h.seen, List.mem_reverse]
  exact List.mem_map

/-- The findings say what is taken. -/
theorem eq_of_findings_eq (h : l.Indexed) (h' : l'.Indexed) (heq : l.findings = l'.findings) :
    l = l' := by
  have hseen : l.seen = l'.seen := by
    rw [h.seen, h'.seen, keys, keys, heq]
  cases l
  cases l'
  exact congrArg₂ FindingLog.mk heq hseen

theorem report (h : l.Indexed) (f : Finding) : (l.report f).Indexed := by
  unfold FindingLog.report
  split
  · exact h
  · next hfree =>
    have hkeys : (l.findings ++ [f]).map Finding.key = l.keys ++ [f.key] := by
      simp [keys]
    have hnew : f.key ∉ l.keys := by
      rwa [List.contains_iff_mem, h.seen, List.mem_reverse] at hfree
    constructor
    · rw [keys, hkeys, List.reverse_concat, ← h.seen]
    · rw [keys, hkeys, List.nodup_append_comm]
      exact List.nodup_cons.mpr ⟨hnew, h.distinct⟩

/-- Going back gives up the keys of exactly those findings that are dropped. -/
theorem revertTo (h : l.Indexed) (mark : Nat) : (l.revertTo mark).Indexed := by
  have hsplit : l.keys = (l.findings.take mark).map Finding.key ++
      (l.findings.drop mark).map Finding.key := by
    rw [← List.map_append, List.take_append_drop, keys]
  have hdistinct := h.distinct
  rw [hsplit] at hdistinct
  obtain ⟨hkept, -, hdisjoint⟩ := List.nodup_append'.mp hdistinct
  refine ⟨?_, hkept⟩
  calc (l.revertTo mark).seen
      = l.seen.diff ((l.findings.drop mark).map Finding.key) := by
        rw [List.diff_eq_foldl, List.foldl_map]
        rfl
    _ = l.seen.filter fun k => k ∉ (l.findings.drop mark).map Finding.key :=
        List.Nodup.sdiff_eq_filter (h.seen ▸ List.nodup_reverse.mpr h.distinct)
    _ = ((l.findings.take mark).map Finding.key).reverse := by
        rw [h.seen, hsplit, List.reverse_append, List.filter_append, List.filter_eq_nil_iff.mpr,
          List.nil_append, List.filter_eq_self.mpr]
        · exact fun k hk => decide_eq_true fun hdropped =>
            hdisjoint (List.mem_reverse.mp hk) hdropped
        · exact fun k hk hk' => of_decide_eq_true hk' (List.mem_reverse.mp hk)

theorem act (h : l.Indexed) (a : Action) : (l.act a).Indexed := by
  cases a with
  | report f => exact h.report f
  | revert mark => exact h.revertTo mark

theorem run (h : l.Indexed) (as : List Action) : (l.run as).Indexed := by
  induction as generalizing l with
  | nil => exact h
  | cons a as ih => exact ih (h.act a)

end Indexed

/-- What lies before a mark stays there as long as nothing before it is taken back. -/
theorem take_findings_act (hmark : mark ≤ l.findings.length) (ha : a.Spares mark) :
    mark ≤ (l.act a).findings.length ∧
      (l.act a).findings.take mark = l.findings.take mark := by
  cases a with
  | report f =>
    change mark ≤ (l.report f).findings.length ∧ (l.report f).findings.take mark = _
    unfold report
    split
    · exact ⟨hmark, rfl⟩
    · exact ⟨by simp; omega, List.take_append_of_le_length hmark⟩
  | revert mark' =>
    change mark ≤ (l.findings.take mark').length ∧ (l.findings.take mark').take mark = _
    have hle : mark ≤ mark' := ha
    rw [List.take_take, List.length_take, Nat.min_eq_left hle]
    exact ⟨by omega, rfl⟩

theorem take_findings_run (hmark : mark ≤ l.findings.length) (has : ∀ a ∈ as, a.Spares mark) :
    (l.run as).findings.take mark = l.findings.take mark := by
  induction as generalizing l with
  | nil => rfl
  | cons a as ih =>
    obtain ⟨hlength, htake⟩ := take_findings_act hmark (has a List.mem_cons_self)
    exact (ih hlength fun b hb => has b (List.mem_cons_of_mem a hb)).trans htake

theorem run_append (l : FindingLog) (as bs : List Action) :
    l.run (as ++ bs) = (l.run as).run bs := List.foldl_append

/-- Whatever has been done to a log, its findings have keys of their own, and these are taken. From
a mark of such a log on anything may be reported and taken back again, but for what lies before the
mark. Going back to the mark then gives the log as it was, so what comes later does not see any of
it. -/
theorem run_transactional (as : List Action) :
    ((run {} as).findings.map Finding.key).Nodup ∧
      (∀ k, k ∈ (run {} as).seen ↔ ∃ f ∈ (run {} as).findings, f.key = k) ∧
      ∀ during after, (∀ a ∈ during, a.Spares (run {} as).checkpoint) →
        ((run {} as).run during).revertTo (run {} as).checkpoint = run {} as ∧
          run {} (as ++ during ++ .revert (run {} as).checkpoint :: after) =
            run {} (as ++ after) := by
  have hindexed := Indexed.empty.run as
  refine ⟨hindexed.distinct, fun k => hindexed.mem_seen, fun during after hspares => ?_⟩
  have hback : ((run {} as).run during).revertTo (run {} as).checkpoint = run {} as := by
    refine ((hindexed.run during).revertTo _).eq_of_findings_eq hindexed ?_
    exact (take_findings_run (Nat.le_refl _) hspares).trans
      (List.take_of_length_le (Nat.le_refl _))
  refine ⟨hback, ?_⟩
  rw [run_append, run_append, run_append]
  exact congrArg (run · after) hback

/-- A name that is not defined at a line. -/
def undefinedAt (line : Nat) : Finding where
  kind := .nameError
  message := "Name 'x' is not defined"
  filename := "t.py"
  line := line

/-- A finding is reported again behind the mark, and there is a mark behind the mark. -/
theorem nestedMarks_transactional :
    let l := run {} [.report (undefinedAt 3)]
    let during := [.report (undefinedAt 3), .report (undefinedAt 4), .report (undefinedAt 5),
      .revert 2, .report (undefinedAt 6)]
    (∀ a ∈ during, a.Spares l.checkpoint) ∧ (l.run during).findings.length = 3 ∧
      (l.run during).revertTo l.checkpoint = l := by
  intro l during
  have hspares : ∀ a ∈ during, a.Spares l.checkpoint := by decide
  exact ⟨hspares, by decide, ((run_transactional [.report (undefinedAt 3)]).2.2 _ [] hspares).1⟩

end ValueTrace.FindingLog
