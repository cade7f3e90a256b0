import Mathlib.Data.List.Infix
import ValueTrace.Finding.Log

/-! What has been reported stays in the log as long as nothing is taken back. -/

namespace ValueTrace.FindingLog

/-- The second log has all that the first one has, in its place. -/
structure Extends (l l' : FindingLog) : Prop where
  findings : l.findings <+: l'.findings
  seen : l.seen <:+ l'.seen

variable {l l' l'' : FindingLog} {f : Finding}

namespace Extends

theorem refl (l : FindingLog) : l.Extends l := ⟨List.prefix_rfl, List.suffix_rfl⟩

theorem trans (h : l.Extends l') (h' : l'.Extends l'') : l.Extends l'' :=
  ⟨h.findings.trans h'.findings, h.seen.trans h'.seen⟩

theorem antisymm (h : l.Extends l') (h' : l'.Extends l) : l = l' := by
  have hfindings := h.findings.eq_of_length_le h'.findings.length_le
  have hseen := h.seen.eq_of_length_le h'.seen.length_le
  cases l
  cases l'
  exact congrArg₂ FindingLog.mk hfindings hseen

theorem report (l : FindingLog) (f : Finding) : l.Extends (l.report f) := by
  unfold FindingLog.report
  split
  · exact refl l
  · exact ⟨List.prefix_append _ _, List.suffix_cons _ _⟩

end Extends

/-- A finding leaves the log as it is if and only if its key is taken. -/
theorem report_eq_self_iff : l.report f = l ↔ f.key ∈ l.seen := by
  unfold report
  split
  · next h => exact ⟨fun _ => List.contains_iff_mem.mp h, fun _ => rfl⟩
  · next h =>
    refine ⟨fun heq => ?_, fun hmem => absurd (List.contains_iff_mem.mpr hmem) h⟩
    exact absurd (congrArg (List.length ∘ FindingLog.seen) heq) (by simp)

end ValueTrace.FindingLog
