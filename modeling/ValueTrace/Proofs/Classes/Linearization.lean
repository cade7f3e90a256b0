import Mathlib.Data.List.Nodup
import ValueTrace.Graph.Basic
import ValueTrace.Value.Linearization

/-!
# Linearisations are the consistent orders

Merging takes one class a round, which heads a sequence and is behind no other class, until nothing
is left or no class can be taken. What it has taken is in the order of each sequence. A class that
can be taken never stands in the way of a consistent order, so merging gives up only if there is
none.
-/

namespace ValueTrace

namespace Linearization

/-- The rounds of merging, as many as there are, and what comes of them. -/
inductive Merges {α : Type} [BEq α] : List (List α) → Option (List α) → Prop
  | done {ss} : (∀ s ∈ ss, s = []) → Merges ss (some [])
  | stuck {ss} : (∃ s ∈ ss, s ≠ []) → head? ss = none → Merges ss none
  | take {ss a answer} : head? ss = some a → Merges (ss.map (dropHead a)) answer →
      Merges ss (answer.map (a :: ·))

section

variable {α : Type} {ss : List (List α)} {s order : List α} {a b : α}

/-- No class stands twice in the order, and each sequence is in it. -/
structure Consistent (ss : List (List α)) (order : List α) : Prop where
  nodup : order.Nodup
  respects : ∀ s ∈ ss, s.Sublist order

/-- An order that is not headed by its first class is one without it. -/
theorem Consistent.tail (h : Consistent ss (b :: order)) (hb : ∀ s, b :: s ∉ ss) :
    Consistent ss order := by
  refine ⟨h.nodup.of_cons, fun s hs => ?_⟩
  cases h.respects s hs with
  | cons _ hsub => exact hsub
  | cons_cons _ _ => exact absurd hs (hb _)

theorem mem_heads : a ∈ ss.filterMap (·.head?) ↔ ∃ s, a :: s ∈ ss := by
  simp only [List.mem_filterMap, List.head?_eq_some_iff]
  constructor
  · rintro ⟨_, hs, s, rfl⟩
    exact ⟨s, hs⟩
  · rintro ⟨s, hs⟩
    exact ⟨_, hs, s, rfl⟩

end

variable {α : Type} [BEq α] [LawfulBEq α] {ss : List (List α)} {s order : List α} {a b : α}
  {n : Nat} {answer : Option (List α)}

/-- What is taken heads a sequence and is behind no class. -/
theorem head?_eq_some (h : head? ss = some a) : (∃ s, a :: s ∈ ss) ∧ ∀ s ∈ ss, a ∉ s.tail := by
  refine ⟨mem_heads.mp (List.mem_of_find?_eq_some h), fun s hs => ?_⟩
  have hall := List.find?_some (p := fun b => ss.all fun t => !t.tail.contains b) h
  simpa using List.all_eq_true.mp hall s hs

/-- Nothing can be taken if each head is behind some class. -/
theorem head?_eq_none (h : head? ss = none) (hs : a :: s ∈ ss) : ∃ t ∈ ss, a ∈ t.tail := by
  have hbehind := List.find?_eq_none.mp h a (mem_heads.mpr ⟨s, hs⟩)
  simpa using hbehind

theorem dropHead_cons_self : dropHead a (a :: s) = s := by simp [dropHead]

theorem dropHead_cons_of_ne (h : b ≠ a) : dropHead a (b :: s) = b :: s := by simp [dropHead, h]

theorem dropHead_sublist (a : α) (s : List α) : (dropHead a s).Sublist s := by
  cases s with
  | nil => exact .slnil
  | cons b s =>
    by_cases h : b = a
    · subst h
      rw [dropHead_cons_self]
      exact List.sublist_cons_self b s
    · rw [dropHead_cons_of_ne h]

/-- A sequence is what is left of it, behind what has been taken. -/
theorem sublist_cons_of_dropHead (h : (dropHead a s).Sublist order) : s.Sublist (a :: order) := by
  cases s with
  | nil => exact List.nil_sublist _
  | cons b s =>
    by_cases hb : b = a
    · subst hb
      rw [dropHead_cons_self] at h
      exact h.cons_cons b
    · rw [dropHead_cons_of_ne hb] at h
      exact h.cons a

/-- A class that stands at the head of a sequence at most has left it. -/
theorem mem_dropHead (h : a ∉ s.tail) : b ∈ dropHead a s ↔ b ∈ s ∧ b ≠ a := by
  cases s with
  | nil => simp [dropHead]
  | cons c s =>
    by_cases hc : c = a
    · subst hc
      have hne (hb : b ∈ s) : b ≠ c := fun he => h (he ▸ hb)
      rw [dropHead_cons_self, List.mem_cons]
      exact ⟨fun hb => ⟨.inr hb, hne hb⟩, fun ⟨hb, hbc⟩ => hb.resolve_left hbc⟩
    · rw [dropHead_cons_of_ne hc]
      refine (and_iff_left_of_imp ?_).symm
      rintro hb rfl
      exact (List.mem_cons.mp hb).elim (fun he => hc he.symm) h

theorem length_flatten_dropHead_le (a : α) (ss : List (List α)) :
    (ss.map (dropHead a)).flatten.length ≤ ss.flatten.length := by
  induction ss with
  | nil => exact Nat.le_refl 0
  | cons s ss ih =>
    have hs := (dropHead_sublist a s).length_le
    simp only [List.map_cons, List.flatten_cons, List.length_append]
    omega

/-- Each round takes something away. -/
theorem length_flatten_dropHead (h : head? ss = some a) :
    (ss.map (dropHead a)).flatten.length < ss.flatten.length := by
  obtain ⟨⟨s, hs⟩, -⟩ := head?_eq_some h
  clear h
  induction ss with
  | nil => cases hs
  | cons t ss ih =>
    simp only [List.map_cons, List.flatten_cons, List.length_append]
    rcases List.mem_cons.mp hs with rfl | hs
    · have hle := length_flatten_dropHead_le a ss
      rw [dropHead_cons_self, List.length_cons]
      omega
    · have hlt := ih hs
      have ht := (dropHead_sublist a t).length_le
      omega

/-- As many rounds as there are places in the sequences are enough. -/
theorem merges_mergeWithin (h : ss.flatten.length ≤ n) : Merges ss (mergeWithin n ss) := by
  induction n generalizing ss with
  | zero =>
    have hnil := List.flatten_eq_nil_iff.mp (List.eq_nil_of_length_eq_zero (Nat.le_zero.mp h))
    exact .done hnil
  | succ n ih =>
    rw [mergeWithin]
    split_ifs with hall
    · exact .done fun s hs => List.isEmpty_iff.mp (List.all_eq_true.mp hall s hs)
    · cases hhead : head? ss with
      | none =>
        refine .stuck ?_ hhead
        simpa using hall
      | some a =>
        have hlt := length_flatten_dropHead hhead
        rw [Option.bind_eq_bind, Option.bind_some, bind_pure_comp]
        exact .take hhead (ih (Nat.le_of_lt_succ (Nat.lt_of_lt_of_le hlt h)))

/-- The merged order is consistent, and has the classes of the sequences. -/
theorem Merges.consistent (h : Merges ss answer) (hanswer : answer = some order) :
    Consistent ss order ∧ ∀ a, a ∈ order ↔ ∃ s ∈ ss, a ∈ s := by
  induction h generalizing order with
  | done hnil =>
    cases hanswer
    refine ⟨⟨.nil, fun s hs => ?_⟩, fun a => ⟨nofun, ?_⟩⟩
    · rw [hnil s hs]
    · rintro ⟨s, hs, ha⟩
      rw [hnil s hs] at ha
      cases ha
  | stuck => cases hanswer
  | @take ss a answer hhead _ ih =>
    obtain ⟨rest, rfl, rfl⟩ := Option.map_eq_some_iff.mp hanswer
    obtain ⟨⟨s₀, hs₀⟩, hbehind⟩ := head?_eq_some hhead
    obtain ⟨hrest, hmem⟩ := ih rfl
    have hleft (b : α) : b ∈ rest ↔ (∃ s ∈ ss, b ∈ s) ∧ b ≠ a := by
      rw [hmem]
      constructor
      · rintro ⟨_, ht, hb⟩
        obtain ⟨s, hs, rfl⟩ := List.mem_map.mp ht
        obtain ⟨hb, hne⟩ := (mem_dropHead (hbehind s hs)).mp hb
        exact ⟨⟨s, hs, hb⟩, hne⟩
      · rintro ⟨⟨s, hs, hb⟩, hne⟩
        exact ⟨_, List.mem_map_of_mem hs, (mem_dropHead (hbehind s hs)).mpr ⟨hb, hne⟩⟩
    refine ⟨⟨List.nodup_cons.mpr ⟨fun ha => ((hleft a).mp ha).2 rfl, hrest.nodup⟩, fun s hs => ?_⟩,
      fun b => ?_⟩
    · exact sublist_cons_of_dropHead (hrest.respects _ (List.mem_map_of_mem hs))
    · rw [List.mem_cons, hleft]
      by_cases hb : b = a
      · subst hb
        simpa using ⟨_, hs₀, List.mem_cons_self⟩
      · simp [hb]

/-- As long as there is a consistent order, a class can be taken. -/
theorem Consistent.head?_ne_none (h : Consistent ss order) (hne : ∃ s ∈ ss, s ≠ []) :
    head? ss ≠ none := by
  induction order with
  | nil =>
    obtain ⟨s, hs, hnil⟩ := hne
    exact absurd (List.sublist_nil.mp (h.respects s hs)) hnil
  | cons b order ih =>
    by_cases hb : ∃ s, b :: s ∈ ss
    · obtain ⟨s, hs⟩ := hb
      intro hnone
      obtain ⟨t, ht, hbehind⟩ := head?_eq_none hnone hs
      have htail : t.tail.Sublist order := (h.respects t ht).tail
      exact (List.nodup_cons.mp h.nodup).1 (htail.subset hbehind)
    · exact ih (h.tail fun s hs => hb ⟨s, hs⟩)

/-- Merging is stuck only if there is no consistent order. -/
theorem Merges.inconsistent (h : Merges ss answer) (hanswer : answer = none) :
    ¬ Consistent ss order := by
  induction h with
  | done => cases hanswer
  | stuck hne hhead => exact fun hcons => hcons.head?_ne_none hne hhead
  | @take ss a answer _ _ ih =>
    intro hcons
    refine ih (Option.map_eq_none_iff.mp hanswer) ⟨hcons.nodup, ?_⟩
    rw [List.forall_mem_map]
    exact fun s hs => (dropHead_sublist a s).trans (hcons.respects s hs)

end Linearization

open Linearization in
/-- Merging the sequences comes to an end, and the linearisation is the class with what has been
merged: a consistent order of the classes of the sequences, or none if there is no such order. -/
theorem linearize_exact (cls : DataId) (bases : List DataId) (linearizations : List (List DataId)) :
    ∃ answer, Merges (linearizations ++ [bases]) answer ∧
      linearize cls bases linearizations = answer.map (cls :: ·) ∧
      match answer with
      | some order => Consistent (linearizations ++ [bases]) order ∧
          ∀ a, a ∈ order ↔ a ∈ bases ∨ ∃ s ∈ linearizations, a ∈ s
      | none => ∀ order, ¬ Consistent (linearizations ++ [bases]) order := by
  have h : Merges (linearizations ++ [bases]) (merge (linearizations ++ [bases])) :=
    merges_mergeWithin (Nat.le_refl _)
  refine ⟨_, h, rfl, ?_⟩
  cases hanswer : merge (linearizations ++ [bases]) with
  | none => exact fun order => h.inconsistent hanswer
  | some order =>
    obtain ⟨hcons, hmem⟩ := h.consistent hanswer
    refine ⟨hcons, fun a => (hmem a).trans ?_⟩
    simp [or_and_right, exists_or, or_comm]

/-- A class and one that inherits from it can be bases in one order only. -/
example : linearize 3 [2, 1] [[2, 1, 0], [1, 0]] = some [3, 2, 1, 0] ∧
    linearize 3 [1, 2] [[1, 0], [2, 1, 0]] = none := by decide

end ValueTrace
