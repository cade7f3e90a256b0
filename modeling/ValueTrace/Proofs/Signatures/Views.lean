import Mathlib.Algebra.BigOperators.Group.List.Basic
import Mathlib.Data.List.Forall2
import Mathlib.Data.List.Sort
import ValueTrace.Signature.Matching

/-!
# Views are the capped product

A call of a library function looks at combinations of what its arguments show. They are put together
one argument at a time, and the cap is kept after each argument. Nothing is lost by that: a view that
is cut off has at least one continuation or none has, so those before it fill the cap or there is
nothing to fill it with.
-/

namespace ValueTrace

section

variable {α : Type}

def product : List (List α) → List (List α)
  | [] => [[]]
  | options :: choices => options.flatMap fun a => (product choices).map (a :: ·)

def extended (vs : List (List α)) (options : List α) : List (List α) :=
  vs.flatMap fun v => options.map (v ++ [·])

/-- The combination takes its elements from these positions of the lists. -/
inductive TakenAt : List (List α) → List Nat → List α → Prop
  | nil : TakenAt [] [] []
  | cons {options choices i is a v} : options[i]? = some a → TakenAt choices is v →
      TakenAt (options :: choices) (i :: is) (a :: v)

/-- These are the combinations of the lists in lexicographic order: one at each positions that the
lists have, where what comes first has the smaller position in the first list in which they
differ. -/
def IsProduct (choices all : List (List α)) : Prop :=
  ∃ positions : List (List Nat), positions.Pairwise (· < ·) ∧
    (∀ is, is ∈ positions ↔ ∃ v, TakenAt choices is v) ∧
    List.Forall₂ (TakenAt choices) positions all

end

variable {α : Type} {cap : Nat} {choices : List (List α)} {v : List α}

theorem mem_product : v ∈ product choices ↔ List.Forall₂ (· ∈ ·) v choices := by
  induction choices generalizing v with
  | nil => simp [product]
  | cons options choices ih =>
    rw [product, List.forall₂_cons_right_iff]
    simp only [List.mem_flatMap, List.mem_map, ih]
    constructor
    · rintro ⟨a, ha, u, hu, rfl⟩
      exact ⟨a, u, ha, hu, rfl⟩
    · rintro ⟨a, u, ha, hu, rfl⟩
      exact ⟨a, ha, u, hu, rfl⟩

theorem length_product (choices : List (List α)) :
    (product choices).length = (choices.map List.length).prod := by
  induction choices with
  | nil => rfl
  | cons options choices ih => simp [product, List.length_flatMap, ih]

/-- Combinations of ascending lists ascend. -/
theorem pairwise_product [LT α] (h : ∀ options ∈ choices, options.Pairwise (· < ·)) :
    (product choices).Pairwise (· < ·) := by
  induction choices with
  | nil => exact List.pairwise_singleton _ _
  | cons options choices ih =>
    obtain ⟨hoptions, hrest⟩ := List.forall_mem_cons.mp h
    refine List.pairwise_flatMap.mpr ⟨fun a _ => ?_, hoptions.imp fun {a b} hab => ?_⟩
    · refine List.pairwise_map.mpr ((ih hrest).imp fun huv => ?_)
      exact List.cons_lt_cons_iff.mpr (.inr ⟨rfl, huv⟩)
    · simp only [List.mem_map]
      rintro _ ⟨u, -, rfl⟩ _ ⟨v, -, rfl⟩
      exact List.cons_lt_cons_iff.mpr (.inl hab)

theorem exists_takenAt_iff {is : List Nat} :
    (∃ v, TakenAt choices is v) ↔ List.Forall₂ (fun i options => i < options.length) is choices := by
  constructor
  · rintro ⟨v, h⟩
    induction h with
    | nil => exact .nil
    | cons ha _ ih => exact .cons (List.getElem?_eq_some_iff.mp ha).1 ih
  · intro h
    induction h with
    | nil => exact ⟨[], .nil⟩
    | cons hi _ ih => exact ih.imp' _ fun _ => .cons (List.getElem?_eq_getElem hi)

/-- The combinations of the positions are the positions of the combinations. -/
theorem forall₂_takenAt (choices : List (List α)) :
    List.Forall₂ (TakenAt choices) (product (choices.map fun options => List.range options.length))
      (product choices) := by
  induction choices with
  | nil => exact .cons .nil .nil
  | cons options choices ih =>
    have hat : List.Forall₂ (fun i a => options[i]? = some a) (List.range options.length) options :=
      List.forall₂_iff_get.mpr ⟨List.length_range, fun i _ h => by simp [List.getElem?_eq_getElem h]⟩
    refine List.rel_flatMap hat fun i a ha => ?_
    exact List.rel_map (fun _ _ hv => .cons ha hv) ih

theorem isProduct_product (choices : List (List α)) : IsProduct choices (product choices) := by
  refine ⟨_, pairwise_product ?_, fun is => ?_, forall₂_takenAt choices⟩
  · simp only [List.forall_mem_map]
    exact fun _ _ => List.pairwise_lt_range
  · rw [mem_product, List.forall₂_map_right_iff, exists_takenAt_iff]
    simp only [List.mem_range]

theorem TakenAt.unique {is : List Nat} {u : List α} (hu : TakenAt choices is u)
    (hv : TakenAt choices is v) : u = v := by
  induction hu generalizing v with
  | nil => cases hv; rfl
  | cons ha _ ih =>
    cases hv with
    | cons hb hv => rw [Option.some.inj (ha.symm.trans hb), ih hv]

/-- Lists have one product. -/
theorem isProduct_iff {all : List (List α)} :
    IsProduct choices all ↔ all = product choices := by
  refine ⟨?_, fun h => h ▸ isProduct_product choices⟩
  rintro ⟨positions, hsorted, hmem, hall⟩
  obtain ⟨positions', hsorted', hmem', hall'⟩ := isProduct_product choices
  obtain rfl : positions = positions' :=
    hsorted.eq_of_mem_iff hsorted' fun is => (hmem is).trans (hmem' is).symm
  have hunique : Relator.RightUnique (TakenAt choices) := fun _ _ _ hu hv => hu.unique hv
  exact List.right_unique_forall₂' hunique hall hall'

/-- If each element adds something, then the first `m` elements of what is added up come from the
first `m` elements. -/
theorem take_flatMap_take {β γ : Type} {f : β → List γ} (hf : ∀ b, f b ≠ []) {l : List β}
    {m n : Nat} (h : m ≤ n) : ((l.take n).flatMap f).take m = (l.flatMap f).take m := by
  induction l generalizing m n with
  | nil => simp
  | cons b l ih =>
    cases n with
    | zero => simp [Nat.le_zero.mp h]
    | succ n =>
      have hpos : 0 < (f b).length := List.length_pos_iff.mpr (hf b)
      have hrest : m - (f b).length ≤ n := by omega
      simp only [List.take_succ_cons, List.flatMap_cons, List.take_append, ih hrest]

/-- An argument may be given the views that are left by the cap. -/
theorem take_extended_take (cap : Nat) (vs : List (List α)) (options : List α) :
    (extended (vs.take cap) options).take cap = (extended vs options).take cap := by
  cases options with
  | nil =>
    have hnone (vs : List (List α)) : extended vs [] = [] :=
      List.flatMap_eq_nil_iff.mpr fun _ _ => rfl
    rw [hnone, hnone]
  | cons a options => exact take_flatMap_take (fun _ => by simp) (Nat.le_refl cap)

theorem flatMap_extended (vs : List (List α)) (options : List α) (choices : List (List α)) :
    ((extended vs options).flatMap fun v => (product choices).map (v ++ ·)) =
      vs.flatMap fun v => (product (options :: choices)).map (v ++ ·) := by
  simp [extended, product, List.flatMap_assoc, List.flatMap_map, List.map_flatMap,
    Function.comp_def]

/-- The cap may be kept after each argument or once, after the last. -/
theorem foldl_extended (cap : Nat) (choices vs : List (List α)) :
    choices.foldl (fun vs options => (extended vs options).take cap) (vs.take cap) =
      (vs.flatMap fun v => (product choices).map (v ++ ·)).take cap := by
  induction choices generalizing vs with
  | nil => simp [product]
  | cons options choices ih =>
    rw [List.foldl_cons, take_extended_take, ih, flatMap_extended]

theorem views_cons (cap : Nat) (options : List α) (choices : List (List α)) :
    views cap (options :: choices) = (product (options :: choices)).take cap := by
  calc views cap (options :: choices)
    _ = choices.foldl (fun vs options => (extended vs options).take cap)
          ((extended [[]] options).take cap) := rfl
    _ = ([[]].flatMap fun v => (product (options :: choices)).map (v ++ ·)).take cap := by
      rw [foldl_extended, flatMap_extended]
    _ = (product (options :: choices)).take cap := by simp

theorem views_eq (h : 1 ≤ cap) (choices : List (List α)) :
    views cap choices = (product choices).take cap := by
  cases choices with
  | nil => exact (List.take_of_length_le h).symm
  | cons options choices => exact views_cons cap options choices

/-- If there are options for each argument then there is a view. -/
theorem exists_view (h : ∀ options ∈ choices, options ≠ []) :
    ∃ v, List.Forall₂ (· ∈ ·) v choices := by
  induction choices with
  | nil => exact ⟨[], .nil⟩
  | cons options choices ih =>
    obtain ⟨hoptions, hrest⟩ := List.forall_mem_cons.mp h
    obtain ⟨a, ha⟩ := List.exists_mem_of_ne_nil _ hoptions
    exact (ih hrest).imp' (a :: ·) fun _ => .cons ha

/-- And each option is in one, at its place. -/
theorem exists_view_at {k : Nat} {options : List α} {a : α}
    (h : ∀ options ∈ choices, options ≠ []) (hk : choices[k]? = some options) (ha : a ∈ options) :
    ∃ v, List.Forall₂ (· ∈ ·) v choices ∧ v[k]? = some a := by
  induction choices generalizing k with
  | nil => cases hk
  | cons first choices ih =>
    obtain ⟨hfirst, hrest⟩ := List.forall_mem_cons.mp h
    cases k with
    | zero =>
      cases hk
      obtain ⟨v, hv⟩ := exists_view hrest
      exact ⟨a :: v, .cons ha hv, rfl⟩
    | succ k =>
      obtain ⟨v, hv, hat⟩ := ih hrest hk
      obtain ⟨b, hb⟩ := List.exists_mem_of_ne_nil _ hfirst
      exact ⟨b :: v, .cons hb hv, hat⟩

theorem exists_view_of_mem {β : Type} {ks : List β} {k : β} {options : List α} {a : α}
    (h : ∀ options ∈ choices, options ≠ []) (hk : (k, options) ∈ ks.zip choices)
    (ha : a ∈ options) : ∃ v, List.Forall₂ (· ∈ ·) v choices ∧ (k, a) ∈ ks.zip v := by
  obtain ⟨i, hi⟩ := List.mem_iff_getElem?.mp hk
  obtain ⟨hkey, hoptions⟩ := List.getElem?_zip_eq_some.mp hi
  obtain ⟨v, hv, hat⟩ := exists_view_at h hoptions ha
  exact ⟨v, hv, List.mem_iff_getElem?.mpr ⟨i, List.getElem?_zip_eq_some.mpr ⟨hkey, hat⟩⟩⟩

/-- A view has one of the options for each argument. -/
theorem forall₂_of_mem_views (h : v ∈ views cap choices) : List.Forall₂ (· ∈ ·) v choices := by
  refine mem_product.mp ?_
  cases choices with
  | nil => exact h
  | cons options choices => exact List.mem_of_mem_take (views_cons cap options choices ▸ h)

theorem mem_of_mem_views (h : v ∈ views cap choices) {a : α} (ha : a ∈ v) :
    ∃ options ∈ choices, a ∈ options := by
  have hall := forall₂_of_mem_views h
  clear h
  induction hall with
  | nil => cases ha
  | @cons b options _ _ hb _ ih =>
    rcases List.mem_cons.mp ha with rfl | ha
    · exact ⟨options, List.mem_cons_self, hb⟩
    · obtain ⟨options', hmem, ha⟩ := ih ha
      exact ⟨options', List.mem_cons_of_mem _ hmem, ha⟩

/-- If there are no more combinations than the cap, then each is a view. -/
theorem mem_views (h : List.Forall₂ (· ∈ ·) v choices)
    (hcap : (choices.map List.length).prod ≤ cap) : v ∈ views cap choices := by
  rw [← length_product] at hcap
  have hv : v ∈ product choices := mem_product.mpr h
  have hpos : 1 ≤ cap := Nat.le_trans (List.length_pos_of_mem hv) hcap
  rwa [views_eq hpos, List.take_of_length_le hcap]

/-- A product that is not empty has options for each argument. -/
theorem ne_nil_of_product (h : product choices ≠ []) : ∀ options ∈ choices, options ≠ [] := by
  obtain ⟨v, hv⟩ := List.exists_mem_of_ne_nil _ h
  rw [mem_product] at hv
  clear h
  induction hv with
  | nil => simp
  | cons ha _ ih => exact List.forall_mem_cons.mpr ⟨List.ne_nil_of_mem ha, ih⟩

/-- The views under a cap are the first combinations of the product, as many as the cap, and each
takes one option for every argument. If there are no more combinations than the cap, then every
option of every argument is in a view. -/
theorem views_capped (hcap : 1 ≤ cap) (choices : List (List α)) :
    (∀ all, IsProduct choices all ↔ all = product choices) ∧
      views cap choices = (product choices).take cap ∧
      (∀ v ∈ views cap choices, List.Forall₂ (· ∈ ·) v choices) ∧
      (product choices ≠ [] → (product choices).length ≤ cap →
        ∀ (k : Nat) (options : List α), choices[k]? = some options → ∀ a ∈ options,
          ∃ v ∈ views cap choices, v[k]? = some a) := by
  refine ⟨fun _ => isProduct_iff, views_eq hcap choices, fun _ => forall₂_of_mem_views,
    fun hsome hall k options hk a ha => ?_⟩
  obtain ⟨v, hv, hat⟩ := exists_view_at (ne_nil_of_product hsome) hk ha
  exact ⟨v, mem_views hv (length_product choices ▸ hall), hat⟩

/-- Two arguments under a cap in the middle of the product, and under one that is its size. -/
theorem twoArguments_capped :
    1 ≤ 4 ∧ views 4 [[0, 1], [2, 3, 4]] = [[0, 2], [0, 3], [0, 4], [1, 2]] ∧
      1 ≤ 6 ∧ product [[0, 1], [2, 3, 4]] ≠ [] ∧ (product [[0, 1], [2, 3, 4]]).length ≤ 6 ∧
      [[0, 1], [2, 3, 4]][1]? = some [2, 3, 4] ∧ 4 ∈ [2, 3, 4] ∧
      ∃ v ∈ views 6 [[0, 1], [2, 3, 4]], v[1]? = some 4 := by
  have hproduct : product [[0, 1], [2, 3, 4]] ≠ [] ∧ (product [[0, 1], [2, 3, 4]]).length ≤ 6 := by
    decide
  have hsome : 4 ∈ [2, 3, 4] := by decide
  obtain ⟨-, hviews, -, -⟩ := @views_capped Nat 4 (by decide) [[0, 1], [2, 3, 4]]
  obtain ⟨-, -, -, hat⟩ := @views_capped Nat 6 (by decide) [[0, 1], [2, 3, 4]]
  exact ⟨by decide, hviews, by decide, hproduct.1, hproduct.2, rfl, hsome,
    hat hproduct.1 hproduct.2 1 _ rfl 4 hsome⟩

end ValueTrace
