import Mathlib.Data.List.Nodup
import ValueTrace.Bytecode.Json
import ValueTrace.Proofs.Json.Layout

/-! What the parts of a record are written as is read as the parts again, where there is room for
as many containers as are open at once. -/
namespace ValueTrace.Json

mutual

def depth : Json → Nat
  | .array items => depthItems items + 1
  | .object members => depthMembers members + 1
  | _ => 0

def depthItems : List Json → Nat
  | [] => 0
  | v :: l => max (depth v) (depthItems l)

def depthMembers : List (Option String × Json) → Nat
  | [] => 0
  | (_, v) :: l => max (depth v) (depthMembers l)

end

variable {α : Type} {d n bound : Nat}

@[simp] theorem depth_nat (n : Nat) : (nat n).depth = 0 := rfl

@[simp] theorem depth_text (s : String) : (text s).depth = 0 := rfl

@[simp] theorem depth_int (n : Int) : (int n).depth = 0 := by
  cases n <;> rfl

@[simp] theorem depth_option_nat (n : Option Nat) : (option nat n).depth = 0 := by
  cases n <;> rfl

theorem depthItems_le (l : List Json) : depthItems l ≤ d ↔ ∀ v ∈ l, v.depth ≤ d := by
  induction l with
  | nil => simp [depthItems]
  | cons v l ih => rw [depthItems, Nat.max_le, ih, List.forall_mem_cons]

theorem depthMembers_le (l : List (Option String × Json)) :
    depthMembers l ≤ d ↔ ∀ m ∈ l, m.2.depth ≤ d := by
  induction l with
  | nil => simp [depthMembers]
  | cons m l ih => rw [depthMembers, Nat.max_le, ih, List.forall_mem_cons]

theorem depth_list_pos (f : α → Json) (l : List α) : 0 < (list f l).depth := by
  simp [list, depth]

theorem depth_record_le (members : List (String × Json)) :
    (record members).depth ≤ d + 1 ↔ ∀ m ∈ members, m.2.depth ≤ d := by
  rw [record, depth, Nat.add_le_add_iff_right, depthMembers_le, List.forall_mem_map]

theorem depth_list_le (f : α → Json) (l : List α) :
    (list f l).depth ≤ d + 1 ↔ ∀ a ∈ l, (f a).depth ≤ d := by
  rw [list, depth, Nat.add_le_add_iff_right, depthItems_le]
  simp

theorem depth_case_pos (name : String) (v : Json) : 0 < (Json.case name v).depth := by
  simp [Json.case, record, depth]

theorem depth_case_le (name : String) (v : Json) :
    (Json.case name v).depth ≤ d + 1 ↔ v.depth ≤ d := by
  simp [Json.case, depth_record_le]

/-- With room for all of its containers the value is read as `a`, and with less room not at all. -/
def ReadsAs (f : Nat → Json → Option α) (v : Json) (a : α) : Prop :=
  ∀ d, f d v = if v.depth ≤ d then some a else none

theorem natBelow?_nat (h : n < bound) (hb : bound ≤ Word.bound64) :
    natBelow? bound (nat n) = some n := by
  have hn : n < Word.bound64 := Nat.lt_of_lt_of_le h hb
  simp [natBelow?, nat, Numeral.toInt?, h, hn]

theorem int64?_int {n : Int} (h : Word.holds n = true) : int64? (int n) = some n := by
  have hread : (int n).int64? = (some n).filter Word.holds := by
    rw [Word.holds, Bool.and_eq_true, decide_eq_true_eq, decide_eq_true_eq] at h
    obtain ⟨hlow, hhigh⟩ := h
    cases n with
    | ofNat n =>
      have hhalf : Word.half64 ≤ Word.bound64 := by decide
      have hlt : (n : Int) < Word.half64 := hhigh
      have hn : n < Word.bound64 := by omega
      rw [int, nat, int64?, Numeral.toInt?, if_pos hn]
      rfl
    | negSucc n =>
      have hn : n + 1 ≤ Word.half64 := by omega
      rw [int, int64?, Numeral.toInt?, if_pos ⟨Nat.succ_pos n, hn⟩]
      rfl
  rw [hread, Option.filter_some, if_pos h]

/-- A list is read where each of its items is. -/
theorem mapM_ite {f : Json → Option α} {g : α → Json} {p : α → Prop} [DecidablePred p] {l : List α}
    (h : ∀ a ∈ l, f (g a) = if p a then some a else none) :
    (l.map g).mapM f = if ∀ a ∈ l, p a then some l else none := by
  induction l with
  | nil => simp
  | cons a l ih =>
    obtain ⟨ha, hl⟩ := List.forall_mem_cons.mp h
    rw [List.map_cons, List.mapM_cons, ha, ih hl]
    by_cases hp : p a
    · by_cases hrest : ∀ b ∈ l, p b
      · rw [if_pos hp, if_pos hrest, if_pos (List.forall_mem_cons.mpr ⟨hp, hrest⟩)]
        rfl
      · rw [if_pos hp, if_neg hrest, if_neg fun h => hrest (List.forall_mem_cons.mp h).2]
        rfl
    · rw [if_neg hp, if_neg fun h => hp (List.forall_mem_cons.mp h).1]
      rfl

theorem list?_list {f : Json → Option α} {g : α → Json} {l : List α}
    (h : ∀ a ∈ l, f (g a) = some a) : list? f (list g l) = some l := by
  change (l.map g).mapM f = _
  rw [mapM_ite (p := fun _ => True), if_pos fun _ _ => trivial]
  intro a ha
  rw [h a ha, if_pos trivial]

/-- The list itself is one more container. -/
theorem ReadsAs.list? {f : Nat → Json → Option α} {g : α → Json} {l : List α}
    (h : ∀ a ∈ l, ReadsAs f (g a) a) (d : Nat) :
    Json.list? (f d) (list g l) = if (list g l).depth ≤ d + 1 then some l else none := by
  change (l.map g).mapM (f d) = _
  rw [mapM_ite fun a ha => h a ha d]
  exact if_congr (depth_list_le g l).symm rfl rfl

theorem filter_of_not_mem {members : List (String × Json)} {name : String}
    (h : name ∉ members.map Prod.fst) :
    (members.map fun (name, v) => (some name, v)).filter (fun m => m.1 == some name) = [] := by
  rw [List.filter_eq_nil_iff]
  intro m hm
  obtain ⟨k, hk, rfl⟩ := List.mem_map.mp hm
  have hne : k.1 ≠ name := by
    rintro rfl
    exact h (List.mem_map_of_mem hk)
  simpa using hne

theorem field?_record {members : List (String × Json)} {m : String × Json}
    (hnodup : (members.map Prod.fst).Nodup) (h : m ∈ members) :
    field? (members.map fun (name, v) => (some name, v)) m.1 = some (some m.2) := by
  have hfilter : (members.map fun (name, v) => (some name, v)).filter
      (fun k => k.1 == some m.1) = [(some m.1, m.2)] := by
    induction members with
    | nil => cases h
    | cons k members ih =>
      obtain ⟨hk, hrest⟩ := List.nodup_cons.mp hnodup
      rw [List.map_cons, List.filter_cons]
      obtain rfl | h := List.mem_cons.mp h
      · rw [if_pos (by simp), filter_of_not_mem hk]
      · have hne : k.1 ≠ m.1 := by
          intro he
          exact hk (he ▸ List.mem_map_of_mem h)
        rw [if_neg (by simpa using hne), ih hrest h]
  rw [field?, hfilter]

/-- A record is read with each of its fields. -/
theorem fields?_record {members : List (String × Json)} {names : List String}
    (hnames : members.map Prod.fst = names) (hnodup : names.Nodup) :
    (record members).fields? names = some (members.map (some ·.2)) := by
  subst hnames
  have hsub (l : List (String × Json)) (hl : l ⊆ members) :
      (l.map Prod.fst).mapM (field? (members.map fun (name, v) => (some name, v))) =
        some (l.map (some ·.2)) := by
    induction l with
    | nil => rfl
    | cons m l ih =>
      obtain ⟨hm, hrest⟩ := List.cons_subset.mp hl
      rw [List.map_cons, List.mapM_cons, field?_record hnodup hm, ih hrest]
      rfl
  have hnamed : ((members.map fun (name, v) => (some name, v)).all (·.1.isSome)) = true := by
    simp
  rw [record, fields?, if_pos hnamed, hsub members (List.Subset.refl _)]

theorem nullable?_option {bound : Nat} {n : Option Nat} (h : n.all (· < bound) = true)
    (hb : bound ≤ Word.bound64) :
    orDefault? none (nullable? (natBelow? bound)) (some (option .nat n)) = some n := by
  cases n with
  | none => rfl
  | some n =>
    have hn : n < bound := by simpa using h
    change (natBelow? bound (.nat n)).map some = _
    rw [natBelow?_nat hn hb]
    rfl

theorem texts?_list (l : List String) :
    orDefault? [] (Json.list? text?) (some (.list .text l)) = some l :=
  list?_list fun _ _ => rfl

theorem word64?_nat (n : UInt64) : orDefault? 0
    (fun v => (v.natBelow? Word.bound64).map UInt64.ofNat) (some (.nat n.toNat)) = some n := by
  have hn : n.toNat < Word.bound64 := n.toNat_lt
  rw [orDefault?, natBelow?_nat hn (Nat.le_refl _), Option.map_some, UInt64.ofNat_toNat]

theorem word32?_nat (n : UInt32) : orDefault? 0
    (fun v => (v.natBelow? Word.bound32).map UInt32.ofNat) (some (.nat n.toNat)) = some n := by
  have hn : n.toNat < Word.bound32 := n.toNat_lt
  rw [orDefault?, natBelow?_nat hn (by decide), Option.map_some, UInt32.ofNat_toNat]

namespace Plain

@[simp] theorem nat (n : Nat) : (Json.nat n).Plain := .whole false n

@[simp] theorem ofText (s : String) : (Json.text s).Plain := .text s

@[simp] theorem int (n : Int) : (Json.int n).Plain := by
  cases n with
  | ofNat n => exact .whole false n
  | negSucc n => exact .whole true (n + 1)

@[simp] theorem option_nat (n : Option Nat) : (Json.option .nat n).Plain := by
  cases n with
  | none => exact .null
  | some n => exact .whole false n

theorem record {members : List (String × Json)} (h : ∀ m ∈ members, m.2.Plain) :
    (Json.record members).Plain := by
  apply Plain.object
  · intro m hm
    obtain ⟨k, _, rfl⟩ := List.mem_map.mp hm
    rfl
  · intro m hm
    obtain ⟨k, hk, rfl⟩ := List.mem_map.mp hm
    exact h k hk

theorem list {α : Type} {f : α → Json} {l : List α} (h : ∀ a ∈ l, (f a).Plain) :
    (Json.list f l).Plain := by
  apply Plain.array
  intro v hv
  obtain ⟨a, ha, rfl⟩ := List.mem_map.mp hv
  exact h a ha

theorem case {name : String} {v : Json} (h : v.Plain) : (Json.case name v).Plain := by
  apply Plain.record
  simpa using h

theorem texts (l : List String) : (Json.list .text l).Plain := by
  apply Plain.list
  simp

end Plain

end ValueTrace.Json
