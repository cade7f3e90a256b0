import ValueTrace.Machine.Attribute
import ValueTrace.Proofs.Literals.Shared

/-!
# Slots

A name that a value or a namespace knows lies in a variable, its slot, and so does what is known of
a type parameter. Slots may be shared, but only under one name, and none is that of a type
parameter.
-/

namespace ValueTrace

def slotsOf (ms : Members) : Set (VarId × String) := {slot | ms[slot.2]? = some slot.1}

namespace Value

def slots (x : Value) : Set (VarId × String) :=
  {slot | ∃ ms, x.members? = some ms ∧ slot ∈ slotsOf ms}

def params (x : Value) : Set VarId :=
  {v | ∃ (o : Object) (name : String), x = .object o ∧ o.typeParams[name]? = some v}

/-- A value that has neither members nor type parameters. -/
structure IsBare (x : Value) : Prop where
  slots : x.slots = ∅
  params : x.params = ∅

end Value

namespace Store

def slots (s : Store) : Set (VarId × String) :=
  {slot | (∃ d, slot ∈ (s.get d).slots) ∨
    ∃ (ns : NamespaceId) (ms : Members), s.namespace? ns = some ms ∧ slot ∈ slotsOf ms}

def params (s : Store) : Set VarId := {v | ∃ d, v ∈ (s.get d).params}

/-- What lies in a variable is known under one name only. -/
structure Apart (s : Store) : Prop where
  named : ∀ {v : VarId} {x y : String}, (v, x) ∈ s.slots → (v, y) ∈ s.slots → x = y
  params : ∀ {v : VarId} {x : String}, (v, x) ∈ s.slots → v ∉ s.params

/-- The second store has no slots and type parameters but those of the first one and these. -/
structure Gains (s s' : Store) (S : Set (VarId × String)) (P : Set VarId) : Prop where
  slots : s'.slots ⊆ s.slots ∪ S
  params : s'.params ⊆ s.params ∪ P

end Store

variable {s s' : Store} {x : Value} {ms : Members} {d : DataId} {ns : NamespaceId} {v : VarId}
  {name : String} {S : Set (VarId × String)} {P : Set VarId}

theorem slotsOf_empty : slotsOf ∅ = ∅ := by simp [slotsOf]

theorem slotsOf_insert : slotsOf (ms.insert name v) ⊆ slotsOf ms ∪ {(v, name)} := by
  rintro ⟨w, y⟩ h
  change (ms.insert name v)[y]? = some w at h
  rw [Std.TreeMap.getElem?_insert] at h
  split at h
  · next heq =>
    cases h
    obtain rfl := Std.LawfulEqCmp.compare_eq_iff_eq.mp heq
    exact .inr rfl
  · exact .inl h

theorem slotsOf_insertMany {l : List (String × VarId)} :
    slotsOf (ms.insertMany l) ⊆ slotsOf ms ∪ {slot | (slot.2, slot.1) ∈ l} := by
  induction l generalizing ms with
  | nil =>
    rw [Std.TreeMap.insertMany_nil]
    exact Set.subset_union_left
  | cons entry l ih =>
    rw [Std.TreeMap.insertMany_cons]
    rintro slot hslot
    rcases ih hslot with h | h
    · rcases slotsOf_insert h with h | rfl
      · exact .inl h
      · exact .inr List.mem_cons_self
    · exact .inr (List.mem_cons_of_mem _ h)

theorem slotsOf_ofList {l : List (String × VarId)} :
    slotsOf (.ofList l) ⊆ {slot | (slot.2, slot.1) ∈ l} := by
  rw [Std.TreeMap.ofList_eq_insertMany_empty]
  refine slotsOf_insertMany.trans (Set.union_subset ?_ subset_rfl)
  exact slotsOf_empty.subset.trans (Set.empty_subset _)

namespace Value

theorem slots_addMember : (x.addMember name v).slots ⊆ x.slots ∪ {(v, name)} := by
  rintro slot ⟨ms, hms, hslot⟩
  cases x with
  | object o =>
    cases hms
    exact (slotsOf_insert hslot).imp (⟨_, rfl, ·⟩) id
  | ofClass c =>
    cases hms
    exact (slotsOf_insert hslot).imp (⟨_, rfl, ·⟩) id
  | function f =>
    cases hms
    exact (slotsOf_insert hslot).imp (⟨_, rfl, ·⟩) id
  | module n members =>
    cases hms
    exact (slotsOf_insert hslot).imp (⟨_, rfl, ·⟩) id
  | unknown members =>
    cases hms
    exact (slotsOf_insert hslot).imp (⟨_, rfl, ·⟩) id
  | native f | method r f | unsolvable | special form => cases hms

theorem params_addMember : (x.addMember name v).params ⊆ x.params := by
  rintro w ⟨o, y, ho, hw⟩
  cases x with
  | object o' =>
    cases ho
    exact ⟨o', y, rfl, hw⟩
  | _ => cases ho

/-- A value whose members, if it can have some, are none, and which is no object. -/
theorem IsBare.of_members? (h : ∀ ms, x.members? = some ms → ms = ∅) (hx : x.object? = none) :
    x.IsBare where
  slots := by
    refine Set.eq_empty_of_forall_notMem ?_
    rintro slot ⟨ms, hms, hslot⟩
    rw [h ms hms, slotsOf_empty] at hslot
    exact hslot
  params := by
    refine Set.eq_empty_of_forall_notMem ?_
    rintro w ⟨o, y, rfl, -⟩
    cases hx

end Value

namespace Store

theorem get_of_object? {o : Object} (h : s.object? d = some o) : s.get d = .object o := by
  unfold object? at h
  cases hx : s.get d <;> rw [hx] at h <;> cases h
  rfl

theorem object?_of_get {o : Object} (h : s.get d = .object o) : s.object? d = some o := by
  unfold object?
  rw [h]
  rfl

theorem typeParam?_of_get {o : Object} (h : s.get d = .object o) (name : String) :
    s.typeParam? d name = o.typeParams[name]? := by
  unfold typeParam?
  rw [object?_of_get h]
  rfl

theorem mem_slots_of_namespace? (h : s.namespace? ns = some ms) : slotsOf ms ⊆ s.slots :=
  fun _ hslot => .inr ⟨ns, ms, h, hslot⟩

/-- A store is apart if what it has gained on one that is apart is new there. -/
theorem Apart.gains (hs : s.Apart) (h : s.Gains s' S P)
    (hnamed : ∀ {v x y}, (v, x) ∈ S → (v, y) ∈ S → x = y)
    (hparams : ∀ {v x}, (v, x) ∈ S → v ∉ P)
    (hslots : ∀ {v x y}, (v, x) ∈ S → (v, y) ∉ s.slots)
    (hnew : ∀ {v x}, (v, x) ∈ S → v ∉ s.params)
    (hP : ∀ {v x}, v ∈ P → (v, x) ∉ s.slots) : s'.Apart where
  named hx hy := by
    rcases h.slots hx with hx | hx <;> rcases h.slots hy with hy | hy
    · exact hs.named hx hy
    · exact absurd hx (hslots hy)
    · exact absurd hy (hslots hx)
    · exact hnamed hx hy
  params hx hv := by
    rcases h.slots hx with hx | hx <;> rcases h.params hv with hv | hv
    · exact hs.params hx hv
    · exact hP hv hx
    · exact hnew hx hv
    · exact hparams hx hv

namespace Gains

theorem of_get (hslots : ∀ d, (s'.get d).slots ⊆ s.slots ∪ S)
    (hparams : ∀ d, (s'.get d).params ⊆ s.params ∪ P)
    (hns : ∀ (ns : NamespaceId) (ms : Members), s'.namespace? ns = some ms →
      slotsOf ms ⊆ s.slots ∪ S) : s.Gains s' S P where
  slots := by
    rintro slot (⟨d, h⟩ | ⟨ns, ms, h, hslot⟩)
    · exact hslots d h
    · exact hns ns ms h hslot
  params := fun _ ⟨d, h⟩ => hparams d h

theorem add (s : Store) (x : Value) : s.Gains (s.add x).2 x.slots x.params := by
  refine of_get (fun d slot h => ?_) (fun d v h => ?_) fun ns ms h slot hslot => .inl (.inr ⟨ns, ms, h, hslot⟩)
  · rw [get_add] at h
    split at h
    · exact .inr h
    · exact .inl (.inl ⟨d, h⟩)
  · rw [get_add] at h
    split at h
    · exact .inr h
    · exact .inl ⟨d, h⟩

theorem add_bare (s : Store) (hx : x.IsBare) : s.Gains (s.add x).2 ∅ ∅ := by
  have h := add s x
  rwa [hx.slots, hx.params] at h

theorem modify (s : Store) (d : DataId) {f : Value → Value} (hf : f .unsolvable = .unsolvable)
    (hslots : ∀ x, (f x).slots ⊆ x.slots ∪ S) (hparams : ∀ x, (f x).params ⊆ x.params ∪ P) :
    s.Gains (s.modify d f) S P := by
  refine of_get (fun e slot h => ?_) (fun e v h => ?_) fun ns ms h slot hslot => ?_
  · rw [get_modify hf] at h
    split at h
    · exact (hslots _ h).imp (fun h => .inl ⟨e, h⟩) id
    · exact .inl (.inl ⟨e, h⟩)
  · rw [get_modify hf] at h
    split at h
    · exact (hparams _ h).imp (fun h => ⟨e, h⟩) id
    · exact .inl ⟨e, h⟩
  · cases d <;> exact .inl (.inr ⟨ns, ms, h, hslot⟩)

theorem addMember (s : Store) (d : DataId) (name : String) (v : VarId) :
    s.Gains (s.modify d (·.addMember name v)) {(v, name)} ∅ :=
  modify s d rfl (fun _ => Value.slots_addMember) fun _ _ h => .inl (Value.params_addMember h)

theorem modifyClass (s : Store) (d : DataId) {h : ClassValue → ClassValue}
    (hh : ∀ c, (h c).members = c.members) : s.Gains (s.modify d fun
      | .ofClass c => .ofClass (h c)
      | v => v) ∅ ∅ := by
  refine modify s d rfl (fun x slot hx => ?_) fun x v hx => ?_
  · cases x with
    | ofClass c =>
      obtain ⟨ms, hms, hslot⟩ := hx
      cases hms
      rw [hh] at hslot
      exact .inl ⟨_, rfl, hslot⟩
    | _ => exact .inl hx
  · cases x with
    | ofClass c =>
      obtain ⟨o, _, ho, -⟩ := hx
      cases ho
    | _ => exact .inl hx

theorem newNamespace (s : Store) : s.Gains s.newNamespace.2 ∅ ∅ := by
  refine of_get (fun d slot h => .inl (.inl ⟨d, h⟩)) (fun d v h => .inl ⟨d, h⟩)
    fun ns ms h slot hslot => ?_
  change (s.namespaces.push ∅)[ns]? = some ms at h
  rw [Array.getElem?_push] at h
  split at h
  · cases h
    rw [slotsOf_empty] at hslot
    exact .inr hslot
  · exact .inl (.inr ⟨ns, ms, h, hslot⟩)

theorem modifyNamespace (s : Store) (ns : NamespaceId) {f : Members → Members}
    (h : ∀ ms, slotsOf (f ms) ⊆ slotsOf ms ∪ s.slots ∪ S) : s.Gains (s.modifyNamespace ns f) S ∅ := by
  refine of_get (fun d slot h => .inl (.inl ⟨d, h⟩)) (fun d v h => .inl ⟨d, h⟩)
    fun k ms hms slot hslot => ?_
  change (s.namespaces.modify ns f)[k]? = some ms at hms
  rw [Array.getElem?_modify] at hms
  split at hms
  · obtain ⟨ms', hms', rfl⟩ := Option.map_eq_some_iff.mp hms
    exact (h ms' hslot).imp (Or.elim · (fun h => .inr ⟨k, ms', hms', h⟩) id) id
  · exact .inl (.inr ⟨k, ms, hms, hslot⟩)

theorem define (s : Store) (ns : NamespaceId) (name : String) (v : VarId) :
    s.Gains (s.define ns name v) {(v, name)} ∅ :=
  modifyNamespace s ns fun _ _ h => (slotsOf_insert h).imp .inl id

end Gains

end Store

end ValueTrace
