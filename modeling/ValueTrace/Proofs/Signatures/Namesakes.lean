import ValueTrace.Machine.Class
import ValueTrace.Proofs.Classes.Linearization
import ValueTrace.Proofs.References.Extents
import ValueTrace.Signature.Matching

/-!
# Classes that take the name of another one

A parameter that names a class of the library takes an object if a class in the linearisation of its
class has that name, or the name of a number that is promoted. Where the class comes from does not
matter, so a class of the program passes for the class of the library whose name it takes.
-/

namespace ValueTrace

/-- The classes whose objects are taken for those of a class of the library: the class itself, and
for numbers those that are promoted. -/
def takenFor : String → List String
  | "float" => ["float", "int"]
  | "complex" => ["complex", "int", "float"]
  | name => [name]

namespace Store

/-- By its name, the objects of the class are taken for those of a class of the library. -/
def Passes (s : Store) (name : String) (d : DataId) : Prop := s.className d ∈ takenFor name

def IsLibraryClass (s : Store) (d : DataId) : Prop :=
  ∃ c, s.class? d = some c ∧ c.origin = .library

end Store

/-- A linearisation has the class, its bases and their linearisations. -/
theorem mem_linearize {α : Type} [BEq α] [LawfulBEq α] {cls x : α} {bases mro : List α}
    {linearizations : List (List α)} (h : linearize cls bases linearizations = some mro) :
    x ∈ mro ↔ x = cls ∨ x ∈ bases ∨ ∃ l ∈ linearizations, x ∈ l := by
  obtain ⟨r, hr, rfl⟩ := Option.map_eq_some_iff.mp h
  rw [List.mem_cons, ((Linearization.merges_mergeWithin le_rfl).consistent hr).2 x]
  simp only [List.mem_append, List.mem_singleton, or_and_right, exists_or, exists_eq_left]
  exact or_congr_right or_comm

variable {s : Store} {m : Matcher} {b : BindingId} {d : DataId} {o : Object} {c : ClassValue}
  {p : Param} {σ : Subst} {name : String}

theorem Store.isSubclass_iff (hc : s.class? d = some c) (name : String) :
    s.isSubclass d name = true ↔ ∃ e ∈ c.mro, s.className e = name := by
  unfold isSubclass
  rw [hc]
  simp

theorem Store.fitsClass_object (ho : s.get d = .object o) (hname : name ≠ "object") :
    s.fitsClass d name = (takenFor name).any (s.isSubclass o.cls) := by
  unfold fitsClass takenFor
  rw [ho]
  dsimp only
  rw [beq_false_of_ne hname]
  split
  · simp
  · simp
  · next hfloat hcomplex =>
    rw [beq_false_of_ne hfloat, beq_false_of_ne hcomplex]
    simp

/-- An object is taken for one of a class if a class in the linearisation of its class passes. -/
theorem Store.fitsClass_iff (ho : s.get d = .object o) (hc : s.class? o.cls = some c)
    (hname : name ≠ "object") : s.fitsClass d name = true ↔ ∃ e ∈ c.mro, s.Passes name e := by
  rw [fitsClass_object ho hname, List.any_eq_true]
  constructor
  · rintro ⟨taken, htaken, hsub⟩
    obtain ⟨e, he, rfl⟩ := (isSubclass_iff hc taken).mp hsub
    exact ⟨e, he, htaken⟩
  · rintro ⟨e, he, hpasses⟩
    exact ⟨_, hpasses, (isSubclass_iff hc _).mpr ⟨e, he, rfl⟩⟩

theorem Matcher.isSome_matchArg (ho : m.store.get (m.graph.dataOf b) = .object o)
    (hc : m.store.class? o.cls = some c) (hname : name ≠ "object") (hp : p.type = some (.name name))
    (σ : Subst) : (m.matchArg p b σ).isSome = true ↔ ∃ e ∈ c.mro, m.store.Passes name e := by
  rw [← Store.fitsClass_iff ho hc hname]
  unfold matchArg
  rw [hp, Option.elim_some]
  unfold matchType
  dsimp only
  split
  · next hfits => exact iff_of_true rfl hfits
  · next hfits => exact iff_of_false Bool.false_ne_true hfits

/-- A parameter takes an object if one of the classes in the linearisation of its class passes. It is
just the classes of the library that count if one of them passes, or none at all. A class that has
been linearised passes if its own name does, or that of a base or of a class that a base inherits
from. -/
theorem matchArg_instance (ho : m.store.get (m.graph.dataOf b) = .object o)
    (hc : m.store.class? o.cls = some c) (hname : name ≠ "object") (hp : p.type = some (.name name))
    (σ : Subst) :
    ((m.matchArg p b σ).isSome ↔ ∃ e ∈ c.mro, m.store.Passes name e) ∧
    (((m.matchArg p b σ).isSome ↔
        ∃ e ∈ c.mro, m.store.IsLibraryClass e ∧ m.store.Passes name e) ↔
      (∃ e ∈ c.mro, m.store.IsLibraryClass e ∧ m.store.Passes name e) ∨
        ∀ e ∈ c.mro, ¬ m.store.Passes name e) ∧
    ∀ bases, linearize o.cls bases (bases.map m.store.mro) = some c.mro →
      ((m.matchArg p b σ).isSome ↔ m.store.Passes name o.cls ∨
        ∃ e ∈ bases, m.store.Passes name e ∨ ∃ e' ∈ m.store.mro e, m.store.Passes name e') := by
  have hmatch := Matcher.isSome_matchArg ho hc hname hp σ
  refine ⟨hmatch, ?_, fun bases hmro => ?_⟩
  · rw [hmatch]
    refine ⟨fun h => ?_, fun h => ⟨fun ⟨e, he, hpasses⟩ => ?_, ?_⟩⟩
    · by_cases hany : ∃ e ∈ c.mro, m.store.Passes name e
      · exact .inl (h.mp hany)
      · exact .inr fun e he hpasses => hany ⟨e, he, hpasses⟩
    · exact h.resolve_right fun hnone => hnone e he hpasses
    · rintro ⟨e, he, -, hpasses⟩
      exact ⟨e, he, hpasses⟩
  · rw [hmatch]
    constructor
    · rintro ⟨e, he, hpasses⟩
      rcases (mem_linearize hmro).mp he with rfl | he | ⟨l, hl, he⟩
      · exact .inl hpasses
      · exact .inr ⟨e, he, .inl hpasses⟩
      · obtain ⟨e', he', rfl⟩ := List.mem_map.mp hl
        exact .inr ⟨e', he', .inr ⟨e, he, hpasses⟩⟩
    · rintro (hpasses | ⟨e, he, hpasses | ⟨e', he', hpasses⟩⟩)
      · exact ⟨_, (mem_linearize hmro).mpr (.inl rfl), hpasses⟩
      · exact ⟨e, (mem_linearize hmro).mpr (.inr (.inl he)), hpasses⟩
      · exact ⟨e', (mem_linearize hmro).mpr (.inr (.inr ⟨_, List.mem_map_of_mem he, he'⟩)), hpasses⟩

/-- A machine with a library in which there are whole numbers. -/
def numbers : Machine where
  library :=
    let declared (name : String) (bases : List String) : LibraryClass :=
      { name, bases, template := [], methods := ∅, attributes := ∅ }
    { classes := ((∅ : Std.TreeMap String LibraryClass).insert "object" (declared "object" [])).insert
        "int" (declared "int" ["object"]) }
  graph := (Graph.newNode "start").after {}
  store := { values := #[.unsolvable] }

private theorem numbers_sound : numbers.Sound := by
  apply Machine.Sound.of_values ((Graph.Built.empty none).node "start") ⟨by decide, by decide⟩
    (by decide) rfl
  · simp [Extent.HasValue]
  · simp [Value.members?]

def makeNamesake : Analysis (VarId × DataId × VarId) := do
  let v ← Analysis.makeClass 0 "int" [] ∅
  let d ← Analysis.newObject (.value 2) none
  return (v, d, ← Analysis.variableWith "int" d [] 0)

/-- What is made there: an object of a class that has the name and does not inherit from the whole
numbers. -/
structure MakesNamesake (m : Machine) (c : ClassValue) (o : Object) : Prop where
  run : makeNamesake numbers = .ok (1, .value 3, 2) m
  bound : .value 2 ∈ m.graph.allData 1 ∧ 2 ∈ m.graph.allBindings 2
  object : m.store.get (m.graph.dataOf 2) = .object o ∧ o.cls = .value 2
  class? : m.store.class? (.value 2) = some c
  cls : c.origin = .program ∧ c.mro = [.value 2, .value 1]
  names : m.store.className (.value 2) = "int" ∧ m.store.className (.value 1) = "object"
  declared : (m.library.class? "int").isSome

private theorem exists_makesNamesake : ∃ m c o, MakesNamesake m c o := by
  have hrun : (match makeNamesake numbers with
    | .ok r m => decide (r = (1, .value 3, 2) ∧
      (.value 2 ∈ m.graph.allData 1 ∧ 2 ∈ m.graph.allBindings 2) ∧
      (m.store.object? (m.graph.dataOf 2)).map (·.cls) = some (.value 2) ∧
      (m.store.class? (.value 2)).map (fun c => (c.origin, c.mro)) =
        some (.program, [.value 2, .value 1]) ∧
      (m.store.className (.value 2) = "int" ∧ m.store.className (.value 1) = "object") ∧
      (m.library.class? "int").isSome)
    | .error .. => false) = true := by decide +kernel
  split at hrun
  · next r m h =>
    obtain ⟨rfl, hbound, hobject, hclass, hnames, hdeclared⟩ := of_decide_eq_true hrun
    obtain ⟨o, ho, hcls⟩ := Option.map_eq_some_iff.mp hobject
    obtain ⟨c, hc, hmro⟩ := Option.map_eq_some_iff.mp hclass
    exact ⟨m, c, o, h, hbound, ⟨Store.get_of_object? ho, hcls⟩, hc, Prod.mk.inj hmro, hnames,
      hdeclared⟩
  · cases hrun

private theorem MakesNamesake.passes {m : Machine} (h : MakesNamesake m c o) :
    ∃ e ∈ c.mro, m.store.Passes "int" e := by
  refine ⟨.value 2, ?_, ?_⟩
  · rw [h.cls.2]
    exact List.mem_cons_self
  · rw [Store.Passes, h.names.1]
    exact List.mem_cons_self

/-- An object of the class is taken for a whole number. -/
theorem namesake_taken : ∃ m c o, MakesNamesake m c o ∧
    (Matcher.matchArg { library := m.library, graph := m.graph, store := m.store }
      { name := "x", type := some (.name "int") } 2 ∅).isSome = true := by
  obtain ⟨m, c, o, h⟩ := exists_makesNamesake
  exact ⟨m, c, o, h, (matchArg_instance h.object.1 (h.object.2 ▸ h.class?) (by decide) rfl ∅).1.mpr
    h.passes⟩

/-- So it is not the case that objects of classes that a program makes are taken for those of a
class of the library only if they inherit from it or from one that is promoted. -/
theorem namesake_not_class : ¬ ∀ {m m₁ m₂ m' : Machine} {n : NodeId} {cls name : String}
    {bases : List VarId} {members : Members} {v w : VarId} {K d : DataId} {b : BindingId}
    {p : Param} {σ : Subst}, m.Sound → n < m.graph.nodes.size →
    Analysis.makeClass n cls bases members m = .ok v m₁ →
    Analysis.newObject K none m₁ = .ok d m₂ →
    Analysis.variableWith cls d [] n m₂ = .ok w m' →
    K ∈ m'.graph.allData v → (m'.store.class? K).isSome → b ∈ m'.graph.allBindings w →
    (m'.library.class? name).isSome → name ≠ "object" → p.type = some (.name name) →
    ((Matcher.matchArg { library := m'.library, graph := m'.graph, store := m'.store } p b σ).isSome ↔
      ∃ e ∈ m'.store.mro K, m'.store.IsLibraryClass e ∧ m'.store.Passes name e) := by
  intro h
  obtain ⟨m', c, o, hmade⟩ := exists_makesNamesake
  obtain ⟨v, m₁, hclass, hrun⟩ := bind_ok.mp hmade.run
  obtain ⟨d, m₂, hobject, hrun⟩ := bind_ok.mp hrun
  obtain ⟨w, m₃, hvar, hrun⟩ := bind_ok.mp hrun
  obtain ⟨hresult, rfl⟩ := pure_ok.mp hrun
  cases hresult
  have hc := hmade.object.2 ▸ hmade.class?
  obtain ⟨e, he, ⟨k, hk, hlibrary⟩, hpasses⟩ :=
    (h (p := { name := "x", type := some (.name "int") }) (σ := ∅) numbers_sound (by decide) hclass
      hobject hvar hmade.bound.1 (by rw [hmade.class?]; rfl) hmade.bound.2 hmade.declared (by decide)
      rfl).mp ((Matcher.isSome_matchArg hmade.object.1 hc (by decide) rfl ∅).mpr
        hmade.passes)
  have hmro : m₃.store.mro (.value 2) = [.value 2, .value 1] := by
    unfold Store.mro
    rw [hmade.class?]
    exact hmade.cls.2
  rw [hmro] at he
  rcases List.mem_cons.mp he with rfl | he
  · cases hmade.class?.symm.trans hk
    rw [hmade.cls.1] at hlibrary
    cases hlibrary
  · obtain rfl := List.mem_singleton.mp he
    rw [Store.Passes, hmade.names.2] at hpasses
    exact absurd hpasses (by decide)

end ValueTrace
