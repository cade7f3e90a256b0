import Mathlib
import ValueTrace.Library.Builtins
import ValueTrace.Proofs.Success

/-!
# What can be relied on in the library

Every class that a declaration names is there, and a class has at most one base, which is declared
before it. So a class is always found, and so is its linearisation.
-/

namespace ValueTrace

variable {α β ε : Type}

theorem forM_eq_ok {f : α → Except ε Unit} {l : List α} :
    l.forM f = .ok () ↔ ∀ a ∈ l, f a = .ok () := by
  induction l with
  | nil => simp [pure, Except.pure]
  | cons a l ih =>
    rw [show (a :: l).forM f = (f a >>= fun _ => l.forM f) from rfl, Except.bind_eq_ok]
    simp only [ih, List.mem_cons, forall_eq_or_imp]
    constructor
    · rintro ⟨_, ha, hl⟩
      exact ⟨ha, hl⟩
    · rintro ⟨ha, hl⟩
      exact ⟨_, ha, hl⟩

/-- What a fold keeps if each of its steps does. -/
theorem foldlM_keeps {f : β → α → Except ε β} {P : β → Prop} {l : List α}
    (step : ∀ a ∈ l, ∀ b b', P b → f b a = .ok b' → P b') {b b' : β} (hb : P b)
    (h : l.foldlM f b = .ok b') : P b' := by
  induction l generalizing b with
  | nil =>
    cases h
    exact hb
  | cons a l ih =>
    rw [List.foldlM_cons, Except.bind_eq_ok] at h
    obtain ⟨c, hc, h⟩ := h
    exact ih (fun a ha => step a (List.mem_cons_of_mem _ ha))
      (step a List.mem_cons_self b c hb hc) h

theorem mem_values {t : Std.TreeMap String α} {v : α} :
    v ∈ t.values ↔ ∃ k : String, t[k]? = some v := by
  have hvalues : t.values = t.toList.map (·.2) := by
    change t.foldr (fun _ v vs => v :: vs) [] = _
    rw [Std.TreeMap.foldr_eq_foldr_toList]
    exact List.foldr_cons_eq_append.trans (List.append_nil _)
  simp [hvalues, List.mem_map, Std.TreeMap.mem_toList_iff_getElem?_eq_some]

theorem mem_values_of_getElem? {t : Std.TreeMap String α} {k : String} {v : α}
    (h : t[k]? = some v) : v ∈ t.values := mem_values.mpr ⟨k, h⟩

theorem isSome_getElem?_insert {t : Std.TreeMap String α} {k n : String} {a : α} :
    (t.insert k a)[n]?.isSome ↔ n = k ∨ t[n]?.isSome := by
  rw [Std.TreeMap.getElem?_insert]
  simp only [Std.compare_eq_iff_eq]
  split
  · next hn => simp [hn]
  · next hn => simp [Ne.symm hn]

namespace Library

variable {l l' : Library} {n : String}

theorem contains_iff : l.classes.contains n = true ↔ (l.class? n).isSome = true := by
  rw [Std.TreeMap.contains_eq_isSome_getElem?]
  rfl

def Names (l : Library) (t : TypeExpr) : Prop := ∀ n ∈ t.classNames, (l.class? n).isSome

def Returns (l : Library) (signatures : List Signature) : Prop :=
  ∀ s ∈ signatures, l.Names s.result

theorem checkType_ok {context : String} {t : TypeExpr} (h : l.checkType context t = .ok ()) :
    l.Names t := by
  intro n hn
  have hc := forM_eq_ok.mp h n hn
  split at hc
  · next hn => exact contains_iff.mp hn
  · cases hc

theorem checkFunction_ok {f : LibraryFunction} (h : l.checkFunction f = .ok ()) :
    l.Returns f.signatures := by
  intro s hs
  have hc := forM_eq_ok.mp h s hs
  rw [Except.bind_eq_ok] at hc
  obtain ⟨_, -, hc⟩ := hc
  exact checkType_ok hc

/-- All classes that are named in the library are there. -/
structure Checked (l : Library) : Prop where
  method : ∀ {n k : String} {c : LibraryClass} {f : LibraryFunction}, l.class? n = some c →
    c.methods[k]? = some f → l.Returns f.signatures
  slot : ∀ {n k : String} {c : LibraryClass} {t : TypeExpr}, l.class? n = some c →
    c.attributes[k]? = some t → l.Names t
  function : ∀ {n : String} {f : LibraryFunction}, l.function? n = some f → l.Returns f.signatures
  constant : ∀ {n k : String} {m : LibraryModule} {t : TypeExpr}, l.module? n = some m →
    m.members[k]? = some (LibraryMember.attribute t) → l.Names t

theorem checkClass_ok {c : LibraryClass} (h : l.checkClass c = .ok ()) :
    (∀ f ∈ c.methods.values, l.Returns f.signatures) ∧ ∀ t ∈ c.attributes.values, l.Names t := by
  unfold checkClass at h
  rw [Except.bind_eq_ok] at h
  obtain ⟨_, -, h⟩ := h
  rw [Except.bind_eq_ok] at h
  obtain ⟨_, hmethods, hattributes⟩ := h
  exact ⟨fun f hf => checkFunction_ok (forM_eq_ok.mp hmethods f hf),
    fun t ht => checkType_ok (forM_eq_ok.mp hattributes t ht)⟩

theorem check_ok (h : l.check = .ok ()) : l.Checked := by
  unfold check at h
  rw [Except.bind_eq_ok] at h
  obtain ⟨_, hclasses, h⟩ := h
  rw [Except.bind_eq_ok] at h
  obtain ⟨_, hfunctions, hmodules⟩ := h
  have hclass {n c} (hc : l.class? n = some c) :=
    checkClass_ok (forM_eq_ok.mp hclasses c (mem_values_of_getElem? hc))
  refine ⟨fun hc hf => (hclass hc).1 _ (mem_values_of_getElem? hf),
    fun hc ht => (hclass hc).2 _ (mem_values_of_getElem? ht),
    fun hf => checkFunction_ok (forM_eq_ok.mp hfunctions _ (mem_values_of_getElem? hf)), ?_⟩
  intro n k m t hm ht
  have h := forM_eq_ok.mp (forM_eq_ok.mp hmodules m (mem_values_of_getElem? hm)) _
    (mem_values_of_getElem? ht)
  exact checkType_ok h

/-- Each class has at most one base, which is there and comes before it. -/
structure Ranked (l : Library) (rank : String → Nat) : Prop where
  rank_lt : ∀ {n : String} {c : LibraryClass}, l.class? n = some c → rank n < l.classes.size
  base : ∀ {n : String} {c : LibraryClass}, l.class? n = some c → c.bases = [] ∨
    ∃ b, c.bases = [b] ∧ (l.class? b).isSome ∧ rank b < rank n

/-- The class has at most one base, which is among those that are known. -/
def restsOn (known : List String) (d : ClassDecl) : Bool :=
  match d.bases with
  | [] => true
  | [b] => known.contains b
  | _ => false

def inOrder (known : List String) : List ClassDecl → Bool
  | [] => true
  | d :: ds => restsOn known d && inOrder (d.name :: known) ds

theorem addClass_ok {owner : Option String} {d : ClassDecl} (h : l.addClass owner d = .ok (n, l')) :
    n = qualify owner d.name ∧ l.class? n = none ∧ ∃ c : LibraryClass, c.bases = d.bases ∧
      l' = { l with classes := l.classes.insert n c } := by
  unfold addClass at h
  rw [Except.bind_eq_ok] at h
  obtain ⟨c, hc, h⟩ := h
  have hread : c.name = qualify owner d.name ∧ c.bases = d.bases := by
    unfold readClass at hc
    simp only [Except.bind_eq_ok] at hc
    obtain ⟨_, -, _, -, hc⟩ := hc
    cases hc
    exact ⟨rfl, rfl⟩
  simp only [bind, Except.bind] at h
  split at h
  · cases h
  · next hnew =>
    cases h
    refine ⟨hread.1, ?_, c, hread.2, rfl⟩
    rw [contains_iff] at hnew
    simpa using hnew

theorem class?_insert {c : LibraryClass} {k : String} :
    Library.class? { l with classes := l.classes.insert n c } k =
      if n = k then some c else l.class? k := by
  unfold class?
  rw [Std.TreeMap.getElem?_insert]
  simp only [Std.compare_eq_iff_eq]

theorem isSome_class?_addClass {owner : Option String} {d : ClassDecl} {k : String}
    (h : l.addClass owner d = .ok (n, l')) :
    (l'.class? k).isSome ↔ k = n ∨ (l.class? k).isSome := by
  obtain ⟨-, -, c, -, rfl⟩ := addClass_ok h
  exact isSome_getElem?_insert

theorem Ranked.addClass {rank : String → Nat} {known : List String} {owner : Option String}
    {d : ClassDecl} (hr : l.Ranked rank) (hknown : ∀ k ∈ known, (l.class? k).isSome)
    (hd : restsOn known d = true) (h : l.addClass owner d = .ok (n, l')) :
    ∃ rank', l'.Ranked rank' := by
  have hsome {k : String} (hk : (l.class? k).isSome) : (l'.class? k).isSome :=
    (isSome_class?_addClass h).mpr (.inr hk)
  obtain ⟨-, hnew, c, hbases, rfl⟩ := addClass_ok h
  have hne {k : String} (hk : (l.class? k).isSome) : k ≠ n := by
    rintro rfl
    simp [hnew] at hk
  have hsize : (l.classes.insert n c).size = l.classes.size + 1 := by
    rw [Std.TreeMap.size_insert, if_neg]
    rw [contains_iff, hnew]
    simp
  -- The new class comes last.
  refine ⟨fun k => if k = n then l.classes.size else rank k, ?_, ?_⟩
  · intro k c' hc'
    rw [class?_insert] at hc'
    change _ < (l.classes.insert n c).size
    rw [hsize]
    split
    · omega
    · next hk =>
      rw [if_neg (Ne.symm hk)] at hc'
      have hlt := hr.rank_lt hc'
      omega
  · intro k c' hc'
    rw [class?_insert] at hc'
    split at hc'
    · next hk =>
      cases hc'
      subst hk
      rw [hbases]
      unfold restsOn at hd
      split at hd
      · next hb => exact .inl hb
      · next b hb =>
        have hb' := hknown b (by simpa using hd)
        obtain ⟨cb, hcb⟩ := Option.isSome_iff_exists.mp hb'
        refine .inr ⟨b, hb, hsome hb', ?_⟩
        simp only [if_neg (hne hb'), if_true]
        exact hr.rank_lt hcb
      · cases hd
    · next hk =>
      rcases hr.base hc' with hb | ⟨b, hb, hb', hlt⟩
      · exact .inl hb
      · refine .inr ⟨b, hb, hsome hb', ?_⟩
        simpa only [if_neg (hne hb'), if_neg (Ne.symm hk)] using hlt

/-- The known classes are there, with the classes that they and the modules rest on. -/
structure Grounded (l : Library) (known : List String) : Prop where
  ranked : ∃ rank, l.Ranked rank
  known : ∀ k ∈ known, (l.class? k).isSome
  member : ∀ {n k q : String} {m : LibraryModule}, l.module? n = some m →
    m.members[k]? = some (LibraryMember.ofClass q) → (l.class? q).isSome

namespace Grounded

variable {known : List String} {owner : Option String} {d : ClassDecl}

theorem empty : Grounded {} [] := by
  have hnone (n : String) : Library.class? {} n = none := Std.TreeMap.getElem?_emptyc
  have hmodule (n : String) : Library.module? {} n = none := Std.TreeMap.getElem?_emptyc
  refine ⟨⟨fun _ => 0, ?_, ?_⟩, by simp, ?_⟩
  · intro n c hc
    rw [hnone] at hc
    cases hc
  · intro n c hc
    rw [hnone] at hc
    cases hc
  · intro n k q m hm
    rw [hmodule] at hm
    cases hm

theorem addClass (hg : l.Grounded known) (hd : restsOn known d = true)
    (h : l.addClass owner d = .ok (n, l')) : l'.Grounded (n :: known) := by
  obtain ⟨rank, hr⟩ := hg.ranked
  refine ⟨hr.addClass hg.known hd h, ?_, ?_⟩
  · intro k hk
    rw [isSome_class?_addClass h]
    rcases List.mem_cons.mp hk with rfl | hk
    · exact .inl rfl
    · exact .inr (hg.known k hk)
  · intro n k q m hm hk
    rw [isSome_class?_addClass h]
    obtain ⟨-, -, c, -, rfl⟩ := addClass_ok h
    exact .inr (hg.member hm hk)

theorem mono {known' : List String} (hg : l.Grounded known') (h : ∀ k ∈ known, k ∈ known') :
    l.Grounded known := ⟨hg.ranked, fun k hk => hg.known k (h k hk), hg.member⟩

theorem addClasses {ds : List ClassDecl} (hg : l.Grounded known) (hds : inOrder known ds = true)
    (h : ds.foldlM (fun l c => do return (← Library.addClass l none c).2) l = .ok l') :
    l'.Grounded ((ds.map (·.name)).reverse ++ known) := by
  induction ds generalizing l known with
  | nil =>
    cases h
    exact hg
  | cons d ds ih =>
    rw [List.foldlM_cons, Except.bind_eq_ok] at h
    obtain ⟨l₁, hd, h⟩ := h
    rw [Except.bind_eq_ok] at hd
    obtain ⟨⟨n, l₂⟩, hd, hl⟩ := hd
    cases hl
    simp only [inOrder, Bool.and_eq_true] at hds
    have hn : n = d.name := (addClass_ok hd).1
    have hg' := hg.addClass hds.1 hd
    rw [hn] at hg'
    simpa using ih hg' hds.2 h

theorem addFunction {f : FunctionDecl} (hg : l.Grounded known) (h : l.addFunction f = .ok l') :
    l'.Grounded known := by
  unfold Library.addFunction at h
  rw [Except.bind_eq_ok] at h
  obtain ⟨g, -, h⟩ := h
  simp only [bind, Except.bind] at h
  split at h
  · cases h
  · cases h
    obtain ⟨rank, hr⟩ := hg.ranked
    exact ⟨⟨rank, hr.rank_lt, hr.base⟩, hg.known, hg.member⟩

def Linked (known : List String) (s : Library × Std.TreeMap String LibraryMember) : Prop :=
  s.1.Grounded known ∧ ∀ k q : String, s.2[k]? = some (.ofClass q) → (s.1.class? q).isSome

theorem addModule {d : ModuleDecl} (hg : l.Grounded known)
    (hd : ∀ c ∈ d.classes, restsOn known c = true) (h : l.addModule d = .ok l') :
    l'.Grounded known := by
  unfold Library.addModule at h
  rw [Except.bind_eq_ok] at h
  obtain ⟨s₁, hclasses, h⟩ := h
  have h₁ : Linked known s₁ := by
    refine foldlM_keeps ?_ (b := (l, ∅)) ⟨hg, fun k q hk => ?_⟩ hclasses
    · rintro c hc ⟨l, m⟩ s ⟨hg, hm⟩ hs
      dsimp only at hs
      rw [Except.bind_eq_ok] at hs
      obtain ⟨⟨n, l₁⟩, hadd, hs⟩ := hs
      cases hs
      refine ⟨(hg.addClass (hd c hc) hadd).mono fun k hk => List.mem_cons_of_mem _ hk, ?_⟩
      intro k q hk
      rw [isSome_class?_addClass hadd]
      rw [Std.TreeMap.getElem?_insert] at hk
      split at hk
      · cases hk
        exact .inl rfl
      · exact .inr (hm k q hk)
    · simp at hk
  obtain ⟨l₁, m₁⟩ := s₁
  dsimp only at h
  rw [Except.bind_eq_ok] at h
  obtain ⟨s₂, hfunctions, h⟩ := h
  have h₂ : Linked known s₂ := by
    refine foldlM_keeps ?_ h₁ hfunctions
    rintro f - ⟨l, m⟩ s ⟨hg, hm⟩ hs
    dsimp only at hs
    rw [Except.bind_eq_ok] at hs
    obtain ⟨g, -, hs⟩ := hs
    cases hs
    obtain ⟨rank, hr⟩ := hg.ranked
    refine ⟨⟨⟨rank, hr.rank_lt, hr.base⟩, hg.known, hg.member⟩, ?_⟩
    intro k q hk
    rw [Std.TreeMap.getElem?_insert] at hk
    split at hk
    · cases hk
    · exact hm k q hk
  obtain ⟨l₂, m₂⟩ := s₂
  dsimp only at h
  rw [Except.bind_eq_ok] at h
  obtain ⟨m₃, hattributes, h⟩ := h
  have h₃ : ∀ k q : String, m₃[k]? = some (.ofClass q) → (l₂.class? q).isSome := by
    refine foldlM_keeps (P := fun m : Std.TreeMap String LibraryMember =>
      ∀ k q : String, m[k]? = some (.ofClass q) → (l₂.class? q).isSome) ?_ h₂.2 hattributes
    rintro ⟨a, t⟩ - m m' hm hs k q hk
    dsimp only at hs
    rw [Except.bind_eq_ok] at hs
    obtain ⟨g, -, hs⟩ := hs
    cases hs
    rw [Std.TreeMap.getElem?_insert] at hk
    split at hk
    · cases hk
    · exact hm k q hk
  simp only [bind, Except.bind] at h
  split at h
  · cases h
  · cases h
    obtain ⟨rank, hr⟩ := h₂.1.ranked
    refine ⟨⟨rank, hr.rank_lt, hr.base⟩, h₂.1.known, ?_⟩
    intro n k q m hm hk
    unfold module? at hm
    rw [Std.TreeMap.getElem?_insert] at hm
    split at hm
    · cases hm
      exact h₃ k q hk
    · exact h₂.1.member hm hk

end Grounded

/-- The known classes are there when all declarations have been added. -/
theorem grounded_of_added {d : Declarations} {l₁ l₂ l₃ : Library}
    (hclasses : inOrder [] d.classes = true)
    (hmodules : ∀ m ∈ d.modules, ∀ c ∈ m.classes,
      restsOn (d.classes.map (·.name)).reverse c = true)
    (h₁ : d.classes.foldlM (fun l c => do return (← addClass l none c).2) {} = .ok l₁)
    (h₂ : d.functions.foldlM addFunction l₁ = .ok l₂)
    (h₃ : d.modules.foldlM addModule l₂ = .ok l₃) :
    l₃.Grounded (d.classes.map (·.name)).reverse := by
  have hg := Grounded.addClasses .empty hclasses h₁
  rw [List.append_nil] at hg
  have hg₂ : l₂.Grounded (d.classes.map (·.name)).reverse := by
    refine foldlM_keeps (P := fun l => l.Grounded (d.classes.map (·.name)).reverse) ?_ hg h₂
    intro f _ _ _ hg h
    exact hg.addFunction h
  refine foldlM_keeps (P := fun l => l.Grounded (d.classes.map (·.name)).reverse) ?_ hg₂ h₃
  intro m hm _ _ hg h
  exact hg.addModule (hmodules m hm) h

theorem ofDeclarations_ok {d : Declarations} (hclasses : inOrder [] d.classes = true)
    (hmodules : ∀ m ∈ d.modules, ∀ c ∈ m.classes,
      restsOn (d.classes.map (·.name)).reverse c = true)
    (h : ofDeclarations d = .ok l) :
    l.Checked ∧ l.Grounded (d.classes.map (·.name)).reverse := by
  unfold ofDeclarations at h
  simp only [Except.bind_eq_ok] at h
  obtain ⟨l₁, h₁, l₂, h₂, l₃, h₃, _, hcheck, h⟩ := h
  cases h
  exact ⟨check_ok hcheck, grounded_of_added hclasses hmodules h₁ h₂ h₃⟩

def needed : List String := ["object", "type", "NoneType", "int", "bool", "float", "complex", "str",
  "unicode", "bytes", "tuple", "list", "dict", "set", "slice", "generator", "code", "function",
  "module", "UnboundLocalError"]

/-- The library has all classes that anything asks for, and the linearisation of each. -/
structure Complete (l : Library) (rank : String → Nat) : Prop extends l.Checked, l.Ranked rank where
  needed : ∀ n ∈ needed, (l.class? n).isSome
  member : ∀ {n k q : String} {m : LibraryModule}, l.module? n = some m →
    m.members[k]? = some (LibraryMember.ofClass q) → (l.class? q).isSome

theorem builtins_inOrder : inOrder [] Builtins.declarations.classes = true := by decide +kernel

theorem builtins_restOn : ∀ m ∈ Builtins.declarations.modules, ∀ c ∈ m.classes,
    restsOn (Builtins.declarations.classes.map (·.name)).reverse c = true := by
  have h : Builtins.declarations.modules.all (fun m => m.classes.all
      (restsOn (Builtins.declarations.classes.map (·.name)).reverse)) = true := by decide +kernel
  intro m hm
  exact List.all_eq_true.mp (List.all_eq_true.mp h m hm)

theorem builtins_complete (h : builtins = .ok l) : ∃ rank, l.Complete rank := by
  have hneeded :
      needed.all (Builtins.declarations.classes.map (·.name)).reverse.contains = true := by
    decide +kernel
  obtain ⟨hchecked, hg⟩ := ofDeclarations_ok builtins_inOrder builtins_restOn h
  obtain ⟨rank, hr⟩ := hg.ranked
  refine ⟨rank, hchecked, hr, fun n hn => hg.known n ?_, hg.member⟩
  simpa using List.all_eq_true.mp hneeded n hn

end Library

end ValueTrace
