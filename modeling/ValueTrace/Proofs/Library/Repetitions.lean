import ValueTrace.Proofs.Library.Collecting

/-!
# What is declared more than once

Classes, modules and functions outside of them may be declared only once. Of methods, of functions
in modules and of members of modules the last one of a name stays, and the others are lost in
silence. So what is declared is kept just if declarations of one name say the same.
-/

namespace ValueTrace.Library

variable {α β : Type} {d : Declarations} {l : Library} {owner : Option String}

/-- Each of the declarations is found under its name, as it is read. -/
def Holds (find : String → Option β) (name : α → String) (read : α → Except LibraryError β)
    (as : List α) : Prop :=
  ∀ a ∈ as, ∃ b, read a = .ok b ∧ find (name a) = some b

def Unanimous (name : α → String) (read : α → Except LibraryError β) (as : List α) : Prop :=
  ∀ a ∈ as, ∀ a' ∈ as, name a = name a' → read a = read a'

/-- The class has all that is declared of it. -/
structure KeepsClass (owner : Option String) (d : ClassDecl) (c : LibraryClass) : Prop where
  name : c.name = qualify owner d.name
  bases : c.bases = d.bases
  template : c.template = d.template
  methods : Holds (c.methods[·]?) FunctionDecl.name
    (readFunction (some (qualify owner d.name))) d.methods
  attributes : Holds (c.attributes[·]?) Prod.fst (fun a => readType a.2) d.attributes

/-- The module has all that is declared of it. -/
structure KeepsModule (d : ModuleDecl) (m : LibraryModule) : Prop where
  name : m.name = d.name
  members : Holds (m.members[·]?) MemberDecl.name (readMember d.name) d.memberDecls

/-- All that is declared is found in the library, under its qualified name or, in a class or module,
its short one. -/
structure Keeps (l : Library) (d : Declarations) : Prop where
  classes : ∀ e ∈ owned d, ∃ c, l.class? (qualify e.1 e.2.name) = some c ∧ KeepsClass e.1 e.2 c
  functions : Holds l.function? (fun e => qualify e.1 e.2.name) (fun e => readFunction e.1 e.2)
    (ownedFunctions d)
  modules : ∀ m ∈ d.modules, ∃ m', l.module? m.name = some m' ∧ KeepsModule m m'

/-- What is declared again is the same again. -/
structure Consistent (d : Declarations) : Prop where
  methods : ∀ e ∈ owned d, Unanimous FunctionDecl.name
    (readFunction (some (qualify e.1 e.2.name))) e.2.methods
  attributes : ∀ e ∈ owned d, Unanimous Prod.fst (fun a => readType a.2) e.2.attributes
  functions : Unanimous (fun e => qualify e.1 e.2.name) (fun e => readFunction e.1 e.2)
    (ownedFunctions d)
  members : ∀ m ∈ d.modules, Unanimous MemberDecl.name (readMember m.name) m.memberDecls

theorem exists_last (name : α → String) {a : α} {as : List α} (ha : a ∈ as) :
    ∃ before a' after, as = before ++ a' :: after ∧ name a' = name a ∧
      name a' ∉ after.map name := by
  induction as generalizing a with
  | nil => cases ha
  | cons c as ih =>
    by_cases hlater : name a ∈ as.map name
    · obtain ⟨c', hc', hname⟩ := List.mem_map.mp hlater
      obtain ⟨before, a', after, rfl, ha', hlast⟩ := ih hc'
      exact ⟨c :: before, a', after, rfl, ha'.trans hname, hlast⟩
    · rcases List.mem_cons.mp ha with rfl | ha
      · exact ⟨[], a, as, rfl, rfl, hlater⟩
      · exact absurd (List.mem_map_of_mem ha) hlater

/-- If declarations are entered one by one, the last one of a name is found. So all of them are
found as they are read just if they are unanimous. -/
theorem holds_foldl_insert_iff {name : α → String} {read : α → Except LibraryError β} {g : α → β}
    {as : List α} (hread : ∀ a ∈ as, read a = .ok (g a)) :
    Holds ((as.foldl (fun t a => t.insert (name a) (g a)) (∅ : Std.TreeMap String β))[·]?) name
      read as ↔ Unanimous name read as := by
  constructor
  · intro h a ha a' ha' hname
    obtain ⟨b, hb, hfind⟩ := h a ha
    obtain ⟨b', hb', hfind'⟩ := h a' ha'
    rw [hname, hfind'] at hfind
    cases hfind
    rw [hb, hb']
  · intro h a ha
    obtain ⟨before, a', after, rfl, hname, hlast⟩ := exists_last name ha
    have ha' : a' ∈ before ++ a' :: after := List.mem_append_right _ List.mem_cons_self
    refine ⟨g a', ?_, ?_⟩
    · rw [h a ha a' ha' hname.symm, hread a' ha']
    · rw [← hname]
      exact getElem?_foldl_insert_last hlast

theorem Unanimous.of_nodup {name : α → String} {read : α → Except LibraryError β} {as : List α}
    (h : (as.map name).Nodup) : Unanimous name read as := by
  intro a ha a' ha' hname
  rw [List.inj_on_of_nodup_map h ha ha' hname]

/-- Nothing is declared again. -/
def DeclaredOnce (d : Declarations) : Prop :=
  (∀ e ∈ owned d, (e.2.methods.map FunctionDecl.name).Nodup ∧
    (e.2.attributes.map Prod.fst).Nodup) ∧
  ((ownedFunctions d).map fun e => qualify e.1 e.2.name).Nodup ∧
  ∀ m ∈ d.modules, (m.memberDecls.map MemberDecl.name).Nodup

instance (d : Declarations) : Decidable (DeclaredOnce d) := by
  unfold DeclaredOnce
  infer_instance

/-- What is declared once does not contradict itself. -/
theorem DeclaredOnce.consistent (h : DeclaredOnce d) : Consistent d :=
  ⟨fun e he => .of_nodup (h.1 e he).1, fun e he => .of_nodup (h.1 e he).2, .of_nodup h.2.1,
    fun m hm => .of_nodup (h.2.2 m hm)⟩

theorem keepsClass_classOf_iff {c : ClassDecl} (h : readClass owner c = .ok (classOf owner c)) :
    KeepsClass owner c (classOf owner c) ↔
      Unanimous FunctionDecl.name (readFunction (some (qualify owner c.name))) c.methods ∧
        Unanimous Prod.fst (fun a => readType a.2) c.attributes := by
  obtain ⟨hmethods, hattributes⟩ := readClass_reads h
  rw [← holds_foldl_insert_iff hmethods, ← holds_foldl_insert_iff hattributes]
  exact ⟨fun hc => ⟨hc.methods, hc.attributes⟩, fun hc => ⟨rfl, rfl, rfl, hc.1, hc.2⟩⟩

theorem keepsModule_iff {m : ModuleDecl}
    (h : ∀ x ∈ m.memberDecls, readMember m.name x = .ok (memberOf m.name x)) :
    KeepsModule m { name := m.name, members := membersOf m } ↔
      Unanimous MemberDecl.name (readMember m.name) m.memberDecls := by
  rw [← holds_foldl_insert_iff h, membersOf_eq]
  exact ⟨fun hm => hm.members, fun hm => ⟨rfl, hm⟩⟩

theorem holds_functions_iff (h : Reads d) :
    Holds (layout d).function? (fun e => qualify e.1 e.2.name) (fun e => readFunction e.1 e.2)
        (ownedFunctions d) ↔
      Unanimous (fun e => qualify e.1 e.2.name) (fun e => readFunction e.1 e.2)
        (ownedFunctions d) := by
  unfold function?
  rw [functions_layout]
  exact holds_foldl_insert_iff h.functions

theorem keeps_layout_iff (h : Reads d) (hd : DistinctNames d) :
    (layout d).Keeps d ↔ Consistent d := by
  have hclass : ∀ e ∈ owned d, (layout d).class? (qualify e.1 e.2.name) =
      some (classOf e.1 e.2) := by
    intro e he
    unfold class?
    rw [classes_layout]
    exact getElem?_foldl_insert (k := fun e : Option String × ClassDecl => qualify e.1 e.2.name)
      hd.classes he
  have hmodule : ∀ m ∈ d.modules, (layout d).module? m.name =
      some { name := m.name, members := membersOf m } := by
    intro m hm
    unfold module?
    rw [modules_layout]
    exact getElem?_foldl_insert hd.modules hm
  constructor
  · intro hk
    have hkept : ∀ e ∈ owned d, KeepsClass e.1 e.2 (classOf e.1 e.2) := by
      intro e he
      obtain ⟨c, hc, hkeeps⟩ := hk.classes e he
      cases (hclass e he).symm.trans hc
      exact hkeeps
    refine ⟨fun e he => ?_, fun e he => ?_, (holds_functions_iff h).mp hk.functions,
      fun m hm => ?_⟩
    · exact ((keepsClass_classOf_iff (h.classes e he)).mp (hkept e he)).1
    · exact ((keepsClass_classOf_iff (h.classes e he)).mp (hkept e he)).2
    · obtain ⟨m', hm', hkeeps⟩ := hk.modules m hm
      cases (hmodule m hm).symm.trans hm'
      exact (keepsModule_iff (h.members m hm)).mp hkeeps
  · intro hc
    refine ⟨fun e he => ?_, (holds_functions_iff h).mpr hc.functions, fun m hm => ?_⟩
    · exact ⟨_, hclass e he, (keepsClass_classOf_iff (h.classes e he)).mpr
        ⟨hc.methods e he, hc.attributes e he⟩⟩
    · exact ⟨_, hmodule m hm, (keepsModule_iff (h.members m hm)).mpr (hc.members m hm)⟩

/-- A library that is accepted keeps what is declared just if what is declared again is the same
again. Classes, modules and functions outside of them are not declared again: this is refused, if
no signature before is. -/
theorem keeps_iff_consistent (d : Declarations) :
    (∀ l, ofDeclarations d = .ok l → DistinctNames d ∧ (l.Keeps d ↔ Consistent d)) ∧
      (¬ DistinctNames d → (∃ n, ofDeclarations d = .error (.duplicate n)) ∨
        ∃ text cause, ofDeclarations d = .error (.signature text cause)) := by
  constructor
  · intro l h
    have hlayout := eq_layout h
    rw [ofDeclarations_eq] at h
    obtain ⟨_, hcollect, -⟩ := Except.bind_eq_ok.mp h
    have hdistinct := collect_distinct hcollect
    exact ⟨hdistinct, hlayout ▸ keeps_layout_iff (collect_reads hcollect) hdistinct⟩
  · intro hd
    rw [ofDeclarations_eq]
    cases hc : collect d with
    | ok l => exact absurd (collect_distinct hc) hd
    | error e =>
      rcases (FailsBy.collect d).error e hc with ⟨n, rfl⟩ | ⟨text, cause, rfl⟩
      · exact .inl ⟨n, rfl⟩
      · exact .inr ⟨text, cause, rfl⟩

def moduleFunction (name signature : String) : FunctionDecl := { name, signatures := [signature] }

def withModuleFunctions (functions : List FunctionDecl) : Declarations where
  classes := [{ name := "int" }, { name := "str" }]
  modules := [{ name := "m", functions }]

def twoFunctions : Declarations :=
  withModuleFunctions [moduleFunction "f" "() -> int", moduleFunction "g" "() -> str"]

def sameFunction : Declarations where
  functions := [moduleFunction "f" "() -> nothing", moduleFunction "f" "() -> nothing"]

theorem twoFunctions_kept : (∃ l, ofDeclarations twoFunctions = .ok l ∧ l.Keeps twoFunctions) ∧
    ¬ DistinctNames sameFunction ∧
      ((∃ n, ofDeclarations sameFunction = .error (.duplicate n)) ∨
        ∃ text cause, ofDeclarations sameFunction = .error (.signature text cause)) := by
  have hsame : ¬ DistinctNames sameFunction := fun h => absurd h.functions (by decide)
  refine ⟨?_, hsame, (keeps_iff_consistent sameFunction).2 hsame⟩
  have haccepted : (ofDeclarations twoFunctions).toOption.isSome = true := by decide +kernel
  cases hl : ofDeclarations twoFunctions with
  | error e =>
    rw [hl] at haccepted
    cases haccepted
  | ok l =>
    have honce : DeclaredOnce twoFunctions := by decide
    exact ⟨l, rfl, ((keeps_iff_consistent twoFunctions).1 l hl).2.mpr honce.consistent⟩

def twiceInModule : Declarations :=
  withModuleFunctions [moduleFunction "f" "() -> int", moduleFunction "f" "() -> str"]

/-- The first of the declarations is lost, and nothing is refused. -/
theorem twiceInModule_lost : ∃ l, ofDeclarations twiceInModule = .ok l ∧
    ¬ l.Keeps twiceInModule := by
  have haccepted : (ofDeclarations twiceInModule).toOption.isSome = true := by decide +kernel
  cases hl : ofDeclarations twiceInModule with
  | error e =>
    rw [hl] at haccepted
    cases haccepted
  | ok l =>
    refine ⟨l, rfl, fun hkeeps => ?_⟩
    obtain ⟨f, hf, hfind⟩ := hkeeps.functions (some "m", moduleFunction "f" "() -> int")
      (by simp [ownedFunctions, twiceInModule, withModuleFunctions])
    obtain ⟨g, hg, hfind'⟩ := hkeeps.functions (some "m", moduleFunction "f" "() -> str")
      (by simp [ownedFunctions, twiceInModule, withModuleFunctions])
    cases hfind.symm.trans hfind'
    have hsame := congrArg (fun r => r.toOption.map (·.signatures.map Signature.text))
      (hf.trans hg.symm)
    exact absurd hsame (by decide +kernel)

end ValueTrace.Library
