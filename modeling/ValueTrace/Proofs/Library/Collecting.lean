import ValueTrace.Proofs.Safety.Layout

/-!
# How a library is collected

Declarations are read one by one, and each is entered under its name. Classes, modules and functions
outside of them are entered under new names only. Apart from that only what is no signature is
refused before the library is checked.
-/

namespace ValueTrace

/-- What a module declares to be one of its members. -/
inductive MemberDecl where
  | ofClass (d : ClassDecl)
  | function (d : FunctionDecl)
  | attribute (name type : String)

def MemberDecl.name : MemberDecl → String
  | .ofClass d => d.name
  | .function d => d.name
  | .attribute name _ => name

def ModuleDecl.memberDecls (d : ModuleDecl) : List MemberDecl :=
  d.classes.map .ofClass ++ d.functions.map .function ++ d.attributes.map fun a =>
    .attribute a.1 a.2

namespace Library

variable {α β ε : Type} {d : Declarations} {l l' : Library} {owner : Option String} {n : String}

def readMember (owner : String) : MemberDecl → Except LibraryError LibraryMember
  | .ofClass d => return .ofClass (qualify (some owner) d.name)
  | .function d => return .function (qualify (some owner) d.name)
  | .attribute _ type => return .attribute (← readType type)

def ownedFunctions (d : Declarations) : List (Option String × FunctionDecl) :=
  d.functions.map (none, ·) ++ d.modules.flatMap fun m => m.functions.map (some m.name, ·)

/-- Nothing is declared again that may be declared only once. -/
structure DistinctNames (d : Declarations) : Prop where
  classes : ((owned d).map fun e => qualify e.1 e.2.name).Nodup
  functions : (d.functions.map (·.name)).Nodup
  modules : (d.modules.map (·.name)).Nodup

def collect (d : Declarations) : Except LibraryError Library := do
  let l ← d.classes.foldlM (fun l c => do return (← addClass l none c).2) {}
  let l ← d.functions.foldlM addFunction l
  d.modules.foldlM addModule l

theorem ofDeclarations_eq (d : Declarations) :
    ofDeclarations d = do
      let l ← collect d
      l.check
      return l := by
  unfold ofDeclarations collect
  simp only [bind_assoc]

/-- What a fold has done with each of the things that it has gone through. -/
theorem exists_step {f : β → α → Except ε β} {as : List α} {b b' : β} {a : α}
    (h : as.foldlM f b = .ok b') (ha : a ∈ as) : ∃ c c', f c a = .ok c' := by
  induction as generalizing b with
  | nil => cases ha
  | cons a' as ih =>
    rw [List.foldlM_cons, Except.bind_eq_ok] at h
    obtain ⟨c, hc, h⟩ := h
    rcases List.mem_cons.mp ha with rfl | ha
    · exact ⟨b, c, hc⟩
    · exact ih h ha

def memberOf (owner : String) : MemberDecl → LibraryMember
  | .ofClass d => .ofClass (qualify (some owner) d.name)
  | .function d => .function (qualify (some owner) d.name)
  | .attribute _ type => .attribute (typeOf type)

/-- All that is declared can be read. -/
structure Reads (d : Declarations) : Prop where
  classes : ∀ e ∈ owned d, readClass e.1 e.2 = .ok (classOf e.1 e.2)
  functions : ∀ e ∈ ownedFunctions d, readFunction e.1 e.2 = .ok (functionOf e.1 e.2)
  members : ∀ m ∈ d.modules, ∀ x ∈ m.memberDecls, readMember m.name x = .ok (memberOf m.name x)

theorem readClass_reads {c : ClassDecl} {c' : LibraryClass} (h : readClass owner c = .ok c') :
    (∀ f ∈ c.methods, readFunction (some (qualify owner c.name)) f =
      .ok (functionOf (some (qualify owner c.name)) f)) ∧
    ∀ a ∈ c.attributes, readType a.2 = .ok (typeOf a.2) := by
  unfold readClass at h
  obtain ⟨_, hmethods, h⟩ := Except.bind_eq_ok.mp h
  obtain ⟨_, hattributes, h⟩ := Except.bind_eq_ok.mp h
  constructor
  · intro f hf
    obtain ⟨_, _, hstep⟩ := exists_step hmethods hf
    obtain ⟨g, hg, -⟩ := Except.bind_eq_ok.mp hstep
    rw [hg, readFunction_eq hg]
  · intro a ha
    obtain ⟨_, _, hstep⟩ := exists_step hattributes ha
    obtain ⟨t, ht, -⟩ := Except.bind_eq_ok.mp hstep
    rw [ht, readType_eq ht]

theorem addClass_reads {c : ClassDecl} (h : l.addClass owner c = .ok (n, l')) :
    readClass owner c = .ok (classOf owner c) := by
  unfold addClass at h
  obtain ⟨c', hc, -⟩ := Except.bind_eq_ok.mp h
  rw [hc, readClass_eq hc]

theorem addModule_reads {m : ModuleDecl} (h : l.addModule m = .ok l') :
    (∀ c ∈ m.classes, readClass (some m.name) c = .ok (classOf (some m.name) c)) ∧
    (∀ f ∈ m.functions, readFunction (some m.name) f = .ok (functionOf (some m.name) f)) ∧
    ∀ a ∈ m.attributes, readType a.2 = .ok (typeOf a.2) := by
  unfold addModule at h
  obtain ⟨_, hclasses, h⟩ := Except.bind_eq_ok.mp h
  obtain ⟨_, hfunctions, h⟩ := Except.bind_eq_ok.mp h
  obtain ⟨_, hattributes, -⟩ := Except.bind_eq_ok.mp h
  refine ⟨fun c hc => ?_, fun f hf => ?_, fun a ha => ?_⟩
  · obtain ⟨_, _, hstep⟩ := exists_step hclasses hc
    obtain ⟨_, hadd, -⟩ := Except.bind_eq_ok.mp hstep
    exact addClass_reads hadd
  · obtain ⟨_, _, hstep⟩ := exists_step hfunctions hf
    obtain ⟨g, hg, -⟩ := Except.bind_eq_ok.mp hstep
    rw [hg, readFunction_eq hg]
  · obtain ⟨_, _, hstep⟩ := exists_step hattributes ha
    obtain ⟨t, ht, -⟩ := Except.bind_eq_ok.mp hstep
    rw [ht, readType_eq ht]

theorem collect_reads (h : collect d = .ok l) : Reads d := by
  unfold collect at h
  obtain ⟨_, hclasses, h⟩ := Except.bind_eq_ok.mp h
  obtain ⟨_, hfunctions, hmodules⟩ := Except.bind_eq_ok.mp h
  refine ⟨fun e he => ?_, fun e he => ?_, fun m hm x hx => ?_⟩
  · rcases List.mem_append.mp he with he | he
    · obtain ⟨c, hc, rfl⟩ := List.mem_map.mp he
      obtain ⟨_, _, hstep⟩ := exists_step hclasses hc
      obtain ⟨_, hadd, -⟩ := Except.bind_eq_ok.mp hstep
      exact addClass_reads hadd
    · obtain ⟨m, hm, he⟩ := List.mem_flatMap.mp he
      obtain ⟨c, hc, rfl⟩ := List.mem_map.mp he
      obtain ⟨_, _, hstep⟩ := exists_step hmodules hm
      exact (addModule_reads hstep).1 c hc
  · rcases List.mem_append.mp he with he | he
    · obtain ⟨f, hf, rfl⟩ := List.mem_map.mp he
      obtain ⟨_, _, hstep⟩ := exists_step hfunctions hf
      unfold addFunction at hstep
      obtain ⟨g, hg, -⟩ := Except.bind_eq_ok.mp hstep
      dsimp only
      rw [hg, readFunction_eq hg]
    · obtain ⟨m, hm, he⟩ := List.mem_flatMap.mp he
      obtain ⟨f, hf, rfl⟩ := List.mem_map.mp he
      obtain ⟨_, _, hstep⟩ := exists_step hmodules hm
      exact (addModule_reads hstep).2.1 f hf
  · obtain ⟨_, _, hstep⟩ := exists_step hmodules hm
    unfold ModuleDecl.memberDecls at hx
    simp only [List.mem_append, List.mem_map] at hx
    obtain (⟨c, -, rfl⟩ | ⟨f, -, rfl⟩) | ⟨a, ha, rfl⟩ := hx
    · rfl
    · rfl
    · exact Except.bind_eq_ok.mpr ⟨_, (addModule_reads hstep).2.2 a ha, rfl⟩

/-- The names differ and are new, and they are there afterwards. -/
structure Enters (has : β → String → Prop) (b : β) (ns : List String) (b' : β) : Prop where
  nodup : ns.Nodup
  new : ∀ n ∈ ns, ¬ has b n
  entered : ∀ n ∈ ns, has b' n
  kept : ∀ n, has b n → has b' n

namespace Enters

variable {has : β → String → Prop} {b b' c : β} {ns ms : List String}

theorem refl (b : β) : Enters has b [] b :=
  ⟨.nil, List.forall_mem_nil _, List.forall_mem_nil _, fun _ h => h⟩

/-- A single name that is new is entered. -/
theorem of_has_iff (hnew : ¬ has b n) (hiff : ∀ k, has b' k ↔ k = n ∨ has b k) :
    Enters has b [n] b' := by
  refine ⟨List.nodup_singleton n, ?_, ?_, fun k hk => (hiff k).mpr (.inr hk)⟩
  · intro k hk
    rwa [List.mem_singleton.mp hk]
  · intro k hk
    exact (hiff k).mpr (.inl (List.mem_singleton.mp hk))

theorem trans (h : Enters has b ns c) (h' : Enters has c ms b') : Enters has b (ns ++ ms) b' := by
  refine ⟨List.nodup_append.mpr ⟨h.nodup, h'.nodup, ?_⟩, ?_, ?_,
    fun n hn => h'.kept n (h.kept n hn)⟩
  · rintro n hn m hm rfl
    exact h'.new n hm (h.entered n hn)
  · intro n hn
    rcases List.mem_append.mp hn with hn | hn
    · exact h.new n hn
    · exact fun hb => h'.new n hn (h.kept n hb)
  · intro n hn
    rcases List.mem_append.mp hn with hn | hn
    · exact h'.kept n (h.entered n hn)
    · exact h'.entered n hn

/-- What is entered one by one is entered. -/
theorem foldlM {f : β → α → Except ε β} {ks : α → List String} {as : List α}
    (step : ∀ a ∈ as, ∀ b b', f b a = .ok b' → Enters has b (ks a) b') {b b' : β}
    (h : as.foldlM f b = .ok b') : Enters has b (as.flatMap ks) b' := by
  induction as generalizing b with
  | nil =>
    cases h
    exact refl _
  | cons a as ih =>
    rw [List.foldlM_cons, Except.bind_eq_ok] at h
    obtain ⟨c, hc, h⟩ := h
    exact (step a List.mem_cons_self b c hc).trans
      (ih (fun a ha => step a (List.mem_cons_of_mem _ ha)) h)

end Enters

theorem addClass_enters {c : ClassDecl} (h : l.addClass owner c = .ok (n, l')) :
    Enters (fun l n => (l.class? n).isSome) l [qualify owner c.name] l' := by
  obtain ⟨rfl, hnew, -⟩ := addClass_ok h
  exact .of_has_iff (by simp [hnew]) fun _ => isSome_class?_addClass h

/-- Of the library a module adds classes one by one, and then itself if it is new. -/
theorem addModule_steps {m : ModuleDecl} (h : l.addModule m = .ok l') :
    (∃ s, m.classes.foldlM (fun (l, ms) c => do
        let (name, l) ← l.addClass (some m.name) c
        return (l, ms.insert c.name (.ofClass name))) (l, (∅ : Std.TreeMap String LibraryMember)) =
          .ok s ∧ l'.classes = s.1.classes) ∧
      (l.module? m.name).isSome = false ∧ ∃ m', l'.modules = l.modules.insert m.name m' := by
  unfold addModule at h
  obtain ⟨s, hclasses, h⟩ := Except.bind_eq_ok.mp h
  obtain ⟨s', hfunctions, h⟩ := Except.bind_eq_ok.mp h
  obtain ⟨ms, -, h⟩ := Except.bind_eq_ok.mp h
  have hs : s.1.modules = l.modules := by
    refine foldlM_keeps (P := fun s => s.1.modules = l.modules) ?_ rfl hclasses
    rintro c - ⟨l₁, ms⟩ s hl hstep
    obtain ⟨⟨n, l₂⟩, hadd, hstep⟩ := Except.bind_eq_ok.mp hstep
    cases hstep
    obtain ⟨-, -, c', -, rfl⟩ := addClass_ok hadd
    exact hl
  have hs' : s'.1.modules = s.1.modules ∧ s'.1.classes = s.1.classes := by
    refine foldlM_keeps (P := fun s' => s'.1.modules = s.1.modules ∧ s'.1.classes = s.1.classes)
      ?_ ⟨rfl, rfl⟩ hfunctions
    rintro f - ⟨l₁, ms⟩ s hl hstep
    obtain ⟨g, -, hstep⟩ := Except.bind_eq_ok.mp hstep
    cases hstep
    exact hl
  simp only [bind, Except.bind] at h
  split at h
  · cases h
  · next hnew =>
    cases h
    rw [hs'.1, hs, Bool.not_eq_true, Std.TreeMap.contains_eq_isSome_getElem?] at hnew
    exact ⟨⟨s, hclasses, hs'.2⟩, hnew, _, by rw [hs'.1, hs]⟩

theorem addModule_enters {m : ModuleDecl} (h : l.addModule m = .ok l') :
    Enters (fun l n => (l.class? n).isSome) l (ownClassNames m) l' ∧
      Enters (fun l n => (l.module? n).isSome) l [m.name] l' := by
  obtain ⟨⟨s, hclasses, hs⟩, hnew, m', hm'⟩ := addModule_steps h
  constructor
  · have henters : Enters (fun s n => (Library.class? s.1 n).isSome)
        (l, (∅ : Std.TreeMap String LibraryMember))
        (m.classes.flatMap fun c => [qualify (some m.name) c.name]) s := by
      refine .foldlM ?_ hclasses
      rintro c - ⟨l, ms⟩ s hstep
      obtain ⟨⟨n, l₁⟩, hadd, hstep⟩ := Except.bind_eq_ok.mp hstep
      cases hstep
      obtain ⟨hnodup, hnew, hentered, hkept⟩ := addClass_enters hadd
      exact ⟨hnodup, hnew, hentered, hkept⟩
    rw [← List.map_eq_flatMap] at henters
    obtain ⟨hnodup, hnew, hentered, hkept⟩ := henters
    have hclass (n : String) : l'.class? n = s.1.class? n := by
      unfold class?
      rw [hs]
    exact ⟨hnodup, hnew, fun n hn => hclass n ▸ hentered n hn, fun n hn => hclass n ▸ hkept n hn⟩
  · refine .of_has_iff (by simp [hnew]) fun n => ?_
    unfold module?
    rw [hm']
    exact isSome_getElem?_insert

theorem addFunction_enters {f : FunctionDecl} (h : l.addFunction f = .ok l') :
    Enters (fun l n => (l.function? n).isSome) l [f.name] l' ∧ l'.classes = l.classes := by
  unfold addFunction at h
  obtain ⟨g, hg, h⟩ := Except.bind_eq_ok.mp h
  obtain rfl := readFunction_eq hg
  simp only [bind, Except.bind] at h
  split at h
  · cases h
  · next hnew =>
    cases h
    rw [Std.TreeMap.contains_eq_isSome_getElem?] at hnew
    exact ⟨.of_has_iff hnew fun _ => isSome_getElem?_insert, rfl⟩

theorem collect_distinct (h : collect d = .ok l) : DistinctNames d := by
  unfold collect at h
  obtain ⟨l₁, hclasses, h⟩ := Except.bind_eq_ok.mp h
  obtain ⟨l₂, hfunctions, hmodules⟩ := Except.bind_eq_ok.mp h
  refine ⟨?_, ?_, ?_⟩
  · have h₁ : Enters (fun l n => (Library.class? l n).isSome) {}
        (d.classes.flatMap fun c => [c.name]) l₁ := by
      refine .foldlM ?_ hclasses
      intro c _ l l' hstep
      obtain ⟨⟨n, l₁⟩, hadd, hstep⟩ := Except.bind_eq_ok.mp hstep
      cases hstep
      exact addClass_enters hadd
    have hkept : l₂.classes = l₁.classes :=
      foldlM_keeps (P := fun l => l.classes = l₁.classes)
        (fun _ _ _ _ hl hstep => (addFunction_enters hstep).2.trans hl) rfl hfunctions
    have h₃ : Enters (fun l n => (Library.class? l n).isSome) l₂
        (d.modules.flatMap ownClassNames) l := by
      refine .foldlM ?_ hmodules
      exact fun m _ l l' hstep => (addModule_enters hstep).1
    have h₂ : Enters (fun l n => (Library.class? l n).isSome) l₁
        (d.modules.flatMap ownClassNames) l := by
      have hclass (n : String) : l₁.class? n = l₂.class? n := by
        unfold class?
        rw [hkept]
      exact ⟨h₃.nodup, fun n => hclass n ▸ h₃.new n, h₃.entered, fun n => hclass n ▸ h₃.kept n⟩
    have hnodup := (h₁.trans h₂).nodup
    rw [← List.map_eq_flatMap] at hnodup
    simp only [owned, List.map_append, List.map_map, List.map_flatMap]
    exact hnodup
  · have h₂ : Enters (fun l n => (Library.function? l n).isSome) l₁
        (d.functions.flatMap fun f => [f.name]) l₂ := by
      refine .foldlM ?_ hfunctions
      exact fun f _ l l' hstep => (addFunction_enters hstep).1
    exact List.map_eq_flatMap ▸ h₂.nodup
  · have h₃ : Enters (fun l n => (Library.module? l n).isSome) l₂
        (d.modules.flatMap fun m => [m.name]) l := by
      refine .foldlM ?_ hmodules
      exact fun m _ l l' hstep => (addModule_enters hstep).2
    exact List.map_eq_flatMap ▸ h₃.nodup

theorem functions_foldl_withClass (owner : Option String) (cs : List ClassDecl) (l : Library) :
    (cs.foldl (fun l c => l.withClass owner c) l).functions = l.functions :=
  foldl_unchanged (f := fun l c => l.withClass owner c) Library.functions (fun _ _ => rfl) cs l

theorem modules_foldl_withClass (owner : Option String) (cs : List ClassDecl) (l : Library) :
    (cs.foldl (fun l c => l.withClass owner c) l).modules = l.modules :=
  foldl_unchanged (f := fun l c => l.withClass owner c) Library.modules (fun _ _ => rfl) cs l

theorem modules_foldl_withFunction (owner : Option String) (fs : List FunctionDecl) (l : Library) :
    (fs.foldl (fun l f => l.withFunction owner f) l).modules = l.modules :=
  foldl_unchanged (f := fun l f => l.withFunction owner f) Library.modules (fun _ _ => rfl) fs l

theorem functions_layout (d : Declarations) : (layout d).functions = (ownedFunctions d).foldl
    (fun t e => t.insert (qualify e.1 e.2.name) (functionOf e.1 e.2)) ∅ := by
  have hfunctions (owner : Option String) (fs : List FunctionDecl) (l : Library) :
      (fs.foldl (fun l f => l.withFunction owner f) l).functions = (fs.map (owner, ·)).foldl
        (fun t (e : Option String × FunctionDecl) =>
          t.insert (qualify e.1 e.2.name) (functionOf e.1 e.2)) l.functions := by
    induction fs generalizing l with
    | nil => rfl
    | cons f fs ih => exact ih _
  have hmodules (ms : List ModuleDecl) (l : Library) :
      (ms.foldl withModule l).functions =
        (ms.flatMap fun m => m.functions.map (some m.name, ·)).foldl
          (fun t (e : Option String × FunctionDecl) =>
            t.insert (qualify e.1 e.2.name) (functionOf e.1 e.2)) l.functions := by
    induction ms generalizing l with
    | nil => rfl
    | cons m ms ih =>
      rw [List.foldl_cons, ih, List.flatMap_cons, List.foldl_append]
      unfold withModule
      dsimp only
      rw [hfunctions, functions_foldl_withClass]
  unfold layout ownedFunctions
  rw [hmodules, hfunctions, functions_foldl_withClass, List.foldl_append]

theorem modules_layout (d : Declarations) : (layout d).modules = d.modules.foldl
    (fun t m => t.insert m.name { name := m.name, members := membersOf m }) ∅ := by
  have hmodules (ms : List ModuleDecl) (l : Library) :
      (ms.foldl withModule l).modules = ms.foldl
        (fun t m => t.insert m.name { name := m.name, members := membersOf m }) l.modules := by
    induction ms generalizing l with
    | nil => rfl
    | cons m ms ih =>
      rw [List.foldl_cons, ih, List.foldl_cons]
      unfold withModule
      dsimp only
      rw [modules_foldl_withFunction, modules_foldl_withClass]
  unfold layout
  rw [hmodules, modules_foldl_withFunction, modules_foldl_withClass]

theorem membersOf_eq (m : ModuleDecl) : membersOf m = m.memberDecls.foldl
    (fun t x => t.insert x.name (memberOf m.name x)) ∅ := by
  unfold membersOf ModuleDecl.memberDecls
  rw [List.foldl_append, List.foldl_append, List.foldl_map, List.foldl_map, List.foldl_map]
  rfl

/-- The reading fails for these reasons only. -/
structure FailsBy (P : ε → Prop) (x : Except ε α) : Prop where
  error : ∀ e, x = .error e → P e

def OneTooMany (e : LibraryError) : Prop :=
  (∃ n, e = .duplicate n) ∨ ∃ text cause, e = .signature text cause

namespace FailsBy

variable {P : ε → Prop} {x : Except ε α} {as : List α}

theorem pure (a : α) : FailsBy P (pure a) := ⟨nofun⟩

theorem throw {e : ε} (h : P e) : FailsBy P (throw e : Except ε α) := by
  refine ⟨?_⟩
  rintro _ ⟨⟩
  exact h

theorem bind {f : α → Except ε β} (hx : FailsBy P x) (hf : ∀ a, FailsBy P (f a)) :
    FailsBy P (x >>= f) := by
  cases x with
  | ok a => exact hf a
  | error e => exact throw (hx.error e rfl)

theorem mapM {f : α → Except ε β} (hf : ∀ a, FailsBy P (f a)) : FailsBy P (as.mapM f) := by
  induction as with
  | nil => exact pure []
  | cons a as ih =>
    rw [List.mapM_cons]
    exact bind (hf a) fun _ => bind ih fun _ => pure _

theorem foldlM {f : β → α → Except ε β} (hf : ∀ b a, FailsBy P (f b a)) (b : β) :
    FailsBy P (as.foldlM f b) := by
  induction as generalizing b with
  | nil => exact pure b
  | cons a as ih =>
    rw [List.foldlM_cons]
    exact bind (hf b a) ih

theorem readSignature (text : String) : FailsBy OneTooMany (readSignature text) := by
  unfold Library.readSignature
  cases Signature.parse text with
  | ok sig => exact pure sig
  | error cause => exact throw (.inr ⟨text, cause, rfl⟩)

theorem readType (text : String) : FailsBy OneTooMany (readType text) :=
  bind (readSignature _) fun _ => pure _

theorem readFunction (owner : Option String) (f : FunctionDecl) :
    FailsBy OneTooMany (readFunction owner f) := by
  unfold Library.readFunction
  exact bind (mapM readSignature) fun _ => pure _

theorem readClass (owner : Option String) (c : ClassDecl) :
    FailsBy OneTooMany (readClass owner c) := by
  unfold Library.readClass
  refine bind (foldlM ?_ _) fun _ => bind (foldlM ?_ _) fun _ => pure _
  · exact fun _ f => bind (readFunction _ f) fun _ => pure _
  · exact fun _ a => bind (readType a.2) fun _ => pure _

theorem addClass (l : Library) (owner : Option String) (c : ClassDecl) :
    FailsBy OneTooMany (l.addClass owner c) := by
  unfold Library.addClass
  refine bind (readClass owner c) fun c => ?_
  split
  · exact bind (throw (.inl ⟨_, rfl⟩)) fun _ => pure _
  · exact pure _

theorem addFunction (l : Library) (f : FunctionDecl) : FailsBy OneTooMany (l.addFunction f) := by
  unfold Library.addFunction
  refine bind (readFunction none f) fun f => ?_
  split
  · exact bind (throw (.inl ⟨_, rfl⟩)) fun _ => pure _
  · exact pure _

theorem addModule (l : Library) (m : ModuleDecl) : FailsBy OneTooMany (l.addModule m) := by
  unfold Library.addModule
  refine bind (foldlM ?_ _) fun _ => bind (foldlM ?_ _) fun _ => bind (foldlM ?_ _) fun _ => ?_
  · exact fun _ c => bind (addClass _ _ c) fun _ => pure _
  · exact fun _ f => bind (readFunction _ f) fun _ => pure _
  · exact fun _ a => bind (readType a.2) fun _ => pure _
  · split
    · exact bind (throw (.inl ⟨_, rfl⟩)) fun _ => pure _
    · exact pure _

theorem collect (d : Declarations) : FailsBy OneTooMany (collect d) := by
  unfold Library.collect
  refine bind (foldlM ?_ _) fun _ => bind (foldlM addFunction _) fun _ => foldlM addModule _
  exact fun _ c => bind (addClass _ none c) fun _ => pure _

end FailsBy

end Library

end ValueTrace
