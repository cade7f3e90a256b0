import ValueTrace.Proofs.Safety.Readable
import ValueTrace.Value.Basic

/-!
# The layout of a library

What is read of one declaration does not depend on the others. So a library that can be read is laid
out declaration by declaration, and a run need not read those that it never looks up.
-/

namespace ValueTrace.Library

variable {α β ε : Type} {owner : Option String} {text : String} {l l' : Library}

def signatureOf (text : String) : Signature := (Signature.parse text).toOption.getD {}

def typeOf (text : String) : TypeExpr := (signatureOf ("() -> " ++ text)).result

def functionOf (owner : Option String) (d : FunctionDecl) : LibraryFunction where
  name := qualify owner d.name
  signatures := d.signatures.map signatureOf
  mutates := d.mutates

/-- The class of a declaration. -/
def classOf (owner : Option String) (d : ClassDecl) : LibraryClass where
  name := qualify owner d.name
  bases := d.bases
  template := d.template
  methods := d.methods.foldl (fun m f => m.insert f.name
    (functionOf (some (qualify owner d.name)) f)) ∅
  attributes := d.attributes.foldl (fun m a => m.insert a.1 (typeOf a.2)) ∅

def withClass (l : Library) (owner : Option String) (d : ClassDecl) : Library :=
  { l with classes := l.classes.insert (qualify owner d.name) (classOf owner d) }

def withFunction (l : Library) (owner : Option String) (d : FunctionDecl) : Library :=
  { l with functions := l.functions.insert (qualify owner d.name) (functionOf owner d) }

/-- The members of a module. -/
def membersOf (d : ModuleDecl) : Std.TreeMap String LibraryMember :=
  let classes := d.classes.foldl (fun m c => m.insert c.name
    (.ofClass (qualify (some d.name) c.name))) ∅
  let functions := d.functions.foldl (fun m f => m.insert f.name
    (.function (qualify (some d.name) f.name))) classes
  d.attributes.foldl (fun m a => m.insert a.1 (.attribute (typeOf a.2))) functions

def withModule (l : Library) (d : ModuleDecl) : Library :=
  let l := d.classes.foldl (fun l c => l.withClass (some d.name) c) l
  let l := d.functions.foldl (fun l f => l.withFunction (some d.name) f) l
  { l with modules := l.modules.insert d.name { name := d.name, members := membersOf d } }

def layout (d : Declarations) : Library :=
  d.modules.foldl withModule
    (d.functions.foldl (·.withFunction none) (d.classes.foldl (·.withClass none) {}))

private theorem mapM_eq {f : α → Except ε β} {g : α → β} (hf : ∀ a b, f a = .ok b → b = g a)
    {as : List α} {bs : List β} (h : as.mapM f = .ok bs) : bs = as.map g := by
  induction as generalizing bs with
  | nil =>
    cases h
    rfl
  | cons a as ih =>
    rw [List.mapM_cons, Except.bind_eq_ok] at h
    obtain ⟨b, hb, h⟩ := h
    rw [Except.bind_eq_ok] at h
    obtain ⟨bs', hbs, h⟩ := h
    cases h
    rw [hf a b hb, ih hbs, List.map_cons]

private theorem foldlM_eq {f : β → α → Except ε β} {g : β → α → β}
    (hf : ∀ b a b', f b a = .ok b' → b' = g b a) {as : List α} {b b' : β}
    (h : as.foldlM f b = .ok b') : b' = as.foldl g b := by
  induction as generalizing b with
  | nil =>
    cases h
    rfl
  | cons a as ih =>
    rw [List.foldlM_cons, Except.bind_eq_ok] at h
    obtain ⟨c, hc, h⟩ := h
    rw [List.foldl_cons, ← hf b a c hc]
    exact ih h

theorem readSignature_eq {s : Signature} (h : readSignature text = .ok s) :
    s = signatureOf text := by
  unfold readSignature at h
  unfold signatureOf
  cases hp : Signature.parse text with
  | ok t =>
    rw [hp] at h
    cases h
    rfl
  | error e =>
    rw [hp] at h
    cases h

theorem readType_eq {t : TypeExpr} (h : readType text = .ok t) : t = typeOf text := by
  unfold readType at h
  cases hs : readSignature ("() -> " ++ text) with
  | ok s =>
    rw [hs] at h
    cases h
    rw [readSignature_eq hs]
    rfl
  | error e =>
    rw [hs] at h
    cases h

theorem readFunction_eq {d : FunctionDecl} {f : LibraryFunction}
    (h : readFunction owner d = .ok f) : f = functionOf owner d := by
  unfold readFunction at h
  obtain ⟨ss, hs, h⟩ := Except.bind_eq_ok.mp h
  cases h
  rw [mapM_eq (fun _ _ => readSignature_eq) hs]
  rfl

theorem readClass_eq {d : ClassDecl} {c : LibraryClass} (h : readClass owner d = .ok c) :
    c = classOf owner d := by
  unfold readClass at h
  obtain ⟨methods, hm, h⟩ := Except.bind_eq_ok.mp h
  obtain ⟨attributes, ha, h⟩ := Except.bind_eq_ok.mp h
  cases h
  have hmethods := foldlM_eq (g := fun m f => m.insert f.name
    (functionOf (some (qualify owner d.name)) f)) ?_ hm
  have hattributes := foldlM_eq (g := fun m a => m.insert a.1 (typeOf a.2)) ?_ ha
  · rw [hmethods, hattributes]
    rfl
  · rintro m ⟨k, t⟩ m' h
    obtain ⟨t', ht, h⟩ := Except.bind_eq_ok.mp h
    cases h
    rw [readType_eq ht]
  · rintro m f m' h
    obtain ⟨f', hf, h⟩ := Except.bind_eq_ok.mp h
    cases h
    rw [readFunction_eq hf]

theorem addClass_eq {d : ClassDecl} {n : String} (h : l.addClass owner d = .ok (n, l')) :
    n = qualify owner d.name ∧ l' = l.withClass owner d := by
  unfold addClass at h
  obtain ⟨c, hc, h⟩ := Except.bind_eq_ok.mp h
  obtain rfl := readClass_eq hc
  simp only [bind, Except.bind] at h
  split at h
  · cases h
  · cases h
    exact ⟨rfl, rfl⟩

theorem addFunction_eq {d : FunctionDecl} (h : l.addFunction d = .ok l') :
    l' = l.withFunction none d := by
  unfold addFunction at h
  obtain ⟨f, hf, h⟩ := Except.bind_eq_ok.mp h
  obtain rfl := readFunction_eq hf
  simp only [bind, Except.bind] at h
  split at h
  · cases h
  · cases h
    rfl

/-- Folding two things at once folds each of them. -/
private theorem foldlM_pair_eq {γ : Type} {f : β × γ → α → Except ε (β × γ)} {g : β → α → β}
    {k : γ → α → γ} (hf : ∀ s a s', f s a = .ok s' → s' = (g s.1 a, k s.2 a)) {as : List α} {b : β}
    {c : γ} {s : β × γ} (h : as.foldlM f (b, c) = .ok s) :
    s = (as.foldl g b, as.foldl k c) := by
  induction as generalizing b c with
  | nil =>
    cases h
    rfl
  | cons a as ih =>
    rw [List.foldlM_cons, Except.bind_eq_ok] at h
    obtain ⟨s', hs, h⟩ := h
    obtain rfl := hf _ a s' hs
    exact ih h

theorem addModule_eq {d : ModuleDecl} (h : l.addModule d = .ok l') : l' = l.withModule d := by
  unfold addModule at h
  obtain ⟨s₁, hclasses, h⟩ := Except.bind_eq_ok.mp h
  obtain rfl := foldlM_pair_eq (g := fun l c => l.withClass (some d.name) c)
    (k := fun m c => m.insert c.name (.ofClass (qualify (some d.name) c.name)))
    (by
      rintro ⟨l, m⟩ c s h
      obtain ⟨⟨n, l'⟩, hc, h⟩ := Except.bind_eq_ok.mp h
      cases h
      obtain ⟨rfl, rfl⟩ := addClass_eq hc
      rfl) hclasses
  obtain ⟨s₂, hfunctions, h⟩ := Except.bind_eq_ok.mp h
  obtain rfl := foldlM_pair_eq (g := fun l f => l.withFunction (some d.name) f)
    (k := fun m f => m.insert f.name (.function (qualify (some d.name) f.name)))
    (by
      rintro ⟨l, m⟩ f s h
      obtain ⟨f', hf, h⟩ := Except.bind_eq_ok.mp h
      cases h
      obtain rfl := readFunction_eq hf
      rfl) hfunctions
  obtain ⟨m, hattributes, h⟩ := Except.bind_eq_ok.mp h
  obtain rfl := foldlM_eq (g := fun m a => m.insert a.1 (.attribute (typeOf a.2)))
    (by
      rintro m ⟨k, t⟩ m' h
      obtain ⟨t', ht, h⟩ := Except.bind_eq_ok.mp h
      cases h
      rw [readType_eq ht]) hattributes
  simp only [bind, Except.bind] at h
  split at h
  · cases h
  · cases h
    rfl

/-- A library that can be read is the one that its declarations lay out. -/
theorem eq_layout {d : Declarations} (h : ofDeclarations d = .ok l) : l = layout d := by
  unfold ofDeclarations at h
  simp only [Except.bind_eq_ok] at h
  obtain ⟨l₁, h₁, l₂, h₂, l₃, h₃, _, -, h⟩ := h
  cases h
  rw [foldlM_eq (fun _ _ _ => addModule_eq) h₃, foldlM_eq (fun _ _ _ => addFunction_eq) h₂,
    foldlM_eq (g := fun l c => l.withClass none c) ?_ h₁]
  · rfl
  · intro l c l' h
    obtain ⟨⟨n, l''⟩, hc, h⟩ := Except.bind_eq_ok.mp h
    cases h
    exact (addClass_eq hc).2

theorem getElem?_foldl_insert_of_notMem {k : α → String} {g : α → β} {n : String} {as : List α}
    {t : Std.TreeMap String β} (hn : n ∉ as.map k) :
    (as.foldl (fun t a => t.insert (k a) (g a)) t)[n]? = t[n]? := by
  induction as generalizing t with
  | nil => rfl
  | cons a as ih =>
    rw [List.map_cons, List.mem_cons, not_or] at hn
    rw [List.foldl_cons, ih hn.2, Std.TreeMap.getElem?_insert, if_neg]
    simpa [Std.compare_eq_iff_eq] using Ne.symm hn.1

/-- Of several under one name the last one is found. -/
theorem getElem?_foldl_insert_last {k : α → String} {g : α → β} {a : α} {as as' : List α}
    {t : Std.TreeMap String β} (ha : k a ∉ as'.map k) :
    ((as ++ a :: as').foldl (fun t a => t.insert (k a) (g a)) t)[k a]? = some (g a) := by
  rw [List.foldl_append, List.foldl_cons, getElem?_foldl_insert_of_notMem ha,
    Std.TreeMap.getElem?_insert_self]

theorem getElem?_foldl_insert {k : α → String} {g : α → β} {a : α} {as : List α}
    {t : Std.TreeMap String β} (h : (as.map k).Nodup) (ha : a ∈ as) :
    (as.foldl (fun t a => t.insert (k a) (g a)) t)[k a]? = some (g a) := by
  obtain ⟨before, after, rfl⟩ := List.append_of_mem ha
  rw [List.map_append, List.nodup_append] at h
  exact getElem?_foldl_insert_last (List.nodup_cons.mp h.2.1).1

def owned (d : Declarations) : List (Option String × ClassDecl) :=
  d.classes.map (none, ·) ++ d.modules.flatMap fun m => m.classes.map (some m.name, ·)

/-- What no step of a fold changes. -/
theorem foldl_unchanged {γ : Type} {f : β → α → β} (view : β → γ)
    (h : ∀ b a, view (f b a) = view b) (as : List α) (b : β) : view (as.foldl f b) = view b := by
  induction as generalizing b with
  | nil => rfl
  | cons a as ih => exact (ih _).trans (h b a)

theorem classes_foldl_withFunction (owner : Option String) (fs : List FunctionDecl) (l : Library) :
    (fs.foldl (fun l f => l.withFunction owner f) l).classes = l.classes :=
  foldl_unchanged (f := fun l f => l.withFunction owner f) Library.classes (fun _ _ => rfl) fs l

theorem classes_layout (d : Declarations) : (layout d).classes = (owned d).foldl
    (fun t e => t.insert (qualify e.1 e.2.name) (classOf e.1 e.2)) ∅ := by
  have hclasses (owner : Option String) (cs : List ClassDecl) (l : Library) :
      (cs.foldl (fun l c => l.withClass owner c) l).classes = (cs.map (owner, ·)).foldl
        (fun t (e : Option String × ClassDecl) =>
          t.insert (qualify e.1 e.2.name) (classOf e.1 e.2)) l.classes := by
    induction cs generalizing l with
    | nil => rfl
    | cons c cs ih => exact ih _
  have hmodules (ms : List ModuleDecl) (l : Library) :
      (ms.foldl withModule l).classes = (ms.flatMap fun m => m.classes.map (some m.name, ·)).foldl
        (fun t (e : Option String × ClassDecl) =>
          t.insert (qualify e.1 e.2.name) (classOf e.1 e.2)) l.classes := by
    induction ms generalizing l with
    | nil => rfl
    | cons m ms ih =>
      rw [List.foldl_cons, ih, List.flatMap_cons, List.foldl_append]
      unfold withModule
      dsimp only
      rw [classes_foldl_withFunction, hclasses]
  unfold layout owned
  rw [hmodules, classes_foldl_withFunction, hclasses, List.foldl_append]

/-- A class that is declared is found under its name. -/
theorem class?_layout {known : List String} {d : Declarations} {c : ClassDecl}
    (h : Readable known d) (hc : c ∈ d.classes) :
    (layout d).class? c.name = some (classOf none c) := by
  unfold class?
  rw [classes_layout]
  refine getElem?_foldl_insert (k := fun e : Option String × ClassDecl => qualify e.1 e.2.name)
    (g := fun e => classOf e.1 e.2) (a := (none, c)) ?_
    (List.mem_append_left _ (List.mem_map_of_mem hc))
  have hnames := h.classNames
  simp only [owned, List.map_append, List.map_map, List.map_flatMap]
  exact hnames

def declaresMethod (d : Declarations) (cls method : String) (signatures mutates : List String) :
    Bool :=
  d.classes.any fun c => c.name == cls && decide (c.methods.map (·.name)).Nodup &&
    c.methods.any fun f => f.name == method && f.signatures == signatures && f.mutates == mutates

/-- A method that is declared is found under its name. -/
theorem method?_layout {known : List String} {d : Declarations} {cls method : String}
    {signatures mutates : List String} (h : Readable known d)
    (hm : declaresMethod d cls method signatures mutates = true) :
    ∃ c, (layout d).class? cls = some c ∧ c.methods[method]? = some
      { name := qualify (some cls) method, signatures := signatures.map signatureOf, mutates } := by
  obtain ⟨c, hc, hm⟩ := List.any_eq_true.mp hm
  simp only [Bool.and_eq_true, beq_iff_eq, decide_eq_true_eq, List.any_eq_true] at hm
  obtain ⟨⟨rfl, hnodup⟩, f, hf, ⟨rfl, rfl⟩, rfl⟩ := hm
  exact ⟨classOf none c, class?_layout h hc, getElem?_foldl_insert hnodup hf⟩

/-- The signature that these tokens write. -/
theorem signatureOf_eq (ts : List Token) {sig : Signature}
    (hplain : text.toByteArray.data.toList.all (· < 128) = true)
    (hscan : (Token.scan 0 0 (plainChars text)).toOption = some ts)
    (hread : Signature.read ts = .ok (sig, [])) : signatureOf text = sig := by
  unfold signatureOf Signature.parse
  rw [← plainChars_eq hplain]
  cases hs : Token.scan 0 0 (plainChars text) with
  | error offset =>
    rw [hs] at hscan
    cases hscan
  | ok ts' =>
    rw [hs] at hscan
    cases hscan
    dsimp only
    rw [hread]
    rfl

/-- The library that every program can use is the one that its declarations lay out. -/
theorem builtins_eq : builtins = .ok (layout Builtins.declarations) := by
  obtain ⟨l, hl⟩ := builtins_exists
  rw [hl, eq_layout hl]

/-- The function is the method that the builtins declare for a class. -/
def IsBuiltinMethod (cls method : String) (f : NativeValue) : Prop :=
  ∃ c decl, (layout Builtins.declarations).class? cls = some c ∧ c.methods[method]? = some decl ∧
    f = { name := decl.name, signatures := decl.signatures, mutates := decl.mutates }

theorem isBuiltinMethod_iff (cls method : String) (signatures mutates : List String)
    {f : NativeValue}
    (h : declaresMethod Builtins.declarations cls method signatures mutates = true) :
    IsBuiltinMethod cls method f ↔ f = { name := qualify (some cls) method
                                         signatures := signatures.map signatureOf, mutates } := by
  obtain ⟨c, hc, hdecl⟩ := method?_layout builtins_readable h
  constructor
  · rintro ⟨c', decl, hc', hdecl', rfl⟩
    cases hc.symm.trans hc'
    cases hdecl.symm.trans hdecl'
    rfl
  · rintro rfl
    exact ⟨c, _, hc, hdecl, rfl⟩

end ValueTrace.Library
