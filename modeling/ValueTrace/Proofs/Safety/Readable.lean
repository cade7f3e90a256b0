import ValueTrace.Proofs.Safety.Library

/-!
# Declarations that can be read

Each signature and type of a declaration can be looked at on its own: whether it can be read, and
whether the classes that it names are among those that are known. If this is so everywhere, and no
name is declared twice, the declarations can be read as a library.
-/

namespace ValueTrace

variable {α β ε : Type}

/-- The characters of a text, if each of its bytes is one. The logic computes them faster than those
of any text. -/
def plainChars (s : String) : List Char :=
  s.toByteArray.data.toList.map fun b => Char.ofNat b.toNat

private theorem plain_encoded {c : Char} (h : ∀ b ∈ String.utf8EncodeChar c, b < 128) :
    (String.utf8EncodeChar c).map (fun b => Char.ofNat b.toNat) = [c] := by
  by_cases hc : c.val.toNat ≤ 127
  · have hone : String.utf8EncodeChar c = [UInt8.ofNat c.val.toNat] := if_pos hc
    have hnat : (UInt8.ofNat c.val.toNat).toNat = c.toNat :=
      Nat.mod_eq_of_lt (by change c.val.toNat < 256; omega)
    rw [hone, List.map_singleton, hnat, Char.ofNat_toNat]
  · have hlast : UInt8.ofNat (c.val.toNat % 64 + 128) ∈ String.utf8EncodeChar c := by
      dsimp only [String.utf8EncodeChar]
      rw [if_neg hc]
      split_ifs <;> simp
    have hlt := UInt8.lt_iff_toNat_lt.mp (h _ hlast)
    rw [UInt8.toNat_ofNat'] at hlt
    simp at hlt
    omega

theorem plainChars_eq {s : String} (h : s.toByteArray.data.toList.all (· < 128) = true) :
    plainChars s = s.toList := by
  have hbytes : s.toByteArray.data.toList = s.toList.flatMap String.utf8EncodeChar := by
    conv_lhs => rw [← String.utf8Encode_toList]
    unfold List.utf8Encode
    simp
  unfold plainChars
  rw [hbytes] at h ⊢
  generalize s.toList = cs at h
  induction cs with
  | nil => rfl
  | cons c cs ih =>
    rw [List.flatMap_cons, List.all_append, Bool.and_eq_true] at h
    rw [List.flatMap_cons, List.map_append, ih h.2, plain_encoded (by simpa using h.1)]
    rfl

theorem mapM_exists {f : α → Except ε β} {P : β → Prop} {as : List α}
    (h : ∀ a ∈ as, ∃ b, f a = .ok b ∧ P b) : ∃ bs, as.mapM f = .ok bs ∧ ∀ b ∈ bs, P b := by
  induction as with
  | nil => exact ⟨[], rfl, List.forall_mem_nil _⟩
  | cons a as ih =>
    obtain ⟨⟨b, hb, hpb⟩, has⟩ := List.forall_mem_cons.mp h
    obtain ⟨bs, hbs, hpbs⟩ := ih has
    refine ⟨b :: bs, ?_, List.forall_mem_cons.mpr ⟨hpb, hpbs⟩⟩
    rw [List.mapM_cons, hb, hbs]
    rfl

/-- A fold succeeds if each step does, given what the steps before it have left for the rest of the
list. -/
theorem foldlM_exists {f : β → α → Except ε β} (P : List α → β → Prop)
    (step : ∀ a as b, P (a :: as) b → ∃ b', f b a = .ok b' ∧ P as b') (as : List α) {b : β}
    (h : P as b) : ∃ b', as.foldlM f b = .ok b' ∧ P [] b' := by
  induction as generalizing b with
  | nil => exact ⟨b, rfl, h⟩
  | cons a as ih =>
    obtain ⟨c, hc, hp⟩ := step a as b h
    obtain ⟨b', hb', hdone⟩ := ih hp
    exact ⟨b', by rw [List.foldlM_cons, hc]; exact hb', hdone⟩

theorem forall_values_empty {P : α → Prop} : ∀ v ∈ (∅ : Std.TreeMap String α).values, P v := by
  intro v hv
  obtain ⟨k, hk⟩ := mem_values.mp hv
  simp at hk

theorem forall_values_insert {t : Std.TreeMap String α} {P : α → Prop} {k : String} {a : α}
    (ht : ∀ v ∈ t.values, P v) (ha : P a) : ∀ v ∈ (t.insert k a).values, P v := by
  intro v hv
  obtain ⟨j, hj⟩ := mem_values.mp hv
  rw [Std.TreeMap.getElem?_insert] at hj
  split at hj
  · cases hj
    exact ha
  · exact ht v (mem_values_of_getElem? hj)

/-- What can be read is put into a table. -/
theorem insertAll_exists {γ : Type} {as : List α} {k : α → String} {f : α → Except ε β}
    {g : β → γ} {P : γ → Prop} (h : ∀ a ∈ as, ∃ b, f a = .ok b ∧ P (g b))
    {t : Std.TreeMap String γ} (ht : ∀ v ∈ t.values, P v) :
    ∃ t' : Std.TreeMap String γ,
      as.foldlM (fun (t : Std.TreeMap String γ) a => do return t.insert (k a) (g (← f a))) t =
        .ok t' ∧ ∀ v ∈ t'.values, P v := by
  have hfold := foldlM_exists
    (f := fun (t : Std.TreeMap String γ) a => do return t.insert (k a) (g (← f a)))
    (fun as t => (∀ a ∈ as, ∃ b, f a = .ok b ∧ P (g b)) ∧ ∀ v ∈ t.values, P v) ?_ as ⟨h, ht⟩
  · obtain ⟨t', hadd, -, hknown⟩ := hfold
    exact ⟨t', hadd, hknown⟩
  · rintro a as t ⟨h, ht⟩
    obtain ⟨⟨b, hb, hp⟩, has⟩ := List.forall_mem_cons.mp h
    exact ⟨t.insert (k a) (g b), by rw [hb]; rfl, has, forall_values_insert ht hp⟩

/-- The signature that these characters write. -/
def Signature.parseChars (cs : List Char) : Except SignatureError Signature :=
  match Token.scan 0 0 cs with
  | .error offset => .error (.unexpectedCharacter offset)
  | .ok ts =>
    match read ts with
    | .error (cause, left) => .error (cause (ts.length - left))
    | .ok (sig, []) => .ok sig
    | .ok (_, rest) => .error (.trailing (ts.length - rest.length))

def TypeExpr.namesOnly (known : List String) (t : TypeExpr) : Bool :=
  t.classNames.all known.contains

def Signature.namesOnly (known : List String) (s : Signature) : Bool :=
  s.params.all (fun p => p.type.all (·.namesOnly known)) && s.result.namesOnly known

/-- The text writes a signature that names known classes only. -/
def writesKnown (known : List String) (text : String) : Bool :=
  text.toByteArray.data.toList.all (· < 128) &&
    match Signature.parseChars (plainChars text) with
    | .ok s => s.namesOnly known
    | .error _ => false

def FunctionDecl.readable (known : List String) (d : FunctionDecl) : Bool :=
  d.signatures.all (writesKnown known)

def attributesReadable (known : List String) (as : List (String × String)) : Bool :=
  as.all fun a => writesKnown known ("() -> " ++ a.2)

def ClassDecl.readable (known : List String) (d : ClassDecl) : Bool :=
  d.bases.all known.contains && d.methods.all (·.readable known) &&
    attributesReadable known d.attributes

def ModuleDecl.readable (known : List String) (d : ModuleDecl) : Bool :=
  d.classes.all (·.readable known) && d.functions.all (·.readable known) &&
    attributesReadable known d.attributes

namespace Library

variable {l : Library} {known : List String} {text : String}

def FunctionKnown (known : List String) (f : LibraryFunction) : Prop :=
  ∀ s ∈ f.signatures, s.namesOnly known = true

/-- The class names known classes only. -/
structure ClassKnown (known : List String) (c : LibraryClass) : Prop where
  bases : ∀ b ∈ c.bases, b ∈ known
  methods : ∀ f ∈ c.methods.values, FunctionKnown known f
  attributes : ∀ t ∈ c.attributes.values, t.namesOnly known = true

def MembersKnown (known : List String) (m : LibraryMember) : Prop :=
  ∀ t, m = .attribute t → t.namesOnly known = true

/-- The library names known classes only. -/
structure Within (known : List String) (l : Library) : Prop where
  classes : ∀ c ∈ l.classes.values, ClassKnown known c
  functions : ∀ f ∈ l.functions.values, FunctionKnown known f
  modules : ∀ m ∈ l.modules.values, ∀ v ∈ m.members.values, MembersKnown known v

theorem readSignature_exists (h : writesKnown known text = true) :
    ∃ s, readSignature text = .ok s ∧ s.namesOnly known = true := by
  unfold writesKnown at h
  obtain ⟨hplain, h⟩ := Bool.and_eq_true_iff.mp h
  rw [plainChars_eq hplain] at h
  have hparse : Signature.parse text = Signature.parseChars text.toList := rfl
  unfold readSignature
  rw [hparse]
  cases hs : Signature.parseChars text.toList with
  | ok s =>
    rw [hs] at h
    exact ⟨s, rfl, h⟩
  | error e =>
    rw [hs] at h
    cases h

theorem readType_exists (h : writesKnown known ("() -> " ++ text) = true) :
    ∃ t, readType text = .ok t ∧ t.namesOnly known = true := by
  obtain ⟨s, hs, hknown⟩ := readSignature_exists h
  refine ⟨s.result, ?_, (Bool.and_eq_true_iff.mp hknown).2⟩
  unfold readType
  rw [hs]
  rfl

theorem readFunction_exists (owner : Option String) {d : FunctionDecl}
    (h : d.readable known = true) :
    ∃ f, readFunction owner d = .ok f ∧ f.name = qualify owner d.name ∧ FunctionKnown known f := by
  have hsignatures := List.all_eq_true.mp h
  obtain ⟨signatures, hread, hknown⟩ :=
    mapM_exists fun s hs => readSignature_exists (hsignatures s hs)
  refine ⟨{ name := qualify owner d.name, signatures, mutates := d.mutates }, ?_, rfl, hknown⟩
  unfold readFunction
  rw [hread]
  rfl

theorem readClass_exists (owner : Option String) {d : ClassDecl} (h : d.readable known = true) :
    ∃ c, readClass owner d = .ok c ∧ c.name = qualify owner d.name ∧ ClassKnown known c := by
  obtain ⟨h, hattributes⟩ := Bool.and_eq_true_iff.mp h
  obtain ⟨hbases, hmethods⟩ := Bool.and_eq_true_iff.mp h
  obtain ⟨methods, hm, hmknown⟩ := insertAll_exists (k := FunctionDecl.name) (g := id)
    (P := FunctionKnown known) (fun f hf => (readFunction_exists (some (qualify owner d.name))
      (List.all_eq_true.mp hmethods f hf)).imp fun _ h => ⟨h.1, h.2.2⟩) forall_values_empty
  obtain ⟨attributes, ha, haknown⟩ := insertAll_exists (k := Prod.fst) (g := id)
    (P := fun t : TypeExpr => t.namesOnly known = true)
    (fun a ha => readType_exists (List.all_eq_true.mp hattributes a ha)) forall_values_empty
  refine ⟨⟨qualify owner d.name, d.bases, d.template, methods, attributes⟩, ?_, rfl, ?_, hmknown,
    haknown⟩
  · exact Except.bind_eq_ok.mpr ⟨methods, hm, Except.bind_eq_ok.mpr ⟨attributes, ha, rfl⟩⟩
  · simpa using hbases

theorem checkType_of_namesOnly {context : String} {t : TypeExpr} (ht : t.namesOnly known = true)
    (hk : ∀ n ∈ known, (l.class? n).isSome) : l.checkType context t = .ok () := by
  refine forM_eq_ok.mpr fun n hn => if_pos (contains_iff.mpr (hk n ?_))
  simpa using List.all_eq_true.mp ht n hn

theorem checkFunction_of_known {f : LibraryFunction} (hf : FunctionKnown known f)
    (hk : ∀ n ∈ known, (l.class? n).isSome) : l.checkFunction f = .ok () := by
  refine forM_eq_ok.mpr fun s hs => ?_
  obtain ⟨hparams, hresult⟩ := Bool.and_eq_true_iff.mp (hf s hs)
  refine Except.bind_eq_ok.mpr ⟨(), forM_eq_ok.mpr fun p hp => ?_,
    checkType_of_namesOnly hresult hk⟩
  have htype := List.all_eq_true.mp hparams p hp
  cases ht : p.type with
  | none => rfl
  | some t =>
    rw [ht] at htype
    exact checkType_of_namesOnly htype hk

/-- A library that names known classes only passes the check, if these are there. -/
theorem check_of_within (h : l.Within known) (hk : ∀ n ∈ known, (l.class? n).isSome) :
    l.check = .ok () := by
  unfold check
  refine Except.bind_eq_ok.mpr ⟨(), forM_eq_ok.mpr fun c hc => ?_,
    Except.bind_eq_ok.mpr ⟨(), forM_eq_ok.mpr fun f hf => ?_, forM_eq_ok.mpr fun m hm => ?_⟩⟩
  · obtain ⟨hbases, hmethods, hattributes⟩ := h.classes c hc
    refine Except.bind_eq_ok.mpr ⟨(), forM_eq_ok.mpr fun b hb => ?_,
      Except.bind_eq_ok.mpr ⟨(), forM_eq_ok.mpr fun f hf => ?_, forM_eq_ok.mpr fun t ht => ?_⟩⟩
    · exact if_pos (contains_iff.mpr (hk b (hbases b hb)))
    · exact checkFunction_of_known (hmethods f hf) hk
    · exact checkType_of_namesOnly (hattributes t ht) hk
  · exact checkFunction_of_known (h.functions f hf) hk
  · refine forM_eq_ok.mpr fun v hv => ?_
    have hknown := h.modules m hm v hv
    match v with
    | .function _ => rfl
    | .ofClass _ => rfl
    | .attribute t => exact checkType_of_namesOnly (hknown t rfl) hk

/-- The names are different, and none of them is in the table. -/
structure Fresh (names : List String) (t : Std.TreeMap String α) : Prop where
  nodup : names.Nodup
  free : ∀ n ∈ names, t.contains n = false

theorem Fresh.insert {n : String} {names : List String} {t : Std.TreeMap String α}
    (h : Fresh (n :: names) t) (v : α) : Fresh names (t.insert n v) := by
  obtain ⟨hn, hnodup⟩ := List.nodup_cons.mp h.nodup
  refine ⟨hnodup, fun k hk => ?_⟩
  have hne : n ≠ k := by
    rintro rfl
    exact hn hk
  rw [Std.TreeMap.contains_insert, h.free k (List.mem_cons_of_mem n hk)]
  simpa [Std.compare_eq_iff_eq] using hne

theorem Fresh.nil (t : Std.TreeMap String α) : Fresh [] t := ⟨.nil, List.forall_mem_nil _⟩

/-- The library names known classes only, and nothing in it has one of the names that are still to
be declared. -/
structure Awaits (known classes functions modules : List String) (l : Library) : Prop where
  within : l.Within known
  classes : Fresh classes l.classes
  functions : Fresh functions l.functions
  modules : Fresh modules l.modules

variable {cs fs ms : List String}

theorem addClass_exists (owner : Option String) {d : ClassDecl}
    (h : l.Awaits known (qualify owner d.name :: cs) fs ms) (hd : d.readable known = true) :
    ∃ l', l.addClass owner d = .ok (qualify owner d.name, l') ∧ l'.Awaits known cs fs ms := by
  obtain ⟨c, hread, hname, hknown⟩ := readClass_exists owner hd
  have hnew : l.classes.contains c.name = false := hname ▸ h.classes.free _ List.mem_cons_self
  refine ⟨{ l with classes := l.classes.insert c.name c }, ?_, ?_⟩
  · refine Except.bind_eq_ok.mpr ⟨c, hread, ?_⟩
    rw [hnew, hname]
    rfl
  · have hw := h.within
    refine ⟨⟨forall_values_insert hw.classes hknown, hw.functions, hw.modules⟩, ?_, h.functions,
      h.modules⟩
    rw [hname]
    exact h.classes.insert c

theorem addFunction_exists {d : FunctionDecl} (h : l.Awaits known cs (d.name :: fs) ms)
    (hd : d.readable known = true) :
    ∃ l', l.addFunction d = .ok l' ∧ l'.Awaits known cs fs ms := by
  obtain ⟨f, hread, hname, hknown⟩ := readFunction_exists none hd
  have hnew : l.functions.contains f.name = false :=
    hname ▸ h.functions.free d.name List.mem_cons_self
  refine ⟨{ l with functions := l.functions.insert f.name f }, ?_, ?_⟩
  · refine Except.bind_eq_ok.mpr ⟨f, hread, ?_⟩
    rw [hnew]
    rfl
  · have hw := h.within
    refine ⟨⟨hw.classes, forall_values_insert hw.functions hknown, hw.modules⟩, h.classes, ?_,
      h.modules⟩
    rw [hname]
    exact h.functions.insert f

def ownClassNames (d : ModuleDecl) : List String :=
  d.classes.map fun c => qualify (some d.name) c.name

def AllKnown (known : List String) (m : Std.TreeMap String LibraryMember) : Prop :=
  ∀ v ∈ m.values, MembersKnown known v

theorem addClasses_exists {owner : Option String} {ds : List ClassDecl}
    (h : l.Awaits known ((ds.map fun c => qualify owner c.name) ++ cs) fs ms)
    (hds : ds.all (·.readable known) = true) {m : Std.TreeMap String LibraryMember}
    (hm : AllKnown known m) :
    ∃ s : Library × Std.TreeMap String LibraryMember, ds.foldlM (fun (l, m) c => do
        let (name, l) ← l.addClass owner c
        return (l, m.insert c.name (.ofClass name))) (l, m) = .ok s ∧
      s.1.Awaits known cs fs ms ∧ AllKnown known s.2 := by
  induction ds generalizing l m with
  | nil => exact ⟨(l, m), rfl, h, hm⟩
  | cons c ds ih =>
    obtain ⟨hc, hds⟩ := Bool.and_eq_true_iff.mp hds
    obtain ⟨l', hadd, hl'⟩ := addClass_exists owner h hc
    have hm' : AllKnown known (m.insert c.name (.ofClass (qualify owner c.name))) :=
      forall_values_insert hm fun t ht => by cases ht
    obtain ⟨s, hs, hdone⟩ := ih hl' hds hm'
    refine ⟨s, ?_, hdone⟩
    rw [List.foldlM_cons]
    exact Except.bind_eq_ok.mpr ⟨_, Except.bind_eq_ok.mpr ⟨_, hadd, rfl⟩, hs⟩

theorem addFunctions_exists (owner : Option String) {ds : List FunctionDecl}
    (h : l.Awaits known cs [] ms) (hds : ds.all (·.readable known) = true)
    {m : Std.TreeMap String LibraryMember} (hm : AllKnown known m) :
    ∃ s : Library × Std.TreeMap String LibraryMember, ds.foldlM (fun (l, m) f => do
        let g ← readFunction owner f
        let l := { l with functions := l.functions.insert g.name g }
        return (l, m.insert f.name (.function g.name))) (l, m) = .ok s ∧
      s.1.Awaits known cs [] ms ∧ AllKnown known s.2 := by
  induction ds generalizing l m with
  | nil => exact ⟨(l, m), rfl, h, hm⟩
  | cons f ds ih =>
    obtain ⟨hf, hds⟩ := Bool.and_eq_true_iff.mp hds
    obtain ⟨g, hg, -, hknown⟩ := readFunction_exists owner hf
    have hl' : Awaits known cs [] ms { l with functions := l.functions.insert g.name g } :=
      ⟨⟨h.within.classes, forall_values_insert h.within.functions hknown, h.within.modules⟩,
        h.classes, .nil _, h.modules⟩
    have hm' : AllKnown known (m.insert f.name (.function g.name)) :=
      forall_values_insert hm fun t ht => by cases ht
    obtain ⟨s, hs, hdone⟩ := ih hl' hds hm'
    refine ⟨s, ?_, hdone⟩
    rw [List.foldlM_cons]
    exact Except.bind_eq_ok.mpr ⟨_, Except.bind_eq_ok.mpr ⟨_, hg, rfl⟩, hs⟩

theorem addModule_exists {d : ModuleDecl}
    (h : l.Awaits known (ownClassNames d ++ cs) [] (d.name :: ms)) (hd : d.readable known = true) :
    ∃ l', l.addModule d = .ok l' ∧ l'.Awaits known cs [] ms := by
  obtain ⟨hd, hattributes⟩ := Bool.and_eq_true_iff.mp hd
  obtain ⟨hclasses, hfunctions⟩ := Bool.and_eq_true_iff.mp hd
  obtain ⟨⟨l₁, m₁⟩, hadd₁, h₁, hm₁⟩ := addClasses_exists h hclasses forall_values_empty
  obtain ⟨⟨l₂, m₂⟩, hadd₂, h₂, hm₂⟩ := addFunctions_exists (some d.name) h₁ hfunctions hm₁
  obtain ⟨m₃, hadd₃, hm₃⟩ := insertAll_exists (k := Prod.fst) (g := LibraryMember.attribute)
    (P := MembersKnown known) (fun a ha => (readType_exists
      (List.all_eq_true.mp hattributes a ha)).imp fun t ht => ⟨ht.1, fun t' h => by
        cases h
        exact ht.2⟩) hm₂
  have hnew : l₂.modules.contains d.name = false := h₂.modules.free _ List.mem_cons_self
  refine ⟨{ l₂ with modules := l₂.modules.insert d.name { name := d.name, members := m₃ } }, ?_,
    ⟨⟨h₂.within.classes, h₂.within.functions, forall_values_insert h₂.within.modules hm₃⟩,
      h₂.classes, h₂.functions, h₂.modules.insert _⟩⟩
  refine Except.bind_eq_ok.mpr ⟨(l₁, m₁), hadd₁, Except.bind_eq_ok.mpr ⟨(l₂, m₂), hadd₂,
    Except.bind_eq_ok.mpr ⟨m₃, hadd₃, ?_⟩⟩⟩
  rw [hnew]
  rfl

/-- All declarations can be read, they name known classes only, and they do not declare a name
twice. -/
structure Readable (known : List String) (d : Declarations) : Prop where
  classes : d.classes.all (·.readable known) = true
  functions : d.functions.all (·.readable known) = true
  modules : d.modules.all (·.readable known) = true
  classNames : (d.classes.map (·.name) ++ d.modules.flatMap ownClassNames).Nodup
  functionNames : (d.functions.map (·.name)).Nodup
  moduleNames : (d.modules.map (·.name)).Nodup

theorem ofDeclarations_exists {d : Declarations}
    (h : Readable (d.classes.map (·.name)).reverse d) (hclasses : inOrder [] d.classes = true)
    (hmodules : ∀ m ∈ d.modules, ∀ c ∈ m.classes,
      restsOn (d.classes.map (·.name)).reverse c = true) :
    ∃ l, ofDeclarations d = .ok l := by
  generalize hknown : (d.classes.map (·.name)).reverse = known at h
  have hempty {γ : Type} {names : List String} (hn : names.Nodup) :
      Fresh names (∅ : Std.TreeMap String γ) := ⟨hn, fun n _ => Std.TreeMap.contains_emptyc⟩
  have h₀ : Awaits known (d.classes.map (·.name) ++ d.modules.flatMap ownClassNames)
      (d.functions.map (·.name)) (d.modules.map (·.name)) {} :=
    ⟨⟨forall_values_empty, forall_values_empty, forall_values_empty⟩, hempty h.classNames,
      hempty h.functionNames, hempty h.moduleNames⟩
  obtain ⟨l₁, hadd₁, -, h₁⟩ := foldlM_exists
    (fun (ds : List ClassDecl) (l : Library) => ds.all (·.readable known) = true ∧
      l.Awaits known (ds.map (·.name) ++ d.modules.flatMap ownClassNames)
        (d.functions.map (·.name)) (d.modules.map (·.name)))
    (f := fun l c => do return (← addClass l none c).2)
    (fun c ds l ⟨hread, hl⟩ => by
      obtain ⟨hc, hds⟩ := Bool.and_eq_true_iff.mp hread
      obtain ⟨l', hadd, hl'⟩ := addClass_exists none hl hc
      exact ⟨l', Except.bind_eq_ok.mpr ⟨_, hadd, rfl⟩, hds, hl'⟩)
    d.classes ⟨h.classes, h₀⟩
  obtain ⟨l₂, hadd₂, -, h₂⟩ := foldlM_exists
    (fun (ds : List FunctionDecl) (l : Library) => ds.all (·.readable known) = true ∧
      l.Awaits known (d.modules.flatMap ownClassNames) (ds.map (·.name))
        (d.modules.map (·.name)))
    (f := addFunction)
    (fun f ds l ⟨hread, hl⟩ => by
      obtain ⟨hf, hds⟩ := Bool.and_eq_true_iff.mp hread
      obtain ⟨l', hadd, hl'⟩ := addFunction_exists hl hf
      exact ⟨l', hadd, hds, hl'⟩)
    d.functions (b := l₁) ⟨h.functions, h₁⟩
  obtain ⟨l₃, hadd₃, -, h₃⟩ := foldlM_exists
    (fun (ds : List ModuleDecl) (l : Library) => ds.all (·.readable known) = true ∧
      l.Awaits known (ds.flatMap ownClassNames) [] (ds.map (·.name)))
    (f := addModule)
    (fun m ds l ⟨hread, hl⟩ => by
      obtain ⟨hm, hds⟩ := Bool.and_eq_true_iff.mp hread
      obtain ⟨l', hadd, hl'⟩ := addModule_exists hl hm
      exact ⟨l', hadd, hds, hl'⟩)
    d.modules (b := l₂) ⟨h.modules, h₂⟩
  have hg := grounded_of_added hclasses hmodules hadd₁ hadd₂ hadd₃
  rw [hknown] at hg
  exact ⟨l₃, Except.bind_eq_ok.mpr ⟨l₁, hadd₁, Except.bind_eq_ok.mpr ⟨l₂, hadd₂,
    Except.bind_eq_ok.mpr ⟨l₃, hadd₃,
      Except.bind_eq_ok.mpr ⟨(), check_of_within h₃.within hg.known, rfl⟩⟩⟩⟩⟩

-- All declarations are read here, and nowhere else.
theorem builtins_readable : Readable (Builtins.declarations.classes.map (·.name)).reverse
    Builtins.declarations where
  classes := by decide +kernel
  functions := by decide +kernel
  modules := by decide +kernel
  classNames := by decide +kernel
  functionNames := by decide +kernel
  moduleNames := by decide +kernel

/-- The library that every program can use can be read. -/
theorem builtins_exists : ∃ l, builtins = .ok l :=
  ofDeclarations_exists builtins_readable builtins_inOrder builtins_restOn

end Library

end ValueTrace
