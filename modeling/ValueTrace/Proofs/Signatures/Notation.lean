import ValueTrace.Proofs.Signatures.Spelling
import ValueTrace.Proofs.Success

/-!
# Signature notation

What a text writes can be written again. The types and signatures that are read from some text are
the written ones: their names are names of the notation, unions stand only where they may, and no
two parameters share a name. The notation of a written signature spells its tokens, and reading
these tokens finds nothing but that signature. Parameters with stars may stand anywhere in a text,
but come last in the notation.
-/

namespace ValueTrace

open Token

namespace TypeExpr

mutual

/-- The tokens of a type. -/
def tokens : TypeExpr → List Token
  | .any => [.question]
  | .name s | .var s => [.name s]
  | .generic s params =>
    .name s :: .bracketOpen :: ([.comma].intercalate (allTokens params) ++ [.bracketClose])
  | .union options => [.or].intercalate (allTokens options)

def allTokens : List TypeExpr → List (List Token)
  | [] => []
  | t :: ts => tokens t :: allTokens ts

end

theorem texts_eq_map (ts : List TypeExpr) : texts ts = ts.map text := by
  induction ts with
  | nil => rfl
  | cons t ts ih => rw [texts, ih, List.map_cons]

theorem allTokens_eq_map (ts : List TypeExpr) : allTokens ts = ts.map tokens := by
  induction ts with
  | nil => rfl
  | cons t ts ih => rw [allTokens, ih, List.map_cons]

def IsAtom (t : TypeExpr) : Prop := ∀ options, t ≠ .union options

/-- The types that some text writes. -/
inductive Written : TypeExpr → Prop
  | any : Written .any
  | ofName {s : String} (hs : IsName s) : Written (.ofName s)
  | generic {s : String} {p : TypeExpr} {more : List TypeExpr} (hs : IsName s)
    (h : ∀ t ∈ p :: more, Written t) : Written (.generic s (p :: more))
  | union {t u : TypeExpr} {more : List TypeExpr} (h : ∀ v ∈ t :: u :: more, Written v)
    (hatom : ∀ v ∈ t :: u :: more, IsAtom v) : Written (.union (t :: u :: more))

variable {t : TypeExpr} {s : String}

theorem isName_noneType : IsName "NoneType" :=
  ⟨by decide, 'N', ['o', 'n', 'e', 'T', 'y', 'p', 'e'], rfl, rfl, List.all_eq_true.mp rfl⟩

/-- A name alone is written as a name, which may be another one. -/
theorem exists_ofName_eq (hs : IsName s) : ∃ r, IsName r ∧ (ofName s).text = r ∧
    (ofName s).tokens = [.name r] ∧ ofName r = ofName s := by
  unfold ofName
  by_cases hvar : isVarName s
  · exact ⟨s, hs, by rw [if_pos hvar, text], by rw [if_pos hvar, tokens], rfl⟩
  · rw [if_neg hvar]
    by_cases hnone : s == "None"
    · rw [if_pos hnone]
      exact ⟨"NoneType", isName_noneType, rfl, rfl, rfl⟩
    · rw [if_neg hnone]
      exact ⟨s, hs, by rw [text], by rw [tokens], by rw [if_neg hvar, if_neg hnone]⟩

theorem isAtom_ofName (s : String) : IsAtom (ofName s) := by
  intro options
  unfold ofName
  split
  · nofun
  · split <;> nofun

/-- The text of a type spells its tokens. -/
theorem Written.adds (h : t.Written) : Adds t.text t.tokens := by
  induction h with
  | any => exact Marks.question.adds
  | ofName hs =>
    obtain ⟨r, hr, htext, htokens, -⟩ := exists_ofName_eq hs
    rw [htext, htokens]
    exact .name hr
  | generic hs _ ih =>
    have hparams := (Adds.intercalate .comma rfl rfl ih).append Marks.bracketClose.adds
      (closes_of_head rfl rfl)
    rw [text, tokens, texts_eq_map, allTokens_eq_map, String.append_assoc, String.append_assoc]
    exact (Adds.name hs).append (.mark .bracketOpen hparams) (closes_append rfl rfl _)
  | union _ _ ih =>
    rw [text, tokens, texts_eq_map, allTokens_eq_map]
    exact .intercalate .or rfl rfl ih

end TypeExpr

namespace Signature

open TypeExpr

variable {t u : TypeExpr} {more : List TypeExpr} {ts rest : List Token} {n : Nat} {s : String}

/-- A type that is no union is read from its tokens, with one step for every token but one. -/
def AtomReads (t : TypeExpr) : Prop := ∀ n rest, t.tokens.length ≤ n + 1 →
  rest.head? ≠ some .bracketOpen → readAtom n (t.tokens ++ rest) = .ok (t, rest)

/-- A type is read from its tokens, with a step more than they are. -/
def TypeReads (t : TypeExpr) : Prop := ∀ n rest, t.tokens.length < n →
  rest.head? ≠ some .bracketOpen → rest.head? ≠ some .or →
  readType n (t.tokens ++ rest) = .ok (t, rest)

theorem readOptions_none (h : rest.head? ≠ some .or) : readOptions n rest = .ok ([], rest) := by
  unfold readOptions
  split
  · exact absurd rfl h
  · rfl

/-- Further types of a union are read from their tokens. -/
theorem readOptions_further (h : ∀ u ∈ more, AtomReads u)
    (hn : (further .or tokens more).length ≤ n)
    (hopen : rest.head? ≠ some .bracketOpen) (hor : rest.head? ≠ some .or) :
    readOptions n (further .or tokens more ++ rest) = .ok (more, rest) := by
  induction more generalizing n with
  | nil => exact readOptions_none hor
  | cons u more ih =>
    rw [further_cons, List.length_cons, List.length_append] at hn
    obtain ⟨n, rfl⟩ : ∃ m, n = m + 1 := ⟨n - 1, by omega⟩
    have hatom := h u (List.mem_cons_self ..) n (further .or tokens more ++ rest) (by omega)
      (head?_further_ne nofun hopen)
    have hrest := ih (fun v hv => h v (List.mem_cons_of_mem _ hv)) (n := n) (by omega)
    rw [further_cons, List.cons_append, List.append_assoc, readOptions, hatom]
    change (readOptions n _ >>= _) = _
    rw [hrest]
    rfl

/-- Further parameters of a type and the closing bracket are read from their tokens. -/
theorem readTypeParams_further (h : ∀ u ∈ more, TypeReads u)
    (hn : (further .comma tokens more).length < n) (rest : List Token) :
    readTypeParams n (further .comma tokens more ++ .bracketClose :: rest) = .ok (more, rest) := by
  induction more generalizing n with
  | nil => cases n <;> rfl
  | cons u more ih =>
    rw [further_cons, List.length_cons, List.length_append] at hn
    obtain ⟨n, rfl⟩ : ∃ m, n = m + 1 := ⟨n - 1, by omega⟩
    have htype := h u (List.mem_cons_self ..) n
      (further .comma tokens more ++ .bracketClose :: rest) (by omega)
      (head?_further_ne nofun nofun) (head?_further_ne nofun nofun)
    have hrest := ih (fun v hv => h v (List.mem_cons_of_mem _ hv)) (n := n) (by omega)
    rw [further_cons, List.cons_append, List.append_assoc, readTypeParams, htype]
    change (readTypeParams n _ >>= _) = _
    rw [hrest]
    rfl

/-- What is read as a first type and further ones is read as the type of them all. -/
theorem typeReads_of_atoms (h : AtomReads t) (hmore : ∀ u ∈ more, AtomReads u)
    (htokens : (ofOptions t more).tokens = t.tokens ++ further .or tokens more) :
    TypeReads (ofOptions t more) := by
  intro n rest hn hopen hor
  rw [htokens, List.length_append] at hn
  obtain ⟨n, rfl⟩ : ∃ m, n = m + 1 := ⟨n - 1, by omega⟩
  have hfirst := h n (further .or tokens more ++ rest) (by omega) (head?_further_ne nofun hopen)
  rw [htokens, List.append_assoc, readType, hfirst]
  change (readOptions n _ >>= _) = _
  rw [readOptions_further hmore (by omega) hopen hor]
  rfl

theorem AtomReads.typeReads (h : AtomReads t) : TypeReads t := by
  change TypeReads (ofOptions t [])
  exact typeReads_of_atoms h nofun (List.append_nil _).symm

theorem atomReads_any : AtomReads .any := by
  intro n rest _ _
  cases n <;> rfl

/-- A name that no bracket follows is read as a type. -/
theorem readAtom_name (h : rest.head? ≠ some .bracketOpen) :
    readAtom n (.name s :: rest) = .ok (ofName s, rest) := by
  unfold readAtom
  split
  case h_2 heq =>
    cases heq
    exact absurd rfl h
  case h_3 heq =>
    cases heq
    rfl
  case h_1 heq => cases heq
  case h_4 hname _ => exact (hname _ _ rfl).elim

theorem atomReads_ofName (hs : IsName s) : AtomReads (ofName s) := by
  obtain ⟨r, -, -, htokens, heq⟩ := exists_ofName_eq hs
  intro n rest _ hopen
  rw [htokens, ← heq]
  exact readAtom_name hopen

theorem atomReads_generic (h : TypeReads t) (hmore : ∀ u ∈ more, TypeReads u) :
    AtomReads (.generic s (t :: more)) := by
  intro n rest hn _
  rw [tokens, allTokens_eq_map, intercalate_map_cons, List.append_assoc] at hn ⊢
  simp only [List.length_cons, List.length_append, List.length_nil] at hn
  obtain ⟨n, rfl⟩ : ∃ m, n = m + 1 := ⟨n - 1, by omega⟩
  have hparams := readTypeParams_further hmore (n := n) (by omega) rest
  have htype := h n (further .comma tokens more ++ .bracketClose :: rest) (by omega)
    (head?_further_ne nofun nofun) (head?_further_ne nofun nofun)
  rw [List.cons_append, List.cons_append, List.append_assoc, List.append_assoc, readAtom]
  change (readType n (t.tokens ++ _) >>= _) = _
  rw [List.singleton_append, htype]
  change (readTypeParams n _ >>= _) = _
  rw [hparams]
  rfl

/-- Every written type is read from its tokens. -/
theorem reads_of_written (h : t.Written) : TypeReads t ∧ (t.IsAtom → AtomReads t) := by
  have hatom : ∀ {t}, AtomReads t → TypeReads t ∧ (t.IsAtom → AtomReads t) :=
    fun h => ⟨h.typeReads, fun _ => h⟩
  induction h with
  | any => exact hatom atomReads_any
  | ofName hs => exact hatom (atomReads_ofName hs)
  | @generic s p more _ _ ih =>
    exact hatom (atomReads_generic (ih p (List.mem_cons_self ..)).1 fun u hu =>
      (ih u (List.mem_cons_of_mem _ hu)).1)
  | @union t u more _ hatoms ih =>
    have hreads : ∀ v ∈ t :: u :: more, AtomReads v := fun v hv => (ih v hv).2 (hatoms v hv)
    have htokens : (union (t :: u :: more)).tokens = t.tokens ++ further .or tokens (u :: more) := by
      rw [tokens, allTokens_eq_map, intercalate_map_cons]
    have hmore : ∀ v ∈ u :: more, AtomReads v := fun v hv => hreads v (List.mem_cons_of_mem _ hv)
    exact ⟨typeReads_of_atoms (hreads t (List.mem_cons_self ..)) hmore htokens,
      fun hunion => absurd rfl (hunion _)⟩

/-- What is read has a property, and the names after it are names of the notation. -/
def Yields {α : Type} (P : α → Prop) (reader : List Token → Reading (α × List Token)) : Prop :=
  ∀ ⦃ts a rest⦄, NamesIn ts → reader ts = .ok (a, rest) → P a ∧ NamesIn rest

/-- Within a bound, what is read of types is written. -/
structure YieldsTypes (n : Nat) : Prop where
  type : Yields Written (readType n)
  options : Yields (fun more => ∀ t ∈ more, t.Written ∧ t.IsAtom) (readOptions n)
  atom : Yields (fun t => t.Written ∧ t.IsAtom) (readAtom n)
  params : Yields (fun more => ∀ t ∈ more, t.Written) (readTypeParams n)

theorem written_ofOptions (ht : t.Written ∧ t.IsAtom)
    (hmore : ∀ u ∈ more, u.Written ∧ u.IsAtom) : (ofOptions t more).Written := by
  cases more with
  | nil => exact ht.1
  | cons u more =>
    have hall : ∀ v ∈ t :: u :: more, v.Written ∧ v.IsAtom := List.forall_mem_cons.2 ⟨ht, hmore⟩
    exact .union (fun v hv => (hall v hv).1) fun v hv => (hall v hv).2

theorem yields_readType (h : YieldsTypes n) : Yields Written (readType (n + 1)) := by
  intro ts t rest hts hread
  simp only [readType, Except.bind_eq_ok, Prod.exists] at hread
  obtain ⟨first, ts₁, hfirst, more, ts₂, hmore, heq⟩ := hread
  cases heq
  obtain ⟨hfirst, hts₁⟩ := h.atom hts hfirst
  obtain ⟨hmore, hts₂⟩ := h.options hts₁ hmore
  exact ⟨written_ofOptions hfirst hmore, hts₂⟩

theorem yields_readOptions (h : ∀ m < n, YieldsTypes m) :
    Yields (fun more => ∀ t ∈ more, t.Written ∧ t.IsAtom) (readOptions n) := by
  intro ts more rest hts hread
  unfold readOptions at hread
  split at hread
  case h_2 =>
    cases hread
    exact ⟨nofun, hts⟩
  case h_1 n ts =>
    have h := h n (Nat.lt_succ_self n)
    simp only [Except.bind_eq_ok, Prod.exists] at hread
    obtain ⟨t, ts₁, ht, more, ts₂, hmore, heq⟩ := hread
    cases heq
    obtain ⟨ht, hts₁⟩ := h.atom hts.tail ht
    obtain ⟨hmore, hts₂⟩ := h.options hts₁ hmore
    exact ⟨List.forall_mem_cons.2 ⟨ht, hmore⟩, hts₂⟩

theorem yields_readTypeParams (h : ∀ m < n, YieldsTypes m) :
    Yields (fun more => ∀ t ∈ more, t.Written) (readTypeParams n) := by
  intro ts more rest hts hread
  unfold readTypeParams at hread
  split at hread
  case h_3 => cases hread
  case h_2 =>
    cases hread
    exact ⟨nofun, hts.tail⟩
  case h_1 n ts =>
    have h := h n (Nat.lt_succ_self n)
    simp only [Except.bind_eq_ok, Prod.exists] at hread
    obtain ⟨t, ts₁, ht, more, ts₂, hmore, heq⟩ := hread
    cases heq
    obtain ⟨ht, hts₁⟩ := h.type hts.tail ht
    obtain ⟨hmore, hts₂⟩ := h.params hts₁ hmore
    exact ⟨List.forall_mem_cons.2 ⟨ht, hmore⟩, hts₂⟩

theorem yields_readAtom (h : ∀ m < n, YieldsTypes m) :
    Yields (fun t => t.Written ∧ t.IsAtom) (readAtom n) := by
  intro ts t rest hts hread
  unfold readAtom at hread
  split at hread
  case h_4 => cases hread
  case h_1 =>
    cases hread
    exact ⟨⟨.any, nofun⟩, hts.tail⟩
  case h_3 s ts _ =>
    cases hread
    exact ⟨⟨.ofName (hts s (List.mem_cons_self ..)), isAtom_ofName s⟩, hts.tail⟩
  case h_2 n s ts =>
    have h := h n (Nat.lt_succ_self n)
    simp only [Except.bind_eq_ok, Prod.exists] at hread
    obtain ⟨p, ts₁, hp, more, ts₂, hmore, heq⟩ := hread
    cases heq
    obtain ⟨hp, hts₁⟩ := h.type hts.tail.tail hp
    obtain ⟨hmore, hts₂⟩ := h.params hts₁ hmore
    exact ⟨⟨.generic (hts s (List.mem_cons_self ..)) (List.forall_mem_cons.2 ⟨hp, hmore⟩), nofun⟩,
      hts₂⟩

/-- Whatever is read of types is written. -/
theorem yieldsTypes (n : Nat) : YieldsTypes n := by
  induction n using Nat.strong_induction_on with
  | _ n ih =>
    refine ⟨?_, yields_readOptions ih, yields_readAtom ih, yields_readTypeParams ih⟩
    cases n with
    | zero => exact fun _ _ _ _ hread => nomatch hread
    | succ n => exact yields_readType (ih n (Nat.lt_succ_self n))

end Signature

end ValueTrace
