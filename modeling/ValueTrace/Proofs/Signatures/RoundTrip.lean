import ValueTrace.Proofs.Signatures.Notation

/-!
# Signatures read again

A signature is a list of parts in parentheses and a type. The reader adds one part after another to
an empty signature, in whatever order they stand, and the notation lists the parts of what came out.
-/

namespace ValueTrace

open Token

namespace Signature

/-- A part between the parentheses. -/
inductive Part where
  | param (p : Param)
  | varargs (name : String)
  | kwargs (name : String)

namespace Part

def text : Part → String
  | .param p => p.text
  | .varargs s => "*" ++ s
  | .kwargs s => "**" ++ s

def typeTokens (type : Option TypeExpr) : List Token := type.elim [] fun t => .colon :: t.tokens

def defaultTokens (hasDefault : Bool) : List Token :=
  if hasDefault then [.equals, .ellipsis] else []

def tokens : Part → List Token
  | .param p => [.name p.name] ++ typeTokens p.type ++ defaultTokens p.hasDefault
  | .varargs s => [.star, .name s]
  | .kwargs s => [.doubleStar, .name s]

def paramName? : Part → Option String
  | .param p => some p.name
  | .varargs _ | .kwargs _ => none

def addTo (sig : Signature) : Part → Signature
  | .param p => { sig with params := sig.params ++ [p] }
  | .varargs s => { sig with varargs := some s }
  | .kwargs s => { sig with kwargs := some s }

/-- The parts that some text writes. -/
def Written : Part → Prop
  | .param p => IsName p.name ∧ ∀ t ∈ p.type, t.Written
  | .varargs s | .kwargs s => IsName s

/-- The text of a part spells its tokens. -/
theorem Written.adds {part : Part} (h : part.Written) : Adds part.text part.tokens := by
  cases part with
  | varargs s => exact .star h
  | kwargs s => exact .mark .doubleStar (.name h)
  | param p =>
    obtain ⟨name, type, hasDefault⟩ := p
    obtain ⟨hname, htype⟩ := h
    have htail : Adds (if hasDefault then " = ..." else "") (defaultTokens hasDefault) ∧
        Closes (if hasDefault then " = ..." else "") := by
      cases hasDefault
      · exact ⟨.empty, closes_empty⟩
      · exact ⟨Marks.default.adds, closes_of_head rfl rfl⟩
    have hhead : Adds (name ++ type.elim "" fun t => ": " ++ t.text)
        ([.name name] ++ typeTokens type) := by
      cases type with
      | none => exact (Adds.name hname).append .empty closes_empty
      | some t =>
        have htyped := Adds.mark .colon (htype t rfl).adds
        exact (Adds.name hname).append htyped (closes_append rfl rfl _)
    exact hhead.append htail.1 htail.2

end Part

def parts (sig : Signature) : List Part :=
  sig.params.map .param ++ (sig.varargs.map .varargs).toList ++ (sig.kwargs.map .kwargs).toList

def tokens (sig : Signature) : List Token :=
  .parenOpen :: ([.comma].intercalate (sig.parts.map Part.tokens) ++
    .parenClose :: .arrow :: sig.result.tokens)

/-- The parts of the signature are written, and no two parameters share a name. -/
structure PartsWritten (sig : Signature) : Prop where
  parts : ∀ part ∈ sig.parts, part.Written
  distinct : (sig.params.map (·.name)).Nodup

/-- The signatures that some text writes. -/
structure Written (sig : Signature) : Prop extends sig.PartsWritten where
  result : sig.result.Written

variable {sig : Signature} {part : Part} {more : List Part} {ts rest : List Token} {n : Nat}

theorem mem_parts : part ∈ sig.parts ↔ match part with
    | .param p => p ∈ sig.params
    | .varargs s => sig.varargs = some s
    | .kwargs s => sig.kwargs = some s := by
  cases part <;> simp [parts]

theorem paramsText_eq (sig : Signature) :
    sig.paramsText = "(" ++ (", ".intercalate (sig.parts.map Part.text) ++ ")") := by
  have htexts : sig.params.map Param.text ++ (sig.varargs.map ("*" ++ ·)).toList ++
      (sig.kwargs.map ("**" ++ ·)).toList = sig.parts.map Part.text := by
    rw [parts, List.map_append, List.map_append, List.map_map, ← Option.toList_map,
      ← Option.toList_map, Option.map_map, Option.map_map]
    rfl
  rw [paramsText, htexts, String.append_assoc]

/-- The text of a signature spells its tokens. -/
theorem Written.adds (h : sig.Written) : Adds sig.text sig.tokens := by
  have hparts := Adds.intercalate .comma rfl rfl fun part hpart => (h.parts part hpart).adds
  have hresult := Adds.mark .arrow h.result.adds
  have hafter := Adds.mark .parenClose hresult
  rw [text, paramsText_eq, String.append_assoc, String.append_assoc, String.append_assoc]
  exact .mark .parenOpen (hparts.append hafter (closes_append rfl rfl _))

theorem paramNames_addTo (sig : Signature) (part : Part) : (part.addTo sig).params.map (·.name) =
    sig.params.map (·.name) ++ part.paramName?.toList := by
  cases part with
  | param p => exact List.map_append
  | varargs s => exact (List.append_nil _).symm
  | kwargs s => exact (List.append_nil _).symm

theorem filterMap_paramName? (part : Part) (more : List Part) :
    (part :: more).filterMap Part.paramName? =
      part.paramName?.toList ++ more.filterMap Part.paramName? := by
  cases part <;> rfl

def EndsPart (rest : List Token) : Prop :=
  rest.head? = some .comma ∨ rest.head? = some .parenClose

theorem EndsPart.head?_ne {t : Token} (h : EndsPart rest) (hcomma : .comma ≠ t)
    (hclose : .parenClose ≠ t) : rest.head? ≠ some t := by
  rcases h with h | h
  · rw [h]
    exact fun heq => hcomma (Option.some.inj heq)
  · rw [h]
    exact fun heq => hclose (Option.some.inj heq)

theorem readDefault_tokens (hasDefault : Bool) (h : rest.head? ≠ some .equals) :
    readDefault (Part.defaultTokens hasDefault ++ rest) = .ok (hasDefault, rest) := by
  cases hasDefault with
  | true => rfl
  | false =>
    change readDefault rest = _
    unfold readDefault
    split
    case h_1 => exact absurd rfl h
    case h_2 => rfl

theorem readParamType_tokens {type : Option TypeExpr} (htype : ∀ t ∈ type, t.Written)
    (hcolon : rest.head? ≠ some .colon) (hopen : rest.head? ≠ some .bracketOpen)
    (hor : rest.head? ≠ some .or) :
    readParamType (Part.typeTokens type ++ rest) = .ok (type, rest) := by
  cases type with
  | some t =>
    have hread := (reads_of_written (htype t rfl)).1 ((t.tokens ++ rest).length + 2) rest
      (by rw [List.length_append]; omega) hopen hor
    change (readType ((t.tokens ++ rest).length + 2) (t.tokens ++ rest) >>= _) = _
    rw [hread]
    rfl
  | none =>
    change readParamType rest = _
    unfold readParamType
    split
    case h_1 => exact absurd rfl hcolon
    case h_2 => rfl

/-- The default is between the type and what follows the part. -/
theorem head?_defaultTokens_ne {hasDefault : Bool} {t : Token} (hequals : .equals ≠ t)
    (hrest : rest.head? ≠ some t) :
    (Part.defaultTokens hasDefault ++ rest).head? ≠ some t := by
  cases hasDefault with
  | true => exact fun heq => hequals (Option.some.inj heq)
  | false => exact hrest

/-- A written part is read from its tokens, if no parameter of its name is there already. -/
theorem readParam_tokens (h : part.Written)
    (hdistinct : ((part.addTo sig).params.map (·.name)).Nodup) (hrest : EndsPart rest) :
    readParam sig (part.tokens ++ rest) = .ok (part.addTo sig, rest) := by
  cases part with
  | varargs s => rfl
  | kwargs s => rfl
  | param p =>
    have hdefault := readDefault_tokens p.hasDefault (hrest.head?_ne (t := .equals) nofun nofun)
    have htype : readParamType (Part.typeTokens p.type ++ (Part.defaultTokens p.hasDefault ++
        rest)) = .ok (p.type, Part.defaultTokens p.hasDefault ++ rest) :=
      readParamType_tokens h.2 (head?_defaultTokens_ne nofun (hrest.head?_ne nofun nofun))
        (head?_defaultTokens_ne nofun (hrest.head?_ne nofun nofun))
        (head?_defaultTokens_ne nofun (hrest.head?_ne nofun nofun))
    have hname : sig.params.any (·.name == p.name) = false := by
      rw [paramNames_addTo] at hdistinct
      simpa using fun q hq heq => (List.nodup_append.1 hdistinct).2.2 q.name
        (List.mem_map_of_mem hq) p.name (List.mem_singleton_self _) heq
    rw [Part.tokens, List.append_assoc, List.append_assoc]
    change (readParamType (Part.typeTokens p.type ++ (Part.defaultTokens p.hasDefault ++ rest)) >>=
      _) = _
    rw [htype]
    change (readDefault (Part.defaultTokens p.hasDefault ++ rest) >>= _) = _
    rw [hdefault]
    change (if sig.params.any (·.name == p.name) then _ else _) = _
    rw [hname]
    rfl

/-- Written parts are read one after another up to the closing parenthesis. -/
theorem readParams_tokens (h : ∀ p ∈ part :: more, p.Written)
    (hdistinct : (sig.params.map (·.name) ++ (part :: more).filterMap Part.paramName?).Nodup)
    (hn : more.length < n) (rest : List Token) :
    readParams n sig (part.tokens ++ (further .comma Part.tokens more ++ .parenClose :: rest)) =
      .ok ((part :: more).foldl Part.addTo sig, rest) := by
  induction more generalizing sig part n with
  | nil =>
    obtain ⟨n, rfl⟩ : ∃ m, n = m + 1 := ⟨n - 1, by omega⟩
    rw [filterMap_paramName?, ← List.append_assoc, ← paramNames_addTo] at hdistinct
    have hpart : readParam sig (part.tokens ++ .parenClose :: rest) =
        .ok (part.addTo sig, .parenClose :: rest) :=
      readParam_tokens (h part (List.mem_cons_self ..)) (List.nodup_append.1 hdistinct).1 (.inr rfl)
    change readParams (n + 1) sig (part.tokens ++ .parenClose :: rest) = _
    rw [readParams, hpart]
    rfl
  | cons next more ih =>
    obtain ⟨n, rfl⟩ : ∃ m, n = m + 1 := ⟨n - 1, by omega⟩
    rw [filterMap_paramName?, ← List.append_assoc, ← paramNames_addTo] at hdistinct
    have hpart : readParam sig (part.tokens ++
        (further .comma Part.tokens (next :: more) ++ .parenClose :: rest)) =
        .ok (part.addTo sig, further .comma Part.tokens (next :: more) ++ .parenClose :: rest) :=
      readParam_tokens (h part (List.mem_cons_self ..)) (List.nodup_append.1 hdistinct).1 (.inl rfl)
    have hmore := ih (fun p hp => h p (List.mem_cons_of_mem _ hp)) hdistinct
      (Nat.lt_of_succ_lt_succ hn)
    rw [readParams, hpart]
    change readParams n (part.addTo sig) ((next.tokens ++ further .comma Part.tokens more) ++ _) = _
    rw [List.append_assoc, hmore]
    rfl

theorem foldl_params (sig : Signature) (ps : List Param) :
    (ps.map Part.param).foldl Part.addTo sig = { sig with params := sig.params ++ ps } := by
  induction ps generalizing sig with
  | nil => rw [List.append_nil]; rfl
  | cons p ps ih =>
    rw [List.map_cons, List.foldl_cons, ih]
    simp [Part.addTo]

/-- The parts of a signature put together are the signature. -/
theorem foldl_parts (sig : Signature) :
    { sig.parts.foldl Part.addTo {} with result := sig.result } = sig := by
  obtain ⟨params, varargs, kwargs, result⟩ := sig
  rw [parts, List.foldl_append, List.foldl_append, foldl_params]
  cases varargs <;> cases kwargs <;> rfl

theorem filterMap_parts (sig : Signature) :
    sig.parts.filterMap Part.paramName? = sig.params.map (·.name) := by
  obtain ⟨params, varargs, kwargs, result⟩ := sig
  have hparams : (params.map Part.param).filterMap Part.paramName? = params.map (·.name) := by
    rw [List.filterMap_map, ← List.filterMap_eq_map]
    rfl
  rw [parts, List.filterMap_append, List.filterMap_append, hparams]
  cases varargs <;> cases kwargs <;> simp [Part.paramName?]

/-- Every further part has its mark at least. -/
theorem length_le_further (more : List Part) :
    more.length ≤ (further .comma Part.tokens more).length := by
  induction more with
  | nil => exact Nat.le_refl 0
  | cons part more ih =>
    rw [further_cons, List.length_cons, List.length_cons, List.length_append]
    omega

theorem head?_tokens_ne (part : Part) (ts : List Token) :
    (part.tokens ++ ts).head? ≠ some .parenClose := by
  cases part <;> exact nofun

/-- The parts are read where the parenthesis does not close at once, and the type after them. -/
theorem read_of_readParams {result : TypeExpr} {after : List Token}
    (hts : ts.head? ≠ some .parenClose)
    (hparams : readParams (ts.length + 1) {} ts = .ok (sig, .arrow :: after))
    (hresult : readType (after.length + 2) after = .ok (result, rest)) :
    read (.parenOpen :: ts) = .ok ({ sig with result }, rest) := by
  unfold read
  rw [show readToken .parenOpen .parenOpen (.parenOpen :: ts) = .ok ((), ts) from rfl]
  dsimp only [bind, Except.bind]
  split
  case h_1 => exact absurd rfl hts
  case h_2 =>
    rw [hparams]
    change (readType _ after >>= _) = _
    rw [hresult]
    rfl

/-- A written signature is read from its tokens, with nothing left. -/
theorem read_tokens (h : sig.Written) : read sig.tokens = .ok (sig, []) := by
  have hresult := (reads_of_written h.result).1 (sig.result.tokens.length + 2) [] (by omega) nofun
    nofun
  rw [List.append_nil] at hresult
  have hwhole := foldl_parts sig
  rw [tokens]
  cases hparts : sig.parts with
  | nil =>
    rw [hparts] at hwhole
    change (readType _ sig.result.tokens >>= _) = _
    rw [hresult, ← hwhole]
    rfl
  | cons part more =>
    have hwritten := h.parts
    have hdistinct := h.distinct
    rw [← filterMap_parts] at hdistinct
    rw [hparts] at hwhole hwritten hdistinct
    have hlength := length_le_further more
    have hread (n : Nat) (hn : more.length < n) : readParams n {} (part.tokens ++
        (further .comma Part.tokens more ++ .parenClose :: .arrow :: sig.result.tokens)) =
        .ok ((part :: more).foldl Part.addTo {}, .arrow :: sig.result.tokens) := by
      refine readParams_tokens hwritten ?_ hn _
      exact hdistinct
    rw [intercalate_map_cons, List.append_assoc, read_of_readParams (head?_tokens_ne part _)
      (hread _ ?_) hresult]
    · exact congrArg (fun sig => Except.ok (sig, [])) hwhole
    · rw [List.length_append, List.length_append]
      omega

theorem mem_parts_addTo {p : Part} (h : p ∈ (part.addTo sig).parts) : p = part ∨ p ∈ sig.parts := by
  rw [mem_parts] at h ⊢
  cases part with
  | param q =>
    cases p with
    | param p =>
      rcases List.mem_append.1 h with h | h
      · exact .inr h
      · exact .inl (congrArg Part.param (List.mem_singleton.1 h))
    | varargs => exact .inr h
    | kwargs => exact .inr h
  | varargs s =>
    cases p with
    | varargs r => exact .inl (congrArg Part.varargs (Option.some.inj h).symm)
    | param => exact .inr h
    | kwargs => exact .inr h
  | kwargs s =>
    cases p with
    | kwargs r => exact .inl (congrArg Part.kwargs (Option.some.inj h).symm)
    | param => exact .inr h
    | varargs => exact .inr h

theorem partsWritten_empty : PartsWritten {} := ⟨fun _ h => (nomatch h), List.nodup_nil⟩

theorem PartsWritten.addTo (h : sig.PartsWritten) (hpart : part.Written)
    (hdistinct : ((part.addTo sig).params.map (·.name)).Nodup) : (part.addTo sig).PartsWritten := by
  refine ⟨fun p hp => ?_, hdistinct⟩
  rcases mem_parts_addTo hp with rfl | hp
  · exact hpart
  · exact h.parts p hp

theorem yields_readName : Yields IsName readName := by
  intro ts s rest hts hread
  unfold readName at hread
  split at hread
  case h_1 =>
    cases hread
    exact ⟨hts _ (List.mem_cons_self ..), hts.tail⟩
  case h_2 => cases hread

theorem yields_readParamType : Yields (fun type => ∀ t ∈ type, t.Written) readParamType := by
  intro ts type rest hts hread
  unfold readParamType at hread
  split at hread
  case h_1 =>
    simp only [Except.bind_eq_ok, Prod.exists] at hread
    obtain ⟨t, ts₁, ht, heq⟩ := hread
    cases heq
    obtain ⟨ht, hrest⟩ := (yieldsTypes _).type hts.tail ht
    refine ⟨?_, hrest⟩
    rintro _ ⟨⟩
    exact ht
  case h_2 =>
    cases hread
    exact ⟨nofun, hts⟩

theorem yields_readToken (t : Token) (what : Wanted) : Yields (fun _ => True) (readToken t what) := by
  intro ts _ rest hts hread
  unfold readToken at hread
  split at hread
  case h_2 => cases hread
  case h_1 =>
    split at hread
    case isFalse => cases hread
    case isTrue =>
      cases hread
      exact ⟨trivial, hts.tail⟩

theorem yields_readDefault : Yields (fun _ => True) readDefault := by
  intro ts hasDefault rest hts hread
  unfold readDefault at hread
  split at hread
  case h_1 =>
    simp only [Except.bind_eq_ok, Prod.exists] at hread
    obtain ⟨_, ts₁, ht, heq⟩ := hread
    cases heq
    exact yields_readToken _ _ hts.tail ht
  case h_2 =>
    cases hread
    exact ⟨trivial, hts⟩

theorem yields_readParam (h : sig.PartsWritten) : Yields PartsWritten (readParam sig) := by
  intro ts sig' rest hts hread
  unfold readParam at hread
  split at hread
  case h_1 =>
    simp only [Except.bind_eq_ok, Prod.exists] at hread
    obtain ⟨name, ts₁, hname, heq⟩ := hread
    cases heq
    obtain ⟨hname, hrest⟩ := yields_readName hts.tail hname
    exact ⟨h.addTo (show Part.Written (.kwargs name) from hname) h.distinct, hrest⟩
  case h_2 =>
    simp only [Except.bind_eq_ok, Prod.exists] at hread
    obtain ⟨name, ts₁, hname, heq⟩ := hread
    cases heq
    obtain ⟨hname, hrest⟩ := yields_readName hts.tail hname
    exact ⟨h.addTo (show Part.Written (.varargs name) from hname) h.distinct, hrest⟩
  case h_3 =>
    simp only [Except.bind_eq_ok, Prod.exists] at hread
    obtain ⟨name, ts₁, hname, type, ts₂, htype, hasDefault, ts₃, hdefault, hread⟩ := hread
    obtain ⟨hname, hts₁⟩ := yields_readName hts hname
    obtain ⟨htype, hts₂⟩ := yields_readParamType hts₁ htype
    obtain ⟨-, hts₃⟩ := yields_readDefault hts₂ hdefault
    split at hread
    case isTrue => cases hread
    case isFalse hfresh =>
      cases hread
      have hpart : Part.Written (.param ⟨name, type, hasDefault⟩) := ⟨hname, htype⟩
      refine ⟨h.addTo hpart ?_, hts₃⟩
      rw [paramNames_addTo]
      refine List.nodup_append.2 ⟨h.distinct, List.pairwise_singleton _ _, ?_⟩
      intro s hs r hr
      obtain ⟨p, hp, rfl⟩ := List.mem_map.1 hs
      rw [List.mem_singleton.1 hr]
      exact fun heq => hfresh (List.any_eq_true.2 ⟨p, hp, beq_iff_eq.2 heq⟩)

/-- Every part that is read is written, and has another name than those before it. -/
theorem yields_readParams (h : sig.PartsWritten) : Yields PartsWritten (readParams n sig) := by
  induction n generalizing sig with
  | zero => exact fun _ _ _ _ hread => nomatch hread
  | succ n ih =>
    intro ts sig' rest hts hread
    rw [readParams, Except.bind_eq_ok] at hread
    obtain ⟨⟨sig₁, ts₁⟩, hpart, hread⟩ := hread
    obtain ⟨hwritten, hts₁⟩ := yields_readParam h hts hpart
    dsimp only at hread
    split at hread
    case h_1 =>
      cases hread
      exact ⟨hwritten, hts₁.tail⟩
    case h_2 => exact ih hwritten hts₁.tail hread
    case h_3 => cases hread

/-- The type after the parts is written, too. -/
theorem written_of_result {after : List Token} {u : Unit} {result : TypeExpr}
    (h : sig.PartsWritten) (hts : NamesIn ts) (harrow : readToken .arrow .arrow ts = .ok (u, after))
    (hresult : readType n after = .ok (result, rest)) :
    { sig with result }.Written ∧ NamesIn rest := by
  obtain ⟨-, hafter⟩ := yields_readToken _ _ hts harrow
  obtain ⟨hresult, hrest⟩ := (yieldsTypes n).type hafter hresult
  exact ⟨⟨⟨h.parts, h.distinct⟩, hresult⟩, hrest⟩

/-- Whatever is read as a signature is written. -/
theorem yields_read : Yields Written read := by
  intro ts sig rest hts hread
  unfold read at hread
  rw [Except.bind_eq_ok] at hread
  obtain ⟨⟨_, ts₁⟩, hopen, hread⟩ := hread
  obtain ⟨-, hts₁⟩ := yields_readToken _ _ hts hopen
  dsimp only at hread
  split at hread
  all_goals simp only [Except.bind_eq_ok, Prod.exists] at hread
  case h_1 =>
    obtain ⟨sig₁, ts₂, hparts, u, ts₃, harrow, result, ts₄, hresult, heq⟩ := hread
    cases hparts
    cases heq
    exact written_of_result partsWritten_empty hts₁.tail harrow hresult
  case h_2 =>
    obtain ⟨sig₁, ts₂, hparts, u, ts₃, harrow, result, ts₄, hresult, heq⟩ := hread
    cases heq
    obtain ⟨hwritten, hts₂⟩ := yields_readParams partsWritten_empty hts₁ hparts
    exact written_of_result hwritten hts₂ harrow hresult

theorem written_of_parse {s : String} (h : parse s = .ok sig) : sig.Written := by
  unfold parse at h
  split at h
  case h_1 => cases h
  case h_2 hscan =>
    split at h
    case h_1 => cases h
    case h_3 => cases h
    case h_2 hread =>
      cases h
      exact (yields_read (namesIn_of_scan hscan) hread).1

/-- The notation of a written signature is read as that signature. -/
theorem parse_text_of_written (h : sig.Written) : parse sig.text = .ok sig := by
  have hscan := h.adds [] [] endsName_nil .nil 0
  rw [List.append_nil, List.append_nil] at hscan
  rw [parse, hscan]
  dsimp only
  rw [read_tokens h]

/-- A text that is read as a signature may be replaced by the notation of that signature. -/
theorem parse_text_of_parse {s : String} (h : parse s = .ok sig) : parse sig.text = .ok sig :=
  parse_text_of_written (written_of_parse h)

/-- A signature with parameters of both kinds of stars, a union within a type and names that start
with `or` or end in dots. -/
def starsFirst : Signature where
  params := [
    ⟨"or.", some (.generic "dict" [.name "NoneType", .union [.var "K2", .any]]), true⟩,
    ⟨"x", none, false⟩]
  varargs := some "a"
  kwargs := some "k"
  result := .union [.name "NoneType", .generic "t..." [.var "T"]]

/-- The stars stood first, and `None` is not written again. -/
theorem starsFirst_again :
    parse "( **k,*a , or. : dict[None,K2 or ?]=... ,x)->None or t...[T] " = .ok starsFirst ∧
    starsFirst.text =
      "(or.: dict[NoneType, K2 or ?] = ..., x, *a, **k) -> NoneType or t...[T]" ∧
    parse starsFirst.text = .ok starsFirst := by
  have hscan : scan 0 0 "( **k,*a , or. : dict[None,K2 or ?]=... ,x)->None or t...[T] ".toList =
      .ok [.parenOpen, .doubleStar, .name "k", .comma, .star, .name "a", .comma, .name "or.",
        .colon, .name "dict", .bracketOpen, .name "None", .comma, .name "K2", .or, .question,
        .bracketClose, .equals, .ellipsis, .comma, .name "x", .parenClose, .arrow, .name "None",
        .or, .name "t...", .bracketOpen, .name "T", .bracketClose] := rfl
  have hparse : parse "( **k,*a , or. : dict[None,K2 or ?]=... ,x)->None or t...[T] " =
      .ok starsFirst := by
    rw [parse, hscan]
    rfl
  exact ⟨hparse, by decide, parse_text_of_parse hparse⟩

end Signature

end ValueTrace
