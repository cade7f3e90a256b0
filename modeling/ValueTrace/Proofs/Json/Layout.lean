import ValueTrace.Proofs.Json.Tokens

/-! A value that is laid out over lines reads back. -/
namespace ValueTrace.Json

/-- The value has no decimals, and all its texts stand for something. -/
inductive Plain : Json → Prop
  | null : Plain .null
  | bool (b : Bool) : Plain (.bool b)
  | whole (negative : Bool) (n : Nat) : Plain (.number (.whole negative n))
  | text (s : String) : Plain (.string (some s))
  | array {items : List Json} : (∀ v ∈ items, Plain v) → Plain (.array items)
  | object {members : List (Option String × Json)} : (∀ m ∈ members, m.1.isSome) →
      (∀ m ∈ members, Plain m.2) → Plain (.object members)

/-- The value is read from its layout, whatever follows. -/
def ReadsBack (depth : Nat) (v : Json) : Prop :=
  ∀ (n : Nat) (rest : List Char), (layoutChars depth v).length ≤ n → EndsNumeral rest →
    readValue n (layoutChars depth v ++ rest) = some (v, rest)

variable {v : Json} {depth n : Nat} {rest cs : List Char}

theorem skipBlank_newline (depth : Nat) (cs : List Char) :
    skipBlank (newline depth ++ cs) = skipBlank cs := by
  have hblank : ∀ c ∈ newline depth, isBlank c = true := by
    intro c hc
    rw [newline, List.mem_cons, List.mem_replicate] at hc
    obtain rfl | ⟨-, rfl⟩ := hc <;> rfl
  exact List.dropWhile_append_of_pos hblank

theorem skipBlank_cons {c : Char} (h : isBlank c = false) : skipBlank (c :: cs) = c :: cs := by
  rw [skipBlank, List.dropWhile_cons, h]
  rfl

theorem endsNumeral_cons {c : Char}
    (h : c.isDigit = false ∧ c ≠ '.' ∧ c ≠ 'e' ∧ c ≠ 'E') : EndsNumeral (c :: rest) := by
  intro d hd
  obtain rfl : c = d := by simpa using hd
  exact h

theorem endsNumeral_newline (depth : Nat) (cs : List Char) : EndsNumeral (newline depth ++ cs) :=
  endsNumeral_cons (by decide)

theorem digit_not_blank {c : Char} (h : c.isDigit = true) : isBlank c = false ∧ c ≠ ']' := by
  rw [Char.isDigit_iff_toNat] at h
  constructor
  · rw [← Bool.not_eq_true]
    intro hblank
    simp only [isBlank, Bool.or_eq_true, beq_iff_eq] at hblank
    obtain ((rfl | rfl) | rfl) | rfl := hblank <;> simp at h
  · rintro rfl
    simp at h

/-- A value begins with a character of its own. -/
theorem layoutChars_head (h : v.Plain) (depth : Nat) :
    ∃ c cs, layoutChars depth v = c :: cs ∧ isBlank c = false ∧ c ≠ ']' := by
  cases h with
  | null => exact ⟨'n', _, rfl, by decide, by decide⟩
  | bool b =>
    cases b with
    | false => exact ⟨'f', _, rfl, by decide, by decide⟩
    | true => exact ⟨'t', _, rfl, by decide, by decide⟩
  | whole negative n =>
    cases negative with
    | true => exact ⟨'-', _, rfl, by decide, by decide⟩
    | false =>
      have hdigits : layoutChars depth (.number (.whole false n)) = Nat.toDigits 10 n := by
        simp [layoutChars, Numeral.chars, Nat.repr_eq_ofList_toDigits]
      obtain ⟨c, cs, hcs⟩ := List.exists_cons_of_ne_nil (Nat.toDigits_ne_nil (n := n) (b := 10))
      have hc : c.isDigit = true := isDigit_of_mem_toDigits (n := n) (by simp [hcs])
      exact ⟨c, cs, hdigits.trans hcs, digit_not_blank hc⟩
  | text s => exact ⟨'"', _, rfl, by decide, by decide⟩
  | @array items _ =>
    cases items with
    | nil => exact ⟨'[', _, rfl, by decide, by decide⟩
    | cons w l => exact ⟨'[', _, rfl, by decide, by decide⟩
  | @object members _ _ =>
    cases members with
    | nil => exact ⟨'{', _, rfl, by decide, by decide⟩
    | cons m l => exact ⟨'{', _, rfl, by decide, by decide⟩

theorem skipBlank_layoutChars (h : v.Plain) (depth : Nat) (cs : List Char) :
    skipBlank (layoutChars depth v ++ cs) = layoutChars depth v ++ cs := by
  obtain ⟨c, ds, hcs, hc, -⟩ := layoutChars_head h depth
  rw [hcs, List.cons_append, skipBlank_cons hc]

theorem layoutChars_array (depth : Nat) (v : Json) (l : List Json) :
    layoutChars depth (.array (v :: l)) =
      '[' :: (layoutItems (depth + 1) (v :: l) ++ (newline depth ++ [']'])) := by
  rw [layoutChars]
  · simp
  · simp

theorem layoutItems_cons_cons (depth : Nat) (v w : Json) (l : List Json) :
    layoutItems depth (v :: w :: l) =
      newline depth ++ layoutChars depth v ++ ',' :: layoutItems depth (w :: l) := by
  rw [layoutItems]
  simp

theorem readItems_next (hv : v.Plain) (h : ReadsBack depth v)
    (hn : (layoutChars depth v).length ≤ n) (hcs : EndsNumeral cs)
    (hnext : skipBlank cs = ',' :: rest) :
    readItems (n + 1) (skipBlank (newline depth ++ layoutChars depth v ++ cs)) =
      (readItems n (skipBlank rest)).map fun (l, rest) => (v :: l, rest) := by
  rw [List.append_assoc, skipBlank_newline, skipBlank_layoutChars hv, readItems, h n cs hn hcs]
  simp only [hnext]

theorem readItems_last (hv : v.Plain) (h : ReadsBack depth v)
    (hn : (layoutChars depth v).length ≤ n) (hcs : EndsNumeral cs)
    (hlast : skipBlank cs = ']' :: rest) :
    readItems (n + 1) (skipBlank (newline depth ++ layoutChars depth v ++ cs)) =
      some ([v], rest) := by
  rw [List.append_assoc, skipBlank_newline, skipBlank_layoutChars hv, readItems, h n cs hn hcs]
  simp only [hlast]

/-- An array with items does not look like one without. -/
theorem readValue_items (hv : v.Plain) (l : List Json) (cs : List Char) :
    readValue (n + 1) ('[' :: (layoutItems depth (v :: l) ++ cs)) =
      (readItems n (skipBlank (layoutItems depth (v :: l) ++ cs))).map fun (l, rest) =>
        (.array l, rest) := by
  have hhead : ∃ c ds, skipBlank (layoutItems depth (v :: l) ++ cs) = c :: ds ∧ c ≠ ']' := by
    obtain ⟨c, ds, hds, -, hc⟩ := layoutChars_head hv depth
    cases l with
    | nil =>
      rw [layoutItems, List.append_assoc, skipBlank_newline, skipBlank_layoutChars hv, hds]
      exact ⟨c, _, rfl, hc⟩
    | cons w l =>
      rw [layoutItems_cons_cons, List.append_assoc, List.append_assoc, skipBlank_newline,
        skipBlank_layoutChars hv, hds]
      exact ⟨c, _, rfl, hc⟩
  obtain ⟨c, ds, hds, hc⟩ := hhead
  rw [readValue, hds]
  split
  · rename_i he
    exact absurd (List.cons.inj he).1 hc
  · rfl

theorem readItems_layout (outer : Nat) (rest : List Char) {v : Json} {l : List Json}
    (h : ∀ w ∈ v :: l, w.Plain ∧ ReadsBack depth w)
    (hn : (layoutItems depth (v :: l)).length ≤ n) :
    readItems n (skipBlank (layoutItems depth (v :: l) ++ (newline outer ++ ']' :: rest))) =
      some (v :: l, rest) := by
  induction l generalizing v n with
  | nil =>
    obtain ⟨⟨hv, hread⟩, -⟩ := List.forall_mem_cons.mp h
    rw [layoutItems] at hn ⊢
    simp only [newline, List.length_append, List.length_cons] at hn
    obtain ⟨n, rfl⟩ : ∃ k, n = k + 1 := Nat.exists_eq_add_one.mpr (by omega)
    apply readItems_last hv hread (by omega) (endsNumeral_newline _ _)
    rw [skipBlank_newline]
    rfl
  | cons w l ih =>
    obtain ⟨⟨hv, hread⟩, hl⟩ := List.forall_mem_cons.mp h
    rw [layoutItems_cons_cons] at hn ⊢
    simp only [newline, List.length_append, List.length_cons] at hn
    obtain ⟨n, rfl⟩ : ∃ k, n = k + 1 := Nat.exists_eq_add_one.mpr (by omega)
    rw [List.append_assoc, List.cons_append,
      readItems_next hv hread (by omega) (endsNumeral_cons (by decide)) rfl, ih hl (by omega)]
    rfl

theorem quoteChars_append (s : String) (cs : List Char) :
    quoteChars s ++ cs = '"' :: (s.toList.flatMap escapeChar ++ '"' :: cs) := by
  simp [quoteChars]

theorem layoutChars_object (depth : Nat) (m : Option String × Json)
    (l : List (Option String × Json)) :
    layoutChars depth (.object (m :: l)) =
      '{' :: (layoutMembers (depth + 1) (m :: l) ++ (newline depth ++ ['}'])) := by
  rw [layoutChars]
  · simp
  · simp

theorem layoutMembers_cons_cons (depth : Nat) (m k : Option String × Json)
    (l : List (Option String × Json)) :
    layoutMembers depth (m :: k :: l) =
      newline depth ++ quoteChars (m.1.getD "") ++ ':' :: ' ' :: layoutChars depth m.2 ++
        ',' :: layoutMembers depth (k :: l) := by
  rw [layoutMembers]
  simp

/-- The name and the value of the first member are read up to what follows. -/
theorem readMembers_value (s : String) (hv : v.Plain) (h : ReadsBack depth v)
    (hn : (layoutChars depth v).length ≤ n) (hcs : EndsNumeral cs) : ∃ ds,
    skipBlank (newline depth ++ quoteChars s ++ ':' :: ' ' :: layoutChars depth v ++ cs) =
        '"' :: (s.toList.flatMap escapeChar ++ '"' :: ':' :: ds) ∧
      readValue n (skipBlank ds) = some (v, cs) := by
  refine ⟨' ' :: layoutChars depth v ++ cs, ?_, ?_⟩
  · rw [List.append_assoc, List.append_assoc, skipBlank_newline, quoteChars_append]
    rfl
  · have hblank (ds : List Char) : skipBlank (' ' :: ds) = skipBlank ds := rfl
    rw [List.cons_append, hblank, skipBlank_layoutChars hv, h n cs hn hcs]

theorem readMembers_next (s : String) (hv : v.Plain) (h : ReadsBack depth v)
    (hn : (layoutChars depth v).length ≤ n) (hcs : EndsNumeral cs)
    (hnext : skipBlank cs = ',' :: rest) :
    readMembers (n + 1) (skipBlank (newline depth ++ quoteChars s ++
        ':' :: ' ' :: layoutChars depth v ++ cs)) =
      (readMembers n (skipBlank rest)).map fun (l, rest) => ((some s, v) :: l, rest) := by
  obtain ⟨ds, hds, hvalue⟩ := readMembers_value s hv h hn hcs
  have hcolon : skipBlank (':' :: ds) = ':' :: ds := skipBlank_cons (by decide)
  rw [hds, readMembers, readText_quoted]
  simp only [hcolon, hvalue, hnext]

theorem readMembers_last (s : String) (hv : v.Plain) (h : ReadsBack depth v)
    (hn : (layoutChars depth v).length ≤ n) (hcs : EndsNumeral cs)
    (hlast : skipBlank cs = '}' :: rest) :
    readMembers (n + 1) (skipBlank (newline depth ++ quoteChars s ++
        ':' :: ' ' :: layoutChars depth v ++ cs)) = some ([(some s, v)], rest) := by
  obtain ⟨ds, hds, hvalue⟩ := readMembers_value s hv h hn hcs
  have hcolon : skipBlank (':' :: ds) = ':' :: ds := skipBlank_cons (by decide)
  rw [hds, readMembers, readText_quoted]
  simp only [hcolon, hvalue, hlast]

/-- An object with members does not look like one without. -/
theorem readValue_members (m : Option String × Json) (l : List (Option String × Json))
    (cs : List Char) :
    readValue (n + 1) ('{' :: (layoutMembers depth (m :: l) ++ cs)) =
      (readMembers n (skipBlank (layoutMembers depth (m :: l) ++ cs))).map fun (l, rest) =>
        (.object l, rest) := by
  have hhead : ∃ ds, skipBlank (layoutMembers depth (m :: l) ++ cs) = '"' :: ds := by
    cases l with
    | nil =>
      obtain ⟨name, v⟩ := m
      rw [layoutMembers, List.append_assoc, List.append_assoc, skipBlank_newline,
        quoteChars_append]
      exact ⟨_, rfl⟩
    | cons k l =>
      rw [layoutMembers_cons_cons, List.append_assoc, List.append_assoc, List.append_assoc,
        skipBlank_newline, quoteChars_append]
      exact ⟨_, rfl⟩
  obtain ⟨ds, hds⟩ := hhead
  rw [readValue, hds]
  rfl

theorem readMembers_layout (outer : Nat) (rest : List Char) {m : Option String × Json}
    {l : List (Option String × Json)}
    (h : ∀ k ∈ m :: l, k.1.isSome ∧ k.2.Plain ∧ ReadsBack depth k.2)
    (hn : (layoutMembers depth (m :: l)).length ≤ n) :
    readMembers n (skipBlank (layoutMembers depth (m :: l) ++ (newline outer ++ '}' :: rest))) =
      some (m :: l, rest) := by
  induction l generalizing m n with
  | nil =>
    obtain ⟨⟨hname, hv, hread⟩, -⟩ := List.forall_mem_cons.mp h
    obtain ⟨name, v⟩ := m
    obtain ⟨s, rfl⟩ := Option.isSome_iff_exists.mp hname
    change v.Plain at hv
    change ReadsBack depth v at hread
    rw [layoutMembers] at hn ⊢
    simp only [newline, List.length_append, List.length_cons] at hn
    obtain ⟨n, rfl⟩ : ∃ k, n = k + 1 := Nat.exists_eq_add_one.mpr (by omega)
    rw [Option.getD_some]
    apply readMembers_last s hv hread (by omega) (endsNumeral_newline _ _)
    rw [skipBlank_newline]
    rfl
  | cons k l ih =>
    obtain ⟨⟨hname, hv, hread⟩, hl⟩ := List.forall_mem_cons.mp h
    obtain ⟨name, v⟩ := m
    obtain ⟨s, rfl⟩ := Option.isSome_iff_exists.mp hname
    change v.Plain at hv
    change ReadsBack depth v at hread
    rw [layoutMembers_cons_cons] at hn ⊢
    simp only [newline, List.length_append, List.length_cons] at hn
    obtain ⟨n, rfl⟩ : ∃ k, n = k + 1 := Nat.exists_eq_add_one.mpr (by omega)
    rw [List.append_assoc, List.cons_append, Option.getD_some,
      readMembers_next s hv hread (by omega) (endsNumeral_cons (by decide)) rfl, ih hl (by omega)]
    rfl

theorem readValue_digits (negative : Bool) (k : Nat) (h : EndsNumeral rest) :
    readValue (n + 1) (Numeral.chars (.whole negative k) ++ rest) =
      some (.number (.whole negative k), rest) := by
  cases negative with
  | true => 
    change (readUnsigned true ((Nat.repr k).toList ++ rest)).map _ = _
    rw [readUnsigned_repr h]
    rfl
  | false =>
    change readValue (n + 1) ((Nat.repr k).toList ++ rest) = _
    have hread := readUnsigned_repr h false k
    obtain ⟨c, cs, hcs⟩ := List.exists_cons_of_ne_nil (Nat.toDigits_ne_nil (n := k) (b := 10))
    have hc : c.isDigit = true := isDigit_of_mem_toDigits (n := k) (by simp [hcs])
    rw [Nat.repr_eq_ofList_toDigits, String.toList_ofList, hcs, List.cons_append] at hread ⊢
    have hne (d : Char) (hd : d.isDigit = false) : c ≠ d := by
      rintro rfl
      rw [hd] at hc
      cases hc
    rw [readValue, hread]
    · rfl
    · intro _ he
      exact hne 'n' (by decide) (List.cons.inj he).1
    · intro _ he
      exact hne 't' (by decide) (List.cons.inj he).1
    · intro _ he
      exact hne 'f' (by decide) (List.cons.inj he).1
    · intro _ he
      exact hne '"' (by decide) (List.cons.inj he).1
    · intro _ he
      exact hne '[' (by decide) (List.cons.inj he).1
    · intro _ he
      exact hne '{' (by decide) (List.cons.inj he).1
    · intro _ he
      exact hne '-' (by decide) (List.cons.inj he).1

/-- No value is written with no character at all. -/
theorem ReadsBack.of_succ (hv : v.Plain) (h : ∀ (n : Nat) (rest : List Char),
    (layoutChars depth v).length ≤ n + 1 → EndsNumeral rest →
      readValue (n + 1) (layoutChars depth v ++ rest) = some (v, rest)) : ReadsBack depth v := by
  intro n rest hn hrest
  cases n with
  | zero =>
    obtain ⟨c, cs, hcs, -⟩ := layoutChars_head hv depth
    simp [hcs] at hn
  | succ n => exact h n rest hn hrest

theorem readsBack (hv : v.Plain) (depth : Nat) : ReadsBack depth v := by
  induction hv generalizing depth with
  | null =>
    apply ReadsBack.of_succ .null
    intro n rest _ _
    rfl
  | bool b =>
    apply ReadsBack.of_succ (.bool b)
    intro n rest _ _
    cases b <;> rfl
  | whole negative k =>
    apply ReadsBack.of_succ (.whole negative k)
    intro n rest _ hrest
    exact readValue_digits negative k hrest
  | text s =>
    apply ReadsBack.of_succ (.text s)
    intro n rest _ _
    change readValue (n + 1) (quoteChars s ++ rest) = _
    rw [quoteChars_append, readValue, readText_quoted]
    rfl
  | @array items hitems ih =>
    apply ReadsBack.of_succ (.array hitems)
    intro n rest hn _
    cases items with
    | nil => rfl
    | cons v l =>
      have hback : ∀ w ∈ v :: l, w.Plain ∧ ReadsBack (depth + 1) w := by
        intro w hw
        exact ⟨hitems w hw, ih w hw (depth + 1)⟩
      rw [layoutChars_array] at hn ⊢
      simp only [List.length_append, List.length_cons, newline] at hn
      rw [List.cons_append, List.append_assoc, List.append_assoc, List.singleton_append,
        readValue_items (hback v (by simp)).1, readItems_layout depth rest hback (by omega)]
      rfl
  | @object members hnames hvalues ih =>
    apply ReadsBack.of_succ (.object hnames hvalues)
    intro n rest hn _
    cases members with
    | nil => rfl
    | cons m l =>
      have hback : ∀ k ∈ m :: l, k.1.isSome ∧ k.2.Plain ∧ ReadsBack (depth + 1) k.2 := by
        intro k hk
        exact ⟨hnames k hk, hvalues k hk, ih k hk (depth + 1)⟩
      rw [layoutChars_object] at hn ⊢
      simp only [List.length_append, List.length_cons, newline] at hn
      rw [List.cons_append, List.append_assoc, List.append_assoc, readValue_members,
        List.singleton_append, readMembers_layout depth rest hback (by omega)]
      rfl

/-- A value that is laid out reads back as it was. -/
theorem read?_layout (h : v.Plain) : read? v.layout = some v := by
  have hread := readsBack h 0 ((layoutChars 0 v).length + 1) [] (by omega) (by simp [EndsNumeral])
  have hskip := skipBlank_layoutChars h 0 []
  rw [List.append_nil] at hread hskip
  rw [read?, layout, String.length_ofList, String.toList_ofList, hskip, hread]
  rfl

end ValueTrace.Json
