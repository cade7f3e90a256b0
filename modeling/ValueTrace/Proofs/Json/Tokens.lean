import Mathlib.Tactic.Common
import ValueTrace.Json.Reader
import ValueTrace.Json.Writer

/-! Whole numbers and texts read back from what is written for them. -/
namespace ValueTrace.Json

variable {rest : List Char}

def EndsNumeral (rest : List Char) : Prop :=
  ∀ c ∈ rest.head?, c.isDigit = false ∧ c ≠ '.' ∧ c ≠ 'e' ∧ c ≠ 'E'

theorem ofDigits_toDigits (n : Nat) : ofDigits (Nat.toDigits 10 n) = n := by
  have h : Nat.ofDigitChars 10 (Nat.toDigits 10 n) 0 = n := Nat.ofDigitChars_ten_toDigits
  rwa [Nat.ofDigitChars_eq_foldl] at h

/-- The digits of a number begin with a zero only where they are no more than it. -/
theorem toDigits_head (n : Nat) :
    n = 0 ∨ ∃ c cs, Nat.toDigits 10 n = c :: cs ∧ c ≠ '0' := by
  induction n using Nat.strongRecOn with
  | ind n ih =>
    by_cases hn : n < 10
    · by_cases hzero : n = 0
      · exact .inl hzero
      · refine .inr ⟨n.digitChar, [], Nat.toDigits_of_lt_base hn, ?_⟩
        rwa [Ne, Nat.digitChar_eq_zero]
    · right
      obtain hzero | ⟨c, cs, hcs, hc⟩ := ih (n / 10) (by omega)
      · omega
      · refine ⟨c, cs ++ [(n % 10).digitChar], ?_, hc⟩
        rw [Nat.toDigits_of_base_le (by omega) (by omega), hcs, List.cons_append]

theorem isDigit_of_mem_toDigits {n : Nat} {c : Char} (h : c ∈ Nat.toDigits 10 n) :
    c.isDigit = true :=
  Nat.isDigit_of_mem_toDigits (by omega) (by omega) h

theorem readFraction_end (h : EndsNumeral rest) (negative : Bool) (ds : List Char) :
    readFraction negative ds rest = some (.whole negative (ofDigits ds), rest) := by
  cases rest with
  | nil => rfl
  | cons c rest =>
    obtain ⟨-, hpoint, he, hE⟩ := h c rfl
    rw [readFraction]
    · intro _ hc
      exact hpoint (List.cons.inj hc).1
    · intro _ hc
      exact he (List.cons.inj hc).1
    · intro _ hc
      exact hE (List.cons.inj hc).1

theorem takeWhile_end (h : EndsNumeral rest) :
    rest.takeWhile Char.isDigit = [] ∧ rest.dropWhile Char.isDigit = rest := by
  cases rest with
  | nil => exact ⟨rfl, rfl⟩
  | cons c rest =>
    obtain ⟨hc, -⟩ := h c rfl
    simp [hc]

theorem readUnsigned_toDigits (h : EndsNumeral rest) (negative : Bool) (n : Nat) :
    readUnsigned negative (Nat.toDigits 10 n ++ rest) = some (.whole negative n, rest) := by
  obtain rfl | ⟨c, cs, hcs, hc⟩ := toDigits_head n
  · have hzero : readFraction negative ['0'] rest = some (.whole negative 0, rest) :=
      readFraction_end h negative ['0']
    cases rest with
    | nil => exact hzero
    | cons c rest =>
      obtain ⟨hc, -⟩ := h c rfl
      change (if c.isDigit then none else readFraction negative ['0'] (c :: rest)) = _
      rw [hc, if_neg Bool.false_ne_true]
      exact hzero
  · have hdigits : ∀ d ∈ c :: cs, d.isDigit = true := by
      intro d hd
      rw [← hcs] at hd
      exact isDigit_of_mem_toDigits hd
    have hhead : c.isDigit = true := hdigits c (by simp)
    have htail : ∀ d ∈ cs, d.isDigit = true := by
      intro d hd
      exact hdigits d (by simp [hd])
    obtain ⟨htake, hdrop⟩ := takeWhile_end h
    rw [hcs, List.cons_append, readUnsigned, if_pos hhead, List.takeWhile_append_of_pos htail,
      List.dropWhile_append_of_pos htail, htake, hdrop, List.append_nil, ← hcs, readFraction_end h,
      ofDigits_toDigits]
    exact hc

theorem readUnsigned_repr (h : EndsNumeral rest) (negative : Bool) (n : Nat) :
    readUnsigned negative ((Nat.repr n).toList ++ rest) = some (.whole negative n, rest) := by
  rw [Nat.repr_eq_ofList_toDigits, String.toList_ofList]
  exact readUnsigned_toDigits h negative n

/-- The two hexadecimal digits of a character below the blank. -/
theorem hexQuad?_below (n : Nat) (h : n < 0x20) :
    hexQuad? '0' '0' (hexChar (n / 16)) (hexChar n) = some n := by
  decide +revert

/-- What stands for a character is read as the character. -/
theorem readUnits_escapeChar (seen : List Nat) (c : Char) (cs : List Char) :
    readUnits seen (escapeChar c ++ cs) = readUnits (c.toNat :: seen) cs := by
  unfold escapeChar
  split_ifs with h1 h2 h3 h4 h5 h6 h7 h8
  · subst h1
    rfl
  · subst h2
    rfl
  · subst h3
    rfl
  · subst h4
    rfl
  · subst h5
    rfl
  · subst h6
    rfl
  · subst h7
    rfl
  · simp only [List.cons_append, List.nil_append]
    rw [readUnits, hexQuad?_below _ h8]
  · simp only [List.cons_append, List.nil_append]
    rw [readUnits, if_neg h8]
    · intro hc
      exact h1 hc
    · intro _ _ _ _ _ hc _
      exact h2 hc
    · intro _ _ hc _
      exact h2 hc

theorem joinUnits_toNat (cs : List Char) : joinUnits (cs.map Char.toNat) = some cs := by
  induction cs with
  | nil => rfl
  | cons c cs ih =>
    have hvalid : c.toNat < 0xD800 ∨ 0xDFFF < c.toNat ∧ c.toNat < 0x110000 := c.valid
    have hhigh : ¬(0xD800 ≤ c.toNat ∧ c.toNat < 0xDC00) := by omega
    have hlow : ¬(0xDC00 ≤ c.toNat ∧ c.toNat < 0xE000) := by omega
    rw [List.map_cons]
    unfold joinUnits
    simp only [hhigh, hlow, if_false, ih, Option.map_some, Char.ofNat_toNat]

theorem readUnits_quoted (s rest : List Char) (seen : List Nat) :
    readUnits seen (s.flatMap escapeChar ++ '"' :: rest) =
      some ((s.map Char.toNat).reverse ++ seen, rest) := by
  induction s generalizing seen with
  | nil => rfl
  | cons c s ih =>
    rw [List.flatMap_cons, List.append_assoc, readUnits_escapeChar, ih, List.map_cons,
      List.reverse_cons, List.append_assoc, List.singleton_append]

theorem readText_quoted (s : String) (rest : List Char) :
    readText (s.toList.flatMap escapeChar ++ '"' :: rest) = some (some s, rest) := by
  simp [readText, readUnits_quoted, joinUnits_toNat]

end ValueTrace.Json
