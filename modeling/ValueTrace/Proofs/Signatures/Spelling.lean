import Mathlib.Data.List.TakeWhile
import ValueTrace.Signature.Reader

/-!
# How the tokens of a signature are spelled

A text spells tokens if they are what is found in it, wherever it starts. Texts are put together
from behind: what a mark or a name spells depends on the text that follows it only in that a name
must not go on in it.
-/

namespace ValueTrace

namespace Token

def IsName (s : String) : Prop :=
  s ≠ "or" ∧ ∃ c cs, s.toList = c :: cs ∧ startsName c ∧ ∀ d ∈ cs, inName d

def NamesIn (ts : List Token) : Prop := ∀ s, .name s ∈ ts → IsName s

def Spells (cs : List Char) (ts : List Token) : Prop := ∀ offset, scan offset 0 cs = .ok ts

def EndsName (cs : List Char) : Prop := ∀ c, cs.head? = some c → inName c = false

/-- The text adds the tokens to those of a text after it, if a name does not go on there. -/
def Adds (s : String) (us : List Token) : Prop :=
  ∀ cs ts, EndsName cs → Spells cs ts → Spells (s.toList ++ cs) (us ++ ts)

def Marks (s : String) (us : List Token) : Prop :=
  ∀ cs ts, Spells cs ts → Spells (s.toList ++ cs) (us ++ ts)

def Closes (s : String) : Prop := ∀ cs, EndsName cs → EndsName (s.toList ++ cs)

variable {c : Char} {cs : List Char} {t : Token} {ts us : List Token} {s : String}
  {offset skip k : Nat}

theorem NamesIn.tail (h : NamesIn (t :: ts)) : NamesIn ts :=
  fun s hs => h s (List.mem_cons_of_mem _ hs)

/-- Characters of a token are passed over. -/
theorem exists_scan_skip (offset : Nat) (passed cs : List Char) :
    ∃ next, scan offset passed.length (passed ++ cs) = scan next 0 cs := by
  induction passed generalizing offset with
  | nil => exact ⟨offset, rfl⟩
  | cons c passed ih =>
    obtain ⟨next, hnext⟩ := ih (offset + c.utf8Size)
    refine ⟨next, ?_⟩
    rw [← hnext, List.cons_append, List.length_cons, scan, if_pos (Nat.succ_pos _)]
    rfl

/-- No name starts with a mark, so what starts with a letter is found as a name or as an `or`. -/
theorem first?_of_startsName (h : startsName c) : first? (c :: cs) =
    some (if c :: cs.takeWhile inName = ['o', 'r'] then .or
      else .name (String.ofList (c :: cs.takeWhile inName)), (cs.takeWhile inName).length + 1) := by
  unfold first?
  split
  case h_13 heq =>
    cases heq
    rw [if_pos h]
    rfl
  case h_14 heq => cases heq
  all_goals
    next heq =>
      cases heq
      exact absurd h (by decide)

/-- A star that no other follows is found alone. -/
theorem first?_star (h : cs.head? ≠ some '*') : first? ('*' :: cs) = some (.star, 1) := by
  unfold first?
  split
  case h_11 => rfl
  case h_10 heq =>
    cases heq
    exact absurd rfl h
  case h_13 hstar _ heq =>
    cases heq
    exact (hstar rfl).elim
  all_goals
    next heq => simp at heq

theorem isBlank_of_startsName (h : startsName c) : isBlank c = false := by
  by_contra hblank
  rw [Bool.not_eq_false] at hblank
  simp only [isBlank, Bool.or_eq_true, beq_iff_eq] at hblank
  rcases hblank with (((rfl | rfl) | rfl) | rfl) | rfl <;> exact absurd h (by decide)

/-- A name that is found is one of the notation. -/
theorem isName_of_first? {n : Nat} (h : first? cs = some (.name s, n)) : IsName s := by
  unfold first? at h
  split at h
  case h_13 c cs _ _ _ _ _ _ _ _ _ _ _ _ =>
    split at h
    case isFalse => cases h
    case isTrue hstart =>
      dsimp only at h
      split at h
      case isTrue => cases h
      case isFalse hor =>
        cases h
        refine ⟨fun heq => hor ?_, c, cs.takeWhile inName, String.toList_ofList,
          hstart, fun d hd => List.mem_takeWhile_imp hd⟩
        rw [← String.toList_ofList (l := c :: cs.takeWhile inName), heq]
        rfl
  all_goals cases h

/-- Every name that is found in a text is one of the notation. -/
theorem namesIn_of_scan (h : scan offset skip cs = .ok ts) : NamesIn ts := by
  induction cs generalizing offset skip ts with
  | nil =>
    cases h
    exact fun _ hmem => nomatch hmem
  | cons c cs ih =>
    unfold scan at h
    split at h
    case isTrue => exact ih h
    case isFalse =>
      split at h
      case isTrue => exact ih h
      case isFalse =>
        split at h
        case h_2 => cases h
        case h_1 t n hfirst =>
          cases hrest : scan (offset + c.utf8Size) (n - 1) cs with
          | error => rw [hrest] at h; cases h
          | ok rest =>
            rw [hrest] at h
            cases h
            intro s hmem
            rcases List.mem_cons.1 hmem with rfl | hmem
            · exact isName_of_first? hfirst
            · exact ih hrest s hmem

theorem endsName_cons (h : inName c = false) : EndsName (c :: cs) := by
  rintro _ ⟨⟩
  exact h

theorem endsName_nil : EndsName [] := by
  rintro _ ⟨⟩

theorem closes_empty : Closes "" := fun _ h => h

theorem closes_of_head (hs : s.toList = c :: cs) (h : inName c = false) : Closes s := by
  intro cs _
  rw [hs]
  exact endsName_cons h

theorem closes_append (hs : s.toList = c :: cs) (h : inName c = false) (after : String) :
    Closes (s ++ after) := by
  have hhead : (s ++ after).toList = c :: (cs ++ after.toList) := by
    rw [String.toList_append, hs, List.cons_append]
  exact closes_of_head hhead h

namespace Spells

theorem nil : Spells [] [] := fun _ => rfl

theorem blank (h : Spells cs ts) : Spells (' ' :: cs) ts := fun _ => h _

/-- A token with its characters. -/
theorem token (passed : List Char) (hblank : isBlank c = false)
    (hfirst : first? (c :: (passed ++ cs)) = some (t, passed.length + 1)) (h : Spells cs ts) :
    Spells (c :: (passed ++ cs)) (t :: ts) := by
  intro offset
  obtain ⟨next, hnext⟩ := exists_scan_skip (offset + c.utf8Size) passed cs
  rw [scan, if_neg (Nat.lt_irrefl 0), hblank, if_neg Bool.false_ne_true, hfirst]
  change (scan _ passed.length (passed ++ cs)).map _ = _
  rw [hnext, h next]
  rfl

theorem name (hs : IsName s) (hend : EndsName cs) (h : Spells cs ts) :
    Spells (s.toList ++ cs) (.name s :: ts) := by
  obtain ⟨hor, c, passed, hchars, hstart, hin⟩ := hs
  have hnone : cs.takeWhile inName = [] := by
    cases cs with
    | nil => rfl
    | cons d cs => exact List.takeWhile_cons_of_neg (by rw [hend d rfl]; exact Bool.false_ne_true)
  have htake : (passed ++ cs).takeWhile inName = passed := by
    rw [List.takeWhile_append_of_pos hin, hnone, List.append_nil]
  rw [hchars]
  refine token passed (isBlank_of_startsName hstart) ?_ h
  rw [first?_of_startsName hstart, htake, if_neg, ← hchars, String.ofList_toList]
  rw [← hchars]
  exact fun heq => hor (String.toList_inj.1 heq)

end Spells

namespace Marks

theorem adds (h : Marks s us) : Adds s us := fun cs ts _ => h cs ts

theorem parenOpen : Marks "(" [.parenOpen] := fun _ _ => .token [] rfl rfl

theorem parenClose : Marks ")" [.parenClose] := fun _ _ => .token [] rfl rfl

theorem bracketOpen : Marks "[" [.bracketOpen] := fun _ _ => .token [] rfl rfl

theorem bracketClose : Marks "]" [.bracketClose] := fun _ _ => .token [] rfl rfl

theorem question : Marks "?" [.question] := fun _ _ => .token [] rfl rfl

theorem comma : Marks ", " [.comma] := fun _ _ h => .token [] rfl rfl h.blank

theorem colon : Marks ": " [.colon] := fun _ _ h => .token [] rfl rfl h.blank

theorem or : Marks " or " [.or] := fun _ _ h => .blank (.token ['r'] rfl rfl h.blank)

theorem arrow : Marks " -> " [.arrow] := fun _ _ h => .blank (.token ['>'] rfl rfl h.blank)

theorem default : Marks " = ..." [.equals, .ellipsis] :=
  fun _ _ h => .blank (.token [] rfl rfl (.blank (.token ['.', '.'] rfl rfl h)))

theorem doubleStar : Marks "**" [.doubleStar] := fun _ _ => .token ['*'] rfl rfl

end Marks

namespace Adds

theorem name (hs : IsName s) : Adds s [.name s] := fun _ _ hend h => h.name hs hend

theorem empty : Adds "" [] := fun _ _ _ h => h

/-- Texts one after another, where a name of the first does not go on in the second. -/
theorem append {s₁ s₂ : String} {us₁ us₂ : List Token} (h₁ : Adds s₁ us₁) (h₂ : Adds s₂ us₂)
    (hclose : Closes s₂) : Adds (s₁ ++ s₂) (us₁ ++ us₂) := by
  intro cs ts hcs h
  rw [String.toList_append, List.append_assoc, List.append_assoc]
  exact h₁ _ _ (hclose cs hcs) (h₂ _ _ hcs h)

/-- A text after a mark. -/
theorem mark {s₁ s₂ : String} {us₁ us₂ : List Token} (h₁ : Marks s₁ us₁) (h₂ : Adds s₂ us₂) :
    Adds (s₁ ++ s₂) (us₁ ++ us₂) := by
  intro cs ts hcs h
  rw [String.toList_append, List.append_assoc, List.append_assoc]
  exact h₁ _ _ (h₂ _ _ hcs h)

/-- A star before a name, which does not start with another star. -/
theorem star (hs : IsName s) : Adds ("*" ++ s) [.star, .name s] := by
  intro cs ts hcs h
  obtain ⟨-, c, passed, hchars, hstart, -⟩ := id hs
  have hname := h.name hs hcs
  rw [String.toList_append, List.append_assoc]
  rw [hchars] at hname ⊢
  refine Spells.token [] rfl (first?_star ?_) hname
  rintro ⟨⟩
  exact absurd hstart (by decide)

/-- Texts with a mark between them. -/
theorem intercalate {α : Type} {text : α → String} {tokens : α → List Token} {sep : String}
    (hsep : Marks sep [t]) (hhead : sep.toList = c :: cs) (hc : inName c = false) {as : List α}
    (h : ∀ a ∈ as, Adds (text a) (tokens a)) :
    Adds (sep.intercalate (as.map text)) ([t].intercalate (as.map tokens)) := by
  induction as with
  | nil => exact empty
  | cons a as ih =>
    have hfirst := h a (List.mem_cons_self ..)
    have hrest := ih fun a ha => h a (List.mem_cons_of_mem _ ha)
    cases as with
    | nil => simpa using hfirst
    | cons b as =>
      rw [List.map_cons, List.map_cons, List.map_cons, List.map_cons,
        String.intercalate_cons_cons, List.intercalate_cons_cons, String.append_assoc,
        List.append_assoc]
      exact append hfirst (mark hsep hrest) (closes_append hhead hc _)

end Adds

variable {α : Type} {f : α → List Token} {a : α} {as : List α} {mark : Token}

def further (mark : Token) (f : α → List Token) (as : List α) : List Token :=
  as.flatMap fun a => mark :: f a

theorem further_cons : further mark f (a :: as) = mark :: (f a ++ further mark f as) := rfl

/-- Pieces with marks between them are the first one and the further ones. -/
theorem intercalate_map_cons (mark : Token) (f : α → List Token) (a : α) (as : List α) :
    [mark].intercalate ((a :: as).map f) = f a ++ further mark f as := by
  induction as generalizing a with
  | nil => simp [further]
  | cons b as ih =>
    rw [List.map_cons, List.map_cons, List.intercalate_cons_cons, ← List.map_cons, ih b,
      further_cons, List.append_assoc]
    rfl

/-- Further pieces are followed by their own mark or by what comes after them all. -/
theorem head?_further_ne (hmark : mark ≠ t) (h : ts.head? ≠ some t) :
    (further mark f as ++ ts).head? ≠ some t := by
  cases as with
  | nil => exact h
  | cons => exact fun heq => hmark (Option.some.inj heq)

end Token

end ValueTrace
