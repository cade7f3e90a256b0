import Mathlib.Data.List.TakeDrop
import ValueTrace.Proofs.Bytecode.RoundTrip

/-!
# Where the parameters are

The counts of parameters come with the code and are not checked against its tables. The parameters
are in their places in the table of local variables as long as the counts can be added up in a
machine word.
-/

namespace ValueTrace

namespace Code

variable {c : Code}

/-- How many parameters are counted by name: the positional ones and those that are given by keyword
only. -/
def namedCount (c : Code) : Nat := c.argCount.toNat + c.kwonlyArgCount.toNat

/-- The furthest position that is worked out. It is one further if there may be a parameter behind
the one for surplus positional arguments. -/
def furthest (c : Code) : Nat :=
  c.namedCount + if c.hasFlag varArgs && c.hasFlag varKeywords then 1 else 0

/-- The parameters are worked out as they are meant. -/
structure ParametersInPlace (c : Code) : Prop where
  /-- The counts are added up without a carry out of the word. -/
  sum : c.namedEnd.toNat = c.namedCount
  /-- So is the place of the parameter for surplus keyword arguments. -/
  next : c.hasFlag varArgs = true → c.hasFlag varKeywords = true →
    (c.namedEnd + 1).toNat = c.namedEnd.toNat + 1
  /-- The parameters given by keyword only do not end before they begin. -/
  ordered : c.positionalEnd ≤ min c.namedEnd.toNat c.varnames.length
  /-- Those with names of their own come first. -/
  named : c.positionalParams ++ c.kwonlyParams = c.varnames.take c.namedCount
  /-- Those for surplus arguments come directly after them. -/
  all : c.positionalParams ++ c.kwonlyParams ++ c.varargsName?.toList ++ c.varkwName?.toList <+:
    c.varnames

theorem namedEnd_toNat (h : c.namedCount < Word.bound64) : c.namedEnd.toNat = c.namedCount := by
  rw [namedEnd, UInt64.toNat_add]
  exact Nat.mod_eq_of_lt h

theorem namedEnd_next_toNat (h : c.namedCount + 1 < Word.bound64) :
    (c.namedEnd + 1).toNat = c.namedCount + 1 := by
  rw [UInt64.toNat_add, namedEnd_toNat (Nat.lt_of_succ_lt h)]
  exact Nat.mod_eq_of_lt h

theorem positionalEnd_le (h : c.namedEnd.toNat = c.namedCount) :
    c.positionalEnd ≤ min c.namedEnd.toNat c.varnames.length := by
  unfold positionalEnd
  unfold namedCount at h
  omega

theorem positionalParams_append_kwonlyParams (h : c.namedEnd.toNat = c.namedCount) :
    c.positionalParams ++ c.kwonlyParams = c.varnames.take c.namedCount := by
  have hle := positionalEnd_le h
  rw [h] at hle
  have hfirst : c.positionalParams =
      (c.varnames.take (min c.namedCount c.varnames.length)).take c.positionalEnd := by
    rw [List.take_take, Nat.min_eq_left hle, positionalParams]
  rw [hfirst, kwonlyParams, h, List.take_append_drop]
  exact List.take_eq_take_min.symm

theorem toList_varargsName? (h : c.namedEnd.toNat = c.namedCount) :
    c.varnames.take c.namedCount ++ c.varargsName?.toList =
      c.varnames.take (c.namedCount + if c.hasFlag varArgs then 1 else 0) := by
  unfold varargsName?
  split
  · rw [h, List.take_add_one]
  · exact List.append_nil _

theorem toList_varkwName? (hsum : c.namedEnd.toNat = c.namedCount)
    (hnext : c.hasFlag varArgs = true → c.hasFlag varKeywords = true →
      (c.namedEnd + 1).toNat = c.namedEnd.toNat + 1) :
    c.varnames.take (c.namedCount + if c.hasFlag varArgs then 1 else 0) ++ c.varkwName?.toList <+:
      c.varnames := by
  have hplace (hkw : c.hasFlag varKeywords = true) :
      (if c.hasFlag varArgs then c.namedEnd + 1 else c.namedEnd).toNat =
        c.namedCount + if c.hasFlag varArgs then 1 else 0 := by
    split
    · next hargs => rw [hnext hargs hkw, hsum]
    · exact hsum
  by_cases hkw : c.hasFlag varKeywords = true
  · rw [varkwName?, if_pos hkw, hplace hkw, ← List.take_add_one]
    exact List.take_prefix _ _
  · rw [varkwName?, if_neg hkw, Option.toList_none, List.append_nil]
    exact List.take_prefix _ _

/-- Every parameter is worked out as it is meant exactly if all of the counts together fit into a
machine word, whatever the table holds. -/
theorem parametersInPlace_iff (c : Code) : c.ParametersInPlace ↔ c.furthest < Word.bound64 := by
  constructor
  · intro h
    have hsum := h.sum ▸ c.namedEnd.toNat_lt
    unfold furthest
    split
    · next hflags =>
      obtain ⟨hargs, hkw⟩ := Bool.and_eq_true_iff.mp hflags
      have hnext := (c.namedEnd + 1).toNat_lt
      rwa [h.next hargs hkw, h.sum] at hnext
    · exact hsum
  · intro h
    have hsum : c.namedEnd.toNat = c.namedCount :=
      namedEnd_toNat (Nat.lt_of_le_of_lt (Nat.le_add_right _ _) h)
    have hnext (hargs : c.hasFlag varArgs = true) (hkw : c.hasFlag varKeywords = true) :
        (c.namedEnd + 1).toNat = c.namedEnd.toNat + 1 := by
      rw [furthest, hargs, hkw] at h
      rw [hsum]
      exact namedEnd_next_toNat h
    have hnamed := positionalParams_append_kwonlyParams hsum
    refine ⟨hsum, hnext, positionalEnd_le hsum, hnamed, ?_⟩
    rw [hnamed, toList_varargsName? hsum]
    exact toList_varkwName? hsum hnext

/-- A function with one local variable, which says that it has as many parameters by keyword as a
word can count, and takes surplus arguments of both kinds. -/
def overcounted : Code where
  name := "f"
  filename := "m.py"
  firstLine := 1
  argCount := 0
  kwonlyArgCount := 18446744073709551615
  flags := 12
  varnames := ["a"]
  names := []
  consts := [.none]
  cellvars := []
  freevars := []
  blocks := [{ id := 0, ops := [
    { index := 0, op := .loadConst, arg := some 0, line := 1 },
    { index := 1, op := .returnValue, line := 1 }] }]

theorem load_print_overcounted : load overcounted.print = .ok overcounted := by
  have hsized : overcounted.sized = true := by decide
  have hfree : overcounted.decimalFree = true := by decide
  have hdepth : overcounted.toJson.depth ≤ Json.depthLimit := by decide
  have hvalid : overcounted.validate = .ok () := by decide
  rw [load, print, Json.read?_layout (overcounted.plain hfree), Option.bind_some,
    overcounted.readsAs hsized hfree, if_pos hdepth]
  simp only [hvalid]
  rfl

/-- Code is accepted whose parameters are not in their places. The only local variable is taken for
a parameter twice. -/
theorem accepted_not_inPlace : ¬ ∀ text c, load text = .ok c → c.ParametersInPlace := by
  intro h
  have htwice : overcounted.positionalParams ++ overcounted.kwonlyParams ++
      overcounted.varargsName?.toList ++ overcounted.varkwName?.toList = ["a", "a"] := by decide
  have hall := (h overcounted.print overcounted load_print_overcounted).all
  rw [htwice] at hall
  exact absurd hall.length_le (by decide)

end Code

end ValueTrace
