import ValueTrace.Machine.Shared
import ValueTrace.Proofs.Graph.Grounded
import ValueTrace.Proofs.Safety.Runs

/-!
# Shared literals

A literal has one value and one variable, which everyone who loads it shares. The variable begins
with the value at the root.
-/

namespace ValueTrace

/-- The payload of the literal that has this key. The items of a tuple are literals of their own. -/
def Payload.Spells (key : List Nat) : Payload → Prop
  | .constant c => ∀ place, c.key place = key
  | .tuple items => ∃ rest, key = 9 :: items.length :: rest
  | .code c => (Constant.code c.code).key c.place = key

/-- Literals that are told apart by what they say. Numbers with a point are told apart by their
bits, tuples by their items, and code by its place. -/
def Constant.isPlain : Constant → Bool
  | .none | .bool _ | .int _ | .str _ | .unicode _ | .bytes _ | .ellipsis => true
  | .float _ | .complex .. | .tuple _ | .code _ => false

namespace Store

def payload? (s : Store) (d : DataId) : Option Payload := (s.object? d).bind (·.payload)

def typeParams? (s : Store) (d : DataId) : Option Members := (s.object? d).map (·.typeParams)

/-- No object has lost what is known of it, or got other type parameters. -/
structure KeepsObjects (s s' : Store) : Prop where
  payload : ∀ d p, s.payload? d = some p → s'.payload? d = some p
  typeParams : ∀ d ms, s.typeParams? d = some ms → s'.typeParams? d = some ms

/-- The value and the variable of a literal: the value is what the literal says, and the first
binding of the variable binds it at the root. -/
structure HasLiteral (s : Store) (g : Graph) (key : List Nat) (d : DataId) (v : VarId)
    (b : BindingId) : Prop where
  payload : ∃ p, s.payload? d = some p ∧ p.Spells key
  grounded : g.Grounded Machine.root v d b

end Store

variable {s s' s'' : Store} {g g' : Graph} {key : List Nat} {d : DataId} {v : VarId}
  {b : BindingId} {f : Value → Value} {c c' : Constant} {p : Payload} {place place' : List Nat}

theorem textKey_injective : Function.Injective textKey := by
  intro s s' h
  have hchars : s.toList.map Char.toNat = s'.toList.map Char.toNat := (List.cons.inj h).2
  exact String.toList_inj.mp (List.map_injective_iff.mpr (fun _ _ => Char.toNat_inj.mp) hchars)

theorem intKey_injective : Function.Injective intKey := by
  intro n n' h
  cases n <;> cases n' <;> simp only [intKey] at h <;> first | omega | (congr 1; omega)

/-- Nothing else has the key of a plain literal. -/
theorem Constant.eq_of_key (hc : c.isPlain = true) (h : c'.key place' = c.key place) : c' = c := by
  -- The first number of a key tells the kind of the literal.
  cases c <;> cases hc <;> cases c' <;> simp [Constant.key] at h
  case none.refl.none => rfl
  case bool.refl.bool b b' => cases b <;> cases b' <;> simp at h ⊢
  case int.refl.int => exact congrArg int (intKey_injective h)
  case str.refl.str => exact congrArg str (textKey_injective h)
  case unicode.refl.unicode => exact congrArg unicode (textKey_injective h)
  case bytes.refl.bytes =>
    exact congrArg bytes (List.map_injective_iff.mpr (fun _ _ => UInt8.toNat_inj.mp) h.2)
  case ellipsis.refl.ellipsis => rfl

/-- Only the literal itself spells the key of a plain literal. -/
theorem Payload.Spells.eq (h : p.Spells (c.key place)) (hc : c.isPlain = true) :
    p = .constant c := by
  cases p with
  | constant c' => exact congrArg Payload.constant (Constant.eq_of_key hc (h place))
  | tuple items =>
    obtain ⟨rest, hrest⟩ := h
    cases c <;> cases hc <;> cases hrest
  | code code =>
    have hcode := Constant.eq_of_key hc h
    rw [← hcode] at hc
    cases hc

namespace Store

theorem payload?_eq (s : Store) (d : DataId) : s.payload? d = (s.get d).object?.bind (·.payload) :=
  rfl

namespace KeepsObjects

/-- Objects may be replaced by others with the same payload and the same type parameters. -/
theorem of_objects (h : ∀ d o, s.object? d = some o → ∃ o', s'.object? d = some o' ∧
    o'.payload = o.payload ∧ o'.typeParams = o.typeParams) : s.KeepsObjects s' := by
  constructor
  · intro d p hp
    obtain ⟨o, ho, hp⟩ := Option.bind_eq_some_iff.mp hp
    obtain ⟨o', ho', hpayload, -⟩ := h d o ho
    exact Option.bind_eq_some_iff.mpr ⟨o', ho', hpayload.trans hp⟩
  · intro d ms hms
    obtain ⟨o, ho, rfl⟩ := Option.map_eq_some_iff.mp hms
    obtain ⟨o', ho', -, hparams⟩ := h d o ho
    exact Option.map_eq_some_iff.mpr ⟨o', ho', hparams⟩

theorem add (s : Store) (x : Value) : s.KeepsObjects (s.add x).2 := by
  refine of_objects fun d o ho => ⟨o, ?_, rfl, rfl⟩
  unfold object? at ho ⊢
  rw [get_add]
  split
  · next hd =>
    rw [hd, fresh_add] at ho
    cases ho
  · exact ho

/-- A change that leaves the payload and the type parameters of an object as they are, and makes no
object a different kind of value. -/
theorem modify (s : Store) (d : DataId) (hf : f .unsolvable = .unsolvable)
    (h : ∀ o, ∃ o', f (.object o) = .object o' ∧ o'.payload = o.payload ∧
      o'.typeParams = o.typeParams) : s.KeepsObjects (s.modify d f) := by
  refine of_objects fun k o ho => ?_
  unfold object? at ho ⊢
  rw [get_modify hf]
  split
  · cases hx : s.get k with
    | object o₁ =>
      rw [hx] at ho
      cases ho
      obtain ⟨o', ho', hkept⟩ := h o
      exact ⟨o', by rw [ho']; rfl, hkept⟩
    | _ =>
      rw [hx] at ho
      cases ho
  · exact ⟨o, ho, rfl, rfl⟩

theorem of_values (h : s'.values = s.values) : s.KeepsObjects s' := by
  refine of_objects fun d o ho => ⟨o, ?_, rfl, rfl⟩
  unfold object? at ho ⊢
  cases d with
  | marker => exact ho
  | value i =>
    unfold get at ho ⊢
    rwa [h]

end KeepsObjects

namespace HasLiteral

/-- The variable is there. -/
theorem var_lt (h : s.HasLiteral g key d v b) : v < g.vars.size := by
  by_contra hv
  have hfirst := h.grounded.first
  rw [Graph.allBindings_eq_nil (Nat.le_of_not_lt hv)] at hfirst
  cases hfirst

/-- The value of a plain literal is the literal. -/
theorem payload_eq (h : s.HasLiteral g (c.key place) d v b) (hc : c.isPlain = true) :
    s.payload? d = some (.constant c) := by
  obtain ⟨p, hp, hkey⟩ := h.payload
  rw [hp, hkey.eq hc]

/-- Copies do not matter. -/
theorem grows (h : s.HasLiteral g key d v b) (hg : g.Grows g') (hc : g.OnlyCopies g' v) :
    s.HasLiteral g' key d v b := ⟨h.payload, h.grounded.grows hg hc⟩

theorem withStore (h : s.HasLiteral g key d v b) (hs : s.KeepsObjects s') :
    s'.HasLiteral g key d v b := by
  obtain ⟨p, hp, hkey⟩ := h.payload
  exact ⟨⟨p, hs.payload d p hp, hkey⟩, h.grounded⟩

end HasLiteral

end Store

end ValueTrace
