import ValueTrace.Proofs.Absorption.Operations
import ValueTrace.Proofs.Calls.Methods
import ValueTrace.Proofs.Findings.Subscripts
import ValueTrace.Proofs.Flow.Frames
import ValueTrace.Proofs.Machine.BlindLookups
import ValueTrace.Proofs.Signatures.TypeVariables
import ValueTrace.Proofs.Signatures.Views

/-!
# Items that are read without seeing what has been bound elsewhere

To read an item of a dictionary the method for that is looked up and called. The call asks for the
dictionary and the key, the item that is known under the key, and what has been put in at all. If all
of these are clear of what has been bound elsewhere, so is the item that is read.
-/

namespace ValueTrace

/-- What the read of an item under a key asks the dictionary for. -/
def Machine.itemParts (m : Machine) (n : NodeId) (r : DataId) (key : VarId) : Set VarId :=
  {v | (∃ k ∈ m.graph.visibleData key n, ∃ t, m.store.text? k = some t ∧
    m.store.member? r t = some v) ∨ m.store.typeParam? r "V" = some v}

namespace Attempt

variable {V : Vantage} {α β : Type} {x : Attempt α} {f : α → Attempt β} {Q : α → Prop}
  {R : β → Prop}

/-- The attempt does the same whether or not the bindings have been taken back. -/
def Blind (V : Vantage) (x : Attempt α) (Q : α → Prop) : Prop :=
  Analysis.Blind V x.run fun r => ∀ a, r = .ok a → Q a

namespace Blind

theorem pure {a : α} (ha : Q a) : Blind V (pure a) Q := Analysis.Blind.pure fun _ h => by
  cases h
  exact ha

theorem throw (failure : CallFailure) : Blind V (throw failure : Attempt α) Q :=
  Analysis.Blind.pure nofun

theorem bind (hx : Blind V x Q) (hf : ∀ a, Q a → Blind V (f a) R) : Blind V (x >>= f) R := by
  refine Analysis.Blind.bind hx fun r hr => ?_
  cases r with
  | ok a => exact hf a (hr a rfl)
  | error e => exact Analysis.Blind.pure nofun

theorem lift {x : Analysis α} (hx : Analysis.Blind V x Q) : Blind V (liftM x) Q :=
  hx.bind fun a ha => Analysis.Blind.pure fun _ h => by
    cases h
    exact ha

/-- What does not depend on the graph may be read from the machine. -/
theorem getRest {f : Machine → Attempt β} (hf : ∀ m g, f { m with graph := g } = f m)
    (h : ∀ m, V.Reads m → Blind V (f m) R) : Blind V (MonadState.get >>= f) R :=
  Analysis.Blind.getRest (f := fun m => (f m).run) (fun m g => congrArg ExceptT.run (hf m g)) h

end Blind

end Attempt

namespace Analysis

variable {V : Vantage} {m : Machine} {r d : DataId} {self key result func v : VarId}
  {b sb kb : BindingId} {step : Caller → Stepper}

namespace Blind

theorem typeNames (hV : V.Valid) (hv : V.ClearOf v) :
    Blind V (typeNames v V.node) fun _ => True :=
  getRest (fun _ _ => rfl) fun _ _ => bind (dataAt hV hv) fun _ _ => pure trivial

theorem describeArgs (hV : V.Valid) {vs : List VarId} (hvs : ∀ v ∈ vs, V.ClearOf v)
    (sig : Option Signature) :
    Blind V (describeArgs V.node sig { positional := vs }) fun _ => True := by
  refine bind (mapM (R := fun _ => True) fun a ha => ?_) fun _ _ =>
    bind (Q := fun _ => True) (pure trivial) fun _ _ => pure trivial
  obtain ⟨v, i⟩ := a
  have hmem : v ∈ vs := List.fst_mem_of_mem_zipIdx ha
  exact bind (typeNames hV (hvs v hmem)) fun _ _ => pure trivial

end Blind

end Analysis

/-- The dictionary and the key of a read are clear, and so is what the read asks the dictionary for. -/
structure Vantage.Readable (V : Vantage) (dict key : VarId) (r : DataId) : Prop extends V.Valid where
  clearDict : V.ClearOf dict
  clearKey : V.ClearOf key
  oldDict : dict < V.machine.graph.vars.size
  oldKey : key < V.machine.graph.vars.size
  shown : V.machine.graph.visibleData dict V.node = [r]
  parts : ∀ v ∈ V.machine.itemParts V.node r key, V.ClearOf v

/-- A call has come to its end where it began, and what it gives is clear. -/
def Vantage.Gives (V : Vantage) (done : NodeId × VarId) : Prop :=
  done.1 = V.node ∧ V.ClearOf done.2

namespace Attempt.Blind

variable {V : Vantage} {r d fd : DataId} {self key func v : VarId} {b : BindingId}
  {step : Caller → Analysis.Stepper} {args : CallArgs}

theorem unsolved (V : Vantage) :
    Blind V (do return (V.node, ← Analysis.newUnsolvable V.node)) V.Gives :=
  bind (lift (.newUnsolvable V.node)) fun _ hv => pure ⟨rfl, hv.clearOf⟩

/-- Calls that go nowhere are joined where they began. -/
theorem callEach {call : NodeId → DataId → BindingId → CallArgs → Attempt (NodeId × VarId)}
    (hV : V.Valid) (hfunc : V.ClearOf func) (hold : func < V.machine.graph.vars.size)
    (hcall : ∀ b ∈ V.machine.graph.visible func V.node,
      Blind V (call V.node (V.machine.graph.dataOf b) b args) V.Gives) :
    Blind V (Analysis.callEach call V.node func args) V.Gives := by
  refine Analysis.Blind.bind (.newVariable "return") fun result hresult => ?_
  refine .bind (.visible_old hV hfunc hold) fun bs hbs => ?_
  refine .bind (.mapM (R := fun t : BindingId × Except CallFailure (NodeId × VarId) =>
    V.Clear t.1 ∧ ∀ done, t.2 = .ok done → V.Gives done) fun b hb => ?_) fun tries htries => ?_
  · obtain ⟨rfl, hclear⟩ := hbs
    have hlt := (hV.sound.built.wellFormed.listed func b (Graph.mem_of_mem_visible hb)).1
    refine .bind (.dataOf_old hlt) fun d hd => ?_
    rw [hd]
    exact .bind (hcall b hb) fun r hr => .pure ⟨hclear b hb, hr⟩
  · extract_lets done
    have hdone : ∀ entry ∈ done, V.Clear entry.1 ∧ V.Gives entry.2 := by
      intro entry hentry
      obtain ⟨⟨b, r⟩, ht, hmatch⟩ := List.mem_filterMap.mp hentry
      cases r <;> cases hmatch
      exact ⟨(htries _ ht).1, (htries _ ht).2 _ rfl⟩
    clear_value done
    split
    · split
      · exact .pure nofun
      · refine .pure fun _ heq => ?_
        cases heq
        exact ⟨rfl, hresult.clearOf⟩
    · next hne =>
      rw [Analysis.Quiet.joinNodes (n := V.node) (by simpa using hne) fun k hk => ?_, pure_bind]
      · refine .bind (.forM fun entry hentry => ?_) fun _ _ => .pure fun _ heq => ?_
        · obtain ⟨hclear, hnode, hret⟩ := hdone entry hentry
          obtain ⟨b, after, ret⟩ := entry
          obtain rfl := hnode
          refine .bind (.visible hV hret) fun rs hrs => ?_
          refine .forM fun r hr => .bind (.dataOf r) fun d _ => .bindVar hresult d ?_ _
          simpa using ⟨hrs r hr, hclear⟩
        · cases heq
          exact ⟨rfl, hresult.clearOf⟩
      · obtain ⟨entry, hentry, rfl⟩ := List.mem_map.mp hk
        exact (hdone entry hentry).2.1

end Attempt.Blind

namespace Analysis

variable {V : Vantage} {m m₀ : Machine} {r : DataId} {obj key : VarId} {call : Caller}
  {step : Caller → Stepper} {method : String} {p : Path} {rest : List VarId}

namespace Blind

theorem callQuietly {func : VarId} {args : CallArgs}
    (hcall : Attempt.Blind V (call V.node func args) V.Gives) :
    Blind V (callQuietly call V.node func args) V.Gives := by
  refine bind hcall fun result hresult => ?_
  cases result with
  | ok done => exact pure (hresult done rfl)
  | error _ => exact bind (newVariable _) fun v hv => pure ⟨rfl, hv.clearOf⟩

end Blind

end Analysis

end ValueTrace
