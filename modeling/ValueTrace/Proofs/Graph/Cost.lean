import Mathlib.Algebra.BigOperators.Group.Finset.Piecewise
import Mathlib.Algebra.BigOperators.Intervals
import ValueTrace.Proofs.Graph.AppendOnly

/-! What growth costs. An operation pays one amount after the other, and all it does to the account
of a graph is to pay. As long as nothing has been refused, what has been paid is a function of the
out-degrees. The first amount that goes over the limit is refused, and so is every later one. -/
namespace ValueTrace.Graph

/-- What a graph knows of its cost. -/
structure Account where
  ceiling : Nat
  cost : Nat
  closed : Bool
  deriving DecidableEq

def account (g : Graph) : Account := ⟨g.ceiling, g.cost, g.closed⟩

def totals (cost : Nat) : List Nat → List Nat
  | [] => []
  | a :: as => min costBound (cost + a) :: totals (min costBound (cost + a)) as

namespace Account

/-- Pay the amounts until one of them is refused. -/
def pay (x : Account) : List Nat → Option Overgrown × Account
  | [] => (none, x)
  | a :: as =>
    let cost := min costBound (x.cost + a)
    if x.closed then (some ⟨x.ceiling, x.cost⟩, x)
    else if x.ceiling < cost then (some ⟨x.ceiling, cost⟩, ⟨x.ceiling, cost, true⟩)
    else pay ⟨x.ceiling, cost, false⟩ as

variable {x x' : Account} {e : Overgrown}

theorem pay_append (as bs : List Nat) (h : x.pay as = (none, x')) :
    x.pay (as ++ bs) = x'.pay bs := by
  induction as generalizing x with
  | nil =>
    obtain ⟨-, rfl⟩ := Prod.mk.inj h
    rfl
  | cons a as ih =>
    rw [pay] at h
    rw [List.cons_append, pay]
    split_ifs at h ⊢
    · cases h
    · cases h
    · exact ih h

theorem pay_append_refused (as bs : List Nat) (h : x.pay as = (some e, x')) :
    x.pay (as ++ bs) = (some e, x') := by
  induction as generalizing x with
  | nil => cases h
  | cons a as ih =>
    rw [pay] at h
    rw [List.cons_append, pay]
    split_ifs at h ⊢
    · exact h
    · exact h
    · exact ih h

/-- A closed account refuses whatever is to be paid. -/
theorem pay_closed (h : x.closed = true) (as : List Nat) :
    x.pay as = (if as = [] then none else some ⟨x.ceiling, x.cost⟩, x) := by
  cases as with
  | nil => rfl
  | cons a as => simp [pay, h]

/-- An open account refuses the first amount that goes over the ceiling. -/
theorem pay_open (h : x.closed = false) (as : List Nat) :
    (x.pay as).1 = ((totals x.cost as).find? (x.ceiling < ·)).map (⟨x.ceiling, ·⟩) := by
  induction as generalizing x with
  | nil => rfl
  | cons a as ih =>
    rw [pay, totals, List.find?_cons]
    by_cases hover : x.ceiling < min costBound (x.cost + a)
    · simp [h, hover]
    · simp only [h, hover, Bool.false_eq_true, if_false, decide_false]
      exact ih rfl

theorem pay_accepted (h : x.pay as = (none, x')) (hx : x.closed = false) {p : Nat}
    (hp : x.cost = min costBound p) :
    x' = ⟨x.ceiling, min costBound (p + as.sum), false⟩ := by
  induction as generalizing x p with
  | nil =>
    obtain ⟨-, rfl⟩ := Prod.mk.inj h
    rw [List.sum_nil, Nat.add_zero, ← hp, ← hx]
  | cons a as ih =>
    rw [pay] at h
    simp only [hx, Bool.false_eq_true, if_false] at h
    split_ifs at h
    · cases h
    · have hcost : min costBound (x.cost + a) = min costBound (p + a) := by omega
      rw [List.sum_cons, ← Nat.add_assoc]
      exact ih h rfl hcost

theorem pay_refused (h : x.pay as = (some e, x')) (hx : x.closed = false) :
    x' = ⟨x.ceiling, e.cost, true⟩ ∧ e.limit = x.ceiling := by
  induction as generalizing x with
  | nil => cases h
  | cons a as ih =>
    rw [pay] at h
    simp only [hx, Bool.false_eq_true, if_false] at h
    split_ifs at h
    · obtain ⟨he, rfl⟩ := Prod.mk.inj h
      obtain rfl := Option.some.inj he
      exact ⟨rfl, rfl⟩
    · have hrest := ih h rfl
      exact hrest

end Account

variable {g g' : Graph} {n src dst : NodeId} {name : String}

namespace Growth

def failure? {α : Type} (x : Growth α) (g : Graph) : Option Overgrown :=
  match x g with
  | .ok _ _ => none
  | .error e _ => some e

/-- All that the growth does to the account is to pay the amounts, and it fails just where one of
them is refused. -/
def Pays {α : Type} (x : Growth α) (g : Graph) (amounts : List Nat) : Prop :=
  g.account.pay amounts = (x.failure? g, (x.after g).account)

variable {α β : Type} {x : Growth α} {f : α → Growth β} {a : α} {as bs : List Nat} {e : Overgrown}

theorem exists_ok (h : x.failure? g = none) : ∃ a, x g = .ok a (x.after g) := by
  cases hx : x g with
  | ok a g' => exact ⟨a, by rw [after_ok hx]⟩
  | error e g' => simp [failure?, hx] at h

theorem pays_of_ok (h : x g = .ok a g') :
    x.Pays g as ↔ g.account.pay as = (none, g'.account) := by
  rw [Pays, after_ok h, failure?, h]

theorem pays_of_error (h : x g = .error e g') :
    x.Pays g as ↔ g.account.pay as = (some e, g'.account) := by
  rw [Pays, after_error h, failure?, h]

theorem Pays.free (h : x g = .ok a g') (haccount : g'.account = g.account) : x.Pays g [] := by
  rw [pays_of_ok h, haccount]
  rfl

theorem Pays.bind (h : x.Pays g as) (hf : ∀ a g', x g = .ok a g' → (f a).Pays g' bs) :
    (x >>= f).Pays g (as ++ bs) := by
  cases hx : x g with
  | ok a g' =>
    rw [pays_of_ok hx] at h
    rw [Pays, Account.pay_append as bs h, hf a g' hx, after_bind_ok hx, failure?, failure?,
      bind_eq_of_ok hx]
  | error e g' =>
    rw [pays_of_error hx] at h
    have hbind : (x >>= f) g = .error e g' := by
      change EStateM.bind x f g = _
      rw [EStateM.bind, hx]
    rw [pays_of_error hbind]
    exact Account.pay_append_refused as bs h

end Growth

theorem charge_pays (amount : Nat) (g : Graph) : (charge amount).Pays g [amount] := by
  have hget : (get : Growth Graph) g = .ok g g := get_ok.mpr ⟨rfl, rfl⟩
  cases hclosed : g.closed with
  | true =>
    have hrefused : charge amount g = .error ⟨g.ceiling, g.cost⟩ g := by
      rw [charge, bind_eq_of_ok hget, hclosed]
      rfl
    rw [Growth.pays_of_error hrefused, Account.pay]
    simp [account, hclosed]
  | false =>
    let paid : Graph := { g with
      cost := min costBound (g.cost + amount)
      closed := decide (g.ceiling < min costBound (g.cost + amount)) }
    have hcharge : charge amount g =
        (if decide (g.ceiling < min costBound (g.cost + amount)) then
          throw ⟨g.ceiling, min costBound (g.cost + amount)⟩ else pure () : Growth Unit) paid := by
      rw [charge, bind_eq_of_ok hget, hclosed]
      rfl
    have hpaid : paid.account = ⟨g.ceiling, min costBound (g.cost + amount),
      decide (g.ceiling < min costBound (g.cost + amount))⟩ := rfl
    by_cases hover : g.ceiling < min costBound (g.cost + amount)
    · rw [decide_eq_true hover] at hcharge hpaid
      rw [Growth.pays_of_error hcharge, Account.pay, hpaid]
      simp [account, hclosed, hover]
    · rw [decide_eq_false hover] at hcharge hpaid
      rw [Growth.pays_of_ok hcharge, Account.pay, Account.pay, hpaid]
      simp [account, hclosed, hover]

theorem newNode_pays (g : Graph) (name : String) : (newNode name).Pays g [1] := by
  apply (charge_pays 1 g).bind
  intro _ g' _
  exact .free (modifyGet_ok.mpr rfl) rfl

/-- An edge that is there already is free. -/
theorem connect_present (h : dst ∈ (g.node src).outgoing) : connect src dst g = .ok () g := by
  have hout : (g.node src).outgoing.contains dst = true := by simpa using h
  rw [connect, bind_eq_of_ok (get_ok.mpr ⟨rfl, rfl⟩), if_pos hout]
  rfl

theorem connect_pays (h : dst ∉ (g.node src).outgoing) :
    (connect src dst).Pays g [(g.node src).outgoing.length + 1] := by
  have hout : (g.node src).outgoing.contains dst = false := by simpa using h
  have hget : (get : Growth Graph).Pays g [] := .free (get_ok.mpr ⟨rfl, rfl⟩) rfl
  apply hget.bind
  intro _ _ hg
  obtain ⟨rfl, rfl⟩ := get_ok.mp hg
  simp only [hout, Bool.false_eq_true, if_false]
  apply (charge_pays _ g).bind
  intro _ g' _
  exact .free (modify_ok.mpr rfl) rfl

def price (g : Graph) : Nat :=
  g.nodes.size + ∑ n ∈ Finset.range g.nodes.size,
    (g.node n).outgoing.length * ((g.node n).outgoing.length + 1) / 2

theorem price_congr (hsize : g'.nodes.size = g.nodes.size)
    (hout : ∀ n, (g'.node n).outgoing = (g.node n).outgoing) : g'.price = g.price := by
  simp only [price, hsize, hout]

theorem newNode_price (h : newNode name g = .ok n g') : g'.price = g.price + 1 := by
  obtain ⟨-, hnodes, -⟩ := newNode_ok h
  have hold : ∀ k ∈ Finset.range g.nodes.size,
      (g'.node k).outgoing.length * ((g'.node k).outgoing.length + 1) / 2 =
        (g.node k).outgoing.length * ((g.node k).outgoing.length + 1) / 2 := by
    intro k hk
    have hne : k ≠ g.nodes.size := Nat.ne_of_lt (Finset.mem_range.mp hk)
    simp [node_push hnodes, hne]
  have hnew : (g'.node g.nodes.size).outgoing = [] := by simp [node_push hnodes]
  have hsize : g'.nodes.size = g.nodes.size + 1 := by simp [hnodes]
  rw [price, hsize, Finset.sum_range_succ, Finset.sum_congr rfl hold, hnew, price]
  simp only [List.length_nil]
  omega

theorem connect_price (hsrc : src < g.nodes.size) (hnew : dst ∉ (g.node src).outgoing)
    (h : connect src dst g = .ok () g') :
    g'.price = g.price + ((g.node src).outgoing.length + 1) := by
  obtain ⟨-, -, hsize, hnode⟩ := connect_nodes h
  -- Only the degree of the source changes, from one triangular number to the next.
  have hterm : ∀ k ∈ Finset.range g.nodes.size,
      (g'.node k).outgoing.length * ((g'.node k).outgoing.length + 1) / 2 =
        (g.node k).outgoing.length * ((g.node k).outgoing.length + 1) / 2 +
          if k = src then (g.node src).outgoing.length + 1 else 0 := by
    intro k _
    rw [hnode, if_neg hnew]
    by_cases hk : k = src
    · subst hk
      have htriangle := Nat.triangle_succ ((g.node k).outgoing.length + 1)
      simp only [Nat.add_sub_cancel] at htriangle
      simp only [hsrc, and_self, if_true, List.length_append, List.length_singleton]
      rw [Nat.mul_comm, htriangle, Nat.mul_comm]
    · simp [hk]
  rw [price, hsize, Finset.sum_congr rfl hterm, Finset.sum_add_distrib, Finset.sum_ite_eq',
    if_pos (Finset.mem_range.mpr hsrc), price, Nat.add_assoc]

/-- Nothing has been paid, and there are no new nodes or edges. -/
structure Free (g g' : Graph) : Prop where
  account : g'.account = g.account
  size_eq : g'.nodes.size = g.nodes.size
  outgoing : ∀ n, (g'.node n).outgoing = (g.node n).outgoing

namespace Free

variable {g'' : Graph}

theorem refl (g : Graph) : g.Free g := ⟨rfl, rfl, fun _ => rfl⟩

theorem trans (h : g.Free g') (h' : g'.Free g'') : g.Free g'' where
  account := h'.account.trans h.account
  size_eq := h'.size_eq.trans h.size_eq
  outgoing n := (h'.outgoing n).trans (h.outgoing n)

theorem of_bound (h : g.Bound g') (haccount : g'.account = g.account) : g.Free g' :=
  ⟨haccount, h.size_eq, h.outgoing⟩

theorem price (h : g.Free g') : g'.price = g.price := price_congr h.size_eq h.outgoing

theorem setCondition (g : Graph) (n : NodeId) (c : Option BindingId) :
    g.Free (g.setCondition n c) := by
  refine ⟨rfl, by simp [Graph.setCondition], ?_⟩
  intro k
  have hnodes : (g.setCondition n c).nodes = g.nodes.modify n ({ · with condition := c }) := rfl
  rw [node_modify hnodes]
  split_ifs <;> rfl

theorem newVariable (g : Graph) (name : String) : g.Free (g.newVariable name).2 :=
  of_bound (.of_nodes rfl) rfl

theorem addOrigin (g : Graph) (b : BindingId) (sources : List BindingId) (n : NodeId) :
    g.Free (g.addOrigin b n sources) :=
  of_bound (addOrigin_bound sources) rfl

theorem addBinding (g : Graph) (v : VarId) (d : DataId) (sources : List BindingId) (n : NodeId) :
    g.Free (g.addBinding v d sources n).2 := by
  apply of_bound (addBinding_bound v d sources n)
  unfold Graph.addBinding
  split <;> rfl

theorem pasteBindings (g : Graph) (v : VarId) (bs : List BindingId) (n : NodeId) :
    g.Free (g.pasteBindings v bs n) := by
  induction bs generalizing g with
  | nil => exact refl g
  | cons b bs ih => exact (addBinding g v (g.dataOf b) [b] n).trans (ih _)

theorem pasteVariable (g : Graph) (dst src : VarId) (n : NodeId) :
    g.Free (g.pasteVariable dst src n) := by
  unfold Graph.pasteVariable
  split_ifs
  · exact refl g
  · exact pasteBindings g dst _ n

theorem pasteAll (g : Graph) (dst : VarId) (vs : List VarId) (n : NodeId) :
    g.Free (vs.foldl (fun g v => g.pasteVariable dst v n) g) := by
  induction vs generalizing g with
  | nil => exact refl g
  | cons v vs ih => exact (pasteVariable g dst v n).trans (ih _)

theorem mergeVariables (g : Graph) (n : NodeId) (name : String) (vs : List VarId) :
    g.Free (g.mergeVariables n name vs).2 := by
  unfold Graph.mergeVariables
  split
  · exact newVariable g name
  · exact refl g
  · exact (newVariable g name).trans (pasteAll _ _ _ n)

end Free

/-- The edges out of the old nodes are as before, and the new node is behind none of them. -/
theorem newNode_outgoing (hw : g.WellFormed) (hsrc : src < g.nodes.size)
    (h : newNode name g = .ok n g') :
    src < g'.nodes.size ∧ (g'.node src).outgoing = (g.node src).outgoing ∧
      n ∉ (g.node src).outgoing := by
  obtain ⟨rfl, hnodes, -⟩ := newNode_ok h
  refine ⟨?_, ?_, ?_⟩
  · rw [hnodes, Array.size_push]
    exact Nat.lt_succ_of_lt hsrc
  · rw [node_push hnodes, if_neg (Nat.ne_of_lt hsrc)]
  · intro hmem
    exact Nat.lt_irrefl _ (hw.outgoing src _ hmem)

theorem connectNew_pays (hw : g.WellFormed) (hsrc : src < g.nodes.size) (name : String)
    (condition : Option BindingId) : (connectNew src name condition).Pays g
      [1, (g.node src).outgoing.length + 1] := by
  apply (newNode_pays g name).bind
  intro n g₁ hn
  obtain ⟨-, hold, hnew⟩ := newNode_outgoing hw hsrc hn
  have hset : (modify (·.setCondition n condition) : Growth Unit).Pays g₁ [] :=
    .free (modify_ok.mpr rfl) rfl
  apply hset.bind
  intro _ _ hg₂
  obtain rfl := modify_ok.mp hg₂
  rw [← hold, ← (Free.setCondition g₁ n condition).outgoing src] at hnew ⊢
  apply (connect_pays hnew).bind
  intro _ g₃ _
  exact .free (pure_ok.mpr ⟨rfl, rfl⟩) rfl

theorem connectNew_price (hw : g.WellFormed) (hsrc : src < g.nodes.size)
    {condition : Option BindingId} (h : connectNew src name condition g = .ok n g') :
    g'.price = g.price + [1, (g.node src).outgoing.length + 1].sum := by
  obtain ⟨k, g₁, hn, h⟩ := bind_ok.mp h
  obtain ⟨_, _, hset, h⟩ := bind_ok.mp h
  obtain ⟨_, _, hc, h⟩ := bind_ok.mp h
  obtain ⟨rfl, rfl⟩ := pure_ok.mp h
  obtain rfl := modify_ok.mp hset
  obtain ⟨hlt, hold, hnew⟩ := newNode_outgoing hw hsrc hn
  have hfree : g₁.Free (g₁.setCondition k condition) := .setCondition g₁ k condition
  rw [← hold, ← hfree.outgoing src] at hnew ⊢
  rw [connect_price (hfree.size_eq ▸ hlt) hnew hc, hfree.price, newNode_price hn]
  simp only [List.sum_cons, List.sum_nil]
  omega

namespace Operation

/-- Why the operation fails, if it does. -/
def failure? (g : Graph) : Operation → Option Overgrown
  | node name => (newNode name).failure? g
  | edge src dst => (connect src dst).failure? g
  | connectNew src name c => (Graph.connectNew src name c).failure? g
  | _ => none

/-- The amounts that the operation has to pay. -/
def charges (g : Graph) : Operation → List Nat
  | node _ => [1]
  | edge src dst =>
    if dst ∈ (g.node src).outgoing then [] else [(g.node src).outgoing.length + 1]
  | connectNew src _ _ => [1, (g.node src).outgoing.length + 1]
  | _ => []

variable {op : Operation}

theorem pays (hw : g.WellFormed) (hop : op.Fits g) :
    g.account.pay (op.charges g) = (op.failure? g, (op.after g).account) := by
  have hfree {g' : Graph} (h : g.Free g') : g.account.pay [] = (none, g'.account) := by
    rw [h.account]
    rfl
  cases op with
  | node name => exact newNode_pays g name
  | edge src dst =>
    by_cases hout : dst ∈ (g.node src).outgoing
    · have hpays : (connect src dst).Pays g [] := .free (connect_present hout) rfl
      rw [charges, if_pos hout]
      exact hpays
    · rw [charges, if_neg hout]
      exact connect_pays hout
  | connectNew src name c => exact connectNew_pays hw hop name c
  | condition n c => exact hfree (.setCondition g n c)
  | var name => exact hfree (.newVariable g name)
  | binding v d sources n => exact hfree (.addBinding g v d sources n)
  | origin b sources n => exact hfree (.addOrigin g b sources n)
  | paste dst src n => exact hfree (.pasteVariable g dst src n)
  | merge n name vs => exact hfree (.mergeVariables g n name vs)

/-- An operation that does not fail raises the price by what it has paid. -/
theorem price_after (hw : g.WellFormed) (hop : op.Fits g) (h : op.failure? g = none) :
    (op.after g).price = g.price + (op.charges g).sum := by
  cases op with
  | node name =>
    obtain ⟨n, hn⟩ := Growth.exists_ok h
    exact newNode_price hn
  | edge src dst =>
    obtain ⟨_, hc⟩ := Growth.exists_ok h
    by_cases hout : dst ∈ (g.node src).outgoing
    · rw [charges, if_pos hout, after, Growth.after_ok (connect_present hout)]
      rfl
    · rw [charges, if_neg hout]
      exact connect_price hop.1 hout hc
  | connectNew src name c =>
    obtain ⟨n, hn⟩ := Growth.exists_ok h
    exact connectNew_price hw hop hn
  | condition n c => exact (Free.setCondition g n c).price
  | var name => exact (Free.newVariable g name).price
  | binding v d sources n => exact (Free.addBinding g v d sources n).price
  | origin b sources n => exact (Free.addOrigin g b sources n).price
  | paste dst src n => exact (Free.pasteVariable g dst src n).price
  | merge n name vs => exact (Free.mergeVariables g n name vs).price

end Operation

/-- The graphs that operations make out of an empty one with a limit, each with the first refusal
that there was on the way. -/
inductive Ran (limit : Option Nat) : Option Overgrown → Graph → Prop
  | empty : Ran limit none { limit }
  | step {refusal g} (op : Operation) : Ran limit refusal g → op.Fits g →
      Ran limit (refusal.or (op.failure? g)) (op.after g)

namespace Ran

variable {limit : Option Nat} {refusal : Option Overgrown}

theorem reached (h : Ran limit refusal g) : g.Reached := by
  induction h with
  | empty => exact .empty limit
  | step op _ hop ih => exact ih.step op hop

/-- Until the first refusal the account is open and holds the price, and from then on it is closed
with the cost that was refused. -/
theorem account (h : Ran limit refusal g) :
    (refusal = none → g.account = ⟨limit.getD costBound, min costBound g.price, false⟩) ∧
      ∀ e, refusal = some e →
        g.account = ⟨limit.getD costBound, e.cost, true⟩ ∧ e.limit = limit.getD costBound := by
  induction h with
  | empty =>
    constructor
    · intro _
      rfl
    · rintro _ ⟨⟩
  | @step refusal g op hran hop ih =>
    have hw : g.WellFormed := hran.reached.built.wellFormed
    have hpays := op.pays hw hop
    obtain ⟨hopen, hclosed⟩ := ih
    cases refusal with
    | some e =>
      obtain ⟨haccount, hlimit⟩ := hclosed e rfl
      rw [haccount, Account.pay_closed rfl] at hpays
      obtain ⟨-, hafter⟩ := Prod.mk.inj hpays
      constructor
      · rintro ⟨⟩
      · rintro _ ⟨⟩
        exact ⟨hafter.symm, hlimit⟩
    | none =>
      rw [hopen rfl] at hpays
      rw [Option.none_or]
      constructor
      · intro hok
        rw [hok] at hpays
        rw [op.price_after hw hop hok]
        exact Account.pay_accepted hpays rfl rfl
      · intro e he
        rw [he] at hpays
        exact Account.pay_refused hpays rfl

/-- The complexity governor. Until something is refused, the cost is the price of the graph as far
as costs are told apart, and an operation fails just where one of its payments leads over the
limit, with that cost. From then on the cost stays, and whatever has to be paid fails as the first
time. An edge that is there already is free all along. -/
theorem governed (h : Ran limit refusal g) :
    (refusal = none → g.cost = min costBound g.price ∧ ∀ op : Operation, op.Fits g →
      op.failure? g = ((totals g.cost (op.charges g)).find? (limit.getD costBound < ·)).map
        (⟨limit.getD costBound, ·⟩)) ∧
    (∀ e, refusal = some e → g.cost = e.cost ∧ e.limit = limit.getD costBound ∧
      ∀ op : Operation, op.Fits g → op.failure? g = if op.charges g = [] then none else some e) ∧
    ∀ src dst, dst ∈ (g.node src).outgoing → connect src dst g = .ok () g := by
  have hw : g.WellFormed := h.reached.built.wellFormed
  obtain ⟨hopen, hclosed⟩ := h.account
  refine ⟨?_, ?_, ?_⟩
  · intro hnone
    have haccount := hopen hnone
    have hcost : g.cost = min costBound g.price := congrArg Account.cost haccount
    refine ⟨hcost, ?_⟩
    intro op hop
    have hpays := op.pays hw hop
    rw [haccount] at hpays
    rw [hcost, ← Account.pay_open (x := ⟨_, _, false⟩) rfl, hpays]
  · intro e he
    obtain ⟨haccount, hlimit⟩ := hclosed e he
    refine ⟨congrArg Account.cost haccount, hlimit, ?_⟩
    intro op hop
    have hpays := op.pays hw hop
    rw [haccount, Account.pay_closed rfl] at hpays
    obtain ⟨hfailure, -⟩ := Prod.mk.inj hpays
    rw [← hfailure, ← hlimit]
  · intro src dst hout
    exact connect_present hout

end Ran

/-- A branch with one arm. The limit leaves room for the node of a second arm, but not for the edge
to it. -/
def halfBranch : Graph :=
  List.foldl Operation.after { limit := some 5 } [.node "root", .connectNew 0 "yes" none]

def cutBranch : Graph := Operation.after halfBranch (.connectNew 0 "no" none)

theorem halfBranch_governed :
    Ran (some 5) none halfBranch ∧ halfBranch.cost = 3 ∧
      halfBranch.cost = min costBound halfBranch.price ∧
      (Operation.connectNew 0 "no" none).failure? halfBranch = some ⟨5, 6⟩ ∧
      cutBranch.cost = 6 ∧ (Operation.node "late").failure? cutBranch = some ⟨5, 6⟩ ∧
      (Operation.edge 0 2).failure? cutBranch = some ⟨5, 6⟩ ∧
      connect 0 1 cutBranch = .ok () cutBranch := by
  have hroot : Ran (some 5) none (Operation.after { limit := some 5 } (.node "root")) :=
    .step (.node "root") .empty trivial
  have hran : Ran (some 5) none halfBranch := by
    apply hroot.step (.connectNew 0 "yes" none)
    change _ < _
    decide
  have hfits : (Operation.connectNew 0 "no" none).Fits halfBranch := by
    change _ < _
    decide
  obtain ⟨hcost, hfailure⟩ := hran.governed.1 rfl
  have hover : (Operation.connectNew 0 "no" none).failure? halfBranch = some ⟨5, 6⟩ := by
    rw [hfailure _ hfits]
    decide
  have hcut : Ran (some 5) (some ⟨5, 6⟩) cutBranch := by
    have hstep := hran.step _ hfits
    rwa [hover] at hstep
  obtain ⟨hfrozen, -, hrefused⟩ := hcut.governed.2.1 _ rfl
  have hnode := hrefused (.node "late") trivial
  have hedge := hrefused (.edge 0 2) ⟨by decide, by decide⟩
  refine ⟨hran, by decide, hcost, hover, hfrozen, hnode, ?_, ?_⟩
  · rw [hedge]
    decide
  · exact hcut.governed.2.2 0 1 (by decide)

end ValueTrace.Graph
