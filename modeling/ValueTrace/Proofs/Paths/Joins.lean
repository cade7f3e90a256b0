import ValueTrace.Proofs.Graph.Merging
import ValueTrace.Proofs.Visibility.Regions

/-! Where two paths are joined, a slot can hold what one of them can hold at its end, unless the
node there overwrites it, and nothing else. -/
namespace ValueTrace

namespace Graph

/-- A new node has been added behind two others. -/
structure JoinedAt (n a b : NodeId) (g g' : Graph) : Prop where
  built : g'.Built
  closed : g'.Closed
  grown : g.Extends g'
  linked : g.Linked g'
  new : n = g.nodes.size
  size : g'.nodes.size = g.nodes.size + 1
  incoming : ∀ k, k ∈ (g'.node n).incoming ↔ k = a ∨ k = b
  condition : (g'.node n).condition = none

variable {g g' g'' : Graph} {n k src dst : NodeId} {v a b : VarId} {d : DataId} {x : BindingId}
  {name : String}

/-- What holds at a node without a condition, and is not bound there, comes from a node before it
that does not overwrite it. -/
theorem canHold_iff_of_incoming (hc : (g.node n).condition = none)
    (hx : (g.binding x).originAt? n = none) : g.CanHold n {x} ↔
      ∃ p ∈ (g.node n).incoming, g.CanHold p {x} ∧ ¬ g.Overwrites p x := by
  constructor
  · intro h
    have hfree : ∀ k ∈ ({n} : Set NodeId), (g.binding x).originAt? k = none := fun k hk => hk ▸ hx
    obtain ⟨q, rest, hlead, ho, hq⟩ := exists_leadsOut (Set.mem_singleton n) hfree h rfl
    obtain ⟨k, hk, hin, -⟩ := hlead.crosses (Set.mem_singleton n)
    obtain rfl := Set.mem_singleton_iff.mp hk
    have hrest : x ∈ rest := hlead.mem_rest (Set.mem_singleton k) hfree rfl
    exact ⟨q, hin, hq.mono (Set.singleton_subset_iff.mpr hrest), ho x hrest⟩
  · rintro ⟨p, hp, hold, ho⟩
    exact canHold_of_incoming hc hx hp ho hold

theorem joined {a b : NodeId} {g₁ g₂ : Graph} (hb : g.Built) (hc : g.Closed)
    (ha : a < g.nodes.size) (ha' : b < g.nodes.size) (hn : newNode name g = .ok n g₁)
    (h₁ : connect a n g₁ = .ok () g₂) (h₂ : connect b n g₂ = .ok () g') :
    JoinedAt n a b g g' := by
  have hw := hb.wellFormed
  obtain ⟨rfl, hnodes, hl⟩ := newNode_ok hn
  have hsize : g₁.nodes.size = g.nodes.size + 1 := by simp [hnodes]
  have hold (k : NodeId) (hk : k < g.nodes.size) : g₁.node k = g.node k := by
    rw [node_push hnodes, if_neg (Nat.ne_of_lt hk)]
  have hnew : g₁.node g.nodes.size = { id := Word.low32 g.nodes.size, name } := by
    rw [node_push hnodes, if_pos rfl]
  have hlt : g.nodes.size < g₁.nodes.size := hsize ▸ Nat.lt_succ_self _
  -- No old node has an edge to the new one.
  have hout (k : NodeId) (hk : k < g.nodes.size) : g.nodes.size ∉ (g₁.node k).outgoing := by
    rw [hold k hk]
    exact fun hmem => Nat.lt_irrefl _ (hw.outgoing k _ hmem)
  obtain ⟨-, -, hsize₁, hnode₁⟩ := connect_nodes h₁
  obtain ⟨hl₁, -, hcond₁, hin₁⟩ := connect_ok h₁
  obtain ⟨hl₂, hsize₂, hcond₂, hin₂⟩ := connect_ok h₂
  have hin : (g₂.node g.nodes.size).incoming = [a] := by
    rw [hin₁, if_pos ⟨rfl, hlt, hout a ha⟩, hnew]
    rfl
  have hbuilt₁ := hb.node name
  rw [Growth.after_ok hn] at hbuilt₁
  have hbuilt₂ := hbuilt₁.edge (Nat.lt_of_lt_of_le ha hl.size_le) hlt
  rw [Growth.after_ok h₁] at hbuilt₂
  have hbuilt := hbuilt₂.edge (Nat.lt_of_lt_of_le ha' (hl.trans hl₁).size_le) (hsize₁ ▸ hlt)
  rw [Growth.after_ok h₂] at hbuilt
  refine ⟨hbuilt, ((hc.newNode hn).connect h₁).connect h₂,
    ((Extends.newNode hn).connect (Nat.le_refl _) h₁).connect (Nat.le_refl _) h₂,
    (hl.trans hl₁).trans hl₂, rfl, by rw [hsize₂, hsize₁, hsize], fun k => ?_, ?_⟩
  · rw [hin₂, hin]
    split_ifs with h
    · simp
    · have hmem : g.nodes.size ∈ (g₂.node b).outgoing := by
        by_contra hmem
        exact h ⟨rfl, hsize₁ ▸ hlt, hmem⟩
      rw [hnode₁, if_neg (hout a ha)] at hmem
      dsimp only at hmem
      split_ifs at hmem with hba
      · simp [hba.1]
      · exact absurd hmem (hout b ha')
  · rw [hcond₂, hcond₁, hnew]

/-- At the new node just those bindings are visible that one of the two nodes lets through. -/
theorem JoinedAt.isVisible_iff {a b : NodeId} (h : JoinedAt n a b g g') (hw : g.WellFormed)
    (hc : g.Closed) (ha : a < g.nodes.size) (ha' : b < g.nodes.size)
    (hx : x < g.bindings.size) : g'.isVisible x n = true ↔
      ∃ p, (p = a ∨ p = b) ∧ g.isVisible x p = true ∧ ¬ g.Overwrites p x := by
  have hno : (g'.binding x).originAt? n = none := by
    rw [h.grown.kept x hx, Option.eq_none_iff_forall_ne_some]
    intro o ho
    exact absurd (hw.origin x n (by simp [ho])) (h.new ▸ Nat.lt_irrefl _)
  rw [Graph.isVisible_iff, canHold_iff_of_incoming h.condition hno]
  refine exists_congr fun p => ?_
  rw [h.incoming]
  refine and_congr_right fun hp => ?_
  have hlt : p < g.nodes.size := by
    rcases hp with rfl | rfl
    · exact ha
    · exact ha'
  rw [h.grown.overwrites_iff hw hlt hx, ← Graph.isVisible_iff,
    (h.grown.agreeOn hw hc).isVisible_eq hlt hx]

/-- A merged variable behind two nodes can hold what one of its parts can hold at one of them,
unless the node overwrites it. -/
theorem JoinedAt.merges_iff {g₁ : Graph} {i j : NodeId} (h : JoinedAt n i j g g₁)
    (hw : g.WellFormed) (hc : g.Closed) (hi : i < g.nodes.size) (hj : j < g.nodes.size) :
    Merges n a b g₁ v g' ↔ ∀ d, d ∈ g'.visibleData v n ↔
      ∃ x, (x ∈ g.allBindings a ∨ x ∈ g.allBindings b) ∧ g.dataOf x = d ∧
        ∃ p, (p = i ∨ p = j) ∧ g.isVisible x p = true ∧ ¬ g.Overwrites p x := by
  have hall (v : VarId) : g₁.allBindings v = g.allBindings v := by
    simp only [allBindings, Graph.var, h.linked.vars]
  have hdata (x : BindingId) : g₁.dataOf x = g.dataOf x := congrArg Binding.data h.linked.binding
  unfold Merges
  simp only [hall, hdata]
  refine forall_congr' fun d => iff_congr Iff.rfl ?_
  refine exists_congr fun x => and_congr_right fun hx => and_congr_right fun _ => ?_
  have hlt : x < g.bindings.size := hx.elim (fun hx => (hw.listed a x hx).1) fun hx =>
    (hw.listed b x hx).1
  exact h.isVisible_iff hw hc hi hj hlt

end Graph

namespace Path

variable {g g' : Graph} {n : NodeId} {p q existing : Path}

/-- The operands of a path are variables of the graph, and it has reached a node of it. -/
structure LiesIn (p : Path) (g : Graph) : Prop where
  node : p.node < g.nodes.size
  stack : ∀ v ∈ p.stack, v < g.vars.size

theorem mergeStacks_length (as bs vs : List VarId) (h : as.length = bs.length)
    (hm : mergeStacks g n as bs = (vs, g')) : vs.length = as.length := by
  induction as generalizing bs vs g' with
  | nil =>
    obtain ⟨rfl, -⟩ := Prod.mk.inj hm
    rfl
  | cons a as ih =>
    cases bs with
    | nil => cases h
    | cons b bs =>
      obtain ⟨rfl, -⟩ := Prod.mk.inj hm
      rw [List.length_cons, ih bs _ (Nat.succ.inj h) rfl, List.length_cons]

/-- A merged operand can hold at the node what either of its parts can hold there. -/
theorem mergeStacks_merges (hb : g.Built) (hc : g.Closed) (hn : n < g.nodes.size)
    {as bs vs : List VarId} (has : ∀ v ∈ as, v < g.vars.size) (hbs : ∀ v ∈ bs, v < g.vars.size)
    (hm : mergeStacks g n as bs = (vs, g')) :
    Graph.GrownAt n g g' ∧ (∀ v ∈ vs, v < g'.vars.size) ∧
      ∀ (i : Nat) a b v, as[i]? = some a → bs[i]? = some b → vs[i]? = some v →
        Graph.Merges n a b g v g' := by
  induction as generalizing bs vs g' with
  | nil =>
    obtain ⟨rfl, rfl⟩ := Prod.mk.inj hm
    exact ⟨.refl hb hc, by simp, fun i a b v ha => by simp at ha⟩
  | cons a as ih =>
    cases bs with
    | nil =>
      obtain ⟨rfl, rfl⟩ := Prod.mk.inj hm
      exact ⟨.refl hb hc, by simp, fun i a b v _ hb => by simp at hb⟩
    | cons b bs =>
      have hw := hb.wellFormed
      have ha := has a List.mem_cons_self
      have hb' := hbs b List.mem_cons_self
      obtain ⟨hrest, hvars, hslots⟩ := ih (fun v hv => has v (List.mem_cons_of_mem a hv))
        (fun v hv => hbs v (List.mem_cons_of_mem b hv)) rfl
      have hn' := Nat.lt_of_lt_of_le hn hrest.grown.nodes_le
      obtain ⟨rfl, rfl⟩ := Prod.mk.inj hm
      obtain ⟨hlast, hv, hslot⟩ := Graph.mergeVariables_pair hrest.built hrest.closed hn'
        (Nat.lt_of_lt_of_le ha hrest.grown.vars_le) (Nat.lt_of_lt_of_le hb' hrest.grown.vars_le)
        (Prod.mk.eta (p := (mergeStacks g n as bs).2.mergeVariables n "stack" [a, b])).symm
      refine ⟨hrest.trans hlast, List.forall_mem_cons.mpr ⟨hv, fun v hv => ?_⟩, ?_⟩
      · exact Nat.lt_of_lt_of_le (hvars v hv) hlast.grown.vars_le
      · rintro (_ | i) a' b' v hia hib hiv
        · obtain rfl := Option.some.inj hia
          obtain rfl := Option.some.inj hib
          obtain rfl := Option.some.inj hiv
          exact hrest.merges_of_grown hw hc hn ha hb' hslot
        · have hv := hvars v (List.mem_of_getElem? hiv)
          exact hlast.merges_of_old hrest.built hrest.closed hn' hv (hslots i a' b' v hia hib hiv)

theorem checkCompatible_ok {index : Nat} (hlength : p.stack.length = q.stack.length)
    (hregions : p.regions = q.regions) : p.checkCompatible q index = .ok () := by
  unfold checkCompatible
  rw [if_neg (not_not.mpr hlength), if_neg (not_not.mpr hregions)]

theorem checkCompatible_error (index : Nat)
    (h : p.stack.length ≠ q.stack.length ∨ p.regions ≠ q.regions) :
    ∃ reason, p.checkCompatible q index = .error (.stateMismatch index reason) := by
  unfold checkCompatible
  by_cases hlength : p.stack.length = q.stack.length
  · rw [if_neg (not_not.mpr hlength), if_pos (h.resolve_left (not_not.mpr hlength))]
    exact ⟨_, rfl⟩
  · rw [if_pos hlength]
    exact ⟨_, rfl⟩

/-- A path that joins another one has reached a new node behind both, where it has their merged
operands. -/
theorem joinTo_ok (hb : g.Built) (hc : g.Closed) (hp : p.LiesIn g) (he : existing.LiesIn g)
    (h : p.joinTo existing g = .ok q g') :
    ∃ g₁, Graph.JoinedAt q.node existing.node p.node g g₁ ∧
      mergeStacks g₁ q.node existing.stack p.stack = (q.stack, g') ∧
      q.regions = existing.regions := by
  unfold joinTo at h
  obtain ⟨n, g₁, hn, h⟩ := bind_ok.mp h
  obtain ⟨_, g₂, h₁, h⟩ := bind_ok.mp h
  obtain ⟨_, g₃, h₂, h⟩ := bind_ok.mp h
  obtain ⟨stack, g₄, hm, h⟩ := bind_ok.mp h
  obtain ⟨rfl, rfl⟩ := pure_ok.mp h
  exact ⟨g₃, Graph.joined hb hc he.node hp.node hn h₁ h₂, modifyGet_ok.mp hm, rfl⟩

/-- Joining paths loses and invents nothing. The result has their height and regions, and a slot can
hold what one of the two bindings can hold at the end of one of the paths, unless the node there
overwrites it. Paths that differ in height or in their regions are refused, and the graph stays as
it is. -/
theorem merge_visibleData (hb : g.Built) (hc : g.Closed) (hp : p.LiesIn g)
    (he : existing.LiesIn g) (index : Nat) :
    (existing.stack.length = p.stack.length → existing.regions = p.regions →
      ∀ q g', p.merge existing index g = .ok q g' →
        q.stack.length = existing.stack.length ∧ q.regions = existing.regions ∧
        ∀ (i : Nat) a b v, existing.stack[i]? = some a → p.stack[i]? = some b →
          q.stack[i]? = some v → ∀ d, d ∈ g'.visibleData v q.node ↔
            ∃ x, (x ∈ g.allBindings a ∨ x ∈ g.allBindings b) ∧ g.dataOf x = d ∧
              ∃ n, (n = existing.node ∨ n = p.node) ∧ g.isVisible x n = true ∧
                ¬ g.Overwrites n x) ∧
    (existing.stack.length ≠ p.stack.length ∨ existing.regions ≠ p.regions →
      ∃ reason, p.merge existing index g = .error (.stateMismatch index reason) g) := by
  have hw := hb.wellFormed
  constructor
  · intro hlength hregions q g' h
    unfold merge at h
    rw [checkCompatible_ok hlength hregions] at h
    obtain ⟨_, _, hcheck, h⟩ := bind_ok.mp h
    obtain ⟨-, rfl⟩ := ofExcept_ok.mp hcheck
    have hjoin : p.joinTo existing g = .ok q g' := by
      unfold Graph.Growth.run at h
      cases hj : p.joinTo existing g <;> rw [hj] at h <;> cases h
      rfl
    obtain ⟨g₁, hjoined, hm, hsame⟩ := joinTo_ok hb hc hp he hjoin
    have hn : q.node < g₁.nodes.size := by
      rw [hjoined.new, hjoined.size]
      exact Nat.lt_succ_self _
    have hvars {v : VarId} (hv : v < g.vars.size) : v < g₁.vars.size :=
      Nat.lt_of_lt_of_le hv hjoined.grown.vars_le
    obtain ⟨-, -, hslots⟩ := mergeStacks_merges hjoined.built hjoined.closed hn
      (fun v hv => hvars (he.stack v hv)) (fun v hv => hvars (hp.stack v hv)) hm
    refine ⟨mergeStacks_length _ _ _ hlength hm, hsame, fun i a b v hia hib hiv => ?_⟩
    exact (hjoined.merges_iff hw hc he.node hp.node).mp (hslots i a b v hia hib hiv)
  · intro hdiffer
    obtain ⟨reason, hcheck⟩ := checkCompatible_error index hdiffer
    refine ⟨reason, ?_⟩
    unfold merge
    rw [hcheck]
    rfl

/-- On one way `x` is one, on the other one it is two. There `z` is bound as well, and `y` was bound
before. -/
def parted : Graph :=
  let g := (Graph.newNode "a").after {}
  let g := (Graph.connectNew 0 "a" none).after ((Graph.connectNew 0 "a" none).after g)
  let g := (((g.newVariable "x").2.newVariable "y").2.newVariable "z").2
  let g := ((g.addBinding 0 (.value 1) [] 1).2.addBinding 0 (.value 2) [] 2).2
  ((g.addBinding 1 (.value 1) [] 0).2.addBinding 2 (.value 3) [] 2).2

def oneWay : Path := { node := 1, stack := [0, 1] }

def otherWay : Path := { node := 2, stack := [0, 2] }

private theorem parted_built : parted.Built := by
  have hfirst := (Graph.Built.empty none).node "a"
  have hsecond := hfirst.connectNew (show 0 < _ by decide) "a" none
  have hnodes := hsecond.connectNew (show 0 < _ by decide) "a" none
  have hnames := ((hnodes.var "x").var "y").var "z"
  have hx := (hnames.binding (.value 1) [] (v := 0) (n := 1) (by decide) (by decide)).binding
    (.value 2) [] (v := 0) (n := 2) (by decide) (by decide)
  exact (hx.binding (.value 1) [] (by decide) (by decide)).binding (.value 3) [] (by decide)
    (by decide)

/-- Where the ways meet, the upper slot can hold what `x` is on either, and the lower one what `y`
and `z` are. -/
theorem parted_merge_visibleData : parted.Built ∧ parted.Closed ∧ otherWay.LiesIn parted ∧
    oneWay.LiesIn parted ∧ ∃ q g' upper lower, otherWay.merge oneWay 7 parted = .ok q g' ∧
      q.stack[0]? = some upper ∧ q.stack[1]? = some lower ∧
      .value 1 ∈ g'.visibleData upper q.node ∧ .value 2 ∈ g'.visibleData upper q.node ∧
      .value 1 ∈ g'.visibleData lower q.node ∧ .value 3 ∈ g'.visibleData lower q.node ∧
      .value 2 ∉ g'.visibleData lower q.node := by
  have hclosed : parted.Closed := ⟨by decide, by decide⟩
  have hother : otherWay.LiesIn parted := ⟨by decide, by decide⟩
  have hone : oneWay.LiesIn parted := ⟨by decide, by decide⟩
  have hmerge := (merge_visibleData parted_built hclosed hother hone 7).1 rfl rfl _ _ rfl
  obtain ⟨-, -, hslots⟩ := hmerge
  have hupper := hslots 0 _ _ _ rfl rfl rfl
  have hlower := hslots 1 _ _ _ rfl rfl rfl
  refine ⟨parted_built, hclosed, hother, hone, _, _, _, _, rfl, rfl, rfl, ?_, ?_, ?_, ?_, ?_⟩
  · exact (hupper _).mpr ⟨0, by decide, rfl, 1, .inl rfl, by decide +kernel, by decide⟩
  · exact (hupper _).mpr ⟨1, by decide, rfl, 2, .inr rfl, by decide +kernel, by decide⟩
  · exact (hlower _).mpr ⟨2, by decide, rfl, 1, .inl rfl, by decide +kernel, by decide⟩
  · exact (hlower _).mpr ⟨3, by decide, rfl, 2, .inr rfl, by decide +kernel, by decide⟩
  · intro h
    obtain ⟨x, hx, hdata, -⟩ := (hlower _).mp h
    have hfree : ∀ x ∈ parted.allBindings 1 ++ parted.allBindings 2,
        parted.dataOf x ≠ .value 2 := by decide
    exact hfree x (List.mem_append.mpr hx) hdata

end Path

end ValueTrace
