import ValueTrace.Proofs.Graph.WellFormed
import ValueTrace.Proofs.Paths.Loops

/-! What the two sides of a branch see of the variable that is tested: each of them sees just those
of its values that were visible before and agree with the side. -/
namespace ValueTrace
namespace Graph

variable {g g' : Graph} {n : NodeId} {parent : Option BindingId} {goals : Set BindingId}
  {agreeing : List BindingId} {total : Nat} {a b c : BindingId} {v : VarId}

/-- The condition of a node is asked for whether it is a goal or not. -/
theorem canHold_insert_condition (hc : (g.node n).condition = some c) :
    g.CanHold n (insert c goals) ↔ g.CanHold n goals := by
  constructor
  · exact fun h => h.mono (Set.subset_insert c goals)
  · intro h
    obtain ⟨choice, hg⟩ := canHold_iff_holdsBy.mp h
    refine canHold_iff_holdsBy.mpr ⟨choice, hg.mono ?_⟩
    rintro b (rfl | hb)
    · exact .condition hc
    · exact .goal hb

theorem CanHold.apart (h : g.CanHold n goals) (ha : a ∈ goals) (hb : b ∈ goals)
    (hv : (g.binding a).var = (g.binding b).var) : a = b := by
  obtain ⟨choice, hs, _⟩ := canHold_iff_holdsBy.mp h
  exact hs.apart a b (.goal ha) (.goal hb) hv

/-- A graph that is built has grown, and nothing has been added but markers, each of them alone with
its variable. -/
structure AddsMarkers (g g' : Graph) : Prop where
  built : g'.Built
  grown : g.Extends g'
  sole : ∀ c, g.bindings.size ≤ c → c < g'.bindings.size → g'.Sole c

theorem AddsMarkers.trans {g'' : Graph} (h : g.AddsMarkers g') (h' : g'.AddsMarkers g'') :
    g.AddsMarkers g'' where
  built := h'.built
  grown := h.grown.trans h'.grown
  sole := by
    intro c hc hlt
    rcases Nat.lt_or_ge c g'.bindings.size with hold | hnew
    · exact h'.grown.sole h.built.wellFormed hold (h.sole c hc hold)
    · exact h'.sole c hnew hlt

theorem AddsMarkers.keepsMarkers {g'' : Graph} (h : g.AddsMarkers g') (h' : g'.Extends g'') :
    g.KeepsMarkers g' g'' := by
  intro c hc hlt
  exact ⟨h'.kept c hlt, h'.sole h.built.wellFormed hlt (h.sole c hc hlt)⟩

/-- The markers of a side are bound to a new variable, one after another. -/
private theorem mark_grows {cond : Condition} (hb : g.Built) (hb' : g'.Built) (hg : g.Extends g')
    (hv : g.vars.size ≤ v) (hv' : v < g'.vars.size) (hn : n < g'.nodes.size) :
    (agreeing.foldl (mark v n parent) (cond, g')).2.Built ∧
      g.Extends (agreeing.foldl (mark v n parent) (cond, g')).2 := by
  induction agreeing generalizing g' cond with
  | nil => exact ⟨hb', hg⟩
  | cons b bs ih =>
    apply ih (hb'.binding .marker (b :: parent.toList) hv' hn)
    · exact hg.addBinding hb.wellFormed hb'.wellFormed hv ..
    · rwa [addBinding_vars_size]
    · rwa [(addBinding_bound v .marker (b :: parent.toList) n).size_eq]

theorem Built.conditionOf (hb : g.Built) (hn : n < g.nodes.size) (parent : Option BindingId)
    (agreeing : List BindingId) (total : Nat) :
    g.AddsMarkers (g.conditionOf n parent agreeing total).2 := by
  have hnone (h : (g.conditionOf n parent agreeing total).2 = g) :
      g.AddsMarkers (g.conditionOf n parent agreeing total).2 := by
    rw [h]
    exact ⟨hb, .refl g, fun c hc hlt => absurd hlt (Nat.not_lt.mpr hc)⟩
  rcases g.conditionOf_cases n parent agreeing total with
    ⟨_, he⟩ | ⟨_, _, he⟩ | ⟨hne, hl, g', he, _, _, hsize, _⟩
  · exact hnone (congrArg Prod.snd he)
  · exact hnone (congrArg Prod.snd he)
  · have hgrown : g'.Built ∧ g.Extends g' := by
      rw [conditionOf_eq_foldl hne hl] at he
      have hsnd : (agreeing.foldl (mark g.vars.size n parent) _).2 = g' := congrArg Prod.snd he
      rw [← hsnd]
      exact mark_grows hb (hb.var "condition") ((Extends.refl g).newVariable "condition")
        (Nat.le_refl _) (by simp [newVariable]) hn
    rw [he]
    refine ⟨hgrown.1, hgrown.2, fun c hc hlt => ?_⟩
    obtain rfl : c = g.bindings.size := by
      have : c < g.bindings.size + 1 := hsize ▸ hlt
      omega
    exact hgrown.2.sole_new hb.wellFormed hsize

end Graph

namespace Store

variable {s : Store} {g g' g₂ g₃ : Graph} {p q : Path} {n : NodeId} {v : VarId} {side : Bool}
  {x : BindingId} {parent : Option BindingId}

theorem split_addsMarkers (s : Store) (hb : g.Built) (hn : n < g.nodes.size)
    (parent : Option BindingId) (v : VarId) :
    g.AddsMarkers (s.split g n parent v).2.2 := by
  unfold split
  dsimp only
  split_ifs
  · exact ⟨hb, .refl g, fun c hc hlt => absurd hlt (Nat.not_lt.mpr hc)⟩
  · have hyes := hb.conditionOf hn parent
      ((g.visible v n).filter fun b => s.compatibleWith g (g.dataOf b) true) (g.visible v n).length
    exact hyes.trans (hyes.built.conditionOf (Nat.lt_of_lt_of_le hn hyes.grown.nodes_le) ..)

/-- Every value agrees with a side. -/
theorem compatibleWith_or (s : Store) (g : Graph) (d : DataId) :
    s.compatibleWith g d true = true ∨ s.compatibleWith g d false = true := by
  unfold compatibleWith
  split
  · split
    · simp
    · rename_i items _
      cases items <;> simp
    · simp
    · split_ifs <;> simp
  all_goals simp

theorem mem_agreeing : x ∈ s.agreeing g n v side ↔
    x ∈ g.visible v n ∧ s.compatibleWith g (g.dataOf x) side = true := by
  unfold agreeing
  rw [List.mem_filter]

/-- If as many agree as are visible then all do. -/
private theorem agrees_of_length (h : (s.agreeing g n v side).length = (g.visible v n).length)
    (hx : x ∈ g.visible v n) : s.compatibleWith g (g.dataOf x) side = true :=
  List.filter_eq_self.mp (List.filter_sublist.eq_of_length h) x hx

/-- Of the values of the tested variable a side asks for the value itself, which has to agree. -/
theorem canHold_asks_iff (hw : g.WellFormed) (hx : x ∈ g.allBindings v)
    (hc : (g.node n).condition = parent) :
    (∃ l ∈ s.asks g n parent v side, g.CanHold n {a | a ∈ x :: l}) ↔
      g.isVisible x n = true ∧ s.compatibleWith g (g.dataOf x) side = true := by
  have hvisible : x ∈ g.visible v n ↔ g.isVisible x n = true := by
    rw [Graph.visible_eq_filter, List.mem_filter]
    exact and_iff_right hx
  have hparent (goals : List BindingId) :
      g.CanHold n {a | a ∈ goals ++ parent.toList} ↔ g.CanHold n {a | a ∈ goals} := by
    cases parent with
    | none => simp
    | some c =>
      have hset : {a | a ∈ goals ++ Option.toList (some c)} = insert c {a | a ∈ goals} := by
        ext a
        simp [or_comm]
      rw [hset, Graph.canHold_insert_condition hc]
  have hself : g.CanHold n {a | a ∈ [x]} ↔ g.isVisible x n = true := by
    rw [Graph.isVisible_iff]
    simp
  unfold asks
  dsimp only
  split_ifs with hall
  · constructor
    · rintro ⟨l, hl, hold⟩
      obtain rfl := List.mem_singleton.mp hl
      have hv := hself.mp ((hparent [x]).mp hold)
      exact ⟨hv, agrees_of_length hall (hvisible.mpr hv)⟩
    · rintro ⟨hv, -⟩
      exact ⟨_, List.mem_singleton_self _, (hparent [x]).mpr (hself.mpr hv)⟩
  · constructor
    · rintro ⟨l, hl, hold⟩
      obtain ⟨b, hb, rfl⟩ := List.mem_map.mp hl
      obtain ⟨hbv, hagrees⟩ := mem_agreeing.mp hb
      -- Both belong to the tested variable, so the one that agrees can only be the value itself.
      have hb : b ∈ g.allBindings v := by
        rw [Graph.visible_eq_filter] at hbv
        exact (List.mem_filter.mp hbv).1
      have hvar : (g.binding x).var = (g.binding b).var :=
        (hw.listed v x hx).2.trans (hw.listed v b hb).2.symm
      obtain rfl : x = b := hold.apart (by simp) (by simp) hvar
      exact ⟨hvisible.mp hbv, hagrees⟩
    · rintro ⟨hv, hagrees⟩
      refine ⟨_, List.mem_map_of_mem (mem_agreeing.mpr ⟨hvisible.mpr hv, hagrees⟩), ?_⟩
      apply (hparent [x, x]).mpr
      simpa using hself.mpr hv

def enterSide (p : Path) (c : Condition) : Graph.Growth (Option Path) := do
  if c = .unsatisfiable then return none
  return some (← (p.restrict c).forward)

/-- Both sides of a branch on a variable move on. -/
def fork (s : Store) (p : Path) (v : VarId) : Graph.Growth (Bool → Option Path) := do
  let (yes, no) ← modifyGet fun g =>
    let (yes, no, g) := s.split g p.node p.condition v
    ((yes, no), g)
  let taken ← enterSide p yes
  let other ← enterSide p no
  return fun side => if side then taken else other

theorem enterSide_ok {c : Condition} {r : Option Path} (h : enterSide p c g = .ok r g') :
    c = .unsatisfiable ∧ r = none ∧ g' = g ∨
      c ≠ .unsatisfiable ∧ ∃ q, r = some q ∧ (p.restrict c).forward g = .ok q g' := by
  unfold enterSide at h
  by_cases hc : c = .unsatisfiable
  · rw [if_pos hc] at h
    obtain ⟨rfl, rfl⟩ := pure_ok.mp h
    exact .inl ⟨hc, rfl, rfl⟩
  · rw [if_neg hc] at h
    obtain ⟨q, _, hq, h⟩ := bind_ok.mp h
    obtain ⟨rfl, rfl⟩ := pure_ok.mp h
    exact .inr ⟨hc, q, rfl, hq⟩

theorem fork_ok {sides : Bool → Option Path} (h : s.fork p v g = .ok sides g') :
    ∃ g₂, enterSide p (s.sideOf g p.node p.condition v true)
          (s.split g p.node p.condition v).2.2 = .ok (sides true) g₂ ∧
      enterSide p (s.sideOf g p.node p.condition v false) g₂ = .ok (sides false) g' := by
  unfold fork at h
  obtain ⟨⟨yes, no⟩, g₁, hsplit, h⟩ := bind_ok.mp h
  obtain ⟨hsides, rfl⟩ := Prod.mk.inj (modifyGet_ok.mp hsplit)
  obtain ⟨rfl, rfl⟩ := Prod.mk.inj hsides
  obtain ⟨taken, g₂, htaken, h⟩ := bind_ok.mp h
  obtain ⟨other, g₃, hother, h⟩ := bind_ok.mp h
  obtain ⟨rfl, rfl⟩ := pure_ok.mp h
  exact ⟨g₂, htaken, hother⟩

theorem restrict_node (p : Path) (c : Condition) : (p.restrict c).node = p.node := by
  cases c <;> rfl

/-- A path that moves on extends the graph by its new node, whose only edge comes from the old
one. -/
theorem forward_extends (hb : g.Built) (hn : p.node < g.nodes.size)
    (h : p.forward g = .ok q g') :
    g'.Built ∧ g.Extends g' ∧ q.node = g.nodes.size ∧ q.node < g'.nodes.size ∧
      q.condition = p.condition ∧ (g'.node q.node).incoming = [p.node] ∧
      (g'.node q.node).condition = p.condition ∧ ∀ w, (g'.node q.node).assigns w = false := by
  obtain ⟨rfl, -, hsize⟩ := Graph.forward_ok h
  unfold Path.forward at h
  obtain ⟨_, _, hget, h⟩ := bind_ok.mp h
  obtain ⟨rfl, rfl⟩ := get_ok.mp hget
  obtain ⟨k, g₁, hk, h⟩ := bind_ok.mp h
  obtain ⟨hid, rfl⟩ := pure_ok.mp h
  obtain rfl : k = g.nodes.size := congrArg Path.node hid
  obtain ⟨hext, hin, hcond, hassigns⟩ := Graph.connectNew_extends hb.wellFormed hk
  have hbuilt := hb.connectNew hn (g.node p.node).name p.condition
  rw [Graph.Growth.after_ok hk] at hbuilt
  exact ⟨hbuilt, hext, rfl, hsize ▸ Nat.lt_succ_self _, rfl, hin, hcond, hassigns⟩

theorem enterSide_extends {c : Condition} {r : Option Path} (hb : g.Built)
    (hn : p.node < g.nodes.size) (h : enterSide p c g = .ok r g') : g'.Built ∧ g.Extends g' := by
  rcases enterSide_ok h with ⟨-, -, rfl⟩ | ⟨-, q, -, hq⟩
  · exact ⟨hb, .refl g'⟩
  · rw [← restrict_node p c] at hn
    obtain ⟨hb', hext, -⟩ := forward_extends hb hn hq
    exact ⟨hb', hext⟩

/-- Each side moves on in a graph with the markers of both, and the other side adds to it. -/
theorem fork_extends {sides : Bool → Option Path} (hb : g.Built) (hn : p.node < g.nodes.size)
    (h : s.fork p v g = .ok sides g') (side : Bool) :
    ∃ g₂ g₃, (s.split g p.node p.condition v).2.2.Extends g₂ ∧ g₂.Built ∧
      enterSide p (s.sideOf g p.node p.condition v side) g₂ = .ok (sides side) g₃ ∧
      g₃.Extends g' := by
  obtain ⟨g₂, htrue, hfalse⟩ := fork_ok h
  have hmarkers := s.split_addsMarkers hb hn p.condition v
  have hn₁ := Nat.lt_of_lt_of_le hn hmarkers.grown.nodes_le
  obtain ⟨hb₂, h₂⟩ := enterSide_extends hmarkers.built hn₁ htrue
  obtain ⟨-, h₃⟩ := enterSide_extends hb₂ (Nat.lt_of_lt_of_le hn₁ h₂.nodes_le) hfalse
  cases side with
  | true => exact ⟨_, g₂, .refl _, hmarkers.built, htrue, h₃⟩
  | false => exact ⟨g₂, g', h₂, hb₂, hfalse, .refl g'⟩

/-- The condition of a side is a binding of the graph. -/
private theorem condition_lt (hclosed : g.Closed) (hc : (g.node p.node).condition = p.condition)
    (hgrown : g.Extends (s.split g p.node p.condition v).2.2) {c : BindingId}
    (h : (p.restrict (s.sideOf g p.node p.condition v side)).condition = some c) :
    c < (s.split g p.node p.condition v).2.2.bindings.size := by
  have hold (h : p.condition = some c) : c < (s.split g p.node p.condition v).2.2.bindings.size :=
    Nat.lt_of_lt_of_le (hclosed.condition (hc.trans h)) hgrown.bindings_le
  rcases s.sideOf_cases g p.node p.condition v side with
    ⟨he, _⟩ | ⟨he, _⟩ | ⟨_, d, he, _, sets, horigins, _⟩
  · rw [he] at h
    exact hold h
  · rw [he] at h
    exact hold h
  · rw [he] at h
    obtain rfl : d = c := Option.some.inj h
    by_contra hge
    rw [Graph.binding, Array.getElem?_eq_none (Nat.le_of_not_lt hge)] at horigins
    cases horigins

/-- What a side asks for was there before the branch. -/
private theorem asks_lt (hw : g.WellFormed) (hclosed : g.Closed)
    (hc : (g.node n).condition = parent) {l : List BindingId} (hl : l ∈ s.asks g n parent v side)
    {a : BindingId} (ha : a ∈ l) : a < g.bindings.size := by
  have hparent (h : a ∈ parent.toList) : a < g.bindings.size :=
    hclosed.condition (hc.trans (Option.mem_toList.mp h))
  unfold asks at hl
  dsimp only at hl
  split_ifs at hl
  · obtain rfl := List.mem_singleton.mp hl
    exact hparent ha
  · obtain ⟨b, hb, rfl⟩ := List.mem_map.mp hl
    rcases List.mem_cons.mp ha with rfl | ha
    · have hv := (mem_agreeing.mp hb).1
      rw [Graph.visible_eq_filter] at hv
      exact (hw.listed v a (List.mem_filter.mp hv).1).1
    · exact hparent ha

/-- Behind a branch a value of the tested variable is visible just where it was visible before and
agrees with the side, however the graph has grown elsewhere. -/
theorem isVisible_side (hb : g.Built) (hclosed : g.Closed) (hn : p.node < g.nodes.size)
    (hc : (g.node p.node).condition = p.condition)
    (hparent : ∀ c, p.condition = some c → ¬ g.Overwrites p.node c)
    (hv : (g.node p.node).assigns v = false ∨
      ∀ x ∈ g.visible v p.node, ((g.binding x).originAt? p.node).isSome)
    (hside : s.sideOf g p.node p.condition v side ≠ .unsatisfiable)
    (h₂ : (s.split g p.node p.condition v).2.2.Extends g₂) (hb₂ : g₂.Built)
    (hq : (p.restrict (s.sideOf g p.node p.condition v side)).forward g₂ = .ok q g₃)
    (h₃ : g₃.Extends g') (hx : x ∈ g.allBindings v) :
    g'.isVisible x q.node = true ↔
      g.isVisible x p.node = true ∧ s.compatibleWith g (g.dataOf x) side = true := by
  have hw := hb.wellFormed
  have hmarkers := s.split_addsMarkers hb hn p.condition v
  have hn₂ : p.node < g₂.nodes.size :=
    Nat.lt_of_lt_of_le hn (hmarkers.grown.trans h₂).nodes_le
  obtain ⟨hb₃, h₂₃, hnode, hlt, hcondition, hin, hcond, hassigns⟩ :=
    forward_extends hb₂ ((restrict_node p _).symm ▸ hn₂) hq
  rw [restrict_node] at hin
  have hgrown : g.Extends g' := ((hmarkers.grown.trans h₂).trans h₂₃).trans h₃
  have hkept := hmarkers.keepsMarkers ((h₂.trans h₂₃).trans h₃)
  have hold : ∀ a ∈ x :: q.condition.toList,
      a < (s.split g p.node p.condition v).2.2.bindings.size := by
    intro a ha
    rcases List.mem_cons.mp ha with rfl | ha
    · exact Nat.lt_of_lt_of_le (hw.listed v a hx).1 hmarkers.grown.bindings_le
    · rw [hcondition] at ha
      exact condition_lt hclosed hc hmarkers.grown (Option.mem_toList.mp ha)
  have hunder : g'.Under {q.node} q.condition x := by
    refine ⟨fun k hk => ?_, fun k hk a ha => ?_, fun k hk a ha => ?_⟩
    · rw [hk, h₃.condition _ hlt, hcond, hcondition]
    · rw [hk, ((h₂.trans h₂₃).trans h₃).kept a (hold a ha), Option.eq_none_iff_forall_ne_some]
      intro o ho
      have hbefore := hmarkers.built.wellFormed.origin a q.node (by simp [ho])
      exact absurd (Nat.lt_of_lt_of_le hbefore h₂.nodes_le) (hnode ▸ Nat.lt_irrefl _)
    · have hvar := hmarkers.built.wellFormed.var a (hold a ha)
      rw [hk, ((h₂.trans h₂₃).trans h₃).kept a (hold a ha),
        h₃.assigns _ hlt _ (Nat.lt_of_lt_of_le hvar (h₂.trans h₂₃).vars_le), hassigns]
  have hentered : g'.EnteredFrom p.node {q.node} := by
    intro k hk r hr
    rw [hk, h₃.incoming _ hlt, hin] at hr
    exact .inr (List.mem_singleton.mp hr)
  have hreached : g'.ReachedIn {q.node} p.node q.node := by
    refine .enter ?_ rfl
    rw [h₃.incoming _ hlt, hin]
    exact List.mem_singleton_self _
  have hasks := asksFor_side hside hkept x
  rw [← hcondition] at hasks
  have hsame : (∃ l ∈ s.asks g p.node p.condition v side, g'.CanHold p.node {a | a ∈ x :: l}) ↔
      ∃ l ∈ s.asks g p.node p.condition v side, g.CanHold p.node {a | a ∈ x :: l} := by
    refine exists_congr fun l => and_congr_right fun hl => ?_
    refine (hgrown.agreeOn hw hclosed).canHold_iff hn fun a ha => ?_
    rcases List.mem_cons.mp ha with rfl | ha
    · exact (hw.listed v a hx).1
    · exact asks_lt hw hclosed hc hl ha
  rw [hunder.isVisible_iff hentered hreached, hasks, hsame, canHold_asks_iff hw hx hc]
  refine and_iff_left_of_imp fun hvisible a ha => ?_
  rcases List.mem_cons.mp ha with rfl | ha
  · rw [hgrown.overwrites_iff hw hn (hw.listed v a hx).1]
    rintro ⟨hassigned, horigin⟩
    rw [(hw.listed v a hx).2] at hassigned
    rcases hv with hv | hv
    · rw [hv] at hassigned
      cases hassigned
    · have hmem : a ∈ g.visible v p.node := by
        rw [Graph.visible_eq_filter]
        exact List.mem_filter.mpr ⟨hx, hvisible.1⟩
      simpa [horigin] using hv a hmem
  · rw [hcondition] at ha
    refine not_overwrites_side hside hkept (fun c hpc => ?_) a (Option.mem_toList.mp ha)
    have hclt := hclosed.condition (hc.trans hpc)
    rw [hgrown.overwrites_iff hw hn hclt]
    exact hparent c hpc

/-- A branch splits what is visible of the tested variable exactly: each side that goes on sees just
the values that agree with it, no value is lost on both, and a side ends only if none agrees. The
condition of the path so far must not be overwritten where the branch is taken. -/
theorem fork_refines (hb : g.Built) (hclosed : g.Closed) (hn : p.node < g.nodes.size)
    (hc : (g.node p.node).condition = p.condition)
    (hparent : ∀ c, p.condition = some c → ¬ g.Overwrites p.node c)
    (hv : (g.node p.node).assigns v = false ∨
      ∀ x ∈ g.visible v p.node, ((g.binding x).originAt? p.node).isSome) :
    (∀ side, s.sideOf g p.node p.condition v side = .unsatisfiable → g.visible v p.node ≠ [] ∧
      ∀ x ∈ g.visible v p.node, s.compatibleWith g (g.dataOf x) side = false) ∧
    (∃ side, s.sideOf g p.node p.condition v side ≠ .unsatisfiable) ∧
    ∀ sides g', s.fork p v g = .ok sides g' →
      (∀ side, sides side = none ↔ s.sideOf g p.node p.condition v side = .unsatisfiable) ∧
      (∀ side q, sides side = some q → ∀ x ∈ g.allBindings v, (g'.isVisible x q.node = true ↔
        g.isVisible x p.node = true ∧ s.compatibleWith g (g.dataOf x) side = true)) ∧
      ∀ x ∈ g.visible v p.node, ∃ side q, sides side = some q ∧ g'.isVisible x q.node = true := by
  have hends (side : Bool) (h : s.sideOf g p.node p.condition v side = .unsatisfiable) :
      g.visible v p.node ≠ [] ∧
        ∀ x ∈ g.visible v p.node, s.compatibleWith g (g.dataOf x) side = false := by
    rcases s.sideOf_cases g p.node p.condition v side with
      ⟨_, hnone, hne⟩ | ⟨he, _⟩ | ⟨_, c, he, _⟩
    · refine ⟨hne, fun x hx => Bool.eq_false_iff.mpr fun hagrees => ?_⟩
      exact List.not_mem_nil (hnone ▸ mem_agreeing.mpr ⟨hx, hagrees⟩)
    · rw [he] at h
      cases h
    · rw [he] at h
      cases h
  have hgoes (x : BindingId) (hx : x ∈ g.visible v p.node) : ∃ side,
      s.sideOf g p.node p.condition v side ≠ .unsatisfiable ∧
        s.compatibleWith g (g.dataOf x) side = true := by
    have hone (side : Bool) (hagrees : s.compatibleWith g (g.dataOf x) side = true) :
        s.sideOf g p.node p.condition v side ≠ .unsatisfiable := by
      intro h
      rw [(hends side h).2 x hx] at hagrees
      cases hagrees
    rcases s.compatibleWith_or g (g.dataOf x) with hagrees | hagrees
    · exact ⟨true, hone true hagrees, hagrees⟩
    · exact ⟨false, hone false hagrees, hagrees⟩
  refine ⟨hends, ?_, fun sides g' hfork => ?_⟩
  · cases hvis : g.visible v p.node with
    | nil => exact ⟨true, fun h => (hends true h).1 hvis⟩
    | cons x _ =>
      obtain ⟨side, hside, _⟩ := hgoes x (hvis ▸ List.mem_cons_self)
      exact ⟨side, hside⟩
  · have hentered := fork_extends hb hn hfork
    have hnone (side : Bool) :
        sides side = none ↔ s.sideOf g p.node p.condition v side = .unsatisfiable := by
      obtain ⟨g₂, g₃, -, -, hside, -⟩ := hentered side
      rcases enterSide_ok hside with ⟨he, hr, -⟩ | ⟨hne, q, hr, -⟩
      · exact iff_of_true hr he
      · exact iff_of_false (by simp [hr]) hne
    have hexact (side : Bool) (q : Path) (hq : sides side = some q) (x : BindingId)
        (hx : x ∈ g.allBindings v) : g'.isVisible x q.node = true ↔
          g.isVisible x p.node = true ∧ s.compatibleWith g (g.dataOf x) side = true := by
      obtain ⟨g₂, g₃, h₂, hb₂, hside, h₃⟩ := hentered side
      rcases enterSide_ok hside with ⟨-, hr, -⟩ | ⟨hne, r, hr, hforward⟩
      · rw [hr] at hq
        cases hq
      · obtain rfl : r = q := Option.some.inj (hr.symm.trans hq)
        exact isVisible_side hb hclosed hn hc hparent hv hne h₂ hb₂ hforward h₃ hx
    refine ⟨hnone, hexact, fun x hx => ?_⟩
    obtain ⟨side, hside, hagrees⟩ := hgoes x hx
    obtain ⟨q, hq⟩ := Option.ne_none_iff_exists'.mp (mt (hnone side).mp hside)
    rw [Graph.visible_eq_filter] at hx
    obtain ⟨hmem, hvisible⟩ := List.mem_filter.mp hx
    exact ⟨side, q, hq, (hexact side q hq x hmem).mpr ⟨hvisible, hagrees⟩⟩

def truths : Store where
  values := #[.unsolvable, .object { cls := .value 0, payload := some (.constant (.int 1)) },
    .object { cls := .value 0, payload := some (.constant (.int 0)) }]

def bindBoth (g : Graph) (v : VarId) : Graph :=
  ((g.addBinding v (.value 1) [] 0).2.addBinding v (.value 2) [] 0).2

/-- Two variables, with the markers of a branch on the first one, and with the node behind its true
side. -/
def untested : Graph :=
  bindBoth (bindBoth ((((Graph.newNode "a").after {}).newVariable "x").2.newVariable "y").2 0) 1

def tested : Graph := (truths.split untested 0 none 0).2.2

def guarded : Graph := (Graph.connectNew 0 "a" (some 4)).after tested

def guardedPath : Path := { node := 1, condition := some 4 }

def rebound : Graph := (guarded.addBinding 2 (.value 1) [] 1).2

def forkNode (id : NodeId) (incoming outgoing : List NodeId) (condition : Option BindingId)
    (assigned : List VarId) : Node := Graph.drawnNode id "a" incoming outgoing condition assigned

def forkGraph (nodes : List Node) (added : List (VarId × DataId × Origin)) (cost : Nat) : Graph :=
  .drawn nodes ["x", "y", "condition", "condition"] ([(0, .value 1, ⟨0, [[]]⟩),
    (0, .value 2, ⟨0, [[]]⟩), (1, .value 1, ⟨0, [[]]⟩), (1, .value 2, ⟨0, [[]]⟩),
    (2, .marker, ⟨0, [[0]]⟩), (3, .marker, ⟨0, [[1]]⟩)] ++ added) cost

private theorem untested_built : untested.Built := by
  have hnames := (((Graph.Built.empty none).node "a").var "x").var "y"
  have hx := (hnames.binding (.value 1) [] (v := 0) (n := 0) (by decide) (by decide)).binding
    (.value 2) [] (v := 0) (n := 0) (by decide) (by decide)
  exact (hx.binding (.value 1) [] (by decide) (by decide)).binding (.value 2) [] (by decide)
    (by decide)

private theorem guarded_built : guarded.Built := by
  have htested : tested.Built := (truths.split_addsMarkers untested_built (by decide) none 0).built
  exact htested.connectNew (by decide) "a" (some 4)

private theorem guarded_eq : guarded = forkGraph [forkNode 0 [] [1] none [0, 0, 1, 1, 2, 3],
    forkNode 1 [0] [] (some 4) []] [] 3 := rfl

/-- On the path on which `x` has counted as true, a branch on `y` leaves one value to each side. -/
theorem guarded_fork_refines : guarded.Built ∧ guarded.Closed ∧
    (guarded.node guardedPath.node).condition = guardedPath.condition ∧
    ∃ sides g' q r, truths.fork guardedPath 1 guarded = .ok sides g' ∧
      sides true = some q ∧ sides false = some r ∧
      g'.isVisible 2 q.node = true ∧ g'.isVisible 3 q.node = false ∧
      g'.isVisible 2 r.node = false ∧ g'.isVisible 3 r.node = true := by
  have hclosed : guarded.Closed := ⟨by decide, by decide⟩
  have hparent (c : BindingId) (hc : guardedPath.condition = some c) :
      ¬ guarded.Overwrites guardedPath.node c := by
    rintro ⟨h, -⟩
    cases hc
    cases h
  obtain ⟨-, -, hsides⟩ := fork_refines (s := truths) (p := guardedPath) (v := 1) guarded_built
    hclosed (by decide) rfl hparent (.inl rfl)
  obtain ⟨-, hexact, -⟩ := hsides _ _ rfl
  have hvisible : guarded.isVisible 2 1 = true ∧ guarded.isVisible 3 1 = true := by
    rw [guarded_eq]
    exact ⟨by cbv, by cbv⟩
  refine ⟨guarded_built, hclosed, rfl, _, _, _, _, rfl, rfl, rfl, ?_, ?_, ?_, ?_⟩
  · exact (hexact true _ rfl 2 (by decide)).mpr ⟨hvisible.1, rfl⟩
  · exact Bool.eq_false_iff.mpr fun h =>
      Bool.false_ne_true ((hexact true _ rfl 3 (by decide)).mp h).2
  · exact Bool.eq_false_iff.mpr fun h =>
      Bool.false_ne_true ((hexact false _ rfl 2 (by decide)).mp h).2
  · exact (hexact false _ rfl 3 (by decide)).mpr ⟨hvisible.2, rfl⟩

/-- A marker whose variable is bound again is overwritten like any other binding, and nothing gets
past the node. -/
theorem rebound_condition_hides : rebound.Built ∧ rebound.Closed ∧
    truths.sideOf untested 0 none 0 true = .holds 4 ∧ guardedPath.condition = some 4 ∧
    (rebound.node guardedPath.node).condition = guardedPath.condition ∧
    (rebound.node guardedPath.node).assigns 0 = false ∧ rebound.Overwrites guardedPath.node 4 ∧
    ∃ sides g' q, truths.fork guardedPath 0 rebound = .ok sides g' ∧ sides true = some q ∧
      0 ∈ rebound.allBindings 0 ∧ rebound.isVisible 0 guardedPath.node = true ∧
      truths.compatibleWith rebound (rebound.dataOf 0) true = true ∧
      g'.isVisible 0 q.node = false := by
  have heq : rebound = forkGraph [forkNode 0 [] [1] none [0, 0, 1, 1, 2, 3],
    forkNode 1 [0] [] (some 4) [2]] [(2, .value 1, ⟨1, [[]]⟩)] 3 := rfl
  have hfork : ∃ sides, truths.fork guardedPath 0 rebound = .ok sides (forkGraph
      [forkNode 0 [] [1] none [0, 0, 1, 1, 2, 3], forkNode 1 [0] [2] (some 4) [2],
        forkNode 2 [1] [] (some 4) []] [(2, .value 1, ⟨1, [[]]⟩)] 5) ∧
      sides true = some { guardedPath with node := 2 } := ⟨_, rfl, rfl⟩
  obtain ⟨sides, hfork, hside⟩ := hfork
  have hbuilt : rebound.Built := guarded_built.binding (.value 1) [] (by decide) (by decide)
  refine ⟨hbuilt, ⟨by decide, by decide⟩, rfl, rfl, rfl, rfl, ⟨rfl, rfl⟩, sides, _, _, hfork, hside,
    by decide, ?_, rfl, ?_⟩
  · rw [heq]
    cbv
  · cbv

end Store
end ValueTrace
