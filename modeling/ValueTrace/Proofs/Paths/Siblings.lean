import ValueTrace.Proofs.Paths.Jumps
import ValueTrace.Proofs.Visibility.Regions

/-! What a store on one path does to what another path sees that has started at the same node. -/
namespace ValueTrace

/-- The namespace and the name that an instruction binds. -/
def Frame.storedName? (f : Frame) (i : Instruction) : Option (NamespaceId × String) :=
  match i.op, i.arg with
  | .storeName, some n => f.code.code.names[n]?.map (f.locals, ·)
  | .storeFast, some n => f.code.code.varnames[n]?.map (f.locals, ·)
  | .storeGlobal, some n => f.code.code.names[n]?.map (f.globals, ·)
  | _, _ => none

def Machine.storedVar? (m : Machine) (i : Instruction) : Option VarId := do
  let (ns, name) ← (← m.frames.head?).storedName? i
  m.store.lookup? ns name

/-- There is something on top of the operands that a store would copy to the variable. -/
def Path.Binds (p : Path) (g : Graph) (x : VarId) : Prop :=
  ∃ v, p.stack.head? = some v ∧ x ≠ v ∧ g.allBindings v ≠ []

/-- The nodes of a path that has begun behind the split, that no other path has joined since, and
that has not bound the binding. -/
structure Graph.Alone (g : Graph) (split : NodeId) (other : Set NodeId) (b : BindingId) : Prop where
  entered : g.EnteredFrom split other
  unbound : ∀ k ∈ other, (g.binding b).originAt? k = none

namespace Analysis

variable {call : Caller} {m m' : Machine} {p q : Path} {i : Instruction} {x : VarId}

private theorem store_eq {table : CodeTable} {entries : Frame → List String}
    {space : Frame → NamespaceId} {f : Frame} {fs : List Frame} {n : Nat} {ns : NamespaceId}
    {name : String} (hf : m.frames = f :: fs) (harg : i.arg = some n)
    (hname : (entries f)[n]?.map (space f, ·) = some (ns, name)) :
    (do
      let name ← entryAt table entries i
      storeName (space (← frame)) name p : Analysis Path) m = storeName ns name p m := by
  obtain ⟨_, hn, he⟩ := Option.map_eq_some_iff.mp hname
  cases he
  rw [bind_eq_of_ok (entryAt_ok hf harg hn), bind_eq_of_ok (frame_ok.mpr ⟨⟨fs, hf⟩, rfl⟩)]

/-- The three stores differ only in where they find the name and its namespace. -/
theorem step_store (hx : m.storedVar? i = some x) : ∃ ns name,
    m.store.lookup? ns name = some x ∧ ∀ call p, step call i p m = storeName ns name p m := by
  obtain ⟨f, hf, hx⟩ := Option.bind_eq_some_iff.mp hx
  obtain ⟨⟨ns, name⟩, hname, hx⟩ := Option.bind_eq_some_iff.mp hx
  obtain ⟨fs, hf⟩ : ∃ fs, m.frames = f :: fs := by
    cases hm : m.frames with
    | nil => simp [hm] at hf
    | cons g fs =>
      rw [hm] at hf
      exact ⟨fs, by rw [Option.some.inj hf]⟩
  refine ⟨ns, name, hx, fun call p => ?_⟩
  unfold Frame.storedName? at hname
  unfold step
  split at hname
  · rename_i n hop harg
    rw [hop]
    exact store_eq hf harg hname
  · rename_i n hop harg
    rw [hop]
    exact store_eq hf harg hname
  · rename_i n hop harg
    rw [hop]
    exact store_eq hf harg hname
  · cases hname

private theorem storeName_linked {ns : NamespaceId} {name : String}
    (h : storeName ns name p m = .ok q m') (hx : m.store.lookup? ns name = some x) :
    ∃ v, p.stack.head? = some v ∧ (m.graph.pasteVariable x v p.node).Linked m'.graph := by
  unfold storeName at h
  obtain ⟨⟨v, r⟩, _, hpop, hpopped⟩ := bind_ok.mp h
  obtain ⟨hr, rfl⟩ := liftM_ok.mp hpop
  obtain ⟨_, m₁, hstore, hmove⟩ := bind_ok.mp hpopped
  obtain ⟨g, hforward, rfl⟩ := grow_ok.mp hmove
  unfold storeValue at hstore
  obtain ⟨_, _, hget, hslot⟩ := bind_ok.mp hstore
  obtain ⟨rfl, rfl⟩ := get_ok.mp hget
  rw [hx] at hslot
  obtain ⟨_, _, hpure, hpaste⟩ := bind_ok.mp hslot
  obtain ⟨rfl, rfl⟩ := pure_ok.mp hpure
  obtain rfl := paste_ok.mp hpaste
  unfold Path.pop at hr
  cases hs : p.stack with
  | nil =>
    rw [hs] at hr
    cases hr
  | cons w stack =>
    rw [hs] at hr
    cases hr
    exact ⟨v, rfl, (Graph.forward_ok hforward).2.1⟩

/-- A store binds the variable of the name at the node of the path, and nowhere else. -/
theorem step_store_assigns (h : step call i p m = .ok q m') (hx : m.storedVar? i = some x)
    (hl : m.graph.Lists x) (hn : p.node < m.graph.nodes.size) (k : NodeId) :
    (m'.graph.node k).assigns x = true ↔
      (m.graph.node k).assigns x = true ∨ k = p.node ∧ p.Binds m.graph x := by
  obtain ⟨ns, name, hlookup, hstep⟩ := step_store hx
  rw [hstep] at h
  obtain ⟨v, hv, hlinked⟩ := storeName_linked h hlookup
  rw [hlinked.assigns, Graph.pasteVariable_assigns hl]
  refine or_congr_right (and_congr_right fun _ => ?_)
  simp [Path.Binds, hv, hn]

variable {g : Graph} {split k : NodeId} {other : Set NodeId} {b : BindingId}

private theorem not_overwrites_iff {P A : Prop} {o : Option Origin} :
    ¬ ((A ∨ P) ∧ o = none) ↔ o.isSome ∨ ¬ A ∧ ¬ P := by
  cases o <;> simp

private theorem store_hides (h : step call i p m = .ok q m') (hx : m.storedVar? i = some x)
    (hl : m.graph.Lists x) (hn : p.node < m.graph.nodes.size) (hb : (g.binding b).var = x)
    (hsince : (g.node split).assigns x = (m'.graph.node split).assigns x)
    (ha : g.Alone split other b) (hk : k ∈ other) :
    g.isVisible b k = true ↔ g.Compatible split other b k ∧
      (((g.binding b).originAt? split).isSome ∨
        ¬ (m.graph.node split).assigns x = true ∧ ¬ (split = p.node ∧ p.Binds m.graph x)) := by
  rw [Graph.isVisible_iff_compatible ha.entered hk ha.unbound, Graph.Overwrites, hb, hsince,
    step_store_assigns h hx hl hn]
  exact and_congr_right fun _ => not_overwrites_iff

private theorem jump_nodes {sense : Bool} {dest : Nat} (hj : jumpsOn? i.op = some sense)
    (h : step call i p m = .ok q m') (hq : q.stop = none) (hdest : i.target = some dest)
    (hu : m.Unmet dest) : m.graph.nodes.size ≤ q.node ∧
      ∀ w, m'.entryFor? dest = some w → m.graph.nodes.size ≤ w.node ∧ w.node < q.node := by
  obtain ⟨tested, hstep⟩ := step_jumpIf hj
  rw [hstep] at h
  exact jumpIf_nodes h hq hdest hu

private theorem handler_nodes {dest : Nat} (hop : i.op = .setupExcept ∨ i.op = .setupFinally)
    (h : step call i p m = .ok q m') (hdest : i.target = some dest) (hu : m.Unmet dest) :
    q.node = p.node ∧ ∃ w, m'.entryFor? dest = some w ∧ w.node = p.node := by
  unfold step at h
  rcases hop with hop | hop
  · rw [hop] at h
    exact setupHandled_nodes h hdest hu
  · rw [hop] at h
    exact setupCleanup_nodes h hdest hu

private theorem call_nodes {dest : Nat} (hop : i.op = .forIter ∨ i.op = .setupWith)
    (h : step call i p m = .ok q m') (hdest : i.target = some dest) (hu : m.Unmet dest) :
    ∃ w m₁ obj name item, m₁.entryFor? dest = some w ∧ w.node = p.node ∧
      w.condition = p.condition ∧
      callMethod call p.node obj name [] m₁ = .ok (q.node, item) m' := by
  unfold step at h
  rcases hop with hop | hop
  · rw [hop] at h
    exact nextItem_nodes h hdest hu
  · rw [hop] at h
    exact setupContext_nodes h hdest hu

/-- A conditional jump leaves both of its paths at new nodes, but a region with a handler or a
cleanup leaves both where it is entered, and where a call decides how to go on, the other path
stays. A store then hides from the other path all that does not begin at the split, if it is done
at that very node, and nothing if it is done at another one. -/
theorem store_beside_split {dest : Nat} (hn : p.node < m.graph.nodes.size)
    (h : step call i p m = .ok q m') (hq : q.stop = none) (hdest : i.target = some dest)
    (hu : m.Unmet dest) :
    ((jumpsOn? i.op).isSome → p.node < q.node ∧
      ∀ w, m'.entryFor? dest = some w → p.node < w.node ∧ w.node < q.node) ∧
    (i.op = .setupExcept ∨ i.op = .setupFinally →
      q.node = p.node ∧ ∃ w, m'.entryFor? dest = some w ∧ w.node = p.node) ∧
    (i.op = .forIter ∨ i.op = .setupWith →
      ∃ w m₁ obj name item, m₁.entryFor? dest = some w ∧ w.node = p.node ∧
        w.condition = p.condition ∧ callMethod call p.node obj name [] m₁ = .ok (q.node, item) m') ∧
    ∀ (s : Instruction) (r r' : Path) (m₁ m₂ : Machine) (x : VarId),
      step call s r m₁ = .ok r' m₂ → m₁.storedVar? s = some x → m₁.graph.Lists x →
      r.node < m₁.graph.nodes.size →
      ∀ (g : Graph) (other : Set NodeId) (b : BindingId) (k : NodeId), (g.binding b).var = x →
        (g.node p.node).assigns x = (m₂.graph.node p.node).assigns x →
        g.Alone p.node other b → k ∈ other →
        (g.isVisible b k = true ↔ g.Compatible p.node other b k ∧
          (((g.binding b).originAt? p.node).isSome ∨
            ¬ (m₁.graph.node p.node).assigns x = true ∧
              ¬ (p.node = r.node ∧ r.Binds m₁.graph x))) := by
  refine ⟨fun hj => ?_, fun hop => handler_nodes hop h hdest hu,
    fun hop => call_nodes hop h hdest hu, ?_⟩
  · obtain ⟨sense, hj⟩ := Option.isSome_iff_exists.mp hj
    obtain ⟨hgoing, hled⟩ := jump_nodes hj h hq hdest hu
    refine ⟨Nat.lt_of_lt_of_le hn hgoing, fun w hw => ?_⟩
    obtain ⟨hnew, hlt⟩ := hled w hw
    exact ⟨Nat.lt_of_lt_of_le hn hnew, hlt⟩
  · intro s r r' m₁ m₂ x hs hx hl hr g other b k hb hsince
    exact store_hides hs hx hl hr hb hsince

/-- A name that is bound before a region with a cleanup begins, and a value to store. -/
def guardedGraph : Graph :=
  match (do
    let entry ← Graph.newNode "entry"
    let x ← modifyGet (·.newVariable "x")
    let v ← modifyGet (·.newVariable "value")
    let _ ← modifyGet (·.addBinding x (.value 0) [] entry)
    let _ ← modifyGet (·.addBinding v (.value 1) [] entry)
    let _ ← Graph.connectNew entry "region" none : Graph.Growth Unit).run {} with
  | .ok _ g | .error _ g => g

/-- A machine with a frame whose code names the variable. -/
def guarded : Machine where
  graph := guardedGraph
  store := { values := #[.unsolvable, .unknown ∅], namespaces := #[∅, (∅ : Members).insert "x" 0] }
  shared := { constants := (∅ : Std.TreeMap (List Nat) (DataId × VarId)).insert [0] (.value 1, 1) }
  frames := [{
    code := ⟨[], { (default : Code) with names := ["x"] }⟩
    globals := 1
    locals := 1
    cells := []
    result := 0
    yielded := 0 }]

def guardedPath : Path := { node := 1, stack := [1] }

def enterRegion : Instruction := ⟨0, .setupFinally, none, 0, some 4⟩

def storeX : Instruction := ⟨1, .storeName, some 0, 0, none⟩

def noCall : Caller := fun n v _ => return (n, v)

/-- The region is entered, its body stores the name, and then the cleanup begins. -/
def guardedRun : Analysis Path := do
  let p ← step noCall enterRegion guardedPath
  let _ ← step noCall storeX p
  let some w := (← get).entryFor? 4 | throw (.internal "no cleanup")
  grow w.forward

private theorem guarded_unmet : guarded.Unmet 4 := ⟨_, [], rfl, by decide, by decide⟩

/-- What the run leaves: the body stores the name where the cleanup has been entered. -/
private theorem guardedRun_eq : ∃ w m, guardedRun guarded = .ok w m ∧ w.node = 3 ∧
    (m.graph.node 3).incoming = [1] ∧ (m.graph.node 1).incoming = [0] ∧
    (∀ k < 4, (m.graph.node k).condition = none) ∧ (m.graph.node 1).assigns 0 = true ∧
    m.graph.binding 0 = ⟨0, 0, .value 0, [⟨0, [[]]⟩]⟩ :=
  ⟨_, _, rfl, rfl, rfl, rfl, by decide, by decide, rfl⟩

private theorem guarded_canHold {g : Graph} (hc : ∀ k < 2, (g.node k).condition = none)
    (hb : g.binding 0 = ⟨0, 0, .value 0, [⟨0, [[]]⟩]⟩) (hin : (g.node 1).incoming = [0]) :
    g.CanHold 1 {0} := by
  have hstart : (g.binding 0).originAt? 0 = some ⟨0, [[]]⟩ := by
    rw [hb]
    rfl
  have hlater : (g.binding 0).originAt? 1 = none := by
    rw [hb]
    rfl
  refine Graph.canHold_of_incoming (hc 1 (by decide)) hlater (hin ▸ List.mem_singleton_self 0) ?_ ?_
  · rintro ⟨_, hno⟩
    rw [hstart] at hno
    cases hno
  · exact Graph.canHold_of_origin (hc 0 (by decide)) hstart (List.mem_singleton_self [])

/-- The cleanup no longer sees what it has been entered with. -/
theorem store_hides_from_cleanup : guarded.graph.isVisible 0 guardedPath.node = true ∧
    ∃ w m, guardedRun guarded = .ok w m ∧ m.graph.Alone guardedPath.node {w.node} 0 ∧
      m.graph.Compatible guardedPath.node {w.node} 0 w.node ∧
      m.graph.isVisible 0 w.node = false := by
  have hbefore : guarded.graph.CanHold 1 {0} := guarded_canHold (by decide) rfl rfl
  obtain ⟨w, m, hrun, hw, hin, hin', hc, hassigns, hb⟩ := guardedRun_eq
  have hno {k : NodeId} (hk : k ≠ 0) : (m.graph.binding 0).originAt? k = none := by
    simp [hb, Binding.originAt?, hk.symm]
  have halone : m.graph.Alone guardedPath.node {w.node} 0 := by
    rw [hw]
    constructor
    · rintro _ rfl p hp
      rw [hin] at hp
      exact .inr (List.mem_singleton.mp hp)
    · rintro _ rfl
      exact hno (by decide)
  have hcompatible : m.graph.Compatible guardedPath.node {w.node} 0 w.node := by
    have hlast : (m.graph.node 3).condition = none := hc 3 (by decide)
    rw [hw]
    refine ⟨{0}, ?_, guarded_canHold (fun k hk => hc k (Nat.lt_trans hk (by decide))) hb hin', ?_⟩
    · exact Graph.leadsOut_of_incoming hlast (hno (by decide)) (by simp [hin, guardedPath])
        (by decide)
    · rintro _ rfl hne
      exact absurd rfl hne
  refine ⟨(Graph.isVisible_iff _ _ _).mpr hbefore, w, m, hrun, halone, hcompatible, ?_⟩
  rw [← Bool.not_eq_true, Graph.isVisible_iff_compatible halone.entered rfl halone.unbound]
  rintro ⟨_, hover⟩
  exact hover ⟨by rw [hb]; exact hassigns, hno (by decide)⟩

/-- The first store in the region hides the binding from every path that has begun there. -/
theorem store_beside_cleanup : guardedPath.node < guarded.graph.nodes.size ∧ guarded.Unmet 4 ∧
    ∃ q m r m', step noCall enterRegion guardedPath guarded = .ok q m ∧ q.stop = none ∧
      q.node = guardedPath.node ∧ (∃ w, m.entryFor? 4 = some w ∧ w.node = guardedPath.node) ∧
      step noCall storeX q m = .ok r m' ∧ ∀ other, m'.graph.Alone guardedPath.node other 0 →
        ∀ k ∈ other, m'.graph.isVisible 0 k = false := by
  have hn : guardedPath.node < guarded.graph.nodes.size := by decide
  obtain ⟨q, m, r, m', h, hq, hs, hx, hvar, hdata, hr, htop, hb, hno⟩ : ∃ q m r m',
      step noCall enterRegion guardedPath guarded = .ok q m ∧ q.stop = none ∧
      step noCall storeX q m = .ok r m' ∧ m.storedVar? storeX = some 0 ∧
      (m.graph.allBindings 0 = [0] ∧ (m.graph.binding 0).var = 0) ∧
      (m.graph.var 0).byData = (∅ : Std.TreeMap DataId BindingId).insert (.value 0) 0 ∧
      q.node < m.graph.nodes.size ∧ (q.stack.head? = some 1 ∧ m.graph.allBindings 1 ≠ []) ∧
      (m'.graph.binding 0).var = 0 ∧ (m'.graph.binding 0).originAt? 1 = none :=
    ⟨_, _, _, _, rfl, rfl, rfl, rfl, ⟨rfl, rfl⟩, rfl, by decide, by decide, rfl, rfl⟩
  have hl : m.graph.Lists 0 := by
    refine ⟨fun b hb => ?_, fun {d b} hb => ?_⟩
    · rw [hvar.1, List.mem_singleton] at hb
      exact hb ▸ hvar.2
    · rw [Graph.bindingTo?, hdata, Std.TreeMap.getElem?_insert] at hb
      split_ifs at hb
      · simpa [hvar.1] using hb.symm
      · simp at hb
  obtain ⟨_, hnodes, _, hstores⟩ := store_beside_split hn h hq rfl guarded_unmet
  obtain ⟨hnode, hled⟩ := hnodes (.inr rfl)
  refine ⟨hn, guarded_unmet, q, m, r, m', h, hq, hnode, hled, hs, fun other ha k hk => ?_⟩
  rw [← Bool.not_eq_true, hstores storeX q r m m' 0 hs hx hl hr m'.graph other 0 k hb rfl ha hk]
  rintro ⟨_, hstart | ⟨_, hdone⟩⟩
  · rw [guardedPath, hno] at hstart
    cases hstart
  · exact hdone ⟨hnode.symm, 1, htop.1, by decide, htop.2⟩

end Analysis

end ValueTrace
