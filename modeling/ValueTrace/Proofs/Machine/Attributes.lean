import Mathlib
import ValueTrace.Machine.Attribute
import ValueTrace.Proofs.Graph.NewVariables
import ValueTrace.Proofs.Machine.Steps

/-! Attributes that are stored at one node and looked up at another. The slots of a value do not
depend on the path, and a slot hides what the value would fall back on. -/
namespace ValueTrace

namespace Store

variable {s : Store} {d e : DataId} {name : String} {slot : VarId} {members : Members}

theorem get_modify_addMember : (s.modify d (·.addMember name slot)).get e =
    if e = d then (s.get d).addMember name slot else s.get e := by
  cases d with
  | marker =>
    split_ifs with h
    · subst h
      rfl
    · rfl
  | value i =>
    cases e with
    | marker => rfl
    | value j =>
      change ((s.values.modify i _)[j]?).getD .unsolvable = _
      rw [Array.getElem?_modify]
      by_cases hij : i = j
      · subst hij
        rw [if_pos rfl, if_pos rfl]
        cases h : s.values[i]? <;> simp [get, h, Value.addMember]
      · have hne : DataId.value j ≠ .value i := fun h => hij (DataId.value.inj h).symm
        rw [if_neg hij, if_neg hne]
        rfl

theorem className_modify_addMember :
    (s.modify d (·.addMember name slot)).className e = s.className e := by
  unfold className class?
  rw [get_modify_addMember]
  split_ifs with h
  · subst h
    cases s.get e <;> rfl
  · rfl

private theorem constant?_addMember (v : Value) :
    (v.addMember name slot).constant? = v.constant? := by
  cases v with
  | object o =>
    obtain ⟨_, _, _, _ | _ | _ | _⟩ := o <;> rfl
  | _ => rfl

theorem isNone_modify_addMember : (s.modify d (·.addMember name slot)).isNone e = s.isNone e := by
  unfold isNone
  rw [get_modify_addMember]
  split_ifs with h
  · subst h
    rw [constant?_addMember]
  · rfl

theorem typeName_modify_addMember :
    (s.modify d (·.addMember name slot)).typeName e = s.typeName e := by
  unfold typeName
  rw [get_modify_addMember]
  simp only [className_modify_addMember]
  split_ifs with h
  · subst h
    cases s.get e <;> rfl
  · rfl

def HeadsItself (s : Store) (d : DataId) : Prop := ∀ c, s.class? d = some c → c.mro.head? = some d

theorem HeadsItself.modify_addMember (h : s.HeadsItself d) :
    (s.modify d (·.addMember name slot)).HeadsItself d := by
  intro c hc
  unfold class? at hc
  rw [get_modify_addMember, if_pos rfl] at hc
  cases hv : s.get d with
  | ofClass old =>
    rw [hv] at hc
    obtain rfl := Option.some.inj hc
    exact h old (by simp [class?, hv, Value.class?])
  | _ =>
    rw [hv] at hc
    cases hc

theorem members?_modify_addMember (h : (s.get d).members? = some members) :
    ((s.modify d (·.addMember name slot)).get d).members? = some (members.insert name slot) := by
  rw [get_modify_addMember, if_pos rfl]
  cases hv : s.get d <;> rw [hv] at h <;> cases h <;> rfl

end Store

namespace Analysis

variable {m m' : Machine} {n k : NodeId} {obj obj' v slot r : VarId} {d : DataId} {name : String}
  {members : Members} {a b : BindingId} {receiver : Option BindingId}

/-- A slot of its own is what a lookup on a value finds first. -/
theorem attributeOf_slot {s : Store} (hs : m.store = s) (hd : (s.get d).members? = some members)
    (hslot : members[name]? = some slot) (hclass : s.HeadsItself d) :
    attributeOf n d name receiver m = .ok (some slot) m := by
  subst hs
  have hvalue : value d m = .ok (m.store.get d) m := rfl
  unfold attributeOf
  rw [bind_eq_of_ok hvalue]
  cases hv : m.store.get d with
  | object o =>
    rw [hv] at hd
    obtain rfl := Option.some.inj hd
    simp only [hslot]
    rfl
  | ofClass c =>
    rw [hv] at hd
    obtain rfl := Option.some.inj hd
    have hc : m.store.class? d = some c := by simp [Store.class?, hv, Value.class?]
    obtain ⟨rest, hmro⟩ := List.head?_eq_some_iff.mp (hclass c hc)
    change memberAlong name (m.store.mro d) m = _
    have hmro : m.store.mro d = d :: rest := by simp [Store.mro, hc, hmro]
    rw [hmro, memberAlong, bind_eq_of_ok (get_ok.mpr ⟨rfl, rfl⟩), hc]
    simp only [hslot]
    rfl
  | function f =>
    rw [hv] at hd
    obtain rfl := Option.some.inj hd
    simp only [attributeOf.ofFunction, hslot]
    rfl
  | module _ ms =>
    rw [hv] at hd
    obtain rfl := Option.some.inj hd
    simp only [moduleMember, hslot]
    rfl
  | unknown ms =>
    rw [hv] at hd
    obtain rfl := Option.some.inj hd
    simp only [hslot]
    rfl
  | _ =>
    rw [hv] at hd
    cases hd

def found (g : Graph) (slot : VarId) (b : BindingId) (n : NodeId) :
    List (DataId × List BindingId) :=
  (g.visible slot n).map fun a => (g.dataOf a, [a, b])

theorem forM_bindAll (v : VarId) (sources : BindingId → List BindingId) (n : NodeId)
    {bs : List BindingId} (hbs : ∀ a ∈ bs, a < m.graph.bindings.size) :
    (bs.forM fun a => do bind v (← dataOf a) (sources a) n) m =
      .ok () { m with
        graph := m.graph.bindAll v n (bs.map fun a => (m.graph.dataOf a, sources a)) } := by
  induction bs generalizing m with
  | nil => rfl
  | cons a as ih =>
    let m₁ : Machine :=
      { m with graph := (m.graph.addBinding v (m.graph.dataOf a) (sources a) n).2 }
    have hadded := Graph.addBinding_addedAt (g := m.graph) v (m.graph.dataOf a) (sources a) n
    have hstep : (do bind v (← dataOf a) (sources a) n) m = .ok () m₁ := rfl
    have hlt (c : BindingId) (hc : c ∈ as) := hbs c (List.mem_cons_of_mem a hc)
    have hsame : (as.map fun a => (m₁.graph.dataOf a, sources a)) =
        as.map fun a => (m.graph.dataOf a, sources a) :=
      List.map_congr_left fun c hc => congrArg (·, sources c) (hadded.data c (hlt c hc))
    refine (bind_eq_of_ok hstep).trans
      ((ih fun c hc => (hlt c hc).trans_le hadded.size_le).trans ?_)
    rw [hsame]
    rfl

def loadedGraph (g : Graph) (name : String) (slot : VarId) (b : BindingId) (n : NodeId) : Graph :=
  (g.newVariable name).2.bindAll g.vars.size n (found g slot b n)

private theorem mapM_singleton_of_ok {ε σ α β : Type} {f : α → EStateM ε σ β} {a : α}
    {s : σ} (b : β) (s' : σ) (h : f a s = .ok b s') : [a].mapM f s = .ok [b] s' := by
  rw [List.mapM_cons, List.mapM_nil]
  exact bind_eq_of_ok h

/-- The answer of a lookup on the only value in a variable is whether that had something to give. -/
theorem loadAttribute?_of_single {o : Option VarId} {found : Bool} {m₁ : Machine}
    (hobj : m.graph.visible obj n = [b])
    (hattr : attributeOf n (m.graph.dataOf b) name (some b)
      { m with graph := (m.graph.newVariable name).2 } = .ok o m₁)
    (hfound : o.elim (pure false) (pasteAttribute n m.graph.vars.size · b) m₁ = .ok found m') :
    loadAttribute? n obj name m = .ok (if found then some m.graph.vars.size else none) m' := by
  let m₀ : Machine := { m with graph := (m.graph.newVariable name).2 }
  have hnew : newVariable name m = .ok m.graph.vars.size m₀ := rfl
  have hvisible : visible obj n m₀ = .ok [b] m₀ := by
    rw [← hobj, ← Graph.visible_newVariable m.graph name obj n]
    rfl
  have hdata : dataOf b m₀ = .ok (m.graph.dataOf b) m₀ := rfl
  unfold loadAttribute?
  rw [bind_eq_of_ok hnew, bind_eq_of_ok hvisible]
  refine (bind_eq_of_ok (mapM_singleton_of_ok found m' ?_)).trans ?_
  · rw [bind_eq_of_ok hdata, bind_eq_of_ok hattr]
    cases o <;> exact hfound
  · cases found <;> rfl

/-- A lookup that ends at a slot copies what is visible there, if anything is. -/
theorem loadAttribute?_slot (hw : m.graph.WellFormed) (hobj : m.graph.visible obj n = [b])
    (hd : m.graph.dataOf b = d)
    (hattr : ∀ m', m'.store = m.store → attributeOf n d name (some b) m' = .ok (some slot) m') :
    loadAttribute? n obj name m =
      .ok (if (m.graph.visible slot n).isEmpty then none else some m.graph.vars.size)
        { m with graph := loadedGraph m.graph name slot b n } := by
  let m₁ : Machine := { m with graph := (m.graph.newVariable name).2 }
  let m₂ : Machine := { m with graph := loadedGraph m.graph name slot b n }
  have hvisible : visible slot n m₁ = .ok (m.graph.visible slot n) m₁ := by
    rw [← Graph.visible_newVariable m.graph name slot n]
    rfl
  have hpaste : pasteAttribute n m.graph.vars.size slot b m₁ =
      .ok (!(m.graph.visible slot n).isEmpty) m₂ := by
    unfold pasteAttribute
    rw [bind_eq_of_ok hvisible]
    refine bind_eq_of_ok (forM_bindAll (m := m₁) _ (fun a => [a, b]) _ fun a ha => ?_)
    exact (hw.listed slot a (Graph.mem_of_mem_visible ha)).1
  subst hd
  rw [loadAttribute?_of_single (o := some slot) hobj (hattr m₁ rfl) hpaste]
  cases (m.graph.visible slot n).isEmpty <;> rfl

def reportLack (obj : VarId) (d : DataId) (name : String) : Analysis Unit := do
  let store := (← get).store
  if store.isNone d then report .noneAttr s!"Access of attribute '{name}' on None" none [obj]
  else report .attributeError s!"No attribute '{name}' on {store.typeName d}" none [obj]

end Analysis

def Machine.findings (m : Machine) (x : Analysis Unit) : List Finding :=
  match x { m with log := {} } with
  | .ok _ m' | .error _ m' => m'.log.findings

/-- What a lookup comes to: what the answer can hold at the node, and what is reported. -/
def Machine.loaded (m : Machine) (n : NodeId) (obj : VarId) (name : String) :
    Except Failure (List DataId × List Finding) :=
  match Analysis.loadAttribute n obj name { m with log := {} } with
  | .ok v m' => .ok (m'.graph.visibleData v n, m'.log.findings)
  | .error e _ => .error e

/-- What it comes to if the value has no such attribute. The analysis then gives up on the answer,
which holds wherever the node can be reached. -/
def Machine.lacking (m : Machine) (n : NodeId) (obj : VarId) (d : DataId) (name : String) :
    List DataId × List Finding :=
  (if m.graph.canCombine [] n then [Machine.unsolvable] else [],
    m.findings (Analysis.reportLack obj d name))

def Machine.given (m : Machine) (n : NodeId) (slot : VarId) (b : BindingId) : List DataId :=
  ((Graph.gather (Analysis.found m.graph slot b n)).filter
    fun e => e.2.any (m.graph.canCombine · n)).map (·.1)

namespace Analysis

variable {m m' : Machine} {n k : NodeId} {obj obj' v slot : VarId} {d : DataId} {name : String}
  {members : Members} {a b : BindingId}

theorem loadAttribute_some (h : loadAttribute? n obj name m = .ok (some v) m') :
    loadAttribute n obj name m = .ok v m' := by
  unfold loadAttribute
  rw [bind_eq_of_ok h]
  rfl

theorem loadAttribute_none (h : loadAttribute? n obj name m = .ok none m')
    (hobj : m'.graph.visible obj n = [b]) (hd : m'.graph.dataOf b = d) :
    loadAttribute n obj name m = (do reportLack obj d name; newUnsolvable n) m' := by
  have hdata : dataAt obj n m' = .ok [d] m' := by
    change EStateM.Result.ok (m'.graph.visibleData obj n) m' = _
    rw [Graph.visibleData, hobj, List.map_singleton, hd]
  unfold loadAttribute reportLack
  rw [bind_eq_of_ok h]
  refine (bind_eq_of_ok hdata).trans ?_
  refine (bind_eq_of_ok (get_ok.mpr ⟨rfl, rfl⟩)).trans ?_
  rw [bind_assoc, bind_eq_of_ok (get_ok.mpr ⟨rfl, rfl⟩)]
  have hall : [d].all m'.store.isNone = m'.store.isNone d := by simp
  simp only [List.isEmpty_cons, hall]
  cases m'.store.isNone d <;> rfl

theorem reportLack_ok (m : Machine) (obj : VarId) (d : DataId) (name : String) :
    ∃ log, log.findings = m.findings (reportLack obj d name) ∧ ∀ graph,
      reportLack obj d name { m with log := {}, graph } = .ok () { m with log, graph } := by
  unfold Machine.findings reportLack
  rw [bind_eq_of_ok (get_ok.mpr ⟨rfl, rfl⟩)]
  dsimp only
  cases hnone : m.store.isNone d with
  | true =>
    refine ⟨_, rfl, fun graph => ?_⟩
    rw [bind_eq_of_ok (get_ok.mpr ⟨rfl, rfl⟩)]
    dsimp only
    rw [hnone]
    rfl
  | false =>
    refine ⟨_, rfl, fun graph => ?_⟩
    rw [bind_eq_of_ok (get_ok.mpr ⟨rfl, rfl⟩)]
    dsimp only
    rw [hnone]
    rfl

/-- What a lookup comes to that ends at a slot. -/
theorem loaded_slot (hb : m.graph.Built) (hc : m.graph.Closed) (hn : n < m.graph.nodes.size)
    (hobj : m.graph.visible obj n = [b]) (hd : m.graph.dataOf b = d)
    (hattr : ∀ m', m'.store = m.store → attributeOf n d name (some b) m' = .ok (some slot) m') :
    m.loaded n obj name = .ok (if (m.graph.visible slot n).isEmpty then m.lacking n obj d name
      else (m.given n slot b, [])) := by
  have hw := hb.wellFormed
  let m₀ : Machine := { m with log := {} }
  have hload : loadAttribute? n obj name m₀ = .ok
      (if (m.graph.visible slot n).isEmpty then none else some m.graph.vars.size)
      { m₀ with graph := loadedGraph m.graph name slot b n } :=
    loadAttribute?_slot hw hobj hd hattr
  have hlt : ∀ e ∈ found m.graph slot b n, ∀ c ∈ e.2, c < m.graph.bindings.size := by
    have hbv : b ∈ m.graph.visible obj n := hobj ▸ List.mem_singleton_self b
    intro e he c hce
    obtain ⟨a, ha, rfl⟩ := List.mem_map.mp he
    rcases List.mem_cons.mp hce with rfl | hce
    · exact (hw.listed slot c (Graph.mem_of_mem_visible ha)).1
    · obtain rfl := List.mem_singleton.mp hce
      exact (hw.listed obj c (Graph.mem_of_mem_visible hbv)).1
  unfold Machine.loaded
  cases hempty : (m.graph.visible slot n).isEmpty with
  | false =>
    have hsome : loadAttribute n obj name m₀ =
        .ok m.graph.vars.size { m₀ with graph := loadedGraph m.graph name slot b n } :=
      loadAttribute_some (hload.trans (by rw [hempty]; rfl))
    rw [hsome, if_neg Bool.false_ne_true]
    exact congrArg (fun l => Except.ok (l, [])) (Graph.visibleData_bindAll hb hc hn name hlt)
  | true =>
    let g₁ := (m.graph.newVariable name).2
    have hfound : found m.graph slot b n = [] := by
      unfold found
      rw [List.isEmpty_iff.mp hempty, List.map_nil]
    have hgraph : loadedGraph m.graph name slot b n = g₁ := by
      rw [loadedGraph, hfound]
      rfl
    have hnone : loadAttribute? n obj name m₀ = .ok none { m₀ with graph := g₁ } := by
      rw [hload, hgraph, hempty]
      rfl
    obtain ⟨log, hlog, hreport⟩ := reportLack_ok m obj d name
    have hrest := loadAttribute_none hnone ((Graph.visible_newVariable ..).trans hobj) hd
    have hseq : (do reportLack obj d name; newUnsolvable n) { m₀ with graph := g₁ } = _ :=
      bind_eq_of_ok (hreport g₁)
    rw [hrest, hseq, if_pos rfl, Machine.lacking, ← hlog]
    have hclosed : g₁.Closed := hc.newVariable name
    have hanswer : ((g₁.newVariable "unsolvable").2.bindAll g₁.vars.size n
        [(Machine.unsolvable, [])]).visibleData g₁.vars.size n =
        if m.graph.canCombine [] n then [Machine.unsolvable] else [] := by
      rw [Graph.visibleData_bindAll (hb.var name) hclosed hn "unsolvable" (by simp),
        ← Graph.canCombine_newVariable m.graph name]
      cases h : g₁.canCombine [] n <;> simp [Graph.gather, Graph.record, SourceSet.ofList, g₁, h]
    exact congrArg (fun l => Except.ok (l, log.findings)) hanswer

/-- What a store does to a machine: a value that can have slots gets one if it has none of the name,
and the slot is bound at the node. -/
theorem setMember_ok (m : Machine) (n : NodeId) (d : DataId) (name : String) (v : VarId) :
    ∃ m', setMember n d name v m = .ok () m' ∧ m'.frames = m.frames ∧
      ((m.store.get d).members? = none ∧ m' = m ∨
        ∃ members slot, (m.store.get d).members? = some members ∧
          (members[name]? = some slot ∧
              m' = { m with graph := m.graph.pasteVariable slot v n } ∨
            members[name]? = none ∧ slot = m.graph.vars.size ∧
              m' = { m with
                graph := (m.graph.newVariable name).2.pasteVariable slot v n
                store := m.store.modify d (·.addMember name slot) })) := by
  unfold setMember memberVar
  rw [bind_assoc]
  have hvalue : value d m = .ok (m.store.get d) m := rfl
  rw [bind_eq_of_ok hvalue]
  cases hmembers : (m.store.get d).members? with
  | none => exact ⟨m, rfl, rfl, .inl ⟨rfl, rfl⟩⟩
  | some members =>
    dsimp only
    cases hslot : members[name]? with
    | some slot => exact ⟨_, rfl, rfl, .inr ⟨members, slot, rfl, .inl ⟨hslot, rfl⟩⟩⟩
    | none => exact ⟨_, rfl, rfl, .inr ⟨members, _, rfl, .inr ⟨hslot, rfl, rfl⟩⟩⟩

/-- A store to an attribute of what is in a variable is one to its only value. -/
theorem storeAttribute_eq (hobj : m.graph.visible obj n = [a]) (hd : m.graph.dataOf a = d)
    (name : String) (v : VarId) : storeAttribute n obj name v m = setMember n d name v m := by
  have hdata : dataAt obj n m = .ok [d] m := by
    change EStateM.Result.ok (m.graph.visibleData obj n) m = _
    rw [Graph.visibleData, hobj, List.map_singleton, hd]
  unfold storeAttribute
  rw [bind_eq_of_ok hdata]
  change (setMember n d name v >>= fun _ => pure ()) m = _
  rw [bind_pure_unit]

private theorem findings_report {kind : FindingKind} {message : String} {vars : List VarId}
    (h : m'.frames = m.frames) : m'.findings (report kind message none vars) =
      m.findings (report kind message none vars) := by
  -- Of the machine a report reads the frames and nothing else.
  cases m
  cases m'
  obtain rfl := h
  rfl

theorem lacking_eq (hframes : m'.frames = m.frames) (hnone : m'.store.isNone d = m.store.isNone d)
    (htype : m'.store.typeName d = m.store.typeName d)
    (hcombine : m'.graph.canCombine [] n = m.graph.canCombine [] n) :
    m'.lacking n obj d name = m.lacking n obj d name := by
  have hfindings : m'.findings (reportLack obj d name) = m.findings (reportLack obj d name) := by
    have hlack (m : Machine) : m.findings (reportLack obj d name) = m.findings
        (if m.store.isNone d then
          report .noneAttr s!"Access of attribute '{name}' on None" none [obj]
        else report .attributeError s!"No attribute '{name}' on {m.store.typeName d}" none [obj]) :=
      rfl
    rw [hlack, hlack, hnone, htype]
    split_ifs <;> exact findings_report hframes
  unfold Machine.lacking
  rw [hcombine, hfindings]

theorem given_eq (hg : Graph.AddedAt n m.graph m'.graph) (hk : ¬ m.graph.Leads n k)
    (hw : m.graph.WellFormed) : m'.given k slot b = m.given k slot b := by
  have hfound : found m'.graph slot b k = found m.graph slot b k := by
    unfold found
    rw [hg.visible_eq hk]
    refine List.map_congr_left fun a ha => congrArg (·, [a, b]) (hg.data a ?_)
    exact (hw.listed slot a (Graph.mem_of_mem_visible ha)).1
  have hcombine (s : SourceSet) : m'.graph.canCombine s k = m.graph.canCombine s k :=
    hg.canCombine_eq hk s
  unfold Machine.given
  rw [hfound]
  simp only [hcombine]

/-- Where what is stored is not seen, a slot that has been there gives what it gave before. -/
private theorem loaded_pasteVariable (hb : m.graph.Built) (hc : m.graph.Closed)
    (hn : n < m.graph.nodes.size) (hk : k < m.graph.nodes.size) (hlead : ¬ m.graph.Leads n k)
    (hv : slot < m.graph.vars.size) (hmembers : (m.store.get d).members? = some members)
    (hslot : members[name]? = some slot) (hclass : m.store.HeadsItself d)
    (hload : m.graph.visible obj k = [b]) (hd : m.graph.dataOf b = d) :
    ({ m with graph := m.graph.pasteVariable slot v n } : Machine).loaded k obj name =
      m.loaded k obj name := by
  let m' : Machine := { m with graph := m.graph.pasteVariable slot v n }
  have hg : Graph.AddedAt n m.graph m'.graph := Graph.pasteVariable_addedAt slot v n
  have hlt := (hb.wellFormed.listed obj b (Graph.mem_of_mem_visible (hload ▸ List.mem_cons_self))).1
  have hattr (m₁ : Machine) (h₁ : m₁.store = m.store) :
      attributeOf k d name (some b) m₁ = .ok (some slot) m₁ :=
    attributeOf_slot h₁ hmembers hslot hclass
  have hlacking : m'.lacking k obj d name = m.lacking k obj d name :=
    lacking_eq rfl rfl rfl (hg.canCombine_eq hlead [])
  have hbuilt : m'.graph.Built := hb.pasteVariable hv hn v
  rw [loaded_slot hb hc hk hload hd hattr,
    loaded_slot hbuilt (hc.pasteVariable hb.wellFormed slot v n) (hg.bound.size_eq ▸ hk)
      ((hg.visible_eq hlead obj).trans hload) ((hg.data b hlt).trans hd) hattr,
    hlacking, given_eq hg hlead hb.wellFormed]
  change (Except.ok (if ((m.graph.pasteVariable slot v n).visible slot k).isEmpty then _ else _) :
    Except Failure _) = _
  rw [hg.visible_eq hlead slot]

/-- Where what is stored is not seen, a new slot gives nothing. -/
private theorem loaded_newSlot (hb : m.graph.Built) (hc : m.graph.Closed)
    (hn : n < m.graph.nodes.size) (hk : k < m.graph.nodes.size) (hlead : ¬ m.graph.Leads n k)
    (hmembers : (m.store.get d).members? = some members) (hclass : m.store.HeadsItself d)
    (hload : m.graph.visible obj k = [b]) (hd : m.graph.dataOf b = d) :
    ({ m with
        graph := (m.graph.newVariable name).2.pasteVariable m.graph.vars.size v n
        store := m.store.modify d (·.addMember name m.graph.vars.size) } :
      Machine).loaded k obj name = .ok (m.lacking k obj d name) := by
  let slot := m.graph.vars.size
  let m' : Machine := { m with
    graph := (m.graph.newVariable name).2.pasteVariable slot v n
    store := m.store.modify d (·.addMember name slot) }
  have hg : Graph.AddedAt n m.graph m'.graph := (Graph.newVariable_addedAt m.graph name n).trans
    (Graph.pasteVariable_addedAt slot v n)
  have hlt := (hb.wellFormed.listed obj b (Graph.mem_of_mem_visible (hload ▸ List.mem_cons_self))).1
  have hnew : (m.graph.newVariable name).2.Built := hb.var name
  have hbuilt : m'.graph.Built := hnew.pasteVariable (by simp [Graph.newVariable, slot]) hn v
  have hclosed : m'.graph.Closed := (hc.newVariable name).pasteVariable hnew.wellFormed slot v n
  have hattr (m₁ : Machine) (h₁ : m₁.store = m'.store) :
      attributeOf k d name (some b) m₁ = .ok (some slot) m₁ :=
    attributeOf_slot h₁ (Store.members?_modify_addMember hmembers)
      Std.TreeMap.getElem?_insert_self hclass.modify_addMember
  have hhidden : (m'.graph.visible slot k).isEmpty = true := by
    rw [hg.visible_eq hlead, List.isEmpty_iff]
    refine List.eq_nil_iff_forall_not_mem.mpr fun a ha => ?_
    have hmem := Graph.mem_of_mem_visible ha
    rw [Graph.allBindings_eq_nil (Nat.le_refl _)] at hmem
    cases hmem
  have hlacking : m'.lacking k obj d name = m.lacking k obj d name :=
    lacking_eq rfl Store.isNone_modify_addMember Store.typeName_modify_addMember
      (hg.canCombine_eq hlead [])
  change m'.loaded k obj name = _
  rw [loaded_slot hbuilt hclosed (hg.bound.size_eq ▸ hk) ((hg.visible_eq hlead obj).trans hload)
    ((hg.data b hlt).trans hd) hattr, if_pos hhidden, hlacking]

/-- What is stored to an attribute of a value leaves a lookup alone at a node to which the place of
the store does not lead, just if the value had a slot of the name before, or the lookup has found
nothing anyway. A new slot hides whatever the value would fall back on. -/
theorem loaded_storeAttribute_iff (hb : m.graph.Built) (hc : m.graph.Closed)
    (hn : n < m.graph.nodes.size) (hk : k < m.graph.nodes.size) (hlead : ¬ m.graph.Leads n k)
    (hslots : ∀ members slot, (m.store.get d).members? = some members →
      members[name]? = some slot → slot < m.graph.vars.size)
    (hclass : m.store.HeadsItself d)
    (hstore : m.graph.visible obj n = [a]) (ha : m.graph.dataOf a = d)
    (hload : m.graph.visible obj' k = [b]) (hbd : m.graph.dataOf b = d) :
    ∃ m', storeAttribute n obj name v m = .ok () m' ∧
      (m'.loaded k obj' name = m.loaded k obj' name ↔
        ∀ members, (m.store.get d).members? = some members →
          name ∈ members ∨ m.loaded k obj' name = .ok (m.lacking k obj' d name)) := by
  rw [storeAttribute_eq hstore ha]
  obtain ⟨m', hok, -, ⟨hnone, rfl⟩ | ⟨members, slot, hmembers, ⟨hslot, rfl⟩ | ⟨hslot, rfl, rfl⟩⟩⟩ :=
    setMember_ok m n d name v
  · refine ⟨m', hok, iff_of_true rfl fun members h => ?_⟩
    rw [hnone] at h
    cases h
  · have hlt := hslots members slot hmembers hslot
    have hsame := loaded_pasteVariable (v := v) hb hc hn hk hlead hlt hmembers hslot hclass
      hload hbd
    refine ⟨_, hok, iff_of_true hsame fun ms hms => .inl ?_⟩
    obtain rfl := Option.some.inj (hmembers.symm.trans hms)
    exact Std.TreeMap.mem_iff_isSome_getElem?.mpr (by rw [hslot]; rfl)
  · refine ⟨_, hok, ?_⟩
    rw [loaded_newSlot hb hc hn hk hlead hmembers hclass hload hbd, eq_comm]
    constructor
    · exact fun h _ _ => .inr h
    · intro h
      refine (h members hmembers).resolve_left fun hmem => ?_
      rw [Std.TreeMap.mem_iff_isSome_getElem?, hslot] at hmem
      cases hmem

/-- Two nodes behind a first one, where an object, a member of its class and another value are
bound. -/
def classedGraph : Graph :=
  let g := ((((Graph.newNode "start").after {}).newVariable "o").2.newVariable "x").2
  let g := ((g.newVariable "value").2.addBinding 0 (.value 2) [] 0).2
  let g := ((g.addBinding 1 (.value 3) [] 0).2.addBinding 2 (.value 4) [] 0).2
  (Graph.connectNew 0 "no" none).after ((Graph.connectNew 0 "yes" none).after g)

def classedDrawn (names : List String) (bound : List (VarId × DataId × Origin))
    (assigned : List VarId) : Graph :=
  .drawn [Graph.drawnNode 0 "start" [] [1, 2] none [0, 1, 2], Graph.drawnNode 1 "yes" [0] [] none assigned,
    Graph.drawnNode 2 "no" [0] [] none []] names bound 6

def classedNames : List String := ["o", "x", "value"]

def classedBound : List (VarId × DataId × Origin) :=
  [(0, .value 2, ⟨0, [[]]⟩), (1, .value 3, ⟨0, [[]]⟩), (2, .value 4, ⟨0, [[]]⟩)]

def classedClass : ClassValue where
  name := "C"
  members := (∅ : Members).insert "x" 1
  mro := [.value 1]
  origin := .program

def classedMachine (graph : Graph) (slots : List (String × VarId)) : Machine where
  graph
  store := {
    values := #[.unsolvable, .ofClass classedClass,
      .object { cls := .value 1, members := (∅ : Members).insertMany slots },
      .object { cls := .value 1 }, .object { cls := .value 1 }] }

def classed : Machine := classedMachine (classedDrawn classedNames classedBound []) []

def slotted : Machine :=
  classedMachine (classedDrawn (classedNames ++ ["x"]) (classedBound ++ [(3, .value 4, ⟨1, [[2]]⟩)])
    [3]) [("x", 3)]

private theorem classed_built : classed.graph.Built := by
  have heq : classed.graph = classedGraph := by rfl
  have hnames := ((((Graph.Built.empty none).node "start").var "o").var "x").var "value"
  have ho := hnames.binding (.value 2) [] (v := 0) (n := 0) (by decide) (by decide)
  have hx := ho.binding (.value 3) [] (v := 1) (n := 0) (by decide) (by decide)
  have hvalue := hx.binding (.value 4) [] (v := 2) (n := 0) (by decide) (by decide)
  rw [heq]
  exact (hvalue.connectNew Nat.one_pos "yes" none).connectNew (Nat.succ_pos 1) "no" none

private theorem not_leads {g : Graph} (hstart : (g.node 0).incoming = [])
    (hno : (g.node 2).incoming = [0]) : ¬ g.Leads 1 2 := by
  intro h
  rcases Relation.ReflTransGen.cases_tail h with h | ⟨k, h, hk⟩
  · cases h
  · obtain rfl : k = 0 := by simpa [hno] using hk
    rcases Relation.ReflTransGen.cases_tail h with h | ⟨k, _, hk⟩
    · cases h
    · simp [hstart] at hk

/-- Once the object has the slot, a store at one of the nodes does not show at the other one. -/
theorem slotted_loaded : slotted.graph.Built ∧ slotted.graph.Closed ∧ ¬ slotted.graph.Leads 1 2 ∧
    slotted.graph.visible 0 1 = [0] ∧ slotted.graph.visible 0 2 = [0] ∧
    ∃ m', storeAttribute 1 0 "x" 0 slotted = .ok () m' ∧
      m'.loaded 2 0 "x" = slotted.loaded 2 0 "x" := by
  have hbuilt : slotted.graph.Built := by
    have heq : slotted.graph =
        ((classed.graph.newVariable "x").2.addBinding 3 (.value 4) [2] 1).2 := rfl
    rw [heq]
    exact (classed_built.var "x").binding (.value 4) [2] (by decide) (by decide)
  have hclosed : slotted.graph.Closed := ⟨by decide, by decide⟩
  have hlead : ¬ slotted.graph.Leads 1 2 := not_leads rfl rfl
  have hmembers : (slotted.store.get (.value 2)).members? =
      some ((∅ : Members).insertMany [("x", 3)]) := rfl
  have hslots (members : Members) (slot : VarId)
      (h : (slotted.store.get (.value 2)).members? = some members)
      (hs : members["x"]? = some slot) : slot < slotted.graph.vars.size := by
    obtain rfl := Option.some.inj (hmembers.symm.trans h)
    obtain rfl : 3 = slot := Option.some.inj hs
    decide
  have hyes : slotted.graph.visible 0 1 = [0] := by cbv
  have hno : slotted.graph.visible 0 2 = [0] := by cbv
  obtain ⟨m', hok, hiff⟩ : ∃ m', storeAttribute 1 0 "x" 0 slotted = .ok () m' ∧ (_ ↔ _) :=
    loaded_storeAttribute_iff hbuilt hclosed (by decide) (by decide) hlead hslots
      (fun c hc => by cases hc) hyes rfl hno rfl
  refine ⟨hbuilt, hclosed, hlead, hyes, hno, m', hok, hiff.mpr fun members h => .inl ?_⟩
  obtain rfl := Option.some.inj (hmembers.symm.trans h)
  decide

/-- A first store gives the object a slot. A lookup at the other node does not get past it to the
member of the class. -/
theorem slot_hides_member : ¬ classed.graph.Leads 1 2 ∧
    storeAttribute 1 0 "x" 2 classed = .ok () slotted ∧
    classed.loaded 2 0 "x" = .ok ([.value 3], []) ∧
    slotted.loaded 2 0 "x" = .ok ([Machine.unsolvable], [{
      kind := .attributeError, message := "No attribute 'x' on C", vars := [0] }]) :=
  ⟨not_leads rfl rfl, by rfl, by rfl, by rfl⟩

end Analysis
end ValueTrace
