import ValueTrace.Proofs.Literals.Loads
import ValueTrace.Proofs.Machine.Attributes
import ValueTrace.Proofs.Machine.Enlarging

/-!
# Objects for surplus arguments

Surplus positional arguments become a tuple, and surplus keywords a dictionary with a member for
each. Both are new, and making them touches nothing that was there, so the members hold exactly what
the arguments held before.
-/

namespace ValueTrace

/-- The variable has been bound to this object of a class of this name, and to nothing else. -/
def Machine.HoldsOnly (m : Machine) (n : NodeId) (v : VarId) (o : Object) (name : String) : Prop :=
  ∃ d b c, m.graph.BoundBy n v d b [] ∧ m.store.get d = .object o ∧
    m.store.get o.cls = .ofClass c ∧ c.name = name

/-- Members of an object for these keywords. Each holds what the arguments of its name held in the
beginning, and the type parameter for values what all of them held. -/
structure Machine.HoldsKeywords (m₀ m : Machine) (o : Object) (entries : List (String × VarId)) :
    Prop where
  names : ∀ name, name ∈ o.members ↔ name ∈ entries.map (·.1)
  slots : ∀ (name : String) (slot : VarId), o.members[name]? = some slot →
    ∀ x, x ∈ m.graph.allData slot ↔ ∃ v, (name, v) ∈ entries ∧ x ∈ m₀.graph.allData v
  values : ∀ p : VarId, o.typeParams["V"]? = some p →
    ∀ x, x ∈ m.graph.allData p ↔ ∃ entry ∈ entries, x ∈ m₀.graph.allData entry.2

/-- What arguments held in the beginning they still hold later. -/
theorem Machine.HoldsKeywords.since {m₀ m₁ m : Machine} {o : Object}
    {entries : List (String × VarId)} (h : m₁.HoldsKeywords m o entries) (hw : m₀.graph.WellFormed)
    (hle : m₀.Enlarges m₁) (hentries : ∀ entry ∈ entries, entry.2 < m₀.graph.vars.size) :
    m₀.HoldsKeywords m o entries := by
  have hdata {entry : String × VarId} (hentry : entry ∈ entries) :
      m₁.graph.allData entry.2 = m₀.graph.allData entry.2 :=
    hle.graph.allData_eq hw (hentries entry hentry)
  refine ⟨h.names, fun name slot hslot x => ?_, fun p hp x => ?_⟩
  · rw [h.slots name slot hslot x]
    exact exists_congr fun v => and_congr_right fun hv => by rw [hdata hv]
  · rw [h.values p hp x]
    exact exists_congr fun entry => and_congr_right fun hentry => by rw [hdata hentry]

variable {m m' m'' m₀ : Machine} {n : NodeId} {v : VarId} {d : DataId} {o : Object} {name : String}

theorem Machine.Enlarges.holdsOnly (h : m.Enlarges m') (hb : m.graph.Built) (ho : m.HoldsOnly n v o name) :
    m'.HoldsOnly n v o name := by
  obtain ⟨d, b, c, hbound, hd, hc, hname⟩ := ho
  obtain ⟨c', hc', hname'⟩ := h.classes o.cls c hc
  exact ⟨d, b, c', hbound.widens hb.wellFormed h.graph, h.objects d o hd, hc', hname'.trans hname⟩

namespace Analysis

/-- An object of a library class that is always there. -/
theorem libraryObject_ok {S : Setting} (hfits : S.Fits m) (hb : m.graph.Built)
    (hroot : 0 < m.graph.nodes.size) {name : String} (hname : name ∈ Library.needed)
    (payload : Option Payload) : ∃ cls m₁ d m₂ o c, libraryClass name m = .ok cls m₁ ∧
      newObject cls payload m₁ = .ok d m₂ ∧ m.Enlarges m₂ ∧ IsNew m m₂ d o ∧
      m₂.store.get o.cls = .ofClass c ∧ c.name = name ∧ o.payload = payload := by
  obtain ⟨cls, m₁, hclass, hfits₁, hfound, -⟩ := libraryClass_ok (Agree.needed hname) hfits
  obtain ⟨c, hc, rfl, -⟩ := hfits₁.classes hfound
  obtain ⟨d, m₂, o, hobject, hnew, rfl, hpayload⟩ := newObject_ok m₁ cls payload
  have h₁ := Enlarging.libraryClass _ m _ m₁ hb hroot hclass
  have h₂ := Enlarging.newObject _ _ m₁ d m₂ h₁.built (hroot.trans_le h₁.graph.nodes_le) hobject
  obtain ⟨c', hc', hname'⟩ := h₂.classes o.cls c (Store.get_of_class? hc)
  refine ⟨o.cls, m₁, d, m₂, o, c', hclass, hobject, h₁.trans h₂, ⟨fun o' ho' => ?_, hnew.object,
    hnew.members, fun name p hp => ?_, hnew.distinct⟩, hc', hname', hpayload⟩
  · exact hnew.absent o' (h₁.objects d o' ho')
  · obtain ⟨hle, hrest⟩ := hnew.params name p hp
    exact ⟨h₁.graph.vars_le.trans hle, hrest⟩

/-- A new tuple has these items. -/
theorem tupleObject_ok {S : Setting} (hfits : S.Fits m) (hb : m.graph.Built)
    (hn : n < m.graph.nodes.size) (items : List VarId) :
    ∃ d m' o c, tupleObject items n m = .ok d m' ∧ m.Enlarges m' ∧ m'.store.get d = .object o ∧
      m'.store.get o.cls = .ofClass c ∧ c.name = "tuple" ∧ o.payload = some (.tuple items) := by
  obtain ⟨cls, m₁, d, m₂, o, c, hclass, hobject, h₂, hnew, hc, hname, hpayload⟩ :=
    libraryObject_ok hfits hb (Nat.zero_lt_of_lt hn) (show "tuple" ∈ Library.needed by decide)
      (some (.tuple items))
  have hparam (p : VarId) (hp : m₂.store.typeParam? d "T" = some p) :=
    (hnew.typeParam? hp).imp_right (·.1)
  obtain ⟨g, hfill, h₃, -⟩ := fillTypeParam_enlarges hb h₂ (hn.trans_le h₂.graph.nodes_le) _ _ hparam items
  refine ⟨d, _, o, c, ?_, h₃, hnew.object, hc, hname, hpayload⟩
  unfold tupleObject
  rw [bind_eq_of_ok hclass, bind_eq_of_ok hobject, bind_eq_of_ok hfill]
  rfl

/-- An object gathers keywords. So many of them have members, and so many are among its values. -/
structure Gathers (m₀ m : Machine) (d : DataId) (o : Object)
    (entries valued : List (String × VarId)) : Prop where
  sound : m.Sound
  enlarges : m₀.Enlarges m
  absent : ∀ o, m₀.store.get d ≠ .object o
  object : m.store.get d = .object o
  isDict : ∃ c, m.store.get o.cls = .ofClass c ∧ c.name = "dict"
  distinct : ∀ (x y : String) (p : VarId), o.typeParams[x]? = some p →
    o.typeParams[y]? = some p → x = y
  newParams : ∀ (name : String) (p : VarId), o.typeParams[name]? = some p → m₀.graph.vars.size ≤ p
  newSlots : ∀ (name : String) (v : VarId), o.members[name]? = some v → m₀.graph.vars.size ≤ v
  names : ∀ name, name ∈ o.members ↔ name ∈ entries.map (·.1)
  slots : ∀ (name : String) (slot : VarId), o.members[name]? = some slot →
    ∀ x, x ∈ m.graph.allData slot ↔ ∃ v, (name, v) ∈ entries ∧ x ∈ m₀.graph.allData v
  values : ∀ p : VarId, o.typeParams["V"]? = some p →
    ∀ x, x ∈ m.graph.allData p ↔ ∃ entry ∈ valued, x ∈ m₀.graph.allData entry.2

namespace Gathers

variable {entries valued : List (String × VarId)} {slot p w : VarId} {x y : String}

/-- A member is a slot of the store, and a type parameter is not. -/
theorem apart (h : Gathers m₀ m d o entries valued) (hslot : o.members[x]? = some slot)
    (hp : o.typeParams[y]? = some p) : slot ≠ p := by
  rintro rfl
  refine h.sound.apart.params (v := slot) (x := x) (.inl ⟨d, o.members, ?_, hslot⟩)
    ⟨d, o, y, h.object, hp⟩
  rw [h.object]
  rfl

theorem named (h : Gathers m₀ m d o entries valued) (hx : o.members[x]? = some slot)
    (hy : o.members[y]? = some slot) : x = y := by
  have hmem {x : String} (hx : o.members[x]? = some slot) : (slot, x) ∈ m.store.slots := by
    refine .inl ⟨d, o.members, ?_, hx⟩
    rw [h.object]
    rfl
  exact h.sound.apart.named (hmem hx) (hmem hy)

theorem lt (h : Gathers m₀ m d o entries valued) :
    (∀ (name : String) (v : VarId), o.members[name]? = some v → v < m.graph.vars.size) ∧
      ∀ (name : String) (p : VarId), o.typeParams[name]? = some p → p < m.graph.vars.size := by
  have hvalue := h.sound.store.values d
  rw [h.object] at hvalue
  exact ⟨hvalue.2.1, hvalue.1⟩

/-- What is made elsewhere does not matter. -/
theorem enlarge (h : Gathers m₀ m d o entries valued) (hm' : m'.Sound) (hle : m.Enlarges m') :
    Gathers m₀ m' d o entries valued := by
  have hdata {v : VarId} (hv : v < m.graph.vars.size) : m'.graph.allData v = m.graph.allData v :=
    hle.graph.allData_eq h.sound.built.wellFormed hv
  exact {
    sound := hm'
    enlarges := h.enlarges.trans hle
    absent := h.absent
    object := hle.objects d o h.object
    isDict := by
      obtain ⟨c, hc, hname⟩ := h.isDict
      obtain ⟨c', hc', hname'⟩ := hle.classes o.cls c hc
      exact ⟨c', hc', hname'.trans hname⟩
    distinct := h.distinct
    newParams := h.newParams
    newSlots := h.newSlots
    names := h.names
    slots := fun name slot hslot x => by
      rw [hdata (h.lt.1 name slot hslot)]
      exact h.slots name slot hslot x
    values := fun p hp x => by
      rw [hdata (h.lt.2 _ p hp)]
      exact h.values p hp x }

/-- A type parameter is filled, and the values are what they are then. -/
theorem fill (h : Gathers m₀ m d o entries valued) (h₀ : m₀.graph.Built)
    (hn : n < m.graph.nodes.size) (param : String) (w : VarId) {valued' : List (String × VarId)}
    (hvalues : ∀ p : VarId, o.typeParams["V"]? = some p → ∀ x,
      (x ∈ m.graph.allData p ∨ param = "V" ∧ x ∈ m.graph.allData w) ↔
        ∃ entry ∈ valued', x ∈ m₀.graph.allData entry.2) :
    ∃ m', fillTypeParam d param [w] n m = .ok () m' ∧ Gathers m₀ m' d o entries valued' := by
  have hrun := fillTypeParam_one m d param w n
  have hm' := ((Follows.fillTypeParam d param [w] (.inr hn)).left h.sound le_rfl hrun).1
  rw [Store.typeParam?_of_get h.object] at hrun hm'
  refine ⟨_, hrun, ?_⟩
  cases hp : o.typeParams[param]? with
  | none =>
    refine { h with values := fun p' hp' x => ?_ }
    rw [← hvalues p' hp' x]
    refine (or_iff_left ?_).symm
    rintro ⟨rfl, -⟩
    rw [hp] at hp'
    cases hp'
  | some p =>
    rw [hp] at hm'
    have hdata {v : VarId} {x : DataId} : x ∈ (m.graph.pasteVariable p w n).allData v ↔
        x ∈ m.graph.allData v ∨ v = p ∧ x ∈ m.graph.allData w :=
      Graph.mem_allData_pasteVariable h.sound.built.wellFormed (h.lt.2 _ p hp) hn
    refine { h with
      sound := hm'
      enlarges := h.enlarges.onGraph hm'.built (h.enlarges.graph.pasteVariable h₀.wellFormed
        h.sound.built (h.newParams _ p hp) (h.lt.2 _ p hp) hn w)
      slots := fun name slot hslot x => ?_
      values := fun p' hp' x => ?_ }
    · rw [← h.slots name slot hslot x]
      exact hdata.trans (or_iff_left fun hx => h.apart hslot hp hx.1)
    · rw [← hvalues p' hp' x]
      refine hdata.trans (or_congr_right (and_congr_left' ⟨?_, ?_⟩))
      · rintro rfl
        exact h.distinct _ _ _ hp hp'
      · rintro rfl
        exact Option.some.inj (hp'.symm.trans hp)

/-- What the member for a name has to hold when there is one more keyword. -/
theorem mem_append_iff (h : Gathers m₀ m d o entries valued) (h₀ : m₀.graph.Built)
    (hv : v < m₀.graph.vars.size) {a : DataId} :
    (∃ u, (x, u) ∈ entries ++ [(name, v)] ∧ a ∈ m₀.graph.allData u) ↔
      (∃ u, (x, u) ∈ entries ∧ a ∈ m₀.graph.allData u) ∨ x = name ∧ a ∈ m.graph.allData v := by
  rw [h.enlarges.graph.allData_eq h₀.wellFormed hv]
  simp [or_and_right, exists_or, and_assoc]

/-- The member of a keyword gets another value. -/
theorem memberAgain (h : Gathers m₀ m d o entries valued) (h₀ : m₀.graph.Built)
    (hn : n < m.graph.nodes.size) (hv : v < m₀.graph.vars.size)
    (hslot : o.members[name]? = some slot)
    (hm' : Machine.Sound { m with graph := m.graph.pasteVariable slot v n }) :
    Gathers m₀ { m with graph := m.graph.pasteVariable slot v n } d o (entries ++ [(name, v)])
      valued := by
  have hdata {u : VarId} {a : DataId} : a ∈ (m.graph.pasteVariable slot v n).allData u ↔
      a ∈ m.graph.allData u ∨ u = slot ∧ a ∈ m.graph.allData v :=
    Graph.mem_allData_pasteVariable h.sound.built.wellFormed (h.lt.1 _ slot hslot) hn
  refine { h with
    sound := hm'
    enlarges := h.enlarges.onGraph hm'.built (h.enlarges.graph.pasteVariable h₀.wellFormed
      h.sound.built (h.newSlots _ slot hslot) (h.lt.1 _ slot hslot) hn v)
    names := fun x => ?_
    slots := fun x slot' hslot' a => ?_
    values := fun p hp a => ?_ }
  · have hmem : name ∈ o.members :=
      Std.TreeMap.mem_iff_isSome_getElem?.mpr (by rw [hslot]; rfl)
    rw [List.map_append, List.mem_append, ← h.names x, List.map_singleton, List.mem_singleton]
    refine (or_iff_left_of_imp ?_).symm
    rintro rfl
    exact hmem
  · rw [h.mem_append_iff h₀ hv, ← h.slots x slot' hslot' a]
    refine hdata.trans (or_congr_right (and_congr_left' ⟨?_, ?_⟩))
    · rintro rfl
      exact h.named hslot' hslot
    · rintro rfl
      exact Option.some.inj (hslot'.symm.trans hslot)
  · rw [← h.values p hp a]
    exact hdata.trans (or_iff_left fun ha => h.apart hslot hp ha.1.symm)

/-- A keyword gets a member of its own. -/
theorem memberNew (h : Gathers m₀ m d o entries valued) (h₀ : m₀.graph.Built)
    (hn : n < m.graph.nodes.size) (hv : v < m₀.graph.vars.size) (hslot : o.members[name]? = none)
    (hm' : Machine.Sound { m with
      graph := (m.graph.newVariable name).2.pasteVariable m.graph.vars.size v n
      store := m.store.modify d (·.addMember name m.graph.vars.size) }) :
    Gathers m₀ { m with
      graph := (m.graph.newVariable name).2.pasteVariable m.graph.vars.size v n
      store := m.store.modify d (·.addMember name m.graph.vars.size) } d
      { o with members := o.members.insert name m.graph.vars.size } (entries ++ [(name, v)])
      valued := by
  let g := (m.graph.newVariable name).2
  have hlt : m.graph.vars.size < g.vars.size := by simp [g, Graph.newVariable]
  have hg : g.Built := h.sound.built.var name
  have hdata {u : VarId} {a : DataId} : a ∈ (g.pasteVariable m.graph.vars.size v n).allData u ↔
      a ∈ m.graph.allData u ∨ u = m.graph.vars.size ∧ a ∈ m.graph.allData v := by
    rw [Graph.mem_allData_pasteVariable hg.wellFormed hlt hn, Graph.allData_newVariable,
      Graph.allData_newVariable]
  have hget (e : DataId) : (m.store.modify d (·.addMember name m.graph.vars.size)).get e =
      if e = d then (m.store.get e).addMember name m.graph.vars.size else m.store.get e :=
    Store.get_modify rfl
  have hclass {e : DataId} {c : ClassValue} (hc : m.store.get e = .ofClass c) :
      (m.store.modify d (·.addMember name m.graph.vars.size)).get e = .ofClass c := by
    rw [hget, if_neg]
    · exact hc
    · rintro rfl
      rw [h.object] at hc
      cases hc
  have hinsert {x : String} {slot : VarId}
      (h' : (o.members.insert name m.graph.vars.size)[x]? = some slot) :
      x = name ∧ slot = m.graph.vars.size ∨ x ≠ name ∧ o.members[x]? = some slot := by
    rw [Std.TreeMap.getElem?_insert] at h'
    split at h'
    · next heq =>
      exact .inl ⟨(Std.LawfulEqCmp.compare_eq_iff_eq.mp heq).symm, (Option.some.inj h').symm⟩
    · next hne => exact .inr ⟨fun heq => hne (Std.LawfulEqCmp.compare_eq_iff_eq.mpr heq.symm), h'⟩
  refine {
    sound := hm'
    enlarges := ⟨hm'.built, (h.enlarges.graph.newVariable name).pasteVariable h₀.wellFormed hg
      h.enlarges.graph.vars_le hlt hn v, fun e o' ho' => ?_, fun e c hc => ?_⟩
    absent := h.absent
    object := ?_
    isDict := ?_
    distinct := h.distinct
    newParams := h.newParams
    newSlots := fun x slot hslot => ?_
    names := fun x => ?_
    slots := fun x slot hslot' a => ?_
    values := fun p hp a => ?_ }
  · dsimp only
    rw [hget, if_neg]
    · exact h.enlarges.objects e o' ho'
    · rintro rfl
      exact h.absent o' ho'
  · obtain ⟨c', hc', hname⟩ := h.enlarges.classes e c hc
    exact ⟨c', hclass hc', hname⟩
  · dsimp only
    rw [hget, if_pos rfl, h.object]
    rfl
  · obtain ⟨c, hc, hname⟩ := h.isDict
    exact ⟨c, hclass hc, hname⟩
  · rcases hinsert hslot with ⟨-, rfl⟩ | ⟨-, hold⟩
    · exact h.enlarges.graph.vars_le
    · exact h.newSlots x slot hold
  · rw [Std.TreeMap.mem_insert, Std.LawfulEqCmp.compare_eq_iff_eq, h.names x]
    simp [or_comm, eq_comm]
  · rw [h.mem_append_iff h₀ hv]
    rcases hinsert hslot' with ⟨rfl, rfl⟩ | ⟨hne, hold⟩
    · have hnone (u : VarId) : (x, u) ∉ entries := fun hmem => by
        have hname : x ∈ o.members := (h.names x).mpr (List.mem_map.mpr ⟨_, hmem, rfl⟩)
        rw [Std.TreeMap.mem_iff_isSome_getElem?, hslot] at hname
        cases hname
      rw [hdata, Graph.allData_eq_nil le_rfl]
      simp [hnone]
    · rw [← h.slots x slot hold a, hdata]
      refine or_congr_right (and_congr_left' (iff_of_false ?_ hne))
      exact Nat.ne_of_lt (h.lt.1 x slot hold)
  · rw [← h.values p hp a]
    exact hdata.trans (or_iff_left fun ha => Nat.ne_of_lt (h.lt.2 _ p hp) ha.1)

theorem member (h : Gathers m₀ m d o entries valued) (h₀ : m₀.graph.Built)
    (hn : n < m.graph.nodes.size) (hv : v < m₀.graph.vars.size) (name : String) :
    ∃ m' o', setMember n d name v m = .ok () m' ∧
      Gathers m₀ m' d o' (entries ++ [(name, v)]) valued := by
  obtain ⟨m', hrun, -, hcases⟩ := setMember_ok m n d name v
  have hm' := ((Follows.setMember (.inr hn) d name v).left h.sound le_rfl hrun).1
  have hmembers : (m.store.get d).members? = some o.members := by
    rw [h.object]
    rfl
  rcases hcases with ⟨hnone, -⟩ | ⟨members, slot, hsome, ⟨hslot, rfl⟩ | ⟨hslot, rfl, rfl⟩⟩
  · rw [hmembers] at hnone
    cases hnone
  · obtain rfl := Option.some.inj (hmembers.symm.trans hsome)
    exact ⟨_, o, hrun, h.memberAgain h₀ hn hv hslot hm'⟩
  · obtain rfl := Option.some.inj (hmembers.symm.trans hsome)
    exact ⟨_, _, hrun, h.memberNew h₀ hn hv hslot hm'⟩

/-- A keyword is gathered: its name among the keys, its value among the values, and as a member. -/
theorem keyword {S : Setting} (h : Gathers m₀ m d o entries entries) (hfits : S.Fits m)
    (h₀ : m₀.graph.Built) (hn : n < m₀.graph.nodes.size) (hv : v < m₀.graph.vars.size)
    (name : String) : ∃ m' o', (do
      fillTypeParam d "K" [← literalVar (.str name)] n
      fillTypeParam d "V" [v] n
      setMember n d name v) m = .ok () m' ∧
      S.Fits m' ∧ Gathers m₀ m' d o' (entries ++ [(name, v)]) (entries ++ [(name, v)]) := by
  obtain ⟨w, m₁, hliteral, hfits₁, -⟩ := Completes.literalVar name m hfits
  have h₁ := h.enlarge ((Follows.literalVar (.str name)).left h.sound le_rfl hliteral).1
    (Enlarging.literalVar name m w m₁ h.sound.built h.sound.root hliteral)
  obtain ⟨m₂, hkey, h₂⟩ := h₁.fill h₀ (hn.trans_le h₁.enlarges.graph.nodes_le) "K" w
    fun p hp x => by
      rw [← h₁.values p hp x]
      exact or_iff_left fun hx => absurd hx.1 (by decide)
  have hvalues (p : VarId) (hp : o.typeParams["V"]? = some p) (x : DataId) :
      (x ∈ m₂.graph.allData p ∨ "V" = "V" ∧ x ∈ m₂.graph.allData v) ↔
        ∃ entry ∈ entries ++ [(name, v)], x ∈ m₀.graph.allData entry.2 := by
    rw [h₂.values p hp x, h₂.enlarges.graph.allData_eq h₀.wellFormed hv]
    simp [or_and_right, exists_or]
  obtain ⟨m₃, hvalue, h₃⟩ :=
    h₂.fill h₀ (hn.trans_le h₂.enlarges.graph.nodes_le) "V" v hvalues
  obtain ⟨m', o', hmember, h'⟩ := h₃.member h₀ (hn.trans_le h₃.enlarges.graph.nodes_le) hv name
  have hfits₂ := (Agree.fillTypeParam d "K" [w] n).fits hfits₁ hkey
  have hfits₃ := (Agree.fillTypeParam d "V" [v] n).fits hfits₂ hvalue
  refine ⟨m', o', ?_, (Agree.setMember n d name v).fits hfits₃ hmember, h'⟩
  rw [bind_eq_of_ok hliteral, bind_eq_of_ok hkey, bind_eq_of_ok hvalue, hmember]

/-- One keyword after the other is gathered. -/
theorem keywords {S : Setting} (h : Gathers m₀ m d o entries entries) (hfits : S.Fits m)
    (h₀ : m₀.graph.Built) (hn : n < m₀.graph.nodes.size) {more : List (String × VarId)}
    (hmore : ∀ entry ∈ more, entry.2 < m₀.graph.vars.size) : ∃ m' o', (more.forM fun (name, v) => do
      fillTypeParam d "K" [← literalVar (.str name)] n
      fillTypeParam d "V" [v] n
      setMember n d name v) m = .ok () m' ∧
      Gathers m₀ m' d o' (entries ++ more) (entries ++ more) := by
  induction more generalizing m o entries with
  | nil =>
    refine ⟨m, o, rfl, ?_⟩
    rwa [List.append_nil]
  | cons entry more ih =>
    obtain ⟨name, v⟩ := entry
    obtain ⟨hv, hmore⟩ := List.forall_mem_cons.mp hmore
    obtain ⟨m₁, o₁, hfirst, hfits₁, h₁⟩ := h.keyword hfits h₀ hn hv name
    obtain ⟨m', o', hrest, h'⟩ := ih h₁ hfits₁ hmore
    refine ⟨m', o', (bind_eq_of_ok hfirst).trans hrest, ?_⟩
    rwa [List.append_assoc] at h'

end Gathers

/-- Nothing is gathered yet. -/
theorem IsNew.gathers {c : ClassValue} (h : IsNew m₀ m d o) (hm : m.Sound) (hle : m₀.Enlarges m)
    (hc : m.store.get o.cls = .ofClass c) (hname : c.name = "dict") :
    Gathers m₀ m d o [] [] where
  sound := hm
  enlarges := hle
  absent := h.absent
  object := h.object
  isDict := ⟨c, hc, hname⟩
  distinct := h.distinct
  newParams name p hp := (h.params name p hp).1
  newSlots name v hv := by simp [h.members] at hv
  names name := by simp [h.members]
  slots name slot hslot := by simp [h.members] at hslot
  values p hp x := by simp [(h.params "V" p hp).2.2]

/-- Keywords that are gathered are what the members hold, whatever else is made. -/
theorem Gathers.holdsKeywords {entries : List (String × VarId)} (h : Gathers m₀ m d o entries entries)
    (hle : m.Enlarges m') : m₀.HoldsKeywords m' o entries := by
  have hdata {v : VarId} (hv : v < m.graph.vars.size) : m'.graph.allData v = m.graph.allData v :=
    hle.graph.allData_eq h.sound.built.wellFormed hv
  refine ⟨h.names, fun name slot hslot x => ?_, fun p hp x => ?_⟩
  · rw [hdata (h.lt.1 name slot hslot)]
    exact h.slots name slot hslot x
  · rw [hdata (h.lt.2 _ p hp)]
    exact h.values p hp x

/-- A dictionary for surplus keywords has a member for each, and a new variable holds it. -/
theorem surplusDict_ok {S : Setting} (hfits : S.Fits m) (hm : m.Sound) (hn : n < m.graph.nodes.size)
    {surplus : List (String × VarId)} (hsurplus : ∀ entry ∈ surplus, entry.2 < m.graph.vars.size) :
    ∃ v m' o, surplusDict n none surplus m = .ok v m' ∧ m.Enlarges m' ∧
      m'.HoldsOnly n v o "dict" ∧ m.HoldsKeywords m' o surplus := by
  obtain ⟨cls, m₁, d, m₂, o, c, hclass, hobject, h₂, hnew, hc, hname, -⟩ :=
    libraryObject_ok hfits hm.built hm.root (show "dict" ∈ Library.needed by decide) none
  have hfits₁ := (Agree.libraryClass (Agree.needed (by decide))).fits hfits hclass
  have hm₁ := ((Follows.libraryClass "dict").left hm le_rfl hclass).1
  have hfits₂ := (Agree.newObject_none cls).fits hfits₁ hobject
  have hm₂ := ((Follows.newObject_none cls).left hm₁ le_rfl hobject).1
  obtain ⟨m₃, o₃, hkeywords, h₃⟩ :=
    (hnew.gathers hm₂ h₂ hc hname).keywords hfits₂ hm.built hn hsurplus
  obtain ⟨v, m₄, hv, h₄, b, hb⟩ := variableWith_enlarges h₃.sound.built
    (hn.trans_le h₃.enlarges.graph.nodes_le) "kwargs" d []
  obtain ⟨c₃, hc₃, hname₃⟩ := h₃.isDict
  obtain ⟨c₄, hc₄, hname₄⟩ := h₄.classes o₃.cls c₃ hc₃
  refine ⟨v, m₄, o₃, ?_, h₃.enlarges.trans h₄,
    ⟨d, b, c₄, hb, h₄.objects d o₃ h₃.object, hc₄, hname₄.trans hname₃⟩, h₃.holdsKeywords h₄⟩
  exact (bind_eq_of_ok hclass).trans ((bind_eq_of_ok hobject).trans
    ((bind_eq_of_ok hkeywords).trans hv))

/-- A tuple for surplus positional arguments has just these, and a new variable holds it. -/
theorem surplusTuple_ok {S : Setting} (hfits : S.Fits m) (hb : m.graph.Built)
    (hn : n < m.graph.nodes.size) (name : String) (surplus : List VarId) :
    ∃ v m' o, surplusTuple n name none surplus m = .ok v m' ∧ m.Enlarges m' ∧
      m'.HoldsOnly n v o "tuple" ∧ o.payload = some (.tuple surplus) := by
  obtain ⟨d, m₁, o, c, htuple, h₁, ho, hc, hname, hpayload⟩ :=
    tupleObject_ok hfits hb hn surplus
  obtain ⟨v, m₂, hv, h₂, b, hbound⟩ :=
    variableWith_enlarges h₁.built (hn.trans_le h₁.graph.nodes_le) name d []
  obtain ⟨c₂, hc₂, hname₂⟩ := h₂.classes o.cls c hc
  exact ⟨v, m₂, o, (bind_eq_of_ok htuple).trans hv, h₁.trans h₂,
    ⟨d, b, c₂, hbound, h₂.objects d o ho, hc₂, hname₂.trans hname⟩, hpayload⟩

end Analysis

end ValueTrace
