import ValueTrace.Proofs.Safety.Layout
import ValueTrace.Proofs.Signatures.Filling

/-!
# Containers that may be true

A container may count as true once one of its type parameters has been bound. A library function
binds them to what its type variables match, so what it is passed matters only if it is matched to a
type variable. An argument of which nothing is known is if the type variable itself is the type of
the parameter, and not if the parameter asks for a container of it.
-/

namespace ValueTrace

/-- A type mentions a type variable. -/
inductive TypeExpr.Mentions (V : String) : TypeExpr → Prop
  | var : Mentions V (.var V)
  | generic {name : String} {params : List TypeExpr} {t : TypeExpr} :
    t ∈ params → t.Mentions V → Mentions V (.generic name params)
  | union {options : List TypeExpr} {t : TypeExpr} :
    t ∈ options → t.Mentions V → Mentions V (.union options)

/-- In a view that fits a signature an argument of which nothing is known is passed for a parameter
of a type. -/
structure Machine.PassesOpaque (m : Machine) (f : NativeValue) (args : CallArgs)
    (view : List BindingId) (r : DataId) (t : TypeExpr) (b : BindingId) : Prop where
  isOpaque : (m.store.get (m.graph.dataOf b)).isOpaque = true
  taken : ∃ sig σ p, m.fitting? f args view = some (sig, σ) ∧ m.receiver? sig view = some r ∧
    sig.Takes (view.take args.positional.length)
      ((args.named.map (·.1)).zip (view.drop args.positional.length)) p b ∧ p.type = some t

variable {s : Store} {g : Graph} {r d : DataId} {o : Object} {V : String} {t : TypeExpr}
  {m m' mv : Machine} {n stop : NodeId} {p result : VarId} {b : BindingId} {f : NativeValue}
  {args : CallArgs} {view : List BindingId} {before after : List (List BindingId)}

/-- A container may count as true if it has no type parameters or something is bound to one. -/
theorem Store.compatibleWith_true (ho : s.get r = .object o) (hpayload : o.payload = none) :
    s.compatibleWith g r true = true ↔ o.typeParams.isEmpty = true ∨
      ∃ (name : String) (p : VarId) (d : DataId), o.typeParams[name]? = some p ∧ d ∈ g.allData p := by
  unfold compatibleWith
  rw [ho]
  dsimp only
  rw [hpayload]
  dsimp only
  split
  · next hempty => simp [hempty]
  · next hempty =>
    rw [or_iff_right hempty]
    split
    · next hall =>
      refine iff_of_false Bool.false_ne_true ?_
      rintro ⟨name, p, d, hp, hd⟩
      have hnil := List.isEmpty_iff.mp (List.all_eq_true.mp hall p (mem_values_of_getElem? hp))
      obtain ⟨b, hb, -⟩ := Graph.mem_allData.mp hd
      rw [hnil] at hb
      cases hb
    · next hall =>
      refine iff_of_true rfl ?_
      rw [Bool.not_eq_true, List.all_eq_false] at hall
      obtain ⟨p, hp, hne⟩ := hall
      obtain ⟨name, hname⟩ := mem_values.mp hp
      obtain ⟨b, hb⟩ := List.exists_mem_of_ne_nil _ fun h => hne (List.isEmpty_iff.mpr h)
      exact ⟨name, p, g.dataOf b, hname, List.mem_map_of_mem hb⟩

/-- An argument of which nothing is known fills the type parameter that it is matched to. -/
theorem Machine.PassesOpaque.fills (h : mv.PassesOpaque f args view r t b)
    (ht : t.takesOpaque = some (some V)) (hV : V ∈ f.mutates)
    (hp : mv.store.typeParam? r V = some p) : mv.Fills f args view r p (mv.graph.dataOf b) := by
  obtain ⟨sig, σ, param, hfit, hr, htakes, htype⟩ := h.taken
  refine ⟨sig, σ, V, hfit, hr, hV, hp, List.mem_flatMap.mpr ⟨.binding b, ?_, List.mem_singleton_self _⟩⟩
  obtain ⟨sig', -, hsig⟩ := List.exists_of_findSome?_eq_some hfit
  obtain ⟨τ, hτ, hpair⟩ := Option.map_eq_some_iff.mp hsig
  cases hpair
  obtain ⟨ρ, ρ', hmatch, hle⟩ := Matcher.matchSignature_takes hτ htakes
  unfold Matcher.matchArg at hmatch
  rw [htype] at hmatch
  have hadd : some ρ' = some (ρ.add V (.binding b)) := by
    rw [← hmatch, Option.elim_some, Matcher.matchType_of_isOpaque h.isOpaque t ρ, ht]
    rfl
  cases hadd
  refine hle V ?_
  rw [Subst.getD_add, if_pos rfl]
  exact List.mem_append_right _ List.mem_cons_self

/-- A view of a call fills a type parameter of an object. -/
def Analysis.CallFills (n : NodeId) (f : NativeValue) (args : CallArgs) (m : Machine)
    (result : VarId) (r : DataId) : Prop :=
  ∃ before view after mv p d, ComesTo n f args m before view after result mv ∧
    mv.Fills f args view r p d

/-- A container may count as true after a call if it may before, or if a view of the call fills one
of its type parameters, and only then if it is all that the first argument shows. An argument of
which nothing is known does so if it is matched to a type variable that the function mutates. -/
theorem callLibrary_truthy (hm : m.Sound) (hn : n < m.graph.nodes.size)
    (ho : m.store.get r = .object o) (hpayload : o.payload = none)
    (hcall : (Analysis.callLibrary n f args).run m = .ok (.ok (stop, result)) m') :
    (m.store.compatibleWith m.graph r true = true ∨ Analysis.CallFills n f args m result r →
      m'.store.compatibleWith m'.graph r true = true) ∧
    (∀ self rest, args.positional = self :: rest →
      (∀ d ∈ m.graph.visibleData self n, d = r) →
        (m'.store.compatibleWith m'.graph r true = true ↔
          m.store.compatibleWith m.graph r true = true ∨ Analysis.CallFills n f args m result r)) ∧
    ∀ before view after mv t b V p, Analysis.ComesTo n f args m before view after result mv →
      mv.PassesOpaque f args view r t b → t.takesOpaque = some (some V) → V ∈ f.mutates →
      m.store.typeParam? r V = some p → m'.store.compatibleWith m'.graph r true = true := by
  obtain ⟨o', ho', hpayload', hparams⟩ := Analysis.callLibrary_object hm hn ho hcall
  have htrue := Store.compatibleWith_true (g := m.graph) ho hpayload
  have htrue' := Store.compatibleWith_true (g := m'.graph) ho' (hpayload'.trans hpayload)
  rw [hparams] at htrue'
  have hparam {before view after mv} (hview : Analysis.ComesTo n f args m before view after result mv)
      (V : String) : mv.store.typeParam? r V = o.typeParams[V]? :=
    Store.typeParam?_of_typeParams ((hview.ready hm (.inr hn)).le.typeParams r _
      (Option.map_eq_some_iff.mpr ⟨o, Store.object?_of_get ho, rfl⟩)) V
  have hfills (h : Analysis.CallFills n f args m result r) :
      m'.store.compatibleWith m'.graph r true = true := by
    obtain ⟨before, view, after, mv, p, d, hview, hfill⟩ := h
    obtain ⟨sig, σ, V, hfit, hr, hV, hp, hd⟩ := id hfill
    exact htrue'.mpr (.inr ⟨V, p, d, (hparam hview V).symm.trans hp,
      Analysis.callLibrary_fills hm hn hview hfill hcall⟩)
  have hkept (h : m.store.compatibleWith m.graph r true = true) :
      m'.store.compatibleWith m'.graph r true = true := by
    have hle := ((Attempt.Follows.callLibrary (.inr hn) f args).left hm le_rfl hcall).2.1
    refine htrue'.mpr ((htrue.mp h).imp_right ?_)
    rintro ⟨name, p, d, hp, hd⟩
    exact ⟨name, p, d, hp, hle.data (show (p, d) ∈ m.extent.data from hd)⟩
  refine ⟨fun h => h.elim hkept hfills, fun self rest hargs hself => ⟨fun h => ?_,
    fun h => h.elim hkept hfills⟩, fun before view after mv t b V p hview hpass ht hV hp => ?_⟩
  · by_cases hfill : Analysis.CallFills n f args m result r
    · exact .inr hfill
    · have hkeeps := Analysis.callLibrary_quiet hm hn ho hargs hself
        (fun before view after mv p d hview hfills =>
          hfill ⟨before, view, after, mv, p, d, hview, hfills⟩) hcall
      refine .inl (htrue.mpr ((htrue'.mp h).imp_right ?_))
      rintro ⟨name, p, d, hp, hd⟩
      exact ⟨name, p, d, hp, (hkeeps.data name p hp d).mp hd⟩
  · rw [Store.typeParam?_of_get ho, ← hparam hview] at hp
    exact hfills ⟨before, view, after, mv, p, _, hview, hpass.fills ht hV hp⟩

/-- A list into which nothing has been put, and an argument of which nothing is known. -/
def bareList : Machine where
  library :=
    let nothing : LibraryClass :=
      { name := "NoneType", bases := [], template := [], methods := ∅, attributes := ∅ }
    { classes := (∅ : Std.TreeMap String LibraryClass).insert "NoneType" nothing }
  graph :=
    let g := (((Graph.newNode "start").after {}).newVariable "T").2
    let g := ((g.newVariable "l").2.newVariable "x").2
    ((g.addBinding 1 (.value 2) [] 0).2.addBinding 2 (.value 0) [] 0).2
  store := {
    values := #[.unsolvable, .ofClass { name := "list", template := ["T"], origin := .library },
      .object { cls := .value 1, typeParams := (∅ : Members).insert "T" 0 }] }

/-- `list.append`. -/
def listAppend : NativeValue where
  name := "list.append"
  signatures := [{
    params := [{ name := "self" }, { name := "x", type := some (.var "T") }]
    result := .name "NoneType" }]
  mutates := ["T"]

def listsOfT : TypeExpr :=
  .union (["list", "tuple", "set", "iterator"].map fun name => .generic name [.var "T"])

/-- `list.extend`. -/
def listExtend : NativeValue where
  name := "list.extend"
  signatures := [{
    params := [{ name := "self" }, { name := "iterable", type := some listsOfT }]
    result := .name "NoneType" }]
  mutates := ["T"]

private theorem bareList_sound : bareList.Sound := by
  have hnames := (((Graph.Built.empty none).node "start").var "T").var "l" |>.var "x"
  have hlist := hnames.binding (.value 2) [] (v := 1) (n := 0) (by decide) (by decide)
  have hbuilt := hlist.binding (.value 0) [] (v := 2) (n := 0) (by decide) (by decide)
  apply Machine.Sound.of_values hbuilt ⟨by decide, by decide⟩ (by decide) rfl
  · have hparam : bareList.graph.extent.HasVar 0 := show 0 < bareList.graph.vars.size by decide
    simp only [List.forall_mem_cons]
    exact ⟨trivial, Extent.hasMembers_empty _, ⟨(Extent.hasMembers_empty _).insert "T" hparam,
      Extent.hasMembers_empty _, nofun⟩, nofun⟩
  · simp [Value.members?, eq_comm]

def bareListCall : Machine :=
  { bareList with graph := (bareList.graph.newVariable "return").2 }

private theorem bareList_comesTo {f : NativeValue}
    (hitem : Analysis.dictItem 0 f [1, 2] bareList = .ok none bareList) :
    Analysis.ComesTo 0 f { positional := [1, 2] } bareList [] [0, 1] [] 3 bareListCall where
  shut := rfl
  shown := by decide +kernel
  reached := ⟨bareList, bareListCall, [], hitem, rfl, by decide +kernel, rfl⟩

/-- Whether the list may count as true after a call that takes the argument. -/
def truthAfter (f : NativeValue) : Option Bool :=
  match (Analysis.callLibrary 0 f { positional := [1, 2] }).run bareList with
  | .ok (.ok r) m' =>
    if r = (0, 3) then some (m'.store.compatibleWith m'.graph (.value 2) true) else none
  | .ok (.error _) _ => none
  | .error .. => none

private theorem truthAfter_eq_some {truth : Bool} (h : truthAfter f = some truth) :
    ∃ m', (Analysis.callLibrary 0 f { positional := [1, 2] }).run bareList =
        .ok (.ok (0, 3)) m' ∧ m'.store.compatibleWith m'.graph (.value 2) true = truth := by
  unfold truthAfter at h
  split at h
  · next r m' hrun =>
    split at h
    · next hr => exact ⟨m', hr ▸ hrun, Option.some.inj h⟩
    · cases h
  · cases h
  · cases h

private theorem bareList_appended : truthAfter listAppend = some true := by decide +kernel

private theorem bareList_extended : truthAfter listExtend = some false := by decide +kernel

/-- A list may count as true after something of which nothing is known has been appended. -/
theorem bareList_truthy : bareList.Sound ∧ 0 < bareList.graph.nodes.size ∧
    Analysis.ComesTo 0 listAppend { positional := [1, 2] } bareList [] [0, 1] [] 3 bareListCall ∧
    bareListCall.PassesOpaque listAppend { positional := [1, 2] } [0, 1] (.value 2) (.var "T") 1 ∧
    bareList.store.compatibleWith bareList.graph (.value 2) true = false ∧
    ∃ m', (Analysis.callLibrary 0 listAppend { positional := [1, 2] }).run bareList =
        .ok (.ok (0, 3)) m' ∧ m'.store.compatibleWith m'.graph (.value 2) true = true := by
  obtain ⟨m', hcall, -⟩ := truthAfter_eq_some bareList_appended
  have hview := bareList_comesTo (f := listAppend) rfl
  have hpass : bareListCall.PassesOpaque listAppend { positional := [1, 2] } [0, 1] (.value 2)
      (.var "T") 1 := ⟨rfl, _, _, _, rfl, rfl, .inl ⟨1, rfl, rfl⟩, rfl⟩
  exact ⟨bareList_sound, by decide, hview, hpass, by decide +kernel, m', hcall,
    (callLibrary_truthy bareList_sound (by decide) rfl rfl hcall).2.2 _ _ _ _ _ _ "T" 0 hview hpass
      rfl List.mem_cons_self rfl⟩

private theorem listExtend_isBuiltin : Library.IsBuiltinMethod "list" "extend" listExtend := by
  rw [Library.isBuiltinMethod_iff "list" "extend"
    ["(self, iterable: list[T] or tuple[T] or set[T] or iterator[T]) -> None"] ["T"]
    (by decide +kernel), List.map_singleton, Library.signatureOf_eq
      [.parenOpen, .name "self", .comma, .name "iterable", .colon, .name "list", .bracketOpen,
        .name "T", .bracketClose, .or, .name "tuple", .bracketOpen, .name "T", .bracketClose, .or,
        .name "set", .bracketOpen, .name "T", .bracketClose, .or, .name "iterator", .bracketOpen,
        .name "T", .bracketClose, .parenClose, .arrow, .name "None"]
    (by decide +kernel) (by decide +kernel) rfl]
  rfl

/-- It may not after being extended by something of which nothing is known, as if that were
empty. So it is not the case that containers may count as true after they have been passed such an
argument for a type that mentions a type variable that is mutated. -/
theorem callLibrary_stays_empty : ¬ ∀ {m mv m' : Machine} {n stop : NodeId} {cls method : String}
    {f : NativeValue} {args : CallArgs} {before after : List (List BindingId)}
    {view : List BindingId} {result p : VarId} {r : DataId} {o : Object} {t : TypeExpr}
    {b : BindingId} {V : String}, m.Sound → n < m.graph.nodes.size →
    m.store.get r = .object o → cls ∈ ["list", "set", "dict"] → m.store.className o.cls = cls →
    Library.IsBuiltinMethod cls method f →
    Analysis.ComesTo n f args m before view after result mv →
    mv.PassesOpaque f args view r t b → V ∈ f.mutates → t.Mentions V →
    m.store.typeParam? r V = some p →
    (Analysis.callLibrary n f args).run m = .ok (.ok (stop, result)) m' →
    m'.store.compatibleWith m'.graph r true = true := by
  intro h
  obtain ⟨m', hcall, hempty⟩ := truthAfter_eq_some bareList_extended
  have hpass : bareListCall.PassesOpaque listExtend { positional := [1, 2] } [0, 1] (.value 2)
      listsOfT 1 := ⟨rfl, _, _, _, rfl, rfl, .inl ⟨1, rfl, rfl⟩, rfl⟩
  have htrue := h bareList_sound (by decide) rfl List.mem_cons_self rfl listExtend_isBuiltin
    (bareList_comesTo rfl) hpass (V := "T") (p := 0) List.mem_cons_self
    (.union List.mem_cons_self (.generic List.mem_cons_self .var)) rfl hcall
  rw [hempty] at htrue
  cases htrue

end ValueTrace
