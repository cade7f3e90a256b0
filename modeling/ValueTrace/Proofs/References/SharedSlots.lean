import ValueTrace.Proofs.References.Values

/-!
# Slots that are shared

Local variables that are pushed as a dictionary, a dictionary that is taken for local variables and
a class that is made of either have the same slots as what they are made of. These are still there
at that time, since nothing is forgotten where classes and objects are made.
-/

namespace ValueTrace

namespace Store

variable {s : Store} {x : Value} {d : DataId} {ns : NamespaceId} {f : Value → Value}

theorem slots_subset_add : s.slots ⊆ (s.add x).2.slots := by
  rintro slot (⟨d, ms, hms, hslot⟩ | h)
  · refine .inl ⟨d, ms, ?_, hslot⟩
    rw [get_add, if_neg]
    · exact hms
    · rintro rfl
      rw [fresh_add] at hms
      cases hms
  · exact .inr h

theorem slots_subset_modify (hf : f .unsolvable = .unsolvable) (h : ∀ x, x.slots ⊆ (f x).slots) :
    s.slots ⊆ (s.modify d f).slots := by
  rintro slot (⟨e, hslot⟩ | hslot)
  · refine .inl ⟨e, ?_⟩
    rw [get_modify hf]
    split
    · exact h _ hslot
    · exact hslot
  · cases d <;> exact .inr hslot

theorem slots_subset_newNamespace : s.slots ⊆ s.newNamespace.2.slots := by
  rintro slot (h | ⟨ns, ms, hms, hslot⟩)
  · exact .inl h
  · refine .inr ⟨ns, ms, ?_, hslot⟩
    obtain ⟨hlt, -⟩ := Array.getElem?_eq_some_iff.mp hms
    change (s.namespaces.push ∅)[ns]? = some ms
    rw [Array.getElem?_push_lt hlt, ← Array.getElem?_eq_getElem hlt]
    exact hms

end Store

namespace Analysis

variable {α β σ : Type} {x : Analysis α} {f : α → Analysis β} {e : Extent}

/-- Slots that are there when a run begins are there when it ends. -/
structure RetainsSlots (x : Analysis α) : Prop where
  retains : ∀ m a m', x m = .ok a m' → m.store.slots ⊆ m'.store.slots

namespace RetainsSlots

theorem pure (a : α) : RetainsSlots (pure a) := ⟨fun _ _ _ h => by
  cases h
  exact subset_rfl⟩

theorem get : RetainsSlots get := ⟨fun _ _ _ h => by
  cases h
  exact subset_rfl⟩

theorem throw (failure : Failure) : RetainsSlots (throw failure : Analysis α) :=
  ⟨fun _ _ _ h => by cases h⟩

theorem bind (hx : RetainsSlots x) (hf : ∀ a, RetainsSlots (f a)) : RetainsSlots (x >>= f) := by
  refine ⟨fun m b m' h => ?_⟩
  obtain ⟨a, m₁, hr, h⟩ := bind_ok.mp h
  exact (hx.retains m a m₁ hr).trans ((hf a).retains m₁ b m' h)

theorem mapM {f : σ → Analysis β} {l : List σ} (hf : ∀ a, RetainsSlots (f a)) :
    RetainsSlots (l.mapM f) := by
  induction l with
  | nil => exact pure _
  | cons a l ih =>
    rw [List.mapM_cons]
    exact bind (hf a) fun b => bind ih fun bs => pure _

theorem onGraph (h : Graph → α × Graph) : RetainsSlots (onGraph h) := ⟨fun _ _ _ hx => by
  cases hx
  exact subset_rfl⟩

theorem modify {h : Machine → Machine} (hh : ∀ m, m.store.slots ⊆ (h m).store.slots) :
    RetainsSlots (modify h) := ⟨fun m _ _ hx => by
  cases hx
  exact hh m⟩

theorem onStore {h : Store → α × Store} (hh : ∀ s, s.slots ⊆ (h s).2.slots) :
    RetainsSlots (onStore h) := ⟨fun m _ _ hx => by
  cases hx
  exact hh m.store⟩

theorem report (kind : FindingKind) (message : String) (details : Option String)
    (vars : List VarId) : RetainsSlots (report kind message details vars) :=
  modify fun _ => subset_rfl

theorem share (h : Shared → Shared) : RetainsSlots (share h) := modify fun _ => subset_rfl

theorem dataAt (v : VarId) (n : NodeId) : RetainsSlots (dataAt v n) := bind get fun _ => pure _

theorem addValue (x : Value) : RetainsSlots (addValue x) := onStore fun _ => Store.slots_subset_add

theorem variableWith (name : String) (d : DataId) (bs : List BindingId) (n : NodeId) :
    RetainsSlots (variableWith name d bs n) :=
  bind (onGraph _) fun _ => bind (onGraph _) fun _ => pure _

theorem libraryClassWithin (fuel : Nat) (name : String) :
    RetainsSlots (libraryClassWithin fuel name) := by
  induction fuel generalizing name with
  | zero => exact throw _
  | succ fuel ih =>
    unfold Analysis.libraryClassWithin
    refine bind get fun m => ?_
    split
    · exact pure _
    · refine bind get fun m => ?_
      split
      · refine bind (addValue _) fun id => ?_
        refine bind (share _) fun _ => ?_
        refine bind (mapM fun base => ?_) fun bases => ?_
        · exact bind (ih base) fun d => bind (variableWith ..) fun v => pure _
        refine bind get fun m => ?_
        dsimp only
        split
        · refine bind (modify fun m => Store.slots_subset_modify rfl fun x => ?_) fun _ => pure _
          cases x with
          | ofClass c => exact fun _ hslot => hslot
          | _ => exact subset_rfl
        · exact throw _
      · exact throw _

theorem libraryClass (name : String) : RetainsSlots (libraryClass name) :=
  bind get fun _ => libraryClassWithin _ name

theorem libraryClassVar (name : String) : RetainsSlots (libraryClassVar name) :=
  bind (libraryClass name) fun _ => variableWith ..

theorem newObject (cls : DataId) (payload : Option Payload) :
    RetainsSlots (newObject cls payload) :=
  bind get fun _ => bind (mapM fun _ => bind (onGraph _) fun _ => pure _) fun _ => addValue _

theorem usableBases (n : NodeId) (vs : List VarId) : RetainsSlots (usableBases n vs) := by
  induction vs with
  | nil => exact pure _
  | cons v vs ih =>
    unfold Analysis.usableBases
    refine bind (dataAt v n) fun data => bind get fun m => ?_
    dsimp only
    split
    · exact bind ih fun _ => pure _
    · exact bind (report ..) fun _ => bind ih fun _ => pure _

end RetainsSlots

variable {e' : Extent} {S : Set (VarId × String)} {Q : Extent → α → Prop} {R : Extent → β → Prop}

/-- On sound machines that extend so far and have these slots, the run leaves a sound machine. -/
structure KeepsWith (S : Set (VarId × String)) (e : Extent) (x : Analysis α)
    (Q : Extent → α → Prop) : Prop where
  leaves : ∀ m : Machine, m.Sound → e ≤ m.extent → S ⊆ m.store.slots → Left m.extent Q (x m)

namespace KeepsWith

theorem bind (hx : Keeps e x Q) (hr : RetainsSlots x)
    (hf : ∀ {e'}, e ≤ e' → ∀ a, Q e' a → KeepsWith S e' (f a) R) : KeepsWith S e (x >>= f) R :=
  ⟨fun m hm he hS => (hx.leaves hm he).bind fun a m₁ hx hm₁ hle ha =>
    ((hf (he.trans hle) a ha).leaves m₁ hm₁ le_rfl (hS.trans (hr.retains m a m₁ hx))).after hle⟩

theorem mono {T : Set (VarId × String)} (h : S ⊆ T) (hx : KeepsWith S e x Q) :
    KeepsWith T e x Q := ⟨fun m hm he hT => hx.leaves m hm he (h.trans hT)⟩

theorem andThen (hx : KeepsWith S e x Q)
    (hf : ∀ {e'}, e ≤ e' → ∀ a, Q e' a → Keeps e' (f a) R) : KeepsWith S e (x >>= f) R :=
  ⟨fun m hm he hS => (hx.leaves m hm he hS).bind fun a _ _ hm₁ hle ha =>
    ((hf (he.trans hle) a ha).leaves hm₁ le_rfl).after hle⟩

/-- What has these slots gains none. -/
theorem gains (h : Store → α × Store)
    (hh : ∀ {e'} (s : Store), e ≤ e' → e'.HasStore s → e'.HasStore (h s).2)
    (hp : ∀ s : Store, s.KeepsObjects (h s).2) (hg : ∀ s : Store, s.Gains (h s).2 S ∅)
    (hrest : ∀ {e'}, e ≤ e' → ∀ a, Keeps e' (f a) R) :
    KeepsWith S e (onStore h >>= f) R := by
  refine ⟨fun m hm he hS => ?_⟩
  have hgains : m.store.Gains (h m.store).2 ∅ ∅ :=
    ⟨((hg m.store).slots.trans (Set.union_subset subset_rfl hS)).trans Set.subset_union_left,
      (hg m.store).params⟩
  have hle := Machine.extent_le_withStore (hp m.store) hgains
  have hm' := hm.withStore (hh m.store he hm.store) (hp m.store) hgains
  exact ((hrest (he.trans hle) (h m.store).1).leaves hm' le_rfl).after hle

/-- What a machine has at some time may be used from then on. -/
theorem of_get {f : Machine → Analysis β} (h : ∀ m : Machine, m.Sound → e ≤ m.extent →
    KeepsWith m.store.slots m.extent (f m) R) : Keeps e (get >>= f) R :=
  Keeps.of_left fun m hm he => (h m hm he).leaves m hm le_rfl subset_rfl

end KeepsWith

end Analysis

namespace Attempt.Follows

variable {α β : Type} {e : Extent} {Q : Extent → α → Prop} {R : Extent → β → Prop}

/-- A part of an attempt may use what there is when it begins. -/
theorem getLift {x : Machine → Analysis α} {f : Machine → α → Attempt β}
    (hx : ∀ m : Machine, m.Sound → e ≤ m.extent →
      Analysis.KeepsWith m.store.slots m.extent (x m) Q)
    (hf : ∀ {e'}, e ≤ e' → ∀ m a, Q e' a → Keeps e' (f m a) R) :
    Keeps e (do let m ← MonadState.get; let a ← liftM (x m); f m a) R := by
  refine Analysis.Keeps.of_left fun m hm he => ?_
  have hlift : Analysis.Left m.extent (fun e' r => ∃ a, r = .ok a ∧ Q e' a)
      ((liftM (x m) : Attempt α).run m) :=
    Analysis.Left.bind (f := fun a => Pure.pure (Except.ok a))
      ((hx m hm he).leaves m hm le_rfl subset_rfl) fun a _ _ hm₁ hle ha => ⟨hm₁, hle, a, rfl, ha⟩
  refine hlift.bind (f := ExceptT.bindCont (f m)) fun r m₁ _ hm₁ hle hr => ?_
  obtain ⟨a, rfl, ha⟩ := hr
  exact (Analysis.Keeps.leaves (hf (he.trans hle) m a ha) hm₁ le_rfl).after hle

end Attempt.Follows

end ValueTrace
