import ValueTrace.Machine.Run
import ValueTrace.Call.Basic
import ValueTrace.Proofs.Safety.Library

/-!
# Runs that do nothing unexpected

A setting is what stays as it is while a frame runs: the options, the library, and the code of the
frames. Two runs agree in a setting if the first one is out of fuel, or if both do the same, nothing
unexpected happens, and the machine still fits the setting. A run that agrees with itself is safe.
-/

namespace ValueTrace

/-- The failures that well-formed code can lead to. -/
def Failure.IsExpected : Failure → Prop
  | .tooComplex _ | .stackUnderflow .. | .stateMismatch .. | .badComparison _ => True
  | _ => False

/-- What stays as it is in a frame: the code, and how many cells there are. -/
structure Shape where
  code : PlacedCode
  cells : Nat

def Frame.shape (f : Frame) : Shape := ⟨f.code, f.cells.length⟩

/-- The code has passed its check, and there is a cell for each of its names. -/
structure Shape.Valid (s : Shape) : Prop where
  code_ok : s.code.code.validate = .ok ()
  cells_eq : s.cells = s.code.code.cellvars.length + s.code.code.freevars.length

/-- No path that waits in the frame has stopped. -/
structure Frame.Waits (f : Frame) : Prop where
  entry : ∀ {i : Nat} {p : Path}, f.entries[i]? = some p → p.stop = none
  raised : ∀ {i : Nat} {p : Path}, f.raisedEntries[i]? = some p → p.stop = none

/-- Code in a value has passed its check, and the classes that a signature names are there. -/
def Value.Good (l : Library) : Value → Prop
  | .function f => f.code.code.validate = .ok ()
  | .native f => l.Returns f.signatures
  | .object { payload := some (.code c), .. } => c.code.validate = .ok ()
  | _ => True

/-- What stays as it is while the innermost of these frames runs. -/
structure Setting where
  options : Options
  library : Library
  rank : String → Nat
  frames : List Shape
  complete : library.Complete rank
  valid : ∀ s ∈ frames, s.Valid

namespace Store

variable {s : Store} {d e : DataId} {v : Value} {f : Value → Value}

theorem get_add : (s.add v).2.get e = if e = (s.add v).1 then v else s.get e := by
  cases e with
  | marker => rfl
  | value i =>
    change ((s.values.push v)[i]?).getD .unsolvable = _
    rw [Array.getElem?_push]
    by_cases hi : i = s.values.size
    · subst hi
      simp [add]
    · have hne : DataId.value i ≠ (s.add v).1 := fun h => hi (DataId.value.inj h)
      rw [if_neg hi, if_neg hne]
      rfl

theorem get_modify (hf : f .unsolvable = .unsolvable) :
    (s.modify d f).get e = if e = d then f (s.get e) else s.get e := by
  cases d with
  | marker =>
    split
    · next h =>
      subst h
      exact hf.symm
    · rfl
  | value i =>
    cases e with
    | marker => rfl
    | value j =>
      change ((s.values.modify i f)[j]?).getD .unsolvable = _
      rw [Array.getElem?_modify]
      by_cases hij : i = j
      · subst hij
        rw [if_pos rfl, if_pos rfl]
        cases h : s.values[i]? <;> simp [get, h, hf]
      · have hne : DataId.value j ≠ .value i := fun h => hij (DataId.value.inj h).symm
        rw [if_neg hij, if_neg hne]
        rfl

theorem fresh_add : s.get (s.add v).1 = .unsolvable := by simp [add, get]

theorem get_of_class? {c : ClassValue} (h : s.class? d = some c) : s.get d = .ofClass c := by
  unfold class? at h
  cases hv : s.get d <;> rw [hv] at h <;> cases h
  rfl

theorem class?_ne_add {c : ClassValue} (h : s.class? d = some c) : d ≠ (s.add v).1 := by
  rintro rfl
  rw [class?, fresh_add] at h
  cases h

end Store

namespace Graph.Growth

variable {α : Type} {z : Growth α} {g g' : Graph}

theorem run_ok {a : α} (h : z.run g = .ok a g') : z g = .ok a g' := by
  unfold run at h
  cases hz : z g with
  | ok b g₁ =>
    rw [hz] at h
    cases h
    rfl
  | error e g₁ =>
    rw [hz] at h
    cases h

theorem run_error {e : Failure} (h : z.run g = .error e g') : e.IsExpected := by
  unfold run at h
  cases hz : z g with
  | ok b g₁ =>
    rw [hz] at h
    cases h
  | error e g₁ =>
    rw [hz] at h
    cases h
    trivial

end Graph.Growth

namespace Setting

/-- The setting inside of a further frame. -/
def push (S : Setting) (s : Shape) (h : s.Valid) : Setting :=
  { S with
    frames := s :: S.frames
    valid := by
      intro t ht
      rcases List.mem_cons.mp ht with rfl | ht
      · exact h
      · exact S.valid t ht }

/-- Behind its own number, a linearisation lists shared classes of lesser rank, each once. -/
def Lineage (S : Setting) (m : Machine) (n : String) (d : DataId) (mro : List DataId) : Prop :=
  mro = [] ∨ ∃ behind, mro = d :: behind ∧ behind.Nodup ∧
    ∀ e ∈ behind, ∃ k, m.shared.classes[k]? = some e ∧ S.rank k < S.rank n

/-- The machine fits the setting, and all that it has made so far is good. -/
structure Fits (S : Setting) (m : Machine) : Prop where
  options_eq : m.options = S.options
  library_eq : m.library = S.library
  frames_eq : m.frames.map Frame.shape = S.frames
  waits : ∀ f ∈ m.frames, f.Waits
  values : ∀ d, (m.store.get d).Good S.library
  classes : ∀ {n : String} {d : DataId}, m.shared.classes[n]? = some d →
    ∃ c, m.store.class? d = some c ∧ c.name = n ∧ S.Lineage m n d c.mro

namespace Fits

variable {S : Setting} {m : Machine} {d : DataId} {v : Value} {f : Value → Value}

/-- Only what a setting speaks of matters. -/
theorem of_eq {m' : Machine} (h : S.Fits m) (hoptions : m'.options = m.options)
    (hlibrary : m'.library = m.library) (hframes : m'.frames = m.frames)
    (hvalues : m'.store.values = m.store.values) (hclasses : m'.shared.classes = m.shared.classes) :
    S.Fits m' := by
  have hget (d : DataId) : m'.store.get d = m.store.get d := by
    cases d with
    | value i => simp only [Store.get, hvalues]
    | marker => rfl
  refine ⟨hoptions.trans h.options_eq, hlibrary.trans h.library_eq, hframes ▸ h.frames_eq,
    hframes ▸ h.waits, fun d => ?_, fun {n d} hd => ?_⟩
  · rw [hget]
    exact h.values d
  · rw [hclasses] at hd
    obtain ⟨c, hc, hname, hmro⟩ := h.classes hd
    refine ⟨c, ?_, hname, ?_⟩
    · unfold Store.class? at hc ⊢
      rwa [hget]
    · unfold Lineage at hmro ⊢
      rwa [hclasses]

theorem add (h : S.Fits m) (hv : v.Good S.library) :
    S.Fits { m with store := (m.store.add v).2 } := by
  refine ⟨h.options_eq, h.library_eq, h.frames_eq, h.waits, fun d => ?_, fun hd => ?_⟩
  · dsimp only
    rw [Store.get_add]
    split
    · exact hv
    · exact h.values d
  · obtain ⟨c, hc, hname, hmro⟩ := h.classes hd
    refine ⟨c, ?_, hname, hmro⟩
    unfold Store.class?
    dsimp only
    rw [Store.get_add, if_neg (Store.class?_ne_add hc)]
    exact hc

theorem modifyValue (h : S.Fits m) (hgood : ∀ v, v.Good S.library → (f v).Good S.library)
    (hf : f .unsolvable = .unsolvable)
    (hclass : ∀ c, ∃ c', f (.ofClass c) = .ofClass c' ∧ c'.name = c.name ∧ c'.mro = c.mro) :
    S.Fits { m with store := m.store.modify d f } := by
  refine ⟨h.options_eq, h.library_eq, h.frames_eq, h.waits, fun e => ?_, fun {n e} he => ?_⟩
  · dsimp only
    rw [Store.get_modify hf]
    split
    · exact hgood _ (h.values e)
    · exact h.values e
  · obtain ⟨c, hc, hname, hmro⟩ := h.classes he
    unfold Store.class?
    dsimp only
    rw [Store.get_modify hf]
    split
    · obtain ⟨c', hc', hname', hmro'⟩ := hclass c
      rw [Store.get_of_class? hc, hc']
      refine ⟨c', rfl, hname'.trans hname, ?_⟩
      rw [hmro']
      exact hmro
    · exact ⟨c, hc, hname, hmro⟩

theorem push {g : Frame} {s : Shape} (h : S.Fits m) (hs : s.Valid) (hg : g.shape = s)
    (hw : g.Waits) : (S.push s hs).Fits { m with frames := g :: m.frames } := by
  refine ⟨h.options_eq, h.library_eq, ?_, ?_, h.values, h.classes⟩
  · simp [Setting.push, hg, h.frames_eq]
  · intro k hk
    rcases List.mem_cons.mp hk with rfl | hk
    · exact hw
    · exact h.waits k hk

end Fits

/-- What is left when a run that is safe has ended. -/
def Leaves (S : Setting) {α : Type} (Q : α → Prop) : EStateM.Result Failure Machine α → Prop
  | .ok a m => S.Fits m ∧ Q a
  | .error e _ => e.IsExpected

end Setting

namespace Analysis

variable {α β σ : Type} {S : Setting} {x y : Analysis α} {f g : α → Analysis β} {Q : α → Prop}
  {R : β → Prop}

/-- The first run is out of fuel, or both do the same, and it is nothing unexpected. -/
structure Agree (S : Setting) (x y : Analysis α) (Q : α → Prop) : Prop where
  agrees : ∀ m, S.Fits m →
    (∃ m', x m = .error .outOfFuel m') ∨ y m = x m ∧ S.Leaves Q (x m)

/-- Nothing unexpected happens. -/
abbrev Safe (S : Setting) (x : Analysis α) (Q : α → Prop) : Prop := Agree S x x Q

theorem Safe.of_leaves (h : ∀ m, S.Fits m → S.Leaves Q (x m)) : Safe S x Q :=
  ⟨fun m hm => .inr ⟨rfl, h m hm⟩⟩

/-- What a safe run that succeeds leaves. -/
theorem Safe.fits {m m' : Machine} {a : α} (h : Safe S x Q) (hm : S.Fits m)
    (hx : x m = .ok a m') : S.Fits m' := by
  rcases h.agrees m hm with ⟨_, hout⟩ | ⟨-, hleft⟩
  · rw [hx] at hout
    cases hout
  · rw [hx] at hleft
    exact hleft.1

namespace Agree

theorem weaken {Q' : α → Prop} (h : Agree S x y Q) (hQ : ∀ a, Q a → Q' a) : Agree S x y Q' := by
  refine ⟨fun m hm => ?_⟩
  rcases h.agrees m hm with hx | ⟨hxy, hx⟩
  · exact .inl hx
  · refine .inr ⟨hxy, ?_⟩
    cases hr : x m with
    | ok a m' =>
      rw [hr] at hx
      exact ⟨hx.1, hQ a hx.2⟩
    | error e m' =>
      rw [hr] at hx
      exact hx

theorem pure {a : α} (h : Q a) : Safe S (pure a) Q := Safe.of_leaves fun _ hm => ⟨hm, h⟩

theorem throw {e : Failure} (h : e.IsExpected) : Safe S (throw e : Analysis α) Q :=
  Safe.of_leaves fun _ _ => h

theorem get : Safe S get S.Fits := Safe.of_leaves fun _ hm => ⟨hm, hm⟩

theorem bind (hx : Agree S x y Q) (hf : ∀ a, Q a → Agree S (f a) (g a) R) :
    Agree S (x >>= f) (y >>= g) R := by
  refine ⟨fun m hm => ?_⟩
  change (∃ m', EStateM.bind x f m = _) ∨ EStateM.bind y g m = EStateM.bind x f m ∧
    S.Leaves R (EStateM.bind x f m)
  unfold EStateM.bind
  rcases hx.agrees m hm with ⟨m', hx⟩ | ⟨hxy, hx⟩
  · rw [hx]
    exact .inl ⟨m', rfl⟩
  · rw [hxy]
    cases hr : x m with
    | ok a m₁ =>
      rw [hr] at hx
      exact (hf a hx.2).agrees m₁ hx.1
    | error e m₁ =>
      rw [hr] at hx
      exact .inr ⟨rfl, hx⟩

theorem map {h : α → β} (hx : Agree S x y Q) (hQ : ∀ a, Q a → R (h a)) :
    Agree S (h <$> x) (h <$> y) R := bind hx fun a ha => pure (hQ a ha)

theorem mapM {f g : σ → Analysis β} {l : List σ} (h : ∀ a ∈ l, Agree S (f a) (g a) R) :
    Agree S (l.mapM f) (l.mapM g) fun bs => bs.length = l.length ∧ ∀ b ∈ bs, R b := by
  induction l with
  | nil => exact pure (by simp)
  | cons a l ih =>
    rw [List.mapM_cons, List.mapM_cons]
    refine bind (h a List.mem_cons_self) fun b hb => ?_
    refine bind (ih fun c hc => h c (List.mem_cons_of_mem _ hc)) fun bs hbs => ?_
    refine pure ⟨by simp [hbs.1], fun c hc => ?_⟩
    rcases List.mem_cons.mp hc with rfl | hc
    · exact hb
    · exact hbs.2 c hc

theorem forM {f g : σ → Analysis Unit} {l : List σ}
    (h : ∀ a ∈ l, Agree S (f a) (g a) fun _ => True) :
    Agree S (l.forM f) (l.forM g) fun _ => True := by
  induction l with
  | nil => exact pure trivial
  | cons a l ih =>
    exact bind (h a List.mem_cons_self) fun _ _ => ih fun b hb => h b (List.mem_cons_of_mem _ hb)

theorem foldlM {f g : β → σ → Analysis β} {l : List σ}
    (h : ∀ b, ∀ a ∈ l, Agree S (f b a) (g b a) fun _ => True) (b : β) :
    Agree S (l.foldlM f b) (l.foldlM g b) fun _ => True := by
  induction l generalizing b with
  | nil => exact pure trivial
  | cons a l ih =>
    rw [List.foldlM_cons, List.foldlM_cons]
    exact bind (h b a List.mem_cons_self) fun c _ =>
      ih (fun c a ha => h c a (List.mem_cons_of_mem _ ha)) c

theorem optionMapM {f g : σ → Analysis β} {o : Option σ} (h : ∀ a, Agree S (f a) (g a) R) :
    Agree S (o.mapM f) (o.mapM g) fun _ => True := by
  cases o with
  | none => exact pure trivial
  | some a => exact bind (h a) fun _ _ => pure trivial

theorem mapFailure {h : Failure → Failure} (hx : Agree S x y Q)
    (hfuel : h .outOfFuel = .outOfFuel) (hh : ∀ e, e.IsExpected → (h e).IsExpected) :
    Agree S (mapFailure h x) (mapFailure h y) Q := by
  refine ⟨fun m hm => ?_⟩
  unfold Analysis.mapFailure
  rcases hx.agrees m hm with ⟨m', hx⟩ | ⟨hxy, hx⟩
  · rw [hx]
    exact .inl ⟨m', by simp only [hfuel]⟩
  · rw [hxy]
    refine .inr ⟨rfl, ?_⟩
    cases hr : x m with
    | ok a m' =>
      rw [hr] at hx
      exact hx
    | error e m' =>
      rw [hr] at hx
      exact hh e hx

theorem modify {h : Machine → Machine} (hh : ∀ m, S.Fits m → S.Fits (h m)) :
    Safe S (modify h) fun _ => True := Safe.of_leaves fun m hm => ⟨hh m hm, trivial⟩

theorem onGraph (h : Graph → α × Graph) : Safe S (onGraph h) fun _ => True :=
  Safe.of_leaves fun _ hm => ⟨hm.of_eq rfl rfl rfl rfl rfl, trivial⟩

theorem ofGraph {z : EStateM Failure Graph α} (hok : ∀ g a g', z g = .ok a g' → Q a)
    (herror : ∀ g e g', z g = .error e g' → e.IsExpected) : Safe S (lift z) Q := by
  refine Safe.of_leaves fun m hm => ?_
  unfold Analysis.lift
  cases hr : z m.graph with
  | ok a g => exact ⟨hm.of_eq rfl rfl rfl rfl rfl, hok _ _ _ hr⟩
  | error e g => exact herror _ _ _ hr

theorem ofGrowth {z : Graph.Growth α} (h : ∀ g a g', z g = .ok a g' → Q a) :
    Safe S (grow z) Q :=
  ofGraph (fun g a g' hz => h g a g' (Graph.Growth.run_ok hz)) fun _ _ _ hz =>
    Graph.Growth.run_error hz

theorem ofExcept {z : Except Failure α} (hok : ∀ a, z = .ok a → Q a)
    (herror : ∀ e, z = .error e → e.IsExpected) : Safe S (liftM z) Q := by
  cases z with
  | ok a => exact pure (hok a rfl)
  | error e => exact throw (herror e rfl)

theorem share {h : Shared → Shared} (hh : ∀ s, (h s).classes = s.classes) :
    Safe S (share h) fun _ => True := modify fun _ hm => hm.of_eq rfl rfl rfl rfl (hh _)

theorem addValue {v : Value} (hv : v.Good S.library) : Safe S (addValue v) fun _ => True :=
  Safe.of_leaves fun _ hm => ⟨hm.add hv, trivial⟩

/-- Changes of namespaces. -/
theorem setNamespaces {h : Store → Store} (hh : ∀ s, (h s).values = s.values) :
    Safe S (setStore h) fun _ => True := modify fun _ hm => hm.of_eq rfl rfl rfl (hh _) rfl

theorem newNamespace : Safe S (onStore (·.newNamespace)) fun _ => True :=
  Safe.of_leaves fun _ hm => ⟨hm.of_eq rfl rfl rfl rfl rfl, trivial⟩

theorem modifyValue {d : DataId} {h : Value → Value}
    (hgood : ∀ v, v.Good S.library → (h v).Good S.library) (hh : h .unsolvable = .unsolvable)
    (hclass : ∀ c, ∃ c', h (.ofClass c) = .ofClass c' ∧ c'.name = c.name ∧ c'.mro = c.mro) :
    Safe S (setStore (·.modify d h)) fun _ => True :=
  modify fun _ hm => hm.modifyValue hgood hh hclass

/-- The innermost frame. -/
theorem frame (hS : S.frames ≠ []) :
    Safe S frame fun f => S.frames.head? = some f.shape ∧ f.Waits := by
  refine bind get fun m hm => ?_
  have hframes := hm.frames_eq
  split
  · next f fs hf =>
    refine pure ⟨?_, hm.waits f (by simp [hf])⟩
    rw [← hframes, hf]
    rfl
  · next hf =>
    rw [hf] at hframes
    exact absurd hframes.symm hS

theorem modifyFrame {h : Frame → Frame} (hshape : ∀ f, (h f).shape = f.shape)
    (hwaits : ∀ f : Frame, f.Waits → (h f).Waits) : Safe S (modifyFrame h) fun _ => True := by
  refine modify fun m hm => ⟨hm.options_eq, hm.library_eq, ?_, ?_, hm.values, hm.classes⟩
  · have hframes := hm.frames_eq
    cases hf : m.frames with
    | nil =>
      rw [hf] at hframes
      simpa [hf] using hframes
    | cons f fs =>
      rw [hf] at hframes
      simpa [hf, hshape] using hframes
  · intro f hf
    have hw := hm.waits
    cases hfs : m.frames with
    | nil => simp [hfs] at hf
    | cons g gs =>
      rw [hfs] at hw
      simp only [hfs, List.modifyHead_cons, List.mem_cons] at hf
      rcases hf with rfl | hf
      · exact hwaits g (hw g List.mem_cons_self)
      · exact hw f (List.mem_cons_of_mem _ hf)

theorem withFrame {f : Frame} {s : Shape} (hs : s.Valid) (hf : f.shape = s) (hw : f.Waits)
    (hx : Agree (S.push s hs) x y Q) : Agree S (withFrame f x) (withFrame f y) Q := by
  refine ⟨fun m hm => ?_⟩
  unfold Analysis.withFrame
  rcases hx.agrees _ (hm.push hs hf hw) with ⟨m', hx⟩ | ⟨hxy, hx⟩
  · rw [hx]
    exact .inl ⟨_, rfl⟩
  · rw [hxy]
    refine .inr ⟨rfl, ?_⟩
    cases hr : x { m with frames := f :: m.frames } with
    | ok a m' =>
      rw [hr] at hx
      obtain ⟨hm', ha⟩ := hx
      refine ⟨⟨hm'.options_eq, hm'.library_eq, ?_, ?_, hm'.values, hm'.classes⟩, ha⟩
      · have hframes := congrArg List.tail hm'.frames_eq
        simpa [Setting.push, List.map_tail] using hframes
      · intro g hg
        exact hm'.waits g (List.mem_of_mem_tail hg)
    | error e m' =>
      rw [hr] at hx
      exact hx

end Agree

end Analysis

namespace Attempt

variable {α β σ : Type} {S : Setting} {x y : Attempt α} {f g : α → Attempt β} {Q : α → Prop}
  {R : β → Prop}

/-- Two attempts of which the first one is out of fuel, or both do the same. -/
def Agree (S : Setting) (x y : Attempt α) (Q : α → Prop) : Prop :=
  Analysis.Agree S x.run y.run fun r => ∀ a, r = .ok a → Q a

/-- An attempt in which nothing unexpected happens. -/
abbrev Safe (S : Setting) (x : Attempt α) (Q : α → Prop) : Prop := Agree S x x Q

namespace Agree

theorem run (h : Agree S x y Q) : Analysis.Agree S x.run y.run fun _ => True :=
  Analysis.Agree.weaken h fun _ _ => trivial

theorem mk {x y : Analysis (Except CallFailure α)} (h : Analysis.Agree S x y fun _ => True) :
    Agree S (ExceptT.mk x) (ExceptT.mk y) fun _ => True :=
  Analysis.Agree.weaken h fun _ _ _ _ => trivial

theorem lift {x y : Analysis α} (h : Analysis.Agree S x y Q) : Agree S (liftM x) (liftM y) Q := by
  refine Analysis.Agree.map h fun a ha _ hb => ?_
  cases hb
  exact ha

theorem pure {a : α} (h : Q a) : Safe S (pure a) Q :=
  Analysis.Agree.pure fun _ hb => Except.ok.inj hb ▸ h

theorem throw (e : CallFailure) : Safe S (throw e : Attempt α) Q :=
  Analysis.Agree.pure fun _ hb => by cases hb

theorem get : Safe S get S.Fits := lift Analysis.Agree.get

theorem bind (hx : Agree S x y Q) (hf : ∀ a, Q a → Agree S (f a) (g a) R) :
    Agree S (x >>= f) (y >>= g) R := by
  refine Analysis.Agree.bind (f := ExceptT.bindCont f) (g := ExceptT.bindCont g) hx fun r hr => ?_
  cases r with
  | ok a => exact hf a (hr a rfl)
  | error e => exact Analysis.Agree.pure fun _ hb => by cases hb

theorem ofExcept {r : Except CallFailure α} (h : ∀ a, r = .ok a → Q a) :
    Safe S (MonadExcept.ofExcept r) Q := by
  cases r with
  | ok a => exact pure (h a rfl)
  | error e => exact throw e

theorem mapM {f g : σ → Attempt β} {l : List σ} (h : ∀ a ∈ l, Agree S (f a) (g a) R) :
    Agree S (l.mapM f) (l.mapM g) fun _ => True := by
  induction l with
  | nil => exact pure trivial
  | cons a l ih =>
    rw [List.mapM_cons, List.mapM_cons]
    exact bind (h a List.mem_cons_self) fun _ _ =>
      bind (ih fun b hb => h b (List.mem_cons_of_mem _ hb)) fun _ _ => pure trivial

theorem forM {f g : σ → Attempt Unit} {l : List σ}
    (h : ∀ a ∈ l, Agree S (f a) (g a) fun _ => True) :
    Agree S (l.forM f) (l.forM g) fun _ => True := by
  induction l with
  | nil => exact pure trivial
  | cons a l ih =>
    exact bind (h a List.mem_cons_self) fun _ _ => ih fun b hb => h b (List.mem_cons_of_mem _ hb)

end Agree

end Attempt

end ValueTrace
