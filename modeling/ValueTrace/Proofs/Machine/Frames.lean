import ValueTrace.Machine.Attribute
import ValueTrace.Machine.Run
import ValueTrace.Proofs.Machine.Steps

/-! Looking things up concerns the graph, the store and what is shared. It leaves the frames as they
are and reports nothing, whether it succeeds or not. -/
namespace ValueTrace

/-- What is seen of a machine is neither in the graph nor in the store, and it is not shared. -/
class Machine.Aside {γ : Type} (π : Machine → γ) : Prop where
  eq : ∀ (m : Machine) graph store shared, π { m with graph, store, shared } = π m

instance : Machine.Aside Machine.frames := ⟨fun _ _ _ _ => rfl⟩

instance : Machine.Aside Machine.log := ⟨fun _ _ _ _ => rfl⟩

instance : Machine.Aside Machine.options := ⟨fun _ _ _ _ => rfl⟩

def Machine.standing (m : Machine) : List Frame × Options := (m.frames, m.options)

instance : Machine.Aside Machine.standing := ⟨fun _ _ _ _ => rfl⟩

namespace Analysis

variable {α β γ : Type} {π : Machine → γ} {x : Analysis α} {f : α → Analysis β} {m m' : Machine}
  {a : α}

/-- The step leaves alone what is seen of the machine. -/
structure Spares (π : Machine → γ) (x : Analysis α) : Prop where
  eq : ∀ m, match x m with
    | .ok _ m' | .error _ m' => π m' = π m

/-- The step leaves all frames as they were, and the options as well. -/
abbrev KeepsFrames (x : Analysis α) : Prop := Spares Machine.standing x

namespace Spares

theorem of_ok (h : Spares π x) (hx : x m = .ok a m') : π m' = π m := by
  have hm := h.eq m
  rwa [hx] at hm

theorem frames_eq (h : KeepsFrames x) (hx : x m = .ok a m') : m'.frames = m.frames :=
  congrArg Prod.fst (h.of_ok hx)

theorem pure (a : α) : Spares π (pure a) := ⟨fun _ => rfl⟩

theorem throw (e : Failure) : Spares π (throw e : Analysis α) := ⟨fun _ => rfl⟩

theorem get : Spares π (get : Analysis Machine) := ⟨fun _ => rfl⟩

theorem modify {f : Machine → Machine} (h : ∀ m, π (f m) = π m) : Spares π (modify f) := ⟨h⟩

theorem bind (hx : Spares π x) (hf : ∀ a, Spares π (f a)) : Spares π (x >>= f) := by
  refine ⟨fun m => ?_⟩
  have hm := hx.eq m
  change match EStateM.bind x f m with | .ok _ m' | .error _ m' => π m' = π m
  unfold EStateM.bind
  cases h : x m with
  | ok a m₁ =>
    rw [h] at hm
    rw [← hm]
    exact (hf a).eq m₁
  | error e m₁ =>
    rw [h] at hm
    exact hm

theorem map {f : α → β} (hx : Spares π x) : Spares π (f <$> x) :=
  bind hx fun a => pure (f a)

theorem mapM {f : α → Analysis β} {l : List α} (h : ∀ a ∈ l, Spares π (f a)) :
    Spares π (l.mapM f) := by
  induction l with
  | nil => exact pure []
  | cons a l ih =>
    rw [List.mapM_cons]
    exact bind (h a List.mem_cons_self) fun _ =>
      bind (ih fun b hb => h b (List.mem_cons_of_mem _ hb)) fun _ => pure _

theorem forM {f : α → Analysis Unit} {l : List α} (h : ∀ a ∈ l, Spares π (f a)) :
    Spares π (l.forM f) := by
  induction l with
  | nil => exact pure ()
  | cons a l ih =>
    exact bind (h a List.mem_cons_self) fun _ => ih fun b hb => h b (List.mem_cons_of_mem _ hb)

theorem optionMapM {f : α → Analysis β} (h : ∀ a, Spares π (f a)) (o : Option α) :
    Spares π (o.mapM f) := by
  cases o with
  | none => exact pure none
  | some a => exact bind (h a) fun _ => pure _

theorem value (d : DataId) : Spares π (value d) := bind get fun _ => pure _

theorem visible (v : VarId) (n : NodeId) : Spares π (visible v n) := bind get fun _ => pure _

theorem dataAt (v : VarId) (n : NodeId) : Spares π (dataAt v n) := bind get fun _ => pure _

theorem dataOf (b : BindingId) : Spares π (dataOf b) := bind get fun _ => pure _

theorem allBindings (v : VarId) : Spares π (allBindings v) := bind get fun _ => pure _

variable [Machine.Aside π]

theorem onGraph (f : Graph → α × Graph) : Spares π (onGraph f) :=
  ⟨fun m => Machine.Aside.eq m _ m.store m.shared⟩

theorem onStore (f : Store → α × Store) : Spares π (onStore f) :=
  ⟨fun m => Machine.Aside.eq m m.graph _ m.shared⟩

theorem setStore (f : Store → Store) : Spares π (setStore f) :=
  ⟨fun m => Machine.Aside.eq m m.graph _ m.shared⟩

theorem share (f : Shared → Shared) : Spares π (share f) :=
  ⟨fun m => Machine.Aside.eq m m.graph m.store _⟩

theorem newVariable (name : String) : Spares π (newVariable name) := onGraph _

theorem addValue (v : Value) : Spares π (addValue v) := onStore _

theorem bindVariable (v : VarId) (d : DataId) (sources : List BindingId) (n : NodeId) :
    Spares π (Analysis.bind v d sources n) := onGraph _

theorem paste (dst src : VarId) (n : NodeId) : Spares π (paste dst src n) := onGraph _

theorem variableWith (name : String) (d : DataId) (sources : List BindingId) (n : NodeId) :
    Spares π (variableWith name d sources n) :=
  bind (newVariable name) fun v => bind (bindVariable v d sources n) fun _ => pure v

theorem newUnsolvable (n : NodeId) : Spares π (newUnsolvable n) := variableWith ..

theorem newUnknown (n : NodeId) : Spares π (newUnknown n) :=
  bind (addValue _) fun _ => variableWith ..

theorem libraryClassWithin (fuel : Nat) (name : String) :
    Spares π (libraryClassWithin fuel name) := by
  induction fuel generalizing name with
  | zero => exact throw _
  | succ fuel ih =>
    unfold Analysis.libraryClassWithin
    refine bind get fun m => ?_
    split
    · exact pure _
    · refine bind get fun m => ?_
      split
      · refine bind (addValue _) fun id => ?_
        refine bind (share _) fun _ => ?_
        refine bind (mapM fun b _ => ?_) fun _ => ?_
        · exact bind (ih b) fun _ => bind (variableWith ..) fun _ => pure _
        · refine bind get fun m => ?_
          dsimp only
          split
          · exact bind (setStore _) fun _ => pure _
          · exact throw _
      · exact throw _

theorem libraryClass (name : String) : Spares π (libraryClass name) :=
  bind get fun _ => libraryClassWithin ..

theorem libraryClassVar (name : String) : Spares π (libraryClassVar name) :=
  bind (libraryClass name) fun _ => variableWith ..

theorem newObject (cls : DataId) (payload : Option Payload) : Spares π (newObject cls payload) :=
  bind get fun _ => bind (mapM fun _ _ => bind (newVariable _) fun _ => pure _) fun _ => addValue _

theorem sharedObject (cls : DataId) : Spares π (sharedObject cls) := by
  unfold Analysis.sharedObject
  refine bind get fun m => ?_
  split
  · exact newObject cls none
  · refine bind get fun m => ?_
    split
    · exact pure _
    · exact bind (newObject cls none) fun d => bind (share _) fun _ => pure d

theorem plainObject (name : String) : Spares π (plainObject name) :=
  bind (libraryClass name) fun cls => sharedObject cls

theorem libraryFunction (f : LibraryFunction) : Spares π (libraryFunction f) := by
  unfold Analysis.libraryFunction
  refine bind get fun m => ?_
  split
  · exact pure _
  · exact bind (addValue _) fun _ => bind (share _) fun _ => pure _

theorem libraryModule (name : String) : Spares π (libraryModule name) := by
  unfold Analysis.libraryModule
  refine bind get fun m => ?_
  split
  · exact pure _
  · refine bind get fun m => ?_
    split
    · exact pure _
    · exact bind (addValue _) fun _ => bind (share _) fun _ => pure _

theorem fillTypeParam (d : DataId) (param : String) (items : List VarId) (n : NodeId) :
    Spares π (fillTypeParam d param items n) := by
  unfold Analysis.fillTypeParam
  refine bind get fun m => ?_
  split
  · exact forM fun _ _ => paste ..
  · exact pure _

theorem tupleObject (items : List VarId) (n : NodeId) : Spares π (tupleObject items n) := by
  refine bind (libraryClass _) fun _ => ?_
  refine bind (newObject ..) fun _ => ?_
  refine bind (fillTypeParam ..) fun _ => ?_
  exact pure _

set_option linter.unusedSectionVars false in
mutual

theorem constant (place : List Nat) (c : Constant) : Spares π (constant place c) := by
  unfold Analysis.constant
  refine bind get fun m => ?_
  split
  · exact pure _
  · refine bind get fun m => bind (libraryClass _) fun cls => ?_
    extract_lets finish
    have hfinish (d : DataId) : Spares π (finish d) :=
      bind (variableWith ..) fun _ => bind (share _) fun _ => pure _
    split
    · exact bind (constants place 0 _) fun _ => bind (tupleObject ..) hfinish
    · exact bind (newObject ..) hfinish
    · exact bind (newObject ..) hfinish

theorem constants (place : List Nat) (i : Nat) (cs : List Constant) :
    Spares π (constants place i cs) := by
  cases cs with
  | nil =>
    unfold Analysis.constants
    exact pure []
  | cons c cs =>
    unfold Analysis.constants
    exact bind (constant _ c) fun _ => bind (constants place _ cs) fun _ => pure _

end

theorem literal (c : Constant) : Spares π (literal c) := bind (constant [] c) fun _ => pure _

theorem newNone (n : NodeId) : Spares π (newNone n) :=
  bind (literal .none) fun _ => variableWith ..

theorem pasteSource (v : VarId) (n : NodeId) (s : TypeSource) :
    Spares π (pasteSource v n s) := by
  cases s with
  | binding b => exact bind (dataOf b) fun _ => bindVariable ..
  | param p => exact paste ..

mutual

theorem instantiate (n : NodeId) (s : Subst) (receiver : Option DataId) (t : TypeExpr) :
    Spares π (instantiate n s receiver t) := by
  unfold Analysis.instantiate
  refine bind (newVariable _) fun v => ?_
  extract_lets finish
  have hfinish (u : Unit) : Spares π (finish u) := pure v
  have hbind (d : DataId) : Spares π (Analysis.bind v d [] n >>= finish) :=
    bind (bindVariable ..) hfinish
  split
  · exact hbind _
  · split
    · exact bind (literal .none) hbind
    · exact bind (plainObject _) hbind
  · refine bind (libraryClass _) fun _ => ?_
    refine bind (newObject ..) fun d => ?_
    refine bind get fun _ => ?_
    refine bind (instantiateParams n s receiver d _ _) fun _ => ?_
    exact hbind d
  · split
    · exact bind (forM fun _ _ => pasteSource ..) hfinish
    · split
      · refine bind get fun m => ?_
        split
        · exact bind (paste ..) hfinish
        · exact hfinish ()
      · exact hfinish ()
  · exact bind (instantiateOptions n s receiver v _) hfinish

theorem instantiateParams (n : NodeId) (s : Subst) (receiver : Option DataId) (d : DataId)
    (template : List String) (params : List TypeExpr) :
    Spares π (instantiateParams n s receiver d template params) := by
  cases params with
  | nil =>
    unfold Analysis.instantiateParams
    split
    · contradiction
    · exact pure _
  | cons t params =>
    cases template with
    | nil =>
      unfold Analysis.instantiateParams
      exact pure _
    | cons name template =>
      unfold Analysis.instantiateParams
      exact bind (instantiate n s receiver t) fun v => bind (fillTypeParam ..) fun _ =>
        instantiateParams n s receiver d template params

theorem instantiateOptions (n : NodeId) (s : Subst) (receiver : Option DataId) (v : VarId)
    (options : List TypeExpr) : Spares π (instantiateOptions n s receiver v options) := by
  cases options with
  | nil =>
    unfold Analysis.instantiateOptions
    exact pure _
  | cons t options =>
    unfold Analysis.instantiateOptions
    exact bind (instantiate n s receiver t) fun part => bind (paste ..) fun _ =>
      instantiateOptions n s receiver v options

end

theorem addMember (d : DataId) (name : String) (v : VarId) : Spares π (addMember d name v) :=
  setStore _

theorem libraryMember (cls : DataId) (name : String) : Spares π (libraryMember cls name) := by
  unfold Analysis.libraryMember
  refine bind get fun m => ?_
  split
  · extract_lets finish
    have hfinish (v : VarId) : Spares π (finish v) := bind (addMember ..) fun _ => pure _
    split
    · exact bind (libraryFunction _) fun _ => bind (variableWith ..) hfinish
    · exact bind (instantiate ..) hfinish
    · exact pure _
  · exact pure _

theorem memberAlong (name : String) (ds : List DataId) : Spares π (memberAlong name ds) := by
  induction ds with
  | nil => exact pure none
  | cons d ds ih =>
    unfold Analysis.memberAlong
    refine bind get fun m => ?_
    split
    · exact ih
    · split
      · exact pure _
      · split
        · refine bind (libraryMember d name) fun v => ?_
          split
          · exact pure _
          · exact ih
        · exact ih

theorem classMember (cls : DataId) (name : String) : Spares π (classMember cls name) :=
  bind get fun _ => memberAlong ..

theorem moduleMember (d : DataId) (module : String) (members : Members) (name : String) :
    Spares π (moduleMember d module members name) := by
  unfold Analysis.moduleMember
  extract_lets finish
  have hfinish (v : VarId) : Spares π (finish v) := bind (addMember ..) fun _ => pure _
  split
  · exact pure _
  · refine bind get fun m => ?_
    dsimp only
    split
    · split
      · exact bind (libraryFunction _) fun _ => bind (variableWith ..) hfinish
      · exact pure _
    · exact bind (libraryClassVar _) hfinish
    · exact bind (instantiate ..) hfinish
    · refine bind (libraryModule _) fun d => ?_
      split
      · exact bind (variableWith ..) hfinish
      · exact pure _

theorem bindMethods (n : NodeId) (d : DataId) (attr : VarId) (receiver : Option BindingId) :
    Spares π (bindMethods n d attr receiver) := by
  unfold Analysis.bindMethods
  refine bind get fun m => ?_
  dsimp only
  split
  · exact pure attr
  · refine bind (variableWith ..) fun self => ?_
    refine bind (newVariable _) fun bound => ?_
    refine bind (allBindings attr) fun bs => ?_
    refine bind (forM fun b _ => ?_) fun _ => pure bound
    refine bind (dataOf b) fun f => bind (value f) fun x => ?_
    split
    · exact bind (addValue _) fun _ => bindVariable ..
    · exact bindVariable ..

theorem ofFunction (name : String) (members : Members) :
    Spares π (attributeOf.ofFunction name members) := by
  unfold attributeOf.ofFunction
  split
  · exact pure _
  · exact bind (libraryClass _) fun cls => classMember cls name

theorem attributeOf (n : NodeId) (d : DataId) (name : String) (receiver : Option BindingId) :
    Spares π (attributeOf n d name receiver) := by
  unfold Analysis.attributeOf
  refine bind (value d) fun x => ?_
  split
  · split
    · exact pure _
    · exact bind (classMember ..) fun o => optionMapM (fun _ => bindMethods ..) o
  · exact classMember d name
  · exact ofFunction ..
  · exact ofFunction ..
  · exact ofFunction ..
  · refine bind (value _) fun x => ?_
    split
    · exact ofFunction ..
    · exact ofFunction ..
  · exact moduleMember ..
  · split
    · exact pure _
    · exact bind (newUnknown _) fun v => bind (addMember ..) fun _ => pure _
  · exact map (newUnsolvable n)

theorem pasteAttribute (n : NodeId) (result attr : VarId) (b : BindingId) :
    Spares π (pasteAttribute n result attr b) :=
  bind (visible attr n) fun _ =>
    bind (forM fun a _ => bind (dataOf a) fun _ => bindVariable ..) fun _ => pure _

theorem loadAttribute? (n : NodeId) (obj : VarId) (name : String) :
    Spares π (loadAttribute? n obj name) := by
  unfold Analysis.loadAttribute?
  refine bind (newVariable name) fun result => ?_
  refine bind (visible obj n) fun bs => ?_
  refine bind (mapM fun b _ => ?_) fun found => pure _
  refine bind (dataOf b) fun d => bind (attributeOf ..) fun o => ?_
  split
  · exact pasteAttribute ..
  · exact pure _

theorem pushException (p : Path) : Spares π (pushException p) := by
  unfold Analysis.pushException
  extract_lets finish
  have hfinish (e : Raised) : Spares π (finish e) := pure _
  split
  · exact bind (pure _) hfinish
  · refine bind (plainObject _) fun _ => ?_
    refine bind (variableWith ..) fun _ => ?_
    refine bind (newUnknown _) fun _ => ?_
    refine bind (newUnknown _) fun _ => ?_
    exact bind (pure _) hfinish

theorem report (kind : FindingKind) (message : String) (details : Option String)
    (vars : List VarId) : KeepsFrames (report kind message details vars) := modify fun _ => rfl

theorem loadAttribute (n : NodeId) (obj : VarId) (name : String) :
    KeepsFrames (loadAttribute n obj name) := by
  unfold Analysis.loadAttribute
  refine bind (loadAttribute? n obj name) fun o => ?_
  extract_lets finish
  have hfinish (u : Unit) : KeepsFrames (finish u) := newUnsolvable n
  split
  · exact pure _
  · refine bind (dataAt obj n) fun data => bind get fun m => ?_
    dsimp only
    split
    · exact hfinish ()
    · split
      · exact bind (report ..) hfinish
      · split
        · exact bind (report ..) hfinish
        · exact bind (report ..) hfinish

end Spares

end Analysis

end ValueTrace
