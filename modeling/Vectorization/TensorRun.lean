/-
Programs over tensors and views.  After every operation of a program each living
object has as many elements as its dimensions multiply to, all of them inside its
memory window, as long as no living object is moved from: a moved-from object
counts no elements and has no dimensions, and copies of it are no better.
-/
import Vectorization.Construct
import Vectorization.AtomicAssignment

namespace Vectorization

open MachineInteger ByteMemory AtomicRun

variable {T : ElementType} {α : Type}

/-- The memory and the living objects, by number. -/
structure World (T : ElementType) where
  memory : Memory
  objects : Nat → Option (TensorImpl T)

/-- What `move_from` leaves of its argument. -/
def movedFrom (isView : Bool) : TensorImpl T := .bare isView .empty []

/-- The operations of a program; one that names an object which does not exist, or
makes one that does, is no operation. -/
inductive TensorOp (T : ElementType) (α : Type)
  | construct (id : Nat) (k : Construct T α)
  | derive (id rhs : Nat) (d : Derive)
  /-- Move construction. -/
  | moveConstruct (id rhs : Nat)
  /-- Assignment from a temporary, which dies. -/
  | assignConstruct (id : Nat) (k : Construct T α)
  | assignDerive (id rhs : Nat) (d : Derive)
  /-- Copy assignment, also from the other kind of tensor. -/
  | copyAssign (id rhs : Nat)
  | moveAssign (id rhs : Nat)
  /-- Assignment of an expression, with and without the alias check. -/
  | assign (id : Nat) (src : Source T α) (uncheckedAlias : Bool)
  | scalar (id : Nat) (value : α)
  | update (id : Nat) (functor : BinaryFunctor α) (src : Source T α) (uncheckedAlias : Bool)
  | rebind (id rhs : Nat)
  | destroy (id : Nat)

namespace World

def withObject (w : World T) (id : Nat) (t : TensorImpl T) : World T :=
  { w with objects := Function.update w.objects id (some t) }

/-- The world after a computation on the memory; an exception drops its value. -/
def finish (w : World T) (x : EStateM Raise Memory (TensorImpl T))
    (f : World T → TensorImpl T → World T) : World T :=
  match x w.memory with
  | .ok t m => f { w with memory := m } t
  | .error _ m => { w with memory := m }

/-- The world after an assignment to an object. -/
def assigned (w : World T) (id : Nat) (t : TensorImpl T) (x : Assign T Unit) : World T :=
  match x ⟨w.memory, t⟩ with
  | .ok _ s => { w with memory := s.memory }.withObject id s.dst
  | .error _ s => { w with memory := s.memory }.withObject id s.dst

end World

section Step

variable (b : Build T) (c : Codec α T.size) (subview : Subview T)

/-- Assignment of a temporary: a move when the kinds agree. -/
def assignTemporary (temporary : TensorImpl T) : Assign T Unit := do
  let dst ← destination
  if temporary.isView = dst.isView then Vectorization.moveAssign b c false temporary
  else assignTensor b c temporary

/-- An operation on living objects. -/
def TensorOp.step (w : World T) : TensorOp T α → World T
  | construct id k =>
      match w.objects id with
      | none => w.finish (k.eval b c subview) fun w t => w.withObject id t
      | some _ => w
  | derive id rhs d =>
      match w.objects id, w.objects rhs with
      | none, some r => w.finish (d.eval b c subview r) fun w t => w.withObject id t
      | _, _ => w
  | moveConstruct id rhs =>
      match w.objects id, w.objects rhs with
      | none, some r => (w.withObject id r).withObject rhs (movedFrom r.isView)
      | _, _ => w
  | assignConstruct id k =>
      match w.objects id with
      | some t => w.finish (k.eval b c subview) fun w temporary =>
          w.assigned id t (assignTemporary b c temporary)
      | none => w
  | assignDerive id rhs d =>
      match w.objects id, w.objects rhs with
      | some t, some r => w.finish (d.eval b c subview r) fun w temporary =>
          w.assigned id t (assignTemporary b c temporary)
      | _, _ => w
  | copyAssign id rhs =>
      match w.objects id, w.objects rhs with
      | some t, some r => w.assigned id t (Vectorization.copyAssign b c (id = rhs) r)
      | _, _ => w
  | moveAssign id rhs =>
      match w.objects id, w.objects rhs with
      | some t, some r =>
          if t.isView = r.isView then
            let w := w.assigned id t (Vectorization.moveAssign b c (id = rhs) r)
            if id ≠ rhs ∧ ¬ t.isView then w.withObject rhs (movedFrom r.isView) else w
          else w.assigned id t (assignTensor b c r)
      | _, _ => w
  | assign id src uncheckedAlias =>
      match w.objects id with
      | some t => w.assigned id t (Vectorization.assign b c src uncheckedAlias)
      | none => w
  | scalar id value =>
      match w.objects id with
      | some t => w.assigned id t (assignScalar b c value)
      | none => w
  | update id functor src uncheckedAlias =>
      match w.objects id with
      | some t => w.assigned id t (assignUpdate b c functor src uncheckedAlias)
      | none => w
  | rebind id rhs =>
      match w.objects id, w.objects rhs with
      | some t, some r => if t.isView then w.withObject id (shareFrom b.simd r) else w
      | _, _ => w
  | destroy id => { w with objects := Function.update w.objects id none }

/-- The operation runs `move_from` on an object that lives on. -/
def TensorOp.MovesFrom (w : World T) : TensorOp T α → Prop
  | moveConstruct id rhs => w.objects id = none ∧ (w.objects rhs).isSome
  | moveAssign id rhs => id ≠ rhs ∧ ∃ t r, w.objects id = some t ∧ w.objects rhs = some r ∧
      t.isView = false ∧ r.isView = false
  | _ => False

def runTensorOps (w : World T) : List (TensorOp T α) → World T
  | [] => w
  | op :: ops => runTensorOps (op.step b c subview w) ops

/-- No operation of the run moves from an object that lives on. -/
def NothingMoved (w : World T) : List (TensorOp T α) → Prop
  | [] => True
  | op :: ops => ¬ op.MovesFrom w ∧ NothingMoved (op.step b c subview w) ops

end Step

/-- Every living object satisfies `P`. -/
def World.Holds (P : TensorImpl T → Prop) (w : World T) : Prop :=
  ∀ id t, w.objects id = some t → P t

/-- Every living object satisfies the representation invariant. -/
def World.Windowed (S : SimdTarget T) (w : World T) : Prop :=
  ∀ id t, w.objects id = some t → t.Windowed S

/-- Constructors establish `P`, and what is made from an object with `P` has it, too. -/
structure Established (b : Build T) (c : Codec α T.size) (subview : Subview T)
    (P : TensorImpl T → Prop) : Prop where
  construct : ∀ {k : Construct T α} {m m' t}, k.eval b c subview m = .ok t m' → P t
  derive : ∀ {d : Derive} {t r m m'}, P t → d.eval b c subview t m = .ok r m' → P r

section Invariant

variable {b : Build T} {c : Codec α T.size} {subview : Subview T} {w : World T}
  {P : TensorImpl T → Prop}

theorem World.Holds.withObject (h : w.Holds P) {id : Nat} {t : TensorImpl T} (ht : P t) :
    (w.withObject id t).Holds P := by
  intro id' t' ht'
  change Function.update w.objects id (some t) id' = some t' at ht'
  by_cases hid : id' = id
  · rw [hid, Function.update_self] at ht'
    cases ht'
    exact ht
  · rw [Function.update_of_ne hid] at ht'
    exact h id' t' ht'

theorem World.Holds.finish (h : w.Holds P)
    {x : EStateM Raise Memory (TensorImpl T)} {f : World T → TensorImpl T → World T}
    (hx : ∀ {m m' t}, x m = .ok t m' → P t)
    (hf : ∀ {w' : World T} {t}, w'.Holds P → P t → w'.objects = w.objects → (f w' t).Holds P) :
    (w.finish x f).Holds P := by
  rw [World.finish]
  cases hrun : x w.memory with
  | ok t m =>
      have hmem : World.Holds P { w with memory := m } := h
      exact hf hmem (hx hrun) rfl
  | error e m => exact h

/-- An assignment after which its destination still satisfies `P`, whether or not it
raises. -/
def Keeps (P : TensorImpl T → Prop) (x : Assign T Unit) : Prop :=
  ∀ {s s' : AssignState T}, P s.dst →
    (x s = .ok () s' ∨ ∃ e, x s = .error e s') → P s'.dst

theorem World.Holds.assigned (h : w.Holds P) {id : Nat} {t : TensorImpl T}
    {x : Assign T Unit}
    (hx : ∀ s', (x ⟨w.memory, t⟩ = .ok () s' ∨ ∃ e, x ⟨w.memory, t⟩ = .error e s') →
      P s'.dst) : (w.assigned id t x).Holds P := by
  rw [World.assigned]
  cases hrun : x ⟨w.memory, t⟩ with
  | ok u s =>
      exact World.Holds.withObject (w := { w with memory := s.memory }) h
        (hx s (Or.inl hrun))
  | error e s =>
      exact World.Holds.withObject (w := { w with memory := s.memory }) h
        (hx s (Or.inr ⟨e, hrun⟩))

theorem keeps_of_atomic {x : Assign T Unit} (hx : Atomic x)
    (hok : ∀ {s s'}, P s.dst → x s = .ok () s' → P s'.dst) : Keeps P x := by
  intro s s' hs hrun
  rcases hrun with hrun | ⟨e, hrun⟩
  · exact hok hs hrun
  · rw [hx s e s' hrun]
    exact hs

theorem assign_keeps (src : Source T α) (uncheckedAlias : Bool) :
    Keeps P (assign b c src uncheckedAlias) := by
  refine keeps_of_atomic (assign_atomic b c src uncheckedAlias) fun hs hrun => ?_
  obtain ⟨ops, -, -, -, -, rfl⟩ := assign_cases hrun
  exact hs

theorem assignScalar_keeps (value : α) : Keeps P (assignScalar b c value) := by
  refine keeps_of_atomic (assignScalar_atomic b c value) fun {s s'} hs hrun => ?_
  obtain ⟨dst, s₁, hdst, hrun⟩ := bind_ok.1 hrun
  cases hdst
  obtain ⟨_, -, hrun⟩ := raising_bind_ok.1 hrun
  obtain ⟨ops, -, hrun⟩ := raising_bind_ok.1 hrun
  cases hrun
  exact hs

theorem assignUpdate_keeps (functor : BinaryFunctor α) (src : Source T α)
    (uncheckedAlias : Bool) : Keeps P (assignUpdate b c functor src uncheckedAlias) := by
  refine keeps_of_atomic (assignUpdate_atomic b c functor src uncheckedAlias)
    fun {s s'} hs hrun => ?_
  obtain ⟨dst, s₁, hdst, hrun⟩ := bind_ok.1 hrun
  cases hdst
  obtain ⟨lhs, -, hrun⟩ := raising_bind_ok.1 hrun
  obtain ⟨rhs, -, hrun⟩ := raising_bind_ok.1 hrun
  exact assign_keeps _ uncheckedAlias hs (Or.inl hrun)

theorem clone_isView {heap : Heap T} {S : SimdTarget T} {t r : TensorImpl T} {m m' : Memory}
    (h : clone S heap c t m = .ok r m') : r.isView = false := by
  obtain ⟨o, ho, rfl⟩ := clone_ok h
  rw [stampContiguousShape, TensorImpl.recompute_isView]
  change o.isView = false
  rw [makeOwner] at ho
  obtain ⟨base, -, ho⟩ := exceptBind_ok.1 ho
  split at ho
  · cases ho
  · cases ho
    exact TensorImpl.recompute_isView

/-- A copy is a clone of the same kind as the owner it is assigned to. -/
theorem assignTensor_keeps {rhs : TensorImpl T}
    (hclone : ∀ {r m m'}, clone b.simd b.heap c rhs m = .ok r m' → P r) :
    Keeps P (assignTensor b c rhs) := by
  refine keeps_of_atomic (assignTensor_atomic b c rhs) fun {s s'} hs hrun => ?_
  obtain ⟨dst, s₁, hdst, hrun⟩ := bind_ok.1 hrun
  cases hdst
  split at hrun <;> rename_i hview
  · exact assign_keeps _ false hs (Or.inl hrun)
  · obtain ⟨packed, s₂, hpacked, hrun⟩ := bind_ok.1 hrun
    rw [onMemory] at hpacked
    split at hpacked <;> rename_i hrhs
    · cases hpacked
      cases hrun
      have hkind : packed.isView = s.dst.isView := by
        rw [clone_isView hrhs]
        simpa using hview
      change P { packed with isView := s.dst.isView }
      rw [← hkind]
      exact hclone hrhs
    · cases hpacked

theorem moveAssign_keeps {isSelf : Bool} {s s' : AssignState T} {rhs : TensorImpl T}
    (hs : P s.dst) (hrhs : P rhs) (hkind : rhs.isView = s.dst.isView)
    (h : Vectorization.moveAssign b c isSelf rhs s = .ok () s' ∨
      ∃ e, Vectorization.moveAssign b c isSelf rhs s = .error e s') :
    P s'.dst := by
  rcases h with h | ⟨e, h⟩
  · obtain ⟨dst, s₁, hdst, h⟩ := bind_ok.1 h
    cases hdst
    split at h
    · cases h
      exact hs
    · split at h
      · exact assign_keeps _ false hs (Or.inl h)
      · cases h
        change P { rhs with isView := s.dst.isView }
        rw [← hkind]
        exact hrhs
  · rw [moveAssign_atomic b c isSelf rhs s e s' h]
    exact hs

theorem assignTemporary_keeps {temporary : TensorImpl T} (ht : P temporary)
    (hclone : ∀ {r m m'}, clone b.simd b.heap c temporary m = .ok r m' → P r) :
    Keeps P (assignTemporary b c temporary) := by
  intro s s' hs h
  by_cases hkind : temporary.isView = s.dst.isView
  · have heq :
        assignTemporary b c temporary s = Vectorization.moveAssign b c false temporary s := by
      change (if temporary.isView = s.dst.isView then _ else _ : Assign T Unit) s = _
      rw [if_pos hkind]
    rw [heq] at h
    exact moveAssign_keeps hs ht hkind h
  · have heq : assignTemporary b c temporary s = assignTensor b c temporary s := by
      change (if temporary.isView = s.dst.isView then _ else _ : Assign T Unit) s = _
      rw [if_neg hkind]
    rw [heq] at h
    exact assignTensor_keeps hclone hs h

/-- One operation, which leaves a moved-from object only where that satisfies `P`. -/
theorem Established.step (hP : Established b c subview P) {op : TensorOp T α} (h : w.Holds P)
    (hmove : op.MovesFrom w → ∀ isView, P (movedFrom isView)) :
    (op.step b c subview w).Holds P := by
  have hclone : ∀ {t r : TensorImpl T} {m m' : Memory}, P t →
      clone b.simd b.heap c t m = .ok r m' → P r := fun ht hrun => hP.derive (d := .clone) ht hrun
  cases op with
  | construct id k =>
      rw [TensorOp.step]
      split
      · exact h.finish hP.construct fun hw' ht _ => hw'.withObject ht
      · exact h
  | derive id rhs d =>
      rw [TensorOp.step]
      split
      · rename_i r hid hr
        exact h.finish (hP.derive (h rhs r hr)) fun hw' ht _ => hw'.withObject ht
      · exact h
  | moveConstruct id rhs =>
      rw [TensorOp.step]
      split <;> rename_i r hid hr
      · refine (h.withObject (h rhs _ hr)).withObject (hmove ⟨hid, ?_⟩ _)
        rw [hr]
        rfl
      · exact h
  | assignConstruct id k =>
      rw [TensorOp.step]
      split <;> rename_i t ht
      · exact h.finish hP.construct fun {w' temporary} hw' htemp _ =>
          hw'.assigned fun s' => assignTemporary_keeps htemp (hclone htemp) (h id t ht)
      · exact h
  | assignDerive id rhs d =>
      rw [TensorOp.step]
      split
      · rename_i t r ht hr
        exact h.finish (hP.derive (h rhs r hr)) fun {w' temporary} hw' htemp _ =>
          hw'.assigned fun s' => assignTemporary_keeps htemp (hclone htemp) (h id t ht)
      · exact h
  | copyAssign id rhs =>
      rw [TensorOp.step]
      split
      · rename_i t r ht hr
        refine h.assigned fun s' hrun => ?_
        rw [copyAssign] at hrun
        split at hrun
        · rcases hrun with hrun | ⟨e, hrun⟩
          · cases hrun
            exact h id t ht
          · cases hrun
        · exact assignTensor_keeps (hclone (h rhs r hr)) (h id t ht) hrun
      · exact h
  | moveAssign id rhs =>
      rw [TensorOp.step]
      split
      · rename_i t r ht hr
        split <;> rename_i hkind
        · have hassigned : (w.assigned id t
              (Vectorization.moveAssign b c (id = rhs) r)).Holds P :=
            h.assigned fun s' => moveAssign_keeps (h id t ht) (h rhs r hr) hkind.symm
          dsimp only
          split <;> rename_i hmoved
          · obtain ⟨hid, hview⟩ := hmoved
            have hview : t.isView = false := by simpa using hview
            exact hassigned.withObject
              (hmove ⟨hid, t, r, ht, hr, hview, hkind ▸ hview⟩ _)
          · exact hassigned
        · exact h.assigned fun s' => assignTensor_keeps (hclone (h rhs r hr)) (h id t ht)
      · exact h
  | assign id src uncheckedAlias =>
      rw [TensorOp.step]
      split <;> rename_i t ht
      · exact h.assigned fun s' => assign_keeps src uncheckedAlias (h id t ht)
      · exact h
  | scalar id value =>
      rw [TensorOp.step]
      split <;> rename_i t ht
      · exact h.assigned fun s' => assignScalar_keeps value (h id t ht)
      · exact h
  | update id functor src uncheckedAlias =>
      rw [TensorOp.step]
      split <;> rename_i t ht
      · exact h.assigned fun s' => assignUpdate_keeps functor src uncheckedAlias (h id t ht)
      · exact h
  | rebind id rhs =>
      rw [TensorOp.step]
      split
      · rename_i t r ht hr
        split
        · exact h.withObject (hP.derive (d := .copy true) (m := w.memory) (h rhs r hr) rfl)
        · exact h
      · exact h
  | destroy id =>
      intro id' t ht
      change Function.update w.objects id none id' = some t at ht
      by_cases hid : id' = id
      · rw [hid, Function.update_self] at ht
        cases ht
      · rw [Function.update_of_ne hid] at ht
        exact h id' t ht

/-- A run that moves from no living object, or whose moved-from objects satisfy `P`. -/
theorem Established.run (hP : Established b c subview P) {ops : List (TensorOp T α)}
    (h : w.Holds P)
    (hmove : NothingMoved b c subview w ops ∨ ∀ isView, P (movedFrom isView)) :
    (runTensorOps b c subview w ops).Holds P := by
  induction ops generalizing w with
  | nil => exact h
  | cons op ops ih =>
      rcases hmove with hnothing | hmoved
      · exact ih (hP.step h fun hmoves => absurd hmoves hnothing.1) (Or.inl hnothing.2)
      · exact ih (hP.step h fun _ => hmoved) (Or.inr hmoved)

theorem established_windowed (b : Build T) (c : Codec α T.size) (subview : Subview T) :
    Established b c subview (TensorImpl.Windowed b.simd) :=
  ⟨Construct.eval_windowed, Derive.eval_windowed⟩

theorem run_windowed {ops : List (TensorOp T α)} (h : w.Windowed b.simd)
    (hmoved : NothingMoved b c subview w ops) :
    (runTensorOps b c subview w ops).Windowed b.simd :=
  (established_windowed b c subview).run h (Or.inl hmoved)

/-- In every program that moves from no living object, every object has as many
elements as its dimensions multiply to, all of them inside its memory window. -/
theorem runTensorOps_inWindow {m : Memory} {ops : List (TensorOp T α)}
    (hmoved : NothingMoved b c subview ⟨m, fun _ => none⟩ ops) {id : Nat} {t : TensorImpl T}
    (ht : (runTensorOps b c subview ⟨m, fun _ => none⟩ ops).objects id = some t) :
    t.InWindow :=
  (run_windowed (fun _ _ hnone => by cases hnone) hmoved id t ht).inWindow

end Invariant

namespace TensorRunWitness

open Sample

/-- An allocator that hands out one address again and again. -/
def build : Build float where
  simd := fourLanes
  threads := twoThreads
  ndebug := true
  heap := ⟨fun _ _ _ => .ok 4096, fun _ _ m => .ok m⟩

def windowAt : Subview float := fun v offset count =>
  ⟨v.data + offset * float.size, count, v.device, v.deviceIndex⟩

def runFrom (ops : List (TensorOp float (Fin 4 → UInt8))) : World float :=
  runTensorOps build (Codec.bytes 4) windowAt ⟨fun _ => 0, fun _ => none⟩ ops

/-- A packed copy of every other column of a matrix. -/
def columns : List (TensorOp float (Fin 4 → UInt8)) :=
  [.construct 0 (.matrix 3 4 .cpu 0), .derive 1 0 (.view (.slice 1 (some 1) none 2)),
    .derive 2 1 .clone, .moveAssign 0 0]

theorem runTensorOps_inWindow_columns : ∃ t, (runFrom columns).objects 2 = some t ∧
    t.numel = 6 ∧ t.InWindow := by
  have hmoved : NothingMoved build (Codec.bytes 4) windowAt ⟨fun _ => 0, fun _ => none⟩
      columns := ⟨id, id, id, fun h => h.1 rfl, trivial⟩
  obtain ⟨t, ht, hnumel⟩ : ∃ t, (runFrom columns).objects 2 = some t ∧ t.numel = 6 :=
    ⟨_, rfl, rfl⟩
  exact ⟨t, ht, hnumel, runTensorOps_inWindow hmoved ht⟩

/-- A copy of a moved-from tensor counts one element over no storage. -/
theorem runTensorOps_inWindow_moved : ¬ ∀ ops id t,
    (runFrom ops).objects id = some t → t.InWindow := by
  intro h
  have hwindow := h [.construct 0 (.sized 3 .cpu 0), .moveConstruct 1 0, .derive 2 0 .clone]
    2 _ rfl
  exact absurd (hwindow.offset_lt 0 Nat.one_pos) (Nat.not_lt_zero _)

end TensorRunWitness

end Vectorization
