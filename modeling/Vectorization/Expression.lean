/-
Expression trees of `expression_interface.h` and their leaves.  Evaluation is
given a reader for the leaves; a packet evaluation reads one register per leaf
and applies the registers' branch of every functor.
-/
import Vectorization.Overlap
import Vectorization.Foundation.ByteMemory

namespace Vectorization

open StridedSpace MachineInteger ByteMemory

universe u v

/-- A functor of one operand: its scalar branch and its branch for registers, which are
read by lane.  The operands of a node have fixed types, so a node has one of each. -/
structure UnaryFunctor (α : Type v) where
  scalar : α → α
  packet : (Nat → α) → Nat → α

structure BinaryFunctor (α : Type v) where
  scalar : α → α → α
  packet : (Nat → α) → (Nat → α) → Nat → α

structure TrinaryFunctor (α : Type v) where
  scalar : α → α → α → α
  packet : (Nat → α) → (Nat → α) → (Nat → α) → Nat → α

namespace UnaryFunctor

variable {α : Type v}

/-- Every lane of the register is the scalar branch on that lane. -/
def LaneWise (f : UnaryFunctor α) : Prop :=
  ∀ a lane, f.packet a lane = f.scalar (a lane)

/-- The functor whose registers apply the scalar branch in every lane. -/
def lanes (f : α → α) : UnaryFunctor α where
  scalar := f
  packet a lane := f (a lane)

theorem lanes_laneWise (f : α → α) : (lanes f).LaneWise := fun _ _ => rfl

end UnaryFunctor

namespace BinaryFunctor

variable {α : Type v}

def LaneWise (f : BinaryFunctor α) : Prop :=
  ∀ a b lane, f.packet a b lane = f.scalar (a lane) (b lane)

def lanes (f : α → α → α) : BinaryFunctor α where
  scalar := f
  packet a b lane := f (a lane) (b lane)

theorem lanes_laneWise (f : α → α → α) : (lanes f).LaneWise := fun _ _ _ => rfl

end BinaryFunctor

namespace TrinaryFunctor

variable {α : Type v}

def LaneWise (f : TrinaryFunctor α) : Prop :=
  ∀ a b c lane, f.packet a b c lane = f.scalar (a lane) (b lane) (c lane)

def lanes (f : α → α → α → α) : TrinaryFunctor α where
  scalar := f
  packet a b c lane := f (a lane) (b lane) (c lane)

theorem lanes_laneWise (f : α → α → α → α) : (lanes f).LaneWise := fun _ _ _ _ => rfl

end TrinaryFunctor

/-- An elementwise tree over leaves `L` and scalars `α`, with its functors. -/
inductive Expr (L : Type u) (α : Type v)
  | scalar (value : α)
  | leaf (operand : L)
  | unary (functor : UnaryFunctor α) (rhs : Expr L α)
  | binary (functor : BinaryFunctor α) (lhs rhs : Expr L α)
  | trinary (functor : TrinaryFunctor α) (lhs mhs rhs : Expr L α)

namespace Expr

variable {L : Type u} {α : Type v}

/-- The tensor leaves in tree order. -/
def leaves : Expr L α → List L
  | scalar _ => []
  | leaf l => [l]
  | unary _ rhs => rhs.leaves
  | binary _ lhs rhs => lhs.leaves ++ rhs.leaves
  | trinary _ lhs mhs rhs => lhs.leaves ++ (mhs.leaves ++ rhs.leaves)

def evaluate (read : L → α) : Expr L α → α
  | scalar value => value
  | leaf l => read l
  | unary functor rhs => functor.scalar (rhs.evaluate read)
  | binary functor lhs rhs => functor.scalar (lhs.evaluate read) (rhs.evaluate read)
  | trinary functor lhs mhs rhs =>
      functor.scalar (lhs.evaluate read) (mhs.evaluate read) (rhs.evaluate read)

/-- The register a tree evaluates to; scalars are splatted. -/
def evaluatePacket (read : L → Nat → α) : Expr L α → Nat → α
  | scalar value => fun _ => value
  | leaf l => read l
  | unary functor rhs => functor.packet (rhs.evaluatePacket read)
  | binary functor lhs rhs =>
      functor.packet (lhs.evaluatePacket read) (rhs.evaluatePacket read)
  | trinary functor lhs mhs rhs =>
      functor.packet (lhs.evaluatePacket read) (mhs.evaluatePacket read)
        (rhs.evaluatePacket read)

/-- The SIMD operations of a tree are lane-wise. -/
def LaneWise : Expr L α → Prop
  | scalar _ | leaf _ => True
  | unary functor rhs => functor.LaneWise ∧ rhs.LaneWise
  | binary functor lhs rhs => functor.LaneWise ∧ lhs.LaneWise ∧ rhs.LaneWise
  | trinary functor lhs mhs rhs =>
      functor.LaneWise ∧ lhs.LaneWise ∧ mhs.LaneWise ∧ rhs.LaneWise

/-- A lane of a lane-wise tree is its value on that lane of the leaves. -/
theorem evaluatePacket_lane {e : Expr L α} (h : e.LaneWise) (read : L → Nat → α) (lane : Nat) :
    e.evaluatePacket read lane = e.evaluate fun l => read l lane := by
  induction e with
  | scalar _ | leaf _ => rfl
  | unary f rhs ih => rw [evaluatePacket, evaluate, h.1, ih h.2]
  | binary f lhs rhs ihl ihr => rw [evaluatePacket, evaluate, h.1, ihl h.2.1, ihr h.2.2]
  | trinary f lhs mhs rhs ihl ihm ihr =>
      rw [evaluatePacket, evaluate, h.1, ihl h.2.1, ihm h.2.2.1, ihr h.2.2.2]

/-- The tree over the leaves' images. -/
def map {L' : Type u} (f : L → L') : Expr L α → Expr L' α
  | scalar value => scalar value
  | leaf l => leaf (f l)
  | unary functor rhs => unary functor (rhs.map f)
  | binary functor lhs rhs => binary functor (lhs.map f) (rhs.map f)
  | trinary functor lhs mhs rhs => trinary functor (lhs.map f) (mhs.map f) (rhs.map f)

theorem evaluate_map {L' : Type u} (f : L → L') (read : L' → α) (e : Expr L α) :
    (e.map f).evaluate read = e.evaluate fun l => read (f l) := by
  induction e with
  | scalar _ | leaf _ => rfl
  | unary f rhs ih => simp only [map, evaluate, ih]
  | binary f lhs rhs ihl ihr => simp only [map, evaluate, ihl, ihr]
  | trinary f lhs mhs rhs ihl ihm ihr => simp only [map, evaluate, ihl, ihm, ihr]

theorem laneWise_map {L' : Type u} (f : L → L') (e : Expr L α) :
    (e.map f).LaneWise ↔ e.LaneWise := by
  induction e with
  | scalar _ | leaf _ => exact Iff.rfl
  | unary g rhs ih => simp only [map, LaneWise, ih]
  | binary g lhs rhs ihl ihr => simp only [map, LaneWise, ihl, ihr]
  | trinary g lhs mhs rhs ihl ihm ihr => simp only [map, LaneWise, ihl, ihm, ihr]

theorem leaves_map {L' : Type u} (f : L → L') (e : Expr L α) :
    (e.map f).leaves = e.leaves.map f := by
  induction e with
  | scalar _ | leaf _ => rfl
  | unary g rhs ih => exact ih
  | binary g lhs rhs ihl ihr => simp only [map, leaves, ihl, ihr, List.map_append]
  | trinary g lhs mhs rhs ihl ihm ihr =>
      simp only [map, leaves, ihl, ihm, ihr, List.map_append]

theorem map_map {L' L'' : Type u} (f : L → L') (g : L' → L'') (e : Expr L α) :
    (e.map f).map g = e.map fun l => g (f l) := by
  induction e with
  | scalar _ | leaf _ => rfl
  | unary h rhs ih => simp only [map, ih]
  | binary h lhs rhs ihl ihr => simp only [map, ihl, ihr]
  | trinary h lhs mhs rhs ihl ihm ihr => simp only [map, ihl, ihm, ihr]

/-- The tree whose leaves are their operand numbers in tree order. -/
def numbered : Expr L α → Nat → Expr Nat α
  | scalar value, _ => scalar value
  | leaf _, op => leaf op
  | unary functor rhs, op => unary functor (rhs.numbered op)
  | binary functor lhs rhs, op =>
      binary functor (lhs.numbered op) (rhs.numbered (op + lhs.leaves.length))
  | trinary functor lhs mhs rhs, op =>
      trinary functor (lhs.numbered op) (mhs.numbered (op + lhs.leaves.length))
        (rhs.numbered (op + lhs.leaves.length + mhs.leaves.length))

theorem laneWise_numbered (e : Expr L α) (op : Nat) :
    (e.numbered op).LaneWise ↔ e.LaneWise := by
  induction e generalizing op with
  | scalar _ | leaf _ => exact Iff.rfl
  | unary f rhs ih => simp only [numbered, LaneWise, ih]
  | binary f lhs rhs ihl ihr => simp only [numbered, LaneWise, ihl, ihr]
  | trinary f lhs mhs rhs ihl ihm ihr => simp only [numbered, LaneWise, ihl, ihm, ihr]

theorem leaves_numbered (e : Expr L α) (op : Nat) :
    (e.numbered op).leaves = List.range' op e.leaves.length := by
  induction e generalizing op with
  | scalar _ | leaf _ => rfl
  | unary f rhs ih => exact ih op
  | binary f lhs rhs ihl ihr =>
      simp only [numbered, leaves, ihl, ihr, List.length_append, List.range'_append_1]
  | trinary f lhs mhs rhs ihl ihm ihr =>
      simp only [numbered, leaves, ihl, ihm, ihr, List.length_append,
        List.range'_append_1]

/-- Reading an operand number as the leaf it stands for. -/
theorem evaluate_numbered {e : Expr L α} (op : Nat) {f : Nat → α} {g : L → α}
    (h : ∀ j l, e.leaves[j]? = some l → f (op + j) = g l) :
    (e.numbered op).evaluate f = e.evaluate g := by
  induction e generalizing op with
  | scalar _ => rfl
  | leaf l => exact h 0 l rfl
  | unary functor rhs ih => simp only [numbered, evaluate, ih op h]
  | binary functor lhs rhs ihl ihr =>
      have hl := ihl op fun j l hj => h j l (List.getElem?_append_left
        (List.getElem?_eq_some_iff.1 hj).1 ▸ hj)
      have hr := ihr (op + lhs.leaves.length) fun j l hj => by
        rw [Nat.add_assoc]
        refine h _ l ?_
        rw [leaves, List.getElem?_append_right (Nat.le_add_right _ _),
          Nat.add_sub_cancel_left, hj]
      simp only [numbered, evaluate, hl, hr]
  | trinary functor lhs mhs rhs ihl ihm ihr =>
      have hl := ihl op fun j l hj => h j l (List.getElem?_append_left
        (List.getElem?_eq_some_iff.1 hj).1 ▸ hj)
      have hm := ihm (op + lhs.leaves.length) fun j l hj => by
        rw [Nat.add_assoc]
        refine h _ l ?_
        rw [leaves, List.getElem?_append_right (Nat.le_add_right _ _),
          Nat.add_sub_cancel_left, List.getElem?_append_left
            (List.getElem?_eq_some_iff.1 hj).1, hj]
      have hr := ihr (op + lhs.leaves.length + mhs.leaves.length) fun j l hj => by
        rw [Nat.add_assoc, Nat.add_assoc]
        refine h _ l ?_
        rw [leaves, List.getElem?_append_right (Nat.le_add_right _ _),
          Nat.add_sub_cancel_left, List.getElem?_append_right (Nat.le_add_right _ _),
          Nat.add_sub_cancel_left, hj]
      simp only [numbered, evaluate, hl, hm, hr]

theorem evaluate_congr {read read' : L → α} {e : Expr L α}
    (h : ∀ l ∈ e.leaves, read l = read' l) : e.evaluate read = e.evaluate read' := by
  induction e with
  | scalar _ => rfl
  | leaf l => exact h l (by simp [leaves])
  | unary f rhs ih => simp only [evaluate, ih h]
  | binary f lhs rhs ihl ihr =>
      simp only [evaluate, ihl fun l hl => h l (List.mem_append_left _ hl),
        ihr fun l hl => h l (List.mem_append_right _ hl)]
  | trinary f lhs mhs rhs ihl ihm ihr =>
      simp only [evaluate, ihl fun l hl => h l (List.mem_append_left _ hl),
        ihm fun l hl => h l (List.mem_append_right _ (List.mem_append_left _ hl)),
        ihr fun l hl => h l (List.mem_append_right _ (List.mem_append_right _ hl))]

end Expr

variable {T : ElementType} {α : Type v}

/-- A tensor leaf of a lowered tree. -/
inductive Leaf (T : ElementType)
  | ref (s : StridedRef T)
  | view (v : DataView T)
deriving Repr, DecidableEq

namespace Leaf

/-- A data view as the packed descriptor of one dimension that the overlap walk
builds from it. -/
def toRef : Leaf T → StridedRef T
  | ref s => s
  | view v =>
      { view := v
        dims := [⟨v.size, 1⟩]
        numel := v.size
        contiguous := true
        alignStart := 0
        alignEnd := 0 }

def data (l : Leaf T) : Nat := l.toRef.data

def device (l : Leaf T) : DeviceEnum := l.toRef.device

def deviceIndex (l : Leaf T) : Int := l.toRef.deviceIndex

/-- `leaf_offset`: a data view is read flat. -/
def leafOffset : Leaf T → Nat → Nat
  | ref s, index => stridedOffset s index
  | view _, index => index

/-- The scalar load of `expression_loader` at a flat index. -/
def read (c : Codec α T.size) (m : Memory) (index : Nat) (l : Leaf T) : α :=
  load c m (l.data + l.leafOffset index * T.size)

/-- The register load of `expression_loader`: strides play no part in it. -/
def readPacket (c : Codec α T.size) (m : Memory) (index : Nat) (l : Leaf T)
    (lane : Nat) : α :=
  load c m (l.data + (index + lane : Nat) * T.size)

end Leaf

end Vectorization
