/-
The evaluation loops as programs over single bytes.  A step loads the elements of its
leaves one after another and then stores its lanes; alone it does what the step does as a
whole, and it uses the bytes of its own elements only.
-/
import Vectorization.InPlaceAssignment
import Vectorization.Foundation.ByteThreads

namespace Vectorization

open StridedSpace MachineInteger ByteMemory SharedMemory LoopTiling

variable {T : ElementType} {α : Type}

/-- The branch of the functors that runs on the values of `lanes` elements. -/
structure FunctorBranch (α : Type) (lanes : Nat) where
  unary : UnaryFunctor α → (Fin lanes → α) → Fin lanes → α
  binary : BinaryFunctor α → (Fin lanes → α) → (Fin lanes → α) → Fin lanes → α
  trinary : TrinaryFunctor α → (Fin lanes → α) → (Fin lanes → α) → (Fin lanes → α) →
    Fin lanes → α

namespace FunctorBranch

variable {L : Type} {lanes : Nat}

/-- The scalar branch, on one element after another. -/
def scalar (α : Type) (lanes : Nat) : FunctorBranch α lanes where
  unary f a k := f.scalar (a k)
  binary f a b k := f.scalar (a k) (b k)
  trinary f a b c k := f.scalar (a k) (b k) (c k)

/-- The lanes of a register; an index past the last one starts again at the first. -/
def lane (a : Fin lanes → α) (k : Fin lanes) (i : Nat) : α :=
  a ⟨i % lanes, Nat.mod_lt i k.pos⟩

/-- The branch for registers. -/
def packet (α : Type) (lanes : Nat) : FunctorBranch α lanes where
  unary f a k := f.packet (lane a k) k
  binary f a b k := f.packet (lane a k) (lane b k) k
  trinary f a b c k := f.packet (lane a k) (lane b k) (lane c k) k

/-- On the nodes of a tree the branch computes the scalar functor in every lane. -/
def LaneWise (B : FunctorBranch α lanes) : Expr L α → Prop
  | .scalar _ | .leaf _ => True
  | .unary f rhs => (∀ a k, B.unary f a k = f.scalar (a k)) ∧ B.LaneWise rhs
  | .binary f lhs rhs =>
      (∀ a b k, B.binary f a b k = f.scalar (a k) (b k)) ∧ B.LaneWise lhs ∧ B.LaneWise rhs
  | .trinary f lhs mhs rhs =>
      (∀ a b c k, B.trinary f a b c k = f.scalar (a k) (b k) (c k)) ∧
        B.LaneWise lhs ∧ B.LaneWise mhs ∧ B.LaneWise rhs

theorem scalar_laneWise (e : Expr L α) : (scalar α lanes).LaneWise e := by
  induction e with
  | scalar _ | leaf _ => trivial
  | unary f rhs ih => exact ⟨fun _ _ => rfl, ih⟩
  | binary f lhs rhs ihl ihr => exact ⟨fun _ _ _ => rfl, ihl, ihr⟩
  | trinary f lhs mhs rhs ihl ihm ihr => exact ⟨fun _ _ _ _ => rfl, ihl, ihm, ihr⟩

theorem lane_self (a : Fin lanes → α) (k : Fin lanes) : lane a k k.val = a k :=
  congrArg a (Fin.ext (Nat.mod_eq_of_lt k.isLt))

theorem packet_laneWise {e : Expr L α} (h : e.LaneWise) : (packet α lanes).LaneWise e := by
  induction e with
  | scalar _ | leaf _ => trivial
  | unary f rhs ih =>
      apply And.intro _ (ih h.2)
      intro a k
      change f.packet (lane a k) k = f.scalar (a k)
      rw [h.1, lane_self]
  | binary f lhs rhs ihl ihr =>
      apply And.intro _ ⟨ihl h.2.1, ihr h.2.2⟩
      intro a b k
      change f.packet (lane a k) (lane b k) k = f.scalar (a k) (b k)
      rw [h.1, lane_self, lane_self]
  | trinary f lhs mhs rhs ihl ihm ihr =>
      apply And.intro _ ⟨ihl h.2.1, ihm h.2.2.1, ihr h.2.2.2⟩
      intro a b c k
      change f.packet (lane a k) (lane b k) (lane c k) k = f.scalar (a k) (b k) (c k)
      rw [h.1, lane_self, lane_self, lane_self]

end FunctorBranch

namespace Expr

variable {L : Type} {lanes : Nat}

/-- The tree evaluated for a number of elements at once, load by load. -/
def prog (B : FunctorBranch α lanes) (load : L → ByteProg (Fin lanes → α)) :
    Expr L α → ByteProg (Fin lanes → α)
  | scalar value => pure fun _ => value
  | leaf l => load l
  | unary functor rhs => do
      let r ← rhs.prog B load
      return B.unary functor r
  | binary functor lhs rhs => do
      let l ← lhs.prog B load
      let r ← rhs.prog B load
      return B.binary functor l r
  | trinary functor lhs mhs rhs => do
      let l ← lhs.prog B load
      let m ← mhs.prog B load
      let r ← rhs.prog B load
      return B.trinary functor l m r

variable {B : FunctorBranch α lanes} {load : L → ByteProg (Fin lanes → α)} {e : Expr L α}

theorem run_prog {read : L → Nat → α} {m : Memory} (hB : B.LaneWise e)
    (h : ∀ l ∈ e.leaves, (load l).run m = (fun k => read l k.val, m)) :
    (e.prog B load).run m = (fun k => e.evaluate fun l => read l k.val, m) := by
  induction e with
  | scalar value => rfl
  | leaf l => exact h l (List.mem_singleton_self l)
  | unary functor rhs ih =>
      rw [prog, Prog.run_bind, ih hB.2 h]
      exact congrArg (·, m) (funext fun k => hB.1 _ k)
  | binary functor lhs rhs ihl ihr =>
      have hl := ihl hB.2.1 fun l hl => h l (List.mem_append_left _ hl)
      have hr := ihr hB.2.2 fun l hl => h l (List.mem_append_right _ hl)
      simp only [prog, Prog.run_bind, Prog.run_pure, hl, hr]
      exact congrArg (·, m) (funext fun k => hB.1 _ _ k)
  | trinary functor lhs mhs rhs ihl ihm ihr =>
      have hl := ihl hB.2.1 fun l hl => h l (List.mem_append_left _ hl)
      have hm := ihm hB.2.2.1 fun l hl =>
        h l (List.mem_append_right _ (List.mem_append_left _ hl))
      have hr := ihr hB.2.2.2 fun l hl =>
        h l (List.mem_append_right _ (List.mem_append_right _ hl))
      simp only [prog, Prog.run_bind, Prog.run_pure, hl, hm, hr]
      exact congrArg (·, m) (funext fun k => hB.1 _ _ _ k)

theorem within_prog {reads writes : Set Int}
    (h : ∀ l ∈ e.leaves, (load l).Within reads writes) :
    (e.prog B load).Within reads writes := by
  induction e with
  | scalar value => exact Prog.within_pure _
  | leaf l => exact h l (List.mem_singleton_self l)
  | unary functor rhs ih => exact (ih h).bind fun r => Prog.within_pure _
  | binary functor lhs rhs ihl ihr =>
      apply (ihl fun l hl => h l (List.mem_append_left _ hl)).bind
      intro l
      apply (ihr fun l hl => h l (List.mem_append_right _ hl)).bind
      exact fun r => Prog.within_pure _
  | trinary functor lhs mhs rhs ihl ihm ihr =>
      apply (ihl fun l hl => h l (List.mem_append_left _ hl)).bind
      intro l
      apply (ihm fun l hl => h l (List.mem_append_right _ (List.mem_append_left _ hl))).bind
      intro m
      apply (ihr fun l hl => h l (List.mem_append_right _ (List.mem_append_right _ hl))).bind
      exact fun r => Prog.within_pure _

/-- What the tree evaluates to goes to consecutive cells. -/
def storeProg {w : Nat} (B : FunctorBranch α lanes) (c : Codec α w)
    (load : L → ByteProg (Fin lanes → α)) (address : Int) (e : Expr L α) : ByteProg Unit := do
  let register ← e.prog B load
  storeLanes c lanes (fun k => address + k * w) register

/-- The store of a register performs the operation that stores it as a whole. -/
theorem performs_storeProg {w : Nat} {c : Codec α w} {ι : Type} {source : ι → Set Int}
    {cell : ι → Int} {group : List ι} (op : StoreOp StoreKind α) (hB : B.LaneWise e)
    (read : Memory → L → Nat → α) {address : Int} (haddress : op.address = address)
    (hlanes : op.lanes = lanes)
    (hvalue : ∀ m k, op.value m k = e.evaluate fun l => read m l k)
    (hload : ∀ l ∈ e.leaves, ∀ m, (load l).run m = (fun k => read m l k.val, m))
    (hreads : ∀ l ∈ e.leaves, (load l).Within {a | ∃ i ∈ group, a ∈ source i} ∅)
    (hcells : ∀ k < lanes, ∃ i ∈ group, cell i = address + k * w) :
    Performs c source cell (e.storeProg B c load address) [op] group := by
  constructor
  · intro m
    rw [storeProg, Prog.run_bind, run_prog hB fun l hl => hload l hl m,
      run_storeLanes c lanes _ (fun k => e.evaluate fun l => read m l k), run, List.foldl_cons,
      List.foldl_nil, StoreOp.exec, StoreOp.writes, hlanes,
      haddress]
    simp only [hvalue]
  · apply Prog.Within.bind
    · apply within_prog
      exact fun l hl => (hreads l hl).mono (Set.Subset.refl _) (Set.empty_subset _)
    · intro register
      apply within_storeLanes
      intro k hk x hx
      obtain ⟨i, hi, hcell⟩ := hcells k hk
      exact ⟨i, hi, hcell ▸ hx⟩

end Expr

section Flat

variable (c : Codec α T.size)

/-- The bytes that element `i` of a flat evaluation is computed from. -/
def flatSource (e : Expr (Leaf T) α) (i : Nat) : Set Int :=
  {x | ∃ l ∈ e.leaves, InCell T.size (l.data + l.leafOffset i * T.size) x}

/-- Where element `i` of a flat evaluation is stored. -/
def flatCell (T : ElementType) (data i : Nat) : Int := data + i * T.size

/-- `FlatStep.op`, load by load and store by store. -/
def FlatStep.prog (e : Expr (Leaf T) α) (data : Nat) (s : FlatStep) : ByteProg Unit :=
  let address : Int := (data + s.first * T.size : Nat)
  match s.kind with
  | .scalar => e.storeProg (.scalar α s.lanes) c (fun l => loadLanes c s.lanes fun k =>
      l.data + l.leafOffset (s.first + k) * T.size) address
  | .unaligned | .aligned =>
      e.storeProg (.packet α s.lanes) c (fun l => loadLanes c s.lanes fun k =>
        l.data + (s.first + k : Nat) * T.size) address

theorem FlatStep.cell_eq (data : Nat) (s : FlatStep) (k : Nat) (e : Expr (Leaf T) α) :
    flatCell T data (s.first + k) = (s.op c e data).address + k * T.size := by
  simp only [flatCell, op]
  push_cast
  ring

theorem FlatStep.mem_indices {s : FlatStep} {k : Nat} (hk : k < s.lanes) :
    s.first + k ∈ s.indices :=
  List.mem_range'_1.2 ⟨Nat.le_add_right _ _, Nat.add_lt_add_left hk _⟩

/-- A step with element loads performs its operation, whatever the leaves' strides. -/
theorem FlatStep.performs_scalar (e : Expr (Leaf T) α) (data : Nat) {s : FlatStep}
    (hkind : s.kind = .scalar) :
    Performs c (flatSource e) (flatCell T data) (s.prog c e data) [s.op c e data]
      s.indices := by
  rw [prog]
  simp only [hkind]
  apply Expr.performs_storeProg (s.op c e data) (FunctorBranch.scalar_laneWise e)
    (fun m l k => Leaf.read c m (s.first + k) l) rfl rfl
  · intro m k
    simp only [op, hkind]
  · exact fun l _ m => run_loadLanes c s.lanes _ m
  · intro l hl
    apply within_loadLanes
    intro k hk x hx
    exact ⟨s.first + k, FlatStep.mem_indices hk, l, hl, hx⟩
  · exact fun k hk => ⟨s.first + k, FlatStep.mem_indices hk, s.cell_eq c data k e⟩

/-- Over packed leaves register loads read the same elements. -/
theorem FlatStep.performs {e : Expr (Leaf T) α} {n : Nat} (hlanes : e.LaneWise)
    (hflat : leavesFlat n e = true) (data : Nat) (s : FlatStep) :
    Performs c (flatSource e) (flatCell T data) (s.prog c e data) [s.op c e data]
      s.indices := by
  have hregister : ∀ {kind : StoreKind}, s.kind = kind → kind ≠ .scalar →
      Performs c (flatSource e) (flatCell T data)
        (e.storeProg (.packet α s.lanes) c (fun l => loadLanes c s.lanes fun k =>
          l.data + (s.first + k : Nat) * T.size) (s.op c e data).address)
        [s.op c e data] s.indices := by
    intro kind hkind hne
    apply Expr.performs_storeProg (s.op c e data) (FunctorBranch.packet_laneWise hlanes)
      (fun m l k => Leaf.readPacket c m s.first l k) rfl rfl
    · intro m k
      rw [← Expr.evaluatePacket_lane hlanes]
      cases kind with
      | scalar => exact absurd rfl hne
      | unaligned => simp only [op, hkind]
      | aligned => simp only [op, hkind]
    · exact fun l _ m => run_loadLanes c s.lanes _ m
    · intro l hl
      apply within_loadLanes
      intro k hk x hx
      have hoffset := Leaf.leafOffset_of_contiguous (leavesFlat_spec hflat l hl).1 (s.first + k)
      exact ⟨s.first + k, FlatStep.mem_indices hk, l, hl, hoffset.symm ▸ hx⟩
    · exact fun k hk => ⟨s.first + k, FlatStep.mem_indices hk, s.cell_eq c data k e⟩
  cases hkind : s.kind with
  | scalar => exact FlatStep.performs_scalar c e data hkind
  | unaligned =>
      rw [prog]
      simp only [hkind]
      exact hregister hkind (by decide)
  | aligned =>
      rw [prog]
      simp only [hkind]
      exact hregister hkind (by decide)

end Flat

section Rows

variable (S : SimdTarget T) (c : Codec α T.size)

/-- The bytes that the element at a tuple of operand offsets is computed from. -/
def tupleSource (bases : List Nat) (e : Expr (Leaf T) α) (t : Nat → Int) : Set Int :=
  {x | ∃ op, 0 < op ∧ op < 1 + e.leaves.length ∧
    InCell T.size (bases.getD op 0 + t op * T.size) x}

/-- `rowScalar`, load by load and store by store. -/
def rowScalarProg (row : Expr RowRef α) (address : Int) (i : Nat) : ByteProg Unit :=
  row.storeProg (.scalar α 1) c (fun r => loadLanes c 1 fun _ => r.ptr + i * r.stride * T.size)
    address

/-- A row register: one load that is splatted, or a load for each lane. -/
def RowRef.packetProg (lanes i : Nat) (r : RowRef) : ByteProg (Fin lanes → α) :=
  if r.stride = 0 then (fun v _ => v) <$> loadCell c r.ptr
  else loadLanes c lanes fun k => r.ptr + (i + k : Nat) * T.size

theorem RowRef.run_packetProg (lanes i : Nat) (r : RowRef) (m : Memory) :
    (RowRef.packetProg c lanes i r).run m =
      (fun k => RowRef.readPacket c m i r k.val, m) := by
  rw [packetProg]
  split <;> rename_i hstride
  · rw [Prog.run_map, run_loadCell]
    simp only [readPacket, hstride, ↓reduceIte]
  · rw [run_loadLanes]
    simp only [readPacket, hstride, ↓reduceIte]

/-- `rowPacket`, load by load and store by store. -/
def rowPacketProg (row : Expr RowRef α) (address : Int) (i : Nat) : ByteProg Unit :=
  row.storeProg (.packet α S.length) c (RowRef.packetProg c S.length i) address

/-- `loopRow`, load by load and store by store. -/
def loopRowProg (row : Expr RowRef α) (dstRow dstStride : Int) (innerN tier : Nat) :
    ByteProg Unit :=
  if tier ≤ 2 then do
    Prog.inOrder ((starts 0 (simdRowEnd S innerN) S.length).map fun (i : Nat) =>
      rowPacketProg S c row (dstRow + i * T.size) i)
    Prog.inOrder ((starts (simdRowEnd S innerN) innerN 1).map fun (i : Nat) =>
      rowScalarProg c row (dstRow + i * T.size) i)
  else
    Prog.inOrder ((starts 0 innerN 1).map fun (i : Nat) =>
      rowScalarProg c row (dstRow + i * dstStride * T.size) i)

/-- `loop2d`, load by load and store by store. -/
def loop2dProg (lowered : Expr RowRef α) (dst : Nat) (plan : IterationPlan)
    (rowBegin rowEnd : Nat) : ByteProg Unit :=
  let outer := plan.dims.dropLast.reverse
  let start := startRow outer rowBegin
  Prog.inOrder ((rowOffsets outer (rowEnd - rowBegin) start.1 start.2).map fun offsets =>
    loopRowProg S c (bindRow T plan offsets lowered 1).1 (dst + offsets 0 * T.size)
      (plan.innerStride 0) plan.rowSize plan.tier)

variable {plan : IterationPlan} {e : Expr (Leaf T) α}

/-- The leaves of a bound row are the operands of the plan. -/
theorem bindRow_leaves (plan : IterationPlan) (offsets : Nat → Int) (e : Expr (Leaf T) α)
    {r : RowRef} (hr : r ∈ (bindRow T plan offsets (lowerRows e) 1).1.leaves) :
    ∃ op, 0 < op ∧ op < 1 + e.leaves.length ∧ r = rowRefOf T plan offsets op := by
  have hmap : ∀ e' : Expr Nat α,
      (e'.map (rowRefOf T plan offsets)).leaves = e'.leaves.map (rowRefOf T plan offsets) := by
    intro e'
    induction e' with
    | scalar _ | leaf _ => rfl
    | unary f rhs ih => exact ih
    | binary f lhs rhs ihl ihr => simp only [Expr.map, Expr.leaves, ihl, ihr, List.map_append]
    | trinary f lhs mhs rhs ihl ihm ihr =>
        simp only [Expr.map, Expr.leaves, ihl, ihm, ihr, List.map_append]
  rw [bindRow_lowerRows, hmap, Expr.leaves_numbered] at hr
  obtain ⟨op, hop, rfl⟩ := List.mem_map.1 hr
  obtain ⟨hpos, hlt⟩ := List.mem_range'_1.1 hop
  exact ⟨op, hpos, hlt, rfl⟩

/-- One element of a row. -/
theorem rowScalar_performs (plan : IterationPlan) (e : Expr (Leaf T) α) (dst : Nat)
    (offsets : Nat → Int) {address : Int} (i : Nat)
    (haddress : address = tupleCell T dst (offsets + i • plan.innerStride)) :
    Performs c (tupleSource plan.bases e) (tupleCell T dst)
      (rowScalarProg c (bindRow T plan offsets (lowerRows e) 1).1 address i)
      [rowScalar c (bindRow T plan offsets (lowerRows e) 1).1 address i]
      [offsets + i • plan.innerStride] := by
  have hlanes : (rowScalar c (bindRow T plan offsets (lowerRows e) 1).1 address i).lanes = 1 :=
    rfl
  have hop : (rowScalar c (bindRow T plan offsets (lowerRows e) 1).1 address i).address =
      address := rfl
  rw [rowScalarProg]
  apply Expr.performs_storeProg _ (FunctorBranch.scalar_laneWise _)
    (fun m r _ => RowRef.read c m i r) hop hlanes
  · exact fun m k => rfl
  · exact fun r _ m => run_loadLanes c 1 _ m
  · intro r hr
    obtain ⟨op, hpos, hlt, rfl⟩ := bindRow_leaves plan offsets e hr
    apply within_loadLanes
    intro k hk x hx
    refine ⟨_, List.mem_singleton_self _, op, hpos, hlt, ?_⟩
    rw [tuple_apply]
    convert hx using 1
    simp only [rowRefOf, IterationPlan.innerStride]
    ring
  · intro k hk
    obtain rfl : k = 0 := by omega
    refine ⟨_, List.mem_singleton_self _, ?_⟩
    rw [haddress, Nat.cast_zero, zero_mul, add_zero]

/-- One register of a row whose operands are broadcast or adjacent. -/
theorem rowPacket_performs (hwise : e.LaneWise) (hn : plan.nOperands = 1 + e.leaves.length)
    (hunit : plan.innerStride 0 = 1)
    (hsources : ∀ op < plan.nOperands, 0 < op →
      plan.innerStride op = 0 ∨ plan.innerStride op = 1) (dst : Nat) (offsets : Nat → Int)
    {address : Int} (i : Nat)
    (haddress : address = tupleCell T dst (offsets + i • plan.innerStride)) :
    Performs c (tupleSource plan.bases e) (tupleCell T dst)
      (rowPacketProg S c (bindRow T plan offsets (lowerRows e) 1).1 address i)
      [rowPacket S c (bindRow T plan offsets (lowerRows e) 1).1 address i]
      ((List.range S.length).map fun lane => offsets + (i + lane) • plan.innerStride) := by
  have hlanes : (rowPacket S c (bindRow T plan offsets (lowerRows e) 1).1 address i).lanes =
      S.length := rfl
  have hop : (rowPacket S c (bindRow T plan offsets (lowerRows e) 1).1 address i).address =
      address := rfl
  have hrow : (bindRow T plan offsets (lowerRows e) 1).1.LaneWise :=
    laneWise_bindRow plan offsets hwise
  rw [rowPacketProg]
  apply Expr.performs_storeProg _ (FunctorBranch.packet_laneWise hrow)
    (fun m r k => RowRef.readPacket c m i r k) hop hlanes
  · exact fun m k => Expr.evaluatePacket_lane hrow _ k
  · exact fun r _ m => RowRef.run_packetProg c S.length i r m
  · intro r hr
    obtain ⟨op, hpos, hlt, rfl⟩ := bindRow_leaves plan offsets e hr
    have hmem : ∀ k < S.length, offsets + (i + k) • plan.innerStride ∈
        (List.range S.length).map fun lane => offsets + (i + lane) • plan.innerStride :=
      fun k hk => List.mem_map_of_mem (f := fun lane => offsets + (i + lane) •
        plan.innerStride) (List.mem_range.2 hk)
    have hstride : (rowRefOf T plan offsets op).stride = plan.innerStride op := rfl
    rw [RowRef.packetProg, hstride]
    rcases hsources op (hn ▸ hlt) hpos with hzero | hone
    · rw [if_pos hzero]
      apply Prog.Within.map
      apply within_loadCell
      intro x hx
      refine ⟨_, hmem 0 S.length_pos, op, hpos, hlt, ?_⟩
      rw [tuple_apply, hzero, mul_zero, add_zero]
      exact hx
    · rw [if_neg (by omega)]
      apply within_loadLanes
      intro k hk x hx
      refine ⟨_, hmem k hk, op, hpos, hlt, ?_⟩
      rw [tuple_apply, hone]
      convert hx using 1
      simp only [rowRefOf]
      ring
  · intro k hk
    refine ⟨_, List.mem_map_of_mem (f := fun lane => offsets + (i + lane) •
      plan.innerStride) (List.mem_range.2 hk), ?_⟩
    rw [haddress, tupleCell, tupleCell, tuple_apply, tuple_apply, hunit]
    push_cast
    ring

/-- The row kernel performs its operations on the tuples of the row. -/
theorem loopRow_performs (hwise : e.LaneWise) (hn : plan.nOperands = 1 + e.leaves.length)
    (htier : TierSound plan) (dst innerN : Nat) (offsets : Nat → Int) :
    Performs c (tupleSource plan.bases e) (tupleCell T dst)
      (loopRowProg S c (bindRow T plan offsets (lowerRows e) 1).1 (dst + offsets 0 * T.size)
        (plan.innerStride 0) innerN plan.tier)
      (loopRow S c (bindRow T plan offsets (lowerRows e) 1).1 (dst + offsets 0 * T.size)
        (plan.innerStride 0) innerN plan.tier)
      ((List.range innerN).map fun i => offsets + i • plan.innerStride) := by
  rw [← rowGroups_flatten S innerN plan.tier, loopRowProg, loopRow, rowGroups]
  split <;> rename_i hsimd
  · obtain ⟨hunit, hsources⟩ := htier hsimd
    rw [List.flatten_append, ← List.flatMap_def, ← List.flatMap_def]
    have haddress : ∀ i : Nat, dst + offsets 0 * T.size + i * T.size =
        tupleCell T dst (offsets + i • plan.innerStride) := by
      intro i
      rw [tupleCell, tuple_apply, hunit]
      ring
    apply Performs.append
    · apply Performs.inOrder_map
      exact fun i _ => rowPacket_performs S c hwise hn hunit hsources dst offsets i (haddress i)
    · apply Performs.inOrder_map
      exact fun i _ => rowScalar_performs c plan e dst offsets i (haddress i)
  · rw [← List.flatMap_def]
    apply Performs.inOrder_map
    intro i _
    apply rowScalar_performs c plan e dst offsets i
    rw [tupleCell, tuple_apply]
    ring

/-- A chunk of rows performs its operations on the tuples of its rows. -/
theorem loop2d_performs (hwise : e.LaneWise) (hn : plan.nOperands = 1 + e.leaves.length)
    (htier : TierSound plan) (hpos : ∀ d ∈ plan.dims, 0 < d.size) (dst rowBegin rowEnd : Nat) :
    Performs c (tupleSource plan.bases e) (tupleCell T dst)
      (loop2dProg S c (lowerRows e) dst plan rowBegin rowEnd)
      (loop2d S c (lowerRows e) dst plan rowBegin rowEnd)
      ((List.range' rowBegin (rowEnd - rowBegin)).flatMap (rowTuples plan)) := by
  have houter : ∀ d ∈ plan.dims.dropLast.reverse, 0 < d.size := fun d hd =>
    hpos d (List.dropLast_subset _ (List.mem_reverse.1 hd))
  rw [loop2dProg, loop2d, rowOffsets_eq houter, List.map_map, List.flatMap_map]
  apply Performs.inOrder
  exact fun row _ => loopRow_performs S c hwise hn htier dst plan.rowSize _

end Rows

end Vectorization
