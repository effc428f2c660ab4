/-
Whole-expression reductions on the CPU: placement, the strided fallback and the choice
of the SIMD loops.  Whatever path is taken, the elements at the flat indices below
`size()` are folded once each, in any exact way of combining them.
-/
import Vectorization.Assignment
import Vectorization.ReduceOp
import Vectorization.Reduction
import Vectorization.SliceSemantics

namespace Vectorization

open StridedSpace MachineInteger ByteMemory LoopTiling Combining

variable {T : ElementType} {α κ ρ : Type}

/-- A functor that yields truth values; a predicate register is read by the truth of a
lane. -/
structure PredicateFunctor (α : Type) where
  scalar : α → α → Bool
  packet : (Nat → α) → (Nat → α) → Nat → Bool

namespace PredicateFunctor

/-- Every lane of the predicate register is the scalar branch on that lane. -/
def LaneWise (test : PredicateFunctor α) : Prop :=
  ∀ a b lane, test.packet a b lane = test.scalar (a lane) (b lane)

def lanes (test : α → α → Bool) : PredicateFunctor α where
  scalar := test
  packet a b lane := test (a lane) (b lane)

/-- The truth values as numbers. -/
def number (F : Scalar α) (test : PredicateFunctor α) : BinaryFunctor α where
  scalar a b := F.ofBool (test.scalar a b)
  packet a b lane := F.ofBool (test.packet a b lane)

theorem LaneWise.number {test : PredicateFunctor α} (h : test.LaneWise) (F : Scalar α) :
    (test.number F).LaneWise :=
  fun a b lane => congrArg F.ofBool (h a b lane)

end PredicateFunctor

/-- What a reduction is applied to. -/
inductive ReductionOperand (T : ElementType) (α : Type)
  | tensor (t : TensorImpl T)
  | expression (e : Expr (Leaf T) α)
  /-- A tree whose root yields a truth value; within a tree a truth value is a number. -/
  | comparison (test : PredicateFunctor α) (lhs rhs : Expr (Leaf T) α)

/-- `rebase_leaves` of one leaf. -/
def rebaseLeaf (out : List Nat) : Leaf T → Except Raise (Leaf T)
  | .ref s =>
      let dims := List.zipWith Axis.mk out (broadcastStrides out s.dims)
      .ok (.ref { s with dims := dims, numel := shapeNumel out, contiguous := isPacked dims })
  | .view v =>
      if v.size = shapeNumel out then .ok (.view v)
      else .error (.viewBroadcast v.size (shapeNumel out))

/-- `rebase_leaves`. -/
def rebaseLeaves (out : List Nat) : Expr (Leaf T) α → Except Raise (Expr (Leaf T) α)
  | .scalar value => .ok (.scalar value)
  | .leaf l => do return .leaf (← rebaseLeaf out l)
  | .unary functor rhs => do return .unary functor (← rebaseLeaves out rhs)
  | .binary functor lhs rhs => do
      let lhs ← rebaseLeaves out lhs
      let rhs ← rebaseLeaves out rhs
      return .binary functor lhs rhs
  | .trinary functor lhs mhs rhs => do
      let lhs ← rebaseLeaves out lhs
      let mhs ← rebaseLeaves out mhs
      let rhs ← rebaseLeaves out rhs
      return .trinary functor lhs mhs rhs

/-- `expression_numel`; 0 for incompatible shapes. -/
def expressionNumel (e : Expr (Leaf T) α) : Nat :=
  match accumulateShape e [] with
  | some shape => shapeNumel shape
  | none => 0

namespace ReductionOperand

/-- The SIMD operations of the operand are lane-wise. -/
def LaneWise : ReductionOperand T α → Prop
  | tensor _ => True
  | expression e => e.LaneWise
  | comparison test lhs rhs => test.LaneWise ∧ lhs.LaneWise ∧ rhs.LaneWise

variable (F : Scalar α)

/-- The operand as a tree of numbers. -/
def tree : ReductionOperand T α → Expr (Leaf T) α
  | tensor t => .leaf (.ref t.strided)
  | expression e => e
  | comparison test lhs rhs => .binary (test.number F) lhs rhs

theorem LaneWise.tree {operand : ReductionOperand T α} (h : operand.LaneWise) :
    (operand.tree F).LaneWise := by
  cases operand with
  | tensor t => trivial
  | expression e => exact h
  | comparison test lhs rhs => exact ⟨h.1.number F, h.2⟩

/-- `size()`. -/
def size : ReductionOperand T α → Nat
  | tensor t => t.numel
  | operand => expressionNumel (operand.tree F)

/-- `flat_lowered`; a tensor is not rebased. -/
def flatLowered (out : List Nat) : ReductionOperand T α → Except Raise (ReductionOperand T α)
  | tensor t => .ok (tensor t)
  | expression e => do return expression (← rebaseLeaves out e)
  | comparison test lhs rhs => do
      let lhs ← rebaseLeaves out lhs
      let rhs ← rebaseLeaves out rhs
      return comparison test lhs rhs

variable (c : Codec α T.size) (m : Memory)

/-- The scalar load of `expression_loader`, converted to the scalar type. -/
def scalarLoad (index : Nat) : ReductionOperand T α → α
  | tensor t => load c m (t.data + index * T.size)
  | expression e => e.evaluate (Leaf.read c m index)
  | comparison test lhs rhs =>
      F.ofBool (test.scalar (lhs.evaluate (Leaf.read c m index))
        (rhs.evaluate (Leaf.read c m index)))

/-- The register load; a predicate register selects between one and zero. -/
def registerLoad (index lane : Nat) : ReductionOperand T α → α
  | tensor t => load c m (t.data + (index + lane : Nat) * T.size)
  | expression e => e.evaluatePacket (Leaf.readPacket c m index) lane
  | comparison test lhs rhs =>
      if test.packet (lhs.evaluatePacket (Leaf.readPacket c m index))
          (rhs.evaluatePacket (Leaf.readPacket c m index)) lane then F.one
      else F.zero

/-- The register load of `accumulate`, `hmin` and `hmax`, which take a predicate register as
it is: a true lane has all bits set.  None where `mask_t` is a type of its own, which no
overload takes. -/
def numberLoad (allOnes : Option α) : ReductionOperand T α → Option (Nat → Nat → α)
  | comparison test lhs rhs => allOnes.map fun ones index lane =>
      if test.packet (lhs.evaluatePacket (Leaf.readPacket c m index))
          (rhs.evaluatePacket (Leaf.readPacket c m index)) lane then ones
      else F.zero
  | operand => some fun index lane => operand.registerLoad F c m index lane

end ReductionOperand

section Reductions

open ReductionOperand

variable (F : Scalar α)

/-- `reduce_operands_flat`. -/
def reduceOperandsFlat : ReductionOperand T α → Except Raise Bool
  | .tensor t => .ok t.contiguous
  | operand => do
      let shape ← expressionResultShape (operand.tree F)
      return leavesFlat (shapeNumel shape) (operand.tree F)

/-- `try_reduce_gpu` without a GPU path: it returns for operands on the CPU only. -/
def tryReduceGpu (operand : ReductionOperand T α) : Except Raise Unit := do
  let place ← accumulateExpressionPlacement (operand.tree F) none
  if (place.map Prod.fst).getD .cpu = .cpu then return ()
  let _flat ← reduceOperandsFlat F operand
  throw .reductionNotCpu

variable (c : Codec α T.size) (m : Memory)

/-- `reduce_strided`; none when the SIMD paths of the caller apply. -/
def reduceStrided (acc : ρ) (combine : ρ → α → ρ) : ReductionOperand T α →
    Except Raise (Option ρ)
  | .tensor t =>
      if t.contiguous then .ok none
      else
        .ok (some ((List.range t.numel).foldl (fun acc i =>
          combine acc (load c m (t.data + t.logicalOffset i * T.size))) acc))
  | operand => do
      let shape ← expressionResultShape (operand.tree F)
      if leavesFlat (shapeNumel shape) (operand.tree F) then return none
      let lowered ← operand.flatLowered shape
      return some ((List.range (shapeNumel shape)).foldl (fun acc i =>
        combine acc (lowered.scalarLoad F c m i)) acc)

variable (S : SimdTarget T) (R : Reducer α κ ρ)

/-- `accumulate`, `hmin` and `hmax`; none where the call does not compile. -/
def horizontalReduction (allOnes : Option α) (operand : ReductionOperand T α) :
    Option (Except Raise ρ) :=
  (operand.numberLoad F c m allOnes).map fun register => do
    tryReduceGpu F operand
    let strided ← reduceStrided F c m R.identity R.update operand
    match strided, operand with
    | some ret, _ => return ret
    | none, .tensor t =>
        return reduceBase R (operand.scalarLoad F c m ·) register S t.numel t.alignStart
          t.alignEnd
    | none, _ => return reducePure R (operand.scalarLoad F c m ·) register S (operand.size F)

/-- `reduce_expression`. -/
def reduceExpression (isCount : Bool) (operand : ReductionOperand T α) : Except Raise ρ := do
  tryReduceGpu F operand
  let strided ← reduceStrided F c m R.identity R.update operand
  match strided with
  | some ret => return ret
  | none =>
      return reduceBatches R (operand.scalarLoad F c m ·) (operand.registerLoad F c m · ·) S
        isCount (operand.size F)

end Reductions

section FlatIndex

/-- A layout whose elements can be read by flat index: in C-order where it says so, and
within 64-bit offsets. -/
structure StridedRef.Laid (s : StridedRef T) : Prop where
  packed : s.contiguous = true → s.sizes.prod ≠ 0 → isPacked s.dims = true
  nonneg : s.sizes.prod ≠ 0 → ∀ a ∈ s.dims, 0 ≤ a.stride
  extent_lt : s.sizes.prod ≠ 0 → extent (natAxes s.dims) < 2 ^ 64

/-- Offsets that fit do not wrap. -/
theorem stridedOffsetLoop_eq {axes : List (Axis Int)} (hpos : ∀ a ∈ axes, a.size ≠ 0)
    (hnonneg : ∀ a ∈ axes, 0 ≤ a.stride) {off : Nat}
    (hfit : off + extent (natAxes axes) < 2 ^ 64) (rem : Nat) :
    stridedOffsetLoop axes off rem = off + decode (natAxes axes) rem := by
  induction axes generalizing off rem with
  | nil => rfl
  | cons a axes ih =>
      have hsize := hpos a List.mem_cons_self
      have hstride := Int.toNat_of_nonneg (hnonneg a List.mem_cons_self)
      rw [natAxes_cons, extent_cons] at hfit
      have hmod : rem % a.size * a.stride.toNat ≤ (a.size - 1) * a.stride.toNat :=
        Nat.mul_le_mul_right _ (Nat.le_sub_one_of_lt (Nat.mod_lt _ (Nat.pos_of_ne_zero hsize)))
      have hterm : rem % a.size * toU64 a.stride = rem % a.size * a.stride.toNat := by
        rcases Nat.lt_or_ge 1 a.size with hlt | hle
        · have hone : 1 * a.stride.toNat ≤ (a.size - 1) * a.stride.toNat :=
            Nat.mul_le_mul_right _ (by omega)
          rw [← hstride, toU64_natCast, wrapU64_eq_self (by simp only at hfit; omega),
            Int.toNat_natCast]
        · rw [show a.size = 1 by omega, Nat.mod_one, Nat.zero_mul, Nat.zero_mul]
      simp only at hfit
      rw [stridedOffsetLoop, if_neg hsize, hterm, wrapU64_eq_self (by omega),
        ih (fun b hb => hpos b (List.mem_cons_of_mem a hb))
          (fun b hb => hnonneg b (List.mem_cons_of_mem a hb)) (by omega),
        natAxes_cons, decode, smul_eq_mul, Nat.add_assoc]

/-- The offset of a flat index is that of its multi-index. -/
theorem StridedRef.Laid.address_unflatten {s : StridedRef T} (h : s.Laid) {i : Nat}
    (hi : i < s.sizes.prod) :
    (s.data : Int) + (stridedOffset s i : Nat) * T.size = s.address (unflatten s.sizes i) := by
  have hne : s.sizes.prod ≠ 0 := Nat.ne_of_gt (Nat.zero_lt_of_lt hi)
  have hpos := size_ne_zero_of_prod hne
  rw [StridedRef.address, stridedOffset]
  split <;> rename_i hcontig
  · have hdot := dot_of_isPacked (h.packed hcontig hne) hpos (unflatten_inBounds hi)
    have hflat : flatten (StridedSpace.sizes s.dims) (unflatten (StridedSpace.sizes s.dims) i) =
        i := flatten_unflatten hi
    rw [hflat] at hdot
    rw [← hdot]
    rfl
  · have hrev : natAxes s.dims.reverse = (natAxes s.dims).reverse := List.map_reverse
    have hext : 0 + extent (natAxes s.dims.reverse) < 2 ^ 64 := by
      rw [Nat.zero_add, hrev, extent_perm (List.reverse_perm _)]
      exact h.extent_lt hne
    rw [stridedOffsetLoop_eq (fun a ha => hpos a (List.mem_reverse.1 ha))
      (fun a ha => h.nonneg hne a (List.mem_reverse.1 ha)) hext, Nat.zero_add, hrev,
      decode_reverse (by rw [natAxes_sizes]; exact hi), dot_eq_natAxes (h.nonneg hne),
      natAxes_sizes]
    rfl

/-- The loops of `logical_offset` and `strided_offset` are one. -/
theorem logicalOffsetLoop_eq_stridedOffsetLoop {dims : List Dim}
    (hdims : ∀ d ∈ dims, toU64 d.size = d.size.toNat) (off rem : Nat) :
    logicalOffsetLoop dims off rem = stridedOffsetLoop (dims.map Dim.axis) off rem := by
  induction dims generalizing off rem with
  | nil => rfl
  | cons d dims ih =>
      have hd := hdims d List.mem_cons_self
      rw [logicalOffsetLoop, List.map_cons, stridedOffsetLoop, hd,
        ih fun b hb => hdims b (List.mem_cons_of_mem d hb)]
      rfl

/-- A tensor as the constructors leave it, with 64-bit strides. -/
structure TensorImpl.Readable (S : SimdTarget T) (t : TensorImpl T) : Prop where
  cached : t.Cached S
  valid : t.Valid
  strides : ∀ d ∈ t.sizesAndStrides, d.stride ≤ int64Max

namespace TensorImpl.Readable

variable {S : SimdTarget T} {t : TensorImpl T} (h : t.Readable S)
include h

theorem toU64_size {d : Dim} (hd : d ∈ t.sizesAndStrides) : toU64 d.size = d.size.toNat := by
  obtain ⟨h0, hmax⟩ := h.valid.sizes d hd
  exact toU64_of_nonneg h0 hmax

theorem prod_eq : t.strided.sizes.prod = elementCount t.sizesAndStrides := by
  have hsizes : t.strided.sizes = t.sizesAndStrides.map fun d => toU64 d.size := by
    rw [StridedRef.sizes, StridedSpace.sizes, strided, List.map_map]
    exact List.map_congr_left fun d hd => (h.toU64_size hd).symm
  rw [hsizes, elementCount]

theorem prod_lt : t.strided.sizes.prod < 2 ^ 64 := by
  rw [h.prod_eq]
  exact (computeShapeNumel_ok h.valid.counted).2

theorem described : t.strided.Described :=
  h.cached.described (fun d hd => (h.valid.sizes d hd).1) h.prod_lt

theorem numel_eq : t.numel = t.strided.sizes.prod :=
  h.described.numel_eq

theorem laid : t.strided.Laid := by
  have hgeometry (hne : t.strided.sizes.prod ≠ 0) :=
    checkViewGeometry_ok h.valid.geometry (h.prod_eq ▸ hne)
  refine ⟨fun hcontig hne => h.described.packed hcontig (h.described.numel_eq ▸ hne),
    fun hne a ha => ?_, fun hne => ?_⟩
  · obtain ⟨d, hd, rfl⟩ := List.mem_map.1 ha
    exact (hgeometry hne).2.1 d hd
  · have haxes : natAxes t.strided.dims = unsignedAxes t.sizesAndStrides := by
      rw [natAxes, strided, unsignedAxes, List.map_map]
      refine List.map_congr_left fun d hd => ?_
      rw [Function.comp_apply, Dim.unsigned, h.toU64_size hd,
        toU64_of_nonneg ((hgeometry hne).2.1 d hd) (h.strides d hd)]
      rfl
    have hle := (hgeometry hne).2.2.1
    rw [haxes]
    unfold int64Max at hle
    omega

/-- `logical_offset` is the offset of the descriptor. -/
theorem logicalOffset_eq (i : Nat) : t.logicalOffset i = stridedOffset t.strided i := by
  rw [logicalOffset, stridedOffset]
  split <;> rename_i hcontig
  · exact (if_pos hcontig).symm
  · refine Eq.trans ?_ (if_neg hcontig).symm
    rw [logicalOffsetLoop_eq_stridedOffsetLoop fun d hd => h.toU64_size (List.mem_reverse.1 hd),
      List.map_reverse]
    rfl

end TensorImpl.Readable

/-- A leaf that can be read by flat index. -/
def Leaf.Laid : Leaf T → Prop
  | .ref s => s.Laid
  | .view v => v.size < 2 ^ 64

/-- A leaf as the expression builder stores it. -/
inductive Leaf.Stored (S : SimdTarget T) : Leaf T → Prop
  | ref {t : TensorImpl T} (h : t.Readable S) : Leaf.Stored S (.ref t.strided)
  | view {v : DataView T} (h : v.size < 2 ^ 64) : Leaf.Stored S (.view v)

namespace Leaf.Stored

variable {S : SimdTarget T} {l : Leaf T} (h : l.Stored S)
include h

theorem described : l.toRef.Described := by
  cases h with
  | ref h => exact h.described
  | view => exact Leaf.view_described _

theorem laid : l.Laid := by
  cases h with
  | ref h => exact h.laid
  | view h => exact h

end Leaf.Stored

theorem broadcastStrides_split {dims : List (Axis Int)} {lead aligned : List Nat}
    (h : List.Forall₂ (fun n m => n = 1 ∨ n = m) (sizes dims) aligned) :
    List.zipWith Axis.mk (lead ++ aligned) (broadcastStrides (lead ++ aligned) dims) =
      List.zipWith Axis.mk lead (List.replicate lead.length 0) ++
        List.zipWith Axis.mk aligned (dims.map fun a => if a.size = 1 then 0 else a.stride) := by
  have hlen := h.length_eq
  rw [sizes_length] at hlen
  rw [broadcastStrides, List.length_append, show lead.length + aligned.length - dims.length =
    lead.length by omega, List.zipWith_append (by simp)]

theorem sizes_zipWith {ns : List Nat} {strides : List Int} (h : ns.length = strides.length) :
    sizes (List.zipWith Axis.mk ns strides) = ns := by
  induction ns generalizing strides with
  | nil => rfl
  | cons n ns ih =>
      cases strides with
      | nil => exact nomatch h
      | cons stride strides =>
          rw [List.zipWith_cons_cons, sizes_cons, ih (Nat.succ.inj h)]

theorem extent_zero_strides (lead : List Nat) :
    extent (natAxes (List.zipWith Axis.mk lead (List.replicate lead.length 0))) = 0 := by
  induction lead with
  | nil => rfl
  | cons n lead ih =>
      rw [List.length_cons, List.replicate_succ, List.zipWith_cons_cons, natAxes_cons,
        extent_cons, ih]
      rfl

/-- Broadcast strides span no more than the leaf's own. -/
theorem extent_aligned {dims : List (Axis Int)} {aligned : List Nat}
    (h : List.Forall₂ (fun n m => n = 1 ∨ n = m) (sizes dims) aligned) :
    extent (natAxes (List.zipWith Axis.mk aligned
      (dims.map fun a => if a.size = 1 then 0 else a.stride))) ≤ extent (natAxes dims) := by
  induction dims generalizing aligned with
  | nil => simp
  | cons a dims ih =>
      obtain _ | ⟨hsize, htail⟩ := h
      have := ih htail
      rw [List.map_cons, List.zipWith_cons_cons, natAxes_cons, natAxes_cons, extent_cons,
        extent_cons]
      rcases hsize with hone | rfl
      · rw [if_pos hone]
        simp only [Int.toNat_zero, Nat.mul_zero]
        omega
      · split
        · simp only [Int.toNat_zero, Nat.mul_zero]
          omega
        · exact Nat.add_le_add_left this _

/-- The leaf that `rebase_leaves` leaves in the place of a tensor's descriptor. -/
theorem StridedRef.Laid.rebased {s : StridedRef T} (h : s.Laid) {out : List Nat}
    (hfit : BroadcastsTo s.sizes out) (numel : Nat) :
    let dims := List.zipWith Axis.mk out (broadcastStrides out s.dims)
    let r : StridedRef T := { s with dims := dims, numel := numel, contiguous := isPacked dims }
    r.Laid ∧ r.sizes = out := by
  obtain ⟨lead, aligned, rfl, hpair⟩ := hfit.split
  have hlen : s.dims.length = aligned.length := (sizes_length _).symm.trans hpair.length_eq
  have hsizes : StridedSpace.sizes (List.zipWith Axis.mk (lead ++ aligned)
      (broadcastStrides (lead ++ aligned) s.dims)) = lead ++ aligned := by
    refine sizes_zipWith ?_
    simp only [broadcastStrides, List.length_append, List.length_replicate, List.length_map]
    omega
  have hprod (hne : (StridedSpace.sizes (List.zipWith Axis.mk (lead ++ aligned)
      (broadcastStrides (lead ++ aligned) s.dims))).prod ≠ 0) : s.sizes.prod ≠ 0 :=
    hfit.prod_ne_zero (hsizes ▸ hne)
  refine ⟨⟨fun hcontig _ => hcontig, fun hne a ha => ?_, fun hne => ?_⟩, hsizes⟩
  · obtain ⟨n, stride, hmem, rfl⟩ : ∃ n stride,
        stride ∈ broadcastStrides (lead ++ aligned) s.dims ∧ a = Axis.mk n stride := by
      rw [← List.map_uncurry_zip_eq_zipWith] at ha
      obtain ⟨⟨n, stride⟩, hzip, rfl⟩ := List.mem_map.1 ha
      exact ⟨n, stride, (List.of_mem_zip hzip).2, rfl⟩
    rcases List.mem_append.1 hmem with hmem | hmem
    · exact (List.eq_of_mem_replicate hmem).ge
    · obtain ⟨b, hb, rfl⟩ := List.mem_map.1 hmem
      have := h.nonneg (hprod hne) b hb
      split <;> simp_all
  · have hle := extent_aligned hpair
    have hlt := h.extent_lt (hprod hne)
    change extent (natAxes (List.zipWith Axis.mk (lead ++ aligned)
      (broadcastStrides (lead ++ aligned) s.dims))) < 2 ^ 64
    rw [broadcastStrides_split hpair, natAxes_append, extent_append, extent_zero_strides]
    omega

end FlatIndex

section Evaluation

variable (c : Codec α T.size)

/-- A rebased leaf is read at the right-aligned broadcast of every flat index. -/
theorem rebaseLeaf_address {l : Leaf T} (hl : l.Laid) {out : List Nat}
    (hfit : BroadcastsTo l.toRef.sizes out) (hview : ∀ v, l = .view v → v.size = out.prod) :
    ∃ l', rebaseLeaf out l = .ok l' ∧ ∀ i < out.prod,
      (l'.data : Int) + (l'.leafOffset i : Nat) * T.size = l.readAddress (unflatten out i) := by
  cases l with
  | ref s =>
      obtain ⟨hr, hsizes⟩ := StridedRef.Laid.rebased hl hfit (shapeNumel out)
      refine ⟨_, rfl, fun i hi => ?_⟩
      have haddress := hr.address_unflatten (hsizes ▸ hi)
      rw [hsizes] at haddress
      have hdot : dot (List.zipWith Axis.mk out (broadcastStrides out s.dims)) (unflatten out i) =
          dot s.dims (broadcastIndex s.sizes (unflatten out i)) :=
        dot_broadcastStrides hfit (unflatten_inBounds hi)
      refine haddress.trans ?_
      change (s.data : Int) + dot (List.zipWith Axis.mk out (broadcastStrides out s.dims))
        (unflatten out i) * T.size = _
      rw [hdot]
      rfl
  | view v =>
      have hsize := hview v rfl
      have hnumel : v.size = shapeNumel out := by
        rw [shapeNumel_eq, wrapU64_eq_self (hsize ▸ hl), hsize]
      refine ⟨_, if_pos hnumel, fun i hi => ?_⟩
      rw [Leaf.readAddress_flat (Leaf.view_described v) rfl hfit hsize (unflatten_inBounds hi),
        flatten_unflatten hi]
      rfl

/-- The rebased tree reads the result's logical elements in flat order. -/
theorem rebaseLeaves_evaluate {e : Expr (Leaf T) α} {out : List Nat}
    (hlaid : ∀ l ∈ e.leaves, l.Laid)
    (hfit : ∀ l ∈ e.leaves, BroadcastsTo l.toRef.sizes out)
    (hviews : ∀ v, Leaf.view v ∈ e.leaves → v.size = out.prod) :
    ∃ e', rebaseLeaves out e = .ok e' ∧ ∀ m, ∀ i < out.prod,
      e'.evaluate (Leaf.read c m i) = logicalValue c m e (unflatten out i) := by
  induction e with
  | scalar value => exact ⟨_, rfl, fun _ _ _ => rfl⟩
  | leaf l =>
      have hmem : l ∈ (Expr.leaf l : Expr (Leaf T) α).leaves := List.mem_singleton_self l
      obtain ⟨l', hl', haddress⟩ := rebaseLeaf_address (hlaid l hmem) (hfit l hmem)
        fun v hv => hviews v (hv ▸ hmem)
      exact ⟨.leaf l', by rw [rebaseLeaves, hl']; rfl, fun m i hi =>
        congrArg (load c m) (haddress i hi)⟩
  | unary functor rhs ih =>
      obtain ⟨rhs', hrhs, hread⟩ := ih hlaid hfit hviews
      refine ⟨.unary functor rhs', by rw [rebaseLeaves, hrhs]; rfl, fun m i hi => ?_⟩
      rw [Expr.evaluate, hread m i hi]
      rfl
  | binary functor lhs rhs ihl ihr =>
      obtain ⟨lhs', hlhs, hl⟩ := ihl (fun l hl => hlaid l (List.mem_append_left _ hl))
        (fun l hl => hfit l (List.mem_append_left _ hl))
        fun v hv => hviews v (List.mem_append_left _ hv)
      obtain ⟨rhs', hrhs, hr⟩ := ihr (fun l hl => hlaid l (List.mem_append_right _ hl))
        (fun l hl => hfit l (List.mem_append_right _ hl))
        fun v hv => hviews v (List.mem_append_right _ hv)
      refine ⟨.binary functor lhs' rhs', by rw [rebaseLeaves, hlhs, hrhs]; rfl,
        fun m i hi => ?_⟩
      rw [Expr.evaluate, hl m i hi, hr m i hi]
      rfl
  | trinary functor lhs mhs rhs ihl ihm ihr =>
      obtain ⟨lhs', hlhs, hl⟩ := ihl (fun l hl => hlaid l (List.mem_append_left _ hl))
        (fun l hl => hfit l (List.mem_append_left _ hl))
        fun v hv => hviews v (List.mem_append_left _ hv)
      have hright {l : Leaf T} (hl : l ∈ mhs.leaves ++ rhs.leaves) :
          l ∈ (Expr.trinary functor lhs mhs rhs).leaves := List.mem_append_right _ hl
      obtain ⟨mhs', hmhs, hm⟩ := ihm
        (fun l hl => hlaid l (hright (List.mem_append_left _ hl)))
        (fun l hl => hfit l (hright (List.mem_append_left _ hl)))
        fun v hv => hviews v (hright (List.mem_append_left _ hv))
      obtain ⟨rhs', hrhs, hr⟩ := ihr
        (fun l hl => hlaid l (hright (List.mem_append_right _ hl)))
        (fun l hl => hfit l (hright (List.mem_append_right _ hl)))
        fun v hv => hviews v (hright (List.mem_append_right _ hv))
      refine ⟨.trinary functor lhs' mhs' rhs', by rw [rebaseLeaves, hlhs, hmhs, hrhs]; rfl,
        fun m i hi => ?_⟩
      rw [Expr.evaluate, hl m i hi, hm m i hi, hr m i hi]
      rfl

theorem accumulateExpressionPlacement_cpu {e : Expr (Leaf T) α} {index : Int}
    (h : ∀ l ∈ e.leaves, l.device = .cpu ∧ l.deviceIndex = index)
    {seen : Option (DeviceEnum × Int)} (hseen : ∀ place ∈ seen, place = (.cpu, index)) :
    ∃ place, accumulateExpressionPlacement e seen = .ok place ∧
      ∀ p ∈ place, p = (.cpu, index) := by
  induction e generalizing seen with
  | scalar _ => exact ⟨seen, rfl, hseen⟩
  | leaf l =>
      have hl : (l.device, l.deviceIndex) = (.cpu, index) :=
        Prod.ext_iff.2 (h l (List.mem_singleton_self l))
      cases seen with
      | none => exact ⟨_, rfl, fun p hp => (Option.some.inj hp).symm.trans hl⟩
      | some place =>
          refine ⟨some place, ?_, hseen⟩
          rw [accumulateExpressionPlacement, if_pos (hl.trans (hseen place rfl).symm)]
  | unary functor rhs ih => exact ih h hseen
  | binary functor lhs rhs ihl ihr =>
      obtain ⟨p₁, h₁, hp₁⟩ := ihl (fun l hl => h l (List.mem_append_left _ hl)) hseen
      obtain ⟨p₂, h₂, hp₂⟩ := ihr (fun l hl => h l (List.mem_append_right _ hl)) hp₁
      exact ⟨p₂, by rw [accumulateExpressionPlacement, h₁]; exact h₂, hp₂⟩
  | trinary functor lhs mhs rhs ihl ihm ihr =>
      obtain ⟨p₁, h₁, hp₁⟩ := ihl (fun l hl => h l (List.mem_append_left _ hl)) hseen
      obtain ⟨p₂, h₂, hp₂⟩ := ihm
        (fun l hl => h l (List.mem_append_right _ (List.mem_append_left _ hl))) hp₁
      obtain ⟨p₃, h₃, hp₃⟩ := ihr
        (fun l hl => h l (List.mem_append_right _ (List.mem_append_right _ hl))) hp₂
      refine ⟨p₃, ?_, hp₃⟩
      rw [accumulateExpressionPlacement, h₁]
      show (accumulateExpressionPlacement mhs p₁ >>= _) = _
      rw [h₂]
      exact h₃

end Evaluation

/-- A tree that evaluates without raising: its leaves are on one CPU, their shapes are
compatible, and no data view would have to be broadcast. -/
structure Expr.Evaluable (S : SimdTarget T) (e : Expr (Leaf T) α) (shape : List Nat) : Prop where
  stored : ∀ l ∈ e.leaves, l.Stored S
  placement : ∃ index, ∀ l ∈ e.leaves, l.device = .cpu ∧ l.deviceIndex = index
  shaped : accumulateShape e [] = some shape
  views : ∀ v, Leaf.view v ∈ e.leaves → v.size = shape.prod

theorem Expr.Evaluable.laid {S : SimdTarget T} {e : Expr (Leaf T) α} {shape : List Nat}
    (h : e.Evaluable S shape) : ∀ l ∈ e.leaves, l.Laid :=
  fun l hl => (h.stored l hl).laid

namespace ReductionOperand

variable (F : Scalar α)

/-- The shape of the logical elements. -/
def shape : ReductionOperand T α → List Nat
  | tensor t => t.strided.sizes
  | operand => (accumulateShape (operand.tree F) []).getD []

/-- The tensors and the expressions that a reduction on the CPU accepts. -/
def Valid (S : SimdTarget T) : ReductionOperand T α → Prop
  | tensor t => t.Readable S ∧ t.device = .cpu
  | operand => (operand.tree F).Evaluable S (operand.shape F)

variable (c : Codec α T.size) (m : Memory)

/-- The logical element at a multi-index. -/
def element (operand : ReductionOperand T α) (idx : List Nat) : α :=
  match operand with
  | tensor t => load c m (t.strided.address idx)
  | operand => logicalValue c m (operand.tree F) idx

/-- The logical elements in C-order. -/
def elements (operand : ReductionOperand T α) : List α :=
  (indices (operand.shape F)).map (operand.element F c m)

/-- `leaves_flat`, by which the SIMD loops are chosen. -/
def flat (operand : ReductionOperand T α) : Bool :=
  leavesFlat (operand.size F) (operand.tree F)

/-- What is read at a flat index. -/
def flatElement (operand : ReductionOperand T α) (i : Nat) : α :=
  if operand.flat F then flatValue c m (operand.tree F) i
  else operand.element F c m (unflatten (operand.shape F) i)

/-- What is read at the flat indices below `size()`. -/
def visited (operand : ReductionOperand T α) : List α :=
  (List.range (operand.size F)).map (operand.flatElement F c m)

/-- What `accumulate`, `hmin` and `hmax` read at a flat index: true elements of a comparison
have all bits set where they are read in a register. -/
def numberAt (allOnes : Option α) (S : SimdTarget T) (operand : ReductionOperand T α) : Nat → α :=
  match operand with
  | comparison test lhs rhs =>
      if operand.flat F then
        pureRead S (operand.size F)
          (fun i => if test.scalar (flatValue c m lhs i) (flatValue c m rhs i) then
            allOnes.getD F.zero else F.zero)
          (operand.flatElement F c m)
      else operand.flatElement F c m
  | _ => operand.flatElement F c m

/-- What they read at the flat indices below `size()`. -/
def numbersRead (allOnes : Option α) (S : SimdTarget T) (operand : ReductionOperand T α) :
    List α :=
  (List.range (operand.size F)).map (operand.numberAt F c m allOnes S)

/-- No element of a comparison that is read in a register is true. -/
def RegistersFalse (S : SimdTarget T) (operand : ReductionOperand T α) : Prop :=
  match operand with
  | comparison test lhs rhs => operand.flat F = true →
      ∀ i < loopPeel S (operand.size F),
        test.scalar (flatValue c m lhs i) (flatValue c m rhs i) = false
  | _ => True

section Valid

variable {F} {S : SimdTarget T} {operand : ReductionOperand T α} (h : operand.Valid F S)
include h

theorem Valid.stored : ∀ l ∈ (operand.tree F).leaves, l.Stored S := by
  cases operand with
  | tensor t =>
      intro l hl
      rw [List.mem_singleton.1 hl]
      exact .ref h.1
  | expression _ | comparison _ _ _ => exact Expr.Evaluable.stored h

theorem Valid.fits : ∀ l ∈ (operand.tree F).leaves,
    BroadcastsTo l.toRef.sizes (operand.shape F) := by
  cases operand with
  | tensor t =>
      intro l hl
      rw [List.mem_singleton.1 hl]
      exact BroadcastsTo.refl _
  | expression _ | comparison _ _ _ =>
      exact (accumulateShape_fits (Expr.Evaluable.shaped h)).2

theorem Valid.placement : ∃ index, ∀ l ∈ (operand.tree F).leaves,
    l.device = .cpu ∧ l.deviceIndex = index := by
  cases operand with
  | tensor t =>
      refine ⟨t.deviceIndex, fun l hl => ?_⟩
      rw [List.mem_singleton.1 hl]
      exact ⟨h.2, rfl⟩
  | expression _ | comparison _ _ _ => exact Expr.Evaluable.placement h

theorem Valid.size_eq : operand.size F = wrapU64 (operand.shape F).prod := by
  cases operand with
  | tensor t => exact h.1.numel_eq.trans (wrapU64_eq_self h.1.prod_lt).symm
  | expression _ | comparison _ _ _ =>
      have hshaped := Expr.Evaluable.shaped h
      refine Eq.trans ?_ (shapeNumel_eq _)
      exact congrArg (fun shape => match shape with
        | some shape => shapeNumel shape
        | none => 0) hshaped

theorem Valid.size_of_lt (hcount : (operand.shape F).prod < 2 ^ 64) :
    operand.size F = (operand.shape F).prod :=
  h.size_eq.trans (wrapU64_eq_self hcount)

/-- Elements that can be counted are read in C-order. -/
theorem Valid.flatElement_eq (hcount : (operand.shape F).prod < 2 ^ 64) {i : Nat}
    (hi : i < (operand.shape F).prod) :
    operand.flatElement F c m i = operand.element F c m (unflatten (operand.shape F) i) := by
  rw [flatElement, flat, h.size_of_lt hcount]
  split <;> rename_i hflat
  · have hvalue := flatValue_eq c hflat h.fits (fun l hl => (h.stored l hl).described) hi m
    cases operand with
    | tensor t =>
        rw [hvalue]
        have hindex : broadcastIndex t.strided.sizes (unflatten t.strided.sizes i) =
            unflatten t.strided.sizes i := broadcastIndex_self (unflatten_inBounds hi)
        change load c m (t.strided.address (broadcastIndex t.strided.sizes
          (unflatten t.strided.sizes i))) = _
        rw [hindex]
        rfl
    | expression _ | comparison _ _ _ => exact hvalue
  · rfl

theorem Valid.visited_eq (hcount : (operand.shape F).prod < 2 ^ 64) :
    operand.visited F c m = operand.elements F c m := by
  rw [visited, elements, indices_eq_map_unflatten, List.map_map, h.size_of_lt hcount]
  exact List.map_congr_left fun i hi => h.flatElement_eq c m hcount (List.mem_range.1 hi)

omit h in
theorem length_elements : (operand.elements F c m).length = (operand.shape F).prod := by
  rw [elements, List.length_map, length_indices]

theorem Valid.length_visited :
    (operand.visited F c m).length = wrapU64 (operand.shape F).prod := by
  rw [visited, List.length_map, List.length_range, h.size_eq]

theorem Valid.tryReduceGpu_eq : tryReduceGpu F operand = .ok () := by
  obtain ⟨index, hplace⟩ := h.placement
  have hnone : ∀ place ∈ (none : Option (DeviceEnum × Int)), place = (.cpu, index) :=
    fun _ hp => nomatch hp
  obtain ⟨place, hok, hcpu⟩ := accumulateExpressionPlacement_cpu hplace hnone
  have hdevice : (place.map Prod.fst).getD .cpu = .cpu := by
    cases place with
    | none => rfl
    | some p => exact congrArg Prod.fst (hcpu p rfl)
  rw [tryReduceGpu, hok]
  exact if_pos hdevice

/-- A lowered expression reads the logical elements. -/
theorem Valid.flatLowered_eq (htensor : ∀ t, operand ≠ tensor t) :
    ∃ lowered, operand.flatLowered (operand.shape F) = .ok lowered ∧
      ∀ i < (operand.shape F).prod, lowered.scalarLoad F c m i =
        operand.element F c m (unflatten (operand.shape F) i) := by
  have hfits := h.fits
  cases operand with
  | tensor t => exact absurd rfl (htensor t)
  | expression e =>
      obtain ⟨e', he, hread⟩ := rebaseLeaves_evaluate c (Expr.Evaluable.laid h) hfits
        (Expr.Evaluable.views h)
      refine ⟨expression e', ?_, hread m⟩
      change (rebaseLeaves (shape F (expression e)) e >>= _) = _
      rw [show rebaseLeaves (shape F (expression e)) e = .ok e' from he]
      rfl
  | comparison test lhs rhs =>
      have hlaid := Expr.Evaluable.laid h
      obtain ⟨-, -, -, hviews⟩ := h
      obtain ⟨lhs', hlhs, hl⟩ := rebaseLeaves_evaluate c
        (fun l hl => hlaid l (List.mem_append_left _ hl))
        (fun l hl => hfits l (List.mem_append_left _ hl))
        fun v hv => hviews v (List.mem_append_left _ hv)
      obtain ⟨rhs', hrhs, hr⟩ := rebaseLeaves_evaluate c
        (fun l hl => hlaid l (List.mem_append_right _ hl))
        (fun l hl => hfits l (List.mem_append_right _ hl))
        fun v hv => hviews v (List.mem_append_right _ hv)
      refine ⟨comparison test lhs' rhs', ?_, fun i hi => ?_⟩
      · rw [flatLowered, hlhs, hrhs]
        rfl
      · rw [scalarLoad, hl m i hi, hr m i hi]
        rfl

/-- The strided fallback folds what the flat indices stand for. -/
theorem Valid.reduceStrided_eq (acc : ρ) (combine : ρ → α → ρ) :
    reduceStrided F c m acc combine operand =
      .ok (if operand.flat F then none else some ((operand.visited F c m).foldl combine acc)) := by
  have hexpression (htensor : ∀ t, operand ≠ tensor t)
      (hshaped : accumulateShape (operand.tree F) [] = some (operand.shape F))
      (hsize : operand.size F = shapeNumel (operand.shape F)) :
      (do
        let shape ← expressionResultShape (operand.tree F)
        if leavesFlat (shapeNumel shape) (operand.tree F) then return none
        let lowered ← operand.flatLowered shape
        return some ((List.range (shapeNumel shape)).foldl (fun acc i =>
          combine acc (lowered.scalarLoad F c m i)) acc)) =
      (.ok (if operand.flat F then none
        else some ((operand.visited F c m).foldl combine acc)) : Except Raise (Option ρ)) := by
    obtain ⟨lowered, hlowered, hread⟩ := h.flatLowered_eq c m htensor
    have hresult : expressionResultShape (operand.tree F) = .ok (operand.shape F) := by
      rw [expressionResultShape, hshaped]
    rw [hresult]
    change (if leavesFlat (shapeNumel (operand.shape F)) (operand.tree F) = true then _ else _) = _
    rw [← hsize]
    change (if operand.flat F = true then _ else _) = _
    split <;> rename_i hflat
    · rfl
    · rw [hlowered, visited, List.foldl_map]
      refine congrArg (fun r => Except.ok (some r)) (List.foldl_ext _ _ _ fun acc i hi => ?_)
      have hlt : i < (operand.shape F).prod := by
        have := h.size_eq ▸ List.mem_range.1 hi
        exact Nat.lt_of_lt_of_le this (Nat.mod_le _ _)
      rw [hread i hlt, flatElement, if_neg hflat]
  cases operand with
  | tensor t =>
      have hflat : (tensor t : ReductionOperand T α).flat F = t.contiguous := by
        simp [flat, tree, leavesFlat, TensorImpl.strided, size]
      rw [reduceStrided, hflat]
      split <;> rename_i hcontig
      · rfl
      · rw [visited, List.foldl_map]
        refine congrArg (fun r => Except.ok (some r)) (List.foldl_ext _ _ _ fun acc i hi => ?_)
        rw [flatElement, hflat, if_neg hcontig]
        have hlt : i < t.strided.sizes.prod := h.1.numel_eq ▸ List.mem_range.1 hi
        have haddress := h.1.laid.address_unflatten hlt
        rw [← h.1.logicalOffset_eq] at haddress
        exact congrArg (fun a => combine acc (load c m a)) haddress
  | expression _ | comparison _ _ _ =>
      refine hexpression ?_ (Expr.Evaluable.shaped h) ?_
      · intro t htensor
        cases htensor
      · exact h.size_eq.trans (shapeNumel_eq _).symm

omit h in
/-- The SIMD loops load what the flat indices stand for. -/
theorem loads_of_flat (hlanes : operand.LaneWise) (hflat : operand.flat F = true) :
    (operand.scalarLoad F c m · : Nat → α) = operand.flatElement F c m ∧
      ∀ first lane, operand.registerLoad F c m first lane =
        operand.flatElement F c m (first + lane) := by
  have hread (i : Nat) : (operand.tree F).evaluate (Leaf.read c m i) =
      operand.flatElement F c m i := by
    rw [flatElement, if_pos hflat]
    refine Expr.evaluate_congr fun l hl => ?_
    rw [Leaf.read, Leaf.leafOffset_of_contiguous (leavesFlat_spec hflat l hl).1]
  have hpacket (first lane : Nat) :
      (operand.tree F).evaluatePacket (Leaf.readPacket c m first) lane =
        operand.flatElement F c m (first + lane) := by
    rw [flatElement, if_pos hflat, Expr.evaluatePacket_lane (hlanes.tree F)]
    rfl
  cases operand with
  | tensor t =>
      refine ⟨funext fun i => ?_, hpacket⟩
      rw [flatElement, if_pos hflat]
      rfl
  | expression _ | comparison _ _ _ => exact ⟨funext hread, hpacket⟩

omit h in
/-- The register of `accumulate`, `hmin` and `hmax` together with the tail. -/
theorem numberLoad_eq (hlanes : operand.LaneWise) (hflat : operand.flat F = true)
    {allOnes : Option α} {register : Nat → Nat → α}
    (hregister : operand.numberLoad F c m allOnes = some register) :
    ∃ x' : Nat → α, (∀ first lane, register first lane = x' (first + lane)) ∧
      pureRead S (operand.size F) x' (operand.flatElement F c m) =
        operand.numberAt F c m allOnes S := by
  have hself (x : Nat → α) (n : Nat) : pureRead S n x x = x := funext fun k => ite_self _
  cases operand with
  | tensor _ | expression _ =>
      cases hregister
      exact ⟨_, (loads_of_flat c m hlanes hflat).2, hself _ _⟩
  | comparison test lhs rhs =>
      obtain ⟨ones, rfl, rfl⟩ := Option.map_eq_some_iff.1 hregister
      refine ⟨_, fun first lane => ?_, (if_pos hflat).symm⟩
      simp only [hlanes.1 _ _ lane, Expr.evaluatePacket_lane hlanes.2.1,
        Expr.evaluatePacket_lane hlanes.2.2]
      rfl

omit h in
theorem numberAt_of_not_flat (hflat : ¬ operand.flat F = true) (allOnes : Option α)
    (S : SimdTarget T) : operand.numberAt F c m allOnes S = operand.flatElement F c m := by
  cases operand with
  | tensor _ | expression _ => rfl
  | comparison test lhs rhs => exact if_neg hflat

omit h in
/-- A true element of a comparison is read as all bits set where a register reads it. -/
theorem numberAt_of_flat {test : PredicateFunctor α} {lhs rhs : Expr (Leaf T) α}
    (hflat : (comparison test lhs rhs).flat F = true) (allOnes : Option α) (S : SimdTarget T)
    (i : Nat) :
    (comparison test lhs rhs).numberAt F c m allOnes S i =
      if i < loopPeel S ((comparison test lhs rhs).size F) ∧
          test.scalar (flatValue c m lhs i) (flatValue c m rhs i) = true then
        allOnes.getD F.zero
      else (comparison test lhs rhs).flatElement F c m i := by
  rw [numberAt, if_pos hflat, pureRead]
  by_cases hi : i < loopPeel S ((comparison test lhs rhs).size F)
  · rw [if_pos hi]
    cases htest : test.scalar (flatValue c m lhs i) (flatValue c m rhs i) with
    | true => rw [if_pos rfl, if_pos ⟨hi, rfl⟩]
    | false =>
        rw [if_neg Bool.false_ne_true, if_neg fun hboth => Bool.false_ne_true hboth.2,
          flatElement, if_pos hflat]
        change _ = F.ofBool (test.scalar (flatValue c m lhs i) (flatValue c m rhs i))
        rw [htest]
        rfl
  · rw [if_neg hi, if_neg fun hboth => hi hboth.1]

omit h in
/-- Without a true element in a register the elements are read as numbers. -/
theorem RegistersFalse.numbersRead_eq (hfalse : operand.RegistersFalse F c m S)
    (allOnes : Option α) : operand.numbersRead F c m allOnes S = operand.visited F c m := by
  apply List.map_congr_left
  intro i _
  cases operand with
  | tensor _ | expression _ => rfl
  | comparison test lhs rhs =>
      by_cases hflat : (comparison test lhs rhs).flat F = true
      · rw [numberAt_of_flat c m hflat, if_neg fun hboth => by
          exact Bool.false_ne_true ((hfalse hflat i hboth.1).symm.trans hboth.2)]
      · rw [numberAt_of_not_flat c m hflat]

end Valid

section Folds

variable {F} {S : SimdTarget T} {R : Reducer α κ ρ} {Q : α → Prop} {combine : ρ → ρ → ρ}
  {P : ρ → Prop} {value : α → ρ}

theorem flatElement_of_visited {operand : ReductionOperand T α}
    (hQ : ∀ x ∈ operand.visited F c m, Q x) :
    ∀ i < operand.size F, Q (operand.flatElement F c m i) :=
  fun _ hi => hQ _ (List.mem_map_of_mem (List.mem_range.2 hi))

theorem foldl_visited (operand : ReductionOperand T α) :
    ((operand.visited F c m).map value).foldl combine R.identity =
      foldAt combine R.identity value (operand.flatElement F c m)
        (List.range (operand.size F)) := by
  rw [visited, List.map_map]
  rfl

/-- `accumulate`, `hmin` and `hmax` fold the numbers they read. -/
theorem horizontalReduction_eq {operand : ReductionOperand T α} (h : operand.Valid F S)
    (hlanes : operand.LaneWise) {allOnes : Option α}
    (hR : R.Folds S.length S.packet none Q combine P value)
    (hQ : ∀ x ∈ operand.numbersRead F c m allOnes S, Q x) {result : Except Raise ρ}
    (hrun : horizontalReduction F c m S R allOnes operand = some result) :
    result = .ok (((operand.numbersRead F c m allOnes S).map value).foldl combine R.identity) := by
  obtain ⟨register, hregister, rfl⟩ := Option.map_eq_some_iff.1 hrun
  have hx : ∀ i < operand.size F, Q (operand.numberAt F c m allOnes S i) :=
    fun i hi => hQ _ (List.mem_map_of_mem (List.mem_range.2 hi))
  have hfold : ((operand.numbersRead F c m allOnes S).map value).foldl combine R.identity =
      foldAt combine R.identity value (operand.numberAt F c m allOnes S)
        (List.range (operand.size F)) := by
    rw [numbersRead, List.map_map]
    rfl
  rw [h.tryReduceGpu_eq]
  change (reduceStrided F c m R.identity R.update operand >>= _) = _
  rw [h.reduceStrided_eq, hfold]
  by_cases hflat : operand.flat F = true
  · rw [if_pos hflat]
    obtain ⟨x', hloads, hread⟩ := numberLoad_eq c m hlanes hflat (S := S) hregister
    obtain ⟨hscalar, -⟩ := operand.loads_of_flat c m hlanes hflat
    have hpure := reducePure_eq (x := operand.flatElement F c m) (n := operand.size F) hR hloads
      (hread ▸ hx)
    rw [hread] at hpure
    cases operand with
    | tensor t =>
        obtain ⟨q, hend, hle, -⟩ := h.1.cached.align_spec
        obtain rfl := Option.some.inj hregister
        have hloads := (loads_of_flat c m hlanes hflat).2
        have hbase := reduceBase_eq hR hloads hle hx
        rw [← hend] at hbase
        refine congrArg Except.ok (Eq.trans ?_ hbase)
        change reduceBase R (scalarLoad F c m · (tensor t)) _ _ _ _ _ = _
        rw [hscalar]
    | expression _ | comparison _ _ _ =>
        refine congrArg Except.ok (Eq.trans ?_ hpure)
        rw [← hscalar]
  · have hread := numberAt_of_not_flat c m hflat allOnes S
    have hupdate := foldl_update hR (fun i hi => hx i (List.mem_range.1 hi)) hR.exact.identity_mem
    rw [if_neg hflat, visited, List.foldl_map, foldAt, ← hread, ← hupdate]
    rfl

/-- `reduce_expression` folds what it visits. -/
theorem reduceExpression_eq {operand : ReductionOperand T α} (h : operand.Valid F S)
    (hlanes : operand.LaneWise) (isCount : Bool)
    (hR : R.Folds S.unrolledByFour.length S.unrolledByFour.packet
      (if isCount then some 4096 else none) Q combine P value)
    (hQ : ∀ x ∈ operand.visited F c m, Q x) :
    reduceExpression F c m S R isCount operand =
      .ok (((operand.visited F c m).map value).foldl combine R.identity) := by
  have hx := flatElement_of_visited c m hQ
  rw [reduceExpression, h.tryReduceGpu_eq]
  change (reduceStrided F c m R.identity R.update operand >>= _) = _
  rw [h.reduceStrided_eq]
  split <;> rename_i hflat
  · obtain ⟨hscalar, hregister⟩ := operand.loads_of_flat c m hlanes hflat
    refine congrArg Except.ok (Eq.trans ?_
      ((reduceBatches_eq hR hregister hx).trans (foldl_visited c m operand).symm))
    rw [← hscalar]
  · refine congrArg Except.ok ?_
    rw [foldl_visited, foldAt, ← foldl_update hR (fun i hi => hx i (List.mem_range.1 hi))
      hR.exact.identity_mem, visited, List.foldl_map]

end Folds

end ReductionOperand

end Vectorization
