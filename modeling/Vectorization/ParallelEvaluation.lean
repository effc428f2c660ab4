/-
Evaluation by a pool of threads.  The chunks of a parallel loop run at the same time, one
byte access of any of them after another; no chunk touches what another one stores, so the
memory in the end is that of the serial loop.
-/
import Vectorization.EvaluationThreads

namespace Vectorization

open StridedSpace MachineInteger ByteMemory SharedMemory LoopTiling AtomicRun

variable {T : ElementType} {α : Type}

/-- What the calling thread stores before it starts the pool, and what the pool runs for
each piece of the range. -/
structure Region (α : Type) where
  before : List (StoreOp StoreKind α)
  pieces : List (Nat × Nat)
  chunk : Nat × Nat → ByteProg Unit

/-- A loop without a parallel part. -/
def Region.serial (ops : List (StoreOp StoreKind α)) : Region α :=
  ⟨ops, [], fun _ => pure ()⟩

section Loops

variable (S : SimdTarget T) (threads : ParallelFor) (c : Codec α T.size)

/-- `flatSteps`, with the chunks of `parallel_for` as threads. -/
def flatRegion (e : Expr (Leaf T) α) (data n alignStart alignEnd : Nat) : Region α :=
  if S.vectorized then
    let peel := scalarSteps 0 alignStart
    let i := counterAfter 0 alignStart 1
    if n ≤ i then Region.serial (peel.map (FlatStep.op c e data))
    else if threads.enabled ∧ (kGrainSize : Int) ≤ wrapI64 (n - i : Nat) then
      { before := peel.map (FlatStep.op c e data)
        pieces := threads.pieces (n - i) kGrainSize
        chunk := fun piece => Prog.inOrder
          ((runChunkContiguous S (i + piece.1) (i + piece.2)).map (FlatStep.prog c e data)) }
    else Region.serial ((peel ++ runAligned S i n alignEnd).map (FlatStep.op c e data))
  else Region.serial ((scalarSteps 0 n).map (FlatStep.op c e data))

/-- `runPlanned`, with the row chunks of `parallel_for` as threads. -/
def plannedRegion (e : Expr (Leaf T) α) (dst : StridedRef T) (shape : List Nat) :
    Except Raise (Region α) := do
  let plan ← makeIterationPlan e dst shape
  if plan.numel = 0 then return Region.serial []
  let lowered := lowerRows e
  let rows := plan.rows
  if ¬ threads.enabled ∨ plan.numel < kGrainSize ∨ rows < 2 then
    return Region.serial (loop2d S c lowered dst.data plan 0 rows.toNat)
  let rowGrain := max 1 (kGrainSize / plan.rowSize)
  return { before := []
           pieces := threads.pieces rows.toNat rowGrain
           chunk := fun piece => loop2dProg S c lowered dst.data plan piece.1 piece.2 }

/-- `run_lowered`, with the chunks of `parallel_for` as threads. -/
def runLoweredRegion (e : Expr (Leaf T) α) (rhs : TensorImpl T) : Except Raise (Region α) := do
  let shape ← expressionResultShape e
  checkResultShape shape rhs
  let flat := leavesFlat rhs.numel e
  checkCpuReachable rhs "expressions_evaluator::run"
  if ¬ flat ∨ ¬ rhs.contiguous then
    let dst ← rhs.toStridedRef
    plannedRegion S threads c e dst shape
  else
    return flatRegion S threads c e rhs.data rhs.numel rhs.alignStart rhs.alignEnd

end Loops

section Regions

variable {w : Nat} (c : Codec α w)

/-- The pool at its start. -/
def Region.pool (r : Region α) (m : Memory) : Pool (Fin r.pieces.length) Int UInt8 :=
  piecePool (run c r.before m) r.pieces r.chunk

/-- However the threads of the region are scheduled, no two of them race and the memory in
the end is that of the operations in order. -/
structure Region.Implements (r : Region α)
    (ops : List (StoreOp StoreKind α)) : Prop where
  raceFree : ∀ m, ∃ reads writes, (r.pool c m).RaceFree reads writes
  memory : ∀ m steps, ((r.pool c m).schedule steps).Finished →
    ((r.pool c m).schedule steps).memory = run c ops m

variable {c} {ι : Type} {source : ι → Set Int} {cell : ι → Int}

theorem Region.implements {r : Region α} {opsOf : Nat × Nat → List (StoreOp StoreKind α)}
    {groups : Nat × Nat → List ι}
    (hperforms : ∀ p ∈ r.pieces, Performs c source cell (r.chunk p) (opsOf p) (groups p))
    (hind : (r.pieces.flatMap groups).Pairwise (Independent w source cell)) :
    r.Implements c (r.before ++ r.pieces.flatMap opsOf) := by
  refine ⟨fun m => ⟨_, _, piecePool_raceFree hperforms hind _⟩, fun m steps hfin => ?_⟩
  rw [Region.pool] at hfin ⊢
  rw [piecePool_run hperforms hind hfin, run, run, run, List.foldl_append]

theorem Region.serial_implements (ops : List (StoreOp StoreKind α)) :
    (Region.serial ops).Implements c ops := by
  have hperforms : ∀ p ∈ (Region.serial ops).pieces, Performs c (fun _ : Nat => ∅)
      (fun _ => 0) ((Region.serial ops).chunk p) ([] : List (StoreOp StoreKind α)) [] := by
    intro p hp
    cases hp
  have h := Region.implements hperforms (by simp [Region.serial])
  simpa [Region.serial] using h

end Regions

section Independence

variable {e : Expr (Leaf T) α} {dst : StridedRef T}

/-- What a leaf is read for at one multi-index is not stored at another one. -/
theorem AliasSafe.not_stored {l : Leaf T} (h : AliasSafe dst l)
    (hfit : BroadcastsTo l.toRef.sizes dst.sizes) {idx idx' : List Nat}
    (hidx : InBounds idx dst.sizes) (hidx' : InBounds idx' dst.sizes)
    (hap : Apart T.size (dst.address idx) (dst.address idx')) {x : Int}
    (hx : InCell T.size (dst.address idx) x) : ¬ InCell T.size (l.readAddress idx') x := by
  intro hread
  rcases h with hdisj | ⟨hdata, hdims⟩
  · have hleaf : x ∈ l.toRef.region := ⟨_, hfit.inBounds hidx', hread⟩
    exact Set.disjoint_left.1 hdisj hleaf ⟨idx, hidx, hx⟩
  · have hself : broadcastIndex l.toRef.sizes idx' = idx' := by
      rw [StridedRef.sizes, hdims]
      exact broadcastIndex_self hidx'
    have hsame : l.readAddress idx' = dst.address idx' := by
      rw [Leaf.readAddress, hself, StridedRef.address, StridedRef.address, hdims, ← hdata]
      rfl
    exact hap.not_inCell hx (hsame ▸ hread)

variable {ι : Type} {source : ι → Set Int} {cell : ι → Int}

/-- The elements of an evaluation whose leaves are safe to read are independent. -/
theorem independent_elements (elementOf : List Nat → ι)
    (hcell : ∀ idx, InBounds idx dst.sizes → cell (elementOf idx) = dst.address idx)
    (hsource : ∀ idx, InBounds idx dst.sizes → ∀ x ∈ source (elementOf idx),
      ∃ l ∈ e.leaves, InCell T.size (l.readAddress idx) x)
    (hfit : ∀ l ∈ e.leaves, BroadcastsTo l.toRef.sizes dst.sizes)
    (hsafe : ∀ l ∈ e.leaves, AliasSafe dst l)
    (hap : (indices dst.sizes).Pairwise fun i j =>
      Apart T.size (dst.address i) (dst.address j)) :
    ((indices dst.sizes).map elementOf).Pairwise (Independent T.size source cell) := by
  rw [List.pairwise_map]
  refine hap.imp_of_mem fun {i j} hi hj hij => ?_
  rw [mem_indices] at hi hj
  refine ⟨?_, fun x hx hs => ?_, fun x hx hs => ?_⟩
  · rwa [hcell i hi, hcell j hj]
  · rw [hcell i hi] at hx
    obtain ⟨l, hl, hread⟩ := hsource j hj x hs
    exact (hsafe l hl).not_stored (hfit l hl) hi hj hij hx hread
  · rw [hcell j hj] at hx
    obtain ⟨l, hl, hread⟩ := hsource i hi x hs
    exact (hsafe l hl).not_stored (hfit l hl) hj hi hij.symm hx hread

end Independence

section Flat

variable (S : SimdTarget T) (threads : ParallelFor) (c : Codec α T.size)
  {e : Expr (Leaf T) α} {dst : TensorImpl T} {shape : List Nat}

/-- Chunks of the contiguous path are independent of each other. -/
theorem flatRegion_implements (hlanes : e.LaneWise)
    (hfit : ∀ l ∈ e.leaves, BroadcastsTo l.toRef.sizes shape)
    (hdst : dst.sizes = shape.map Nat.cast) (hint : (shape.prod : Int) ≤ int64Max)
    (hcached : dst.Cached S) (hcontig : dst.contiguous = true)
    (hflat : leavesFlat dst.numel e = true) (hleaves : ∀ l ∈ e.leaves, l.toRef.Described)
    (hsafe : ∀ l ∈ e.leaves, AliasSafe dst.strided l) :
    (flatRegion S threads c e dst.data dst.numel dst.alignStart dst.alignEnd).Implements c
      ((flatSteps S threads dst.numel dst.alignStart dst.alignEnd).map
        (FlatStep.op c e dst.data)) := by
  have hrun := flatSteps_flatRun c S threads hlanes hfit hdst hint hcached hcontig hflat hleaves
  have hsizes := dst.strided_sizes hdst
  have hdesc := hcached.strided_described (TensorImpl.sizes_nonneg hdst)
    (by rw [hsizes]; exact hint)
  have hnumel : dst.numel = shape.prod := hsizes ▸ hdesc.numel_eq
  have hall : ((indices dst.strided.sizes).map (flatten dst.strided.sizes)).Pairwise
      (Independent T.size (flatSource e) (flatCell T dst.data)) := by
    apply independent_elements (flatten dst.strided.sizes)
      (fun idx hidx => (hdesc.address_eq hcontig hidx).symm) ?_ (hsizes ▸ hfit) hsafe
      (address_apart_of_contiguous hdesc hcontig)
    rintro idx hidx x ⟨l, hl, hx⟩
    refine ⟨l, hl, ?_⟩
    obtain ⟨hleaf, hcount⟩ := leavesFlat_spec hflat l hl
    rw [Leaf.leafOffset_of_contiguous hleaf] at hx
    rwa [Leaf.readAddress_flat (hleaves l hl) hleaf (hsizes ▸ hfit l hl)
      (hsizes ▸ hnumel ▸ hcount) hidx]
  rw [map_flatten_indices, ← hdesc.numel_eq] at hall
  have honce := (hrun.once.pairwise_iff fun {_ _} h => h.symm).2 hall
  rw [flatRegion]
  simp only [flatSteps] at honce ⊢
  split <;> rename_i hvec
  · rw [if_pos hvec] at honce
    split <;> rename_i hlt
    · exact Region.serial_implements _
    · rw [if_neg hlt] at honce
      split <;> rename_i hpar
      · rw [if_pos hpar, List.flatMap_append] at honce
        have hpieces := (List.pairwise_append.1 honce).2.1
        rw [List.flatMap_assoc] at hpieces
        rw [List.map_append, List.map_flatMap]
        exact Region.implements (fun p _ => Performs.inOrder_map fun s _ =>
          FlatStep.performs c hlanes hflat dst.data s) hpieces
      · exact Region.serial_implements _
  · exact Region.serial_implements _

end Flat

section Planned

variable (S : SimdTarget T) (threads : ParallelFor) (c : Codec α T.size)
  {e : Expr (Leaf T) α} {dst : StridedRef T}

/-- A tuple's operands are the leaves at the multi-index of the tuple. -/
theorem tupleSource_tupleOf (hfit : ∀ l ∈ e.leaves, BroadcastsTo l.toRef.sizes dst.sizes)
    {idx : List Nat} (hidx : InBounds idx dst.sizes) {x : Int}
    (hx : x ∈ tupleSource ((Leaf.ref dst :: e.leaves).map Leaf.data) e
      (tupleOf e dst dst.sizes idx)) :
    ∃ l ∈ e.leaves, InCell T.size (l.readAddress idx) x := by
  obtain ⟨op, hpos, hlt, hx⟩ := hx
  obtain ⟨j, rfl⟩ := Nat.exists_eq_add_of_le' hpos
  have hj : j < e.leaves.length := by omega
  have hl : (Leaf.ref dst :: e.leaves)[j + 1]? = some e.leaves[j] := by simp [hj]
  have hmem : e.leaves[j] ∈ e.leaves := List.getElem_mem hj
  rw [tupleOf_operand hidx hl (hfit _ hmem)] at hx
  exact ⟨_, hmem, hx⟩

/-- Row chunks of the planner are independent of each other. -/
theorem plannedRegion_implements (hlanes : e.LaneWise) (hlen : e.leaves.length < kMaxOperands)
    (hfit : ∀ l ∈ e.leaves, BroadcastsTo l.toRef.sizes dst.sizes)
    (hint : (dst.sizes.prod : Int) ≤ int64Max)
    (hstride : dst.sizes.prod ≠ 0 → ∀ a ∈ dst.dims, 1 < a.size → a.stride ≠ 0)
    (hsafe : ∀ l ∈ e.leaves, AliasSafe dst l)
    (hap : (indices dst.sizes).Pairwise fun i j =>
      Apart T.size (dst.address i) (dst.address j)) :
    ∃ ops r, runPlanned S threads c e dst dst.sizes = .ok ops ∧
      plannedRegion S threads c e dst dst.sizes = .ok r ∧ r.Implements c ops := by
  by_cases hpos : dst.sizes.prod = 0
  · have hnumel := wrapI64_shapeNumel hint
    rw [hpos] at hnumel
    refine ⟨[], Region.serial [], ?_, ?_, Region.serial_implements []⟩
    · rw [runPlanned, makeIterationPlan_eq hlen rfl hnumel (Or.inl rfl)]
      rfl
    · rw [plannedRegion, makeIterationPlan_eq hlen rfl hnumel (Or.inl rfl)]
      rfl
  obtain ⟨plan, hplan, hof⟩ := exists_planOf hlen rfl hpos hint (hstride hpos)
  have hnumel : plan.numel ≠ 0 := by
    rw [hof.numel_eq]
    exact_mod_cast hpos
  have hall : ((indices dst.sizes).map (tupleOf e dst dst.sizes)).Pairwise
      (Independent T.size (tupleSource plan.bases e) (tupleCell T dst.data)) := by
    rw [hof.bases_eq]
    exact independent_elements (tupleOf e dst dst.sizes)
      (fun idx hidx => tupleCell_tupleOf rfl hidx)
      (fun idx hidx x hx => tupleSource_tupleOf hfit hidx hx) hfit hsafe hap
  simp only [runPlanned, plannedRegion, hplan, bind, Except.bind, if_neg hnumel, pure,
    Except.pure]
  split
  · exact ⟨_, _, rfl, rfl, Region.serial_implements _⟩
  · have hrows : plan.rows.toNat = (sizes plan.dims.dropLast).prod := by
      rw [hof.rows_eq hpos, Int.toNat_natCast]
    have htuples : (indices dst.sizes).map (tupleOf e dst dst.sizes) =
        enumerate (planDims dst.sizes (operandStrides e dst dst.sizes)) := by
      rw [enumerate, sizes_planDims]
      rfl
    have honce : ((threads.pieces plan.rows.toNat (max 1 (kGrainSize / plan.rowSize))).flatMap
        fun p => (List.range' p.1 (p.2 - p.1)).flatMap (rowTuples plan)).Perm
          ((indices dst.sizes).map (tupleOf e dst dst.sizes)) := by
      rw [← List.flatMap_assoc, htuples]
      refine ((threads.isSplit _ _).flatMap_range'_perm.flatMap_right _).trans ?_
      rw [hrows, flatMap_rowTuples hof.dims_ne]
      exact hof.tuples
    have hpieces := (honce.pairwise_iff fun {_ _} h => h.symm).2 hall
    refine ⟨_, _, rfl, rfl, ?_⟩
    exact Region.implements (fun p _ => loop2d_performs S c hlanes hof.nOperands_eq
      hof.tierSound (hof.size_pos hpos) dst.data p.1 p.2) hpieces

end Planned

section Assign

variable {S : SimdTarget T} {threads : ParallelFor} {c : Codec α T.size}
  {e : Expr (Leaf T) α} {dst : TensorImpl T} {ops : List (StoreOp StoreKind α)}

/-- A lowered run that does not raise is implemented by its region. -/
theorem runLoweredRegion_implements (hlanes : e.LaneWise) (hdst : dst.Sound S)
    (hinj : dst.numel ≠ 0 → Vectorization.isNonOverlapping dst.strided = true)
    (hleaves : ∀ l ∈ e.leaves, l.toRef.Backed)
    (hsafe : ∀ l ∈ e.leaves, AliasSafe dst.strided l)
    (h : runLowered S threads c e dst = .ok ops) :
    ∃ r, runLoweredRegion S threads c e dst = .ok r ∧ r.Implements c ops := by
  obtain ⟨shape, hshape, hcheck, -⟩ := runLowered_cases h
  obtain rfl : dst.strided.sizes = shape := dst.strided_sizes hcheck
  have hfit := expressionResultShape_fits hshape
  rw [runLowered] at h
  rw [runLoweredRegion]
  obtain ⟨shape, hshape', h⟩ := exceptBind_ok.1 h
  rw [hshape, Except.ok.injEq] at hshape'
  subst hshape'
  obtain ⟨_, hchecked, h⟩ := exceptBind_ok.1 h
  obtain ⟨_, hcpu, h⟩ := exceptBind_ok.1 h
  simp only [hshape, hchecked, hcpu, bind, Except.bind, pure, Except.pure]
  split at h <;> rename_i hpath
  · rw [if_pos hpath]
    obtain ⟨ref, href, h⟩ := exceptBind_ok.1 h
    obtain rfl := toStridedRef_ok href
    obtain ⟨ops', r, hops, hr, himpl⟩ := plannedRegion_implements S threads c hlanes
      (leaves_lt_of_runPlanned h) hfit (hdst.prod_le hinj) (hdst.stride_ne_zero hinj) hsafe
      (hdst.address_apart hinj)
    rw [h, Except.ok.injEq] at hops
    rw [href]
    exact ⟨r, hr, hops ▸ himpl⟩
  · rw [if_neg hpath]
    rw [not_or, not_not, not_not] at hpath
    cases h
    exact ⟨_, rfl, flatRegion_implements S threads c hlanes hfit hcheck (hdst.prod_le hinj)
      hdst.cached hpath.2 hpath.1 (fun l hl => (hleaves l hl).toDescribed) hsafe⟩

variable {b : Build T} {src : Source T α} {s s' : AssignState T}

/-- A multi-threaded assignment does not depend on the scheduler: no two threads race, every
schedule can be carried to its end, and there the memory is the snapshot that the serial
assignment leaves.  SIMD operations are lane-wise. -/
theorem assign_scheduled (hlanes : src.tree.LaneWise) (hdst : s.dst.Sound b.simd)
    (hleaves : ∀ l ∈ src.tree.leaves, l.toRef.Backed)
    (h : assign b c src false s = .ok () s') :
    ∃ r, runLoweredRegion b.simd b.threads c src.tree s.dst = .ok r ∧
      (∃ reads writes, (r.pool c s.memory).RaceFree reads writes) ∧
      (∀ steps, ∃ rest, ((r.pool c s.memory).schedule (steps ++ rest)).Finished) ∧
      ∀ steps, ((r.pool c s.memory).schedule steps).Finished →
        ((r.pool c s.memory).schedule steps).memory = s'.memory ∧
          HoldsSnapshot c src.tree s.dst.strided s.memory
            ((r.pool c s.memory).schedule steps).memory := by
  obtain ⟨ops, hflag, hplace, hoverlap, hops, rfl⟩ := assign_cases h
  have hsafe : ∀ l ∈ src.tree.leaves, AliasSafe s.dst.strided l := fun l hl => by
    obtain ⟨hdev, hindex⟩ := validatePlacement_ok hplace l hl
    exact aliasSafe_of_checked hdst.backed (hleaves l hl) hdev hindex
      (checkAssignmentOverlap_ok hoverlap l hl)
  have hinj := fun hne => hdst.isNonOverlapping hflag hne
  obtain ⟨r, hr, himpl⟩ := runLoweredRegion_implements hlanes hdst hinj hleaves hsafe hops
  have hsnap := runLowered_holdsSnapshot hlanes hdst hinj hleaves hsafe hops s.memory
  refine ⟨r, hr, himpl.raceFree s.memory, fun steps => Pool.exists_finished _ steps,
    fun steps hfin => ?_⟩
  rw [himpl.memory s.memory steps hfin]
  exact ⟨rfl, hsnap⟩

end Assign

namespace ParallelEvaluationWitness

open Sample InPlaceAssignmentWitness

/-- A packed vector long enough for the pool. -/
def long : TensorImpl float := TensorImpl.recompute fourLanes
  { isView := false
    sizesAndStrides := [⟨65536, 1⟩]
    view := ⟨4100, 65536, .cpu, 0⟩
    alignStart := 0
    alignEnd := 0
    numel := 0
    contiguous := false
    nonOverlapping := false }

/-- The vector plus a scalar, in place. -/
def bumped : Source float (Fin 4 → UInt8) :=
  .expression (.binary (.lanes fun x y k => x k + y k) (.leaf (.ref long.strided))
    (.scalar fun _ => 1))

theorem bumped_laneWise : bumped.tree.LaneWise :=
  ⟨BinaryFunctor.lanes_laneWise _, trivial, trivial⟩

theorem long_sound : long.Sound fourLanes :=
  ⟨TensorImpl.recompute_cached _ _, fun _ => by decide, ⟨by decide, fun _ _ => by decide⟩,
    fun _ => ⟨⟨by decide, by decide, fun _ => by decide⟩, fun _ => by decide⟩,
    fun _ => by decide⟩

theorem assign_scheduled_long : ∃ r s',
    runLoweredRegion fourLanes twoThreads (Codec.bytes 4) bumped.tree long = .ok r ∧
      r.pieces.length = 2 ∧
      ∀ steps, ((r.pool (Codec.bytes 4) fun _ => 1).schedule steps).Finished →
        ((r.pool (Codec.bytes 4) fun _ => 1).schedule steps).memory = s' := by
  have hbacked : ∀ l ∈ bumped.tree.leaves, l.toRef.Backed := by
    intro l hl
    obtain rfl := List.mem_singleton.1 hl
    exact long_sound.backed
  obtain ⟨s', hrun⟩ : ∃ s', assign release (Codec.bytes 4) bumped false
      ⟨fun _ => 1, long⟩ = .ok () s' := ⟨_, rfl⟩
  obtain ⟨r, hr, -, -, hfin⟩ := assign_scheduled bumped_laneWise long_sound hbacked hrun
  refine ⟨r, s'.memory, hr, ?_, fun steps h => (hfin steps h).1⟩
  cases hr
  rfl

end ParallelEvaluationWitness

end Vectorization
