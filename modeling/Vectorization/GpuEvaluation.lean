/-
Assignment to a CUDA or HIP tensor.  `run_gpu` starts one thread for each element, and the
threads of the grid run in no particular order; the launch leaves the snapshot of the tree
whenever the checks of `assign` pass.  Allocations and launches succeed.
-/
import Vectorization.FlatLowering
import Vectorization.ParallelEvaluation

namespace Vectorization

open StridedSpace MachineInteger ByteMemory SharedMemory LoopTiling AtomicRun

variable {T : ElementType} {α : Type}

/-- Threads of a block of the elementwise kernels. -/
def gpuBlockSize : Nat := 256

/-- The grid of a launch, and the kernel that thread `thread` of block `block` runs. -/
structure Launch where
  grid : Nat
  kernel : (block thread : Nat) → ByteProg Unit

/-- The threads of a launch at its start. -/
def Launch.pool (k : Launch) (m : Memory) : Pool (Fin k.grid × Fin gpuBlockSize) Int UInt8 :=
  ⟨m, fun t => k.kernel t.1 t.2⟩

def gridOverflow (caller : String) (n : Nat) : Raise :=
  .external (caller ++ " grid overflow for n=" ++ toString n)

/-- The number of blocks for `n` elements, computed in `size_t`. -/
def gpuGrid (caller : String) (n : Nat) : Except Raise Nat :=
  let blocks := wrapU64 (n + gpuBlockSize - 1) / gpuBlockSize
  if 0 < blocks ∧ blocks ≤ 0x7fffffff then .ok blocks else .error (gridOverflow caller n)

/-- The launch of a kernel over `n` elements. -/
def launchElements (caller : String) (n : Nat) (kernel : (block thread : Nat) → ByteProg Unit) :
    Except Raise Launch := do
  if n = 0 then return ⟨0, kernel⟩
  let grid ← gpuGrid caller n
  return ⟨grid, kernel⟩

/-- `if (tid < n)` with one element for each thread. -/
def elementKernel (n : Nat) (body : Nat → ByteProg Unit) (block thread : Nat) : ByteProg Unit :=
  let tid := wrapU64 (block * gpuBlockSize + thread)
  if tid < n then body tid else pure ()

section Launches

variable (c : Codec α T.size)

/-- `gpu_eval_kernel`: `out[tid] = evaluate(expr, tid)`. -/
def gpuEvalKernel (e : Expr (Leaf T) α) (out n : Nat) : (block thread : Nat) → ByteProg Unit :=
  elementKernel n fun tid => (⟨.scalar, tid, 1⟩ : FlatStep).prog c e out

/-- `run_gpu`. -/
def runGpu (e : Expr (Leaf T) α) (data n : Nat) : Except Raise Launch :=
  launchElements "run_gpu" n (gpuEvalKernel c e data n)

/-- What an evaluation leaves to be done: a launch, or stores by the host. -/
inductive Work (α : Type)
  | launch (k : Launch)
  | stores (ops : List (StoreOp StoreKind α))

/-- `run_lowered` in a translation unit that is compiled for CUDA or HIP. -/
def runLoweredDevice (S : SimdTarget T) (threads : ParallelFor) (e : Expr (Leaf T) α)
    (rhs : TensorImpl T) : Except Raise (Work α) := do
  if rhs.device = .cuda ∨ rhs.device = .hip then
    let shape ← expressionResultShape e
    checkResultShape shape rhs
    let flat := leavesFlat rhs.numel e
    checkContiguous rhs "expressions_evaluator::run (CUDA/HIP)"
    if ¬ flat then
      let lowered ← rebaseLeaves shape e
      return .launch (← runGpu c lowered rhs.data rhs.numel)
    else return .launch (← runGpu c e rhs.data rhs.numel)
  else return .stores (← runLowered S threads c e rhs)

/-- `assign`, up to the point where elements are stored. -/
def assignDevice (b : Build T) (src : Source T α) (uncheckedAlias : Bool)
    (dst : TensorImpl T) : Except Raise (Work α) := do
  validateDestination dst
  validatePlacement dst src.tree
  let e ← src.lower
  let ref ← dst.toStridedRef
  checkAssignmentOverlap b.ndebug uncheckedAlias ref e
  runLoweredDevice c b.simd b.threads e dst

end Launches

section Grid

/-- A grid is refused exactly when it has more blocks than fit in 31 bits. -/
theorem gpuGrid_ok_iff {caller : String} {n grid : Nat} (hpos : 0 < n) (hn : n < 2 ^ 64) :
    gpuGrid caller n = .ok grid ↔
      n ≤ 0x7fffffff * gpuBlockSize ∧ grid = (n + (gpuBlockSize - 1)) / gpuBlockSize := by
  have hblocks : wrapU64 (n + gpuBlockSize - 1) / gpuBlockSize =
      if n + 255 < 2 ^ 64 then (n + 255) / 256 else 0 := by
    unfold wrapU64 gpuBlockSize
    split <;> omega
  rw [gpuGrid, hblocks]
  unfold gpuBlockSize
  split
  · split <;> rename_i hfit
    · rw [Except.ok.injEq]
      constructor
      · rintro rfl
        omega
      · rintro ⟨-, rfl⟩
        rfl
    · constructor
      · intro h
        cases h
      · omega
  · rw [if_neg (by omega)]
    constructor
    · intro h
      cases h
    · omega

/-- The elements of a launch and the threads past the last one. -/
theorem range_flatMap_guard {β : Type} (f : Nat → β) {n total : Nat} (h : n ≤ total) :
    ((List.range total).flatMap fun i => if i < n then [f i] else []) =
      (List.range n).map f := by
  obtain ⟨k, rfl⟩ := Nat.exists_eq_add_of_le h
  rw [List.range_add, List.flatMap_append, List.flatMap_map]
  have hlow : ((List.range n).flatMap fun i => if i < n then [f i] else []) =
      (List.range n).flatMap fun i => [f i] := by
    apply List.flatMap_congr
    intro i hi
    rw [if_pos (List.mem_range.1 hi)]
  have hhigh : ((List.range k).flatMap fun i => if n + i < n then [f (n + i)] else []) = [] := by
    rw [List.flatMap_eq_nil_iff]
    intro i _
    rw [if_neg (by omega)]
  rw [hlow, hhigh, List.append_nil, ← List.map_eq_flatMap]

variable {c : Codec α T.size} {source : Nat → Set Int} {cell : Nat → Int} {n grid : Nat}
  {body : Nat → ByteProg Unit} {op : Nat → StoreOp StoreKind α}

/-- The threads of the grid in block order. -/
def gridOrder (grid : Nat) : List (Fin grid × Fin gpuBlockSize) :=
  (List.finRange grid).flatMap fun block => (List.finRange gpuBlockSize).map fun t => (block, t)

theorem gridOrder_nodup (grid : Nat) : (gridOrder grid).Nodup :=
  (List.nodup_finRange grid).product (List.nodup_finRange gpuBlockSize)

theorem mem_gridOrder (t : Fin grid × Fin gpuBlockSize) : t ∈ gridOrder grid :=
  List.mem_product.2 ⟨List.mem_finRange _, List.mem_finRange _⟩

theorem gridOrder_flatMap {β : Type} (f : Nat → List β) (grid : Nat) :
    (gridOrder grid).flatMap (fun t => f (t.1 * gpuBlockSize + t.2)) =
      (List.range (grid * gpuBlockSize)).flatMap f := by
  have hlanes : List.range gpuBlockSize = (List.finRange gpuBlockSize).map Fin.val :=
    List.map_coe_finRange_eq_range.symm
  have hblocks : List.range grid = (List.finRange grid).map Fin.val :=
    List.map_coe_finRange_eq_range.symm
  rw [gridOrder, range_mul, List.flatMap_assoc, List.flatMap_assoc, hblocks, List.flatMap_map]
  apply List.flatMap_congr
  intro block _
  rw [hlanes, List.flatMap_map, List.flatMap_map, List.flatMap_map]

/-- The element of a thread, if it has one. -/
def threadElements (n : Nat) {grid : Nat} (t : Fin grid × Fin gpuBlockSize) : List Nat :=
  if t.1 * gpuBlockSize + t.2 < n then [t.1 * gpuBlockSize + t.2] else []

/-- The threads of a grid that covers the elements have each element once. -/
theorem gridOrder_elements (hcover : n ≤ grid * gpuBlockSize) :
    (gridOrder grid).flatMap (threadElements n) = List.range n := by
  have hguard : (threadElements n : Fin grid × Fin gpuBlockSize → List Nat) =
      fun t => (fun i => if i < n then [i] else []) (t.1 * gpuBlockSize + t.2) := rfl
  rw [hguard, gridOrder_flatMap (fun i => if i < n then [i] else []),
    range_flatMap_guard (fun i => i) hcover, List.map_id']

/-- A thread of the grid performs the operation of its element. -/
theorem elementKernel_performs (hfit : grid ≤ 0x7fffffff)
    (hperforms : ∀ i < n, Performs c source cell (body i) [op i] [i])
    (t : Fin grid × Fin gpuBlockSize) :
    Performs c source cell (elementKernel n body t.1 t.2) ((threadElements n t).map op)
      (threadElements n t) := by
  have hblock := t.1.isLt
  have hthread := t.2.isLt
  have htid : wrapU64 (t.1 * gpuBlockSize + t.2) = t.1 * gpuBlockSize + t.2 := by
    apply wrapU64_eq_self
    unfold gpuBlockSize at *
    omega
  rw [elementKernel, htid, threadElements]
  split <;> rename_i hlt
  · exact hperforms _ hlt
  · exact Performs.nil

end Grid

section Lowered

/-- A backed layout can be read by flat index. -/
theorem StridedRef.Backed.laid {s : StridedRef T} (h : s.Backed) : s.Laid := by
  have hstored : s.sizes.prod ≠ 0 → s.Stored := fun hne => h.stored (h.numel_eq ▸ hne)
  refine ⟨fun hcontig hne => h.packed hcontig (h.numel_eq ▸ hne),
    fun hne => (hstored hne).stride_nonneg, fun hne => ?_⟩
  have hfits := (hstored hne).fits (h.numel_eq ▸ hne)
  have hle := Nat.le_mul_of_pos_right (extent (natAxes s.dims) + 1) T.size_pos
  omega

theorem Leaf.laid_of_backed {l : Leaf T} (h : l.toRef.Backed) : l.Laid := by
  cases l with
  | ref s => exact StridedRef.Backed.laid h
  | view v =>
      change v.size < 2 ^ 64
      by_cases hzero : v.size = 0
      · omega
      · have hfits := (h.stored hzero).fits hzero
        have hle := Nat.le_mul_of_pos_right
          (extent (natAxes (Leaf.view v).toRef.dims) + 1) T.size_pos
        have hextent : extent (natAxes (Leaf.view v).toRef.dims) = v.size - 1 := by
          simp [toRef]
        omega

theorem exists_of_forall₂ {β γ : Type} {R : β → γ → Prop} {xs : List β} {ys : List γ}
    (h : List.Forall₂ R xs ys) : ∀ y ∈ ys, ∃ x ∈ xs, R x y := by
  induction h with
  | nil => simp
  | cons hxy _ ih =>
      intro y hy
      rcases List.mem_cons.1 hy with rfl | hy
      · exact ⟨_, List.mem_cons_self, hxy⟩
      · obtain ⟨x, hx, hR⟩ := ih y hy
        exact ⟨x, List.mem_cons_of_mem _ hx, hR⟩

/-- A tree that rebases has no data view that would have to be broadcast. -/
theorem rebaseLeaves_views {out : List Nat} {e lowered : Expr (Leaf T) α}
    (hout : out.prod < 2 ^ 64) (h : rebaseLeaves out e = .ok lowered) {v : DataView T}
    (hv : Leaf.view v ∈ e.leaves) : v.size = out.prod := by
  have hflip : List.Forall₂ (flip fun l l' => rebaseLeaf out l = .ok l') lowered.leaves
      e.leaves := List.Forall₂.flip (rebaseLeaves_ok h)
  obtain ⟨l', -, hl'⟩ := exists_of_forall₂ hflip _ hv
  rw [flip, rebaseLeaf] at hl'
  split at hl' <;> rename_i hsize
  · rw [hsize, shapeNumel_eq, wrapU64_eq_self hout]
  · cases hl'

/-- A tree over leaves in the result's index space, which reads what another tree has at
the multi-index of each flat index. -/
structure LoweredOf (c : Codec α T.size) (e : Expr (Leaf T) α) (shape : List Nat)
    (lowered : Expr (Leaf T) α) : Prop where
  value : ∀ m, ∀ i < shape.prod,
    lowered.evaluate (Leaf.read c m i) = logicalValue c m e (unflatten shape i)
  source : ∀ i < shape.prod, ∀ x ∈ flatSource lowered i,
    ∃ l ∈ e.leaves, InCell T.size (l.readAddress (unflatten shape i)) x

variable {c : Codec α T.size} {e : Expr (Leaf T) α} {shape : List Nat}

theorem loweredOf_flat (hflat : leavesFlat shape.prod e = true)
    (hfit : ∀ l ∈ e.leaves, BroadcastsTo l.toRef.sizes shape)
    (hleaves : ∀ l ∈ e.leaves, l.toRef.Described) : LoweredOf c e shape e := by
  have hoffset : ∀ i, ∀ l ∈ e.leaves, l.leafOffset i = i := fun i l hl =>
    Leaf.leafOffset_of_contiguous (leavesFlat_spec hflat l hl).1 i
  refine ⟨fun m i hi => ?_, fun i hi x hx => ?_⟩
  · rw [← flatValue_eq c hflat hfit hleaves hi m]
    apply Expr.evaluate_congr
    intro l hl
    rw [Leaf.read, hoffset i l hl]
  · obtain ⟨l, hl, hx⟩ := hx
    rw [hoffset i l hl, ← readAddress_unflatten hflat hfit hleaves hi l hl] at hx
    exact ⟨l, hl, hx⟩

theorem loweredOf_rebased {lowered : Expr (Leaf T) α} (hprod : shape.prod < 2 ^ 64)
    (hfit : ∀ l ∈ e.leaves, BroadcastsTo l.toRef.sizes shape)
    (hlaid : ∀ l ∈ e.leaves, l.Laid) (h : rebaseLeaves shape e = .ok lowered) :
    LoweredOf c e shape lowered := by
  have hviews : ∀ v, Leaf.view v ∈ e.leaves → v.size = shape.prod :=
    fun v hv => rebaseLeaves_views hprod h hv
  obtain ⟨lowered', hlowered', hvalue⟩ := rebaseLeaves_evaluate c hlaid hfit hviews
  rw [h, Except.ok.injEq] at hlowered'
  subst hlowered'
  have hreads := exists_of_forall₂ (rebaseLeaves_readsBroadcast hlaid hfit hviews h)
  refine ⟨hvalue, fun i hi x hx => ?_⟩
  obtain ⟨l', hl', hx⟩ := hx
  obtain ⟨l, hl, hread⟩ := hreads l' hl'
  exact ⟨l, hl, hread i hi ▸ hx⟩

end Lowered

section Assign

variable {c : Codec α T.size} {e lowered : Expr (Leaf T) α} {dst : TensorImpl T}
  {k : Launch}

/-- Threads that share the elements out among them and store the values of the tree do not
race, and leave its snapshot in every schedule. -/
theorem threads_scheduled {κ : Type} [DecidableEq κ] {progs : κ → ByteProg Unit}
    {elements : κ → List Nat} {order : List κ} {op : Nat → StoreOp StoreKind α}
    {source : Nat → Set Int} {value : Memory → Nat → α} (hnodup : order.Nodup)
    (hall : ∀ t, t ∈ order) (hcover : order.flatMap elements = List.range dst.numel)
    (hdesc : dst.strided.Described) (hcontig : dst.contiguous = true)
    (hfit : ∀ l ∈ e.leaves, BroadcastsTo l.toRef.sizes dst.strided.sizes)
    (hsafe : ∀ l ∈ e.leaves, AliasSafe dst.strided l)
    (hprogs : ∀ t, Performs c source (flatCell T dst.data) (progs t)
      ((elements t).map op) (elements t))
    (hwrites : ∀ i m, (op i).writes T.size m = [(flatCell T dst.data i, value m i)])
    (hvalue : ∀ i < dst.strided.sizes.prod, ∀ m,
      value m i = logicalValue c m e (unflatten dst.strided.sizes i))
    (hsource : ∀ i < dst.strided.sizes.prod, ∀ x ∈ source i,
      ∃ l ∈ e.leaves, InCell T.size (l.readAddress (unflatten dst.strided.sizes i)) x)
    (m : Memory) :
    (∃ reads writes, (⟨m, progs⟩ : Pool κ Int UInt8).RaceFree reads writes) ∧
      ∀ steps, ((⟨m, progs⟩ : Pool κ Int UInt8).schedule steps).Finished →
        HoldsSnapshot c e dst.strided m
          ((⟨m, progs⟩ : Pool κ Int UInt8).schedule steps).memory := by
  have hnumel : dst.numel = dst.strided.sizes.prod := hdesc.numel_eq
  have hap := address_apart_of_contiguous hdesc hcontig
  have hcell : ∀ idx, InBounds idx dst.strided.sizes →
      flatCell T dst.data (flatten dst.strided.sizes idx) = dst.strided.address idx :=
    fun idx hidx => (hdesc.address_eq hcontig hidx).symm
  have helements : (order.flatMap elements).Pairwise
      (Independent T.size source (flatCell T dst.data)) := by
    have hpairs : ((indices dst.strided.sizes).map (flatten dst.strided.sizes)).Pairwise
        (Independent T.size source (flatCell T dst.data)) := by
      apply independent_elements (flatten dst.strided.sizes) hcell ?_ hfit hsafe hap
      intro idx hidx x hx
      have hread := hsource _ (flatten_lt hidx) x hx
      rwa [unflatten_flatten hidx] at hread
    rwa [map_flatten_indices, ← hnumel, ← hcover] at hpairs
  have hind := independent_threads hall helements
  refine ⟨⟨_, _, raceFree_of_independent hprogs hind m⟩, fun steps hfin => ?_⟩
  rw [schedule_run hprogs hind hnodup hall hfin, ← List.map_flatMap, hcover]
  have hreal : Realizes T.size (flatCell T dst.data) value ((List.range dst.numel).map op)
      ((List.range dst.numel).map fun i => [i]) := Realizes.map fun i _ => hwrites i
  refine holdsSnapshot_of_realizes (flatten dst.strided.sizes) hreal ?_ hcell ?_ hfit hsafe
    hap m
  · rw [map_flatten_indices, ← hnumel, flatten_singletons, List.map_id']
  · intro idx hidx m
    rw [hvalue _ (flatten_lt hidx), unflatten_flatten hidx]

/-- A launch whose threads store the values of the tree leaves its snapshot, in every schedule
of the threads. -/
theorem launchElements_scheduled {caller : String} {body : Nat → ByteProg Unit}
    {op : Nat → StoreOp StoreKind α} {source : Nat → Set Int} {value : Memory → Nat → α}
    (hdesc : dst.strided.Described) (hcontig : dst.contiguous = true)
    (hlt : dst.numel < 2 ^ 64)
    (hfit : ∀ l ∈ e.leaves, BroadcastsTo l.toRef.sizes dst.strided.sizes)
    (hsafe : ∀ l ∈ e.leaves, AliasSafe dst.strided l)
    (hbody : ∀ i, Performs c source (flatCell T dst.data) (body i) [op i] [i])
    (hwrites : ∀ i m, (op i).writes T.size m = [(flatCell T dst.data i, value m i)])
    (hvalue : ∀ i < dst.strided.sizes.prod, ∀ m,
      value m i = logicalValue c m e (unflatten dst.strided.sizes i))
    (hsource : ∀ i < dst.strided.sizes.prod, ∀ x ∈ source i,
      ∃ l ∈ e.leaves, InCell T.size (l.readAddress (unflatten dst.strided.sizes i)) x)
    (h : launchElements caller dst.numel (elementKernel dst.numel body) = .ok k) (m : Memory) :
    k.grid = (dst.numel + (gpuBlockSize - 1)) / gpuBlockSize ∧
      (∃ reads writes, (k.pool m).RaceFree reads writes) ∧
      ∀ steps, ((k.pool m).schedule steps).Finished →
        HoldsSnapshot c e dst.strided m ((k.pool m).schedule steps).memory := by
  obtain ⟨hgrid, hfits, hkernel⟩ : k.grid = (dst.numel + (gpuBlockSize - 1)) / gpuBlockSize ∧
      k.grid ≤ 0x7fffffff ∧ k.kernel = elementKernel dst.numel body := by
    rw [launchElements] at h
    split at h <;> rename_i hzero
    · cases h
      rw [hzero]
      exact ⟨rfl, Nat.zero_le _, rfl⟩
    · obtain ⟨grid, hgrid, h⟩ := exceptBind_ok.1 h
      cases h
      obtain ⟨hle, rfl⟩ := (gpuGrid_ok_iff (Nat.pos_of_ne_zero hzero) hlt).1 hgrid
      refine ⟨rfl, ?_, rfl⟩
      unfold gpuBlockSize at *
      dsimp only
      omega
  have henough : dst.numel ≤ k.grid * gpuBlockSize := by
    rw [hgrid]
    unfold gpuBlockSize
    omega
  have hthreads : ∀ t : Fin k.grid × Fin gpuBlockSize,
      Performs c source (flatCell T dst.data) (k.kernel t.1 t.2)
        ((threadElements dst.numel t).map op) (threadElements dst.numel t) := by
    rw [hkernel]
    exact elementKernel_performs hfits fun i _ => hbody i
  exact ⟨hgrid, threads_scheduled (gridOrder_nodup k.grid) mem_gridOrder
    (gridOrder_elements henough) hdesc hcontig hfit hsafe hthreads hwrites hvalue hsource m⟩

/-- A launched kernel leaves the snapshot of the tree that was lowered, in every schedule of
its threads. -/
theorem runGpu_scheduled {shape : List Nat} (hlowered : LoweredOf c e shape lowered)
    (hsizes : dst.strided.sizes = shape) (hdesc : dst.strided.Described)
    (hcontig : dst.contiguous = true) (hint : (shape.prod : Int) ≤ int64Max)
    (hfit : ∀ l ∈ e.leaves, BroadcastsTo l.toRef.sizes shape)
    (hsafe : ∀ l ∈ e.leaves, AliasSafe dst.strided l)
    (h : runGpu c lowered dst.data dst.numel = .ok k) (m : Memory) :
    k.grid = (dst.numel + (gpuBlockSize - 1)) / gpuBlockSize ∧
      (∃ reads writes, (k.pool m).RaceFree reads writes) ∧
      ∀ steps, ((k.pool m).schedule steps).Finished →
        HoldsSnapshot c e dst.strided m ((k.pool m).schedule steps).memory := by
  subst hsizes
  have hlt : dst.numel < 2 ^ 64 := by
    have hnumel : dst.numel = dst.strided.sizes.prod := hdesc.numel_eq
    unfold int64Max at hint
    omega
  have hwrites : ∀ i m, ((⟨.scalar, i, 1⟩ : FlatStep).op c lowered dst.data).writes T.size m =
      [(flatCell T dst.data i, lowered.evaluate (Leaf.read c m i))] := by
    intro i m
    simp [StoreOp.writes, FlatStep.op, flatCell]
  exact launchElements_scheduled hdesc hcontig hlt hfit hsafe
    (fun i => FlatStep.performs_scalar c lowered dst.data rfl) hwrites
    (fun i hi m => hlowered.value m i hi) hlowered.source h m

/-- What a run on a device has checked, and the tree its kernel evaluates. -/
theorem runLoweredDevice_cases {S : SimdTarget T} {threads : ParallelFor}
    (h : runLoweredDevice c S threads e dst = .ok (.launch k)) :
    ∃ shape lowered, expressionResultShape e = .ok shape ∧
      dst.sizes = shape.map Nat.cast ∧ dst.contiguous = true ∧
      runGpu c lowered dst.data dst.numel = .ok k ∧
      ((leavesFlat dst.numel e = true ∧ lowered = e) ∨ rebaseLeaves shape e = .ok lowered) := by
  rw [runLoweredDevice] at h
  split at h
  · obtain ⟨shape, hshape, h⟩ := exceptBind_ok.1 h
    obtain ⟨_, hcheck, h⟩ := exceptBind_ok.1 h
    obtain ⟨_, hcontig, h⟩ := exceptBind_ok.1 h
    have hsizes : dst.sizes = shape.map Nat.cast := by
      rw [checkResultShape] at hcheck
      split at hcheck <;> rename_i heq
      · exact heq.symm
      · cases hcheck
    have hpacked : dst.contiguous = true := by
      rw [checkContiguous] at hcontig
      split at hcontig
      · assumption
      · cases hcontig
    split at h <;> rename_i hflat
    · obtain ⟨lowered, hlowered, h⟩ := exceptBind_ok.1 h
      obtain ⟨k', hk, h⟩ := exceptBind_ok.1 h
      cases h
      exact ⟨shape, lowered, hshape, hsizes, hpacked, hk, Or.inr hlowered⟩
    · obtain ⟨k', hk, h⟩ := exceptBind_ok.1 h
      cases h
      rw [not_not] at hflat
      exact ⟨shape, e, hshape, hsizes, hpacked, hk, Or.inl ⟨hflat, rfl⟩⟩
  · obtain ⟨ops, -, h⟩ := exceptBind_ok.1 h
    cases h

variable {b : Build T} {src : Source T α}

theorem assignDevice_cases {uncheckedAlias : Bool} {work : Work α}
    (h : assignDevice c b src uncheckedAlias dst = .ok work) :
    dst.nonOverlapping = true ∧ validatePlacement dst src.tree = .ok () ∧
      checkAssignmentOverlap b.ndebug uncheckedAlias dst.strided src.tree = .ok () ∧
      runLoweredDevice c b.simd b.threads src.tree dst = .ok work := by
  obtain ⟨_, hvalid, h⟩ := exceptBind_ok.1 h
  obtain ⟨_, hplace, h⟩ := exceptBind_ok.1 h
  obtain ⟨e, hlower, h⟩ := exceptBind_ok.1 h
  obtain rfl := Source.lower_ok hlower
  obtain ⟨ref, href, h⟩ := exceptBind_ok.1 h
  obtain rfl := toStridedRef_ok href
  obtain ⟨_, hoverlap, h⟩ := exceptBind_ok.1 h
  refine ⟨?_, hplace, hoverlap, h⟩
  rw [validateDestination] at hvalid
  split at hvalid
  · assumption
  · cases hvalid

/-- Assignment on a device is alias safe and does not depend on the scheduler: when `assign`
launches, the grid covers the elements, no two of its threads race, every schedule can be
carried to its end, and there the memory of the device is the snapshot of the tree. -/
theorem assignDevice_scheduled (hdst : dst.Sound b.simd)
    (hleaves : ∀ l ∈ src.tree.leaves, l.toRef.Backed)
    (h : assignDevice c b src false dst = .ok (.launch k)) (m : Memory) :
    k.grid = (dst.numel + (gpuBlockSize - 1)) / gpuBlockSize ∧
      (∃ reads writes, (k.pool m).RaceFree reads writes) ∧
      (∀ steps, ∃ rest, ((k.pool m).schedule (steps ++ rest)).Finished) ∧
      ∀ steps, ((k.pool m).schedule steps).Finished →
        HoldsSnapshot c src.tree dst.strided m ((k.pool m).schedule steps).memory := by
  obtain ⟨hflag, hplace, hoverlap, hrun⟩ := assignDevice_cases h
  obtain ⟨shape, lowered, hshape, hcheck, hcontig, hk, hpath⟩ := runLoweredDevice_cases hrun
  obtain rfl : dst.strided.sizes = shape := dst.strided_sizes hcheck
  have hfit := expressionResultShape_fits hshape
  have hdesc := hdst.backed.toDescribed
  have hsafe : ∀ l ∈ src.tree.leaves, AliasSafe dst.strided l := fun l hl => by
    obtain ⟨hdev, hindex⟩ := validatePlacement_ok hplace l hl
    exact aliasSafe_of_checked hdst.backed (hleaves l hl) hdev hindex
      (checkAssignmentOverlap_ok hoverlap l hl)
  have hint := hdst.prod_le fun hne => hdst.isNonOverlapping hflag hne
  have hlowered : LoweredOf c src.tree dst.strided.sizes lowered := by
    rcases hpath with ⟨hflat, rfl⟩ | hrebased
    · exact loweredOf_flat (hdesc.numel_eq ▸ hflat) hfit fun l hl => (hleaves l hl).toDescribed
    · have hlt : dst.strided.sizes.prod < 2 ^ 64 := by
        unfold int64Max at hint
        omega
      exact loweredOf_rebased hlt hfit (fun l hl => Leaf.laid_of_backed (hleaves l hl)) hrebased
  obtain ⟨hgrid, hfree, hsnap⟩ :=
    runGpu_scheduled hlowered rfl hdesc hcontig hint hfit hsafe hk m
  exact ⟨hgrid, hfree, fun steps => Pool.exists_finished _ steps, hsnap⟩

end Assign

namespace GpuEvaluationWitness

open Sample InPlaceAssignmentWitness

/-- A packed table on a device. -/
def deviceTable : TensorImpl float := TensorImpl.recompute fourLanes
  { isView := false
    sizesAndStrides := [⟨3, 4⟩, ⟨4, 1⟩]
    view := ⟨4096, 12, .cuda, 0⟩
    alignStart := 0
    alignEnd := 0
    numel := 0
    contiguous := false
    nonOverlapping := false }

/-- A column that is broadcast along the rows of the table. -/
def deviceColumn : StridedRef float :=
  { cpuRef 16384 [⟨3, 1⟩, ⟨1, 7⟩] with view := ⟨16384, 3, .cuda, 0⟩ }

/-- The table plus the column, to be stored in the table itself. -/
def tablePlusColumn : Source float (Fin 4 → UInt8) :=
  .expression (.binary (.lanes fun x y k => x k + y k) (.leaf (.ref deviceTable.strided))
    (.leaf (.ref deviceColumn)))

theorem deviceTable_sound : deviceTable.Sound fourLanes :=
  ⟨TensorImpl.recompute_cached _ _, fun _ => by decide, ⟨by decide, fun _ _ => by decide⟩,
    fun _ => ⟨⟨by decide, by decide, fun _ => by decide⟩, fun _ => by decide⟩,
    fun _ => by decide⟩

theorem deviceColumn_backed : deviceColumn.Backed :=
  ⟨⟨by decide, fun _ _ => by decide⟩,
    fun _ => ⟨⟨by decide, by decide, fun _ => by decide⟩, fun _ => by decide⟩,
    fun _ => by decide⟩

theorem assignDevice_scheduled_table : ∃ k,
    assignDevice (Codec.bytes 4) release tablePlusColumn false deviceTable =
        .ok (.launch k) ∧ k.grid = 1 ∧
      ∀ steps, ((k.pool fun _ => 1).schedule steps).Finished →
        load (Codec.bytes 4) ((k.pool fun _ => 1).schedule steps).memory
          (deviceTable.strided.address [2, 1]) = fun _ => 2 := by
  have hbacked : ∀ l ∈ tablePlusColumn.tree.leaves, l.toRef.Backed := by
    intro l hl
    rcases List.mem_cons.1 hl with rfl | hl
    · exact deviceTable_sound.backed
    · obtain rfl := List.mem_singleton.1 hl
      exact deviceColumn_backed
  obtain ⟨k, hrun⟩ : ∃ k, assignDevice (Codec.bytes 4) release tablePlusColumn false
      deviceTable = .ok (.launch k) := ⟨_, rfl⟩
  obtain ⟨hgrid, -, -, hsnap⟩ :=
    assignDevice_scheduled deviceTable_sound hbacked hrun fun _ => 1
  refine ⟨k, hrun, hgrid, fun steps hfin => ?_⟩
  exact ((hsnap steps hfin).load (by decide)).trans rfl

end GpuEvaluationWitness

end Vectorization
