/-
The CUDA and HIP reductions of `expressions_evaluator_gpu.h`: a strided accumulation
in every thread, a halving tree in every block and passes over the partials until one
is left.  Allocations and launches succeed.
-/
import Vectorization.ReduceOp
import Vectorization.Foundation.LoopTiling
import Vectorization.Foundation.MachineInteger

namespace Vectorization

open Combining LoopTiling MachineInteger

def gpuReduceBlockSize : Nat := 256

def gpuReduceItemsPerThread : Nat := 4

def gpuReduceMaxBlocks : Nat := 4096

def gpuReduceBlocks (n : Nat) : Nat :=
  let tile := gpuReduceBlockSize * gpuReduceItemsPerThread
  let blocks := n / tile + (if n % tile ≠ 0 then 1 else 0)
  if blocks < gpuReduceMaxBlocks then blocks else gpuReduceMaxBlocks

section Kernels

variable {ρ : Type}

/-- The loop of a thread from index `i` on; none when it does not end within the
fuel. -/
def gridStrideLoop (visit : ρ → Nat → ρ) (n step : Nat) : Nat → Nat → ρ → Option ρ
  | 0, _, _ => none
  | fuel + 1, i, value =>
      if i < n then gridStrideLoop visit n step fuel (wrapU64 (i + step)) (visit value i)
      else some value

variable (combine : ρ → ρ → ρ) (identity : ρ)

/-- The threads between two barriers: no thread reads what another one writes. -/
def treeStep (stride : Nat) (smem : Nat → ρ) : Nat → ρ := fun thread =>
  if thread < stride then combine (smem thread) (smem (thread + stride)) else smem thread

/-- `for (; stride > 0; stride >>= 1)`. -/
def treeLoop (stride : Nat) (smem : Nat → ρ) : Nat → ρ :=
  if stride = 0 then smem else treeLoop (stride / 2) (treeStep combine stride smem)
termination_by stride

/-- `gpu_reduce_block`: what thread 0 writes out. -/
def gpuReduceBlock (smem : Nat → ρ) : ρ :=
  treeLoop combine (gpuReduceBlockSize / 2) smem 0

/-- The body of both kernels: one partial for each block of the grid. -/
def gpuReduceKernel (visit : ρ → Nat → ρ) (fuel grid n : Nat) : Option (List ρ) :=
  (List.range grid).mapM fun block => do
    let smem ← (List.range gpuReduceBlockSize).mapM fun thread =>
      gridStrideLoop visit n (grid * gpuReduceBlockSize) fuel
        (block * gpuReduceBlockSize + thread) identity
    return gpuReduceBlock combine fun thread => smem.getD thread identity

/-- `gpu_reduce_buf_kernel`: the partials are combined as they are. -/
def gpuReduceBufKernel (fuel grid : Nat) (buf : List ρ) : Option (List ρ) :=
  gpuReduceKernel combine identity (fun value i => combine value (buf.getD i identity)) fuel grid
    buf.length

/-- `reduce_gpu_partials`; none when it raises or does not end within the fuel. -/
def reduceGpuPartials (fuel : Nat) : Nat → List ρ → Option ρ
  | 0, _ => none
  | passes + 1, buf =>
      if 1 < buf.length then do
        let blocks := gpuReduceBlocks buf.length
        if ¬ (0 < blocks ∧ blocks ≤ 0x7fffffff) then none
        let next ← gpuReduceBufKernel combine identity fuel blocks buf
        reduceGpuPartials fuel passes next
      else if buf.length = 1 then some (buf.getD 0 identity)
      else some identity

end Kernels

/-- `gpu_reduce_expr_kernel`. -/
def gpuReduceExprKernel {T : Type} (F : Scalar T) (op : ReduceOp) (evaluate : Nat → T)
    (fuel grid n : Nat) : Option (List (op.Accumulator T)) :=
  gpuReduceKernel (reduceCombine (op.accumulator F) op) (reduceIdentity (op.accumulator F) op)
    (fun value i => reduceCombine (op.accumulator F) op value (reduceTransform F op (evaluate i)))
    fuel grid n

/-- `reduce_gpu`; none when it raises or does not end within the fuel. -/
def reduceGpu {T : Type} (F : Scalar T) (op : ReduceOp) (evaluate : Nat → T) (n fuel : Nat) :
    Option (op.Accumulator T) :=
  if n = 0 then some (reduceIdentity (op.accumulator F) op)
  else do
    let blocks := gpuReduceBlocks n
    if ¬ (0 < blocks ∧ blocks ≤ 0x7fffffff) then none
    let partials ← gpuReduceExprKernel F op evaluate fuel blocks n
    reduceGpuPartials (reduceCombine (op.accumulator F) op)
      (reduceIdentity (op.accumulator F) op) fuel fuel partials

theorem gpuReduceBlockSize_pos : 0 < gpuReduceBlockSize := by decide

theorem gpuReduceBlocks_eq (n : Nat) : gpuReduceBlocks n = min ((n + 1023) / 1024) 4096 := by
  have hceil : n / 1024 + (if n % 1024 ≠ 0 then 1 else 0) = (n + 1023) / 1024 := by
    split <;> omega
  rw [min_def_lt, ← hceil]
  rfl

theorem gpuReduceBlocks_pos {n : Nat} (h : 0 < n) : 0 < gpuReduceBlocks n := by
  rw [gpuReduceBlocks_eq]
  omega

/-- Every pass leaves fewer partials. -/
theorem gpuReduceBlocks_lt {n : Nat} (h : 1 < n) : gpuReduceBlocks n < n := by
  rw [gpuReduceBlocks_eq]
  omega

/-- The launch check never raises. -/
theorem gpuReduceBlocks_launches {n : Nat} (h : 0 < n) :
    0 < gpuReduceBlocks n ∧ gpuReduceBlocks n ≤ 0x7fffffff := by
  rw [gpuReduceBlocks_eq]
  omega

section Threads

variable {ρ : Type} {visit : ρ → Nat → ρ} {n step : Nat}

/-- Without a wrap a thread visits its stride of the indices. -/
theorem gridStrideLoop_eq (hstep : 0 < step) {i : Nat} (hwrap : ∀ k ∈ starts i n step,
    k + step < 2 ^ 64) {fuel : Nat} (hfuel : n < fuel + i) (value : ρ) (hpos : 0 < fuel) :
    gridStrideLoop visit n step fuel i value = some ((starts i n step).foldl visit value) := by
  induction fuel generalizing i value with
  | zero => exact absurd hpos (Nat.lt_irrefl 0)
  | succ fuel ih =>
      rw [gridStrideLoop]
      split <;> rename_i hi
      · rw [starts_of_lt hstep hi] at hwrap ⊢
        have hnext : i + step < 2 ^ 64 := hwrap i List.mem_cons_self
        rw [List.foldl_cons, wrapU64_eq_self hnext]
        exact ih (fun k hk => hwrap k (List.mem_cons_of_mem _ hk)) (by omega) _ (by omega)
      · rw [starts_of_ge hstep (Nat.le_of_not_lt hi)]
        rfl

/-- A counter that wraps at a multiple of its step never reaches the bound. -/
theorem gridStrideLoop_none (visit : ρ → Nat → ρ) (hdvd : step ∣ 2 ^ 64)
    (hlarge : 2 ^ 64 - step < n) {i : Nat}
    (hi : step ∣ i) (hlt : i < 2 ^ 64) (fuel : Nat) (value : ρ) :
    gridStrideLoop visit n step fuel i value = none := by
  induction fuel generalizing i value with
  | zero => rfl
  | succ fuel ih =>
      obtain ⟨q, hq⟩ := hdvd
      obtain ⟨k, rfl⟩ := hi
      have hk : k < q := lt_of_mul_lt_mul_left (hq ▸ hlt) (Nat.zero_le step)
      have hbelow : step * k + step ≤ 2 ^ 64 := by
        rw [hq, ← Nat.mul_succ]
        exact Nat.mul_le_mul_left step hk
      rw [gridStrideLoop, if_pos (by omega)]
      refine ih ?_ (wrapU64_lt _) _
      exact (Nat.dvd_mod_iff ⟨q, hq⟩).2 ⟨k + 1, (Nat.mul_succ step k).symm⟩

end Threads

section Block

variable {ρ σ : Type} {combine : ρ → ρ → ρ} {combine' : σ → σ → σ}

theorem treeLoop_zero (smem : Nat → ρ) : treeLoop combine 0 smem = smem := by
  rw [treeLoop, if_pos rfl]

theorem treeLoop_of_ne_zero {stride : Nat} (h : stride ≠ 0) (smem : Nat → ρ) :
    treeLoop combine stride smem =
      treeLoop combine (stride / 2) (treeStep combine stride smem) := by
  rw [treeLoop, if_neg h]

/-- The steps of a block one by one. -/
theorem gpuReduceBlock_eq (smem : Nat → ρ) : gpuReduceBlock combine smem =
    [128, 64, 32, 16, 8, 4, 2, 1].foldl (fun smem stride => treeStep combine stride smem)
      smem 0 := by
  rw [gpuReduceBlock, treeLoop_of_ne_zero (by decide), treeLoop_of_ne_zero (by decide),
    treeLoop_of_ne_zero (by decide), treeLoop_of_ne_zero (by decide),
    treeLoop_of_ne_zero (by decide), treeLoop_of_ne_zero (by decide),
    treeLoop_of_ne_zero (by decide), treeLoop_of_ne_zero (by decide)]
  show treeLoop combine 0 _ 0 = _
  rw [treeLoop_zero]
  rfl

/-- The tree of a block commutes with what respects the combination. -/
theorem treeLoop_map {f : ρ → σ} (hf : ∀ a b, f (combine a b) = combine' (f a) (f b))
    (stride : Nat) (smem : Nat → ρ) (thread : Nat) :
    f (treeLoop combine stride smem thread) =
      treeLoop combine' stride (fun thread => f (smem thread)) thread := by
  induction stride, smem using treeLoop.induct combine with
  | case1 smem => rw [treeLoop_zero, treeLoop_zero]
  | case2 stride smem hstride ih =>
      rw [treeLoop_of_ne_zero hstride, treeLoop_of_ne_zero hstride, ih]
      congr 2
      funext thread
      simp only [treeStep]
      split
      · exact hf _ _
      · rfl

/-- Thread 0 ends with the values of all threads. -/
theorem terms_treeLoop (k : Nat) (smem : Nat → CombineTree Nat) :
    (treeLoop CombineTree.node (2 ^ k / 2) smem 0).terms.Perm
      ((List.range (2 ^ k)).flatMap fun thread => (smem thread).terms) := by
  induction k generalizing smem with
  | zero =>
      rw [show 2 ^ 0 / 2 = 0 from rfl, treeLoop_zero]
      simp
  | succ k ih =>
      have hstride : 2 ^ (k + 1) / 2 = 2 ^ k := by omega
      have hpos : 2 ^ k ≠ 0 := (Nat.two_pow_pos k).ne'
      rw [hstride, treeLoop_of_ne_zero hpos]
      refine (ih _).trans ?_
      have hstep : ∀ thread ∈ List.range (2 ^ k),
          (treeStep CombineTree.node (2 ^ k) smem thread).terms =
          (smem thread).terms ++ (smem (thread + 2 ^ k)).terms := fun thread hthread => by
        rw [treeStep, if_pos (List.mem_range.1 hthread), CombineTree.terms]
      rw [List.flatMap_congr hstep, Nat.pow_succ, Nat.mul_two, List.range_add,
        List.flatMap_append, List.flatMap_map]
      refine (List.flatMap_append_perm _ _ _).symm.trans ?_
      simp only [Nat.add_comm]
      exact List.Perm.refl _

end Block

/-- What a thread accumulates, as a tree over the indices. -/
def threadTree (n step i : Nat) : CombineTree Nat :=
  (starts i n step).foldl (fun value i => .node value (.term i)) .identity

/-- The partial of a block, as a tree over the indices. -/
def blockTree (grid n block : Nat) : CombineTree Nat :=
  gpuReduceBlock .node fun thread =>
    ((List.range gpuReduceBlockSize).map fun thread =>
      threadTree n (grid * gpuReduceBlockSize) (block * gpuReduceBlockSize + thread)).getD
        thread .identity

/-- The passes over `n` partials, as a tree over the partials. -/
def partialsTree (n : Nat) : CombineTree Nat :=
  if h : 1 < n then
    (partialsTree (gpuReduceBlocks n)).bind (blockTree (gpuReduceBlocks n) n)
  else if n = 1 then .term 0
  else .identity
termination_by n
decreasing_by exact gpuReduceBlocks_lt h

/-- How the device combines `n` elements. -/
def combiningTree (n : Nat) : CombineTree Nat :=
  (partialsTree (gpuReduceBlocks n)).bind (blockTree (gpuReduceBlocks n) n)

section Trees

variable {n grid : Nat}

theorem terms_blockTree (grid n block : Nat) : (blockTree grid n block).terms.Perm
    ((List.range gpuReduceBlockSize).flatMap fun thread =>
      starts (block * gpuReduceBlockSize + thread) n (grid * gpuReduceBlockSize)) := by
  refine (terms_treeLoop 8 _).trans (List.Perm.of_eq (List.flatMap_congr fun thread hthread => ?_))
  rw [List.getD_eq_getElem _ _ (by simpa [gpuReduceBlockSize] using hthread)]
  simp [threadTree, CombineTree.terms_foldl, CombineTree.terms]

/-- The blocks of a grid hold every index once. -/
theorem terms_grid (hgrid : 0 < grid) (n : Nat) :
    ((List.range grid).flatMap fun block => (blockTree grid n block).terms).Perm
      (List.range n) := by
  refine (List.Perm.flatMap_left _ fun block _ => terms_blockTree grid n block).trans ?_
  have hthreads : (List.range grid).flatMap (fun block =>
      (List.range gpuReduceBlockSize).map fun thread => block * gpuReduceBlockSize + thread) =
        List.range (grid * gpuReduceBlockSize) := by
    simp only [List.range_eq_range', ← flatMap_lanes 0 grid gpuReduceBlockSize, Nat.zero_add,
      List.map_add_range', Nat.add_zero]
  refine List.Perm.trans (List.Perm.of_eq ?_)
    (flatMap_starts_perm (Nat.mul_pos hgrid gpuReduceBlockSize_pos) n)
  rw [← hthreads, List.flatMap_assoc]
  simp only [List.flatMap_map]

theorem terms_partialsTree (n : Nat) : (partialsTree n).terms.Perm (List.range n) := by
  induction n using partialsTree.induct with
  | case1 n hn ih =>
      rw [partialsTree, dif_pos hn, CombineTree.terms_bind]
      exact (ih.flatMap_right _).trans (terms_grid (gpuReduceBlocks_pos (by omega)) n)
  | case2 =>
      rw [partialsTree, dif_neg (by omega), if_pos rfl]
      exact List.Perm.refl _
  | case3 n hn hne =>
      obtain rfl : n = 0 := by omega
      rw [partialsTree, dif_neg hn, if_neg hne]
      exact List.Perm.refl _

/-- The device combines every element once. -/
theorem terms_combiningTree (hn : 0 < n) : (combiningTree n).terms.Perm (List.range n) := by
  rw [combiningTree, CombineTree.terms_bind]
  exact ((terms_partialsTree _).flatMap_right _).trans (terms_grid (gpuReduceBlocks_pos hn) n)

end Trees

/-- One block suffices for the first 1024 elements. -/
theorem combiningTree_eq_blockTree {n : Nat} (h : gpuReduceBlocks n = 1) :
    combiningTree n = blockTree 1 n 0 := by
  rw [combiningTree, h, partialsTree, dif_neg (by decide), if_pos rfl]
  rfl

section Runs

variable {ρ : Type} {n fuel : Nat}

theorem mapM_eq_some {ι : Type} {f : ι → Option ρ} {g : ι → ρ} {l : List ι}
    (h : ∀ i ∈ l, f i = some (g i)) : l.mapM f = some (l.map g) := by
  induction l with
  | nil => rfl
  | cons i l ih =>
      rw [List.mapM_cons, h i List.mem_cons_self,
        ih fun j hj => h j (List.mem_cons_of_mem _ hj)]
      rfl

theorem mapM_eq_none {ι : Type} {f : ι → Option ρ} {l : List ι} {i : ι} (hi : i ∈ l)
    (h : f i = none) : l.mapM f = none := by
  induction l with
  | nil => exact absurd hi List.not_mem_nil
  | cons j l ih =>
      rw [List.mapM_cons]
      rcases List.mem_cons.1 hi with rfl | hi
      · rw [h]
        rfl
      · rw [ih hi]
        cases f j <;> rfl

variable (combine : ρ → ρ → ρ) (identity : ρ)

/-- The largest step of a grid. -/
def gpuReduceMaxStep : Nat := gpuReduceMaxBlocks * gpuReduceBlockSize

/-- While no counter can wrap, a kernel computes the trees of its blocks. -/
theorem gpuReduceKernel_eq {grid : Nat} (hgrid : 0 < grid) (hle : grid ≤ gpuReduceMaxBlocks)
    (hn : n ≤ 2 ^ 64 - gpuReduceMaxStep) (hfuel : n < fuel) (term : Nat → ρ) :
    gpuReduceKernel combine identity (fun value i => combine value (term i)) fuel grid n =
      some ((List.range grid).map fun block =>
        (blockTree grid n block).eval combine identity term) := by
  have hstep : grid * gpuReduceBlockSize ≤ gpuReduceMaxStep :=
    Nat.mul_le_mul_right _ hle
  have hpos : 0 < grid * gpuReduceBlockSize := Nat.mul_pos hgrid gpuReduceBlockSize_pos
  refine mapM_eq_some fun block _ => ?_
  have hthread : ∀ thread ∈ List.range gpuReduceBlockSize,
      gridStrideLoop (fun value i => combine value (term i)) n (grid * gpuReduceBlockSize) fuel
          (block * gpuReduceBlockSize + thread) identity =
        some ((threadTree n (grid * gpuReduceBlockSize)
          (block * gpuReduceBlockSize + thread)).eval combine identity term) :=
    fun thread _ => by
      rw [threadTree, CombineTree.eval_foldl]
      refine gridStrideLoop_eq hpos (fun k hk => ?_) (by omega) _ (by omega)
      have := ((mem_starts hpos).1 hk).1
      omega
  rw [mapM_eq_some hthread]
  refine congrArg some ?_
  have hnode (a b : CombineTree Nat) : (CombineTree.node a b).eval combine identity term =
      combine (a.eval combine identity term) (b.eval combine identity term) := rfl
  rw [blockTree, gpuReduceBlock, gpuReduceBlock, treeLoop_map hnode]
  congr 1
  funext thread
  exact (congrArg (List.getD · thread identity) List.map_map.symm).trans
    (List.getD_map _ .identity (CombineTree.eval combine identity term))

theorem reduceGpuPartials_eq {passes : Nat} {buf : List ρ} (hpasses : buf.length < passes)
    (hn : buf.length ≤ 2 ^ 64 - gpuReduceMaxStep) (hfuel : buf.length < fuel) :
    reduceGpuPartials combine identity fuel passes buf =
      some ((partialsTree buf.length).eval combine identity fun i => buf.getD i identity) := by
  induction passes generalizing buf with
  | zero => exact absurd hpasses (Nat.not_lt_zero _)
  | succ passes ih =>
      rw [reduceGpuPartials]
      by_cases hlt : 1 < buf.length
      · have hblocks := gpuReduceBlocks_lt hlt
        have hgrid : 0 < gpuReduceBlocks buf.length := gpuReduceBlocks_pos (by omega)
        have hle : gpuReduceBlocks buf.length ≤ gpuReduceMaxBlocks := by
          rw [gpuReduceBlocks_eq]
          exact min_le_right _ _
        have hbuf := gpuReduceKernel_eq combine identity hgrid hle hn hfuel
          fun i => buf.getD i identity
        rw [if_pos hlt, if_neg (not_not_intro (gpuReduceBlocks_launches (by omega))),
          gpuReduceBufKernel, hbuf]
        show reduceGpuPartials combine identity fuel passes (List.map _ _) = _
        rw [ih (by simp; omega) (by simp; omega) (by simp; omega), partialsTree.eq_def buf.length,
          dif_pos hlt, CombineTree.eval_bind, List.length_map, List.length_range]
        refine congrArg some (CombineTree.eval_congr fun block hblock => ?_)
        have := List.mem_range.1 ((terms_partialsTree _).mem_iff.1 hblock)
        rw [List.getD_eq_getElem _ _ (by simpa using this)]
        simp
      · rw [if_neg hlt, partialsTree, dif_neg hlt]
        split <;> rfl

variable {T : Type}

/-- Every run that cannot wrap ends, with the value of the combining tree. -/
theorem reduceGpu_eq (F : Scalar T) (op : ReduceOp) (x : Nat → T) (hpos : 0 < n)
    (hn : n ≤ 2 ^ 64 - gpuReduceMaxStep) (hfuel : n + 1 < fuel) :
    reduceGpu F op x n fuel = some ((combiningTree n).eval
      (reduceCombine (op.accumulator F) op) (reduceIdentity (op.accumulator F) op)
      fun i => reduceTransform F op (x i)) := by
  have hgrid := gpuReduceBlocks_pos hpos
  have hle : gpuReduceBlocks n ≤ min n gpuReduceMaxBlocks := by
    rw [gpuReduceBlocks_eq, gpuReduceMaxBlocks]
    omega
  have hbuf := gpuReduceKernel_eq (reduceCombine (op.accumulator F) op)
    (reduceIdentity (op.accumulator F) op) hgrid (hle.trans (min_le_right _ _)) hn
    (by omega : n < fuel) fun i => reduceTransform F op (x i)
  rw [reduceGpu, if_neg hpos.ne', if_neg (not_not_intro (gpuReduceBlocks_launches hpos)),
    gpuReduceExprKernel, hbuf]
  show reduceGpuPartials _ _ fuel fuel (List.map _ _) = _
  rw [reduceGpuPartials_eq _ _ (by simp; omega) (by simp; omega) (by simp; omega), combiningTree,
    CombineTree.eval_bind, List.length_map, List.length_range]
  refine congrArg some (CombineTree.eval_congr fun block hblock => ?_)
  have := List.mem_range.1 ((terms_partialsTree _).mem_iff.1 hblock)
  rw [List.getD_eq_getElem _ _ (by simpa using this)]
  simp

/-- Beyond that bound the counter of the first thread wraps forever. -/
theorem reduceGpu_none (F : Scalar T) (op : ReduceOp) (x : Nat → T)
    (hn : 2 ^ 64 - gpuReduceMaxStep < n) : reduceGpu F op x n fuel = none := by
  have hblocks : gpuReduceBlocks n = gpuReduceMaxBlocks := by
    rw [gpuReduceBlocks_eq]
    simp only [gpuReduceMaxStep, gpuReduceMaxBlocks, gpuReduceBlockSize] at hn ⊢
    omega
  have hthread := gridStrideLoop_none
    (fun value i => reduceCombine (op.accumulator F) op value (reduceTransform F op (x i)))
    (show gpuReduceMaxStep ∣ 2 ^ 64 from ⟨2 ^ 44, by decide⟩) hn (dvd_zero _) (by norm_num) fuel
    (reduceIdentity (op.accumulator F) op)
  have hkernel : gpuReduceExprKernel F op x fuel gpuReduceMaxBlocks n = none := by
    refine mapM_eq_none (List.mem_range.2 (by decide : 0 < gpuReduceMaxBlocks)) ?_
    rw [mapM_eq_none (List.mem_range.2 gpuReduceBlockSize_pos)
      (by simpa [gpuReduceMaxStep] using hthread)]
    rfl
  rw [reduceGpu, if_neg (by omega), if_neg (not_not_intro (gpuReduceBlocks_launches (by omega))),
    hblocks, hkernel]
  rfl

/-- What the device reduction of `n` elements is meant to compute.  One tree, the same
for all operations, transforms each element once and else holds identities only; the
passes reach a single partial; every run ends with the value of the tree, which is the
sequential fold where the operation is exact. -/
def ReducesAsFold (n : Nat) : Prop :=
  ∃ tree : CombineTree Nat, tree.terms.Perm (List.range n) ∧
    (∃ passes, gpuReduceBlocks^[passes] (gpuReduceBlocks n) = 1) ∧
    ∀ {T : Type} (F : Scalar T) (op : ReduceOp) (x : Nat → T),
      ∃ result, (∃ enough, ∀ fuel ≥ enough, reduceGpu F op x n fuel = some result) ∧
        result = tree.eval (reduceCombine (op.accumulator F) op)
          (reduceIdentity (op.accumulator F) op) (fun i => reduceTransform F op (x i)) ∧
        ∀ P, op.ExactOn F P → (∀ i < n, P (reduceTransform F op (x i))) →
          result = (List.range n).foldl (fun acc i =>
            reduceCombine (op.accumulator F) op acc (reduceTransform F op (x i)))
            (reduceIdentity (op.accumulator F) op)

theorem exists_passes (hpos : 0 < n) : ∃ passes, gpuReduceBlocks^[passes] n = 1 := by
  induction n using Nat.strong_induction_on with
  | h n ih =>
      rcases Nat.lt_or_ge 1 n with hlt | hle
      · obtain ⟨passes, hpasses⟩ := ih _ (gpuReduceBlocks_lt hlt) (gpuReduceBlocks_pos hpos)
        exact ⟨passes + 1, hpasses⟩
      · exact ⟨0, by simpa using Nat.le_antisymm hle hpos⟩

/-- The device reduces every number of elements, up to the one from which on the
counters of its threads wrap. -/
theorem reducesAsFold_iff (hpos : 1 ≤ n) : ReducesAsFold n ↔ n ≤ 2 ^ 64 - gpuReduceMaxStep := by
  constructor
  · rintro ⟨tree, -, -, hruns⟩
    by_contra hlarge
    obtain ⟨result, ⟨enough, hresult⟩, -⟩ := hruns Scalar.uint64 .sum fun _ => 0
    have := hresult enough le_rfl
    rw [reduceGpu_none _ _ _ (Nat.lt_of_not_le hlarge)] at this
    exact nomatch this
  · intro hn
    refine ⟨combiningTree n, terms_combiningTree hpos, exists_passes (gpuReduceBlocks_pos hpos),
      fun F op x => ⟨_, ⟨n + 2, fun fuel hfuel => reduceGpu_eq F op x hpos hn hfuel⟩, rfl,
        fun P hP hx => ?_⟩⟩
    have hperm := terms_combiningTree hpos
    have hterm : ∀ i ∈ (combiningTree n).terms, P (reduceTransform F op (x i)) := fun i hi =>
      hx i (List.mem_range.1 (hperm.mem_iff.1 hi))
    rw [hP.eval_eq_foldl hterm, hP.foldl_perm (hperm.map _) (by simpa using hterm),
      List.foldl_map]

end Runs

namespace GpuReductionWitness

/-- A million and three elements take three passes. -/
theorem reducesAsFold_million : ReducesAsFold 1000003 :=
  (reducesAsFold_iff (by decide)).2 (by decide)

/-- The broadcast of one element to `2 ^ 32 - 1` by `2 ^ 32 + 1`. -/
theorem not_reducesAsFold : ¬ ReducesAsFold (2 ^ 64 - 1) := by
  rintro ⟨tree, -, -, hruns⟩
  obtain ⟨result, ⟨enough, hresult⟩, -⟩ := hruns Scalar.uint64 .sum fun _ => 0
  have hnone : reduceGpu Scalar.uint64 .sum (fun _ => 0) (2 ^ 64 - 1) enough = none :=
    reduceGpu_none _ _ _ (by decide)
  rw [hresult enough le_rfl] at hnone
  exact nomatch hnone

end GpuReductionWitness

end Vectorization
