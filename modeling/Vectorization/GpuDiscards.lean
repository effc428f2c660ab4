/-
What NaNs discard in a device reduction whose comparison is false on them, by positions.  A
NaN discards what its thread has accumulated before it; in the tree of a block the last
value of one thread decides whether another one is kept; a pass hands one partial of every
block to the next pass.
-/
import Vectorization.GpuReduction
import Vectorization.Foundation.Discarding

namespace Vectorization

open Combining LoopTiling CombineTree

section Positions

variable (isNaN : Nat → Bool) (n grid : Nat)

/-- A thread has a last value, and that is a NaN. -/
def threadEndsInNaN (thread : Nat) : Bool :=
  let step := grid * gpuReduceBlockSize
  decide (thread < n) && isNaN (thread + (n - 1 - thread) / step * step)

/-- No NaN stands at `first` or after it among the values of a thread. -/
def ThreadKeeps (first thread : Nat) : Prop :=
  ∀ j < n, first ≤ j → j % (grid * gpuReduceBlockSize) = thread → isNaN j = false

/-- In the tree of a block a thread meets, at each of its zero bits, the threads that share
its lower bits and have a one there; the last of them has ones from there on. -/
def BlockKeeps (block thread : Nat) : Prop :=
  ∀ bit < 8, thread.testBit bit = false →
    threadEndsInNaN isNaN n grid
      (block * gpuReduceBlockSize + (thread % 2 ^ bit + 2 ^ 8 - 2 ^ bit)) = false

/-- The partial of a block is that of its last thread if this is a NaN. -/
def partialIsNaN (block : Nat) : Bool :=
  threadEndsInNaN isNaN n grid (block * gpuReduceBlockSize + 255)

/-- A pass over `n` values keeps what a thread of the grid holds from `first` on. -/
def PassKeeps (first thread : Nat) : Prop :=
  ThreadKeeps isNaN n grid first thread ∧
    BlockKeeps isNaN n grid (thread / gpuReduceBlockSize) (thread % gpuReduceBlockSize)

instance (first thread : Nat) : Decidable (PassKeeps isNaN n grid first thread) :=
  inferInstanceAs (Decidable ((∀ j < n, _ → _ → _) ∧ ∀ bit < 8, _ → _))

end Positions

/-- The passes over `n` partials keep the one at a position. -/
def PartialKept (n : Nat) (isNaN : Nat → Bool) (i : Nat) : Prop :=
  if 1 < n then
    let grid := gpuReduceBlocks n
    let thread := i % (grid * gpuReduceBlockSize)
    PassKeeps isNaN n grid i thread ∧
      PartialKept grid (partialIsNaN isNaN n grid) (thread / gpuReduceBlockSize)
  else isNaN i = false
termination_by n
decreasing_by exact gpuReduceBlocks_lt (by assumption)

/-- The passes over `n` partials keep the identity that some thread of theirs begins with. -/
def PartialIdentityKept (n : Nat) (isNaN : Nat → Bool) : Prop :=
  if 1 < n then
    let grid := gpuReduceBlocks n
    (∃ thread < grid * gpuReduceBlockSize, PassKeeps isNaN n grid 0 thread ∧
        PartialKept grid (partialIsNaN isNaN n grid) (thread / gpuReduceBlockSize)) ∨
      PartialIdentityKept grid (partialIsNaN isNaN n grid)
  else n = 0
termination_by n
decreasing_by exact gpuReduceBlocks_lt (by assumption)

/-- The reduction of `n` values keeps the one at a position. -/
def ValueKept (isNaN : Nat → Bool) (n i : Nat) : Prop :=
  let grid := gpuReduceBlocks n
  let thread := i % (grid * gpuReduceBlockSize)
  PassKeeps isNaN n grid i thread ∧
    PartialKept grid (partialIsNaN isNaN n grid) (thread / gpuReduceBlockSize)

/-- The reduction of `n` values keeps the identity of some thread. -/
def IdentityKept (isNaN : Nat → Bool) (n : Nat) : Prop :=
  let grid := gpuReduceBlocks n
  (∃ thread < grid * gpuReduceBlockSize, PassKeeps isNaN n grid 0 thread ∧
      PartialKept grid (partialIsNaN isNaN n grid) (thread / gpuReduceBlockSize)) ∨
    PartialIdentityKept grid (partialIsNaN isNaN n grid)

section Threads

variable {isNaN : Nat → Bool} {n grid thread : Nat}

theorem starts_sorted {step : Nat} (hstep : 0 < step) (i n : Nat) :
    (starts i n step).Pairwise (· < ·) :=
  List.pairwise_lt_range' step hstep

theorem mem_starts_iff_mod {step i k : Nat} (hi : i < step) :
    k ∈ starts i n step ↔ k < n ∧ k % step = i := by
  rw [mem_starts (Nat.zero_lt_of_lt hi)]
  refine and_congr_right fun _ => ⟨?_, fun hmod => ⟨k / step, ?_⟩⟩
  · rintro ⟨q, rfl⟩
    rw [Nat.add_mul_mod_self_left, Nat.mod_eq_of_lt hi]
  · rw [← hmod, Nat.mod_add_div]

theorem getLast?_starts {step : Nat} (hstep : 0 < step) (i n : Nat) :
    (starts i n step).getLast? =
      if i < n then some (i + (n - 1 - i) / step * step) else none := by
  split <;> rename_i hi
  · have hcount : (n - i + (step - 1)) / step = (n - 1 - i) / step + 1 := by
      rw [← Nat.add_div_right _ hstep]
      congr 1
      omega
    rw [starts, hcount, List.range'_concat, List.getLast?_append, Nat.mul_comm step]
    rfl
  · rw [starts_of_ge hstep (Nat.le_of_not_lt hi)]
    rfl

theorem endsVoid_threadTree (hgrid : 0 < grid) (thread : Nat) :
    endsVoid isNaN (threadTree n (grid * gpuReduceBlockSize) thread) =
      threadEndsInNaN isNaN n grid thread := by
  rw [threadTree, endsVoid_foldl, getLast?_starts (Nat.mul_pos hgrid gpuReduceBlockSize_pos),
    threadEndsInNaN]
  by_cases h : thread < n <;> simp [h]

theorem mem_survivors_threadTree (hthread : thread < grid * gpuReduceBlockSize) {i : Nat} :
    some i ∈ survivors isNaN (threadTree n (grid * gpuReduceBlockSize) thread) ↔
      (i < n ∧ i % (grid * gpuReduceBlockSize) = thread) ∧
        ThreadKeeps isNaN n grid i thread := by
  rw [threadTree, mem_survivors_foldl (starts_sorted (Nat.zero_lt_of_lt hthread) _ _),
    mem_starts_iff_mod hthread]
  simp only [mem_starts_iff_mod hthread, ThreadKeeps]
  refine and_congr_right fun _ => ⟨fun h j hj hle hmod => h j ⟨hj, hmod⟩ hle, ?_⟩
  exact fun h j hj hle => h j hj.1 hle hj.2

theorem none_mem_survivors_threadTree (hthread : thread < grid * gpuReduceBlockSize) :
    none ∈ survivors isNaN (threadTree n (grid * gpuReduceBlockSize) thread) ↔
      ThreadKeeps isNaN n grid 0 thread := by
  rw [threadTree, none_mem_survivors_foldl]
  simp only [mem_starts_iff_mod hthread, ThreadKeeps]
  refine ⟨fun h j hj _ hmod => h j ⟨hj, hmod⟩, ?_⟩
  exact fun h j hj => h j hj.1 (Nat.zero_le j) hj.2

end Threads

section Halving

/-- The tree over `2 ^ k` threads. -/
def halvingTree (k : Nat) : CombineTree Nat := treeLoop .node (2 ^ k / 2) .term 0

/-- One more step halves the threads first. -/
theorem halvingTree_succ (k : Nat) :
    halvingTree (k + 1) = (halvingTree k).bind (treeStep .node (2 ^ k) .term) := by
  have hstride : 2 ^ (k + 1) / 2 = 2 ^ k := by omega
  have hbind (a b : CombineTree Nat) : (CombineTree.node a b).bind (treeStep .node (2 ^ k) .term) =
      .node (a.bind (treeStep .node (2 ^ k) .term)) (b.bind (treeStep .node (2 ^ k) .term)) := rfl
  rw [halvingTree, halvingTree, hstride, treeLoop_of_ne_zero (Nat.two_pow_pos k).ne',
    treeLoop_map hbind]
  rfl

theorem halvingTree_bind (f : Nat → CombineTree Nat) :
    gpuReduceBlock .node f = (halvingTree 8).bind f := by
  have hbind (a b : CombineTree Nat) :
      (CombineTree.node a b).bind f = .node (a.bind f) (b.bind f) := rfl
  rw [halvingTree, treeLoop_map hbind]
  rfl

variable {void : Nat → Bool} {k : Nat}

theorem endsVoid_halvingTree (void : Nat → Bool) (k : Nat) :
    endsVoid void (halvingTree k) = void (2 ^ k - 1) := by
  induction k generalizing void with
  | zero =>
      rw [halvingTree, show 2 ^ 0 / 2 = 0 from rfl, treeLoop_zero]
      rfl
  | succ k ih =>
      have hpos := Nat.two_pow_pos k
      rw [halvingTree_succ, endsVoid_bind, ih, treeStep, if_pos (by omega), endsVoid, endsVoid]
      congr 1
      omega

theorem mem_survivors_treeStep {i t : Nat} (hi : i < 2 ^ k) :
    some t ∈ survivors void (treeStep .node (2 ^ k) .term i) ↔
      void (i + 2 ^ k) = false ∧ (t = i ∧ void i = false ∨ t = i + 2 ^ k) := by
  rw [treeStep, if_pos hi, mem_survivors_node, mem_survivors_term, mem_survivors_term, endsVoid,
    Option.some.injEq, Option.some.injEq]
  constructor
  · rintro (⟨hend, heq, hvoid⟩ | ⟨heq, hend⟩)
    · exact ⟨hend, Or.inl ⟨heq, hvoid⟩⟩
    · exact ⟨hend, Or.inr heq⟩
  · rintro ⟨hend, ⟨heq, hvoid⟩ | heq⟩
    · exact Or.inl ⟨hend, heq, hvoid⟩
    · exact Or.inr ⟨heq, hend⟩

/-- Of the threads of the lower half, bit `k` is a zero bit. -/
theorem forall_zeroBits_lower {i : Nat} (hi : i < 2 ^ k) :
    (∀ bit < k + 1, i.testBit bit = false →
        void (i % 2 ^ bit + 2 ^ (k + 1) - 2 ^ bit) = false) ↔
      void (i + 2 ^ k) = false ∧ ∀ bit < k, i.testBit bit = false →
        void (i % 2 ^ bit + 2 ^ (k + 1) - 2 ^ bit) = false := by
  have hlast : i % 2 ^ k + 2 ^ (k + 1) - 2 ^ k = i + 2 ^ k := by
    rw [Nat.mod_eq_of_lt hi, Nat.pow_succ]
    omega
  constructor
  · intro h
    refine ⟨?_, fun bit hbit => h bit (by omega)⟩
    rw [← hlast]
    exact h k (Nat.lt_succ_self k) (Nat.testBit_lt_two_pow hi)
  · rintro ⟨hend, h⟩ bit hbit hzero
    rcases Nat.lt_succ_iff_lt_or_eq.1 hbit with hlt | rfl
    · exact h bit hlt hzero
    · rw [hlast]
      exact hend

/-- A thread of the upper half has the zero bits of its partner below `k`. -/
theorem forall_zeroBits_upper {i : Nat} (hi : i < 2 ^ k) :
    (∀ bit < k + 1, (i + 2 ^ k).testBit bit = false →
        void ((i + 2 ^ k) % 2 ^ bit + 2 ^ (k + 1) - 2 ^ bit) = false) ↔
      ∀ bit < k, i.testBit bit = false →
        void (i % 2 ^ bit + 2 ^ (k + 1) - 2 ^ bit) = false := by
  have hbits : ∀ bit < k, (i + 2 ^ k).testBit bit = i.testBit bit := by
    intro bit hbit
    rw [Nat.add_comm, Nat.testBit_two_pow_add_gt hbit]
  have hmod : ∀ bit < k, (i + 2 ^ k) % 2 ^ bit = i % 2 ^ bit := by
    intro bit hbit
    have hdvd : 2 ^ bit ∣ 2 ^ k := Nat.pow_dvd_pow 2 (Nat.le_of_lt hbit)
    rw [Nat.add_mod, Nat.mod_eq_zero_of_dvd hdvd, Nat.add_zero, Nat.mod_mod]
  constructor
  · intro h bit hbit hzero
    rw [← hmod bit hbit]
    exact h bit (by omega) ((hbits bit hbit).trans hzero)
  · intro h bit hbit hzero
    rcases Nat.lt_succ_iff_lt_or_eq.1 hbit with hlt | rfl
    · rw [hmod bit hlt]
      exact h bit hlt ((hbits bit hlt).symm.trans hzero)
    · rw [Nat.add_comm, Nat.testBit_two_pow_add_eq, Nat.testBit_lt_two_pow hi] at hzero
      cases hzero

/-- A step over `2 ^ k` threads ends with the upper one of a pair. -/
theorem endsVoid_treeStep {i : Nat} (hi : i < 2 ^ k) :
    endsVoid void (treeStep .node (2 ^ k) .term i) = void (i + 2 ^ k) := by
  rw [treeStep, if_pos hi, endsVoid, endsVoid]

/-- The threads that a thread of the first `2 ^ k` meets, after one more step. -/
theorem forall_zeroBits_treeStep {i : Nat} :
    (∀ bit < k, i.testBit bit = false →
        endsVoid void (treeStep .node (2 ^ k) .term (i % 2 ^ bit + 2 ^ k - 2 ^ bit)) = false) ↔
      ∀ bit < k, i.testBit bit = false →
        void (i % 2 ^ bit + 2 ^ (k + 1) - 2 ^ bit) = false := by
  apply forall₃_congr
  intro bit hbit _
  have hmod := Nat.mod_lt i (Nat.two_pow_pos bit)
  have hle : 2 ^ bit ≤ 2 ^ k := Nat.pow_le_pow_right (by decide) (Nat.le_of_lt hbit)
  have hupper : i % 2 ^ bit + 2 ^ k - 2 ^ bit + 2 ^ k = i % 2 ^ bit + 2 ^ (k + 1) - 2 ^ bit := by
    rw [Nat.pow_succ]
    omega
  rw [endsVoid_treeStep (by omega), hupper]

/-- A thread is kept if, for each of its zero bits, the last thread with its lower bits and a
one there is not void. -/
theorem mem_survivors_halvingTree {t : Nat} :
    some t ∈ survivors void (halvingTree k) ↔ t < 2 ^ k ∧ void t = false ∧
      ∀ bit < k, t.testBit bit = false → void (t % 2 ^ bit + 2 ^ k - 2 ^ bit) = false := by
  induction k generalizing void t with
  | zero =>
      rw [halvingTree, show 2 ^ 0 / 2 = 0 from rfl, treeLoop_zero, mem_survivors_term,
        Option.some.injEq]
      constructor
      · rintro ⟨rfl, hvoid⟩
        exact ⟨Nat.one_pos, hvoid, fun bit hbit => absurd hbit (Nat.not_lt_zero bit)⟩
      · rintro ⟨hlt, hvoid, -⟩
        obtain rfl : t = 0 := by omega
        exact ⟨rfl, hvoid⟩
  | succ k ih =>
      rw [halvingTree_succ, mem_survivors_bind]
      simp only [reduceCtorEq, false_and, false_or, ih, forall_zeroBits_treeStep]
      constructor
      · rintro ⟨i, ⟨hi, -, hbits⟩, hstep⟩
        obtain ⟨hend, ⟨rfl, hvoid⟩ | rfl⟩ := (mem_survivors_treeStep hi).1 hstep
        · exact ⟨by omega, hvoid, (forall_zeroBits_lower hi).2 ⟨hend, hbits⟩⟩
        · exact ⟨by omega, hend, (forall_zeroBits_upper hi).2 hbits⟩
      · rintro ⟨hlt, hvoid, hbits⟩
        rcases Nat.lt_or_ge t (2 ^ k) with ht | ht
        · obtain ⟨hend, hbits⟩ := (forall_zeroBits_lower ht).1 hbits
          exact ⟨t, ⟨ht, (endsVoid_treeStep ht).trans hend, hbits⟩,
            (mem_survivors_treeStep ht).2 ⟨hend, Or.inl ⟨rfl, hvoid⟩⟩⟩
        · obtain ⟨i, rfl⟩ := Nat.exists_eq_add_of_le' ht
          have hi : i < 2 ^ k := by omega
          exact ⟨i, ⟨hi, (endsVoid_treeStep hi).trans hvoid, (forall_zeroBits_upper hi).1 hbits⟩,
            (mem_survivors_treeStep hi).2 ⟨hvoid, Or.inr rfl⟩⟩

theorem none_notMem_survivors_halvingTree : none ∉ survivors void (halvingTree k) := by
  induction k generalizing void with
  | zero =>
      rw [halvingTree, show 2 ^ 0 / 2 = 0 from rfl, treeLoop_zero, mem_survivors_term]
      simp
  | succ k ih =>
      rw [halvingTree_succ, mem_survivors_bind]
      rintro (⟨-, hnone⟩ | ⟨i, hi, hnone⟩)
      · exact ih hnone
      · have hlt := (mem_survivors_halvingTree.1 hi).1
        rw [treeStep, if_pos hlt, mem_survivors_node, mem_survivors_term,
          mem_survivors_term] at hnone
        simp at hnone

end Halving

section Blocks

variable {isNaN : Nat → Bool} {n grid block : Nat}

/-- The shared memory of a block before the first step. -/
def blockThreads (grid n block thread : Nat) : CombineTree Nat :=
  ((List.range gpuReduceBlockSize).map fun thread =>
    threadTree n (grid * gpuReduceBlockSize) (block * gpuReduceBlockSize + thread)).getD
      thread .identity

theorem blockThreads_eq {thread : Nat} (h : thread < gpuReduceBlockSize) :
    blockThreads grid n block thread =
      threadTree n (grid * gpuReduceBlockSize) (block * gpuReduceBlockSize + thread) := by
  rw [blockThreads, List.getD_eq_getElem _ _ (by simpa using h), List.getElem_map,
    List.getElem_range]

theorem blockTree_eq_bind (grid n block : Nat) :
    blockTree grid n block = (halvingTree 8).bind (blockThreads grid n block) :=
  halvingTree_bind _

theorem endsVoid_blockTree (hgrid : 0 < grid) :
    endsVoid isNaN (blockTree grid n block) = partialIsNaN isNaN n grid block := by
  rw [blockTree_eq_bind, endsVoid_bind, endsVoid_halvingTree, blockThreads_eq (by decide),
    endsVoid_threadTree hgrid]
  rfl

/-- A block keeps what the threads hold that it keeps. -/
theorem mem_survivors_blockTree (hgrid : 0 < grid) {leaf : Option Nat} :
    leaf ∈ survivors isNaN (blockTree grid n block) ↔
      ∃ thread < gpuReduceBlockSize, BlockKeeps isNaN n grid block thread ∧
        leaf ∈ survivors isNaN (threadTree n (grid * gpuReduceBlockSize)
          (block * gpuReduceBlockSize + thread)) := by
  have hends {thread : Nat} (h : thread < 2 ^ 8) :
      endsVoid isNaN (blockThreads grid n block thread) =
        threadEndsInNaN isNaN n grid (block * gpuReduceBlockSize + thread) := by
    rw [blockThreads_eq h, endsVoid_threadTree hgrid]
  rw [blockTree_eq_bind, mem_survivors_bind]
  simp only [none_notMem_survivors_halvingTree, and_false, false_or, mem_survivors_halvingTree]
  refine exists_congr fun thread => ?_
  constructor
  · rintro ⟨⟨hthread, -, hbits⟩, hleaf⟩
    rw [blockThreads_eq hthread] at hleaf
    refine ⟨hthread, fun bit hbit hzero => ?_, hleaf⟩
    have hmod := Nat.mod_lt thread (Nat.two_pow_pos bit)
    rw [← hends (by omega)]
    exact hbits bit hbit hzero
  · rintro ⟨hthread, hkeeps, hleaf⟩
    have hvoid : endsVoid isNaN (blockThreads grid n block thread) = false := by
      rw [blockThreads_eq hthread, ← Bool.not_eq_true, ← survivors_eq_nil]
      exact List.ne_nil_of_mem hleaf
    refine ⟨⟨hthread, hvoid, fun bit hbit hzero => ?_⟩, ?_⟩
    · have hmod := Nat.mod_lt thread (Nat.two_pow_pos bit)
      have hle : 2 ^ bit ≤ 2 ^ 8 := Nat.pow_le_pow_right (by decide) (Nat.le_of_lt hbit)
      rw [hends (by omega)]
      exact hkeeps bit hbit hzero
    · rwa [blockThreads_eq hthread]

variable {K : Nat → Prop}

theorem thread_lt {thread : Nat} (hblock : block < grid) (hthread : thread < gpuReduceBlockSize) :
    block * gpuReduceBlockSize + thread < grid * gpuReduceBlockSize := by
  have := Nat.mul_le_mul_right gpuReduceBlockSize (Nat.succ_le_of_lt hblock)
  rw [Nat.succ_mul] at this
  omega

/-- The threads of a grid, block by block. -/
theorem exists_thread_iff {P : Nat → Nat → Prop} :
    (∃ block < grid, ∃ thread < gpuReduceBlockSize, P block thread) ↔
      ∃ thread < grid * gpuReduceBlockSize,
        P (thread / gpuReduceBlockSize) (thread % gpuReduceBlockSize) := by
  constructor
  · rintro ⟨block, hblock, thread, hthread, h⟩
    refine ⟨block * gpuReduceBlockSize + thread, thread_lt hblock hthread, ?_⟩
    rw [Nat.mul_comm, Nat.mul_add_div gpuReduceBlockSize_pos, Nat.div_eq_of_lt hthread,
      Nat.mul_add_mod, Nat.mod_eq_of_lt hthread, Nat.add_zero]
    exact h
  · rintro ⟨thread, hthread, h⟩
    exact ⟨_, Nat.div_lt_of_lt_mul (by rwa [Nat.mul_comm]), _,
      Nat.mod_lt _ gpuReduceBlockSize_pos, h⟩

/-- A pass keeps a leaf if its thread holds it to the end, the block keeps the thread, and
what follows keeps the partial of the block. -/
theorem mem_survivors_pass (hgrid : 0 < grid) {t : CombineTree Nat}
    (hkept : ∀ block, some block ∈ survivors (partialIsNaN isNaN n grid) t ↔
      block < grid ∧ K block) {leaf : Option Nat} :
    leaf ∈ survivors isNaN (t.bind (blockTree grid n)) ↔
      (∃ thread < grid * gpuReduceBlockSize,
        leaf ∈ survivors isNaN (threadTree n (grid * gpuReduceBlockSize) thread) ∧
          BlockKeeps isNaN n grid (thread / gpuReduceBlockSize) (thread % gpuReduceBlockSize) ∧
            K (thread / gpuReduceBlockSize)) ∨
        leaf = none ∧ none ∈ survivors (partialIsNaN isNaN n grid) t := by
  have hends : (fun block => endsVoid isNaN (blockTree grid n block)) =
      partialIsNaN isNaN n grid := funext fun block => endsVoid_blockTree hgrid
  have hthreads := @exists_thread_iff grid fun block thread =>
    leaf ∈ survivors isNaN (threadTree n (grid * gpuReduceBlockSize)
      (block * gpuReduceBlockSize + thread)) ∧ BlockKeeps isNaN n grid block thread ∧ K block
  simp only [Nat.div_add_mod'] at hthreads
  rw [mem_survivors_bind, hends, ← hthreads, or_comm]
  refine or_congr_left (exists_congr fun block => ?_)
  rw [hkept, mem_survivors_blockTree hgrid]
  constructor
  · rintro ⟨⟨hblock, hK⟩, thread, hthread, hkeeps, hleaf⟩
    exact ⟨hblock, thread, hthread, hleaf, hkeeps, hK⟩
  · rintro ⟨hblock, thread, hthread, hleaf, hkeeps, hK⟩
    exact ⟨⟨hblock, hK⟩, thread, hthread, hkeeps, hleaf⟩

theorem value_survives_pass (hgrid : 0 < grid) {t : CombineTree Nat}
    (hkept : ∀ block, some block ∈ survivors (partialIsNaN isNaN n grid) t ↔
      block < grid ∧ K block) {i : Nat} :
    some i ∈ survivors isNaN (t.bind (blockTree grid n)) ↔
      i < n ∧ PassKeeps isNaN n grid i (i % (grid * gpuReduceBlockSize)) ∧
        K (i % (grid * gpuReduceBlockSize) / gpuReduceBlockSize) := by
  have hpos := Nat.mul_pos hgrid gpuReduceBlockSize_pos
  rw [mem_survivors_pass hgrid hkept]
  simp only [reduceCtorEq, false_and, or_false]
  constructor
  · rintro ⟨thread, hthread, hleaf, hkeeps, hK⟩
    obtain ⟨⟨hi, rfl⟩, hrest⟩ := (mem_survivors_threadTree hthread).1 hleaf
    exact ⟨hi, ⟨hrest, hkeeps⟩, hK⟩
  · rintro ⟨hi, ⟨hrest, hkeeps⟩, hK⟩
    have hthread := Nat.mod_lt i hpos
    exact ⟨_, hthread, (mem_survivors_threadTree hthread).2 ⟨⟨hi, rfl⟩, hrest⟩, hkeeps, hK⟩

theorem identity_survives_pass (hgrid : 0 < grid) {t : CombineTree Nat}
    (hkept : ∀ block, some block ∈ survivors (partialIsNaN isNaN n grid) t ↔
      block < grid ∧ K block) :
    none ∈ survivors isNaN (t.bind (blockTree grid n)) ↔
      (∃ thread < grid * gpuReduceBlockSize, PassKeeps isNaN n grid 0 thread ∧
        K (thread / gpuReduceBlockSize)) ∨
        none ∈ survivors (partialIsNaN isNaN n grid) t := by
  rw [mem_survivors_pass hgrid hkept]
  simp only [true_and]
  refine or_congr_left (exists_congr fun thread => and_congr_right fun hthread => ?_)
  rw [none_mem_survivors_threadTree hthread, PassKeeps, and_assoc]

end Blocks

section Passes

variable {n : Nat} {isNaN : Nat → Bool}

theorem mem_survivors_partialsTree {i : Nat} :
    some i ∈ survivors isNaN (partialsTree n) ↔ i < n ∧ PartialKept n isNaN i := by
  induction n using partialsTree.induct generalizing isNaN i with
  | case1 n hn ih =>
      rw [partialsTree, dif_pos hn, PartialKept, if_pos hn]
      exact value_survives_pass (gpuReduceBlocks_pos (by omega)) fun block => ih
  | case2 =>
      rw [partialsTree, dif_neg (by decide), if_pos rfl, PartialKept, if_neg (by decide),
        mem_survivors_term, Option.some.injEq]
      constructor
      · rintro ⟨rfl, hnan⟩
        exact ⟨Nat.one_pos, hnan⟩
      · rintro ⟨hi, hnan⟩
        obtain rfl : i = 0 := by omega
        exact ⟨rfl, hnan⟩
  | case3 n hn hne =>
      obtain rfl : n = 0 := by omega
      rw [partialsTree, dif_neg hn, if_neg hne]
      simp [survivors]

theorem none_mem_survivors_partialsTree :
    none ∈ survivors isNaN (partialsTree n) ↔ PartialIdentityKept n isNaN := by
  induction n using partialsTree.induct generalizing isNaN with
  | case1 n hn ih =>
      rw [partialsTree, dif_pos hn, PartialIdentityKept, if_pos hn,
        identity_survives_pass (gpuReduceBlocks_pos (by omega)) fun block =>
          mem_survivors_partialsTree, ih]
  | case2 =>
      rw [partialsTree, dif_neg (by decide), if_pos rfl, PartialIdentityKept,
        if_neg (by decide), mem_survivors_term]
      simp
  | case3 n hn hne =>
      obtain rfl : n = 0 := by omega
      rw [partialsTree, dif_neg hn, if_neg hne, PartialIdentityKept, if_neg hn]
      simp [survivors]

/-- The leaves of the device's tree that no NaN discards are those that the positions say. -/
theorem mem_survivors_combiningTree (hn : 0 < n) {leaf : Option Nat} :
    leaf ∈ survivors isNaN (combiningTree n) ↔
      leaf.elim (IdentityKept isNaN n) fun i => i < n ∧ ValueKept isNaN n i := by
  have hgrid := gpuReduceBlocks_pos hn
  cases leaf with
  | none =>
      rw [combiningTree, identity_survives_pass hgrid fun block => mem_survivors_partialsTree,
        none_mem_survivors_partialsTree]
      rfl
  | some i =>
      rw [combiningTree, value_survives_pass hgrid fun block => mem_survivors_partialsTree]
      rfl

end Passes

end Vectorization
