/-
Filling a tensor with one value, on the host and by a device kernel.  Every layout that is
accepted ends with the value at each of its elements and nowhere else.
-/
import Vectorization.AtomicAssignment
import Vectorization.GpuEvaluation

namespace Vectorization

open StridedSpace MachineInteger ByteMemory SharedMemory LoopTiling AtomicRun

variable {T : ElementType} {α : Type}

section Steps

variable (S : SimdTarget T) {i n : Nat}

/-- The loops of `fill` cover the elements in order. -/
theorem fillSteps_tiles {q : Nat} (h : i + q * S.length ≤ n) :
    Tiles (fillSteps S n i (i + q * S.length)) 0 n := by
  rw [fillSteps]
  split
  · have hpeel := scalarSteps_tiles (Nat.zero_le i)
    have hbody := packetSteps_tiles S .aligned i (i + q * S.length)
    have hexit : counterAfter i (i + q * S.length) S.length = i + q * S.length :=
      counterAfter_exact S.length_pos _ _
    rw [hexit] at hbody
    simp only [counterAfter_one (Nat.zero_le i), hexit]
    generalize i + q * S.length = i₂ at h hbody ⊢
    have htail := packetSteps_tiles S .unaligned i₂ (i₂ + (n - i₂) / S.length * S.length)
    have hlast := add_div_mul_le (b := S.length) h
    rw [counterAfter_exact S.length_pos] at htail ⊢
    exact ((hpeel.append hbody).append htail).append (scalarSteps_tiles hlast)
  · exact scalarSteps_tiles (Nat.zero_le n)

theorem fillSteps_boundary {alignEnd : Nat} {s : FlatStep}
    (hs : s ∈ fillSteps S n i alignEnd) (hkind : s.kind = .aligned) :
    i < alignEnd ∧ ∃ k, s.first = i + k * S.length := by
  have hscalar : ∀ {j stop}, s ∉ scalarSteps j stop := fun {j stop} hs => by
    rw [kind_of_mem_scalarSteps hs] at hkind
    cases hkind
  simp only [fillSteps, counterAfter_one (Nat.zero_le i)] at hs
  split at hs
  · simp only [List.mem_append] at hs
    rcases hs with ((hs | hs) | hs) | hs
    · exact absurd hs hscalar
    · obtain ⟨hlt, -, hfirst⟩ := mem_packetSteps S hs
      exact ⟨hlt, hfirst⟩
    · rw [(mem_packetSteps S hs).2.1] at hkind
      cases hkind
    · exact absurd hs hscalar
  · exact absurd hs hscalar

end Steps

section Host

variable {S : SimdTarget T} {c : Codec α T.size} {dst : TensorImpl T} {value : α}

theorem fillOp_writes (data first lanes : Nat) (kind : StoreKind) (m : Memory) :
    (fillOp (T := T) value data first kind lanes).writes T.size m =
      (List.range' first lanes).map fun i => (flatCell T data i, value) := by
  rw [StoreOp.writes, List.range'_eq_map_range, List.map_map]
  apply List.map_congr_left
  intro lane _
  simp only [fillOp, flatCell, Function.comp_apply]
  push_cast
  congr 1
  ring

/-- What a fill that does not raise has checked, and the path it took. -/
theorem fill_ok_iff {ops : List (StoreOp StoreKind α)} :
    fill S value dst = .ok ops ↔ dst.nonOverlapping = true ∧ dst.device = .cpu ∧
      ((dst.contiguous = false ∧ dst.rank ≤ kMaxRank ∧
          ops = (List.range dst.numel).map fun i =>
            fillOp (T := T) value dst.data (stridedOffset dst.strided i) .scalar 1) ∨
        dst.contiguous = true ∧
          ops = (fillSteps S dst.numel dst.alignStart dst.alignEnd).map fun s =>
            fillOp (T := T) value dst.data s.first s.kind s.lanes) := by
  rw [fill]
  by_cases hflag : dst.nonOverlapping = true
  · by_cases hcpu : dst.device = .cpu
    · by_cases hcontig : dst.contiguous = true
      · simp [hflag, hcpu, hcontig, checkContiguous, checkCpuReachable, bind, Except.bind, pure,
          Except.pure, eq_comm]
      · by_cases hrank : dst.rank ≤ kMaxRank
        · simp [hflag, hcpu, hcontig, TensorImpl.toStridedRef, hrank, bind, Except.bind, pure,
            Except.pure, eq_comm]
          rfl
        · simp [hflag, hcpu, hcontig, TensorImpl.toStridedRef, hrank, bind, Except.bind]
    · by_cases hcontig : dst.contiguous = true
      · simp [hflag, hcpu, hcontig, checkContiguous, checkCpuReachable, bind, Except.bind]
      · simp [hflag, hcpu, hcontig, checkContiguous, bind, Except.bind]
  · simp [hflag, bind, Except.bind, throw, throwThe, MonadExceptOf.throw]

/-- Every element of a sound destination ends with the value. -/
theorem fill_holdsSnapshot {ops : List (StoreOp StoreKind α)} (hdst : dst.Sound S)
    (h : fill S value dst = .ok ops) (m : Memory) :
    HoldsSnapshot c (.scalar value) dst.strided m (run c ops m) := by
  obtain ⟨hflag, -, hpath⟩ := fill_ok_iff.1 h
  have hdesc := hdst.backed.toDescribed
  have hnumel : dst.numel = dst.strided.sizes.prod := hdesc.numel_eq
  have hap := hdst.address_apart fun hne => hdst.isNonOverlapping hflag hne
  have hfit : ∀ l ∈ (Expr.scalar value : Expr (Leaf T) α).leaves,
      BroadcastsTo l.toRef.sizes dst.strided.sizes := by simp [Expr.leaves]
  have hsafe : ∀ l ∈ (Expr.scalar value : Expr (Leaf T) α).leaves,
      AliasSafe dst.strided l := by simp [Expr.leaves]
  rcases hpath with ⟨-, -, rfl⟩ | ⟨hcontig, rfl⟩
  · have hreal : Realizes T.size (fun i => dst.strided.address (unflatten dst.strided.sizes i))
        (fun _ _ => value)
        ((List.range dst.numel).map fun i =>
          fillOp (T := T) value dst.data (stridedOffset dst.strided i) .scalar 1)
        ((List.range dst.numel).map fun i => [i]) := by
      apply Realizes.map
      intro i hi m
      rw [hnumel, List.mem_range] at hi
      have haddress := (StridedRef.Backed.laid hdst.backed).address_unflatten hi
      rw [fillOp_writes, List.range'_one, List.map_singleton, List.map_singleton, ← haddress]
      rfl
    refine holdsSnapshot_of_realizes (flatten dst.strided.sizes) hreal ?_ ?_
      (fun _ _ _ => rfl) hfit hsafe hap m
    · rw [map_flatten_indices, ← hnumel, flatten_singletons, List.map_id']
    · intro idx hidx
      rw [unflatten_flatten hidx]
  · obtain ⟨q, hend, hle, -⟩ := hdst.cached.align_spec
    have htiles := fillSteps_tiles S hle
    rw [← hend] at htiles
    have hreal : Realizes T.size (flatCell T dst.data) (fun _ _ => value)
        ((fillSteps S dst.numel dst.alignStart dst.alignEnd).map fun s =>
          fillOp (T := T) value dst.data s.first s.kind s.lanes)
        ((fillSteps S dst.numel dst.alignStart dst.alignEnd).map FlatStep.indices) :=
      Realizes.map fun s _ m => fillOp_writes dst.data s.first s.lanes s.kind m
    refine holdsSnapshot_of_realizes (flatten dst.strided.sizes) hreal ?_ ?_
      (fun _ _ _ => rfl) hfit hsafe hap m
    · rw [← List.flatMap_def, htiles.indices, map_flatten_indices, ← hnumel, Nat.sub_zero,
        List.range_eq_range']
    · intro idx hidx
      exact (hdesc.address_eq hcontig hidx).symm

/-- Aligned stores of a fill are aligned. -/
theorem fill_aligned {ops : List (StoreOp StoreKind α)} (hdst : dst.Sound S)
    (h : fill S value dst = .ok ops) {op : StoreOp StoreKind α} (hop : op ∈ ops)
    (hkind : op.kind = .aligned) : (S.simdAlign : Int) ∣ op.address := by
  obtain ⟨-, -, ⟨-, -, rfl⟩ | ⟨-, rfl⟩⟩ := fill_ok_iff.1 h
  · obtain ⟨i, -, rfl⟩ := List.mem_map.1 hop
    cases hkind
  · obtain ⟨s, hs, rfl⟩ := List.mem_map.1 hop
    obtain ⟨q, hend, -, hdvd⟩ := hdst.cached.align_spec
    obtain ⟨hlt, k, hfirst⟩ := fillSteps_boundary S hs hkind
    have hq : 0 < q := by
      apply Nat.pos_of_ne_zero
      rintro rfl
      omega
    have hbase : S.simdAlign ∣ dst.data + s.first * T.size := by
      rw [hfirst, Nat.add_mul, ← Nat.add_assoc, Nat.mul_assoc]
      exact Nat.dvd_add (hdvd hq) (Nat.dvd_mul_left_of_dvd S.simdAlign_dvd_register k)
    change (S.simdAlign : Int) ∣ (dst.data + s.first * T.size : Int)
    exact_mod_cast hbase

end Host

section Assign

variable {b : Build T} {c : Codec α T.size} {value : α} {s : AssignState T}

/-- Assigning a scalar succeeds exactly for an injective destination on the host whose rank
the strided loop can take. -/
theorem assignScalar_ok_iff {s' : AssignState T} :
    assignScalar b c value s = .ok () s' ↔ ∃ ops, fill b.simd value s.dst = .ok ops ∧
      s' = { s with memory := run c ops s.memory } := by
  constructor
  · intro h
    obtain ⟨dst, s₁, hdst, h⟩ := bind_ok.1 h
    cases hdst
    obtain ⟨_, -, h⟩ := raising_bind_ok.1 h
    obtain ⟨ops, hops, h⟩ := raising_bind_ok.1 h
    cases h
    exact ⟨ops, hops, rfl⟩
  · rintro ⟨ops, hops, rfl⟩
    obtain ⟨hflag, -⟩ := fill_ok_iff.1 hops
    refine bind_ok.2 ⟨s.dst, s, rfl, raising_bind_ok.2 ⟨(), ?_, ?_⟩⟩
    · rw [validateDestination, if_pos hflag]
    · exact raising_bind_ok.2 ⟨ops, hops, rfl⟩

/-- A scalar assignment to a sound tensor is carried out exactly when the destination is
injective, on the host, and packed or of a rank that the strided loop takes.  Then every
element has the value, no other byte has changed and no aligned store was unaligned; else
memory and object are as before. -/
theorem assignScalar_fills (b : Build T) (c : Codec α T.size) (value : α)
    (hdst : s.dst.Sound b.simd) :
    ((∃ s', assignScalar b c value s = .ok () s') ↔ s.dst.nonOverlapping = true ∧
        s.dst.device = .cpu ∧ (s.dst.contiguous = true ∨ s.dst.rank ≤ kMaxRank)) ∧
      (∀ r s', assignScalar b c value s = .error r s' → s' = s) ∧
      ∀ s', assignScalar b c value s = .ok () s' → s'.dst = s.dst ∧
        (∀ idx, InBounds idx s.dst.strided.sizes →
          load c s'.memory (s.dst.strided.address idx) = value) ∧
        (∀ x ∉ s.dst.strided.region, s'.memory x = s.memory x) ∧
        ∃ ops, fill b.simd value s.dst = .ok ops ∧ s'.memory = run c ops s.memory ∧
          ∀ op ∈ ops, op.kind = .aligned → (b.simd.simdAlign : Int) ∣ op.address := by
  refine ⟨⟨?_, ?_⟩, fun r s' h => assignScalar_atomic b c value s r s' h, fun s' h => ?_⟩
  · rintro ⟨s', h⟩
    obtain ⟨ops, hops, -⟩ := assignScalar_ok_iff.1 h
    obtain ⟨hflag, hcpu, ⟨-, hrank, -⟩ | ⟨hcontig, -⟩⟩ := fill_ok_iff.1 hops
    · exact ⟨hflag, hcpu, Or.inr hrank⟩
    · exact ⟨hflag, hcpu, Or.inl hcontig⟩
  · rintro ⟨hflag, hcpu, hpath⟩
    cases hcontig : s.dst.contiguous with
    | true =>
        obtain ⟨ops, hops⟩ : ∃ ops, fill b.simd value s.dst = .ok ops :=
          ⟨_, fill_ok_iff.2 ⟨hflag, hcpu, Or.inr ⟨hcontig, rfl⟩⟩⟩
        exact ⟨_, assignScalar_ok_iff.2 ⟨ops, hops, rfl⟩⟩
    | false =>
        have hrank := hpath.resolve_left (by rw [hcontig]; decide)
        obtain ⟨ops, hops⟩ : ∃ ops, fill b.simd value s.dst = .ok ops :=
          ⟨_, fill_ok_iff.2 ⟨hflag, hcpu, Or.inl ⟨hcontig, hrank, rfl⟩⟩⟩
        exact ⟨_, assignScalar_ok_iff.2 ⟨ops, hops, rfl⟩⟩
  · obtain ⟨ops, hops, rfl⟩ := assignScalar_ok_iff.1 h
    have hsnap := fill_holdsSnapshot hdst hops s.memory (c := c)
    exact ⟨rfl, fun idx hidx => hsnap.load hidx, fun x hx => hsnap.frame hx, ops, hops, rfl,
      fun op hop hkind => fill_aligned hdst hops hop hkind⟩

end Assign

section Device

variable (c : Codec α T.size)

/-- `gpu_fill_kernel`: `out[tid] = value`. -/
def gpuFillKernel (value : α) (out n : Nat) : (block thread : Nat) → ByteProg Unit :=
  elementKernel n fun tid => storeCell c (flatCell T out tid) value

/-- `fill_gpu`. -/
def fillGpu (value : α) (data n : Nat) : Except Raise Launch :=
  launchElements "fill_gpu" n (gpuFillKernel c value data n)

/-- `fill` in a translation unit that is compiled for CUDA or HIP. -/
def fillDevice (S : SimdTarget T) (value : α) (rhs : TensorImpl T) :
    Except Raise (Work α) := do
  if rhs.device = .cuda ∨ rhs.device = .hip then
    if ¬ rhs.nonOverlapping then throw .fillInternalOverlap
    checkContiguous rhs "expressions_evaluator::fill"
    return .launch (← fillGpu c value rhs.data rhs.numel)
  else return .stores (← fill S value rhs)

/-- `operator=(scalar)` and `fill_async`, up to the point where elements are stored. -/
def assignScalarDevice (b : Build T) (value : α) (dst : TensorImpl T) :
    Except Raise (Work α) := do
  validateDestination dst
  fillDevice c b.simd value dst

variable {c} {S : SimdTarget T} {dst : TensorImpl T} {value : α} {k : Launch}

/-- A launched fill writes the value to every element, in every schedule of its threads. -/
theorem fillGpu_scheduled (hdst : dst.Sound S) (hcontig : dst.contiguous = true)
    (hlt : dst.numel < 2 ^ 64) (h : fillGpu c value dst.data dst.numel = .ok k) (m : Memory) :
    k.grid = (dst.numel + (gpuBlockSize - 1)) / gpuBlockSize ∧
      (∃ reads writes, (k.pool m).RaceFree reads writes) ∧
      ∀ steps, ((k.pool m).schedule steps).Finished →
        HoldsSnapshot c (.scalar value) dst.strided m ((k.pool m).schedule steps).memory := by
  have hwrites : ∀ i m, (fillOp (T := T) value dst.data i .scalar 1).writes T.size m =
      [(flatCell T dst.data i, value)] := fun i m => fillOp_writes dst.data i 1 .scalar m
  have hbody : ∀ i, Performs c (fun _ => ∅) (flatCell T dst.data)
      (storeCell c (flatCell T dst.data i) value)
      [fillOp (T := T) value dst.data i .scalar 1] [i] := by
    intro i
    refine ⟨fun m => ?_, within_storeCell c ?_⟩
    · rw [run_storeCell, run, List.foldl_cons, List.foldl_nil, StoreOp.exec, hwrites]
      rfl
    · exact fun x hx => ⟨i, List.mem_singleton_self i, hx⟩
  exact launchElements_scheduled hdst.backed.toDescribed hcontig hlt (by simp [Expr.leaves])
    (by simp [Expr.leaves]) hbody hwrites (fun _ _ _ => rfl)
    (fun _ _ x hx => absurd hx (Set.notMem_empty x)) h m

theorem launchElements_ok_iff {caller : String} {n : Nat}
    {kernel : (block thread : Nat) → ByteProg Unit} (hn : n < 2 ^ 64) :
    (∃ k, launchElements caller n kernel = .ok k) ↔ n ≤ 0x7fffffff * gpuBlockSize := by
  rw [launchElements]
  split <;> rename_i hzero
  · rw [hzero]
    exact iff_of_true ⟨_, rfl⟩ (Nat.zero_le _)
  · have hgrid (grid : Nat) : gpuGrid caller n = .ok grid ↔ n ≤ 0x7fffffff * gpuBlockSize ∧
        grid = (n + (gpuBlockSize - 1)) / gpuBlockSize :=
      gpuGrid_ok_iff (Nat.pos_of_ne_zero hzero) hn
    constructor
    · rintro ⟨k, h⟩
      obtain ⟨grid, h, -⟩ := exceptBind_ok.1 h
      exact ((hgrid grid).1 h).1
    · intro hle
      exact ⟨_, exceptBind_ok.2 ⟨_, (hgrid _).2 ⟨hle, rfl⟩, rfl⟩⟩

variable {b : Build T}

theorem assignScalarDevice_launch (hdev : dst.device = .cuda ∨ dst.device = .hip) :
    assignScalarDevice c b value dst = .ok (.launch k) ↔ dst.nonOverlapping = true ∧
      dst.contiguous = true ∧ fillGpu c value dst.data dst.numel = .ok k := by
  constructor
  · intro h
    obtain ⟨_, hvalid, h⟩ := exceptBind_ok.1 h
    have hflag : dst.nonOverlapping = true := by
      rw [validateDestination] at hvalid
      split at hvalid
      · assumption
      · cases hvalid
    rw [fillDevice, if_pos hdev, if_neg (by simp [hflag])] at h
    obtain ⟨_, hcontig, h⟩ := exceptBind_ok.1 h
    obtain ⟨k', hk, h⟩ := exceptBind_ok.1 h
    cases h
    refine ⟨hflag, ?_, hk⟩
    rw [checkContiguous] at hcontig
    split at hcontig
    · assumption
    · cases hcontig
  · rintro ⟨hflag, hcontig, hk⟩
    rw [assignScalarDevice, validateDestination, if_pos hflag, fillDevice, if_pos hdev,
      if_neg (by simp [hflag]), checkContiguous, if_pos hcontig, hk]
    rfl

/-- A scalar assignment to a sound tensor on a device launches exactly when the tensor is
injective, packed, and not larger than a grid can be.  The threads do not race, every schedule
can be carried to its end, and there each element has the value and no other byte has
changed. -/
theorem assignScalarDevice_scheduled (hdst : dst.Sound b.simd)
    (hdev : dst.device = .cuda ∨ dst.device = .hip) :
    ((∃ k, assignScalarDevice c b value dst = .ok (.launch k)) ↔ dst.nonOverlapping = true ∧
        dst.contiguous = true ∧ dst.numel ≤ 0x7fffffff * gpuBlockSize) ∧
      ∀ k, assignScalarDevice c b value dst = .ok (.launch k) → ∀ m,
        (∃ reads writes, (k.pool m).RaceFree reads writes) ∧
          (∀ steps, ∃ rest, ((k.pool m).schedule (steps ++ rest)).Finished) ∧
          ∀ steps, ((k.pool m).schedule steps).Finished →
            (∀ idx, InBounds idx dst.strided.sizes →
              load c ((k.pool m).schedule steps).memory (dst.strided.address idx) = value) ∧
            ∀ x ∉ dst.strided.region, ((k.pool m).schedule steps).memory x = m x := by
  have hlt : dst.nonOverlapping = true → dst.numel < 2 ^ 64 := fun hflag => by
    have hint := hdst.prod_le fun hne => hdst.isNonOverlapping hflag hne
    have hnumel : dst.numel = dst.strided.sizes.prod := hdst.backed.numel_eq
    unfold int64Max at hint
    omega
  refine ⟨⟨?_, ?_⟩, fun k hk m => ?_⟩
  · rintro ⟨k, hk⟩
    obtain ⟨hflag, hcontig, hk⟩ := (assignScalarDevice_launch hdev).1 hk
    exact ⟨hflag, hcontig, (launchElements_ok_iff (hlt hflag)).1 ⟨k, hk⟩⟩
  · rintro ⟨hflag, hcontig, hle⟩
    obtain ⟨k, hk⟩ := (launchElements_ok_iff (hlt hflag)).2 hle
    exact ⟨k, (assignScalarDevice_launch hdev).2 ⟨hflag, hcontig, hk⟩⟩
  · obtain ⟨hflag, hcontig, hk⟩ := (assignScalarDevice_launch hdev).1 hk
    obtain ⟨-, hfree, hsnap⟩ := fillGpu_scheduled hdst hcontig (hlt hflag) hk m
    refine ⟨hfree, fun steps => Pool.exists_finished _ steps, fun steps hfin => ?_⟩
    exact ⟨fun idx hidx => (hsnap steps hfin).load hidx, fun x hx => (hsnap steps hfin).frame hx⟩

end Device

namespace FillEvaluationWitness

open Sample InPlaceAssignmentWitness GpuEvaluationWitness

/-- A column of the table, which is filled element by element. -/
def tableColumn : TensorImpl float := TensorImpl.recompute fourLanes
  { table with sizesAndStrides := [⟨3, 4⟩] }

theorem tableColumn_sound : tableColumn.Sound fourLanes :=
  ⟨TensorImpl.recompute_cached _ _, by decide,
    ⟨by decide, fun hcontig => absurd hcontig (by decide)⟩,
    fun _ => ⟨⟨by decide, by decide, fun _ => by decide⟩, fun _ => by decide⟩,
    fun _ => by decide⟩

theorem assignScalar_fills_column : ∃ s', assignScalar release (Codec.bytes 4) (fun _ => 7)
      ⟨fun _ => 1, tableColumn⟩ = .ok () s' ∧
    load (Codec.bytes 4) s'.memory (tableColumn.strided.address [2]) = fun _ => 7 := by
  obtain ⟨hiff, -, hfills⟩ := assignScalar_fills (s := ⟨fun _ => 1, tableColumn⟩) release
    (Codec.bytes 4) (fun _ => 7) tableColumn_sound
  obtain ⟨s', hs'⟩ := hiff.2 ⟨by decide, rfl, Or.inr (by decide)⟩
  exact ⟨s', hs', (hfills s' hs').2.1 [2] (by decide)⟩

theorem assignScalarDevice_scheduled_table : ∃ k,
    assignScalarDevice (Codec.bytes 4) release (fun _ => 7) deviceTable = .ok (.launch k) ∧
      ∀ steps, ((k.pool fun _ => 1).schedule steps).Finished →
        load (Codec.bytes 4) ((k.pool fun _ => 1).schedule steps).memory
          (deviceTable.strided.address [2, 1]) = fun _ => 7 := by
  obtain ⟨hiff, hfills⟩ := assignScalarDevice_scheduled (c := Codec.bytes 4) (b := release)
    deviceTable_sound (Or.inl rfl)
  obtain ⟨k, hk⟩ := hiff.2 ⟨by decide, by decide, by decide⟩
  obtain ⟨-, -, hfin⟩ := hfills k hk fun _ => 1
  exact ⟨k, hk, fun steps h => (hfin steps h).1 [2, 1] (by decide)⟩

end FillEvaluationWitness

end Vectorization
