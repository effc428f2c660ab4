/-
The strides that `unsqueeze`, `clone` and `to_cpu` multiply without a check.  A non-empty
tensor has no products that overflow; an empty one may have any sizes and strides.
-/
import Vectorization.TensorRun
import Vectorization.ViewComposition

namespace Vectorization

open MachineInteger StridedSpace ByteMemory AtomicRun

variable {T : ElementType} {α : Type}

section Canonical

variable {n : Int} {sizes : List Int}

/-- C-order strides in exact arithmetic. -/
def canonicalDims : List Int → List Dim
  | [] => []
  | n :: sizes => ⟨n, sizes.prod⟩ :: canonicalDims sizes

/-- Every product of trailing sizes is a 64-bit value. -/
def TrailingFit (sizes : List Int) : Prop := ∀ k, InInt64 (sizes.drop k).prod

theorem trailingFit_nil : TrailingFit [] := by
  intro k
  rw [List.drop_nil]
  decide

theorem trailingFit_cons :
    TrailingFit (n :: sizes) ↔ InInt64 (n * sizes.prod) ∧ TrailingFit sizes := by
  constructor
  · intro h
    refine ⟨?_, fun k => h (k + 1)⟩
    have hall := h 0
    rwa [List.drop_zero, List.prod_cons] at hall
  · rintro ⟨hall, h⟩ k
    cases k with
    | zero => rwa [List.drop_zero, List.prod_cons]
    | succ k => exact h k

theorem TrailingFit.tail (h : TrailingFit sizes) : TrailingFit sizes.tail := by
  cases sizes with
  | nil => exact h
  | cons n sizes => exact (trailingFit_cons.1 h).2

/-- The sizes behind the last dimension without elements. -/
def behindEmpty : List Int → List Int
  | [] => []
  | n :: sizes =>
      if 0 ∈ sizes then behindEmpty sizes else if n = 0 then sizes else n :: sizes

theorem trailingFit_behindEmpty : TrailingFit (behindEmpty sizes) ↔ TrailingFit sizes := by
  have hzero : InInt64 0 := by decide
  induction sizes with
  | nil => exact Iff.rfl
  | cons n sizes ih =>
      rw [behindEmpty]
      split <;> rename_i hmem
      · rw [trailingFit_cons, List.prod_eq_zero hmem, Int.mul_zero]
        exact ih.trans (and_iff_right hzero).symm
      · split <;> rename_i hn
        · rw [trailingFit_cons, hn, Int.zero_mul]
          exact (and_iff_right hzero).symm
        · exact Iff.rfl

/-- The strides of the loop are exact as long as they fit. -/
theorem contiguousDims_eq_canonical (h : TrailingFit sizes.tail) :
    contiguousDims sizes = canonicalDims sizes := by
  induction sizes with
  | nil => rfl
  | cons n sizes ih =>
      rw [contiguousDims, canonicalDims]
      cases sizes with
      | nil => rfl
      | cons m sizes =>
          obtain ⟨hall, hrest⟩ := trailingFit_cons.1 h
          rw [ih hrest, canonicalDims]
          dsimp only
          rw [Int.mul_comm, wrapI64_eq_self hall, List.prod_cons]

theorem canonicalDims_fit (h : ∀ d ∈ canonicalDims sizes, InInt64 d.stride) :
    TrailingFit sizes.tail := by
  induction sizes with
  | nil => exact trailingFit_nil
  | cons n sizes ih =>
      obtain ⟨hhead, hrest⟩ := List.forall_mem_cons.1 h
      cases sizes with
      | nil => exact trailingFit_nil
      | cons m sizes =>
          rw [List.prod_cons] at hhead
          exact trailingFit_cons.2 ⟨hhead, ih hrest⟩

/-- The strides that the loop multiplies are exact exactly when they are canonical. -/
theorem contiguousDims_eq_canonical_iff :
    contiguousDims sizes = canonicalDims sizes ↔ TrailingFit sizes.tail :=
  ⟨fun h => canonicalDims_fit (h ▸ contiguousDims_inInt64 _), contiguousDims_eq_canonical⟩

/-- Each product of the loop is the stride of the dimension before. -/
theorem canonicalDims_products :
    (∀ d ∈ canonicalDims sizes, InInt64 (d.stride * d.size)) ↔ TrailingFit sizes := by
  induction sizes with
  | nil => exact ⟨fun _ => trailingFit_nil, fun _ d hd => by cases hd⟩
  | cons n sizes ih =>
      rw [canonicalDims, List.forall_mem_cons, ih, trailingFit_cons, Int.mul_comm]

theorem canonicalDims_tail : (canonicalDims sizes).tail = canonicalDims sizes.tail := by
  cases sizes <;> rfl

end Canonical

section Calls

/-- The calls that compute strides without a check. -/
inductive StrideCall
  | unsqueeze (dim : Nat)
  | clone
  | toCpu
deriving Repr, DecidableEq

namespace StrideCall

def derive : StrideCall → Derive
  | unsqueeze dim => .view (.unsqueeze dim)
  | clone => .clone
  | toCpu => .toCpu

variable (t r : TensorImpl T)

/-- The products of strides and sizes that a call on `t` forms on the way to `r`. -/
def products : StrideCall → List Int
  | unsqueeze dim => (t.sizesAndStrides[dim]?.map fun d => d.size * d.stride).toList
  | clone | toCpu => r.sizesAndStrides.tail.map fun d => d.stride * d.size

/-- The shape and strides of the result in exact arithmetic. -/
def dims : StrideCall → List Dim
  | unsqueeze dim => t.sizesAndStrides.insertIdx dim
      ⟨1, (t.sizesAndStrides[dim]?.map fun d => d.size * d.stride).getD 1⟩
  | clone | toCpu => canonicalDims t.sizes

/-- No product overflows, and the strides are the mathematical ones. -/
structure Exact (call : StrideCall) : Prop where
  products : ∀ x ∈ call.products t r, InInt64 x
  strides : r.sizesAndStrides = call.dims t

/-- For an inserted dimension, the extent of the one behind it fits; for a packed copy, the
sizes behind the last empty dimension multiply to 64-bit values, the outermost aside. -/
def StridesFit : StrideCall → Prop
  | unsqueeze dim => ∀ d, t.sizesAndStrides[dim]? = some d → InInt64 (d.size * d.stride)
  | clone | toCpu => TrailingFit (behindEmpty t.sizes.tail)

end StrideCall

variable {S : SimdTarget T} {t r : TensorImpl T}

theorem unsqueeze_dims {dim : Nat} (h : t.unsqueeze S dim = .ok r) :
    r.sizesAndStrides = t.sizesAndStrides.insertIdx dim
      ⟨1, (t.sizesAndStrides[dim]?.map fun d => wrapI64 (d.size * d.stride)).getD 1⟩ :=
  (retain_ok (TensorImpl.unsqueeze_ok h).2).1

theorem unsqueeze_exact_iff {dim : Nat} (h : t.unsqueeze S dim = .ok r) :
    (StrideCall.unsqueeze dim).Exact t r ↔ (StrideCall.unsqueeze dim).StridesFit t := by
  constructor
  · intro hexact d hd
    refine hexact.products _ ?_
    rw [StrideCall.products, hd]
    exact List.mem_singleton_self _
  · intro hfit
    refine ⟨fun x hx => ?_, ?_⟩
    · rw [StrideCall.products, Option.mem_toList, Option.map_eq_some_iff] at hx
      obtain ⟨d, hd, rfl⟩ := hx
      exact hfit d hd
    · rw [unsqueeze_dims h, StrideCall.dims]
      cases hd : t.sizesAndStrides[dim]? with
      | none => rfl
      | some d =>
          rw [Option.map_some, Option.map_some, Option.getD_some, Option.getD_some,
            wrapI64_eq_self (hfit d hd)]

theorem packed_exact_iff {call : StrideCall} (hcall : call = .clone ∨ call = .toCpu)
    (h : r.sizesAndStrides = contiguousDims t.sizes) :
    call.Exact t r ↔ call.StridesFit t := by
  have hdims : call.dims t = canonicalDims t.sizes := by
    rcases hcall with rfl | rfl <;> rfl
  have hproducts : call.products t r = r.sizesAndStrides.tail.map fun d => d.stride * d.size := by
    rcases hcall with rfl | rfl <;> rfl
  have hfit : call.StridesFit t ↔ TrailingFit t.sizes.tail := by
    rw [← trailingFit_behindEmpty]
    rcases hcall with rfl | rfl <;> exact Iff.rfl
  rw [hfit]
  constructor
  · intro hexact
    have hcanonical := hexact.strides
    rw [hdims, h] at hcanonical
    exact contiguousDims_eq_canonical_iff.1 hcanonical
  · intro htrailing
    have hcanonical := contiguousDims_eq_canonical htrailing
    refine ⟨?_, by rw [h, hdims, hcanonical]⟩
    rw [hproducts, h, hcanonical, canonicalDims_tail]
    exact List.forall_mem_map.2 (canonicalDims_products.2 htrailing)

end Calls

section Nonempty

variable {S : SimdTarget T} {t : TensorImpl T} {dims : List Dim}

/-- Sizes and strides are 64-bit values. -/
def Int64Dims (dims : List Dim) : Prop := ∀ d ∈ dims, InInt64 d.size ∧ InInt64 d.stride

/-- A 64-bit value whose unsigned value is small is not negative. -/
theorem cast_toU64 {x : Int} (h : InInt64 x) (hle : (toU64 x : Int) ≤ int64Max) :
    (toU64 x : Int) = x := by
  obtain ⟨hlo, hhi⟩ := h
  unfold int64Min at hlo
  unfold int64Max at hhi hle
  unfold toU64 at hle ⊢
  omega

/-- The sizes of a countable shape multiply without overflow. -/
theorem trailingFit_of_count (hint : Int64Dims dims) (hne : elementCount dims ≠ 0)
    (hle : (elementCount dims : Int) ≤ int64Max) :
    (dims.map Dim.size).prod = elementCount dims ∧ TrailingFit (dims.map Dim.size) := by
  induction dims with
  | nil => exact ⟨rfl, trailingFit_nil⟩
  | cons d dims ih =>
      obtain ⟨⟨hd, -⟩, hrest⟩ := List.forall_mem_cons.1 hint
      rw [elementCount_cons] at hne hle
      obtain ⟨hsize, hcount⟩ := Nat.mul_ne_zero_iff.1 hne
      have hsize' : (toU64 d.size : Int) ≤ int64Max := le_trans
        (Int.ofNat_le.2 (Nat.le_mul_of_pos_right _ (Nat.pos_of_ne_zero hcount))) hle
      have hcount' : (elementCount dims : Int) ≤ int64Max := le_trans
        (Int.ofNat_le.2 (Nat.le_mul_of_pos_left _ (Nat.pos_of_ne_zero hsize))) hle
      obtain ⟨hprod, hfit⟩ := ih hrest hcount hcount'
      have hall : d.size * (dims.map Dim.size).prod =
          ((toU64 d.size * elementCount dims : Nat) : Int) := by
        rw [hprod, Nat.cast_mul, cast_toU64 hd hsize']
      rw [List.map_cons, List.prod_cons, elementCount_cons, trailingFit_cons, hall]
      exact ⟨rfl, ⟨le_trans (by decide) (Int.natCast_nonneg _), hle⟩, hfit⟩

/-- In a packed layout every dimension of more than one element spans at most all of the
elements. -/
theorem span_of_contiguousLoop {e : Nat} (he : 0 < e)
    (hint : Int64Dims dims) (hpos : ∀ d ∈ dims, toU64 d.size ≠ 0)
    (hroom : ((e * elementCount dims : Nat) : Int) ≤ int64Max)
    (h : contiguousLoop dims e = true) : ∀ d ∈ dims, InInt64 (d.size * d.stride) := by
  induction dims generalizing e with
  | nil => exact fun d hd => by cases hd
  | cons d dims ih =>
      obtain ⟨⟨hd, hstride64⟩, hrest⟩ := List.forall_mem_cons.1 hint
      obtain ⟨hsize, hsizes⟩ := List.forall_mem_cons.1 hpos
      have hcount : 0 < elementCount dims := by
        refine Nat.pos_of_ne_zero fun hzero => ?_
        obtain ⟨b, hb, hzero⟩ := List.mem_map.1 (List.prod_eq_zero_iff.1 hzero)
        exact hsizes b hb hzero
      rw [elementCount_cons, ← Nat.mul_assoc] at hroom
      rcases contiguousLoop_cons h with ⟨hone, h⟩ | ⟨-, hstride, h⟩
      · have hunit : toU64 d.size = 1 := by
          rw [hone]
          rfl
        rw [hunit, Nat.mul_one] at hroom
        refine List.forall_mem_cons.2 ⟨?_, ih he hrest hsizes hroom h⟩
        rwa [hone, Int.one_mul]
      · have hspan : ((e * toU64 d.size : Nat) : Int) ≤ int64Max := le_trans
          (Int.ofNat_le.2 (Nat.le_mul_of_pos_right _ hcount)) hroom
        have hsize' : (toU64 d.size : Int) ≤ int64Max := le_trans
          (Int.ofNat_le.2 (Nat.le_mul_of_pos_left _ he)) hspan
        have hprod : (e : Int) * d.size = ((e * toU64 d.size : Nat) : Int) := by
          rw [Nat.cast_mul, cast_toU64 hd hsize']
        have hfit : InInt64 ((e * toU64 d.size : Nat) : Int) :=
          ⟨le_trans (by decide) (Int.natCast_nonneg _), hspan⟩
        rw [hprod, wrapI64_eq_self hfit] at h
        refine List.forall_mem_cons.2 ⟨?_, ih (Nat.mul_pos he (Nat.pos_of_ne_zero hsize))
          hrest hsizes hroom h⟩
        rwa [hstride, Int.mul_comm, hprod]

/-- A dimension of two elements or more has no stride beyond the extent. -/
theorem span_of_extent (hint : Int64Dims dims) (hpos : ∀ d ∈ dims, toU64 d.size ≠ 0)
    (hroom : extent (unsignedAxes dims) < 2 ^ 62) : ∀ d ∈ dims, InInt64 (d.size * d.stride) := by
  intro d hd
  obtain ⟨hsize, hstride⟩ := hint d hd
  have hspan : (toU64 d.size - 1) * toU64 d.stride ≤ extent (unsignedAxes dims) :=
    span_le_extent (a := d.unsigned) (List.mem_map_of_mem hd)
  obtain ⟨k, hk⟩ := Nat.exists_eq_succ_of_ne_zero (hpos d hd)
  rw [hk, Nat.succ_sub_one] at hspan
  rcases Nat.eq_zero_or_pos k with rfl | hkpos
  · have hone : d.size = 1 := by
      rw [← cast_toU64 hsize (by rw [hk]; decide), hk]
      rfl
    rwa [hone, Int.one_mul]
  · have hle : toU64 d.stride < 2 ^ 62 :=
      lt_of_le_of_lt (Nat.le_mul_of_pos_left _ hkpos) (lt_of_le_of_lt hspan hroom)
    have hs := cast_toU64 hstride (by unfold int64Max; omega)
    rcases Nat.eq_zero_or_pos (toU64 d.stride) with hzero | hspos
    · rw [← hs, hzero, Nat.cast_zero, Int.mul_zero]
      decide
    · have hkle : k < 2 ^ 62 :=
        lt_of_le_of_lt (Nat.le_mul_of_pos_right _ hspos) (lt_of_le_of_lt hspan hroom)
      have hn := cast_toU64 hsize (by unfold int64Max; omega)
      have hprod : d.size * d.stride = ((k * toU64 d.stride + toU64 d.stride : Nat) : Int) := by
        rw [← Nat.succ_mul, ← hk, Nat.cast_mul, hn, hs]
      rw [hprod]
      refine ⟨le_trans (by decide) (Int.natCast_nonneg _), ?_⟩
      unfold int64Max
      omega

end Nonempty

section Reachable

variable {b : Build T} {c : Codec α T.size} {subview : Subview T} {t r : TensorImpl T}

/-- The representation invariant, or no dimensions, as a moved-from tensor has none. -/
def TensorImpl.Tracked (S : SimdTarget T) (t : TensorImpl T) : Prop :=
  t.Windowed S ∨ t.rank = 0

theorem stampContiguousShape_rank {S : SimdTarget T} {o : TensorImpl T} (h : t.rank = 0) :
    (stampContiguousShape S o t).rank = 0 := by
  have hdims : t.sizesAndStrides = [] := List.length_eq_zero_iff.1 h
  rw [stampContiguousShape, TensorImpl.rank, TensorImpl.recompute_sizesAndStrides,
    TensorImpl.sizes, hdims]
  rfl

theorem shareFrom_rank {S : SimdTarget T} (h : t.rank = 0) : (shareFrom S t).rank = 0 := by
  rw [shareFrom, TensorImpl.rank, TensorImpl.recompute_sizesAndStrides]
  exact h

theorem clone_rank {m m' : Memory} (ht : t.rank = 0) (h : clone b.simd b.heap c t m = .ok r m') :
    r.rank = 0 := by
  obtain ⟨o, -, rfl⟩ := clone_ok h
  exact stampContiguousShape_rank ht

/-- What is made from a tensor without dimensions has none or is checked. -/
theorem Derive.eval_tracked {d : Derive} {m m' : Memory} (ht : t.Tracked b.simd)
    (h : d.eval b c subview t m = .ok r m') : r.Tracked b.simd := by
  rcases ht with ht | ht
  · exact Or.inl (Derive.eval_windowed ht h)
  · cases d with
    | view op =>
        obtain ⟨view, dims, hretain⟩ := ViewOp.apply_retain (raising_ok.1 h).1
        exact Or.inl (retain_windowed hretain)
    | copy isView =>
        rw [eval, copyConstruct] at h
        split at h
        · cases h
          exact Or.inr (shareFrom_rank ht)
        · exact Or.inr (clone_rank ht h)
    | clone => exact Or.inr (clone_rank ht h)
    | contiguous =>
        rw [eval, makeContiguous] at h
        split at h
        · cases h
          exact Or.inr (shareFrom_rank ht)
        · obtain ⟨packed, s, hclone, h⟩ := bind_ok.1 h
          cases h
          exact Or.inr (shareFrom_rank (clone_rank ht hclone))
    | toCpu =>
        obtain ⟨o, -, rfl⟩ := toCpu_ok h
        exact Or.inr (stampContiguousShape_rank ht)
    | reshape newDims => exact Or.inl (reshape_windowed h)
    | flatten => exact Or.inl (reshape_windowed h)

theorem established_tracked (b : Build T) (c : Codec α T.size) (subview : Subview T) :
    Established b c subview (TensorImpl.Tracked b.simd) :=
  ⟨fun h => Or.inl (Construct.eval_windowed h), Derive.eval_tracked⟩

/-- The products of a non-empty tensor do not overflow, wherever its elements are. -/
theorem TensorImpl.Tracked.spans_fit {S : SimdTarget T} (h : t.Tracked S) (hne : t.numel ≠ 0)
    (hroom : t.view.size ≤ 2 ^ 62) (hint : Int64Dims t.sizesAndStrides) :
    ∀ d ∈ t.sizesAndStrides, InInt64 (d.size * d.stride) := by
  by_cases hrank : t.rank = 0
  · have hdims : t.sizesAndStrides = [] := List.length_eq_zero_iff.1 hrank
    rw [hdims]
    exact fun d hd => by cases hd
  · have hw : t.Windowed S := h.resolve_right hrank
    have hcount : elementCount t.sizesAndStrides ≠ 0 := hw.numel_eq ▸ hne
    have hpos := size_ne_zero_of_numel hcount
    cases hcontig : t.contiguous with
    | false => exact span_of_extent hint hpos (lt_of_lt_of_le (hw.extent_lt hcontig) hroom)
    | true =>
        have hloop : contiguousLoop t.sizesAndStrides.reverse 1 = true := by
          rw [← hcontig, hw.cached.contiguous_eq hrank, if_neg hne]
        have hfit : ((1 * elementCount t.sizesAndStrides.reverse : Nat) : Int) ≤ int64Max := by
          have := hw.flat hcontig
          rw [Nat.one_mul, elementCount_perm (List.reverse_perm _), ← hw.numel_eq]
          unfold int64Max
          omega
        intro d hd
        exact span_of_contiguousLoop Nat.one_pos (fun b hb => hint b (List.mem_reverse.1 hb))
          (fun b hb => hpos b (List.mem_reverse.1 hb)) hfit hloop d (List.mem_reverse.2 hd)

theorem TensorImpl.Tracked.sizes_fit {S : SimdTarget T} (h : t.Tracked S) (hne : t.numel ≠ 0)
    (hle : (t.numel : Int) ≤ int64Max) (hint : Int64Dims t.sizesAndStrides) :
    TrailingFit (behindEmpty t.sizes.tail) := by
  rw [trailingFit_behindEmpty]
  by_cases hrank : t.rank = 0
  · have hdims : t.sizesAndStrides = [] := List.length_eq_zero_iff.1 hrank
    rw [TensorImpl.sizes, hdims]
    exact trailingFit_nil
  · have hcount := (h.resolve_right hrank).numel_eq
    rw [hcount] at hne hle
    exact (trailingFit_of_count hint hne hle).2.tail

/-- In every program, the strides that a call on a living tensor computes are exact exactly
when they fit, which those of a non-empty tensor do. -/
theorem strideCall_exact_iff {m : Memory} {ops : List (TensorOp T α)} {id : Nat}
    (ht : (runTensorOps b c subview ⟨m, fun _ => none⟩ ops).objects id = some t)
    {call : StrideCall} {m₁ m₂ : Memory}
    (hcall : call.derive.eval b c subview t m₁ = .ok r m₂) :
    (call.Exact t r ↔ call.StridesFit t) ∧
      (t.numel ≠ 0 → t.view.size ≤ 2 ^ 62 → Int64Dims t.sizesAndStrides →
        call.StridesFit t) := by
  have htracked : t.Tracked b.simd := (established_tracked b c subview).run
    (fun _ _ hnone => by cases hnone) (Or.inr fun _ => Or.inr rfl) id t ht
  cases call with
  | unsqueeze dim =>
      refine ⟨unsqueeze_exact_iff (raising_ok.1 hcall).1, fun hne hroom hint d hd => ?_⟩
      exact htracked.spans_fit hne hroom hint d (List.mem_of_getElem? hd)
  | clone =>
      obtain ⟨o, ho, rfl⟩ := clone_ok hcall
      refine ⟨packed_exact_iff (Or.inl rfl) ?_, fun hne _ hint => ?_⟩
      · rw [stampContiguousShape, TensorImpl.recompute_sizesAndStrides]
      · exact htracked.sizes_fit hne (makeOwner_ok ho).1 hint
  | toCpu =>
      obtain ⟨o, ho, rfl⟩ := toCpu_ok hcall
      refine ⟨packed_exact_iff (Or.inr rfl) ?_, fun hne _ hint => ?_⟩
      · rw [stampContiguousShape, TensorImpl.recompute_sizesAndStrides]
      · exact htracked.sizes_fit hne (makeOwner_ok ho).1 hint

end Reachable

namespace StrideWitness

open Sample TensorRunWitness

/-- A copy of every other column of a matrix has canonical strides. -/
theorem strideCall_exact_columns : ∃ t r m,
    (runFrom (columns.take 2)).objects 1 = some t ∧
    StrideCall.clone.derive.eval build (Codec.bytes 4) windowAt t (fun _ => 0) = .ok r m ∧
    StrideCall.clone.Exact t r := by
  obtain ⟨t, r, m, ht, hcall, hne, hroom, hint⟩ : ∃ t r m,
      (runFrom (columns.take 2)).objects 1 = some t ∧
      StrideCall.clone.derive.eval build (Codec.bytes 4) windowAt t (fun _ => 0) = .ok r m ∧
      t.numel ≠ 0 ∧ t.view.size ≤ 2 ^ 62 ∧
      (∀ d ∈ t.sizesAndStrides, InInt64 d.size ∧ InInt64 d.stride) :=
    ⟨_, _, _, rfl, rfl, by decide, by decide, by decide⟩
  obtain ⟨hexact, hfit⟩ := strideCall_exact_iff ht hcall
  exact ⟨t, r, m, ht, hcall, hexact.2 (hfit hne hroom hint)⟩

/-- An empty tensor with expanded dimensions, and an empty view with long strides. -/
def emptyOps : List (TensorOp float (Fin 4 → UInt8)) :=
  [.construct 0 (.shaped [0, 1, 1, 1] .cpu 0),
    .derive 1 0 (.view (.expand [0, 2 ^ 32, 2 ^ 32, 2])),
    .construct 2 (.fromStrided ⟨4096, 0, .cpu, 0⟩ [0, 2 ^ 32] [1, 2 ^ 32])]

/-- The copy of the one and an inserted dimension of the other get stride zero where the
mathematical strides are `2 ^ 65` and `2 ^ 64`. -/
theorem strideCall_exact_empty :
    (¬ ∀ t r m, (runFrom emptyOps).objects 1 = some t →
      StrideCall.clone.derive.eval build (Codec.bytes 4) windowAt t (fun _ => 0) = .ok r m →
      StrideCall.clone.Exact t r) ∧
    ¬ ∀ t r m, (runFrom emptyOps).objects 2 = some t →
      (StrideCall.unsqueeze 1).derive.eval build (Codec.bytes 4) windowAt t (fun _ => 0) =
        .ok r m →
      (StrideCall.unsqueeze 1).Exact t r := by
  constructor
  · intro h
    exact absurd (h _ _ _ rfl rfl).strides (by decide)
  · intro h
    exact absurd (h _ _ _ rfl rfl).strides (by decide)

end StrideWitness

end Vectorization
