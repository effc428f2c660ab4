/-
The constructors of `tensor_impl` and the tensors it derives from others: packed
copies, retaining views and reshapes.  An owner built over borrowed memory is a
packed copy of what it was built over.
-/
import Vectorization.ViewOperations
import Vectorization.Assignment

namespace Vectorization

open MachineInteger ByteMemory AtomicRun

variable {T : ElementType} {α : Type}

/-- `data_view{}`. -/
def DataView.empty : DataView T := ⟨0, 0, .cpu, 0⟩

/-- What a retained allocation reports: base, offset of the data and count. -/
structure Retained where
  base : Nat
  offset : Nat
  count : Nat
  device : DeviceEnum
  deviceIndex : Int
deriving Repr, DecidableEq

namespace Retained

/-- `view_from_retained`. -/
def view (subview : Subview T) (s : Retained) : DataView T :=
  let full : DataView T := ⟨s.base, s.offset + s.count, s.device, s.deviceIndex⟩
  if s.offset = 0 then full else subview full s.offset s.count

end Retained

/-- The constructors that take no tensor.  Those that fill an owner from a list or a
range delegate to `sized` or `matrix` and then store elements. -/
inductive Construct (T : ElementType) (α : Type)
  | default (isView : Bool)
  | fromView (isView : Bool) (view : DataView T) (dims : List Nat)
  /-- An allocation that is handed over. -/
  | fromOwner (isView : Bool) (owner : DataView T) (dims : List Nat)
  | fromRetained (isView : Bool) (storage : Retained) (dims : List Nat)
  | fromStrided (view : DataView T) (dims : List Nat) (strides : List Int)
  | sized (n : Nat) (device : DeviceEnum) (index : Int)
  | fromPointer (isView : Bool) (ptr n : Nat) (device : DeviceEnum) (index : Int)
  | fromMatrixPointer (isView : Bool) (ptr rows cols : Nat) (device : DeviceEnum)
      (index : Int)
  | matrix (rows cols : Nat) (device : DeviceEnum) (index : Int)
  | shaped (dims : List Nat) (device : DeviceEnum) (index : Int)
  | fromArray (isView : Bool) (data : Nat) (dims : List Nat) (device : DeviceEnum)
      (index : Int)
  | fromExpression (e : Expr (Leaf T) α)

section Constructors

variable (b : Build T) (c : Codec α T.size) (subview : Subview T)

/-- `*this = clone()` in the constructors of an owner over borrowed memory. -/
def ownCopy (t : TensorImpl T) : EStateM Raise Memory (TensorImpl T) :=
  if t.isView then pure t else clone b.simd b.heap c t

def constructFromView (isView : Bool) (view : DataView T) (dims : List Nat) :
    Except Raise (TensorImpl T) := do
  let total ← computeTotal dims
  if view.size < total then throw .viewStorage
  let shape ← setShape dims
  return TensorImpl.recompute b.simd (.bare isView view shape)

def constructFromOwner (isView : Bool) (owner : DataView T) (dims : List Nat) :
    Except Raise (TensorImpl T) := do
  let total ← computeTotal dims
  if owner.size < total then throw .ownerStorage
  let shape ← setShape dims
  return TensorImpl.recompute b.simd (.bare isView owner shape)

def constructFromRetained (isView : Bool) (storage : Retained) (dims : List Nat) :
    Except Raise (TensorImpl T) := do
  let shape ← setShape dims
  retain b.simd isView (storage.view subview) shape

def constructFromStrided (view : DataView T) (dims : List Nat) (strides : List Int) :
    Except Raise (TensorImpl T) := do
  if dims.length ≠ strides.length then throw .stridesRank
  let shape ← setShape dims
  if strides.any (· < 0) then throw .stridesNegative
  retain b.simd true view (List.zipWith (fun d stride => ⟨d.size, stride⟩) shape strides)

def constructFromPointer (isView : Bool) (ptr n : Nat) (device : DeviceEnum) (index : Int) :
    Except Raise (TensorImpl T) := do
  let size ← checkedDimensionToStorage n
  return TensorImpl.recompute b.simd (.bare isView ⟨ptr, n, device, index⟩ [⟨size, 1⟩])

def constructFromMatrixPointer (isView : Bool) (ptr rows cols : Nat) (device : DeviceEnum)
    (index : Int) : Except Raise (TensorImpl T) := do
  let total ← computeTotal [rows, cols]
  let rows ← checkedDimensionToStorage rows
  let cols ← checkedDimensionToStorage cols
  return TensorImpl.recompute b.simd
    (.bare isView ⟨ptr, total, device, index⟩ [⟨rows, cols⟩, ⟨cols, 1⟩])

/-- An owner of a fresh allocation. -/
def constructShaped (dims : List Nat) (device : DeviceEnum) (index : Int) :
    Except Raise (TensorImpl T) := do
  let total ← computeTotal dims
  let base ← b.heap.allocate total device index
  constructFromOwner b false ⟨base, total, device, index⟩ dims

def constructMatrix (rows cols : Nat) (device : DeviceEnum) (index : Int) :
    Except Raise (TensorImpl T) := do
  let t ← constructShaped b [rows, cols] device index
  let rows ← checkedDimensionToStorage rows
  let cols ← checkedDimensionToStorage cols
  return TensorImpl.recompute b.simd
    { t with sizesAndStrides := [⟨rows, cols⟩, ⟨cols, 1⟩] }

def constructFromArray (isView : Bool) (data : Nat) (dims : List Nat) (device : DeviceEnum)
    (index : Int) : Except Raise (TensorImpl T) := do
  let total ← computeTotal dims
  let shape ← setShape dims
  return TensorImpl.recompute b.simd (.bare isView ⟨data, total, device, index⟩ shape)

/-- `init_from_expression`: an owner of the result shape, where the first leaf is. -/
def initFromExpression (e : Expr (Leaf T) α) : EStateM Raise Memory (TensorImpl T) := do
  let place ← raising (accumulateExpressionPlacement e none)
  let (device, index) := place.getD (.cpu, 0)
  let shape ← raising (expressionResultShape e)
  let total ← raising (computeTotal shape)
  let base ← raising (b.heap.allocate total device index)
  let dims ← raising (setShape shape)
  let t := TensorImpl.recompute b.simd (.bare false ⟨base, total, device, index⟩ dims)
  let ops ← raising (runLowered b.simd b.threads c e t)
  modify (run c ops)
  return t

def Construct.eval : Construct T α → EStateM Raise Memory (TensorImpl T)
  | default isView => pure (TensorImpl.recompute b.simd (.bare isView .empty [⟨0, 1⟩]))
  | fromView isView view dims => do
      ownCopy b c (← raising (constructFromView b isView view dims))
  | fromOwner isView owner dims => raising (constructFromOwner b isView owner dims)
  | fromRetained isView storage dims => do
      ownCopy b c (← raising (constructFromRetained b subview isView storage dims))
  | fromStrided view dims strides => raising (constructFromStrided b view dims strides)
  | sized n device index => raising (makeOwner b.simd b.heap n device index)
  | fromPointer isView ptr n device index => do
      ownCopy b c (← raising (constructFromPointer b isView ptr n device index))
  | fromMatrixPointer isView ptr rows cols device index => do
      ownCopy b c
        (← raising (constructFromMatrixPointer b isView ptr rows cols device index))
  | matrix rows cols device index => raising (constructMatrix b rows cols device index)
  | shaped dims device index => raising (constructShaped b dims device index)
  | fromArray isView data dims device index => do
      ownCopy b c (← raising (constructFromArray b isView data dims device index))
  | fromExpression e => initFromExpression b c e

end Constructors

/-- The tensors that are made from another one. -/
inductive Derive
  | view (op : ViewOp)
  /-- Copy construction and the constructors from the other kind of tensor. -/
  | copy (isView : Bool)
  | clone
  | contiguous
  | toCpu
  | reshape (newDims : List Nat)
  | flatten
deriving Repr, DecidableEq

section Derivation

variable (b : Build T) (c : Codec α T.size) (subview : Subview T)

/-- `share_from`: geometry and window of another tensor, with fields of its own. -/
def shareFrom (S : SimdTarget T) (rhs : TensorImpl T) : TensorImpl T :=
  TensorImpl.recompute S (.bare true rhs.view rhs.sizesAndStrides)

/-- Copy construction: a view shares, an owner takes a packed copy. -/
def copyConstruct (isView : Bool) (rhs : TensorImpl T) :
    EStateM Raise Memory (TensorImpl T) :=
  if isView then pure (shareFrom b.simd rhs) else clone b.simd b.heap c rhs

/-- `contiguous()`. -/
def makeContiguous (t : TensorImpl T) : EStateM Raise Memory (TensorImpl T) := do
  if t.contiguous then return shareFrom b.simd t
  let packed ← clone b.simd b.heap c t
  return shareFrom b.simd packed

/-- `to_cpu()`. -/
def toCpu (t : TensorImpl T) : EStateM Raise Memory (TensorImpl T) := do
  let result ← raising (makeOwner b.simd b.heap t.numel .cpu 0)
  if result.data ≠ 0 ∧ t.numel ≠ 0 then
    if t.device = .cpu then
      let pairs ← raising t.gatherLogical
      modify (run c (pairs.map (copyElement c t.data result.data)))
    else
      let packed ← raising (b.heap.copyDevice t result.data (← get))
      set packed
  return stampContiguousShape b.simd result t

/-- `reshape(new_dims)`: a view where the strides allow it, else a packed copy. -/
def reshape (newDims : List Nat) (t : TensorImpl T) :
    EStateM Raise Memory (TensorImpl T) := do
  let total ← raising (computeTotal newDims)
  if total ≠ t.numel then throw (.elementCount "reshape" newDims total t.numel)
  match ← raising (t.computeViewStrides newDims) with
  | some dims => raising (retain b.simd true t.view dims)
  | none =>
      let packed ← clone b.simd b.heap c t
      let shape ← raising (setShape newDims)
      return shareFrom b.simd
        (TensorImpl.recompute b.simd { packed with sizesAndStrides := shape })

def Derive.eval (t : TensorImpl T) : Derive → EStateM Raise Memory (TensorImpl T)
  | view op => raising (op.apply b.simd subview t)
  | copy isView => copyConstruct b c isView t
  | clone => Vectorization.clone b.simd b.heap c t
  | contiguous => makeContiguous b c t
  | toCpu => Vectorization.toCpu b c t
  | reshape newDims => Vectorization.reshape b c newDims t
  | flatten => Vectorization.reshape b c [t.numel] t

end Derivation

section Windowed

variable {b : Build T} {c : Codec α T.size} {subview : Subview T} {S : SimdTarget T}
  {t r : TensorImpl T} {m m' : Memory}

theorem TensorImpl.Windowed.count_lt (h : t.Windowed S) :
    elementCount t.sizesAndStrides < 2 ^ 64 := by
  by_cases hrank : t.rank = 0
  · have hdims : t.sizesAndStrides = [] := List.length_eq_zero_iff.1 hrank
    rw [hdims, elementCount_nil]
    norm_num
  · rw [← h.numel_eq, h.cached.numel_eq hrank, t.totalSize_eq_count]
    exact wrapU64_lt _

/-- The flags of a tensor depend on its shape and strides alone. -/
theorem TensorImpl.recompute_contiguous_congr {t' : TensorImpl T}
    (h : t.sizesAndStrides = t'.sizesAndStrides) :
    (t.recompute S).contiguous = (t'.recompute S).contiguous := by
  have hrank : t.rank = t'.rank := congrArg List.length h
  have htotal : t.totalSize = t'.totalSize := by rw [totalSize, totalSize, h]
  rw [recompute, recompute, hrank]
  split
  · rfl
  · dsimp only
    rw [h, htotal]

theorem shareFrom_windowed (h : t.Windowed S) : (shareFrom S t).Windowed S := by
  have hcontig : (shareFrom S t).contiguous = t.contiguous := by
    conv_rhs => rw [← h.cached]
    exact TensorImpl.recompute_contiguous_congr rfl
  have hnumel : (shareFrom S t).numel = t.numel :=
    (TensorImpl.recompute_numel (t := .bare true t.view t.sizesAndStrides)
      h.count_lt).trans h.numel_eq.symm
  refine ⟨TensorImpl.recompute_cached S _, ?_, fun hflat => ?_, fun hstrided => ?_⟩
  · rw [hnumel, h.numel_eq, shareFrom, TensorImpl.recompute_sizesAndStrides]
    rfl
  · rw [hnumel, shareFrom, TensorImpl.recompute_view]
    exact h.flat (hcontig ▸ hflat)
  · rw [shareFrom, TensorImpl.recompute_sizesAndStrides, TensorImpl.recompute_view]
    exact h.extent_lt (hcontig ▸ hstrided)

theorem makeOwner_ok {heap : Heap T} {n : Nat} {device : DeviceEnum} {index : Int}
    (h : makeOwner S heap n device index = .ok r) :
    (n : Int) ≤ int64Max ∧ r.view.size = n ∧ r.Windowed S := by
  rw [makeOwner] at h
  obtain ⟨base, -, h⟩ := exceptBind_ok.1 h
  split at h <;> rename_i hle
  · cases h
  · rw [Int.not_lt] at hle
    cases h
    have hle' := hle
    unfold int64Max at hle'
    have hcount : elementCount [⟨(n : Int), 1⟩] = n := by
      rw [elementCount_cons, elementCount_nil, Nat.mul_one]
      exact (toU64_natCast n).trans (wrapU64_eq_self (by omega))
    refine ⟨hle, by rw [TensorImpl.recompute_view], ?_⟩
    refine TensorImpl.windowed_of_packed [(n : Int)] rfl ?_ ?_
    · rw [hcount]
      omega
    · exact Nat.le_of_eq hcount

/-- A packed copy has the shape of its source in a window of its own. -/
theorem stampContiguousShape_windowed {o : TensorImpl T} (h : t.Windowed S)
    (ho : o.view.size = t.numel) : (stampContiguousShape S o t).Windowed S := by
  have hcount : elementCount (contiguousDims t.sizes) = elementCount t.sizesAndStrides :=
    elementCount_eq_of_sizes (contiguousDims_sizes _)
  refine TensorImpl.windowed_of_packed t.sizes rfl ?_ ?_
  · exact hcount ▸ h.count_lt
  · change elementCount (contiguousDims t.sizes) ≤ o.view.size
    rw [hcount, ho, h.numel_eq]

/-- An owner is returned as it is, whether it is filled by the host, by a copy of the heap or
not at all. -/
theorem eq_of_filled {π : Type} {p q : Prop} [Decidable p] [Decidable q] {o : TensorImpl T}
    {gather : Except Raise π} {store : π → Memory → Memory} {pack : Memory → Except Raise Memory}
    (h : (if p then
        if q then do
          let pairs ← raising gather
          modify (store pairs)
          return o
        else do
          let packed ← raising (pack (← get))
          set packed
          return o
      else return o : EStateM Raise Memory (TensorImpl T)) m = .ok r m') : r = o := by
  split at h
  · split at h
    · obtain ⟨pairs, -, h⟩ := raising_bind_ok.1 h
      obtain ⟨_, s, -, h⟩ := bind_ok.1 h
      cases h
      rfl
    · obtain ⟨m₀, s, -, h⟩ := bind_ok.1 h
      obtain ⟨packed, -, h⟩ := raising_bind_ok.1 h
      obtain ⟨_, s', -, h⟩ := bind_ok.1 h
      cases h
      rfl
  · cases h
    rfl

theorem clone_ok {heap : Heap T} (h : clone S heap c t m = .ok r m') :
    ∃ o, makeOwner S heap t.numel t.device t.deviceIndex = .ok o ∧
      r = stampContiguousShape S o t := by
  rw [clone, raising_bind_ok] at h
  obtain ⟨o, ho, h⟩ := h
  exact ⟨o, ho, eq_of_filled h⟩

theorem clone_windowed {heap : Heap T} (ht : t.Windowed S)
    (h : clone S heap c t m = .ok r m') : r.Windowed S := by
  obtain ⟨o, ho, rfl⟩ := clone_ok h
  exact stampContiguousShape_windowed ht (makeOwner_ok ho).2.1

theorem toCpu_ok (h : toCpu b c t m = .ok r m') :
    ∃ o, makeOwner b.simd b.heap t.numel .cpu 0 = .ok o ∧
      r = stampContiguousShape b.simd o t := by
  rw [toCpu, raising_bind_ok] at h
  obtain ⟨o, ho, h⟩ := h
  exact ⟨o, ho, eq_of_filled h⟩

theorem toCpu_windowed (ht : t.Windowed b.simd) (h : toCpu b c t m = .ok r m') :
    r.Windowed b.simd := by
  obtain ⟨o, ho, rfl⟩ := toCpu_ok h
  exact stampContiguousShape_windowed ht (makeOwner_ok ho).2.1

/-- A checked shape of `total` elements. -/
theorem setShape_ok {dims : List Nat} {shape : List Dim} (h : setShape dims = .ok shape) :
    shape = contiguousDims (dims.map Nat.cast) ∧ elementCount shape = dims.prod ∧
      dims.prod < 2 ^ 64 := by
  rw [setShape, exceptBind_ok] at h
  obtain ⟨total, htotal, h⟩ := h
  obtain ⟨hshape, hbound, -⟩ := makeContiguousSas_ok h
  refine ⟨hshape, ?_, (computeTotal_ok htotal).2⟩
  rw [hshape, elementCount_contiguousDims hbound]

/-- A packed object over a window with room for its shape. -/
theorem recompute_setShape_windowed {dims : List Nat} {o : TensorImpl T} {shape : List Dim}
    (h : setShape dims = .ok shape) (ho : o.sizesAndStrides = shape)
    (hle : dims.prod ≤ o.view.size) : (o.recompute S).Windowed S := by
  obtain ⟨hshape, hcount, hlt⟩ := setShape_ok h
  refine TensorImpl.windowed_of_packed _ (ho.trans hshape) ?_ ?_
  · rw [ho, hcount]
    exact hlt
  · rw [ho, hcount]
    exact hle

theorem reshape_windowed {newDims : List Nat}
    (h : reshape b c newDims t m = .ok r m') : r.Windowed b.simd := by
  rw [reshape, raising_bind_ok] at h
  obtain ⟨total, htotal, h⟩ := h
  obtain ⟨htotal, -⟩ := computeTotal_ok htotal
  dsimp only at h
  split at h <;> rename_i hcount
  · cases h
  · rw [not_not] at hcount
    obtain ⟨strides, -, h⟩ := raising_bind_ok.1 h
    cases strides with
    | some dims => exact retain_windowed (raising_ok.1 h).1
    | none =>
        obtain ⟨packed, s, hclone, h⟩ := bind_ok.1 h
        obtain ⟨shape, hshape, h⟩ := raising_bind_ok.1 h
        cases h
        obtain ⟨o, ho, rfl⟩ := clone_ok hclone
        refine shareFrom_windowed (recompute_setShape_windowed hshape rfl ?_)
        change newDims.prod ≤ (stampContiguousShape b.simd o t).view.size
        rw [stampContiguousShape, TensorImpl.recompute_view]
        change newDims.prod ≤ o.view.size
        rw [(makeOwner_ok ho).2.1, ← hcount, htotal]

/-- Whatever is made from a tensor in its window lies in its window. -/
theorem Derive.eval_windowed {d : Derive} (ht : t.Windowed b.simd)
    (h : d.eval b c subview t m = .ok r m') : r.Windowed b.simd := by
  cases d with
  | view op =>
      obtain ⟨view, dims, hretain⟩ := ViewOp.apply_retain (raising_ok.1 h).1
      exact retain_windowed hretain
  | copy isView =>
      rw [eval, copyConstruct] at h
      split at h
      · cases h
        exact shareFrom_windowed ht
      · exact clone_windowed ht h
  | clone => exact clone_windowed ht h
  | contiguous =>
      rw [eval, makeContiguous] at h
      split at h
      · cases h
        exact shareFrom_windowed ht
      · obtain ⟨packed, s, hclone, h⟩ := bind_ok.1 h
        cases h
        exact shareFrom_windowed (clone_windowed ht hclone)
  | toCpu => exact toCpu_windowed ht h
  | reshape newDims => exact reshape_windowed h
  | flatten => exact reshape_windowed h

theorem ownCopy_windowed (ht : t.Windowed b.simd) (h : ownCopy b c t m = .ok r m') :
    r.Windowed b.simd := by
  rw [ownCopy] at h
  split at h
  · cases h
    exact ht
  · exact clone_windowed ht h

/-- The shape of a matrix is packed. -/
theorem contiguousDims_matrix {rows cols : Int} (hcols : InInt64 cols) :
    contiguousDims [rows, cols] = [⟨rows, cols⟩, ⟨cols, 1⟩] := by
  rw [contiguousDims, contiguousDims, contiguousDims]
  dsimp only
  rw [Int.one_mul, wrapI64_eq_self hcols]

theorem constructFromOwner_windowed {isView : Bool} {owner : DataView T} {dims : List Nat}
    (h : constructFromOwner b isView owner dims = .ok r) :
    r.Windowed b.simd ∧ r.view = owner := by
  rw [constructFromOwner] at h
  obtain ⟨total, htotal, h⟩ := exceptBind_ok.1 h
  split at h <;> rename_i hsize
  · cases h
  · obtain ⟨shape, hshape, h⟩ := exceptBind_ok.1 h
    cases h
    refine ⟨recompute_setShape_windowed hshape rfl ?_, TensorImpl.recompute_view⟩
    rw [← (computeTotal_ok htotal).1]
    exact Nat.le_of_not_lt hsize

theorem matrix_windowed {rows cols : Nat} {rows' cols' : Int} {o : TensorImpl T}
    (hrows : checkedDimensionToStorage rows = .ok rows')
    (hcols : checkedDimensionToStorage cols = .ok cols')
    (ho : o.sizesAndStrides = [⟨rows', cols'⟩, ⟨cols', 1⟩])
    (hfit : rows * cols < 2 ^ 64) (hle : rows * cols ≤ o.view.size) :
    (o.recompute S).Windowed S := by
  obtain ⟨rfl, hr⟩ := checkedDimensionToStorage_ok hrows
  obtain ⟨rfl, hc⟩ := checkedDimensionToStorage_ok hcols
  have hcols64 : InInt64 (cols : Int) :=
    ⟨le_trans (by decide) (Int.natCast_nonneg cols), hc⟩
  have hcount : elementCount o.sizesAndStrides = rows * cols := by
    unfold int64Max at hr hc
    rw [ho, elementCount_cons, elementCount_cons, elementCount_nil, Nat.mul_one,
      toU64_natCast, toU64_natCast, wrapU64_eq_self (by omega), wrapU64_eq_self (by omega)]
  refine TensorImpl.windowed_of_packed [(rows : Int), cols] ?_ ?_ ?_
  · rw [ho, contiguousDims_matrix hcols64]
  · rw [hcount]
    exact hfit
  · rw [hcount]
    exact hle

theorem constructShaped_windowed {dims : List Nat} {device : DeviceEnum} {index : Int}
    (h : constructShaped b dims device index = .ok r) :
    r.Windowed b.simd ∧ r.view.size = dims.prod ∧ dims.prod < 2 ^ 64 := by
  rw [constructShaped] at h
  obtain ⟨total, htotal, h⟩ := exceptBind_ok.1 h
  obtain ⟨base, -, h⟩ := exceptBind_ok.1 h
  obtain ⟨hwindowed, hview⟩ := constructFromOwner_windowed h
  obtain ⟨rfl, hlt⟩ := computeTotal_ok htotal
  exact ⟨hwindowed, by rw [hview], hlt⟩

/-- Every constructor that returns leaves the invariant in force. -/
theorem Construct.eval_windowed {k : Construct T α} (h : k.eval b c subview m = .ok r m') :
    r.Windowed b.simd := by
  cases k with
  | default isView =>
      cases h
      exact TensorImpl.windowed_of_packed [0] rfl
        (show elementCount [⟨0, 1⟩] < 2 ^ 64 by decide)
        (show elementCount [⟨0, 1⟩] ≤ 0 by decide)
  | fromView isView view dims =>
      obtain ⟨t, ht, h⟩ := raising_bind_ok.1 h
      refine ownCopy_windowed ?_ h
      rw [constructFromView] at ht
      obtain ⟨total, htotal, ht⟩ := exceptBind_ok.1 ht
      split at ht <;> rename_i hsize
      · cases ht
      · obtain ⟨shape, hshape, ht⟩ := exceptBind_ok.1 ht
        cases ht
        refine recompute_setShape_windowed hshape rfl ?_
        rw [← (computeTotal_ok htotal).1]
        exact Nat.le_of_not_lt hsize
  | fromOwner isView owner dims => exact (constructFromOwner_windowed (raising_ok.1 h).1).1
  | fromRetained isView storage dims =>
      obtain ⟨t, ht, h⟩ := raising_bind_ok.1 h
      obtain ⟨shape, -, ht⟩ := exceptBind_ok.1 ht
      exact ownCopy_windowed (retain_windowed ht) h
  | fromStrided view dims strides =>
      have h := (raising_ok.1 h).1
      rw [constructFromStrided] at h
      split at h
      · cases h
      · obtain ⟨shape, -, h⟩ := exceptBind_ok.1 h
        split at h
        · cases h
        · exact retain_windowed h
  | sized n device index => exact (makeOwner_ok (raising_ok.1 h).1).2.2
  | fromPointer isView ptr n device index =>
      obtain ⟨t, ht, h⟩ := raising_bind_ok.1 h
      refine ownCopy_windowed ?_ h
      obtain ⟨size, hsize, ht⟩ := exceptBind_ok.1 ht
      obtain ⟨rfl, hle⟩ := checkedDimensionToStorage_ok hsize
      cases ht
      unfold int64Max at hle
      have hcount : elementCount [⟨(n : Int), 1⟩] = n := by
        rw [elementCount_cons, elementCount_nil, Nat.mul_one]
        exact (toU64_natCast n).trans (wrapU64_eq_self (by omega))
      refine TensorImpl.windowed_of_packed [(n : Int)] rfl ?_ ?_
      · change elementCount [⟨(n : Int), 1⟩] < _
        omega
      · exact Nat.le_of_eq hcount
  | fromMatrixPointer isView ptr rows cols device index =>
      obtain ⟨t, ht, h⟩ := raising_bind_ok.1 h
      refine ownCopy_windowed ?_ h
      obtain ⟨total, htotal, ht⟩ := exceptBind_ok.1 ht
      obtain ⟨rows', hrows, ht⟩ := exceptBind_ok.1 ht
      obtain ⟨cols', hcols, ht⟩ := exceptBind_ok.1 ht
      cases ht
      obtain ⟨rfl, hlt⟩ := computeTotal_ok htotal
      rw [List.prod_cons, List.prod_singleton] at hlt
      refine matrix_windowed hrows hcols rfl hlt ?_
      change rows * cols ≤ [rows, cols].prod
      rw [List.prod_cons, List.prod_singleton]
  | matrix rows cols device index =>
      obtain ⟨t, ht, h⟩ := exceptBind_ok.1 (raising_ok.1 h).1
      obtain ⟨rows', hrows, h⟩ := exceptBind_ok.1 h
      obtain ⟨cols', hcols, h⟩ := exceptBind_ok.1 h
      cases h
      obtain ⟨-, hsize, hlt⟩ := constructShaped_windowed ht
      rw [List.prod_cons, List.prod_singleton] at hlt hsize
      exact matrix_windowed hrows hcols rfl hlt (Nat.le_of_eq hsize.symm)
  | shaped dims device index => exact (constructShaped_windowed (raising_ok.1 h).1).1
  | fromArray isView data dims device index =>
      obtain ⟨t, ht, h⟩ := raising_bind_ok.1 h
      refine ownCopy_windowed ?_ h
      obtain ⟨total, htotal, ht⟩ := exceptBind_ok.1 ht
      obtain ⟨shape, hshape, ht⟩ := exceptBind_ok.1 ht
      cases ht
      exact recompute_setShape_windowed hshape rfl (Nat.le_of_eq (computeTotal_ok htotal).1.symm)
  | fromExpression e =>
      rw [eval, initFromExpression, raising_bind_ok] at h
      obtain ⟨place, -, h⟩ := h
      dsimp only at h
      obtain ⟨shape, -, h⟩ := raising_bind_ok.1 h
      obtain ⟨total, htotal, h⟩ := raising_bind_ok.1 h
      obtain ⟨base, -, h⟩ := raising_bind_ok.1 h
      obtain ⟨dims, hdims, h⟩ := raising_bind_ok.1 h
      obtain ⟨ops, -, h⟩ := raising_bind_ok.1 h
      obtain ⟨_, s, -, h⟩ := bind_ok.1 h
      cases h
      exact recompute_setShape_windowed hdims rfl (Nat.le_of_eq (computeTotal_ok htotal).1.symm)

end Windowed

end Vectorization
