/-
The view operations of `tensor_impl`: each computes sizes, strides and a window
from those of its source and hands them to the retaining constructor, which
checks them.
-/
import Vectorization.Geometry

namespace Vectorization

open MachineInteger AtomicRun

variable {T : ElementType}

/-- `data_view::subview` of the memory library, outside the repository. -/
abbrev Subview (T : ElementType) := DataView T → (offset count : Nat) → DataView T

/-- A subview inside its view starts `offset` elements on and keeps the placement. -/
def SubviewInRange (subview : Subview T) : Prop :=
  ∀ v offset count, offset + count ≤ v.size →
    subview v offset count = ⟨v.data + offset * T.size, count, v.device, v.deviceIndex⟩

/-- The loop of `permute` from the axes seen so far on. -/
def permuteLoop (dims : List Dim) : (seen order : List Nat) → Except Raise (List Dim)
  | _, [] => .ok []
  | seen, src :: order =>
      match dims[src]? with
      | none => .error .permuteRange
      | some d =>
          if src ∈ seen then .error .permuteRepeated
          else do
            let rest ← permuteLoop dims (seen ++ [src]) order
            return d :: rest

/-- The loop of `expand` over the dimensions that have a source, from `j` on. -/
def expandLoop : (j : Nat) → List Dim → List Nat → Except Raise (List Dim)
  | j, d :: dims, n :: newDims => do
      let target ← checkedDimensionToStorage n
      if d.size = target ∨ d.size = 1 then
        let rest ← expandLoop (j + 1) dims newDims
        return ⟨target, if d.size = target then d.stride else 0⟩ :: rest
      else throw (.expandDimension j d.size target)
  | _, _, _ => .ok []

/-- The clamp of `slice`. -/
def sliceClamp (dimSize v : Int) : Int :=
  min (max (if v < 0 then wrapI64 (v + dimSize) else v) 0) dimSize

def sliceFirst (dimSize : Int) (start : Option Int) : Int :=
  sliceClamp dimSize (start.getD 0)

def sliceLast (dimSize : Int) (stop : Option Int) : Int :=
  sliceClamp dimSize (stop.getD dimSize)

/-- The new size of `slice`; the sum of the numerator wraps. -/
def sliceSize (first last step : Int) : Int :=
  if first < last then (wrapI64 (last - first + step - 1)).tdiv step else 0

/-- The inner loop of `compute_view_strides`: new dimensions, innermost first,
until their product reaches that of the chunk. -/
def viewChunk (base tensorNumel : Int) : List Int → (viewNumel : Int) →
    List Dim × List Int × Int
  | [], viewNumel => ([], [], viewNumel)
  | n :: sizes, viewNumel =>
      if viewNumel < tensorNumel ∨ n = 1 then
        let r := viewChunk base tensorNumel sizes (wrapI64 (viewNumel * n))
        (⟨n, wrapI64 (viewNumel * base)⟩ :: r.1, r.2)
      else ([], n :: sizes, viewNumel)

/-- Whether the chunk ends before the next dimension outwards. -/
def chunkEnds (base tensorNumel : Int) : List Dim → Bool
  | [] => true
  | d :: _ => decide (d.size ≠ 1 ∧ d.stride ≠ wrapI64 (tensorNumel * base))

/-- The chunk loop of `compute_view_strides`: old dimensions and new sizes,
innermost first. -/
def viewStridesLoop : (dims : List Dim) → (base tensorNumel : Int) → (sizes : List Int) →
    Option (List Dim)
  | [], _, _, sizes => if sizes = [] then some [] else none
  | d :: dims, base, tensorNumel, sizes =>
      let tensorNumel := wrapI64 (tensorNumel * d.size)
      if chunkEnds base tensorNumel dims then
        let chunk := viewChunk base tensorNumel sizes 1
        if chunk.2.2 ≠ tensorNumel then none
        else
          let nextBase := (dims.head?.map Dim.stride).getD base
          (viewStridesLoop dims nextBase 1 chunk.2.1).map (chunk.1 ++ ·)
      else viewStridesLoop dims base tensorNumel sizes

namespace TensorImpl

variable (S : SimdTarget T) (subview : Subview T) (tensor : TensorImpl T)

/-- `as_view()` of a tensor that is not const. -/
def asView : Except Raise (TensorImpl T) :=
  retain S true tensor.view tensor.sizesAndStrides

/-- `t()`. -/
def t : Except Raise (TensorImpl T) :=
  match tensor.sizesAndStrides with
  | [d₀, d₁] => retain S true tensor.view [d₁, d₀]
  | _ => .error .transposeRank

def permute (order : List Nat) : Except Raise (TensorImpl T) := do
  if order.length ≠ tensor.rank then throw .permuteLength
  let dims ← permuteLoop tensor.sizesAndStrides [] order
  retain S true tensor.view dims

/-- `compute_view_strides`; none where no strides exist. -/
def computeViewStrides (newDims : List Nat) : Except Raise (Option (List Dim)) := do
  let sizes ← newDims.mapM checkedDimensionToStorage
  if tensor.numel = 0 ∨ tensor.rank = 0 ∨ tensor.contiguous then
    return some (← makeContiguousSas newDims)
  else
    match tensor.sizesAndStrides.reverse with
    | [] => return none
    | d :: dims =>
        return (viewStridesLoop (d :: dims) d.stride 1 sizes.reverse).map List.reverse

/-- `view(new_dims)`. -/
def viewAs (newDims : List Nat) : Except Raise (TensorImpl T) := do
  let total ← computeTotal newDims
  if total ≠ tensor.numel then throw (.elementCount "view" newDims total tensor.numel)
  match ← tensor.computeViewStrides newDims with
  | none => throw (.viewStrides newDims)
  | some dims => retain S true tensor.view dims

def expand (newDims : List Nat) : Except Raise (TensorImpl T) := do
  if newDims.length < tensor.rank then throw (.expandRank newDims.length tensor.rank)
  let missing := newDims.length - tensor.rank
  let lead ← (newDims.take missing).mapM checkedDimensionToStorage
  let rest ← expandLoop 0 tensor.sizesAndStrides (newDims.drop missing)
  retain S true tensor.view (lead.map (⟨·, 0⟩) ++ rest)

def broadcastTo (newDims : List Nat) : Except Raise (TensorImpl T) :=
  tensor.expand S newDims

def squeeze : Except Raise (TensorImpl T) :=
  retain S true tensor.view (tensor.sizesAndStrides.filter fun d => d.size ≠ 1)

def squeezeDim (dim : Nat) : Except Raise (TensorImpl T) :=
  match tensor.sizesAndStrides[dim]? with
  | none => .error (.dimRange "squeeze" dim tensor.rank)
  | some d =>
      if d.size ≠ 1 then retain S true tensor.view tensor.sizesAndStrides
      else retain S true tensor.view (tensor.sizesAndStrides.eraseIdx dim)

def unsqueeze (dim : Nat) : Except Raise (TensorImpl T) :=
  if tensor.rank < dim then .error (.dimRange "unsqueeze" dim tensor.rank)
  else
    let stride :=
      match tensor.sizesAndStrides[dim]? with
      | some d => wrapI64 (d.size * d.stride)
      | none => 1
    retain S true tensor.view (tensor.sizesAndStrides.insertIdx dim ⟨1, stride⟩)

def slice (dim : Nat) (start stop : Option Int) (step : Int) :
    Except Raise (TensorImpl T) :=
  match tensor.sizesAndStrides[dim]? with
  | none => .error (.dimRange "slice" dim tensor.rank)
  | some d =>
      if step < 1 then .error (.sliceStep step)
      else
        let first := sliceFirst d.size start
        let newSize := sliceSize first (sliceLast d.size stop) step
        let offset := wrapU64 (toU64 first * toU64 d.stride)
        let storageSize := tensor.view.size - offset
        -- an empty slice keeps the window of its source
        let view :=
          if storageSize = 0 then tensor.view else subview tensor.view offset storageSize
        retain S true view
          (tensor.sizesAndStrides.set dim ⟨newSize, wrapI64 (d.stride * step)⟩)

end TensorImpl

/-- The view operations with their arguments. -/
inductive ViewOp
  | asView
  | t
  | permute (order : List Nat)
  | view (newDims : List Nat)
  | expand (newDims : List Nat)
  | broadcastTo (newDims : List Nat)
  | squeeze
  | squeezeDim (dim : Nat)
  | unsqueeze (dim : Nat)
  | slice (dim : Nat) (start stop : Option Int) (step : Int)
deriving Repr, DecidableEq

def ViewOp.apply (S : SimdTarget T) (subview : Subview T) (tensor : TensorImpl T) :
    ViewOp → Except Raise (TensorImpl T)
  | asView => tensor.asView S
  | t => tensor.t S
  | permute order => tensor.permute S order
  | view newDims => tensor.viewAs S newDims
  | expand newDims => tensor.expand S newDims
  | broadcastTo newDims => tensor.broadcastTo S newDims
  | squeeze => tensor.squeeze S
  | squeezeDim dim => tensor.squeezeDim S dim
  | unsqueeze dim => tensor.unsqueeze S dim
  | slice dim start stop step => tensor.slice S subview dim start stop step

/-- A sequence of view operations, each on the result of the one before. -/
def applyViews (S : SimdTarget T) (subview : Subview T) :
    TensorImpl T → List ViewOp → Except Raise (TensorImpl T)
  | tensor, [] => .ok tensor
  | tensor, op :: ops => do
      let next ← op.apply S subview tensor
      applyViews S subview next ops

section Inversion

variable {S : SimdTarget T} {subview : Subview T} {tensor r : TensorImpl T}

theorem TensorImpl.t_ok (h : tensor.t S = .ok r) :
    ∃ d₀ d₁, tensor.sizesAndStrides = [d₀, d₁] ∧
      retain S true tensor.view [d₁, d₀] = .ok r := by
  rw [t] at h
  split at h
  · rename_i d₀ d₁ hdims
    exact ⟨d₀, d₁, hdims, h⟩
  · cases h

theorem TensorImpl.permute_ok {order : List Nat} (h : tensor.permute S order = .ok r) :
    order.length = tensor.rank ∧ ∃ dims,
      permuteLoop tensor.sizesAndStrides [] order = .ok dims ∧
      retain S true tensor.view dims = .ok r := by
  rw [permute] at h
  split at h <;> rename_i hlen
  · cases h
  · obtain ⟨dims, hdims, h⟩ := exceptBind_ok.1 h
    exact ⟨not_not.1 hlen, dims, hdims, h⟩

theorem TensorImpl.viewAs_ok {newDims : List Nat} (h : tensor.viewAs S newDims = .ok r) :
    computeTotal newDims = .ok tensor.numel ∧ ∃ dims,
      tensor.computeViewStrides newDims = .ok (some dims) ∧
      retain S true tensor.view dims = .ok r := by
  rw [viewAs, exceptBind_ok] at h
  obtain ⟨total, htotal, h⟩ := h
  split at h <;> rename_i hcount
  · cases h
  · obtain ⟨strides, hstrides, h⟩ := exceptBind_ok.1 h
    cases strides with
    | none => cases h
    | some dims => exact ⟨not_not.1 hcount ▸ htotal, dims, hstrides, h⟩

theorem TensorImpl.squeezeDim_ok {dim : Nat} (h : tensor.squeezeDim S dim = .ok r) :
    ∃ d, tensor.sizesAndStrides[dim]? = some d ∧
      retain S true tensor.view (if d.size ≠ 1 then tensor.sizesAndStrides
        else tensor.sizesAndStrides.eraseIdx dim) = .ok r := by
  rw [squeezeDim] at h
  split at h
  · cases h
  · rename_i d hd
    refine ⟨d, hd, ?_⟩
    split at h <;> rename_i hone
    · rwa [if_pos hone]
    · rwa [if_neg hone]

theorem TensorImpl.unsqueeze_ok {dim : Nat} (h : tensor.unsqueeze S dim = .ok r) :
    dim ≤ tensor.rank ∧ retain S true tensor.view (tensor.sizesAndStrides.insertIdx dim
      ⟨1, (tensor.sizesAndStrides[dim]?.map fun d => wrapI64 (d.size * d.stride)).getD 1⟩) =
        .ok r := by
  rw [unsqueeze] at h
  split at h <;> rename_i hdim
  · cases h
  · refine ⟨Nat.le_of_not_lt hdim, ?_⟩
    cases hd : tensor.sizesAndStrides[dim]? <;> rw [hd] at h <;> exact h

theorem TensorImpl.slice_ok {dim : Nat} {start stop : Option Int} {step : Int}
    (h : tensor.slice S subview dim start stop step = .ok r) :
    ∃ d offset, tensor.sizesAndStrides[dim]? = some d ∧ 1 ≤ step ∧
      offset = wrapU64 (toU64 (sliceFirst d.size start) * toU64 d.stride) ∧
      retain S true (if tensor.view.size - offset = 0 then tensor.view
        else subview tensor.view offset (tensor.view.size - offset))
        (tensor.sizesAndStrides.set dim
          ⟨sliceSize (sliceFirst d.size start) (sliceLast d.size stop) step,
            wrapI64 (d.stride * step)⟩) = .ok r := by
  rw [slice] at h
  split at h
  · cases h
  · rename_i d hd
    split at h <;> rename_i hstep
    · cases h
    · exact ⟨d, _, hd, Int.not_lt.1 hstep, rfl, h⟩

theorem TensorImpl.expand_ok {newDims : List Nat}
    (h : tensor.expand S newDims = .ok r) :
    tensor.rank ≤ newDims.length ∧ ∃ lead rest,
      (newDims.take (newDims.length - tensor.rank)).mapM checkedDimensionToStorage =
        .ok lead ∧
      expandLoop 0 tensor.sizesAndStrides (newDims.drop (newDims.length - tensor.rank)) =
        .ok rest ∧
      retain S true tensor.view (lead.map (⟨·, 0⟩) ++ rest) = .ok r := by
  rw [expand] at h
  split at h <;> rename_i hrank
  · cases h
  · obtain ⟨lead, hlead, h⟩ := exceptBind_ok.1 h
    obtain ⟨rest, hrest, h⟩ := exceptBind_ok.1 h
    exact ⟨Nat.le_of_not_lt hrank, lead, rest, hlead, hrest, h⟩

/-- Every view operation ends in the retaining constructor. -/
theorem ViewOp.apply_retain {op : ViewOp} (h : op.apply S subview tensor = .ok r) :
    ∃ view dims, retain S true view dims = .ok r := by
  cases op with
  | asView | squeeze => exact ⟨_, _, h⟩
  | t =>
      obtain ⟨d₀, d₁, -, h⟩ := TensorImpl.t_ok h
      exact ⟨_, _, h⟩
  | permute order =>
      obtain ⟨-, dims, -, h⟩ := TensorImpl.permute_ok h
      exact ⟨_, dims, h⟩
  | view newDims =>
      obtain ⟨-, dims, -, h⟩ := TensorImpl.viewAs_ok h
      exact ⟨_, dims, h⟩
  | expand newDims | broadcastTo newDims =>
      obtain ⟨-, lead, rest, -, -, h⟩ := TensorImpl.expand_ok h
      exact ⟨_, _, h⟩
  | squeezeDim dim =>
      obtain ⟨d, -, h⟩ := TensorImpl.squeezeDim_ok h
      exact ⟨_, _, h⟩
  | unsqueeze dim => exact ⟨_, _, (TensorImpl.unsqueeze_ok h).2⟩
  | slice dim start stop step =>
      obtain ⟨d, offset, -, -, -, h⟩ := TensorImpl.slice_ok h
      exact ⟨_, _, h⟩

end Inversion

end Vectorization
