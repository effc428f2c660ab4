/-
The failed checks of tensor operations and the texts they raise.
-/
import Vectorization.Expression

namespace Vectorization

/-- `kMaxRank`. -/
def kMaxRank : Nat := 8

/-- `kMaxOperands`: the destination and at most 31 tensor leaves. -/
def kMaxOperands : Nat := 32

/-- `shape_to_string`. -/
def shapeToString {β : Type} [ToString β] (sizes : List β) : String :=
  "[" ++ String.intercalate ", " (sizes.map toString) ++ "]"

/-- `dims_to_string`. -/
def dimsToString (dims : List Nat) : String := shapeToString dims

/-- A check that failed, with the values its text is built from. -/
inductive Raise
  | internalOverlap
  | fillInternalOverlap
  | mixedPlacement
  | destinationPlacement
  | rankLimit (rank : Nat)
  | partialOverlap
  | overlapTooHard
  | incompatibleShapes (leaves : List (List Nat))
  | shapeMismatch (shape : List Nat) (dims : List Int)
  | notContiguous (caller : String)
  | notCpu (caller : String)
  | tooManyOperands
  | strideZero (dimension : Nat)
  | gatherRank
  | dimensionStorage (dim : Nat)
  | strideStorage
  | dimensionsOverflow
  | viewCountOverflow
  | extentOverflow
  | nullData
  | negativeStride (stride : Int) (dimension : Nat)
  | storageExtent (extent size : Nat)
  | viewStorage
  | ownerStorage
  | stridesRank
  | stridesNegative
  | transposeRank
  | permuteLength
  | permuteRange
  | permuteRepeated
  | elementCount (caller : String) (dims : List Nat) (total size : Nat)
  | viewStrides (dims : List Nat)
  | expandRank (target rank : Nat)
  | expandDimension (dimension : Nat) (old target : Int)
  /-- A dimension argument of `squeeze`, `unsqueeze` or `slice`. -/
  | dimRange (caller : String) (dim rank : Nat)
  | sliceStep (step : Int)
  | viewBroadcast (size numel : Nat)
  | reductionNotCpu
  | uploadContiguous
  | uploadCount
  /-- An exception of the allocator or of a device copy. -/
  | external (what : String)
deriving Repr, DecidableEq

def Raise.message : Raise → String
  | internalOverlap =>
      "destination has internal overlap or an unproven layout; noalias() cannot " ++
        "bypass this check"
  | fillInternalOverlap => "fill: destination has internal overlap"
  | mixedPlacement => "expression mixes devices or device indices"
  | destinationPlacement =>
      "expression placement does not match destination device or index"
  | rankLimit rank =>
      "tensors of rank " ++ toString rank ++ " cannot be expression operands (limit " ++
        toString kMaxRank ++ ")"
  | partialOverlap => "assignment has partial overlap; use dst = src.clone()"
  | overlapTooHard =>
      "assignment overlap is too hard to prove; use src.clone() or " ++
        "dst.noalias() = expr"
  | incompatibleShapes leaves =>
      "expression operands have incompatible shapes for broadcasting: " ++
        String.intercalate ", " (leaves.map shapeToString)
  | shapeMismatch shape dims =>
      "expression result shape " ++ shapeToString shape ++
        " does not match destination shape " ++ shapeToString dims
  | notContiguous caller =>
      caller ++ ": destination must be contiguous; call contiguous() first"
  | notCpu caller =>
      caller ++ ": destination device() is not CPU, and no GPU/Metal dispatch " ++
        "handled it in this translation unit (CUDA/HIP require compiling with " ++
        "nvcc/hipcc; Metal requires VECTORIZATION_HAS_METAL)"
  | tooManyOperands =>
      "expression has more than " ++ toString (kMaxOperands - 1) ++ " tensor operands"
  | strideZero dimension =>
      "destination has stride 0 in dimension " ++ toString dimension ++
        " and cannot be written; call contiguous() first"
  | gatherRank => "gather_logical: rank exceeds 16"
  | dimensionStorage dim =>
      "tensor dimension " ++ toString dim ++ " exceeds int64_t storage limit"
  | strideStorage => "tensor stride exceeds int64_t storage limit"
  | dimensionsOverflow => "tensor dimensions overflow size_t"
  | viewCountOverflow => "view element count overflows size_t"
  | extentOverflow => "view extent overflows int64_t"
  | nullData => "non-empty view has a null data pointer"
  | negativeStride stride dimension =>
      "view has negative stride " ++ toString stride ++ " in dimension " ++
        toString dimension
  | storageExtent extent size =>
      "view reaches element " ++ toString extent ++ " past its start, but its storage " ++
        "holds " ++ toString size
  | viewStorage => "tensor shape exceeds Memory view storage"
  | ownerStorage => "tensor shape exceeds Memory allocation"
  | stridesRank => "view shape and strides have different ranks"
  | stridesNegative => "negative view strides are unsupported"
  | transposeRank => "t() requires a rank-2 tensor"
  | permuteLength => "permute: order length must equal rank"
  | permuteRange => "permute: axis out of range"
  | permuteRepeated => "permute: repeated axis"
  | elementCount caller dims total size =>
      caller ++ ": shape " ++ dimsToString dims ++ " has " ++ toString total ++
        " elements, tensor_view<const_view_element> has " ++ toString size
  | viewStrides dims =>
      "view: shape " ++ dimsToString dims ++
        " is not compatible with the tensor's strides; use reshape()"
  | expandRank target rank =>
      "expand: target rank " ++ toString target ++
        " is lower than tensor_view<const_view_element> rank " ++ toString rank
  | expandDimension dimension old target =>
      "expand: dimension " ++ toString dimension ++ " of size " ++ toString old ++
        " cannot be expanded to " ++ toString target
  | dimRange caller dim rank =>
      caller ++ ": dim " ++ toString dim ++ " out of range for rank " ++ toString rank
  | sliceStep step =>
      "slice: step must be >= 1, got " ++ toString step ++
        " (negative strides are not supported; use flip())"
  | viewBroadcast size numel =>
      "a data_view operand of " ++ toString size ++ " elements cannot be broadcast to " ++
        toString numel ++ " elements"
  | reductionNotCpu =>
      "reduction: GPU expression but this translation unit has no GPU reduce " ++
        "path (CUDA/HIP require compiling with nvcc/hipcc; Metal requires " ++
        "VECTORIZATION_HAS_METAL)"
  | uploadContiguous => "copy_from_host requires a contiguous tensor"
  | uploadCount => "copy_from_host: element count mismatch"
  | external what => what

end Vectorization
