/-
View operations as index maps.  Each operation has a shape it results in and a map
from the indices of its result to those of its source; a sequence of operations
composes them.  Reading the last view reads the source at the composed index.
-/
import Vectorization.Construct
import Vectorization.Foundation.AxisMaps

namespace Vectorization

open StridedSpace MachineInteger ByteMemory AtomicRun

variable {T : ElementType} {α : Type}

section Access

/-- The loop of `linearized_index`. -/
def linearizedLoop : List Dim → List Nat → Nat → Nat
  | d :: dims, i :: indices, ret =>
      linearizedLoop dims indices (wrapU64 (ret + toU64 d.stride * i))
  | _, _, ret => ret

namespace TensorImpl

/-- The dimensions as `dimension(n)` reports them. -/
def shape (t : TensorImpl T) : List Nat := StridedSpace.sizes (unsignedAxes t.sizesAndStrides)

def linearizedIndex (t : TensorImpl T) (indices : List Nat) : Nat :=
  linearizedLoop t.sizesAndStrides indices 0

/-- The address of `at(indices)`. -/
def elementAddress (t : TensorImpl T) (indices : List Nat) : Nat :=
  t.data + t.linearizedIndex indices * T.size

/-- `at(indices)`. -/
def readAt (c : Codec α T.size) (m : Memory) (t : TensorImpl T) (indices : List Nat) : α :=
  load c m (t.elementAddress indices)

end TensorImpl

end Access

/-- A Python bound of a dimension of size `n`: a negative value counts from the end,
and what lies outside is clamped. -/
def pythonBound (n : Nat) (v : Int) : Nat :=
  (min (max (if v < 0 then v + n else v) 0) n).toNat

/-- The number of elements from `first` to before `last`, `step` apart. -/
def steppedCount (first last step : Nat) : Nat := (last - first + step - 1) / step

namespace ViewOp

/-- The shape of the result. -/
def resultShape (shape : List Nat) : ViewOp → List Nat
  | asView => shape
  | t => shape.reverse
  | permute order => order.map fun axis => shape.getD axis 0
  | view newDims => newDims
  | expand newDims => newDims
  | broadcastTo newDims => newDims
  | squeeze => shape.filter fun n => decide (n ≠ 1)
  | squeezeDim dim => if shape[dim]? = some 1 then shape.eraseIdx dim else shape
  | unsqueeze dim => shape.insertIdx dim 1
  | slice dim start stop step =>
      let n := shape.getD dim 0
      shape.set dim
        (steppedCount (pythonBound n (start.getD 0)) (pythonBound n (stop.getD n)) step.toNat)

/-- The index in a source of the given shape that an index of the result stands for. -/
def sourceIndex (shape : List Nat) : ViewOp → List Nat → List Nat
  | asView, idx => idx
  | t, idx => idx.reverse
  | permute order, idx => permuteIndex order idx
  | view newDims, idx => unflatten shape (flatten newDims idx)
  | expand _, idx => broadcastIndex shape idx
  | broadcastTo _, idx => broadcastIndex shape idx
  | squeeze, idx => restoreUnits shape idx
  | squeezeDim dim, idx => if shape[dim]? = some 1 then idx.insertIdx dim 0 else idx
  | unsqueeze dim, idx => idx.eraseIdx dim
  | slice dim start _ step, idx =>
      idx.modify dim fun i => pythonBound (shape.getD dim 0) (start.getD 0) + step.toNat * i

/-- The composed index map of a sequence of operations. -/
def composedIndex : (shape : List Nat) → List ViewOp → List Nat → List Nat
  | _, [], idx => idx
  | shape, op :: ops, idx =>
      op.sourceIndex shape (composedIndex (op.resultShape shape) ops idx)

/-- Every operation but `view` keeps the dimensions apart. -/
def Rearranges : ViewOp → Prop
  | view _ => False
  | _ => True

/-- The arguments of a slice are 64-bit values and its arithmetic stays in range. -/
def Fits (dims : List Dim) : ViewOp → Prop
  | slice dim start stop step =>
      (∀ v ∈ start, InInt64 v) ∧ (∀ v ∈ stop, InInt64 v) ∧
        ∀ d ∈ dims[dim]?, InInt64 (d.stride * step) ∧
          (sliceFirst d.size start < sliceLast d.size stop →
            InInt64 (sliceLast d.size stop - sliceFirst d.size start + step - 1))
  | _ => True

end ViewOp

/-- Every slice of a sequence of operations fits the tensor it is applied to. -/
def SlicesFit (S : SimdTarget T) (subview : Subview T) : TensorImpl T → List ViewOp → Prop
  | _, [] => True
  | tensor, op :: ops =>
      op.Fits tensor.sizesAndStrides ∧
        ∀ next, op.apply S subview tensor = .ok next → SlicesFit S subview next ops

/-- A packed tensor: its elements lie in C order without gaps. -/
structure TensorImpl.Packed (S : SimdTarget T) (t : TensorImpl T) : Prop where
  windowed : t.Windowed S
  contiguous : t.contiguous = true
  sizes : ∀ d ∈ t.sizesAndStrides, 0 ≤ d.size ∧ d.size ≤ int64Max

section Access

theorem linearizedLoop_eq (dims : List Dim) (idx : List Nat) {ret : Nat} (h : ret < 2 ^ 64) :
    linearizedLoop dims idx ret = wrapU64 (ret + dot (unsignedAxes dims) idx) := by
  induction dims generalizing idx ret with
  | nil =>
      rw [linearizedLoop, unsignedAxes, List.map_nil, dot_nil, Nat.add_zero,
        wrapU64_eq_self h]
      simp
  | cons d dims ih =>
      cases idx with
      | nil => exact (wrapU64_eq_self h).symm
      | cons i idx =>
          rw [linearizedLoop, ih idx (wrapU64_lt _), wrapU64_add_wrapU64, unsignedAxes_cons,
            dot_cons, Nat.add_assoc, smul_eq_mul, Nat.mul_comm i]
          rfl

theorem unsignedAxes_length (dims : List Dim) : (unsignedAxes dims).length = dims.length :=
  List.length_map _

theorem prod_sizes_unsignedAxes (dims : List Dim) :
    (StridedSpace.sizes (unsignedAxes dims)).prod = elementCount dims := by
  rw [StridedSpace.sizes, unsignedAxes, List.map_map]
  rfl

theorem elementCount_ne_zero_of_inBounds {dims : List Dim} {idx : List Nat}
    (h : InBounds idx (StridedSpace.sizes (unsignedAxes dims))) : elementCount dims ≠ 0 := by
  rw [← prod_sizes_unsignedAxes]
  exact Nat.pos_iff_ne_zero.1 (Nat.zero_lt_of_lt (flatten_lt h))

/-- The sizes are 64-bit counts, and a non-empty tensor spans elements of its window
only. -/
structure TensorImpl.Spanned (t : TensorImpl T) : Prop where
  sizes : ∀ d ∈ t.sizesAndStrides, 0 ≤ d.size ∧ d.size ≤ int64Max
  extent_lt : elementCount t.sizesAndStrides ≠ 0 →
    extent (unsignedAxes t.sizesAndStrides) < t.view.size ∧
      extent (unsignedAxes t.sizesAndStrides) < 2 ^ 64

variable {t : TensorImpl T} {idx : List Nat}

/-- An element in range lies where its exact offset places it, inside the window. -/
theorem TensorImpl.Spanned.linearizedIndex_eq (h : t.Spanned) (hidx : InBounds idx t.shape) :
    t.linearizedIndex idx = dot (unsignedAxes t.sizesAndStrides) idx ∧
      t.linearizedIndex idx < t.view.size := by
  obtain ⟨hview, hfit⟩ := h.extent_lt (elementCount_ne_zero_of_inBounds hidx)
  have hle := dot_le_extent hidx
  rw [linearizedIndex, linearizedLoop_eq _ _ (by norm_num), Nat.zero_add,
    wrapU64_eq_self (Nat.lt_of_le_of_lt hle hfit)]
  exact ⟨rfl, Nat.lt_of_le_of_lt hle hview⟩

end Access

section Places

/-- The new layout reads the source's elements, all at the composed index, from a
window that starts `offset` elements on. -/
structure ViewOp.Places (op : ViewOp) (dims dims' : List Dim) (offset : Nat) : Prop where
  sizes : ∀ d ∈ dims', 0 ≤ d.size ∧ d.size ≤ int64Max
  shape : StridedSpace.sizes (unsignedAxes dims') =
    op.resultShape (StridedSpace.sizes (unsignedAxes dims))
  index : ∀ idx, InBounds idx (StridedSpace.sizes (unsignedAxes dims')) →
    InBounds (op.sourceIndex (StridedSpace.sizes (unsignedAxes dims)) idx)
        (StridedSpace.sizes (unsignedAxes dims)) ∧
      offset + dot (unsignedAxes dims') idx =
        dot (unsignedAxes dims) (op.sourceIndex (StridedSpace.sizes (unsignedAxes dims)) idx)

variable {dims dims' : List Dim}

theorem permuteLoop_ok {seen order : List Nat} (h : permuteLoop dims seen order = .ok dims') :
    dims'.map some = order.map (dims[·]?) ∧ order.Nodup ∧
      ∀ axis ∈ order, axis < dims.length ∧ axis ∉ seen := by
  induction order generalizing seen dims' with
  | nil =>
      cases h
      exact ⟨rfl, List.nodup_nil, by simp⟩
  | cons axis order ih =>
      rw [permuteLoop] at h
      split at h
      · cases h
      · rename_i d hd
        split at h <;> rename_i hseen
        · cases h
        · obtain ⟨rest, hrest, h⟩ := exceptBind_ok.1 h
          cases h
          obtain ⟨hmap, hnodup, hlt⟩ := ih hrest
          have haxis : axis < dims.length := (List.getElem?_eq_some_iff.1 hd).1
          refine ⟨by rw [List.map_cons, List.map_cons, hd, hmap], ?_, ?_⟩
          · refine List.nodup_cons.2 ⟨fun hmem => ?_, hnodup⟩
            exact (hlt axis hmem).2 (by simp)
          · intro a ha
            rcases List.mem_cons.1 ha with rfl | ha
            · exact ⟨haxis, hseen⟩
            · exact ⟨(hlt a ha).1, fun hmem => (hlt a ha).2 (List.mem_append_left _ hmem)⟩

theorem permute_places (hsizes : ∀ d ∈ dims, 0 ≤ d.size ∧ d.size ≤ int64Max)
    {order : List Nat} (hlen : order.length = dims.length)
    (h : permuteLoop dims [] order = .ok dims') :
    (ViewOp.permute order).Places dims dims' 0 := by
  obtain ⟨hmap, hnodup, hlt⟩ := permuteLoop_ok h
  have haxes : (unsignedAxes dims').map some = order.map ((unsignedAxes dims)[·]?) := by
    have := congrArg (List.map (Option.map Dim.unsigned)) hmap
    rw [List.map_map, List.map_map] at this
    rw [unsignedAxes, List.map_map]
    refine this.trans (List.map_congr_left fun axis _ => ?_)
    exact List.getElem?_map.symm
  have hperm : order.Perm (List.range (unsignedAxes dims).length) := by
    rw [unsignedAxes_length]
    exact perm_range_of_nodup hlen hnodup fun axis haxis => (hlt axis haxis).1
  refine ⟨fun d hd => ?_, ?_, fun idx hidx => ?_⟩
  · obtain ⟨axis, -, haxis⟩ := List.mem_map.1 (hmap ▸ List.mem_map_of_mem hd)
    exact hsizes d (List.mem_of_getElem? haxis)
  · have := congrArg (List.map fun a => (a.map Axis.size).getD 0) haxes
    rw [List.map_map, List.map_map] at this
    refine Eq.trans this (List.map_congr_left fun axis _ => ?_)
    rw [StridedSpace.sizes, List.getD_eq_getElem?_getD, List.getElem?_map]
    rfl
  · have hlen' : idx.length = order.length := by
      have := congrArg List.length haxes
      rw [List.length_map, List.length_map] at this
      rw [hidx.length_eq, sizes_length, this]
    have hzip := zip_permute hperm hlen' haxes
    rw [Nat.zero_add]
    refine ⟨hidx.of_perm hzip ?_, dot_of_perm hzip⟩
    rw [ViewOp.sourceIndex, permuteIndex_length, hperm.length_eq, List.length_range]

theorem transpose_places {d₀ d₁ : Dim}
    (hsizes : ∀ d ∈ [d₀, d₁], 0 ≤ d.size ∧ d.size ≤ int64Max) :
    ViewOp.t.Places [d₀, d₁] [d₁, d₀] 0 := by
  refine ⟨fun d hd => hsizes d (by simpa [or_comm] using hd), rfl, fun idx hidx => ?_⟩
  cases idx with
  | nil => cases hidx
  | cons i idx =>
      cases idx with
      | nil => simp [InBounds] at hidx
      | cons j idx =>
          obtain ⟨hi, hidx⟩ := inBounds_cons.1 hidx
          obtain ⟨hj, hnil⟩ := inBounds_cons.1 hidx
          cases hnil
          refine ⟨inBounds_cons.2 ⟨hj, inBounds_cons.2 ⟨hi, inBounds_nil⟩⟩, ?_⟩
          change 0 + (i • d₁.unsigned.stride + (j • d₀.unsigned.stride + 0)) =
            j • d₀.unsigned.stride + (i • d₁.unsigned.stride + 0)
          omega

theorem toU64_eq_one_iff {n : Int} (h : 0 ≤ n ∧ n ≤ int64Max) : toU64 n = 1 ↔ n = 1 := by
  rw [toU64_of_nonneg h.1 h.2]
  omega

theorem squeeze_places (hsizes : ∀ d ∈ dims, 0 ≤ d.size ∧ d.size ≤ int64Max) :
    ViewOp.squeeze.Places dims (dims.filter fun d => d.size ≠ 1) 0 := by
  have haxes : unsignedAxes (dims.filter fun d => d.size ≠ 1) =
      (unsignedAxes dims).filter fun a => decide (a.size ≠ 1) := by
    rw [unsignedAxes, unsignedAxes, List.filter_map]
    refine congrArg _ (List.filter_congr fun d hd => ?_)
    rw [Function.comp_apply, decide_eq_decide]
    exact not_congr (toU64_eq_one_iff (hsizes d hd)).symm
  refine ⟨fun d hd => hsizes d (List.mem_of_mem_filter hd), ?_, fun idx hidx => ?_⟩
  · rw [haxes, ViewOp.resultShape, StridedSpace.sizes, StridedSpace.sizes, List.filter_map]
    rfl
  · rw [haxes] at hidx ⊢
    rw [Nat.zero_add]
    exact dot_restoreUnits hidx

theorem squeezeDim_places (hsizes : ∀ d ∈ dims, 0 ≤ d.size ∧ d.size ≤ int64Max) {dim : Nat}
    {d : Dim} (hd : dims[dim]? = some d) :
    (ViewOp.squeezeDim dim).Places dims (if d.size ≠ 1 then dims else dims.eraseIdx dim) 0 := by
  have hget : (unsignedAxes dims)[dim]? = some d.unsigned := by
    rw [unsignedAxes, List.getElem?_map, hd, Option.map_some]
  have hshape : (StridedSpace.sizes (unsignedAxes dims))[dim]? = some 1 ↔ d.size = 1 := by
    rw [StridedSpace.sizes, List.getElem?_map, hget, Option.map_some, Option.some_inj]
    exact toU64_eq_one_iff (hsizes d (List.mem_of_getElem? hd))
  by_cases hone : d.size = 1
  · rw [if_neg (not_not.2 hone)]
    refine ⟨fun d hd => hsizes d (List.mem_of_mem_eraseIdx hd), ?_, fun idx hidx => ?_⟩
    · rw [ViewOp.resultShape, if_pos (hshape.2 hone), StridedSpace.sizes, StridedSpace.sizes,
        List.eraseIdx_map, unsignedAxes, unsignedAxes, List.eraseIdx_map]
    · have haxes : unsignedAxes (dims.eraseIdx dim) = (unsignedAxes dims).eraseIdx dim :=
        (List.eraseIdx_map ..).symm
      rw [haxes] at hidx ⊢
      rw [ViewOp.sourceIndex, if_pos (hshape.2 hone), Nat.zero_add]
      exact dot_eraseIdx hget
        ((toU64_eq_one_iff (hsizes d (List.mem_of_getElem? hd))).2 hone) hidx
  · rw [if_pos hone]
    refine ⟨hsizes, ?_, fun idx hidx => ?_⟩
    · rw [ViewOp.resultShape, if_neg (mt hshape.1 hone)]
    · rw [ViewOp.sourceIndex, if_neg (mt hshape.1 hone), Nat.zero_add]
      exact ⟨hidx, rfl⟩

theorem unsqueeze_places (hsizes : ∀ d ∈ dims, 0 ≤ d.size ∧ d.size ≤ int64Max) {dim : Nat}
    (hdim : dim ≤ dims.length) (stride : Int) :
    (ViewOp.unsqueeze dim).Places dims (dims.insertIdx dim ⟨1, stride⟩) 0 := by
  have haxes : unsignedAxes (dims.insertIdx dim ⟨1, stride⟩) =
      (unsignedAxes dims).insertIdx dim ⟨1, toU64 stride⟩ := List.map_insertIdx ..
  refine ⟨fun d hd => ?_, ?_, fun idx hidx => ?_⟩
  · rcases (List.mem_insertIdx hdim).1 hd with rfl | hd
    · exact ⟨Int.one_nonneg, show (1 : Int) ≤ int64Max by decide⟩
    · exact hsizes d hd
  · rw [haxes]
    exact List.map_insertIdx ..
  · rw [haxes] at hidx ⊢
    rw [Nat.zero_add]
    exact dot_insertIdx (by rwa [unsignedAxes_length]) rfl hidx

/-- An axis under broadcasting: itself, or a single step that is repeated in place. -/
def Broadcasts (a b : Axis Nat) : Prop := b = a ∨ a.size = 1 ∧ b.stride = 0

theorem dot_broadcasts {axes target : List (Axis Nat)} (h : List.Forall₂ Broadcasts axes target)
    {idx : List Nat} (hidx : InBounds idx (StridedSpace.sizes target)) :
    InBounds (alignedIndex idx (StridedSpace.sizes axes)) (StridedSpace.sizes axes) ∧
      dot target idx = dot axes (alignedIndex idx (StridedSpace.sizes axes)) := by
  induction h generalizing idx with
  | nil =>
      cases hidx
      exact ⟨inBounds_nil, rfl⟩
  | @cons a b axes target hab _ ih =>
      obtain _ | ⟨hi, hidx⟩ := hidx
      rename_i i idx
      obtain ⟨hin, hdot⟩ := ih hidx
      rw [sizes_cons, alignedIndex_cons, dot_cons, dot_cons, inBounds_cons, hdot]
      rcases hab with rfl | ⟨hone, hzero⟩
      · by_cases hone : b.size = 1
        · have : i = 0 := by omega
          rw [if_pos hone, this]
          exact ⟨⟨by omega, hin⟩, rfl⟩
        · rw [if_neg hone]
          exact ⟨⟨hi, hin⟩, rfl⟩
      · rw [if_pos hone, hzero, smul_zero, zero_smul]
        exact ⟨⟨by omega, hin⟩, rfl⟩

theorem sizes_of_cast {shape : List Nat} (h : dims.map Dim.size = shape.map Nat.cast)
    (hbound : ∀ n ∈ shape, (n : Int) ≤ int64Max) :
    (∀ d ∈ dims, 0 ≤ d.size ∧ d.size ≤ int64Max) ∧
      StridedSpace.sizes (unsignedAxes dims) = shape := by
  refine ⟨fun d hd => ?_, ?_⟩
  · obtain ⟨n, hn, hsize⟩ := List.mem_map.1 (h ▸ List.mem_map_of_mem hd)
    exact hsize ▸ ⟨Int.natCast_nonneg n, hbound n hn⟩
  · have hmap := congrArg (List.map toU64) h
    rw [List.map_map, List.map_map] at hmap
    rw [StridedSpace.sizes, unsignedAxes, List.map_map]
    refine hmap.trans ((List.map_congr_left fun n hn => ?_).trans (List.map_id shape))
    have := hbound n hn
    unfold int64Max at this
    exact (toU64_natCast n).trans (wrapU64_eq_self (by omega))

theorem expandLoop_ok {j : Nat} {newDims : List Nat} (hlen : newDims.length = dims.length)
    (hsizes : ∀ d ∈ dims, 0 ≤ d.size ∧ d.size ≤ int64Max)
    (h : expandLoop j dims newDims = .ok dims') :
    dims'.map Dim.size = newDims.map Nat.cast ∧ (∀ n ∈ newDims, (n : Int) ≤ int64Max) ∧
      List.Forall₂ Broadcasts (unsignedAxes dims) (unsignedAxes dims') := by
  induction dims generalizing j newDims dims' with
  | nil =>
      cases List.length_eq_zero_iff.1 hlen
      cases h
      exact ⟨rfl, by simp, List.Forall₂.nil⟩
  | cons d dims ih =>
      cases newDims with
      | nil => cases hlen
      | cons n newDims =>
          rw [expandLoop] at h
          obtain ⟨target, htarget, h⟩ := exceptBind_ok.1 h
          obtain ⟨rfl, hn⟩ := checkedDimensionToStorage_ok htarget
          split at h <;> rename_i hfit
          · obtain ⟨rest, hrest, h⟩ := exceptBind_ok.1 h
            cases h
            obtain ⟨hmap, hbound, hall⟩ := ih (Nat.succ.inj hlen)
              (fun b hb => hsizes b (List.mem_cons_of_mem d hb)) hrest
            refine ⟨?_, List.forall_mem_cons.2 ⟨hn, hbound⟩, List.Forall₂.cons ?_ hall⟩
            · rw [List.map_cons, List.map_cons, hmap]
            · by_cases heq : d.size = n
              · rw [if_pos heq, ← heq]
                exact .inl rfl
              · rw [if_neg heq]
                exact .inr ⟨(toU64_eq_one_iff (hsizes d List.mem_cons_self)).2
                  (hfit.resolve_left heq), rfl⟩
          · cases h

theorem expand_places (hsizes : ∀ d ∈ dims, 0 ≤ d.size ∧ d.size ≤ int64Max)
    {newDims : List Nat} (hlen : dims.length ≤ newDims.length) {lead : List Int}
    {rest : List Dim}
    (hlead : (newDims.take (newDims.length - dims.length)).mapM checkedDimensionToStorage =
      .ok lead)
    (hrest : expandLoop 0 dims (newDims.drop (newDims.length - dims.length)) = .ok rest) :
    (ViewOp.expand newDims).Places dims (lead.map (⟨·, 0⟩) ++ rest) 0 := by
  obtain ⟨rfl, hleadBound⟩ := mapM_checkedDimensionToStorage_ok hlead
  obtain ⟨hmap, hrestBound, hall⟩ :=
    expandLoop_ok (by rw [List.length_drop]; omega) hsizes hrest
  have hnewBound : ∀ n ∈ newDims, (n : Int) ≤ int64Max := fun n hn => by
    rw [← List.take_append_drop (newDims.length - dims.length) newDims] at hn
    exact (List.mem_append.1 hn).elim (hleadBound n) (hrestBound n)
  let lead : List Dim :=
    ((newDims.take (newDims.length - dims.length)).map Nat.cast).map (⟨·, 0⟩)
  have hsize : (lead ++ rest).map Dim.size = newDims.map Nat.cast := by
    have hleadSize : lead.map Dim.size =
        (newDims.take (newDims.length - dims.length)).map Nat.cast := by
      rw [List.map_map]
      exact List.map_id _
    rw [List.map_append, hleadSize, hmap, ← List.map_append, List.take_append_drop]
  obtain ⟨hsizes', hshape⟩ := sizes_of_cast hsize hnewBound
  have hleadLen : (unsignedAxes lead).length = newDims.length - dims.length := by
    rw [unsignedAxes_length, List.length_map, List.length_map, List.length_take]
    omega
  have hleadStride : ∀ a ∈ unsignedAxes lead, a.stride = 0 := fun a ha => by
    obtain ⟨d, hd, rfl⟩ := List.mem_map.1 ha
    obtain ⟨n, -, rfl⟩ := List.mem_map.1 hd
    rfl
  refine ⟨hsizes', hshape, fun idx hidx => ?_⟩
  rw [unsignedAxes_append] at hidx ⊢
  have hlen' : idx.length = newDims.length := by
    rw [hidx.length_eq, sizes_length, ← unsignedAxes_append, unsignedAxes_length,
      ← List.length_map Dim.size, hsize, List.length_map]
  have htake : (idx.take (newDims.length - dims.length)).length = (unsignedAxes lead).length := by
    rw [List.length_take, hlen', hleadLen]
    omega
  have hdrop := hidx.drop (newDims.length - dims.length)
  rw [sizes_append, List.drop_left' (by rw [sizes_length, hleadLen])] at hdrop
  obtain ⟨hin, hdot⟩ := dot_broadcasts hall hdrop
  rw [ViewOp.sourceIndex, broadcastIndex, hlen', sizes_length, unsignedAxes_length,
    Nat.zero_add]
  refine ⟨hin, ?_⟩
  conv_lhs => rw [← List.take_append_drop (newDims.length - dims.length) idx]
  rw [dot_append htake, dot_of_stride_zero hleadStride, Nat.zero_add, hdot]
  rfl

theorem sliceClamp_eq {n v : Int} (hn : 0 ≤ n ∧ n ≤ int64Max) (hv : InInt64 v) :
    sliceClamp n v = pythonBound (toU64 n) v := by
  have hwrap : v < 0 → wrapI64 (v + n) = v + n := fun hneg => by
    obtain ⟨hlo, -⟩ := hv
    refine wrapI64_eq_self ⟨?_, ?_⟩ <;> omega
  rw [sliceClamp, pythonBound, toU64_of_nonneg hn.1 hn.2, Int.toNat_of_nonneg hn.1]
  split <;> rename_i hneg
  · rw [hwrap hneg]
    omega
  · omega

theorem pythonBound_le (n : Nat) (v : Int) : pythonBound n v ≤ n := by
  rw [pythonBound]
  omega

theorem steppedCount_le (first last : Nat) {step : Nat} (hstep : 0 < step) :
    steppedCount first last step ≤ last - first := by
  rw [steppedCount]
  refine Nat.le_of_lt_succ ((Nat.div_lt_iff_lt_mul hstep).2 ?_)
  have : last - first ≤ (last - first) * step := Nat.le_mul_of_pos_right _ hstep
  rw [Nat.succ_mul]
  omega

/-- Every stepped position lies before the end. -/
theorem steppedCount_fits {first last step i : Nat} (hstep : 0 < step)
    (hi : i < steppedCount first last step) : first + step * i < last := by
  have hle := (Nat.le_div_iff_mul_le hstep).1 (Nat.succ_le_of_lt hi)
  rw [Nat.succ_mul, Nat.mul_comm i] at hle
  omega

theorem sliceSize_eq {first last : Nat} {step : Int} (hstep : 1 ≤ step)
    (hfit : (first : Int) < last → InInt64 (last - first + step - 1)) :
    sliceSize first last step = steppedCount first last step.toNat := by
  obtain ⟨k, rfl⟩ : ∃ k : Nat, step = k := ⟨step.toNat, (Int.toNat_of_nonneg (by omega)).symm⟩
  rw [sliceSize, steppedCount, Int.toNat_natCast]
  split <;> rename_i hlt
  · have hcast : (last - first + k - 1 : Int) = ((last - first + k - 1 : Nat) : Int) := by
      omega
    rw [wrapI64_eq_self (hfit hlt), hcast]
    exact (Int.ofNat_tdiv _ _).symm
  · have : last - first = 0 := by omega
    rw [this, Nat.zero_add, Nat.div_eq_of_lt (by omega)]
    rfl

theorem sliceFirst_eq {d : Dim} (hsize : 0 ≤ d.size ∧ d.size ≤ int64Max) {start : Option Int}
    (hstart : ∀ v ∈ start, InInt64 v) :
    sliceFirst d.size start = pythonBound (toU64 d.size) (start.getD 0) := by
  refine sliceClamp_eq hsize ?_
  cases start with
  | none => exact (show InInt64 0 by decide)
  | some v => exact hstart v rfl

theorem sliceLast_eq {d : Dim} (hsize : 0 ≤ d.size ∧ d.size ≤ int64Max) {stop : Option Int}
    (hstop : ∀ v ∈ stop, InInt64 v) :
    sliceLast d.size stop = pythonBound (toU64 d.size) (stop.getD (toU64 d.size : Nat)) := by
  rw [toU64_of_nonneg hsize.1 hsize.2, Int.toNat_of_nonneg hsize.1,
    ← toU64_of_nonneg hsize.1 hsize.2]
  refine sliceClamp_eq hsize ?_
  cases stop with
  | none => exact ⟨le_trans (by decide) hsize.1, hsize.2⟩
  | some v => exact hstop v rfl

/-- The bounds and the size of a slice that fits are those of Python. -/
theorem slice_bounds {d : Dim} (hsize : 0 ≤ d.size ∧ d.size ≤ int64Max) {start stop : Option Int}
    {step : Int} (hstep : 1 ≤ step) (hstart : ∀ v ∈ start, InInt64 v)
    (hstop : ∀ v ∈ stop, InInt64 v)
    (hfit : sliceFirst d.size start < sliceLast d.size stop →
      InInt64 (sliceLast d.size stop - sliceFirst d.size start + step - 1)) :
    sliceFirst d.size start = pythonBound (toU64 d.size) (start.getD 0) ∧
      sliceSize (sliceFirst d.size start) (sliceLast d.size stop) step =
        steppedCount (pythonBound (toU64 d.size) (start.getD 0))
          (pythonBound (toU64 d.size) (stop.getD (toU64 d.size : Nat))) step.toNat := by
  rw [sliceFirst_eq hsize hstart, sliceLast_eq hsize hstop] at hfit ⊢
  exact ⟨rfl, sliceSize_eq hstep hfit⟩

theorem toU64_mul_step {stride step : Int} (hstep : 1 ≤ step) (hfit : InInt64 (stride * step))
    (hnonneg : 0 ≤ wrapI64 (stride * step)) :
    toU64 (wrapI64 (stride * step)) = step.toNat * toU64 stride := by
  rw [wrapI64_eq_self hfit] at hnonneg ⊢
  have hstride : 0 ≤ stride := by
    by_contra hneg
    have := Int.mul_neg_of_neg_of_pos (Int.not_le.1 hneg) (show 0 < step by omega)
    omega
  have hle : stride ≤ stride * step := le_mul_of_one_le_right hstride hstep
  rw [toU64_of_nonneg hnonneg hfit.2, Int.toNat_mul hstride (by omega), Nat.mul_comm,
    toU64_of_nonneg hstride (le_trans hle hfit.2)]

theorem slice_places (hsizes : ∀ d ∈ dims, 0 ≤ d.size ∧ d.size ≤ int64Max) {dim : Nat} {d : Dim}
    (hd : dims[dim]? = some d) {start stop : Option Int} {step : Int} (hstep : 1 ≤ step)
    (hfits : (ViewOp.slice dim start stop step).Fits dims)
    (hdims' : dims' = dims.set dim
      ⟨sliceSize (sliceFirst d.size start) (sliceLast d.size stop) step,
        wrapI64 (d.stride * step)⟩)
    (hnonneg : elementCount dims' ≠ 0 → ∀ b ∈ dims', 0 ≤ b.stride) :
    (ViewOp.slice dim start stop step).Places dims dims'
      ((sliceFirst d.size start).toNat * toU64 d.stride) := by
  obtain ⟨hstart, hstop, hfit⟩ := hfits
  obtain ⟨hstride, hsize⟩ := hfit d hd
  have hdsize := hsizes d (List.mem_of_getElem? hd)
  obtain ⟨hfirst, hcount⟩ := slice_bounds hdsize hstep hstart hstop hsize
  rw [hcount] at hdims'
  rw [hfirst, Int.toNat_natCast]
  have hget : (unsignedAxes dims)[dim]? = some d.unsigned := by
    rw [unsignedAxes, List.getElem?_map, hd, Option.map_some]
  have hgetD : (StridedSpace.sizes (unsignedAxes dims)).getD dim 0 = toU64 d.size := by
    rw [StridedSpace.sizes, List.getD_eq_getElem?_getD, List.getElem?_map, hget]
    rfl
  generalize hf : pythonBound (toU64 d.size) (start.getD 0) = first at *
  generalize hl : pythonBound (toU64 d.size) (stop.getD (toU64 d.size : Nat)) = last at *
  have hlast : last ≤ toU64 d.size := hl ▸ pythonBound_le _ _
  have hstep' : 0 < step.toNat := by omega
  have hle := steppedCount_le first last hstep'
  have hcountMax : ((steppedCount first last step.toNat : Nat) : Int) ≤ int64Max := by
    refine le_trans ?_ hdsize.2
    have := toU64_of_nonneg hdsize.1 hdsize.2
    omega
  have haxes : unsignedAxes dims' = (unsignedAxes dims).set dim
      ⟨steppedCount first last step.toNat, toU64 (wrapI64 (d.stride * step))⟩ := by
    rw [hdims', unsignedAxes, List.map_set, Dim.unsigned, toU64_of_nonneg (Int.natCast_nonneg _)
      hcountMax]
    rfl
  refine ⟨fun b hb => ?_, ?_, fun idx hidx => ?_⟩
  · rw [hdims'] at hb
    rcases List.mem_or_eq_of_mem_set hb with hb | rfl
    · exact hsizes b hb
    · exact ⟨Int.natCast_nonneg _, hcountMax⟩
  · rw [haxes, ViewOp.resultShape, hgetD, hf, hl, StridedSpace.sizes, List.map_set]
    rfl
  · have hmem : ⟨(steppedCount first last step.toNat : Nat), wrapI64 (d.stride * step)⟩ ∈
        dims' := hdims' ▸ List.mem_set (List.getElem?_eq_some_iff.1 hd).1 _
    have hnew := hnonneg (elementCount_ne_zero_of_inBounds hidx) _ hmem
    rw [haxes, toU64_mul_step hstep hstride hnew] at hidx ⊢
    rw [ViewOp.sourceIndex, hgetD, hf]
    exact dot_narrow hget (fun i hi =>
      Nat.lt_of_lt_of_le (steppedCount_fits hstep' hi) hlast) hidx

end Places

section Step

variable {S : SimdTarget T} {subview : Subview T} {t r : TensorImpl T}

theorem retain_ok {isView : Bool} {view : DataView T} {dims : List Dim}
    (h : retain S isView view dims = .ok r) :
    r.sizesAndStrides = dims ∧ r.view = view ∧ (elementCount dims ≠ 0 →
      (∀ d ∈ dims, 0 ≤ d.stride) ∧ (extent (unsignedAxes dims) : Int) ≤ int64Max ∧
        extent (unsignedAxes dims) < view.size) := by
  obtain ⟨numel, hnumel, h⟩ := exceptBind_ok.1 h
  obtain ⟨_, hcheck, h⟩ := exceptBind_ok.1 h
  obtain ⟨rfl, -⟩ := computeShapeNumel_ok hnumel
  cases h
  refine ⟨TensorImpl.recompute_sizesAndStrides, TensorImpl.recompute_view, fun hne => ?_⟩
  obtain ⟨-, hstride, hbound, hlt⟩ := checkViewGeometry_ok hcheck hne
  exact ⟨hstride, hbound, hlt⟩

theorem retain_spanned {isView : Bool} {view : DataView T} {dims : List Dim}
    (h : retain S isView view dims = .ok r)
    (hsizes : ∀ d ∈ dims, 0 ≤ d.size ∧ d.size ≤ int64Max) : r.Spanned := by
  obtain ⟨hdims, hview, hcheck⟩ := retain_ok h
  refine ⟨hdims ▸ hsizes, fun hne => ?_⟩
  rw [hdims] at hne ⊢
  obtain ⟨-, hbound, hlt⟩ := hcheck hne
  unfold int64Max at hbound
  exact ⟨hview ▸ hlt, by omega⟩

/-- The result of an operation reads its source through the index map. -/
structure ViewOp.Reads (op : ViewOp) (t r : TensorImpl T) : Prop where
  spanned : r.Spanned
  shape : r.shape = op.resultShape t.shape
  address : ∀ idx, InBounds idx r.shape → InBounds (op.sourceIndex t.shape idx) t.shape ∧
    r.elementAddress idx = t.elementAddress (op.sourceIndex t.shape idx)

/-- A retained layout reads its source when it places each index at its source. -/
theorem ViewOp.Places.reads {op : ViewOp} {view : DataView T} {dims : List Dim} {offset : Nat}
    (h : op.Places t.sizesAndStrides dims offset) (ht : t.Spanned)
    (hview : elementCount dims ≠ 0 → view.data = t.view.data + offset * T.size)
    (hret : retain S true view dims = .ok r) : op.Reads t r := by
  have hr := retain_spanned hret h.sizes
  obtain ⟨hdims, hrview, -⟩ := retain_ok hret
  rw [← hdims] at h hview
  refine ⟨hr, h.shape, fun idx hidx => ?_⟩
  obtain ⟨hsource, hdot⟩ := h.index idx hidx
  have hdata : r.data = t.data + offset * T.size :=
    (congrArg DataView.data hrview).trans (hview (elementCount_ne_zero_of_inBounds hidx))
  have hlin := (hr.linearizedIndex_eq hidx).1
  have hsource' : InBounds (op.sourceIndex t.shape idx) t.shape := hsource
  have hsourceLin := (ht.linearizedIndex_eq hsource').1
  refine ⟨hsource, ?_⟩
  rw [TensorImpl.elementAddress, TensorImpl.elementAddress, hdata, hlin, hsourceLin]
  have hdot' := congrArg (· * T.size) hdot
  rw [Nat.add_mul] at hdot'
  rw [Nat.add_assoc, hdot']
  rfl

theorem ViewOp.Places.reads_here {op : ViewOp} {dims : List Dim}
    (h : op.Places t.sizesAndStrides dims 0) (ht : t.Spanned)
    (hret : retain S true t.view dims = .ok r) : op.Reads t r :=
  h.reads ht (fun _ => by rw [Nat.zero_mul, Nat.add_zero]) hret

/-- The window of a non-empty result starts inside that of its source. -/
theorem ViewOp.Places.offset_lt {op : ViewOp} {dims : List Dim} {offset : Nat}
    (h : op.Places t.sizesAndStrides dims offset) (ht : t.Spanned) (hne : elementCount dims ≠ 0) :
    offset < t.view.size ∧ offset < 2 ^ 64 := by
  rw [← prod_sizes_unsignedAxes] at hne
  obtain ⟨hsource, hdot⟩ := h.index _ (unflatten_inBounds (Nat.pos_of_ne_zero hne))
  obtain ⟨hview, hfit⟩ := ht.extent_lt (elementCount_ne_zero_of_inBounds hsource)
  have := dot_le_extent hsource
  omega

/-- A slice that fits selects every `step`-th element from its first one on. -/
theorem TensorImpl.slice_reads (hsub : SubviewInRange subview) (ht : t.Spanned) {dim : Nat}
    {start stop : Option Int} {step : Int}
    (hfits : (ViewOp.slice dim start stop step).Fits t.sizesAndStrides)
    (h : t.slice S subview dim start stop step = .ok r) :
    (ViewOp.slice dim start stop step).Reads t r := by
  obtain ⟨d, offset, hd, hstep, rfl, h⟩ := slice_ok h
  have hplaces := slice_places ht.sizes hd hstep hfits rfl
    (fun hne => ((retain_ok h).2.2 hne).1)
  refine hplaces.reads ht (fun hne => ?_) h
  have hsize := ht.sizes d (List.mem_of_getElem? hd)
  have hfirst : 0 ≤ sliceFirst d.size start ∧ sliceFirst d.size start ≤ int64Max := by
    rw [sliceFirst, sliceClamp]
    omega
  obtain ⟨hview, hfit⟩ := hplaces.offset_lt ht hne
  rw [toU64_of_nonneg hfirst.1 hfirst.2, wrapU64_eq_self hfit, if_neg (by omega),
    hsub _ _ _ (by omega)]

/-- Every operation that keeps the dimensions apart reads its source through its
index map. -/
theorem ViewOp.apply_reads (hsub : SubviewInRange subview) {op : ViewOp} (hop : op.Rearranges)
    (ht : t.Spanned) (hfits : op.Fits t.sizesAndStrides) (h : op.apply S subview t = .ok r) :
    op.Reads t r := by
  cases op with
  | asView =>
      have hplaces : ViewOp.asView.Places t.sizesAndStrides t.sizesAndStrides 0 :=
        ⟨ht.sizes, rfl, fun idx hidx => ⟨hidx, Nat.zero_add _⟩⟩
      exact hplaces.reads_here ht h
  | t =>
      obtain ⟨d₀, d₁, hdims, h⟩ := TensorImpl.t_ok h
      have hplaces := transpose_places (hdims ▸ ht.sizes)
      rw [← hdims] at hplaces
      exact hplaces.reads_here ht h
  | permute order =>
      obtain ⟨hlen, dims, hdims, h⟩ := TensorImpl.permute_ok h
      exact (permute_places ht.sizes hlen hdims).reads_here ht h
  | view newDims => cases hop
  | expand newDims =>
      obtain ⟨hlen, lead, rest, hlead, hrest, h⟩ := TensorImpl.expand_ok h
      exact (expand_places ht.sizes hlen hlead hrest).reads_here ht h
  | broadcastTo newDims =>
      obtain ⟨hlen, lead, rest, hlead, hrest, h⟩ := TensorImpl.expand_ok h
      have hplaces := expand_places ht.sizes hlen hlead hrest
      exact (show (ViewOp.broadcastTo newDims).Places _ _ 0 from
        ⟨hplaces.sizes, hplaces.shape, hplaces.index⟩).reads_here ht h
  | squeeze =>
      exact (squeeze_places ht.sizes).reads_here ht h
  | squeezeDim dim =>
      obtain ⟨d, hd, h⟩ := TensorImpl.squeezeDim_ok h
      exact (squeezeDim_places ht.sizes hd).reads_here ht h
  | unsqueeze dim =>
      obtain ⟨hdim, h⟩ := TensorImpl.unsqueeze_ok h
      exact (unsqueeze_places ht.sizes hdim _).reads_here ht h
  | slice dim start stop step => exact TensorImpl.slice_reads hsub ht hfits h

/-- A run of operations reads its source through the composed index map. -/
theorem applyViews_reads (hsub : SubviewInRange subview) {ops : List ViewOp}
    (hops : ∀ op ∈ ops, op.Rearranges) (ht : t.Spanned) (hfits : SlicesFit S subview t ops)
    (h : applyViews S subview t ops = .ok r) :
    r.Spanned ∧ ∀ idx, InBounds idx r.shape →
      InBounds (ViewOp.composedIndex t.shape ops idx) t.shape ∧
        r.elementAddress idx = t.elementAddress (ViewOp.composedIndex t.shape ops idx) := by
  induction ops generalizing t with
  | nil =>
      cases h
      exact ⟨ht, fun idx hidx => ⟨hidx, rfl⟩⟩
  | cons op ops ih =>
      obtain ⟨next, hnext, h⟩ := exceptBind_ok.1 h
      have hop := ViewOp.apply_reads hsub (hops op List.mem_cons_self) ht hfits.1 hnext
      obtain ⟨hr, hread⟩ := ih (fun o ho => hops o (List.mem_cons_of_mem op ho)) hop.spanned
        (hfits.2 next hnext) h
      refine ⟨hr, fun idx hidx => ?_⟩
      obtain ⟨hin, haddress⟩ := hread idx hidx
      obtain ⟨hsource, hstep⟩ := hop.address _ hin
      rw [ViewOp.composedIndex, ← hop.shape]
      exact ⟨hsource, haddress.trans hstep⟩

end Step

section Packed

variable {S : SimdTarget T} {subview : Subview T} {t : TensorImpl T}

theorem toU64_natCast_wrap (n : Nat) : toU64 (wrapI64 n) = wrapU64 n := by
  rw [toU64_wrapI64, toU64_natCast]

/-- Unsigned, a contiguous layout without empty dimensions spans its elements
exactly. -/
theorem extent_of_contiguousLoop {dims : List Dim} {e : Nat} (he : 0 < e)
    (hne : elementCount dims ≠ 0) (hfit : e * elementCount dims < 2 ^ 64)
    (h : contiguousLoop dims (wrapI64 e) = true) :
    e * elementCount dims = e + extent (unsignedAxes dims) := by
  induction dims generalizing e with
  | nil => exact Nat.mul_one e
  | cons d dims ih =>
      rw [elementCount_cons] at hne hfit ⊢
      have hsize := left_ne_zero_of_mul hne
      have hrest := right_ne_zero_of_mul hne
      rw [← Nat.mul_assoc] at hfit ⊢
      have hnext : e * toU64 d.size < 2 ^ 64 :=
        Nat.lt_of_le_of_lt (Nat.le_mul_of_pos_right _ (Nat.pos_of_ne_zero hrest)) hfit
      rw [unsignedAxes_cons, extent_cons]
      change _ = e + ((toU64 d.size - 1) * toU64 d.stride + _)
      rcases contiguousLoop_cons h with ⟨hone, h⟩ | ⟨-, hstride, h⟩
      · have hunit : toU64 d.size = 1 := by
          rw [hone]
          rfl
        rw [hunit, Nat.mul_one] at hfit ⊢
        rw [Nat.sub_self, Nat.zero_mul, Nat.zero_add]
        exact ih he hrest hfit h
      · rw [wrapI64_mul_size] at h
        have hlt : e < 2 ^ 64 :=
          Nat.lt_of_le_of_lt (Nat.le_mul_of_pos_right _ (Nat.pos_of_ne_zero hsize)) hnext
        have hsplit : e + (toU64 d.size - 1) * e = e * toU64 d.size := by
          obtain ⟨k, hk⟩ := Nat.exists_eq_succ_of_ne_zero hsize
          rw [hk, Nat.succ_sub_one, Nat.mul_succ, Nat.mul_comm, Nat.add_comm]
        rw [hstride, toU64_natCast_wrap, wrapU64_eq_self hlt,
          ih (Nat.mul_pos he (Nat.pos_of_ne_zero hsize)) hrest hfit h, ← hsplit, Nat.add_assoc]

/-- An object with a checked C-order shape and room for it is packed. -/
theorem packed_of_setShape {dims : List Nat} {o : TensorImpl T} {shape : List Dim}
    (h : setShape dims = .ok shape) (ho : o.sizesAndStrides = shape)
    (hle : dims.prod ≤ o.view.size) : (o.recompute S).Packed S := by
  obtain ⟨total, -, hsas⟩ := exceptBind_ok.1 h
  obtain ⟨hshape, hbound, -⟩ := makeContiguousSas_ok hsas
  refine ⟨recompute_setShape_windowed h ho hle,
    TensorImpl.recompute_contiguous _ (ho.trans hshape), ?_⟩
  rw [TensorImpl.recompute_sizesAndStrides, ho, hshape]
  exact (sizes_of_cast (contiguousDims_sizes _) hbound).1

/-- A packed tensor spans elements of its window only. -/
theorem TensorImpl.Packed.spanned (h : t.Packed S) : t.Spanned := by
  refine ⟨h.sizes, fun hne => ?_⟩
  have hfit := h.windowed.count_lt
  have hcontig : (t.recompute S).contiguous = true := by
    rw [h.windowed.cached]
    exact h.contiguous
  have hloop := contiguousLoop_of_recompute hfit hne hcontig
  have hperm := List.reverse_perm t.sizesAndStrides
  have hspan := extent_of_contiguousLoop (e := 1) Nat.one_pos
    (by rwa [elementCount_perm hperm]) (by rwa [elementCount_perm hperm, Nat.one_mul]) hloop
  rw [elementCount_perm hperm, extent_perm (unsignedAxes_perm hperm), Nat.one_mul] at hspan
  have hflat := h.windowed.flat h.contiguous
  rw [h.windowed.numel_eq] at hflat
  omega

/-- Reading the result of a sequence of operations on a packed tensor reads the
source element at the composed index, inside the source's window. -/
theorem applyViews_readAt (c : Codec α T.size) (m : Memory) (hsub : SubviewInRange subview)
    {view : TensorImpl T} {ops : List ViewOp} (hpacked : t.Packed S)
    (hops : ∀ op ∈ ops, op.Rearranges) (hfits : SlicesFit S subview t ops)
    (h : applyViews S subview t ops = .ok view) {idx : List Nat} (hidx : InBounds idx view.shape) :
    InBounds (ViewOp.composedIndex t.shape ops idx) t.shape ∧
      view.readAt c m idx = t.readAt c m (ViewOp.composedIndex t.shape ops idx) ∧
      ∃ k < t.view.size, view.elementAddress idx = t.data + k * T.size := by
  obtain ⟨-, hread⟩ := applyViews_reads hsub hops hpacked.spanned hfits h
  obtain ⟨hin, haddress⟩ := hread idx hidx
  refine ⟨hin, ?_, t.linearizedIndex (ViewOp.composedIndex t.shape ops idx),
    (hpacked.spanned.linearizedIndex_eq hin).2, haddress⟩
  rw [TensorImpl.readAt, TensorImpl.readAt, haddress]

end Packed

namespace ViewCompositionWitness

open Sample

/-- Three rows of four floats. -/
def matrix : TensorImpl float :=
  TensorImpl.recompute fourLanes (.bare false ⟨4096, 12, .cpu, 0⟩ [⟨3, 4⟩, ⟨4, 1⟩])

def windowAt : Subview float := fun v offset count =>
  ⟨v.data + offset * float.size, count, v.device, v.deviceIndex⟩

/-- Every other column, as rows, repeated twice. -/
def operations : List ViewOp :=
  [.slice 1 (some 1) none 2, .t, .unsqueeze 0, .squeeze, .expand [2, 2, 3]]

theorem applyViews_readAt_columns : ∃ view,
    applyViews fourLanes windowAt matrix operations = .ok view ∧ ∀ m,
      view.readAt (Codec.bytes 4) m [1, 1, 2] = matrix.readAt (Codec.bytes 4) m [2, 3] := by
  have hshape : setShape [3, 4] = .ok [⟨3, 4⟩, ⟨4, 1⟩] := rfl
  have hpacked : matrix.Packed fourLanes := packed_of_setShape hshape rfl (by decide)
  have hsub : SubviewInRange windowAt := fun _ _ _ _ => rfl
  have hfits : SlicesFit fourLanes windowAt matrix operations := by
    refine ⟨⟨?_, ?_, ?_⟩, fun next hnext => ?_⟩
    · rintro v ⟨⟩
      decide
    · rintro v ⟨⟩
    · rintro d ⟨⟩
      exact ⟨by decide, fun _ => by decide⟩
    · refine ⟨trivial, fun _ _ => ⟨trivial, fun _ _ => ⟨trivial, fun _ _ => ⟨trivial, ?_⟩⟩⟩⟩
      exact fun _ _ => trivial
  have hrearranges : ∀ op ∈ operations, op.Rearranges := by
    simp [operations, ViewOp.Rearranges]
  obtain ⟨view, hview, hidx⟩ : ∃ view,
      applyViews fourLanes windowAt matrix operations = .ok view ∧
        InBounds [1, 1, 2] view.shape := ⟨_, rfl, by decide⟩
  exact ⟨view, hview, fun m =>
    (applyViews_readAt (Codec.bytes 4) m hsub hpacked hrearranges hfits hview hidx).2.1⟩

end ViewCompositionWitness

end Vectorization
