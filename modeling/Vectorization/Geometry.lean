/-
Shapes and windows.  Checked products, C-order strides and the check that a view
stays inside its storage; what passes them describes a tensor whose elements all
lie in its memory window.
-/
import Vectorization.Tensor
import Vectorization.Foundation.AtomicRun

namespace Vectorization

open StridedSpace MachineInteger AtomicRun

variable {T : ElementType}

/-- The checked product loop of `compute_total` and `compute_shape_numel`. -/
def productLoop (overflow : Raise) : Nat → List Nat → Except Raise Nat
  | total, [] => .ok total
  | total, d :: dims =>
      if d = 0 ∨ total ≤ uint64Max / d then
        productLoop overflow (wrapU64 (total * d)) dims
      else .error overflow

def computeTotal (dims : List Nat) : Except Raise Nat :=
  productLoop .dimensionsOverflow 1 dims

def computeShapeNumel (dims : List Dim) : Except Raise Nat :=
  productLoop .viewCountOverflow 1 (dims.map fun d => toU64 d.size)

def checkedDimensionToStorage (dim : Nat) : Except Raise Int :=
  if (dim : Int) ≤ int64Max then .ok dim else .error (.dimensionStorage dim)

/-- The stride loop of `make_contiguous_sas`, innermost dimension first. -/
def contiguousStrides : List Nat → Except Raise (List Int)
  | [] => .ok []
  | [_] => .ok [1]
  | _ :: d :: dims => do
      let strides ← contiguousStrides (d :: dims)
      let nextDim ← checkedDimensionToStorage d
      let nextStride := strides.headD 1
      if nextDim = 0 ∨ nextStride ≤ int64Max / nextDim then
        return nextStride * nextDim :: strides
      else throw .strideStorage

def makeContiguousSas (dims : List Nat) : Except Raise (List Dim) := do
  let strides ← contiguousStrides dims
  let sizes ← dims.mapM checkedDimensionToStorage
  return List.zipWith Dim.mk sizes strides

/-- The new shape of `set_shape`. -/
def setShape (dims : List Nat) : Except Raise (List Dim) := do
  let _ ← computeTotal dims
  makeContiguousSas dims

/-- The extent loop of `check_view_geometry` from dimension `i` on. -/
def extentLoop : (i extent : Nat) → List Dim → Except Raise Nat
  | _, extent, [] => .ok extent
  | i, extent, d :: dims =>
      if d.stride < 0 then .error (.negativeStride d.stride i)
      else
        let count := toU64 (d.size - 1)
        if count = 0 ∨ toU64 d.stride ≤ (int64Max.toNat - extent) / count then
          extentLoop (i + 1) (wrapU64 (extent + count * toU64 d.stride)) dims
        else .error .extentOverflow

def checkViewGeometry (dims : List Dim) (numel : Nat) (view : DataView T) :
    Except Raise Unit :=
  if numel = 0 then .ok ()
  else if view.data = 0 then .error .nullData
  else do
    let extent ← extentLoop 0 0 dims
    if extent < view.size then return ()
    else throw (.storageExtent extent view.size)

/-- An object with a window and a shape whose other fields have their defaults. -/
def TensorImpl.bare (isView : Bool) (view : DataView T) (dims : List Dim) :
    TensorImpl T where
  isView := isView
  sizesAndStrides := dims
  view := view
  alignStart := 0
  alignEnd := 0
  numel := 0
  contiguous := true
  nonOverlapping := true

/-- The retaining constructor, with an explicit shape and strides that it checks. -/
def retain (S : SimdTarget T) (isView : Bool) (view : DataView T) (dims : List Dim) :
    Except Raise (TensorImpl T) := do
  let numel ← computeShapeNumel dims
  checkViewGeometry dims numel view
  return TensorImpl.recompute S { TensorImpl.bare isView view dims with numel := numel }

/-- The dimension in unsigned arithmetic. -/
def Dim.unsigned (d : Dim) : Axis Nat := ⟨toU64 d.size, toU64 d.stride⟩

def unsignedAxes (dims : List Dim) : List (Axis Nat) := dims.map Dim.unsigned

/-- The product of the dimensions as unsigned values. -/
def elementCount (dims : List Dim) : Nat := (dims.map fun d => toU64 d.size).prod

@[simp] theorem elementCount_nil : elementCount [] = 1 := rfl

@[simp] theorem elementCount_cons (d : Dim) (dims : List Dim) :
    elementCount (d :: dims) = toU64 d.size * elementCount dims := by
  rw [elementCount, List.map_cons, List.prod_cons, elementCount]

theorem elementCount_perm {xs ys : List Dim} (h : xs.Perm ys) :
    elementCount xs = elementCount ys :=
  (h.map _).prod_eq

@[simp] theorem unsignedAxes_cons (d : Dim) (dims : List Dim) :
    unsignedAxes (d :: dims) = d.unsigned :: unsignedAxes dims := rfl

@[simp] theorem unsignedAxes_append (xs ys : List Dim) :
    unsignedAxes (xs ++ ys) = unsignedAxes xs ++ unsignedAxes ys :=
  List.map_append

theorem unsignedAxes_perm {xs ys : List Dim} (h : xs.Perm ys) :
    (unsignedAxes xs).Perm (unsignedAxes ys) :=
  h.map _

section Products

theorem productLoop_ok {overflow : Raise} {total result : Nat} {dims : List Nat}
    (htotal : total < 2 ^ 64) (h : productLoop overflow total dims = .ok result) :
    result = total * dims.prod ∧ result < 2 ^ 64 := by
  induction dims generalizing total with
  | nil =>
      cases h
      exact ⟨by simp, htotal⟩
  | cons d dims ih =>
      rw [productLoop] at h
      split at h <;> rename_i hfit
      · have hlt : total * d < 2 ^ 64 := by
          rcases hfit with rfl | hle
          · simp
          · rcases Nat.eq_zero_or_pos d with rfl | hpos
            · simp
            · have := (Nat.le_div_iff_mul_le hpos).1 hle
              unfold uint64Max at this
              omega
        rw [wrapU64_eq_self hlt] at h
        obtain ⟨hresult, hbound⟩ := ih hlt h
        exact ⟨by rw [hresult, List.prod_cons, Nat.mul_assoc], hbound⟩
      · cases h

theorem computeTotal_ok {dims : List Nat} {total : Nat} (h : computeTotal dims = .ok total) :
    total = dims.prod ∧ dims.prod < 2 ^ 64 := by
  obtain ⟨heq, hlt⟩ := productLoop_ok (by norm_num) h
  rw [Nat.one_mul] at heq
  exact ⟨heq, heq ▸ hlt⟩

theorem computeShapeNumel_ok {dims : List Dim} {numel : Nat}
    (h : computeShapeNumel dims = .ok numel) :
    numel = elementCount dims ∧ numel < 2 ^ 64 := by
  obtain ⟨heq, hlt⟩ := productLoop_ok (by norm_num) h
  rw [Nat.one_mul] at heq
  exact ⟨heq, hlt⟩

theorem checkedDimensionToStorage_ok {dim : Nat} {d : Int}
    (h : checkedDimensionToStorage dim = .ok d) : d = dim ∧ (dim : Int) ≤ int64Max := by
  rw [checkedDimensionToStorage] at h
  split at h <;> rename_i hle
  · cases h
    exact ⟨rfl, hle⟩
  · cases h

theorem mapM_checkedDimensionToStorage_ok {dims : List Nat} {sizes : List Int}
    (h : dims.mapM checkedDimensionToStorage = .ok sizes) :
    sizes = dims.map Nat.cast ∧ ∀ d ∈ dims, (d : Int) ≤ int64Max := by
  induction dims generalizing sizes with
  | nil =>
      cases h
      exact ⟨rfl, by simp⟩
  | cons d dims ih =>
      rw [List.mapM_cons, exceptBind_ok] at h
      obtain ⟨n, hn, h⟩ := h
      rw [exceptBind_ok] at h
      obtain ⟨rest, hrest, h⟩ := h
      obtain ⟨rfl, hd⟩ := checkedDimensionToStorage_ok hn
      obtain ⟨rfl, hbound⟩ := ih hrest
      cases h
      refine ⟨rfl, fun x hx => ?_⟩
      rcases List.mem_cons.1 hx with rfl | hx
      · exact hd
      · exact hbound x hx

end Products

section Extent

theorem toU64_sub_one {x : Int} (h : toU64 x ≠ 0) : toU64 (x - 1) = toU64 x - 1 := by
  unfold toU64 at h ⊢
  omega

theorem extentLoop_ok {dims : List Dim} {i e result : Nat} (he : (e : Int) ≤ int64Max)
    (hpos : ∀ d ∈ dims, toU64 d.size ≠ 0) (h : extentLoop i e dims = .ok result) :
    result = e + extent (unsignedAxes dims) ∧ (result : Int) ≤ int64Max ∧
      ∀ d ∈ dims, 0 ≤ d.stride := by
  induction dims generalizing i e with
  | nil =>
      cases h
      exact ⟨rfl, he, by simp⟩
  | cons d dims ih =>
      have hpos' := fun b hb => hpos b (List.mem_cons_of_mem d hb)
      rw [extentLoop] at h
      split at h <;> rename_i hstride
      · cases h
      dsimp only at h
      rw [toU64_sub_one (hpos d List.mem_cons_self)] at h
      split at h <;> rename_i hfit
      · have hle : (toU64 d.size - 1) * toU64 d.stride ≤ int64Max.toNat - e := by
          rcases hfit with hzero | hle
          · rw [hzero, Nat.zero_mul]
            exact Nat.zero_le _
          · rcases Nat.eq_zero_or_pos (toU64 d.size - 1) with hzero | hsize
            · rw [hzero, Nat.zero_mul]
              exact Nat.zero_le _
            · rw [Nat.mul_comm]
              exact (Nat.le_div_iff_mul_le hsize).1 hle
        unfold int64Max at he hle
        have hnext : ((e + (toU64 d.size - 1) * toU64 d.stride : Nat) : Int) ≤ int64Max := by
          unfold int64Max
          omega
        have hlt : e + (toU64 d.size - 1) * toU64 d.stride < 2 ^ 64 := by
          omega
        rw [wrapU64_eq_self hlt] at h
        obtain ⟨hresult, hbound, hnonneg⟩ := ih hnext hpos' h
        refine ⟨?_, hbound, ?_⟩
        · rw [hresult, unsignedAxes_cons, extent_cons, Nat.add_assoc]
          rfl
        · intro b hb
          rcases List.mem_cons.1 hb with rfl | hb
          · omega
          · exact hnonneg b hb
      · cases h

theorem size_ne_zero_of_numel {dims : List Dim}
    (h : elementCount dims ≠ 0) : ∀ d ∈ dims, toU64 d.size ≠ 0 := by
  intro d hd hzero
  refine h (List.prod_eq_zero_iff.2 ?_)
  rw [← hzero]
  exact List.mem_map_of_mem hd

/-- What the check of a non-empty view establishes. -/
theorem checkViewGeometry_ok {dims : List Dim} {view : DataView T}
    (h : checkViewGeometry dims (elementCount dims) view = .ok ())
    (hne : elementCount dims ≠ 0) :
    view.data ≠ 0 ∧ (∀ d ∈ dims, 0 ≤ d.stride) ∧
      (extent (unsignedAxes dims) : Int) ≤ int64Max ∧
      extent (unsignedAxes dims) < view.size := by
  rw [checkViewGeometry, if_neg hne] at h
  split at h <;> rename_i hdata
  · cases h
  rw [exceptBind_ok] at h
  obtain ⟨e, hloop, h⟩ := h
  obtain ⟨he, hbound, hnonneg⟩ :=
    extentLoop_ok (by decide) (size_ne_zero_of_numel hne) hloop
  rw [Nat.zero_add] at he
  subst he
  split at h <;> rename_i hlt
  · exact ⟨hdata, hnonneg, hbound, hlt⟩
  · cases h

end Extent

section Contiguity

theorem wrapI64_congr {x y : Int} (h : x % 2 ^ 64 = y % 2 ^ 64) : wrapI64 x = wrapI64 y := by
  have hmod : ∀ z : Int, wrapI64 (z % 2 ^ 64) = wrapI64 z := fun z => by
    have := Int.emod_bmod z (2 ^ 64)
    exact_mod_cast this
  rw [← hmod x, h, hmod y]

theorem wrapI64_emod (x : Int) : wrapI64 x % 2 ^ 64 = x % 2 ^ 64 := by
  have := Int.bmod_emod (x := x) (m := 2 ^ 64)
  exact_mod_cast this

theorem toU64_wrapI64 (x : Int) : toU64 (wrapI64 x) = toU64 x := by
  rw [toU64, toU64, wrapI64_emod]

theorem toU64_emod (x : Int) : (toU64 x : Int) % 2 ^ 64 = x % 2 ^ 64 := by
  unfold toU64
  omega

theorem wrapI64_mul_size (e : Nat) (size : Int) :
    wrapI64 (wrapI64 e * size) = wrapI64 ((e * toU64 size : Nat) : Int) := by
  refine wrapI64_congr ?_
  rw [Nat.cast_mul, Int.mul_emod, wrapI64_emod, ← toU64_emod size, ← Int.mul_emod]

/-- A contiguous layout whose extent is checked has as many elements as its span. -/
theorem prod_of_contiguousLoop {dims : List Dim} {e : Nat} (he : 0 < e)
    (hpos : ∀ d ∈ dims, toU64 d.size ≠ 0) (hnonneg : ∀ d ∈ dims, 0 ≤ d.stride)
    (hbound : ((e - 1 + extent (unsignedAxes dims) : Nat) : Int) ≤ int64Max)
    (h : contiguousLoop dims (wrapI64 e) = true) :
    e * elementCount dims = e + extent (unsignedAxes dims) := by
  induction dims generalizing e with
  | nil => exact Nat.mul_one e
  | cons d dims ih =>
      have hpos' := fun b hb => hpos b (List.mem_cons_of_mem d hb)
      have hnonneg' := fun b hb => hnonneg b (List.mem_cons_of_mem d hb)
      have hsize := hpos d List.mem_cons_self
      rw [unsignedAxes_cons, extent_cons] at hbound ⊢
      rw [elementCount_cons]
      change e * (toU64 d.size * _) = e + ((toU64 d.size - 1) * toU64 d.stride + _)
      change ((e - 1 + ((toU64 d.size - 1) * toU64 d.stride + _) : Nat) : Int) ≤ _ at hbound
      rcases contiguousLoop_cons h with ⟨hone, h⟩ | ⟨-, hstride, h⟩
      · have hunit : toU64 d.size = 1 := by
          rw [hone]
          rfl
        rw [hunit, Nat.sub_self, Nat.zero_mul, Nat.zero_add] at hbound ⊢
        rw [Nat.one_mul]
        exact ih he hpos' hnonneg' hbound h
      · -- the expected stride is not negative, so it did not wrap
        have hstride0 := hnonneg d List.mem_cons_self
        unfold int64Max at hbound
        have hexpected : wrapI64 e = e := by
          by_cases hlarge : e = 2 ^ 63
          · exfalso
            have : wrapI64 ((2 ^ 63 : Nat) : Int) = -2 ^ 63 := by decide
            rw [hlarge, this] at hstride
            omega
          · refine wrapI64_eq_self ⟨?_, ?_⟩
            · unfold int64Min
              omega
            · unfold int64Max
              omega
        have hu : toU64 d.stride = e := by
          rw [hstride, hexpected, toU64_natCast, wrapU64_eq_self (by omega)]
        rw [hu] at hbound ⊢
        rw [wrapI64_mul_size] at h
        have hsplit : e + (toU64 d.size - 1) * e = e * toU64 d.size := by
          obtain ⟨k, hk⟩ := Nat.exists_eq_succ_of_ne_zero hsize
          rw [hk, Nat.succ_sub_one, Nat.mul_succ, Nat.mul_comm, Nat.add_comm]
        have hnext : 0 < e * toU64 d.size := Nat.mul_pos he (Nat.pos_of_ne_zero hsize)
        have := ih hnext hpos' hnonneg' (by unfold int64Max; omega) h
        rw [← Nat.mul_assoc, this, ← hsplit, Nat.add_assoc]

/-- The expected stride after the contiguity loop. -/
def expectedAfter : List Dim → Int → Int
  | [], e => e
  | d :: dims, e => expectedAfter dims (if d.size = 1 then e else wrapI64 (e * d.size))

theorem contiguousLoop_append {xs ys : List Dim} {e : Int} :
    contiguousLoop (xs ++ ys) e =
      (contiguousLoop xs e && contiguousLoop ys (expectedAfter xs e)) := by
  induction xs generalizing e with
  | nil => rfl
  | cons d xs ih =>
      rw [List.cons_append, contiguousLoop, contiguousLoop, expectedAfter]
      split
      · exact ih
      · split
        · rfl
        · exact ih

theorem expectedAfter_append {xs ys : List Dim} {e : Int} :
    expectedAfter (xs ++ ys) e = expectedAfter ys (expectedAfter xs e) := by
  induction xs generalizing e with
  | nil => rfl
  | cons d xs ih => exact ih

/-- C-order strides are contiguous, also where they wrap around. -/
theorem contiguousLoop_contiguousDims (sizes : List Int) :
    contiguousLoop (contiguousDims sizes).reverse 1 = true ∧
      match contiguousDims sizes with
      | [] => sizes = []
      | d :: dims => InInt64 d.stride ∧ expectedAfter dims.reverse 1 = d.stride := by
  induction sizes with
  | nil => exact ⟨rfl, rfl⟩
  | cons n sizes ih =>
      rw [contiguousDims]
      cases hdims : contiguousDims sizes with
      | nil =>
          have hone : InInt64 1 := by decide
          refine ⟨?_, hone, rfl⟩
          change (if n = 1 then true else if (1 : Int) ≠ 1 then false else true) = true
          simp
      | cons d dims =>
          rw [hdims] at ih
          obtain ⟨hloop, hrange, hexpected⟩ := ih
          have hnext : expectedAfter (d :: dims).reverse 1 = wrapI64 (d.stride * d.size) := by
            rw [List.reverse_cons, expectedAfter_append, hexpected]
            change (if d.size = 1 then d.stride else wrapI64 (d.stride * d.size)) = _
            split <;> rename_i hone
            · rw [hone, Int.mul_one, wrapI64_eq_self hrange]
            · rfl
          refine ⟨?_, wrapI64_inInt64 _, hnext⟩
          rw [List.reverse_cons, contiguousLoop_append, hloop, hnext, Bool.true_and]
          change (if n = 1 then true else if _ ≠ _ then false else true) = true
          simp

end Contiguity

section Shape

theorem contiguousDims_sizes (sizes : List Int) :
    (contiguousDims sizes).map Dim.size = sizes := by
  induction sizes with
  | nil => rfl
  | cons n sizes ih =>
      rw [contiguousDims]
      cases hdims : contiguousDims sizes with
      | nil =>
          rw [hdims] at ih
          rw [← ih]
          rfl
      | cons d dims =>
          rw [hdims] at ih
          rw [← ih]
          rfl

theorem contiguousDims_inInt64 (sizes : List Int) :
    ∀ d ∈ contiguousDims sizes, InInt64 d.stride := by
  induction sizes with
  | nil => simp [contiguousDims]
  | cons n sizes ih =>
      rw [contiguousDims]
      cases hdims : contiguousDims sizes with
      | nil =>
          intro d hd
          obtain rfl := List.mem_singleton.1 hd
          exact (show InInt64 1 by decide)
      | cons b dims =>
          intro d hd
          rcases List.mem_cons.1 hd with rfl | hd
          · exact wrapI64_inInt64 _
          · exact ih d (hdims ▸ hd)

theorem contiguousStrides_ok {dims : List Nat} {strides : List Int}
    (h : contiguousStrides dims = .ok strides) :
    strides = (contiguousDims (dims.map Nat.cast)).map Dim.stride ∧
      ∀ s ∈ strides, 0 ≤ s := by
  induction dims generalizing strides with
  | nil =>
      cases h
      exact ⟨rfl, by simp⟩
  | cons n dims ih =>
      cases dims with
      | nil =>
          cases h
          exact ⟨rfl, by simp⟩
      | cons d dims =>
          rw [contiguousStrides, exceptBind_ok] at h
          obtain ⟨inner, hinner, h⟩ := h
          rw [exceptBind_ok] at h
          obtain ⟨next, hnext, h⟩ := h
          obtain ⟨rfl, hd⟩ := checkedDimensionToStorage_ok hnext
          obtain ⟨hstrides, hnonneg⟩ := ih hinner
          cases hdims : contiguousDims ((d :: dims).map Nat.cast) with
          | nil =>
              have := contiguousDims_sizes ((d :: dims).map Nat.cast)
              rw [hdims] at this
              cases this
          | cons e rest =>
              have hsize : e.size = d := by
                have := contiguousDims_sizes ((d :: dims).map Nat.cast)
                rw [hdims] at this
                exact (List.cons.inj this).1
              rw [hdims] at hstrides
              subst hstrides
              have he : 0 ≤ e.stride := hnonneg _ (List.mem_cons_self ..)
              dsimp only [List.map_cons, List.headD_cons] at h
              split at h <;> rename_i hfit
              · cases h
                have hprod : 0 ≤ e.stride * (d : Int) := Int.mul_nonneg he (Int.natCast_nonneg d)
                have hle : e.stride * (d : Int) ≤ int64Max := by
                  rcases hfit with hzero | hfit
                  · rw [hzero, Int.mul_zero]
                    decide
                  · rcases Nat.eq_zero_or_pos d with rfl | hpos
                    · rw [Nat.cast_zero, Int.mul_zero]
                      decide
                    · exact (Int.le_ediv_iff_mul_le (by exact_mod_cast hpos)).1 hfit
                refine ⟨?_, ?_⟩
                · change _ = (contiguousDims ((n : Int) :: (d :: dims).map Nat.cast)).map
                    Dim.stride
                  rw [contiguousDims, hdims]
                  dsimp only
                  rw [hsize, wrapI64_eq_self ⟨le_trans (by decide) hprod, hle⟩]
                  rfl
                · intro x hx
                  rcases List.mem_cons.1 hx with rfl | hx
                  · exact hprod
                  · exact hnonneg x hx
              · cases h

theorem makeContiguousSas_ok {dims : List Nat} {result : List Dim}
    (h : makeContiguousSas dims = .ok result) :
    result = contiguousDims (dims.map Nat.cast) ∧ (∀ d ∈ dims, (d : Int) ≤ int64Max) ∧
      ∀ d ∈ result, 0 ≤ d.stride := by
  rw [makeContiguousSas, exceptBind_ok] at h
  obtain ⟨strides, hstrides, h⟩ := h
  rw [exceptBind_ok] at h
  obtain ⟨sizes, hsizes, h⟩ := h
  obtain ⟨heq, hnonneg⟩ := contiguousStrides_ok hstrides
  obtain ⟨rfl, hbound⟩ := mapM_checkedDimensionToStorage_ok hsizes
  cases h
  have hresult : List.zipWith Dim.mk (dims.map Nat.cast) strides =
      contiguousDims (dims.map Nat.cast) := by
    conv_lhs => rw [← contiguousDims_sizes (dims.map Nat.cast)]
    rw [heq, List.zipWith_map, List.zipWith_self]
    exact List.map_id' _
  refine ⟨hresult, hbound, fun d hd => ?_⟩
  rw [hresult] at hd
  exact hnonneg _ (heq ▸ List.mem_map_of_mem hd)

theorem elementCount_eq_of_sizes {xs ys : List Dim} (h : xs.map Dim.size = ys.map Dim.size) :
    elementCount xs = elementCount ys := by
  have hmap : ∀ dims : List Dim,
      elementCount dims = ((dims.map Dim.size).map toU64).prod := fun dims => by
    rw [elementCount, List.map_map]
    rfl
  rw [hmap, hmap, h]

theorem elementCount_contiguousDims {dims : List Nat}
    (h : ∀ d ∈ dims, (d : Int) ≤ int64Max) :
    elementCount (contiguousDims (dims.map Nat.cast)) = dims.prod := by
  have hsizes : (contiguousDims (dims.map Nat.cast)).map (fun d => toU64 d.size) = dims := by
    have hcomp : (fun d : Dim => toU64 d.size) = toU64 ∘ Dim.size := rfl
    rw [hcomp, ← List.map_map, contiguousDims_sizes, List.map_map]
    refine (List.map_congr_left fun d hd => ?_).trans (List.map_id dims)
    have := h d hd
    unfold int64Max at this
    exact (toU64_natCast d).trans (wrapU64_eq_self (by omega))
  rw [elementCount, hsizes]

end Shape

section Windowed

variable {S : SimdTarget T} {t : TensorImpl T}

theorem logicalOffsetLoop_le (dims : List Dim) (off rem : Nat) :
    logicalOffsetLoop dims off rem ≤ off + extent (unsignedAxes dims) := by
  induction dims generalizing off rem with
  | nil => exact Nat.le_refl _
  | cons d dims ih =>
      rw [logicalOffsetLoop, unsignedAxes_cons, extent_cons]
      split <;> rename_i hzero
      · exact Nat.zero_le _
      · have hmod := Nat.mod_lt rem (Nat.pos_of_ne_zero hzero)
        have hstep : rem % toU64 d.size * toU64 d.stride ≤
            (d.unsigned.size - 1) * d.unsigned.stride :=
          Nat.mul_le_mul_right _ (Nat.le_sub_one_of_lt hmod)
        have hwrap : wrapU64 (off + rem % toU64 d.size * toU64 d.stride) ≤
            off + rem % toU64 d.size * toU64 d.stride := Nat.mod_le _ _
        have := ih (wrapU64 (off + rem % toU64 d.size * toU64 d.stride)) (rem / toU64 d.size)
        omega

/-- The element count is the product of the dimensions, as `dimension(n)` reports
them, and the offset of every element lies in the window. -/
structure TensorImpl.InWindow (t : TensorImpl T) : Prop where
  numel_eq : t.numel = elementCount t.sizesAndStrides
  offset_lt : ∀ i < t.numel, t.logicalOffset i < t.view.size

/-- The representation invariant: up-to-date fields, and a window that holds a
contiguous tensor's elements and covers the extent of any other. -/
structure TensorImpl.Windowed (S : SimdTarget T) (t : TensorImpl T) : Prop where
  cached : t.Cached S
  numel_eq : t.numel = elementCount t.sizesAndStrides
  flat : t.contiguous = true → t.numel ≤ t.view.size
  extent_lt : t.contiguous = false → extent (unsignedAxes t.sizesAndStrides) < t.view.size

theorem TensorImpl.Windowed.inWindow (h : t.Windowed S) : t.InWindow := by
  refine ⟨h.numel_eq, fun i hi => ?_⟩
  rw [logicalOffset]
  cases hcontig : t.contiguous with
  | true => exact Nat.lt_of_lt_of_le hi (h.flat hcontig)
  | false =>
      have hle := logicalOffsetLoop_le t.sizesAndStrides.reverse 0 i
      rw [Nat.zero_add, extent_perm (unsignedAxes_perm (List.reverse_perm _))] at hle
      exact Nat.lt_of_le_of_lt hle (h.extent_lt hcontig)

@[simp] theorem TensorImpl.recompute_sizesAndStrides :
    (t.recompute S).sizesAndStrides = t.sizesAndStrides := by
  rw [recompute]
  split <;> rfl

@[simp] theorem TensorImpl.recompute_view : (t.recompute S).view = t.view := by
  rw [recompute]
  split <;> rfl

@[simp] theorem TensorImpl.recompute_isView : (t.recompute S).isView = t.isView := by
  rw [recompute]
  split <;> rfl

theorem foldl_toU64 (dims : List Dim) {total : Nat} (htotal : total < 2 ^ 64) :
    dims.foldl (fun total d => wrapU64 (total * toU64 d.size)) total =
      wrapU64 (total * elementCount dims) := by
  induction dims generalizing total with
  | nil => rw [List.foldl_nil, elementCount_nil, Nat.mul_one, wrapU64_eq_self htotal]
  | cons d dims ih =>
      rw [List.foldl_cons, ih (wrapU64_lt _), elementCount_cons, wrapU64_wrapU64_mul,
        Nat.mul_assoc]

theorem TensorImpl.totalSize_eq_count : t.totalSize =
    wrapU64 (elementCount t.sizesAndStrides) := by
  rw [totalSize, foldl_toU64 _ (by norm_num), Nat.one_mul]

/-- Recomputing finds the element count when it fits. -/
theorem TensorImpl.recompute_numel (hfit : elementCount t.sizesAndStrides < 2 ^ 64) :
    (t.recompute S).numel = elementCount t.sizesAndStrides := by
  rw [recompute]
  split <;> rename_i hrank
  · have hdims : t.sizesAndStrides = [] := List.length_eq_zero_iff.1 hrank
    rw [hdims]
    rfl
  · exact t.totalSize_eq_count.trans (wrapU64_eq_self hfit)

/-- Recomputing finds a packed layout contiguous. -/
theorem TensorImpl.recompute_contiguous (sizes : List Int)
    (h : t.sizesAndStrides = contiguousDims sizes) : (t.recompute S).contiguous = true := by
  rw [recompute]
  split
  · rfl
  · dsimp only
    rw [h, (contiguousLoop_contiguousDims sizes).1, ite_self]

theorem TensorImpl.recompute_contiguous_of_empty
    (h : elementCount t.sizesAndStrides = 0) : (t.recompute S).contiguous = true := by
  rw [recompute]
  split
  · rfl
  · exact if_pos (by rw [t.totalSize_eq_count, h, wrapU64, Nat.zero_mod])

/-- The contiguous flag of a non-empty tensor is the verdict of the loop. -/
theorem TensorImpl.contiguousLoop_of_recompute
    (hfit : elementCount t.sizesAndStrides < 2 ^ 64)
    (hne : elementCount t.sizesAndStrides ≠ 0) (h : (t.recompute S).contiguous = true) :
    contiguousLoop t.sizesAndStrides.reverse 1 = true := by
  rw [recompute] at h
  split at h <;> rename_i hrank
  · have hdims : t.sizesAndStrides = [] := List.length_eq_zero_iff.1 hrank
    rw [hdims]
    rfl
  · dsimp only at h
    rwa [if_neg (by rwa [t.totalSize_eq_count, wrapU64_eq_self hfit])] at h

/-- A packed layout in a window with room for its elements. -/
theorem TensorImpl.windowed_of_packed (sizes : List Int)
    (h : t.sizesAndStrides = contiguousDims sizes)
    (hfit : elementCount t.sizesAndStrides < 2 ^ 64)
    (hle : elementCount t.sizesAndStrides ≤ t.view.size) : (t.recompute S).Windowed S := by
  have hcontig := recompute_contiguous (S := S) sizes h
  refine ⟨recompute_cached S t, ?_, fun _ => ?_, fun hnot => ?_⟩
  · rw [recompute_numel hfit, recompute_sizesAndStrides]
  · rw [recompute_numel hfit, recompute_view]
    exact hle
  · rw [hcontig] at hnot
    cases hnot

/-- Whatever the retaining constructor accepts lies in its window. -/
theorem retain_windowed {isView : Bool} {view : DataView T} {dims : List Dim}
    (h : retain S isView view dims = .ok t) : t.Windowed S := by
  rw [retain, exceptBind_ok] at h
  obtain ⟨numel, hnumel, h⟩ := h
  rw [exceptBind_ok] at h
  obtain ⟨_, hcheck, h⟩ := h
  obtain ⟨rfl, hfit⟩ := computeShapeNumel_ok hnumel
  cases h
  refine ⟨TensorImpl.recompute_cached S _, ?_, fun hcontig => ?_, fun hcontig => ?_⟩
  · rw [TensorImpl.recompute_numel hfit, TensorImpl.recompute_sizesAndStrides]
  · rw [TensorImpl.recompute_numel hfit, TensorImpl.recompute_view]
    by_cases hne : elementCount dims = 0
    · exact hne ▸ Nat.zero_le _
    obtain ⟨-, hnonneg, hbound, hlt⟩ := checkViewGeometry_ok hcheck hne
    have hloop := TensorImpl.contiguousLoop_of_recompute hfit hne hcontig
    have hperm := List.reverse_perm dims
    have hprod := prod_of_contiguousLoop (e := 1) Nat.one_pos
      (fun d hd => size_ne_zero_of_numel hne d (List.mem_reverse.1 hd))
      (fun d hd => hnonneg d (List.mem_reverse.1 hd))
      (by rwa [Nat.sub_self, Nat.zero_add, extent_perm (unsignedAxes_perm hperm)]) hloop
    rw [Nat.one_mul, elementCount_perm hperm, extent_perm (unsignedAxes_perm hperm)] at hprod
    change elementCount dims ≤ view.size
    omega
  · rw [TensorImpl.recompute_sizesAndStrides, TensorImpl.recompute_view]
    by_cases hne : elementCount dims = 0
    · rw [TensorImpl.recompute_contiguous_of_empty hne] at hcontig
      cases hcontig
    · exact (checkViewGeometry_ok hcheck hne).2.2.2

end Windowed

end Vectorization
