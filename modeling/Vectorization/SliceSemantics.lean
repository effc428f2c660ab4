/-
Slices against Python's.  A slice of a valid tensor whose 64-bit arithmetic stays in
range succeeds and selects what Python's range selects; the two sums and products
that can leave the range are the rounding of the length and the new stride.
-/
import Vectorization.ViewComposition

namespace Vectorization

open StridedSpace MachineInteger AtomicRun

variable {T : ElementType}

/-- The exact value of the signed sum for a bound, where there is one. -/
def boundIntermediates (dimSize v : Int) : List Int :=
  if v < 0 then [v + dimSize] else []

/-- The exact values of the signed operations of `slice`, in their order. -/
def sliceIntermediates (d : Dim) (start stop : Option Int) (step : Int) : List Int :=
  let first := sliceFirst d.size start
  let last := sliceLast d.size stop
  boundIntermediates d.size (start.getD 0) ++ boundIntermediates d.size (stop.getD d.size) ++
    (if first < last then [last - first, last - first + step, last - first + step - 1] else []) ++
    [d.stride * step]

/-- Python's `range(first, last, step)`. -/
def pythonRange (first last step : Nat) : List Nat :=
  (List.range last).filter fun i => decide (first ≤ i ∧ (i - first) % step = 0)

/-- A tensor that passes the checks of the retaining constructor. -/
structure TensorImpl.Valid (t : TensorImpl T) : Prop where
  sizes : ∀ d ∈ t.sizesAndStrides, 0 ≤ d.size ∧ d.size ≤ int64Max
  counted : computeShapeNumel t.sizesAndStrides = .ok (elementCount t.sizesAndStrides)
  geometry : checkViewGeometry t.sizesAndStrides (elementCount t.sizesAndStrides) t.view = .ok ()

/-- A slice that succeeds as Python's does: no signed operation overflows, the result
takes the elements of Python's range and stays where its source is. -/
structure TensorImpl.SlicesLikePython (S : SimdTarget T) (subview : Subview T) (t : TensorImpl T)
    (dim : Nat) (d : Dim) (start stop : Option Int) (step : Int) : Prop where
  exact : ∀ x ∈ sliceIntermediates d start stop step, InInt64 x
  succeeds : ∃ r, t.slice S subview dim start stop step = .ok r ∧
    r.shape = t.shape.set dim
      (pythonRange (pythonBound (toU64 d.size) (start.getD 0))
        (pythonBound (toU64 d.size) (stop.getD (toU64 d.size : Nat))) step.toNat).length ∧
    (∀ idx, InBounds idx r.shape →
      let source := idx.modify dim fun k =>
        pythonBound (toU64 d.size) (start.getD 0) + step.toNat * k
      InBounds source t.shape ∧ r.elementAddress idx = t.elementAddress source) ∧
    r.device = t.device ∧ r.deviceIndex = t.deviceIndex

/-- The new stride and the rounded length of a slice are 64-bit values. -/
def SliceInRange (d : Dim) (start stop : Option Int) (step : Int) : Prop :=
  let first := pythonBound (toU64 d.size) (start.getD 0)
  let last := pythonBound (toU64 d.size) (stop.getD (toU64 d.size : Nat))
  InInt64 (d.stride * step) ∧ (first < last → ((last - first : Nat) : Int) + step ≤ int64Max)

section Range

theorem lt_steppedCount_iff {first last step i : Nat} (hstep : 0 < step) :
    i < steppedCount first last step ↔ first + step * i < last := by
  refine ⟨steppedCount_fits hstep, fun hlt => ?_⟩
  rw [steppedCount]
  refine Nat.lt_of_succ_le ((Nat.le_div_iff_mul_le hstep).2 ?_)
  rw [Nat.succ_mul, Nat.mul_comm i]
  omega

/-- The length of Python's range, rounded up. -/
theorem length_pythonRange {first last step : Nat} (hstep : 0 < step) :
    (pythonRange first last step).length = steppedCount first last step := by
  have hinj : Function.Injective fun k => first + step * k := fun j k hjk =>
    Nat.eq_of_mul_eq_mul_left hstep (Nat.add_left_cancel hjk)
  have hperm : (pythonRange first last step).Perm
      ((List.range (steppedCount first last step)).map fun k => first + step * k) := by
    refine (List.perm_ext_iff_of_nodup (List.nodup_range.filter _)
      (List.nodup_range.map hinj)).2 fun i => ?_
    simp only [List.mem_filter, List.mem_range, decide_eq_true_eq, List.mem_map]
    constructor
    · rintro ⟨hlast, hfirst, hmod⟩
      obtain ⟨k, hk⟩ := Nat.dvd_of_mod_eq_zero hmod
      exact ⟨k, (lt_steppedCount_iff hstep).2 (by omega), by omega⟩
    · rintro ⟨k, hk, rfl⟩
      refine ⟨(lt_steppedCount_iff hstep).1 hk, Nat.le_add_right _ _, ?_⟩
      rw [Nat.add_sub_cancel_left, Nat.mul_mod_right]
  rw [hperm.length_eq, List.length_map, List.length_range]

end Range

section Checks

theorem productLoop_mono {overflow : Raise} {dims dims' : List Nat}
    (h : List.Forall₂ (· ≤ ·) dims' dims) {total total' result : Nat} (htotal : total < 2 ^ 64)
    (hle : total' ≤ total) (hok : productLoop overflow total dims = .ok result) :
    productLoop overflow total' dims' = .ok (total' * dims'.prod) := by
  induction h generalizing total total' with
  | nil => rw [productLoop, List.prod_nil, Nat.mul_one]
  | @cons d' d dims' dims hd _ ih =>
      rw [productLoop] at hok ⊢
      split at hok <;> rename_i hfit
      · have hlt : total * d < 2 ^ 64 := by
          rcases hfit with rfl | hfit
          · norm_num
          · rcases Nat.eq_zero_or_pos d with rfl | hpos
            · norm_num
            · have := (Nat.le_div_iff_mul_le hpos).1 hfit
              unfold uint64Max at this
              omega
        have hnext : total' * d' ≤ total * d := Nat.mul_le_mul hle hd
        have hfit' : d' = 0 ∨ total' ≤ uint64Max / d' := by
          rcases Nat.eq_zero_or_pos d' with hzero | hpos
          · exact .inl hzero
          · refine .inr ((Nat.le_div_iff_mul_le hpos).2 ?_)
            unfold uint64Max
            omega
        rw [wrapU64_eq_self hlt] at hok
        rw [if_pos hfit', wrapU64_eq_self (Nat.lt_of_le_of_lt hnext hlt), ih hlt hnext hok,
          List.prod_cons, Nat.mul_assoc]
      · cases hok

theorem computeShapeNumel_mono {dims dims' : List Dim}
    (h : List.Forall₂ (fun d' d => toU64 d'.size ≤ toU64 d.size) dims' dims) {n : Nat}
    (hok : computeShapeNumel dims = .ok n) :
    computeShapeNumel dims' = .ok (elementCount dims') := by
  have hsizes := List.forall₂_map_left_iff.2 (List.forall₂_map_right_iff.2 h)
  have := productLoop_mono hsizes (by norm_num) (Nat.le_refl 1) hok
  rwa [Nat.one_mul] at this

/-- Non-negative strides whose extent is a 64-bit value pass the extent loop. -/
theorem extentLoop_eq {dims : List Dim} {i e : Nat} (hpos : ∀ d ∈ dims, toU64 d.size ≠ 0)
    (hstride : ∀ d ∈ dims, 0 ≤ d.stride)
    (hfit : ((e + extent (unsignedAxes dims) : Nat) : Int) ≤ int64Max) :
    extentLoop i e dims = .ok (e + extent (unsignedAxes dims)) := by
  induction dims generalizing i e with
  | nil => rfl
  | cons d dims ih =>
      have hd := hstride d List.mem_cons_self
      rw [unsignedAxes_cons, extent_cons] at hfit ⊢
      change ((e + ((toU64 d.size - 1) * toU64 d.stride + _) : Nat) : Int) ≤ _ at hfit
      change _ = Except.ok (e + ((toU64 d.size - 1) * toU64 d.stride + _))
      have hroom : toU64 d.size - 1 = 0 ∨
          toU64 d.stride ≤ (int64Max.toNat - e) / (toU64 d.size - 1) := by
        rcases Nat.eq_zero_or_pos (toU64 d.size - 1) with hzero | hcount
        · exact .inl hzero
        · refine .inr ((Nat.le_div_iff_mul_le hcount).2 ?_)
          rw [Nat.mul_comm]
          unfold int64Max at hfit ⊢
          omega
      unfold int64Max at hfit
      rw [extentLoop, if_neg (Int.not_lt.2 hd)]
      dsimp only
      rw [toU64_sub_one (hpos d List.mem_cons_self), if_pos hroom, wrapU64_eq_self (by omega),
        ih (fun b hb => hpos b (List.mem_cons_of_mem d hb))
          (fun b hb => hstride b (List.mem_cons_of_mem d hb)) (by unfold int64Max; omega),
        Nat.add_assoc]

theorem checkViewGeometry_eq {dims : List Dim} {view : DataView T}
    (hok : elementCount dims ≠ 0 → view.data ≠ 0 ∧ (∀ d ∈ dims, 0 ≤ d.stride) ∧
      (extent (unsignedAxes dims) : Int) ≤ int64Max ∧ extent (unsignedAxes dims) < view.size) :
    checkViewGeometry dims (elementCount dims) view = .ok () := by
  rw [checkViewGeometry]
  split <;> rename_i hne
  · rfl
  · obtain ⟨hdata, hstride, hfit, hlt⟩ := hok hne
    rw [if_neg hdata, extentLoop_eq (size_ne_zero_of_numel hne) hstride
      (by rwa [Nat.zero_add]), Nat.zero_add]
    exact if_pos hlt

theorem retain_eq {S : SimdTarget T} {isView : Bool} {view : DataView T} {dims : List Dim}
    (hcount : computeShapeNumel dims = .ok (elementCount dims))
    (hcheck : checkViewGeometry dims (elementCount dims) view = .ok ()) :
    ∃ r, retain S isView view dims = .ok r :=
  ⟨_, exceptBind_ok.2 ⟨_, hcount, exceptBind_ok.2 ⟨(), hcheck, rfl⟩⟩⟩

theorem TensorImpl.Valid.spanned {t : TensorImpl T} (h : t.Valid) : t.Spanned := by
  refine ⟨h.sizes, fun hne => ?_⟩
  obtain ⟨-, -, hfit, hlt⟩ := checkViewGeometry_ok h.geometry hne
  unfold int64Max at hfit
  omega

end Checks

section Slice

variable {S : SimdTarget T} {subview : Subview T} {t : TensorImpl T} {dim : Nat} {d : Dim}
  {start stop : Option Int} {step : Int}

theorem extent_set {axes : List (Axis Nat)} {k : Nat} {a : Axis Nat} (ha : axes[k]? = some a)
    (b : Axis Nat) :
    extent (axes.set k b) + (a.size - 1) * a.stride =
      extent axes + (b.size - 1) * b.stride := by
  induction axes generalizing k with
  | nil => cases ha
  | cons c axes ih =>
      cases k with
      | zero =>
          cases ha
          rw [List.set_cons_zero, extent_cons, extent_cons]
          omega
      | succ k =>
          have := ih ha
          rw [List.set_cons_succ, extent_cons, extent_cons]
          omega

theorem forall₂_set {β : Type} {R : β → β → Prop} (hrefl : ∀ x, R x x) {xs : List β} {k : Nat}
    {x y : β} (hx : xs[k]? = some x) (hyx : R y x) : List.Forall₂ R (xs.set k y) xs := by
  induction xs generalizing k with
  | nil => cases hx
  | cons z xs ih =>
      cases k with
      | zero =>
          cases hx
          exact List.Forall₂.cons hyx (List.forall₂_same.2 fun a _ => hrefl a)
      | succ k => exact List.Forall₂.cons (hrefl z) (ih hx)

theorem elementCount_le {dims dims' : List Dim}
    (h : List.Forall₂ (fun d' d => toU64 d'.size ≤ toU64 d.size) dims' dims) :
    elementCount dims' ≤ elementCount dims := by
  induction h with
  | nil => exact Nat.le_refl _
  | cons hd _ ih =>
      rw [elementCount_cons, elementCount_cons]
      exact Nat.mul_le_mul hd ih

theorem SliceInRange.fits (h : SliceInRange d start stop step)
    (hstart : ∀ v ∈ start, InInt64 v) (hstop : ∀ v ∈ stop, InInt64 v)
    (hd : t.sizesAndStrides[dim]? = some d) (hsize : 0 ≤ d.size ∧ d.size ≤ int64Max)
    (hstep : 1 ≤ step) : (ViewOp.slice dim start stop step).Fits t.sizesAndStrides := by
  refine ⟨hstart, hstop, fun d' hd' => ?_⟩
  cases hd.symm.trans hd'
  refine ⟨h.1, fun hlt => ?_⟩
  rw [sliceFirst_eq hsize hstart, sliceLast_eq hsize hstop] at hlt ⊢
  have hle := h.2 (by exact_mod_cast hlt)
  refine ⟨le_trans (by decide) (show (0 : Int) ≤ _ by omega), ?_⟩
  omega

/-- A narrowed dimension leaves a layout that is counted, and that spans its source's
window from the first element taken on. -/
theorem TensorImpl.Valid.narrowed (ht : t.Valid) (hd : t.sizesAndStrides[dim]? = some d)
    {n first k : Nat} {stride : Int} (hn : (n : Int) ≤ int64Max) (hle : n ≤ toU64 d.size)
    (hfit : n ≠ 0 → first + k * (n - 1) < toU64 d.size)
    (hstride : 0 ≤ d.stride → 0 ≤ stride ∧ toU64 stride = k * toU64 d.stride) :
    let dims := t.sizesAndStrides.set dim ⟨n, stride⟩
    computeShapeNumel dims = .ok (elementCount dims) ∧
      (elementCount dims ≠ 0 → t.view.data ≠ 0 ∧ (∀ b ∈ dims, 0 ≤ b.stride) ∧
        extent (unsignedAxes dims) + first * toU64 d.stride ≤
          extent (unsignedAxes t.sizesAndStrides) ∧
        (extent (unsignedAxes t.sizesAndStrides) : Int) ≤ int64Max ∧
        extent (unsignedAxes t.sizesAndStrides) < t.view.size) := by
  have hnU : toU64 (n : Int) = n := by
    unfold int64Max at hn
    exact (toU64_natCast n).trans (wrapU64_eq_self (by omega))
  have hsizes : List.Forall₂ (fun d' d : Dim => toU64 d'.size ≤ toU64 d.size)
      (t.sizesAndStrides.set dim ⟨n, stride⟩) t.sizesAndStrides :=
    forall₂_set (R := fun d' d : Dim => toU64 d'.size ≤ toU64 d.size) (fun _ => Nat.le_refl _) hd
      (hnU.symm ▸ hle)
  refine ⟨computeShapeNumel_mono hsizes ht.counted, fun hne => ?_⟩
  have hmem := List.mem_set (List.getElem?_eq_some_iff.1 hd).1 (⟨n, stride⟩ : Dim)
  have hn0 : n ≠ 0 := fun hzero => size_ne_zero_of_numel hne _ hmem (by rw [hnU, hzero])
  have hne' : elementCount t.sizesAndStrides ≠ 0 := by
    have := elementCount_le hsizes
    omega
  obtain ⟨hdata, hnonneg, hbound, hlt⟩ := checkViewGeometry_ok ht.geometry hne'
  obtain ⟨hstride0, hstrideU⟩ := hstride (hnonneg d (List.mem_of_getElem? hd))
  refine ⟨hdata, fun b hb => ?_, ?_, hbound, hlt⟩
  · rcases List.mem_or_eq_of_mem_set hb with hb | rfl
    · exact hnonneg b hb
    · exact hstride0
  · have hget : (unsignedAxes t.sizesAndStrides)[dim]? = some d.unsigned := by
      rw [unsignedAxes, List.getElem?_map, hd, Option.map_some]
    have hset := extent_set hget ⟨n, k * toU64 d.stride⟩
    have haxes : unsignedAxes (t.sizesAndStrides.set dim ⟨n, stride⟩) =
        (unsignedAxes t.sizesAndStrides).set dim ⟨n, k * toU64 d.stride⟩ := by
      rw [unsignedAxes, List.map_set, Dim.unsigned, hnU, hstrideU]
      rfl
    have hspan : (first + k * (n - 1)) * toU64 d.stride ≤
        (toU64 d.size - 1) * toU64 d.stride :=
      Nat.mul_le_mul_right _ (Nat.le_sub_one_of_lt (hfit hn0))
    rw [Nat.add_mul, Nat.mul_comm k, Nat.mul_assoc] at hspan
    rw [haxes]
    change _ + (toU64 d.size - 1) * toU64 d.stride = _ + (n - 1) * (k * toU64 d.stride) at hset
    omega

theorem toU64_wrap_mul_step {stride : Int} (hstep : 1 ≤ step) (hfit : InInt64 (stride * step))
    (hstride : 0 ≤ stride) :
    0 ≤ wrapI64 (stride * step) ∧
      toU64 (wrapI64 (stride * step)) = step.toNat * toU64 stride := by
  have hnonneg : 0 ≤ wrapI64 (stride * step) := by
    rw [wrapI64_eq_self hfit]
    exact Int.mul_nonneg hstride (by omega)
  exact ⟨hnonneg, toU64_mul_step hstep hfit hnonneg⟩

/-- A slice of a valid tensor whose arithmetic stays in range passes every check. -/
theorem TensorImpl.Valid.slice_succeeds (ht : t.Valid) (hsub : SubviewInRange subview)
    (hd : t.sizesAndStrides[dim]? = some d) (hstart : ∀ v ∈ start, InInt64 v)
    (hstop : ∀ v ∈ stop, InInt64 v) (hstep : 1 ≤ step) (h : SliceInRange d start stop step) :
    ∃ r, t.slice S subview dim start stop step = .ok r := by
  have hsize := ht.sizes d (List.mem_of_getElem? hd)
  obtain ⟨-, -, hfit⟩ := h.fits hstart hstop hd hsize hstep
  obtain ⟨hstride, hround⟩ := hfit d hd
  obtain ⟨hfirst, hcount⟩ := slice_bounds hsize hstep hstart hstop hround
  have hfirstLe := pythonBound_le (toU64 d.size) (start.getD 0)
  have hlastLe := pythonBound_le (toU64 d.size) (stop.getD (toU64 d.size : Nat))
  rw [slice, hd]
  dsimp only
  rw [if_neg (Int.not_lt.2 hstep), hcount, hfirst]
  generalize pythonBound (toU64 d.size) (start.getD 0) = first at *
  generalize pythonBound (toU64 d.size) (stop.getD (toU64 d.size : Nat)) = last at *
  have hstep' : 0 < step.toNat := by omega
  have hle := steppedCount_le first last hstep'
  have hsizeU := toU64_of_nonneg hsize.1 hsize.2
  have hfirstU : toU64 (first : Int) = first := by
    unfold int64Max at hsize
    exact (toU64_natCast first).trans (wrapU64_eq_self (by omega))
  have hfits : steppedCount first last step.toNat ≠ 0 →
      first + step.toNat * (steppedCount first last step.toNat - 1) < toU64 d.size :=
    fun hne => Nat.lt_of_lt_of_le (steppedCount_fits hstep' (Nat.sub_one_lt hne)) hlastLe
  obtain ⟨hcounted, hgeometry⟩ := ht.narrowed hd (by omega) (by omega) hfits
    (toU64_wrap_mul_step hstep hstride)
  refine retain_eq hcounted (checkViewGeometry_eq fun hne => ?_)
  obtain ⟨hdata, hnonneg, hspan, hbound, hlt⟩ := hgeometry hne
  unfold int64Max at hbound ⊢
  rw [hfirstU, wrapU64_eq_self (by omega), if_neg (by omega), hsub _ _ _ (by omega)]
  dsimp only
  refine ⟨fun hzero => hdata (Nat.eq_zero_of_add_eq_zero_right hzero), hnonneg, ?_, ?_⟩ <;> omega

/-- A slice keeps the device of its source, also when it is empty. -/
theorem TensorImpl.slice_device (hsub : SubviewInRange subview) {r : TensorImpl T}
    (h : t.slice S subview dim start stop step = .ok r) :
    r.device = t.device ∧ r.deviceIndex = t.deviceIndex := by
  obtain ⟨d, offset, -, -, -, h⟩ := slice_ok h
  obtain ⟨-, hview, -⟩ := retain_ok h
  rw [device, deviceIndex, hview]
  split <;> rename_i hempty
  · exact ⟨rfl, rfl⟩
  · rw [hsub _ _ _ (by omega)]
    exact ⟨rfl, rfl⟩

theorem boundIntermediates_inInt64 {n v : Int} (hn : 0 ≤ n ∧ n ≤ int64Max) (hv : InInt64 v) :
    ∀ x ∈ boundIntermediates n v, InInt64 x := by
  intro x hx
  rw [boundIntermediates] at hx
  split at hx <;> rename_i hneg
  · obtain rfl := List.mem_singleton.1 hx
    obtain ⟨hlo, -⟩ := hv
    exact ⟨by omega, by omega⟩
  · cases hx

theorem sliceIntermediates_inInt64 (hsize : 0 ≤ d.size ∧ d.size ≤ int64Max)
    (hstart : ∀ v ∈ start, InInt64 v) (hstop : ∀ v ∈ stop, InInt64 v) (hstep : 1 ≤ step)
    (h : SliceInRange d start stop step) :
    ∀ x ∈ sliceIntermediates d start stop step, InInt64 x := by
  have hrange : InInt64 d.size := ⟨le_trans (by decide) hsize.1, hsize.2⟩
  have hstartD : InInt64 (start.getD 0) := by
    cases start with
    | none => exact (show InInt64 0 by decide)
    | some v => exact hstart v rfl
  have hstopD : InInt64 (stop.getD d.size) := by
    cases stop with
    | none => exact hrange
    | some v => exact hstop v rfl
  intro x hx
  rw [sliceIntermediates, sliceFirst_eq hsize hstart, sliceLast_eq hsize hstop] at hx
  obtain ⟨hstride, hround⟩ := h
  rcases List.mem_append.1 hx with hx | hx
  · rcases List.mem_append.1 hx with hx | hx
    · rcases List.mem_append.1 hx with hx | hx
      · exact boundIntermediates_inInt64 hsize hstartD x hx
      · exact boundIntermediates_inInt64 hsize hstopD x hx
    · -- from last - first on, every value lies between zero and the rounded length
      split at hx <;> rename_i hlt
      · have hle := hround (by exact_mod_cast hlt)
        have hmin : int64Min ≤ 0 := by decide
        simp only [List.mem_cons, List.not_mem_nil, or_false] at hx
        rcases hx with rfl | rfl | rfl <;> exact ⟨by omega, by omega⟩
      · cases hx
  · obtain rfl := List.mem_singleton.1 hx
    exact hstride

/-- A slice of a valid tensor behaves as Python's exactly when its new stride and its
rounded length are 64-bit values. -/
theorem TensorImpl.Valid.slicesLikePython_iff (ht : t.Valid) (hsub : SubviewInRange subview)
    (hd : t.sizesAndStrides[dim]? = some d) (hstart : ∀ v ∈ start, InInt64 v)
    (hstop : ∀ v ∈ stop, InInt64 v) (hstep : 1 ≤ step) :
    t.SlicesLikePython S subview dim d start stop step ↔ SliceInRange d start stop step := by
  have hsize := ht.sizes d (List.mem_of_getElem? hd)
  have hfirst := sliceFirst_eq hsize hstart
  have hlast := sliceLast_eq hsize hstop
  constructor
  · intro h
    have hexact := h.exact
    rw [sliceIntermediates, hfirst, hlast] at hexact
    rw [SliceInRange]
    generalize pythonBound (toU64 d.size) (start.getD 0) = first at *
    generalize pythonBound (toU64 d.size) (stop.getD (toU64 d.size : Nat)) = last at *
    refine ⟨hexact _ (by simp), fun hlt => ?_⟩
    rw [if_pos (show (first : Int) < last by exact_mod_cast hlt)] at hexact
    have hsum := (hexact (last - first + step) (by simp)).2
    omega
  · intro h
    obtain ⟨r, hr⟩ := ht.slice_succeeds (S := S) hsub hd hstart hstop hstep h
    have hreads := slice_reads hsub ht.spanned (h.fits hstart hstop hd hsize hstep) hr
    have hgetD : t.shape.getD dim 0 = toU64 d.size := by
      rw [shape, StridedSpace.sizes, unsignedAxes, List.map_map, List.getD_eq_getElem?_getD,
        List.getElem?_map, hd]
      rfl
    refine ⟨sliceIntermediates_inInt64 hsize hstart hstop hstep h, r, hr, ?_, ?_,
      slice_device hsub hr⟩
    · rw [hreads.shape, ViewOp.resultShape, hgetD, length_pythonRange (by omega)]
    · have haddress := hreads.address
      simp only [ViewOp.sourceIndex, hgetD] at haddress
      exact haddress

end Slice

namespace SliceWitness

open Sample ViewCompositionWitness

/-- Ten floats. -/
def vector : TensorImpl float :=
  TensorImpl.recompute fourLanes (.bare false ⟨4096, 10, .cpu, 0⟩ [⟨10, 1⟩])

theorem valid_vector : vector.Valid := ⟨by decide, rfl, rfl⟩

/-- The elements from the third from the end on. -/
theorem slicesLikePython_iff_tail :
    vector.SlicesLikePython fourLanes windowAt 0 ⟨10, 1⟩ (some (-3)) none 1 := by
  refine (valid_vector.slicesLikePython_iff (fun _ _ _ _ => rfl) rfl ?_ ?_ (by decide)).2 ?_
  · rintro v ⟨⟩
    decide
  · rintro v ⟨⟩
  · exact ⟨by decide, fun _ => by decide⟩

/-- The largest step overflows the rounded length: the slice is empty where Python's
has one element. -/
theorem slicesLikePython_largest_step :
    ¬ ∀ (t : TensorImpl float) (dim : Nat) (d : Dim) (start stop : Option Int) (step : Int),
      t.Valid → t.sizesAndStrides[dim]? = some d → (∀ v ∈ start, InInt64 v) →
      (∀ v ∈ stop, InInt64 v) → 1 ≤ step → InInt64 step →
      t.SlicesLikePython fourLanes windowAt dim d start stop step := by
  intro h
  have hslice := h vector 0 ⟨10, 1⟩ none none int64Max valid_vector rfl (by simp) (by simp)
    (by decide) (by decide)
  obtain ⟨r, hr, hshape, -⟩ := hslice.succeeds
  have hempty : (vector.slice fourLanes windowAt 0 none none int64Max).map TensorImpl.shape =
      .ok [0] := by decide
  have hlength : (pythonRange 0 10 int64Max.toNat).length = 1 := by
    rw [length_pythonRange (by decide)]
    decide
  rw [hr] at hempty
  change r.shape = [(pythonRange 0 10 int64Max.toNat).length] at hshape
  rw [hlength] at hshape
  injection hempty with hempty
  rw [hshape] at hempty
  exact absurd hempty (by decide)

end SliceWitness

end Vectorization
