/-
Exactness of the overlap classifier.  The 64-bit loops compute natural extents
and the stacked-stride test; the carry walk decides whether the signed digits
of two nested layouts represent their distance; and a verdict other than
too-hard settles whether the two layouts share a byte.
-/
import Vectorization.Overlap

namespace Vectorization

open StridedSpace MachineInteger SignedDigits

variable {T : ElementType}

/-- A layout the classifier is promised: its element count is the product of
its sizes, no stride is negative and its byte range, if any, does not wrap. -/
structure StridedRef.Addressable (s : StridedRef T) : Prop where
  numel_eq : s.numel = s.sizes.prod
  stride_nonneg : ∀ a ∈ s.dims, 0 ≤ a.stride
  fits : s.numel ≠ 0 → s.data + (extent (natAxes s.dims) + 1) * T.size < 2 ^ 64

/-- An addressable layout inside one object, which spans at most `PTRDIFF_MAX`
bytes. -/
structure StridedRef.Stored (s : StridedRef T) : Prop extends s.Addressable where
  object : s.numel ≠ 0 →
    (((extent (natAxes s.dims) + 1) * T.size : Nat) : Int) ≤ int64Max

section Loops

theorem wrapU64_extent_step {a : Axis Int} (hs : 0 < a.size) (ha : 0 ≤ a.stride)
    (e : Nat) :
    wrapU64 (e + toU64 ((a.size : Int) - 1) * toU64 a.stride) =
      wrapU64 (e + (a.size - 1) * a.stride.toNat) := by
  have hsize : toU64 ((a.size : Int) - 1) = wrapU64 (a.size - 1) := by
    rw [← toU64_natCast]
    congr 1
    omega
  have hstride : toU64 a.stride = wrapU64 a.stride.toNat := by
    rw [← toU64_natCast, Int.toNat_of_nonneg ha]
  rw [hsize, hstride]
  exact Nat.ModEq.add_left e (Nat.ModEq.mul (Nat.mod_modEq _ _) (Nat.mod_modEq _ _))

theorem overlapExtentLoop_eq {axes : List (Axis Int)} (hs : ∀ a ∈ axes, 0 < a.size)
    (ha : ∀ a ∈ axes, 0 ≤ a.stride) {e : Nat}
    (h : e + extent (natAxes axes) < 2 ^ 64) :
    overlapExtentLoop e axes = e + extent (natAxes axes) := by
  induction axes generalizing e with
  | nil => rfl
  | cons a axes ih =>
      simp only [natAxes_cons, extent_cons] at h ⊢
      rw [overlapExtentLoop, wrapU64_extent_step (hs a List.mem_cons_self)
        (ha a List.mem_cons_self), wrapU64_eq_self (by omega),
        ih (fun b hb => hs b (List.mem_cons_of_mem a hb))
          (fun b hb => ha b (List.mem_cons_of_mem a hb)) (by omega), Nat.add_assoc]

/-- The 64-bit loop runs the stacked-stride test. -/
theorem strideExceedsExtent_iff {axes : List (Axis Int)}
    (hs : ∀ a ∈ axes, 1 < a.size) (ha : ∀ a ∈ axes, 0 ≤ a.stride) {e : Nat}
    (h : e + extent (natAxes axes) < 2 ^ 64) :
    strideExceedsExtent e axes = true ↔ Stacked e (natAxes axes) := by
  induction axes generalizing e with
  | nil => simp [strideExceedsExtent]
  | cons a axes ih =>
      have hsize := hs a List.mem_cons_self
      have hpos := ha a List.mem_cons_self
      simp only [natAxes_cons, extent_cons] at h
      have hle : a.stride.toNat ≤ (a.size - 1) * a.stride.toNat :=
        Nat.le_mul_of_pos_left _ (by omega)
      have hstride : toU64 a.stride = a.stride.toNat := by
        rw [← Int.toNat_of_nonneg hpos, toU64_natCast, Int.toNat_natCast]
        exact wrapU64_eq_self (by omega)
      have htail := ih (fun b hb => hs b (List.mem_cons_of_mem a hb))
        (fun b hb => ha b (List.mem_cons_of_mem a hb))
        (e := e + (a.size - 1) * a.stride.toNat) (by omega)
      rw [strideExceedsExtent, wrapU64_extent_step (by omega) hpos,
        wrapU64_eq_self (by omega), natAxes_cons, stacked_cons, hstride]
      split
      · simp only [Bool.false_eq_true, false_iff, not_and]
        intro hlt
        omega
      · rw [htail]
        refine (and_iff_right ?_).symm
        change e < a.stride.toNat
        omega

end Loops

section SortedAxes

theorem overlapAxes_perm (s : StridedRef T) :
    (overlapAxes s).Perm (s.dims.filter fun a => decide (1 < a.size)) :=
  List.perm_insertionSort _ _

theorem mem_overlapAxes {s : StridedRef T} {a : Axis Int} :
    a ∈ overlapAxes s ↔ a ∈ s.dims ∧ 1 < a.size := by
  rw [(overlapAxes_perm s).mem_iff, List.mem_filter, decide_eq_true_iff]

theorem extent_overlapAxes (s : StridedRef T) :
    extent (natAxes (overlapAxes s)) = extent (natAxes s.dims) := by
  rw [extent_perm (natAxes_perm (overlapAxes_perm s)),
    natAxes_filter (fun n => decide (1 < n)), extent_filter_one_lt]

theorem enumerate_overlapAxes {s : StridedRef T} (hs : ∀ a ∈ s.dims, 0 < a.size) :
    (enumerate (natAxes (overlapAxes s))).Perm (enumerate (natAxes s.dims)) := by
  have hfilter : (s.dims.filter fun a => decide (1 < a.size)) =
      s.dims.filter fun a => decide (a.size ≠ 1) := by
    refine List.filter_congr fun a ha => ?_
    have := hs a ha
    rw [decide_eq_decide]
    omega
  have hperm := overlapAxes_perm s
  rw [hfilter] at hperm
  refine (enumerate_perm (natAxes_perm hperm)).trans ?_
  rw [natAxes_filter (fun n => decide (n ≠ 1)), enumerate_filter_ne_one]

end SortedAxes

namespace StridedRef.Addressable

variable {s : StridedRef T} (hs : s.Addressable)
include hs

theorem size_pos (hne : s.numel ≠ 0) : ∀ a ∈ s.dims, 0 < a.size := by
  intro a ha
  rw [hs.numel_eq] at hne
  refine Nat.pos_of_ne_zero fun hzero => hne (List.prod_eq_zero ?_)
  exact hzero ▸ List.mem_map_of_mem ha

theorem extent_lt (hne : s.numel ≠ 0) : extent (natAxes s.dims) + 1 < 2 ^ 64 := by
  have hle := Nat.le_mul_of_pos_right (extent (natAxes s.dims) + 1) T.size_pos
  have := hs.fits hne
  omega

theorem overlapExtent_eq (hne : s.numel ≠ 0) :
    overlapExtent s = extent (natAxes s.dims) := by
  have := hs.extent_lt hne
  rw [overlapExtent, overlapExtentLoop_eq (hs.size_pos hne) hs.stride_nonneg
    (by omega), Nat.zero_add]

theorem overlapAxes_stride_nonneg : ∀ a ∈ overlapAxes s, 0 ≤ a.stride :=
  fun a ha => hs.stride_nonneg a (mem_overlapAxes.1 ha).1

/-- The injectivity proof is the stacked-stride test on the sorted axes. -/
theorem isNonOverlapping_iff (hne : s.numel ≠ 0) :
    isNonOverlapping s = true ↔ Stacked 0 (natAxes (overlapAxes s)) := by
  have := hs.extent_lt hne
  rw [isNonOverlapping, if_neg hne]
  refine strideExceedsExtent_iff (fun a ha => (mem_overlapAxes.1 ha).2)
    hs.overlapAxes_stride_nonneg ?_
  rw [extent_overlapAxes]
  omega

theorem nodup_of_isNonOverlapping (hne : s.numel ≠ 0) (h : isNonOverlapping s = true) :
    (enumerate (natAxes s.dims)).Nodup := by
  rw [← (enumerate_overlapAxes (hs.size_pos hne)).nodup_iff]
  exact ((hs.isNonOverlapping_iff hne).1 h).nodup_enumerate

/-- The addresses of an injective layout are those of distinct cells. -/
theorem address_injective (hnodup : (enumerate (natAxes s.dims)).Nodup) {i j : List Nat}
    (hi : InBounds i s.sizes) (hj : InBounds j s.sizes) (h : dot s.dims i = dot s.dims j) :
    i = j := by
  have hinj := nodup_enumerate_iff.1 hnodup
  rw [natAxes_sizes] at hinj
  rw [dot_eq_natAxes hs.stride_nonneg, dot_eq_natAxes hs.stride_nonneg] at h
  exact hinj i hi j hj (Int.natCast_inj.1 h)

theorem overlapAxes_stride_pos (hne : s.numel ≠ 0) (h : isNonOverlapping s = true) :
    ∀ a ∈ overlapAxes s, 0 < a.stride := by
  intro a ha
  have hmem : (⟨a.size, a.stride.toNat⟩ : Axis Nat) ∈ natAxes (overlapAxes s) :=
    List.mem_map_of_mem ha
  have := ((hs.isNonOverlapping_iff hne).1 h).reach_lt _ hmem
  simp only at this
  omega

/-- An injective layout has no stride-0 steps. -/
theorem stride_ne_zero (hne : s.numel ≠ 0) (h : isNonOverlapping s = true) :
    ∀ a ∈ s.dims, 1 < a.size → a.stride ≠ 0 := by
  intro a ha hsize
  have := hs.overlapAxes_stride_pos hne h a (mem_overlapAxes.2 ⟨ha, hsize⟩)
  omega

/-- The bytes of a layout, read off its natural element offsets. -/
theorem mem_region {x : Int} :
    x ∈ s.region ↔ ∃ o ∈ enumerate (natAxes s.dims),
      (s.data + o * T.size : Int) ≤ x ∧ x < s.data + o * T.size + T.size := by
  simp only [region, address, sizes, Set.mem_ofPred_eq, mem_enumerate, natAxes_sizes,
    dot_eq_natAxes hs.stride_nonneg]
  constructor
  · rintro ⟨idx, hidx, hx⟩
    exact ⟨_, ⟨idx, hidx, rfl⟩, hx⟩
  · rintro ⟨_, ⟨idx, hidx, rfl⟩, hx⟩
    exact ⟨idx, hidx, hx⟩

theorem mem_touched {x : Int} :
    x ∈ s.touched ↔ s.data ≠ 0 ∧ ∃ o ∈ enumerate (natAxes s.dims),
      (s.data + o * T.size : Int) ≤ x ∧ x < s.data + o * T.size + T.size :=
  and_congr_right fun _ => hs.mem_region

/-- Every byte of a layout lies in its byte range. -/
theorem range_of_mem_region {x : Int} (h : x ∈ s.region) :
    (s.data : Int) ≤ x ∧
      x < (s.data + (extent (natAxes s.dims) + 1) * T.size : Nat) := by
  obtain ⟨o, ho, hlo, hhi⟩ := hs.mem_region.1 h
  have hle : o * T.size ≤ extent (natAxes s.dims) * T.size :=
    Nat.mul_le_mul_right _ (le_extent_of_mem_enumerate ho)
  rw [Nat.add_mul]
  push_cast
  zify at hle
  have : (0 : Int) ≤ o * T.size := by positivity
  omega

end StridedRef.Addressable

/-- The element count of an injective layout in one object fits in `int64_t`. -/
theorem StridedRef.Stored.prod_le {s : StridedRef T} (hs : s.Stored)
    (h : isNonOverlapping s = true) : (s.sizes.prod : Int) ≤ int64Max := by
  by_cases hne : s.numel = 0
  · rw [← hs.numel_eq, hne]
    decide
  · have hle := prod_sizes_le_extent (hs.nodup_of_isNonOverlapping hne h)
    rw [natAxes_sizes] at hle
    have hbytes := Nat.le_mul_of_pos_right (extent (natAxes s.dims) + 1) T.size_pos
    have hobject := hs.object hne
    have : s.sizes.prod ≤ (extent (natAxes s.dims) + 1) * T.size := Nat.le_trans hle hbytes
    omega

section Division

theorem floorDiv_eq {d : Int} (hd : 0 < d) (n : Int) : floorDiv n d = n / d := by
  have htdiv := Int.mul_tdiv_add_tmod n d
  have hlt := Int.tmod_lt_of_pos n hd
  have hgt := Int.lt_tmod_of_pos n hd
  unfold floorDiv
  have key : ∀ q r : Int, d * q + r = n → 0 ≤ r → r < d → q = n / d := by
    intro q r heq h₀ h₁
    rw [← heq, Int.add_comm, Int.add_mul_ediv_left _ _ (Int.ne_of_gt hd),
      Int.ediv_eq_zero_of_lt h₀ h₁, Int.zero_add]
  split
  · refine key _ (n.tmod d + d) ?_ (by omega) (by omega)
    rw [Int.mul_sub]
    omega
  · exact key _ (n.tmod d) (by simpa using htdiv) (by omega) hlt

theorem le_floorDiv_iff {d : Int} (hd : 0 < d) {n t : Int} :
    t ≤ floorDiv n d ↔ d * t ≤ n := by
  rw [floorDiv_eq hd, Int.le_ediv_iff_mul_le hd, Int.mul_comm]

theorem ceilDiv_eq {d : Int} (n : Int) : ceilDiv n d = -floorDiv (-n) d := by
  unfold ceilDiv floorDiv
  rw [Int.neg_tdiv, Int.neg_tmod]
  split <;> split <;> omega

theorem ceilDiv_le_iff {d : Int} (hd : 0 < d) {n t : Int} :
    ceilDiv n d ≤ t ↔ n ≤ d * t := by
  have h := le_floorDiv_iff hd (n := -n) (t := -t)
  rw [Int.mul_neg] at h
  rw [ceilDiv_eq]
  omega

end Division

section Lattice

/-- Some point of the first layout lies `delta` after a point of the second. -/
def Meets (ax bx : List (Axis Nat)) (delta : Int) : Prop :=
  ∃ x ∈ enumerate ax, ∃ y ∈ enumerate bx, (x : Int) = y + delta

/-- The differences of two coordinates are the digits of the carry loop. -/
def carryDigits (pairs : List (Axis Int × Axis Int)) : List Digit :=
  pairs.map fun p => ⟨-((p.2.size : Int) - 1), (p.1.size : Int) - 1, p.1.stride⟩

theorem mem_enumerate_natAxes_cons {a : Axis Int} {axes : List (Axis Int)} {x : Nat} :
    x ∈ enumerate (natAxes (a :: axes)) ↔
      ∃ i < a.size, ∃ x' ∈ enumerate (natAxes axes),
        i * a.stride.toNat + x' = x := by
  simp only [natAxes_cons, enumerate_cons, List.mem_flatMap, List.mem_range,
    List.mem_map, smul_eq_mul]

theorem meets_cons {a b : Axis Int} {ax bx : List (Axis Int)} {delta : Int}
    (heq : a.stride = b.stride) (ha : 0 ≤ a.stride) (hb : 0 < b.size)
    (hs : 0 < a.size) :
    Meets (natAxes (a :: ax)) (natAxes (b :: bx)) delta ↔
      ∃ c, -((b.size : Int) - 1) ≤ c ∧ c ≤ (a.size : Int) - 1 ∧
        Meets (natAxes ax) (natAxes bx) (delta - c * a.stride) := by
  have hstride : (a.stride.toNat : Int) = a.stride := Int.toNat_of_nonneg ha
  have hstride' : (b.stride.toNat : Int) = a.stride := by rw [← heq, hstride]
  constructor
  · rintro ⟨x, hx, y, hy, hxy⟩
    obtain ⟨i, hi, x', hx', rfl⟩ := mem_enumerate_natAxes_cons.1 hx
    obtain ⟨j, hj, y', hy', rfl⟩ := mem_enumerate_natAxes_cons.1 hy
    refine ⟨i - j, by omega, by omega, x', hx', y', hy', ?_⟩
    push_cast at hxy
    rw [hstride, hstride'] at hxy
    rw [Int.sub_mul]
    omega
  · rintro ⟨c, hlo, hhi, x', hx', y', hy', hxy⟩
    refine ⟨c.toNat * a.stride.toNat + x', mem_enumerate_natAxes_cons.2
      ⟨c.toNat, by omega, x', hx', rfl⟩, (-c).toNat * b.stride.toNat + y',
      mem_enumerate_natAxes_cons.2 ⟨(-c).toNat, by omega, y', hy', rfl⟩, ?_⟩
    have hc : c * a.stride = c.toNat * a.stride - (-c).toNat * a.stride := by
      rw [← Int.sub_mul]
      congr 1
      omega
    push_cast
    rw [hstride, hstride']
    omega

/-- Layouts with equal strides meet when their digits represent the distance. -/
theorem represents_carryDigits {ax bx : List (Axis Int)}
    (hlen : ax.length = bx.length) (ha : ∀ a ∈ ax, 0 < a.stride)
    (hs : ∀ a ∈ ax, 0 < a.size) (hs' : ∀ b ∈ bx, 0 < b.size)
    (hpair : ∀ p ∈ ax.zip bx, p.1.stride = p.2.stride) {delta : Int} :
    Represents (carryDigits (ax.zip bx)) delta ↔
      Meets (natAxes ax) (natAxes bx) delta := by
  induction ax generalizing bx delta with
  | nil =>
      obtain rfl := List.eq_nil_of_length_eq_zero hlen.symm
      simp only [List.zip_nil_left, carryDigits, List.map_nil, represents_nil, Meets,
        natAxes_nil, enumerate_nil, List.mem_singleton]
      constructor
      · rintro rfl
        exact ⟨0, rfl, 0, rfl, rfl⟩
      · rintro ⟨x, rfl, y, rfl, h⟩
        simpa using h.symm
  | cons a ax ih =>
      cases bx with
      | nil => simp at hlen
      | cons b bx =>
          rw [meets_cons (hpair (a, b) List.mem_cons_self)
            (Int.le_of_lt (ha a List.mem_cons_self)) (hs' b List.mem_cons_self)
            (hs a List.mem_cons_self)]
          change (∃ c, _ ∧ _ ∧ Represents (carryDigits (ax.zip bx)) _) ↔ _
          refine exists_congr fun c => and_congr_right fun _ => and_congr_right fun _ => ?_
          exact ih (Nat.succ.inj hlen) (fun x hx => ha x (List.mem_cons_of_mem a hx))
            (fun x hx => hs x (List.mem_cons_of_mem a hx))
            (fun x hx => hs' x (List.mem_cons_of_mem b hx))
            (fun p hp => hpair p (List.mem_cons_of_mem _ hp))

theorem equalNestedStrides_eq {pairs : List (Axis Int × Axis Int)}
    (h : equalNestedStrides pairs = true) :
    ∀ p ∈ pairs, p.1.stride = p.2.stride := by
  induction pairs with
  | nil => simp
  | cons p pairs ih =>
      cases pairs with
      | nil => simpa [equalNestedStrides] using h
      | cons q pairs =>
          simp only [equalNestedStrides, Bool.and_eq_true, beq_iff_eq] at h
          intro r hr
          rcases List.mem_cons.1 hr with rfl | hr
          · exact h.1.1
          · exact ih h.2 r hr

theorem equalNestedStrides_nested {pairs : List (Axis Int × Axis Int)}
    (h : equalNestedStrides pairs = true) (hpos : ∀ p ∈ pairs, 0 < p.1.stride) :
    Nested (carryDigits pairs) := by
  induction pairs with
  | nil => trivial
  | cons p pairs ih =>
      cases pairs with
      | nil => exact hpos p List.mem_cons_self
      | cons q pairs =>
          simp only [equalNestedStrides, Bool.and_eq_true, beq_iff_eq] at h
          exact ⟨hpos p List.mem_cons_self, Int.dvd_of_tmod_eq_zero h.1.2,
            ih h.2 fun r hr => hpos r (List.mem_cons_of_mem p hr)⟩

/-- The invariant of the carry loop: `[lo, hi]` holds exactly the carries that
the earlier axes leave, so a verdict says whether the rest can serve one. -/
theorem carryWalk_none_iff {a b : Axis Int} {pairs : List (Axis Int × Axis Int)}
    (hn : Nested (carryDigits ((a, b) :: pairs)))
    (hs : ∀ p ∈ (a, b) :: pairs, 0 < p.1.size ∧ 0 < p.2.size) {lo hi : Int}
    (hle : lo ≤ hi) (h : carryWalk ((a, b) :: pairs) lo hi ≠ .tooHard) :
    carryWalk ((a, b) :: pairs) lo hi = .none ↔
      ¬ ∃ c, lo ≤ c ∧ c ≤ hi ∧
        Represents (carryDigits ((a, b) :: pairs)) (c * a.stride) := by
  have hsize := hs (a, b) List.mem_cons_self
  simp only at hsize
  induction pairs generalizing a b lo hi with
  | nil =>
      change _ ↔ ¬ ∃ c, lo ≤ c ∧ c ≤ hi ∧ Represents [_] (c * a.stride)
      rw [represents_last (d := ⟨_, _, a.stride⟩) hn.stride_pos (by simp only; omega) hle]
      simp only [carryWalk, ge_iff_le]
      split <;> simp_all
  | cons p pairs ih =>
      obtain ⟨a', b'⟩ := p
      have hdvd : a.stride ∣ a'.stride := hn.2.1
      have hpos : 0 < a.stride := hn.stride_pos
      have hpos' : 0 < a'.stride := hn.tail.stride_pos
      have hstride : a'.stride = a'.stride.tdiv a.stride * a.stride := by
        rw [Int.tdiv_eq_ediv_of_dvd hdvd, Int.ediv_mul_cancel hdvd]
      have hperiod : 0 < a'.stride.tdiv a.stride :=
        Int.pos_of_mul_pos_left (by rwa [← hstride]) hpos
      have hcarry := represents_carry (d := ⟨_, _, a.stride⟩) (e := ⟨_, _, a'.stride⟩)
        hn (by simp only; omega) hstride hle
      change _ ↔ ¬ ∃ c, lo ≤ c ∧ c ≤ hi ∧ Represents (_ :: _ :: _) (c * a.stride)
      rw [hcarry]
      simp only [← ceilDiv_le_iff hperiod, ← le_floorDiv_iff hperiod]
      simp only [carryWalk] at h ⊢
      split at h <;> rename_i hguard
      · exact absurd rfl h
      rw [if_neg hguard]
      split at h <;> rename_i hempty
      · rw [if_pos hempty]
        refine iff_of_true rfl ?_
        rintro ⟨t, h₁, h₂, -⟩
        omega
      · rw [if_neg hempty]
        exact ih hn.tail (fun r hr => hs r (List.mem_cons_of_mem _ hr)) (by omega) h
          (hs (a', b') (List.mem_cons_of_mem _ List.mem_cons_self))

theorem carryWalk_ne_full (pairs : List (Axis Int × Axis Int)) (lo hi : Int) :
    carryWalk pairs lo hi ≠ .full := by
  fun_induction carryWalk pairs lo hi <;> simp_all

theorem foldl_gcd_dvd (axes : List (Axis Int)) (g : Nat) :
    axes.foldl (fun gcd a => Int.gcd gcd a.stride) g ∣ g ∧
      ∀ a ∈ axes, ((axes.foldl (fun gcd a => Int.gcd gcd a.stride) g : Nat) : Int) ∣
        a.stride := by
  induction axes generalizing g with
  | nil => simp
  | cons a axes ih =>
      obtain ⟨hg, htail⟩ := ih (Int.gcd g a.stride)
      have hg' := Int.natCast_dvd_natCast.2 hg
      refine ⟨?_, fun b hb => ?_⟩
      · exact Int.natCast_dvd_natCast.1 (Int.dvd_trans hg' (Int.gcd_dvd_left _ _))
      · rcases List.mem_cons.1 hb with rfl | hb
        · exact Int.dvd_trans hg' (Int.gcd_dvd_right _ _)
        · exact htail b hb

theorem strideGcd_dvd (ax bx : List (Axis Int)) :
    ∀ a ∈ ax ++ bx, (strideGcd ax bx : Int) ∣ a.stride :=
  (foldl_gcd_dvd (ax ++ bx) 0).2

theorem dvd_of_mem_enumerate {g : Int} {axes : List (Axis Int)}
    (ha : ∀ a ∈ axes, 0 ≤ a.stride) (hg : ∀ a ∈ axes, g ∣ a.stride) {x : Nat}
    (hx : x ∈ enumerate (natAxes axes)) : g ∣ (x : Int) := by
  induction axes generalizing x with
  | nil => simp_all
  | cons a axes ih =>
      obtain ⟨i, -, x', hx', rfl⟩ := mem_enumerate_natAxes_cons.1 hx
      have htail := ih (fun b hb => ha b (List.mem_cons_of_mem a hb))
        (fun b hb => hg b (List.mem_cons_of_mem a hb)) hx'
      push_cast
      rw [Int.toNat_of_nonneg (ha a List.mem_cons_self)]
      exact Int.dvd_add (Dvd.dvd.mul_left (hg a List.mem_cons_self) _) htail

/-- A verdict of the lattice tests decides whether the layouts meet. -/
theorem classifyLattice_none_iff {ax bx : List (Axis Int)}
    (ha : ∀ a ∈ ax, 0 < a.stride ∧ 0 < a.size)
    (hb : ∀ b ∈ bx, 0 < b.stride ∧ 0 < b.size) {delta : Int}
    (h : classifyLattice ax bx delta ≠ .tooHard) :
    classifyLattice ax bx delta = .none ↔ ¬ Meets (natAxes ax) (natAxes bx) delta := by
  simp only [classifyLattice] at h ⊢
  split at h <;> rename_i hgcd
  · rw [if_pos hgcd]
    refine iff_of_true rfl ?_
    rintro ⟨x, hx, y, hy, hxy⟩
    have hdx := dvd_of_mem_enumerate (fun a h => Int.le_of_lt (ha a h).1)
      (fun a h => strideGcd_dvd ax bx a (List.mem_append_left bx h)) hx
    have hdy := dvd_of_mem_enumerate (fun b h => Int.le_of_lt (hb b h).1)
      (fun b h => strideGcd_dvd ax bx b (List.mem_append_right ax h)) hy
    refine hgcd.2 (Int.tmod_eq_zero_of_dvd ?_)
    have : delta = x - y := by omega
    exact this ▸ Int.dvd_sub hdx hdy
  rw [if_neg hgcd]
  split at h <;> rename_i hlen
  · exact absurd rfl h
  rw [if_neg hlen]
  split at h <;> rename_i hnest
  · exact absurd rfl h
  rw [if_neg hnest]
  rw [not_or, not_ne_iff] at hlen
  rw [not_not] at hnest
  cases ax with
  | nil => exact absurd rfl hlen.2
  | cons a ax =>
      cases bx with
      | nil => simp at hlen
      | cons b bx =>
          have hmem : ∀ p ∈ (a :: ax).zip (b :: bx), p.1 ∈ a :: ax ∧ p.2 ∈ b :: bx :=
            fun p hp => List.of_mem_zip hp
          have hn := equalNestedStrides_nested hnest
            fun p hp => (ha _ (hmem p hp).1).1
          rw [← represents_carryDigits hlen.1 (fun x hx => (ha x hx).1)
            (fun x hx => (ha x hx).2) (fun x hx => (hb x hx).2)
            (equalNestedStrides_eq hnest)]
          rw [List.zip_cons_cons] at hmem hn h ⊢
          simp only at h ⊢
          split at h <;> rename_i hdvd
          · rw [if_pos hdvd]
            refine iff_of_true rfl fun hr => hdvd (Int.tmod_eq_zero_of_dvd ?_)
            exact hr.dvd (Nested.dvd hn)
          · rw [if_neg hdvd]
            rw [not_not] at hdvd
            rw [carryWalk_none_iff hn
              (fun p hp => ⟨(ha _ (hmem p hp).1).2, (hb _ (hmem p hp).2).2⟩)
              (Int.le_refl _) h]
            have hback : delta.tdiv a.stride * a.stride = delta :=
              Int.tdiv_mul_cancel (Int.dvd_of_tmod_eq_zero hdvd)
            refine not_congr ⟨?_, fun hr => ⟨_, Int.le_refl _, Int.le_refl _, ?_⟩⟩
            · rintro ⟨c, hlo, hhi, hr⟩
              rwa [Int.le_antisymm hhi hlo, hback] at hr
            · rwa [hback]

theorem classifyLattice_ne_full (ax bx : List (Axis Int)) (delta : Int) :
    classifyLattice ax bx delta ≠ .full := by
  unfold classifyLattice
  have := carryWalk_ne_full
  repeat' split
  all_goals simp_all

end Lattice

section Verdict

variable {a b : StridedRef T}

/-- Layouts an integral number of elements apart share a byte exactly when they
share an element. -/
theorem disjoint_touched_iff (ha : a.Addressable) (hb : b.Addressable)
    (hda : a.data ≠ 0) (hdb : b.data ≠ 0) {delta : Int}
    (hdelta : (b.data : Int) = a.data + delta * T.size) :
    Disjoint a.touched b.touched ↔
      ¬ Meets (natAxes a.dims) (natAxes b.dims) delta := by
  have hT : (0 : Int) < T.size := Int.natCast_pos.2 T.size_pos
  rw [← not_iff_not, not_not, Set.not_disjoint_iff]
  constructor
  · rintro ⟨x, hxa, hxb⟩
    obtain ⟨-, o, ho, h₁, h₂⟩ := ha.mem_touched.1 hxa
    obtain ⟨-, o', ho', h₃, h₄⟩ := hb.mem_touched.1 hxb
    refine ⟨o, ho, o', ho', ?_⟩
    rw [hdelta] at h₃ h₄
    have h₅ : (o : Int) * T.size < (delta + o' + 1) * T.size := by
      rw [Int.add_mul _ 1, Int.add_mul]
      omega
    have h₆ : (delta + o' : Int) * T.size < (o + 1) * T.size := by
      rw [Int.add_mul, Int.add_mul]
      omega
    have := Int.lt_of_mul_lt_mul_right h₅ (Int.le_of_lt hT)
    have := Int.lt_of_mul_lt_mul_right h₆ (Int.le_of_lt hT)
    omega
  · rintro ⟨o, ho, o', ho', heq⟩
    refine ⟨a.data + o * T.size, ha.mem_touched.2 ⟨hda, o, ho, ?_, ?_⟩,
      hb.mem_touched.2 ⟨hdb, o', ho', ?_, ?_⟩⟩
    · omega
    · omega
    all_goals
      rw [hdelta, heq, Int.add_mul]
      omega

theorem meets_overlapAxes (ha : ∀ x ∈ a.dims, 0 < x.size)
    (hb : ∀ x ∈ b.dims, 0 < x.size) {delta : Int} :
    Meets (natAxes (overlapAxes a)) (natAxes (overlapAxes b)) delta ↔
      Meets (natAxes a.dims) (natAxes b.dims) delta := by
  simp only [Meets, (enumerate_overlapAxes ha).mem_iff,
    (enumerate_overlapAxes hb).mem_iff]

theorem elementDelta_spec {ap bp size : Nat} (h : byteDistance ap bp % size = 0) :
    (bp : Int) = ap + elementDelta ap bp size * size := by
  have hsplit : ((byteDistance ap bp / size : Nat) : Int) * size = byteDistance ap bp := by
    exact_mod_cast Nat.div_mul_cancel (Nat.dvd_of_mod_eq_zero h)
  rw [elementDelta]
  split <;> rename_i hle <;> simp only [byteDistance, hle, if_true, if_false] at hsplit ⊢
  · rw [hsplit]
    omega
  · rw [Int.neg_mul, hsplit]
    omega

theorem disjoint_region_of_range (ha : a.Addressable) (hb : b.Addressable)
    (h : a.data + (extent (natAxes a.dims) + 1) * T.size ≤ b.data ∨
      b.data + (extent (natAxes b.dims) + 1) * T.size ≤ a.data) :
    Disjoint a.region b.region := by
  rw [Set.disjoint_left]
  intro x hxa hxb
  have hra := ha.range_of_mem_region hxa
  have hrb := hb.range_of_mem_region hxb
  omega

theorem data_mem_touched (ha : a.Addressable) (hda : a.data ≠ 0) (hna : a.numel ≠ 0) :
    (a.data : Int) ∈ a.touched := by
  have hT := T.size_pos
  refine ha.mem_touched.2 ⟨hda, 0, zero_mem_enumerate fun x hx => ?_, by simp, by omega⟩
  obtain ⟨y, hy, rfl⟩ := List.mem_map.1 hx
  exact ha.size_pos hna y hy

/-- A packed layout fills its byte range. -/
theorem mem_touched_of_dense (ha : a.Addressable) (hda : a.data ≠ 0)
    (hna : a.numel ≠ 0) (hinj : isNonOverlapping a = true)
    (hdense : extent (natAxes a.dims) + 1 = a.numel) {k : Nat}
    (hk : k < (extent (natAxes a.dims) + 1) * T.size) :
    ((a.data + k : Nat) : Int) ∈ a.touched := by
  have hdense' : extent (natAxes a.dims) + 1 = (sizes (natAxes a.dims)).prod := by
    rw [hdense, ha.numel_eq, natAxes_sizes, StridedRef.sizes]
  have hdiv : k / T.size ≤ extent (natAxes a.dims) :=
    Nat.lt_succ_iff.1 ((Nat.div_lt_iff_lt_mul T.size_pos).2 hk)
  refine ha.mem_touched.2 ⟨hda, _, mem_enumerate_of_dense
    (ha.nodup_of_isNonOverlapping hna hinj) hdense' hdiv, ?_⟩
  have hsplit := Nat.div_add_mod' k T.size
  have hmod := Nat.mod_lt k T.size_pos
  zify at hsplit hmod
  push_cast
  omega

theorem not_disjoint_of_dense (ha : a.Addressable) (hb : b.Addressable)
    (hda : a.data ≠ 0) (hdb : b.data ≠ 0) (hna : a.numel ≠ 0) (hnb : b.numel ≠ 0)
    (hia : isNonOverlapping a = true) (hib : isNonOverlapping b = true)
    (hdense : extent (natAxes a.dims) + 1 = a.numel ∧
      extent (natAxes b.dims) + 1 = b.numel)
    (hab : b.data < a.data + (extent (natAxes a.dims) + 1) * T.size)
    (hba : a.data < b.data + (extent (natAxes b.dims) + 1) * T.size) :
    ¬ Disjoint a.touched b.touched := by
  -- the larger of the two first addresses lies in both ranges
  rw [Set.not_disjoint_iff]
  rcases Nat.le_total a.data b.data with hle | hle
  · obtain ⟨k, hk⟩ := Nat.exists_eq_add_of_le hle
    refine ⟨b.data, ?_, data_mem_touched hb hdb hnb⟩
    rw [hk]
    exact mem_touched_of_dense ha hda hna hia hdense.1 (by omega)
  · obtain ⟨k, hk⟩ := Nat.exists_eq_add_of_le hle
    refine ⟨a.data, data_mem_touched ha hda hna, ?_⟩
    rw [hk]
    exact mem_touched_of_dense hb hdb hnb hib hdense.2 (by omega)

theorem classifyOverlap_none_iff (ha : a.Addressable) (hb : b.Addressable)
    (hna : a.numel ≠ 0) (hnb : b.numel ≠ 0) (hdev : a.device = b.device)
    (hindex : a.deviceIndex = b.deviceIndex) (h : classifyOverlap a b ≠ .tooHard) :
    classifyOverlap a b = .none ↔ Disjoint a.touched b.touched := by
  have hsa := ha.size_pos hna
  have hsb := hb.size_pos hnb
  simp only [classifyOverlap, ha.overlapExtent_eq hna, hb.overlapExtent_eq hnb,
    wrapU64_eq_self (ha.extent_lt hna), wrapU64_eq_self (hb.extent_lt hnb),
    wrapU64_eq_self (ha.fits hna), wrapU64_eq_self (hb.fits hnb)] at h ⊢
  split at h <;> rename_i hempty
  · -- a null pointer reaches no byte
    rw [if_pos hempty]
    refine iff_of_true rfl (Set.disjoint_left.2 fun x hxa hxb => ?_)
    exact absurd hempty (by simp [hna, hnb, hxa.1, hxb.1, hdev, hindex])
  rw [if_neg hempty]
  have hda : a.data ≠ 0 := fun hzero => hempty (by simp [hzero])
  have hdb : b.data ≠ 0 := fun hzero => hempty (by simp [hzero])
  split at h <;> rename_i hrange
  · rw [if_pos hrange]
    exact iff_of_true rfl (Set.disjoint_of_subset (fun _ hx => hx.2) (fun _ hx => hx.2)
      (disjoint_region_of_range ha hb hrange))
  rw [if_neg hrange]
  rw [not_or, Nat.not_le, Nat.not_le] at hrange
  rw [if_neg (not_not.2 rfl)] at h ⊢
  split at h <;> rename_i hsame
  · rw [if_pos hsame]
    refine iff_of_false (by simp) (Set.not_disjoint_iff.2 ⟨a.data, ?_, ?_⟩)
    · exact data_mem_touched ha hda hna
    · rw [hsame.1]
      exact data_mem_touched hb hdb hnb
  rw [if_neg hsame]
  split at h <;> rename_i hinj
  · exact absurd rfl h
  rw [if_neg hinj]
  rw [not_or, not_not, not_not] at hinj
  split at h <;> rename_i hdense
  · rw [if_pos hdense]
    exact iff_of_false (by simp) (not_disjoint_of_dense ha hb hda hdb hna hnb
      hinj.1 hinj.2 hdense hrange.1 hrange.2)
  rw [if_neg hdense]
  split at h <;> rename_i hdist
  · exact absurd rfl h
  rw [if_neg hdist]
  rw [not_or, not_ne_iff] at hdist
  rw [classifyLattice_none_iff (fun x hx => ⟨ha.overlapAxes_stride_pos hna hinj.1 x hx,
      Nat.zero_lt_of_lt (mem_overlapAxes.1 hx).2⟩)
    (fun x hx => ⟨hb.overlapAxes_stride_pos hnb hinj.2 x hx,
      Nat.zero_lt_of_lt (mem_overlapAxes.1 hx).2⟩) h, meets_overlapAxes hsa hsb,
    disjoint_touched_iff ha hb hda hdb (elementDelta_spec hdist.1)]

/-- Full overlap is reported only for one injective mapping seen twice. -/
theorem classifyOverlap_full (h : classifyOverlap a b = .full) :
    a.numel ≠ 0 ∧ a.data = b.data ∧ a.dims = b.dims ∧ isNonOverlapping a = true := by
  have hlattice := classifyLattice_ne_full (overlapAxes a) (overlapAxes b)
    (elementDelta a.data b.data T.size)
  unfold classifyOverlap at h
  simp only at h
  split at h
  · cases h
  · split at h
    · cases h
    · split at h
      · cases h
      · split at h
        · rename_i hempty _ _ hsame
          exact ⟨fun hzero => hempty (Or.inl hzero), hsame.1, hsame.2.1, hsame.2.2⟩
        · repeat' split at h
          all_goals first | cases h | exact absurd h hlattice

/-- Whenever the classifier decides, its verdict is exact: `none` means that no
byte is shared, and `full` that both layouts are one injective mapping. -/
theorem classifyOverlap_exact (a b : StridedRef T) (ha : a.Addressable)
    (hb : b.Addressable) (hna : a.numel ≠ 0) (hnb : b.numel ≠ 0)
    (hdev : a.device = b.device) (hindex : a.deviceIndex = b.deviceIndex)
    (h : classifyOverlap a b ≠ .tooHard) :
    (classifyOverlap a b = .none ↔ Disjoint a.touched b.touched) ∧
      (classifyOverlap a b = .full →
        a.sizes = b.sizes ∧
        (∀ idx, InBounds idx a.sizes → a.address idx = b.address idx) ∧
        ∀ i, InBounds i a.sizes → ∀ j, InBounds j a.sizes →
          a.address i = a.address j → i = j) := by
  refine ⟨classifyOverlap_none_iff ha hb hna hnb hdev hindex h, fun hfull => ?_⟩
  obtain ⟨-, hdata, hdims, hinj⟩ := classifyOverlap_full hfull
  refine ⟨by rw [StridedRef.sizes, StridedRef.sizes, hdims], fun idx _ => ?_, ?_⟩
  · rw [StridedRef.address, StridedRef.address, hdata, hdims]
  · intro i hi j hj heq
    have hT : (T.size : Int) ≠ 0 := by
      have := T.size_pos
      omega
    rw [StridedRef.address, StridedRef.address, Int.add_right_inj,
      Int.mul_eq_mul_right_iff hT] at heq
    exact ha.address_injective (ha.nodup_of_isNonOverlapping hna hinj) hi hj heq

end Verdict

namespace OverlapWitness

open Sample

/-- Columns 0 and 2 of a matrix of three rows of four elements. -/
def evenColumns : StridedRef float := cpuRef 4096 [⟨3, 4⟩, ⟨2, 2⟩]

/-- Columns 1 and 3 of the same matrix. -/
def oddColumns : StridedRef float := cpuRef 4100 [⟨3, 4⟩, ⟨2, 2⟩]

theorem classifyOverlap_exact_columns :
    classifyOverlap evenColumns oddColumns = .none ∧
      Disjoint evenColumns.touched oddColumns.touched := by
  have hnone : classifyOverlap evenColumns oddColumns = .none := by decide
  refine ⟨hnone, (classifyOverlap_exact evenColumns oddColumns ?_ ?_ ?_ ?_ ?_ ?_ ?_).1.1
    hnone⟩
  · exact ⟨by decide, by decide, fun _ => by decide⟩
  · exact ⟨by decide, by decide, fun _ => by decide⟩
  all_goals decide

/-- An element shared through a positive outer and a negative inner coefficient. -/
example : classifyOverlap (cpuRef 4096 [⟨2, 4⟩, ⟨3, 1⟩])
    (cpuRef 4104 [⟨2, 4⟩, ⟨3, 1⟩]) = .partialOverlap := by decide

end OverlapWitness

end Vectorization
