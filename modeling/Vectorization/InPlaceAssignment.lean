/-
Alias-safe assignment in place.  The checks of `assign` admit only leaves that
share no byte with the destination or map every multi-index to the same element,
so both evaluation paths leave the values of a snapshot.
-/
import Vectorization.Assignment
import Vectorization.ContiguousEvaluation
import Vectorization.Injectivity

namespace Vectorization

open StridedSpace MachineInteger ByteMemory AtomicRun

variable {T : ElementType} {α : Type}

/-- A descriptor whose elements, if it has any, lie in one object. -/
structure StridedRef.Backed (s : StridedRef T) : Prop extends s.Described where
  stored : s.numel ≠ 0 → s.Stored
  data_ne : s.numel ≠ 0 → s.data ≠ 0

/-- What holds of a tensor at rest: its cached fields are up to date, an owner is
packed, and its elements exist. -/
structure TensorImpl.Sound (S : SimdTarget T) (t : TensorImpl T) : Prop where
  cached : t.Cached S
  packed : t.isView = false → t.contiguous = true
  backed : t.strided.Backed

section Checks

theorem accumulateExpressionPlacement_spec {e : Expr (Leaf T) α}
    {seen out : Option (DeviceEnum × Int)}
    (h : accumulateExpressionPlacement e seen = .ok out) :
    (∀ l ∈ e.leaves, out = some (l.device, l.deviceIndex)) ∧
      ∀ place, seen = some place → out = some place := by
  induction e generalizing seen out with
  | scalar _ =>
      cases h
      exact ⟨by simp [Expr.leaves], fun _ hseen => hseen⟩
  | leaf l =>
      cases seen with
      | none =>
          cases h
          exact ⟨by simp [Expr.leaves], fun place hseen =>
            absurd hseen.symm (Option.some_ne_none place)⟩
      | some place =>
          rw [accumulateExpressionPlacement] at h
          split at h <;> rename_i hplace
          · cases h
            exact ⟨by simp [Expr.leaves, hplace], fun _ hseen => hseen⟩
          · cases h
  | unary f rhs ih => exact ih h
  | binary f lhs rhs ihl ihr =>
      obtain ⟨mid, hl, hr⟩ := exceptBind_ok.1 h
      obtain ⟨hleaves, hseen⟩ := ihl hl
      obtain ⟨hleaves', hmid⟩ := ihr hr
      refine ⟨fun l hl => ?_, fun place hplace => hmid place (hseen place hplace)⟩
      rcases List.mem_append.1 hl with hl | hl
      · exact hmid _ (hleaves l hl)
      · exact hleaves' l hl
  | trinary f lhs mhs rhs ihl ihm ihr =>
      obtain ⟨mid, hl, hmr⟩ := exceptBind_ok.1 h
      obtain ⟨mid', hm, hr⟩ := exceptBind_ok.1 hmr
      obtain ⟨hleaves, hseen⟩ := ihl hl
      obtain ⟨hleaves', hmid⟩ := ihm hm
      obtain ⟨hleaves'', hmid'⟩ := ihr hr
      refine ⟨fun l hl => ?_,
        fun place hplace => hmid' place (hmid place (hseen place hplace))⟩
      rcases List.mem_append.1 hl with hl | hl
      · exact hmid' _ (hmid _ (hleaves l hl))
      · rcases List.mem_append.1 hl with hl | hl
        · exact hmid' _ (hleaves' l hl)
        · exact hleaves'' l hl

/-- Validated leaves lie where the destination lies. -/
theorem validatePlacement_ok {dst : TensorImpl T} {e : Expr (Leaf T) α}
    (h : validatePlacement dst e = .ok ()) :
    ∀ l ∈ e.leaves, l.device = dst.device ∧ l.deviceIndex = dst.deviceIndex := by
  obtain ⟨out, hout, hmatch⟩ := exceptBind_ok.1 h
  intro l hl
  rw [(accumulateExpressionPlacement_spec hout).1 l hl] at hmatch
  simp only at hmatch
  split at hmatch <;> rename_i hplace
  · exact Prod.mk.inj hplace
  · cases hmatch

/-- Without an assertion of the caller every leaf passes the overlap check. -/
theorem checkAssignmentOverlap_ok {ndebug : Bool} {dst : StridedRef T}
    {e : Expr (Leaf T) α} (h : checkAssignmentOverlap ndebug false dst e = .ok ()) :
    ∀ l ∈ e.leaves, checkLeafOverlap false dst l = .ok () := by
  induction e with
  | scalar _ => simp [Expr.leaves]
  | leaf l =>
      rw [checkAssignmentOverlap, if_neg (by simp)] at h
      simpa [Expr.leaves] using h
  | unary f rhs ih => exact ih h
  | binary f lhs rhs ihl ihr =>
      obtain ⟨_, hl, hr⟩ := exceptBind_ok.1 h
      intro l hmem
      rcases List.mem_append.1 hmem with hmem | hmem
      · exact ihl hl l hmem
      · exact ihr hr l hmem
  | trinary f lhs mhs rhs ihl ihm ihr =>
      obtain ⟨_, hl, hmr⟩ := exceptBind_ok.1 h
      obtain ⟨_, hm, hr⟩ := exceptBind_ok.1 hmr
      intro l hmem
      rcases List.mem_append.1 hmem with hmem | hmem
      · exact ihl hl l hmem
      · rcases List.mem_append.1 hmem with hmem | hmem
        · exact ihm hm l hmem
        · exact ihr hr l hmem

theorem checkLeafOverlap_ok {dst : StridedRef T} {l : Leaf T}
    (h : checkLeafOverlap false dst l = .ok ()) :
    classifyOverlap dst l.toRef = .none ∨ classifyOverlap dst l.toRef = .full := by
  rw [checkLeafOverlap] at h
  split at h <;> rename_i hpartial
  · cases h
  split at h <;> rename_i hhard
  · cases h
  cases hstatus : classifyOverlap dst l.toRef with
  | none => exact Or.inl rfl
  | full => exact Or.inr rfl
  | partialOverlap => exact absurd hstatus hpartial
  | tooHard => exact absurd ⟨by decide, hstatus⟩ hhard

theorem region_eq_empty {s : StridedRef T} (h : s.Described) (hne : s.numel = 0) :
    s.region = ∅ := by
  rw [h.numel_eq] at hne
  refine Set.eq_empty_of_forall_notMem ?_
  rintro x ⟨idx, hidx, -⟩
  have := flatten_lt hidx
  omega

/-- An accepted leaf is safe to read while the destination is written. -/
theorem aliasSafe_of_checked {dst : StridedRef T} {l : Leaf T} (hdst : dst.Backed)
    (hleaf : l.toRef.Backed) (hdev : l.device = dst.device)
    (hindex : l.deviceIndex = dst.deviceIndex)
    (h : checkLeafOverlap false dst l = .ok ()) : AliasSafe dst l := by
  by_cases hnd : dst.numel = 0
  · left
    rw [region_eq_empty hdst.toDescribed hnd]
    exact Set.disjoint_empty _
  by_cases hnl : l.toRef.numel = 0
  · left
    rw [region_eq_empty hleaf.toDescribed hnl]
    exact Set.empty_disjoint _
  rcases checkLeafOverlap_ok h with h | h
  · left
    have htouched := (classifyOverlap_none_iff (hdst.stored hnd).toAddressable
      (hleaf.stored hnl).toAddressable hnd hnl hdev.symm hindex.symm (by rw [h]; decide)).1 h
    have touched_eq : ∀ {s : StridedRef T}, s.data ≠ 0 → s.touched = s.region :=
      fun hdata => Set.ext fun x => and_iff_right hdata
    rw [touched_eq (hdst.data_ne hnd), touched_eq (hleaf.data_ne hnl)] at htouched
    exact htouched.symm
  · right
    obtain ⟨-, hdata, hdims, -⟩ := classifyOverlap_full h
    exact ⟨hdata.symm, hdims.symm⟩

end Checks

section Destination

variable {S : SimdTarget T} {dst : TensorImpl T} (hdst : dst.Sound S)
  (hinj : dst.numel ≠ 0 → Vectorization.isNonOverlapping dst.strided = true)
include hdst hinj

/-- The element count of a destination fits in 63 bits. -/
theorem TensorImpl.Sound.prod_le : (dst.strided.sizes.prod : Int) ≤ int64Max := by
  by_cases hne : dst.numel = 0
  · rw [← hdst.backed.numel_eq]
    change (dst.numel : Int) ≤ int64Max
    rw [hne]
    decide
  · exact (hdst.backed.stored hne).prod_le (hinj hne)

theorem TensorImpl.Sound.stride_ne_zero (hne : dst.strided.sizes.prod ≠ 0) :
    ∀ a ∈ dst.strided.dims, 1 < a.size → a.stride ≠ 0 := by
  rw [← hdst.backed.numel_eq] at hne
  exact (hdst.backed.stored hne).stride_ne_zero hne (hinj hne)

theorem TensorImpl.Sound.address_apart : (indices dst.strided.sizes).Pairwise fun i j =>
    Apart T.size (dst.strided.address i) (dst.strided.address j) := by
  by_cases hne : dst.numel = 0
  · have hempty : indices dst.strided.sizes = [] :=
      List.length_eq_zero_iff.1 (by rw [length_indices, ← hdst.backed.numel_eq]; exact hne)
    rw [hempty]
    exact List.Pairwise.nil
  · exact Vectorization.address_apart (hdst.backed.stored hne).toAddressable hinj

end Destination

section Run

variable {S : SimdTarget T} {threads : ParallelFor} {c : Codec α T.size}
  {e : Expr (Leaf T) α} {dst : TensorImpl T} {ops : List (StoreOp StoreKind α)}

/-- What a lowered run that does not raise has checked, and the path it took. -/
theorem runLowered_cases (h : runLowered S threads c e dst = .ok ops) :
    ∃ shape, expressionResultShape e = .ok shape ∧ dst.sizes = shape.map Nat.cast ∧
      ((leavesFlat dst.numel e = true ∧ dst.contiguous = true ∧
          ops = (flatSteps S threads dst.numel dst.alignStart dst.alignEnd).map
            (FlatStep.op c e dst.data)) ∨
        runPlanned S threads c e dst.strided shape = .ok ops) := by
  obtain ⟨shape, hshape, h⟩ := exceptBind_ok.1 h
  obtain ⟨_, hcheck, h⟩ := exceptBind_ok.1 h
  obtain ⟨_, -, h⟩ := exceptBind_ok.1 h
  have hsizes : dst.sizes = shape.map Nat.cast := by
    rw [checkResultShape] at hcheck
    split at hcheck <;> rename_i heq
    · exact heq.symm
    · cases hcheck
  refine ⟨shape, hshape, hsizes, ?_⟩
  split at h <;> rename_i hpath
  · obtain ⟨ref, href, h⟩ := exceptBind_ok.1 h
    rw [TensorImpl.toStridedRef] at href
    split at href
    · cases href
      exact Or.inr h
    · cases href
  · rw [not_or, not_not, not_not] at hpath
    cases h
    exact Or.inl ⟨hpath.1, hpath.2, rfl⟩

/-- Evaluation into a sound destination leaves the snapshot when every leaf is
safe to read meanwhile. -/
theorem runLowered_holdsSnapshot (hlanes : e.LaneWise) (hdst : dst.Sound S)
    (hinj : dst.numel ≠ 0 → isNonOverlapping dst.strided = true)
    (hleaves : ∀ l ∈ e.leaves, l.toRef.Backed)
    (hsafe : ∀ l ∈ e.leaves, AliasSafe dst.strided l)
    (h : runLowered S threads c e dst = .ok ops) (m : Memory) :
    HoldsSnapshot c e dst.strided m (run c ops m) := by
  obtain ⟨shape, hshape, hcheck, hpath⟩ := runLowered_cases h
  obtain rfl : dst.strided.sizes = shape := dst.strided_sizes hcheck
  have hfit := expressionResultShape_fits hshape
  have hdesc := hdst.backed.toDescribed
  have hint := hdst.prod_le hinj
  rcases hpath with ⟨hflat, hcontig, rfl⟩ | hplanned
  · have hrun := flatSteps_flatRun c S threads hlanes hfit hcheck hint hdst.cached hcontig
      hflat fun l hl => (hleaves l hl).toDescribed
    exact hrun.holdsSnapshot c S hdesc.numel_eq rfl hfit hsafe hdesc hcontig m
  · obtain ⟨ops', hops', hsnap⟩ := runPlanned_holdsSnapshot S threads c hlanes
      (leaves_lt_of_runPlanned hplanned) hfit hint (hdst.stride_ne_zero hinj) hsafe
      (hdst.address_apart hinj)
    rw [hplanned, Except.ok.injEq] at hops'
    exact hops' ▸ hsnap m

end Run

section Assign

variable {b : Build T} {c : Codec α T.size} {src : Source T α} {s s' : AssignState T}

/-- The cached flag of a sound tensor is a proof of injectivity. -/
theorem TensorImpl.Sound.isNonOverlapping {S : SimdTarget T} {t : TensorImpl T}
    (h : t.Sound S) (hflag : t.nonOverlapping = true) (hne : t.numel ≠ 0) :
    Vectorization.isNonOverlapping t.strided = true := by
  have hadr := (h.backed.stored hne).toAddressable
  cases hview : t.isView with
  | false => exact h.backed.toDescribed.isNonOverlapping hadr (h.packed hview)
  | true =>
      rw [hadr.isNonOverlapping_iff_stackable hne]
      by_cases hrank : t.rank = 0
      · have hdims : t.strided.dims = [] := by
          rw [strided, List.length_eq_zero_iff.1 hrank]
          rfl
        rw [hdims]
        exact ⟨[], List.Perm.refl _, stacked_nil 0⟩
      · rw [h.cached.nonOverlapping_eq hview hne hrank] at hflag
        have := hadr.extent_lt hne
        refine (strideExceedsExtent_sortedAxes (fun d hd => ?_) ?_).1 hflag
        · exact hadr.stride_nonneg d.axis (List.mem_map_of_mem hd)
        · change extent (natAxes t.strided.dims) < 2 ^ 64
          omega

theorem Source.lower_ok {e : Expr (Leaf T) α} (h : src.lower = .ok e) : e = src.tree := by
  cases src with
  | expression e' =>
      cases h
      rfl
  | tensor t =>
      obtain ⟨leaf, hleaf, he⟩ := exceptBind_ok.1 h
      rw [TensorImpl.toStridedRef] at hleaf
      split at hleaf
      · cases hleaf
        cases he
        rfl
      · cases hleaf

theorem toStridedRef_ok {t : TensorImpl T} {ref : StridedRef T}
    (h : t.toStridedRef = .ok ref) : ref = t.strided := by
  rw [TensorImpl.toStridedRef] at h
  split at h
  · cases h
    rfl
  · cases h

/-- What an assignment that does not raise has checked, and what it stored. -/
theorem assign_cases {uncheckedAlias : Bool}
    (h : assign b c src uncheckedAlias s = .ok () s') :
    ∃ ops, s.dst.nonOverlapping = true ∧ validatePlacement s.dst src.tree = .ok () ∧
      checkAssignmentOverlap b.ndebug uncheckedAlias s.dst.strided src.tree = .ok () ∧
      runLowered b.simd b.threads c src.tree s.dst = .ok ops ∧
      s' = { s with memory := run c ops s.memory } := by
  obtain ⟨dst, s₁, hdst, h⟩ := bind_ok.1 h
  cases hdst
  obtain ⟨_, hvalid, h⟩ := raising_bind_ok.1 h
  obtain ⟨_, hplace, h⟩ := raising_bind_ok.1 h
  obtain ⟨e, hlower, h⟩ := raising_bind_ok.1 h
  obtain rfl := Source.lower_ok hlower
  obtain ⟨ref, href, h⟩ := raising_bind_ok.1 h
  obtain rfl := toStridedRef_ok href
  obtain ⟨_, hoverlap, h⟩ := raising_bind_ok.1 h
  obtain ⟨ops, hops, h⟩ := raising_bind_ok.1 h
  cases h
  refine ⟨ops, ?_, hplace, hoverlap, hops, rfl⟩
  rw [validateDestination] at hvalid
  split at hvalid
  · assumption
  · cases hvalid

/-- Assignment in place is alias safe: when the checked `assign` does not raise,
every logical element of the destination ends with the value the whole tree had
in a snapshot taken before, and no other byte changes.  SIMD operations are lane-wise. -/
theorem assign_snapshot (hlanes : src.tree.LaneWise) (hdst : s.dst.Sound b.simd)
    (hleaves : ∀ l ∈ src.tree.leaves, l.toRef.Backed)
    (h : assign b c src false s = .ok () s') :
    s'.dst = s.dst ∧
      (∀ idx, InBounds idx s.dst.strided.sizes →
        load c s'.memory (s.dst.strided.address idx) =
          logicalValue c s.memory src.tree idx) ∧
      ∀ x ∉ s.dst.strided.region, s'.memory x = s.memory x := by
  obtain ⟨ops, hflag, hplace, hoverlap, hops, rfl⟩ := assign_cases h
  have hsafe : ∀ l ∈ src.tree.leaves, AliasSafe s.dst.strided l := fun l hl => by
    obtain ⟨hdev, hindex⟩ := validatePlacement_ok hplace l hl
    exact aliasSafe_of_checked hdst.backed (hleaves l hl) hdev hindex
      (checkAssignmentOverlap_ok hoverlap l hl)
  have hsnap := runLowered_holdsSnapshot hlanes hdst
    (fun hne => hdst.isNonOverlapping hflag hne) hleaves hsafe hops s.memory
  exact ⟨rfl, fun idx hidx => hsnap.load hidx, fun x hx => hsnap.frame hx⟩

end Assign

namespace InPlaceAssignmentWitness

open Sample

/-- A release build without allocations. -/
def release : Build float where
  simd := fourLanes
  threads := twoThreads
  ndebug := true
  heap := ⟨fun _ _ _ => .error (.external "std::bad_alloc"), fun _ _ m => .ok m⟩

def table : TensorImpl float := TensorImpl.recompute fourLanes
  { isView := true
    sizesAndStrides := [⟨3, 4⟩, ⟨4, 1⟩]
    view := ⟨4096, 12, .cpu, 0⟩
    alignStart := 0
    alignEnd := 0
    numel := 0
    contiguous := false
    nonOverlapping := false }

def offsets : StridedRef float := { cpuRef 8192 [⟨4, 1⟩] with contiguous := true }

/-- `table + offsets`, to be stored in the table itself. -/
def shifted : Source float (Fin 4 → UInt8) :=
  .expression (.binary (.lanes fun x y k => x k + y k) (.leaf (.ref table.strided))
    (.leaf (.ref offsets)))

theorem shifted_laneWise : shifted.tree.LaneWise :=
  ⟨BinaryFunctor.lanes_laneWise _, trivial, trivial⟩

def before : AssignState float := ⟨fun _ => 1, table⟩

theorem table_sound : table.Sound fourLanes :=
  ⟨TensorImpl.recompute_cached _ _, by decide, ⟨by decide, fun _ _ => by decide⟩,
    fun _ => ⟨⟨by decide, by decide, fun _ => by decide⟩, fun _ => by decide⟩,
    fun _ => by decide⟩

theorem offsets_backed : offsets.Backed :=
  ⟨⟨by decide, fun _ _ => by decide⟩,
    fun _ => ⟨⟨by decide, by decide, fun _ => by decide⟩, fun _ => by decide⟩,
    fun _ => by decide⟩

theorem assign_snapshot_shifted : ∃ s',
    assign release (Codec.bytes 4) shifted false before = .ok () s' ∧
      load (Codec.bytes 4) s'.memory (table.strided.address [2, 1]) = fun _ => 2 := by
  have hbacked : ∀ l ∈ shifted.tree.leaves, l.toRef.Backed := by
    intro l hl
    rcases List.mem_cons.1 hl with rfl | hl
    · exact table_sound.backed
    · obtain rfl := List.mem_singleton.1 hl
      exact offsets_backed
  obtain ⟨s', hrun⟩ : ∃ s', assign release (Codec.bytes 4) shifted false before = .ok () s' :=
    ⟨_, rfl⟩
  have hvalue := (assign_snapshot shifted_laneWise table_sound hbacked hrun).2.1 [2, 1] (by decide)
  exact ⟨s', hrun, hvalue.trans rfl⟩

end InPlaceAssignmentWitness

end Vectorization
