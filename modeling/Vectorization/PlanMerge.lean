/-
Sorting and merging in the arithmetic of the code.  Strides and sizes are 64-bit values, and
so are the products that merging compares and stores.  A size that wraps loses points, and
neighbours that only look adjacent are moved apart.
-/
import Vectorization.PlanOptimisation
import Vectorization.Foundation.StableOrder

namespace Vectorization

open StridedSpace MachineInteger StableOrder

section Code

/-- The merge test on 64-bit products. -/
def mergeable64 (nOperands : Nat) (outerStride : Nat → Int) (inner : PlanDim) : Bool :=
  (List.range nOperands).all fun op =>
    outerStride op == wrapI64 (inner.stride op * inner.size)

/-- The merge loop, with the size of the current dimension as it is stored.  A size that has
become negative counts no points. -/
def mergeDims64 (nOperands : Nat) : Int → (Nat → Int) → List PlanDim → List PlanDim
  | size, stride, [] => [⟨size.toNat, stride⟩]
  | size, stride, d :: dims =>
      if mergeable64 nOperands stride d then
        mergeDims64 nOperands (wrapI64 (size * d.size)) d.stride dims
      else ⟨size.toNat, stride⟩ :: mergeDims64 nOperands d.size d.stride dims

/-- `sort_merge_classify`, on 64-bit products. -/
def sortMergeClassify64 (plan : IterationPlan) : IterationPlan :=
  match sortDims plan.nOperands (plan.dims.filter fun d => decide (d.size ≠ 1)) with
  | [] => { plan with dims := [⟨1, 0⟩], tier := 3 }
  | d :: dims =>
      let merged := mergeDims64 plan.nOperands d.size d.stride dims
      { plan with dims := merged, tier := classifyTier plan.nOperands merged }

end Code

section Order

/-- Dimensions are ordered by the strides of all operands. -/
def strideKey (n : Nat) (d : PlanDim) : List Int := operandTuple n d.stride

theorem dimOuterThan_eq (n : Nat) (a b : PlanDim) :
    dimOuterThan n a b = decide (strideKey n b < strideKey n a) := by
  have compare : ∀ ops : List Nat, (ops.find? fun op => a.stride op ≠ b.stride op).elim false
      (fun op => decide (b.stride op < a.stride op)) =
        decide (ops.map b.stride < ops.map a.stride) := by
    intro ops
    induction ops with
    | nil => simp
    | cons op ops ih =>
        by_cases hop : a.stride op = b.stride op
        · rw [List.find?_cons_of_neg (by simpa using hop), ih]
          simp [hop]
        · rw [List.find?_cons_of_pos (by simpa using hop)]
          simp [List.cons_lt_cons_iff, Ne.symm hop]
  rw [strideKey, strideKey, operandTuple, operandTuple, ← compare, dimOuterThan]
  cases (List.range n).find? fun op => a.stride op ≠ b.stride op <;> rfl

/-- A dimension is inserted before those with the same strides, read from the right. -/
theorem withKey_insertDim (n : Nat) (d : PlanDim) (dims : List PlanDim) (k : List Int) :
    withKey (strideKey n) k (insertDim n d dims) = withKey (strideKey n) k (d :: dims) := by
  induction dims with
  | nil => rfl
  | cons e dims ih =>
      rw [insertDim]
      split <;> rename_i houter
      · rw [dimOuterThan_eq, decide_eq_true_iff] at houter
        by_cases hd : strideKey n d = k
        · have he : strideKey n e ≠ k := fun he => (ne_of_lt houter) (he.trans hd.symm)
          subst hd
          rw [withKey_cons_ne he, ih, withKey_cons_self, withKey_cons_self, withKey_cons_ne he]
        · rw [withKey_cons_ne hd]
          rw [withKey_cons_ne hd] at ih
          by_cases he : strideKey n e = k
          · subst he
            rw [withKey_cons_self, withKey_cons_self, ih]
          · rw [withKey_cons_ne he, withKey_cons_ne he, ih]
      · rfl

theorem insertDim_ascending (n : Nat) (d : PlanDim) {dims : List PlanDim}
    (h : dims.Pairwise fun a b => strideKey n a ≤ strideKey n b) :
    (insertDim n d dims).Pairwise fun a b => strideKey n a ≤ strideKey n b := by
  induction dims with
  | nil => exact List.pairwise_singleton _ _
  | cons e dims ih =>
      obtain ⟨hfirst, hrest⟩ := List.pairwise_cons.1 h
      rw [insertDim]
      split <;> rename_i houter <;> rw [dimOuterThan_eq, decide_eq_true_iff] at houter
      · apply List.pairwise_cons.2 ⟨fun a ha => ?_, ih hrest⟩
        rcases List.mem_cons.1 ((insertDim_perm n d dims).mem_iff.1 ha) with rfl | ha
        · exact le_of_lt houter
        · exact hfirst a ha
      · apply List.pairwise_cons.2 ⟨fun a ha => ?_, h⟩
        rcases List.mem_cons.1 ha with rfl | ha
        · exact le_of_not_gt houter
        · exact le_trans (le_of_not_gt houter) (hfirst a ha)

/-- The insertion sort is stable. -/
theorem sortDims_listing (n : Nat) (dims : List PlanDim) :
    Listing (strideKey n) dims (sortDims n dims) := by
  have fold : ∀ dims sorted : List PlanDim,
      (sorted.Pairwise fun a b => strideKey n a ≤ strideKey n b) →
      ((dims.foldl (fun sorted d => insertDim n d sorted) sorted).Pairwise
          fun a b => strideKey n a ≤ strideKey n b) ∧
        ∀ k, withKey (strideKey n) k
            (dims.foldl (fun sorted d => insertDim n d sorted) sorted) =
          withKey (strideKey n) k (dims.reverse ++ sorted) := by
    intro dims
    induction dims with
    | nil => exact fun sorted h => ⟨h, fun k => rfl⟩
    | cons d dims ih =>
        intro sorted h
        obtain ⟨hpairwise, hkeys⟩ := ih (insertDim n d sorted) (insertDim_ascending n d h)
        refine ⟨hpairwise, fun k => (hkeys k).trans ?_⟩
        have hinsert := withKey_insertDim n d sorted k
        simp only [withKey] at hinsert ⊢
        rw [List.filter_append, hinsert, ← List.filter_append]
        simp
  obtain ⟨hpairwise, hkeys⟩ := fold dims [] List.Pairwise.nil
  refine ⟨List.pairwise_reverse.2 hpairwise, fun k => ?_⟩
  have h := hkeys k
  simp only [withKey, List.append_nil] at h ⊢
  rw [sortDims, List.filter_reverse, h, List.filter_reverse, List.reverse_reverse]

end Order

section Condition

/-- Neighbours are adjacent in memory for every operand. -/
def Adjacent (n : Nat) (outer inner : PlanDim) : Prop :=
  ∀ op < n, outer.stride op = inner.stride op * inner.size

/-- Neighbours are adjacent for every operand as far as 64 bits tell. -/
def AdjacentMod (n : Nat) (outer inner : PlanDim) : Prop :=
  ∀ op < n, outer.stride op ≡ inner.stride op * inner.size [ZMOD 2 ^ 64]

/-- The sizes of every run of adjacent neighbours multiply to a 64-bit value. -/
def RunsFit (n : Nat) (dims : List PlanDim) : Prop :=
  ∀ run, run <:+: dims → run.IsChain (Adjacent n) → ((sizes run).prod : Int) ≤ int64Max

/-- With the dimensions listed by their strides, neighbours that look adjacent are adjacent,
and runs of them fit. -/
def IterationPlan.MergesExactly (plan : IterationPlan) : Prop :=
  ∀ sorted, Listing (strideKey plan.nOperands)
      (plan.dims.filter fun d => decide (d.size ≠ 1)) sorted →
    (sorted.IsChain fun outer inner =>
        AdjacentMod plan.nOperands outer inner → Adjacent plan.nOperands outer inner) ∧
      RunsFit plan.nOperands sorted

/-- A dimension of several steps whose strides are 64-bit values. -/
structure Proper (n : Nat) (d : PlanDim) : Prop where
  one_lt : 1 < d.size
  stride_nonneg : ∀ op < n, 0 ≤ d.stride op
  stride_le : ∀ op < n, d.stride op ≤ int64Max

theorem Proper.merge {n : Nat} {cur d : PlanDim} (hcur : Proper n cur) (hd : Proper n d) :
    Proper n ⟨cur.size * d.size, d.stride⟩ where
  one_lt := by
    have hle : 1 * d.size ≤ cur.size * d.size :=
      Nat.mul_le_mul_right _ (Nat.le_of_lt hcur.one_lt)
    rw [Nat.one_mul] at hle
    exact Nat.lt_of_lt_of_le hd.one_lt hle
  stride_nonneg := hd.stride_nonneg
  stride_le := hd.stride_le

theorem inInt64_of_nonneg {x : Int} (hx : 0 ≤ x) (h : x ≤ int64Max) : InInt64 x :=
  ⟨le_trans (by decide) hx, h⟩

theorem eq_wrapI64_iff {x y : Int} (hlo : 0 ≤ y) (hhi : y ≤ int64Max) :
    y = wrapI64 x ↔ y ≡ x [ZMOD 2 ^ 64] := by
  have hy : wrapI64 y = y := wrapI64_eq_self (inInt64_of_nonneg hlo hhi)
  constructor
  · intro h
    rw [Int.ModEq, h, wrapI64]
    exact Int.bmod_emod
  · intro h
    rw [← hy, wrapI64, wrapI64, ← Int.emod_bmod (x := y), ← Int.emod_bmod (x := x)]
    exact congrArg (Int.bmod · (2 ^ 64)) h

theorem mergeable64_iff {n : Nat} {outer inner : PlanDim} (h : Proper n outer) :
    mergeable64 n outer.stride inner = true ↔ AdjacentMod n outer inner := by
  simp only [mergeable64, List.all_eq_true, List.mem_range, beq_iff_eq]
  exact forall₂_congr fun op hop => eq_wrapI64_iff (h.stride_nonneg op hop) (h.stride_le op hop)

theorem mergeable_iff {n : Nat} {outer inner : PlanDim} :
    mergeable n outer inner = true ↔ Adjacent n outer inner := by
  simp only [mergeable, List.all_eq_true, List.mem_range, beq_iff_eq]
  rfl

theorem Adjacent.mod {n : Nat} {outer inner : PlanDim} (h : Adjacent n outer inner) :
    AdjacentMod n outer inner := fun op hop => (h op hop).symm ▸ Int.ModEq.refl _

end Condition

section Merge

variable {n : Nat} {cur : PlanDim} {dims : List PlanDim}

/-- Merging by any test, in exact arithmetic. -/
def mergeDimsBy (test : PlanDim → PlanDim → Bool) : PlanDim → List PlanDim → List PlanDim
  | cur, [] => [cur]
  | cur, d :: dims =>
      if test cur d then mergeDimsBy test ⟨cur.size * d.size, d.stride⟩ dims
      else cur :: mergeDimsBy test d dims

/-- The test of the code on dimensions. -/
def mergeTest64 (n : Nat) (outer inner : PlanDim) : Bool := mergeable64 n outer.stride inner

/-- A dimension with its size as it is stored. -/
def wrapSize (d : PlanDim) : PlanDim := ⟨(wrapI64 d.size).toNat, d.stride⟩

theorem wrapSize_size (d : PlanDim) : (wrapSize d).size = (wrapI64 d.size).toNat := by
  rw [wrapSize]

/-- The loop is that of exact arithmetic but for its test and the sizes that it stores. -/
theorem mergeDims64_eq (n : Nat) (cur : PlanDim) (h : ∀ d ∈ dims, (d.size : Int) ≤ int64Max) :
    mergeDims64 n (wrapI64 cur.size) cur.stride dims =
      (mergeDimsBy (mergeTest64 n) cur dims).map wrapSize := by
  induction dims generalizing cur with
  | nil => rfl
  | cons d dims ih =>
      obtain ⟨hd, hdims⟩ := List.forall_mem_cons.1 h
      rw [mergeDims64, mergeDimsBy, mergeTest64]
      split
      · have hsize : wrapI64 (wrapI64 cur.size * d.size) =
            wrapI64 ((cur.size * d.size : Nat) : Int) := by
          rw [wrapI64, wrapI64, Int.bmod_mul_bmod, Nat.cast_mul, wrapI64]
        rw [hsize]
        exact ih ⟨cur.size * d.size, d.stride⟩ hdims
      · have hwrap : wrapI64 (d.size : Int) = d.size :=
          wrapI64_eq_self (inInt64_of_nonneg (Int.natCast_nonneg _) hd)
        rw [List.map_cons, ← ih d hdims, hwrap]
        rfl

theorem mergeDimsBy_forall (test : PlanDim → PlanDim → Bool)
    (h : ∀ d ∈ cur :: dims, Proper n d) :
    ∀ d ∈ mergeDimsBy test cur dims, Proper n d := by
  induction dims generalizing cur with
  | nil => exact h
  | cons d dims ih =>
      obtain ⟨hcur, hrest⟩ := List.forall_mem_cons.1 h
      obtain ⟨hd, hdims⟩ := List.forall_mem_cons.1 hrest
      rw [mergeDimsBy]
      split
      · exact ih (List.forall_mem_cons.2 ⟨hcur.merge hd, hdims⟩)
      · exact List.forall_mem_cons.2 ⟨hcur, ih hrest⟩

theorem sizes_mergeDimsBy (test : PlanDim → PlanDim → Bool) :
    (sizes (mergeDimsBy test cur dims)).prod = (sizes (cur :: dims)).prod := by
  induction dims generalizing cur with
  | nil => rfl
  | cons d dims ih =>
      rw [mergeDimsBy]
      split
      · rw [ih]
        simp only [sizes_cons, List.prod_cons, Nat.mul_assoc]
      · simp only [sizes_cons, List.prod_cons, ih]

/-- Where no neighbours look adjacent that are not, the code merges what it should. -/
theorem mergeDimsBy_eq_mergeDims (h : ∀ d ∈ cur :: dims, Proper n d)
    (hchain : (cur :: dims).IsChain fun outer inner =>
      AdjacentMod n outer inner → Adjacent n outer inner) :
    mergeDimsBy (mergeTest64 n) cur dims = mergeDims n cur dims := by
  induction dims generalizing cur with
  | nil => rfl
  | cons d dims ih =>
      obtain ⟨hcur, hrest⟩ := List.forall_mem_cons.1 h
      obtain ⟨hd, hdims⟩ := List.forall_mem_cons.1 hrest
      obtain ⟨hexact, hchain⟩ := List.isChain_cons_cons.1 hchain
      have htest : mergeTest64 n cur d = mergeable n cur d := by
        apply Bool.eq_iff_iff.2
        rw [mergeTest64, mergeable64_iff hcur, mergeable_iff]
        exact ⟨hexact, Adjacent.mod⟩
      rw [mergeDimsBy, mergeDims, htest, ih hrest hchain]
      rw [ih (List.forall_mem_cons.2 ⟨hcur.merge hd, hdims⟩)]
      cases dims with
      | nil => exact List.isChain_singleton _
      | cons e dims =>
          obtain ⟨hfirst, htail⟩ := List.isChain_cons_cons.1 hchain
          exact List.isChain_cons_cons.2 ⟨hfirst, htail⟩

/-- The runs that start with the first dimension fit. -/
def LeadFits (n : Nat) (cur : PlanDim) (dims : List PlanDim) : Prop :=
  ∀ rest, rest <+: dims → (cur :: rest).IsChain (Adjacent n) →
    ((sizes (cur :: rest)).prod : Int) ≤ int64Max

theorem LeadFits.size_le (h : LeadFits n cur dims) : (cur.size : Int) ≤ int64Max := by
  have hone := h [] List.nil_prefix (List.isChain_singleton cur)
  simpa using hone

theorem runsFit_cons : RunsFit n (cur :: dims) ↔ LeadFits n cur dims ∧ RunsFit n dims := by
  constructor
  · intro h
    refine ⟨fun rest hrest => h _ ?_, fun run hrun => h run (List.infix_cons hrun)⟩
    exact (List.cons_prefix_cons.2 ⟨rfl, hrest⟩).isInfix
  · rintro ⟨hlead, hruns⟩ run hrun hchain
    rcases List.infix_cons_iff.1 hrun with hprefix | hinfix
    · rcases List.prefix_cons_iff.1 hprefix with rfl | ⟨rest, rfl, hrest⟩
      · exact hruns [] List.nil_infix hchain
      · exact hlead rest hrest hchain
    · exact hruns run hinfix hchain

theorem leadFits_cons {d : PlanDim} :
    LeadFits n cur (d :: dims) ↔ (cur.size : Int) ≤ int64Max ∧
      (Adjacent n cur d → LeadFits n ⟨cur.size * d.size, d.stride⟩ dims) := by
  have hchain : ∀ rest : List PlanDim, (cur :: d :: rest).IsChain (Adjacent n) ↔
      Adjacent n cur d ∧
        ((⟨cur.size * d.size, d.stride⟩ : PlanDim) :: rest).IsChain (Adjacent n) := by
    intro rest
    rw [List.isChain_cons_cons]
    cases rest with
    | nil => simp
    | cons e rest => simp only [List.isChain_cons_cons, Adjacent]
  have hprod : ∀ rest : List PlanDim, (sizes (cur :: d :: rest)).prod =
      (sizes ((⟨cur.size * d.size, d.stride⟩ : PlanDim) :: rest)).prod := by
    intro rest
    simp only [sizes_cons, List.prod_cons, Nat.mul_assoc]
  constructor
  · intro h
    refine ⟨h.size_le, fun hadj rest hrest hrun => ?_⟩
    rw [← hprod]
    exact h (d :: rest) (List.cons_prefix_cons.2 ⟨rfl, hrest⟩) ((hchain rest).2 ⟨hadj, hrun⟩)
  · rintro ⟨hsize, hmerged⟩ run hrun hrunChain
    rcases List.prefix_cons_iff.1 hrun with rfl | ⟨rest, rfl, hrest⟩
    · simpa using hsize
    · obtain ⟨hadj, hrun⟩ := (hchain rest).1 hrunChain
      rw [hprod]
      exact hmerged hadj rest hrest hrun

/-- A run that starts with a smaller size fits as well. -/
theorem LeadFits.mono {d : PlanDim} (h : LeadFits n cur dims) (hsize : d.size ≤ cur.size)
    (hstride : d.stride = cur.stride) : LeadFits n d dims := by
  intro rest hrest hchain
  have hcur : (cur :: rest).IsChain (Adjacent n) := by
    cases rest with
    | nil => exact List.isChain_singleton cur
    | cons e rest =>
        obtain ⟨hadj, htail⟩ := List.isChain_cons_cons.1 hchain
        rw [Adjacent, hstride] at hadj
        exact List.isChain_cons_cons.2 ⟨hadj, htail⟩
  have hle := h rest hrest hcur
  simp only [sizes_cons, List.prod_cons] at hle ⊢
  exact le_trans (Int.ofNat_le.2 (Nat.mul_le_mul_right _ hsize)) hle

/-- The merged sizes are 64-bit values when the runs fit. -/
theorem mergeDims_size_le (h : ∀ d ∈ cur :: dims, Proper n d) :
    (∀ d ∈ mergeDims n cur dims, (d.size : Int) ≤ int64Max) ↔ RunsFit n (cur :: dims) := by
  induction dims generalizing cur with
  | nil =>
      have hcur := (h cur List.mem_cons_self).one_lt
      rw [mergeDims, runsFit_cons]
      constructor
      · intro hsizes
        have hsize := hsizes cur List.mem_cons_self
        refine ⟨fun rest hrest _ => ?_, fun run hrun _ => ?_⟩
        · obtain rfl := List.prefix_nil.1 hrest
          simpa using hsize
        · obtain rfl := List.infix_nil.1 hrun
          decide
      · rintro ⟨hlead, -⟩
        simpa using hlead.size_le
  | cons d dims ih =>
      obtain ⟨hcur, hrest⟩ := List.forall_mem_cons.1 h
      obtain ⟨hd, hdims⟩ := List.forall_mem_cons.1 hrest
      rw [mergeDims]
      split <;> rename_i htest
      · rw [mergeable_iff] at htest
        rw [ih (List.forall_mem_cons.2 ⟨hcur.merge hd, hdims⟩), runsFit_cons, runsFit_cons,
          runsFit_cons, leadFits_cons]
        constructor
        · rintro ⟨hmerged, hruns⟩
          have hle : cur.size ≤ cur.size * d.size :=
            Nat.le_mul_of_pos_right _ (Nat.zero_lt_of_lt hd.one_lt)
          have hle' : d.size ≤ cur.size * d.size :=
            Nat.le_mul_of_pos_left _ (Nat.zero_lt_of_lt hcur.one_lt)
          have hsize : (cur.size : Int) ≤ int64Max :=
            le_trans (Int.ofNat_le.2 hle) hmerged.size_le
          exact ⟨⟨hsize, fun _ => hmerged⟩, hmerged.mono hle' rfl, hruns⟩
        · rintro ⟨⟨-, hmerged⟩, -, hruns⟩
          exact ⟨hmerged htest, hruns⟩
      · rw [mergeable_iff] at htest
        rw [List.forall_mem_cons, ih hrest]
        conv_rhs => rw [runsFit_cons, leadFits_cons]
        constructor
        · rintro ⟨hsize, hruns⟩
          exact ⟨⟨hsize, fun hadj => absurd hadj htest⟩, hruns⟩
        · rintro ⟨⟨hsize, -⟩, hruns⟩
          exact ⟨hsize, hruns⟩

end Merge

section Extent

variable {n : Nat} {cur : PlanDim} {dims dims' : List PlanDim} {op : Nat}

/-- The axes that one operand walks. -/
def operandAxes (op : Nat) (dims : List PlanDim) : List (Axis Nat) :=
  dims.map fun d => ⟨d.size, (d.stride op).toNat⟩

theorem enumerate_operandAxes (h : ∀ d ∈ dims, 0 ≤ d.stride op) :
    (enumerate (operandAxes op dims)).map (Nat.cast : Nat → Int) =
      (enumerate dims).map fun offsets => offsets op := by
  have hcast := enumerate_map (Nat.castAddMonoidHom Int) (operandAxes op dims)
  have heval := enumerate_map (Pi.evalAddMonoidHom (fun _ : Nat => Int) op) dims
  refine hcast.symm.trans (Eq.trans (congrArg enumerate ?_) heval)
  rw [operandAxes, List.map_map]
  refine List.map_congr_left fun d hd => ?_
  simp [Int.toNat_of_nonneg (h d hd)]

/-- Dimensions with the same offsets reach equally far for every operand. -/
theorem extent_le_of_points (hop : op < n) (hpos : ∀ d ∈ dims, d.size ≠ 0)
    (hstride : ∀ d ∈ dims, 0 ≤ d.stride op) (hstride' : ∀ d ∈ dims', 0 ≤ d.stride op)
    (h : (points dims).map (operandTuple n) = (points dims').map (operandTuple n)) :
    extent (operandAxes op dims) ≤ extent (operandAxes op dims') := by
  have hsizes : ∀ a ∈ operandAxes op dims, a.size ≠ 0 := by
    intro a ha
    obtain ⟨d, hd, rfl⟩ := List.mem_map.1 ha
    exact hpos d hd
  obtain ⟨idx, hidx, hdot⟩ := exists_dot_eq_extent hsizes
  have hmem : (extent (operandAxes op dims) : Int) ∈
      (enumerate dims).map fun offsets => offsets op := by
    rw [← enumerate_operandAxes hstride, ← hdot]
    exact List.mem_map_of_mem (mem_enumerate.2 ⟨idx, hidx, rfl⟩)
  obtain ⟨offsets, hoffsets, hreach⟩ := List.mem_map.1 hmem
  have htuple : operandTuple n offsets ∈ (points dims').map (operandTuple n) := by
    rw [← h]
    exact Multiset.mem_map_of_mem _ hoffsets
  obtain ⟨offsets', hoffsets', heq⟩ := Multiset.mem_map.1 htuple
  have hsame : offsets' op = offsets op :=
    List.map_inj_left.1 heq op (List.mem_range.2 hop)
  have hmem' : (extent (operandAxes op dims) : Int) ∈
      (enumerate (operandAxes op dims')).map (Nat.cast : Nat → Int) := by
    rw [enumerate_operandAxes hstride', ← hreach, ← hsame]
    exact List.mem_map_of_mem hoffsets'
  obtain ⟨x, hx, hcast⟩ := List.mem_map.1 hmem'
  rw [← Int.ofNat_inj.1 hcast]
  exact le_extent_of_mem_enumerate hx

/-- What merging two dimensions adds to the extent of an operand: the outer stride becomes
what the inner dimension spans. -/
theorem extent_merge (op : Nat) (dims : List PlanDim) {d : PlanDim} (hcur : 1 < cur.size)
    (hd : 1 < d.size) :
    extent (operandAxes op (⟨cur.size * d.size, d.stride⟩ :: dims)) +
        (cur.size - 1) * (cur.stride op).toNat =
      extent (operandAxes op (cur :: d :: dims)) +
        (cur.size - 1) * ((d.stride op).toNat * d.size) := by
  obtain ⟨k, hk⟩ := Nat.exists_eq_add_of_lt hcur
  obtain ⟨l, hl⟩ := Nat.exists_eq_add_of_lt hd
  simp only [operandAxes, List.map_cons, extent_cons, hk, hl]
  have hsize : (1 + k + 1) * (1 + l + 1) - 1 = (k + 1) * (l + 2) + (l + 1) := by
    rw [Nat.sub_eq_iff_eq_add (Nat.mul_pos (by omega) (by omega))]
    ring
  rw [hsize]
  simp only [Nat.add_sub_cancel]
  ring

/-- Neighbours that look adjacent lie no farther apart than the inner one spans. -/
theorem AdjacentMod.stride_le {d : PlanDim} (hcur : Proper n cur) (hd : Proper n d)
    (h : AdjacentMod n cur d) (hop : op < n) :
    (cur.stride op).toNat ≤ (d.stride op).toNat * d.size := by
  have hmod := h op hop
  have hlo := hcur.stride_nonneg op hop
  have hhi := hcur.stride_le op hop
  have hspan : 0 ≤ d.stride op * d.size :=
    Int.mul_nonneg (hd.stride_nonneg op hop) (Int.natCast_nonneg _)
  zify
  rw [Int.toNat_of_nonneg hlo, Int.toNat_of_nonneg (hd.stride_nonneg op hop)]
  rw [Int.ModEq] at hmod
  unfold int64Max at hhi
  omega

theorem extent_le_mergeDimsBy (h : ∀ d ∈ cur :: dims, Proper n d) (hop : op < n) :
    extent (operandAxes op (cur :: dims)) ≤
      extent (operandAxes op (mergeDimsBy (mergeTest64 n) cur dims)) := by
  induction dims generalizing cur with
  | nil => exact le_rfl
  | cons d dims ih =>
      obtain ⟨hcur, hrest⟩ := List.forall_mem_cons.1 h
      obtain ⟨hd, hdims⟩ := List.forall_mem_cons.1 hrest
      rw [mergeDimsBy]
      split <;> rename_i htest
      · rw [mergeTest64, mergeable64_iff hcur] at htest
        have hle := ih (List.forall_mem_cons.2 ⟨hcur.merge hd, hdims⟩)
        have hspan : (cur.size - 1) * (cur.stride op).toNat ≤
            (cur.size - 1) * ((d.stride op).toNat * d.size) :=
          Nat.mul_le_mul_left _ (AdjacentMod.stride_le hcur hd htest hop)
        have hmerge := extent_merge op dims hcur.one_lt hd.one_lt
        omega
      · have hle := ih hrest
        simp only [operandAxes, List.map_cons, extent_cons] at hle ⊢
        omega

/-- Merging neighbours that only look adjacent makes some operand reach farther. -/
theorem isChain_of_extent_le (h : ∀ d ∈ cur :: dims, Proper n d)
    (hextent : ∀ op < n, extent (operandAxes op (mergeDimsBy (mergeTest64 n) cur dims)) ≤
      extent (operandAxes op (cur :: dims))) :
    (cur :: dims).IsChain fun outer inner =>
      AdjacentMod n outer inner → Adjacent n outer inner := by
  induction dims generalizing cur with
  | nil => exact List.isChain_singleton cur
  | cons d dims ih =>
      obtain ⟨hcur, hrest⟩ := List.forall_mem_cons.1 h
      obtain ⟨hd, hdims⟩ := List.forall_mem_cons.1 hrest
      rw [mergeDimsBy] at hextent
      rw [List.isChain_cons_cons]
      split at hextent <;> rename_i htest
      · rw [mergeTest64, mergeable64_iff hcur] at htest
        have hmerged := List.forall_mem_cons.2 ⟨hcur.merge hd, hdims⟩
        constructor
        · intro _ op hop
          have hle := extent_le_mergeDimsBy hmerged hop
          have hmerge := extent_merge op dims hcur.one_lt hd.one_lt
          have hspan := AdjacentMod.stride_le hcur hd htest hop
          have hback : (cur.size - 1) * ((d.stride op).toNat * d.size) ≤
              (cur.size - 1) * (cur.stride op).toNat := by
            have := hextent op hop
            omega
          have hsize : 0 < cur.size - 1 := Nat.sub_pos_of_lt hcur.one_lt
          have heq := Nat.le_antisymm hspan (Nat.le_of_mul_le_mul_left hback hsize)
          zify at heq
          rwa [Int.toNat_of_nonneg (hcur.stride_nonneg op hop),
            Int.toNat_of_nonneg (hd.stride_nonneg op hop)] at heq
        · have htail := ih hmerged fun op hop => by
            have hspan : (cur.size - 1) * (cur.stride op).toNat ≤
                (cur.size - 1) * ((d.stride op).toNat * d.size) :=
              Nat.mul_le_mul_left _ (AdjacentMod.stride_le hcur hd htest hop)
            have hmerge := extent_merge op dims hcur.one_lt hd.one_lt
            have := hextent op hop
            omega
          cases dims with
          | nil => exact List.isChain_singleton d
          | cons e dims =>
              obtain ⟨hfirst, htail⟩ := List.isChain_cons_cons.1 htail
              exact List.isChain_cons_cons.2 ⟨hfirst, htail⟩
      · refine ⟨fun hmod => absurd ?_ htest, ih hrest fun op hop => ?_⟩
        · exact (mergeable64_iff hcur).2 hmod
        · have := hextent op hop
          simp only [operandAxes, List.map_cons, extent_cons] at this ⊢
          omega

end Extent

end Vectorization
