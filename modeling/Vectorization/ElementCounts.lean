/-
Element counts.  The checked product of the dimensions stops at the first partial product
that overflows, a later dimension of size zero notwithstanding; the count of a broadcast
shape is not checked at all.
-/
import Vectorization.ExpressionReduction

namespace Vectorization

open StridedSpace MachineInteger

variable {T : ElementType} {α : Type}

def isNonzero (dim : Nat) : Bool := dim != 0

/-- The dimensions before the first one of size zero. -/
def beforeZero (dims : List Nat) : List Nat := dims.takeWhile isNonzero

def nonzeroDims (dims : List Nat) : List Nat := dims.filter isNonzero

/-- A count raises exactly when the product of the dimensions exceeds `size_t`, and is that
product otherwise. -/
def CountedExactly (count : Except Raise Nat) (dims : List Nat) : Prop :=
  ((∃ raise, count = .error raise) ↔ uint64Max < dims.prod) ∧
    (dims.prod ≤ uint64Max → count = .ok dims.prod)

/-- Dimensions are accepted in any order or in none. -/
def OrderIrrelevant {δ : Type} (count : List δ → Except Raise Nat) (dims : List δ) : Prop :=
  ∀ dims', dims'.Perm dims → (count dims').isOk = (count dims).isOk

/-- The count of a broadcast shape is its product; so only an empty shape counts as
empty. -/
def BroadcastCounted (shape : List Nat) : Prop :=
  shapeNumel shape = shape.prod ∧ (shapeNumel shape = 0 → shape.prod = 0)

section Products

theorem isNonzero_iff {d : Nat} : isNonzero d = true ↔ d ≠ 0 := bne_iff_ne

theorem prod_nonzero_pos {dims : List Nat} (h : ∀ d ∈ dims, d ≠ 0) : 0 < dims.prod :=
  List.prod_pos fun d hd => Nat.pos_of_ne_zero (h d hd)

theorem beforeZero_ne_zero (dims : List Nat) : ∀ d ∈ beforeZero dims, d ≠ 0 :=
  fun _ hd => isNonzero_iff.1 (List.mem_takeWhile_imp hd)

theorem beforeZero_eq_self {dims : List Nat} (h : 0 ∉ dims) : beforeZero dims = dims := by
  refine List.takeWhile_eq_self_iff.2 fun d hd => isNonzero_iff.2 ?_
  rintro rfl
  exact h hd

theorem prod_eq_zero_of_mem {dims : List Nat} (h : 0 ∈ dims) : dims.prod = 0 :=
  List.prod_eq_zero h

theorem beforeZero_prod_le (dims : List Nat) :
    (beforeZero dims).prod ≤ (nonzeroDims dims).prod := by
  have hsplit : nonzeroDims dims = beforeZero dims ++
      nonzeroDims (dims.dropWhile isNonzero) := by
    conv_lhs => rw [← List.takeWhile_append_dropWhile (p := isNonzero) (l := dims)]
    rw [nonzeroDims, List.filter_append, List.filter_eq_self.2]
    · rfl
    · exact fun d hd => List.mem_takeWhile_imp hd
  have hrest : 0 < (nonzeroDims (dims.dropWhile isNonzero)).prod :=
    prod_nonzero_pos fun d hd => isNonzero_iff.1 (List.mem_filter.1 hd).2
  rw [hsplit, List.prod_append]
  exact Nat.le_mul_of_pos_right _ hrest

/-- The loop stops at the first partial product that does not fit. -/
theorem productLoop_eq {overflow : Raise} {total : Nat} (dims : List Nat)
    (htotal : total ≤ uint64Max) :
    productLoop overflow total dims =
      if total * (beforeZero dims).prod ≤ uint64Max then .ok (total * dims.prod)
      else .error overflow := by
  induction dims generalizing total with
  | nil =>
      have hnil : beforeZero [] = [] := rfl
      rw [hnil, List.prod_nil, Nat.mul_one, if_pos htotal, productLoop]
  | cons d dims ih =>
      rw [productLoop]
      by_cases hzero : d = 0
      · have hnil : beforeZero (d :: dims) = [] := by
          rw [hzero]
          rfl
        have hwrap : wrapU64 (total * d) = 0 := by
          rw [hzero]
          rfl
        rw [if_pos (Or.inl hzero), hwrap, ih (Nat.zero_le _), Nat.zero_mul,
          if_pos (Nat.zero_le _), hnil, List.prod_nil, Nat.mul_one, if_pos htotal,
          List.prod_cons, hzero, Nat.zero_mul, Nat.mul_zero]
      · have hcons : beforeZero (d :: dims) = d :: beforeZero dims := by
          rw [beforeZero, List.takeWhile_cons_of_pos (isNonzero_iff.2 hzero), beforeZero]
        have hguard : total ≤ uint64Max / d ↔ total * d ≤ uint64Max :=
          Nat.le_div_iff_mul_le (Nat.pos_of_ne_zero hzero)
        rw [hcons, List.prod_cons, List.prod_cons, ← Nat.mul_assoc, ← Nat.mul_assoc]
        by_cases hfit : total * d ≤ uint64Max
        · have hwrap : wrapU64 (total * d) = total * d := by
            apply wrapU64_eq_self
            unfold uint64Max at hfit
            omega
          rw [if_pos (Or.inr (hguard.2 hfit)), hwrap, ih hfit]
        · have hrest := prod_nonzero_pos (beforeZero_ne_zero dims)
          have hlarge := Nat.le_mul_of_pos_right (total * d) hrest
          rw [if_neg (by rw [hguard]; omega), if_neg (by omega)]

/-- The loop counts exactly unless the product overflows before a zero. -/
theorem countedExactly_productLoop_iff (overflow : Raise) (dims : List Nat) :
    CountedExactly (productLoop overflow 1 dims) dims ↔
      (0 ∈ dims → (beforeZero dims).prod ≤ uint64Max) := by
  rw [productLoop_eq dims (by decide), Nat.one_mul, Nat.one_mul, CountedExactly]
  by_cases hzero : 0 ∈ dims
  · have hprod := prod_eq_zero_of_mem hzero
    rw [hprod]
    constructor
    · rintro ⟨-, hok⟩ _
      by_contra hlarge
      have hraise := hok (Nat.zero_le _)
      rw [if_neg hlarge] at hraise
      cases hraise
    · intro hfit
      rw [if_pos (hfit hzero)]
      simp
  · rw [beforeZero_eq_self hzero]
    refine ⟨fun _ hmem => absurd hmem hzero, fun _ => ?_⟩
    by_cases hfit : dims.prod ≤ uint64Max
    · rw [if_pos hfit]
      simp only [reduceCtorEq, exists_false, false_iff, not_lt, implies_true, and_true]
      exact hfit
    · rw [if_neg hfit]
      refine ⟨⟨fun _ => Nat.lt_of_not_le hfit, fun _ => ⟨_, rfl⟩⟩, fun h => absurd h hfit⟩

theorem productLoop_isOk (overflow : Raise) (dims : List Nat) :
    (productLoop overflow 1 dims).isOk = decide ((beforeZero dims).prod ≤ uint64Max) := by
  rw [productLoop_eq dims (by decide), Nat.one_mul]
  split <;> rename_i hfit
  · exact (decide_eq_true hfit).symm
  · exact (decide_eq_false hfit).symm

theorem beforeZero_append {dims zeros : List Nat} (hdims : ∀ d ∈ dims, d ≠ 0)
    (hzeros : ∀ d ∈ zeros, d = 0) : beforeZero (dims ++ zeros) = dims := by
  have hnil : zeros.takeWhile isNonzero = [] := by
    rw [List.takeWhile_eq_nil_iff]
    intro hlen hnonzero
    exact isNonzero_iff.1 hnonzero (hzeros _ (List.get_mem zeros ⟨0, hlen⟩))
  rw [beforeZero, List.takeWhile_append_of_pos fun d hd => isNonzero_iff.2 (hdims d hd), hnil,
    List.append_nil]

theorem orderIrrelevant_productLoop_iff {δ : Type} (overflow : Raise) (size : δ → Nat)
    (dims : List δ) :
    OrderIrrelevant (fun dims => productLoop overflow 1 (dims.map size)) dims ↔
      (0 ∈ dims.map size → (nonzeroDims (dims.map size)).prod ≤ uint64Max) := by
  unfold OrderIrrelevant
  simp only [productLoop_isOk, decide_eq_decide]
  constructor
  · intro h hzero
    -- a zero in front is accepted, a zero behind everything else is not
    obtain ⟨d, hd, hsize⟩ := List.mem_map.1 hzero
    obtain ⟨xs, ys, rfl⟩ := List.append_of_mem hd
    have hfront : (beforeZero ((d :: (xs ++ ys)).map size)).prod ≤ uint64Max := by
      have hnil : beforeZero ((d :: (xs ++ ys)).map size) = [] := by
        rw [List.map_cons, hsize]
        rfl
      rw [hnil]
      decide
    generalize hdims : xs ++ d :: ys = dims at h hzero ⊢
    have hself := (h _ (hdims ▸ List.perm_middle.symm)).1 hfront
    have hlast := (h _ (List.filter_append_perm (fun d => isNonzero (size d)) dims)).2 hself
    have hnonzero : nonzeroDims (dims.map size) =
        (dims.filter fun d => isNonzero (size d)).map size := List.filter_map
    rw [List.map_append, ← hnonzero, beforeZero_append] at hlast
    · exact hlast
    · exact fun n hn => isNonzero_iff.1 (List.mem_filter.1 hn).2
    · intro n hn
      obtain ⟨b, hb, rfl⟩ := List.mem_map.1 hn
      have hzero := (List.mem_filter.1 hb).2
      simpa [isNonzero] using hzero
  · intro h dims' hperm
    have hmap := hperm.map size
    by_cases hzero : 0 ∈ dims.map size
    · have hnonzero : (nonzeroDims (dims'.map size)).prod = (nonzeroDims (dims.map size)).prod :=
        (hmap.filter _).prod_eq
      have hfit := h hzero
      have hle := beforeZero_prod_le (dims.map size)
      have hle' := beforeZero_prod_le (dims'.map size)
      omega
    · have hzero' : 0 ∉ dims'.map size := fun hmem => hzero (hmap.mem_iff.1 hmem)
      rw [beforeZero_eq_self hzero, beforeZero_eq_self hzero', hmap.prod_eq]

theorem broadcastCounted_iff (shape : List Nat) :
    BroadcastCounted shape ↔ shape.prod ≤ uint64Max := by
  rw [BroadcastCounted, shapeNumel_eq]
  have hlt := wrapU64_lt shape.prod
  unfold uint64Max
  constructor
  · rintro ⟨hexact, -⟩
    omega
  · intro hfit
    rw [wrapU64_eq_self (by omega)]
    exact ⟨rfl, id⟩

end Products

/-- Element counts are exact, whatever the order of the dimensions, unless the dimensions
before a zero overflow; the count of a broadcast is exact when it fits. -/
theorem elementCounts_exact_iff (dims : List Nat) (viewDims : List Dim) :
    ((CountedExactly (computeTotal dims) dims ↔
        (0 ∈ dims → (beforeZero dims).prod ≤ uint64Max)) ∧
      (OrderIrrelevant computeTotal dims ↔
        (0 ∈ dims → (nonzeroDims dims).prod ≤ uint64Max))) ∧
    (∀ sizes, (viewDims.map fun d => toU64 d.size) = sizes →
      (CountedExactly (computeShapeNumel viewDims) sizes ↔
        (0 ∈ sizes → (beforeZero sizes).prod ≤ uint64Max)) ∧
      (OrderIrrelevant computeShapeNumel viewDims ↔
        (0 ∈ sizes → (nonzeroDims sizes).prod ≤ uint64Max))) ∧
    ∀ (T : ElementType) (α : Type) (e : Expr (Leaf T) α) (shape : List Nat),
      expressionResultShape e = .ok shape → (BroadcastCounted shape ↔ shape.prod ≤ uint64Max) := by
  refine ⟨⟨?_, ?_⟩, ?_, fun T α e shape _ => ?_⟩
  · exact countedExactly_productLoop_iff _ dims
  · have horder := orderIrrelevant_productLoop_iff .dimensionsOverflow id dims
    rw [List.map_id] at horder
    rw [← horder]
    unfold OrderIrrelevant computeTotal
    simp only [List.map_id]
  · rintro sizes rfl
    exact ⟨countedExactly_productLoop_iff _ _, orderIrrelevant_productLoop_iff _ _ viewDims⟩
  · exact broadcastCounted_iff shape

namespace ElementCountsWitness

open Sample

/-- One element, expanded along a dimension in two ways. -/
def column : Leaf float := .ref (cpuRef 4096 [⟨2 ^ 32, 0⟩, ⟨1, 0⟩])

def row : Leaf float := .ref (cpuRef 4096 [⟨2 ^ 32, 0⟩])

def table : Expr (Leaf float) Nat := .binary (.lanes (· + ·)) (.leaf column) (.leaf row)

/-- An empty shape is rejected for the order of its dimensions, and a broadcast of
`2 ^ 64` elements counts none. -/
theorem elementCounts_not_exact :
    ¬ ((∀ dims : List Nat, CountedExactly (computeTotal dims) dims ∧
          OrderIrrelevant computeTotal dims) ∧
        (∀ dims : List Dim,
          CountedExactly (computeShapeNumel dims) (dims.map fun d => toU64 d.size) ∧
          OrderIrrelevant computeShapeNumel dims) ∧
        ∀ (T : ElementType) (α : Type) (e : Expr (Leaf T) α) (shape : List Nat),
          expressionResultShape e = .ok shape → BroadcastCounted shape) ∧
      computeTotal [2 ^ 33, 2 ^ 31, 0] = .error .dimensionsOverflow ∧
      computeTotal [2 ^ 33, 0, 2 ^ 31] = .ok 0 ∧
      expressionResultShape table = .ok [2 ^ 32, 2 ^ 32] ∧
      expressionNumel table = 0 := by
  have hraise : computeTotal [2 ^ 33, 2 ^ 31, 0] = .error .dimensionsOverflow := by
    decide +kernel
  refine ⟨?_, hraise, by decide +kernel, by decide +kernel, by decide +kernel⟩
  rintro ⟨htotal, -⟩
  have hok := (htotal [2 ^ 33, 2 ^ 31, 0]).1.2 (by decide +kernel)
  rw [hraise] at hok
  cases hok

end ElementCountsWitness

end Vectorization
