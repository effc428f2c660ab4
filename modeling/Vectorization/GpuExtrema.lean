/-
`hmin` and `hmax` of a sequence with NaNs, on the host and on the device.  The host
skips a NaN; on the device a NaN discards all that was combined before it and is itself
discarded by what is combined after it.
-/
import Vectorization.GpuDiscards

namespace Vectorization

open Combining CombineTree

section Host

variable {α : Type} [LinearOrder α]

/-- `std::fmin`: a NaN is ignored. -/
def fmin : Option α → Option α → Option α
  | none, b => b
  | a, none => a
  | some a, some b => some (a ⊓ b)

def fmax : Option α → Option α → Option α
  | none, b => b
  | a, none => a
  | some a, some b => some (a ⊔ b)

/-- The host's fold in `hmin`. -/
def hminFold (F : Floating α) (xs : List (Option α)) : Option α :=
  xs.foldl fmin F.scalar.finiteMax

/-- The host's fold in `hmax`. -/
def hmaxFold (F : Floating α) (xs : List (Option α)) : Option α :=
  xs.foldl fmax (F.scalar.neg F.scalar.finiteMax)

/-- The device's reduction of the sequence returns `value`. -/
def DeviceReturns (F : Floating α) (op : ReduceOp) (xs : List (Option α))
    (value : op.Accumulator (Option α)) : Prop :=
  ∃ enough, ∀ fuel ≥ enough,
    reduceGpu F.scalar op (fun i => xs.getD i none) xs.length fuel = some value

/-- `hmin` is the same on the host and on the device. -/
def HminAgrees (F : Floating α) (xs : List (Option α)) : Prop :=
  DeviceReturns F .min xs (hminFold F xs)

def HmaxAgrees (F : Floating α) (xs : List (Option α)) : Prop :=
  DeviceReturns F .max xs (hmaxFold F xs)

end Host

section Selection

variable {β : Type} [LinearOrder β]

/-- Where the NaNs stand. -/
def isNaNAt (xs : List (Option β)) (i : Nat) : Bool := (xs.getD i none).isNone

/-- Where the NaNs stand, they do not discard every smallest of the identity and of the
values. -/
def SmallestSurvives (identity : β) (xs : List (Option β)) : Prop :=
  (∃ i < xs.length, ValueKept (isNaNAt xs) xs.length i ∧
      ∃ a, xs.getD i none = some a ∧ a ≤ identity ∧ ∀ b, some b ∈ xs → a ≤ b) ∨
    IdentityKept (isNaNAt xs) xs.length ∧ ∀ b, some b ∈ xs → identity ≤ b

/-- In terms of the tree some leaf that holds a smallest value survives. -/
theorem smallestSurvives_iff {identity : β} {xs : List (Option β)} (hxs : xs ≠ []) :
    SmallestSurvives identity xs ↔
      ∃ leaf ∈ survivors (isNaNAt xs) (combiningTree xs.length),
        ∃ a, leaf.elim (some identity) (fun i => xs.getD i none) = some a ∧ a ≤ identity ∧
          ∀ b, some b ∈ xs → a ≤ b := by
  have hpos := List.length_pos_iff.2 hxs
  rw [SmallestSurvives, Option.exists]
  simp only [mem_survivors_combiningTree hpos, Option.elim_none, Option.elim_some]
  rw [or_comm]
  apply or_congr
  · apply and_congr_right
    intro _
    constructor
    · exact fun hall => ⟨identity, rfl, le_rfl, hall⟩
    · rintro ⟨a, ha, -, hall⟩
      exact Option.some.inj ha ▸ hall
  · simp only [and_assoc]

/-- A selection by a comparison that is false on NaNs. -/
structure Selects (select : Option β → Option β → Option β) : Prop where
  nan_right : ∀ a, select a none = none
  nan_left : ∀ b, select none b = b
  values : ∀ a b : β, select (some a) (some b) = some (a ⊓ b)

/-- A fold that ignores NaNs. -/
structure Ignores (combine : Option β → Option β → Option β) : Prop where
  nan_right : ∀ a : β, combine (some a) none = some a
  values : ∀ a b : β, combine (some a) (some b) = some (a ⊓ b)

/-- The fold of the host ends in a smallest value. -/
theorem Ignores.foldl {combine : Option β → Option β → Option β} (h : Ignores combine)
    (xs : List (Option β)) (identity : β) :
    ∃ m, xs.foldl combine (some identity) = some m ∧
      (m = identity ∨ some m ∈ xs) ∧ m ≤ identity ∧ ∀ b, some b ∈ xs → m ≤ b := by
  induction xs generalizing identity with
  | nil => exact ⟨identity, rfl, .inl rfl, le_rfl, fun b hb => absurd hb List.not_mem_nil⟩
  | cons x xs ih =>
      cases x with
      | none =>
          obtain ⟨m, hm, hmem, hle, hall⟩ := ih identity
          refine ⟨m, by rw [List.foldl_cons, h.nan_right, hm],
            hmem.imp_right (List.mem_cons_of_mem _), hle, fun b hb => ?_⟩
          exact hall b (List.mem_of_ne_of_mem (Option.some_ne_none b) hb)
      | some a =>
          obtain ⟨m, hm, hmem, hle, hall⟩ := ih (identity ⊓ a)
          refine ⟨m, by rw [List.foldl_cons, h.values, hm], ?_,
            hle.trans inf_le_left, fun b hb => ?_⟩
          · rcases hmem with rfl | hmem
            · rcases min_choice identity a with heq | heq
              · exact .inl heq
              · exact .inr (by rw [heq]; exact List.mem_cons_self)
            · exact .inr (List.mem_cons_of_mem _ hmem)
          · rcases List.mem_cons.1 hb with heq | hb
            · exact Option.some.inj heq ▸ hle.trans inf_le_right
            · exact hall b hb

variable {select : Option β → Option β → Option β} (h : Selects select) (identity : β)
  (x : Nat → Option β)
include h

/-- The device's tree ends in a smallest survivor, or in a NaN when there is none. -/
theorem Selects.eval (t : CombineTree Nat) :
    (survivors (fun i => (x i).isNone) t = [] → t.eval select (some identity) x = none) ∧
    (survivors (fun i => (x i).isNone) t ≠ [] → ∃ m,
      t.eval select (some identity) x = some m ∧
      (∃ leaf ∈ survivors (fun i => (x i).isNone) t, leaf.elim (some identity) x = some m) ∧
      ∀ leaf ∈ survivors (fun i => (x i).isNone) t, ∀ a,
        leaf.elim (some identity) x = some a → m ≤ a) := by
  induction t with
  | identity =>
      refine ⟨fun hnil => absurd hnil (List.cons_ne_nil _ _), fun _ =>
        ⟨identity, rfl, ⟨none, List.mem_singleton_self _, rfl⟩, fun leaf hleaf a ha => ?_⟩⟩
      obtain rfl := List.mem_singleton.1 hleaf
      exact (Option.some.inj ha).le
  | term i =>
      cases hi : x i with
      | none => simp [survivors, CombineTree.eval, hi]
      | some a => simp [survivors, CombineTree.eval, hi]
  | node lhs rhs ihl ihr =>
      simp only [survivors, CombineTree.eval]
      by_cases hr : survivors (fun i => (x i).isNone) rhs = []
      · rw [if_pos hr, ihr.1 hr, h.nan_right]
        exact ⟨fun _ => rfl, fun hne => absurd rfl hne⟩
      rw [if_neg hr]
      refine ⟨fun hnil => absurd (List.append_eq_nil_iff.1 hnil).2 hr, fun _ => ?_⟩
      obtain ⟨mr, hmr, ⟨leafr, hleafr, hvaluer⟩, hleastr⟩ := ihr.2 hr
      by_cases hl : survivors (fun i => (x i).isNone) lhs = []
      · rw [ihl.1 hl, h.nan_left, hl, List.nil_append]
        exact ⟨mr, hmr, ⟨leafr, hleafr, hvaluer⟩, hleastr⟩
      obtain ⟨ml, hml, ⟨leafl, hleafl, hvaluel⟩, hleastl⟩ := ihl.2 hl
      refine ⟨ml ⊓ mr, by rw [hml, hmr, h.values], ?_, fun leaf hleaf a ha => ?_⟩
      · rcases min_choice ml mr with heq | heq
        · exact ⟨leafl, List.mem_append_left _ hleafl, by rw [heq, hvaluel]⟩
        · exact ⟨leafr, List.mem_append_right _ hleafr, by rw [heq, hvaluer]⟩
      · rcases List.mem_append.1 hleaf with hleaf | hleaf
        · exact inf_le_left.trans (hleastl leaf hleaf a ha)
        · exact inf_le_right.trans (hleastr leaf hleaf a ha)

/-- The device agrees with the host when a smallest value survives. -/
theorem Selects.agrees_iff {combine : Option β → Option β → Option β} (hhost : Ignores combine)
    {xs : List (Option β)} (hxs : xs ≠ []) :
    (combiningTree xs.length).eval select (some identity) (fun i => xs.getD i none) =
      xs.foldl combine (some identity) ↔ SmallestSurvives identity xs := by
  rw [smallestSurvives_iff hxs]
  obtain ⟨m, hm, hmem, hle, hall⟩ := hhost.foldl xs identity
  have heval := h.eval identity (fun i => xs.getD i none) (combiningTree xs.length)
  have hheld : ∀ {leaf : Option Nat} {a : β},
      leaf.elim (some identity) (fun i => xs.getD i none) = some a →
        a = identity ∨ some a ∈ xs := by
    intro leaf a ha
    cases leaf with
    | none => exact .inl (Option.some.inj ha).symm
    | some i =>
        obtain ⟨hi, hget⟩ := List.getElem?_eq_some_iff.1
          (show xs[i]? = some (some a) by
            simpa [List.getD_eq_getElem?_getD, Option.getD_eq_iff] using ha)
        exact .inr (hget ▸ List.getElem_mem hi)
  rw [hm]
  constructor
  · intro heq
    by_cases hnil : survivors (isNaNAt xs) (combiningTree xs.length) = []
    · rw [heval.1 hnil] at heq
      exact nomatch heq
    · obtain ⟨m', hm', ⟨leaf, hleaf, hvalue⟩, -⟩ := heval.2 hnil
      obtain rfl := Option.some.inj (hm'.symm.trans heq)
      exact ⟨leaf, hleaf, m', hvalue, hle, hall⟩
  · rintro ⟨leaf, hleaf, a, hvalue, hale, haall⟩
    obtain ⟨m', hm', ⟨leaf', -, hvalue'⟩, hleast⟩ := heval.2 (List.ne_nil_of_mem hleaf)
    have hleq : m' ≤ a := hleast leaf hleaf a hvalue
    have hlem : a ≤ m := by
      rcases hmem with rfl | hmem
      · exact hale
      · exact haall m hmem
    have hge : m ≤ m' := by
      rcases hheld hvalue' with rfl | hmem'
      · exact hle
      · exact hall m' hmem'
    rw [hm', le_antisymm (hleq.trans hlem) hge]

end Selection

section Extrema

variable {α : Type} [LinearOrder α] (F : Floating α)

theorem selects_min : Selects (reduceCombine F.scalar .min) where
  nan_right a := by cases a <;> rfl
  nan_left b := by cases b <;> rfl
  values := reduceCombine_min F

/-- The device's maximum selects in the reversed order. -/
theorem selects_max : @Selects αᵒᵈ _ (reduceCombine F.scalar .max) where
  nan_right a := by cases a <;> rfl
  nan_left b := by cases b <;> rfl
  values := reduceCombine_max F

theorem ignores_fmin : Ignores (fmin : Option α → Option α → Option α) where
  nan_right _ := rfl
  values _ _ := rfl

theorem ignores_fmax : @Ignores αᵒᵈ _ (fmax : Option α → Option α → Option α) where
  nan_right _ := rfl
  values _ _ := rfl

variable {F}

theorem deviceReturns_iff {op : ReduceOp} {xs : List (Option α)} (hxs : xs ≠ [])
    {value : op.Accumulator (Option α)} :
    DeviceReturns F op xs value ↔ xs.length ≤ 2 ^ 64 - gpuReduceMaxStep ∧
      (combiningTree xs.length).eval (reduceCombine (op.accumulator F.scalar) op)
        (reduceIdentity (op.accumulator F.scalar) op)
        (fun i => reduceTransform F.scalar op (xs.getD i none)) = value := by
  by_cases hn : xs.length ≤ 2 ^ 64 - gpuReduceMaxStep
  · have hrun := fun fuel => @reduceGpu_eq xs.length fuel _ F.scalar op
      (fun i => xs.getD i none) (List.length_pos_iff.2 hxs) hn
    constructor
    · rintro ⟨enough, hreturns⟩
      have h := hreturns (max enough (xs.length + 2)) (le_max_left _ _)
      rw [hrun _ (by omega)] at h
      exact ⟨hn, Option.some.inj h⟩
    · rintro ⟨-, rfl⟩
      exact ⟨xs.length + 2, fun fuel hfuel => hrun fuel (by omega)⟩
  · constructor
    · rintro ⟨enough, hreturns⟩
      have h := hreturns enough le_rfl
      rw [reduceGpu_none _ _ _ (Nat.lt_of_not_le hn)] at h
      exact nomatch h
    · rintro ⟨hle, -⟩
      exact absurd hle hn

/-- The device agrees with the host exactly when the run ends and some smallest, or
greatest, value is not discarded by a NaN. -/
theorem deviceExtrema_agree_iff {xs : List (Option α)} (hxs : xs ≠ []) :
    (HminAgrees F xs ↔ xs.length ≤ 2 ^ 64 - gpuReduceMaxStep ∧
      SmallestSurvives F.finiteMax xs) ∧
    (HmaxAgrees F xs ↔ xs.length ≤ 2 ^ 64 - gpuReduceMaxStep ∧
      @SmallestSurvives αᵒᵈ _ (F.neg F.finiteMax) xs) := by
  constructor
  · refine (deviceReturns_iff hxs).trans (and_congr_right fun _ => ?_)
    exact (selects_min F).agrees_iff F.finiteMax ignores_fmin hxs
  · refine (deviceReturns_iff hxs).trans (and_congr_right fun _ => ?_)
    exact @Selects.agrees_iff αᵒᵈ _ _ (selects_max F) (F.neg F.finiteMax) _ (@ignores_fmax α _)
      xs hxs

end Extrema

section Ordered

variable {β : Type} [LinearOrder β]

theorem survivors_of_ordered {isNaN : Nat → Bool} {t : CombineTree Nat}
    (h : ∀ i ∈ t.terms, isNaN i = false) :
    survivors isNaN t ≠ [] ∧ ∀ i ∈ t.terms, some i ∈ survivors isNaN t := by
  induction t with
  | identity => exact ⟨List.cons_ne_nil _ _, fun i hi => absurd hi List.not_mem_nil⟩
  | term i => simp [survivors, CombineTree.terms, h i (by simp [CombineTree.terms])]
  | node lhs rhs ihl ihr =>
      obtain ⟨-, hl⟩ := ihl fun i hi => h i (List.mem_append_left _ hi)
      obtain ⟨hne, hr⟩ := ihr fun i hi => h i (List.mem_append_right _ hi)
      rw [survivors, if_neg hne]
      refine ⟨List.append_ne_nil_of_right_ne_nil _ hne, fun i hi => ?_⟩
      exact List.mem_append.2 ((List.mem_append.1 hi).imp (hl i) (hr i))

/-- Without a NaN every smallest value survives. -/
theorem smallestSurvives_of_ordered {identity : β} {xs : List (Option β)} (hnan : none ∉ xs)
    {a : β} (ha : some a ∈ xs) (hle : a ≤ identity) : SmallestSurvives identity xs := by
  obtain ⟨m, -, hmem, hmle, hall⟩ := ignores_fmin.foldl xs identity
  have hmem : some m ∈ xs := by
    rcases hmem with rfl | hmem
    · rwa [le_antisymm (hall a ha) hle]
    · exact hmem
  obtain ⟨i, hi, hget⟩ := List.getElem_of_mem hmem
  have hterms := terms_combiningTree (Nat.zero_lt_of_lt hi)
  rw [smallestSurvives_iff (List.ne_nil_of_mem ha)]
  refine ⟨some i, (survivors_of_ordered fun j hj => ?_).2 i
    (hterms.mem_iff.2 (List.mem_range.2 hi)), m, ?_, hmle, hall⟩
  · have hj := List.mem_range.1 (hterms.mem_iff.1 hj)
    rw [isNaNAt, List.getD_eq_getElem _ _ hj, Option.isNone_eq_false_iff, Option.isSome_iff_ne_none]
    exact fun hnone => hnan (hnone ▸ List.getElem_mem hj)
  · simp [hi, hget]

end Ordered

namespace GpuExtremaWitness

def small : Floating Int where
  zero := 0
  one := 1
  finiteMax := 100
  neg a := -a
  add a b := Option.map₂ (· + ·) a b
  mul a b := Option.map₂ (· * ·) a b

/-- The NaN of thread 128 discards what thread 0 holds, but neither the 1 of thread 1 nor the
3 of thread 2. -/
def kept : List (Option Int) :=
  some 2 :: some 1 :: some 3 :: (List.replicate 125 (some 2) ++ [none])

theorem valueKept_kept {i : Nat} (hi : i ∈ [1, 2]) : ValueKept (isNaNAt kept) kept.length i := by
  have hgrid : gpuReduceBlocks kept.length = 1 := by decide +kernel
  rw [ValueKept, hgrid, PartialKept, if_neg (by decide)]
  revert i
  decide +kernel

theorem agree_kept : HminAgrees small kept ∧ HmaxAgrees small kept ∧
    HminAgrees small [some 3, some 1, some 2] := by
  have hlength : kept.length ≤ 2 ^ 64 - gpuReduceMaxStep := by decide +kernel
  have hleast : ∀ b, some b ∈ kept → 1 ≤ b ∧ b ≤ 3 := by
    have hall : ∀ x ∈ kept, ∀ b ∈ x, 1 ≤ b ∧ b ≤ 3 := by decide +kernel
    exact fun b hb => hall _ hb b rfl
  refine ⟨?_, ?_, ?_⟩
  · apply (deviceExtrema_agree_iff (by decide)).1.2
    refine ⟨hlength, Or.inl ⟨1, by decide +kernel, valueKept_kept (by decide), 1, rfl, ?_, ?_⟩⟩
    · exact show (1 : Int) ≤ 100 by decide
    · exact fun b hb => (hleast b hb).1
  · apply (deviceExtrema_agree_iff (by decide)).2.2
    refine ⟨hlength, Or.inl ⟨2, by decide +kernel, valueKept_kept (by decide), 3, rfl, ?_, ?_⟩⟩
    · exact show (-100 : Int) ≤ 3 by decide
    · exact fun b hb => (hleast b hb).2
  · have hone : some 1 ∈ [some (3 : Int), some 1, some 2] := by decide
    have hle : (1 : Int) ≤ small.finiteMax := by decide
    exact (deviceExtrema_agree_iff (by decide)).1.2
      ⟨by decide, smallestSurvives_of_ordered (by decide) hone hle⟩

/-- The value 1 of thread 0 meets the NaN of thread 128 in the first step of the tree. -/
def lost : List (Option Int) := some 1 :: (List.replicate 127 (some 2) ++ [none])

theorem not_hminAgrees : ¬ HminAgrees small lost := by
  intro h
  have heval := ((deviceReturns_iff (by decide)).1 h).2
  rw [combiningTree_eq_blockTree (by decide +kernel), blockTree, gpuReduceBlock_eq] at heval
  have hhost : hminFold small lost = some 1 := by decide +kernel
  have hdevice : @Ne (Option Int) (CombineTree.eval (reduceCombine small.scalar .min)
      (reduceIdentity small.scalar .min) (fun i => lost.getD i none)
      ([128, 64, 32, 16, 8, 4, 2, 1].foldl
        (fun smem stride => treeStep .node stride smem)
        (fun thread => ((List.range gpuReduceBlockSize).map fun thread =>
          threadTree lost.length (1 * gpuReduceBlockSize)
            (0 * gpuReduceBlockSize + thread)).getD thread .identity) 0)) (some 1) := by
    decide +kernel
  exact hdevice (heval.trans hhost)

end GpuExtremaWitness

end Vectorization
