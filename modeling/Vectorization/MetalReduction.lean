/-
The generated Metal reduction of `expressions_evaluator_metal.h`: the kernel that
`metal_reduce_source` writes for an operation folds each SIMD group into a partial, and
`metal_reduce_extended` launches it again over the partials until one is left.  A launch
runs its threads in SIMD groups of the width of the device, whose lanes go in step.
Allocations and launches succeed.
-/
import Vectorization.ExactCounts
import Vectorization.Foundation.LoopTiling

namespace Vectorization

open Combining LoopTiling

/-- The value an exact unsigned result wraps to in a `uint`. -/
def wrapU32 (x : Nat) : Nat := x % 2 ^ 32

section Kernel

variable {ρ : Type} (combine : ρ → ρ → ρ)

/-- The lanes of a group that a launch of `n` threads runs. -/
def runningLanes (width n group : Nat) : Nat := min width (n - group * width)

/-- `simd_shuffle_down`: what it takes from a lane that does not run is not specified. -/
def simdShuffleDown (running : Nat) (lost : Nat → ρ) (v : Nat → ρ) (offset : Nat) : Nat → ρ :=
  fun lane => if lane + offset < running then v (lane + offset) else lost lane

/-- `active`, as the thread computes it. -/
def activeLanes (width n tid lane : Nat) : Nat :=
  min width (wrapU32 (n + 2 ^ 32 - wrapU32 (tid + 2 ^ 32 - lane)))

/-- A round of the lanes of a group; `active` is each lane's own. -/
def shuffleStep (running : Nat) (active : Nat → Nat) (lost : Nat → ρ) (offset : Nat)
    (v : Nat → ρ) : Nat → ρ := fun lane =>
  let other := simdShuffleDown running lost v offset lane
  if wrapU32 (lane + offset) < active lane then combine (v lane) other else v lane

/-- The rounds from an offset on: `offset > 0; offset >>= 1`. -/
def shuffleLoop (running : Nat) (active : Nat → Nat) (lost : Nat → Nat → ρ) (offset : Nat)
    (v : Nat → ρ) : Nat → ρ :=
  if offset = 0 then v
  else shuffleLoop running active lost (offset / 2)
    (shuffleStep combine running active (lost offset) offset v)
termination_by offset

/-- The number of partials of `n` threads. -/
def simdGroups (width n : Nat) : Nat := n / width + (if n % width ≠ 0 then 1 else 0)

/-- What the first lane of each group holds after the rounds. -/
def simdPartials (width n : Nat) (lost : Nat → Nat → Nat → ρ) (input : Nat → ρ) : List ρ :=
  (List.range (simdGroups width n)).map fun group =>
    shuffleLoop combine (runningLanes width n group)
      (fun lane => activeLanes width n (group * width + lane) lane) (lost group) (width / 2)
      (fun lane => input (group * width + lane)) 0

end Kernel

/-- Metal's `float`: `as_type` keeps the bits, and zero and one are as usual. -/
structure MetalFloat (T : Type) extends Scalar T where
  asFloat : UInt32 → T
  asUInt : T → UInt32
  asUInt_asFloat : ∀ u, asUInt (asFloat u) = u
  zero_eq : eq zero zero = true
  one_ne : eq one zero = false
  zero_lt_one : lt zero one = true
  one_not_lt_zero : lt one zero = false

/-- The type of `v`. -/
def ReduceOp.MetalValue (T : Type) : ReduceOp → Type
  | countNonzero | countValid => UInt32
  | _ => T

section Reduction

variable {T : Type} (M : MetalFloat T)

/-- What `v` starts from. -/
def metalLoad : (op : ReduceOp) → Bool → T → op.MetalValue T
  | .countNonzero, true, x | .countValid, true, x => M.asUInt x
  | .countNonzero, false, x => if !M.eq x M.zero then (1 : UInt32) else (0 : UInt32)
  | .countValid, false, x => if M.eq x x then (1 : UInt32) else (0 : UInt32)
  | .all, false, x | .any, false, x => M.ofBool (!M.eq x M.zero)
  | .nansum, false, x => if !M.eq x x then M.zero else x
  | .all, true, x | .any, true, x | .nansum, true, x => x
  | .sum, _, x | .min, _, x | .max, _, x | .product, _, x => x

/-- The assignment to `v`; `min` and `max` return their first argument on a tie. -/
def metalCombine : (op : ReduceOp) → op.MetalValue T → op.MetalValue T → op.MetalValue T
  | .product, v, other => M.mul v other
  | .all, v, other => if M.lt other v then other else v
  | .any, v, other => if M.lt v other then other else v
  | .sum, v, other | .min, v, other | .max, v, other | .nansum, v, other => M.add v other
  | .countNonzero, v, other | .countValid, v, other => UInt32.add v other

/-- What lane 0 writes out. -/
def metalStore : (op : ReduceOp) → op.MetalValue T → T
  | .countNonzero, v | .countValid, v => M.asFloat v
  | .sum, v | .min, v | .max, v | .product, v | .all, v | .any, v | .nansum, v => v

/-- The kernel of `metal_reduce_source`: one partial for each SIMD group. -/
def metalReduceKernel (op : ReduceOp) (partials : Bool) (width n : Nat)
    (lost : Nat → Nat → Nat → op.MetalValue T) (body : Nat → T) : List T :=
  (simdPartials (metalCombine M op) width n lost fun tid =>
    metalLoad M op partials (body tid)).map (metalStore M op)

/-- The passes over the partials; none when they do not end within the fuel.  Lost lanes
are told apart by the number of threads of the launch. -/
def metalReducePasses (op : ReduceOp) (width : Nat)
    (lost : Nat → Nat → Nat → Nat → op.MetalValue T) : Nat → List T → Option (List T)
  | 0, _ => none
  | fuel + 1, current =>
      if 1 < current.length then
        metalReducePasses op width lost fuel
          (metalReduceKernel M op true width current.length (lost current.length) fun tid =>
            current.getD tid M.zero)
      else some current

/-- The value that is copied back, as the accumulator. -/
def metalResult : (op : ReduceOp) → T → op.Accumulator T
  | .countNonzero, value | .countValid, value => (M.asUInt value).toUInt64
  | .sum, value | .min, value | .max, value | .product, value | .all, value | .any, value
  | .nansum, value => value

/-- `metal_reduce_extended` of an expression whose kernel computes `evaluate`, within the
buffer limit of the device when `fits`; none when it raises or does not end within the
fuel. -/
def metalReduceExtended (op : ReduceOp) (width : Nat)
    (lost : Nat → Nat → Nat → Nat → op.MetalValue T) (fuel : Nat) (fits : Bool)
    (evaluate : Nat → T) (n : Nat) : Option (op.Accumulator T) :=
  if n = 0 then some (reduceIdentity (op.accumulator M.toScalar) op)
  else if ¬ n ≤ 2 ^ 32 - 1 then none
  else if ¬ fits then none
  else do
    let current ← metalReducePasses M op width lost fuel
      (metalReduceKernel M op false width n (lost n) evaluate)
    return metalResult M op (current.getD 0 M.zero)

end Reduction

section Rounds

variable {ρ : Type} {combine : ρ → ρ → ρ} {running : Nat} {active : Nat → Nat}

theorem shuffleLoop_zero (lost : Nat → Nat → ρ) (v : Nat → ρ) :
    shuffleLoop combine running active lost 0 v = v := by
  rw [shuffleLoop, if_pos rfl]

theorem shuffleLoop_of_ne_zero {offset : Nat} (h : offset ≠ 0) (lost : Nat → Nat → ρ)
    (v : Nat → ρ) : shuffleLoop combine running active lost offset v =
      shuffleLoop combine running active lost (offset / 2)
        (shuffleStep combine running active (lost offset) offset v) := by
  rw [shuffleLoop, if_neg h]

/-- Where every lane counts the running ones, no round uses a lost value. -/
theorem shuffleStep_eq (hactive : ∀ lane < running, active lane = running) {offset : Nat}
    (hword : running + offset ≤ 2 ^ 32) (lost v : Nat → ρ) {lane : Nat} (hlane : lane < running) :
    shuffleStep combine running active lost offset v lane =
      if lane + offset < running then combine (v lane) (v (lane + offset)) else v lane := by
  have hwrap : wrapU32 (lane + offset) = lane + offset := Nat.mod_eq_of_lt (by omega)
  rw [shuffleStep, hwrap, hactive lane hlane, simdShuffleDown]
  by_cases h : lane + offset < running
  · rw [if_pos h, if_pos h, if_pos h]
  · rw [if_neg h, if_neg h]

/-- What a round adds to the lanes below its offset. -/
def taken (running offset : Nat) (v : Nat → ρ) (lane : Nat) : List ρ :=
  if lane + offset < running then [v (lane + offset)] else []

/-- The lanes below the offset take all lanes below twice the offset. -/
theorem flatMap_taken_perm (running offset : Nat) (v : Nat → ρ) :
    ((List.range (min offset running)).flatMap fun lane =>
        v lane :: taken running offset v lane).Perm
      ((List.range (min (offset + offset) running)).map v) := by
  have hcount : ((List.range (min offset running)).flatMap (taken running offset v)) =
      (List.range (min offset (running - offset))).map fun lane => v (offset + lane) := by
    have hsplit : min offset running = min offset (running - offset) +
        (min offset running - min offset (running - offset)) := by omega
    rw [hsplit, List.range_add, List.flatMap_append, List.flatMap_map]
    have hnone : (List.range (min offset running - min offset (running - offset))).flatMap
        (fun lane => taken running offset v (min offset (running - offset) + lane)) = [] := by
      apply List.flatMap_eq_nil_iff.2
      intro lane hlane
      have := List.mem_range.1 hlane
      exact if_neg (by omega)
    have hall : ∀ lane ∈ List.range (min offset (running - offset)),
        taken running offset v lane = [v (offset + lane)] := by
      intro lane hlane
      have := List.mem_range.1 hlane
      rw [taken, if_pos (by omega), Nat.add_comm]
    rw [hnone, List.append_nil, List.flatMap_congr hall, ← List.map_eq_flatMap]
  have hsum : min (offset + offset) running =
      min offset running + min offset (running - offset) := by omega
  have hlanes : (List.range (min offset (running - offset))).map
      (fun lane => v (min offset running + lane)) =
        (List.range (min offset (running - offset))).map fun lane => v (offset + lane) := by
    apply List.map_congr_left
    intro lane hlane
    have := List.mem_range.1 hlane
    congr 1
    omega
  have hperm := (List.flatMap_append_perm (List.range (min offset running))
    (fun lane => [v lane]) (taken running offset v)).symm
  rw [← List.map_eq_flatMap, hcount] at hperm
  rw [hsum, List.range_add, List.map_append, List.map_map]
  exact hperm.trans (List.Perm.of_eq (congrArg _ hlanes.symm))

/-- The rounds leave in the first lane what all running lanes held. -/
theorem shuffleLoop_folds {P : ρ → Prop} (h : SemigroupOn combine P)
    (hactive : ∀ lane < running, active lane = running) (hpos : 0 < running) (k : Nat)
    (hword : running + 2 ^ k ≤ 2 ^ 32) (lost : Nat → Nat → ρ) (v : Nat → ρ)
    (hv : ∀ lane < running, P (v lane)) :
    some (shuffleLoop combine running active lost (2 ^ k / 2) v 0) =
      (((List.range (min (2 ^ k) running)).map v).map some).foldl (Option.merge combine) none := by
  induction k generalizing v with
  | zero =>
      have hone : min (2 ^ 0) running = 1 := by omega
      rw [show 2 ^ 0 / 2 = 0 from rfl, shuffleLoop_zero, hone]
      rfl
  | succ k ih =>
      have hoffset : 2 ^ (k + 1) / 2 = 2 ^ k := by omega
      have hpow : 0 < 2 ^ k := Nat.two_pow_pos k
      let v' := shuffleStep combine running active (lost (2 ^ k)) (2 ^ k) v
      have hstep : ∀ lane < running, v' lane =
          if lane + 2 ^ k < running then combine (v lane) (v (lane + 2 ^ k)) else v lane :=
        fun lane hlane => shuffleStep_eq hactive (by omega) _ _ hlane
      have hv' : ∀ lane < running, P (v' lane) := by
        intro lane hlane
        rw [hstep lane hlane]
        by_cases hin : lane + 2 ^ k < running
        · rw [if_pos hin]
          exact h.combine_mem (hv lane hlane) (hv _ hin)
        · rw [if_neg hin]
          exact hv lane hlane
      have hvalue : ∀ lane ∈ List.range (min (2 ^ k) running), some (v' lane) =
          ((v lane :: taken running (2 ^ k) v lane).map some).foldl (Option.merge combine)
            none := by
        intro lane hlane
        have := List.mem_range.1 hlane
        rw [hstep lane (by omega), taken]
        by_cases hin : lane + 2 ^ k < running
        · rw [if_pos hin, if_pos hin]
          rfl
        · rw [if_neg hin, if_neg hin]
          rfl
      have hmem : ∀ lane ∈ List.range (min (2 ^ k) running),
          ∀ o ∈ (v lane :: taken running (2 ^ k) v lane).map some, ∀ a ∈ o, P a := by
        intro lane hlane o ho a ha
        have := List.mem_range.1 hlane
        obtain ⟨b, hb, rfl⟩ := List.mem_map.1 ho
        obtain rfl := Option.some.inj ha
        rcases List.mem_cons.1 hb with rfl | hb
        · exact hv lane (by omega)
        · rw [taken] at hb
          by_cases hin : lane + 2 ^ k < running
          · rw [if_pos hin] at hb
            obtain rfl := List.mem_singleton.1 hb
            exact hv _ hin
          · rw [if_neg hin] at hb
            cases hb
      have hperm := (flatMap_taken_perm running (2 ^ k) v).map some
      rw [List.map_flatMap, ← Nat.two_mul, ← Nat.pow_succ'] at hperm
      have hall : ∀ o ∈ (List.range (min (2 ^ k) running)).flatMap fun lane =>
          (v lane :: taken running (2 ^ k) v lane).map some, ∀ a ∈ o, P a := by
        intro o ho
        obtain ⟨lane, hlane, ho⟩ := List.mem_flatMap.1 ho
        exact hmem lane hlane o ho
      rw [hoffset, shuffleLoop_of_ne_zero hpow.ne', ih (by omega) v' hv',
        ← h.adjoin.foldl_perm hperm hall, h.adjoin.foldl_flatMap hmem, List.map_map]
      exact congrArg (List.foldl _ none) (List.map_congr_left hvalue)

end Rounds

section Passes

variable {width n : Nat}

theorem lt_simdGroups_iff (hwidth : 0 < width) {group : Nat} :
    group < simdGroups width n ↔ group * width < n := by
  have hdiv := Nat.div_add_mod' n width
  have hmod := Nat.mod_lt n hwidth
  rw [simdGroups]
  by_cases hrest : n % width = 0
  · rw [if_neg (not_not_intro hrest), Nat.add_zero, ← Nat.mul_lt_mul_right hwidth]
    omega
  · rw [if_pos hrest, Nat.lt_succ_iff]
    constructor
    · intro hle
      have := Nat.mul_le_mul_right width hle
      omega
    · intro hlt
      by_contra hgt
      have := Nat.mul_le_mul_right width (Nat.lt_of_not_le hgt)
      rw [Nat.succ_mul] at this
      omega

theorem simdGroups_le (hwidth : 0 < width) : simdGroups width n ≤ n := by
  by_contra hgt
  rw [not_le, lt_simdGroups_iff hwidth] at hgt
  have := Nat.mul_le_mul_left n hwidth
  omega

/-- Fewer partials than threads are left. -/
theorem simdGroups_lt (hwidth : 2 ≤ width) (hn : 1 < n) : simdGroups width n < n := by
  by_contra hge
  have hlast : n - 1 < simdGroups width n := by omega
  rw [lt_simdGroups_iff (by omega)] at hlast
  have := Nat.mul_le_mul_left (n - 1) hwidth
  omega

theorem simdGroups_pos (hwidth : 0 < width) (hn : 0 < n) : 0 < simdGroups width n :=
  (lt_simdGroups_iff hwidth).2 (by rwa [Nat.zero_mul])

/-- The threads of a launch, group by group. -/
theorem flatMap_runningLanes (hwidth : 0 < width) :
    ((List.range (simdGroups width n)).flatMap fun group =>
      (List.range (runningLanes width n group)).map fun lane => group * width + lane) =
        List.range n := by
  have hdiv := Nat.div_add_mod' n width
  have hmod := Nat.mod_lt n hwidth
  have hfull : ((List.range (n / width)).flatMap fun group =>
      (List.range (runningLanes width n group)).map fun lane => group * width + lane) =
        List.range (n / width * width) := by
    rw [List.range_eq_range' (n := n / width * width), ← flatMap_lanes 0 (n / width) width]
    apply List.flatMap_congr
    intro group hgroup
    have hle := Nat.mul_le_mul_right width (List.mem_range.1 hgroup)
    rw [Nat.succ_mul] at hle
    rw [runningLanes, Nat.min_eq_left (by omega), List.range'_eq_map_range, Nat.zero_add]
  rw [simdGroups]
  by_cases hrest : n % width = 0
  · rw [if_neg (not_not_intro hrest), Nat.add_zero, hfull]
    congr 1
    omega
  · have hlast : runningLanes width n (n / width) = n % width := by
      rw [runningLanes]
      omega
    rw [if_pos hrest, List.range_succ, List.flatMap_append, hfull, List.flatMap_singleton, hlast,
      ← List.range_add, hdiv]

/-- The lanes of a group agree on how many of them run. -/
theorem activeLanes_eq (hn : n < 2 ^ 32) {group lane : Nat}
    (hlane : lane < runningLanes width n group) :
    activeLanes width n (group * width + lane) lane = runningLanes width n group := by
  rw [runningLanes] at hlane ⊢
  have htid : wrapU32 (group * width + lane + 2 ^ 32 - lane) = group * width := by
    rw [wrapU32, show group * width + lane + 2 ^ 32 - lane = group * width + 2 ^ 32 by omega,
      Nat.add_mod_right, Nat.mod_eq_of_lt (by omega)]
  rw [activeLanes, htid, wrapU32, Nat.sub_add_comm (by omega), Nat.add_mod_right,
    Nat.mod_eq_of_lt (by omega)]

section Partials

variable {ρ : Type} {combine : ρ → ρ → ρ} {P : ρ → Prop} {input : Nat → ρ}

/-- What the running lanes of a group start from. -/
def groupLanes (width n : Nat) (input : Nat → ρ) (group : Nat) : List ρ :=
  (List.range (runningLanes width n group)).map fun lane => input (group * width + lane)

theorem flatMap_groupLanes (hwidth : 0 < width) (input : Nat → ρ) :
    (List.range (simdGroups width n)).flatMap (groupLanes width n input) =
      (List.range n).map input := by
  have hthreads := congrArg (List.map input) (flatMap_runningLanes (n := n) hwidth)
  rw [List.map_flatMap] at hthreads
  rw [← hthreads]
  apply List.flatMap_congr
  intro group _
  exact List.map_map.symm

theorem groupLanes_mem (hinput : ∀ i < n, P (input i)) {group : Nat} :
    ∀ v ∈ groupLanes width n input group, P v := by
  intro v hv
  obtain ⟨lane, hlane, rfl⟩ := List.mem_map.1 hv
  have hlt := List.mem_range.1 hlane
  rw [runningLanes] at hlt
  exact hinput _ (by omega)

theorem some_mem {l : List ρ} (hl : ∀ v ∈ l, P v) : ∀ o ∈ l.map some, ∀ a ∈ o, P a := by
  intro o ho a ha
  obtain ⟨b, hb, rfl⟩ := List.mem_map.1 ho
  obtain rfl := Option.some.inj ha
  exact hl b hb

variable (h : SemigroupOn combine P) (hwidth : ∃ k, width = 2 ^ (k + 1)) (hword : width < 2 ^ 32)
  (hn : n < 2 ^ 32) (lost : Nat → Nat → Nat → ρ) (hinput : ∀ i < n, P (input i))
include h hwidth hword hn hinput

/-- Each partial combines the running lanes of its group. -/
theorem simdPartials_getElem? {group : Nat} (hgroup : group < simdGroups width n) :
    (simdPartials combine width n lost input)[group]? =
      combineAll combine (groupLanes width n input group) := by
  obtain ⟨k, rfl⟩ := hwidth
  have hk : k + 1 < 32 := (Nat.pow_lt_pow_iff_right Nat.one_lt_two).1 hword
  have hpow : 2 ^ (k + 1) ≤ 2 ^ 31 := Nat.pow_le_pow_right Nat.two_pos (by omega)
  have hlanes : 0 < 2 ^ (k + 1) := Nat.two_pow_pos _
  have hbelow : group * 2 ^ (k + 1) < n := (lt_simdGroups_iff hlanes).1 hgroup
  have hle : runningLanes (2 ^ (k + 1)) n group ≤ 2 ^ (k + 1) := Nat.min_le_left _ _
  have hpos : 0 < runningLanes (2 ^ (k + 1)) n group := by
    rw [runningLanes]
    omega
  have hvalues : ∀ lane < runningLanes (2 ^ (k + 1)) n group,
      P (input (group * 2 ^ (k + 1) + lane)) := by
    intro lane hlane
    rw [runningLanes] at hlane
    exact hinput _ (by omega)
  rw [simdPartials, List.getElem?_map, List.getElem?_range hgroup, Option.map_some,
    shuffleLoop_folds h (fun lane hlane => activeLanes_eq hn hlane) hpos (k + 1) (by omega) _ _
      hvalues, Nat.min_eq_right hle, combineAll_eq_merge]
  rfl

theorem map_some_simdPartials : (simdPartials combine width n lost input).map some =
    (List.range (simdGroups width n)).map fun group =>
      combineAll combine (groupLanes width n input group) := by
  apply List.ext_getElem?
  intro group
  by_cases hgroup : group < simdGroups width n
  · have hpartial := simdPartials_getElem? h hwidth hword hn lost hinput hgroup
    have hlength : group < (simdPartials combine width n lost input).length := by
      simpa [simdPartials] using hgroup
    rw [List.getElem?_map, List.getElem?_map, List.getElem?_range hgroup, hpartial,
      Option.map_some, ← hpartial, List.getElem?_eq_getElem hlength, Option.map_some]
  · rw [List.getElem?_eq_none (by simpa [simdPartials] using hgroup),
      List.getElem?_eq_none (by simpa using hgroup)]

theorem simdPartials_mem : ∀ v ∈ simdPartials combine width n lost input, P v := by
  intro v hv
  have hsome : some v ∈ (simdPartials combine width n lost input).map some :=
    List.mem_map_of_mem hv
  rw [map_some_simdPartials h hwidth hword hn lost hinput] at hsome
  obtain ⟨group, -, hpartial⟩ := List.mem_map.1 hsome
  rw [combineAll_eq_merge] at hpartial
  exact h.adjoin.foldl_mem (some_mem (groupLanes_mem hinput)) h.adjoin.identity_mem v hpartial

/-- The partials combine to what the threads held. -/
theorem combineAll_simdPartials :
    combineAll combine (simdPartials combine width n lost input) =
      combineAll combine ((List.range n).map input) := by
  have hpos : 0 < width := by
    obtain ⟨k, rfl⟩ := hwidth
    exact Nat.two_pow_pos _
  have hmem : ∀ group ∈ List.range (simdGroups width n),
      ∀ o ∈ (groupLanes width n input group).map some, ∀ a ∈ o, P a :=
    fun group _ => some_mem (groupLanes_mem hinput)
  have hthreads : (List.range n).map input =
      (List.range (simdGroups width n)).flatMap (groupLanes width n input) :=
    (flatMap_groupLanes hpos input).symm
  rw [combineAll_eq_merge, combineAll_eq_merge,
    map_some_simdPartials h hwidth hword hn lost hinput, hthreads, List.map_flatMap,
    h.adjoin.foldl_flatMap hmem]
  simp only [combineAll_eq_merge]

end Partials

section Launches

variable {T : Type} {M : MetalFloat T} {op : ReduceOp}

/-- A pass reads back what the launch before it has written. -/
theorem metalLoad_metalStore (v : op.MetalValue T) :
    metalLoad M op true (metalStore M op v) = v := by
  cases op with
  | countNonzero | countValid => exact M.asUInt_asFloat v
  | sum | min | max | product | all | any | nansum => rfl

theorem length_metalReduceKernel (partials : Bool) (lost : Nat → Nat → Nat → op.MetalValue T)
    (body : Nat → T) :
    (metalReduceKernel M op partials width n lost body).length = simdGroups width n := by
  simp [metalReduceKernel, simdPartials]

variable {Q : op.MetalValue T → Prop} (h : SemigroupOn (metalCombine M op) Q)
  (hwidth : ∃ k, width = 2 ^ (k + 1)) (hword : width < 2 ^ 32)
include h hwidth hword

/-- A launch preserves the combination of what its threads load. -/
theorem metalReduceKernel_folds (partials : Bool) (hn : n < 2 ^ 32)
    (lost : Nat → Nat → Nat → op.MetalValue T) {body : Nat → T}
    (hbody : ∀ i < n, Q (metalLoad M op partials (body i))) {next : List T}
    (hnext : metalReduceKernel M op partials width n lost body = next) :
    (∀ x ∈ next, Q (metalLoad M op true x)) ∧
      combineAll (metalCombine M op) (next.map (metalLoad M op true)) =
        combineAll (metalCombine M op)
          ((List.range n).map fun i => metalLoad M op partials (body i)) := by
  have hvalues : next.map (metalLoad M op true) = simdPartials (metalCombine M op) width n lost
      fun i => metalLoad M op partials (body i) := by
    rw [← hnext, metalReduceKernel, List.map_map]
    have hid : metalLoad M op true ∘ metalStore M op = id := funext metalLoad_metalStore
    rw [hid, List.map_id]
  constructor
  · intro x hx
    apply simdPartials_mem h hwidth hword hn lost hbody
    rw [← hvalues]
    exact List.mem_map_of_mem hx
  · rw [hvalues]
    exact combineAll_simdPartials h hwidth hword hn lost hbody

/-- The passes end with one value, the combination of the partials. -/
theorem metalReducePasses_folds (lost : Nat → Nat → Nat → Nat → op.MetalValue T) {fuel : Nat}
    {current : List T} (hfuel : current.length < fuel) (hne : current ≠ [])
    (hlength : current.length < 2 ^ 32) (hcurrent : ∀ x ∈ current, Q (metalLoad M op true x)) :
    ∃ value, metalReducePasses M op width lost fuel current = some [value] ∧
      combineAll (metalCombine M op) (current.map (metalLoad M op true)) =
        some (metalLoad M op true value) := by
  have hpos : 2 ≤ width := by
    obtain ⟨k, rfl⟩ := hwidth
    have := Nat.two_pow_pos k
    omega
  induction fuel generalizing current with
  | zero => exact absurd hfuel (Nat.not_lt_zero _)
  | succ fuel ih =>
      rw [metalReducePasses]
      by_cases hlt : 1 < current.length
      · have hload : ∀ i < current.length, Q (metalLoad M op true (current.getD i M.zero)) := by
          intro i hi
          rw [List.getD_eq_getElem _ _ hi]
          exact hcurrent _ (List.getElem_mem hi)
        have hreads : ((List.range current.length).map fun i =>
            metalLoad M op true (current.getD i M.zero)) = current.map (metalLoad M op true) := by
          apply List.ext_getElem (by simp)
          intro i _ hi
          rw [List.length_map] at hi
          rw [List.getElem_map, List.getElem_map, List.getElem_range, List.getD_eq_getElem _ _ hi]
        rw [if_pos hlt]
        generalize hnext : metalReduceKernel M op true width current.length (lost current.length)
          (fun tid => current.getD tid M.zero) = next
        obtain ⟨hmem, hfold⟩ := metalReduceKernel_folds h hwidth hword true hlength _ hload hnext
        have hcount : next.length = simdGroups width current.length := by
          rw [← hnext, length_metalReduceKernel]
        have hless := simdGroups_lt hpos hlt
        have hsome : 0 < simdGroups width current.length := simdGroups_pos (by omega) (by omega)
        rw [hreads] at hfold
        rw [← hfold]
        exact ih (by omega) (List.length_pos_iff.1 (by omega)) (by omega) hmem
      · obtain ⟨value, rfl⟩ : ∃ value, current = [value] := by
          apply List.length_eq_one_iff.1
          have := List.length_pos_iff.2 hne
          omega
        exact ⟨value, if_neg hlt, rfl⟩

end Launches

end Passes

section Operations

variable {T : Type} (M : MetalFloat T)

/-- A value of the kernel, as the accumulator. -/
def metalWiden : (op : ReduceOp) → op.MetalValue T → op.Accumulator T
  | .countNonzero, v | .countValid, v => UInt32.toUInt64 v
  | .sum, v | .min, v | .max, v | .product, v | .all, v | .any, v | .nansum, v => v

theorem metalResult_eq (op : ReduceOp) (value : T) :
    metalResult M op value = metalWiden op (metalLoad M op true value) := by
  cases op <;> rfl

/-- The kernel of an operation computes what `reduce_op.h` says of these elements. -/
structure KernelAgrees (op : ReduceOp) (xs : List T) (Q : op.MetalValue T → Prop) : Prop where
  semigroup : SemigroupOn (metalCombine M op) Q
  loads : ∀ x ∈ xs, Q (metalLoad M op false x)
  folds : (combineAll (metalCombine M op) (xs.map (metalLoad M op false))).map (metalWiden op) =
    combineAll (reduceCombine (op.accumulator M.toScalar) op)
      (xs.map (reduceTransform M.toScalar op))

variable {M}

theorem kernelAgrees_product {P : T → Prop} {xs : List T} (h : SemigroupOn M.mul P)
    (hxs : ∀ x ∈ xs, P x) : KernelAgrees M .product xs P where
  semigroup := h
  loads := hxs
  folds := Option.map_id'

theorem metalLoad_nansum (x : T) :
    metalLoad M .nansum false x = reduceTransform M.toScalar .nansum x := by
  show (if !M.eq x x then M.zero else x) = if M.eq x x then x else M.zero
  cases M.eq x x <;> rfl

theorem kernelAgrees_nansum {P : T → Prop} {xs : List T} (h : SemigroupOn M.add P)
    (hxs : ∀ x ∈ xs, P (reduceTransform M.toScalar .nansum x)) :
    KernelAgrees M .nansum xs P where
  semigroup := h
  loads := by
    intro x hx
    rw [metalLoad_nansum]
    exact hxs x hx
  folds := by
    have hload : metalLoad M .nansum false = reduceTransform M.toScalar .nansum :=
      funext metalLoad_nansum
    rw [hload]
    exact Option.map_id'

theorem metalCombine_all (a b : Bool) :
    metalCombine M .all (M.ofBool a) (M.ofBool b) = M.ofBool (a && b) := by
  cases a <;> cases b
  · exact ite_self _
  · exact if_neg (by simp [Scalar.ofBool, M.one_not_lt_zero])
  · exact if_pos M.zero_lt_one
  · exact ite_self _

theorem metalCombine_any (a b : Bool) :
    metalCombine M .any (M.ofBool a) (M.ofBool b) = M.ofBool (a || b) := by
  cases a <;> cases b
  · exact ite_self _
  · exact if_pos M.zero_lt_one
  · exact if_neg (by simp [Scalar.ofBool, M.one_not_lt_zero])
  · exact ite_self _

/-- On truth values an operation is one on `bool`. -/
theorem semigroupOn_ofBool {combine : T → T → T} {logical : Bool → Bool → Bool}
    (hcombine : ∀ a b, combine (M.ofBool a) (M.ofBool b) = M.ofBool (logical a b))
    (hassoc : ∀ a b c, logical (logical a b) c = logical a (logical b c))
    (hcomm : ∀ a b, logical a b = logical b a) :
    SemigroupOn combine fun v => ∃ b, v = M.ofBool b where
  combine_mem := by
    rintro _ _ ⟨a, rfl⟩ ⟨b, rfl⟩
    exact ⟨logical a b, hcombine a b⟩
  assoc := by
    rintro _ _ _ ⟨a, rfl⟩ ⟨b, rfl⟩ ⟨c, rfl⟩
    rw [hcombine, hcombine, hcombine, hcombine, hassoc]
  comm := by
    rintro _ _ ⟨a, rfl⟩ ⟨b, rfl⟩
    rw [hcombine, hcombine, hcomm]

/-- Two operations that are the same one on `bool`. -/
theorem combineAll_ofBool {combine combine' : T → T → T} {logical : Bool → Bool → Bool}
    (h : ∀ a b, combine (M.ofBool a) (M.ofBool b) = M.ofBool (logical a b))
    (h' : ∀ a b, combine' (M.ofBool a) (M.ofBool b) = M.ofBool (logical a b)) (hit : T → Bool)
    (xs : List T) : combineAll combine (xs.map fun x => M.ofBool (hit x)) =
      combineAll combine' (xs.map fun x => M.ofBool (hit x)) := by
  have hbools : (xs.map fun x => M.ofBool (hit x)) = (xs.map hit).map M.ofBool := by
    rw [List.map_map]
    rfl
  rw [hbools, combineAll_map (fun a b => (h a b).symm), combineAll_map fun a b => (h' a b).symm]

theorem kernelAgrees_all (xs : List T) :
    KernelAgrees M .all xs fun v => ∃ b, v = M.ofBool b where
  semigroup := semigroupOn_ofBool metalCombine_all Bool.and_assoc Bool.and_comm
  loads := fun x _ => ⟨_, rfl⟩
  folds := by
    have hreduce (a b : Bool) : reduceCombine M.toScalar .all (M.ofBool a) (M.ofBool b) =
        M.ofBool (a && b) := by
      simp only [reduceCombine, ofBool_ne_zero M.zero_eq M.one_ne]
    exact Option.map_id'.trans (combineAll_ofBool metalCombine_all hreduce _ xs)

theorem kernelAgrees_any (xs : List T) :
    KernelAgrees M .any xs fun v => ∃ b, v = M.ofBool b where
  semigroup := semigroupOn_ofBool metalCombine_any Bool.or_assoc Bool.or_comm
  loads := fun x _ => ⟨_, rfl⟩
  folds := by
    have hreduce (a b : Bool) : reduceCombine M.toScalar .any (M.ofBool a) (M.ofBool b) =
        M.ofBool (a || b) := by
      simp only [reduceCombine, ofBool_ne_zero M.zero_eq M.one_ne]
    exact Option.map_id'.trans (combineAll_ofBool metalCombine_any hreduce _ xs)

theorem foldl_uint32 (hit : T → Bool) (xs : List T) (n : Nat) :
    (xs.map fun x => if hit x then (1 : UInt32) else (0 : UInt32)).foldl UInt32.add
      (UInt32.ofNat n) = UInt32.ofNat (n + xs.countP hit) := by
  rw [List.foldl_map]
  exact foldl_counts (fun n _ => (UInt32.ofNat_add n 1).symm) (fun _ _ => UInt32.add_zero _) hit
    le_rfl

/-- A count below `2 ^ 32` is the same in either width. -/
theorem combineAll_counts (hit : T → Bool) {xs : List T} (hlength : xs.length < 2 ^ 32) :
    (combineAll UInt32.add
        (xs.map fun x => if hit x then (1 : UInt32) else (0 : UInt32))).map UInt32.toUInt64 =
      combineAll (fun a b : UInt64 => a + b)
        (xs.map fun x => Scalar.uint64.ofBool (hit x)) := by
  by_cases hne : xs = []
  · rw [hne]
    rfl
  · have hle : xs.countP hit ≤ xs.length := List.countP_le_length
    have hnarrow := foldl_uint32 hit xs 0
    have hwide := foldl_uint64 hit xs 0
    have hzero (a : UInt32) : UInt32.add (UInt32.ofNat 0) a = a := UInt32.zero_add a
    have hzero' (a : UInt64) : UInt64.ofNat 0 + a = a := UInt64.zero_add a
    rw [combineAll_eq_foldl (by simpa using hne) fun a _ => hzero a,
      combineAll_eq_foldl (by simpa using hne) fun a _ => hzero' a, hnarrow, hwide, Nat.zero_add]
    refine congrArg some ?_
    apply UInt64.toNat_inj.1
    rw [UInt32.toNat_toUInt64, UInt32.toNat_ofNat_of_lt' (by simp [UInt32.size]; omega),
      UInt64.toNat_ofNat_of_lt' (by simp [UInt64.size]; omega)]

theorem semigroupOn_uint32 : SemigroupOn UInt32.add fun _ => True where
  combine_mem := fun _ _ => trivial
  assoc := fun _ _ _ => UInt32.add_assoc _ _ _
  comm := fun _ _ => UInt32.add_comm _ _

theorem kernelAgrees_countNonzero {xs : List T} (hlength : xs.length < 2 ^ 32) :
    KernelAgrees M .countNonzero xs fun _ => True where
  semigroup := semigroupOn_uint32
  loads := fun _ _ => trivial
  folds := combineAll_counts _ hlength

theorem kernelAgrees_countValid {xs : List T} (hlength : xs.length < 2 ^ 32) :
    KernelAgrees M .countValid xs fun _ => True where
  semigroup := semigroupOn_uint32
  loads := fun _ _ => trivial
  folds := combineAll_counts _ hlength

/-- Where `reduce_op.h` is exact on the elements, the kernel agrees with it. -/
theorem exists_kernelAgrees {op : ReduceOp} (hop : op ∉ [.sum, .min, .max])
    {P : op.Accumulator T → Prop}
    (h : SemigroupOn (reduceCombine (op.accumulator M.toScalar) op) P) {xs : List T}
    (hxs : ∀ x ∈ xs, P (reduceTransform M.toScalar op x)) (hlength : xs.length < 2 ^ 32) :
    ∃ Q, KernelAgrees M op xs Q := by
  cases op with
  | sum | min | max => exact absurd (by simp) hop
  | product => exact ⟨P, kernelAgrees_product h hxs⟩
  | nansum => exact ⟨P, kernelAgrees_nansum h hxs⟩
  | all => exact ⟨_, kernelAgrees_all xs⟩
  | any => exact ⟨_, kernelAgrees_any xs⟩
  | countNonzero => exact ⟨_, kernelAgrees_countNonzero hlength⟩
  | countValid => exact ⟨_, kernelAgrees_countValid hlength⟩

end Operations

/-- Each launch leaves in every partial the combination of the running lanes of its group,
the passes end, and the result is the fold of the transformed elements. -/
theorem metalReduceExtended_folds {width n : Nat} (hwidth : ∃ k, width = 2 ^ (k + 1))
    (hword : width < 2 ^ 32) (hpos : 1 ≤ n) (hn : n < 2 ^ 32) :
    (∀ {ρ : Type} {combine : ρ → ρ → ρ} {P : ρ → Prop}, SemigroupOn combine P →
      ∀ (lost : Nat → Nat → Nat → ρ) (input : Nat → ρ), (∀ i < n, P (input i)) →
        (simdPartials combine width n lost input).length = simdGroups width n ∧
        ∀ group < simdGroups width n, (simdPartials combine width n lost input)[group]? =
          combineAll combine (groupLanes width n input group)) ∧
    ∀ {T : Type} (M : MetalFloat T) (op : ReduceOp), op ∉ [.sum, .min, .max] →
      ∀ P : op.Accumulator T → Prop,
        SemigroupOn (reduceCombine (op.accumulator M.toScalar) op) P →
      ∀ evaluate : Nat → T, (∀ i < n, P (reduceTransform M.toScalar op (evaluate i))) →
      ∀ lost, ∀ fuel > n, ∃ result,
        metalReduceExtended M op width lost fuel true evaluate n = some result ∧
        combineAll (reduceCombine (op.accumulator M.toScalar) op)
          ((List.range n).map fun i => reduceTransform M.toScalar op (evaluate i)) =
            some result := by
  have htwo : 2 ≤ width := by
    obtain ⟨k, rfl⟩ := hwidth
    have := Nat.two_pow_pos k
    omega
  constructor
  · intro ρ combine P h lost input hinput
    constructor
    · simp [simdPartials]
    · intro group hgroup
      exact simdPartials_getElem? h hwidth hword hn lost hinput hgroup
  · intro T M op hop P hP evaluate hevaluate lost fuel hfuel
    have helements : ∀ x ∈ (List.range n).map evaluate, P (reduceTransform M.toScalar op x) := by
      intro x hx
      obtain ⟨i, hi, rfl⟩ := List.mem_map.1 hx
      exact hevaluate i (List.mem_range.1 hi)
    obtain ⟨Q, hagrees⟩ := exists_kernelAgrees hop hP helements (by simpa using hn)
    have hbody : ∀ i < n, Q (metalLoad M op false (evaluate i)) := fun i hi =>
      hagrees.loads _ (List.mem_map_of_mem (List.mem_range.2 hi))
    generalize hcurrent : metalReduceKernel M op false width n (lost n) evaluate = current
    obtain ⟨hmem, hfold⟩ :=
      metalReduceKernel_folds hagrees.semigroup hwidth hword false hn _ hbody hcurrent
    have hcount : current.length = simdGroups width n := by
      rw [← hcurrent, length_metalReduceKernel]
    have hsome : 0 < simdGroups width n := simdGroups_pos (by omega) (by omega)
    have hle : simdGroups width n ≤ n := simdGroups_le (by omega)
    obtain ⟨value, hpasses, hvalue⟩ := metalReducePasses_folds hagrees.semigroup hwidth hword lost
      (show current.length < fuel by omega) (List.length_pos_iff.1 (by omega)) (by omega) hmem
    refine ⟨metalResult M op value, ?_, ?_⟩
    · rw [metalReduceExtended, if_neg (by omega), if_neg (by omega), if_neg (by simp), hcurrent,
        hpasses]
      rfl
    · have hfolds := hagrees.folds
      rw [List.map_map, List.map_map] at hfolds
      rw [metalResult_eq, ← Option.map_some, ← hvalue, hfold]
      exact hfolds.symm

namespace MetalReductionWitness

def isNaN (x : UInt32) : Bool := decide (0x7f800000 < x &&& 0x7fffffff)

/-- The order of the values that are not NaN. -/
def rank (x : UInt32) : Int :=
  if x < 0x80000000 then x.toNat else -((x &&& 0x7fffffff).toNat : Int)

/-- Single precision by its bits, with sums and products where an operand is neutral. -/
def bits : MetalFloat UInt32 where
  zero := 0
  one := 0x3f800000
  finiteMax := 0x7f7fffff
  neg x := x ^^^ 0x80000000
  add a b := if a = 0 then b else a
  mul a b := if a = 0x3f800000 then b else a
  lt a b := !isNaN a && !isNaN b && decide (rank a < rank b)
  eq a b := !isNaN a && !isNaN b && decide (rank a = rank b)
  asFloat u := u
  asUInt x := x
  asUInt_asFloat _ := rfl
  zero_eq := rfl
  one_ne := rfl
  zero_lt_one := rfl
  one_not_lt_zero := rfl

/-- One, a NaN, and four ones again. -/
def elements (i : Nat) : UInt32 := if i = 1 then 0x7fc00000 else 0x3f800000

/-- Six elements take a group of four lanes, a group of two and a second pass. -/
theorem metalReduceExtended_folds_six :
    metalReduceExtended bits .countValid 4 (fun _ _ _ _ => (99 : UInt32)) 7 true elements 6 =
      some (5 : UInt64) := by
  have hexact : SemigroupOn (reduceCombine Scalar.uint64 .countValid) fun _ => True :=
    { combine_mem := fun _ _ => trivial
      assoc := fun _ _ _ => UInt64.add_assoc _ _ _
      comm := fun _ _ => UInt64.add_comm _ _ }
  have hwidth : ∃ k, 4 = 2 ^ (k + 1) := ⟨1, rfl⟩
  have hruns := (metalReduceExtended_folds hwidth (by decide : 4 < 2 ^ 32)
    (by decide : 1 ≤ 6) (by decide)).2 bits .countValid (by decide) (fun _ => True) hexact
  obtain ⟨result, hrun, hfold⟩ := hruns elements (fun _ _ => trivial)
    (fun _ _ _ _ => (99 : UInt32)) 7 (by decide)
  have hvalue : combineAll (reduceCombine Scalar.uint64 .countValid)
      ((List.range 6).map fun i => reduceTransform bits.toScalar .countValid (elements i)) =
        some (5 : UInt64) := by decide +kernel
  exact hrun.trans (hfold.symm.trans hvalue)

end MetalReductionWitness

end Vectorization
