/-
`hmin` and `hmax` on the host.  Their accumulators start as the largest finite value,
so a result is an element only where some element does not exceed it.
-/
import Vectorization.ElementFolds
import Vectorization.GpuExtrema

namespace Vectorization

open StridedSpace MachineInteger ByteMemory LoopTiling Combining

variable {T : ElementType} {α β : Type}

/-- The accumulators of `hmin` and `hmax`. -/
def extremumReducer (combine lane : Option β → Option β → Option β)
    (horizontal : Nat → (Nat → Option β) → Option β) (identity : Option β)
    (length packet : Nat) : Reducer (Option β) (Option β) (Option β) where
  identity := identity
  update := combine
  laneIdentity := identity
  laneUpdate := lane
  merge ret lanes := combine ret (horizontal length (combineAccumulators lane packet lanes))

section Named

variable [LinearOrder α] (F : Floating α) (V : SimdReduce (Option α))
  (c : Codec (Option α) T.size) (m : Memory) (S : SimdTarget T) (allOnes : Option (Option α))

def hmin (operand : ReductionOperand T (Option α)) : Option (Except Raise (Option α)) :=
  horizontalReduction F.scalar c m S
    (extremumReducer fmin V.min V.hmin F.scalar.finiteMax S.length S.packet) allOnes operand

def hmax (operand : ReductionOperand T (Option α)) : Option (Except Raise (Option α)) :=
  horizontalReduction F.scalar c m S
    (extremumReducer fmax V.max V.hmax (F.scalar.neg F.scalar.finiteMax) S.length S.packet)
    allOnes operand

end Named

section Order

variable [LinearOrder β]

/-- Registers select by the order where their lanes are ordered. -/
structure OrderedLanes (length : Nat) (lane : Option β → Option β → Option β)
    (horizontal : Nat → (Nat → Option β) → Option β) : Prop where
  lane_eq : ∀ a b : β, lane (some a) (some b) = some (a ⊓ b)
  horizontal_eq : ∀ lanes : Nat → Option β, (∀ i < length, lanes i ≠ none) →
    ∃ i < length, horizontal length lanes = lanes i ∧
      ∀ j < length, ∀ a b, lanes i = some a → lanes j = some b → a ≤ b

/-- `hmin` returns an element that is at most every element, whatever registers do with NaNs;
with the order reversed, `hmax` one that is at least every element. -/
def ExtremumAttained (combine : Option β → Option β → Option β) (identity : β)
    (F : Scalar (Option β)) (c : Codec (Option β) T.size) (m : Memory) (S : SimdTarget T)
    (allOnes : Option (Option β)) (operand : ReductionOperand T (Option β)) : Prop :=
  ∀ lane horizontal, OrderedLanes S.length lane horizontal →
    ∃ v, horizontalReduction F c m S
        (extremumReducer combine lane horizontal (some identity) S.length S.packet) allOnes
          operand = some (.ok (some v)) ∧
      some v ∈ operand.elements F c m ∧ ∀ w, some w ∈ operand.elements F c m → v ≤ w

/-- Some smallest element is the start of the accumulators, or is read and does not
exceed it; nothing smaller is read. -/
def SmallestRead (identity : β) (elements read : List (Option β)) : Prop :=
  ∃ v, some v ∈ elements ∧ (∀ w, some w ∈ elements ++ read → v ≤ w) ∧ v ≤ identity ∧
    (v = identity ∨ some v ∈ read)

/-- Where every element is read, an element up to the start is what it takes. -/
theorem smallestRead_self {identity : β} {elements : List (Option β)} :
    SmallestRead identity elements elements ↔ ∃ v, some v ∈ elements ∧ v ≤ identity := by
  constructor
  · rintro ⟨v, hv, -, hle, -⟩
    exact ⟨v, hv, hle⟩
  · rintro ⟨w, hw, hle⟩
    obtain ⟨m, -, hmem, hmle, hall⟩ := ignores_fmin.foldl elements identity
    have hmem : some m ∈ elements := by
      rcases hmem with rfl | hmem
      · rwa [le_antisymm (hall w hw) hle]
      · exact hmem
    refine ⟨m, hmem, fun b hb => hall b ?_, hmle, .inr hmem⟩
    rwa [List.mem_append, or_self] at hb

variable {combine lane : Option β → Option β → Option β}
  {horizontal : Nat → (Nat → Option β) → Option β} {identity : β} {length packet : Nat}

theorem Ignores.exactOn (h : Ignores combine) (identity : β) :
    ExactOn combine (some identity) fun v => ∃ a ≤ identity, v = some a where
  identity_mem := ⟨identity, le_rfl, rfl⟩
  combine_mem := by
    rintro _ _ ⟨a, ha, rfl⟩ ⟨b, _, rfl⟩
    exact ⟨a ⊓ b, inf_le_of_left_le ha, h.values a b⟩
  assoc := by
    rintro _ _ _ ⟨a, _, rfl⟩ ⟨b, _, rfl⟩ ⟨c, _, rfl⟩
    simp only [h.values, inf_assoc]
  comm := by
    rintro _ _ ⟨a, _, rfl⟩ ⟨b, _, rfl⟩
    simp only [h.values, inf_comm]
  identity_combine := by
    rintro _ ⟨a, ha, rfl⟩
    rw [h.values, inf_eq_right.2 ha]

theorem OrderedLanes.laneWise (hV : OrderedLanes length lane horizontal) (h : Ignores combine)
    (identity : β) : LaneWise combine (some identity) (fun v => ∃ a ≤ identity, v = some a)
      length lane horizontal where
  lane_eq := by
    rintro _ _ ⟨a, _, rfl⟩ ⟨b, _, rfl⟩
    rw [hV.lane_eq, h.values]
  horizontal_eq := by
    intro lanes hlanes
    obtain ⟨i, hi, heq, hleast⟩ := hV.horizontal_eq lanes fun i hi hnone => by
      obtain ⟨a, -, ha⟩ := hlanes i hi
      rw [hnone] at ha
      exact nomatch ha
    obtain ⟨a, hle, ha⟩ := hlanes i hi
    obtain ⟨m, hm, hmem, -, hall⟩ := h.foldl ((List.range length).map lanes) identity
    have hma : m ≤ a := hall a (ha ▸ List.mem_map_of_mem (List.mem_range.2 hi))
    have ham : a ≤ m := by
      rcases hmem with rfl | hmem
      · exact hle
      · obtain ⟨j, hj, hjm⟩ := List.mem_map.1 hmem
        exact hleast j (List.mem_range.1 hj) a m ha hjm
    rw [heq, ha, hm, le_antisymm hma ham]

/-- The accumulators fold the elements, each cut off at the start. -/
theorem extremumReducer_folds (identity : β) (h : Ignores combine)
    (hV : OrderedLanes length lane horizontal) (hpacket : 0 < packet) :
    (extremumReducer combine lane horizontal (some identity) length packet).Folds length packet
      none (· ≠ none) combine (fun v => ∃ a ≤ identity, v = some a)
      (combine (some identity)) := by
  have hvalue : ∀ {x : Option β}, x ≠ none →
      ∃ a ≤ identity, combine (some identity) x = some a := by
    intro x hx
    obtain ⟨a, rfl⟩ := Option.ne_none_iff_exists'.1 hx
    exact ⟨identity ⊓ a, inf_le_left, h.values _ _⟩
  have hupdate : ∀ {a x : Option β}, (∃ b ≤ identity, a = some b) → x ≠ none →
      combine a x = combine a (combine (some identity) x) ∧
        lane a x = combine a (combine (some identity) x) := by
    rintro _ x ⟨b, hb, rfl⟩ hx
    obtain ⟨a, rfl⟩ := Option.ne_none_iff_exists'.1 hx
    have hcut : b ⊓ (identity ⊓ a) = b ⊓ a := by rw [← inf_assoc, inf_eq_left.2 hb]
    simp only [h.values, hV.lane_eq, hcut, and_self]
  exact folds_of_horizontal (h.exactOn identity) hvalue (fun ha hx => (hupdate ha hx).1) rfl
    (fun ha hx => (hupdate ha hx).2) (hV.laneWise h identity) hpacket fun _ _ => rfl

/-- A fold that takes lanes in order. -/
theorem orderedLanes_foldl (h : Ignores combine) (hlength : 0 < length) :
    OrderedLanes length combine fun length lanes =>
      ((List.range length).map lanes).foldl combine (lanes 0) where
  lane_eq := h.values
  horizontal_eq := by
    intro lanes hlanes
    obtain ⟨a, ha⟩ := Option.ne_none_iff_exists'.1 (hlanes 0 hlength)
    obtain ⟨r, hr, hmem, -, hall⟩ := h.foldl ((List.range length).map lanes) a
    have hheld : some r ∈ (List.range length).map lanes := by
      rcases hmem with rfl | hmem
      · exact ha ▸ List.mem_map_of_mem (List.mem_range.2 hlength)
      · exact hmem
    obtain ⟨i, hi, hir⟩ := List.mem_map.1 hheld
    refine ⟨i, List.mem_range.1 hi, by rw [ha, hr, hir], fun j hj b b' hb hb' => ?_⟩
    obtain rfl := Option.some.inj (hir.symm.trans hb)
    exact hall b' (hb' ▸ List.mem_map_of_mem (List.mem_range.2 hj))

/-- A NaN taken as `g`. -/
def nanAs (g : β) (x : Option β) : Option β :=
  some (x.getD g)

/-- Lanes that take a NaN as `g` are ordered lanes. -/
theorem orderedLanes_nanAs (h : Ignores combine) (hlength : 0 < length) (g : β) :
    OrderedLanes length (fun a b => combine (nanAs g a) (nanAs g b)) fun length lanes =>
      ((List.range length).map fun i => nanAs g (lanes i)).foldl combine (nanAs g (lanes 0)) where
  lane_eq := h.values
  horizontal_eq := by
    intro lanes hlanes
    have hsome : ∀ i < length, nanAs g (lanes i) = lanes i := by
      intro i hi
      obtain ⟨a, ha⟩ := Option.ne_none_iff_exists'.1 (hlanes i hi)
      rw [ha]
      rfl
    obtain ⟨i, hi, heq, hleast⟩ := (orderedLanes_foldl h hlength).horizontal_eq
      (fun i => nanAs g (lanes i)) fun _ _ => Option.some_ne_none _
    refine ⟨i, hi, heq.trans (hsome i hi), fun j hj a b ha hb => ?_⟩
    exact hleast j hj a b ((hsome i hi).trans ha) ((hsome j hj).trans hb)

variable {F : Scalar (Option β)} {S : SimdTarget T} (c : Codec (Option β) T.size) (m : Memory)
  {operand : ReductionOperand T (Option β)} {allOnes : Option (Option β)}

variable (identity) in
/-- Where nothing is read as a NaN, the extremum of what is read is returned. -/
theorem extremum_attained_iff (hoperand : operand.Valid F S) (hlanes : operand.LaneWise)
    (h : Ignores combine) (hV : OrderedLanes S.length lane horizontal)
    (hcompiles : (operand.numberLoad F c m allOnes).isSome)
    (hread : none ∉ operand.numbersRead F c m allOnes S) :
    (∃ v, horizontalReduction F c m S
        (extremumReducer combine lane horizontal (some identity) S.length S.packet) allOnes
          operand = some (.ok (some v)) ∧ some v ∈ operand.elements F c m ∧
        ∀ w, some w ∈ operand.elements F c m → v ≤ w) ↔
      SmallestRead identity (operand.elements F c m) (operand.numbersRead F c m allOnes S) := by
  obtain ⟨result, hsome⟩ : ∃ result, horizontalReduction F c m S
      (extremumReducer combine lane horizontal (some identity) S.length S.packet) allOnes
        operand = some result := by
    obtain ⟨register, hregister⟩ := Option.isSome_iff_exists.1 hcompiles
    rw [horizontalReduction, hregister]
    exact ⟨_, rfl⟩
  have hrun := ReductionOperand.horizontalReduction_eq c m hoperand hlanes
    (extremumReducer_folds identity h hV S.packet_pos)
    (fun x hx hnone => hread (hnone ▸ hx)) hsome
  obtain ⟨r, hr, hmem, hle, hall⟩ := h.foldl
    ((operand.numbersRead F c m allOnes S).map (combine (some identity))) identity
  have hresult : horizontalReduction F c m S
      (extremumReducer combine lane horizontal (some identity) S.length S.packet) allOnes
        operand = some (.ok (some r)) :=
    hsome.trans (congrArg some (hrun.trans (congrArg Except.ok hr)))
  have hleast : ∀ w, some w ∈ operand.numbersRead F c m allOnes S → r ≤ w := by
    intro w hw
    refine (hall (identity ⊓ w) ?_).trans inf_le_right
    rw [← h.values]
    exact List.mem_map_of_mem hw
  have hheld : r = identity ∨ some r ∈ operand.numbersRead F c m allOnes S := by
    rcases hmem with rfl | hmem
    · exact .inl rfl
    · obtain ⟨x, hx, hxr⟩ := List.mem_map.1 hmem
      obtain ⟨w, rfl⟩ := Option.ne_none_iff_exists'.1 fun hnone => hread (hnone ▸ hx)
      rw [h.values] at hxr
      rcases min_choice identity w with heq | heq
      · exact .inl ((Option.some.inj hxr).symm.trans heq)
      · exact .inr ((Option.some.inj hxr).symm.trans heq ▸ hx)
  constructor
  · rintro ⟨v, hv, hmem, hvle⟩
    obtain rfl : r = v :=
      Option.some.inj (Except.ok.inj (Option.some.inj (hresult.symm.trans hv)))
    refine ⟨r, hmem, fun w hw => ?_, hle, hheld⟩
    exact (List.mem_append.1 hw).elim (hvle w) (hleast w)
  · rintro ⟨v, hv, hvle, hvid, hvread⟩
    have hrv : r ≤ v := by
      rcases hvread with rfl | hvread
      · exact hle
      · exact hleast v hvread
    have hvr : v ≤ r := by
      rcases hheld with rfl | hheld
      · exact hvid
      · exact hvle r (List.mem_append_right _ hheld)
    obtain rfl := le_antisymm hrv hvr
    exact ⟨r, hresult, hv, fun w hw => hvle w (List.mem_append_left _ hw)⟩

omit [LinearOrder β] in
/-- Registers that take a NaN as `g` take a true element of a comparison as `g`. -/
theorem horizontalReduction_nanAs (g : β) {test : PredicateFunctor (Option β)}
    {lhs rhs : Expr (Leaf T) (Option β)} {update : Option β → Option β → Option β}
    {horizontal : Nat → (Nat → Option β) → Option β} {start : Option β} :
    horizontalReduction F c m S (extremumReducer update
        (fun a b => combine (nanAs g a) (nanAs g b)) horizontal start S.length S.packet)
          (some none) (.comparison test lhs rhs) =
      horizontalReduction F c m S (extremumReducer update
        (fun a b => combine (nanAs g a) (nanAs g b)) horizontal start S.length S.packet)
          (some (some g)) (.comparison test lhs rhs) := by
  refine congrArg some (bind_congr fun _ => bind_congr fun strided => ?_)
  cases strided with
  | some ret => rfl
  | none =>
      refine congrArg Except.ok (reducePure_congr _ (fun a first lane => ?_) S _)
      simp only [extremumReducer]
      split <;> rfl

omit [LinearOrder β] in
/-- Where all bits set are a value, the registers and the tail read no NaN of a comparison. -/
theorem none_notMem_numbersRead {test : PredicateFunctor (Option β)}
    {lhs rhs : Expr (Leaf T) (Option β)}
    (hflat : (ReductionOperand.comparison test lhs rhs).flat F = true)
    (hvalue : ∀ b, F.ofBool b ≠ none) (g : β) :
    none ∉ (ReductionOperand.comparison test lhs rhs).numbersRead F c m (some (some g)) S := by
  intro hnone
  obtain ⟨j, -, hj⟩ := List.mem_map.1 hnone
  rw [ReductionOperand.numberAt_of_flat c m hflat] at hj
  split at hj
  · exact absurd hj (Option.some_ne_none g)
  · rw [ReductionOperand.flatElement, if_pos hflat] at hj
    exact hvalue _ hj

/-- A true element of a comparison that a register reads can displace every element. -/
theorem ExtremumAttained.registersFalse (hattained : ExtremumAttained combine identity F c m S
      allOnes operand)
    (hoperand : operand.Valid F S) (hlanes : operand.LaneWise) (h : Ignores combine)
    (hcompiles : (operand.numberLoad F c m allOnes).isSome)
    (hones : ∀ ones ∈ allOnes, ones = none) {g : β}
    (hg : ∀ b, ∃ v, F.ofBool b = some v ∧ g < v) : operand.RegistersFalse F c m S := by
  cases operand with
  | tensor _ | expression _ => trivial
  | comparison test lhs rhs =>
      intro hflat i hi
      by_contra htrue
      rw [Bool.not_eq_false] at htrue
      obtain ⟨ones, rfl⟩ : ∃ ones, allOnes = some ones := by
        cases allOnes with
        | none => exact absurd hcompiles Bool.false_ne_true
        | some ones => exact ⟨ones, rfl⟩
      obtain rfl := hones ones rfl
      -- a NaN taken as `g`, which is less than zero and one
      obtain ⟨v, hv⟩ := hattained _ _ (orderedLanes_nanAs h S.length_pos g)
      rw [horizontalReduction_nanAs] at hv
      have helement (idx : List Nat) : ∃ b, ReductionOperand.element F c m
          (.comparison test lhs rhs) idx = F.ofBool b := ⟨_, rfl⟩
      have hvalue : ∀ b, F.ofBool b ≠ none := by
        intro b hnone
        obtain ⟨w, hw, -⟩ := hg b
        exact absurd (hw.symm.trans hnone) (Option.some_ne_none w)
      have hread := none_notMem_numbersRead (S := S) c m hflat hvalue g
      obtain ⟨w, hmem, hle, -⟩ := (extremum_attained_iff _ c m hoperand hlanes h
        (orderedLanes_nanAs h S.length_pos g) rfl hread).1 ⟨v, hv⟩
      have hgmem : some g ∈ ReductionOperand.numbersRead F c m (some (some g)) S
          (.comparison test lhs rhs) := by
        refine List.mem_map.2
          ⟨i, List.mem_range.2 (Nat.lt_of_lt_of_le hi (loopPeel_le S _)), ?_⟩
        rw [ReductionOperand.numberAt_of_flat c m hflat, if_pos ⟨hi, htrue⟩]
        rfl
      obtain ⟨idx, -, hidx⟩ := List.mem_map.1 hmem
      obtain ⟨b, hb⟩ := helement idx
      obtain ⟨u, hu, hlt⟩ := hg b
      obtain rfl := Option.some.inj (hu.symm.trans (hb.symm.trans hidx))
      exact absurd (hle g (List.mem_append_right _ hgmem)) (not_le.2 hlt)

/-- An extremum is attained exactly when no true element of a comparison is read in a
register, and an extremal element is read, or is the start, and does not lie beyond it. -/
theorem extremumAttained_iff (hoperand : operand.Valid F S) (hlanes : operand.LaneWise)
    (h : Ignores combine) (hcompiles : (operand.numberLoad F c m allOnes).isSome)
    (hones : ∀ ones ∈ allOnes, ones = none) {g : β}
    (hg : ∀ b, ∃ v, F.ofBool b = some v ∧ g < v) (hread : none ∉ operand.visited F c m) :
    ExtremumAttained combine identity F c m S allOnes operand ↔
      operand.RegistersFalse F c m S ∧
        SmallestRead identity (operand.elements F c m) (operand.visited F c m) := by
  constructor
  · intro hattained
    have hfalse := hattained.registersFalse c m hoperand hlanes h hcompiles hones hg
    have hnumbers := hfalse.numbersRead_eq c m allOnes
    have hiff := extremum_attained_iff identity c m hoperand hlanes h
      (orderedLanes_foldl h S.length_pos) hcompiles (hnumbers ▸ hread)
    rw [hnumbers] at hiff
    exact ⟨hfalse, hiff.1 (hattained _ _ (orderedLanes_foldl h S.length_pos))⟩
  · rintro ⟨hfalse, hsmallest⟩ lane horizontal hV
    have hnumbers := hfalse.numbersRead_eq c m allOnes
    have hiff := extremum_attained_iff identity c m hoperand hlanes h hV hcompiles
      (hnumbers ▸ hread)
    rw [hnumbers] at hiff
    exact hiff.2 hsmallest

/-- Elements that can be counted: one of them must be finite, or less. -/
theorem smallestRead_iff (h : operand.Valid F S) (hcount : (operand.shape F).prod < 2 ^ 64) :
    SmallestRead identity (operand.elements F c m) (operand.visited F c m) ↔
      ∃ v, some v ∈ operand.elements F c m ∧ v ≤ identity := by
  rw [h.visited_eq c m hcount, smallestRead_self]

end Order

section Extrema

variable [LinearOrder α] (F : Floating α) (c : Codec (Option α) T.size) (m : Memory)
  (S : SimdTarget T) (allOnes : Option (Option α)) (operand : ReductionOperand T (Option α))

/-- Whatever its registers do with NaNs, `hmin` returns an element that is at most every
element. -/
def HminAttained : Prop :=
  ∀ V : SimdReduce (Option α), OrderedLanes S.length V.min V.hmin →
    ∃ v, hmin F V c m S allOnes operand = some (.ok (some v)) ∧
      some v ∈ operand.elements F.scalar c m ∧
      ∀ w, some w ∈ operand.elements F.scalar c m → v ≤ w

/-- Whatever its registers do with NaNs, `hmax` returns an element that is at least every
element. -/
def HmaxAttained : Prop :=
  ∀ V : SimdReduce (Option α), @OrderedLanes αᵒᵈ _ S.length V.max V.hmax →
    ∃ v, hmax F V c m S allOnes operand = some (.ok (some v)) ∧
      some v ∈ operand.elements F.scalar c m ∧
      ∀ w, some w ∈ operand.elements F.scalar c m → w ≤ v

/-- Zero and one lie strictly between the finite extremes. -/
structure Floating.Spread : Prop where
  neg_finiteMax_lt_zero : F.neg F.finiteMax < F.zero
  zero_lt_one : F.zero < F.one
  one_lt_finiteMax : F.one < F.finiteMax

variable {F S allOnes operand}

theorem Floating.Spread.neg_finiteMax_lt (h : F.Spread) :
    ∀ b, ∃ v, F.scalar.ofBool b = some v ∧ F.neg F.finiteMax < v
  | false => ⟨_, rfl, h.neg_finiteMax_lt_zero⟩
  | true => ⟨_, rfl, h.neg_finiteMax_lt_zero.trans h.zero_lt_one⟩

theorem Floating.Spread.lt_finiteMax (h : F.Spread) :
    ∀ b, ∃ v, F.scalar.ofBool b = some v ∧ v < F.finiteMax
  | false => ⟨_, rfl, h.zero_lt_one.trans h.one_lt_finiteMax⟩
  | true => ⟨_, rfl, h.one_lt_finiteMax⟩

theorem hminAttained_iff_extremumAttained : HminAttained F c m S allOnes operand ↔
    ExtremumAttained fmin F.finiteMax F.scalar c m S allOnes operand := by
  constructor
  · intro h lane horizontal hV
    exact h ⟨lane, lane, lane, lane, horizontal, horizontal, horizontal⟩ hV
  · exact fun h V hV => h V.min V.hmin hV

theorem hmaxAttained_iff_extremumAttained : HmaxAttained F c m S allOnes operand ↔
    @ExtremumAttained T αᵒᵈ _ (@fmax α _) (F.neg F.finiteMax) F.scalar c m S allOnes operand := by
  constructor
  · intro h lane horizontal hV
    exact h ⟨lane, lane, lane, lane, horizontal, horizontal, horizontal⟩ hV
  · exact fun h V hV => h V.max V.hmax hV

/-- `hmin` and `hmax` attain an extremum exactly when no register reads a true element of a
comparison, and an extremal element is read, or is their start, and does not lie beyond it.
Of elements that can be counted, some element must not lie beyond the start. -/
theorem extrema_attained_iff (h : operand.Valid F.scalar S) (hlanes : operand.LaneWise)
    (hF : F.Spread) (hcompiles : (operand.numberLoad F.scalar c m allOnes).isSome)
    (hones : ∀ ones ∈ allOnes, ones = none) (hread : none ∉ operand.visited F.scalar c m) :
    (HminAttained F c m S allOnes operand ↔ operand.RegistersFalse F.scalar c m S ∧
      SmallestRead F.finiteMax (operand.elements F.scalar c m)
        (operand.visited F.scalar c m)) ∧
    (HmaxAttained F c m S allOnes operand ↔ operand.RegistersFalse F.scalar c m S ∧
      @SmallestRead αᵒᵈ _ (F.neg F.finiteMax) (operand.elements F.scalar c m)
        (operand.visited F.scalar c m)) ∧
    ((operand.shape F.scalar).prod < 2 ^ 64 →
      (SmallestRead F.finiteMax (operand.elements F.scalar c m)
          (operand.visited F.scalar c m) ↔
        ∃ v, some v ∈ operand.elements F.scalar c m ∧ v ≤ F.finiteMax) ∧
      (@SmallestRead αᵒᵈ _ (F.neg F.finiteMax) (operand.elements F.scalar c m)
          (operand.visited F.scalar c m) ↔
        ∃ v, some v ∈ operand.elements F.scalar c m ∧ F.neg F.finiteMax ≤ v)) := by
  refine ⟨?_, ?_, fun hcount => ⟨?_, ?_⟩⟩
  · rw [hminAttained_iff_extremumAttained]
    exact extremumAttained_iff c m h hlanes ignores_fmin hcompiles hones
      hF.neg_finiteMax_lt hread
  · rw [hmaxAttained_iff_extremumAttained]
    exact @extremumAttained_iff T αᵒᵈ _ _ _ F.scalar S c m operand allOnes h hlanes
      (@ignores_fmax α _) hcompiles hones _ hF.lt_finiteMax hread
  · exact smallestRead_iff c m h hcount
  · exact @smallestRead_iff T αᵒᵈ _ _ F.scalar S c m operand h hcount

end Extrema

namespace HorizontalExtremaWitness

open Sample ElementFoldsWitness

/-- A value is two bytes, of which the first tells a NaN. -/
def codec : Codec (Option (Fin 256)) float.size where
  encode
    | none => fun _ => UInt8.ofNat 0
    | some v => fun k => if k.val = 0 then UInt8.ofNat 1 else UInt8.ofFin v
  decode := fun b =>
    let bytes := List.ofFn b
    if (bytes.getD 0 (UInt8.ofNat 0)).toNat = 0 then none
    else some (bytes.getD 1 (UInt8.ofNat 0)).toFin
  decode_encode v := by cases v <;> rfl

/-- 255 and 0 are the infinities. -/
def extended : Floating (Fin 256) where
  zero := 128
  one := 129
  finiteMax := 254
  neg a := 255 - a
  add a b := Option.map₂ (· + ·) a b
  mul a b := Option.map₂ (· * ·) a b

theorem extended_spread : extended.Spread :=
  ⟨by decide, by decide, by decide⟩

theorem packed_valid_extended :
    (ReductionOperand.tensor packed).Valid extended.scalar fourLanes :=
  ⟨⟨TensorImpl.recompute_cached fourLanes _, ⟨by decide, rfl, rfl⟩, by decide⟩, rfl⟩

/-- Memory in which the elements are 1 to 10. -/
def counting : Memory := fun x => if x % 4 = 0 then 1 else UInt8.ofNat (x / 4).toNat

/-- Memory in which every element is `v`. -/
def filled (v : UInt8) : Memory := fun x => if x % 4 = 0 then 1 else v

theorem elements_counting :
    (ReductionOperand.tensor packed).elements extended.scalar codec counting =
      [1, 2, 3, 4, 5, 6, 7, 8, 9, 10].map some :=
  rfl

theorem elements_filled (v : UInt8) :
    (ReductionOperand.tensor packed).elements extended.scalar codec (filled v) =
      List.replicate 10 (some v.toFin) :=
  rfl

theorem extrema_attained_counting :
    HminAttained extended codec counting fourLanes none (.tensor packed) ∧
      HmaxAttained extended codec counting fourLanes none (.tensor packed) := by
  have hcount : ((ReductionOperand.tensor packed).shape extended.scalar).prod < 2 ^ 64 := by
    decide
  have hread : none ∉ (ReductionOperand.tensor packed).visited extended.scalar codec counting := by
    rw [packed_valid_extended.visited_eq codec counting hcount, elements_counting]
    decide
  obtain ⟨hmin, hmax, hcounted⟩ := extrema_attained_iff codec counting packed_valid_extended
    trivial extended_spread rfl
    (fun _ (h : _ ∈ (none : Option (Option (Fin 256)))) => absurd h (Option.not_mem_none _)) hread
  obtain ⟨hsmallest, hgreatest⟩ := hcounted hcount
  rw [elements_counting] at hsmallest hgreatest
  exact ⟨hmin.2 ⟨trivial, hsmallest.2 ⟨1, by decide, by decide⟩⟩,
    hmax.2 ⟨trivial, hgreatest.2 ⟨10, by decide, by decide⟩⟩⟩

/-- The comparison of the elements with 200. -/
def belowLarge : ReductionOperand float (Option (Fin 256)) :=
  compared extended.scalar.lt (some 200)

/-- The least of ten infinities is the largest finite value, and the ones of a comparison are
read in registers as NaNs. -/
theorem not_hminAttained_infinities :
    (none ∉ (ReductionOperand.tensor packed).elements extended.scalar codec (filled 255) ∧
      ¬ HminAttained extended codec (filled 255) fourLanes (some none) (.tensor packed)) ∧
    (none ∉ belowLarge.elements extended.scalar codec counting ∧
      ¬ HminAttained extended codec counting fourLanes (some none) belowLarge) := by
  have hones : ∀ ones ∈ some (none : Option (Fin 256)), ones = none := by
    rintro _ ⟨⟩
    rfl
  refine ⟨⟨?_, fun h => ?_⟩, ?_, fun h => ?_⟩
  · rw [elements_filled, List.mem_replicate]
    exact fun h => nomatch h.2
  · have hread : none ∉ (ReductionOperand.tensor packed).visited extended.scalar codec
        (filled 255) := by
      rw [packed_valid_extended.visited_eq codec _ (by decide), elements_filled,
        List.mem_replicate]
      exact fun h => nomatch h.2
    have hsmallest := (extremumAttained_iff codec (filled 255) packed_valid_extended trivial
      ignores_fmin rfl hones extended_spread.neg_finiteMax_lt hread).1
        ((hminAttained_iff_extremumAttained _ _).1 h)
    obtain ⟨v, hv, hle⟩ := (smallestRead_iff codec _ packed_valid_extended (by decide)).1
      hsmallest.2
    rw [elements_filled] at hv
    obtain rfl := Option.some.inj (List.eq_of_mem_replicate hv)
    exact absurd hle (by decide : ¬ (255 : Fin 256) ≤ 254)
  · intro hmem
    obtain ⟨idx, -, hidx⟩ := List.mem_map.1 hmem
    obtain ⟨b, hb⟩ : ∃ b, belowLarge.element extended.scalar codec counting idx =
        extended.scalar.ofBool b := ⟨_, rfl⟩
    obtain ⟨v, hv, -⟩ := extended_spread.lt_finiteMax b
    exact Option.some_ne_none v (hv.symm.trans (hb.symm.trans hidx))
  · have hfalse := ((hminAttained_iff_extremumAttained _ _).1 h).registersFalse codec counting
      (compared_valid _ _ _) ⟨fun _ _ _ => rfl, trivial, trivial⟩ ignores_fmin rfl hones
      extended_spread.neg_finiteMax_lt
    exact absurd (hfalse (by decide) 0 (by decide)) (by decide)

end HorizontalExtremaWitness

end Vectorization
