/-
Broadcast shape inference of `expression_shape.h` and what it promises: the
result shape is one every leaf broadcasts to, broadcast strides read a leaf at
the right-aligned multi-index, and a packed leaf of the result's element count
is read in the result's flat order.
-/
import Vectorization.Raise

namespace Vectorization

open StridedSpace MachineInteger

universe u

variable {T : ElementType} {α : Type u}

/-- The pairing loop of `broadcast_into`, innermost dimension first: a missing
dimension counts as one. -/
def broadcastPairs : List Nat → List Nat → Option (List Nat)
  | [], bs => some bs
  | as, [] => some as
  | a :: as, b :: bs =>
      if a ≠ b ∧ a ≠ 1 ∧ b ≠ 1 then none
      else (broadcastPairs as bs).map ((if a = 1 then b else a) :: ·)

/-- `broadcast_into`: the accumulated shape joined with one leaf shape. -/
def broadcastInto (acc sizes : List Nat) : Option (List Nat) :=
  if kMaxRank < sizes.length then none
  else (broadcastPairs acc.reverse sizes.reverse).map List.reverse

def accumulateShape : Expr (Leaf T) α → List Nat → Option (List Nat)
  | .scalar _, acc => some acc
  | .leaf l, acc => broadcastInto acc l.toRef.sizes
  | .unary _ rhs, acc => accumulateShape rhs acc
  | .binary _ lhs rhs, acc => (accumulateShape lhs acc).bind (accumulateShape rhs)
  | .trinary _ lhs mhs rhs, acc =>
      ((accumulateShape lhs acc).bind (accumulateShape mhs)).bind (accumulateShape rhs)

/-- `expression_shape::numel`, a product in unsigned 64-bit arithmetic. -/
def shapeNumel (sizes : List Nat) : Nat :=
  sizes.foldl (fun n size => wrapU64 (n * size)) 1

theorem shapeNumel_eq (sizes : List Nat) : shapeNumel sizes = wrapU64 sizes.prod := by
  have fold : ∀ (sizes : List Nat) (n : Nat),
      sizes.foldl (fun n size => wrapU64 (n * size)) (wrapU64 n) =
        wrapU64 (n * sizes.prod) := by
    intro sizes
    induction sizes with
    | nil => simp
    | cons size sizes ih =>
        intro n
        rw [List.foldl_cons, wrapU64_wrapU64_mul, ih, List.prod_cons, Nat.mul_assoc]
  have h := fold sizes 1
  rwa [Nat.one_mul] at h

/-- `expression_result_shape`. -/
def expressionResultShape (e : Expr (Leaf T) α) : Except Raise (List Nat) :=
  match accumulateShape e [] with
  | some shape => .ok shape
  | none => .error (.incompatibleShapes (e.leaves.map fun l => l.toRef.sizes))

/-- `broadcast_strides`: stride zero on the dimensions the leaf lacks and on its
size-1 dimensions. -/
def broadcastStrides (out : List Nat) (dims : List (Axis Int)) : List Int :=
  List.replicate (out.length - dims.length) 0 ++
    dims.map fun a => if a.size = 1 then 0 else a.stride

/-- The loop of `is_packed`, innermost dimension first. -/
def isPackedLoop : List (Axis Int) → Int → Bool
  | [], _ => true
  | a :: axes, expected =>
      if a.size = 0 then true
      else if a.size = 1 then isPackedLoop axes expected
      else if a.stride ≠ expected then false
      else isPackedLoop axes (expected * a.size)

def isPacked (dims : List (Axis Int)) : Bool :=
  isPackedLoop dims.reverse 1

def leavesFlat (numel : Nat) : Expr (Leaf T) α → Bool
  | .scalar _ => true
  | .leaf (.ref s) => s.contiguous && s.numel == numel
  | .leaf (.view v) => v.size == numel
  | .unary _ rhs => leavesFlat numel rhs
  | .binary _ lhs rhs => leavesFlat numel lhs && leavesFlat numel rhs
  | .trinary _ lhs mhs rhs =>
      leavesFlat numel lhs && leavesFlat numel mhs && leavesFlat numel rhs

section Broadcast

/-- Innermost first: each size is one or the result's. -/
def FitsInto : List Nat → List Nat → Prop
  | [], _ => True
  | _ :: _, [] => False
  | n :: ns, m :: ms => (n = 1 ∨ n = m) ∧ FitsInto ns ms

/-- The shape broadcasts to the result shape, aligned from the right. -/
def BroadcastsTo (sizes out : List Nat) : Prop :=
  FitsInto sizes.reverse out.reverse

/-- The multi-index at which a leaf is read for a multi-index of the result:
aligned from the right, with a broadcast coordinate dropped to zero. -/
def broadcastIndex (sizes idx : List Nat) : List Nat :=
  (idx.drop (idx.length - sizes.length)).zipWith (fun i n => if n = 1 then 0 else i) sizes

theorem FitsInto.refl (ns : List Nat) : FitsInto ns ns := by
  induction ns with
  | nil => trivial
  | cons n ns ih => exact ⟨Or.inr rfl, ih⟩

theorem FitsInto.trans {ns ms ks : List Nat} (h : FitsInto ns ms) (h' : FitsInto ms ks) :
    FitsInto ns ks := by
  induction ns generalizing ms ks with
  | nil => trivial
  | cons n ns ih =>
      match ms, ks, h, h' with
      | m :: ms, k :: ks, h, h' =>
          refine ⟨?_, ih h.2 h'.2⟩
          rcases h.1 with h₁ | rfl
          · exact Or.inl h₁
          · exact h'.1

theorem broadcastPairs_fits {as bs cs : List Nat} (h : broadcastPairs as bs = some cs) :
    FitsInto as cs ∧ FitsInto bs cs := by
  induction as generalizing bs cs with
  | nil =>
      obtain rfl : bs = cs := by simpa [broadcastPairs] using h
      exact ⟨trivial, FitsInto.refl bs⟩
  | cons a as ih =>
      cases bs with
      | nil =>
          obtain rfl : a :: as = cs := by simpa [broadcastPairs] using h
          exact ⟨FitsInto.refl _, trivial⟩
      | cons b bs =>
          rw [broadcastPairs] at h
          split at h <;> rename_i hclash
          · cases h
          · rw [Option.map_eq_some_iff] at h
            obtain ⟨ds, hds, rfl⟩ := h
            obtain ⟨hfa, hfb⟩ := ih hds
            refine ⟨⟨?_, hfa⟩, ⟨?_, hfb⟩⟩ <;> split <;> omega

theorem broadcastInto_fits {acc sizes out : List Nat}
    (h : broadcastInto acc sizes = some out) :
    BroadcastsTo acc out ∧ BroadcastsTo sizes out := by
  rw [broadcastInto] at h
  split at h
  · cases h
  · rw [Option.map_eq_some_iff] at h
    obtain ⟨cs, hcs, rfl⟩ := h
    have := broadcastPairs_fits hcs
    unfold BroadcastsTo
    rwa [List.reverse_reverse]

/-- Every leaf, and what was accumulated before, broadcasts to the result. -/
theorem accumulateShape_fits {e : Expr (Leaf T) α} {acc out : List Nat}
    (h : accumulateShape e acc = some out) :
    BroadcastsTo acc out ∧ ∀ l ∈ e.leaves, BroadcastsTo l.toRef.sizes out := by
  induction e generalizing acc out with
  | scalar _ =>
      obtain rfl : acc = out := by simpa [accumulateShape] using h
      exact ⟨FitsInto.refl _, by simp [Expr.leaves]⟩
  | leaf l =>
      have := broadcastInto_fits h
      exact ⟨this.1, by simpa [Expr.leaves] using this.2⟩
  | unary f rhs ih => exact ih h
  | binary f lhs rhs ihl ihr =>
      rw [accumulateShape, Option.bind_eq_some_iff] at h
      obtain ⟨mid, hl, hr⟩ := h
      obtain ⟨hacc, hleaves⟩ := ihl hl
      obtain ⟨hmid, hleaves'⟩ := ihr hr
      refine ⟨hacc.trans hmid, fun l hl => ?_⟩
      rcases List.mem_append.1 hl with hl | hl
      · exact (hleaves l hl).trans hmid
      · exact hleaves' l hl
  | trinary f lhs mhs rhs ihl ihm ihr =>
      rw [accumulateShape, Option.bind_eq_some_iff] at h
      obtain ⟨mid', hlm, hr⟩ := h
      rw [Option.bind_eq_some_iff] at hlm
      obtain ⟨mid, hl, hm⟩ := hlm
      obtain ⟨hacc, hleaves⟩ := ihl hl
      obtain ⟨hmid, hleaves'⟩ := ihm hm
      obtain ⟨hmid', hleaves''⟩ := ihr hr
      refine ⟨(hacc.trans hmid).trans hmid', fun l hl => ?_⟩
      rcases List.mem_append.1 hl with hl | hl
      · exact ((hleaves l hl).trans hmid).trans hmid'
      · rcases List.mem_append.1 hl with hl | hl
        · exact (hleaves' l hl).trans hmid'
        · exact hleaves'' l hl

theorem expressionResultShape_fits {e : Expr (Leaf T) α} {out : List Nat}
    (h : expressionResultShape e = .ok out) :
    ∀ l ∈ e.leaves, BroadcastsTo l.toRef.sizes out := by
  rw [expressionResultShape] at h
  split at h
  · cases h
    exact (accumulateShape_fits ‹_›).2
  · cases h

theorem FitsInto.forall₂ {ns ms : List Nat} (h : FitsInto ns ms) :
    List.Forall₂ (fun n m => n = 1 ∨ n = m) ns (ms.take ns.length) := by
  induction ns generalizing ms with
  | nil => simp
  | cons n ns ih =>
      match ms, h with
      | m :: ms, h => exact List.Forall₂.cons h.1 (ih h.2)

/-- The result shape splits into the dimensions the leaf lacks and those it is
aligned with. -/
theorem BroadcastsTo.split {sizes out : List Nat} (h : BroadcastsTo sizes out) :
    ∃ lead aligned, out = lead ++ aligned ∧
      List.Forall₂ (fun n m => n = 1 ∨ n = m) sizes aligned := by
  refine ⟨out.take (out.length - sizes.length), out.drop (out.length - sizes.length),
    (List.take_append_drop _ _).symm, ?_⟩
  have hpair := FitsInto.forall₂ h
  rw [List.length_reverse, List.take_reverse, List.forall₂_reverse_iff] at hpair
  exact hpair

theorem BroadcastsTo.prod_ne_zero {ns out : List Nat} (h : BroadcastsTo ns out)
    (hne : out.prod ≠ 0) : ns.prod ≠ 0 := by
  obtain ⟨lead, aligned, rfl, hpair⟩ := h.split
  rw [List.prod_append] at hne
  have halign := right_ne_zero_of_mul hne
  clear hne h
  induction hpair with
  | nil => exact Nat.one_ne_zero
  | cons hsize _ ih =>
      rw [List.prod_cons] at halign ⊢
      refine Nat.mul_ne_zero ?_ (ih (right_ne_zero_of_mul halign))
      have := left_ne_zero_of_mul halign
      omega

/-- Reading an aligned leaf coordinate by coordinate. -/
def alignedIndex (idx sizes : List Nat) : List Nat :=
  idx.zipWith (fun i n => if n = 1 then 0 else i) sizes

@[simp] theorem alignedIndex_cons (i n : Nat) (idx sizes : List Nat) :
    alignedIndex (i :: idx) (n :: sizes) =
      (if n = 1 then 0 else i) :: alignedIndex idx sizes := rfl

theorem alignedIndex_inBounds {sizes aligned idx : List Nat}
    (h : List.Forall₂ (fun n m => n = 1 ∨ n = m) sizes aligned)
    (hidx : InBounds idx aligned) : InBounds (alignedIndex idx sizes) sizes := by
  induction h generalizing idx with
  | nil => simp [alignedIndex]
  | @cons n m sizes aligned hnm _ ih =>
      obtain _ | ⟨hi, hidx⟩ := hidx
      rw [alignedIndex_cons, inBounds_cons]
      refine ⟨?_, ih hidx⟩
      split <;> omega

theorem alignedIndex_self {sizes idx : List Nat} (h : InBounds idx sizes) :
    alignedIndex idx sizes = idx := by
  induction h with
  | nil => rfl
  | @cons i n idx sizes hi _ ih =>
      rw [alignedIndex_cons, ih]
      split
      · rw [show i = 0 by omega]
      · rfl

/-- The leading coordinates play no part in reading a leaf. -/
theorem broadcastIndex_append {sizes lead aligned idx : List Nat}
    (h : List.Forall₂ (fun n m => n = 1 ∨ n = m) sizes aligned)
    (hidx : InBounds idx (lead ++ aligned)) :
    broadcastIndex sizes idx = alignedIndex (idx.drop lead.length) sizes := by
  have hlen := hidx.length_eq
  have hsizes := h.length_eq
  rw [List.length_append] at hlen
  rw [broadcastIndex, alignedIndex, show idx.length - sizes.length = lead.length by omega]

theorem inBounds_append {lead aligned idx : List Nat}
    (hidx : InBounds idx (lead ++ aligned)) :
    InBounds (idx.take lead.length) lead ∧ InBounds (idx.drop lead.length) aligned := by
  have htake := List.forall₂_take lead.length hidx
  have hdrop := List.forall₂_drop lead.length hidx
  rw [List.take_left] at htake
  rw [List.drop_left] at hdrop
  exact ⟨htake, hdrop⟩

theorem BroadcastsTo.inBounds {sizes out idx : List Nat} (h : BroadcastsTo sizes out)
    (hidx : InBounds idx out) : InBounds (broadcastIndex sizes idx) sizes := by
  obtain ⟨lead, aligned, rfl, hpair⟩ := h.split
  rw [broadcastIndex_append hpair hidx]
  exact alignedIndex_inBounds hpair (inBounds_append hidx).2

theorem BroadcastsTo.refl (sizes : List Nat) : BroadcastsTo sizes sizes :=
  FitsInto.refl _

theorem broadcastIndex_self {sizes idx : List Nat} (h : InBounds idx sizes) :
    broadcastIndex sizes idx = idx := by
  rw [broadcastIndex, h.length_eq, Nat.sub_self, List.drop_zero]
  exact alignedIndex_self h

theorem dot_zero_strides (sizes idx : List Nat) :
    dot (List.zipWith Axis.mk sizes (List.replicate sizes.length (0 : Int))) idx = 0 := by
  induction sizes generalizing idx with
  | nil => simp
  | cons n sizes ih =>
      cases idx with
      | nil => rfl
      | cons i idx =>
          simp only [List.length_cons, List.replicate_succ, List.zipWith_cons_cons,
            dot_cons, smul_zero, Int.zero_add]
          exact ih idx

theorem dot_aligned {dims : List (Axis Int)} {aligned idx : List Nat}
    (h : List.Forall₂ (fun n m => n = 1 ∨ n = m) (sizes dims) aligned)
    (hidx : InBounds idx aligned) :
    dot (List.zipWith Axis.mk aligned
        (dims.map fun a => if a.size = 1 then 0 else a.stride)) idx =
      dot dims (alignedIndex idx (sizes dims)) := by
  induction dims generalizing aligned idx with
  | nil => simp
  | cons a dims ih =>
      obtain _ | ⟨_, htail⟩ := h
      obtain _ | ⟨_, hidx⟩ := hidx
      rw [List.map_cons, List.zipWith_cons_cons, dot_cons, ih htail hidx, sizes_cons,
        alignedIndex_cons, dot_cons]
      split
      · simp
      · rfl

/-- Along every axis of the result a leaf repeats one element or steps along a dimension of
its own. -/
theorem mem_broadcastStrides {dims : List (Axis Int)} {out : List Nat}
    (h : BroadcastsTo (sizes dims) out) {a : Axis Int}
    (ha : a ∈ List.zipWith Axis.mk out (broadcastStrides out dims)) :
    a.stride = 0 ∨ a ∈ dims ∧ a.size ≠ 1 := by
  obtain ⟨lead, aligned, rfl, hpair⟩ := h.split
  have hlen := hpair.length_eq
  rw [sizes_length] at hlen
  have hlead : (lead ++ aligned).length - dims.length = lead.length := by
    rw [List.length_append]
    omega
  rw [broadcastStrides, hlead, List.zipWith_append (by simp), List.mem_append] at ha
  rcases ha with ha | ha
  · left
    rw [← List.map_uncurry_zip_eq_zipWith, List.mem_map] at ha
    obtain ⟨⟨size, stride⟩, hmem, rfl⟩ := ha
    exact (List.mem_replicate.1 (List.of_mem_zip hmem).2).2
  · clear h hlen hlead
    induction dims generalizing aligned with
    | nil => simp at ha
    | cons b dims ih =>
        obtain _ | ⟨hsize, htail⟩ := hpair
        rw [List.map_cons, List.zipWith_cons_cons] at ha
        rcases List.mem_cons.1 ha with rfl | ha
        · by_cases hone : b.size = 1
          · exact Or.inl (if_pos hone)
          · obtain rfl := hsize.resolve_left hone
            right
            simp [hone]
        · rcases ih _ htail ha with hzero | ⟨hmem, hone⟩
          · exact Or.inl hzero
          · exact Or.inr ⟨List.mem_cons_of_mem b hmem, hone⟩

/-- Broadcast strides read a leaf at the right-aligned multi-index. -/
theorem dot_broadcastStrides {dims : List (Axis Int)} {out idx : List Nat}
    (h : BroadcastsTo (sizes dims) out) (hidx : InBounds idx out) :
    dot (List.zipWith Axis.mk out (broadcastStrides out dims)) idx =
      dot dims (broadcastIndex (sizes dims) idx) := by
  obtain ⟨lead, aligned, rfl, hpair⟩ := h.split
  have hlen := hpair.length_eq
  rw [sizes_length] at hlen
  have hlead : (lead ++ aligned).length - dims.length = lead.length := by
    rw [List.length_append]
    omega
  have hidx' := inBounds_append hidx
  rw [broadcastIndex_append hpair hidx, broadcastStrides, hlead,
    List.zipWith_append (by simp), ← dot_aligned hpair hidx'.2]
  conv_lhs => rw [← List.take_append_drop lead.length idx]
  rw [dot_append (by simp [hidx'.1.length_eq]), dot_zero_strides, Int.zero_add]

end Broadcast

section Packed

theorem isPackedLoop_append {xs ys : List (Axis Int)} {expected : Int}
    (hpos : ∀ a ∈ xs, a.size ≠ 0) (h : isPackedLoop (xs ++ ys) expected = true) :
    isPackedLoop xs expected = true ∧
      isPackedLoop ys (expected * (sizes xs).prod) = true := by
  induction xs generalizing expected with
  | nil => simpa [isPackedLoop] using h
  | cons a xs ih =>
      have hne := hpos a List.mem_cons_self
      have hpos' := fun b hb => hpos b (List.mem_cons_of_mem a hb)
      rw [List.cons_append, isPackedLoop, if_neg hne] at h
      rw [isPackedLoop, if_neg hne, sizes_cons, List.prod_cons]
      split at h <;> rename_i hone
      · rw [if_pos hone, hone, Nat.one_mul]
        exact ih hpos' h
      · rw [if_neg hone]
        split at h <;> rename_i hstride
        · cases h
        · rw [if_neg hstride, Nat.cast_mul, ← Int.mul_assoc]
          exact ih hpos' h

/-- A packed layout places a multi-index at its C-order position. -/
theorem dot_of_isPacked {dims : List (Axis Int)} (h : isPacked dims = true)
    (hpos : ∀ a ∈ dims, a.size ≠ 0) {idx : List Nat} (hidx : InBounds idx (sizes dims)) :
    dot dims idx = (flatten (sizes dims) idx : Nat) := by
  induction dims generalizing idx with
  | nil => simp [flatten]
  | cons a dims ih =>
      have hpos' := fun b hb => hpos b (List.mem_cons_of_mem a hb)
      rw [isPacked, List.reverse_cons] at h
      obtain ⟨htail, hhead⟩ := isPackedLoop_append (fun b hb => hpos' b (by simpa using hb)) h
      rw [sizes_cons] at hidx
      obtain _ | ⟨hi, hidx⟩ := hidx
      rename_i i idx
      rw [dot_cons, ih htail hpos' hidx, sizes_cons, flatten]
      rw [isPackedLoop, if_neg (hpos a List.mem_cons_self), Int.one_mul,
        sizes_reverse, List.prod_reverse] at hhead
      split at hhead <;> rename_i hone
      · rw [show i = 0 by omega]
        simp
      · split at hhead <;> rename_i hstride
        · cases hhead
        · rw [not_not] at hstride
          rw [hstride]
          push_cast
          rw [nsmul_eq_mul]

theorem stride_ne_zero_of_isPackedLoop {axes : List (Axis Int)} {expected : Int}
    (h : isPackedLoop axes expected = true) (hexpected : expected ≠ 0)
    (hpos : ∀ a ∈ axes, a.size ≠ 0) : ∀ a ∈ axes, 1 < a.size → a.stride ≠ 0 := by
  induction axes generalizing expected with
  | nil => simp
  | cons a axes ih =>
      have hne := hpos a List.mem_cons_self
      have hpos' := fun b hb => hpos b (List.mem_cons_of_mem a hb)
      rw [isPackedLoop, if_neg hne] at h
      intro b hb hsize
      split at h <;> rename_i hone
      · rcases List.mem_cons.1 hb with rfl | hb
        · omega
        · exact ih h hexpected hpos' b hb hsize
      · split at h <;> rename_i hstride
        · cases h
        · rw [not_not] at hstride
          rcases List.mem_cons.1 hb with rfl | hb
          · exact hstride ▸ hexpected
          · exact ih h (mul_ne_zero hexpected (by exact_mod_cast hne)) hpos' b hb hsize

theorem prod_le_of_forall₂ {sizes aligned : List Nat}
    (h : List.Forall₂ (fun n m => n = 1 ∨ n = m) sizes aligned)
    (hpos : 0 < aligned.prod) : sizes.prod ≤ aligned.prod := by
  induction h with
  | nil => simp
  | @cons n m sizes aligned hnm _ ih =>
      rw [List.prod_cons] at hpos ⊢
      rw [List.prod_cons]
      have hle := ih (Nat.pos_of_mul_pos_left hpos)
      have hm := Nat.pos_of_mul_pos_right hpos
      exact Nat.mul_le_mul (by omega) hle

/-- Equal element counts leave nothing to broadcast. -/
theorem eq_of_prod_eq {sizes aligned : List Nat}
    (h : List.Forall₂ (fun n m => n = 1 ∨ n = m) sizes aligned)
    (hpos : 0 < aligned.prod) (heq : sizes.prod = aligned.prod) : sizes = aligned := by
  induction h with
  | nil => rfl
  | @cons n m sizes aligned hnm htail ih =>
      rw [List.prod_cons] at hpos heq
      rw [List.prod_cons] at heq
      have hpos' := Nat.pos_of_mul_pos_left hpos
      have hle := prod_le_of_forall₂ htail hpos'
      have hnm' : n = m := by
        rcases hnm with rfl | rfl
        · have hm : m * aligned.prod ≤ 1 * aligned.prod := by
            rw [← heq]
            exact Nat.mul_le_mul_left 1 hle
          have := Nat.le_of_mul_le_mul_right hm hpos'
          have := Nat.pos_of_mul_pos_right hpos
          omega
        · rfl
      subst hnm'
      rw [ih hpos' (Nat.eq_of_mul_eq_mul_left (Nat.pos_of_mul_pos_right hpos) heq)]

theorem flatten_append_ones {lead aligned idx : List Nat} (h : lead.prod = 1)
    (hidx : InBounds idx (lead ++ aligned)) :
    flatten (lead ++ aligned) idx = flatten aligned (idx.drop lead.length) := by
  induction lead generalizing idx with
  | nil => rfl
  | cons n lead ih =>
      rw [List.prod_cons] at h
      obtain rfl := Nat.eq_one_of_mul_eq_one_right h
      have hlead := Nat.eq_one_of_mul_eq_one_left h
      obtain _ | ⟨hi, hidx⟩ := hidx
      rename_i i idx
      rw [List.cons_append, flatten, show i = 0 by omega, Nat.zero_mul, Nat.zero_add,
        ih hlead hidx]
      rfl

/-- A leaf with the result's element count is read at the result's C-order
position, whatever its rank. -/
theorem flatten_broadcastIndex {sizes out idx : List Nat} (h : BroadcastsTo sizes out)
    (hpos : 0 < out.prod) (heq : sizes.prod = out.prod) (hidx : InBounds idx out) :
    flatten sizes (broadcastIndex sizes idx) = flatten out idx := by
  obtain ⟨lead, aligned, rfl, hpair⟩ := h.split
  rw [List.prod_append] at hpos heq
  have halign := Nat.pos_of_mul_pos_left hpos
  have hle := prod_le_of_forall₂ hpair halign
  have hlead : lead.prod = 1 := by
    have hle' : lead.prod * aligned.prod ≤ 1 * aligned.prod := by omega
    have := Nat.le_of_mul_le_mul_right hle' halign
    have := Nat.pos_of_mul_pos_right hpos
    omega
  rw [hlead, Nat.one_mul] at heq
  obtain rfl := eq_of_prod_eq hpair halign heq
  rw [broadcastIndex_append hpair hidx, alignedIndex_self (inBounds_append hidx).2,
    flatten_append_ones hlead hidx]

theorem size_ne_zero_of_prod {dims : List (Axis Int)} (h : (sizes dims).prod ≠ 0) :
    ∀ a ∈ dims, a.size ≠ 0 := fun _ ha hzero =>
  h (List.prod_eq_zero (hzero ▸ List.mem_map_of_mem (f := Axis.size) ha))

/-- A descriptor that counts its elements and is in C-order when it says so. -/
structure StridedRef.Described (s : StridedRef T) : Prop where
  numel_eq : s.numel = s.sizes.prod
  packed : s.contiguous = true → s.numel ≠ 0 → isPacked s.dims = true

variable {s : StridedRef T}

/-- A multi-index of a contiguous layout lies at its C-order position. -/
theorem StridedRef.Described.address_eq (h : s.Described) (hcontig : s.contiguous = true)
    {idx : List Nat} (hidx : InBounds idx s.sizes) :
    s.address idx = s.data + (flatten s.sizes idx : Nat) * T.size := by
  have hprod : (StridedSpace.sizes s.dims).prod ≠ 0 :=
    Nat.ne_of_gt (Nat.zero_lt_of_lt (flatten_lt hidx))
  rw [StridedRef.address, dot_of_isPacked (h.packed hcontig (h.numel_eq ▸ hprod))
    (size_ne_zero_of_prod hprod) hidx]
  rfl

theorem StridedRef.Described.stride_ne_zero (h : s.Described)
    (hcontig : s.contiguous = true) (hne : s.numel ≠ 0) :
    ∀ a ∈ s.dims, 1 < a.size → a.stride ≠ 0 := by
  have hpos : ∀ a ∈ s.dims, a.size ≠ 0 := size_ne_zero_of_prod (h.numel_eq ▸ hne)
  intro a ha
  exact stride_ne_zero_of_isPackedLoop (h.packed hcontig hne) Int.one_ne_zero
    (fun b hb => hpos b (List.mem_reverse.1 hb)) a (List.mem_reverse.2 ha)

theorem Leaf.view_described (v : DataView T) : (Leaf.view v).toRef.Described := by
  refine ⟨by simp [Leaf.toRef, StridedRef.sizes, sizes], fun _ _ => ?_⟩
  simp [isPacked, isPackedLoop, Leaf.toRef]

theorem leavesFlat_spec {e : Expr (Leaf T) α} {n : Nat} (h : leavesFlat n e = true) :
    ∀ l ∈ e.leaves, l.toRef.contiguous = true ∧ l.toRef.numel = n := by
  induction e with
  | scalar _ => simp [Expr.leaves]
  | leaf l =>
      intro l' hl'
      obtain rfl := List.mem_singleton.1 hl'
      cases l' with
      | ref s =>
          rw [leavesFlat, Bool.and_eq_true, beq_iff_eq] at h
          exact h
      | view v =>
          rw [leavesFlat, beq_iff_eq] at h
          exact ⟨rfl, h⟩
  | unary f rhs ih => exact ih h
  | binary f lhs rhs ihl ihr =>
      rw [leavesFlat, Bool.and_eq_true] at h
      intro l hl
      rcases List.mem_append.1 hl with hl | hl
      · exact ihl h.1 l hl
      · exact ihr h.2 l hl
  | trinary f lhs mhs rhs ihl ihm ihr =>
      rw [leavesFlat, Bool.and_eq_true, Bool.and_eq_true] at h
      intro l hl
      rcases List.mem_append.1 hl with hl | hl
      · exact ihl h.1.1 l hl
      · rcases List.mem_append.1 hl with hl | hl
        · exact ihm h.1.2 l hl
        · exact ihr h.2 l hl

theorem Leaf.leafOffset_of_contiguous {l : Leaf T} (h : l.toRef.contiguous = true)
    (index : Nat) : l.leafOffset index = index := by
  cases l with
  | ref s => exact if_pos h
  | view v => rfl

end Packed

section LogicalValue

open ByteMemory

/-- The address at which a leaf is read for a multi-index of the result. -/
def Leaf.readAddress (l : Leaf T) (idx : List Nat) : Int :=
  l.toRef.address (broadcastIndex l.toRef.sizes idx)

/-- A packed leaf of the result's element count is read in flat order. -/
theorem Leaf.readAddress_flat {l : Leaf T} (h : l.toRef.Described)
    (hcontig : l.toRef.contiguous = true) {out idx : List Nat}
    (hfit : BroadcastsTo l.toRef.sizes out) (hnumel : l.toRef.numel = out.prod)
    (hidx : InBounds idx out) :
    l.readAddress idx = l.data + (flatten out idx : Nat) * T.size := by
  have hpos := Nat.zero_lt_of_lt (flatten_lt hidx)
  rw [Leaf.readAddress, h.address_eq hcontig (hfit.inBounds hidx),
    flatten_broadcastIndex hfit hpos (h.numel_eq ▸ hnumel) hidx]
  rfl

/-- The value of the tree at a multi-index of the result. -/
def logicalValue (c : Codec α T.size) (m : Memory) (e : Expr (Leaf T) α)
    (idx : List Nat) : α :=
  e.evaluate fun l => load c m (l.readAddress idx)

end LogicalValue

end Vectorization
