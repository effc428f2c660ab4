/-
Regrouping of mixed-radix layouts.  Axes are listed innermost first and decoded by
remainders.  Neighbouring axes may be merged into one and one axis may be split into
packed ones; between chunks that cannot be merged, every layout with the same points
has a boundary of its own.
-/
import Vectorization.Foundation.StridedSpace

namespace StridedSpace

universe u

variable {M : Type u} [AddCommMonoid M]

theorem decode_zero (axes : List (Axis M)) : decode axes 0 = 0 := by
  induction axes with
  | nil => rfl
  | cons a axes ih => rw [decode, Nat.zero_mod, Nat.zero_div, ih, zero_smul, zero_add]

theorem decode_cons_one {a : Axis M} (h : a.size = 1) (axes : List (Axis M)) (i : Nat) :
    decode (a :: axes) i = decode axes i := by
  rw [decode, h, Nat.mod_one, Nat.div_one, zero_smul, zero_add]

/-- An axis whose stride spans the one inside it continues it. -/
theorem decode_merge (n m : Nat) (s : M) (axes : List (Axis M)) (i : Nat) :
    decode (⟨n, s⟩ :: ⟨m, n • s⟩ :: axes) i = decode (⟨n * m, s⟩ :: axes) i := by
  simp only [decode]
  rw [Nat.mod_mul, add_smul, ← Nat.div_div_eq_div_mul, Nat.mul_comm n, mul_smul, add_assoc]

/-- Axes of the given sizes, packed from a stride on. -/
def packedAxes (s : M) : List Nat → List (Axis M)
  | [] => []
  | n :: ns => ⟨n, s⟩ :: packedAxes (n • s) ns

@[simp] theorem sizes_packedAxes (s : M) (ns : List Nat) : sizes (packedAxes s ns) = ns := by
  induction ns generalizing s with
  | nil => rfl
  | cons n ns ih => rw [packedAxes, sizes_cons, ih]

theorem decode_packedAxes (s : M) (ns : List Nat) (i : Nat) :
    decode (packedAxes s ns) i = (i % ns.prod) • s := by
  induction ns generalizing s i with
  | nil => rw [packedAxes, decode, List.prod_nil, Nat.mod_one, zero_smul]
  | cons n ns ih =>
      rw [packedAxes, decode, ih, List.prod_cons, Nat.mod_mul, add_smul, Nat.mul_comm n,
        mul_smul]

/-- Sizes cut into runs whose products are the given counts. -/
inductive Splits : List Nat → List Nat → Prop
  | nil : Splits [] []
  | cons {counts rest : List Nat} (run : List Nat) (h : Splits counts rest) :
      Splits (run.prod :: counts) (run ++ rest)

theorem Splits.drop_one {counts ns : List Nat} (h : Splits counts (1 :: ns)) :
    Splits counts ns := by
  generalize hns : 1 :: ns = ns' at h
  induction h with
  | nil => cases hns
  | @cons counts rest run hrest ih =>
      cases run with
      | nil => exact Splits.cons [] (ih hns)
      | cons n run =>
          obtain ⟨rfl, rfl⟩ := List.cons.inj hns
          rw [List.prod_cons, Nat.one_mul]
          exact hrest.cons run

/-- Every chunk replaced by packed axes of as many elements. -/
inductive Packs : List (Axis M) → List (Axis M) → Prop
  | nil : Packs [] []
  | cons {chunks axes : List (Axis M)} (s : M) (run : List Nat) (h : Packs chunks axes) :
      Packs (⟨run.prod, s⟩ :: chunks) (packedAxes s run ++ axes)

theorem Packs.decode_eq {chunks axes : List (Axis M)} (h : Packs chunks axes) (i : Nat) :
    decode axes i = decode chunks i := by
  induction h generalizing i with
  | nil => rfl
  | cons s run _ ih => rw [decode_append, decode_packedAxes, sizes_packedAxes, ih, decode]

/-- Runs of the right products can be given strides with the same points. -/
theorem Splits.exists_axes {chunks : List (Axis M)} {ns : List Nat}
    (h : Splits (sizes chunks) ns) :
    ∃ axes : List (Axis M), sizes axes = ns ∧ Packs chunks axes := by
  induction chunks generalizing ns with
  | nil =>
      cases h
      exact ⟨[], rfl, .nil⟩
  | cons a chunks ih =>
      rw [sizes_cons] at h
      generalize hcounts : a.size :: sizes chunks = counts at h
      cases h with
      | nil => cases hcounts
      | @cons counts rest run hrest =>
          obtain ⟨hsize, rfl⟩ := List.cons.inj hcounts
          obtain ⟨axes, rfl, hpacks⟩ := ih hrest
          refine ⟨packedAxes a.stride run ++ axes, by rw [sizes_append, sizes_packedAxes], ?_⟩
          have := hpacks.cons a.stride run
          rwa [← hsize] at this

/-- A position is the product of a prefix, or it lies inside an entry. -/
theorem prefix_prod_cases {ns : List Nat} {n : Nat} (hpos : 0 < n) (hle : n ≤ ns.prod) :
    (∃ pre post, ns = pre ++ post ∧ pre.prod = n) ∨
      ∃ pre m post, ns = pre ++ m :: post ∧ pre.prod < n ∧ n < pre.prod * m := by
  suffices h : ∀ pre rest : List Nat, ns = pre ++ rest → pre.prod ≤ n →
      (∃ pre post, ns = pre ++ post ∧ pre.prod = n) ∨
        ∃ pre m post, ns = pre ++ m :: post ∧ pre.prod < n ∧ n < pre.prod * m from
    h [] ns rfl hpos
  intro pre rest
  induction rest generalizing pre with
  | nil =>
      intro hns hpre
      rw [List.append_nil] at hns
      exact .inl ⟨pre, [], by rw [hns, List.append_nil], Nat.le_antisymm hpre (hns ▸ hle)⟩
  | cons m rest ih =>
      intro hns hpre
      rcases Nat.eq_or_lt_of_le hpre with heq | hlt
      · exact .inl ⟨pre, m :: rest, hns, heq⟩
      · rcases Nat.lt_or_ge n (pre.prod * m) with hin | hout
        · exact .inr ⟨pre, m, rest, hns, hlt, hin⟩
        · refine ih (pre ++ [m]) (by rw [hns, List.append_assoc, List.singleton_append]) ?_
          rwa [List.prod_append, List.prod_singleton]

/-- The outer chunk cannot be merged with the one inside it. -/
def Unmergeable (a b : Axis M) : Prop :=
  1 < b.size ∧ b.stride ≠ a.size • a.stride

/-- Below the first boundary of its chunks, a layout steps by one stride; an axis
that crosses the boundary would carry the step over it. -/
theorem stride_eq_of_crossing {a b c : Axis M} {chunks lower upper : List (Axis M)}
    (hb : 1 < b.size) (hpos : 0 < (sizes lower).prod) (hlt : (sizes lower).prod < a.size)
    (hcross : a.size < (sizes lower).prod * c.size)
    (h : ∀ i ≤ a.size, decode (lower ++ c :: upper) i = decode (a :: b :: chunks) i) :
    b.stride = a.size • a.stride := by
  generalize hv : (sizes lower).prod = v at hpos hlt hcross
  have hinside (i : Nat) (hi : i < v * c.size) :
      decode (lower ++ c :: upper) i = decode lower (i % v) + (i / v) • c.stride := by
    have hdiv : i / v < c.size := (Nat.div_lt_iff_lt_mul hpos).2 (Nat.mul_comm v _ ▸ hi)
    rw [decode_append, hv, decode, Nat.mod_eq_of_lt hdiv, Nat.div_eq_of_lt hdiv, decode_zero,
      add_zero, ← hv, decode_mod]
  have hchunk (i : Nat) (hi : i < a.size) : decode (a :: b :: chunks) i = i • a.stride := by
    rw [decode, Nat.mod_eq_of_lt hi, Nat.div_eq_of_lt hi, decode_zero, add_zero]
  have hstep : c.stride = v • a.stride := by
    have := h v hlt.le
    rwa [hinside v (Nat.lt_trans hlt hcross), hchunk v hlt, Nat.mod_self, decode_zero,
      Nat.div_self hpos, one_smul, zero_add] at this
  have hlower : decode lower (a.size % v) = (a.size % v) • a.stride := by
    have hmod := Nat.mod_lt a.size hpos
    have := h (a.size % v) (hmod.trans hlt).le
    rwa [hinside _ (by omega), hchunk _ (hmod.trans hlt), Nat.mod_mod,
      Nat.div_eq_of_lt hmod, zero_smul, add_zero] at this
  have hboundary := h a.size le_rfl
  rw [hinside _ hcross, hlower, hstep, ← mul_smul, ← add_smul, Nat.mul_comm, Nat.mod_add_div,
    decode, Nat.mod_self, Nat.div_self (hpos.trans hlt), zero_smul, zero_add, decode,
    Nat.mod_eq_of_lt hb, Nat.div_eq_of_lt hb, decode_zero, one_smul, add_zero] at hboundary
  exact hboundary.symm

/-- A layout with the points of chunks that lie apart splits them. -/
theorem splits_of_decode_eq {a : Axis M} {chunks axes : List (Axis M)}
    (hchunks : (a :: chunks).IsChain Unmergeable) (hsize : 0 < a.size)
    (hpos : ∀ n ∈ sizes axes, 0 < n)
    (hprod : (sizes axes).prod = (sizes (a :: chunks)).prod)
    (h : ∀ i < (sizes axes).prod, decode axes i = decode (a :: chunks) i) :
    Splits (sizes (a :: chunks)) (sizes axes) := by
  induction chunks generalizing a axes with
  | nil =>
      rw [sizes_cons, sizes_nil, List.prod_singleton] at hprod
      have := Splits.nil.cons (sizes axes)
      rwa [List.append_nil, hprod] at this
  | cons b chunks ih =>
      obtain ⟨⟨hb, hne⟩, hchain⟩ := List.isChain_cons_cons.1 hchunks
      have hall : 0 < (sizes axes).prod := List.prod_pos hpos
      rw [sizes_cons, List.prod_cons] at hprod
      have hrest : 1 < (sizes (b :: chunks)).prod := by
        have hne : (sizes (b :: chunks)).prod ≠ 0 :=
          right_ne_zero_of_mul (hprod ▸ hall.ne')
        rw [sizes_cons, List.prod_cons] at hne ⊢
        have := Nat.mul_le_mul_left b.size (Nat.pos_of_ne_zero (right_ne_zero_of_mul hne))
        omega
      have hlt : a.size < (sizes axes).prod := by
        have := Nat.mul_lt_mul_of_pos_left hrest hsize
        omega
      rcases prefix_prod_cases hsize hlt.le with ⟨pre, post, hsplit, hpre⟩ | hcross
      · obtain ⟨lower, upper, rfl, rfl, rfl⟩ := List.map_eq_append_iff.1 hsplit
        change (sizes lower).prod = _ at hpre
        rw [sizes_append, List.prod_append, hpre] at hprod
        have hupper := Nat.eq_of_mul_eq_mul_left hsize hprod
        have htail (j : Nat) (hj : j < (sizes upper).prod) :
            decode upper j = decode (b :: chunks) j := by
          have hin : a.size * j < (sizes (lower ++ upper)).prod := by
            rw [sizes_append, List.prod_append, hpre]
            exact Nat.mul_lt_mul_of_pos_left hj hsize
          have := h _ hin
          rwa [decode_append, ← decode_mod, hpre, Nat.mul_mod_right, decode_zero, zero_add,
            Nat.mul_div_cancel_left j hsize, decode, Nat.mul_mod_right, zero_smul, zero_add,
            Nat.mul_div_cancel_left j hsize] at this
        have hih := ih hchain (Nat.zero_lt_of_lt hb)
          (fun n hn => hpos n (by rw [sizes_append]; exact List.mem_append_right _ hn))
          hupper htail
        have := hih.cons (sizes lower)
        rwa [hpre, ← sizes_append] at this
      · obtain ⟨pre, m, post, hsplit, hpre, hin⟩ := hcross
        obtain ⟨lower, rest, rfl, rfl, hrest'⟩ := List.map_eq_append_iff.1 hsplit
        obtain ⟨c, upper, rfl, rfl, rfl⟩ := List.map_eq_cons_iff.1 hrest'
        have hlower : 0 < (sizes lower).prod := List.prod_pos fun n hn => hpos n (by
          rw [sizes_append]
          exact List.mem_append_left _ hn)
        exact absurd (stride_eq_of_crossing hb hlower hpre hin fun i hi => h i (by omega)) hne

end StridedSpace
