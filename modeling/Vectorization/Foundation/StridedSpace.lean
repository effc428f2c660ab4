/-
Strided index spaces.  An axis pairs a size with a stride in an additive
commutative monoid, and a list of axes, outermost first, places the multi-index
`i` at the point `∑ k, i k • stride k`.  Natural strides describe one array;
function-valued strides describe several arrays that are walked together.
-/
import Mathlib

namespace StridedSpace

universe u v

/-- One axis of an index space: how many steps it has, and what a step adds. -/
structure Axis (M : Type u) where
  size : Nat
  stride : M
deriving Repr, DecidableEq

variable {M : Type u} {N : Type v}

def sizes (axes : List (Axis M)) : List Nat :=
  axes.map Axis.size

@[simp] theorem sizes_nil : sizes ([] : List (Axis M)) = [] := rfl

@[simp] theorem sizes_cons (a : Axis M) (axes : List (Axis M)) :
    sizes (a :: axes) = a.size :: sizes axes := rfl

@[simp] theorem sizes_append (xs ys : List (Axis M)) :
    sizes (xs ++ ys) = sizes xs ++ sizes ys :=
  List.map_append

@[simp] theorem sizes_reverse (axes : List (Axis M)) :
    sizes axes.reverse = (sizes axes).reverse :=
  List.map_reverse

@[simp] theorem sizes_length (axes : List (Axis M)) :
    (sizes axes).length = axes.length :=
  List.length_map _

/-- A multi-index of the box with the given sizes. -/
def InBounds (idx sizes : List Nat) : Prop :=
  List.Forall₂ (· < ·) idx sizes

instance (idx sizes : List Nat) : Decidable (InBounds idx sizes) :=
  inferInstanceAs (Decidable (List.Forall₂ (· < ·) idx sizes))

@[simp] theorem inBounds_nil : InBounds [] [] := List.Forall₂.nil

@[simp] theorem inBounds_cons {i n : Nat} {idx ns : List Nat} :
    InBounds (i :: idx) (n :: ns) ↔ i < n ∧ InBounds idx ns :=
  List.forall₂_cons

theorem InBounds.length_eq {idx ns : List Nat} (h : InBounds idx ns) :
    idx.length = ns.length :=
  List.Forall₂.length_eq h

/-- All multi-indices of a box in C order: the last coordinate runs fastest. -/
def indices : List Nat → List (List Nat)
  | [] => [[]]
  | n :: ns => (List.range n).flatMap fun i => (indices ns).map (i :: ·)

theorem mem_indices {idx ns : List Nat} : idx ∈ indices ns ↔ InBounds idx ns := by
  induction ns generalizing idx with
  | nil => cases idx <;> simp [indices, InBounds]
  | cons n ns ih =>
      cases idx with
      | nil => simp [indices, InBounds]
      | cons i idx => simp [indices, ih]

theorem indices_nodup (ns : List Nat) : (indices ns).Nodup := by
  induction ns with
  | nil => simp [indices]
  | cons n ns ih =>
      simp only [indices]
      rw [List.nodup_flatMap]
      refine ⟨fun i _ => ih.map fun _ _ h => (List.cons.inj h).2, ?_⟩
      refine List.nodup_range.imp fun {i j} hij => ?_
      simp only [Function.onFun, List.disjoint_left, List.mem_map]
      rintro _ ⟨x, _, rfl⟩ ⟨y, _, hy⟩
      exact hij (List.cons.inj hy).1.symm

theorem length_indices (ns : List Nat) : (indices ns).length = ns.prod := by
  induction ns with
  | nil => rfl
  | cons n ns ih => simp [indices, List.length_flatMap, ih]

/-- The coordinates of a C-order position. -/
def unflatten : List Nat → Nat → List Nat
  | [], _ => []
  | _ :: ns, i => i / ns.prod :: unflatten ns (i % ns.prod)

/-- The C-order position of a multi-index. -/
def flatten : List Nat → List Nat → Nat
  | _ :: ns, i :: idx => i * ns.prod + flatten ns idx
  | _, _ => 0

theorem unflatten_inBounds {ns : List Nat} {i : Nat} (h : i < ns.prod) :
    InBounds (unflatten ns i) ns := by
  induction ns generalizing i with
  | nil => simp [unflatten]
  | cons n ns ih =>
      rw [List.prod_cons] at h
      have hpos : 0 < ns.prod := Nat.pos_of_mul_pos_left (Nat.zero_lt_of_lt h)
      simp only [unflatten, inBounds_cons]
      exact ⟨(Nat.div_lt_iff_lt_mul hpos).2 h, ih (Nat.mod_lt i hpos)⟩

theorem flatten_lt {idx ns : List Nat} (h : InBounds idx ns) :
    flatten ns idx < ns.prod := by
  induction h with
  | nil => simp [flatten]
  | @cons i n idx ns hi _ ih =>
      have hstep : (i + 1) * ns.prod ≤ n * ns.prod := Nat.mul_le_mul_right _ hi
      simp only [flatten, List.prod_cons]
      rw [Nat.add_mul] at hstep
      omega

theorem unflatten_flatten {idx ns : List Nat} (h : InBounds idx ns) :
    unflatten ns (flatten ns idx) = idx := by
  induction h with
  | nil => simp [unflatten]
  | @cons i n idx ns _ ht ih =>
      have hlt := flatten_lt ht
      have hpos := Nat.zero_lt_of_lt hlt
      simp only [flatten, unflatten]
      rw [Nat.mul_comm i, Nat.mul_add_div hpos, Nat.div_eq_of_lt hlt,
        Nat.mul_add_mod, Nat.mod_eq_of_lt hlt, ih, Nat.add_zero]

theorem flatten_unflatten {ns : List Nat} {i : Nat} (h : i < ns.prod) :
    flatten ns (unflatten ns i) = i := by
  induction ns generalizing i with
  | nil => simp at h; simp [flatten, h]
  | cons n ns ih =>
      rw [List.prod_cons] at h
      have hpos : 0 < ns.prod := Nat.pos_of_mul_pos_left (Nat.zero_lt_of_lt h)
      simp only [flatten, unflatten, ih (Nat.mod_lt i hpos)]
      exact Nat.div_add_mod' i ns.prod

/-- Consecutive runs of length `b` tile the first `a * b` naturals. -/
theorem range_mul (a b : Nat) :
    List.range (a * b) =
      (List.range a).flatMap fun i => (List.range b).map (i * b + ·) := by
  induction a with
  | zero => simp
  | succ a ih =>
      rw [Nat.succ_mul, List.range_add, ih, List.range_succ, List.flatMap_append]
      simp

theorem indices_eq_map_unflatten (ns : List Nat) :
    indices ns = (List.range ns.prod).map (unflatten ns) := by
  induction ns with
  | nil => rfl
  | cons n ns ih =>
      rw [List.prod_cons, range_mul, List.map_flatMap, indices]
      refine List.flatMap_congr fun i _ => ?_
      rw [ih, List.map_map, List.map_map]
      refine List.map_congr_left fun j hj => ?_
      have hj := List.mem_range.1 hj
      have hpos := Nat.zero_lt_of_lt hj
      simp only [Function.comp_apply, unflatten]
      rw [Nat.mul_comm i, Nat.mul_add_div hpos, Nat.div_eq_of_lt hj,
        Nat.mul_add_mod, Nat.mod_eq_of_lt hj, Nat.add_zero]

theorem map_flatten_indices (ns : List Nat) :
    (indices ns).map (flatten ns) = List.range ns.prod := by
  rw [indices_eq_map_unflatten, List.map_map]
  conv_rhs => rw [← List.map_id (List.range ns.prod)]
  exact List.map_congr_left fun i hi => flatten_unflatten (List.mem_range.1 hi)

section Points

variable [AddCommMonoid M] [AddCommMonoid N]

/-- The point at which the axes place a multi-index. -/
def dot : List (Axis M) → List Nat → M
  | a :: axes, i :: idx => i • a.stride + dot axes idx
  | _, _ => 0

@[simp] theorem dot_nil (idx : List Nat) : dot ([] : List (Axis M)) idx = 0 := by
  cases idx <;> rfl

@[simp] theorem dot_cons (a : Axis M) (axes : List (Axis M)) (i : Nat)
    (idx : List Nat) :
    dot (a :: axes) (i :: idx) = i • a.stride + dot axes idx := rfl

theorem dot_append {xs ys : List (Axis M)} {is js : List Nat}
    (h : is.length = xs.length) :
    dot (xs ++ ys) (is ++ js) = dot xs is + dot ys js := by
  induction xs generalizing is with
  | nil => cases is <;> simp_all
  | cons a xs ih =>
      cases is with
      | nil => simp at h
      | cons i is =>
          simp only [List.cons_append, dot_cons, ih (Nat.succ.inj h), add_assoc]

/-- Every point of the space with its multiplicity, in C order. -/
def enumerate (axes : List (Axis M)) : List M :=
  (indices (sizes axes)).map (dot axes)

@[simp] theorem enumerate_nil : enumerate ([] : List (Axis M)) = [0] := rfl

theorem enumerate_cons (a : Axis M) (axes : List (Axis M)) :
    enumerate (a :: axes) =
      (List.range a.size).flatMap fun i =>
        (enumerate axes).map (i • a.stride + ·) := by
  simp [enumerate, indices, List.map_flatMap, Function.comp_def]

theorem length_enumerate (axes : List (Axis M)) :
    (enumerate axes).length = (sizes axes).prod := by
  rw [enumerate, List.length_map, length_indices]

/-- A homomorphism of strides moves every point of the space. -/
theorem enumerate_map (f : M →+ N) (axes : List (Axis M)) :
    enumerate (axes.map fun a => ⟨a.size, f a.stride⟩) = (enumerate axes).map f := by
  induction axes with
  | nil => simp
  | cons a axes ih =>
      simp only [List.map_cons, enumerate_cons, ih, List.map_flatMap, List.map_map,
        Function.comp_def, map_add, map_nsmul]

/-- An axis of size one adds nothing. -/
theorem enumerate_cons_one {a : Axis M} (h : a.size = 1) (axes : List (Axis M)) :
    enumerate (a :: axes) = enumerate axes := by
  simp [enumerate_cons, h]

/-- Dropping axes of size one keeps the enumeration, order included. -/
theorem enumerate_filter_ne_one (axes : List (Axis M)) :
    enumerate (axes.filter fun a => decide (a.size ≠ 1)) = enumerate axes := by
  induction axes with
  | nil => rfl
  | cons a axes ih =>
      by_cases h : a.size = 1
      · rw [List.filter_cons_of_neg (by simp [h]), ih, enumerate_cons_one h]
      · rw [List.filter_cons_of_pos (by simp [h]), enumerate_cons, enumerate_cons, ih]

/-- Two neighbouring axes whose outer stride spans the inner axis are one axis. -/
theorem enumerate_merge (n m : Nat) (s : M) (axes : List (Axis M)) :
    enumerate (⟨n, m • s⟩ :: ⟨m, s⟩ :: axes) = enumerate (⟨n * m, s⟩ :: axes) := by
  simp only [enumerate_cons, range_mul, List.flatMap_assoc, List.map_flatMap,
    List.flatMap_map, List.map_map]
  refine List.flatMap_congr fun i _ => List.flatMap_congr fun j _ => ?_
  refine List.map_congr_left fun x _ => ?_
  simp only [Function.comp_apply, add_smul, mul_smul, add_assoc]

/-- An innermost axis is walked at every point of the outer ones. -/
theorem enumerate_append_singleton (axes : List (Axis M)) (a : Axis M) :
    enumerate (axes ++ [a]) =
      (enumerate axes).flatMap fun x => (List.range a.size).map fun i => x + i • a.stride := by
  induction axes with
  | nil => simp [enumerate_cons, List.map_eq_flatMap]
  | cons b axes ih =>
      simp only [List.cons_append, enumerate_cons, ih, List.flatMap_assoc,
        List.map_flatMap, List.map_map, List.flatMap_map, Function.comp_def, add_assoc]

/-- The points of the space as a multiset, which forgets the order of the axes. -/
def points (axes : List (Axis M)) : Multiset M :=
  (enumerate axes : Multiset M)

theorem points_cons (a : Axis M) (axes : List (Axis M)) :
    points (a :: axes) =
      (Multiset.range a.size).bind fun i => (points axes).map (i • a.stride + ·) := by
  simp only [points, enumerate_cons, Multiset.range, Multiset.map_coe, Multiset.coe_bind]

theorem points_perm {xs ys : List (Axis M)} (h : xs.Perm ys) : points xs = points ys := by
  induction h with
  | nil => rfl
  | cons a _ ih => rw [points_cons, points_cons, ih]
  | swap a b axes =>
      simp only [points_cons, Multiset.map_bind, Multiset.map_map]
      rw [Multiset.bind_bind]
      refine Multiset.bind_congr fun i _ => Multiset.bind_congr fun j _ => ?_
      refine Multiset.map_congr rfl fun x _ => ?_
      simp only [Function.comp_apply]
      rw [add_left_comm]
  | trans _ _ ih₁ ih₂ => exact ih₁.trans ih₂

theorem enumerate_perm {xs ys : List (Axis M)} (h : xs.Perm ys) :
    (enumerate xs).Perm (enumerate ys) :=
  Multiset.coe_eq_coe.1 (points_perm h)

/-- Distinct multi-indices have distinct points exactly when no point repeats. -/
theorem nodup_enumerate_iff {axes : List (Axis M)} :
    (enumerate axes).Nodup ↔
      ∀ i, InBounds i (sizes axes) → ∀ j, InBounds j (sizes axes) →
        dot axes i = dot axes j → i = j := by
  rw [enumerate, List.nodup_map_iff_inj_on (indices_nodup _)]
  simp only [mem_indices]

theorem mem_enumerate {axes : List (Axis M)} {x : M} :
    x ∈ enumerate axes ↔ ∃ idx, InBounds idx (sizes axes) ∧ dot axes idx = x := by
  simp [enumerate, mem_indices]

/-- The C-order enumeration reads each position off by division. -/
theorem enumerate_eq_map_range (axes : List (Axis M)) :
    enumerate axes =
      (List.range (sizes axes).prod).map fun i =>
        dot axes (unflatten (sizes axes) i) := by
  rw [enumerate, indices_eq_map_unflatten, List.map_map]
  rfl

/-- Decoding of a position by remainders, innermost axis first. -/
def decode : List (Axis M) → Nat → M
  | [], _ => 0
  | a :: axes, i => (i % a.size) • a.stride + decode axes (i / a.size)

theorem decode_append (xs ys : List (Axis M)) (i : Nat) :
    decode (xs ++ ys) i = decode xs i + decode ys (i / (sizes xs).prod) := by
  induction xs generalizing i with
  | nil => simp [decode]
  | cons a xs ih =>
      simp only [List.cons_append, decode, ih, sizes_cons, List.prod_cons,
        Nat.div_div_eq_div_mul, add_assoc]

theorem decode_mod (axes : List (Axis M)) (i : Nat) :
    decode axes (i % (sizes axes).prod) = decode axes i := by
  induction axes generalizing i with
  | nil => rfl
  | cons a axes ih =>
      simp only [decode, sizes_cons, List.prod_cons]
      rw [Nat.mod_mul_right_mod, Nat.mod_mul_right_div_self, ih]

/-- Decoding innermost first agrees with the C-order coordinates. -/
theorem decode_reverse {axes : List (Axis M)} {i : Nat}
    (h : i < (sizes axes).prod) :
    decode axes.reverse i = dot axes (unflatten (sizes axes) i) := by
  induction axes generalizing i with
  | nil => rfl
  | cons a axes ih =>
      rw [sizes_cons, List.prod_cons] at h
      have hpos : 0 < (sizes axes).prod :=
        Nat.pos_of_mul_pos_left (Nat.zero_lt_of_lt h)
      have hprod : (sizes axes.reverse).prod = (sizes axes).prod := by
        rw [sizes_reverse, List.prod_reverse]
      have hlead : i / (sizes axes).prod % a.size = i / (sizes axes).prod :=
        Nat.mod_eq_of_lt ((Nat.div_lt_iff_lt_mul hpos).2 h)
      have htail := ih (Nat.mod_lt i hpos)
      rw [← hprod, decode_mod, hprod] at htail
      rw [List.reverse_cons, decode_append, htail, hprod]
      simp only [decode, add_zero, hlead, sizes_cons, unflatten, dot_cons]
      exact add_comm _ _

/-- The C-order enumeration, decoded by remainders. -/
theorem enumerate_eq_map_decode (axes : List (Axis M)) :
    enumerate axes = (List.range (sizes axes).prod).map (decode axes.reverse) := by
  rw [enumerate_eq_map_range]
  refine List.map_congr_left fun i hi => ?_
  rw [decode_reverse (List.mem_range.1 hi)]

end Points

end StridedSpace
