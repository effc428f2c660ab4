/-
Stable orders.  A listing is in the order of a key when the keys descend and entries with
the same key stand as they were given; there is one such listing only.
-/
import Mathlib

namespace StableOrder

universe u v

variable {A : Type u} {K : Type v} [LinearOrder K] {key : A → K} {given listed : List A}

/-- The entries with one key, in the order in which they stand. -/
def withKey (key : A → K) (k : K) (entries : List A) : List A :=
  entries.filter fun a => decide (key a = k)

theorem mem_withKey {k : K} {a : A} : a ∈ withKey key k listed ↔ a ∈ listed ∧ key a = k := by
  rw [withKey, List.mem_filter, decide_eq_true_iff]

theorem withKey_cons_self (a : A) (entries : List A) :
    withKey key (key a) (a :: entries) = a :: withKey key (key a) entries :=
  List.filter_cons_of_pos (decide_eq_true rfl)

theorem withKey_cons_ne {k : K} {a : A} (h : key a ≠ k) (entries : List A) :
    withKey key k (a :: entries) = withKey key k entries :=
  List.filter_cons_of_neg fun hk => h (of_decide_eq_true hk)

/-- A listing of the entries given by descending keys. -/
structure Listing (key : A → K) (given listed : List A) : Prop where
  descending : listed.Pairwise fun a b => key b ≤ key a
  stable : ∀ k, withKey key k listed = withKey key k given

theorem Listing.mem_iff (h : Listing key given listed) {a : A} : a ∈ listed ↔ a ∈ given := by
  have hlisted : a ∈ withKey key (key a) listed ↔ a ∈ listed := by simp [mem_withKey]
  have hgiven : a ∈ withKey key (key a) given ↔ a ∈ given := by simp [mem_withKey]
  rw [← hlisted, ← hgiven, h.stable]

/-- What stands in order already is not moved. -/
theorem Listing.eq (h : Listing key given listed)
    (hgiven : given.Pairwise fun a b => key b ≤ key a) : listed = given := by
  induction listed generalizing given with
  | nil =>
      symm
      apply List.eq_nil_iff_forall_not_mem.2
      intro a ha
      cases h.mem_iff.2 ha
  | cons a as ih =>
      have ha : a ∈ given := h.mem_iff.1 List.mem_cons_self
      cases given with
      | nil => cases ha
      | cons b bs =>
          obtain ⟨hfirst, hrest⟩ := List.pairwise_cons.1 h.descending
          obtain ⟨hfirst', hrest'⟩ := List.pairwise_cons.1 hgiven
          have hkey : key a = key b := by
            apply le_antisymm
            · rcases List.mem_cons.1 ha with rfl | ha
              · exact le_rfl
              · exact hfirst' a ha
            · have hb : b ∈ a :: as := h.mem_iff.2 List.mem_cons_self
              rcases List.mem_cons.1 hb with rfl | hb
              · exact le_rfl
              · exact hfirst b hb
          have hhead := h.stable (key a)
          rw [withKey_cons_self, hkey, withKey_cons_self] at hhead
          obtain rfl := (List.cons.inj hhead).1
          congr 1
          apply ih ⟨hrest, fun k => ?_⟩ hrest'
          by_cases hk : key a = k
          · subst hk
            exact (List.cons.inj hhead).2
          · have := h.stable k
            rwa [withKey_cons_ne hk, withKey_cons_ne hk] at this

theorem Listing.unique {listed' : List A} (h : Listing key given listed)
    (h' : Listing key given listed') : listed = listed' := by
  have hstable : ∀ k, withKey key k listed = withKey key k listed' := fun k =>
    (h.stable k).trans (h'.stable k).symm
  exact Listing.eq ⟨h.descending, hstable⟩ h'.descending

end StableOrder
