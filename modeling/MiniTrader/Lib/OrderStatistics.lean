import Mathlib.Data.List.Sort

/-!
# Order statistics

The `k`-th smallest element of a list, counted from one and with repetitions. In a sorted list the
elements with a property that smaller elements inherit come first, so whether the `k`-th smallest
has the property is a matter of how many have it. That one fact is all a proof about a cumulative
count needs to know of the sort.

## Main results

* `exists_kthSmallest` — the `k`-th smallest element, and what it has in common with how many
-/

namespace OrderStatistics

variable {α : Type} [LinearOrder α] {p : α → Bool} {xs : List α} {k : ℕ}

/-- The `k`-th smallest element. -/
def kthSmallest (xs : List α) (k : ℕ) : Option α := (xs.mergeSort fun x y => x ≤ y)[k - 1]?

/-- The property is inherited by smaller elements. -/
def Inherited (p : α → Bool) : Prop := ∀ ⦃x y⦄, x ≤ y → p y = true → p x = true

/-- In a sorted list the elements with an inherited property come first. -/
theorem getElem_iff_lt_countP (hp : Inherited p) (hs : xs.Pairwise (· ≤ ·)) {i : ℕ}
    (hi : i < xs.length) : p xs[i] = true ↔ i < xs.countP p := by
  induction xs generalizing i with
  | nil => cases hi
  | cons x xs ih =>
    obtain ⟨hx, hs⟩ := List.pairwise_cons.mp hs
    by_cases hpx : p x = true
    · rw [List.countP_cons_of_pos hpx]
      cases i with
      | zero => simpa using hpx
      | succ i =>
        have := ih hs (Nat.lt_of_succ_lt_succ hi)
        rw [List.getElem_cons_succ, this]
        omega
    · -- no later element has the property either
      have hnone : xs.countP p = 0 :=
        List.countP_eq_zero.mpr fun y hy hpy => hpx (hp (hx y hy) hpy)
      rw [List.countP_cons_of_neg hpx, hnone]
      refine iff_of_false (fun hpi => hpx (hp ?_ hpi)) (Nat.not_lt_zero _)
      cases i with
      | zero => exact le_rfl
      | succ i => exact hx _ (List.getElem_mem _)

/-- **The `k`-th smallest element** has an inherited property just when `k` elements have it. -/
theorem exists_kthSmallest (hpos : 0 < k) (hk : k ≤ xs.length) : ∃ x, kthSmallest xs k = some x ∧
    x ∈ xs ∧ ∀ p : α → Bool, Inherited p → (p x = true ↔ k ≤ xs.countP p) := by
  have hperm := List.mergeSort_perm xs fun x y : α => decide (x ≤ y)
  have hsorted : (xs.mergeSort fun x y => decide (x ≤ y)).Pairwise (· ≤ ·) := by
    refine (List.pairwise_mergeSort (fun a b c => ?_) (fun a b => ?_) xs).imp fun h => ?_
    · simpa using fun hab hbc => le_trans hab hbc
    · simpa using le_total a b
    · simpa using h
  have hlt : k - 1 < (xs.mergeSort fun x y => decide (x ≤ y)).length := by
    rw [hperm.length_eq]
    omega
  refine ⟨_, List.getElem?_eq_getElem hlt, hperm.mem_iff.mp (List.getElem_mem hlt), fun p hp => ?_⟩
  rw [getElem_iff_lt_countP hp hsorted hlt, hperm.countP_eq]
  omega

end OrderStatistics
