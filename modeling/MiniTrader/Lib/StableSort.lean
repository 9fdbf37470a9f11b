import Mathlib.Data.List.Sort
import Mathlib.Data.List.TakeWhile

/-!
# Stable sorting by a key

A list sorted by a key is determined by its *buckets*: the sublists of the elements with one given
key. A stable sort keeps every bucket as it was. So to show that some structure with one queue per
key holds a stably sorted list, it is enough to compare the queues with the buckets.

## Main results

* `filter_insertionSort` — `List.insertionSort` is stable
* `eq_of_filter_key_eq` — a sorted list is determined by its buckets
* `filter_insertionSort_comm` — leaving elements out commutes with sorting
* `filter_flatMap_of_key` — the buckets of a concatenation of queues
* `mem_takeWhile_iff` — `takeWhile` on a sorted list, for a condition closed under "earlier"
-/

namespace StableSort

variable {α β κ : Type}

/-- Elements that may stand in either order keep the order they have. -/
theorem filter_insertionSort (r : α → α → Prop) [DecidableRel r] (p : α → Bool) (l : List α)
    (h : ∀ a b, p a → p b → r a b) : (l.insertionSort r).filter p = l.filter p := by
  have hpw : (l.filter p).Pairwise r := by
    rw [List.pairwise_iff_forall_sublist]
    intro a b hab
    have ha := (List.mem_filter.mp (hab.subset (List.mem_cons_self))).2
    have hb := (List.mem_filter.mp (hab.subset (List.mem_cons_of_mem _ List.mem_cons_self))).2
    exact h a b ha hb
  have hsub := (List.sublist_insertionSort hpw List.filter_sublist).filter p
  rw [List.filter_filter] at hsub
  simp only [Bool.and_self] at hsub
  exact (hsub.eq_of_length ((List.perm_insertionSort r l).filter p).length_eq.symm).symm

/-- A list sorted by a key is determined by its buckets. -/
theorem eq_of_filter_key_eq [LinearOrder κ] (key : α → κ) :
    ∀ {l l' : List α}, l.Pairwise (fun a b => key a ≤ key b) →
      l'.Pairwise (fun a b => key a ≤ key b) →
      (∀ k, l.filter (fun a => key a = k) = l'.filter (fun a => key a = k)) → l = l' := by
  have hmem : ∀ {l l' : List α}, (∀ k, l.filter (fun a => key a = k) =
      l'.filter (fun a => key a = k)) → ∀ a ∈ l, a ∈ l' := by
    intro l l' h a ha
    have : a ∈ l'.filter (fun b => key b = key a) := by
      rw [← h]; exact List.mem_filter.mpr ⟨ha, by simp⟩
    exact (List.mem_filter.mp this).1
  intro l
  induction l with
  | nil =>
    intro l' _ _ h
    cases l' with
    | nil => rfl
    | cons b l' => exact absurd (hmem (fun k => (h k).symm) b List.mem_cons_self) (by simp)
  | cons a l ih =>
    intro l' hl hl' h
    cases l' with
    | nil => exact absurd (hmem h a List.mem_cons_self) (by simp)
    | cons b l' =>
      -- either head is the least, so they have the same key and lead the same bucket
      have hab : key a = key b := by
        apply le_antisymm
        · rcases List.mem_cons.mp (hmem (fun k => (h k).symm) b List.mem_cons_self) with hb | hb
          · rw [hb]
          · exact List.rel_of_pairwise_cons hl hb
        · rcases List.mem_cons.mp (hmem h a List.mem_cons_self) with ha | ha
          · rw [ha]
          · exact List.rel_of_pairwise_cons hl' ha
      have hhead := h (key a)
      rw [List.filter_cons_of_pos (by simp), List.filter_cons_of_pos (by simp [hab])] at hhead
      obtain ⟨rfl, -⟩ := List.cons.inj hhead
      rw [ih hl.of_cons hl'.of_cons fun k => ?_]
      have hk := h k
      by_cases hka : key a = k
      · rw [List.filter_cons_of_pos (by simpa using hka),
          List.filter_cons_of_pos (by simpa using hka)] at hk
        exact (List.cons.inj hk).2
      · rwa [List.filter_cons_of_neg (by simpa using hka),
          List.filter_cons_of_neg (by simpa using hka)] at hk

/-- Sorting and leaving elements out can be done in either order. -/
theorem filter_insertionSort_comm [LinearOrder κ] (key : α → κ) (p : α → Bool) (l : List α) :
    (l.insertionSort fun a b => key a ≤ key b).filter p =
      (l.filter p).insertionSort fun a b => key a ≤ key b := by
  -- elements with one key are not moved, whichever of them are looked at
  have hbucket : ∀ (k : κ) (p : α → Bool) (l : List α), (∀ a, p a → key a = k) →
      (l.insertionSort fun a b => key a ≤ key b).filter p = l.filter p := fun k p l hp =>
    filter_insertionSort _ _ l fun a b ha hb => by rw [hp a ha, hp b hb]
  refine eq_of_filter_key_eq key
    (List.Pairwise.filter _ (List.pairwise_insertionSort (fun a b => key a ≤ key b) _))
    (List.pairwise_insertionSort (fun a b => key a ≤ key b) _) fun k => ?_
  rw [List.filter_filter, hbucket k _ l fun a ha => of_decide_eq_true (Bool.and_elim_left ha),
    hbucket k _ _ fun a ha => of_decide_eq_true ha, List.filter_filter]

/-- The buckets of a concatenation of queues, each of which holds one key. -/
theorem filter_flatMap_of_key [DecidableEq κ] [DecidableEq β] (key : α → κ) (queue : β → List α)
    (keyOf : β → κ) (hkey : ∀ j, ∀ a ∈ queue j, key a = keyOf j) {js : List β} (hnd : js.Nodup)
    (hinj : ∀ j j', keyOf j = keyOf j' → j = j') (j : β) :
    (js.flatMap queue).filter (fun a => key a = keyOf j) = if j ∈ js then queue j else [] := by
  induction js with
  | nil => simp
  | cons i js ih =>
    rw [List.nodup_cons] at hnd
    rw [List.flatMap_cons, List.filter_append, ih hnd.2]
    by_cases hij : j = i
    · subst hij
      rw [if_neg hnd.1, if_pos List.mem_cons_self, List.append_nil, List.filter_eq_self]
      exact fun a ha => by simpa using hkey j a ha
    · have hnil : (queue i).filter (fun a => key a = keyOf j) = [] := by
        rw [List.filter_eq_nil_iff]
        intro a ha
        rw [hkey i a ha, decide_eq_true_eq]
        exact fun h => hij (hinj i j h).symm
      rw [hnil, List.nil_append]
      simp [hij]

/-- What `takeWhile` keeps of a sorted list, when the condition passes to earlier elements. -/
theorem mem_takeWhile_iff {r : α → α → Prop} {p : α → Bool} {l : List α} (hl : l.Pairwise r)
    (hp : ∀ a b, r a b → p b → p a) {a : α} : a ∈ l.takeWhile p ↔ a ∈ l ∧ p a := by
  refine ⟨fun h => ⟨(List.takeWhile_prefix p).subset h, List.mem_takeWhile_imp h⟩, ?_⟩
  rintro ⟨ha, hpa⟩
  induction l with
  | nil => cases ha
  | cons b l ih =>
    rcases List.mem_cons.mp ha with rfl | ha
    · rw [List.takeWhile_cons_of_pos hpa]; exact List.mem_cons_self
    · rw [List.takeWhile_cons_of_pos (hp b a (List.rel_of_pairwise_cons hl ha) hpa)]
      exact List.mem_cons_of_mem _ (ih hl.of_cons ha)

end StableSort
