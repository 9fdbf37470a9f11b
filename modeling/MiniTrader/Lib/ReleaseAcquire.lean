import Mathlib.Order.Nat
import Mathlib.Order.BoundedOrder.Lattice

/-!
# Release and acquire

Threads that share plain cells and atomic variables. What a thread knows is a *view*: how many of
the accesses to each cell have happened before, and from which value of each atomic variable on a
load may read. A release store publishes the view of the thread together with the value, and an
acquire load that reads the value takes the view over. A relaxed load takes the value only.

An access to a plain cell is a data race if there has been an access the thread does not know of.
Reads count as accesses too, which is right for reads that move the value out. So a run without
races is one in which the accesses to each cell are ordered by what happens before what, and what a
cell contains does not depend on the thread that looks.

Loads of atomic variables may be old: the position of the value is a parameter of the load. Stores
are put at the end, which is where they belong if a variable is written by one thread.

## Main definitions

* `View`, `Memory`
* `loadRelaxed`, `loadAcquire`, `storeRelease`, `access`
* `Valid` — views speak of values that exist

## Main results

* `Valid.loadRelaxed`, `Valid.loadAcquire`, `Valid.storeRelease`, `Valid.access`
-/

namespace MiniTrader

namespace ReleaseAcquire

variable {ι κ τ A V : Type}

/-- What is at a position of a list that has grown. -/
theorem of_getElem?_concat {α : Type} {l : List α} {x y : α} {p : ℕ}
    (h : (l ++ [x])[p]? = some y) : l[p]? = some y ∨ p = l.length ∧ y = x := by
  rcases Nat.lt_or_ge p l.length with hp | hp
  · rw [List.getElem?_append_left hp] at h
    exact Or.inl h
  · obtain ⟨hlt, -⟩ := List.getElem?_eq_some_iff.mp h
    rw [List.length_append, List.length_singleton] at hlt
    rw [List.getElem?_append_right hp] at h
    exact Or.inr ⟨by omega, List.mem_singleton.mp (List.mem_of_getElem? h)⟩

/-- How many accesses to each cell, and which position of each atomic variable. -/
abbrev View (ι κ : Type) := (ι → ℕ) × (κ → ℕ)

/-- The view that knows of the first accesses to one cell. -/
def View.cell [DecidableEq ι] (i : ι) (n : ℕ) : View ι κ := (Function.update ⊥ i n, ⊥)

/-- The view that knows of one value of one atomic variable. -/
def View.atom [DecidableEq κ] (k : κ) (p : ℕ) : View ι κ := (⊥, Function.update ⊥ k p)

/-- The memory, with what each thread knows of it. -/
structure Memory (ι κ τ A V : Type) where
  /-- The values of each atomic variable, oldest first, each with the view it was released with. -/
  atoms : κ → List (A × View ι κ)
  /-- How often each plain cell has been accessed. -/
  accesses : ι → ℕ
  /-- What the last access has left in it. -/
  contents : ι → V
  views : τ → View ι κ
  /-- There has been a data race. -/
  raced : Bool

namespace Memory

/-- Before the threads start. -/
def init (start : κ → A) (contents : ι → V) : Memory ι κ τ A V where
  atoms k := [(start k, ⊥)]
  accesses _ := 0
  contents := contents
  views _ := ⊥
  raced := false

variable {m m' : Memory ι κ τ A V} {t u : τ} {i j : ι} {k l : κ} {p : ℕ} {a : A} {v : V}
  {w : View ι κ}

/-! ### What the operations do -/

section

variable [DecidableEq τ]

/-- The thread takes a view over. -/
def learn (t : τ) (w : View ι κ) (m : Memory ι κ τ A V) : Memory ι κ τ A V :=
  { m with views := Function.update m.views t (m.views t ⊔ w) }

@[simp] theorem atoms_learn : (m.learn t w).atoms = m.atoms := rfl

@[simp] theorem accesses_learn : (m.learn t w).accesses = m.accesses := rfl

@[simp] theorem contents_learn : (m.learn t w).contents = m.contents := rfl

@[simp] theorem raced_learn : (m.learn t w).raced = m.raced := rfl

@[simp] theorem views_learn_self : (m.learn t w).views t = m.views t ⊔ w :=
  Function.update_self ..

theorem views_learn_of_ne (h : u ≠ t) : (m.learn t w).views u = m.views u :=
  Function.update_of_ne h ..

end

section

variable [DecidableEq κ] [DecidableEq τ]

/-- A load with `memory_order_relaxed`, of the value at a position. -/
def loadRelaxed (t : τ) (k : κ) (p : ℕ) (m : Memory ι κ τ A V) :
    Option (A × Memory ι κ τ A V) :=
  match (m.atoms k)[p]? with
  | none => none
  | some (a, _) => if (m.views t).2 k ≤ p then some (a, m.learn t (.atom k p)) else none

/-- A load with `memory_order_acquire`, of the value at a position. -/
def loadAcquire (t : τ) (k : κ) (p : ℕ) (m : Memory ι κ τ A V) :
    Option (A × Memory ι κ τ A V) :=
  match (m.atoms k)[p]? with
  | none => none
  | some (a, w) => if (m.views t).2 k ≤ p then some (a, m.learn t (w ⊔ .atom k p)) else none

/-- What the thread knows once its store is done. -/
def released (t : τ) (k : κ) (m : Memory ι κ τ A V) : View ι κ :=
  m.views t ⊔ .atom k (m.atoms k).length

/-- A store with `memory_order_release`. -/
def storeRelease (t : τ) (k : κ) (a : A) (m : Memory ι κ τ A V) : Memory ι κ τ A V :=
  { m with
    atoms := Function.update m.atoms k (m.atoms k ++ [(a, m.released t k)])
    views := Function.update m.views t (m.released t k) }

theorem of_loadRelaxed_eq_some (h : m.loadRelaxed t k p = some (a, m')) :
    ∃ w, (m.atoms k)[p]? = some (a, w) ∧ (m.views t).2 k ≤ p ∧ m' = m.learn t (.atom k p) := by
  unfold loadRelaxed at h
  split at h
  · cases h
  · rename_i a w hread
    split at h
    · cases h
      exact ⟨w, hread, ‹_›, rfl⟩
    · cases h

theorem of_loadAcquire_eq_some (h : m.loadAcquire t k p = some (a, m')) :
    ∃ w, (m.atoms k)[p]? = some (a, w) ∧ (m.views t).2 k ≤ p ∧
      m' = m.learn t (w ⊔ .atom k p) := by
  unfold loadAcquire at h
  split at h
  · cases h
  · rename_i a w hread
    split at h
    · cases h
      exact ⟨w, hread, ‹_›, rfl⟩
    · cases h

@[simp] theorem accesses_storeRelease : (m.storeRelease t k a).accesses = m.accesses := rfl

@[simp] theorem contents_storeRelease : (m.storeRelease t k a).contents = m.contents := rfl

@[simp] theorem raced_storeRelease : (m.storeRelease t k a).raced = m.raced := rfl

@[simp] theorem views_storeRelease_self : (m.storeRelease t k a).views t = m.released t k :=
  Function.update_self ..

theorem views_storeRelease_of_ne (h : u ≠ t) : (m.storeRelease t k a).views u = m.views u :=
  Function.update_of_ne h ..

@[simp] theorem atoms_storeRelease_self :
    (m.storeRelease t k a).atoms k = m.atoms k ++ [(a, m.released t k)] :=
  Function.update_self ..

theorem atoms_storeRelease_of_ne (h : l ≠ k) : (m.storeRelease t k a).atoms l = m.atoms l :=
  Function.update_of_ne h ..

end

section

variable [DecidableEq ι] [DecidableEq τ]

/-- An access to a plain cell that leaves `v` in it. -/
def access (t : τ) (i : ι) (v : V) (m : Memory ι κ τ A V) : Memory ι κ τ A V :=
  { m with
    accesses := Function.update m.accesses i (m.accesses i + 1)
    contents := Function.update m.contents i v
    views := Function.update m.views t (m.views t ⊔ .cell i (m.accesses i + 1))
    raced := m.raced || decide ((m.views t).1 i < m.accesses i) }

@[simp] theorem atoms_access : (m.access t i v).atoms = m.atoms := rfl

theorem accesses_access : (m.access t i v).accesses j =
    if j = i then m.accesses i + 1 else m.accesses j :=
  Function.update_apply ..

theorem contents_access : (m.access t i v).contents j = if j = i then v else m.contents j :=
  Function.update_apply ..

@[simp] theorem views_access_self :
    (m.access t i v).views t = m.views t ⊔ .cell i (m.accesses i + 1) :=
  Function.update_self ..

theorem views_access_of_ne (h : u ≠ t) : (m.access t i v).views u = m.views u :=
  Function.update_of_ne h ..

/-- **No race**: the thread knows of every access to the cell. -/
theorem raced_access (h : m.raced = false) (hknown : m.accesses i ≤ (m.views t).1 i) :
    (m.access t i v).raced = false := by
  show (m.raced || decide ((m.views t).1 i < m.accesses i)) = false
  rw [h, decide_eq_false (not_lt.mpr hknown)]
  rfl

end

/-! ### Views speak of values that exist -/

/-- The view knows of no value that has not been stored. -/
def Within (w : View ι κ) (m : Memory ι κ τ A V) : Prop := ∀ k, w.2 k < (m.atoms k).length

/-- So do all views. -/
structure Valid (m : Memory ι κ τ A V) : Prop where
  views : ∀ t, Within (m.views t) m
  atoms : ∀ {k : κ} {p : ℕ} {a : A} {w : View ι κ}, (m.atoms k)[p]? = some (a, w) → Within w m

theorem valid_init (start : κ → A) (contents : ι → V) :
    (init start contents : Memory ι κ τ A V).Valid where
  views _ _ := Nat.one_pos
  atoms h _ := by
    obtain ⟨-, rfl⟩ := Prod.mk.inj (List.mem_singleton.mp (List.mem_of_getElem? h))
    exact Nat.one_pos

theorem Within.sup {w' : View ι κ} (h : Within w m) (h' : Within w' m) : Within (w ⊔ w') m :=
  fun k => max_lt (h k) (h' k)

theorem within_atom [DecidableEq κ] (h : p < (m.atoms k).length) (hm : m.Valid) (t : τ) :
    Within (.atom k p) m := by
  intro l
  show Function.update (⊥ : κ → ℕ) k p l < _
  rw [Function.update_apply]
  split
  · rename_i hl
    rwa [hl]
  · exact (Nat.zero_le _).trans_lt (hm.views t l)

theorem Valid.learn [DecidableEq τ] (hm : m.Valid) (hw : Within w m) : (m.learn t w).Valid where
  views u := by
    by_cases hu : u = t
    · subst hu
      rw [views_learn_self]
      exact (hm.views u).sup hw
    · rw [views_learn_of_ne hu]
      exact hm.views u
  atoms h := hm.atoms h

section

variable [DecidableEq κ] [DecidableEq τ]

theorem Valid.loadRelaxed (hm : m.Valid) (h : m.loadRelaxed t k p = some (a, m')) : m'.Valid := by
  obtain ⟨w, hread, -, rfl⟩ := of_loadRelaxed_eq_some h
  obtain ⟨hp, -⟩ := List.getElem?_eq_some_iff.mp hread
  exact hm.learn (within_atom hp hm t)

theorem Valid.loadAcquire (hm : m.Valid) (h : m.loadAcquire t k p = some (a, m')) : m'.Valid := by
  obtain ⟨w, hread, -, rfl⟩ := of_loadAcquire_eq_some h
  obtain ⟨hp, -⟩ := List.getElem?_eq_some_iff.mp hread
  exact hm.learn ((hm.atoms hread).sup (within_atom hp hm t))

/-- What was within the memory still is. -/
theorem Within.storeRelease (h : Within w m) : Within w (m.storeRelease t k a) := by
  intro l
  refine (h l).trans_le ?_
  by_cases hl : l = k
  · subst hl
    rw [atoms_storeRelease_self, List.length_append]
    exact Nat.le_add_right _ _
  · rw [atoms_storeRelease_of_ne hl]

theorem Valid.released (hm : m.Valid) : Within (m.released t k) (m.storeRelease t k a) := by
  refine (hm.views t).storeRelease.sup fun l => ?_
  show Function.update (⊥ : κ → ℕ) k _ l < _
  rw [Function.update_apply]
  split
  · rename_i hl
    rw [hl, atoms_storeRelease_self, List.length_append]
    exact Nat.lt_succ_self _
  · exact (Nat.zero_le _).trans_lt ((hm.views t).storeRelease l)

theorem Valid.storeRelease (hm : m.Valid) : (m.storeRelease t k a).Valid where
  views u := by
    by_cases hu : u = t
    · subst hu
      rw [views_storeRelease_self]
      exact hm.released
    · rw [views_storeRelease_of_ne hu]
      exact (hm.views u).storeRelease
  atoms {l p b w} h := by
    by_cases hl : l = k
    · subst hl
      rw [atoms_storeRelease_self] at h
      rcases of_getElem?_concat h with h | ⟨-, h⟩
      · exact (hm.atoms h).storeRelease
      · cases h
        exact hm.released
    · rw [atoms_storeRelease_of_ne hl] at h
      exact (hm.atoms h).storeRelease

end

theorem Valid.access [DecidableEq ι] [DecidableEq τ] (hm : m.Valid) : (m.access t i v).Valid where
  views u := by
    by_cases hu : u = t
    · subst hu
      rw [views_access_self]
      exact Within.sup (hm.views u) fun l => (Nat.zero_le _).trans_lt (hm.views u l)
    · rw [views_access_of_ne hu]
      exact hm.views u
  atoms h := hm.atoms h

end Memory

end ReleaseAcquire

end MiniTrader
