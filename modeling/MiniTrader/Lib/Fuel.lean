import Mathlib.Data.Nat.Notation
import Mathlib.Order.Lattice
import Mathlib.Tactic.Common

/-!
# Fuelled computations and their limits

A loop that need not terminate is written with a fuel argument, and a computation that may reach
undefined behaviour stops with a fault. Both are errors of one `Except`, and the two must not be
confused: running out of fuel says nothing about the program, a fault says everything.

`Converges r res` is what a statement about the program is made of. It says that `res` is the
limit of the fuelled computation `r`: from some fuel on the answer is `res`, and no smaller fuel
gives any *other* answer than "out of fuel". So a converging computation has one outcome, whatever
fuel a caller happens to pick, and a statement about that outcome is a statement about the
unfuelled program.

## Main definitions

* `Stop` — why a computation ended without a value: out of fuel, or a fault
* `Converges` — the limit of a fuelled computation
* `Ensures` — what holds of an answer, and the faults a computation does not end in
* `whileLoop` — `while (guard) body` over `Except`
* `loggedLoop` — the same with a log of what the iterations have done

## Main results

* `Converges.eq_of_ok` — any answer found with some fuel is the limit
* `Converges.bind` — sequencing
* `converges_whileLoop` — the total-correctness rule: an invariant and a variant
* `whileLoop_induction` — the partial-correctness rule: an invariant only, for any one fuel
* `Ensures.bind`, `ensures_whileLoop` — the same, with faults that are excluded
* `map_loggedLoop`, `converges_loggedLoop` — the log changes nothing, and assertions about it
-/

namespace Fuelled

/-- Why a computation ended without a value. -/
inductive Stop (F : Type) where
  | outOfFuel
  | fault (f : F)
  deriving DecidableEq, Repr

variable {F α β σ : Type}

/-- Whether a computation returns a value with a property can be found out by running it. -/
instance decidableExistsOk {r : Except F α} {P : α → Prop} [DecidablePred P] :
    Decidable (∃ a, r = .ok a ∧ P a) :=
  match r with
  | .ok a => decidable_of_iff (P a)
      ⟨fun h => ⟨a, rfl, h⟩, fun ⟨_, h, hp⟩ => by cases h; exact hp⟩
  | .error _ => isFalse fun ⟨_, h, _⟩ => nomatch h

theorem ok_bind (a : α) (f : α → Except (Stop F) β) : (Except.ok a >>= f) = f a := rfl

theorem error_bind (err : Stop F) (f : α → Except (Stop F) β) :
    (Except.error err >>= f) = .error err := rfl

/-- Taking a sequence of two computations apart. -/
theorem exists_of_bind_eq_ok {r : Except (Stop F) α} {f : α → Except (Stop F) β} {b : β}
    (h : r >>= f = .ok b) : ∃ a, r = .ok a ∧ f a = .ok b := by
  cases r with
  | error err => cases h
  | ok a => exact ⟨a, rfl, h⟩

/-- `res` is the outcome of the fuelled computation `r`. The first clause is what makes the
outcome independent of the fuel a caller picks; the second says that it is reached. -/
def Converges (r : ℕ → Except (Stop F) α) (res : Except (Stop F) α) : Prop :=
  (∀ fuel, r fuel = .error .outOfFuel ∨ r fuel = res) ∧ ∃ N, ∀ fuel, N ≤ fuel → r fuel = res

/-- A computation that does not look at its fuel is its own limit. -/
theorem converges_const (res : Except (Stop F) α) : Converges (fun _ => res) res :=
  ⟨fun _ => Or.inr rfl, 0, fun _ _ => rfl⟩

/-- Any answer found with some fuel is the limit. -/
theorem Converges.eq_of_ok {r : ℕ → Except (Stop F) α} {res : Except (Stop F) α}
    (h : Converges r res) {fuel : ℕ} {a : α} (hok : r fuel = .ok a) : res = .ok a := by
  rcases h.1 fuel with hf | hf
  · rw [hf] at hok; cases hok
  · rw [← hf, hok]

/-- There is one limit. -/
theorem Converges.unique {r : ℕ → Except (Stop F) α} {res : Except (Stop F) α} {a : α}
    (h : Converges r res) (h' : Converges r (.ok a)) : res = .ok a := by
  obtain ⟨N, hN⟩ := h'.2
  exact h.eq_of_ok (hN N le_rfl)

/-- What is true of the limit can be found out with any fuel that suffices. -/
theorem Converges.of_exists {r : ℕ → Except (Stop F) α} {a : α} (h : Converges r (.ok a))
    {P : α → Prop} {n : ℕ} (hP : ∃ x, r n = .ok x ∧ P x) {fuel : ℕ} {x : α} (hx : r fuel = .ok x) :
    P x := by
  obtain ⟨y, hy, hPy⟩ := hP
  cases h.eq_of_ok hx
  cases h.eq_of_ok hy
  exact hPy

/-- **Sequencing.** The continuation may look at the fuel as well. -/
theorem Converges.bind {r : ℕ → Except (Stop F) α} {a : α}
    {k : ℕ → α → Except (Stop F) β} {res : Except (Stop F) β}
    (h : Converges r (.ok a)) (hk : Converges (fun fuel => k fuel a) res) :
    Converges (fun fuel => r fuel >>= k fuel) res := by
  refine ⟨fun fuel => ?_, ?_⟩
  · rcases h.1 fuel with hf | hf
    · left; simp only [hf]; rfl
    · simp only [hf]; exact hk.1 fuel
  · obtain ⟨N, hN⟩ := h.2
    obtain ⟨M, hM⟩ := hk.2
    refine ⟨max N M, fun fuel hfuel => ?_⟩
    simp only [hN fuel (le_trans (le_max_left _ _) hfuel)]
    exact hM fuel (le_trans (le_max_right _ _) hfuel)

/-- What is read off the limit. -/
theorem Converges.map {r : ℕ → Except (Stop F) α} {a : α} (f : α → β) (h : Converges r (.ok a)) :
    Converges (fun fuel => (r fuel).map f) (.ok (f a)) := by
  refine ⟨fun fuel => ?_, ?_⟩
  · rcases h.1 fuel with hf | hf
    · left; simp only [hf]; rfl
    · right; simp only [hf]; rfl
  · obtain ⟨N, hN⟩ := h.2
    exact ⟨N, fun fuel hfuel => by simp only [hN fuel hfuel]; rfl⟩

/-- A computation that is what is read off another one. -/
theorem Converges.of_map {r : ℕ → Except (Stop F) α} {r' : ℕ → Except (Stop F) β} {a : α}
    (h : Converges r (.ok a)) (f : α → β) (hmap : ∀ fuel, (r fuel).map f = r' fuel) :
    Converges r' (.ok (f a)) := by
  have he : r' = fun fuel => (r fuel).map f := funext fun fuel => (hmap fuel).symm
  rw [he]
  exact h.map f

/-- A fault ends the sequence. -/
theorem Converges.bind_error {r : ℕ → Except (Stop F) α} {e : Stop F}
    {k : ℕ → α → Except (Stop F) β} (h : Converges r (.error e)) :
    Converges (fun fuel => r fuel >>= k fuel) (.error e) := by
  refine ⟨fun fuel => ?_, ?_⟩
  · rcases h.1 fuel with hf | hf
    · left; simp only [hf]; rfl
    · right; simp only [hf]; rfl
  · obtain ⟨N, hN⟩ := h.2
    exact ⟨N, fun fuel hfuel => by simp only [hN fuel hfuel]; rfl⟩

/-! ### Excluded faults -/

/-- If the computation returns, its value satisfies `P`; it does not end in a fault of `bad`. -/
structure Ensures (bad : F → Prop) (P : α → Prop) (r : Except (Stop F) α) : Prop where
  ok : ∀ {a}, r = .ok a → P a
  fault : ∀ {f}, r = .error (.fault f) → ¬ bad f

section

variable {bad : F → Prop} {P : α → Prop} {Q : β → Prop} {r : Except (Stop F) α}

theorem ensures_ok {a : α} (h : P a) : Ensures bad P (.ok a) where
  ok he := by cases he; exact h
  fault he := by cases he

theorem ensures_outOfFuel : Ensures bad P (.error .outOfFuel) where
  ok he := by cases he
  fault he := by cases he

theorem ensures_fault {f : F} (h : ¬ bad f) : Ensures bad P (.error (.fault f)) where
  ok he := by cases he
  fault he := by cases he; exact h

/-- Partial correctness excludes no fault. -/
theorem ensures_of_ok (h : ∀ {a}, r = .ok a → P a) : Ensures (fun _ => False) P r where
  ok := h
  fault _ := id

theorem Ensures.bind {k : α → Except (Stop F) β} (h : Ensures bad P r)
    (hk : ∀ a, r = .ok a → P a → Ensures bad Q (k a)) : Ensures bad Q (r >>= k) := by
  cases hr : r with
  | ok a => exact hk a hr (h.ok hr)
  | error err =>
    cases err with
    | outOfFuel => exact ensures_outOfFuel
    | fault f => exact ensures_fault (h.fault hr)

theorem Ensures.mono {P' : α → Prop} (h : Ensures bad P r) (hP : ∀ a, P a → P' a) :
    Ensures bad P' r :=
  ⟨fun he => hP _ (h.ok he), h.fault⟩

end

/-! ### While loops -/

/-- `while (guard s) s = body(s);`, run for at most `n` evaluations of the guard. -/
def whileAux (guard : σ → Prop) [DecidablePred guard] (body : σ → Except (Stop F) σ) :
    ℕ → σ → Except (Stop F) σ
  | 0, _ => .error .outOfFuel
  | n + 1, s => if guard s then body s >>= whileAux guard body n else .ok s

/-- A while loop whose body may contain loops of its own: all get the same fuel. -/
def whileLoop (guard : σ → Prop) [DecidablePred guard] (body : ℕ → σ → Except (Stop F) σ)
    (fuel : ℕ) (s : σ) : Except (Stop F) σ :=
  whileAux guard (body fuel) fuel s

section

variable {guard : σ → Prop} [DecidablePred guard]

theorem whileAux_succ_of_guard {body : σ → Except (Stop F) σ} {n : ℕ} {s : σ} (h : guard s) :
    whileAux guard body (n + 1) s = body s >>= whileAux guard body n := by
  rw [whileAux, if_pos h]

theorem whileAux_succ_of_not_guard {body : σ → Except (Stop F) σ} {n : ℕ} {s : σ}
    (h : ¬ guard s) : whileAux guard body (n + 1) s = .ok s := by
  rw [whileAux, if_neg h]

/-- **Partial correctness**, with excluded faults. If the body keeps `I` whenever it returns, a loop
that returns does so in a state with `I` and without the guard. -/
theorem ensures_whileLoop {bad : F → Prop} {body : ℕ → σ → Except (Stop F) σ} {I : σ → Prop}
    {fuel : ℕ} (hstep : ∀ s, I s → guard s → Ensures bad I (body fuel s)) {s : σ} (hs : I s) :
    Ensures bad (fun s' => I s' ∧ ¬ guard s') (whileLoop guard body fuel s) := by
  have key : ∀ n s, I s →
      Ensures bad (fun s' => I s' ∧ ¬ guard s') (whileAux guard (body fuel) n s) := by
    intro n
    induction n with
    | zero => exact fun _ _ => ensures_outOfFuel
    | succ n ih =>
      intro s hs
      by_cases hg : guard s
      · rw [whileAux_succ_of_guard hg]
        exact (hstep s hs hg).bind fun t _ ht => ih t ht
      · rw [whileAux_succ_of_not_guard hg]
        exact ensures_ok ⟨hs, hg⟩
  exact key fuel s hs

/-- Partial correctness alone. -/
theorem whileLoop_induction {body : ℕ → σ → Except (Stop F) σ} {I : σ → Prop} {fuel : ℕ}
    (hstep : ∀ s s', I s → guard s → body fuel s = .ok s' → I s') {s s' : σ} (hs : I s)
    (h : whileLoop guard body fuel s = .ok s') : I s' ∧ ¬ guard s' :=
  (@ensures_whileLoop _ _ _ _ (fun _ => False) _ _ _
    (fun t ht hg => ensures_of_ok fun he => hstep t _ ht hg he) s hs).ok h

/-- What the total-correctness rule proves by induction on the variant, with the two uses of the
fuel kept apart: `fuel` for the body, `n` for the loop. -/
private theorem exists_whileAux {body : ℕ → σ → Except (Stop F) σ} {I : σ → Prop} {μ : σ → ℕ}
    (hstep : ∀ s, I s → guard s →
      ∃ s', Converges (fun fuel => body fuel s) (.ok s') ∧ I s' ∧ μ s' < μ s) :
    ∀ m s, μ s < m → I s → ∃ s', I s' ∧ ¬ guard s' ∧
      (∀ fuel n, whileAux guard (body fuel) n s = .error .outOfFuel ∨
        whileAux guard (body fuel) n s = .ok s') ∧
      ∃ N, ∀ fuel n, N ≤ fuel → N ≤ n → whileAux guard (body fuel) n s = .ok s' := by
  intro m
  induction m with
  | zero => intro s hm; omega
  | succ m ih =>
    intro s hm hs
    by_cases hg : guard s
    · obtain ⟨t, ht, hIt, hμ⟩ := hstep s hs hg
      obtain ⟨s', hIs', hg', hall, N, hN⟩ := ih t (by omega) hIt
      refine ⟨s', hIs', hg', fun fuel n => ?_, ?_⟩
      · cases n with
        | zero => exact Or.inl rfl
        | succ n =>
          rw [whileAux_succ_of_guard hg]
          rcases ht.1 fuel with (hf : body fuel s = _) | (hf : body fuel s = _)
          · left; rw [hf]; rfl
          · rw [hf]; exact hall fuel n
      · obtain ⟨M, hM⟩ := ht.2
        refine ⟨max N M + 1, fun fuel n hfuel hn => ?_⟩
        obtain ⟨n, rfl⟩ : ∃ n', n = n' + 1 := ⟨n - 1, by omega⟩
        have hb : body fuel s = .ok t := hM fuel (by omega)
        rw [whileAux_succ_of_guard hg, hb]
        exact hN fuel n (by omega) (by omega)
    · refine ⟨s, hs, hg, fun fuel n => ?_, 1, fun fuel n _ hn => ?_⟩
      · cases n with
        | zero => exact Or.inl rfl
        | succ n => exact Or.inr (whileAux_succ_of_not_guard hg)
      · obtain ⟨n, rfl⟩ : ∃ n', n = n' + 1 := ⟨n - 1, by omega⟩
        exact whileAux_succ_of_not_guard hg

/-- **Total correctness.** If from every state with the invariant and the guard the body converges
to a state with the invariant and a smaller variant, then the loop converges to a state with the
invariant and without the guard. -/
theorem converges_whileLoop {body : ℕ → σ → Except (Stop F) σ} {I : σ → Prop} (μ : σ → ℕ)
    (hstep : ∀ s, I s → guard s →
      ∃ s', Converges (fun fuel => body fuel s) (.ok s') ∧ I s' ∧ μ s' < μ s) {s : σ} (hs : I s) :
    ∃ s', Converges (fun fuel => whileLoop guard body fuel s) (.ok s') ∧ I s' ∧ ¬ guard s' := by
  obtain ⟨s', hI, hg, hall, N, hN⟩ := exists_whileAux hstep (μ s + 1) s (Nat.lt_succ_self _) hs
  exact ⟨s', ⟨fun fuel => hall fuel fuel, N, fun fuel h => hN fuel fuel h h⟩, hI, hg⟩

/-- A loop whose guard fails at once changes nothing. -/
theorem converges_whileLoop_of_not_guard {body : ℕ → σ → Except (Stop F) σ} {s : σ}
    (h : ¬ guard s) : Converges (fun fuel => whileLoop guard body fuel s) (.ok s) := by
  obtain ⟨s', hs', rfl, -⟩ := @converges_whileLoop _ _ guard _ body (fun t => s = t) (fun _ => 0)
    (fun t ht hg => absurd (ht ▸ hg) h) s rfl
  exact hs'

/-! ### Loops that keep a log -/

variable {τ : Type}

/-- One iteration, whose log is added to that of the iterations before it. -/
def loggedBody (body : ℕ → σ → Except (Stop F) (List τ × σ)) (fuel : ℕ) (t : List τ × σ) :
    Except (Stop F) (List τ × σ) := do
  let r ← body fuel t.2
  .ok (t.1 ++ r.1, r.2)

/-- A while loop whose body also returns a log of what it has done. -/
def loggedLoop (guard : σ → Prop) [DecidablePred guard]
    (body : ℕ → σ → Except (Stop F) (List τ × σ)) (fuel : ℕ) (s : σ) :
    Except (Stop F) (List τ × σ) :=
  whileLoop (fun t : List τ × σ => guard t.2) (loggedBody body) fuel ([], s)

/-- The log changes nothing. -/
theorem map_loggedLoop {body : ℕ → σ → Except (Stop F) σ}
    {logged : ℕ → σ → Except (Stop F) (List τ × σ)}
    (h : ∀ fuel s, (logged fuel s).map Prod.snd = body fuel s) (fuel : ℕ) (s : σ) :
    (loggedLoop guard logged fuel s).map Prod.snd = whileLoop guard body fuel s := by
  have key : ∀ n t, (whileAux (fun t : List τ × σ => guard t.2) (loggedBody logged fuel) n t).map
      Prod.snd = whileAux guard (body fuel) n t.2 := by
    intro n
    induction n with
    | zero => exact fun _ => rfl
    | succ n ih =>
      intro t
      rw [whileAux, whileAux]
      by_cases hg : guard t.2
      · rw [if_pos hg, if_pos hg, ← h, loggedBody]
        cases logged fuel t.2 with
        | error err => rfl
        | ok r => exact ih _
      · rw [if_neg hg, if_neg hg]
        rfl
  exact key fuel ([], s)

/-- **Total correctness with a log.** The assertion speaks of the log as well. -/
theorem converges_loggedLoop {body : ℕ → σ → Except (Stop F) (List τ × σ)}
    {J : List τ → σ → Prop} (μ : σ → ℕ)
    (hstep : ∀ l s, J l s → guard s → ∃ l' s', Converges (fun fuel => body fuel s) (.ok (l', s')) ∧
      J (l ++ l') s' ∧ μ s' < μ s) {s : σ} (hs : J [] s) :
    ∃ l s', Converges (fun fuel => loggedLoop guard body fuel s) (.ok (l, s')) ∧ J l s' ∧
      ¬ guard s' := by
  have hloop := @converges_whileLoop _ _ (fun t : List τ × σ => guard t.2) _ (loggedBody body)
    (fun t => J t.1 t.2) (fun t => μ t.2) ?_ ([], s) hs
  · obtain ⟨⟨l, s'⟩, hconv, hJ, hg⟩ := hloop
    exact ⟨l, s', hconv, hJ, hg⟩
  rintro ⟨l, s⟩ hJ hg
  obtain ⟨l', s', hs', hJ', hμ⟩ := hstep l s hJ hg
  exact ⟨(l ++ l', s'), hs'.bind (converges_const _), hJ', hμ⟩

end

end Fuelled
