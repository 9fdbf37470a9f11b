import MiniTrader.Lib.Runs

/-!
# Two fuelled computations side by side

A relational logic for fuelled computations. `Below R r r'` compares two of them: the first has run
out of fuel, or both end in the same way, in the same fault or in values related by `R`. The two
may run with different fuel, the first with no more than the second, and the rules for sequencing,
loops and runs only ask that of them.

With equality for `R` and the same program on both sides this is monotonicity: more fuel changes no
answer (`Persistent`). So an answer that one fuel has found is the limit, and no termination proof
is needed to speak of it. With another relation it is a simulation: what one program returns, the
other returns as well, up to `R` (`Converges.transfer`).

## Main definitions

* `Below` — the comparison
* `Persistent` — a computation that keeps its answer when it is given more fuel

## Main results

* `Below.bind`, `below_whileLoop`, `below_runList` — the rules
* `below_runList_of_matched` — runs of which each side has operations of its own
* `Persistent.converges` — an answer is the limit
* `Converges.transfer` — what returns on one side returns on the other
-/

namespace Fuelled

variable {F α β γ δ σ τ Op Op' : Type}

/-- The first computation is out of fuel, or both end in the same way. -/
inductive Below (R : α → β → Prop) : Except (Stop F) α → Except (Stop F) β → Prop where
  | outOfFuel (res : Except (Stop F) β) : Below R (.error .outOfFuel) res
  | ok {a : α} {b : β} (h : R a b) : Below R (.ok a) (.ok b)
  | fault (f : F) : Below R (.error (.fault f)) (.error (.fault f))

section

variable {R R' : α → β → Prop} {S : γ → δ → Prop} {r : Except (Stop F) α} {r' : Except (Stop F) β}

theorem Below.mono (h : Below R r r') (hR : ∀ a b, R a b → R' a b) : Below R' r r' := by
  cases h with
  | outOfFuel => exact .outOfFuel _
  | ok h => exact .ok (hR _ _ h)
  | fault f => exact .fault f

/-- **Sequencing.** -/
theorem Below.bind {k : α → Except (Stop F) γ} {k' : β → Except (Stop F) δ} (h : Below R r r')
    (hk : ∀ a b, R a b → Below S (k a) (k' b)) : Below S (r >>= k) (r' >>= k') := by
  cases h with
  | outOfFuel => exact .outOfFuel _
  | ok h => exact hk _ _ h
  | fault f => exact .fault f

/-- What the first computation returns, the second returns as well. -/
theorem Below.exists_of_ok {a : α} (h : Below R (.ok a) r') : ∃ b, r' = .ok b ∧ R a b := by
  cases h with
  | ok h => exact ⟨_, rfl, h⟩

theorem below_refl (r : Except (Stop F) α) : Below Eq r r := by
  cases r with
  | ok a => exact .ok rfl
  | error err =>
    cases err with
    | outOfFuel => exact .outOfFuel _
    | fault f => exact .fault f

theorem exists_of_map_eq_ok {f : α → β} {r : Except (Stop F) α} {b : β} (h : r.map f = .ok b) :
    ∃ a, r = .ok a ∧ f a = b := by
  cases r with
  | error err => cases h
  | ok a => exact ⟨a, rfl, Except.ok.inj h⟩

/-- What is read off a computation ends in the same way. -/
theorem below_map_right (f : α → β) (r : Except (Stop F) α) :
    Below (fun a b => b = f a) r (r.map f) := by
  cases r with
  | ok a => exact .ok rfl
  | error err =>
    cases err with
    | outOfFuel => exact .outOfFuel _
    | fault f => exact .fault f

theorem below_map_left (f : α → β) (r : Except (Stop F) α) :
    Below (fun b a => b = f a) (r.map f) r := by
  cases r with
  | ok a => exact .ok rfl
  | error err =>
    cases err with
    | outOfFuel => exact .outOfFuel _
    | fault f => exact .fault f

/-- Two computations that are below each other end in the same way. -/
theorem Below.map_eq {R' : β → α → Prop} {f : β → α} (h : Below R r r') (h' : Below R' r' r)
    (hf : ∀ a b, r = .ok a → r' = .ok b → R a b → a = f b) : r = r'.map f := by
  cases h with
  | outOfFuel =>
    cases h' with
    | outOfFuel => rfl
  | ok h => rw [hf _ _ rfl rfl h]; rfl
  | fault f => rfl

end

/-! ### Loops and runs -/

section

variable {R : σ → τ → Prop} {n m : ℕ}

/-- **Loops.** The guards agree, and the bodies are comparable from related states. -/
theorem below_whileLoop {guard : σ → Prop} [DecidablePred guard] {guard' : τ → Prop}
    [DecidablePred guard'] {body : ℕ → σ → Except (Stop F) σ} {body' : ℕ → τ → Except (Stop F) τ}
    (hguard : ∀ s t, R s t → (guard s ↔ guard' t))
    (hbody : ∀ s t, R s t → guard s → Below R (body n s) (body' m t)) (hnm : n ≤ m) {s : σ} {t : τ}
    (h : R s t) : Below R (whileLoop guard body n s) (whileLoop guard' body' m t) := by
  -- `i` and `j` are the iterations the two loops are still allowed
  have key : ∀ i j, i ≤ j → ∀ s t, R s t →
      Below R (whileAux guard (body n) i s) (whileAux guard' (body' m) j t) := by
    intro i
    induction i with
    | zero => exact fun _ _ _ _ _ => .outOfFuel _
    | succ i ih =>
      intro j hij s t h
      obtain ⟨j, rfl⟩ : ∃ k, j = k + 1 := ⟨j - 1, by omega⟩
      by_cases hg : guard s
      · rw [whileAux_succ_of_guard hg, whileAux_succ_of_guard ((hguard s t h).mp hg)]
        exact (hbody s t h hg).bind fun s' t' h' => ih j (by omega) s' t' h'
      · rw [whileAux_succ_of_not_guard hg,
          whileAux_succ_of_not_guard fun hg' => hg ((hguard s t h).mpr hg')]
        exact .ok h
  exact key n m hnm s t h

/-- **Runs**, one operation beside the other. -/
theorem below_runList {step : Op → ℕ → σ → Except (Stop F) σ}
    {step' : Op' → ℕ → τ → Except (Stop F) τ} {P : Op → Op' → Prop}
    (hstep : ∀ op op' s t, P op op' → R s t → Below R (step op n s) (step' op' m t))
    {ops : List Op} {ops' : List Op'} (hops : List.Forall₂ P ops ops') {s : σ} {t : τ}
    (h : R s t) : Below R (runList step n ops s) (runList step' m ops' t) := by
  induction hops generalizing s t with
  | nil => exact .ok h
  | cons hop _ ih => exact (hstep _ _ s t hop h).bind fun s' t' h' => ih h'

/-- Two sequences of operations that match one by one, apart from some that each side may have
alone. -/
inductive Matched (P : Op → Op' → Prop) (left : Op → Prop) (right : Op' → Prop) :
    List Op → List Op' → Prop where
  | nil : Matched P left right [] []
  | both {op : Op} {op' : Op'} {ops : List Op} {ops' : List Op'} (h : P op op')
      (hs : Matched P left right ops ops') : Matched P left right (op :: ops) (op' :: ops')
  | left {op : Op} {ops : List Op} {ops' : List Op'} (h : left op)
      (hs : Matched P left right ops ops') : Matched P left right (op :: ops) ops'
  | right {op' : Op'} {ops : List Op} {ops' : List Op'} (h : right op')
      (hs : Matched P left right ops ops') : Matched P left right ops (op' :: ops')

theorem Matched.mono {P P' : Op → Op' → Prop} {left left' : Op → Prop} {right right' : Op' → Prop}
    {ops : List Op} {ops' : List Op'} (h : Matched P left right ops ops')
    (hP : ∀ {op op'}, P op op' → P' op op') (hleft : ∀ {op}, left op → left' op)
    (hright : ∀ {op'}, right op' → right' op') : Matched P' left' right' ops ops' := by
  induction h with
  | nil => exact .nil
  | both h _ ih => exact .both (hP h) ih
  | left h _ ih => exact .left (hleft h) ih
  | right h _ ih => exact .right (hright h) ih

/-- Two sequences that are the same without some of their operations. -/
theorem matched_of_filter {p : Op → Bool} {ops ops' : List Op}
    (h : ops.filter p = ops'.filter p) :
    Matched (fun op op' => op = op' ∧ p op = true) (fun op => p op = false) (fun op => p op = false)
      ops ops' := by
  induction ops generalizing ops' with
  | nil =>
    induction ops' with
    | nil => exact .nil
    | cons op' ops' ih =>
      have hall := List.filter_eq_nil_iff.mp h.symm
      refine .right (Bool.eq_false_iff.mpr (hall op' List.mem_cons_self)) (ih ?_)
      exact (List.filter_eq_nil_iff.mpr fun x hx => hall x (List.mem_cons_of_mem _ hx)).symm
  | cons op ops ih =>
    by_cases hp : p op = true
    · rw [List.filter_cons_of_pos hp] at h
      -- the sequence on the right comes to the same operation, after some of its own
      induction ops' with
      | nil => cases h
      | cons op' ops' ih' =>
        by_cases hp' : p op' = true
        · rw [List.filter_cons_of_pos hp'] at h
          obtain ⟨rfl, hrest⟩ := List.cons.inj h
          exact .both ⟨rfl, hp⟩ (ih hrest)
        · rw [List.filter_cons_of_neg hp'] at h
          exact .right (Bool.eq_false_iff.mpr hp') (ih' h)
    · rw [List.filter_cons_of_neg hp] at h
      exact .left (Bool.eq_false_iff.mpr hp) (ih h)

/-- **Runs** in which an operation that one side has alone leaves the states related. -/
theorem below_runList_of_matched {step : Op → ℕ → σ → Except (Stop F) σ}
    {step' : Op' → ℕ → τ → Except (Stop F) τ} {P : Op → Op' → Prop} {left : Op → Prop}
    {right : Op' → Prop}
    (hstep : ∀ op op' s t, P op op' → R s t → Below R (step op n s) (step' op' m t))
    (hleft : ∀ op s t, left op → R s t → ∃ s', step op n s = .ok s' ∧ R s' t)
    (hright : ∀ op s t, right op → R s t → ∃ t', step' op m t = .ok t' ∧ R s t')
    {ops : List Op} {ops' : List Op'} (hops : Matched P left right ops ops') {s : σ} {t : τ}
    (h : R s t) : Below R (runList step n ops s) (runList step' m ops' t) := by
  induction hops generalizing s t with
  | nil => exact .ok h
  | both hop _ ih => exact (hstep _ _ s t hop h).bind fun s' t' h' => ih h'
  | left hop _ ih =>
    obtain ⟨s', hs', h'⟩ := hleft _ s t hop h
    rw [runList, hs']
    exact ih h'
  | right hop _ ih =>
    obtain ⟨t', ht', h'⟩ := hright _ s t hop h
    change Below R _ (step' _ m t >>= runList step' m _)
    rw [ht']
    exact ih h'

end

/-! ### More fuel -/

/-- More fuel changes no answer. -/
def Persistent (r : ℕ → Except (Stop F) α) : Prop := ∀ n m, n ≤ m → Below Eq (r n) (r m)

section

variable {r : ℕ → Except (Stop F) α} {r' : ℕ → Except (Stop F) β}

theorem persistent_const (res : Except (Stop F) α) : Persistent fun _ => res :=
  fun _ _ _ => below_refl res

theorem Persistent.bind {k : ℕ → α → Except (Stop F) β} (h : Persistent r)
    (hk : ∀ a, Persistent fun fuel => k fuel a) : Persistent fun fuel => r fuel >>= k fuel :=
  fun n m hnm => (h n m hnm).bind fun a b hab => by cases hab; exact hk a n m hnm

/-- **An answer is the limit.** -/
theorem Persistent.converges {n : ℕ} {a : α} (h : Persistent r) (hr : r n = .ok a) :
    Converges r (.ok a) := by
  have hlarge : ∀ m, n ≤ m → r m = .ok a := by
    intro m hnm
    have hb := h n m hnm
    rw [hr] at hb
    obtain ⟨b, hm, rfl⟩ := hb.exists_of_ok
    exact hm
  refine ⟨fun m => ?_, n, hlarge⟩
  rcases le_total n m with hnm | hmn
  · exact Or.inr (hlarge m hnm)
  · have hb := h m n hmn
    rw [hr] at hb
    generalize r m = res at hb
    cases hb with
    | outOfFuel => exact Or.inl rfl
    | ok he => exact Or.inr (congrArg _ he)

/-- Computations that agree once they have enough fuel have the same limit. -/
theorem Persistent.converges_of_eventually {r r' : ℕ → Except (Stop F) α} {a : α} {K : ℕ}
    (hp : Persistent r') (heq : ∀ n, K ≤ n → r n = r' n) (h : Converges r (.ok a)) :
    Converges r' (.ok a) := by
  obtain ⟨N, hN⟩ := h.2
  refine hp.converges (n := max K N) ?_
  rw [← heq _ (le_max_left K N), hN _ (le_max_right K N)]

/-- **What returns on one side returns on the other.** -/
theorem Converges.transfer {R : α → β → Prop} {a : α} (hr : Converges r (.ok a))
    (h : ∀ n, Below R (r n) (r' n)) (hs : Persistent r') : ∃ b, Converges r' (.ok b) ∧ R a b := by
  obtain ⟨N, hN⟩ := hr.2
  have hb := h N
  rw [hN N le_rfl] at hb
  obtain ⟨b, hb, hR⟩ := hb.exists_of_ok
  exact ⟨b, hs.converges hb, hR⟩

end

end Fuelled
