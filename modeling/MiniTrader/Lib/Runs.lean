import MiniTrader.Lib.Fuel

/-!
# Runs

A program that is called again and again is a step function `Op → ℕ → σ → Except (Stop F) σ`: an
operation, the fuel for its loops, and the state. A *run* is a list of operations carried out from
left to right.

There are two ways to reason about all runs. The **simulation rule** follows an abstract machine
that is deterministic and total alongside the program: if every allowed operation converges and
re-establishes the relation with the abstract state, then every allowed run converges. The
**invariant rule** asks of each step only that it keeps an invariant; what is allowed may then
depend on the concrete state the run has reached. It comes for runs that return and, where every
step returns, for all runs.

A program that can neither fail nor loop is a function `Op → σ → β × σ`, and its run gives the list
of its answers. Two of them are compared by a bisimulation.

## Main definitions

* `runList`, `runActions`, `runAnswers` — a run: sequential, interleaved, of total operations
* `Allowed` — every operation of a list is allowed in the abstract state in which it comes
* `AllowedFrom` — the same with the concrete states of the run

## Main results

* `converges_runList`, `runList_simulation` — the simulation rule
* `converges_error_of_not_allowedFrom` — the operation that ends a run
* `converges_runList_of_length` — the rule for loops of known length
* `ensures_runList`, `converges_runList_of_invariant` — the invariant rule
* `map_runList` — two programs step by step
* `converges_prefixes` — every part of a run returns
* `forall_prefix_iff_allowedFrom` — when an invariant holds throughout a run
* `runActions_induction` — the invariant rule for interleavings
* `countP_add_le_of_runActions` — the cost of an interleaving
* `runAnswers_simulation` — two programs that give the same answers
-/

namespace Fuelled

variable {F Op σ γ : Type}

/-- Carrying out the operations from left to right, all with the same fuel. -/
def runList (step : Op → ℕ → σ → Except (Stop F) σ) (fuel : ℕ) : List Op → σ → Except (Stop F) σ
  | [], s => .ok s
  | op :: ops, s => step op fuel s >>= runList step fuel ops

/-- Every operation is allowed in the abstract state the earlier ones lead to. -/
def Allowed (ok : γ → Op → Prop) (next : γ → Op → γ) : γ → List Op → Prop
  | _, [] => True
  | g, op :: ops => ok g op ∧ Allowed ok next (next g op) ops

instance Allowed.decidable {ok : γ → Op → Prop} {next : γ → Op → γ} [∀ g op, Decidable (ok g op)] :
    ∀ g ops, Decidable (Allowed ok next g ops)
  | _, [] => .isTrue trivial
  | g, op :: ops => @instDecidableAnd _ _ _ (Allowed.decidable (next g op) ops)

theorem Allowed.of_append {ok : γ → Op → Prop} {next : γ → Op → γ} {g : γ} {ops ops' : List Op}
    (h : Allowed ok next g (ops ++ ops')) : Allowed ok next g ops := by
  induction ops generalizing g with
  | nil => trivial
  | cons op ops ih => exact ⟨h.1, ih h.2⟩

theorem Allowed.append {ok : γ → Op → Prop} {next : γ → Op → γ} {g : γ} {ops ops' : List Op}
    (h : Allowed ok next g ops) (h' : Allowed ok next (ops.foldl next g) ops') :
    Allowed ok next g (ops ++ ops') := by
  induction ops generalizing g with
  | nil => exact h'
  | cons op ops ih => exact ⟨h.1, ih h.2 h'⟩

theorem Allowed.imp {ok ok' : γ → Op → Prop} {next : γ → Op → γ} {g : γ} {ops : List Op}
    (h : Allowed ok next g ops) (himp : ∀ {g op}, ok g op → ok' g op) :
    Allowed ok' next g ops := by
  induction ops generalizing g with
  | nil => trivial
  | cons op ops ih => exact ⟨himp h.1, ih h.2⟩

/-- **The invariant rule** for the abstract machine itself. -/
theorem Allowed.induction {ok : γ → Op → Prop} {next : γ → Op → γ} {I : γ → Prop}
    (hstep : ∀ {g op}, I g → ok g op → I (next g op)) {g : γ} (hg : I g) {ops : List Op}
    (h : Allowed ok next g ops) : I (ops.foldl next g) := by
  induction ops generalizing g with
  | nil => exact hg
  | cons op ops ih => exact ih (hstep hg h.1) h.2

/-- A condition on the operations alone can be moved into what is allowed. -/
theorem Allowed.and_forall {ok : γ → Op → Prop} {next : γ → Op → γ} {P : Op → Prop} {g : γ}
    {ops : List Op} (h : Allowed ok next g ops) (hP : ∀ op ∈ ops, P op) :
    Allowed (fun g op => ok g op ∧ P op) next g ops := by
  induction ops generalizing g with
  | nil => trivial
  | cons op ops ih =>
    exact ⟨⟨h.1, hP op List.mem_cons_self⟩, ih h.2 fun op' h' => hP op' (List.mem_cons_of_mem _ h')⟩

/-- What is allowed may be read off a component of a larger abstract machine. -/
theorem Allowed.comap {δ : Type} {ok : γ → Op → Prop} {next : γ → Op → γ} {next' : δ → Op → δ}
    (φ : δ → γ) (hφ : ∀ d op, φ (next' d op) = next (φ d) op) {d : δ} {ops : List Op}
    (h : Allowed ok next (φ d) ops) : Allowed (fun d op => ok (φ d) op) next' d ops := by
  induction ops generalizing d with
  | nil => trivial
  | cons op ops ih => exact ⟨h.1, ih (by rw [hφ]; exact h.2)⟩

/-- Every operation is allowed in the state the run has reached, as far as the run gets and
whatever the fuel. -/
def AllowedFrom (ok : Op → σ → Prop) (step : Op → ℕ → σ → Except (Stop F) σ) : List Op → σ → Prop
  | [], _ => True
  | op :: ops, s => ok op s ∧ ∀ fuel s', step op fuel s = .ok s' → AllowedFrom ok step ops s'

section

variable {step : Op → ℕ → σ → Except (Stop F) σ} {ok : Op → σ → Prop} {I : σ → Prop}
  {ops : List Op} {s s' : σ}

/-- A run in two parts. -/
theorem runList_append_eq_bind (fuel : ℕ) (ops ops' : List Op) (s : σ) :
    runList step fuel (ops ++ ops') s = runList step fuel ops s >>= runList step fuel ops' := by
  induction ops generalizing s with
  | nil => rfl
  | cons op ops ih =>
    rw [List.cons_append, runList, runList]
    cases step op fuel s with
    | error err => rfl
    | ok s' => exact ih s'

/-- A program of which each step is a step of another one. -/
theorem map_runList {Op' τ : Type} {step' : Op' → ℕ → τ → Except (Stop F) τ} (f : σ → τ)
    (g : Op → Op') (hstep : ∀ op fuel s, (step op fuel s).map f = step' (g op) fuel (f s))
    (fuel : ℕ) (ops : List Op) (s : σ) :
    (runList step fuel ops s).map f = runList step' fuel (ops.map g) (f s) := by
  induction ops generalizing s with
  | nil => rfl
  | cons op ops ih =>
    rw [List.map_cons, runList, runList, ← hstep]
    cases step op fuel s with
    | error err => rfl
    | ok s' => exact ih s'

/-- **The invariant rule**, with excluded faults. -/
theorem ensures_runList {bad : F → Prop} {fuel : ℕ}
    (hstep : ∀ op s, I s → ok op s → Ensures bad I (step op fuel s)) (hs : I s)
    (hops : AllowedFrom ok step ops s) : Ensures bad I (runList step fuel ops s) := by
  induction ops generalizing s with
  | nil => exact ensures_ok hs
  | cons op ops ih =>
    obtain ⟨hok, hrest⟩ := hops
    rw [runList]
    exact (hstep op s hs hok).bind fun t ht hI => ih hI (hrest fuel t ht)

end

section

variable {step : Op → ℕ → σ → Except (Stop F) σ} {allowed : γ → Op → Prop}
  {next : γ → Op → γ}

/-- Operations whose permission follows from the invariant of a simulation. -/
theorem Allowed.allowedFrom {ok : Op → σ → Prop} {I : γ → σ → Prop}
    (hstep : ∀ g op s, I g s → allowed g op →
      ∃ s', Converges (fun fuel => step op fuel s) (.ok s') ∧ I (next g op) s')
    (hok : ∀ g op s, I g s → allowed g op → ok op s) {ops : List Op} {g : γ} {s : σ} (hs : I g s)
    (hops : Allowed allowed next g ops) : AllowedFrom ok step ops s := by
  induction ops generalizing g s with
  | nil => trivial
  | cons op ops ih =>
    obtain ⟨t, ht, hI⟩ := hstep g op s hs hops.1
    refine ⟨hok g op s hs hops.1, fun fuel s' h => ?_⟩
    cases ht.eq_of_ok h
    exact ih hI hops.2

theorem allowed_true (ops : List Op) (g : γ) : Allowed (fun _ _ => True) next g ops := by
  induction ops generalizing g with
  | nil => trivial
  | cons op ops ih => exact ⟨trivial, ih (next g op)⟩

theorem allowedFrom_true (ops : List Op) (s : σ) : AllowedFrom (fun _ _ => True) step ops s := by
  induction ops generalizing s with
  | nil => trivial
  | cons op ops ih => exact ⟨trivial, fun _ s' _ => ih s'⟩

/-- **The simulation rule.** `next` is the abstract machine and `I` the relation between its states
and those of the program; what an operation needs is asked of both states. -/
theorem converges_runList_of_allowedFrom {ok : Op → σ → Prop} {I : γ → σ → Prop}
    (hstep : ∀ g op s, I g s → allowed g op → ok op s →
      ∃ s', Converges (fun fuel => step op fuel s) (.ok s') ∧ I (next g op) s')
    {ops : List Op} {g : γ} {s : σ} (hs : I g s) (hops : Allowed allowed next g ops)
    (hops' : AllowedFrom ok step ops s) :
    ∃ s', Converges (fun fuel => runList step fuel ops s) (.ok s') ∧ I (ops.foldl next g) s' := by
  induction ops generalizing g s with
  | nil => exact ⟨s, converges_const _, hs⟩
  | cons op ops ih =>
    obtain ⟨t, ht, hI⟩ := hstep g op s hs hops.1 hops'.1
    obtain ⟨N, hN⟩ := ht.2
    obtain ⟨s', hs', hI'⟩ := ih hI hops.2 (hops'.2 N t (hN N le_rfl))
    exact ⟨s', ht.bind hs', hI'⟩

/-- **The simulation rule** for runs that fail: the first operation that is not `ok` ends the
run. -/
theorem converges_error_of_not_allowedFrom {ok : Op → σ → Prop} {I : γ → σ → Prop} {err : Stop F}
    (hstep : ∀ g op s, I g s → allowed g op → ok op s →
      ∃ s', Converges (fun fuel => step op fuel s) (.ok s') ∧ I (next g op) s')
    (herror : ∀ g op s, I g s → allowed g op → ¬ ok op s →
      Converges (fun fuel => step op fuel s) (.error err))
    {ops : List Op} {g : γ} {s : σ} (hs : I g s) (hops : Allowed allowed next g ops)
    (hnot : ¬ AllowedFrom ok step ops s) :
    Converges (fun fuel => runList step fuel ops s) (.error err) := by
  induction ops generalizing g s with
  | nil => exact absurd trivial hnot
  | cons op ops ih =>
    by_cases hok : ok op s
    · obtain ⟨t, ht, hI⟩ := hstep g op s hs hops.1 hok
      refine ht.bind (ih hI hops.2 fun hrest => hnot ⟨hok, fun fuel s' h => ?_⟩)
      cases ht.eq_of_ok h
      exact hrest
    · exact (herror g op s hs hops.1 hok).bind_error

/-- **The simulation rule** for runs that return. -/
theorem runList_simulation {ok : Op → σ → Prop} {I : γ → σ → Prop} {fuel : ℕ}
    (hstep : ∀ g op s s', I g s → ok op s → step op fuel s = .ok s' → I (next g op) s')
    {ops : List Op} {g : γ} {s s' : σ} (hs : I g s) (hops : AllowedFrom ok step ops s)
    (h : runList step fuel ops s = .ok s') : I (ops.foldl next g) s' := by
  induction ops generalizing g s with
  | nil => cases h; exact hs
  | cons op ops ih =>
    obtain ⟨t, ht, hrest⟩ := exists_of_bind_eq_ok h
    exact ih (hstep g op s t hs hops.1 ht) (hops.2 fuel t ht) hrest

/-- The rule for operations that need nothing of the state of the program. -/
theorem converges_runList {I : γ → σ → Prop}
    (hstep : ∀ g op s, I g s → allowed g op →
      ∃ s', Converges (fun fuel => step op fuel s) (.ok s') ∧ I (next g op) s')
    {ops : List Op} {g : γ} {s : σ} (hs : I g s) (hops : Allowed allowed next g ops) :
    ∃ s', Converges (fun fuel => runList step fuel ops s) (.ok s') ∧ I (ops.foldl next g) s' :=
  converges_runList_of_allowedFrom (fun g op s h ha _ => hstep g op s h ha) hs hops
    (allowedFrom_true ops s)

/-- **The invariant rule** for programs that do return. -/
theorem converges_runList_of_invariant {ok : Op → σ → Prop} {I : σ → Prop}
    (hstep : ∀ op s, I s → ok op s → ∃ s', Converges (fun fuel => step op fuel s) (.ok s') ∧ I s')
    {ops : List Op} {s : σ} (hs : I s) (hops : AllowedFrom ok step ops s) :
    ∃ s', Converges (fun fuel => runList step fuel ops s) (.ok s') ∧ I s' :=
  @converges_runList_of_allowedFrom _ _ _ Unit step _ (fun g _ => g) ok (fun _ => I)
    (fun _ op s h _ hok => hstep op s h hok) _ () _ hs (allowed_true _ _) hops

/-- The rule for loops over a list: the invariant may count the operations, and knows that there
are not too many. -/
theorem converges_runList_of_length {I : ℕ → σ → Prop} {ops : List Op} {n i : ℕ} {s : σ}
    (hstep : ∀ i s, ∀ op ∈ ops, i < n → I i s →
      ∃ s', Converges (fun fuel => step op fuel s) (.ok s') ∧ I (i + 1) s')
    (hs : I i s) (hn : i + ops.length ≤ n) :
    ∃ s', Converges (fun fuel => runList step fuel ops s) (.ok s') ∧ I (i + ops.length) s' := by
  induction ops generalizing i s with
  | nil => exact ⟨s, converges_const _, hs⟩
  | cons op ops ih =>
    rw [List.length_cons] at hn ⊢
    obtain ⟨t, ht, hI⟩ := hstep i s op List.mem_cons_self (by omega) hs
    obtain ⟨s', hs', hI'⟩ :=
      ih (fun i s op hop => hstep i s op (List.mem_cons_of_mem _ hop)) hI (by omega)
    refine ⟨s', ht.bind hs', ?_⟩
    rwa [Nat.add_assoc, Nat.add_comm 1] at hI'

/-- Every part of a run that returns step by step returns, whatever else is known of the steps. -/
theorem converges_prefixes {I : γ → σ → Prop} {Q : Op → σ → σ → Prop}
    (hstep : ∀ g op s, I g s → allowed g op →
      ∃ s', Converges (fun fuel => step op fuel s) (.ok s') ∧ I (next g op) s' ∧ Q op s s')
    {ops : List Op} {g : γ} {s : σ} (hs : I g s) (hops : Allowed allowed next g ops) :
    ∀ pre, pre <+: ops → ∃ s', Converges (fun fuel => runList step fuel pre s) (.ok s') := by
  rintro pre ⟨post, rfl⟩
  have hconv : ∀ g op s, I g s → allowed g op →
      ∃ s', Converges (fun fuel => step op fuel s) (.ok s') ∧ I (next g op) s' := by
    intro g op s h hop
    obtain ⟨s', hs', h', -⟩ := hstep g op s h hop
    exact ⟨s', hs', h'⟩
  obtain ⟨s', hs', -⟩ := converges_runList hconv hs hops.of_append
  exact ⟨s', hs'⟩

/-- **An exact condition.** If an operation keeps `P` in a state with `P` exactly when it is `ok`
there, then a run has `P` after each of its operations exactly when all of them are. -/
theorem forall_prefix_iff_allowedFrom {ok : Op → σ → Prop} {I : γ → σ → Prop} {P : σ → Prop}
    (hstep : ∀ g op s, I g s → allowed g op →
      ∃ s', Converges (fun fuel => step op fuel s) (.ok s') ∧ I (next g op) s' ∧
        (P s → (P s' ↔ ok op s)))
    {ops : List Op} {g : γ} {s : σ} (hs : I g s) (hP : P s) (hops : Allowed allowed next g ops) :
    (∀ pre, pre <+: ops → ∀ s', Converges (fun fuel => runList step fuel pre s) (.ok s') → P s') ↔
      AllowedFrom ok step ops s := by
  have hconv : ∀ g op s, I g s → allowed g op →
      ∃ s', Converges (fun fuel => step op fuel s) (.ok s') ∧ I (next g op) s' := by
    intro g op s hs hop
    obtain ⟨s', hs', hI, -⟩ := hstep g op s hs hop
    exact ⟨s', hs', hI⟩
  induction ops generalizing g s with
  | nil =>
    refine iff_of_true (fun pre hpre s' hs' => ?_) trivial
    rw [List.prefix_nil.mp hpre] at hs'
    cases (converges_const _).unique hs'
    exact hP
  | cons op ops ih =>
    obtain ⟨t, ht, hI, hiff⟩ := hstep g op s hs hops.1
    constructor
    · intro hall
      have hPt : P t := hall [op] ⟨ops, rfl⟩ t (ht.bind (converges_const _))
      refine ⟨(hiff hP).mp hPt, fun fuel s' h => ?_⟩
      cases ht.eq_of_ok h
      refine (ih hI hPt hops.2).mp fun pre hpre s' hs' => ?_
      exact hall (op :: pre) (List.cons_prefix_cons.mpr ⟨rfl, hpre⟩) s' (ht.bind hs')
    · rintro ⟨hok, hrest⟩ pre hpre s' hs'
      obtain ⟨N, hN⟩ := ht.2
      have hall := (ih hI ((hiff hP).mpr hok) hops.2).mpr (hrest N t (hN N le_rfl))
      cases pre with
      | nil =>
        cases (converges_const _).unique hs'
        exact hP
      | cons op' pre =>
        obtain ⟨rfl, hpre'⟩ := List.cons_prefix_cons.mp hpre
        obtain ⟨post, rfl⟩ := hpre'
        obtain ⟨u, hu, -⟩ := converges_runList hconv hI hops.2.of_append
        cases (ht.bind hu).unique hs'
        exact hall pre ⟨post, rfl⟩ _ hu

end

/-! ### Interleavings

A concurrent program is a partial step function: an action that is not enabled has no successor. A
list of actions says which thread moves when, and what it observes. -/

variable {A : Type}

/-- Carrying out the actions from left to right, as long as they are enabled. -/
def runActions (step : σ → A → Option σ) : List A → σ → Option σ
  | [], s => some s
  | a :: as, s => (step s a).bind (runActions step as)

/-- **Invariants of interleavings.** -/
theorem runActions_induction {step : σ → A → Option σ} {I : σ → Prop}
    (hstep : ∀ s a s', I s → step s a = some s' → I s') {as : List A} {s s' : σ} (hs : I s)
    (h : runActions step as s = some s') : I s' := by
  induction as generalizing s with
  | nil => cases h; exact hs
  | cons a as ih =>
    obtain ⟨t, ht, hrest⟩ := Option.bind_eq_some_iff.mp h
    exact ih (hstep s a t hs ht) hrest

/-- **Amortised cost of interleavings.** A potential that each counted action lowers, and that an
action which is paid for may raise by less than its price, bounds how many actions are counted in a
run. -/
theorem countP_add_le_of_runActions {step : σ → A → Option σ} {I : σ → Prop} (potential : σ → ℕ)
    (counted paid : A → Bool) (price : ℕ)
    (hI : ∀ s a s', I s → step s a = some s' → I s')
    (hstep : ∀ s a s', I s → step s a = some s' →
      potential s' + (counted a).toNat ≤ potential s + price * (paid a).toNat)
    {as : List A} {s s' : σ} (hs : I s) (h : runActions step as s = some s') :
    as.countP counted + potential s' ≤ potential s + price * as.countP paid := by
  induction as generalizing s with
  | nil => cases h; simp
  | cons a as ih =>
    obtain ⟨t, ht, hrest⟩ := Option.bind_eq_some_iff.mp h
    have hhead := hstep s a t hs ht
    have htail := ih (hI s a t hs ht) hrest
    rw [List.countP_cons, List.countP_cons, Nat.mul_add]
    cases hc : counted a <;> cases hp : paid a <;>
      simp only [hc, hp, Bool.toNat_true, Bool.toNat_false, if_true, Bool.false_eq_true,
        if_false] at hhead ⊢ <;> omega

/-- **Simulation of interleavings**: what the steps of one system do to the image of a state. -/
theorem runActions_simulation {τ B : Type} {step : σ → A → Option σ} {step' : τ → B → Option τ}
    {I : σ → Prop} {f : σ → τ} {g : A → B}
    (hstep : ∀ s a s', I s → step s a = some s' → I s' ∧ step' (f s) (g a) = some (f s'))
    {as : List A} {s s' : σ} (hs : I s) (h : runActions step as s = some s') :
    runActions step' (as.map g) (f s) = some (f s') := by
  induction as generalizing s with
  | nil => cases h; rfl
  | cons a as ih =>
    obtain ⟨t, ht, hrest⟩ := Option.bind_eq_some_iff.mp h
    obtain ⟨hI, ht'⟩ := hstep s a t hs ht
    rw [List.map_cons, runActions, ht', Option.bind_some, ih hI hrest]

theorem runActions_append {step : σ → A → Option σ} {as as' : List A} {s t : σ}
    (h : runActions step as s = some t) :
    runActions step (as ++ as') s = runActions step as' t := by
  induction as generalizing s with
  | nil => cases h; rfl
  | cons a as ih =>
    obtain ⟨u, hu, hrest⟩ := Option.bind_eq_some_iff.mp h
    rw [List.cons_append, runActions, hu, Option.bind_some, ih hrest]

/-! ### Total operations -/

variable {β τ : Type}

/-- The answers of the operations from left to right, and the last state. -/
def runAnswers (step : Op → σ → β × σ) : List Op → σ → List β × σ
  | [], s => ([], s)
  | op :: ops, s =>
    ((step op s).1 :: (runAnswers step ops (step op s).2).1, (runAnswers step ops (step op s).2).2)

/-- **Two programs give the same answers** when their states are related by a relation that every
operation keeps and in which it gives the same answer. -/
theorem runAnswers_simulation {step : Op → σ → β × σ} {step' : Op → τ → β × τ} {R : σ → τ → Prop}
    (hstep : ∀ {s t} op, R s t → (step op s).1 = (step' op t).1 ∧ R (step op s).2 (step' op t).2)
    (ops : List Op) {s : σ} {t : τ} (h : R s t) :
    (runAnswers step ops s).1 = (runAnswers step' ops t).1 ∧
      R (runAnswers step ops s).2 (runAnswers step' ops t).2 := by
  induction ops generalizing s t with
  | nil => exact ⟨rfl, h⟩
  | cons op ops ih =>
    obtain ⟨hans, hR⟩ := hstep op h
    obtain ⟨hrest, hlast⟩ := ih hR
    refine ⟨?_, hlast⟩
    rw [runAnswers, runAnswers, hans, hrest]

/-- Operations that are carried out as others. -/
theorem runAnswers_map {step : Op → σ → β × σ} {Op' : Type} (f : Op' → Op) (ops : List Op')
    (s : σ) : runAnswers step (ops.map f) s = runAnswers (fun op => step (f op)) ops s := by
  induction ops generalizing s with
  | nil => rfl
  | cons op ops ih => rw [List.map_cons, runAnswers, runAnswers, ih]

end Fuelled
