import MiniTrader.Engine.CancelRatio

/-!
# Starting and stopping the loop

`run()` calls `on_start`, stores `true` in `running_` and then alternates between a load of
`running_` and `run_once`; `stop()`, called by another thread, stores `false`. Both threads write
the flag, so what a stop does depends on which write comes last. A stop that comes after the store
of `run()` is seen by the next load. One that comes before it, while `on_start` is running or right
after it, is overwritten, and the loop does not end.

The flag is one atomic variable, so its writes and loads are steps of an interleaving. What
`on_start`, `run_once` and `on_stop` do is what the engine does with the programs of the strategy;
none of them can reach the flag.

## Main definitions

* `State`, `Action`, `step`, `enter` — the machine
* `Stored` — `run()` has made its store
* `Obeyed` — what a stop is for

## Main results

* `obeyed_of_stored` — which stops are obeyed
-/

namespace MiniTrader

open Fuelled

/-- `StrategyBase` with `on_start` and `on_stop`. -/
structure Lifecycle (σ : Type) extends Strategy σ where
  onStart : StrategyM σ Unit := pure ()
  onStop : StrategyM σ Unit := pure ()

namespace StartStop

/-- Where `run()` is. -/
inductive Runner where
  /-- At or in `on_start`. -/
  | starting
  /-- At the store of `true`. -/
  | storing
  /-- At the loop condition. -/
  | testing
  /-- At or in `run_once`. -/
  | working
  /-- At or in `on_stop`. -/
  | stopping
  | returned
  deriving DecidableEq, Repr

/-- The thread in `run()`, the flag, and the engine. -/
structure State (σ : Type) where
  runner : Runner
  running : Bool
  engine : TradingEngine σ
  /-- `stop()` has executed. -/
  stopped : Bool
  /-- The values of the loop condition since then. -/
  lateTests : List Bool
  /-- The number of calls of `run_once` that have returned since then. -/
  lateRounds : ℕ

/-- A step of `run()`, with the fuel for what it calls, or the call of `stop()`. -/
inductive Action where
  | run (fuel : ℕ)
  | stop
  deriving DecidableEq, Repr

variable {σ : Type}

/-- `run()` has just been called. The flag is what the last run has left. -/
def enter (running : Bool) (e : TradingEngine σ) : State σ where
  runner := .starting
  running := running
  engine := e
  stopped := false
  lateTests := []
  lateRounds := 0

/-- The step of `run()` after which it is at `runner`, and the engine is what a call has left. -/
def State.after (s : State σ) (runner : Runner) : Outcome (TradingEngine σ) → Option (State σ)
  | .ok e => some { s with runner := runner, engine := e }
  | .error _ => none

/-- The loop condition. -/
def State.test (s : State σ) : State σ :=
  { s with
    runner := if s.running then .working else .stopping
    lateTests := if s.stopped then s.lateTests ++ [s.running] else s.lateTests }

/-- `run_once` returns. -/
def State.countRound (s : State σ) : State σ :=
  { s with lateRounds := if s.stopped then s.lateRounds + 1 else s.lateRounds }

/-- One step; `none` if `run()` has returned, a call in it does not return with this fuel, or
`stop()` has been called already. -/
def step (S : Lifecycle σ) (s : State σ) : Action → Option (State σ)
  | .run fuel =>
    match s.runner with
    | .starting =>
      s.after .storing
        ((s.engine.interp (TradingEngine.fillCallback S.toStrategy fuel) fuel S.onStart).map
          Prod.snd)
    | .storing => some { s with runner := .testing, running := true }
    | .testing => some s.test
    | .working => s.countRound.after .testing ((s.engine.runOnce S.toStrategy fuel).map Prod.snd)
    | .stopping =>
      s.after .returned
        ((s.engine.interp (TradingEngine.fillCallback S.toStrategy fuel) fuel S.onStop).map
          Prod.snd)
    | .returned => none
  | .stop => if s.stopped then none else some { s with running := false, stopped := true }

/-- `run()` has stored `true`. -/
def Stored (s : State σ) : Prop := s.runner ≠ .starting ∧ s.runner ≠ .storing

instance (s : State σ) : Decidable (Stored s) := inferInstanceAs (Decidable (_ ∧ _))

/-- Since `stop()` has executed the loop condition has never been true, and at most the call of
`run_once` that was in progress has returned. -/
def Obeyed (s : State σ) : Prop := (∀ value ∈ s.lateTests, value = false) ∧ s.lateRounds ≤ 1

instance (s : State σ) : Decidable (Obeyed s) := inferInstanceAs (Decidable (_ ∧ _))

variable {S : Lifecycle σ} {s s' : State σ} {runner : Runner} {a : Action} {as : List Action}

theorem exists_of_after_eq_some {r : Outcome (TradingEngine σ)} (h : s.after runner r = some s') :
    ∃ e, s' = { s with runner := runner, engine := e } := by
  cases r with
  | ok e => cases h; exact ⟨e, rfl⟩
  | error err => cases h

/-- **What a step of `run()` does** to the flag and the records, program point by program point. -/
theorem step_run_cases {fuel : ℕ} (h : step S s (.run fuel) = some s') :
    (s.runner = .starting ∧ ∃ e, s' = { s with runner := .storing, engine := e }) ∨
    (s.runner = .storing ∧ s' = { s with runner := .testing, running := true }) ∨
    (s.runner = .testing ∧ s' = s.test) ∨
    (s.runner = .working ∧ ∃ e, s' = { s.countRound with runner := .testing, engine := e }) ∨
    (s.runner = .stopping ∧ ∃ e, s' = { s with runner := .returned, engine := e }) := by
  rw [step] at h
  split at h
  case h_1 hr => exact Or.inl ⟨hr, exists_of_after_eq_some h⟩
  case h_2 hr =>
    cases h
    exact Or.inr (Or.inl ⟨hr, rfl⟩)
  case h_3 hr =>
    cases h
    exact Or.inr (Or.inr (Or.inl ⟨hr, rfl⟩))
  case h_4 hr => exact Or.inr (Or.inr (Or.inr (Or.inl ⟨hr, exists_of_after_eq_some h⟩)))
  case h_5 hr => exact Or.inr (Or.inr (Or.inr (Or.inr ⟨hr, exists_of_after_eq_some h⟩)))
  case h_6 => cases h

/-- A stop is executed once. -/
theorem step_stop_eq_some (h : step S s .stop = some s') :
    s.stopped = false ∧ s' = { s with running := false, stopped := true } := by
  rw [step] at h
  split at h
  · cases h
  · cases h
    exact ⟨eq_false_of_ne_true ‹_›, rfl⟩

/-- A test after the stop. -/
theorem test_of_stopped (h : s.stopped = true) : s.test =
    { s with
      runner := if s.running then .working else .stopping
      lateTests := s.lateTests ++ [s.running] } := by
  rw [State.test, if_pos h]

theorem stored_of_eq {r : Runner} (h : s.runner = r) (hstart : r ≠ .starting)
    (hstore : r ≠ .storing) : Stored s := by
  subst h
  exact ⟨hstart, hstore⟩

/-- Nothing is recorded before the stop. -/
structure Silent (s : State σ) : Prop where
  stopped : s.stopped = false
  tests : s.lateTests = []
  rounds : s.lateRounds = 0

/-- The stop has been executed after the store of `run()`: the flag is false for good. -/
structure Heard (s : State σ) : Prop where
  stored : Stored s
  stopped : s.stopped = true
  running : s.running = false
  tests : ∀ value ∈ s.lateTests, value = false
  rounds : s.lateRounds + (if s.runner = .working then 1 else 0) ≤ 1

/-- The stop has been executed before: the store of `run()` is still to come, or has been made and
not yet been seen, or the loop condition has been true. -/
structure Lost (s : State σ) : Prop where
  stopped : s.stopped = true
  tests : true ∈ s.lateTests ∨ s.lateTests = [] ∧
    (¬ Stored s ∨ s.runner = .testing ∧ s.running = true)

theorem silent_enter (running : Bool) (e : TradingEngine σ) : Silent (enter running e) :=
  ⟨rfl, rfl, rfl⟩

/-- As long as nobody stops it. -/
theorem Silent.run {fuel : ℕ} (h : Silent s) (hstep : step S s (.run fuel) = some s') :
    Silent s' := by
  obtain ⟨hstopped, htests, hrounds⟩ := h
  rcases step_run_cases hstep with ⟨-, e, rfl⟩ | ⟨-, rfl⟩ | ⟨-, rfl⟩ | ⟨-, e, rfl⟩ | ⟨-, e, rfl⟩
  · exact ⟨hstopped, htests, hrounds⟩
  · exact ⟨hstopped, htests, hrounds⟩
  · refine ⟨hstopped, ?_, hrounds⟩
    rw [State.test, hstopped]
    exact htests
  · refine ⟨hstopped, htests, ?_⟩
    rw [State.countRound, hstopped]
    exact hrounds
  · exact ⟨hstopped, htests, hrounds⟩

theorem Silent.heard (h : Silent s) (hstored : Stored s) (hstep : step S s .stop = some s') :
    Heard s' := by
  obtain ⟨-, rfl⟩ := step_stop_eq_some hstep
  obtain ⟨-, htests, hrounds⟩ := h
  refine ⟨hstored, rfl, rfl, ?_, ?_⟩
  · intro value hvalue
    rw [htests] at hvalue
    cases hvalue
  · show s.lateRounds + _ ≤ 1
    rw [hrounds]
    split <;> omega

theorem Silent.lost (h : Silent s) (hstored : ¬ Stored s) (hstep : step S s .stop = some s') :
    Lost s' := by
  obtain ⟨-, rfl⟩ := step_stop_eq_some hstep
  exact ⟨rfl, Or.inr ⟨h.tests, Or.inl hstored⟩⟩

/-- **After a stop that is heard** the next test ends the loop. -/
theorem Heard.next (h : Heard s) (hstep : step S s a = some s') : Heard s' := by
  obtain ⟨hstored, hstopped, hrunning, htests, hrounds⟩ := h
  cases a with
  | stop =>
    obtain ⟨hnot, -⟩ := step_stop_eq_some hstep
    rw [hstopped] at hnot
    cases hnot
  | run fuel =>
    rcases step_run_cases hstep with ⟨hr, -⟩ | ⟨hr, -⟩ | ⟨hr, rfl⟩ | ⟨hr, e, rfl⟩ | ⟨hr, e, rfl⟩
    · exact absurd hr hstored.1
    · exact absurd hr hstored.2
    · rw [test_of_stopped hstopped, hrunning]
      refine ⟨stored_of_eq (r := .stopping) rfl (by decide) (by decide), hstopped, rfl, ?_, ?_⟩
      · intro value hvalue
        rcases List.mem_append.mp hvalue with hvalue | hvalue
        · exact htests value hvalue
        · exact List.mem_singleton.mp hvalue
      · exact le_trans (Nat.le_add_right _ _) hrounds
    · rw [if_pos hr] at hrounds
      refine ⟨stored_of_eq (r := .testing) rfl (by decide) (by decide), hstopped, hrunning,
        htests, ?_⟩
      show (if s.stopped then s.lateRounds + 1 else s.lateRounds) + 0 ≤ 1
      split <;> omega
    · exact ⟨stored_of_eq (r := .returned) rfl (by decide) (by decide), hstopped, hrunning, htests,
        le_trans (Nat.le_add_right _ _) hrounds⟩

/-- **After a stop that is lost** the first test is true. -/
theorem Lost.next (h : Lost s) (hstep : step S s a = some s') : Lost s' := by
  obtain ⟨hstopped, htests⟩ := h
  cases a with
  | stop =>
    obtain ⟨hnot, -⟩ := step_stop_eq_some hstep
    rw [hstopped] at hnot
    cases hnot
  | run fuel =>
    refine ⟨?_, ?_⟩
    · rcases step_run_cases hstep with
        ⟨-, e, rfl⟩ | ⟨-, rfl⟩ | ⟨-, rfl⟩ | ⟨-, e, rfl⟩ | ⟨-, e, rfl⟩ <;> exact hstopped
    · rcases htests with htrue | ⟨hnone, hstored⟩
      · left
        rcases step_run_cases hstep with
          ⟨-, e, rfl⟩ | ⟨-, rfl⟩ | ⟨-, rfl⟩ | ⟨-, e, rfl⟩ | ⟨-, e, rfl⟩
        case inr.inr.inl =>
          rw [test_of_stopped hstopped]
          exact List.mem_append_left _ htrue
        all_goals exact htrue
      · rcases step_run_cases hstep with ⟨hr, e, rfl⟩ | ⟨hr, rfl⟩ | ⟨hr, rfl⟩ | ⟨hr, -⟩ | ⟨hr, -⟩
        · exact Or.inr ⟨hnone, Or.inl fun hs => hs.2 rfl⟩
        · exact Or.inr ⟨hnone, Or.inr ⟨rfl, rfl⟩⟩
        · -- the flag has been stored, and is seen
          left
          have hrunning : s.running = true := by
            rcases hstored with hnot | ⟨-, hrunning⟩
            · exact absurd (stored_of_eq hr (by decide) (by decide)) hnot
            · exact hrunning
          rw [test_of_stopped hstopped, hrunning]
          exact List.mem_append_right _ List.mem_cons_self
        all_goals
          rcases hstored with hnot | ⟨hr', -⟩
          · exact absurd (stored_of_eq hr (by decide) (by decide)) hnot
          · rw [hr] at hr'
            cases hr'

theorem Heard.obeyed (h : Heard s) : Obeyed s :=
  ⟨h.tests, le_trans (Nat.le_add_right _ _) h.rounds⟩

theorem Lost.not_obeyed (h : Lost s) (hlate : s.lateTests ≠ []) : ¬ Obeyed s := by
  rintro ⟨htests, -⟩
  rcases h.tests with htrue | ⟨hnone, -⟩
  · exact absurd (htests _ htrue) (by decide)
  · exact hlate hnone

/-- As long as a stop is possible, nothing is recorded. -/
theorem silent_or_stopped (hs : s.stopped = true ∨ Silent s) (hstep : step S s a = some s') :
    s'.stopped = true ∨ Silent s' := by
  cases a with
  | stop =>
    obtain ⟨-, rfl⟩ := step_stop_eq_some hstep
    exact Or.inl rfl
  | run fuel =>
    rcases hs with hstopped | hsilent
    · left
      rcases step_run_cases hstep with
        ⟨-, e, rfl⟩ | ⟨-, rfl⟩ | ⟨-, rfl⟩ | ⟨-, e, rfl⟩ | ⟨-, e, rfl⟩ <;> exact hstopped
    · exact Or.inr (hsilent.run hstep)

/-- **Which stops are obeyed.** Take any interleaving of `run()` with a stop in it. If `run()` has
made its store when the stop is executed, the stop is obeyed; and where the loop condition is
evaluated at all after a stop that is obeyed, `run()` had made its store. -/
theorem obeyed_of_stored (S : Lifecycle σ) (running : Bool) (e : TradingEngine σ)
    (before later : List Action) (s s' : State σ)
    (h : runActions (step S) before (enter running e) = some s)
    (h' : runActions (step S) (.stop :: later) s = some s') :
    (Stored s → Obeyed s') ∧ (s'.lateTests ≠ [] → Obeyed s' → Stored s) := by
  have hs : s.stopped = true ∨ Silent s :=
    runActions_induction (fun _ _ _ hs hstep => silent_or_stopped hs hstep)
      (Or.inr (silent_enter running e)) h
  obtain ⟨t, ht, h'⟩ := Option.bind_eq_some_iff.mp h'
  have hsilent : Silent s := by
    rcases hs with hstopped | hsilent
    · rw [(step_stop_eq_some ht).1] at hstopped
      cases hstopped
    · exact hsilent
  constructor
  · intro hstored
    have := runActions_induction (fun _ _ _ hs hstep => Heard.next hs hstep)
      (hsilent.heard hstored ht) h'
    exact this.obeyed
  · intro hlate hobeyed
    by_contra hstored
    have := runActions_induction (fun _ _ _ hs hstep => Lost.next hs hstep)
      (hsilent.lost hstored ht) h'
    exact this.not_obeyed hlate hobeyed

/-- The strategy that does nothing. -/
def silentLifecycle : Lifecycle Unit := { TradingEngine.silent with }

/-- A stop during the first call of `run_once`. -/
theorem obeyed_of_stored_working : ∃ s s',
    runActions (step silentLifecycle) [.run 1, .run 1, .run 1]
      (enter false TradingEngine.silentEngine) = some s ∧
    runActions (step silentLifecycle) [.stop, .run 1, .run 1, .run 1] s = some s' ∧
    (Stored s → Obeyed s') ∧ (s'.lateTests ≠ [] → Obeyed s' → Stored s) := by
  obtain ⟨s, hs⟩ := Option.isSome_iff_exists.mp (by decide +kernel :
    (runActions (step silentLifecycle) [.run 1, .run 1, .run 1]
      (enter false TradingEngine.silentEngine)).isSome)
  obtain ⟨s', hs'⟩ := Option.isSome_iff_exists.mp (by decide +kernel :
    (runActions (step silentLifecycle) ([.run 1, .run 1, .run 1] ++ [.stop, .run 1, .run 1, .run 1])
      (enter false TradingEngine.silentEngine)).isSome)
  rw [runActions_append hs] at hs'
  exact ⟨s, s', hs, hs', obeyed_of_stored _ _ _ _ _ s s' hs hs'⟩

/-- **A stop right after `on_start`** is overwritten, and the loop goes on. -/
theorem lateTests_stop_before_store :
    (runActions (step silentLifecycle) [.run 1, .stop, .run 1, .run 1, .run 1, .run 1, .run 1]
      (enter false TradingEngine.silentEngine)).map (fun s => s.lateTests) = some [true, true] ∧
    ¬ ∃ s, runActions (step silentLifecycle) [.run 1, .stop, .run 1, .run 1, .run 1, .run 1, .run 1]
      (enter false TradingEngine.silentEngine) = some s ∧ Obeyed s := by
  have hrun : (runActions (step silentLifecycle)
      [.run 1, .stop, .run 1, .run 1, .run 1, .run 1, .run 1]
      (enter false TradingEngine.silentEngine)).map (fun s => s.lateTests) = some [true, true] := by
    decide +kernel
  refine ⟨hrun, ?_⟩
  rintro ⟨s, hs, hobeyed⟩
  rw [hs, Option.map_some, Option.some.injEq] at hrun
  exact absurd (hobeyed.1 true (by rw [hrun]; exact List.mem_cons_self)) (by decide)

end StartStop

end MiniTrader
