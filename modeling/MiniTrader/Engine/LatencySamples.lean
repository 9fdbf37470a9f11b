import MiniTrader.Engine.CancelRatio
import MiniTrader.Engine.Percentile

/-!
# The reported latencies

`run_once` measures `on_tick` for each tick of the queue and enters the duration into a sum, a
maximum and a histogram; `reset_latency_stats` forgets all of them. `samples` says which durations a
run has measured since then, and the statistics of every engine are those of its samples. So what
`latency_percentile_ns` reports can be compared with the samples themselves.

## Main definitions

* `latencyPercentileNs`, `queueWaitPercentileNs`, `latencyMaxNs` — what the engine reports
* `durations`, `samples` — what it has measured

## Main results

* `records_run` — the statistics are those of the samples
* `latencyPercentileNs_iff` — when the reported percentile is right
-/

namespace MiniTrader

open Fuelled LatencyStats

namespace TradingEngine

variable {σ : Type} {S : Strategy σ} {e e' : TradingEngine σ} {fuel : ℕ} {xs : List ℕ}

/-- `latency_percentile_ns`. -/
def latencyPercentileNs (pct : ℚ) (e : TradingEngine σ) : ℕ :=
  e.env.latency.percentile kHistBounds e.env.ticksProcessed pct

/-- `queue_wait_percentile_ns`. The number of ticks is that of `run_once`, also where not every tick
has been measured. -/
def queueWaitPercentileNs (pct : ℚ) (e : TradingEngine σ) : ℕ :=
  e.env.queueWait.percentile kQHistBounds e.env.ticksProcessed pct

/-- `latency_max_ns`. -/
def latencyMaxNs (e : TradingEngine σ) : ℕ := e.env.latency.max

/-! ### Samples -/

/-- The durations `run_once` measures for these ticks. -/
def durations (S : Strategy σ) (fuel : ℕ) : List MarketTick → TradingEngine σ → List ℕ
  | [], _ => []
  | tick :: ticks, e =>
    match interp (fillCallback S fuel) fuel (S.onTick tick)
      ((e.setTickQueue ticks).beforeOnTick tick) with
    | .ok r => castUint64 (r.2.now - e.now) :: durations S fuel ticks (r.2.afterOnTick e.now)
    | .error _ => []

/-- The samples after a call, when `xs` are those before it. -/
def EngineOp.samples (S : Strategy σ) (fuel : ℕ) (op : EngineOp σ) (e : TradingEngine σ)
    (xs : List ℕ) : List ℕ :=
  match op with
  | .runOnce => xs ++ durations S fuel e.env.tickQueue e
  | .resetLatencyStats => []
  | _ => xs

/-- The samples after a sequence of calls. -/
def samples (S : Strategy σ) (fuel : ℕ) : List (EngineOp σ) → TradingEngine σ → List ℕ → List ℕ
  | [], _, xs => xs
  | op :: ops, e, xs =>
    match op.run S fuel e with
    | .ok e' => samples S fuel ops e' (op.samples S fuel e xs)
    | .error _ => xs

/-- The engine has recorded the samples. -/
structure Sampled (xs : List ℕ) (e : TradingEngine σ) : Prop where
  records : Records kHistBounds xs e.env.latency
  count : e.env.ticksProcessed = xs.length

/-- The latency statistics belong to `run_once`. -/
def Unmeasured (e e' : TradingEngine σ) : Prop :=
  e'.env.latency = e.env.latency ∧ e'.env.ticksProcessed = e.env.ticksProcessed

theorem unmeasured_beforeOnFill (r : ExecutionReport) (e : TradingEngine σ) :
    Unmeasured e (beforeOnFill r e) := by
  rw [beforeOnFill_eq]
  exact ⟨rfl, rfl⟩

theorem Unmeasured.trans {e₁ e₂ e₃ : TradingEngine σ} (h : Unmeasured e₁ e₂)
    (h' : Unmeasured e₂ e₃) : Unmeasured e₁ e₃ :=
  ⟨h'.1.trans h.1, h'.2.trans h.2⟩

theorem stepRel_unmeasured : StepRel (Unmeasured (σ := σ)) where
  refl _ := ⟨rfl, rfl⟩
  trans := .trans
  withBook _ _ := ⟨rfl, rfl⟩
  setStrategy _ _ := ⟨rfl, rfl⟩
  rejected _ _ _ := ⟨rfl, rfl⟩
  admitted own o e := by
    rw [admitted_eq]
    exact ⟨rfl, rfl⟩
  untracked _ _ := ⟨rfl, rfl⟩
  fill h h' :=
    ((unmeasured_beforeOnFill _ _).trans h).trans ((unmeasured_beforeOnFill _ _).trans h')

theorem Sampled.congr (h : Sampled xs e) (he : Unmeasured e e') : Sampled xs e' := by
  obtain ⟨hlatency, hcount⟩ := he
  exact ⟨by rw [hlatency]; exact h.records, by rw [hcount]; exact h.count⟩

theorem sampled_new (c : OrderBookConfig) (riskConfig : RiskConfig) (st : σ) (clock : ℕ → ℤ) :
    Sampled [] (new c riskConfig st clock) :=
  ⟨records_empty kHistBounds, rfl⟩

theorem unmeasured_beforeOnTick (tick : MarketTick) (e : TradingEngine σ) :
    Unmeasured e (e.beforeOnTick tick) := by
  unfold beforeOnTick
  dsimp only
  split <;> exact ⟨rfl, rfl⟩

theorem unmeasured_pushTick (tick : MarketTick) (e : TradingEngine σ) :
    Unmeasured e (e.pushTick tick).2 := by
  unfold pushTick
  dsimp only
  split_ifs <;> exact ⟨rfl, rfl⟩

/-- One tick is one sample. -/
theorem Sampled.afterOnTick (h : Sampled xs e) (t0 : ℤ) :
    Sampled (xs ++ [castUint64 (e.now - t0)]) (e.afterOnTick t0) where
  records := h.records.record _
  count := by
    rw [List.length_append, List.length_singleton, ← h.count]
    rfl

/-- **One tick** of the queue: it is measured, and the rest of the queue is still to come. -/
theorem Sampled.processTick {tick : MarketTick} {ticks : List MarketTick} (h : Sampled xs e)
    (hp : (e.setTickQueue ticks).processTick S fuel tick = .ok e') : ∃ x,
      durations S fuel (tick :: ticks) e = x :: durations S fuel ticks e' ∧
      Sampled (xs ++ [x]) e' := by
  obtain ⟨r, hr, rfl⟩ := processTick_eq_ok hp
  refine ⟨_, by rw [durations, hr]; rfl, ?_⟩
  refine Sampled.afterOnTick ?_ _
  exact h.congr (Unmeasured.trans (Unmeasured.trans ⟨rfl, rfl⟩
    (unmeasured_beforeOnTick tick (e.setTickQueue ticks))) (stepRel_unmeasured.interp hr))

/-- **The loop of `run_once`** measures every tick of the queue. -/
theorem Sampled.runOnce {r : ℕ × TradingEngine σ} (h : Sampled xs e)
    (hrun : e.runOnce S fuel = .ok r) :
    Sampled (xs ++ durations S fuel e.env.tickQueue e) r.2 := by
  have hloop := whileLoop_induction (I := fun s : ℕ × TradingEngine σ => ∃ done,
      Sampled (xs ++ done) s.2 ∧ durations S fuel e.env.tickQueue e =
        done ++ durations S fuel s.2.env.tickQueue s.2) ?_
    ⟨[], by rwa [List.append_nil], rfl⟩ hrun
  · obtain ⟨⟨done, hs, heq⟩, hempty⟩ := hloop
    rw [TickGuard, not_not] at hempty
    rw [hempty, durations, List.append_nil] at heq
    rwa [heq]
  · rintro ⟨k, t⟩ s' ⟨done, hs, heq⟩ - hstep
    rw [popTick] at hstep
    split at hstep
    · cases hstep
      exact ⟨done, hs, heq⟩
    · rename_i tick ticks hq
      obtain ⟨t', ht', hstep⟩ := exists_of_bind_eq_ok hstep
      cases hstep
      obtain ⟨x, hx, hs'⟩ := hs.processTick ht'
      refine ⟨done ++ [x], by rwa [← List.append_assoc], ?_⟩
      have hqueue : t'.env.tickQueue = ticks := tickQueue_processTick ht'
      rw [heq, hq, hx, hqueue, List.append_assoc]
      rfl

/-- **One call.** -/
theorem Sampled.step {op : EngineOp σ} (h : Sampled xs e) (hop : op.run S fuel e = .ok e') :
    Sampled (op.samples S fuel e xs) e' := by
  cases op with
  | pushTick tick =>
    cases hop
    exact h.congr (unmeasured_pushTick tick e)
  | runOnce =>
    obtain ⟨r, hr, hop⟩ := exists_of_bind_eq_ok hop
    cases hop
    exact h.runOnce hr
  | submitOrder o =>
    exact h.congr (stepRel_unmeasured.submitOrder (stepRel_unmeasured.reports S fuel) hop)
  | cancelOrder id => exact h.congr (stepRel_unmeasured.toFillRel.cancelOrder hop)
  | invoke p =>
    obtain ⟨r, hr, hop⟩ := exists_of_bind_eq_ok hop
    cases hop
    exact h.congr (stepRel_unmeasured.interp hr)
  | enableQueueLatencyTracking on =>
    cases hop
    exact h.congr ⟨rfl, rfl⟩
  | resetLatencyStats =>
    cases hop
    exact ⟨records_empty kHistBounds, rfl⟩

/-- **Every run** has recorded its samples. -/
theorem Sampled.run {ops : List (EngineOp σ)} (h : Sampled xs e)
    (hrun : TradingEngine.run S ops fuel e = .ok e') : Sampled (samples S fuel ops e xs) e' := by
  induction ops generalizing e xs with
  | nil =>
    cases hrun
    exact h
  | cons op ops ih =>
    obtain ⟨t, ht, hrun⟩ := exists_of_bind_eq_ok hrun
    rw [samples, ht]
    exact ih (h.step ht) hrun

/-- **The reported percentile.** In every state of every run with ticks processed since the last
reset, there are as many samples as ticks processed, and the percentile is within the bucket of the
sample with its rank and not above the maximum if and only if the samples are fair to it. -/
theorem latencyPercentileNs_iff (S : Strategy σ) (c : OrderBookConfig) (riskConfig : RiskConfig)
    (st : σ) (clock : ℕ → ℤ) (ops : List (EngineOp σ)) (fuel : ℕ) (e : TradingEngine σ)
    (h : run S ops fuel (new c riskConfig st clock) = .ok e) (hticks : 0 < e.env.ticksProcessed)
    (pct : ℚ) (hpos : 0 < pct) (hpct : pct ≤ 100) :
    e.env.ticksProcessed = (samples S fuel ops (new c riskConfig st clock) []).length ∧
    (Matches kHistBounds (samples S fuel ops (new c riskConfig st clock) []) e.latencyMaxNs pct
        (e.latencyPercentileNs pct) ↔
      Fair kHistBounds (samples S fuel ops (new c riskConfig st clock) []) e.latencyMaxNs pct) := by
  have hs : Sampled (samples S fuel ops (new c riskConfig st clock) []) e :=
    (sampled_new c riskConfig st clock).run h
  refine ⟨hs.count, ?_⟩
  rw [hs.count] at hticks
  rw [latencyPercentileNs, hs.count]
  exact matches_percentile_iff (by decide) hs.records hticks hpos hpct

/-- An engine whose clock has moved on by `ns` nanoseconds at each reading. -/
def steadyEngine (ns : ℤ) : TradingEngine Unit :=
  new ⟨1, 13, 1, by decide, Int.one_pos, by decide⟩ {} () fun n => ns * n

/-- Two ticks, the second one after a reset. -/
def twoRounds : List (EngineOp Unit) :=
  [.pushTick ⟨1, 9, 11, 0, 0, 0, 0, 0, 0⟩, .runOnce, .resetLatencyStats,
    .pushTick ⟨1, 9, 11, 0, 0, 0, 0, 0, 0⟩, .runOnce]

/-- The median of one sample of 40 ns. -/
theorem latencyPercentileNs_iff_median : ∃ e,
    run silent twoRounds 4 (steadyEngine 40) = .ok e ∧ 0 < e.env.ticksProcessed ∧
    e.env.ticksProcessed = (samples silent 4 twoRounds (steadyEngine 40) []).length ∧
    (Matches kHistBounds (samples silent 4 twoRounds (steadyEngine 40) []) e.latencyMaxNs 50
        (e.latencyPercentileNs 50) ↔
      Fair kHistBounds (samples silent 4 twoRounds (steadyEngine 40) []) e.latencyMaxNs 50) := by
  obtain ⟨e, he, hticks⟩ : ∃ e,
      run silent twoRounds 4 (steadyEngine 40) = .ok e ∧ 0 < e.env.ticksProcessed := by
    decide +kernel
  exact ⟨e, he, hticks, latencyPercentileNs_iff silent _ _ _ _ _ 4 e he hticks 50 (by decide)
    (by decide)⟩

/-- **One sample of 2000 ns.** Its first percentile has rank one, and is reported as zero, which is
not in the bucket from 1000 to 5000. **One sample of 5 ns**: its median is reported as 25. -/
theorem latencyPercentileNs_one_sample :
    (∃ e, run silent twoRounds 4 (steadyEngine 2000) = .ok e ∧ e.latencyPercentileNs 1 = 0 ∧
      ¬ Matches kHistBounds (samples silent 4 twoRounds (steadyEngine 2000) []) e.latencyMaxNs 1
        (e.latencyPercentileNs 1)) ∧
    ∃ e, run silent twoRounds 4 (steadyEngine 5) = .ok e ∧ e.latencyMaxNs = 5 ∧
      e.latencyPercentileNs 50 = 25 := by
  have hsamples : samples silent 4 twoRounds (steadyEngine 2000) [] = [2000] := by decide +kernel
  constructor
  · obtain ⟨e, he, hvalue⟩ : ∃ e, run silent twoRounds 4 (steadyEngine 2000) = .ok e ∧
        e.latencyPercentileNs 1 = 0 := by decide +kernel
    refine ⟨e, he, hvalue, ?_⟩
    rintro ⟨x, hx, hlow, -⟩
    have hrank : OrderStatistics.kthSmallest [2000] (rank 1 1) = some 2000 := by decide +kernel
    rw [hsamples] at hx
    cases hrank.symm.trans hx
    rw [hvalue] at hlow
    exact absurd hlow (by decide)
  · decide +kernel

end TradingEngine

end MiniTrader
