import MiniTrader.Engine.PercentileOrder

/-!
# The reported waiting times

With tracking switched on, `push_tick` stamps a tick and `run_once` enters the time that has passed
since into a sum, a maximum and a histogram. A tick that is popped while tracking is off, or that
carries no stamp, is not measured. But `queue_wait_avg_ns` divides by `ticks_processed`, and
`queue_wait_percentile_ns` takes its rank from there: both count every tick.

So the statistics describe the measured ticks as long as these are all the ticks since the last
reset. One tick more, and the average is too small and the 100th percentile asks for a rank beyond
the histogram: it is the maximum, where the percentiles below are interpolated up to the bound of a
bucket.

## Main definitions

* `queueWaitAvgNs` — what the engine reports
* `Measured`, `waits`, `queueWaits` — what it has measured
* `EngineOp.Uniform` — a call that does not mix measured ticks with others

## Main results

* `Waited.run` — the statistics are those of the measured ticks
* `queueWait_of_uniform` — the average and the percentiles of runs that do not mix
-/

namespace MiniTrader

open Fuelled LatencyStats

namespace TradingEngine

variable {σ : Type} {S : Strategy σ} {e e' : TradingEngine σ} {fuel : ℕ} {ws : List ℕ}
  {tick : MarketTick} {ticks : List MarketTick}

/-- `queue_wait_avg_ns`. -/
def queueWaitAvgNs (e : TradingEngine σ) : ℕ :=
  if e.env.ticksProcessed = 0 then 0 else e.env.queueWait.sum / e.env.ticksProcessed

/-! ### Measured ticks -/

/-- The waiting time of the tick is measured if it is popped now. -/
def Measured (e : TradingEngine σ) (tick : MarketTick) : Prop :=
  e.env.trackQueueLatency = true ∧ tick.localTimestampNs ≠ 0

instance (e : TradingEngine σ) : DecidablePred (Measured e) :=
  fun _ => inferInstanceAs (Decidable (_ ∧ _))

/-- The time the tick has waited if it is popped now. -/
def wait (e : TradingEngine σ) (tick : MarketTick) : ℕ :=
  if tick.localTimestampNs < castUint64 e.now then castUint64 e.now - tick.localTimestampNs else 0

/-- What is measured of a tick. -/
def waitOf (e : TradingEngine σ) (tick : MarketTick) : List ℕ :=
  if Measured e tick then [wait e tick] else []

/-- The waiting times `run_once` measures for these ticks. -/
def waits (S : Strategy σ) (fuel : ℕ) : List MarketTick → TradingEngine σ → List ℕ
  | [], _ => []
  | tick :: ticks, e =>
    match processTick S fuel tick (e.setTickQueue ticks) with
    | .ok e' => waitOf e tick ++ waits S fuel ticks e'
    | .error _ => waitOf e tick

/-- The waiting times measured since the last reset after a call, when `ws` are those before it. -/
def EngineOp.waits (S : Strategy σ) (fuel : ℕ) (op : EngineOp σ) (e : TradingEngine σ)
    (ws : List ℕ) : List ℕ :=
  match op with
  | .runOnce => ws ++ TradingEngine.waits S fuel e.env.tickQueue e
  | .resetLatencyStats => []
  | _ => ws

/-- The waiting times measured since the last reset after a sequence of calls. -/
def queueWaits (S : Strategy σ) (fuel : ℕ) :
    List (EngineOp σ) → TradingEngine σ → List ℕ → List ℕ
  | [], _, ws => ws
  | op :: ops, e, ws =>
    match op.run S fuel e with
    | .ok e' => queueWaits S fuel ops e' (op.waits S fuel e ws)
    | .error _ => ws

/-- The engine has recorded the waiting times. -/
structure Waited (ws : List ℕ) (e : TradingEngine σ) : Prop where
  records : Records kQHistBounds ws e.env.queueWait
  sum : e.env.queueWait.sum = ws.sum % 18446744073709551616

theorem waited_new (c : OrderBookConfig) (riskConfig : RiskConfig) (st : σ) (clock : ℕ → ℤ) :
    Waited [] (new c riskConfig st clock) :=
  ⟨records_empty kQHistBounds, rfl⟩

/-! ### One call -/

/-- What belongs to the waiting times is left alone. -/
structure Untimed (e e' : TradingEngine σ) : Prop where
  queueWait : e'.env.queueWait = e.env.queueWait
  ticksProcessed : e'.env.ticksProcessed = e.env.ticksProcessed
  trackQueueLatency : e'.env.trackQueueLatency = e.env.trackQueueLatency

theorem Untimed.trans {e₁ e₂ e₃ : TradingEngine σ} (h : Untimed e₁ e₂) (h' : Untimed e₂ e₃) :
    Untimed e₁ e₃ :=
  ⟨h'.1.trans h.1, h'.2.trans h.2, h'.3.trans h.3⟩

theorem untimed_beforeOnFill (r : ExecutionReport) (e : TradingEngine σ) :
    Untimed e (beforeOnFill r e) := by
  rw [beforeOnFill_eq]
  exact ⟨rfl, rfl, rfl⟩

theorem stepRel_untimed : StepRel (Untimed (σ := σ)) where
  refl _ := ⟨rfl, rfl, rfl⟩
  trans := .trans
  withBook _ _ := ⟨rfl, rfl, rfl⟩
  setStrategy _ _ := ⟨rfl, rfl, rfl⟩
  rejected _ _ _ := ⟨rfl, rfl, rfl⟩
  admitted own o e := by
    rw [admitted_eq]
    exact ⟨rfl, rfl, rfl⟩
  untracked _ _ := ⟨rfl, rfl, rfl⟩
  fill h h' :=
    ((untimed_beforeOnFill _ _).trans h).trans ((untimed_beforeOnFill _ _).trans h')

theorem Waited.congr (h : Waited ws e) (he : e'.env.queueWait = e.env.queueWait) :
    Waited ws e' :=
  ⟨by rw [he]; exact h.records, by rw [he]; exact h.sum⟩

/-- What is measured before `on_tick`. -/
theorem Waited.beforeOnTick (h : Waited ws e) (tick : MarketTick) :
    Waited (ws ++ waitOf e tick) (e.beforeOnTick tick) := by
  rw [waitOf, TradingEngine.beforeOnTick]
  dsimp only
  by_cases hm : Measured e tick
  · have hm' : e.readClock.env.trackQueueLatency ∧ tick.localTimestampNs ≠ 0 := hm
    rw [if_pos hm, if_pos hm']
    refine ⟨h.records.record _, ?_⟩
    rw [List.sum_append, List.sum_singleton, Nat.add_mod, ← h.sum]
    change (e.env.queueWait.sum + wait e tick) % _ = _
    rw [Nat.add_mod]
    congr 2
    rw [h.sum, Nat.mod_mod]
  · have hm' : ¬ (e.readClock.env.trackQueueLatency ∧ tick.localTimestampNs ≠ 0) := hm
    rw [if_neg hm, if_neg hm', List.append_nil]
    exact h.congr rfl

theorem trackQueueLatency_beforeOnTick (tick : MarketTick) (e : TradingEngine σ) :
    (e.beforeOnTick tick).env.trackQueueLatency = e.env.trackQueueLatency := by
  unfold TradingEngine.beforeOnTick
  dsimp only
  split <;> rfl

theorem ticksProcessed_beforeOnTick (tick : MarketTick) (e : TradingEngine σ) :
    (e.beforeOnTick tick).env.ticksProcessed = e.env.ticksProcessed :=
  (unmeasured_beforeOnTick tick e).2

/-- **One tick** of the queue. -/
theorem Waited.processTick (h : Waited ws e)
    (hp : (e.setTickQueue ticks).processTick S fuel tick = .ok e') :
    Waited (ws ++ waitOf e tick) e' ∧ e'.env.ticksProcessed = e.env.ticksProcessed + 1 ∧
      e'.env.trackQueueLatency = e.env.trackQueueLatency := by
  obtain ⟨r, hr, rfl⟩ := processTick_eq_ok hp
  have hpopped : Waited ws (e.setTickQueue ticks) := h.congr rfl
  have hbefore : Waited (ws ++ waitOf e tick) ((e.setTickQueue ticks).beforeOnTick tick) :=
    hpopped.beforeOnTick tick
  have huntimed := stepRel_untimed.interp hr
  refine ⟨(hbefore.congr huntimed.queueWait).congr rfl, ?_, ?_⟩
  · change r.2.env.ticksProcessed + 1 = _
    rw [huntimed.ticksProcessed, ticksProcessed_beforeOnTick]
    rfl
  · change r.2.env.trackQueueLatency = _
    rw [huntimed.trackQueueLatency, trackQueueLatency_beforeOnTick]
    rfl

theorem length_waitOf (e : TradingEngine σ) (tick : MarketTick) :
    (waitOf e tick).length = if Measured e tick then 1 else 0 := by
  rw [waitOf]
  split <;> rfl

/-- The flag decides together with the tick. -/
theorem measured_congr (he : e'.env.trackQueueLatency = e.env.trackQueueLatency) :
    Measured e' tick ↔ Measured e tick := by
  rw [Measured, Measured, he]

/-- **The loop of `run_once`**: the waiting times are those of the measured ticks of the queue, and
every tick is counted. -/
theorem Waited.runOnce {r : ℕ × TradingEngine σ} (h : Waited ws e)
    (hrun : e.runOnce S fuel = .ok r) :
    Waited (ws ++ waits S fuel e.env.tickQueue e) r.2 ∧
      r.2.env.ticksProcessed = e.env.ticksProcessed + e.env.tickQueue.length ∧
      (waits S fuel e.env.tickQueue e).length = e.env.tickQueue.countP (Measured e ·) := by
  have hloop := whileLoop_induction (I := fun s : ℕ × TradingEngine σ => ∃ done,
      Waited (ws ++ done) s.2 ∧
      waits S fuel e.env.tickQueue e = done ++ waits S fuel s.2.env.tickQueue s.2 ∧
      s.2.env.ticksProcessed + s.2.env.tickQueue.length =
        e.env.ticksProcessed + e.env.tickQueue.length ∧
      done.length + s.2.env.tickQueue.countP (Measured e ·) =
        e.env.tickQueue.countP (Measured e ·) ∧
      s.2.env.trackQueueLatency = e.env.trackQueueLatency) ?_
    ⟨[], by rwa [List.append_nil], rfl, rfl, Nat.zero_add _, rfl⟩ hrun
  · obtain ⟨⟨done, hs, heq, hticks, hcount, -⟩, hempty⟩ := hloop
    rw [TickGuard, not_not] at hempty
    rw [hempty, waits, List.append_nil] at heq
    rw [hempty] at hticks hcount
    rw [heq]
    exact ⟨hs, hticks, hcount⟩
  · rintro ⟨k, t⟩ s' ⟨done, hs, heq, hticks, hcount, hflag⟩ - hstep
    rw [popTick] at hstep
    split at hstep
    · cases hstep
      exact ⟨done, hs, heq, hticks, hcount, hflag⟩
    · rename_i tick ticks hq
      obtain ⟨t', ht', hstep⟩ := exists_of_bind_eq_ok hstep
      cases hstep
      dsimp only at hs hq hticks hcount hflag
      obtain ⟨hs', hticks', hflag'⟩ := hs.processTick ht'
      have hqueue : t'.env.tickQueue = ticks := tickQueue_processTick ht'
      refine ⟨done ++ waitOf t tick, by rwa [← List.append_assoc], ?_, ?_, ?_, ?_⟩
      · rw [heq, hq, waits, ht', hqueue, List.append_assoc]
      · rw [hq, List.length_cons] at hticks
        rw [hticks', hqueue]
        omega
      · rw [hq, List.countP_cons] at hcount
        rw [List.length_append, length_waitOf, hqueue, ← hcount]
        simp only [measured_congr hflag, decide_eq_true_eq]
        omega
      · exact hflag'.trans hflag

theorem untimed_pushTick (tick : MarketTick) (e : TradingEngine σ) :
    Untimed e (e.pushTick tick).2 := by
  unfold TradingEngine.pushTick
  dsimp only
  split_ifs <;> exact ⟨rfl, rfl, rfl⟩

/-- Only `run_once` and `reset_latency_stats` touch the statistics. -/
theorem EngineOp.untimed_or (ws : List ℕ) {op : EngineOp σ} (hop : op.run S fuel e = .ok e') :
    op = .runOnce ∨ op = .resetLatencyStats ∨
      (e'.env.queueWait = e.env.queueWait ∧ e'.env.ticksProcessed = e.env.ticksProcessed ∧
        op.waits S fuel e ws = ws) := by
  cases op with
  | pushTick tick =>
    cases hop
    have h := untimed_pushTick tick e
    exact .inr (.inr ⟨h.queueWait, h.ticksProcessed, rfl⟩)
  | runOnce => exact .inl rfl
  | submitOrder o =>
    have h := stepRel_untimed.submitOrder (stepRel_untimed.reports S fuel) hop
    exact .inr (.inr ⟨h.queueWait, h.ticksProcessed, rfl⟩)
  | cancelOrder id =>
    have h := stepRel_untimed.toFillRel.cancelOrder hop
    exact .inr (.inr ⟨h.queueWait, h.ticksProcessed, rfl⟩)
  | invoke p =>
    obtain ⟨r, hr, hop⟩ := exists_of_bind_eq_ok hop
    cases hop
    have h := stepRel_untimed.interp hr
    exact .inr (.inr ⟨h.queueWait, h.ticksProcessed, rfl⟩)
  | enableQueueLatencyTracking on =>
    cases hop
    exact .inr (.inr ⟨rfl, rfl, rfl⟩)
  | resetLatencyStats => exact .inr (.inl rfl)

/-- **One call.** -/
theorem Waited.step {op : EngineOp σ} (h : Waited ws e) (hop : op.run S fuel e = .ok e') :
    Waited (op.waits S fuel e ws) e' := by
  rcases EngineOp.untimed_or ws hop with rfl | rfl | ⟨hwait, -, heq⟩
  · obtain ⟨r, hr, hop⟩ := exists_of_bind_eq_ok hop
    cases hop
    exact (h.runOnce hr).1
  · cases hop
    exact ⟨records_empty kQHistBounds, rfl⟩
  · rw [heq]
    exact h.congr hwait

/-- **Every run** has recorded the waiting times. -/
theorem Waited.run {ops : List (EngineOp σ)} (h : Waited ws e)
    (hrun : TradingEngine.run S ops fuel e = .ok e') :
    Waited (queueWaits S fuel ops e ws) e' := by
  induction ops generalizing e ws with
  | nil =>
    cases hrun
    exact h
  | cons op ops ih =>
    obtain ⟨t, ht, hrun⟩ := exists_of_bind_eq_ok hrun
    rw [queueWaits, ht]
    exact ih (h.step ht) hrun

/-! ### Runs that do not mix -/

/-- A call that does not mix measured ticks with others: `run_once` measures every tick, when every
tick since the last reset has been measured and the sum of the waiting times stays in `uint64_t`; or
it measures none, when none has been measured. -/
def EngineOp.Uniform (S : Strategy σ) : EngineOp σ → TradingEngine σ → Prop
  | .runOnce, e =>
    (e.env.queueWait.hist.sum = e.env.ticksProcessed ∧ (∀ tick ∈ e.env.tickQueue, Measured e tick) ∧
      ∀ fuel, e.env.queueWait.sum + (TradingEngine.waits S fuel e.env.tickQueue e).sum <
        18446744073709551616) ∨
    (e.env.queueWait.hist.sum = 0 ∧ ∀ tick ∈ e.env.tickQueue, ¬ Measured e tick)
  | _, _ => True

/-- All of the ticks since the last reset have been measured, or none. -/
structure Steady (ws : List ℕ) (e : TradingEngine σ) : Prop extends Waited ws e where
  all_or_none : ws = [] ∨ ws.length = e.env.ticksProcessed
  fits : ws.sum < 18446744073709551616

theorem steady_new (c : OrderBookConfig) (riskConfig : RiskConfig) (st : σ) (clock : ℕ → ℤ) :
    Steady [] (new c riskConfig st clock) :=
  ⟨waited_new c riskConfig st clock, .inl rfl, by decide⟩

theorem Steady.runOnce {r : ℕ × TradingEngine σ} (h : Steady ws e)
    (hok : EngineOp.Uniform S .runOnce e) (hrun : e.runOnce S fuel = .ok r) :
    Steady (ws ++ waits S fuel e.env.tickQueue e) r.2 := by
  obtain ⟨hwaited, hticks, hcount⟩ := h.toWaited.runOnce hrun
  rcases hok with ⟨hall, hmeasured, hfits⟩ | ⟨hnone, hnot⟩
  · have hlen : (waits S fuel e.env.tickQueue e).length = e.env.tickQueue.length := by
      rw [hcount, List.countP_eq_length]
      exact fun tick ht => decide_eq_true (hmeasured tick ht)
    rw [h.records.sum_hist] at hall
    have hsum := hfits fuel
    rw [h.sum, Nat.mod_eq_of_lt h.fits] at hsum
    refine ⟨hwaited, .inr ?_, by rwa [List.sum_append]⟩
    rw [List.length_append, hlen, hall, hticks]
  · have hnil : waits S fuel e.env.tickQueue e = [] := by
      rw [← List.length_eq_zero_iff, hcount, List.countP_eq_zero]
      exact fun tick ht => by rw [decide_eq_true_eq]; exact hnot tick ht
    rw [h.records.sum_hist, List.length_eq_zero_iff] at hnone
    rw [hnil, List.append_nil] at hwaited ⊢
    exact ⟨hwaited, .inl hnone, h.fits⟩

/-- **One call** that does not mix. -/
theorem Steady.step {op : EngineOp σ} (h : Steady ws e) (hok : op.Uniform S e)
    (hop : op.run S fuel e = .ok e') : Steady (op.waits S fuel e ws) e' := by
  have hwaited := h.toWaited.step hop
  rcases EngineOp.untimed_or ws hop with rfl | rfl | ⟨-, hticks, heq⟩
  · obtain ⟨r, hr, hop⟩ := exists_of_bind_eq_ok hop
    cases hop
    exact h.runOnce hok hr
  · exact ⟨hwaited, .inl rfl, Nat.two_pow_pos 64⟩
  · rw [heq] at hwaited ⊢
    exact ⟨hwaited, by rw [hticks]; exact h.all_or_none, h.fits⟩

theorem Steady.run {ops : List (EngineOp σ)} (h : Steady ws e)
    (hops : AllowedFrom (EngineOp.Uniform S) (EngineOp.run S) ops e)
    (hrun : TradingEngine.run S ops fuel e = .ok e') :
    Steady (queueWaits S fuel ops e ws) e' := by
  induction ops generalizing e ws with
  | nil =>
    cases hrun
    exact h
  | cons op ops ih =>
    obtain ⟨t, ht, hrun⟩ := exists_of_bind_eq_ok hrun
    rw [queueWaits, ht]
    exact ih (h.step hops.1 ht) (hops.2 fuel t ht) hrun

/-- **The reported waiting times.** In every run that does not mix measured ticks with others, once
a waiting time has been measured since the last reset, the average is the integer mean of the
measured ones and the percentiles from 0 to 100 are monotone. -/
theorem queueWait_of_uniform (S : Strategy σ) (c : OrderBookConfig) (riskConfig : RiskConfig)
    (st : σ) (clock : ℕ → ℤ) (ops : List (EngineOp σ)) (fuel : ℕ) (e : TradingEngine σ)
    (h : TradingEngine.run S ops fuel (new c riskConfig st clock) = .ok e)
    (hops : AllowedFrom (EngineOp.Uniform S) (EngineOp.run S) ops (new c riskConfig st clock))
    (hne : queueWaits S fuel ops (new c riskConfig st clock) [] ≠ []) :
    e.queueWaitAvgNs = (queueWaits S fuel ops (new c riskConfig st clock) []).sum /
        (queueWaits S fuel ops (new c riskConfig st clock) []).length ∧
    ∀ p q : ℚ, 0 ≤ p → p ≤ q → q ≤ 100 → e.queueWaitPercentileNs p ≤ e.queueWaitPercentileNs q := by
  have hs : Steady (queueWaits S fuel ops (new c riskConfig st clock) []) e :=
    (steady_new c riskConfig st clock).run hops h
  have hcount := hs.all_or_none.resolve_left hne
  have hpos := List.length_pos_iff.mpr hne
  constructor
  · rw [queueWaitAvgNs, if_neg (by omega), hs.sum, Nat.mod_eq_of_lt hs.fits, hcount]
  · intro p q _ hpq hq
    rw [queueWaitPercentileNs, queueWaitPercentileNs, ← hcount]
    exact hs.records.percentile_mono (by decide) hpq hq

/-- An engine whose clock moves on by 5 ns at each reading. -/
def tickingEngine : TradingEngine Unit :=
  new ⟨1, 15, 1, by decide, Int.one_pos, by decide⟩ {} () fun n => 5 * (n + 1)

/-- A tick that is measured. -/
def measuredTick : List (EngineOp Unit) :=
  [.enableQueueLatencyTracking true, .pushTick ⟨1, 9, 11, 0, 0, 0, 0, 0, 0⟩, .runOnce]

/-- The same after one that is not. -/
def mixedTicks : List (EngineOp Unit) :=
  [.pushTick ⟨1, 9, 11, 0, 0, 0, 0, 0, 0⟩, .runOnce] ++ measuredTick

/-- One measured tick. -/
theorem queueWait_of_uniform_measuredTick : ∃ e, run silent measuredTick 4 tickingEngine = .ok e ∧
    e.queueWaitAvgNs = 5 ∧ e.queueWaitPercentileNs 50 ≤ e.queueWaitPercentileNs 99 := by
  obtain ⟨e, he, -⟩ : ∃ e, run silent measuredTick 4 tickingEngine = .ok e ∧ True := by
    decide +kernel
  have hwaits : queueWaits silent 4 measuredTick tickingEngine [] = [5] := by decide +kernel
  have huniform :
      AllowedFrom (EngineOp.Uniform silent) (EngineOp.run silent) measuredTick tickingEngine := by
    refine ⟨trivial, fun _ _ h => ?_⟩
    cases h
    refine ⟨trivial, fun _ _ h => ?_⟩
    cases h
    exact ⟨.inl ⟨rfl, by decide +kernel, fun _ => show 5 < 18446744073709551616 by decide⟩,
      fun _ _ _ => trivial⟩
  obtain ⟨havg, hmono⟩ := queueWait_of_uniform silent _ _ _ _ measuredTick 4 e he huniform
    (by rw [← tickingEngine, hwaits]; decide)
  rw [← tickingEngine, hwaits] at havg
  exact ⟨e, he, havg, hmono 50 99 (by decide) (by decide) (by decide)⟩

/-- **One tick is not measured, the next has waited for 5 ns.** The average is half of that, and the
median is above the maximum. -/
theorem queueWait_mixedTicks : ∃ e, run silent mixedTicks 4 tickingEngine = .ok e ∧
    queueWaits silent 4 mixedTicks tickingEngine [] = [5] ∧ e.queueWaitAvgNs = 2 ∧
    e.queueWaitPercentileNs 50 = 1000 ∧ e.queueWaitPercentileNs 100 = 5 := by
  decide +kernel

end TradingEngine

end MiniTrader
