import MiniTrader.Engine.Parametric
import MiniTrader.Engine.QueueWait
import MiniTrader.Strategy.SpreadStrategy

/-!
# Batches of ticks

`push_tick` only queues a tick; the work is done in `run_once`, which drains whatever is in the
queue. So it should not matter how a stream of ticks is cut into batches. It does not, as long as
no batch is longer than the queue and ticks are not stamped on arrival: every schedule of
`push_tick` and `run_once` that ends with a `run_once` leaves the engine in the state in which
processing the ticks one after the other leaves it, statistics and all (`run_eq_processAll`).

The reason is that nothing reads the queue while a tick is processed: an engine with another queue
does the same (`processTick_setTickQueue`). This is an instance of the relational rules, for an
arbitrary strategy that may submit orders from inside `on_fill`.

## Main definitions

* `processAll` — the ticks one after the other
* `IsSchedule` — no batch is longer than the queue
* `pushedTicks` — the ticks of a schedule

## Main results

* `processTick_setTickQueue` — the queue is not looked at
* `runOnce_eq` — `run_once` processes the queue
* `converges_run_iff_of_batches` — two schedules of the same ticks
-/

namespace MiniTrader

open Fuelled

namespace TradingEngine

open OrderBook World

variable {σ : Type} {S : Strategy σ} {e e' : TradingEngine σ} {fuel n : ℕ}

/-! ### The queue is not looked at -/

/-- Two engines that differ in their queues. -/
def SameButQueue (e e' : EngineEnv σ) : Prop :=
  { e with tickQueue := [] } = { e' with tickQueue := [] }

@[simp] theorem tickQueue_setTickQueue (ticks : List MarketTick) (e : TradingEngine σ) :
    (e.setTickQueue ticks).env.tickQueue = ticks := rfl

theorem related_sameButQueue_iff : Related SameButQueue e e' ↔
    e' = e.setTickQueue e'.env.tickQueue := by
  constructor
  · rintro ⟨hb, he⟩
    obtain ⟨b, env⟩ := e
    obtain ⟨b', env'⟩ := e'
    cases env
    cases env'
    simp only [SameButQueue, EngineEnv.mk.injEq, true_and] at hb he
    obtain ⟨rfl, rfl, rfl, rfl, rfl, rfl, rfl, rfl, rfl, rfl, rfl, rfl, rfl, rfl⟩ := he
    cases hb
    rfl
  · intro h
    rw [h]
    exact ⟨rfl, rfl⟩

theorem related_sameButQueue_symm (h : Related SameButQueue e e') :
    Related SameButQueue e' e :=
  ⟨h.book.symm, h.env.symm⟩

theorem beforeOnTick_setTickQueue (tick : MarketTick) (ticks : List MarketTick)
    (e : TradingEngine σ) :
    (e.setTickQueue ticks).beforeOnTick tick = (e.beforeOnTick tick).setTickQueue ticks := by
  by_cases h : e.readClock.env.trackQueueLatency = true ∧ tick.localTimestampNs ≠ 0
  · have h' : (e.setTickQueue ticks).readClock.env.trackQueueLatency = true ∧
      tick.localTimestampNs ≠ 0 := h
    unfold beforeOnTick
    dsimp only
    rw [if_pos h, if_pos h']
    rfl
  · have h' : ¬ ((e.setTickQueue ticks).readClock.env.trackQueueLatency = true ∧
      tick.localTimestampNs ≠ 0) := h
    unfold beforeOnTick
    dsimp only
    rw [if_neg h, if_neg h']
    rfl

theorem tickRespected_sameButQueue : TickRespected (σ := σ) SameButQueue Eq Eq where
  strategy h := by rw [related_sameButQueue_iff.mp h]; rfl
  setStrategy h hst := by
    rw [related_sameButQueue_iff.mp h, hst]
    exact ⟨rfl, rfl⟩
  position h := by rw [related_sameButQueue_iff.mp h]; rfl
  passes _ h := by rw [related_sameButQueue_iff.mp h]; rfl
  rejected _ _ h := by
    rw [related_sameButQueue_iff.mp h]
    exact ⟨rfl, rfl⟩
  admitted _ _ h := by
    rw [related_sameButQueue_iff.mp h, admitted_eq, admitted_eq]
    exact ⟨rfl, rfl⟩
  untracked _ h := by
    rw [related_sameButQueue_iff.mp h]
    exact ⟨rfl, rfl⟩
  beforeOnFill _ h := by
    rw [related_sameButQueue_iff.mp h, beforeOnFill_eq, beforeOnFill_eq]
    exact ⟨rfl, rfl⟩
  beforeOnTick ht h := by
    rw [related_sameButQueue_iff.mp h, ht, beforeOnTick_setTickQueue]
    exact ⟨rfl, rfl⟩
  afterOnTick h h' := by
    rw [related_sameButQueue_iff.mp h, related_sameButQueue_iff.mp h']
    exact ⟨rfl, rfl⟩

/-- **The queue is not looked at** while a tick is processed. -/
theorem processTick_setTickQueue (S : Strategy σ) (fuel : ℕ) (tick : MarketTick)
    (ticks : List MarketTick) (e : TradingEngine σ) :
    (e.setTickQueue ticks).processTick S fuel tick =
      (e.processTick S fuel tick).map (setTickQueue ticks) := by
  have hrel : Related SameButQueue e (e.setTickQueue ticks) := ⟨rfl, rfl⟩
  have hrel' : Related SameButQueue (e.setTickQueue ticks) e := ⟨rfl, rfl⟩
  have hbelow := tickRespected_sameButQueue.processTick S.alike_refl (le_refl fuel)
    (rfl : tick = tick) hrel
  have hbelow' := tickRespected_sameButQueue.processTick S.alike_refl (le_refl fuel)
    (rfl : tick = tick) hrel'
  refine hbelow'.map_eq hbelow fun f g hf _ hfg => ?_
  have hqueue : f.env.tickQueue = ticks := tickQueue_processTick hf
  rw [related_sameButQueue_iff.mp (related_sameButQueue_symm hfg), hqueue]

/-! ### Draining the queue -/

/-- Processing the ticks one after the other. -/
def processAll (S : Strategy σ) (fuel : ℕ) (ticks : List MarketTick) (e : TradingEngine σ) :
    Outcome (TradingEngine σ) :=
  runList (fun tick fuel e => e.processTick S fuel tick) fuel ticks e

theorem persistent_processAll (S : Strategy σ) (ticks : List MarketTick) (e : TradingEngine σ) :
    Persistent fun fuel => processAll S fuel ticks e :=
  fun n m hnm => below_runList (P := Eq) (fun t t' s s' ht hs => by
    cases ht
    cases hs
    exact persistent_processTick S t s n m hnm) (List.forall₂_refl ticks) rfl

theorem processAll_append (S : Strategy σ) (fuel : ℕ) (ticks ticks' : List MarketTick)
    (e : TradingEngine σ) : processAll S fuel (ticks ++ ticks') e =
      processAll S fuel ticks e >>= processAll S fuel ticks' :=
  runList_append_eq_bind fuel ticks ticks' e

/-- **`run_once` processes the queue.** -/
theorem runOnce_eq (h : e.env.tickQueue.length < fuel) :
    e.runOnce S fuel = (processAll S fuel e.env.tickQueue (e.setTickQueue [])).map
      fun f => (e.env.tickQueue.length, f) := by
  -- the loop, from the state in which `ticks` are left and `k` have been processed
  have key : ∀ ticks n k (e : TradingEngine σ), e.env.tickQueue = ticks → ticks.length < n →
      whileAux TickGuard (popTick S fuel) n (k, e) =
        (processAll S fuel ticks (e.setTickQueue [])).map fun f => (k + ticks.length, f) := by
    intro ticks
    induction ticks with
    | nil =>
      intro n k e hq hn
      obtain ⟨n, rfl⟩ : ∃ m, n = m + 1 := ⟨n - 1, by simp at hn; omega⟩
      have hstop : ¬ TickGuard (k, e) := not_not.mpr hq
      rw [whileAux_succ_of_not_guard hstop]
      have : e.setTickQueue [] = e := by rw [← hq]; rfl
      rw [this]
      rfl
    | cons tick ticks ih =>
      intro n k e hq hn
      obtain ⟨n, rfl⟩ : ∃ m, n = m + 1 := ⟨n - 1, by simp at hn; omega⟩
      have hguard : TickGuard (k, e) := by rw [TickGuard, hq]; exact List.cons_ne_nil _ _
      rw [whileAux_succ_of_guard hguard]
      have hpop : popTick S fuel (k, e) =
          processTick S fuel tick (e.setTickQueue ticks) >>= fun f => .ok (k + 1, f) := by
        unfold popTick
        rw [hq]
      have hset : e.setTickQueue ticks = (e.setTickQueue []).setTickQueue ticks := rfl
      rw [hpop, hset, processTick_setTickQueue, processAll, runList]
      cases hf : (e.setTickQueue []).processTick S fuel tick with
      | error err => rfl
      | ok f =>
        have hnil : (f.setTickQueue ticks).setTickQueue [] = f := by
          have : f.env.tickQueue = [] := tickQueue_processTick hf
          rw [← this]
          rfl
        have := ih n (k + 1) (f.setTickQueue ticks) rfl (by simp at hn; omega)
        rw [hnil] at this
        refine this.trans ?_
        rw [List.length_cons, Nat.add_assoc, Nat.add_comm 1]
        rfl
  have := key _ fuel 0 e rfl h
  rw [Nat.zero_add] at this
  exact this

/-! ### Schedules -/

/-- The ticks of a schedule. -/
def pushedTicks : List (EngineOp σ) → List MarketTick
  | [] => []
  | .pushTick tick :: ops => tick :: pushedTicks ops
  | _ :: ops => pushedTicks ops

/-- The calls are `push_tick` and `run_once`, and no batch is longer than the queue, in which `k`
ticks are waiting. -/
def IsSchedule : ℕ → List (EngineOp σ) → Prop
  | _, [] => True
  | k, .pushTick _ :: ops => k < kQueueCap - 1 ∧ IsSchedule (k + 1) ops
  | _, .runOnce :: ops => IsSchedule 0 ops
  | _, _ :: _ => False

theorem pushedTicks_append_runOnce (ops : List (EngineOp σ)) :
    pushedTicks (ops ++ [.runOnce]) = pushedTicks ops := by
  induction ops with
  | nil => rfl
  | cons op ops ih =>
    cases op with
    | pushTick tick => exact congrArg (tick :: ·) ih
    | _ => exact ih

theorem trackQueueLatency_processTick {tick : MarketTick}
    (h : e.processTick S fuel tick = .ok e') :
    e'.env.trackQueueLatency = e.env.trackQueueLatency := by
  obtain ⟨r, hr, rfl⟩ := processTick_eq_ok h
  change r.2.env.trackQueueLatency = _
  rw [(stepRel_untimed.interp hr).trackQueueLatency, trackQueueLatency_beforeOnTick]

theorem of_processAll {ticks : List MarketTick} (h : processAll S fuel ticks e = .ok e') :
    e'.env.trackQueueLatency = e.env.trackQueueLatency ∧
      e'.env.tickQueue = e.env.tickQueue := by
  induction ticks generalizing e with
  | nil => cases h; exact ⟨rfl, rfl⟩
  | cons tick ticks ih =>
    rw [processAll, runList] at h
    obtain ⟨f, hf, h⟩ := exists_of_bind_eq_ok h
    obtain ⟨htrack, hqueue⟩ := ih h
    exact ⟨htrack.trans (trackQueueLatency_processTick hf), hqueue.trans (tickQueue_processTick hf)⟩

theorem pushTick_eq (htrack : e.env.trackQueueLatency = false)
    (hlen : e.env.tickQueue.length < kQueueCap - 1) (tick : MarketTick) :
    (e.pushTick tick).2 = e.setTickQueue (e.env.tickQueue ++ [tick]) := by
  unfold pushTick
  simp only [htrack, Bool.false_eq_true, if_false, if_pos hlen]
  rfl

/-- **Every schedule processes its ticks one after the other.** -/
theorem run_eq_processAll (hfuel : kQueueCap ≤ fuel) {ops : List (EngineOp σ)}
    (htrack : e.env.trackQueueLatency = false) (hlen : e.env.tickQueue.length < kQueueCap)
    (hops : IsSchedule e.env.tickQueue.length ops) :
    run S (ops ++ [.runOnce]) fuel e =
      processAll S fuel (e.env.tickQueue ++ pushedTicks ops) (e.setTickQueue []) := by
  -- `run_once` and what follows it
  have hdrain : ∀ ops', (∀ f : TradingEngine σ, f.env.trackQueueLatency = false →
      f.env.tickQueue = [] → runList (EngineOp.run S) fuel ops' f =
        processAll S fuel (pushedTicks ops') f) →
      ∀ e : TradingEngine σ, e.env.trackQueueLatency = false → e.env.tickQueue.length < kQueueCap →
      runList (EngineOp.run S) fuel (.runOnce :: ops') e =
        processAll S fuel (e.env.tickQueue ++ pushedTicks ops') (e.setTickQueue []) := by
    intro ops' hrest e htrack hlen
    rw [runList, EngineOp.run, runOnce_eq (by omega), processAll_append]
    cases hf : processAll S fuel e.env.tickQueue (e.setTickQueue []) with
    | error err => rfl
    | ok f =>
      obtain ⟨htrack', hqueue'⟩ := of_processAll hf
      exact hrest f (htrack'.trans htrack) hqueue'
  unfold run
  induction ops generalizing e with
  | nil =>
    refine hdrain [] (fun f _ _ => rfl) e htrack hlen
  | cons op ops ih =>
    cases op with
    | pushTick tick =>
      obtain ⟨hlt, hops⟩ := hops
      rw [List.cons_append, runList, EngineOp.run, pushTick_eq htrack hlt, ok_bind]
      have hlen' : (e.env.tickQueue ++ [tick]).length = e.env.tickQueue.length + 1 :=
        List.length_append
      refine (ih (e := e.setTickQueue (e.env.tickQueue ++ [tick])) htrack ?_ ?_).trans ?_
      · rw [tickQueue_setTickQueue, hlen']
        omega
      · rw [tickQueue_setTickQueue, hlen']
        exact hops
      · rw [tickQueue_setTickQueue, List.append_assoc]
        rfl
    | runOnce =>
      refine (hdrain (ops ++ [.runOnce]) (fun f htrack' hqueue' => ?_) e htrack hlen).trans ?_
      · have hnil : f.setTickQueue [] = f := by rw [← hqueue']; rfl
        rw [ih htrack' (by rw [hqueue']; decide) (by rw [hqueue']; exact hops), hqueue', hnil,
          pushedTicks_append_runOnce, List.nil_append]
      · rw [pushedTicks_append_runOnce]
        rfl
    | _ => exact hops.elim

/-- Every tick in a batch of its own. -/
def tickwise (ticks : List MarketTick) : List (EngineOp σ) :=
  ticks.flatMap fun tick => [.pushTick tick, .runOnce]

/-- One batch after the other. -/
theorem run_tickwise (hfuel : kQueueCap ≤ fuel) (htrack : e.env.trackQueueLatency = false)
    (hqueue : e.env.tickQueue = []) (ticks : List MarketTick) :
    run S (tickwise ticks) fuel e = processAll S fuel ticks e := by
  induction ticks generalizing e with
  | nil => rfl
  | cons tick ticks ih =>
    have hnil : e.setTickQueue [] = e := by rw [← hqueue]; rfl
    have hfits : IsSchedule e.env.tickQueue.length [EngineOp.pushTick (σ := σ) tick] := by
      rw [hqueue]
      exact ⟨by decide, trivial⟩
    have hone : run S ([.pushTick tick] ++ [.runOnce]) fuel e = processAll S fuel [tick] e := by
      rw [run_eq_processAll hfuel htrack (by rw [hqueue]; decide) hfits, hqueue, hnil]
      rfl
    have hsplit : run S (tickwise (tick :: ticks)) fuel e =
        run S ([.pushTick tick] ++ [.runOnce]) fuel e >>= run S (tickwise ticks) fuel :=
      runList_append_eq_bind fuel _ _ e
    have hsplit' : processAll S fuel (tick :: ticks) e =
        processAll S fuel [tick] e >>= processAll S fuel ticks :=
      processAll_append S fuel [tick] ticks e
    rw [hsplit, hone, hsplit']
    cases hf : processAll S fuel [tick] e with
    | error err => rfl
    | ok f =>
      obtain ⟨htrack', hqueue'⟩ := of_processAll hf
      exact ih (htrack'.trans htrack) (hqueue'.trans hqueue)

/-- **How the ticks are cut into batches does not matter.** Two schedules of the same ticks leave
the engine in the same state, and one of them returns exactly when the other does. -/
theorem converges_run_iff_of_batches (S : Strategy σ) (e : TradingEngine σ)
    (htrack : e.env.trackQueueLatency = false) (hqueue : e.env.tickQueue = [])
    (ops ops' : List (EngineOp σ)) (hops : IsSchedule 0 ops) (hops' : IsSchedule 0 ops')
    (hticks : pushedTicks ops = pushedTicks ops') (f : TradingEngine σ) :
    Converges (fun fuel => run S (ops ++ [.runOnce]) fuel e) (.ok f) ↔
      Converges (fun fuel => run S (ops' ++ [.runOnce]) fuel e) (.ok f) := by
  have hlen : e.env.tickQueue.length < kQueueCap := by rw [hqueue]; decide
  have heq : ∀ fuel, kQueueCap ≤ fuel →
      run S (ops ++ [.runOnce]) fuel e = run S (ops' ++ [.runOnce]) fuel e := by
    intro fuel hfuel
    rw [run_eq_processAll hfuel htrack hlen (by rw [hqueue]; exact hops),
      run_eq_processAll hfuel htrack hlen (by rw [hqueue]; exact hops'), hticks]
  exact ⟨(persistent_run S _ e).converges_of_eventually heq,
    (persistent_run S _ e).converges_of_eventually fun fuel hfuel => (heq fuel hfuel).symm⟩

/-- A spread strategy on a book of twenty-five levels. -/
def batchedEngine : TradingEngine (SpreadState ℚ) :=
  new ⟨1, 25, 1, by decide, Int.one_pos, by decide⟩ {} SpreadStrategy.initial fun n => n

/-- Two ticks in one batch. -/
def oneBatch : List (EngineOp (SpreadState ℚ)) :=
  [.pushTick ⟨1, 9, 11, 5, 5, 10, 1, 0, 0⟩, .pushTick ⟨1, 9, 13, 5, 5, 10, 1, 0, 0⟩]

/-- The same ticks one by one. -/
def twoBatches : List (EngineOp (SpreadState ℚ)) :=
  [.pushTick ⟨1, 9, 11, 5, 5, 10, 1, 0, 0⟩, .runOnce,
    .pushTick ⟨1, 9, 13, 5, 5, 10, 1, 0, 0⟩]

theorem converges_run_iff_of_batches_twoTicks : ∃ f : TradingEngine (SpreadState ℚ),
    Converges (fun fuel => run (SpreadStrategy.strategy .defaults) (oneBatch ++ [.runOnce]) fuel
      batchedEngine) (.ok f) ∧
    Converges (fun fuel => run (SpreadStrategy.strategy .defaults) (twoBatches ++ [.runOnce]) fuel
      batchedEngine) (.ok f) := by
  obtain ⟨f, hf, -⟩ : ∃ f, run (SpreadStrategy.strategy .defaults) (oneBatch ++ [.runOnce]) 4
    batchedEngine = .ok f ∧ True := by decide +kernel
  have hconv := (persistent_run (SpreadStrategy.strategy .defaults) (oneBatch ++ [.runOnce])
    batchedEngine).converges hf
  have hiff := converges_run_iff_of_batches (SpreadStrategy.strategy .defaults) batchedEngine rfl
    rfl oneBatch twoBatches ⟨by decide, by decide, trivial⟩ ⟨by decide, by decide, trivial⟩ rfl f
  exact ⟨f, hconv, hiff.mp hconv⟩

end TradingEngine

end MiniTrader
