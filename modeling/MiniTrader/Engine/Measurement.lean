import MiniTrader.Engine.Parametric
import MiniTrader.Engine.Realtime
import MiniTrader.Strategy.SpreadStrategy

/-!
# What measuring changes

The engine reads the clock in four places. Three of them measure: `push_tick` stamps a tick,
`run_once` takes the time a tick has waited and the time `on_tick` has taken. The fourth decides:
`check_order_rate` counts orders in a second. So the clock, the statistics, and the switch that
turns stamping on can influence the trading only through the rate limit, or through a strategy that
looks at the time stamps.

Both ways are closed here by assumption. The limit is so high that an `int32_t` counter cannot
exceed it, and `on_tick` makes the same calls whatever the time stamp. Nothing else is asked of the
strategy: it may submit orders from inside `on_fill`. Then two runs that make the same calls, apart
from those that switch measuring on and off, end with the same book, the same risk state, the same
journal and the same counts, whatever the two clocks say (`exists_run_of_sameCalls`).

The bookkeeping of the spread strategy is of the same kind: `realized_pnl_` and `fill_count_` are
written and never read, so runs that start with other values trade alike (`exists_run_of_samePnl`).

## Main definitions

* `EngineEnv.timeless` — the engine without what the clock decides
* `SameTrading` — the relation between two engines
* `SameCalls` — the same calls apart from measuring

## Main results

* `check_timeless` — a check that the rate limit cannot fail
* `exists_run_of_sameCalls` — any strategy
* `exists_run_of_samePnl` — the spread strategy and its bookkeeping
-/

namespace MiniTrader

open Fuelled

namespace RiskGate

/-- The gate without the window of the rate limit. -/
def timeless (g : RiskGate) : RiskGate := { g with ordersThisSecond := 0, lastRateReset := 0 }

/-- No count of orders exceeds the limit. -/
def Unlimited (g : RiskGate) : Prop := 2147483647 ≤ g.config.maxOrdersPerSecond

theorem checkOrderRate_fst {g : RiskGate} (h : g.Unlimited) (now : ℤ) :
    (g.checkOrderRate now).1 = true := by
  have hle : ∀ n, wrap32 n ≤ g.config.maxOrdersPerSecond := fun n => by
    have := (isInt32_wrap32 n).2
    have : 2147483647 ≤ g.config.maxOrdersPerSecond := h
    omega
  rw [checkOrderRate]
  dsimp only
  split <;> exact decide_eq_true (hle _)

/-- **A check that the rate limit cannot fail** depends neither on the time nor on the checks of the
last second. -/
theorem check_timeless {g : RiskGate} (h : g.Unlimited) (now : ℤ) (o : Order) :
    (g.check now o).1 = (g.timeless.check 0 o).1 ∧
      (g.check now o).2.timeless = (g.timeless.check 0 o).2.timeless := by
  obtain ⟨n, t, hg⟩ := g.exists_checkOrderRate_snd now
  obtain ⟨n', t', hg'⟩ := g.timeless.exists_checkOrderRate_snd 0
  have hrate := checkOrderRate_fst h now
  have hrate' := checkOrderRate_fst (g := g.timeless) h 0
  -- the other three checks do not look at the window
  have hposition : checkPositionLimit { g with ordersThisSecond := n, lastRateReset := t } o =
    checkPositionLimit { g.timeless with ordersThisSecond := n', lastRateReset := t' } o := rfl
  have hcancel : checkCancelRate { g with ordersThisSecond := n, lastRateReset := t } =
    checkCancelRate { g.timeless with ordersThisSecond := n', lastRateReset := t' } := rfl
  have hself : checkSelfTrade { g with ordersThisSecond := n, lastRateReset := t } o =
    checkSelfTrade { g.timeless with ordersThisSecond := n', lastRateReset := t' } o := rfl
  have hon : g.timeless.config = g.config := rfl
  unfold check
  simp only [hrate, hrate', hg, hg', hposition, hcancel, hself, hon]
  split_ifs <;> exact ⟨rfl, rfl⟩

end RiskGate

/-- The engine without what the clock decides, and without its strategy. -/
def EngineEnv.timeless {σ : Type} (e : EngineEnv σ) : EngineEnv Unit :=
  { e with
    risk := e.risk.timeless
    strategy := ()
    clock := fun _ => 0
    reads := 0
    tickQueue := e.tickQueue.map Realtime.unstamp
    ticksProcessed := 0
    ticksDropped := 0
    latency := .empty kHistBounds
    trackQueueLatency := false
    queueWait := .empty kQHistBounds }

namespace TradingEngine

open OrderBook World

variable {σ τ α : Type} {T : σ → τ → Prop} {S : Strategy σ} {S' : Strategy τ} {n m : ℕ}

/-- Two engines that differ in what the clock decides, and whose strategies are in related
states. -/
structure SameTrading (T : σ → τ → Prop) (e : EngineEnv σ) (e' : EngineEnv τ) : Prop where
  timeless : e.timeless = e'.timeless
  strategy : T e.strategy e'.strategy
  unlimited : e.risk.Unlimited

/-- Two ticks that differ in their time stamp. -/
def SameTick (t t' : MarketTick) : Prop := Realtime.unstamp t = Realtime.unstamp t'

/-! ### The steps -/

section

variable {e : TradingEngine σ} {e' : TradingEngine τ}

theorem SameTrading.risk {e : EngineEnv σ} {e' : EngineEnv τ} (h : SameTrading T e e') :
    e.risk.timeless = e'.risk.timeless :=
  congrArg EngineEnv.risk h.timeless

theorem SameTrading.config {e : EngineEnv σ} {e' : EngineEnv τ} (h : SameTrading T e e') :
    e.risk.config = e'.risk.config := by
  change e.risk.timeless.config = e'.risk.timeless.config
  rw [h.risk]

theorem SameTrading.unlimited' {e : EngineEnv σ} {e' : EngineEnv τ} (h : SameTrading T e e') :
    e'.risk.Unlimited := by
  have := h.unlimited
  rwa [RiskGate.Unlimited, h.config] at this

theorem SameTrading.check (h : SameTrading T e.env e'.env) (o : Order) :
    (e.env.risk.check e.now o).1 = (e'.env.risk.check e'.now o).1 ∧
      (e.env.risk.check e.now o).2.timeless = (e'.env.risk.check e'.now o).2.timeless := by
  obtain ⟨hfst, hsnd⟩ := RiskGate.check_timeless h.unlimited e.now o
  obtain ⟨hfst', hsnd'⟩ := RiskGate.check_timeless h.unlimited' e'.now o
  rw [hfst, hsnd, hfst', hsnd', h.risk]
  exact ⟨rfl, rfl⟩

theorem timeless_rejected (own : Bool) (o : Order) (e : TradingEngine σ) :
    (e.rejected own o).env.timeless =
      { e.env.timeless with
        risk := (e.env.risk.check e.now o).2.timeless
        ordersRejected := e.env.timeless.ordersRejected + 1
        journal := e.env.timeless.journal ++ [.submitted own o] } := rfl

theorem timeless_admitted (own : Bool) (o : Order) (e : TradingEngine σ) :
    (e.admitted own o).env.timeless =
      { e.env.timeless with
        risk :=
          if o.type = .limit then (e.env.risk.check e.now o).2.timeless.trackOrder o
          else (e.env.risk.check e.now o).2.timeless
        ordersSubmitted := e.env.timeless.ordersSubmitted + 1
        journal := e.env.timeless.journal ++ [.submitted own o]
        cancels := e.env.timeless.cancels ++
          if o.type = .cancel then
            [⟨o.orderId, true, (e.book.orderMap.lookup o.orderId).isSome,
              e.env.timeless.journal.length + 1⟩]
          else [] } := by
  rw [admitted_eq]
  simp only [EngineEnv.timeless, World.env_mapEnv]
  split <;> rfl

theorem timeless_untracked (id : ℕ) (e : TradingEngine σ) :
    (e.untracked id).env.timeless =
      { e.env.timeless with
        risk := e.env.timeless.risk.untrackOrder id
        cancels := e.env.timeless.cancels ++
          [⟨id, false, (e.book.orderMap.lookup id).isSome, e.env.timeless.journal.length⟩] } := rfl

theorem timeless_beforeOnFill (r : ExecutionReport) (e : TradingEngine σ) :
    (beforeOnFill r e).env.timeless =
      { e.env.timeless with
        risk := if r.isMaker then (e.env.timeless.risk.onFill r).untrackOrder r.orderId
          else e.env.timeless.risk.onFill r
        fillsReceived := e.env.timeless.fillsReceived + 1
        journal := e.env.timeless.journal ++ [.filled r] } := by
  have hfill : ∀ g : RiskGate, (g.onFill r).timeless = g.timeless.onFill r := by
    intro g
    rw [RiskGate.onFill, RiskGate.onFill]
    cases r.side <;> rfl
  have hmaker : ∀ g : RiskGate, ((g.onFill r).untrackOrder r.orderId).timeless =
      (g.timeless.onFill r).untrackOrder r.orderId := by
    intro g
    rw [← hfill]
    rfl
  rw [beforeOnFill_eq]
  simp only [EngineEnv.timeless, World.env_mapEnv]
  split
  · rw [hmaker]
  · rw [hfill]

theorem respected_sameTrading : Respected (SameTrading T) T where
  strategy h := h.env.strategy
  setStrategy h hst := ⟨h.book, h.env.timeless, hst, h.env.unlimited⟩
  position {e e'} h := by
    change e.env.risk.timeless.position = e'.env.risk.timeless.position
    rw [h.env.risk]
  passes o h := by rw [Passes, Passes, (h.env.check o).1]
  rejected own o h := by
    refine ⟨h.book, ?_, h.env.strategy, ?_⟩
    · rw [timeless_rejected, timeless_rejected, h.env.timeless, (h.env.check o).2]
    · rw [RiskGate.Unlimited, riskConfig_rejected]
      exact h.env.unlimited
  admitted own o h := by
    refine ⟨?_, ?_, ?_, ?_⟩
    · rw [book_admitted, book_admitted, h.book]
    · rw [timeless_admitted, timeless_admitted, h.env.timeless, (h.env.check o).2, h.book]
    · rw [strategy_admitted, strategy_admitted]
      exact h.env.strategy
    · rw [RiskGate.Unlimited, riskConfig_admitted]
      exact h.env.unlimited
  untracked id h := by
    refine ⟨h.book, ?_, h.env.strategy, h.env.unlimited⟩
    rw [timeless_untracked, timeless_untracked, h.env.timeless, h.book]
  beforeOnFill r h := by
    refine ⟨?_, ?_, ?_, ?_⟩
    · rw [book_beforeOnFill, book_beforeOnFill, h.book]
    · rw [timeless_beforeOnFill, timeless_beforeOnFill, h.env.timeless]
    · rw [strategy_beforeOnFill, strategy_beforeOnFill]
      exact h.env.strategy
    · have hunlimited := h.env.unlimited
      rw [RiskGate.Unlimited] at hunlimited
      rw [RiskGate.Unlimited, risk_beforeOnFill]
      split <;> simpa using hunlimited

/-! ### Ticks -/

theorem timeless_beforeOnTick (tick : MarketTick) (e : TradingEngine σ) :
    (e.beforeOnTick tick).env.timeless = e.env.timeless := by
  unfold beforeOnTick
  dsimp only
  split <;> rfl

theorem tickRespected_sameTrading : TickRespected (SameTrading T) T SameTick where
  toRespected := respected_sameTrading
  beforeOnTick {e e' t t'} _ h := by
    have hq := quiet_beforeOnTick t e
    have hq' := quiet_beforeOnTick t' e'
    refine ⟨?_, ?_, ?_, ?_⟩
    · rw [hq.book, hq'.book, h.book]
    · rw [timeless_beforeOnTick, timeless_beforeOnTick, h.env.timeless]
    · rw [hq.strategy, hq'.strategy]
      exact h.env.strategy
    · rw [hq.risk]
      exact h.env.unlimited
  afterOnTick _ h := ⟨h.book, h.env.timeless, h.env.strategy, h.env.unlimited⟩

theorem timeless_pushTick (tick : MarketTick) (e : TradingEngine σ) :
    (e.pushTick tick).2.env.timeless =
      if e.env.timeless.tickQueue.length < kQueueCap - 1 then
        { e.env.timeless with tickQueue := e.env.timeless.tickQueue ++ [Realtime.unstamp tick] }
      else e.env.timeless := by
  have hlen : e.env.timeless.tickQueue.length = e.env.tickQueue.length := List.length_map _
  rw [hlen]
  unfold pushTick
  dsimp only
  by_cases htrack : e.env.trackQueueLatency = true
  · simp only [if_pos htrack]
    split_ifs <;> simp_all [EngineEnv.timeless, readClock]
    · rfl
  · simp only [if_neg htrack]
    split_ifs <;> simp_all [EngineEnv.timeless]

theorem related_pushTick (tick : MarketTick) (h : Related (SameTrading T) e e') :
    Related (SameTrading T) (e.pushTick tick).2 (e'.pushTick tick).2 := by
  have hq := quiet_pushTick tick e
  have hq' := quiet_pushTick tick e'
  refine ⟨?_, ?_, ?_, ?_⟩
  · rw [hq.book, hq'.book, h.book]
  · rw [timeless_pushTick, timeless_pushTick, h.env.timeless]
  · rw [hq.strategy, hq'.strategy]
    exact h.env.strategy
  · rw [hq.risk]
    exact h.env.unlimited

theorem SameTrading.tickQueue {e : EngineEnv σ} {e' : EngineEnv τ} (h : SameTrading T e e') :
    e.tickQueue.map Realtime.unstamp = e'.tickQueue.map Realtime.unstamp := by
  change e.timeless.tickQueue = e'.timeless.tickQueue
  rw [h.timeless]

theorem related_setTickQueue {ticks ticks' : List MarketTick}
    (ht : ticks.map Realtime.unstamp = ticks'.map Realtime.unstamp)
    (h : Related (SameTrading T) e e') :
    Related (SameTrading T) (e.setTickQueue ticks) (e'.setTickQueue ticks') := by
  refine ⟨h.book, ?_, h.env.strategy, h.env.unlimited⟩
  change { e.env.timeless with tickQueue := ticks.map Realtime.unstamp } =
    { e'.env.timeless with tickQueue := ticks'.map Realtime.unstamp }
  rw [h.env.timeless, ht]

theorem below_popTick (hS : S.Alike T SameTick S') (hnm : n ≤ m) {s : ℕ × TradingEngine σ}
    {t : ℕ × TradingEngine τ} (h : Ends (SameTrading T) s t) :
    Below (Ends (SameTrading T)) (popTick S n s) (popTick S' m t) := by
  have hqueue := h.engine.env.tickQueue
  unfold popTick
  cases hq : s.2.env.tickQueue with
  | nil =>
    rw [hq, List.map_nil, eq_comm, List.map_eq_nil_iff] at hqueue
    rw [hqueue]
    exact .ok h
  | cons tick ticks =>
    cases hq' : t.2.env.tickQueue with
    | nil => simp [hq, hq'] at hqueue
    | cons tick' ticks' =>
      rw [hq, hq', List.map_cons, List.map_cons] at hqueue
      obtain ⟨htick, hticks⟩ := List.cons.inj hqueue
      refine (tickRespected_sameTrading.processTick hS hnm htick
        (related_setTickQueue hticks h.engine)).bind fun _ _ h' => ?_
      rw [h.answer]
      exact .ok ⟨rfl, h'⟩

theorem below_runOnce (hS : S.Alike T SameTick S') (hnm : n ≤ m)
    (h : Related (SameTrading T) e e') :
    Below (Ends (SameTrading T)) (e.runOnce S n) (e'.runOnce S' m) := by
  refine below_whileLoop (fun s t h => ?_) (fun s t h _ => below_popTick hS hnm h) hnm ⟨rfl, h⟩
  have hlen := congrArg List.length h.engine.env.tickQueue
  rw [List.length_map, List.length_map] at hlen
  rw [TickGuard, TickGuard, ← List.length_pos_iff, ← List.length_pos_iff, hlen]

/-! ### Runs -/

/-- The call only switches measuring on or off, or forgets what has been measured. -/
def EngineOp.measures : EngineOp σ → Bool
  | .enableQueueLatencyTracking _ | .resetLatencyStats => true
  | .pushTick _ | .runOnce | .submitOrder _ | .cancelOrder _ | .invoke _ => false

/-- The same call of the two engines. -/
inductive EngineOp.Alike (T : σ → τ → Prop) : EngineOp σ → EngineOp τ → Prop where
  | pushTick (tick : MarketTick) : Alike T (.pushTick tick) (.pushTick tick)
  | runOnce : Alike T .runOnce .runOnce
  | submitOrder (order : Order) : Alike T (.submitOrder order) (.submitOrder order)
  | cancelOrder (orderId : ℕ) : Alike T (.cancelOrder orderId) (.cancelOrder orderId)
  | invoke {p : StrategyM σ Unit} {p' : StrategyM τ Unit} (h : p.Alike T p') :
      Alike T (.invoke p) (.invoke p')

/-- The same calls of the two engines, apart from measuring. -/
abbrev SameCalls (T : σ → τ → Prop) : List (EngineOp σ) → List (EngineOp τ) → Prop :=
  Matched (EngineOp.Alike T) (fun op => op.measures = true) fun op => op.measures = true

theorem below_engineOp (hS : S.Alike T SameTick S') (hnm : n ≤ m) {op : EngineOp σ}
    {op' : EngineOp τ} (hop : op.Alike T op') (h : Related (SameTrading T) e e') :
    Below (Related (SameTrading T)) (op.run S n e) (op'.run S' m e') := by
  have hcb := respected_sameTrading.fillCallback hS.onFill hnm
  cases hop with
  | pushTick tick => exact .ok (related_pushTick tick h)
  | runOnce => exact (below_runOnce hS hnm h).bind fun _ _ h' => .ok h'.engine
  | submitOrder order => exact respected_sameTrading.submitOrder hcb hnm false order h
  | cancelOrder orderId => exact respected_sameTrading.cancelOrder orderId h
  | invoke hp =>
    exact (respected_sameTrading.interp hcb hnm hp h).bind fun _ _ h' => .ok h'.engine

theorem alike_of_not_measures {op : EngineOp σ} (h : op.measures = false) : op.Alike Eq op := by
  cases op with
  | pushTick tick => exact .pushTick tick
  | runOnce => exact .runOnce
  | submitOrder order => exact .submitOrder order
  | cancelOrder orderId => exact .cancelOrder orderId
  | invoke program => exact .invoke (StrategyM.alike_refl program)
  | enableQueueLatencyTracking on => cases h
  | resetLatencyStats => cases h

/-- A call that measures is not seen. -/
theorem exists_of_measures {op : EngineOp σ} (h : op.measures = true) (e : TradingEngine σ) :
    ∃ f, op.run S n e = .ok f ∧ f.book = e.book ∧ f.env.timeless = e.env.timeless ∧
      f.env.strategy = e.env.strategy ∧ f.env.risk = e.env.risk := by
  cases op with
  | enableQueueLatencyTracking on => exact ⟨_, rfl, rfl, rfl, rfl, rfl⟩
  | resetLatencyStats => exact ⟨_, rfl, rfl, rfl, rfl, rfl⟩
  | _ => cases h

/-- **Two runs that make the same calls**, apart from measuring. -/
theorem below_run (hS : S.Alike T SameTick S') (hnm : n ≤ m) {ops : List (EngineOp σ)}
    {ops' : List (EngineOp τ)} (hops : SameCalls T ops ops') (h : Related (SameTrading T) e e') :
    Below (Related (SameTrading T)) (run S ops n e) (run S' ops' m e') := by
  refine below_runList_of_matched (fun op op' s t hop hst => below_engineOp hS hnm hop hst)
    (fun op s t hop hst => ?_) (fun op s t hop hst => ?_) hops h
  · obtain ⟨f, hf, hbook, htimeless, hstrategy, hrisk⟩ := exists_of_measures (n := n) hop s
    exact ⟨f, hf, hbook.trans hst.book, htimeless.trans hst.env.timeless,
      hstrategy ▸ hst.env.strategy, hrisk ▸ hst.env.unlimited⟩
  · obtain ⟨f, hf, hbook, htimeless, hstrategy, -⟩ := exists_of_measures (n := m) hop t
    exact ⟨f, hf, hst.book.trans hbook.symm, hst.env.timeless.trans htimeless.symm,
      hstrategy ▸ hst.env.strategy, hst.env.unlimited⟩

end

section

variable {c : OrderBookConfig} {riskConfig : RiskConfig} {s : σ} {t : τ} {clock clock' : ℕ → ℤ}

theorem related_new (hrate : 2147483647 ≤ riskConfig.maxOrdersPerSecond) (h : T s t) :
    Related (SameTrading T) (new c riskConfig s clock) (new c riskConfig t clock') :=
  ⟨rfl, rfl, h, hrate⟩

/-- `on_tick` makes the same calls whatever the time stamp. -/
theorem alike_of_timeless (hS : ∀ t t', SameTick t t' → S.onTick t = S.onTick t') :
    S.Alike Eq SameTick S where
  onTick h := by rw [hS _ _ h]; exact StrategyM.alike_refl _
  onFill _ := StrategyM.alike_refl _

/-- **Measuring changes nothing.** If one run of an engine whose rate limit cannot bind returns,
every run that makes the same calls returns as well, whatever its clock says and whatever is
measured in between: with the same book, the same state of the strategy, and the same engine apart
from what the clock decides. -/
theorem exists_run_of_sameCalls (S : Strategy σ)
    (hS : ∀ t t', SameTick t t' → S.onTick t = S.onTick t') (c : OrderBookConfig)
    (riskConfig : RiskConfig) (hrate : 2147483647 ≤ riskConfig.maxOrdersPerSecond) (s : σ)
    (clock clock' : ℕ → ℤ) (ops ops' : List (EngineOp σ))
    (hops : ops.filter (fun op => !op.measures) = ops'.filter fun op => !op.measures)
    (f : TradingEngine σ)
    (hf : Converges (fun fuel => run S ops fuel (new c riskConfig s clock)) (.ok f)) :
    ∃ f', Converges (fun fuel => run S ops' fuel (new c riskConfig s clock')) (.ok f') ∧
      f'.book = f.book ∧ f'.env.strategy = f.env.strategy ∧
      f'.env.timeless = f.env.timeless := by
  have hmatched : SameCalls Eq ops ops' := by
    refine (matched_of_filter hops).mono ?_ (by simp) (by simp)
    rintro op _ ⟨rfl, hop⟩
    exact alike_of_not_measures (by simpa using hop)
  obtain ⟨f', hf', h⟩ := hf.transfer
    (fun n => below_run (alike_of_timeless hS) (le_refl n) hmatched (related_new hrate rfl))
    (persistent_run S ops' _)
  exact ⟨f', hf', h.book.symm, h.env.strategy.symm, h.env.timeless.symm⟩

/-- The spread strategy does not look at time stamps. -/
theorem onTick_of_sameTick {F : Type} [DoubleOps F] (cfg : SpreadStrategyConfig F)
    {t t' : MarketTick} (h : SameTick t t') :
    SpreadStrategy.onTick cfg t = SpreadStrategy.onTick cfg t' := by
  cases t
  cases t'
  simp only [SameTick, Realtime.unstamp, Realtime.stamp, MarketTick.mk.injEq] at h
  obtain ⟨rfl, rfl, rfl, rfl, rfl, rfl, rfl, rfl, -⟩ := h
  rfl

/-- A spread strategy on a book of twenty-four levels. The rate limit is the largest `int32_t`. -/
def unlimitedEngine (s : SpreadState ℚ) (clock : ℕ → ℤ) : TradingEngine (SpreadState ℚ) :=
  new ⟨1, 24, 1, by decide, Int.one_pos, by decide⟩
    { maxOrdersPerSecond := 2147483647, checkSelfTrade := false } s clock

/-- A tick is quoted, and a seller from outside takes the bid. -/
def soldOps : List (EngineOp (SpreadState ℚ)) :=
  [.pushTick ⟨1, 9, 11, 5, 5, 10, 1, 0, 0⟩, .runOnce, .submitOrder ⟨90, 1, 8, 5, .sell, .limit⟩]

theorem exists_run_of_sameCalls_soldOps : ∃ f f' : TradingEngine (SpreadState ℚ),
    Converges (fun fuel => run (SpreadStrategy.strategy .defaults) soldOps fuel
      (unlimitedEngine SpreadStrategy.initial fun _ => 0)) (.ok f) ∧
    Converges (fun fuel => run (SpreadStrategy.strategy .defaults)
      (.enableQueueLatencyTracking true :: soldOps) fuel
      (unlimitedEngine SpreadStrategy.initial fun n => n)) (.ok f') ∧
    f'.book = f.book ∧ f'.env.timeless = f.env.timeless := by
  obtain ⟨f, hf, -⟩ : ∃ f, run (SpreadStrategy.strategy .defaults) soldOps 4
    (unlimitedEngine SpreadStrategy.initial fun _ => 0) = .ok f ∧ True := by decide +kernel
  have hconv := (persistent_run (SpreadStrategy.strategy .defaults) soldOps
    (unlimitedEngine SpreadStrategy.initial fun _ => 0)).converges hf
  obtain ⟨f', hf', hbook, -, htimeless⟩ :=
    exists_run_of_sameCalls (SpreadStrategy.strategy .defaults)
      (fun _ _ => onTick_of_sameTick _) _ _ (by decide) SpreadStrategy.initial (fun _ => 0)
      (fun n => n) soldOps (.enableQueueLatencyTracking true :: soldOps) rfl f hconv
  exact ⟨f, f', hconv, hf', hbook, htimeless⟩

end

end TradingEngine

/-! ### The bookkeeping of the spread strategy -/

namespace SpreadStrategy

open TradingEngine StrategyM

variable {F : Type} {d : ℤ} {s t : SpreadState F}

/-- The two strategies differ in their bookkeeping, by `d` in the cash, which is an `int64_t`. -/
structure SamePnl (d : ℤ) (s t : SpreadState F) : Prop where
  nextId : s.nextId = t.nextId
  bidOrderId : s.bidOrderId = t.bidOrderId
  askOrderId : s.askOrderId = t.askOrderId
  emaSpread : s.emaSpread = t.emaSpread
  emaInitialized : s.emaInitialized = t.emaInitialized
  realizedPnl : wrap64 t.realizedPnl = wrap64 (s.realizedPnl + d)

theorem wrap64_add_of_samePnl (h : SamePnl d s t) (x : ℤ) :
    wrap64 (wrap64 (t.realizedPnl + x)) = wrap64 (wrap64 (s.realizedPnl + x) + d) := by
  calc wrap64 (wrap64 (t.realizedPnl + x))
      = wrap64 (wrap64 t.realizedPnl + x) := by
        rw [wrap64_wrap64_add, wrap64_eq_self_iff]
        exact isInt64_wrap64 _
    _ = wrap64 (s.realizedPnl + x + d) := by
        rw [h.realizedPnl, wrap64_wrap64_add, add_right_comm]
    _ = wrap64 (wrap64 (s.realizedPnl + x) + d) := (wrap64_wrap64_add _ _).symm

section

variable {σ τ α : Type} {T : σ → τ → Prop}

theorem alike_modify {f : σ → σ} {g : τ → τ} (h : ∀ s t, T s t → T (f s) (g t)) :
    (modify f).Alike T (modify g) :=
  .get fun s t hst => .set (h s t hst) (.pure ())

theorem alike_state_bind {f : σ → StrategyM σ α} {g : τ → StrategyM τ α}
    (h : ∀ s t, T s t → (f s).Alike T (g t)) : (state >>= f).Alike T (state >>= g) :=
  .get h

theorem alike_submitOrder (o : Order) :
    (StrategyM.submitOrder (σ := σ) o).Alike T (StrategyM.submitOrder (σ := τ) o) :=
  .submit o (.pure ())

theorem alike_cancelOrder (id : ℕ) :
    (StrategyM.cancelOrder (σ := σ) id).Alike T (StrategyM.cancelOrder (σ := τ) id) :=
  .cancel id (.pure ())

theorem alike_getPosition (i : ℕ) :
    (getPosition (σ := σ) i).Alike T (getPosition (σ := τ) i) :=
  .position i fun p => .pure p

end

theorem alike_nextOrderId :
    (nextOrderId (F := F)).Alike (SamePnl d) (nextOrderId (F := F)) := by
  refine alike_state_bind fun s t h => ?_
  rw [h.nextId]
  refine (alike_modify fun s t h => ?_).bind fun _ => .pure _
  exact ⟨rfl, h.bidOrderId, h.askOrderId, h.emaSpread, h.emaInitialized, h.realizedPnl⟩

theorem alike_quote (cfg : SpreadStrategyConfig F) (buyPx sellPx : ℤ) :
    (quote cfg buyPx sellPx).Alike (SamePnl d) (quote cfg buyPx sellPx) := by
  refine alike_nextOrderId.bind fun bidId => (alike_submitOrder _).bind fun _ => ?_
  refine alike_nextOrderId.bind fun askId => (alike_submitOrder _).bind fun _ => ?_
  exact alike_modify fun s t h =>
    ⟨h.nextId, rfl, rfl, h.emaSpread, h.emaInitialized, h.realizedPnl⟩

theorem samePnl_bidGone (h : SamePnl d s t) :
    SamePnl d { s with bidOrderId := 0 } { t with bidOrderId := 0 } :=
  ⟨h.nextId, rfl, h.askOrderId, h.emaSpread, h.emaInitialized, h.realizedPnl⟩

theorem samePnl_askGone (h : SamePnl d s t) :
    SamePnl d { s with askOrderId := 0 } { t with askOrderId := 0 } :=
  ⟨h.nextId, h.bidOrderId, rfl, h.emaSpread, h.emaInitialized, h.realizedPnl⟩

theorem samePnl_bidFilled (h : SamePnl d s t) (x : ℤ) :
    SamePnl d { s with bidOrderId := 0, realizedPnl := wrap64 (s.realizedPnl - x) }
      { t with bidOrderId := 0, realizedPnl := wrap64 (t.realizedPnl - x) } :=
  ⟨h.nextId, rfl, h.askOrderId, h.emaSpread, h.emaInitialized, wrap64_add_of_samePnl h (-x)⟩

theorem samePnl_askFilled (h : SamePnl d s t) (x : ℤ) :
    SamePnl d { s with askOrderId := 0, realizedPnl := wrap64 (s.realizedPnl + x) }
      { t with askOrderId := 0, realizedPnl := wrap64 (t.realizedPnl + x) } :=
  ⟨h.nextId, h.bidOrderId, rfl, h.emaSpread, h.emaInitialized, wrap64_add_of_samePnl h x⟩

theorem alike_onFill (report : ExecutionReport) :
    (onFill (F := F) report).Alike (SamePnl d) (onFill report) := by
  unfold onFill
  refine (alike_modify fun s t h => ?_).bind fun _ => alike_state_bind fun s t h => ?_
  · exact ⟨h.nextId, h.bidOrderId, h.askOrderId, h.emaSpread, h.emaInitialized, h.realizedPnl⟩
  · rw [h.bidOrderId, h.askOrderId]
    split_ifs
    · exact (alike_cancelOrder _).bind fun _ =>
        (alike_modify fun _ _ h => samePnl_askGone h).bind fun _ =>
          alike_modify fun _ _ h => samePnl_bidFilled h _
    · exact alike_modify fun _ _ h => samePnl_bidFilled h _
    · exact (alike_cancelOrder _).bind fun _ =>
        (alike_modify fun _ _ h => samePnl_bidGone h).bind fun _ =>
          alike_modify fun _ _ h => samePnl_askFilled h _
    · exact alike_modify fun _ _ h => samePnl_askFilled h _
    · exact .pure ()

theorem alike_cancelRestingQuotes :
    (cancelRestingQuotes (F := F)).Alike (SamePnl d) cancelRestingQuotes := by
  have hask (s t : SpreadState F) (h : SamePnl d s t) : StrategyM.Alike (SamePnl (F := F) d)
      (if s.askOrderId ≠ 0 then StrategyM.cancelOrder s.askOrderId >>= fun _ =>
        StrategyM.modify fun s => { s with askOrderId := 0 } else Pure.pure ())
      (if t.askOrderId ≠ 0 then StrategyM.cancelOrder t.askOrderId >>= fun _ =>
        StrategyM.modify fun s => { s with askOrderId := 0 } else Pure.pure ()) := by
    rw [h.askOrderId]
    split_ifs
    · exact (alike_cancelOrder _).bind fun _ => alike_modify fun _ _ h => samePnl_askGone h
    · exact .pure ()
  unfold cancelRestingQuotes
  refine alike_state_bind fun s t h => ?_
  rw [h.bidOrderId]
  split_ifs
  · exact (alike_cancelOrder _).bind fun _ =>
      (alike_modify fun _ _ h => samePnl_bidGone h).bind fun _ => alike_state_bind hask
  · exact alike_state_bind hask

section

variable [DoubleOps F]

theorem samePnl_updateEma (cfg : SpreadStrategyConfig F) (x : F) (h : SamePnl d s t) :
    SamePnl d (updateEma cfg x s) (updateEma cfg x t) := by
  unfold updateEma
  rw [h.emaInitialized, h.emaSpread]
  split
  · exact ⟨h.nextId, h.bidOrderId, h.askOrderId, rfl, rfl, h.realizedPnl⟩
  · exact ⟨h.nextId, h.bidOrderId, h.askOrderId, rfl, rfl, h.realizedPnl⟩

theorem alike_onTick (cfg : SpreadStrategyConfig F) (tick : MarketTick) :
    (onTick cfg tick).Alike (SamePnl d) (onTick cfg tick) := by
  unfold onTick
  split
  · exact .pure ()
  · split
    · exact .pure ()
    · refine (alike_modify fun s t h => samePnl_updateEma cfg _ h).bind fun _ => ?_
      refine alike_state_bind fun s t h => ?_
      rw [h.bidOrderId, h.askOrderId]
      split
      · exact .pure ()
      · refine (alike_getPosition _).bind fun pos => ?_
        have hquote : quotePrices cfg s tick pos = quotePrices cfg t tick pos := by
          unfold quotePrices
          rw [h.emaSpread]
        rw [hquote]
        split
        · exact .pure ()
        · dsimp only
          split
          · exact .pure ()
          · exact alike_quote cfg _ _

/-- The spread strategy, next to itself with another bookkeeping. -/
theorem alike_strategy (cfg : SpreadStrategyConfig F) (d : ℤ) :
    (strategy cfg).Alike (SamePnl d) SameTick (strategy cfg) where
  onTick {t t'} h := by
    change (onTick cfg t).Alike (SamePnl d) (onTick cfg t')
    rw [onTick_of_sameTick cfg h]
    exact alike_onTick cfg t'
  onFill r := alike_onFill r

/-- **The bookkeeping decides nothing.** Two runs of the spread strategy that start with other
values of `realized_pnl_` and `fill_count_` do the same trades, and the difference of the cash,
taken modulo `2 ^ 64`, stays what it was. -/
theorem exists_run_of_samePnl (cfg : SpreadStrategyConfig F) (c : OrderBookConfig)
    (riskConfig : RiskConfig) (hrate : 2147483647 ≤ riskConfig.maxOrdersPerSecond) (d : ℤ)
    (s t : SpreadState F) (hst : SamePnl d s t) (clock clock' : ℕ → ℤ)
    (ops : List (EngineOp (SpreadState F)))
    (hinvoke : ∀ p, EngineOp.invoke p ∈ ops → p = cancelRestingQuotes)
    (f : TradingEngine (SpreadState F))
    (hf : Converges (fun fuel => run (strategy cfg) ops fuel (new c riskConfig s clock)) (.ok f)) :
    ∃ f', Converges (fun fuel => run (strategy cfg) ops fuel (new c riskConfig t clock')) (.ok f') ∧
      f'.book = f.book ∧ SamePnl d f.env.strategy f'.env.strategy ∧
      f'.env.timeless = f.env.timeless := by
  have hmatched : SameCalls (SamePnl d) ops ops := by
    clear hf
    induction ops with
    | nil => exact .nil
    | cons op ops ih =>
      have ih := ih fun p hp => hinvoke p (List.mem_cons_of_mem _ hp)
      cases op with
      | pushTick tick => exact .both (.pushTick tick) ih
      | runOnce => exact .both .runOnce ih
      | submitOrder order => exact .both (.submitOrder order) ih
      | cancelOrder orderId => exact .both (.cancelOrder orderId) ih
      | invoke p =>
        rw [hinvoke p List.mem_cons_self]
        exact .both (.invoke alike_cancelRestingQuotes) ih
      | enableQueueLatencyTracking on => exact .left rfl (.right rfl ih)
      | resetLatencyStats => exact .left rfl (.right rfl ih)
  obtain ⟨f', hf', h⟩ := hf.transfer
    (fun n => below_run (alike_strategy cfg d) (le_refl n) hmatched (related_new hrate hst))
    (persistent_run (strategy cfg) ops _)
  exact ⟨f', hf', h.book.symm, h.env.strategy, h.env.timeless.symm⟩

theorem exists_run_of_samePnl_soldOps : ∃ f f' : TradingEngine (SpreadState ℚ),
    Converges (fun fuel => run (strategy .defaults) soldOps fuel
      (unlimitedEngine initial fun _ => 0)) (.ok f) ∧
    Converges (fun fuel => run (strategy .defaults) soldOps fuel
      (unlimitedEngine { initial with realizedPnl := 7, fillCount := 3 } fun _ => 0)) (.ok f') ∧
    f'.book = f.book ∧ SamePnl 7 f.env.strategy f'.env.strategy := by
  obtain ⟨f, hf, -⟩ : ∃ f, run (strategy .defaults) soldOps 4
    (unlimitedEngine initial fun _ => 0) = .ok f ∧ True := by decide +kernel
  have hconv := (persistent_run (strategy .defaults) soldOps
    (unlimitedEngine initial fun _ => 0)).converges hf
  obtain ⟨f', hf', hbook, hpnl, -⟩ := exists_run_of_samePnl .defaults _ _ (by decide) 7 initial
    { initial with realizedPnl := 7, fillCount := 3 } ⟨rfl, rfl, rfl, rfl, rfl, rfl⟩ (fun _ => 0)
    (fun _ => 0) soldOps (by simp [soldOps]) f hconv
  exact ⟨f, f', hconv, hf', hbook, hpnl⟩

end

end SpreadStrategy

end MiniTrader
