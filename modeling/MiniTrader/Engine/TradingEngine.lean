import MiniTrader.Lib.Runs
import MiniTrader.OrderBook.Basic
import MiniTrader.Risk.RiskGate
import MiniTrader.Strategy.StrategyBase

/-!
# The trading engine

`include/engine/trading_engine.h` and `src/engine/trading_engine.cpp`: the engine owns the book, the
risk gate and the tick queue, gives the calls of the attached strategy their meaning, and passes
every execution report on to it.

## The knot

A strategy may submit an order from inside `on_fill`, which the engine calls from inside `match`,
which was called by `submit_order`. So `submit_order` and the fill callback call each other, and
nothing in the source bounds how deep that goes. `fillCallback` ties the knot with fuel: at depth
`0` the computation is out of fuel. Whenever a strategy does not submit from `on_fill` the depth
does not matter (`fillCallback_of_noSubmit`).

## The clock and the journal

The readings of `steady_clock` are an arbitrary sequence, one element for each reading, so a
statement about every engine is a statement about every time at which a check is made.

`journal` is not in the source. It records, in order, what has been submitted and by whom and what
has been reported, so that statements can talk about the past. `cancels` records the cancels that
have reached the book, with the length of the journal at the time. Nothing reads either of them.

The tick queue is the FIFO that one thread sees, of at most `kQueueCap - 1` ticks; what two threads
see is `Core/SPSCQueue`. The printing that `enable_latency_log` switches on is left out.

## Main definitions

* `EngineEnv`, `TradingEngine` — the data members
* `submitOrder`, `cancelOrder`, `onFill`, `pushTick`, `runOnce`
* `interp` — what the calls of a strategy mean; `fillCallback` — the callback of the book
* `EngineOp`, `run` — sequences of calls from outside
-/

namespace MiniTrader

open Fuelled

/-! ### Latency statistics -/

/-- `kHistBounds`. -/
def kHistBounds : List ℕ := [25, 50, 75, 100, 200, 500, 1000, 5000, 10000, 100000]

/-- `kQHistBounds`. -/
def kQHistBounds : List ℕ := [1000, 5000, 10000, 50000, 100000, 500000, 1000000]

/-- A sum, a maximum and a histogram of `uint64_t` samples. -/
structure LatencyStats where
  sum : ℕ
  max : ℕ
  hist : List ℕ
  deriving DecidableEq, Repr

namespace LatencyStats

/-- No samples yet. The last bucket is for what exceeds all bounds. -/
def empty (bounds : List ℕ) : LatencyStats := ⟨0, 0, List.replicate (bounds.length + 1) 0⟩

/-- The first bucket whose bound is above the sample. -/
def bucket (bounds : List ℕ) (x : ℕ) : ℕ := bounds.findIdx fun bound => x < bound

/-- One more sample. -/
def record (bounds : List ℕ) (x : ℕ) (s : LatencyStats) : LatencyStats where
  sum := (s.sum + x) % 18446744073709551616
  max := if s.max < x then x else s.max
  hist := s.hist.modify (bucket bounds x) (· + 1)

end LatencyStats

/-- `static_cast<uint64_t>` of an `int64_t`. -/
def castUint64 (n : ℤ) : ℕ := (n % 18446744073709551616).toNat

/-! ### The state -/

/-- What the journal records. `own` tells the strategy's orders from those of external callers. -/
inductive EngineEvent where
  | submitted (own : Bool) (order : Order)
  | filled (report : ExecutionReport)
  deriving DecidableEq, Repr

/-- What is recorded of a cancel: whether it came as a `Cancel` order, whether the order it names
was in the book, and how many events the journal had. -/
structure CancelEvent where
  orderId : ℕ
  byOrder : Bool
  removed : Bool
  time : ℕ
  deriving DecidableEq, Repr

/-- The data members of `TradingEngine` other than the book, and the state of the strategy. -/
structure EngineEnv (σ : Type) where
  risk : RiskGate
  strategy : σ
  clock : ℕ → ℤ
  reads : ℕ := 0
  tickQueue : List MarketTick := []
  ticksProcessed : ℕ := 0
  ordersSubmitted : ℕ := 0
  ordersRejected : ℕ := 0
  fillsReceived : ℕ := 0
  ticksDropped : ℕ := 0
  latency : LatencyStats := .empty kHistBounds
  trackQueueLatency : Bool := false
  queueWait : LatencyStats := .empty kQHistBounds
  journal : List EngineEvent := []
  cancels : List CancelEvent := []

/-- `TradingEngine`. -/
abbrev TradingEngine (σ : Type) := World (EngineEnv σ)

/-- The world with a changed environment. -/
def World.mapEnv {ε : Type} (f : ε → ε) (w : World ε) : World ε := { w with env := f w.env }

@[simp] theorem World.book_mapEnv {ε : Type} (f : ε → ε) (w : World ε) :
    (w.mapEnv f).book = w.book := rfl

@[simp] theorem World.env_mapEnv {ε : Type} (f : ε → ε) (w : World ε) :
    (w.mapEnv f).env = f w.env := rfl

namespace TradingEngine

variable {σ α : Type}

/-- `kQueueCap`. -/
def kQueueCap : ℕ := 4096

/-- A new engine with a strategy attached. -/
def new (config : OrderBookConfig) (riskConfig : RiskConfig) (strategy : σ) (clock : ℕ → ℤ) :
    TradingEngine σ :=
  ⟨OrderBook.new config, { risk := { config := riskConfig }, strategy, clock }⟩

/-- The time the next reading of the clock will give. -/
def now (e : TradingEngine σ) : ℤ := e.env.clock e.env.reads

/-- The state after a reading of the clock. -/
def readClock (e : TradingEngine σ) : TradingEngine σ :=
  e.mapEnv fun env => { env with reads := env.reads + 1 }

/-- The strategy with another state. -/
def setStrategy (s : σ) (e : TradingEngine σ) : TradingEngine σ :=
  e.mapEnv fun env => { env with strategy := s }

/-- The journal with one more event. -/
def log (event : EngineEvent) (e : TradingEngine σ) : TradingEngine σ :=
  e.mapEnv fun env => { env with journal := env.journal ++ [event] }

/-- The record of cancels with one more. -/
def logCancel (byOrder : Bool) (orderId : ℕ) (e : TradingEngine σ) : TradingEngine σ :=
  e.mapEnv fun env =>
    { env with
      cancels := env.cancels ++
        [⟨orderId, byOrder, (e.book.orderMap.lookup orderId).isSome, env.journal.length⟩] }

/-! ### What the strategy can call -/

/-- `submit_order`. `own` says who submits, for the journal. -/
def submitOrder (cb : FillCallback (EngineEnv σ)) (fuel : ℕ) (own : Bool) (order : Order)
    (e : TradingEngine σ) : Outcome (TradingEngine σ) :=
  let e := e.log (.submitted own order)
  let result := e.env.risk.check e.now order
  let e := e.readClock.mapEnv fun env => { env with risk := result.2 }
  if result.1 ≠ .pass then
    .ok (e.mapEnv fun env => { env with ordersRejected := env.ordersRejected + 1 })
  else
    let e := e.mapEnv fun env => { env with ordersSubmitted := env.ordersSubmitted + 1 }
    let e := if order.type = .limit then
      e.mapEnv fun env => { env with risk := env.risk.trackOrder order } else e
    let e := if order.type = .cancel then logCancel true order.orderId e else e
    OrderBook.addOrder cb fuel order e

/-- `cancel_order`. -/
def cancelOrder (orderId : ℕ) (e : TradingEngine σ) : Outcome (TradingEngine σ) := do
  let e := e.logCancel false orderId
  let e := e.mapEnv fun env => { env with risk := env.risk.untrackOrder orderId }
  let r ← e.book.cancelOrder orderId
  .ok (e.withBook r.2)

/-- `position`. -/
def position (e : TradingEngine σ) (instrumentId : ℕ) : ℤ :=
  e.env.risk.currentPosition instrumentId

/-- Running a program of the strategy. -/
def interp (cb : FillCallback (EngineEnv σ)) (fuel : ℕ) :
    StrategyM σ α → TradingEngine σ → Outcome (α × TradingEngine σ)
  | .pure a, e => .ok (a, e)
  | .get k, e => interp cb fuel (k e.env.strategy) e
  | .set s k, e => interp cb fuel k (e.setStrategy s)
  | .submit order k, e => submitOrder cb fuel true order e >>= interp cb fuel k
  | .cancel orderId k, e => e.cancelOrder orderId >>= interp cb fuel k
  | .position instrumentId k, e => interp cb fuel (k (e.position instrumentId)) e

/-! ### What the book calls -/

/-- The state in which the strategy hears of a report. -/
def beforeOnFill (report : ExecutionReport) (e : TradingEngine σ) : TradingEngine σ :=
  let e := e.log (.filled report)
  let e := e.mapEnv fun env => { env with risk := env.risk.onFill report }
  let e := if report.isMaker then
    e.mapEnv fun env => { env with risk := env.risk.untrackOrder report.orderId } else e
  e.mapEnv fun env => { env with fillsReceived := env.fillsReceived + 1 }

/-- `on_fill`. -/
def onFill (S : Strategy σ) (cb : FillCallback (EngineEnv σ)) (fuel : ℕ) :
    FillCallback (EngineEnv σ) := fun report e => do
  let r ← interp cb fuel (S.onFill report) (beforeOnFill report e)
  .ok r.2

/-- The callback the constructor registers. The number bounds how deep calls of `on_fill` can be
nested. -/
def fillCallback (S : Strategy σ) : ℕ → FillCallback (EngineEnv σ)
  | 0 => fun _ _ => .error .outOfFuel
  | n + 1 => onFill S (fillCallback S n) n

/-! ### Ticks -/

/-- `push_tick`. -/
def pushTick (tick : MarketTick) (e : TradingEngine σ) : Bool × TradingEngine σ :=
  let t := if e.env.trackQueueLatency then { tick with localTimestampNs := castUint64 e.now }
    else tick
  let e := if e.env.trackQueueLatency then e.readClock else e
  if e.env.tickQueue.length < kQueueCap - 1 then
    (true, e.mapEnv fun env => { env with tickQueue := env.tickQueue ++ [t] })
  else
    (false, e.mapEnv fun env => { env with ticksDropped := env.ticksDropped + 1 })

/-- What `run_once` does with a tick before `on_tick`: the waiting time is measured. -/
def beforeOnTick (tick : MarketTick) (e : TradingEngine σ) : TradingEngine σ :=
  let nowNs := castUint64 e.now
  let e := e.readClock
  if e.env.trackQueueLatency ∧ tick.localTimestampNs ≠ 0 then
    let wait := if tick.localTimestampNs < nowNs then nowNs - tick.localTimestampNs else 0
    e.mapEnv fun env => { env with queueWait := env.queueWait.record kQHistBounds wait }
  else e

/-- What `run_once` does with a tick after `on_tick`, which was called at the time `t0`. -/
def afterOnTick (t0 : ℤ) (e : TradingEngine σ) : TradingEngine σ :=
  let ns := castUint64 (e.now - t0)
  e.readClock.mapEnv fun env =>
    { env with
      latency := env.latency.record kHistBounds ns
      ticksProcessed := env.ticksProcessed + 1 }

/-- The body of the loop of `run_once`, for the tick that has been popped. -/
def processTick (S : Strategy σ) (fuel : ℕ) (tick : MarketTick) (e : TradingEngine σ) :
    Outcome (TradingEngine σ) := do
  let r ← interp (fillCallback S fuel) fuel (S.onTick tick) (e.beforeOnTick tick)
  .ok (r.2.afterOnTick e.now)

/-- The engine with another tick queue. -/
def setTickQueue (ticks : List MarketTick) (e : TradingEngine σ) : TradingEngine σ :=
  e.mapEnv fun env => { env with tickQueue := ticks }

/-- Popping a tick and processing it; the first component counts. -/
def popTick (S : Strategy σ) (fuel : ℕ) (s : ℕ × TradingEngine σ) :
    Outcome (ℕ × TradingEngine σ) :=
  match s.2.env.tickQueue with
  | [] => .ok s
  | tick :: ticks => do
    let e ← processTick S fuel tick (s.2.setTickQueue ticks)
    .ok (s.1 + 1, e)

/-- `while (auto tick = tick_queue_.try_pop())`. -/
def TickGuard (s : ℕ × TradingEngine σ) : Prop := s.2.env.tickQueue ≠ []

instance : DecidablePred (TickGuard (σ := σ)) := fun _ => inferInstanceAs (Decidable (_ ≠ _))

/-- `run_once`. -/
def runOnce (S : Strategy σ) (fuel : ℕ) (e : TradingEngine σ) : Outcome (ℕ × TradingEngine σ) :=
  whileLoop TickGuard (popTick S) fuel (0, e)

/-- `enable_queue_latency_tracking`. -/
def enableQueueLatencyTracking (on : Bool) (e : TradingEngine σ) : TradingEngine σ :=
  e.mapEnv fun env => { env with trackQueueLatency := on }

/-- `reset_latency_stats`. -/
def resetLatencyStats (e : TradingEngine σ) : TradingEngine σ :=
  e.mapEnv fun env =>
    { env with
      latency := .empty kHistBounds
      ticksProcessed := 0
      ticksDropped := 0
      queueWait := .empty kQHistBounds }

/-! ### Calls from outside -/

/-- A top-level call. `invoke` is a call of a method of the strategy, such as
`SpreadStrategy::cancel_resting_quotes`. -/
inductive EngineOp (σ : Type) where
  | pushTick (tick : MarketTick)
  | runOnce
  | submitOrder (order : Order)
  | cancelOrder (orderId : ℕ)
  | invoke (program : StrategyM σ Unit)
  | enableQueueLatencyTracking (on : Bool)
  | resetLatencyStats

/-- One top-level call. -/
def EngineOp.run (S : Strategy σ) (op : EngineOp σ) (fuel : ℕ) (e : TradingEngine σ) :
    Outcome (TradingEngine σ) :=
  match op with
  | .pushTick tick => .ok (e.pushTick tick).2
  | .runOnce => do
    let r ← e.runOnce S fuel
    .ok r.2
  | .submitOrder order => e.submitOrder (fillCallback S fuel) fuel false order
  | .cancelOrder orderId => e.cancelOrder orderId
  | .invoke program => do
    let r ← interp (fillCallback S fuel) fuel program e
    .ok r.2
  | .enableQueueLatencyTracking on => .ok (e.enableQueueLatencyTracking on)
  | .resetLatencyStats => .ok e.resetLatencyStats

/-- A sequence of top-level calls. -/
def run (S : Strategy σ) (ops : List (EngineOp σ)) (fuel : ℕ) (e : TradingEngine σ) :
    Outcome (TradingEngine σ) :=
  runList (EngineOp.run S) fuel ops e

end TradingEngine

end MiniTrader
