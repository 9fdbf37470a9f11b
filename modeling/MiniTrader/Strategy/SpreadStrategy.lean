import MiniTrader.Risk.RiskGate
import MiniTrader.Strategy.StrategyBase

/-!
# The spread strategy

`include/strategy/spread_strategy.h` and `src/strategy/spread_strategy.cpp`, without the printing
that `verbose` switches on.

Four parameters and the moving average are `double`s. Nothing is proved about floating point: the
type and its operations are parameters (`DoubleOps`), so every result holds for whatever prices the
arithmetic comes up with. With rational numbers for doubles the strategy can be run.
-/

namespace MiniTrader

/-- The operations on `double` the strategy uses. -/
class DoubleOps (F : Type) where
  /-- `static_cast<double>` of an integer. -/
  ofInt : ℤ → F
  add : F → F → F
  sub : F → F → F
  mul : F → F → F
  /-- The comparison `<`. -/
  lt : F → F → Bool
  /-- `static_cast<int64_t>(std::round(x))`. -/
  round : F → ℤ
  /-- `static_cast<int64_t>(std::ceil(x))`. -/
  ceil : F → ℤ

/-- Exact arithmetic. `std::round` rounds halves away from zero. -/
instance : DoubleOps ℚ where
  ofInt n := n
  add := (· + ·)
  sub := (· - ·)
  mul := (· * ·)
  lt a b := decide (a < b)
  round x := if 0 ≤ x.num then (2 * x.num + x.den) / (2 * x.den)
    else -((2 * -x.num + x.den) / (2 * x.den))
  ceil x := -((-x.num) / x.den)

/-- `SpreadStrategyConfig`. -/
structure SpreadStrategyConfig (F : Type) where
  instrumentId : ℕ := 1
  halfSpread : ℤ := 2
  orderSize : ℤ := 10
  maxPosition : ℤ := 20
  skewPerLot : F
  emaAlpha : F
  spreadScaleThreshold : F
  spreadScaleFactor : F

/-- The defaults of all parameters, in exact arithmetic. -/
def SpreadStrategyConfig.defaults : SpreadStrategyConfig ℚ where
  skewPerLot := 3 / 10
  emaAlpha := 1 / 20
  spreadScaleThreshold := 9 / 5
  spreadScaleFactor := 8 / 5

/-- The data members of `SpreadStrategy`. -/
structure SpreadState (F : Type) where
  nextId : ℕ := 0
  bidOrderId : ℕ := 0
  askOrderId : ℕ := 0
  realizedPnl : ℤ := 0
  fillCount : ℤ := 0
  emaSpread : F
  emaInitialized : Bool := false

namespace SpreadStrategy

open DoubleOps

variable {F : Type} [DoubleOps F]

/-- A new strategy. -/
def initial : SpreadState F := { emaSpread := ofInt 0 }

/-- The moving average after a tick with the given market spread. -/
def updateEma (cfg : SpreadStrategyConfig F) (marketSpread : F) (s : SpreadState F) :
    SpreadState F :=
  if s.emaInitialized then
    let smoothed :=
      add (mul cfg.emaAlpha marketSpread) (mul (sub (ofInt 1) cfg.emaAlpha) s.emaSpread)
    { s with emaSpread := smoothed }
  else { s with emaSpread := marketSpread, emaInitialized := true }

/-- `next_order_id`, of type `uint64_t`. -/
def nextOrderId : StrategyM (SpreadState F) ℕ := do
  let s ← .state
  let id := (s.nextId + 1) % 18446744073709551616
  .modify fun s => { s with nextId := id }
  return id

/-- The two prices `on_tick` computes, from the skewed middle and the scaled half spread. The
position is an `int32_t` and is negated as one; the prices are computed in `int64_t`. -/
def quotePrices (cfg : SpreadStrategyConfig F) (s : SpreadState F) (tick : MarketTick) (pos : ℤ) :
    ℤ × ℤ :=
  let marketSpread : F := ofInt (wrap64 (tick.askPrice - tick.bidPrice))
  let rawMid := (wrap64 (tick.bidPrice + tick.askPrice)).tdiv 2
  let skewOffset := round (mul (ofInt (wrap32 (-pos))) cfg.skewPerLot)
  let mid := wrap64 (rawMid + skewOffset)
  let half :=
    if lt (ofInt 0) s.emaSpread ∧ lt (mul s.emaSpread cfg.spreadScaleThreshold) marketSpread then
      ceil (mul (ofInt cfg.halfSpread) cfg.spreadScaleFactor)
    else cfg.halfSpread
  (wrap64 (mid - half), wrap64 (mid + half))

/-- One of the two quotes. -/
def quoteOrder (cfg : SpreadStrategyConfig F) (id : ℕ) (price : ℤ) (side : Side) : Order :=
  ⟨id, cfg.instrumentId, price, cfg.orderSize, side, .limit⟩

/-- The end of `on_tick`: both orders are submitted, then both ids are recorded. -/
def quote (cfg : SpreadStrategyConfig F) (buyPx sellPx : ℤ) : StrategyM (SpreadState F) Unit := do
  let bidId ← nextOrderId
  .submitOrder (quoteOrder cfg bidId buyPx .buy)
  let askId ← nextOrderId
  .submitOrder (quoteOrder cfg askId sellPx .sell)
  .modify fun s => { s with bidOrderId := bidId, askOrderId := askId }

/-- `on_tick`. -/
def onTick (cfg : SpreadStrategyConfig F) (tick : MarketTick) :
    StrategyM (SpreadState F) Unit :=
  if tick.instrumentId ≠ cfg.instrumentId then return
  else if tick.bidPrice ≤ 0 ∨ tick.askPrice ≤ 0 then return
  else do
    .modify (updateEma cfg (ofInt (wrap64 (tick.askPrice - tick.bidPrice))))
    let s ← .state
    if s.bidOrderId ≠ 0 ∨ s.askOrderId ≠ 0 then return
    else do
      let pos ← .getPosition cfg.instrumentId
      if cfg.maxPosition ≤ wrap32 pos.natAbs then return
      else
        let px := quotePrices cfg s tick pos
        if px.1 ≤ 0 ∨ px.2 ≤ px.1 then return
        else quote cfg px.1 px.2

/-- `on_fill`. `realized_pnl_` is an `int64_t`, and so is the product: it wraps only once here,
which comes to the same. -/
def onFill (report : ExecutionReport) : StrategyM (SpreadState F) Unit := do
  .modify fun s => { s with fillCount := wrap32 (s.fillCount + 1) }
  let s ← .state
  if report.orderId = s.bidOrderId then do
    if s.askOrderId ≠ 0 then do
      .cancelOrder s.askOrderId
      .modify fun s => { s with askOrderId := 0 }
    .modify fun s =>
      { s with
        bidOrderId := 0
        realizedPnl := wrap64 (s.realizedPnl - report.price * report.filledQuantity) }
  else if report.orderId = s.askOrderId then do
    if s.bidOrderId ≠ 0 then do
      .cancelOrder s.bidOrderId
      .modify fun s => { s with bidOrderId := 0 }
    .modify fun s =>
      { s with
        askOrderId := 0
        realizedPnl := wrap64 (s.realizedPnl + report.price * report.filledQuantity) }

/-- `cancel_resting_quotes`. -/
def cancelRestingQuotes : StrategyM (SpreadState F) Unit := do
  let s ← .state
  if s.bidOrderId ≠ 0 then do
    .cancelOrder s.bidOrderId
    .modify fun s => { s with bidOrderId := 0 }
  let s ← .state
  if s.askOrderId ≠ 0 then do
    .cancelOrder s.askOrderId
    .modify fun s => { s with askOrderId := 0 }

/-- `SpreadStrategy`. -/
def strategy (cfg : SpreadStrategyConfig F) : Strategy (SpreadState F) where
  onTick := onTick cfg
  onFill := onFill

end SpreadStrategy

end MiniTrader
