import MiniTrader.OrderBook.Order

/-!
# Strategies

`include/strategy/strategy_base.h`. A strategy derives from `StrategyBase`, implements `on_tick` and
`on_fill`, and reaches the rest of the system through three protected methods: `submit_order`,
`cancel_order` and `position`. So the body of a callback is a program over a state of its own whose
effects are those three calls. `StrategyM` is the type of such programs, with nothing said about
what the calls do; the engine gives them their meaning.

A statement about every strategy is a statement about every pair of such programs. The state and the
continuations are arbitrary, so a strategy may react to anything it has seen.
-/

namespace MiniTrader

/-- `MarketTick`. -/
structure MarketTick where
  instrumentId : ℕ
  bidPrice : ℤ
  askPrice : ℤ
  bidSize : ℤ
  askSize : ℤ
  lastPrice : ℤ
  lastSize : ℤ
  exchangeTimestampNs : ℕ
  localTimestampNs : ℕ
  deriving DecidableEq, Repr

/-- A strategy's program over its state `σ`. -/
inductive StrategyM (σ α : Type) : Type where
  | pure (a : α)
  | get (k : σ → StrategyM σ α)
  | set (s : σ) (k : StrategyM σ α)
  | submit (order : Order) (k : StrategyM σ α)
  | cancel (orderId : ℕ) (k : StrategyM σ α)
  | position (instrumentId : ℕ) (k : ℤ → StrategyM σ α)

namespace StrategyM

variable {σ α β : Type}

/-- Sequencing. -/
def bind : StrategyM σ α → (α → StrategyM σ β) → StrategyM σ β
  | .pure a, f => f a
  | .get k, f => .get fun s => (k s).bind f
  | .set s k, f => .set s (k.bind f)
  | .submit order k, f => .submit order (k.bind f)
  | .cancel orderId k, f => .cancel orderId (k.bind f)
  | .position instrumentId k, f => .position instrumentId fun p => (k p).bind f

instance : Monad (StrategyM σ) where
  pure := .pure
  bind := .bind

/-- Reading the strategy's own state. -/
def state : StrategyM σ σ := .get .pure

/-- Changing the strategy's own state. -/
def modify (f : σ → σ) : StrategyM σ Unit := .get fun s => .set (f s) (.pure ())

/-- `StrategyBase::submit_order`. -/
def submitOrder (order : Order) : StrategyM σ Unit := .submit order (.pure ())

/-- `StrategyBase::cancel_order`. -/
def cancelOrder (orderId : ℕ) : StrategyM σ Unit := .cancel orderId (.pure ())

/-- `StrategyBase::position`. -/
def getPosition (instrumentId : ℕ) : StrategyM σ ℤ := .position instrumentId .pure

/-- The program submits no order, whatever it reads. -/
def NoSubmit : StrategyM σ α → Prop
  | .pure _ => True
  | .get k => ∀ s, (k s).NoSubmit
  | .set _ k => k.NoSubmit
  | .submit _ _ => False
  | .cancel _ k => k.NoSubmit
  | .position _ k => ∀ p, (k p).NoSubmit

end StrategyM

/-- `StrategyBase`: what a derived class implements. -/
structure Strategy (σ : Type) where
  onTick : MarketTick → StrategyM σ Unit
  onFill : ExecutionReport → StrategyM σ Unit

end MiniTrader
