import MiniTrader.Lib.Fuel
import MiniTrader.OrderBook.PriceLevel
import Mathlib.Data.List.AList
import Mathlib.Logic.Function.Basic

/-!
# The order book

`include/orderbook/order_book.h` and `src/orderbook/order_book.cpp`, function by function.

## Arrays, iterators and undefined behaviour

The two `std::vector<PriceLevel>` are functions of the index together with the number of levels,
and an access at or past that number is the fault `outOfRange`. An iterator is the handle of its
node; dereferencing or erasing one whose node is gone is the fault `dangling`. Both are undefined
behaviour in the source, so nothing is claimed about what happens afterwards: the run stops.

## Re-entrancy

`match` calls the fill callback in the middle of its loops, and the callback is an arbitrary
`std::function` that can reach the book again. So `match` works on a `World`: the book, and
whatever else the callback can see. A callback transforms the world, and `match` reads everything
it needs afterwards from the world it gets back — the resting order through its handle, because
the source holds a reference to the list node across both calls, and the best price from the
cache, because the source reads `best_ask_` again for the second report.

## The two sides

The source writes the body of `match` twice, once for an incoming buy and once for an incoming
sell. The copies differ in the array they sweep, the comparison with the cached best price, the
sides in the two reports and the scan helper; `side` is the incoming order's side and everything
else follows from it. The scan helpers really differ — a signed loop downwards and an unsigned
one upwards — and keep their own bodies.
-/

namespace MiniTrader

open Fuelled

/-- Undefined behaviour a run can reach. -/
inductive Fault where
  /-- A vector access at or past its size. -/
  | outOfRange
  /-- A list node or reference used after the node was erased. -/
  | dangling
  deriving DecidableEq, Repr

/-- The result of running code that may loop or reach undefined behaviour. -/
abbrev Outcome (α : Type) := Except (Stop Fault) α

/-- `OrderBookConfig`. The source does not check the three conditions, but its constructor divides
by `tick_size` and resizes to `(max_price - min_price) / tick_size + 1` levels, so a book exists
only with them. -/
structure OrderBookConfig where
  minPrice : ℤ := 0
  maxPrice : ℤ := 10000
  tickSize : ℤ := 1
  min_le_max : minPrice ≤ maxPrice := by decide
  tick_pos : 0 < tickSize := by decide
  /-- The constructor computes `max_price - min_price` in `int64_t`. -/
  span_lt : maxPrice - minPrice < 9223372036854775808 := by decide

namespace OrderBookConfig

/-- `num_levels`, the size both vectors are given by the constructor. -/
def numLevels (c : OrderBookConfig) : ℕ := ((c.maxPrice - c.minPrice).tdiv c.tickSize).toNat + 1

/-- `price_to_index`. The subtraction is one of `int64_t`, the division truncates towards zero, and
the cast to `std::size_t` is modulo `2 ^ 64`. -/
def priceToIndex (c : OrderBookConfig) (price : ℤ) : ℕ :=
  ((wrap64 (price - c.minPrice)).tdiv c.tickSize % 18446744073709551616).toNat

/-- The price the constructor gives to level `i`. -/
def priceAt (c : OrderBookConfig) (i : ℕ) : ℤ := c.minPrice + i * c.tickSize

end OrderBookConfig

/-- `OrderBook::OrderLocation`. -/
structure OrderLocation where
  side : Side
  priceIdx : ℕ
  it : ℕ
  deriving DecidableEq, Repr

/-- `OrderBook`, without its callback. `nextNode` is the allocator of list nodes. -/
structure OrderBook where
  config : OrderBookConfig
  bids : ℕ → PriceLevel
  asks : ℕ → PriceLevel
  bestBid : ℤ
  bestAsk : ℤ
  orderMap : AList fun _ : ℕ => OrderLocation
  nextNode : ℕ

/-- The book together with everything else a fill callback can reach. -/
structure World (ε : Type) where
  book : OrderBook
  env : ε

/-- The world with another book. -/
def World.withBook {ε : Type} (w : World ε) (b : OrderBook) : World ε := { w with book := b }

@[simp] theorem World.book_withBook {ε : Type} (w : World ε) (b : OrderBook) :
    (w.withBook b).book = b := rfl

@[simp] theorem World.env_withBook {ε : Type} (w : World ε) (b : OrderBook) :
    (w.withBook b).env = w.env := rfl

/-- `OrderBook::FillCallback`. -/
abbrev FillCallback (ε : Type) := ExecutionReport → World ε → Outcome (World ε)

namespace OrderBook

/-- The constructor: all levels empty, each with its price. -/
def new (config : OrderBookConfig) : OrderBook where
  config := config
  bids i := ⟨config.priceAt i, 0, []⟩
  asks i := ⟨config.priceAt i, 0, []⟩
  bestBid := -1
  bestAsk := -1
  orderMap := ∅
  nextNode := 0

/-! ### Selecting a side

`(side == Side::Buy) ? bids_[i] : asks_[i]` and the same for the cached best prices. -/

/-- The levels of a side. -/
def levels (b : OrderBook) : Side → ℕ → PriceLevel
  | .buy => b.bids
  | .sell => b.asks

/-- The cached best price of a side. -/
def best (b : OrderBook) : Side → ℤ
  | .buy => b.bestBid
  | .sell => b.bestAsk

/-- Assigning one level. -/
def setLevel (b : OrderBook) (side : Side) (i : ℕ) (level : PriceLevel) : OrderBook :=
  match side with
  | .buy => { b with bids := Function.update b.bids i level }
  | .sell => { b with asks := Function.update b.asks i level }

/-- Assigning the cached best price. -/
def setBest (b : OrderBook) (side : Side) (p : ℤ) : OrderBook :=
  match side with
  | .buy => { b with bestBid := p }
  | .sell => { b with bestAsk := p }

/-! ### Best-price scans -/

/-- `static_cast<int>` of a `std::size_t`, modulo `2 ^ 32`. -/
def castInt (n : ℕ) : ℤ := Int.bmod n 4294967296

/-- The price of the first of the given levels that is not empty, or `-1`: what the cache holds
after `best = -1; for (…) if (!level.empty()) { best = level.price; break; }`. -/
def firstNonEmpty (levels : ℕ → PriceLevel) (indices : List ℕ) : ℤ :=
  match indices.find? fun i => !(levels i).empty with
  | some i => (levels i).price
  | none => -1

/-- `update_best_bid_after_empty`. The loop variable is an `int`, started at
`static_cast<int>(exhausted_idx) - 1` and counted down to zero. With more than `2 ^ 31` levels the
cast is not the index; where it is the least `int` and the subtraction overflows, the loop is taken
to end at once. -/
def updateBestBidAfterEmpty (b : OrderBook) (exhaustedIdx : ℕ) : OrderBook :=
  { b with bestBid := firstNonEmpty b.bids (List.range (castInt exhaustedIdx).toNat).reverse }

/-- `update_best_ask_after_empty`. The loop variable is a `std::size_t`, counted up to the size of
the vector. -/
def updateBestAskAfterEmpty (b : OrderBook) (exhaustedIdx : ℕ) : OrderBook :=
  { b with
    bestAsk := firstNonEmpty b.asks
      (List.range' (exhaustedIdx + 1) (b.config.numLevels - (exhaustedIdx + 1))) }

/-- The scan helper of a side. -/
def updateBestAfterEmpty (b : OrderBook) : Side → ℕ → OrderBook
  | .buy => b.updateBestBidAfterEmpty
  | .sell => b.updateBestAskAfterEmpty

/-! ### Queries -/

/-- `spread`. -/
def spread (b : OrderBook) : ℤ :=
  if b.bestBid < 0 ∨ b.bestAsk < 0 then -1 else b.bestAsk - b.bestBid

/-- `quantity_at`, the one access with a bound check. -/
def quantityAt (b : OrderBook) (price : ℤ) (side : Side) : ℤ :=
  let idx := b.config.priceToIndex price
  if b.config.numLevels ≤ idx then 0 else (b.levels side idx).totalQuantity

/-! ### Cancelling -/

/-- `if (level.empty() && level.price == best_…_) update_best_…_after_empty(idx);`. -/
def refreshBest (b : OrderBook) (side : Side) (idx : ℕ) : OrderBook :=
  if (b.levels side idx).empty = true ∧ (b.levels side idx).price = b.best side then
    b.updateBestAfterEmpty side idx
  else b

/-- `cancel_order`. -/
def cancelOrder (b : OrderBook) (orderId : ℕ) : Outcome (Bool × OrderBook) :=
  match b.orderMap.lookup orderId with
  | none => .ok (false, b)
  | some loc =>
    let b := { b with orderMap := b.orderMap.erase orderId }
    if loc.priceIdx < b.config.numLevels then
      match (b.levels loc.side loc.priceIdx).erase loc.it with
      | none => .error (.fault .dangling)
      | some level =>
        .ok (true, (b.setLevel loc.side loc.priceIdx level).refreshBest loc.side loc.priceIdx)
    else
      .error (.fault .outOfRange)

/-! ### Matching -/

/-- Reading the resting order through the reference `match` holds on its list node. -/
def readResting (b : OrderBook) (side : Side) (idx : ℕ) (it : ℕ) : Outcome Order :=
  match (b.levels side idx).deref it with
  | some order => .ok order
  | none => .error (.fault .dangling)

/-- The end of an iteration of the inner loop: a completely filled order leaves the map and the
queue, a partially filled one is reduced in place. -/
def settleFront (b : OrderBook) (side : Side) (idx : ℕ) (resting : Order) (fillQty : ℤ) :
    OrderBook :=
  if resting.quantity ≤ fillQty then
    { b with orderMap := b.orderMap.erase resting.orderId }.setLevel side idx
      (b.levels side idx).removeFront
  else
    b.setLevel side idx ((b.levels side idx).reduceFront fillQty)

variable {ε : Type}

/-- One iteration of the inner loop of `match`, sweeping level `idx` of the other side. -/
def fillFront (cb : FillCallback ε) (side : Side) (idx : ℕ) (s : Order × World ε) :
    Outcome (Order × World ε) :=
  match (s.2.book.levels side.opp idx).orders with
  | [] => .error (.fault .dangling)  -- `orders.front()` of an empty list; the guard excludes it
  | front :: _ => do
    let incoming := s.1
    let fillQty := min incoming.quantity front.order.quantity
    let w ← cb ⟨incoming.orderId, front.order.orderId, s.2.book.best side.opp, fillQty, side, false⟩
      s.2
    let resting ← w.book.readResting side.opp idx front.handle
    let w ← cb ⟨resting.orderId, incoming.orderId, w.book.best side.opp, fillQty, side.opp, true⟩ w
    let resting ← w.book.readResting side.opp idx front.handle
    .ok (incoming.withQuantity (incoming.quantity - fillQty),
      w.withBook (w.book.settleFront side.opp idx resting fillQty))

/-- `while (!level.empty() && incoming.quantity > 0)`. -/
def LevelGuard (side : Side) (idx : ℕ) (s : Order × World ε) : Prop :=
  (s.2.book.levels side.opp idx).orders ≠ [] ∧ 0 < s.1.quantity

instance (side : Side) (idx : ℕ) : DecidablePred (LevelGuard (ε := ε) side idx) :=
  fun _ => inferInstanceAs (Decidable (_ ∧ _))

/-- `while (incoming.quantity > 0 && best_ask_ >= 0 && incoming.price >= best_ask_)`, and its
mirror image. -/
def MatchGuard (side : Side) (s : Order × World ε) : Prop :=
  0 < s.1.quantity ∧ 0 ≤ s.2.book.best side.opp ∧
    side.Crosses s.1.price (s.2.book.best side.opp)

instance (side : Side) : DecidablePred (MatchGuard (ε := ε) side) :=
  fun _ => inferInstanceAs (Decidable (_ ∧ _))

/-- `if (level.empty()) update_best_…_after_empty(idx);`. -/
def leaveLevel (b : OrderBook) (side : Side) (idx : ℕ) : OrderBook :=
  if (b.levels side idx).empty then b.updateBestAfterEmpty side idx else b

/-- The body of the outer loop of `match`: sweep the level of the cached best price. -/
def sweepLevel (cb : FillCallback ε) (side : Side) (fuel : ℕ) (s : Order × World ε) :
    Outcome (Order × World ε) :=
  let idx := s.2.book.config.priceToIndex (s.2.book.best side.opp)
  if idx < s.2.book.config.numLevels then do
    let s ← whileLoop (LevelGuard side idx) (fun _ => fillFront cb side idx) fuel s
    .ok (s.1, s.2.withBook (s.2.book.leaveLevel side.opp idx))
  else
    .error (.fault .outOfRange)

/-- `match`. -/
def matchOrder (cb : FillCallback ε) (fuel : ℕ) (s : Order × World ε) : Outcome (Order × World ε) :=
  whileLoop (MatchGuard s.1.side) (sweepLevel cb s.1.side) fuel s

/-! ### Adding -/

/-- `best_bid_ < 0 || order.price > best_bid_`, and its mirror image. -/
def Improves (side : Side) (price best : ℤ) : Prop := best < 0 ∨ side.Better price best

instance (side : Side) (price best : ℤ) : Decidable (Improves side price best) :=
  inferInstanceAs (Decidable (_ ∨ _))

/-- The end of `add_order`: the remainder of a limit order joins its level. -/
def restOrder (b : OrderBook) (order : Order) : Outcome OrderBook :=
  let idx := b.config.priceToIndex order.price
  if idx < b.config.numLevels then
    let b' := { b with
      orderMap := b.orderMap.insert order.orderId ⟨order.side, idx, b.nextNode⟩
      nextNode := b.nextNode + 1 }.setLevel order.side idx
        ((b.levels order.side idx).addOrder b.nextNode order)
    .ok (if Improves order.side order.price (b.best order.side) then
      b'.setBest order.side order.price else b')
  else
    .error (.fault .outOfRange)

/-- `add_order`. -/
def addOrder (cb : FillCallback ε) (fuel : ℕ) (order : Order) (w : World ε) : Outcome (World ε) :=
  if order.type = .cancel then do
    let r ← w.book.cancelOrder order.orderId
    .ok (w.withBook r.2)
  else do
    let s ← matchOrder cb fuel (order, w)
    if 0 < s.1.quantity ∧ s.1.type = .limit then do
      let b ← s.2.book.restOrder s.1
      .ok (s.2.withBook b)
    else
      .ok s.2

end OrderBook

end MiniTrader
