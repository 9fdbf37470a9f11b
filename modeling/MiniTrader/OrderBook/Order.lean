import Mathlib.Data.Int.Notation
import Mathlib.Data.Nat.Notation
import Mathlib.Tactic.Common

/-!
# Orders and execution reports

`include/orderbook/order.h`. Prices are integers in ticks and may have either sign; identifiers
are unsigned. Where the source computes with prices, in `int64_t`, the result is taken modulo
`2 ^ 64` in two's complement (`wrap64`). Quantities are `int32_t` in the source and unbounded here:
nothing in the book checks their range, and what the 32-bit totals would do is a separate question
from what the book does.

The time stamps of orders and reports are left out. No modelled function reads one.
-/

namespace MiniTrader

/-- The value an `int64_t` holds after an operation with the exact result `n`. -/
def wrap64 (n : ℤ) : ℤ := Int.bmod n 18446744073709551616

/-- The values of an `int64_t`. -/
def IsInt64 (n : ℤ) : Prop := -9223372036854775808 ≤ n ∧ n < 9223372036854775808

instance (n : ℤ) : Decidable (IsInt64 n) := inferInstanceAs (Decidable (_ ∧ _))

theorem wrap64_eq_self_iff {n : ℤ} : wrap64 n = n ↔ IsInt64 n := by
  unfold wrap64 IsInt64
  rw [Int.bmod_def]
  constructor
  · intro h
    split at h <;> omega
  · rintro ⟨h, h'⟩
    split <;> omega

theorem isInt64_wrap64 (n : ℤ) : IsInt64 (wrap64 n) := by
  unfold wrap64 IsInt64
  rw [Int.bmod_def]
  split <;> omega

theorem wrap64_wrap64_add (m n : ℤ) : wrap64 (wrap64 m + n) = wrap64 (m + n) := by
  unfold wrap64; exact Int.bmod_add_bmod

theorem wrap64_of_le {n : ℤ} (h : -9223372036854775808 ≤ n) (h' : n < 9223372036854775808) :
    wrap64 n = n :=
  wrap64_eq_self_iff.mpr ⟨h, h'⟩

/-- `Side`. -/
inductive Side where
  | buy
  | sell
  deriving DecidableEq, Repr

/-- The other side. -/
def Side.opp : Side → Side
  | .buy => .sell
  | .sell => .buy

@[simp] theorem Side.opp_opp (s : Side) : s.opp.opp = s := by cases s <;> rfl

@[simp] theorem Side.opp_ne (s : Side) : s.opp ≠ s := by cases s <;> decide

@[simp] theorem Side.ne_opp (s : Side) : s ≠ s.opp := by cases s <;> decide

theorem Side.eq_or_eq_opp (s t : Side) : t = s ∨ t = s.opp := by cases s <;> cases t <;> simp [opp]

/-- An incoming order on side `s` with limit `price` trades at `best`, the cached best price of
the other side: a buy at or above the best ask, a sell at or below the best bid. -/
def Side.Crosses (s : Side) (price best : ℤ) : Prop :=
  match s with
  | .buy => best ≤ price
  | .sell => price ≤ best

instance (s : Side) (price best : ℤ) : Decidable (s.Crosses price best) := by
  unfold Side.Crosses; cases s <;> infer_instance

/-- Price `p` is strictly better than `q` for the orders resting on side `s`: higher for bids,
lower for asks. -/
def Side.Better (s : Side) (p q : ℤ) : Prop :=
  match s with
  | .buy => q < p
  | .sell => p < q

instance (s : Side) (p q : ℤ) : Decidable (s.Better p q) := by
  unfold Side.Better; cases s <;> infer_instance

/-- `OrderType`. -/
inductive OrderType where
  | limit
  | market
  | cancel
  deriving DecidableEq, Repr

/-- `Order`. -/
structure Order where
  orderId : ℕ
  instrumentId : ℕ
  price : ℤ
  quantity : ℤ
  side : Side
  type : OrderType
  deriving DecidableEq, Repr

/-- The order with another remaining quantity. -/
def Order.withQuantity (o : Order) (q : ℤ) : Order := { o with quantity := q }

section

variable (o : Order) (q : ℤ)

@[simp] theorem Order.orderId_withQuantity : (o.withQuantity q).orderId = o.orderId := rfl
@[simp] theorem Order.quantity_withQuantity : (o.withQuantity q).quantity = q := rfl
@[simp] theorem Order.side_withQuantity : (o.withQuantity q).side = o.side := rfl
@[simp] theorem Order.type_withQuantity : (o.withQuantity q).type = o.type := rfl

end

/-- `ExecutionReport`: every match sends one to either party. -/
structure ExecutionReport where
  orderId : ℕ
  matchedOrderId : ℕ
  price : ℤ
  filledQuantity : ℤ
  side : Side
  isMaker : Bool
  deriving DecidableEq, Repr

/-- The resting order a report is about: the maker is the report's own order in the maker's
report, and the matched order in the taker's. -/
def ExecutionReport.makerId (r : ExecutionReport) : ℕ :=
  if r.isMaker then r.orderId else r.matchedOrderId

/-- The incoming order a report is about. -/
def ExecutionReport.takerId (r : ExecutionReport) : ℕ :=
  if r.isMaker then r.matchedOrderId else r.orderId

end MiniTrader
