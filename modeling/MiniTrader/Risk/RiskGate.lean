import MiniTrader.OrderBook.Order
import Mathlib.Data.List.AList
import Mathlib.Data.Rat.Defs

/-!
# The risk gate

`include/risk/risk_gate.h` and `src/risk/risk_gate.cpp`.

The counters are `int32_t`, and what they hold is the sum modulo `2 ^ 32`, in two's complement; that
includes the absolute value in the position check. The ratio of the cancel check is a quotient of
two counters compared with a configured `double`; it is a rational here. Clock readings are
nanoseconds since the epoch of the clock, and `last_rate_reset_` starts at the epoch.
-/

namespace MiniTrader

/-- `RiskResult`. -/
inductive RiskResult where
  | pass
  | rejectCancelRate
  | rejectSelfTrade
  | rejectPositionLimit
  | rejectOrderRate
  deriving DecidableEq, Repr

/-- `RiskConfig`. -/
structure RiskConfig where
  maxPosition : ℤ := 1000
  maxOrdersPerSecond : ℤ := 100
  maxCancelRatio : ℚ := 4 / 5
  checkSelfTrade : Bool := true

/-- `RiskGate::RestingOrder`. -/
structure RestingOrder where
  side : Side
  price : ℤ
  deriving DecidableEq, Repr

/-- The value an `int32_t` holds after an operation with the exact result `n`. -/
@[irreducible] def wrap32 (n : ℤ) : ℤ := Int.bmod n 4294967296

theorem wrap32_zero : wrap32 0 = 0 := by
  unfold wrap32; exact Int.zero_bmod

theorem wrap32_wrap32_add (m n : ℤ) : wrap32 (wrap32 m + n) = wrap32 (m + n) := by
  unfold wrap32; exact Int.bmod_add_bmod

theorem wrap32_of_lt {n : ℤ} (h : -2147483648 ≤ n) (h' : n < 2147483648) : wrap32 n = n := by
  unfold wrap32; rw [Int.bmod_def]; omega

/-- The values of an `int32_t`. -/
def IsInt32 (n : ℤ) : Prop := -2147483648 ≤ n ∧ n < 2147483648

instance (n : ℤ) : Decidable (IsInt32 n) := inferInstanceAs (Decidable (_ ∧ _))

theorem isInt32_wrap32 (n : ℤ) : IsInt32 (wrap32 n) := by
  unfold wrap32
  rw [Int.bmod_def]
  constructor <;> split <;> omega

/-- `RiskGate`. -/
structure RiskGate where
  config : RiskConfig
  position : ℤ := 0
  ordersThisSecond : ℤ := 0
  totalOrders : ℤ := 0
  totalCancels : ℤ := 0
  lastRateReset : ℤ := 0
  activeOrders : AList fun _ : ℕ => RestingOrder := ∅

namespace RiskGate

/-- `check_order_rate`, at the time `now`. -/
def checkOrderRate (g : RiskGate) (now : ℤ) : Bool × RiskGate :=
  let g := if 1 ≤ (now - g.lastRateReset).tdiv 1000000000 then
    { g with ordersThisSecond := 0, lastRateReset := now } else g
  let g := { g with ordersThisSecond := wrap32 (g.ordersThisSecond + 1) }
  (decide (g.ordersThisSecond ≤ g.config.maxOrdersPerSecond), g)

/-- `check_position_limit`. -/
def checkPositionLimit (g : RiskGate) (order : Order) : Bool :=
  let projected := match order.side with
    | .buy => wrap32 (g.position + order.quantity)
    | .sell => wrap32 (g.position - order.quantity)
  decide (wrap32 projected.natAbs ≤ g.config.maxPosition)

/-- `check_cancel_rate`. -/
def checkCancelRate (g : RiskGate) : Bool :=
  if g.totalOrders = 0 then true
  else decide ((g.totalCancels : ℚ) / g.totalOrders ≤ g.config.maxCancelRatio)

/-- `check_self_trade`. Every entry of the table is looked at until one decides. -/
def checkSelfTrade (g : RiskGate) (order : Order) : Bool :=
  if order.type = .market then
    g.activeOrders.entries.all fun e => e.2.side = order.side
  else
    g.activeOrders.entries.all fun e =>
      if e.2.side = order.side then true
      else match order.side with
        | .buy => !decide (e.2.price ≤ order.price)
        | .sell => !decide (e.2.price ≥ order.price)

/-- `check`, at the time `now`. -/
def check (g : RiskGate) (now : ℤ) (order : Order) : RiskResult × RiskGate :=
  let r := g.checkOrderRate now
  let g := r.2
  if !r.1 then (.rejectOrderRate, g)
  else if !g.checkPositionLimit order then (.rejectPositionLimit, g)
  else if order.type = .cancel ∧ !g.checkCancelRate then (.rejectCancelRate, g)
  else if g.config.checkSelfTrade ∧ !g.checkSelfTrade order then (.rejectSelfTrade, g)
  else (.pass, { g with totalOrders := wrap32 (g.totalOrders + 1) })

/-- `on_fill`. -/
def onFill (g : RiskGate) (report : ExecutionReport) : RiskGate :=
  match report.side with
  | .buy => { g with position := wrap32 (g.position + report.filledQuantity) }
  | .sell => { g with position := wrap32 (g.position - report.filledQuantity) }

/-- `reset`, at the time `now`. -/
def reset (g : RiskGate) (now : ℤ) : RiskGate :=
  { g with
    position := 0, ordersThisSecond := 0, totalOrders := 0, totalCancels := 0
    lastRateReset := now, activeOrders := ∅ }

/-- `track_order`. -/
def trackOrder (g : RiskGate) (order : Order) : RiskGate :=
  { g with activeOrders := g.activeOrders.insert order.orderId ⟨order.side, order.price⟩ }

/-- `untrack_order`. -/
def untrackOrder (g : RiskGate) (orderId : ℕ) : RiskGate :=
  { g with activeOrders := g.activeOrders.erase orderId }

/-- `current_position`. There is one position for all instruments. -/
def currentPosition (g : RiskGate) (_instrumentId : ℕ) : ℤ := g.position

/-! ### What the calls change -/

variable (g : RiskGate) (now : ℤ) (order : Order) (report : ExecutionReport) (id : ℕ)

@[simp] theorem config_onFill : (g.onFill report).config = g.config := by
  unfold onFill; split <;> rfl

@[simp] theorem activeOrders_onFill : (g.onFill report).activeOrders = g.activeOrders := by
  unfold onFill; split <;> rfl

@[simp] theorem config_trackOrder : (g.trackOrder order).config = g.config := rfl

@[simp] theorem config_untrackOrder : (g.untrackOrder id).config = g.config := rfl

/-- `check_order_rate` counts the order, and may start a new second. -/
theorem exists_checkOrderRate_snd : ∃ n t,
    (g.checkOrderRate now).2 = { g with ordersThisSecond := n, lastRateReset := t } := by
  rw [checkOrderRate]
  dsimp only
  split
  · exact ⟨_, _, rfl⟩
  · exact ⟨_, g.lastRateReset, rfl⟩

/-- **The five answers** of a check, with what has decided each of them. A check counts, and looks
at the clock; it changes nothing else. -/
theorem check_cases : ∃ g' : RiskGate,
    (∃ n t, g' = { g with ordersThisSecond := n, lastRateReset := t }) ∧
    ((g.check now order = (.rejectOrderRate, g') ∧ (g.checkOrderRate now).1 = false) ∨
    (g.check now order = (.rejectPositionLimit, g') ∧ g.checkPositionLimit order = false) ∨
    (g.check now order = (.rejectCancelRate, g') ∧ order.type = .cancel ∧
      g.checkCancelRate = false) ∨
    (g.check now order = (.rejectSelfTrade, g') ∧ g.config.checkSelfTrade = true ∧
      g.checkSelfTrade order = false) ∨
    (g.check now order = (.pass, { g' with totalOrders := wrap32 (g'.totalOrders + 1) }) ∧
      g.checkPositionLimit order = true ∧ (order.type = .cancel → g.checkCancelRate = true) ∧
      (g.config.checkSelfTrade = true → g.checkSelfTrade order = true))) := by
  obtain ⟨n, t, hg⟩ := g.exists_checkOrderRate_snd now
  refine ⟨_, ⟨n, t, rfl⟩, ?_⟩
  rw [check]
  dsimp only
  rw [hg]
  simp only [Bool.not_eq_true']
  split_ifs with hrate hposition hcancel hself
  · exact Or.inl ⟨rfl, hrate⟩
  · exact Or.inr (Or.inl ⟨rfl, hposition⟩)
  · exact Or.inr (Or.inr (Or.inl ⟨rfl, hcancel⟩))
  · exact Or.inr (Or.inr (Or.inr (Or.inl ⟨rfl, hself⟩)))
  · refine Or.inr (Or.inr (Or.inr (Or.inr ⟨rfl, eq_true_of_ne_false hposition,
      fun htype => ?_, fun hon => ?_⟩)))
    · exact eq_true_of_ne_false fun hfail => hcancel ⟨htype, hfail⟩
    · exact eq_true_of_ne_false fun hfail => hself ⟨hon, hfail⟩

@[simp] theorem config_check : (g.check now order).2.config = g.config := by
  obtain ⟨_, ⟨n, t, rfl⟩, ⟨h, -⟩ | ⟨h, -⟩ | ⟨h, -⟩ | ⟨h, -⟩ | ⟨h, -⟩⟩ := g.check_cases now order <;>
    rw [h]

@[simp] theorem position_check : (g.check now order).2.position = g.position := by
  obtain ⟨_, ⟨n, t, rfl⟩, ⟨h, -⟩ | ⟨h, -⟩ | ⟨h, -⟩ | ⟨h, -⟩ | ⟨h, -⟩⟩ := g.check_cases now order <;>
    rw [h]

@[simp] theorem activeOrders_check : (g.check now order).2.activeOrders = g.activeOrders := by
  obtain ⟨_, ⟨n, t, rfl⟩, ⟨h, -⟩ | ⟨h, -⟩ | ⟨h, -⟩ | ⟨h, -⟩ | ⟨h, -⟩⟩ := g.check_cases now order <;>
    rw [h]

/-- No call of the gate counts a cancel. -/
@[simp] theorem totalCancels_check : (g.check now order).2.totalCancels = g.totalCancels := by
  obtain ⟨_, ⟨n, t, rfl⟩, ⟨h, -⟩ | ⟨h, -⟩ | ⟨h, -⟩ | ⟨h, -⟩ | ⟨h, -⟩⟩ := g.check_cases now order <;>
    rw [h]

@[simp] theorem totalCancels_onFill : (g.onFill report).totalCancels = g.totalCancels := by
  unfold onFill; split <;> rfl

@[simp] theorem totalCancels_trackOrder : (g.trackOrder order).totalCancels = g.totalCancels := rfl

@[simp] theorem totalCancels_untrackOrder : (g.untrackOrder id).totalCancels = g.totalCancels := rfl

variable {g now order}

/-- An order that passes has passed the position check, and the self-trade check if that is switched
on. -/
theorem of_check_eq_pass (h : (g.check now order).1 = .pass) : g.checkPositionLimit order = true ∧
    (g.config.checkSelfTrade = true → g.checkSelfTrade order = true) := by
  obtain ⟨g', -, ⟨hc, -⟩ | ⟨hc, -⟩ | ⟨hc, -⟩ | ⟨hc, -⟩ | ⟨-, hposition, -, hself⟩⟩ :=
    g.check_cases now order
  case inr.inr.inr.inr => exact ⟨hposition, hself⟩
  all_goals
    rw [hc] at h
    cases h

/-- An order that is rejected as a self-trade has failed that check. -/
theorem of_check_eq_rejectSelfTrade (h : (g.check now order).1 = .rejectSelfTrade) :
    g.checkSelfTrade order = false := by
  obtain ⟨g', -, ⟨hc, -⟩ | ⟨hc, -⟩ | ⟨hc, -⟩ | ⟨-, -, hself⟩ | ⟨hc, -⟩⟩ := g.check_cases now order
  case inr.inr.inr.inl => exact hself
  all_goals
    rw [hc] at h
    cases h

/-- An order that is rejected for the ratio has failed that check. -/
theorem of_check_eq_rejectCancelRate (h : (g.check now order).1 = .rejectCancelRate) :
    g.checkCancelRate = false := by
  obtain ⟨g', -, ⟨hc, -⟩ | ⟨hc, -⟩ | ⟨-, -, hcancel⟩ | ⟨hc, -⟩ | ⟨hc, -⟩⟩ := g.check_cases now order
  case inr.inr.inl => exact hcancel
  all_goals
    rw [hc] at h
    cases h

/-- Two prices of opposite sides trade with each other. -/
theorem of_checkSelfTrade {id : ℕ} {resting : RestingOrder} (h : g.checkSelfTrade order = true)
    (hl : g.activeOrders.lookup id = some resting) (hside : resting.side = order.side.opp) :
    order.type ≠ .market ∧ ¬ order.side.Crosses order.price resting.price := by
  have hmem : (⟨id, resting⟩ : Sigma fun _ : ℕ => RestingOrder) ∈ g.activeOrders.entries :=
    AList.mem_lookup_iff.mp hl
  have hne : resting.side ≠ order.side := by rw [hside]; exact Side.opp_ne _
  unfold checkSelfTrade at h
  split at h
  · have := List.all_eq_true.mp h _ hmem
    simp only [decide_eq_true_eq] at this
    exact absurd this hne
  · refine ⟨‹_›, ?_⟩
    have := List.all_eq_true.mp h _ hmem
    simp only [if_neg hne] at this
    cases hs : order.side <;> simp only [hs, Bool.not_eq_true', decide_eq_false_iff_not] at this <;>
      exact this

/-- An order that fails the self-trade check would trade with an entry. -/
theorem exists_of_checkSelfTrade_eq_false (h : g.checkSelfTrade order = false) :
    ∃ id resting, g.activeOrders.lookup id = some resting ∧ resting.side = order.side.opp ∧
      (order.type = .market ∨ order.side.Crosses order.price resting.price) := by
  rw [checkSelfTrade] at h
  split at h
  · obtain ⟨⟨id, resting⟩, hmem, hentry⟩ := List.all_eq_false.mp h
    have hside : resting.side ≠ order.side := by simpa using hentry
    exact ⟨id, resting, AList.mem_lookup_iff.mpr hmem,
      (Side.eq_or_eq_opp _ _).resolve_left hside, Or.inl ‹_›⟩
  · obtain ⟨⟨id, resting⟩, hmem, hentry⟩ := List.all_eq_false.mp h
    have hside : resting.side ≠ order.side := fun heq => hentry (if_pos heq)
    refine ⟨id, resting, AList.mem_lookup_iff.mpr hmem,
      (Side.eq_or_eq_opp _ _).resolve_left hside, Or.inr ?_⟩
    rw [if_neg hside] at hentry
    cases hs : order.side <;> simpa [hs, Side.Crosses] using hentry

/-- What an order that is rejected as a self-trade would trade with. -/
theorem exists_of_check_eq_rejectSelfTrade (h : (g.check now order).1 = .rejectSelfTrade) :
    ∃ id resting, g.activeOrders.lookup id = some resting ∧ resting.side = order.side.opp ∧
      (order.type = .market ∨ order.side.Crosses order.price resting.price) :=
  exists_of_checkSelfTrade_eq_false (of_check_eq_rejectSelfTrade h)

/-- As long as no cancel is counted, the ratio is zero. -/
theorem checkCancelRate_of_totalCancels (h : g.totalCancels = 0)
    (hratio : 0 ≤ g.config.maxCancelRatio) : g.checkCancelRate = true := by
  unfold checkCancelRate
  split
  · rfl
  · rw [h, Rat.intCast_zero, Rat.div_def, Rat.zero_mul, decide_eq_true_iff]
    exact hratio

theorem check_ne_rejectCancelRate (h : g.totalCancels = 0)
    (hratio : 0 ≤ g.config.maxCancelRatio) : (g.check now order).1 ≠ .rejectCancelRate := by
  intro hreject
  have hfail := of_check_eq_rejectCancelRate hreject
  rw [checkCancelRate_of_totalCancels h hratio] at hfail
  cases hfail

end RiskGate

end MiniTrader
