import MiniTrader.Engine.Rules

/-!
# The cancel ratio

`check_cancel_rate` compares `total_cancels_ / total_orders_` with a limit. No statement of the gate
or of the engine counts a cancel, so the ratio is zero all day; and the gate is asked about `Cancel`
orders only, not about `cancel_order`, by which strategies and other callers cancel.

So the counter agrees with the cancels of a run just when no cancel has found its order in the book,
and with a limit that is not negative no order is ever rejected for the ratio.

## Main definitions

* `removals` — how many orders cancels have taken out of the book
* `RatioExceeded` — the state in which cancels are to stop

## Main results

* `totalCancels_eq_removals_iff` — when the rule is met
* `check_ne_rejectCancelRate` — it is never enforced
-/

namespace MiniTrader

open Fuelled

namespace TradingEngine

variable {σ : Type} {S : Strategy σ} {e e' : TradingEngine σ}

/-- The number of orders that cancels have taken out of the book. -/
def removals (e : TradingEngine σ) : ℕ := e.env.cancels.countP fun event => event.removed

/-- The cancels counted are too many for the orders counted. -/
def RatioExceeded (e : TradingEngine σ) : Prop :=
  0 < e.env.risk.totalOrders ∧
    e.env.risk.config.maxCancelRatio < (e.env.risk.totalCancels : ℚ) / e.env.risk.totalOrders

/-- What is recorded is what the book answers. -/
theorem removed_eq_of_cancelOrder {b b' : OrderBook} {id : ℕ} {r : Bool}
    (h : b.cancelOrder id = .ok (r, b')) : r = (b.orderMap.lookup id).isSome := by
  unfold OrderBook.cancelOrder at h
  split at h
  · rename_i hl
    cases h
    rw [hl]
    rfl
  · rename_i loc hl
    dsimp only at h
    split at h
    · split at h
      · cases h
      · cases h
        rw [hl]
        rfl
    · cases h

/-- Cancels are recorded and never counted. -/
structure Uncounted (e e' : TradingEngine σ) : Prop where
  totalCancels : e'.env.risk.totalCancels = e.env.risk.totalCancels
  config : e'.env.risk.config = e.env.risk.config
  cancels : e.env.cancels <+: e'.env.cancels

theorem uncounted_of_eq (hrisk : e'.env.risk = e.env.risk) (hc : e'.env.cancels = e.env.cancels) :
    Uncounted e e' :=
  ⟨by rw [hrisk], by rw [hrisk], by rw [hc]⟩

theorem uncounted_beforeOnFill (r : ExecutionReport) (e : TradingEngine σ) :
    Uncounted e (beforeOnFill r e) := by
  refine ⟨?_, ?_, by rw [cancels_beforeOnFill]⟩ <;> rw [risk_beforeOnFill] <;> split <;> simp

theorem Uncounted.trans {e₁ e₂ e₃ : TradingEngine σ} (h : Uncounted e₁ e₂)
    (h' : Uncounted e₂ e₃) : Uncounted e₁ e₃ :=
  ⟨h'.totalCancels.trans h.totalCancels, h'.config.trans h.config, h.cancels.trans h'.cancels⟩

/-- **No engine counts a cancel**, whatever its strategy does. -/
theorem stepRel_uncounted : StepRel (Uncounted (σ := σ)) where
  refl _ := uncounted_of_eq rfl rfl
  trans := .trans
  withBook _ _ := uncounted_of_eq rfl rfl
  setStrategy _ _ := uncounted_of_eq rfl rfl
  rejected own o e := ⟨by rw [risk_rejected, RiskGate.totalCancels_check], by simp, by simp⟩
  admitted own o e := by
    refine ⟨?_, by simp, by rw [cancels_admitted]; exact List.prefix_append _ _⟩
    rw [risk_admitted]
    split <;> simp
  untracked _ _ := ⟨rfl, rfl, List.prefix_append _ _⟩
  fill h h' := ((uncounted_beforeOnFill _ _).trans h).trans ((uncounted_beforeOnFill _ _).trans h')

theorem uncounted_run {ops : List (EngineOp σ)} {fuel : ℕ} (h : run S ops fuel e = .ok e') :
    Uncounted e e' :=
  stepRel_uncounted.run (fun hq => uncounted_of_eq hq.risk hq.cancels) h

section

variable {c : OrderBookConfig} {riskConfig : RiskConfig} {st : σ} {clock : ℕ → ℤ}
  {ops : List (EngineOp σ)} {fuel : ℕ}

theorem totalCancels_eq_zero (h : run S ops fuel (new c riskConfig st clock) = .ok e) :
    e.env.risk.totalCancels = 0 :=
  (uncounted_run h).totalCancels

end

/-- **The ratio is never enforced.** With a limit that is not negative no order is rejected for the
cancel ratio, in any state of any run. -/
theorem check_ne_rejectCancelRate (S : Strategy σ) (c : OrderBookConfig) (riskConfig : RiskConfig)
    (hratio : 0 ≤ riskConfig.maxCancelRatio) (st : σ) (clock : ℕ → ℤ) (ops : List (EngineOp σ))
    (fuel : ℕ) (e : TradingEngine σ) (h : run S ops fuel (new c riskConfig st clock) = .ok e)
    (now : ℤ) (o : Order) : (e.env.risk.check now o).1 ≠ .rejectCancelRate :=
  RiskGate.check_ne_rejectCancelRate (totalCancels_eq_zero h)
    (by rw [(uncounted_run h).config]; exact hratio)

theorem Uncounted.removals_le (h : Uncounted e e') : e.removals ≤ e'.removals :=
  h.cancels.sublist.countP_le

/-- **The cancel ratio.** Take any run and any later state of it. The counter is the number of
orders that cancels have removed in both states, and no cancel removes an order in between when the
ratio is exceeded in the first, if and only if no cancel has found its order in the book. -/
theorem totalCancels_eq_removals_iff (S : Strategy σ) (c : OrderBookConfig)
    (riskConfig : RiskConfig) (st : σ) (clock : ℕ → ℤ) (ops ops' : List (EngineOp σ))
    (fuel fuel' : ℕ) (e e' : TradingEngine σ)
    (h : run S ops fuel (new c riskConfig st clock) = .ok e) (h' : run S ops' fuel' e = .ok e') :
    (e.env.risk.totalCancels = e.removals ∧ e'.env.risk.totalCancels = e'.removals ∧
        (e.RatioExceeded → e'.removals = e.removals)) ↔
      ∀ event ∈ e'.env.cancels, event.removed = false := by
  have hzero : e.env.risk.totalCancels = 0 := totalCancels_eq_zero h
  have hlater := uncounted_run h'
  have hle := hlater.removals_le
  have hnone : (∀ event ∈ e'.env.cancels, event.removed = false) ↔ e'.removals = 0 := by
    rw [removals, List.countP_eq_zero]
    simp
  rw [hnone, hlater.totalCancels, hzero]
  constructor
  · rintro ⟨-, hcount, -⟩
    exact_mod_cast hcount.symm
  · intro hnone
    have : e.removals = 0 := by omega
    rw [hnone, this]
    exact ⟨rfl, rfl, fun _ => rfl⟩

/-- A strategy that does nothing. -/
def silent : Strategy Unit where
  onTick _ := return
  onFill _ := return

/-- A new engine with that strategy, and twelve price levels. -/
def silentEngine : TradingEngine Unit :=
  new ⟨1, 12, 1, by decide, Int.one_pos, by decide⟩ {} () fun _ => 0

/-- A cancel of an id that nobody has used. -/
theorem totalCancels_eq_removals_iff_unknownId : ∃ e e',
    run silent [.submitOrder ⟨1, 1, 5, 4, .buy, .limit⟩] 3 silentEngine = .ok e ∧
    run silent [.cancelOrder 7] 3 e = .ok e' ∧
    ((e.env.risk.totalCancels = e.removals ∧ e'.env.risk.totalCancels = e'.removals ∧
        (e.RatioExceeded → e'.removals = e.removals)) ↔
      ∀ event ∈ e'.env.cancels, event.removed = false) := by
  obtain ⟨e, he, e', he', -⟩ : ∃ e,
      run silent [.submitOrder ⟨1, 1, 5, 4, .buy, .limit⟩] 3 silentEngine = .ok e ∧
      ∃ e', run silent [.cancelOrder 7] 3 e = .ok e' ∧ True := by decide +kernel
  exact ⟨e, e', he, he', totalCancels_eq_removals_iff silent _ _ _ _ _ _ 3 3 e e' he he'⟩

/-- **Every order cancelled.** One order, one cancel, and the counter is zero; the next order can be
cancelled as well. -/
theorem totalCancels_ne_removals : ∃ e,
    run silent [.submitOrder ⟨1, 1, 5, 4, .buy, .limit⟩, .cancelOrder 1,
      .submitOrder ⟨2, 1, 5, 4, .buy, .limit⟩, .cancelOrder 2] 3 silentEngine = .ok e ∧
    e.env.risk.totalOrders = 2 ∧ e.removals = 2 ∧ e.env.risk.totalCancels = 0 := by
  decide +kernel

end TradingEngine

end MiniTrader
