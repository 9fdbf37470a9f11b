import MiniTrader.Engine.Batches
import MiniTrader.Engine.CancelRatio
import MiniTrader.Engine.Measurement
import MiniTrader.Risk.OrderRate

/-!
# A rate limit that is never reached

`check_order_rate` is the one place at which the clock decides. Whether it ever rejects an order
depends on the limit, on the clock and on how fast the orders come, and cannot be seen from the
state a run ends in. So it is asked of every check of the run, in the state in which it is made
(`Unthrottled`). Such a run is the run of the engine without a limit, step by step, and two of them
can be compared whatever their clocks are.

The checks are those of `on_tick`; the strategy submits nothing from inside `on_fill`.

## Main definitions

* `RiskGate.unthrottled`, `unthrottled` — the gate and the engine without a rate limit
* `Unthrottled` — no check is rejected for the rate while the ticks are processed
* `StrategyM.AtMost`, `InBudget` — how many orders a program submits, and how many may still come

## Main results

* `RiskGate.check_unthrottled` — one check
* `processAll_unthrottled` — the ticks one after the other
* `unthrottled_of_inBudget` — a run with fewer orders than the limit allows in a second
-/

namespace MiniTrader

open Fuelled

namespace RiskGate

/-- The gate with a limit that no `int32_t` counter exceeds. -/
def unthrottled (g : RiskGate) : RiskGate :=
  { g with config := { g.config with maxOrdersPerSecond := 2147483647 } }

/-- **A check that is not rejected for the rate** is the check without a limit. -/
theorem check_unthrottled {g : RiskGate} {now : ℤ} (h : (g.checkOrderRate now).1 = true)
    (o : Order) :
    g.unthrottled.check now o = ((g.check now o).1, (g.check now o).2.unthrottled) := by
  have hrate : (g.unthrottled.checkOrderRate now).1 = true :=
    checkOrderRate_fst (g := g.unthrottled) (show (2147483647 : ℤ) ≤ 2147483647 from le_rfl) now
  have hsnd : (g.unthrottled.checkOrderRate now).2 = (g.checkOrderRate now).2.unthrottled := by
    unfold checkOrderRate
    dsimp only
    split_ifs <;> first | rfl | contradiction
  have hposition : (g.checkOrderRate now).2.unthrottled.checkPositionLimit o =
    (g.checkOrderRate now).2.checkPositionLimit o := rfl
  have hcancel : (g.checkOrderRate now).2.unthrottled.checkCancelRate =
    (g.checkOrderRate now).2.checkCancelRate := rfl
  have hself : (g.checkOrderRate now).2.unthrottled.checkSelfTrade o =
    (g.checkOrderRate now).2.checkSelfTrade o := rfl
  have hon : (g.checkOrderRate now).2.unthrottled.config.checkSelfTrade =
    (g.checkOrderRate now).2.config.checkSelfTrade := rfl
  unfold check
  simp only [h, hrate, hsnd, hposition, hcancel, hself, hon]
  split_ifs <;> rfl

end RiskGate

namespace StrategyM

/-- The program submits at most so many orders, whatever it reads. -/
def AtMost {σ α : Type} (k : ℕ) : StrategyM σ α → Prop
  | .pure _ => True
  | .get f => ∀ s, (f s).AtMost k
  | .set _ p => p.AtMost k
  | .submit _ p => 0 < k ∧ p.AtMost (k - 1)
  | .cancel _ p => p.AtMost k
  | .position _ f => ∀ x, (f x).AtMost k

theorem AtMost.mono {σ α : Type} {p : StrategyM σ α} {k n : ℕ} (hp : p.AtMost k) (h : k ≤ n) :
    p.AtMost n := by
  induction p generalizing k n with
  | pure a => trivial
  | get f ih => exact fun s => ih s (hp s) h
  | set s p ih => exact ih hp h
  | submit order p ih => exact ⟨hp.1.trans_le h, ih hp.2 (Nat.sub_le_sub_right h 1)⟩
  | cancel orderId p ih => exact ih hp h
  | position i f ih => exact fun x => ih x (hp x) h

/-- The orders of two programs add up. -/
theorem AtMost.bind {σ α β : Type} {p : StrategyM σ α} {f : α → StrategyM σ β} {k n : ℕ}
    (hp : p.AtMost k) (hf : ∀ a, (f a).AtMost n) : (p >>= f).AtMost (k + n) := by
  induction p generalizing k with
  | pure a => exact (hf a).mono (Nat.le_add_left n k)
  | get g ih => exact fun s => ih s (hp s)
  | set s p ih => exact ih hp
  | submit order p ih =>
    obtain ⟨hpos, hp⟩ := hp
    have h := ih hp
    rw [← Nat.sub_add_comm hpos] at h
    exact ⟨Nat.add_pos_left hpos n, h⟩
  | cancel orderId p ih => exact ih hp
  | position i g ih => exact fun x => ih x (hp x)

end StrategyM

/-- The engine without a rate limit. -/
def EngineEnv.unthrottled {σ : Type} (e : EngineEnv σ) : EngineEnv σ :=
  { e with risk := e.risk.unthrottled }

namespace TradingEngine

open OrderBook World

variable {σ α : Type} {S : Strategy σ} {e : TradingEngine σ} {o : Order} {own : Bool} {fuel : ℕ}
  {cb : FillCallback (EngineEnv σ)} {ticks : List MarketTick}

/-- The engine without a rate limit. -/
def unthrottled (e : TradingEngine σ) : TradingEngine σ := e.mapEnv EngineEnv.unthrottled

/-- The next check is not rejected for the rate. -/
def RatePasses (_o : Order) (e : TradingEngine σ) : Prop :=
  (e.env.risk.checkOrderRate e.now).1 = true

/-- While the ticks are processed one after the other, no check is rejected for the rate. -/
def Unthrottled (S : Strategy σ) (ticks : List MarketTick) (e : TradingEngine σ) : Prop :=
  AllowedFrom (fun tick e => Along S RatePasses (S.onTick tick) (e.beforeOnTick tick))
    (fun tick fuel e => e.processTick S fuel tick) ticks e

/-! ### The steps -/

theorem beforeOnFill_unthrottled (r : ExecutionReport) (e : TradingEngine σ) :
    beforeOnFill r e.unthrottled = (beforeOnFill r e).unthrottled := by
  have hfill : ∀ g : RiskGate, g.unthrottled.onFill r = (g.onFill r).unthrottled := by
    intro g
    rw [RiskGate.onFill, RiskGate.onFill]
    cases r.side <;> rfl
  rw [beforeOnFill_eq, beforeOnFill_eq]
  simp only [unthrottled, EngineEnv.unthrottled, World.mapEnv, hfill]
  split <;> rfl

theorem beforeOnTick_unthrottled (tick : MarketTick) (e : TradingEngine σ) :
    e.unthrottled.beforeOnTick tick = (e.beforeOnTick tick).unthrottled := by
  unfold beforeOnTick
  dsimp only
  split_ifs <;> first | rfl | contradiction

theorem passes_unthrottled (h : RatePasses o e) : e.unthrottled.Passes o ↔ e.Passes o := by
  rw [Passes, Passes]
  show (e.env.risk.unthrottled.check e.now o).1 = _ ↔ _
  rw [RiskGate.check_unthrottled h]

theorem rejected_unthrottled (h : RatePasses o e) :
    e.unthrottled.rejected own o = (e.rejected own o).unthrottled := by
  have hcheck : (e.unthrottled.env.risk.check e.unthrottled.now o).2 =
      (e.env.risk.check e.now o).2.unthrottled :=
    congrArg Prod.snd (RiskGate.check_unthrottled h o)
  simp only [rejected, checked, hcheck]
  rfl

theorem admitted_unthrottled (h : RatePasses o e) :
    e.unthrottled.admitted own o = (e.admitted own o).unthrottled := by
  have hcheck : (e.unthrottled.env.risk.check e.unthrottled.now o).2 =
      (e.env.risk.check e.now o).2.unthrottled :=
    congrArg Prod.snd (RiskGate.check_unthrottled h o)
  simp only [admitted, checked, hcheck]
  split_ifs <;> rfl

theorem cancelOrder_unthrottled (orderId : ℕ) (e : TradingEngine σ) :
    e.unthrottled.cancelOrder orderId = (e.cancelOrder orderId).map unthrottled := by
  rw [cancelOrder_eq, cancelOrder_eq]
  show e.book.cancelOrder orderId >>= _ = _
  cases e.book.cancelOrder orderId with
  | error err => rfl
  | ok r => rfl

/-! ### The callback and the book -/

theorem interp_unthrottled_of_noSubmit {p : StrategyM σ α} (hp : p.NoSubmit)
    (e : TradingEngine σ) : interp cb fuel p e.unthrottled =
      (interp cb fuel p e).map (Prod.map id unthrottled) := by
  induction p generalizing e with
  | pure a => rfl
  | get k ih => exact ih _ (hp _) e
  | set s k ih => exact ih hp (e.setStrategy s)
  | submit order k ih => exact hp.elim
  | cancel orderId k ih =>
    rw [interp, interp, cancelOrder_unthrottled]
    cases e.cancelOrder orderId with
    | error err => rfl
    | ok e' => exact ih hp e'
  | position i k ih => exact ih _ (hp _) e

theorem fillCallback_unthrottled (hS : ∀ r, (S.onFill r).NoSubmit) (n : ℕ) (r : ExecutionReport)
    (e : TradingEngine σ) :
    fillCallback S n r e.unthrottled = (fillCallback S n r e).map unthrottled := by
  cases n with
  | zero => rfl
  | succ n =>
    show interp _ _ (S.onFill r) (beforeOnFill r e.unthrottled) >>= _ = _
    rw [beforeOnFill_unthrottled, interp_unthrottled_of_noSubmit (hS r)]
    show _ = Except.map unthrottled (interp _ _ (S.onFill r) (beforeOnFill r e) >>= _)
    cases interp (fillCallback S n) n (S.onFill r) (beforeOnFill r e) with
    | error err => rfl
    | ok r => rfl

theorem related_unthrottled_iff {e e' : TradingEngine σ} :
    Related (fun a b => b = EngineEnv.unthrottled a) e e' ↔ e' = e.unthrottled := by
  refine ⟨fun h => ?_, fun h => h ▸ ⟨rfl, rfl⟩⟩
  obtain ⟨hbook, henv⟩ := h
  obtain ⟨b, env⟩ := e
  obtain ⟨b', env'⟩ := e'
  cases hbook
  cases henv
  rfl

theorem related_unthrottled_iff' {e e' : TradingEngine σ} :
    Related (fun a b => a = EngineEnv.unthrottled b) e' e ↔ e' = e.unthrottled := by
  refine ⟨fun h => ?_, fun h => h ▸ ⟨rfl, rfl⟩⟩
  exact related_unthrottled_iff.mp ⟨h.book.symm, h.env⟩

/-- The callbacks of the two engines run in step, in either order. -/
theorem addOrder_unthrottled (hS : ∀ r, (S.onFill r).NoSubmit) (n : ℕ) (o : Order)
    (e : TradingEngine σ) : addOrder (fillCallback S n) fuel o e.unthrottled =
      (addOrder (fillCallback S n) fuel o e).map unthrottled := by
  have hcb : Keeps (fun a b => b = EngineEnv.unthrottled a) (fillCallback S n)
      (fillCallback S n) := by
    intro r w w' h
    rw [related_unthrottled_iff.mp h, fillCallback_unthrottled hS]
    exact (below_map_right _ _).mono fun w w' hw => related_unthrottled_iff.mpr hw
  have hcb' : Keeps (fun a b => a = EngineEnv.unthrottled b) (fillCallback S n)
      (fillCallback S n) := by
    intro r w' w h
    rw [related_unthrottled_iff'.mp h, fillCallback_unthrottled hS]
    exact (below_map_left _ _).mono fun w' w hw => related_unthrottled_iff'.mpr hw
  have hrelated := below_addOrder hcb (le_refl fuel) o
    (related_unthrottled_iff.mpr (rfl : e.unthrottled = e.unthrottled))
  have hrelated' := below_addOrder hcb' (le_refl fuel) o
    (related_unthrottled_iff'.mpr (rfl : e.unthrottled = e.unthrottled))
  exact hrelated'.map_eq hrelated fun w w' _ _ h => related_unthrottled_iff'.mp h

/-! ### Submitting -/

theorem submitOrder_unthrottled (hS : ∀ r, (S.onFill r).NoSubmit) (n : ℕ) (h : RatePasses o e) :
    e.unthrottled.submitOrder (fillCallback S n) fuel own o =
      (e.submitOrder (fillCallback S n) fuel own o).map unthrottled := by
  by_cases hp : e.Passes o
  · rw [submitOrder_of_passes hp, submitOrder_of_passes ((passes_unthrottled h).mpr hp),
      admitted_unthrottled h, addOrder_unthrottled hS]
  · rw [submitOrder_of_not_passes hp,
      submitOrder_of_not_passes ((passes_unthrottled h).not.mpr hp), rejected_unthrottled h]
    rfl

theorem interp_unthrottled (hS : ∀ r, (S.onFill r).NoSubmit) {p : StrategyM σ α}
    (h : Along S RatePasses p e) : interp (fillCallback S fuel) fuel p e.unthrottled =
      (interp (fillCallback S fuel) fuel p e).map (Prod.map id unthrottled) := by
  induction p generalizing e with
  | pure a => rfl
  | get k ih => exact ih _ h
  | set s k ih => exact ih (e := e.setStrategy s) h
  | submit order k ih =>
    rw [interp, interp, submitOrder_unthrottled hS fuel h.1]
    cases hsub : e.submitOrder (fillCallback S fuel) fuel true order with
    | error err => rfl
    | ok e' => exact ih (h.2 fuel e' hsub)
  | cancel orderId k ih =>
    rw [interp, interp, cancelOrder_unthrottled]
    cases hc : e.cancelOrder orderId with
    | error err => rfl
    | ok e' => exact ih (h e' hc)
  | position i k ih => exact ih _ h

/-! ### Ticks -/

theorem processTick_unthrottled (hS : ∀ r, (S.onFill r).NoSubmit) {tick : MarketTick}
    (h : Along S RatePasses (S.onTick tick) (e.beforeOnTick tick)) :
    e.unthrottled.processTick S fuel tick = (e.processTick S fuel tick).map unthrottled := by
  rw [processTick, processTick, beforeOnTick_unthrottled, interp_unthrottled hS h]
  cases interp (fillCallback S fuel) fuel (S.onTick tick) (e.beforeOnTick tick) with
  | error err => rfl
  | ok r => rfl

/-- **The ticks one after the other**, without a limit. -/
theorem processAll_unthrottled (hS : ∀ r, (S.onFill r).NoSubmit) (h : Unthrottled S ticks e) :
    processAll S fuel ticks e.unthrottled = (processAll S fuel ticks e).map unthrottled := by
  induction ticks generalizing e with
  | nil => rfl
  | cons tick ticks ih =>
    rw [processAll, runList, processAll, runList, processTick_unthrottled hS h.1]
    cases hproc : e.processTick S fuel tick with
    | error err => rfl
    | ok e' => exact ih (h.2 fuel e' hproc)

/-- The limits do not change. -/
theorem riskConfig_processAll {e' : TradingEngine σ} (h : processAll S fuel ticks e = .ok e') :
    e'.env.risk.config = e.env.risk.config := by
  induction ticks generalizing e with
  | nil => cases h; rfl
  | cons tick ticks ih =>
    obtain ⟨e₁, hproc, h⟩ := exists_of_bind_eq_ok h
    obtain ⟨r, hr, rfl⟩ := processTick_eq_ok hproc
    rw [ih h, (quiet_afterOnTick _ _).risk, (stepRel_uncounted.interp hr).config,
      (quiet_beforeOnTick _ _).risk]

/-- What the clock does not decide, put together again from the engine without a limit. -/
theorem timeless_eq_of_unthrottled {e e' : TradingEngine σ}
    (h : e.unthrottled.env.timeless = e'.unthrottled.env.timeless)
    (hconfig : e.env.risk.config = e'.env.risk.config) : e.env.timeless = e'.env.timeless := by
  have key : ∀ f : TradingEngine σ, f.env.timeless =
      { f.unthrottled.env.timeless with
        risk := { f.unthrottled.env.timeless.risk with config := f.env.risk.config } } :=
    fun _ => rfl
  rw [key e, key e', h, hconfig]

/-! ### Few orders

Whatever the clock says, the counter of the window is at most the number of checks. -/

/-- So many orders may still come before the limit can reject one. -/
def InBudget (k : ℕ) (e : TradingEngine σ) : Prop :=
  0 ≤ e.env.risk.ordersThisSecond ∧
    e.env.risk.ordersThisSecond + k ≤ e.env.risk.config.maxOrdersPerSecond ∧
    e.env.risk.config.maxOrdersPerSecond ≤ 2147483647

instance (k : ℕ) (e : TradingEngine σ) : Decidable (InBudget k e) :=
  inferInstanceAs (Decidable (_ ∧ _ ∧ _))

/-- The counter and its limit are the same. -/
def SameWindow (e e' : TradingEngine σ) : Prop :=
  e'.env.risk.ordersThisSecond = e.env.risk.ordersThisSecond ∧
    e'.env.risk.config = e.env.risk.config

theorem SameWindow.trans {e₁ e₂ e₃ : TradingEngine σ} (h : SameWindow e₁ e₂)
    (h' : SameWindow e₂ e₃) : SameWindow e₁ e₃ :=
  ⟨h'.1.trans h.1, h'.2.trans h.2⟩

theorem sameWindow_beforeOnFill (r : ExecutionReport) (e : TradingEngine σ) :
    SameWindow e (beforeOnFill r e) := by
  rw [SameWindow, risk_beforeOnFill]
  rw [RiskGate.onFill]
  split <;> cases r.side <;> exact ⟨rfl, rfl⟩

theorem fillRel_sameWindow : FillRel (SameWindow (σ := σ)) where
  refl _ := ⟨rfl, rfl⟩
  trans := .trans
  withBook _ _ := ⟨rfl, rfl⟩
  setStrategy _ _ := ⟨rfl, rfl⟩
  untracked _ _ := ⟨rfl, rfl⟩
  fill h h' := ((sameWindow_beforeOnFill _ _).trans h).trans
    ((sameWindow_beforeOnFill _ _).trans h')

theorem InBudget.of_sameWindow {k : ℕ} {e' : TradingEngine σ} (h : InBudget k e)
    (hw : SameWindow e e') : InBudget k e' := by
  rw [InBudget, hw.1, hw.2]
  exact h

/-- A check counts at most one, and does not exceed the budget. -/
theorem InBudget.checkOrderRate {k : ℕ} (h : InBudget (k + 1) e) (now : ℤ) :
    (e.env.risk.checkOrderRate now).1 = true ∧
      0 ≤ (e.env.risk.checkOrderRate now).2.ordersThisSecond ∧
      (e.env.risk.checkOrderRate now).2.ordersThisSecond ≤ e.env.risk.ordersThisSecond + 1 := by
  obtain ⟨hpos, hle, hmax⟩ := h
  have hwrap : ∀ n, 0 ≤ n → n ≤ e.env.risk.ordersThisSecond → wrap32 (n + 1) = n + 1 :=
    fun n _ _ => wrap32_of_lt (by omega) (by omega)
  by_cases hover : e.env.risk.WindowOver now
  · rw [RiskGate.checkOrderRate_of_windowOver hover, hwrap 0 le_rfl hpos]
    exact ⟨decide_eq_true (by omega), by dsimp only; omega, by dsimp only; omega⟩
  · rw [RiskGate.checkOrderRate_of_not_windowOver hover, hwrap _ hpos le_rfl]
    exact ⟨decide_eq_true (by omega), by dsimp only; omega, le_rfl⟩

theorem InBudget.submitOrder {k : ℕ} {e' : TradingEngine σ} (hS : ∀ r, (S.onFill r).NoSubmit)
    (h : InBudget (k + 1) e) {n : ℕ}
    (hsub : e.submitOrder (fillCallback S n) fuel own o = .ok e') : InBudget k e' := by
  obtain ⟨-, hpos, hle⟩ := h.checkOrderRate e.now
  rw [← (RiskGate.window_check e.env.risk e.now o).1] at hpos hle
  have hchecked : ∀ e₁ : TradingEngine σ,
      e₁.env.risk.ordersThisSecond = (e.env.risk.check e.now o).2.ordersThisSecond →
      e₁.env.risk.config = e.env.risk.config → InBudget k e₁ := by
    intro e₁ hcount hconfig
    obtain ⟨-, hbudget, hmax⟩ := h
    rw [InBudget, hcount, hconfig]
    exact ⟨hpos, by omega, hmax⟩
  by_cases hp : e.Passes o
  · rw [submitOrder_of_passes hp] at hsub
    refine InBudget.of_sameWindow (hchecked _ ?_ ?_)
      (fillRel_sameWindow.addOrder (fillRel_sameWindow.reports hS n) hsub)
    · rw [risk_admitted]
      split <;> rfl
    · simp
  · rw [submitOrder_of_not_passes hp] at hsub
    cases hsub
    exact hchecked _ rfl (by simp)

/-- A program that submits few enough orders. -/
theorem InBudget.interp (hS : ∀ r, (S.onFill r).NoSubmit) {p : StrategyM σ α} {k n : ℕ}
    (hp : p.AtMost k) (h : InBudget (k + n) e) : Along S RatePasses p e ∧
      ∀ fuel r, TradingEngine.interp (fillCallback S fuel) fuel p e = .ok r → InBudget n r.2 := by
  induction p generalizing k e with
  | pure a =>
    refine ⟨trivial, fun fuel r hr => ?_⟩
    cases hr
    obtain ⟨hpos, hle, hmax⟩ := h
    have hfewer : e.env.risk.ordersThisSecond + n ≤ e.env.risk.config.maxOrdersPerSecond := by omega
    exact ⟨hpos, hfewer, hmax⟩
  | get f ih => exact ih _ (hp _) h
  | set s p ih => exact ih hp (h.of_sameWindow (fillRel_sameWindow.setStrategy e s))
  | submit order p ih =>
    cases k with
    | zero => exact absurd hp.1 (lt_irrefl 0)
    | succ k =>
      rw [Nat.add_right_comm] at h
      have hnext := fun {fuel e'} (hsub : e.submitOrder (fillCallback S fuel) fuel true order =
        .ok e') => ih hp.2 (h.submitOrder hS hsub)
      refine ⟨⟨(h.checkOrderRate e.now).1, fun fuel e' hsub => (hnext hsub).1⟩, ?_⟩
      intro fuel r hr
      obtain ⟨e', hsub, hr⟩ := exists_of_bind_eq_ok hr
      exact (hnext hsub).2 fuel r hr
  | cancel orderId p ih =>
    have hnext := fun {e'} (hc : e.cancelOrder orderId = .ok e') =>
      ih hp (h.of_sameWindow (fillRel_sameWindow.cancelOrder hc))
    refine ⟨fun e' hc => (hnext hc).1, fun fuel r hr => ?_⟩
    obtain ⟨e', hc, hr⟩ := exists_of_bind_eq_ok hr
    exact (hnext hc).2 fuel r hr
  | position i f ih => exact ih _ (hp _) h

/-- **A short run** is not throttled: all its orders fit into one second. -/
theorem unthrottled_of_inBudget {k : ℕ} (hS : ∀ r, (S.onFill r).NoSubmit)
    (hk : ∀ tick, (S.onTick tick).AtMost k) (h : InBudget (ticks.length * k) e) :
    Unthrottled S ticks e := by
  induction ticks generalizing e with
  | nil => trivial
  | cons tick ticks ih =>
    rw [List.length_cons, Nat.succ_mul, Nat.add_comm] at h
    have hbefore : SameWindow e (e.beforeOnTick tick) := by
      rw [SameWindow, (quiet_beforeOnTick tick e).risk]
      exact ⟨rfl, rfl⟩
    obtain ⟨halong, hafter⟩ := (h.of_sameWindow hbefore).interp hS (hk tick)
    refine ⟨halong, fun fuel e' hproc => ih ?_⟩
    obtain ⟨r, hr, rfl⟩ := processTick_eq_ok hproc
    exact hafter fuel r hr

end TradingEngine

end MiniTrader
