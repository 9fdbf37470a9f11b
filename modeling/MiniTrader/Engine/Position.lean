import MiniTrader.Engine.Rules
import Mathlib.Algebra.BigOperators.Group.List.Basic
import Mathlib.Tactic.Linarith

/-!
# What the position counts

`RiskGate::on_fill` adds what every report fills on the buy side and subtracts what every report
fills on the sell side. But every match sends two reports, one to either party, on opposite sides
and with the same quantity, and the engine passes both of them to the gate. So after every call
the position is zero again, whoever has traded with whom.

It agrees with what the strategy has bought and sold as long as nobody trades across the line
between the strategy and the other callers: a match between two of its own orders cancels out, and
so does one between two orders that are not its own. A match of one of its orders with somebody
else's moves its true position and leaves the counter where it is.

## Main definitions

* `net`, `ownNet` — the net quantity of a list of reports, and of the strategy's own
* `OneOwner` — no report names orders of two owners
* `Settled` — a list of reports that nets to zero for everyone without trades across the line

## Main results

* `stepRel_settles` — whatever an engine does adds a settled list of reports
* `position_eq_ownNet` — when the position is the strategy's net position
-/

namespace MiniTrader

open Fuelled

namespace TradingEngine

variable {σ α : Type} {S : Strategy σ} {e e' : TradingEngine σ}

/-! ### Net quantities -/

/-- What a report adds to a position. -/
def signedQuantity (r : ExecutionReport) : ℤ :=
  match r.side with
  | .buy => r.filledQuantity
  | .sell => -r.filledQuantity

/-- The net quantity filled on the orders that `φ` selects. -/
def net (φ : ℕ → Bool) (rs : List ExecutionReport) : ℤ :=
  (rs.map fun r => if φ r.orderId then signedQuantity r else 0).sum

@[simp] theorem net_nil (φ : ℕ → Bool) : net φ [] = 0 := rfl

@[simp] theorem net_cons (φ : ℕ → Bool) (r : ExecutionReport) (rs : List ExecutionReport) :
    net φ (r :: rs) = (if φ r.orderId then signedQuantity r else 0) + net φ rs := by
  simp [net]

@[simp] theorem net_append (φ : ℕ → Bool) (rs rs' : List ExecutionReport) :
    net φ (rs ++ rs') = net φ rs + net φ rs' := by
  simp [net]

/-- What the strategy has bought, minus what it has sold. -/
def ownNet (journal : List EngineEvent) : ℤ :=
  net (fun id => id ∈ ownIds journal) (reports journal)

/-- Every match was between two orders of the strategy, or between two of the other callers. -/
def OneOwner (journal : List EngineEvent) : Prop :=
  ∀ r ∈ reports journal, r.orderId ∈ ownIds journal ↔ r.matchedOrderId ∈ ownIds journal

instance (journal : List EngineEvent) : Decidable (OneOwner journal) :=
  inferInstanceAs (Decidable (∀ r ∈ reports journal, _))

/-- For every owner whose orders have only traded among themselves, the reports net to zero. -/
def Settled (rs : List ExecutionReport) : Prop :=
  ∀ φ : ℕ → Bool, (∀ r ∈ rs, φ r.orderId = φ r.matchedOrderId) → net φ rs = 0

theorem settled_nil : Settled [] := fun _ _ => rfl

theorem Settled.append {rs rs' : List ExecutionReport} (h : Settled rs) (h' : Settled rs') :
    Settled (rs ++ rs') := by
  intro φ hφ
  rw [net_append, h φ fun r hr => hφ r (List.mem_append_left _ hr),
    h' φ fun r hr => hφ r (List.mem_append_right _ hr), add_zero]

/-- **The two reports of a match** settle, whatever settled lists come after them. -/
theorem Settled.fill (takerId makerId makerId' : ℕ) (p p' q : ℤ) (side : Side)
    {rs rs' : List ExecutionReport} (h : Settled rs) (h' : Settled rs') :
    Settled (⟨takerId, makerId, p, q, side, false⟩ :: rs ++
      ⟨makerId', takerId, p', q, side.opp, true⟩ :: rs') := by
  intro φ hφ
  have hrs := h φ fun r hr => hφ r (List.mem_append_left _ (List.mem_cons_of_mem _ hr))
  have hrs' := h' φ fun r hr => hφ r (List.mem_append_right _ (List.mem_cons_of_mem _ hr))
  have hmaker : φ makerId' = φ takerId :=
    hφ ⟨makerId', takerId, p', q, side.opp, true⟩
      (List.mem_append_right _ List.mem_cons_self)
  rw [net_append, net_cons, net_cons, hrs, hrs']
  simp only [hmaker]
  cases side <;> simp only [signedQuantity, Side.opp] <;> split <;> omega

/-- The counter of the gate sums everything. -/
def Counts (e : TradingEngine σ) : Prop :=
  e.env.risk.position = wrap32 (net (fun _ => true) (reports e.env.journal))

theorem Counts.beforeOnFill (h : Counts e) (r : ExecutionReport) :
    Counts (TradingEngine.beforeOnFill r e) := by
  have hsum : net (fun _ => true) (reports (e.env.journal ++ [.filled r])) =
      net (fun _ => true) (reports e.env.journal) + signedQuantity r := by
    rw [reports_append, net_append]
    simp [reports]
  rw [Counts, position_beforeOnFill, journal_beforeOnFill, hsum, ← wrap32_wrap32_add, ← h]
  unfold RiskGate.onFill signedQuantity
  cases r.side <;> rfl

/-! ### What an engine adds to the journal -/

/-- The reports that are added settle, and the gate counts them. -/
def Settles (e e' : TradingEngine σ) : Prop :=
  (∃ rs, reports e'.env.journal = reports e.env.journal ++ rs ∧ Settled rs) ∧
    (Counts e → Counts e')

theorem settles_of_eq (hr : reports e'.env.journal = reports e.env.journal)
    (hp : e'.env.risk.position = e.env.risk.position) : Settles e e' := by
  refine ⟨⟨[], by rw [hr, List.append_nil], settled_nil⟩, fun h => ?_⟩
  rw [Counts, hp, hr]
  exact h

/-- **Whatever an engine does**, and whatever its strategy makes of it, adds reports that settle. -/
theorem stepRel_settles : StepRel (Settles (σ := σ)) where
  refl _ := settles_of_eq rfl rfl
  trans := by
    rintro e₁ e₂ e₃ ⟨⟨rs, hrs, hs⟩, hc⟩ ⟨⟨rs', hrs', hs'⟩, hc'⟩
    exact ⟨⟨rs ++ rs', by rw [hrs', hrs, List.append_assoc], hs.append hs'⟩, fun h => hc' (hc h)⟩
  withBook _ _ := settles_of_eq rfl rfl
  setStrategy _ _ := settles_of_eq rfl rfl
  rejected own o e := settles_of_eq (by simp [reports]) (by simp)
  admitted own o e := settles_of_eq (by simp [reports]) (by simp)
  untracked _ _ := settles_of_eq rfl rfl
  fill := by
    rintro takerId makerId makerId' p p' q side e e₁ e₂ ⟨⟨rs, hrs, hs⟩, hc⟩ ⟨⟨rs', hrs', hs'⟩, hc'⟩
    refine ⟨⟨_, ?_, hs.fill takerId makerId makerId' p p' q side hs'⟩,
      fun h => hc' ((hc ?_).beforeOnFill _)⟩
    · rw [hrs', journal_beforeOnFill, reports_append, hrs, journal_beforeOnFill, reports_append]
      simp [reports]
    · exact h.beforeOnFill _

/-! ### The position -/

/-- What holds after every top-level call. -/
def Balanced (e : TradingEngine σ) : Prop := Settled (reports e.env.journal) ∧ Counts e

theorem Balanced.of_settles (h : Balanced e) (hs : Settles e e') : Balanced e' := by
  obtain ⟨⟨rs, hrs, hset⟩, hc⟩ := hs
  exact ⟨by rw [hrs]; exact h.1.append hset, hc h.2⟩

theorem balanced_run {config : OrderBookConfig} {riskConfig : RiskConfig} {st : σ} {clock : ℕ → ℤ}
    {ops : List (EngineOp σ)} {fuel : ℕ}
    (h : run S ops fuel (new config riskConfig st clock) = .ok e) : Balanced e := by
  have hnew : Balanced (new config riskConfig st clock) := ⟨settled_nil, wrap32_zero.symm⟩
  exact hnew.of_settles (stepRel_settles.run
    (fun hq => settles_of_eq (by rw [hq.journal]) (by rw [hq.risk])) h)

/-- **The position.** In every run, whatever the strategy does and however deep its calls are
nested: if no order of the strategy has traded with somebody else's, the position is what the
strategy has bought minus what it has sold. In general the position is zero, and so it is right
just when these two are equal. -/
theorem position_eq_ownNet (S : Strategy σ) (config : OrderBookConfig) (riskConfig : RiskConfig)
    (st : σ) (clock : ℕ → ℤ) (ops : List (EngineOp σ)) (fuel : ℕ) (e : TradingEngine σ)
    (h : run S ops fuel (new config riskConfig st clock) = .ok e) (instrumentId : ℕ) :
    (OneOwner e.env.journal → e.position instrumentId = ownNet e.env.journal) ∧
      (e.position instrumentId = ownNet e.env.journal ↔ ownNet e.env.journal = 0) := by
  obtain ⟨hset, hcount⟩ := balanced_run h
  have hzero : e.position instrumentId = 0 := by
    show e.env.risk.position = 0
    rw [hcount, hset (fun _ => true) fun _ _ => rfl, wrap32_zero]
  refine ⟨fun hone => ?_, by rw [hzero]; exact eq_comm⟩
  have hown : ownNet e.env.journal = 0 := hset _ fun r hr => by
    simpa using hone r hr
  rw [hzero, hown]

/-- A strategy that buys at the ask of every tick. -/
def askBuyer : Strategy ℕ where
  onTick tick := do
    let id ← .state
    .modify (· + 1)
    .submitOrder ⟨id, tick.instrumentId, tick.askPrice, tick.askSize, .buy, .limit⟩
  onFill _ := return

/-- A new engine with that strategy, ten price levels and no check for self-trades. -/
def askBuyerEngine : TradingEngine ℕ :=
  new ⟨1, 10, 1, by decide, by decide, by decide⟩ { checkSelfTrade := false } 1 fun _ => 0

/-- One tick, on which the strategy buys four lots at a price of five. -/
def askTick : List (EngineOp ℕ) := [.pushTick ⟨1, 4, 5, 4, 4, 5, 1, 0, 0⟩, .runOnce]

/-- Two other callers trade with each other, above the bid of the strategy. -/
theorem position_eq_ownNet_othersTrade : ∃ e,
    run askBuyer (askTick ++ [.submitOrder ⟨7, 1, 6, 3, .sell, .limit⟩,
      .submitOrder ⟨8, 1, 6, 3, .buy, .limit⟩]) 3 askBuyerEngine = .ok e ∧
    e.position 1 = ownNet e.env.journal := by
  obtain ⟨e, he, hone⟩ : ∃ e, run askBuyer (askTick ++ [.submitOrder ⟨7, 1, 6, 3, .sell, .limit⟩,
      .submitOrder ⟨8, 1, 6, 3, .buy, .limit⟩]) 3 askBuyerEngine = .ok e ∧
      OneOwner e.env.journal := by decide +kernel
  exact ⟨e, he, (position_eq_ownNet askBuyer _ _ _ _ _ 3 e he 1).1 hone⟩

/-- Another caller sells to the strategy, which then owns four lots. -/
theorem position_ne_ownNet_bought : ∃ e,
    run askBuyer (askTick ++ [.submitOrder ⟨7, 1, 5, 4, .sell, .limit⟩]) 3 askBuyerEngine =
      .ok e ∧
    ownNet e.env.journal = 4 ∧ e.position 1 = 0 := by
  decide +kernel

end TradingEngine

end MiniTrader
