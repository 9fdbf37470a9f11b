import MiniTrader.Engine.DeadQuotes
import MiniTrader.OrderBook.LevelAccess

/-!
# Prices beyond the levels

A price comes to the book from a tick, through the skew and the spread of the strategy, or from
outside, and nothing on the way confines it: `check` looks at sizes, rates and positions, and the
only bound check of the book is in `quantity_at`. What is missing is a check of the limit orders
that pass the gate. An order beyond the levels does no harm just when the orders in reach use it up
before it comes to rest, and these can be counted before the match: while it is matched, the
strategy pulls at most the quote of the order's own side.

## Main definitions

* `Undisturbed` — the strategy takes nothing away from the orders in reach
* `UsedUp` — they use the order up
* `Conditions.inRange` — every limit order has a price in the range, or is used up

## Main results

* `Undisturbed.exists_matchOrder` — how much of an order is left
* `ensures_ranged_run` — the invariant of a run
* `run_ne_outOfRange_of_inRange`
-/

namespace MiniTrader

open Fuelled OrderBook

namespace OrderBook

variable {b b' : OrderBook} {s t : Side} {i id : ℕ} {n : Node}

/-- A fill brings no id to a side. -/
theorem RestsOn.of_settleFront {rest : List Node} {q : ℤ} (hb : Coherent b)
    (hfront : (b.levels s i).orders = n :: rest)
    (h : (b.settleFront s i n.order q).RestsOn t id) : b.RestsOn t id := by
  obtain ⟨j, hj, m, hm, rfl⟩ := h
  have hn : n ∈ (b.levels s i).orders := by
    rw [hfront]
    exact List.mem_cons_self
  rw [config_settleFront] at hj
  rcases hb.settleFront_cases (q := q) hfront with ⟨-, he⟩ | ⟨-, he⟩
  · rw [he] at hm
    exact ⟨j, hj, m, ((hb.mem_unlink hn).mp hm).1, rfl⟩
  · rw [he] at hm
    rcases (hb.mem_reduceFront hfront).mp hm with ⟨hm, -⟩ | ⟨rfl, rfl, rfl⟩
    · exact ⟨j, hj, m, hm, rfl⟩
    · exact ⟨_, hj, n, hn, rfl⟩

/-- The cancel of an id that does not rest on a side leaves the queues of that side alone. -/
theorem Coherent.levels_cancelOrder {ok : Bool} (hb : Coherent b)
    (hc : b.cancelOrder id = .ok (ok, b')) (h : ¬ b.RestsOn s id) :
    b'.config = b.config ∧ b'.levels s = b.levels s := by
  rcases hb.exists_cancelOrder id with ⟨-, hc'⟩ | ⟨t, i, n, hn, rfl, hc'⟩
  · rw [hc'] at hc
    cases hc
    exact ⟨rfl, rfl⟩
  · rw [hc'] at hc
    cases hc
    refine ⟨by rw [config_refreshBest, config_unlink], ?_⟩
    funext j
    rw [levels_refreshBest, levels_unlink_of_ne]
    rintro ⟨rfl, rfl⟩
    exact h (hb.restsOn_of_mem hn)

/-- A fill takes as much from the order as from the queue. -/
theorem sub_sumQuantity_queueAfter (q : ℤ) (n : Node) (ns : List Node) :
    q - min q n.order.quantity -
        PriceLevel.sumQuantity (queueAfter (min q n.order.quantity) (n :: ns)) =
      q - PriceLevel.sumQuantity (n :: ns) := by
  rw [queueAfter, PriceLevel.sumQuantity_cons]
  split
  · omega
  · rw [PriceLevel.sumQuantity_cons, reduced_quantity]
    omega

end OrderBook

namespace TradingEngine

variable {σ : Type} {S : Strategy σ} {c : OrderBookConfig} {e : TradingEngine σ}

theorem ensures_cancelOrder (h : Ranged c e.book) (id : ℕ) :
    Ensures OutOfRange (fun e' => Ranged c e'.book) (e.cancelOrder id) := by
  rw [cancelOrder_eq]
  exact (h.cancelOrder id).bind fun r _ h' => ensures_ok h'

/-- A strategy that does not submit from `on_fill` at most cancels. -/
theorem onlyCancels_fillCallback (hS : ∀ r, (S.onFill r).NoSubmit) (n : ℕ) :
    OnlyCancels (fillCallback S n) := by
  intro r e hb
  cases n with
  | zero => exact ensures_outOfFuel
  | succ n =>
    refine (@ensures_interp_of_noSubmit _ _ _ _ _ _ _
      (fun e' => Sound e'.book ∧ Cancels e.book e'.book) (fun _ h => h) (fun {e'} id h => ?_) ?_
      (hS r)).bind fun _ _ h' => ensures_ok h'.2
    · obtain ⟨ok, b, hc⟩ := h.1.coherent.cancelOrder_ok id
      rw [cancelOrder_ok hc]
      exact ensures_ok ⟨h.1.cancelOrder hc, h.2.tail ⟨id, ok, hc⟩⟩
    · rw [book_beforeOnFill]
      exact ⟨hb, .refl _⟩

end TradingEngine

namespace SpreadStrategy

open TradingEngine

variable {F : Type} {e e' : TradingEngine (SpreadState F)} {o : Order} {side : Side}
  {c : OrderBookConfig} {fuel : ℕ}

/-- The order is not one of the recorded quotes, which come in pairs, and the quote the strategy
pulls when the other one is filled is not one the order could be matched with. -/
structure Undisturbed (o : Order) (e : TradingEngine (SpreadState F)) : Prop where
  watching : Watching o.orderId e.env.strategy
  apart : quoteId e.env.strategy o.side ≠ 0 →
    ¬ e.book.RestsOn o.side.opp (quoteId e.env.strategy o.side)

/-- The orders in reach use the order up. -/
structure UsedUp (o : Order) (e : TradingEngine (SpreadState F)) : Prop where
  undisturbed : Undisturbed o e
  covered : o.quantity ≤ PriceLevel.sumQuantity (e.book.matchQueue o.side o.price)

/-- While an order is matched: by how much it exceeds the queue `ns` it has still to meet. -/
structure Exceeding (side : Side) (d : ℤ) (ns : List Node) (o : Order)
    (e : TradingEngine (SpreadState F)) : Prop where
  apart : ∀ t, quoteId e.env.strategy t ≠ 0 →
    ¬ e.book.RestsOn side.opp (quoteId e.env.strategy side)
  exceeds : max (o.quantity - PriceLevel.sumQuantity ns) 0 = d

variable [DoubleOps F] {cfg : SpreadStrategyConfig F}

theorem sparingRule_exceeding (cfg : SpreadStrategyConfig F) {d : ℤ} :
    SparingRule c (fillCallback (strategy cfg) 1) side
    (fun o e => Watching o.orderId e.env.strategy ∧
      Exceeding side d (e.book.matchQueue side o.price) o e)
    (fun idx o e => Watching o.orderId e.env.strategy ∧ idx < c.numLevels ∧
      Exceeding side d (e.book.queueFrom side o.price idx) o e) := by
  refine sparingRule_filled ?_ ?_ ?_
  · intro o e hb hc h hg
    rw [matchQueue_of_guard hg] at h
    exact ⟨hc ▸ hb.cached _ hg.2.1, h⟩
  · rintro idx o n rest rest' e e' hb - ⟨hidx, h⟩ hfront - hfill hb' hfront'
    have hn : n ∈ (e.book.levels side.opp idx).orders := by
      rw [hfront]
      exact List.mem_cons_self
    -- the side that is swept loses nothing but the fill
    obtain ⟨hconfig, hlevels⟩ : e'.book.config = e.book.config ∧
        e'.book.levels side.opp = e.book.levels side.opp := by
      cases hfill with
      | other _ hbook _ => rw [hbook]; exact ⟨rfl, rfl⟩
      | quote s hs hs0 hbook _ =>
        have hapart := h.apart s hs0
        obtain ⟨ok, hc⟩ := hbook
        rcases Side.eq_or_eq_opp side s with rfl | rfl
        · exact absurd (hs ▸ hb.coherent.restsOn_of_mem hn) hapart
        · rw [Side.opp_opp] at hc
          exact hb.coherent.levels_cancelOrder hc hapart
    have hapart : ∀ t, quoteId e'.env.strategy t ≠ 0 →
        ¬ e'.book.RestsOn side.opp (quoteId e'.env.strategy side) := by
      cases hfill with
      | other _ hbook hids =>
        intro t
        rw [hbook, hids.quotes, hids.quotes]
        exact h.apart t
      | quote _ _ _ _ hids => exact fun t hne => absurd (hids.quotes t) hne
    have hqueue : (e'.book.settleFront side.opp idx n.order
        (min o.quantity n.order.quantity)).queueFrom side o.price idx =
          queueAfter (min o.quantity n.order.quantity) (e.book.queueFrom side o.price idx) := by
      rw [queueFrom_settleFront hb'.coherent hfront', queueFrom_congr hconfig hlevels]
    refine ⟨hidx, fun t hne hrests => hapart t hne (hrests.of_settleFront hb'.coherent hfront'), ?_⟩
    show max (o.quantity - min o.quantity n.order.quantity -
      PriceLevel.sumQuantity (queueFrom _ side o.price idx)) 0 = d
    rw [World.book_withBook, hqueue, queueFrom_eq_cons hfront, sub_sumQuantity_queueAfter,
      ← queueFrom_eq_cons hfront]
    exact h.exceeds
  · rintro idx o e hb rfl ⟨hidx, h⟩ hg
    refine ⟨fun t hne hrests => h.apart t hne (hrests.congr config_leaveLevel.symm
      (levels_leaveLevel (s := side.opp)).symm), ?_⟩
    · rw [World.book_withBook, ← h.exceeds]
      rcases matchQueue_leaveLevel hb.coherent hidx hg with hqueue | hq
      · rw [hqueue]
      · have hnn : 0 ≤ PriceLevel.sumQuantity (e.book.queueFrom side o.price idx) :=
          PriceLevel.sumQuantity_nonneg fun n hn => hb.coherent.positive_of_mem_queueFrom hn
        have hnn' : 0 ≤ PriceLevel.sumQuantity
            ((e.book.leaveLevel side.opp idx).matchQueue side o.price) :=
          PriceLevel.sumQuantity_nonneg fun n hn =>
            (hb.leaveLevel hidx).coherent.positive_of_mem_matchQueue hn
        rw [max_eq_right (by omega), max_eq_right (by omega)]

/-- **What is left** of an order the strategy leaves alone. -/
theorem Undisturbed.exists_matchOrder (cfg : SpreadStrategyConfig F) (h : Undisturbed o e)
    (hb : Sound e.book) :
    ∃ q e', Converges (fun fuel => matchOrder (fillCallback (strategy cfg) 1) fuel (o, e))
        (.ok (o.withQuantity q, e')) ∧
      e'.book.config = e.book.config ∧
      (0 < q ↔ PriceLevel.sumQuantity (e.book.matchQueue o.side o.price) < o.quantity) := by
  have hstart : Exceeding o.side
      (max (o.quantity - PriceLevel.sumQuantity (e.book.matchQueue o.side o.price)) 0)
      (e.book.matchQueue o.side o.price) o e :=
    ⟨fun t ht => h.apart fun hzero => ht (h.watching.eq_zero hzero t), rfl⟩
  obtain ⟨q, e', hconv, hb', hc, ⟨-, hleft⟩, hstop⟩ :=
    (sparingRule_exceeding cfg).matchOrder rfl hb rfl ⟨h.watching, hstart⟩
  refine ⟨q, e', hconv, hc, ?_⟩
  have hexceeds : max (q - PriceLevel.sumQuantity (e'.book.matchQueue o.side o.price)) 0 =
      max (o.quantity - PriceLevel.sumQuantity (e.book.matchQueue o.side o.price)) 0 :=
    hleft.exceeds
  rcases lt_or_ge 0 q with hq | hq
  · have hnil : e'.book.matchQueue o.side o.price = [] :=
      matchQueue_of_not_guard (o := o.withQuantity q) hstop hq
    rw [hnil, PriceLevel.sumQuantity_nil] at hexceeds
    omega
  · have hnn : 0 ≤ PriceLevel.sumQuantity (e'.book.matchQueue o.side o.price) :=
      PriceLevel.sumQuantity_nonneg fun n hn => hb'.coherent.positive_of_mem_matchQueue hn
    omega

end SpreadStrategy

namespace TradingEngine

/-- Every limit order that passes the gate has a price in the range, or is used up. -/
def Conditions.inRange {F : Type} (c : OrderBookConfig) : Conditions (SpreadState F) where
  submit _ o e := e.Passes o → o.type = .limit → 0 < o.quantity →
    c.InRange o.price ∨ SpreadStrategy.UsedUp o e

end TradingEngine

namespace SpreadStrategy

open TradingEngine

variable {F : Type} [DoubleOps F] {cfg : SpreadStrategyConfig F} {c : OrderBookConfig}
  {e : TradingEngine (SpreadState F)} {o : Order} {own : Bool} {fuel : ℕ}

omit [DoubleOps F] in
theorem Undisturbed.admitted (own : Bool) (h : Undisturbed o e) :
    Undisturbed o (e.admitted own o) := by
  refine ⟨?_, ?_⟩
  · rw [strategy_admitted]
    exact h.watching
  · rw [strategy_admitted, book_admitted]
    exact h.apart

/-- An order that is not positive is not matched, so nothing of it is left. -/
theorem pos_of_matchOrder {ε : Type} {cb : FillCallback ε} {w : World ε} {st : Order × World ε}
    (h : matchOrder cb fuel (o, w) = .ok st) (hq : 0 < st.1.quantity) : 0 < o.quantity := by
  refine matchOrder_induction (I := fun t => 0 < t.1.quantity → 0 < o.quantity) rfl
    (fun ht hpos _ _ => ht hpos) (fun ht => ht) id h hq

theorem ensures_submitOrder (h : Ranged c e.book)
    (hok : (Conditions.inRange c).submit own o e) :
    Ensures OutOfRange (fun e' => Ranged c e'.book)
      (e.submitOrder (fillCallback (strategy cfg) fuel) fuel own o) := by
  rw [submitOrder_of_noSubmit (noSubmit_onFill cfg)]
  by_cases hp : e.Passes o
  swap
  · rw [submitOrder_of_not_passes hp]
    exact ensures_ok (by rwa [book_rejected])
  rw [submitOrder_of_passes hp]
  have hadm : Ranged c (e.admitted own o).book := by rwa [book_admitted]
  refine hadm.addOrder (onlyCancels_fillCallback (noSubmit_onFill cfg) 1)
    fun q w' hm hq htype => ?_
  rcases hok hp htype (pos_of_matchOrder hm hq) with hprice | hused
  · exact hprice
  · obtain ⟨q', e', hconv, -, hleft⟩ :=
      (hused.undisturbed.admitted own).exists_matchOrder cfg hadm.sound
    cases hconv.eq_of_ok hm
    rw [book_admitted] at hleft
    exact absurd (hleft.mp hq) (not_lt.mpr hused.covered)

/-- **The invariant of a run** in which no order comes to rest beyond the levels. -/
theorem ensures_ranged_run {ops : List (EngineOp (SpreadState F))} (h : Ranged c e.book)
    (hops : Meets (strategy cfg) (Conditions.inRange c) ops e) :
    Ensures OutOfRange (fun e' => Ranged c e'.book) (run (strategy cfg) ops fuel e) :=
  ensures_run (C := Conditions.inRange c) (I := fun e => Ranged c e.book)
    (fun hq h => by rwa [hq.book]) (fun h hok => ensures_submitOrder h hok)
    (fun h _ => ensures_cancelOrder h _)
    (fun h _ hp => ensures_interp (I := fun e => Ranged c e.book) (fun _ h => h)
      (fun h hok => ensures_submitOrder h hok) (fun id h => ensures_cancelOrder h id) h hp)
    h hops

/-- An order beyond the levels that is more than the orders in reach. -/
theorem converges_outOfRange (h : Ranged c e.book) (hp : e.Passes o) (htype : o.type = .limit)
    (hund : Undisturbed o e) (hprice : ¬ c.InRange o.price)
    (hexceeds : PriceLevel.sumQuantity (e.book.matchQueue o.side o.price) < o.quantity) :
    Converges (fun fuel => e.submitOrder (fillCallback (strategy cfg) fuel) fuel own o)
      (.error (.fault .outOfRange)) := by
  have hadm : Ranged c (e.admitted own o).book := by rwa [book_admitted]
  obtain ⟨q, e', hconv, hc, hleft⟩ :=
    (hund.admitted own).exists_matchOrder cfg hadm.sound
  rw [book_admitted] at hc hleft
  simp only [submitOrder_of_noSubmit (noSubmit_onFill cfg), submitOrder_of_passes hp]
  exact converges_addOrder_outOfRange hconv (hc.trans h.config_eq) htype (hleft.mpr hexceeds)
    hprice

/-- **Access to the levels.** Let the difference of the two ends of the price range be an
`int64_t`, and take any run in which every limit order that passes the gate, be it a quote or an
order from outside, has a price in the range of the levels or is used up by the orders in reach. No
index that `add_order`, `match` or `cancel_order` use is out of range. And the next order that
passes and does not get into the way of the quotes is put into a level that does not exist just when
its price is out of the range and the orders in reach do not use it up. -/
theorem run_ne_outOfRange_of_inRange (cfg : SpreadStrategyConfig F) (minPrice maxPrice tickSize : ℤ)
    (hle : minPrice ≤ maxPrice) (htick : 0 < tickSize)
    (hspan : maxPrice - minPrice < 9223372036854775808) (riskConfig : RiskConfig) (clock : ℕ → ℤ)
    (ops : List (EngineOp (SpreadState F)))
    (hops : Meets (strategy cfg)
      (Conditions.inRange ⟨minPrice, maxPrice, tickSize, hle, htick, hspan⟩) ops
      (new ⟨minPrice, maxPrice, tickSize, hle, htick, hspan⟩ riskConfig initial clock))
    (fuel : ℕ) :
    run (strategy cfg) ops fuel
        (new ⟨minPrice, maxPrice, tickSize, hle, htick, hspan⟩ riskConfig initial clock) ≠
        .error (.fault .outOfRange) ∧
      ∀ e o, run (strategy cfg) ops fuel
          (new ⟨minPrice, maxPrice, tickSize, hle, htick, hspan⟩ riskConfig initial clock) =
          .ok e →
        e.Passes o → o.type = .limit → 0 < o.quantity → Undisturbed o e →
        (Converges (fun n => EngineOp.run (strategy cfg) (.submitOrder o) n e)
            (.error (.fault .outOfRange)) ↔
          ¬ OrderBookConfig.InRange ⟨minPrice, maxPrice, tickSize, hle, htick, hspan⟩ o.price ∧
            PriceLevel.sumQuantity (e.book.matchQueue o.side o.price) < o.quantity) := by
  have hrun := @ensures_ranged_run _ _ cfg _ _ fuel ops (ranged_new _) hops
  refine ⟨fun h => hrun.fault h rfl, fun e o he hp htype hq hund => ⟨fun hconv => ?_, fun h => ?_⟩⟩
  · by_contra hnot
    obtain ⟨N, hN⟩ := hconv.2
    rw [not_and_or, not_not, not_lt] at hnot
    have hin : (Conditions.inRange ⟨minPrice, maxPrice, tickSize, hle, htick, hspan⟩).submit
        false o e := fun _ _ _ => hnot.imp_right fun hle => ⟨hund, hle⟩
    exact (ensures_submitOrder (hrun.ok he) hin).fault (hN N le_rfl) rfl
  · exact converges_outOfRange (hrun.ok he) hp htype hund h.1 h.2

/-- The ask uses the order up. -/
theorem usedUp_takeAsk {e e' : TradingEngine (SpreadState ℚ)} {fuel' : ℕ}
    (he : EngineOp.run (strategy .defaults) (.pushTick quoteTick) fuel spreadEngine = .ok e)
    (he' : EngineOp.run (strategy .defaults) .runOnce fuel' e = .ok e') :
    UsedUp ⟨7, 1, 25, 4, .buy, .limit⟩ e' := by
  obtain ⟨hbid, hask, hrests, hcovered⟩ := of_exists_run_quoteTick
    (P := fun e => quoteId e.env.strategy .buy = 1 ∧ quoteId e.env.strategy .sell = 2 ∧
      ¬ e.book.RestsOn .sell 1 ∧ 4 ≤ PriceLevel.sumQuantity (e.book.matchQueue .buy 25))
    (by decide +kernel) he he'
  refine ⟨⟨⟨fun s _ => ?_, fun s _ => ?_⟩, fun _ => ?_⟩, hcovered⟩
  · cases s with
    | buy => rw [hbid]; decide
    | sell => rw [hask]; decide
  · cases s with
    | buy => exact ⟨by rw [Side.opp, hask]; decide, by rw [Side.opp, hask, hbid]; decide⟩
    | sell => exact ⟨by rw [Side.opp, hbid]; decide, by rw [Side.opp, hask, hbid]; decide⟩
  · show ¬ e'.book.RestsOn .sell (quoteId e'.env.strategy .buy)
    rw [hbid]
    exact hrests

/-- Both quotes are in the range. An order to buy four lots at twenty-five is used up by the ask. -/
theorem run_ne_outOfRange_of_inRange_takeAsk :
    run (strategy .defaults) [.pushTick quoteTick, .runOnce,
        .submitOrder ⟨7, 1, 25, 4, .buy, .limit⟩] 4 spreadEngine ≠
        .error (.fault .outOfRange) ∧
      ∀ e o, run (strategy .defaults) [.pushTick quoteTick, .runOnce,
          .submitOrder ⟨7, 1, 25, 4, .buy, .limit⟩] 4 spreadEngine = .ok e →
        e.Passes o → o.type = .limit → 0 < o.quantity → Undisturbed o e →
        (Converges (fun n => EngineOp.run (strategy .defaults) (.submitOrder o) n e)
            (.error (.fault .outOfRange)) ↔
          ¬ OrderBookConfig.InRange ⟨1, 20, 1, by decide, Int.one_pos, by decide⟩ o.price ∧
            PriceLevel.sumQuantity (e.book.matchQueue o.side o.price) < o.quantity) := by
  obtain ⟨e₀, he₀, -⟩ : ∃ e, (advance quotingEngine).submitOrder
      (fillCallback (strategy .defaults) 3) 3 true
      (nextQuote .defaults 8 .buy (advance quotingEngine)) = .ok e ∧ True := by
    decide +kernel
  have hquotes : Meets (strategy .defaults)
      (Conditions.inRange ⟨1, 20, 1, by decide, Int.one_pos, by decide⟩)
      [.pushTick quoteTick, .runOnce] spreadEngine :=
    meets_quoteTick_of (fun _ _ _ => Or.inl (by decide)) ⟨e₀, he₀, fun _ _ _ => Or.inl <| by
      show OrderBookConfig.InRange _ 12
      decide⟩
  have hops : Meets (strategy .defaults)
      (Conditions.inRange ⟨1, 20, 1, by decide, Int.one_pos, by decide⟩)
      [.pushTick quoteTick, .runOnce, .submitOrder ⟨7, 1, 25, 4, .buy, .limit⟩] spreadEngine := by
    refine ⟨trivial, fun fuel e he => ⟨(hquotes.2 fuel e he).1, fun fuel' e' he' =>
      ⟨fun _ _ _ => Or.inr (usedUp_takeAsk he he'), fun _ _ _ => trivial⟩⟩⟩
  exact run_ne_outOfRange_of_inRange .defaults 1 20 1 (by decide) Int.one_pos (by decide) _ _ _
    hops 4

/-- **A tick above the range.** The strategy bids at twenty-eight; the last level is at twenty. -/
theorem run_eq_outOfRange :
    run (strategy .defaults) [.pushTick ⟨1, 29, 31, 5, 5, 30, 1, 0, 0⟩, .runOnce] 3 spreadEngine =
      .error (.fault .outOfRange) := by
  have hrun : (run (strategy .defaults) [.pushTick ⟨1, 29, 31, 5, 5, 30, 1, 0, 0⟩, .runOnce] 3
      spreadEngine).map (fun _ => ()) = .error (.fault .outOfRange) := by decide +kernel
  cases h : run (strategy .defaults) [.pushTick ⟨1, 29, 31, 5, 5, 30, 1, 0, 0⟩, .runOnce] 3
      spreadEngine with
  | ok e => rw [h] at hrun; cases hrun
  | error err => rw [h] at hrun; exact congrArg _ (Except.error.inj hrun)

end SpreadStrategy

end MiniTrader
