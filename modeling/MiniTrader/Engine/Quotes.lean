import MiniTrader.Engine.Rules
import MiniTrader.Strategy.SpreadStrategy

/-!
# The spread strategy on the engine

What the programs of `SpreadStrategy` do when the engine runs them. Each of them is read once, here,
and later files use only the lemmas.

`on_fill` submits nothing, so calls of it are never nested and the callback of the book is the same
for all fuels. All it can do to the book is to cancel the *other* quote, the one the report is not
about (`Hears`). `on_tick` either changes nothing but the moving average or runs `quote`, and then
no quote is recorded (`interp_onTick`). While `quote` runs the two new orders are already live and
their ids are not yet recorded.

## Main definitions

* `quoteId`, `advance` — the recorded ids, and the counter they are taken from
* `Hears`, `Filled` — the effect of one report, and of the two reports of a fill
* `Paired`, `Watching` — what makes the callback harmless while an order is matched

## Main results

* `exists_hears` — `on_fill` on a coherent book
* `sparingRule_filled` — the rule for matching with this strategy attached
* `interp_onTick`, `interp_quote`, `exists_interp_cancelRestingQuotes`
-/

namespace MiniTrader

open Fuelled

namespace SpreadStrategy

open TradingEngine OrderBook

variable {F : Type}

/-- The recorded quote of a side, or `0`. -/
def quoteId (st : SpreadState F) : Side → ℕ
  | .buy => st.bidOrderId
  | .sell => st.askOrderId

/-- The quote with the id is cancelled, if there is one. -/
def Pulled (b : OrderBook) (id : ℕ) (b' : OrderBook) : Prop :=
  (id = 0 ∧ b' = b) ∨ (id ≠ 0 ∧ ∃ ok, b.cancelOrder id = .ok (ok, b'))

/-- The two states record the same ids. -/
structure SameIds (st st' : SpreadState F) : Prop where
  quotes : ∀ s, quoteId st s = quoteId st' s
  nextId : st.nextId = st'.nextId

/-- The first state records no quotes, and the counters agree. -/
structure NoQuotes (st st' : SpreadState F) : Prop where
  quotes : ∀ s, quoteId st s = 0
  nextId : st.nextId = st'.nextId

/-- What a report changes in the book and in the recorded ids. -/
inductive Hears (r : ExecutionReport) (e e' : TradingEngine (SpreadState F)) : Prop
  /-- The report is about neither quote. -/
  | ignored (hr : ∀ s, r.orderId ≠ quoteId e.env.strategy s) (book : e'.book = e.book)
      (ids : SameIds e'.env.strategy e.env.strategy)
  /-- It is about the quote of side `s`: the other one, if there is one, is pulled, and both ids
  are forgotten. -/
  | noted (s : Side) (hr : r.orderId = quoteId e.env.strategy s)
      (book : Pulled e.book (quoteId e.env.strategy s.opp) e'.book)
      (ids : NoQuotes e'.env.strategy e.env.strategy)

theorem SameIds.refl (st : SpreadState F) : SameIds st st := ⟨fun _ => rfl, rfl⟩

theorem quoteId_eq_zero {st : SpreadState F} (hbid : st.bidOrderId = 0)
    (hask : st.askOrderId = 0) (s : Side) : quoteId st s = 0 := by
  cases s <;> assumption

section

variable {e e' : TradingEngine (SpreadState F)} {cb : FillCallback (EngineEnv (SpreadState F))}
  {fuel : ℕ}

theorem cancelOrder_setStrategy {id : ℕ} {ok : Bool} {b : OrderBook}
    (h : e.book.cancelOrder id = .ok (ok, b)) (st : SpreadState F) :
    (e.setStrategy st).cancelOrder id = .ok (((e.setStrategy st).untracked id).withBook b) :=
  cancelOrder_ok h

/-- The program of `on_fill`, on a coherent book. -/
theorem exists_interp_onFill (hb : Coherent e.book) (r : ExecutionReport) :
    ∃ e', interp cb fuel (onFill r) e = .ok ((), e') ∧ Hears r e e' := by
  simp only [onFill, interp_bind, interp_modify, interp_state, interp_ite, strategy_setStrategy,
    interp_cancelOrder, interp_pure, ok_bind]
  by_cases hbid : r.orderId = e.env.strategy.bidOrderId
  · by_cases hask : e.env.strategy.askOrderId = 0
    · simp only [hbid, hask, ne_eq, not_true_eq_false, ↓reduceIte]
      exact ⟨_, rfl, .noted .buy hbid (Or.inl ⟨hask, rfl⟩) ⟨quoteId_eq_zero rfl rfl, rfl⟩⟩
    · obtain ⟨ok, b, hc⟩ := hb.cancelOrder_ok e.env.strategy.askOrderId
      simp only [hbid, hask, ne_eq, not_false_eq_true, ↓reduceIte, cancelOrder_setStrategy hc,
        ok_bind]
      exact ⟨_, rfl, .noted .buy hbid (Or.inr ⟨hask, ok, hc⟩) ⟨quoteId_eq_zero rfl rfl, rfl⟩⟩
  by_cases hask : r.orderId = e.env.strategy.askOrderId
  · by_cases hbid0 : e.env.strategy.bidOrderId = 0
    · simp only [eq_false hbid, eq_true hask, eq_true hbid0, ne_eq, not_true_eq_false, ↓reduceIte]
      exact ⟨_, rfl, .noted .sell hask (Or.inl ⟨hbid0, rfl⟩) ⟨quoteId_eq_zero hbid0 rfl, rfl⟩⟩
    · obtain ⟨ok, b, hc⟩ := hb.cancelOrder_ok e.env.strategy.bidOrderId
      simp only [eq_false hbid, eq_true hask, hbid0, ne_eq, not_false_eq_true, ↓reduceIte,
        cancelOrder_setStrategy hc, ok_bind]
      exact ⟨_, rfl, .noted .sell hask (Or.inr ⟨hbid0, ok, hc⟩) ⟨quoteId_eq_zero rfl rfl, rfl⟩⟩
  · simp only [hbid, hask, ↓reduceIte]
    exact ⟨_, rfl, .ignored (fun s => by cases s <;> assumption) rfl
      ⟨fun s => by cases s <;> rfl, rfl⟩⟩

/-! ### A fill -/

/-- Where one quote is recorded, the other one is too, under another id. -/
def Paired (st : SpreadState F) : Prop :=
  ∀ s, quoteId st s ≠ 0 → quoteId st s.opp ≠ 0 ∧ quoteId st s.opp ≠ quoteId st s

/-- What makes the callback harmless while an order with the id is matched: the order is not one of
the recorded quotes, and these come in pairs. -/
structure Watching (id : ℕ) (st : SpreadState F) : Prop where
  apart : ∀ s, quoteId st s ≠ 0 → quoteId st s ≠ id
  paired : Paired st

/-- What the reports of a fill against `n` change. -/
inductive Filled (n : Node) (e e' : TradingEngine (SpreadState F)) : Prop
  /-- `n` is no quote. -/
  | other (hn : ∀ s, quoteId e.env.strategy s ≠ 0 → quoteId e.env.strategy s ≠ n.order.orderId)
      (book : e'.book = e.book) (ids : SameIds e'.env.strategy e.env.strategy)
  /-- `n` is the quote of side `s`. -/
  | quote (s : Side) (hn : n.order.orderId = quoteId e.env.strategy s)
      (hs : quoteId e.env.strategy s ≠ 0)
      (book : ∃ ok, e.book.cancelOrder (quoteId e.env.strategy s.opp) = .ok (ok, e'.book))
      (ids : NoQuotes e'.env.strategy e.env.strategy)

section

variable {id : ℕ} {st st' : SpreadState F}

theorem Paired.congr (h : Paired st) (hids : ∀ s, quoteId st' s = quoteId st s) : Paired st' := by
  intro s
  rw [hids, hids]
  exact h s

theorem Watching.of_sameIds (h : Watching id st) (hids : SameIds st' st) : Watching id st' := by
  refine ⟨fun s => ?_, h.paired.congr hids.quotes⟩
  rw [hids.quotes]
  exact h.apart s

theorem Watching.eq_zero {s : Side} (h : Watching id st) (hs : quoteId st s = 0) (t : Side) :
    quoteId st t = 0 := by
  rcases Side.eq_or_eq_opp t s with rfl | rfl
  · exact hs
  · by_contra ht
    exact (h.paired t ht).1 hs

theorem watching_of_noQuotes (h : ∀ s, quoteId st s = 0) : Watching id st :=
  ⟨fun s hs => absurd (h s) hs, fun s hs => absurd (h s) hs⟩

/-- The report to the incoming order changes nothing. -/
theorem Hears.of_watching {r : ExecutionReport} (h : Hears r e e')
    (hw : Watching r.orderId e.env.strategy) :
    e'.book = e.book ∧ SameIds e'.env.strategy e.env.strategy := by
  cases h with
  | ignored _ hb hids => exact ⟨hb, hids⟩
  | noted s hr hb hids =>
    have hzero : ∀ t, quoteId e.env.strategy t = 0 := hw.eq_zero (s := s) <| by
      by_contra hs
      exact hw.apart s hs hr.symm
    refine ⟨?_, fun t => by rw [hids.quotes, hzero], hids.nextId⟩
    rcases hb with ⟨-, hb⟩ | ⟨hne, -⟩
    · exact hb
    · exact absurd (hzero s.opp) hne

/-- The report to the resting order. -/
theorem Hears.filled {r : ExecutionReport} {n : Node} (h : Hears r e e')
    (hr : r.orderId = n.order.orderId) (hw : Watching id e.env.strategy) : Filled n e e' := by
  cases h with
  | ignored hne hb hids => exact .other (fun s _ hs => hne s (hr.trans hs.symm)) hb hids
  | noted s hs hb hids =>
    by_cases hs0 : quoteId e.env.strategy s = 0
    · have hzero := hw.eq_zero hs0
      rcases hb with ⟨-, hb⟩ | ⟨hne, -⟩
      · exact .other (fun t ht => absurd (hzero t) ht) hb
          ⟨fun t => by rw [hids.quotes, hzero], hids.nextId⟩
      · exact absurd (hzero s.opp) hne
    · rcases hb with ⟨hopp, -⟩ | ⟨-, hc⟩
      · exact absurd hopp (hw.paired s hs0).1
      · exact .quote s (hr.symm.trans hs) hs0 hc hids

theorem Filled.watching {n : Node} (h : Filled n e e') (hw : Watching id e.env.strategy) :
    Watching id e'.env.strategy := by
  cases h with
  | other _ _ hids => exact hw.of_sameIds hids
  | quote _ _ _ _ hids => exact watching_of_noQuotes hids.quotes

/-- The order that is being filled is not the one that is pulled. -/
theorem Filled.cancelsOthers {n : Node} (h : Filled n e e') (hw : Watching id e.env.strategy) :
    CancelsOthers n.order.orderId e.book e'.book := by
  cases h with
  | other _ hb _ => rw [hb]; exact CancelsOthers.refl _ _
  | quote s hn hs hb _ =>
    obtain ⟨ok, hc⟩ := hb
    exact .of_cancelOrder (by rw [hn]; exact (hw.paired s hs).2) hc

end

/-! ### Quoting -/

/-- The state after `next_order_id`: the counter holds the id. -/
def advance (e : TradingEngine (SpreadState F)) : TradingEngine (SpreadState F) :=
  e.setStrategy { e.env.strategy with
    nextId := (e.env.strategy.nextId + 1) % 18446744073709551616 }

/-- The quote of a side at a price, under the id the counter holds. -/
def nextQuote (cfg : SpreadStrategyConfig F) (px : ℤ) (s : Side)
    (e : TradingEngine (SpreadState F)) : Order :=
  quoteOrder cfg e.env.strategy.nextId px s

/-- The state after both ids have been recorded. -/
def recordQuotes (bidId askId : ℕ) (e : TradingEngine (SpreadState F)) :
    TradingEngine (SpreadState F) :=
  e.setStrategy { e.env.strategy with bidOrderId := bidId, askOrderId := askId }

theorem interp_nextOrderId :
    interp cb fuel nextOrderId e = .ok ((advance e).env.strategy.nextId, advance e) := by
  rw [nextOrderId, interp_bind, interp_state, ok_bind, interp_bind, interp_modify, ok_bind,
    interp_pure]
  rfl

/-- **`quote`**: both orders, and then both ids. -/
theorem interp_quote (cfg : SpreadStrategyConfig F) (buyPx sellPx : ℤ) :
    interp cb fuel (quote cfg buyPx sellPx) e =
      ((advance e).submitOrder cb fuel true (nextQuote cfg buyPx .buy (advance e)) >>= fun e₁ =>
        (advance e₁).submitOrder cb fuel true (nextQuote cfg sellPx .sell (advance e₁)) >>=
          fun e₂ => .ok ((), recordQuotes (advance e).env.strategy.nextId
            (advance e₁).env.strategy.nextId e₂)) := by
  rw [quote, interp_bind, interp_nextOrderId, ok_bind, interp_bind, interp_submitOrder, nextQuote]
  cases (advance e).submitOrder cb fuel true
      (quoteOrder cfg (advance e).env.strategy.nextId buyPx .buy) with
  | error err => rw [error_bind, error_bind, error_bind]
  | ok e₁ =>
    rw [ok_bind, ok_bind, ok_bind, interp_bind, interp_nextOrderId, ok_bind, interp_bind,
      interp_submitOrder, nextQuote]
    cases (advance e₁).submitOrder cb fuel true
        (quoteOrder cfg (advance e₁).env.strategy.nextId sellPx .sell) with
    | error err => rw [error_bind, error_bind, error_bind]
    | ok e₂ => rw [ok_bind, ok_bind, ok_bind, interp_modify]; rfl

theorem of_interp_quote_eq_ok {cfg : SpreadStrategyConfig F} {buyPx sellPx : ℤ}
    {r : Unit × TradingEngine (SpreadState F)}
    (h : interp cb fuel (quote cfg buyPx sellPx) e = .ok r) : ∃ e₁ e₂,
      (advance e).submitOrder cb fuel true (nextQuote cfg buyPx .buy (advance e)) = .ok e₁ ∧
      (advance e₁).submitOrder cb fuel true (nextQuote cfg sellPx .sell (advance e₁)) = .ok e₂ ∧
      r.2 = recordQuotes (advance e).env.strategy.nextId (advance e₁).env.strategy.nextId e₂ := by
  rw [interp_quote] at h
  obtain ⟨e₁, h₁, h⟩ := exists_of_bind_eq_ok h
  obtain ⟨e₂, h₂, h⟩ := exists_of_bind_eq_ok h
  cases h
  exact ⟨e₁, e₂, h₁, h₂, rfl⟩

/-- What is promised of `quote` is promised of its two orders. -/
theorem along_quote {S : Strategy (SpreadState F)} {cfg : SpreadStrategyConfig F}
    {buyPx sellPx : ℤ} {ok : Order → TradingEngine (SpreadState F) → Prop} :
    Along S ok (quote cfg buyPx sellPx) e ↔
      ok (nextQuote cfg buyPx .buy (advance e)) (advance e) ∧ ∀ fuel e₁,
        (advance e).submitOrder (fillCallback S fuel) fuel true
          (nextQuote cfg buyPx .buy (advance e)) = .ok e₁ →
        ok (nextQuote cfg sellPx .sell (advance e₁)) (advance e₁) :=
  ⟨fun h => ⟨h.1, fun fuel e₁ he₁ => (h.2 fuel e₁ he₁).1⟩,
    fun h => ⟨h.1, fun fuel e₁ he₁ => ⟨h.2 fuel e₁ he₁, fun _ _ _ => trivial⟩⟩⟩

/-! ### Cancelling both -/

/-- Half of `cancel_resting_quotes`, with whatever comes after it. -/
theorem exists_interp_pull {α : Type} (hb : Coherent e.book) (id : ℕ)
    (g : SpreadState F → SpreadState F) (k : Unit → StrategyM (SpreadState F) α) :
    ∃ e', (∀ cb fuel, interp cb fuel
        (if id ≠ 0 then .cancelOrder id >>= fun _ => .modify g >>= k else k ()) e =
          interp cb fuel (k ()) e') ∧
      Pulled e.book id e'.book ∧ e'.env.journal = e.env.journal ∧
      e'.env.strategy = if id = 0 then e.env.strategy else g e.env.strategy := by
  by_cases hid : id = 0
  · rw [if_neg (not_not.mpr hid), if_pos hid]
    exact ⟨e, fun _ _ => rfl, Or.inl ⟨hid, rfl⟩, rfl, rfl⟩
  · obtain ⟨ok, b, hc⟩ := hb.cancelOrder_ok id
    refine ⟨setStrategy (g e.env.strategy) ((e.untracked id).withBook b), fun cb fuel => ?_,
      Or.inr ⟨hid, ok, hc⟩, rfl, by rw [if_neg hid]; rfl⟩
    rw [if_pos hid, interp_bind, interp_cancelOrder, cancelOrder_ok hc, ok_bind, ok_bind,
      interp_bind, interp_modify, ok_bind]
    rfl

/-- What a cancel keeps is kept. -/
theorem Pulled.induction {P : OrderBook → Prop} {b b' : OrderBook} {id : ℕ} (h : Pulled b id b')
    (hcancel : ∀ {b b' ok}, P b → b.cancelOrder id = .ok (ok, b') → P b') (hb : P b) : P b' := by
  rcases h with ⟨-, rfl⟩ | ⟨-, ok, hc⟩
  · exact hb
  · exact hcancel hb hc

/-- **`cancel_resting_quotes`** on a coherent book. -/
theorem exists_interp_cancelRestingQuotes (hb : Coherent e.book) :
    ∃ e' b, (∀ cb fuel, interp cb fuel cancelRestingQuotes e = .ok ((), e')) ∧
      Pulled e.book (quoteId e.env.strategy .buy) b ∧
      Pulled b (quoteId e.env.strategy .sell) e'.book ∧
      NoQuotes e'.env.strategy e.env.strategy ∧ e'.env.journal = e.env.journal := by
  obtain ⟨e₁, h₁, hp₁, hj₁, hst₁⟩ := exists_interp_pull hb
    e.env.strategy.bidOrderId (fun s => { s with bidOrderId := 0 }) fun _ => do
      let s ← .state
      if s.askOrderId ≠ 0 then do
        .cancelOrder s.askOrderId
        .modify fun s => { s with askOrderId := 0 }
  obtain ⟨e₂, h₂, hp₂, hj₂, hst₂⟩ := exists_interp_pull
    (hp₁.induction Coherent.cancelOrder hb) e₁.env.strategy.askOrderId
    (fun s => { s with askOrderId := 0 }) pure
  have hask : e₁.env.strategy.askOrderId = quoteId e.env.strategy .sell := by
    rw [hst₁]; split <;> rfl
  refine ⟨e₂, e₁.book, fun cb fuel => ?_, hp₁, hask ▸ hp₂, ?_, hj₂.trans hj₁⟩
  · rw [cancelRestingQuotes, interp_bind, interp_state, ok_bind]
    exact (h₁ cb fuel).trans (h₂ cb fuel)
  · have hbid : e₁.env.strategy.bidOrderId = 0 := by
      rw [hst₁]
      split
      · assumption
      · rfl
    have hnext : e₁.env.strategy.nextId = e.env.strategy.nextId := by rw [hst₁]; split <;> rfl
    rw [hst₂]
    split
    · exact ⟨quoteId_eq_zero hbid ‹_›, hnext⟩
    · exact ⟨quoteId_eq_zero hbid rfl, hnext⟩

/-! ### The callback of the book -/

variable [DoubleOps F]

theorem noSubmit_onFill (cfg : SpreadStrategyConfig F) (r : ExecutionReport) :
    ((strategy cfg).onFill r).NoSubmit := by
  intro s s'
  show StrategyM.NoSubmit (ite _ _ _)
  split
  · show StrategyM.NoSubmit (ite _ _ _)
    split
    · exact fun _ _ => trivial
    · exact fun _ => trivial
  · split
    · show StrategyM.NoSubmit (ite _ _ _)
      split
      · exact fun _ _ => trivial
      · exact fun _ => trivial
    · trivial

/-- **What the book's callback does** on a coherent book. -/
theorem exists_hears (cfg : SpreadStrategyConfig F) (hb : Coherent e.book) (r : ExecutionReport) :
    ∃ e', fillCallback (strategy cfg) 1 r e = .ok e' ∧ Hears r e e' := by
  have hbook := book_beforeOnFill (e := e) r
  have hst := strategy_beforeOnFill (e := e) r
  obtain ⟨e', he', hears⟩ := @exists_interp_onFill F (beforeOnFill r e)
    (fillCallback (strategy cfg) 0) 0 (by rw [hbook]; exact hb) r
  refine ⟨e', ?_, ?_⟩
  · show interp _ _ (onFill r) (beforeOnFill r e) >>= _ = _
    rw [he']
    rfl
  · cases hears with
    | ignored hr hb' hids =>
      rw [hst] at hr hids
      exact .ignored hr (hb'.trans hbook) hids
    | noted s hr hb' hids =>
      rw [hst] at hr hb' hids
      rw [hbook] at hb'
      exact .noted s hr hb' hids

/-- **The rule for matching** with this strategy attached: what is left to show about a fill is
that it re-establishes the assertion, whatever the strategy made of it. -/
theorem sparingRule_filled {cfg : SpreadStrategyConfig F} {c : OrderBookConfig} {side : Side}
    {G : Order → TradingEngine (SpreadState F) → Prop}
    {H : ℕ → Order → TradingEngine (SpreadState F) → Prop}
    (henter : ∀ {o e}, Sound e.book → e.book.config = c → G o e → MatchGuard side (o, e) →
      H (e.book.config.priceToIndex (e.book.best side.opp)) o e)
    (hfill : ∀ {idx o n rest rest' e e'}, Sound e.book → e.book.config = c → H idx o e →
      (e.book.levels side.opp idx).orders = n :: rest → 0 < o.quantity → Filled n e e' →
      Sound e'.book → (e'.book.levels side.opp idx).orders = n :: rest' →
      H idx (Order.afterFill o n) (e'.withBook (e'.book.settleFront side.opp idx n.order
        (min o.quantity n.order.quantity))))
    (hleave : ∀ {idx o e}, Sound e.book → e.book.config = c → H idx o e →
      ¬ LevelGuard side idx (o, e) → G o (e.withBook (e.book.leaveLevel side.opp idx))) :
    SparingRule c (fillCallback (strategy cfg) 1) side
      (fun o e => Watching o.orderId e.env.strategy ∧ G o e)
      (fun idx o e => Watching o.orderId e.env.strategy ∧ H idx o e) where
  enter hb hc h hg := ⟨h.1, henter hb hc h.2 hg⟩
  leave hb hc h hg := ⟨h.1, hleave hb hc h.2 hg⟩
  fill := by
    rintro idx o e n rest hb hc ⟨hw, hH⟩ hfront hq
    obtain ⟨e₁, h₁, hears₁⟩ := exists_hears cfg hb.coherent
      (takerReport side o n (e.book.best side.opp))
    obtain ⟨hb₁, hids₁⟩ := hears₁.of_watching hw
    obtain ⟨e₂, h₂, hears₂⟩ := exists_hears cfg (hb₁ ▸ hb.coherent)
      (makerReport side o n (e₁.book.best side.opp))
    have hw₁ := hw.of_sameIds hids₁
    have hfill₁ : Filled n e₁ e₂ := hears₂.filled rfl hw₁
    have hs := hfill₁.cancelsOthers hw₁
    have hfilled : Filled n e e₂ := by
      cases hfill₁ with
      | other hn hb₂ hids₂ =>
        refine .other (fun s => ?_) (hb₂.trans hb₁)
          ⟨fun s => (hids₂.quotes s).trans (hids₁.quotes s), hids₂.nextId.trans hids₁.nextId⟩
        rw [← hids₁.quotes]
        exact hn s
      | quote s hn hs hb₂ hids₂ =>
        rw [hids₁.quotes] at hn hs hb₂
        rw [hb₁] at hb₂
        exact .quote s hn hs hb₂ ⟨hids₂.quotes, hids₂.nextId.trans hids₁.nextId⟩
    rw [hb₁] at hs
    obtain ⟨rest', hfront', -⟩ := hs.front hb.coherent hfront
    refine ⟨e₁, e₂, h₁, by rw [hb₁]; exact CancelsOthers.refl _ _, h₂, by rw [hb₁]; exact hs,
      hfilled.watching hw, ?_⟩
    exact hfill hb hc hH hfront hq hfilled (hs.sound hb) hfront'

/-! ### `on_tick` -/

theorem sameIds_updateEma (cfg : SpreadStrategyConfig F) (x : F) (st : SpreadState F) :
    SameIds (updateEma cfg x st) st := by
  unfold updateEma
  split <;> exact ⟨fun s => by cases s <;> rfl, rfl⟩

/-- **`on_tick`** changes the moving average and then, when no quote is recorded, may run
`quote`. -/
theorem exists_interp_onTick {P : SpreadState F → Prop} (cfg : SpreadStrategyConfig F)
    (tick : MarketTick) (e : TradingEngine (SpreadState F)) (hst : P e.env.strategy)
    (hema : ∀ x, P (updateEma cfg x e.env.strategy)) : ∃ st, P st ∧
    ((∀ cb fuel, interp cb fuel (onTick cfg tick) e = .ok ((), e.setStrategy st)) ∨
      ((∀ s, quoteId st s = 0) ∧ ∃ buyPx sellPx,
        (∀ cb fuel, interp cb fuel (onTick cfg tick) e =
          interp cb fuel (quote cfg buyPx sellPx) (e.setStrategy st)) ∧
        ∀ S ok, Along S ok (onTick cfg tick) e →
          Along S ok (quote cfg buyPx sellPx) (e.setStrategy st))) := by
  by_cases hinst : tick.instrumentId ≠ cfg.instrumentId
  · refine ⟨_, hst, Or.inl fun cb fuel => ?_⟩
    rw [onTick, if_pos hinst, interp_pure, setStrategy_self]
  by_cases hprices : tick.bidPrice ≤ 0 ∨ tick.askPrice ≤ 0
  · refine ⟨_, hst, Or.inl fun cb fuel => ?_⟩
    rw [onTick, if_neg hinst, if_pos hprices, interp_pure, setStrategy_self]
  have hP := hema (DoubleOps.ofInt (wrap64 (tick.askPrice - tick.bidPrice)))
  set st := updateEma cfg (DoubleOps.ofInt (wrap64 (tick.askPrice - tick.bidPrice))) e.env.strategy
  by_cases hlive : st.bidOrderId ≠ 0 ∨ st.askOrderId ≠ 0
  · refine ⟨st, hP, Or.inl fun cb fuel => ?_⟩
    rw [onTick, if_neg hinst, if_neg hprices, interp_bind, interp_modify, ok_bind, interp_bind,
      interp_state, ok_bind, strategy_setStrategy, if_pos hlive, interp_pure]
  set pos := (e.setStrategy st).position cfg.instrumentId with hpos
  by_cases hmax : cfg.maxPosition ≤ wrap32 pos.natAbs
  · refine ⟨st, hP, Or.inl fun cb fuel => ?_⟩
    rw [onTick, if_neg hinst, if_neg hprices, interp_bind, interp_modify, ok_bind, interp_bind,
      interp_state, ok_bind, strategy_setStrategy, if_neg hlive, interp_bind, interp_getPosition,
      ok_bind, if_pos hmax, interp_pure]
  set px := quotePrices cfg st tick pos with hpx
  by_cases hpx0 : px.1 ≤ 0 ∨ px.2 ≤ px.1
  · refine ⟨st, hP, Or.inl fun cb fuel => ?_⟩
    rw [onTick, if_neg hinst, if_neg hprices, interp_bind, interp_modify, ok_bind, interp_bind,
      interp_state, ok_bind, strategy_setStrategy, if_neg hlive, interp_bind, interp_getPosition,
      ok_bind, if_neg hmax]
    dsimp only
    rw [if_pos hpx0, interp_pure]
  refine ⟨st, hP, Or.inr ⟨?_, px.1, px.2, fun cb fuel => ?_, fun S ok h => ?_⟩⟩
  · rw [not_or, not_not, not_not] at hlive
    exact quoteId_eq_zero hlive.1 hlive.2
  · rw [onTick, if_neg hinst, if_neg hprices, interp_bind, interp_modify, ok_bind, interp_bind,
      interp_state, ok_bind, strategy_setStrategy, if_neg hlive, interp_bind, interp_getPosition,
      ok_bind, if_neg hmax]
    dsimp only
    rw [if_neg hpx0]
  · rw [onTick, if_neg hinst, if_neg hprices] at h
    rw [along_modify_bind, along_state_bind, strategy_setStrategy, if_neg hlive,
      along_getPosition_bind, if_neg hmax] at h
    dsimp only at h
    rwa [if_neg hpx0] at h

/-- **`on_tick`** records the ids it has, or runs `quote` when it has none. -/
theorem interp_onTick (cfg : SpreadStrategyConfig F) (tick : MarketTick)
    (e : TradingEngine (SpreadState F)) : ∃ st, SameIds st e.env.strategy ∧
    ((∀ cb fuel, interp cb fuel (onTick cfg tick) e = .ok ((), e.setStrategy st)) ∨
      ((∀ s, quoteId st s = 0) ∧ ∃ buyPx sellPx,
        (∀ cb fuel, interp cb fuel (onTick cfg tick) e =
          interp cb fuel (quote cfg buyPx sellPx) (e.setStrategy st)) ∧
        ∀ S ok, Along S ok (onTick cfg tick) e →
          Along S ok (quote cfg buyPx sellPx) (e.setStrategy st))) :=
  exists_interp_onTick cfg tick e (SameIds.refl _) fun x => sameIds_updateEma cfg x _

/-- What is promised of the quotes is promised of `on_tick`. -/
theorem along_onTick {S : Strategy (SpreadState F)} {cfg : SpreadStrategyConfig F}
    {tick : MarketTick} {ok : Order → TradingEngine (SpreadState F) → Prop}
    {st : SpreadState F} {px : ℤ × ℤ}
    (hst : st = updateEma cfg (DoubleOps.ofInt (wrap64 (tick.askPrice - tick.bidPrice)))
      e.env.strategy)
    (hpx : px = quotePrices cfg st tick (e.position cfg.instrumentId))
    (h : Along S ok (quote cfg px.1 px.2) (e.setStrategy st)) :
    Along S ok (onTick cfg tick) e := by
  subst hst hpx
  rw [onTick]
  split
  · exact along_pure
  split
  · exact along_pure
  rw [along_modify_bind, along_state_bind, strategy_setStrategy]
  split
  · exact along_pure
  rw [along_getPosition_bind]
  split
  · exact along_pure
  dsimp only
  split
  · exact along_pure
  · exact h

end

end SpreadStrategy

end MiniTrader
