import MiniTrader.Engine.Quotes
import MiniTrader.OrderBook.Reentrancy

/-!
# The book under the spread strategy

`on_fill` cancels the other quote in the middle of `match`. The order it cancels is never the one
that is being filled: a report to the incoming order is about an id that is not recorded, and a
report to a resting order that is one of the quotes leads to a cancel of the other one, which has
another id. So the callback spares the order being filled, and `add_order` keeps the book coherent.

The invariant is `Quoted`. It has to survive the middle of `on_tick`, where the first of the two new
orders is live, may already have been filled, and its id is not yet recorded. There no quote is
recorded, and none is after the reports of that order either.

## Main definitions

* `Quoted` — the invariant
* `Conditions.quoting` — the promises of the callers

## Main results

* `Quoted.submit`, `Quoted.onTick`, `Quoted.cancelRestingQuotes`
* `bestPrices_of_quoting` — every run returns and keeps the book coherent
-/

namespace MiniTrader

open Fuelled

namespace TradingEngine

/-- Limit orders are on the price grid, no id is used twice or is zero, and the only method of the
strategy that is called from outside is `cancel_resting_quotes`. -/
def Conditions.quoting {F : Type} (c : OrderBookConfig) : Conditions (SpreadState F) where
  submit _ o e := FreshOnGrid c o e ∧ (o.type ≠ .cancel → o.orderId ≠ 0)
  invoke p := p = SpreadStrategy.cancelRestingQuotes

end TradingEngine

namespace SpreadStrategy

open TradingEngine OrderBook

variable {F : Type} [DoubleOps F] {cfg : SpreadStrategyConfig F} {c : OrderBookConfig}
  {e e' : TradingEngine (SpreadState F)} {o : Order} {own : Bool}

/-- A book that callers reach, and recorded quotes that come in pairs and have been submitted. -/
structure Quoted (c : OrderBookConfig) (e : TradingEngine (SpreadState F)) : Prop where
  reaches : Reaches c (usedIds e.env.journal) e.book
  paired : Paired e.env.strategy
  used : ∀ s, quoteId e.env.strategy s ≠ 0 → quoteId e.env.strategy s ∈ usedIds e.env.journal

omit [DoubleOps F] in
theorem Quoted.congr (h : Quoted c e) (hbook : e'.book = e.book)
    (hjournal : e'.env.journal = e.env.journal) (hids : ∀ s, quoteId e'.env.strategy s =
      quoteId e.env.strategy s) : Quoted c e' := by
  constructor
  · rw [hjournal, hbook]; exact h.reaches
  · exact h.paired.congr hids
  · simp only [hids, hjournal]; exact h.used

omit [DoubleOps F] in
theorem Quoted.of_noQuotes (h : Reaches c (usedIds e.env.journal) e.book)
    (hids : ∀ s, quoteId e.env.strategy s = 0) : Quoted c e :=
  ⟨h, fun s hs => absurd (hids s) hs, fun s hs => absurd (hids s) hs⟩

/-- The quotes are those of an earlier state, or have been forgotten. -/
def Forgets (st st' : SpreadState F) : Prop := SameIds st' st ∨ NoQuotes st' st

omit [DoubleOps F] in
theorem Forgets.trans {st st' st'' : SpreadState F} (h : Forgets st st') (h' : Forgets st' st'') :
    Forgets st st'' := by
  rcases h' with h' | h'
  · rcases h with h | h
    · exact Or.inl ⟨fun s => (h'.quotes s).trans (h.quotes s), h'.nextId.trans h.nextId⟩
    · exact Or.inr ⟨fun s => (h'.quotes s).trans (h.quotes s), h'.nextId.trans h.nextId⟩
  · refine Or.inr ⟨h'.quotes, h'.nextId.trans ?_⟩
    rcases h with h | h
    · exact h.nextId
    · exact h.nextId

omit [DoubleOps F] in
theorem Filled.forgets {n : Node} (h : Filled n e e') :
    Forgets e.env.strategy e'.env.strategy := by
  cases h with
  | other _ _ hids => exact Or.inl hids
  | quote _ _ _ _ hids => exact Or.inr hids

omit [DoubleOps F] in
theorem Forgets.noQuotes {st st' : SpreadState F} (h : Forgets st st')
    (hst : ∀ s, quoteId st s = 0) : NoQuotes st' st := by
  rcases h with h | h
  · exact ⟨fun s => (h.quotes s).trans (hst s), h.nextId⟩
  · exact h

/-- Matching with this strategy attached records no new quotes. -/
theorem sparingRule_forgets (cfg : SpreadStrategyConfig F) (st : SpreadState F) {side : Side} :
    SparingRule c (fillCallback (strategy cfg) 1) side
      (fun o e => Watching o.orderId e.env.strategy ∧ Forgets st e.env.strategy)
      (fun _ o e => Watching o.orderId e.env.strategy ∧ Forgets st e.env.strategy) :=
  sparingRule_filled (fun _ _ h _ => h)
    (fun _ _ h _ _ hfill _ _ => Forgets.trans h hfill.forgets) fun _ _ h _ => h

/-- What a submission does to the book and to the recorded quotes. -/
theorem Quoted.exists_submitOrder (cfg : SpreadStrategyConfig F) (own : Bool) (h : Quoted c e)
    (hok : FreshOnGrid c o e) :
    ∃ e', Converges (fun fuel => e.submitOrder (fillCallback (strategy cfg) fuel) fuel own o)
        (.ok e') ∧
      Reaches c (usedIds (e.env.journal ++ [.submitted own o])) e'.book ∧
      Forgets e.env.strategy e'.env.strategy := by
  have hreaches : Reaches c (usedIds (e.env.journal ++ [.submitted own o])) e.book :=
    h.reaches.mono (usedIds_subset_append _ _)
  simp only [submitOrder_of_noSubmit (noSubmit_onFill cfg)]
  by_cases hp : e.Passes o
  swap
  · exact ⟨e.rejected own o, by simp only [submitOrder_of_not_passes hp]; exact converges_const _,
      hreaches, Or.inl (SameIds.refl _)⟩
  simp only [submitOrder_of_passes hp]
  have hforgets : Forgets e.env.strategy (e.admitted own o).env.strategy := by
    rw [strategy_admitted]
    exact Or.inl (SameIds.refl _)
  by_cases htype : o.type = .cancel
  · obtain ⟨r, b, hc⟩ := h.reaches.sound.coherent.cancelOrder_ok o.orderId
    have hc' : (e.admitted own o).book.cancelOrder o.orderId = .ok (r, b) := by rwa [book_admitted]
    exact ⟨(e.admitted own o).withBook b,
      by simp only [addOrder_cancel htype hc']; exact converges_const _,
      hreaches.cancelOrder hc, hforgets⟩
  have hid := hok.2 htype
  have hwatch : Watching o.orderId (e.admitted own o).env.strategy := by
    rw [strategy_admitted]
    exact ⟨fun s hs he => hid (he ▸ h.used s hs), h.paired⟩
  obtain ⟨q, w, hconv, -, hr, ⟨-, hf⟩, -⟩ :=
    (sparingRule_forgets cfg e.env.strategy).addOrder_reaches
      (by rw [book_admitted]; exact h.reaches) htype (fun hl => ⟨hok.1 hl, hid⟩) ⟨hwatch, hforgets⟩
  exact ⟨_, hconv, hr.mono (usedIds_add_subset _ _ htype), by rw [env_afterMatch]; exact hf⟩

/-- **A submission** returns and keeps the invariant, whatever the reports of its fills make the
strategy cancel. -/
theorem Quoted.submit (cfg : SpreadStrategyConfig F) (own : Bool) (h : Quoted c e)
    (hok : FreshOnGrid c o e) :
    ∃ e', Converges (fun fuel => e.submitOrder (fillCallback (strategy cfg) fuel) fuel own o)
        (.ok e') ∧
      Quoted c e' ∧ Forgets e.env.strategy e'.env.strategy ∧
      usedIds e'.env.journal = usedIds (e.env.journal ++ [.submitted own o]) := by
  obtain ⟨e', hconv, hr, hf⟩ := h.exists_submitOrder cfg own hok
  obtain ⟨N, hN⟩ := hconv.2
  have hids := (ids_submitOrder (noSubmit_onFill cfg) (hN N le_rfl)).1
  rw [← hids] at hr
  refine ⟨e', hconv, ?_, hf, hids⟩
  rcases hf with hf | hf
  · refine ⟨hr, h.paired.congr hf.quotes, fun s hs => ?_⟩
    rw [hf.quotes] at hs
    rw [hf.quotes, hids, usedIds_append]
    exact List.mem_append_left _ (h.used s hs)
  · exact .of_noQuotes hr hf.quotes

/-- What is true of the state after a submission can be found out by running it. -/
theorem Quoted.of_exists_submitOrder (h : Quoted c e) (hok : FreshOnGrid c o e)
    {P : TradingEngine (SpreadState F) → Prop} {n : ℕ}
    (hP : ∃ e', e.submitOrder (fillCallback (strategy cfg) n) n own o = .ok e' ∧ P e') {fuel : ℕ}
    (he' : e.submitOrder (fillCallback (strategy cfg) fuel) fuel own o = .ok e') : P e' := by
  obtain ⟨e₁, hconv, -⟩ := h.submit cfg own hok
  exact hconv.of_exists hP he'

/-! ### The programs of the strategy -/

omit [DoubleOps F] in
theorem Quoted.cancelOrder {id : ℕ} (h : Quoted c e) :
    ∃ e', TradingEngine.cancelOrder id e = .ok e' ∧ Quoted c e' := by
  obtain ⟨r, b, hc⟩ := h.reaches.sound.coherent.cancelOrder_ok id
  exact ⟨_, cancelOrder_ok hc, h.reaches.cancelOrder hc, h.paired, h.used⟩

theorem Quoted.cancelRestingQuotes (h : Quoted c e) : ∃ r, Converges
    (fun fuel => interp (fillCallback (strategy cfg) fuel) fuel cancelRestingQuotes e) (.ok r) ∧
      Quoted c r.2 := by
  obtain ⟨e', b, hinterp, hp, hp', hids, hj⟩ :=
    exists_interp_cancelRestingQuotes h.reaches.sound.coherent
  refine ⟨((), e'), by simp only [hinterp]; exact converges_const _, .of_noQuotes ?_ hids.quotes⟩
  rw [hj]
  exact hp'.induction Reaches.cancelOrder (hp.induction Reaches.cancelOrder h.reaches)

/-- **Quoting**: while the second order is submitted, and until both ids are recorded, the strategy
knows of no quote. -/
theorem Quoted.quote {buyPx sellPx : ℤ} (h : Quoted c e) (hzero : ∀ s, quoteId e.env.strategy s = 0)
    (hok : Along (strategy cfg) ((Conditions.quoting c).submit true) (quote cfg buyPx sellPx) e) :
    ∃ r, Converges
      (fun fuel => interp (fillCallback (strategy cfg) fuel) fuel (quote cfg buyPx sellPx) e)
        (.ok r) ∧ Quoted c r.2 := by
  obtain ⟨hbid, hask⟩ := along_quote.mp hok
  have hadv : ∀ {e : TradingEngine (SpreadState F)}, Quoted c e → Quoted c (advance e) :=
    fun h => h.congr rfl rfl fun s => by cases s <;> rfl
  obtain ⟨e₁, hconv₁, h₁, hf₁, hids₁⟩ := (hadv h).submit cfg true hbid.1
  obtain ⟨N, hN⟩ := hconv₁.2
  have hask := hask N e₁ (hN N le_rfl)
  have hzero₁ : NoQuotes e₁.env.strategy (advance e).env.strategy := hf₁.noQuotes <|
    quoteId_eq_zero (hzero .buy) (hzero .sell)
  obtain ⟨e₂, hconv₂, h₂, hf₂, hids₂⟩ := (hadv h₁).submit cfg true hask.1
  refine ⟨((), recordQuotes (advance e).env.strategy.nextId (advance e₁).env.strategy.nextId e₂),
    ?_, ?_⟩
  · simp only [interp_quote]
    exact hconv₁.bind (hconv₂.bind (converges_const _))
  · have hlimit : OrderType.limit ≠ .cancel := by decide
    have hbid₁ : (advance e).env.strategy.nextId ∈ usedIds e₁.env.journal := by
      rw [hids₁, usedIds_append]
      exact List.mem_append_right _ List.mem_cons_self
    have hbid₂ : (advance e).env.strategy.nextId ∈ usedIds e₂.env.journal := by
      rw [hids₂, usedIds_append]
      exact List.mem_append_left _ hbid₁
    have hask₂ : (advance e₁).env.strategy.nextId ∈ usedIds e₂.env.journal := by
      rw [hids₂, usedIds_append]
      exact List.mem_append_right _ List.mem_cons_self
    have hne : (advance e₁).env.strategy.nextId ≠ (advance e).env.strategy.nextId := fun he => by
      have hfresh : (advance e₁).env.strategy.nextId ∉ usedIds e₁.env.journal := hask.1.2 hlimit
      exact hfresh (he ▸ hbid₁)
    refine ⟨h₂.reaches, fun s _ => ?_, fun s _ => ?_⟩
    · cases s with
      | buy => exact ⟨hask.2 hlimit, hne⟩
      | sell => exact ⟨hbid.2 hlimit, hne.symm⟩
    · cases s with
      | buy => exact hbid₂
      | sell => exact hask₂

/-- **`on_tick`**. -/
theorem Quoted.onTick {tick : MarketTick} (h : Quoted c e)
    (hok : Along (strategy cfg) ((Conditions.quoting c).submit true) (onTick cfg tick) e) :
    ∃ r, Converges (fun fuel => interp (fillCallback (strategy cfg) fuel) fuel (onTick cfg tick) e)
        (.ok r) ∧ Quoted c r.2 := by
  obtain ⟨st, hids, hrun | ⟨hzero, buyPx, sellPx, hrun, halong⟩⟩ := interp_onTick cfg tick e
  · refine ⟨((), e.setStrategy st), by simp only [hrun]; exact converges_const _, ?_⟩
    exact h.congr rfl rfl hids.quotes
  · simp only [hrun]
    have h' : Quoted c (e.setStrategy st) := h.congr rfl rfl hids.quotes
    exact h'.quote hzero (halong _ _ hok)

/-! ### Runs -/

theorem exists_run_quoted {riskConfig : RiskConfig} {clock : ℕ → ℤ}
    {ops : List (EngineOp (SpreadState F))}
    (hops : Meets (strategy cfg) (Conditions.quoting c) ops (new c riskConfig initial clock)) :
    ∃ e, Converges (fun fuel => run (strategy cfg) ops fuel (new c riskConfig initial clock))
        (.ok e) ∧ Quoted c e := by
  have hnew : Quoted c (new c riskConfig (initial (F := F)) clock) :=
    .of_noQuotes (reaches_new c) (quoteId_eq_zero rfl rfl)
  refine converges_run (fun hq h => h.congr hq.book hq.journal fun s => by rw [hq.strategy])
    (fun h hok => ?_) (fun h _ => h.cancelOrder) (fun h hp hok => ?_) hnew hops
  · obtain ⟨e', he', h', -⟩ := h.submit cfg false hok.1
    exact ⟨e', he', h'⟩
  · rcases hp with ⟨tick, rfl⟩ | hp
    · exact h.onTick hok
    · rw [show _ = _ from hp]
      exact h.cancelRestingQuotes

/-- **The book stays coherent.** In every run of ticks, submissions, cancels and calls of
`cancel_resting_quotes`, every call returns; afterwards the id map is in bijection with the resting
orders, the totals are exact, the best prices are the true ones, the book is uncrossed, and the
strategy has recorded either two quotes or none. -/
theorem bestPrices_of_quoting (cfg : SpreadStrategyConfig F) (c : OrderBookConfig)
    (hmin : 0 ≤ c.minPrice) (hlevels : c.numLevels ≤ 2 ^ 31) (riskConfig : RiskConfig)
    (clock : ℕ → ℤ) (ops : List (EngineOp (SpreadState F)))
    (hops : Meets (strategy cfg) (Conditions.quoting c) ops (new c riskConfig initial clock)) :
    ∃ e, Converges (fun fuel => run (strategy cfg) ops fuel (new c riskConfig initial clock))
        (.ok e) ∧
      Indexed e.book ∧ BestPrices e.book ∧
      (e.env.strategy.bidOrderId = 0 ↔ e.env.strategy.askOrderId = 0) := by
  obtain ⟨e, he, h⟩ := exists_run_quoted hops
  refine ⟨e, he, h.reaches.sound.coherent.toIndexed h.reaches.located h.reaches.aligned,
    (h.reaches.tidy ⟨hmin, by omega⟩).bestPrices h.reaches.sound.coherent, ?_, ?_⟩
  · intro hbid
    by_contra hask
    exact (h.paired .sell hask).1 hbid
  · intro hask
    by_contra hbid
    exact (h.paired .buy hbid).1 hask

/-- A new engine with the strategy, twenty price levels and no check for self-trades. -/
def spreadEngine : TradingEngine (SpreadState ℚ) :=
  new ⟨1, 20, 1, by decide, Int.one_pos, by decide⟩ { checkSelfTrade := false } initial fun _ => 0

/-- A tick on which the strategy bids at eight and asks at twelve. -/
def quoteTick : MarketTick := ⟨1, 9, 11, 5, 5, 10, 1, 0, 0⟩

/-- The state in which the strategy begins to quote on that tick. -/
def quotingEngine : TradingEngine (SpreadState ℚ) :=
  (((spreadEngine.pushTick quoteTick).2.setTickQueue []).beforeOnTick quoteTick).setStrategy
    (updateEma .defaults (DoubleOps.ofInt 2) initial)

/-- Promises about the tick are promises about two orders. -/
theorem meets_quoteTick_of {C : Conditions (SpreadState ℚ)}
    (hbid : C.submit true (nextQuote .defaults 8 .buy (advance quotingEngine))
      (advance quotingEngine))
    (hask : ∃ e, (advance quotingEngine).submitOrder (fillCallback (strategy .defaults) 3) 3 true
      (nextQuote .defaults 8 .buy (advance quotingEngine)) = .ok e ∧
        C.submit true (nextQuote .defaults 12 .sell (advance e)) (advance e)) :
    Meets (strategy .defaults) C [.pushTick quoteTick, .runOnce] spreadEngine := by
  refine ⟨trivial, fun _ e he => ⟨?_, fun _ _ _ => trivial⟩⟩
  cases he
  suffices halong : Along (strategy .defaults) (C.submit true) (onTick .defaults quoteTick)
      (((spreadEngine.pushTick quoteTick).2.setTickQueue []).beforeOnTick quoteTick) from
    ⟨halong, fun _ _ _ => trivial⟩
  have hpx : ((8, 12) : ℤ × ℤ) = quotePrices .defaults
      (updateEma .defaults (DoubleOps.ofInt 2) initial) quoteTick 0 := by decide +kernel
  refine along_onTick rfl hpx (along_quote.mpr ⟨hbid, fun fuel e₁ he₁ => ?_⟩)
  have hquoted : Quoted ⟨1, 20, 1, by decide, by decide, by decide⟩ (advance quotingEngine) :=
    .of_noQuotes (reaches_new _) (quoteId_eq_zero rfl rfl)
  have hfresh : FreshOnGrid ⟨1, 20, 1, by decide, by decide, by decide⟩
      (nextQuote .defaults 8 .buy (advance quotingEngine)) (advance quotingEngine) :=
    ⟨fun _ => ⟨7, by decide, by decide⟩, fun _ => List.not_mem_nil⟩
  exact hquoted.of_exists_submitOrder
    (P := fun e => C.submit true (nextQuote .defaults 12 .sell (advance e)) (advance e)) hfresh hask
    he₁

theorem meets_quoteTick : Meets (strategy .defaults)
    (Conditions.quoting ⟨1, 20, 1, by decide, by decide, by decide⟩) [.pushTick quoteTick, .runOnce]
    spreadEngine := by
  refine meets_quoteTick_of
    ⟨⟨fun _ => ⟨7, by decide, by decide⟩, fun _ => List.not_mem_nil⟩, fun _ => by decide⟩ ?_
  obtain ⟨e, he, hids, hnext⟩ : ∃ e, (advance quotingEngine).submitOrder
      (fillCallback (strategy .defaults) 3) 3 true
      (nextQuote .defaults 8 .buy (advance quotingEngine)) = .ok e ∧
      usedIds e.env.journal = [1] ∧ (advance e).env.strategy.nextId = 2 := by decide +kernel
  refine ⟨e, he, ⟨fun _ => ⟨11, rfl, show (12 : ℤ) ≤ 20 by decide⟩, fun _ => ?_⟩, fun _ => ?_⟩
  · show (advance e).env.strategy.nextId ∉ usedIds e.env.journal
    rw [hids, hnext]
    decide
  · show (advance e).env.strategy.nextId ≠ 0
    rw [hnext]
    decide

/-- What is true of the state after the tick can be found out by running it. -/
theorem of_exists_run_quoteTick {P : TradingEngine (SpreadState ℚ) → Prop}
    (hP : ∃ e, run (strategy .defaults) [.pushTick quoteTick, .runOnce] 4 spreadEngine = .ok e ∧
      P e)
    {fuel fuel' : ℕ} {e e' : TradingEngine (SpreadState ℚ)}
    (he : EngineOp.run (strategy .defaults) (.pushTick quoteTick) fuel spreadEngine = .ok e)
    (he' : EngineOp.run (strategy .defaults) .runOnce fuel' e = .ok e') : P e' := by
  obtain ⟨e₁, h₁, -⟩ := exists_run_quoted meets_quoteTick
  cases he
  replace he' : EngineOp.run (strategy .defaults) .runOnce fuel'
    (spreadEngine.pushTick quoteTick).2 = .ok e' := he'
  have hrun : run (strategy .defaults) [.pushTick quoteTick, .runOnce] fuel' spreadEngine =
      .ok e' := by
    rw [run, runList, EngineOp.run, ok_bind, runList, he']
    rfl
  exact h₁.of_exists hP hrun

/-- Somebody sells to the bid: it is filled in part, and the ask is pulled. -/
theorem bestPrices_of_quoting_hitBid : ∃ e, Converges
      (fun fuel => run (strategy .defaults) [.pushTick quoteTick, .runOnce,
        .submitOrder ⟨7, 1, 8, 4, .sell, .limit⟩] fuel spreadEngine) (.ok e) ∧
      Indexed e.book ∧ BestPrices e.book ∧
      (e.env.strategy.bidOrderId = 0 ↔ e.env.strategy.askOrderId = 0) := by
  refine bestPrices_of_quoting .defaults _ (by decide) (by decide) _ _ _
    ⟨trivial, fun fuel e he => ⟨(meets_quoteTick.2 fuel e he).1, fun fuel' e' he' =>
      ⟨⟨⟨?_, ?_⟩, ?_⟩, fun _ _ _ => trivial⟩⟩⟩
  · exact fun _ => ⟨7, by decide, by decide⟩
  · exact fun _ => of_exists_run_quoteTick (P := fun e => 7 ∉ usedIds e.env.journal)
      (by decide +kernel) he he'
  · exact fun _ => by decide

end SpreadStrategy

end MiniTrader
