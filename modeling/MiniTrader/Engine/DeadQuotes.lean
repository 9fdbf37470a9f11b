import MiniTrader.Engine.QuotedBook
import MiniTrader.OrderBook.Queue

/-!
# Quotes that do not rest

`on_tick` records both ids after both orders have been submitted, whatever became of them, and later
takes an id that is not `0` for a quote that rests. It does rest unless the risk gate rejects the
order, the order is used up by what it meets in the book, or the second of the two orders uses up
the first. Nobody tells the strategy: a rejection is not reported, and the reports of the fills come
before the ids are recorded. From then on the strategy waits for a fill that cannot come.

Under the conditions that exclude these cases a recorded quote stays in the book until the strategy
forgets it. What happens afterwards needs no conditions: a quote leaves the book by a fill, and then
both ids are forgotten, or by a cancel. All this is about ids and queues. Prices need not be on the
grid, and ids of other orders may be used twice.

## Main definitions

* `OrderBook.RestsOn` — an order with the id rests on the side
* `Joins` — the order enters the book and something of it is left to rest
* `Conditions.joining` — both quotes join, and nobody else cancels them

## Main results

* `Waiting.submit` — an order from outside
* `Joins.submit` — a new quote
* `restsOn_of_joining` — a recorded quote rests
-/

namespace MiniTrader

open Fuelled

namespace OrderBook

variable {b b' : OrderBook} {s t : Side} {i : ℕ} {n : Node} {id : ℕ}

/-- An order with the id rests on the side. -/
def RestsOn (b : OrderBook) (s : Side) (id : ℕ) : Prop :=
  ∃ i < b.config.numLevels, ∃ n ∈ (b.levels s i).orders, n.order.orderId = id

instance (b : OrderBook) (s : Side) (id : ℕ) : Decidable (b.RestsOn s id) :=
  inferInstanceAs (Decidable (∃ i < b.config.numLevels, _))

theorem Coherent.restsOn_of_mem (hb : Coherent b) (hn : n ∈ (b.levels s i).orders) :
    b.RestsOn s n.order.orderId :=
  ⟨i, hb.inRange hn, n, hn, rfl⟩

theorem RestsOn.congr (h : b.RestsOn s id) (hc : b'.config = b.config)
    (hl : b'.levels s = b.levels s) : b'.RestsOn s id := by
  obtain ⟨i, hi, n, hn, hid⟩ := h
  exact ⟨i, hc ▸ hi, n, by rw [hl]; exact hn, hid⟩

/-- A fill of another order. -/
theorem RestsOn.settleFront {rest : List Node} {q : ℤ} (h : b.RestsOn t id) (hb : Coherent b)
    (hfront : (b.levels s i).orders = n :: rest) (hne : n.order.orderId ≠ id) :
    (b.settleFront s i n.order q).RestsOn t id := by
  obtain ⟨j, hj, m, hm, rfl⟩ := h
  have hmn : m ≠ n := fun he => hne (he ▸ rfl)
  refine ⟨j, by rwa [config_settleFront], m, ?_, rfl⟩
  rcases hb.settleFront_cases (q := q) hfront with ⟨-, h⟩ | ⟨-, h⟩
  · rw [h]
    exact (hb.mem_unlink (by rw [hfront]; exact List.mem_cons_self)).mpr ⟨hm, hmn⟩
  · rw [h]
    exact (hb.mem_reduceFront hfront).mpr (Or.inl ⟨hm, hmn⟩)

/-- A cancel of another order. -/
theorem RestsOn.cancelOrder {id' : ℕ} {r : Bool} (h : b.RestsOn t id) (hb : Coherent b)
    (hne : id ≠ id') (hc : b.cancelOrder id' = .ok (r, b')) : b'.RestsOn t id := by
  rcases hb.exists_cancelOrder id' with ⟨-, hc'⟩ | ⟨s, i, n, hn, rfl, hc'⟩
  · rw [hc'] at hc; cases hc; exact h
  · rw [hc'] at hc
    cases hc
    obtain ⟨j, hj, m, hm, rfl⟩ := h
    refine ⟨j, by rwa [config_refreshBest, config_unlink], m, ?_, rfl⟩
    rw [levels_refreshBest]
    exact (hb.mem_unlink hn).mpr ⟨hm, fun he => hne (he ▸ rfl)⟩

theorem RestsOn.join {o : Order} (h : b.RestsOn t id) : (b.join o).RestsOn t id := by
  obtain ⟨j, hj, m, hm, rfl⟩ := h
  exact ⟨j, by rwa [config_join], m, by rw [levels_join]; exact mem_link.mpr (Or.inl hm), rfl⟩

theorem Coherent.restsOn_join {o : Order} (hb : Coherent (b.join o)) :
    (b.join o).RestsOn o.side o.orderId :=
  hb.restsOn_of_mem (n := ⟨b.nextNode, o⟩)
    (by rw [levels_join]; exact mem_link.mpr (Or.inr ⟨rfl, rfl, rfl⟩))

theorem RestsOn.afterMatch {ε : Type} {o : Order} {w : World ε} (h : w.book.RestsOn t id) :
    (OrderBook.afterMatch o w).book.RestsOn t id := by
  rw [OrderBook.afterMatch]
  split
  · exact h.join
  · exact h

end OrderBook

namespace SpreadStrategy

open TradingEngine OrderBook

variable {F : Type} [DoubleOps F] {cfg : SpreadStrategyConfig F} {c : OrderBookConfig}
  {e e' : TradingEngine (SpreadState F)} {o : Order} {own : Bool} {fuel : ℕ}

/-! ### Orders from outside -/

/-- The recorded quotes rest. -/
structure Waiting (e : TradingEngine (SpreadState F)) : Prop where
  sound : Sound e.book
  paired : Paired e.env.strategy
  rests : ∀ s, quoteId e.env.strategy s ≠ 0 → e.book.RestsOn s (quoteId e.env.strategy s)

omit [DoubleOps F] in
theorem Waiting.congr (h : Waiting e) (hbook : e'.book = e.book)
    (hids : ∀ s, quoteId e'.env.strategy s = quoteId e.env.strategy s) : Waiting e' := by
  constructor
  · rw [hbook]; exact h.sound
  · exact h.paired.congr hids
  · simp only [hids, hbook]; exact h.rests

omit [DoubleOps F] in
theorem Waiting.of_noQuotes (h : Sound e.book) (hids : ∀ s, quoteId e.env.strategy s = 0) :
    Waiting e :=
  ⟨h, fun s hs => absurd (hids s) hs, fun s hs => absurd (hids s) hs⟩

/-- While an order that is no quote is matched, the quotes rest until one of them is filled. -/
theorem sparingRule_rests {side : Side} :
    SparingRule c (fillCallback (strategy cfg) 1) side
      (fun o e => Watching o.orderId e.env.strategy ∧
        ∀ s, quoteId e.env.strategy s ≠ 0 → e.book.RestsOn s (quoteId e.env.strategy s))
      (fun _ o e => Watching o.orderId e.env.strategy ∧
        ∀ s, quoteId e.env.strategy s ≠ 0 → e.book.RestsOn s (quoteId e.env.strategy s)) := by
  refine sparingRule_filled (fun _ _ h _ => h) ?_ fun _ _ h _ s hs =>
    (h s hs).congr config_leaveLevel levels_leaveLevel
  intro idx o n rest rest' e e' hb _ h hfront _ hfill _ _
  cases hfill with
  | other hn hbook hids =>
    intro s hs
    have hs' : quoteId e.env.strategy s ≠ 0 := by rw [← hids.quotes]; exact hs
    show (e'.book.settleFront _ _ _ _).RestsOn s (quoteId e'.env.strategy s)
    rw [hbook, hids.quotes]
    exact (h s hs').settleFront hb.coherent hfront (hn s hs').symm
  | quote _ _ _ _ hids => exact fun s hs => absurd (hids.quotes s) hs

omit [DoubleOps F] in
theorem Waiting.cancelOrder {id : ℕ} {r : Bool} {b : OrderBook} (h : Waiting e)
    (hid : ∀ s, quoteId e.env.strategy s ≠ 0 → quoteId e.env.strategy s ≠ id)
    (hc : e.book.cancelOrder id = .ok (r, b)) : Waiting (e.withBook b) :=
  ⟨h.sound.cancelOrder hc, h.paired,
    fun s hs => (h.rests s hs).cancelOrder h.sound.coherent (hid s hs) hc⟩

/-- **An order from outside** that does not use the id of a quote. -/
theorem Waiting.submit (h : Waiting e)
    (hid : e.Passes o → ∀ s, quoteId e.env.strategy s ≠ 0 → quoteId e.env.strategy s ≠ o.orderId)
    (hret : e.submitOrder (fillCallback (strategy cfg) fuel) fuel own o = .ok e') :
    Waiting e' := by
  rcases of_submitOrder_eq_ok (noSubmit_onFill cfg) hret with
    ⟨-, rfl⟩ | ⟨hp, -, r, b, hc, rfl⟩ | ⟨hp, htype, hadd⟩
  · exact h.congr rfl fun _ => rfl
  · have hadm : Waiting (e.admitted own o) := h.congr (book_admitted own o e) fun s => by
      rw [strategy_admitted]
    rw [← book_admitted own o e] at hc
    exact hadm.cancelOrder (by rw [strategy_admitted]; exact hid hp) hc
  · have hadm : Waiting (e.admitted own o) := h.congr (book_admitted own o e) fun s => by
      rw [strategy_admitted]
    obtain ⟨hb, q, w, rfl, -, ⟨hw, hrests⟩, -⟩ := sparingRule_rests.of_addOrder_eq_ok hadm.sound rfl
      ⟨⟨by rw [strategy_admitted]; exact hid hp, hadm.paired⟩, hadm.rests⟩ htype hadd
    refine ⟨hb, ?_, ?_⟩
    · rw [env_afterMatch]
      exact hw.paired
    · rw [env_afterMatch]
      exact fun s hs => (hrests s hs).afterMatch

/-! ### A new quote -/

/-- The gate passes the order, the orders it meets cannot use it up, and if it is the second of two
quotes it does not meet the first. -/
structure Joins (o : Order) (e : TradingEngine (SpreadState F)) : Prop where
  passes : e.Passes o
  id_ne : o.orderId ≠ 0
  exceeds : PriceLevel.sumQuantity (e.book.matchQueue o.side o.price) < o.quantity
  spares : o.side = .sell → ∀ n ∈ e.book.matchQueue o.side o.price,
    (n.order.orderId + 1) % 18446744073709551616 ≠ o.orderId

instance (o : Order) (e : TradingEngine (SpreadState F)) : Decidable (Joins o e) :=
  decidable_of_iff (e.Passes o ∧ o.orderId ≠ 0 ∧
      PriceLevel.sumQuantity (e.book.matchQueue o.side o.price) < o.quantity ∧
      (o.side = .sell → ∀ n ∈ e.book.matchQueue o.side o.price,
        (n.order.orderId + 1) % 18446744073709551616 ≠ o.orderId))
    ⟨fun ⟨h₁, h₂, h₃, h₄⟩ => ⟨h₁, h₂, h₃, h₄⟩, fun ⟨h₁, h₂, h₃, h₄⟩ => ⟨h₁, h₂, h₃, h₄⟩⟩

/-- While a new quote is matched: it has still to meet the queue `ns`, which cannot use it up, and
of the orders in `keep`, which are not in the queue, there is one that rests. -/
structure Joining (st : SpreadState F) (keep : Side → ℕ → Prop) (ns : List Node) (o : Order)
    (e : TradingEngine (SpreadState F)) : Prop where
  ids : NoQuotes e.env.strategy st
  exceeds : PriceLevel.sumQuantity ns < o.quantity
  keeps : ∀ t id, keep t id → e.book.RestsOn t id ∧ ∀ n ∈ ns, n.order.orderId ≠ id

theorem sparingRule_joining {st : SpreadState F} {keep : Side → ℕ → Prop} {side : Side} :
    SparingRule c (fillCallback (strategy cfg) 1) side
      (fun o e => Watching o.orderId e.env.strategy ∧
        Joining st keep (e.book.matchQueue side o.price) o e)
      (fun idx o e => Watching o.orderId e.env.strategy ∧ idx < c.numLevels ∧
        Joining st keep (e.book.queueFrom side o.price idx) o e) := by
  refine sparingRule_filled ?_ ?_ ?_
  · intro o e hb hc h hg
    rw [matchQueue_of_guard hg] at h
    exact ⟨hc ▸ hb.cached _ hg.2.1, h⟩
  · rintro idx o n rest rest' e e' hb - ⟨hidx, h⟩ hfront hq hfill - -
    cases hfill with
    | quote s _ hs => exact absurd (h.ids.quotes s) hs
    | other hn hbook hids =>
      generalize htail : rest ++ e.book.queueBeyond side o.price idx = tail
      have hqueue : e.book.queueFrom side o.price idx = n :: tail :=
        htail ▸ queueFrom_eq_cons hfront
      have hpos : ∀ m ∈ n :: tail, 0 < m.order.quantity := fun m hm =>
        hb.coherent.positive_of_mem_queueFrom (hqueue ▸ hm)
      rw [hqueue] at h
      have hexceeds := h.exceeds
      rw [PriceLevel.sumQuantity_cons] at hexceeds
      have hnonneg := PriceLevel.sumQuantity_nonneg fun m hm => hpos m (List.mem_cons_of_mem _ hm)
      -- the order is filled completely, and the queue moves up
      have hmin : min o.quantity n.order.quantity = n.order.quantity := min_eq_right (by omega)
      have hqueue' : (e'.book.settleFront side.opp idx n.order n.order.quantity).queueFrom side
          o.price idx = tail := by
        rw [hbook, queueFrom_settleFront hb.coherent hfront, hqueue, queueAfter, if_pos le_rfl]
      rw [hmin]
      refine ⟨?_, ⟨fun s => (hids.quotes s).trans (h.ids.quotes s),
        hids.nextId.trans h.ids.nextId⟩, ?_, fun t id hk => ?_⟩
      · exact hidx
      · show PriceLevel.sumQuantity (queueFrom _ side o.price idx) < o.quantity - min _ _
        rw [World.book_withBook, hqueue', hmin]
        omega
      · obtain ⟨hrests, hne⟩ := h.keeps t id hk
        show RestsOn _ t id ∧ ∀ m ∈ queueFrom _ side o.price idx, _
        rw [World.book_withBook, hqueue', hbook]
        exact ⟨hrests.settleFront hb.coherent hfront (hne n List.mem_cons_self),
          fun m hm => hne m (List.mem_cons_of_mem _ hm)⟩
  · rintro idx o e hb rfl ⟨hidx, h⟩ hg
    have hnonneg : 0 ≤ PriceLevel.sumQuantity (e.book.queueFrom side o.price idx) :=
      PriceLevel.sumQuantity_nonneg fun n hn => hb.coherent.positive_of_mem_queueFrom hn
    have hqueue := (matchQueue_leaveLevel hb.coherent hidx hg).resolve_right
      (not_le.mpr (lt_of_le_of_lt hnonneg h.exceeds))
    refine ⟨h.ids, ?_, fun t id hk => ?_⟩
    · rw [World.book_withBook, hqueue]
      exact h.exceeds
    · rw [World.book_withBook, hqueue]
      exact ⟨(h.keeps t id hk).1.congr config_leaveLevel levels_leaveLevel, (h.keeps t id hk).2⟩

/-- **A new quote** that joins rests afterwards, and so does whatever it did not meet. -/
theorem Joins.submit (h : Joins o e) (hb : Sound e.book)
    (hzero : ∀ s, quoteId e.env.strategy s = 0) (hlimit : o.type = .limit)
    (hret : e.submitOrder (fillCallback (strategy cfg) fuel) fuel own o = .ok e') :
    Sound e'.book ∧ NoQuotes e'.env.strategy e.env.strategy ∧ e'.book.RestsOn o.side o.orderId ∧
      ∀ t id, e.book.RestsOn t id →
        (∀ n ∈ e.book.matchQueue o.side o.price, n.order.orderId ≠ id) → e'.book.RestsOn t id := by
  rcases of_submitOrder_eq_ok (noSubmit_onFill cfg) hret with
    ⟨hp, -⟩ | ⟨-, htype, -⟩ | ⟨-, htype, hadd⟩
  · exact absurd h.passes hp
  · rw [hlimit] at htype
    cases htype
  have hstart : Joining e.env.strategy
      (fun t id => e.book.RestsOn t id ∧
        ∀ n ∈ e.book.matchQueue o.side o.price, n.order.orderId ≠ id)
      ((e.admitted own o).book.matchQueue o.side o.price) o (e.admitted own o) := by
    rw [book_admitted]
    refine ⟨⟨fun s => ?_, ?_⟩, h.exceeds, fun t id hk => ?_⟩
    · rw [strategy_admitted]; exact hzero s
    · rw [strategy_admitted]
    · rw [book_admitted]; exact hk
  obtain ⟨hb', q, w, rfl, hsound, ⟨-, hw⟩, -⟩ := sparingRule_joining.of_addOrder_eq_ok
    (by rw [book_admitted]; exact hb) rfl ⟨watching_of_noQuotes hstart.ids.quotes, hstart⟩ htype
    hadd
  have hpos : 0 < q := lt_of_le_of_lt (PriceLevel.sumQuantity_nonneg fun n hn =>
    hsound.coherent.positive_of_mem_matchQueue hn) hw.exceeds
  have hjoin : afterMatch (o.withQuantity q) w = w.withBook (w.book.join (o.withQuantity q)) := by
    rw [afterMatch, if_pos ⟨hpos, hlimit⟩]
  rw [hjoin] at hb' ⊢
  refine ⟨hb', ⟨hw.ids.quotes, hw.ids.nextId⟩, hb'.coherent.restsOn_join, fun t id hrests hne => ?_⟩
  exact (hw.keeps t id ⟨hrests, hne⟩).1.join

/-! ### The programs of the strategy -/

/-- **Quoting**, when both quotes join. -/
theorem waiting_quote {buyPx sellPx : ℤ} {r : Unit × TradingEngine (SpreadState F)}
    (hb : Sound e.book) (hzero : ∀ s, quoteId e.env.strategy s = 0)
    (hok : Along (strategy cfg) Joins (quote cfg buyPx sellPx) e)
    (hret : interp (fillCallback (strategy cfg) fuel) fuel (quote cfg buyPx sellPx) e = .ok r) :
    Waiting r.2 := by
  obtain ⟨e₁, e₂, h₁, h₂, hr⟩ := of_interp_quote_eq_ok hret
  obtain ⟨hbid, hask⟩ := along_quote.mp hok
  replace hask := hask fuel e₁ h₁
  have hzero' : ∀ s, quoteId (advance e).env.strategy s = 0 :=
    quoteId_eq_zero (hzero .buy) (hzero .sell)
  obtain ⟨hb₁, hids₁, hrests₁, -⟩ := hbid.submit hb hzero' rfl h₁
  have hzero₁ : ∀ s, quoteId (advance e₁).env.strategy s = 0 :=
    quoteId_eq_zero (hids₁.quotes .buy) (hids₁.quotes .sell)
  obtain ⟨hb₂, hids₂, hrests₂, hkeep⟩ := hask.submit hb₁ hzero₁ rfl h₂
  -- the id of the ask is the one after that of the bid
  have hnext : (advance e₁).env.strategy.nextId =
      ((advance e).env.strategy.nextId + 1) % 18446744073709551616 := by
    rw [← hids₁.nextId]
    rfl
  have hne : (advance e₁).env.strategy.nextId ≠ (advance e).env.strategy.nextId := by
    rw [hnext]
    simp only [advance, strategy_setStrategy]
    omega
  rw [hr]
  refine ⟨hb₂, fun s _ => ?_, fun s _ => ?_⟩
  · cases s with
    | buy => exact ⟨hask.id_ne, hne⟩
    | sell => exact ⟨hbid.id_ne, hne.symm⟩
  · cases s with
    | buy =>
      refine hkeep .buy _ hrests₁ fun n hn he => hask.spares rfl n hn ?_
      rw [he]
      exact hnext.symm
    | sell => exact hrests₂

theorem Waiting.cancelRestingQuotes {r : Unit × TradingEngine (SpreadState F)} (h : Waiting e)
    (hret : interp (fillCallback (strategy cfg) fuel) fuel cancelRestingQuotes e = .ok r) :
    Waiting r.2 := by
  obtain ⟨e', b, hrun, hp, hp', hids, -⟩ := exists_interp_cancelRestingQuotes h.sound.coherent
  rw [hrun] at hret
  cases hret
  have hb : Sound b := hp.induction Sound.cancelOrder h.sound
  exact .of_noQuotes (hp'.induction Sound.cancelOrder hb) hids.quotes

theorem Waiting.onTick {tick : MarketTick} {r : Unit × TradingEngine (SpreadState F)}
    (h : Waiting e) (hok : Along (strategy cfg) Joins (onTick cfg tick) e)
    (hret : interp (fillCallback (strategy cfg) fuel) fuel (onTick cfg tick) e = .ok r) :
    Waiting r.2 := by
  obtain ⟨st, hids, hrun | ⟨hzero, buyPx, sellPx, hrun, halong⟩⟩ := interp_onTick cfg tick e
  · rw [hrun] at hret
    cases hret
    exact h.congr rfl hids.quotes
  · rw [hrun] at hret
    exact waiting_quote (e := e.setStrategy st) h.sound hzero (halong _ _ hok) hret

end SpreadStrategy

/-! ### Runs -/

namespace TradingEngine

/-- Both quotes join, the orders from outside have other ids than the recorded quotes, nobody else
cancels these, and the only method of the strategy that is called from outside is
`cancel_resting_quotes`. -/
def Conditions.joining {F : Type} : Conditions (SpreadState F) where
  submit own o e := match own with
    | true => SpreadStrategy.Joins o e
    | false => e.Passes o → ∀ s, SpreadStrategy.quoteId e.env.strategy s ≠ 0 →
        SpreadStrategy.quoteId e.env.strategy s ≠ o.orderId
  cancel id e := ∀ s, SpreadStrategy.quoteId e.env.strategy s ≠ 0 →
    SpreadStrategy.quoteId e.env.strategy s ≠ id
  invoke p := p = SpreadStrategy.cancelRestingQuotes

end TradingEngine

namespace SpreadStrategy

open TradingEngine OrderBook

variable {F : Type} [DoubleOps F]

/-- **A recorded quote rests**, in every run in which both quotes of every pair join the book. -/
theorem restsOn_of_joining (cfg : SpreadStrategyConfig F) (c : OrderBookConfig)
    (riskConfig : RiskConfig) (clock : ℕ → ℤ) (ops : List (EngineOp (SpreadState F)))
    (hops : Meets (strategy cfg) Conditions.joining ops (new c riskConfig initial clock)) (fuel : ℕ)
    (e : TradingEngine (SpreadState F))
    (h : run (strategy cfg) ops fuel (new c riskConfig initial clock) = .ok e) :
    (e.env.strategy.bidOrderId ≠ 0 → e.book.RestsOn .buy e.env.strategy.bidOrderId) ∧
      (e.env.strategy.askOrderId ≠ 0 → e.book.RestsOn .sell e.env.strategy.askOrderId) := by
  have hnew : Waiting (new c riskConfig (initial (F := F)) clock) :=
    .of_noQuotes (sound_new c) (quoteId_eq_zero rfl rfl)
  have hwait : Waiting e := run_induction (C := Conditions.joining) (I := Waiting)
    (fun hq h => h.congr hq.book fun s => by rw [hq.strategy])
    (fun h hok hret => h.submit hok hret)
    (fun h hok hret => by
      obtain ⟨r, b, hc, rfl⟩ := of_cancelOrder_eq_ok hret
      exact (h.cancelOrder hok hc).congr rfl fun _ => rfl)
    (fun h hp hok hret => by
      rcases hp with ⟨tick, rfl⟩ | hp
      · exact h.onTick hok hret
      · rw [show _ = _ from hp] at hret
        exact h.cancelRestingQuotes hret) hnew hops h
  exact ⟨hwait.rests .buy, hwait.rests .sell⟩

theorem meets_joining_quoteTick : Meets (strategy .defaults) Conditions.joining
    [.pushTick quoteTick, .runOnce] spreadEngine := by
  have hjoins : Joins (nextQuote .defaults 8 .buy (advance quotingEngine))
      (advance quotingEngine) ∧ ∃ e, (advance quotingEngine).submitOrder
        (fillCallback (strategy .defaults) 3) 3 true
        (nextQuote .defaults 8 .buy (advance quotingEngine)) = .ok e ∧
        Joins (nextQuote .defaults 12 .sell (advance e)) (advance e) := by decide +kernel
  exact meets_quoteTick_of hjoins.1 hjoins.2

/-- Somebody bids below the quotes. -/
theorem restsOn_of_joining_lowBid : ∃ e,
    run (strategy .defaults) [.pushTick quoteTick, .runOnce,
      .submitOrder ⟨7, 1, 5, 4, .buy, .limit⟩] 4 spreadEngine = .ok e ∧
    (e.env.strategy.bidOrderId ≠ 0 → e.book.RestsOn .buy e.env.strategy.bidOrderId) ∧
      (e.env.strategy.askOrderId ≠ 0 → e.book.RestsOn .sell e.env.strategy.askOrderId) := by
  have hops : Meets (strategy .defaults) Conditions.joining [.pushTick quoteTick, .runOnce,
      .submitOrder ⟨7, 1, 5, 4, .buy, .limit⟩] spreadEngine := by
    refine ⟨trivial, fun fuel e he => ⟨(meets_joining_quoteTick.2 fuel e he).1, fun fuel' e' he' =>
      ⟨fun _ s _ => ?_, fun _ _ _ => trivial⟩⟩⟩
    have hids := of_exists_run_quoteTick
      (P := fun e => e.env.strategy.bidOrderId ≠ 7 ∧ e.env.strategy.askOrderId ≠ 7)
      (by decide +kernel) he he'
    cases s with
    | buy => exact hids.1
    | sell => exact hids.2
  obtain ⟨e, he, -⟩ : ∃ e, run (strategy .defaults) [.pushTick quoteTick, .runOnce,
      .submitOrder ⟨7, 1, 5, 4, .buy, .limit⟩] 4 spreadEngine = .ok e ∧ True := by decide +kernel
  exact ⟨e, he, restsOn_of_joining .defaults _ _ _ _ hops 4 e he⟩

/-- **A dead quote.** At one order per second the gate rejects the ask. The strategy records its id
all the same, and on the next tick it does not quote. -/
theorem not_restsOn_rejected : ∃ e,
    run (strategy .defaults) [.pushTick quoteTick, .runOnce, .pushTick quoteTick, .runOnce] 4
      (new ⟨1, 20, 1, by decide, by decide, by decide⟩ { maxOrdersPerSecond := 1 } initial
        fun _ => 0) = .ok e ∧
    e.env.strategy.askOrderId = 2 ∧ ¬ e.book.RestsOn .sell 2 ∧ usedIds e.env.journal = [1, 2] := by
  decide +kernel

end SpreadStrategy

end MiniTrader
