import MiniTrader.Engine.Rules

/-!
# The self-trade check

With `check_self_trade` on, the gate rejects an order that would trade with any order it knows of,
and it knows of every order that went through it and may still rest. So no two orders that came in
through the engine ever trade, and no execution report is emitted at all.

The gate and the book judge crossing by different data: the gate by its own table of sides and
prices, the book by its cached best prices. `Shielded` relates the two. Every resting order has its
entry in the table; and a cache, when it is not negative, is the price of an order that does rest.
The second is weaker than exactness and holds at any sign of the prices, so nothing is asked of the
configuration.

A cancel through `TradingEngine::cancel_order` takes the entry out of the table before it takes the
order out of the book. A `Cancel` order leaves the entry where it is, which is harmless here: the
table then knows of too many orders, not of too few.

## Main definitions

* `BestResting` — a cache is the price of a resting order
* `Shielded` — the invariant

## Main results

* `Shielded.not_matchGuard` — the order that passes the gate does not match
* `reports_eq_nil_of_checkSelfTrade` — no execution report in any run
-/

namespace MiniTrader

open Fuelled

namespace OrderBook

variable {b b' : OrderBook} {s t : Side} {i j : ℕ} {n : Node}

/-- A cached best price that is not negative is the price of an occupied level. -/
def BestResting (b : OrderBook) : Prop :=
  ∀ s, 0 ≤ b.best s → ∃ i, b.best s = b.config.priceAt i ∧ Occupied b s i

theorem bestResting_new (c : OrderBookConfig) : BestResting (new c) := by
  intro s h
  cases s <;> (have : (0 : ℤ) ≤ -1 := h; omega)

theorem BestResting.cancel (h : BestResting b) (hb : Coherent b)
    (hn : n ∈ (b.levels s i).orders) : BestResting ((b.unlink s i n).refreshBest s i) := by
  have hb' := hb.unlink hn
  intro t ht
  rw [config_refreshBest]
  by_cases hscan : t = s ∧ ¬ Occupied (b.unlink s i n) s i ∧
      ((b.unlink s i n).levels s i).price = (b.unlink s i n).best s
  · -- the cache is rewritten by a scan
    obtain ⟨rfl, hempty, hprice⟩ := hscan
    have href : (b.unlink t i n).refreshBest t i = (b.unlink t i n).updateBestAfterEmpty t i := by
      rw [refreshBest, if_pos ⟨PriceLevel.empty_iff.mpr (not_not.mp hempty), hprice⟩]
    rw [href] at ht ⊢
    rw [best_updateBestAfterEmpty, if_pos rfl] at ht ⊢
    cases hnext : (b.unlink t i n).nextLevel t i with
    | none => rw [scanBest_eq_of_none hnext] at ht; omega
    | some j =>
      refine ⟨j, hb'.scanBest_of_some hnext, ?_⟩
      rw [Occupied, levels_updateBestAfterEmpty]
      exact orders_ne_nil_of_nextLevel hnext
  · -- it stays, and so does the order it designates or another one at its level
    have hbest : ((b.unlink s i n).refreshBest s i).best t = b.best t := by
      by_cases hts : t = s
      · subst hts
        rw [refreshBest, if_neg, best_unlink]
        rintro ⟨hemp, hprice⟩
        exact hscan ⟨rfl, not_not.mpr (PriceLevel.empty_iff.mp hemp), hprice⟩
      · rw [best_refreshBest_of_ne hts, best_unlink]
    rw [hbest] at ht ⊢
    obtain ⟨j, hj, ho⟩ := h t ht
    refine ⟨j, by rw [config_unlink, hj], occupied_refreshBest.mpr ?_⟩
    by_cases hij : t = s ∧ j = i
    · obtain ⟨rfl, rfl⟩ := hij
      by_contra hempty
      exact hscan ⟨rfl, hempty, by rw [hb'.price, config_unlink, best_unlink, hj]⟩
    · exact (occupied_unlink_iff hij).mpr ho

theorem BestResting.cancelOrder {id : ℕ} {r : Bool} (h : BestResting b) (hb : Coherent b)
    (hc : b.cancelOrder id = .ok (r, b')) : BestResting b' := by
  rcases hb.exists_cancelOrder id with ⟨-, hc'⟩ | ⟨s, i, n, hn, -, hc'⟩
  · rw [hc'] at hc; cases hc; exact h
  · rw [hc'] at hc; cases hc; exact h.cancel hb hn

theorem BestResting.join {o : Order} (h : BestResting b) (hgrid : b.config.OnGrid o.price) :
    BestResting (b.join o) := by
  intro t ht
  rw [config_join]
  rw [best_join] at ht ⊢
  split
  · obtain ⟨rfl, -⟩ := ‹_ ∧ _›
    exact ⟨_, hgrid.priceAt_priceToIndex.symm, occupied_join_iff.mpr (Or.inr ⟨rfl, rfl⟩)⟩
  · rw [if_neg ‹_›] at ht
    obtain ⟨i, hi, ho⟩ := h t ht
    exact ⟨i, hi, occupied_join_iff.mpr (Or.inl ho)⟩

/-- An order whose match guard fails goes straight to the end of `add_order`. -/
theorem converges_addOrder_of_not_matchGuard {ε : Type} {cb : ℕ → FillCallback ε} {o : Order}
    {w : World ε} (htype : o.type ≠ .cancel) (hg : ¬ MatchGuard o.side (o, w))
    (hidx : o.type = .limit → w.book.config.priceToIndex o.price < w.book.config.numLevels) :
    Converges (fun fuel => addOrder (cb fuel) fuel o w) (.ok (afterMatch o w)) := by
  have hm : Converges (fun fuel => matchOrder (cb fuel) fuel (o, w)) (.ok (o, w)) :=
    @converges_whileLoop_of_not_guard _ _ _ _ (fun fuel => sweepLevel (cb fuel) o.side fuel) _ hg
  simp only [OrderBook.addOrder, if_neg htype]
  refine hm.bind ?_
  rw [afterMatch]
  split
  · rw [restOrder_eq (hidx (‹_ ∧ _› : _ ∧ _).2)]
    exact converges_const _
  · exact converges_const _

end OrderBook

namespace TradingEngine

open OrderBook

variable {σ : Type} {S : Strategy σ} {c : OrderBookConfig} {e e' : TradingEngine σ} {o : Order}
  {own : Bool}

/-- Every resting order has an entry in the table of the gate, with its side and price. -/
def Tracked (b : OrderBook) (g : RiskGate) : Prop :=
  ∀ s i, ∀ n ∈ (b.levels s i).orders,
    g.activeOrders.lookup n.order.orderId = some ⟨s, n.order.price⟩

/-- The state of an engine whose gate lets nothing through that would match. -/
structure Shielded (c : OrderBookConfig) (e : TradingEngine σ) : Prop where
  config_eq : e.book.config = c
  checks : e.env.risk.config.checkSelfTrade = true
  coherent : Coherent e.book
  located : Located e.book
  aligned : Aligned e.book
  restingIn : RestingIn (usedIds e.env.journal) e.book
  bestResting : BestResting e.book
  tracked : Tracked e.book e.env.risk
  silent : reports e.env.journal = []

/-- Nothing of this depends on counters, on the clock or on the state of the strategy. -/
theorem Shielded.congr (h : Shielded c e) (hbook : e'.book = e.book)
    (hrisk : e'.env.risk = e.env.risk) (hjournal : e'.env.journal = e.env.journal) :
    Shielded c e' := by
  constructor
  case config_eq => rw [hbook]; exact h.config_eq
  case checks => rw [hrisk]; exact h.checks
  case coherent => rw [hbook]; exact h.coherent
  case located => rw [hbook]; exact h.located
  case aligned => rw [hbook]; exact h.aligned
  case restingIn => rw [hbook, hjournal]; exact h.restingIn
  case bestResting => rw [hbook]; exact h.bestResting
  case tracked => rw [hbook, hrisk]; exact h.tracked
  case silent => rw [hjournal]; exact h.silent

theorem shielded_new {riskConfig : RiskConfig} (h : riskConfig.checkSelfTrade = true) (st : σ)
    (clock : ℕ → ℤ) : Shielded c (new c riskConfig st clock) where
  config_eq := rfl
  checks := h
  coherent := coherent_new c
  located := locatedOn_new c
  aligned := (tidy_new c).aligned
  restingIn := restingIn_new c
  bestResting := bestResting_new c
  tracked := by
    intro s i n hn
    have hn : n ∈ ((OrderBook.new c).levels s i).orders := hn
    rw [orders_new] at hn
    cases hn
  silent := rfl

/-! ### Submitting -/

/-- **The order that passes the gate does not match.** -/
theorem Shielded.not_matchGuard (h : Shielded c e) (hp : e.Passes o) :
    ¬ MatchGuard o.side (o, e.admitted own o) := by
  rintro ⟨-, hbest, hcross⟩
  simp only [book_admitted] at hbest hcross
  obtain ⟨i, hi, ho⟩ := h.bestResting _ hbest
  obtain ⟨n, hn⟩ := List.exists_mem_of_ne_nil _ ho
  have hprice : n.order.price = e.book.best o.side.opp := by rw [hi]; exact h.aligned _ _ n hn
  have hself := (RiskGate.of_check_eq_pass hp).2 h.checks
  have := (RiskGate.of_checkSelfTrade hself (h.tracked _ _ n hn) rfl).2
  rw [hprice] at this
  exact this hcross

theorem Tracked.insert {b : OrderBook} {g g' : RiskGate} (h : Tracked b g)
    (hid : NotResting b o.orderId)
    (hg : g'.activeOrders = if o.type = .limit then
      g.activeOrders.insert o.orderId ⟨o.side, o.price⟩ else g.activeOrders) : Tracked b g' := by
  intro s i n hn
  rw [hg]
  split
  · rw [AList.lookup_insert_ne (hid s i n hn)]; exact h s i n hn
  · exact h s i n hn

/-- What of the invariant does not mention the order that is being added. -/
theorem Shielded.rejected (h : Shielded c e) : Shielded c (e.rejected own o) where
  config_eq := h.config_eq
  checks := by rw [riskConfig_rejected]; exact h.checks
  coherent := h.coherent
  located := h.located
  aligned := h.aligned
  restingIn := by
    rw [journal_rejected, usedIds_append]
    exact fun s i n hn => List.mem_append_left _ (h.restingIn s i n hn)
  bestResting := h.bestResting
  tracked := by
    intro s i n hn
    rw [activeOrders_rejected]
    exact h.tracked s i n hn
  silent := by rw [journal_rejected, reports_append, h.silent]; rfl

theorem Shielded.admitted (h : Shielded c e)
    (hid : o.type = .limit → o.orderId ∉ usedIds e.env.journal) :
    Shielded c (e.admitted own o) := by
  constructor
  case config_eq => rw [book_admitted]; exact h.config_eq
  case checks => rw [riskConfig_admitted]; exact h.checks
  case coherent => rw [book_admitted]; exact h.coherent
  case located => rw [book_admitted]; exact h.located
  case aligned => rw [book_admitted]; exact h.aligned
  case restingIn =>
    rw [book_admitted, journal_admitted, usedIds_append]
    exact fun s i n hn => List.mem_append_left _ (h.restingIn s i n hn)
  case bestResting => rw [book_admitted]; exact h.bestResting
  case tracked =>
    rw [book_admitted]
    by_cases hl : o.type = .limit
    · exact h.tracked.insert (h.restingIn.notResting (hid hl)) (activeOrders_admitted own o e)
    · intro s i n hn
      rw [activeOrders_admitted, if_neg hl]
      exact h.tracked s i n hn
  case silent => rw [journal_admitted, reports_append, h.silent]; rfl

/-- The order that has been admitted joins the book. -/
theorem Shielded.join (h : Shielded c e) (hq : 0 < o.quantity) (hgrid : c.OnGrid o.price)
    (hid : NotResting e.book o.orderId) (hused : o.orderId ∈ usedIds e.env.journal)
    (htable : e.env.risk.activeOrders.lookup o.orderId = some ⟨o.side, o.price⟩) :
    Shielded c (e.withBook (e.book.join o)) := by
  obtain rfl := h.config_eq
  constructor
  case config_eq => exact config_join
  case checks => exact h.checks
  case coherent => exact h.coherent.join hq hgrid.priceToIndex_lt
  case located => exact h.located.join fun _ => hid
  case aligned => exact h.aligned.join hgrid
  case bestResting => exact h.bestResting.join hgrid
  case silent => exact h.silent
  case restingIn =>
    intro s i n hn
    rcases List.mem_cons.mp (h.restingIn.join (o := o) s i n hn) with he | hn
    · rw [he]; exact hused
    · exact hn
  case tracked =>
    intro s i n hn
    simp only [World.book_withBook, levels_join] at hn
    rcases mem_link.mp hn with hn | ⟨rfl, rfl, rfl⟩
    · exact h.tracked s i n hn
    · exact htable

theorem Shielded.cancelOrder {id : ℕ} {r : Bool} {b : OrderBook} (h : Shielded c e)
    (hc : e.book.cancelOrder id = .ok (r, b)) : Shielded c (e.withBook b) := by
  obtain ⟨hw, hconf⟩ := restsWithin_cancelOrder h.coherent hc
  constructor
  case config_eq => exact hconf.trans h.config_eq
  case checks => exact h.checks
  case coherent => exact h.coherent.cancelOrder hc
  case located => exact h.located.cancelOrder h.coherent hc
  case aligned => exact h.aligned.within hw hconf
  case restingIn => exact h.restingIn.within hw
  case bestResting => exact h.bestResting.cancelOrder h.coherent hc
  case silent => exact h.silent
  case tracked =>
    intro s i n hn
    obtain ⟨m, hm, q, -, rfl⟩ := hw s i n hn
    exact h.tracked s i m hm

/-- The id that is taken out of the table no longer rests. -/
theorem Shielded.untracked {id : ℕ} {b : OrderBook} (h : Shielded c (e.withBook b))
    (hid : NotResting b id) : Shielded c ((e.untracked id).withBook b) := by
  constructor
  case tracked =>
    intro s i n hn
    rw [← h.tracked s i n hn]
    exact AList.lookup_erase_ne (hid s i n hn)
  case config_eq => exact h.config_eq
  case checks => exact h.checks
  case coherent => exact h.coherent
  case located => exact h.located
  case aligned => exact h.aligned
  case restingIn => exact h.restingIn
  case bestResting => exact h.bestResting
  case silent => exact h.silent

/-! ### One call -/

theorem Shielded.submit (h : Shielded c e) (hok : FreshOnGrid c o e) :
    ∃ e', Converges (fun fuel => submitOrder (fillCallback S fuel) fuel own o e) (.ok e') ∧
      Shielded c e' := by
  by_cases hp : e.Passes o
  swap
  · exact ⟨_, by simp only [submitOrder_of_not_passes hp]; exact converges_const _, h.rejected⟩
  simp only [submitOrder_of_passes hp]
  by_cases htype : o.type = .cancel
  · have hadm : Shielded c (e.admitted own o) :=
      h.admitted fun hl => by rw [htype] at hl; cases hl
    obtain ⟨r, b, hc⟩ := hadm.coherent.cancelOrder_ok o.orderId
    refine ⟨_, ?_, hadm.cancelOrder hc⟩
    simp only [addOrder_cancel htype hc]
    exact converges_const _
  have hid := hok.2 htype
  have hadm : Shielded c (e.admitted own o) := h.admitted fun _ => hid
  have hgrid : o.type = .limit → (e.admitted own o).book.config.priceToIndex o.price <
      (e.admitted own o).book.config.numLevels := by
    rw [hadm.config_eq]
    exact fun hl => (hok.1 hl).priceToIndex_lt
  refine ⟨_, converges_addOrder_of_not_matchGuard htype (h.not_matchGuard hp) hgrid, ?_⟩
  rw [afterMatch]
  split
  · obtain ⟨hq, hl⟩ := ‹_ ∧ _›
    refine hadm.join hq (hok.1 hl) ?_ ?_ ?_
    · rw [book_admitted]; exact h.restingIn.notResting hid
    · rw [journal_admitted]
      exact mem_usedIds_append_submitted _ _ htype
    · rw [activeOrders_admitted, if_pos hl, AList.lookup_insert]
  · exact hadm

theorem Shielded.cancel {id : ℕ} (h : Shielded c e) :
    ∃ e', TradingEngine.cancelOrder id e = .ok e' ∧ Shielded c e' := by
  obtain ⟨r, b, hc⟩ := h.coherent.cancelOrder_ok id
  have hgone := h.located.notResting_cancelOrder h.coherent trivial hc
  exact ⟨_, cancelOrder_ok hc, (h.cancelOrder hc).untracked hgone⟩

/-- **No self-trades.** With `check_self_trade` on, no run of ticks, submissions and cancels emits
an execution report, whatever the strategy does. -/
theorem reports_eq_nil_of_checkSelfTrade (S : Strategy σ) (c : OrderBookConfig)
    (riskConfig : RiskConfig) (hself : riskConfig.checkSelfTrade = true) (st : σ) (clock : ℕ → ℤ)
    (ops : List (EngineOp σ))
    (hops : Meets S (Conditions.freshOnGrid c) ops (new c riskConfig st clock)) :
    ∃ e, Converges (fun fuel => run S ops fuel (new c riskConfig st clock)) (.ok e) ∧
      reports e.env.journal = [] := by
  have hsubmit : ∀ {own : Bool} {o : Order} {e : TradingEngine σ}, Shielded c e →
      FreshOnGrid c o e → ∃ e', Converges
        (fun fuel => submitOrder (fillCallback S fuel) fuel own o e) (.ok e') ∧ Shielded c e' :=
    fun h hok => h.submit hok
  obtain ⟨e, he, hI⟩ := converges_run (C := Conditions.freshOnGrid c) (I := Shielded c)
    (fun hq h => h.congr hq.book hq.risk hq.journal) hsubmit (fun h _ => h.cancel)
    (fun h _ hp => converges_interp (fun _ h => h.congr rfl rfl rfl) hsubmit
      (fun _ h => h.cancel) h hp) (shielded_new hself st clock) hops
  exact ⟨e, he, hI.silent⟩

/-- A strategy that reacts to nothing. -/
def idle : Strategy Unit where
  onTick _ := return
  onFill _ := return

/-- The strategy bids, somebody else offers at the same price, and the bid is cancelled. -/
theorem reports_eq_nil_of_checkSelfTrade_crossing : ∃ e, Converges
      (fun fuel => run idle [.invoke (.submitOrder ⟨1, 1, 5, 10, .buy, .limit⟩),
        .submitOrder ⟨2, 1, 5, 10, .sell, .limit⟩, .cancelOrder 1] fuel
        (new ⟨1, 10, 1, by decide, by decide, by decide⟩ {} () fun _ => 0)) (.ok e) ∧
      reports e.env.journal = [] := by
  refine reports_eq_nil_of_checkSelfTrade idle _ {} rfl () _ _ ⟨⟨trivial, ?_, fun _ _ _ => trivial⟩,
    fun fuel e he => ⟨⟨fun _ => ⟨4, by decide, by decide⟩, fun _ => ?_⟩, fun _ _ _ =>
      ⟨trivial, fun _ _ _ => trivial⟩⟩⟩
  · exact ⟨fun _ => ⟨4, by decide, by decide⟩, fun _ => List.not_mem_nil⟩
  · obtain ⟨r, hr, he⟩ := exists_of_bind_eq_ok he
    obtain ⟨e₁, h₁, hr⟩ := exists_of_bind_eq_ok hr
    cases hr
    cases he
    rw [(ids_submitOrder (S := idle) (fun _ => trivial) h₁).1]
    decide

end TradingEngine

end MiniTrader
