import MiniTrader.Lib.Runs
import MiniTrader.OrderBook.Tidy
import Mathlib.Order.Bounds.Basic

/-!
# Runs of the book on its own

Sequences of `add_order` and `cancel_order` on an initially empty book, with a callback that
observes the reports and leaves the book alone. A run also collects what the calls of
`cancel_order` return.

`WellFormed` is what the callers promise: a limit order has something to trade, a price on the
grid, and an id no earlier limit order had. Nothing is asked of market orders, of cancels, or of
the ids they name.

## Main definitions

* `BookOp`, `BookOp.run`, `runBook`
* `observe` — the callbacks that only look
* `WellFormed` — the promises of the callers

## Main results

* `SparingRule.matchOrder_reaches`, `SparingRule.addOrder_reaches` — one call of `add_order`
* `indexed_of_wellFormed` — the id map, the queues and the totals agree in every reachable state
* `bestPrices_of_wellFormed` — the caches are exact and the book is uncrossed
-/

namespace MiniTrader

open Fuelled

namespace OrderBook

variable {ε : Type}

/-- A call on the book. -/
inductive BookOp where
  | add (order : Order)
  | cancel (orderId : ℕ)
  deriving DecidableEq, Repr

/-- One call. The second component of the state collects the values `cancel_order` returned. -/
def BookOp.run (cb : FillCallback ε) (op : BookOp) (fuel : ℕ) (s : World ε × List Bool) :
    Outcome (World ε × List Bool) :=
  match op with
  | .add order => do
    let w ← addOrder cb fuel order s.1
    .ok (w, s.2)
  | .cancel orderId => do
    let r ← s.1.book.cancelOrder orderId
    .ok (s.1.withBook r.2, s.2 ++ [r.1])

/-- A sequence of calls on an empty book. -/
def runBook (c : OrderBookConfig) (cb : FillCallback ε) (e : ε) (ops : List BookOp) (fuel : ℕ) :
    Outcome (World ε × List Bool) :=
  runList (BookOp.run cb) fuel ops (⟨new c, e⟩, [])

/-- A callback that looks at the report and leaves the book alone. -/
def observe (f : ExecutionReport → ε → ε) : FillCallback ε := fun r w => .ok ⟨w.book, f r w.env⟩

/-- What a call has to satisfy when the ids of the earlier limit orders are `used`. -/
def BookOp.Ok (c : OrderBookConfig) (used : List ℕ) : BookOp → Prop
  | .add o => o.type = .limit → 0 < o.quantity ∧ c.OnGrid o.price ∧ o.orderId ∉ used
  | .cancel _ => True

/-- The ids of the limit orders after a call. -/
def BookOp.usedIds (used : List ℕ) : BookOp → List ℕ
  | .add o => if o.type = .limit then o.orderId :: used else used
  | .cancel _ => used

/-- Limit orders have a positive quantity, a price of the grid, and an id no earlier limit order
had. -/
def WellFormed (c : OrderBookConfig) (ops : List BookOp) : Prop :=
  Allowed (BookOp.Ok c) BookOp.usedIds [] ops

/-! ### Observing callbacks -/

/-- A callback that leaves the book alone fits any assertion that each fill re-establishes. -/
theorem sparingRule_observe {c : OrderBookConfig} {f : ExecutionReport → ε → ε} {side : Side}
    {G : Order → World ε → Prop} {H : ℕ → Order → World ε → Prop}
    (henter : ∀ {o w}, Sound w.book → w.book.config = c → G o w → MatchGuard side (o, w) →
      H (w.book.config.priceToIndex (w.book.best side.opp)) o w)
    (hfill : ∀ {idx o w n rest}, Sound w.book → w.book.config = c → H idx o w →
      (w.book.levels side.opp idx).orders = n :: rest → 0 < o.quantity →
      H idx (Order.afterFill o n)
        ⟨w.book.settleFront side.opp idx n.order (min o.quantity n.order.quantity),
          f (makerReport side o n (w.book.best side.opp))
            (f (takerReport side o n (w.book.best side.opp)) w.env)⟩)
    (hleave : ∀ {idx o w}, Sound w.book → w.book.config = c → H idx o w →
      ¬ LevelGuard side idx (o, w) → G o (w.withBook (w.book.leaveLevel side.opp idx))) :
    SparingRule c (observe f) side G H where
  enter := henter
  fill hb hc hH hfront hq :=
    ⟨_, _, rfl, CancelsOthers.refl _ _, rfl, CancelsOthers.refl _ _, hfill hb hc hH hfront hq⟩
  leave := hleave

theorem sparingRule_observe_true {c : OrderBookConfig} {f : ExecutionReport → ε → ε}
    {side : Side} : SparingRule c (observe f) side (fun _ _ => True) (fun _ _ _ => True) :=
  sparingRule_observe (fun _ _ _ _ => trivial) (fun _ _ _ _ _ => trivial) fun _ _ _ _ => trivial

/-! ### The ids that rest -/

/-- Only used ids rest. -/
def RestingIn (used : List ℕ) (b : OrderBook) : Prop :=
  ∀ s i, ∀ n ∈ (b.levels s i).orders, n.order.orderId ∈ used

variable {used : List ℕ} {b b' : OrderBook} {c : OrderBookConfig}

theorem RestingIn.within (h : RestingIn used b) (hw : RestsWithin b' b) : RestingIn used b' := by
  intro s i n hn
  obtain ⟨m, hm, q, -, rfl⟩ := hw s i n hn
  exact h s i m hm

theorem RestingIn.notResting {id : ℕ} (h : RestingIn used b) (hid : id ∉ used) :
    NotResting b id :=
  fun s i n hn he => hid (he ▸ h s i n hn)

theorem RestingIn.join {o : Order} (h : RestingIn used b) :
    RestingIn (o.orderId :: used) (b.join o) := by
  intro s i n hn
  rw [levels_join] at hn
  rcases mem_link.mp hn with hn | ⟨rfl, rfl, rfl⟩
  · exact List.mem_cons_of_mem _ (h s i n hn)
  · exact List.mem_cons_self

theorem restingIn_new (c : OrderBookConfig) : RestingIn [] (new c) := by
  intro s i n hn
  rw [orders_new] at hn
  cases hn

theorem restsWithin_cancelOrder {id : ℕ} {r : Bool} (hb : Coherent b)
    (h : b.cancelOrder id = .ok (r, b')) : RestsWithin b' b ∧ b'.config = b.config := by
  rcases hb.exists_cancelOrder id with ⟨-, hc⟩ | ⟨s, i, n, hn, -, hc⟩
  · rw [hc] at h; cases h; exact ⟨RestsWithin.refl b, rfl⟩
  · rw [hc] at h; cases h
    exact ⟨(restsWithin_of_levels fun _ => levels_refreshBest).trans (hb.restsWithin_unlink hn),
      by simp⟩

theorem RestingIn.afterMatch {o : Order} {w : World ε} (h : RestingIn used w.book) :
    RestingIn (BookOp.usedIds used (.add o)) (OrderBook.afterMatch o w).book := by
  rw [OrderBook.afterMatch, BookOp.usedIds]
  by_cases hl : o.type = .limit
  · rw [if_pos hl]
    split
    · exact h.join
    · exact fun s i n hn => List.mem_cons_of_mem _ (h s i n hn)
  · rw [if_neg hl, if_neg fun hq => hl hq.2]
    exact h

/-! ### One call -/

/-- What every reachable state satisfies. -/
structure Reaches (c : OrderBookConfig) (used : List ℕ) (b : OrderBook) : Prop where
  sound : Sound b
  located : Located b
  config_eq : b.config = c
  restingIn : RestingIn used b
  aligned : Aligned b
  tidy : c.Priced → Tidy b

theorem reaches_new (c : OrderBookConfig) : Reaches c [] (new c) :=
  ⟨sound_new c, locatedOn_new c, rfl, restingIn_new c, (tidy_new c).aligned, fun _ => tidy_new c⟩

theorem Reaches.mono {used' : List ℕ} (h : Reaches c used b) (hs : used ⊆ used') :
    Reaches c used' b :=
  ⟨h.sound, h.located, h.config_eq, fun s i n hn => hs (h.restingIn s i n hn), h.aligned, h.tidy⟩

theorem Reaches.cancelOrder {id : ℕ} {r : Bool} (h : Reaches c used b)
    (hc : b.cancelOrder id = .ok (r, b')) : Reaches c used b' := by
  obtain ⟨hw, hconf⟩ := restsWithin_cancelOrder h.sound.coherent hc
  exact ⟨h.sound.cancelOrder hc, h.located.cancelOrder h.sound.coherent hc,
    hconf.trans h.config_eq, h.restingIn.within hw,
    h.aligned.within hw hconf,
    fun hp => (h.tidy hp).cancelOrder (h.config_eq ▸ hp) h.sound.coherent hc⟩

/-- Every cancel returns. -/
theorem Coherent.cancelOrder_ok (hb : Coherent b) (id : ℕ) :
    ∃ r b', b.cancelOrder id = .ok (r, b') := by
  rcases hb.exists_cancelOrder id with ⟨-, h⟩ | ⟨s, i, n, -, -, h⟩
  · exact ⟨_, _, h⟩
  · exact ⟨_, _, h⟩

theorem Aligned.join {o : Order} (h : Aligned b) (hgrid : b.config.OnGrid o.price) :
    Aligned (b.join o) := by
  intro s i n hn
  rw [levels_join] at hn
  rw [config_join]
  rcases mem_link.mp hn with hn | ⟨rfl, rfl, rfl⟩
  · exact h s i n hn
  · exact hgrid.priceAt_priceToIndex.symm

theorem Reaches.afterMatch {o : Order} {w : World ε} (h : Reaches c used w.book)
    (hok : o.type = .limit → c.OnGrid o.price ∧ o.orderId ∉ used)
    (hstop : ¬ MatchGuard o.side (o, w)) :
    Reaches c (BookOp.usedIds used (.add o)) (OrderBook.afterMatch o w).book where
  sound := h.sound.afterMatch
    (fun hl => by rw [h.config_eq]; exact (hok hl.2).1.priceToIndex_lt)
  located := h.located.afterMatch fun hl _ => h.restingIn.notResting (hok hl).2
  config_eq := config_afterMatch.trans h.config_eq
  restingIn := h.restingIn.afterMatch
  aligned := by
    rw [OrderBook.afterMatch]
    split
    · exact h.aligned.join (by rw [h.config_eq]; exact (hok (‹_ ∧ _› : _ ∧ _).2).1)
    · exact h.aligned
  tidy hp := (h.tidy hp).afterMatch (h.config_eq ▸ hp)
    (fun hl => by rw [h.config_eq]; exact (hok hl).1) hstop

section

variable {cb : FillCallback ε} {G : Order → World ε → Prop} {H : ℕ → Order → World ε → Prop}
  {o : Order} {w : World ε}

/-- **`match` and `add_order` in a reachable state.** The caller learns about the state in which
`match` stopped and about the one after the remainder has been dealt with. -/
theorem SparingRule.matchOrder_reaches (hr : SparingRule c cb o.side G H)
    (h : Reaches c used w.book) (htype : o.type ≠ .cancel)
    (hok : o.type = .limit → c.OnGrid o.price ∧ o.orderId ∉ used) (hG : G o w) :
    ∃ q w', Converges (fun fuel => OrderBook.matchOrder cb fuel (o, w))
        (.ok (o.withQuantity q, w')) ∧
      Converges (fun fuel => OrderBook.addOrder cb fuel o w)
        (.ok (OrderBook.afterMatch (o.withQuantity q) w')) ∧
      Reaches c used w'.book ∧
      Reaches c (BookOp.usedIds used (.add o)) (OrderBook.afterMatch (o.withQuantity q) w').book ∧
      G (o.withQuantity q) w' ∧ ¬ MatchGuard o.side (o.withQuantity q, w') := by
  obtain ⟨q, w', hm, hb', hc', ⟨hl', hw, ht', hG'⟩, hg⟩ :=
    ((hr.tidyOfPriced.within w.book).located _).matchOrder rfl h.sound h.config_eq
      ⟨h.located, RestsWithin.refl _, h.tidy, hG⟩
  have h' : Reaches c used w'.book := ⟨hb', hl', hc', h.restingIn.within hw,
    h.aligned.within hw (hc'.trans h.config_eq.symm), ht'⟩
  refine ⟨q, w', hm, converges_addOrder htype hm fun hl => ?_, h',
    Reaches.afterMatch (o := o.withQuantity q) h' hok hg, hG', hg⟩
  rw [hc']
  exact (hok hl).1.priceToIndex_lt

theorem SparingRule.addOrder_reaches (hr : SparingRule c cb o.side G H)
    (h : Reaches c used w.book) (htype : o.type ≠ .cancel)
    (hok : o.type = .limit → c.OnGrid o.price ∧ o.orderId ∉ used) (hG : G o w) :
    ∃ q w', Converges (fun fuel => OrderBook.addOrder cb fuel o w)
        (.ok (OrderBook.afterMatch (o.withQuantity q) w')) ∧
      Reaches c used w'.book ∧
      Reaches c (BookOp.usedIds used (.add o)) (OrderBook.afterMatch (o.withQuantity q) w').book ∧
      G (o.withQuantity q) w' ∧ ¬ MatchGuard o.side (o.withQuantity q, w') := by
  obtain ⟨q, w', -, h'⟩ := hr.matchOrder_reaches h htype hok hG
  exact ⟨q, w', h'⟩

end

/-- A `Cancel` order is a cancel. -/
theorem addOrder_cancel {cb : FillCallback ε} {o : Order} {w : World ε} {fuel : ℕ} {r : Bool}
    (htype : o.type = .cancel) (h : w.book.cancelOrder o.orderId = .ok (r, b)) :
    addOrder cb fuel o w = .ok (w.withBook b) := by
  rw [addOrder, if_pos htype, h]
  rfl

/-- **The two kinds of calls**: one adds an order, the other cancels, by either way. -/
theorem Coherent.run_cases {s : World ε × List Bool} (hb : Coherent s.1.book)
    (cb : FillCallback ε) (op : BookOp) : (∃ o, op = .add o ∧ o.type ≠ .cancel) ∨
      ∃ id r b' bs, s.1.book.cancelOrder id = .ok (r, b') ∧
        (∀ o, op = .add o → o.type = .cancel) ∧
        Converges (fun fuel => op.run cb fuel s) (.ok (s.1.withBook b', bs)) := by
  cases op with
  | add o =>
    by_cases htype : o.type = .cancel
    · obtain ⟨r, b', hc⟩ := hb.cancelOrder_ok o.orderId
      refine Or.inr ⟨o.orderId, r, b', s.2, hc, fun o' he => ?_, ?_⟩
      · cases he
        exact htype
      · simp only [BookOp.run, addOrder_cancel htype hc]
        exact converges_const _
    · exact Or.inl ⟨o, rfl, htype⟩
  | cancel id =>
    obtain ⟨r, b', hc⟩ := hb.cancelOrder_ok id
    refine Or.inr ⟨id, r, b', s.2 ++ [r], hc, fun o he => (nomatch he), ?_⟩
    simp only [BookOp.run, hc]
    exact converges_const _

/-- A cancel uses no id. -/
theorem usedIds_of_cancel {op : BookOp} (h : ∀ o, op = .add o → o.type = .cancel) :
    op.usedIds used = used := by
  cases op with
  | add o => rw [BookOp.usedIds, if_neg (by rw [h o rfl]; decide)]
  | cancel id => rfl

/-- One call with a callback that only looks. -/
theorem Reaches.step {f : ExecutionReport → ε → ε} {op : BookOp} {s : World ε × List Bool}
    (h : Reaches c used s.1.book) (hok : op.Ok c used) :
    ∃ s', Converges (fun fuel => op.run (observe f) fuel s) (.ok s') ∧
      Reaches c (op.usedIds used) s'.1.book := by
  rcases h.sound.coherent.run_cases (observe f) op with
    ⟨o, rfl, htype⟩ | ⟨id, r, b', bs, hc, htype, hrun⟩
  · obtain ⟨q, w', hm, -, h', -⟩ := sparingRule_observe_true.addOrder_reaches h htype
      (fun hl => (hok hl).2) trivial
    exact ⟨_, hm.bind (converges_const _), h'⟩
  · refine ⟨_, hrun, ?_⟩
    rw [usedIds_of_cancel htype]
    exact h.cancelOrder hc

theorem exists_runBook {f : ExecutionReport → ε → ε} {e : ε} {ops : List BookOp}
    (hops : WellFormed c ops) : ∃ s, Converges (runBook c (observe f) e ops) (.ok s) ∧
      Reaches c (ops.foldl BookOp.usedIds []) s.1.book :=
  @converges_runList _ _ _ _ (BookOp.run (observe f)) (BookOp.Ok c) BookOp.usedIds
    (fun used s => Reaches c used s.1.book) (fun _ _ _ h hok => h.step hok) _ _ _
    (reaches_new c) hops

/-! ### The reachable states -/

/-- The prices of the occupied levels of a side. -/
def prices (b : OrderBook) (s : Side) : Set ℤ :=
  {p | ∃ i < b.config.numLevels, (b.levels s i).orders ≠ [] ∧ (b.levels s i).price = p}

/-- The id map has one entry for each resting order and no other; entries designate nodes; orders
rest with a positive quantity at the level of their side and price; totals are exact. -/
structure Indexed (b : OrderBook) : Prop where
  entry : ∀ id s i h, b.orderMap.lookup id = some ⟨s, i, h⟩ ↔
    i < b.config.numLevels ∧ ∃ n ∈ (b.levels s i).orders, n.handle = h ∧ n.order.orderId = id
  unique : ∀ s i, ∀ n ∈ (b.levels s i).orders, ∀ t j, ∀ m ∈ (b.levels t j).orders,
    (n.order.orderId = m.order.orderId ∨ (s = t ∧ i = j ∧ n.handle = m.handle)) →
      s = t ∧ i = j ∧ n = m
  resting : ∀ s i, ∀ n ∈ (b.levels s i).orders,
    0 < n.order.quantity ∧ n.order.side = s ∧ n.order.price = (b.levels s i).price
  total : ∀ s i, (b.levels s i).totalQuantity =
    ((b.levels s i).orders.map fun n => n.order.quantity).sum

theorem Coherent.toIndexed (hb : Coherent b) (hl : Located b) (ha : Aligned b) : Indexed b where
  entry id s i h := by
    constructor
    · intro hloc
      obtain ⟨n, hn, hh, hid⟩ := hb.indexed hloc
      exact ⟨hb.inRange hn, n, hn, hh, hid⟩
    · rintro ⟨-, n, hn, rfl, rfl⟩
      exact hl s i n hn trivial
  unique := by
    rintro s i n hn t j m hm (hid | ⟨rfl, rfl, hh⟩)
    · exact hl.eq_of_orderId hb hn hm hid trivial
    · exact ⟨rfl, rfl, PriceLevel.eq_of_handle_eq (hb.nodup _ _) hn hm hh⟩
  resting s i n hn := ⟨hb.positive hn, hb.side_eq hn, by rw [hb.price, ha s i n hn]⟩
  total := hb.total

/-- **Index and level coherence.** Every sequence of calls returns, and leaves the id map, the
queues and the totals in agreement. -/
theorem indexed_of_wellFormed (c : OrderBookConfig) (f : ExecutionReport → ε → ε) (e : ε)
    (ops : List BookOp) (hops : WellFormed c ops) :
    ∃ s, Converges (runBook c (observe f) e ops) (.ok s) ∧ Indexed s.1.book := by
  obtain ⟨s, hs, h⟩ := exists_runBook hops
  exact ⟨s, hs, h.sound.coherent.toIndexed h.located h.aligned⟩

/-- Orders on both sides, a cancel, and a sweep that ends inside a level. -/
theorem indexed_of_wellFormed_example :
    ∃ s, Converges (runBook ⟨-5, 10, 5, by decide, by decide, by decide⟩ (observe fun _ e => e) ()
        [.add ⟨1, 1, 5, 10, .buy, .limit⟩, .add ⟨2, 1, 0, 7, .buy, .limit⟩,
          .add ⟨3, 1, -5, 15, .sell, .limit⟩, .cancel 2]) (.ok s) ∧ Indexed s.1.book :=
  indexed_of_wellFormed _ _ _ _
    ⟨fun _ => ⟨by decide, ⟨2, by decide, by decide⟩, by decide⟩,
      fun _ => ⟨by decide, ⟨1, by decide, by decide⟩, by decide⟩,
      fun _ => ⟨by decide, ⟨0, by decide, by decide⟩, by decide⟩, trivial, trivial⟩

/-- The cache of a side is one of the prices of its occupied levels, and none is better. -/
theorem BestExact.prices {s : Side} (h : BestExact b s) (hb : Coherent b) :
    (b.prices s = ∅ ∧ b.best s = -1) ∨
      (b.best s ∈ b.prices s ∧ ∀ p ∈ b.prices s, ¬ s.Better p (b.best s)) := by
  rcases h with ⟨hnil, hnone⟩ | ⟨idx, hat, ho⟩
  · exact Or.inl ⟨Set.eq_empty_of_forall_notMem fun p ⟨i, _, hi, _⟩ => hnone i hi, hnil⟩
  · refine Or.inr ⟨⟨idx, hat.lt, ho, by rw [hat.best, hb.price]⟩, ?_⟩
    rintro p ⟨i, -, hi, rfl⟩ hbetter
    refine hat.better i ?_ hi
    rw [hb.price, hat.best] at hbetter
    cases s <;> simpa [Side.Better, Farther] using hbetter

/-- Exact caches of an uncrossed book. -/
structure BestPrices (b : OrderBook) : Prop where
  bid : (b.prices .buy = ∅ ∧ b.bestBid = -1) ∨ IsGreatest (b.prices .buy) b.bestBid
  ask : (b.prices .sell = ∅ ∧ b.bestAsk = -1) ∨ IsLeast (b.prices .sell) b.bestAsk
  uncrossed : (b.prices .buy).Nonempty → (b.prices .sell).Nonempty → b.bestBid < b.bestAsk

theorem Tidy.bestPrices (h : Tidy b) (hb : Coherent b) : BestPrices b where
  bid := ((h.best .buy).prices hb).imp_right fun ⟨hm, hn⟩ => ⟨hm, fun p hp => not_lt.mp (hn p hp)⟩
  ask := ((h.best .sell).prices hb).imp_right fun ⟨hm, hn⟩ => ⟨hm, fun p hp => not_lt.mp (hn p hp)⟩
  uncrossed := by
    rintro ⟨_, _, _, hi, _⟩ ⟨_, _, _, hj, _⟩
    rcases h.best .buy with ⟨-, hnone⟩ | ⟨i, hati, hoi⟩
    · exact absurd hi (hnone _)
    rcases h.best .sell with ⟨-, hnone⟩ | ⟨j, hatj, hoj⟩
    · exact absurd hj (hnone _)
    have hbid : b.bestBid = b.config.priceAt i := hati.best
    have hask : b.bestAsk = b.config.priceAt j := hatj.best
    rw [hbid, hask, OrderBookConfig.priceAt_lt_priceAt]
    exact h.uncrossed i j hoi hoj

/-- **The caches are exact and the book is uncrossed** after every sequence of calls. -/
theorem bestPrices_of_wellFormed (c : OrderBookConfig) (hmin : 0 ≤ c.minPrice)
    (hlevels : c.numLevels ≤ 2 ^ 31) (f : ExecutionReport → ε → ε) (e : ε) (ops : List BookOp)
    (hops : WellFormed c ops) :
    ∃ s, Converges (runBook c (observe f) e ops) (.ok s) ∧ BestPrices s.1.book := by
  obtain ⟨s, hs, h⟩ := exists_runBook hops
  exact ⟨s, hs, (h.tidy ⟨hmin, by omega⟩).bestPrices h.sound.coherent⟩

/-- A book of ten levels with a bid and an ask that crosses it. -/
theorem bestPrices_of_wellFormed_example :
    ∃ s, Converges (runBook ⟨1, 10, 1, by decide, by decide, by decide⟩ (observe fun _ e => e) ()
        [.add ⟨1, 1, 5, 10, .buy, .limit⟩, .add ⟨2, 1, 4, 15, .sell, .limit⟩, .cancel 1]) (.ok s) ∧
      BestPrices s.1.book :=
  bestPrices_of_wellFormed _ (by decide) (by decide) _ _ _
    ⟨fun _ => ⟨by decide, ⟨4, by decide, by decide⟩, by decide⟩,
      fun _ => ⟨by decide, ⟨3, by decide, by decide⟩, by decide⟩, trivial, trivial⟩

end OrderBook

end MiniTrader
