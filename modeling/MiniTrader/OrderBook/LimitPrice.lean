import MiniTrader.OrderBook.Accounting
import MiniTrader.OrderBook.Reference

/-!
# Limit prices and the tick size

`price_to_index` rounds a price down to its level, and nothing checks that the price is one of the
grid. The cache of a side takes the price of an order as it is, and the price of the level when a
better level has been exhausted; a fill is priced at the cache. So an order that rests between two
prices of the grid can be filled at the price of another order of its level, or at that of the level
itself, beyond its own limit.

Nothing of this touches a book in which every order rests at the price of its level (`Aligned`):
there a cache holds the price of all the orders at its level, whatever the prices of the incoming
orders.

## Main definitions

* `LimitRespected` — every fill is within the limits of its two orders

## Main results

* `limitRule` — fills of an aligned book
* `limitRespected_of_aligned` — runs through aligned books, and a bad run for every other price
-/

namespace MiniTrader

open Fuelled

namespace OrderBookConfig

variable {c : OrderBookConfig} {p : ℤ}

/-- The level of a price inside the range. -/
theorem priceToIndex_of_le (hmin : c.minPrice ≤ p) (hmax : p ≤ c.maxPrice) :
    (c.priceToIndex p : ℤ) = (p - c.minPrice) / c.tickSize := by
  have h0 : 0 ≤ p - c.minPrice := by omega
  have hnn : 0 ≤ (p - c.minPrice) / c.tickSize := Int.ediv_nonneg h0 c.tick_pos.le
  have hle : (p - c.minPrice) / c.tickSize ≤ p - c.minPrice := Int.ediv_le_self _ h0
  have hspan := c.span_lt
  rw [priceToIndex, wrap64_of_le (by omega) (by omega), Int.tdiv_eq_ediv_of_nonneg h0,
    Int.emod_eq_of_lt hnn (by omega), Int.toNat_of_nonneg hnn]

theorem priceToIndex_lt_of_le (hmin : c.minPrice ≤ p) (hmax : p ≤ c.maxPrice) :
    c.priceToIndex p < c.numLevels := by
  have hidx := priceToIndex_of_le hmin hmax
  have hmono : (p - c.minPrice) / c.tickSize ≤ (c.maxPrice - c.minPrice) / c.tickSize :=
    Int.ediv_le_ediv c.tick_pos (by omega)
  rw [numLevels, Int.tdiv_eq_ediv_of_nonneg (by omega)]
  omega

theorem minPrice_le_priceAt (c : OrderBookConfig) (i : ℕ) : c.minPrice ≤ c.priceAt i := by
  have := Int.mul_nonneg (Int.natCast_nonneg i) c.tick_pos.le
  rw [priceAt]
  omega

/-- A price that is not on the grid is above the price of its level. -/
theorem priceAt_priceToIndex_lt (hmin : c.minPrice ≤ p) (hmax : p ≤ c.maxPrice)
    (hgrid : ¬ c.OnGrid p) : c.priceAt (c.priceToIndex p) < p := by
  have hdiv := Int.ediv_mul_le (p - c.minPrice) c.tick_pos.ne'
  have hne : c.priceAt (c.priceToIndex p) ≠ p := fun h =>
    hgrid (onGrid_iff.mpr ⟨_, priceToIndex_lt_of_le hmin hmax, h.symm⟩)
  rw [priceAt, priceToIndex_of_le hmin hmax] at hne ⊢
  omega

end OrderBookConfig

namespace OrderBook

variable {b b' : OrderBook} {s t side : Side} {i idx : ℕ} {n : Node} {o : Order}

/-- What joins an aligned book has a price of the grid, if the book is aligned afterwards. -/
theorem Aligned.of_join (h : Aligned (b.join o))
    (hidx : b.config.priceToIndex o.price < b.config.numLevels) :
    Aligned b ∧ b.config.OnGrid o.price := by
  have hmem : ∀ s i m, m ∈ (b.levels s i).orders → m ∈ ((b.join o).levels s i).orders := by
    intro s i m hm
    rw [levels_join]
    exact mem_link.mpr (Or.inl hm)
  refine ⟨fun s i m hm => ?_, ?_⟩
  · rw [h s i m (hmem s i m hm), config_join]
  · have hself := h o.side (b.config.priceToIndex o.price) ⟨b.nextNode, o⟩ (by
      rw [levels_join]
      exact mem_link.mpr (Or.inr ⟨rfl, rfl, rfl⟩))
    rw [config_join] at hself
    exact OrderBookConfig.onGrid_iff.mpr ⟨_, hidx, hself⟩

/-! ### The orders behind a fill -/

/-- The price is within the limit of an order with the id. -/
def Accepts (orders : List Order) (id : ℕ) (price : ℤ) : Prop :=
  ∃ o ∈ orders, o.orderId = id ∧ o.side.Crosses o.price price

/-- Every fill is within the limits of its two orders. -/
def LimitRespected (orders : List Order) (log : List ExecutionReport) : Prop :=
  ∀ r ∈ log, ∀ o ∈ orders, o.orderId = r.orderId ∨ o.orderId = r.matchedOrderId →
    o.side.Crosses o.price r.price

instance (orders : List Order) (log : List ExecutionReport) :
    Decidable (LimitRespected orders log) :=
  inferInstanceAs (Decidable (∀ r ∈ log, ∀ o ∈ orders, _ → _))

/-- What does not change of an order. -/
def terms (o : Order) : ℕ × Side × ℤ := (o.orderId, o.side, o.price)

/-- Every resting order is what is left of one of the orders. -/
def RestsOf (orders : List Order) (b : OrderBook) : Prop :=
  ∀ s i, ∀ n ∈ (b.levels s i).orders, terms n.order ∈ orders.map terms

variable {orders : List Order} {log : List ExecutionReport} {c : OrderBookConfig}

theorem RestsOf.within (h : RestsOf orders b) (hw : RestsWithin b' b) : RestsOf orders b' := by
  intro s i n hn
  obtain ⟨m, hm, q, -, rfl⟩ := hw s i n hn
  exact h s i m hm

theorem accepts_of_terms {p : ℤ} (h : terms o ∈ orders.map terms) (hp : o.side.Crosses o.price p) :
    Accepts orders o.orderId p := by
  obtain ⟨o', ho', he⟩ := List.mem_map.mp h
  obtain ⟨hid, hside, hprice⟩ : o'.orderId = o.orderId ∧ o'.side = o.side ∧ o'.price = o.price := by
    simpa [terms] using he
  exact ⟨o', ho', hid, by rwa [hside, hprice]⟩

/-- `Accepts` for both orders of every report. -/
def Accepted (orders : List Order) (log : List ExecutionReport) : Prop :=
  ∀ r ∈ log, Accepts orders r.orderId r.price ∧ Accepts orders r.matchedOrderId r.price

theorem Accepted.limitRespected (h : Accepted orders log) (hd : (orders.map Order.orderId).Nodup) :
    LimitRespected orders log := by
  have key : ∀ {id p}, Accepts orders id p → ∀ o ∈ orders, o.orderId = id →
      o.side.Crosses o.price p := by
    rintro id p ⟨o', ho', rfl, hcross⟩ o ho hid
    rwa [List.inj_on_of_nodup_map hd ho ho' hid]
  rintro r hr o ho (hid | hid)
  · exact key (h r hr).1 o ho hid
  · exact key (h r hr).2 o ho hid

theorem Accepts.mono {id : ℕ} {p : ℤ} (h : Accepts orders id p) (o : Order) :
    Accepts (orders ++ [o]) id p := by
  obtain ⟨o', ho', he⟩ := h
  exact ⟨o', List.mem_append_left _ ho', he⟩

/-! ### One call -/

/-- An aligned book whose reports are within the limits. -/
structure AlignedWithin (orders : List Order) (w : World (List ExecutionReport)) : Prop where
  aligned : Aligned w.book
  cached : GridCached w.book
  restsOf : RestsOf orders w.book
  accepted : Accepted orders w.env

/-- **The fills of an aligned book.** During the sweep of a level the cache keeps its price, which
the incoming order crosses and all the orders of the level have. -/
theorem limitRule (c : OrderBookConfig) (orders : List Order) (side : Side) :
    SparingRule c record side
      (fun o w => o.side = side ∧ terms o ∈ orders.map terms ∧ AlignedWithin orders w)
      (fun idx o w => o.side = side ∧ terms o ∈ orders.map terms ∧ AlignedWithin orders w ∧
        idx = w.book.config.priceToIndex (w.book.best side.opp) ∧
        0 ≤ w.book.best side.opp ∧ side.Crosses o.price (w.book.best side.opp)) := by
  refine sparingRule_observe (fun _ _ h hg => ⟨h.1, h.2.1, h.2.2, rfl, hg.2⟩) ?_ ?_
  · rintro idx o w n rest hb - ⟨rfl, ho, h, rfl, hbest, hcross⟩ hfront hq
    have hn : n ∈ (w.book.levels o.side.opp
        (w.book.config.priceToIndex (w.book.best o.side.opp))).orders := by
      rw [hfront]; exact List.mem_cons_self
    have hpos := hb.coherent.positive hn
    have hw := hb.coherent.restsWithin_settleFront hfront
      (q := min o.quantity n.order.quantity) (by omega)
    have htaker : Accepts orders o.orderId (w.book.best o.side.opp) :=
      accepts_of_terms ho hcross
    have hmaker : Accepts orders n.order.orderId (w.book.best o.side.opp) := by
      refine accepts_of_terms (h.restsOf _ _ n hn) ?_
      rw [h.aligned.price_eq_best h.cached hbest hn]
      cases n.order.side <;> exact le_rfl
    refine ⟨rfl, ho, ⟨h.aligned.within hw config_settleFront,
      h.cached.of_best config_settleFront fun _ => best_settleFront, h.restsOf.within hw,
      fun r hr => ?_⟩, ?_, ?_, ?_⟩
    · rcases List.mem_append.mp hr with hr | hr
      · rcases List.mem_append.mp hr with hr | hr
        · exact h.accepted r hr
        · rw [List.mem_singleton.mp hr]; exact ⟨htaker, hmaker⟩
      · rw [List.mem_singleton.mp hr]; exact ⟨hmaker, htaker⟩
    · rw [config_settleFront, best_settleFront]
    · rw [best_settleFront]; exact hbest
    · rw [best_settleFront]; exact hcross
  · rintro idx o w hb - ⟨hs, ho, h, rfl, hbest, -⟩ -
    exact ⟨hs, ho, h.aligned.within (restsWithin_of_levels fun _ => levels_leaveLevel)
      config_leaveLevel, h.cached.leaveLevel hb.coherent (hb.cached _ hbest),
      h.restsOf.within (restsWithin_of_levels fun _ => levels_leaveLevel), h.accepted⟩

/-- What a call has to satisfy after the orders `orders`: they are limit orders with something to
trade, a price inside the range and an id of their own. -/
def BookOp.OkInRange (c : OrderBookConfig) (orders : List Order) : BookOp → Prop
  | .add o => o.type = .limit ∧ 0 < o.quantity ∧ c.minPrice ≤ o.price ∧ o.price ≤ c.maxPrice ∧
      ∀ o' ∈ orders, o'.orderId ≠ o.orderId
  | .cancel _ => True

/-- What the runs keep. Nothing is known of the caches of a book that is not aligned. -/
structure Limits (c : OrderBookConfig) (orders : List Order) (w : World (List ExecutionReport)) :
    Prop where
  sound : Sound w.book
  config_eq : w.book.config = c
  distinct : (orders.map Order.orderId).Nodup
  restsOf : RestsOf orders w.book
  cached : Aligned w.book → GridCached w.book
  accepted : Accepted orders w.env

theorem limits_new (c : OrderBookConfig) : Limits c [] ⟨new c, []⟩ where
  sound := sound_new c
  config_eq := rfl
  distinct := List.nodup_nil
  restsOf s i n hn := by rw [orders_new] at hn; cases hn
  cached _ := gridCached_new c
  accepted _ h := absurd h List.not_mem_nil

variable {w : World (List ExecutionReport)} {bs : List Bool}

theorem Limits.cancelOrder {id : ℕ} {r : Bool} (h : Limits c orders w) (ha : Aligned w.book)
    (hc : w.book.cancelOrder id = .ok (r, b)) : Limits c orders (w.withBook b) where
  sound := h.sound.cancelOrder hc
  config_eq := (restsWithin_cancelOrder h.sound.coherent hc).2.trans h.config_eq
  distinct := h.distinct
  restsOf := h.restsOf.within (restsWithin_cancelOrder h.sound.coherent hc).1
  cached _ := (h.cached ha).cancelOrder h.sound.coherent hc
  accepted := h.accepted

/-- The orders, and what is known of them, when one more comes. -/
theorem Limits.submit (h : Limits c orders w) (ha : Aligned w.book) :
    AlignedWithin (orders ++ [o]) w where
  aligned := ha
  cached := h.cached ha
  restsOf s i n hn := by
    rw [List.map_append]
    exact List.mem_append_left _ (h.restsOf s i n hn)
  accepted r hr := ⟨(h.accepted r hr).1.mono o, (h.accepted r hr).2.mono o⟩

theorem Limits.afterMatch (hb : Sound w.book) (hc : w.book.config = c)
    (hd : (orders.map Order.orderId).Nodup) (ho : terms o ∈ orders.map terms)
    (hidx : c.priceToIndex o.price < c.numLevels) (h : AlignedWithin orders w) :
    Limits c orders (OrderBook.afterMatch o w) := by
  subst hc
  rw [OrderBook.afterMatch]
  split
  · rename_i hq
    refine ⟨hb.join hq.1 hidx, config_join, hd, fun s i n hn => ?_, fun ha => ?_, h.accepted⟩
    · rw [World.book_withBook, levels_join] at hn
      rcases mem_link.mp hn with hn | ⟨rfl, rfl, rfl⟩
      · exact h.restsOf s i n hn
      · exact ho
    · exact h.cached.join (ha.of_join hidx).2
  · exact ⟨hb, rfl, hd, h.restsOf, fun _ => h.cached, h.accepted⟩

/-- **One call**, on an aligned book. -/
theorem Limits.step {op : BookOp} (h : Limits c orders w) (hok : op.OkInRange c orders)
    (ha : Aligned w.book) : ∃ s', Converges (fun fuel => op.run record fuel (w, bs)) (.ok s') ∧
      Limits c (op.submitted orders) s'.1 := by
  cases op with
  | cancel id =>
    obtain ⟨r, b', hc⟩ := h.sound.coherent.cancelOrder_ok id
    refine ⟨(w.withBook b', bs ++ [r]), ?_, h.cancelOrder ha hc⟩
    simp only [BookOp.run, hc]
    exact converges_const _
  | add o =>
    obtain ⟨htype, -, hmin, hmax, hid⟩ := hok
    have hidx := OrderBookConfig.priceToIndex_lt_of_le hmin hmax
    have hmem : terms o ∈ (orders ++ [o]).map terms := by
      rw [List.map_append]
      exact List.mem_append_right _ List.mem_cons_self
    have hd : ((orders ++ [o]).map Order.orderId).Nodup := by
      rw [List.map_append, List.nodup_append]
      refine ⟨h.distinct, List.nodup_singleton _, fun i hi j hj => ?_⟩
      obtain ⟨o', ho', rfl⟩ := List.mem_map.mp hi
      rw [List.mem_singleton.mp hj]
      exact hid o' ho'
    obtain ⟨q, w', hm, hb', hc', ⟨-, hmem', h'⟩, -⟩ :=
      (limitRule c (orders ++ [o]) o.side).matchOrder rfl h.sound h.config_eq
        ⟨rfl, hmem, h.submit ha⟩
    have hadd := converges_addOrder (by rw [htype]; decide) hm fun _ => by
      rw [hc']; exact hidx
    exact ⟨_, hadd.bind (converges_const _), Limits.afterMatch hb' hc' hd hmem' hidx h'⟩

/-! ### A price between two levels -/

/-- An ask at `p`. -/
def askAt (p : ℤ) : Order := ⟨1, 1, p, 1, .sell, .limit⟩

/-- An ask at the price of the level of `p`. -/
def levelAsk (c : OrderBookConfig) (p : ℤ) : Order :=
  ⟨2, 1, c.priceAt (c.priceToIndex p), 1, .sell, .limit⟩

/-- A bid at the price of the level of `p`. -/
def levelBid (c : OrderBookConfig) (p : ℤ) : Order :=
  ⟨3, 1, c.priceAt (c.priceToIndex p), 1, .buy, .limit⟩

/-- An ask between two levels, one at the lower of them, and a bid there. -/
def betweenOps (c : OrderBookConfig) (p : ℤ) : List BookOp :=
  [.add (askAt p), .add (levelAsk c p), .add (levelBid c p)]

/-- The book after the two asks. -/
def betweenBook (c : OrderBookConfig) (p : ℤ) : OrderBook :=
  ((new c).join (askAt p)).join (levelAsk c p)

/-- A fill of order 1 at the given price. -/
def FilledAt (q : ℤ) (log : List ExecutionReport) : Prop :=
  ∃ r ∈ log, r.orderId = 1 ∧ r.price = q

variable {p : ℤ}

theorem orders_join_self (hs : o.side = s) (hi : b.config.priceToIndex o.price = i) :
    ((b.join o).levels s i).orders = (b.levels s i).orders ++ [⟨b.nextNode, o⟩] := by
  subst hs hi
  rw [levels_join, levels_link_self, PriceLevel.addOrder]

/-- An ask for which there is no bid rests. -/
theorem converges_run_ask {w : World (List ExecutionReport) × List Bool} (hs : o.side = .sell)
    (htype : o.type = .limit) (hq : 0 < o.quantity) (hbid : w.1.book.bestBid = -1)
    (hidx : w.1.book.config.priceToIndex o.price < w.1.book.config.numLevels) :
    Converges (fun fuel => BookOp.run record (.add o) fuel w)
        (.ok (w.1.withBook (w.1.book.join o), w.2)) ∧ (w.1.book.join o).bestBid = -1 := by
  have hguard : ¬ MatchGuard o.side (o, w.1) := by
    intro h
    have h0 : 0 ≤ w.1.book.best o.side.opp := h.2.1
    rw [hs] at h0
    have : (0 : ℤ) ≤ -1 := hbid ▸ h0
    omega
  have hadd : Converges (fun fuel => addOrder record fuel o w.1) (.ok (afterMatch o w.1)) :=
    converges_addOrder (by rw [htype]; decide) (converges_whileLoop_of_not_guard hguard)
      fun _ => hidx
  rw [afterMatch, if_pos ⟨hq, htype⟩] at hadd
  refine ⟨hadd.bind (converges_const _), ?_⟩
  show (w.1.book.join o).best .buy = -1
  rw [best_join, if_neg fun h => by rw [hs] at h; exact absurd h.1 (by decide)]
  exact hbid

theorem bestAsk_betweenBook (hp : c.priceAt (c.priceToIndex p) < p) :
    (betweenBook c p).bestAsk = c.priceAt (c.priceToIndex p) := by
  have h₁ : ((new c).join (askAt p)).best .sell = p :=
    best_join.trans (if_pos ⟨rfl, Or.inl (show (-1 : ℤ) < 0 by decide)⟩)
  have himp : Improves .sell (levelAsk c p).price (((new c).join (askAt p)).best .sell) := by
    rw [h₁]
    exact Or.inr hp
  exact (@best_join ((new c).join (askAt p)) .sell (levelAsk c p)).trans (if_pos ⟨rfl, himp⟩)

/-- The first ask is in front. -/
theorem asks_betweenBook (hidx : c.priceToIndex p < c.numLevels) :
    ((betweenBook c p).levels .sell (c.priceToIndex p)).orders =
      [⟨0, askAt p⟩, ⟨((new c).join (askAt p)).nextNode, levelAsk c p⟩] := by
  have h₁ := @orders_join_self (new c) .sell (c.priceToIndex p) (askAt p) rfl rfl
  have h₂ := @orders_join_self ((new c).join (askAt p)) .sell (c.priceToIndex p) (levelAsk c p) rfl
    (by rw [config_join]; exact c.priceToIndex_priceAt hidx)
  rw [betweenBook, h₂, h₁, orders_new]
  rfl

theorem config_betweenBook : (betweenBook c p).config = c := by
  rw [betweenBook, config_join, config_join]
  rfl

/-- The bid is filled against the ask whose limit it is below. -/
theorem betweenRule (hidx : c.priceToIndex p < c.numLevels)
    (hp : c.priceAt (c.priceToIndex p) < p) :
    SparingRule c record .buy
      (fun o w => (o.quantity = 1 ∧ w = ⟨betweenBook c p, []⟩) ∨
        FilledAt (c.priceAt (c.priceToIndex p)) w.env)
      (fun idx o w => (idx = c.priceToIndex p ∧ o.quantity = 1 ∧ w = ⟨betweenBook c p, []⟩) ∨
        FilledAt (c.priceAt (c.priceToIndex p)) w.env) := by
  have hask := bestAsk_betweenBook hp
  refine sparingRule_observe ?_ ?_ ?_
  · rintro o w - - (⟨hq, rfl⟩ | h) -
    · refine Or.inl ⟨?_, hq, rfl⟩
      show (betweenBook c p).config.priceToIndex (betweenBook c p).bestAsk = _
      rw [hask, config_betweenBook, c.priceToIndex_priceAt hidx]
    · exact Or.inr h
  · rintro idx o w n rest - - (⟨rfl, -, rfl⟩ | ⟨r, hr, h⟩) hfront -
    · have hfront' := (asks_betweenBook hidx).symm.trans hfront
      obtain ⟨rfl, -⟩ := List.cons.inj hfront'
      exact Or.inr ⟨_, List.mem_append_right _ List.mem_cons_self, rfl, hask⟩
    · exact Or.inr ⟨r, List.mem_append_left _ (List.mem_append_left _ hr), h⟩
  · rintro idx o w - - (⟨rfl, hq, rfl⟩ | h) hg
    · refine absurd ⟨?_, ?_⟩ hg
      · show ((betweenBook c p).levels .sell (c.priceToIndex p)).orders ≠ []
        rw [asks_betweenBook hidx]
        exact List.cons_ne_nil _ _
      · rw [hq]; exact Int.one_pos
    · exact Or.inr h

/-- **The bad run.** -/
theorem exists_runBook_between (hmin : 0 ≤ c.minPrice) (hidx : c.priceToIndex p < c.numLevels)
    (hp : c.priceAt (c.priceToIndex p) < p) :
    ∃ s, Converges (runBook c record [] (betweenOps c p)) (.ok s) ∧
      FilledAt (c.priceAt (c.priceToIndex p)) s.1.env := by
  have hlevel := c.priceToIndex_priceAt hidx
  have hidx' : c.priceToIndex (c.priceAt (c.priceToIndex p)) < c.numLevels := hlevel.symm ▸ hidx
  obtain ⟨h₁, hb₁⟩ := @converges_run_ask (askAt p) (⟨new c, []⟩, []) rfl rfl Int.one_pos rfl hidx
  obtain ⟨h₂, -⟩ := @converges_run_ask (levelAsk c p) (⟨(new c).join (askAt p), []⟩, []) rfl rfl
    Int.one_pos hb₁ (by rw [config_join]; exact hidx')
  have hsound : Sound (betweenBook c p) :=
    Sound.join (Sound.join (o := askAt p) (sound_new c) Int.one_pos hidx) Int.one_pos
      (by rw [config_join]; exact hidx')
  obtain ⟨q, w', hm, -, hc', hG, hg⟩ := (betweenRule hidx hp).matchOrder (o := levelBid c p)
    (w := ⟨betweenBook c p, []⟩) rfl hsound config_betweenBook (Or.inl ⟨rfl, rfl⟩)
  have hadd := converges_addOrder (show OrderType.limit ≠ .cancel by decide) hm fun _ => by
    rw [hc']
    exact hidx'
  refine ⟨_, h₁.bind (h₂.bind ((hadd.bind (converges_const _)).bind (converges_const _))), ?_⟩
  have henv : (afterMatch ((levelBid c p).withQuantity q) w').env = w'.env := by
    rw [afterMatch]; split <;> rfl
  show FilledAt _ (afterMatch _ w').env
  rw [henv]
  rcases hG with ⟨hq, rfl⟩ | h
  · refine absurd ⟨?_, ?_, ?_⟩ hg
    · rw [hq]; exact Int.one_pos
    · show 0 ≤ (betweenBook c p).bestAsk
      rw [bestAsk_betweenBook hp]
      exact OrderBookConfig.priceAt_nonneg hmin _
    · exact (bestAsk_betweenBook hp).le
  · exact h

/-! ### Runs -/

/-- A run in which all prices are on the grid goes through aligned books. -/
theorem allowedFrom_aligned {ops : List BookOp} (hops : WellFormed c ops) :
    AllowedFrom (fun _ s => Aligned s.1.book) (BookOp.run record) ops (⟨new c, []⟩, []) :=
  @Allowed.allowedFrom _ _ _ _ (BookOp.run record) (BookOp.Ok c) BookOp.usedIds _
    (fun used s => Reaches c used s.1.book) (fun _ _ _ h hok => h.step hok)
    (fun _ _ _ h _ => h.aligned) _ _ _ (reaches_new c) hops

/-- **Limit prices.** In a run of limit orders at prices inside the range and of cancels, in which
every call finds all orders resting at the prices of their levels, every fill is within the limits
of its two orders. For any other price inside the range there is a run that breaks a limit. -/
theorem limitRespected_of_aligned (c : OrderBookConfig) (hmin : 0 ≤ c.minPrice) :
    (∀ ops, Allowed (BookOp.OkInRange c) BookOp.submitted [] ops →
      AllowedFrom (fun _ s => Aligned s.1.book) (BookOp.run record) ops (⟨new c, []⟩, []) →
      ∃ s, Converges (runBook c record [] ops) (.ok s) ∧
        LimitRespected (ops.foldl BookOp.submitted []) s.1.env) ∧
    ∀ p, c.minPrice ≤ p → p ≤ c.maxPrice → ¬ c.OnGrid p →
      ∃ ops, Allowed (BookOp.OkInRange c) BookOp.submitted [] ops ∧
        ∃ s, Converges (runBook c record [] ops) (.ok s) ∧
          ¬ LimitRespected (ops.foldl BookOp.submitted []) s.1.env := by
  refine ⟨fun ops hops ha => ?_, fun p hp hp' hgrid => ?_⟩
  · obtain ⟨s, hs, h⟩ := @converges_runList_of_allowedFrom _ _ _ _ (BookOp.run record)
      (BookOp.OkInRange c) BookOp.submitted (fun _ s => Aligned s.1.book)
      (fun orders s => Limits c orders s.1) (fun _ _ _ h hok ha => h.step hok ha) _ _ _
      (limits_new c) hops ha
    exact ⟨s, hs, h.accepted.limitRespected h.distinct⟩
  · have hidx := OrderBookConfig.priceToIndex_lt_of_le hp hp'
    have hlt := OrderBookConfig.priceAt_priceToIndex_lt hp hp' hgrid
    have hlow := c.minPrice_le_priceAt (c.priceToIndex p)
    have hhigh : c.priceAt (c.priceToIndex p) ≤ c.maxPrice := hlt.le.trans hp'
    obtain ⟨s, hs, r, hr, hid, hprice⟩ := exists_runBook_between hmin hidx hlt
    refine ⟨betweenOps c p, ⟨⟨rfl, Int.one_pos, hp, hp', nofun⟩,
      ⟨rfl, Int.one_pos, hlow, hhigh, ?_⟩, ⟨rfl, Int.one_pos, hlow, hhigh, ?_⟩, trivial⟩, s, hs,
      fun h => ?_⟩
    · intro o' ho'
      rw [List.mem_singleton.mp ho']
      exact show (1 : ℕ) ≠ 2 by decide
    · intro o' ho'
      rcases List.mem_cons.mp ho' with rfl | ho'
      · exact show (1 : ℕ) ≠ 3 by decide
      · rw [List.mem_singleton.mp ho']
        exact show (2 : ℕ) ≠ 3 by decide
    · have hcross : p ≤ r.price := h r hr (askAt p) List.mem_cons_self (Or.inl hid.symm)
      omega

/-- With tick size 10, a bid at 10 sweeps two asks at 10. -/
theorem limitRespected_of_aligned_example :
    ∃ s, Converges (runBook ⟨0, 100, 10, by decide, by decide, by decide⟩ record []
        [.add ⟨1, 1, 10, 5, .sell, .limit⟩, .add ⟨2, 1, 10, 5, .sell, .limit⟩,
          .add ⟨3, 1, 10, 8, .buy, .limit⟩]) (.ok s) ∧
      LimitRespected ([BookOp.add ⟨1, 1, 10, 5, .sell, .limit⟩,
        .add ⟨2, 1, 10, 5, .sell, .limit⟩, .add ⟨3, 1, 10, 8, .buy, .limit⟩].foldl
          BookOp.submitted []) s.1.env :=
  (limitRespected_of_aligned _ (by decide)).1 _
    ⟨⟨rfl, by decide, by decide, by decide, by decide⟩,
      ⟨rfl, by decide, by decide, by decide, by decide⟩,
      ⟨rfl, by decide, by decide, by decide, by decide⟩, trivial⟩
    (allowedFrom_aligned
      ⟨fun _ => ⟨by decide, ⟨1, by decide, by decide⟩, by decide⟩,
        fun _ => ⟨by decide, ⟨1, by decide, by decide⟩, by decide⟩,
        fun _ => ⟨by decide, ⟨1, by decide, by decide⟩, by decide⟩, trivial⟩)

/-- An ask at 15 and one at 10 share the level of 10. The bid at 10 is filled against the first. -/
theorem runBook_breaks_limit :
    Allowed (BookOp.OkInRange ⟨0, 100, 10, by decide, by decide, by decide⟩) BookOp.submitted []
        [.add ⟨1, 1, 15, 1, .sell, .limit⟩, .add ⟨2, 1, 10, 1, .sell, .limit⟩,
          .add ⟨3, 1, 10, 1, .buy, .limit⟩] ∧
      ∃ s, runBook ⟨0, 100, 10, by decide, by decide, by decide⟩ record []
          [.add ⟨1, 1, 15, 1, .sell, .limit⟩, .add ⟨2, 1, 10, 1, .sell, .limit⟩,
            .add ⟨3, 1, 10, 1, .buy, .limit⟩] 5 = .ok s ∧
        ¬ LimitRespected ([BookOp.add ⟨1, 1, 15, 1, .sell, .limit⟩,
          .add ⟨2, 1, 10, 1, .sell, .limit⟩, .add ⟨3, 1, 10, 1, .buy, .limit⟩].foldl
            BookOp.submitted []) s.1.env :=
  ⟨⟨⟨rfl, by decide, by decide, by decide, by decide⟩,
    ⟨rfl, by decide, by decide, by decide, by decide⟩,
    ⟨rfl, by decide, by decide, by decide, by decide⟩, trivial⟩, by decide +kernel⟩

end OrderBook

end MiniTrader
