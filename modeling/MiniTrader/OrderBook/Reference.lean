import MiniTrader.Lib.StableSort
import MiniTrader.OrderBook.Fills

/-!
# The book refines a naive reference

What a price-time priority book is for, stated without levels, caches, iterators or an id map: one
list of open orders in order of arrival. An incoming order is matched greedily with the opposite
orders within its limit, sorted by best price and then by arrival, and what is left of it joins the
list. Best prices and depths are maxima, minima and sums over the list.

The simulation relation is `Represents`: the queue of each level is the sublist of the open orders
of its side and price. Two facts carry the proof.

* The queue of `OrderBook.matchQueue` is the sorted list of the reference
  (`map_matchQueue`): its levels come best first, and a stably sorted list is determined by its
  buckets.
* A call settles its fills in the queues of the book (`exists_addOrder`), and that is the same as
  settling them in the list of open orders (`Called.represents`).

## Main definitions

* `Reference`, `Reference.submit`, `Reference.cancel`, `Reference.step`
* `Represents` — the simulation relation
* `Agrees` — what can be observed of the two

## Main results

* `map_matchQueue`
* `represents_submit` — one incoming order
* `agrees_of_wellFormed` — all runs
-/

namespace MiniTrader

open Fuelled StableSort

/-- Where a price stands among the orders resting on a side: less is better. -/
def Side.rank (s : Side) (price : ℤ) : ℤ :=
  match s with
  | .buy => -price
  | .sell => price

theorem Side.rank_inj {s : Side} {p q : ℤ} : s.rank p = s.rank q ↔ p = q := by
  cases s <;> simp [rank]

/-! ### The reference -/

/-- A naive book: the open orders in order of arrival, with what has been reported and what the
cancels returned. -/
structure Reference where
  live : List Order
  reports : List ExecutionReport
  results : List Bool

namespace Reference

/-- The opposite orders an incoming order can trade with, by best price and then by arrival. -/
def opposite (r : Reference) (side : Side) (price : ℤ) : List Order :=
  (r.live.filter fun o => o.side = side.opp ∧ side.Crosses price o.price).insertionSort
    fun o o' => side.opp.rank o.price ≤ side.opp.rank o'.price

/-- An incoming limit order. -/
def submit (r : Reference) (o : Order) : Reference :=
  let fills := greedy o.quantity (r.opposite o.side o.price)
  let left := o.quantity - filled fills
  { r with
    live := fills.foldl settle r.live ++ if 0 < left then [o.withQuantity left] else []
    reports := r.reports ++ fills.flatMap (fillReports o) }

/-- Taking an order out of the list. -/
def remove (r : Reference) (orderId : ℕ) : Reference :=
  { r with live := r.live.filter fun o => o.orderId ≠ orderId }

/-- A cancel succeeds if the order is open. -/
def cancel (r : Reference) (orderId : ℕ) : Reference :=
  { r.remove orderId with
    results := r.results ++ [r.live.any fun o => o.orderId = orderId] }

/-- One call. A `Cancel` order cancels, and nobody learns whether it did. -/
def step (r : Reference) : OrderBook.BookOp → Reference
  | .add o => if o.type = .cancel then r.remove o.orderId else r.submit o
  | .cancel orderId => r.cancel orderId

/-- The prices of a side. -/
def prices (r : Reference) (s : Side) : List ℤ :=
  (r.live.filter fun o => o.side = s).map Order.price

/-- The highest bid. -/
def bestBid (r : Reference) : Option ℤ := (r.prices .buy).max?

/-- The lowest ask. -/
def bestAsk (r : Reference) : Option ℤ := (r.prices .sell).min?

/-- The spread, or `-1` when a side is empty. -/
def spread (r : Reference) : ℤ :=
  match r.bestBid, r.bestAsk with
  | some bid, some ask => ask - bid
  | _, _ => -1

/-- The depth at a price. -/
def quantityAt (r : Reference) (price : ℤ) (s : Side) : ℤ :=
  ((r.live.filter fun o => o.side = s ∧ o.price = price).map Order.quantity).sum

/-- The empty book. -/
def new : Reference := ⟨[], [], []⟩

end Reference

namespace OrderBook

variable {b b' : OrderBook} {s t side : Side} {i j : ℕ} {n m : Node} {price : ℤ}
  {live : List Order}

/-! ### The simulation relation -/

/-- The queues of the book are the open orders by side and price. -/
structure Represents (b : OrderBook) (live : List Order) : Prop where
  queue : ∀ s i, (b.levels s i).orders.map Node.order =
    live.filter fun o => o.side = s ∧ o.price = b.config.priceAt i
  grid : ∀ o ∈ live, b.config.OnGrid o.price

theorem represents_new (c : OrderBookConfig) : Represents (new c) [] where
  queue s i := by cases s <;> rfl
  grid o h := by cases h

theorem Represents.congr (h : Represents b live) (hc : b'.config = b.config)
    (hl : ∀ s, b'.levels s = b.levels s) : Represents b' live where
  queue s i := by rw [hl, hc]; exact h.queue s i
  grid o ho := by rw [hc]; exact h.grid o ho

/-- Every open order rests. -/
theorem Represents.mem_iff (h : Represents b live) {o : Order} :
    o ∈ live ↔ ∃ s i, ∃ n ∈ (b.levels s i).orders, n.order = o := by
  constructor
  · intro ho
    obtain ⟨k, -, hk⟩ := OrderBookConfig.onGrid_iff.mp (h.grid o ho)
    have : o ∈ (b.levels o.side k).orders.map Node.order := by
      rw [h.queue]; exact List.mem_filter.mpr ⟨ho, by simp [hk]⟩
    obtain ⟨n, hn, rfl⟩ := List.mem_map.mp this
    exact ⟨_, _, n, hn, rfl⟩
  · rintro ⟨s, i, n, hn, rfl⟩
    have := List.mem_map_of_mem (f := Node.order) hn
    rw [h.queue] at this
    exact (List.mem_filter.mp this).1

theorem Represents.unlink (h : Represents b live) (hb : Coherent b) (hl : Located b)
    (hn : n ∈ (b.levels s i).orders) :
    Represents (b.unlink s i n) (live.filter fun o => o.orderId ≠ n.order.orderId) where
  queue t j := by
    rw [map_unlink hb hl hn, h.queue, config_unlink, List.filter_filter, List.filter_filter]
    exact List.filter_congr fun o _ => Bool.and_comm _ _
  grid o ho := by rw [config_unlink]; exact h.grid o (List.mem_of_mem_filter ho)

theorem Represents.join {o : Order} (h : Represents b live) (hgrid : b.config.OnGrid o.price) :
    Represents (b.join o) (live ++ [o]) where
  queue t j := by
    obtain ⟨k, hk, hprice⟩ := OrderBookConfig.onGrid_iff.mp hgrid
    have hidx : b.config.priceToIndex o.price = k := by
      rw [hprice, b.config.priceToIndex_priceAt hk]
    rw [levels_join, config_join, List.filter_append, ← h.queue]
    by_cases hh : t = o.side ∧ j = b.config.priceToIndex o.price
    · obtain ⟨rfl, rfl⟩ := hh
      rw [levels_link_self, hidx]
      simp [PriceLevel.addOrder, hprice]
    · rw [levels_link_of_ne hh]
      rw [hidx] at hh
      have : ¬ (o.side = t ∧ o.price = b.config.priceAt j) := by
        rintro ⟨rfl, he⟩
        rw [hprice, OrderBookConfig.priceAt_inj] at he
        exact hh ⟨rfl, he.symm⟩
      simp [this]
  grid o' ho' := by
    rw [config_join]
    rcases List.mem_append.mp ho' with ho' | ho'
    · exact h.grid o' ho'
    · rw [List.mem_singleton.mp ho']; exact hgrid

/-! ### The queue of a match is the sorted list -/

/-- A better level is within the limit when a worse one is. -/
theorem crosses_of_farther {c : OrderBookConfig} (h : Farther side.opp i j)
    (hc : side.Crosses price (c.priceAt j)) : side.Crosses price (c.priceAt i) := by
  have := @OrderBookConfig.priceAt_lt_priceAt c i j
  have := @OrderBookConfig.priceAt_lt_priceAt c j i
  cases side <;> simp only [Side.opp, Farther, Side.Crosses] at * <;> omega

theorem pairwise_levelsBeyond : (b.levelsBeyond side price i).Pairwise (Farther side.opp) :=
  ((pairwise_beyond b.config side.opp i).filter _).sublist (List.takeWhile_sublist _)

theorem mem_levelsBeyond (hp : b.config.Priced) (hb : Coherent b) (hi : i < b.config.numLevels) :
    j ∈ b.levelsBeyond side price i ↔ Farther side.opp i j ∧ Occupied b side.opp j ∧
      side.Crosses price (b.config.priceAt j) := by
  have hnn := OrderBookConfig.priceAt_nonneg (c := b.config) hp.nonneg
  have hocc : (!(b.levels side.opp j).empty) = true ↔ Occupied b side.opp j := by
    rw [Occupied, Bool.not_eq_true', ← Bool.not_eq_true, ne_eq, PriceLevel.empty_iff]
  rw [levelsBeyond, mem_takeWhile_iff ((pairwise_beyond b.config side.opp i).filter _),
    List.mem_filter, decide_eq_true_eq, hocc]
  · constructor
    · rintro ⟨⟨hj, hoj⟩, -, hcj⟩
      exact ⟨farther_of_mem_beyond hj, hoj, hcj⟩
    · rintro ⟨hf, hoj, hcj⟩
      exact ⟨⟨mem_beyond hp hf hi (hb.lt_of_occupied hoj), hoj⟩, hnn j, hcj⟩
  · intro k l hkl hl
    rw [decide_eq_true_eq] at hl ⊢
    exact ⟨hnn k, crosses_of_farther hkl hl.2⟩

/-- In a tidy book the queue visits the occupied levels within the limit, best first. -/
theorem Tidy.exists_levels_matchQueue (h : Tidy b) (hp : b.config.Priced) (hb : Coherent b)
    (side : Side) (price : ℤ) :
    ∃ js : List ℕ, b.matchQueue side price = js.flatMap (fun j => (b.levels side.opp j).orders) ∧
      js.Pairwise (Farther side.opp) ∧
      ∀ j, j ∈ js ↔ Occupied b side.opp j ∧ side.Crosses price (b.config.priceAt j) := by
  rcases h.best side.opp with ⟨hnil, hnone⟩ | ⟨idx, hat, ho⟩
  · refine ⟨[], ?_, List.Pairwise.nil, fun j => ?_⟩
    · rw [matchQueue, if_neg (by omega)]; rfl
    · simp [hnone j]
  have hnn := OrderBookConfig.priceAt_nonneg (c := b.config) hp.nonneg idx
  by_cases hcross : side.Crosses price (b.config.priceAt idx)
  · refine ⟨idx :: b.levelsBeyond side price idx, ?_, ?_, fun j => ?_⟩
    · rw [matchQueue, hat.best, if_pos ⟨hnn, hcross⟩, b.config.priceToIndex_priceAt hat.lt]
      rfl
    · exact List.pairwise_cons.mpr
        ⟨fun j hj => ((mem_levelsBeyond hp hb hat.lt).mp hj).1, pairwise_levelsBeyond⟩
    · rw [List.mem_cons, mem_levelsBeyond hp hb hat.lt]
      constructor
      · rintro (rfl | ⟨-, hj⟩)
        · exact ⟨ho, hcross⟩
        · exact hj
      · rintro ⟨hoj, hcj⟩
        rcases farther_trichotomy side.opp idx j with hf | rfl | hf
        · exact Or.inr ⟨hf, hoj, hcj⟩
        · exact Or.inl rfl
        · exact absurd hoj (hat.better j hf)
  · refine ⟨[], ?_, List.Pairwise.nil, fun j => ?_⟩
    · rw [matchQueue, hat.best, if_neg fun hh => hcross hh.2]; rfl
    · simp only [List.not_mem_nil, false_iff]
      rintro ⟨hoj, hcj⟩
      rcases farther_trichotomy side.opp idx j with hf | rfl | hf
      · exact hcross (crosses_of_farther hf hcj)
      · exact hcross hcj
      · exact hat.better j hf hoj

/-- The open orders of a side within a limit and at one price. -/
theorem filter_opposite {r : Reference} (h : Represents b r.live) (side : Side) (price : ℤ)
    (j : ℕ) :
    (r.opposite side price).filter
        (fun o => side.opp.rank o.price = side.opp.rank (b.config.priceAt j)) =
      if side.Crosses price (b.config.priceAt j) then
        (b.levels side.opp j).orders.map Node.order else [] := by
  rw [Reference.opposite, filter_insertionSort _ _ _ (by simp +contextual), h.queue,
    List.filter_filter]
  split
  · rename_i hcross
    refine List.filter_congr fun o _ => ?_
    simp only [Side.rank_inj, Bool.decide_and]
    by_cases he : o.price = b.config.priceAt j <;> simp [he, hcross]
  · rename_i hcross
    rw [List.filter_eq_nil_iff]
    simp only [Side.rank_inj, Bool.decide_and, Bool.and_eq_true, decide_eq_true_eq]
    rintro o - ⟨he, -, hc⟩
    exact hcross (he ▸ hc)

/-- **The queue of a match is the sorted list of the reference.** -/
theorem map_matchQueue {r : Reference} (h : Represents b r.live) (ht : Tidy b)
    (hp : b.config.Priced) (hb : Coherent b) (side : Side) (price : ℤ) :
    (b.matchQueue side price).map Node.order = r.opposite side price := by
  obtain ⟨js, hq, hsorted, hmem⟩ := ht.exists_levels_matchQueue hp hb side price
  have hkey : ∀ j, ∀ o ∈ (b.levels side.opp j).orders.map Node.order,
      side.opp.rank o.price = side.opp.rank (b.config.priceAt j) := by
    intro j o ho
    obtain ⟨n, hn, rfl⟩ := List.mem_map.mp ho
    rw [ht.aligned _ _ n hn]
  have hle : ∀ i j, Farther side.opp i j →
      side.opp.rank (b.config.priceAt i) ≤ side.opp.rank (b.config.priceAt j) := by
    intro i j hij
    have := @OrderBookConfig.priceAt_lt_priceAt b.config i j
    have := @OrderBookConfig.priceAt_lt_priceAt b.config j i
    cases side <;> simp only [Side.opp, Side.rank, Farther] at * <;> omega
  rw [hq, List.map_flatMap]
  refine eq_of_filter_key_eq (fun o : Order => side.opp.rank o.price) ?_ ?_ fun k => ?_
  · rw [List.pairwise_flatMap]
    refine ⟨fun j _ => List.pairwise_of_forall_mem_list fun x hx y hy => ?_,
      hsorted.imp fun hij x hx y hy => ?_⟩
    · rw [hkey j x hx, hkey j y hy]
    · rw [hkey _ x hx, hkey _ y hy]
      exact hle _ _ hij
  · exact List.pairwise_insertionSort (r := fun o o' : Order =>
      side.opp.rank o.price ≤ side.opp.rank o'.price) _
  · by_cases hk : ∃ j, k = side.opp.rank (b.config.priceAt j)
    · obtain ⟨j, rfl⟩ := hk
      have hnd : js.Nodup := hsorted.imp fun {i j} hij (he : i = j) => farther_irrefl (he ▸ hij)
      rw [filter_opposite h, filter_flatMap_of_key (fun o : Order => side.opp.rank o.price)
        (fun j => (b.levels side.opp j).orders.map Node.order)
        (fun j => side.opp.rank (b.config.priceAt j)) hkey hnd
        (fun j j' he => OrderBookConfig.priceAt_inj.mp (Side.rank_inj.mp he))]
      by_cases hcross : side.Crosses price (b.config.priceAt j)
      · rw [if_pos hcross]
        split
        · rfl
        · rename_i hj
          have : ¬ Occupied b side.opp j := fun ho => hj ((hmem j).mpr ⟨ho, hcross⟩)
          rw [not_not.mp this, List.map_nil]
      · rw [if_neg hcross, if_neg fun hj => hcross ((hmem j).mp hj).2]
    · rw [List.filter_eq_nil_iff.mpr, List.filter_eq_nil_iff.mpr]
      · intro o ho
        rw [Reference.opposite, List.mem_insertionSort, List.mem_filter] at ho
        obtain ⟨j, -, hj⟩ := OrderBookConfig.onGrid_iff.mp (h.grid o ho.1)
        rw [decide_eq_true_eq]
        exact fun he => hk ⟨j, by rw [← he, hj]⟩
      · intro o ho
        obtain ⟨j, -, hj⟩ := List.mem_flatMap.mp ho
        rw [decide_eq_true_eq]
        exact fun he => hk ⟨j, by rw [← he, hkey j o hj]⟩

/-! ### One incoming order -/

open Reference

/-- The callback that records every report. -/
def record : FillCallback (List ExecutionReport) := observe fun r log => log ++ [r]

variable {ε : Type} {c : OrderBookConfig} {r : Reference} {f : ExecutionReport → ε → ε}
  {w w' : World ε} {o : Order}

/-- What a call settles in the queues it settles in the open orders. -/
theorem Called.represents (h : Called f o w w') (hc : w'.book.config = w.book.config)
    (hrep : Represents w.book live) :
    Represents w'.book ((w.book.reachableFills o).foldl settle live) where
  queue s i := by
    rw [h.queue, hrep.queue, hc]
    exact (filter_foldl_settle (fun _ _ => rfl) _ _).symm
  grid o ho := by
    obtain ⟨o', ho', he⟩ := exists_mem_of_mem_foldl_settle ho
    rw [hc, ← he]
    exact hrep.grid o' ho'

/-- **One incoming limit order.** -/
theorem represents_submit {used : List ℕ} {w : World (List ExecutionReport)}
    (hp : c.Priced) (h : Reaches c used w.book) (hok : (BookOp.add o).Ok c used)
    (htype : o.type = .limit) (hrep : Represents w.book r.live) (henv : w.env = r.reports) :
    ∃ w', Converges (fun fuel => addOrder record fuel o w) (.ok w') ∧
      Reaches c (BookOp.usedIds used (.add o)) w'.book ∧
      Represents w'.book (r.submit o).live ∧ w'.env = (r.submit o).reports := by
  have ht := h.tidy hp
  have hfills : w.book.reachableFills o = greedy o.quantity (r.opposite o.side o.price) := by
    rw [reachableFills, map_matchQueue hrep ht (h.config_eq ▸ hp) h.sound.coherent]
  obtain ⟨w', hm, hr, -, hr', hcalled⟩ := exists_addOrder (f := fun r log => log ++ [r]) h
    ht.gridCached hok (by rw [htype]; decide)
  have hrep' := hcalled.represents (hr.config_eq.trans h.config_eq.symm) hrep
  have henv' := hcalled.reports
  rw [hfills] at hm hr' hrep' henv'
  rw [henv] at henv'
  refine ⟨_, hm, hr', ?_, ?_⟩
  · rw [submit, OrderBook.afterMatch]
    simp only [Order.quantity_withQuantity, Order.type_withQuantity, htype, and_true]
    split
    · rw [World.book_withBook]
      exact hrep'.join (by rw [hr.config_eq]; exact (hok htype).2.1)
    · rw [List.append_nil]; exact hrep'
  · rw [OrderBook.afterMatch]
    split
    · rw [World.env_withBook]; exact henv'
    · exact henv'

/-! ### All runs -/

/-- The open orders after a cancel. -/
theorem represents_cancel {id : ℕ} {res : Bool} (hb : Coherent b) (hl : Located b)
    (h : Represents b r.live) (hc : b.cancelOrder id = .ok (res, b')) :
    Represents b' (r.remove id).live ∧ res = r.live.any fun o => o.orderId = id := by
  rcases hb.exists_cancelOrder id with ⟨hnone, hc'⟩ | ⟨s, i, n, hn, rfl, hc'⟩
  · rw [hc'] at hc
    cases hc
    have hne : ∀ o ∈ r.live, o.orderId ≠ id := by
      intro o ho
      obtain ⟨s, i, n, hn, rfl⟩ := h.mem_iff.mp ho
      exact hl.notResting trivial hnone s i n hn
    refine ⟨?_, ?_⟩
    · have : (r.remove id).live = r.live :=
        List.filter_eq_self.mpr fun o ho => by simpa using hne o ho
      rw [this]
      exact h
    · rw [eq_comm, List.any_eq_false]
      exact fun o ho => by simpa using hne o ho
  · rw [hc'] at hc
    cases hc
    refine ⟨(h.unlink hb hl hn).congr (by simp) fun s => levels_refreshBest, ?_⟩
    rw [eq_comm, List.any_eq_true]
    exact ⟨n.order, h.mem_iff.mpr ⟨s, i, n, hn, rfl⟩, by simp⟩

/-- The state of a run and the reference it is compared with. -/
structure Simulates (c : OrderBookConfig) (g : List ℕ × Reference)
    (s : World (List ExecutionReport) × List Bool) : Prop where
  reaches : Reaches c g.1 s.1.book
  represents : Represents s.1.book g.2.live
  reports : s.1.env = g.2.reports
  results : s.2 = g.2.results

/-- **One call** of the book is one step of the reference. -/
theorem Simulates.step {g : List ℕ × Reference} {s : World (List ExecutionReport) × List Bool}
    {op : BookOp} (hp : c.Priced) (h : Simulates c g s) (hok : op.Ok c g.1)
    (hlimit : ∀ o, op = .add o → o.type ≠ .market) :
    ∃ s', Converges (fun fuel => op.run record fuel s) (.ok s') ∧
      Simulates c (op.usedIds g.1, g.2.step op) s' := by
  obtain ⟨hr, hrep, hreports, hresults⟩ := h
  cases op with
  | add o =>
    by_cases htype : o.type = .cancel
    · obtain ⟨res, b', hc⟩ := hr.sound.coherent.cancelOrder_ok o.orderId
      obtain ⟨hrep', -⟩ := represents_cancel hr.sound.coherent hr.located hrep hc
      refine ⟨(s.1.withBook b', s.2), ?_, ?_, ?_, ?_, ?_⟩
      · simp only [BookOp.run, addOrder_cancel htype hc]
        exact converges_const _
      · rw [BookOp.usedIds, if_neg (by rw [htype]; decide)]
        exact hr.cancelOrder hc
      all_goals simp only [Reference.step, if_pos htype]
      · exact hrep'
      · exact hreports
      · exact hresults
    · have hl : o.type = .limit := by
        cases ht : o.type with
        | limit => rfl
        | market => exact absurd ht (hlimit o rfl)
        | cancel => exact absurd ht htype
      obtain ⟨w', hm, hr', hrep', henv'⟩ := represents_submit hp hr hok hl hrep hreports
      refine ⟨(w', s.2), hm.bind (converges_const _), hr', ?_, ?_, ?_⟩
      all_goals simp only [Reference.step, if_neg htype]
      · exact hrep'
      · exact henv'
      · exact hresults
  | cancel id =>
    obtain ⟨res, b', hc⟩ := hr.sound.coherent.cancelOrder_ok id
    obtain ⟨hrep', rfl⟩ := represents_cancel hr.sound.coherent hr.located hrep hc
    refine ⟨(s.1.withBook b', s.2 ++ [g.2.live.any fun o => o.orderId = id]), ?_,
      hr.cancelOrder hc, hrep', hreports, ?_⟩
    · simp only [BookOp.run, hc]
      exact converges_const _
    · rw [hresults]; rfl

/-! ### What can be observed -/

/-- The book and the reference have reported the same, answered the same, and show the same best
prices, spread and depths. -/
structure Agrees (c : OrderBookConfig) (s : World (List ExecutionReport) × List Bool)
    (r : Reference) : Prop where
  reports : s.1.env = r.reports
  results : s.2 = r.results
  bestBid : s.1.book.bestBid = r.bestBid.getD (-1)
  bestAsk : s.1.book.bestAsk = r.bestAsk.getD (-1)
  spread : s.1.book.spread = r.spread
  quantityAt : ∀ p, c.OnGrid p → ∀ side, s.1.book.quantityAt p side = r.quantityAt p side

/-- The prices of the open orders are the prices of the occupied levels. -/
theorem Represents.mem_prices (h : Represents b r.live) {p : ℤ} :
    p ∈ r.prices s ↔ ∃ i, Occupied b s i ∧ b.config.priceAt i = p := by
  simp only [Reference.prices, List.mem_map, List.mem_filter, decide_eq_true_eq]
  constructor
  · rintro ⟨o, ⟨ho, rfl⟩, rfl⟩
    obtain ⟨k, -, hk⟩ := OrderBookConfig.onGrid_iff.mp (h.grid o ho)
    refine ⟨k, fun hnil => ?_, hk.symm⟩
    have := h.queue o.side k
    rw [hnil, List.map_nil, eq_comm, List.filter_eq_nil_iff] at this
    exact this o ho (by simp [hk])
  · rintro ⟨i, hi, rfl⟩
    obtain ⟨n, hn⟩ := List.exists_mem_of_ne_nil _ hi
    have := List.mem_map_of_mem (f := Node.order) hn
    rw [h.queue, List.mem_filter] at this
    simp only [decide_eq_true_eq] at this
    exact ⟨n.order, ⟨this.1, this.2.1⟩, this.2.2⟩

/-- The cached best price is the best of the prices of the open orders. -/
theorem Represents.best_cases (h : Represents b r.live) (ht : Tidy b) (s : Side) :
    (b.best s = -1 ∧ r.prices s = []) ∨
      (b.best s ∈ r.prices s ∧ ∀ p ∈ r.prices s, ¬ s.Better p (b.best s)) := by
  rcases ht.best s with ⟨hnil, hnone⟩ | ⟨idx, hat, ho⟩
  · refine Or.inl ⟨hnil, List.eq_nil_iff_forall_not_mem.mpr fun p hp => ?_⟩
    obtain ⟨i, hi, -⟩ := h.mem_prices.mp hp
    exact hnone i hi
  · refine Or.inr ⟨h.mem_prices.mpr ⟨idx, ho, hat.best.symm⟩, fun p hp hbetter => ?_⟩
    obtain ⟨i, hi, rfl⟩ := h.mem_prices.mp hp
    refine hat.better i ?_ hi
    rw [hat.best] at hbetter
    cases s <;> simpa [Side.Better, Farther] using hbetter

theorem Represents.bestBid (h : Represents b r.live) (ht : Tidy b) :
    b.bestBid = r.bestBid.getD (-1) := by
  rcases h.best_cases ht .buy with ⟨hb, hnil⟩ | ⟨hmem, hbest⟩
  · rw [Reference.bestBid, hnil]; exact hb
  · have : r.bestBid = some b.bestBid :=
      List.max?_eq_some_iff.mpr ⟨hmem, fun p hp => not_lt.mp (hbest p hp)⟩
    rw [this]; rfl

theorem Represents.bestAsk (h : Represents b r.live) (ht : Tidy b) :
    b.bestAsk = r.bestAsk.getD (-1) := by
  rcases h.best_cases ht .sell with ⟨hb, hnil⟩ | ⟨hmem, hbest⟩
  · rw [Reference.bestAsk, hnil]; exact hb
  · have : r.bestAsk = some b.bestAsk :=
      List.min?_eq_some_iff.mpr ⟨hmem, fun p hp => not_lt.mp (hbest p hp)⟩
    rw [this]; rfl

/-- No open order has a negative price, so `-1` means that a side is empty. -/
theorem Represents.prices_nonneg (h : Represents b r.live) (hp : b.config.Priced) {p : ℤ}
    (hmem : p ∈ r.prices s) : 0 ≤ p := by
  obtain ⟨i, -, rfl⟩ := h.mem_prices.mp hmem
  exact OrderBookConfig.priceAt_nonneg hp.nonneg i

theorem Represents.spread (h : Represents b r.live) (ht : Tidy b) (hp : b.config.Priced) :
    b.spread = r.spread := by
  rw [OrderBook.spread, Reference.spread, h.bestBid ht, h.bestAsk ht]
  cases hbid : r.bestBid with
  | none => simp
  | some bid =>
    have hbid' : 0 ≤ bid := h.prices_nonneg hp (List.max?_eq_some_iff.mp hbid).1
    cases hask : r.bestAsk with
    | none => simp
    | some ask =>
      have hask' : 0 ≤ ask := h.prices_nonneg hp (List.min?_eq_some_iff.mp hask).1
      simp only [Option.getD_some]
      rw [if_neg (by omega)]

theorem Represents.quantityAt (h : Represents b r.live) (hb : Coherent b) {p : ℤ}
    (hgrid : b.config.OnGrid p) (side : Side) : b.quantityAt p side = r.quantityAt p side := by
  have hidx := hgrid.priceToIndex_lt
  rw [OrderBook.quantityAt]
  simp only [if_neg (not_le.mpr hidx)]
  rw [hb.total, PriceLevel.sumQuantity, Reference.quantityAt]
  have := h.queue side (b.config.priceToIndex p)
  rw [hgrid.priceAt_priceToIndex] at this
  rw [← this, List.map_map]
  rfl

theorem Simulates.agrees {g : List ℕ × Reference} {s : World (List ExecutionReport) × List Bool}
    (hp : c.Priced) (h : Simulates c g s) : Agrees c s g.2 := by
  obtain ⟨hr, hrep, hreports, hresults⟩ := h
  have ht := hr.tidy hp
  refine ⟨hreports, hresults, hrep.bestBid ht, hrep.bestAsk ht,
    hrep.spread ht (hr.config_eq ▸ hp), fun p hgrid side => ?_⟩
  exact hrep.quantityAt hr.sound.coherent (by rw [hr.config_eq]; exact hgrid) side

/-- Every run is simulated by a run of the reference. -/
theorem exists_simulates {ops : List BookOp} (hp : c.Priced) (hops : WellFormed c ops)
    (hlimit : ∀ o, BookOp.add o ∈ ops → o.type ≠ .market) :
    ∃ s used, Converges (runBook c record [] ops) (.ok s) ∧
      Simulates c (used, ops.foldl Reference.step Reference.new) s := by
  let next : List ℕ × Reference → BookOp → List ℕ × Reference :=
    fun g op => (op.usedIds g.1, g.2.step op)
  have hboth : Allowed (fun used op => BookOp.Ok c used op ∧ ∀ o, op = .add o → o.type ≠ .market)
      BookOp.usedIds [] ops :=
    Allowed.and_forall hops fun op hop o he => hlimit o (he ▸ hop)
  have hallowed : Allowed (fun g op => BookOp.Ok c g.1 op ∧ ∀ o, op = .add o → o.type ≠ .market)
      next ([], Reference.new) ops :=
    Allowed.comap (d := ([], Reference.new)) Prod.fst (fun _ _ => rfl) hboth
  have hnew : Simulates c ([], Reference.new) (⟨new c, []⟩, []) :=
    ⟨reaches_new c, represents_new c, rfl, rfl⟩
  obtain ⟨s, hs, hsim⟩ := @converges_runList _ _ _ _ (BookOp.run record) _ next (Simulates c)
    (fun g op s hg hok => Simulates.step hp hg hok.1 hok.2) _ _ _ hnew hallowed
  have hsnd : ops.foldl Reference.step Reference.new = (ops.foldl next ([], Reference.new)).2 :=
    @List.foldl_hom _ _ _ Prod.snd next Reference.step ops ([], Reference.new) fun _ _ => rfl
  exact ⟨s, _, hs, by rw [hsnd]; exact hsim⟩

/-- **The book refines the naive book**: in every sequence of calls, and after each of them, the
reports, the answers of `cancel_order`, the best prices, the spread and the depths are the same. -/
theorem agrees_of_wellFormed (c : OrderBookConfig) (hmin : 0 ≤ c.minPrice)
    (hlevels : c.numLevels ≤ 2 ^ 31) (ops : List BookOp) (hops : WellFormed c ops)
    (hlimit : ∀ o, BookOp.add o ∈ ops → o.type ≠ .market) (pre : List BookOp) (hpre : pre <+: ops) :
    ∃ s, Converges (runBook c record [] pre) (.ok s) ∧
      Agrees c s (pre.foldl Reference.step Reference.new) := by
  have hp : c.Priced := ⟨hmin, by omega⟩
  obtain ⟨post, rfl⟩ := hpre
  obtain ⟨s, used, hs, hsim⟩ := exists_simulates hp (Allowed.of_append hops) fun o ho =>
    hlimit o (List.mem_append_left _ ho)
  exact ⟨s, hs, hsim.agrees hp⟩

/-- Two levels swept by one order, the second one partly, and a cancel of the rest. -/
def sweepOps : List BookOp :=
  [.add ⟨1, 1, 10, 5, .sell, .limit⟩, .add ⟨2, 1, 8, 4, .sell, .limit⟩,
    .add ⟨3, 1, 10, 6, .buy, .limit⟩, .cancel 1]

theorem agrees_of_wellFormed_sweepOps :
    ∃ s, Converges (runBook ⟨0, 20, 2, by decide, by decide, by decide⟩ record [] sweepOps)
        (.ok s) ∧
      Agrees ⟨0, 20, 2, by decide, by decide, by decide⟩ s
        (sweepOps.foldl Reference.step Reference.new) :=
  agrees_of_wellFormed _ (by decide) (by decide) sweepOps
    ⟨fun _ => ⟨by decide, ⟨5, by decide, by decide⟩, by decide⟩,
      fun _ => ⟨by decide, ⟨4, by decide, by decide⟩, by decide⟩,
      fun _ => ⟨by decide, ⟨5, by decide, by decide⟩, by decide⟩, trivial, trivial⟩
    (by simp [sweepOps]) _ (List.prefix_refl _)

end OrderBook

end MiniTrader
