import MiniTrader.OrderBook.Reach

/-!
# Market orders

A market order comes with the price zero and is meant to trade at any price. `match` has no case for
it: it treats the zero as a limit. For a sell that is no limit at all as long as prices are not
negative. For a buy it is the lowest limit there can be, and nothing is bought above zero.

What decides is which levels the quantity comes to when it is filled from the best price outward
(`Needed`), and whether they are in reach of a match with the limit zero.

## Main definitions

* `Needed` — the levels that the quantity comes to
* `ExecutedAtAnyPrice` — what a market order is for

## Main results

* `reachableFills_eq_fullFills`, `inReach_of_reports_eq` — when everything needed is filled
* `executedAtAnyPrice_iff` — every market order in every reachable state
* `executedAtAnyPrice_sell` — sells, where the caches are exact
-/

namespace MiniTrader

open Fuelled

namespace OrderBook

open Reference

variable {b b' : OrderBook} {c : OrderBookConfig} {used : List ℕ} {side : Side} {i : ℕ} {o : Order}
  {n : Node} {w w' : World (List ExecutionReport)}

/-- What rests on the other side at a better price than that of a level. -/
def ahead (b : OrderBook) (side : Side) (i : ℕ) : ℤ :=
  total (((b.depth side).map Node.order).filter fun o =>
    side.opp.Better o.price (b.config.priceAt i))

/-- A level of the other side that a quantity comes to when it is filled from the best price
outward. -/
structure Needed (b : OrderBook) (side : Side) (q : ℤ) (i : ℕ) : Prop where
  occupied : Occupied b side.opp i
  short : b.ahead side i < q

/-- The fills of an order that is executed at any price. -/
def fullFills (b : OrderBook) (o : Order) : List (Order × ℤ) :=
  greedy o.quantity ((b.depth o.side).map Node.order)

/-- The quantity that the reports give to the incoming order. -/
def takenQuantity (reports : List ExecutionReport) : ℤ :=
  ((reports.filter fun r => !r.isMaker).map ExecutionReport.filledQuantity).sum

/-- The order trades with everything on the other side, from the best price outward and by arrival
within a level, until its quantity is used up; and nothing of it is left in the book. -/
structure ExecutedAtAnyPrice (o : Order) (w w' : World (List ExecutionReport)) : Prop where
  reports : w'.env = w.env ++ (w.book.fullFills o).flatMap (fillReports o)
  quantity : takenQuantity (w'.env.drop w.env.length) =
    min o.quantity (total ((w.book.depth o.side).map Node.order))
  queue : ∀ s i, (w'.book.levels s i).orders.map Node.order =
    (w.book.fullFills o).foldl settle ((w.book.levels s i).orders.map Node.order)
  within : RestsWithin w'.book w.book

/-! ### The other side in its order -/

/-- A better price is never behind a worse one. -/
theorem pairwise_depth (ha : Aligned b) (side : Side) : ((b.depth side).map Node.order).Pairwise
    fun o o' => ¬ side.opp.Better o'.price o.price := by
  rw [depth, List.map_flatMap, List.pairwise_flatMap]
  refine ⟨fun i _ => ?_, (pairwise_outward _ _).imp fun {i j} hij => ?_⟩
  · refine List.pairwise_of_forall_mem_list fun o ho o' ho' => ?_
    obtain ⟨n, hn, rfl⟩ := List.mem_map.mp ho
    obtain ⟨m, hm, rfl⟩ := List.mem_map.mp ho'
    rw [ha _ _ n hn, ha _ _ m hm]
    cases side <;> exact lt_irrefl _
  · intro o ho o' ho'
    obtain ⟨n, hn, rfl⟩ := List.mem_map.mp ho
    obtain ⟨m, hm, rfl⟩ := List.mem_map.mp ho'
    rw [ha _ _ n hn, ha _ _ m hm]
    have hlt := @OrderBookConfig.priceAt_lt_priceAt b.config i j
    have hlt' := @OrderBookConfig.priceAt_lt_priceAt b.config j i
    cases side <;> simp only [Side.opp, Side.Better, Farther] at * <;> omega

/-- The orders at better prices come before an order. -/
theorem ahead_le {as bs : List Order} (hb : Coherent b) (ha : Aligned b)
    (hn : n ∈ (b.levels side.opp i).orders)
    (hsplit : (b.depth side).map Node.order = as ++ n.order :: bs) :
    b.ahead side i ≤ total as := by
  have hpw := pairwise_depth ha side
  have hpos := hb.positive_of_mem_depth side
  rw [hsplit] at hpw hpos
  have hnone : (n.order :: bs).filter
      (fun o => side.opp.Better o.price (b.config.priceAt i)) = [] := by
    rw [List.filter_eq_nil_iff, ← ha _ _ n hn]
    intro o ho
    rw [decide_eq_true_eq]
    rcases List.mem_cons.mp ho with rfl | ho
    · cases side <;> exact lt_irrefl _
    · exact (List.pairwise_cons.mp (List.pairwise_append.mp hpw).2.1).1 o ho
  rw [ahead, hsplit, List.filter_append, hnone, List.append_nil]
  exact total_filter_le fun o ho => hpos o (List.mem_append_left _ ho)

/-- The first order of a level, and what comes before it. -/
theorem Needed.exists_split {q : ℤ} (h : Needed b side q i) (hb : Coherent b) (ha : Aligned b) :
    ∃ n ∈ (b.levels side.opp i).orders, ∃ as bs,
      (b.depth side).map Node.order = as ++ n.order :: bs ∧ total as < q := by
  have hi := hb.lt_of_occupied h.occupied
  obtain ⟨us, vs, hlevels⟩ := List.append_of_mem (mem_outward.mpr hi)
  obtain ⟨n, rest, hfront⟩ := List.exists_cons_of_ne_nil h.occupied
  have hn : n ∈ (b.levels side.opp i).orders := by rw [hfront]; exact List.mem_cons_self
  have hsplit : (b.depth side).map Node.order =
      (us.flatMap fun j => (b.levels side.opp j).orders).map Node.order ++ n.order ::
        (rest ++ vs.flatMap fun j => (b.levels side.opp j).orders).map Node.order := by
    rw [depth, hlevels, List.flatMap_append, List.flatMap_cons, hfront]
    simp
  refine ⟨n, hn, _, _, hsplit, lt_of_le_of_lt ?_ h.short⟩
  have hpos := hb.positive_of_mem_depth side
  rw [hsplit] at hpos
  have hbetter : ∀ o ∈ (us.flatMap fun j => (b.levels side.opp j).orders).map Node.order,
      side.opp.Better o.price (b.config.priceAt i) := by
    intro o ho
    obtain ⟨m, hm, rfl⟩ := List.mem_map.mp ho
    obtain ⟨j, hj, hm⟩ := List.mem_flatMap.mp hm
    have hpw := pairwise_outward b.config side.opp
    rw [hlevels] at hpw
    have hji := (List.pairwise_append.mp hpw).2.2 j hj i List.mem_cons_self
    rw [ha _ _ m hm]
    have hlt := @OrderBookConfig.priceAt_lt_priceAt b.config i j
    have hlt' := @OrderBookConfig.priceAt_lt_priceAt b.config j i
    cases side <;> simp only [Side.opp, Side.Better, Farther] at * <;> omega
  rw [ahead, hsplit, List.filter_append, total_append,
    List.filter_eq_self.mpr fun o ho => decide_eq_true (hbetter o ho)]
  have hnn : 0 ≤ total ((n.order :: (rest ++ vs.flatMap fun j =>
      (b.levels side.opp j).orders).map Node.order).filter fun o =>
        side.opp.Better o.price (b.config.priceAt i)) :=
    total_nonneg fun o ho => hpos o (List.mem_append_right _ (List.mem_filter.mp ho).1)
  omega

/-! ### When everything needed is filled -/

/-- A report of a fill names the order that was filled. -/
theorem exists_mem_fills {f : Order × ℤ} {fills fills' : List (Order × ℤ)} (hf : f ∈ fills)
    (he : fills.flatMap (fillReports o) = fills'.flatMap (fillReports o)) :
    ∃ f' ∈ fills', f'.1.orderId = f.1.orderId := by
  have hmem : (⟨o.orderId, f.1.orderId, f.1.price, f.2, o.side, false⟩ : ExecutionReport) ∈
      fills.flatMap (fillReports o) := List.mem_flatMap.mpr ⟨f, hf, List.mem_cons_self⟩
  rw [he] at hmem
  obtain ⟨f', hf', hmem⟩ := List.mem_flatMap.mp hmem
  refine ⟨f', hf', ?_⟩
  simp only [fillReports, List.mem_cons, ExecutionReport.mk.injEq, List.not_mem_nil,
    or_false] at hmem
  rcases hmem with ⟨-, hid, -⟩ | ⟨-, -, -, -, -, hmaker⟩
  · exact hid.symm
  · cases hmaker

/-- If everything needed is in reach, everything needed is filled. -/
theorem reachableFills_eq_fullFills (h : Reaches c used b) (hg : GridCached b)
    (hreach : ∀ i, Needed b o.side o.quantity i → InReach b o.side o.price i) :
    b.reachableFills o = b.fullFills o := by
  have hb := h.sound.coherent
  refine greedy_eq_of_sublist ((matchQueue_sublist_depth h.sound).map _)
    (nodup_depth hb h.located) (hb.positive_of_mem_depth _) fun as o' bs hsplit hq => ?_
  have ho' : o' ∈ (b.depth o.side).map Node.order := by
    rw [hsplit]
    exact List.mem_append_right _ List.mem_cons_self
  obtain ⟨n, hn, rfl⟩ := List.mem_map.mp ho'
  obtain ⟨i, hn⟩ := hb.mem_depth_iff.mp hn
  have hneeded : Needed b o.side o.quantity i :=
    ⟨occupied_of_mem hn, lt_of_le_of_lt (ahead_le hb h.aligned hn hsplit) hq⟩
  exact List.mem_map_of_mem ((mem_matchQueue_iff hb hg hn).mpr (hreach i hneeded))

/-- If the reports are those of the full execution, everything needed is in reach. -/
theorem inReach_of_reports_eq (h : Reaches c used b) (hg : GridCached b)
    (he : (b.reachableFills o).flatMap (fillReports o) = (b.fullFills o).flatMap (fillReports o))
    (hneeded : Needed b o.side o.quantity i) : InReach b o.side o.price i := by
  have hb := h.sound.coherent
  obtain ⟨n, hn, as, bs, hsplit, hshort⟩ := hneeded.exists_split hb h.aligned
  have hpos := hb.positive_of_mem_depth o.side
  rw [hsplit] at hpos
  obtain ⟨f, hf, hfn⟩ := exists_mem_greedy
    (fun o' ho' => hpos o' (List.mem_append_left _ ho')) hshort n.order bs
  rw [← hsplit] at hf
  obtain ⟨f', hf', hid⟩ := exists_mem_fills hf he.symm
  obtain ⟨m, hm, hmf⟩ := List.mem_map.mp (mem_of_mem_greedy hf')
  obtain ⟨j, hmj⟩ := exists_mem_of_mem_queueFrom (mem_queueFrom_of_mem_matchQueue hm)
  obtain ⟨-, rfl, rfl⟩ := h.located.eq_of_orderId hb hmj hn (by rw [hmf, hid, hfn]) trivial
  exact (mem_matchQueue_iff hb hg hn).mp hm

theorem takenQuantity_fillReports (o : Order) (fills : List (Order × ℤ)) :
    takenQuantity (fills.flatMap (fillReports o)) = filled fills := by
  induction fills with
  | nil => rfl
  | cons f fills ih =>
    rw [List.flatMap_cons, takenQuantity, fillReports, List.cons_append, List.cons_append,
      List.nil_append, List.filter_cons_of_pos rfl, List.filter_cons_of_neg Bool.false_ne_true,
      List.map_cons, List.sum_cons, filled_cons]
    exact congrArg _ ih

/-- **A call that makes the reachable fills** executes the order at any price if and only if
everything it needs is in reach. -/
theorem Called.executed_iff (h : Called (fun r log => log ++ [r]) o w w')
    (hr : Reaches c used w.book) (hg : GridCached w.book) (hq : 0 < o.quantity) :
    ExecutedAtAnyPrice o w w' ↔
      ∀ i, Needed w.book o.side o.quantity i → InReach w.book o.side o.price i := by
  constructor
  · rintro ⟨hreports, -⟩ i hneeded
    rw [h.reports] at hreports
    exact inReach_of_reports_eq hr hg (List.append_cancel_left hreports) hneeded
  · intro hreach
    have hfills := reachableFills_eq_fullFills hr hg hreach
    have hreports := h.reports
    have hqueue := h.queue
    rw [hfills] at hreports hqueue
    refine ⟨hreports, ?_, hqueue, h.within⟩
    rw [hreports, List.drop_left, takenQuantity_fillReports, fullFills,
      filled_greedy hq.le (hr.sound.coherent.positive_of_mem_depth _)]

/-- One market order in a reachable state. -/
theorem exists_addOrder_market (h : Reaches c used w.book) (hg : GridCached w.book)
    (htype : o.type = .market) (hprice : o.price = 0) (hq : 0 < o.quantity) :
    ∃ w', Converges (fun fuel => addOrder record fuel o w) (.ok w') ∧
      (ExecutedAtAnyPrice o w w' ↔
        ∀ i, Needed w.book o.side o.quantity i → InReach w.book o.side 0 i) := by
  have hok : (BookOp.add o).Ok c used := fun hl => by
    rw [htype] at hl
    cases hl
  obtain ⟨w', hm, -, -, -, hcalled⟩ := exists_addOrder h hg hok (by rw [htype]; decide)
  refine ⟨w', ?_, ?_⟩
  · rwa [afterMatch, if_neg fun hh => by
      rw [Order.type_withQuantity, htype] at hh; cases hh.2] at hm
  · rw [← hprice]
    exact hcalled.executed_iff h hg hq

/-- **Market orders.** After every sequence of calls, a market order of either side with the price
zero is executed at any price if and only if every level that its quantity comes to is in reach of a
match with the limit zero. -/
theorem executedAtAnyPrice_iff (c : OrderBookConfig) (ops : List BookOp) (hops : WellFormed c ops) :
    ∃ s, Converges (runBook c record [] ops) (.ok s) ∧
      ∀ o : Order, o.type = .market → o.price = 0 → 0 < o.quantity →
        ∃ w, Converges (fun fuel => addOrder record fuel o s.1) (.ok w) ∧
          (ExecutedAtAnyPrice o s.1 w ↔
            ∀ i, Needed s.1.book o.side o.quantity i → InReach s.1.book o.side 0 i) := by
  obtain ⟨s, hs, hr, hg⟩ := exists_runBook_gridCached
    (f := fun r log => log ++ [r]) (e := []) hops
  exact ⟨s, hs, fun o htype hprice hq => exists_addOrder_market hr hg htype hprice hq⟩

/-- A bid at 3, and an ask at 5. -/
def bidAndAsk : List BookOp :=
  [.add ⟨1, 1, 3, 4, .buy, .limit⟩, .add ⟨2, 1, 5, 4, .sell, .limit⟩]

/-- A sell of more than there is. -/
theorem executedAtAnyPrice_iff_sell :
    ∃ s, Converges (runBook ⟨0, 14, 1, by decide, by decide, by decide⟩ record [] bidAndAsk)
        (.ok s) ∧
      ∃ w, Converges (fun fuel => addOrder record fuel ⟨3, 1, 0, 6, .sell, .market⟩ s.1) (.ok w) ∧
        (ExecutedAtAnyPrice ⟨3, 1, 0, 6, .sell, .market⟩ s.1 w ↔
          ∀ i, Needed s.1.book .sell 6 i → InReach s.1.book .sell 0 i) := by
  obtain ⟨s, hs, h⟩ := executedAtAnyPrice_iff ⟨0, 14, 1, by decide, by decide, by decide⟩ bidAndAsk
    ⟨fun _ => ⟨by decide, ⟨3, by decide, by decide⟩, by decide⟩,
      fun _ => ⟨by decide, ⟨5, by decide, by decide⟩, by decide⟩, trivial⟩
  exact ⟨s, hs, h _ rfl rfl (by decide)⟩

/-- A buy of the ask. It is not filled, although there is enough of it. -/
theorem not_executedAtAnyPrice_buy :
    ∃ s, runBook ⟨0, 14, 1, by decide, by decide, by decide⟩ record [] bidAndAsk 4 = .ok s ∧
      ∃ w, addOrder record 4 ⟨3, 1, 0, 2, .buy, .market⟩ s.1 = .ok w ∧ w.env = [] ∧
        ¬ ExecutedAtAnyPrice ⟨3, 1, 0, 2, .buy, .market⟩ s.1 w := by
  obtain ⟨s, hs, hfills, w, hw, henv⟩ : ∃ s,
      runBook ⟨0, 14, 1, by decide, by decide, by decide⟩ record [] bidAndAsk 4 = .ok s ∧
      (s.1.book.fullFills ⟨3, 1, 0, 2, .buy, .market⟩).flatMap
        (fillReports ⟨3, 1, 0, 2, .buy, .market⟩) ≠ [] ∧
      ∃ w, addOrder record 4 ⟨3, 1, 0, 2, .buy, .market⟩ s.1 = .ok w ∧ w.env = [] := by
    decide +kernel
  refine ⟨s, hs, w, hw, henv, fun h => hfills ?_⟩
  have hreports := h.reports
  rw [henv] at hreports
  exact (List.append_eq_nil_iff.mp hreports.symm).2

/-! ### Exact caches -/

/-- **Sells** are executed at any price where prices are not negative and an `int` holds every level
index. -/
theorem executedAtAnyPrice_sell (c : OrderBookConfig) (hmin : 0 ≤ c.minPrice)
    (hlevels : c.numLevels ≤ 2 ^ 31) (ops : List BookOp) (hops : WellFormed c ops) :
    ∃ s, Converges (runBook c record [] ops) (.ok s) ∧
      ∀ o : Order, o.type = .market → o.price = 0 → 0 < o.quantity → o.side = .sell →
        ∃ w, Converges (fun fuel => addOrder record fuel o s.1) (.ok w) ∧
          ExecutedAtAnyPrice o s.1 w := by
  have hp : c.Priced := ⟨hmin, by omega⟩
  obtain ⟨s, hs, hr, hg⟩ := exists_runBook_gridCached
    (f := fun r log => log ++ [r]) (e := []) hops
  refine ⟨s, hs, fun o htype hprice hq hside => ?_⟩
  obtain ⟨w, hm, hiff⟩ := exists_addOrder_market hr hg htype hprice hq
  refine ⟨w, hm, hiff.mpr fun i hneeded => ?_⟩
  rw [← hr.config_eq] at hp
  refine ((hr.tidy (hr.config_eq ▸ hp)).inReach_iff hp hr.sound.coherent hneeded.occupied).mpr ?_
  rw [hside]
  exact OrderBookConfig.priceAt_nonneg hp.nonneg i

end OrderBook

end MiniTrader
