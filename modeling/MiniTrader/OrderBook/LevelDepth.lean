import MiniTrader.OrderBook.Reach

/-!
# The depth of a level

The total of a level goes up when an order comes to rest and down when one is filled or cancelled.
On the way down nothing can happen to it: it is the sum of what rests, and what rests is positive,
so it stays between zero and where it was. On the way up nothing stops it.

So a bound on the totals of a book is kept by every call but one, and that one depends on a single
sum: what rests at the price of the order already, and what its match has left of the order. To say
so of every value that a total takes, and not only of those a caller can see, the calls are given a
log of the values, which changes nothing else.

## Main definitions

* `addOrderLogged`, `cancelOrderLogged` — the calls, with the totals they write
* `Bounded` — no total exceeds a bound
* `restingAt` — what rests at a price, summed over all levels
* `FitsWithin` — the condition

## Main results

* `restingAt_eq_quantityAt` — the total of a level is what rests at its price
* `Bounded.cancelOrder` — one cancel
* `bounded_iff_fitsWithin` — one order
-/

namespace MiniTrader

open Fuelled

namespace OrderBook

open Reference

variable {ε : Type} {b b' : OrderBook} {s t : Side} {i j id : ℕ} {n : Node} {o : Order} {M : ℤ}
  {c : OrderBookConfig} {used : List ℕ} {f : ExecutionReport → ε → ε} {w w' : World ε}
  {cb : FillCallback ε}

/-! ### The totals a call writes -/

/-- `cancel_order`, with the total that the level of the order is left with. -/
def cancelOrderLogged (b : OrderBook) (orderId : ℕ) : Outcome (List ℤ × Bool × OrderBook) := do
  let r ← b.cancelOrder orderId
  .ok (match b.orderMap.lookup orderId with
    | some loc => [(r.2.levels loc.side loc.priceIdx).totalQuantity]
    | none => [], r)

/-- `add_order`, with the totals after each fill and after the order has come to rest. -/
def addOrderLogged (cb : FillCallback ε) (fuel : ℕ) (order : Order) (w : World ε) :
    Outcome (List ℤ × World ε) :=
  if order.type = .cancel then do
    let r ← w.book.cancelOrderLogged order.orderId
    .ok (r.1, w.withBook r.2.2)
  else do
    let r ← matchLogged cb fuel (order, w)
    let totals := r.1.flatMap Prod.snd
    let s := r.2
    if 0 < s.1.quantity ∧ s.1.type = .limit then do
      let b ← s.2.book.restOrder s.1
      let idx := b.config.priceToIndex s.1.price
      .ok (totals ++ [(b.levels s.1.side idx).totalQuantity], s.2.withBook b)
    else
      .ok (totals, s.2)

theorem map_cancelOrderLogged (b : OrderBook) (orderId : ℕ) :
    (b.cancelOrderLogged orderId).map Prod.snd = b.cancelOrder orderId := by
  rw [cancelOrderLogged]
  cases b.cancelOrder orderId <;> rfl

/-- The log changes nothing. -/
theorem map_addOrderLogged (cb : FillCallback ε) (fuel : ℕ) (o : Order) (w : World ε) :
    (addOrderLogged cb fuel o w).map Prod.snd = addOrder cb fuel o w := by
  rw [addOrderLogged, addOrder, ← map_cancelOrderLogged, ← map_matchLogged]
  split
  · cases w.book.cancelOrderLogged o.orderId <;> rfl
  · cases matchLogged cb fuel (o, w) with
    | error err => rfl
    | ok r =>
      simp only [Except.map, ok_bind]
      by_cases hrest : 0 < r.2.1.quantity ∧ r.2.1.type = .limit
      · rw [if_pos hrest, if_pos hrest]
        cases r.2.2.book.restOrder r.2.1 <;> rfl
      · rw [if_neg hrest, if_neg hrest]

/-- The totals of an order that has been matched, and of which `o` is left. -/
def restTotals (o : Order) (b : OrderBook) : List ℤ :=
  if 0 < o.quantity ∧ o.type = .limit then
    [((b.join o).levels o.side (b.config.priceToIndex o.price)).totalQuantity]
  else []

theorem converges_addOrderLogged {o' : Order} {log : List (ℕ × List ℤ)} (htype : o.type ≠ .cancel)
    (hm : Converges (fun fuel => matchLogged cb fuel (o, w)) (.ok (log, o', w')))
    (hidx : o'.type = .limit → w'.book.config.priceToIndex o'.price < w'.book.config.numLevels) :
    Converges (fun fuel => addOrderLogged cb fuel o w)
      (.ok (log.flatMap Prod.snd ++ restTotals o' w'.book, afterMatch o' w')) := by
  simp only [OrderBook.addOrderLogged, if_neg htype]
  refine hm.bind ?_
  rw [afterMatch, restTotals]
  split
  · rw [restOrder_eq (hidx (‹_ ∧ _›).2)]
    simp only [ok_bind, config_join]
    exact converges_const _
  · rw [List.append_nil]
    exact converges_const _

/-! ### Going down -/

/-- No total exceeds the bound. -/
def Bounded (M : ℤ) (b : OrderBook) : Prop := ∀ s i, (b.levels s i).totalQuantity ≤ M

theorem bounded_new (c : OrderBookConfig) (hM : 0 ≤ M) : Bounded M (new c) := by
  intro s i
  cases s <;> exact hM

theorem Coherent.total_nonneg (hb : Coherent b) (s : Side) (i : ℕ) :
    0 ≤ (b.levels s i).totalQuantity := by
  rw [hb.total]
  exact PriceLevel.sumQuantity_nonneg fun n hn => hb.positive hn

theorem Bounded.of_le (h : Bounded M b)
    (hle : ∀ s i, (b'.levels s i).totalQuantity ≤ (b.levels s i).totalQuantity) : Bounded M b' :=
  fun s i => (hle s i).trans (h s i)

theorem Coherent.total_unlink_le (hb : Coherent b) (hn : n ∈ (b.levels s i).orders) (t : Side)
    (j : ℕ) : ((b.unlink s i n).levels t j).totalQuantity ≤ (b.levels t j).totalQuantity := by
  have hpos := hb.positive hn
  rw [levels_unlink]
  split
  · rename_i h
    obtain ⟨rfl, rfl⟩ := h
    rw [PriceLevel.without]
    dsimp only
    omega
  · exact le_rfl

theorem Coherent.total_settleFront_le {ns : List Node} {q : ℤ} (hb : Coherent b)
    (hfront : (b.levels s i).orders = n :: ns) (hq : 0 ≤ q) (t : Side) (j : ℕ) :
    ((b.settleFront s i n.order q).levels t j).totalQuantity ≤ (b.levels t j).totalQuantity := by
  have hn : n ∈ (b.levels s i).orders := by rw [hfront]; exact List.mem_cons_self
  rcases hb.settleFront_cases (q := q) hfront with ⟨-, he⟩ | ⟨-, he⟩
  · rw [he]
    exact hb.total_unlink_le hn t j
  · rw [he]
    by_cases h : t = s ∧ j = i
    · obtain ⟨rfl, rfl⟩ := h
      rw [levels_reduceFront_self hfront]
      dsimp only
      omega
    · rw [levels_reduceFront_of_ne h]

/-- **Cancelling.** -/
theorem Bounded.cancelOrder {r : Bool} (h : Bounded M b) (hb : Coherent b)
    (hc : b.cancelOrder id = .ok (r, b')) : Bounded M b' := by
  rcases hb.exists_cancelOrder id with ⟨-, he⟩ | ⟨s, i, n, hn, -, he⟩
  · rw [he] at hc
    cases hc
    exact h
  · rw [he] at hc
    cases hc
    refine h.of_le fun t j => ?_
    rw [levels_refreshBest]
    exact hb.total_unlink_le hn t j

theorem Coherent.exists_cancelOrderLogged (hb : Coherent b) (id : ℕ) : ∃ totals r b',
    b.cancelOrderLogged id = .ok (totals, r, b') ∧ b.cancelOrder id = .ok (r, b') ∧
      ∀ M, Bounded M b → ∀ x ∈ totals, 0 ≤ x ∧ x ≤ M := by
  obtain ⟨r, b', hc⟩ := hb.cancelOrder_ok id
  refine ⟨_, r, b', by rw [cancelOrderLogged, hc]; rfl, hc, fun M h x hx => ?_⟩
  cases hl : b.orderMap.lookup id with
  | none =>
    rw [hl] at hx
    cases hx
  | some loc =>
    rw [hl] at hx
    rw [List.mem_singleton.mp hx]
    exact ⟨(hb.cancelOrder hc).total_nonneg _ _, h.cancelOrder hb hc _ _⟩

/-- What matching an order of a side leaves of a book: no total has gone up, and the levels of the
side are as they were. -/
structure Lowered (side : Side) (b₀ b : OrderBook) : Prop where
  total_le : ∀ t j, (b.levels t j).totalQuantity ≤ (b₀.levels t j).totalQuantity
  own : b.levels side = b₀.levels side

/-- **Matching.** -/
theorem sparingRule_lowered (c : OrderBookConfig) (f : ExecutionReport → ε → ε) (side : Side)
    (b₀ : OrderBook) :
    SparingRule c (observe f) side (fun _ w => Lowered side b₀ w.book)
      (fun _ _ w => Lowered side b₀ w.book) := by
  refine sparingRule_observe (fun _ _ h _ => h) ?_ ?_
  · intro idx o w n rest hb _ h hfront hq
    have hpos := hb.coherent.positive
      (show n ∈ (w.book.levels side.opp idx).orders by rw [hfront]; exact List.mem_cons_self)
    refine ⟨fun t j => ?_, ?_⟩
    · exact (hb.coherent.total_settleFront_le hfront (by omega) t j).trans (h.total_le t j)
    · rw [← h.own]
      exact funext fun j => levels_settleFront_of_ne fun hs => Side.ne_opp side hs.1
  · intro idx o w _ _ h _
    refine ⟨fun t j => ?_, ?_⟩
    · rw [World.book_withBook, levels_leaveLevel]
      exact h.total_le t j
    · rw [World.book_withBook, levels_leaveLevel]
      exact h.own

/-- **One match**, with its totals. -/
theorem OnLevels.exists_matchLogged (h : OnLevels w.book) (hb : Sound w.book) (o : Order) (M : ℤ) :
    ∃ log w', Converges (fun fuel => matchLogged (observe f) fuel (o, w))
        (.ok (log, o.withQuantity (o.quantity - filled (w.book.reachableFills o)), w')) ∧
      w'.book.config = w.book.config ∧ OnLevels w'.book ∧ Lowered o.side w.book w'.book ∧
      (Bounded M w.book → ∀ l ∈ log, ∀ x ∈ l.2, 0 ≤ x ∧ x ≤ M) := by
  obtain ⟨log, q, w', hm, ⟨-, hconf, hlow⟩, -, -, hlog⟩ :=
    (sparingRule_lowered w.book.config f o.side w.book).sweepRule.matchLogged
      (Q := fun x => Bounded M w.book → 0 ≤ x ∧ x ≤ M)
      (fun ⟨_, hb', _, hlow⟩ h₀ =>
        ⟨hb'.coherent.total_nonneg _ _, (hlow.total_le _ _).trans (h₀ _ _)⟩)
      rfl ⟨hb, rfl, fun _ _ => le_rfl, rfl⟩
  obtain ⟨v, hv, hon, -⟩ := h.exists_matchOrder (f := f) hb o
  have he := (hm.of_map Prod.snd fun fuel => map_matchLogged _ fuel _).unique hv
  simp only [Except.ok.injEq, Prod.mk.injEq] at he
  obtain ⟨hleft, rfl⟩ := he
  rw [hleft] at hm
  exact ⟨log, w', hm, hconf, hon, hlow, fun h₀ l hl x hx => hlog l hl x hx h₀⟩

/-! ### What rests at a price -/

/-- The quantities of the orders of the side that rest at the price, wherever they rest. -/
def restingAt (b : OrderBook) (price : ℤ) (s : Side) : ℤ :=
  PriceLevel.sumQuantity (((List.range b.config.numLevels).flatMap fun i =>
    (b.levels s i).orders).filter fun n => n.order.price = price)

theorem flatMap_range_ite {α : Type} (f : ℕ → List α) {k n : ℕ} (hk : k < n) :
    ((List.range n).flatMap fun i => if i = k then f i else []) = f k := by
  induction n with
  | zero => omega
  | succ n ih =>
    rw [List.range_succ, List.flatMap_append, List.flatMap_singleton]
    by_cases hn : n = k
    · subst hn
      have hnil : ((List.range n).flatMap fun i => if i = n then f i else []) = [] :=
        List.flatMap_eq_nil_iff.mpr fun i hi => if_neg (List.mem_range.mp hi).ne
      rw [hnil, if_pos rfl, List.nil_append]
    · rw [ih (by omega), if_neg hn, List.append_nil]

/-- The orders of a level rest at its price. -/
theorem Aligned.filter_orders (h : Aligned b) (s : Side) (i k : ℕ) :
    ((b.levels s i).orders.filter fun n => n.order.price = b.config.priceAt k) =
      if i = k then (b.levels s i).orders else [] := by
  split
  · rename_i hik
    rw [← hik]
    exact List.filter_eq_self.mpr fun n hn => decide_eq_true (h s i n hn)
  · rename_i hik
    refine List.filter_eq_nil_iff.mpr fun n hn hprice => hik ?_
    rw [decide_eq_true_eq, h s i n hn] at hprice
    exact OrderBookConfig.priceAt_inj.mp hprice

/-- What rests at a price of the grid is the total of its level. -/
theorem quantityAt_eq {p : ℤ} (hgrid : b.config.OnGrid p) :
    b.quantityAt p s = (b.levels s (b.config.priceToIndex p)).totalQuantity := by
  rw [quantityAt]
  exact if_neg (not_le.mpr hgrid.priceToIndex_lt)

/-- What the level of a price counts is what rests at the price. -/
theorem restingAt_eq_quantityAt (hb : Coherent b) (ha : Aligned b) {p : ℤ}
    (hgrid : b.config.OnGrid p) (s : Side) : b.restingAt p s = b.quantityAt p s := by
  have hlt := hgrid.priceToIndex_lt
  rw [restingAt, ← hgrid.priceAt_priceToIndex, List.filter_flatMap]
  simp only [ha.filter_orders]
  rw [flatMap_range_ite _ hlt, hgrid.priceAt_priceToIndex, quantityAt_eq hgrid, hb.total]

/-! ### Going up -/

theorem total_join_self : ((b.join o).levels o.side (b.config.priceToIndex o.price)).totalQuantity =
    (b.levels o.side (b.config.priceToIndex o.price)).totalQuantity + o.quantity := by
  rw [levels_join, levels_link_self, PriceLevel.addOrder]

/-- An order that comes to rest. -/
theorem bounded_join_iff (h : Bounded M b) : Bounded M (b.join o) ↔
    (b.levels o.side (b.config.priceToIndex o.price)).totalQuantity + o.quantity ≤ M := by
  rw [← total_join_self]
  refine ⟨fun hj => hj _ _, fun hle t j => ?_⟩
  by_cases hself : t = o.side ∧ j = b.config.priceToIndex o.price
  · obtain ⟨rfl, rfl⟩ := hself
    exact hle
  · rw [levels_join, levels_link_of_ne hself]
    exact h t j

/-- What becomes of an order after its match: it leaves a book within the bound if and only if what
is left of it goes on its level. -/
theorem bounded_afterMatch_iff (h : Bounded M w.book) : Bounded M (afterMatch o w).book ↔
    (o.type = .limit →
      (w.book.levels o.side (w.book.config.priceToIndex o.price)).totalQuantity + o.quantity ≤
        M) := by
  rw [afterMatch]
  split
  · rename_i hrest
    rw [World.book_withBook, bounded_join_iff h]
    exact ⟨fun hle _ => hle, fun hle => hle hrest.2⟩
  · rename_i hrest
    refine iff_of_true h fun hl => ?_
    have hle := h o.side (w.book.config.priceToIndex o.price)
    have hleft : ¬ 0 < o.quantity := fun hpos => hrest ⟨hpos, hl⟩
    omega

/-- The total of an order that has come to rest is one of those that are left. -/
theorem mem_restTotals (hb : Coherent (afterMatch o w).book) (h : Bounded M (afterMatch o w).book)
    {x : ℤ} (hx : x ∈ restTotals o w.book) : 0 ≤ x ∧ x ≤ M := by
  rw [restTotals] at hx
  split at hx
  · rename_i hrest
    have hjoin : afterMatch o w = w.withBook (w.book.join o) := if_pos hrest
    rw [hjoin] at hb h
    rw [List.mem_singleton.mp hx]
    exact ⟨hb.total_nonneg _ _, h _ _⟩
  · cases hx

/-- **The condition**: what rests at the price of the order and what its match leaves of it are
within the bound together. -/
def FitsWithin (M : ℤ) (b : OrderBook) (o : Order) : Prop :=
  b.quantityAt o.price o.side + (o.quantity - filled (b.reachableFills o)) ≤ M

/-- **One order.** It leaves a book within the bound if and only if it fits, and then the totals it
writes are within the bound as well. -/
theorem bounded_iff_fitsWithin (h : Reaches c used w.book) (hg : GridCached w.book)
    (hok : (BookOp.add o).Ok c used) (htype : o.type ≠ .cancel) (M : ℤ) :
    ∃ totals w', Converges (fun fuel => addOrderLogged (observe f) fuel o w) (.ok (totals, w')) ∧
      Reaches c (BookOp.usedIds used (.add o)) w'.book ∧ GridCached w'.book ∧
      (Bounded M w.book →
        (Bounded M w'.book ↔ (o.type = .limit → FitsWithin M w.book o)) ∧
          (Bounded M w'.book → ∀ x ∈ totals, 0 ≤ x ∧ x ≤ M)) := by
  have hon : OnLevels w.book := ⟨h.located, h.aligned, hg⟩
  obtain ⟨log, w', hm, hconf, hon', hlow, hlog⟩ := hon.exists_matchLogged (f := f) h.sound o M
  obtain ⟨v, hadd, -, -, hreach, -⟩ := exists_addOrder (f := f) h hg hok htype
  have hgrid : o.type = .limit → w.book.config.OnGrid o.price := by
    intro hl
    rw [h.config_eq]
    exact (hok hl).2.1
  have hgrid' : o.type = .limit → w'.book.config.OnGrid o.price := by rwa [hconf]
  have hlogged := converges_addOrderLogged htype hm fun hl => (hgrid' hl).priceToIndex_lt
  have hplain := hlogged.of_map Prod.snd fun fuel => map_addOrderLogged _ fuel _ _
  have he := Except.ok.inj (hplain.unique hadd)
  rw [← he] at hreach
  refine ⟨_, _, hlogged, hreach, hon'.cached.afterMatch hgrid', fun h₀ => ⟨?_, ?_⟩⟩
  · rw [bounded_afterMatch_iff (h₀.of_le hlow.total_le)]
    refine forall_congr' fun hl => ?_
    rw [FitsWithin, quantityAt_eq (hgrid hl), ← hconf, ← hlow.own]
    exact Iff.rfl
  · intro hb x hx
    rcases List.mem_append.mp hx with hx | hx
    · obtain ⟨l, hl, hx⟩ := List.mem_flatMap.mp hx
      exact hlog h₀ l hl x hx
    · exact mem_restTotals hreach.sound.coherent hb hx

end OrderBook

end MiniTrader
