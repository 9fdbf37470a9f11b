import MiniTrader.OrderBook.Reach

/-!
# When the book gets crossed

A limit order that cannot be matched rests, and nothing looks at the other side once more. So the
book stays uncrossed only as long as `match` leaves nothing behind that the rest of the order
crosses. What it leaves behind are the levels that are not in reach: those with a negative price,
because `best_bid_ >= 0` and `best_ask_ >= 0` stand for "the side is not empty", and those that the
scan of the bids does not look at, because it casts the index to an `int`.

An order that is filled before it has used up what is in reach leaves no rest. So there are two ways
for an order to be harmless, and `Clears` is one or the other. In a run that starts with the empty
book the condition is exact: the first call that does not meet it crosses the book.

## Main definitions

* `Separated` — every bid is below every ask
* `Clears` — the condition

## Main results

* `separated_join_iff` — one limit order
* `separated_iff_clears` — all runs
* `Tidy.clears` — where the caches are exact, every order clears what it crosses
-/

namespace MiniTrader

open Fuelled

namespace Reference

variable {q : ℤ} {o o' : Order} {l live : List Order} {f : Order × ℤ} {fills : List (Order × ℤ)}

/-- A quantity that is not used up fills every order completely. -/
theorem greedy_of_total_lt (hq : total l < q) (h : ∀ o ∈ l, 0 < o.quantity) :
    greedy q l = l.map fun o => (o, o.quantity) := by
  induction l generalizing q with
  | nil => exact greedy_nil q
  | cons o l ih =>
    have ho := h o List.mem_cons_self
    have hl := fun o' ho' => h o' (List.mem_cons_of_mem _ ho')
    have hnn := total_nonneg hl
    rw [total_cons] at hq
    rw [greedy_cons (by omega), min_eq_right (by omega), ih (by omega) hl]
    rfl

theorem mem_settle (h : o' ∈ settle live f) : (∃ o ∈ live, o.orderId = o'.orderId) ∧
    (f.1.quantity ≤ f.2 → o'.orderId ≠ f.1.orderId) := by
  rw [settle] at h
  split at h
  · obtain ⟨hmem, hne⟩ := List.mem_filter.mp h
    exact ⟨⟨o', hmem, rfl⟩, fun _ => of_decide_eq_true hne⟩
  · obtain ⟨o, ho, rfl⟩ := List.mem_map.mp h
    refine ⟨⟨o, ho, ?_⟩, fun hfull => absurd hfull ‹_›⟩
    split <;> rfl

/-- What is open after some fills was open before, and has not been filled completely. -/
theorem mem_foldl_settle (h : o' ∈ fills.foldl settle live) : (∃ o ∈ live, o.orderId = o'.orderId) ∧
    ∀ f ∈ fills, f.1.quantity ≤ f.2 → o'.orderId ≠ f.1.orderId := by
  induction fills generalizing live with
  | nil => exact ⟨⟨o', h, rfl⟩, fun f hf => absurd hf List.not_mem_nil⟩
  | cons f fills ih =>
    obtain ⟨⟨o, ho, hid⟩, hrest⟩ := ih h
    obtain ⟨⟨o₀, ho₀, hid₀⟩, hf⟩ := mem_settle ho
    refine ⟨⟨o₀, ho₀, hid₀.trans hid⟩, fun f' hf' hfull => ?_⟩
    rcases List.mem_cons.mp hf' with rfl | hf'
    · rw [← hid]
      exact hf hfull
    · exact hrest f' hf' hfull

/-- An order that no fill is about stays as it is. -/
theorem mem_foldl_settle_of_ne (h : o ∈ live) (hne : ∀ f ∈ fills, o.orderId ≠ f.1.orderId) :
    o ∈ fills.foldl settle live := by
  induction fills generalizing live with
  | nil => exact h
  | cons f fills ih =>
    refine ih ?_ fun f' hf' => hne f' (List.mem_cons_of_mem _ hf')
    have hid := hne f List.mem_cons_self
    rw [settle]
    split
    · exact List.mem_filter.mpr ⟨h, decide_eq_true hid⟩
    · exact List.mem_map.mpr ⟨o, h, if_neg hid⟩

end Reference

namespace OrderBook

open Reference

variable {ε : Type} {b : OrderBook} {c : OrderBookConfig} {used : List ℕ} {side : Side} {i : ℕ}
  {o : Order} {n : Node} {price : ℤ} {f : ExecutionReport → ε → ε} {w w' : World ε}

/-- Every resting bid is below every resting ask. -/
def Separated (b : OrderBook) : Prop :=
  ∀ i j, ∀ n ∈ (b.levels .buy i).orders, ∀ m ∈ (b.levels .sell j).orders,
    n.order.price < m.order.price

instance : Decidable (InReach b side price i) :=
  decidable_of_iff (0 ≤ b.best side.opp ∧
      (i = b.config.priceToIndex (b.best side.opp) ∨
        i ∈ beyond b.config side.opp (b.config.priceToIndex (b.best side.opp))) ∧
      0 ≤ b.config.priceAt i ∧ side.Crosses price (b.config.priceAt i))
    ⟨fun ⟨h₁, h₂, h₃, h₄⟩ => ⟨h₁, h₂, h₃, h₄⟩, fun h => ⟨h.1, h.2, h.3, h.4⟩⟩

/-- The orders of the other side that are in reach. -/
def ordersInReach (b : OrderBook) (side : Side) (price : ℤ) : List Node :=
  ((outward b.config side.opp).filter fun i => InReach b side price i).flatMap fun i =>
    (b.levels side.opp i).orders

/-- What is in reach is enough for the order, or it is all that the order crosses. -/
def Clears (b : OrderBook) (o : Order) : Prop :=
  o.quantity ≤ PriceLevel.sumQuantity (b.ordersInReach o.side o.price) ∨
    ∀ i, Occupied b o.side.opp i → o.side.Crosses o.price (b.config.priceAt i) →
      InReach b o.side o.price i

/-! ### What is in reach -/

theorem total_map (ns : List Node) : total (ns.map Node.order) = PriceLevel.sumQuantity ns := by
  rw [total, List.map_map]
  rfl

theorem mem_ordersInReach_iff (hb : Coherent b) (hn : n ∈ (b.levels side.opp i).orders) :
    n ∈ b.ordersInReach side price ↔ InReach b side price i := by
  rw [ordersInReach, List.mem_flatMap]
  constructor
  · rintro ⟨j, hj, hmem⟩
    obtain rfl := (hb.eq_of_mem hmem hn).2
    exact of_decide_eq_true (List.mem_filter.mp hj).2
  · intro hreach
    exact ⟨i, List.mem_filter.mpr ⟨mem_outward.mpr (hb.inRange hn), decide_eq_true hreach⟩, hn⟩

/-- A match walks through the orders in reach. -/
theorem perm_matchQueue (h : Reaches c used b) (hg : GridCached b) (side : Side) (price : ℤ) :
    (b.matchQueue side price).Perm (b.ordersInReach side price) := by
  have hb := h.sound.coherent
  have hnd : (b.depth side).Nodup := List.Nodup.of_map _ (nodup_depth hb h.located)
  have hsub : (b.ordersInReach side price).Sublist (b.depth side) :=
    List.filter_sublist.flatMap _
  rw [List.perm_ext_iff_of_nodup (hnd.sublist (matchQueue_sublist_depth h.sound))
    (hnd.sublist hsub)]
  intro n
  have hiff : ∀ i, n ∈ (b.levels side.opp i).orders →
      (n ∈ b.matchQueue side price ↔ n ∈ b.ordersInReach side price) := fun i hn => by
    rw [mem_matchQueue_iff hb hg hn, mem_ordersInReach_iff hb hn]
  constructor
  · intro hn
    obtain ⟨i, hi⟩ := hb.mem_depth_iff.mp ((matchQueue_sublist_depth h.sound).subset hn)
    exact (hiff i hi).mp hn
  · intro hn
    obtain ⟨i, hi⟩ := hb.mem_depth_iff.mp (hsub.subset hn)
    exact (hiff i hi).mpr hn

theorem sumQuantity_matchQueue (h : Reaches c used b) (hg : GridCached b) (side : Side)
    (price : ℤ) : PriceLevel.sumQuantity (b.matchQueue side price) =
      PriceLevel.sumQuantity (b.ordersInReach side price) :=
  ((perm_matchQueue h hg side price).map _).sum_eq

/-- What the order has left. -/
theorem filled_reachableFills (h : Reaches c used b) (hg : GridCached b) (hq : 0 ≤ o.quantity) :
    filled (b.reachableFills o) =
      min o.quantity (PriceLevel.sumQuantity (b.ordersInReach o.side o.price)) := by
  rw [reachableFills, filled_greedy hq, total_map, sumQuantity_matchQueue h hg]
  intro o' ho'
  obtain ⟨n, hn, rfl⟩ := List.mem_map.mp ho'
  exact h.sound.coherent.positive_of_mem_matchQueue hn

/-! ### One call -/

theorem Separated.within {b' : OrderBook} (h : Separated b) (hw : RestsWithin b' b) :
    Separated b' := by
  intro i j n hn m hm
  obtain ⟨n', hn', q, -, rfl⟩ := hw _ _ n hn
  obtain ⟨m', hm', q', -, rfl⟩ := hw _ _ m hm
  exact h i j n' hn' m' hm'

/-- An order that joins a separated book. -/
theorem separated_join_iff (hs : Separated b) : Separated (b.join o) ↔
    ∀ i, ∀ n ∈ (b.levels o.side.opp i).orders, ¬ o.side.Crosses o.price n.order.price := by
  have hmem : ∀ {s j n}, n ∈ ((b.join o).levels s j).orders ↔ n ∈ (b.levels s j).orders ∨
      s = o.side ∧ j = b.config.priceToIndex o.price ∧ n = ⟨b.nextNode, o⟩ := by
    intro s j n
    rw [levels_join]
    exact mem_link
  constructor
  · intro h i n hn
    have hn' := hmem.mpr (Or.inl hn)
    have ho := hmem.mpr (Or.inr ⟨rfl, rfl, rfl⟩)
    cases hside : o.side with
    | buy =>
      rw [hside] at hn' ho
      exact not_le.mpr (h _ _ _ ho _ hn')
    | sell =>
      rw [hside] at hn' ho
      exact not_le.mpr (h _ _ _ hn' _ ho)
  · intro h i j n hn m hm
    rcases hmem.mp hn with hn | ⟨hside, rfl, rfl⟩ <;> rcases hmem.mp hm with hm | ⟨hside', rfl, rfl⟩
    · exact hs i j n hn m hm
    · rw [← hside'] at h
      exact not_le.mp (h i n hn)
    · rw [← hside] at h
      exact not_le.mp (h j m hm)
    · rw [← hside] at hside'
      cases hside'

/-- **What `match` leaves behind**, if it has something left to trade: the levels that are not in
reach. -/
theorem Called.mem_iff (h : Called f o w w') (hr : Reaches c used w.book) (hg : GridCached w.book)
    (hlt : PriceLevel.sumQuantity (w.book.ordersInReach o.side o.price) < o.quantity)
    (hn : n ∈ (w.book.levels o.side.opp i).orders) :
    (∃ m ∈ (w'.book.levels o.side.opp i).orders, m.order.orderId = n.order.orderId) ↔
      ¬ InReach w.book o.side o.price i := by
  have hb := hr.sound.coherent
  have htotal : total ((w.book.matchQueue o.side o.price).map Node.order) < o.quantity := by
    rw [total_map, sumQuantity_matchQueue hr hg]
    exact hlt
  have hfills : w.book.reachableFills o =
      ((w.book.matchQueue o.side o.price).map Node.order).map fun o' => (o', o'.quantity) := by
    refine greedy_of_total_lt htotal fun o' ho' => ?_
    obtain ⟨n, hn, rfl⟩ := List.mem_map.mp ho'
    exact hb.positive_of_mem_matchQueue hn
  have hqueue := h.queue o.side.opp i
  rw [← mem_matchQueue_iff hb hg hn]
  constructor
  · rintro ⟨m, hm, hid⟩ hmem
    have hm' := List.mem_map_of_mem (f := Node.order) hm
    rw [hqueue] at hm'
    refine (mem_foldl_settle hm').2 (n.order, n.order.quantity) ?_ le_rfl hid
    rw [hfills]
    exact List.mem_map.mpr ⟨n.order, List.mem_map_of_mem hmem, rfl⟩
  · intro hmem
    have hn' : n.order ∈ (w'.book.levels o.side.opp i).orders.map Node.order := by
      rw [hqueue]
      refine mem_foldl_settle_of_ne (List.mem_map_of_mem hn) fun f hf hid => hmem ?_
      obtain ⟨m, hm, hmf⟩ := List.mem_map.mp (mem_of_mem_greedy hf)
      obtain ⟨j, hmj⟩ := exists_mem_of_mem_queueFrom (mem_queueFrom_of_mem_matchQueue hm)
      obtain ⟨-, -, rfl⟩ := hr.located.eq_of_orderId hb hmj hn (by rw [hmf, hid]) trivial
      exact hm
    obtain ⟨m, hm, he⟩ := List.mem_map.mp hn'
    exact ⟨m, hm, congrArg Order.orderId he⟩

/-- **One call of `add_order`** leaves a separated book separated if and only if its order, when it
is a limit order, clears what it crosses. -/
theorem Called.separated_iff (h : Called f o w w') (hr : Reaches c used w.book)
    (hg : GridCached w.book) (hr' : Reaches c used w'.book) (hq : o.type = .limit → 0 ≤ o.quantity)
    (hs : Separated w.book) :
    Separated
        (afterMatch (o.withQuantity (o.quantity - filled (w.book.reachableFills o))) w').book ↔
      (o.type = .limit → Clears w.book o) := by
  have hs' : Separated w'.book := hs.within h.within
  by_cases hl : o.type = .limit
  swap
  · rw [afterMatch, if_neg fun hh => hl hh.2]
    exact iff_of_true hs' fun h => absurd h hl
  have hfilled := filled_reachableFills hr hg (hq hl)
  by_cases henough : o.quantity ≤ PriceLevel.sumQuantity (w.book.ordersInReach o.side o.price)
  · rw [min_eq_left henough] at hfilled
    rw [hfilled, Int.sub_self, afterMatch, if_neg fun hh => lt_irrefl _ hh.1]
    exact iff_of_true hs' fun _ => Or.inl henough
  have hlt := not_le.mp henough
  rw [min_eq_right hlt.le] at hfilled
  rw [afterMatch, if_pos ⟨by rw [Order.quantity_withQuantity, hfilled]; omega, hl⟩,
    World.book_withBook, separated_join_iff hs']
  constructor
  · refine fun hno _ => Or.inr fun i hi hcross => ?_
    by_contra hreach
    obtain ⟨n, hn⟩ := List.exists_mem_of_ne_nil _ hi
    obtain ⟨m, hm, -⟩ := (h.mem_iff hr hg hlt hn).mpr hreach
    refine hno i m hm ?_
    rw [hr'.aligned _ _ m hm, hr'.config_eq, ← hr.config_eq]
    exact hcross
  · intro hclears i m hm hcross
    obtain ⟨n, hn, q, -, rfl⟩ := h.within _ _ m hm
    rw [reduced_price, hr.aligned _ _ n hn] at hcross
    have hreach := (hclears hl).resolve_left henough i (occupied_of_mem hn) hcross
    exact (h.mem_iff hr hg hlt hn).mp ⟨_, hm, rfl⟩ hreach

/-! ### All runs -/

/-- A limit order clears what it crosses; nothing is asked of the other calls. -/
def BookOp.Clears (op : BookOp) (s : World ε × List Bool) : Prop :=
  match op with
  | .add o => o.type = .limit → OrderBook.Clears s.1.book o
  | .cancel _ => True

/-- **The book is uncrossed** after every call of a run if and only if every limit order clears what
it crosses. -/
theorem separated_iff_clears (c : OrderBookConfig) (f : ExecutionReport → ε → ε) (e : ε)
    (ops : List BookOp) (hops : WellFormed c ops) :
    (∀ pre, pre <+: ops → ∃ s, Converges (runBook c (observe f) e pre) (.ok s)) ∧
    ((∀ pre, pre <+: ops → ∀ s, Converges (runBook c (observe f) e pre) (.ok s) →
        Separated s.1.book) ↔
      AllowedFrom BookOp.Clears (BookOp.run (observe f)) ops (⟨new c, e⟩, [])) := by
  constructor
  · rintro pre ⟨post, rfl⟩
    obtain ⟨s, hs, -⟩ := exists_runBook (f := f) (e := e) hops.of_append
    exact ⟨s, hs⟩
  refine @forall_prefix_iff_allowedFrom _ _ _ _ _ (BookOp.Ok c) BookOp.usedIds BookOp.Clears
    (fun used s => Reaches c used s.1.book ∧ GridCached s.1.book) (fun s => Separated s.1.book)
    ?_ _ _ _ ⟨reaches_new c, gridCached_new c⟩ ?_ hops
  · rintro used op s ⟨hr, hg⟩ hok
    obtain ⟨s', hs', h', ⟨o, w', rfl, -, hr', hcalled, he⟩ | ⟨hcancel, hw⟩⟩ := exists_run hr hg hok
    · refine ⟨s', hs', h', fun hsep => ?_⟩
      rw [he]
      exact hcalled.separated_iff hr hg hr' (fun hl => (hok hl).1.le) hsep
    · refine ⟨s', hs', h', fun hsep => iff_of_true (hsep.within hw) ?_⟩
      cases op with
      | add o => exact fun hl => absurd hl (by rw [hcancel o rfl]; decide)
      | cancel id => trivial
  · intro i j n hn
    rw [orders_new] at hn
    cases hn

/-- A bid and an ask at different negative prices. -/
theorem separated_iff_clears_negativePrices :
    (∀ pre, pre <+: [.add ⟨1, 1, -5, 4, .buy, .limit⟩, .add ⟨2, 1, -3, 4, .sell, .limit⟩] →
      ∃ s, Converges (runBook ⟨-10, 5, 1, by decide, by decide, by decide⟩ (observe fun _ e => e) ()
        pre) (.ok s)) ∧
    ((∀ pre, pre <+: [.add ⟨1, 1, -5, 4, .buy, .limit⟩, .add ⟨2, 1, -3, 4, .sell, .limit⟩] →
      ∀ s, Converges (runBook ⟨-10, 5, 1, by decide, by decide, by decide⟩ (observe fun _ e => e) ()
        pre) (.ok s) → Separated s.1.book) ↔
      AllowedFrom BookOp.Clears (BookOp.run (observe fun _ e => e))
        [.add ⟨1, 1, -5, 4, .buy, .limit⟩, .add ⟨2, 1, -3, 4, .sell, .limit⟩]
        (⟨new ⟨-10, 5, 1, by decide, by decide, by decide⟩, ()⟩, [])) :=
  separated_iff_clears _ _ _ _
    ⟨fun _ => ⟨by decide, ⟨5, by decide, by decide⟩, by decide⟩,
      fun _ => ⟨by decide, ⟨7, by decide, by decide⟩, by decide⟩, trivial⟩

/-- A bid at -5 and a sell at -5. The sell rests as well. -/
theorem not_separated_negativePrices : ∃ s,
    runBook ⟨-10, 5, 1, by decide, by decide, by decide⟩ (observe fun _ e => e) ()
      [.add ⟨1, 1, -5, 4, .buy, .limit⟩, .add ⟨2, 1, -5, 4, .sell, .limit⟩] 4 = .ok s ∧
    ¬ Separated s.1.book := by
  obtain ⟨s, hs, n, hn, m, hm, hcrossed⟩ : ∃ s,
      runBook ⟨-10, 5, 1, by decide, by decide, by decide⟩ (observe fun _ e => e) ()
        [.add ⟨1, 1, -5, 4, .buy, .limit⟩, .add ⟨2, 1, -5, 4, .sell, .limit⟩] 4 = .ok s ∧
      ∃ n ∈ (s.1.book.levels .buy 5).orders, ∃ m ∈ (s.1.book.levels .sell 5).orders,
        ¬ n.order.price < m.order.price := by
    decide +kernel
  exact ⟨s, hs, fun h => hcrossed (h 5 5 n hn m hm)⟩

/-! ### Exact caches -/

/-- Where the caches are exact, all that an order crosses is in reach. -/
theorem Tidy.clears (ht : Tidy b) (hp : b.config.Priced) (hb : Coherent b) (o : Order) :
    Clears b o :=
  Or.inr fun _ hi hcross => (ht.inReach_iff hp hb hi).mpr hcross

end OrderBook

end MiniTrader
