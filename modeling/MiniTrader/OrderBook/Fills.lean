import MiniTrader.OrderBook.Queue
import MiniTrader.OrderBook.Run

/-!
# The fills of a match

`matchQueue` is the list of the orders a match would come to if the quantity never ran out. How far
it comes is a matter of the quantity: it takes one order after the other completely, and the last
one perhaps in part. `greedy` is that list of fills.

Every fill is reported twice and settled on the queue that it is taken from, and nothing else
happens (`exists_addOrder`). During a match the fills still to come are the greedy fills of what is
left of the queue and of the quantity (`Sweeping`), so the loops of `match` run through the list
whatever levels it comes from.

A fill is reported at the cached price. This is the price of the resting order when every order
rests at the price of its level and the caches hold prices of levels, and a book on the grid keeps
both, whatever else is wrong with its caches.

## Main definitions

* `Reference.greedy`, `Reference.fillReports`, `Reference.settle` — what a match does
* `GridCached` — the caches hold prices of levels
* `reachableFills` — the fills of an incoming order

## Main results

* `greedy_eq_of_sublist` — what the fills depend on
* `exists_addOrder` — one call, in any reachable state
-/

namespace MiniTrader

open Fuelled

namespace Reference

/-! ### Greedy fills -/

/-- Greedy matching of a quantity: the orders it is matched with, each with its fill. -/
def greedy : ℤ → List Order → List (Order × ℤ)
  | _, [] => []
  | q, o :: queue =>
    if 0 < q then (o, min q o.quantity) :: greedy (q - min q o.quantity) queue else []

/-- The two reports of a fill, at the price of the resting order. -/
def fillReports (o : Order) (f : Order × ℤ) : List ExecutionReport :=
  [⟨o.orderId, f.1.orderId, f.1.price, f.2, o.side, false⟩,
    ⟨f.1.orderId, o.orderId, f.1.price, f.2, o.side.opp, true⟩]

/-- The open orders after a fill. -/
def settle (live : List Order) (f : Order × ℤ) : List Order :=
  if f.1.quantity ≤ f.2 then live.filter fun o => o.orderId ≠ f.1.orderId
  else live.map fun o =>
    if o.orderId = f.1.orderId then o.withQuantity (o.quantity - f.2) else o

/-- The total quantity of some fills. -/
def filled (fills : List (Order × ℤ)) : ℤ := (fills.map Prod.snd).sum

/-- The total quantity of some orders. -/
def total (orders : List Order) : ℤ := (orders.map Order.quantity).sum

variable {q : ℤ} {o : Order} {l l' : List Order}

@[simp] theorem greedy_nil (q : ℤ) : greedy q [] = [] := by unfold greedy; rfl

theorem greedy_of_not_pos {q : ℤ} (h : ¬ 0 < q) (queue : List Order) : greedy q queue = [] := by
  cases queue with
  | nil => exact greedy_nil q
  | cons o queue => rw [greedy, if_neg h]

theorem greedy_cons {q : ℤ} (h : 0 < q) (o : Order) (queue : List Order) :
    greedy q (o :: queue) = (o, min q o.quantity) :: greedy (q - min q o.quantity) queue := by
  rw [greedy, if_pos h]

@[simp] theorem filled_append (l l' : List (Order × ℤ)) :
    filled (l ++ l') = filled l + filled l' := by
  simp [filled]

@[simp] theorem total_nil : total [] = 0 := rfl

@[simp] theorem total_cons (o : Order) (l : List Order) :
    total (o :: l) = o.quantity + total l := by
  simp [total]

theorem total_nonneg (h : ∀ o ∈ l, 0 < o.quantity) : 0 ≤ total l := by
  induction l with
  | nil => exact le_rfl
  | cons o l ih =>
    have ho := h o List.mem_cons_self
    have hl := ih fun o' ho' => h o' (List.mem_cons_of_mem _ ho')
    rw [total_cons]
    omega

theorem total_filter_le {p : Order → Bool} (h : ∀ o ∈ l, 0 < o.quantity) :
    total (l.filter p) ≤ total l := by
  induction l with
  | nil => exact le_rfl
  | cons o l ih =>
    have ho := h o List.mem_cons_self
    have hl := ih fun o' ho' => h o' (List.mem_cons_of_mem _ ho')
    rw [List.filter_cons, total_cons]
    split
    · rw [total_cons]; omega
    · omega

@[simp] theorem total_append (l l' : List Order) : total (l ++ l') = total l + total l' := by
  simp [total]

@[simp] theorem filled_cons (f : Order × ℤ) (fills : List (Order × ℤ)) :
    filled (f :: fills) = f.2 + filled fills := by
  simp [filled]

/-- Greedy fills take what is asked for, or all there is. -/
theorem filled_greedy (hq : 0 ≤ q) (h : ∀ o ∈ l, 0 < o.quantity) :
    filled (greedy q l) = min q (total l) := by
  induction l generalizing q with
  | nil =>
    rw [greedy_nil, total_nil, min_eq_right hq]
    rfl
  | cons o l ih =>
    have ho := h o List.mem_cons_self
    have hl := fun o' ho' => h o' (List.mem_cons_of_mem _ ho')
    have hnn := total_nonneg hl
    by_cases hpos : 0 < q
    · rw [greedy_cons hpos, filled_cons, ih (by omega) hl, total_cons]
      omega
    · rw [greedy_of_not_pos hpos, total_cons]
      have : filled [] = 0 := rfl
      omega

/-- The orders that are filled are some of the orders. -/
theorem mem_of_mem_greedy {f : Order × ℤ} (h : f ∈ greedy q l) : f.1 ∈ l := by
  induction l generalizing q with
  | nil => rw [greedy_nil] at h; cases h
  | cons o l ih =>
    by_cases hpos : 0 < q
    · rw [greedy_cons hpos] at h
      rcases List.mem_cons.mp h with rfl | h
      · exact List.mem_cons_self
      · exact List.mem_cons_of_mem _ (ih h)
    · rw [greedy_of_not_pos hpos] at h
      cases h

/-- An order is filled when the orders before it do not use the quantity up. -/
theorem exists_mem_greedy {as : List Order} (h : ∀ o ∈ as, 0 < o.quantity) (hq : total as < q)
    (o : Order) (bs : List Order) : ∃ f ∈ greedy q (as ++ o :: bs), f.1 = o := by
  induction as generalizing q with
  | nil =>
    rw [List.nil_append, greedy_cons hq]
    exact ⟨_, List.mem_cons_self, rfl⟩
  | cons a as ih =>
    have ha := h a List.mem_cons_self
    have has := fun o' ho' => h o' (List.mem_cons_of_mem _ ho')
    have hnn := total_nonneg has
    rw [total_cons] at hq
    obtain ⟨f, hf, rfl⟩ := ih (q := q - min q a.quantity) has (by omega)
    rw [List.cons_append, greedy_cons (by omega)]
    exact ⟨f, List.mem_cons_of_mem _ hf, rfl⟩

/-- **Leaving orders out** changes nothing if the quantity does not come to them. -/
theorem greedy_eq_of_sublist (hs : l'.Sublist l) (hnd : l.Nodup) (h : ∀ o ∈ l, 0 < o.quantity)
    (hreach : ∀ as o bs, l = as ++ o :: bs → total as < q → o ∈ l') : greedy q l' = greedy q l := by
  induction hs generalizing q with
  | slnil => rfl
  | @cons l' l a hs ih =>
    by_cases hpos : 0 < q
    · have ha : a ∈ l' := hreach [] a l rfl hpos
      exact absurd (hs.subset ha) (List.nodup_cons.mp hnd).1
    · rw [greedy_of_not_pos hpos, greedy_of_not_pos hpos]
  | @cons_cons l' l a hs ih =>
    by_cases hpos : 0 < q
    · have hl := fun o ho => h o (List.mem_cons_of_mem _ ho)
      have hnd' := (List.nodup_cons.mp hnd)
      rw [greedy_cons hpos, greedy_cons hpos, ih hnd'.2 hl]
      rintro as o bs rfl hq
      have hnn := total_nonneg (l := as) fun o ho => hl o (List.mem_append_left _ ho)
      have ho : o ∈ a :: l' :=
        hreach (a :: as) o bs rfl (by rw [total_cons]; omega)
      refine (List.mem_cons.mp ho).resolve_left ?_
      rintro rfl
      exact hnd'.1 (List.mem_append_right _ List.mem_cons_self)
    · rw [greedy_of_not_pos hpos, greedy_of_not_pos hpos]

/-! ### Settling fills -/

/-- A fill changes the quantity of an order and nothing else, so it can be settled on the orders of
one queue. -/
theorem filter_settle {p : Order → Bool} (hp : ∀ o q, p (o.withQuantity q) = p o)
    (live : List Order) (f : Order × ℤ) :
    (settle live f).filter p = settle (live.filter p) f := by
  rw [settle, settle]
  split
  · rw [List.filter_filter, List.filter_filter]
    exact List.filter_congr fun o _ => Bool.and_comm _ _
  · rw [List.filter_map]
    congr 1
    refine List.filter_congr fun o _ => ?_
    rw [Function.comp_apply]
    split
    · exact hp o _
    · rfl

theorem filter_foldl_settle {p : Order → Bool} (hp : ∀ o q, p (o.withQuantity q) = p o)
    (fills : List (Order × ℤ)) (live : List Order) :
    (fills.foldl settle live).filter p = fills.foldl settle (live.filter p) := by
  induction fills generalizing live with
  | nil => rfl
  | cons f fills ih => rw [List.foldl_cons, ih, filter_settle hp, List.foldl_cons]

theorem exists_mem_of_mem_settle {live : List Order} {f : Order × ℤ} (h : o ∈ settle live f) :
    ∃ o' ∈ live, o'.price = o.price := by
  rw [settle] at h
  split at h
  · exact ⟨o, List.mem_of_mem_filter h, rfl⟩
  · obtain ⟨o', ho', rfl⟩ := List.mem_map.mp h
    refine ⟨o', ho', ?_⟩
    split <;> rfl

/-- No order is new after a settlement, and none has moved. -/
theorem exists_mem_of_mem_foldl_settle {fills : List (Order × ℤ)} {live : List Order}
    (h : o ∈ fills.foldl settle live) : ∃ o' ∈ live, o'.price = o.price := by
  induction fills generalizing live with
  | nil => exact ⟨o, h, rfl⟩
  | cons f fills ih =>
    obtain ⟨o', ho', he⟩ := ih h
    obtain ⟨o'', ho'', he'⟩ := exists_mem_of_mem_settle ho'
    exact ⟨o'', ho'', he'.trans he⟩

end Reference

namespace OrderBook

open Reference

variable {ε : Type} {b b' b₀ : OrderBook} {s t side : Side} {i j idx : ℕ} {n m : Node} {o : Order}
  {price : ℤ} {c : OrderBookConfig} {used : List ℕ}

/-! ### Caches on the grid -/

/-- The caches hold prices of levels. -/
def GridCached (b : OrderBook) : Prop := ∀ s, 0 ≤ b.best s → b.config.OnGrid (b.best s)

theorem gridCached_new (c : OrderBookConfig) : GridCached (new c) := by
  intro s h
  have : (0 : ℤ) ≤ -1 := by cases s <;> exact h
  omega

theorem GridCached.of_best (h : GridCached b) (hc : b'.config = b.config)
    (hb : ∀ s, b'.best s = b.best s) : GridCached b' := by
  intro s hs
  rw [hc, hb s]
  rw [hb s] at hs
  exact h s hs

/-- A scan finds the price of a level, or nothing. -/
theorem GridCached.updateBestAfterEmpty (h : GridCached b) (hb : Coherent b)
    (hi : i < b.config.numLevels) : GridCached (b.updateBestAfterEmpty s i) := by
  intro t ht
  rw [best_updateBestAfterEmpty] at ht ⊢
  rw [config_updateBestAfterEmpty]
  by_cases hts : t = s
  · rw [if_pos hts] at ht ⊢
    cases hn : b.nextLevel s i with
    | none => rw [scanBest_eq_of_none hn] at ht; omega
    | some j =>
      rw [hb.scanBest_of_some hn]
      exact OrderBookConfig.onGrid_iff.mpr ⟨j, nextLevel_lt hn hi, rfl⟩
  · rw [if_neg hts] at ht ⊢
    exact h t ht

theorem GridCached.refreshBest (h : GridCached b) (hb : Coherent b) (hi : i < b.config.numLevels) :
    GridCached (b.refreshBest s i) := by
  rw [OrderBook.refreshBest]
  split
  · exact h.updateBestAfterEmpty hb hi
  · exact h

theorem GridCached.leaveLevel (h : GridCached b) (hb : Coherent b) (hi : i < b.config.numLevels) :
    GridCached (b.leaveLevel s i) := by
  rw [OrderBook.leaveLevel]
  split
  · exact h.updateBestAfterEmpty hb hi
  · exact h

theorem GridCached.cancelOrder {id : ℕ} {r : Bool} (h : GridCached b) (hb : Coherent b)
    (hc : b.cancelOrder id = .ok (r, b')) : GridCached b' := by
  rcases hb.exists_cancelOrder id with ⟨-, he⟩ | ⟨s, i, n, hn, -, he⟩
  · rw [he] at hc; cases hc; exact h
  · rw [he] at hc; cases hc
    refine GridCached.refreshBest (h.of_best config_unlink fun _ => best_unlink) (hb.unlink hn) ?_
    rw [config_unlink]
    exact hb.inRange hn

theorem GridCached.join (h : GridCached b) (hgrid : b.config.OnGrid o.price) :
    GridCached (b.join o) := by
  intro t ht
  rw [best_join] at ht ⊢
  rw [config_join]
  split
  · exact hgrid
  · rw [if_neg ‹_›] at ht
    exact h t ht

theorem Tidy.gridCached (h : Tidy b) : GridCached b := by
  intro s hs
  rcases h.best s with ⟨hnil, -⟩ | ⟨k, hat, -⟩
  · omega
  · exact OrderBookConfig.onGrid_iff.mpr ⟨k, hat.lt, hat.best⟩

/-- **The cache holds the price of the orders at its level.** -/
theorem Aligned.price_eq_best (ha : Aligned b) (h : GridCached b) (hbest : 0 ≤ b.best s)
    (hn : n ∈ (b.levels s (b.config.priceToIndex (b.best s))).orders) :
    n.order.price = b.best s := by
  rw [ha _ _ n hn, (h s hbest).priceAt_priceToIndex]

/-! ### Fills of the queue -/

/-- The greedy fills of a queue begin with the fill of its head. -/
theorem greedy_map_queueAfter {q : ℤ} (hq : 0 < q) (n : Node) (queue : List Node) :
    greedy q ((n :: queue).map Node.order) = (n.order, min q n.order.quantity) ::
      greedy (q - min q n.order.quantity)
        ((queueAfter (min q n.order.quantity) (n :: queue)).map Node.order) := by
  rw [List.map_cons, greedy_cons hq, queueAfter]
  congr 1
  split
  · rfl
  · rw [greedy_of_not_pos (by omega), greedy_of_not_pos (by omega)]

/-- **Leaving a level** does not change the fills to come: the queue is the same, or nothing is left
to fill. -/
theorem greedy_leaveLevel {w : World ε} (hb : Coherent w.book)
    (hi : i < w.book.config.numLevels) (hg : ¬ LevelGuard side i (o, w)) :
    greedy o.quantity (((w.book.leaveLevel side.opp i).matchQueue side o.price).map Node.order) =
      greedy o.quantity ((w.book.queueFrom side o.price i).map Node.order) := by
  rcases matchQueue_leaveLevel hb hi hg with hqueue | hq
  · rw [hqueue]
  · rw [greedy_of_not_pos (not_lt.mpr hq), greedy_of_not_pos (not_lt.mpr hq)]

theorem map_unlink (hb : Coherent b) (hl : Located b) (hn : n ∈ (b.levels s i).orders) :
    ((b.unlink s i n).levels t j).orders.map Node.order =
      ((b.levels t j).orders.map Node.order).filter fun o => o.orderId ≠ n.order.orderId := by
  rw [List.filter_map]
  by_cases h : t = s ∧ j = i
  · obtain ⟨rfl, rfl⟩ := h
    rw [orders_unlink_self]
    congr 1
    refine List.filter_congr fun m hm => ?_
    have : m.handle = n.handle ↔ m.order.orderId = n.order.orderId :=
      ⟨fun he => by rw [PriceLevel.eq_of_handle_eq (hb.nodup _ _) hm hn he],
        fun he => by rw [(hl.eq_of_orderId hb hm hn he trivial).2.2]⟩
    simp [this]
  · rw [levels_unlink_of_ne h]
    congr 1
    refine (List.filter_eq_self.mpr fun m hm => ?_).symm
    have : m.order.orderId ≠ n.order.orderId := by
      intro he
      obtain ⟨rfl, rfl, -⟩ := hl.eq_of_orderId hb hm hn he trivial
      exact h ⟨rfl, rfl⟩
    simpa using this

/-- What a partial fill does to the orders of the book. -/
theorem map_reduceFront {rest : List Node} {q : ℤ} (hb : Coherent b) (hl : Located b)
    (hfront : (b.levels s i).orders = n :: rest) :
    ((b.reduceFront s i q).levels t j).orders.map Node.order =
      ((b.levels t j).orders.map Node.order).map fun o =>
        if o.orderId = n.order.orderId then o.withQuantity (o.quantity - q) else o := by
  have hn : n ∈ (b.levels s i).orders := by rw [hfront]; exact List.mem_cons_self
  rw [List.map_map]
  by_cases h : t = s ∧ j = i
  · obtain ⟨rfl, rfl⟩ := h
    have hnd := hb.nodup t j
    rw [hfront, List.map_cons, List.nodup_cons] at hnd
    rw [levels_reduceFront_self hfront, hfront, List.map_cons, List.map_cons]
    congr 1
    · simp [reduced, Order.withQuantity]
    · refine List.map_congr_left fun m hm => ?_
      have hm' : m ∈ (b.levels t j).orders := by rw [hfront]; exact List.mem_cons_of_mem _ hm
      have : m.order.orderId ≠ n.order.orderId := by
        intro he
        obtain ⟨-, -, rfl⟩ := hl.eq_of_orderId hb hm' hn he trivial
        exact hnd.1 (List.mem_map_of_mem hm)
      simp [this]
  · rw [levels_reduceFront_of_ne h]
    refine List.map_congr_left fun m hm => ?_
    have : m.order.orderId ≠ n.order.orderId := by
      intro he
      obtain ⟨rfl, rfl, -⟩ := hl.eq_of_orderId hb hm hn he trivial
      exact h ⟨rfl, rfl⟩
    simp [this]

/-! ### One call -/

/-- The fills of an incoming order: greedy ones, of what is in reach. -/
def reachableFills (b : OrderBook) (o : Order) : List (Order × ℤ) :=
  greedy o.quantity ((b.matchQueue o.side o.price).map Node.order)

/-- A fill of the front order of a level, in the queue of any level. -/
theorem map_settleFront {rest : List Node} {q : ℤ} (hb : Coherent b) (hl : Located b)
    (hfront : (b.levels s i).orders = n :: rest) :
    ((b.settleFront s i n.order q).levels t j).orders.map Node.order =
      settle ((b.levels t j).orders.map Node.order) (n.order, q) := by
  have hn : n ∈ (b.levels s i).orders := by rw [hfront]; exact List.mem_cons_self
  rw [settle]
  rcases hb.settleFront_cases (q := q) hfront with ⟨hq, he⟩ | ⟨hq, he⟩
  · rw [he, if_pos hq]
    exact map_unlink hb hl hn
  · rw [he, if_neg (not_le.mpr hq)]
    exact map_reduceFront hb hl hfront

variable {f : ExecutionReport → ε → ε} {e₀ : ε} {o₀ o : Order} {w w' : World ε}
  {queue queue' : List Node}

/-- Where the match of `o₀` with the book `b₀` stands: `o` is what is left of the order, `queue` is
what is left of the queue, and the fills made so far, with those the rest will make, are the fills
of the call. -/
structure Sweeping (f : ExecutionReport → ε → ε) (b₀ : OrderBook) (e₀ : ε) (o₀ o : Order)
    (w : World ε) (queue : List Node) : Prop where
  order_eq : o = o₀.withQuantity o.quantity
  fills : ∃ done, b₀.reachableFills o₀ = done ++ greedy o.quantity (queue.map Node.order) ∧
    o.quantity = o₀.quantity - filled done ∧
    w.env = (done.flatMap (fillReports o₀)).foldl (fun e r => f r e) e₀ ∧
    ∀ s i, (w.book.levels s i).orders.map Node.order =
      done.foldl settle ((b₀.levels s i).orders.map Node.order)

theorem Sweeping.congr (h : Sweeping f b₀ e₀ o₀ o w queue)
    (hq : greedy o.quantity (queue'.map Node.order) = greedy o.quantity (queue.map Node.order))
    (he : w'.env = w.env) (hl : ∀ s, w'.book.levels s = w.book.levels s) :
    Sweeping f b₀ e₀ o₀ o w' queue' := by
  obtain ⟨done, hfills, hleft, henv, hqueues⟩ := h.fills
  exact ⟨h.order_eq, done, by rw [hq]; exact hfills, hleft, he.trans henv,
    fun s i => by rw [hl]; exact hqueues s i⟩

/-- **One fill.** -/
theorem Sweeping.fill {rest : List Node} (h : Sweeping f b₀ e₀ o₀ o w
      (w.book.queueFrom o₀.side o.price idx)) (hb : Coherent w.book) (hl : Located w.book)
    (hprice : n.order.price = w.book.best o₀.side.opp)
    (hfront : (w.book.levels o₀.side.opp idx).orders = n :: rest) (hq : 0 < o.quantity) :
    Sweeping f b₀ e₀ o₀ (Order.afterFill o n)
      ⟨w.book.settleFront o₀.side.opp idx n.order (min o.quantity n.order.quantity),
        f (makerReport o₀.side o n (w.book.best o₀.side.opp))
          (f (takerReport o₀.side o n (w.book.best o₀.side.opp)) w.env)⟩
      ((w.book.settleFront o₀.side.opp idx n.order (min o.quantity n.order.quantity)).queueFrom
        o₀.side o.price idx) := by
  obtain ⟨done, hfills, hleft, henv, hqueues⟩ := h.fills
  have hid : o.orderId = o₀.orderId := by rw [h.order_eq]; rfl
  refine ⟨by rw [h.order_eq]; rfl, done ++ [(n.order, min o.quantity n.order.quantity)],
    ?_, ?_, ?_, fun s i => ?_⟩
  · rw [queueFrom_settleFront hb hfront, hfills, List.append_assoc]
    congr 1
    rw [queueFrom_eq_cons hfront, greedy_map_queueAfter hq]
    rfl
  · rw [filled_append, Order.afterFill, Order.quantity_withQuantity, hleft]
    simp only [filled_cons]
    have : filled [] = 0 := rfl
    omega
  · rw [henv, ← hprice, List.flatMap_append, List.foldl_append]
    simp [fillReports, takerReport, makerReport, hid]
  · rw [List.foldl_append, List.foldl_cons, List.foldl_nil, ← hqueues]
    exact map_settleFront hb hl hfront

/-- What every book on the grid has, between the fills. -/
structure OnLevels (b : OrderBook) : Prop where
  located : Located b
  aligned : Aligned b
  cached : GridCached b

theorem OnLevels.settleFront {rest : List Node} {q : ℤ} (h : OnLevels b) (hb : Coherent b)
    (hfront : (b.levels s i).orders = n :: rest) (hq : 0 ≤ q) :
    OnLevels (b.settleFront s i n.order q) where
  located := h.located.settleFront hb hfront
  aligned := h.aligned.within (hb.restsWithin_settleFront hfront hq) config_settleFront
  cached := h.cached.of_best config_settleFront fun _ => best_settleFront

theorem OnLevels.leaveLevel (h : OnLevels b) (hb : Coherent b) (hi : i < b.config.numLevels) :
    OnLevels (b.leaveLevel s i) where
  located := h.located.congr orderMap_leaveLevel fun _ => levels_leaveLevel
  aligned := h.aligned.within (restsWithin_of_levels fun _ => levels_leaveLevel) config_leaveLevel
  cached := h.cached.leaveLevel hb hi

/-- **Every match** makes the fills of what is in reach. -/
theorem sparingRule_sweeping (c : OrderBookConfig) (f : ExecutionReport → ε → ε) (b₀ : OrderBook)
    (e₀ : ε) (o₀ : Order) :
    SparingRule c (observe f) o₀.side
      (fun o w => OnLevels w.book ∧
        Sweeping f b₀ e₀ o₀ o w (w.book.matchQueue o₀.side o.price))
      (fun idx o w => OnLevels w.book ∧ 0 ≤ w.book.best o₀.side.opp ∧
        idx = w.book.config.priceToIndex (w.book.best o₀.side.opp) ∧
        Sweeping f b₀ e₀ o₀ o w (w.book.queueFrom o₀.side o.price idx)) := by
  refine sparingRule_observe ?_ ?_ ?_
  · rintro o w - - ⟨hon, hs⟩ hg
    exact ⟨hon, hg.2.1, rfl, hs.congr (by rw [matchQueue_of_guard hg]) rfl fun _ => rfl⟩
  · rintro idx o w n rest hb - ⟨hon, hbest, rfl, hs⟩ hfront hq
    have hn : n ∈ (w.book.levels o₀.side.opp
        (w.book.config.priceToIndex (w.book.best o₀.side.opp))).orders := by
      rw [hfront]; exact List.mem_cons_self
    have hpos := hb.coherent.positive hn
    have hprice := hon.aligned.price_eq_best hon.cached hbest hn
    refine ⟨hon.settleFront hb.coherent hfront (by omega), ?_, ?_,
      hs.fill hb.coherent hon.located hprice hfront hq⟩
    · rw [best_settleFront]; exact hbest
    · rw [config_settleFront, best_settleFront]
  · rintro idx o w hb - ⟨hon, hbest, rfl, hs⟩ hg
    have hidx := hb.cached _ hbest
    exact ⟨hon.leaveLevel hb.coherent hidx,
      hs.congr (greedy_leaveLevel hb.coherent hidx hg) rfl fun _ => levels_leaveLevel⟩

/-- The state in which `match` leaves the world: the fills are reported and settled. -/
structure Called (f : ExecutionReport → ε → ε) (o : Order) (w w' : World ε) : Prop where
  within : RestsWithin w'.book w.book
  env : w'.env = ((w.book.reachableFills o).flatMap (fillReports o)).foldl (fun e r => f r e) w.env
  queue : ∀ s i, (w'.book.levels s i).orders.map Node.order =
    (w.book.reachableFills o).foldl settle ((w.book.levels s i).orders.map Node.order)

theorem sweeping_start (f : ExecutionReport → ε → ε) (o : Order) (w : World ε) :
    Sweeping f w.book w.env o o w (w.book.matchQueue o.side o.price) :=
  ⟨rfl, [], rfl, by simp [filled], rfl, fun _ _ => rfl⟩

/-- A match that has stopped has made all its fills. -/
theorem Sweeping.called {q : ℤ}
    (h : Sweeping f w.book w.env o (o.withQuantity q) w' (w'.book.matchQueue o.side o.price))
    (hstop : ¬ MatchGuard o.side (o.withQuantity q, w')) (hw : RestsWithin w'.book w.book) :
    q = o.quantity - filled (w.book.reachableFills o) ∧ Called f o w w' := by
  obtain ⟨done, hfills, hleft, henv, hqueues⟩ := h.fills
  have hdone : w.book.reachableFills o = done := by
    rw [hfills]
    by_cases hq : 0 < (o.withQuantity q).quantity
    · have hnil : w'.book.matchQueue o.side o.price = [] :=
        matchQueue_of_not_guard (o := o.withQuantity q) hstop hq
      rw [hnil, List.map_nil, greedy_nil, List.append_nil]
    · rw [greedy_of_not_pos hq, List.append_nil]
  rw [← hdone] at hleft henv hqueues
  exact ⟨hleft, hw, henv, hqueues⟩

/-- **One match**, in any book on the grid. -/
theorem OnLevels.exists_matchOrder (h : OnLevels w.book) (hb : Sound w.book) (o : Order) :
    ∃ w', Converges (fun fuel => matchOrder (observe f) fuel (o, w))
        (.ok (o.withQuantity (o.quantity - filled (w.book.reachableFills o)), w')) ∧
      OnLevels w'.book ∧ Called f o w w' := by
  obtain ⟨q, w', hm, -, -, ⟨hwithin, hon, hs⟩, hstop⟩ :=
    ((sparingRule_sweeping w.book.config f w.book w.env o).within w.book).matchOrder rfl hb rfl
      ⟨RestsWithin.refl _, h, sweeping_start f o w⟩
  obtain ⟨rfl, hcalled⟩ := hs.called hstop hwithin
  exact ⟨w', hm, hon, hcalled⟩

/-- **One call of `add_order`**, in any reachable state. -/
theorem exists_addOrder (h : Reaches c used w.book) (hg : GridCached w.book)
    (hok : (BookOp.add o).Ok c used) (htype : o.type ≠ .cancel) :
    ∃ w', Converges (fun fuel => addOrder (observe f) fuel o w)
        (.ok (OrderBook.afterMatch
          (o.withQuantity (o.quantity - filled (w.book.reachableFills o))) w')) ∧
      Reaches c used w'.book ∧ GridCached w'.book ∧
      Reaches c (BookOp.usedIds used (.add o)) (OrderBook.afterMatch
        (o.withQuantity (o.quantity - filled (w.book.reachableFills o))) w').book ∧
      Called f o w w' := by
  obtain ⟨q, w', hm, hr, hr', ⟨hwithin, hon, hs⟩, hstop⟩ :=
    ((sparingRule_sweeping c f w.book w.env o).within w.book).addOrder_reaches h htype
      (fun hl => (hok hl).2)
      ⟨RestsWithin.refl _, ⟨h.located, h.aligned, hg⟩, sweeping_start f o w⟩
  obtain ⟨rfl, hcalled⟩ := hs.called hstop hwithin
  exact ⟨w', hm, hr, hon.cached, hr', hcalled⟩

/-- The callback that records. -/
theorem Called.reports {w w' : World (List ExecutionReport)}
    (h : Called (fun r log => log ++ [r]) o w w') :
    w'.env = w.env ++ (w.book.reachableFills o).flatMap (fillReports o) := by
  have hfold : ∀ (rs log : List ExecutionReport),
      rs.foldl (fun e r => e ++ [r]) log = log ++ rs := by
    intro rs
    induction rs with
    | nil => exact fun log => (List.append_nil log).symm
    | cons r rs ih =>
      intro log
      rw [List.foldl_cons, ih, List.append_assoc, List.singleton_append]
  rw [h.env, hfold]

theorem GridCached.afterMatch (h : GridCached w.book)
    (hgrid : o.type = .limit → w.book.config.OnGrid o.price) :
    GridCached (OrderBook.afterMatch o w).book := by
  rw [OrderBook.afterMatch]
  split
  · exact h.join (hgrid (‹_ ∧ _› : _ ∧ _).2)
  · exact h

end OrderBook

end MiniTrader
