import MiniTrader.OrderBook.Basic
import Mathlib.Data.List.Infix
import Mathlib.Logic.Relation

/-!
# Coherence of the index, the queues and the totals

The book keeps one fact in four places: the queue of a level, its running total, the node an
iterator designates, and the entry of the id map that holds the iterator. `Coherent` and `Located`
say that they agree.

`Coherent` is what makes the code safe: whatever entry the map has, its iterator designates a node.
It holds whatever ids the callers use. It does not mention the cached best prices, so it survives
whatever the caches do, and it does not assume that prices lie on the grid: an order rests at the
level its price is *rounded* to, and that is all the map and the queues know about. `Located` is
the converse, that every resting order has its own entry, and needs distinct ids: a second order
with the same id takes the entry of the first.

## Three primitives

Everything the book does to its queues is one of

* `unlink` — a node leaves its level and its entry leaves the map (a cancel, or a complete fill),
* `reduceFront` — the front order of a level loses part of its quantity (a partial fill),
* `join` — a new node joins a level (the remainder of a limit order).

Each primitive comes with a membership lemma saying exactly which nodes rest afterwards, and changes
one level, so that coherence has to be shown for that level only. `cancelOrder`, `settleFront` and
`restOrder` are then *equal* to these primitives on a coherent book, so later files never unfold
them again.

## Main definitions

* `OrderBook.Coherent`, `OrderBook.Located`, `OrderBook.LocatedOn` — the invariants
* `OrderBook.CancelsOthers` — what a callback that spares one order may do to the book

## Main results

* `Coherent.of_level` — what has to be shown when one level changes
* `coherent_new`, `Coherent.unlink`, `Coherent.reduceFront`, `Coherent.join`
* `Coherent.exists_cancelOrder` — a cancel never faults
* `Coherent.settleFront_full`, `Coherent.settleFront_of_lt`
* `CancelsOthers.coherent`, `CancelsOthers.front` — the spared order stays where it is
* `LocatedOn.eq_of_orderId` — an id rests at most once
-/

namespace MiniTrader

open Fuelled

namespace OrderBook

variable {b b' : OrderBook} {s t : Side} {i j : ℕ} {n m : Node}

/-! ### Reading after writing -/

@[simp] theorem levels_setLevel (b : OrderBook) (s t : Side) (i j : ℕ) (l : PriceLevel) :
    (b.setLevel s i l).levels t j = if t = s ∧ j = i then l else b.levels t j := by
  cases s <;> cases t <;> simp [setLevel, levels, Function.update_apply]

@[simp] theorem orders_new (c : OrderBookConfig) (s : Side) (i : ℕ) :
    ((new c).levels s i).orders = [] := by cases s <;> rfl

@[simp] theorem best_setLevel (b : OrderBook) (s t : Side) (i : ℕ) (l : PriceLevel) :
    (b.setLevel s i l).best t = b.best t := by
  cases s <;> cases t <;> rfl

@[simp] theorem config_setLevel (b : OrderBook) (s : Side) (i : ℕ) (l : PriceLevel) :
    (b.setLevel s i l).config = b.config := by cases s <;> rfl

@[simp] theorem orderMap_setLevel (b : OrderBook) (s : Side) (i : ℕ) (l : PriceLevel) :
    (b.setLevel s i l).orderMap = b.orderMap := by cases s <;> rfl

@[simp] theorem nextNode_setLevel (b : OrderBook) (s : Side) (i : ℕ) (l : PriceLevel) :
    (b.setLevel s i l).nextNode = b.nextNode := by cases s <;> rfl

@[simp] theorem levels_setBest (b : OrderBook) (s t : Side) (p : ℤ) :
    (b.setBest s p).levels t = b.levels t := by cases s <;> cases t <;> rfl

@[simp] theorem best_setBest (b : OrderBook) (s t : Side) (p : ℤ) :
    (b.setBest s p).best t = if t = s then p else b.best t := by
  cases s <;> cases t <;> rfl

@[simp] theorem config_setBest (b : OrderBook) (s : Side) (p : ℤ) :
    (b.setBest s p).config = b.config := by cases s <;> rfl

@[simp] theorem orderMap_setBest (b : OrderBook) (s : Side) (p : ℤ) :
    (b.setBest s p).orderMap = b.orderMap := by cases s <;> rfl

@[simp] theorem nextNode_setBest (b : OrderBook) (s : Side) (p : ℤ) :
    (b.setBest s p).nextNode = b.nextNode := by cases s <;> rfl

/-! ### The scans as one function

Both helpers look for the first non-empty level in a list of indices. -/

/-- The indices a scan looks at, in its order, when level `idx` of the side has been exhausted. -/
def beyond (c : OrderBookConfig) : Side → ℕ → List ℕ
  | .buy, idx => (List.range (castInt idx).toNat).reverse
  | .sell, idx => List.range' (idx + 1) (c.numLevels - (idx + 1))

/-- What a scan finds. -/
def nextLevel (b : OrderBook) (s : Side) (idx : ℕ) : Option ℕ :=
  (beyond b.config s idx).find? fun i => !(b.levels s i).empty

/-- The best price a scan leaves in the cache. -/
def scanBest (b : OrderBook) (s : Side) (idx : ℕ) : ℤ :=
  firstNonEmpty (b.levels s) (beyond b.config s idx)

theorem scanBest_eq_of_some (h : b.nextLevel s i = some j) :
    b.scanBest s i = (b.levels s j).price := by
  unfold nextLevel at h; unfold scanBest firstNonEmpty; rw [h]

theorem scanBest_eq_of_none (h : b.nextLevel s i = none) : b.scanBest s i = -1 := by
  unfold nextLevel at h; unfold scanBest firstNonEmpty; rw [h]

theorem updateBestAfterEmpty_eq (b : OrderBook) (s : Side) (idx : ℕ) :
    b.updateBestAfterEmpty s idx = b.setBest s (b.scanBest s idx) := by
  cases s <;> rfl

/-! ### The invariant -/

/-- The iterators of the id map are valid, and the queues and the totals agree. -/
structure Coherent (b : OrderBook) : Prop where
  /-- Every entry designates a resting order with that id. -/
  indexed : ∀ {id loc}, b.orderMap.lookup id = some loc →
    ∃ n ∈ (b.levels loc.side loc.priceIdx).orders, n.handle = loc.it ∧ n.order.orderId = id
  /-- The nodes of a level have distinct addresses. -/
  nodup : ∀ s i, ((b.levels s i).orders.map Node.handle).Nodup
  /-- The allocator never hands out an address that is in use. -/
  fresh : ∀ {s i n}, n ∈ (b.levels s i).orders → n.handle < b.nextNode
  /-- Resting orders have something left to trade. -/
  positive : ∀ {s i n}, n ∈ (b.levels s i).orders → 0 < n.order.quantity
  /-- They rest on their own side. -/
  side_eq : ∀ {s i n}, n ∈ (b.levels s i).orders → n.order.side = s
  /-- They rest at the level their price is rounded to. -/
  index_eq : ∀ {s i n}, n ∈ (b.levels s i).orders → b.config.priceToIndex n.order.price = i
  /-- That level exists. -/
  inRange : ∀ {s i n}, n ∈ (b.levels s i).orders → i < b.config.numLevels
  /-- The running totals are exact. -/
  total : ∀ s i, (b.levels s i).totalQuantity = PriceLevel.sumQuantity (b.levels s i).orders
  /-- A level keeps the price the constructor gave it. -/
  price : ∀ s i, (b.levels s i).price = b.config.priceAt i

theorem coherent_new (c : OrderBookConfig) : Coherent (new c) := by
  have hmem : ∀ {s i n}, n ∉ ((new c).levels s i).orders := by simp
  constructor
  case indexed => intro id loc h; cases h
  case nodup => intro s i; rw [orders_new]; exact List.nodup_nil
  case total => intro s i; rw [orders_new]; cases s <;> rfl
  case price => intro s i; cases s <;> rfl
  all_goals exact fun h => absurd h hmem

/-- The caches are not part of coherence. -/
theorem Coherent.setBest (hb : Coherent b) (s : Side) (p : ℤ) : Coherent (b.setBest s p) := by
  constructor
  case indexed => intro id loc h; simpa using hb.indexed (by simpa using h)
  case nodup => intro t i; simpa using hb.nodup t i
  case fresh => intro t i n hn; simpa using hb.fresh (by simpa using hn)
  case positive => intro t i n hn; exact hb.positive (by simpa using hn)
  case side_eq => intro t i n hn; exact hb.side_eq (by simpa using hn)
  case index_eq => intro t i n hn; simpa using hb.index_eq (by simpa using hn)
  case inRange => intro t i n hn; simpa using hb.inRange (by simpa using hn)
  case total => intro t i; simpa using hb.total t i
  case price => intro t i; simpa using hb.price t i

theorem Coherent.updateBestAfterEmpty (hb : Coherent b) (s : Side) (i : ℕ) :
    Coherent (b.updateBestAfterEmpty s i) := by
  rw [updateBestAfterEmpty_eq]; exact hb.setBest s _

/-- A node is in one place only. -/
theorem Coherent.eq_of_mem (hb : Coherent b) (hn : n ∈ (b.levels s i).orders)
    (hm : n ∈ (b.levels t j).orders) : s = t ∧ i = j := by
  refine ⟨?_, ?_⟩
  · rw [← hb.side_eq hn, hb.side_eq hm]
  · rw [← hb.index_eq hn, hb.index_eq hm]

/-- What is true of a node at level `i` of side `s`. -/
structure Fits (b : OrderBook) (s : Side) (i : ℕ) (n : Node) : Prop where
  fresh : n.handle < b.nextNode
  positive : 0 < n.order.quantity
  side_eq : n.order.side = s
  index_eq : b.config.priceToIndex n.order.price = i
  inRange : i < b.config.numLevels

theorem Coherent.fits (hb : Coherent b) (hn : n ∈ (b.levels s i).orders) : Fits b s i n :=
  ⟨hb.fresh hn, hb.positive hn, hb.side_eq hn, hb.index_eq hn, hb.inRange hn⟩

theorem Fits.mono (h : Fits b s i n) (hc : b'.config = b.config)
    (hnext : b.nextNode ≤ b'.nextNode) : Fits b' s i n where
  fresh := h.fresh.trans_le hnext
  positive := h.positive
  side_eq := h.side_eq
  index_eq := by rw [hc]; exact h.index_eq
  inRange := by rw [hc]; exact h.inRange

/-- **One level changes**: what has to be shown of that level, of its new nodes and of the map. -/
theorem Coherent.of_level (hb : Coherent b) (hc : b'.config = b.config)
    (hnext : b.nextNode ≤ b'.nextNode)
    (hother : ∀ t j, ¬ (t = s ∧ j = i) → b'.levels t j = b.levels t j)
    (hprice : (b'.levels s i).price = (b.levels s i).price)
    (hnodup : ((b'.levels s i).orders.map Node.handle).Nodup)
    (htotal : (b'.levels s i).totalQuantity = PriceLevel.sumQuantity (b'.levels s i).orders)
    (hnodes : ∀ m ∈ (b'.levels s i).orders, m ∈ (b.levels s i).orders ∨ Fits b' s i m)
    (hindexed : ∀ {id loc}, b'.orderMap.lookup id = some loc →
      ∃ n ∈ (b'.levels loc.side loc.priceIdx).orders, n.handle = loc.it ∧ n.order.orderId = id) :
    Coherent b' := by
  have hfits : ∀ {t j m}, m ∈ (b'.levels t j).orders → Fits b' t j m := by
    intro t j m hm
    by_cases h : t = s ∧ j = i
    · obtain ⟨rfl, rfl⟩ := h
      rcases hnodes m hm with hold | hnew
      · exact (hb.fits hold).mono hc hnext
      · exact hnew
    · rw [hother t j h] at hm
      exact (hb.fits hm).mono hc hnext
  constructor
  case indexed => exact hindexed
  case fresh => exact fun hm => (hfits hm).fresh
  case positive => exact fun hm => (hfits hm).positive
  case side_eq => exact fun hm => (hfits hm).side_eq
  case index_eq => exact fun hm => (hfits hm).index_eq
  case inRange => exact fun hm => (hfits hm).inRange
  case nodup =>
    intro t j
    by_cases h : t = s ∧ j = i
    · obtain ⟨rfl, rfl⟩ := h
      exact hnodup
    · rw [hother t j h]
      exact hb.nodup t j
  case total =>
    intro t j
    by_cases h : t = s ∧ j = i
    · obtain ⟨rfl, rfl⟩ := h
      exact htotal
    · rw [hother t j h]
      exact hb.total t j
  case price =>
    intro t j
    rw [hc, ← hb.price t j]
    by_cases h : t = s ∧ j = i
    · obtain ⟨rfl, rfl⟩ := h
      exact hprice
    · rw [hother t j h]

/-! ### Unlinking a node -/

/-- `n` leaves level `i` of side `s`, and its entry leaves the map. -/
def unlink (b : OrderBook) (s : Side) (i : ℕ) (n : Node) : OrderBook :=
  { b with orderMap := b.orderMap.erase n.order.orderId }.setLevel s i ((b.levels s i).without n)

@[simp] theorem config_unlink : (b.unlink s i n).config = b.config := by simp [unlink]

@[simp] theorem best_unlink : (b.unlink s i n).best t = b.best t := by
  rw [unlink, best_setLevel]; cases t <;> rfl

@[simp] theorem nextNode_unlink : (b.unlink s i n).nextNode = b.nextNode := by simp [unlink]

theorem levels_unlink : (b.unlink s i n).levels t j =
    if t = s ∧ j = i then (b.levels s i).without n else b.levels t j := by
  rw [unlink, levels_setLevel]; cases t <;> rfl

theorem levels_unlink_of_ne (h : ¬ (t = s ∧ j = i)) :
    (b.unlink s i n).levels t j = b.levels t j := by
  rw [levels_unlink, if_neg h]

@[simp] theorem price_unlink : ((b.unlink s i n).levels t j).price = (b.levels t j).price := by
  rw [levels_unlink]; split
  · rename_i h; obtain ⟨rfl, rfl⟩ := h; rfl
  · rfl

@[simp] theorem orders_unlink_self : ((b.unlink s i n).levels s i).orders =
    (b.levels s i).orders.filter fun m => m.handle ≠ n.handle := by
  rw [levels_unlink, if_pos ⟨rfl, rfl⟩]; rfl

/-- Unlinking removes exactly one node from the book. -/
theorem Coherent.mem_unlink (hb : Coherent b) (hn : n ∈ (b.levels s i).orders) :
    m ∈ ((b.unlink s i n).levels t j).orders ↔ m ∈ (b.levels t j).orders ∧ m ≠ n := by
  by_cases h : t = s ∧ j = i
  · obtain ⟨rfl, rfl⟩ := h
    rw [orders_unlink_self, List.mem_filter]
    refine and_congr_right fun hm => ?_
    simp only [ne_eq, decide_not, Bool.not_eq_eq_eq_not, Bool.not_true, decide_eq_false_iff_not]
    exact not_congr ⟨PriceLevel.eq_of_handle_eq (hb.nodup _ _) hm hn, fun he => he ▸ rfl⟩
  · rw [levels_unlink_of_ne h]
    refine ⟨fun hm => ⟨hm, ?_⟩, And.left⟩
    rintro rfl
    exact h (hb.eq_of_mem hm hn)

theorem Coherent.unlink (hb : Coherent b) (hn : n ∈ (b.levels s i).orders) :
    Coherent (b.unlink s i n) := by
  refine hb.of_level (s := s) (i := i) config_unlink nextNode_unlink.ge
    (fun t j h => levels_unlink_of_ne h) price_unlink ?_ ?_
    (fun m hm => Or.inl ((hb.mem_unlink hn).mp hm).1) fun {id loc} h => ?_
  · rw [orders_unlink_self]
    exact (hb.nodup s i).sublist (List.filter_sublist.map _)
  · rw [levels_unlink, if_pos ⟨rfl, rfl⟩, PriceLevel.without,
      PriceLevel.sumQuantity_filter_handle (hb.nodup s i) hn, hb.total s i]
  · have hmap : (b.unlink s i n).orderMap = b.orderMap.erase n.order.orderId := by
      simp [OrderBook.unlink]
    rw [hmap] at h
    by_cases hid : id = n.order.orderId
    · rw [hid, AList.lookup_erase] at h
      cases h
    · rw [AList.lookup_erase_ne hid] at h
      obtain ⟨m, hm, hh, hmid⟩ := hb.indexed h
      exact ⟨m, (hb.mem_unlink hn).mpr ⟨hm, fun he => hid (by rw [← hmid, he])⟩, hh, hmid⟩

/-! ### Cancelling -/

theorem Coherent.refreshBest (hb : Coherent b) (s : Side) (i : ℕ) :
    Coherent (b.refreshBest s i) := by
  rw [OrderBook.refreshBest]
  split
  · exact hb.updateBestAfterEmpty s i
  · exact hb

@[simp] theorem levels_updateBestAfterEmpty :
    (b.updateBestAfterEmpty s i).levels t = b.levels t := by
  rw [updateBestAfterEmpty_eq, levels_setBest]

@[simp] theorem config_updateBestAfterEmpty :
    (b.updateBestAfterEmpty s i).config = b.config := by
  rw [updateBestAfterEmpty_eq, config_setBest]

@[simp] theorem nextNode_updateBestAfterEmpty :
    (b.updateBestAfterEmpty s i).nextNode = b.nextNode := by
  rw [updateBestAfterEmpty_eq, nextNode_setBest]

@[simp] theorem best_updateBestAfterEmpty :
    (b.updateBestAfterEmpty s i).best t = if t = s then b.scanBest s i else b.best t := by
  rw [updateBestAfterEmpty_eq, best_setBest]

@[simp] theorem levels_refreshBest : (b.refreshBest s i).levels t = b.levels t := by
  rw [refreshBest]; split <;> simp

@[simp] theorem config_refreshBest : (b.refreshBest s i).config = b.config := by
  rw [refreshBest]; split <;> simp

@[simp] theorem nextNode_refreshBest : (b.refreshBest s i).nextNode = b.nextNode := by
  rw [refreshBest]; split <;> simp

theorem best_refreshBest_of_ne (h : t ≠ s) : (b.refreshBest s i).best t = b.best t := by
  rw [refreshBest]; split <;> simp [h]

/-- Cancelling an id with an entry unlinks the node the entry designates and refreshes the cache of
its side. -/
theorem Coherent.cancelOrder_of_lookup {loc : OrderLocation} (hb : Coherent b)
    (hl : b.orderMap.lookup n.order.orderId = some loc)
    (hn : n ∈ (b.levels loc.side loc.priceIdx).orders) (hh : n.handle = loc.it) :
    b.cancelOrder n.order.orderId =
      .ok (true, (b.unlink loc.side loc.priceIdx n).refreshBest loc.side loc.priceIdx) := by
  have hlev : ∀ m : AList fun _ : ℕ => OrderLocation,
      ({ b with orderMap := m } : OrderBook).levels loc.side loc.priceIdx =
        b.levels loc.side loc.priceIdx := by intro m; cases loc.side <;> rfl
  have herase := PriceLevel.erase_of_mem (hb.nodup _ _) hn
  rw [cancelOrder, hl]
  simp only [hlev, ← hh, herase, if_pos (hb.inRange hn)]
  rfl

theorem cancelOrder_of_lookup_eq_none {id : ℕ} (h : b.orderMap.lookup id = none) :
    b.cancelOrder id = .ok (false, b) := by
  rw [cancelOrder, h]

/-- **A cancel never faults on a coherent book**, and does one of two things. -/
theorem Coherent.exists_cancelOrder (hb : Coherent b) (id : ℕ) :
    (b.orderMap.lookup id = none ∧ b.cancelOrder id = .ok (false, b)) ∨
      ∃ s i n, n ∈ (b.levels s i).orders ∧ n.order.orderId = id ∧
        b.cancelOrder id = .ok (true, (b.unlink s i n).refreshBest s i) := by
  cases h : b.orderMap.lookup id with
  | none => exact Or.inl ⟨rfl, cancelOrder_of_lookup_eq_none h⟩
  | some loc =>
    obtain ⟨n, hn, hh, rfl⟩ := hb.indexed h
    exact Or.inr ⟨_, _, n, hn, rfl, hb.cancelOrder_of_lookup h hn hh⟩

theorem Coherent.cancelOrder {id : ℕ} {r : Bool} (hb : Coherent b)
    (h : b.cancelOrder id = .ok (r, b')) : Coherent b' := by
  rcases hb.exists_cancelOrder id with ⟨-, hc⟩ | ⟨s, i, n, hn, -, hc⟩
  · rw [hc] at h; cases h; exact hb
  · rw [hc] at h; cases h; exact (hb.unlink hn).refreshBest s i

/-! ### What a callback may do to the book

A fill callback can call `cancel_order` on the book it was called from. -/

/-- `b'` is `b` after some cancels, none of them of the order `id`. -/
def CancelsOthers (id : ℕ) : OrderBook → OrderBook → Prop :=
  Relation.ReflTransGen fun b b' => ∃ id' ≠ id, ∃ r, b.cancelOrder id' = .ok (r, b')

theorem CancelsOthers.refl (id : ℕ) (b : OrderBook) : CancelsOthers id b b :=
  Relation.ReflTransGen.refl

theorem CancelsOthers.trans {id : ℕ} {b₁ b₂ b₃ : OrderBook} (h : CancelsOthers id b₁ b₂)
    (h' : CancelsOthers id b₂ b₃) : CancelsOthers id b₁ b₃ :=
  Relation.ReflTransGen.trans h h'

theorem CancelsOthers.of_cancelOrder {id id' : ℕ} {r : Bool} (hne : id' ≠ id)
    (h : b.cancelOrder id' = .ok (r, b')) : CancelsOthers id b b' :=
  Relation.ReflTransGen.single ⟨id', hne, r, h⟩

/-- A property that every single cancel of another order keeps survives the callback. The
induction every lemma below is an instance of. -/
theorem CancelsOthers.induction {id : ℕ} {P : OrderBook → Prop}
    (hstep : ∀ {b s i n}, Coherent b → P b → n ∈ (b.levels s i).orders → n.order.orderId ≠ id →
      P ((b.unlink s i n).refreshBest s i))
    (h : CancelsOthers id b b') (hb : Coherent b) (hP : P b) : Coherent b' ∧ P b' := by
  induction h with
  | refl => exact ⟨hb, hP⟩
  | tail _ hcancel ih =>
    obtain ⟨hb, hP⟩ := ih
    obtain ⟨id', hne, r, hc⟩ := hcancel
    refine ⟨hb.cancelOrder hc, ?_⟩
    rcases hb.exists_cancelOrder id' with ⟨-, hc'⟩ | ⟨s, i, n, hn, rfl, hc'⟩
    · rw [hc'] at hc; cases hc; exact hP
    · rw [hc'] at hc; cases hc; exact hstep hb hP hn hne

theorem CancelsOthers.coherent {id : ℕ} (h : CancelsOthers id b b') (hb : Coherent b) :
    Coherent b' :=
  (h.induction (P := fun _ => True) (fun _ _ _ _ => trivial) hb trivial).1

theorem CancelsOthers.config_eq {id : ℕ} (h : CancelsOthers id b b') (hb : Coherent b) :
    b'.config = b.config :=
  (h.induction (P := fun b' => b'.config = b.config)
    (fun _ hP _ _ => by rw [config_refreshBest, config_unlink, hP]) hb rfl).2

/-- Unlinking another node leaves the front of a queue where it is. -/
theorem unlink_front {rest : List Node} (hb : Coherent b)
    (hfront : (b.levels t j).orders = n :: rest) (hm : m ∈ (b.levels s i).orders)
    (hne : m.order.orderId ≠ n.order.orderId) :
    ∃ rest', ((b.unlink s i m).levels t j).orders = n :: rest' ∧ rest'.length ≤ rest.length := by
  by_cases h : t = s ∧ j = i
  · obtain ⟨rfl, rfl⟩ := h
    have hn : n ∈ (b.levels t j).orders := by rw [hfront]; exact List.mem_cons_self
    have hh : n.handle ≠ m.handle := fun he =>
      hne (PriceLevel.eq_of_handle_eq (hb.nodup t j) hn hm he ▸ rfl)
    refine ⟨rest.filter fun k => k.handle ≠ m.handle, ?_, List.length_filter_le _ _⟩
    rw [orders_unlink_self, hfront, List.filter_cons_of_pos (by simpa using hh)]
  · exact ⟨rest, by rw [levels_unlink_of_ne h, hfront], le_rfl⟩

/-- The spared order stays at the front of its queue. -/
theorem CancelsOthers.front {rest : List Node} (h : CancelsOthers n.order.orderId b b')
    (hb : Coherent b) (hfront : (b.levels t j).orders = n :: rest) :
    ∃ rest', (b'.levels t j).orders = n :: rest' ∧ rest'.length ≤ rest.length := by
  refine (h.induction (P := fun b' => ∃ rest', (b'.levels t j).orders = n :: rest' ∧
    rest'.length ≤ rest.length) ?_ hb ⟨rest, hfront, le_rfl⟩).2
  rintro b s i m hb ⟨rest', hfront', hlen⟩ hm hne
  obtain ⟨rest'', h1, h2⟩ := unlink_front hb hfront' hm hne
  exact ⟨rest'', by rw [levels_refreshBest, h1], h2.trans hlen⟩

/-! ### Filling the front order -/

/-- A complete fill unlinks the front order. -/
theorem Coherent.settleFront_full {rest : List Node} {q : ℤ} (hb : Coherent b)
    (hfront : (b.levels s i).orders = n :: rest) (hq : n.order.quantity ≤ q) :
    b.settleFront s i n.order q = b.unlink s i n := by
  rw [settleFront, if_pos hq, PriceLevel.removeFront_eq_without (hb.nodup s i) hfront,
    OrderBook.unlink]

/-- The front order after a partial fill. -/
def reduced (n : Node) (q : ℤ) : Node :=
  { n with order := { n.order with quantity := n.order.quantity - q } }

@[simp] theorem reduced_price (n : Node) (q : ℤ) : (reduced n q).order.price = n.order.price := rfl

@[simp] theorem reduced_quantity (n : Node) (q : ℤ) :
    (reduced n q).order.quantity = n.order.quantity - q := rfl

/-- The book after a partial fill of the front order of level `i`. -/
def reduceFront (b : OrderBook) (s : Side) (i : ℕ) (q : ℤ) : OrderBook :=
  b.setLevel s i ((b.levels s i).reduceFront q)

theorem settleFront_of_lt {resting : Order} {q : ℤ} (hq : q < resting.quantity) :
    b.settleFront s i resting q = b.reduceFront s i q := by
  rw [settleFront, if_neg (not_le.mpr hq), reduceFront]

@[simp] theorem config_reduceFront {q : ℤ} : (b.reduceFront s i q).config = b.config := by
  simp [reduceFront]

theorem levels_reduceFront_of_ne {q : ℤ} (h : ¬ (t = s ∧ j = i)) :
    (b.reduceFront s i q).levels t j = b.levels t j := by
  rw [reduceFront, levels_setLevel, if_neg h]

theorem levels_reduceFront_self {rest : List Node} {q : ℤ}
    (hfront : (b.levels s i).orders = n :: rest) :
    (b.reduceFront s i q).levels s i = { b.levels s i with
      totalQuantity := (b.levels s i).totalQuantity - q, orders := reduced n q :: rest } := by
  rw [reduceFront, levels_setLevel, if_pos ⟨rfl, rfl⟩, PriceLevel.reduceFront, hfront]
  rfl

/-- A partial fill replaces the front order and touches nothing else. -/
theorem Coherent.mem_reduceFront {rest : List Node} {q : ℤ} (hb : Coherent b)
    (hfront : (b.levels s i).orders = n :: rest) :
    m ∈ ((b.reduceFront s i q).levels t j).orders ↔
      (m ∈ (b.levels t j).orders ∧ m ≠ n) ∨ (t = s ∧ j = i ∧ m = reduced n q) := by
  have hn : n ∈ (b.levels s i).orders := by rw [hfront]; exact List.mem_cons_self
  by_cases h : t = s ∧ j = i
  · obtain ⟨rfl, rfl⟩ := h
    have hnd := hb.nodup t j
    rw [hfront, List.map_cons, List.nodup_cons] at hnd
    have hnotin : n ∉ rest := fun hmem => hnd.1 (List.mem_map_of_mem hmem)
    rw [levels_reduceFront_self hfront, hfront, List.mem_cons, List.mem_cons]
    constructor
    · rintro (rfl | hm)
      · exact Or.inr ⟨rfl, rfl, rfl⟩
      · exact Or.inl ⟨Or.inr hm, fun he => hnotin (he ▸ hm)⟩
    · rintro (⟨rfl | hm, hne⟩ | ⟨-, -, rfl⟩)
      · exact absurd rfl hne
      · exact Or.inr hm
      · exact Or.inl rfl
  · rw [levels_reduceFront_of_ne h]
    refine ⟨fun hm => Or.inl ⟨hm, ?_⟩, ?_⟩
    · rintro rfl
      exact h (hb.eq_of_mem hm hn)
    · rintro (⟨hm, -⟩ | ⟨rfl, rfl, -⟩)
      · exact hm
      · exact absurd ⟨rfl, rfl⟩ h

theorem Coherent.reduceFront {rest : List Node} {q : ℤ} (hb : Coherent b)
    (hfront : (b.levels s i).orders = n :: rest) (hq : q < n.order.quantity) :
    Coherent (b.reduceFront s i q) := by
  have hmem := fun {t j m} => hb.mem_reduceFront (t := t) (j := j) (m := m) (q := q) hfront
  have hn : n ∈ (b.levels s i).orders := by rw [hfront]; exact List.mem_cons_self
  have hmap : (b.reduceFront s i q).orderMap = b.orderMap := by simp [OrderBook.reduceFront]
  have hnext : (b.reduceFront s i q).nextNode = b.nextNode := by simp [OrderBook.reduceFront]
  have hself := levels_reduceFront_self (q := q) hfront
  refine hb.of_level (s := s) (i := i) config_reduceFront hnext.ge
    (fun t j h => levels_reduceFront_of_ne h) (by rw [hself]) ?_ ?_ (fun m hm => ?_)
    fun {id loc} h => ?_
  · have hd := hb.nodup s i
    rw [hfront] at hd
    rw [hself]
    exact hd
  · have htotal := hb.total s i
    rw [hfront, PriceLevel.sumQuantity_cons] at htotal
    rw [hself]
    simp only [PriceLevel.sumQuantity_cons, reduced_quantity, htotal]
    omega
  · -- the reduced front fits where the front did
    rcases hmem.mp hm with ⟨hm, -⟩ | ⟨-, -, rfl⟩
    · exact Or.inl hm
    · have hold := (hb.fits hn).mono config_reduceFront hnext.ge
      refine Or.inr ⟨hold.fresh, ?_, hold.side_eq, hold.index_eq, hold.inRange⟩
      rw [reduced_quantity]
      omega
  · rw [hmap] at h
    obtain ⟨m, hm, hh, hid⟩ := hb.indexed h
    by_cases hmn : m = n
    · subst hmn
      obtain ⟨hs, hi⟩ := hb.eq_of_mem hm hn
      exact ⟨OrderBook.reduced m q, hmem.mpr (Or.inr ⟨hs, hi, rfl⟩), hh, hid⟩
    · exact ⟨m, hmem.mpr (Or.inl ⟨hm, hmn⟩), hh, hid⟩

/-! ### Resting the remainder -/

/-- The book after the remainder of `o` has joined its level, before the cache is looked at. -/
def link (b : OrderBook) (o : Order) : OrderBook :=
  { b with
    orderMap := b.orderMap.insert o.orderId ⟨o.side, b.config.priceToIndex o.price, b.nextNode⟩
    nextNode := b.nextNode + 1 }.setLevel o.side (b.config.priceToIndex o.price)
      ((b.levels o.side (b.config.priceToIndex o.price)).addOrder b.nextNode o)

/-- The book after the remainder of `o` has joined its level and its side's cache is up to date. -/
def join (b : OrderBook) (o : Order) : OrderBook :=
  if Improves o.side o.price (b.best o.side) then (b.link o).setBest o.side o.price else b.link o

theorem restOrder_eq {o : Order} (h : b.config.priceToIndex o.price < b.config.numLevels) :
    b.restOrder o = .ok (b.join o) := by
  rw [restOrder]; simp only [if_pos h]; rfl

theorem restOrder_eq_error {o : Order} (h : b.config.numLevels ≤ b.config.priceToIndex o.price) :
    b.restOrder o = .error (.fault .outOfRange) := by
  rw [restOrder]; simp only [if_neg (not_lt.mpr h)]

@[simp] theorem config_link {o : Order} : (b.link o).config = b.config := by simp [link]

@[simp] theorem best_link {o : Order} : (b.link o).best t = b.best t := by
  rw [link, best_setLevel]; cases t <;> rfl

@[simp] theorem config_join {o : Order} : (b.join o).config = b.config := by
  rw [join]; split <;> simp

@[simp] theorem nextNode_join {o : Order} : (b.join o).nextNode = b.nextNode + 1 := by
  rw [join]; split <;> simp [link]

@[simp] theorem levels_join {o : Order} : (b.join o).levels t = (b.link o).levels t := by
  rw [join]; split <;> simp

theorem best_join {o : Order} : (b.join o).best t =
    if t = o.side ∧ Improves o.side o.price (b.best o.side) then o.price else b.best t := by
  rw [join]
  by_cases h : Improves o.side o.price (b.best o.side)
  · simp [h]
  · simp [h]

theorem levels_link_of_ne {o : Order} (h : ¬ (t = o.side ∧ j = b.config.priceToIndex o.price)) :
    (b.link o).levels t j = b.levels t j := by
  rw [link, levels_setLevel, if_neg h]; cases t <;> rfl

theorem levels_link_self {o : Order} : (b.link o).levels o.side (b.config.priceToIndex o.price) =
    (b.levels o.side (b.config.priceToIndex o.price)).addOrder b.nextNode o := by
  rw [link, levels_setLevel, if_pos ⟨rfl, rfl⟩]

/-- Resting adds exactly one node to the book. -/
theorem mem_link {o : Order} : m ∈ ((b.link o).levels t j).orders ↔
    m ∈ (b.levels t j).orders ∨
      (t = o.side ∧ j = b.config.priceToIndex o.price ∧ m = ⟨b.nextNode, o⟩) := by
  by_cases h : t = o.side ∧ j = b.config.priceToIndex o.price
  · obtain ⟨rfl, rfl⟩ := h
    rw [levels_link_self]
    simp [PriceLevel.addOrder]
  · rw [levels_link_of_ne h]
    exact ⟨Or.inl, fun h' => h'.resolve_right fun ⟨h1, h2, _⟩ => h ⟨h1, h2⟩⟩

/-- Nothing is asked of the id: the entry is overwritten by `operator[]`, and an earlier order with
the same id loses it, but no iterator becomes invalid. -/
theorem Coherent.link {o : Order} (hb : Coherent b) (hq : 0 < o.quantity)
    (hidx : b.config.priceToIndex o.price < b.config.numLevels) : Coherent (b.link o) := by
  have hmap : (b.link o).orderMap = b.orderMap.insert o.orderId
      ⟨o.side, b.config.priceToIndex o.price, b.nextNode⟩ := by simp [OrderBook.link]
  have hnext : (b.link o).nextNode = b.nextNode + 1 := by simp [OrderBook.link]
  have hself := levels_link_self (b := b) (o := o)
  refine hb.of_level (s := o.side) (i := b.config.priceToIndex o.price) config_link
    (by rw [hnext]; exact Nat.le_succ _) (fun t j h => levels_link_of_ne h) (by rw [hself]; rfl)
    ?_ ?_ (fun m hm => ?_) fun {id loc} h => ?_
  · -- the new node has an address of its own
    rw [hself, PriceLevel.addOrder, List.map_append, List.nodup_append]
    refine ⟨hb.nodup _ _, List.nodup_singleton _, ?_⟩
    intro x hx y hy
    obtain ⟨m, hm, rfl⟩ := List.mem_map.mp hx
    have := hb.fresh hm
    simp only [List.map_cons, List.map_nil, List.mem_singleton] at hy
    omega
  · rw [hself, PriceLevel.addOrder]
    simp [hb.total]
  · rcases mem_link.mp hm with hm | ⟨-, -, rfl⟩
    · exact Or.inl hm
    · refine Or.inr ⟨?_, hq, rfl, ?_, ?_⟩
      · rw [hnext]
        exact Nat.lt_succ_self _
      · rw [config_link]
      · rw [config_link]
        exact hidx
  · rw [hmap] at h
    by_cases hne : id = o.orderId
    · subst hne
      rw [AList.lookup_insert, Option.some.injEq] at h
      subst h
      exact ⟨⟨b.nextNode, o⟩, mem_link.mpr (Or.inr ⟨rfl, rfl, rfl⟩), rfl, rfl⟩
    · rw [AList.lookup_insert_ne hne] at h
      obtain ⟨m, hm, hh, hmid⟩ := hb.indexed h
      exact ⟨m, mem_link.mpr (Or.inl hm), hh, hmid⟩

theorem Coherent.join {o : Order} (hb : Coherent b) (hq : 0 < o.quantity)
    (hidx : b.config.priceToIndex o.price < b.config.numLevels) : Coherent (b.join o) := by
  rw [OrderBook.join]
  split
  · exact (hb.link hq hidx).setBest _ _
  · exact hb.link hq hidx

/-! ### Resting orders have their entries -/

/-- Every resting order whose id is in `P` has its own entry in the map. -/
def LocatedOn (P : ℕ → Prop) (b : OrderBook) : Prop :=
  ∀ s i, ∀ n ∈ (b.levels s i).orders, P n.order.orderId →
    b.orderMap.lookup n.order.orderId = some ⟨s, i, n.handle⟩

/-- Every resting order has its own entry in the map. -/
abbrev Located (b : OrderBook) : Prop := LocatedOn (fun _ => True) b

variable {P : ℕ → Prop}

theorem locatedOn_new (c : OrderBookConfig) : LocatedOn P (new c) := by
  intro s i n hn
  rw [orders_new] at hn
  cases hn

/-- An id with an entry of its own rests at most once in the whole book. -/
theorem LocatedOn.eq_of_orderId (hl : LocatedOn P b) (hb : Coherent b)
    (hn : n ∈ (b.levels s i).orders) (hm : m ∈ (b.levels t j).orders)
    (h : n.order.orderId = m.order.orderId) (hP : P m.order.orderId) : s = t ∧ i = j ∧ n = m := by
  have hloc := hl s i n hn (h ▸ hP)
  rw [h, hl t j m hm hP, Option.some.injEq, OrderLocation.mk.injEq] at hloc
  obtain ⟨rfl, rfl, hh⟩ := hloc
  exact ⟨rfl, rfl, PriceLevel.eq_of_handle_eq (hb.nodup _ _) hn hm hh.symm⟩

theorem LocatedOn.congr (hl : LocatedOn P b) (hmap : b'.orderMap = b.orderMap)
    (hlev : ∀ s, b'.levels s = b.levels s) : LocatedOn P b' := by
  intro s i n hn
  rw [hmap]
  exact hl s i n (hlev s ▸ hn)

theorem orderMap_refreshBest : (b.refreshBest s i).orderMap = b.orderMap := by
  rw [refreshBest, updateBestAfterEmpty_eq]; split <;> simp

theorem LocatedOn.unlink (hl : LocatedOn P b) (hb : Coherent b)
    (hn : n ∈ (b.levels s i).orders) : LocatedOn P (b.unlink s i n) := by
  have hmap : (b.unlink s i n).orderMap = b.orderMap.erase n.order.orderId := by
    simp [OrderBook.unlink]
  intro t j m hm hP
  obtain ⟨hm, hne⟩ := (hb.mem_unlink hn).mp hm
  have hid : m.order.orderId ≠ n.order.orderId := fun h =>
    hne (hl.eq_of_orderId hb hn hm h.symm hP).2.2.symm
  rw [hmap, AList.lookup_erase_ne hid]
  exact hl t j m hm hP

theorem LocatedOn.reduceFront {rest : List Node} {q : ℤ} (hl : LocatedOn P b) (hb : Coherent b)
    (hfront : (b.levels s i).orders = n :: rest) : LocatedOn P (b.reduceFront s i q) := by
  have hmap : (b.reduceFront s i q).orderMap = b.orderMap := by simp [OrderBook.reduceFront]
  intro t j m hm hP
  rw [hmap]
  rcases (hb.mem_reduceFront hfront).mp hm with ⟨hm, -⟩ | ⟨rfl, rfl, rfl⟩
  · exact hl t j m hm hP
  · exact hl t j n (by rw [hfront]; exact List.mem_cons_self) hP

theorem LocatedOn.cancelOrder {id : ℕ} {r : Bool} (hl : LocatedOn P b) (hb : Coherent b)
    (h : b.cancelOrder id = .ok (r, b')) : LocatedOn P b' := by
  rcases hb.exists_cancelOrder id with ⟨-, hc⟩ | ⟨s, i, n, hn, -, hc⟩
  · rw [hc] at h; cases h; exact hl
  · rw [hc] at h; cases h
    exact (hl.unlink hb hn).congr orderMap_refreshBest fun _ => levels_refreshBest

theorem CancelsOthers.located {id : ℕ} (h : CancelsOthers id b b') (hb : Coherent b)
    (hl : LocatedOn P b) : LocatedOn P b' := by
  refine (h.induction (P := LocatedOn P) (fun hb hP hn _ => ?_) hb hl).2
  exact (hP.unlink hb hn).congr orderMap_refreshBest fun _ => levels_refreshBest

/-- No order with the id rests. -/
def NotResting (b : OrderBook) (id : ℕ) : Prop :=
  ∀ s i, ∀ n ∈ (b.levels s i).orders, n.order.orderId ≠ id

theorem LocatedOn.notResting {id : ℕ} (hl : LocatedOn P b) (hP : P id)
    (h : b.orderMap.lookup id = none) : NotResting b id := by
  rintro s i n hn rfl
  rw [hl s i n hn hP] at h
  cases h

/-- After a cancel the id does not rest, whatever the answer was. -/
theorem LocatedOn.notResting_cancelOrder {id : ℕ} {r : Bool} (hl : LocatedOn P b)
    (hb : Coherent b) (hP : P id) (h : b.cancelOrder id = .ok (r, b')) : NotResting b' id := by
  rcases hb.exists_cancelOrder id with ⟨hnone, hc⟩ | ⟨s, i, n, hn, rfl, hc⟩
  · rw [hc] at h
    cases h
    exact hl.notResting hP hnone
  · rw [hc] at h
    cases h
    intro t j m hm he
    rw [levels_refreshBest] at hm
    obtain ⟨hm, hne⟩ := (hb.mem_unlink hn).mp hm
    exact hne (hl.eq_of_orderId hb hm hn he hP).2.2

theorem LocatedOn.join {o : Order} (hl : LocatedOn P b)
    (hid : P o.orderId → NotResting b o.orderId) : LocatedOn P (b.join o) := by
  have hmap : (b.join o).orderMap = b.orderMap.insert o.orderId
      ⟨o.side, b.config.priceToIndex o.price, b.nextNode⟩ := by
    rw [OrderBook.join]; split <;> simp [OrderBook.link]
  intro t j m hm hP
  rw [hmap]
  rw [levels_join] at hm
  rcases mem_link.mp hm with hm | ⟨rfl, rfl, rfl⟩
  · have hne : m.order.orderId ≠ o.orderId := fun he => hid (he ▸ hP) t j m hm he
    rw [AList.lookup_insert_ne hne]
    exact hl t j m hm hP
  · exact AList.lookup_insert _

end OrderBook

end MiniTrader
