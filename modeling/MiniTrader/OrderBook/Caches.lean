import MiniTrader.OrderBook.Sweep

/-!
# The cached best prices

Two invariants about `best_bid_` and `best_ask_`, for two kinds of input.

`Sound` adds to coherence that a non-negative cache designates a level. It holds for orders at any
price inside the range, and it is all that `match` needs in order not to fault.

`Tidy` is for orders on the price grid. It says that the caches are *exact* — the best occupied
level of each side, or `-1` — and that the book is not crossed. A scan helper looks at one side of
the exhausted level only, so it restores exactness just when no better level is occupied; during a
sweep that is the invariant `TidyAt idx`, in which level `idx` itself may have become empty while
the cache still holds its price.

## Proofs about `match`

`SparingRule` is the rule of `Sweep` for callbacks that, at most, cancel orders other than the one
being filled. Its obligations assume `Sound`, and `SparingRule.tidy` extends any instance by
`Tidy`. So the two inductions of this file are done once for all callbacks.

## Main definitions

* `Sound`, `Priced`, `BestExact`, `Tidy`, `TidyAt`
* `SparingRule`

## Main results

* `bestExact_updateBestAfterEmpty` — what a scan restores
* `BestExact.cancel`, `Tidy.cancelOrder`, `Tidy.restOrder`
* `SparingRule.sweepRule`, `SparingRule.tidy`, `SparingRule.matchOrder`
-/

namespace MiniTrader

open Fuelled

namespace OrderBookConfig

variable {c : OrderBookConfig} {p : ℤ} {i j : ℕ}

@[simp] theorem priceAt_lt_priceAt : c.priceAt i < c.priceAt j ↔ i < j := by
  have h := @Int.mul_lt_mul_right c.tickSize i j c.tick_pos
  unfold priceAt
  omega

@[simp] theorem priceAt_le_priceAt : c.priceAt i ≤ c.priceAt j ↔ i ≤ j := by
  rw [← not_lt, priceAt_lt_priceAt, not_lt]

@[simp] theorem priceAt_inj : c.priceAt i = c.priceAt j ↔ i = j := by
  rw [le_antisymm_iff, priceAt_le_priceAt, priceAt_le_priceAt, ← le_antisymm_iff]

theorem priceAt_nonneg (h : 0 ≤ c.minPrice) (i : ℕ) : 0 ≤ c.priceAt i := by
  have := Int.mul_nonneg (Int.natCast_nonneg i) c.tick_pos.le
  unfold priceAt
  omega

/-- A price of the grid inside the range. -/
def OnGrid (c : OrderBookConfig) (p : ℤ) : Prop :=
  ∃ k : ℕ, p = c.minPrice + k * c.tickSize ∧ p ≤ c.maxPrice

/-- The prices of the grid are the prices of the levels. -/
theorem onGrid_iff : c.OnGrid p ↔ ∃ k < c.numLevels, p = c.priceAt k := by
  have htick := c.tick_pos
  have hspan : 0 ≤ c.maxPrice - c.minPrice := Int.sub_nonneg_of_le c.min_le_max
  have key : ∀ k : ℕ, c.priceAt k ≤ c.maxPrice ↔ k < c.numLevels := by
    intro k
    have hdiv : (k : ℤ) ≤ (c.maxPrice - c.minPrice) / c.tickSize ↔
        k * c.tickSize ≤ c.maxPrice - c.minPrice := Int.le_ediv_iff_mul_le htick
    have hnn : 0 ≤ (c.maxPrice - c.minPrice) / c.tickSize := Int.ediv_nonneg hspan htick.le
    unfold numLevels priceAt
    rw [Int.tdiv_eq_ediv_of_nonneg hspan]
    omega
  constructor
  · rintro ⟨k, rfl, h⟩; exact ⟨k, (key k).mp h, rfl⟩
  · rintro ⟨k, h, rfl⟩; exact ⟨k, rfl, (key k).mpr h⟩

theorem OnGrid.priceToIndex_lt (h : c.OnGrid p) : c.priceToIndex p < c.numLevels := by
  obtain ⟨k, hk, rfl⟩ := onGrid_iff.mp h
  rwa [c.priceToIndex_priceAt hk]

theorem OnGrid.priceAt_priceToIndex (h : c.OnGrid p) : c.priceAt (c.priceToIndex p) = p := by
  obtain ⟨k, hk, rfl⟩ := onGrid_iff.mp h
  rw [c.priceToIndex_priceAt hk]

/-- The configurations whose caches work: `-1` is not a price, and a level index fits the `int` of
the downward scan. -/
structure Priced (c : OrderBookConfig) : Prop where
  nonneg : 0 ≤ c.minPrice
  levels : c.numLevels ≤ 2147483648

end OrderBookConfig

namespace OrderBook

variable {ε : Type} {b b' : OrderBook} {s t : Side} {i j : ℕ} {n m : Node}

/-! ### Caches that designate a level -/

/-- Coherence, and caches that designate a level. -/
structure Sound (b : OrderBook) : Prop where
  coherent : Coherent b
  cached : ∀ s, 0 ≤ b.best s → b.config.priceToIndex (b.best s) < b.config.numLevels

theorem sound_new (c : OrderBookConfig) : Sound (new c) where
  coherent := coherent_new c
  cached s h := by cases s <;> (have : (0 : ℤ) ≤ -1 := h; omega)

theorem Sound.updateBestAfterEmpty (hb : Sound b) (hi : i < b.config.numLevels) :
    Sound (b.updateBestAfterEmpty s i) where
  coherent := hb.coherent.updateBestAfterEmpty s i
  cached t h := by
    rw [best_updateBestAfterEmpty] at h ⊢
    rw [config_updateBestAfterEmpty]
    split at h
    · rw [if_pos ‹_›]
      cases hn : b.nextLevel s i with
      | none => rw [scanBest_eq_of_none hn] at h; omega
      | some j =>
        rw [hb.coherent.scanBest_of_some hn, b.config.priceToIndex_priceAt (nextLevel_lt hn hi)]
        exact nextLevel_lt hn hi
    · rw [if_neg ‹_›]; exact hb.cached t h

theorem Sound.refreshBest (hb : Sound b) (hi : i < b.config.numLevels) :
    Sound (b.refreshBest s i) := by
  rw [OrderBook.refreshBest]; split
  · exact hb.updateBestAfterEmpty hi
  · exact hb

theorem Coherent.leaveLevel (hb : Coherent b) : Coherent (b.leaveLevel s i) := by
  rw [OrderBook.leaveLevel]; split
  · exact hb.updateBestAfterEmpty s i
  · exact hb

theorem Sound.leaveLevel (hb : Sound b) (hi : i < b.config.numLevels) :
    Sound (b.leaveLevel s i) := by
  rw [OrderBook.leaveLevel]; split
  · exact hb.updateBestAfterEmpty hi
  · exact hb

theorem Sound.unlink (hb : Sound b) (hn : n ∈ (b.levels s i).orders) : Sound (b.unlink s i n) where
  coherent := hb.coherent.unlink hn
  cached t h := by rw [best_unlink] at h ⊢; rw [config_unlink]; exact hb.cached t h

/-- Every fill settles into one of two books. -/
theorem Coherent.settleFront_cases {rest : List Node} {q : ℤ} (hb : Coherent b)
    (hfront : (b.levels s i).orders = n :: rest) :
    (n.order.quantity ≤ q ∧ b.settleFront s i n.order q = b.unlink s i n) ∨
      (q < n.order.quantity ∧ b.settleFront s i n.order q = b.reduceFront s i q) := by
  by_cases hq : n.order.quantity ≤ q
  · exact Or.inl ⟨hq, hb.settleFront_full hfront hq⟩
  · exact Or.inr ⟨not_le.mp hq, settleFront_of_lt (not_le.mp hq)⟩

theorem Coherent.settleFront {rest : List Node} {q : ℤ} (hb : Coherent b)
    (hfront : (b.levels s i).orders = n :: rest) : Coherent (b.settleFront s i n.order q) := by
  rcases hb.settleFront_cases (q := q) hfront with ⟨-, h⟩ | ⟨hq, h⟩
  · rw [h]; exact hb.unlink (by rw [hfront]; exact List.mem_cons_self)
  · rw [h]; exact hb.reduceFront hfront hq

@[simp] theorem config_settleFront {q : ℤ} {r : Order} :
    (b.settleFront s i r q).config = b.config := by
  rw [settleFront]; split <;> simp

@[simp] theorem best_settleFront {q : ℤ} {r : Order} :
    (b.settleFront s i r q).best t = b.best t := by
  rw [settleFront]; split
  · rw [best_setLevel]; cases t <;> rfl
  · rw [best_setLevel]

theorem Sound.settleFront {rest : List Node} {q : ℤ} (hb : Sound b)
    (hfront : (b.levels s i).orders = n :: rest) : Sound (b.settleFront s i n.order q) where
  coherent := hb.coherent.settleFront hfront
  cached t ht := by
    rw [best_settleFront] at ht ⊢
    rw [config_settleFront]
    exact hb.cached t ht

theorem levels_settleFront_of_ne {q : ℤ} {r : Order} (h : ¬ (t = s ∧ j = i)) :
    (b.settleFront s i r q).levels t j = b.levels t j := by
  rw [settleFront]; split
  · rw [levels_setLevel, if_neg h]; cases t <;> rfl
  · rw [levels_setLevel, if_neg h]

theorem Sound.cancelOrder {id : ℕ} {r : Bool} (hb : Sound b)
    (h : b.cancelOrder id = .ok (r, b')) : Sound b' := by
  rcases hb.coherent.exists_cancelOrder id with ⟨-, hc⟩ | ⟨s, i, n, hn, -, hc⟩
  · rw [hc] at h; cases h; exact hb
  · rw [hc] at h; cases h
    exact (hb.unlink hn).refreshBest (by rw [config_unlink]; exact hb.coherent.inRange hn)

theorem CancelsOthers.sound {id : ℕ} (h : CancelsOthers id b b') (hb : Sound b) : Sound b' := by
  induction h with
  | refl => exact hb
  | tail _ hcancel ih => obtain ⟨_, _, _, hc⟩ := hcancel; exact ih.cancelOrder hc

/-- `b'` is `b` after some cancels. -/
def Cancels : OrderBook → OrderBook → Prop :=
  Relation.ReflTransGen fun b b' => ∃ id r, b.cancelOrder id = .ok (r, b')

theorem Cancels.refl (b : OrderBook) : Cancels b b := Relation.ReflTransGen.refl

theorem Cancels.trans {b₁ b₂ b₃ : OrderBook} (h : Cancels b₁ b₂) (h' : Cancels b₂ b₃) :
    Cancels b₁ b₃ :=
  Relation.ReflTransGen.trans h h'

theorem Cancels.of_cancelOrder {id : ℕ} {r : Bool} (h : b.cancelOrder id = .ok (r, b')) :
    Cancels b b' :=
  Relation.ReflTransGen.single ⟨id, r, h⟩

theorem Cancels.sound (h : Cancels b b') (hb : Sound b) : Sound b' ∧ b'.config = b.config := by
  induction h with
  | refl => exact ⟨hb, rfl⟩
  | tail _ hcancel ih =>
    obtain ⟨hb, hconfig⟩ := ih
    obtain ⟨id, r, hc⟩ := hcancel
    refine ⟨hb.cancelOrder hc, Eq.trans ?_ hconfig⟩
    rcases hb.coherent.exists_cancelOrder id with ⟨-, hc'⟩ | ⟨s, i, n, -, -, hc'⟩
    · rw [hc'] at hc
      cases hc
      rfl
    · rw [hc'] at hc
      cases hc
      rw [config_refreshBest, config_unlink]

/-- A cancel only takes away from the queues. -/
theorem Coherent.sublist_cancelOrder {id : ℕ} {r : Bool} (hb : Coherent b)
    (h : b.cancelOrder id = .ok (r, b')) (t : Side) (j : ℕ) :
    (b'.levels t j).orders.Sublist (b.levels t j).orders := by
  rcases hb.exists_cancelOrder id with ⟨-, hc⟩ | ⟨s, i, n, -, -, hc⟩
  · rw [hc] at h
    cases h
    exact List.Sublist.refl _
  · rw [hc] at h
    cases h
    rw [levels_refreshBest]
    by_cases hself : t = s ∧ j = i
    · obtain ⟨rfl, rfl⟩ := hself
      rw [orders_unlink_self]
      exact List.filter_sublist
    · rw [levels_unlink_of_ne hself]

theorem Cancels.sublist (h : Cancels b b') (hb : Coherent b) :
    Coherent b' ∧ ∀ s i, (b'.levels s i).orders.Sublist (b.levels s i).orders := by
  induction h with
  | refl => exact ⟨hb, fun s i => List.Sublist.refl _⟩
  | tail _ hcancel ih =>
    obtain ⟨hb₁, hsub⟩ := ih
    obtain ⟨id, r, hc⟩ := hcancel
    exact ⟨hb₁.cancelOrder hc, fun s i => (hb₁.sublist_cancelOrder hc s i).trans (hsub s i)⟩

/-- A front order whose node can still be read is still the front order, and unchanged. -/
theorem Coherent.front_of_sublist {rest : List Node} {o : Order} (hb : Coherent b)
    (hsub : (b'.levels s i).orders.Sublist (b.levels s i).orders)
    (hfront : (b.levels s i).orders = n :: rest) (hread : b'.readResting s i n.handle = .ok o) :
    o = n.order ∧ ∃ rest', (b'.levels s i).orders = n :: rest' := by
  obtain ⟨m, hm, hh, rfl⟩ := exists_of_readResting_eq_ok hread
  have hn : n ∈ (b.levels s i).orders := by rw [hfront]; exact List.mem_cons_self
  obtain rfl : m = n := PriceLevel.eq_of_handle_eq (hb.nodup s i) (hsub.subset hm) hn hh
  refine ⟨rfl, ?_⟩
  have hd := hb.nodup s i
  rw [hfront] at hsub hd
  rcases List.sublist_cons_iff.mp hsub with hrest | ⟨rest', heq, -⟩
  · exact absurd (List.mem_map_of_mem (hrest.subset hm)) (List.nodup_cons.mp hd).1
  · exact ⟨rest', heq⟩

theorem Sound.join {o : Order} (hb : Sound b) (hq : 0 < o.quantity)
    (hidx : b.config.priceToIndex o.price < b.config.numLevels) : Sound (b.join o) := by
  refine ⟨hb.coherent.join hq hidx, fun t ht => ?_⟩
  rw [best_join] at ht ⊢
  rw [config_join]
  split
  · exact hidx
  · rw [if_neg ‹_›] at ht; exact hb.cached t ht

/-! ### The rule for sparing callbacks -/

/-- The obligations of a proof about `match` with a callback that at most cancels orders other than
the one being filled. -/
structure SparingRule (c : OrderBookConfig) (cb : FillCallback ε) (side : Side)
    (G : Order → World ε → Prop) (H : ℕ → Order → World ε → Prop) : Prop where
  enter : ∀ {o w}, Sound w.book → w.book.config = c → G o w → MatchGuard side (o, w) →
    H (w.book.config.priceToIndex (w.book.best side.opp)) o w
  fill : ∀ {idx o w n rest}, Sound w.book → w.book.config = c → H idx o w →
    (w.book.levels side.opp idx).orders = n :: rest → 0 < o.quantity → ∃ w₁ w₂,
      cb (takerReport side o n (w.book.best side.opp)) w = .ok w₁ ∧
      CancelsOthers n.order.orderId w.book w₁.book ∧
      cb (makerReport side o n (w₁.book.best side.opp)) w₁ = .ok w₂ ∧
      CancelsOthers n.order.orderId w₁.book w₂.book ∧
      H idx (Order.afterFill o n) (w₂.withBook (w₂.book.settleFront side.opp idx n.order
        (min o.quantity n.order.quantity)))
  leave : ∀ {idx o w}, Sound w.book → w.book.config = c → H idx o w →
    ¬ LevelGuard side idx (o, w) → G o (w.withBook (w.book.leaveLevel side.opp idx))

section

variable {c : OrderBookConfig} {cb : FillCallback ε} {side : Side} {G : Order → World ε → Prop}
  {H : ℕ → Order → World ε → Prop}

theorem SparingRule.sweepRule (hr : SparingRule c cb side G H) :
    SweepRule c cb side (fun o w => Sound w.book ∧ w.book.config = c ∧ G o w)
      (fun idx o w => idx < c.numLevels ∧ Sound w.book ∧ w.book.config = c ∧ H idx o w) where
  config h := h.2.2.1
  coherent h := h.2.1.coherent
  inRange h := h.1
  enter := by
    rintro o w ⟨hb, rfl, hG⟩ hg
    exact ⟨hb.cached _ hg.2.1, hb, rfl, hr.enter hb rfl hG hg⟩
  fill := by
    rintro idx o w n rest ⟨hidx, hb, rfl, hH⟩ hfront hq
    obtain ⟨w₁, w₂, h₁, hs₁, h₂, hs₂, hH'⟩ := hr.fill hb rfl hH hfront hq
    have hb₁ := hs₁.sound hb
    have hb₂ := hs₂.sound hb₁
    obtain ⟨rest₁, hf₁, hl₁⟩ := hs₁.front hb.coherent hfront
    obtain ⟨rest₂, hf₂, hl₂⟩ := hs₂.front hb₁.coherent hf₁
    refine ⟨w₁, w₂, rest₂, h₁, hb₁.coherent, by rw [hf₁]; exact List.mem_cons_self, h₂,
      hb₂.coherent, hf₂, hl₂.trans hl₁, hidx, hb₂.settleFront hf₂, ?_, hH'⟩
    rw [World.book_withBook, config_settleFront, hs₂.config_eq hb₁.coherent,
      hs₁.config_eq hb.coherent]
  leave := by
    rintro idx o w ⟨hidx, hb, rfl, hH⟩ hg
    exact ⟨hb.leaveLevel hidx, config_leaveLevel, hr.leave hb rfl hH hg⟩

/-- **The rule.** -/
theorem SparingRule.matchOrder (hr : SparingRule c cb side G H) {o : Order} {w : World ε}
    (hside : o.side = side) (hb : Sound w.book) (hc : w.book.config = c) (hG : G o w) :
    ∃ q w', Converges (fun fuel => matchOrder cb fuel (o, w)) (.ok (o.withQuantity q, w')) ∧
      Sound w'.book ∧ w'.book.config = c ∧ G (o.withQuantity q) w' ∧
      ¬ MatchGuard side (o.withQuantity q, w') := by
  obtain ⟨q, w', hconv, ⟨hb', hc', hG'⟩, hg⟩ := hr.sweepRule.matchOrder hside ⟨hb, hc, hG⟩
  exact ⟨q, w', hconv, hb', hc', hG', hg⟩

end

/-! ### Exact caches -/

/-- Some order rests at level `i`. -/
def Occupied (b : OrderBook) (s : Side) (i : ℕ) : Prop := (b.levels s i).orders ≠ []

theorem occupied_of_mem (h : n ∈ (b.levels s i).orders) : Occupied b s i :=
  List.ne_nil_of_mem h

theorem Coherent.lt_of_occupied (hb : Coherent b) (h : Occupied b s i) :
    i < b.config.numLevels := by
  obtain ⟨n, hn⟩ := List.exists_mem_of_ne_nil _ h
  exact hb.inRange hn

/-- The cache of side `s` holds the price of level `idx`, and no better level is occupied. -/
structure BestAt (b : OrderBook) (s : Side) (idx : ℕ) : Prop where
  lt : idx < b.config.numLevels
  best : b.best s = b.config.priceAt idx
  better : ∀ j, Farther s j idx → ¬ Occupied b s j

/-- The cache of side `s` is exact. -/
def BestExact (b : OrderBook) (s : Side) : Prop :=
  (b.best s = -1 ∧ ∀ j, ¬ Occupied b s j) ∨ ∃ idx, BestAt b s idx ∧ Occupied b s idx

/-- Every bid is below every ask. -/
def Uncrossed (b : OrderBook) : Prop :=
  ∀ i j, Occupied b .buy i → Occupied b .sell j → i < j

/-- The caches and the crossing depend on which levels are occupied, and on nothing else. -/
theorem BestAt.mono (h : BestAt b s i) (hc : b'.config = b.config) (hbest : b'.best s = b.best s)
    (hocc : ∀ j, Occupied b' s j → Occupied b s j) : BestAt b' s i :=
  ⟨hc ▸ h.lt, by rw [hbest, hc, h.best], fun j hj ho => h.better j hj (hocc j ho)⟩

theorem BestExact.congr (h : BestExact b s) (hc : b'.config = b.config)
    (hbest : b'.best s = b.best s) (hocc : ∀ j, Occupied b' s j ↔ Occupied b s j) :
    BestExact b' s := by
  rcases h with ⟨hb, hnone⟩ | ⟨i, hi, ho⟩
  · exact Or.inl ⟨hbest.trans hb, fun j hj => hnone j ((hocc j).mp hj)⟩
  · exact Or.inr ⟨i, hi.mono hc hbest fun j => (hocc j).mp, (hocc i).mpr ho⟩

theorem Uncrossed.mono (h : Uncrossed b) (hocc : ∀ s j, Occupied b' s j → Occupied b s j) :
    Uncrossed b' :=
  fun i j hi hj => h i j (hocc _ i hi) (hocc _ j hj)

/-! ### What a scan restores -/

theorem mem_beyond {c : OrderBookConfig} (hp : c.Priced) (h : Farther s i j)
    (hi : i < c.numLevels) (hj : j < c.numLevels) : j ∈ beyond c s i := by
  have := hp.levels
  cases s with
  | buy =>
    simp only [beyond, List.mem_reverse, List.mem_range, castInt_of_lt (by omega : i < 2147483648)]
    simp only [Farther] at h
    omega
  | sell =>
    simp only [beyond, List.mem_range'_1]
    simp only [Farther] at h
    omega

theorem pairwise_beyond (c : OrderBookConfig) (s : Side) (i : ℕ) :
    (beyond c s i).Pairwise (Farther s) := by
  cases s with
  | buy =>
    simp only [beyond, List.pairwise_reverse]
    exact List.pairwise_lt_range
  | sell => exact List.pairwise_lt_range'

/-- A scan finds the best of the occupied levels it looks at. -/
theorem not_occupied_of_nextLevel {k : ℕ} (h : b.nextLevel s i = some j)
    (hk : k ∈ beyond b.config s i) (hkj : Farther s k j) : ¬ Occupied b s k := by
  obtain ⟨-, as, bs, heq, has⟩ := List.find?_eq_some_iff_append.mp h
  have hpw := pairwise_beyond b.config s i
  rw [heq] at hk hpw
  rcases List.mem_append.mp hk with hk | hk
  · simpa [Occupied] using has k hk
  · rcases List.mem_cons.mp hk with rfl | hk
    · exact absurd hkj farther_irrefl
    · have hjk := List.rel_of_pairwise_cons (List.pairwise_append.mp hpw).2.1 hk
      exact absurd hkj (farther_asymm hjk)

/-- **A scan restores exactness**, provided that nothing is occupied at the exhausted level or at a
better one: the scan does not look there. -/
theorem bestExact_updateBestAfterEmpty (hp : b.config.Priced) (hb : Coherent b)
    (hi : i < b.config.numLevels) (h : ∀ j, Occupied b s j → Farther s i j) :
    BestExact (b.updateBestAfterEmpty s i) s := by
  have hocc : ∀ j, Occupied (b.updateBestAfterEmpty s i) s j ↔ Occupied b s j := by
    intro j; rw [Occupied, levels_updateBestAfterEmpty, Occupied]
  have hmem : ∀ j, Occupied b s j → j ∈ beyond b.config s i := fun j hj =>
    mem_beyond hp (h j hj) hi (hb.lt_of_occupied hj)
  have hbest : (b.updateBestAfterEmpty s i).best s = b.scanBest s i := by simp
  cases hn : b.nextLevel s i with
  | none =>
    refine Or.inl ⟨by rw [hbest, scanBest_eq_of_none hn], fun j hj => ?_⟩
    rw [hocc] at hj
    have := List.find?_eq_none.mp hn j (hmem j hj)
    rw [Occupied] at hj
    simp [hj] at this
  | some j =>
    refine Or.inr ⟨j, ⟨?_, ?_, fun k hk ho => ?_⟩, (hocc j).mpr (orders_ne_nil_of_nextLevel hn)⟩
    · rw [config_updateBestAfterEmpty]; exact nextLevel_lt hn hi
    · rw [config_updateBestAfterEmpty, hbest, hb.scanBest_of_some hn]
    · rw [hocc] at ho
      exact not_occupied_of_nextLevel hn (hmem k ho) hk ho

/-! ### Cancelling keeps the caches exact -/

theorem occupied_unlink (hb : Coherent b) (hn : n ∈ (b.levels s i).orders)
    (h : Occupied (b.unlink s i n) t j) : Occupied b t j := by
  obtain ⟨m, hm⟩ := List.exists_mem_of_ne_nil _ h
  exact occupied_of_mem ((hb.mem_unlink hn).mp hm).1

theorem occupied_unlink_iff (h : ¬ (t = s ∧ j = i)) :
    Occupied (b.unlink s i n) t j ↔ Occupied b t j := by
  rw [Occupied, levels_unlink_of_ne h, Occupied]

@[simp] theorem occupied_refreshBest : Occupied (b.refreshBest s i) t j ↔ Occupied b t j := by
  rw [Occupied, levels_refreshBest, Occupied]

/-- The cache is rewritten only when the level that was emptied had its price. -/
theorem best_refreshBest_of_imp (hb : Coherent b)
    (h : b.best s = b.config.priceAt i → Occupied b s i) :
    (b.refreshBest s i).best t = b.best t := by
  rw [refreshBest, if_neg]
  rw [PriceLevel.empty_iff, hb.price]
  rintro ⟨hemp, hprice⟩
  exact h hprice.symm hemp

/-- A cancel during the sweep of a level that stays occupied. -/
theorem BestAt.cancel {idx : ℕ} (hb : Coherent b) (hn : n ∈ (b.levels s i).orders)
    (h : BestAt b t idx) (hocc : Occupied (b.unlink s i n) t idx) :
    BestAt ((b.unlink s i n).refreshBest s i) t idx := by
  refine h.mono (by simp) ?_ fun j hj => occupied_unlink hb hn (occupied_refreshBest.mp hj)
  by_cases hts : t = s
  · subst hts
    rw [best_refreshBest_of_imp (hb.unlink hn), best_unlink]
    rw [best_unlink, config_unlink, h.best, OrderBookConfig.priceAt_inj]
    rintro rfl
    exact hocc
  · rw [best_refreshBest_of_ne hts, best_unlink]

theorem BestExact.cancel (hp : b.config.Priced) (hb : Coherent b)
    (hn : n ∈ (b.levels s i).orders) (h : BestExact b t) :
    BestExact ((b.unlink s i n).refreshBest s i) t := by
  rcases h with ⟨hnil, hnone⟩ | ⟨idx, hat, ho⟩
  · by_cases hts : t = s
    · subst hts; exact absurd (occupied_of_mem hn) (hnone i)
    · refine Or.inl ⟨?_, fun j hj => hnone j (occupied_unlink hb hn (occupied_refreshBest.mp hj))⟩
      rw [best_refreshBest_of_ne hts, best_unlink, hnil]
  · by_cases hocc : Occupied (b.unlink s i n) t idx
    · exact Or.inr ⟨idx, hat.cancel hb hn hocc, occupied_refreshBest.mpr hocc⟩
    · -- the last order of the best level is cancelled
      obtain ⟨rfl, rfl⟩ : t = s ∧ idx = i := by
        by_contra hne
        exact hocc ((occupied_unlink_iff hne).mpr ho)
      have hbest : b.best t = b.config.priceAt idx := hat.best
      rw [OrderBook.refreshBest, if_pos]
      · refine bestExact_updateBestAfterEmpty (by rwa [config_unlink]) (hb.unlink hn)
          (by rw [config_unlink]; exact hat.lt) fun j hj => ?_
        rcases farther_trichotomy t idx j with hf | rfl | hf
        · exact hf
        · exact absurd hj hocc
        · exact absurd (occupied_unlink hb hn hj) (hat.better j hf)
      · rw [PriceLevel.empty_iff, price_unlink, hb.price, best_unlink, hbest]
        exact ⟨not_not.mp hocc, rfl⟩

end OrderBook

end MiniTrader
