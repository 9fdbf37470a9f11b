import MiniTrader.OrderBook.Reference
import Mathlib.Data.List.Flatten

/-!
# What a match reaches

A match begins at the cached best price and goes on to what the scans find. `Queue` reads that walk
off the book as a list, `matchQueue`, and this file compares the list with everything that rests on
the other side.

Three tests keep a level out of the walk. The loop ends at a negative price, which it takes for the
mark of an empty side; it ends at a price beyond the limit; and a scan looks at certain indices
only, those after its starting point and, for bids, those below its starting point cast to `int`.
`InReach` is the conjunction of the three. It asks for no condition on the configuration: where
prices are negative or levels are many, less is in reach.

What the call does then depends on the part in reach alone: the fills are the greedy fills of that
part.

## Main definitions

* `depth` — the other side of the book, from the best price outward
* `InReach` — the levels a match can come to

## Main results

* `mem_matchQueue_iff`, `matchQueue_sublist_depth` — the walk
* `Tidy.inReach_iff` — what is in reach where the caches are exact
* `exists_run` — one call of a run, in any reachable state
* `exists_runBook_gridCached` — the reachable states
-/

namespace MiniTrader

open Fuelled StableSort

namespace OrderBook

open Reference

variable {ε : Type} {b b' b₀ : OrderBook} {s t side : Side} {i j idx : ℕ} {n m : Node} {price : ℤ}
  {c : OrderBookConfig} {used : List ℕ}

/-! ### The levels in reach -/

/-- The level indices of a side, from the best price outward. -/
def outward (c : OrderBookConfig) : Side → List ℕ
  | .buy => (List.range c.numLevels).reverse
  | .sell => List.range c.numLevels

/-- Everything that rests on the other side, by best price and then by arrival. -/
def depth (b : OrderBook) (side : Side) : List Node :=
  (outward b.config side.opp).flatMap fun i => (b.levels side.opp i).orders

/-- A match can come to the level: there is a cached price to begin at, the level is the one of that
price or among those the scan from there looks at, and its price is neither negative nor beyond the
limit. -/
structure InReach (b : OrderBook) (side : Side) (price : ℤ) (i : ℕ) : Prop where
  cached : 0 ≤ b.best side.opp
  scanned : i = b.config.priceToIndex (b.best side.opp) ∨
    i ∈ beyond b.config side.opp (b.config.priceToIndex (b.best side.opp))
  priced : 0 ≤ b.config.priceAt i
  crosses : side.Crosses price (b.config.priceAt i)

theorem mem_outward : i ∈ outward c s ↔ i < c.numLevels := by
  cases s <;> simp [outward]

theorem pairwise_outward (c : OrderBookConfig) (s : Side) : (outward c s).Pairwise (Farther s) := by
  cases s with
  | buy =>
    rw [outward, List.pairwise_reverse]
    exact List.pairwise_lt_range
  | sell => exact List.pairwise_lt_range

instance (s : Side) : Std.Antisymm (Farther s) := ⟨fun _ _ h h' => absurd h' (farther_asymm h)⟩

/-- A list of levels that goes outward is part of the list of all of them. -/
theorem sublist_outward {js : List ℕ} (hjs : js.Pairwise (Farther s))
    (hlt : ∀ j ∈ js, j < c.numLevels) : js.Sublist (outward c s) := by
  have hnd : js.Nodup := hjs.imp fun {i j} hij (he : i = j) => farther_irrefl (he ▸ hij)
  exact List.sublist_of_subperm_of_pairwise
    (List.subperm_of_subset hnd fun j hj => mem_outward.mpr (hlt j hj)) hjs (pairwise_outward c s)

theorem Coherent.mem_depth_iff (hb : Coherent b) :
    n ∈ b.depth side ↔ ∃ i, n ∈ (b.levels side.opp i).orders := by
  rw [depth, List.mem_flatMap]
  constructor
  · rintro ⟨i, -, hn⟩
    exact ⟨i, hn⟩
  · rintro ⟨i, hn⟩
    exact ⟨i, mem_outward.mpr (hb.inRange hn), hn⟩

theorem Coherent.positive_of_mem_depth (hb : Coherent b) (side : Side) :
    ∀ o ∈ (b.depth side).map Node.order, 0 < o.quantity := by
  intro o ho
  obtain ⟨n, hn, rfl⟩ := List.mem_map.mp ho
  obtain ⟨i, hn⟩ := hb.mem_depth_iff.mp hn
  exact hb.positive hn

/-- Different orders rest under different ids. -/
theorem nodup_depth (hb : Coherent b) (hl : Located b) :
    ((b.depth side).map Node.order).Nodup := by
  have hhandle : ∀ {i n}, n ∈ (b.levels side.opp i).orders → ∀ {j m},
      m ∈ (b.levels side.opp j).orders → n.order = m.order → i = j ∧ n = m := by
    intro i n hn j m hm he
    obtain ⟨-, hij, hnm⟩ := hl.eq_of_orderId hb hn hm (congrArg Order.orderId he) trivial
    exact ⟨hij, hnm⟩
  rw [depth, List.map_flatMap, List.nodup_flatMap]
  refine ⟨fun i _ => ?_, (pairwise_outward _ _).imp fun {i j} hij => ?_⟩
  · exact List.Nodup.map_on (fun n hn m hm he => (hhandle hn hm he).2)
      (List.Nodup.of_map Node.handle (hb.nodup side.opp i))
  · refine List.disjoint_left.mpr ?_
    intro o ho ho'
    obtain ⟨n, hn, rfl⟩ := List.mem_map.mp ho
    obtain ⟨m, hm, he⟩ := List.mem_map.mp ho'
    obtain ⟨rfl, -⟩ := hhandle hn hm he.symm
    exact farther_irrefl hij

/-- On the way outward from the cached price, the levels before one that is priced and within the
limit are so as well. -/
theorem reach_of_farther (hg : GridCached b) (hbest : 0 ≤ b.best side.opp)
    (hi : Farther side.opp (b.config.priceToIndex (b.best side.opp)) i)
    (hij : Farther side.opp i j)
    (hj : 0 ≤ b.config.priceAt j ∧ side.Crosses price (b.config.priceAt j)) :
    0 ≤ b.config.priceAt i ∧ side.Crosses price (b.config.priceAt i) := by
  refine ⟨?_, crosses_of_farther hij hj.2⟩
  have hat := (hg _ hbest).priceAt_priceToIndex
  cases side with
  | buy =>
    have hlt := (@OrderBookConfig.priceAt_lt_priceAt b.config _ _).mpr hi
    rw [hat] at hlt
    omega
  | sell =>
    have hlt := (@OrderBookConfig.priceAt_lt_priceAt b.config _ _).mpr hij
    omega

/-- The levels behind the cached one that a match goes on to. -/
theorem mem_levelsBeyond_iff (hg : GridCached b) (hbest : 0 ≤ b.best side.opp) :
    j ∈ b.levelsBeyond side price (b.config.priceToIndex (b.best side.opp)) ↔
      j ∈ beyond b.config side.opp (b.config.priceToIndex (b.best side.opp)) ∧
      Occupied b side.opp j ∧ 0 ≤ b.config.priceAt j ∧
      side.Crosses price (b.config.priceAt j) := by
  have hocc : (!(b.levels side.opp j).empty) = true ↔ Occupied b side.opp j := by
    rw [Occupied, Bool.not_eq_true', ← Bool.not_eq_true, ne_eq, PriceLevel.empty_iff]
  have hpw : ((beyond b.config side.opp (b.config.priceToIndex (b.best side.opp))).filter
      fun k => !(b.levels side.opp k).empty).Pairwise fun k l =>
        Farther side.opp (b.config.priceToIndex (b.best side.opp)) k ∧ Farther side.opp k l :=
    ((pairwise_beyond b.config side.opp _).filter _).imp_of_mem fun hk _ hkl =>
      ⟨farther_of_mem_beyond (List.mem_filter.mp hk).1, hkl⟩
  rw [levelsBeyond, mem_takeWhile_iff hpw, List.mem_filter, decide_eq_true_eq, hocc, and_assoc]
  intro k l hkl hl
  rw [decide_eq_true_eq] at hl ⊢
  exact reach_of_farther hg hbest hkl.1 hkl.2 hl

/-- **The walk**: an order is in the queue of a match if and only if its level is in reach. -/
theorem mem_matchQueue_iff (hb : Coherent b) (hg : GridCached b)
    (hn : n ∈ (b.levels side.opp i).orders) :
    n ∈ b.matchQueue side price ↔ InReach b side price i := by
  have hlevel : ∀ {j}, n ∈ (b.levels side.opp j).orders → j = i := fun hj =>
    (hb.eq_of_mem hj hn).2
  constructor
  · intro hmem
    rw [matchQueue] at hmem
    split at hmem
    · rename_i hguard
      have hat := (hg _ hguard.1).priceAt_priceToIndex
      rcases List.mem_append.mp hmem with hmem | hmem
      · obtain rfl := hlevel hmem
        exact ⟨hguard.1, Or.inl rfl, by rw [hat]; exact hguard.1, by rw [hat]; exact hguard.2⟩
      · obtain ⟨j, hj, hmem⟩ := List.mem_flatMap.mp hmem
        obtain rfl := hlevel hmem
        obtain ⟨hbeyond, -, hpriced, hcrosses⟩ := (mem_levelsBeyond_iff hg hguard.1).mp hj
        exact ⟨hguard.1, Or.inr hbeyond, hpriced, hcrosses⟩
    · cases hmem
  · rintro ⟨hcached, hscanned, hpriced, hcrosses⟩
    have hat := (hg _ hcached).priceAt_priceToIndex
    have hguard : side.Crosses price (b.best side.opp) := by
      rw [← hat]
      rcases hscanned with rfl | hbeyond
      · exact hcrosses
      · exact crosses_of_farther (farther_of_mem_beyond hbeyond) hcrosses
    rw [matchQueue, if_pos ⟨hcached, hguard⟩]
    rcases hscanned with rfl | hbeyond
    · exact List.mem_append_left _ hn
    · refine List.mem_append_right _ (List.mem_flatMap.mpr ⟨i, ?_, hn⟩)
      exact (mem_levelsBeyond_iff hg hcached).mpr
        ⟨hbeyond, occupied_of_mem hn, hpriced, hcrosses⟩

/-- A match goes outward and leaves orders out, but it does not change their order. -/
theorem matchQueue_sublist_depth (hb : Sound b) :
    (b.matchQueue side price).Sublist (b.depth side) := by
  rw [matchQueue]
  split
  · rename_i hguard
    have hidx := hb.cached _ hguard.1
    have hbeyond : ∀ j ∈ b.levelsBeyond side price (b.config.priceToIndex (b.best side.opp)),
        j ∈ beyond b.config side.opp (b.config.priceToIndex (b.best side.opp)) := fun j hj =>
      (List.mem_filter.mp ((List.takeWhile_prefix _).subset hj)).1
    have hqueue : b.queueFrom side price (b.config.priceToIndex (b.best side.opp)) =
        (b.config.priceToIndex (b.best side.opp) ::
          b.levelsBeyond side price (b.config.priceToIndex (b.best side.opp))).flatMap
            fun j => (b.levels side.opp j).orders := rfl
    rw [hqueue]
    refine List.Sublist.flatMap (sublist_outward ?_ ?_) _
    · exact List.pairwise_cons.mpr
        ⟨fun j hj => farther_of_mem_beyond (hbeyond j hj), pairwise_levelsBeyond⟩
    · intro j hj
      rcases List.mem_cons.mp hj with rfl | hj
      · exact hidx
      · exact lt_numLevels_of_mem_beyond (hbeyond j hj) hidx
  · exact List.nil_sublist _

/-- Where the caches are exact, the limit decides. -/
theorem Tidy.inReach_iff (ht : Tidy b) (hp : b.config.Priced) (hb : Coherent b)
    (hi : Occupied b side.opp i) :
    InReach b side price i ↔ side.Crosses price (b.config.priceAt i) := by
  refine ⟨fun h => h.crosses, fun hcrosses => ?_⟩
  rcases ht.best side.opp with ⟨-, hnone⟩ | ⟨idx, hat, -⟩
  · exact absurd hi (hnone i)
  have hnn := OrderBookConfig.priceAt_nonneg (c := b.config) hp.nonneg
  have hidx := b.config.priceToIndex_priceAt hat.lt
  rw [← hat.best] at hidx
  refine ⟨by rw [hat.best]; exact hnn idx, ?_, hnn i, hcrosses⟩
  rw [hidx]
  rcases farther_trichotomy side.opp idx i with hf | rfl | hf
  · exact Or.inr (mem_beyond hp hf hat.lt (hb.lt_of_occupied hi))
  · exact Or.inl rfl
  · exact absurd hi (hat.better i hf)

/-! ### The reachable states -/

/-- **One call of a run** either adds an order, or it cancels and makes the book smaller. -/
theorem exists_run {op : BookOp} {st : World ε × List Bool} (h : Reaches c used st.1.book)
    (hg : GridCached st.1.book) (hok : op.Ok c used) :
    ∃ st', Converges (fun fuel => op.run (observe f) fuel st) (.ok st') ∧
      (Reaches c (op.usedIds used) st'.1.book ∧ GridCached st'.1.book) ∧
      ((∃ o w', op = .add o ∧ o.type ≠ .cancel ∧ Reaches c used w'.book ∧ Called f o st.1 w' ∧
          st'.1 = OrderBook.afterMatch
            (o.withQuantity (o.quantity - filled (st.1.book.reachableFills o))) w') ∨
        ((∀ o, op = .add o → o.type = .cancel) ∧ RestsWithin st'.1.book st.1.book)) := by
  rcases h.sound.coherent.run_cases (observe f) op with
    ⟨o, rfl, htype⟩ | ⟨id, r, b', bs, hc, htype, hrun⟩
  · obtain ⟨w', hm, hr', hg', hr'', hcalled⟩ := exists_addOrder h hg hok htype
    refine ⟨_, hm.bind (converges_const _), ⟨hr'', hg'.afterMatch fun hl => ?_⟩,
      Or.inl ⟨o, w', rfl, htype, hr', hcalled, rfl⟩⟩
    rw [hr'.config_eq]
    exact (hok hl).2.1
  · refine ⟨_, hrun, ⟨?_, hg.cancelOrder h.sound.coherent hc⟩,
      Or.inr ⟨htype, (restsWithin_cancelOrder h.sound.coherent hc).1⟩⟩
    rw [usedIds_of_cancel htype]
    exact h.cancelOrder hc

/-- **Every reachable state** has caches on the grid. -/
theorem exists_runBook_gridCached {e : ε} {ops : List BookOp} (hops : WellFormed c ops) :
    ∃ s, Converges (runBook c (observe f) e ops) (.ok s) ∧
      Reaches c (ops.foldl BookOp.usedIds []) s.1.book ∧ GridCached s.1.book := by
  refine @converges_runList _ _ _ _ (BookOp.run (observe f)) (BookOp.Ok c) BookOp.usedIds
    (fun used s => Reaches c used s.1.book ∧ GridCached s.1.book) ?_ _ _ _
    ⟨reaches_new c, gridCached_new c⟩ hops
  rintro used op s ⟨hr, hg⟩ hok
  obtain ⟨s', hs', h', -⟩ := exists_run hr hg hok
  exact ⟨s', hs', h'⟩

end OrderBook

end MiniTrader
