import MiniTrader.OrderBook.Coherence

/-!
# The match loop

`match` is two nested loops. The outer one is driven by a cached price that a scan helper rewrites,
the inner one by a queue that a callback may shorten, and neither the incoming quantity nor the
number of resting orders decreases in every outer iteration: with a stale cache an iteration can
visit an empty level. What does decrease is the *level index*, away from the best price.

This file packages both inductions once. `SweepRule` is the shape of a proof about `match`: an
assertion `G` at the head of the outer loop and an assertion `H idx` inside the sweep of level
`idx`, with one obligation for entering a level, one for a fill and one for leaving a level.
`SweepRule.matchOrder` is the conclusion, and it is total: `match` returns. Every later statement
about matching — coherence, the caches, re-entrancy, the reference book, the engine — is an
instance, and none of them mentions fuel or a loop.

## Main definitions

* `takerReport`, `makerReport` — the two reports of a fill
* `matchLogged` — `match`, with the levels its outer loop comes to and the totals on the way
* `SweepRule` — the proof obligations

## Main results

* `priceToIndex_priceAt` — the level prices are on the grid, so a scan result is a level again
* `fillFront_eq` — one iteration of the inner loop, given what the two callbacks did
* `SweepRule.matchLogged` — the levels come in order, each further away than those before it
* `SweepRule.matchOrder` — `match` terminates and establishes `G` and the negated guard
-/

namespace MiniTrader

open Fuelled

namespace OrderBookConfig

variable (c : OrderBookConfig)

theorem numLevels_le : c.numLevels ≤ 9223372036854775808 := by
  have h0 : 0 ≤ c.maxPrice - c.minPrice := by have := c.min_le_max; omega
  have h1 := Int.tdiv_le_self c.tickSize h0
  have h2 := c.span_lt
  unfold numLevels
  omega

/-- The levels do not go beyond the range. -/
theorem mul_tickSize_le {i : ℕ} (h : i < c.numLevels) :
    (i : ℤ) * c.tickSize ≤ c.maxPrice - c.minPrice := by
  have h0 : 0 ≤ c.maxPrice - c.minPrice := by have := c.min_le_max; omega
  rw [numLevels, Int.tdiv_eq_ediv_of_nonneg h0] at h
  have hnn : 0 ≤ (c.maxPrice - c.minPrice) / c.tickSize := Int.ediv_nonneg h0 c.tick_pos.le
  exact (Int.le_ediv_iff_mul_le c.tick_pos).mp (by omega)

/-- **The price of a level rounds to that level.** -/
theorem priceToIndex_priceAt {i : ℕ} (h : i < c.numLevels) : c.priceToIndex (c.priceAt i) = i := by
  have hle := c.numLevels_le
  have htick := c.tick_pos
  have hspan := c.span_lt
  have hoffset := c.mul_tickSize_le h
  have hnn : 0 ≤ (i : ℤ) * c.tickSize := Int.mul_nonneg (Int.natCast_nonneg i) htick.le
  unfold priceToIndex priceAt
  rw [add_sub_cancel_left, wrap64_of_le (by omega) (by omega), Int.mul_tdiv_cancel _ (by omega),
    Int.emod_eq_of_lt (by omega) (by omega)]
  exact Int.toNat_natCast i

end OrderBookConfig

namespace OrderBook

variable {ε : Type} {b b' : OrderBook} {s t : Side} {i j : ℕ} {n m : Node}

/-! ### Levels and scans -/

theorem castInt_toNat_le (k : ℕ) : (castInt k).toNat ≤ k := by
  unfold castInt; rw [Int.bmod_def]; omega

theorem castInt_of_lt {k : ℕ} (h : k < 2147483648) : castInt k = k := by
  unfold castInt; rw [Int.bmod_def]; omega

/-- Level `j` is strictly further from the best price of side `s` than level `i`. -/
def Farther (s : Side) (i j : ℕ) : Prop :=
  match s with
  | .buy => j < i
  | .sell => i < j

theorem farther_irrefl : ¬ Farther s i i := by cases s <;> simp [Farther]

theorem farther_asymm (h : Farther s i j) : ¬ Farther s j i := by
  cases s <;> simp only [Farther] at * <;> omega

theorem farther_trichotomy (s : Side) (i j : ℕ) : Farther s i j ∨ i = j ∨ Farther s j i := by
  cases s <;> simp only [Farther] <;> omega

theorem farther_trans {k : ℕ} (h : Farther s i j) (h' : Farther s j k) : Farther s i k := by
  cases s <;> simp only [Farther] at * <;> omega

/-- A scan looks only at levels further away than the exhausted one. -/
theorem farther_of_mem_beyond {c : OrderBookConfig} (h : j ∈ beyond c s i) : Farther s i j := by
  cases s with
  | buy =>
    simp only [beyond, List.mem_reverse, List.mem_range] at h
    exact lt_of_lt_of_le h (castInt_toNat_le i)
  | sell =>
    simp only [beyond, List.mem_range'_1] at h
    exact h.1

theorem lt_numLevels_of_mem_beyond {c : OrderBookConfig} (h : j ∈ beyond c s i)
    (hi : i < c.numLevels) : j < c.numLevels := by
  cases s with
  | buy => exact lt_trans (farther_of_mem_beyond h) hi
  | sell => simp only [beyond, List.mem_range'_1] at h; omega

theorem mem_beyond_of_nextLevel (h : b.nextLevel s i = some j) : j ∈ beyond b.config s i :=
  List.mem_of_find?_eq_some h

theorem orders_ne_nil_of_nextLevel (h : b.nextLevel s i = some j) :
    (b.levels s j).orders ≠ [] := by
  have := List.find?_some h
  simpa [← PriceLevel.empty_iff] using this

theorem nextLevel_lt (h : b.nextLevel s i = some j) (hi : i < b.config.numLevels) :
    j < b.config.numLevels :=
  lt_numLevels_of_mem_beyond (mem_beyond_of_nextLevel h) hi

/-- How many levels a sweep of side `s` standing at level `i` still has in front of it. -/
def levelsAhead (c : OrderBookConfig) (s : Side) (i : ℕ) : ℕ :=
  match s with
  | .buy => i
  | .sell => c.numLevels - i

theorem levelsAhead_lt {c : OrderBookConfig} (h : Farther s i j) (hj : j < c.numLevels) :
    levelsAhead c s j < levelsAhead c s i := by
  cases s with
  | buy => exact h
  | sell => simp only [levelsAhead]; have : i < j := h; omega

theorem Coherent.scanBest_of_some (hb : Coherent b) (h : b.nextLevel s i = some j) :
    b.scanBest s i = b.config.priceAt j := by
  rw [scanBest_eq_of_some h, hb.price]

/-! ### One fill -/

/-- The report to the incoming order. -/
def takerReport (side : Side) (o : Order) (n : Node) (best : ℤ) : ExecutionReport :=
  ⟨o.orderId, n.order.orderId, best, min o.quantity n.order.quantity, side, false⟩

/-- The report to the resting order. -/
def makerReport (side : Side) (o : Order) (n : Node) (best : ℤ) : ExecutionReport :=
  ⟨n.order.orderId, o.orderId, best, min o.quantity n.order.quantity, side.opp, true⟩

/-- The pieces of a fill that returns. Each of the two reports is followed by a look at the resting
order, through the iterator. -/
theorem of_fillFront_eq_ok {cb : FillCallback ε} {st st' : Order × World ε}
    (h : fillFront cb s i st = .ok st') : ∃ n ns w₁ m w₂ m',
      (st.2.book.levels s.opp i).orders = n :: ns ∧
      cb (takerReport s st.1 n (st.2.book.best s.opp)) st.2 = .ok w₁ ∧
      w₁.book.readResting s.opp i n.handle = .ok m ∧
      cb ⟨m.orderId, st.1.orderId, w₁.book.best s.opp, min st.1.quantity n.order.quantity, s.opp,
        true⟩ w₁ = .ok w₂ ∧
      w₂.book.readResting s.opp i n.handle = .ok m' ∧
      st' = (st.1.withQuantity (st.1.quantity - min st.1.quantity n.order.quantity),
        w₂.withBook (w₂.book.settleFront s.opp i m' (min st.1.quantity n.order.quantity))) := by
  unfold fillFront at h
  split at h
  · cases h
  rename_i n ns hfront
  obtain ⟨w₁, h₁, h⟩ := exists_of_bind_eq_ok h
  obtain ⟨m, hm, h⟩ := exists_of_bind_eq_ok h
  obtain ⟨w₂, h₂, h⟩ := exists_of_bind_eq_ok h
  obtain ⟨m', hm', h⟩ := exists_of_bind_eq_ok h
  cases h
  exact ⟨n, ns, w₁, m, w₂, m', hfront, h₁, hm, h₂, hm', rfl⟩

/-- A sweep of a level that returns is a loop that returns. -/
theorem of_sweepLevel_eq_ok {cb : FillCallback ε} {fuel : ℕ} {st st' : Order × World ε}
    (h : sweepLevel cb s fuel st = .ok st') : ∃ i t,
      i = st.2.book.config.priceToIndex (st.2.book.best s.opp) ∧ i < st.2.book.config.numLevels ∧
      whileLoop (LevelGuard s i) (fun _ => fillFront cb s i) fuel st = .ok t ∧
      st' = (t.1, t.2.withBook (t.2.book.leaveLevel s.opp i)) := by
  unfold sweepLevel at h
  dsimp only at h
  split at h
  · rename_i hi
    obtain ⟨t, ht, h⟩ := exists_of_bind_eq_ok h
    cases h
    exact ⟨_, t, rfl, hi, ht, rfl⟩
  · cases h

/-- **The rule for `match`** calls that return: what every fill keeps, and every departure from a
level. -/
theorem matchOrder_induction {cb : FillCallback ε} {fuel : ℕ} {I : Order × World ε → Prop}
    {st st' : Order × World ε} (hside : st.1.side = s)
    (hfill : ∀ {i t t'}, I t → 0 < t.1.quantity → fillFront cb s i t = .ok t' → I t')
    (hleave : ∀ {i t}, I t → I (t.1, t.2.withBook (t.2.book.leaveLevel s.opp i)))
    (hst : I st) (h : matchOrder cb fuel st = .ok st') : I st' := by
  rw [matchOrder, hside] at h
  refine (whileLoop_induction (fun t t' ht _ hbody => ?_) hst h).1
  obtain ⟨i, u, -, -, hu, rfl⟩ := of_sweepLevel_eq_ok hbody
  exact hleave (@whileLoop_induction _ _ _ _ (fun _ => fillFront cb s i) I _
    (fun v v' hv hg hfront => hfill hv hg.2 hfront) t u ht hu).1

/-- What is left of the incoming order after a fill against `n`. -/
def Order.afterFill (o : Order) (n : Node) : Order :=
  o.withQuantity (o.quantity - min o.quantity n.order.quantity)

/-- What is read through an iterator is the order of a node. -/
theorem exists_of_readResting_eq_ok {handle : ℕ} {o : Order}
    (h : b.readResting s i handle = .ok o) :
    ∃ n ∈ (b.levels s i).orders, n.handle = handle ∧ n.order = o := by
  rw [readResting, PriceLevel.deref] at h
  cases hf : (b.levels s i).orders.find? fun n => n.handle = handle with
  | none => rw [hf] at h; cases h
  | some n =>
    rw [hf] at h
    cases h
    exact ⟨n, List.mem_of_find?_eq_some hf, by simpa using List.find?_some hf, rfl⟩

theorem Coherent.readResting_of_mem (hb : Coherent b) (hn : n ∈ (b.levels s i).orders) :
    b.readResting s i n.handle = .ok n.order := by
  rw [readResting, PriceLevel.deref_eq_some_of_mem (hb.nodup s i) hn]

/-- **One iteration of the inner loop.** If neither callback removes the front order, the two
reports are `takerReport` and `makerReport`, priced at the cache as each call finds it, and the
book the second callback leaves behind is settled. -/
theorem fillFront_eq {cb : FillCallback ε} {side : Side} {o : Order} {w w₁ w₂ : World ε}
    {rest : List Node} (hfront : (w.book.levels side.opp i).orders = n :: rest)
    (h₁ : cb (takerReport side o n (w.book.best side.opp)) w = .ok w₁)
    (hc₁ : Coherent w₁.book) (hn₁ : n ∈ (w₁.book.levels side.opp i).orders)
    (h₂ : cb (makerReport side o n (w₁.book.best side.opp)) w₁ = .ok w₂)
    (hc₂ : Coherent w₂.book) (hn₂ : n ∈ (w₂.book.levels side.opp i).orders) :
    fillFront cb side i (o, w) = .ok (Order.afterFill o n,
      w₂.withBook (w₂.book.settleFront side.opp i n.order
        (min o.quantity n.order.quantity))) := by
  have hr₁ := hc₁.readResting_of_mem hn₁
  have hr₂ := hc₂.readResting_of_mem hn₂
  rw [takerReport] at h₁
  rw [makerReport] at h₂
  rw [fillFront]
  simp only [hfront, h₁, bind, Except.bind, hr₁, h₂, hr₂]
  rfl

/-! ### What a match does to the levels -/

/-- The level of the cached best price, which an iteration of the outer loop sweeps. -/
def visited (side : Side) (s : Order × World ε) : ℕ :=
  s.2.book.config.priceToIndex (s.2.book.best side.opp)

/-- One iteration of the inner loop, with the total it leaves the level with. -/
def fillFrontLogged (cb : FillCallback ε) (side : Side) (idx : ℕ) (s : Order × World ε) :
    Outcome (List ℤ × Order × World ε) :=
  (fillFront cb side idx s).map fun t => ([(t.2.book.levels side.opp idx).totalQuantity], t)

/-- The body of the outer loop, with the level and the totals. -/
def sweepLevelLogged (cb : FillCallback ε) (side : Side) (fuel : ℕ) (s : Order × World ε) :
    Outcome (List (ℕ × List ℤ) × Order × World ε) :=
  let idx := visited side s
  if idx < s.2.book.config.numLevels then do
    let t ← loggedLoop (LevelGuard side idx) (fun _ => fillFrontLogged cb side idx) fuel s
    .ok ([(idx, t.1)], t.2.1, t.2.2.withBook (t.2.2.book.leaveLevel side.opp idx))
  else
    .error (.fault .outOfRange)

/-- `match`, with the level of each iteration of its outer loop and the totals that the level has
after each fill. -/
def matchLogged (cb : FillCallback ε) (fuel : ℕ) (s : Order × World ε) :
    Outcome (List (ℕ × List ℤ) × Order × World ε) :=
  loggedLoop (MatchGuard s.1.side) (sweepLevelLogged cb s.1.side) fuel s

/-- `match`, with the levels alone. -/
def matchVisits (cb : FillCallback ε) (fuel : ℕ) (s : Order × World ε) :
    Outcome (List ℕ × Order × World ε) :=
  (matchLogged cb fuel s).map fun t => (t.1.map Prod.fst, t.2)

theorem map_fillFrontLogged (cb : FillCallback ε) (side : Side) (idx : ℕ) (s : Order × World ε) :
    (fillFrontLogged cb side idx s).map Prod.snd = fillFront cb side idx s := by
  rw [fillFrontLogged]
  cases fillFront cb side idx s <;> rfl

theorem map_sweepLevelLogged (cb : FillCallback ε) (side : Side) (fuel : ℕ)
    (s : Order × World ε) :
    (sweepLevelLogged cb side fuel s).map Prod.snd = sweepLevel cb side fuel s := by
  have hloop : (loggedLoop (LevelGuard side (visited side s))
      (fun _ => fillFrontLogged cb side (visited side s)) fuel s).map Prod.snd = _ :=
    map_loggedLoop (fun _ => map_fillFrontLogged cb side (visited side s)) fuel s
  rw [sweepLevelLogged, sweepLevel, ← visited, ← hloop]
  split
  · cases loggedLoop (LevelGuard side (visited side s)) (fun _ => fillFrontLogged cb side
      (visited side s)) fuel s <;> rfl
  · rfl

/-- It is `match`. -/
theorem map_matchLogged (cb : FillCallback ε) (fuel : ℕ) (s : Order × World ε) :
    (matchLogged cb fuel s).map Prod.snd = matchOrder cb fuel s :=
  map_loggedLoop (map_sweepLevelLogged cb s.1.side) fuel s

/-- And so is this. -/
theorem map_matchVisits (cb : FillCallback ε) (fuel : ℕ) (s : Order × World ε) :
    (matchVisits cb fuel s).map Prod.snd = matchOrder cb fuel s := by
  rw [← map_matchLogged, matchVisits]
  cases matchLogged cb fuel s <;> rfl

/-! ### The rule -/

/-- What a proof about `match` has to supply. `G` holds at the head of the outer loop, `H idx`
inside the sweep of level `idx`; `c` is the configuration of the book throughout. -/
structure SweepRule (c : OrderBookConfig) (cb : FillCallback ε) (side : Side)
    (G : Order → World ε → Prop) (H : ℕ → Order → World ε → Prop) : Prop where
  config : ∀ {idx o w}, H idx o w → w.book.config = c
  coherent : ∀ {idx o w}, H idx o w → Coherent w.book
  inRange : ∀ {idx o w}, H idx o w → idx < c.numLevels
  /-- Entering the level of the cached best price. -/
  enter : ∀ {o w}, G o w → MatchGuard side (o, w) →
    H (w.book.config.priceToIndex (w.book.best side.opp)) o w
  /-- One fill: neither callback touches the front order, and `H` is re-established. -/
  fill : ∀ {idx o w n rest}, H idx o w → (w.book.levels side.opp idx).orders = n :: rest →
    0 < o.quantity → ∃ w₁ w₂ rest',
      cb (takerReport side o n (w.book.best side.opp)) w = .ok w₁ ∧ Coherent w₁.book ∧
      n ∈ (w₁.book.levels side.opp idx).orders ∧
      cb (makerReport side o n (w₁.book.best side.opp)) w₁ = .ok w₂ ∧ Coherent w₂.book ∧
      (w₂.book.levels side.opp idx).orders = n :: rest' ∧ rest'.length ≤ rest.length ∧
      H idx (Order.afterFill o n) (w₂.withBook (w₂.book.settleFront side.opp idx n.order
        (min o.quantity n.order.quantity)))
  /-- Leaving the level. -/
  leave : ∀ {idx o w}, H idx o w → ¬ LevelGuard side idx (o, w) →
    G o (w.withBook (w.book.leaveLevel side.opp idx))

section

variable {c : OrderBookConfig} {cb : FillCallback ε} {side : Side} {G : Order → World ε → Prop}
  {H : ℕ → Order → World ε → Prop}

theorem length_settleFront {rest : List Node} {q : ℤ} (hb : Coherent b)
    (hfront : (b.levels s i).orders = n :: rest) (h : n.order.quantity ≤ q) :
    ((b.settleFront s i n.order (min q n.order.quantity)).levels s i).orders.length
      = rest.length := by
  have hnd := hb.nodup s i
  rw [hfront] at hnd
  rw [hb.settleFront_full hfront (by omega), orders_unlink_self, hfront,
    PriceLevel.filter_handle_cons hnd]

/-- The inner loop. A fill either removes the front order, so that the queue shrinks, or uses the
incoming quantity up. What is known of the totals is known of every total on the way. -/
theorem SweepRule.sweepLevel (hr : SweepRule c cb side G H) {Q : ℤ → Prop}
    (hQ : ∀ {idx o w}, H idx o w → Q (w.book.levels side.opp idx).totalQuantity) {o : Order}
    {w : World ε} (hH : H i o w) : ∃ totals q w', Converges
        (fun fuel => loggedLoop (LevelGuard side i) (fun _ => fillFrontLogged cb side i) fuel
          (o, w)) (.ok (totals, o.withQuantity q, w')) ∧
      H i (o.withQuantity q) w' ∧ ¬ LevelGuard side i (o.withQuantity q, w') ∧
      ∀ x ∈ totals, Q x := by
  have hloop := @converges_loggedLoop _ _ (LevelGuard side i) _ _
    (fun _ => fillFrontLogged cb side i)
    (fun totals (s : Order × World ε) =>
      (∃ q, s.1 = o.withQuantity q ∧ H i s.1 s.2) ∧ ∀ x ∈ totals, Q x)
    (fun s => (s.2.book.levels side.opp i).orders.length + min 1 s.1.quantity.toNat)
    ?_ (o, w) ⟨⟨o.quantity, rfl, hH⟩, nofun⟩
  · obtain ⟨totals, ⟨o', w'⟩, hc, ⟨⟨q, rfl, hH'⟩, htotals⟩, hg⟩ := hloop
    exact ⟨totals, q, w', hc, hH', hg, htotals⟩
  rintro totals ⟨o', w'⟩ ⟨⟨q, rfl, hH⟩, htotals⟩ ⟨hne, hpos⟩
  obtain ⟨n, rest, hfront⟩ := List.exists_cons_of_ne_nil hne
  obtain ⟨w₁, w₂, rest', h₁, hc₁, hn₁, h₂, hc₂, hf₂, hlen, hH'⟩ := hr.fill hH hfront hpos
  have hn₂ : n ∈ (w₂.book.levels side.opp i).orders := by rw [hf₂]; exact List.mem_cons_self
  have hfill := fillFront_eq hfront h₁ hc₁ hn₁ h₂ hc₂ hn₂
  refine ⟨_, (_, _), by rw [fillFrontLogged, hfill]; exact converges_const _,
    ⟨⟨_, rfl, hH'⟩, fun x hx => ?_⟩, ?_⟩
  · rcases List.mem_append.mp hx with hx | hx
    · exact htotals x hx
    · rw [List.mem_singleton.mp hx]
      exact hQ hH'
  simp only [hfront, List.length_cons, Order.quantity_withQuantity]
    at hpos ⊢
  by_cases hq : n.order.quantity ≤ q
  · -- a complete fill of the front order
    rw [length_settleFront hc₂ hf₂ hq]
    omega
  · -- the incoming order is used up; the front order stays, reduced
    rw [settleFront_of_lt (by omega), levels_reduceFront_self hf₂]
    simp only [List.length_cons]
    omega

theorem levels_leaveLevel : (b.leaveLevel s i).levels t = b.levels t := by
  rw [leaveLevel]; split <;> simp

@[simp] theorem config_leaveLevel : (b.leaveLevel s i).config = b.config := by
  rw [leaveLevel]; split <;> simp

@[simp] theorem nextNode_leaveLevel : (b.leaveLevel s i).nextNode = b.nextNode := by
  rw [leaveLevel]; split <;> simp

theorem orderMap_leaveLevel : (b.leaveLevel s i).orderMap = b.orderMap := by
  rw [leaveLevel, updateBestAfterEmpty_eq]; split <;> simp

/-- After an exhausted level the cache holds the price of a level further on, or `-1`. -/
theorem Coherent.best_leaveLevel (hb : Coherent b) (hempty : (b.levels s i).orders = [])
    (hi : i < b.config.numLevels) (hbest : 0 ≤ (b.leaveLevel s i).best s) :
    ∃ j, b.nextLevel s i = some j ∧ (b.leaveLevel s i).best s = b.config.priceAt j ∧
      b.config.priceToIndex ((b.leaveLevel s i).best s) = j := by
  have hbest' : (b.leaveLevel s i).best s = b.scanBest s i := by
    rw [OrderBook.leaveLevel, if_pos (PriceLevel.empty_iff.mpr hempty)]; simp
  cases h : b.nextLevel s i with
  | none => rw [hbest', scanBest_eq_of_none h] at hbest; omega
  | some j =>
    refine ⟨j, rfl, by rw [hbest', hb.scanBest_of_some h], ?_⟩
    rw [hbest', hb.scanBest_of_some h,
      b.config.priceToIndex_priceAt (nextLevel_lt h hi)]

/-- **One iteration of the outer loop.** If another one follows it, the quantity is not used up, so
the level is empty, the cache has been rewritten, and the next level is further on. -/
theorem SweepRule.step (hr : SweepRule c cb side G H) {Q : ℤ → Prop}
    (hQ : ∀ {idx o w}, H idx o w → Q (w.book.levels side.opp idx).totalQuantity) {o : Order}
    {w : World ε} (hG : G o w) (hg : MatchGuard side (o, w)) : ∃ totals q w',
      Converges (fun fuel => sweepLevelLogged cb side fuel (o, w))
        (.ok ([(visited side (o, w), totals)], o.withQuantity q, w')) ∧
      G (o.withQuantity q) w' ∧ (∀ x ∈ totals, Q x) ∧
      (MatchGuard side (o.withQuantity q, w') →
        Farther side.opp (visited side (o, w)) (visited side (o.withQuantity q, w')) ∧
        visited side (o.withQuantity q, w') < c.numLevels) := by
  have hH : H (visited side (o, w)) o w := hr.enter hG hg
  obtain ⟨totals, q, w'', hc, hH', hng, htotals⟩ := hr.sweepLevel hQ hH
  have hbody : Converges (fun fuel => sweepLevelLogged cb side fuel (o, w))
      (.ok ([(visited side (o, w), totals)], o.withQuantity q,
        w''.withBook (w''.book.leaveLevel side.opp (visited side (o, w))))) := by
    have hidx := hr.inRange hH
    rw [← hr.config hH] at hidx
    simp only [sweepLevelLogged, if_pos hidx]
    exact hc.bind (converges_const _)
  refine ⟨totals, q, _, hbody, hr.leave hH' hng, htotals, fun hg' => ?_⟩
  obtain ⟨hpos, hbest, -⟩ := hg'
  have hempty := not_not.mp fun hne => hng ⟨hne, hpos⟩
  have hin := hr.inRange hH'
  rw [← hr.config hH'] at hin
  obtain ⟨j, hj, -, hidx⟩ := (hr.coherent hH').best_leaveLevel hempty hin hbest
  have hlt := nextLevel_lt hj hin
  rw [hr.config hH'] at hlt
  have hvisited : visited side (o.withQuantity q,
      w''.withBook (w''.book.leaveLevel side.opp (visited side (o, w)))) = j := by
    rw [visited, World.book_withBook, config_leaveLevel]
    exact hidx
  rw [hvisited]
  exact ⟨farther_of_mem_beyond (mem_beyond_of_nextLevel hj), hlt⟩

/-- **The rule**, with the levels that the outer loop comes to and the totals on the way. -/
theorem SweepRule.matchLogged (hr : SweepRule c cb side G H) {Q : ℤ → Prop}
    (hQ : ∀ {idx o w}, H idx o w → Q (w.book.levels side.opp idx).totalQuantity) {o : Order}
    {w : World ε} (hside : o.side = side) (hG : G o w) : ∃ log q w',
      Converges (fun fuel => matchLogged cb fuel (o, w)) (.ok (log, o.withQuantity q, w')) ∧
      G (o.withQuantity q) w' ∧ ¬ MatchGuard side (o.withQuantity q, w') ∧
      (log.map Prod.fst).Pairwise (Farther side.opp) ∧ ∀ l ∈ log, ∀ x ∈ l.2, Q x := by
  subst hside
  have hloop := @converges_loggedLoop _ _ (MatchGuard o.side) _ _ (sweepLevelLogged cb o.side)
    (fun log (s : Order × World ε) => (∃ q, s.1 = o.withQuantity q ∧ G s.1 s.2) ∧
      (log.map Prod.fst).Pairwise (Farther o.side.opp) ∧
      (MatchGuard o.side s → ∀ i ∈ log.map Prod.fst, Farther o.side.opp i (visited o.side s)) ∧
      ∀ l ∈ log, ∀ x ∈ l.2, Q x)
    (fun s => if MatchGuard o.side s then levelsAhead c o.side.opp (visited o.side s) + 1 else 0)
    ?_ (o, w) ⟨⟨o.quantity, rfl, hG⟩, List.Pairwise.nil, fun _ => nofun, nofun⟩
  · obtain ⟨log, ⟨o', w'⟩, hc, ⟨⟨q, rfl, hG'⟩, hpw, -, htotals⟩, hg⟩ := hloop
    exact ⟨log, q, w', hc, hG', hg, hpw, htotals⟩
  rintro log ⟨o', w'⟩ ⟨⟨q, rfl, hG⟩, hpw, hlast, htotals⟩ hg
  obtain ⟨totals, q', w'', hc, hG', htotals', hnext⟩ := hr.step hQ hG hg
  refine ⟨_, _, hc, ⟨⟨q', rfl, hG'⟩, ?_, fun hg' i hi => ?_, fun l hl => ?_⟩, ?_⟩
  · rw [List.map_append]
    refine List.pairwise_append.mpr ⟨hpw, List.pairwise_singleton _ _, fun i hi j hj => ?_⟩
    rw [List.mem_singleton.mp hj]
    exact hlast hg i hi
  · rw [List.map_append] at hi
    rcases List.mem_append.mp hi with hi | hi
    · exact farther_trans (hlast hg i hi) (hnext hg').1
    · rw [List.mem_singleton.mp hi]
      exact (hnext hg').1
  · rcases List.mem_append.mp hl with hl | hl
    · exact htotals l hl
    · rw [List.mem_singleton.mp hl]
      exact htotals'
  · rw [if_pos hg]
    split
    · rename_i hg'
      obtain ⟨hfar, hlt⟩ := hnext hg'
      exact Nat.succ_lt_succ (levelsAhead_lt hfar hlt)
    · exact Nat.succ_pos _

/-- **The rule.** `match` returns; what it leaves satisfies `G`, not the guard of the outer loop,
and the incoming order has changed in its quantity only. -/
theorem SweepRule.matchOrder (hr : SweepRule c cb side G H) {o : Order} {w : World ε}
    (hside : o.side = side) (hG : G o w) :
    ∃ q w', Converges (fun fuel => matchOrder cb fuel (o, w)) (.ok (o.withQuantity q, w')) ∧
      G (o.withQuantity q) w' ∧ ¬ MatchGuard side (o.withQuantity q, w') := by
  obtain ⟨log, q, w', hc, hG', hg, -⟩ :=
    hr.matchLogged (Q := fun _ => True) (fun _ => trivial) hside hG
  exact ⟨q, w', hc.of_map Prod.snd fun fuel => map_matchLogged _ fuel _, hG', hg⟩

end

end OrderBook

end MiniTrader
