import MiniTrader.OrderBook.Reference

/-!
# Buying and selling are mirror images

Every operation of the book is written twice, once for each side, with the comparisons and the
directions of the scans turned round. Whether the two copies say the same is a statement about two
runs: the second one has the sides exchanged and the prices reflected at the middle of the range.

Of the two books themselves the comparison would have to go through every scan, and the scan of the
bids is a signed loop that counts down to zero, the scan of the asks an unsigned one that counts up.
The reference has none of this. Its `submit` is one function for both sides, and the only thing it
takes from the side is the order of the prices; so it commutes with the reflection, and both books
do what it does.

That the range is a whole number of ticks is needed: otherwise the reflection of the grid is not the
grid.

## Main definitions

* `OrderBookConfig.reflect`, `Order.mirror`, `ExecutionReport.mirror`, `BookOp.mirror`
* `IsMirror` — one final state is the mirror image of another

## Main results

* `Reference.step_mirror` — the reference commutes with the reflection
* `isMirror_of_wellFormed` — and so does the book
-/

namespace MiniTrader

open Fuelled

/-! ### The reflection -/

/-- The reflection of a price at the middle of the range. -/
def OrderBookConfig.reflect (c : OrderBookConfig) (p : ℤ) : ℤ := c.minPrice + c.maxPrice - p

/-- The same order on the other side. -/
def Order.mirror (c : OrderBookConfig) (o : Order) : Order :=
  { o with
    price := c.reflect o.price
    side := o.side.opp }

/-- The report of the mirrored fill. -/
def ExecutionReport.mirror (c : OrderBookConfig) (r : ExecutionReport) : ExecutionReport :=
  { r with
    price := c.reflect r.price
    side := r.side.opp }

/-- The mirrored call. -/
def OrderBook.BookOp.mirror (c : OrderBookConfig) : OrderBook.BookOp → OrderBook.BookOp
  | .add o => .add (o.mirror c)
  | .cancel id => .cancel id

section

variable {c : OrderBookConfig} {o : Order} {p q : ℤ} {s : Side} {i : ℕ}

@[simp] theorem Order.orderId_mirror : (o.mirror c).orderId = o.orderId := rfl
@[simp] theorem Order.price_mirror : (o.mirror c).price = c.reflect o.price := rfl
@[simp] theorem Order.quantity_mirror : (o.mirror c).quantity = o.quantity := rfl
@[simp] theorem Order.side_mirror : (o.mirror c).side = o.side.opp := rfl
@[simp] theorem Order.type_mirror : (o.mirror c).type = o.type := rfl

theorem Side.opp_inj {s t : Side} : s.opp = t.opp ↔ s = t := by
  cases s <;> cases t <;> decide

namespace OrderBookConfig

theorem reflect_inj : c.reflect p = c.reflect q ↔ p = q := by
  unfold reflect
  omega

/-- The reflection turns the comparisons round. -/
theorem crosses_reflect : s.opp.Crosses (c.reflect p) (c.reflect q) ↔ s.Crosses p q := by
  cases s <;> simp only [Side.opp, Side.Crosses, reflect] <;> omega

theorem rank_reflect : s.opp.rank (c.reflect p) ≤ s.opp.rank (c.reflect q) ↔
    s.rank p ≤ s.rank q := by
  cases s <;> simp only [Side.opp, Side.rank, reflect] <;> omega

/-- Where the range is a whole number of ticks, the reflection of a level is a level. -/
theorem reflect_priceAt (htick : c.tickSize ∣ c.maxPrice - c.minPrice) (hi : i < c.numLevels) :
    c.reflect (c.priceAt i) = c.priceAt (c.numLevels - 1 - i) := by
  obtain ⟨k, hk⟩ := htick
  have hspan : 0 ≤ c.maxPrice - c.minPrice := Int.sub_nonneg_of_le c.min_le_max
  have hknn : 0 ≤ k := by
    rw [hk] at hspan
    exact nonneg_of_mul_nonneg_right hspan c.tick_pos
  have hlevels : c.numLevels = k.toNat + 1 := by
    rw [numLevels, hk, Int.mul_tdiv_cancel_left _ c.tick_pos.ne']
  have hcast : ((c.numLevels - 1 - i : ℕ) : ℤ) = k - i := by omega
  rw [reflect, priceAt, priceAt, hcast, Int.sub_mul, Int.mul_comm k]
  omega

theorem OnGrid.reflect (htick : c.tickSize ∣ c.maxPrice - c.minPrice) (h : c.OnGrid p) :
    c.OnGrid (c.reflect p) := by
  obtain ⟨i, hi, rfl⟩ := onGrid_iff.mp h
  exact onGrid_iff.mpr ⟨c.numLevels - 1 - i, by omega, reflect_priceAt htick hi⟩

end OrderBookConfig

end

/-! ### The reference -/

namespace Reference

open OrderBook OrderBookConfig

variable {c : OrderBookConfig} {r : Reference} {o : Order} {live : List Order} {q : ℤ}

/-- The mirrored reference. -/
def mirror (c : OrderBookConfig) (r : Reference) : Reference where
  live := r.live.map (Order.mirror c)
  reports := r.reports.map (ExecutionReport.mirror c)
  results := r.results

/-- The mirrored fill. -/
def mirrorFill (c : OrderBookConfig) (f : Order × ℤ) : Order × ℤ := (f.1.mirror c, f.2)

/-- **The orders to trade with** come in the same order. -/
theorem opposite_mirror (side : Side) (p : ℤ) :
    (r.mirror c).opposite side.opp (c.reflect p) = (r.opposite side p).map (Order.mirror c) := by
  have hfilter : (r.mirror c).live.filter (fun o => o.side = side.opp.opp ∧
        side.opp.Crosses (c.reflect p) o.price) =
      (r.live.filter fun o => o.side = side.opp ∧ side.Crosses p o.price).map (Order.mirror c) := by
    rw [mirror, List.filter_map]
    congr 1
    refine List.filter_congr fun o _ => ?_
    simp only [Function.comp_apply, Order.side_mirror, Order.price_mirror, Side.opp_inj,
      crosses_reflect]
  rw [opposite, opposite, hfilter]
  exact (List.map_insertionSort (fun o o' : Order => side.opp.rank o.price ≤ side.opp.rank o'.price)
    (fun o o' : Order => side.opp.opp.rank o.price ≤ side.opp.opp.rank o'.price) (Order.mirror c) _
    fun o _ o' _ => rank_reflect.symm).symm

theorem greedy_mirror (l : List Order) :
    greedy q (l.map (Order.mirror c)) = (greedy q l).map (mirrorFill c) := by
  induction l generalizing q with
  | nil => rw [List.map_nil, greedy_nil, List.map_nil]
  | cons o l ih =>
    by_cases hq : 0 < q
    · rw [List.map_cons, greedy_cons hq, greedy_cons hq, List.map_cons, ← ih]
      rfl
    · rw [greedy_of_not_pos hq, greedy_of_not_pos hq, List.map_nil]

theorem filled_mirror (fills : List (Order × ℤ)) :
    filled (fills.map (mirrorFill c)) = filled fills := by
  rw [filled, List.map_map]
  rfl

theorem fillReports_mirror (f : Order × ℤ) :
    fillReports (o.mirror c) (mirrorFill c f) = (fillReports o f).map (ExecutionReport.mirror c) :=
  rfl

theorem settle_mirror (f : Order × ℤ) :
    settle (live.map (Order.mirror c)) (mirrorFill c f) = (settle live f).map (Order.mirror c) := by
  unfold settle
  rw [apply_ite (List.map (Order.mirror c))]
  congr 1
  · rw [List.filter_map]
    rfl
  · rw [List.map_map, List.map_map]
    refine List.map_congr_left fun o _ => ?_
    simp only [Function.comp_apply, apply_ite (Order.mirror c)]
    rfl

theorem foldl_settle_mirror (fills : List (Order × ℤ)) :
    (fills.map (mirrorFill c)).foldl settle (live.map (Order.mirror c)) =
      (fills.foldl settle live).map (Order.mirror c) := by
  induction fills generalizing live with
  | nil => rfl
  | cons f fills ih => rw [List.map_cons, List.foldl_cons, settle_mirror, ih, List.foldl_cons]

theorem submit_mirror : (r.mirror c).submit (o.mirror c) = (r.submit o).mirror c := by
  have hfills : greedy (o.mirror c).quantity
      ((r.mirror c).opposite (o.mirror c).side (o.mirror c).price) =
        (greedy o.quantity (r.opposite o.side o.price)).map (mirrorFill c) := by
    rw [Order.side_mirror, Order.price_mirror, opposite_mirror, greedy_mirror]
    rfl
  have hreports : ∀ fills : List (Order × ℤ),
      (fills.map (mirrorFill c)).flatMap (fillReports (o.mirror c)) =
        (fills.flatMap (fillReports o)).map (ExecutionReport.mirror c) := by
    intro fills
    rw [List.map_flatMap, List.flatMap_map]
    exact congrArg fills.flatMap (funext fillReports_mirror)
  have hrest : ∀ left : ℤ, (if 0 < left then [(o.mirror c).withQuantity left] else []) =
      (if 0 < left then [o.withQuantity left] else []).map (Order.mirror c) := by
    intro left
    rw [apply_ite (List.map (Order.mirror c))]
    rfl
  rw [submit, submit, hfills]
  rw [filled_mirror, Order.quantity_mirror, hrest, hreports]
  unfold mirror
  rw [foldl_settle_mirror, ← List.map_append, ← List.map_append]

theorem remove_mirror (id : ℕ) : (r.mirror c).remove id = (r.remove id).mirror c := by
  rw [remove, remove, mirror, mirror, List.filter_map]
  rfl

theorem cancel_mirror (id : ℕ) : (r.mirror c).cancel id = (r.cancel id).mirror c := by
  have hany : (r.mirror c).live.any (fun o => o.orderId = id) =
      r.live.any fun o => o.orderId = id := by
    rw [mirror, List.any_map]
    rfl
  rw [cancel, cancel, remove_mirror, hany]
  rfl

/-- **The reference commutes with the reflection.** -/
theorem step_mirror (op : BookOp) : (r.mirror c).step (op.mirror c) = (r.step op).mirror c := by
  cases op with
  | add o =>
    rw [BookOp.mirror, step, step, Order.type_mirror, apply_ite (mirror c)]
    rw [Order.orderId_mirror, remove_mirror, submit_mirror]
  | cancel id => exact cancel_mirror id

theorem foldl_step_mirror (ops : List BookOp) :
    (ops.map (BookOp.mirror c)).foldl step (r.mirror c) = (ops.foldl step r).mirror c := by
  induction ops generalizing r with
  | nil => rfl
  | cons op ops ih => rw [List.map_cons, List.foldl_cons, step_mirror, ih, List.foldl_cons]

end Reference

/-! ### The book -/

namespace OrderBook

open Reference OrderBookConfig

variable {c : OrderBookConfig} {ops : List BookOp}

/-- One final state is the mirror image of another: reports, answers, queues, totals and best
prices. -/
structure IsMirror (c : OrderBookConfig) (s s' : World (List ExecutionReport) × List Bool) :
    Prop where
  reports : s'.1.env = s.1.env.map (ExecutionReport.mirror c)
  results : s'.2 = s.2
  queue : ∀ side, ∀ i < c.numLevels,
    (s'.1.book.levels side.opp (c.numLevels - 1 - i)).orders.map Node.order =
      ((s.1.book.levels side i).orders.map Node.order).map (Order.mirror c)
  total : ∀ side, ∀ i < c.numLevels,
    (s'.1.book.levels side.opp (c.numLevels - 1 - i)).totalQuantity =
      (s.1.book.levels side i).totalQuantity
  best : ∀ side, s'.1.book.best side.opp =
    if s.1.book.best side = -1 then -1 else c.reflect (s.1.book.best side)

/-- The mirrored calls keep the promises. -/
theorem allowed_mirror {used : List ℕ} (htick : c.tickSize ∣ c.maxPrice - c.minPrice)
    (h : Allowed (BookOp.Ok c) BookOp.usedIds used ops) :
    Allowed (BookOp.Ok c) BookOp.usedIds used (ops.map (BookOp.mirror c)) := by
  induction ops generalizing used with
  | nil => trivial
  | cons op ops ih =>
    cases op with
    | add o =>
      refine ⟨fun hl => ?_, ih h.2⟩
      obtain ⟨hq, hgrid, hid⟩ := h.1 hl
      exact ⟨hq, hgrid.reflect htick, hid⟩
    | cancel id => exact ⟨trivial, ih h.2⟩

variable {r : Reference} {used used' : List ℕ} {s s' : World (List ExecutionReport) × List Bool}

theorem queue_mirror {b b' : OrderBook} (htick : c.tickSize ∣ c.maxPrice - c.minPrice)
    (hc : b.config = c) (hc' : b'.config = c) (h : Represents b r.live)
    (h' : Represents b' (r.mirror c).live) (side : Side) {i : ℕ} (hi : i < c.numLevels) :
    (b'.levels side.opp (c.numLevels - 1 - i)).orders.map Node.order =
      ((b.levels side i).orders.map Node.order).map (Order.mirror c) := by
  rw [h.queue, h'.queue, hc, hc', ← reflect_priceAt htick hi, Reference.mirror, List.filter_map]
  congr 1
  refine List.filter_congr fun o _ => ?_
  simp only [Function.comp_apply, Order.side_mirror, Order.price_mirror, Side.opp_inj, reflect_inj]

theorem prices_mirror (side : Side) :
    (r.mirror c).prices side.opp = (r.prices side).map c.reflect := by
  rw [Reference.prices, Reference.prices, Reference.mirror, List.filter_map, List.map_map,
    List.map_map]
  have hfilter : r.live.filter ((fun o => decide (o.side = side.opp)) ∘ Order.mirror c) =
      r.live.filter fun o => decide (o.side = side) :=
    List.filter_congr fun o _ => by
      simp only [Function.comp_apply, Order.side_mirror, Side.opp_inj]
  rw [hfilter]
  rfl

theorem best_mirror {b b' : OrderBook} (hp : b.config.Priced) (h : Represents b r.live)
    (ht : Tidy b) (h' : Represents b' (r.mirror c).live) (ht' : Tidy b') (side : Side) :
    b'.best side.opp = if b.best side = -1 then -1 else c.reflect (b.best side) := by
  have hprices := prices_mirror (r := r) (c := c) side
  rcases h.best_cases ht side with ⟨hnil, hnone⟩ | ⟨hmem, hbest⟩
  · rw [if_pos hnil]
    rcases h'.best_cases ht' side.opp with ⟨hnil', -⟩ | ⟨hmem', -⟩
    · exact hnil'
    · rw [hprices, hnone] at hmem'
      cases hmem'
  · have hnn := h.prices_nonneg hp hmem
    rw [if_neg (by omega)]
    have hmem_reflect : c.reflect (b.best side) ∈ (r.mirror c).prices side.opp := by
      rw [hprices]
      exact List.mem_map_of_mem hmem
    rcases h'.best_cases ht' side.opp with ⟨-, hnone'⟩ | ⟨hmem', hbest'⟩
    · rw [hnone'] at hmem_reflect
      cases hmem_reflect
    · -- each of the two best prices is not better than the other
      have hle' := hbest' _ hmem_reflect
      rw [hprices] at hmem'
      obtain ⟨p, hp', hreflect⟩ := List.mem_map.mp hmem'
      have hle := hbest p hp'
      rw [← hreflect] at hle' ⊢
      rw [reflect_inj]
      cases side <;>
        simp only [Side.opp, Side.Better, OrderBookConfig.reflect] at hle hle' ⊢ <;> omega

/-- **Two books that simulate mirrored references** are mirror images. -/
theorem Simulates.isMirror (hp : c.Priced) (htick : c.tickSize ∣ c.maxPrice - c.minPrice)
    (h : Simulates c (used, r) s) (h' : Simulates c (used', r.mirror c) s') : IsMirror c s s' := by
  have hc := h.reaches.config_eq
  have hc' := h'.reaches.config_eq
  have hqueue := fun side i (hi : i < c.numLevels) =>
    queue_mirror htick hc hc' h.represents h'.represents side hi
  refine ⟨?_, h'.results.trans h.results.symm, hqueue, fun side i hi => ?_, fun side => ?_⟩
  · rw [h.reports, h'.reports]
    rfl
  · have hsum : ∀ ns : List Node, PriceLevel.sumQuantity ns =
        ((ns.map Node.order).map Order.quantity).sum := fun ns => by
      rw [List.map_map]
      rfl
    rw [h.reaches.sound.coherent.total, h'.reaches.sound.coherent.total, hsum, hsum,
      hqueue side i hi, List.map_map]
    rfl
  · exact best_mirror (hc ▸ hp) h.represents (h.reaches.tidy hp) h'.represents
      (h'.reaches.tidy hp) side

/-- **Buying and selling are mirror images.** The mirrored calls give the mirrored reports, the same
answers, and a book with the sides exchanged and the prices reflected. -/
theorem isMirror_of_wellFormed (c : OrderBookConfig) (hmin : 0 ≤ c.minPrice)
    (htick : c.tickSize ∣ c.maxPrice - c.minPrice) (hlevels : c.numLevels ≤ 2 ^ 31)
    (ops : List BookOp) (hops : WellFormed c ops)
    (hlimit : ∀ o, BookOp.add o ∈ ops → o.type ≠ .market) :
    ∃ s s', Converges (runBook c record [] ops) (.ok s) ∧
      Converges (runBook c record [] (ops.map (BookOp.mirror c))) (.ok s') ∧ IsMirror c s s' := by
  have hp : c.Priced := ⟨hmin, by omega⟩
  have hlimit' : ∀ o, BookOp.add o ∈ ops.map (BookOp.mirror c) → o.type ≠ .market := by
    intro o ho
    obtain ⟨op, hop, he⟩ := List.mem_map.mp ho
    cases op with
    | add o' =>
      cases he
      exact hlimit o' hop
    | cancel id => cases he
  obtain ⟨s, used, hs, hsim⟩ := exists_simulates hp hops hlimit
  obtain ⟨s', used', hs', hsim'⟩ := exists_simulates hp (allowed_mirror htick hops) hlimit'
  rw [show Reference.new = Reference.new.mirror c from rfl, foldl_step_mirror] at hsim'
  exact ⟨s, s', hs, hs', hsim.isMirror hp htick hsim'⟩

/-- The sweep of two asks, and its mirror image. -/
theorem isMirror_of_wellFormed_sweepOps :
    ∃ s s', Converges (runBook ⟨0, 20, 2, by decide, by decide, by decide⟩ record [] sweepOps)
        (.ok s) ∧
      Converges (runBook ⟨0, 20, 2, by decide, by decide, by decide⟩ record []
        (sweepOps.map (BookOp.mirror ⟨0, 20, 2, by decide, by decide, by decide⟩))) (.ok s') ∧
      IsMirror ⟨0, 20, 2, by decide, by decide, by decide⟩ s s' :=
  isMirror_of_wellFormed _ (by decide) (by decide) (by decide) sweepOps
    ⟨fun _ => ⟨by decide, ⟨5, by decide, by decide⟩, by decide⟩,
      fun _ => ⟨by decide, ⟨4, by decide, by decide⟩, by decide⟩,
      fun _ => ⟨by decide, ⟨5, by decide, by decide⟩, by decide⟩, trivial, trivial⟩
    (by simp [sweepOps])

end OrderBook

end MiniTrader
