import MiniTrader.OrderBook.Caches

/-!
# The queue an incoming order meets

`match` walks from level to level, and within a level from front to back. `matchQueue` is that walk
as one list: the resting orders an incoming order of a given side and price limit would be matched
with, in order, if its quantity never ran out. It is read off the book before the match starts.

The point is how little happens to it. A complete fill drops its head and a partial one makes the
head smaller (`queueFrom_settleFront`), whatever level they take place in, and going on to the next
level leaves it alone (`queueFrom_eq_matchQueue`). So a statement about the course of a match — the
fills it makes, the order it stops in — is a statement about a list and a quantity.

Nothing here assumes that prices lie on the grid or that the caches are exact.

## Main definitions

* `levelsBeyond`, `queueFrom`, `matchQueue`
* `EndsInside` — where in the queue the incoming quantity runs out

## Main results

* `matchQueue_of_guard` — entering a level
* `queueFrom_settleFront` — a fill
* `queueFrom_eq_matchQueue`, `matchQueue_leaveLevel` — leaving a level
* `queueFrom_congr`, `matchQueue_congr` — the other side of the book does not matter
-/

namespace MiniTrader

open Fuelled

namespace OrderBook

variable {ε : Type} {b b' : OrderBook} {s t side : Side} {i j : ℕ} {n m : Node} {price : ℤ}

/-- The occupied levels the scans find behind level `idx`, as long as their prices are within the
limit. -/
def levelsBeyond (b : OrderBook) (side : Side) (price : ℤ) (idx : ℕ) : List ℕ :=
  ((beyond b.config side.opp idx).filter fun j => !(b.levels side.opp j).empty).takeWhile
    fun j => decide (0 ≤ b.config.priceAt j ∧ side.Crosses price (b.config.priceAt j))

/-- The part of the queue behind level `idx`. -/
def queueBeyond (b : OrderBook) (side : Side) (price : ℤ) (idx : ℕ) : List Node :=
  (b.levelsBeyond side price idx).flatMap fun j => (b.levels side.opp j).orders

/-- The queue during the sweep of level `idx`. -/
def queueFrom (b : OrderBook) (side : Side) (price : ℤ) (idx : ℕ) : List Node :=
  (b.levels side.opp idx).orders ++ b.queueBeyond side price idx

/-- The queue an incoming order of side `side` and limit `price` meets. -/
def matchQueue (b : OrderBook) (side : Side) (price : ℤ) : List Node :=
  if 0 ≤ b.best side.opp ∧ side.Crosses price (b.best side.opp) then
    b.queueFrom side price (b.config.priceToIndex (b.best side.opp))
  else []

/-! ### Dependence on the book -/

theorem queueBeyond_congr (hc : b'.config = b.config)
    (hl : ∀ j ∈ beyond b.config side.opp i, b'.levels side.opp j = b.levels side.opp j) :
    b'.queueBeyond side price i = b.queueBeyond side price i := by
  have hf : b'.levelsBeyond side price i = b.levelsBeyond side price i := by
    unfold levelsBeyond
    rw [hc, List.filter_congr fun j hj => by rw [hl j hj]]
  rw [queueBeyond, queueBeyond, hf]
  refine List.flatMap_congr fun j hj => ?_
  rw [hl j (List.mem_of_mem_filter ((List.takeWhile_prefix _).subset hj))]

theorem queueFrom_congr (hc : b'.config = b.config) (hl : b'.levels side.opp = b.levels side.opp) :
    b'.queueFrom side price i = b.queueFrom side price i := by
  rw [queueFrom, queueFrom, queueBeyond_congr hc fun j _ => by rw [hl], hl]

/-- The queue consists of resting orders. -/
theorem exists_mem_of_mem_queueFrom (h : n ∈ b.queueFrom side price i) :
    ∃ j, n ∈ (b.levels side.opp j).orders := by
  rcases List.mem_append.mp h with h | h
  · exact ⟨i, h⟩
  · obtain ⟨j, -, hj⟩ := List.mem_flatMap.mp h
    exact ⟨j, hj⟩

theorem Coherent.positive_of_mem_queueFrom (hb : Coherent b)
    (h : n ∈ b.queueFrom side price i) : 0 < n.order.quantity := by
  obtain ⟨j, hj⟩ := exists_mem_of_mem_queueFrom h
  exact hb.positive hj

theorem mem_queueFrom_of_mem_matchQueue (h : n ∈ b.matchQueue side price) :
    n ∈ b.queueFrom side price (b.config.priceToIndex (b.best side.opp)) := by
  rw [matchQueue] at h
  split at h
  · exact h
  · cases h

theorem Coherent.positive_of_mem_matchQueue (hb : Coherent b)
    (h : n ∈ b.matchQueue side price) : 0 < n.order.quantity :=
  hb.positive_of_mem_queueFrom (mem_queueFrom_of_mem_matchQueue h)

/-- The front order of the level is the head of the queue. -/
theorem queueFrom_eq_cons {rest : List Node} (hfront : (b.levels side.opp i).orders = n :: rest) :
    b.queueFrom side price i = n :: (rest ++ b.queueBeyond side price i) := by
  rw [queueFrom, hfront, List.cons_append]

/-! ### Entering and leaving a level -/

theorem matchQueue_of_guard {o : Order} {w : World ε} (h : MatchGuard side (o, w)) :
    w.book.matchQueue side o.price =
      w.book.queueFrom side o.price (w.book.config.priceToIndex (w.book.best side.opp)) := by
  rw [matchQueue, if_pos h.2]

theorem matchQueue_of_not_guard {o : Order} {w : World ε} (h : ¬ MatchGuard side (o, w))
    (hq : 0 < o.quantity) : w.book.matchQueue side o.price = [] := by
  rw [matchQueue, if_neg fun hg => h ⟨hq, hg⟩]

/-- Where a scan finds an occupied level, the rest of its list is the scan from there. -/
theorem beyond_eq_of_append {c : OrderBookConfig} {as bs : List ℕ}
    (h : beyond c s i = as ++ j :: bs) : bs = beyond c s j := by
  cases s with
  | sell =>
    obtain ⟨k, hk, -, hbs⟩ := List.range'_eq_append_iff.mp h
    obtain ⟨rfl, -, rfl⟩ := List.range'_eq_cons_iff.mp hbs.symm
    rw [beyond]
    congr 1
    omega
  | buy =>
    have h' := congrArg List.reverse h
    simp only [beyond, List.reverse_reverse, List.reverse_append, List.reverse_cons,
      List.append_assoc, List.range_eq_range'] at h'
    obtain ⟨k, hk, hbs, hrest⟩ := List.range'_eq_append_iff.mp h'
    obtain ⟨rfl, hpos, -⟩ := List.range'_eq_cons_iff.mp hrest.symm
    have hj : castInt (0 + k * 1) = k := by
      have : castInt i < 2147483648 := by unfold castInt; rw [Int.bmod_def]; omega
      rw [castInt_of_lt (by omega)]
      omega
    rw [beyond, hj, ← List.reverse_eq_iff, hbs, List.range_eq_range', Int.toNat_natCast]

theorem filter_beyond_of_nextLevel (h : b.nextLevel s i = some j) :
    (beyond b.config s i).filter (fun k => !(b.levels s k).empty) =
      j :: (beyond b.config s j).filter fun k => !(b.levels s k).empty := by
  obtain ⟨hj, as, bs, heq, has⟩ := List.find?_eq_some_iff_append.mp h
  have hnil : as.filter (fun k => !(b.levels s k).empty) = [] := by
    rw [List.filter_eq_nil_iff]
    exact fun k hk => by simpa using has k hk
  rw [← beyond_eq_of_append heq, heq, List.filter_append, hnil, List.nil_append]
  exact List.filter_cons_of_pos hj

/-- **Leaving an exhausted level** does not change the queue. -/
theorem queueFrom_eq_matchQueue (hb : Coherent b) (hi : i < b.config.numLevels)
    (hempty : (b.levels side.opp i).orders = []) :
    (b.leaveLevel side.opp i).matchQueue side price = b.queueFrom side price i := by
  have hbest : (b.leaveLevel side.opp i).best side.opp = b.scanBest side.opp i := by
    rw [leaveLevel, if_pos (PriceLevel.empty_iff.mpr hempty)]; simp
  rw [queueFrom, hempty, List.nil_append, matchQueue, hbest,
    queueFrom_congr config_leaveLevel levels_leaveLevel, config_leaveLevel]
  cases hn : b.nextLevel side.opp i with
  | none =>
    have hnil : (beyond b.config side.opp i).filter
        (fun k => !(b.levels side.opp k).empty) = [] := by
      rw [List.filter_eq_nil_iff]
      exact fun k hk => List.find?_eq_none.mp hn k hk
    rw [scanBest_eq_of_none hn, if_neg (by omega), queueBeyond, levelsBeyond, hnil]
    rfl
  | some j =>
    rw [hb.scanBest_of_some hn, b.config.priceToIndex_priceAt (nextLevel_lt hn hi), queueBeyond,
      levelsBeyond, filter_beyond_of_nextLevel hn]
    split
    · rename_i h
      rw [List.takeWhile_cons_of_pos (by simpa using h), List.flatMap_cons]
      rfl
    · rename_i h
      rw [List.takeWhile_cons_of_neg (by rwa [decide_eq_true_eq])]
      rfl

/-- **Leaving a level** does not change the queue, unless the quantity is used up. -/
theorem matchQueue_leaveLevel {o : Order} {w : World ε} (hb : Coherent w.book)
    (hi : i < w.book.config.numLevels) (hg : ¬ LevelGuard side i (o, w)) :
    (w.book.leaveLevel side.opp i).matchQueue side o.price = w.book.queueFrom side o.price i ∨
      o.quantity ≤ 0 := by
  by_cases hempty : (w.book.levels side.opp i).orders = []
  · exact Or.inl (queueFrom_eq_matchQueue hb hi hempty)
  · exact Or.inr (not_lt.mp fun hq => hg ⟨hempty, hq⟩)

/-! ### Filling the head -/

/-- The queue after a fill of `q` from its head. -/
def queueAfter (q : ℤ) : List Node → List Node
  | [] => []
  | n :: rest => if n.order.quantity ≤ q then rest else reduced n q :: rest

/-- **A fill** takes place at the head of the queue. -/
theorem queueFrom_settleFront {rest : List Node} {q : ℤ} (hb : Coherent b)
    (hfront : (b.levels side.opp i).orders = n :: rest) :
    (b.settleFront side.opp i n.order q).queueFrom side price i =
      queueAfter q (b.queueFrom side price i) := by
  have hbeyond : ∀ {b' : OrderBook}, b'.config = b.config →
      (∀ j, j ≠ i → b'.levels side.opp j = b.levels side.opp j) →
      b'.queueBeyond side price i = b.queueBeyond side price i := by
    intro b' hc hl
    refine queueBeyond_congr hc fun j hj => hl j ?_
    rintro rfl
    exact farther_irrefl (farther_of_mem_beyond hj)
  have hnd := hb.nodup side.opp i
  rw [hfront] at hnd
  rw [queueFrom, queueFrom, hbeyond (by simp) fun j hj => levels_settleFront_of_ne (by simp [hj]),
    hfront, List.cons_append, queueAfter]
  rcases hb.settleFront_cases (q := q) hfront with ⟨hq, h⟩ | ⟨hq, h⟩
  · rw [h, if_pos hq, orders_unlink_self, hfront, PriceLevel.filter_handle_cons hnd]
  · rw [h, if_neg (not_le.mpr hq), levels_reduceFront_self hfront]
    rfl

/-! ### Where an order ends -/

/-- The quantity `q` runs out in the middle of an order of the queue that `P` selects. -/
def EndsInside (P : Node → Prop) : List Node → ℤ → Prop
  | [], _ => False
  | n :: ns, q => (P n ∧ 0 < q ∧ q < n.order.quantity) ∨ EndsInside P ns (q - n.order.quantity)

instance decidableEndsInside (P : Node → Prop) [DecidablePred P] :
    ∀ ns q, Decidable (EndsInside P ns q)
  | [], _ => inferInstanceAs (Decidable False)
  | n :: ns, q =>
    have := decidableEndsInside P ns (q - n.order.quantity)
    inferInstanceAs (Decidable (_ ∨ _))

variable {P : Node → Prop} {ns : List Node} {q : ℤ}

theorem EndsInside.exists_mem (h : EndsInside P ns q) : ∃ n ∈ ns, P n := by
  induction ns generalizing q with
  | nil => exact h.elim
  | cons n ns ih =>
    rcases h with ⟨hP, -⟩ | h
    · exact ⟨n, List.mem_cons_self, hP⟩
    · obtain ⟨m, hm, hP⟩ := ih h
      exact ⟨m, List.mem_cons_of_mem _ hm, hP⟩

theorem not_endsInside_of_nonpos (hpos : ∀ n ∈ ns, 0 < n.order.quantity) (hq : q ≤ 0) :
    ¬ EndsInside P ns q := by
  induction ns generalizing q with
  | nil => exact id
  | cons n ns ih =>
    have hn := hpos n List.mem_cons_self
    rintro (⟨-, hq', -⟩ | h)
    · omega
    · exact ih (fun m hm => hpos m (List.mem_cons_of_mem _ hm)) (by omega) h

/-- **A fill** of the head by as much as there is on both sides. -/
theorem not_endsInside_queueAfter (hpos : ∀ n ∈ ns, 0 < n.order.quantity)
    (h : ¬ EndsInside P (n :: ns) q) :
    ¬ EndsInside P (queueAfter (min q n.order.quantity) (n :: ns))
      (q - min q n.order.quantity) := by
  rw [EndsInside, not_or] at h
  by_cases hq : n.order.quantity ≤ q
  · rw [min_eq_right hq, queueAfter, if_pos le_rfl]
    exact h.2
  · have hlt := not_le.mp hq
    rw [min_eq_left hlt.le, queueAfter, if_neg (not_le.mpr hlt), sub_self]
    refine not_endsInside_of_nonpos (fun m hm => ?_) le_rfl
    rcases List.mem_cons.mp hm with rfl | hm
    · rw [reduced_quantity]
      omega
    · exact hpos m hm

end OrderBook

end MiniTrader
