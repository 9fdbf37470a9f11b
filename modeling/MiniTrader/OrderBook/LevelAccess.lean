import MiniTrader.OrderBook.Caches

/-!
# Accesses to the levels

`add_order`, `match` and `cancel_order` index the two vectors of levels without a bound check. The
indices of `match` and `cancel_order` come from a cache and from the id map, and a book that has
been sound stays so (`Ranged`), whatever orders a callback cancels in the middle of a match: where
it cancels the order being filled, `match` does not come back from the next look at that order, and
where it does not, that order is still the first of its queue. Only the index of `add_order` comes
from a price that nobody has looked at.

## Main definitions

* `OrderBookConfig.InRange` — the prices that are rounded to a level
* `Ranged` — the invariant
* `OnlyCancels` — the callback at most cancels, whatever the ids

## Main results

* `OrderBookConfig.priceToIndex_lt_iff`
* `Ranged.matchOrder`, `Ranged.cancelOrder` — no access out of range
* `Ranged.addOrder` — none, if what is left of a limit order has a price in the range
* `converges_addOrder_outOfRange` — one, if the price is not in the range
-/

namespace MiniTrader

open Fuelled

namespace OrderBookConfig

variable {c : OrderBookConfig} {price : ℤ}

/-- The distance to the lowest price, which is an `int64_t`, is within the levels. A distance of
less than one tick below rounds up to the lowest level. -/
def InRange (c : OrderBookConfig) (price : ℤ) : Prop :=
  -c.tickSize < wrap64 (price - c.minPrice) ∧
    wrap64 (price - c.minPrice) < c.numLevels * c.tickSize

instance (c : OrderBookConfig) (price : ℤ) : Decidable (c.InRange price) :=
  inferInstanceAs (Decidable (_ ∧ _))

/-- **The index exists** just for a price in the range. A negative quotient becomes an index of at
least `2 ^ 63`. -/
theorem priceToIndex_lt_iff : c.priceToIndex price < c.numLevels ↔ c.InRange price := by
  have hlevels := c.numLevels_le
  have htick := c.tick_pos
  obtain ⟨hlow, hhigh⟩ := isInt64_wrap64 (price - c.minPrice)
  unfold priceToIndex InRange
  generalize wrap64 (price - c.minPrice) = d at hlow hhigh
  rcases lt_or_ge d 0 with hneg | hnn
  · have htdiv : d.tdiv c.tickSize = -(-d / c.tickSize) := by
      rw [← Int.tdiv_eq_ediv_of_nonneg (by omega), Int.neg_tdiv, neg_neg]
    have hle : -d / c.tickSize ≤ -d := Int.ediv_le_self _ (by omega)
    have hpos : 0 < c.numLevels := Nat.succ_pos _
    have hprod : 0 ≤ (c.numLevels : ℤ) * c.tickSize :=
      mul_nonneg (Int.natCast_nonneg _) htick.le
    rcases lt_or_ge (-d) c.tickSize with hsmall | hlarge
    · rw [htdiv, Int.ediv_eq_zero_of_lt (by omega) hsmall]
      exact iff_of_true hpos ⟨by omega, by omega⟩
    · have hone : 1 ≤ -d / c.tickSize := (Int.le_ediv_iff_mul_le htick).mpr (by omega)
      refine iff_of_false ?_ fun h => absurd h.1 (by omega)
      rw [htdiv]
      omega
  · have hle : d / c.tickSize ≤ d := Int.ediv_le_self _ hnn
    have hnn' : 0 ≤ d / c.tickSize := Int.ediv_nonneg hnn htick.le
    rw [Int.tdiv_eq_ediv_of_nonneg hnn, Int.emod_eq_of_lt hnn' (by omega),
      ← Int.ediv_lt_iff_lt_mul htick, and_iff_right (by omega : -c.tickSize < d)]
    omega

end OrderBookConfig

namespace OrderBook

variable {ε : Type} {b b' : OrderBook} {c : OrderBookConfig} {s t side : Side} {i j : ℕ}
  {n m : Node} {rest : List Node}

/-- The access is out of range. -/
def OutOfRange (f : Fault) : Prop := f = .outOfRange

theorem not_outOfRange_dangling : ¬ OutOfRange .dangling := fun h => by cases h

/-- A sound book over the configuration. -/
structure Ranged (c : OrderBookConfig) (b : OrderBook) : Prop where
  config_eq : b.config = c
  sound : Sound b

theorem ranged_new (c : OrderBookConfig) : Ranged c (new c) := ⟨rfl, sound_new c⟩

/-- **Cancelling.** -/
theorem Ranged.cancelOrder (h : Ranged c b) (id : ℕ) :
    Ensures OutOfRange (fun r => Ranged c r.2) (b.cancelOrder id) := by
  rcases h.sound.coherent.exists_cancelOrder id with ⟨-, hc⟩ | ⟨s, i, n, -, -, hc⟩
  · rw [hc]
    exact ensures_ok h
  · have hsound := h.sound.cancelOrder hc
    rw [hc]
    exact ensures_ok ⟨by simp [h.config_eq], hsound⟩

/-! ### A callback that cancels anything -/

theorem Cancels.ranged (h : Cancels b b') (hb : Ranged c b) : Ranged c b' :=
  ⟨(h.sound hb.sound).2.trans hb.config_eq, (h.sound hb.sound).1⟩

/-- Where the order at the front can still be read, it is still at the front. -/
theorem Cancels.front (h : Cancels b b') (hb : Sound b)
    (hfront : (b.levels s i).orders = n :: rest) {o : Order}
    (hread : b'.readResting s i n.handle = .ok o) :
    o = n.order ∧ ∃ rest', (b'.levels s i).orders = n :: rest' :=
  hb.coherent.front_of_sublist ((h.sublist hb.coherent).2 s i) hfront hread

/-- The callback at most cancels. -/
def OnlyCancels (cb : FillCallback ε) : Prop :=
  ∀ r w, Sound w.book → Ensures OutOfRange (fun w' => Cancels w.book w'.book) (cb r w)

/-! ### Matching -/

variable {cb : FillCallback ε} {fuel : ℕ} {o : Order} {w : World ε}

theorem ensures_readResting {handle : ℕ} :
    Ensures OutOfRange (fun _ => True) (b.readResting s i handle) := by
  rw [readResting]
  split
  · exact ensures_ok trivial
  · exact ensures_fault not_outOfRange_dangling

/-- **A fill.** -/
theorem Ranged.fillFront {st : Order × World ε} (hcb : OnlyCancels cb)
    (h : Ranged c st.2.book) :
    Ensures OutOfRange (fun st' => Ranged c st'.2.book) (fillFront cb side i st) := by
  rw [OrderBook.fillFront]
  split
  · exact ensures_fault not_outOfRange_dangling
  rename_i n rest hfront
  refine (hcb _ _ h.sound).bind fun w₁ _ h₁ => ?_
  have hb₁ := h₁.ranged h
  refine ensures_readResting.bind fun resting hread₁ _ => ?_
  obtain ⟨rfl, rest₁, hfront₁⟩ := h₁.front h.sound hfront hread₁
  refine (hcb _ _ hb₁.sound).bind fun w₂ _ h₂ => ?_
  have hb₂ := h₂.ranged hb₁
  refine ensures_readResting.bind fun resting' hread₂ _ => ?_
  obtain ⟨rfl, rest₂, hfront₂⟩ := h₂.front hb₁.sound hfront₁ hread₂
  exact ensures_ok ⟨by rw [World.book_withBook, config_settleFront, hb₂.config_eq],
    hb₂.sound.settleFront hfront₂⟩

/-- The level of the cached price. -/
theorem Ranged.sweepLevel {st : Order × World ε} (hcb : OnlyCancels cb) (h : Ranged c st.2.book)
    (hg : MatchGuard side st) :
    Ensures OutOfRange (fun st' => Ranged c st'.2.book) (sweepLevel cb side fuel st) := by
  have hi := h.sound.cached side.opp hg.2.1
  rw [h.config_eq] at hi
  have hloop := @ensures_whileLoop _ _
    (LevelGuard side (c.priceToIndex (st.2.book.best side.opp))) _ OutOfRange
    (fun _ => OrderBook.fillFront cb side (c.priceToIndex (st.2.book.best side.opp)))
    (fun st' => Ranged c st'.2.book) fuel (fun _ h' _ => Ranged.fillFront hcb h') st h
  rw [OrderBook.sweepLevel]
  simp only [h.config_eq]
  rw [if_pos hi]
  refine hloop.bind fun st' _ h' => ensures_ok ⟨?_, ?_⟩
  · exact config_leaveLevel.trans h'.1.config_eq
  · exact h'.1.sound.leaveLevel (h'.1.config_eq.symm ▸ hi)

/-- **Matching.** -/
theorem Ranged.matchOrder {st : Order × World ε} (hcb : OnlyCancels cb)
    (h : Ranged c st.2.book) :
    Ensures OutOfRange (fun st' => Ranged c st'.2.book) (matchOrder cb fuel st) :=
  (ensures_whileLoop (fun _ h' hg => Ranged.sweepLevel hcb h' hg) h).mono fun _ h' => h'.1

/-! ### Resting -/

/-- `match` changes nothing of the incoming order but its quantity. -/
theorem fst_matchOrder {st : Order × World ε} (h : matchOrder cb fuel (o, w) = .ok st) :
    st.1 = o.withQuantity st.1.quantity := by
  refine matchOrder_induction (I := fun t => t.1 = o.withQuantity t.1.quantity) rfl
    (fun ht _ hfill => ?_) (fun ht => ht) rfl h
  obtain ⟨n, ns, w₁, m, w₂, m', -, -, -, -, -, rfl⟩ := of_fillFront_eq_ok hfill
  dsimp only
  rw [ht]
  rfl

/-- **Adding** an order. If something of a limit order is left by `match`, its price is in the
range. -/
theorem Ranged.addOrder (hcb : OnlyCancels cb) (h : Ranged c w.book)
    (hrests : ∀ q w', OrderBook.matchOrder cb fuel (o, w) = .ok (o.withQuantity q, w') → 0 < q →
      o.type = .limit → c.InRange o.price) :
    Ensures OutOfRange (fun w' => Ranged c w'.book) (addOrder cb fuel o w) := by
  rw [OrderBook.addOrder]
  split
  · exact (h.cancelOrder o.orderId).bind fun _ _ h' => ensures_ok h'
  refine (Ranged.matchOrder hcb h).bind fun ⟨o', w'⟩ hst h' => ?_
  obtain ⟨q, rfl⟩ : ∃ q, o' = o.withQuantity q := ⟨_, fst_matchOrder hst⟩
  split
  · rename_i hrest
    have hi : w'.book.config.priceToIndex (o.withQuantity q).price < w'.book.config.numLevels := by
      rw [h'.config_eq]
      exact OrderBookConfig.priceToIndex_lt_iff.mpr (hrests q w' hst hrest.1 hrest.2)
    rw [restOrder_eq hi]
    exact ensures_ok ⟨by rw [World.book_withBook, config_join, h'.config_eq],
      h'.sound.join hrest.1 hi⟩
  · exact ensures_ok h'

/-- What is left of any other limit order is put into a level that does not exist. -/
theorem converges_addOrder_outOfRange {q : ℤ} {w' : World ε}
    (hm : Converges (fun fuel => OrderBook.matchOrder cb fuel (o, w)) (.ok (o.withQuantity q, w')))
    (hc : w'.book.config = c) (htype : o.type = .limit) (hq : 0 < q)
    (hprice : ¬ c.InRange o.price) :
    Converges (fun fuel => OrderBook.addOrder cb fuel o w) (.error (.fault .outOfRange)) := by
  have hidx : w'.book.config.numLevels ≤
      w'.book.config.priceToIndex (o.withQuantity q).price := by
    rw [hc]
    exact not_lt.mp fun hlt => hprice (OrderBookConfig.priceToIndex_lt_iff.mp hlt)
  have hcancel : o.type ≠ .cancel := by
    rw [htype]
    decide
  have hrest : w'.book.restOrder (o.withQuantity q) = .error (.fault .outOfRange) :=
    restOrder_eq_error hidx
  simp only [OrderBook.addOrder, if_neg hcancel]
  refine hm.bind ?_
  dsimp only
  rw [if_pos ⟨hq, htype⟩, hrest]
  exact converges_const _

end OrderBook

end MiniTrader
