import MiniTrader.OrderBook.Tidy
import Mathlib.Algebra.BigOperators.Group.Finset.Piecewise
import Mathlib.Algebra.Order.BigOperators.Group.Finset

/-!
# How much rests

The total quantity of the resting orders that a selection of ids and sides picks out. Each of the
primitives of `Coherence` changes one queue, and so it changes the total by what it takes out of
that queue or adds to it. Nothing is asked of the ids.

## Main definitions

* `restingSum` — the total for a selection
* `restingQuantity` — what rests under one id
* `Thinned` — a book after some cancels

## Main results

* `Coherent.restingSum_unlink`, `Coherent.restingSum_settleFront`, `restingSum_join`
* `Coherent.restingQuantity_eq_zero_iff`
-/

namespace MiniTrader

open Fuelled

namespace OrderBook

variable {b b' : OrderBook} {s t : Side} {i j : ℕ} {n : Node} {φ : ℕ → Side → Bool}

/-- The selection picks the order of the node. -/
def picks (φ : ℕ → Side → Bool) (n : Node) : Bool := φ n.order.orderId n.order.side

/-- The total over one queue. -/
def levelSum (φ : ℕ → Side → Bool) (ns : List Node) : ℤ :=
  PriceLevel.sumQuantity (ns.filter (picks φ))

/-- The total over the book. -/
def restingSum (φ : ℕ → Side → Bool) (b : OrderBook) : ℤ :=
  ∑ i ∈ Finset.range b.config.numLevels,
    (levelSum φ (b.levels .buy i).orders + levelSum φ (b.levels .sell i).orders)

/-- What rests under an id. -/
def restingQuantity (b : OrderBook) (id : ℕ) : ℤ := restingSum (fun id' _ => id' = id) b

/-! ### One queue -/

theorem levelSum_cons (n : Node) (ns : List Node) :
    levelSum φ (n :: ns) = (if picks φ n then n.order.quantity else 0) + levelSum φ ns := by
  unfold levelSum
  split
  · rw [List.filter_cons_of_pos ‹_›, PriceLevel.sumQuantity_cons]
  · rw [List.filter_cons_of_neg ‹_›, zero_add]

theorem levelSum_append (ns ns' : List Node) :
    levelSum φ (ns ++ ns') = levelSum φ ns + levelSum φ ns' := by
  rw [levelSum, List.filter_append, PriceLevel.sumQuantity_append]
  rfl

theorem levelSum_singleton (n : Node) :
    levelSum φ [n] = if picks φ n then n.order.quantity else 0 := by
  rw [levelSum_cons]
  exact add_zero _

theorem levelSum_filter_handle {ns : List Node} (hd : (ns.map Node.handle).Nodup) (hn : n ∈ ns) :
    levelSum φ (ns.filter fun m => m.handle ≠ n.handle) =
      levelSum φ ns - if picks φ n then n.order.quantity else 0 := by
  have hcomm : (ns.filter fun m => m.handle ≠ n.handle).filter (picks φ) =
      (ns.filter (picks φ)).filter fun m => m.handle ≠ n.handle := by
    rw [List.filter_filter, List.filter_filter]
    exact List.filter_congr fun m _ => Bool.and_comm _ _
  rw [levelSum, hcomm]
  split
  · rename_i hp
    exact PriceLevel.sumQuantity_filter_handle (hd.sublist (List.filter_sublist.map _))
      (List.mem_filter.mpr ⟨hn, hp⟩)
  · rename_i hp
    rw [List.filter_eq_self.mpr, sub_zero, levelSum]
    intro m hm
    obtain ⟨hm, hpm⟩ := List.mem_filter.mp hm
    have hne : m.handle ≠ n.handle := fun he =>
      hp (PriceLevel.eq_of_handle_eq hd hm hn he ▸ hpm)
    simpa using hne

theorem levelSum_nonneg {ns : List Node} (h : ∀ n ∈ ns, 0 < n.order.quantity) :
    0 ≤ levelSum φ ns :=
  PriceLevel.sumQuantity_nonneg fun n hn => h n (List.mem_filter.mp hn).1

/-! ### The book -/

theorem restingSum_congr (hc : b'.config = b.config) (hl : ∀ s, b'.levels s = b.levels s) :
    restingSum φ b' = restingSum φ b := by
  unfold restingSum
  rw [hc, hl, hl]

/-- One queue changes. -/
theorem restingSum_of_level {d : ℤ} (hi : i < b.config.numLevels) (hc : b'.config = b.config)
    (hother : ∀ t j, ¬ (t = s ∧ j = i) → b'.levels t j = b.levels t j)
    (hself : levelSum φ (b'.levels s i).orders = levelSum φ (b.levels s i).orders + d) :
    restingSum φ b' = restingSum φ b + d := by
  have hlevel : ∀ j, levelSum φ (b'.levels .buy j).orders + levelSum φ (b'.levels .sell j).orders =
      (levelSum φ (b.levels .buy j).orders + levelSum φ (b.levels .sell j).orders) +
        if j = i then d else 0 := by
    intro j
    by_cases hj : j = i
    · subst hj
      cases s with
      | buy => rw [hself, hother .sell j (by simp), if_pos rfl]; omega
      | sell => rw [hself, hother .buy j (by simp), if_pos rfl]; omega
    · rw [hother .buy j fun h => hj h.2, hother .sell j fun h => hj h.2, if_neg hj, add_zero]
  unfold restingSum
  rw [hc, Finset.sum_congr rfl fun j _ => hlevel j, Finset.sum_add_distrib, Finset.sum_ite_eq',
    if_pos (Finset.mem_range.mpr hi)]

theorem Coherent.restingSum_unlink (hb : Coherent b) (hn : n ∈ (b.levels s i).orders) :
    restingSum φ (b.unlink s i n) =
      restingSum φ b - if picks φ n then n.order.quantity else 0 := by
  rw [sub_eq_add_neg]
  refine restingSum_of_level (s := s) (i := i) (hb.inRange hn) config_unlink
    (fun t j h => levels_unlink_of_ne h) ?_
  rw [orders_unlink_self, levelSum_filter_handle (hb.nodup s i) hn, sub_eq_add_neg]

/-- **A fill** takes its quantity off what rests. -/
theorem Coherent.restingSum_settleFront {rest : List Node} {q : ℤ} (hb : Coherent b)
    (hfront : (b.levels s i).orders = n :: rest) (hq : q ≤ n.order.quantity) :
    restingSum φ (b.settleFront s i n.order q) = restingSum φ b - if picks φ n then q else 0 := by
  have hn : n ∈ (b.levels s i).orders := by rw [hfront]; exact List.mem_cons_self
  rcases hb.settleFront_cases (q := q) hfront with ⟨hle, h⟩ | ⟨-, h⟩
  · rw [h, hb.restingSum_unlink hn, le_antisymm hq hle]
  · rw [h, sub_eq_add_neg]
    refine restingSum_of_level (s := s) (i := i) (hb.inRange hn) config_reduceFront
      (fun t j hne => levels_reduceFront_of_ne hne) ?_
    rw [levels_reduceFront_self hfront, hfront, levelSum_cons, levelSum_cons]
    have hpick : picks φ (reduced n q) = picks φ n := rfl
    rw [hpick, reduced_quantity]
    split <;> omega

/-- **An order that joins** its level adds its quantity. -/
theorem restingSum_join {o : Order} (hidx : b.config.priceToIndex o.price < b.config.numLevels) :
    restingSum φ (b.join o) =
      restingSum φ b + if φ o.orderId o.side then o.quantity else 0 := by
  refine restingSum_of_level (s := o.side) hidx config_join (fun t j h => ?_) ?_
  · rw [levels_join, levels_link_of_ne h]
  · rw [levels_join, levels_link_self, PriceLevel.addOrder, levelSum_append, levelSum_singleton]
    rfl

/-- What a cancel takes away. -/
theorem Coherent.restingSum_cancelOrder {id : ℕ} {r : Bool} (hb : Coherent b)
    (h : b.cancelOrder id = .ok (r, b')) : (r = false ∧ b' = b) ∨
      ∃ s i n, n ∈ (b.levels s i).orders ∧ n.order.orderId = id ∧ r = true ∧
        restingSum φ b' = restingSum φ b - if picks φ n then n.order.quantity else 0 := by
  rcases hb.exists_cancelOrder id with ⟨-, hc⟩ | ⟨s, i, n, hn, hid, hc⟩
  · rw [hc] at h
    cases h
    exact Or.inl ⟨rfl, rfl⟩
  · rw [hc] at h
    cases h
    refine Or.inr ⟨s, i, n, hn, hid, rfl, ?_⟩
    rw [restingSum_congr config_refreshBest fun t => levels_refreshBest, hb.restingSum_unlink hn]

theorem Coherent.restingSum_nonneg (hb : Coherent b) : 0 ≤ restingSum φ b :=
  Finset.sum_nonneg fun _ _ =>
    add_nonneg (levelSum_nonneg fun _ => hb.positive) (levelSum_nonneg fun _ => hb.positive)

theorem restingSum_eq_zero (h : ∀ s i, ∀ n ∈ (b.levels s i).orders, picks φ n = false) :
    restingSum φ b = 0 := by
  have hlevel : ∀ s i, levelSum φ (b.levels s i).orders = 0 := by
    intro s i
    rw [levelSum, List.filter_eq_nil_iff.mpr fun n hn => by
      rw [h s i n hn]
      exact Bool.false_ne_true]
    rfl
  exact Finset.sum_eq_zero fun i _ => by rw [hlevel, hlevel, add_zero]

/-- What is picked is a part of the total. -/
theorem Coherent.le_restingSum (hb : Coherent b) (hn : n ∈ (b.levels s i).orders)
    (hp : picks φ n = true) : n.order.quantity ≤ restingSum φ b := by
  have hsum := hb.restingSum_unlink (φ := φ) hn
  have := (hb.unlink hn).restingSum_nonneg (φ := φ)
  rw [if_pos hp] at hsum
  omega

/-- Only the orders that the selections tell apart matter. -/
theorem restingSum_congr_picks {φ' : ℕ → Side → Bool}
    (h : ∀ s i, ∀ n ∈ (b.levels s i).orders, picks φ' n = picks φ n) :
    restingSum φ' b = restingSum φ b := by
  have hlevel : ∀ s i, levelSum φ' (b.levels s i).orders = levelSum φ (b.levels s i).orders :=
    fun s i => congrArg PriceLevel.sumQuantity (List.filter_congr (h s i))
  exact Finset.sum_congr rfl fun i _ => by rw [hlevel, hlevel]

/-! ### What cancels leave -/

/-- The book after some cancels. -/
structure Thinned (b b' : OrderBook) : Prop where
  coherent : Coherent b'
  sublist : ∀ s i, (b'.levels s i).orders.Sublist (b.levels s i).orders
  restingSum_le : ∀ φ, restingSum φ b' ≤ restingSum φ b

theorem Coherent.thinned_self (hb : Coherent b) : Thinned b b :=
  ⟨hb, fun _ _ => List.Sublist.refl _, fun _ => le_rfl⟩

theorem Thinned.trans {b'' : OrderBook} (h : Thinned b b') (h' : Thinned b' b'') :
    Thinned b b'' where
  coherent := h'.coherent
  sublist s i := (h'.sublist s i).trans (h.sublist s i)
  restingSum_le φ := (h'.restingSum_le φ).trans (h.restingSum_le φ)

theorem Coherent.thinned_cancelOrder {id : ℕ} {r : Bool} (hb : Coherent b)
    (h : b.cancelOrder id = .ok (r, b')) : Thinned b b' := by
  refine ⟨hb.cancelOrder h, hb.sublist_cancelOrder h, fun φ => ?_⟩
  rcases hb.restingSum_cancelOrder (φ := φ) h with ⟨-, rfl⟩ | ⟨s, i, n, hn, -, -, hsum⟩
  · exact le_rfl
  · have := hb.positive hn
    rw [hsum]
    split <;> omega

theorem Coherent.thinned_leaveLevel (hb : Coherent b) : Thinned b (b.leaveLevel s i) where
  coherent := hb.leaveLevel
  sublist t j := by rw [levels_leaveLevel]
  restingSum_le φ := (restingSum_congr config_leaveLevel fun _ => levels_leaveLevel).le

theorem Thinned.mem (h : Thinned b b') (hn : n ∈ (b'.levels s i).orders) :
    n ∈ (b.levels s i).orders := (h.sublist s i).subset hn

theorem Thinned.restsWithin (h : Thinned b b') : RestsWithin b' b := fun s i n hn =>
  RestsWithin.refl b s i n (h.mem hn)

/-! ### One id -/

/-- Other orders come and go. -/
theorem Coherent.notResting_unlink_iff {id : ℕ} (hb : Coherent b)
    (hn : n ∈ (b.levels s i).orders) (hne : n.order.orderId ≠ id) :
    NotResting (b.unlink s i n) id ↔ NotResting b id := by
  refine ⟨fun h t j m hm hid => ?_, (hb.restsWithin_unlink hn).notResting⟩
  exact h t j m ((hb.mem_unlink hn).mpr ⟨hm, fun he => hne (he ▸ hid)⟩) hid

theorem notResting_congr {id : ℕ} (h : ∀ s, b'.levels s = b.levels s) :
    NotResting b' id ↔ NotResting b id :=
  ⟨(restsWithin_of_levels fun s => (h s).symm).notResting, (restsWithin_of_levels h).notResting⟩

theorem Coherent.notResting_cancelOrder_iff {id id' : ℕ} {r : Bool} (hb : Coherent b)
    (hc : b.cancelOrder id' = .ok (r, b')) (hne : id' ≠ id) :
    NotResting b' id ↔ NotResting b id := by
  rcases hb.exists_cancelOrder id' with ⟨-, hc'⟩ | ⟨s, i, n, hn, rfl, hc'⟩
  · rw [hc'] at hc
    cases hc
    exact Iff.rfl
  · rw [hc'] at hc
    cases hc
    rw [notResting_congr fun _ => levels_refreshBest, hb.notResting_unlink_iff hn hne]

theorem Coherent.notResting_settleFront_iff {id : ℕ} {rest : List Node} {q : ℤ} (hb : Coherent b)
    (hfront : (b.levels s i).orders = n :: rest) (hne : n.order.orderId ≠ id) :
    NotResting (b.settleFront s i n.order q) id ↔ NotResting b id := by
  have hn : n ∈ (b.levels s i).orders := by rw [hfront]; exact List.mem_cons_self
  rcases hb.settleFront_cases (q := q) hfront with ⟨-, h⟩ | ⟨-, h⟩
  · rw [h]
    exact hb.notResting_unlink_iff hn hne
  · rw [h]
    refine ⟨fun h t j m hm hid => ?_, fun h t j m hm hid => ?_⟩
    · exact h t j m ((hb.mem_reduceFront hfront).mpr
        (Or.inl ⟨hm, fun he => hne (he ▸ hid)⟩)) hid
    · rcases (hb.mem_reduceFront hfront).mp hm with ⟨hm, -⟩ | ⟨rfl, rfl, rfl⟩
      · exact h t j m hm hid
      · exact hne hid

theorem notResting_join_iff {id : ℕ} {o : Order} (hne : o.orderId ≠ id) :
    NotResting (b.join o) id ↔ NotResting b id := by
  constructor
  · intro h t j m hm
    refine h t j m ?_
    rw [levels_join]
    exact mem_link.mpr (Or.inl hm)
  · intro h t j m hm
    rw [levels_join] at hm
    rcases mem_link.mp hm with hm | ⟨rfl, rfl, rfl⟩
    · exact h t j m hm
    · exact hne

/-- A new order rests. -/
theorem not_notResting_join (b : OrderBook) (o : Order) : ¬ NotResting (b.join o) o.orderId :=
  fun h => h o.side (b.config.priceToIndex o.price) ⟨b.nextNode, o⟩
    (by rw [levels_join]; exact mem_link.mpr (Or.inr ⟨rfl, rfl, rfl⟩)) rfl

theorem restingQuantity_of_notResting {id : ℕ} (h : NotResting b id) : restingQuantity b id = 0 :=
  restingSum_eq_zero fun s i n hn => decide_eq_false (h s i n hn)

/-- Nothing rests under an id just when no order has it. -/
theorem Coherent.restingQuantity_eq_zero_iff (hb : Coherent b) {id : ℕ} :
    restingQuantity b id = 0 ↔ NotResting b id := by
  refine ⟨fun h s i n hn he => ?_, restingQuantity_of_notResting⟩
  have hle := hb.le_restingSum (φ := fun id' _ => id' = id) hn (decide_eq_true he)
  have := hb.positive hn
  rw [restingQuantity] at h
  omega

theorem restingSum_new (c : OrderBookConfig) : restingSum φ (new c) = 0 :=
  restingSum_eq_zero fun s i n hn => by rw [orders_new] at hn; cases hn

end OrderBook

end MiniTrader
