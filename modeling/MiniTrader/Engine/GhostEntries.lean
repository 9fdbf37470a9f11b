import MiniTrader.Engine.ActiveOrders
import MiniTrader.Engine.CancelRatio

/-!
# Ghosts in the table

The other direction of `ActiveOrders`: entries whose order does not rest. An entry is made before
the book has seen the order, and what the book makes of the order is reported only in part. An order
that its own match uses up, or that had no quantity to begin with, never rests, and nothing tells
the gate; an order that a `Cancel` order takes out of the book is gone, and `submit_order` does not
tell the gate either. Its entry stays, and the check on self-trades goes on rejecting orders that
would have met it.

These are the only ways to become a ghost. What is counted here is what its own match has left of an
order: what it was submitted with, minus what it has been filled with as the incoming party.

## Main definitions

* `leftOver`, `Withdrawn` — the fate of an order, read off the past
* `NoGhosts` — every entry is that of a resting order
* `Tallied` — the invariant: an entry that is not in flight rests unless one of the two happened

## Main results

* `nested_tallied` — the invariant, at any depth
* `noGhosts_iff` — when there are no ghosts
-/

namespace MiniTrader

open Fuelled OrderBook

namespace TradingEngine

variable {σ : Type} {S : Strategy σ} {e e' : TradingEngine σ} {own : Bool} {o : Order}
  {id id' : ℕ} {F F' : List Order}

/-! ### The fate of an order -/

/-- What an event adds to what is left of the order with the id by its own match. -/
def leftOverEvent (id : ℕ) : EngineEvent → ℤ
  | .submitted _ o => if o.type ≠ .cancel ∧ o.orderId = id then o.quantity else 0
  | .filled r => if r.isMaker = false ∧ r.orderId = id then -r.filledQuantity else 0

/-- What its own match has left of the order with the id. -/
def leftOver (id : ℕ) (journal : List EngineEvent) : ℤ := (journal.map (leftOverEvent id)).sum

/-- A `Cancel` order has taken the order with the id out of the book. -/
def Withdrawn (id : ℕ) (e : TradingEngine σ) : Prop :=
  ∃ c ∈ e.env.cancels, c.byOrder = true ∧ c.removed = true ∧ c.orderId = id

theorem leftOver_append (journal : List EngineEvent) (event : EngineEvent) :
    leftOver id (journal ++ [event]) = leftOver id journal + leftOverEvent id event := by
  simp [leftOver]

/-- Orders with other ids, and `Cancel` orders, are of no account. -/
theorem leftOver_append_submitted {journal : List EngineEvent} (hid : id ∈ usedIds journal)
    (hfresh : o.type ≠ .cancel → o.orderId ∉ usedIds journal) :
    leftOver id (journal ++ [.submitted own o]) = leftOver id journal := by
  rw [leftOver_append, leftOverEvent, if_neg, add_zero]
  rintro ⟨htype, rfl⟩
  exact hfresh htype hid

theorem leftOver_admitted (hid : id ∈ usedIds e.env.journal)
    (hfresh : o.type ≠ .cancel → o.orderId ∉ usedIds e.env.journal) :
    leftOver id (admitted own o e).env.journal = leftOver id e.env.journal := by
  rw [journal_admitted]
  exact leftOver_append_submitted hid hfresh

/-- Nothing has happened to an order that has not been submitted. -/
theorem leftOver_eq_zero {journal : List EngineEvent} (hid : id ∉ usedIds journal)
    (hr : ∀ r ∈ reports journal, r.orderId ∈ usedIds journal) : leftOver id journal = 0 := by
  have key : ∀ j : List EngineEvent, id ∉ usedIds j → (∀ r ∈ reports j, r.orderId ≠ id) →
      leftOver id j = 0 := by
    intro j
    induction j with
    | nil => exact fun _ _ => rfl
    | cons event j ih =>
      intro hid hr
      have hsum : leftOver id (event :: j) = leftOverEvent id event + leftOver id j := by
        simp [leftOver]
      cases event with
      | submitted own o =>
        have hevent : leftOverEvent id (.submitted own o) = 0 :=
          if_neg fun h => hid (by simp [usedIds, h.1, h.2])
        rw [hsum, hevent, ih (fun h => hid ?_) hr, add_zero]
        rw [usedIds]
        split
        · exact h
        · exact List.mem_cons_of_mem _ h
      | filled r =>
        have hevent : leftOverEvent id (.filled r) = 0 :=
          if_neg fun h => hr r List.mem_cons_self h.2
        rw [hsum, hevent, ih hid fun r' hr' => hr r' (List.mem_cons_of_mem _ hr'), add_zero]
  exact key journal hid fun r hr' heq => hid (heq ▸ hr r hr')

theorem withdrawn_congr {l : List CancelEvent} (hc : e'.env.cancels = e.env.cancels ++ l)
    (hl : ∀ c ∈ l, ¬ (c.byOrder = true ∧ c.removed = true ∧ c.orderId = id)) :
    Withdrawn id e' ↔ Withdrawn id e := by
  rw [Withdrawn, hc]
  constructor
  · rintro ⟨c, hmem, h⟩
    rcases List.mem_append.mp hmem with hmem | hmem
    · exact ⟨c, hmem, h⟩
    · exact absurd h (hl c hmem)
  · rintro ⟨c, hmem, h⟩
    exact ⟨c, List.mem_append_left _ hmem, h⟩

/-- What a `Cancel` order that passes puts on record. -/
theorem withdrawn_admitted : Withdrawn id (e.admitted own o) ↔ Withdrawn id e ∨
    (o.type = .cancel ∧ o.orderId = id ∧ (e.book.orderMap.lookup id).isSome = true) := by
  rw [Withdrawn, cancels_admitted]
  split
  · rename_i htype
    constructor
    · rintro ⟨c, hmem, hby, hrem, hid⟩
      rcases List.mem_append.mp hmem with hmem | hmem
      · exact Or.inl ⟨c, hmem, hby, hrem, hid⟩
      · rw [List.mem_singleton] at hmem
        subst hmem
        subst hid
        exact Or.inr ⟨htype, rfl, hrem⟩
    · rintro (⟨c, hmem, h⟩ | ⟨-, rfl, hl⟩)
      · exact ⟨c, List.mem_append_left _ hmem, h⟩
      · exact ⟨_, List.mem_append_right _ List.mem_cons_self, rfl, hl, rfl⟩
  · rename_i htype
    rw [List.append_nil]
    exact (or_iff_left fun h => htype h.1).symm

/-- A report to a resting order is of no account. -/
theorem leftOver_beforeOnFill_maker {r : ExecutionReport} (hmaker : r.isMaker = true) :
    leftOver id (beforeOnFill r e).env.journal = leftOver id e.env.journal := by
  rw [journal_beforeOnFill, leftOver_append, leftOverEvent, if_neg, add_zero]
  rintro ⟨htaker, -⟩
  rw [hmaker] at htaker
  cases htaker

/-- A report to the incoming order. -/
theorem leftOver_beforeOnFill_taker {r : ExecutionReport} (htaker : r.isMaker = false) :
    leftOver id (beforeOnFill r e).env.journal =
      leftOver id e.env.journal - if r.orderId = id then r.filledQuantity else 0 := by
  rw [journal_beforeOnFill, leftOver_append, leftOverEvent, htaker]
  split_ifs with h h' h'
  · omega
  · exact absurd h.2 h'
  · exact absurd ⟨rfl, h'⟩ h
  · omega

theorem withdrawn_beforeOnFill {r : ExecutionReport} :
    Withdrawn id (beforeOnFill r e) ↔ Withdrawn id e :=
  withdrawn_congr (l := []) (by rw [cancels_beforeOnFill, List.append_nil]) nofun

theorem withdrawn_untracked : Withdrawn id (untracked id' e) ↔ Withdrawn id e :=
  withdrawn_congr (cancels_untracked id' e) fun c hc h => by
    rw [List.mem_singleton] at hc
    rw [hc] at h
    exact Bool.false_ne_true h.1

/-- Every entry of the table is the entry of a resting order. -/
def NoGhosts (e : TradingEngine σ) : Prop :=
  ∀ id ∈ e.env.risk.activeOrders, ∃ s i, ∃ n ∈ (e.book.levels s i).orders, n.order.orderId = id

/-! ### The invariant -/

/-- An order in flight is what its own match has left of it, and an entry that is not in flight
rests unless its own match has left nothing of it or a `Cancel` order has taken it away. -/
structure Tallied (F : List Order) (e : TradingEngine σ) : Prop where
  visible : Visible F e
  located : Located e.book
  distinct : (F.map Order.orderId).Nodup
  apart : ∀ o ∈ F, NotResting e.book o.orderId
  limit : ∀ o ∈ F, o.orderId ∈ e.env.risk.activeOrders → o.type = .limit
  inFlight : ∀ o ∈ F, o.quantity = leftOver o.orderId e.env.journal ∧ ¬ Withdrawn o.orderId e
  entry : ∀ id ∈ e.env.risk.activeOrders, id ∉ F.map Order.orderId →
    (NotResting e.book id ↔ leftOver id e.env.journal ≤ 0 ∨ Withdrawn id e)

/-- A step that changes nothing about the orders that are in flight or have an entry. -/
theorem Tallied.step (h : Tallied F e) (hv : Visible F e') (hloc : Located e'.book)
    (hrest : RestsWithin e'.book e.book)
    (ht : ∀ id ∈ e'.env.risk.activeOrders, id ∈ e.env.risk.activeOrders)
    (hleft : ∀ id ∈ usedIds e.env.journal,
      leftOver id e'.env.journal = leftOver id e.env.journal)
    (hwith : ∀ id, Withdrawn id e' ↔ Withdrawn id e)
    (hiff : ∀ id ∈ e'.env.risk.activeOrders, NotResting e'.book id ↔ NotResting e.book id) :
    Tallied F e' where
  visible := hv
  located := hloc
  distinct := h.distinct
  apart o ho := hrest.notResting (h.apart o ho)
  limit o ho hid := h.limit o ho (ht _ hid)
  inFlight o ho := by
    rw [hleft _ (h.visible.known.inFlight o ho), hwith]
    exact h.inFlight o ho
  entry id hid hF := by
    rw [hiff id hid, hleft id (h.visible.known.active id (ht id hid)), hwith]
    exact h.entry id (ht id hid) hF

/-- The orders in flight have no entry in the map of the book. -/
theorem Tallied.lookup_eq_none (h : Tallied F e) (hb : Coherent e.book) (ho : o ∈ F) :
    e.book.orderMap.lookup o.orderId = none := by
  rw [Option.eq_none_iff_forall_ne_some]
  intro loc hloc
  obtain ⟨n, hn, -, hid⟩ := hb.indexed hloc
  exact h.apart o ho _ _ n hn hid

/-- The other orders in flight when one of them is filled. -/
theorem Tallied.ne_of_mem (h : Tallied (o :: F) e) {o' : Order} (ho' : o' ∈ F) :
    o.orderId ≠ o'.orderId := fun heq =>
  (List.nodup_cons.mp h.distinct).1 (heq ▸ List.mem_map_of_mem ho')

/-- The entries of orders other than the innermost one. -/
theorem Tallied.entry_of_ne (h : Tallied (o :: F) e) (hid : id ∈ e.env.risk.activeOrders)
    (hne : o.orderId ≠ id) (hF : id ∉ F.map Order.orderId) :
    NotResting e.book id ↔ leftOver id e.env.journal ≤ 0 ∨ Withdrawn id e := by
  refine h.entry id hid ?_
  rw [List.map_cons, List.mem_cons, not_or]
  exact ⟨hne.symm, hF⟩

/-- A `Cancel` order that passes. -/
theorem Tallied.withdrawn {r : Bool} {b : OrderBook} (h : Tallied F e) (hb : Coherent e.book)
    (htype : o.type = .cancel) (hc : e.book.cancelOrder o.orderId = .ok (r, b)) :
    Tallied F ((e.admitted own o).withBook b) := by
  have hleft : ∀ id ∈ usedIds e.env.journal,
      leftOver id ((admitted own o e).withBook b).env.journal = leftOver id e.env.journal :=
    fun id hid => leftOver_admitted hid fun hne => absurd htype hne
  have hwith : ∀ id, Withdrawn id ((admitted own o e).withBook b) ↔ Withdrawn id e ∨
      (o.orderId = id ∧ (e.book.orderMap.lookup id).isSome = true) := fun id =>
    withdrawn_admitted.trans (or_congr_right (and_iff_right htype))
  have htable : ∀ id ∈ ((admitted own o e).withBook b).env.risk.activeOrders,
      id ∈ e.env.risk.activeOrders := by
    intro id hid
    rcases mem_activeOrders_admitted hid with hid | ⟨hlimit, -⟩
    · exact hid
    · rw [htype] at hlimit
      cases hlimit
  have hrest := (hb.thinned_cancelOrder hc).restsWithin
  refine ⟨nested_visible.withdrawn hb h.visible htype hc, h.located.cancelOrder hb hc, h.distinct,
    fun o' ho' => hrest.notResting (h.apart o' ho'),
    fun o' ho' hid => h.limit o' ho' (htable _ hid), fun o' ho' => ?_, fun id hid hF => ?_⟩
  · -- the book does not know the orders in flight
    rw [hleft _ (h.visible.known.inFlight o' ho'), hwith, h.lookup_eq_none hb ho']
    exact ⟨(h.inFlight o' ho').1, fun hor => hor.elim (h.inFlight o' ho').2 nofun⟩
  · have hold := h.entry id (htable id hid) hF
    rw [hleft id (h.visible.known.active id (htable id hid)), hwith]
    by_cases hself : o.orderId = id
    · subst hself
      refine iff_of_true (h.located.notResting_cancelOrder hb trivial hc) ?_
      cases hl : e.book.orderMap.lookup o.orderId with
      | some loc => exact Or.inr (Or.inr ⟨rfl, rfl⟩)
      | none => exact (hold.mp (h.located.notResting trivial hl)).imp_right Or.inl
    · rw [World.book_withBook, hb.notResting_cancelOrder_iff hc hself, hold]
      exact or_congr_right (or_iff_left fun h => hself h.1).symm

/-- Any other order that passes is in flight. -/
theorem Tallied.admitted (h : Tallied F e) (hb : Coherent e.book) (htype : o.type ≠ .cancel)
    (hfresh : o.orderId ∉ usedIds e.env.journal) :
    Tallied (o :: F) (TradingEngine.admitted own o e) := by
  have hleft : ∀ id ∈ usedIds e.env.journal,
      leftOver id (e.admitted own o).env.journal = leftOver id e.env.journal :=
    fun id hid => leftOver_admitted hid fun _ => hfresh
  have hwith : ∀ id, Withdrawn id (e.admitted own o) ↔ Withdrawn id e := fun id =>
    withdrawn_admitted.trans (or_iff_left fun h => htype h.1)
  have hknown := h.visible.known
  have hne : ∀ o' ∈ F, o'.orderId ≠ o.orderId := fun o' ho' heq =>
    hfresh (heq ▸ hknown.inFlight o' ho')
  refine ⟨nested_visible.admitted hb h.visible htype hfresh, by rw [book_admitted]; exact h.located,
    List.nodup_cons.mpr ⟨fun hid => ?_, h.distinct⟩, fun o' ho' => ?_, fun o' ho' hid => ?_,
    fun o' ho' => ?_, fun id hid hF => ?_⟩
  · obtain ⟨o', ho', heq⟩ := List.mem_map.mp hid
    exact hne o' ho' heq
  · rw [book_admitted]
    rcases List.mem_cons.mp ho' with rfl | ho'
    · exact fun s i n hn heq => hfresh (heq ▸ hknown.resting s i n hn)
    · exact h.apart o' ho'
  · rcases mem_activeOrders_admitted hid with hold | ⟨hlimit, heq⟩
    · rcases List.mem_cons.mp ho' with rfl | ho'
      · exact absurd (hknown.active _ hold) hfresh
      · exact h.limit o' ho' hold
    · rcases List.mem_cons.mp ho' with rfl | ho'
      · exact hlimit
      · exact absurd heq (hne o' ho')
  · rcases List.mem_cons.mp ho' with rfl | ho'
    · -- nothing has happened to the new order
      rw [journal_admitted, leftOver_append, leftOver_eq_zero hfresh hknown.reported, zero_add,
        leftOverEvent, if_pos ⟨htype, rfl⟩, hwith]
      exact ⟨rfl, fun ⟨c, hc, _, hrem, hid⟩ => hfresh (hid ▸ hknown.removed c hc hrem)⟩
    · rw [hleft _ (hknown.inFlight o' ho'), hwith]
      exact h.inFlight o' ho'
  · rw [List.map_cons, List.mem_cons, not_or] at hF
    rcases mem_activeOrders_admitted hid with hid | ⟨-, heq⟩
    · rw [book_admitted, hleft id (hknown.active id hid), hwith]
      exact h.entry id hid hF.2
    · exact absurd heq hF.1

section

variable {i : ℕ} {n : Node} {ns : List Node} {q : ℤ}

/-- The report to the incoming order. -/
theorem Tallied.taken (h : Tallied (o :: F) e) (hb : Coherent e.book) (hq : 0 < o.quantity)
    (hfront : (e.book.levels o.side.opp i).orders = n :: ns) :
    Tallied (Order.afterFill o n :: F)
      (beforeOnFill (takerReport o.side o n (e.book.best o.side.opp)) e) := by
  have hleft : ∀ id, o.orderId ≠ id → leftOver id (beforeOnFill
      (takerReport o.side o n (e.book.best o.side.opp)) e).env.journal =
        leftOver id e.env.journal := by
    intro id hne
    rw [leftOver_beforeOnFill_taker rfl]
    exact (congrArg _ (if_neg hne)).trans (sub_zero _)
  refine ⟨nested_visible.taken hb h.visible hq hfront, by rw [book_beforeOnFill]; exact h.located,
    h.distinct, fun o' ho' => ?_, fun o' ho' hid => ?_, fun o' ho' => ?_, fun id hid hF => ?_⟩
  · rw [book_beforeOnFill]
    rcases List.mem_cons.mp ho' with rfl | ho'
    · exact h.apart o List.mem_cons_self
    · exact h.apart o' (List.mem_cons_of_mem _ ho')
  · have hold := mem_activeOrders_beforeOnFill hid
    rcases List.mem_cons.mp ho' with rfl | ho'
    · exact h.limit o List.mem_cons_self hold
    · exact h.limit o' (List.mem_cons_of_mem _ ho') hold
  · rw [withdrawn_beforeOnFill]
    rcases List.mem_cons.mp ho' with rfl | ho'
    · -- the order and what is left of it lose the same
      obtain ⟨hquantity, hwith⟩ := h.inFlight o List.mem_cons_self
      refine ⟨?_, hwith⟩
      rw [leftOver_beforeOnFill_taker rfl]
      show o.quantity - min o.quantity n.order.quantity =
        leftOver o.orderId e.env.journal -
          if o.orderId = o.orderId then min o.quantity n.order.quantity else 0
      rw [if_pos rfl, ← hquantity]
    · rw [hleft _ (h.ne_of_mem ho')]
      exact h.inFlight o' (List.mem_cons_of_mem _ ho')
  · have hne : o.orderId ≠ id := fun heq => hF (heq ▸ List.mem_cons_self)
    rw [book_beforeOnFill, withdrawn_beforeOnFill, hleft id hne]
    exact h.entry id (mem_activeOrders_beforeOnFill hid) hF

/-- The fill is settled. -/
theorem Tallied.settled (h : Tallied (o :: F) e) (hb : Coherent e.book) (hq : 0 ≤ q)
    (hfront : (e.book.levels o.side.opp i).orders = n :: ns)
    (hmade : ∃ r ∈ reports e.env.journal, r.isMaker = true ∧ r.orderId = n.order.orderId) :
    Tallied (o :: F) (e.withBook (e.book.settleFront o.side.opp i n.order q)) := by
  have hn : n ∈ (e.book.levels o.side.opp i).orders := by rw [hfront]; exact List.mem_cons_self
  refine h.step (nested_visible.settled hb h.visible hq hfront hmade)
    (h.located.settleFront hb hfront) (hb.restsWithin_settleFront hfront hq) (fun id hid => hid)
    (fun id _ => rfl) (fun id => Iff.rfl) fun id hid => ?_
  -- the report has taken the entry of the order away
  refine hb.notResting_settleFront_iff hfront fun heq => ?_
  have hnone := (h.visible.resting _ _ n hn).lost (Or.inl hmade)
  rw [AList.lookup_eq_none, heq] at hnone
  exact hnone hid

end

/-- What is left of a limit order rests. -/
theorem Tallied.rested (h : Tallied (o :: F) e) (hb : Coherent e.book) (hq : 0 < o.quantity)
    (htype : o.type = .limit)
    (hidx : e.book.config.priceToIndex o.price < e.book.config.numLevels) :
    Tallied F (e.withBook (e.book.join o)) := by
  refine ⟨nested_visible.rested hb h.visible hq htype hidx,
    h.located.join fun _ => h.apart o List.mem_cons_self, (List.nodup_cons.mp h.distinct).2,
    fun o' ho' => ?_, fun o' ho' => h.limit o' (List.mem_cons_of_mem _ ho'),
    fun o' ho' => h.inFlight o' (List.mem_cons_of_mem _ ho'), fun id hid hF => ?_⟩
  · exact (notResting_join_iff (h.ne_of_mem ho')).mpr (h.apart o' (List.mem_cons_of_mem _ ho'))
  · by_cases hself : o.orderId = id
    · subst hself
      obtain ⟨hquantity, hwith⟩ := h.inFlight o List.mem_cons_self
      refine iff_of_false (not_notResting_join _ _) fun hor => hor.elim (fun hle => ?_) hwith
      rw [hquantity] at hq
      exact absurd hq (not_lt.mpr hle)
    · exact (notResting_join_iff hself).trans (h.entry_of_ne hid hself hF)

/-- Nothing of the order rests. -/
theorem Tallied.gone (h : Tallied (o :: F) e) (hnot : ¬ (0 < o.quantity ∧ o.type = .limit)) :
    Tallied F e := by
  refine ⟨nested_visible.gone h.visible hnot, h.located, (List.nodup_cons.mp h.distinct).2,
    fun o' ho' => h.apart o' (List.mem_cons_of_mem _ ho'),
    fun o' ho' => h.limit o' (List.mem_cons_of_mem _ ho'),
    fun o' ho' => h.inFlight o' (List.mem_cons_of_mem _ ho'), fun id hid hF => ?_⟩
  by_cases hself : o.orderId = id
  · -- an order with an entry is a limit order, so nothing is left of it
    subst hself
    have htype := h.limit o List.mem_cons_self hid
    have hquantity := (h.inFlight o List.mem_cons_self).1
    refine iff_of_true (h.apart o List.mem_cons_self) (Or.inl ?_)
    rw [← hquantity]
    exact not_lt.mp fun hq => hnot ⟨hq, htype⟩
  · exact h.entry_of_ne hid hself hF

/-- **The tally**, at any depth. -/
theorem nested_tallied : Nested (Tallied (σ := σ)) where
  congr hbook hrisk hj hc h :=
    h.step (nested_visible.congr hbook hrisk hj hc h.visible) (by rw [hbook]; exact h.located)
      (by rw [hbook]; exact RestsWithin.refl _) (fun id hid => hrisk ▸ hid)
      (fun id _ => by rw [hj]) (fun id => by rw [Withdrawn, hc]; rfl)
      (fun id _ => by rw [hbook])
  rejected h hfresh :=
    h.step (nested_visible.rejected h.visible hfresh) (by rw [book_rejected]; exact h.located)
      (by rw [book_rejected]; exact RestsWithin.refl _)
      (fun id hid => by rwa [activeOrders_rejected] at hid)
      (fun id hid => by rw [journal_rejected]; exact leftOver_append_submitted hid hfresh)
      (fun id => withdrawn_congr (l := []) (by rw [cancels_rejected, List.append_nil]) nofun)
      (fun id _ => by rw [book_rejected])
  cancelled hb h hc :=
    h.step (nested_visible.cancelled hb h.visible hc) (h.located.cancelOrder hb hc)
      (hb.thinned_cancelOrder hc).restsWithin (fun id hid => (AList.mem_erase.mp hid).2)
      (fun id _ => rfl) (fun id => withdrawn_untracked)
      (fun id hid => hb.notResting_cancelOrder_iff hc (AList.mem_erase.mp hid).1.symm)
  withdrawn hb h htype hc := h.withdrawn hb htype hc
  admitted hb h htype hfresh := h.admitted hb htype hfresh
  taken hb h hq hfront := h.taken hb hq hfront
  made hb h hfront :=
    h.step (nested_visible.made hb h.visible hfront) (by rw [book_beforeOnFill]; exact h.located)
      (by rw [book_beforeOnFill]; exact RestsWithin.refl _)
      (fun id hid => mem_activeOrders_beforeOnFill hid)
      (fun id _ => leftOver_beforeOnFill_maker rfl) (fun id => withdrawn_beforeOnFill)
      (fun id _ => by rw [book_beforeOnFill])
  settled hb h hq hfront hmade := h.settled hb hq hfront hmade
  left hb h :=
    h.step (nested_visible.left hb h.visible) (h.located.congr orderMap_leaveLevel
      fun _ => levels_leaveLevel) (restsWithin_of_levels fun _ => levels_leaveLevel)
      (fun id hid => hid) (fun id _ => rfl) (fun id => Iff.rfl)
      fun id _ => notResting_congr fun _ => levels_leaveLevel
  rested hb h hq htype hidx := h.rested hb hq htype hidx
  gone h hnot := h.gone hnot

section

variable {c : OrderBookConfig} {riskConfig : RiskConfig} {st : σ} {clock : ℕ → ℤ}
  {ops : List (EngineOp σ)} {fuel : ℕ}

theorem tallied_new : Tallied [] (new c riskConfig st clock) where
  visible := visible_new
  located := locatedOn_new c
  distinct := List.nodup_nil
  apart := nofun
  limit := nofun
  inFlight := nofun
  entry := nofun

theorem tallied_run (h : run S ops fuel (new c riskConfig st clock) = .ok e)
    (hfresh : Fresh e) : Tallied [] e :=
  (nested_tallied.run (coherent_new c) tallied_new h).2 hfresh

end

/-- Whoever is rejected for a self-trade would have traded with a resting order. -/
theorem Tallied.exists_of_check_eq_rejectSelfTrade {now : ℤ} (h : Tallied [] e) (hg : NoGhosts e)
    (hr : (e.env.risk.check now o).1 = .rejectSelfTrade) :
    ∃ i, ∃ n ∈ (e.book.levels o.side.opp i).orders,
      o.type = .market ∨ o.side.Crosses o.price n.order.price := by
  obtain ⟨id, entry, hl, hside, hcross⟩ := RiskGate.exists_of_check_eq_rejectSelfTrade hr
  have hid : id ∈ e.env.risk.activeOrders := AList.lookup_isSome.mp (by rw [hl]; rfl)
  obtain ⟨s, i, n, hn, rfl⟩ := hg id hid
  -- the order has its entry, so it has not lost it, and the entry says what the order says
  have hseen := h.visible.resting s i n hn
  have hkept : ¬ Lost n.order.orderId e := fun hlost => by
    rw [hseen.lost hlost] at hl
    cases hl
  rw [hseen.kept hkept, Option.some.injEq] at hl
  subst hl
  obtain rfl : s = o.side.opp := hside
  exact ⟨i, n, hn, hcross⟩

/-- **Ghosts.** Take any run of an engine in which no id is used twice, with any strategy, calls of
`on_fill` nested to any depth, and any prices. Every entry of the table is the entry of a resting
order, and whoever is rejected for a self-trade would trade with a resting order, if and only if of
every order that has its entry something was left by its own match, and no `Cancel` order has taken
it out of the book. -/
theorem noGhosts_iff (S : Strategy σ) (c : OrderBookConfig) (riskConfig : RiskConfig) (st : σ)
    (clock : ℕ → ℤ) (ops : List (EngineOp σ)) (fuel : ℕ) (e : TradingEngine σ)
    (h : run S ops fuel (new c riskConfig st clock) = .ok e)
    (hfresh : (usedIds e.env.journal).Nodup) :
    (NoGhosts e ∧ ∀ now o, (e.env.risk.check now o).1 = .rejectSelfTrade →
        ∃ i, ∃ n ∈ (e.book.levels o.side.opp i).orders,
          o.type = .market ∨ o.side.Crosses o.price n.order.price) ↔
      ∀ id ∈ e.env.risk.activeOrders, 0 < leftOver id e.env.journal ∧ ¬ Withdrawn id e := by
  have ht := tallied_run h hfresh
  have hentry : ∀ id ∈ e.env.risk.activeOrders, NotResting e.book id ↔
      ¬ (0 < leftOver id e.env.journal ∧ ¬ Withdrawn id e) := by
    intro id hid
    rw [ht.entry id hid List.not_mem_nil, not_and_or, not_not, not_lt]
  constructor
  · rintro ⟨hg, -⟩ id hid
    obtain ⟨s, i, n, hn, heq⟩ := hg id hid
    by_contra hgone
    exact (hentry id hid).mpr hgone s i n hn heq
  · intro hleft
    have hg : NoGhosts e := by
      intro id hid
      by_contra hghost
      push Not at hghost
      exact (hentry id hid).mp hghost (hleft id hid)
    exact ⟨hg, fun now o hr => ht.exists_of_check_eq_rejectSelfTrade hg hr⟩

/-- An order that meets another one and rests with what is left of it. -/
theorem noGhosts_iff_partialFill : ∃ e,
    run askBuyer [.submitOrder ⟨7, 1, 5, 4, .sell, .limit⟩,
      .submitOrder ⟨8, 1, 5, 10, .buy, .limit⟩] 3 askBuyerEngine = .ok e ∧
    ((NoGhosts e ∧ ∀ now o, (e.env.risk.check now o).1 = .rejectSelfTrade →
        ∃ i, ∃ n ∈ (e.book.levels o.side.opp i).orders,
          o.type = .market ∨ o.side.Crosses o.price n.order.price) ↔
      ∀ id ∈ e.env.risk.activeOrders, 0 < leftOver id e.env.journal ∧ ¬ Withdrawn id e) := by
  obtain ⟨e, he, hfresh⟩ : ∃ e, run askBuyer [.submitOrder ⟨7, 1, 5, 4, .sell, .limit⟩,
      .submitOrder ⟨8, 1, 5, 10, .buy, .limit⟩] 3 askBuyerEngine = .ok e ∧
      (usedIds e.env.journal).Nodup := by decide +kernel
  exact ⟨e, he, noGhosts_iff askBuyer _ _ _ _ _ 3 e he hfresh⟩

/-- **A `Cancel` order.** A bid is withdrawn by a `Cancel` order; its entry stays, and the next
offer at its price is rejected for a trade with it. -/
theorem not_noGhosts_cancel : ∃ e,
    run silent [.submitOrder ⟨1, 1, 5, 4, .buy, .limit⟩,
      .submitOrder ⟨1, 1, 5, 4, .buy, .cancel⟩] 3 silentEngine = .ok e ∧
    (usedIds e.env.journal).Nodup ∧ ¬ NoGhosts e ∧
    (e.env.risk.check e.now ⟨2, 1, 5, 4, .sell, .limit⟩).1 = .rejectSelfTrade := by
  obtain ⟨e, he, hfresh, hentry, hmap, hreject⟩ : ∃ e,
      run silent [.submitOrder ⟨1, 1, 5, 4, .buy, .limit⟩,
        .submitOrder ⟨1, 1, 5, 4, .buy, .cancel⟩] 3 silentEngine = .ok e ∧
      (usedIds e.env.journal).Nodup ∧ 1 ∈ e.env.risk.activeOrders ∧
      e.book.orderMap.lookup 1 = none ∧
      (e.env.risk.check e.now ⟨2, 1, 5, 4, .sell, .limit⟩).1 = .rejectSelfTrade := by
    decide +kernel
  refine ⟨e, he, hfresh, fun hg => ?_, hreject⟩
  obtain ⟨s, i, n, hn, hid⟩ := hg 1 hentry
  exact (tallied_run he hfresh).located.notResting trivial hmap s i n hn hid

end TradingEngine

end MiniTrader
