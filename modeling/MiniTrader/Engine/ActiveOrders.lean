import MiniTrader.Engine.Nested
import MiniTrader.Engine.Position
import MiniTrader.Engine.SelfTrade
import MiniTrader.OrderBook.Resting

/-!
# The table of active orders

The gate keeps a table of the orders that may rest, for the check on self-trades. The engine makes
an entry when it hands a limit order to the book, and takes it away on `cancel_order` and on the
first report to a resting order. The comment there speaks of an order that is completely filled, but
the report says nothing about that: after a partial fill the order rests without an entry. The same
happens when the strategy calls `cancel_order` for an order that is still being matched, which the
book does not know yet.

An entry is made once and not restored, so these are the only two ways. That is an equivalence for
every engine and every state of a run, and for calls of `on_fill` nested to any depth.

## Main definitions

* `Hit`, `CalledOff`, `Lost` — what takes an entry away
* `Known` — every id that occurs anywhere has been submitted
* `Seen`, `Visible` — an order that rests or is in flight has its entry unless it has lost it

## Main results

* `nested_visible` — the invariant, at any depth
* `tracked_iff` — when every resting order has its entry
-/

namespace MiniTrader

open Fuelled OrderBook

namespace TradingEngine

variable {σ : Type} {S : Strategy σ} {e e' : TradingEngine σ} {own : Bool} {o : Order}
  {id id' : ℕ} {s : Side} {p : ℤ} {F F' : List Order}

/-! ### What takes an entry away -/

/-- The order has had a report as the resting party. -/
def Hit (id : ℕ) (e : TradingEngine σ) : Prop :=
  ∃ r ∈ reports e.env.journal, r.isMaker = true ∧ r.orderId = id

/-- `cancel_order` has been called for the order since it was submitted. -/
def CalledOff (id : ℕ) (e : TradingEngine σ) : Prop :=
  ∃ c ∈ e.env.cancels, c.byOrder = false ∧ c.orderId = id ∧
    id ∈ usedIds (e.env.journal.take c.time)

/-- The entry of the order has been taken away. -/
def Lost (id : ℕ) (e : TradingEngine σ) : Prop := Hit id e ∨ CalledOff id e

/-- The cancels on record belong to the past. -/
def Timed (e : TradingEngine σ) : Prop := ∀ c ∈ e.env.cancels, c.time ≤ e.env.journal.length

theorem hit_beforeOnFill {r : ExecutionReport} :
    Hit id (beforeOnFill r e) ↔ Hit id e ∨ (r.isMaker = true ∧ r.orderId = id) := by
  rw [Hit, journal_beforeOnFill, reports_append]
  simp only [List.mem_append, or_and_right, exists_or, reports, List.mem_singleton,
    exists_eq_left]
  rfl

/-- Later events are of no account, and so are `Cancel` orders. -/
theorem calledOff_congr {l : List CancelEvent} (ht : Timed e)
    (hj : e.env.journal <+: e'.env.journal) (hc : e'.env.cancels = e.env.cancels ++ l)
    (hl : ∀ c ∈ l, c.byOrder = true) : CalledOff id e' ↔ CalledOff id e := by
  obtain ⟨j, hj⟩ := hj
  have htake : ∀ c ∈ e.env.cancels, e'.env.journal.take c.time = e.env.journal.take c.time :=
    fun c hc => by rw [← hj, List.take_append_of_le_length (ht c hc)]
  constructor
  · rintro ⟨c, hmem, hby, hid, hused⟩
    rw [hc, List.mem_append] at hmem
    rcases hmem with hmem | hmem
    · exact ⟨c, hmem, hby, hid, htake c hmem ▸ hused⟩
    · rw [hl c hmem] at hby
      cases hby
  · rintro ⟨c, hmem, hby, hid, hused⟩
    exact ⟨c, hc ▸ List.mem_append_left _ hmem, hby, hid, (htake c hmem).symm ▸ hused⟩

theorem calledOff_untracked : CalledOff id (untracked id' e) ↔
    CalledOff id e ∨ (id' = id ∧ id ∈ usedIds e.env.journal) := by
  rw [CalledOff, cancels_untracked]
  have hj : (untracked id' e).env.journal = e.env.journal := rfl
  simp only [List.mem_append, or_and_right, exists_or, List.mem_singleton, exists_eq_left, hj,
    List.take_length, true_and]
  rfl

theorem lost_congr (hj : e'.env.journal = e.env.journal) (hc : e'.env.cancels = e.env.cancels) :
    Lost id e' ↔ Lost id e := by
  unfold Lost Hit CalledOff
  rw [hj, hc]

theorem lost_submitted {l : List CancelEvent} (ht : Timed e)
    (hj : e'.env.journal = e.env.journal ++ [.submitted own o])
    (hc : e'.env.cancels = e.env.cancels ++ l) (hl : ∀ c ∈ l, c.byOrder = true) :
    Lost id e' ↔ Lost id e := by
  refine or_congr ?_ (calledOff_congr ht (by rw [hj]; exact List.prefix_append _ _) hc hl)
  rw [Hit, hj, reports_append]
  simp [reports, Hit]

theorem lost_beforeOnFill {r : ExecutionReport} (ht : Timed e) :
    Lost id (beforeOnFill r e) ↔ Lost id e ∨ (r.isMaker = true ∧ r.orderId = id) := by
  have hoff : CalledOff id (beforeOnFill r e) ↔ CalledOff id e :=
    calledOff_congr (l := []) ht (by rw [journal_beforeOnFill]; exact List.prefix_append _ _)
      (by rw [cancels_beforeOnFill, List.append_nil]) nofun
  rw [Lost, hit_beforeOnFill, hoff, or_right_comm]
  rfl

theorem lost_untracked : Lost id (untracked id' e) ↔
    Lost id e ∨ (id' = id ∧ id ∈ usedIds e.env.journal) := by
  rw [Lost, calledOff_untracked, ← or_assoc]
  rfl

/-! ### The ids that occur -/

/-- Every id that occurs in the engine has been submitted. -/
structure Known (F : List Order) (e : TradingEngine σ) : Prop where
  resting : ∀ s i, ∀ n ∈ (e.book.levels s i).orders, n.order.orderId ∈ usedIds e.env.journal
  inFlight : ∀ o ∈ F, o.orderId ∈ usedIds e.env.journal
  reported : ∀ r ∈ reports e.env.journal, r.orderId ∈ usedIds e.env.journal
  active : ∀ id ∈ e.env.risk.activeOrders, id ∈ usedIds e.env.journal
  removed : ∀ c ∈ e.env.cancels, c.removed = true → c.orderId ∈ usedIds e.env.journal
  timed : Timed e

theorem known_new (c : OrderBookConfig) (riskConfig : RiskConfig) (st : σ) (clock : ℕ → ℤ) :
    Known [] (new c riskConfig st clock) where
  resting s i n hn := by
    rw [show (new c riskConfig st clock).book = OrderBook.new c from rfl, orders_new] at hn
    cases hn
  inFlight := nofun
  reported := nofun
  active := nofun
  removed := nofun
  timed := nofun

/-- A step that brings no order into the book. -/
theorem Known.step (h : Known F e) (hj : e.env.journal <+: e'.env.journal)
    (hb : RestsWithin e'.book e.book) (hF : ∀ o ∈ F', o.orderId ∈ usedIds e'.env.journal)
    (hr : ∀ r ∈ reports e'.env.journal, r ∈ reports e.env.journal ∨
      r.orderId ∈ usedIds e'.env.journal)
    (ht : ∀ id ∈ e'.env.risk.activeOrders, id ∈ e.env.risk.activeOrders ∨
      id ∈ usedIds e'.env.journal)
    (hc : ∀ c ∈ e'.env.cancels, c ∈ e.env.cancels ∨ (c.time ≤ e'.env.journal.length ∧
      (c.removed = true → c.orderId ∈ usedIds e'.env.journal))) : Known F' e' := by
  have hused : usedIds e.env.journal ⊆ usedIds e'.env.journal := by
    obtain ⟨j, hj⟩ := hj
    rw [← hj]
    exact usedIds_subset_append _ _
  refine ⟨fun s i n hn => ?_, hF, fun r hr' => ?_, fun id hid => ?_, fun c hc' hrem => ?_,
    fun c hc' => ?_⟩
  · obtain ⟨m, hm, q, -, rfl⟩ := hb s i n hn
    exact hused (h.resting s i m hm)
  · rcases hr r hr' with hold | hnew
    · exact hused (h.reported r hold)
    · exact hnew
  · rcases ht id hid with hold | hnew
    · exact hused (h.active id hold)
    · exact hnew
  · rcases hc c hc' with hold | hnew
    · exact hused (h.removed c hold hrem)
    · exact hnew.2 hrem
  · rcases hc c hc' with hold | hnew
    · exact (h.timed c hold).trans hj.length_le
    · exact hnew.1

/-- An entry of the map is that of an order that has been submitted. -/
theorem Known.of_lookup (h : Known F e) (hb : Coherent e.book)
    (hl : (e.book.orderMap.lookup id).isSome = true) : id ∈ usedIds e.env.journal := by
  obtain ⟨loc, hloc⟩ := Option.isSome_iff_exists.mp hl
  obtain ⟨n, hn, -, rfl⟩ := hb.indexed hloc
  exact h.resting _ _ n hn

theorem mem_activeOrders_admitted (h : id ∈ (e.admitted own o).env.risk.activeOrders) :
    id ∈ e.env.risk.activeOrders ∨ (o.type = .limit ∧ id = o.orderId) := by
  rw [activeOrders_admitted] at h
  split at h
  · rcases AList.mem_insert _ |>.mp h with heq | hold
    · exact Or.inr ⟨‹_›, heq⟩
    · exact Or.inl hold
  · exact Or.inl h

theorem mem_activeOrders_beforeOnFill {r : ExecutionReport}
    (h : id ∈ (beforeOnFill r e).env.risk.activeOrders) : id ∈ e.env.risk.activeOrders := by
  rw [risk_beforeOnFill] at h
  split at h
  · have h := (AList.mem_erase.mp h).2
    rwa [RiskGate.activeOrders_onFill] at h
  · rwa [RiskGate.activeOrders_onFill] at h

/-- A report about an order that is known. -/
theorem Known.beforeOnFill {r : ExecutionReport} (h : Known F e)
    (hr : r.orderId ∈ usedIds e.env.journal)
    (hF : ∀ o ∈ F', o.orderId ∈ usedIds e.env.journal) :
    Known F' (TradingEngine.beforeOnFill r e) := by
  have hj := journal_beforeOnFill (e := e) r
  have hused : usedIds (TradingEngine.beforeOnFill r e).env.journal = usedIds e.env.journal := by
    simp [usedIds]
  refine h.step (by rw [hj]; exact List.prefix_append _ _)
    (by rw [book_beforeOnFill]; exact RestsWithin.refl _) (by rwa [hused]) (fun r' hr' => ?_)
    (fun id hid => Or.inl (mem_activeOrders_beforeOnFill hid))
    (fun c hc => Or.inl (by rwa [cancels_beforeOnFill] at hc))
  rw [hj, reports_append, List.mem_append] at hr'
  rcases hr' with hold | hnew
  · exact Or.inl hold
  · obtain rfl : r' = r := by simpa [reports] using hnew
    exact Or.inr (hused ▸ hr)

theorem Known.admitted (h : Known F e) (hb : Coherent e.book)
    (hF : ∀ o' ∈ F', o'.orderId ∈ usedIds (e.admitted own o).env.journal) :
    Known F' (TradingEngine.admitted own o e) := by
  have hj := journal_admitted own o e
  have hused : usedIds e.env.journal ⊆ usedIds (TradingEngine.admitted own o e).env.journal := by
    rw [hj]
    exact usedIds_subset_append _ _
  refine h.step (by rw [hj]; exact List.prefix_append _ _)
    (by rw [book_admitted]; exact RestsWithin.refl _) hF (fun r hr => Or.inl ?_)
    (fun id hid => ?_) (fun c hc => ?_)
  · simpa [hj, reports] using hr
  · rcases mem_activeOrders_admitted hid with hold | ⟨htype, rfl⟩
    · exact Or.inl hold
    · refine Or.inr ?_
      rw [hj]
      exact mem_usedIds_append_submitted _ _ (by rw [htype]; decide)
  · rw [cancels_admitted, List.mem_append] at hc
    rcases hc with hold | hnew
    · exact Or.inl hold
    · split at hnew
      · rw [List.mem_singleton] at hnew
        subst hnew
        exact Or.inr ⟨by simp, fun hrem => hused (h.of_lookup hb hrem)⟩
      · cases hnew

theorem nested_known : Nested (Known (σ := σ)) where
  congr hbook hrisk hj hc h := by
    refine h.step (by rw [hj]) (by rw [hbook]; exact RestsWithin.refl _) ?_
      (fun r hr => Or.inl (hj ▸ hr)) (fun id hid => Or.inl (hrisk ▸ hid))
      (fun c hc' => Or.inl (hc ▸ hc'))
    rw [hj]
    exact h.inFlight
  rejected := by
    intro F own o e h _
    have hj := journal_rejected own o e
    have hused : usedIds e.env.journal ⊆ usedIds (rejected own o e).env.journal := by
      rw [hj]
      exact usedIds_subset_append _ _
    exact h.step (by rw [hj]; exact List.prefix_append _ _)
      (by rw [book_rejected]; exact RestsWithin.refl _) (fun o ho => hused (h.inFlight o ho))
      (fun r hr => Or.inl (by simpa [hj, reports] using hr))
      (fun id hid => Or.inl (by rwa [activeOrders_rejected] at hid))
      (fun c hc => Or.inl (by rwa [cancels_rejected] at hc))
  cancelled := by
    intro F e id r b hb h hc
    refine h.step (List.prefix_refl _) (hb.thinned_cancelOrder hc).restsWithin h.inFlight
      (fun r hr => Or.inl hr) (fun id hid => Or.inl (AList.mem_erase.mp hid).2) (fun c hc => ?_)
    have hc : c ∈ (untracked id e).env.cancels := hc
    rw [cancels_untracked, List.mem_append, List.mem_singleton] at hc
    rcases hc with hold | rfl
    · exact Or.inl hold
    · exact Or.inr ⟨le_rfl, fun hrem => h.of_lookup hb hrem⟩
  withdrawn := by
    intro F own o e r b hb h htype hc
    have h' : Known F (admitted own o e) := h.admitted hb fun o' ho' => by
      rw [journal_admitted, usedIds_append]
      exact List.mem_append_left _ (h.inFlight o' ho')
    refine h'.step (List.prefix_refl _) ?_ h'.inFlight (fun r hr => Or.inl hr)
      (fun id hid => Or.inl hid) (fun c hc => Or.inl hc)
    rw [book_admitted]
    exact (hb.thinned_cancelOrder hc).restsWithin
  admitted := by
    intro F own o e hb h htype _
    refine h.admitted hb fun o' ho' => ?_
    rw [journal_admitted, usedIds_append]
    rcases List.mem_cons.mp ho' with rfl | ho'
    · exact List.mem_append_right _ (by simp [usedIds, htype])
    · exact List.mem_append_left _ (h.inFlight o' ho')
  taken := by
    intro F o e i n ns hb h hq hfront
    refine h.beforeOnFill (h.inFlight o List.mem_cons_self) fun o' ho' => ?_
    rcases List.mem_cons.mp ho' with rfl | ho'
    · exact h.inFlight o List.mem_cons_self
    · exact h.inFlight o' (List.mem_cons_of_mem _ ho')
  made := by
    intro F o e i n ns q hb h hfront
    refine h.beforeOnFill (h.resting o.side.opp i n ?_) h.inFlight
    rw [hfront]
    exact List.mem_cons_self
  settled := by
    intro F o e i n ns q hb h hq hfront _
    exact h.step (List.prefix_refl _) (hb.restsWithin_settleFront hfront hq) h.inFlight
      (fun r hr => Or.inl hr) (fun id hid => Or.inl hid) (fun c hc => Or.inl hc)
  left := by
    intro F e s i hb h
    exact h.step (List.prefix_refl _) (restsWithin_of_levels fun _ => levels_leaveLevel) h.inFlight
      (fun r hr => Or.inl hr) (fun id hid => Or.inl hid) (fun c hc => Or.inl hc)
  rested := by
    intro F o e hb h hq htype hidx
    refine ⟨fun s i n hn => ?_, fun o' ho' => h.inFlight o' (List.mem_cons_of_mem _ ho'),
      h.reported, h.active, h.removed, h.timed⟩
    rw [World.book_withBook, levels_join] at hn
    rcases mem_link.mp hn with hn | ⟨rfl, rfl, rfl⟩
    · exact h.resting s i n hn
    · exact h.inFlight o List.mem_cons_self
  gone h _ :=
    ⟨h.resting, fun o' ho' => h.inFlight o' (List.mem_cons_of_mem _ ho'), h.reported, h.active,
      h.removed, h.timed⟩

/-! ### The entries -/

/-- The order has its entry in the table unless it has lost it. -/
structure Seen (id : ℕ) (s : Side) (p : ℤ) (e : TradingEngine σ) : Prop where
  kept : ¬ Lost id e → e.env.risk.activeOrders.lookup id = some ⟨s, p⟩
  lost : Lost id e → e.env.risk.activeOrders.lookup id = none

theorem Seen.congr (h : Seen id s p e) (hl : Lost id e' ↔ Lost id e)
    (ht : e'.env.risk.activeOrders.lookup id = e.env.risk.activeOrders.lookup id) :
    Seen id s p e' := by
  constructor
  · rw [hl, ht]
    exact h.kept
  · rw [hl, ht]
    exact h.lost

theorem Seen.withBook (h : Seen id s p e) (b : OrderBook) : Seen id s p (e.withBook b) :=
  ⟨h.kept, h.lost⟩

/-- An entry that is taken away by something that takes it away. -/
theorem seen_of_lost (hl : Lost id e) (ht : e.env.risk.activeOrders.lookup id = none) :
    Seen id s p e :=
  ⟨fun h => absurd hl h, fun _ => ht⟩

theorem Seen.rejected (h : Seen id s p e) (ht : Timed e) :
    Seen id s p (rejected own o e) :=
  h.congr (lost_submitted (l := []) ht (journal_rejected own o e)
    (by rw [cancels_rejected, List.append_nil]) nofun) (by rw [activeOrders_rejected])

theorem lost_admitted (ht : Timed e) : Lost id (e.admitted own o) ↔ Lost id e := by
  refine lost_submitted ht (journal_admitted own o e) (cancels_admitted own o e) fun c hc => ?_
  split at hc
  · rw [List.mem_singleton] at hc
    rw [hc]
  · cases hc

/-- An order with another id. -/
theorem Seen.admitted (h : Seen id s p e) (ht : Timed e)
    (hne : o.type = .limit → id ≠ o.orderId) : Seen id s p (admitted own o e) := by
  refine h.congr (lost_admitted ht) ?_
  rw [activeOrders_admitted]
  split
  · exact AList.lookup_insert_ne (hne ‹_›)
  · rfl

/-- A limit order with a new id. -/
theorem seen_admitted (h : Known F e) (htype : o.type = .limit)
    (hfresh : o.orderId ∉ usedIds e.env.journal) :
    Seen o.orderId o.side o.price (e.admitted own o) := by
  constructor
  · intro _
    rw [activeOrders_admitted, if_pos htype, AList.lookup_insert]
  · intro hlost
    rw [lost_admitted h.timed] at hlost
    rcases hlost with ⟨r, hr, -, hid⟩ | ⟨c, -, -, -, hused⟩
    · exact absurd (hid ▸ h.reported r hr) hfresh
    · refine absurd ?_ hfresh
      rw [← List.take_append_drop c.time e.env.journal, usedIds_append]
      exact List.mem_append_left _ hused

theorem Seen.untracked (h : Seen id s p e) (hid : id ∈ usedIds e.env.journal) :
    Seen id s p (untracked id' e) := by
  by_cases heq : id' = id
  · subst heq
    exact seen_of_lost (lost_untracked.mpr (Or.inr ⟨rfl, hid⟩)) (AList.lookup_erase _ _)
  · refine h.congr ?_ (AList.lookup_erase_ne fun h => heq h.symm)
    rw [lost_untracked]
    exact or_iff_left fun h => heq h.1

theorem Seen.beforeOnFill {r : ExecutionReport} (h : Seen id s p e) (ht : Timed e) :
    Seen id s p (beforeOnFill r e) := by
  by_cases hmade : r.isMaker = true ∧ r.orderId = id
  · refine seen_of_lost ((lost_beforeOnFill ht).mpr (Or.inr hmade)) ?_
    rw [risk_beforeOnFill, if_pos hmade.1, ← hmade.2]
    exact AList.lookup_erase _ _
  · refine h.congr ?_ ?_
    · rw [lost_beforeOnFill ht]
      exact or_iff_left hmade
    · rw [risk_beforeOnFill]
      split
      · refine (AList.lookup_erase_ne fun heq => hmade ⟨‹_›, heq.symm⟩).trans ?_
        rw [RiskGate.activeOrders_onFill]
      · rw [RiskGate.activeOrders_onFill]

/-- Every order that rests or is in flight has its entry unless it has lost it. -/
structure Visible (F : List Order) (e : TradingEngine σ) : Prop where
  known : Known F e
  resting : ∀ s i, ∀ n ∈ (e.book.levels s i).orders, Seen n.order.orderId s n.order.price e
  inFlight : ∀ o ∈ F, o.type = .limit → Seen o.orderId o.side o.price e

/-- A step that brings no order into the book. -/
theorem Visible.step (h : Visible F e) (hk : Known F' e') (hb : RestsWithin e'.book e.book)
    (hF : ∀ o ∈ F', ∃ o' ∈ F, ∃ q, o = o'.withQuantity q)
    (hseen : ∀ {id s p}, id ∈ usedIds e.env.journal → Seen id s p e → Seen id s p e') :
    Visible F' e' where
  known := hk
  resting s i n hn := by
    obtain ⟨m, hm, q, -, rfl⟩ := hb s i n hn
    exact hseen (h.known.resting s i m hm) (h.resting s i m hm)
  inFlight o ho htype := by
    obtain ⟨o', ho', q, rfl⟩ := hF o ho
    exact hseen (h.known.inFlight o' ho') (h.inFlight o' ho' htype)

/-- The orders in flight stay as they are. -/
theorem exists_withQuantity_self (F : List Order) :
    ∀ o ∈ F, ∃ o' ∈ F, ∃ q, o = o'.withQuantity q :=
  fun o ho => ⟨o, ho, o.quantity, rfl⟩

/-- **The invariant**, at any depth. -/
theorem nested_visible : Nested (Visible (σ := σ)) where
  congr hbook hrisk hj hc h := by
    exact h.step (nested_known.congr hbook hrisk hj hc h.known)
      (by rw [hbook]; exact RestsWithin.refl _) (exists_withQuantity_self _)
      fun _ hs => hs.congr (lost_congr hj hc) (by rw [hrisk])
  rejected h hfresh :=
    h.step (nested_known.rejected h.known hfresh) (by rw [book_rejected]; exact RestsWithin.refl _)
      (exists_withQuantity_self _) fun _ hs => hs.rejected h.known.timed
  cancelled hb h hc :=
    h.step (nested_known.cancelled hb h.known hc) (hb.thinned_cancelOrder hc).restsWithin
      (exists_withQuantity_self _) fun hid hs => (hs.untracked hid).withBook _
  withdrawn hb h htype hc :=
    h.step (nested_known.withdrawn hb h.known htype hc) (hb.thinned_cancelOrder hc).restsWithin
      (exists_withQuantity_self _) fun _ hs =>
        (hs.admitted h.known.timed fun hl => by rw [htype] at hl; cases hl).withBook _
  admitted := by
    intro F own o e hb h htype hfresh
    have hseen : ∀ {id s p}, id ∈ usedIds e.env.journal → Seen id s p e →
        Seen id s p (admitted own o e) := fun hid hs =>
      hs.admitted h.known.timed fun _ heq => hfresh (heq ▸ hid)
    have hold : Visible F (admitted own o e) := h.step
      (h.known.admitted hb fun o' ho' => by
        rw [journal_admitted, usedIds_append]
        exact List.mem_append_left _ (h.known.inFlight o' ho'))
      (by rw [book_admitted]; exact RestsWithin.refl _) (exists_withQuantity_self _) hseen
    refine ⟨nested_known.admitted hb h.known htype hfresh, hold.resting, fun o' ho' hlimit => ?_⟩
    rcases List.mem_cons.mp ho' with rfl | ho'
    · exact seen_admitted h.known hlimit hfresh
    · exact hold.inFlight o' ho' hlimit
  taken := by
    intro F o e i n ns hb h hq hfront
    refine h.step (nested_known.taken hb h.known hq hfront)
      (by rw [book_beforeOnFill]; exact RestsWithin.refl _) (fun o' ho' => ?_)
      fun _ hs => hs.beforeOnFill h.known.timed
    rcases List.mem_cons.mp ho' with rfl | ho'
    · exact ⟨o, List.mem_cons_self, _, rfl⟩
    · exact ⟨o', List.mem_cons_of_mem _ ho', o'.quantity, rfl⟩
  made hb h hfront :=
    h.step (nested_known.made hb h.known hfront)
      (by rw [book_beforeOnFill]; exact RestsWithin.refl _) (exists_withQuantity_self _)
      fun _ hs => hs.beforeOnFill h.known.timed
  settled hb h hq hfront hmade :=
    h.step (nested_known.settled hb h.known hq hfront hmade) (hb.restsWithin_settleFront hfront hq)
      (exists_withQuantity_self _) fun _ hs => hs.withBook _
  left hb h :=
    h.step (nested_known.left hb h.known) (restsWithin_of_levels fun _ => levels_leaveLevel)
      (exists_withQuantity_self _) fun _ hs => hs.withBook _
  rested := by
    intro F o e hb h hq htype hidx
    refine ⟨nested_known.rested hb h.known hq htype hidx, fun s i n hn => ?_,
      fun o' ho' hlimit => ?_⟩
    · rw [World.book_withBook, levels_join] at hn
      rcases mem_link.mp hn with hn | ⟨rfl, rfl, rfl⟩
      · exact (h.resting s i n hn).withBook _
      · exact (h.inFlight o List.mem_cons_self htype).withBook _
    · exact (h.inFlight o' (List.mem_cons_of_mem _ ho') hlimit).withBook _
  gone h hnot :=
    ⟨nested_known.gone h.known hnot, h.resting,
      fun o' ho' => h.inFlight o' (List.mem_cons_of_mem _ ho')⟩

section

variable {c : OrderBookConfig} {riskConfig : RiskConfig} {st : σ} {clock : ℕ → ℤ}
  {ops : List (EngineOp σ)} {fuel : ℕ}

theorem visible_new : Visible [] (new c riskConfig st clock) where
  known := known_new c riskConfig st clock
  resting s i n hn := by
    rw [show (new c riskConfig st clock).book = OrderBook.new c from rfl, orders_new] at hn
    cases hn
  inFlight := nofun

/-- Every order that rests has its entry unless it has lost it. -/
theorem visible_run (h : run S ops fuel (new c riskConfig st clock) = .ok e)
    (hfresh : Fresh e) : Visible [] e :=
  (nested_visible.run (coherent_new c) visible_new h).2 hfresh

end

/-- **The table of active orders.** Take any run of an engine in which no id is used twice, with any
strategy, calls of `on_fill` nested to any depth, and any prices. Every resting order has an entry
with its side and its price if and only if none of them has had a report as the resting party, and
`cancel_order` has been called for none of them since it was submitted. -/
theorem tracked_iff (S : Strategy σ) (c : OrderBookConfig) (riskConfig : RiskConfig) (st : σ)
    (clock : ℕ → ℤ) (ops : List (EngineOp σ)) (fuel : ℕ) (e : TradingEngine σ)
    (h : run S ops fuel (new c riskConfig st clock) = .ok e)
    (hfresh : (usedIds e.env.journal).Nodup) :
    Tracked e.book e.env.risk ↔ ∀ s i, ∀ n ∈ (e.book.levels s i).orders,
      ¬ Hit n.order.orderId e ∧ ¬ CalledOff n.order.orderId e := by
  have hv := visible_run h hfresh
  constructor
  · intro ht s i n hn
    rw [← not_or]
    intro hlost
    have hnone := (hv.resting s i n hn).lost hlost
    rw [ht s i n hn] at hnone
    cases hnone
  · intro hkept s i n hn
    exact (hv.resting s i n hn).kept (not_or.mpr (hkept s i n hn))

/-- Two orders that do not meet. -/
theorem tracked_iff_apart : ∃ e,
    run askBuyer [.submitOrder ⟨7, 1, 5, 10, .sell, .limit⟩,
      .submitOrder ⟨8, 1, 4, 4, .buy, .limit⟩] 3 askBuyerEngine = .ok e ∧
    (Tracked e.book e.env.risk ↔ ∀ s i, ∀ n ∈ (e.book.levels s i).orders,
      ¬ Hit n.order.orderId e ∧ ¬ CalledOff n.order.orderId e) := by
  obtain ⟨e, he, hfresh⟩ : ∃ e, run askBuyer [.submitOrder ⟨7, 1, 5, 10, .sell, .limit⟩,
      .submitOrder ⟨8, 1, 4, 4, .buy, .limit⟩] 3 askBuyerEngine = .ok e ∧
      (usedIds e.env.journal).Nodup := by decide +kernel
  exact ⟨e, he, tracked_iff askBuyer _ _ _ _ _ 3 e he hfresh⟩

/-- **A partial fill.** Somebody buys four of the ten lots; the other six rest without an entry. -/
theorem not_tracked_partialFill : ∃ e,
    run askBuyer [.submitOrder ⟨7, 1, 5, 10, .sell, .limit⟩,
      .submitOrder ⟨8, 1, 5, 4, .buy, .limit⟩] 3 askBuyerEngine = .ok e ∧
    (usedIds e.env.journal).Nodup ∧ ¬ Tracked e.book e.env.risk := by
  obtain ⟨e, he, hfresh, hrests, hentry⟩ : ∃ e,
      run askBuyer [.submitOrder ⟨7, 1, 5, 10, .sell, .limit⟩,
        .submitOrder ⟨8, 1, 5, 4, .buy, .limit⟩] 3 askBuyerEngine = .ok e ∧
      (usedIds e.env.journal).Nodup ∧
      (e.book.levels .sell 4).orders = [⟨0, ⟨7, 1, 5, 6, .sell, .limit⟩⟩] ∧
      e.env.risk.activeOrders.lookup 7 = none := by decide +kernel
  refine ⟨e, he, hfresh, fun ht => ?_⟩
  have hsome := ht .sell 4 ⟨0, ⟨7, 1, 5, 6, .sell, .limit⟩⟩ (by
    rw [hrests]
    exact List.mem_cons_self)
  rw [hentry] at hsome
  cases hsome

end TradingEngine

end MiniTrader
