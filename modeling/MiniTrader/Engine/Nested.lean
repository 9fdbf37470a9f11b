import MiniTrader.Engine.Rules

/-!
# Calls inside calls

A strategy may submit from `on_fill`. The order is matched while another one is being matched, by a
`match` that works on the same queues, and its reports may lead to further orders. `StepRel` speaks
of such engines but not of their books. Here is a rule for both.

Several orders can be on their way through `match` at a time, so an assertion is about the engine
and the list of these orders, the innermost first. What makes the rule possible is that an outer
`match` finds the order at the front that it has been working on, or does not return: nobody gets
in front of an order that rests, and when it has left the queue the reference to it dangles. This
needs nothing but the coherence of the book, which every engine keeps, whatever the prices and ids.

## Main definitions

* `OrderBook.Leads` — a node that is at the front of its queue as long as it is there
* `Fresh` — no id has been used twice
* `Later` — what every engine keeps
* `Nested` — the assertions the rule is for, with what has to be shown of each step

## Main results

* `Nested.submitOrder`, `Nested.upholds`, `Nested.run` — the rule
* `coherent_run` — every book of every run is coherent
-/

namespace MiniTrader

open Fuelled

namespace OrderBook

variable {b b' : OrderBook} {s t : Side} {i j h id : ℕ} {n m : Node} {ns ms : List Node}

/-! ### The front of a queue -/

/-- The node with the address `h` has the id `id` and is at the front of its queue, as long as it is
there. -/
def Leads (b : OrderBook) (s : Side) (i h id : ℕ) : Prop :=
  h < b.nextNode ∧ ∀ n ∈ (b.levels s i).orders, n.handle = h →
    n.order.orderId = id ∧ (b.levels s i).orders.head? = some n

theorem Coherent.leads (hb : Coherent b) (hfront : (b.levels s i).orders = n :: ns) :
    Leads b s i n.handle n.order.orderId := by
  have hn : n ∈ (b.levels s i).orders := by rw [hfront]; exact List.mem_cons_self
  refine ⟨hb.fresh hn, fun m hm hh => ?_⟩
  obtain rfl : m = n := PriceLevel.eq_of_handle_eq (hb.nodup s i) hm hn hh
  exact ⟨rfl, by rw [hfront]; rfl⟩

theorem Leads.congr (hl : Leads b s i h id) (hnext : b'.nextNode = b.nextNode)
    (hlev : (b'.levels s i).orders = (b.levels s i).orders) : Leads b' s i h id := by
  rw [Leads, hnext, hlev]
  exact hl

/-- The reader of a node that leads finds it at the front. -/
theorem Leads.front {o : Order} (hl : Leads b s i h id) (hread : b.readResting s i h = .ok o) :
    ∃ n ns, (b.levels s i).orders = n :: ns ∧ n.handle = h ∧ n.order = o ∧ o.orderId = id := by
  obtain ⟨n, hn, hh, rfl⟩ := exists_of_readResting_eq_ok hread
  obtain ⟨hid, hhead⟩ := hl.2 n hn hh
  obtain ⟨ns, hns⟩ := List.head?_eq_some_iff.mp hhead
  exact ⟨n, ns, hns, hh, rfl, hid⟩

theorem Leads.unlink (hl : Leads b s i h id) (hm : m ∈ (b.levels t j).orders) :
    Leads (b.unlink t j m) s i h id := by
  by_cases hself : s = t ∧ i = j
  swap
  · exact hl.congr nextNode_unlink (by rw [levels_unlink_of_ne hself])
  obtain ⟨rfl, rfl⟩ := hself
  rw [Leads, nextNode_unlink, orders_unlink_self]
  refine ⟨hl.1, fun n hn hh => ?_⟩
  obtain ⟨hn, hne⟩ := List.mem_filter.mp hn
  obtain ⟨hid, hhead⟩ := hl.2 n hn hh
  obtain ⟨ns, hns⟩ := List.head?_eq_some_iff.mp hhead
  refine ⟨hid, ?_⟩
  rw [hns, @List.filter_cons_of_pos _ (fun k : Node => k.handle ≠ m.handle) n ns hne]
  rfl

theorem Leads.cancelOrder {id' : ℕ} {r : Bool} (hl : Leads b s i h id) (hb : Coherent b)
    (hc : b.cancelOrder id' = .ok (r, b')) : Leads b' s i h id := by
  rcases hb.exists_cancelOrder id' with ⟨-, hc'⟩ | ⟨t, j, m, hm, -, hc'⟩
  · rw [hc'] at hc
    cases hc
    exact hl
  · rw [hc'] at hc
    cases hc
    exact (hl.unlink hm).congr nextNode_refreshBest (by rw [levels_refreshBest])

theorem Leads.settleFront {q : ℤ} (hl : Leads b s i h id) (hb : Coherent b)
    (hfront : (b.levels t j).orders = m :: ms) : Leads (b.settleFront t j m.order q) s i h id := by
  have hm : m ∈ (b.levels t j).orders := by rw [hfront]; exact List.mem_cons_self
  rcases hb.settleFront_cases (q := q) hfront with ⟨-, hset⟩ | ⟨-, hset⟩
  · rw [hset]
    exact hl.unlink hm
  · rw [hset]
    have hnext : (b.reduceFront t j q).nextNode = b.nextNode := by simp [OrderBook.reduceFront]
    by_cases hself : s = t ∧ i = j
    swap
    · exact hl.congr hnext (by rw [levels_reduceFront_of_ne hself])
    obtain ⟨rfl, rfl⟩ := hself
    rw [Leads, hnext, levels_reduceFront_self hfront]
    refine ⟨hl.1, fun n hn hh => ?_⟩
    rcases List.mem_cons.mp hn with rfl | hn
    · exact ⟨(hl.2 m hm hh).1, rfl⟩
    · -- a node behind the front does not lead
      have hn' : n ∈ (b.levels s i).orders := by rw [hfront]; exact List.mem_cons_of_mem _ hn
      obtain ⟨-, hhead⟩ := hl.2 n hn' hh
      have hd := hb.nodup s i
      rw [hfront] at hhead hd
      cases hhead
      exact absurd (List.mem_map_of_mem hn) (List.nodup_cons.mp hd).1

theorem Leads.leaveLevel (hl : Leads b s i h id) : Leads (b.leaveLevel t j) s i h id :=
  hl.congr nextNode_leaveLevel (by rw [levels_leaveLevel])

theorem Leads.join {o : Order} (hl : Leads b s i h id) : Leads (b.join o) s i h id := by
  rw [Leads, nextNode_join, levels_join]
  refine ⟨hl.1.trans (Nat.lt_succ_self _), fun n hn hh => ?_⟩
  by_cases hself : s = o.side ∧ i = b.config.priceToIndex o.price
  swap
  · rw [levels_link_of_ne hself] at hn ⊢
    exact hl.2 n hn hh
  obtain ⟨rfl, rfl⟩ := hself
  rw [levels_link_self] at hn ⊢
  rcases List.mem_append.mp hn with hn | hn
  · obtain ⟨hid, hhead⟩ := hl.2 n hn hh
    obtain ⟨ns, hns⟩ := List.head?_eq_some_iff.mp hhead
    exact ⟨hid, by rw [PriceLevel.addOrder, hns]; rfl⟩
  · -- the new node has an address of its own
    rw [List.mem_singleton] at hn
    have := hl.1
    rw [hn] at hh
    simp only at hh
    omega

end OrderBook

namespace TradingEngine

open OrderBook

variable {σ α : Type} {S : Strategy σ} {e e' e'' : TradingEngine σ} {own : Bool} {o : Order}
  {cb : FillCallback (EngineEnv σ)} {fuel n : ℕ} {p : StrategyM σ α} {F : List Order}

/-! ### What every engine keeps -/

/-- No id has been used twice. -/
def Fresh (e : TradingEngine σ) : Prop := (usedIds e.env.journal).Nodup

/-- What a call that returns keeps, whatever it leads to: the book is coherent, what has been at the
front is at the front if it is there, and the journal forgets nothing. -/
structure Later (e e' : TradingEngine σ) : Prop where
  coherent : Coherent e'.book
  leads : ∀ {s i h id}, Leads e.book s i h id → Leads e'.book s i h id
  journal : e.env.journal <+: e'.env.journal

theorem Later.trans (h : Later e e') (h' : Later e' e'') : Later e e'' where
  coherent := h'.coherent
  leads hl := h'.leads (h.leads hl)
  journal := h.journal.trans h'.journal

theorem Later.fresh (h : Later e e') (hf : Fresh e') : Fresh e := by
  obtain ⟨j, hj⟩ := h.journal
  rw [Fresh, ← hj, usedIds_append] at hf
  exact hf.of_append_left

theorem Later.reports_subset (h : Later e e') : reports e.env.journal ⊆ reports e'.env.journal := by
  obtain ⟨j, hj⟩ := h.journal
  rw [← hj, reports_append]
  exact List.subset_append_left _ _

/-- A step that leaves the book alone. -/
theorem later_of_book_eq (hb : Coherent e.book) (hbook : e'.book = e.book)
    (hj : e.env.journal <+: e'.env.journal) : Later e e' where
  coherent := hbook ▸ hb
  leads hl := hbook ▸ hl
  journal := hj

theorem later_self (hb : Coherent e.book) : Later e e :=
  later_of_book_eq hb rfl (List.prefix_refl _)

theorem later_beforeOnFill (hb : Coherent e.book) (r : ExecutionReport) :
    Later e (beforeOnFill r e) :=
  later_of_book_eq hb (book_beforeOnFill r) (by
    rw [journal_beforeOnFill]
    exact List.prefix_append _ _)

theorem later_rejected (hb : Coherent e.book) : Later e (e.rejected own o) :=
  later_of_book_eq hb (book_rejected own o e) (by
    rw [journal_rejected]
    exact List.prefix_append _ _)

theorem later_admitted (hb : Coherent e.book) : Later e (e.admitted own o) :=
  later_of_book_eq hb (book_admitted own o e) (by
    rw [journal_admitted]
    exact List.prefix_append _ _)

theorem later_cancelOrder {id : ℕ} {r : Bool} {b : OrderBook} (hb : Coherent e.book)
    (hc : e.book.cancelOrder id = .ok (r, b)) : Later e (e.withBook b) where
  coherent := hb.cancelOrder hc
  leads hl := hl.cancelOrder hb hc
  journal := List.prefix_refl _

theorem later_settleFront {s : Side} {i : ℕ} {m : Node} {ms : List Node} {q : ℤ}
    (hb : Coherent e.book) (hfront : (e.book.levels s i).orders = m :: ms) :
    Later e (e.withBook (e.book.settleFront s i m.order q)) where
  coherent := hb.settleFront hfront
  leads hl := hl.settleFront hb hfront
  journal := List.prefix_refl _

theorem later_leaveLevel {s : Side} {i : ℕ} (hb : Coherent e.book) :
    Later e (e.withBook (e.book.leaveLevel s i)) where
  coherent := hb.leaveLevel
  leads hl := hl.leaveLevel
  journal := List.prefix_refl _

theorem later_join (hb : Coherent e.book) (hq : 0 < o.quantity)
    (hidx : e.book.config.priceToIndex o.price < e.book.config.numLevels) :
    Later e (e.withBook (e.book.join o)) where
  coherent := hb.join hq hidx
  leads hl := hl.join
  journal := List.prefix_refl _

/-- What an order that is handed in needs, if no id is used twice. -/
theorem Fresh.notMem {j : List EngineEvent} (hf : Fresh e)
    (hj : e.env.journal = j ++ [.submitted own o]) (htype : o.type ≠ .cancel) :
    o.orderId ∉ usedIds j := by
  rw [Fresh, hj, usedIds_append] at hf
  intro hin
  exact List.disjoint_of_nodup_append hf hin (by simp [usedIds, htype])

/-! ### The rule -/

/-- What has to be shown of an assertion about the engine and the orders in flight, for each of the
steps the engine is made of, if no id is used twice. The front of a queue is where the fill finds
it: before the report to the incoming order, before the report to the resting order, and before the
fill is settled. -/
structure Nested (I : List Order → TradingEngine σ → Prop) : Prop where
  congr : ∀ {F e e'}, e'.book = e.book → e'.env.risk = e.env.risk →
    e'.env.journal = e.env.journal → e'.env.cancels = e.env.cancels → I F e → I F e'
  rejected : ∀ {F own o e}, I F e → (o.type ≠ .cancel → o.orderId ∉ usedIds e.env.journal) →
    I F (rejected own o e)
  /-- `cancel_order`. -/
  cancelled : ∀ {F e id r b}, Coherent e.book → I F e → e.book.cancelOrder id = .ok (r, b) →
    I F ((untracked id e).withBook b)
  /-- A `Cancel` order that passes. -/
  withdrawn : ∀ {F own o e r b}, Coherent e.book → I F e → o.type = .cancel →
    e.book.cancelOrder o.orderId = .ok (r, b) → I F ((admitted own o e).withBook b)
  /-- Any other order that passes is in flight. -/
  admitted : ∀ {F own o e}, Coherent e.book → I F e → o.type ≠ .cancel →
    o.orderId ∉ usedIds e.env.journal → I (o :: F) (admitted own o e)
  /-- The report to the incoming order. -/
  taken : ∀ {F o e i n ns}, Coherent e.book → I (o :: F) e → 0 < o.quantity →
    (e.book.levels o.side.opp i).orders = n :: ns →
    I (Order.afterFill o n :: F)
      (beforeOnFill (takerReport o.side o n (e.book.best o.side.opp)) e)
  /-- The report to the resting order. -/
  made : ∀ {F o e i n ns q}, Coherent e.book → I (o :: F) e →
    (e.book.levels o.side.opp i).orders = n :: ns →
    I (o :: F) (beforeOnFill
      ⟨n.order.orderId, o.orderId, e.book.best o.side.opp, q, o.side.opp, true⟩ e)
  /-- The fill is settled with an order that has had its report. -/
  settled : ∀ {F o e i n ns q}, Coherent e.book → I (o :: F) e → 0 ≤ q →
    (e.book.levels o.side.opp i).orders = n :: ns →
    (∃ r ∈ reports e.env.journal, r.isMaker = true ∧ r.orderId = n.order.orderId) →
    I (o :: F) (e.withBook (e.book.settleFront o.side.opp i n.order q))
  left : ∀ {F e s i}, Coherent e.book → I F e → I F (e.withBook (e.book.leaveLevel s i))
  /-- What is left of a limit order rests. -/
  rested : ∀ {F o e}, Coherent e.book → I (o :: F) e → 0 < o.quantity → o.type = .limit →
    e.book.config.priceToIndex o.price < e.book.config.numLevels →
    I F (e.withBook (e.book.join o))
  /-- Nothing of the order rests. -/
  gone : ∀ {F o e}, I (o :: F) e → ¬ (0 < o.quantity ∧ o.type = .limit) → I F e

/-- The assertion holds across a callback, once the engine has taken the report in. -/
def Upholds (I : List Order → TradingEngine σ → Prop) (cb : FillCallback (EngineEnv σ)) : Prop :=
  ∀ {F r e e'}, Coherent e.book → (Fresh (beforeOnFill r e) → I F (beforeOnFill r e)) →
    cb r e = .ok e' → Later (beforeOnFill r e) e' ∧ (Fresh e' → I F e')

section

variable {I : List Order → TradingEngine σ → Prop}

/-- **A fill.** The two looks at the resting order find the front of the queue, and the same
order. -/
theorem Nested.fillFront {i : ℕ} {t t' : Order × TradingEngine σ} (hI : Nested I)
    (hcb : Upholds I cb) (hb : Coherent t.2.book) (ht : Fresh t.2 → I (t.1 :: F) t.2)
    (hq : 0 < t.1.quantity) (h : OrderBook.fillFront cb t.1.side i t = .ok t') :
    Later t.2 t'.2 ∧ (Fresh t'.2 → I (t'.1 :: F) t'.2) ∧ t'.1.side = t.1.side := by
  obtain ⟨o, e⟩ := t
  obtain ⟨n, ns, e₁, m₁, e₂, m₂, hfront, h₁, hm₁, h₂, hm₂, rfl⟩ := of_fillFront_eq_ok h
  dsimp only at hb ht hq hfront h₁ hm₁ h₂ hm₂ ⊢
  have hpos := hb.positive (show n ∈ (e.book.levels o.side.opp i).orders by simp [hfront])
  have hfill : 0 ≤ min o.quantity n.order.quantity := by omega
  -- the incoming order hears of the fill
  have hreport₁ := later_beforeOnFill hb (takerReport o.side o n (e.book.best o.side.opp))
  obtain ⟨hlater₁, hI₁⟩ :=
    hcb hb (fun hf => hI.taken hb (ht (hreport₁.fresh hf)) hq hfront) h₁
  have hlater₁ := hreport₁.trans hlater₁
  obtain ⟨n₁, ns₁, hfront₁, hh₁, rfl, -⟩ := (hlater₁.leads (hb.leads hfront)).front hm₁
  -- the resting order hears of it
  have hb₁ := hlater₁.coherent
  have hreport₂ := later_beforeOnFill hb₁ ⟨n₁.order.orderId, o.orderId, e₁.book.best o.side.opp,
    min o.quantity n.order.quantity, o.side.opp, true⟩
  obtain ⟨hlater₂, hI₂⟩ :=
    hcb hb₁ (fun hf => hI.made hb₁ (hI₁ (hreport₂.fresh hf)) hfront₁) h₂
  have hreported := hlater₂.reports_subset (show _ ∈ reports (beforeOnFill _ e₁).env.journal by
    rw [journal_beforeOnFill, reports_append]
    exact List.mem_append_right _ List.mem_cons_self)
  have hlater₂ := hreport₂.trans hlater₂
  have hleads := hlater₂.leads (hb₁.leads hfront₁)
  rw [hh₁] at hleads
  obtain ⟨n₂, ns₂, hfront₂, -, rfl, hid⟩ := hleads.front hm₂
  -- and the fill is settled
  have hb₂ := hlater₂.coherent
  exact ⟨(hlater₁.trans hlater₂).trans (later_settleFront hb₂ hfront₂),
    fun hf => hI.settled hb₂ (hI₂ hf) hfill hfront₂ ⟨_, hreported, rfl, hid.symm⟩, rfl⟩

theorem Nested.matchOrder {o' : Order} (hI : Nested I) (hcb : Upholds I cb)
    (hb : Coherent e.book) (he : Fresh e → I (o :: F) e)
    (h : OrderBook.matchOrder cb fuel (o, e) = .ok (o', e')) :
    Later e e' ∧ (Fresh e' → I (o' :: F) e') := by
  have hmatch := matchOrder_induction
    (I := fun t => Later e t.2 ∧ (Fresh t.2 → I (t.1 :: F) t.2) ∧ t.1.side = o.side) rfl
    (fun ⟨hlater, ht, hside⟩ hq hfill => ?_)
    (fun ⟨hlater, ht, hside⟩ => ⟨hlater.trans (later_leaveLevel hlater.coherent),
      fun hf => hI.left hlater.coherent (ht hf), hside⟩)
    ⟨later_self hb, he, rfl⟩ h
  · exact ⟨hmatch.1, hmatch.2.1⟩
  · rw [← hside] at hfill
    obtain ⟨hlater', ht', hside'⟩ := hI.fillFront hcb hlater.coherent ht hq hfill
    exact ⟨hlater.trans hlater', ht', hside'.trans hside⟩

/-- The order that was in flight rests, or is gone. -/
theorem Nested.addOrder (hI : Nested I) (hcb : Upholds I cb) (hb : Coherent e.book)
    (he : Fresh e → I (o :: F) e) (htype : o.type ≠ .cancel)
    (h : OrderBook.addOrder cb fuel o e = .ok e') : Later e e' ∧ (Fresh e' → I F e') := by
  obtain ⟨o', e₁, hm, hidx, rfl⟩ := of_addOrder_eq_ok htype h
  obtain ⟨hlater, he₁⟩ := hI.matchOrder hcb hb he hm
  have hb₁ := hlater.coherent
  rw [OrderBook.afterMatch]
  split
  · rename_i hrest
    exact ⟨hlater.trans (later_join hb₁ hrest.1 (hidx hrest)),
      fun hf => hI.rested hb₁ (he₁ hf) hrest.1 hrest.2 (hidx hrest)⟩
  · exact ⟨hlater, fun hf => hI.gone (he₁ hf) ‹_›⟩

theorem Nested.cancelOrder {id : ℕ} (hI : Nested I) (hb : Coherent e.book)
    (he : Fresh e → I F e) (h : e.cancelOrder id = .ok e') :
    Later e e' ∧ (Fresh e' → I F e') := by
  obtain ⟨r, b, hc, rfl⟩ := of_cancelOrder_eq_ok h
  have hlater : Later e (e.untracked id) := later_of_book_eq hb rfl (List.prefix_refl _)
  exact ⟨hlater.trans (later_cancelOrder hb hc), fun hf => hI.cancelled hb (he hf) hc⟩

/-- **Submitting**, at any depth. -/
theorem Nested.submitOrder (hI : Nested I) (hcb : Upholds I cb) (hb : Coherent e.book)
    (he : Fresh e → I F e) (h : e.submitOrder cb fuel own o = .ok e') :
    Later e e' ∧ (Fresh e' → I F e') := by
  by_cases hp : e.Passes o
  swap
  · rw [submitOrder_of_not_passes hp] at h
    cases h
    have hlater := @later_rejected _ _ own o hb
    exact ⟨hlater, fun hf => hI.rejected (he (hlater.fresh hf)) fun htype =>
      hf.notMem (journal_rejected own o e) htype⟩
  rw [submitOrder_of_passes hp] at h
  have hlater := @later_admitted _ _ own o hb
  by_cases htype : o.type = .cancel
  · rw [OrderBook.addOrder, if_pos htype, book_admitted] at h
    obtain ⟨⟨r, b⟩, hc, h⟩ := exists_of_bind_eq_ok h
    cases h
    have hc' : (e.admitted own o).book.cancelOrder o.orderId = .ok (r, b) := by
      rw [book_admitted]
      exact hc
    exact ⟨hlater.trans (later_cancelOrder hlater.coherent hc'),
      fun hf => hI.withdrawn hb (he (hlater.fresh hf)) htype hc⟩
  · obtain ⟨hlater', he'⟩ := hI.addOrder hcb hlater.coherent (fun hf => hI.admitted hb
      (he (hlater.fresh hf)) htype (hf.notMem (journal_admitted own o e) htype)) htype h
    exact ⟨hlater.trans hlater', he'⟩

theorem Nested.interpWith (hI : Nested I) (hcb : Upholds I cb) (hb : Coherent e.book)
    (he : Fresh e → I F e) {r : α × TradingEngine σ} (h : interp cb fuel p e = .ok r) :
    Later e r.2 ∧ (Fresh r.2 → I F r.2) := by
  induction p generalizing e with
  | pure a => cases h; exact ⟨later_self hb, he⟩
  | get k ih => exact ih _ hb he h
  | set s k ih =>
    have hset : Fresh (e.setStrategy s) → I F (e.setStrategy s) := fun hf =>
      @Nested.congr _ _ hI F e _ rfl rfl rfl rfl (he hf)
    obtain ⟨hlater, hr⟩ := @ih (e.setStrategy s) hb hset h
    exact ⟨⟨hlater.coherent, hlater.leads, hlater.journal⟩, hr⟩
  | submit order k ih =>
    obtain ⟨e₁, h₁, h⟩ := exists_of_bind_eq_ok h
    obtain ⟨hlater₁, he₁⟩ := hI.submitOrder hcb hb he h₁
    obtain ⟨hlater, hr⟩ := ih hlater₁.coherent he₁ h
    exact ⟨hlater₁.trans hlater, hr⟩
  | cancel id k ih =>
    obtain ⟨e₁, h₁, h⟩ := exists_of_bind_eq_ok h
    obtain ⟨hlater₁, he₁⟩ := hI.cancelOrder hb he h₁
    obtain ⟨hlater, hr⟩ := ih hlater₁.coherent he₁ h
    exact ⟨hlater₁.trans hlater, hr⟩
  | position i k ih => exact ih _ hb he h

/-- **The induction on the depth**: what every step of the engine re-establishes, every callback
re-establishes, however deep the calls of `on_fill` are nested. -/
theorem Nested.upholds (hI : Nested I) (S : Strategy σ) (n : ℕ) :
    Upholds I (fillCallback S n) := by
  induction n with
  | zero => intro F r e e' _ _ h; cases h
  | succ n ih =>
    intro F r e e' hb he h
    obtain ⟨t, ht, h⟩ := exists_of_bind_eq_ok h
    cases h
    exact hI.interpWith ih (by rwa [book_beforeOnFill]) he ht

/-- **The rule for runs.** Between top-level calls nothing is in flight. -/
theorem Nested.run (hI : Nested I) {ops : List (EngineOp σ)} (hb : Coherent e.book)
    (he : I [] e) (h : run S ops fuel e = .ok e') :
    Coherent e'.book ∧ (Fresh e' → I [] e') := by
  refine run_induction (C := Conditions.free)
    (I := fun e => Coherent e.book ∧ (Fresh e → I [] e)) (fun hq h => ⟨hq.book ▸ h.1, fun hf => ?_⟩)
    (fun h _ hret => ?_) (fun h _ hret => ?_) (fun h _ _ hret => ?_) ⟨hb, fun _ => he⟩
    (meets_free ops e) h
  · refine hI.congr hq.book hq.risk hq.journal hq.cancels (h.2 ?_)
    rwa [Fresh, hq.journal] at hf
  · obtain ⟨hlater, he'⟩ := hI.submitOrder (hI.upholds S _) h.1 h.2 hret
    exact ⟨hlater.coherent, he'⟩
  · obtain ⟨hlater, he'⟩ := hI.cancelOrder h.1 h.2 hret
    exact ⟨hlater.coherent, he'⟩
  · obtain ⟨hlater, he'⟩ := hI.interpWith (hI.upholds S _) h.1 h.2 hret
    exact ⟨hlater.coherent, he'⟩

end

theorem nested_true : Nested fun (_ : List Order) (_ : TradingEngine σ) => True where
  congr _ _ _ _ _ := trivial
  rejected _ _ := trivial
  cancelled _ _ _ := trivial
  withdrawn _ _ _ _ := trivial
  admitted _ _ _ _ := trivial
  taken _ _ _ _ := trivial
  made _ _ _ := trivial
  settled _ _ _ _ _ := trivial
  left _ _ := trivial
  rested _ _ _ _ _ := trivial
  gone _ _ := trivial

/-- **Every book is coherent**, in every run of every engine, with whatever strategy, ids and
prices. -/
theorem coherent_run {c : OrderBookConfig} {riskConfig : RiskConfig} {st : σ} {clock : ℕ → ℤ}
    {ops : List (EngineOp σ)}
    (h : TradingEngine.run S ops fuel (new c riskConfig st clock) = .ok e) : Coherent e.book :=
  (nested_true.run (coherent_new c) trivial h).1

end TradingEngine

end MiniTrader
