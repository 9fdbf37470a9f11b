import MiniTrader.Engine.Inventory
import MiniTrader.Engine.Orphans
import MiniTrader.OrderBook.Fills

/-!
# The cash of the strategy

`on_fill` keeps the cash of the strategy in `realized_pnl_`. It takes a report to be about one of
its own orders when the report names one of the two recorded ids. So a report is missed when it
comes before the id is recorded, which is when a quote trades on arrival, or after the id is
forgotten, which is when a quote is filled in more than one piece.

What counts is which resting orders an incoming order is matched with. They are the greedy fills of
what is in reach, and can be read off the book before the match. If the orders of the strategy
among them are recorded quotes, and its own orders are matched with nothing when they arrive, then
every report is counted.

The cancel of the other quote, in the middle of the match, does not change what the incoming order
is matched with: it takes place on the other side of the book.

## Main definitions

* `ownCash` — what the strategy's orders have paid and received
* `booked` — what `on_fill` makes of a report
* `Conditions.noticed` — every report of an own order finds its id recorded

## Main results

* `booked_eq` — when `on_fill` books a report correctly
* `Accounted.submit`, `Accounted.submitOwn` — orders from outside, and of the strategy
* `realizedPnl_eq_ownCash_iff` — the cash is right, as long as an `int64_t` holds it
-/

namespace MiniTrader

open Fuelled

namespace OrderBook

open Reference

variable {ε : Type} {c : OrderBookConfig} {cb : FillCallback ε} {side : Side}
  {G : Order → World ε → Prop} {H : ℕ → Order → World ε → Prop} {b b' : OrderBook} {i j : ℕ}
  {n m : Node} {price : ℤ}

/-- An assertion about the state of the callback, beside a rule that it may use. -/
theorem SparingRule.env (hr : SparingRule c cb side G H) {K : ε → Prop}
    (hfill : ∀ {idx o w n rest w₁ w₂}, Sound w.book → H idx o w → K w.env →
      (w.book.levels side.opp idx).orders = n :: rest → 0 < o.quantity →
      cb (takerReport side o n (w.book.best side.opp)) w = .ok w₁ →
      CancelsOthers n.order.orderId w.book w₁.book →
      cb (makerReport side o n (w₁.book.best side.opp)) w₁ = .ok w₂ → K w₂.env) :
    SparingRule c cb side (fun o w => G o w ∧ K w.env) (fun idx o w => H idx o w ∧ K w.env) where
  enter hb hc h hg := ⟨hr.enter hb hc h.1 hg, h.2⟩
  leave hb hc h hg := ⟨hr.leave hb hc h.1 hg, h.2⟩
  fill := by
    rintro idx o w n rest hb hc ⟨hH, hK⟩ hfront hq
    obtain ⟨w₁, w₂, h₁, hs₁, h₂, hs₂, hH'⟩ := hr.fill hb hc hH hfront hq
    have hK' : K w₂.env := hfill hb hH hK hfront hq h₁ hs₁ h₂
    exact ⟨w₁, w₂, h₁, hs₁, h₂, hs₂, hH', hK'⟩

/-! ### A match without fills -/

/-- While there is nothing to be filled, the callback is not called. -/
theorem sparingRule_idle (cb : FillCallback ε) (env : ε) :
    SparingRule c cb side
      (fun o w => w.env = env ∧
        greedy o.quantity ((w.book.matchQueue side o.price).map Node.order) = [])
      (fun idx o w => idx < c.numLevels ∧ w.env = env ∧
        greedy o.quantity ((w.book.queueFrom side o.price idx).map Node.order) = []) where
  enter := by
    rintro o w hb rfl ⟨henv, hnone⟩ hg
    rw [matchQueue_of_guard hg] at hnone
    exact ⟨hb.cached _ hg.2.1, henv, hnone⟩
  fill := by
    rintro idx o w n rest - - ⟨-, -, hnone⟩ hfront hq
    rw [queueFrom_eq_cons hfront, List.map_cons, greedy_cons hq] at hnone
    cases hnone
  leave := by
    rintro idx o w hb rfl ⟨hidx, henv, hnone⟩ hg
    refine ⟨henv, ?_⟩
    rw [World.book_withBook, greedy_leaveLevel hb.coherent hidx hg]
    exact hnone

theorem env_addOrder_of_idle {o : Order} {w w' : World ε} {fuel : ℕ} (hb : Sound w.book)
    (htype : o.type ≠ .cancel) (hnone : w.book.reachableFills o = [])
    (h : addOrder cb fuel o w = .ok w') : w'.env = w.env := by
  obtain ⟨-, q, v, rfl, -, ⟨henv, -⟩, -⟩ :=
    (sparingRule_idle cb w.env).of_addOrder_eq_ok hb rfl ⟨rfl, hnone⟩ htype h
  rw [env_afterMatch, henv]

/-! ### One side and the other -/

/-- A cancel of orders that rest on one side leaves the other side alone. -/
theorem Coherent.levels_cancelOrder_opp {id : ℕ} {r : Bool} {s : Side} (hb : Coherent b)
    (hside : ∀ t i, ∀ n ∈ (b.levels t i).orders, n.order.orderId = id → t = s)
    (h : b.cancelOrder id = .ok (r, b')) :
    b'.config = b.config ∧ b'.levels s.opp = b.levels s.opp := by
  rcases hb.exists_cancelOrder id with ⟨-, hc⟩ | ⟨t, i, n, hn, hid, hc⟩
  · rw [hc] at h
    cases h
    exact ⟨rfl, rfl⟩
  · obtain rfl := hside t i n hn hid
    rw [hc] at h
    cases h
    refine ⟨by rw [config_refreshBest, config_unlink], ?_⟩
    rw [levels_refreshBest]
    exact funext fun j => levels_unlink_of_ne fun hts => Side.opp_ne t hts.1

/-- The rest of the queue holds no other order with the id of the front order. -/
theorem LocatedOn.ne_of_mem_tail {P : ℕ → Prop} {rest : List Node} (hl : LocatedOn P b)
    (hb : Coherent b) (hfront : (b.levels side.opp i).orders = n :: rest)
    (hm : m ∈ rest ++ b.queueBeyond side price i) (hP : P n.order.orderId) :
    m.order.orderId ≠ n.order.orderId := by
  intro hid
  have hn : n ∈ (b.levels side.opp i).orders := by rw [hfront]; exact List.mem_cons_self
  rcases List.mem_append.mp hm with hm | hm
  · have hmem : m ∈ (b.levels side.opp i).orders := by
      rw [hfront]
      exact List.mem_cons_of_mem _ hm
    obtain ⟨-, -, rfl⟩ := hl.eq_of_orderId hb hmem hn hid hP
    have hnd := List.Nodup.of_map _ (hfront ▸ hb.nodup side.opp i)
    exact (List.nodup_cons.mp hnd).1 hm
  · obtain ⟨k, hk, hm⟩ := List.mem_flatMap.mp hm
    obtain ⟨-, rfl, -⟩ := hl.eq_of_orderId hb hm hn hid hP
    have hbeyond := List.mem_of_mem_filter ((List.takeWhile_prefix _).subset hk)
    exact farther_irrefl (farther_of_mem_beyond hbeyond)

/-- After the fill of its head a queue is filled from its tail. -/
theorem exists_mem_tail_of_greedy {q : ℤ} {tail : List Node} {f : Order × ℤ}
    (hf : f ∈ greedy (q - min q n.order.quantity)
      ((queueAfter (min q n.order.quantity) (n :: tail)).map Node.order)) :
    ∃ m ∈ tail, m.order = f.1 := by
  by_cases hle : n.order.quantity ≤ q
  · rw [min_eq_right hle, queueAfter, if_pos le_rfl] at hf
    exact List.mem_map.mp (mem_of_mem_greedy hf)
  · rw [min_eq_left (not_le.mp hle).le, greedy_of_not_pos (by omega)] at hf
    cases hf

end OrderBook

/-! ### Cash -/

namespace TradingEngine

/-- What a report adds to the cash of the owner of its order. -/
def cash (r : ExecutionReport) : ℤ :=
  match r.side with
  | .buy => -(r.price * r.filledQuantity)
  | .sell => r.price * r.filledQuantity

/-- What the orders of the strategy have received, minus what they have paid. -/
def ownCash (journal : List EngineEvent) : ℤ :=
  ((reports journal).map fun r => if r.orderId ∈ ownIds journal then cash r else 0).sum

variable {journal : List EngineEvent} {own : Bool} {o : Order}

theorem ownCash_append_filled (journal : List EngineEvent) (r : ExecutionReport) :
    ownCash (journal ++ [.filled r]) =
      ownCash journal + if r.orderId ∈ ownIds journal then cash r else 0 := by
  rw [ownCash, ownCash, ownIds_append_filled, reports_append]
  simp [reports]

/-- A submission changes nothing that has been reported, if the owner of no order changes. -/
theorem ownCash_append_submitted
    (h : ∀ r ∈ reports journal, r.orderId ∈ ownIds (journal ++ [.submitted own o]) ↔
      r.orderId ∈ ownIds journal) :
    ownCash (journal ++ [.submitted own o]) = ownCash journal := by
  rw [ownCash, ownCash, reports_append_submitted]
  refine congrArg List.sum (List.map_congr_left fun r hr => ?_)
  simp only [h r hr]

theorem zero_notMem_usedIds (h : 0 ∉ usedIds journal) (hid : o.type ≠ .cancel → o.orderId ≠ 0) :
    0 ∉ usedIds (journal ++ [.submitted own o]) := by
  rw [usedIds_append, List.mem_append, not_or]
  refine ⟨h, ?_⟩
  rw [usedIds]
  split
  · exact List.not_mem_nil
  · rename_i htype
    rw [usedIds, List.mem_singleton]
    exact fun h0 => hid htype h0.symm

end TradingEngine

namespace SpreadStrategy

open TradingEngine OrderBook
open Reference (greedy greedy_of_not_pos mem_of_mem_greedy)

variable {F : Type} {cfg : SpreadStrategyConfig F} {c : OrderBookConfig}
  {e e' : TradingEngine (SpreadState F)} {o : Order} {own : Bool} {fuel : ℕ}
  {cb : FillCallback (EngineEnv (SpreadState F))} {st st' : SpreadState F} {ids used : List ℕ}
  {b b' : OrderBook} {r : ExecutionReport}

/-! ### What `on_fill` counts -/

/-- What `on_fill` adds to `realized_pnl_`. -/
def booked (r : ExecutionReport) (st : SpreadState F) : ℤ :=
  if r.orderId = quoteId st .buy then -(r.price * r.filledQuantity)
  else if r.orderId = quoteId st .sell then r.price * r.filledQuantity
  else 0

/-- **A report is booked correctly** if its order is a recorded quote, or not the strategy's. -/
theorem booked_eq (hpaired : Paired st) (hrecorded : ∀ s, quoteId st s ≠ 0 → quoteId st s ∈ ids)
    (hne : r.orderId ≠ 0) (hown : r.orderId ∈ ids → r.orderId = quoteId st r.side) :
    booked r st = if r.orderId ∈ ids then cash r else 0 := by
  by_cases hid : r.orderId ∈ ids
  · have hquote := hown hid
    rw [if_pos hid, booked, cash]
    cases hside : r.side with
    | buy =>
      rw [hside] at hquote
      exact if_pos hquote
    | sell =>
      rw [hside] at hquote
      have hbuy : r.orderId ≠ quoteId st .buy := by
        rw [hquote]
        exact fun h => (hpaired .sell (hquote ▸ hne)).2 h.symm
      rw [if_neg hbuy, if_pos hquote]
  · have hother : ∀ s, r.orderId ≠ quoteId st s := fun s h => hid (h ▸ hrecorded s (h ▸ hne))
    rw [if_neg hid, booked, if_neg (hother .buy), if_neg (hother .sell)]

theorem booked_congr (h : ∀ s, quoteId st' s = quoteId st s) : booked r st' = booked r st := by
  rw [booked, booked, h, h]

theorem strategy_cancelOrder {id : ℕ} (h : TradingEngine.cancelOrder id e = .ok e') :
    e'.env.strategy = e.env.strategy ∧ e'.env.journal = e.env.journal := by
  obtain ⟨ok, b, -, rfl⟩ := of_cancelOrder_eq_ok h
  exact ⟨rfl, rfl⟩

/-- Pulling a quote is about orders, not about cash. -/
theorem of_interp_pull {α : Type} (id : ℕ) (g : SpreadState F → SpreadState F)
    (k : Unit → StrategyM (SpreadState F) α) {t : α × TradingEngine (SpreadState F)}
    (hg : ∀ st, (g st).realizedPnl = st.realizedPnl)
    (h : interp cb fuel
      (if id ≠ 0 then .cancelOrder id >>= fun _ => .modify g >>= k else k ()) e = .ok t) :
    ∃ e', interp cb fuel (k ()) e' = .ok t ∧
      e'.env.strategy.realizedPnl = e.env.strategy.realizedPnl ∧
      e'.env.journal = e.env.journal := by
  split at h
  · rw [interp_bind, interp_cancelOrder] at h
    obtain ⟨t₁, h₁, h⟩ := exists_of_bind_eq_ok h
    obtain ⟨e₁, hc, h₁⟩ := exists_of_bind_eq_ok h₁
    cases h₁
    rw [interp_bind, interp_modify, ok_bind] at h
    obtain ⟨hst, hj⟩ := strategy_cancelOrder hc
    exact ⟨_, h, by rw [strategy_setStrategy, hg, hst], hj⟩
  · exact ⟨e, h, rfl, rfl⟩

/-- **The program of `on_fill`** books the report. -/
theorem realizedPnl_interp_onFill {t : Unit × TradingEngine (SpreadState F)}
    (hpnl : IsInt64 e.env.strategy.realizedPnl) (h : interp cb fuel (onFill r) e = .ok t) :
    t.2.env.strategy.realizedPnl =
        wrap64 (e.env.strategy.realizedPnl + booked r e.env.strategy) ∧
      t.2.env.journal = e.env.journal := by
  rw [onFill, interp_bind, interp_modify, ok_bind, interp_bind, interp_state, ok_bind] at h
  split at h
  · rename_i hbid
    rw [booked, if_pos (show r.orderId = quoteId e.env.strategy .buy from hbid), ← sub_eq_add_neg]
    obtain ⟨e₁, h, hpnl₁, hj⟩ := of_interp_pull e.env.strategy.askOrderId
      (fun s => { s with askOrderId := 0 })
      (fun _ => .modify fun s =>
        { s with
          bidOrderId := 0
          realizedPnl := wrap64 (s.realizedPnl - r.price * r.filledQuantity) })
      (fun _ => rfl) h
    rw [interp_modify] at h
    cases h
    exact ⟨by rw [strategy_setStrategy, hpnl₁]; rfl, hj⟩
  rename_i hbid
  rw [booked, if_neg (show r.orderId ≠ quoteId e.env.strategy .buy from hbid)]
  split at h
  · rename_i hask
    rw [if_pos (show r.orderId = quoteId e.env.strategy .sell from hask)]
    obtain ⟨e₁, h, hpnl₁, hj⟩ := of_interp_pull e.env.strategy.bidOrderId
      (fun s => { s with bidOrderId := 0 })
      (fun _ => .modify fun s =>
        { s with
          askOrderId := 0
          realizedPnl := wrap64 (s.realizedPnl + r.price * r.filledQuantity) })
      (fun _ => rfl) h
    rw [interp_modify] at h
    cases h
    exact ⟨by rw [strategy_setStrategy, hpnl₁]; rfl, hj⟩
  · rename_i hask
    rw [if_neg (show r.orderId ≠ quoteId e.env.strategy .sell from hask), add_zero]
    rw [interp_pure] at h
    cases h
    exact ⟨(wrap64_eq_self_iff.mpr hpnl).symm, rfl⟩

/-- `cancel_resting_quotes` only pulls quotes. -/
theorem realizedPnl_interp_cancelRestingQuotes {t : Unit × TradingEngine (SpreadState F)}
    (h : interp cb fuel cancelRestingQuotes e = .ok t) :
    t.2.env.strategy.realizedPnl = e.env.strategy.realizedPnl := by
  rw [cancelRestingQuotes, interp_bind, interp_state, ok_bind] at h
  obtain ⟨e₁, h, hpnl₁, -⟩ := of_interp_pull e.env.strategy.bidOrderId
    (fun s => { s with bidOrderId := 0 }) (fun _ => do
      let s ← .state
      if s.askOrderId ≠ 0 then do
        .cancelOrder s.askOrderId
        .modify fun s => { s with askOrderId := 0 }) (fun _ => rfl) h
  rw [interp_bind, interp_state, ok_bind] at h
  obtain ⟨e₂, h, hpnl₂, -⟩ := of_interp_pull e₁.env.strategy.askOrderId
    (fun s => { s with askOrderId := 0 }) pure (fun _ => rfl) h
  rw [interp_pure] at h
  cases h
  rw [hpnl₂, hpnl₁]

/-! ### The recorded quotes and the other orders of the strategy -/

/-- The recorded quotes rest on their sides. -/
def Sided (st : SpreadState F) (b : OrderBook) : Prop :=
  ∀ s i, ∀ n ∈ (b.levels s i).orders, ∀ t, quoteId st t ≠ 0 → n.order.orderId = quoteId st t → s = t

theorem Sided.within (h : Sided st b) (hw : RestsWithin b' b) : Sided st b' := by
  intro s i n hn
  obtain ⟨m, hm, q, -, rfl⟩ := hw s i n hn
  exact h s i m hm

theorem Sided.congr (h : Sided st b) (hids : ∀ s, quoteId st' s = quoteId st s) : Sided st' b := by
  intro s i n hn t
  rw [hids]
  exact h s i n hn t

theorem Sided.join (h : Sided st b) (hid : ∀ t, quoteId st t ≠ 0 → o.orderId ≠ quoteId st t) :
    Sided st (b.join o) := by
  intro s i n hn t ht hnt
  rw [levels_join] at hn
  rcases mem_link.mp hn with hn | ⟨rfl, rfl, rfl⟩
  · exact h s i n hn t ht hnt
  · exact absurd hnt (hid t ht)

theorem Sided.of_noQuotes (h : ∀ s, quoteId st s = 0) : Sided st b :=
  fun _ _ _ _ t ht => absurd (h t) ht

/-- Of the orders `ids`, those that `q` comes to are recorded quotes. -/
def Noticed (ids : List ℕ) (st : SpreadState F) (side : Side) (ns : List Node) (q : ℤ) : Prop :=
  ∀ f ∈ greedy q (ns.map Node.order), f.1.orderId ∈ ids → f.1.orderId = quoteId st side.opp

/-- What holds of the book while an order from outside is matched, which has still to meet the
queue `ns`. -/
structure Noticing (ids used : List ℕ) (side : Side) (ns : List Node) (o : Order)
    (e : TradingEngine (SpreadState F)) : Prop where
  taker : o.orderId ∈ used ∧ o.orderId ∉ ids
  restingIn : RestingIn used e.book
  located : LocatedOn (· ∈ ids) e.book
  sided : Sided e.env.strategy e.book
  paired : Paired e.env.strategy
  recorded : ∀ s, quoteId e.env.strategy s ≠ 0 → quoteId e.env.strategy s ∈ ids
  noticed : Noticed ids e.env.strategy side ns o.quantity

/-- What holds of the strategy and of the journal. -/
structure Booked (ids used : List ℕ) (env : EngineEnv (SpreadState F)) : Prop where
  ownIds_eq : ownIds env.journal = ids
  reported : ∀ r ∈ reports env.journal, r.orderId ∈ used
  realizedPnl_eq : env.strategy.realizedPnl = wrap64 (ownCash env.journal)

theorem Booked.isInt64 {env : EngineEnv (SpreadState F)} (h : Booked ids used env) :
    IsInt64 env.strategy.realizedPnl := by
  rw [h.realizedPnl_eq]
  exact isInt64_wrap64 _

/-- One more report, which is booked. -/
theorem Booked.report {env env' : EngineEnv (SpreadState F)} (h : Booked ids used env)
    (hused : r.orderId ∈ used) (hjournal : env'.journal = env.journal ++ [.filled r])
    (hpnl : env'.strategy.realizedPnl =
      wrap64 (env.strategy.realizedPnl + if r.orderId ∈ ids then cash r else 0)) :
    Booked ids used env' := by
  refine ⟨?_, fun r' hr' => ?_, ?_⟩
  · rw [hjournal, ownIds_append_filled, h.ownIds_eq]
  · rw [hjournal, reports_append] at hr'
    rcases List.mem_append.mp hr' with hr' | hr'
    · exact h.reported r' hr'
    · rw [reports, reports, List.mem_singleton] at hr'
      rw [hr']
      exact hused
  · rw [hpnl, hjournal, ownCash_append_filled, h.realizedPnl_eq, h.ownIds_eq, wrap64_wrap64_add]

/-- The strategy cancels nothing that is in the queue: the other quote rests on the side of the
incoming order. -/
theorem Noticing.filled {side : Side} {ns : List Node} {o : Order} {n : Node} {idx : ℕ}
    (h : Noticing ids used side ns o e) (hb : Coherent e.book)
    (hn : n ∈ (e.book.levels side.opp idx).orders) (hfill : Filled n e e') (price : ℤ) :
    RestsWithin e'.book e.book ∧ LocatedOn (· ∈ ids) e'.book ∧
      e'.book.queueFrom side price idx = e.book.queueFrom side price idx := by
  cases hfill with
  | other _ hbook _ =>
    rw [hbook]
    exact ⟨RestsWithin.refl _, h.located, rfl⟩
  | quote s hns hs hc _ =>
    obtain ⟨ok, hc⟩ := hc
    obtain rfl := h.sided _ _ n hn s hs hns
    obtain ⟨hconfig, hlevels⟩ := hb.levels_cancelOrder_opp (s := side.opp.opp)
      (fun t i m hm he => h.sided t i m hm _ (h.paired _ hs).1 he) hc
    rw [Side.opp_opp] at hlevels
    exact ⟨(restsWithin_cancelOrder hb hc).1, h.located.cancelOrder hb hc,
      queueFrom_congr hconfig hlevels⟩

variable [DoubleOps F] {side : Side}

/-- The callback of the book books the report. -/
theorem realizedPnl_fillCallback (hpnl : IsInt64 e.env.strategy.realizedPnl)
    (h : fillCallback (strategy cfg) 1 r e = .ok e') :
    e'.env.strategy.realizedPnl =
        wrap64 (e.env.strategy.realizedPnl + booked r e.env.strategy) ∧
      e'.env.journal = e.env.journal ++ [.filled r] := by
  obtain ⟨t, ht, h⟩ := exists_of_bind_eq_ok h
  cases h
  obtain ⟨hpnl', hj⟩ := realizedPnl_interp_onFill (by rw [strategy_beforeOnFill]; exact hpnl) ht
  rw [strategy_beforeOnFill] at hpnl'
  exact ⟨hpnl', hj.trans (journal_beforeOnFill r)⟩

/-- **The queue** while an order from outside is matched. -/
theorem sparingRule_noticing (ids used : List ℕ) :
    SparingRule c (fillCallback (strategy cfg) 1) side
      (fun o e => Watching o.orderId e.env.strategy ∧
        Noticing ids used side (e.book.matchQueue side o.price) o e)
      (fun idx o e => Watching o.orderId e.env.strategy ∧ idx < c.numLevels ∧
        Noticing ids used side (e.book.queueFrom side o.price idx) o e) := by
  refine sparingRule_filled ?_ ?_ ?_
  · intro o e hb hc h hg
    rw [matchQueue_of_guard hg] at h
    exact ⟨hc ▸ hb.cached _ hg.2.1, h⟩
  · rintro idx o n rest rest' e e' hb - ⟨hidx, h⟩ hfront hq hfill hb' hfront'
    have hn : n ∈ (e.book.levels side.opp idx).orders := by rw [hfront]; exact List.mem_cons_self
    have hpos := hb.coherent.positive hn
    generalize htail : rest ++ e.book.queueBeyond side o.price idx = tail
    have hqueue : e.book.queueFrom side o.price idx = n :: tail :=
      htail ▸ queueFrom_eq_cons hfront
    have hnoticed := h.noticed
    rw [hqueue, Noticed, greedy_map_queueAfter hq] at hnoticed
    obtain ⟨hw, hl, hqueue'⟩ := h.filled hb.coherent hn hfill o.price
    have hw' := (hb'.coherent.restsWithin_settleFront (q := min o.quantity n.order.quantity) hfront'
      (by omega)).trans hw
    have hafter : (e'.book.settleFront side.opp idx n.order
        (min o.quantity n.order.quantity)).queueFrom side (Order.afterFill o n).price idx =
          queueAfter (min o.quantity n.order.quantity) (n :: tail) :=
      (queueFrom_settleFront hb'.coherent hfront').trans (by rw [← hqueue, ← hqueue']; rfl)
    rw [World.book_withBook, hafter]
    cases hfill with
    | other _ _ hids =>
      refine ⟨hidx, h.taker, h.restingIn.within hw', hl.settleFront hb'.coherent hfront',
        (h.sided.within hw').congr hids.quotes, h.paired.congr hids.quotes, fun s hs => ?_,
        fun f hf hid => ?_⟩
      · rw [World.env_withBook, hids.quotes] at hs ⊢
        exact h.recorded s hs
      · rw [World.env_withBook, hids.quotes]
        exact hnoticed f (List.mem_cons_of_mem _ hf) hid
    | quote s hns hs _ hids =>
      have hzero : ∀ t, quoteId e'.env.strategy t = 0 := hids.quotes
      refine ⟨hidx, h.taker, h.restingIn.within hw', hl.settleFront hb'.coherent hfront',
        Sided.of_noQuotes hzero, fun t ht => absurd (hzero t) ht, fun t ht => absurd (hzero t) ht,
        fun f hf hid => ?_⟩
      -- the quote is the only order of the strategy that is met
      obtain rfl := h.sided _ _ n hn s hs hns
      obtain ⟨m, hm, hmf⟩ := exists_mem_tail_of_greedy hf
      have hne := h.located.ne_of_mem_tail hb.coherent hfront (htail ▸ hm)
        (hns ▸ h.recorded _ hs)
      rw [hmf] at hne
      exact absurd ((hnoticed f (List.mem_cons_of_mem _ hf) hid).trans hns.symm) hne
  · rintro idx o e hb rfl ⟨hidx, h⟩ hg
    refine ⟨h.taker, h.restingIn.within (restsWithin_of_levels fun _ => levels_leaveLevel),
      h.located.congr orderMap_leaveLevel fun _ => levels_leaveLevel,
      h.sided.within (restsWithin_of_levels fun _ => levels_leaveLevel), h.paired, h.recorded, ?_⟩
    rw [World.book_withBook, Noticed, greedy_leaveLevel hb.coherent hidx hg]
    exact h.noticed

/-- **Both reports** of a fill are booked. -/
theorem sparingRule_booked {ids used : List ℕ} (h0 : 0 ∉ used) :
    SparingRule c (fillCallback (strategy cfg) 1) side
      (fun o e => (Watching o.orderId e.env.strategy ∧
        Noticing ids used side (e.book.matchQueue side o.price) o e) ∧ Booked ids used e.env)
      (fun idx o e => (Watching o.orderId e.env.strategy ∧ idx < c.numLevels ∧
        Noticing ids used side (e.book.queueFrom side o.price idx) o e) ∧
          Booked ids used e.env) := by
  refine (sparingRule_noticing ids used).env ?_
  rintro idx o e n rest e₁ e₂ hb ⟨hw, -, h⟩ hbooked hfront hq h₁ - h₂
  have hn : n ∈ (e.book.levels side.opp idx).orders := by rw [hfront]; exact List.mem_cons_self
  have hnused := h.restingIn _ _ n hn
  have hnoticed := h.noticed
  rw [queueFrom_eq_cons hfront, Noticed, greedy_map_queueAfter hq] at hnoticed
  -- the report to the incoming order
  obtain ⟨e₁', h₁', hears⟩ := exists_hears cfg hb.coherent
    (takerReport side o n (e.book.best side.opp))
  rw [h₁] at h₁'
  cases h₁'
  obtain ⟨-, hids⟩ := hears.of_watching hw
  obtain ⟨hpnl₁, hj₁⟩ := realizedPnl_fillCallback hbooked.isInt64 h₁
  rw [booked_eq h.paired h.recorded (fun he => h0 (he ▸ h.taker.1))
    (fun hid => absurd hid h.taker.2)] at hpnl₁
  have hbooked₁ := hbooked.report h.taker.1 hj₁ hpnl₁
  -- the report to the resting one
  obtain ⟨hpnl₂, hj₂⟩ := realizedPnl_fillCallback hbooked₁.isInt64 h₂
  rw [booked_congr hids.quotes, booked_eq h.paired h.recorded (fun he => h0 (he ▸ hnused))
    (fun hid => hnoticed _ List.mem_cons_self hid)] at hpnl₂
  exact hbooked₁.report hnused hj₂ hpnl₂

/-! ### Orders from outside -/

/-- What holds after every call. -/
structure Accounted (e : TradingEngine (SpreadState F)) : Prop where
  sound : Sound e.book
  restingIn : RestingIn (usedIds e.env.journal) e.book
  located : LocatedOn (· ∈ ownIds e.env.journal) e.book
  sided : Sided e.env.strategy e.book
  paired : Paired e.env.strategy
  recorded : ∀ s, quoteId e.env.strategy s ≠ 0 → quoteId e.env.strategy s ∈ ownIds e.env.journal
  zero : 0 ∉ usedIds e.env.journal
  booked : Booked (ownIds e.env.journal) (usedIds e.env.journal) e.env

omit [DoubleOps F] in
theorem Accounted.congr (h : Accounted e) (hbook : e'.book = e.book)
    (hjournal : e'.env.journal = e.env.journal)
    (hids : ∀ s, quoteId e'.env.strategy s = quoteId e.env.strategy s)
    (hpnl : e'.env.strategy.realizedPnl = e.env.strategy.realizedPnl) : Accounted e' := by
  constructor
  case sound => rw [hbook]; exact h.sound
  case restingIn => rw [hbook, hjournal]; exact h.restingIn
  case located => rw [hbook, hjournal]; exact h.located
  case sided => rw [hbook]; exact h.sided.congr hids
  case paired => exact h.paired.congr hids
  case recorded => simp only [hids, hjournal]; exact h.recorded
  case zero => rw [hjournal]; exact h.zero
  case booked =>
    refine ⟨rfl, ?_, ?_⟩
    · rw [hjournal]; exact h.booked.reported
    · rw [hpnl, hjournal]; exact h.booked.realizedPnl_eq

omit [DoubleOps F] in
theorem Accounted.cancelOrder {id : ℕ} {ok : Bool} (h : Accounted e)
    (hc : e.book.cancelOrder id = .ok (ok, b)) : Accounted (e.withBook b) := by
  have hw := (restsWithin_cancelOrder h.sound.coherent hc).1
  exact ⟨h.sound.cancelOrder hc, h.restingIn.within hw, h.located.cancelOrder h.sound.coherent hc,
    h.sided.within hw, h.paired, h.recorded, h.zero, h.booked⟩

omit [DoubleOps F] in
/-- A submission from outside is entered in the journal. -/
theorem Accounted.submitted (h : Accounted e) (hid : o.type ≠ .cancel → o.orderId ≠ 0)
    (hbook : e'.book = e.book) (hst : e'.env.strategy = e.env.strategy)
    (hjournal : e'.env.journal = e.env.journal ++ [.submitted false o]) : Accounted e' := by
  have hown : ownIds e'.env.journal = ownIds e.env.journal := by
    rw [hjournal, ownIds_append_outside]
  have hused : usedIds e.env.journal ⊆ usedIds e'.env.journal := by
    rw [hjournal]
    exact usedIds_subset_append _ _
  constructor
  case sound => rw [hbook]; exact h.sound
  case restingIn => rw [hbook]; exact fun s i n hn => hused (h.restingIn s i n hn)
  case located => rw [hbook, hown]; exact h.located
  case sided => rw [hbook, hst]; exact h.sided
  case paired => rw [hst]; exact h.paired
  case recorded => rw [hst, hown]; exact h.recorded
  case zero =>
    rw [hjournal]
    exact zero_notMem_usedIds h.zero hid
  case booked =>
    refine ⟨rfl, ?_, ?_⟩
    · rw [hjournal, reports_append_submitted, ← hjournal]
      exact fun r hr => hused (h.booked.reported r hr)
    · rw [hst, hjournal, ownCash_append_submitted fun r _ => by rw [← hjournal, hown]]
      exact h.booked.realizedPnl_eq

/-- **An order from outside** that is not the strategy's, and that of the strategy's orders meets
at most a recorded quote. -/
theorem Accounted.submit (h : Accounted e)
    (hid : o.type ≠ .cancel → o.orderId ∉ 0 :: ownIds e.env.journal)
    (hmet : e.Passes o → o.type ≠ .cancel → ∀ f ∈ e.book.reachableFills o,
      f.1.orderId ∈ ownIds e.env.journal → f.1.orderId = quoteId e.env.strategy o.side.opp)
    (hret : e.submitOrder (fillCallback (strategy cfg) fuel) fuel false o = .ok e') :
    Accounted e' := by
  have hne : o.type ≠ .cancel → o.orderId ≠ 0 := fun htype h0 =>
    hid htype (h0 ▸ List.mem_cons_self)
  have hids := ids_submitOrder (noSubmit_onFill cfg) hret
  rcases of_submitOrder_eq_ok (noSubmit_onFill cfg) hret with
    ⟨-, rfl⟩ | ⟨hp, -, r, b, hc, rfl⟩ | ⟨hp, htype, hadd⟩
  · exact h.submitted hne rfl rfl rfl
  · have hadm : Accounted (e.admitted false o) := h.submitted hne (book_admitted false o e)
      (strategy_admitted false o e) (journal_admitted false o e)
    rw [← book_admitted false o e] at hc
    exact hadm.cancelOrder hc
  have hadm : Accounted (e.admitted false o) := h.submitted hne (book_admitted false o e)
    (strategy_admitted false o e) (journal_admitted false o e)
  have hown : ownIds (e.admitted false o).env.journal = ownIds e.env.journal := by
    rw [journal_admitted, ownIds_append_outside]
  have hother : o.orderId ∉ ownIds (e.admitted false o).env.journal := by
    rw [hown]
    exact fun hmem => hid htype (List.mem_cons_of_mem _ hmem)
  have htaker : o.orderId ∈ usedIds (e.admitted false o).env.journal := by
    rw [journal_admitted]
    exact mem_usedIds_append_submitted _ false htype
  obtain ⟨hb, q, w, rfl, -, ⟨hw, ⟨hwatch, hn⟩, hbooked⟩, -⟩ :=
    ((sparingRule_booked hadm.zero).within e.book).of_addOrder_eq_ok hadm.sound rfl
      ⟨by rw [book_admitted]; exact RestsWithin.refl _,
        ⟨⟨fun s hs he => hother (he ▸ hadm.recorded s hs), hadm.paired⟩,
          ⟨htaker, hother⟩, hadm.restingIn, hadm.located, hadm.sided, hadm.paired, hadm.recorded,
          by rw [book_admitted, strategy_admitted, hown]; exact hmet hp htype⟩,
        hadm.booked⟩ htype hadd
  have hused : usedIds (afterMatch (o.withQuantity q) w).env.journal =
      usedIds (e.admitted false o).env.journal := by rw [hids.1, journal_admitted]
  have hown' : ownIds (afterMatch (o.withQuantity q) w).env.journal =
      ownIds (e.admitted false o).env.journal := by rw [hids.2, journal_admitted]
  constructor
  case sound => exact hb
  case paired => rw [env_afterMatch]; exact hn.paired
  case recorded => rw [hown', env_afterMatch]; exact hn.recorded
  case zero => rw [hused]; exact hadm.zero
  case booked => rw [hown', hused, env_afterMatch]; exact hbooked
  case restingIn =>
    rw [hids.1]
    exact restingIn_afterMatch (h.restingIn.within hw) false htype
  case located =>
    rw [hown']
    exact hn.located.afterMatch fun _ hmem => absurd hmem hother
  case sided =>
    rw [env_afterMatch, afterMatch]
    split
    · exact hn.sided.join fun t ht he => hwatch.apart t ht he.symm
    · exact hn.sided

/-! ### The programs of the strategy -/

/-- The order has a new id, and if it passes the gate it is not filled on arrival. -/
def Unmet (o : Order) (e : TradingEngine (SpreadState F)) : Prop :=
  o.orderId ∉ 0 :: usedIds e.env.journal ∧ (e.Passes o → e.book.reachableFills o = [])

/-- **An order of the strategy** that is not filled on arrival brings no reports. -/
theorem Unmet.submit (h : Unmet o e) (hb : Sound e.book) (htype : o.type ≠ .cancel)
    (hret : e.submitOrder (fillCallback (strategy cfg) fuel) fuel true o = .ok e') :
    e'.env.strategy = e.env.strategy ∧ e'.env.journal = e.env.journal ++ [.submitted true o] := by
  rcases of_submitOrder_eq_ok (noSubmit_onFill cfg) hret with
    ⟨-, rfl⟩ | ⟨-, hcancel, -⟩ | ⟨hp, -, hadd⟩
  · exact ⟨rfl, rfl⟩
  · exact absurd hcancel htype
  · have henv := env_addOrder_of_idle (by rw [book_admitted]; exact hb) htype
      (by rw [book_admitted]; exact h.2 hp) hadd
    rw [henv]
    exact ⟨strategy_admitted true o e, journal_admitted true o e⟩

omit [DoubleOps F] in
/-- What has been booked stays right when an own order with a new id is entered. -/
theorem Booked.submit {env env' : EngineEnv (SpreadState F)}
    (h : Booked (ownIds env.journal) (usedIds env.journal) env)
    (hid : o.orderId ∉ usedIds env.journal)
    (hjournal : env'.journal = env.journal ++ [.submitted true o])
    (hpnl : env'.strategy.realizedPnl = env.strategy.realizedPnl) :
    Booked (ownIds env'.journal) (usedIds env'.journal) env' := by
  refine ⟨rfl, fun r hr => ?_, ?_⟩
  · rw [hjournal, reports_append_submitted] at hr
    rw [hjournal]
    exact usedIds_subset_append _ _ (h.reported r hr)
  · rw [hpnl, hjournal, ownCash_append_submitted fun r hr =>
      mem_ownIds_append_submitted (h.reported r hr) fun _ => hid]
    exact h.realizedPnl_eq

/-- **Quoting**, when neither order is filled on arrival. -/
theorem Accounted.quote {buyPx sellPx : ℤ} {r : Unit × TradingEngine (SpreadState F)}
    (h : Accounted e) (hzero : ∀ s, quoteId e.env.strategy s = 0)
    (hok : Along (strategy cfg) Unmet (quote cfg buyPx sellPx) e)
    (hret : interp (fillCallback (strategy cfg) fuel) fuel (quote cfg buyPx sellPx) e = .ok r) :
    Accounted r.2 := by
  obtain ⟨e₁, e₂, h₁, h₂, hr⟩ := of_interp_quote_eq_ok hret
  obtain ⟨hbid, hask⟩ := along_quote.mp hok
  replace hask := hask fuel e₁ h₁
  have hun : Unrecorded e := ⟨h.sound, h.restingIn, h.located,
    fun h0 => h.zero (ownIds_subset_usedIds _ h0), hzero⟩
  have hnew := hun.quote (along_quote.mpr ⟨hbid.1, fun fuel e₁ h₁ =>
    ((along_quote.mp hok).2 fuel e₁ h₁).1⟩) hret
  -- neither submission brings a report
  obtain ⟨hst₁, hj₁⟩ := hbid.submit h.sound nofun h₁
  have hbooked₁ : Booked (ownIds e₁.env.journal) (usedIds e₁.env.journal) e₁.env :=
    h.booked.submit (fun hmem => hbid.1 (List.mem_cons_of_mem _ hmem)) hj₁ (by rw [hst₁]; rfl)
  obtain ⟨hun₁, -⟩ := hun.advanced.submit hbid.1 rfl h₁
  obtain ⟨hst₂, hj₂⟩ := hask.submit hun₁.sound nofun h₂
  have hbooked₂ : Booked (ownIds e₂.env.journal) (usedIds e₂.env.journal) e₂.env :=
    hbooked₁.submit (fun hmem => hask.1 (List.mem_cons_of_mem _ hmem)) hj₂ (by rw [hst₂]; rfl)
  rw [hr] at hnew ⊢
  constructor
  case sound => exact hnew.sound
  case restingIn => exact hnew.restingIn
  case located => exact hnew.located
  case paired => exact hnew.paired
  case recorded => exact fun s _ => hnew.recorded s
  case booked => exact ⟨rfl, hbooked₂.reported, hbooked₂.realizedPnl_eq⟩
  case zero =>
    have hzero₁ : 0 ∉ usedIds e₁.env.journal := by
      rw [hj₁]
      exact zero_notMem_usedIds h.zero fun _ h0 => hbid.1 (h0 ▸ List.mem_cons_self)
    show 0 ∉ usedIds e₂.env.journal
    rw [hj₂]
    exact zero_notMem_usedIds hzero₁ fun _ h0 => hask.1 (h0 ▸ List.mem_cons_self)
  case sided =>
    intro s i n hn t ht hnt
    rcases hnew.resting s i n hn with ⟨m, hm, hnm⟩ | hns
    · exact absurd (h.restingIn s i m hm) (hnm ▸ hnt ▸ hnew.fresh t)
    · rcases Side.eq_or_eq_opp t s with rfl | rfl
      · rfl
      · exact absurd (hns.symm.trans hnt) (hnew.paired t ht).2

theorem Accounted.onTick {tick : MarketTick} {r : Unit × TradingEngine (SpreadState F)}
    (h : Accounted e) (hok : Along (strategy cfg) Unmet (onTick cfg tick) e)
    (hret : interp (fillCallback (strategy cfg) fuel) fuel (onTick cfg tick) e = .ok r) :
    Accounted r.2 := by
  obtain ⟨st, ⟨hids, hpnl⟩, hrun | ⟨hzero, buyPx, sellPx, hrun, halong⟩⟩ :=
    exists_interp_onTick (P := fun st => SameIds st e.env.strategy ∧
      st.realizedPnl = e.env.strategy.realizedPnl) cfg tick e ⟨SameIds.refl _, rfl⟩
      fun x => ⟨sameIds_updateEma cfg x _, by rw [updateEma]; split <;> rfl⟩
  · rw [hrun] at hret
    cases hret
    exact h.congr rfl rfl hids.quotes hpnl
  · rw [hrun] at hret
    have h' : Accounted (e.setStrategy st) := h.congr rfl rfl hids.quotes hpnl
    exact h'.quote hzero (halong _ _ hok) hret

theorem Accounted.cancelRestingQuotes {r : Unit × TradingEngine (SpreadState F)}
    (h : Accounted e)
    (hret : interp (fillCallback (strategy cfg) fuel) fuel cancelRestingQuotes e = .ok r) :
    Accounted r.2 := by
  have hpnl := realizedPnl_interp_cancelRestingQuotes hret
  obtain ⟨e', b, hrun, hp, hp', hids, hj⟩ := exists_interp_cancelRestingQuotes h.sound.coherent
  rw [hrun] at hret
  cases hret
  have hzero : 0 ∉ ownIds e.env.journal := fun h0 => h.zero (ownIds_subset_usedIds _ h0)
  obtain ⟨hw, hl, -⟩ := hp.located h.sound.coherent h.located (h.recorded .buy) hzero
  have hb : Coherent b := hp.induction Coherent.cancelOrder h.sound.coherent
  obtain ⟨hw', hl', -⟩ := hp'.located hb hl (h.recorded .sell) hzero
  constructor
  case sound => exact hp'.induction Sound.cancelOrder (hp.induction Sound.cancelOrder h.sound)
  case restingIn => rw [hj]; exact h.restingIn.within (hw'.trans hw)
  case located => rw [hj]; exact hl'
  case sided => exact Sided.of_noQuotes hids.quotes
  case paired => exact fun s hs => absurd (hids.quotes s) hs
  case recorded => exact fun s hs => absurd (hids.quotes s) hs
  case zero => rw [hj]; exact h.zero
  case booked =>
    refine ⟨rfl, ?_, ?_⟩
    · rw [hj]; exact h.booked.reported
    · rw [hpnl, hj]; exact h.booked.realizedPnl_eq

end SpreadStrategy

/-! ### Runs -/

namespace TradingEngine

/-- The ids of the strategy's orders are new and not zero, other orders have other ids and not zero,
no order of the strategy is filled on arrival, an order from outside is matched with no order of
the strategy that is not a recorded quote, and the only method of the strategy that is called from
outside is `cancel_resting_quotes`. -/
def Conditions.noticed {F : Type} : Conditions (SpreadState F) where
  submit own o e := match own with
    | true => SpreadStrategy.Unmet o e
    | false => (o.type ≠ .cancel → o.orderId ∉ 0 :: ownIds e.env.journal) ∧
        (e.Passes o → o.type ≠ .cancel → ∀ f ∈ e.book.reachableFills o,
          f.1.orderId ∈ ownIds e.env.journal →
            f.1.orderId = SpreadStrategy.quoteId e.env.strategy o.side.opp)
  invoke p := p = SpreadStrategy.cancelRestingQuotes

end TradingEngine

namespace SpreadStrategy

open TradingEngine OrderBook

variable {F : Type} [DoubleOps F]

/-- **The cash is right** in every run in which every report of an order of the strategy finds its
id recorded: `realized_pnl_` is what its orders have received minus what they have paid, in the
arithmetic of an `int64_t`. So it is that sum exactly if the sum is a value of the type. -/
theorem realizedPnl_eq_ownCash_iff (cfg : SpreadStrategyConfig F) (c : OrderBookConfig)
    (riskConfig : RiskConfig) (clock : ℕ → ℤ) (ops : List (EngineOp (SpreadState F)))
    (hops : Meets (strategy cfg) Conditions.noticed ops (new c riskConfig initial clock))
    (fuel : ℕ) (e : TradingEngine (SpreadState F))
    (h : run (strategy cfg) ops fuel (new c riskConfig initial clock) = .ok e) :
    e.env.strategy.realizedPnl = wrap64 (ownCash e.env.journal) ∧
      (e.env.strategy.realizedPnl = ownCash e.env.journal ↔ IsInt64 (ownCash e.env.journal)) := by
  have hzero : ∀ s, quoteId (initial (F := F)) s = 0 := quoteId_eq_zero rfl rfl
  have hnew : Accounted (new c riskConfig (initial (F := F)) clock) :=
    ⟨sound_new c, restingIn_new c, locatedOn_new c, Sided.of_noQuotes hzero,
      fun s hs => absurd (hzero s) hs, fun s hs => absurd (hzero s) hs, List.not_mem_nil,
      rfl, fun r hr => absurd hr List.not_mem_nil, rfl⟩
  have haccounted : Accounted e := run_induction (C := Conditions.noticed) (I := Accounted)
    (fun hq h => h.congr hq.book hq.journal (fun s => by rw [hq.strategy]) (by rw [hq.strategy]))
    (fun h hok hret => h.submit hok.1 hok.2 hret)
    (fun h _ hret => by
      obtain ⟨r, b, hc, rfl⟩ := of_cancelOrder_eq_ok hret
      exact (h.cancelOrder hc).congr rfl rfl (fun _ => rfl) rfl)
    (fun h hp hok hret => by
      rcases hp with ⟨tick, rfl⟩ | hp
      · exact h.onTick hok hret
      · rw [show _ = _ from hp] at hret
        exact h.cancelRestingQuotes hret) hnew hops h
  have hpnl := haccounted.booked.realizedPnl_eq
  exact ⟨hpnl, by rw [hpnl]; exact wrap64_eq_self_iff⟩

theorem meets_noticed_quoteTick : Meets (strategy .defaults) Conditions.noticed
    [.pushTick quoteTick, .runOnce] spreadEngine := by
  have hunmet : ((nextQuote .defaults 8 .buy (advance quotingEngine)).orderId ∉
        0 :: usedIds (advance quotingEngine).env.journal ∧
      (advance quotingEngine).book.reachableFills
        (nextQuote .defaults 8 .buy (advance quotingEngine)) = []) ∧
      ∃ e, (advance quotingEngine).submitOrder (fillCallback (strategy .defaults) 3) 3 true
        (nextQuote .defaults 8 .buy (advance quotingEngine)) = .ok e ∧
        (nextQuote .defaults 12 .sell (advance e)).orderId ∉
          0 :: usedIds (advance e).env.journal ∧
        (advance e).book.reachableFills (nextQuote .defaults 12 .sell (advance e)) = [] := by
    decide +kernel
  obtain ⟨⟨hid, hnone⟩, e, he, hid', hnone'⟩ := hunmet
  exact meets_quoteTick_of ⟨hid, fun _ => hnone⟩ ⟨e, he, hid', fun _ => hnone'⟩

/-- Somebody sells four of the ten lots the strategy bids for. -/
theorem realizedPnl_eq_ownCash_iff_hitBid : ∃ e,
    run (strategy .defaults) [.pushTick quoteTick, .runOnce,
      .submitOrder ⟨7, 1, 8, 4, .sell, .limit⟩] 4 spreadEngine = .ok e ∧
    e.env.strategy.realizedPnl = ownCash e.env.journal := by
  have hops : Meets (strategy .defaults) Conditions.noticed [.pushTick quoteTick, .runOnce,
      .submitOrder ⟨7, 1, 8, 4, .sell, .limit⟩] spreadEngine := by
    refine ⟨trivial, fun fuel e he => ⟨(meets_noticed_quoteTick.2 fuel e he).1, fun fuel' e' he' =>
      ⟨?_, fun _ _ _ => trivial⟩⟩⟩
    have hmet := of_exists_run_quoteTick (P := fun e => 7 ∉ 0 :: ownIds e.env.journal ∧
      ∀ f ∈ e.book.reachableFills ⟨7, 1, 8, 4, .sell, .limit⟩, f.1.orderId ∈ ownIds e.env.journal →
        f.1.orderId = quoteId e.env.strategy .buy) (by decide +kernel) he he'
    exact ⟨fun _ => hmet.1, fun _ _ => hmet.2⟩
  obtain ⟨e, he, hcash⟩ : ∃ e, run (strategy .defaults) [.pushTick quoteTick, .runOnce,
      .submitOrder ⟨7, 1, 8, 4, .sell, .limit⟩] 4 spreadEngine = .ok e ∧
      IsInt64 (ownCash e.env.journal) := by decide +kernel
  exact ⟨e, he, (realizedPnl_eq_ownCash_iff .defaults _ _ _ _ hops 4 e he).2.mpr hcash⟩

/-- **Three lots are missing.** The bid is filled in two pieces, of four lots and of three, and only
the first is counted. -/
theorem realizedPnl_ne_ownCash_twoPieces : ∃ e,
    run (strategy .defaults) [.pushTick quoteTick, .runOnce,
      .submitOrder ⟨7, 1, 8, 4, .sell, .limit⟩, .submitOrder ⟨8, 1, 8, 3, .sell, .limit⟩] 4
      spreadEngine = .ok e ∧
    ownIds e.env.journal = [1, 2] ∧ e.env.strategy.realizedPnl = -32 ∧
      ownCash e.env.journal = -56 := by
  decide +kernel

end SpreadStrategy

end MiniTrader
