import MiniTrader.Engine.Position
import MiniTrader.Engine.QuotedBook
import MiniTrader.OrderBook.Resting
import MiniTrader.Risk.PositionLimit

/-!
# The inventory of the strategy

`on_tick` stops quoting when the position is at `max_position`. The position it reads is not the
inventory, and an order that rests can be filled later, so what matters is the *exposure* of a side:
the inventory on that side together with what rests there of the strategy's own orders. A fill moves
quantity from the second part to the first, on the way through `match` as well, and a cancel takes
it away; only a new order adds to it. If every order of the strategy that passes the checks finds
the exposure of its side below `max_position`, the inventory is bounded for good.

## Main definitions

* `exposure` — the inventory on a side, and what may still be added to it
* `Conditions.covered` — every own order that passes finds room on its side

## Main results

* `Exposed.fillFront` — a fill does not increase the exposure of any side
* `SpreadStrategy.natAbs_ownNet_le_of_covered` — the bound on the inventory
-/

namespace MiniTrader

open Fuelled OrderBook

namespace TradingEngine

variable {σ : Type} {S : Strategy σ} {e e' : TradingEngine σ} {o : Order} {own : Bool}
  {fuel k : ℕ} {K : ℤ} {s : Side}

/-! ### What the callback of the book does -/

/-- A strategy that does not submit from `on_fill` can only cancel. -/
theorem thinned_of_fillCallback {r : ExecutionReport} (hS : ∀ r, (S.onFill r).NoSubmit)
    (hb : Coherent e.book) (h : fillCallback S k r e = .ok e') :
    Thinned e.book e'.book ∧ e'.env.journal = e.env.journal ++ [.filled r] := by
  cases k with
  | zero => cases h
  | succ k =>
    obtain ⟨t, ht, h⟩ := exists_of_bind_eq_ok h
    cases h
    refine (@ensures_interp_of_noSubmit _ _ _ _ _ _ (fun _ => False)
      (fun e₁ => Thinned e.book e₁.book ∧
        e₁.env.journal = e.env.journal ++ [EngineEvent.filled r])
      (fun _ h => h) (fun id h => ensures_of_ok fun hc => ?_) ?_ (hS r)).ok ht
    · obtain ⟨r', b, hcancel, rfl⟩ := of_cancelOrder_eq_ok hc
      exact ⟨h.1.trans (h.1.coherent.thinned_cancelOrder hcancel), h.2⟩
    · rw [book_beforeOnFill, journal_beforeOnFill]
      exact ⟨hb.thinned_self, rfl⟩

/-- **A fill**, with such a strategy: both reports, some cancels, and the front order settled. -/
theorem of_fillFront_eq_ok {i : ℕ} {t t' : Order × TradingEngine σ}
    (hS : ∀ r, (S.onFill r).NoSubmit) (hb : Coherent t.2.book)
    (h : OrderBook.fillFront (fillCallback S k) s i t = .ok t') : ∃ n ns ns' p b,
      (t.2.book.levels s.opp i).orders = n :: ns ∧ Thinned t.2.book b ∧
      (b.levels s.opp i).orders = n :: ns' ∧
      t'.1 = t.1.withQuantity (t.1.quantity - min t.1.quantity n.order.quantity) ∧
      t'.2.book = b.settleFront s.opp i n.order (min t.1.quantity n.order.quantity) ∧
      t'.2.env.journal = t.2.env.journal ++ [.filled (takerReport s t.1 n
        (t.2.book.best s.opp)), .filled (makerReport s t.1 n p)] := by
  obtain ⟨n, ns, e₁, m, e₂, m', hfront, h₁, hm, h₂, hm', rfl⟩ := OrderBook.of_fillFront_eq_ok h
  obtain ⟨hthin₁, hj₁⟩ := thinned_of_fillCallback hS hb h₁
  obtain ⟨rfl, ns₁, hfront₁⟩ := hb.front_of_sublist (hthin₁.sublist _ _) hfront hm
  obtain ⟨hthin₂, hj₂⟩ := thinned_of_fillCallback hS hthin₁.coherent h₂
  obtain ⟨rfl, ns₂, hfront₂⟩ := hthin₁.coherent.front_of_sublist (hthin₂.sublist _ _) hfront₁ hm'
  refine ⟨n, ns, ns₂, e₁.book.best s.opp, e₂.book, hfront, hthin₁.trans hthin₂, hfront₂, rfl, rfl,
    ?_⟩
  show e₂.env.journal = _
  rw [hj₂, hj₁, List.append_assoc]
  rfl

/-! ### The exposure -/

/-- The orders of the strategy on a side. -/
def ownOn (journal : List EngineEvent) (s : Side) (id : ℕ) (t : Side) : Bool :=
  decide (id ∈ ownIds journal ∧ t = s)

/-- The inventory on a side, and the strategy's orders that rest there. -/
def exposure (s : Side) (e : TradingEngine σ) : ℤ :=
  s.sign * ownNet e.env.journal + restingSum (ownOn e.env.journal s) e.book

/-- What the incoming order may still add, while it is being matched. -/
def inFlight (journal : List EngineEvent) (o : Order) (s : Side) : ℤ :=
  if ownOn journal s o.orderId o.side then o.quantity else 0

theorem signedQuantity_eq (r : ExecutionReport) :
    signedQuantity r = r.side.sign * r.filledQuantity := by
  unfold signedQuantity Side.sign
  cases r.side
  · exact (one_mul _).symm
  · exact (neg_one_mul _).symm

/-- What a report adds to the inventory. -/
theorem ownNet_append_filled (journal : List EngineEvent) (r : ExecutionReport) :
    ownNet (journal ++ [.filled r]) = ownNet journal +
      if r.orderId ∈ ownIds journal then r.side.sign * r.filledQuantity else 0 := by
  rw [ownNet, ownNet, ownIds_append_filled, reports_append, net_append]
  simp [reports, signedQuantity_eq]

/-- A submission under a new id changes the owner of no order that exists. -/
theorem mem_ownIds_append_submitted {journal : List EngineEvent} {id : ℕ}
    (hid : id ∈ usedIds journal) (hfresh : o.type ≠ .cancel → o.orderId ∉ usedIds journal) :
    id ∈ ownIds (journal ++ [.submitted own o]) ↔ id ∈ ownIds journal := by
  rw [ownIds_append, List.mem_append]
  refine or_iff_left fun hnew => ?_
  rw [ownIds] at hnew
  split at hnew
  · rename_i hown
    obtain heq : id = o.orderId := by simpa [ownIds] using hnew
    exact hfresh hown.2 (heq ▸ hid)
  · cases hnew

/-- A submission under a new id changes nothing that has been reported. -/
theorem ownNet_append_submitted {journal : List EngineEvent}
    (hknown : ∀ r ∈ reports journal, r.orderId ∈ usedIds journal)
    (hfresh : o.type ≠ .cancel → o.orderId ∉ usedIds journal) :
    ownNet (journal ++ [.submitted own o]) = ownNet journal := by
  rw [ownNet, ownNet, reports_append_submitted, net, net]
  refine congrArg List.sum (List.map_congr_left fun r hr => ?_)
  have hiff : r.orderId ∈ ownIds (journal ++ [.submitted own o]) ↔ r.orderId ∈ ownIds journal :=
    mem_ownIds_append_submitted (hknown r hr) hfresh
  simp only [hiff]

/-- No id is used twice, every own order that passes finds the exposure of its side below
`max_position`, and the methods of the strategy that are called from outside do not submit. -/
def Conditions.covered {F : Type} (cfg : SpreadStrategyConfig F) : Conditions (SpreadState F) where
  submit own o e := (o.type ≠ .cancel → o.orderId ∉ usedIds e.env.journal) ∧
    (own = true → e.Passes o → exposure o.side e ≤ cfg.maxPosition - 1)
  invoke p := p.NoSubmit

/-- No side is exposed beyond `K`, counting what is in flight. -/
structure Exposed (K : ℤ) (o : Option Order) (e : TradingEngine σ) : Prop where
  coherent : Coherent e.book
  resting : ∀ s i, ∀ n ∈ (e.book.levels s i).orders, n.order.orderId ∈ usedIds e.env.journal
  reported : ∀ r ∈ reports e.env.journal, r.orderId ∈ usedIds e.env.journal
  incoming : ∀ o' ∈ o, o'.orderId ∈ usedIds e.env.journal ∧
    (o'.orderId ∈ ownIds e.env.journal → 0 ≤ o'.quantity)
  le : ∀ s, exposure s e + (o.elim 0 fun o' => inFlight e.env.journal o' s) ≤ K

/-- The balance of a fill on side `t`, for an incoming order of side `s` with `x` lots that is the
strategy's own if `P`, and a resting order that is its own if `Q`. -/
theorem fill_balance (s t : Side) {P Q : Prop} [Decidable P] [Decidable Q] {m rest rest' x q : ℤ}
    (hq : 0 ≤ q) (hrest : rest' ≤ rest - if Q ∧ s.opp = t then q else 0) :
    t.sign * (m + (if P then s.sign * q else 0) + if Q then s.opp.sign * q else 0) + rest' +
        (if P ∧ s = t then x - q else 0) ≤
      t.sign * m + rest + if P ∧ s = t then x else 0 := by
  by_cases hP : P <;> by_cases hQ : Q <;> cases s <;> cases t <;>
    simp only [hP, hQ, Side.sign, Side.opp, true_and, false_and, if_true, if_false, reduceCtorEq]
      at hrest ⊢ <;> omega

/-- **A fill** does not increase the exposure of any side. -/
theorem Exposed.fillFront {i : ℕ} {t t' : Order × TradingEngine σ}
    (hS : ∀ r, (S.onFill r).NoSubmit) (h : Exposed K (some t.1) t.2) (hside : t.1.side = s)
    (hq : 0 < t.1.quantity) (hfill : OrderBook.fillFront (fillCallback S k) s i t = .ok t') :
    Exposed K (some t'.1) t'.2 ∧ t'.1.side = s := by
  obtain ⟨n, ns, ns', p, b, hfront, hthin, hfront', ho, hbook, hj⟩ :=
    of_fillFront_eq_ok hS h.coherent hfill
  obtain ⟨o, e⟩ := t
  obtain ⟨o', e'⟩ := t'
  subst ho hside
  dsimp only at h hq hfront hthin hbook hj ⊢
  have hn : n ∈ (e.book.levels o.side.opp i).orders := by rw [hfront]; exact List.mem_cons_self
  have hpos := h.coherent.positive hn
  have hnside : n.order.side = o.side.opp := h.coherent.side_eq hn
  have hb := hthin.coherent
  have hwithin : RestsWithin e'.book e.book := by
    rw [hbook]
    exact (hb.restsWithin_settleFront hfront' (by omega)).trans hthin.restsWithin
  have hused : usedIds e'.env.journal = usedIds e.env.journal := by simp [hj, usedIds]
  have hown : ownIds e'.env.journal = ownIds e.env.journal := by simp [hj, ownIds]
  have hnet : ownNet e'.env.journal = ownNet e.env.journal +
      (if o.orderId ∈ ownIds e.env.journal then
        o.side.sign * min o.quantity n.order.quantity else 0) +
      (if n.order.orderId ∈ ownIds e.env.journal then
        o.side.opp.sign * min o.quantity n.order.quantity else 0) := by
    rw [hj, List.append_cons, ownNet_append_filled, ownIds_append_filled, ownNet_append_filled]
    rfl
  have hsum : ∀ t, restingSum (ownOn e'.env.journal t) e'.book ≤
      restingSum (ownOn e.env.journal t) e.book -
        if n.order.orderId ∈ ownIds e.env.journal ∧ o.side.opp = t then
          min o.quantity n.order.quantity else 0 := by
    intro t
    have hsel : ownOn e'.env.journal t = ownOn e.env.journal t := by
      funext id u
      rw [ownOn, ownOn, hown]
    have hle := hthin.restingSum_le (ownOn e.env.journal t)
    rw [hsel, hbook, hb.restingSum_settleFront hfront' (min_le_right _ _)]
    simp only [picks, ownOn, hnside, decide_eq_true_eq]
    omega
  refine ⟨⟨?_, ?_, ?_, ?_, fun t => ?_⟩, rfl⟩
  · rw [hbook]
    exact hb.settleFront hfront'
  · intro u j m hm
    obtain ⟨m', hm', q, -, rfl⟩ := hwithin u j m hm
    rw [hused]
    exact h.resting u j m' hm'
  · intro r hr
    rw [hj, reports_append, List.mem_append] at hr
    rw [hused]
    rcases hr with hr | hr
    · exact h.reported r hr
    · have hr : r = takerReport o.side o n (e.book.best o.side.opp) ∨
          r = makerReport o.side o n p := by simpa [reports] using hr
      rcases hr with rfl | rfl
      · exact (h.incoming o rfl).1
      · exact h.resting _ _ n hn
  · rintro o' ⟨⟩
    rw [hused, hown]
    refine ⟨(h.incoming o rfl).1, fun _ => ?_⟩
    show 0 ≤ o.quantity - min o.quantity n.order.quantity
    omega
  · refine le_trans ?_ (h.le t)
    have hbalance := fill_balance o.side t (P := o.orderId ∈ ownIds e.env.journal)
      (m := ownNet e.env.journal) (x := o.quantity) (by omega) (hsum t)
    simpa only [exposure, inFlight, ownOn, hnet, hown, Option.elim, Order.orderId_withQuantity,
      Order.side_withQuantity, Order.quantity_withQuantity, decide_eq_true_eq] using hbalance

/-- Cancels take from the exposure. -/
theorem Exposed.of_thinned {o : Option Order} (h : Exposed K o e) (hb : Thinned e.book e'.book)
    (hj : e'.env.journal = e.env.journal) : Exposed K o e' where
  coherent := hb.coherent
  resting s i n hn := by rw [hj]; exact h.resting s i n (hb.mem hn)
  reported := by rw [hj]; exact h.reported
  incoming := by rw [hj]; exact h.incoming
  le s := by
    have := hb.restingSum_le (ownOn e.env.journal s)
    refine le_trans ?_ (h.le s)
    rw [exposure, exposure, hj]
    omega

/-- **Matching** does not increase the exposure of any side. -/
theorem Exposed.matchOrder {o' : Order} (hS : ∀ r, (S.onFill r).NoSubmit)
    (h : Exposed K (some o) e)
    (hm : OrderBook.matchOrder (fillCallback S k) fuel (o, e) = .ok (o', e')) :
    Exposed K (some o') e' :=
  (matchOrder_induction (I := fun t => Exposed K (some t.1) t.2 ∧ t.1.side = o.side) rfl
    (fun ht hq hfill => ht.1.fillFront hS ht.2 hq hfill)
    (fun ht => ⟨ht.1.of_thinned ht.1.coherent.thinned_leaveLevel rfl, ht.2⟩) ⟨h, rfl⟩ hm).1

/-- What is left of the incoming order rests, or is not the strategy's. -/
theorem Exposed.afterMatch (h : Exposed K (some o) e)
    (hidx : 0 < o.quantity ∧ o.type = .limit →
      e.book.config.priceToIndex o.price < e.book.config.numLevels) :
    Exposed K none (OrderBook.afterMatch o e) := by
  rw [OrderBook.afterMatch]
  split
  · rename_i hrest
    refine ⟨h.coherent.join hrest.1 (hidx hrest), fun s i n hn => ?_, h.reported,
      fun o' ho' => absurd ho' (Option.not_mem_none o'), fun s => ?_⟩
    · rw [World.book_withBook, levels_join] at hn
      rcases mem_link.mp hn with hn | ⟨rfl, rfl, rfl⟩
      · exact h.resting s i n hn
      · exact (h.incoming o rfl).1
    · have hsum := restingSum_join (φ := ownOn e.env.journal s) (hidx hrest)
      show s.sign * ownNet e.env.journal +
        restingSum (ownOn e.env.journal s) (e.book.join o) + 0 ≤ K
      rw [hsum, add_zero, ← add_assoc]
      exact h.le s
  · rename_i hrest
    refine ⟨h.coherent, h.resting, h.reported,
      fun o' ho' => absurd ho' (Option.not_mem_none o'), fun s => le_trans ?_ (h.le s)⟩
    have hown := (h.incoming o rfl).2
    simp only [Option.elim, inFlight, ownOn, decide_eq_true_eq]
    split
    · have := hown (‹_ ∧ _› : _ ∧ _).1
      omega
    · exact le_rfl

/-- Handing in an order under a new id exposes nothing. -/
theorem Exposed.submitted (h : Exposed K none e)
    (hfresh : o.type ≠ .cancel → o.orderId ∉ usedIds e.env.journal) (hbook : e'.book = e.book)
    (hj : e'.env.journal = e.env.journal ++ [.submitted own o]) :
    Exposed K none e' ∧ ∀ s, exposure s e' = exposure s e := by
  have hexp : ∀ s, exposure s e' = exposure s e := by
    intro s
    have hsum : restingSum (ownOn e'.env.journal s) e.book =
        restingSum (ownOn e.env.journal s) e.book := by
      refine restingSum_congr_picks fun t i n hn => ?_
      have hiff : n.order.orderId ∈ ownIds (e.env.journal ++ [.submitted own o]) ↔
          n.order.orderId ∈ ownIds e.env.journal :=
        mem_ownIds_append_submitted (h.resting t i n hn) hfresh
      simp only [picks, ownOn, hj, hiff]
    rw [exposure, exposure, hbook, hsum, hj, ownNet_append_submitted h.reported hfresh]
  have hused : usedIds e.env.journal ⊆ usedIds e'.env.journal := by
    rw [hj]
    exact usedIds_subset_append _ _
  refine ⟨⟨by rw [hbook]; exact h.coherent, fun s i n hn => ?_, fun r hr => ?_, nofun,
    fun s => ?_⟩, hexp⟩
  · rw [hbook] at hn
    exact hused (h.resting s i n hn)
  · have hr : r ∈ reports e.env.journal := by simpa [hj, reports] using hr
    exact hused (h.reported r hr)
  · rw [hexp]
    exact h.le s

/-- **An order that passes** adds its quantity to the exposure of its side, if it is the
strategy's. -/
theorem Exposed.admitted (h : Exposed K none e) (htype : o.type ≠ .cancel)
    (hfresh : o.orderId ∉ usedIds e.env.journal)
    (hroom : own = true → 0 ≤ o.quantity ∧ exposure o.side e + o.quantity ≤ K) :
    Exposed K (some o) (e.admitted own o) := by
  obtain ⟨h', hexp⟩ := h.submitted (fun _ => hfresh) (book_admitted own o e)
    (journal_admitted own o e)
  have hown : o.orderId ∈ ownIds (e.admitted own o).env.journal → own = true := by
    intro hin
    rw [journal_admitted, ownIds_append, List.mem_append] at hin
    rcases hin with hin | hin
    · exact absurd (ownIds_subset_usedIds _ hin) hfresh
    · by_contra hnot
      simp [ownIds, hnot] at hin
  refine ⟨h'.coherent, h'.resting, h'.reported, ?_, fun s => ?_⟩
  · rintro o' ⟨⟩
    refine ⟨?_, fun hin => (hroom (hown hin)).1⟩
    rw [journal_admitted]
    exact mem_usedIds_append_submitted _ _ htype
  · have hle := h.le s
    simp only [Option.elim, inFlight, ownOn, decide_eq_true_eq] at hle ⊢
    rw [hexp]
    split
    · obtain ⟨hin, rfl⟩ := ‹_ ∧ _›
      exact (hroom (hown hin)).2
    · exact hle

/-- **Submitting**, with room for the strategy's own orders. -/
theorem Exposed.submitOrder (hS : ∀ r, (S.onFill r).NoSubmit) (h : Exposed K none e)
    (hfresh : o.type ≠ .cancel → o.orderId ∉ usedIds e.env.journal)
    (hroom : own = true → e.Passes o → 0 ≤ o.quantity ∧ exposure o.side e + o.quantity ≤ K)
    (hret : e.submitOrder (fillCallback S fuel) fuel own o = .ok e') : Exposed K none e' := by
  rcases of_submitOrder_eq_ok hS hret with ⟨-, rfl⟩ | ⟨-, -, r, b, hc, rfl⟩ | ⟨hp, htype, hadd⟩
  · exact (h.submitted hfresh (book_rejected own o e) (journal_rejected own o e)).1
  · have h' := (h.submitted hfresh (book_admitted own o e) (journal_admitted own o e)).1
    refine h'.of_thinned ?_ rfl
    rw [World.book_withBook, book_admitted]
    exact h.coherent.thinned_cancelOrder hc
  · obtain ⟨o', e₁, hm, hidx, rfl⟩ := OrderBook.of_addOrder_eq_ok htype hadd
    have h' := h.admitted htype (hfresh htype) fun hown => hroom hown hp
    exact (h'.matchOrder hS hm).afterMatch hidx

theorem Exposed.cancelOrder {id : ℕ} (h : Exposed K none e) (hret : e.cancelOrder id = .ok e') :
    Exposed K none e' := by
  obtain ⟨r, b, hc, rfl⟩ := of_cancelOrder_eq_ok hret
  exact h.of_thinned (h.coherent.thinned_cancelOrder hc) rfl

end TradingEngine

namespace SpreadStrategy

open TradingEngine

variable {F : Type} [DoubleOps F] {cfg : SpreadStrategyConfig F} {c : OrderBookConfig}
  {e e' : TradingEngine (SpreadState F)} {K : ℤ}

/-- Every order of `on_tick` has the configured size. -/
theorem along_onTick_orderSize {tick : MarketTick} :
    Along (strategy cfg) (fun o _ => o.quantity = cfg.orderSize) (onTick cfg tick) e :=
  along_onTick rfl rfl (along_quote.mpr ⟨rfl, fun _ _ _ => rfl⟩)

/-- The invariant of a run. -/
theorem exposed_of_covered (hsize : 0 ≤ cfg.orderSize) {ops : List (EngineOp (SpreadState F))}
    {fuel : ℕ} (he : Exposed (cfg.maxPosition - 1 + cfg.orderSize) none e)
    (hops : Meets (strategy cfg) (Conditions.covered cfg) ops e)
    (h : run (strategy cfg) ops fuel e = .ok e') :
    Exposed (cfg.maxPosition - 1 + cfg.orderSize) none e' := by
  have hS := noSubmit_onFill cfg
  refine run_induction (C := Conditions.covered cfg) (fun hq h => ?_)
    (fun h hok hret => h.submitOrder hS hok.1 (fun hown => by cases hown) hret)
    (fun h _ hret => h.cancelOrder hret) (fun h htop hp hret => ?_) he hops h
  · exact h.of_thinned (hq.book ▸ h.coherent.thinned_self) hq.journal
  · rename_i fuel p e₀ r
    have hsize : Along (strategy cfg) (fun o _ => o.quantity = cfg.orderSize) p e₀ := by
      rcases htop with ⟨tick, rfl⟩ | hns
      · exact along_onTick_orderSize
      · exact along_of_noSubmit hns
    refine interp_induction (fun _ h => h.of_thinned h.coherent.thinned_self rfl)
      (fun h hok hret => ?_) (fun h hret => h.cancelOrder hret) h (hp.and hsize) hret
    obtain ⟨⟨hfresh, hroom⟩, hq⟩ := hok
    refine h.submitOrder hS hfresh (fun hown hpass => ?_) hret
    have := hroom hown hpass
    omega

theorem exposed_new (hK : 0 ≤ K) (c : OrderBookConfig) (riskConfig : RiskConfig)
    (clock : ℕ → ℤ) : Exposed K none (new c riskConfig (initial : SpreadState F) clock) where
  coherent := coherent_new c
  resting s i n hn := by
    rw [show (new c riskConfig initial clock).book = OrderBook.new c from rfl, orders_new] at hn
    cases hn
  reported := nofun
  incoming := nofun
  le s := by
    show s.sign * 0 + restingSum _ (OrderBook.new c) + 0 ≤ K
    rw [restingSum_new]
    omega

/-- **The inventory.** In every run in which each order of the strategy that passes the checks finds
the exposure of its side below `max_position`, the inventory is bounded as intended. Nothing is
asked of prices, quantities or the orders from outside, except that no id is used twice. -/
theorem natAbs_ownNet_le_of_covered (cfg : SpreadStrategyConfig F) (hmax : 1 ≤ cfg.maxPosition)
    (hsize : 1 ≤ cfg.orderSize) (c : OrderBookConfig) (riskConfig : RiskConfig) (clock : ℕ → ℤ)
    (ops : List (EngineOp (SpreadState F)))
    (hops : Meets (strategy cfg) (Conditions.covered cfg) ops (new c riskConfig initial clock))
    (fuel : ℕ) (e : TradingEngine (SpreadState F))
    (h : run (strategy cfg) ops fuel (new c riskConfig initial clock) = .ok e) :
    ((ownNet e.env.journal).natAbs : ℤ) ≤ cfg.maxPosition - 1 + cfg.orderSize := by
  have hexp := exposed_of_covered (by omega) (exposed_new (by omega) c riskConfig clock) hops h
  have hbuy := hexp.le .buy
  have hsell := hexp.le .sell
  have hbuy₀ := hexp.coherent.restingSum_nonneg (φ := ownOn e.env.journal .buy)
  have hsell₀ := hexp.coherent.restingSum_nonneg (φ := ownOn e.env.journal .sell)
  simp only [exposure, Side.sign, Option.elim] at hbuy hsell
  omega

/-- Somebody sells four lots to the bid. -/
theorem natAbs_ownNet_le_of_covered_hitBid : ∃ e,
    run (strategy .defaults) [.pushTick quoteTick, .runOnce,
      .submitOrder ⟨7, 1, 8, 4, .sell, .limit⟩] 4 spreadEngine = .ok e ∧
    ((ownNet e.env.journal).natAbs : ℤ) ≤ 20 - 1 + 10 := by
  have hops : Meets (strategy .defaults) (Conditions.covered .defaults) [.pushTick quoteTick,
      .runOnce, .submitOrder ⟨7, 1, 8, 4, .sell, .limit⟩] spreadEngine := by
    have hquote : Meets (strategy .defaults) (Conditions.covered .defaults)
        [.pushTick quoteTick, .runOnce] spreadEngine := by
      obtain ⟨e, he, hids, hexp⟩ : ∃ e, (advance quotingEngine).submitOrder
          (fillCallback (strategy .defaults) 3) 3 true
          (nextQuote .defaults 8 .buy (advance quotingEngine)) = .ok e ∧
          (advance e).env.strategy.nextId ∉ usedIds (advance e).env.journal ∧
          exposure .sell (advance e) ≤ 20 - 1 := by decide +kernel
      refine meets_quoteTick_of ⟨fun _ => List.not_mem_nil, fun _ _ => ?_⟩
        ⟨e, he, fun _ => hids, fun _ _ => hexp⟩
      show exposure .buy (advance quotingEngine) ≤ 20 - 1
      decide +kernel
    refine ⟨trivial, fun fuel e he => ⟨(hquote.2 fuel e he).1, fun fuel' e' he' =>
      ⟨⟨fun _ => ?_, nofun⟩, fun _ _ _ => trivial⟩⟩⟩
    exact of_exists_run_quoteTick (P := fun e => 7 ∉ usedIds e.env.journal)
      (by decide +kernel) he he'
  obtain ⟨e, he, -⟩ : ∃ e, run (strategy .defaults) [.pushTick quoteTick, .runOnce,
      .submitOrder ⟨7, 1, 8, 4, .sell, .limit⟩] 4 spreadEngine = .ok e ∧ True := by decide +kernel
  exact ⟨e, he, natAbs_ownNet_le_of_covered .defaults (by decide) (by decide) _ _ _ _ hops 4 e he⟩

/-- **Thirty lots.** Three times the strategy quotes on the same tick and somebody sells it all it
bids for; the position it reads is zero each time. -/
theorem ownNet_threeBids : ∃ e,
    run (strategy .defaults) [.pushTick quoteTick, .runOnce,
      .submitOrder ⟨7, 1, 8, 10, .sell, .limit⟩, .pushTick quoteTick, .runOnce,
      .submitOrder ⟨8, 1, 8, 10, .sell, .limit⟩, .pushTick quoteTick, .runOnce,
      .submitOrder ⟨9, 1, 8, 10, .sell, .limit⟩] 4 spreadEngine = .ok e ∧
    ownNet e.env.journal = 30 ∧ e.position 1 = 0 := by
  decide +kernel

end SpreadStrategy

end MiniTrader
