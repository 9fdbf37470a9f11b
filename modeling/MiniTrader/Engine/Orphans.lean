import MiniTrader.Engine.DeadQuotes

/-!
# Quotes that nobody remembers

A fill report does not say whether the order is finished. `on_fill` takes it that it is: on the
first report about a quote it cancels the other one and forgets both ids. If the fill was partial,
the remainder of the quote stays in the book, and the next tick puts a new pair next to it.

A quote is filled in part just when the quantity of an incoming order runs out in the middle of it,
which can be seen from the queue the order meets (`EndsInside`). As long as that does not happen to
a recorded quote, the strategy's orders in the book are the recorded quotes. Whatever else happens
to them does no harm: they may be rejected, filled as they arrive, even by one another, or cancelled
by somebody else.

## Main definitions

* `IsQuote`, `Covered` — the recorded quotes; the strategy's orders are among them
* `Conditions.whole` — no recorded quote is filled in part

## Main results

* `Owning.submit` — an order from outside
* `Unrecorded.submit` — an order of the strategy
* `eq_quoteId_of_whole` — no orphans
-/

namespace MiniTrader

open Fuelled

namespace SpreadStrategy

open TradingEngine OrderBook

variable {F : Type} {cfg : SpreadStrategyConfig F} {c : OrderBookConfig}
  {e e' : TradingEngine (SpreadState F)} {o : Order} {own : Bool} {fuel : ℕ}
  {st : SpreadState F} {ids : List ℕ} {b b' : OrderBook}

/-- The order is one of the recorded quotes. -/
def IsQuote (st : SpreadState F) (n : Node) : Prop :=
  ∃ s, quoteId st s ≠ 0 ∧ n.order.orderId = quoteId st s

instance (st : SpreadState F) : DecidablePred (IsQuote st) := fun n =>
  decidable_of_iff
    ((quoteId st .buy ≠ 0 ∧ n.order.orderId = quoteId st .buy) ∨
      (quoteId st .sell ≠ 0 ∧ n.order.orderId = quoteId st .sell))
    ⟨fun h => h.elim (⟨.buy, ·⟩) (⟨.sell, ·⟩), fun ⟨s, h⟩ => by
      cases s with
      | buy => exact Or.inl h
      | sell => exact Or.inr h⟩

/-- The resting orders with one of the given ids are the recorded quotes. -/
def Covered (ids : List ℕ) (st : SpreadState F) (b : OrderBook) : Prop :=
  ∀ s i, ∀ n ∈ (b.levels s i).orders, n.order.orderId ∈ ids → n.order.orderId = quoteId st s

theorem Covered.within (h : Covered ids st b) (hw : RestsWithin b' b) : Covered ids st b' := by
  intro s i n hn
  obtain ⟨m, hm, q, -, rfl⟩ := hw s i n hn
  exact h s i m hm

theorem Covered.congr {st' : SpreadState F} (h : Covered ids st b)
    (hids : ∀ s, quoteId st' s = quoteId st s) : Covered ids st' b := by
  intro s
  rw [hids]
  exact h s

theorem Covered.join (h : Covered ids st b) (hid : o.orderId ∉ ids) :
    Covered ids st (b.join o) := by
  intro s i n hn hmem
  rw [levels_join] at hn
  rcases mem_link.mp hn with hn | ⟨rfl, rfl, rfl⟩
  · exact h s i n hn hmem
  · exact absurd hmem hid

/-- Where no quote is recorded, none of the orders rests. -/
theorem Covered.notMem (h : Covered ids st b) (hzero : ∀ s, quoteId st s = 0) (h0 : 0 ∉ ids)
    {s : Side} {i : ℕ} {n : Node} (hn : n ∈ (b.levels s i).orders) : n.order.orderId ∉ ids :=
  fun hid => h0 (hzero s ▸ h s i n hn hid ▸ hid)

/-- One of two quotes goes and the other one is cancelled. -/
theorem covered_of_pair {s : Side} {i : ℕ} {n : Node} {ok : Bool} (h : Covered ids st b)
    (hb : Coherent b) (hl : LocatedOn (· ∈ ids) b) (hn : n.order.orderId = quoteId st s)
    (hopp : quoteId st s.opp ∈ ids)
    (hc : b.cancelOrder (quoteId st s.opp) = .ok (ok, b'))
    (hmem : n ∈ (b'.levels s i).orders) (st' : SpreadState F) :
    Covered ids st' (b'.unlink s i n) := by
  intro t j m hm₀ hid
  have hb' := hb.cancelOrder hc
  obtain ⟨hm, hne⟩ := (hb'.mem_unlink hmem).mp hm₀
  have hm' := h.within (restsWithin_cancelOrder hb hc).1 t j m hm hid
  rcases Side.eq_or_eq_opp s t with rfl | rfl
  · have heq := (hl.cancelOrder hb hc).eq_of_orderId hb' hmem hm (hn.trans hm'.symm) hid
    exact absurd heq.2.2.symm hne
  · exact absurd hm' (hl.notResting_cancelOrder hb hopp hc _ j m hm)

/-! ### Orders from outside -/

/-- What holds while an order from outside is matched: it has still to meet the queue `ns`, and its
quantity does not run out in the middle of a recorded quote. -/
structure Sweeping (ids : List ℕ) (ns : List Node) (o : Order) (e : TradingEngine (SpreadState F)) :
    Prop where
  located : LocatedOn (· ∈ ids) e.book
  covered : Covered ids e.env.strategy e.book
  paired : Paired e.env.strategy
  recorded : ∀ s, quoteId e.env.strategy s ≠ 0 → quoteId e.env.strategy s ∈ ids
  whole : ¬ EndsInside (IsQuote e.env.strategy) ns o.quantity

theorem not_endsInside_of_noQuotes (hzero : ∀ s, quoteId st s = 0) {ns : List Node} {q : ℤ} :
    ¬ EndsInside (IsQuote st) ns q := by
  intro h
  obtain ⟨n, -, s, hs, -⟩ := h.exists_mem
  exact hs (hzero s)

variable [DoubleOps F]

theorem sparingRule_sweeping (ids : List ℕ) {side : Side} :
    SparingRule c (fillCallback (strategy cfg) 1) side
      (fun o e => Watching o.orderId e.env.strategy ∧
        Sweeping ids (e.book.matchQueue side o.price) o e)
      (fun idx o e => Watching o.orderId e.env.strategy ∧ idx < c.numLevels ∧
        Sweeping ids (e.book.queueFrom side o.price idx) o e) := by
  refine sparingRule_filled ?_ ?_ ?_
  · intro o e hb hc h hg
    rw [matchQueue_of_guard hg] at h
    exact ⟨hc ▸ hb.cached _ hg.2.1, h⟩
  · rintro idx o n rest rest' e e' hb - ⟨hidx, h⟩ hfront hq hfill hb' hfront'
    refine ⟨hidx, ?_⟩
    have hn : n ∈ (e.book.levels side.opp idx).orders := by rw [hfront]; exact List.mem_cons_self
    have hn' : n ∈ (e'.book.levels side.opp idx).orders := by
      rw [hfront']; exact List.mem_cons_self
    have hpos := hb.coherent.positive hn
    generalize htail : rest ++ e.book.queueBeyond side o.price idx = tail
    have hqueue : e.book.queueFrom side o.price idx = n :: tail :=
      htail ▸ queueFrom_eq_cons hfront
    have hwhole := h.whole
    rw [hqueue] at hwhole
    cases hfill with
    | other _ hbook hids =>
      have hw := hb.coherent.restsWithin_settleFront (q := min o.quantity n.order.quantity) hfront
        (by omega)
      have hst : IsQuote e'.env.strategy = IsQuote e.env.strategy := by
        funext m
        simp only [IsQuote, hids.quotes]
      rw [hbook]
      refine ⟨h.located.settleFront hb.coherent hfront, (h.covered.within hw).congr hids.quotes,
        h.paired.congr hids.quotes, fun s hs => ?_, ?_⟩
      · rw [World.env_withBook, hids.quotes] at hs ⊢
        exact h.recorded s hs
      · show ¬ EndsInside (IsQuote e'.env.strategy) _ (o.quantity - min _ _)
        rw [hst, World.book_withBook]
        show ¬ EndsInside _ (queueFrom _ side o.price idx) _
        rw [queueFrom_settleFront hb.coherent hfront, hqueue]
        refine not_endsInside_queueAfter (fun m hm => ?_) hwhole
        exact hb.coherent.positive_of_mem_queueFrom (hqueue ▸ List.mem_cons_of_mem _ hm)
    | quote s hns hs hcancel hids =>
      obtain ⟨ok, hc⟩ := hcancel
      -- the quote is filled completely
      have hfull : n.order.quantity ≤ o.quantity := by
        by_contra hlt
        exact hwhole (Or.inl ⟨⟨s, hs, hns⟩, hq, not_le.mp hlt⟩)
      have hopp := h.recorded _ (h.paired s hs).1
      have hzero : ∀ t, quoteId e'.env.strategy t = 0 := hids.quotes
      have hside : side.opp = s := by
        refine (Side.eq_or_eq_opp s side.opp).resolve_right fun hne => (h.paired s hs).2 ?_
        rw [← hns, ← hne]
        exact (h.covered side.opp idx n hn (hns ▸ h.recorded s hs)).symm
      rw [min_eq_right hfull, hb'.coherent.settleFront_full hfront' le_rfl]
      refine ⟨(h.located.cancelOrder hb.coherent hc).unlink hb'.coherent hn', ?_,
        fun t ht => absurd (hzero t) ht, fun t ht => absurd (hzero t) ht,
        not_endsInside_of_noQuotes hzero⟩
      rw [hside] at hn' ⊢
      exact covered_of_pair h.covered hb.coherent h.located hns hopp hc hn' _
  · rintro idx o e hb rfl ⟨hidx, h⟩ hg
    refine ⟨h.located.congr orderMap_leaveLevel fun _ => levels_leaveLevel,
      h.covered.within (restsWithin_of_levels fun _ => levels_leaveLevel), h.paired, h.recorded, ?_⟩
    rw [World.book_withBook]
    rcases matchQueue_leaveLevel hb.coherent hidx hg with hqueue | hq
    · rw [hqueue]
      exact h.whole
    · exact not_endsInside_of_nonpos
        (fun n hn => (hb.leaveLevel hidx).coherent.positive_of_mem_matchQueue hn) hq

/-- The orders of the strategy that rest are the recorded quotes. -/
structure Owning (e : TradingEngine (SpreadState F)) : Prop where
  sound : Sound e.book
  restingIn : RestingIn (usedIds e.env.journal) e.book
  located : LocatedOn (· ∈ ownIds e.env.journal) e.book
  covered : Covered (ownIds e.env.journal) e.env.strategy e.book
  paired : Paired e.env.strategy
  recorded : ∀ s, quoteId e.env.strategy s ≠ 0 → quoteId e.env.strategy s ∈ ownIds e.env.journal
  zero : 0 ∉ ownIds e.env.journal

omit [DoubleOps F] in
theorem Owning.congr (h : Owning e) (hbook : e'.book = e.book)
    (hused : usedIds e.env.journal ⊆ usedIds e'.env.journal)
    (hown : ownIds e'.env.journal = ownIds e.env.journal)
    (hids : ∀ s, quoteId e'.env.strategy s = quoteId e.env.strategy s) : Owning e' := by
  constructor
  case sound => rw [hbook]; exact h.sound
  case restingIn => rw [hbook]; exact fun s i n hn => hused (h.restingIn s i n hn)
  case located => rw [hbook, hown]; exact h.located
  case covered => rw [hbook, hown]; exact h.covered.congr hids
  case paired => exact h.paired.congr hids
  case recorded => simp only [hids, hown]; exact h.recorded
  case zero => rw [hown]; exact h.zero

omit [DoubleOps F] in
theorem Owning.cancelOrder {id : ℕ} {r : Bool} (h : Owning e)
    (hc : e.book.cancelOrder id = .ok (r, b)) : Owning (e.withBook b) := by
  have hw := (restsWithin_cancelOrder h.sound.coherent hc).1
  exact ⟨h.sound.cancelOrder hc, h.restingIn.within hw, h.located.cancelOrder h.sound.coherent hc,
    h.covered.within hw, h.paired, h.recorded, h.zero⟩

/-- **An order from outside** that is not the strategy's and does not fill a recorded quote in
part. -/
theorem Owning.submit (h : Owning e)
    (hok : e.Passes o → o.type ≠ .cancel → o.orderId ∉ ownIds e.env.journal ∧
      ¬ EndsInside (IsQuote e.env.strategy) (e.book.matchQueue o.side o.price) o.quantity)
    (hret : e.submitOrder (fillCallback (strategy cfg) fuel) fuel false o = .ok e') :
    Owning e' := by
  have hids := ids_submitOrder (noSubmit_onFill cfg) hret
  have hused : usedIds e.env.journal ⊆ usedIds e'.env.journal := by
    rw [hids.1]
    exact usedIds_subset_append _ _
  have hown : ownIds e'.env.journal = ownIds e.env.journal := by
    rw [hids.2, ownIds_append_outside]
  rcases of_submitOrder_eq_ok (noSubmit_onFill cfg) hret with
    ⟨-, rfl⟩ | ⟨hp, -, r, b, hc, rfl⟩ | ⟨hp, htype, hadd⟩
  · exact h.congr rfl hused hown fun _ => rfl
  · exact (h.cancelOrder hc).congr rfl hused hown fun s => by
      rw [World.env_withBook, strategy_admitted, World.env_withBook]
  · obtain ⟨hid, hwhole⟩ := hok hp htype
    have hst := strategy_admitted false o e
    have hbook := book_admitted false o e
    obtain ⟨hb, q, w, rfl, -, ⟨hw, -, hsweep⟩, -⟩ :=
      ((sparingRule_sweeping (ownIds e.env.journal)).within e.book).of_addOrder_eq_ok
        (by rw [hbook]; exact h.sound) rfl ⟨by rw [hbook]; exact RestsWithin.refl _, by
          rw [hst]
          exact ⟨fun s hs he => hid (he ▸ h.recorded s hs), h.paired⟩, by
          rw [hbook]
          constructor
          case located => rw [hbook]; exact h.located
          case covered => rw [hbook, hst]; exact h.covered
          case paired => rw [hst]; exact h.paired
          case recorded => rw [hst]; exact h.recorded
          case whole => rw [hst]; exact hwhole⟩ htype hadd
    constructor
    case sound => exact hb
    case paired => rw [env_afterMatch]; exact hsweep.paired
    case recorded => rw [hown, env_afterMatch]; exact hsweep.recorded
    case zero => rw [hown]; exact h.zero
    case restingIn =>
      rw [hids.1]
      exact restingIn_afterMatch (h.restingIn.within hw) false htype
    case located =>
      rw [hown]
      exact hsweep.located.afterMatch fun _ hmem => absurd hmem hid
    case covered =>
      rw [hown, env_afterMatch, afterMatch]
      split
      · exact hsweep.covered.join hid
      · exact hsweep.covered

/-! ### New quotes -/

/-- What holds inside `on_tick`, when the first of two orders is live and its id is not recorded. -/
structure Unrecorded (e : TradingEngine (SpreadState F)) : Prop where
  sound : Sound e.book
  restingIn : RestingIn (usedIds e.env.journal) e.book
  located : LocatedOn (· ∈ ownIds e.env.journal) e.book
  zero : 0 ∉ ownIds e.env.journal
  noQuotes : ∀ s, quoteId e.env.strategy s = 0

omit [DoubleOps F] in
theorem Unrecorded.advanced (h : Unrecorded e) : Unrecorded (advance e) :=
  ⟨h.sound, h.restingIn, h.located, h.zero, quoteId_eq_zero (h.noQuotes .buy) (h.noQuotes .sell)⟩

/-- **An order of the strategy**, while no quote is recorded. What rests afterwards has rested
before, or is the order itself. -/
theorem Unrecorded.submit (h : Unrecorded e) (hid : o.orderId ∉ 0 :: usedIds e.env.journal)
    (hlimit : o.type = .limit)
    (hret : e.submitOrder (fillCallback (strategy cfg) fuel) fuel true o = .ok e') :
    Unrecorded e' ∧ ownIds e'.env.journal = ownIds e.env.journal ++ [o.orderId] ∧
      ∀ s i, ∀ n ∈ (e'.book.levels s i).orders,
        (∃ m ∈ (e.book.levels s i).orders, n.order.orderId = m.order.orderId) ∨
          (s = o.side ∧ n.order.orderId = o.orderId) := by
  rw [List.mem_cons, not_or] at hid
  have htype : o.type ≠ .cancel := by rw [hlimit]; decide
  have hids := ids_submitOrder (noSubmit_onFill cfg) hret
  have hused : usedIds e.env.journal ⊆ usedIds e'.env.journal := by
    rw [hids.1]
    exact usedIds_subset_append _ _
  have hown : ownIds e'.env.journal = ownIds e.env.journal ++ [o.orderId] := by
    rw [hids.2, ownIds_append]
    simp [ownIds, htype]
  have hzero : 0 ∉ ownIds e'.env.journal := by
    rw [hown, List.mem_append, not_or, List.mem_singleton]
    exact ⟨h.zero, fun h0 => hid.1 h0.symm⟩
  have hlocated : LocatedOn (· ∈ ownIds e'.env.journal) e.book := by
    intro s i n hn hmem
    rw [hown, List.mem_append, List.mem_singleton] at hmem
    exact h.located s i n hn (hmem.resolve_right fun he =>
      h.restingIn.notResting hid.2 s i n hn he)
  rcases of_submitOrder_eq_ok (noSubmit_onFill cfg) hret with
    ⟨-, rfl⟩ | ⟨-, hcancel, -⟩ | ⟨-, -, hadd⟩
  · exact ⟨⟨h.sound, fun s i n hn => hused (h.restingIn s i n hn), hlocated, hzero, h.noQuotes⟩,
      hown, fun s i n hn => Or.inl ⟨n, hn, rfl⟩⟩
  · exact absurd hcancel htype
  have hst := strategy_admitted true o e
  have hbook := book_admitted true o e
  obtain ⟨hb, q, w, heq, -, ⟨hw, hl, -, hf⟩, -⟩ :=
    (((sparingRule_forgets cfg e.env.strategy).located
      (· ∈ ownIds e'.env.journal)).within e.book).of_addOrder_eq_ok (by rw [hbook]; exact h.sound)
      rfl ⟨by rw [hbook]; exact RestsWithin.refl _, by rw [hbook]; exact hlocated,
        by rw [hst]; exact watching_of_noQuotes h.noQuotes,
        by rw [hst]; exact Or.inl (SameIds.refl _)⟩ htype hadd
  have hbook' : e'.book = w.book ∨ e'.book = w.book.join (o.withQuantity q) := by
    rw [heq, afterMatch]
    split
    · exact Or.inr rfl
    · exact Or.inl rfl
  have hnone : NoQuotes e'.env.strategy e.env.strategy := by
    rw [heq, env_afterMatch]
    exact hf.noQuotes h.noQuotes
  have hresting : RestingIn (usedIds e'.env.journal) e'.book := by
    rw [hids.1, heq]
    exact restingIn_afterMatch (h.restingIn.within hw) true htype
  refine ⟨⟨hb, hresting, ?_, hzero, hnone.quotes⟩, hown, fun s i n hn => ?_⟩
  · have hl' := hl.afterMatch (o := o.withQuantity q) fun _ _ =>
      (h.restingIn.within hw).notResting hid.2
    rwa [← heq] at hl'
  · have hold : n ∈ (w.book.levels s i).orders →
        ∃ m ∈ (e.book.levels s i).orders, n.order.orderId = m.order.orderId := by
      intro hn
      obtain ⟨m, hm, q, -, rfl⟩ := hw s i n hn
      exact ⟨m, hm, rfl⟩
    rcases hbook' with hbook' | hbook'
    · rw [hbook'] at hn
      exact Or.inl (hold hn)
    · rw [hbook', levels_join] at hn
      rcases mem_link.mp hn with hn | ⟨rfl, rfl, rfl⟩
      · exact Or.inl (hold hn)
      · exact Or.inr ⟨rfl, rfl⟩

/-! ### The programs of the strategy -/

/-- What `quote` adds to the book and to the journal: two new ids, and at most the two orders. -/
structure NewPair (e e' : TradingEngine (SpreadState F)) : Prop where
  sound : Sound e'.book
  restingIn : RestingIn (usedIds e'.env.journal) e'.book
  located : LocatedOn (· ∈ ownIds e'.env.journal) e'.book
  zero : 0 ∉ ownIds e'.env.journal
  paired : Paired e'.env.strategy
  recorded : ∀ s, quoteId e'.env.strategy s ∈ ownIds e'.env.journal
  fresh : ∀ s, quoteId e'.env.strategy s ∉ usedIds e.env.journal
  own : ∀ id ∈ ownIds e'.env.journal,
    id ∈ ownIds e.env.journal ∨ ∃ s, id = quoteId e'.env.strategy s
  resting : ∀ s i, ∀ n ∈ (e'.book.levels s i).orders,
    (∃ m ∈ (e.book.levels s i).orders, n.order.orderId = m.order.orderId) ∨
      n.order.orderId = quoteId e'.env.strategy s

/-- **Quoting**, with two new ids. -/
theorem Unrecorded.quote {buyPx sellPx : ℤ} {r : Unit × TradingEngine (SpreadState F)}
    (h : Unrecorded e)
    (hok : Along (strategy cfg) (fun o e => o.orderId ∉ 0 :: usedIds e.env.journal)
      (quote cfg buyPx sellPx) e)
    (hret : interp (fillCallback (strategy cfg) fuel) fuel (quote cfg buyPx sellPx) e = .ok r) :
    NewPair e r.2 := by
  obtain ⟨e₁, e₂, h₁, h₂, hr⟩ := of_interp_quote_eq_ok hret
  obtain ⟨hbid, hask⟩ := along_quote.mp hok
  replace hask := hask fuel e₁ h₁
  obtain ⟨hun₁, hown₁, hmem₁⟩ := h.advanced.submit hbid rfl h₁
  obtain ⟨hun₂, hown₂, hmem₂⟩ := hun₁.advanced.submit hask rfl h₂
  have hids₁ := (ids_submitOrder (noSubmit_onFill cfg) h₁).1
  rw [List.mem_cons, not_or] at hbid hask
  have hbid₁ : (advance e).env.strategy.nextId ∈ ownIds e₁.env.journal := by
    rw [hown₁]
    exact List.mem_append_right _ List.mem_cons_self
  have hne : (advance e₁).env.strategy.nextId ≠ (advance e).env.strategy.nextId := by
    intro he
    have hfresh : (advance e₁).env.strategy.nextId ∉ usedIds e₁.env.journal := hask.2
    exact hfresh (he ▸ ownIds_subset_usedIds _ hbid₁)
  rw [hr]
  constructor
  case sound => exact hun₂.sound
  case restingIn => exact hun₂.restingIn
  case located => exact hun₂.located
  case zero => exact hun₂.zero
  case paired =>
    intro s _
    cases s with
    | buy => exact ⟨fun h0 => hask.1 h0, hne⟩
    | sell => exact ⟨fun h0 => hbid.1 h0, hne.symm⟩
  case recorded =>
    show ∀ s, _ ∈ ownIds e₂.env.journal
    rw [hown₂]
    intro s
    cases s with
    | buy => exact List.mem_append_left _ hbid₁
    | sell => exact List.mem_append_right _ List.mem_cons_self
  case fresh =>
    intro s
    cases s with
    | buy => exact hbid.2
    | sell =>
      intro hmem
      refine hask.2 ?_
      show _ ∈ usedIds e₁.env.journal
      rw [hids₁, usedIds_append]
      exact List.mem_append_left _ hmem
  case own =>
    show ∀ id ∈ ownIds e₂.env.journal, _
    rw [hown₂]
    intro id hid
    rcases List.mem_append.mp hid with hid | hid
    · have hid : id ∈ ownIds e₁.env.journal := hid
      rw [hown₁] at hid
      rcases List.mem_append.mp hid with hid | hid
      · exact Or.inl hid
      · exact Or.inr ⟨.buy, List.mem_singleton.mp hid⟩
    · exact Or.inr ⟨.sell, List.mem_singleton.mp hid⟩
  case resting =>
    intro s i n hn
    rcases hmem₂ s i n hn with ⟨m, hm, hnm⟩ | ⟨rfl, hid⟩
    · rcases hmem₁ s i m hm with ⟨k, hk, hmk⟩ | ⟨rfl, hid⟩
      · exact Or.inl ⟨k, hk, hnm.trans hmk⟩
      · exact Or.inr (hnm.trans hid)
    · exact Or.inr hid

theorem Owning.quote {buyPx sellPx : ℤ} {r : Unit × TradingEngine (SpreadState F)} (h : Owning e)
    (hzero : ∀ s, quoteId e.env.strategy s = 0)
    (hok : Along (strategy cfg) (fun o e => o.orderId ∉ 0 :: usedIds e.env.journal)
      (quote cfg buyPx sellPx) e)
    (hret : interp (fillCallback (strategy cfg) fuel) fuel (quote cfg buyPx sellPx) e = .ok r) :
    Owning r.2 := by
  have hun : Unrecorded e := ⟨h.sound, h.restingIn, h.located, h.zero, hzero⟩
  have hnew := hun.quote hok hret
  refine ⟨hnew.sound, hnew.restingIn, hnew.located, fun s i n hn hmem => ?_, hnew.paired,
    fun s _ => hnew.recorded s, hnew.zero⟩
  refine (hnew.resting s i n hn).resolve_left ?_
  -- what rested before is not the strategy's
  rintro ⟨m, hm, hnm⟩
  rcases hnew.own _ hmem with hown | ⟨t, ht⟩
  · exact h.covered.notMem hzero h.zero hm (hnm ▸ hown)
  · exact hnew.fresh t (ht ▸ hnm ▸ h.restingIn s i m hm)

omit [DoubleOps F] in
/-- What pulling a quote leaves of the orders in question. -/
theorem Pulled.located {id : ℕ} (h : Pulled b id b') (hb : Coherent b)
    (hl : LocatedOn (· ∈ ids) b) (hid : id ≠ 0 → id ∈ ids) (h0 : 0 ∉ ids) :
    RestsWithin b' b ∧ LocatedOn (· ∈ ids) b' ∧
      ∀ s i, ∀ n ∈ (b'.levels s i).orders, n.order.orderId ∈ ids → n.order.orderId ≠ id := by
  rcases h with ⟨rfl, rfl⟩ | ⟨hne, ok, hc⟩
  · exact ⟨RestsWithin.refl _, hl, fun s i n _ hmem he => h0 (he ▸ hmem)⟩
  · exact ⟨(restsWithin_cancelOrder hb hc).1, hl.cancelOrder hb hc,
      fun s i n hn _ => hl.notResting_cancelOrder hb (hid hne) hc s i n hn⟩

theorem Owning.cancelRestingQuotes {r : Unit × TradingEngine (SpreadState F)} (h : Owning e)
    (hret : interp (fillCallback (strategy cfg) fuel) fuel cancelRestingQuotes e = .ok r) :
    Owning r.2 := by
  obtain ⟨e', b, hrun, hp, hp', hids, hj⟩ := exists_interp_cancelRestingQuotes h.sound.coherent
  rw [hrun] at hret
  cases hret
  obtain ⟨hw, hl, hbid⟩ := hp.located h.sound.coherent h.located (h.recorded .buy) h.zero
  have hb : Coherent b := hp.induction Coherent.cancelOrder h.sound.coherent
  obtain ⟨hw', hl', hask⟩ := hp'.located hb hl (h.recorded .sell) h.zero
  constructor
  case sound => exact hp'.induction Sound.cancelOrder (hp.induction Sound.cancelOrder h.sound)
  case restingIn => rw [hj]; exact h.restingIn.within (hw'.trans hw)
  case located => rw [hj]; exact hl'
  case paired => exact fun s hs => absurd (hids.quotes s) hs
  case recorded => exact fun s hs => absurd (hids.quotes s) hs
  case zero => rw [hj]; exact h.zero
  case covered =>
    rw [hj]
    intro s i n hn hmem
    have hid := h.covered.within (hw'.trans hw) s i n hn hmem
    cases s with
    | sell => exact absurd hid (hask _ i n hn hmem)
    | buy =>
      obtain ⟨m, hm, q, -, rfl⟩ := hw' _ i n hn
      exact absurd hid (hbid _ i m hm hmem)

theorem Owning.onTick {tick : MarketTick} {r : Unit × TradingEngine (SpreadState F)} (h : Owning e)
    (hok : Along (strategy cfg) (fun o e => o.orderId ∉ 0 :: usedIds e.env.journal)
      (onTick cfg tick) e)
    (hret : interp (fillCallback (strategy cfg) fuel) fuel (onTick cfg tick) e = .ok r) :
    Owning r.2 := by
  obtain ⟨st, hids, hrun | ⟨hzero, buyPx, sellPx, hrun, halong⟩⟩ := interp_onTick cfg tick e
  · rw [hrun] at hret
    cases hret
    exact h.congr rfl (List.Subset.refl _) rfl hids.quotes
  · rw [hrun] at hret
    have h' : Owning (e.setStrategy st) := h.congr rfl (List.Subset.refl _) rfl hids.quotes
    exact h'.quote hzero (halong _ _ hok) hret

end SpreadStrategy

/-! ### Runs -/

namespace TradingEngine

/-- The ids of the strategy's orders are new and not zero, other orders have other ids and do not
fill a recorded quote in part, and the only method of the strategy that is called from outside is
`cancel_resting_quotes`. -/
def Conditions.whole {F : Type} : Conditions (SpreadState F) where
  submit own o e := match own with
    | true => o.orderId ∉ 0 :: usedIds e.env.journal
    | false => e.Passes o → o.type ≠ .cancel → o.orderId ∉ ownIds e.env.journal ∧
        ¬ OrderBook.EndsInside (SpreadStrategy.IsQuote e.env.strategy)
          (e.book.matchQueue o.side o.price) o.quantity
  invoke p := p = SpreadStrategy.cancelRestingQuotes

end TradingEngine

namespace SpreadStrategy

open TradingEngine OrderBook

variable {F : Type} [DoubleOps F]

/-- **No orphans**, in every run in which no recorded quote is filled in part: an order of the
strategy that rests is the recorded quote of its side, and so there is at most one on each side. -/
theorem eq_quoteId_of_whole (cfg : SpreadStrategyConfig F) (c : OrderBookConfig)
    (riskConfig : RiskConfig) (clock : ℕ → ℤ) (ops : List (EngineOp (SpreadState F)))
    (hops : Meets (strategy cfg) Conditions.whole ops (new c riskConfig initial clock)) (fuel : ℕ)
    (e : TradingEngine (SpreadState F))
    (h : run (strategy cfg) ops fuel (new c riskConfig initial clock) = .ok e) :
    (∀ s i, ∀ n ∈ (e.book.levels s i).orders, n.order.orderId ∈ ownIds e.env.journal →
      quoteId e.env.strategy s ≠ 0 ∧ n.order.orderId = quoteId e.env.strategy s) ∧
    (∀ s i j, ∀ n ∈ (e.book.levels s i).orders, ∀ m ∈ (e.book.levels s j).orders,
      n.order.orderId ∈ ownIds e.env.journal → m.order.orderId ∈ ownIds e.env.journal → n = m) := by
  have hnew : Owning (new c riskConfig (initial (F := F)) clock) := by
    refine ⟨sound_new c, restingIn_new c, locatedOn_new c, fun s i n hn => ?_,
      fun s hs => absurd (quoteId_eq_zero rfl rfl s) hs,
      fun s hs => absurd (quoteId_eq_zero rfl rfl s) hs, List.not_mem_nil⟩
    have hn : n ∈ ((OrderBook.new c).levels s i).orders := hn
    rw [orders_new] at hn
    cases hn
  have hown : Owning e := run_induction (C := Conditions.whole) (I := Owning)
    (fun hq h => h.congr hq.book (by rw [hq.journal]; exact List.Subset.refl _)
      (by rw [hq.journal]) fun s => by rw [hq.strategy])
    (fun h hok hret => h.submit hok hret)
    (fun h _ hret => by
      obtain ⟨r, b, hc, rfl⟩ := of_cancelOrder_eq_ok hret
      exact (h.cancelOrder hc).congr rfl (List.Subset.refl _) rfl fun _ => rfl)
    (fun h hp hok hret => by
      rcases hp with ⟨tick, rfl⟩ | hp
      · exact h.onTick hok hret
      · rw [show _ = _ from hp] at hret
        exact h.cancelRestingQuotes hret) hnew hops h
  refine ⟨fun s i n hn hid => ?_, fun s i j n hn m hm hid hid' => ?_⟩
  · have heq := hown.covered s i n hn hid
    exact ⟨fun h0 => hown.zero (h0 ▸ heq ▸ hid), heq⟩
  · have heq := (hown.covered s i n hn hid).trans (hown.covered s j m hm hid').symm
    exact (hown.located.eq_of_orderId hown.sound.coherent hn hm heq hid').2.2

theorem meets_whole_quoteTick : Meets (strategy .defaults) Conditions.whole
    [.pushTick quoteTick, .runOnce] spreadEngine := by
  have hnew : (nextQuote .defaults 8 .buy (advance quotingEngine)).orderId ∉
      0 :: usedIds (advance quotingEngine).env.journal ∧ ∃ e, (advance quotingEngine).submitOrder
        (fillCallback (strategy .defaults) 3) 3 true
        (nextQuote .defaults 8 .buy (advance quotingEngine)) = .ok e ∧
        (nextQuote .defaults 12 .sell (advance e)).orderId ∉
          0 :: usedIds (advance e).env.journal := by decide +kernel
  exact meets_quoteTick_of hnew.1 hnew.2

/-- Somebody sells as much as the strategy bids for. -/
theorem eq_quoteId_of_whole_takeBid : ∃ e,
    run (strategy .defaults) [.pushTick quoteTick, .runOnce,
      .submitOrder ⟨7, 1, 8, 10, .sell, .limit⟩] 4 spreadEngine = .ok e ∧
    (∀ s i, ∀ n ∈ (e.book.levels s i).orders, n.order.orderId ∈ ownIds e.env.journal →
      quoteId e.env.strategy s ≠ 0 ∧ n.order.orderId = quoteId e.env.strategy s) ∧
    (∀ s i j, ∀ n ∈ (e.book.levels s i).orders, ∀ m ∈ (e.book.levels s j).orders,
      n.order.orderId ∈ ownIds e.env.journal → m.order.orderId ∈ ownIds e.env.journal →
        n = m) := by
  have hops : Meets (strategy .defaults) Conditions.whole [.pushTick quoteTick, .runOnce,
      .submitOrder ⟨7, 1, 8, 10, .sell, .limit⟩] spreadEngine := by
    refine ⟨trivial, fun fuel e he => ⟨(meets_whole_quoteTick.2 fuel e he).1, fun fuel' e' he' =>
      ⟨fun _ _ => ?_, fun _ _ _ => trivial⟩⟩⟩
    exact of_exists_run_quoteTick (P := fun e => 7 ∉ ownIds e.env.journal ∧
      ¬ EndsInside (IsQuote e.env.strategy) (e.book.matchQueue .sell 8) 10) (by decide +kernel)
      he he'
  obtain ⟨e, he, -⟩ : ∃ e, run (strategy .defaults) [.pushTick quoteTick, .runOnce,
      .submitOrder ⟨7, 1, 8, 10, .sell, .limit⟩] 4 spreadEngine = .ok e ∧ True := by
    decide +kernel
  exact ⟨e, he, eq_quoteId_of_whole .defaults _ _ _ _ hops 4 e he⟩

/-- **An orphan.** Somebody sells four of the ten lots the strategy bids for. It forgets the bid,
the other six lots of which still rest, and the next tick adds another bid to it. -/
theorem restsOn_orphan : ∃ e,
    run (strategy .defaults) [.pushTick quoteTick, .runOnce,
      .submitOrder ⟨7, 1, 8, 4, .sell, .limit⟩, .pushTick quoteTick, .runOnce] 4 spreadEngine =
        .ok e ∧
    ownIds e.env.journal = [1, 2, 3, 4] ∧ e.book.RestsOn .buy 1 ∧ e.book.RestsOn .buy 3 ∧
      e.env.strategy.bidOrderId = 3 ∧ e.env.strategy.askOrderId = 4 := by
  decide +kernel

end SpreadStrategy

end MiniTrader
