import MiniTrader.OrderBook.Parametric
import MiniTrader.OrderBook.Reference

/-!
# The book as an exchange whose listeners cancel

`Reference` is a book that nobody listens to: a call computes all its fills at once. Here the
listener acts in the middle of a match. After each of the two reports of a fill it may take other
orders out of the book, and the next fill is with whatever is best then.

`Exchange` says what that means without levels, caches, iterators or an id map: one list of open
orders, and after each fill the best opposite order is looked for again in the whole list. It never
faults. The book follows it as long as the book returns at all: a callback that cancels the order
that is being filled makes `match` read a node that is gone, so a match that returns has been
through callbacks that spare it (`Cancels.spares`).

## Main definitions

* `Exchange`, `Exchange.fillBest`, `Exchange.addOrder`, `Exchange.step`
* `Shows`, `Lockstep` — the simulation relation; `Follows` — callbacks that keep it

## Main results

* `opposite_of_tidyAt` — the front order of the level being swept is the best order
* `Lockstep.matchOrder`, `Lockstep.addOrder`, `Shows.cancelOrder`
* `observes_of_wellFormed` — market orders and every callback that only looks
-/

namespace MiniTrader

open Fuelled

/-! ### The exchange -/

/-- The open orders in order of arrival, and whatever else the listener can see. -/
structure Exchange (ε : Type) where
  live : List Order
  env : ε

/-- What a listener of an exchange does on a report. -/
abbrev Exchange.Listener (ε : Type) := ExecutionReport → Exchange ε → Exchange ε

namespace Exchange

variable {ε : Type}

/-- The naive book with the same open orders. -/
def reference (x : Exchange ε) : Reference := ⟨x.live, [], []⟩

/-- One fill: the listener hears of both reports, and then the fill is settled. -/
def fill (listener : Listener ε) (o m : Order) (x : Exchange ε) : Exchange ε :=
  let q := min o.quantity m.quantity
  let x := listener ⟨o.orderId, m.orderId, m.price, q, o.side, false⟩ x
  let x := listener ⟨m.orderId, o.orderId, m.price, q, o.side.opp, true⟩ x
  { x with live := Reference.settle x.live (m, q) }

/-- The incoming order trades with the best opposite order, if there is one. -/
def fillBest (listener : Listener ε) (s : Order × Exchange ε) : Order × Exchange ε :=
  match s.2.reference.opposite s.1.side s.1.price with
  | [] => s
  | m :: _ =>
    if 0 < s.1.quantity then
      (s.1.withQuantity (s.1.quantity - min s.1.quantity m.quantity), s.2.fill listener s.1 m)
    else s

/-- Taking an order out. -/
def remove (orderId : ℕ) (x : Exchange ε) : Exchange ε :=
  { x with live := x.live.filter fun o => o.orderId ≠ orderId }

/-- Whether the order is open. -/
def isOpen (orderId : ℕ) (x : Exchange ε) : Bool := x.live.any fun o => o.orderId = orderId

/-- An incoming order: as many fills as there are, and the remainder of a limit order stays. Every
fill is of one unit at least. -/
def addOrder (listener : Listener ε) (o : Order) (x : Exchange ε) : Exchange ε :=
  if o.type = .cancel then x.remove o.orderId
  else
    let s := (fillBest listener)^[o.quantity.toNat] (o, x)
    if 0 < s.1.quantity ∧ s.1.type = .limit then { s.2 with live := s.2.live ++ [s.1] } else s.2

/-! ### Counting fills -/

variable {listener : Listener ε} {s₀ s s' : Order × Exchange ε}

/-- `s` comes after some fills of `s₀`, each of one unit at least. -/
def Filling (listener : Listener ε) (s₀ s : Order × Exchange ε) : Prop :=
  ∃ k, (fillBest listener)^[k] s₀ = s ∧ k + s.1.quantity.toNat ≤ s₀.1.quantity.toNat

theorem Filling.refl (listener : Listener ε) (s : Order × Exchange ε) : Filling listener s s :=
  ⟨0, rfl, by omega⟩

theorem Filling.step (h : Filling listener s₀ s) (hs : fillBest listener s = s')
    (hnn : 0 ≤ s'.1.quantity) (hlt : s'.1.quantity < s.1.quantity) : Filling listener s₀ s' := by
  obtain ⟨k, hk, hle⟩ := h
  refine ⟨k + 1, ?_, by omega⟩
  rw [Function.iterate_succ_apply', hk, hs]

/-- Where nothing is left to fill, all the fills have been made. -/
theorem Filling.iterate_eq (h : Filling listener s₀ s) (hs : fillBest listener s = s) :
    (fillBest listener)^[s₀.1.quantity.toNat] s₀ = s := by
  obtain ⟨k, hk, hle⟩ := h
  have hsum : s₀.1.quantity.toNat = (s₀.1.quantity.toNat - k) + k := by omega
  rw [hsum, Function.iterate_add_apply, hk]
  exact Function.iterate_fixed hs _

end Exchange

namespace OrderBook

variable {ε : Type} {b b' b₀ : OrderBook} {s t side : Side} {i j idx : ℕ} {n m : Node}
  {c : OrderBookConfig} {used : List ℕ} {o o' o₀ : Order} {w w' : World ε} {x x₀ : Exchange ε}

/-! ### Callbacks that submit nothing -/

/-- **What can still be read has not been cancelled.** -/
theorem Cancels.spares (h : Cancels b b') (hb : Coherent b) (hl : Located b)
    (hn : n ∈ (b.levels s i).orders) {resting : Order}
    (hread : b'.readResting s i n.handle = .ok resting) :
    CancelsOthers n.order.orderId b b' := by
  induction h using Relation.ReflTransGen.head_induction_on with
  | refl => exact CancelsOthers.refl _ _
  | @head b b₁ hcancel hrest ih =>
    obtain ⟨id', r, hc⟩ := hcancel
    have hb₁ := hb.cancelOrder hc
    by_cases hne : id' = n.order.orderId
    · exfalso
      subst hne
      obtain ⟨m, hm, hh, -⟩ := exists_of_readResting_eq_ok hread
      have hm₁ := ((Cancels.sublist hrest hb₁).2 s i).subset hm
      have hm₀ := (hb.sublist_cancelOrder hc s i).subset hm₁
      obtain rfl : m = n := PriceLevel.eq_of_handle_eq (hb.nodup s i) hm₀ hn hh
      exact hl.notResting_cancelOrder hb trivial hc s i m hm₁ rfl
    · have hs : CancelsOthers n.order.orderId b b₁ := .of_cancelOrder hne hc
      refine hs.trans (ih hb₁ (hl.cancelOrder hb hc) ?_)
      rcases hb.exists_cancelOrder id' with ⟨-, hc'⟩ | ⟨t, j, m, hm, rfl, hc'⟩
      · rw [hc'] at hc
        cases hc
        exact hn
      · rw [hc'] at hc
        cases hc
        rw [levels_refreshBest]
        exact (hb.mem_unlink hm).mpr ⟨hn, fun he => hne (he ▸ rfl)⟩

/-! ### The simulation relation -/

/-- The book holds the open orders of the exchange, and the listener has seen the same. -/
structure Shows (w : World ε) (x : Exchange ε) : Prop where
  represents : Represents w.book x.live
  env : w.env = x.env

/-- A callback that cancels what the listener takes out. -/
def Follows (cb : FillCallback ε) (listener : Exchange.Listener ε) : Prop :=
  ∀ r w x w', Coherent w.book → Located w.book → Shows w x → cb r w = .ok w' →
    Cancels w.book w'.book ∧ Shows w' (listener r x)

/-- Between calls. -/
structure Lockstep (c : OrderBookConfig) (used : List ℕ) (w : World ε) (x : Exchange ε) :
    Prop where
  reaches : Reaches c used w.book
  shows : Shows w x

/-- In the middle of the sweep of a level. -/
structure Midway (c : OrderBookConfig) (used : List ℕ) (side : Side) (idx : ℕ) (o : Order)
    (w : World ε) (x : Exchange ε) : Prop where
  sound : Sound w.book
  located : Located w.book
  config_eq : w.book.config = c
  restingIn : RestingIn used w.book
  tidyAt : TidyAt w.book side idx
  side_eq : o.side = side
  crosses : side.Crosses o.price (c.priceAt idx)
  shows : Shows w x

/-! ### One fill -/

/-- While the level is occupied its front order is at the best price. -/
theorem TidyAt.tidy (h : TidyAt b side idx) (hocc : Occupied b side.opp idx) : Tidy b := by
  refine ⟨h.aligned, fun t => ?_, h.uncrossed⟩
  rcases Side.eq_or_eq_opp side t with rfl | rfl
  · exact h.best
  · exact Or.inr ⟨idx, h.front, hocc⟩

/-- **The front order of the level being swept** is the one the exchange would choose. -/
theorem opposite_of_tidyAt {rest : List Node} (h : TidyAt b side idx) (hp : b.config.Priced)
    (hb : Coherent b) (hrep : Represents b x.live) {price : ℤ}
    (hcross : side.Crosses price (b.config.priceAt idx))
    (hfront : (b.levels side.opp idx).orders = n :: rest) :
    ∃ ms, x.reference.opposite side price = n.order :: ms := by
  have ht : Tidy b := h.tidy (by rw [Occupied, hfront]; exact List.cons_ne_nil _ _)
  have hq : b.matchQueue side price = b.queueFrom side price idx := by
    rw [matchQueue, h.front.best, b.config.priceToIndex_priceAt h.front.lt,
      if_pos ⟨OrderBookConfig.priceAt_nonneg hp.nonneg idx, hcross⟩]
  have hmap := map_matchQueue (r := x.reference) hrep ht hp hb side price
  rw [hq, queueFrom_eq_cons hfront, List.map_cons] at hmap
  exact ⟨_, hmap.symm⟩

/-- A fill is settled in the open orders. -/
theorem Represents.settleFront {live : List Order} {rest : List Node} {q : ℤ}
    (h : Represents b live) (hb : Coherent b) (hl : Located b)
    (hfront : (b.levels s i).orders = n :: rest) :
    Represents (b.settleFront s i n.order q) (Reference.settle live (n.order, q)) where
  queue t j := by
    rw [map_settleFront hb hl hfront, h.queue, config_settleFront]
    exact (Reference.filter_settle (fun _ _ => rfl) _ _).symm
  grid o ho := by
    obtain ⟨o', ho', he⟩ := Reference.exists_mem_of_mem_settle ho
    rw [config_settleFront, ← he]
    exact h.grid o' ho'

section

variable {cb : FillCallback ε} {listener : Exchange.Listener ε}

/-- **One report.** If the front order can still be read, it is where it was. -/
theorem Midway.report {rest : List Node} {r : ExecutionReport} {resting : Order}
    (h : Midway c used side idx o w x) (hp : c.Priced) (hcb : Follows cb listener)
    (hfront : (w.book.levels side.opp idx).orders = n :: rest) (hw : cb r w = .ok w')
    (hread : w'.book.readResting side.opp idx n.handle = .ok resting) :
    resting = n.order ∧ Midway c used side idx o w' (listener r x) ∧
      w'.book.best side.opp = w.book.best side.opp ∧
      ∃ rest', (w'.book.levels side.opp idx).orders = n :: rest' := by
  have hb := h.sound.coherent
  have hn : n ∈ (w.book.levels side.opp idx).orders := by rw [hfront]; exact List.mem_cons_self
  obtain ⟨hcancels, hshows⟩ := hcb r w x w' hb h.located h.shows hw
  have hs := hcancels.spares hb h.located hn hread
  obtain ⟨rest', hfront', -⟩ := hs.front hb hfront
  have hn' : n ∈ (w'.book.levels side.opp idx).orders := by rw [hfront']; exact List.mem_cons_self
  have hconf := hs.config_eq hb
  have hat := h.tidyAt.cancelsOthers (h.config_eq ▸ hp) hb hfront hs
  refine ⟨?_, ⟨hs.sound h.sound, hs.located hb h.located, hconf.trans h.config_eq,
    h.restingIn.within (hs.restsWithin hb), hat, h.side_eq, h.crosses, hshows⟩, ?_, rest', hfront'⟩
  · rw [(hs.coherent hb).readResting_of_mem hn'] at hread
    cases hread
    rfl
  · rw [hat.front.best, h.tidyAt.front.best, hconf]

/-- **One fill** of the book is one fill of the exchange. -/
theorem Midway.fillFront (h : Midway c used side idx o w x) (hp : c.Priced)
    (hcb : Follows cb listener) (hq : 0 < o.quantity) {t : Order × World ε}
    (ht : OrderBook.fillFront cb side idx (o, w) = .ok t) :
    ∃ x', Exchange.fillBest listener (o, x) = (t.1, x') ∧ Midway c used side idx t.1 t.2 x' ∧
      (∃ q, t.1 = o.withQuantity q) ∧ 0 ≤ t.1.quantity ∧ t.1.quantity < o.quantity := by
  obtain ⟨n, rest, w₁, m₁, w₂, m₂, hfront, h₁, hm₁, h₂, hm₂, rfl⟩ := of_fillFront_eq_ok ht
  have hb := h.sound.coherent
  have hn : n ∈ (w.book.levels side.opp idx).orders := by rw [hfront]; exact List.mem_cons_self
  have hpos := hb.positive hn
  have hprice : w.book.best side.opp = n.order.price := by
    rw [h.tidyAt.front.best, h.tidyAt.aligned _ _ n hn]
  obtain ⟨rfl, h', hbest, rest₁, hfront₁⟩ := h.report hp hcb hfront h₁ hm₁
  obtain ⟨rfl, h'', -, rest₂, hfront₂⟩ := h'.report hp hcb hfront₁ h₂ hm₂
  obtain ⟨ms, hopp⟩ := opposite_of_tidyAt h.tidyAt (h.config_eq ▸ hp) hb h.shows.represents
    (h.config_eq ▸ h.crosses) hfront
  have hb₂ := h''.sound.coherent
  have hmin : 0 ≤ min o.quantity n.order.quantity := le_min hq.le hpos.le
  have hw₂ := hb₂.restsWithin_settleFront hfront₂ hmin
  obtain rfl := h.side_eq
  -- the cached price is the price of the resting order, before both reports
  set y := listener ⟨n.order.orderId, o.orderId, w₁.book.best o.side.opp,
    min o.quantity n.order.quantity, o.side.opp, true⟩ (listener
      (takerReport o.side o n (w.book.best o.side.opp)) x) with hy
  have hfill : x.fill listener o n.order =
      ⟨Reference.settle y.live (n.order, min o.quantity n.order.quantity), y.env⟩ := by
    rw [hy, hbest, takerReport, hprice]
    rfl
  refine ⟨x.fill listener o n.order, ?_, ?_, ⟨_, rfl⟩, ?_, ?_⟩
  · simp only [Exchange.fillBest, hopp, if_pos hq]
  · rw [hfill]
    exact ⟨h''.sound.settleFront hfront₂, h''.located.settleFront hb₂ hfront₂,
      config_settleFront.trans h''.config_eq, h''.restingIn.within hw₂,
      h''.tidyAt.settleFront hb₂ hfront₂ hmin, rfl, h.crosses,
      h''.shows.represents.settleFront hb₂ h''.located hfront₂, h''.shows.env⟩
  · show 0 ≤ o.quantity - min o.quantity n.order.quantity
    omega
  · show o.quantity - min o.quantity n.order.quantity < o.quantity
    omega

/-! ### A match -/

open Exchange in
/-- **The sweep of a level.** -/
theorem Lockstep.sweepLevel {s₀ : Order × Exchange ε} {fuel : ℕ} {t : Order × World ε}
    (h : Lockstep c used w x) (hp : c.Priced) (hcb : Follows cb listener)
    (hx : Filling listener s₀ (o, x)) (hg : MatchGuard o.side (o, w))
    (ht : OrderBook.sweepLevel cb o.side fuel (o, w) = .ok t) :
    ∃ x', Filling listener s₀ (t.1, x') ∧ Lockstep c used t.2 x' ∧ ∃ q, t.1 = o.withQuantity q := by
  obtain ⟨idx, u, hidx, -, hloop, rfl⟩ := of_sweepLevel_eq_ok ht
  have hr := h.reaches
  have hat : TidyAt w.book o.side idx := hidx ▸ (hr.tidy hp).enter hg.2.1
  have hmid : Midway c used o.side idx o w x :=
    ⟨hr.sound, hr.located, hr.config_eq, hr.restingIn, hat, rfl,
      by rw [← hr.config_eq, ← hat.front.best]; exact hg.2.2, h.shows⟩
  obtain ⟨⟨x', hx', hmid', q, hq⟩, hstop⟩ := @whileLoop_induction _ _ _ _
    (fun _ => OrderBook.fillFront cb o.side idx)
    (fun v => ∃ x', Filling listener s₀ (v.1, x') ∧ Midway c used o.side idx v.1 v.2 x' ∧
      ∃ q, v.1 = o.withQuantity q) _ (fun v v' hv hguard hfront => by
        obtain ⟨y, hy, hm, q, hq⟩ := hv
        obtain ⟨y', hy', hm', ⟨q', hq'⟩, hnn, hlt⟩ := hm.fillFront hp hcb hguard.2 hfront
        exact ⟨y', hy.step hy' hnn hlt, hm', q', by rw [hq', hq]; rfl⟩)
    _ _ ⟨x, hx, hmid, o.quantity, rfl⟩ hloop
  have hconf := hmid'.config_eq
  have htidy := hmid'.tidyAt.leaveLevel (hconf ▸ hp) hmid'.sound.coherent
  refine ⟨x', hx', ⟨⟨hmid'.sound.leaveLevel hmid'.tidyAt.front.lt,
    hmid'.located.congr orderMap_leaveLevel fun _ => levels_leaveLevel,
    config_leaveLevel.trans hconf,
    hmid'.restingIn.within (restsWithin_of_levels fun _ => levels_leaveLevel), htidy.aligned,
    fun _ => htidy⟩, ?_, hmid'.shows.env⟩, q, hq⟩
  exact hmid'.shows.represents.congr config_leaveLevel fun _ => levels_leaveLevel

/-- Where the book finds nothing to match, the exchange does not either. -/
theorem Lockstep.fillBest_of_not_guard (h : Lockstep c used w x) (hp : c.Priced)
    (hg : ¬ MatchGuard o.side (o, w)) : Exchange.fillBest listener (o, x) = (o, x) := by
  rw [Exchange.fillBest]
  dsimp only
  split
  · rfl
  · rename_i m ms hopp
    refine if_neg fun hq => ?_
    have hmap := map_matchQueue (r := x.reference) h.shows.represents (h.reaches.tidy hp)
      (h.reaches.config_eq ▸ hp) h.reaches.sound.coherent o.side o.price
    rw [matchQueue_of_not_guard hg hq, List.map_nil] at hmap
    rw [← hmap] at hopp
    cases hopp

open Exchange in
/-- **A match of the book is a match of the exchange.** -/
theorem Lockstep.matchOrder {fuel : ℕ} (h : Lockstep c used w x) (hp : c.Priced)
    (hcb : Follows cb listener) (hm : OrderBook.matchOrder cb fuel (o, w) = .ok (o', w')) :
    ∃ x', (fillBest listener)^[o.quantity.toNat] (o, x) = (o', x') ∧ Lockstep c used w' x' ∧
      (∃ q, o' = o.withQuantity q) ∧ ¬ MatchGuard o.side (o', w') := by
  obtain ⟨⟨x', hx', h', q, hq⟩, hg⟩ := @whileLoop_induction _ _ (MatchGuard o.side) _
    (OrderBook.sweepLevel cb o.side)
    (fun t => ∃ x', Filling listener (o, x) (t.1, x') ∧ Lockstep c used t.2 x' ∧
      ∃ q, t.1 = o.withQuantity q) _ (fun t t' ht hguard hsweep => by
        obtain ⟨y, hy, hl, q, hq⟩ := ht
        have hside : t.1.side = o.side := by rw [hq]; rfl
        rw [← hside] at hguard hsweep
        obtain ⟨y', hy', hl', q', hq'⟩ := hl.sweepLevel hp hcb hy hguard hsweep
        exact ⟨y', hy', hl', q', by rw [hq', hq]; rfl⟩)
    (o, w) (o', w') ⟨x, Filling.refl _ _, h, o.quantity, rfl⟩ hm
  dsimp only at hx' h' hq
  have hside : o'.side = o.side := by rw [hq]; rfl
  refine ⟨x', hx'.iterate_eq ?_, h', ⟨q, hq⟩, hg⟩
  exact h'.fillBest_of_not_guard hp (by rw [hside]; exact hg)

/-! ### Calls -/

/-- **A cancel of the book is a cancel of the exchange.** -/
theorem Shows.cancelOrder {id : ℕ} {r : Bool} (h : Shows w x) (hb : Coherent w.book)
    (hl : Located w.book) (hc : w.book.cancelOrder id = .ok (r, b)) :
    Shows (w.withBook b) (x.remove id) ∧ r = x.isOpen id := by
  obtain ⟨hrep, hr⟩ := represents_cancel (r := x.reference) hb hl h.represents hc
  exact ⟨⟨hrep, h.env⟩, hr⟩

/-- **A call of `add_order` is a call of the exchange.** -/
theorem Lockstep.addOrder {fuel : ℕ} (h : Lockstep c used w x) (hp : c.Priced)
    (hcb : Follows cb listener)
    (hok : o.type = .limit → c.OnGrid o.price ∧ o.orderId ∉ used)
    (hadd : OrderBook.addOrder cb fuel o w = .ok w') :
    Lockstep c (BookOp.usedIds used (.add o)) w' (x.addOrder listener o) := by
  by_cases htype : o.type = .cancel
  · obtain ⟨r, b, hc⟩ := h.reaches.sound.coherent.cancelOrder_ok o.orderId
    rw [addOrder_cancel htype hc] at hadd
    cases hadd
    rw [Exchange.addOrder, if_pos htype, BookOp.usedIds, if_neg (by rw [htype]; decide)]
    exact ⟨h.reaches.cancelOrder hc,
      (h.shows.cancelOrder h.reaches.sound.coherent h.reaches.located hc).1⟩
  · obtain ⟨o', v, hm, -, rfl⟩ := of_addOrder_eq_ok htype hadd
    obtain ⟨x', hx', h', ⟨q, rfl⟩, hg⟩ := h.matchOrder hp hcb hm
    have hr := Reaches.afterMatch (o := o.withQuantity q) h'.reaches hok hg
    refine ⟨hr, ?_⟩
    rw [Exchange.addOrder, if_neg htype, hx', afterMatch]
    dsimp only
    split
    · rename_i hrest
      refine ⟨h'.shows.represents.join ?_, h'.shows.env⟩
      rw [h'.reaches.config_eq]
      exact (hok hrest.2).1
    · exact h'.shows

end

end OrderBook

/-! ### Observers

A callback that only looks can do nothing but fold the reports, and these are the reports of the
exchange. -/

namespace Exchange

/-- The listener that writes the reports down. -/
def recorder : Listener (List ExecutionReport) := fun r x => { x with env := x.env ++ [r] }

/-- One call, with the answers of the cancels so far. -/
def step (s : Exchange (List ExecutionReport) × List Bool) :
    OrderBook.BookOp → Exchange (List ExecutionReport) × List Bool
  | .add o => (s.1.addOrder recorder o, s.2)
  | .cancel orderId => (s.1.remove orderId, s.2 ++ [s.1.isOpen orderId])

/-- Nothing is open, and nothing has happened. -/
def new : Exchange (List ExecutionReport) × List Bool := (⟨[], []⟩, [])

end Exchange

namespace OrderBook

variable {ε : Type} {c : OrderBookConfig} {used : List ℕ} {ops : List BookOp}

theorem follows_record : Follows record Exchange.recorder := by
  intro r w x w' _ _ h hret
  cases hret
  exact ⟨Cancels.refl _, h.represents, by rw [h.env]; rfl⟩

/-- The states of the two runs. -/
structure InStep (c : OrderBookConfig) (g : List ℕ × Exchange (List ExecutionReport) × List Bool)
    (s : World (List ExecutionReport) × List Bool) : Prop where
  lockstep : Lockstep c g.1 s.1 g.2.1
  results : s.2 = g.2.2

/-- **One call** of the book is one step of the exchange. -/
theorem InStep.step {g : List ℕ × Exchange (List ExecutionReport) × List Bool}
    {s : World (List ExecutionReport) × List Bool} {op : BookOp} (hp : c.Priced)
    (h : InStep c g s) (hok : op.Ok c g.1) :
    ∃ s', Converges (fun fuel => op.run record fuel s) (.ok s') ∧
      InStep c (op.usedIds g.1, Exchange.step g.2 op) s' := by
  have hr := h.lockstep.reaches
  obtain ⟨s', hconv, hr'⟩ := hr.step (f := fun r log => log ++ [r]) hok
  refine ⟨s', hconv, ?_⟩
  obtain ⟨N, hN⟩ := hconv.2
  have hret := hN N le_rfl
  cases op with
  | add o =>
    obtain ⟨w', hadd, hret⟩ := exists_of_bind_eq_ok hret
    cases hret
    exact ⟨h.lockstep.addOrder hp follows_record (fun hl => (hok hl).2) hadd, h.results⟩
  | cancel id =>
    obtain ⟨⟨r, b⟩, hc, hret⟩ := exists_of_bind_eq_ok hret
    cases hret
    obtain ⟨hshows, rfl⟩ := h.lockstep.shows.cancelOrder hr.sound.coherent hr.located hc
    exact ⟨⟨hr', hshows⟩, by rw [h.results]; rfl⟩

/-- The observer has computed from the reports of the exchange, and the book has answered the same
and shows the same queues, best prices, spread and depths, with totals as unbounded integers. -/
structure Observes (c : OrderBookConfig) (f : ExecutionReport → ε → ε) (e : ε)
    (s : World ε × List Bool) (t : Exchange (List ExecutionReport) × List Bool) : Prop where
  env : s.1.env = t.1.env.foldl (fun e r => f r e) e
  results : s.2 = t.2
  queue : ∀ side i, (s.1.book.levels side i).orders.map Node.order =
    t.1.live.filter fun o => o.side = side ∧ o.price = c.priceAt i
  bestBid : s.1.book.bestBid = t.1.reference.bestBid.getD (-1)
  bestAsk : s.1.book.bestAsk = t.1.reference.bestAsk.getD (-1)
  spread : s.1.book.spread = t.1.reference.spread
  quantityAt : ∀ p, c.OnGrid p → ∀ side,
    s.1.book.quantityAt p side = t.1.reference.quantityAt p side

theorem InStep.observes {g : List ℕ × Exchange (List ExecutionReport) × List Bool}
    {s : World (List ExecutionReport) × List Bool} (hp : c.Priced) (h : InStep c g s)
    (f : ExecutionReport → ε → ε) (e : ε) : Observes c f e (foldReports f e s) g.2 := by
  have hr := h.lockstep.reaches
  have hrep : Represents s.1.book g.2.1.reference.live := h.lockstep.shows.represents
  have ht := hr.tidy hp
  exact {
    env := by rw [foldReports, h.lockstep.shows.env]
    results := h.results
    queue := fun side i => hr.config_eq ▸ hrep.queue side i
    bestBid := hrep.bestBid ht
    bestAsk := hrep.bestAsk ht
    spread := hrep.spread ht (hr.config_eq ▸ hp)
    quantityAt := fun p hgrid side =>
      hrep.quantityAt hr.sound.coherent (by rw [hr.config_eq]; exact hgrid) side }

/-- Every run is simulated by a run of the exchange. -/
theorem exists_inStep (hp : c.Priced) (hops : WellFormed c ops) :
    ∃ s used, Converges (runBook c record [] ops) (.ok s) ∧
      InStep c (used, ops.foldl Exchange.step Exchange.new) s := by
  let next : List ℕ × Exchange (List ExecutionReport) × List Bool → BookOp →
    List ℕ × Exchange (List ExecutionReport) × List Bool :=
    fun g op => (op.usedIds g.1, Exchange.step g.2 op)
  have hallowed : Allowed (fun g op => BookOp.Ok c g.1 op) next ([], Exchange.new) ops :=
    Allowed.comap (d := ([], Exchange.new)) Prod.fst (fun _ _ => rfl) hops
  have hnew : InStep c ([], Exchange.new) (⟨new c, []⟩, []) :=
    ⟨⟨reaches_new c, represents_new c, rfl⟩, rfl⟩
  obtain ⟨s, hs, h⟩ := @converges_runList _ _ _ _ (BookOp.run record) _ next (InStep c)
    (fun g op s hg hok => InStep.step hp hg hok) _ _ _ hnew hallowed
  have hsnd : ops.foldl Exchange.step Exchange.new =
      (ops.foldl next ([], Exchange.new)).2 :=
    @List.foldl_hom _ _ _ Prod.snd next Exchange.step ops ([], Exchange.new) fun _ _ => rfl
  exact ⟨s, _, hs, by rw [hsnd]; exact h⟩

/-- **A callback that only looks** sees the reports of the exchange, in every sequence of limit,
market and cancel orders and after each of them, and whatever it computes is a fold over them. It
changes nothing of the answers, the queues, the best prices, the spread and the depths. -/
theorem observes_of_wellFormed (c : OrderBookConfig) (hmin : 0 ≤ c.minPrice)
    (hlevels : c.numLevels ≤ 2 ^ 31) (f : ExecutionReport → ε → ε) (e : ε) (ops : List BookOp)
    (hops : WellFormed c ops) (pre : List BookOp) (hpre : pre <+: ops) :
    ∃ s, Converges (runBook c (observe f) e pre) (.ok s) ∧
      Observes c f e s (pre.foldl Exchange.step Exchange.new) := by
  have hp : c.Priced := ⟨hmin, by omega⟩
  obtain ⟨post, rfl⟩ := hpre
  obtain ⟨s, used, hs, h⟩ := exists_inStep hp (Allowed.of_append hops)
  exact ⟨foldReports f e s, hs.of_map (foldReports f e) fun fuel =>
    (runBook_observe c f e pre fuel).symm, h.observes hp f e⟩

/-- A market order sweeps two levels. -/
def marketOps : List BookOp :=
  [.add ⟨1, 1, 10, 5, .sell, .limit⟩, .add ⟨2, 1, 8, 4, .sell, .limit⟩,
    .add ⟨3, 1, 20, 6, .buy, .market⟩, .cancel 1]

/-- The observer adds up what the incoming orders have paid. -/
theorem observes_of_wellFormed_marketOps :
    ∃ s, Converges (runBook ⟨0, 20, 2, by decide, by decide, by decide⟩
        (observe fun r paid => if r.isMaker then paid else paid + r.price * r.filledQuantity) 0
        marketOps) (.ok s) ∧
      Observes ⟨0, 20, 2, by decide, by decide, by decide⟩
        (fun r paid => if r.isMaker then paid else paid + r.price * r.filledQuantity) 0 s
        (marketOps.foldl Exchange.step Exchange.new) :=
  observes_of_wellFormed _ (by decide) (by decide) _ _ marketOps
    ⟨fun _ => ⟨by decide, ⟨5, by decide, by decide⟩, by decide⟩,
      fun _ => ⟨by decide, ⟨4, by decide, by decide⟩, by decide⟩,
      fun h => (by cases h), trivial, trivial⟩ _ (List.prefix_refl _)

end OrderBook

end MiniTrader
