import MiniTrader.OrderBook.Run

/-!
# Callbacks that cancel

`match` emits two reports for each fill and keeps a reference to the resting order across both
calls. The callback may call `cancel_order` on the same book. If it cancels the order that is being
filled, the reference dangles: `match` goes on to read `resting.order_id` or `resting.quantity`
from a node that is gone. If it cancels anything else, nothing goes wrong, however much of the
level, of the other levels and of the caches it changes.

`Canceller` is the most general callback of this kind: what it cancels, and in which order, may
depend on the report, on the whole book and on a state of its own. `Trace` keeps, next to that
state, the reports and the answers of `cancel_order` in the order in which they happened.

## Which cancels count

What a callback would do with reports it never gets, or in books it never sees, does not matter. So
the condition is about the cancels of a run: `ComesTo` says in which states `match` is about to fill
an order, and in each of them neither the report to the taker nor the one to the maker, which comes
in the world that the first call has left, may lead to a cancel of that order (`SparesFront`). The
spread strategy is a case in point: it cancels whatever ids it has recorded, and in its own runs
these are never those of the order being filled.

## Main definitions

* `Canceller`, `reentrant` — callbacks that cancel
* `ComesTo` — where `match` is when it calls back
* `SparesFront`, `BookOp.Spares` — the callback does not cancel the resting order of its report
* `NoLateReports` — nothing is reported about an order after a successful cancel

## Main results

* `exists_cancelAll` — what a callback can do to a coherent book
* `ComesTo.converges_error` — a fault on the way is the fault of the match
* `reentrant_iff_spares` — a run is safe exactly if its cancels are sparing
-/

namespace MiniTrader

open Fuelled

namespace OrderBook

/-- What an observer of the book sees. -/
inductive Event where
  | report (r : ExecutionReport)
  | cancelled (orderId : ℕ) (ok : Bool)
  deriving DecidableEq, Repr

/-- The state of a callback, and what has been observed so far. -/
structure Trace (σ : Type) where
  state : σ
  events : List Event

/-- A callback that cancels orders: from the report, the book and its state it computes the ids to
cancel, in order, and its next state. -/
abbrev Canceller (σ : Type) := ExecutionReport → OrderBook → σ → List ℕ × σ

variable {σ : Type}

/-- The trace with one more event. -/
def Trace.push (tr : Trace σ) (e : Event) : Trace σ := { tr with events := tr.events ++ [e] }

/-- Calling `cancel_order` for each id in turn. -/
def cancelAll : List ℕ → World (Trace σ) → Outcome (World (Trace σ))
  | [], w => .ok w
  | id :: ids, w => do
    let r ← w.book.cancelOrder id
    cancelAll ids ⟨r.2, w.env.push (.cancelled id r.1)⟩

/-- The callback that `match` runs. -/
def reentrant (f : Canceller σ) : FillCallback (Trace σ) := fun r w =>
  cancelAll (f r w.book w.env.state).1
    ⟨w.book, ⟨(f r w.book w.env.state).2, w.env.events ++ [.report r]⟩⟩

/-- One call on the book. A `Cancel` order is a call of `cancel_order` (`addOrder_cancel`); it is
written out here so that the answer is observed. -/
def BookOp.runTraced (f : Canceller σ) (op : BookOp) (fuel : ℕ) (w : World (Trace σ)) :
    Outcome (World (Trace σ)) :=
  match op with
  | .add order =>
    if order.type = .cancel then cancelAll [order.orderId] w
    else addOrder (reentrant f) fuel order w
  | .cancel orderId => cancelAll [orderId] w

/-- A sequence of calls on an empty book. -/
def runTraced (c : OrderBookConfig) (f : Canceller σ) (st : σ) (ops : List BookOp) (fuel : ℕ) :
    Outcome (World (Trace σ)) :=
  runList (BookOp.runTraced f) fuel ops ⟨new c, ⟨st, []⟩⟩

/-- The ids that the callback asks to cancel when it is handed the report. -/
def asked (f : Canceller σ) (r : ExecutionReport) (w : World (Trace σ)) : List ℕ :=
  (f r w.book w.env.state).1

/-- The states in which `match`, called in the state `s`, is at the head of its inner loop, with the
level that this loop sweeps. -/
inductive ComesTo {ε : Type} (cb : FillCallback ε) (side : Side) (s : Order × World ε) :
    ℕ → Order × World ε → Prop
  /-- The first level. -/
  | enter : MatchGuard side s → ComesTo cb side s (visited side s) s
  /-- After a fill. -/
  | fill {idx : ℕ} {t t' : Order × World ε} : ComesTo cb side s idx t → LevelGuard side idx t →
      fillFront cb side idx t = .ok t' → ComesTo cb side s idx t'
  /-- The level that comes next. -/
  | next {idx : ℕ} {t t' : Order × World ε} : ComesTo cb side s idx t → ¬ LevelGuard side idx t →
      t' = (t.1, t.2.withBook (t.2.book.leaveLevel side.opp idx)) → MatchGuard side t' →
      ComesTo cb side s (visited side t') t'

/-- In the fill of the front order of the level, neither report makes the callback cancel that
order. The second report comes in the world that the first call has left. -/
def SparesFront (f : Canceller σ) (side : Side) (idx : ℕ) (s : Order × World (Trace σ)) : Prop :=
  ∀ n rest, (s.2.book.levels side.opp idx).orders = n :: rest →
    n.order.orderId ∉ asked f (takerReport side s.1 n (s.2.book.best side.opp)) s.2 ∧
      ∀ w, reentrant f (takerReport side s.1 n (s.2.book.best side.opp)) s.2 = .ok w →
        n.order.orderId ∉ asked f (makerReport side s.1 n (w.book.best side.opp)) w

/-- In every fill of the call, the callback does not cancel the order that is being filled. -/
def BookOp.Spares (f : Canceller σ) (op : BookOp) (w : World (Trace σ)) : Prop :=
  match op with
  | .add o => o.type ≠ .cancel → ∀ idx s, ComesTo (reentrant f) o.side (o, w) idx s →
      LevelGuard o.side idx s → SparesFront f o.side idx s
  | .cancel _ => True

/-- After a successful cancel no report names the order, neither as its own nor as the matched
one. -/
def NoLateReports (events : List Event) : Prop :=
  events.Pairwise fun e e' => ∀ id r, e = .cancelled id true → e' = .report r →
    r.orderId ≠ id ∧ r.matchedOrderId ≠ id

/-- What a call has to satisfy when the ids submitted earlier are `used`. -/
def BookOp.OkUnique (c : OrderBookConfig) (used : List ℕ) : BookOp → Prop
  | .add o => o.type ≠ .cancel → o.orderId ∉ used ∧
      (o.type = .limit → 0 < o.quantity ∧ c.OnGrid o.price)
  | .cancel _ => True

/-- The ids submitted after a call. -/
def BookOp.submittedIds (used : List ℕ) : BookOp → List ℕ
  | .add o => if o.type = .cancel then used else o.orderId :: used
  | .cancel _ => used

/-- Limit orders have a positive quantity and a price of the grid, and no id is submitted twice. -/
def WellFormedUnique (c : OrderBookConfig) (ops : List BookOp) : Prop :=
  Allowed (BookOp.OkUnique c) BookOp.submittedIds [] ops

/-! ### What is observed -/

/-- Cancelled orders do not rest, their ids have been used, and nothing was reported too late. -/
structure Observed (used : List ℕ) (b : OrderBook) (events : List Event) : Prop where
  gone : ∀ id, .cancelled id true ∈ events → NotResting b id
  usedIds : ∀ id, .cancelled id true ∈ events → id ∈ used
  late : NoLateReports events

variable {used : List ℕ} {b b' : OrderBook} {events : List Event} {c : OrderBookConfig}

theorem Observed.within (h : Observed used b events) (hw : RestsWithin b' b) :
    Observed used b' events :=
  ⟨fun id hid => hw.notResting (h.gone id hid), h.usedIds, h.late⟩

theorem Observed.mono {used' : List ℕ} (h : Observed used b events) (hs : used ⊆ used') :
    Observed used' b events :=
  ⟨h.gone, fun id hid => hs (h.usedIds id hid), h.late⟩

theorem Observed.join {o : Order} (h : Observed used b events) (hid : o.orderId ∉ used) :
    Observed used (b.join o) events := by
  refine ⟨fun id hmem s i n hn => ?_, h.usedIds, h.late⟩
  rw [levels_join] at hn
  rcases mem_link.mp hn with hn | ⟨rfl, rfl, rfl⟩
  · exact h.gone id hmem s i n hn
  · rintro rfl
    exact hid (h.usedIds _ hmem)

/-- A report about an incoming order whose id is new, and a resting one. -/
theorem Observed.report {s : Side} {i : ℕ} {n : Node} {r : ExecutionReport}
    (h : Observed used b events) (hn : n ∈ (b.levels s i).orders)
    (htaker : r.takerId ∉ used) (hmaker : r.makerId = n.order.orderId) :
    Observed used b (events ++ [.report r]) := by
  have hold : ∀ {id}, Event.cancelled id true ∈ events ++ [.report r] →
      Event.cancelled id true ∈ events := by simp
  refine ⟨fun id hid => h.gone id (hold hid), fun id hid => h.usedIds id (hold hid), ?_⟩
  refine List.pairwise_append.mpr ⟨h.late, List.pairwise_singleton _ _, ?_⟩
  rintro e he e' he' id r' rfl rfl
  obtain rfl : r' = r := by simpa using he'
  have h1 : r'.makerId ≠ id := by rw [hmaker]; exact h.gone id he s i n hn
  have h2 : r'.takerId ≠ id := fun hid => htaker (hid ▸ h.usedIds id he)
  rw [ExecutionReport.makerId] at h1
  rw [ExecutionReport.takerId] at h2
  cases hm : r'.isMaker <;> simp only [hm, if_true, Bool.false_eq_true, if_false] at h1 h2
  · exact ⟨h2, h1⟩
  · exact ⟨h1, h2⟩

theorem Observed.cancelled {id : ℕ} {ok : Bool} (h : Observed used b events) (hb : Coherent b)
    (hl : Located b) (hr : RestingIn used b) (hc : b.cancelOrder id = .ok (ok, b')) :
    Observed used b' (events ++ [.cancelled id ok]) := by
  obtain ⟨hw, -⟩ := restsWithin_cancelOrder hb hc
  have hused : ok = true → id ∈ used := by
    rintro rfl
    rcases hb.exists_cancelOrder id with ⟨-, hc'⟩ | ⟨s, i, n, hn, rfl, -⟩
    · rw [hc'] at hc; cases hc
    · exact hr s i n hn
  have hold : ∀ {id'}, Event.cancelled id' true ∈ events ++ [.cancelled id ok] →
      Event.cancelled id' true ∈ events ∨ (id' = id ∧ ok = true) := by
    intro id' hmem
    rcases List.mem_append.mp hmem with hmem | hmem
    · exact Or.inl hmem
    · simp only [List.mem_singleton, Event.cancelled.injEq] at hmem
      exact Or.inr ⟨hmem.1, hmem.2.symm⟩
  refine ⟨fun id' hid => ?_, fun id' hid => ?_, ?_⟩
  · rcases hold hid with hid | ⟨rfl, hok⟩
    · exact hw.notResting (h.gone id' hid)
    · exact hl.notResting_cancelOrder hb trivial hc
  · rcases hold hid with hid | ⟨rfl, hok⟩
    · exact h.usedIds id' hid
    · exact hused hok
  · refine List.pairwise_append.mpr ⟨h.late, List.pairwise_singleton _ _, ?_⟩
    rintro e - e' he' id' r' - rfl
    simp at he'

/-! ### What a callback does -/

/-- **Cancelling several orders** of a coherent book never faults, and spares every id that is not
on the list. -/
theorem exists_cancelAll (ids : List ℕ) {w : World (Trace σ)} (hb : Coherent w.book)
    (hl : Located w.book) (hr : RestingIn used w.book) (ho : Observed used w.book w.env.events) :
    ∃ w', cancelAll ids w = .ok w' ∧ Observed used w'.book w'.env.events ∧
      ∀ id ∉ ids, CancelsOthers id w.book w'.book := by
  induction ids generalizing w with
  | nil => exact ⟨w, rfl, ho, fun id _ => CancelsOthers.refl id _⟩
  | cons id ids ih =>
    obtain ⟨ok, b', hc⟩ := hb.cancelOrder_ok id
    obtain ⟨hw, -⟩ := restsWithin_cancelOrder hb hc
    obtain ⟨w', hw', ho', hs⟩ := ih (w := ⟨b', w.env.push (.cancelled id ok)⟩) (hb.cancelOrder hc)
      (hl.cancelOrder hb hc) (hr.within hw) (ho.cancelled hb hl hr hc)
    refine ⟨w', by rw [cancelAll, hc]; exact hw', ho', fun id' hid' => ?_⟩
    rw [List.mem_cons, not_or] at hid'
    exact (CancelsOthers.of_cancelOrder (Ne.symm hid'.1) hc).trans (hs id' hid'.2)

/-- What has been cancelled stays out of the book. -/
theorem notResting_of_cancelAll (ids : List ℕ) {w : World (Trace σ)} (hb : Coherent w.book)
    (hl : Located w.book) :
    ∃ w', cancelAll ids w = .ok w' ∧ Coherent w'.book ∧ RestsWithin w'.book w.book ∧
      ∀ id ∈ ids, NotResting w'.book id := by
  induction ids generalizing w with
  | nil => exact ⟨w, rfl, hb, RestsWithin.refl _, fun _ h => absurd h List.not_mem_nil⟩
  | cons id ids ih =>
    obtain ⟨ok, b', hc⟩ := hb.cancelOrder_ok id
    obtain ⟨w', hw', hb', hin, hids⟩ := ih (w := ⟨b', w.env.push (.cancelled id ok)⟩)
      (hb.cancelOrder hc) (hl.cancelOrder hb hc)
    refine ⟨w', by rw [cancelAll, hc]; exact hw', hb',
      hin.trans (restsWithin_cancelOrder hb hc).1, fun id' hid' => ?_⟩
    rcases List.mem_cons.mp hid' with rfl | hid'
    · exact hin.notResting (hl.notResting_cancelOrder hb trivial hc)
    · exact hids id' hid'

/-! ### Where `match` calls back -/

section

variable {ε : Type} {cb : FillCallback ε} {side : Side} {idx fuel k m : ℕ}
  {s t t' : Order × World ε} {flt : Fault}

/-- What `match` has still to do when it is at the head of its inner loop. The fuel for the two
loops is kept apart from that for the sweeps to come. -/
def matchFrom (cb : FillCallback ε) (side : Side) (idx fuel m k : ℕ) (t : Order × World ε) :
    Outcome (Order × World ε) := do
  let t ← whileAux (LevelGuard side idx) (fillFront cb side idx) m t
  whileAux (MatchGuard side) (sweepLevel cb side fuel) k
    (t.1, t.2.withBook (t.2.book.leaveLevel side.opp idx))

/-- It ends in the fault, provided that there is enough fuel. -/
def FaultsFrom (cb : FillCallback ε) (side : Side) (idx : ℕ) (t : Order × World ε) (flt : Fault) :
    Prop :=
  (∀ fuel m k, matchFrom cb side idx fuel m k t = .error .outOfFuel ∨
    matchFrom cb side idx fuel m k t = .error (.fault flt)) ∧
  ∃ N, ∀ fuel m k, N ≤ fuel → N ≤ m → N ≤ k →
    matchFrom cb side idx fuel m k t = .error (.fault flt)

theorem faultsFrom_of_fillFront (hg : LevelGuard side idx t)
    (h : fillFront cb side idx t = .error (.fault flt)) : FaultsFrom cb side idx t flt := by
  have key : ∀ fuel m k, matchFrom cb side idx fuel (m + 1) k t = .error (.fault flt) := by
    intro fuel m k
    rw [matchFrom, whileAux_succ_of_guard hg, h]
    rfl
  refine ⟨fun fuel m k => ?_, 1, fun fuel m k _ hm _ => ?_⟩
  · cases m with
    | zero => exact Or.inl rfl
    | succ m => exact Or.inr (key fuel m k)
  · obtain ⟨m, rfl⟩ : ∃ m', m = m' + 1 := ⟨m - 1, by omega⟩
    exact key fuel m k

/-- Before a fill. -/
theorem FaultsFrom.fill (h : FaultsFrom cb side idx t' flt) (hg : LevelGuard side idx t)
    (hfill : fillFront cb side idx t = .ok t') : FaultsFrom cb side idx t flt := by
  have key : ∀ fuel m k, matchFrom cb side idx fuel (m + 1) k t =
      matchFrom cb side idx fuel m k t' := by
    intro fuel m k
    rw [matchFrom, whileAux_succ_of_guard hg, hfill]
    rfl
  obtain ⟨hall, N, hN⟩ := h
  refine ⟨fun fuel m k => ?_, N + 1, fun fuel m k hfuel hm hk => ?_⟩
  · cases m with
    | zero => exact Or.inl rfl
    | succ m =>
      rw [key]
      exact hall fuel m k
  · obtain ⟨m, rfl⟩ : ∃ m', m = m' + 1 := ⟨m - 1, by omega⟩
    rw [key]
    exact hN fuel m k (by omega) (by omega) (by omega)

/-- An iteration of the outer loop begins at the head of the inner one. -/
theorem whileAux_sweepLevel (hg : MatchGuard side t)
    (hidx : visited side t < t.2.book.config.numLevels) :
    whileAux (MatchGuard side) (sweepLevel cb side fuel) (k + 1) t =
      matchFrom cb side (visited side t) fuel fuel k t := by
  rw [whileAux_succ_of_guard hg, sweepLevel, ← visited]
  simp only [if_pos hidx, whileLoop, matchFrom]
  cases whileAux (LevelGuard side (visited side t)) (fillFront cb side (visited side t)) fuel t <;>
    rfl

/-- Before the level that comes next. -/
theorem FaultsFrom.next (h : FaultsFrom cb side (visited side t') t' flt)
    (hlevel : ¬ LevelGuard side idx t)
    (ht' : t' = (t.1, t.2.withBook (t.2.book.leaveLevel side.opp idx)))
    (hg : MatchGuard side t') (hidx : visited side t' < t'.2.book.config.numLevels) :
    FaultsFrom cb side idx t flt := by
  have hzero : ∀ fuel m, matchFrom cb side idx fuel (m + 1) 0 t = .error .outOfFuel := by
    intro fuel m
    rw [matchFrom, whileAux_succ_of_not_guard hlevel]
    rfl
  have key : ∀ fuel m k, matchFrom cb side idx fuel (m + 1) (k + 1) t =
      matchFrom cb side (visited side t') fuel fuel k t' := by
    intro fuel m k
    rw [← whileAux_sweepLevel hg hidx, matchFrom, whileAux_succ_of_not_guard hlevel, ht']
    rfl
  obtain ⟨hall, N, hN⟩ := h
  refine ⟨fun fuel m k => ?_, N + 1, fun fuel m k hfuel hm hk => ?_⟩
  · cases m with
    | zero => exact Or.inl rfl
    | succ m =>
      cases k with
      | zero => exact Or.inl (hzero fuel m)
      | succ k =>
        rw [key]
        exact hall fuel fuel k
  · obtain ⟨m, rfl⟩ : ∃ m', m = m' + 1 := ⟨m - 1, by omega⟩
    obtain ⟨k, rfl⟩ : ∃ k', k = k' + 1 := ⟨k - 1, by omega⟩
    rw [key]
    exact hN fuel fuel k (by omega) (by omega) (by omega)

/-- **A fault on the way** is the fault of the match. The induction goes back from the fill to the
call. -/
theorem ComesTo.converges_error (h : ComesTo cb side s idx t)
    (hin : ∀ i u, ComesTo cb side s i u → MatchGuard side u →
      visited side u < u.2.book.config.numLevels)
    (hf : FaultsFrom cb side idx t flt) : Converges
      (fun fuel => whileLoop (MatchGuard side) (sweepLevel cb side) fuel s)
      (.error (.fault flt)) := by
  induction h with
  | fill _ hg hfill ih => exact ih (hf.fill hg hfill)
  | next hcome hlevel ht' hg ih =>
    exact ih (hf.next hlevel ht' hg (hin _ _ (.next hcome hlevel ht' hg) hg))
  | enter hg =>
    have hidx := hin _ _ (.enter hg) hg
    obtain ⟨hall, N, hN⟩ := hf
    refine ⟨fun fuel => ?_, N + 1, fun fuel hfuel => ?_⟩
    · cases fuel with
      | zero => exact Or.inl rfl
      | succ fuel =>
        simp only [whileLoop]
        rw [whileAux_sweepLevel hg hidx]
        exact hall (fuel + 1) (fuel + 1) fuel
    · obtain ⟨k, rfl⟩ : ∃ k, fuel = k + 1 := ⟨fuel - 1, by omega⟩
      simp only [whileLoop]
      rw [whileAux_sweepLevel hg hidx]
      exact hN (k + 1) (k + 1) k (by omega) (by omega) (by omega)

end

/-! ### Sparing callbacks -/

variable {f : Canceller σ} {side : Side} {idx : ℕ} {s : Side} {i : ℕ} {n : Node} {o : Order}
  {r : ExecutionReport} {w : World (Trace σ)}

/-- A report that does not make the callback cancel the resting order. -/
theorem exists_reentrant (hspare : n.order.orderId ∉ asked f r w) (hb : Coherent w.book)
    (hl : Located w.book) (hn : n ∈ (w.book.levels s i).orders)
    (hmaker : r.makerId = n.order.orderId) (htaker : r.takerId ∉ used)
    (hr : RestingIn used w.book) (ho : Observed used w.book w.env.events) :
    ∃ w', reentrant f r w = .ok w' ∧ CancelsOthers n.order.orderId w.book w'.book ∧
      RestingIn used w'.book ∧ Observed used w'.book w'.env.events := by
  obtain ⟨w', hw', ho', hs⟩ := exists_cancelAll (f r w.book w.env.state).1
    (w := ⟨w.book, ⟨(f r w.book w.env.state).2, w.env.events ++ [.report r]⟩⟩) hb hl hr
    (ho.report hn htaker hmaker)
  exact ⟨w', hw', hs _ hspare, hr.within ((hs _ hspare).restsWithin hb), ho'⟩

/-- A report that does. -/
theorem exists_reentrant_gone {id : ℕ} (hasked : id ∈ asked f r w) (hb : Coherent w.book)
    (hl : Located w.book) : ∃ w', reentrant f r w = .ok w' ∧ RestsWithin w'.book w.book ∧
      NotResting w'.book id := by
  obtain ⟨w', hw', -, hin, hgone⟩ := notResting_of_cancelAll (f r w.book w.env.state).1
    (w := ⟨w.book, ⟨(f r w.book w.env.state).2, w.env.events ++ [.report r]⟩⟩) hb hl
  exact ⟨w', hw', hin, hgone id hasked⟩

/-- The order is gone, and with it the node that the reference designates. -/
theorem readResting_dangling (hb : Coherent b) (hin : RestsWithin b' b)
    (hn : n ∈ (b.levels s i).orders) (hgone : NotResting b' n.order.orderId) :
    b'.readResting s i n.handle = .error (.fault .dangling) := by
  have hnone : (b'.levels s i).deref n.handle = none := by
    rw [PriceLevel.deref, Option.map_eq_none_iff, List.find?_eq_none]
    intro m hm he
    obtain ⟨k, hk, q, -, rfl⟩ := hin _ _ m hm
    have : k = n := PriceLevel.eq_of_handle_eq (hb.nodup _ _) hk hn (of_decide_eq_true he)
    subst this
    exact hgone _ _ _ hm rfl
  rw [readResting, hnone]

/-- What is known while an order with a new id is matched. -/
structure Handles (used : List ℕ) (o : Order) (w : World (Trace σ)) : Prop where
  sound : Sound w.book
  located : Located w.book
  fresh : o.orderId ∉ used
  restingIn : RestingIn used w.book
  observed : Observed used w.book w.env.events

/-- **A fill that spares the front order.** -/
theorem Handles.fill {rest : List Node} (h : Handles used o w)
    (hfront : (w.book.levels side.opp idx).orders = n :: rest) (hq : 0 < o.quantity)
    (hs : SparesFront f side idx (o, w)) : ∃ w₁ w₂,
      reentrant f (takerReport side o n (w.book.best side.opp)) w = .ok w₁ ∧
      CancelsOthers n.order.orderId w.book w₁.book ∧
      reentrant f (makerReport side o n (w₁.book.best side.opp)) w₁ = .ok w₂ ∧
      CancelsOthers n.order.orderId w₁.book w₂.book ∧
      Handles used (Order.afterFill o n) (w₂.withBook (w₂.book.settleFront side.opp idx n.order
        (min o.quantity n.order.quantity))) := by
  obtain ⟨htaker, hmaker⟩ := hs n rest hfront
  have hb := h.sound.coherent
  have hn : n ∈ (w.book.levels side.opp idx).orders := by rw [hfront]; exact List.mem_cons_self
  have hpos := hb.positive hn
  obtain ⟨w₁, h₁, hs₁, hr₁, ho₁⟩ := exists_reentrant
    (r := takerReport side o n (w.book.best side.opp)) htaker hb h.located hn rfl h.fresh
    h.restingIn h.observed
  have hb₁ := hs₁.sound h.sound
  have hl₁ := hs₁.located hb h.located
  obtain ⟨rest₁, hf₁, -⟩ := hs₁.front hb hfront
  obtain ⟨w₂, h₂, hs₂, hr₂, ho₂⟩ := exists_reentrant
    (r := makerReport side o n (w₁.book.best side.opp)) (hmaker w₁ h₁) hb₁.coherent hl₁
    (by rw [hf₁]; exact List.mem_cons_self) rfl h.fresh hr₁ ho₁
  have hb₂ := hs₂.sound hb₁
  obtain ⟨rest₂, hf₂, -⟩ := hs₂.front hb₁.coherent hf₁
  have hw := hb₂.coherent.restsWithin_settleFront (q := min o.quantity n.order.quantity) hf₂
    (by omega)
  exact ⟨w₁, w₂, h₁, hs₁, h₂, hs₂, hb₂.settleFront hf₂,
    (hs₂.located hb₁.coherent hl₁).settleFront hb₂.coherent hf₂, h.fresh, hr₂.within hw,
    ho₂.within hw⟩

/-- `match` goes on with the settled book. -/
theorem fillFront_of_spared {rest : List Node} {w₁ w₂ : World (Trace σ)} (hb : Coherent w.book)
    (hfront : (w.book.levels side.opp idx).orders = n :: rest)
    (h₁ : reentrant f (takerReport side o n (w.book.best side.opp)) w = .ok w₁)
    (hs₁ : CancelsOthers n.order.orderId w.book w₁.book)
    (h₂ : reentrant f (makerReport side o n (w₁.book.best side.opp)) w₁ = .ok w₂)
    (hs₂ : CancelsOthers n.order.orderId w₁.book w₂.book) :
    fillFront (reentrant f) side idx (o, w) = .ok (Order.afterFill o n, w₂.withBook
      (w₂.book.settleFront side.opp idx n.order (min o.quantity n.order.quantity))) ∧
    (w₂.book.settleFront side.opp idx n.order (min o.quantity n.order.quantity)).config =
      w.book.config := by
  have hb₁ := hs₁.coherent hb
  obtain ⟨rest₁, hf₁, -⟩ := hs₁.front hb hfront
  obtain ⟨rest₂, hf₂, -⟩ := hs₂.front hb₁ hf₁
  refine ⟨fillFront_eq hfront h₁ hb₁ ?_ h₂ (hs₂.coherent hb₁) ?_, ?_⟩
  · rw [hf₁]
    exact List.mem_cons_self
  · rw [hf₂]
    exact List.mem_cons_self
  · rw [config_settleFront, hs₂.config_eq hb₁, hs₁.config_eq hb]

/-- **A fill that does not.** `match` uses the reference after one of the two reports. -/
theorem Handles.fillFront_dangling (h : Handles used o w)
    (hs : ¬ SparesFront f side idx (o, w)) :
    fillFront (reentrant f) side idx (o, w) = .error (.fault .dangling) := by
  simp only [SparesFront, not_forall, not_and_or, not_not] at hs
  obtain ⟨n, rest, hfront, hs⟩ := hs
  have hb := h.sound.coherent
  have hn : n ∈ (w.book.levels side.opp idx).orders := by rw [hfront]; exact List.mem_cons_self
  by_cases htaker : n.order.orderId ∈ asked f (takerReport side o n (w.book.best side.opp)) w
  · obtain ⟨w₁, h₁, hin, hgone⟩ := exists_reentrant_gone htaker hb h.located
    have hread := readResting_dangling hb hin hn hgone
    rw [takerReport] at h₁
    rw [fillFront]
    simp only [hfront, h₁, bind, Except.bind, hread]
  · obtain ⟨w₁, h₁, hmaker⟩ := hs.resolve_left htaker
    obtain ⟨w₁', h₁', hs₁, -⟩ := exists_reentrant
      (r := takerReport side o n (w.book.best side.opp)) htaker hb h.located hn rfl h.fresh
      h.restingIn h.observed
    cases h₁.symm.trans h₁'
    have hb₁ := hs₁.coherent hb
    obtain ⟨rest₁, hf₁, -⟩ := hs₁.front hb hfront
    have hn₁ : n ∈ (w₁.book.levels side.opp idx).orders := by rw [hf₁]; exact List.mem_cons_self
    obtain ⟨w₂, h₂, hin, hgone⟩ :=
      exists_reentrant_gone hmaker hb₁ (hs₁.located hb h.located)
    have hread₁ := hb₁.readResting_of_mem hn₁
    have hread₂ := readResting_dangling hb₁ hin hn₁ hgone
    rw [takerReport] at h₁
    rw [makerReport] at h₂
    rw [fillFront]
    simp only [hfront, h₁, bind, Except.bind, hread₁, h₂, hread₂]

theorem Handles.leave (side : Side) (h : Handles used o w)
    (hidx : idx < w.book.config.numLevels) :
    Handles used o (w.withBook (w.book.leaveLevel side.opp idx)) := by
  have hw : RestsWithin (w.book.leaveLevel side.opp idx) w.book :=
    restsWithin_of_levels fun _ => levels_leaveLevel
  exact ⟨h.sound.leaveLevel hidx,
    h.located.congr orderMap_leaveLevel fun _ => levels_leaveLevel, h.fresh, h.restingIn.within hw,
    h.observed.within hw⟩

/-- The invariant on the way. A fill that returns has spared the front order. -/
theorem Handles.comesTo {t : Order × World (Trace σ)} (h : Handles used o w)
    (hcome : ComesTo (reentrant f) side (o, w) idx t) :
    Handles used t.1 t.2 ∧ idx < t.2.book.config.numLevels := by
  induction hcome with
  | enter hg => exact ⟨h, h.sound.cached _ hg.2.1⟩
  | @fill idx t t' _ hlevel hfill ih =>
    obtain ⟨ht, hidx⟩ := ih
    obtain ⟨n, rest, hfront⟩ := List.exists_cons_of_ne_nil hlevel.1
    by_cases hs : SparesFront f side idx (t.1, t.2)
    · obtain ⟨w₁, w₂, h₁, hs₁, h₂, hs₂, ht'⟩ := ht.fill hfront hlevel.2 hs
      obtain ⟨heq, hconfig⟩ := fillFront_of_spared ht.sound.coherent hfront h₁ hs₁ h₂ hs₂
      cases heq.symm.trans hfill
      exact ⟨ht', by rwa [World.book_withBook, hconfig]⟩
    · cases (ht.fillFront_dangling hs).symm.trans hfill
  | next _ _ ht' hg ih =>
    obtain ⟨ht, hidx⟩ := ih
    subst ht'
    have ht' := ht.leave side hidx
    exact ⟨ht', ht'.sound.cached _ hg.2.1⟩

/-- `match` with a callback that spares what is being filled, wherever `match` comes to. -/
theorem sparingRule_reentrant {st : Order × World (Trace σ)}
    (hspares : ∀ idx t, ComesTo (reentrant f) side st idx t → LevelGuard side idx t →
      SparesFront f side idx t) :
    SparingRule c (reentrant f) side
      (fun o w => Handles used o w ∧ (MatchGuard side (o, w) →
        ComesTo (reentrant f) side st (visited side (o, w)) (o, w)))
      (fun idx o w => Handles used o w ∧ idx < w.book.config.numLevels ∧
        ComesTo (reentrant f) side st idx (o, w)) where
  enter := fun hb _ h hg => ⟨h.1, hb.cached _ hg.2.1, h.2 hg⟩
  fill := by
    rintro idx o w n rest - - ⟨h, hidx, hcome⟩ hfront hq
    have hlevel : LevelGuard side idx (o, w) := ⟨by rw [hfront]; exact List.cons_ne_nil _ _, hq⟩
    obtain ⟨w₁, w₂, h₁, hs₁, h₂, hs₂, h'⟩ := h.fill hfront hq (hspares idx _ hcome hlevel)
    obtain ⟨hfill, hconfig⟩ := fillFront_of_spared h.sound.coherent hfront h₁ hs₁ h₂ hs₂
    exact ⟨w₁, w₂, h₁, hs₁, h₂, hs₂, h', by rwa [World.book_withBook, hconfig],
      hcome.fill hlevel hfill⟩
  leave := fun _ _ h hg => ⟨h.1.leave _ h.2.1, fun hg' => h.2.2.next hg rfl hg'⟩

/-! ### One call -/

/-- The invariant of a run. -/
structure Traced (c : OrderBookConfig) (used : List ℕ) (w : World (Trace σ)) : Prop where
  reaches : Reaches c used w.book
  observed : Observed used w.book w.env.events

theorem Traced.cancel (id : ℕ) (h : Traced c used w) :
    ∃ w', cancelAll [id] w = .ok w' ∧ Traced c used w' := by
  obtain ⟨ok, b', hc⟩ := h.reaches.sound.coherent.cancelOrder_ok id
  refine ⟨⟨b', w.env.push (.cancelled id ok)⟩, by rw [cancelAll, hc]; rfl,
    h.reaches.cancelOrder hc, ?_⟩
  exact h.observed.cancelled h.reaches.sound.coherent h.reaches.located h.reaches.restingIn hc

theorem Traced.handles (h : Traced c used w) (hid : o.orderId ∉ used) : Handles used o w :=
  ⟨h.reaches.sound, h.reaches.located, hid, h.reaches.restingIn, h.observed⟩

/-- **A call that spares** what it fills. -/
theorem Traced.step {op : BookOp} (h : Traced c used w) (hok : op.OkUnique c used)
    (hs : op.Spares f w) : ∃ w', Converges (fun fuel => op.runTraced f fuel w) (.ok w') ∧
      Traced c (op.submittedIds used) w' := by
  cases op with
  | cancel id =>
    obtain ⟨w', hw', h'⟩ := h.cancel id
    exact ⟨w', by rw [← hw']; exact converges_const _, h'⟩
  | add o =>
    by_cases htype : o.type = .cancel
    · obtain ⟨w', hw', h'⟩ := h.cancel o.orderId
      refine ⟨w', by simp only [BookOp.runTraced, if_pos htype, hw']; exact converges_const _, ?_⟩
      rw [BookOp.submittedIds, if_pos htype]
      exact h'
    · obtain ⟨hid, hlimit⟩ := hok htype
      obtain ⟨q, w', hm, -, hr', ⟨hh, -⟩, -⟩ := (sparingRule_reentrant (hs htype)).addOrder_reaches
        h.reaches htype (fun hl => ⟨(hlimit hl).2, hid⟩) ⟨h.handles hid, fun hg => .enter hg⟩
      refine ⟨_, by simp only [BookOp.runTraced, if_neg htype]; exact hm, ?_⟩
      rw [BookOp.submittedIds, if_neg htype]
      refine ⟨hr'.mono ?_, ?_⟩
      · rw [BookOp.usedIds]
        split
        · exact fun _ h => h
        · exact fun _ => List.mem_cons_of_mem _
      · rw [afterMatch]
        split
        · exact (hh.observed.join (o := o.withQuantity q) hid).mono fun _ => List.mem_cons_of_mem _
        · exact hh.observed.mono fun _ => List.mem_cons_of_mem _

/-- **A call that does not**: the reference dangles. -/
theorem Traced.step_dangling {op : BookOp} (h : Traced c used w) (hok : op.OkUnique c used)
    (hs : ¬ op.Spares f w) :
    Converges (fun fuel => op.runTraced f fuel w) (.error (.fault .dangling)) := by
  cases op with
  | cancel id => exact absurd trivial hs
  | add o =>
    simp only [BookOp.Spares, not_forall] at hs
    obtain ⟨htype, idx, t, hcome, hlevel, hs⟩ := hs
    have hh := h.handles (hok htype).1
    have ht := hh.comesTo hcome
    have hloop := hcome.converges_error
      (fun i u hu hg => ((hh.comesTo hu).1.sound).cached _ hg.2.1)
      (faultsFrom_of_fillFront hlevel (ht.1.fillFront_dangling hs))
    simp only [BookOp.runTraced, if_neg htype, OrderBook.addOrder]
    exact Converges.bind_error hloop

/-- **Re-entrancy.** Take any sequence of calls and any callback. If in every fill of the run the
callback leaves the resting order alone, on both reports, then every call returns — `match` uses no
order that has left its queue —, nothing is reported about an order after a successful cancel, and
the index and the levels agree again; so are the best prices right, where `-1` is not a price and an
`int` holds the level indices. And if there is a fill in which it does cancel that order, the run
ends in undefined behaviour. -/
theorem reentrant_iff_spares (c : OrderBookConfig) (f : Canceller σ) (st : σ) (ops : List BookOp)
    (hops : WellFormedUnique c ops) :
    ((∃ w, Converges (runTraced c f st ops) (.ok w) ∧ NoLateReports w.env.events ∧
        Indexed w.book ∧ (0 ≤ c.minPrice → c.numLevels ≤ 2 ^ 31 → BestPrices w.book)) ↔
      AllowedFrom (BookOp.Spares f) (BookOp.runTraced f) ops ⟨new c, ⟨st, []⟩⟩) ∧
    (¬ AllowedFrom (BookOp.Spares f) (BookOp.runTraced f) ops ⟨new c, ⟨st, []⟩⟩ →
      Converges (runTraced c f st ops) (.error (.fault .dangling))) := by
  have hnew : Traced c [] ⟨new c, ⟨st, []⟩⟩ := ⟨reaches_new c, by simp, by simp, List.Pairwise.nil⟩
  have hfault : ¬ AllowedFrom (BookOp.Spares f) (BookOp.runTraced f) ops ⟨new c, ⟨st, []⟩⟩ →
      Converges (runTraced c f st ops) (.error (.fault .dangling)) :=
    @converges_error_of_not_allowedFrom _ _ _ _ (BookOp.runTraced f) (BookOp.OkUnique c)
      BookOp.submittedIds _ (Traced c) _ (fun _ _ _ h hok hs => h.step hok hs)
      (fun _ _ _ h hok hs => h.step_dangling hok hs) _ _ _ hnew hops
  refine ⟨⟨fun ⟨w, hw, _⟩ => ?_, fun hspares => ?_⟩, hfault⟩
  · by_contra hnot
    cases (hfault hnot).unique hw
  · obtain ⟨w, hw, h⟩ := @converges_runList_of_allowedFrom _ _ _ _ (BookOp.runTraced f)
      (BookOp.OkUnique c) BookOp.submittedIds _ (Traced c) (fun _ _ _ h hok hs => h.step hok hs)
      _ _ _ hnew hops hspares
    have hb := h.reaches.sound.coherent
    exact ⟨w, hw, h.observed.late, hb.toIndexed h.reaches.located h.reaches.aligned,
      fun hmin hlevels => (h.reaches.tidy ⟨hmin, by omega⟩).bestPrices hb⟩

/-- A bid, an ask, and an order that sells to the bid. -/
def sellToBid : List BookOp :=
  [.add ⟨1, 1, 5, 10, .buy, .limit⟩, .add ⟨2, 1, 7, 10, .sell, .limit⟩,
    .add ⟨3, 1, 5, 4, .sell, .limit⟩]

/-- A strategy that remembers two ids and pulls the one when the other is filled. With the same id
twice it would pull the order being filled. -/
def pullOther : Canceller (ℕ × ℕ) := fun r _ st =>
  if r.orderId = st.1 then ([st.2], (0, 0)) else if r.orderId = st.2 then ([st.1], (0, 0))
  else ([], st)

theorem reentrant_iff_spares_pullOther :
    ∃ w, Converges (runTraced ⟨1, 10, 1, by decide, by decide, by decide⟩ pullOther (1, 2)
        sellToBid) (.ok w) ∧
      NoLateReports w.env.events ∧ Indexed w.book ∧ BestPrices w.book := by
  obtain ⟨hiff, hfault⟩ := reentrant_iff_spares ⟨1, 10, 1, by decide, by decide, by decide⟩
    pullOther (1, 2) sellToBid
    ⟨fun _ => ⟨by decide, fun _ => ⟨by decide, 4, by decide, by decide⟩⟩,
      fun _ => ⟨by decide, fun _ => ⟨by decide, 6, by decide, by decide⟩⟩,
      fun _ => ⟨by decide, fun _ => ⟨by decide, 4, by decide, by decide⟩⟩, trivial⟩
  obtain ⟨w, hw, -⟩ : ∃ w, runTraced ⟨1, 10, 1, by decide, by decide, by decide⟩ pullOther (1, 2)
      sellToBid 3 = .ok w ∧ w.env.events.length = 3 := by decide +kernel
  -- the run returns, so it has spared what it filled
  obtain ⟨w, hw, hlate, hindexed, hbest⟩ := hiff.mpr <| by
    by_contra hnot
    cases (hfault hnot).eq_of_ok hw
  exact ⟨w, hw, hlate, hindexed, hbest (by decide) (by decide)⟩

/-- Two asks, and a bid that is filled against the first of them. -/
def twoAsks : List BookOp :=
  [.add ⟨1, 1, 5, 10, .sell, .limit⟩, .add ⟨2, 1, 6, 10, .sell, .limit⟩,
    .add ⟨3, 1, 5, 4, .buy, .limit⟩]

/-- A strategy that pulls order `1`, which is the one being filled. -/
def pullFirst : Canceller Unit := fun _ _ _ => ([1], ())

theorem runTraced_pullFirst_dangling :
    runTraced ⟨1, 10, 1, by decide, by decide, by decide⟩ pullFirst () twoAsks 3 =
        .error (.fault .dangling) ∧
      ¬ ∃ w, Converges
        (runTraced ⟨1, 10, 1, by decide, by decide, by decide⟩ pullFirst () twoAsks) (.ok w) := by
  have hrun : runTraced ⟨1, 10, 1, by decide, by decide, by decide⟩ pullFirst () twoAsks 3 =
      .error (.fault .dangling) := rfl
  refine ⟨hrun, fun ⟨w, hw⟩ => ?_⟩
  rcases hw.1 3 with h | h
  · rw [hrun] at h; cases h
  · rw [hrun] at h; cases h

end OrderBook

end MiniTrader
