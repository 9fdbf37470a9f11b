import MiniTrader.Engine.TradingEngine
import MiniTrader.OrderBook.Run

/-!
# Reasoning about the engine

Three ways to say something about the engine and an unknown strategy, from the least to the most
specific.

* `StepRel` is for what every engine does, whatever the strategy and however deep its calls are
  nested: a preorder that contains the steps the engine is made of contains all of `submit_order`,
  of `match` and of the strategy's programs. Its `fill` clause is about the two reports of a fill
  together, since most of what is true of a fill is not true of half of one. `FillRel` leaves
  submissions out, and is for strategies that do not submit from `on_fill`.
* `Along` is for promises of a strategy: it holds of a program and a state when every order the
  program submits on its way is as promised in the state in which it is submitted. It speaks of all
  fuels, so a promise does not depend on how a statement is proved.
* `ensures_run` and `converges_run` are the rules for sequences of top-level calls, for partial
  correctness with excluded faults and for total correctness.

## Main definitions

* `Passes`, `admitted`, `rejected` — the two outcomes of a submission
* `FillRel`, `StepRel`, `Along`, `Conditions`, `EngineOp.Ok`, `Quiet`

## Main results

* `submitOrder_of_passes`, `submitOrder_of_not_passes`
* `StepRel.interp`, `StepRel.submitOrder`
* `fillCallback_of_noSubmit`, `interp_of_noSubmit` — the depth of calls does not matter
* `ensures_interp`, `converges_interp` — the rules for programs
* `ensures_run`, `run_induction`, `StepRel.run`, `converges_run` — the rules for runs
-/

namespace MiniTrader

open Fuelled

namespace TradingEngine

variable {σ α : Type} {S : Strategy σ} {e e' : TradingEngine σ} {own : Bool} {o : Order}
  {cb : FillCallback (EngineEnv σ)} {fuel n : ℕ} {p : StrategyM σ α}

/-! ### Submitting -/

/-- The risk gate passes the order. -/
def Passes (o : Order) (e : TradingEngine σ) : Prop := (e.env.risk.check e.now o).1 = .pass

instance (o : Order) (e : TradingEngine σ) : Decidable (e.Passes o) :=
  inferInstanceAs (Decidable (_ = _))

/-- The state after the check. -/
def checked (own : Bool) (o : Order) (e : TradingEngine σ) : TradingEngine σ :=
  (e.log (.submitted own o)).readClock.mapEnv fun env =>
    { env with risk := (e.env.risk.check e.now o).2 }

/-- The state after an order has been rejected. -/
def rejected (own : Bool) (o : Order) (e : TradingEngine σ) : TradingEngine σ :=
  (e.checked own o).mapEnv fun env => { env with ordersRejected := env.ordersRejected + 1 }

/-- The state in which an order that has passed reaches the book. -/
def admitted (own : Bool) (o : Order) (e : TradingEngine σ) : TradingEngine σ :=
  let e := (e.checked own o).mapEnv fun env =>
    { env with ordersSubmitted := env.ordersSubmitted + 1 }
  let e := if o.type = .limit then
    e.mapEnv fun env => { env with risk := env.risk.trackOrder o } else e
  if o.type = .cancel then logCancel true o.orderId e else e

theorem submitOrder_of_passes (h : e.Passes o) :
    e.submitOrder cb fuel own o = OrderBook.addOrder cb fuel o (e.admitted own o) := by
  unfold submitOrder
  exact if_neg (not_not.mpr h)

theorem submitOrder_of_not_passes (h : ¬ e.Passes o) :
    e.submitOrder cb fuel own o = .ok (e.rejected own o) := by
  unfold submitOrder
  exact if_pos h

section

variable (own : Bool) (o : Order) (e : TradingEngine σ)

@[simp] theorem book_rejected : (e.rejected own o).book = e.book := rfl

@[simp] theorem journal_rejected :
    (e.rejected own o).env.journal = e.env.journal ++ [.submitted own o] := rfl

@[simp] theorem tickQueue_rejected : (e.rejected own o).env.tickQueue = e.env.tickQueue := rfl

@[simp] theorem position_rejected : (e.rejected own o).env.risk.position = e.env.risk.position :=
  e.env.risk.position_check e.now o

/-- **What an order that passes changes** before the book sees it. -/
theorem admitted_eq : e.admitted own o = e.mapEnv fun env =>
    { env with
      reads := env.reads + 1
      risk :=
        if o.type = .limit then (env.risk.check e.now o).2.trackOrder o
        else (env.risk.check e.now o).2
      ordersSubmitted := env.ordersSubmitted + 1
      journal := env.journal ++ [.submitted own o]
      cancels := env.cancels ++
        if o.type = .cancel then
          [⟨o.orderId, true, (e.book.orderMap.lookup o.orderId).isSome, env.journal.length + 1⟩]
        else [] } := by
  rw [admitted]
  split_ifs with hcancel hlimit hlimit
  · rw [hcancel] at hlimit
    cases hlimit
  · simp [logCancel, checked, log, readClock, World.mapEnv, now]
  · simp only [List.append_nil]
    rfl
  · simp only [List.append_nil]
    rfl

@[simp] theorem book_admitted : (e.admitted own o).book = e.book := by rw [admitted_eq]; rfl

@[simp] theorem strategy_admitted : (e.admitted own o).env.strategy = e.env.strategy := by
  rw [admitted_eq]; rfl

@[simp] theorem journal_admitted :
    (e.admitted own o).env.journal = e.env.journal ++ [.submitted own o] := by
  rw [admitted_eq]; rfl

@[simp] theorem tickQueue_admitted : (e.admitted own o).env.tickQueue = e.env.tickQueue := by
  rw [admitted_eq]; rfl

/-- What an order that passes does to the gate. -/
theorem risk_admitted : (e.admitted own o).env.risk =
    if o.type = .limit then (e.env.risk.check e.now o).2.trackOrder o
    else (e.env.risk.check e.now o).2 := by
  rw [admitted_eq]; rfl

@[simp] theorem position_admitted :
    (e.admitted own o).env.risk.position = e.env.risk.position := by
  rw [risk_admitted]; split <;> exact e.env.risk.position_check e.now o

theorem risk_rejected : (e.rejected own o).env.risk = (e.env.risk.check e.now o).2 := rfl

@[simp] theorem riskConfig_rejected :
    (e.rejected own o).env.risk.config = e.env.risk.config := e.env.risk.config_check e.now o

@[simp] theorem activeOrders_rejected :
    (e.rejected own o).env.risk.activeOrders = e.env.risk.activeOrders :=
  e.env.risk.activeOrders_check e.now o

@[simp] theorem riskConfig_admitted :
    (e.admitted own o).env.risk.config = e.env.risk.config := by
  rw [risk_admitted]; split <;> exact e.env.risk.config_check e.now o

theorem activeOrders_admitted : (e.admitted own o).env.risk.activeOrders =
    if o.type = .limit then e.env.risk.activeOrders.insert o.orderId ⟨o.side, o.price⟩
    else e.env.risk.activeOrders := by
  have hact := e.env.risk.activeOrders_check e.now o
  rw [risk_admitted]
  split
  · exact congrArg (AList.insert _ _) hact
  · exact hact

@[simp] theorem cancels_rejected : (e.rejected own o).env.cancels = e.env.cancels := rfl

/-- What is recorded of an order that passes. -/
theorem cancels_admitted : (e.admitted own o).env.cancels = e.env.cancels ++
    if o.type = .cancel then
      [⟨o.orderId, true, (e.book.orderMap.lookup o.orderId).isSome, e.env.journal.length + 1⟩]
    else [] := by
  rw [admitted_eq]; rfl

end

/-! ### Cancelling -/

/-- The state in which a cancel reaches the book. -/
def untracked (orderId : ℕ) (e : TradingEngine σ) : TradingEngine σ :=
  (e.logCancel false orderId).mapEnv fun env => { env with risk := env.risk.untrackOrder orderId }

theorem cancels_untracked (orderId : ℕ) (e : TradingEngine σ) :
    (e.untracked orderId).env.cancels = e.env.cancels ++
      [⟨orderId, false, (e.book.orderMap.lookup orderId).isSome, e.env.journal.length⟩] := rfl

theorem cancelOrder_eq (orderId : ℕ) : e.cancelOrder orderId =
    (e.book.cancelOrder orderId >>= fun r => .ok ((e.untracked orderId).withBook r.2)) := rfl

theorem cancelOrder_ok {orderId : ℕ} {r : Bool} {b : OrderBook}
    (h : e.book.cancelOrder orderId = .ok (r, b)) :
    e.cancelOrder orderId = .ok ((e.untracked orderId).withBook b) := by
  rw [cancelOrder_eq, h]; rfl

theorem of_cancelOrder_eq_ok {orderId : ℕ} (h : e.cancelOrder orderId = .ok e') :
    ∃ r b, e.book.cancelOrder orderId = .ok (r, b) ∧ e' = (e.untracked orderId).withBook b := by
  rw [cancelOrder_eq] at h
  obtain ⟨⟨r, b⟩, hc, h⟩ := exists_of_bind_eq_ok h
  cases h
  exact ⟨r, b, hc, rfl⟩

/-! ### The journal -/

/-- The ids of the orders submitted so far, by everyone. A `Cancel` order names another order. -/
def usedIds : List EngineEvent → List ℕ
  | [] => []
  | .submitted _ o :: journal =>
    if o.type = .cancel then usedIds journal else o.orderId :: usedIds journal
  | .filled _ :: journal => usedIds journal

/-- The ids of the orders the strategy has submitted so far. -/
def ownIds : List EngineEvent → List ℕ
  | [] => []
  | .submitted own o :: journal =>
    if own = true ∧ o.type ≠ .cancel then o.orderId :: ownIds journal else ownIds journal
  | .filled _ :: journal => ownIds journal

/-- The execution reports so far. -/
def reports : List EngineEvent → List ExecutionReport
  | [] => []
  | .submitted _ _ :: journal => reports journal
  | .filled r :: journal => r :: reports journal

@[simp] theorem usedIds_append (j j' : List EngineEvent) :
    usedIds (j ++ j') = usedIds j ++ usedIds j' := by
  induction j with
  | nil => rfl
  | cons event j ih =>
    cases event with
    | submitted own o => simp only [List.cons_append, usedIds, ih]; split <;> simp
    | filled r => exact ih

@[simp] theorem ownIds_append (j j' : List EngineEvent) :
    ownIds (j ++ j') = ownIds j ++ ownIds j' := by
  induction j with
  | nil => rfl
  | cons event j ih =>
    cases event with
    | submitted own o => simp only [List.cons_append, ownIds, ih]; split <;> simp
    | filled r => exact ih

/-- The orders of the strategy are among those that have been submitted. -/
theorem ownIds_subset_usedIds (journal : List EngineEvent) : ownIds journal ⊆ usedIds journal := by
  induction journal with
  | nil => exact List.Subset.refl _
  | cons event journal ih =>
    cases event with
    | filled r => exact ih
    | submitted own o =>
      simp only [ownIds, usedIds]
      split_ifs with h₁ h₂ h₂
      · exact absurd h₂ h₁.2
      · exact List.cons_subset_cons _ ih
      · exact ih
      · exact fun _ hid => List.mem_cons_of_mem _ (ih hid)

@[simp] theorem reports_append (j j' : List EngineEvent) :
    reports (j ++ j') = reports j ++ reports j' := by
  induction j with
  | nil => rfl
  | cons event j ih =>
    cases event with
    | submitted own o => exact ih
    | filled r => exact congrArg (r :: ·) ih

section

variable {journal : List EngineEvent}

theorem usedIds_subset_append (journal j : List EngineEvent) :
    usedIds journal ⊆ usedIds (journal ++ j) := by
  rw [usedIds_append]
  exact List.subset_append_left _ _

theorem mem_usedIds_append_submitted (journal : List EngineEvent) (own : Bool)
    (htype : o.type ≠ .cancel) : o.orderId ∈ usedIds (journal ++ [.submitted own o]) := by
  rw [usedIds_append]
  exact List.mem_append_right _ (by simp [usedIds, htype])

/-- An order from outside is not the strategy's. -/
theorem ownIds_append_outside (journal : List EngineEvent) (o : Order) :
    ownIds (journal ++ [.submitted false o]) = ownIds journal := by
  simp [ownIds]

theorem ownIds_append_filled (journal : List EngineEvent) (r : ExecutionReport) :
    ownIds (journal ++ [.filled r]) = ownIds journal := by
  simp [ownIds]

theorem reports_append_submitted (journal : List EngineEvent) (own : Bool) (o : Order) :
    reports (journal ++ [.submitted own o]) = reports journal := by
  simp [reports]

end

/-! ### What every engine does -/

/-- A preorder that contains the steps of the engine other than submissions. -/
structure FillRel (R : TradingEngine σ → TradingEngine σ → Prop) : Prop where
  refl : ∀ e, R e e
  trans : ∀ {e₁ e₂ e₃}, R e₁ e₂ → R e₂ e₃ → R e₁ e₃
  withBook : ∀ e b, R e (e.withBook b)
  setStrategy : ∀ e s, R e (setStrategy s e)
  untracked : ∀ id e, R e (untracked id e)
  /-- Both reports of a fill, and what the strategy does on hearing of them. The price and the
  resting order's id of the second report are read again after the first. -/
  fill : ∀ {takerId makerId makerId' : ℕ} {p p' q : ℤ} {side : Side} {e e₁ e₂},
    R (beforeOnFill ⟨takerId, makerId, p, q, side, false⟩ e) e₁ →
    R (beforeOnFill ⟨makerId', takerId, p', q, side.opp, true⟩ e₁) e₂ → R e e₂

/-- A preorder that contains all the steps of the engine. -/
structure StepRel (R : TradingEngine σ → TradingEngine σ → Prop) : Prop extends FillRel R where
  rejected : ∀ own o e, R e (rejected own o e)
  admitted : ∀ own o e, R e (admitted own o e)

section

variable {R : TradingEngine σ → TradingEngine σ → Prop}

theorem FillRel.cancelOrder (hR : FillRel R) {orderId : ℕ} (h : e.cancelOrder orderId = .ok e') :
    R e e' := by
  obtain ⟨r, b, -, rfl⟩ := of_cancelOrder_eq_ok h
  exact hR.trans (hR.untracked orderId e) (hR.withBook _ b)

/-- The relation holds across a callback, once the engine has taken the report in. -/
def Reports (R : TradingEngine σ → TradingEngine σ → Prop) (cb : FillCallback (EngineEnv σ)) :
    Prop :=
  ∀ r e e', cb r e = .ok e' → R (beforeOnFill r e) e'

theorem FillRel.fillFront (hR : FillRel R) (hcb : Reports R cb) {side : Side} {idx : ℕ}
    {s s' : Order × TradingEngine σ} (h : OrderBook.fillFront cb side idx s = .ok s') :
    R s.2 s'.2 := by
  obtain ⟨n, ns, w₁, m, w₂, m', -, h₁, -, h₂, -, rfl⟩ := OrderBook.of_fillFront_eq_ok h
  exact hR.trans (hR.fill (hcb _ _ _ h₁) (hcb _ _ _ h₂)) (hR.withBook _ _)

theorem FillRel.matchOrder (hR : FillRel R) (hcb : Reports R cb)
    {s s' : Order × TradingEngine σ} (h : OrderBook.matchOrder cb fuel s = .ok s') : R s.2 s'.2 :=
  OrderBook.matchOrder_induction (I := fun t => R s.2 t.2) rfl
    (fun ht _ hfill => hR.trans ht (hR.fillFront hcb hfill))
    (fun ht => hR.trans ht (hR.withBook _ _)) (hR.refl _) h

theorem FillRel.addOrder (hR : FillRel R) (hcb : Reports R cb)
    (h : OrderBook.addOrder cb fuel o e = .ok e') : R e e' := by
  by_cases htype : o.type = .cancel
  · rw [OrderBook.addOrder, if_pos htype] at h
    obtain ⟨r, -, h⟩ := exists_of_bind_eq_ok h
    cases h
    exact hR.withBook _ _
  · obtain ⟨o', w, hm, -, rfl⟩ := OrderBook.of_addOrder_eq_ok htype h
    refine hR.trans (hR.matchOrder hcb hm) ?_
    rw [OrderBook.afterMatch]
    split
    · exact hR.withBook _ _
    · exact hR.refl _

/-- A program that submits nothing. -/
theorem FillRel.interp (hR : FillRel R) (hp : p.NoSubmit) {r : α × TradingEngine σ}
    (h : TradingEngine.interp cb fuel p e = .ok r) : R e r.2 := by
  induction p generalizing e with
  | pure a => cases h; exact hR.refl _
  | get k ih => exact ih _ (hp _) h
  | set s k ih => exact hR.trans (hR.setStrategy e s) (ih hp h)
  | submit order k ih => exact hp.elim
  | cancel id k ih =>
    obtain ⟨e₁, h₁, h⟩ := exists_of_bind_eq_ok h
    exact hR.trans (hR.cancelOrder h₁) (ih hp h)
  | position i k ih => exact ih _ (hp _) h

/-- A strategy that does not submit from `on_fill`. -/
theorem FillRel.reports (hR : FillRel R) (hS : ∀ r, (S.onFill r).NoSubmit) (n : ℕ) :
    Reports R (fillCallback S n) := by
  intro r e e' h
  cases n with
  | zero => cases h
  | succ n =>
    obtain ⟨t, ht, h⟩ := exists_of_bind_eq_ok h
    cases h
    exact hR.interp (hS r) ht

theorem StepRel.submitOrder (hR : StepRel R) (hcb : Reports R cb)
    (h : e.submitOrder cb fuel own o = .ok e') : R e e' := by
  by_cases hp : e.Passes o
  · rw [submitOrder_of_passes hp] at h
    exact hR.trans (hR.admitted own o e) (hR.toFillRel.addOrder hcb h)
  · rw [submitOrder_of_not_passes hp] at h
    cases h
    exact hR.rejected own o e

theorem StepRel.interpWith (hR : StepRel R) (hcb : Reports R cb) {r : α × TradingEngine σ}
    (h : interp cb fuel p e = .ok r) : R e r.2 := by
  induction p generalizing e with
  | pure a => cases h; exact hR.refl _
  | get k ih => exact ih _ h
  | set s k ih => exact hR.trans (hR.setStrategy e s) (ih h)
  | submit order k ih =>
    obtain ⟨e₁, h₁, h⟩ := exists_of_bind_eq_ok h
    exact hR.trans (hR.submitOrder hcb h₁) (ih h)
  | cancel id k ih =>
    obtain ⟨e₁, h₁, h⟩ := exists_of_bind_eq_ok h
    exact hR.trans (hR.toFillRel.cancelOrder h₁) (ih h)
  | position i k ih => exact ih _ h

/-- However deep the calls of `on_fill` are nested. -/
theorem StepRel.reports (hR : StepRel R) (S : Strategy σ) (n : ℕ) :
    Reports R (fillCallback S n) := by
  induction n with
  | zero => intro r e e' h; cases h
  | succ n ih =>
    intro r e e' h
    obtain ⟨t, ht, h⟩ := exists_of_bind_eq_ok h
    cases h
    exact hR.interpWith ih ht

/-- **What every engine does**, every program of a strategy does. -/
theorem StepRel.interp (hR : StepRel R) {r : α × TradingEngine σ}
    (h : TradingEngine.interp (fillCallback S n) fuel p e = .ok r) : R e r.2 :=
  hR.interpWith (hR.reports S n) h

end

section

variable (r : ExecutionReport)

/-- **What a report changes** before the strategy hears of it. -/
theorem beforeOnFill_eq : beforeOnFill r e = e.mapEnv fun env =>
    { env with
      risk :=
        if r.isMaker then (env.risk.onFill r).untrackOrder r.orderId else env.risk.onFill r
      fillsReceived := env.fillsReceived + 1
      journal := env.journal ++ [.filled r] } := by
  rw [beforeOnFill]
  split <;> rfl

@[simp] theorem book_beforeOnFill : (beforeOnFill r e).book = e.book := by
  rw [beforeOnFill_eq]; rfl

@[simp] theorem strategy_beforeOnFill :
    (beforeOnFill r e).env.strategy = e.env.strategy := by
  rw [beforeOnFill_eq]; rfl

@[simp] theorem journal_beforeOnFill :
    (beforeOnFill r e).env.journal = e.env.journal ++ [.filled r] := by
  rw [beforeOnFill_eq]; rfl

/-- What a report does to the gate. -/
theorem risk_beforeOnFill : (beforeOnFill r e).env.risk =
    if r.isMaker then (e.env.risk.onFill r).untrackOrder r.orderId else e.env.risk.onFill r := by
  rw [beforeOnFill_eq]; rfl

@[simp] theorem position_beforeOnFill :
    (beforeOnFill r e).env.risk.position = (e.env.risk.onFill r).position := by
  rw [risk_beforeOnFill]; split <;> rfl

@[simp] theorem cancels_beforeOnFill : (beforeOnFill r e).env.cancels = e.env.cancels := by
  rw [beforeOnFill_eq]; rfl

@[simp] theorem tickQueue_beforeOnFill :
    (beforeOnFill r e).env.tickQueue = e.env.tickQueue := by
  rw [beforeOnFill_eq]; rfl

end

/-- Only submissions use ids. -/
theorem fillRel_ids : FillRel fun e e' : TradingEngine σ =>
    usedIds e'.env.journal = usedIds e.env.journal ∧
      ownIds e'.env.journal = ownIds e.env.journal where
  refl _ := ⟨rfl, rfl⟩
  trans h h' := ⟨h'.1.trans h.1, h'.2.trans h.2⟩
  withBook _ _ := ⟨rfl, rfl⟩
  setStrategy _ _ := ⟨rfl, rfl⟩
  untracked _ _ := ⟨rfl, rfl⟩
  fill h h' := by
    rw [h'.1, h'.2, journal_beforeOnFill, usedIds_append, ownIds_append, h.1, h.2,
      journal_beforeOnFill, usedIds_append, ownIds_append]
    simp [usedIds, ownIds]

/-- The ids in use after a submission, when nothing is submitted from `on_fill`. -/
theorem ids_submitOrder (hS : ∀ r, (S.onFill r).NoSubmit)
    (h : e.submitOrder (fillCallback S n) fuel own o = .ok e') :
    usedIds e'.env.journal = usedIds (e.env.journal ++ [.submitted own o]) ∧
      ownIds e'.env.journal = ownIds (e.env.journal ++ [.submitted own o]) := by
  by_cases hp : e.Passes o
  · rw [submitOrder_of_passes hp] at h
    have hids := fillRel_ids.addOrder (fillRel_ids.reports hS n) h
    rwa [journal_admitted] at hids
  · rw [submitOrder_of_not_passes hp] at h
    cases h
    exact ⟨rfl, rfl⟩

/-- Every id the book has been given is one that has been submitted. -/
theorem usedIds_add_subset (journal : List EngineEvent) (own : Bool) (htype : o.type ≠ .cancel) :
    OrderBook.BookOp.usedIds (usedIds journal) (.add o) ⊆
      usedIds (journal ++ [.submitted own o]) := by
  rw [OrderBook.BookOp.usedIds]
  split
  · exact List.cons_subset.mpr
      ⟨mem_usedIds_append_submitted journal own htype, usedIds_subset_append _ _⟩
  · exact usedIds_subset_append _ _

/-- What rests after a call has an id that has been submitted. -/
theorem restingIn_afterMatch {ε : Type} {journal : List EngineEvent} {q : ℤ} {w : World ε}
    (h : OrderBook.RestingIn (usedIds journal) w.book) (own : Bool) (htype : o.type ≠ .cancel) :
    OrderBook.RestingIn (usedIds (journal ++ [.submitted own o]))
      (OrderBook.afterMatch (o.withQuantity q) w).book := fun s i n hn =>
  usedIds_add_subset journal own htype (h.afterMatch (o := o.withQuantity q) s i n hn)

/-- The tick queue belongs to `push_tick` and `run_once`. -/
theorem stepRel_tickQueue :
    StepRel fun e e' : TradingEngine σ => e'.env.tickQueue = e.env.tickQueue where
  refl _ := rfl
  trans h h' := h'.trans h
  withBook _ _ := rfl
  setStrategy _ _ := rfl
  rejected own o e := tickQueue_rejected own o e
  admitted own o e := tickQueue_admitted own o e
  untracked _ _ := rfl
  fill h h' := by
    rw [h', tickQueue_beforeOnFill, h, tickQueue_beforeOnFill]

/-! ### Running a program -/

section

variable {β : Type}

@[simp] theorem strategy_setStrategy (s : σ) : (e.setStrategy s).env.strategy = s := rfl

@[simp] theorem setStrategy_self : e.setStrategy e.env.strategy = e := rfl

theorem interp_pure (a : α) : interp cb fuel (pure a) e = .ok (a, e) := by
  show interp cb fuel (.pure a) e = _
  rw [interp]

theorem interp_bind (p : StrategyM σ α) (f : α → StrategyM σ β) :
    interp cb fuel (p >>= f) e =
      (interp cb fuel p e >>= fun r => interp cb fuel (f r.1) r.2) := by
  have assoc : ∀ {γ δ : Type} (x : Outcome (TradingEngine σ)) (g : TradingEngine σ → Outcome γ)
      (h : γ → Outcome δ), (x >>= g >>= h) = (x >>= fun a => g a >>= h) := by
    intro γ δ x g h
    cases x <;> rfl
  induction p generalizing e with
  | pure a => rfl
  | get k ih => exact ih _
  | set s k ih => exact ih
  | submit order k ih =>
    show (e.submitOrder cb fuel true order >>= _) = (_ >>= _ >>= _)
    rw [assoc]
    exact congrArg _ (funext fun e' => ih)
  | cancel id k ih =>
    show (e.cancelOrder id >>= _) = (_ >>= _ >>= _)
    rw [assoc]
    exact congrArg _ (funext fun e' => ih)
  | position i k ih => exact ih _

theorem interp_state : interp cb fuel StrategyM.state e = .ok (e.env.strategy, e) := by
  rw [StrategyM.state, interp, interp]

theorem interp_modify (g : σ → σ) :
    interp cb fuel (StrategyM.modify g) e = .ok ((), e.setStrategy (g e.env.strategy)) := by
  rw [StrategyM.modify, interp, interp, interp]

theorem interp_getPosition (i : ℕ) :
    interp cb fuel (StrategyM.getPosition i) e = .ok (e.position i, e) := by
  rw [StrategyM.getPosition, interp, interp]

theorem interp_cancelOrder (id : ℕ) : interp cb fuel (StrategyM.cancelOrder id) e =
    (e.cancelOrder id >>= fun e' => .ok ((), e')) := by
  rw [StrategyM.cancelOrder, interp]
  exact congrArg _ (funext fun e' => by rw [interp])

theorem interp_submitOrder (o : Order) : interp cb fuel (StrategyM.submitOrder o) e =
    (e.submitOrder cb fuel true o >>= fun e' => .ok ((), e')) := by
  rw [StrategyM.submitOrder, interp]
  exact congrArg _ (funext fun e' => by rw [interp])

theorem interp_ite (c : Prop) [Decidable c] (p q : StrategyM σ α) :
    interp cb fuel (if c then p else q) e =
      if c then interp cb fuel p e else interp cb fuel q e := by
  split <;> rfl

end

/-! ### Strategies that do not submit from `on_fill` -/

/-- A program that submits nothing calls nothing that could call it back. -/
theorem interp_of_noSubmit (hp : p.NoSubmit) {cb' : FillCallback (EngineEnv σ)} {fuel' : ℕ} :
    interp cb fuel p e = interp cb' fuel' p e := by
  induction p generalizing e with
  | pure a => rfl
  | get k ih => simp only [interp]; exact ih _ (hp _)
  | set s k ih => simp only [interp]; exact ih hp
  | submit order k ih => exact hp.elim
  | cancel id k ih =>
    simp only [interp]
    cases e.cancelOrder id with
    | error err => rw [error_bind, error_bind]
    | ok e' => rw [ok_bind, ok_bind]; exact ih hp
  | position i k ih => simp only [interp]; exact ih _ (hp _)

/-- The depth of the calls of `on_fill` is one. -/
theorem fillCallback_of_noSubmit (hS : ∀ r, (S.onFill r).NoSubmit) (n : ℕ) :
    fillCallback S (n + 1) = fillCallback S 1 := by
  funext r e
  show onFill S _ _ r e = onFill S _ _ r e
  unfold onFill
  rw [interp_of_noSubmit (hS r)]

theorem submitOrder_of_noSubmit (hS : ∀ r, (S.onFill r).NoSubmit) (fuel : ℕ) :
    e.submitOrder (fillCallback S fuel) fuel own o =
      e.submitOrder (fillCallback S 1) fuel own o := by
  cases fuel with
  | succ n => rw [fillCallback_of_noSubmit hS n]
  | zero =>
    by_cases hp : e.Passes o
    · rw [submitOrder_of_passes hp, submitOrder_of_passes hp]
      rfl
    · rw [submitOrder_of_not_passes hp, submitOrder_of_not_passes hp]

/-- The three outcomes of a submission that returns. -/
theorem of_submitOrder_eq_ok (hS : ∀ r, (S.onFill r).NoSubmit)
    (h : e.submitOrder (fillCallback S fuel) fuel own o = .ok e') :
    (¬ e.Passes o ∧ e' = e.rejected own o) ∨
      (e.Passes o ∧ o.type = .cancel ∧ ∃ r b, e.book.cancelOrder o.orderId = .ok (r, b) ∧
        e' = (e.admitted own o).withBook b) ∨
      (e.Passes o ∧ o.type ≠ .cancel ∧
        OrderBook.addOrder (fillCallback S 1) fuel o (e.admitted own o) = .ok e') := by
  by_cases hp : e.Passes o
  swap
  · rw [submitOrder_of_not_passes hp] at h
    cases h
    exact Or.inl ⟨hp, rfl⟩
  rw [submitOrder_of_noSubmit hS, submitOrder_of_passes hp] at h
  by_cases htype : o.type = .cancel
  · rw [OrderBook.addOrder, if_pos htype, book_admitted] at h
    obtain ⟨⟨r, b⟩, hc, h⟩ := exists_of_bind_eq_ok h
    cases h
    exact Or.inr (Or.inl ⟨hp, htype, r, b, hc, rfl⟩)
  · exact Or.inr (Or.inr ⟨hp, htype, h⟩)

/-! ### Promises of a strategy -/

/-- Every order the program submits is as promised when it is submitted. Running the program this
way reaches the states the program itself reaches. -/
def Along (S : Strategy σ) (ok : Order → TradingEngine σ → Prop) :
    StrategyM σ α → TradingEngine σ → Prop
  | .pure _, _ => True
  | .get k, e => Along S ok (k e.env.strategy) e
  | .set s k, e => Along S ok k (e.setStrategy s)
  | .submit order k, e => ok order e ∧ ∀ fuel e',
      e.submitOrder (fillCallback S fuel) fuel true order = .ok e' → Along S ok k e'
  | .cancel orderId k, e => ∀ e', e.cancelOrder orderId = .ok e' → Along S ok k e'
  | .position instrumentId k, e => Along S ok (k (e.position instrumentId)) e

/-- Two promises are one. -/
theorem Along.and {ok ok' : Order → TradingEngine σ → Prop} (h : Along S ok p e)
    (h' : Along S ok' p e) : Along S (fun o e => ok o e ∧ ok' o e) p e := by
  induction p generalizing e with
  | pure a => trivial
  | get k ih => exact ih _ h h'
  | set s k ih => exact ih h h'
  | submit order k ih =>
    exact ⟨⟨h.1, h'.1⟩, fun fuel e' he' => ih (h.2 fuel e' he') (h'.2 fuel e' he')⟩
  | cancel id k ih => exact fun e' he' => ih (h e' he') (h' e' he')
  | position i k ih => exact ih _ h h'

/-- A program that submits nothing keeps every promise. -/
theorem along_of_noSubmit {ok : Order → TradingEngine σ → Prop} (hp : p.NoSubmit) :
    Along S ok p e := by
  induction p generalizing e with
  | pure a => trivial
  | get k ih => exact ih _ (hp _)
  | set s k ih => exact ih hp
  | submit order k ih => exact hp.elim
  | cancel id k ih => exact fun e' _ => ih hp
  | position i k ih => exact ih _ (hp _)

/-- **Partial correctness of programs**, with excluded faults: an invariant that holds whatever the
strategy sets its state to, and that every promised submission and every cancel keeps. -/
theorem ensures_interp {bad : Fault → Prop} {ok : Order → TradingEngine σ → Prop}
    {I : TradingEngine σ → Prop} (hset : ∀ {e} s, I e → I (setStrategy s e))
    (hsubmit : ∀ {o e}, I e → ok o e →
      Ensures bad I (submitOrder (fillCallback S fuel) fuel true o e))
    (hcancel : ∀ {e} id, I e → Ensures bad I (TradingEngine.cancelOrder id e))
    (he : I e) (hp : Along S ok p e) :
    Ensures bad (fun r => I r.2) (interp (fillCallback S fuel) fuel p e) := by
  induction p generalizing e with
  | pure a => exact ensures_ok he
  | get k ih => exact ih _ he hp
  | set s k ih => exact ih (hset s he) hp
  | submit order k ih =>
    exact (hsubmit he hp.1).bind fun e₁ h₁ he₁ => ih he₁ (hp.2 fuel e₁ h₁)
  | cancel id k ih => exact (hcancel id he).bind fun e₁ h₁ he₁ => ih he₁ (hp e₁ h₁)
  | position i k ih => exact ih _ he hp

/-- The rule for programs that return. -/
theorem interp_induction {ok : Order → TradingEngine σ → Prop} {I : TradingEngine σ → Prop}
    (hset : ∀ {e} s, I e → I (setStrategy s e))
    (hsubmit : ∀ {o e e'}, I e → ok o e →
      submitOrder (fillCallback S fuel) fuel true o e = .ok e' → I e')
    (hcancel : ∀ {id e e'}, I e → TradingEngine.cancelOrder id e = .ok e' → I e')
    (he : I e) (hp : Along S ok p e) {r : α × TradingEngine σ}
    (h : interp (fillCallback S fuel) fuel p e = .ok r) : I r.2 :=
  (@ensures_interp _ _ _ _ _ _ (fun _ => False) _ _ hset
    (fun he hok => ensures_of_ok fun h => hsubmit he hok h)
    (fun _ he => ensures_of_ok fun h => hcancel he h) he hp).ok h

/-- The same for programs that submit nothing. -/
theorem ensures_interp_of_noSubmit {bad : Fault → Prop} {I : TradingEngine σ → Prop}
    (hset : ∀ {e} s, I e → I (setStrategy s e))
    (hcancel : ∀ {e} id, I e → Ensures bad I (TradingEngine.cancelOrder id e))
    (he : I e) (hp : p.NoSubmit) : Ensures bad (fun r => I r.2) (interp cb fuel p e) := by
  induction p generalizing e with
  | pure a => exact ensures_ok he
  | get k ih => exact ih _ he (hp _)
  | set s k ih => exact ih (hset s he) hp
  | submit order k ih => exact hp.elim
  | cancel id k ih => exact (hcancel id he).bind fun e₁ _ he₁ => ih he₁ hp
  | position i k ih => exact ih _ he (hp _)

/-- **Total correctness of programs**: an invariant that holds whatever the strategy sets its state
to, and that every promised submission and every cancel re-establishes. -/
theorem converges_interp {ok : Order → TradingEngine σ → Prop} {I : TradingEngine σ → Prop}
    (hset : ∀ {e} s, I e → I (setStrategy s e))
    (hsubmit : ∀ {o e}, I e → ok o e → ∃ e', Converges
      (fun fuel => submitOrder (fillCallback S fuel) fuel true o e) (.ok e') ∧ I e')
    (hcancel : ∀ {e} id, I e → ∃ e', TradingEngine.cancelOrder id e = .ok e' ∧ I e')
    (he : I e) (hp : Along S ok p e) :
    ∃ r, Converges (fun fuel => interp (fillCallback S fuel) fuel p e) (.ok r) ∧ I r.2 := by
  induction p generalizing e with
  | pure a => exact ⟨(a, e), converges_const _, he⟩
  | get k ih => exact ih _ he hp
  | set s k ih => exact ih (hset s he) hp
  | submit order k ih =>
    obtain ⟨e₁, h₁, he₁⟩ := hsubmit he hp.1
    obtain ⟨N, hN⟩ := h₁.2
    obtain ⟨r, hr, hI⟩ := ih he₁ (hp.2 N e₁ (hN N le_rfl))
    exact ⟨r, h₁.bind hr, hI⟩
  | cancel id k ih =>
    obtain ⟨e₁, h₁, he₁⟩ := hcancel id he
    obtain ⟨r, hr, hI⟩ := ih he₁ (hp e₁ h₁)
    exact ⟨r, by simp only [interp, h₁, ok_bind]; exact hr, hI⟩
  | position i k ih => exact ih _ he hp

section

variable {β : Type} {ok : Order → TradingEngine σ → Prop}

theorem along_state_bind {f : σ → StrategyM σ β} :
    Along S ok (StrategyM.state >>= f) e ↔ Along S ok (f e.env.strategy) e := Iff.rfl

theorem along_modify_bind {g : σ → σ} {f : Unit → StrategyM σ β} :
    Along S ok (StrategyM.modify g >>= f) e ↔
      Along S ok (f ()) (e.setStrategy (g e.env.strategy)) := Iff.rfl

theorem along_getPosition_bind {i : ℕ} {f : ℤ → StrategyM σ β} :
    Along S ok (StrategyM.getPosition i >>= f) e ↔ Along S ok (f (e.position i)) e := Iff.rfl

theorem along_pure {a : β} : Along S ok (pure a) e := trivial

end

/-- The same for the ticks in the queue, one after the other. -/
def AlongTicks (S : Strategy σ) (ok : Order → TradingEngine σ → Prop) :
    List MarketTick → TradingEngine σ → Prop
  | [], _ => True
  | tick :: ticks, e =>
    Along S ok (S.onTick tick) ((e.setTickQueue ticks).beforeOnTick tick) ∧
      ∀ fuel e', processTick S fuel tick (e.setTickQueue ticks) = .ok e' →
        AlongTicks S ok ticks e'

/-- What is asked of the calls of a run: of the orders submitted, by the strategy and from outside,
of the cancels from outside, and of the methods of the strategy that are called from outside. -/
structure Conditions (σ : Type) where
  submit : Bool → Order → TradingEngine σ → Prop
  cancel : ℕ → TradingEngine σ → Prop := fun _ _ => True
  invoke : StrategyM σ Unit → Prop := fun _ => True

/-- The call meets the conditions in the state in which it is made. -/
def EngineOp.Ok (S : Strategy σ) (C : Conditions σ) : EngineOp σ → TradingEngine σ → Prop
  | .pushTick _, _ => True
  | .runOnce, e => AlongTicks S (C.submit true) e.env.tickQueue e
  | .submitOrder order, e => C.submit false order e
  | .cancelOrder orderId, e => C.cancel orderId e
  | .invoke program, e => C.invoke program ∧ Along S (C.submit true) program e
  | .enableQueueLatencyTracking _, _ => True
  | .resetLatencyStats, _ => True

/-- All calls of the run meet the conditions. -/
def Meets (S : Strategy σ) (C : Conditions σ) (ops : List (EngineOp σ)) (e : TradingEngine σ) :
    Prop :=
  AllowedFrom (EngineOp.Ok S C) (EngineOp.run S) ops e

/-- No conditions at all. -/
def Conditions.free : Conditions σ where
  submit _ _ _ := True

theorem along_true (p : StrategyM σ α) (e : TradingEngine σ) :
    Along S (fun _ _ => True) p e := by
  induction p generalizing e with
  | pure a => trivial
  | get k ih => exact ih _ _
  | set s k ih => exact ih _
  | submit order k ih => exact ⟨trivial, fun _ e' _ => ih e'⟩
  | cancel id k ih => exact fun e' _ => ih e'
  | position i k ih => exact ih _ _

theorem alongTicks_true (ticks : List MarketTick) (e : TradingEngine σ) :
    AlongTicks S (fun _ _ => True) ticks e := by
  induction ticks generalizing e with
  | nil => trivial
  | cons tick ticks ih => exact ⟨along_true _ _, fun _ e' _ => ih e'⟩

theorem meets_free (ops : List (EngineOp σ)) (e : TradingEngine σ) :
    Meets S Conditions.free ops e := by
  induction ops generalizing e with
  | nil => trivial
  | cons op ops ih =>
    refine ⟨?_, fun _ e' _ => ih e'⟩
    cases op with
    | runOnce => exact alongTicks_true _ _
    | invoke p => exact ⟨trivial, along_true _ _⟩
    | pushTick tick => trivial
    | submitOrder o => trivial
    | cancelOrder id => trivial
    | enableQueueLatencyTracking on => trivial
    | resetLatencyStats => trivial

/-- The order can rest in a book of the configuration, and its id has not been used. -/
def FreshOnGrid (c : OrderBookConfig) (o : Order) (e : TradingEngine σ) : Prop :=
  (o.type = .limit → c.OnGrid o.price) ∧
    (o.type ≠ .cancel → o.orderId ∉ usedIds e.env.journal)

/-- Limit orders are on the price grid, and no id is used twice. -/
def Conditions.freshOnGrid (c : OrderBookConfig) : Conditions σ where
  submit _ := FreshOnGrid c

/-- The programs that run at the top level. -/
def TopLevel (S : Strategy σ) (C : Conditions σ) (p : StrategyM σ Unit) : Prop :=
  (∃ tick, p = S.onTick tick) ∨ C.invoke p

/-! ### Runs -/

/-- Nothing but counters, the clock and the tick queue differs. -/
structure Quiet (e e' : TradingEngine σ) : Prop where
  book : e'.book = e.book
  risk : e'.env.risk = e.env.risk
  strategy : e'.env.strategy = e.env.strategy
  journal : e'.env.journal = e.env.journal
  cancels : e'.env.cancels = e.env.cancels

theorem quiet_pushTick (tick : MarketTick) (e : TradingEngine σ) :
    Quiet e (e.pushTick tick).2 := by
  unfold pushTick
  dsimp only
  split_ifs <;> exact ⟨rfl, rfl, rfl, rfl, rfl⟩

theorem quiet_setTickQueue (ticks : List MarketTick) (e : TradingEngine σ) :
    Quiet e (e.setTickQueue ticks) := ⟨rfl, rfl, rfl, rfl, rfl⟩

theorem quiet_beforeOnTick (tick : MarketTick) (e : TradingEngine σ) :
    Quiet e (e.beforeOnTick tick) := by
  unfold beforeOnTick
  dsimp only
  split_ifs <;> exact ⟨rfl, rfl, rfl, rfl, rfl⟩

theorem quiet_enableQueueLatencyTracking (on : Bool) (e : TradingEngine σ) :
    Quiet e (e.enableQueueLatencyTracking on) := ⟨rfl, rfl, rfl, rfl, rfl⟩

theorem quiet_resetLatencyStats (e : TradingEngine σ) : Quiet e e.resetLatencyStats :=
  ⟨rfl, rfl, rfl, rfl, rfl⟩

theorem quiet_afterOnTick (t0 : ℤ) (e : TradingEngine σ) : Quiet e (e.afterOnTick t0) :=
  ⟨rfl, rfl, rfl, rfl, rfl⟩

theorem tickQueue_beforeOnTick (tick : MarketTick) (e : TradingEngine σ) :
    (e.beforeOnTick tick).env.tickQueue = e.env.tickQueue := by
  unfold beforeOnTick; dsimp only; split <;> rfl

theorem tickQueue_afterOnTick (t0 : ℤ) (e : TradingEngine σ) :
    (e.afterOnTick t0).env.tickQueue = e.env.tickQueue := rfl

theorem processTick_eq_ok {tick : MarketTick} (h : e.processTick S fuel tick = .ok e') :
    ∃ r, interp (fillCallback S fuel) fuel (S.onTick tick) (e.beforeOnTick tick) = .ok r ∧
      e' = r.2.afterOnTick e.now := by
  obtain ⟨r, hr, h⟩ := exists_of_bind_eq_ok h
  cases h
  exact ⟨r, hr, rfl⟩

theorem tickQueue_processTick {tick : MarketTick} (h : e.processTick S fuel tick = .ok e') :
    e'.env.tickQueue = e.env.tickQueue := by
  obtain ⟨r, hr, rfl⟩ := processTick_eq_ok h
  rw [tickQueue_afterOnTick, stepRel_tickQueue.interp hr, tickQueue_beforeOnTick]

section

variable {C : Conditions σ} {I : TradingEngine σ → Prop} {ops : List (EngineOp σ)}

/-- **The invariant rule**, with excluded faults. -/
theorem ensures_run {bad : Fault → Prop} {fuel : ℕ}
    (hquiet : ∀ {e e'}, Quiet e e' → I e → I e')
    (hsubmit : ∀ {o e}, I e → C.submit false o e →
      Ensures bad I (submitOrder (fillCallback S fuel) fuel false o e))
    (hcancel : ∀ {id e}, I e → C.cancel id e → Ensures bad I (cancelOrder id e))
    (hprog : ∀ {p e}, I e → TopLevel S C p → Along S (C.submit true) p e →
      Ensures bad (fun r => I r.2) (interp (fillCallback S fuel) fuel p e))
    (he : I e) (hops : Meets S C ops e) : Ensures bad I (run S ops fuel e) := by
  refine ensures_runList (fun op e he (hok : EngineOp.Ok S C op e) => ?_) he hops
  cases op with
  | pushTick tick => exact ensures_ok (hquiet (quiet_pushTick tick e) he)
  | enableQueueLatencyTracking on =>
    exact ensures_ok (hquiet (quiet_enableQueueLatencyTracking on e) he)
  | resetLatencyStats => exact ensures_ok (hquiet (quiet_resetLatencyStats e) he)
  | submitOrder o => exact hsubmit he hok
  | cancelOrder id => exact hcancel he hok
  | invoke p => exact (hprog he (Or.inr hok.1) hok.2).bind fun r _ hI => ensures_ok hI
  | runOnce =>
    have hloop := @ensures_whileLoop _ _ (TickGuard (σ := σ)) _ bad (popTick S)
      (fun s => I s.2 ∧ AlongTicks S (C.submit true) s.2.env.tickQueue s.2) fuel ?_ (0, e) ⟨he, hok⟩
    · exact hloop.bind fun s _ hs => ensures_ok hs.1.1
    rintro ⟨k, e⟩ ⟨he, hticks⟩ -
    rw [popTick]
    split
    · exact ensures_ok ⟨he, hticks⟩
    · rename_i tick ticks hq
      rw [hq] at hticks
      have he₀ := hquiet (quiet_beforeOnTick tick _) (hquiet (quiet_setTickQueue ticks e) he)
      have hproc : Ensures bad I (processTick S fuel tick (e.setTickQueue ticks)) :=
        (hprog he₀ (Or.inl ⟨tick, rfl⟩) hticks.1).bind fun r _ hI =>
          ensures_ok (hquiet (quiet_afterOnTick _ _) hI)
      refine hproc.bind fun e₁ h₁ hI => ensures_ok ⟨hI, ?_⟩
      rw [tickQueue_processTick h₁]
      exact hticks.2 _ _ h₁

/-- The rule for runs that return. -/
theorem run_induction (hquiet : ∀ {e e'}, Quiet e e' → I e → I e')
    (hsubmit : ∀ {fuel o e e'}, I e → C.submit false o e →
      submitOrder (fillCallback S fuel) fuel false o e = .ok e' → I e')
    (hcancel : ∀ {id e e'}, I e → C.cancel id e → cancelOrder id e = .ok e' → I e')
    (hprog : ∀ {fuel p e r}, I e → TopLevel S C p → Along S (C.submit true) p e →
      interp (fillCallback S fuel) fuel p e = .ok r → I r.2)
    (he : I e) (hops : Meets S C ops e) (h : run S ops fuel e = .ok e') : I e' :=
  (@ensures_run _ _ _ _ _ _ (fun _ => False) _ hquiet
    (fun he hok => ensures_of_ok fun h => hsubmit he hok h)
    (fun he hok => ensures_of_ok fun h => hcancel he hok h)
    (fun he htop hp => ensures_of_ok fun h => hprog he htop hp h) he hops).ok h

/-- What every engine does, every run does. -/
theorem StepRel.run {R : TradingEngine σ → TradingEngine σ → Prop} (hR : StepRel R)
    (hquiet : ∀ {e e'}, Quiet e e' → R e e') {fuel : ℕ} (h : run S ops fuel e = .ok e') :
    R e e' :=
  run_induction (C := Conditions.free) (I := R e) (fun hq he => hR.trans he (hquiet hq))
    (fun he _ h => hR.trans he (hR.submitOrder (hR.reports S _) h))
    (fun he _ h => hR.trans he (hR.toFillRel.cancelOrder h))
    (fun he _ _ h => hR.trans he (hR.interp h)) (hR.refl e) (meets_free ops e) h

/-- **The invariant rule** for runs that do return. -/
theorem converges_run (hquiet : ∀ {e e'}, Quiet e e' → I e → I e')
    (hsubmit : ∀ {o e}, I e → C.submit false o e → ∃ e',
      Converges (fun fuel => submitOrder (fillCallback S fuel) fuel false o e) (.ok e') ∧ I e')
    (hcancel : ∀ {id e}, I e → C.cancel id e → ∃ e', cancelOrder id e = .ok e' ∧ I e')
    (hprog : ∀ {p e}, I e → TopLevel S C p → Along S (C.submit true) p e → ∃ r,
      Converges (fun fuel => interp (fillCallback S fuel) fuel p e) (.ok r) ∧ I r.2)
    (he : I e) (hops : Meets S C ops e) :
    ∃ e', Converges (fun fuel => run S ops fuel e) (.ok e') ∧ I e' := by
  refine converges_runList_of_invariant (fun op e he hok => ?_) he hops
  cases op with
  | pushTick tick => exact ⟨_, converges_const _, hquiet (quiet_pushTick tick e) he⟩
  | enableQueueLatencyTracking on =>
    exact ⟨_, converges_const _, hquiet (quiet_enableQueueLatencyTracking on e) he⟩
  | resetLatencyStats => exact ⟨_, converges_const _, hquiet (quiet_resetLatencyStats e) he⟩
  | submitOrder o => exact hsubmit he hok
  | cancelOrder id =>
    obtain ⟨e', hc, he'⟩ := hcancel he hok
    exact ⟨e', by simp only [EngineOp.run, hc]; exact converges_const _, he'⟩
  | invoke p =>
    obtain ⟨r, hr, hI⟩ := hprog he (Or.inr hok.1) hok.2
    exact ⟨r.2, hr.bind (converges_const _), hI⟩
  | runOnce =>
    have hloop := @converges_whileLoop _ _ (TickGuard (σ := σ)) _ (popTick S)
      (fun s => I s.2 ∧ AlongTicks S (C.submit true) s.2.env.tickQueue s.2)
      (fun s => s.2.env.tickQueue.length) ?_ (0, e) ⟨he, hok⟩
    · obtain ⟨s, hs, ⟨hI, -⟩, -⟩ := hloop
      exact ⟨s.2, hs.bind (converges_const _), hI⟩
    rintro ⟨k, e⟩ ⟨he, hticks⟩ hg
    obtain ⟨tick, ticks, (hq : e.env.tickQueue = _)⟩ := List.exists_cons_of_ne_nil hg
    have hticks : AlongTicks S (C.submit true) (tick :: ticks) e := hq ▸ hticks
    have he₀ := hquiet (quiet_beforeOnTick tick _) (hquiet (quiet_setTickQueue ticks e) he)
    obtain ⟨r, hr, hI⟩ := hprog he₀ (Or.inl ⟨tick, rfl⟩) hticks.1
    obtain ⟨e₁, hproc, hI₁⟩ : ∃ e₁, Converges
        (fun fuel => processTick S fuel tick (e.setTickQueue ticks)) (.ok e₁) ∧ I e₁ :=
      ⟨_, hr.bind (converges_const _), hquiet (quiet_afterOnTick _ _) hI⟩
    obtain ⟨N, hN⟩ := hproc.2
    have hq' := tickQueue_processTick (hN N le_rfl)
    refine ⟨(k + 1, e₁), ?_, ⟨hI₁, ?_⟩, ?_⟩
    · simp only [popTick, hq]
      exact hproc.bind (converges_const _)
    · rw [hq']
      exact hticks.2 N _ (hN N le_rfl)
    · show e₁.env.tickQueue.length < e.env.tickQueue.length
      rw [hq', hq]
      exact Nat.lt_succ_self _

end

end TradingEngine

end MiniTrader
