import MiniTrader.Engine.Nested

/-!
# The grammar of the journal

A strategy that submits from `on_fill` interrupts a match that has sent one report of a fill and not
yet the other. The reports of several orders are then mixed, and it is not clear that whoever reads
them can tell which belong together. They can: the journal of a run is a word of a context-free
grammar. An order that is submitted is followed by its fills; a fill is the report to the order,
whatever the strategy does on hearing of it, the report to the other party, and whatever the
strategy does on hearing of that; and what the strategy does is again a sequence of calls.

The two reports of a fill name each other's orders and have the same quantity and opposite sides,
even if the second is sent after many other matches. They need not have the same price, since the
best price is read again.

## Main definitions

* `Calls`, `Fills` — the grammar
* `unanswered` — a stack automaton that pairs the reports

## Main results

* `calls_run` — the journal of every run is a word of the grammar
* `Calls.unanswered` — and so it is accepted by the automaton
-/

namespace MiniTrader

open Fuelled

namespace TradingEngine

open OrderBook

variable {σ α : Type} {S : Strategy σ} {e e' e'' : TradingEngine σ} {own : Bool} {o : Order}
  {cb : FillCallback (EngineEnv σ)} {fuel n : ℕ} {p : StrategyM σ α} {q q' q'' : ℤ}
  {j j' f g : List EngineEvent}

/-! ### The grammar -/

mutual

/-- What a sequence of calls leaves in the journal. Only the fills of an order that has been
submitted can follow, and a `Cancel` order has none. -/
inductive Calls : List EngineEvent → Prop
  | nil : Calls []
  | submit {own : Bool} {o : Order} {q : ℤ} {f j : List EngineEvent} :
    Fills o o.quantity f q → (o.type = .cancel → f = []) → Calls j →
    Calls (.submitted own o :: f ++ j)

/-- What the fills of an order leave in the journal, while what is open of it goes from one quantity
to another. -/
inductive Fills : Order → ℤ → List EngineEvent → ℤ → Prop
  | nil {o : Order} {q : ℤ} : Fills o q [] q
  | fill {o : Order} {q q' d p p' : ℤ} {maker : ℕ} {j j' f : List EngineEvent} :
    0 < d → d ≤ q → Calls j → Calls j' → Fills o (q - d) f q' →
    Fills o q (.filled ⟨o.orderId, maker, p, d, o.side, false⟩ :: j ++
      .filled ⟨maker, o.orderId, p', d, o.side.opp, true⟩ :: j' ++ f) q'

end

theorem Calls.append : ∀ {j j' : List EngineEvent}, Calls j → Calls j' → Calls (j ++ j')
  | _, _, .nil, h' => h'
  | _, _, .submit hf hcancel hj, h' => by
    rw [List.append_assoc]
    exact .submit hf hcancel (Calls.append hj h')

theorem Fills.trans : ∀ {o : Order} {q q' q'' : ℤ} {f g : List EngineEvent},
    Fills o q f q' → Fills o q' g q'' → Fills o q (f ++ g) q''
  | _, _, _, _, _, _, .nil, h' => h'
  | _, _, _, _, _, _, .fill hd hle hj hj' hf, h' => by
    rw [List.append_assoc]
    exact .fill hd hle hj hj' (Fills.trans hf h')

/-- Nothing is overfilled. -/
theorem Fills.nonneg : ∀ {o : Order} {q q' : ℤ} {f : List EngineEvent},
    Fills o q f q' → 0 ≤ q → 0 ≤ q'
  | _, _, _, _, .nil, hq => hq
  | _, _, _, _, .fill _ hle _ _ hf, _ => Fills.nonneg hf (by omega)

/-! ### The automaton -/

/-- The report is the other one of the same fill. -/
def Answers (r t : ExecutionReport) : Prop :=
  r.orderId = t.matchedOrderId ∧ r.matchedOrderId = t.orderId ∧
    r.filledQuantity = t.filledQuantity ∧ r.side = t.side.opp

instance (r t : ExecutionReport) : Decidable (Answers r t) :=
  inferInstanceAs (Decidable (_ ∧ _))

/-- The stack of the reports that have had no answer, after a part of a journal. A report to an
order that rests answers the last of them. -/
def unanswered : List ExecutionReport → List EngineEvent → Option (List ExecutionReport)
  | ts, [] => some ts
  | ts, .submitted _ _ :: j => unanswered ts j
  | ts, .filled r :: j =>
    if r.isMaker then
      match ts with
      | [] => none
      | t :: ts => if Answers r t then unanswered ts j else none
    else unanswered (r :: ts) j

theorem unanswered_append (ts : List ExecutionReport) (j j' : List EngineEvent) :
    unanswered ts (j ++ j') = (unanswered ts j).bind fun ts => unanswered ts j' := by
  induction j generalizing ts with
  | nil => rfl
  | cons event j ih =>
    cases event with
    | submitted own o => exact ih ts
    | filled r =>
      simp only [List.cons_append, unanswered]
      split
      · cases ts with
        | nil => rfl
        | cons t ts =>
          dsimp only
          split
          · exact ih ts
          · rfl
      · exact ih _

mutual

/-- **Every report has its answer.** -/
theorem Calls.unanswered : ∀ {j : List EngineEvent}, Calls j →
    ∀ ts, TradingEngine.unanswered ts j = some ts
  | _, .nil, ts => rfl
  | _, .submit hf _ hj, ts => by
    rw [List.cons_append, TradingEngine.unanswered, unanswered_append, Fills.unanswered hf]
    exact Calls.unanswered hj ts

theorem Fills.unanswered : ∀ {o : Order} {q q' : ℤ} {f : List EngineEvent}, Fills o q f q' →
    ∀ ts, TradingEngine.unanswered ts f = some ts
  | _, _, _, _, .nil, ts => rfl
  | _, _, _, _, .fill _ _ hj hj' hf, ts => by
    simp only [List.append_assoc, List.cons_append, TradingEngine.unanswered, unanswered_append,
      Calls.unanswered hj, Calls.unanswered hj', Fills.unanswered hf, Option.bind_some,
      Bool.false_eq_true, if_false, if_true]
    exact if_pos ⟨rfl, rfl, rfl, rfl⟩

end

/-! ### What a call adds to the journal -/

/-- What a call that returns keeps, and what kind of word it adds to the journal. -/
def Adds (P : List EngineEvent → Prop) (e e' : TradingEngine σ) : Prop :=
  Later e e' ∧ ∃ j, e'.env.journal = e.env.journal ++ j ∧ P j

theorem adds_of_eq {P : List EngineEvent → Prop} (hP : P []) (h : Later e e')
    (hj : e'.env.journal = e.env.journal) : Adds P e e' :=
  ⟨h, [], by rw [hj, List.append_nil], hP⟩

theorem Adds.trans {P Q R : List EngineEvent → Prop} (h : Adds P e e') (h' : Adds Q e' e'')
    (hR : ∀ {j j'}, P j → Q j' → R (j ++ j')) : Adds R e e'' := by
  obtain ⟨hlater, j, hj, hp⟩ := h
  obtain ⟨hlater', j', hj', hq⟩ := h'
  exact ⟨hlater.trans hlater', j ++ j', by rw [hj', hj, List.append_assoc], hR hp hq⟩

/-- Across a callback, once the engine has taken the report in, a sequence of calls is added. -/
def AddsCalls (cb : FillCallback (EngineEnv σ)) : Prop :=
  ∀ {r e e'}, Coherent e.book → cb r e = .ok e' → Adds Calls (beforeOnFill r e) e'

/-- The report comes before the calls. -/
theorem AddsCalls.report {r : ExecutionReport} (hcb : AddsCalls cb) (hb : Coherent e.book)
    (h : cb r e = .ok e') : Adds (fun j => ∃ j', j = .filled r :: j' ∧ Calls j') e e' := by
  obtain ⟨hlater, j, hj, hcalls⟩ := hcb hb h
  refine ⟨(later_beforeOnFill hb r).trans hlater, .filled r :: j, ?_, j, rfl, hcalls⟩
  rw [hj, journal_beforeOnFill, List.append_assoc, List.singleton_append]

/-- **A fill.** The second report is about the order the first one is about. -/
theorem adds_fillFront {i : ℕ} {t' : Order × TradingEngine σ} (hcb : AddsCalls cb)
    (hb : Coherent e.book) (hq : 0 < q)
    (h : OrderBook.fillFront cb o.side i (o.withQuantity q, e) = .ok t') :
    ∃ q', t'.1 = o.withQuantity q' ∧ Adds (Fills o q · q') e t'.2 := by
  obtain ⟨n, ns, e₁, m₁, e₂, m₂, hfront, h₁, hm₁, h₂, hm₂, rfl⟩ := of_fillFront_eq_ok h
  dsimp only at hfront h₁ hm₁ h₂ hm₂ ⊢
  have hpos := hb.positive (show n ∈ (e.book.levels o.side.opp i).orders by simp [hfront])
  obtain ⟨hlater₁, -, hj₁, j, rfl, hcalls⟩ := hcb.report hb h₁
  obtain ⟨n₁, ns₁, hfront₁, hh₁, rfl, hid⟩ := (hlater₁.leads (hb.leads hfront)).front hm₁
  obtain ⟨hlater₂, -, hj₂, j', rfl, hcalls'⟩ := hcb.report hlater₁.coherent h₂
  have hleads := hlater₂.leads (hlater₁.coherent.leads hfront₁)
  rw [hh₁] at hleads
  obtain ⟨n₂, ns₂, hfront₂, -, rfl, -⟩ := hleads.front hm₂
  have hfill : Fills o q (.filled ⟨o.orderId, n.order.orderId, e.book.best o.side.opp,
      min q n.order.quantity, o.side, false⟩ :: j ++ .filled ⟨n.order.orderId, o.orderId,
        e₁.book.best o.side.opp, min q n.order.quantity, o.side.opp, true⟩ :: j' ++ [])
      (q - min q n.order.quantity) :=
    .fill (lt_min hq hpos) (min_le_left _ _) hcalls hcalls' .nil
  refine ⟨q - min q n.order.quantity, rfl, (hlater₁.trans hlater₂).trans
    (later_settleFront hlater₂.coherent hfront₂), _, ?_, hfill⟩
  show e₂.env.journal = _
  rw [hj₂, hj₁, hid, List.append_nil, List.append_assoc]
  rfl

theorem adds_matchOrder {t' : Order × TradingEngine σ} (hcb : AddsCalls cb) (hb : Coherent e.book)
    (h : OrderBook.matchOrder cb fuel (o, e) = .ok t') :
    ∃ q', t'.1 = o.withQuantity q' ∧ Adds (Fills o o.quantity · q') e t'.2 := by
  refine matchOrder_induction (s := o.side)
    (I := fun t => ∃ q', t.1 = o.withQuantity q' ∧ Adds (Fills o o.quantity · q') e t.2) rfl ?_ ?_
    ⟨o.quantity, rfl, adds_of_eq .nil (later_self hb) rfl⟩ h
  · rintro i ⟨_, e₁⟩ t' ⟨q₁, rfl, hadds⟩ hpos hfill
    obtain ⟨q', hq', hadds'⟩ := adds_fillFront hcb hadds.1.coherent hpos hfill
    exact ⟨q', hq', hadds.trans hadds' Fills.trans⟩
  · rintro i t ⟨q', hq', hadds⟩
    exact ⟨q', hq', hadds.trans
      (adds_of_eq (P := (· = [])) rfl (later_leaveLevel hadds.1.coherent) rfl)
      fun hf hnil => by rw [hnil, List.append_nil]; exact hf⟩

/-- **Submitting**, at any depth, adds a call. -/
theorem adds_submitOrder (hcb : AddsCalls cb) (hb : Coherent e.book)
    (h : e.submitOrder cb fuel own o = .ok e') : Adds Calls e e' := by
  by_cases hp : e.Passes o
  swap
  · rw [submitOrder_of_not_passes hp] at h
    cases h
    exact ⟨later_rejected hb, _, journal_rejected own o e, .submit .nil (fun _ => rfl) .nil⟩
  rw [submitOrder_of_passes hp] at h
  have hadmitted : Adds (· = [.submitted own o]) e (e.admitted own o) :=
    ⟨later_admitted hb, _, journal_admitted own o e, rfl⟩
  by_cases htype : o.type = .cancel
  · rw [OrderBook.addOrder, if_pos htype, book_admitted] at h
    obtain ⟨⟨r, b⟩, hc, h⟩ := exists_of_bind_eq_ok h
    cases h
    have hc' : (e.admitted own o).book.cancelOrder o.orderId = .ok (r, b) := by
      rw [book_admitted]
      exact hc
    refine hadmitted.trans (adds_of_eq (P := (· = [])) rfl
      (later_cancelOrder hadmitted.1.coherent hc') rfl) fun hj hnil => ?_
    rw [hj, hnil]
    exact .submit .nil (fun _ => rfl) .nil
  obtain ⟨o', e₁, hm, hidx, rfl⟩ := of_addOrder_eq_ok htype h
  obtain ⟨q', -, hfills⟩ := adds_matchOrder hcb hadmitted.1.coherent hm
  have hafter : Adds (· = []) e₁ (OrderBook.afterMatch o' e₁) := by
    rw [OrderBook.afterMatch]
    split
    · rename_i hrest
      exact adds_of_eq rfl (later_join hfills.1.coherent hrest.1 (hidx hrest)) rfl
    · exact adds_of_eq rfl (later_self hfills.1.coherent) rfl
  have hmatched : Adds (Fills o o.quantity · q') (e.admitted own o) (OrderBook.afterMatch o' e₁) :=
    hfills.trans hafter fun hf hnil => by rw [hnil, List.append_nil]; exact hf
  refine hadmitted.trans hmatched fun {j j'} hj hf => ?_
  rw [hj]
  have hcall : Calls (.submitted own o :: j' ++ []) := .submit hf (fun hc => absurd hc htype) .nil
  rwa [List.append_nil] at hcall

theorem adds_cancelOrder {id : ℕ} (hb : Coherent e.book) (h : e.cancelOrder id = .ok e') :
    Adds Calls e e' := by
  obtain ⟨r, b, hc, rfl⟩ := of_cancelOrder_eq_ok h
  have huntracked : Later e (e.untracked id) := later_of_book_eq hb rfl (List.prefix_refl _)
  exact adds_of_eq .nil (huntracked.trans (later_cancelOrder hb hc)) rfl

theorem adds_interp (hcb : AddsCalls cb) (hb : Coherent e.book) {r : α × TradingEngine σ}
    (h : interp cb fuel p e = .ok r) : Adds Calls e r.2 := by
  induction p generalizing e with
  | pure a => cases h; exact adds_of_eq .nil (later_self hb) rfl
  | get k ih => exact ih _ hb h
  | set s k ih =>
    have hset : Later e (e.setStrategy s) := later_of_book_eq hb rfl (List.prefix_refl _)
    obtain ⟨hlater, j, hj, hcalls⟩ := @ih (e.setStrategy s) hb h
    exact ⟨hset.trans hlater, j, hj, hcalls⟩
  | submit order k ih =>
    obtain ⟨e₁, h₁, h⟩ := exists_of_bind_eq_ok h
    have hadds := adds_submitOrder hcb hb h₁
    exact hadds.trans (ih hadds.1.coherent h) Calls.append
  | cancel id k ih =>
    obtain ⟨e₁, h₁, h⟩ := exists_of_bind_eq_ok h
    have hadds := adds_cancelOrder hb h₁
    exact hadds.trans (ih hadds.1.coherent h) Calls.append
  | position i k ih => exact ih _ hb h

/-- **The induction on the depth.** -/
theorem addsCalls_fillCallback (S : Strategy σ) (n : ℕ) : AddsCalls (fillCallback S n) := by
  induction n with
  | zero => intro r e e' _ h; cases h
  | succ n ih =>
    intro r e e' hb h
    obtain ⟨t, ht, h⟩ := exists_of_bind_eq_ok h
    cases h
    exact adds_interp ih (by rwa [book_beforeOnFill]) ht

/-! ### Runs -/

/-- What holds after every top-level call. -/
def WellWritten (e : TradingEngine σ) : Prop := Coherent e.book ∧ Calls e.env.journal

theorem WellWritten.of_adds (h : WellWritten e) (ha : Adds Calls e e') : WellWritten e' := by
  obtain ⟨hlater, j, hj, hcalls⟩ := ha
  exact ⟨hlater.coherent, by rw [hj]; exact h.2.append hcalls⟩

/-- **The journal.** In every run of every engine, whatever its strategy does and however deep its
calls are nested, whatever the ids and the prices: the journal is a word of the grammar, and it is
accepted by the automaton, with every report answered. -/
theorem calls_run (S : Strategy σ) (c : OrderBookConfig) (riskConfig : RiskConfig) (st : σ)
    (clock : ℕ → ℤ) (ops : List (EngineOp σ)) (fuel : ℕ) (e : TradingEngine σ)
    (h : run S ops fuel (new c riskConfig st clock) = .ok e) :
    Calls e.env.journal ∧ unanswered [] e.env.journal = some [] := by
  have hnew : WellWritten (new c riskConfig st clock) := ⟨coherent_new c, .nil⟩
  have hrun : WellWritten e := run_induction (C := Conditions.free) (I := WellWritten)
    (fun hq he => ⟨hq.book ▸ he.1, hq.journal ▸ he.2⟩)
    (fun he _ h => he.of_adds (adds_submitOrder (addsCalls_fillCallback S _) he.1 h))
    (fun he _ h => he.of_adds (adds_cancelOrder he.1 h))
    (fun he _ _ h => he.of_adds (adds_interp (addsCalls_fillCallback S _) he.1 h))
    hnew (meets_free ops _) h
  exact ⟨hrun.2, hrun.2.unanswered []⟩

/-- A strategy that buys once more on hearing that somebody has bought. -/
def follower : Strategy Bool where
  onTick _ := return
  onFill r := do
    let done ← .state
    if ¬ done ∧ r.side = .buy then
      .modify fun _ => true
      .submitOrder ⟨100, 1, r.price, 1, .buy, .limit⟩

/-- A new engine with that strategy and no check for self-trades. -/
def followerEngine : TradingEngine Bool :=
  new ⟨1, 27, 1, by decide, Int.one_pos, by decide⟩ { checkSelfTrade := false } false fun _ => 0

/-- A purchase of one of the five lots on offer. -/
def followedOps : List (EngineOp Bool) :=
  [.submitOrder ⟨7, 1, 6, 5, .sell, .limit⟩, .submitOrder ⟨8, 1, 6, 1, .buy, .limit⟩]

/-- The second purchase is made inside the first, between its two reports. -/
theorem calls_run_followed : ∃ e, run follower followedOps 3 followerEngine = .ok e ∧
    e.env.journal.map (fun event => match event with
      | .submitted _ o => (o.orderId, 0)
      | .filled r => (r.orderId, r.matchedOrderId)) =
      [(7, 0), (8, 0), (8, 7), (100, 0), (100, 7), (7, 100), (7, 8)] ∧
    Calls e.env.journal ∧ unanswered [] e.env.journal = some [] := by
  obtain ⟨e, he, hjournal⟩ : ∃ e, run follower followedOps 3 followerEngine = .ok e ∧
      e.env.journal.map (fun event => match event with
        | .submitted _ o => (o.orderId, 0)
        | .filled r => (r.orderId, r.matchedOrderId)) =
        [(7, 0), (8, 0), (8, 7), (100, 0), (100, 7), (7, 100), (7, 8)] := by decide +kernel
  exact ⟨e, he, hjournal, calls_run follower _ _ _ _ _ 3 e he⟩

end TradingEngine

end MiniTrader
