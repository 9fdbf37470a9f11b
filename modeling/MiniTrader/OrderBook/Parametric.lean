import MiniTrader.Lib.Relational
import MiniTrader.OrderBook.Run

/-!
# What the book knows of its callback

`match` hands the world to the callback and takes back whatever it returns. It never looks at what
is not the book. So two worlds with the same book and related environments stay so through every
call, as long as the two callbacks keep them so (`below_addOrder`): nothing is assumed about the
book, the order, or whether the call returns.

For the callbacks that only look this says two things at once. Such a callback cannot influence the
matching, and all it can do with the reports is fold them, one after the other (`runBook_observe`):
whatever an observer computes, it could compute afterwards from the list of the reports.

## Main definitions

* `World.Related` — the same book and related environments

## Main results

* `below_addOrder`, `below_bookOp` — the book keeps the relation
* `runBook_observe` — an observer is a fold over the reports
-/

namespace MiniTrader

open Fuelled

variable {ε ε' : Type}

/-- Two worlds with the same book, and with related environments. -/
structure World.Related (R : ε → ε' → Prop) (w : World ε) (w' : World ε') : Prop where
  book : w.book = w'.book
  env : R w.env w'.env

theorem World.Related.withBook {R : ε → ε' → Prop} {w : World ε} {w' : World ε'}
    (h : World.Related R w w') (b : OrderBook) : World.Related R (w.withBook b) (w'.withBook b) :=
  ⟨rfl, h.env⟩

namespace OrderBook

variable {R : ε → ε' → Prop} {cb : FillCallback ε} {cb' : FillCallback ε'} {n m : ℕ}

/-- The two callbacks keep the relation. -/
def Keeps (R : ε → ε' → Prop) (cb : FillCallback ε) (cb' : FillCallback ε') : Prop :=
  ∀ r w w', World.Related R w w' → Below (World.Related R) (cb r w) (cb' r w')

/-- The same order and related worlds: the states of the loops of `match`. -/
structure Alongside (R : ε → ε' → Prop) (s : Order × World ε) (t : Order × World ε') : Prop where
  order : s.1 = t.1
  world : World.Related R s.2 t.2

/-- One iteration of the inner loop. -/
theorem below_fillFront (hcb : Keeps R cb cb') (side : Side) (idx : ℕ) {s : Order × World ε}
    {t : Order × World ε'} (h : Alongside R s t) :
    Below (Alongside R) (fillFront cb side idx s) (fillFront cb' side idx t) := by
  obtain ⟨o, w⟩ := s
  obtain ⟨o', w'⟩ := t
  obtain ⟨rfl, hw⟩ := h
  have hbook : w.book = w'.book := hw.book
  unfold fillFront
  simp only [hbook]
  split
  · exact .fault _
  · refine (hcb _ w w' hw).bind fun w₁ w₁' h₁ => ?_
    rw [h₁.book]
    refine (below_refl _).bind fun r r' hr => ?_
    subst hr
    refine (hcb _ w₁ w₁' h₁).bind fun w₂ w₂' h₂ => ?_
    rw [h₂.book]
    refine (below_refl _).bind fun r r' hr => ?_
    subst hr
    exact .ok ⟨rfl, h₂.withBook _⟩

/-- The body of the outer loop. -/
theorem below_sweepLevel (hcb : Keeps R cb cb') (hnm : n ≤ m) (side : Side) {s : Order × World ε}
    {t : Order × World ε'} (h : Alongside R s t) :
    Below (Alongside R) (sweepLevel cb side n s) (sweepLevel cb' side m t) := by
  unfold sweepLevel
  simp only [h.world.book]
  split
  · refine Below.bind (R := Alongside R)
      (below_whileLoop (fun s t h => ?_) (fun s t h _ => ?_) hnm h) fun s' t' h' => ?_
    · rw [LevelGuard, LevelGuard, h.order, h.world.book]
    · exact below_fillFront hcb side _ h
    · rw [h'.world.book]
      exact .ok ⟨h'.order, h'.world.withBook _⟩
  · exact .fault _

theorem below_matchOrder (hcb : Keeps R cb cb') (hnm : n ≤ m) {s : Order × World ε}
    {t : Order × World ε'} (h : Alongside R s t) :
    Below (Alongside R) (matchOrder cb n s) (matchOrder cb' m t) := by
  unfold matchOrder
  rw [h.order]
  refine below_whileLoop (fun s t h => ?_) (fun s t h _ => below_sweepLevel hcb hnm _ h) hnm h
  rw [MatchGuard, MatchGuard, h.order, h.world.book]

/-- **`add_order` knows nothing but the book.** -/
theorem below_addOrder (hcb : Keeps R cb cb') (hnm : n ≤ m) (o : Order) {w : World ε}
    {w' : World ε'} (h : World.Related R w w') :
    Below (World.Related R) (addOrder cb n o w) (addOrder cb' m o w') := by
  unfold addOrder
  split
  · rw [h.book]
    refine (below_refl _).bind fun r r' hr => ?_
    subst hr
    exact .ok (h.withBook _)
  · refine (below_matchOrder hcb hnm ⟨rfl, h⟩).bind fun s t hst => ?_
    rw [hst.order, hst.world.book]
    split
    · refine (below_refl _).bind fun b b' hb => ?_
      subst hb
      exact .ok (hst.world.withBook _)
    · exact .ok hst.world

/-! ### Observers -/

/-- The states of two runs of the book. -/
structure SameAnswers (R : ε → ε' → Prop) (s : World ε × List Bool) (t : World ε' × List Bool) :
    Prop where
  world : World.Related R s.1 t.1
  results : s.2 = t.2

theorem below_bookOp (hcb : Keeps R cb cb') (hnm : n ≤ m) (op : BookOp) {s : World ε × List Bool}
    {t : World ε' × List Bool} (h : SameAnswers R s t) :
    Below (SameAnswers R) (op.run cb n s) (op.run cb' m t) := by
  cases op with
  | add o =>
    refine (below_addOrder hcb hnm o h.world).bind fun w w' hw => ?_
    exact .ok ⟨hw, h.results⟩
  | cancel id =>
    simp only [BookOp.run]
    rw [h.world.book, h.results]
    refine (below_refl _).bind fun r r' hr => ?_
    subst hr
    exact .ok ⟨h.world.withBook _, rfl⟩

theorem below_runBook (hcb : Keeps R cb cb') (hnm : n ≤ m) (c : OrderBookConfig) {e : ε} {e' : ε'}
    (h : R e e') (ops : List BookOp) :
    Below (SameAnswers R) (runBook c cb e ops n) (runBook c cb' e' ops m) :=
  below_runList (P := Eq)
    (fun op op' s t he h => by subst he; exact below_bookOp hcb hnm op h)
    (List.forall₂_refl ops) ⟨⟨rfl, h⟩, rfl⟩

theorem keeps_observe {f : ExecutionReport → ε → ε} {g : ExecutionReport → ε' → ε'}
    (h : ∀ r e e', R e e' → R (f r e) (g r e')) : Keeps R (observe f) (observe g) :=
  fun r _ _ hw => .ok ⟨hw.book, h r _ _ hw.env⟩

/-- What is read off a run that has recorded its reports. -/
def foldReports (f : ExecutionReport → ε → ε) (e : ε)
    (s : World (List ExecutionReport) × List Bool) : World ε × List Bool :=
  (⟨s.1.book, s.1.env.foldl (fun e r => f r e) e⟩, s.2)

/-- **An observer is a fold over the reports**: in every sequence of calls, whatever the calls, the
book, the answers and the faults are those of the run that only records. -/
theorem runBook_observe (c : OrderBookConfig) (f : ExecutionReport → ε → ε) (e : ε)
    (ops : List BookOp) (fuel : ℕ) :
    runBook c (observe f) e ops fuel =
      (runBook c (observe fun r log => log ++ [r]) [] ops fuel).map (foldReports f e) := by
  have hfold : ∀ r e' log, e' = List.foldl (fun e r => f r e) e log →
      f r e' = List.foldl (fun e r => f r e) e (log ++ [r]) := by
    rintro r _ log rfl
    rw [List.foldl_append]
    rfl
  have hnil : e = List.foldl (fun e r => f r e) e [] := rfl
  have hbelow := below_runBook (keeps_observe hfold) le_rfl c hnil ops (n := fuel)
  have hbelow' := below_runBook (keeps_observe
    (R := fun log e' => e' = List.foldl (fun e r => f r e) e log)
    fun r log e' he => hfold r e' log he) le_rfl c hnil ops (n := fuel)
  refine hbelow.map_eq hbelow' ?_
  rintro ⟨⟨b, e'⟩, bs⟩ ⟨⟨b', log⟩, bs'⟩ - - ⟨⟨hb, he⟩, hbs⟩
  cases hb
  cases hbs
  exact Prod.ext (congrArg (World.mk b) he) rfl

end OrderBook

end MiniTrader
