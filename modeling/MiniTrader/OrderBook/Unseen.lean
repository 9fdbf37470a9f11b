import MiniTrader.OrderBook.Reference

/-!
# Orders that do not trade

An order that rests without being filled takes part in everything: it sits in the queue of its
level, it may hold the best price, and it decides where `match` starts and which levels it walks
through. Nobody can tell. As long as no report names it, the run without it makes the same reports
and gives the same answers to the other cancels, and the queues differ by the order itself. So once
it is cancelled it has left no trace.

This holds of any number of orders at once: `hidden` marks the ids that are left out, and with them
go the calls that submit or cancel them.

The fact that carries it is that greedy matching comes to the orders in turn: what it has not
filled it has not looked at (`greedy_filter`).

## Main definitions

* `BookOp.orderId`, `answers` — what a call is about, and what the cancels returned
* `Overlooks` — two books, one without the hidden orders
* `NoTrace` — what can be observed of them

## Main results

* `Overlooks.submit`, `Overlooks.skip` — an incoming order, present in both runs or in one
* `noTrace_of_wellFormed` — all runs
-/

namespace MiniTrader

open Fuelled StableSort

namespace Reference

/-- **What is not filled is not looked at.** -/
theorem greedy_filter {p : Order → Bool} {l : List Order} {q : ℤ}
    (h : ∀ f ∈ greedy q l, p f.1 = true) : greedy q (l.filter p) = greedy q l := by
  induction l generalizing q with
  | nil => rfl
  | cons a l ih =>
    by_cases hpos : 0 < q
    · rw [greedy_cons hpos] at h
      have ha : p a = true := h _ List.mem_cons_self
      rw [List.filter_cons_of_pos ha, greedy_cons hpos, greedy_cons hpos,
        ih fun f hf => h f (List.mem_cons_of_mem _ hf)]
    · rw [greedy_of_not_pos hpos, greedy_of_not_pos hpos]

end Reference

namespace OrderBook

variable {c : OrderBookConfig} {hidden : ℕ → Bool} {used used' : List ℕ} {live : List Order}
  {w w' : World (List ExecutionReport)} {o : Order} {b b' : OrderBook}

/-- The id a call is about. -/
def BookOp.orderId : BookOp → ℕ
  | .add o => o.orderId
  | .cancel orderId => orderId

/-- The orders that are not hidden. -/
def shown (hidden : ℕ → Bool) (o : Order) : Bool := !hidden o.orderId

theorem shown_withQuantity (hidden : ℕ → Bool) (o : Order) (q : ℤ) :
    shown hidden (o.withQuantity q) = shown hidden o := rfl

/-- No report names a hidden order. -/
def Unseen (hidden : ℕ → Bool) (reports : List ExecutionReport) : Prop :=
  ∀ r ∈ reports, hidden r.orderId = false

/-- The open orders of the second book are those of the first that are not hidden, and the reports
are the same. -/
structure Overlooks (c : OrderBookConfig) (hidden : ℕ → Bool) (used used' : List ℕ)
    (live : List Order) (w w' : World (List ExecutionReport)) : Prop where
  reaches : Reaches c used w.book
  reaches' : Reaches c used' w'.book
  subset : used' ⊆ used
  represents : Represents w.book live
  represents' : Represents w'.book (live.filter (shown hidden))
  env : w'.env = w.env

/-! ### Incoming orders -/

/-- The fills of the two books, if no fill is with a hidden order. -/
theorem Overlooks.reachableFills_eq (h : Overlooks c hidden used used' live w w') (hp : c.Priced)
    (hfills : ∀ f ∈ w.book.reachableFills o, shown hidden f.1 = true) :
    w'.book.reachableFills o = w.book.reachableFills o := by
  have hqueue := map_matchQueue (r := ⟨live, [], []⟩) h.represents (h.reaches.tidy hp)
    (h.reaches.config_eq ▸ hp) h.reaches.sound.coherent o.side o.price
  have hqueue' := map_matchQueue (r := ⟨live.filter (shown hidden), [], []⟩) h.represents'
    (h.reaches'.tidy hp) (h.reaches'.config_eq ▸ hp) h.reaches'.sound.coherent o.side o.price
  rw [reachableFills, hqueue] at hfills
  rw [reachableFills, reachableFills, hqueue, hqueue', ← Reference.greedy_filter hfills,
    Reference.opposite, Reference.opposite]
  congr 1
  rw [filter_insertionSort_comm (fun o' : Order => o.side.opp.rank o'.price), List.filter_filter,
    List.filter_filter]
  refine congrArg _ (List.filter_congr fun o' _ => ?_)
  exact Bool.and_comm _ _

/-- What is left of an order. -/
def leftOf (fills : List (Order × ℤ)) (o : Order) : Order :=
  o.withQuantity (o.quantity - Reference.filled fills)

/-- The open orders after an incoming one has made its fills. -/
def arrive (fills : List (Order × ℤ)) (o : Order) (live : List Order) : List Order :=
  fills.foldl Reference.settle live ++
    if 0 < (leftOf fills o).quantity ∧ (leftOf fills o).type = .limit then [leftOf fills o] else []

theorem filter_arrive (hidden : ℕ → Bool) (fills : List (Order × ℤ)) (o : Order)
    (live : List Order) (ho : shown hidden o = true) :
    (arrive fills o live).filter (shown hidden) = arrive fills o (live.filter (shown hidden)) := by
  rw [arrive, arrive, List.filter_append,
    Reference.filter_foldl_settle (shown_withQuantity hidden)]
  congr 1
  split
  · exact List.filter_cons_of_pos ho
  · rfl

/-- An incoming order, limit or market, has come and made its fills. -/
structure Arrived (c : OrderBookConfig) (used : List ℕ) (o : Order) (live : List Order)
    (w w₁ : World (List ExecutionReport)) : Prop where
  returns : Converges (fun fuel => addOrder record fuel o w) (.ok w₁)
  reaches : Reaches c (BookOp.usedIds used (.add o)) w₁.book
  represents : Represents w₁.book (arrive (w.book.reachableFills o) o live)
  env : w₁.env = w.env ++ (w.book.reachableFills o).flatMap (Reference.fillReports o)

theorem exists_arrived (hp : c.Priced) (h : Reaches c used w.book) (hok : (BookOp.add o).Ok c used)
    (htype : o.type ≠ .cancel) (hrep : Represents w.book live) :
    ∃ w₁, Arrived c used o live w w₁ := by
  obtain ⟨w₁, hm, hr, -, hr', hcalled⟩ := exists_addOrder (f := fun r log => log ++ [r]) h
    (h.tidy hp).gridCached hok htype
  have hrep' := hcalled.represents (hr.config_eq.trans h.config_eq.symm) hrep
  refine ⟨_, hm, hr', ?_, ?_⟩
  · show Represents (OrderBook.afterMatch (leftOf (w.book.reachableFills o) o) w₁).book _
    rw [arrive, OrderBook.afterMatch]
    split
    · rename_i hrest
      rw [World.book_withBook]
      exact hrep'.join (by rw [hr.config_eq]; exact (hok hrest.2).2.1)
    · rw [List.append_nil]
      exact hrep'
  · rw [OrderBook.afterMatch]
    split
    · rw [World.env_withBook]
      exact hcalled.reports
    · exact hcalled.reports

/-- The fills of a call, as far as its reports name no hidden order. -/
theorem Arrived.fills {w₁ : World (List ExecutionReport)} (h : Arrived c used o live w w₁)
    (hunseen : Unseen hidden w₁.env) :
    (∀ f ∈ w.book.reachableFills o, shown hidden f.1 = true) ∧
      (hidden o.orderId = true → w.book.reachableFills o = []) := by
  have hreports : ∀ f ∈ w.book.reachableFills o,
      hidden o.orderId = false ∧ hidden f.1.orderId = false := by
    intro f hf
    have hmem : ∀ r ∈ Reference.fillReports o f, hidden r.orderId = false := fun r hr =>
      hunseen r (by
        rw [h.env]
        exact List.mem_append_right _ (List.mem_flatMap.mpr ⟨f, hf, hr⟩))
    exact ⟨hmem _ List.mem_cons_self, hmem _ (List.mem_cons_of_mem _ List.mem_cons_self)⟩
  refine ⟨fun f hf => ?_, fun ho => List.eq_nil_iff_forall_not_mem.mpr fun f hf => ?_⟩
  · rw [shown, (hreports f hf).2]
    rfl
  · rw [(hreports f hf).1] at ho
    cases ho

/-- **An order that comes in both runs.** -/
theorem Overlooks.submit {w₁ : World (List ExecutionReport)}
    (h : Overlooks c hidden used used' live w w') (harr : Arrived c used o live w w₁)
    (hunseen : Unseen hidden w₁.env) (hp : c.Priced) (hok : (BookOp.add o).Ok c used)
    (htype : o.type ≠ .cancel) (ho : hidden o.orderId = false) :
    ∃ w₁', Converges (fun fuel => addOrder record fuel o w') (.ok w₁') ∧
      Overlooks c hidden (BookOp.usedIds used (.add o)) (BookOp.usedIds used' (.add o))
        (arrive (w.book.reachableFills o) o live) w₁ w₁' := by
  have hsame := h.reachableFills_eq hp (harr.fills hunseen).1
  obtain ⟨w₁', harr'⟩ := exists_arrived hp h.reaches'
    (fun hl => ⟨(hok hl).1, (hok hl).2.1, fun hmem => (hok hl).2.2 (h.subset hmem)⟩) htype
    h.represents'
  have hrep' := harr'.represents
  have henv' := harr'.env
  rw [hsame] at hrep' henv'
  refine ⟨w₁', harr'.returns, harr.reaches, harr'.reaches, ?_, harr.represents, ?_,
    by rw [henv', harr.env, h.env]⟩
  · rw [BookOp.usedIds, BookOp.usedIds]
    split
    exacts [List.cons_subset_cons _ h.subset, h.subset]
  · rw [filter_arrive hidden _ _ _ (by rw [shown, ho]; rfl)]
    exact hrep'

/-- **An order that comes in one run only** and is not filled. -/
theorem Overlooks.skip {w₁ : World (List ExecutionReport)}
    (h : Overlooks c hidden used used' live w w') (harr : Arrived c used o live w w₁)
    (hunseen : Unseen hidden w₁.env) (ho : hidden o.orderId = true) :
    Overlooks c hidden (BookOp.usedIds used (.add o)) used'
      (arrive (w.book.reachableFills o) o live) w₁ w' := by
  have hnil := (harr.fills hunseen).2 ho
  have henv := harr.env
  rw [hnil, List.flatMap_nil, List.append_nil] at henv
  refine ⟨harr.reaches, h.reaches', ?_, harr.represents, ?_, by rw [henv, h.env]⟩
  · rw [BookOp.usedIds]
    split
    exacts [List.subset_cons_of_subset _ h.subset, h.subset]
  · rw [hnil, arrive, List.foldl_nil, List.filter_append]
    have hleft : ¬ shown hidden (leftOf [] o) = true := by
      rw [leftOf, shown_withQuantity, shown, ho]
      decide
    have hrest : (if 0 < (leftOf [] o).quantity ∧ (leftOf [] o).type = .limit then [leftOf [] o]
        else []).filter (shown hidden) = [] := by
      split
      · exact List.filter_cons_of_neg hleft
      · rfl
    rw [hrest, List.append_nil]
    exact h.represents'

/-! ### Cancels -/

/-- The open orders without one. -/
def without (id : ℕ) (live : List Order) : List Order := live.filter fun o => o.orderId ≠ id

theorem Overlooks.cancel {id : ℕ} {r r' : Bool} (h : Overlooks c hidden used used' live w w')
    (hid : hidden id = false) (hc : w.book.cancelOrder id = .ok (r, b))
    (hc' : w'.book.cancelOrder id = .ok (r', b')) :
    r' = r ∧ Overlooks c hidden used used' (without id live) (w.withBook b) (w'.withBook b') := by
  obtain ⟨hrep, hr⟩ := represents_cancel (r := ⟨live, [], []⟩) h.reaches.sound.coherent
    h.reaches.located h.represents hc
  obtain ⟨hrep', hr'⟩ := represents_cancel (r := ⟨live.filter (shown hidden), [], []⟩)
    h.reaches'.sound.coherent h.reaches'.located h.represents' hc'
  refine ⟨?_, h.reaches.cancelOrder hc, h.reaches'.cancelOrder hc', h.subset, hrep, ?_, h.env⟩
  · rw [hr, hr', List.any_filter]
    refine congrArg live.any (funext fun o => ?_)
    by_cases ho : o.orderId = id
    · rw [shown, ho, hid]
      rfl
    · rw [decide_eq_false ho, Bool.and_false]
  · have hcomm : (without id live).filter (shown hidden) =
        (live.filter (shown hidden)).filter fun o => o.orderId ≠ id := by
      rw [without, List.filter_filter, List.filter_filter]
      exact List.filter_congr fun o _ => Bool.and_comm _ _
    rw [hcomm]
    exact hrep'

theorem Overlooks.cancelHidden {id : ℕ} {r : Bool} (h : Overlooks c hidden used used' live w w')
    (hid : hidden id = true) (hc : w.book.cancelOrder id = .ok (r, b)) :
    Overlooks c hidden used used' (without id live) (w.withBook b) w' := by
  obtain ⟨hrep, -⟩ := represents_cancel (r := ⟨live, [], []⟩) h.reaches.sound.coherent
    h.reaches.located h.represents hc
  refine ⟨h.reaches.cancelOrder hc, h.reaches', h.subset, hrep, ?_, h.env⟩
  have hsame : (without id live).filter (shown hidden) = live.filter (shown hidden) := by
    rw [without, List.filter_filter]
    refine List.filter_congr fun o _ => ?_
    rw [Bool.and_eq_left_iff_imp]
    intro ho
    rw [decide_eq_true_eq]
    rintro rfl
    rw [shown, hid] at ho
    cases ho
  rw [hsame]
  exact h.represents'

/-! ### Calls -/

/-- The id a call cancels, if its answer is looked at. -/
def BookOp.cancelled : BookOp → Option ℕ
  | .add _ => none
  | .cancel orderId => some orderId

/-- The answers of the cancels, with the ids they are about. -/
def answers (ops : List BookOp) (results : List Bool) : List (ℕ × Bool) :=
  (ops.filterMap BookOp.cancelled).zip results

/-- A call of the first run, with what it answers. -/
structure Stepped (c : OrderBookConfig) (used : List ℕ) (op : BookOp) (live : List Order)
    (s : World (List ExecutionReport) × List Bool) (bs : List Bool)
    (s₁ : World (List ExecutionReport) × List Bool) : Prop where
  returns : Converges (fun fuel => op.run record fuel s) (.ok s₁)
  results : s₁.2 = s.2 ++ bs
  length : bs.length = op.cancelled.toList.length
  grows : s.1.env <+: s₁.1.env
  reaches : Reaches c (op.usedIds used) s₁.1.book
  represents : Represents s₁.1.book live

/-- **One call**, in both runs or in the first one only. -/
theorem exists_stepped (hidden : ℕ → Bool) {op : BookOp}
    {s : World (List ExecutionReport) × List Bool} (hp : c.Priced) (h : Reaches c used s.1.book)
    (hrep : Represents s.1.book live) (hok : op.Ok c used) :
    ∃ live₁ bs s₁, Stepped c used op live₁ s bs s₁ ∧
      (Unseen hidden s₁.1.env → ∀ used' s', Overlooks c hidden used used' live s.1 s'.1 →
        (hidden op.orderId = true → Overlooks c hidden (op.usedIds used) used' live₁ s₁.1 s'.1) ∧
        (hidden op.orderId = false → ∃ s₁',
          Converges (fun fuel => op.run record fuel s') (.ok s₁') ∧
          s₁'.2 = s'.2 ++ bs ∧
          Overlooks c hidden (op.usedIds used) (op.usedIds used') live₁ s₁.1 s₁'.1)) := by
  cases op with
  | add o =>
    by_cases htype : o.type = .cancel
    · obtain ⟨r, b, hc⟩ := h.sound.coherent.cancelOrder_ok o.orderId
      have hused : ∀ used, (BookOp.add o).usedIds used = used := fun used => by
        rw [BookOp.usedIds, if_neg (by rw [htype]; decide)]
      have hrun : ∀ {s : World (List ExecutionReport) × List Bool} {r : Bool} {b : OrderBook},
          s.1.book.cancelOrder o.orderId = .ok (r, b) →
          Converges (fun fuel => (BookOp.add o).run record fuel s) (.ok (s.1.withBook b, s.2)) := by
        intro s r b hc
        simp only [BookOp.run, addOrder_cancel htype hc]
        exact converges_const _
      refine ⟨without o.orderId live, [], _, ⟨hrun hc, (List.append_nil _).symm, rfl,
        List.prefix_refl _, ?_, ?_⟩, fun _ used' s' hov => ⟨fun hid => ?_, fun hid => ?_⟩⟩
      · rw [hused]
        exact h.cancelOrder hc
      · exact (represents_cancel (r := ⟨live, [], []⟩) h.sound.coherent h.located hrep hc).1
      · rw [hused]
        exact hov.cancelHidden hid hc
      · obtain ⟨r', b', hc'⟩ := hov.reaches'.sound.coherent.cancelOrder_ok o.orderId
        rw [hused, hused]
        exact ⟨_, hrun hc', (List.append_nil _).symm, (hov.cancel hid hc hc').2⟩
    · obtain ⟨w₁, harr⟩ := exists_arrived hp h hok htype hrep
      refine ⟨_, [], (w₁, s.2), ⟨harr.returns.bind (converges_const _), (List.append_nil _).symm,
        rfl, ⟨_, harr.env.symm⟩, harr.reaches, harr.represents⟩,
        fun hunseen used' s' hov => ⟨fun hid => hov.skip harr hunseen hid, fun hid => ?_⟩⟩
      obtain ⟨w₁', hw₁', hov'⟩ := hov.submit harr hunseen hp hok htype hid
      exact ⟨(w₁', s'.2), hw₁'.bind (converges_const _), (List.append_nil _).symm, hov'⟩
  | cancel id =>
    obtain ⟨r, b, hc⟩ := h.sound.coherent.cancelOrder_ok id
    have hrun : ∀ {s : World (List ExecutionReport) × List Bool} {r : Bool} {b : OrderBook},
        s.1.book.cancelOrder id = .ok (r, b) →
        Converges (fun fuel => (BookOp.cancel id).run record fuel s)
          (.ok (s.1.withBook b, s.2 ++ [r])) := by
      intro s r b hc
      simp only [BookOp.run, hc]
      exact converges_const _
    refine ⟨without id live, [r], _, ⟨hrun hc, rfl, rfl, List.prefix_refl _, h.cancelOrder hc, ?_⟩,
      fun _ used' s' hov => ⟨fun hid => hov.cancelHidden hid hc, fun hid => ?_⟩⟩
    · exact (represents_cancel (r := ⟨live, [], []⟩) h.sound.coherent h.located hrep hc).1
    · obtain ⟨r', b', hc'⟩ := hov.reaches'.sound.coherent.cancelOrder_ok id
      obtain ⟨rfl, hov'⟩ := hov.cancel hid hc hc'
      exact ⟨_, hrun hc', rfl, hov'⟩

/-! ### Runs -/

/-- A call that is not about a hidden order. -/
def BookOp.shown (hidden : ℕ → Bool) (op : BookOp) : Bool := !hidden op.orderId

theorem answers_cons {op : BookOp} {ops : List BookOp} {bs bs' : List Bool}
    (h : bs.length = op.cancelled.toList.length) :
    answers (op :: ops) (bs ++ bs') = answers [op] bs ++ answers ops bs' := by
  cases op with
  | add o =>
    obtain rfl : bs = [] := List.length_eq_zero_iff.mp h
    rfl
  | cancel id =>
    obtain ⟨b, rfl⟩ := List.length_eq_one_iff.mp h
    rfl

/-- The answer of a call is about the same order as the call. -/
theorem fst_of_mem_answers {op : BookOp} {bs : List Bool} {a : ℕ × Bool}
    (ha : a ∈ answers [op] bs) : a.1 = op.orderId := by
  have hmem := (List.of_mem_zip ha).1
  cases op with
  | add o => cases hmem
  | cancel id => exact List.mem_singleton.mp hmem

theorem exists_runs (hp : c.Priced) {ops : List BookOp} (used' : List ℕ)
    (s s' : World (List ExecutionReport) × List Bool) (h : Reaches c used s.1.book)
    (hrep : Represents s.1.book live)
    (hov : Unseen hidden s.1.env → Overlooks c hidden used used' live s.1 s'.1)
    (hops : Allowed (BookOp.Ok c) BookOp.usedIds used ops) :
    ∃ used₁ live₁ bs t, Converges (fun fuel => runList (BookOp.run record) fuel ops s) (.ok t) ∧
      t.2 = s.2 ++ bs ∧ s.1.env <+: t.1.env ∧
      (Unseen hidden t.1.env → ∃ used₁' bs' t', Converges (fun fuel =>
          runList (BookOp.run record) fuel (ops.filter (BookOp.shown hidden)) s') (.ok t') ∧
        t'.2 = s'.2 ++ bs' ∧ Overlooks c hidden used₁ used₁' live₁ t.1 t'.1 ∧
        answers (ops.filter (BookOp.shown hidden)) bs' =
          (answers ops bs).filter fun a => !hidden a.1) := by
  induction ops generalizing used used' live s s' with
  | nil =>
    exact ⟨used, live, [], s, converges_const _, (List.append_nil _).symm, List.prefix_refl _,
      fun hunseen => ⟨used', [], s', converges_const _, (List.append_nil _).symm, hov hunseen, rfl⟩⟩
  | cons op ops ih =>
    obtain ⟨live₁, bs₁, s₁, hs₁, hpair⟩ := exists_stepped hidden hp h hrep hops.1
    have hback : Unseen hidden s₁.1.env → Unseen hidden s.1.env := fun hunseen r hr =>
      hunseen r (hs₁.grows.subset hr)
    cases hid : hidden op.orderId with
    | true =>
      have hshown : ¬ BookOp.shown hidden op = true := by rw [BookOp.shown, hid]; decide
      obtain ⟨used₂, live₂, bs₂, t, ht, hbs, hgrows, hrest⟩ := ih _ _ s' hs₁.reaches
        hs₁.represents (fun hunseen => (hpair hunseen _ _ (hov (hback hunseen))).1 hid) hops.2
      refine ⟨used₂, live₂, bs₁ ++ bs₂, t, hs₁.returns.bind ht,
        by rw [hbs, hs₁.results, List.append_assoc], hs₁.grows.trans hgrows, fun hunseen => ?_⟩
      obtain ⟨used₂', bs₂', t', ht', hbs', hov', hans⟩ := hrest hunseen
      rw [List.filter_cons_of_neg hshown]
      refine ⟨used₂', bs₂', t', ht', hbs', hov', ?_⟩
      have hnil : (answers [op] bs₁).filter (fun a => !hidden a.1) = [] :=
        List.filter_eq_nil_iff.mpr fun a ha => by
          rw [fst_of_mem_answers ha, hid]
          decide
      rw [hans, answers_cons hs₁.length, List.filter_append, hnil, List.nil_append]
    | false =>
      have hshown : BookOp.shown hidden op = true := by rw [BookOp.shown, hid]; rfl
      by_cases hun : Unseen hidden s₁.1.env
      · obtain ⟨s₁', hs₁', hbs₁', hov₁⟩ := (hpair hun _ _ (hov (hback hun))).2 hid
        obtain ⟨used₂, live₂, bs₂, t, ht, hbs, hgrows, hrest⟩ := ih _ _ s₁' hs₁.reaches
          hs₁.represents (fun _ => hov₁) hops.2
        refine ⟨used₂, live₂, bs₁ ++ bs₂, t, hs₁.returns.bind ht,
          by rw [hbs, hs₁.results, List.append_assoc], hs₁.grows.trans hgrows, fun hunseen => ?_⟩
        obtain ⟨used₂', bs₂', t', ht', hbs', hov', hans⟩ := hrest hunseen
        rw [List.filter_cons_of_pos hshown]
        refine ⟨used₂', bs₁ ++ bs₂', t', hs₁'.bind ht', by rw [hbs', hbs₁', List.append_assoc],
          hov', ?_⟩
        have hself : (answers [op] bs₁).filter (fun a => !hidden a.1) = answers [op] bs₁ :=
          List.filter_eq_self.mpr fun a ha => by
            rw [fst_of_mem_answers ha, hid]
            rfl
        rw [answers_cons hs₁.length, answers_cons hs₁.length, hans, List.filter_append, hself]
      · -- a hidden order has traded, and nothing is said of the second run
        obtain ⟨used₂, live₂, bs₂, t, ht, hbs, hgrows, -⟩ := ih used' _ s'
          hs₁.reaches hs₁.represents (fun hunseen => absurd hunseen hun) hops.2
        exact ⟨used₂, live₂, bs₁ ++ bs₂, t, hs₁.returns.bind ht,
          by rw [hbs, hs₁.results, List.append_assoc], hs₁.grows.trans hgrows,
          fun hunseen => absurd (fun r hr => hunseen r (hgrows.subset hr)) hun⟩

/-! ### What can be observed -/

/-- The second book tells nothing of the hidden orders, and nothing else is different. -/
structure NoTrace (hidden : ℕ → Bool) (ops : List BookOp)
    (s s' : World (List ExecutionReport) × List Bool) : Prop where
  reports : s'.1.env = s.1.env
  answers : answers (ops.filter (BookOp.shown hidden)) s'.2 =
    (answers ops s.2).filter fun a => !hidden a.1
  queue : ∀ side i, (s'.1.book.levels side i).orders.map Node.order =
    ((s.1.book.levels side i).orders.map Node.order).filter (shown hidden)
  /-- When no hidden order rests any more, the two books look the same. -/
  gone : (∀ side i, ∀ n ∈ (s.1.book.levels side i).orders, hidden n.order.orderId = false) →
    s'.1.book.bestBid = s.1.book.bestBid ∧ s'.1.book.bestAsk = s.1.book.bestAsk ∧
    s'.1.book.spread = s.1.book.spread ∧
    ∀ price side, s'.1.book.quantityAt price side = s.1.book.quantityAt price side

theorem Overlooks.queue (h : Overlooks c hidden used used' live w w') (side : Side) (i : ℕ) :
    (w'.book.levels side i).orders.map Node.order =
      ((w.book.levels side i).orders.map Node.order).filter (OrderBook.shown hidden) := by
  rw [h.represents.queue, h.represents'.queue, h.reaches.config_eq, h.reaches'.config_eq,
    List.filter_filter, List.filter_filter]
  exact List.filter_congr fun o _ => Bool.and_comm _ _

/-- **Two books with the same open orders** look the same. -/
theorem Overlooks.gone (h : Overlooks c hidden used used' live w w') (hp : c.Priced)
    (hgone : ∀ side i, ∀ n ∈ (w.book.levels side i).orders, hidden n.order.orderId = false) :
    w'.book.bestBid = w.book.bestBid ∧ w'.book.bestAsk = w.book.bestAsk ∧
    w'.book.spread = w.book.spread ∧
    ∀ price side, w'.book.quantityAt price side = w.book.quantityAt price side := by
  have hlive : live.filter (OrderBook.shown hidden) = live := List.filter_eq_self.mpr fun o ho => by
    obtain ⟨side, i, n, hn, rfl⟩ := h.represents.mem_iff.mp ho
    rw [OrderBook.shown, hgone side i n hn]
    rfl
  have hrep' := h.represents'
  rw [hlive] at hrep'
  have hr : Represents w.book (⟨live, [], []⟩ : Reference).live := h.represents
  have hr' : Represents w'.book (⟨live, [], []⟩ : Reference).live := hrep'
  have ht := h.reaches.tidy hp
  have ht' := h.reaches'.tidy hp
  have hconf : w'.book.config = w.book.config := h.reaches'.config_eq.trans h.reaches.config_eq.symm
  refine ⟨(hr'.bestBid ht').trans (hr.bestBid ht).symm,
    (hr'.bestAsk ht').trans (hr.bestAsk ht).symm,
    (hr'.spread ht' (h.reaches'.config_eq ▸ hp)).trans
      (hr.spread ht (h.reaches.config_eq ▸ hp)).symm, fun price side => ?_⟩
  have htotal : ∀ i,
      (w'.book.levels side i).totalQuantity = (w.book.levels side i).totalQuantity := by
    intro i
    have hqueue : (w'.book.levels side i).orders.map Node.order =
        (w.book.levels side i).orders.map Node.order := by
      rw [hr.queue, hr'.queue, hconf]
    have hsum : ∀ ns : List Node,
        PriceLevel.sumQuantity ns = ((ns.map Node.order).map Order.quantity).sum := fun ns => by
      rw [List.map_map]
      rfl
    rw [h.reaches.sound.coherent.total, h.reaches'.sound.coherent.total, hsum, hsum, hqueue]
  rw [quantityAt, quantityAt, hconf]
  simp only [htotal]

/-- **Orders that do not trade leave no trace.** Whichever ids are hidden: if no report of a run
names them, then the run without the calls about them makes the same reports, gives the same answers
to the other cancels, and leaves the same queues without the hidden orders; and where these have
been cancelled, the same best prices, spread and depths. -/
theorem noTrace_of_wellFormed (c : OrderBookConfig) (hmin : 0 ≤ c.minPrice)
    (hlevels : c.numLevels ≤ 2 ^ 31) (ops : List BookOp) (hops : WellFormed c ops)
    (hidden : ℕ → Bool) :
    ∃ s, Converges (runBook c record [] ops) (.ok s) ∧
      (Unseen hidden s.1.env → ∃ s',
        Converges (runBook c record [] (ops.filter (BookOp.shown hidden))) (.ok s') ∧
        NoTrace hidden ops s s') := by
  have hp : c.Priced := ⟨hmin, by omega⟩
  have hstart : Overlooks c hidden [] [] [] ⟨new c, []⟩ ⟨new c, []⟩ :=
    ⟨reaches_new c, reaches_new c, List.Subset.refl _, represents_new c, represents_new c, rfl⟩
  obtain ⟨used₁, live₁, bs, s, hs, hbs, -, hrest⟩ := exists_runs hp [] (⟨new c, []⟩, [])
    (⟨new c, []⟩, []) (reaches_new c) (represents_new c) (fun _ => hstart) hops
  refine ⟨s, hs, fun hunseen => ?_⟩
  obtain ⟨used₁', bs', s', hs', hbs', hov, hans⟩ := hrest hunseen
  rw [List.nil_append] at hbs hbs'
  exact ⟨s', hs', hov.env, by rw [hbs', hbs]; exact hans, hov.queue, hov.gone hp⟩

/-- The better of two asks is cancelled before anybody buys. -/
def passedOps : List BookOp :=
  [.add ⟨1, 1, 12, 5, .sell, .limit⟩, .add ⟨2, 1, 10, 3, .sell, .limit⟩,
    .add ⟨3, 1, 8, 4, .buy, .limit⟩, .cancel 2, .add ⟨4, 1, 14, 6, .buy, .limit⟩, .cancel 3]

theorem noTrace_of_wellFormed_passedOps :
    ∃ s s', Converges (runBook ⟨0, 20, 2, by decide, by decide, by decide⟩ record [] passedOps)
        (.ok s) ∧
      Converges (runBook ⟨0, 20, 2, by decide, by decide, by decide⟩ record []
        (passedOps.filter (BookOp.shown fun id => id == 2))) (.ok s') ∧
      NoTrace (fun id => id == 2) passedOps s s' := by
  obtain ⟨s, hs, hrest⟩ := noTrace_of_wellFormed ⟨0, 20, 2, by decide, by decide, by decide⟩
    (by decide) (by decide) passedOps
    ⟨fun _ => ⟨by decide, ⟨6, by decide, by decide⟩, by decide⟩,
      fun _ => ⟨by decide, ⟨5, by decide, by decide⟩, by decide⟩,
      fun _ => ⟨by decide, ⟨4, by decide, by decide⟩, by decide⟩, trivial,
      fun _ => ⟨by decide, ⟨7, by decide, by decide⟩, by decide⟩, trivial, trivial⟩
    (fun id => id == 2)
  have hlog : ((runBook ⟨0, 20, 2, by decide, by decide, by decide⟩ record [] passedOps 20).map
      fun s => s.1.env.map ExecutionReport.orderId) = .ok [4, 1] := by decide +kernel
  have henv : s.1.env.map ExecutionReport.orderId = [4, 1] := by
    rcases hs.1 20 with herr | hok
    · rw [herr] at hlog
      cases hlog
    · rw [hok] at hlog
      exact Except.ok.inj hlog
  obtain ⟨s', hs', htrace⟩ := hrest fun r hr => by
    have hmem : r.orderId ∈ [4, 1] := henv ▸ List.mem_map_of_mem hr
    rcases List.mem_pair.mp hmem with h | h <;> rw [h] <;> rfl
  exact ⟨s, s', hs, hs', htrace⟩

end OrderBook

end MiniTrader
