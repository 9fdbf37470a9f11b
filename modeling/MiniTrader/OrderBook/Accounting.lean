import MiniTrader.OrderBook.Resting
import MiniTrader.OrderBook.Run

/-!
# Where the quantity of an order goes

An order can be filled as an incoming order across several levels, then rest and be filled again and
again, and at last be cancelled from the middle of a queue. The quantities are reduced in three
places on the way. `Accounts` is the law behind all of them, stated without a book: a log of entries
and, for each id, the quantity that is still *live* — resting, or in the hands of `match`. Its rule
`Accounts.append` covers fills, cancels and discarded remainders alike: whatever is appended to the
log moves quantity from the live side to the log, and an id with nothing live is not named again.

The two reports of a fill come one after the other, and between them the second party of the fill
has not been told. A log that ends there is in the middle of a fill (`InsideFill`), and what is said
about an order that is finished is not said about such a log.

## Main definitions

* `Entry`, `recordEntry`, `runLedger` — runs with a recording callback
* `filledOf`, `removedOf`, `Finished`
* `Accounts` — the law

## Main results

* `Accounts.append`, `Accounts.submit`
* `accounts_of_wellFormed` — the law in every run
-/

namespace MiniTrader

open Fuelled

namespace OrderBook

/-! ### The log -/

/-- What is written down: the reports the callback gets, what each cancel answers and how much less
rests under the id after it, and what `match` leaves of a market order. -/
inductive Entry where
  | report (r : ExecutionReport)
  | cancelled (orderId : ℕ) (ok : Bool) (quantity : ℤ)
  | discarded (orderId : ℕ) (quantity : ℤ)
  deriving DecidableEq, Repr

/-- The recording callback. -/
def recordEntry : FillCallback (List Entry) := observe fun r log => log ++ [.report r]

/-- One call on the book. `match` is run by itself first, for what it leaves of the order. -/
def BookOp.runLedger (op : BookOp) (fuel : ℕ) (w : World (List Entry)) :
    Outcome (World (List Entry)) :=
  match op with
  | .add order => do
    let left ← matchOrder recordEntry fuel (order, w)
    let w ← addOrder recordEntry fuel order w
    if order.type = .market then
      .ok ⟨w.book, w.env ++ [.discarded order.orderId left.1.quantity]⟩
    else .ok w
  | .cancel orderId => do
    let r ← w.book.cancelOrder orderId
    .ok ⟨r.2, w.env ++ [.cancelled orderId r.1
      (restingQuantity w.book orderId - restingQuantity r.2 orderId)]⟩

/-- A sequence of calls on an empty book. -/
def runLedger (c : OrderBookConfig) (ops : List BookOp) (fuel : ℕ) :
    Outcome (World (List Entry)) :=
  runList BookOp.runLedger fuel ops ⟨new c, []⟩

/-- What the entry fills of an order. -/
def Entry.filled (id : ℕ) : Entry → ℤ
  | .report r => if r.orderId = id then r.filledQuantity else 0
  | .cancelled _ _ _ | .discarded _ _ => 0

/-- What the entry removes of an order without filling it. Of the cancels only the successful ones
count: what the book loses in a cancel that answers `false` is not accounted for. -/
def Entry.removed (id : ℕ) : Entry → ℤ
  | .report _ => 0
  | .cancelled orderId ok quantity => if orderId = id ∧ ok = true then quantity else 0
  | .discarded orderId quantity => if orderId = id then quantity else 0

/-- The sum of the fills of an order. -/
def filledOf (log : List Entry) (id : ℕ) : ℤ := (log.map (Entry.filled id)).sum

/-- What has been cancelled or discarded of an order. -/
def removedOf (log : List Entry) (id : ℕ) : ℤ := (log.map (Entry.removed id)).sum

/-- The entry is a report that names the id, on its own side or the other, or a successful cancel of
it. -/
def Entry.Names (id : ℕ) : Entry → Prop
  | .report r => r.orderId = id ∨ r.matchedOrderId = id
  | .cancelled orderId ok _ => orderId = id ∧ ok = true
  | .discarded _ _ => False

/-- The order has been filled completely, or cancelled. -/
def Finished (log : List Entry) (o : Order) : Prop :=
  filledOf log o.orderId = o.quantity ∨ ∃ q, .cancelled o.orderId true q ∈ log

/-- The last entry is the first of the two reports of a fill. -/
def InsideFill (log : List Entry) : Prop :=
  ∃ log' r, log = log' ++ [.report r] ∧ r.isMaker = false

/-- The report of the same fill to the other party. -/
def counterpart (r : ExecutionReport) : ExecutionReport :=
  ⟨r.matchedOrderId, r.orderId, r.price, r.filledQuantity, r.side.opp, !r.isMaker⟩

/-- The first report of each fill is followed at once by the second. -/
def Paired (log : List Entry) : Prop :=
  ∀ log₁ r log₂, log = log₁ ++ .report r :: log₂ → r.isMaker = false →
    ∃ log₂', log₂ = .report (counterpart r) :: log₂'

@[simp] theorem filledOf_append (log log' : List Entry) (id : ℕ) :
    filledOf (log ++ log') id = filledOf log id + filledOf log' id := by
  simp [filledOf]

@[simp] theorem removedOf_append (log log' : List Entry) (id : ℕ) :
    removedOf (log ++ log') id = removedOf log id + removedOf log' id := by
  simp [removedOf]

theorem filledOf_eq_zero {log : List Entry} {id : ℕ} (h : ∀ e ∈ log, e.filled id = 0) :
    filledOf log id = 0 :=
  List.sum_eq_zero fun _ hx => by obtain ⟨e, he, rfl⟩ := List.mem_map.mp hx; exact h e he

theorem removedOf_eq_zero {log : List Entry} {id : ℕ} (h : ∀ e ∈ log, e.removed id = 0) :
    removedOf log id = 0 :=
  List.sum_eq_zero fun _ hx => by obtain ⟨e, he, rfl⟩ := List.mem_map.mp hx; exact h e he

theorem Paired.append {log log' : List Entry} (h : Paired log) (h' : Paired log') :
    Paired (log ++ log') := by
  intro log₁ r log₂ heq hr
  rcases List.append_eq_append_iff.mp heq with ⟨a, rfl, hlog'⟩ | ⟨a, rfl, ha⟩
  · exact h' a r log₂ hlog' hr
  · rcases List.cons_eq_append_iff.mp ha with ⟨rfl, hlog'⟩ | ⟨a', rfl, rfl⟩
    · exact h' [] r log₂ hlog' hr
    · obtain ⟨rest, rfl⟩ := h log₁ r a' rfl hr
      exact ⟨rest ++ log', rfl⟩

/-- A log without first reports. -/
theorem paired_of_forall {log : List Entry}
    (h : ∀ r : ExecutionReport, .report r ∈ log → r.isMaker = true) : Paired log := by
  rintro log₁ r log₂ rfl hr
  have := h r (List.mem_append_right _ List.mem_cons_self)
  rw [hr] at this
  cases this

/-- The two reports of a fill. -/
theorem paired_fill {r : ExecutionReport} (hr : r.isMaker = false) :
    Paired [.report r, .report (counterpart r)] := by
  intro log₁ r' log₂ heq hr'
  rcases List.cons_eq_append_iff.mp heq with ⟨rfl, h⟩ | ⟨a, rfl, h⟩
  · cases h
    exact ⟨[], rfl⟩
  · -- the second report is the maker's
    have hmem : .report r' ∈ [Entry.report (counterpart r)] :=
      h ▸ List.mem_append_right _ List.mem_cons_self
    cases List.mem_singleton.mp hmem
    rw [counterpart, hr] at hr'
    cases hr'

/-! ### The law -/

/-- The log accounts for the orders. -/
structure Accounts (orders : List Order) (log : List Entry) (live : ℕ → ℤ) : Prop where
  account : ∀ o ∈ orders,
    o.quantity = filledOf log o.orderId + live o.orderId + removedOf log o.orderId
  nonneg : ∀ id, 0 ≤ live id
  removed_nonneg : ∀ id, 0 ≤ removedOf log id
  cancelled : ∀ {id q}, .cancelled id true q ∈ log → live id = 0
  paired : Paired log
  /-- Nothing is known of an id that has not been submitted. -/
  unknown : ∀ {id}, (∀ o ∈ orders, o.orderId ≠ id) → live id = 0 ∧
    ∀ e ∈ log, ¬ e.Names id ∧ e.filled id = 0 ∧ e.removed id = 0
  /-- Nothing happens to an order that is finished. -/
  closed : ∀ o ∈ orders, ∀ log₁ log₂, log = log₁ ++ log₂ → ¬ InsideFill log₁ → Finished log₁ o →
    live o.orderId = 0 ∧ ∀ e ∈ log₂, ¬ e.Names o.orderId

theorem accounts_nil : Accounts [] [] fun _ => 0 where
  account _ h := absurd h List.not_mem_nil
  nonneg _ := le_rfl
  removed_nonneg _ := le_rfl
  cancelled h := absurd h List.not_mem_nil
  paired := paired_of_forall fun _ h => absurd h List.not_mem_nil
  unknown _ := ⟨rfl, fun _ h => absurd h List.not_mem_nil⟩
  closed _ h := absurd h List.not_mem_nil

variable {orders : List Order} {log es : List Entry} {live live' : ℕ → ℤ} {o : Order}

/-- **Appending to the log.** Each entry moves quantity out of what is live, an id with nothing live
is not named, and the log is not cut inside what is appended, except in the middle of a fill. -/
theorem Accounts.append (h : Accounts orders log live)
    (hcut : ∀ a c, es = a ++ c → a ≠ [] → c ≠ [] → InsideFill (log ++ a)) (hpaired : Paired es)
    (haccount : ∀ id, live id = filledOf es id + live' id + removedOf es id)
    (hnonneg : ∀ id, 0 ≤ live' id) (hremoved : ∀ id, 0 ≤ removedOf es id)
    (hcancelled : ∀ {id q}, .cancelled id true q ∈ es → live' id = 0)
    (hdead : ∀ {id}, live id = 0 → ∀ e ∈ es, ¬ e.Names id ∧ e.filled id = 0 ∧ e.removed id = 0) :
    Accounts orders (log ++ es) live' := by
  have hzero : ∀ {id}, live id = 0 → live' id = 0 := by
    intro id hid
    have hes := hdead hid
    have := haccount id
    rw [hid, filledOf_eq_zero fun e he => (hes e he).2.1,
      removedOf_eq_zero fun e he => (hes e he).2.2] at this
    omega
  have haccount' : ∀ o ∈ orders, o.quantity =
      filledOf (log ++ es) o.orderId + live' o.orderId + removedOf (log ++ es) o.orderId := by
    intro o ho
    have h1 := h.account o ho
    have h2 := haccount o.orderId
    rw [filledOf_append, removedOf_append]
    omega
  have hremoved' : ∀ id, 0 ≤ removedOf (log ++ es) id := by
    intro id
    rw [removedOf_append]
    exact add_nonneg (h.removed_nonneg id) (hremoved id)
  have hcancelled' : ∀ {id q}, .cancelled id true q ∈ log ++ es → live' id = 0 := by
    intro id q hmem
    rcases List.mem_append.mp hmem with hmem | hmem
    · exact hzero (h.cancelled hmem)
    · exact hcancelled hmem
  refine ⟨haccount', hnonneg, hremoved', hcancelled', h.paired.append hpaired, fun hid => ?_, ?_⟩
  · obtain ⟨hlive, hlog⟩ := h.unknown hid
    refine ⟨hzero hlive, fun e he => ?_⟩
    rcases List.mem_append.mp he with he | he
    · exact hlog e he
    · exact hdead hlive e he
  · intro o ho log₁ log₂ heq hnot hfin
    -- a cut in the old log, and the new entries are about other orders
    have hold : ∀ c, log = log₁ ++ c → log₂ = c ++ es →
        live' o.orderId = 0 ∧ ∀ e ∈ log₂, ¬ e.Names o.orderId := by
      rintro c hlog rfl
      obtain ⟨hlive, hc⟩ := h.closed o ho log₁ c hlog hnot hfin
      refine ⟨hzero hlive, fun e he => ?_⟩
      rcases List.mem_append.mp he with he | he
      · exact hc e he
      · exact (hdead hlive e he).1
    rcases List.append_eq_append_iff.mp heq with ⟨a, rfl, hes⟩ | ⟨c, hlog, hlog₂⟩
    · by_cases ha : a = []
      · subst ha
        exact hold [] (by simp) (by rw [List.nil_append]; exact hes.symm)
      by_cases hc : log₂ = []
      · subst hc
        rw [List.append_nil] at hes
        subst hes
        refine ⟨?_, fun e he => absurd he List.not_mem_nil⟩
        rcases hfin with hfin | ⟨q, hq⟩
        · have h1 := haccount' o ho
          have h2 := hnonneg o.orderId
          have h3 := hremoved' o.orderId
          omega
        · exact hcancelled' hq
      · exact absurd (hcut a log₂ hes ha hc) hnot
    · exact hold c hlog hlog₂

/-- **A new order** is live with all of its quantity. -/
theorem Accounts.submit (h : Accounts orders log live) (hid : ∀ o' ∈ orders, o'.orderId ≠ o.orderId)
    (hq : 0 < o.quantity) :
    Accounts (orders ++ [o]) log fun id => live id + if id = o.orderId then o.quantity else 0 := by
  obtain ⟨hlive, hlog⟩ := h.unknown hid
  have hne : ∀ o' ∈ orders, ¬ o'.orderId = o.orderId := hid
  constructor
  case account =>
    intro o' ho'
    rcases List.mem_append.mp ho' with ho' | ho'
    · rw [if_neg (hne o' ho'), add_zero]
      exact h.account o' ho'
    · rw [List.mem_singleton.mp ho', if_pos rfl, hlive,
        filledOf_eq_zero fun e he => (hlog e he).2.1,
        removedOf_eq_zero fun e he => (hlog e he).2.2]
      omega
  case nonneg =>
    intro id
    have := h.nonneg id
    split <;> omega
  case removed_nonneg => exact h.removed_nonneg
  case cancelled =>
    intro id q hmem
    have hne : id ≠ o.orderId := by
      rintro rfl
      exact (hlog _ hmem).1 ⟨rfl, rfl⟩
    rw [if_neg hne, add_zero]
    exact h.cancelled hmem
  case paired => exact h.paired
  case unknown =>
    intro id hid'
    have hne : id ≠ o.orderId := fun he =>
      hid' o (List.mem_append_right _ List.mem_cons_self) he.symm
    rw [if_neg hne, add_zero]
    exact h.unknown fun o' ho' => hid' o' (List.mem_append_left _ ho')
  case closed =>
    intro o' ho' log₁ log₂ heq hnot hfin
    rcases List.mem_append.mp ho' with ho' | ho'
    · rw [if_neg (hne o' ho'), add_zero]
      exact h.closed o' ho' log₁ log₂ heq hnot hfin
    · obtain rfl := List.mem_singleton.mp ho'
      exfalso
      have hsub : ∀ e ∈ log₁, e ∈ log := fun e he => heq ▸ List.mem_append_left _ he
      rcases hfin with hfin | ⟨q, hmem⟩
      · rw [filledOf_eq_zero fun e he => (hlog e (hsub e he)).2.1] at hfin
        omega
      · exact (hlog _ (hsub _ hmem)).1 ⟨rfl, rfl⟩

/-- One entry has no inside. -/
theorem not_cut_singleton {e : Entry} {a c : List Entry} (h : [e] = a ++ c) (ha : a ≠ [])
    (hc : c ≠ []) : False := by
  have hlen := congrArg List.length h
  have h1 := List.length_pos_iff.mpr ha
  have h2 := List.length_pos_iff.mpr hc
  rw [List.length_append, List.length_singleton] at hlen
  omega

/-! ### The book keeps the law -/

variable {c : OrderBookConfig} {b b' : OrderBook} {s side : Side} {i : ℕ} {n : Node}

/-- What is live while `match` works on an order. -/
def liveWith (b : OrderBook) (o : Order) (id : ℕ) : ℤ :=
  restingQuantity b id + if id = o.orderId then o.quantity else 0

theorem Coherent.restingQuantity_nonneg (hb : Coherent b) (id : ℕ) : 0 ≤ restingQuantity b id :=
  hb.restingSum_nonneg

theorem Coherent.restingQuantity_pos (hb : Coherent b) (hn : n ∈ (b.levels s i).orders) :
    0 < restingQuantity b n.order.orderId := by
  have := hb.restingQuantity_nonneg n.order.orderId
  have hne := mt hb.restingQuantity_eq_zero_iff.mp fun h => h s i n hn rfl
  omega

/-- **A fill** takes the same quantity off both parties. -/
theorem Accounts.fill {rest : List Node} {p : ℤ} (h : Accounts orders log (liveWith b o))
    (hb : Coherent b) (hfront : (b.levels s i).orders = n :: rest) (hq : 0 < o.quantity) :
    Accounts orders
      (log ++ [.report (takerReport side o n p), .report (makerReport side o n p)])
      (liveWith (b.settleFront s i n.order (min o.quantity n.order.quantity))
        (Order.afterFill o n)) := by
  have hn : n ∈ (b.levels s i).orders := by rw [hfront]; exact List.mem_cons_self
  have hpos := hb.positive hn
  have hsettle : ∀ id, restingQuantity
      (b.settleFront s i n.order (min o.quantity n.order.quantity)) id = restingQuantity b id -
        if n.order.orderId = id then min o.quantity n.order.quantity else 0 := by
    intro id
    have := hb.restingSum_settleFront (φ := fun id' _ => id' = id) hfront
      (min_le_right o.quantity n.order.quantity)
    simp only [picks, decide_eq_true_eq] at this
    exact this
  have hlive : ∀ id, liveWith (b.settleFront s i n.order (min o.quantity n.order.quantity))
      (Order.afterFill o n) id =
        restingQuantity b id - (if n.order.orderId = id then min o.quantity n.order.quantity else 0)
          + if id = o.orderId then o.quantity - min o.quantity n.order.quantity else 0 := by
    intro id
    rw [← hsettle]
    rfl
  have hrest := hb.restingQuantity_nonneg
  have hrestn := hb.restingQuantity_pos hn
  have hnonneg : ∀ id, 0 ≤ restingQuantity
      (b.settleFront s i n.order (min o.quantity n.order.quantity)) id := by
    rcases hb.settleFront_cases (q := min o.quantity n.order.quantity) hfront with
      ⟨-, he⟩ | ⟨hlt, he⟩
    · rw [he]; exact (hb.unlink hn).restingQuantity_nonneg
    · rw [he]; exact (hb.reduceFront hfront hlt).restingQuantity_nonneg
  refine h.append (fun a c hac ha hc => ?_) (paired_fill rfl) (fun id => ?_) (fun id => ?_)
    (fun id => le_rfl) (fun hmem => by simp at hmem) (fun {id} hid e he => ?_)
  · -- the only cut is after the first report
    match a, hac with
    | [], _ => exact absurd rfl ha
    | [e], hac =>
      obtain ⟨rfl, -⟩ := List.cons.inj hac
      exact ⟨log, _, rfl, rfl⟩
    | _ :: _ :: a, hac =>
      have hlen := congrArg List.length hac
      have := List.length_pos_iff.mpr hc
      simp only [List.length_append, List.length_cons, List.length_nil] at hlen
      omega
  · have hfilled : filledOf
        [.report (takerReport side o n p), .report (makerReport side o n p)] id =
          (if o.orderId = id then min o.quantity n.order.quantity else 0) +
            ((if n.order.orderId = id then min o.quantity n.order.quantity else 0) + 0) := rfl
    rw [hlive, hfilled, removedOf_eq_zero fun e he => ?_, liveWith]
    · by_cases hid : o.orderId = id
      · rw [if_pos hid, if_pos hid.symm, if_pos hid.symm]; omega
      · rw [if_neg hid, if_neg (Ne.symm hid), if_neg (Ne.symm hid)]; omega
    · rcases List.mem_cons.mp he with rfl | he
      · rfl
      · rw [List.mem_singleton.mp he]; rfl
  · have := hnonneg id
    rw [hsettle] at this
    rw [hlive]
    split <;> omega
  · have ho : o.orderId ≠ id := by
      rintro rfl
      have := hrest o.orderId
      rw [liveWith, if_pos rfl] at hid
      omega
    have hn : n.order.orderId ≠ id := by
      rintro rfl
      rw [liveWith] at hid
      split at hid <;> omega
    rcases List.mem_cons.mp he with rfl | he
    · exact ⟨not_or.mpr ⟨ho, hn⟩, if_neg ho, rfl⟩
    · rw [List.mem_singleton.mp he]
      exact ⟨not_or.mpr ⟨hn, ho⟩, if_neg hn, rfl⟩

/-- A single entry that is not a report. -/
theorem Accounts.append_one {e : Entry} (h : Accounts orders log live)
    (hreport : ∀ r, e ≠ .report r)
    (haccount : ∀ id, live id = live' id + e.removed id) (hnonneg : ∀ id, 0 ≤ live' id)
    (hremoved : ∀ id, 0 ≤ e.removed id)
    (hcancelled : ∀ {id q}, e = .cancelled id true q → live' id = 0)
    (hnames : ∀ {id}, live id = 0 → ¬ e.Names id) : Accounts orders (log ++ [e]) live' := by
  have hfilled : ∀ id, e.filled id = 0 := by
    intro id
    cases e with
    | report r => exact absurd rfl (hreport r)
    | cancelled => rfl
    | discarded => rfl
  have hone : ∀ id, filledOf [e] id = 0 ∧ removedOf [e] id = e.removed id := fun id =>
    ⟨filledOf_eq_zero fun e' he => by rw [List.mem_singleton.mp he, hfilled],
      add_zero (e.removed id)⟩
  refine h.append (fun a c hac ha hc => (not_cut_singleton hac ha hc).elim)
    (paired_of_forall fun r hr => absurd (List.mem_singleton.mp hr).symm (hreport r))
    (fun id => ?_) hnonneg (fun id => ?_) (fun hmem => hcancelled (List.mem_singleton.mp hmem).symm)
    (fun {id} hid e' he => ?_)
  · rw [(hone id).1, (hone id).2, haccount, zero_add]
  · rw [(hone id).2]
    exact hremoved id
  · obtain rfl := List.mem_singleton.mp he
    have h1 := haccount id
    have h2 := hnonneg id
    have h3 := hremoved id
    exact ⟨hnames hid, hfilled id, by omega⟩

/-! ### One call -/

/-- What a call has to satisfy after the orders `orders`: they are limit orders on the grid and
market orders, with something to trade and an id of their own. -/
def BookOp.OkLedger (c : OrderBookConfig) (orders : List Order) : BookOp → Prop
  | .add o => o.type ≠ .cancel ∧ 0 < o.quantity ∧ (o.type = .limit → c.OnGrid o.price) ∧
      ∀ o' ∈ orders, o'.orderId ≠ o.orderId
  | .cancel _ => True

/-- The orders after a call. -/
def BookOp.submitted (orders : List Order) : BookOp → List Order
  | .add o => orders ++ [o]
  | .cancel _ => orders

/-- What the runs keep. -/
structure Ledger (c : OrderBookConfig) (orders : List Order) (w : World (List Entry)) : Prop where
  reaches : Reaches c (orders.map Order.orderId) w.book
  accounts : Accounts orders w.env (restingQuantity w.book)

theorem ledger_new (c : OrderBookConfig) : Ledger c [] ⟨new c, []⟩ where
  reaches := reaches_new c
  accounts := by
    have h : restingQuantity (new c) = fun _ => 0 := funext fun _ => restingSum_new c
    rw [h]
    exact accounts_nil

/-- The law through `match`. -/
theorem ledgerRule (c : OrderBookConfig) (orders : List Order) (side : Side) :
    SparingRule c recordEntry side
      (fun o w => Accounts orders w.env (liveWith w.book o) ∧ 0 ≤ o.quantity)
      (fun _ o w => Accounts orders w.env (liveWith w.book o) ∧ 0 ≤ o.quantity) := by
  refine sparingRule_observe (fun _ _ h _ => h) (fun hb _ h hfront hq => ⟨?_, ?_⟩)
    (fun _ _ h _ => ⟨?_, h.2⟩)
  · rw [List.append_assoc]
    exact h.1.fill hb.coherent hfront hq
  · exact sub_nonneg.mpr (min_le_left _ _)
  · have hlive : ∀ idx o' w, liveWith (leaveLevel w side.opp idx) o' = liveWith w o' := by
      intro idx o' w
      funext id
      rw [liveWith, liveWith, restingQuantity, restingQuantity,
        restingSum_congr config_leaveLevel fun _ => levels_leaveLevel]
    rw [← hlive] at h
    exact h.1

variable {w : World (List Entry)}

/-- What is left of a limit order rests, and stays live. -/
theorem liveWith_join (ho : o.type = .limit) (hq : 0 ≤ o.quantity)
    (hidx : w.book.config.priceToIndex o.price < w.book.config.numLevels) :
    restingQuantity (afterMatch o w).book = liveWith w.book o := by
  funext id
  rw [afterMatch]
  by_cases hpos : 0 < o.quantity
  · rw [if_pos ⟨hpos, ho⟩]
    show restingSum _ (w.book.join o) = _
    rw [restingSum_join hidx, liveWith, restingQuantity]
    congr 1
    exact if_congr (decide_eq_true_iff.trans eq_comm) rfl rfl
  · rw [if_neg fun h => hpos h.1, liveWith]
    have : o.quantity = 0 := by omega
    rw [this, ite_self, add_zero]

/-- What is left of a market order is discarded. -/
theorem Accounts.discard {log : List Entry} (h : Accounts orders log (liveWith b o))
    (hrest : ∀ id, 0 ≤ restingQuantity b id) (hq : 0 ≤ o.quantity) :
    Accounts orders (log ++ [.discarded o.orderId o.quantity]) (restingQuantity b) := by
  refine h.append_one (fun r => nofun) (fun id => ?_) hrest (fun id => ?_) nofun
    (fun _ h => h)
  · rw [liveWith, Entry.removed]
    simp only [eq_comm]
  · rw [Entry.removed]
    split
    · exact hq
    · exact le_rfl

/-- A cancel. Only a successful one takes anything out of the book. -/
theorem Ledger.cancel (h : Ledger c orders w) (id : ℕ) :
    ∃ r b', w.book.cancelOrder id = .ok (r, b') ∧ Ledger c orders ⟨b', w.env ++
      [.cancelled id r (restingQuantity w.book id - restingQuantity b' id)]⟩ := by
  have hb := h.reaches.sound.coherent
  obtain ⟨r, b', hc⟩ := hb.cancelOrder_ok id
  have h' := h.reaches.cancelOrder hc
  have hnot := h.reaches.located.notResting_cancelOrder hb trivial hc
  have hother : ∀ id', ¬ (id = id' ∧ r = true) →
      restingQuantity b' id' = restingQuantity w.book id' := by
    intro id' hne
    rcases hb.restingSum_cancelOrder (φ := fun i _ => i = id') hc with
      ⟨-, rfl⟩ | ⟨s, i, n, -, hn, hr, hsum⟩
    · rfl
    · have hpick : picks (fun i _ => i = id') n = false :=
        decide_eq_false fun he => hne ⟨hn.symm.trans he, hr⟩
      rw [restingQuantity, hsum, hpick]
      exact sub_zero _
  refine ⟨r, b', hc, h', h.accounts.append_one (fun r he => by cases he) (fun id' => ?_)
    (fun id' => h'.sound.coherent.restingQuantity_nonneg id') (fun id' => ?_) (fun he => ?_)
    (fun {id'} hid' he => ?_)⟩
  · show _ = restingQuantity b' id' + _
    rw [Entry.removed]
    by_cases hid : id = id' ∧ r = true
    · rw [if_pos hid, hid.1]
      omega
    · rw [if_neg hid, hother id' hid, add_zero]
  · rw [Entry.removed, restingQuantity_of_notResting hnot]
    have := hb.restingQuantity_nonneg id
    split <;> omega
  · cases he
    exact restingQuantity_of_notResting hnot
  · -- a successful cancel takes an order out
    obtain ⟨rfl, rfl⟩ := he
    rcases hb.restingSum_cancelOrder (φ := fun _ _ => true) hc with ⟨hr, -⟩ | ⟨s, i, n, hn, hid, -⟩
    · cases hr
    · exact hb.restingQuantity_eq_zero_iff.mp hid' s i n hn hid

/-- **One call** keeps the law. -/
theorem Ledger.step (h : Ledger c orders w) {op : BookOp} (hok : op.OkLedger c orders) :
    ∃ w', Converges (fun fuel => op.runLedger fuel w) (.ok w') ∧
      Ledger c (op.submitted orders) w' := by
  cases op with
  | cancel id =>
    obtain ⟨r, b', hc, h'⟩ := h.cancel id
    refine ⟨_, ?_, h'⟩
    simp only [BookOp.runLedger, hc]
    exact converges_const _
  | add o =>
    obtain ⟨htype, hq, hgrid, hid⟩ := hok
    obtain ⟨q, w', hm, hadd, hr', hra, ⟨hacc, hq'⟩, -⟩ :=
      (ledgerRule c (orders ++ [o]) o.side).matchOrder_reaches h.reaches htype
        (fun hl => ⟨hgrid hl, fun hmem => by
          obtain ⟨o', ho', he⟩ := List.mem_map.mp hmem
          exact hid o' ho' he⟩) ⟨h.accounts.submit hid hq, hq.le⟩
    have hused : BookOp.usedIds (orders.map Order.orderId) (.add o) ⊆
        (orders ++ [o]).map Order.orderId := by
      intro i hi
      rw [List.map_append]
      rw [BookOp.usedIds] at hi
      split at hi
      · rcases List.mem_cons.mp hi with rfl | hi
        · exact List.mem_append_right _ List.mem_cons_self
        · exact List.mem_append_left _ hi
      · exact List.mem_append_left _ hi
    by_cases hmarket : o.type = .market
    · have hafter : afterMatch (o.withQuantity q) w' = w' :=
        if_neg fun h => by
          rw [Order.type_withQuantity, hmarket] at h
          exact absurd h.2 (by decide)
      rw [hafter] at hadd hra
      have hacc' := hacc.discard hr'.sound.coherent.restingQuantity_nonneg hq'
      refine ⟨⟨w'.book, w'.env ++ [Entry.discarded o.orderId q]⟩, hm.bind (hadd.bind ?_),
        hra.mono hused, hacc'⟩
      rw [if_pos hmarket]
      exact converges_const _
    · have hlimit : o.type = .limit := by
        cases ht : o.type with
        | limit => rfl
        | market => exact absurd ht hmarket
        | cancel => exact absurd ht htype
      refine ⟨_, hm.bind (hadd.bind ?_), hra.mono hused, ?_⟩
      · rw [if_neg hmarket]
        exact converges_const _
      · have hidx : w'.book.config.priceToIndex o.price < w'.book.config.numLevels := by
          rw [hr'.config_eq]
          exact (hgrid hlimit).priceToIndex_lt
        have henv : (afterMatch (o.withQuantity q) w').env = w'.env := by
          rw [afterMatch]
          split <;> rfl
        rw [henv, liveWith_join (o := o.withQuantity q) hlimit hq' hidx]
        exact hacc

/-! ### Runs -/

/-- Every run returns, and its log accounts for the orders. -/
theorem exists_runLedger {ops : List BookOp}
    (hops : Allowed (BookOp.OkLedger c) BookOp.submitted [] ops) :
    ∃ w, Converges (runLedger c ops) (.ok w) ∧ Ledger c (ops.foldl BookOp.submitted []) w :=
  @converges_runList _ _ _ _ BookOp.runLedger (BookOp.OkLedger c) BookOp.submitted (Ledger c)
    (fun _ _ _ h hok => h.step hok) _ _ _ (ledger_new c) hops

/-- The orders of a run are those it submits. -/
theorem mem_foldl_submitted {ops : List BookOp} :
    o ∈ ops.foldl BookOp.submitted orders ↔ o ∈ orders ∨ .add o ∈ ops := by
  induction ops generalizing orders with
  | nil => simp
  | cons op ops ih =>
    rw [List.foldl_cons, ih]
    cases op with
    | add o' => simp [BookOp.submitted, or_assoc]
    | cancel id => simp [BookOp.submitted]

/-- **Where the quantity of an order goes.** In every run, the quantity of each order is what the
reports to it filled, what still rests under its id, and what a successful cancel or the end of a
market order removed. From the moment an order is filled completely or cancelled, no report names it
and no cancel of it succeeds; such a moment is not between the two reports of one fill, which follow
each other at once. -/
theorem accounts_of_wellFormed (c : OrderBookConfig) (ops : List BookOp)
    (hops : Allowed (BookOp.OkLedger c) BookOp.submitted [] ops) :
    ∃ w, Converges (runLedger c ops) (.ok w) ∧
      Paired w.env ∧
      ∀ o, .add o ∈ ops →
        o.quantity = filledOf w.env o.orderId + restingQuantity w.book o.orderId +
          removedOf w.env o.orderId ∧
        ∀ log₁ log₂, w.env = log₁ ++ log₂ → ¬ InsideFill log₁ → Finished log₁ o →
          ∀ e ∈ log₂, ¬ e.Names o.orderId := by
  obtain ⟨w, hw, h⟩ := exists_runLedger hops
  refine ⟨w, hw, h.accounts.paired, fun o ho => ?_⟩
  have ho' : o ∈ ops.foldl BookOp.submitted [] := mem_foldl_submitted.mpr (Or.inr ho)
  exact ⟨h.accounts.account o ho', fun log₁ log₂ he hnot hfin =>
    (h.accounts.closed o ho' log₁ log₂ he hnot hfin).2⟩

/-- An ask is filled in part, rests on, and is cancelled; the market order that comes next is
discarded. -/
theorem accounts_of_wellFormed_example :
    ∃ w, Converges (runLedger ⟨1, 10, 1, by decide, by decide, by decide⟩
        [.add ⟨1, 1, 5, 10, .sell, .limit⟩, .add ⟨2, 1, 6, 4, .buy, .limit⟩, .cancel 1,
          .add ⟨3, 1, 6, 2, .buy, .market⟩, .cancel 1]) (.ok w) ∧
      Paired w.env ∧
      ∀ o, BookOp.add o ∈ [BookOp.add ⟨1, 1, 5, 10, .sell, .limit⟩,
          .add ⟨2, 1, 6, 4, .buy, .limit⟩, .cancel 1, .add ⟨3, 1, 6, 2, .buy, .market⟩,
          .cancel 1] →
        o.quantity = filledOf w.env o.orderId + restingQuantity w.book o.orderId +
          removedOf w.env o.orderId ∧
        ∀ log₁ log₂, w.env = log₁ ++ log₂ → ¬ InsideFill log₁ → Finished log₁ o →
          ∀ e ∈ log₂, ¬ e.Names o.orderId :=
  accounts_of_wellFormed _ _
    ⟨⟨by decide, by decide, fun _ => ⟨4, by decide, by decide⟩, by decide⟩,
      ⟨by decide, by decide, fun _ => ⟨5, by decide, by decide⟩, by decide⟩, trivial,
      ⟨by decide, by decide, nofun, by decide⟩, trivial, trivial⟩

/-- An ask for four lots, and a bid that takes them. -/
def oneFill : List BookOp :=
  [.add ⟨1, 1, 5, 4, .sell, .limit⟩, .add ⟨2, 1, 5, 4, .buy, .limit⟩]

/-- **Between the reports of one fill.** The report to the bid comes first and fills it completely;
the report to the ask comes after that, and names it. -/
theorem names_of_finished_betweenReports :
    Allowed (BookOp.OkLedger ⟨1, 10, 1, by decide, by decide, by decide⟩) BookOp.submitted []
      oneFill ∧
    ∃ w, runLedger ⟨1, 10, 1, by decide, by decide, by decide⟩ oneFill 3 = .ok w ∧
      ∃ log₁ log₂, w.env = log₁ ++ log₂ ∧ Finished log₁ ⟨2, 1, 5, 4, .buy, .limit⟩ ∧
        ∃ e ∈ log₂, e.Names 2 := by
  refine ⟨⟨⟨by decide, by decide, fun _ => ⟨4, rfl, by decide⟩, nofun⟩,
    ⟨by decide, by decide, fun _ => ⟨4, rfl, by decide⟩, by decide⟩, trivial⟩, ?_⟩
  obtain ⟨w, hw, hlog⟩ : ∃ w, runLedger ⟨1, 10, 1, by decide, by decide, by decide⟩ oneFill 3 =
      .ok w ∧ w.env = [.report ⟨2, 1, 5, 4, .buy, false⟩, .report ⟨1, 2, 5, 4, .sell, true⟩] := by
    decide +kernel
  exact ⟨w, hw, [.report ⟨2, 1, 5, 4, .buy, false⟩], [.report ⟨1, 2, 5, 4, .sell, true⟩], hlog,
    Or.inl rfl, _, List.mem_cons_self, Or.inr rfl⟩

end OrderBook

end MiniTrader
