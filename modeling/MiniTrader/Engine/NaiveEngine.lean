import MiniTrader.Engine.CancelRatio
import MiniTrader.Engine.QuotedBook
import MiniTrader.OrderBook.Exchange

/-!
# The engine on an exchange

The engine once more, on an `Exchange` instead of an `OrderBook`. Its gate, its counters, its clock
and its strategy are the same, since none of them looks into the book (`bookkeeping`). What differs
is what an order does: it is traded on a list, and a program of the strategy cannot fault.

Every run of the engine that returns is a run of this one (`lockstep_run`), for every strategy that
does not submit from `on_fill`, whatever it cancels there. With `SpreadStrategy` attached every run
returns, so there the engine is the exchange.

## Main definitions

* `NaiveEngine`, with the functions of the engine under their names
* `NaiveEngine.act`, `NaiveEngine.run` — top-level calls
* `Displays` — what can be observed of the two

## Main results

* `exists_cancels_interp` — a program that submits nothing
* `lockstep_submitOrder`, `lockstep_interp`, `lockstep_processTick` — one call
* `displays_run` — all runs that return
* `displays_run_of_quoting` — all runs of the spread strategy
-/

namespace MiniTrader

open Fuelled

/-- The engine on an exchange. -/
abbrev NaiveEngine (σ : Type) := Exchange (EngineEnv σ)

namespace NaiveEngine

open TradingEngine

variable {σ α : Type}

/-- The same data members next to a book with nothing in it. -/
def withoutBook (x : NaiveEngine σ) : TradingEngine σ :=
  ⟨OrderBook.new ⟨0, 10000, 1, by decide, Int.one_pos, by decide⟩, x.env⟩

/-- What the engine does to its other data members. -/
def bookkeeping (f : TradingEngine σ → TradingEngine σ) (x : NaiveEngine σ) : NaiveEngine σ :=
  { x with env := (f x.withoutBook).env }

/-- A new engine. -/
def new (riskConfig : RiskConfig) (strategy : σ) (clock : ℕ → ℤ) : NaiveEngine σ :=
  ⟨[], { risk := { config := riskConfig }, strategy, clock }⟩

/-- The record of cancels with one more. -/
def logCancel (byOrder : Bool) (orderId : ℕ) (x : NaiveEngine σ) : NaiveEngine σ :=
  x.bookkeeping fun e => e.mapEnv fun env =>
    { env with
      cancels := env.cancels ++ [⟨orderId, byOrder, x.isOpen orderId, env.journal.length⟩] }

/-- The state in which an order that has passed reaches the exchange. -/
def admitted (own : Bool) (order : Order) (x : NaiveEngine σ) : NaiveEngine σ :=
  let x := x.bookkeeping fun e => (e.checked own order).mapEnv fun env =>
    { env with ordersSubmitted := env.ordersSubmitted + 1 }
  let x := if order.type = .limit then
    x.bookkeeping fun e => e.mapEnv fun env => { env with risk := env.risk.trackOrder order } else x
  if order.type = .cancel then logCancel true order.orderId x else x

/-- `submit_order`. -/
def submitOrder (listener : Exchange.Listener (EngineEnv σ)) (own : Bool) (order : Order)
    (x : NaiveEngine σ) : NaiveEngine σ :=
  if x.withoutBook.Passes order then (admitted own order x).addOrder listener order
  else x.bookkeeping (TradingEngine.rejected own order)

/-- `cancel_order`. -/
def cancelOrder (orderId : ℕ) (x : NaiveEngine σ) : NaiveEngine σ :=
  let x := logCancel false orderId x
  let x := x.bookkeeping fun e => e.mapEnv fun env =>
    { env with risk := env.risk.untrackOrder orderId }
  x.remove orderId

/-- Running a program of the strategy. -/
def interp (listener : Exchange.Listener (EngineEnv σ)) :
    StrategyM σ α → NaiveEngine σ → α × NaiveEngine σ
  | .pure a, x => (a, x)
  | .get k, x => interp listener (k x.env.strategy) x
  | .set s k, x => interp listener k (x.bookkeeping (setStrategy s))
  | .submit order k, x => interp listener k (submitOrder listener true order x)
  | .cancel orderId k, x => interp listener k (cancelOrder orderId x)
  | .position instrumentId k, x =>
    interp listener (k (x.withoutBook.position instrumentId)) x

/-- `on_fill`, of a strategy that submits nothing from it. -/
def onFill (S : Strategy σ) : Exchange.Listener (EngineEnv σ) := fun report x =>
  (interp (fun _ x => x) (S.onFill report) (bookkeeping (beforeOnFill report) x)).2

/-- The body of the loop of `run_once`. -/
def processTick (S : Strategy σ) (tick : MarketTick) (x : NaiveEngine σ) : NaiveEngine σ :=
  let r := interp (onFill S) (S.onTick tick) (x.bookkeeping (beforeOnTick tick))
  bookkeeping (afterOnTick x.withoutBook.now) r.2

/-- The loop of `run_once`. -/
def drain (S : Strategy σ) : List MarketTick → NaiveEngine σ → NaiveEngine σ
  | [], x => x
  | tick :: ticks, x => drain S ticks (processTick S tick (x.bookkeeping (setTickQueue ticks)))

/-- One top-level call. -/
def act (S : Strategy σ) (x : NaiveEngine σ) : EngineOp σ → NaiveEngine σ
  | .pushTick tick => x.bookkeeping fun e => (e.pushTick tick).2
  | .runOnce => drain S x.env.tickQueue x
  | .submitOrder order => submitOrder (onFill S) false order x
  | .cancelOrder orderId => cancelOrder orderId x
  | .invoke program => (interp (onFill S) program x).2
  | .enableQueueLatencyTracking on => x.bookkeeping (TradingEngine.enableQueueLatencyTracking on)
  | .resetLatencyStats => x.bookkeeping TradingEngine.resetLatencyStats

/-- A sequence of top-level calls. -/
def run (S : Strategy σ) (ops : List (EngineOp σ)) (x : NaiveEngine σ) : NaiveEngine σ :=
  ops.foldl (act S) x

end NaiveEngine

namespace TradingEngine

open OrderBook

variable {σ α : Type} {S : Strategy σ} {e e' : TradingEngine σ} {x : NaiveEngine σ} {own : Bool}
  {o : Order} {cb : FillCallback (EngineEnv σ)} {fuel n : ℕ} {p : StrategyM σ α}
  {c : OrderBookConfig}

/-! ### Bookkeeping -/

/-- What the engine does outside its book, it does next to any book. -/
structure Outside (f : TradingEngine σ → TradingEngine σ) : Prop where
  book : ∀ e, (f e).book = e.book
  env : ∀ b b' env, (f ⟨b, env⟩).env = (f ⟨b', env⟩).env

theorem outside_mapEnv (g : EngineEnv σ → EngineEnv σ) :
    Outside fun e : TradingEngine σ => e.mapEnv g := ⟨fun _ => rfl, fun _ _ _ => rfl⟩

theorem outside_rejected (own : Bool) (o : Order) : Outside (rejected (σ := σ) own o) :=
  ⟨fun _ => rfl, fun _ _ _ => rfl⟩

theorem outside_beforeOnFill (r : ExecutionReport) : Outside (beforeOnFill (σ := σ) r) :=
  ⟨fun _ => book_beforeOnFill r, fun b b' env => by rw [beforeOnFill_eq, beforeOnFill_eq]; rfl⟩

theorem outside_beforeOnTick (tick : MarketTick) : Outside (beforeOnTick (σ := σ) tick) := by
  refine ⟨fun e => (quiet_beforeOnTick tick e).book, fun b b' env => ?_⟩
  unfold beforeOnTick
  dsimp only
  rw [apply_ite World.env, apply_ite World.env]
  rfl

theorem outside_pushTick (tick : MarketTick) :
    Outside fun e : TradingEngine σ => (e.pushTick tick).2 := by
  refine ⟨fun e => (quiet_pushTick tick e).book, fun b b' env => ?_⟩
  by_cases ht : env.trackQueueLatency <;> by_cases hq : env.tickQueue.length < kQueueCap - 1 <;>
    simp [pushTick, readClock, now, World.mapEnv, ht, hq]

theorem Outside.shows {f : TradingEngine σ → TradingEngine σ} (hf : Outside f) (h : Shows e x) :
    Shows (f e) (x.bookkeeping f) where
  represents := by rw [hf.book]; exact h.represents
  env := by
    obtain ⟨b, env⟩ := e
    obtain rfl : env = x.env := h.env
    exact hf.env _ _ _

/-! ### Cancelling -/

theorem shows_logCancel (h : Shows e x) (hb : Coherent e.book) (hl : Located e.book)
    (byOrder : Bool) (id : ℕ) : Shows (e.logCancel byOrder id) (x.logCancel byOrder id) := by
  obtain ⟨r, b, hc⟩ := hb.cancelOrder_ok id
  have hopen : (e.book.orderMap.lookup id).isSome = x.isOpen id :=
    (removed_eq_of_cancelOrder hc).symm.trans (h.cancelOrder hb hl hc).2
  refine ⟨h.represents, ?_⟩
  rw [logCancel, hopen]
  exact ((outside_mapEnv _).shows h).env

theorem shows_cancelOrder {id : ℕ} (h : Shows e x) (hb : Coherent e.book) (hl : Located e.book)
    (hc : e.cancelOrder id = .ok e') :
    Cancels e.book e'.book ∧ Shows e' (NaiveEngine.cancelOrder id x) := by
  obtain ⟨r, b, hcancel, rfl⟩ := of_cancelOrder_eq_ok hc
  have huntracked := (outside_mapEnv fun env =>
    { env with risk := env.risk.untrackOrder id }).shows (shows_logCancel h hb hl false id)
  exact ⟨.of_cancelOrder hcancel, (huntracked.cancelOrder hb hl hcancel).1⟩

/-- **A program that submits nothing** cancels, and gives the same answer. -/
theorem exists_cancels_interp (listener : Exchange.Listener (EngineEnv σ)) (hp : p.NoSubmit)
    (h : Shows e x) (hb : Coherent e.book) (hl : Located e.book) {r : α × TradingEngine σ}
    (hr : interp cb fuel p e = .ok r) : ∃ y, NaiveEngine.interp listener p x = (r.1, y) ∧
      Cancels e.book r.2.book ∧ Shows r.2 y := by
  induction p generalizing e x with
  | pure a =>
    cases hr
    exact ⟨x, rfl, .refl _, h⟩
  | get k ih =>
    rw [NaiveEngine.interp, ← h.env]
    exact ih _ (hp _) h hb hl hr
  | set s k ih =>
    have hs : Shows (e.setStrategy s) (x.bookkeeping (setStrategy s)) := (outside_mapEnv _).shows h
    exact ih (e := e.setStrategy s) hp hs hb hl hr
  | submit order k ih => exact hp.elim
  | cancel id k ih =>
    obtain ⟨e₁, h₁, hr⟩ := exists_of_bind_eq_ok hr
    obtain ⟨hc, hs⟩ := shows_cancelOrder h hb hl h₁
    obtain ⟨_, b, hcancel, rfl⟩ := of_cancelOrder_eq_ok h₁
    obtain ⟨y, hy, hc', hs'⟩ := ih hp hs (hb.cancelOrder hcancel) (hl.cancelOrder hb hcancel) hr
    exact ⟨y, hy, hc.trans hc', hs'⟩
  | position i k ih =>
    have hpos : x.withoutBook.position i = e.position i := by
      rw [position, position, h.env]
      rfl
    rw [NaiveEngine.interp, hpos]
    exact ih _ (hp _) h hb hl hr

/-- **The callback of the book** does what the listener of the exchange does. -/
theorem follows_fillCallback (hS : ∀ r, (S.onFill r).NoSubmit) (n : ℕ) :
    Follows (fillCallback S n) (NaiveEngine.onFill S) := by
  intro r e x e' hb hl h hr
  cases n with
  | zero => cases hr
  | succ n =>
    obtain ⟨t, ht, hr⟩ := exists_of_bind_eq_ok hr
    cases hr
    have hbook := book_beforeOnFill (e := e) r
    obtain ⟨y, hy, hc, hs⟩ := exists_cancels_interp (fun _ x => x) (hS r)
      ((outside_beforeOnFill r).shows h) (hbook ▸ hb) (hbook ▸ hl) ht
    rw [NaiveEngine.onFill, hy]
    exact ⟨hbook ▸ hc, hs⟩

/-! ### One call -/

/-- Between calls. -/
abbrev InStep (c : OrderBookConfig) (e : TradingEngine σ) (x : NaiveEngine σ) : Prop :=
  Lockstep c (usedIds e.env.journal) e x

theorem InStep.outside {f : TradingEngine σ → TradingEngine σ} (h : InStep c e x)
    (hf : Outside f) (hj : (f e).env.journal = e.env.journal) :
    InStep c (f e) (x.bookkeeping f) where
  reaches := by rw [hj, hf.book]; exact h.reaches
  shows := hf.shows h.shows

theorem InStep.cancelOrder {id : ℕ} (h : InStep c e x) (hc : e.cancelOrder id = .ok e') :
    InStep c e' (NaiveEngine.cancelOrder id x) := by
  have hs := (shows_cancelOrder h.shows h.reaches.sound.coherent h.reaches.located hc).2
  obtain ⟨r, b, hcancel, rfl⟩ := of_cancelOrder_eq_ok hc
  exact ⟨h.reaches.cancelOrder hcancel, hs⟩

theorem shows_admitted (h : Shows e x) (hb : Coherent e.book) (hl : Located e.book) :
    Shows (e.admitted own o) (x.admitted own o) := by
  have hchecked : Outside fun e : TradingEngine σ => (e.checked own o).mapEnv fun env =>
      { env with ordersSubmitted := env.ordersSubmitted + 1 } :=
    ⟨fun _ => rfl, fun _ _ _ => rfl⟩
  have h₁ := hchecked.shows h
  rw [admitted, NaiveEngine.admitted]
  by_cases hlimit : o.type = .limit
  · rw [if_pos hlimit, if_pos hlimit, if_neg (by rw [hlimit]; decide),
      if_neg (by rw [hlimit]; decide)]
    exact (outside_mapEnv _).shows h₁
  · rw [if_neg hlimit, if_neg hlimit]
    split
    · exact shows_logCancel h₁ hb hl true o.orderId
    · exact h₁

/-- **`submit_order`.** -/
theorem InStep.submitOrder (h : InStep c e x) (hS : ∀ r, (S.onFill r).NoSubmit) (hp : c.Priced)
    (hok : FreshOnGrid c o e)
    (hs : e.submitOrder (fillCallback S fuel) fuel own o = .ok e') :
    InStep c e' (NaiveEngine.submitOrder (NaiveEngine.onFill S) own o x) := by
  have hpass : x.withoutBook.Passes o ↔ e.Passes o := by
    rw [Passes, Passes, now, now, h.shows.env]
    rfl
  have hids := (ids_submitOrder hS hs).1
  have hb := h.reaches.sound.coherent
  rw [NaiveEngine.submitOrder]
  by_cases hpasses : e.Passes o
  · rw [if_pos (hpass.mpr hpasses)]
    rw [submitOrder_of_passes hpasses] at hs
    have hadm : Lockstep c (usedIds e.env.journal) (e.admitted own o) (x.admitted own o) :=
      ⟨by rw [book_admitted]; exact h.reaches, shows_admitted h.shows hb h.reaches.located⟩
    have h' := hadm.addOrder hp (follows_fillCallback hS fuel)
      (fun hl => ⟨hok.1 hl, hok.2 (by rw [hl]; decide)⟩) hs
    refine ⟨h'.reaches.mono ?_, h'.shows⟩
    rw [hids]
    by_cases htype : o.type = .cancel
    · rw [BookOp.usedIds, if_neg (by rw [htype]; decide)]
      exact usedIds_subset_append _ _
    · exact usedIds_add_subset _ _ htype
  · rw [if_neg fun hx => hpasses (hpass.mp hx)]
    rw [submitOrder_of_not_passes hpasses] at hs
    cases hs
    exact ⟨h.reaches.mono (usedIds_subset_append _ _), (outside_rejected own o).shows h.shows⟩

/-- **A program of the strategy.** -/
theorem InStep.interp {ok : Order → TradingEngine σ → Prop} (h : InStep c e x)
    (hS : ∀ r, (S.onFill r).NoSubmit) (hp : c.Priced) (hok : ∀ o e, ok o e → FreshOnGrid c o e)
    (halong : Along S ok p e) {r : α × TradingEngine σ}
    (hr : TradingEngine.interp (fillCallback S fuel) fuel p e = .ok r) :
    ∃ y, NaiveEngine.interp (NaiveEngine.onFill S) p x = (r.1, y) ∧ InStep c r.2 y := by
  induction p generalizing e x with
  | pure a =>
    cases hr
    exact ⟨x, rfl, h⟩
  | get k ih =>
    rw [NaiveEngine.interp, ← h.shows.env]
    exact ih _ h halong hr
  | set s k ih =>
    have hs : InStep c (e.setStrategy s) (x.bookkeeping (setStrategy s)) :=
      h.outside (outside_mapEnv _) rfl
    exact ih hs halong hr
  | submit order k ih =>
    obtain ⟨e₁, h₁, hr⟩ := exists_of_bind_eq_ok hr
    exact ih (h.submitOrder hS hp (hok _ _ halong.1) h₁) (halong.2 _ _ h₁) hr
  | cancel id k ih =>
    obtain ⟨e₁, h₁, hr⟩ := exists_of_bind_eq_ok hr
    exact ih (h.cancelOrder h₁) (halong e₁ h₁) hr
  | position i k ih =>
    have hpos : x.withoutBook.position i = e.position i := by
      rw [position, position, h.shows.env]
      rfl
    rw [NaiveEngine.interp, hpos]
    exact ih _ h halong hr

/-- **A tick.** -/
theorem InStep.processTick {ok : Order → TradingEngine σ → Prop} {tick : MarketTick}
    (h : InStep c e x) (hS : ∀ r, (S.onFill r).NoSubmit) (hp : c.Priced)
    (hok : ∀ o e, ok o e → FreshOnGrid c o e)
    (halong : Along S ok (S.onTick tick) (e.beforeOnTick tick))
    (hr : e.processTick S fuel tick = .ok e') :
    InStep c e' (NaiveEngine.processTick S tick x) := by
  obtain ⟨r, hinterp, rfl⟩ := processTick_eq_ok hr
  have hnow : x.withoutBook.now = e.now := by
    rw [now, now, h.shows.env]
    rfl
  obtain ⟨y, hy, h'⟩ := (h.outside (outside_beforeOnTick tick)
    (quiet_beforeOnTick tick e).journal).interp hS hp hok halong hinterp
  rw [NaiveEngine.processTick, hy, hnow]
  exact h'.outside ⟨fun _ => rfl, fun _ _ _ => rfl⟩ rfl

/-- **`run_once`.** -/
theorem InStep.runOnce {ok : Order → TradingEngine σ → Prop} (h : InStep c e x)
    (hS : ∀ r, (S.onFill r).NoSubmit) (hp : c.Priced) (hok : ∀ o e, ok o e → FreshOnGrid c o e)
    (halong : AlongTicks S ok e.env.tickQueue e) {r : ℕ × TradingEngine σ}
    (hr : e.runOnce S fuel = .ok r) :
    InStep c r.2 (NaiveEngine.drain S x.env.tickQueue x) := by
  rw [← h.shows.env]
  have hloop := @whileLoop_induction _ _ (TickGuard (σ := σ)) _ (popTick S)
    (fun t => ∃ y, InStep c t.2 y ∧ NaiveEngine.drain S t.2.env.tickQueue y =
      NaiveEngine.drain S e.env.tickQueue x ∧ AlongTicks S ok t.2.env.tickQueue t.2) fuel
    ?_ (0, e) r ⟨x, h, rfl, halong⟩ hr
  · obtain ⟨⟨y, h', hy, -⟩, hstop⟩ := hloop
    rw [← hy, not_not.mp hstop]
    exact h'
  rintro ⟨k, e⟩ t ⟨y, hy, hdrain, halong⟩ hg ht
  obtain ⟨tick, ticks, (hq : e.env.tickQueue = _)⟩ := List.exists_cons_of_ne_nil hg
  have halong : AlongTicks S ok (tick :: ticks) e := hq ▸ halong
  rw [popTick] at ht
  simp only [hq] at ht
  obtain ⟨e₁, h₁, ht⟩ := exists_of_bind_eq_ok ht
  cases ht
  have hqueue := tickQueue_processTick h₁
  have hset : InStep c (e.setTickQueue ticks) (y.bookkeeping (setTickQueue ticks)) :=
    hy.outside (outside_mapEnv _) rfl
  refine ⟨_, hset.processTick hS hp hok halong.1 h₁, ?_, ?_⟩
  · rw [← hdrain, hqueue]
    dsimp only
    rw [hq]
    rfl
  · rw [hqueue]
    exact halong.2 _ _ h₁

/-! ### Runs -/

/-- What can be observed of the engine and its book: all its other data members, the queues, the
best prices, the spread and the depths. The totals behind the depths are unbounded here; the
`int32_t` of a level has the value of its total modulo `2 ^ 32`. -/
structure Displays (c : OrderBookConfig) (e : TradingEngine σ) (x : NaiveEngine σ) : Prop where
  env : e.env = x.env
  queue : ∀ s i, (e.book.levels s i).orders.map Node.order =
    x.live.filter fun o => o.side = s ∧ o.price = c.priceAt i
  bestBid : e.book.bestBid = x.reference.bestBid.getD (-1)
  bestAsk : e.book.bestAsk = x.reference.bestAsk.getD (-1)
  spread : e.book.spread = x.reference.spread
  quantityAt : ∀ p, c.OnGrid p → ∀ side, e.book.quantityAt p side = x.reference.quantityAt p side

theorem InStep.displays (h : InStep c e x) (hp : c.Priced) : Displays c e x := by
  have hrep : Represents e.book x.reference.live := h.shows.represents
  have ht := h.reaches.tidy hp
  have hconf := h.reaches.config_eq
  refine ⟨h.shows.env, fun s i => hconf ▸ hrep.queue s i, hrep.bestBid ht, hrep.bestAsk ht,
    hrep.spread ht (hconf ▸ hp), fun p hgrid side => ?_⟩
  exact hrep.quantityAt h.reaches.sound.coherent (hconf ▸ hgrid) side

/-- **One top-level call.** -/
theorem InStep.act {C : Conditions σ} {op : EngineOp σ} (h : InStep c e x)
    (hS : ∀ r, (S.onFill r).NoSubmit) (hp : c.Priced)
    (hC : ∀ own o e, C.submit own o e → FreshOnGrid c o e) (hok : EngineOp.Ok S C op e)
    (hr : op.run S fuel e = .ok e') : InStep c e' (NaiveEngine.act S x op) := by
  cases op with
  | pushTick tick =>
    cases hr
    exact h.outside (outside_pushTick tick) (quiet_pushTick tick e).journal
  | runOnce =>
    obtain ⟨r, hloop, hr⟩ := exists_of_bind_eq_ok hr
    cases hr
    exact h.runOnce hS hp (hC true) hok hloop
  | submitOrder o => exact h.submitOrder hS hp (hC false o e hok) hr
  | cancelOrder id => exact h.cancelOrder hr
  | invoke program =>
    obtain ⟨r, hinterp, hr⟩ := exists_of_bind_eq_ok hr
    cases hr
    obtain ⟨y, hy, h'⟩ := h.interp hS hp (hC true) hok.2 hinterp
    rw [NaiveEngine.act, hy]
    exact h'
  | enableQueueLatencyTracking on =>
    cases hr
    exact h.outside (outside_mapEnv _) rfl
  | resetLatencyStats =>
    cases hr
    exact h.outside (outside_mapEnv _) rfl

theorem inStep_new (c : OrderBookConfig) (riskConfig : RiskConfig) (st : σ) (clock : ℕ → ℤ) :
    InStep c (new c riskConfig st clock) (NaiveEngine.new riskConfig st clock) :=
  ⟨reaches_new c, represents_new c, rfl⟩

theorem inStep_run {C : Conditions σ} {ops : List (EngineOp σ)} (h : InStep c e x)
    (hS : ∀ r, (S.onFill r).NoSubmit) (hp : c.Priced)
    (hC : ∀ own o e, C.submit own o e → FreshOnGrid c o e) (hops : Meets S C ops e)
    (hr : run S ops fuel e = .ok e') : InStep c e' (NaiveEngine.run S ops x) :=
  @runList_simulation _ _ _ _ (EngineOp.run S) (NaiveEngine.act S) (EngineOp.Ok S C)
    (fun x e => InStep c e x) fuel (fun _ _ _ _ h hok hr => h.act hS hp hC hok hr) _ _ _ _ h hops hr

/-- **The engine is an exchange with a gate in front of it.** Whatever the strategy does with its
ticks, and whatever it cancels on hearing of a fill in the middle of a match: if it submits nothing
there and the run returns, then the gate, the positions, the state of the strategy, the statistics,
the reports and the answers in their order, the queues, best prices and depths, with totals taken as
unbounded integers, are those of the engine on a list of open orders. -/
theorem displays_run (S : Strategy σ) (hS : ∀ r, (S.onFill r).NoSubmit) (c : OrderBookConfig)
    (hmin : 0 ≤ c.minPrice) (hlevels : c.numLevels ≤ 2 ^ 31) (riskConfig : RiskConfig) (st : σ)
    (clock : ℕ → ℤ) (ops : List (EngineOp σ))
    (hops : Meets S (Conditions.freshOnGrid c) ops (new c riskConfig st clock)) (fuel : ℕ)
    (e : TradingEngine σ) (he : run S ops fuel (new c riskConfig st clock) = .ok e) :
    Displays c e (NaiveEngine.run S ops (NaiveEngine.new riskConfig st clock)) := by
  have hp : c.Priced := ⟨hmin, by omega⟩
  exact (inStep_run (C := Conditions.freshOnGrid c) (inStep_new c riskConfig st clock) hS hp
    (fun _ _ _ h => h) hops he).displays hp

/-- A strategy that takes order `2` out of the book when it hears of a fill. -/
def pulling : Strategy Unit where
  onTick _ := return
  onFill _ := .cancelOrder 2

/-- The second ask is pulled while the first one is filled, and the third one is filled next. -/
def sweepAsks : List (EngineOp Unit) :=
  [.submitOrder ⟨1, 1, 5, 10, .sell, .limit⟩, .submitOrder ⟨2, 1, 5, 10, .sell, .limit⟩,
    .submitOrder ⟨3, 1, 6, 10, .sell, .limit⟩, .submitOrder ⟨4, 1, 6, 15, .buy, .limit⟩]

theorem meets_sweepAsks : Meets pulling
    (Conditions.freshOnGrid ⟨1, 10, 1, by decide, Int.one_pos, by decide⟩) sweepAsks
    (new ⟨1, 10, 1, by decide, Int.one_pos, by decide⟩ { checkSelfTrade := false } ()
      fun _ => 0) := by
  have hS : ∀ r, (pulling.onFill r).NoSubmit := fun _ => trivial
  refine ⟨⟨fun _ => ⟨4, by decide, by decide⟩, fun _ => List.not_mem_nil⟩, fun _ e₁ h₁ => ?_⟩
  replace h₁ : usedIds e₁.env.journal = [1] := (ids_submitOrder hS h₁).1
  refine ⟨⟨fun _ => ⟨4, by decide, by decide⟩, fun _ => by rw [h₁]; decide⟩, fun _ e₂ h₂ => ?_⟩
  replace h₂ : usedIds e₂.env.journal = [1, 2] := by
    rw [(ids_submitOrder hS h₂).1, usedIds_append, h₁]
    rfl
  refine ⟨⟨fun _ => ⟨5, by decide, by decide⟩, fun _ => by rw [h₂]; decide⟩, fun _ e₃ h₃ => ?_⟩
  replace h₃ : usedIds e₃.env.journal = [1, 2, 3] := by
    rw [(ids_submitOrder hS h₃).1, usedIds_append, h₂]
    rfl
  exact ⟨⟨fun _ => ⟨5, by decide, by decide⟩, fun _ => by rw [h₃]; decide⟩, fun _ _ _ => trivial⟩

theorem displays_run_sweepAsks : ∃ e, run pulling sweepAsks 6
      (new ⟨1, 10, 1, by decide, Int.one_pos, by decide⟩ { checkSelfTrade := false } ()
        fun _ => 0) = .ok e ∧
    Displays ⟨1, 10, 1, by decide, Int.one_pos, by decide⟩ e (NaiveEngine.run pulling sweepAsks
      (NaiveEngine.new { checkSelfTrade := false } () fun _ => 0)) := by
  obtain ⟨e, he, -⟩ : ∃ e, run pulling sweepAsks 6
      (new ⟨1, 10, 1, by decide, Int.one_pos, by decide⟩ { checkSelfTrade := false } ()
        fun _ => 0) = .ok e ∧ e.env.ordersRejected = 0 := by decide +kernel
  exact ⟨e, he, displays_run pulling (fun _ => trivial) _ (by decide) (by decide) _ _ _ _
    meets_sweepAsks 6 e he⟩

end TradingEngine

namespace SpreadStrategy

open TradingEngine OrderBook

variable {F : Type} [DoubleOps F]

/-- **With the spread strategy attached the engine is the exchange**: every run of ticks,
submissions, cancels and calls of `cancel_resting_quotes` returns, and gives what the engine on a
list of open orders gives, with the depths as unbounded integers. -/
theorem displays_run_of_quoting (cfg : SpreadStrategyConfig F) (c : OrderBookConfig)
    (hmin : 0 ≤ c.minPrice) (hlevels : c.numLevels ≤ 2 ^ 31) (riskConfig : RiskConfig)
    (clock : ℕ → ℤ) (ops : List (EngineOp (SpreadState F)))
    (hops : Meets (strategy cfg) (Conditions.quoting c) ops (new c riskConfig initial clock)) :
    ∃ e, Converges (fun fuel => run (strategy cfg) ops fuel (new c riskConfig initial clock))
        (.ok e) ∧
      Displays c e
        (NaiveEngine.run (strategy cfg) ops (NaiveEngine.new riskConfig initial clock)) := by
  have hp : c.Priced := ⟨hmin, by omega⟩
  obtain ⟨e, he, -⟩ := exists_run_quoted hops
  obtain ⟨N, hN⟩ := he.2
  exact ⟨e, he, (inStep_run (C := Conditions.quoting c) (inStep_new c riskConfig initial clock)
    (noSubmit_onFill cfg) hp (fun _ _ _ h => h.1) hops (hN N le_rfl)).displays hp⟩

/-- Somebody sells to the bid, and the ask is pulled before the fill is settled. -/
theorem displays_run_of_quoting_hitBid : ∃ e, Converges
      (fun fuel => run (strategy .defaults) [.pushTick quoteTick, .runOnce,
        .submitOrder ⟨7, 1, 8, 4, .sell, .limit⟩] fuel spreadEngine) (.ok e) ∧
      Displays ⟨1, 20, 1, by decide, Int.one_pos, by decide⟩ e (NaiveEngine.run
        (strategy .defaults) [.pushTick quoteTick, .runOnce,
          .submitOrder ⟨7, 1, 8, 4, .sell, .limit⟩]
        (NaiveEngine.new { checkSelfTrade := false } initial fun _ => 0)) := by
  refine displays_run_of_quoting .defaults _ (by decide) (by decide) _ _ _
    ⟨trivial, fun fuel e he => ⟨(meets_quoteTick.2 fuel e he).1, fun fuel' e' he' =>
      ⟨⟨⟨fun _ => ⟨7, by decide, by decide⟩, fun _ => ?_⟩, fun _ => by decide⟩,
        fun _ _ _ => trivial⟩⟩⟩
  exact of_exists_run_quoteTick (P := fun e => 7 ∉ usedIds e.env.journal) (by decide +kernel) he he'

end SpreadStrategy

end MiniTrader
