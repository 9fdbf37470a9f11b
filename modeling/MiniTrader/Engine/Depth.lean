import MiniTrader.Engine.CancelRatio
import MiniTrader.OrderBook.LevelDepth

/-!
# Depth beyond 32 bits

The totals of the levels are `int32_t`. The position check bounds what one order can do to the
position, and it does not know what rests: two bids of the largest quantity at one price both pass,
and the level is asked to count to `2 ^ 32 - 2`. No limit of the gate and none of the book prevents
it, since orders that rest have no part in the position, in the table only their prices matter, and
what is counted per second is orders.

What keeps the totals exact is that every order that is to rest fits beside what rests at its price.

## Main definitions

* `Listens` — a program that calls neither `submit_order` nor `cancel_order`
* `DepthExact` — no total has left the range, and the depths are what rests
* `Fits` — the condition

## Main results

* `fillCallback_of_listens` — a strategy that listens is a callback that observes
* `depthExact_iff_fits` — when the depths of a run are exact
-/

namespace MiniTrader

open Fuelled OrderBook

variable {σ α : Type}

/-! ### Strategies that listen -/

namespace StrategyM

/-- The program submits nothing and cancels nothing, whatever it reads. -/
def Listens : StrategyM σ α → Prop
  | .pure _ => True
  | .get k => ∀ s, (k s).Listens
  | .set _ k => k.Listens
  | .submit _ _ => False
  | .cancel _ _ => False
  | .position _ k => ∀ p, (k p).Listens

/-- Running a program that only looks at what is not the book. -/
def listen : StrategyM σ α → EngineEnv σ → α × EngineEnv σ
  | .pure a, env => (a, env)
  | .get k, env => (k env.strategy).listen env
  | .set s k, env => k.listen { env with strategy := s }
  | .submit _ k, env => k.listen env
  | .cancel _ k, env => k.listen env
  | .position instrumentId k, env => (k (env.risk.currentPosition instrumentId)).listen env

end StrategyM

namespace TradingEngine

variable {S : Strategy σ} {e : TradingEngine σ} {own : Bool} {o : Order} {c : OrderBookConfig}
  {used : List ℕ} {cb : FillCallback (EngineEnv σ)} {fuel : ℕ}

theorem interp_of_listens {p : StrategyM σ α} (hp : p.Listens) :
    interp cb fuel p e = .ok ((p.listen e.env).1, ⟨e.book, (p.listen e.env).2⟩) := by
  induction p generalizing e with
  | pure a => rfl
  | get k ih => exact ih _ (hp _)
  | set s k ih => exact ih hp
  | submit order k ih => exact hp.elim
  | cancel id k ih => exact hp.elim
  | position i k ih => exact ih _ (hp _)

/-- What is not the book after a report. -/
def heard (S : Strategy σ) (r : ExecutionReport) (env : EngineEnv σ) : EngineEnv σ :=
  ((S.onFill r).listen
    { env with
      risk :=
        if r.isMaker then (env.risk.onFill r).untrackOrder r.orderId else env.risk.onFill r
      fillsReceived := env.fillsReceived + 1
      journal := env.journal ++ [.filled r] }).2

/-- **A strategy that listens** leaves the book alone. -/
theorem fillCallback_of_listens (hS : ∀ r, (S.onFill r).Listens) (n : ℕ) :
    fillCallback S (n + 1) = observe (heard S) := by
  funext r e
  rw [fillCallback, onFill, interp_of_listens (hS r), beforeOnFill_eq]
  rfl

/-! ### The totals a call writes -/

/-- `submit_order`, with the totals it writes. -/
def submitOrderLogged (cb : FillCallback (EngineEnv σ)) (fuel : ℕ) (own : Bool) (order : Order)
    (e : TradingEngine σ) : Outcome (List ℤ × TradingEngine σ) :=
  if e.Passes order then addOrderLogged cb fuel order (e.admitted own order)
  else .ok ([], e.rejected own order)

/-- `cancel_order`, with the total it writes. -/
def cancelOrderLogged (orderId : ℕ) (e : TradingEngine σ) :
    Outcome (List ℤ × TradingEngine σ) := do
  let r ← e.book.cancelOrderLogged orderId
  .ok (r.1, (e.untracked orderId).withBook r.2.2)

theorem map_submitOrderLogged (cb : FillCallback (EngineEnv σ)) (fuel : ℕ) (own : Bool) (o : Order)
    (e : TradingEngine σ) :
    (e.submitOrderLogged cb fuel own o).map Prod.snd = e.submitOrder cb fuel own o := by
  rw [submitOrderLogged]
  split
  · rename_i hp
    rw [submitOrder_of_passes hp, map_addOrderLogged]
  · rename_i hp
    rw [submitOrder_of_not_passes hp]
    rfl

theorem map_cancelOrderLogged (orderId : ℕ) (e : TradingEngine σ) :
    (e.cancelOrderLogged orderId).map Prod.snd = e.cancelOrder orderId := by
  rw [cancelOrderLogged, cancelOrder_eq, ← OrderBook.map_cancelOrderLogged]
  cases e.book.cancelOrderLogged orderId <;> rfl

theorem submitOrderLogged_of_listens (hS : ∀ r, (S.onFill r).Listens) (hp : e.Passes o)
    (fuel : ℕ) : e.submitOrderLogged (fillCallback S fuel) fuel own o =
      addOrderLogged (observe (heard S)) fuel o (e.admitted own o) := by
  rw [submitOrderLogged, if_pos hp]
  cases fuel with
  | zero => rfl
  | succ n => rw [fillCallback_of_listens hS n]

/-! ### Runs of the two calls -/

/-- A call of the book, made through the engine. -/
def EngineOp.through : BookOp → EngineOp σ
  | .add order => .submitOrder order
  | .cancel orderId => .cancelOrder orderId

/-- One call; the first component collects the totals. -/
def runLogged (S : Strategy σ) (op : BookOp) (fuel : ℕ) (s : List ℤ × TradingEngine σ) :
    Outcome (List ℤ × TradingEngine σ) :=
  match op with
  | .add order => do
    let r ← s.2.submitOrderLogged (fillCallback S fuel) fuel false order
    .ok (s.1 ++ r.1, r.2)
  | .cancel orderId => do
    let r ← s.2.cancelOrderLogged orderId
    .ok (s.1 ++ r.1, r.2)

theorem map_runLogged (S : Strategy σ) (op : BookOp) (fuel : ℕ) (s : List ℤ × TradingEngine σ) :
    (runLogged S op fuel s).map Prod.snd = (EngineOp.through op).run S fuel s.2 := by
  cases op with
  | add o =>
    rw [runLogged, EngineOp.through, EngineOp.run, ← map_submitOrderLogged]
    cases s.2.submitOrderLogged (fillCallback S fuel) fuel false o <;> rfl
  | cancel id =>
    rw [runLogged, EngineOp.through, EngineOp.run, ← map_cancelOrderLogged]
    cases s.2.cancelOrderLogged id <;> rfl

/-- **Exact depth**: every total that has been written is an `int32_t`, and what `quantity_at` shows
in 32 bits is what rests. -/
structure DepthExact (c : OrderBookConfig) (s : List ℤ × TradingEngine σ) : Prop where
  written : ∀ x ∈ s.1, IsInt32 x
  exact : ∀ p, c.OnGrid p → ∀ side,
    wrap32 (s.2.book.quantityAt p side) = s.2.book.restingAt p side
  nonneg : ∀ p, c.OnGrid p → ∀ side, 0 ≤ wrap32 (s.2.book.quantityAt p side)

/-- **The condition** on a call: a limit order that passes the gate fits beside what rests at its
price. -/
def Fits : BookOp → List ℤ × TradingEngine σ → Prop
  | .add o, s => s.2.Passes o → o.type = .limit → FitsWithin 2147483647 s.2.book o
  | .cancel _, _ => True

/-- In a reachable book the depths are exact while the totals are within the range. -/
theorem depthExact_iff {s : List ℤ × TradingEngine σ} (h : Reaches c used s.2.book) :
    DepthExact c s ↔ (∀ x ∈ s.1, IsInt32 x) ∧ Bounded 2147483647 s.2.book := by
  obtain ⟨hb, ha⟩ := And.intro h.sound.coherent h.aligned
  rw [← h.config_eq]
  constructor
  · rintro ⟨hwritten, hexact, -⟩
    refine ⟨hwritten, fun side i => ?_⟩
    by_cases hi : i < s.2.book.config.numLevels
    · have hgrid := OrderBookConfig.onGrid_iff.mpr ⟨i, hi, rfl⟩
      have hshown := hexact _ hgrid side
      rw [restingAt_eq_quantityAt hb ha hgrid] at hshown
      rw [quantityAt_eq hgrid, OrderBookConfig.priceToIndex_priceAt _ hi] at hshown
      have hint := isInt32_wrap32 (s.2.book.levels side i).totalQuantity
      rw [hshown] at hint
      have hlt := hint.2
      omega
    · have hnil : (s.2.book.levels side i).orders = [] :=
        List.eq_nil_iff_forall_not_mem.mpr fun n hn => hi (hb.inRange hn)
      rw [hb.total, hnil]
      decide
  · rintro ⟨hwritten, hbounded⟩
    have hshown : ∀ p, s.2.book.config.OnGrid p → ∀ side,
        wrap32 (s.2.book.quantityAt p side) = s.2.book.quantityAt p side ∧
          0 ≤ s.2.book.quantityAt p side := by
      intro p hgrid side
      rw [quantityAt_eq hgrid]
      have hnonneg := hb.total_nonneg side (s.2.book.config.priceToIndex p)
      have hle := hbounded side (s.2.book.config.priceToIndex p)
      exact ⟨wrap32_of_lt (by omega) (by omega), hnonneg⟩
    refine ⟨hwritten, fun p hgrid side => ?_, fun p hgrid side => ?_⟩
    · rw [(hshown p hgrid side).1, restingAt_eq_quantityAt hb ha hgrid]
    · rw [(hshown p hgrid side).1]
      exact (hshown p hgrid side).2

/-- The state of a run of the two calls, after the limit orders with the ids `used`. -/
def Traded (c : OrderBookConfig) (used : List ℕ) (s : List ℤ × TradingEngine σ) : Prop :=
  Reaches c used s.2.book ∧ GridCached s.2.book

theorem Traded.mono {s : List ℤ × TradingEngine σ} (h : Traded c used s) (op : BookOp) :
    Traded c (op.usedIds used) s := by
  refine ⟨h.1.mono ?_, h.2⟩
  cases op with
  | cancel id => exact List.Subset.refl _
  | add o =>
    rw [BookOp.usedIds]
    split
    · exact List.subset_cons_self _ _
    · exact List.Subset.refl _

/-- Totals within the range are written as they are. -/
theorem isInt32_append {totals written : List ℤ} (h : ∀ x ∈ written, IsInt32 x)
    (h' : ∀ x ∈ totals, 0 ≤ x ∧ x ≤ 2147483647) : ∀ x ∈ written ++ totals, IsInt32 x := by
  intro x hx
  rcases List.mem_append.mp hx with hx | hx
  · exact h x hx
  · have hrange := h' x hx
    exact ⟨by omega, by omega⟩

/-- **A cancel**, by either way: no total goes up. What else it changes does not matter. -/
theorem Traded.cancelled {s : List ℤ × TradingEngine σ} (h : Traded c used s) (id : ℕ) :
    ∃ totals r b, s.2.book.cancelOrderLogged id = .ok (totals, r, b) ∧
      ∀ e : TradingEngine σ, e.book = b → Traded c used (s.1 ++ totals, e) ∧
        (DepthExact c s → DepthExact c (s.1 ++ totals, e)) := by
  obtain ⟨hr, hg⟩ := h
  obtain ⟨totals, r, b, hlogged, hc, htotals⟩ := hr.sound.coherent.exists_cancelOrderLogged id
  have hr' := hr.cancelOrder hc
  refine ⟨totals, r, b, hlogged, fun e he => ?_⟩
  subst he
  refine ⟨⟨hr', hg.cancelOrder hr.sound.coherent hc⟩, ?_⟩
  rw [depthExact_iff hr, depthExact_iff (s := (s.1 ++ totals, e)) hr']
  rintro ⟨hwritten, hbounded⟩
  exact ⟨isInt32_append hwritten (htotals _ hbounded),
    hbounded.cancelOrder hr.sound.coherent hc⟩

/-- **An order that passes** keeps the depths exact if and only if it fits. -/
theorem Traded.submitted (hS : ∀ r, (S.onFill r).Listens) {s : List ℤ × TradingEngine σ}
    (h : Traded c used s) (hok : (BookOp.add o).Ok c used) (htype : o.type ≠ .cancel)
    (hp : s.2.Passes o) :
    ∃ s', Converges (fun fuel => runLogged S (.add o) fuel s) (.ok s') ∧
      Traded c (BookOp.usedIds used (.add o)) s' ∧
      (DepthExact c s →
        (DepthExact c s' ↔ (o.type = .limit → FitsWithin 2147483647 s.2.book o))) := by
  obtain ⟨hr, hg⟩ := h
  obtain ⟨totals, e, hadd, hr', hg', hfit⟩ :=
    @bounded_iff_fitsWithin _ o c used (heard S) (s.2.admitted false o) (by rwa [book_admitted])
      (by rwa [book_admitted]) hok htype 2147483647
  rw [book_admitted] at hfit
  refine ⟨(s.1 ++ totals, e), ?_, ⟨hr', hg'⟩, fun hexact => ?_⟩
  · simp only [runLogged, submitOrderLogged_of_listens hS hp]
    exact hadd.bind (converges_const _)
  · obtain ⟨hwritten, hbounded⟩ := (depthExact_iff hr).mp hexact
    obtain ⟨hiff, htotals⟩ := hfit hbounded
    rw [depthExact_iff (s := (s.1 ++ totals, e)) hr', ← hiff]
    exact ⟨And.right, fun hafter => ⟨isInt32_append hwritten (htotals hafter), hafter⟩⟩

/-- **One call** keeps the depths exact if and only if it fits. -/
theorem Traded.step (hS : ∀ r, (S.onFill r).Listens) {op : BookOp} {s : List ℤ × TradingEngine σ}
    (h : Traded c used s) (hok : op.Ok c used) :
    ∃ s', Converges (fun fuel => runLogged S op fuel s) (.ok s') ∧
      Traded c (op.usedIds used) s' ∧ (DepthExact c s → (DepthExact c s' ↔ Fits op s)) := by
  cases op with
  | cancel id =>
    obtain ⟨totals, r, b, hlogged, hafter⟩ := h.cancelled id
    obtain ⟨htraded, hexact⟩ := hafter ((s.2.untracked id).withBook b) rfl
    refine ⟨_, ?_, htraded, fun hs => iff_of_true (hexact hs) trivial⟩
    simp only [runLogged, cancelOrderLogged, hlogged, ok_bind]
    exact converges_const _
  | add o =>
    by_cases hp : s.2.Passes o
    · by_cases htype : o.type = .cancel
      · obtain ⟨totals, r, b, hlogged, hafter⟩ := h.cancelled o.orderId
        obtain ⟨htraded, hexact⟩ := hafter ((s.2.admitted false o).withBook b) rfl
        refine ⟨_, ?_, htraded.mono _, fun hs => iff_of_true (hexact hs) fun _ hl => ?_⟩
        · simp only [runLogged, submitOrderLogged, if_pos hp, addOrderLogged, if_pos htype,
            book_admitted, hlogged, ok_bind]
          exact converges_const _
        · rw [htype] at hl
          cases hl
      · obtain ⟨s', hs', htraded, hiff⟩ := h.submitted hS hok htype hp
        refine ⟨s', hs', htraded, fun hs => (hiff hs).trans ?_⟩
        exact ⟨fun hfit _ => hfit, fun hfit => hfit hp⟩
    · have hs' : ∀ fuel, runLogged S (.add o) fuel s = .ok (s.1, s.2.rejected false o) := by
        intro fuel
        rw [runLogged, submitOrderLogged, if_neg hp, ok_bind, List.append_nil]
      simp only [hs']
      refine ⟨_, converges_const _, h.mono (.add o), fun hs => iff_of_true ?_ fun hp' => ?_⟩
      · exact ⟨hs.written, hs.exact, hs.nonneg⟩
      · exact absurd hp' hp

/-- **The depths of a run are exact** as long as every limit order that passes the gate fits beside
what rests at its price, and no longer. -/
theorem depthExact_iff_fits (S : Strategy σ) (hS : ∀ r, (S.onFill r).Listens)
    (c : OrderBookConfig) (riskConfig : RiskConfig) (st : σ) (clock : ℕ → ℤ) (ops : List BookOp)
    (hops : WellFormed c ops) :
    (∀ pre, pre <+: ops → ∃ s,
      Converges (fun fuel => runList (runLogged S) fuel pre ([], new c riskConfig st clock))
        (.ok s) ∧
      Converges (fun fuel => run S (pre.map EngineOp.through) fuel (new c riskConfig st clock))
        (.ok s.2)) ∧
    ((∀ pre, pre <+: ops → ∀ s,
        Converges (fun fuel => runList (runLogged S) fuel pre ([], new c riskConfig st clock))
          (.ok s) → DepthExact c s) ↔
      AllowedFrom Fits (runLogged S) ops ([], new c riskConfig st clock)) := by
  have hstep : ∀ used op (s : List ℤ × TradingEngine σ), Traded c used s → op.Ok c used →
      ∃ s', Converges (fun fuel => runLogged S op fuel s) (.ok s') ∧
        Traded c (op.usedIds used) s' ∧ (DepthExact c s → (DepthExact c s' ↔ Fits op s)) :=
    fun _ _ _ h hok => h.step hS hok
  have hnew : Traded c [] ([], new c riskConfig st clock) := ⟨reaches_new c, gridCached_new c⟩
  have hexact : DepthExact c ([], new c riskConfig st clock) :=
    (depthExact_iff hnew.1).mpr ⟨fun x hx => (nomatch hx), bounded_new c (by decide)⟩
  refine ⟨fun pre hpre => ?_, forall_prefix_iff_allowedFrom hstep hnew hexact hops⟩
  obtain ⟨s, hs⟩ := converges_prefixes hstep hnew hops pre hpre
  exact ⟨s, hs, hs.of_map Prod.snd fun fuel =>
    map_runList Prod.snd EngineOp.through (map_runLogged S) fuel pre _⟩

/-- A gate that passes orders of any size. -/
def openGate : RiskConfig := { maxPosition := 2147483647, checkSelfTrade := false }

/-- Eleven price levels. -/
def depthConfig : OrderBookConfig := ⟨1, 11, 1, by decide, Int.one_pos, by decide⟩

/-- A bid that is filled in part and then cancelled. -/
def filledBid : List BookOp :=
  [.add ⟨1, 1, 5, 4, .buy, .limit⟩, .add ⟨2, 1, 5, 3, .sell, .limit⟩, .cancel 1]

theorem depthExact_iff_fits_filledBid :
    (∀ pre, pre <+: filledBid → ∃ s,
      Converges (fun fuel => runList (runLogged silent) fuel pre
        ([], new depthConfig openGate () fun _ => 0)) (.ok s) ∧
      Converges (fun fuel => run silent (pre.map EngineOp.through) fuel
        (new depthConfig openGate () fun _ => 0)) (.ok s.2)) ∧
    ((∀ pre, pre <+: filledBid → ∀ s,
        Converges (fun fuel => runList (runLogged silent) fuel pre
          ([], new depthConfig openGate () fun _ => 0)) (.ok s) → DepthExact depthConfig s) ↔
      AllowedFrom Fits (runLogged silent) filledBid
        ([], new depthConfig openGate () fun _ => 0)) :=
  depthExact_iff_fits silent (fun _ => trivial) _ _ _ _ filledBid
    ⟨fun _ => ⟨by decide, ⟨4, by decide, by decide⟩, by decide⟩,
      fun _ => ⟨by decide, ⟨4, by decide, by decide⟩, by decide⟩, trivial, trivial⟩

/-- The bid is filled down to one and then cancelled. -/
example : ∃ s, runList (runLogged silent) 4 filledBid
    ([], new depthConfig openGate () fun _ => 0) = .ok s ∧ s.1 = [4, 1, 0] := by
  decide +kernel

/-- Two bids of the largest quantity at one price. -/
def twoLargeBids : List BookOp :=
  [.add ⟨1, 1, 5, 2147483647, .buy, .limit⟩, .add ⟨2, 1, 5, 2147483647, .buy, .limit⟩]

/-- **Two bids that pass** leave `2 ^ 32 - 2` at their price, which is shown as `-2`. -/
theorem not_depthExact_twoLargeBids : WellFormed depthConfig twoLargeBids ∧
    ∃ s, runList (runLogged silent) 3 twoLargeBids
        ([], new depthConfig openGate () fun _ => 0) = .ok s ∧
      s.2.env.ordersSubmitted = 2 ∧ ¬ (∀ x ∈ s.1, IsInt32 x) ∧
      s.2.book.restingAt 5 .buy = 4294967294 ∧ wrap32 (s.2.book.quantityAt 5 .buy) = -2 := by
  refine ⟨?_, by decide +kernel⟩
  exact ⟨fun _ => ⟨by decide, ⟨4, by decide, by decide⟩, by decide⟩,
    fun _ => ⟨by decide, ⟨4, by decide, by decide⟩, by decide⟩, trivial⟩

end TradingEngine

end MiniTrader
