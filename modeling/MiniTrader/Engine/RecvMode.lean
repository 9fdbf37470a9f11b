import MiniTrader.Engine.Batches
import MiniTrader.Engine.Position
import MiniTrader.Engine.QuotedBook
import MiniTrader.Network.CsvReplay

/-!
# `run_recv_mode`

The CSV replay mode of `src/main.cpp` as a whole: a file is loaded, one round of its ticks warms the
engine up, the statistics are reset, and ninety-nine rounds are measured, with an order from outside
after every eighteenth tick. What is printed is left out.

What other results ask of the callers, this program has to see to itself. Its book has the prices
`1` to `100000` and nothing checks that a quote is among them; the strategy numbers its orders from
`1` and the program numbers the injected ones from `9000001`, and nothing keeps the two apart. Both
are a matter of the file. The quotes stay within four ticks of the middle, since the position is
always zero and so there is no skew; and a tick makes the strategy use at most two ids, so `45000`
rows are few enough for a hundred rounds.

## Main definitions

* `runRecvMode` — the program
* `Served` — the invariant of its loops

## Main results

* `exists_runRecvMode` — the program returns, with all ticks processed and a coherent book
-/

namespace MiniTrader

open Fuelled OrderBook

namespace RecvMode

open TradingEngine SpreadStrategy

variable {F : Type} [DoubleOps F]

/-! ### The program -/

/-- `eng_cfg.book_config`. -/
def bookConfig : OrderBookConfig := ⟨1, 100000, 1, by decide, Int.one_pos, by decide⟩

/-- `eng_cfg.risk_config`. -/
def riskConfig : RiskConfig where
  maxPosition := 500
  maxOrdersPerSecond := 200
  maxCancelRatio := 9 / 10
  checkSelfTrade := false

/-- The configuration of the strategy. The four parameters of type `double` keep their defaults. -/
def strategyConfig (skewPerLot emaAlpha spreadScaleThreshold spreadScaleFactor : F) :
    SpreadStrategyConfig F where
  halfSpread := 2
  orderSize := 5
  skewPerLot
  emaAlpha
  spreadScaleThreshold
  spreadScaleFactor

/-- `(tick.bid_price + tick.ask_price) / 2`. -/
def mid (tick : MarketTick) : ℤ := (wrap64 (tick.bidPrice + tick.askPrice)).tdiv 2

/-- The aggressive order of round `r`: a buy in even rounds, a sell in odd ones. -/
def injectedOrder (r injectId : ℕ) (tick : MarketTick) : Order :=
  if r % 2 = 0 then ⟨injectId, tick.instrumentId, mid tick + 2, 5, .buy, .limit⟩
  else ⟨injectId, tick.instrumentId, mid tick - 2, 5, .sell, .limit⟩

/-- `push_tick` and `run_once`; what they return is ignored. -/
def replayTick (S : Strategy (SpreadState F)) (tick : MarketTick) (fuel : ℕ)
    (e : TradingEngine (SpreadState F)) : Outcome (TradingEngine (SpreadState F)) := do
  let r ← (e.pushTick tick).2.runOnce S fuel
  .ok r.2

/-- The variables of the measured rounds. -/
structure Replay (F : Type) where
  engine : TradingEngine (SpreadState F)
  injectId : ℕ := 9000000
  tickIdx : ℕ := 0

/-- The body of the inner loop. -/
def measureTick (S : Strategy (SpreadState F)) (r : ℕ) (tick : MarketTick) (fuel : ℕ)
    (s : Replay F) : Outcome (Replay F) := do
  let e ← replayTick S tick fuel s.engine
  let tickIdx := s.tickIdx + 1
  if tickIdx % 18 = 0 then do
    let injectId := s.injectId + 1
    let e ← e.submitOrder (fillCallback S fuel) fuel false (injectedOrder r injectId tick)
    .ok ⟨e, injectId, tickIdx⟩
  else .ok ⟨e, s.injectId, tickIdx⟩

/-- The body of the outer loop. -/
def measureRound (S : Strategy (SpreadState F)) (ticks : List MarketTick) (r fuel : ℕ)
    (s : Replay F) : Outcome (Replay F) :=
  runList (measureTick S r) fuel ticks { s with tickIdx := 0 }

/-- `run_recv_mode`, on the lines of the file. There is no engine when no tick has been loaded. -/
def runRecvMode (cfg : SpreadStrategyConfig F) (clock : ℕ → ℤ) (lines : List (List Char))
    (fuel : ℕ) : Outcome (Option (TradingEngine (SpreadState F))) :=
  let ticks := CsvReplay.loadCsv lines
  if ticks = [] then .ok none
  else do
    let e ← runList (replayTick (strategy cfg)) fuel ticks
      (TradingEngine.new bookConfig riskConfig initial clock)
    let s ← runList (measureRound (strategy cfg) ticks) fuel (List.range' 1 99)
      { engine := e.resetLatencyStats }
    .ok (some s.engine)

/-! ### What a submission leaves alone -/

section

variable {σ : Type} {S : Strategy σ} {e e' : TradingEngine σ} {o : Order} {own : Bool}
  {fuel n : ℕ}

/-- How many orders have been submitted or rejected. -/
def attempts (e : TradingEngine σ) : ℕ := e.env.ordersSubmitted + e.env.ordersRejected

theorem attempts_beforeOnFill (r : ExecutionReport) (e : TradingEngine σ) :
    attempts (beforeOnFill r e) = attempts e := by
  rw [beforeOnFill_eq]
  rfl

theorem attempts_beforeOnTick (tick : MarketTick) (e : TradingEngine σ) :
    attempts (e.beforeOnTick tick) = attempts e := by
  unfold beforeOnTick
  dsimp only
  split <;> rfl

theorem fillRel_attempts : FillRel fun e e' : TradingEngine σ => attempts e' = attempts e where
  refl _ := rfl
  trans h h' := h'.trans h
  withBook _ _ := rfl
  setStrategy _ _ := rfl
  untracked _ _ := rfl
  fill h h' := by rw [h', attempts_beforeOnFill, h, attempts_beforeOnFill]

theorem attempts_submitOrder (hS : ∀ r, (S.onFill r).NoSubmit)
    (h : e.submitOrder (fillCallback S n) fuel own o = .ok e') :
    attempts e' = attempts e + 1 := by
  by_cases hp : e.Passes o
  · rw [submitOrder_of_passes hp] at h
    rw [fillRel_attempts.addOrder (fillRel_attempts.reports hS n) h, admitted_eq]
    exact Nat.add_right_comm _ _ _
  · rw [submitOrder_of_not_passes hp] at h
    cases h
    rfl

/-- What only `push_tick`, `run_once` and the switches change. -/
structure SameTicks (e e' : TradingEngine σ) : Prop where
  tickQueue : e'.env.tickQueue = e.env.tickQueue
  tracking : e'.env.trackQueueLatency = e.env.trackQueueLatency
  processed : e'.env.ticksProcessed = e.env.ticksProcessed
  dropped : e'.env.ticksDropped = e.env.ticksDropped

theorem SameTicks.trans {e₁ e₂ e₃ : TradingEngine σ} (h : SameTicks e₁ e₂)
    (h' : SameTicks e₂ e₃) : SameTicks e₁ e₃ where
  tickQueue := h'.tickQueue.trans h.tickQueue
  tracking := h'.tracking.trans h.tracking
  processed := h'.processed.trans h.processed
  dropped := h'.dropped.trans h.dropped

theorem sameTicks_beforeOnFill (r : ExecutionReport) (e : TradingEngine σ) :
    SameTicks e (beforeOnFill r e) := by
  rw [beforeOnFill_eq]
  exact ⟨rfl, rfl, rfl, rfl⟩

theorem sameTicks_beforeOnTick (tick : MarketTick) (e : TradingEngine σ) :
    SameTicks e (e.beforeOnTick tick) := by
  unfold beforeOnTick
  dsimp only
  split <;> exact ⟨rfl, rfl, rfl, rfl⟩

theorem stepRel_sameTicks : StepRel (SameTicks (σ := σ)) where
  refl _ := ⟨rfl, rfl, rfl, rfl⟩
  trans := .trans
  withBook _ _ := ⟨rfl, rfl, rfl, rfl⟩
  setStrategy _ _ := ⟨rfl, rfl, rfl, rfl⟩
  rejected _ _ _ := ⟨rfl, rfl, rfl, rfl⟩
  admitted own o e := by
    rw [admitted_eq]
    exact ⟨rfl, rfl, rfl, rfl⟩
  untracked _ _ := ⟨rfl, rfl, rfl, rfl⟩
  fill h h' :=
    ((sameTicks_beforeOnFill _ _).trans h).trans ((sameTicks_beforeOnFill _ _).trans h')

end

/-! ### The invariant -/

section

variable {cfg : SpreadStrategyConfig F} {c : OrderBookConfig} {o : Order} {own : Bool}
  {e e' e'' : TradingEngine (SpreadState F)} {tick : MarketTick} {injectId : ℕ}

/-- The invariant. The strategy has numbered its orders from `1`, the program has numbered the
injected ones from `9000001` to `injectId`, and these are all orders there are. -/
structure Served (c : OrderBookConfig) (injectId : ℕ) (e : TradingEngine (SpreadState F)) :
    Prop where
  quoted : Quoted c e
  balanced : Balanced e
  numbered : ∀ id ∈ usedIds e.env.journal,
    0 < id ∧ id ≤ e.env.strategy.nextId ∨ 9000000 < id ∧ id ≤ injectId
  attempts : attempts e + 9000000 = e.env.strategy.nextId + injectId

omit [DoubleOps F] in
theorem Served.quiet (h : Served c injectId e) (hq : Quiet e e')
    (ha : RecvMode.attempts e' = RecvMode.attempts e) : Served c injectId e' where
  quoted := h.quoted.congr hq.book hq.journal fun s => by rw [hq.strategy]
  balanced := h.balanced.of_settles
    (settles_of_eq (by rw [hq.journal]) (by rw [hq.risk]))
  numbered := by
    rw [hq.journal, hq.strategy]
    exact h.numbered
  attempts := by
    rw [ha, hq.strategy]
    exact h.attempts

omit [DoubleOps F] in
/-- The position is zero. -/
theorem Served.position (h : Served c injectId e) (instrumentId : ℕ) :
    e.position instrumentId = 0 := by
  show e.env.risk.position = 0
  rw [h.balanced.2, h.balanced.1 (fun _ => true) fun _ _ => rfl, wrap32_zero]

/-- What one limit order does. -/
structure Submitted (c : OrderBookConfig) (o : Order) (e e' : TradingEngine (SpreadState F)) :
    Prop where
  quoted : Quoted c e'
  settles : Settles e e'
  nextId : e'.env.strategy.nextId = e.env.strategy.nextId
  used : usedIds e'.env.journal = usedIds e.env.journal ++ [o.orderId]
  attempts : RecvMode.attempts e' = RecvMode.attempts e + 1
  ticks : SameTicks e e'

theorem exists_submitted (cfg : SpreadStrategyConfig F) (own : Bool) (h : Quoted c e)
    (hok : FreshOnGrid c o e) (htype : o.type = .limit) :
    ∃ e', Converges (fun fuel => e.submitOrder (fillCallback (strategy cfg) fuel) fuel own o)
      (.ok e') ∧ Submitted c o e e' := by
  obtain ⟨e', hconv, hquoted, hforgets, hids⟩ := h.submit cfg own hok
  obtain ⟨N, hN⟩ := hconv.2
  have hsub := hN N le_rfl
  refine ⟨e', hconv, hquoted, stepRel_settles.submitOrder (stepRel_settles.reports _ _) hsub, ?_,
    ?_, attempts_submitOrder (noSubmit_onFill cfg) hsub,
    stepRel_sameTicks.submitOrder (stepRel_sameTicks.reports _ _) hsub⟩
  · rcases hforgets with hf | hf
    · exact hf.nextId
    · exact hf.nextId
  · rw [hids, usedIds_append]
    simp [usedIds, htype]

/-- What is used of the configuration and of the arithmetic: a position of zero gives no skew, and
the wide half spread is `ceil(2 * spread_scale_factor)`, which is four. -/
structure Rounds (cfg : SpreadStrategyConfig F) : Prop where
  halfSpread : cfg.halfSpread = 2
  flat : DoubleOps.round (DoubleOps.mul (DoubleOps.ofInt 0) cfg.skewPerLot) = 0
  wide : DoubleOps.ceil (DoubleOps.mul (DoubleOps.ofInt 2) cfg.spreadScaleFactor) = 4

/-- The middle of the tick is far enough from both ends of the book. -/
def InRange (tick : MarketTick) : Prop := 5 ≤ mid tick ∧ mid tick ≤ 99996

instance : DecidablePred InRange := fun _ => inferInstanceAs (Decidable (_ ∧ _))

theorem onGrid_bookConfig {price : ℤ} (hmin : 1 ≤ price) (hmax : price ≤ 100000) :
    bookConfig.OnGrid price :=
  ⟨(price - 1).toNat, by show price = 1 + _ * 1; omega, hmax⟩

/-- **The quotes** are two or four ticks away from the middle. -/
theorem exists_quotePrices (hr : Rounds cfg) (st : SpreadState F) (hmid : InRange tick) :
    ∃ half, 2 ≤ half ∧ half ≤ 4 ∧
      quotePrices cfg st tick 0 = (mid tick - half, mid tick + half) := by
  obtain ⟨hmin, hmax⟩ := hmid
  have hflat : DoubleOps.round (DoubleOps.mul (DoubleOps.ofInt (wrap32 (-0)))
      cfg.skewPerLot) = 0 := by
    rw [neg_zero, wrap32_zero]
    exact hr.flat
  -- so close to the middle nothing wraps
  have hexact : ∀ half : ℤ, 2 ≤ half ∧ half ≤ 4 →
      (wrap64 (wrap64 (mid tick + 0) - half), wrap64 (wrap64 (mid tick + 0) + half)) =
        (mid tick - half, mid tick + half) := by
    rintro half ⟨hlow, hhigh⟩
    rw [add_zero, wrap64_of_le (n := mid tick) (by omega) (by omega),
      wrap64_of_le (n := mid tick - half) (by omega) (by omega),
      wrap64_of_le (n := mid tick + half) (by omega) (by omega)]
  unfold quotePrices
  dsimp only
  rw [hflat, hr.halfSpread, hr.wide]
  split
  · exact ⟨4, by decide, by decide, hexact 4 (by decide)⟩
  · exact ⟨2, by decide, by decide, hexact 2 (by decide)⟩

omit [DoubleOps F] in
theorem nextId_advance (h : e.env.strategy.nextId < 9000000) :
    (advance e).env.strategy.nextId = e.env.strategy.nextId + 1 :=
  Nat.mod_eq_of_lt (by omega)

omit [DoubleOps F] in
/-- The next ids of the strategy have not been used. -/
theorem Served.not_mem_usedIds (h : Served c injectId e) {id : ℕ}
    (hlt : e.env.strategy.nextId < id) (hle : id ≤ 9000000) :
    id ∉ usedIds e.env.journal := by
  intro hid
  rcases h.numbered id hid with hid | hid
  · omega
  · omega

omit [DoubleOps F] in
/-- The promises of `bestPrices_of_quoting` about a quote under the next id. -/
theorem quoting_nextQuote (cfg : SpreadStrategyConfig F) (hlt : e.env.strategy.nextId < 9000000)
    (hfresh : ∀ id ∈ usedIds e.env.journal, id ≠ e.env.strategy.nextId + 1) {price : ℤ}
    (hmin : 1 ≤ price) (hmax : price ≤ 100000) (side : Side) :
    (Conditions.quoting bookConfig).submit true (nextQuote cfg price side (advance e))
      (advance e) := by
  refine ⟨⟨fun _ => onGrid_bookConfig hmin hmax, fun _ hid => ?_⟩, fun _ => ?_⟩
  · exact hfresh _ hid (nextId_advance hlt)
  · show (advance e).env.strategy.nextId ≠ 0
    rw [nextId_advance hlt]
    exact Nat.succ_ne_zero _

omit [DoubleOps F] in
theorem Served.advance (h : Served bookConfig injectId e) : Quoted bookConfig (advance e) :=
  h.quoted.congr rfl rfl fun s => by cases s <;> rfl

/-- Both orders of `quote` are allowed. -/
theorem Served.along_quote (h : Served bookConfig injectId e)
    (hid : e.env.strategy.nextId + 2 ≤ 9000000) {buyPx sellPx : ℤ} (hbuy : 1 ≤ buyPx)
    (hbuy' : buyPx ≤ 100000) (hsell : 1 ≤ sellPx) (hsell' : sellPx ≤ 100000) :
    Along (strategy cfg) ((Conditions.quoting bookConfig).submit true)
      (SpreadStrategy.quote cfg buyPx sellPx) e := by
  have hbid := quoting_nextQuote cfg (e := e) (by omega)
    (fun id hused he => h.not_mem_usedIds (by omega) (by omega) hused)
    hbuy hbuy' .buy
  refine SpreadStrategy.along_quote.mpr ⟨hbid, fun fuel e' he' => ?_⟩
  obtain ⟨e₁, hconv₁, h₁⟩ := exists_submitted cfg true h.advance hbid.1 rfl
  cases hconv₁.eq_of_ok he'
  have hid₀ : (SpreadStrategy.advance e).env.strategy.nextId = e.env.strategy.nextId + 1 :=
    nextId_advance (by omega)
  have hnext₁ := h₁.nextId.trans hid₀
  refine quoting_nextQuote cfg (by omega) (fun id hused he => ?_) hsell hsell' .sell
  rw [h₁.used, List.mem_append, List.mem_singleton] at hused
  rcases hused with hused | hused
  · exact h.not_mem_usedIds (by omega) (by omega) hused
  · have : id = (SpreadStrategy.advance e).env.strategy.nextId := hused
    omega

/-- **`quote`** uses two more ids. -/
theorem Served.quote (h : Served bookConfig injectId e)
    (hid : e.env.strategy.nextId + 2 ≤ 9000000) (hzero : ∀ s, quoteId e.env.strategy s = 0)
    {buyPx sellPx : ℤ} (hok : Along (strategy cfg) ((Conditions.quoting bookConfig).submit true)
      (SpreadStrategy.quote cfg buyPx sellPx) e) :
    ∃ r, Converges (fun fuel => interp (fillCallback (strategy cfg) fuel) fuel
        (SpreadStrategy.quote cfg buyPx sellPx) e) (.ok r) ∧
      Served bookConfig injectId r.2 ∧ SameTicks e r.2 ∧
      r.2.env.strategy.nextId = e.env.strategy.nextId + 2 := by
  obtain ⟨hbid, hask⟩ := SpreadStrategy.along_quote.mp hok
  have hid₀ : (SpreadStrategy.advance e).env.strategy.nextId = e.env.strategy.nextId + 1 :=
    nextId_advance (by omega)
  obtain ⟨e₁, hconv₁, h₁⟩ := exists_submitted cfg true h.advance hbid.1 rfl
  have hid₁ : (SpreadStrategy.advance e₁).env.strategy.nextId = e.env.strategy.nextId + 2 := by
    rw [nextId_advance (by rw [h₁.nextId]; omega), h₁.nextId, hid₀]
  obtain ⟨N, hN⟩ := hconv₁.2
  have hadv₁ : Quoted bookConfig (SpreadStrategy.advance e₁) :=
    h₁.quoted.congr rfl rfl fun s => by cases s <;> rfl
  obtain ⟨e₂, hconv₂, h₂⟩ := exists_submitted cfg true hadv₁ (hask N e₁ (hN N le_rfl)).1 rfl
  obtain ⟨r, hr, hquoted⟩ := h.quoted.quote hzero hok
  have hr' : Converges (fun fuel => interp (fillCallback (strategy cfg) fuel) fuel
      (SpreadStrategy.quote cfg buyPx sellPx) e)
      (.ok ((), recordQuotes (SpreadStrategy.advance e).env.strategy.nextId
        (SpreadStrategy.advance e₁).env.strategy.nextId e₂)) := by
    simp only [interp_quote]
    exact hconv₁.bind (hconv₂.bind (converges_const _))
  cases hr.unique hr'
  have hnext : e₂.env.strategy.nextId = e.env.strategy.nextId + 2 := h₂.nextId.trans hid₁
  have hused : usedIds e₂.env.journal =
      usedIds e.env.journal ++ [e.env.strategy.nextId + 1, e.env.strategy.nextId + 2] := by
    have hbid' : (nextQuote cfg buyPx .buy (SpreadStrategy.advance e)).orderId =
      e.env.strategy.nextId + 1 := hid₀
    have hask' : (nextQuote cfg sellPx .sell (SpreadStrategy.advance e₁)).orderId =
      e.env.strategy.nextId + 2 := hid₁
    have hstart : usedIds (SpreadStrategy.advance e).env.journal = usedIds e.env.journal := rfl
    have hbetween : usedIds (SpreadStrategy.advance e₁).env.journal = usedIds e₁.env.journal := rfl
    rw [h₂.used, hbetween, h₁.used, hstart, hbid', hask', List.append_assoc]
    rfl
  refine ⟨_, hr, ⟨hquoted, ?_, ?_, ?_⟩, ?_, hnext⟩
  · exact (((h.balanced.of_settles (stepRel_settles.setStrategy e _)).of_settles
      h₁.settles).of_settles (stepRel_settles.setStrategy e₁ _)).of_settles h₂.settles
  · intro id hid'
    have hid' : id ∈ usedIds e₂.env.journal := hid'
    rw [hused, List.mem_append] at hid'
    show 0 < id ∧ id ≤ e₂.env.strategy.nextId ∨ _
    rw [hnext]
    rcases hid' with hid' | hid'
    · exact (h.numbered id hid').imp (fun h => ⟨h.1, by omega⟩) fun h => h
    · simp only [List.mem_cons, List.not_mem_nil, or_false] at hid'
      omega
  · have hstart : RecvMode.attempts (SpreadStrategy.advance e) = RecvMode.attempts e := rfl
    have hbetween : RecvMode.attempts (SpreadStrategy.advance e₁) = RecvMode.attempts e₁ := rfl
    show RecvMode.attempts e₂ + 9000000 = e₂.env.strategy.nextId + injectId
    rw [h₂.attempts, hbetween, h₁.attempts, hstart, hnext]
    have := h.attempts
    omega
  · exact (((stepRel_sameTicks.setStrategy e _).trans h₁.ticks).trans
      (stepRel_sameTicks.setStrategy e₁ _)).trans
      (h₂.ticks.trans (stepRel_sameTicks.setStrategy e₂ _))

omit [DoubleOps F] in
theorem Served.setStrategy (h : Served c injectId e) {st : SpreadState F}
    (hst : SameIds st e.env.strategy) : Served c injectId (e.setStrategy st) where
  quoted := h.quoted.congr rfl rfl hst.quotes
  balanced := h.balanced
  numbered := by
    show ∀ id ∈ usedIds e.env.journal, 0 < id ∧ id ≤ st.nextId ∨ _
    rw [hst.nextId]
    exact h.numbered
  attempts := by
    show RecvMode.attempts e + 9000000 = st.nextId + injectId
    rw [hst.nextId]
    exact h.attempts

/-- **`on_tick`** uses at most two more ids. -/
theorem Served.onTick (hr : Rounds cfg) (h : Served bookConfig injectId e)
    (hid : e.env.strategy.nextId + 2 ≤ 9000000) (hmid : InRange tick) : ∃ r, Converges
      (fun fuel => interp (fillCallback (strategy cfg) fuel) fuel (SpreadStrategy.onTick cfg tick)
        e) (.ok r) ∧
      Served bookConfig injectId r.2 ∧ SameTicks e r.2 ∧
      r.2.env.strategy.nextId ≤ e.env.strategy.nextId + 2 := by
  have ⟨hmin, hmax⟩ := hmid
  have hema := sameIds_updateEma cfg (DoubleOps.ofInt (wrap64 (tick.askPrice - tick.bidPrice)))
    e.env.strategy
  obtain ⟨half, hlow, hhigh, hpx⟩ := exists_quotePrices hr
    (updateEma cfg (DoubleOps.ofInt (wrap64 (tick.askPrice - tick.bidPrice))) e.env.strategy) hmid
  have halong : Along (strategy cfg) ((Conditions.quoting bookConfig).submit true)
      (SpreadStrategy.onTick cfg tick) e := by
    rw [← h.position cfg.instrumentId] at hpx
    refine along_onTick rfl hpx.symm ((h.setStrategy hema).along_quote ?_ (by omega) (by omega)
      (by omega) (by omega))
    show (updateEma cfg _ e.env.strategy).nextId + 2 ≤ _
    rw [hema.nextId]
    exact hid
  obtain ⟨st, hids, hrun | ⟨hzero, buyPx, sellPx, hrun, hquote⟩⟩ := interp_onTick cfg tick e
  · refine ⟨((), e.setStrategy st), by simp only [hrun]; exact converges_const _,
      h.setStrategy hids, stepRel_sameTicks.setStrategy e st, ?_⟩
    show st.nextId ≤ _
    rw [hids.nextId]
    exact Nat.le_add_right _ _
  · simp only [hrun]
    have hst : (e.setStrategy st).env.strategy.nextId = e.env.strategy.nextId := hids.nextId
    obtain ⟨r, hconv, h', hticks, hnext⟩ :=
      (h.setStrategy hids).quote (by rw [hst]; exact hid) hzero (hquote _ _ halong)
    exact ⟨r, hconv, h', (stepRel_sameTicks.setStrategy e st).trans hticks,
      by rw [hnext, hst]⟩

/-- **An injected order.** -/
theorem Served.inject (cfg : SpreadStrategyConfig F) (h : Served bookConfig injectId e)
    (hid : e.env.strategy.nextId ≤ 9000000) (hle : 9000000 ≤ injectId) (hmid : InRange tick)
    (r : ℕ) : ∃ e', Converges (fun fuel => e.submitOrder (fillCallback (strategy cfg) fuel) fuel
        false (injectedOrder r (injectId + 1) tick)) (.ok e') ∧
      Served bookConfig (injectId + 1) e' ∧ SameTicks e e' ∧
      e'.env.strategy.nextId = e.env.strategy.nextId := by
  obtain ⟨hmin, hmax⟩ := hmid
  obtain ⟨hgrid, hidr, htype⟩ : bookConfig.OnGrid (injectedOrder r (injectId + 1) tick).price ∧
      (injectedOrder r (injectId + 1) tick).orderId = injectId + 1 ∧
      (injectedOrder r (injectId + 1) tick).type = .limit := by
    unfold injectedOrder
    split
    · exact ⟨onGrid_bookConfig (by dsimp only; omega) (by dsimp only; omega), rfl, rfl⟩
    · exact ⟨onGrid_bookConfig (by dsimp only; omega) (by dsimp only; omega), rfl, rfl⟩
  have hfresh : injectId + 1 ∉ usedIds e.env.journal := by
    intro hused
    rcases h.numbered _ hused with hused | hused
    · omega
    · omega
  obtain ⟨e', hconv, h'⟩ := exists_submitted cfg false h.quoted
    ⟨fun _ => hgrid, fun _ => by rw [hidr]; exact hfresh⟩ htype
  refine ⟨e', hconv, ⟨h'.quoted, h.balanced.of_settles h'.settles, ?_, ?_⟩, h'.ticks, h'.nextId⟩
  · intro id hid'
    rw [h'.used, hidr, List.mem_append, List.mem_singleton] at hid'
    rw [h'.nextId]
    rcases hid' with hid' | rfl
    · exact (h.numbered id hid').imp (fun h => h) fun h => ⟨h.1, by omega⟩
    · omega
  · rw [h'.attempts, h'.nextId]
    have := h.attempts
    omega

/-! ### The loops -/

/-- Between two ticks: nothing is queued or dropped, `ticks` have been processed, and the strategy
has used at most `bound` ids. -/
structure Between (injectId bound ticks : ℕ) (e : TradingEngine (SpreadState F)) : Prop
    extends Served bookConfig injectId e where
  nextId_le : e.env.strategy.nextId ≤ bound
  tickQueue : e.env.tickQueue = []
  tracking : e.env.trackQueueLatency = false
  processed : e.env.ticksProcessed = ticks
  dropped : e.env.ticksDropped = 0

omit [DoubleOps F] in
/-- With an empty queue, the tick that is pushed is the one that is processed. -/
theorem converges_replayTick {S : Strategy (SpreadState F)} (hqueue : e.env.tickQueue = [])
    (htrack : e.env.trackQueueLatency = false)
    (h : Converges (fun fuel => e.processTick S fuel tick) (.ok e')) :
    Converges (fun fuel => replayTick S tick fuel e) (.ok e') := by
  have hpersistent : Persistent fun fuel => replayTick S tick fuel e :=
    (persistent_runOnce S _).bind fun _ => persistent_const _
  refine hpersistent.converges_of_eventually (K := 2) (fun fuel hfuel => ?_) h
  have hpush : (e.pushTick tick).2 = e.setTickQueue [tick] := by
    rw [pushTick_eq htrack (by rw [hqueue]; decide), hqueue]
    rfl
  have hnil : (e.setTickQueue [tick]).setTickQueue [] = e := by
    rw [← hqueue]
    rfl
  have hlen : (e.setTickQueue [tick]).env.tickQueue.length < fuel := hfuel
  rw [replayTick, hpush, runOnce_eq hlen, tickQueue_setTickQueue, hnil, processAll, runList]
  cases e.processTick S fuel tick with
  | error err => rfl
  | ok f => rfl

/-- **One tick** of the replay. -/
theorem Between.replayTick {bound ticks : ℕ} (hr : Rounds cfg)
    (h : Between injectId bound ticks e) (hbound : bound + 2 ≤ 9000000) (hmid : InRange tick) :
    ∃ e', Converges (fun fuel => RecvMode.replayTick (strategy cfg) tick fuel e) (.ok e') ∧
      Between injectId (bound + 2) (ticks + 1) e' := by
  have hbefore : Served bookConfig injectId (e.beforeOnTick tick) :=
    h.toServed.quiet (quiet_beforeOnTick tick e) (attempts_beforeOnTick tick e)
  have hnext : (e.beforeOnTick tick).env.strategy.nextId = e.env.strategy.nextId := by
    rw [(quiet_beforeOnTick tick e).strategy]
  have hle := h.nextId_le
  obtain ⟨r, hconv, hserved, hticks, hnext'⟩ := hbefore.onTick hr (by omega) hmid
  have hsame : SameTicks e r.2 := (sameTicks_beforeOnTick tick e).trans hticks
  refine ⟨r.2.afterOnTick e.now, converges_replayTick h.tickQueue h.tracking
    (hconv.bind (converges_const _)), ⟨hserved.quiet (quiet_afterOnTick _ _) rfl, ?_, ?_, ?_, ?_,
    ?_⟩⟩
  · show r.2.env.strategy.nextId ≤ bound + 2
    omega
  · exact hsame.tickQueue.trans h.tickQueue
  · exact hsame.tracking.trans h.tracking
  · show r.2.env.ticksProcessed + 1 = ticks + 1
    rw [hsame.processed, h.processed]
  · exact hsame.dropped.trans h.dropped

/-- The state of a measured round after `i` ticks. -/
structure Round (base bound ticks i : ℕ) (s : Replay F) : Prop where
  tickIdx : s.tickIdx = i
  injectId : s.injectId = base + i / 18
  between : Between s.injectId (bound + 2 * i) (ticks + i) s.engine

theorem Round.measureTick {base bound ticks i : ℕ} {s : Replay F}
    (hr : Rounds cfg) (hbase : 9000000 ≤ base)
    (h : Round base bound ticks i s) (hbound : bound + 2 * i + 2 ≤ 9000000) (hmid : InRange tick)
    (r : ℕ) :
    ∃ s', Converges (fun fuel => RecvMode.measureTick (strategy cfg) r tick fuel s) (.ok s') ∧
      Round base bound ticks (i + 1) s' := by
  obtain ⟨e, hconv, he⟩ := h.between.replayTick hr hbound hmid
  have hidx := h.tickIdx
  have hinject := h.injectId
  by_cases hevery : (s.tickIdx + 1) % 18 = 0
  · obtain ⟨e', hconv', he', hsame, hnext⟩ := he.toServed.inject cfg
      (by have := he.nextId_le; omega) (by omega) hmid r
    refine ⟨⟨e', s.injectId + 1, s.tickIdx + 1⟩, ?_, by dsimp only; omega, by dsimp only; omega,
      he', ?_, hsame.tickQueue.trans he.tickQueue, hsame.tracking.trans he.tracking,
      hsame.processed.trans he.processed, hsame.dropped.trans he.dropped⟩
    · refine hconv.bind ?_
      simp only [if_pos hevery]
      exact hconv'.bind (converges_const _)
    · rw [hnext]
      exact he.nextId_le
  · refine ⟨⟨e, s.injectId, s.tickIdx + 1⟩, ?_, by dsimp only; omega, by dsimp only; omega, he⟩
    refine hconv.bind ?_
    simp only [if_neg hevery]
    exact converges_const _

/-- **One measured round.** -/
theorem exists_measureRound {bound done : ℕ} {ticks : List MarketTick} {s : Replay F}
    (hr : Rounds cfg) (hinject : 9000000 ≤ s.injectId) (h : Between s.injectId bound done s.engine)
    (hbound : bound + 2 * ticks.length ≤ 9000000) (hmid : ∀ tick ∈ ticks, InRange tick) (r : ℕ) :
    ∃ s', Converges (fun fuel => measureRound (strategy cfg) ticks r fuel s) (.ok s') ∧
      s'.injectId = s.injectId + ticks.length / 18 ∧
      Between s'.injectId (bound + 2 * ticks.length) (done + ticks.length) s'.engine := by
  have hstart : Round s.injectId bound done 0 { s with tickIdx := 0 } := ⟨rfl, rfl, h⟩
  obtain ⟨s', hconv, h'⟩ := converges_runList_of_length (n := ticks.length)
    (fun i t tick htick hi hround => hround.measureTick hr hinject (by omega) (hmid tick htick) r)
    hstart (by omega)
  rw [Nat.zero_add] at h'
  exact ⟨s', hconv, h'.injectId, h'.between⟩

/-- **The measured rounds.** -/
theorem exists_measuredRounds {ticks : List MarketTick} (hr : Rounds cfg)
    (hlen : ticks.length ≤ 45000) (hmid : ∀ tick ∈ ticks, InRange tick)
    (h : Between 9000000 (2 * ticks.length) 0 e) :
    ∃ s, Converges (fun fuel => runList (measureRound (strategy cfg) ticks) fuel
        (List.range' 1 99) { engine := e }) (.ok s) ∧
      s.injectId = 9000000 + 99 * (ticks.length / 18) ∧
      Between s.injectId (200 * ticks.length) (99 * ticks.length) s.engine := by
  -- after `k` rounds
  let I : ℕ → Replay F → Prop := fun k s => s.injectId = 9000000 + k * (ticks.length / 18) ∧
    Between s.injectId (2 * ticks.length + 2 * (k * ticks.length)) (k * ticks.length) s.engine
  have hstart : I 0 { engine := e } := by
    refine ⟨by rw [Nat.zero_mul], ?_⟩
    rw [Nat.zero_mul]
    exact h
  have hround : ∀ k s, ∀ r ∈ List.range' 1 99, k < 99 → I k s →
      ∃ s', Converges (fun fuel => measureRound (strategy cfg) ticks r fuel s) (.ok s') ∧
        I (k + 1) s' := by
    rintro k s r - hk ⟨hinject, hbetween⟩
    have hrounds : k * ticks.length ≤ 98 * ticks.length := Nat.mul_le_mul_right _ (by omega)
    obtain ⟨s', hconv, hinject', h'⟩ :=
      exists_measureRound hr (by omega) hbetween (by omega) hmid r
    refine ⟨s', hconv, ?_, ?_⟩
    · rw [hinject', hinject, Nat.succ_mul, Nat.add_assoc]
    · have hsucc : (k + 1) * ticks.length = k * ticks.length + ticks.length := Nat.succ_mul _ _
      rw [hsucc, Nat.mul_add, ← Nat.add_assoc]
      exact h'
  obtain ⟨s, hconv, hinject, hbetween⟩ :=
    converges_runList_of_length hround hstart (by decide)
  have hbound : 2 * ticks.length + 2 * (99 * ticks.length) = 200 * ticks.length := by omega
  have hrounds : 0 + (List.range' 1 99).length = 99 := by decide
  rw [hrounds] at hinject hbetween
  rw [hbound] at hbetween
  exact ⟨s, hconv, hinject, hbetween⟩

theorem between_new (clock : ℕ → ℤ) : Between 9000000 0 0
    (TradingEngine.new bookConfig riskConfig (initial (F := F)) clock) where
  quoted := .of_noQuotes (reaches_new bookConfig) (quoteId_eq_zero rfl rfl)
  balanced := ⟨settled_nil, wrap32_zero.symm⟩
  numbered _ h := (List.not_mem_nil h).elim
  attempts := rfl
  nextId_le := le_rfl
  tickQueue := rfl
  tracking := rfl
  processed := rfl
  dropped := rfl

omit [DoubleOps F] in
theorem Between.resetLatencyStats {bound ticks : ℕ} (h : Between injectId bound ticks e) :
    Between injectId bound 0 e.resetLatencyStats where
  toServed := h.toServed.quiet (quiet_resetLatencyStats e) rfl
  nextId_le := h.nextId_le
  tickQueue := h.tickQueue
  tracking := h.tracking
  processed := rfl
  dropped := rfl

/-- **The replay mode returns.** If the middle of every tick is within the book and there are at
most `45000` of them, then every call returns, whatever the clock shows and whatever is rejected.
The ticks of ninety-nine rounds are counted and none is dropped; every quote and every injected
order has been submitted or rejected; and the position is zero, the book is coherent, its best
prices are the true ones, and either two quotes are recorded or none. -/
theorem exists_runRecvMode (skewPerLot emaAlpha spreadScaleThreshold spreadScaleFactor : F)
    (hflat : DoubleOps.round (DoubleOps.mul (DoubleOps.ofInt 0) skewPerLot) = 0)
    (hwide : DoubleOps.ceil (DoubleOps.mul (DoubleOps.ofInt 2) spreadScaleFactor) = 4)
    (clock : ℕ → ℤ) (lines : List (List Char)) (hne : CsvReplay.loadCsv lines ≠ [])
    (hlen : (CsvReplay.loadCsv lines).length ≤ 45000)
    (hmid : ∀ tick ∈ CsvReplay.loadCsv lines, InRange tick) :
    ∃ e, Converges (fun fuel => runRecvMode (strategyConfig skewPerLot emaAlpha
        spreadScaleThreshold spreadScaleFactor) clock lines fuel) (.ok (some e)) ∧
      e.env.ticksProcessed = 99 * (CsvReplay.loadCsv lines).length ∧ e.env.ticksDropped = 0 ∧
      e.env.ordersSubmitted + e.env.ordersRejected =
        e.env.strategy.nextId + 99 * ((CsvReplay.loadCsv lines).length / 18) ∧
      (∀ instrumentId, e.position instrumentId = 0) ∧ Indexed e.book ∧ BestPrices e.book ∧
      (e.env.strategy.bidOrderId = 0 ↔ e.env.strategy.askOrderId = 0) := by
  have hr : Rounds (strategyConfig skewPerLot emaAlpha spreadScaleThreshold spreadScaleFactor) :=
    ⟨rfl, hflat, hwide⟩
  set cfg := strategyConfig skewPerLot emaAlpha spreadScaleThreshold spreadScaleFactor
  set ticks := CsvReplay.loadCsv lines with hticks
  -- the warm-up
  obtain ⟨e, hwarm, h⟩ := converges_runList_of_length (n := ticks.length)
    (I := fun i e => Between 9000000 (2 * i) i e)
    (fun i e tick htick hi he =>
      he.replayTick hr (show 2 * i + 2 ≤ 9000000 by omega) (hmid tick htick))
    (between_new (F := F) clock) (Nat.zero_add _).le
  rw [Nat.zero_add] at h
  obtain ⟨s, hrounds, hinject, h'⟩ := exists_measuredRounds hr hlen hmid h.resetLatencyStats
  have hquoted := h'.quoted
  have hcoherent := hquoted.reaches.sound.coherent
  refine ⟨s.engine, ?_, h'.processed, h'.dropped, ?_, h'.position,
    hcoherent.toIndexed hquoted.reaches.located hquoted.reaches.aligned,
    (hquoted.reaches.tidy ⟨by decide, by decide⟩).bestPrices hcoherent, ?_, ?_⟩
  · simp only [runRecvMode, ← hticks, if_neg hne]
    exact hwarm.bind (hrounds.bind (converges_const _))
  · have := h'.attempts
    unfold attempts at this
    omega
  · intro hbid
    by_contra hask
    exact (hquoted.paired .sell hask).1 hbid
  · intro hask
    by_contra hbid
    exact (hquoted.paired .buy hbid).1 hask

end

/-- A header and eighteen rows, every second one with a time stamp. -/
def eighteenRows : List (List Char) :=
  "instrument_id,bid_price,ask_price".toList ::
    (List.replicate 9 ["1,9998,10002,100,100,10000,10".toList,
      "1,9997,10005,200,150,10000,5,1700000000".toList]).flatten

/-- The rows are replayed a hundred times, and each of the ninety-nine measured rounds ends with an
injected order. -/
theorem exists_runRecvMode_eighteenRows : ∃ e, Converges (fun fuel => runRecvMode
      (strategyConfig (3 / 10 : ℚ) (1 / 20) (9 / 5) (8 / 5)) (fun n => n) eighteenRows fuel)
        (.ok (some e)) ∧
      e.env.ticksProcessed = 1782 ∧
      e.env.ordersSubmitted + e.env.ordersRejected = e.env.strategy.nextId + 99 := by
  obtain ⟨e, he, hticks, -, horders, -⟩ := exists_runRecvMode (3 / 10 : ℚ) (1 / 20) (9 / 5) (8 / 5)
    (by decide +kernel) (by decide +kernel) (fun n => n) eighteenRows (by decide +kernel)
    (by decide +kernel) (by decide +kernel)
  have hlen : (CsvReplay.loadCsv eighteenRows).length = 18 := by decide +kernel
  rw [hlen] at hticks horders
  exact ⟨e, he, hticks, horders⟩

end RecvMode

end MiniTrader
