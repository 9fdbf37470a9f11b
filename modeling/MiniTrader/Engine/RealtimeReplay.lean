import MiniTrader.Engine.Quotes
import MiniTrader.Engine.Unthrottled

/-!
# The realtime replay trades like the sequential one

`Realtime` is the machine of the two threads; what `on_tick` does was of no interest there. Here the
consumer's work is put back: when it handles a tick, the engine processes it (`workStep`). Only the
consumer touches the engine, so after any interleaving the engine is in the state in which
processing the ticks it has popped, one after the other, leaves it (`engine_of_run`).

These are the ticks that `push_tick` has accepted, with other time stamps. So the trading is that of
a replay on one thread, which pushes the accepted ticks and calls `run_once` after each of them, for
a strategy that does not look at the time stamps, as long as the rate limit rejects no order in
either run: how the threads are scheduled, and when, decides which ticks are dropped and nothing
else. The strategy submits nothing from inside `on_fill`.

## Main definitions

* `workStep` — a step of the two threads, with the work of the engine
* `accepted` — the ticks that `push_tick` has accepted

## Main results

* `handled_step` — only `handle` handles a tick
* `engine_of_run` — the engine after any interleaving
* `exists_replay_of_run` — the sequential replay
-/

namespace MiniTrader

open Fuelled

namespace Realtime

open TradingEngine OrderBook World

variable {σ : Type} {S : Strategy σ} {q : SPSCQueue.Capacity} {fuel : ℕ} {s s' : State}
  {ticks : List MarketTick}

/-! ### The work of the engine -/

/-- The tick that an action handles. -/
def workOf (s : State) : Action → List (Option MarketTick)
  | .handle => s.drainer.inHand
  | _ => []

/-- One step of the two threads. The engine is where its last call has left it. -/
def workStep (S : Strategy σ) (q : SPSCQueue.Capacity) (fuel : ℕ)
    (s : State × Outcome (TradingEngine σ)) (a : Action) :
    Option (State × Outcome (TradingEngine σ)) :=
  (step q s.1 a).map fun s' =>
    (s', s.2 >>= processAll S fuel ((workOf s.1 a).filterMap id))

/-- Only `handle` handles a tick. -/
theorem handled_step {a : Action} (h : step q s a = some s') :
    s'.handled = s.handled ++ workOf s a := by
  cases a with
  | handle =>
    simp only [step] at h
    split at h
    · rename_i hdrainer
      cases h
      rw [workOf, hdrainer]
      rfl
    · cases h
  | _ =>
    change s'.handled = s.handled ++ []
    rw [List.append_nil]
    simp only [step] at h
    grind [Option.map_eq_some_iff]

/-- **The engine after any interleaving** has processed the ticks that have been handled. -/
theorem engine_of_run {as : List Action} {e : TradingEngine σ}
    {t : State × Outcome (TradingEngine σ)}
    (h : runActions (workStep S q fuel) as (start ticks, .ok e) = some t) :
    RealtimeInv q ticks t.1 ∧ t.2 = processAll S fuel (t.1.handled.filterMap id) e := by
  refine runActions_induction
    (I := fun t => RealtimeInv q ticks t.1 ∧ t.2 = processAll S fuel (t.1.handled.filterMap id) e)
    (fun t a t' ht hs => ?_) ⟨realtimeInv_start q ticks, rfl⟩ h
  obtain ⟨hI, he⟩ := ht
  obtain ⟨s', hs', rfl⟩ := Option.map_eq_some_iff.mp hs
  refine ⟨hI.step hs', ?_⟩
  rw [handled_step hs', List.filterMap_append, processAll_append, ← he]

/-! ### The ticks that are handled -/

/-- The ticks that `push_tick` has accepted. -/
def accepted (s : State) : List MarketTick := (s.sent.filter Prod.snd).map Prod.fst

/-- After the join the accepted ticks have been handled, with other time stamps. -/
theorem RealtimeInv.handled_eq (h : RealtimeInv q ticks s) (hjoined : s.drainer = .joined) :
    s.handled.map (Option.map unstamp) = (accepted s).map fun t => some (unstamp t) := by
  have hleft : s.drainer.Left := by rw [hjoined]; trivial
  have hpopped := h.drainer.popped
  have hall := h.queue.popped
  have hpushed := congrArg (List.map some) h.sender.pushed
  rw [hjoined, Drainer.inHand, List.append_nil] at hpopped
  rw [(h.drainer.left hleft).2, List.take_length, hpopped] at hall
  rw [hall, accepted, List.map_map, List.map_map]
  rw [List.map_map, List.map_map] at hpushed
  exact hpushed

theorem RealtimeInv.sameTicks (h : RealtimeInv q ticks s) (hjoined : s.drainer = .joined) :
    List.Forall₂ SameTick (s.handled.filterMap id) (accepted s) := by
  have key : ∀ (l : List (Option MarketTick)) (l' : List MarketTick),
      l.map (Option.map unstamp) = l'.map (fun t => some (unstamp t)) →
        List.Forall₂ SameTick (l.filterMap id) l' := by
    intro l
    induction l with
    | nil =>
      intro l' h
      rw [List.map_nil, eq_comm, List.map_eq_nil_iff] at h
      rw [h]
      exact .nil
    | cons t l ih =>
      intro l' h
      cases l' with
      | nil => cases h
      | cons t' l' =>
        obtain ⟨hhead, htail⟩ := List.cons.inj h
        obtain ⟨t, rfl, ht⟩ := Option.map_eq_some_iff.mp hhead
        exact .cons ht (ih l' htail)
  exact key _ _ (h.handled_eq hjoined)

/-- If nothing is dropped, everything is accepted. -/
theorem RealtimeInv.accepted_eq (h : RealtimeInv q ticks s) (hjoined : s.drainer = .joined)
    (hdropped : s.ticksDropped = 0) : accepted s = ticks := by
  have hleft : s.drainer.Left := by rw [hjoined]; trivial
  have hdone := h.done_of_left hleft
  have hticks := h.sender.ticks_eq
  have hlen := h.sender.dropped
  have hpushed := congrArg List.length h.sender.pushed
  rw [hdone, (h.sender.done hdone).1, Sender.inHand, List.append_nil, List.append_nil] at hticks
  rw [List.length_map, List.length_map] at hpushed
  have hall : s.sent.filter Prod.snd = s.sent :=
    List.filter_sublist.eq_of_length (by omega)
  rw [accepted, hall, hticks]

/-! ### The sequential replay -/

theorem below_processAll (hS : ∀ t t', SameTick t t' → S.onTick t = S.onTick t')
    {ticks ticks' : List MarketTick} (hticks : List.Forall₂ SameTick ticks ticks')
    {e e' : TradingEngine σ} (h : Related (SameTrading Eq) e e') :
    Below (Related (SameTrading Eq)) (processAll S fuel ticks e) (processAll S fuel ticks' e') :=
  below_runList
    (fun _ _ _ _ ht hst =>
      tickRespected_sameTrading.processTick (alike_of_timeless hS) le_rfl ht hst)
    hticks h

/-- **The realtime replay trades like the sequential one.** Whatever the interleaving, the engine
ends with the book, the strategy and the trading state in which a single thread ends that pushes
and processes the accepted ticks one by one; and these are all the ticks if none was dropped. The
limits are any; no check of the two runs is rejected for the rate. -/
theorem exists_replay_of_run (S : Strategy σ)
    (hS : ∀ t t', SameTick t t' → S.onTick t = S.onTick t') (hfill : ∀ r, (S.onFill r).NoSubmit)
    (c : OrderBookConfig) (riskConfig : RiskConfig) (s₀ : σ) (clock clock' : ℕ → ℤ)
    (q : SPSCQueue.Capacity) (ticks : List MarketTick) (as : List Action) (fuel : ℕ) (s : State)
    (g : TradingEngine σ)
    (h : runActions (workStep S q fuel) as (start ticks,
      .ok ((new c riskConfig s₀ clock).enableQueueLatencyTracking true)) = some (s, .ok g))
    (hjoined : s.drainer = .joined)
    (hrate : Unthrottled S (s.handled.filterMap id)
      ((new c riskConfig s₀ clock).enableQueueLatencyTracking true))
    (hrate' : Unthrottled S (accepted s) (new c riskConfig s₀ clock')) :
    (s.ticksDropped = 0 → accepted s = ticks) ∧
    ∃ g', Converges (fun fuel => run S (tickwise (accepted s)) fuel
        (new c riskConfig s₀ clock')) (.ok g') ∧
      g'.book = g.book ∧ g'.env.strategy = g.env.strategy ∧
      g'.env.timeless = g.env.timeless := by
  obtain ⟨hI, hg⟩ := engine_of_run h
  refine ⟨hI.accepted_eq hjoined, ?_⟩
  -- both engines without their limit
  have hthreads : processAll S fuel (s.handled.filterMap id)
      ((new c riskConfig s₀ clock).enableQueueLatencyTracking true).unthrottled =
        .ok g.unthrottled := by
    rw [processAll_unthrottled hfill hrate, ← hg]
    rfl
  have hrelated : Related (SameTrading Eq)
      ((new c riskConfig s₀ clock).enableQueueLatencyTracking true).unthrottled
      (new c riskConfig s₀ clock').unthrottled := ⟨rfl, rfl, rfl, le_rfl⟩
  have hbelow := @below_processAll _ _ fuel hS _ _ (hI.sameTicks hjoined) _ _ hrelated
  rw [hthreads, processAll_unthrottled hfill hrate'] at hbelow
  obtain ⟨u, hu, hrel⟩ := hbelow.exists_of_ok
  -- and the limit again
  obtain ⟨g', hg', rfl⟩ := exists_of_map_eq_ok hu
  have hconfig : g'.env.risk.config = g.env.risk.config :=
    (riskConfig_processAll hg').trans (riskConfig_processAll hg.symm).symm
  refine ⟨g', ?_, hrel.book.symm, hrel.env.strategy.symm,
    timeless_eq_of_unthrottled hrel.env.timeless.symm hconfig⟩
  exact (persistent_run S _ _).converges_of_eventually
    (fun n hn => (run_tickwise hn rfl rfl (accepted s)).symm)
    ((persistent_processAll S _ _).converges hg')

/-- A tick makes a spread strategy submit two orders at most. -/
theorem atMost_onTick {F : Type} [DoubleOps F] (cfg : SpreadStrategyConfig F) (tick : MarketTick) :
    ((SpreadStrategy.strategy cfg).onTick tick).AtMost 2 := by
  have hmodify : ∀ f : SpreadState F → SpreadState F, (StrategyM.modify f).AtMost 0 :=
    fun _ _ => trivial
  have hstate : (StrategyM.state (σ := SpreadState F)).AtMost 0 := fun _ => trivial
  have hposition : ∀ i, (StrategyM.getPosition (σ := SpreadState F) i).AtMost 0 :=
    fun _ _ => trivial
  have hid : (SpreadStrategy.nextOrderId (F := F)).AtMost 0 := fun _ _ => trivial
  have hsubmit : ∀ o, (StrategyM.submitOrder (σ := SpreadState F) o).AtMost 1 :=
    fun _ => ⟨Nat.one_pos, trivial⟩
  have hquote : ∀ buyPx sellPx, (SpreadStrategy.quote cfg buyPx sellPx).AtMost 2 := fun _ _ =>
    hid.bind fun _ => (hsubmit _).bind fun _ => hid.bind fun _ => (hsubmit _).bind fun _ =>
      hmodify _
  show StrategyM.AtMost 2 (SpreadStrategy.onTick cfg tick)
  rw [SpreadStrategy.onTick]
  split
  · trivial
  split
  · trivial
  change StrategyM.AtMost (0 + (0 + (0 + 2))) _
  refine (hmodify _).bind fun _ => hstate.bind fun s => ?_
  split
  · trivial
  refine (hposition _).bind fun pos => ?_
  split
  · trivial
  dsimp only
  split
  · trivial
  · exact hquote _ _

/-- A spread strategy on a book of twenty-six levels, with the limits of `run_realtime_mode`. -/
def replayingEngine (clock : ℕ → ℤ) : TradingEngine (SpreadState ℚ) :=
  new ⟨1, 26, 1, by decide, Int.one_pos, by decide⟩
    { maxPosition := 500, maxOrdersPerSecond := 200, maxCancelRatio := 9 / 10,
      checkSelfTrade := false } SpreadStrategy.initial clock

/-- Two ticks and a queue for one: the second tick is dropped. -/
theorem exists_replay_of_run_lateDone : ∃ s g g',
    runActions (workStep (SpreadStrategy.strategy .defaults) ⟨2, by decide, by decide⟩ 4) lateDone
      (start [⟨1, 9, 11, 5, 5, 10, 1, 0, 0⟩, ⟨1, 9, 12, 5, 5, 10, 1, 0, 0⟩],
        .ok ((replayingEngine fun n => n).enableQueueLatencyTracking true)) = some (s, .ok g) ∧
    Converges (fun fuel => run (SpreadStrategy.strategy .defaults) (tickwise (accepted s)) fuel
      (replayingEngine fun _ => 0)) (.ok g') ∧ g'.book = g.book := by
  have hsome : (runActions (workStep (SpreadStrategy.strategy .defaults)
      ⟨2, by decide, by decide⟩ 4) lateDone
        (start [⟨1, 9, 11, 5, 5, 10, 1, 0, 0⟩, ⟨1, 9, 12, 5, 5, 10, 1, 0, 0⟩],
          .ok ((replayingEngine fun n => n).enableQueueLatencyTracking true))).map
        (fun t => (t.1.drainer, t.1.handled.length, (accepted t.1).length, t.2.isOk)) =
          some (.joined, 1, 1, true) := by decide +kernel
  obtain ⟨⟨s, r⟩, hs, hend⟩ := Option.map_eq_some_iff.mp hsome
  obtain ⟨hjoined, hend⟩ := Prod.mk.inj hend
  obtain ⟨hhandled, hend⟩ := Prod.mk.inj hend
  obtain ⟨haccepted, hr⟩ := Prod.mk.inj hend
  obtain ⟨g, rfl⟩ : ∃ g, r = .ok g := by
    cases r with
    | ok g => exact ⟨g, rfl⟩
    | error err => cases hr
  have hfill := SpreadStrategy.noSubmit_onFill (.defaults : SpreadStrategyConfig ℚ)
  -- one tick, two orders at most, a limit of two hundred
  have hbudget : ∀ (ticks : List MarketTick) (e : TradingEngine (SpreadState ℚ)),
      ticks.length ≤ 1 → InBudget 2 e →
        Unthrottled (SpreadStrategy.strategy .defaults) ticks e := by
    intro ticks e hlen he
    refine unthrottled_of_inBudget hfill (atMost_onTick _) ⟨he.1, ?_, he.2.2⟩
    have := he.2.1
    push_cast
    omega
  obtain ⟨-, g', hg', hbook, -⟩ := exists_replay_of_run (SpreadStrategy.strategy .defaults)
    (fun _ _ => onTick_of_sameTick _) hfill _ _ SpreadStrategy.initial (fun n => n)
    (fun _ => 0) _ _ lateDone 4 s g hs hjoined
    (hbudget _ _ ((List.length_filterMap_le _ _).trans hhandled.le) (by decide))
    (hbudget _ _ haccepted.le (by decide))
  exact ⟨s, g, g', hs, hg', hbook⟩

end Realtime

end MiniTrader
