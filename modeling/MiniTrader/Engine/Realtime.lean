import MiniTrader.Core.SPSCQueue
import MiniTrader.Strategy.StrategyBase

/-!
# The two threads of the realtime replay

`run_realtime_mode` in `main.cpp`: one thread sends the ticks with `push_tick` and then stores
`producer_done`, the other drains the queue with `run_once` until it has seen `producer_done` and,
after that, an empty queue; a last `run_once` and the join follow. The calls on the queue are cut
at their accesses to shared memory, as in `SPSCQueue`, so that this machine runs that one.

## What the exit test sees

`tick_queue_empty` loads both indices with relaxed order, so taken alone it may see an old `tail_`
and report an empty queue while ticks are waiting. It is evaluated only after `producer_done` has
been read as `true`. That load acquires what the release store published, and the store comes after
the last push; so from then on the consumer sees no `tail_` older than the final one
(`State.doneTail`), and an empty queue stays empty.

## Main definitions

* `State`, `Action`, `step`, `start` — the machine
* `SenderInv`, `DrainerInv`, `RealtimeInv` — what holds at the program points of the two threads

## Main results

* `RealtimeInv.step` — every step of either thread keeps the invariant
* `accounted_of_run` — the counts and the order of the ticks after the join
-/

namespace MiniTrader

open Fuelled

namespace Realtime

/-- Where the producer is. -/
inductive Sender where
  /-- At the head of the loop over the ticks. -/
  | looping
  /-- In `push_tick`. -/
  | pushing (tick : MarketTick)
  /-- After `push_tick`, before `++total_sent`. -/
  | counting
  /-- After storing `producer_done`. -/
  | done
  deriving DecidableEq, Repr

/-- Where the consumer is. The flag says whether it is the `run_once` after the loop. -/
inductive Drainer where
  /-- At the loop condition. -/
  | looping
  /-- Between the two tests of the loop condition. -/
  | sawDone
  /-- In `run_once`, at or in `try_pop`. -/
  | popping (last : Bool)
  /-- In `run_once`, with a tick. -/
  | handling (last : Bool) (tick : Option MarketTick)
  /-- At `producer.join()`. -/
  | joining
  /-- After it. -/
  | joined
  deriving DecidableEq, Repr

/-- The two threads, what they share, and the history of the ticks. -/
structure State where
  queue : SPSCQueue.State MarketTick
  sender : Sender
  /-- The ticks the loop has not come to. -/
  todo : List MarketTick
  /-- The ticks given to `push_tick`, with what it returned. -/
  sent : List (MarketTick × Bool)
  ticksDropped : ℕ
  totalSent : ℕ
  producerDone : Bool
  /-- The position of `tail_` that the store of `producer_done` published. -/
  doneTail : ℕ
  drainer : Drainer
  /-- The consumer has read `producer_done` as `true`. -/
  seenDone : Bool
  ticksProcessed : ℕ
  /-- What `on_tick` was called with. -/
  handled : List (Option MarketTick)

/-- One step of one thread. A clock reading and the loads of what the other thread writes say what
they return. -/
inductive Action where
  | send (now : ℕ)
  | loadHead (position : ℕ)
  | construct
  | storeTail
  | count
  | storeDone
  | loadDone (value : Bool)
  | testEmpty (position : ℕ)
  | popLoadHead
  | popLoadTail (position : ℕ)
  | popTake
  | popStoreHead
  | handle
  | join
  deriving DecidableEq, Repr

/-- A fresh engine, and the ticks that have been read. -/
def start (ticks : List MarketTick) : State where
  queue := SPSCQueue.init
  sender := .looping
  todo := ticks
  sent := []
  ticksDropped := 0
  totalSent := 0
  producerDone := false
  doneTail := 0
  drainer := .looping
  seenDone := false
  ticksProcessed := 0
  handled := []

/-- `push_tick` overwrites the timestamp. -/
def stamp (now : ℕ) (tick : MarketTick) : MarketTick := { tick with localTimestampNs := now }

/-- One step; `none` if the thread is elsewhere in its program, or a load would return a value that
was never published or is older than what the thread has seen. -/
def step (q : SPSCQueue.Capacity) (s : State) : Action → Option State
  | .send now =>
    match s.sender, s.todo with
    | .looping, tick :: todo =>
      (SPSCQueue.step q s.queue (.pushLoadTail (stamp now tick))).map fun queue =>
        { s with queue, sender := .pushing tick, todo }
    | _, _ => none
  | .loadHead position =>
    match s.sender with
    | .pushing tick =>
      (SPSCQueue.step q s.queue (.pushLoadHead position)).map fun queue =>
        match queue.producer with
        | .ready =>
          -- full: `push_tick` returns `false`
          { s with
            queue
            sender := .counting
            sent := s.sent ++ [(tick, false)]
            ticksDropped := s.ticksDropped + 1 }
        | _ => { s with queue }
    | _ => none
  | .construct =>
    match s.sender with
    | .pushing _ => (SPSCQueue.step q s.queue .pushConstruct).map fun queue => { s with queue }
    | _ => none
  | .storeTail =>
    match s.sender with
    | .pushing tick =>
      (SPSCQueue.step q s.queue .pushStoreTail).map fun queue =>
        { s with queue, sender := .counting, sent := s.sent ++ [(tick, true)] }
    | _ => none
  | .count =>
    match s.sender with
    | .counting => some { s with sender := .looping, totalSent := s.totalSent + 1 }
    | _ => none
  | .storeDone =>
    match s.sender, s.todo with
    | .looping, [] =>
      some { s with
        sender := .done
        producerDone := true
        doneTail := s.queue.tailLog.length - 1 }
    | _, _ => none
  | .loadDone value =>
    match s.drainer with
    | .looping =>
      if (value = true → s.producerDone = true) ∧ (s.seenDone = true → value = true) then
        if value then
          some { s with
            drainer := .sawDone
            seenDone := true
            queue := { s.queue with seenTail := max s.queue.seenTail s.doneTail } }
        else some { s with drainer := .popping false }
      else none
    | _ => none
  | .testEmpty position =>
    match s.drainer, s.queue.tailLog[position]? with
    | .sawDone, some tail =>
      if s.queue.seenTail ≤ position then
        some { s with
          queue := { s.queue with seenTail := position }
          drainer := .popping (SPSCQueue.latest s.queue.headLog = tail) }
      else none
    | _, _ => none
  | .popLoadHead =>
    match s.drainer with
    | .popping _ => (SPSCQueue.step q s.queue .popLoadHead).map fun queue => { s with queue }
    | _ => none
  | .popLoadTail position =>
    match s.drainer with
    | .popping last =>
      (SPSCQueue.step q s.queue (.popLoadTail position)).map fun queue =>
        match queue.consumer with
        | .ready =>
          -- empty: `run_once` returns
          { s with queue, drainer := if last then .joining else .looping }
        | _ => { s with queue }
    | _ => none
  | .popTake =>
    match s.drainer with
    | .popping _ => (SPSCQueue.step q s.queue .popTake).map fun queue => { s with queue }
    | _ => none
  | .popStoreHead =>
    match s.drainer, s.queue.consumer with
    | .popping last, .taken result _ =>
      (SPSCQueue.step q s.queue .popStoreHead).map fun queue =>
        { s with queue, drainer := .handling last result }
    | _, _ => none
  | .handle =>
    match s.drainer with
    | .handling last tick =>
      some { s with
        drainer := .popping last
        ticksProcessed := s.ticksProcessed + 1
        handled := s.handled ++ [tick] }
    | _ => none
  | .join =>
    match s.drainer, s.sender with
    | .joining, .done => some { s with drainer := .joined }
    | _, _ => none

/-! ### The producer -/

/-- A tick without its timestamp of arrival. -/
def unstamp (tick : MarketTick) : MarketTick := stamp 0 tick

/-- The tick the producer has in hand. -/
def Sender.inHand : Sender → List MarketTick
  | .pushing tick => [tick]
  | .looping | .counting | .done => []

/-- One if the producer has yet to count its last tick. -/
def Sender.uncounted : Sender → ℕ
  | .counting => 1
  | .looping | .pushing _ | .done => 0

/-- The value that `try_push` has in hand. -/
def inFlight : SPSCQueue.Producer MarketTick → List MarketTick
  | .loadedTail value _ | .checked value _ | .built value _ => [value]
  | .ready => []

/-- What the producer has done. -/
structure SenderInv (ticks : List MarketTick) (s : State) : Prop where
  inFlight : (inFlight s.queue.producer).map unstamp = s.sender.inHand.map unstamp
  ticks_eq : s.sent.map Prod.fst ++ s.sender.inHand ++ s.todo = ticks
  pushed : s.queue.pushed.map unstamp = (s.sent.filter Prod.snd).map (unstamp ∘ Prod.fst)
  dropped : s.ticksDropped + s.queue.pushed.length = s.sent.length
  total : s.totalSent + s.sender.uncounted = s.sent.length
  done : s.sender = .done → s.todo = [] ∧ s.doneTail = s.queue.pushed.length
  producerDone : s.producerDone = true → s.sender = .done

/-! ### The consumer -/

/-- The tick the consumer has in hand. -/
def Drainer.inHand : Drainer → List (Option MarketTick)
  | .handling _ tick => [tick]
  | .looping | .sawDone | .popping _ | .joining | .joined => []

/-- The consumer is inside a call of `try_pop`. -/
def Drainer.InPop : Drainer → Prop
  | .popping _ => True
  | .looping | .sawDone | .handling _ _ | .joining | .joined => False

/-- The consumer has left the loop. -/
def Drainer.Left : Drainer → Prop
  | .popping last | .handling last _ => last = true
  | .joining | .joined => True
  | .looping | .sawDone => False

/-- What the consumer has done. -/
structure DrainerInv (s : State) : Prop where
  ready : ¬ s.drainer.InPop → s.queue.consumer = .ready
  popped : s.queue.popped = s.handled ++ s.drainer.inHand
  processed : s.ticksProcessed = s.handled.length
  seen : s.seenDone = true → s.producerDone = true ∧ s.doneTail ≤ s.queue.seenTail
  sawDone : s.drainer = .sawDone → s.seenDone = true
  /-- Once it has left the loop there is nothing to pop. -/
  left : s.drainer.Left → s.seenDone = true ∧ s.queue.popped.length = s.queue.pushed.length

/-- The invariant. -/
structure RealtimeInv (q : SPSCQueue.Capacity) (ticks : List MarketTick) (s : State) : Prop where
  queue : SPSCQueue.Inv q s.queue
  sender : SenderInv ticks s
  drainer : DrainerInv s

theorem realtimeInv_start (q : SPSCQueue.Capacity) (ticks : List MarketTick) :
    RealtimeInv q ticks (start ticks) where
  queue := SPSCQueue.inv_init q
  sender := ⟨rfl, rfl, rfl, rfl, rfl, nofun, nofun⟩
  drainer := ⟨fun _ => rfl, rfl, rfl, nofun, nofun, False.elim⟩

variable {q : SPSCQueue.Capacity} {ticks : List MarketTick} {s s' : State}

/-! ### What a thread leaves alone -/

/-- A step of the producer, seen by the consumer. The consumer cannot have seen the end. -/
theorem DrainerInv.of_sender (h : DrainerInv s) (hseen : s.seenDone = false)
    (hd : s'.drainer = s.drainer) (hs : s'.seenDone = s.seenDone) (hh : s'.handled = s.handled)
    (ht : s'.ticksProcessed = s.ticksProcessed) (hp : s'.queue.popped = s.queue.popped)
    (hc : s'.queue.consumer = s.queue.consumer) : DrainerInv s' where
  ready := by rw [hd, hc]; exact h.ready
  popped := by rw [hp, hh, hd]; exact h.popped
  processed := by rw [ht, hh]; exact h.processed
  seen h' := by rw [hs, hseen] at h'; cases h'
  sawDone := by rw [hd, hs]; exact h.sawDone
  left h' := by
    rw [hd] at h'
    have := (h.left h').1
    rw [hseen] at this
    cases this

/-- A step of the consumer, seen by the producer. -/
theorem SenderInv.of_drainer (h : SenderInv ticks s) (hs : s'.sender = s.sender)
    (ht : s'.todo = s.todo) (hsent : s'.sent = s.sent) (hd : s'.ticksDropped = s.ticksDropped)
    (htotal : s'.totalSent = s.totalSent) (hdone : s'.producerDone = s.producerDone)
    (htail : s'.doneTail = s.doneTail) (hp : s'.queue.pushed = s.queue.pushed)
    (hq : s'.queue.producer = s.queue.producer) : SenderInv ticks s' where
  inFlight := by rw [hq, hs]; exact h.inFlight
  ticks_eq := by rw [hsent, hs, ht]; exact h.ticks_eq
  pushed := by rw [hp, hsent]; exact h.pushed
  dropped := by rw [hd, hp, hsent]; exact h.dropped
  total := by rw [htotal, hs, hsent]; exact h.total
  done := by rw [hs, ht, htail, hp]; exact h.done
  producerDone := by rw [hdone, hs]; exact h.producerDone

theorem SenderInv.not_producerDone (h : SenderInv ticks s) (hs : s.sender ≠ .done) :
    s.producerDone ≠ true :=
  mt h.producerDone hs

/-- While the producer runs, the consumer has not seen its end. -/
theorem RealtimeInv.seenDone_eq_false (h : RealtimeInv q ticks s) (hs : s.sender ≠ .done) :
    s.seenDone = false :=
  Bool.eq_false_iff.mpr fun hseen => h.sender.not_producerDone hs (h.drainer.seen hseen).1

/-! ### The producer's steps -/

theorem RealtimeInv.send {now : ℕ} (h : RealtimeInv q ticks s)
    (hs : step q s (.send now) = some s') : RealtimeInv q ticks s' := by
  cases hsender : s.sender with
  | looping =>
    cases htodo : s.todo with
    | nil => simp [step, hsender, htodo] at hs
    | cons tick todo =>
      simp only [step, hsender, htodo, Option.map_eq_some_iff] at hs
      obtain ⟨queue, hq, rfl⟩ := hs
      have hI := h.queue.pushLoadTail hq
      have hrun : s.sender ≠ .done := by rw [hsender]; exact nofun
      obtain ⟨-, rfl⟩ := SPSCQueue.step_pushLoadTail hq
      have hticks := h.sender.ticks_eq
      have htotal := h.sender.total
      rw [hsender, htodo] at hticks
      rw [hsender] at htotal
      refine ⟨hI, ⟨rfl, ?_, h.sender.pushed, h.sender.dropped, htotal, nofun,
        fun hdone => absurd hdone (h.sender.not_producerDone hrun)⟩,
        h.drainer.of_sender (h.seenDone_eq_false hrun) rfl rfl rfl rfl rfl rfl⟩
      simpa [Sender.inHand] using hticks
  | _ => simp [step, hsender] at hs

theorem RealtimeInv.loadHead {position : ℕ} (h : RealtimeInv q ticks s)
    (hs : step q s (.loadHead position) = some s') : RealtimeInv q ticks s' := by
  cases hsender : s.sender with
  | pushing tick =>
    simp only [step, hsender, Option.map_eq_some_iff] at hs
    obtain ⟨queue, hq, rfl⟩ := hs
    have hI := h.queue.pushLoadHead hq
    have hrun : s.sender ≠ .done := by rw [hsender]; exact nofun
    have hticks := h.sender.ticks_eq
    have htotal := h.sender.total
    have hflight := h.sender.inFlight
    have hdropped := h.sender.dropped
    rw [hsender] at hticks htotal hflight
    obtain ⟨value, tail, head, hp, -, -, ⟨-, rfl⟩ | ⟨-, rfl⟩⟩ := SPSCQueue.step_pushLoadHead hq
    · refine ⟨hI, ⟨rfl, ?_, ?_, ?_, ?_, nofun,
        fun hdone => absurd hdone (h.sender.not_producerDone hrun)⟩,
        h.drainer.of_sender (h.seenDone_eq_false hrun) rfl rfl rfl rfl rfl rfl⟩
      · simpa [Sender.inHand] using hticks
      · simpa using h.sender.pushed
      · rw [List.length_append]
        exact (Nat.add_right_comm _ _ _).trans (congrArg (· + 1) hdropped)
      · rw [List.length_append]
        exact congrArg (· + 1) htotal
    · rw [hp] at hflight
      exact ⟨hI, ⟨hflight, hticks, h.sender.pushed, hdropped, htotal, nofun,
        fun hdone => absurd hdone (h.sender.not_producerDone hrun)⟩,
        h.drainer.of_sender (h.seenDone_eq_false hrun) rfl rfl rfl rfl rfl rfl⟩
  | _ => simp [step, hsender] at hs

theorem RealtimeInv.construct (h : RealtimeInv q ticks s) (hs : step q s .construct = some s') :
    RealtimeInv q ticks s' := by
  cases hsender : s.sender with
  | pushing tick =>
    simp only [step, hsender, Option.map_eq_some_iff] at hs
    obtain ⟨queue, hq, rfl⟩ := hs
    have hI := h.queue.pushConstruct hq
    have hrun : s.sender ≠ .done := by rw [hsender]; exact nofun
    have hticks := h.sender.ticks_eq
    have htotal := h.sender.total
    have hflight := h.sender.inFlight
    rw [hsender] at hticks htotal hflight
    obtain ⟨value, tail, hp, rfl⟩ := SPSCQueue.step_pushConstruct hq
    rw [hp] at hflight
    exact ⟨hI, ⟨hflight, hticks, h.sender.pushed, h.sender.dropped, htotal, nofun,
      fun hdone => absurd hdone (h.sender.not_producerDone hrun)⟩,
      h.drainer.of_sender (h.seenDone_eq_false hrun) rfl rfl rfl rfl rfl rfl⟩
  | _ => simp [step, hsender] at hs

theorem RealtimeInv.storeTail (h : RealtimeInv q ticks s) (hs : step q s .storeTail = some s') :
    RealtimeInv q ticks s' := by
  cases hsender : s.sender with
  | pushing tick =>
    simp only [step, hsender, Option.map_eq_some_iff] at hs
    obtain ⟨queue, hq, rfl⟩ := hs
    have hI := h.queue.pushStoreTail hq
    have hrun : s.sender ≠ .done := by rw [hsender]; exact nofun
    have hticks := h.sender.ticks_eq
    have htotal := h.sender.total
    have hflight := h.sender.inFlight
    have hdropped := h.sender.dropped
    rw [hsender] at hticks htotal hflight
    obtain ⟨value, tail, hp, rfl⟩ := SPSCQueue.step_pushStoreTail hq
    rw [hp] at hflight
    refine ⟨hI, ⟨rfl, ?_, ?_, ?_, ?_, nofun,
      fun hdone => absurd hdone (h.sender.not_producerDone hrun)⟩,
      h.drainer.of_sender (h.seenDone_eq_false hrun) rfl rfl rfl rfl rfl rfl⟩
    · simpa [Sender.inHand] using hticks
    · -- the value that is published is the stamped tick
      have hvalue : unstamp value = unstamp tick := (List.cons.inj hflight).1
      simpa [hvalue] using h.sender.pushed
    · simp only [List.length_append, List.length_singleton]
      omega
    · rw [List.length_append]
      exact congrArg (· + 1) htotal
  | _ => simp [step, hsender] at hs

theorem RealtimeInv.count (h : RealtimeInv q ticks s) (hs : step q s .count = some s') :
    RealtimeInv q ticks s' := by
  cases hsender : s.sender with
  | counting =>
    simp only [step, hsender, Option.some.injEq] at hs
    subst hs
    have hrun : s.sender ≠ .done := by rw [hsender]; exact nofun
    have hticks := h.sender.ticks_eq
    have htotal := h.sender.total
    have hflight := h.sender.inFlight
    rw [hsender] at hticks htotal hflight
    exact ⟨h.queue, ⟨hflight, hticks, h.sender.pushed, h.sender.dropped, htotal, nofun,
      fun hdone => absurd hdone (h.sender.not_producerDone hrun)⟩,
      h.drainer.of_sender (h.seenDone_eq_false hrun) rfl rfl rfl rfl rfl rfl⟩
  | _ => simp [step, hsender] at hs

/-- The store of `producer_done` comes after the last push. -/
theorem RealtimeInv.storeDone (h : RealtimeInv q ticks s) (hs : step q s .storeDone = some s') :
    RealtimeInv q ticks s' := by
  cases hsender : s.sender with
  | looping =>
    cases htodo : s.todo with
    | cons => simp [step, hsender, htodo] at hs
    | nil =>
      simp only [step, hsender, htodo, Option.some.injEq] at hs
      subst hs
      have hrun : s.sender ≠ .done := by rw [hsender]; exact nofun
      have hticks := h.sender.ticks_eq
      have htotal := h.sender.total
      have hflight := h.sender.inFlight
      rw [hsender, htodo] at hticks
      rw [hsender] at htotal hflight
      refine ⟨h.queue, ⟨hflight, hticks, h.sender.pushed, h.sender.dropped, htotal,
        fun _ => ⟨rfl, ?_⟩, fun _ => rfl⟩,
        h.drainer.of_sender (h.seenDone_eq_false hrun) rfl rfl rfl rfl rfl rfl⟩
      rw [h.queue.tailLog, SPSCQueue.length_indices]
      rfl
  | _ => simp [step, hsender] at hs

/-! ### The consumer's steps -/

/-- **Reading `producer_done`.** Once it has been read as `true`, the consumer sees the final
`tail_`. -/
theorem RealtimeInv.loadDone {value : Bool} (h : RealtimeInv q ticks s)
    (hs : step q s (.loadDone value) = some s') : RealtimeInv q ticks s' := by
  cases hdrainer : s.drainer with
  | looping =>
    simp only [step, hdrainer, Option.ite_none_right_eq_some] at hs
    obtain ⟨⟨hpub, hcoh⟩, hs⟩ := hs
    have hpopped := h.drainer.popped
    have hready := h.drainer.ready (by rw [hdrainer]; exact id)
    rw [hdrainer] at hpopped
    cases value with
    | false =>
      rw [if_neg Bool.false_ne_true] at hs
      cases hs
      refine ⟨h.queue, h.sender.of_drainer rfl rfl rfl rfl rfl rfl rfl rfl rfl,
        ⟨fun hn => absurd trivial hn, hpopped, h.drainer.processed, h.drainer.seen, nofun, nofun⟩⟩
    | true =>
      rw [if_pos rfl] at hs
      cases hs
      have hdone := h.sender.done (h.sender.producerDone (hpub rfl))
      have hle : max s.queue.seenTail s.doneTail ≤ s.queue.pushed.length :=
        max_le h.queue.seenTail_le hdone.2.le
      exact ⟨h.queue.acquire (le_max_left _ _) hle,
        h.sender.of_drainer rfl rfl rfl rfl rfl rfl rfl rfl rfl,
        ⟨fun _ => hready, hpopped, h.drainer.processed, fun _ => ⟨hpub rfl, le_max_right _ _⟩,
          fun _ => rfl, nofun⟩⟩
  | _ => simp [step, hdrainer] at hs

/-- **The exit test.** The index it loads is the final one, so an empty queue has been drained. -/
theorem RealtimeInv.testEmpty {position : ℕ} (h : RealtimeInv q ticks s)
    (hs : step q s (.testEmpty position) = some s') : RealtimeInv q ticks s' := by
  cases hdrainer : s.drainer with
  | sawDone =>
    cases hl : s.queue.tailLog[position]? with
    | none => simp [step, hdrainer, hl] at hs
    | some tail =>
      simp only [step, hdrainer, hl, Option.ite_none_right_eq_some, Option.some.injEq] at hs
      obtain ⟨hseen, rfl⟩ := hs
      rw [h.queue.tailLog] at hl
      obtain ⟨hle, rfl⟩ := SPSCQueue.getElem?_indices hl
      have hpopped := h.drainer.popped
      rw [hdrainer] at hpopped
      have hsaw := h.drainer.sawDone hdrainer
      obtain ⟨hdone, htail⟩ := h.drainer.seen hsaw
      have hfinal := (h.sender.done (h.sender.producerDone hdone)).2
      refine ⟨h.queue.acquire hseen hle, h.sender.of_drainer rfl rfl rfl rfl rfl rfl rfl rfl rfl,
        ⟨fun hn => absurd trivial hn, hpopped, h.drainer.processed,
          fun _ => ⟨hdone, htail.trans hseen⟩, nofun, fun hempty => ⟨hsaw, ?_⟩⟩⟩
      have heq : SPSCQueue.latest s.queue.headLog = position % q.cap := of_decide_eq_true hempty
      rw [h.queue.headLog, SPSCQueue.latest_indices] at heq
      have h1 := h.queue.behind
      have h2 := h.queue.ahead
      have h3 := h.queue.seenHead_le
      have := SPSCQueue.eq_of_mod_eq (c := q.cap) (by omega) (by omega) heq
      show s.queue.popped.length = s.queue.pushed.length
      omega
  | _ => simp [step, hdrainer] at hs

theorem RealtimeInv.popLoadHead (h : RealtimeInv q ticks s) (hs : step q s .popLoadHead = some s') :
    RealtimeInv q ticks s' := by
  cases hdrainer : s.drainer with
  | popping last =>
    simp only [step, hdrainer, Option.map_eq_some_iff] at hs
    obtain ⟨queue, hq, rfl⟩ := hs
    have hI := h.queue.popLoadHead hq
    obtain ⟨-, rfl⟩ := SPSCQueue.step_popLoadHead hq
    have hpopped := h.drainer.popped
    have hleft := h.drainer.left
    rw [hdrainer] at hpopped hleft
    exact ⟨hI, h.sender.of_drainer rfl rfl rfl rfl rfl rfl rfl rfl rfl,
      ⟨fun hn => absurd trivial hn, hpopped, h.drainer.processed, h.drainer.seen, nofun, hleft⟩⟩
  | _ => simp [step, hdrainer] at hs

theorem RealtimeInv.popLoadTail {position : ℕ} (h : RealtimeInv q ticks s)
    (hs : step q s (.popLoadTail position) = some s') : RealtimeInv q ticks s' := by
  cases hdrainer : s.drainer with
  | popping last =>
    simp only [step, hdrainer, Option.map_eq_some_iff] at hs
    obtain ⟨queue, hq, rfl⟩ := hs
    have hI := h.queue.popLoadTail hq
    have hpopped := h.drainer.popped
    have hleft := h.drainer.left
    have hseen := h.drainer.seen
    rw [hdrainer] at hpopped hleft
    obtain ⟨head, tail, -, -, hle, ⟨-, rfl⟩ | ⟨-, rfl⟩⟩ := SPSCQueue.step_popLoadTail hq
    · -- empty: after the loop the thread goes on to the join
      refine ⟨hI, h.sender.of_drainer rfl rfl rfl rfl rfl rfl rfl rfl rfl, ?_⟩
      cases last with
      | false =>
        exact ⟨fun _ => rfl, hpopped, h.drainer.processed,
          fun hs => ⟨(hseen hs).1, (hseen hs).2.trans hle⟩, nofun, False.elim⟩
      | true =>
        exact ⟨fun _ => rfl, hpopped, h.drainer.processed,
          fun hs => ⟨(hseen hs).1, (hseen hs).2.trans hle⟩, nofun, fun _ => hleft rfl⟩
    · exact ⟨hI, h.sender.of_drainer rfl rfl rfl rfl rfl rfl rfl rfl rfl,
        ⟨fun hn => absurd trivial hn, hpopped, h.drainer.processed,
          fun hs => ⟨(hseen hs).1, (hseen hs).2.trans hle⟩, nofun, hleft⟩⟩
  | _ => simp [step, hdrainer] at hs

theorem RealtimeInv.popTake (h : RealtimeInv q ticks s) (hs : step q s .popTake = some s') :
    RealtimeInv q ticks s' := by
  cases hdrainer : s.drainer with
  | popping last =>
    simp only [step, hdrainer, Option.map_eq_some_iff] at hs
    obtain ⟨queue, hq, rfl⟩ := hs
    have hI := h.queue.popTake hq
    obtain ⟨head, -, rfl⟩ := SPSCQueue.step_popTake hq
    have hpopped := h.drainer.popped
    have hleft := h.drainer.left
    rw [hdrainer] at hpopped hleft
    exact ⟨hI, h.sender.of_drainer rfl rfl rfl rfl rfl rfl rfl rfl rfl,
      ⟨fun hn => absurd trivial hn, hpopped, h.drainer.processed, h.drainer.seen, nofun, hleft⟩⟩
  | _ => simp [step, hdrainer] at hs

/-- The last `run_once` has nothing to pop. -/
theorem RealtimeInv.popStoreHead (h : RealtimeInv q ticks s)
    (hs : step q s .popStoreHead = some s') : RealtimeInv q ticks s' := by
  cases hdrainer : s.drainer with
  | popping last =>
    cases hconsumer : s.queue.consumer with
    | taken result head =>
      simp only [step, hdrainer, hconsumer, Option.map_eq_some_iff] at hs
      obtain ⟨queue, hq, rfl⟩ := hs
      have hI := h.queue.popStoreHead hq
      have hcons := h.queue.consumer
      have htail := h.queue.seenTail_le
      have hpopped := h.drainer.popped
      have hleft := h.drainer.left
      rw [hdrainer] at hpopped hleft
      simp only [SPSCQueue.ConsumerInv, hconsumer] at hcons
      obtain ⟨result', head', hc, rfl⟩ := SPSCQueue.step_popStoreHead hq
      obtain ⟨rfl, rfl⟩ : result = result' ∧ head = head' := by
        rw [hconsumer] at hc
        cases hc
        exact ⟨rfl, rfl⟩
      refine ⟨hI, h.sender.of_drainer rfl rfl rfl rfl rfl rfl rfl rfl rfl,
        ⟨fun _ => rfl, ?_, h.drainer.processed, h.drainer.seen, fun hsaw => (by cases hsaw),
          fun hlast => ?_⟩⟩
      · show s.queue.popped ++ [result] = s.handled ++ [result]
        rw [hpopped]
        exact congrArg (· ++ [result]) (List.append_nil _)
      · have := (hleft hlast).2
        omega
    | _ => simp [step, hdrainer, hconsumer] at hs
  | _ => simp [step, hdrainer] at hs

theorem RealtimeInv.handle (h : RealtimeInv q ticks s) (hs : step q s .handle = some s') :
    RealtimeInv q ticks s' := by
  cases hdrainer : s.drainer with
  | handling last tick =>
    simp only [step, hdrainer, Option.some.injEq] at hs
    subst hs
    have hpopped := h.drainer.popped
    have hleft := h.drainer.left
    rw [hdrainer] at hpopped hleft
    refine ⟨h.queue, h.sender.of_drainer rfl rfl rfl rfl rfl rfl rfl rfl rfl,
      ⟨fun hn => absurd trivial hn, ?_, ?_, h.drainer.seen, nofun, hleft⟩⟩
    · show s.queue.popped = s.handled ++ [tick] ++ []
      rw [List.append_nil]
      exact hpopped
    · rw [List.length_append]
      exact congrArg (· + 1) h.drainer.processed
  | _ => simp [step, hdrainer] at hs

theorem RealtimeInv.join (h : RealtimeInv q ticks s) (hs : step q s .join = some s') :
    RealtimeInv q ticks s' := by
  cases hdrainer : s.drainer with
  | joining =>
    cases hsender : s.sender with
    | done =>
      simp only [step, hdrainer, hsender, Option.some.injEq] at hs
      subst hs
      have hpopped := h.drainer.popped
      have hleft := h.drainer.left
      have hready := h.drainer.ready (by rw [hdrainer]; exact id)
      rw [hdrainer] at hpopped hleft
      exact ⟨h.queue, h.sender.of_drainer hsender.symm rfl rfl rfl rfl rfl rfl rfl rfl,
        ⟨fun _ => hready, hpopped, h.drainer.processed, h.drainer.seen, nofun, hleft⟩⟩
    | _ => simp [step, hdrainer, hsender] at hs
  | _ => simp [step, hdrainer] at hs

/-- **Every step of either thread keeps the invariant.** -/
theorem RealtimeInv.step {a : Action} (h : RealtimeInv q ticks s)
    (hs : Realtime.step q s a = some s') : RealtimeInv q ticks s' := by
  cases a with
  | send now => exact h.send hs
  | loadHead position => exact h.loadHead hs
  | construct => exact h.construct hs
  | storeTail => exact h.storeTail hs
  | count => exact h.count hs
  | storeDone => exact h.storeDone hs
  | loadDone value => exact h.loadDone hs
  | testEmpty position => exact h.testEmpty hs
  | popLoadHead => exact h.popLoadHead hs
  | popLoadTail position => exact h.popLoadTail hs
  | popTake => exact h.popTake hs
  | popStoreHead => exact h.popStoreHead hs
  | handle => exact h.handle hs
  | join => exact h.join hs

theorem realtimeInv_of_run {as : List Action}
    (h : runActions (Realtime.step q) as (start ticks) = some s) : RealtimeInv q ticks s :=
  runActions_induction (fun _ _ _ hI hs => hI.step hs) (realtimeInv_start q ticks) h

/-! ### After the join -/

theorem RealtimeInv.done_of_left (h : RealtimeInv q ticks s) (hleft : s.drainer.Left) :
    s.sender = .done :=
  h.sender.producerDone (h.drainer.seen (h.drainer.left hleft).1).1

theorem pending_eq_nil {p : SPSCQueue.Producer MarketTick} (h : inFlight p = []) :
    p.pending = [] := by
  cases p with
  | ready => rfl
  | _ => cases h

/-- Nothing is left in the queue. -/
theorem RealtimeInv.slots_eq_none (h : RealtimeInv q ticks s) (hjoined : s.drainer = .joined)
    {i : ℕ} (hi : i < q.cap) : s.queue.slots i = none := by
  have hleft : s.drainer.Left := by rw [hjoined]; trivial
  have hlen := (h.drainer.left hleft).2
  have hready := h.drainer.ready (by rw [hjoined]; exact id)
  have hflight := h.sender.inFlight
  rw [h.done_of_left hleft] at hflight
  refine h.queue.slots.empty i hi fun k hk hlt => ?_
  rw [pending_eq_nil (List.map_eq_nil_iff.mp hflight), List.append_nil] at hlt
  rw [hready, SPSCQueue.Consumer.emptied] at hk
  omega

/-- **The accounts of the replay**, under every interleaving. After the join the queue is empty,
every tick has been processed or dropped, and `on_tick` has been called, in order and once each,
with the ticks for which `push_tick` returned `true`. -/
theorem accounted_of_run (q : SPSCQueue.Capacity) (ticks : List MarketTick) (as : List Action)
    (s : State) (h : runActions (Realtime.step q) as (start ticks) = some s)
    (hjoined : s.drainer = .joined) :
    SPSCQueue.latest s.queue.headLog = SPSCQueue.latest s.queue.tailLog ∧
    (∀ i < q.cap, s.queue.slots i = none) ∧
    s.ticksProcessed + s.ticksDropped = s.totalSent ∧
    s.totalSent = ticks.length ∧
    s.sent.map Prod.fst = ticks ∧
    s.handled.map (Option.map unstamp) =
      (s.sent.filter Prod.snd).map fun t => some (unstamp t.1) := by
  have hI := realtimeInv_of_run h
  have hleft : s.drainer.Left := by rw [hjoined]; trivial
  have hdone := hI.done_of_left hleft
  have hlen := (hI.drainer.left hleft).2
  have hticks := hI.sender.ticks_eq
  have htotal := hI.sender.total
  have hdropped := hI.sender.dropped
  have hprocessed := hI.drainer.processed
  have hpopped := hI.drainer.popped
  rw [hdone, (hI.sender.done hdone).1, Sender.inHand, List.append_nil, List.append_nil] at hticks
  rw [hdone, Sender.uncounted] at htotal
  rw [hjoined, Drainer.inHand, List.append_nil] at hpopped
  have hsent : s.sent.length = ticks.length := by rw [← hticks, List.length_map]
  refine ⟨?_, fun i hi => hI.slots_eq_none hjoined hi, ?_, by omega, hticks, ?_⟩
  · rw [hI.queue.headLog, hI.queue.tailLog, hlen]
  · rw [hpopped] at hlen
    omega
  · have hall := hI.queue.popped
    rw [hlen, List.take_length] at hall
    have hpushed := congrArg (List.map some) hI.sender.pushed
    rw [← hpopped, hall, List.map_map]
    rw [List.map_map, List.map_map] at hpushed
    exact hpushed

/-- One slot: the first tick is pushed, the second finds the queue full. The consumer reads an old
`producer_done` and an old `tail_` before it sees the end. -/
def lateDone : List Action :=
  [.send 5, .loadHead 0, .construct, .storeTail, .count, .send 6, .loadHead 0, .count, .storeDone,
    .loadDone false, .popLoadHead, .popLoadTail 0,
    .loadDone true, .testEmpty 1, .popLoadHead, .popLoadTail 1, .popTake, .popStoreHead, .handle,
    .popLoadHead, .popLoadTail 1,
    .loadDone true, .testEmpty 1, .popLoadHead, .popLoadTail 1, .join]

theorem accounted_of_run_lateDone :
    ∃ s, runActions (Realtime.step ⟨2, by decide, by decide⟩) lateDone
        (start [⟨1, 9, 11, 5, 5, 10, 1, 0, 0⟩, ⟨1, 9, 12, 5, 5, 10, 1, 0, 0⟩]) = some s ∧
      s.drainer = .joined ∧ s.ticksProcessed + s.ticksDropped = s.totalSent := by
  have hsome : (runActions (Realtime.step ⟨2, by decide, by decide⟩) lateDone
      (start [⟨1, 9, 11, 5, 5, 10, 1, 0, 0⟩, ⟨1, 9, 12, 5, 5, 10, 1, 0, 0⟩])).map State.drainer =
        some .joined := by decide +kernel
  obtain ⟨s, hs, hjoined⟩ := Option.map_eq_some_iff.mp hsome
  exact ⟨s, hs, hjoined, (accounted_of_run _ _ _ _ hs hjoined).2.2.1⟩

end Realtime

end MiniTrader
