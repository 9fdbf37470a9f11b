import MiniTrader.Engine.Realtime

/-!
# The realtime replay comes to an end

Neither thread of `run_realtime_mode` waits for the other: `push_tick` drops a tick when the queue
is full, and the consumer asks again when it is empty. What could keep the replay from ending is
that one of them goes on for ever, and the only loop that no tick drives is the consumer's loop
over `producer_done`.

Each thread has a measure of the steps before it. A step of the producer lowers its own, and does
not raise the consumer's: a tick that is dropped is one less to pop. A step of the consumer lowers
the consumer's, except for a reading of `producer_done` as `false`, which begins another round of
the loop. That is the price of spinning, and the length of a run is bounded by the number of ticks
and the number of those readings.

Once the flag has been read as `true` there are no more of them. The consumer then sees the final
`tail_`, so the next empty queue it finds is the last one, and what is left depends on the capacity
and not on the number of ticks.

## Main definitions

* `Action.bySender`, `Action.spins` — whose step it is, and the steps that begin another round
* `senderWork`, `drainerWork` — the measures

## Main results

* `RealtimeInv.pays` — what a step does to the two measures
* `ends_of_run` — no run goes on for ever, and none is stuck before the join
-/

namespace MiniTrader

open Fuelled

/-- The latest values of the indices are equal when the counters are. -/
theorem SPSCQueue.Inv.isEmpty_iff {T : Type} {q : SPSCQueue.Capacity} {s : SPSCQueue.State T}
    (h : SPSCQueue.Inv q s) :
    SPSCQueue.latest s.headLog = s.pushed.length % q.cap ↔ s.popped.length = s.pushed.length := by
  have h1 := h.lo_le
  have h2 := h.ahead
  have h3 := h.seenHead_le
  rw [h.headLog, SPSCQueue.latest_indices]
  exact ⟨SPSCQueue.eq_of_mod_eq (by omega) (by omega), fun he => by rw [he]⟩

namespace Realtime

/-- The steps of the producer; the others are the consumer's. -/
def Action.bySender : Action → Bool
  | .send _ | .loadHead _ | .construct | .storeTail | .count | .storeDone => true
  | .loadDone _ | .testEmpty _ | .popLoadHead | .popLoadTail _ | .popTake | .popStoreHead
  | .handle | .join => false

/-- Reading `producer_done` as `false`. -/
def Action.spins : Action → Bool
  | .loadDone value => !value
  | _ => false

/-- The steps of `try_push` before its last one. -/
def pushWork : SPSCQueue.Producer MarketTick → ℕ
  | .loadedTail _ _ => 2
  | .checked _ _ => 1
  | .built _ _ | .ready => 0

/-- The steps of `try_pop` before its last one. -/
def popWork : SPSCQueue.Consumer MarketTick → ℕ
  | .ready => 3
  | .loadedHead _ => 2
  | .checked _ => 1
  | .taken _ _ => 0

/-- The steps before the producer. -/
def senderWork (s : State) : ℕ :=
  5 * s.todo.length +
    match s.sender with
    | .looping => 1
    | .pushing _ => pushWork s.queue.producer + 3
    | .counting => 2
    | .done => 0

/-- The ticks that the consumer may still have to pop. -/
def State.toPop (s : State) : ℕ :=
  s.todo.length + s.sender.inHand.length + (s.queue.pushed.length - s.queue.popped.length)

/-- What another round of the loop costs, while there may be one. -/
def State.round (s : State) : ℕ := if s.seenDone then 0 else 4

/-- The steps before the consumer, up to the rounds in which it reads `producer_done` as
`false`. -/
def drainerWork (s : State) : ℕ :=
  match s.drainer with
  | .looping => if s.seenDone ∧ s.toPop = 0 then 5 else 5 * s.toPop + 9
  | .sawDone => if s.toPop = 0 then 4 else 5 * s.toPop + 8
  | .popping false => 5 * s.toPop + popWork s.queue.consumer + 4 + s.round
  | .handling false _ => 5 * s.toPop + 8 + s.round
  -- in the `run_once` after the loop the queue is empty
  | .popping true => popWork s.queue.consumer
  | .handling true _ => 4
  | .joining => 1
  | .joined => 0

/-- What a step does to the two measures. -/
structure Pays (s : State) (a : Action) (s' : State) : Prop where
  sender : senderWork s' + a.bySender.toNat ≤ senderWork s
  drainer : drainerWork s' + (!a.bySender).toNat ≤ drainerWork s + 3 * a.spins.toNat
  /-- After the flag has been read as `true` it is not read as `false` any more. -/
  seen : s.seenDone = true → s'.seenDone = true ∧ a.spins = false

variable {q : SPSCQueue.Capacity} {ticks : List MarketTick} {s s' : State}

/-! ### The producer's steps -/

/-- A step of the producer does not raise the consumer's measure if it leaves no more to pop. -/
theorem RealtimeInv.drainerWork_le (h : RealtimeInv q ticks s) (hs : s.sender ≠ .done)
    (hd : s'.drainer = s.drainer) (hseen : s'.seenDone = s.seenDone)
    (hc : s'.queue.consumer = s.queue.consumer) (hpop : s'.toPop ≤ s.toPop) :
    drainerWork s' ≤ drainerWork s := by
  have hfalse := h.seenDone_eq_false hs
  have hsaw := h.drainer.sawDone
  have hleft := h.drainer.left
  rw [hfalse] at hsaw hleft
  unfold drainerWork State.round
  rw [hd, hseen, hc, hfalse]
  cases hdrainer : s.drainer with
  | looping => simpa using Nat.mul_le_mul_left 5 hpop
  | sawDone => cases hsaw hdrainer
  | popping last =>
    cases last with
    | false => simpa using Nat.mul_le_mul_left 5 hpop
    | true => rfl
  | handling last tick =>
    cases last with
    | false => simpa using Nat.mul_le_mul_left 5 hpop
    | true => rfl
  | joining => rfl
  | joined => rfl

theorem RealtimeInv.pays_of_sender {a : Action} (h : RealtimeInv q ticks s)
    (ha : a.bySender = true) (hspins : a.spins = false) (hs : s.sender ≠ .done)
    (hd : s'.drainer = s.drainer) (hseen : s'.seenDone = s.seenDone)
    (hc : s'.queue.consumer = s.queue.consumer) (hsender : senderWork s' + 1 ≤ senderWork s)
    (hpop : s'.toPop ≤ s.toPop) : Pays s a s' where
  sender := by rw [ha]; exact hsender
  drainer := by rw [ha, hspins]; exact h.drainerWork_le hs hd hseen hc hpop
  seen hs' := ⟨hseen.trans hs', hspins⟩

theorem RealtimeInv.pays_send {now : ℕ} (h : RealtimeInv q ticks s)
    (hs : Realtime.step q s (.send now) = some s') : Pays s (.send now) s' := by
  cases hsender : s.sender with
  | looping =>
    cases htodo : s.todo with
    | nil => simp [Realtime.step, hsender, htodo] at hs
    | cons tick todo =>
      simp only [Realtime.step, hsender, htodo, Option.map_eq_some_iff] at hs
      obtain ⟨queue, hq, rfl⟩ := hs
      obtain ⟨-, rfl⟩ := SPSCQueue.step_pushLoadTail hq
      refine h.pays_of_sender rfl rfl (by simp [hsender]) rfl rfl rfl ?_ ?_
      · simp only [senderWork, pushWork, hsender, htodo, List.length_cons]
        omega
      · simp [State.toPop, Sender.inHand, hsender, htodo]
  | _ => simp [Realtime.step, hsender] at hs

theorem RealtimeInv.pays_loadHead {position : ℕ} (h : RealtimeInv q ticks s)
    (hs : Realtime.step q s (.loadHead position) = some s') : Pays s (.loadHead position) s' := by
  cases hsender : s.sender with
  | pushing tick =>
    simp only [Realtime.step, hsender, Option.map_eq_some_iff] at hs
    obtain ⟨queue, hq, rfl⟩ := hs
    obtain ⟨value, tail, head, hp, -, -, ⟨-, rfl⟩ | ⟨-, rfl⟩⟩ := SPSCQueue.step_pushLoadHead hq
    · -- the tick is dropped
      refine h.pays_of_sender rfl rfl (by simp [hsender]) rfl rfl rfl ?_ ?_
      · simp [senderWork, pushWork, hsender, hp]
      · simp [State.toPop, Sender.inHand, hsender]
    · refine h.pays_of_sender rfl rfl (by simp [hsender]) rfl rfl rfl ?_ ?_
      · simp [senderWork, pushWork, hsender, hp]
      · simp [State.toPop, Sender.inHand, hsender]
  | _ => simp [Realtime.step, hsender] at hs

theorem RealtimeInv.pays_construct (h : RealtimeInv q ticks s)
    (hs : Realtime.step q s .construct = some s') : Pays s .construct s' := by
  cases hsender : s.sender with
  | pushing tick =>
    simp only [Realtime.step, hsender, Option.map_eq_some_iff] at hs
    obtain ⟨queue, hq, rfl⟩ := hs
    obtain ⟨value, tail, hp, rfl⟩ := SPSCQueue.step_pushConstruct hq
    refine h.pays_of_sender rfl rfl (by simp [hsender]) rfl rfl rfl ?_ ?_
    · simp [senderWork, pushWork, hsender, hp]
    · simp [State.toPop, Sender.inHand, hsender]
  | _ => simp [Realtime.step, hsender] at hs

theorem RealtimeInv.pays_storeTail (h : RealtimeInv q ticks s)
    (hs : Realtime.step q s .storeTail = some s') : Pays s .storeTail s' := by
  cases hsender : s.sender with
  | pushing tick =>
    simp only [Realtime.step, hsender, Option.map_eq_some_iff] at hs
    obtain ⟨queue, hq, rfl⟩ := hs
    obtain ⟨value, tail, hp, rfl⟩ := SPSCQueue.step_pushStoreTail hq
    refine h.pays_of_sender rfl rfl (by simp [hsender]) rfl rfl rfl ?_ ?_
    · simp [senderWork, pushWork, hsender, hp]
    · -- from the producer's hand into the queue
      have := h.queue.lo_le
      simp only [State.toPop, Sender.inHand, hsender, List.length_append, List.length_singleton,
        List.length_nil]
      omega
  | _ => simp [Realtime.step, hsender] at hs

theorem RealtimeInv.pays_count (h : RealtimeInv q ticks s)
    (hs : Realtime.step q s .count = some s') : Pays s .count s' := by
  cases hsender : s.sender with
  | counting =>
    simp only [Realtime.step, hsender, Option.some.injEq] at hs
    subst hs
    refine h.pays_of_sender rfl rfl (by simp [hsender]) rfl rfl rfl ?_ ?_
    · simp [senderWork, hsender]
    · simp [State.toPop, Sender.inHand, hsender]
  | _ => simp [Realtime.step, hsender] at hs

theorem RealtimeInv.pays_storeDone (h : RealtimeInv q ticks s)
    (hs : Realtime.step q s .storeDone = some s') : Pays s .storeDone s' := by
  cases hsender : s.sender with
  | looping =>
    cases htodo : s.todo with
    | cons => simp [Realtime.step, hsender, htodo] at hs
    | nil =>
      simp only [Realtime.step, hsender, htodo, Option.some.injEq] at hs
      subst hs
      refine h.pays_of_sender rfl rfl (by simp [hsender]) rfl rfl rfl ?_ ?_
      · simp [senderWork, hsender, htodo]
      · simp [State.toPop, Sender.inHand, hsender]
  | _ => simp [Realtime.step, hsender] at hs

/-! ### The consumer's steps -/

/-- After the producer's last store only what is in the queue can still be popped. -/
theorem RealtimeInv.toPop_eq (h : RealtimeInv q ticks s) (hdone : s.sender = .done) :
    s.toPop = s.queue.pushed.length - s.queue.popped.length := by
  simp [State.toPop, hdone, (h.sender.done hdone).1, Sender.inHand]

theorem RealtimeInv.sender_eq_done (h : RealtimeInv q ticks s) (hseen : s.seenDone = true) :
    s.sender = .done :=
  h.sender.producerDone (h.drainer.seen hseen).1

/-- **The consumer sees the final `tail_`** once it has seen the end of the producer. -/
theorem RealtimeInv.seenTail_eq (h : RealtimeInv q ticks s) (hseen : s.seenDone = true) :
    s.queue.seenTail = s.queue.pushed.length := by
  have hdone := h.sender.done (h.sender_eq_done hseen)
  have hle := (h.drainer.seen hseen).2
  rw [hdone.2] at hle
  exact Nat.le_antisymm h.queue.seenTail_le hle

/-- A step of the consumer leaves the producer's measure as it is. -/
theorem pays_of_drainer {a : Action} (ha : a.bySender = false)
    (hsender : senderWork s' = senderWork s)
    (hseen : s.seenDone = true → s'.seenDone = true ∧ a.spins = false)
    (hdrainer : drainerWork s' + 1 ≤ drainerWork s + 3 * a.spins.toNat) : Pays s a s' where
  sender := by rw [ha, hsender]; rfl
  drainer := by rw [ha]; exact hdrainer
  seen := hseen

theorem RealtimeInv.pays_loadDone {value : Bool} (h : RealtimeInv q ticks s)
    (hs : Realtime.step q s (.loadDone value) = some s') : Pays s (.loadDone value) s' := by
  cases hdrainer : s.drainer with
  | looping =>
    simp only [Realtime.step, hdrainer, Option.ite_none_right_eq_some] at hs
    obtain ⟨⟨hpub, hcoh⟩, hs⟩ := hs
    have hready := h.drainer.ready (by rw [hdrainer]; exact id)
    cases value with
    | false =>
      -- another round
      rw [if_neg Bool.false_ne_true] at hs
      cases hs
      have hseen : s.seenDone = false :=
        Bool.eq_false_iff.mpr fun hs => Bool.false_ne_true (hcoh hs)
      refine pays_of_drainer rfl rfl (fun hs => absurd (hcoh hs) Bool.false_ne_true) ?_
      simp [drainerWork, State.round, State.toPop, hdrainer, hready, popWork, hseen, Action.spins]
    | true =>
      rw [if_pos rfl] at hs
      cases hs
      refine pays_of_drainer rfl rfl (fun _ => ⟨rfl, rfl⟩) ?_
      show (if s.toPop = 0 then 4 else 5 * s.toPop + 8) + 1 ≤ drainerWork s + 3 * 0
      simp only [drainerWork, hdrainer]
      split_ifs <;> omega
  | _ => simp [Realtime.step, hdrainer] at hs

/-- **The exit test** sees what is in the queue. -/
theorem RealtimeInv.pays_testEmpty {position : ℕ} (h : RealtimeInv q ticks s)
    (hs : Realtime.step q s (.testEmpty position) = some s') : Pays s (.testEmpty position) s' := by
  cases hdrainer : s.drainer with
  | sawDone =>
    cases hl : s.queue.tailLog[position]? with
    | none => simp [Realtime.step, hdrainer, hl] at hs
    | some tail =>
      simp only [Realtime.step, hdrainer, hl, Option.ite_none_right_eq_some,
        Option.some.injEq] at hs
      obtain ⟨hle, rfl⟩ := hs
      have hseen := h.drainer.sawDone hdrainer
      have hready := h.drainer.ready (by rw [hdrainer]; exact id)
      have htail := h.seenTail_eq hseen
      have hpop := h.toPop_eq (h.sender_eq_done hseen)
      rw [h.queue.tailLog] at hl
      obtain ⟨hpos, rfl⟩ := SPSCQueue.getElem?_indices hl
      obtain rfl : position = s.queue.pushed.length := by omega
      refine pays_of_drainer rfl rfl (⟨·, rfl⟩) ?_
      have hempty := h.queue.isEmpty_iff
      have hwork : drainerWork s = if s.toPop = 0 then 4 else 5 * s.toPop + 8 := by
        simp only [drainerWork, hdrainer]
      rw [hwork, hpop]
      by_cases he : s.queue.popped.length = s.queue.pushed.length
      · rw [decide_eq_true (hempty.mpr he)]
        simp [drainerWork, he, hready, popWork]
      · rw [decide_eq_false (mt hempty.mp he)]
        have := h.queue.lo_le
        show 5 * s.toPop + popWork s.queue.consumer + 4 + s.round + 1 ≤ _
        rw [hpop, hready, State.round, if_pos hseen, if_neg (by omega)]
        simp only [popWork]
        omega
  | _ => simp [Realtime.step, hdrainer] at hs

theorem pays_popLoadHead (hs : Realtime.step q s .popLoadHead = some s') :
    Pays s .popLoadHead s' := by
  cases hdrainer : s.drainer with
  | popping last =>
    simp only [Realtime.step, hdrainer, Option.map_eq_some_iff] at hs
    obtain ⟨queue, hq, rfl⟩ := hs
    obtain ⟨hready, rfl⟩ := SPSCQueue.step_popLoadHead hq
    refine pays_of_drainer rfl rfl (⟨·, rfl⟩) ?_
    cases last <;>
      simp only [drainerWork, State.round, State.toPop, popWork, hdrainer, hready, Action.spins] <;>
      omega
  | _ => simp [Realtime.step, hdrainer] at hs

/-- When `try_pop` finds the queue empty after the producer's end, it is. -/
theorem RealtimeInv.pays_popLoadTail {position : ℕ} (h : RealtimeInv q ticks s)
    (hs : Realtime.step q s (.popLoadTail position) = some s') :
    Pays s (.popLoadTail position) s' := by
  cases hdrainer : s.drainer with
  | popping last =>
    simp only [Realtime.step, hdrainer, Option.map_eq_some_iff] at hs
    obtain ⟨queue, hq, rfl⟩ := hs
    obtain ⟨head, tail, hc, hl, hle, ⟨he, rfl⟩ | ⟨hne, rfl⟩⟩ := SPSCQueue.step_popLoadTail hq
    · refine pays_of_drainer rfl rfl (⟨·, rfl⟩) ?_
      cases last with
      | true => simp [drainerWork, hdrainer, hc, popWork]
      | false =>
        cases hseen : s.seenDone with
        | false =>
          simp [drainerWork, hdrainer, hc, popWork, hseen, State.round, State.toPop]
        | true =>
          -- the `tail_` it has loaded is the final one
          have hcons := h.queue.consumer
          have hpop := h.toPop_eq (h.sender_eq_done hseen)
          have hfinal := h.seenTail_eq hseen
          simp only [SPSCQueue.ConsumerInv, hc] at hcons
          rw [h.queue.tailLog] at hl
          obtain ⟨hpos, rfl⟩ := SPSCQueue.getElem?_indices hl
          obtain rfl : position = s.queue.pushed.length := by omega
          have hempty : s.queue.popped.length = s.queue.pushed.length :=
            h.queue.isEmpty_iff.mp (by rw [h.queue.headLog, SPSCQueue.latest_indices, ← hcons, he])
          rw [hempty, Nat.sub_self] at hpop
          rw [State.toPop] at hpop
          simp [drainerWork, hdrainer, hc, popWork, hseen, State.round, State.toPop, hpop]
    · refine pays_of_drainer rfl rfl (⟨·, rfl⟩) ?_
      cases last <;>
        simp only [drainerWork, State.round, State.toPop, popWork, hdrainer, hc, Action.spins] <;>
        omega
  | _ => simp [Realtime.step, hdrainer] at hs

theorem pays_popTake (hs : Realtime.step q s .popTake = some s') : Pays s .popTake s' := by
  cases hdrainer : s.drainer with
  | popping last =>
    simp only [Realtime.step, hdrainer, Option.map_eq_some_iff] at hs
    obtain ⟨queue, hq, rfl⟩ := hs
    obtain ⟨head, hc, rfl⟩ := SPSCQueue.step_popTake hq
    refine pays_of_drainer rfl rfl (⟨·, rfl⟩) ?_
    cases last <;>
      simp only [drainerWork, State.round, State.toPop, popWork, hdrainer, hc, Action.spins] <;>
      omega
  | _ => simp [Realtime.step, hdrainer] at hs

/-- One less to pop. The last `run_once` does not come here. -/
theorem RealtimeInv.pays_popStoreHead (h : RealtimeInv q ticks s)
    (hs : Realtime.step q s .popStoreHead = some s') : Pays s .popStoreHead s' := by
  have hlo := h.queue.lo_le
  have hleft := h.drainer.left
  cases hdrainer : s.drainer with
  | popping last =>
    cases hconsumer : s.queue.consumer with
    | taken result head =>
      simp only [Realtime.step, hdrainer, hconsumer, Option.map_eq_some_iff] at hs
      obtain ⟨queue, hq, rfl⟩ := hs
      obtain ⟨result', head', hc, rfl⟩ := SPSCQueue.step_popStoreHead hq
      rw [hconsumer, SPSCQueue.Consumer.emptied] at hlo
      refine pays_of_drainer rfl rfl (⟨·, rfl⟩) ?_
      cases last with
      | true =>
        rw [hdrainer] at hleft
        have := (hleft rfl).2
        omega
      | false =>
        simp only [drainerWork, State.round, State.toPop, popWork, hdrainer, hconsumer,
          Action.spins, List.length_append, List.length_singleton]
        omega
    | _ => simp [Realtime.step, hdrainer, hconsumer] at hs
  | _ => simp [Realtime.step, hdrainer] at hs

theorem RealtimeInv.pays_handle (h : RealtimeInv q ticks s)
    (hs : Realtime.step q s .handle = some s') : Pays s .handle s' := by
  cases hdrainer : s.drainer with
  | handling last tick =>
    have hready := h.drainer.ready (by rw [hdrainer]; exact id)
    simp only [Realtime.step, hdrainer, Option.some.injEq] at hs
    subst hs
    refine pays_of_drainer rfl rfl (⟨·, rfl⟩) ?_
    cases last <;>
      simp only [drainerWork, State.round, State.toPop, popWork, hdrainer, hready, Action.spins] <;>
      omega
  | _ => simp [Realtime.step, hdrainer] at hs

theorem pays_join (hs : Realtime.step q s .join = some s') : Pays s .join s' := by
  cases hdrainer : s.drainer with
  | joining =>
    cases hsender : s.sender with
    | done =>
      simp only [Realtime.step, hdrainer, hsender, Option.some.injEq] at hs
      subst hs
      refine pays_of_drainer rfl (by simp [senderWork, hsender]) (⟨·, rfl⟩) ?_
      simp [drainerWork, hdrainer]
    | _ => simp [Realtime.step, hdrainer, hsender] at hs
  | _ => simp [Realtime.step, hdrainer] at hs

/-- **What a step does to the two measures.** -/
theorem RealtimeInv.pays {a : Action} (h : RealtimeInv q ticks s)
    (hs : Realtime.step q s a = some s') : Pays s a s' := by
  cases a with
  | send now => exact h.pays_send hs
  | loadHead position => exact h.pays_loadHead hs
  | construct => exact h.pays_construct hs
  | storeTail => exact h.pays_storeTail hs
  | count => exact h.pays_count hs
  | storeDone => exact h.pays_storeDone hs
  | loadDone value => exact h.pays_loadDone hs
  | testEmpty position => exact h.pays_testEmpty hs
  | popLoadHead => exact pays_popLoadHead hs
  | popLoadTail position => exact h.pays_popLoadTail hs
  | popTake => exact pays_popTake hs
  | popStoreHead => exact h.pays_popStoreHead hs
  | handle => exact h.pays_handle hs
  | join => exact pays_join hs

/-! ### Neither thread is ever stuck -/

/-- The latest value of an index can be loaded. -/
theorem getElem?_indices_self (q : SPSCQueue.Capacity) (n : ℕ) :
    (SPSCQueue.indices q n)[n]? = some (n % q.cap) := by
  simp [SPSCQueue.indices]

/-- The producer waits for nobody. -/
theorem RealtimeInv.exists_step_sender (h : RealtimeInv q ticks s) (hs : s.sender ≠ .done) :
    ∃ a, a.bySender = true ∧ (Realtime.step q s a).isSome := by
  have hflight := h.sender.inFlight
  cases hsender : s.sender with
  | looping =>
    cases htodo : s.todo with
    | nil => exact ⟨.storeDone, rfl, by simp [Realtime.step, hsender, htodo]⟩
    | cons tick todo =>
      refine ⟨.send 0, rfl, ?_⟩
      rw [hsender, Sender.inHand, List.map_nil, List.map_eq_nil_iff] at hflight
      cases hp : s.queue.producer with
      | ready => simp [Realtime.step, SPSCQueue.step, hsender, htodo, hp]
      | _ => rw [hp] at hflight; cases hflight
  | pushing tick =>
    rw [hsender, Sender.inHand] at hflight
    cases hp : s.queue.producer with
    | ready => rw [hp] at hflight; cases hflight
    | loadedTail value tail =>
      refine ⟨.loadHead s.queue.popped.length, rfl, ?_⟩
      simp only [Realtime.step, SPSCQueue.step, hsender, hp, h.queue.headLog,
        getElem?_indices_self, if_pos h.queue.seenHead_le]
      split_ifs <;> rfl
    | checked value tail =>
      exact ⟨.construct, rfl, by simp [Realtime.step, SPSCQueue.step, hsender, hp]⟩
    | built value tail =>
      exact ⟨.storeTail, rfl, by simp [Realtime.step, SPSCQueue.step, hsender, hp]⟩
  | counting => exact ⟨.count, rfl, by simp [Realtime.step, hsender]⟩
  | done => exact absurd hsender hs

/-- The consumer waits for nobody either: when it comes to `join`, the producer has returned. -/
theorem RealtimeInv.exists_step_drainer (h : RealtimeInv q ticks s) (hs : s.drainer ≠ .joined) :
    ∃ a, a.bySender = false ∧ (Realtime.step q s a).isSome := by
  cases hdrainer : s.drainer with
  | looping =>
    refine ⟨.loadDone s.seenDone, rfl, ?_⟩
    simp only [Realtime.step, hdrainer]
    rw [if_pos ⟨fun hseen => (h.drainer.seen hseen).1, id⟩]
    split_ifs <;> rfl
  | sawDone =>
    refine ⟨.testEmpty s.queue.pushed.length, rfl, ?_⟩
    simp [Realtime.step, hdrainer, h.queue.tailLog, h.queue.seenTail_le]
  | popping last =>
    cases hc : s.queue.consumer with
    | ready => exact ⟨.popLoadHead, rfl, by simp [Realtime.step, SPSCQueue.step, hdrainer, hc]⟩
    | loadedHead head =>
      refine ⟨.popLoadTail s.queue.pushed.length, rfl, ?_⟩
      simp only [Realtime.step, SPSCQueue.step, hdrainer, hc, h.queue.tailLog,
        getElem?_indices_self, if_pos h.queue.seenTail_le]
      split_ifs <;> rfl
    | checked head => exact ⟨.popTake, rfl, by simp [Realtime.step, SPSCQueue.step, hdrainer, hc]⟩
    | taken result head =>
      exact ⟨.popStoreHead, rfl, by simp [Realtime.step, SPSCQueue.step, hdrainer, hc]⟩
  | handling last tick => exact ⟨.handle, rfl, by simp [Realtime.step, hdrainer]⟩
  | joining =>
    have hdone := h.done_of_left (by rw [hdrainer]; trivial)
    exact ⟨.join, rfl, by simp [Realtime.step, hdrainer, hdone]⟩
  | joined => exact absurd hdrainer hs

/-! ### The end of the replay -/

/-- After it has read `producer_done` as `true`, the consumer has no more to do than to empty a
queue that is not filled any more. -/
theorem RealtimeInv.work_le (h : RealtimeInv q ticks s) (hseen : s.seenDone = true) :
    senderWork s + drainerWork s ≤ 5 * q.cap + 4 := by
  have hdone := h.sender_eq_done hseen
  have hpop := h.toPop_eq hdone
  have hahead := h.queue.ahead
  have hhead := h.queue.seenHead_le
  have hsender : senderWork s = 0 := by simp [senderWork, hdone, (h.sender.done hdone).1]
  have hpos := q.pos
  have hwork : popWork s.queue.consumer ≤ 3 := by cases s.queue.consumer <;> simp [popWork]
  rw [hsender, drainerWork, State.round, if_pos hseen]
  split <;> (try split_ifs) <;> omega

/-- One step of either thread, against the sum of the measures. -/
theorem RealtimeInv.work_step {a : Action} (h : RealtimeInv q ticks s)
    (hs : Realtime.step q s a = some s') :
    senderWork s' + drainerWork s' + 1 ≤ senderWork s + drainerWork s + 3 * a.spins.toNat := by
  have hpays := h.pays hs
  have h1 := hpays.sender
  have h2 := hpays.drainer
  cases hb : a.bySender <;>
    simp only [hb, Bool.not_true, Bool.not_false, Bool.toNat_true, Bool.toNat_false] at h1 h2 <;>
    omega

/-- **The replay comes to an end**, under every interleaving. The length of a run is bounded by the
number of ticks and of the readings of `producer_done` as `false`; the producer's part by the
number of ticks alone, whatever the consumer does; and what follows the reading of `producer_done`
as `true` by the capacity alone. Until the join no thread is ever stuck: whichever has not ended
has a step it can take, without waiting for the other. -/
theorem ends_of_run (q : SPSCQueue.Capacity) (ticks : List MarketTick) (as : List Action)
    (s : State) (h : runActions (Realtime.step q) as (start ticks) = some s) :
    as.length ≤ 10 * ticks.length + 10 + 3 * as.countP Action.spins ∧
    as.countP Action.bySender ≤ 5 * ticks.length + 1 ∧
    (s.seenDone = true → ∀ bs s', runActions (Realtime.step q) bs s = some s' →
      bs.length ≤ 5 * q.cap + 4) ∧
    (s.sender ≠ .done → ∃ a, a.bySender = true ∧ (Realtime.step q s a).isSome) ∧
    (s.drainer ≠ .joined → ∃ a, a.bySender = false ∧ (Realtime.step q s a).isSome) := by
  have hI := realtimeInv_of_run h
  refine ⟨?_, ?_, fun hseen bs s' hbs => ?_, hI.exists_step_sender, hI.exists_step_drainer⟩
  · have hrun := countP_add_le_of_runActions (fun s => senderWork s + drainerWork s) (fun _ => true)
      Action.spins 3 (fun _ _ _ hI hs => hI.step hs) (fun _ _ _ hI hs => hI.work_step hs)
      (realtimeInv_start q ticks) h
    rw [List.countP_true] at hrun
    have hstart :
        senderWork (start ticks) + drainerWork (start ticks) = 10 * ticks.length + 10 := by
      have hpop : (start ticks).toPop = ticks.length := rfl
      have hdrainer : drainerWork (start ticks) = 5 * (start ticks).toPop + 9 := by
        simp [drainerWork, start]
      have hsender : senderWork (start ticks) = 5 * ticks.length + 1 := rfl
      omega
    omega
  · have hrun := countP_add_le_of_runActions senderWork Action.bySender (fun _ => false) 0
      (fun _ _ _ hI hs => hI.step hs) (fun _ _ _ hI hs => (hI.pays hs).sender)
      (realtimeInv_start q ticks) h
    have hstart : senderWork (start ticks) = 5 * ticks.length + 1 := rfl
    omega
  · -- nothing is paid for any more
    have hrun := countP_add_le_of_runActions
      (I := fun s => RealtimeInv q ticks s ∧ s.seenDone = true)
      (fun s => senderWork s + drainerWork s) (fun _ => true) (fun _ => false) 3
      (fun _ _ _ hI hs => ⟨hI.1.step hs, ((hI.1.pays hs).seen hI.2).1⟩)
      (fun _ _ _ hI hs => by
        have hstep := hI.1.work_step hs
        rw [((hI.1.pays hs).seen hI.2).2] at hstep
        exact hstep) ⟨hI, hseen⟩ hbs
    have hwork := hI.work_le hseen
    rw [List.countP_true, List.countP_false, Function.const_apply] at hrun
    omega

theorem ends_of_run_lateDone :
    ∃ s, runActions (Realtime.step ⟨2, by decide, by decide⟩) lateDone
        (start [⟨1, 9, 11, 5, 5, 10, 1, 0, 0⟩, ⟨1, 9, 12, 5, 5, 10, 1, 0, 0⟩]) = some s ∧
      lateDone.length ≤ 10 * 2 + 10 + 3 * lateDone.countP Action.spins := by
  have hsome : (runActions (Realtime.step ⟨2, by decide, by decide⟩) lateDone
      (start [⟨1, 9, 11, 5, 5, 10, 1, 0, 0⟩, ⟨1, 9, 12, 5, 5, 10, 1, 0, 0⟩])).map State.drainer =
        some .joined := by decide +kernel
  obtain ⟨s, hs, -⟩ := Option.map_eq_some_iff.mp hsome
  exact ⟨s, hs, (ends_of_run _ _ _ _ hs).1⟩

end Realtime

end MiniTrader
