import MiniTrader.Lib.Runs
import MiniTrader.Lib.ReleaseAcquire
import Mathlib.Data.Nat.Count

/-!
# A ring buffer on two threads

One thread puts elements into a ring buffer and another takes them out, and all they share besides
the slots are two counters, `head` and `tail`. A thread loads its own counter relaxed and the other
one's with acquire, and stores its own with release. How the counters are represented, when the
queue is full and what an access leaves in a slot are parameters: `Ring` is the code and `Lawful` is
what has to be true of it.

## Why there is no race

The slots are accessed in turn: an element is put into its slot, taken out of it, the next one is
put into it, and so on. A thread that has loaded position `p` of the other counter knows of all that
the other one did before. The producer goes on if its counter is less than `bound` ahead of `p`;
then the last element of its slot is among those the consumer had taken out by then. The consumer
goes on if its counter is not `p`, and then it is below `p`.

## Main definitions

* `Ring`, `Lawful` — the code and its laws
* `State`, `Action`, `step`
* `Party` — what a thread knows of its own accesses and of the other's
* `Inv` — the invariant

## Main results

* `Inv.step` — every step of either thread keeps the invariant
* `raceFree_of_run` — no races, first in first out, at most `bound` elements
-/

namespace MiniTrader

open Fuelled

namespace SharedRing

open ReleaseAcquire

/-! ### The code -/

/-- The counters. -/
inductive Counter where
  | head
  | tail
  deriving DecidableEq

/-- The thread that puts elements in and the one that takes them out. -/
inductive Thread where
  | producer
  | consumer
  deriving DecidableEq

/-- Where the producer is. -/
inductive Pushing (T : Type) where
  /-- Not in a call. -/
  | ready
  /-- After loading `tail`. -/
  | loadedTail (val : T) (t : ℕ)
  /-- After loading `head` and finding the queue not full. -/
  | checked (val : T) (t : ℕ)
  /-- After putting the value into the slot. -/
  | placed (val : T) (t : ℕ)

/-- Where the consumer is. -/
inductive Popping (V : Type) where
  /-- Not in a call. -/
  | ready
  /-- After loading `head`. -/
  | loadedHead (h : ℕ)
  /-- After loading `tail` and finding the queue not empty. -/
  | checked (h : ℕ)
  /-- After taking the contents of the slot. -/
  | taken (val : V) (h : ℕ)

/-- The shared memory, the two threads, and what their calls have done. -/
structure State (T V : Type) where
  memory : Memory ℕ Counter Thread ℕ V
  producer : Pushing T
  consumer : Popping V
  /-- The values that have been put in by calls that returned, in order. -/
  pushed : List T
  /-- The contents that have been taken out by calls that returned, in order. -/
  popped : List V

/-- One step of one thread. A load says which value of the counter it returns, by its position. -/
inductive Action (T : Type) where
  | pushLoadTail (val : T) (position : ℕ)
  | pushLoadHead (position : ℕ)
  | pushPlace
  | pushStoreTail
  | popLoadHead (position : ℕ)
  | popLoadTail (position : ℕ)
  | popTake
  | popStoreHead

variable {T V : Type}

/-- How the counters are represented, and what the accesses leave in a slot. -/
structure Ring (T V : Type) where
  /-- Whether a queue with this tail and this head is full. -/
  full : ℕ → ℕ → Bool
  slot : ℕ → ℕ
  next : ℕ → ℕ
  put : T → V
  left : V → V

/-- Both counters have the same value, and the slots have some contents. -/
def init (start : ℕ) (buf : ℕ → V) : State T V where
  memory := .init (fun _ => start) buf
  producer := .ready
  consumer := .ready
  pushed := []
  popped := []

/-- One step; `none` if the thread is elsewhere in its program, or a load would return a value that
it cannot return. -/
def step (r : Ring T V) (s : State T V) : Action T → Option (State T V)
  | .pushLoadTail val position =>
    match s.producer with
    | .ready => (s.memory.loadRelaxed .producer .tail position).map fun l =>
      { s with memory := l.2, producer := .loadedTail val l.1 }
    | _ => none
  | .pushLoadHead position =>
    match s.producer with
    | .loadedTail val t => (s.memory.loadAcquire .producer .head position).map fun l =>
      if r.full t l.1 then { s with memory := l.2, producer := .ready }
      else { s with memory := l.2, producer := .checked val t }
    | _ => none
  | .pushPlace =>
    match s.producer with
    | .checked val t => some { s with
        memory := s.memory.access .producer (r.slot t) (r.put val)
        producer := .placed val t }
    | _ => none
  | .pushStoreTail =>
    match s.producer with
    | .placed val t => some { s with
        memory := s.memory.storeRelease .producer .tail (r.next t)
        producer := .ready
        pushed := s.pushed ++ [val] }
    | _ => none
  | .popLoadHead position =>
    match s.consumer with
    | .ready => (s.memory.loadRelaxed .consumer .head position).map fun l =>
      { s with memory := l.2, consumer := .loadedHead l.1 }
    | _ => none
  | .popLoadTail position =>
    match s.consumer with
    | .loadedHead h => (s.memory.loadAcquire .consumer .tail position).map fun l =>
      if h = l.1 then { s with memory := l.2, consumer := .ready }
      else { s with memory := l.2, consumer := .checked h }
    | _ => none
  | .popTake =>
    match s.consumer with
    | .checked h => some { s with
        memory := s.memory.access .consumer (r.slot h) (r.left (s.memory.contents (r.slot h)))
        consumer := .taken (s.memory.contents (r.slot h)) h }
    | _ => none
  | .popStoreHead =>
    match s.consumer with
    | .taken val h => some { s with
        memory := s.memory.storeRelease .consumer .head (r.next h)
        consumer := .ready
        popped := s.popped ++ [val] }
    | _ => none

/-- The slot of element `k`, if the counters run through `value`. -/
def Ring.slotOf (r : Ring T V) (value : ℕ → ℕ) (k : ℕ) : ℕ := r.slot (value k)

/-- The laws: the counters run through `value`, the queue is full with `bound` elements, and so many
have different slots. -/
structure Ring.Lawful (r : Ring T V) (value : ℕ → ℕ) (bound : ℕ) : Prop where
  next_value : ∀ n, r.next (value n) = value (n + 1)
  full_value : ∀ {p n}, p ≤ n → n ≤ p + bound →
    (r.full (value n) (value p) = true ↔ n = p + bound)
  slot_ne : ∀ {i j}, i < j → j < i + bound → r.slotOf value i ≠ r.slotOf value j

/-! ### Slots -/

variable {r : Ring T V} {value cell : ℕ → ℕ} {bound i j k n p : ℕ} {s s' : State T V} {v : T}

/-- How many of the first `n` elements have had the slot, if element `k` has slot `cell k`. -/
def visits (cell : ℕ → ℕ) (i n : ℕ) : ℕ := Nat.count (fun k => cell k = i) n

theorem visits_succ_self : visits cell (cell n) (n + 1) = visits cell (cell n) n + 1 := by
  rw [visits, Nat.count_succ, if_pos rfl]
  rfl

theorem visits_succ_of_ne (h : cell n ≠ i) : visits cell i (n + 1) = visits cell i n := by
  rw [visits, Nat.count_succ, if_neg h]
  rfl

theorem visits_mono (h : p ≤ n) : visits cell i p ≤ visits cell i n := Nat.count_monotone _ h

/-- Nobody has had the slot in between. -/
theorem visits_eq_of_ne (hpn : p ≤ n) (h : ∀ k, p ≤ k → k < n → cell k ≠ i) :
    visits cell i n = visits cell i p := by
  induction n, hpn using Nat.le_induction with
  | base => rfl
  | succ n hpn ih =>
    rw [visits_succ_of_ne (h n hpn n.lt_succ_self),
      ih fun k hk hlt => h k hk (hlt.trans n.lt_succ_self)]

/-- **The slot of the next element** is free as far as `p` is not a whole round behind. -/
theorem Ring.Lawful.visits_of_lt (hr : r.Lawful value bound) (hpn : p ≤ n) (hlt : n < p + bound) :
    visits (r.slotOf value) (r.slotOf value n) p = visits (r.slotOf value) (r.slotOf value n) n :=
  (visits_eq_of_ne hpn fun k hk hkn => hr.slot_ne hkn (by omega)).symm

/-- **The slot of the oldest element** has been used once more, while no element is a whole round
ahead. -/
theorem Ring.Lawful.visits_of_gt (hr : r.Lawful value bound) (hlt : p < n) (hle : n ≤ p + bound) :
    visits (r.slotOf value) (r.slotOf value p) n =
      visits (r.slotOf value) (r.slotOf value p) p + 1 := by
  rw [← visits_succ_self]
  exact visits_eq_of_ne hlt fun k hk hkn => (hr.slot_ne hk (by omega)).symm

/-! ### What is known -/

variable {w w' : View ℕ Counter} {own other : Counter} {slack slack' m inHand : ℕ}

/-- The view knows of the accesses to the slots that come with the first `n` elements: all but the
last one if `slack` is one, which is what one who has put them in and not seen them taken out knows,
and all of them if it is zero. -/
def Knows (cell : ℕ → ℕ) (slack : ℕ) (w : View ℕ Counter) (n : ℕ) : Prop :=
  ∀ i, 2 * visits cell i n ≤ w.1 i + slack

theorem knows_zero (cell : ℕ → ℕ) (slack : ℕ) (w : View ℕ Counter) :
    Knows cell slack w 0 := fun i => by
  rw [visits, Nat.count_zero]
  exact Nat.zero_le _

theorem Knows.mono (h : Knows cell slack w n) (hw : w ≤ w') : Knows cell slack w' n :=
  fun i => (h i).trans (Nat.add_le_add_right (hw.1 i) _)

/-- The values of a counter, and what their views know. -/
structure Released (cell value : ℕ → ℕ) (slack : ℕ) (k : Counter)
    (log : List (ℕ × View ℕ Counter)) (n : ℕ) : Prop where
  length : log.length = n + 1
  eq_value : ∀ {p a : ℕ} {w : View ℕ Counter}, log[p]? = some (a, w) → a = value p
  knows : ∀ {p a : ℕ} {w : View ℕ Counter}, log[p]? = some (a, w) → Knows cell slack w p
  position : ∀ {p a : ℕ} {w : View ℕ Counter}, log[p]? = some (a, w) → w.2 k ≤ p

theorem released_init (cell value : ℕ → ℕ) (slack : ℕ) (own : Counter) :
    Released cell value slack own [(value 0, ⊥)] 0 where
  length := rfl
  eq_value {p a w} h := by
    obtain ⟨hp, h⟩ := List.getElem?_eq_some_iff.mp h
    obtain rfl : p = 0 := by simpa using hp
    cases h
    rfl
  knows {p a w} h := by
    obtain ⟨hp, h⟩ := List.getElem?_eq_some_iff.mp h
    obtain rfl : p = 0 := by simpa using hp
    exact knows_zero cell slack w
  position {p a w} h := by
    obtain ⟨-, rfl⟩ := Prod.mk.inj (List.mem_singleton.mp (List.mem_of_getElem? h))
    exact Nat.zero_le _

/-- One more value. -/
theorem Released.append {log : List (ℕ × View ℕ Counter)} (h : Released cell value slack own log n)
    (hknows : Knows cell slack w (n + 1)) (hpos : w.2 own ≤ n + 1) :
    Released cell value slack own (log ++ [(value (n + 1), w)]) (n + 1) := by
  have hlen := h.length
  have hcases : ∀ {p a w'}, (log ++ [(value (n + 1), w)])[p]? = some (a, w') →
      log[p]? = some (a, w') ∨ p = n + 1 ∧ a = value p ∧ w' = w := by
    intro p a w' hp
    refine (of_getElem?_concat hp).imp_right ?_
    rintro ⟨rfl, heq⟩
    obtain ⟨rfl, rfl⟩ := Prod.mk.inj heq
    exact ⟨hlen, by rw [hlen], rfl⟩
  refine ⟨by rw [List.length_append, hlen, List.length_singleton], fun hp => ?_, fun hp => ?_,
    fun hp => ?_⟩
  · rcases hcases hp with hp | ⟨-, ha, -⟩
    exacts [h.eq_value hp, ha]
  · rcases hcases hp with hp | ⟨rfl, -, rfl⟩
    exacts [h.knows hp, hknows]
  · rcases hcases hp with hp | ⟨rfl, -, rfl⟩
    exacts [h.position hp, hpos]

/-- What a thread knows that has published `n` values of its own counter, and has `inHand` more
accesses done: of its own accesses, and of those the other one had done at the value of the other
counter that it has seen. -/
structure Party (cell : ℕ → ℕ) (own other : Counter) (slack slack' : ℕ)
    (w : View ℕ Counter) (n inHand : ℕ) : Prop where
  position : w.2 own = n
  done : Knows cell slack w (n + inHand)
  heard : Knows cell slack' w (w.2 other)

theorem atom_self (k : Counter) (p : ℕ) : (View.atom k p : View ℕ Counter).2 k = p :=
  Function.update_self ..

theorem atom_of_ne (h : own ≠ other) (p : ℕ) : (View.atom own p : View ℕ Counter).2 other = 0 :=
  Function.update_of_ne h.symm ..

/-- Loading the own counter tells nothing new. -/
theorem Party.loadOwn (h : Party cell own other slack slack' w n inHand) (hne : own ≠ other)
    (hp : p ≤ n) : Party cell own other slack slack' (w ⊔ .atom own p) n inHand where
  position := by
    show max (w.2 own) ((View.atom own p : View ℕ Counter).2 own) = n
    rw [atom_self, h.position]
    exact max_eq_left hp
  done := h.done.mono le_sup_left
  heard := by
    have hother : (w ⊔ View.atom own p : View ℕ Counter).2 other = w.2 other := by
      show max (w.2 other) ((View.atom own p : View ℕ Counter).2 other) = _
      rw [atom_of_ne hne]
      exact Nat.max_zero _
    rw [hother]
    exact h.heard.mono le_sup_left

/-- **Loading the other counter** tells what the other thread had done. -/
theorem Party.loadOther (h : Party cell own other slack slack' w n inHand) (hne : own ≠ other)
    (hp : w.2 other ≤ p) (hknows : Knows cell slack' w' p) (hpos : w'.2 other ≤ p)
    (hown : w'.2 own ≤ n) :
    Party cell own other slack slack' (w ⊔ (w' ⊔ .atom other p)) n inHand ∧
      (w ⊔ (w' ⊔ .atom other p)).2 other = p := by
  have hother : (w ⊔ (w' ⊔ .atom other p)).2 other = p := by
    show max (w.2 other) (max (w'.2 other) ((View.atom other p : View ℕ Counter).2 other)) = p
    rw [atom_self]
    omega
  refine ⟨⟨?_, h.done.mono le_sup_left, ?_⟩, hother⟩
  · show max (w.2 own) (max (w'.2 own) ((View.atom other p : View ℕ Counter).2 own)) = n
    rw [atom_of_ne hne.symm, h.position]
    omega
  · rw [hother]
    exact hknows.mono (le_sup_left.trans le_sup_right)

/-- The access to the slot of the next element, which has been accessed `m` times. -/
theorem Party.access (h : Party cell own other slack slack' w n 0)
    (hm : 2 * visits cell (cell n) n + 1 ≤ m + slack) :
    Party cell own other slack slack' (w ⊔ .cell (cell n) (m + 1)) n 1 where
  position := (Nat.max_zero _).trans h.position
  done i := by
    have hdone := h.done i
    show _ ≤ max (w.1 i) ((View.cell (cell n) (m + 1) : View ℕ Counter).1 i) + slack
    by_cases hi : cell n = i
    · subst hi
      rw [visits_succ_self]
      have hcell : (View.cell (cell n) (m + 1) : View ℕ Counter).1
          (cell n) = m + 1 := Function.update_self ..
      rw [hcell]
      omega
    · rw [visits_succ_of_ne hi]
      rw [Nat.add_zero] at hdone
      omega
  heard := by
    have hother : (w ⊔ View.cell (cell n) (m + 1) : View ℕ Counter).2 other =
        w.2 other := Nat.max_zero _
    rw [hother]
    exact h.heard.mono le_sup_left

/-- Publishing the next value of the own counter. -/
theorem Party.release (h : Party cell own other slack slack' w n 1) (hne : own ≠ other) :
    Party cell own other slack slack' (w ⊔ .atom own (n + 1)) (n + 1) 0 where
  position := by
    show max (w.2 own) ((View.atom own (n + 1) : View ℕ Counter).2 own) = n + 1
    rw [atom_self, h.position]
    omega
  done := h.done.mono le_sup_left
  heard := by
    have hother : (w ⊔ View.atom own (n + 1) : View ℕ Counter).2 other = w.2 other := by
      show max (w.2 other) ((View.atom own (n + 1) : View ℕ Counter).2 other) = _
      rw [atom_of_ne hne]
      exact Nat.max_zero _
    rw [hother]
    exact h.heard.mono le_sup_left

/-! ### The invariant -/

/-- The value that is in its slot and not yet published. -/
def Pushing.pending : Pushing T → List T
  | .placed val _ => [val]
  | _ => []

/-- How many slots have been emptied by a call that has not returned. -/
def Popping.emptied : Popping V → ℕ
  | .taken _ _ => 1
  | _ => 0

/-- What the producer knows of the memory. -/
def State.pushView (s : State T V) : View ℕ Counter := s.memory.views .producer

/-- What the consumer knows of the memory. -/
def State.popView (s : State T V) : View ℕ Counter := s.memory.views .consumer

/-- What the program point of the producer says. -/
def ProducerInv (value : ℕ → ℕ) (bound : ℕ) (s : State T V) : Prop :=
  match s.producer with
  | .ready => True
  | .loadedTail _ t => t = value s.pushed.length
  | .checked _ t | .placed _ t =>
    t = value s.pushed.length ∧ s.pushed.length < s.pushView.2 .head + bound

/-- What the program point of the consumer says. -/
def ConsumerInv (r : Ring T V) (value : ℕ → ℕ) (s : State T V) : Prop :=
  match s.consumer with
  | .ready => True
  | .loadedHead h => h = value s.popped.length
  | .checked h =>
    h = value s.popped.length ∧ s.popped.length < s.popView.2 .tail
  | .taken val h => h = value s.popped.length ∧
    s.popped.length < s.popView.2 .tail ∧ s.pushed[s.popped.length]?.map r.put = some val

/-- The invariant. The lengths of `pushed` and `popped` are the counters before they wrap. -/
structure Inv (r : Ring T V) (value : ℕ → ℕ) (bound : ℕ) (s : State T V) : Prop where
  valid : s.memory.Valid
  raced : s.memory.raced = false
  headLog : Released (r.slotOf value) value 0 .head (s.memory.atoms .head) s.popped.length
  tailLog : Released (r.slotOf value) value 1 .tail (s.memory.atoms .tail) s.pushed.length
  accesses : ∀ i, s.memory.accesses i =
    visits (r.slotOf value) i (s.pushed.length + s.producer.pending.length) +
      visits (r.slotOf value) i (s.popped.length + s.consumer.emptied)
  pusher : Party (r.slotOf value) .tail .head 1 0 s.pushView s.pushed.length
    s.producer.pending.length
  popper : Party (r.slotOf value) .head .tail 0 1 s.popView s.popped.length s.consumer.emptied
  /-- The producer is at most the capacity ahead of the head it has seen. -/
  ahead : s.pushed.length ≤ s.pushView.2 .head + bound
  /-- The consumer is behind the tail it has seen. -/
  behind : s.popped.length ≤ s.popView.2 .tail
  producer : ProducerInv value bound s
  consumer : ConsumerInv r value s
  popped : s.popped = (s.pushed.take s.popped.length).map r.put
  contents : ∀ k v, s.popped.length + s.consumer.emptied ≤ k →
    (s.pushed ++ s.producer.pending)[k]? = some v → s.memory.contents (r.slotOf value k) = r.put v

theorem inv_init (r : Ring T V) (value : ℕ → ℕ) (bound : ℕ) (buf : ℕ → V) :
    Inv r value bound (init (value 0) buf) where
  valid := Memory.valid_init _ _
  raced := rfl
  headLog := released_init ..
  tailLog := released_init ..
  accesses i := by
    show 0 = visits (r.slotOf value) i 0 + visits (r.slotOf value) i 0
    rw [visits, Nat.count_zero]
  pusher := ⟨rfl, knows_zero (r.slotOf value) 1 _, knows_zero (r.slotOf value) 0 _⟩
  popper := ⟨rfl, knows_zero (r.slotOf value) 0 _, knows_zero (r.slotOf value) 1 _⟩
  ahead := Nat.zero_le _
  behind := Nat.zero_le _
  producer := trivial
  consumer := trivial
  popped := rfl
  contents _ _ _ h := by cases h

/-- What the threads have seen of each other has happened. -/
theorem Inv.seen_le (h : Inv r value bound s) :
    s.pushView.2 .head ≤ s.popped.length ∧ s.popView.2 .tail ≤ s.pushed.length := by
  have hhead := h.valid.views .producer .head
  have htail := h.valid.views .consumer .tail
  rw [h.headLog.length] at hhead
  rw [h.tailLog.length] at htail
  exact ⟨Nat.lt_succ_iff.mp hhead, Nat.lt_succ_iff.mp htail⟩

/-- The slots between the two sides, with what a thread has in hand. -/
theorem Inv.lo_le (h : Inv r value bound s) :
    s.popped.length + s.consumer.emptied ≤ s.pushed.length := by
  have hbehind := h.behind
  have hseen := h.seen_le.2
  have hcons := h.consumer
  cases hc : s.consumer <;> simp only [ConsumerInv, hc, Popping.emptied] at hcons ⊢ <;> omega

/-- At most the capacity is held, with what the producer has in hand. -/
theorem Inv.hi_le (h : Inv r value bound s) :
    s.pushed.length + s.producer.pending.length ≤ s.popped.length + bound := by
  have hahead := h.ahead
  have hseen := h.seen_le.1
  have hprod := h.producer
  cases hp : s.producer <;> simp only [ProducerInv, hp, Pushing.pending, List.length_nil,
    List.length_singleton] at hprod ⊢ <;> omega

/-! ### The producer's steps -/

/-- The producer has learned something, and is somewhere else in its program. -/
theorem Inv.pushLearn {pc : Pushing T} (h : Inv r value bound s)
    (hvalid : (s.memory.learn .producer w).Valid)
    (hparty : Party (r.slotOf value) .tail .head 1 0 (s.pushView ⊔ w) s.pushed.length
      s.producer.pending.length)
    (hahead : s.pushed.length ≤ (s.pushView ⊔ w).2 .head + bound)
    (hpending : pc.pending = s.producer.pending)
    (hpc : ProducerInv value bound
      { s with memory := s.memory.learn .producer w, producer := pc }) :
    Inv r value bound { s with memory := s.memory.learn .producer w, producer := pc } := by
  have hview : State.pushView { s with memory := s.memory.learn .producer w, producer := pc } =
      s.pushView ⊔ w := Memory.views_learn_self
  have hother : State.popView { s with memory := s.memory.learn .producer w, producer := pc } =
      s.popView := Memory.views_learn_of_ne (by decide)
  refine ⟨hvalid, h.raced, h.headLog, h.tailLog, fun i => ?_, ?_, ?_, ?_, ?_, hpc, ?_, h.popped, ?_⟩
  · simp only [hpending]
    exact h.accesses i
  · simp only [hpending, hview]
    exact hparty
  · rw [hother]
    exact h.popper
  · rw [hview]
    exact hahead
  · rw [hother]
    exact h.behind
  · have hcons := h.consumer
    simp only [ConsumerInv, hother] at hcons ⊢
    exact hcons
  · simp only [hpending]
    exact h.contents

theorem Inv.pushLoadTail {position : ℕ} (h : Inv r value bound s)
    (hs : step r s (.pushLoadTail v position) = some s') : Inv r value bound s' := by
  cases hp : s.producer with
  | ready =>
    simp only [step, hp, Option.map_eq_some_iff, Prod.exists] at hs
    obtain ⟨t, m, hload, rfl⟩ := hs
    have hvalid := h.valid.loadRelaxed hload
    obtain ⟨w, hread, hle, rfl⟩ := Memory.of_loadRelaxed_eq_some hload
    obtain ⟨hlt, -⟩ := List.getElem?_eq_some_iff.mp hread
    rw [h.tailLog.length] at hlt
    have hpos : s.pushView.2 .tail = s.pushed.length := h.pusher.position
    have heq : position = s.pushed.length := by
      have hle' : s.pushView.2 .tail ≤ position := hle
      omega
    have hparty := h.pusher.loadOwn (p := position) (by decide) (by omega)
    refine h.pushLearn hvalid hparty (h.ahead.trans (Nat.add_le_add_right ?_ _))
      (by rw [hp]; rfl) ?_
    · exact (le_sup_left : s.pushView ≤ s.pushView ⊔ _).2 .head
    · simp only [ProducerInv]
      rw [h.tailLog.eq_value hread, heq]
  | _ => simp [step, hp] at hs

theorem Inv.pushLoadHead {position : ℕ} (h : Inv r value bound s) (hr : r.Lawful value bound)
    (hs : step r s (.pushLoadHead position) = some s') : Inv r value bound s' := by
  cases hp : s.producer with
  | loadedTail val t =>
    simp only [step, hp, Option.map_eq_some_iff, Prod.exists] at hs
    obtain ⟨a, m, hload, hs⟩ := hs
    have hvalid := h.valid.loadAcquire hload
    obtain ⟨w, hread, hle, rfl⟩ := Memory.of_loadAcquire_eq_some hload
    obtain ⟨hlt, -⟩ := List.getElem?_eq_some_iff.mp hread
    rw [h.headLog.length] at hlt
    have hprod := h.producer
    simp only [ProducerInv, hp] at hprod
    have hown : w.2 .tail ≤ s.pushed.length := by
      have := h.valid.atoms hread .tail
      rw [h.tailLog.length] at this
      omega
    obtain ⟨hparty, hseen⟩ := h.pusher.loadOther (by decide) hle (h.headLog.knows hread)
      (h.headLog.position hread) hown
    have hahead : s.pushed.length ≤ position + bound := by
      have hle' : s.pushView.2 .head ≤ position := hle
      have := h.ahead
      omega
    have hhead := h.headLog.eq_value hread
    have hlo := h.lo_le
    have hview : (s.memory.learn .producer (w ⊔ .atom .head position)).views .producer =
      s.pushView ⊔ (w ⊔ .atom .head position) := Memory.views_learn_self
    split at hs <;> subst hs
    · exact h.pushLearn hvalid hparty (by rw [hseen]; exact hahead) (by rw [hp]; rfl) trivial
    · -- not full as far as the producer can see
      rename_i hroom
      refine h.pushLearn hvalid hparty (by rw [hseen]; exact hahead) (by rw [hp]; rfl) ⟨hprod, ?_⟩
      simp only [State.pushView] at hseen hview ⊢
      rw [hview, hseen]
      rw [hprod, hhead, hr.full_value (by omega) hahead] at hroom
      omega
  | _ => simp [step, hp] at hs

/-- **No race in `try_push`**: the slot has been emptied as often as it has been filled, and the
producer knows. -/
theorem Inv.known_of_room (h : Inv r value bound s) (hr : r.Lawful value bound)
    (hpending : s.producer.pending = [])
    (hroom : s.pushed.length < s.pushView.2 .head + bound) :
    s.memory.accesses (r.slotOf value s.pushed.length) =
        2 * visits (r.slotOf value) (r.slotOf value s.pushed.length) s.pushed.length ∧
      s.memory.accesses (r.slotOf value s.pushed.length) ≤
        s.pushView.1 (r.slotOf value s.pushed.length) := by
  have hlo := h.lo_le
  have hseen := h.seen_le.1
  have hemptied : visits (r.slotOf value) (r.slotOf value s.pushed.length)
      (s.popped.length + s.consumer.emptied) =
      visits (r.slotOf value) (r.slotOf value s.pushed.length) s.pushed.length :=
    hr.visits_of_lt hlo (by omega)
  have hheard : visits (r.slotOf value) (r.slotOf value s.pushed.length) (s.pushView.2 .head) =
      visits (r.slotOf value) (r.slotOf value s.pushed.length) s.pushed.length :=
    hr.visits_of_lt (by omega) hroom
  have hknown := h.pusher.heard (r.slotOf value s.pushed.length)
  have hacc := h.accesses (r.slotOf value s.pushed.length)
  rw [hpending, List.length_nil, Nat.add_zero] at hacc
  omega

theorem Inv.pushPlace (h : Inv r value bound s) (hr : r.Lawful value bound)
    (hs : step r s .pushPlace = some s') : Inv r value bound s' := by
  cases hp : s.producer with
  | checked val t =>
    simp only [step, hp, Option.some.injEq] at hs
    subst hs
    have hprod := h.producer
    simp only [ProducerInv, hp] at hprod
    obtain ⟨ht, hroom⟩ := hprod
    rw [show r.slot t = r.slotOf value s.pushed.length by rw [ht]; rfl]
    obtain ⟨hslot, hknown⟩ := h.known_of_room hr (by rw [hp]; rfl) hroom
    have hseen := h.seen_le.1
    have hacc := h.accesses
    have hparty := h.pusher
    have hcont := h.contents
    simp only [hp, Pushing.pending, List.length_nil, Nat.add_zero, List.append_nil]
      at hacc hparty hcont
    have hview : State.pushView { s with
        memory := s.memory.access .producer (r.slotOf value s.pushed.length) (r.put val)
        producer := .placed val t } = s.pushView ⊔ .cell (r.slotOf value s.pushed.length)
          (s.memory.accesses (r.slotOf value s.pushed.length) + 1) := Memory.views_access_self
    have hother : State.popView { s with
        memory := s.memory.access .producer (r.slotOf value s.pushed.length) (r.put val)
        producer := .placed val t } = s.popView := Memory.views_access_of_ne (by decide)
    have hhead : (s.pushView ⊔ .cell (r.slotOf value s.pushed.length)
        (s.memory.accesses (r.slotOf value s.pushed.length) + 1) : View ℕ Counter).2 .head =
        s.pushView.2 .head := Nat.max_zero _
    refine ⟨h.valid.access, Memory.raced_access h.raced hknown, h.headLog, h.tailLog, fun i => ?_,
      ?_, ?_, ?_, ?_, ?_, ?_, h.popped, fun k u hk hu => ?_⟩
    · simp only [Pushing.pending, List.length_singleton, Memory.accesses_access]
      split
      · rename_i hi
        rw [hi, hacc, visits_succ_self]
        omega
      · rename_i hi
        rw [hacc i, visits_succ_of_ne (Ne.symm hi)]
    · rw [hview]
      exact hparty.access (by omega)
    · rw [hother]
      exact h.popper
    · rw [hview, hhead]
      exact h.ahead
    · rw [hother]
      exact h.behind
    · simp only [ProducerInv, hview, hhead]
      exact ⟨ht, hroom⟩
    · have hcons := h.consumer
      simp only [ConsumerInv, hother] at hcons ⊢
      exact hcons
    · simp only [Pushing.pending] at hu hk
      simp only [Memory.contents_access]
      rcases of_getElem?_concat hu with hu | ⟨rfl, rfl⟩
      · obtain ⟨hlt, -⟩ := List.getElem?_eq_some_iff.mp hu
        rw [if_neg (hr.slot_ne hlt (by omega))]
        exact hcont k u hk hu
      · rw [if_pos rfl]
  | _ => simp [step, hp] at hs

theorem Inv.pushStoreTail (h : Inv r value bound s) (hr : r.Lawful value bound)
    (hs : step r s .pushStoreTail = some s') : Inv r value bound s' := by
  cases hp : s.producer with
  | placed val t =>
    simp only [step, hp, Option.some.injEq] at hs
    subst hs
    have hprod := h.producer
    simp only [ProducerInv, hp] at hprod
    obtain ⟨rfl, hroom⟩ := hprod
    have hacc := h.accesses
    have hparty := h.pusher
    have hcont := h.contents
    have hlo := h.lo_le
    simp only [hp, Pushing.pending, List.length_singleton] at hacc hparty hcont
    have hparty' := hparty.release (by decide)
    have hreleased : s.memory.released .producer .tail =
        s.pushView ⊔ .atom .tail (s.pushed.length + 1) := by
      rw [Memory.released, h.tailLog.length]
      rfl
    have hstored : r.next (value s.pushed.length) =
        value (s.pushed.length + 1) := hr.next_value _
    rw [hstored]
    have hview : State.pushView { s with
        memory := s.memory.storeRelease .producer .tail (value (s.pushed.length + 1))
        producer := .ready
        pushed := s.pushed ++ [val] } = s.pushView ⊔ .atom .tail (s.pushed.length + 1) :=
      Memory.views_storeRelease_self.trans hreleased
    have hother : State.popView { s with
        memory := s.memory.storeRelease .producer .tail (value (s.pushed.length + 1))
        producer := .ready
        pushed := s.pushed ++ [val] } = s.popView := Memory.views_storeRelease_of_ne (by decide)
    have hlog : (s.memory.storeRelease .producer .tail
        (value (s.pushed.length + 1))).atoms .head = s.memory.atoms .head :=
      Memory.atoms_storeRelease_of_ne (by decide)
    have hlen : (s.pushed ++ [val]).length = s.pushed.length + 1 := by simp
    refine ⟨h.valid.storeRelease, h.raced, ?_, ?_, fun i => ?_, ?_, ?_, ?_, ?_, trivial, ?_, ?_,
      fun k u hk hu => ?_⟩
    · simp only [hlog]
      exact h.headLog
    · simp only [Memory.atoms_storeRelease_self, hreleased, hlen]
      exact h.tailLog.append hparty'.done hparty'.position.le
    · simp only [Pushing.pending, hlen, List.length_nil, Nat.add_zero]
      exact hacc i
    · rw [hview]
      simp only [Pushing.pending, hlen, List.length_nil]
      exact hparty'
    · rw [hother]
      exact h.popper
    · rw [hview, hlen]
      have hle : s.pushView.2 .head ≤ (s.pushView ⊔ .atom .tail (s.pushed.length + 1)).2 .head :=
        le_sup_left
      omega
    · rw [hother]
      exact h.behind
    · have hcons := h.consumer
      simp only [ConsumerInv, hother] at hcons ⊢
      cases hc : s.consumer <;> simp only [hc] at hcons ⊢
      · exact hcons
      · exact hcons
      · refine ⟨hcons.1, hcons.2.1, ?_⟩
        have hseen := h.seen_le.2
        have hlt : s.popped.length < s.pushed.length := by omega
        rw [List.getElem?_append_left hlt]
        exact hcons.2.2
    · show s.popped = ((s.pushed ++ [val]).take s.popped.length).map r.put
      rw [List.take_append_of_le_length (by omega)]
      exact h.popped
    · simp only [Pushing.pending, List.append_nil] at hu
      exact hcont k u hk hu
  | _ => simp [step, hp] at hs

/-! ### The consumer's steps -/

/-- The consumer has learned something, and is somewhere else in its program. -/
theorem Inv.popLearn {pc : Popping V} (h : Inv r value bound s)
    (hvalid : (s.memory.learn .consumer w).Valid)
    (hparty : Party (r.slotOf value) .head .tail 0 1 (s.popView ⊔ w) s.popped.length
      s.consumer.emptied)
    (hbehind : s.popped.length ≤ (s.popView ⊔ w).2 .tail)
    (hemptied : pc.emptied = s.consumer.emptied)
    (hpc : ConsumerInv r value { s with memory := s.memory.learn .consumer w, consumer := pc }) :
    Inv r value bound { s with memory := s.memory.learn .consumer w, consumer := pc } := by
  have hview : State.popView { s with memory := s.memory.learn .consumer w, consumer := pc } =
      s.popView ⊔ w := Memory.views_learn_self
  have hother : State.pushView { s with memory := s.memory.learn .consumer w, consumer := pc } =
      s.pushView := Memory.views_learn_of_ne (by decide)
  refine ⟨hvalid, h.raced, h.headLog, h.tailLog, fun i => ?_, ?_, ?_, ?_, ?_, ?_, hpc, h.popped, ?_⟩
  · simp only [hemptied]
    exact h.accesses i
  · rw [hother]
    exact h.pusher
  · simp only [hemptied, hview]
    exact hparty
  · rw [hother]
    exact h.ahead
  · rw [hview]
    exact hbehind
  · have hprod := h.producer
    simp only [ProducerInv, hother] at hprod ⊢
    exact hprod
  · simp only [hemptied]
    exact h.contents

theorem Inv.popLoadHead {position : ℕ} (h : Inv r value bound s)
    (hs : step r s (.popLoadHead position) = some s') : Inv r value bound s' := by
  cases hc : s.consumer with
  | ready =>
    simp only [step, hc, Option.map_eq_some_iff, Prod.exists] at hs
    obtain ⟨a, m, hload, rfl⟩ := hs
    have hvalid := h.valid.loadRelaxed hload
    obtain ⟨w, hread, hle, rfl⟩ := Memory.of_loadRelaxed_eq_some hload
    obtain ⟨hlt, -⟩ := List.getElem?_eq_some_iff.mp hread
    rw [h.headLog.length] at hlt
    have hpos : s.popView.2 .head = s.popped.length := h.popper.position
    have heq : position = s.popped.length := by
      have hle' : s.popView.2 .head ≤ position := hle
      omega
    have hparty := h.popper.loadOwn (p := position) (by decide) (by omega)
    refine h.popLearn hvalid hparty (h.behind.trans ?_) (by rw [hc]; rfl) ?_
    · exact (le_sup_left : s.popView ≤ s.popView ⊔ _).2 .tail
    · simp only [ConsumerInv]
      rw [h.headLog.eq_value hread, heq]
  | _ => simp [step, hc] at hs

theorem Inv.popLoadTail {position : ℕ} (h : Inv r value bound s)
    (hs : step r s (.popLoadTail position) = some s') : Inv r value bound s' := by
  cases hc : s.consumer with
  | loadedHead a =>
    simp only [step, hc, Option.map_eq_some_iff, Prod.exists] at hs
    obtain ⟨b, m, hload, hs⟩ := hs
    have hvalid := h.valid.loadAcquire hload
    obtain ⟨w, hread, hle, rfl⟩ := Memory.of_loadAcquire_eq_some hload
    obtain ⟨hlt, -⟩ := List.getElem?_eq_some_iff.mp hread
    rw [h.tailLog.length] at hlt
    have hcons := h.consumer
    simp only [ConsumerInv, hc] at hcons
    have hown : w.2 .head ≤ s.popped.length := by
      have := h.valid.atoms hread .head
      rw [h.headLog.length] at this
      omega
    obtain ⟨hparty, hseen⟩ := h.popper.loadOther (by decide) hle (h.tailLog.knows hread)
      (h.tailLog.position hread) hown
    have hbehind : s.popped.length ≤ position := h.behind.trans hle
    have htail := h.tailLog.eq_value hread
    have hview : (s.memory.learn .consumer (w ⊔ .atom .tail position)).views .consumer =
      s.popView ⊔ (w ⊔ .atom .tail position) := Memory.views_learn_self
    split at hs <;> subst hs
    · exact h.popLearn hvalid hparty (by rw [hseen]; exact hbehind) (by rw [hc]; rfl) trivial
    · -- not empty as far as the consumer can see
      rename_i hne
      refine h.popLearn hvalid hparty (by rw [hseen]; exact hbehind) (by rw [hc]; rfl) ⟨hcons, ?_⟩
      simp only [State.popView] at hseen hview ⊢
      rw [hview, hseen]
      rw [hcons, htail] at hne
      rcases Nat.lt_or_ge s.popped.length position with hlt' | hge
      · exact hlt'
      · exact absurd (by rw [Nat.le_antisymm hbehind hge]) hne
  | _ => simp [step, hc] at hs

/-- **No race in `try_pop`**: the slot has been filled once more than it has been emptied, and the
consumer knows. -/
theorem Inv.known_of_behind (h : Inv r value bound s) (hr : r.Lawful value bound)
    (hemptied : s.consumer.emptied = 0)
    (hbehind : s.popped.length < s.popView.2 .tail) :
    s.memory.accesses (r.slotOf value s.popped.length) =
        2 * visits (r.slotOf value) (r.slotOf value s.popped.length) s.popped.length + 1 ∧
      s.memory.accesses (r.slotOf value s.popped.length) ≤
        s.popView.1 (r.slotOf value s.popped.length) := by
  have hhi := h.hi_le
  have hseen := h.seen_le.2
  have hfilled : visits (r.slotOf value) (r.slotOf value s.popped.length)
      (s.pushed.length + s.producer.pending.length) =
      visits (r.slotOf value) (r.slotOf value s.popped.length) s.popped.length + 1 :=
    hr.visits_of_gt (by omega) hhi
  have hheard : visits (r.slotOf value) (r.slotOf value s.popped.length) (s.popped.length + 1) ≤
      visits (r.slotOf value) (r.slotOf value s.popped.length) (s.popView.2 .tail) :=
    visits_mono hbehind
  rw [visits_succ_self] at hheard
  have hknown := h.popper.heard (r.slotOf value s.popped.length)
  have hacc := h.accesses (r.slotOf value s.popped.length)
  rw [hemptied, Nat.add_zero] at hacc
  omega

theorem Inv.popTake (h : Inv r value bound s) (hr : r.Lawful value bound)
    (hs : step r s .popTake = some s') : Inv r value bound s' := by
  cases hc : s.consumer with
  | checked a =>
    simp only [step, hc, Option.some.injEq] at hs
    subst hs
    have hcons := h.consumer
    simp only [ConsumerInv, hc] at hcons
    obtain ⟨ha, hbehind⟩ := hcons
    rw [show r.slot a = r.slotOf value s.popped.length by rw [ha]; rfl]
    obtain ⟨hslot, hknown⟩ := h.known_of_behind hr (by rw [hc]; rfl) hbehind
    have hseen := h.seen_le.2
    have hhi := h.hi_le
    have hacc := h.accesses
    have hparty := h.popper
    have hcont := h.contents
    simp only [hc, Popping.emptied, Nat.add_zero] at hacc hparty hcont
    have hval : s.pushed[s.popped.length]?.map r.put =
        some (s.memory.contents (r.slotOf value s.popped.length)) := by
      have hlt : s.popped.length < s.pushed.length := by omega
      have hread := hcont s.popped.length s.pushed[s.popped.length] le_rfl (by
        rw [List.getElem?_append_left hlt, List.getElem?_eq_getElem hlt])
      rw [hread, List.getElem?_eq_getElem hlt, Option.map_some]
    have hview : State.popView { s with
        memory := s.memory.access .consumer (r.slotOf value s.popped.length)
          (r.left (s.memory.contents (r.slotOf value s.popped.length)))
        consumer := .taken (s.memory.contents (r.slotOf value s.popped.length)) a } =
          s.popView ⊔ .cell (r.slotOf value s.popped.length)
            (s.memory.accesses (r.slotOf value s.popped.length) + 1) := Memory.views_access_self
    have hother : State.pushView { s with
        memory := s.memory.access .consumer (r.slotOf value s.popped.length)
          (r.left (s.memory.contents (r.slotOf value s.popped.length)))
        consumer := .taken (s.memory.contents (r.slotOf value s.popped.length)) a } =
          s.pushView := Memory.views_access_of_ne (by decide)
    have htail : (s.popView ⊔ .cell (r.slotOf value s.popped.length)
        (s.memory.accesses (r.slotOf value s.popped.length) + 1) : View ℕ Counter).2 .tail =
        s.popView.2 .tail := Nat.max_zero _
    refine ⟨h.valid.access, Memory.raced_access h.raced hknown, h.headLog, h.tailLog, fun i => ?_,
      ?_, ?_, ?_, ?_, ?_, ?_, h.popped, fun k u hk hu => ?_⟩
    · simp only [Popping.emptied, Memory.accesses_access]
      split
      · rename_i hi
        rw [hi, hacc, visits_succ_self]
        omega
      · rename_i hi
        rw [hacc i, visits_succ_of_ne (Ne.symm hi)]
    · rw [hother]
      exact h.pusher
    · rw [hview]
      exact hparty.access (by omega)
    · rw [hother]
      exact h.ahead
    · rw [hview, htail]
      exact h.behind
    · have hprod := h.producer
      simp only [ProducerInv, hother] at hprod ⊢
      exact hprod
    · simp only [ConsumerInv, hview, htail]
      exact ⟨ha, hbehind, hval⟩
    · simp only [Popping.emptied] at hk
      simp only [Memory.contents_access]
      dsimp only at hu
      obtain ⟨hlt, -⟩ := List.getElem?_eq_some_iff.mp hu
      rw [List.length_append] at hlt
      rw [if_neg (hr.slot_ne (by omega : s.popped.length < k) (by omega)).symm]
      exact hcont k u (by omega) hu
  | _ => simp [step, hc] at hs

theorem Inv.popStoreHead (h : Inv r value bound s) (hr : r.Lawful value bound)
    (hs : step r s .popStoreHead = some s') : Inv r value bound s' := by
  cases hc : s.consumer with
  | taken val a =>
    simp only [step, hc, Option.some.injEq] at hs
    subst hs
    have hcons := h.consumer
    simp only [ConsumerInv, hc] at hcons
    obtain ⟨rfl, hbehind, hval⟩ := hcons
    have hacc := h.accesses
    have hparty := h.popper
    have hcont := h.contents
    have hseen := h.seen_le.1
    simp only [hc, Popping.emptied] at hacc hparty hcont
    have hparty' := hparty.release (by decide)
    have hreleased : s.memory.released .consumer .head =
        s.popView ⊔ .atom .head (s.popped.length + 1) := by
      rw [Memory.released, h.headLog.length]
      rfl
    have hstored : r.next (value s.popped.length) =
        value (s.popped.length + 1) := hr.next_value _
    rw [hstored]
    have hview : State.popView { s with
        memory := s.memory.storeRelease .consumer .head (value (s.popped.length + 1))
        consumer := .ready
        popped := s.popped ++ [val] } = s.popView ⊔ .atom .head (s.popped.length + 1) :=
      Memory.views_storeRelease_self.trans hreleased
    have hother : State.pushView { s with
        memory := s.memory.storeRelease .consumer .head (value (s.popped.length + 1))
        consumer := .ready
        popped := s.popped ++ [val] } = s.pushView := Memory.views_storeRelease_of_ne (by decide)
    have hlog : (s.memory.storeRelease .consumer .head
        (value (s.popped.length + 1))).atoms .tail = s.memory.atoms .tail :=
      Memory.atoms_storeRelease_of_ne (by decide)
    have hlen : (s.popped ++ [val]).length = s.popped.length + 1 := by simp
    refine ⟨h.valid.storeRelease, h.raced, ?_, ?_, fun i => ?_, ?_, ?_, ?_, ?_, ?_, trivial, ?_,
      fun k u hk hu => ?_⟩
    · simp only [Memory.atoms_storeRelease_self, hreleased, hlen]
      exact h.headLog.append hparty'.done hparty'.position.le
    · simp only [hlog]
      exact h.tailLog
    · simp only [Popping.emptied, hlen, Nat.add_zero]
      exact hacc i
    · rw [hother]
      exact h.pusher
    · rw [hview]
      simp only [Popping.emptied, hlen]
      exact hparty'
    · rw [hother]
      exact h.ahead
    · rw [hview, hlen]
      have hle : s.popView.2 .tail ≤ (s.popView ⊔ .atom .head (s.popped.length + 1)).2 .tail :=
        le_sup_left
      omega
    · have hprod := h.producer
      simp only [ProducerInv, hother] at hprod ⊢
      exact hprod
    · simp only [hlen]
      rw [List.take_add_one, List.map_append, ← h.popped, ← Option.toList_map, hval]
      rfl
    · simp only [Popping.emptied, hlen, Nat.add_zero] at hk
      exact hcont k u hk hu
  | _ => simp [step, hc] at hs

/-! ### Correctness -/

/-- **Every step of either thread keeps the invariant.** -/
theorem Inv.step {a : Action T} (h : Inv r value bound s) (hr : r.Lawful value bound)
    (hs : SharedRing.step r s a = some s') : Inv r value bound s' := by
  cases a with
  | pushLoadTail val position => exact h.pushLoadTail hs
  | pushLoadHead position => exact h.pushLoadHead hr hs
  | pushPlace => exact h.pushPlace hr hs
  | pushStoreTail => exact h.pushStoreTail hr hs
  | popLoadHead position => exact h.popLoadHead hs
  | popLoadTail position => exact h.popLoadTail hs
  | popTake => exact h.popTake hr hs
  | popStoreHead => exact h.popStoreHead hr hs

theorem inv_of_run (hr : r.Lawful value bound) (buf : ℕ → V) {as : List (Action T)}
    (h : runActions (SharedRing.step r) as (init (value 0) buf) = some s) : Inv r value bound s :=
  runActions_induction (fun _ _ _ hI hs => hI.step hr hs) (inv_init r value bound buf) h

/-- **The queue is safe on two threads**, whichever values the loads return. There is no data race
on the slots; what has been taken out is a prefix of what has been put in; and at most `bound`
elements are held. -/
theorem raceFree_of_run (hr : r.Lawful value bound) (buf : ℕ → V) {as : List (Action T)}
    (h : runActions (SharedRing.step r) as (init (value 0) buf) = some s) :
    s.memory.raced = false ∧ s.popped <+: s.pushed.map r.put ∧
      s.pushed.length ≤ s.popped.length + bound := by
  have hI := inv_of_run hr buf h
  refine ⟨hI.raced, ?_, ?_⟩
  · rw [hI.popped]
    exact (List.take_prefix ..).map _
  · have := hI.hi_le
    omega

end SharedRing

end MiniTrader
