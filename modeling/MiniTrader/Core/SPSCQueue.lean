import MiniTrader.Lib.Runs
import Mathlib.Data.Finset.Card
import Mathlib.Data.Finset.Range
import Mathlib.Data.Nat.ModEq

/-!
# The single-producer single-consumer queue

`include/core/spsc_queue.h` under all interleavings of `try_push` on one thread and `try_pop` on
the other. Each method is cut at its accesses to shared memory, in program order:

* `try_push` — load `tail_`, load `head_`, construct into the slot, store `tail_`;
* `try_pop` — load `head_`, load `tail_`, move out of the slot and destroy it, store `head_`.

## Stale loads

An atomic variable is the list of the values it has had. A thread that loads its own index gets the
latest value, because nobody else writes it. A load of the other side's index may return any value
from the last one that thread has seen on: the action says which, by its position. The release
store and the acquire load carry the contents of the slots, so the slots themselves are a single
memory.

## Why it works

The indices are stored modulo the capacity, and a stale index could in principle alias a current
one. Position `i` in either list has the value `i mod Cap`, so positions are the counters the
indices stand for. `Inv` bounds what a thread has *seen*, not what is current: the producer stays
less than `Cap` ahead of the position of `head_` it has seen, and the consumer stays behind the
position of `tail_` it has seen. Within such a window the values determine the positions.

## Main definitions

* `Capacity`, `State`, `Action`, `step`
* `Inv` — the invariant, with the counters explicit

## Main results

* `Inv.step` — every action of either thread keeps the invariant
* `safe_of_run` — order, slots and bound in every reachable state
-/

namespace MiniTrader

open Fuelled

namespace SPSCQueue

/-- A queue capacity, with the `requires` clause of the template. -/
structure Capacity where
  cap : ℕ
  pos : 0 < cap
  pow : cap &&& (cap - 1) = 0

/-- `kMask`. -/
def Capacity.mask (q : Capacity) : ℕ := q.cap - 1

/-- The bitwise operation is the remainder. -/
theorem Capacity.and_mask (q : Capacity) (n : ℕ) : n &&& q.mask = n % q.cap := by
  obtain ⟨k, hk⟩ := (Nat.and_sub_one_eq_zero_iff_isPowerOfTwo (Nat.ne_of_gt q.pos)).mp q.pow
  rw [Capacity.mask, hk, Nat.and_two_pow_sub_one_eq_mod]

/-- Where the producer is in `try_push`. -/
inductive Producer (T : Type) where
  /-- Not in a call. -/
  | ready
  /-- After loading `tail_`. -/
  | loadedTail (value : T) (tail : ℕ)
  /-- After loading `head_` and finding the queue not full. -/
  | checked (value : T) (tail : ℕ)
  /-- After constructing the element. -/
  | built (value : T) (tail : ℕ)

/-- Where the consumer is in `try_pop`. -/
inductive Consumer (T : Type) where
  /-- Not in a call. -/
  | ready
  /-- After loading `head_`. -/
  | loadedHead (head : ℕ)
  /-- After loading `tail_` and finding the queue not empty. -/
  | checked (head : ℕ)
  /-- After moving the element out and destroying it. -/
  | taken (result : Option T) (head : ℕ)

/-- The shared memory, the two threads, and the history of their calls. -/
structure State (T : Type) where
  /-- The values `head_` has had, oldest first. -/
  headLog : List ℕ
  /-- The values `tail_` has had, oldest first. -/
  tailLog : List ℕ
  /-- What lives in each slot. -/
  slots : ℕ → Option T
  producer : Producer T
  consumer : Consumer T
  /-- The position in `headLog` the producer has seen last. -/
  seenHead : ℕ
  /-- The position in `tailLog` the consumer has seen last. -/
  seenTail : ℕ
  /-- The values for which `try_push` returned `true`, in order. -/
  pushed : List T
  /-- What `try_pop` read from its slot, in order, whenever it returned a value; `none` stands for
  the bytes of a slot in which nothing lives. -/
  popped : List (Option T)

/-- One step of one thread. The loads of the other side's index say which of its values they
return. -/
inductive Action (T : Type) where
  | pushLoadTail (value : T)
  | pushLoadHead (position : ℕ)
  | pushConstruct
  | pushStoreTail
  | popLoadHead
  | popLoadTail (position : ℕ)
  | popTake
  | popStoreHead

variable {T : Type}

/-- The constructor. -/
def init : State T where
  headLog := [0]
  tailLog := [0]
  slots _ := none
  producer := .ready
  consumer := .ready
  seenHead := 0
  seenTail := 0
  pushed := []
  popped := []

/-- The latest value of an index. -/
def latest (log : List ℕ) : ℕ := log.getLast?.getD 0

/-- One step; `none` if the thread is elsewhere in its program, or a load would return a value that
was never published or is older than the last one seen. -/
def step (q : Capacity) (s : State T) : Action T → Option (State T)
  | .pushLoadTail value =>
    match s.producer with
    | .ready => some { s with producer := .loadedTail value (latest s.tailLog) }
    | _ => none
  | .pushLoadHead position =>
    match s.producer, s.headLog[position]? with
    | .loadedTail value tail, some head =>
      if s.seenHead ≤ position then
        if (tail + 1) &&& q.mask = head then
          -- full: `try_push` returns `false`
          some { s with producer := .ready, seenHead := position }
        else some { s with producer := .checked value tail, seenHead := position }
      else none
    | _, _ => none
  | .pushConstruct =>
    match s.producer with
    | .checked value tail =>
      some { s with
        producer := .built value tail
        slots := fun i => if i = tail then some value else s.slots i }
    | _ => none
  | .pushStoreTail =>
    match s.producer with
    | .built value tail =>
      some { s with
        producer := .ready
        tailLog := s.tailLog ++ [(tail + 1) &&& q.mask]
        pushed := s.pushed ++ [value] }
    | _ => none
  | .popLoadHead =>
    match s.consumer with
    | .ready => some { s with consumer := .loadedHead (latest s.headLog) }
    | _ => none
  | .popLoadTail position =>
    match s.consumer, s.tailLog[position]? with
    | .loadedHead head, some tail =>
      if s.seenTail ≤ position then
        if head = tail then
          -- empty: `try_pop` returns `nullopt`
          some { s with consumer := .ready, seenTail := position }
        else some { s with consumer := .checked head, seenTail := position }
      else none
    | _, _ => none
  | .popTake =>
    match s.consumer with
    | .checked head =>
      some { s with
        consumer := .taken (s.slots head) head
        slots := fun i => if i = head then none else s.slots i }
    | _ => none
  | .popStoreHead =>
    match s.consumer with
    | .taken result head =>
      some { s with
        consumer := .ready
        headLog := s.headLog ++ [(head + 1) &&& q.mask]
        popped := s.popped ++ [result] }
    | _ => none

/-! ### What a step can do -/

variable {q : Capacity} {s s' : State T} {value : T} {position : ℕ}

theorem step_pushLoadTail (h : step q s (.pushLoadTail value) = some s') :
    s.producer = .ready ∧ s' = { s with producer := .loadedTail value (latest s.tailLog) } := by
  cases hp : s.producer with
  | ready => simpa [step, hp, eq_comm] using h
  | _ => simp [step, hp] at h

/-- Either the queue is full and `try_push` returns, or it goes on. -/
theorem step_pushLoadHead (h : step q s (.pushLoadHead position) = some s') :
    ∃ value tail head, s.producer = .loadedTail value tail ∧ s.headLog[position]? = some head ∧
      s.seenHead ≤ position ∧
      (((tail + 1) &&& q.mask = head ∧ s' = { s with producer := .ready, seenHead := position }) ∨
        ((tail + 1) &&& q.mask ≠ head ∧
          s' = { s with producer := .checked value tail, seenHead := position })) := by
  cases hp : s.producer with
  | loadedTail value tail =>
    cases hl : s.headLog[position]? with
    | none => simp [step, hp, hl] at h
    | some head =>
      simp only [step, hp, hl, Option.ite_none_right_eq_some] at h
      obtain ⟨hseen, h⟩ := h
      refine ⟨value, tail, head, rfl, rfl, hseen, ?_⟩
      split at h <;> cases h
      · exact Or.inl ⟨‹_›, rfl⟩
      · exact Or.inr ⟨‹_›, rfl⟩
  | _ => simp [step, hp] at h

theorem step_pushConstruct (h : step q s .pushConstruct = some s') :
    ∃ value tail, s.producer = .checked value tail ∧
      s' = { s with
        producer := .built value tail
        slots := fun i => if i = tail then some value else s.slots i } := by
  cases hp : s.producer with
  | checked value tail => exact ⟨value, tail, rfl, by simpa [step, hp, eq_comm] using h⟩
  | _ => simp [step, hp] at h

theorem step_pushStoreTail (h : step q s .pushStoreTail = some s') :
    ∃ value tail, s.producer = .built value tail ∧
      s' = { s with
        producer := .ready
        tailLog := s.tailLog ++ [(tail + 1) &&& q.mask]
        pushed := s.pushed ++ [value] } := by
  cases hp : s.producer with
  | built value tail => exact ⟨value, tail, rfl, by simpa [step, hp, eq_comm] using h⟩
  | _ => simp [step, hp] at h

theorem step_popLoadHead (h : step q s .popLoadHead = some s') :
    s.consumer = .ready ∧ s' = { s with consumer := .loadedHead (latest s.headLog) } := by
  cases hc : s.consumer with
  | ready => simpa [step, hc, eq_comm] using h
  | _ => simp [step, hc] at h

/-- Either the queue is empty and `try_pop` returns, or it goes on. -/
theorem step_popLoadTail (h : step q s (.popLoadTail position) = some s') :
    ∃ head tail, s.consumer = .loadedHead head ∧ s.tailLog[position]? = some tail ∧
      s.seenTail ≤ position ∧
      ((head = tail ∧ s' = { s with consumer := .ready, seenTail := position }) ∨
        (head ≠ tail ∧ s' = { s with consumer := .checked head, seenTail := position })) := by
  cases hc : s.consumer with
  | loadedHead head =>
    cases hl : s.tailLog[position]? with
    | none => simp [step, hc, hl] at h
    | some tail =>
      simp only [step, hc, hl, Option.ite_none_right_eq_some] at h
      obtain ⟨hseen, h⟩ := h
      refine ⟨head, tail, rfl, rfl, hseen, ?_⟩
      split at h <;> cases h
      · exact Or.inl ⟨‹_›, rfl⟩
      · exact Or.inr ⟨‹_›, rfl⟩
  | _ => simp [step, hc] at h

theorem step_popTake (h : step q s .popTake = some s') :
    ∃ head, s.consumer = .checked head ∧
      s' = { s with
        consumer := .taken (s.slots head) head
        slots := fun i => if i = head then none else s.slots i } := by
  cases hc : s.consumer with
  | checked head => exact ⟨head, rfl, by simpa [step, hc, eq_comm] using h⟩
  | _ => simp [step, hc] at h

theorem step_popStoreHead (h : step q s .popStoreHead = some s') :
    ∃ result head, s.consumer = .taken result head ∧
      s' = { s with
        consumer := .ready
        headLog := s.headLog ++ [(head + 1) &&& q.mask]
        popped := s.popped ++ [result] } := by
  cases hc : s.consumer with
  | taken result head => exact ⟨result, head, rfl, by simpa [step, hc, eq_comm] using h⟩
  | _ => simp [step, hc] at h

/-! ### Positions and values -/

/-- The values an index has had after `n` stores. -/
def indices (q : Capacity) (n : ℕ) : List ℕ := (List.range (n + 1)).map (· % q.cap)

theorem latest_indices (q : Capacity) (n : ℕ) : latest (indices q n) = n % q.cap := by
  rw [latest, indices, List.range_succ, List.map_append]
  simp

@[simp] theorem length_indices (q : Capacity) (n : ℕ) : (indices q n).length = n + 1 := by
  simp [indices]

theorem getElem?_indices {q : Capacity} {n i v : ℕ} (h : (indices q n)[i]? = some v) :
    i ≤ n ∧ v = i % q.cap := by
  rw [indices, List.getElem?_map, Option.map_eq_some_iff] at h
  obtain ⟨j, hj, rfl⟩ := h
  obtain ⟨hi, rfl⟩ := List.getElem?_eq_some_iff.mp hj
  rw [List.length_range] at hi
  exact ⟨by omega, by rw [List.getElem_range]⟩

theorem indices_succ (q : Capacity) (n : ℕ) :
    indices q n ++ [(n % q.cap + 1) &&& q.mask] = indices q (n + 1) := by
  rw [q.and_mask, Nat.mod_add_mod, indices, indices, List.range_succ (n := n + 1), List.map_append]
  rfl

/-- Within a window of the capacity the values determine the positions. -/
theorem eq_of_mod_eq {c a b : ℕ} (hab : a ≤ b) (hb : b < a + c) (h : a % c = b % c) : a = b := by
  have hdvd : c ∣ b - a := (Nat.modEq_iff_dvd' hab).mp h
  have := Nat.eq_zero_of_dvd_of_lt hdvd (by omega)
  omega

/-! ### The invariant -/

/-- The element that is constructed but not yet published. -/
def Producer.pending : Producer T → List T
  | .built value _ => [value]
  | .ready | .loadedTail _ _ | .checked _ _ => []

/-- One if the consumer has emptied a slot it has not yet released. -/
def Consumer.emptied : Consumer T → ℕ
  | .taken _ _ => 1
  | .ready | .loadedHead _ | .checked _ => 0

/-- The elements at the positions from `lo` on live in the slots of their positions, and nothing
lives in the other slots. -/
structure SlotsInv (q : Capacity) (slots : ℕ → Option T) (lo : ℕ) (elems : List T) : Prop where
  live : ∀ k, lo ≤ k → k < elems.length → slots (k % q.cap) = elems[k]?
  empty : ∀ m < q.cap, (∀ k, lo ≤ k → k < elems.length → k % q.cap ≠ m) → slots m = none

theorem SlotsInv.eq_none {q : Capacity} {slots : ℕ → Option T} {lo : ℕ} {elems : List T}
    (h : SlotsInv q slots lo elems) (hroom : elems.length < lo + q.cap) :
    slots (elems.length % q.cap) = none := by
  refine h.empty _ (Nat.mod_lt _ q.pos) fun k hk hlt he => ?_
  have := eq_of_mod_eq (c := q.cap) hlt.le (by omega) he
  omega

/-- Constructing the next element in its slot. -/
theorem SlotsInv.construct {q : Capacity} {slots : ℕ → Option T} {lo : ℕ} {elems : List T}
    (h : SlotsInv q slots lo elems) (hlo : lo ≤ elems.length)
    (hroom : elems.length < lo + q.cap) (v : T) :
    SlotsInv q (fun i => if i = elems.length % q.cap then some v else slots i) lo
      (elems ++ [v]) where
  live k hk hlt := by
    rw [List.length_append, List.length_singleton] at hlt
    rcases Nat.lt_succ_iff_lt_or_eq.mp hlt with hlt | rfl
    · have hne : k % q.cap ≠ elems.length % q.cap := fun he => by
        have := eq_of_mod_eq (c := q.cap) hlt.le (by omega) he
        omega
      rw [if_neg hne, h.live k hk hlt, List.getElem?_append_left hlt]
    · rw [if_pos rfl, List.getElem?_concat_length]
  empty m hm hne := by
    rw [List.length_append, List.length_singleton] at hne
    rw [if_neg fun he => hne _ hlo (Nat.lt_succ_self _) he.symm]
    exact h.empty m hm fun k hk hlt => hne k hk (by omega)

/-- Moving the oldest element out of its slot. -/
theorem SlotsInv.take {q : Capacity} {slots : ℕ → Option T} {lo : ℕ} {elems : List T}
    (h : SlotsInv q slots lo elems) (hroom : elems.length ≤ lo + q.cap) :
    SlotsInv q (fun i => if i = lo % q.cap then none else slots i) (lo + 1) elems where
  live k hk hlt := by
    have hne : k % q.cap ≠ lo % q.cap := fun he => by
      have := eq_of_mod_eq (c := q.cap) (by omega : lo ≤ k) (by omega) he.symm
      omega
    rw [if_neg hne, h.live k (by omega) hlt]
  empty m hm hne := by
    by_cases he : m = lo % q.cap
    · rw [if_pos he]
    · rw [if_neg he]
      refine h.empty m hm fun k hk hlt => ?_
      rcases Nat.eq_or_lt_of_le hk with rfl | hk
      · exact fun hm' => he hm'.symm
      · exact hne k hk hlt

/-- What the program point of the producer says. -/
def ProducerInv (q : Capacity) (s : State T) : Prop :=
  match s.producer with
  | .ready => True
  | .loadedTail _ tail => tail = s.pushed.length % q.cap
  | .checked _ tail | .built _ tail =>
    tail = s.pushed.length % q.cap ∧ s.pushed.length + 1 < s.seenHead + q.cap

/-- What the program point of the consumer says. -/
def ConsumerInv (q : Capacity) (s : State T) : Prop :=
  match s.consumer with
  | .ready => True
  | .loadedHead head => head = s.popped.length % q.cap
  | .checked head => head = s.popped.length % q.cap ∧ s.popped.length < s.seenTail
  | .taken result head => head = s.popped.length % q.cap ∧ s.popped.length < s.seenTail ∧
    result = s.pushed[s.popped.length]?

/-- The invariant. The lengths of `popped` and `pushed` are the counters behind the two indices. -/
structure Inv (q : Capacity) (s : State T) : Prop where
  headLog : s.headLog = indices q s.popped.length
  tailLog : s.tailLog = indices q s.pushed.length
  seenHead_le : s.seenHead ≤ s.popped.length
  seenTail_le : s.seenTail ≤ s.pushed.length
  /-- The consumer is behind the tail it has seen. -/
  behind : s.popped.length ≤ s.seenTail
  /-- The producer is less than the capacity ahead of the head it has seen. -/
  ahead : s.pushed.length < s.seenHead + q.cap
  producer : ProducerInv q s
  consumer : ConsumerInv q s
  popped : s.popped = (s.pushed.take s.popped.length).map some
  slots : SlotsInv q s.slots (s.popped.length + s.consumer.emptied)
    (s.pushed ++ s.producer.pending)

theorem inv_init (q : Capacity) : Inv q (init : State T) := by
  have h0 : indices q 0 = [0] := by simp [indices]
  refine ⟨h0.symm, h0.symm, le_rfl, le_rfl, le_rfl, by simpa [init] using q.pos, trivial, trivial,
    rfl, ⟨fun k _ hlt => ?_, fun _ _ _ => rfl⟩⟩
  simp [init, Producer.pending] at hlt

/-! ### The producer's steps -/

theorem Inv.pushLoadTail (h : Inv q s) (hs : step q s (.pushLoadTail value) = some s') :
    Inv q s' := by
  obtain ⟨hp, rfl⟩ := step_pushLoadTail hs
  have hslots := h.slots
  rw [hp] at hslots
  exact ⟨h.headLog, h.tailLog, h.seenHead_le, h.seenTail_le, h.behind, h.ahead,
    by simp only [ProducerInv, h.tailLog, latest_indices], h.consumer, h.popped, hslots⟩

theorem Inv.pushLoadHead (h : Inv q s) (hs : step q s (.pushLoadHead position) = some s') :
    Inv q s' := by
  obtain ⟨value, tail, head, hp, hl, hseen, hs⟩ := step_pushLoadHead hs
  have hslots := h.slots
  have hprod := h.producer
  have hahead := h.ahead
  rw [hp] at hslots
  simp only [ProducerInv, hp] at hprod
  rw [h.headLog] at hl
  obtain ⟨hle, rfl⟩ := getElem?_indices hl
  rcases hs with ⟨-, rfl⟩ | ⟨hne, rfl⟩
  · exact ⟨h.headLog, h.tailLog, hle, h.seenTail_le, h.behind, by simp only; omega, trivial,
      h.consumer, h.popped, hslots⟩
  · -- not full as far as the producer can see, so one more position is within its window
    have hroom : s.pushed.length + 1 < position + q.cap := by
      by_contra hge
      refine hne ?_
      rw [q.and_mask, hprod, Nat.mod_add_mod]
      have : s.pushed.length + 1 = position + q.cap := by omega
      rw [this, Nat.add_mod_right]
    exact ⟨h.headLog, h.tailLog, hle, h.seenTail_le, h.behind, by simp only; omega,
      ⟨hprod, hroom⟩, h.consumer, h.popped, hslots⟩

/-- The slots between the two sides, with what a thread has in hand. -/
theorem Inv.lo_le (h : Inv q s) : s.popped.length + s.consumer.emptied ≤ s.pushed.length := by
  have h1 := h.behind
  have h2 := h.seenTail_le
  have h3 := h.consumer
  cases hc : s.consumer <;> simp only [ConsumerInv, hc, Consumer.emptied] at h3 ⊢ <;> omega

theorem Inv.pushConstruct (h : Inv q s) (hs : step q s .pushConstruct = some s') : Inv q s' := by
  obtain ⟨value, tail, hp, rfl⟩ := step_pushConstruct hs
  have hslots := h.slots
  have hprod := h.producer
  have hle := h.seenHead_le
  rw [hp, Producer.pending, List.append_nil] at hslots
  simp only [ProducerInv, hp] at hprod
  obtain ⟨rfl, hroom⟩ := hprod
  exact ⟨h.headLog, h.tailLog, h.seenHead_le, h.seenTail_le, h.behind, h.ahead, ⟨rfl, hroom⟩,
    h.consumer, h.popped, hslots.construct h.lo_le (by omega) value⟩

theorem Inv.pushStoreTail (h : Inv q s) (hs : step q s .pushStoreTail = some s') : Inv q s' := by
  obtain ⟨value, tail, hp, rfl⟩ := step_pushStoreTail hs
  have hslots := h.slots
  have hprod := h.producer
  have hcons := h.consumer
  have hle := h.seenTail_le
  have hbehind := h.behind
  rw [hp, Producer.pending] at hslots
  simp only [ProducerInv, hp] at hprod
  obtain ⟨rfl, hroom⟩ := hprod
  refine ⟨h.headLog, ?_, h.seenHead_le, ?_, h.behind, ?_, trivial, ?_, ?_, ?_⟩
  · simp only [List.length_append, List.length_singleton]
    rw [h.tailLog, indices_succ]
  · simp only [List.length_append]; omega
  · simp only [List.length_append, List.length_singleton]; omega
  · cases hc : s.consumer <;> simp only [ConsumerInv, hc] at hcons ⊢
    · exact hcons
    · exact hcons
    · exact ⟨hcons.1, hcons.2.1, by
        rw [hcons.2.2, List.getElem?_append_left (by omega)]⟩
  · simp only
    rw [List.take_append_of_le_length (by omega)]
    exact h.popped
  · simp only [Producer.pending, List.append_nil]
    exact hslots

/-! ### The consumer's steps -/

theorem Inv.popLoadHead (h : Inv q s) (hs : step q s .popLoadHead = some s') : Inv q s' := by
  obtain ⟨hc, rfl⟩ := step_popLoadHead hs
  have hslots := h.slots
  rw [hc] at hslots
  exact ⟨h.headLog, h.tailLog, h.seenHead_le, h.seenTail_le, h.behind, h.ahead, h.producer,
    by simp only [ConsumerInv, h.headLog, latest_indices], h.popped, hslots⟩

theorem Inv.popLoadTail (h : Inv q s) (hs : step q s (.popLoadTail position) = some s') :
    Inv q s' := by
  obtain ⟨head, tail, hc, hl, hseen, hs⟩ := step_popLoadTail hs
  have hslots := h.slots
  have hcons := h.consumer
  have hbehind := h.behind
  rw [hc] at hslots
  simp only [ConsumerInv, hc] at hcons
  rw [h.tailLog] at hl
  obtain ⟨hle, rfl⟩ := getElem?_indices hl
  rcases hs with ⟨-, rfl⟩ | ⟨hne, rfl⟩
  · exact ⟨h.headLog, h.tailLog, h.seenHead_le, hle, by simp only; omega, h.ahead, h.producer,
      trivial, h.popped, hslots⟩
  · -- not empty as far as the consumer can see, so its position has been published
    have hlt : s.popped.length < position := by
      rcases Nat.lt_or_ge s.popped.length position with hlt | hge
      · exact hlt
      · exact absurd (by rw [hcons, Nat.le_antisymm hge (by omega)]) hne
    exact ⟨h.headLog, h.tailLog, h.seenHead_le, hle, by simp only; omega, h.ahead, h.producer,
      ⟨hcons, hlt⟩, h.popped, hslots⟩

theorem Inv.popTake (h : Inv q s) (hs : step q s .popTake = some s') : Inv q s' := by
  obtain ⟨head, hc, rfl⟩ := step_popTake hs
  have hslots := h.slots
  have hcons := h.consumer
  have hprod := h.producer
  have h1 := h.ahead
  have h2 := h.seenHead_le
  have h3 := h.seenTail_le
  rw [hc, Consumer.emptied, Nat.add_zero] at hslots
  simp only [ConsumerInv, hc] at hcons
  obtain ⟨rfl, hlt⟩ := hcons
  have hlen : (s.pushed ++ s.producer.pending).length ≤ s.popped.length + q.cap := by
    rw [List.length_append]
    cases hp : s.producer <;> simp only [ProducerInv, hp, Producer.pending, List.length_nil,
      List.length_singleton] at hprod ⊢ <;> omega
  have hread : s.slots (s.popped.length % q.cap) = s.pushed[s.popped.length]? := by
    rw [hslots.live _ le_rfl (by rw [List.length_append]; omega),
      List.getElem?_append_left (by omega)]
  exact ⟨h.headLog, h.tailLog, h.seenHead_le, h.seenTail_le, h.behind, h.ahead, h.producer,
    ⟨rfl, hlt, hread⟩, h.popped, hslots.take hlen⟩

theorem Inv.popStoreHead (h : Inv q s) (hs : step q s .popStoreHead = some s') : Inv q s' := by
  obtain ⟨result, head, hc, rfl⟩ := step_popStoreHead hs
  have hslots := h.slots
  have hcons := h.consumer
  have h2 := h.seenHead_le
  have h3 := h.seenTail_le
  rw [hc, Consumer.emptied] at hslots
  simp only [ConsumerInv, hc] at hcons
  obtain ⟨rfl, hlt, rfl⟩ := hcons
  refine ⟨?_, h.tailLog, ?_, h.seenTail_le, ?_, h.ahead, h.producer, trivial, ?_, ?_⟩
  · simp only [List.length_append, List.length_singleton]
    rw [h.headLog, indices_succ]
  · simp only [List.length_append]; omega
  · simp only [List.length_append, List.length_singleton]; omega
  · simp only [List.length_append, List.length_singleton]
    rw [List.take_add_one, List.map_append, ← h.popped, List.getElem?_eq_getElem (by omega)]
    rfl
  · simp only [List.length_append, List.length_singleton]
    exact hslots

/-- The consumer may learn of a later `tail_` by other means than `try_pop`. -/
theorem Inv.acquire {n : ℕ} (h : Inv q s) (hle : s.seenTail ≤ n) (hn : n ≤ s.pushed.length) :
    Inv q { s with seenTail := n } := by
  refine ⟨h.headLog, h.tailLog, h.seenHead_le, hn, h.behind.trans hle, h.ahead, h.producer, ?_,
    h.popped, h.slots⟩
  have hcons := h.consumer
  cases hc : s.consumer <;> simp only [ConsumerInv, hc] at hcons ⊢
  · exact hcons
  · exact ⟨hcons.1, hcons.2.trans_le hle⟩
  · exact ⟨hcons.1, hcons.2.1.trans_le hle, hcons.2.2⟩

/-- **Every step of either thread keeps the invariant.** -/
theorem Inv.step {a : Action T} (h : Inv q s) (hs : SPSCQueue.step q s a = some s') : Inv q s' := by
  cases a with
  | pushLoadTail value => exact h.pushLoadTail hs
  | pushLoadHead position => exact h.pushLoadHead hs
  | pushConstruct => exact h.pushConstruct hs
  | pushStoreTail => exact h.pushStoreTail hs
  | popLoadHead => exact h.popLoadHead hs
  | popLoadTail position => exact h.popLoadTail hs
  | popTake => exact h.popTake hs
  | popStoreHead => exact h.popStoreHead hs

theorem inv_of_run {as : List (Action T)} (h : runActions (SPSCQueue.step q) as init = some s) :
    Inv q s :=
  runActions_induction (fun _ _ _ hI hs => hI.step hs) (inv_init q) h

/-! ### Correctness -/

/-- **The queue is correct under every interleaving.** What has been popped is a prefix of what has
been pushed; the producer constructs only into empty slots; the consumer reads only slots in which
an element lives; and at most `Cap - 1` elements are held, counted by the calls that returned or by
the slots. -/
theorem safe_of_run (q : Capacity) (as : List (Action T)) (s : State T)
    (h : runActions (SPSCQueue.step q) as init = some s) :
    s.popped <+: s.pushed.map some ∧
    (∀ value tail, s.producer = .checked value tail → s.slots tail = none) ∧
    (∀ head, s.consumer = .checked head → (s.slots head).isSome) ∧
    s.pushed.length ≤ s.popped.length + (q.cap - 1) ∧
    ((Finset.range q.cap).filter fun i => (s.slots i).isSome).card ≤ q.cap - 1 := by
  have hI := inv_of_run h
  have hpos := q.pos
  have h1 := hI.ahead
  have h2 := hI.seenHead_le
  have h3 := hI.lo_le
  have hslots := hI.slots
  refine ⟨?_, fun value tail hp => ?_, fun head hc => ?_, by omega, ?_⟩
  · rw [hI.popped]
    exact (List.take_prefix _ _).map some
  · have hprod := hI.producer
    simp only [ProducerInv, hp] at hprod
    rw [hp, Producer.pending, List.append_nil] at hslots
    rw [hprod.1]
    exact hslots.eq_none (by omega)
  · have hcons := hI.consumer
    have h4 := hI.seenTail_le
    simp only [ConsumerInv, hc] at hcons
    rw [hc, Consumer.emptied, Nat.add_zero] at hslots
    rw [hcons.1, hslots.live _ le_rfl (by rw [List.length_append]; omega), List.getElem?_append_left
      (by omega), List.getElem?_eq_getElem (by omega)]
    rfl
  · -- the slot the producer would use next is empty
    have hlen : (s.pushed ++ s.producer.pending).length <
        s.popped.length + s.consumer.emptied + q.cap := by
      have hprod := hI.producer
      rw [List.length_append]
      cases hp : s.producer <;> simp only [ProducerInv, hp, Producer.pending, List.length_nil,
        List.length_singleton] at hprod ⊢ <;> omega
    have hnone := hslots.eq_none hlen
    have hlt : ((Finset.range q.cap).filter fun i => (s.slots i).isSome).card <
        (Finset.range q.cap).card := by
      refine Finset.card_lt_card (Finset.filter_ssubset.mpr ⟨_, Finset.mem_range.mpr
        (Nat.mod_lt (s.pushed ++ s.producer.pending).length q.pos), ?_⟩)
      rw [hnone]
      simp
    rw [Finset.card_range] at hlt
    omega

/-- Two slots, so one element: a push, a push that finds the queue full, a pop, and a push that
still sees the old `head_` and gives up although there is room. -/
def staleHead : List (Action ℕ) :=
  [.pushLoadTail 7, .pushLoadHead 0, .pushConstruct, .pushStoreTail,
    .pushLoadTail 8, .pushLoadHead 0, .popLoadHead, .popLoadTail 1, .popTake, .popStoreHead,
    .pushLoadTail 9, .pushLoadHead 0]

theorem safe_of_run_staleHead :
    ∃ s, runActions (SPSCQueue.step ⟨2, by decide, by decide⟩) staleHead init = some s ∧
      s.pushed = [7] ∧ s.popped <+: s.pushed.map some :=
  ⟨_, rfl, rfl, (safe_of_run ⟨2, by decide, by decide⟩ staleHead _ rfl).1⟩

end SPSCQueue

end MiniTrader
