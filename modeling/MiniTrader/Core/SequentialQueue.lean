import MiniTrader.Core.SPSCQueue

/-!
# The queue seen by one thread

The methods of `include/core/spsc_queue.h` called one at a time. What they are meant to be is a list
that is never longer than `capacity() = Cap - 1`.

The indices are `std::size_t`: they are masked after every increment, and the subtraction in
`size_approx` wraps modulo `2 ^ 64` before it is masked. `Represents` reads the list off the ring
with the help of the elements that have been popped before: together they are the history of the
pushes, and the position of an element in it determines its slot (`SlotsInv`).

The calls made here are runs of the two threads of `Core/SPSCQueue` in which every call is finished
before the next one begins and every load is up to date.

## Main definitions

* `Ring`, `tryPush`, `tryPop`, `empty`, `sizeApprox`
* `fifoStep` — the bounded list
* `Represents` — the simulation relation

## Main results

* `ring_eq_fifo` — the ring and the list give the same answers
* `exists_run_runAnswers` — sequences of calls are runs of the machine with two threads
-/

namespace MiniTrader

open Fuelled

namespace SPSCQueue

variable {T : Type}

/-! ### The code -/

/-- The data members, as one thread sees them. -/
structure Ring (T : Type) where
  head : ℕ
  tail : ℕ
  slots : ℕ → Option T

/-- The constructor. -/
def Ring.init : Ring T := ⟨0, 0, fun _ => none⟩

/-- `try_push`. -/
def tryPush (q : Capacity) (value : T) (r : Ring T) : Bool × Ring T :=
  let nextTail := (r.tail + 1) &&& q.mask
  if nextTail = r.head then (false, r)
  else (true, { r with
    tail := nextTail
    slots := fun i => if i = r.tail then some value else r.slots i })

/-- `try_pop`. The outer option is the `std::optional`; the inner one is `none` when nothing lives
in the slot that is read. -/
def tryPop (q : Capacity) (r : Ring T) : Option (Option T) × Ring T :=
  if r.head = r.tail then (none, r)
  else (some (r.slots r.head), { r with
    head := (r.head + 1) &&& q.mask
    slots := fun i => if i = r.head then none else r.slots i })

/-- `empty`. -/
def empty (r : Ring T) : Bool := decide (r.head = r.tail)

/-- `size_approx`. -/
def sizeApprox (q : Capacity) (r : Ring T) : ℕ :=
  (r.tail + 2 ^ 64 - r.head) % 2 ^ 64 &&& q.mask

/-- A call. -/
inductive QueueOp (T : Type) where
  | tryPush (value : T)
  | tryPop
  | empty
  | sizeApprox

/-- What a call returns. -/
inductive QueueAnswer (T : Type) where
  | pushed (ok : Bool)
  | popped (result : Option (Option T))
  | empty (yes : Bool)
  | size (n : ℕ)
  deriving DecidableEq

/-- One call. -/
def ringStep (q : Capacity) : QueueOp T → Ring T → QueueAnswer T × Ring T
  | .tryPush value, r => (.pushed (tryPush q value r).1, (tryPush q value r).2)
  | .tryPop, r => (.popped (tryPop q r).1, (tryPop q r).2)
  | .empty, r => (.empty (SPSCQueue.empty r), r)
  | .sizeApprox, r => (.size (SPSCQueue.sizeApprox q r), r)

/-! ### The bounded list -/

/-- One call on a list of at most `bound` elements, oldest first. -/
def fifoStep (bound : ℕ) : QueueOp T → List T → QueueAnswer T × List T
  | .tryPush value, l =>
    if l.length = bound then (.pushed false, l) else (.pushed true, l ++ [value])
  | .tryPop, l => (.popped (l.head?.map some), l.tail)
  | .empty, l => (.empty l.isEmpty, l)
  | .sizeApprox, l => (.size l.length, l)

/-! ### The refinement -/

/-- The ring holds the list. `past` is what has been popped. -/
def Represents (q : Capacity) (r : Ring T) (l : List T) : Prop :=
  l.length < q.cap ∧ ∃ past : List T, r.head = past.length % q.cap ∧
    r.tail = (past ++ l).length % q.cap ∧ SlotsInv q r.slots past.length (past ++ l)

theorem represents_init (q : Capacity) : Represents q (Ring.init : Ring T) [] :=
  ⟨q.pos, [], rfl, rfl, ⟨fun _ _ h => absurd h (Nat.not_lt_zero _), fun _ _ _ => rfl⟩⟩

variable {q : Capacity} {r : Ring T} {l : List T}

/-- The next index is the head just when there is no room. -/
theorem Represents.full_iff (h : Represents q r l) :
    (r.tail + 1) &&& q.mask = r.head ↔ l.length = q.cap - 1 := by
  obtain ⟨hlt, past, hhead, htail, -⟩ := h
  have hpos := q.pos
  rw [q.and_mask, htail, hhead, Nat.mod_add_mod, List.length_append]
  constructor
  · intro he
    by_contra hne
    have := eq_of_mod_eq (c := q.cap) (by omega) (by omega) he.symm
    omega
  · intro he
    rw [show past.length + l.length + 1 = past.length + q.cap by omega, Nat.add_mod_right]

/-- The indices agree just when there is no element. -/
theorem Represents.empty_iff (h : Represents q r l) : r.head = r.tail ↔ l = [] := by
  obtain ⟨hlt, past, hhead, htail, -⟩ := h
  rw [htail, hhead, List.length_append]
  constructor
  · intro he
    have := eq_of_mod_eq (c := q.cap) (by omega) (by omega) he
    exact List.length_eq_zero_iff.mp (by omega)
  · rintro rfl
    rfl

theorem Represents.empty_eq (h : Represents q r l) : empty r = l.isEmpty := by
  rw [Bool.eq_iff_iff, empty, decide_eq_true_iff, h.empty_iff, List.isEmpty_iff]

/-- A smaller power of two divides a larger one. -/
theorem Capacity.dvd_two_pow (q : Capacity) {n : ℕ} (h : q.cap < 2 ^ n) : q.cap ∣ 2 ^ n := by
  obtain ⟨k, hk⟩ := (Nat.and_sub_one_eq_zero_iff_isPowerOfTwo (Nat.ne_of_gt q.pos)).mp q.pow
  rw [hk] at h ⊢
  exact pow_dvd_pow 2 ((Nat.pow_lt_pow_iff_right Nat.one_lt_two).mp h).le

/-- **The difference of the indices is the length**, however often they have wrapped. -/
theorem Represents.sizeApprox_eq (h : Represents q r l) (hq : q.cap < 2 ^ 64) :
    sizeApprox q r = l.length := by
  obtain ⟨hlt, past, hhead, htail, -⟩ := h
  have hdvd := q.dvd_two_pow hq
  have hhead_lt : r.head < q.cap := hhead ▸ Nat.mod_lt _ q.pos
  rw [sizeApprox, q.and_mask, Nat.mod_mod_of_dvd _ hdvd]
  have hsum : (r.tail + 2 ^ 64 - r.head + r.head) % q.cap = (l.length + r.head) % q.cap := by
    rw [Nat.sub_add_cancel (by omega), Nat.add_mod, Nat.mod_eq_zero_of_dvd hdvd, Nat.add_zero,
      Nat.mod_mod, htail, hhead, Nat.mod_mod, List.length_append, Nat.add_mod_mod,
      Nat.add_comm]
  have hmod : (r.tail + 2 ^ 64 - r.head) % q.cap = l.length % q.cap :=
    Nat.ModEq.add_right_cancel' r.head hsum
  exact hmod.trans (Nat.mod_eq_of_lt hlt)

theorem tryPush_of_full {value : T} (h : (r.tail + 1) &&& q.mask = r.head) :
    tryPush q value r = (false, r) := if_pos h

theorem tryPush_of_not_full {value : T} (h : (r.tail + 1) &&& q.mask ≠ r.head) :
    tryPush q value r = (true, { r with
      tail := (r.tail + 1) &&& q.mask
      slots := fun i => if i = r.tail then some value else r.slots i }) := if_neg h

theorem tryPop_of_empty (h : r.head = r.tail) : tryPop q r = (none, r) := if_pos h

theorem tryPop_of_not_empty (h : r.head ≠ r.tail) :
    tryPop q r = (some (r.slots r.head), { r with
      head := (r.head + 1) &&& q.mask
      slots := fun i => if i = r.head then none else r.slots i }) := if_neg h

theorem Represents.push (h : Represents q r l) (value : T) (hroom : l.length ≠ q.cap - 1) :
    Represents q (tryPush q value r).2 (l ++ [value]) := by
  have hnext := mt h.full_iff.mp hroom
  obtain ⟨hlt, past, hhead, htail, hslots⟩ := h
  rw [tryPush_of_not_full hnext]
  refine ⟨by rw [List.length_append, List.length_singleton]; omega, past, hhead, ?_, ?_⟩
  · rw [← List.append_assoc, List.length_append, List.length_singleton]
    show (r.tail + 1) &&& q.mask = _
    rw [q.and_mask, htail, Nat.mod_add_mod]
  · have hlen := @List.length_append _ past l
    rw [← List.append_assoc, htail]
    exact hslots.construct (by omega) (by omega) value

theorem Represents.pop {v : T} (h : Represents q r (v :: l)) :
    (tryPop q r).1 = some (some v) ∧ Represents q (tryPop q r).2 l := by
  have hne := mt h.empty_iff.mp (List.cons_ne_nil v l)
  obtain ⟨hlt, past, hhead, htail, hslots⟩ := h
  have hlen := @List.length_append _ past (v :: l)
  rw [List.length_cons] at hlt hlen
  have happ : past ++ v :: l = past ++ [v] ++ l := by rw [List.append_assoc]; rfl
  rw [tryPop_of_not_empty hne]
  refine ⟨?_, by omega, past ++ [v], ?_, by rw [← happ]; exact htail, ?_⟩
  · rw [hhead, hslots.live _ le_rfl (by omega), List.getElem?_append_right le_rfl, Nat.sub_self]
    rfl
  · rw [List.length_append, List.length_singleton]
    show (r.head + 1) &&& q.mask = _
    rw [q.and_mask, hhead, Nat.mod_add_mod]
  · rw [List.length_append, List.length_singleton, ← happ, hhead]
    exact hslots.take (by omega)

/-- **One call** gives the same answer on the ring and on the list. -/
theorem Represents.step (hq : q.cap < 2 ^ 64) (op : QueueOp T) (h : Represents q r l) :
    (ringStep q op r).1 = (fifoStep (q.cap - 1) op l).1 ∧
      Represents q (ringStep q op r).2 (fifoStep (q.cap - 1) op l).2 := by
  cases op with
  | tryPush value =>
    by_cases hfull : l.length = q.cap - 1
    · rw [ringStep, fifoStep, if_pos hfull, tryPush_of_full (h.full_iff.mpr hfull)]
      exact ⟨rfl, h⟩
    · have hpush := h.push value hfull
      rw [ringStep, fifoStep, if_neg hfull]
      refine ⟨?_, hpush⟩
      rw [tryPush_of_not_full (mt h.full_iff.mp hfull)]
  | tryPop =>
    cases l with
    | nil =>
      rw [ringStep, fifoStep, tryPop_of_empty (h.empty_iff.mpr rfl)]
      exact ⟨rfl, h⟩
    | cons v l =>
      obtain ⟨hans, hrest⟩ := h.pop
      refine ⟨?_, hrest⟩
      rw [ringStep, fifoStep, hans]
      rfl
  | empty =>
    refine ⟨?_, h⟩
    rw [ringStep, fifoStep, h.empty_eq]
  | sizeApprox =>
    refine ⟨?_, h⟩
    rw [ringStep, fifoStep, h.sizeApprox_eq hq]

/-- **A bounded FIFO.** Called one at a time, the methods of a queue with any capacity that a
`std::size_t` holds answer as those of a list of at most `Cap - 1` elements do, and a push that
fails changes nothing. -/
theorem ring_eq_fifo (q : Capacity) (hq : q.cap < 2 ^ 64) (ops : List (QueueOp T)) :
    (runAnswers (ringStep q) ops Ring.init).1 = (runAnswers (fifoStep (q.cap - 1)) ops []).1 ∧
      (runAnswers (fifoStep (q.cap - 1)) ops ([] : List T)).2.length ≤ q.cap - 1 ∧
      ∀ value, (tryPush q value (runAnswers (ringStep q) ops Ring.init).2).1 = false →
        (tryPush q value (runAnswers (ringStep q) ops Ring.init).2).2 =
          (runAnswers (ringStep q) ops Ring.init).2 := by
  obtain ⟨hans, hrep⟩ := runAnswers_simulation (fun op h => h.step hq op) ops
    (represents_init (T := T) q)
  refine ⟨hans, Nat.le_sub_one_of_lt hrep.1, fun value hfail => ?_⟩
  by_cases hfull : ((runAnswers (ringStep q) ops Ring.init).2.tail + 1) &&& q.mask =
      (runAnswers (ringStep q) ops Ring.init).2.head
  · rw [tryPush_of_full hfull]
  · rw [tryPush_of_not_full hfull] at hfail
    cases hfail

/-- Two slots: the second push fails, and then both indices wrap. -/
theorem ring_eq_fifo_wrap :
    (runAnswers (ringStep ⟨2, by decide, by decide⟩) [.tryPush 7, .tryPush 8, .sizeApprox, .tryPop,
        .tryPush 9, .sizeApprox, .tryPop, .tryPop, .empty] (Ring.init : Ring ℕ)).1 =
      [.pushed true, .pushed false, .size 1, .popped (some (some 7)), .pushed true, .size 1,
        .popped (some (some 9)), .popped none, .empty true] := by
  rw [(ring_eq_fifo ⟨2, by decide, by decide⟩ (by decide) _).1]
  rfl

/-! ### The machine with two threads -/

/-- What the two threads share, when neither is in a call. -/
def State.ring (s : State T) : Ring T := ⟨latest s.headLog, latest s.tailLog, s.slots⟩

/-- Neither thread is in a call. -/
structure Idle (s : State T) : Prop where
  producer : s.producer = .ready
  consumer : s.consumer = .ready

variable {s : State T}

theorem Inv.load_head (h : Inv q s) :
    s.headLog[s.popped.length]? = some (latest s.headLog) := by
  rw [h.headLog, latest_indices, indices, List.getElem?_map, List.getElem?_range (by omega)]
  rfl

theorem Inv.load_tail (h : Inv q s) :
    s.tailLog[s.pushed.length]? = some (latest s.tailLog) := by
  rw [h.tailLog, latest_indices, indices, List.getElem?_map, List.getElem?_range (by omega)]
  rfl

theorem latest_append (log : List ℕ) (n : ℕ) : latest (log ++ [n]) = n := by
  rw [latest, List.getLast?_concat]
  rfl

/-- **A call is a run of the machine**: its steps one after the other, each load returning the
latest value. -/
theorem exists_run_ringStep (h : Inv q s) (hidle : Idle s) (op : QueueOp T) :
    ∃ as s', runActions (SPSCQueue.step q) as s = some s' ∧ Idle s' ∧
      s'.ring = (ringStep q op s.ring).2 := by
  have hprod := hidle.producer
  have hcons := hidle.consumer
  cases op with
  | tryPush value =>
    by_cases hfull : (latest s.tailLog + 1) &&& q.mask = latest s.headLog
    · refine ⟨[.pushLoadTail value, .pushLoadHead s.popped.length],
        { s with producer := .ready, seenHead := s.popped.length }, ?_, ⟨rfl, hcons⟩, ?_⟩
      · simp [runActions, SPSCQueue.step, hprod, h.load_head, h.seenHead_le, hfull]
      · rw [ringStep, tryPush_of_full hfull]
        rfl
    · refine ⟨[.pushLoadTail value, .pushLoadHead s.popped.length, .pushConstruct, .pushStoreTail],
        { s with
          producer := .ready, seenHead := s.popped.length
          slots := fun i => if i = latest s.tailLog then some value else s.slots i
          tailLog := s.tailLog ++ [(latest s.tailLog + 1) &&& q.mask]
          pushed := s.pushed ++ [value] }, ?_, ⟨rfl, hcons⟩, ?_⟩
      · simp [runActions, SPSCQueue.step, hprod, h.load_head, h.seenHead_le, hfull]
      · rw [ringStep, tryPush_of_not_full hfull, State.ring, latest_append]
        rfl
  | tryPop =>
    by_cases hempty : latest s.headLog = latest s.tailLog
    · refine ⟨[.popLoadHead, .popLoadTail s.pushed.length],
        { s with consumer := .ready, seenTail := s.pushed.length }, ?_, ⟨hprod, rfl⟩, ?_⟩
      · simp [runActions, SPSCQueue.step, hcons, h.load_tail, h.seenTail_le, hempty]
      · rw [ringStep, tryPop_of_empty hempty]
        rfl
    · refine ⟨[.popLoadHead, .popLoadTail s.pushed.length, .popTake, .popStoreHead],
        { s with
          consumer := .ready, seenTail := s.pushed.length
          slots := fun i => if i = latest s.headLog then none else s.slots i
          headLog := s.headLog ++ [(latest s.headLog + 1) &&& q.mask]
          popped := s.popped ++ [s.slots (latest s.headLog)] }, ?_, ⟨hprod, rfl⟩, ?_⟩
      · simp [runActions, SPSCQueue.step, hcons, h.load_tail, h.seenTail_le, hempty]
      · rw [ringStep, tryPop_of_not_empty hempty, State.ring, latest_append]
        rfl
  | empty => exact ⟨[], s, rfl, hidle, rfl⟩
  | sizeApprox => exact ⟨[], s, rfl, hidle, rfl⟩

/-- **A sequence of calls is a run of the machine** with two threads. -/
theorem exists_run_runAnswers (ops : List (QueueOp T)) (h : Inv q s) (hidle : Idle s) :
    ∃ as s', runActions (SPSCQueue.step q) as s = some s' ∧ Idle s' ∧
      s'.ring = (runAnswers (ringStep q) ops s.ring).2 := by
  induction ops generalizing s with
  | nil => exact ⟨[], s, rfl, hidle, rfl⟩
  | cons op ops ih =>
    obtain ⟨as, t, hrun, hidle', hring⟩ := exists_run_ringStep h hidle op
    have ht : Inv q t := runActions_induction (fun _ _ _ hI hs => hI.step hs) h hrun
    obtain ⟨as', s', hrun', hidle'', hring'⟩ := ih ht hidle'
    refine ⟨as ++ as', s', by rw [runActions_append hrun, hrun'], hidle'', ?_⟩
    rw [hring', hring, runAnswers]

end SPSCQueue

end MiniTrader
