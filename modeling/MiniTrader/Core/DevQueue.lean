import MiniTrader.Core.SequentialQueue

/-!
# The queue with free-running counters

`include/core/spsc_queue_dev.h`. The counters of `MySPSCQueue` are never masked: they run through
all of `std::size_t` and wrap there, the number of elements is their difference modulo `2 ^ 64`, and
only the access to the buffer masks them. So no slot is kept free, and the queue holds `Cap`
elements where `SPSCQueue` holds `Cap - 1`.

A counter that wraps goes on in the next slot because `Cap` divides `2 ^ 64`. That is what makes the
slot of an element its distance from the head, `Holds.slots`, which does not mention the wrap.

The buffer is a plain array. Every slot has a value from the beginning, and keeps one when its value
has been moved away; neither is specified, and both are parameters here.

## Main definitions

* `MySPSCQueue`, `tryPush`, `tryPop`
* `Holds` — the simulation relation

## Main results

* `dev_eq_fifo` — the queue is a list of at most `Cap` elements, and the same as `SPSCQueue` as long
  as it does not hold that many
-/

namespace MiniTrader

open Fuelled SPSCQueue

/-! ### The code -/

/-- The data members, as one thread sees them. -/
structure MySPSCQueue (T : Type) where
  head : ℕ
  tail : ℕ
  buf : ℕ → T

namespace MySPSCQueue

variable {T : Type}

/-- `try_push`. -/
def tryPush (q : Capacity) (val : T) (r : MySPSCQueue T) : Bool × MySPSCQueue T :=
  if (r.tail + 2 ^ 64 - r.head) % 2 ^ 64 ≥ q.cap then (false, r)
  else (true, { r with
    buf := fun i => if i = r.tail &&& q.mask then val else r.buf i
    tail := (r.tail + 1) % 2 ^ 64 })

/-- `try_pop`. What a move leaves behind is `moved`. -/
def tryPop (q : Capacity) (moved : T → T) (r : MySPSCQueue T) : Option T × MySPSCQueue T :=
  if r.tail = r.head then (none, r)
  else
    let val := r.buf (r.head &&& q.mask)
    (some val, { r with
      buf := fun i => if i = r.head &&& q.mask then moved val else r.buf i
      head := (r.head + 1) % 2 ^ 64 })

/-- A call. -/
inductive DevOp (T : Type) where
  | tryPush (val : T)
  | tryPop

/-- The same call of `SPSCQueue`. -/
def DevOp.queueOp : DevOp T → QueueOp T
  | .tryPush val => .tryPush val
  | .tryPop => .tryPop

/-- One call. -/
def devStep (q : Capacity) (moved : T → T) :
    DevOp T → MySPSCQueue T → QueueAnswer T × MySPSCQueue T
  | .tryPush val, r => (.pushed (tryPush q val r).1, (tryPush q val r).2)
  | .tryPop, r => (.popped ((tryPop q moved r).1.map some), (tryPop q moved r).2)

/-! ### The refinement -/

/-- The queue holds the list, oldest first. -/
structure Holds (q : Capacity) (r : MySPSCQueue T) (l : List T) : Prop where
  length_le : l.length ≤ q.cap
  head_lt : r.head < 2 ^ 64
  tail_eq : r.tail = (r.head + l.length) % 2 ^ 64
  slots : ∀ i v, l[i]? = some v → r.buf ((r.head + i) % q.cap) = v

theorem holds_start (q : Capacity) {start : ℕ} (hstart : start < 2 ^ 64) (buf : ℕ → T) :
    Holds q ⟨start, start, buf⟩ [] where
  length_le := Nat.zero_le _
  head_lt := hstart
  tail_eq := (Nat.mod_eq_of_lt hstart).symm
  slots _ _ h := by cases h

variable {q : Capacity} {r : MySPSCQueue T} {l : List T} {moved : T → T} {v : T}

theorem lt_two_pow (hq : q.cap ≤ 2 ^ 63) : q.cap < 2 ^ 64 := by omega

/-- **The wrap of a counter** does not show in the slots. -/
theorem mod_two_pow_add_mod (hq : q.cap ≤ 2 ^ 63) (n i : ℕ) :
    (n % 2 ^ 64 + i) % q.cap = (n + i) % q.cap := by
  rw [← Nat.mod_add_mod, Nat.mod_mod_of_dvd _ (q.dvd_two_pow (lt_two_pow hq)), Nat.mod_add_mod]

/-- **The difference of the counters** is the number of elements. -/
theorem Holds.sub_eq (h : Holds q r l) (hq : q.cap ≤ 2 ^ 63) :
    (r.tail + 2 ^ 64 - r.head) % 2 ^ 64 = l.length := by
  have hlen := h.length_le
  have hhead := h.head_lt
  rw [h.tail_eq]
  omega

theorem Holds.empty_iff (h : Holds q r l) (hq : q.cap ≤ 2 ^ 63) : r.tail = r.head ↔ l = [] := by
  have hlen := h.length_le
  have hhead := h.head_lt
  rw [h.tail_eq, ← List.length_eq_zero_iff]
  omega

theorem Holds.tail_slot (h : Holds q r l) (hq : q.cap ≤ 2 ^ 63) :
    r.tail &&& q.mask = (r.head + l.length) % q.cap := by
  rw [q.and_mask, h.tail_eq]
  exact mod_two_pow_add_mod hq _ 0

theorem tryPush_of_full (h : (r.tail + 2 ^ 64 - r.head) % 2 ^ 64 ≥ q.cap) :
    tryPush q v r = (false, r) := if_pos h

theorem tryPush_of_not_full (h : ¬ (r.tail + 2 ^ 64 - r.head) % 2 ^ 64 ≥ q.cap) :
    tryPush q v r = (true, { r with
      buf := fun i => if i = r.tail &&& q.mask then v else r.buf i
      tail := (r.tail + 1) % 2 ^ 64 }) := if_neg h

theorem tryPop_of_empty (h : r.tail = r.head) : tryPop q moved r = (none, r) := if_pos h

theorem tryPop_of_not_empty (h : r.tail ≠ r.head) :
    tryPop q moved r = (some (r.buf (r.head &&& q.mask)), { r with
      buf := fun i =>
        if i = r.head &&& q.mask then moved (r.buf (r.head &&& q.mask)) else r.buf i
      head := (r.head + 1) % 2 ^ 64 }) := if_neg h

/-- The slots of the elements and of the next one are distinct. -/
theorem slot_ne {n i j : ℕ} (hij : i < j) (hj : j < i + q.cap) :
    (n + i) % q.cap ≠ (n + j) % q.cap := by
  intro heq
  have := eq_of_mod_eq (by omega) (by omega) heq
  omega

theorem Holds.push (h : Holds q r l) (hq : q.cap ≤ 2 ^ 63) (v : T) (hroom : l.length < q.cap) :
    Holds q (tryPush q v r).2 (l ++ [v]) := by
  have hnot : ¬ (r.tail + 2 ^ 64 - r.head) % 2 ^ 64 ≥ q.cap := by
    rw [h.sub_eq hq]
    omega
  rw [tryPush_of_not_full hnot]
  refine ⟨?_, h.head_lt, ?_, fun i w hi => ?_⟩
  · rw [List.length_append, List.length_singleton]
    exact hroom
  · rw [List.length_append, List.length_singleton]
    change (r.tail + 1) % 2 ^ 64 = _
    rw [h.tail_eq, Nat.mod_add_mod, Nat.add_assoc]
  · change (if (r.head + i) % q.cap = r.tail &&& q.mask then v
      else r.buf ((r.head + i) % q.cap)) = w
    rw [h.tail_slot hq]
    rcases Nat.lt_or_ge i l.length with hlt | hge
    · rw [if_neg (slot_ne hlt (by omega))]
      rw [List.getElem?_append_left hlt] at hi
      exact h.slots i w hi
    · -- the element that has just been pushed
      obtain ⟨hlt, hw⟩ := List.getElem?_eq_some_iff.mp hi
      rw [List.length_append, List.length_singleton] at hlt
      obtain rfl : i = l.length := by omega
      rw [if_pos rfl, ← hw, List.getElem_concat_length rfl]

theorem Holds.pop (h : Holds q r (v :: l)) (hq : q.cap ≤ 2 ^ 63) (moved : T → T) :
    (tryPop q moved r).1 = some v ∧ Holds q (tryPop q moved r).2 l := by
  have hne := mt (h.empty_iff hq).mp (List.cons_ne_nil v l)
  have hlen := h.length_le
  rw [List.length_cons] at hlen
  have hslot : r.head &&& q.mask = (r.head + 0) % q.cap := q.and_mask r.head
  rw [tryPop_of_not_empty hne, hslot]
  refine ⟨congrArg some (h.slots 0 v rfl), by omega, Nat.mod_lt _ (by decide), ?_, fun i w hi => ?_⟩
  · change r.tail = _
    rw [h.tail_eq, List.length_cons, Nat.mod_add_mod, Nat.add_assoc, Nat.add_comm 1]
  · obtain ⟨hlt, -⟩ := List.getElem?_eq_some_iff.mp hi
    change (if ((r.head + 1) % 2 ^ 64 + i) % q.cap = _ then _ else r.buf _) = w
    rw [mod_two_pow_add_mod hq, Nat.add_assoc, Nat.add_comm 1 i,
      if_neg (slot_ne (Nat.succ_pos i) (by omega)).symm]
    exact h.slots (i + 1) w hi

/-- **One call** gives the same answer on the queue and on the list. -/
theorem Holds.step (hq : q.cap ≤ 2 ^ 63) (moved : T → T) (op : DevOp T) (h : Holds q r l) :
    (devStep q moved op r).1 = (fifoStep q.cap op.queueOp l).1 ∧
      Holds q (devStep q moved op r).2 (fifoStep q.cap op.queueOp l).2 := by
  cases op with
  | tryPush v =>
    have hsub := h.sub_eq hq
    have hlen := h.length_le
    by_cases hfull : l.length = q.cap
    · rw [devStep, DevOp.queueOp, fifoStep, if_pos hfull, tryPush_of_full (by omega)]
      exact ⟨rfl, h⟩
    · have hpush := h.push hq v (by omega)
      rw [devStep, DevOp.queueOp, fifoStep, if_neg hfull]
      refine ⟨?_, hpush⟩
      rw [tryPush_of_not_full (by omega)]
  | tryPop =>
    cases l with
    | nil =>
      rw [devStep, DevOp.queueOp, fifoStep, tryPop_of_empty ((h.empty_iff hq).mpr rfl)]
      exact ⟨rfl, h⟩
    | cons v l =>
      obtain ⟨hans, hrest⟩ := h.pop hq moved
      refine ⟨?_, hrest⟩
      rw [devStep, DevOp.queueOp, fifoStep, hans]
      rfl

/-! ### The two queues -/

/-- One place more makes no difference to a call that does not need it. -/
theorem fifoStep_succ {bound : ℕ} {op : QueueOp T} (hlen : l.length ≤ bound)
    (hstep : (fifoStep (bound + 1) op l).2.length ≤ bound) :
    fifoStep (bound + 1) op l = fifoStep bound op l := by
  cases op with
  | tryPush v =>
    have hroom : l.length ≠ bound := by
      rintro rfl
      rw [fifoStep, if_neg (by omega), List.length_append, List.length_singleton] at hstep
      omega
    rw [fifoStep, fifoStep, if_neg (by omega), if_neg hroom]
  | tryPop => rfl
  | empty => rfl
  | sizeApprox => rfl

/-- **One place more** makes no difference to a run that does not need it. -/
theorem runAnswers_fifoStep_succ {bound : ℕ} {ops : List (QueueOp T)} {l : List T}
    (h : ∀ pre, pre <+: ops → (runAnswers (fifoStep (bound + 1)) pre l).2.length ≤ bound) :
    runAnswers (fifoStep (bound + 1)) ops l = runAnswers (fifoStep bound) ops l := by
  induction ops generalizing l with
  | nil => rfl
  | cons op ops ih =>
    have hlen : l.length ≤ bound := h [] List.nil_prefix
    have hstep : (fifoStep (bound + 1) op l).2.length ≤ bound :=
      h [op] (List.cons_prefix_cons.mpr ⟨rfl, List.nil_prefix⟩)
    have hrest := ih (l := (fifoStep (bound + 1) op l).2) fun pre hpre =>
      h (op :: pre) (List.cons_prefix_cons.mpr ⟨rfl, hpre⟩)
    rw [runAnswers, runAnswers, hrest, fifoStep_succ hlen hstep]

/-- **A FIFO of `Cap` elements**, whatever the counters start with. Called one at a time, the
methods of the queue answer as those of a list of at most `Cap` elements do; and if that list never
holds more than `Cap - 1`, as those of `SPSCQueue` do. -/
theorem dev_eq_fifo (q : Capacity) (hq : q.cap ≤ 2 ^ 63) (start : ℕ) (hstart : start < 2 ^ 64)
    (buf : ℕ → T) (moved : T → T) (ops : List (DevOp T)) :
    (runAnswers (devStep q moved) ops ⟨start, start, buf⟩).1 =
        (runAnswers (fifoStep q.cap) (ops.map DevOp.queueOp) []).1 ∧
      ((∀ pre, pre <+: ops →
          (runAnswers (fifoStep q.cap) (pre.map DevOp.queueOp) ([] : List T)).2.length ≤
            q.cap - 1) →
        (runAnswers (devStep q moved) ops ⟨start, start, buf⟩).1 =
          (runAnswers (ringStep q) (ops.map DevOp.queueOp) Ring.init).1) := by
  have hfifo : (runAnswers (devStep q moved) ops ⟨start, start, buf⟩).1 =
      (runAnswers (fifoStep q.cap) (ops.map DevOp.queueOp) []).1 := by
    rw [runAnswers_map]
    exact (runAnswers_simulation (fun op h => Holds.step hq moved op h) ops
      (holds_start q hstart buf)).1
  refine ⟨hfifo, fun hroom => ?_⟩
  have hring := (runAnswers_simulation (fun op h => Represents.step (lt_two_pow hq) op h)
    (ops.map DevOp.queueOp) (represents_init (T := T) q)).1
  have hpos : q.cap - 1 + 1 = q.cap := Nat.sub_add_cancel q.pos
  have hsame : runAnswers (fifoStep (q.cap - 1 + 1)) (ops.map DevOp.queueOp) ([] : List T) =
      runAnswers (fifoStep (q.cap - 1)) (ops.map DevOp.queueOp) [] := by
    refine runAnswers_fifoStep_succ fun pre hpre => ?_
    obtain ⟨pre', hpre', rfl⟩ := List.prefix_map_iff.mp hpre
    rw [hpos]
    exact hroom pre' hpre'
  rw [hfifo, hring, ← hsame, hpos]

/-- Two slots, and counters about to wrap: of three pushes in a row the third fails; with one
element at a time there is no difference to `SPSCQueue`. -/
theorem dev_eq_fifo_wrap :
    (runAnswers (devStep ⟨2, by decide, by decide⟩ id)
        [.tryPush 7, .tryPush 8, .tryPush 9, .tryPop, .tryPush 9, .tryPop, .tryPop, .tryPop]
        ⟨18446744073709551615, 18446744073709551615, fun _ => 0⟩).1 =
      [.pushed true, .pushed true, .pushed false, .popped (some (some 7)), .pushed true,
        .popped (some (some 8)), .popped (some (some 9)), .popped none] ∧
    (runAnswers (devStep ⟨2, by decide, by decide⟩ id) [.tryPush 7, .tryPop, .tryPush 8, .tryPop]
        ⟨18446744073709551615, 18446744073709551615, fun _ => 0⟩).1 =
      (runAnswers (ringStep ⟨2, by decide, by decide⟩)
        [.tryPush 7, .tryPop, .tryPush 8, .tryPop] (Ring.init : SPSCQueue.Ring ℕ)).1 := by
  constructor
  · rw [(dev_eq_fifo ⟨2, by decide, by decide⟩ (by decide) 18446744073709551615 (by decide)
      (fun _ => 0) id _).1]
    rfl
  · have hroom : ∀ pre ∈ List.inits [DevOp.tryPush 7, .tryPop, .tryPush 8, .tryPop],
        (runAnswers (fifoStep 2) (pre.map DevOp.queueOp) ([] : List ℕ)).2.length ≤ 2 - 1 := by
      decide
    exact (dev_eq_fifo ⟨2, by decide, by decide⟩ (by decide) 18446744073709551615 (by decide)
      (fun _ => 0) id _).2 fun pre hpre => hroom pre ((List.mem_inits pre _).mpr hpre)

end MySPSCQueue

end MiniTrader
