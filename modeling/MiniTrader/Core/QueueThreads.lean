import MiniTrader.Core.DevQueue
import MiniTrader.Lib.SharedRing

/-!
# The queues on two threads

`SPSCQueue` and `MySPSCQueue` are the same protocol with different arithmetic. Both load the own
counter relaxed and the other one with acquire, use a slot, and store the own counter with release;
one stores its counters modulo the capacity and keeps a slot free, the other one stores them modulo
`2 ^ 64`. With the memory orders of the code both are free of data races on the slots.

`Core/SPSCQueue` takes the slots for a single memory that both threads see. That is right because
there are no races, and `exists_run_of_ring` says so: whatever `SPSCQueue` does with release and
acquire, the model of that file does as well.

## Main definitions

* `MySPSCQueue.ring`, `SPSCQueue.ring` — the two queues
* `SPSCQueue.erase` — the state without what the threads know

## Main results

* `MySPSCQueue.safe_of_runActions` — no races, first in first out, at most `Cap` elements
* `SPSCQueue.exists_run_of_ring` — no races, and the refinement
-/

namespace MiniTrader

open Fuelled SharedRing ReleaseAcquire

variable {T : Type}

namespace MySPSCQueue

open SPSCQueue

/-- `try_push` and `try_pop`. What a move leaves behind is `moved`. -/
def ring (q : Capacity) (moved : T → T) : Ring T T where
  full t h := (t + 2 ^ 64 - h) % 2 ^ 64 ≥ q.cap
  slot t := t &&& q.mask
  next t := (t + 1) % 2 ^ 64
  put := id
  left := moved

/-- The slot of the element that is `n` behind the first one. -/
theorem slotOf_ring {q : Capacity} (hq : q.cap ≤ 2 ^ 63) (moved : T → T) (start n : ℕ) :
    (ring q moved).slotOf (fun n => (start + n) % 2 ^ 64) n = (start + n) % q.cap := by
  rw [Ring.slotOf]
  show (start + n) % 2 ^ 64 &&& q.mask = _
  rw [q.and_mask]
  exact mod_two_pow_add_mod hq _ 0

theorem lawful_ring {q : Capacity} (hq : q.cap ≤ 2 ^ 63) (moved : T → T) (start : ℕ) :
    (ring q moved).Lawful (fun n => (start + n) % 2 ^ 64) q.cap where
  next_value n := Nat.mod_add_mod ..
  full_value {p n} hpn hnp := by
    show decide (((start + n) % 2 ^ 64 + 2 ^ 64 - (start + p) % 2 ^ 64) % 2 ^ 64 ≥ q.cap) = true ↔ _
    rw [decide_eq_true_iff]
    omega
  slot_ne hij hj := by
    rw [slotOf_ring hq, slotOf_ring hq]
    exact slot_ne hij hj

/-- **`MySPSCQueue` on two threads**, under all interleavings, with the memory orders of the code,
whatever the counters start with and whichever values the loads return. There is no data race on the
slots; what has been popped is a prefix of what has been pushed; and at most `Cap` elements are
held. -/
theorem safe_of_runActions (q : Capacity) (hq : q.cap ≤ 2 ^ 63) (start : ℕ)
    (hstart : start < 2 ^ 64) (buf : ℕ → T) (moved : T → T) (as : List (SharedRing.Action T))
    (s : SharedRing.State T T)
    (h : runActions (SharedRing.step (ring q moved)) as (SharedRing.init start buf) = some s) :
    s.memory.raced = false ∧ s.popped <+: s.pushed ∧
      s.pushed.length ≤ s.popped.length + q.cap := by
  have hvalue : (start + 0) % 2 ^ 64 = start := Nat.mod_eq_of_lt hstart
  obtain ⟨hraced, hprefix, hbound⟩ := raceFree_of_run (lawful_ring hq moved start) buf (by
    rw [hvalue]
    exact h)
  refine ⟨hraced, ?_, hbound⟩
  rwa [show s.pushed.map (ring q moved).put = s.pushed from List.map_id _] at hprefix

/-- Two slots, counters about to wrap, and a consumer that first sees the queue empty. -/
def wrappedActions : List (SharedRing.Action ℕ) :=
  [.pushLoadTail 7 0, .pushLoadHead 0, .pushPlace, .pushStoreTail, .popLoadHead 0, .popLoadTail 0,
    .pushLoadTail 8 1, .pushLoadHead 0, .pushPlace, .popLoadHead 0, .popLoadTail 1, .pushStoreTail,
    .popTake, .popStoreHead, .pushLoadTail 9 2, .pushLoadHead 1, .pushPlace]

theorem safe_of_runActions_wrapped : ∃ s : SharedRing.State ℕ ℕ,
    runActions (SharedRing.step (ring ⟨2, by decide, by decide⟩ fun _ => 0)) wrappedActions
      (SharedRing.init 18446744073709551615 fun _ => 0) = some s ∧
    s.pushed = [7, 8] ∧ s.popped = [7] ∧ s.memory.raced = false := by
  have hrun : (runActions (SharedRing.step (ring ⟨2, by decide, by decide⟩ fun _ => 0))
      wrappedActions (SharedRing.init 18446744073709551615 fun _ => 0)).map
      (fun s : SharedRing.State ℕ ℕ => (s.pushed, s.popped)) = some ([7, 8], [7]) := by
    decide +kernel
  obtain ⟨s, hs, heq⟩ := Option.map_eq_some_iff.mp hrun
  obtain ⟨hpushed, hpopped⟩ := Prod.mk.inj heq
  exact ⟨s, hs, hpushed, hpopped, (safe_of_runActions ⟨2, by decide, by decide⟩ (by decide)
    18446744073709551615 (by decide) (fun _ => 0) (fun _ => 0) wrappedActions s hs).1⟩

end MySPSCQueue

namespace SPSCQueue

/-- `try_push` and `try_pop`. A slot in which nothing lives has no contents. -/
def ring (q : Capacity) : SharedRing.Ring T (Option T) where
  full tail head := (tail + 1) &&& q.mask = head
  slot := id
  next n := (n + 1) &&& q.mask
  put := some
  left _ := none

theorem lawful_ring (q : Capacity) :
    (ring q : SharedRing.Ring T (Option T)).Lawful (fun n => n % q.cap) (q.cap - 1) where
  next_value n := by
    show (n % q.cap + 1) &&& q.mask = (n + 1) % q.cap
    rw [q.and_mask, Nat.mod_add_mod]
  full_value {p n} hpn hnp := by
    have hpos := q.pos
    show decide ((n % q.cap + 1) &&& q.mask = p % q.cap) = true ↔ _
    rw [decide_eq_true_iff, q.and_mask, Nat.mod_add_mod]
    constructor
    · intro heq
      by_contra hne
      have := eq_of_mod_eq (c := q.cap) (by omega : p ≤ n + 1) (by omega) heq.symm
      omega
    · rintro rfl
      rw [show p + (q.cap - 1) + 1 = p + q.cap by omega, Nat.add_mod_right]
  slot_ne {i j} hij hj heq := by
    have hmod : i % q.cap = j % q.cap := heq
    have := eq_of_mod_eq (c := q.cap) hij.le (by omega) hmod
    omega

/-! ### The refinement -/

/-- The action of the other model. Its threads load their own counters without a choice. -/
def eraseAction : SharedRing.Action T → Action T
  | .pushLoadTail val _ => .pushLoadTail val
  | .pushLoadHead position => .pushLoadHead position
  | .pushPlace => .pushConstruct
  | .pushStoreTail => .pushStoreTail
  | .popLoadHead _ => .popLoadHead
  | .popLoadTail position => .popLoadTail position
  | .popTake => .popTake
  | .popStoreHead => .popStoreHead

/-- Where the producer is in the other model. -/
def eraseProducer : Pushing T → Producer T
  | .ready => .ready
  | .loadedTail val t => .loadedTail val t
  | .checked val t => .checked val t
  | .placed val t => .built val t

/-- Where the consumer is in the other model. -/
def eraseConsumer : Popping (Option T) → Consumer T
  | .ready => .ready
  | .loadedHead h => .loadedHead h
  | .checked h => .checked h
  | .taken val h => .taken val h

/-- The state without what the threads know of the slots. -/
def erase (s : SharedRing.State T (Option T)) : State T where
  headLog := (s.memory.atoms .head).map Prod.fst
  tailLog := (s.memory.atoms .tail).map Prod.fst
  slots := s.memory.contents
  producer := eraseProducer s.producer
  consumer := eraseConsumer s.consumer
  seenHead := s.pushView.2 .head
  seenTail := s.popView.2 .tail
  pushed := s.pushed
  popped := s.popped

variable {q : Capacity} {s s' : SharedRing.State T (Option T)} {v : T}

theorem erase_init :
    erase (SharedRing.init 0 fun _ => none : SharedRing.State T (Option T)) = init := rfl

/-- A load of the own counter returns its latest value. -/
theorem latest_map_fst {log : List (ℕ × View ℕ Counter)} {n p a : ℕ} {w : View ℕ Counter}
    (hlen : log.length = n + 1) (hp : n ≤ p) (hread : log[p]? = some (a, w)) :
    latest (log.map Prod.fst) = a := by
  obtain ⟨hlt, -⟩ := List.getElem?_eq_some_iff.mp hread
  obtain rfl : p = n := by omega
  rw [latest, List.getLast?_eq_getElem?, List.length_map, hlen, Nat.add_sub_cancel,
    List.getElem?_map, hread]
  rfl

section

variable {w : View ℕ Counter} {pc : Pushing T} {pc' : Popping (Option T)} {i n : ℕ} {c : Option T}

theorem erase_pushLearn :
    erase { s with memory := s.memory.learn .producer w, producer := pc } =
      { erase s with producer := eraseProducer pc, seenHead := (s.pushView ⊔ w).2 .head } := by
  have hview : (s.memory.learn .producer w).views .producer = s.pushView ⊔ w :=
    Memory.views_learn_self
  have hother : (s.memory.learn .producer w).views .consumer = s.popView :=
    Memory.views_learn_of_ne (by decide)
  simp only [erase, State.pushView, State.popView, hview, hother]
  rfl

theorem erase_popLearn :
    erase { s with memory := s.memory.learn .consumer w, consumer := pc' } =
      { erase s with consumer := eraseConsumer pc', seenTail := (s.popView ⊔ w).2 .tail } := by
  have hview : (s.memory.learn .consumer w).views .consumer = s.popView ⊔ w :=
    Memory.views_learn_self
  have hother : (s.memory.learn .consumer w).views .producer = s.pushView :=
    Memory.views_learn_of_ne (by decide)
  simp only [erase, State.pushView, State.popView, hview, hother]
  rfl

/-- Putting an element in changes the slots. -/
theorem erase_pushAccess :
    erase { s with memory := s.memory.access .producer i c, producer := pc } =
      { erase s with
        producer := eraseProducer pc
        slots := fun j => if j = i then c else s.memory.contents j } := by
  have hview : (s.memory.access .producer i c).views .producer =
      s.memory.views .producer ⊔ .cell i (s.memory.accesses i + 1) := Memory.views_access_self
  have hother : (s.memory.access .producer i c).views .consumer = s.popView :=
    Memory.views_access_of_ne (by decide)
  have hcont : (s.memory.access .producer i c).contents =
      fun j => if j = i then c else s.memory.contents j := funext fun j => Memory.contents_access
  have hseen : (s.memory.views .producer ⊔ .cell i (s.memory.accesses i + 1)).2 .head =
      (s.memory.views .producer).2 .head := Nat.max_zero _
  simp only [erase, State.pushView, State.popView, hview, hother, hcont, hseen]
  rfl

theorem erase_popAccess :
    erase { s with memory := s.memory.access .consumer i c, consumer := pc' } =
      { erase s with
        consumer := eraseConsumer pc'
        slots := fun j => if j = i then c else s.memory.contents j } := by
  have hview : (s.memory.access .consumer i c).views .consumer =
      s.memory.views .consumer ⊔ .cell i (s.memory.accesses i + 1) := Memory.views_access_self
  have hother : (s.memory.access .consumer i c).views .producer = s.pushView :=
    Memory.views_access_of_ne (by decide)
  have hcont : (s.memory.access .consumer i c).contents =
      fun j => if j = i then c else s.memory.contents j := funext fun j => Memory.contents_access
  have hseen : (s.memory.views .consumer ⊔ .cell i (s.memory.accesses i + 1)).2 .tail =
      (s.memory.views .consumer).2 .tail := Nat.max_zero _
  simp only [erase, State.pushView, State.popView, hview, hother, hcont, hseen]
  rfl

/-- Storing a counter adds to its values. -/
theorem erase_pushStore :
    erase { s with
      memory := s.memory.storeRelease .producer .tail n
      producer := .ready
      pushed := s.pushed ++ [v] } =
    { erase s with
      producer := .ready
      tailLog := (erase s).tailLog ++ [n]
      pushed := s.pushed ++ [v] } := by
  have hview : (s.memory.storeRelease .producer .tail n).views .producer =
      s.memory.released .producer .tail := Memory.views_storeRelease_self
  have hother : (s.memory.storeRelease .producer .tail n).views .consumer = s.popView :=
    Memory.views_storeRelease_of_ne (by decide)
  have hlog : (s.memory.storeRelease .producer .tail n).atoms .head = s.memory.atoms .head :=
    Memory.atoms_storeRelease_of_ne (by decide)
  have hseen : (s.memory.released .producer .tail).2 .head = s.pushView.2 .head :=
    Nat.max_zero _
  simp only [erase, State.pushView, State.popView, hview, hother, hlog,
    Memory.atoms_storeRelease_self, List.map_append, List.map_cons, List.map_nil]
  rw [hseen]
  rfl

theorem erase_popStore :
    erase { s with
      memory := s.memory.storeRelease .consumer .head n
      consumer := .ready
      popped := s.popped ++ [c] } =
    { erase s with
      consumer := .ready
      headLog := (erase s).headLog ++ [n]
      popped := s.popped ++ [c] } := by
  have hview : (s.memory.storeRelease .consumer .head n).views .consumer =
      s.memory.released .consumer .head := Memory.views_storeRelease_self
  have hother : (s.memory.storeRelease .consumer .head n).views .producer = s.pushView :=
    Memory.views_storeRelease_of_ne (by decide)
  have hlog : (s.memory.storeRelease .consumer .head n).atoms .tail = s.memory.atoms .tail :=
    Memory.atoms_storeRelease_of_ne (by decide)
  have hseen : (s.memory.released .consumer .head).2 .tail = s.popView.2 .tail :=
    Nat.max_zero _
  simp only [erase, State.pushView, State.popView, hview, hother, hlog,
    Memory.atoms_storeRelease_self, List.map_append, List.map_cons, List.map_nil]
  rw [hseen]
  rfl

end

/-- What holds of the queue in every state of every run. -/
abbrev RingInv (q : Capacity) (s : SharedRing.State T (Option T)) : Prop :=
  SharedRing.Inv (ring q) (fun n => n % q.cap) (q.cap - 1) s

/-- What a load of the other counter says is new. -/
theorem seen_of_load {w w' : View ℕ Counter} {k : Counter} {p : ℕ} (hle : w.2 k ≤ p)
    (hpos : w'.2 k ≤ p) : (w ⊔ (w' ⊔ .atom k p)).2 k = p := by
  show max (w.2 k) (max (w'.2 k) ((View.atom k p : View ℕ Counter).2 k)) = p
  rw [atom_self]
  omega

/-- **A step of the producer.** -/
theorem RingInv.pushLoadTail {position : ℕ} (h : RingInv q s)
    (hs : SharedRing.step (ring q) s (.pushLoadTail v position) = some s') :
    step q (erase s) (.pushLoadTail v) = some (erase s') := by
  cases hp : s.producer with
  | ready =>
    simp only [SharedRing.step, hp, Option.map_eq_some_iff, Prod.exists] at hs
    obtain ⟨t, m, hload, rfl⟩ := hs
    obtain ⟨w, hread, hle, rfl⟩ := Memory.of_loadRelaxed_eq_some hload
    have hpos : s.pushView.2 .tail = s.pushed.length := h.pusher.position
    have hlatest : latest (erase s).tailLog = t :=
      latest_map_fst h.tailLog.length (hpos ▸ hle) hread
    have hseen : (s.pushView ⊔ .atom .tail position).2 .head = s.pushView.2 .head := by
      show max _ ((View.atom .tail position : View ℕ Counter).2 .head) = _
      rw [atom_of_ne (by decide)]
      exact Nat.max_zero _
    rw [erase_pushLearn, hseen]
    simp only [step, show (erase s).producer = .ready by simp only [erase, hp, eraseProducer],
      hlatest]
    rfl
  | _ => simp [SharedRing.step, hp] at hs

theorem RingInv.pushLoadHead {position : ℕ} (h : RingInv q s)
    (hs : SharedRing.step (ring q) s (.pushLoadHead position) = some s') :
    step q (erase s) (.pushLoadHead position) = some (erase s') := by
  cases hp : s.producer with
  | loadedTail val t =>
    simp only [SharedRing.step, hp, Option.map_eq_some_iff, Prod.exists] at hs
    obtain ⟨a, m, hload, hs⟩ := hs
    obtain ⟨w, hread, hle, rfl⟩ := Memory.of_loadAcquire_eq_some hload
    have hseen : (s.pushView ⊔ (w ⊔ .atom .head position)).2 .head = position :=
      seen_of_load hle (h.headLog.position hread)
    have hlog : (erase s).headLog[position]? = some a := by
      show ((s.memory.atoms .head).map Prod.fst)[position]? = some a
      rw [List.getElem?_map, hread]
      rfl
    have hprod : (erase s).producer = .loadedTail val t := by simp only [erase, hp, eraseProducer]
    have hle' : (erase s).seenHead ≤ position := hle
    simp only [step, hprod, hlog, if_pos hle']
    by_cases hfull : (t + 1) &&& q.mask = a
    · rw [if_pos hfull]
      rw [if_pos (show (ring q).full t a = true from decide_eq_true hfull)] at hs
      subst hs
      rw [erase_pushLearn, hseen]
      rfl
    · rw [if_neg hfull]
      rw [if_neg (show ¬ (ring q).full t a = true by simpa [ring] using hfull)] at hs
      subst hs
      rw [erase_pushLearn, hseen]
      rfl
  | _ => simp [SharedRing.step, hp] at hs

/-- **A step of the consumer.** -/
theorem RingInv.popLoadHead {position : ℕ} (h : RingInv q s)
    (hs : SharedRing.step (ring q) s (.popLoadHead position) = some s') :
    step q (erase s) .popLoadHead = some (erase s') := by
  cases hc : s.consumer with
  | ready =>
    simp only [SharedRing.step, hc, Option.map_eq_some_iff, Prod.exists] at hs
    obtain ⟨a, m, hload, rfl⟩ := hs
    obtain ⟨w, hread, hle, rfl⟩ := Memory.of_loadRelaxed_eq_some hload
    have hpos : s.popView.2 .head = s.popped.length := h.popper.position
    have hlatest : latest (erase s).headLog = a :=
      latest_map_fst h.headLog.length (hpos ▸ hle) hread
    have hseen : (s.popView ⊔ .atom .head position).2 .tail = s.popView.2 .tail := by
      show max _ ((View.atom .head position : View ℕ Counter).2 .tail) = _
      rw [atom_of_ne (by decide)]
      exact Nat.max_zero _
    rw [erase_popLearn, hseen]
    simp only [step, show (erase s).consumer = .ready by simp only [erase, hc, eraseConsumer],
      hlatest]
    rfl
  | _ => simp [SharedRing.step, hc] at hs

theorem RingInv.popLoadTail {position : ℕ} (h : RingInv q s)
    (hs : SharedRing.step (ring q) s (.popLoadTail position) = some s') :
    step q (erase s) (.popLoadTail position) = some (erase s') := by
  cases hc : s.consumer with
  | loadedHead a =>
    simp only [SharedRing.step, hc, Option.map_eq_some_iff, Prod.exists] at hs
    obtain ⟨b, m, hload, hs⟩ := hs
    obtain ⟨w, hread, hle, rfl⟩ := Memory.of_loadAcquire_eq_some hload
    have hseen : (s.popView ⊔ (w ⊔ .atom .tail position)).2 .tail = position :=
      seen_of_load hle (h.tailLog.position hread)
    have hlog : (erase s).tailLog[position]? = some b := by
      show ((s.memory.atoms .tail).map Prod.fst)[position]? = some b
      rw [List.getElem?_map, hread]
      rfl
    have hcons : (erase s).consumer = .loadedHead a := by simp only [erase, hc, eraseConsumer]
    have hle' : (erase s).seenTail ≤ position := hle
    simp only [step, hcons, hlog, if_pos hle']
    by_cases hempty : a = b
    · rw [if_pos hempty] at hs ⊢
      subst hs
      rw [erase_popLearn, hseen]
      rfl
    · rw [if_neg hempty] at hs ⊢
      subst hs
      rw [erase_popLearn, hseen]
      rfl
  | _ => simp [SharedRing.step, hc] at hs

/-- **Every step** of the queue with release and acquire is a step of the other model. -/
theorem RingInv.step_erase {a : SharedRing.Action T} (h : RingInv q s)
    (hs : SharedRing.step (ring q) s a = some s') :
    step q (erase s) (eraseAction a) = some (erase s') := by
  cases a with
  | pushLoadTail val position => exact h.pushLoadTail hs
  | pushLoadHead position => exact h.pushLoadHead hs
  | pushPlace =>
    cases hp : s.producer with
    | checked val t =>
      simp only [SharedRing.step, hp, Option.some.injEq] at hs
      subst hs
      rw [erase_pushAccess]
      simp only [step, eraseAction, erase, hp, eraseProducer]
      rfl
    | _ => simp [SharedRing.step, hp] at hs
  | pushStoreTail =>
    cases hp : s.producer with
    | placed val t =>
      simp only [SharedRing.step, hp, Option.some.injEq] at hs
      subst hs
      rw [erase_pushStore]
      simp only [step, eraseAction, erase, hp, eraseProducer]
      rfl
    | _ => simp [SharedRing.step, hp] at hs
  | popLoadHead position => exact h.popLoadHead hs
  | popLoadTail position => exact h.popLoadTail hs
  | popTake =>
    cases hc : s.consumer with
    | checked a =>
      simp only [SharedRing.step, hc, Option.some.injEq] at hs
      subst hs
      rw [erase_popAccess]
      simp only [step, eraseAction, erase, hc, eraseConsumer]
      rfl
    | _ => simp [SharedRing.step, hc] at hs
  | popStoreHead =>
    cases hc : s.consumer with
    | taken val a =>
      simp only [SharedRing.step, hc, Option.some.injEq] at hs
      subst hs
      rw [erase_popStore]
      simp only [step, eraseAction, erase, hc, eraseConsumer]
      rfl
    | _ => simp [SharedRing.step, hc] at hs

/-- **`SPSCQueue` on two threads**, under all interleavings, with the memory orders of the code and
whichever values the loads return. There is no data race on the slots; and the run is a run of the
model in which the slots are a single memory that both threads see. -/
theorem exists_run_of_ring (q : Capacity) (as : List (SharedRing.Action T))
    (s : SharedRing.State T (Option T))
    (h : runActions (SharedRing.step (ring q)) as (SharedRing.init 0 fun _ => none) = some s) :
    s.memory.raced = false ∧
      runActions (step q) (as.map eraseAction) init = some (erase s) := by
  have hinit : RingInv q (SharedRing.init 0 fun _ => none : SharedRing.State T (Option T)) := by
    have := SharedRing.inv_init (ring q : SharedRing.Ring T (Option T)) (fun n => n % q.cap)
      (q.cap - 1) fun _ => none
    rwa [Nat.zero_mod] at this
  have hI : RingInv q s :=
    runActions_induction (fun _ _ _ hI hs => hI.step (lawful_ring q) hs) hinit h
  exact ⟨hI.raced, erase_init ▸ runActions_simulation
    (fun _ _ _ hI hs => ⟨hI.step (lawful_ring q) hs, hI.step_erase hs⟩) hinit h⟩

/-- Two slots, so one element: a push, a push that sees an old `head_` and gives up, and a pop. -/
def staleActions : List (SharedRing.Action ℕ) :=
  [.pushLoadTail 7 0, .pushLoadHead 0, .pushPlace, .pushStoreTail, .popLoadHead 0, .popLoadTail 1,
    .popTake, .popStoreHead, .pushLoadTail 8 1, .pushLoadHead 0]

theorem exists_run_of_ring_stale : ∃ s : SharedRing.State ℕ (Option ℕ),
    runActions (SharedRing.step (ring ⟨2, by decide, by decide⟩)) staleActions
      (SharedRing.init 0 fun _ => none) = some s ∧
    s.pushed = [7] ∧ s.memory.raced = false ∧
    runActions (step ⟨2, by decide, by decide⟩) (staleActions.map eraseAction) init =
      some (erase s) := by
  have hrun : (runActions (SharedRing.step (ring ⟨2, by decide, by decide⟩)) staleActions
      (SharedRing.init 0 fun _ => none)).map
      (fun s : SharedRing.State ℕ (Option ℕ) => s.pushed) = some [7] := by decide +kernel
  obtain ⟨s, hs, hpushed⟩ := Option.map_eq_some_iff.mp hrun
  exact ⟨s, hs, hpushed, exists_run_of_ring ⟨2, by decide, by decide⟩ staleActions s hs⟩

end SPSCQueue

end MiniTrader
