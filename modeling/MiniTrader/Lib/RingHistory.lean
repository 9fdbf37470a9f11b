import MiniTrader.Lib.SharedRing

/-!
# The calls of a shared ring as atomic operations

A call on the ring buffer of `SharedRing` is several steps, and the other thread takes steps in
between. Seen from outside it happens at once, when it returns: a call that puts an element in
returns with the store of `tail`, one that takes an element out with the store of `head`, and one
that gives up with the load after which it does so. The calls in the order of their returns are the
`history` of a run. A call that has returned before another one begins comes before it.

## The calls that give up

A load may return an old value. A thread that has missed steps of the other one gives up when the
queue would be full, or empty, without them. So it answers what a list of bounded length would
answer, with the missed steps undone. If it has missed none its answer is exact; and it never goes
on wrongly, since old values err in the direction of giving up. With release and acquire this is all
that can be said: both threads may miss each other's last step, and then no order of their calls
explains both answers.

## Main definitions

* `Call`, `history` — the calls of a run, with their answers
* `Legal` — the calls one after the other, on a list

## Main results

* `Inv.legal_step` — what returns with a step
* `legal_of_run` — the history of every run is legal
-/

namespace MiniTrader

open Fuelled

namespace SharedRing

open ReleaseAcquire

/-- A call that has returned. One that has given up has missed some steps of the other thread. -/
inductive Call (T V : Type) where
  | pushed (val : T)
  | full (val : T) (missed : ℕ)
  | popped (val : V)
  | empty (missed : ℕ)

variable {T V : Type}

/-- The call did not give up because of what it has missed. -/
def Call.exact : Call T V → Bool
  | .pushed _ | .popped _ => true
  | .full _ missed | .empty missed => missed == 0

/-- How many values the counter has had since the one at a position. -/
def State.missed (s : State T V) (k : Counter) (position : ℕ) : ℕ :=
  (s.memory.atoms k).length - (position + 1)

/-- The call that returns with a step from `s` to `s'`. -/
def returned (s s' : State T V) : Action T → Option (Call T V)
  | .pushLoadHead position =>
    match s.producer, s'.producer with
    | .loadedTail val _, .ready => some (.full val (s.missed .head position))
    | _, _ => none
  | .pushStoreTail =>
    match s.producer with
    | .placed val _ => some (.pushed val)
    | _ => none
  | .popLoadTail position =>
    match s'.consumer with
    | .ready => some (.empty (s.missed .tail position))
    | _ => none
  | .popStoreHead =>
    match s.consumer with
    | .taken val _ => some (.popped val)
    | _ => none
  | _ => none

/-- The calls of a run, in the order in which they return. -/
def history (r : Ring T V) : List (Action T) → State T V → List (Call T V)
  | [], _ => []
  | a :: as, s =>
    match step r s a with
    | none => []
    | some s' => (returned s s' a).toList ++ history r as s'

/-- The calls are those of a list of at most `bound` elements, from one list to another. -/
def Legal (put : T → V) (bound : ℕ) : List T → List (Call T V) → List T → Prop
  | l, [], l' => l = l'
  | l, .pushed val :: calls, l' => l.length < bound ∧ Legal put bound (l ++ [val]) calls l'
  | l, .full _ missed :: calls, l' => l.length + missed = bound ∧ Legal put bound l calls l'
  | l, .popped val :: calls, l' =>
    ∃ first rest, l = first :: rest ∧ val = put first ∧ Legal put bound rest calls l'
  | l, .empty missed :: calls, l' => l.length = missed ∧ Legal put bound l calls l'

variable {put : T → V} {bound : ℕ} {calls calls' : List (Call T V)} {l l₁ l' : List T}

theorem Legal.append (h : Legal put bound l calls l₁) (h' : Legal put bound l₁ calls' l') :
    Legal put bound l (calls ++ calls') l' := by
  induction calls generalizing l with
  | nil => exact h ▸ h'
  | cons call calls ih =>
    cases call with
    | pushed val => exact ⟨h.1, ih h.2⟩
    | full val missed => exact ⟨h.1, ih h.2⟩
    | popped val =>
      obtain ⟨first, rest, hl, hval, h⟩ := h
      exact ⟨first, rest, hl, hval, ih h⟩
    | empty missed => exact ⟨h.1, ih h.2⟩

/-- Calls that have given up leave no trace. -/
theorem Legal.filter_exact (h : Legal put bound l calls l') :
    Legal put bound l (calls.filter Call.exact) l' := by
  induction calls generalizing l with
  | nil => exact h
  | cons call calls ih =>
    cases call with
    | pushed val => exact ⟨h.1, ih h.2⟩
    | full val missed =>
      rw [List.filter_cons]
      split
      exacts [⟨h.1, ih h.2⟩, ih h.2]
    | popped val =>
      obtain ⟨first, rest, hl, hval, h⟩ := h
      exact ⟨first, rest, hl, hval, ih h⟩
    | empty missed =>
      rw [List.filter_cons]
      split
      exacts [⟨h.1, ih h.2⟩, ih h.2]

/-! ### What returns with a step -/

variable {r : Ring T V} {value : ℕ → ℕ} {s s' : State T V} {position p n : ℕ}

/-- Two counters that are not more than `bound` apart have different values. -/
theorem Ring.Lawful.eq_of_value_eq (hr : r.Lawful value bound) (hpn : p ≤ n) (hnp : n ≤ p + bound)
    (heq : value p = value n) : p = n := by
  rcases Nat.lt_or_ge n (p + bound) with hlt | hge
  · by_contra hne
    exact hr.slot_ne (lt_of_le_of_ne hpn hne) hlt (congrArg r.slot heq)
  · -- a queue that is full is not empty, unless it has no room at all
    have hfull := (hr.full_value hpn hnp).mpr (Nat.le_antisymm hnp hge)
    rw [← heq, hr.full_value le_rfl (Nat.le_add_right ..)] at hfull
    omega

/-- What the queue holds. -/
def State.held (s : State T V) : List T := s.pushed.drop s.popped.length

theorem length_held (s : State T V) : s.held.length = s.pushed.length - s.popped.length :=
  List.length_drop

/-- A value of `head` that the producer has read. -/
theorem Inv.read_head (h : Inv r value bound s) {a : ℕ} {w : View ℕ Counter}
    (hread : (s.memory.atoms .head)[position]? = some (a, w))
    (hle : s.pushView.2 .head ≤ position) :
    a = value position ∧ s.pushed.length ≤ position + bound ∧
      position + s.missed .head position = s.popped.length := by
  obtain ⟨hlt, -⟩ := List.getElem?_eq_some_iff.mp hread
  have hlen := h.headLog.length
  have hahead := h.ahead
  refine ⟨h.headLog.eq_value hread, by omega, ?_⟩
  rw [State.missed]
  omega

/-- A value of `tail` that the consumer has read. -/
theorem Inv.read_tail (h : Inv r value bound s) {a : ℕ} {w : View ℕ Counter}
    (hread : (s.memory.atoms .tail)[position]? = some (a, w))
    (hle : s.popView.2 .tail ≤ position) :
    a = value position ∧ s.popped.length ≤ position ∧
      position + s.missed .tail position = s.pushed.length := by
  obtain ⟨hlt, -⟩ := List.getElem?_eq_some_iff.mp hread
  have hlen := h.tailLog.length
  have hbehind := h.behind
  refine ⟨h.tailLog.eq_value hread, by omega, ?_⟩
  rw [State.missed]
  omega

theorem Inv.legal_pushLoadHead (h : Inv r value bound s) (hr : r.Lawful value bound)
    (hs : SharedRing.step r s (.pushLoadHead position) = some s') :
    Legal r.put bound s.held (returned s s' (.pushLoadHead position)).toList s'.held := by
  cases hp : s.producer with
  | loadedTail val t =>
    simp only [SharedRing.step, hp, Option.map_eq_some_iff, Prod.exists] at hs
    obtain ⟨a, m, hload, hs⟩ := hs
    obtain ⟨w, hread, hle, rfl⟩ := Memory.of_loadAcquire_eq_some hload
    obtain ⟨rfl, hahead, hmissed⟩ := h.read_head hread hle
    have hprod := h.producer
    have hlo := h.lo_le
    simp only [ProducerInv, hp] at hprod
    split at hs <;> subst hs
    · rename_i hfull
      rw [hprod, hr.full_value (by omega) hahead] at hfull
      simp only [returned, hp, Option.toList, Legal]
      rw [length_held]
      exact ⟨by omega, rfl⟩
    · simp only [returned, hp, Option.toList, Legal]
      rfl
  | _ => simp [SharedRing.step, hp] at hs

theorem Inv.legal_pushStoreTail (h : Inv r value bound s)
    (hs : SharedRing.step r s .pushStoreTail = some s') :
    Legal r.put bound s.held (returned s s' .pushStoreTail).toList s'.held := by
  cases hp : s.producer with
  | placed val t =>
    simp only [SharedRing.step, hp, Option.some.injEq] at hs
    subst hs
    have hlo := h.lo_le
    have hhi := h.hi_le
    simp only [hp, Pushing.pending, List.length_singleton] at hhi
    simp only [returned, hp, Option.toList, Legal]
    refine ⟨by rw [length_held]; omega, ?_⟩
    exact (List.drop_append_of_le_length (by omega)).symm
  | _ => simp [SharedRing.step, hp] at hs

theorem Inv.legal_popLoadTail (h : Inv r value bound s) (hr : r.Lawful value bound)
    (hs : SharedRing.step r s (.popLoadTail position) = some s') :
    Legal r.put bound s.held (returned s s' (.popLoadTail position)).toList s'.held := by
  cases hc : s.consumer with
  | loadedHead a =>
    simp only [SharedRing.step, hc, Option.map_eq_some_iff, Prod.exists] at hs
    obtain ⟨b, m, hload, hs⟩ := hs
    obtain ⟨w, hread, hle, rfl⟩ := Memory.of_loadAcquire_eq_some hload
    obtain ⟨rfl, hbehind, hmissed⟩ := h.read_tail hread hle
    have hcons := h.consumer
    have hhi := h.hi_le
    simp only [ConsumerInv, hc] at hcons
    split at hs <;> subst hs
    · rename_i hempty
      rw [hcons] at hempty
      have heq := hr.eq_of_value_eq hbehind (by omega) hempty
      simp only [returned, Option.toList, Legal]
      exact ⟨by rw [length_held]; omega, rfl⟩
    · simp only [returned, Option.toList, Legal]
      rfl
  | _ => simp [SharedRing.step, hc] at hs

theorem Inv.legal_popStoreHead (h : Inv r value bound s)
    (hs : SharedRing.step r s .popStoreHead = some s') :
    Legal r.put bound s.held (returned s s' .popStoreHead).toList s'.held := by
  cases hc : s.consumer with
  | taken val a =>
    simp only [SharedRing.step, hc, Option.some.injEq] at hs
    subst hs
    have hcons := h.consumer
    simp only [ConsumerInv, hc] at hcons
    obtain ⟨first, hfirst, rfl⟩ := Option.map_eq_some_iff.mp hcons.2.2
    obtain ⟨hlt, rfl⟩ := List.getElem?_eq_some_iff.mp hfirst
    simp only [returned, hc, Option.toList, Legal]
    refine ⟨s.pushed[s.popped.length], s.pushed.drop (s.popped.length + 1),
      List.drop_eq_getElem_cons hlt, rfl, ?_⟩
    rw [State.held, List.length_append, List.length_singleton]
  | _ => simp [SharedRing.step, hc] at hs

/-- **What returns with a step** is a call of the list of bounded length, and nothing else changes
what is held. -/
theorem Inv.legal_step {a : Action T} (h : Inv r value bound s) (hr : r.Lawful value bound)
    (hs : SharedRing.step r s a = some s') :
    Legal r.put bound s.held (returned s s' a).toList s'.held := by
  cases a with
  | pushLoadTail val position =>
    cases hp : s.producer with
    | ready =>
      simp only [SharedRing.step, hp, Option.map_eq_some_iff] at hs
      obtain ⟨-, -, rfl⟩ := hs
      exact rfl
    | _ => simp [SharedRing.step, hp] at hs
  | pushLoadHead position => exact h.legal_pushLoadHead hr hs
  | pushPlace =>
    cases hp : s.producer with
    | checked val t =>
      simp only [SharedRing.step, hp, Option.some.injEq] at hs
      subst hs
      exact rfl
    | _ => simp [SharedRing.step, hp] at hs
  | pushStoreTail => exact h.legal_pushStoreTail hs
  | popLoadHead position =>
    cases hc : s.consumer with
    | ready =>
      simp only [SharedRing.step, hc, Option.map_eq_some_iff] at hs
      obtain ⟨-, -, rfl⟩ := hs
      exact rfl
    | _ => simp [SharedRing.step, hc] at hs
  | popLoadTail position => exact h.legal_popLoadTail hr hs
  | popTake =>
    cases hc : s.consumer with
    | checked a =>
      simp only [SharedRing.step, hc, Option.some.injEq] at hs
      subst hs
      exact rfl
    | _ => simp [SharedRing.step, hc] at hs
  | popStoreHead => exact h.legal_popStoreHead hs

theorem Inv.legal_history {as : List (Action T)} (h : Inv r value bound s)
    (hr : r.Lawful value bound) (hrun : runActions (SharedRing.step r) as s = some s') :
    Legal r.put bound s.held (history r as s) s'.held := by
  induction as generalizing s with
  | nil => cases hrun; rfl
  | cons a as ih =>
    obtain ⟨t, ht, hrest⟩ := Option.bind_eq_some_iff.mp hrun
    rw [history, ht]
    exact (h.legal_step hr ht).append (ih (h.step hr ht) hrest)

/-- **The calls of a run**, in the order in which they return, are those of a list of at most
`bound` elements; and what the queue holds in the end is the list. -/
theorem legal_of_run (hr : r.Lawful value bound) (buf : ℕ → V) {as : List (Action T)}
    (h : runActions (SharedRing.step r) as (init (value 0) buf) = some s) :
    Legal r.put bound [] (history r as (init (value 0) buf)) s.held :=
  (inv_init r value bound buf).legal_history hr h

end SharedRing

end MiniTrader
