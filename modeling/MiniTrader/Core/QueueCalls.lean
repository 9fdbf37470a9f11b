import MiniTrader.Core.QueueThreads
import MiniTrader.Lib.RingHistory

/-!
# The queues as atomic objects

`try_push` and `try_pop` on two threads, with the memory orders of the code, against the list of
bounded length that `SequentialQueue` and `DevQueue` compare single-threaded calls with. In the
order in which they return, the calls of every run give the answers of that list. Two kinds of
answer are not exact: `try_push` may return `false`, and `try_pop` `nullopt`, when the thread has
not seen the latest steps of the other one. These answers change nothing, and each says by how much
it is off.

## Main definitions

* `callOp`, `callAnswer` — a call of a run as a call of the list
* `Linearizes` — the list explains the calls

## Main results

* `SPSCQueue.linearizes_of_run`, `MySPSCQueue.linearizes_of_runActions` — the two queues
-/

namespace MiniTrader

open Fuelled SharedRing

namespace SPSCQueue

variable {T V : Type}

/-- What has been called. -/
def callOp : Call T V → QueueOp T
  | .pushed val | .full val _ => .tryPush val
  | .popped _ | .empty _ => .tryPop

/-- What it has returned, if `read` is what the contents of a slot mean. -/
def callAnswer (read : V → Option T) : Call T V → QueueAnswer T
  | .pushed _ => .pushed true
  | .full _ _ => .pushed false
  | .popped val => .popped (some (read val))
  | .empty _ => .popped none

/-- **Exact calls** are the calls of the bounded list, with its answers. -/
theorem runAnswers_of_legal {put : T → V} {read : V → Option T} (hread : ∀ v, read (put v) = some v)
    {bound : ℕ} {calls : List (Call T V)} {l l' : List T} (h : Legal put bound l calls l')
    (hexact : ∀ call ∈ calls, call.exact = true) :
    runAnswers (fifoStep bound) (calls.map callOp) l = (calls.map (callAnswer read), l') := by
  induction calls generalizing l with
  | nil => exact congrArg (Prod.mk []) h
  | cons call calls ih =>
    have hrest : ∀ call ∈ calls, call.exact = true := fun c hc =>
      hexact c (List.mem_cons_of_mem _ hc)
    have hcall := hexact call List.mem_cons_self
    rw [List.map_cons, List.map_cons, runAnswers]
    cases call with
    | pushed val =>
      rw [callOp, fifoStep, if_neg (Nat.ne_of_lt h.1), ih h.2 hrest]
      rfl
    | full val missed =>
      obtain rfl : missed = 0 := eq_of_beq hcall
      rw [callOp, fifoStep, if_pos (show l.length = bound from h.1), ih h.2 hrest]
      rfl
    | popped val =>
      obtain ⟨first, rest, rfl, rfl, h⟩ := h
      rw [callOp, fifoStep, List.tail_cons, ih h hrest, callAnswer, hread]
      rfl
    | empty missed =>
      obtain rfl : missed = 0 := eq_of_beq hcall
      obtain rfl : l = [] := List.length_eq_zero_iff.mp h.1
      rw [callOp, fifoStep, List.tail_nil, ih h.2 hrest]
      rfl

/-- A list of at most `bound` elements, empty at first and `l` in the end, explains the calls in
their order: all of them up to what they have missed, and those that have missed nothing by the
answers of the list. -/
structure Linearizes (put : T → V) (read : V → Option T) (bound : ℕ) (calls : List (Call T V))
    (l : List T) : Prop where
  legal : Legal put bound [] calls l
  exact : runAnswers (fifoStep bound) ((calls.filter Call.exact).map callOp) [] =
    ((calls.filter Call.exact).map (callAnswer read), l)

theorem linearizes_of_lawful {r : SharedRing.Ring T V} {value : ℕ → ℕ} {bound : ℕ}
    (hr : r.Lawful value bound) {read : V → Option T} (hread : ∀ v, read (r.put v) = some v)
    (buf : ℕ → V) {as : List (SharedRing.Action T)} {s : SharedRing.State T V}
    (h : runActions (SharedRing.step r) as (SharedRing.init (value 0) buf) = some s) :
    Linearizes r.put read bound (history r as (SharedRing.init (value 0) buf)) s.held where
  legal := legal_of_run hr buf h
  exact := runAnswers_of_legal hread (legal_of_run hr buf h).filter_exact fun _ hc =>
    (List.mem_filter.mp hc).2

/-- **`SPSCQueue` is a list of at most `Cap - 1` elements** that two threads call, under all
interleavings, with the memory orders of the code and whichever values the loads return. In the
order in which they return, the calls put in at the end and take out at the front; a call that gives
up has counted the list right up to the steps of the other thread that it has missed; and the calls
that have missed nothing get the answers of the list. -/
theorem linearizes_of_run (q : Capacity) (as : List (SharedRing.Action T))
    (s : SharedRing.State T (Option T))
    (h : runActions (SharedRing.step (ring q)) as (SharedRing.init 0 fun _ => none) = some s) :
    Linearizes some id (q.cap - 1) (history (ring q) as (SharedRing.init 0 fun _ => none))
      s.held := by
  have hstart : SharedRing.init (0 % q.cap) (fun _ => none) =
      (SharedRing.init 0 fun _ => none : SharedRing.State T (Option T)) := by rw [Nat.zero_mod]
  rw [← hstart] at h ⊢
  exact linearizes_of_lawful (lawful_ring q) (fun _ => rfl) _ h

/-- The second push has not seen the pop and gives up, with one step missed. -/
theorem linearizes_of_run_stale : ∃ s : SharedRing.State ℕ (Option ℕ),
    runActions (SharedRing.step (ring ⟨2, by decide, by decide⟩)) staleActions
      (SharedRing.init 0 fun _ => none) = some s ∧
    s.held = [] ∧
    Linearizes some id 1 (history (ring ⟨2, by decide, by decide⟩) staleActions
      (SharedRing.init 0 fun _ => none)) s.held := by
  have hrun : (runActions (SharedRing.step (ring ⟨2, by decide, by decide⟩)) staleActions
      (SharedRing.init 0 fun _ => none)).map
      (fun s : SharedRing.State ℕ (Option ℕ) => s.held) = some [] := by decide +kernel
  obtain ⟨s, hs, hheld⟩ := Option.map_eq_some_iff.mp hrun
  exact ⟨s, hs, hheld, linearizes_of_run ⟨2, by decide, by decide⟩ staleActions s hs⟩

end SPSCQueue

namespace MySPSCQueue

open SPSCQueue

variable {T : Type}

/-- **`MySPSCQueue` is a list of at most `Cap` elements** that two threads call, likewise, whatever
the counters start with. -/
theorem linearizes_of_runActions (q : Capacity) (hq : q.cap ≤ 2 ^ 63) (start : ℕ)
    (hstart : start < 2 ^ 64) (buf : ℕ → T) (moved : T → T) (as : List (SharedRing.Action T))
    (s : SharedRing.State T T)
    (h : runActions (SharedRing.step (ring q moved)) as (SharedRing.init start buf) = some s) :
    Linearizes id some q.cap (history (ring q moved) as (SharedRing.init start buf)) s.held := by
  have hvalue : SharedRing.init ((start + 0) % 2 ^ 64) buf =
      (SharedRing.init start buf : SharedRing.State T T) := by
    rw [Nat.add_zero, Nat.mod_eq_of_lt hstart]
  rw [← hvalue] at h ⊢
  exact linearizes_of_lawful (lawful_ring hq moved start) (fun _ => rfl) buf h

theorem linearizes_of_runActions_wrapped : ∃ s : SharedRing.State ℕ ℕ,
    runActions (SharedRing.step (ring ⟨2, by decide, by decide⟩ fun _ => 0)) wrappedActions
      (SharedRing.init 18446744073709551615 fun _ => 0) = some s ∧
    s.held = [8] ∧
    Linearizes id some 2 (history (ring ⟨2, by decide, by decide⟩ fun _ => 0) wrappedActions
      (SharedRing.init 18446744073709551615 fun _ => 0)) s.held := by
  have hrun : (runActions (SharedRing.step (ring ⟨2, by decide, by decide⟩ fun _ => 0))
      wrappedActions (SharedRing.init 18446744073709551615 fun _ => 0)).map
      (fun s : SharedRing.State ℕ ℕ => s.held) = some [8] := by
    decide +kernel
  obtain ⟨s, hs, hheld⟩ := Option.map_eq_some_iff.mp hrun
  exact ⟨s, hs, hheld, linearizes_of_runActions ⟨2, by decide, by decide⟩ (by decide)
    18446744073709551615 (by decide) (fun _ => 0) (fun _ => 0) wrappedActions s hs⟩

end MySPSCQueue

end MiniTrader
