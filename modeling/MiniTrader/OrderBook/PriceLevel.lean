import MiniTrader.OrderBook.Order
import Mathlib.Algebra.BigOperators.Group.List.Basic
import Mathlib.Algebra.Order.Ring.Int
import Mathlib.Data.List.Nodup

/-!
# Price levels

`include/orderbook/price_level.h`: one FIFO queue of resting orders with its running total.

`std::list` guarantees that an iterator stays valid until its own node is erased, and the book
relies on it. A node therefore carries a *handle*, standing for the address an iterator holds:
erasing by iterator is erasing by handle, and using an iterator whose node is gone is the fault
`dangling` of the caller rather than a silent no-op.
-/

namespace MiniTrader

/-- A `std::list<Order>` node. -/
structure Node where
  handle : ℕ
  order : Order
  deriving DecidableEq, Repr

/-- `PriceLevel`. -/
structure PriceLevel where
  price : ℤ
  totalQuantity : ℤ
  orders : List Node
  deriving DecidableEq, Repr

namespace PriceLevel

/-- The sum of the quantities in a queue, which `totalQuantity` is meant to be. -/
def sumQuantity (orders : List Node) : ℤ := (orders.map fun n => n.order.quantity).sum

@[simp] theorem sumQuantity_nil : sumQuantity [] = 0 := rfl

@[simp] theorem sumQuantity_cons (n : Node) (orders : List Node) :
    sumQuantity (n :: orders) = n.order.quantity + sumQuantity orders := by
  simp [sumQuantity]

@[simp] theorem sumQuantity_append (l l' : List Node) :
    sumQuantity (l ++ l') = sumQuantity l + sumQuantity l' := by
  simp [sumQuantity]

theorem sumQuantity_nonneg {orders : List Node} (h : ∀ n ∈ orders, 0 < n.order.quantity) :
    0 ≤ sumQuantity orders := by
  induction orders with
  | nil => simp
  | cons n orders ih =>
    have hn := h n List.mem_cons_self
    have := ih fun m hm => h m (List.mem_cons_of_mem _ hm)
    rw [sumQuantity_cons]; omega

/-- `PriceLevel::empty`. -/
def empty (l : PriceLevel) : Bool := l.orders.isEmpty

@[simp] theorem empty_iff {l : PriceLevel} : l.empty = true ↔ l.orders = [] := by
  simp [empty]

/-- `PriceLevel::add_order`: the copy is appended under a new handle. -/
def addOrder (l : PriceLevel) (handle : ℕ) (order : Order) : PriceLevel :=
  { l with
    totalQuantity := l.totalQuantity + order.quantity
    orders := l.orders ++ [⟨handle, order⟩] }

/-- `PriceLevel::remove_front`. -/
def removeFront (l : PriceLevel) : PriceLevel :=
  match l.orders with
  | [] => l
  | n :: rest => { l with totalQuantity := l.totalQuantity - n.order.quantity, orders := rest }

/-- `PriceLevel::reduce_front`. -/
def reduceFront (l : PriceLevel) (filled : ℤ) : PriceLevel :=
  match l.orders with
  | [] => l
  | n :: rest =>
    { l with
      totalQuantity := l.totalQuantity - filled
      orders := { n with order := { n.order with quantity := n.order.quantity - filled } } :: rest }

/-- `*it`, reading the order an iterator designates; `none` when its node is gone. -/
def deref (l : PriceLevel) (it : ℕ) : Option Order :=
  (l.orders.find? fun n => n.handle = it).map Node.order

/-- `PriceLevel::erase`; `none` when the iterator designates no node. -/
def erase (l : PriceLevel) (it : ℕ) : Option PriceLevel :=
  (l.deref it).map fun order =>
    { l with
      totalQuantity := l.totalQuantity - order.quantity
      orders := l.orders.filter fun n => n.handle ≠ it }

@[simp] theorem price_removeFront {l : PriceLevel} : l.removeFront.price = l.price := by
  rw [removeFront]; split <;> rfl

@[simp] theorem price_reduceFront {l : PriceLevel} {filled : ℤ} :
    (l.reduceFront filled).price = l.price := by
  rw [reduceFront]; split <;> rfl

/-! ### Reading a queue with distinct handles -/

theorem deref_eq_some_of_mem {l : PriceLevel} (hd : (l.orders.map Node.handle).Nodup) {n : Node}
    (hn : n ∈ l.orders) : l.deref n.handle = some n.order := by
  have key : ∀ {ns : List Node}, (ns.map Node.handle).Nodup → n ∈ ns →
      ns.find? (fun m => m.handle = n.handle) = some n := by
    intro ns
    induction ns with
    | nil => intro _ h; cases h
    | cons m ns ih =>
      intro hnd hmem
      rw [List.map_cons, List.nodup_cons] at hnd
      rcases List.mem_cons.mp hmem with rfl | hmem
      · simp
      · have hne : m.handle ≠ n.handle := fun he =>
          hnd.1 (he ▸ List.mem_map_of_mem hmem)
        rw [List.find?_cons_of_neg (by simpa using hne)]
        exact ih hnd.2 hmem
  rw [deref, key hd hn, Option.map_some]

theorem eq_of_handle_eq {ns : List Node} (hd : (ns.map Node.handle).Nodup) {n m : Node}
    (hn : n ∈ ns) (hm : m ∈ ns) (h : n.handle = m.handle) : n = m :=
  List.inj_on_of_nodup_map hd hn hm h

/-- The level without one of its nodes, and with its total adjusted. -/
def without (l : PriceLevel) (n : Node) : PriceLevel :=
  { l with
    totalQuantity := l.totalQuantity - n.order.quantity
    orders := l.orders.filter fun m => m.handle ≠ n.handle }

theorem erase_of_mem {l : PriceLevel} (hd : (l.orders.map Node.handle).Nodup) {n : Node}
    (hn : n ∈ l.orders) : l.erase n.handle = some (l.without n) := by
  rw [erase, deref_eq_some_of_mem hd hn, Option.map_some, without]

/-- Erasing the front node by its handle leaves the tail of the queue. -/
theorem filter_handle_cons {n : Node} {rest : List Node}
    (hd : ((n :: rest).map Node.handle).Nodup) :
    (n :: rest).filter (fun m => m.handle ≠ n.handle) = rest := by
  rw [List.map_cons, List.nodup_cons] at hd
  rw [List.filter_cons_of_neg (by simp), List.filter_eq_self]
  intro m hm
  have : m.handle ≠ n.handle := fun he => hd.1 (he ▸ List.mem_map_of_mem hm)
  simpa using this

theorem removeFront_eq_without {l : PriceLevel} {n : Node} {rest : List Node}
    (hd : (l.orders.map Node.handle).Nodup) (h : l.orders = n :: rest) :
    l.removeFront = l.without n := by
  rw [h] at hd
  rw [removeFront, without, h, filter_handle_cons hd]

theorem sumQuantity_filter_handle {ns : List Node} (hd : (ns.map Node.handle).Nodup) {n : Node}
    (hn : n ∈ ns) :
    sumQuantity (ns.filter fun m => m.handle ≠ n.handle) = sumQuantity ns - n.order.quantity := by
  induction ns with
  | nil => cases hn
  | cons m ns ih =>
    rcases List.mem_cons.mp hn with rfl | hmem
    · rw [filter_handle_cons hd, sumQuantity_cons]; omega
    · rw [List.map_cons, List.nodup_cons] at hd
      have hne : m.handle ≠ n.handle := fun he => hd.1 (he ▸ List.mem_map_of_mem hmem)
      rw [List.filter_cons_of_pos (by simpa using hne), sumQuantity_cons, sumQuantity_cons,
        ih hd.2 hmem]
      omega

end PriceLevel

end MiniTrader
