import MiniTrader.Engine.CancelRatio
import MiniTrader.Engine.Nested

/-!
# The two ways to cancel

An order is cancelled by `cancel_order`, or by submitting an order of type `Cancel` with its id. The
second way goes through the risk gate and through `add_order`, and both end in `cancel_order` of the
book. What they do to the book and to the position is always the same.

The first way takes the order out of the table of the risk gate, the second does not. So they agree
on the table just when it has no entry for the id: for an id that is unknown, or was filled as a
maker, or has been cancelled the first way.

## Main definitions

* `SameOrders` — two engines with the same book, table and position

## Main results

* `exists_cancelPaths` — both ways return, with the same book and position
* `cancelPaths_iff` — when they agree
-/

namespace MiniTrader

open Fuelled

namespace TradingEngine

variable {σ : Type} {S : Strategy σ} {e e₁ e₂ : TradingEngine σ} {own : Bool} {o : Order}
  {cb : FillCallback (EngineEnv σ)} {fuel n : ℕ}

/-- The book, the table of the risk gate and the position are the same. -/
structure SameOrders (e₁ e₂ : TradingEngine σ) : Prop where
  book : e₁.book = e₂.book
  activeOrders : e₁.env.risk.activeOrders = e₂.env.risk.activeOrders
  position : e₁.env.risk.position = e₂.env.risk.position

/-- A `Cancel` order that passes is a cancel in the book, and the table stays as it is. -/
theorem submitOrder_cancel {r : Bool} {b : OrderBook} (htype : o.type = .cancel)
    (hpass : e.Passes o) (h : e.book.cancelOrder o.orderId = .ok (r, b)) :
    e.submitOrder cb fuel own o = .ok ((e.admitted own o).withBook b) := by
  rw [submitOrder_of_passes hpass, OrderBook.addOrder, if_pos htype, book_admitted, h, ok_bind]

/-- **Both ways return** when the book is coherent, with the same book and the same position; the
second leaves the table alone. -/
theorem exists_cancelPaths (hb : OrderBook.Coherent e.book) (htype : o.type = .cancel)
    (hpass : e.Passes o) : ∃ e₁ e₂, e.submitOrder cb fuel own o = .ok e₁ ∧
      e.cancelOrder o.orderId = .ok e₂ ∧ e₁.book = e₂.book ∧
      e₁.env.risk.position = e₂.env.risk.position ∧
      e₁.env.risk.activeOrders = e.env.risk.activeOrders ∧
      e₂.env.risk.activeOrders = e.env.risk.activeOrders.erase o.orderId := by
  obtain ⟨r, b, hc⟩ : ∃ r b, e.book.cancelOrder o.orderId = .ok (r, b) := by
    rcases hb.exists_cancelOrder o.orderId with ⟨-, hc⟩ | ⟨s, i, m, -, -, hc⟩
    · exact ⟨_, _, hc⟩
    · exact ⟨_, _, hc⟩
  refine ⟨_, _, submitOrder_cancel htype hpass hc, cancelOrder_ok hc, rfl, ?_, ?_, rfl⟩
  · exact position_admitted own o e
  · have hlimit : o.type ≠ .limit := by
      rw [htype]
      decide
    rw [World.env_withBook, activeOrders_admitted, if_neg hlimit]

/-- Erasing a key changes a table just when it has an entry for it. -/
theorem erase_eq_self_iff {α : Type} {β : α → Type} [DecidableEq α] {t : AList β} {a : α} :
    t.erase a = t ↔ a ∉ t := by
  constructor
  · intro h hmem
    rw [← h, AList.mem_erase] at hmem
    exact hmem.1 rfl
  · intro h
    exact AList.ext (List.kerase_of_notMem_keys h)

/-- **The two ways to cancel** leave the same book, table and position, in any reachable state, if
and only if the table has no entry for the id. -/
theorem cancelPaths_iff (S : Strategy σ) (c : OrderBookConfig) (riskConfig : RiskConfig) (st : σ)
    (clock : ℕ → ℤ) (ops : List (EngineOp σ)) (n : ℕ) (e : TradingEngine σ)
    (h : run S ops n (new c riskConfig st clock) = .ok e) (o : Order) (htype : o.type = .cancel)
    (hpass : e.Passes o) (cb : FillCallback (EngineEnv σ)) (fuel : ℕ) (own : Bool) :
    (∃ e₁ e₂, e.submitOrder cb fuel own o = .ok e₁ ∧ e.cancelOrder o.orderId = .ok e₂ ∧
        SameOrders e₁ e₂) ↔
      o.orderId ∉ e.env.risk.activeOrders := by
  obtain ⟨e₁, e₂, hsubmit, hcancel, hbook, hposition, hkept, herased⟩ :=
    @exists_cancelPaths _ e own o cb fuel (coherent_run h) htype hpass
  have hiff : e₁.env.risk.activeOrders = e₂.env.risk.activeOrders ↔
      o.orderId ∉ e.env.risk.activeOrders := by
    rw [hkept, herased, eq_comm, erase_eq_self_iff]
  rw [← hiff]
  constructor
  · rintro ⟨e₁', e₂', hsubmit', hcancel', hsame⟩
    cases hsubmit.symm.trans hsubmit'
    cases hcancel.symm.trans hcancel'
    exact hsame.activeOrders
  · intro htable
    exact ⟨e₁, e₂, hsubmit, hcancel, hbook, htable, hposition⟩

/-- An id that nobody has used, in an engine with one order in the book. -/
theorem cancelPaths_iff_unknownId : ∃ e,
    run silent [.submitOrder ⟨1, 1, 5, 4, .buy, .limit⟩] 3 silentEngine = .ok e ∧
    ((∃ e₁ e₂, e.submitOrder (fillCallback silent 3) 3 false ⟨7, 1, 0, 0, .buy, .cancel⟩ = .ok e₁ ∧
        e.cancelOrder 7 = .ok e₂ ∧ SameOrders e₁ e₂) ↔
      7 ∉ e.env.risk.activeOrders) := by
  obtain ⟨e, he, hpass⟩ : ∃ e,
      run silent [.submitOrder ⟨1, 1, 5, 4, .buy, .limit⟩] 3 silentEngine = .ok e ∧
      e.Passes ⟨7, 1, 0, 0, .buy, .cancel⟩ := by decide +kernel
  exact ⟨e, he, cancelPaths_iff silent _ _ _ _ _ 3 e he _ rfl hpass _ 3 false⟩

/-- **An order that rests in the book.** Cancelled by a `Cancel` order it is gone from the book and
still in the table; `cancel_order` takes it out of both. -/
theorem cancelPaths_restingOrder : ∃ e,
    run silent [.submitOrder ⟨1, 1, 5, 4, .buy, .limit⟩] 3 silentEngine = .ok e ∧
    e.Passes ⟨1, 1, 5, 0, .buy, .cancel⟩ ∧
    ¬ ∃ e₁ e₂, e.submitOrder (fillCallback silent 3) 3 false ⟨1, 1, 5, 0, .buy, .cancel⟩ = .ok e₁ ∧
      e.cancelOrder 1 = .ok e₂ ∧ SameOrders e₁ e₂ := by
  obtain ⟨e, he, hpass, ⟨e₁, h₁, hkept⟩, e₂, h₂, herased⟩ : ∃ e,
      run silent [.submitOrder ⟨1, 1, 5, 4, .buy, .limit⟩] 3 silentEngine = .ok e ∧
      e.Passes ⟨1, 1, 5, 0, .buy, .cancel⟩ ∧
      (∃ e₁, e.submitOrder (fillCallback silent 3) 3 false ⟨1, 1, 5, 0, .buy, .cancel⟩ = .ok e₁ ∧
        e₁.env.risk.activeOrders.lookup 1 = some ⟨.buy, 5⟩) ∧
      ∃ e₂, e.cancelOrder 1 = .ok e₂ ∧ e₂.env.risk.activeOrders.lookup 1 = none := by
    decide +kernel
  refine ⟨e, he, hpass, ?_⟩
  rintro ⟨e₁', e₂', h₁', h₂', hsame⟩
  cases h₁.symm.trans h₁'
  cases h₂.symm.trans h₂'
  rw [hsame.activeOrders, herased] at hkept
  cases hkept

end TradingEngine

end MiniTrader
