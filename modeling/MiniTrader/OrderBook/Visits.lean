import MiniTrader.OrderBook.LimitPrice

/-!
# The levels a match visits

The outer loop of `match` goes from the cached best price of the other side to whatever price the
scan helper writes into the cache next. An order that rests between two prices of the grid leaves a
cache that belongs to no price of its level, and a cancel may then empty the level without the cache
noticing: the loop can start at a level with nothing in it. So an iteration need neither fill
anything nor remove anything.

It does empty its level, or use the incoming order up. In the first case the scan goes on from that
level, away from the best price, so the levels come in one direction only, and there are finitely
many. Nothing of this depends on ids, on the alignment of prices or on how many levels there are.

The loop runs for a positive quantity. An incoming order that starts with a negative one is handed
back at once, whatever it would have crossed.

## Main definitions

* `InRange` — limit orders with something to trade and a price inside the range
* `Sweep` — what a match went through and why it stopped

## Main results

* `exists_runBook_of_inRange` — the runs of such orders return
* `matchVisits_sweep` — `match` terminates, visits the levels in order and stops for a reason
-/

namespace MiniTrader

open Fuelled

namespace OrderBook

variable {ε : Type} {c : OrderBookConfig} {f : ExecutionReport → ε → ε} {o : Order} {w : World ε}

/-! ### The reachable books -/

/-- Limit orders have something to trade and a price inside the range. Nothing is asked of their
ids, and nothing at all of market orders and cancels. -/
def BookOp.InRange (c : OrderBookConfig) : BookOp → Prop
  | .add o => o.type = .limit → 0 < o.quantity ∧ c.minPrice ≤ o.price ∧ o.price ≤ c.maxPrice
  | .cancel _ => True

instance (c : OrderBookConfig) : DecidablePred (BookOp.InRange c)
  | .add o => inferInstanceAs (Decidable (o.type = .limit → _))
  | .cancel _ => .isTrue trivial

/-- **One call.** -/
theorem Sound.step {op : BookOp} {s : World ε × List Bool} (hb : Sound s.1.book)
    (hc : s.1.book.config = c) (hop : op.InRange c) :
    ∃ s', Converges (fun fuel => op.run (observe f) fuel s) (.ok s') ∧
      Sound s'.1.book ∧ s'.1.book.config = c := by
  rcases hb.coherent.run_cases (observe f) op with
    ⟨o, rfl, htype⟩ | ⟨id, r, b', bs, h, -, hrun⟩
  · obtain ⟨q, w', hm, hb', hc', -⟩ :=
      (@sparingRule_observe_true _ c f o.side).matchOrder rfl hb hc trivial
    have hidx : o.type = .limit → w'.book.config.priceToIndex o.price <
        w'.book.config.numLevels := by
      intro hl
      rw [hc']
      exact OrderBookConfig.priceToIndex_lt_of_le (hop hl).2.1 (hop hl).2.2
    have hadd := converges_addOrder htype hm hidx
    refine ⟨_, hadd.bind (converges_const _), ?_, config_afterMatch.trans hc'⟩
    exact Sound.afterMatch (o := o.withQuantity q) hb' fun hl => hidx hl.2
  · exact ⟨_, hrun, hb.cancelOrder h, (restsWithin_cancelOrder hb.coherent h).2.trans hc⟩

/-- **The runs return**, and leave a book whose caches designate levels. -/
theorem exists_runBook_of_inRange (c : OrderBookConfig) (f : ExecutionReport → ε → ε) (e : ε)
    {ops : List BookOp} (hops : ∀ op ∈ ops, op.InRange c) :
    ∃ s, Converges (runBook c (observe f) e ops) (.ok s) ∧ Sound s.1.book ∧
      s.1.book.config = c := by
  have hall : Allowed (fun (_ : Unit) op => True ∧ op.InRange c) (fun g _ => g) () ops :=
    (allowed_true ops ()).and_forall hops
  exact @converges_runList _ _ _ _ (BookOp.run (observe f)) _ _
    (fun _ s => Sound s.1.book ∧ s.1.book.config = c)
    (fun _ _ _ h hop => h.1.step h.2 hop.2) _ _ _ ⟨sound_new c, rfl⟩ hall

/-! ### The levels -/

/-- What a match went through, and why it stopped: `visits` are the levels of the iterations of the
outer loop, `q` is what is left of the order, and `b` the book. -/
structure Sweep (o : Order) (visits : List ℕ) (q : ℤ) (b : OrderBook) : Prop where
  ascending : o.side = .buy → visits.Pairwise (· < ·)
  descending : o.side = .sell → visits.Pairwise (· > ·)
  /-- The order is used up, or no price within its limit is cached. -/
  stopped : 0 ≤ o.quantity →
    q = 0 ∨ ¬ (0 ≤ b.best o.side.opp ∧ o.side.Crosses o.price (b.best o.side.opp))
  /-- An order with a negative quantity is not matched at all. -/
  negative : o.quantity < 0 → visits = [] ∧ q = o.quantity

/-- A fill does not take more than there is. -/
theorem sparingRule_nonneg (c : OrderBookConfig) (f : ExecutionReport → ε → ε) (side : Side) :
    SparingRule c (observe f) side (fun o _ => 0 ≤ o.quantity) (fun _ o _ => 0 ≤ o.quantity) := by
  refine sparingRule_observe (fun _ _ h _ => h) ?_ (fun _ _ h _ => h)
  intro idx o w n rest _ _ _ _ hq
  have hmin : min o.quantity n.order.quantity ≤ o.quantity := min_le_left _ _
  show 0 ≤ o.quantity - min o.quantity n.order.quantity
  omega

theorem converges_matchVisits {cb : FillCallback ε} {s s' : Order × World ε}
    {log : List (ℕ × List ℤ)} (h : Converges (fun fuel => matchLogged cb fuel s) (.ok (log, s'))) :
    Converges (fun fuel => matchVisits cb fuel s) (.ok (log.map Prod.fst, s')) :=
  h.map fun t : List (ℕ × List ℤ) × Order × World ε => (t.1.map Prod.fst, t.2)

/-- **One match**, of any order. -/
theorem Sound.matchVisits (hb : Sound w.book) (hc : w.book.config = c) (o : Order) :
    ∃ visits q w',
      Converges (fun fuel => OrderBook.matchVisits (observe f) fuel (o, w))
        (.ok (visits, o.withQuantity q, w')) ∧
      Sweep o visits q w'.book := by
  rcases lt_or_ge o.quantity 0 with hneg | hq
  · have hg : ¬ MatchGuard o.side (o, w) := fun h => absurd h.1 (by simp only; omega)
    have hm : Converges (fun fuel => matchLogged (observe f) fuel (o, w)) (.ok ([], o, w)) :=
      converges_whileLoop_of_not_guard hg
    refine ⟨[], o.quantity, w, converges_matchVisits hm, ?_⟩
    exact ⟨fun _ => List.Pairwise.nil, fun _ => List.Pairwise.nil, fun h => by omega,
      fun _ => ⟨rfl, rfl⟩⟩
  · obtain ⟨log, q, w', hm, ⟨-, -, hq'⟩, hg, hpw, -⟩ :=
      (sparingRule_nonneg c f o.side).sweepRule.matchLogged (Q := fun _ => True)
        (fun _ => trivial) rfl ⟨hb, hc, hq⟩
    refine ⟨_, q, w', converges_matchVisits hm, ?_, ?_, fun _ => ?_, fun h => by omega⟩
    · intro hside
      rw [hside] at hpw
      exact hpw
    · intro hside
      rw [hside] at hpw
      exact hpw
    · by_contra hstop
      rw [not_or, not_not] at hstop
      have hq0 : 0 ≤ q := hq'
      exact hg ⟨lt_of_le_of_ne hq0 (Ne.symm hstop.1), hstop.2⟩

/-- **`match` terminates and sweeps the levels in one direction**, in every book that limit orders
at prices inside the range lead to, and for every incoming order. -/
theorem matchVisits_sweep (c : OrderBookConfig) (f : ExecutionReport → ε → ε) (e : ε)
    (ops : List BookOp) (hops : ∀ op ∈ ops, op.InRange c) :
    ∃ s, Converges (runBook c (observe f) e ops) (.ok s) ∧ ∀ o : Order, ∃ visits q w,
      Converges (fun fuel => matchVisits (observe f) fuel (o, s.1))
        (.ok (visits, o.withQuantity q, w)) ∧
      Converges (fun fuel => matchOrder (observe f) fuel (o, s.1)) (.ok (o.withQuantity q, w)) ∧
      Sweep o visits q w.book := by
  obtain ⟨s, hs, hb, hc⟩ := exists_runBook_of_inRange c f e hops
  refine ⟨s, hs, fun o => ?_⟩
  obtain ⟨visits, q, w, hm, hsweep⟩ := hb.matchVisits hc o
  exact ⟨visits, q, w, hm, hm.of_map Prod.snd fun fuel => map_matchVisits _ fuel _, hsweep⟩

/-- With tick size 10, an ask at 15 that is cancelled leaves its price in the cache; the next ask
rests at 20. -/
def staleOps : List BookOp :=
  [.add ⟨1, 1, 15, 4, .sell, .limit⟩, .cancel 1, .add ⟨2, 1, 20, 5, .sell, .limit⟩]

theorem matchVisits_sweep_staleOps :
    ∃ s, Converges (runBook ⟨0, 100, 10, by decide, by decide, by decide⟩ record [] staleOps)
        (.ok s) ∧ ∀ o : Order, ∃ visits q w,
      Converges (fun fuel => matchVisits record fuel (o, s.1))
        (.ok (visits, o.withQuantity q, w)) ∧
      Converges (fun fuel => matchOrder record fuel (o, s.1)) (.ok (o.withQuantity q, w)) ∧
      Sweep o visits q w.book :=
  matchVisits_sweep _ _ _ staleOps (by decide)

/-- A bid at 20 first comes to the empty level of the stale price. -/
example : ∃ s, runBook ⟨0, 100, 10, by decide, by decide, by decide⟩ record [] staleOps 3 = .ok s ∧
    ∃ t, matchVisits record 3 (⟨3, 1, 20, 5, .buy, .limit⟩, s.1) = .ok t ∧ t.1 = [1, 2] := by
  decide +kernel

/-- An order to buy a negative quantity comes back as it is, with an ask within its limit cached. -/
theorem matchOrder_negative :
    (∀ op ∈ staleOps, op.InRange ⟨0, 100, 10, by decide, by decide, by decide⟩) ∧
      ∃ s, runBook ⟨0, 100, 10, by decide, by decide, by decide⟩ record [] staleOps 3 = .ok s ∧
        ∃ t, matchOrder record 3 (⟨3, 1, 20, -1, .buy, .limit⟩, s.1) = .ok t ∧
          ¬ (t.1.quantity = 0 ∨
            ¬ (0 ≤ t.2.book.best .sell ∧ Side.buy.Crosses t.1.price (t.2.book.best .sell))) := by
  decide +kernel

end OrderBook

end MiniTrader
