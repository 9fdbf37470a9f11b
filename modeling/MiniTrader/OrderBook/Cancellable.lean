import MiniTrader.OrderBook.Crossing

/-!
# Ids that are used again

An order can be cancelled through the entry its id has in the map, and the map has one entry for
each id. Nothing keeps a caller from using an id twice: the entry then goes to the order that comes
to rest last, and the first cancel or complete fill of either takes it away.

What is lost is lost for good. A second cancel finds no entry, so calling `cancel_order` again and
again removes exactly one order, the one the entry designates (`cancellable_iff_located`). The id of
an incoming order is therefore harmless if the order does not come to rest, if no resting order has
the id, or if the order that has it is one that the incoming order fills completely on its way. In
every other case an order is left behind that no caller can reach, and the condition `RestsAlone` is
exact.

## Main definitions

* `cancelTimes` — cancelling an id several times
* `Cancellable` — every resting order can be cancelled
* `RestsAlone` — the condition

## Main results

* `cancellable_iff_located` — what a cancel needs
* `Called.notResting_iff` — which ids are gone after a match
* `cancellable_iff_restsAlone` — all runs
-/

namespace MiniTrader

open Fuelled

namespace Reference

variable {o : Order} {live : List Order} {fills : List (Order × ℤ)}

/-- An id is settled away only by a complete fill. -/
theorem exists_mem_foldl_settle (h : o ∈ live)
    (hpart : ∀ f ∈ fills, f.1.orderId = o.orderId → ¬ f.1.quantity ≤ f.2) :
    ∃ o' ∈ fills.foldl settle live, o'.orderId = o.orderId := by
  induction fills generalizing live o with
  | nil => exact ⟨o, h, rfl⟩
  | cons f fills ih =>
    have hrest := fun f' hf' => hpart f' (List.mem_cons_of_mem _ hf')
    rw [List.foldl_cons, settle]
    split
    · rename_i hfull
      have hne : o.orderId ≠ f.1.orderId := fun he => hpart f List.mem_cons_self he.symm hfull
      exact ih (List.mem_filter.mpr ⟨h, decide_eq_true hne⟩) hrest
    · obtain ⟨o', ho', hid⟩ : ∃ o', o' ∈ live.map (fun o =>
          if o.orderId = f.1.orderId then o.withQuantity (o.quantity - f.2) else o) ∧
          o'.orderId = o.orderId := by
        refine ⟨_, List.mem_map_of_mem h, ?_⟩
        split <;> rfl
      rw [← hid] at hrest ⊢
      exact ih ho' hrest

end Reference

namespace OrderBook

open Reference

variable {ε : Type} {b b' : OrderBook} {c : OrderBookConfig} {s t : Side} {i j id : ℕ} {n m : Node}
  {o : Order} {f : ExecutionReport → ε → ε} {w w' : World ε}

/-! ### Cancelling again and again -/

/-- Calling `cancel_order` for an id, `k` times in a row. -/
def cancelTimes (b : OrderBook) (id : ℕ) : ℕ → Outcome OrderBook
  | 0 => .ok b
  | k + 1 => do
    let r ← b.cancelOrder id
    cancelTimes r.2 id k

/-- Every resting order leaves the book when its id is cancelled often enough. -/
def Cancellable (b : OrderBook) : Prop :=
  ∀ s i, ∀ n ∈ (b.levels s i).orders, ∃ k b',
    b.cancelTimes n.order.orderId k = .ok b' ∧ n ∉ (b'.levels s i).orders

/-- An id without an entry finds nothing to cancel. -/
def Indexes (b : OrderBook) : Prop := ∀ id, b.orderMap.lookup id = none → NotResting b id

theorem cancelTimes_of_lookup_eq_none (h : b.orderMap.lookup id = none) (k : ℕ) :
    b.cancelTimes id k = .ok b := by
  induction k with
  | zero => rfl
  | succ k ih => rw [cancelTimes, cancelOrder_of_lookup_eq_none h, ok_bind, ih]

/-- A cancel that finds an entry takes it away. -/
theorem cancelTimes_succ
    (hc : b.cancelOrder n.order.orderId = .ok (true, (b.unlink s i n).refreshBest s i)) (k : ℕ) :
    b.cancelTimes n.order.orderId (k + 1) = .ok ((b.unlink s i n).refreshBest s i) := by
  rw [cancelTimes, hc, ok_bind]
  refine cancelTimes_of_lookup_eq_none ?_ k
  rw [orderMap_refreshBest]
  have hmap : (b.unlink s i n).orderMap = b.orderMap.erase n.order.orderId := by
    simp [OrderBook.unlink]
  rw [hmap, AList.lookup_erase]

/-- **What a cancel needs**: the order can be removed if and only if the entry is its own. -/
theorem cancellable_iff_located (hb : Coherent b) : Cancellable b ↔ Located b := by
  constructor
  · intro h s i n hn _
    obtain ⟨k, b', hk, hgone⟩ := h s i n hn
    rcases k with _ | k
    · cases hk
      exact absurd hn hgone
    cases hl : b.orderMap.lookup n.order.orderId with
    | none =>
      rw [cancelTimes_of_lookup_eq_none hl] at hk
      cases hk
      exact absurd hn hgone
    | some loc =>
      obtain ⟨m, hm, hh, hid⟩ := hb.indexed hl
      have hc := hb.cancelOrder_of_lookup (n := m) (by rw [hid]; exact hl) hm hh
      have hk' := cancelTimes_succ hc k
      rw [hid, hk] at hk'
      cases hk'
      rw [levels_refreshBest, hb.mem_unlink hm, not_and_not_right] at hgone
      obtain rfl := hgone hn
      obtain ⟨rfl, rfl⟩ := hb.eq_of_mem hn hm
      rw [hh]
  · intro h s i n hn
    have hc := hb.cancelOrder_of_lookup (h s i n hn trivial) hn rfl
    refine ⟨1, _, cancelTimes_succ hc 0, ?_⟩
    rw [levels_refreshBest, hb.mem_unlink hn]
    exact fun hh => hh.2 rfl

/-- Where every order has its entry, an id without one does not rest. -/
theorem Coherent.located_iff (hb : Coherent b) : Cancellable b ∧ Indexes b ↔ Located b := by
  rw [cancellable_iff_located hb]
  exact ⟨And.left, fun h => ⟨h, fun _ hnone => h.notResting trivial hnone⟩⟩

/-! ### One call -/

/-- **The ids that are gone after a match** are those that it fills completely, and those that did
not rest before. -/
theorem Called.notResting_iff (h : Called f o w w') : NotResting w'.book id ↔
    NotResting w.book id ∨
      ∃ g ∈ w.book.reachableFills o, g.1.orderId = id ∧ g.1.quantity ≤ g.2 := by
  constructor
  · intro hgone
    by_contra hno
    rw [not_or] at hno
    obtain ⟨hrests, hpart⟩ := hno
    refine hrests fun s i n hn hid => ?_
    have hpart' : ∀ g ∈ w.book.reachableFills o, g.1.orderId = n.order.orderId →
        ¬ g.1.quantity ≤ g.2 := fun g hg he hfull => hpart ⟨g, hg, he.trans hid, hfull⟩
    obtain ⟨o', ho', hid'⟩ :=
      exists_mem_foldl_settle (List.mem_map_of_mem (f := Node.order) hn) hpart'
    rw [← h.queue] at ho'
    obtain ⟨m, hm, rfl⟩ := List.mem_map.mp ho'
    exact hgone s i m hm (hid'.trans hid)
  · rintro (hnot | ⟨g, hg, rfl, hfull⟩) s i m hm hid
    · exact h.within.notResting hnot s i m hm hid
    · have hm' := List.mem_map_of_mem (f := Node.order) hm
      rw [h.queue] at hm'
      exact (mem_foldl_settle hm').2 g hg hfull hid

/-- **An order that comes to rest** takes the entry of its id. -/
theorem Located.join_iff (hb : Coherent b) (hl : Located b) (hq : 0 < o.quantity)
    (hidx : b.config.priceToIndex o.price < b.config.numLevels) :
    Located (b.join o) ↔ NotResting b o.orderId := by
  refine ⟨fun h s i n hn hid => ?_, fun h => hl.join fun _ => h⟩
  have hmem : ∀ {t j m}, m ∈ ((b.join o).levels t j).orders ↔ m ∈ (b.levels t j).orders ∨
      t = o.side ∧ j = b.config.priceToIndex o.price ∧ m = ⟨b.nextNode, o⟩ := by
    intro t j m
    rw [levels_join]
    exact mem_link
  obtain ⟨-, -, rfl⟩ := h.eq_of_orderId (hb.join hq hidx) (hmem.mpr (Or.inl hn))
    (hmem.mpr (Or.inr ⟨rfl, rfl, rfl⟩)) hid trivial
  exact absurd (hb.fresh hn) (lt_irrefl _)

/-- The condition for a limit order: it is used up, or its id does not rest, or the order that rests
with its id is filled completely. -/
def RestsAlone (b : OrderBook) (o : Order) : Prop :=
  o.quantity ≤ filled (b.reachableFills o) ∨ NotResting b o.orderId ∨
    ∃ g ∈ b.reachableFills o, g.1.orderId = o.orderId ∧ g.1.quantity ≤ g.2

/-- What every reachable book has, whatever ids were used. -/
structure Gridded (c : OrderBookConfig) (b : OrderBook) : Prop where
  sound : Sound b
  config_eq : b.config = c
  aligned : Aligned b
  cached : GridCached b

theorem gridded_new (c : OrderBookConfig) : Gridded c (new c) :=
  ⟨sound_new c, rfl, (tidy_new c).aligned, gridCached_new c⟩

theorem Gridded.cancelOrder {r : Bool} (h : Gridded c b) (hc : b.cancelOrder id = .ok (r, b')) :
    Gridded c b' := by
  obtain ⟨hw, hconf⟩ := restsWithin_cancelOrder h.sound.coherent hc
  exact ⟨h.sound.cancelOrder hc, hconf.trans h.config_eq, h.aligned.within hw hconf,
    h.cached.cancelOrder h.sound.coherent hc⟩

theorem Gridded.afterMatch (h : Gridded c w.book) (hgrid : o.type = .limit → c.OnGrid o.price) :
    Gridded c (OrderBook.afterMatch o w).book := by
  have hconf := h.config_eq
  subst hconf
  refine ⟨h.sound.afterMatch fun hl => (hgrid hl.2).priceToIndex_lt, config_afterMatch, ?_,
    h.cached.afterMatch hgrid⟩
  rw [OrderBook.afterMatch]
  split
  · exact h.aligned.join (hgrid (‹_ ∧ _› : _ ∧ _).2)
  · exact h.aligned

/-- Matching keeps the caches on the grid. -/
theorem sparingRule_gridCached (c : OrderBookConfig) (f : ExecutionReport → ε → ε) (side : Side) :
    SparingRule c (observe f) side (fun _ w => GridCached w.book)
      (fun idx _ w => GridCached w.book ∧ idx < w.book.config.numLevels) := by
  refine sparingRule_observe ?_ ?_ ?_
  · intro o w hb _ hg hguard
    exact ⟨hg, hb.cached _ hguard.2.1⟩
  · rintro idx o w n rest - - ⟨hg, hidx⟩ - -
    exact ⟨hg.of_best config_settleFront fun _ => best_settleFront, by
      rw [config_settleFront]; exact hidx⟩
  · rintro idx o w hb - ⟨hg, hidx⟩ -
    exact hg.leaveLevel hb.coherent hidx

theorem Gridded.exists_matchOrder (h : Gridded c w.book) (o : Order) :
    ∃ q w', Converges (fun fuel => matchOrder (observe f) fuel (o, w))
        (.ok (o.withQuantity q, w')) ∧
      Gridded c w'.book := by
  obtain ⟨q, w', hm, hb, hc, ⟨hw, hg⟩, -⟩ := ((sparingRule_gridCached c f o.side).within
    w.book).matchOrder rfl h.sound h.config_eq ⟨RestsWithin.refl _, h.cached⟩
  exact ⟨q, w', hm, hb, hc, h.aligned.within hw (hc.trans h.config_eq.symm), hg⟩

/-- **One match and what follows it**, in a book in which every order has its entry. -/
theorem Gridded.located_afterMatch_iff {q : ℤ} (h : Gridded c w.book) (h' : Gridded c w'.book)
    (hl : Located w.book) (hgrid : o.type = .limit → c.OnGrid o.price)
    (hm : Converges (fun fuel => matchOrder (observe f) fuel (o, w)) (.ok (o.withQuantity q, w'))) :
    Located (OrderBook.afterMatch (o.withQuantity q) w').book ↔
      (o.type = .limit → RestsAlone w.book o) := by
  obtain ⟨v, hv, hon, hcalled⟩ :=
    OnLevels.exists_matchOrder (f := f) ⟨hl, h.aligned, h.cached⟩ h.sound o
  have he := hm.unique hv
  simp only [Except.ok.injEq, Prod.mk.injEq] at he
  obtain ⟨hq, rfl⟩ := he
  have hq : q = o.quantity - filled (w.book.reachableFills o) := congrArg Order.quantity hq
  rw [OrderBook.afterMatch]
  split
  · rename_i hrest
    obtain ⟨hpos, htype⟩ := hrest
    have hleft : ¬ o.quantity ≤ filled (w.book.reachableFills o) := by
      have hpos : 0 < q := hpos
      omega
    have hidx : w'.book.config.priceToIndex o.price < w'.book.config.numLevels := by
      rw [h'.config_eq]
      exact (hgrid htype).priceToIndex_lt
    rw [World.book_withBook,
      Located.join_iff (o := o.withQuantity q) h'.sound.coherent hon.located hpos hidx]
    refine hcalled.notResting_iff.trans ⟨fun hgone _ => Or.inr hgone, fun hall => ?_⟩
    exact (hall htype).resolve_left hleft
  · rename_i hrest
    refine iff_of_true hon.located fun htype => Or.inl ?_
    have hpos : ¬ 0 < q := fun hpos => hrest ⟨hpos, htype⟩
    omega

/-! ### All runs -/

/-- Limit orders have a price of the grid. Nothing is asked of their ids. -/
def BookOp.OnGrid (c : OrderBookConfig) : BookOp → Prop
  | .add o => o.type = .limit → c.OnGrid o.price
  | .cancel _ => True

/-- The condition for a call. -/
def BookOp.RestsAlone (op : BookOp) (s : World ε × List Bool) : Prop :=
  match op with
  | .add o => o.type = .limit → OrderBook.RestsAlone s.1.book o
  | .cancel _ => True

/-- **One call.** -/
theorem Gridded.step {op : BookOp} {s : World ε × List Bool} (h : Gridded c s.1.book)
    (hop : op.OnGrid c) :
    ∃ s', Converges (fun fuel => op.run (observe f) fuel s) (.ok s') ∧ Gridded c s'.1.book ∧
      (Located s.1.book → (Located s'.1.book ↔ op.RestsAlone s)) := by
  rcases h.sound.coherent.run_cases (observe f) op with
    ⟨o, rfl, htype⟩ | ⟨id, r, b', bs, hc, htype, hrun⟩
  · obtain ⟨q, w', hm, h'⟩ := h.exists_matchOrder (f := f) o
    have hadd := converges_addOrder htype hm fun hl => by
      rw [h'.config_eq]
      exact (hop hl).priceToIndex_lt
    exact ⟨_, hadd.bind (converges_const _), h'.afterMatch (o := o.withQuantity q) hop,
      fun hl => h.located_afterMatch_iff h' hl hop hm⟩
  · refine ⟨_, hrun, h.cancelOrder hc,
      fun hl => iff_of_true (hl.cancelOrder h.sound.coherent hc) ?_⟩
    cases op with
    | add o => exact fun hlim => absurd hlim (by rw [htype o rfl]; decide)
    | cancel id => trivial

/-- **Every resting order stays cancellable** throughout a run if and only if every limit order
that comes to rest finds its id free. -/
theorem cancellable_iff_restsAlone (c : OrderBookConfig) (f : ExecutionReport → ε → ε) (e : ε)
    (ops : List BookOp) (hops : ∀ op ∈ ops, op.OnGrid c) :
    (∀ pre, pre <+: ops → ∃ s, Converges (runBook c (observe f) e pre) (.ok s)) ∧
    ((∀ pre, pre <+: ops → ∀ s, Converges (runBook c (observe f) e pre) (.ok s) →
        Cancellable s.1.book ∧ Indexes s.1.book) ↔
      AllowedFrom BookOp.RestsAlone (BookOp.run (observe f)) ops (⟨new c, e⟩, [])) := by
  have hall : Allowed (fun (_ : Unit) op => True ∧ op.OnGrid c) (fun g _ => g) () ops :=
    (allowed_true ops ()).and_forall hops
  have hstep : ∀ (g : Unit) (op : BookOp) (s : World ε × List Bool), Gridded c s.1.book →
      True ∧ op.OnGrid c → ∃ s', Converges (fun fuel => op.run (observe f) fuel s) (.ok s') ∧
        Gridded c s'.1.book ∧ (Cancellable s.1.book ∧ Indexes s.1.book →
          (Cancellable s'.1.book ∧ Indexes s'.1.book ↔ op.RestsAlone s)) := by
    intro g op s h hop
    obtain ⟨s', hs', h', hiff⟩ := h.step hop.2
    refine ⟨s', hs', h', ?_⟩
    rw [h.sound.coherent.located_iff, h'.sound.coherent.located_iff]
    exact hiff
  refine ⟨converges_prefixes (I := fun _ s => Gridded c s.1.book) hstep (gridded_new c) hall,
    forall_prefix_iff_allowedFrom (I := fun _ s => Gridded c s.1.book) hstep (gridded_new c) ?_
      hall⟩
  rw [(coherent_new c).located_iff]
  exact locatedOn_new c

/-- An id that is used again after a cancel, and while the other order is filled. -/
theorem cancellable_iff_restsAlone_reused :
    (∀ pre, pre <+: [.add ⟨1, 1, 5, 2, .buy, .limit⟩, .cancel 1, .add ⟨1, 1, 6, 2, .buy, .limit⟩,
        .add ⟨1, 1, 6, 3, .sell, .limit⟩] →
      ∃ s, Converges (runBook ⟨1, 10, 1, by decide, by decide, by decide⟩ (observe fun _ e => e) ()
        pre) (.ok s)) ∧
    ((∀ pre, pre <+: [.add ⟨1, 1, 5, 2, .buy, .limit⟩, .cancel 1, .add ⟨1, 1, 6, 2, .buy, .limit⟩,
        .add ⟨1, 1, 6, 3, .sell, .limit⟩] →
      ∀ s, Converges (runBook ⟨1, 10, 1, by decide, by decide, by decide⟩ (observe fun _ e => e) ()
        pre) (.ok s) → Cancellable s.1.book ∧ Indexes s.1.book) ↔
      AllowedFrom BookOp.RestsAlone (BookOp.run (observe fun _ e => e))
        [.add ⟨1, 1, 5, 2, .buy, .limit⟩, .cancel 1, .add ⟨1, 1, 6, 2, .buy, .limit⟩,
          .add ⟨1, 1, 6, 3, .sell, .limit⟩]
        (⟨new ⟨1, 10, 1, by decide, by decide, by decide⟩, ()⟩, [])) :=
  cancellable_iff_restsAlone _ _ _ _ (by
    simp only [List.forall_mem_cons, List.not_mem_nil, IsEmpty.forall_iff, implies_true, and_true]
    exact ⟨fun _ => ⟨4, by decide, by decide⟩, trivial, fun _ => ⟨5, by decide, by decide⟩,
      fun _ => ⟨5, by decide, by decide⟩⟩)

/-- Two bids with one id, and one cancel. The older bid stays, and its id has no entry. -/
theorem not_cancellable_twoBids : ∃ s,
    runBook ⟨1, 10, 1, by decide, by decide, by decide⟩ (observe fun _ e => e) ()
      [.add ⟨1, 1, 5, 2, .buy, .limit⟩, .add ⟨1, 1, 4, 2, .buy, .limit⟩, .cancel 1] 2 = .ok s ∧
    ¬ Cancellable s.1.book ∧ ¬ Indexes s.1.book := by
  obtain ⟨s, hs, n, hn, hnone⟩ : ∃ s,
      runBook ⟨1, 10, 1, by decide, by decide, by decide⟩ (observe fun _ e => e) ()
        [.add ⟨1, 1, 5, 2, .buy, .limit⟩, .add ⟨1, 1, 4, 2, .buy, .limit⟩, .cancel 1] 2 = .ok s ∧
      ∃ n ∈ (s.1.book.levels .buy 4).orders, s.1.book.orderMap.lookup n.order.orderId = none := by
    decide +kernel
  refine ⟨s, hs, fun h => ?_, fun h => h _ hnone .buy 4 n hn rfl⟩
  obtain ⟨k, b', hk, hgone⟩ := h .buy 4 n hn
  rw [cancelTimes_of_lookup_eq_none hnone] at hk
  cases hk
  exact hgone hn

end OrderBook

end MiniTrader
