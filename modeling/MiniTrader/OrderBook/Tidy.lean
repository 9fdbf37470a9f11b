import MiniTrader.OrderBook.Caches

/-!
# Adding an order to a tidy book

On the price grid the caches are exact and the book is uncrossed, between calls; `Tidy` is that
invariant, and `TidyAt` the one inside the sweep of a level. Every instance of `SparingRule`
extends by them, and by `RestsWithin`: matching only takes orders away or makes them smaller.

`Sound.afterMatch` and `Tidy.afterMatch` then put `match` and the end of `add_order` together.
What a caller has to know of `match` is that it stopped because nothing crosses any more: the
remainder can rest without crossing the book.

## Main definitions

* `Tidy`, `TidyAt` — the invariants
* `RestsWithin` — what can happen to the resting orders while an order is matched
* `afterMatch` — the end of `add_order`

## Main results

* `SparingRule.within`, `SparingRule.located`, `SparingRule.tidy`
* `Tidy.join` — the remainder of a swept order keeps the book tidy
* `Sound.afterMatch`, `Tidy.afterMatch`
-/

namespace MiniTrader

open Fuelled

namespace OrderBook

variable {ε : Type} {b b' b₀ : OrderBook} {s t : Side} {i j : ℕ} {n m : Node}

/-! ### Resting orders during a match -/

theorem reduced_zero (n : Node) : reduced n 0 = n := by simp [reduced]

theorem reduced_reduced (n : Node) (q q' : ℤ) : reduced (reduced n q) q' = reduced n (q + q') := by
  simp only [reduced, Node.mk.injEq, Order.mk.injEq, true_and, and_true]
  omega

/-- Whatever rests in `b` rested in `b₀`, at the same level, with at least that quantity. -/
def RestsWithin (b b₀ : OrderBook) : Prop :=
  ∀ s i, ∀ n ∈ (b.levels s i).orders, ∃ m ∈ (b₀.levels s i).orders, ∃ q, 0 ≤ q ∧ n = reduced m q

theorem RestsWithin.refl (b : OrderBook) : RestsWithin b b :=
  fun _ _ n hn => ⟨n, hn, 0, le_rfl, (reduced_zero n).symm⟩

theorem RestsWithin.trans (h : RestsWithin b b') (h' : RestsWithin b' b₀) : RestsWithin b b₀ := by
  intro s i n hn
  obtain ⟨m, hm, q, hq, rfl⟩ := h s i n hn
  obtain ⟨k, hk, q', hq', rfl⟩ := h' s i m hm
  exact ⟨k, hk, q' + q, by omega, reduced_reduced k q' q⟩

theorem restsWithin_of_levels (h : ∀ s, b.levels s = b'.levels s) : RestsWithin b b' := by
  intro s i n hn
  exact RestsWithin.refl b' s i n (h s ▸ hn)

theorem Coherent.restsWithin_unlink (hb : Coherent b) (hn : n ∈ (b.levels s i).orders) :
    RestsWithin (b.unlink s i n) b :=
  fun _ _ m hm => ⟨m, ((hb.mem_unlink hn).mp hm).1, 0, le_rfl, (reduced_zero m).symm⟩

theorem CancelsOthers.restsWithin {id : ℕ} (h : CancelsOthers id b b') (hb : Coherent b) :
    RestsWithin b' b := by
  refine (h.induction (P := fun b' => RestsWithin b' b) ?_ hb (RestsWithin.refl b)).2
  intro b' s i n hb' hP hn _
  exact (restsWithin_of_levels fun _ => levels_refreshBest).trans
    ((hb'.restsWithin_unlink hn).trans hP)

theorem Coherent.restsWithin_settleFront {rest : List Node} {q : ℤ} (hb : Coherent b)
    (hfront : (b.levels s i).orders = n :: rest) (hq : 0 ≤ q) :
    RestsWithin (b.settleFront s i n.order q) b := by
  have hn : n ∈ (b.levels s i).orders := by rw [hfront]; exact List.mem_cons_self
  rcases hb.settleFront_cases (q := q) hfront with ⟨-, h⟩ | ⟨-, h⟩
  · rw [h]; exact hb.restsWithin_unlink hn
  · rw [h]
    intro t j m hm
    rcases (hb.mem_reduceFront hfront).mp hm with ⟨hm, -⟩ | ⟨rfl, rfl, rfl⟩
    · exact RestsWithin.refl b t j m hm
    · exact ⟨n, hn, q, hq, rfl⟩

theorem RestsWithin.occupied (h : RestsWithin b b₀) (ho : Occupied b s i) : Occupied b₀ s i := by
  obtain ⟨n, hn⟩ := List.exists_mem_of_ne_nil _ ho
  obtain ⟨m, hm, -⟩ := h s i n hn
  exact occupied_of_mem hm

theorem RestsWithin.notResting {id : ℕ} (h : RestsWithin b b₀) (h₀ : NotResting b₀ id) :
    NotResting b id := by
  intro s i n hn
  obtain ⟨m, hm, q, -, rfl⟩ := h s i n hn
  exact h₀ s i m hm

section

variable {c : OrderBookConfig} {cb : FillCallback ε} {side : Side} {G : Order → World ε → Prop}
  {H : ℕ → Order → World ε → Prop}

theorem LocatedOn.settleFront {P : ℕ → Prop} {rest : List Node} {q : ℤ} (hl : LocatedOn P b)
    (hb : Coherent b) (hfront : (b.levels s i).orders = n :: rest) :
    LocatedOn P (b.settleFront s i n.order q) := by
  rcases hb.settleFront_cases (q := q) hfront with ⟨-, h⟩ | ⟨-, h⟩
  · rw [h]; exact hl.unlink hb (by rw [hfront]; exact List.mem_cons_self)
  · rw [h]; exact hl.reduceFront hb hfront

/-- Matching keeps every resting order in the map. -/
theorem SparingRule.located (hr : SparingRule c cb side G H) (P : ℕ → Prop) :
    SparingRule c cb side (fun o w => LocatedOn P w.book ∧ G o w)
      (fun idx o w => LocatedOn P w.book ∧ H idx o w) where
  enter hb hc h hg := ⟨h.1, hr.enter hb hc h.2 hg⟩
  fill := by
    rintro idx o w n rest hb hc ⟨hl, hH⟩ hfront hq
    obtain ⟨w₁, w₂, h₁, hs₁, h₂, hs₂, hH'⟩ := hr.fill hb hc hH hfront hq
    have hb₁ := hs₁.coherent hb.coherent
    obtain ⟨rest₁, hf₁, -⟩ := hs₁.front hb.coherent hfront
    obtain ⟨rest₂, hf₂, -⟩ := hs₂.front hb₁ hf₁
    exact ⟨w₁, w₂, h₁, hs₁, h₂, hs₂, (hs₂.located hb₁ (hs₁.located hb.coherent hl)).settleFront
      (hs₂.coherent hb₁) hf₂, hH'⟩
  leave hb hc h hg :=
    ⟨h.1.congr orderMap_leaveLevel fun _ => levels_leaveLevel, hr.leave hb hc h.2 hg⟩

/-- Matching keeps to the orders that rested at the start. -/
theorem SparingRule.within (hr : SparingRule c cb side G H) (b₀ : OrderBook) :
    SparingRule c cb side (fun o w => RestsWithin w.book b₀ ∧ G o w)
      (fun idx o w => RestsWithin w.book b₀ ∧ H idx o w) where
  enter hb hc h hg := ⟨h.1, hr.enter hb hc h.2 hg⟩
  fill := by
    rintro idx o w n rest hb hc ⟨hw, hH⟩ hfront hq
    obtain ⟨w₁, w₂, h₁, hs₁, h₂, hs₂, hH'⟩ := hr.fill hb hc hH hfront hq
    have hb₁ := hs₁.coherent hb.coherent
    have hb₂ := hs₂.coherent hb₁
    obtain ⟨rest₁, hf₁, -⟩ := hs₁.front hb.coherent hfront
    obtain ⟨rest₂, hf₂, -⟩ := hs₂.front hb₁ hf₁
    have hn : 0 < n.order.quantity :=
      hb.coherent.positive (by rw [hfront]; exact List.mem_cons_self)
    exact ⟨w₁, w₂, h₁, hs₁, h₂, hs₂, (hb₂.restsWithin_settleFront hf₂ (by omega)).trans
      ((hs₂.restsWithin hb₁).trans ((hs₁.restsWithin hb.coherent).trans hw)), hH'⟩
  leave hb hc h hg := ⟨(restsWithin_of_levels fun _ => levels_leaveLevel).trans h.1,
    hr.leave hb hc h.2 hg⟩

end

/-! ### The invariants -/

/-- Every order rests at its own price. -/
def Aligned (b : OrderBook) : Prop :=
  ∀ s i, ∀ n ∈ (b.levels s i).orders, n.order.price = b.config.priceAt i

theorem Aligned.within (h : Aligned b₀) (hw : RestsWithin b b₀) (hc : b.config = b₀.config) :
    Aligned b := by
  intro s i n hn
  obtain ⟨m, hm, q, -, rfl⟩ := hw s i n hn
  rw [reduced_price, hc]
  exact h s i m hm

/-- Orders at their prices, exact caches, and no bid that reaches an ask. -/
structure Tidy (b : OrderBook) : Prop where
  aligned : Aligned b
  best : ∀ s, BestExact b s
  uncrossed : Uncrossed b

/-- `Tidy` in the middle of the sweep of level `idx` of the side opposite to `side`: the level may
be empty while the cache still holds its price. -/
structure TidyAt (b : OrderBook) (side : Side) (idx : ℕ) : Prop where
  aligned : Aligned b
  best : BestExact b side
  front : BestAt b side.opp idx
  uncrossed : Uncrossed b

theorem tidy_new (c : OrderBookConfig) : Tidy (new c) := by
  have hno : ∀ s i, ¬ Occupied (new c) s i := fun s i h => h (orders_new c s i)
  refine ⟨fun s i n hn => ?_, fun s => Or.inl ⟨by cases s <;> rfl, hno s⟩, fun i j hi => ?_⟩
  · rw [orders_new] at hn; cases hn
  · exact absurd hi (hno _ i)

theorem Tidy.cancel (h : Tidy b) (hp : b.config.Priced) (hb : Coherent b)
    (hn : n ∈ (b.levels s i).orders) : Tidy ((b.unlink s i n).refreshBest s i) := by
  have hw : RestsWithin ((b.unlink s i n).refreshBest s i) b :=
    (restsWithin_of_levels fun _ => levels_refreshBest).trans (hb.restsWithin_unlink hn)
  exact ⟨h.aligned.within hw (by simp), fun t => (h.best t).cancel hp hb hn,
    h.uncrossed.mono fun _ _ => hw.occupied⟩

theorem Tidy.cancelOrder {id : ℕ} {r : Bool} (h : Tidy b) (hp : b.config.Priced)
    (hb : Coherent b) (hc : b.cancelOrder id = .ok (r, b')) : Tidy b' := by
  rcases hb.exists_cancelOrder id with ⟨-, hc'⟩ | ⟨s, i, n, hn, -, hc'⟩
  · rw [hc'] at hc; cases hc; exact h
  · rw [hc'] at hc; cases hc; exact h.cancel hp hb hn

section

variable {side : Side} {idx : ℕ}

/-- Entering a sweep. -/
theorem Tidy.enter (h : Tidy b) (hbest : 0 ≤ b.best side.opp) :
    TidyAt b side (b.config.priceToIndex (b.best side.opp)) := by
  rcases h.best side.opp with ⟨hnil, -⟩ | ⟨idx, hat, -⟩
  · omega
  · have hidx := b.config.priceToIndex_priceAt hat.lt
    rw [← hat.best] at hidx
    rw [hidx]
    exact ⟨h.aligned, h.best side, hat, h.uncrossed⟩

/-- A callback that spares the front order of the level being swept. -/
theorem TidyAt.cancelsOthers {rest : List Node} (h : TidyAt b side idx) (hp : b.config.Priced)
    (hb : Coherent b) (hfront : (b.levels side.opp idx).orders = n :: rest)
    (hs : CancelsOthers n.order.orderId b b') : TidyAt b' side idx := by
  refine (hs.induction (P := fun b' => b'.config = b.config ∧ TidyAt b' side idx ∧
    ∃ rest', (b'.levels side.opp idx).orders = n :: rest') ?_ hb ⟨rfl, h, rest, hfront⟩).2.2.1
  rintro b' s i m hb' ⟨hc, hat, rest', hfront'⟩ hm hne
  obtain ⟨rest'', hf, -⟩ := unlink_front hb' hfront' hm hne
  have hw : RestsWithin ((b'.unlink s i m).refreshBest s i) b' :=
    (restsWithin_of_levels fun _ => levels_refreshBest).trans (hb'.restsWithin_unlink hm)
  have hocc : Occupied (b'.unlink s i m) side.opp idx := by
    rw [Occupied, hf]; exact List.cons_ne_nil _ _
  exact ⟨by simp [hc], ⟨hat.aligned.within hw (by simp), hat.best.cancel (hc ▸ hp) hb' hm,
    hat.front.cancel hb' hm hocc, hat.uncrossed.mono fun _ _ => hw.occupied⟩,
    rest'', by rw [levels_refreshBest, hf]⟩

theorem TidyAt.settleFront {rest : List Node} {q : ℤ} (h : TidyAt b side idx) (hb : Coherent b)
    (hfront : (b.levels side.opp idx).orders = n :: rest) (hq : 0 ≤ q) :
    TidyAt (b.settleFront side.opp idx n.order q) side idx := by
  have hw := hb.restsWithin_settleFront hfront hq
  refine ⟨h.aligned.within hw (by simp), h.best.congr (by simp) (by simp) fun j => ?_,
    h.front.mono (by simp) (by simp) fun j => hw.occupied, h.uncrossed.mono fun _ _ => hw.occupied⟩
  rw [Occupied, levels_settleFront_of_ne (by simp), Occupied]

/-- Leaving a level, exhausted or not. -/
theorem TidyAt.leaveLevel (h : TidyAt b side idx) (hp : b.config.Priced) (hb : Coherent b) :
    Tidy (b.leaveLevel side.opp idx) := by
  have hw : RestsWithin (b.leaveLevel side.opp idx) b :=
    restsWithin_of_levels fun _ => levels_leaveLevel
  refine ⟨h.aligned.within hw (by simp), fun t => ?_, h.uncrossed.mono fun _ _ => hw.occupied⟩
  by_cases hemp : (b.levels side.opp idx).orders = []
  · rw [OrderBook.leaveLevel, if_pos (PriceLevel.empty_iff.mpr hemp)]
    rcases Side.eq_or_eq_opp side t with rfl | rfl
    · exact h.best.congr (by simp) (by simp) fun j => by simp [Occupied]
    · refine bestExact_updateBestAfterEmpty hp hb h.front.lt fun j hj => ?_
      rcases farther_trichotomy side.opp idx j with hf | rfl | hf
      · exact hf
      · exact absurd hemp hj
      · exact absurd hj (h.front.better j hf)
  · rw [OrderBook.leaveLevel, if_neg (by rwa [PriceLevel.empty_iff])]
    rcases Side.eq_or_eq_opp side t with rfl | rfl
    · exact h.best
    · exact Or.inr ⟨idx, h.front, hemp⟩

end

section

variable {c : OrderBookConfig} {cb : FillCallback ε} {side : Side} {G : Order → World ε → Prop}
  {H : ℕ → Order → World ε → Prop}

/-- Matching keeps the book tidy. -/
theorem SparingRule.tidy (hr : SparingRule c cb side G H) (hp : c.Priced) :
    SparingRule c cb side (fun o w => Tidy w.book ∧ G o w)
      (fun idx o w => TidyAt w.book side idx ∧ H idx o w) where
  enter hb hc h hg := ⟨h.1.enter hg.2.1, hr.enter hb hc h.2 hg⟩
  fill := by
    rintro idx o w n rest hb rfl ⟨hat, hH⟩ hfront hq
    obtain ⟨w₁, w₂, h₁, hs₁, h₂, hs₂, hH'⟩ := hr.fill hb rfl hH hfront hq
    have hb₁ := hs₁.coherent hb.coherent
    have hb₂ := hs₂.coherent hb₁
    have hc₁ := hs₁.config_eq hb.coherent
    obtain ⟨rest₁, hf₁, -⟩ := hs₁.front hb.coherent hfront
    obtain ⟨rest₂, hf₂, -⟩ := hs₂.front hb₁ hf₁
    have hn : 0 < n.order.quantity :=
      hb.coherent.positive (by rw [hfront]; exact List.mem_cons_self)
    have hat₁ := hat.cancelsOthers hp hb.coherent hfront hs₁
    have hat₂ := hat₁.cancelsOthers (hc₁ ▸ hp) hb₁ hf₁ hs₂
    exact ⟨w₁, w₂, h₁, hs₁, h₂, hs₂, hat₂.settleFront hb₂ hf₂ (by omega), hH'⟩
  leave := by
    rintro idx o w hb rfl ⟨hat, hH⟩ hg
    exact ⟨hat.leaveLevel hp hb.coherent, hr.leave hb rfl hH hg⟩

/-- The same for a configuration that may or may not have exact caches. -/
theorem SparingRule.tidyOfPriced (hr : SparingRule c cb side G H) :
    SparingRule c cb side (fun o w => (c.Priced → Tidy w.book) ∧ G o w)
      (fun idx o w => (c.Priced → TidyAt w.book side idx) ∧ H idx o w) := by
  by_cases hp : c.Priced
  · simpa only [hp, forall_const] using hr.tidy hp
  · simpa only [hp, IsEmpty.forall_iff, true_and] using hr

end

/-! ### The end of `add_order` -/

/-- What `add_order` does after `match`, when the level of the price exists. -/
def afterMatch (o : Order) (w : World ε) : World ε :=
  if 0 < o.quantity ∧ o.type = .limit then w.withBook (w.book.join o) else w

theorem converges_addOrder {cb : FillCallback ε} {o o' : Order} {w w' : World ε}
    (htype : o.type ≠ .cancel)
    (hm : Converges (fun fuel => matchOrder cb fuel (o, w)) (.ok (o', w')))
    (hidx : o'.type = .limit → w'.book.config.priceToIndex o'.price < w'.book.config.numLevels) :
    Converges (fun fuel => addOrder cb fuel o w) (.ok (afterMatch o' w')) := by
  simp only [OrderBook.addOrder, if_neg htype]
  refine hm.bind ?_
  rw [afterMatch]
  split
  · rw [restOrder_eq (hidx (‹_ ∧ _›).2)]
    exact converges_const _
  · exact converges_const _

@[simp] theorem env_afterMatch {o : Order} {w : World ε} : (afterMatch o w).env = w.env := by
  rw [afterMatch]; split <;> rfl

theorem config_afterMatch {o : Order} {w : World ε} :
    (afterMatch o w).book.config = w.book.config := by
  rw [afterMatch]; split <;> simp

theorem Sound.afterMatch {o : Order} {w : World ε} (hb : Sound w.book)
    (hidx : 0 < o.quantity ∧ o.type = .limit →
      w.book.config.priceToIndex o.price < w.book.config.numLevels) :
    Sound (OrderBook.afterMatch o w).book := by
  rw [OrderBook.afterMatch]
  split
  · exact hb.join (‹_ ∧ _› : _ ∧ _).1 (hidx ‹_›)
  · exact hb

theorem LocatedOn.afterMatch {P : ℕ → Prop} {o : Order} {w : World ε} (hl : LocatedOn P w.book)
    (hid : o.type = .limit → P o.orderId → NotResting w.book o.orderId) :
    LocatedOn P (OrderBook.afterMatch o w).book := by
  rw [OrderBook.afterMatch]
  split
  · exact hl.join (hid (‹_ ∧ _› : _ ∧ _).2)
  · exact hl

/-- The pieces of a call that returns. Whether the level of the price exists is then known from the
fact that it does. -/
theorem of_addOrder_eq_ok {cb : FillCallback ε} {o : Order} {w w' : World ε} {fuel : ℕ}
    (htype : o.type ≠ .cancel) (h : addOrder cb fuel o w = .ok w') :
    ∃ o' v, matchOrder cb fuel (o, w) = .ok (o', v) ∧
      (0 < o'.quantity ∧ o'.type = .limit →
        v.book.config.priceToIndex o'.price < v.book.config.numLevels) ∧
      w' = afterMatch o' v := by
  rw [addOrder, if_neg htype] at h
  obtain ⟨⟨o', v⟩, hm, h⟩ := exists_of_bind_eq_ok h
  refine ⟨o', v, hm, ?_⟩
  dsimp only at h
  rw [OrderBook.afterMatch]
  split at h
  · rename_i hrest
    have hidx : v.book.config.priceToIndex o'.price < v.book.config.numLevels := by
      by_contra hidx
      rw [restOrder_eq_error (not_lt.mp hidx), error_bind] at h
      cases h
    rw [restOrder_eq hidx, ok_bind] at h
    rw [if_pos hrest]
    cases h
    exact ⟨fun _ => hidx, rfl⟩
  · rename_i hrest
    rw [if_neg hrest]
    cases h
    exact ⟨fun h => absurd h hrest, rfl⟩

/-- **The rule for `add_order`** calls that return. -/
theorem SparingRule.of_addOrder_eq_ok {c : OrderBookConfig} {cb : FillCallback ε}
    {G : Order → World ε → Prop} {H : ℕ → Order → World ε → Prop} {o : Order} {w w' : World ε}
    {fuel : ℕ} (hr : SparingRule c cb o.side G H) (hb : Sound w.book) (hc : w.book.config = c)
    (hG : G o w) (htype : o.type ≠ .cancel) (h : addOrder cb fuel o w = .ok w') :
    Sound w'.book ∧ ∃ q v, w' = OrderBook.afterMatch (o.withQuantity q) v ∧ Sound v.book ∧
      G (o.withQuantity q) v ∧ ¬ MatchGuard o.side (o.withQuantity q, v) := by
  obtain ⟨q, v, hconv, hv, -, hG', hg⟩ := hr.matchOrder rfl hb hc hG
  obtain ⟨o', v', hm, hidx, rfl⟩ := OrderBook.of_addOrder_eq_ok htype h
  cases hconv.eq_of_ok hm
  exact ⟨hv.afterMatch hidx, q, v, rfl, hv, hG', hg⟩

theorem occupied_join_iff {o : Order} : Occupied (b.join o) t j ↔
    Occupied b t j ∨ (t = o.side ∧ j = b.config.priceToIndex o.price) := by
  rw [Occupied, levels_join]
  by_cases h : t = o.side ∧ j = b.config.priceToIndex o.price
  · obtain ⟨rfl, rfl⟩ := h
    rw [levels_link_self]
    simp [PriceLevel.addOrder]
  · rw [levels_link_of_ne h]
    simp [Occupied, h]

/-- The cache after a new order has joined: its price if it improves on the old best. -/
theorem BestExact.join {o : Order} (h : BestExact b t) (hp : b.config.Priced)
    (hgrid : b.config.OnGrid o.price) : BestExact (b.join o) t := by
  obtain ⟨k, hk, hprice⟩ := OrderBookConfig.onGrid_iff.mp hgrid
  have hidx : b.config.priceToIndex o.price = k := by rw [hprice, b.config.priceToIndex_priceAt hk]
  have hocc := fun {j} => @occupied_join_iff b t j o
  rw [hidx] at hocc
  by_cases hts : t = o.side
  swap
  · refine h.congr (by simp) (by rw [best_join, if_neg (by simp [hts])]) fun j => ?_
    rw [hocc]; simp [hts]
  subst hts
  rcases h with ⟨hnil, hnone⟩ | ⟨idx, hat, ho⟩
  · refine Or.inr ⟨k, ⟨by simpa using hk, ?_, fun j hj hj' => ?_⟩, hocc.mpr (Or.inr ⟨rfl, rfl⟩)⟩
    · rw [best_join, if_pos ⟨rfl, Or.inl (by omega)⟩, config_join, hprice]
    · rcases hocc.mp hj' with hj' | ⟨-, rfl⟩
      · exact hnone j hj'
      · exact farther_irrefl hj
  · have hbest := hat.best
    have hnn := OrderBookConfig.priceAt_nonneg hp.nonneg idx
    have himp : Improves o.side o.price (b.best o.side) ↔ Farther o.side k idx := by
      rw [Improves, hprice, hbest]
      cases o.side <;>
        simp only [Side.Better, Farther, OrderBookConfig.priceAt_lt_priceAt] <;> omega
    by_cases hf : Farther o.side k idx
    · refine Or.inr ⟨k, ⟨by simpa using hk, ?_, fun j hj hj' => ?_⟩, hocc.mpr (Or.inr ⟨rfl, rfl⟩)⟩
      · rw [best_join, if_pos ⟨rfl, himp.mpr hf⟩, config_join, hprice]
      · rcases hocc.mp hj' with hj' | ⟨-, rfl⟩
        · exact hat.better j (farther_trans hj hf) hj'
        · exact farther_irrefl hj
    · refine Or.inr ⟨idx, ⟨by simpa using hat.lt, ?_, fun j hj hj' => ?_⟩, hocc.mpr (Or.inl ho)⟩
      · rw [best_join, if_neg (fun hi => hf (himp.mp hi.2)), config_join, hbest]
      · rcases hocc.mp hj' with hj' | ⟨-, rfl⟩
        · exact hat.better j hj hj'
        · exact hf hj

/-- **The remainder of a swept order does not cross the book.** -/
theorem Tidy.join {o : Order} (h : Tidy b) (hp : b.config.Priced) (hgrid : b.config.OnGrid o.price)
    (hstop : ¬ (0 ≤ b.best o.side.opp ∧ o.side.Crosses o.price (b.best o.side.opp))) :
    Tidy (b.join o) := by
  obtain ⟨k, hk, hprice⟩ := OrderBookConfig.onGrid_iff.mp hgrid
  have hidx : b.config.priceToIndex o.price = k := by rw [hprice, b.config.priceToIndex_priceAt hk]
  refine ⟨fun t j m hm => ?_, fun t => (h.best t).join hp hgrid, fun i j hi hj => ?_⟩
  · rw [config_join]
    rw [levels_join] at hm
    rcases mem_link.mp hm with hm | ⟨rfl, rfl, rfl⟩
    · exact h.aligned t j m hm
    · exact hgrid.priceAt_priceToIndex.symm
  · have key : ∀ l, Occupied b o.side.opp l → Farther o.side l k := by
      intro l hl
      rcases h.best o.side.opp with ⟨-, hnone⟩ | ⟨idx, hat, -⟩
      · exact absurd hl (hnone l)
      · have hnn := OrderBookConfig.priceAt_nonneg hp.nonneg idx
        have hb : ¬ Farther o.side.opp l idx := fun hf => hat.better l hf hl
        rw [hat.best, hprice] at hstop
        cases hs : o.side <;> rw [hs] at hstop hb <;>
          simp only [Side.opp, Side.Crosses, Farther, OrderBookConfig.priceAt_le_priceAt]
            at hstop hb ⊢ <;> omega
    rcases occupied_join_iff.mp hi with hi | ⟨hs, hi⟩ <;>
      rcases occupied_join_iff.mp hj with hj | ⟨hs', hj⟩
    · exact h.uncrossed i j hi hj
    · have := key i (by rw [← hs']; exact hi)
      rw [← hs', Farther] at this
      omega
    · have := key j (by rw [← hs]; exact hj)
      rw [← hs, Farther] at this
      omega
    · rw [← hs'] at hs; cases hs

theorem Tidy.afterMatch {o : Order} {w : World ε} (h : Tidy w.book) (hp : w.book.config.Priced)
    (hgrid : o.type = .limit → w.book.config.OnGrid o.price)
    (hstop : ¬ MatchGuard o.side (o, w)) : Tidy (OrderBook.afterMatch o w).book := by
  rw [OrderBook.afterMatch]
  split
  · obtain ⟨hq, hl⟩ := ‹_ ∧ _›
    exact h.join hp (hgrid hl) fun hg => hstop ⟨hq, hg⟩
  · exact h

end OrderBook

end MiniTrader
