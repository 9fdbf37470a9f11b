import MiniTrader.Engine.Rules
import MiniTrader.OrderBook.Parametric

/-!
# Two engines side by side

The relational counterpart of `StepRel`. A relation between the states of two engines which the
primitive steps keep (`Respected`) is kept by everything the engines do with two strategies that
make the same calls (`StrategyM.Alike`), however deep their calls of `submit_order` from inside
`on_fill` are nested. The two engines may even run with different fuel.

Equality is such a relation, and every strategy makes the same calls as itself. So nothing the
engine does depends on the fuel (`persistent_run`), and a run that has returned once has converged:
statements about arbitrary strategies need no promise that the calls end.

## Main definitions

* `StrategyM.Alike`, `Strategy.Alike` — programs and strategies that make the same calls
* `Respected`, `TickRespected` — a relation that the steps keep

## Main results

* `Respected.submitOrder`, `Respected.interp`, `Respected.fillCallback`, `TickRespected.processTick`
* `persistent_processTick`, `persistent_runOnce`, `persistent_run` — more fuel changes no answer
-/

namespace MiniTrader

open Fuelled

/-! ### Programs that make the same calls -/

/-- The two programs make the same calls, as long as their states are related by `T` whenever they
are read. -/
inductive StrategyM.Alike {σ τ : Type} (T : σ → τ → Prop) {α : Type} :
    StrategyM σ α → StrategyM τ α → Prop where
  | pure (a : α) : Alike T (.pure a) (.pure a)
  | get {k : σ → StrategyM σ α} {k' : τ → StrategyM τ α}
      (h : ∀ s t, T s t → Alike T (k s) (k' t)) : Alike T (.get k) (.get k')
  | set {s : σ} {t : τ} {k : StrategyM σ α} {k' : StrategyM τ α} (hst : T s t)
      (h : Alike T k k') : Alike T (.set s k) (.set t k')
  | submit (order : Order) {k : StrategyM σ α} {k' : StrategyM τ α} (h : Alike T k k') :
      Alike T (.submit order k) (.submit order k')
  | cancel (orderId : ℕ) {k : StrategyM σ α} {k' : StrategyM τ α} (h : Alike T k k') :
      Alike T (.cancel orderId k) (.cancel orderId k')
  | position (instrumentId : ℕ) {k : ℤ → StrategyM σ α} {k' : ℤ → StrategyM τ α}
      (h : ∀ p, Alike T (k p) (k' p)) :
      Alike T (.position instrumentId k) (.position instrumentId k')

namespace StrategyM

variable {σ τ α β : Type} {T : σ → τ → Prop}

/-- Every program makes the same calls as itself. -/
theorem alike_refl (p : StrategyM σ α) : Alike Eq p p := by
  induction p with
  | pure a => exact .pure a
  | get k ih => exact .get fun s t hst => hst ▸ ih s
  | set s k ih => exact .set rfl ih
  | submit order k ih => exact .submit order ih
  | cancel orderId k ih => exact .cancel orderId ih
  | position instrumentId k ih => exact .position instrumentId ih

theorem Alike.bind {p : StrategyM σ α} {p' : StrategyM τ α} {f : α → StrategyM σ β}
    {f' : α → StrategyM τ β} (h : Alike T p p') (hf : ∀ a, Alike T (f a) (f' a)) :
    Alike T (p >>= f) (p' >>= f') := by
  induction h with
  | pure a => exact hf a
  | get _ ih => exact .get fun s t hst => ih s t hst
  | set hst _ ih => exact .set hst ih
  | submit order _ ih => exact .submit order ih
  | cancel orderId _ ih => exact .cancel orderId ih
  | position instrumentId _ ih => exact .position instrumentId ih

end StrategyM

/-- The two strategies make the same calls, on ticks related by `P`. -/
structure Strategy.Alike {σ τ : Type} (T : σ → τ → Prop) (P : MarketTick → MarketTick → Prop)
    (S : Strategy σ) (S' : Strategy τ) : Prop where
  onTick : ∀ {t t'}, P t t' → (S.onTick t).Alike T (S'.onTick t')
  onFill : ∀ r, (S.onFill r).Alike T (S'.onFill r)

theorem Strategy.alike_refl {σ : Type} (S : Strategy σ) : S.Alike Eq Eq S where
  onTick h := h ▸ StrategyM.alike_refl _
  onFill _ := StrategyM.alike_refl _

namespace TradingEngine

open OrderBook World

variable {σ τ α : Type} {R : EngineEnv σ → EngineEnv τ → Prop} {T : σ → τ → Prop}
  {P : MarketTick → MarketTick → Prop} {S : Strategy σ} {S' : Strategy τ} {e : TradingEngine σ}
  {e' : TradingEngine τ} {cb : FillCallback (EngineEnv σ)} {cb' : FillCallback (EngineEnv τ)}
  {n m : ℕ}

/-! ### The steps of the two engines -/

/-- The steps from which submissions, cancels and reports are made keep the relation, and what they
look at is the same. -/
structure Respected (R : EngineEnv σ → EngineEnv τ → Prop) (T : σ → τ → Prop) : Prop where
  strategy : ∀ {e : TradingEngine σ} {e' : TradingEngine τ}, Related R e e' →
    T e.env.strategy e'.env.strategy
  setStrategy : ∀ {e : TradingEngine σ} {e' : TradingEngine τ} {s t}, Related R e e' → T s t →
    Related R (setStrategy s e) (setStrategy t e')
  position : ∀ {e : TradingEngine σ} {e' : TradingEngine τ}, Related R e e' →
    e.env.risk.position = e'.env.risk.position
  passes : ∀ {e : TradingEngine σ} {e' : TradingEngine τ} (o : Order), Related R e e' →
    (e.Passes o ↔ e'.Passes o)
  rejected : ∀ {e : TradingEngine σ} {e' : TradingEngine τ} (own : Bool) (o : Order),
    Related R e e' → Related R (e.rejected own o) (e'.rejected own o)
  admitted : ∀ {e : TradingEngine σ} {e' : TradingEngine τ} (own : Bool) (o : Order),
    Related R e e' → Related R (e.admitted own o) (e'.admitted own o)
  untracked : ∀ {e : TradingEngine σ} {e' : TradingEngine τ} (id : ℕ), Related R e e' →
    Related R (e.untracked id) (e'.untracked id)
  beforeOnFill : ∀ {e : TradingEngine σ} {e' : TradingEngine τ} (r : ExecutionReport),
    Related R e e' → Related R (beforeOnFill r e) (beforeOnFill r e')

/-- The steps around `on_tick` keep it as well. -/
structure TickRespected (R : EngineEnv σ → EngineEnv τ → Prop) (T : σ → τ → Prop)
    (P : MarketTick → MarketTick → Prop) : Prop extends Respected R T where
  beforeOnTick : ∀ {e : TradingEngine σ} {e' : TradingEngine τ} {t t'}, P t t' → Related R e e' →
    Related R (beforeOnTick t e) (beforeOnTick t' e')
  afterOnTick : ∀ {e f : TradingEngine σ} {e' f' : TradingEngine τ}, Related R e e' →
    Related R f f' → Related R (f.afterOnTick e.now) (f'.afterOnTick e'.now)

/-- The answer of a program and the engine it leaves. -/
structure Ends (R : EngineEnv σ → EngineEnv τ → Prop) (x : α × TradingEngine σ)
    (y : α × TradingEngine τ) : Prop where
  answer : x.1 = y.1
  engine : Related R x.2 y.2

namespace Respected

theorem submitOrder (hR : Respected R T) (hcb : Keeps R cb cb') (hnm : n ≤ m) (own : Bool)
    (o : Order) (h : Related R e e') :
    Below (Related R) (e.submitOrder cb n own o) (e'.submitOrder cb' m own o) := by
  by_cases hp : e.Passes o
  · rw [submitOrder_of_passes hp, submitOrder_of_passes ((hR.passes o h).mp hp)]
    exact below_addOrder hcb hnm o (hR.admitted own o h)
  · rw [submitOrder_of_not_passes hp, submitOrder_of_not_passes ((hR.passes o h).not.mp hp)]
    exact .ok (hR.rejected own o h)

theorem cancelOrder (hR : Respected R T) (orderId : ℕ) (h : Related R e e') :
    Below (Related R) (e.cancelOrder orderId) (e'.cancelOrder orderId) := by
  rw [cancelOrder_eq, cancelOrder_eq, h.book]
  refine (below_refl _).bind fun r r' hr => ?_
  subst hr
  exact .ok ((hR.untracked orderId h).withBook _)

/-- **Programs that make the same calls.** -/
theorem interp (hR : Respected R T) (hcb : Keeps R cb cb') (hnm : n ≤ m) {p : StrategyM σ α}
    {p' : StrategyM τ α} (hp : p.Alike T p') (h : Related R e e') :
    Below (Ends R) (interp cb n p e) (interp cb' m p' e') := by
  induction hp generalizing e e' with
  | pure a => exact .ok ⟨rfl, h⟩
  | get _ ih => exact ih _ _ (hR.strategy h) h
  | set hst _ ih => exact ih (hR.setStrategy h hst)
  | submit order _ ih => exact (hR.submitOrder hcb hnm true order h).bind fun _ _ h' => ih h'
  | cancel orderId _ ih => exact (hR.cancelOrder orderId h).bind fun _ _ h' => ih h'
  | position instrumentId _ ih =>
    have hpos : e.position instrumentId = e'.position instrumentId := hR.position h
    rw [TradingEngine.interp, TradingEngine.interp, hpos]
    exact ih _ h

/-- **The callbacks of the two books.** The induction is on how deep the calls of `on_fill` may be
nested on the first side. -/
theorem fillCallback (hR : Respected R T) (hS : ∀ r, (S.onFill r).Alike T (S'.onFill r)) :
    ∀ {n m : ℕ}, n ≤ m → Keeps R (fillCallback S n) (fillCallback S' m) := by
  intro n
  induction n with
  | zero => exact fun _ _ _ _ _ => .outOfFuel _
  | succ n ih =>
    intro m hnm r w w' h
    obtain ⟨m, rfl⟩ : ∃ k, m = k + 1 := ⟨m - 1, by omega⟩
    have hle : n ≤ m := by omega
    exact (hR.interp (ih hle) hle (hS r) (hR.beforeOnFill r h)).bind fun _ _ h' => .ok h'.engine

end Respected

theorem TickRespected.processTick (hR : TickRespected R T P) (hS : S.Alike T P S') (hnm : n ≤ m)
    {t t' : MarketTick} (ht : P t t') (h : Related R e e') :
    Below (Related R) (e.processTick S n t) (e'.processTick S' m t') := by
  refine (hR.interp (hR.fillCallback hS.onFill hnm) hnm (hS.onTick ht)
    (hR.beforeOnTick ht h)).bind fun x y hxy => ?_
  exact .ok (hR.afterOnTick h hxy.engine)

/-! ### The same engine with more fuel -/

theorem related_eq_iff {ε : Type} {w w' : World ε} : Related Eq w w' ↔ w = w' := by
  constructor
  · rintro ⟨hb, he⟩
    cases w
    cases w'
    cases hb
    cases he
    rfl
  · rintro rfl
    exact ⟨rfl, rfl⟩

theorem tickRespected_eq : TickRespected (σ := σ) Eq Eq Eq where
  strategy h := by cases related_eq_iff.mp h; rfl
  setStrategy h hst := by cases related_eq_iff.mp h; cases hst; exact ⟨rfl, rfl⟩
  position h := by cases related_eq_iff.mp h; rfl
  passes _ h := by cases related_eq_iff.mp h; rfl
  rejected _ _ h := by cases related_eq_iff.mp h; exact ⟨rfl, rfl⟩
  admitted _ _ h := by cases related_eq_iff.mp h; exact ⟨rfl, rfl⟩
  untracked _ h := by cases related_eq_iff.mp h; exact ⟨rfl, rfl⟩
  beforeOnFill _ h := by cases related_eq_iff.mp h; exact ⟨rfl, rfl⟩
  beforeOnTick ht h := by cases ht; cases related_eq_iff.mp h; exact ⟨rfl, rfl⟩
  afterOnTick h h' := by
    cases related_eq_iff.mp h
    cases related_eq_iff.mp h'
    exact ⟨rfl, rfl⟩

theorem below_eq_of_related {ε : Type} {r r' : Outcome (World ε)}
    (h : Below (Related Eq) r r') : Below Eq r r' :=
  h.mono fun _ _ hw => related_eq_iff.mp hw

theorem keeps_fillCallback (S : Strategy σ) (hnm : n ≤ m) :
    Keeps Eq (fillCallback S n) (fillCallback S m) :=
  tickRespected_eq.fillCallback (fun r => S.alike_refl.onFill r) hnm

theorem persistent_submitOrder (S : Strategy σ) (own : Bool) (o : Order) (e : TradingEngine σ) :
    Persistent fun fuel => e.submitOrder (fillCallback S fuel) fuel own o :=
  fun _ _ hnm => below_eq_of_related
    (tickRespected_eq.submitOrder (keeps_fillCallback S hnm) hnm own o ⟨rfl, rfl⟩)

theorem persistent_interp (S : Strategy σ) (p : StrategyM σ α) (e : TradingEngine σ) :
    Persistent fun fuel => interp (fillCallback S fuel) fuel p e :=
  fun _ _ hnm => (tickRespected_eq.interp (keeps_fillCallback S hnm) hnm
    (StrategyM.alike_refl p) ⟨rfl, rfl⟩).mono
      fun _ _ hxy => Prod.ext hxy.answer (related_eq_iff.mp hxy.engine)

theorem persistent_processTick (S : Strategy σ) (tick : MarketTick) (e : TradingEngine σ) :
    Persistent fun fuel => e.processTick S fuel tick :=
  fun _ _ hnm => below_eq_of_related
    (tickRespected_eq.processTick S.alike_refl hnm rfl ⟨rfl, rfl⟩)

theorem persistent_popTick (S : Strategy σ) (s : ℕ × TradingEngine σ) :
    Persistent fun fuel => popTick S fuel s := by
  simp only [popTick]
  split
  · exact persistent_const _
  · exact (persistent_processTick S _ _).bind fun _ => persistent_const _

theorem persistent_runOnce (S : Strategy σ) (e : TradingEngine σ) :
    Persistent fun fuel => e.runOnce S fuel :=
  fun _ _ hnm => below_whileLoop (fun _ _ h => by rw [h])
    (fun s _ h _ => h ▸ persistent_popTick S s _ _ hnm) hnm rfl

theorem persistent_engineOp (S : Strategy σ) (op : EngineOp σ) (e : TradingEngine σ) :
    Persistent fun fuel => op.run S fuel e := by
  cases op with
  | pushTick tick => exact persistent_const _
  | runOnce => exact (persistent_runOnce S e).bind fun _ => persistent_const _
  | submitOrder order => exact persistent_submitOrder S false order e
  | cancelOrder orderId => exact persistent_const _
  | invoke program => exact (persistent_interp S program e).bind fun _ => persistent_const _
  | enableQueueLatencyTracking on => exact persistent_const _
  | resetLatencyStats => exact persistent_const _

/-- **More fuel changes no answer**, for any strategy and any calls. -/
theorem persistent_run (S : Strategy σ) (ops : List (EngineOp σ)) (e : TradingEngine σ) :
    Persistent fun fuel => run S ops fuel e :=
  fun n m hnm => below_runList (P := Eq) (fun op op' s t hop hst => by
    cases hop
    cases hst
    exact persistent_engineOp S op s n m hnm) (List.forall₂_refl ops) rfl

end TradingEngine

end MiniTrader
