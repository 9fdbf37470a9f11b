import MiniTrader.Lib.Runs
import MiniTrader.Risk.RiskGate
import Mathlib.Tactic.Linarith

/-!
# The position limit

`check_position_limit` projects one order against the current position. Orders that have passed and
are still open are not part of the projection, so each of several orders can be within the limit
while all of them together are not.

What does bound the position is the *exposure* of a side: the position on that side together with
all that can still be filled on it. A fill turns open quantity into position and leaves the exposure
of its side alone, and it lowers the exposure of the other side; only a check that passes raises it.
So the position stays within the limit as long as every order that passes keeps the exposure there,
and once an order does not, the fills that lead beyond the limit are already possible.

With no other order open on its side, the projection is the exposure (`covered_of_check`).

## Main definitions

* `Ledger` — the gate, and what has passed it
* `GateOp.Ok` — a report fills an order that has passed
* `exposure`, `GateOp.Covered` — the condition

## Main results

* `natAbs_position_le_of_covered` — the condition is the right one
-/

namespace MiniTrader

open Fuelled

/-- The direction in which a fill moves the position. -/
def Side.sign : Side → ℤ
  | .buy => 1
  | .sell => -1

namespace RiskGate

/-- The gate together with the orders that have passed, each with what is left to fill. -/
structure Ledger where
  gate : RiskGate
  passed : List (Order × ℤ)

/-- A call of the gate. `entry` says which of the orders that have passed is filled. -/
inductive GateOp where
  | check (now : ℤ) (order : Order)
  | onFill (entry : ℕ) (report : ExecutionReport)

/-- One call. -/
def GateOp.step (s : Ledger) : GateOp → Ledger
  | .check now o =>
    let r := s.gate.check now o
    ⟨r.2, if r.1 = .pass then s.passed ++ [(o, o.quantity)] else s.passed⟩
  | .onFill entry r =>
    ⟨s.gate.onFill r, s.passed.modify entry fun p => (p.1, p.2 - r.filledQuantity)⟩

/-- Orders have a positive quantity; a report is about an order that has passed, is on its side and
fills no more than what is left of it. -/
def GateOp.Ok (s : Ledger) : GateOp → Prop
  | .check _ o => 0 < o.quantity
  | .onFill entry r => ∃ p ∈ s.passed[entry]?, r.orderId = p.1.orderId ∧ r.side = p.1.side ∧
      0 ≤ r.filledQuantity ∧ r.filledQuantity ≤ p.2

/-- What is left to fill on one side. -/
def openQuantity (side : Side) (passed : List (Order × ℤ)) : ℤ :=
  (passed.map fun p => if p.1.side = side then p.2 else 0).sum

/-- The position of a side when everything open on it is filled and nothing else is. -/
def exposure (s : Ledger) (side : Side) : ℤ :=
  side.sign * s.gate.position + openQuantity side s.passed

/-- An order that passes keeps the exposure of its side within the limit. -/
def GateOp.Covered (s : Ledger) : GateOp → Prop
  | .check now o => (s.gate.check now o).1 = .pass →
      exposure s o.side + o.quantity ≤ s.gate.config.maxPosition
  | .onFill _ _ => True

instance (s : Ledger) (op : GateOp) : Decidable (op.Ok s) :=
  match op with
  | .check _ _ => inferInstanceAs (Decidable (_ < _))
  | .onFill _ _ => inferInstanceAs (Decidable (∃ p ∈ _, _))

instance (s : Ledger) (op : GateOp) : Decidable (op.Covered s) :=
  match op with
  | .check _ _ => inferInstanceAs (Decidable (_ → _))
  | .onFill _ _ => inferInstanceAs (Decidable True)

/-- A new gate. -/
def Ledger.new (config : RiskConfig) : Ledger := ⟨{ config }, []⟩

/-! ### Open quantities -/

@[simp] theorem openQuantity_nil (side : Side) : openQuantity side [] = 0 := rfl

@[simp] theorem openQuantity_cons (side : Side) (p : Order × ℤ) (ps : List (Order × ℤ)) :
    openQuantity side (p :: ps) = (if p.1.side = side then p.2 else 0) + openQuantity side ps := by
  simp [openQuantity]

@[simp] theorem openQuantity_append (side : Side) (ps ps' : List (Order × ℤ)) :
    openQuantity side (ps ++ ps') = openQuantity side ps + openQuantity side ps' := by
  simp [openQuantity]

theorem openQuantity_nonneg {side : Side} {ps : List (Order × ℤ)} (h : ∀ p ∈ ps, 0 ≤ p.2) :
    0 ≤ openQuantity side ps := by
  induction ps with
  | nil => exact le_rfl
  | cons p ps ih =>
    have hp := h p List.mem_cons_self
    have := ih fun p' h' => h p' (List.mem_cons_of_mem _ h')
    rw [openQuantity_cons]
    split <;> omega

/-- What a fill takes away. -/
theorem openQuantity_modify {side : Side} {ps : List (Order × ℤ)} {k : ℕ} {p : Order × ℤ}
    (h : ps[k]? = some p) (q : ℤ) : openQuantity side (ps.modify k fun p => (p.1, p.2 - q)) =
      openQuantity side ps - if p.1.side = side then q else 0 := by
  induction ps generalizing k with
  | nil => cases h
  | cons p' ps ih =>
    cases k with
    | zero =>
      obtain rfl : p' = p := by simpa using h
      rw [List.modify_zero_cons, openQuantity_cons, openQuantity_cons]
      dsimp only
      split <;> omega
    | succ k =>
      rw [List.modify_succ_cons, openQuantity_cons, openQuantity_cons, ih (by simpa using h)]
      omega

/-- What is open on a side is open in some entry. -/
theorem exists_open {side : Side} {ps : List (Order × ℤ)} (h : 0 < openQuantity side ps) :
    ∃ (k : ℕ) (p : Order × ℤ), ps[k]? = some p ∧ p.1.side = side ∧ 0 < p.2 := by
  induction ps with
  | nil => exact absurd h (lt_irrefl _)
  | cons p ps ih =>
    by_cases hp : p.1.side = side ∧ 0 < p.2
    · exact ⟨0, p, rfl, hp.1, hp.2⟩
    · rw [openQuantity_cons] at h
      have hrest : 0 < openQuantity side ps := by
        split at h
        · have := not_lt.mp fun hpos => hp ⟨‹_›, hpos⟩
          omega
        · omega
      obtain ⟨k, p', hk, hp'⟩ := ih hrest
      exact ⟨k + 1, p', hk, hp'⟩

/-! ### One call -/

theorem position_onFill (g : RiskGate) (r : ExecutionReport) :
    (g.onFill r).position = wrap32 (g.position + r.side.sign * r.filledQuantity) := by
  unfold onFill
  cases r.side
  · show wrap32 _ = wrap32 _
    rw [Side.sign, one_mul]
  · show wrap32 _ = wrap32 _
    rw [Side.sign, neg_one_mul, Int.sub_eq_add_neg]

/-- The exposures are within the limit, and nothing is overfilled. -/
structure Bounded (config : RiskConfig) (s : Ledger) : Prop where
  config_eq : s.gate.config = config
  left : ∀ p ∈ s.passed, 0 ≤ p.2
  exposed : ∀ side, exposure s side ≤ config.maxPosition

variable {config : RiskConfig} {s : Ledger} {op : GateOp}

/-- The position is a part of either exposure. -/
theorem Bounded.natAbs_le (h : Bounded config s) :
    (s.gate.position.natAbs : ℤ) ≤ config.maxPosition := by
  have hbuy := h.exposed .buy
  have hsell := h.exposed .sell
  have := @openQuantity_nonneg .buy _ h.left
  have := @openQuantity_nonneg .sell _ h.left
  simp only [exposure, Side.sign] at hbuy hsell
  omega

theorem Bounded.check {now : ℤ} {o : Order} (h : Bounded config s) (hok : 0 < o.quantity)
    (hcov : (GateOp.check now o).Covered s) : Bounded config (GateOp.step s (.check now o)) := by
  have hpos := s.gate.position_check now o
  refine ⟨(s.gate.config_check now o).trans h.config_eq, ?_, fun side => ?_⟩
  · intro p hp
    simp only [GateOp.step] at hp
    split at hp
    · rcases List.mem_append.mp hp with hp | hp
      · exact h.left p hp
      · rw [List.mem_singleton.mp hp]
        exact hok.le
    · exact h.left p hp
  · have hside := h.exposed side
    simp only [exposure, GateOp.step, hpos] at hside ⊢
    split
    · have hcov := hcov ‹_›
      rw [h.config_eq] at hcov
      rw [openQuantity_append, openQuantity_cons, openQuantity_nil]
      dsimp only
      split
      · rename_i heq
        rw [heq, exposure] at hcov
        omega
      · omega
    · exact hside

/-- **A fill** moves open quantity of its side into the position. -/
theorem Bounded.onFill {entry : ℕ} {r : ExecutionReport} (hmax : config.maxPosition < 2147483648)
    (h : Bounded config s) (hok : (GateOp.onFill entry r).Ok s) :
    Bounded config (GateOp.step s (.onFill entry r)) := by
  obtain ⟨p, hp, -, hside, hnn, hle⟩ := hok
  have hleft : ∀ p' ∈ s.passed.modify entry fun p => (p.1, p.2 - r.filledQuantity), 0 ≤ p'.2 := by
    intro p' hp'
    obtain ⟨k, hk⟩ := List.mem_iff_getElem?.mp hp'
    rw [List.getElem?_modify] at hk
    obtain ⟨p₀, hp₀, rfl⟩ := Option.map_eq_some_iff.mp hk
    have := h.left p₀ (List.mem_of_getElem? hp₀)
    split
    · rename_i heq
      rw [← heq, hp, Option.some.injEq] at hp₀
      subst hp₀
      dsimp only
      omega
    · exact this
  have hopen : ∀ side, openQuantity side (s.passed.modify entry fun p =>
      (p.1, p.2 - r.filledQuantity)) = openQuantity side s.passed -
        if r.side = side then r.filledQuantity else 0 := by
    intro side
    rw [hside]
    exact openQuantity_modify hp _
  -- the position stays within the limit, and so within 32 bits
  have habs := h.natAbs_le
  have hexp := h.exposed r.side
  have hrest := @openQuantity_nonneg r.side _ hleft
  rw [hopen, if_pos rfl] at hrest
  have hposition : (s.gate.onFill r).position =
      s.gate.position + r.side.sign * r.filledQuantity := by
    rw [position_onFill]
    cases hs : r.side <;> simp only [hs, exposure, Side.sign] at hexp hrest ⊢ <;>
      exact wrap32_of_lt (by omega) (by omega)
  refine ⟨(s.gate.config_onFill r).trans h.config_eq, hleft, fun side => ?_⟩
  have hexp' := h.exposed side
  simp only [exposure, GateOp.step, hposition, hopen] at hexp' ⊢
  cases hs : r.side <;> cases side <;> simp [Side.sign] at hexp' ⊢ <;> omega

theorem Bounded.step (hmax : config.maxPosition < 2147483648) (h : Bounded config s)
    (hok : op.Ok s ∧ op.Covered s) : Bounded config (GateOp.step s op) := by
  cases op with
  | check now o => exact h.check hok.1 hok.2
  | onFill entry r => exact h.onFill hmax hok.1

theorem bounded_new (hmin : 0 ≤ config.maxPosition) : Bounded config (Ledger.new config) :=
  ⟨rfl, fun _ hp => absurd hp List.not_mem_nil, fun side => by
    cases side <;> simpa [exposure, Ledger.new] using hmin⟩

/-! ### Fills that are possible -/

/-- Everything that is open can be filled, one lot at a time. -/
theorem exists_fills (side : Side) (n : ℕ) (h : n ≤ openQuantity side s.passed) :
    ∃ ops, Allowed (fun s op => GateOp.Ok s op) GateOp.step s ops ∧
      wrap32 (ops.foldl GateOp.step s).gate.position =
        wrap32 (s.gate.position + side.sign * n) := by
  induction n generalizing s with
  | zero => exact ⟨[], trivial, by simp⟩
  | succ n ih =>
    obtain ⟨k, p, hp, hside, hpos⟩ := exists_open (lt_of_lt_of_le (by omega) h)
    have hopen := @openQuantity_modify side _ _ _ hp 1
    rw [if_pos hside] at hopen
    let r : ExecutionReport := ⟨p.1.orderId, 0, p.1.price, 1, p.1.side, true⟩
    obtain ⟨ops, hops, hlast⟩ := @ih (GateOp.step s (.onFill k r))
      (by show _ ≤ openQuantity side (s.passed.modify k fun p => (p.1, p.2 - 1)); omega)
    refine ⟨.onFill k r :: ops, ⟨⟨p, hp, rfl, rfl, Int.one_nonneg, hpos⟩, hops⟩, ?_⟩
    have hposition : (GateOp.step s (.onFill k r)).gate.position =
        wrap32 (s.gate.position + side.sign) := by
      show (s.gate.onFill r).position = _
      rw [position_onFill, ← hside]
      show wrap32 (s.gate.position + p.1.side.sign * 1) = _
      rw [mul_one]
    rw [List.foldl_cons, hlast, hposition, wrap32_wrap32_add, add_assoc, Nat.cast_succ, mul_add,
      mul_one, add_comm side.sign]

/-- A position that has gone one lot beyond the limit is beyond it however it is represented. -/
theorem lt_natAbs_of_wrap32_eq {m n p : ℤ} (hm : 0 ≤ m) (hm' : m < 2147483648)
    (hn : n = m + 1 ∨ n = -(m + 1)) (h : wrap32 p = wrap32 n) : m < p.natAbs := by
  by_contra hle
  rw [wrap32_of_lt (n := p) (by omega) (by omega)] at h
  unfold wrap32 at h
  rw [Int.bmod_def] at h
  omega

/-- The projection of the check is the exposure when nothing else is open on the side of the order
and the addition does not overflow. -/
theorem covered_of_check {now : ℤ} {o : Order} (hmax : config.maxPosition < 2147483648)
    (h : Bounded config s) (hq : 0 < o.quantity)
    (hsum : o.side.sign * s.gate.position + o.quantity < 2147483648)
    (hnone : openQuantity o.side s.passed = 0) : (GateOp.check now o).Covered s := by
  intro hpass
  have habs := h.natAbs_le
  have hlimit := (of_check_eq_pass hpass).1
  rw [h.config_eq, exposure, hnone]
  unfold checkPositionLimit at hlimit
  rw [h.config_eq] at hlimit
  cases hs : o.side <;> simp only [hs, decide_eq_true_eq, Side.sign] at hlimit hsum ⊢
  · have hprojected : wrap32 (s.gate.position + o.quantity) = s.gate.position + o.quantity :=
      wrap32_of_lt (by omega) (by omega)
    rw [hprojected, wrap32_of_lt (by omega) (by omega)] at hlimit
    omega
  · have hprojected : wrap32 (s.gate.position - o.quantity) = s.gate.position - o.quantity :=
      wrap32_of_lt (by omega) (by omega)
    rw [hprojected, wrap32_of_lt (by omega) (by omega)] at hlimit
    omega

/-- **The position limit.** In every sequence of checks and reports in which each order that passes
keeps the exposure of its side within the limit, the position stays within the limit. After a check
that passes an order without doing so there are reports that take the position beyond it. -/
theorem natAbs_position_le_of_covered (config : RiskConfig) (hmin : 0 ≤ config.maxPosition)
    (hmax : config.maxPosition < 2 ^ 31) (ops : List GateOp)
    (hops : Allowed (fun s op => GateOp.Ok s op ∧ GateOp.Covered s op) GateOp.step
      (Ledger.new config) ops) :
    ((ops.foldl GateOp.step (Ledger.new config)).gate.position.natAbs : ℤ) ≤ config.maxPosition ∧
    ∀ now o, 0 < o.quantity →
      ¬ (GateOp.check now o).Covered (ops.foldl GateOp.step (Ledger.new config)) →
      ∃ fills, Allowed GateOp.Ok GateOp.step (Ledger.new config) (ops ++ .check now o :: fills) ∧
        config.maxPosition < ((ops ++ .check now o :: fills).foldl GateOp.step
          (Ledger.new config)).gate.position.natAbs := by
  have hb : Bounded config (ops.foldl GateOp.step (Ledger.new config)) :=
    hops.induction (fun h hok => h.step hmax hok) (bounded_new hmin)
  refine ⟨hb.natAbs_le, fun now o hq hnot => ?_⟩
  generalize hs : ops.foldl GateOp.step (Ledger.new config) = s at hb hnot
  obtain ⟨hpass, hexp⟩ := Classical.not_imp.mp hnot
  rw [hb.config_eq, not_le, exposure] at hexp
  have habs := hb.natAbs_le
  have hposition := s.gate.position_check now o
  have hopen : openQuantity o.side (GateOp.step s (.check now o)).passed =
      openQuantity o.side s.passed + o.quantity := by
    simp [GateOp.step, hpass]
  -- one lot more than the limit, counted on the side of the order
  obtain ⟨n, hn⟩ : ∃ n : ℕ, (n : ℤ) = config.maxPosition + 1 - o.side.sign * s.gate.position :=
    Int.eq_ofNat_of_zero_le (by cases o.side <;> simp only [Side.sign] <;> omega) |>.imp
      fun _ h => h.symm
  obtain ⟨fills, hfills, hlast⟩ := exists_fills (s := GateOp.step s (.check now o)) o.side n
    (by rw [hopen]; omega)
  refine ⟨fills, ?_, ?_⟩
  · refine (hops.imp fun h => h.1).append ?_
    rw [hs]
    exact ⟨hq, hfills⟩
  · rw [List.foldl_append, hs, List.foldl_cons]
    have hstart : (GateOp.step s (.check now o)).gate.position = s.gate.position := hposition
    rw [hstart] at hlast
    refine lt_natAbs_of_wrap32_eq hmin hmax ?_ hlast
    cases hside : o.side <;> simp only [hside, Side.sign] at hn ⊢ <;> omega

/-- Two orders of six lots each with a limit of ten, the second after the first has been filled and
in the other direction. -/
theorem natAbs_position_le_of_covered_example :
    ((([.check 0 ⟨1, 1, 5, 6, .buy, .limit⟩, .onFill 0 ⟨1, 7, 5, 6, .buy, true⟩,
        .check 0 ⟨2, 1, 5, 6, .sell, .limit⟩, .onFill 1 ⟨2, 7, 5, 4, .sell, true⟩] :
        List GateOp).foldl GateOp.step (Ledger.new { maxPosition := 10 })).gate.position.natAbs :
      ℤ) ≤ 10 := by
  exact (natAbs_position_le_of_covered { maxPosition := 10 } (by decide) (by decide) _
    (by decide +kernel)).1

/-- **Two buys that are open together.** Both are within a limit of ten. -/
theorem position_two_buys :
    Allowed GateOp.Ok GateOp.step (Ledger.new { maxPosition := 10 })
      [.check 0 ⟨1, 1, 5, 10, .buy, .limit⟩, .check 0 ⟨2, 1, 5, 10, .buy, .limit⟩,
        .onFill 0 ⟨1, 7, 5, 10, .buy, true⟩, .onFill 1 ⟨2, 8, 5, 10, .buy, true⟩] ∧
    (([.check 0 ⟨1, 1, 5, 10, .buy, .limit⟩, .check 0 ⟨2, 1, 5, 10, .buy, .limit⟩,
        .onFill 0 ⟨1, 7, 5, 10, .buy, true⟩, .onFill 1 ⟨2, 8, 5, 10, .buy, true⟩] :
        List GateOp).foldl GateOp.step (Ledger.new { maxPosition := 10 })).gate.position = 20 := by
  decide +kernel

end RiskGate

end MiniTrader
