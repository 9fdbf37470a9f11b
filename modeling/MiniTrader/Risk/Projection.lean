import MiniTrader.Risk.RiskGate

/-!
# The arithmetic of the position check

`check_position_limit` adds or subtracts in `int32_t` and takes the absolute value in `int32_t`.
Either can leave the range. The sum then comes back on the other side of zero, closer to it than the
true one is; and the absolute value of the least `int32_t` is that number again, which is below
every limit.

What the check compares with the limit is therefore the distance of the true projection from the
nearest multiple of `2 ^ 32`, except at a distance of `2 ^ 31`, where it is negative. So the check
is right for a projection up to `2 ^ 31` and, by luck, for one whose image is beyond the limit too.

## Main definitions

* `projected` — the position after the order has been filled, in unbounded integers

## Main results

* `checkPositionLimit_iff` — when the check is right
-/

namespace MiniTrader

namespace RiskGate

/-- The position if the order is filled. -/
def projected (g : RiskGate) (order : Order) : ℤ :=
  match order.side with
  | .buy => g.position + order.quantity
  | .sell => g.position - order.quantity

variable {g : RiskGate} {o : Order}

theorem checkPositionLimit_eq : g.checkPositionLimit o =
    decide (wrap32 (wrap32 (g.projected o)).natAbs ≤ g.config.maxPosition) := by
  unfold checkPositionLimit projected
  cases o.side <;> rfl

/-- The sum of two `int32_t`, and the difference, are within twice the range. -/
theorem natAbs_projected_le (hposition : IsInt32 g.position) (hquantity : IsInt32 o.quantity) :
    (g.projected o).natAbs ≤ 4294967296 := by
  obtain ⟨_, _⟩ := hposition
  obtain ⟨_, _⟩ := hquantity
  unfold projected
  cases o.side <;> dsimp only <;> omega

/-- **What the check compares** with the limit, for any number within twice the range. -/
theorem wrap32_natAbs_wrap32 {n : ℤ} (hn : n.natAbs ≤ 4294967296) :
    wrap32 (wrap32 n).natAbs =
      if n.natAbs = 2147483648 then -2147483648
      else if n.natAbs < 2147483648 then (n.natAbs : ℤ)
      else 4294967296 - n.natAbs := by
  have hwrap : wrap32 n = if n < -2147483648 then n + 4294967296
      else if n < 2147483648 then n else if n < 6442450944 then n - 4294967296
      else n - 8589934592 := by
    unfold wrap32
    rw [Int.bmod_def]
    split_ifs <;> omega
  split_ifs with hleast hsmall
  · -- either of the two numbers at this distance wraps to the least one
    have : wrap32 n = -2147483648 := by
      rw [hwrap]
      split_ifs <;> omega
    rw [this]
    unfold wrap32
    decide
  · rw [wrap32_of_lt (n := n) (by omega) (by omega), wrap32_of_lt (by omega) (by omega)]
  · have : ((wrap32 n).natAbs : ℤ) = 4294967296 - n.natAbs := by
      rw [hwrap]
      split_ifs <;> omega
    rw [this, wrap32_of_lt (by omega) (by omega)]

/-- **The position check** tells whether the true projection is within the limit, and then nothing
beyond the limit passes, if and only if the projection is not at a distance of `2 ^ 31` from zero
and keeps more than the limit away from `2 ^ 32`. -/
theorem checkPositionLimit_iff (g : RiskGate) (o : Order) (hposition : IsInt32 g.position)
    (hquantity : IsInt32 o.quantity) (hmin : 0 ≤ g.config.maxPosition)
    (hmax : IsInt32 g.config.maxPosition) :
    ((g.checkPositionLimit o = true ↔ ((g.projected o).natAbs : ℤ) ≤ g.config.maxPosition) ∧
        ∀ now, (g.check now o).1 = .pass →
          ((g.projected o).natAbs : ℤ) ≤ g.config.maxPosition) ↔
      ((g.projected o).natAbs ≠ 2147483648 ∧
        (g.projected o).natAbs + g.config.maxPosition < 4294967296) := by
  have hle := natAbs_projected_le hposition hquantity
  obtain ⟨-, hmax⟩ := hmax
  have hcheck : (g.checkPositionLimit o = true ↔
      ((g.projected o).natAbs : ℤ) ≤ g.config.maxPosition) ↔
      ((g.projected o).natAbs ≠ 2147483648 ∧
        (g.projected o).natAbs + g.config.maxPosition < 4294967296) := by
    rw [checkPositionLimit_eq, decide_eq_true_iff, wrap32_natAbs_wrap32 hle]
    split_ifs <;> omega
  rw [← hcheck]
  exact ⟨fun h => h.1, fun h => ⟨h, fun now hpass => h.mp (of_check_eq_pass hpass).1⟩⟩

/-- A gate with the limit of a thousand, at a short position of that size. -/
def shortGate : RiskGate := { config := {}, position := -1000 }

/-- The largest sell there is. -/
def largestSell : Order := ⟨1, 1, 5, 2147483647, .sell, .limit⟩

/-- The projection is beyond the range, and the order is rejected all the same. -/
theorem checkPositionLimit_iff_largestSell :
    ((shortGate.checkPositionLimit largestSell = true ↔
          ((shortGate.projected largestSell).natAbs : ℤ) ≤ shortGate.config.maxPosition) ∧
        ∀ now, (shortGate.check now largestSell).1 = .pass →
          ((shortGate.projected largestSell).natAbs : ℤ) ≤ shortGate.config.maxPosition) ↔
      ((shortGate.projected largestSell).natAbs ≠ 2147483648 ∧
        (shortGate.projected largestSell).natAbs + shortGate.config.maxPosition < 4294967296) :=
  checkPositionLimit_iff shortGate largestSell (by decide) (by decide) (by decide) (by decide)

/-- **One lot too many for 32 bits.** The projection is `2 ^ 31`, the limit a thousand, and the
order passes. -/
theorem check_passes_beyond :
    (({ config := {}, position := 1 } : RiskGate).check 0 ⟨1, 1, 5, 2147483647, .buy, .limit⟩).1 =
      .pass ∧
    ({ config := {}, position := 1 } : RiskGate).projected ⟨1, 1, 5, 2147483647, .buy, .limit⟩ =
      2147483648 := by
  decide +kernel

end RiskGate

end MiniTrader
