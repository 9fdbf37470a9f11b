import MiniTrader.Engine.LatencySamples

/-!
# Percentiles in order

A larger percentile has a larger target rank, and the value for a rank is between the bounds of the
bucket in which the loop finds it. So two percentiles can only be out of order if two ranks of one
bucket are, which the interpolation excludes, or if the bounds are: and of those all but one are
constants. The last bucket ends at the maximum, which is a variable of its own; but a bucket in
which the loop interpolates is not empty, and the maximum is not below its samples.

The same reason keeps the subtractions of `uint64_t` values from wrapping around.

## Main definitions

* `checkedSub`, `percentileChecked` — the computation with its subtractions checked
* `valueAt` — the value for a rank

## Main results

* `Records.percentileChecked_eq` — no subtraction wraps around
* `Records.percentile_mono` — percentiles are monotone
* `percentiles_of_run` — what the engine reports
-/

namespace MiniTrader

open Fuelled OrderStatistics

namespace LatencyStats

variable {bounds xs : List ℕ} {s : LatencyStats} {max b t t' : ℕ}

/-! ### The subtractions -/

/-- A difference of `uint64_t` values, if it does not wrap around. -/
def checkedSub (m n : ℕ) : Option ℕ := if n ≤ m then some (m - n) else none

theorem checkedSub_of_le {m n : ℕ} (h : n ≤ m) : checkedSub m n = some (m - n) := if_pos h

/-- `percentileFrom` with its subtractions checked. -/
def percentileFromChecked (max target : ℕ) : List (ℕ × ℕ) → ℕ → ℕ → Option ℕ
  | [], _, _ => some max
  | (count, hi) :: buckets, cumulative, lo =>
    if target ≤ cumulative + count then
      if count = 0 then some lo
      else do
        let before ← checkedSub (cumulative + count) count
        let among ← checkedSub target before
        let width ← checkedSub hi lo
        let frac : ℚ := (among : ℕ) / (count : ℕ)
        some (lo + ⌊frac * (width : ℕ)⌋₊)
    else percentileFromChecked max target buckets (cumulative + count) hi

/-- `percentile` with its subtractions checked. -/
def percentileChecked (bounds : List ℕ) (n : ℕ) (pct : ℚ) (s : LatencyStats) : Option ℕ :=
  if n = 0 then some 0
  else percentileFromChecked s.max (target pct n) (s.hist.zip (bounds ++ [s.max])) 0 0

/-- Where a sample is, the bounds are in order. -/
theorem bounds_le_of_within (hbounds : (0 :: bounds).Pairwise (· < ·)) (hmax : ∀ x ∈ xs, x ≤ max)
    (hb : within bounds xs b ≠ 0) : lowerBound bounds b ≤ upperBound bounds max b := by
  obtain ⟨x, hx, hbucket⟩ := List.countP_pos_iff.mp (Nat.pos_of_ne_zero hb)
  rw [← of_decide_eq_true hbucket]
  exact lowerBound_le_upperBound hbounds (hmax x hx)

/-- **The loop.** What has been counted before a bucket is never more than the target. -/
theorem percentileFromChecked_eq (hbounds : (0 :: bounds).Pairwise (· < ·))
    (hmax : ∀ x ∈ xs, x ≤ max) (d : ℕ) (hd : b + d = bounds.length + 1)
    (hbelow : below bounds xs b ≤ t) :
    percentileFromChecked max t ((List.range' b d).map fun b =>
        (within bounds xs b, upperBound bounds max b)) (below bounds xs b) (lowerBound bounds b) =
      some (percentileFrom max t ((List.range' b d).map fun b =>
        (within bounds xs b, upperBound bounds max b)) (below bounds xs b)
          (lowerBound bounds b)) := by
  induction d generalizing b with
  | zero => rfl
  | succ d ih =>
    have hsucc := below_succ bounds xs b
    rw [List.range'_succ, List.map_cons, percentileFromChecked, percentileFrom]
    by_cases hle : t ≤ below bounds xs b + within bounds xs b
    · rw [if_pos hle, if_pos hle]
      by_cases hempty : within bounds xs b = 0
      · rw [if_pos hempty, if_pos hempty]
      · have hwidth := bounds_le_of_within hbounds hmax hempty
        rw [if_neg hempty, if_neg hempty, checkedSub_of_le (Nat.le_add_left _ _),
          Option.bind_eq_bind, Option.bind_some, checkedSub_of_le (by omega), Option.bind_some,
          checkedSub_of_le hwidth]
        rfl
    · rw [if_neg hle, if_neg hle, ← hsucc]
      rcases Nat.lt_or_ge b bounds.length with hb | hb
      · rw [← lowerBound_succ hb]
        exact ih (by omega) (by omega)
      · -- this was the last bucket
        obtain rfl : d = 0 := by omega
        rfl

/-- **No subtraction wraps around**, for any percentile. -/
theorem Records.percentileChecked_eq (hbounds : (0 :: bounds).Pairwise (· < ·))
    (h : Records bounds xs s) (n : ℕ) (pct : ℚ) :
    s.percentileChecked bounds n pct = some (s.percentile bounds n pct) := by
  rw [percentileChecked, percentile]
  by_cases hn : n = 0
  · rw [if_pos hn, if_pos hn]
  · rw [if_neg hn, if_neg hn, h.zip_eq]
    have hstart : below bounds xs 0 ≤ target pct n := by
      rw [below_zero]
      exact Nat.zero_le _
    have heq := percentileFromChecked_eq hbounds h.le_max _ (Nat.zero_add _) hstart
    rwa [below_zero, lowerBound_zero] at heq

/-! ### The value for a rank -/

/-- What the loop gives for the rank `t`. -/
def valueAt (bounds xs : List ℕ) (max t : ℕ) : ℕ :=
  percentileFrom max t ((List.range' 0 (bounds.length + 1)).map fun b =>
    (within bounds xs b, upperBound bounds max b)) 0 0

theorem Records.percentile_eq_valueAt (h : Records bounds xs s) {n : ℕ} (hn : n ≠ 0) (pct : ℚ) :
    s.percentile bounds n pct = valueAt bounds xs s.max (target pct n) := by
  rw [percentile, if_neg hn, h.zip_eq, valueAt]

theorem valueAt_zero : valueAt bounds xs max 0 = 0 :=
  percentileFrom_zero _ _ (by simp [List.range'_succ])

/-- The value is interpolated in the bucket of the sample with the rank. -/
theorem exists_valueAt (ht : 0 < t) (hle : t ≤ xs.length) : ∃ y ∈ xs,
    (∀ b, bucket bounds y < b ↔ t ≤ below bounds xs b) ∧
    valueAt bounds xs max t = lowerBound bounds (bucket bounds y) +
      (t - below bounds xs (bucket bounds y)) *
        (upperBound bounds max (bucket bounds y) - lowerBound bounds (bucket bounds y)) /
          within bounds xs (bucket bounds y) := by
  obtain ⟨y, -, hmem, hy⟩ := exists_kthSmallest_bucket bounds ht hle
  have hstart : below bounds xs 0 < t := by rwa [below_zero]
  have heq := @percentileFrom_eq bounds xs max y t hle hy _ _ (Nat.zero_add _) hstart
  rw [below_zero, lowerBound_zero] at heq
  exact ⟨y, hmem, hy, heq⟩

/-- **A larger rank has a larger value.** -/
theorem valueAt_mono (hbounds : (0 :: bounds).Pairwise (· < ·)) (hmax : ∀ x ∈ xs, x ≤ max)
    (htt' : t ≤ t') (ht' : t' ≤ xs.length) :
    valueAt bounds xs max t ≤ valueAt bounds xs max t' := by
  rcases Nat.eq_zero_or_pos t with rfl | ht
  · rw [valueAt_zero]
    exact Nat.zero_le _
  obtain ⟨y, hy, hbucket, hvalue⟩ := @exists_valueAt bounds xs max t ht (htt'.trans ht')
  obtain ⟨y', hy', hbucket', hvalue'⟩ := @exists_valueAt bounds xs max t' (ht.trans_le htt') ht'
  have hle : bucket bounds y ≤ bucket bounds y' := by
    have hin := (hbucket' _).mp (Nat.lt_succ_self (bucket bounds y'))
    exact Nat.lt_succ_iff.mp ((hbucket _).mpr (htt'.trans hin))
  rw [hvalue, hvalue']
  rcases hle.eq_or_lt with heq | hlt
  · -- both ranks in one bucket
    rw [heq]
    exact Nat.add_le_add_left (Nat.div_le_div_right (Nat.mul_le_mul_right _ (by omega))) _
  · -- the bound between the buckets is between the values
    have hamong : t - below bounds xs (bucket bounds y) ≤ within bounds xs (bucket bounds y) := by
      have := (hbucket (bucket bounds y + 1)).mp (Nat.lt_succ_self _)
      rw [below_succ] at this
      omega
    calc lowerBound bounds (bucket bounds y) + _ * _ / _
        ≤ upperBound bounds max (bucket bounds y) :=
          interpolate_le (lowerBound_le_upperBound hbounds (hmax y hy)) hamong
      _ = lowerBound bounds (bucket bounds y + 1) :=
          (lowerBound_succ (hlt.trans_le (bucket_le_length bounds y'))).symm
      _ ≤ lowerBound bounds (bucket bounds y') := by
          rcases (Nat.succ_le_of_lt hlt).eq_or_lt with heq | hlt'
          · exact (congrArg (lowerBound bounds) heq).le
          · exact (lowerBound_lt hbounds hlt' (bucket_le_length bounds y')).le
      _ ≤ _ := Nat.le_add_right _ _

/-! ### Percentiles -/

theorem target_mono {p q : ℚ} (hpq : p ≤ q) (n : ℕ) : target p n ≤ target q n := by
  rw [target, target]
  gcongr

theorem target_le {pct : ℚ} {n : ℕ} (hpct : pct ≤ 100) : target pct n ≤ n := by
  have hn : (0 : ℚ) ≤ n := Nat.cast_nonneg n
  have hshare : pct / 100 * n ≤ n := by nlinarith
  rw [target, ← Nat.lt_succ_iff, Nat.floor_lt' (Nat.succ_ne_zero n)]
  push_cast
  linarith

/-- **Percentiles are monotone.** -/
theorem Records.percentile_mono (hbounds : (0 :: bounds).Pairwise (· < ·))
    (h : Records bounds xs s) {p q : ℚ} (hpq : p ≤ q) (hq : q ≤ 100) :
    s.percentile bounds xs.length p ≤ s.percentile bounds xs.length q := by
  by_cases hne : xs.length = 0
  · rw [percentile, if_pos hne]
    exact Nat.zero_le _
  · rw [h.percentile_eq_valueAt hne, h.percentile_eq_valueAt hne]
    exact valueAt_mono hbounds h.le_max (target_mono hpq _) (target_le hq)

/-- The buckets up to one hold the samples below the next. -/
theorem sum_within (bounds xs : List ℕ) (n : ℕ) :
    ((List.range n).map (within bounds xs)).sum = below bounds xs n := by
  induction n with
  | zero => rw [below_zero]; rfl
  | succ n ih => rw [List.sum_range_succ, ih, below_succ]

/-- The histogram counts the samples. -/
theorem Records.sum_hist (h : Records bounds xs s) : s.hist.sum = xs.length := by
  rw [h.hist, sum_within, below_length]

end LatencyStats

namespace TradingEngine

open LatencyStats

variable {σ : Type}

/-- `latency_percentile_ns` with its subtractions checked. -/
def latencyPercentileChecked (pct : ℚ) (e : TradingEngine σ) : Option ℕ :=
  e.env.latency.percentileChecked kHistBounds e.env.ticksProcessed pct

/-- **The reported percentiles.** In every state of every run the buckets sum to the number of ticks
processed, the percentiles from 0 to 100 are monotone, and no subtraction wraps around. -/
theorem percentiles_of_run (S : Strategy σ) (c : OrderBookConfig) (riskConfig : RiskConfig)
    (st : σ) (clock : ℕ → ℤ) (ops : List (EngineOp σ)) (fuel : ℕ) (e : TradingEngine σ)
    (h : run S ops fuel (new c riskConfig st clock) = .ok e) :
    e.env.latency.hist.sum = e.env.ticksProcessed ∧
    (∀ p q : ℚ, 0 ≤ p → p ≤ q → q ≤ 100 →
      e.latencyPercentileNs p ≤ e.latencyPercentileNs q) ∧
    ∀ pct : ℚ, e.latencyPercentileChecked pct = some (e.latencyPercentileNs pct) := by
  have hs : Sampled (samples S fuel ops (new c riskConfig st clock) []) e :=
    (sampled_new c riskConfig st clock).run h
  refine ⟨by rw [hs.records.sum_hist, hs.count], fun p q _ hpq hq => ?_, fun pct => ?_⟩
  · rw [latencyPercentileNs, latencyPercentileNs, hs.count]
    exact hs.records.percentile_mono (by decide) hpq hq
  · exact hs.records.percentileChecked_eq (by decide) _ pct

/-- The median and the 99th percentile of one sample of 40 ns. -/
theorem percentiles_of_run_median : ∃ e,
    run silent twoRounds 4 (steadyEngine 40) = .ok e ∧ e.env.latency.hist.sum = 1 ∧
    e.latencyPercentileNs 50 ≤ e.latencyPercentileNs 99 ∧
    e.latencyPercentileChecked 99 = some (e.latencyPercentileNs 99) := by
  obtain ⟨e, he, hticks⟩ : ∃ e,
      run silent twoRounds 4 (steadyEngine 40) = .ok e ∧ e.env.ticksProcessed = 1 := by
    decide +kernel
  obtain ⟨hsum, hmono, hchecked⟩ := percentiles_of_run silent _ _ _ _ _ 4 e he
  exact ⟨e, he, hsum.trans hticks, hmono 50 99 (by decide) (by decide) (by decide), hchecked 99⟩

end TradingEngine

end MiniTrader
