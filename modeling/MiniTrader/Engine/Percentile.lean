import MiniTrader.Engine.TradingEngine
import MiniTrader.Lib.OrderStatistics
import Mathlib.Algebra.Order.Floor.Semifield
import Mathlib.Data.List.GetD
import Mathlib.Data.Rat.Floor
import Mathlib.Tactic.Linarith

/-!
# Percentiles of a histogram

`latency_percentile_ns` and `queue_wait_percentile_ns` look for the first bucket that brings the
cumulative count up to a target rank, and interpolate in it by the rank among the samples there. The
arithmetic is exact here.

The target is the share of the samples rounded to the nearest number, the rank of the percentile is
the share rounded up. So the target can be one too small. The value is then in the bucket of the
sample before, and at its upper end if the bucket changes there; which is the lower end of the next
bucket, but not of a later one. A target of zero gives zero.

The width of a bucket is that between its bounds, and the samples in it can all be far below the
upper one. Only the last bucket ends at the maximum. So the value can be above every sample.

## Main definitions

* `percentile` — the computation
* `Records` — statistics of a list of samples
* `Matches` — what a percentile is to be; `Fair` — the condition

## Main results

* `percentileFrom_eq` — what the loop computes
* `matches_percentile_iff` — when that is right
-/

namespace MiniTrader

open Fuelled OrderStatistics

namespace LatencyStats

/-! ### The computation -/

/-- The rank that is looked for: the conversion to `uint64_t` cuts off the fraction. -/
def target (pct : ℚ) (n : ℕ) : ℕ := ⌊pct / 100 * n + 1 / 2⌋₊

/-- The loop over the buckets, each given by its count and its upper bound. No subtraction goes
below zero in a state of a run, and the interpolated part is cut off. -/
def percentileFrom (max target : ℕ) : List (ℕ × ℕ) → ℕ → ℕ → ℕ
  | [], _, _ => max
  | (count, hi) :: buckets, cumulative, lo =>
    if target ≤ cumulative + count then
      if count = 0 then lo
      else
        let frac : ℚ := (target - (cumulative + count - count) : ℕ) / (count : ℕ)
        lo + ⌊frac * (hi - lo : ℕ)⌋₊
    else percentileFrom max target buckets (cumulative + count) hi

/-- A percentile of the histogram, for `n` processed ticks. The last bucket ends at the maximum. -/
def percentile (bounds : List ℕ) (n : ℕ) (pct : ℚ) (s : LatencyStats) : ℕ :=
  if n = 0 then 0
  else percentileFrom s.max (target pct n) (s.hist.zip (bounds ++ [s.max])) 0 0

/-! ### Buckets -/

/-- The lower bound of a bucket. -/
def lowerBound (bounds : List ℕ) (b : ℕ) : ℕ := (0 :: bounds).getD b 0

/-- The upper bound of a bucket. -/
def upperBound (bounds : List ℕ) (max b : ℕ) : ℕ := (bounds ++ [max]).getD b 0

/-- The number of samples in the buckets before this one. -/
def below (bounds : List ℕ) (xs : List ℕ) (b : ℕ) : ℕ := xs.countP fun x => bucket bounds x < b

/-- The number of samples in the bucket. -/
def within (bounds : List ℕ) (xs : List ℕ) (b : ℕ) : ℕ := xs.countP fun x => bucket bounds x = b

variable {bounds xs : List ℕ} {max b x y : ℕ}

theorem bucket_le_length (bounds : List ℕ) (x : ℕ) : bucket bounds x ≤ bounds.length :=
  List.findIdx_le_length

theorem bucket_mono (h : x ≤ y) : bucket bounds x ≤ bucket bounds y :=
  List.findIdx_le_findIdx fun bound _ hy => by
    rw [decide_eq_true_iff] at hy ⊢
    exact lt_of_le_of_lt h hy

theorem inherited_bucket_lt (bounds : List ℕ) (b : ℕ) :
    Inherited fun x => decide (bucket bounds x < b) := fun x y h hy => by
  rw [decide_eq_true_iff] at hy ⊢
  exact lt_of_le_of_lt (bucket_mono h) hy

theorem lowerBound_zero (bounds : List ℕ) : lowerBound bounds 0 = 0 := rfl

/-- One bucket ends where the next begins. -/
theorem lowerBound_succ (hb : b < bounds.length) :
    lowerBound bounds (b + 1) = upperBound bounds max b := by
  rw [lowerBound, upperBound, List.getD_cons_succ, List.getD_append _ _ _ _ hb]

theorem lowerBound_bucket_le (bounds : List ℕ) (x : ℕ) :
    lowerBound bounds (bucket bounds x) ≤ x := by
  cases hb : bucket bounds x with
  | zero => exact Nat.zero_le x
  | succ b =>
    have hle := bucket_le_length bounds x
    have hlt : b < bounds.length := by omega
    have hnot := List.not_of_lt_findIdx (show b < bounds.findIdx fun bound => x < bound from
      lt_of_lt_of_eq (Nat.lt_succ_self b) hb.symm)
    rw [lowerBound, List.getD_cons_succ, List.getD_eq_getElem _ _ hlt]
    simpa using hnot

theorem upperBound_length (bounds : List ℕ) (max : ℕ) :
    upperBound bounds max bounds.length = max := by
  rw [upperBound, List.getD_append_right _ _ _ _ le_rfl, Nat.sub_self]
  rfl

theorem below_zero (bounds xs : List ℕ) : below bounds xs 0 = 0 := by
  simp [below]

theorem below_succ (bounds xs : List ℕ) (b : ℕ) :
    below bounds xs (b + 1) = below bounds xs b + within bounds xs b := by
  induction xs with
  | nil => rfl
  | cons x xs ih =>
    simp only [below, within, List.countP_cons, decide_eq_true_eq] at ih ⊢
    rw [ih]
    split_ifs <;> omega

theorem below_length (bounds xs : List ℕ) : below bounds xs (bounds.length + 1) = xs.length := by
  rw [below, List.countP_eq_length]
  intro x _
  rw [decide_eq_true_iff]
  exact Nat.lt_succ_of_le (bucket_le_length bounds x)

/-! ### What is recorded -/

/-- The statistics are those of the samples. -/
structure Records (bounds xs : List ℕ) (s : LatencyStats) : Prop where
  hist : s.hist = (List.range (bounds.length + 1)).map (within bounds xs)
  le_max : ∀ x ∈ xs, x ≤ s.max

theorem records_empty (bounds : List ℕ) : Records bounds [] (empty bounds) where
  hist := by
    rw [empty, eq_comm, List.eq_replicate_iff]
    refine ⟨by rw [List.length_map, List.length_range], fun n hn => ?_⟩
    obtain ⟨b, -, rfl⟩ := List.mem_map.mp hn
    rfl
  le_max _ h := absurd h List.not_mem_nil

/-- **One more sample.** -/
theorem Records.record {s : LatencyStats} (h : Records bounds xs s) (x : ℕ) :
    Records bounds (xs ++ [x]) (s.record bounds x) where
  hist := by
    rw [LatencyStats.record, h.hist]
    refine List.ext_getElem (by simp) fun i hi hi' => ?_
    rw [List.getElem_modify]
    simp only [List.getElem_map, List.getElem_range, within, List.countP_append,
      List.countP_singleton, decide_eq_true_eq]
    split_ifs <;> rfl
  le_max y hy := by
    rw [LatencyStats.record]
    dsimp only
    rcases List.mem_append.mp hy with hy | hy
    · have := h.le_max y hy
      split <;> omega
    · rw [List.mem_singleton.mp hy]
      split <;> omega

/-- The buckets the loop goes over. -/
theorem Records.zip_eq {s : LatencyStats} (h : Records bounds xs s) :
    s.hist.zip (bounds ++ [s.max]) = (List.range' 0 (bounds.length + 1)).map fun b =>
      (within bounds xs b, upperBound bounds s.max b) := by
  rw [h.hist, ← List.range_eq_range']
  refine List.ext_getElem (by simp) fun i hi hi' => ?_
  have hlt : i < (bounds ++ [s.max]).length := by simpa using hi'
  rw [List.getElem_zip, List.getElem_map, List.getElem_map, List.getElem_range, upperBound,
    List.getD_eq_getElem _ _ hlt]

/-! ### The loop -/

/-- The interpolation, without the fraction. -/
theorem floor_frac_mul (a c d : ℕ) : ⌊(a : ℚ) / c * d⌋₊ = a * d / c := by
  rw [div_mul_eq_mul_div, ← Nat.cast_mul, Nat.floor_div_eq_div]

/-- **The loop finds the bucket** of the sample with the rank that is looked for, and interpolates
in it by the rank among the samples there. -/
theorem percentileFrom_eq {t : ℕ} (ht : t ≤ xs.length)
    (hy : ∀ b, bucket bounds y < b ↔ t ≤ below bounds xs b) (d : ℕ) {b : ℕ}
    (hd : b + d = bounds.length + 1) (hlt : below bounds xs b < t) :
    percentileFrom max t ((List.range' b d).map fun b =>
        (within bounds xs b, upperBound bounds max b)) (below bounds xs b) (lowerBound bounds b) =
      lowerBound bounds (bucket bounds y) +
        (t - below bounds xs (bucket bounds y)) *
          (upperBound bounds max (bucket bounds y) - lowerBound bounds (bucket bounds y)) /
            within bounds xs (bucket bounds y) := by
  induction d generalizing b with
  | zero =>
    obtain rfl : b = bounds.length + 1 := hd
    rw [below_length] at hlt
    omega
  | succ d ih =>
    have hsucc := below_succ bounds xs b
    rw [List.range'_succ, List.map_cons, percentileFrom, ← hsucc]
    by_cases hle : t ≤ below bounds xs (b + 1)
    · have hb : bucket bounds y = b := by
        have := (hy (b + 1)).mpr hle
        have : ¬ bucket bounds y < b := fun h => absurd ((hy b).mp h) (by omega)
        omega
      rw [if_pos hle, if_neg (by omega), hb, hsucc, Nat.add_sub_cancel]
      dsimp only
      rw [floor_frac_mul]
    · rw [if_neg hle]
      have hb : b < bounds.length := by
        by_contra hb
        obtain rfl : b = bounds.length := by omega
        rw [below_length] at hle
        exact hle ht
      rw [← lowerBound_succ hb]
      exact ih (by omega) (by omega)

/-- Rank zero is found at once. -/
theorem percentileFrom_zero (max : ℕ) (buckets : List (ℕ × ℕ)) (hne : buckets ≠ []) :
    percentileFrom max 0 buckets 0 0 = 0 := by
  cases buckets with
  | nil => exact absurd rfl hne
  | cons bucket buckets =>
    obtain ⟨count, hi⟩ := bucket
    rw [percentileFrom, if_pos (Nat.zero_le _)]
    split
    · rfl
    · rw [Nat.zero_sub]
      dsimp only
      rw [floor_frac_mul, Nat.zero_mul, Nat.zero_div]

theorem Records.percentile_eq_zero {s : LatencyStats} (h : Records bounds xs s)
    (hne : 0 < xs.length) {pct : ℚ} (hzero : target pct xs.length = 0) :
    s.percentile bounds xs.length pct = 0 := by
  rw [percentile, if_neg (by omega), h.zip_eq, hzero]
  exact percentileFrom_zero _ _ (by simp [List.range'_succ])

/-- **What is computed** from the statistics of the samples. -/
theorem Records.percentile_eq {s : LatencyStats} (h : Records bounds xs s) (hne : 0 < xs.length)
    {pct : ℚ} (hzero : target pct xs.length ≠ 0) (hle : target pct xs.length ≤ xs.length)
    (hy : ∀ b, bucket bounds y < b ↔ target pct xs.length ≤ below bounds xs b) :
    s.percentile bounds xs.length pct = lowerBound bounds (bucket bounds y) +
      (target pct xs.length - below bounds xs (bucket bounds y)) *
        (upperBound bounds s.max (bucket bounds y) - lowerBound bounds (bucket bounds y)) /
          within bounds xs (bucket bounds y) := by
  have hstart : below bounds xs 0 < target pct xs.length := by
    rw [below_zero]
    exact Nat.pos_of_ne_zero hzero
  have heq := @percentileFrom_eq bounds xs s.max y _ hle hy _ _ (Nat.zero_add _) hstart
  rw [below_zero, lowerBound_zero] at heq
  rw [percentile, if_neg (by omega), h.zip_eq]
  exact heq

/-! ### Ranks -/

/-- The rank of a percentile of `n` samples: the share of the samples, rounded up. -/
def rank (pct : ℚ) (n : ℕ) : ℕ := ⌈pct * n / 100⌉₊

/-- Rounding to the nearest loses at most one. -/
theorem target_le_rank {pct : ℚ} {n : ℕ} (hpct : 0 < pct) (hn : 0 < n) :
    0 < rank pct n ∧ target pct n ≤ rank pct n ∧ rank pct n ≤ target pct n + 1 := by
  have hn' : (0 : ℚ) < n := by exact_mod_cast hn
  have hpos : 0 < pct * n / 100 := by positivity
  have hshare : pct / 100 * n + 1 / 2 = pct * n / 100 + 1 / 2 := by ring
  refine ⟨Nat.ceil_pos.mpr hpos, ?_, ?_⟩
  · rw [target, rank, hshare, ← Nat.lt_succ_iff, Nat.floor_lt (by positivity)]
    have := Nat.le_ceil (pct * n / 100)
    push_cast
    linarith
  · rw [target, rank, hshare, Nat.ceil_le]
    have := Nat.lt_floor_add_one (pct * n / 100 + 1 / 2)
    push_cast
    linarith

theorem rank_le {pct : ℚ} {n : ℕ} (hpct : pct ≤ 100) : rank pct n ≤ n := by
  rw [rank, Nat.ceil_le, div_le_iff₀ (by norm_num)]
  have hn : (0 : ℚ) ≤ n := Nat.cast_nonneg n
  nlinarith

/-! ### Bounds in order -/

theorem lowerBound_lt (hbounds : (0 :: bounds).Pairwise (· < ·)) {b' : ℕ} (hlt : b < b')
    (hb' : b' ≤ bounds.length) : lowerBound bounds b < lowerBound bounds b' := by
  have hlen : b' < (0 :: bounds).length := Nat.lt_succ_of_le hb'
  rw [lowerBound, lowerBound, List.getD_eq_getElem _ _ hlen,
    List.getD_eq_getElem _ _ (hlt.trans hlen)]
  exact List.pairwise_iff_getElem.mp hbounds b b' _ _ hlt

/-- The bounds of a bucket with a sample in it are in order. -/
theorem lowerBound_le_upperBound (hbounds : (0 :: bounds).Pairwise (· < ·)) (hx : x ≤ max) :
    lowerBound bounds (bucket bounds x) ≤ upperBound bounds max (bucket bounds x) := by
  rcases (bucket_le_length bounds x).lt_or_eq with hlt | heq
  · rw [← lowerBound_succ hlt]
    exact (lowerBound_lt hbounds (Nat.lt_succ_self _) hlt).le
  · have hle := lowerBound_bucket_le bounds x
    rw [heq] at hle ⊢
    rw [upperBound_length]
    exact hle.trans hx

/-! ### When the percentile is right -/

/-- `r` is between the bounds of the bucket of the sample with the rank of the percentile, and not
above the maximum. -/
def Matches (bounds xs : List ℕ) (max : ℕ) (pct : ℚ) (r : ℕ) : Prop :=
  ∃ x, kthSmallest xs (rank pct xs.length) = some x ∧
    lowerBound bounds (bucket bounds x) ≤ r ∧ r ≤ upperBound bounds max (bucket bounds x) ∧ r ≤ max

/-- The sample with the rank of the percentile is in the bucket of the one that is looked for or in
the next, where "the bucket before the first" is that of rank zero; and the one that is looked for
is not so far up among the samples of its bucket that its share of the width of the bucket reaches
beyond the maximum. -/
def Fair (bounds xs : List ℕ) (max : ℕ) (pct : ℚ) : Prop :=
  ∃ x, kthSmallest xs (rank pct xs.length) = some x ∧
    if target pct xs.length = 0 then bucket bounds x = 0
    else ∃ y, kthSmallest xs (target pct xs.length) = some y ∧
      bucket bounds x ≤ bucket bounds y + 1 ∧
      (target pct xs.length - below bounds xs (bucket bounds y)) *
          (upperBound bounds max (bucket bounds y) - lowerBound bounds (bucket bounds y)) <
        (max - lowerBound bounds (bucket bounds y) + 1) * within bounds xs (bucket bounds y)

variable {k t r : ℕ}

/-- The bucket of an order statistic. -/
theorem exists_kthSmallest_bucket (bounds : List ℕ) (hpos : 0 < k) (hk : k ≤ xs.length) :
    ∃ x, kthSmallest xs k = some x ∧ x ∈ xs ∧
      ∀ b, bucket bounds x < b ↔ k ≤ below bounds xs b := by
  obtain ⟨x, hx, hmem, hiff⟩ := exists_kthSmallest hpos hk
  refine ⟨x, hx, hmem, fun b => ?_⟩
  have := hiff _ (inherited_bucket_lt bounds b)
  rwa [decide_eq_true_iff] at this

/-- An interpolated value is within its bucket. -/
theorem interpolate_le {lo hi a w : ℕ} (hlo : lo ≤ hi) (ha : a ≤ w) :
    lo + a * (hi - lo) / w ≤ hi := by
  have : a * (hi - lo) / w ≤ hi - lo :=
    Nat.div_le_of_le_mul (Nat.mul_le_mul_right _ ha)
  omega

/-- **The bucket.** The value interpolated in the bucket of the rank `t` is within the bounds of the
bucket of the rank `k`, the same rank or the next, if and only if that is the same bucket or the
next. -/
theorem within_bounds_iff (hbounds : (0 :: bounds).Pairwise (· < ·)) (hx : x ≤ max) (hy : y ≤ max)
    (hkx : ∀ b, bucket bounds x < b ↔ k ≤ below bounds xs b)
    (hty : ∀ b, bucket bounds y < b ↔ t ≤ below bounds xs b) (htk : t ≤ k) (hkt : k ≤ t + 1)
    (hr : r = lowerBound bounds (bucket bounds y) +
      (t - below bounds xs (bucket bounds y)) *
        (upperBound bounds max (bucket bounds y) - lowerBound bounds (bucket bounds y)) /
          within bounds xs (bucket bounds y)) :
    (lowerBound bounds (bucket bounds x) ≤ r ∧ r ≤ upperBound bounds max (bucket bounds x)) ↔
      bucket bounds x ≤ bucket bounds y + 1 := by
  have hstart : below bounds xs (bucket bounds y) < t := by
    have := (hty (bucket bounds y)).not.mp (lt_irrefl _)
    omega
  have hend : t ≤ below bounds xs (bucket bounds y + 1) := (hty _).mp (Nat.lt_succ_self _)
  have hsucc := below_succ bounds xs (bucket bounds y)
  have hle : bucket bounds y ≤ bucket bounds x := by
    by_contra hlt
    have := (hkx _).mp (not_le.mp hlt)
    omega
  rcases hle.lt_or_eq with hlt | heq
  · -- the rank `t` is the last one in its bucket
    have hlast : t - below bounds xs (bucket bounds y) = within bounds xs (bucket bounds y) := by
      have := (hkx (bucket bounds y + 1)).not.mp (by omega)
      omega
    have hlen : bucket bounds y < bounds.length := hlt.trans_le (bucket_le_length bounds x)
    have hmid := lowerBound_le_upperBound hbounds hy
    rw [hlast, Nat.mul_div_cancel_left _ (by omega), Nat.add_sub_cancel' hmid,
      ← lowerBound_succ hlen] at hr
    rw [hr]
    constructor
    · rintro ⟨hlow, -⟩
      by_contra hfar
      exact absurd (lowerBound_lt hbounds (not_le.mp hfar) (bucket_le_length bounds x))
        (not_lt.mpr hlow)
    · intro hnext
      have heq : bucket bounds x = bucket bounds y + 1 := by omega
      rw [← heq]
      exact ⟨le_rfl, lowerBound_le_upperBound hbounds hx⟩
  · rw [← heq, hr]
    exact iff_of_true ⟨Nat.le_add_right _ _,
      interpolate_le (lowerBound_le_upperBound hbounds hy) (by omega)⟩ (Nat.le_succ _)

/-- **The maximum.** -/
theorem interpolate_le_iff {lo a d w : ℕ} (hw : 0 < w) (hlo : lo ≤ max) :
    lo + a * d / w ≤ max ↔ a * d < (max - lo + 1) * w := by
  rw [← Nat.div_lt_iff_lt_mul hw]
  omega

/-- **Percentiles.** What is computed from the statistics of the samples is what is claimed of it if
and only if the samples are fair to the percentile. -/
theorem matches_percentile_iff {s : LatencyStats} (hbounds : (0 :: bounds).Pairwise (· < ·))
    (h : Records bounds xs s) (hne : 0 < xs.length) {pct : ℚ} (hpos : 0 < pct) (hpct : pct ≤ 100) :
    Matches bounds xs s.max pct (s.percentile bounds xs.length pct) ↔
      Fair bounds xs s.max pct := by
  obtain ⟨hk, htk, hkt⟩ := target_le_rank hpos hne
  have hkn : rank pct xs.length ≤ xs.length := rank_le hpct
  obtain ⟨x, hx, hxmem, hkx⟩ := exists_kthSmallest_bucket bounds hk hkn
  have hx_unique : ∀ {x'}, kthSmallest xs (rank pct xs.length) = some x' → x' = x := by
    intro x' hx'
    rw [hx] at hx'
    exact (Option.some.inj hx').symm
  unfold Matches Fair
  by_cases hzero : target pct xs.length = 0
  · rw [h.percentile_eq_zero hne hzero]
    simp only [if_pos hzero]
    constructor
    · rintro ⟨x', hx', hlow, -⟩
      refine ⟨x', hx', ?_⟩
      by_contra hb
      have := lowerBound_lt hbounds (Nat.pos_of_ne_zero hb) (bucket_le_length bounds x')
      omega
    · rintro ⟨x', hx', hb⟩
      exact ⟨x', hx', by rw [hb, lowerBound_zero], Nat.zero_le _, Nat.zero_le _⟩
  · obtain ⟨y, hy, hymem, hty⟩ :=
      exists_kthSmallest_bucket bounds (Nat.pos_of_ne_zero hzero) (htk.trans hkn)
    have hvalue := h.percentile_eq hne hzero (htk.trans hkn) hty
    have hmax := h.le_max y hymem
    have hw : 0 < within bounds xs (bucket bounds y) := by
      rw [within, List.countP_pos_iff]
      exact ⟨y, hymem, decide_eq_true rfl⟩
    have hbounds_iff := within_bounds_iff hbounds (h.le_max x hxmem) hmax hkx hty htk hkt hvalue
    have hmax_iff := @interpolate_le_iff s.max _
      (target pct xs.length - below bounds xs (bucket bounds y))
      (upperBound bounds s.max (bucket bounds y) - lowerBound bounds (bucket bounds y)) _ hw
      ((lowerBound_bucket_le bounds y).trans hmax)
    rw [← hvalue] at hmax_iff
    simp only [if_neg hzero]
    constructor
    · rintro ⟨x', hx', hlow, hhigh, hle⟩
      obtain rfl := hx_unique hx'
      exact ⟨x', hx', y, hy, hbounds_iff.mp ⟨hlow, hhigh⟩, hmax_iff.mp hle⟩
    · rintro ⟨x', hx', y', hy', hnext, hshare⟩
      obtain rfl := hx_unique hx'
      rw [hy] at hy'
      cases hy'
      obtain ⟨hlow, hhigh⟩ := hbounds_iff.mpr hnext
      exact ⟨x', hx', hlow, hhigh, hmax_iff.mpr hshare⟩

end LatencyStats

end MiniTrader
