import MiniTrader.Lib.Runs
import MiniTrader.Risk.RiskGate

/-!
# The order rate

`check_order_rate` counts the checks of one window. A window is closed by the first check that comes
a second or more after it was opened, and that check opens the next one with a count of zero. So the
orders that have just passed are forgotten, and the second that begins with them can hold as many
more.

The limit does hold for every second, wherever it begins, as long as a window is only closed when
nothing has passed for a second, and the count of a window stays below `2 ^ 31`. Once a check passes
without that, repeating it breaks the limit.

## Main definitions

* `Spaced` — a list of times with a bounded number in every interval of a given length
* `CheckLog` — the gate, and what it has answered when
* `CheckLog.Counted` — the condition

## Main results

* `spaced_of_counted` — the limit for sliding seconds
-/

namespace MiniTrader

open Fuelled

/-! ### Spaced times -/

/-- At most `m` of the times are in any half-open interval of length `d`. -/
def Spaced (m d : ℤ) (ts : List ℤ) : Prop :=
  ∀ a, (ts.countP fun t => a ≤ t ∧ t < a + d : ℤ) ≤ m

section

variable {m d : ℤ} {ts ts' : List ℤ}

theorem spaced_nil (hm : 0 ≤ m) : Spaced m d [] := fun _ => hm

/-- **Two groups** that are an interval apart, the second of them small. -/
theorem Spaced.append (h : Spaced m d ts) (hlen : (ts'.length : ℤ) ≤ m)
    (hgap : ∀ t ∈ ts, ∀ t' ∈ ts', t + d ≤ t') : Spaced m d (ts ++ ts') := by
  intro a
  rw [List.countP_append]
  by_cases hin : ∃ t' ∈ ts', a ≤ t' ∧ t' < a + d
  · -- an interval that reaches the second group has left the first one
    obtain ⟨t', ht', -, hlt⟩ := hin
    have hzero : (ts.countP fun t => a ≤ t ∧ t < a + d) = 0 := by
      rw [List.countP_eq_zero]
      intro t ht hmem
      have := hgap t ht t' ht'
      simp only [decide_eq_true_eq] at hmem
      omega
    have hle : (ts'.countP fun t => a ≤ t ∧ t < a + d) ≤ ts'.length := List.countP_le_length
    rw [hzero]
    omega
  · have hzero : (ts'.countP fun t => a ≤ t ∧ t < a + d) = 0 := by
      rw [List.countP_eq_zero]
      intro t' ht' hmem
      exact hin ⟨t', ht', by simpa using hmem⟩
    have := h a
    rw [hzero]
    omega

end

namespace RiskGate

/-! ### What a check does to the window -/

/-- A whole second has passed since the window was opened. -/
def WindowOver (g : RiskGate) (now : ℤ) : Prop := 1 ≤ (now - g.lastRateReset).tdiv 1000000000

instance (g : RiskGate) (now : ℤ) : Decidable (g.WindowOver now) :=
  inferInstanceAs (Decidable (_ ≤ _))

variable {g : RiskGate} {now : ℤ} {o : Order}

theorem checkOrderRate_of_windowOver (h : g.WindowOver now) : g.checkOrderRate now =
    (decide (wrap32 (0 + 1) ≤ g.config.maxOrdersPerSecond),
      { g with ordersThisSecond := wrap32 (0 + 1), lastRateReset := now }) := by
  unfold WindowOver at h
  simp only [checkOrderRate, if_pos h]

theorem checkOrderRate_of_not_windowOver (h : ¬ g.WindowOver now) : g.checkOrderRate now =
    (decide (wrap32 (g.ordersThisSecond + 1) ≤ g.config.maxOrdersPerSecond),
      { g with ordersThisSecond := wrap32 (g.ordersThisSecond + 1) }) := by
  unfold WindowOver at h
  simp only [checkOrderRate, if_neg h]

/-- Whatever the answer, the window is what `check_order_rate` has left. -/
theorem window_check (g : RiskGate) (now : ℤ) (o : Order) :
    (g.check now o).2.ordersThisSecond = (g.checkOrderRate now).2.ordersThisSecond ∧
      (g.check now o).2.lastRateReset = (g.checkOrderRate now).2.lastRateReset := by
  rw [check]
  split_ifs <;> exact ⟨rfl, rfl⟩

/-- What is asked of an order besides the rate. No check changes what the answer depends on. -/
def Acceptable (g : RiskGate) (o : Order) : Prop :=
  g.checkPositionLimit o = true ∧ (g.config.checkSelfTrade = true → g.checkSelfTrade o = true)

theorem checkOrderRate_of_pass (h : (g.check now o).1 = .pass) :
    (g.checkOrderRate now).1 = true := by
  by_contra hrate
  rw [check, Bool.eq_false_of_not_eq_true hrate] at h
  cases h

theorem acceptable_checkOrderRate : (g.checkOrderRate now).2.Acceptable o ↔ g.Acceptable o := by
  obtain ⟨n, t, h⟩ := g.exists_checkOrderRate_snd now
  rw [h]
  exact Iff.rfl

theorem acceptable_check {now' : ℤ} {o' : Order} :
    (g.check now' o').2.Acceptable o ↔ g.Acceptable o := by
  unfold Acceptable checkPositionLimit checkSelfTrade
  rw [position_check, config_check, activeOrders_check]

theorem acceptable_of_pass (h : (g.check now o).1 = .pass) : g.Acceptable o := of_check_eq_pass h

/-- An acceptable order passes if the rate allows it. -/
theorem check_eq_pass (htype : o.type ≠ .cancel) (hrate : (g.checkOrderRate now).1 = true)
    (h : g.Acceptable o) : (g.check now o).1 = .pass := by
  obtain ⟨hposition, hself⟩ := acceptable_checkOrderRate.mpr h
  rw [check]
  rw [hrate, hposition]
  simp only [Bool.not_true, Bool.false_eq_true, if_false, htype, false_and]
  split_ifs with hfail
  · rw [hself hfail.1] at hfail
    cases hfail.2
  · rfl

/-! ### Sequences of checks -/

/-- The gate, with the time and the answer of every check so far. -/
structure CheckLog where
  gate : RiskGate
  answers : List (ℤ × RiskResult)

namespace CheckLog

/-- Nothing has been checked. -/
def new (g : RiskGate) : CheckLog := ⟨g, []⟩

/-- One check. -/
def step (s : CheckLog) (call : ℤ × Order) : CheckLog :=
  ⟨(s.gate.check call.1 call.2).2, s.answers ++ [(call.1, (s.gate.check call.1 call.2).1)]⟩

/-- The times at which an order has passed. -/
def passes (s : CheckLog) : List ℤ :=
  (s.answers.filter fun answer => answer.2 = .pass).map Prod.fst

/-- The clock does not go back. -/
def Timely (s : CheckLog) (call : ℤ × Order) : Prop := ∀ answer ∈ s.answers, answer.1 ≤ call.1

/-- If the check opens a new window, no order has passed within the last second; if it does not, its
count is not the largest `int32_t` and has not been beyond. -/
def Counted (s : CheckLog) (call : ℤ × Order) : Prop :=
  if s.gate.WindowOver call.1 then ∀ t ∈ s.passes, t + 1000000000 ≤ call.1
  else 0 ≤ s.gate.ordersThisSecond ∧ s.gate.ordersThisSecond < 2147483647

instance (s : CheckLog) (call : ℤ × Order) : Decidable (s.Timely call) :=
  inferInstanceAs (Decidable (∀ _ ∈ _, _))

instance (s : CheckLog) (call : ℤ × Order) : Decidable (s.Counted call) :=
  inferInstanceAs (Decidable (if s.gate.WindowOver call.1 then ∀ t ∈ s.passes, _ ≤ _ else _ ∧ _))

variable {s : CheckLog} {call : ℤ × Order}

theorem passes_step : (s.step call).passes =
    s.passes ++ if (s.gate.check call.1 call.2).1 = .pass then [call.1] else [] := by
  rw [passes, step, List.filter_append, List.map_append]
  congr 1
  split <;> simp [*]

theorem mem_answers_of_mem_passes {t : ℤ} (h : t ∈ s.passes) :
    (t, RiskResult.pass) ∈ s.answers := by
  obtain ⟨⟨t', r⟩, hmem, rfl⟩ := List.mem_map.mp h
  obtain ⟨hmem, hpass⟩ := List.mem_filter.mp hmem
  have hr : r = .pass := of_decide_eq_true hpass
  rwa [hr] at hmem

theorem Timely.le (h : s.Timely call) {t : ℤ} (ht : t ∈ s.passes) : t ≤ call.1 :=
  h _ (mem_answers_of_mem_passes ht)

/-- **The invariant.** What has passed is what passed a second ago or earlier, which is spaced, and
what has passed in this window, which has been counted. -/
structure Windowed (m : ℤ) (s : CheckLog) (old new : List ℤ) : Prop where
  limit : s.gate.config.maxOrdersPerSecond = m
  passes_eq : s.passes = old ++ new
  spaced : Spaced m 1000000000 old
  length_le : (new.length : ℤ) ≤ m
  counted : new = [] ∨ (new.length : ℤ) ≤ s.gate.ordersThisSecond
  gap : ∀ t ∈ old, ∀ t' ∈ new, t + 1000000000 ≤ t'
  past : ∀ t ∈ old, ∃ answer ∈ s.answers, t + 1000000000 ≤ answer.1

variable {m : ℤ} {old new : List ℤ}

theorem Windowed.spaced_passes (h : Windowed m s old new) : Spaced m 1000000000 s.passes := by
  rw [h.passes_eq]
  exact h.spaced.append h.length_le h.gap

theorem windowed_new {g : RiskGate} (hm : 0 ≤ g.config.maxOrdersPerSecond) :
    Windowed g.config.maxOrdersPerSecond (CheckLog.new g) [] [] where
  limit := rfl
  passes_eq := rfl
  spaced := spaced_nil hm
  length_le := hm
  counted := Or.inl rfl
  gap _ h := absurd h List.not_mem_nil
  past _ h := absurd h List.not_mem_nil

/-- The first check of a window. All that has passed before is a second ago. -/
theorem Windowed.open (hm : 0 ≤ m) (h : Windowed m s old new) (hover : s.gate.WindowOver call.1)
    (hcounted : ∀ t ∈ s.passes, t + 1000000000 ≤ call.1) :
    ∃ new', Windowed m (s.step call) s.passes new' := by
  have hwindow := (window_check s.gate call.1 call.2).1
  rw [checkOrderRate_of_windowOver hover, wrap32_of_lt (by decide) (by decide)] at hwindow
  refine ⟨if (s.gate.check call.1 call.2).1 = .pass then [call.1] else [], ?_⟩
  have hlimit : (s.step call).gate.config.maxOrdersPerSecond = m :=
    (congrArg _ (s.gate.config_check call.1 call.2)).trans h.limit
  have hpast : ∀ t ∈ s.passes, ∃ answer ∈ (s.step call).answers, t + 1000000000 ≤ answer.1 :=
    fun t ht => ⟨(call.1, (s.gate.check call.1 call.2).1),
      List.mem_append_right _ List.mem_cons_self, hcounted t ht⟩
  split_ifs with hpass
  · have hrate := checkOrderRate_of_pass hpass
    rw [checkOrderRate_of_windowOver hover, wrap32_of_lt (by decide) (by decide), h.limit,
      decide_eq_true_iff] at hrate
    refine ⟨hlimit, ?_, h.spaced_passes, hrate, Or.inr hwindow.ge, ?_, hpast⟩
    · rw [passes_step, if_pos hpass]
    · intro t ht t' ht'
      rw [List.mem_singleton.mp ht']
      exact hcounted t ht
  · refine ⟨hlimit, ?_, h.spaced_passes, hm, Or.inl rfl, ?_, hpast⟩
    · rw [passes_step, if_neg hpass]
    · exact fun _ _ _ h => absurd h List.not_mem_nil

/-- A later check of the window. -/
theorem Windowed.count (h : Windowed m s old new) (htimely : s.Timely call)
    (hover : ¬ s.gate.WindowOver call.1) (hmin : 0 ≤ s.gate.ordersThisSecond)
    (hmax : s.gate.ordersThisSecond < 2147483647) :
    ∃ new', Windowed m (s.step call) old new' := by
  have hwindow := (window_check s.gate call.1 call.2).1
  rw [checkOrderRate_of_not_windowOver hover, wrap32_of_lt (by omega) (by omega)] at hwindow
  have hcount : (new.length : ℤ) ≤ s.gate.ordersThisSecond := by
    rcases h.counted with rfl | hle
    · exact hmin
    · exact hle
  have hlimit : (s.step call).gate.config.maxOrdersPerSecond = m :=
    (congrArg _ (s.gate.config_check call.1 call.2)).trans h.limit
  have hpast : ∀ t ∈ old, ∃ answer ∈ (s.step call).answers, t + 1000000000 ≤ answer.1 := by
    intro t ht
    obtain ⟨answer, hmem, hle⟩ := h.past t ht
    exact ⟨answer, List.mem_append_left _ hmem, hle⟩
  refine ⟨new ++ if (s.gate.check call.1 call.2).1 = .pass then [call.1] else [], ?_⟩
  split_ifs with hpass
  · have hrate := checkOrderRate_of_pass hpass
    rw [checkOrderRate_of_not_windowOver hover, wrap32_of_lt (by omega) (by omega), h.limit,
      decide_eq_true_iff] at hrate
    have hlen : ((new ++ [call.1]).length : ℤ) ≤ s.gate.ordersThisSecond + 1 := by
      rw [List.length_append, List.length_singleton]
      omega
    refine ⟨hlimit, ?_, h.spaced, hlen.trans hrate, Or.inr (hlen.trans hwindow.ge), ?_, hpast⟩
    · rw [passes_step, if_pos hpass, h.passes_eq, List.append_assoc]
    · intro t ht t' ht'
      rcases List.mem_append.mp ht' with ht' | ht'
      · exact h.gap t ht t' ht'
      · obtain ⟨answer, hmem, hle⟩ := h.past t ht
        rw [List.mem_singleton.mp ht']
        exact hle.trans (htimely answer hmem)
  · rw [List.append_nil]
    refine ⟨hlimit, ?_, h.spaced, h.length_le, Or.inr ?_, h.gap, hpast⟩
    · rw [passes_step, if_neg hpass, List.append_nil, h.passes_eq]
    · show _ ≤ (s.gate.check call.1 call.2).2.ordersThisSecond
      rw [hwindow]
      show _ ≤ s.gate.ordersThisSecond + 1
      omega

/-- **One check** that meets the condition. -/
theorem Windowed.step (hm : 0 ≤ m) (h : ∃ old new, Windowed m s old new)
    (hok : s.Timely call ∧ s.Counted call) : ∃ old new, Windowed m (s.step call) old new := by
  obtain ⟨old, new, h⟩ := h
  obtain ⟨htimely, hcounted⟩ := hok
  unfold Counted at hcounted
  split at hcounted
  · exact ⟨_, h.open hm ‹_› hcounted⟩
  · exact ⟨_, h.count htimely ‹_› hcounted.1 hcounted.2⟩

/-! ### Repeating a check -/

/-- The same order at the same time, once for each place that is left in the window. -/
theorem passes_replicate {now : ℤ} {o : Order} (htype : o.type ≠ .cancel) (k : ℕ)
    (hover : ¬ s.gate.WindowOver now) (ho : s.gate.Acceptable o)
    (hcount : IsInt32 s.gate.ordersThisSecond) (hm : IsInt32 s.gate.config.maxOrdersPerSecond)
    (hk : s.gate.ordersThisSecond + k ≤ s.gate.config.maxOrdersPerSecond) :
    ((List.replicate k (now, o)).foldl step s).passes = s.passes ++ List.replicate k now := by
  induction k generalizing s with
  | zero => exact (List.append_nil _).symm
  | succ k ih =>
    obtain ⟨hlow, -⟩ := hcount
    obtain ⟨-, hhigh⟩ := hm
    have hnext : wrap32 (s.gate.ordersThisSecond + 1) = s.gate.ordersThisSecond + 1 :=
      wrap32_of_lt (by omega) (by omega)
    have hrate := checkOrderRate_of_not_windowOver hover
    rw [hnext] at hrate
    have hpass : (s.gate.check now o).1 = .pass := by
      refine check_eq_pass htype ?_ ho
      rw [hrate, decide_eq_true_iff]
      omega
    obtain ⟨hcount', hreset⟩ := window_check s.gate now o
    rw [hrate] at hcount' hreset
    have hover' : ¬ (s.step (now, o)).gate.WindowOver now := by
      show ¬ 1 ≤ (now - (s.gate.check now o).2.lastRateReset).tdiv 1000000000
      rw [hreset]
      exact hover
    have hconfig : (s.step (now, o)).gate.config = s.gate.config := s.gate.config_check now o
    have hcount'' : (s.step (now, o)).gate.ordersThisSecond = s.gate.ordersThisSecond + 1 := hcount'
    rw [List.replicate_succ, List.foldl_cons, ih hover' (acceptable_check.mpr ho)
      (by rw [hcount'']; constructor <;> omega) (by rw [hconfig]; constructor <;> omega)
      (by rw [hconfig, hcount'']; omega), passes_step, if_pos hpass, List.append_assoc]
    rfl

/-- An order that passes can be passed again until the window is full. -/
theorem passes_replicate_succ {now : ℤ} {o : Order} (htype : o.type ≠ .cancel) (k : ℕ)
    (hpass : (s.gate.check now o).1 = .pass) (hm : IsInt32 s.gate.config.maxOrdersPerSecond)
    (hk : (s.gate.checkOrderRate now).2.ordersThisSecond + k ≤ s.gate.config.maxOrdersPerSecond) :
    ((List.replicate (k + 1) (now, o)).foldl step s).passes =
      s.passes ++ List.replicate (k + 1) now := by
  obtain ⟨hcount, hreset⟩ := window_check s.gate now o
  have hconfig : (s.step (now, o)).gate.config = s.gate.config := s.gate.config_check now o
  have hover : ¬ (s.step (now, o)).gate.WindowOver now := by
    show ¬ 1 ≤ (now - (s.gate.check now o).2.lastRateReset).tdiv 1000000000
    rw [hreset]
    by_cases hover : s.gate.WindowOver now
    · rw [checkOrderRate_of_windowOver hover]
      show ¬ 1 ≤ (now - now).tdiv 1000000000
      rw [Int.sub_self]
      decide
    · rw [checkOrderRate_of_not_windowOver hover]
      exact hover
  have hrange : IsInt32 (s.gate.checkOrderRate now).2.ordersThisSecond := by
    rw [checkOrderRate]
    exact isInt32_wrap32 _
  rw [List.replicate_succ, List.foldl_cons, passes_replicate htype k hover
    (acceptable_check.mpr (acceptable_of_pass hpass)) (by rw [← hcount] at hrange; exact hrange)
    (by rw [hconfig]; exact hm) (by rw [hconfig]; rw [← hcount] at hk; exact hk), passes_step,
    if_pos hpass, List.append_assoc]
  rfl

/-- What repeating an order puts into an interval. -/
theorem lt_countP {ts : List ℤ} {now a m : ℤ} {k : ℕ} (ha : a ≤ now) (hnow : now < a + 1000000000)
    (hmany : m < (ts.countP fun t => a ≤ t ∧ t < a + 1000000000 : ℤ) + k) :
    ¬ Spaced m 1000000000 (ts ++ List.replicate k now) := by
  intro hspaced
  have := hspaced a
  rw [List.countP_append, List.countP_replicate, if_pos (by simpa using ⟨ha, hnow⟩)] at this
  omega

/-- **The condition is needed.** An order that passes without it can be repeated until some second
holds too many. -/
theorem exists_not_spaced {now : ℤ} {o : Order} (hm : IsInt32 s.gate.config.maxOrdersPerSecond)
    (hmin : 0 ≤ s.gate.config.maxOrdersPerSecond) (hcount : IsInt32 s.gate.ordersThisSecond)
    (htimely : s.Timely (now, o)) (htype : o.type ≠ .cancel)
    (hpass : (s.gate.check now o).1 = .pass) (hnot : ¬ s.Counted (now, o)) :
    ∃ k : ℕ, ¬ Spaced s.gate.config.maxOrdersPerSecond 1000000000
      ((List.replicate k (now, o)).foldl step s).passes := by
  obtain ⟨m, hm'⟩ := Int.eq_ofNat_of_zero_le hmin
  unfold Counted at hnot
  have hrate := checkOrderRate_of_pass hpass
  split at hnot
  · -- the window opens, and an order has passed within the last second
    rename_i hover
    obtain ⟨t, ht, hlt⟩ : ∃ t ∈ s.passes, ¬ t + 1000000000 ≤ now := by
      simpa using hnot
    rw [checkOrderRate_of_windowOver hover, wrap32_of_lt (by decide) (by decide),
      decide_eq_true_iff, hm'] at hrate
    obtain ⟨k, rfl⟩ : ∃ k, m = k + 1 := ⟨m - 1, by omega⟩
    refine ⟨k + 1, ?_⟩
    rw [passes_replicate_succ htype k hpass hm (by
      rw [checkOrderRate_of_windowOver hover, wrap32_of_lt (by decide) (by decide)]
      dsimp only
      omega)]
    refine lt_countP (a := t) (htimely.le ht) (by omega) ?_
    have hone : 0 < s.passes.countP fun t' => t ≤ t' ∧ t' < t + 1000000000 := by
      rw [List.countP_pos_iff]
      exact ⟨t, ht, decide_eq_true ⟨le_rfl, by omega⟩⟩
    rw [hm']
    omega
  · -- the count of the window is over
    rename_i hover
    have hwrap : wrap32 (s.gate.ordersThisSecond + 1) ≤ 0 := by
      obtain ⟨_, _⟩ := hcount
      by_cases hneg : s.gate.ordersThisSecond < 0
      · rw [wrap32_of_lt (by omega) (by omega)]
        omega
      · have : s.gate.ordersThisSecond = 2147483647 := by omega
        rw [this]
        unfold wrap32
        decide
    refine ⟨m + 1, ?_⟩
    rw [passes_replicate_succ htype m hpass hm (by
      rw [checkOrderRate_of_not_windowOver hover]
      dsimp only
      omega)]
    refine lt_countP (a := now) le_rfl (by omega) ?_
    rw [hm']
    omega

/-- **The order rate.** In every sequence of checks, at times that do not go back, in which each
check meets the condition, every half-open interval of a second holds at most the limit of orders
that have passed. After such a sequence, an order that passes without meeting it can be repeated
until an interval holds more. -/
theorem spaced_of_counted (g : RiskGate) (hmin : 0 ≤ g.config.maxOrdersPerSecond)
    (hmax : IsInt32 g.config.maxOrdersPerSecond) (hcount : IsInt32 g.ordersThisSecond)
    (calls : List (ℤ × Order))
    (hcalls : Allowed (fun s call => Timely s call ∧ Counted s call) step (CheckLog.new g) calls) :
    Spaced g.config.maxOrdersPerSecond 1000000000 (calls.foldl step (CheckLog.new g)).passes ∧
    ∀ now o, Timely (calls.foldl step (CheckLog.new g)) (now, o) → o.type ≠ .cancel →
      ((calls.foldl step (CheckLog.new g)).gate.check now o).1 = .pass →
      ¬ Counted (calls.foldl step (CheckLog.new g)) (now, o) →
      ∃ k : ℕ, ¬ Spaced g.config.maxOrdersPerSecond 1000000000
        ((calls ++ List.replicate k (now, o)).foldl step (CheckLog.new g)).passes := by
  have hrun : (∃ old new, Windowed g.config.maxOrdersPerSecond
      (calls.foldl step (CheckLog.new g)) old new) ∧
      IsInt32 (calls.foldl step (CheckLog.new g)).gate.ordersThisSecond := by
    refine hcalls.induction
      (I := fun s => (∃ old new, Windowed g.config.maxOrdersPerSecond s old new) ∧
        IsInt32 s.gate.ordersThisSecond) (fun h hok => ⟨Windowed.step hmin h.1 hok, ?_⟩)
      ⟨⟨_, _, windowed_new hmin⟩, hcount⟩
    rw [step, (window_check _ _ _).1, checkOrderRate]
    exact isInt32_wrap32 _
  obtain ⟨⟨old, new, h⟩, hrange⟩ := hrun
  refine ⟨h.spaced_passes, fun now o htimely htype hpass hnot => ?_⟩
  obtain ⟨k, hk⟩ := exists_not_spaced (by rw [h.limit]; exact hmax) (by rw [h.limit]; exact hmin)
    hrange htimely htype hpass hnot
  refine ⟨k, ?_⟩
  rw [List.foldl_append, ← h.limit]
  exact hk

/-- A gate that lets one order a second pass. -/
def slowGate : RiskGate := { config := { maxOrdersPerSecond := 1 } }

/-- Three checks, the second one too soon. -/
theorem spaced_of_counted_threeChecks :
    Spaced slowGate.config.maxOrdersPerSecond 1000000000
      (([(2000000000, ⟨1, 1, 5, 1, .buy, .limit⟩), (2500000000, ⟨2, 1, 5, 1, .buy, .limit⟩),
        (3600000000, ⟨3, 1, 5, 1, .buy, .limit⟩)] : List (ℤ × Order)).foldl step
          (CheckLog.new slowGate)).passes :=
  (spaced_of_counted slowGate (by decide) (by decide) (by decide) _ (by decide +kernel)).1

/-- One order opens a window, 99 come at its end and a hundred right after it. -/
def twoWindows : List (ℤ × Order) :=
  (1000000000, ⟨1, 1, 5, 1, .buy, .limit⟩) ::
    (List.replicate 99 (1900000000, ⟨1, 1, 5, 1, .buy, .limit⟩) ++
      List.replicate 100 (2000000000, ⟨1, 1, 5, 1, .buy, .limit⟩))

/-- **Two windows in one second**, with the default limit of a hundred: 199 orders pass. -/
theorem not_spaced_twoWindows : (twoWindows.map Prod.fst).Pairwise (· ≤ ·) ∧
    ¬ Spaced ({} : RiskConfig).maxOrdersPerSecond 1000000000
      (twoWindows.foldl step (CheckLog.new { config := {} })).passes := by
  refine ⟨by decide +kernel, fun h => ?_⟩
  have hle := h 1900000000
  have hcount : ((twoWindows.foldl step (CheckLog.new { config := {} })).passes.countP fun t =>
      1900000000 ≤ t ∧ t < 1900000000 + 1000000000) = 199 := by decide +kernel
  rw [hcount] at hle
  exact absurd hle (by decide)

end CheckLog

end RiskGate

end MiniTrader
