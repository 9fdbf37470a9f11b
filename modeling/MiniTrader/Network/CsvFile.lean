import MiniTrader.Network.CsvReplay
import Mathlib.Data.List.Forall2

/-!
# CSV files

`Network/CsvReplay` is about one line. Here are whole files, as text: what `load_csv` makes of one,
and what the replay loop of `MarketReceiver::run` delivers of it, when it is stopped after some line
or never.

A file that is written in the documented format is read back, whatever comments, headers and empty
lines stand between the rows (`loadCsv_of_describes`); every list of ticks that fit their columns
can be written (`describes_csvRow`). And on every file, malformed ones included, the two readers
agree: the replay loop delivers the ticks `load_csv` loads, up to the line at which it sees that it
has been stopped, and only a time stamp that is missing in the file makes a difference. It does so
in step with the time stamps: no tick is delivered before it is due, if sleeping takes at least as
long as it should.

## Main definitions

* `Describes` — the text is a list of ticks
* `csvFile` — how ticks are written
* `stampOf`, `loadRows` — what is read, with the time stamps that are in the file
* `SameRecord` — two ticks read from one line
* `Sleeps` — what is assumed of the clock

## Main results

* `loadCsv_csvFile` — the round trip
* `replay_agrees` — the two readers
* `replay_paced` — no tick comes early
-/

namespace MiniTrader

open Extraction

namespace CsvReplay

variable {line : List Char} {lines : List (List Char)} {ticks : List MarketTick}
  {tick : MarketTick}

/-! ### Files in the documented format -/

/-- The columns of a tick. -/
def fields (tick : MarketTick) : List ℤ :=
  [tick.instrumentId, tick.bidPrice, tick.askPrice, tick.bidSize, tick.askSize, tick.lastPrice,
    tick.lastSize]

/-- The line is a record of the tick. Without a time stamp, that of the tick is zero. -/
def IsRow (line : List Char) (tick : MarketTick) : Prop :=
  (∃ c ∈ line.head?, c.isDigit = true) ∧ tick.localTimestampNs = 0 ∧
    (Record line (fields tick ++ [(tick.exchangeTimestampNs : ℤ)]) ∨
      Record line (fields tick) ∧ tick.exchangeTimestampNs = 0)

/-- The lines are records of the ticks, with lines between them that are skipped. -/
inductive Describes : List (List Char) → List MarketTick → Prop where
  | nil : Describes [] []
  | skip {line : List Char} {lines : List (List Char)} {ticks : List MarketTick} :
      Skipped line → Describes lines ticks → Describes (line :: lines) ticks
  | row {line : List Char} {lines : List (List Char)} {tick : MarketTick}
      {ticks : List MarketTick} :
      IsRow line tick → Describes lines ticks → Describes (line :: lines) (tick :: ticks)

theorem loadCsv_cons (line : List Char) (lines : List (List Char)) :
    loadCsv (line :: lines) = (loadCsvLine line).toList ++ loadCsv lines := by
  have heq : ∀ lines, loadCsv lines = (lines.map fun line => (loadCsvLine line).toList).flatten :=
    fun lines => List.foldl_append_eq_append.trans (List.nil_append _)
  rw [heq, heq]
  rfl

theorem Scan.length_eq {ranges : List (ℤ × ℤ)} {ss separators rest : List Char} {vs : List ℤ}
    (h : Scan ranges ss separators vs rest) : vs.length = ranges.length := by
  induction h with
  | last => rfl
  | cons _ _ _ _ _ ih => exact congrArg (· + 1) ih

/-- What the extractions find in a row. -/
theorem IsRow.exists_scan (h : IsRow line tick) : ∃ separators rest,
    Scan columns line separators (fields tick) rest ∧
      (readTimestamp rest).getD 0 = tick.exchangeTimestampNs := by
  obtain ⟨-, -, hrecord | ⟨hrecord, hzero⟩⟩ := h
  · obtain ⟨separators, vs, rest, hscan, -, htail⟩ := record_iff.mp hrecord
    have hlen := hscan.length_eq
    rcases htail with ⟨-, rfl⟩ | ⟨ss, ts, hc, hcell, hlo, hhi, hvs⟩
    · exact absurd hlen (by simp [fields, columns])
    · obtain ⟨rfl, hts⟩ := List.append_inj' hvs rfl
      obtain rfl : (tick.exchangeTimestampNs : ℤ) = ts := (List.cons.inj hts).1
      exact ⟨separators, rest, hscan, by rw [readTimestamp_of_column hc hcell hlo hhi]; rfl⟩
  · obtain ⟨separators, vs, rest, hscan, -, htail⟩ := record_iff.mp hrecord
    have hlen := hscan.length_eq
    rcases htail with ⟨hblank, rfl⟩ | ⟨ss, ts, -, -, -, -, hvs⟩
    · refine ⟨separators, rest, hscan, ?_⟩
      rw [readTimestamp, extractChar_eq_none_iff.mpr hblank, hzero]
      rfl
    · exact absurd (congrArg List.length hvs) (by simp [hlen, fields, columns])

/-- A row is read. -/
theorem IsRow.loadCsvLine_eq (h : IsRow line tick) : loadCsvLine line = some tick := by
  obtain ⟨separators, rest, hscan, htime⟩ := h.exists_scan
  obtain ⟨tick₀, hread⟩ := exists_readTick hscan
  obtain ⟨hlocal, separators', vs, hscan', hcolumns⟩ := exists_scan_of_readTick h.1 hread
  obtain ⟨-, rfl, -⟩ := hscan.unique hscan'
  have hhas := hcolumns 0 0 [] fun _ hmem => (List.not_mem_nil hmem).elim
  obtain ⟨h₁, h₂, h₃, h₄, h₅, h₆, h₇, -⟩ := hhas
  rw [loadCsvLine, if_neg (not_skipped h.1), hread]
  obtain ⟨a₁, a₂, a₃, a₄, a₅, a₆, a₇, a₈, a₉⟩ := tick₀
  obtain ⟨b₁, b₂, b₃, b₄, b₅, b₆, b₇, b₈, b₉⟩ := tick
  dsimp only at h₁ h₂ h₃ h₄ h₅ h₆ h₇ htime hlocal
  obtain rfl : b₉ = 0 := h.2.1
  rw [Int.natCast_inj.mp h₁, h₂, h₃, h₄, h₅, h₆, h₇, hlocal, ← htime]
  rfl

/-- **A file in the documented format** is read as the ticks it describes. -/
theorem loadCsv_of_describes (h : Describes lines ticks) : loadCsv lines = ticks := by
  induction h with
  | nil => rfl
  | skip hline _ ih =>
    rw [loadCsv_cons, loadCsvLine, if_pos hline, ih]
    rfl
  | row hline _ ih =>
    rw [loadCsv_cons, hline.loadCsvLine_eq, ih]
    rfl

/-! ### Writing -/

/-- Integers with commas between them. -/
def rowText : List ℤ → List Char
  | [] => []
  | [v] => showInteger v
  | v :: vs => showInteger v ++ ',' :: rowText vs

/-- A tick as a line with eight columns. -/
def csvRow (tick : MarketTick) : List Char :=
  rowText (fields tick ++ [(tick.exchangeTimestampNs : ℤ)])

/-- The comments and the header, and then a line for each tick. -/
def csvFile (header : List (List Char)) (ticks : List MarketTick) : List Char :=
  (header ++ ticks.map csvRow).flatMap fun line => line ++ ['\n']

/-- The columns have values of their types. -/
def Fits (tick : MarketTick) : Prop :=
  List.Forall₂ (fun range v => range.1 ≤ v ∧ v ≤ range.2) (columns ++ [uint64])
    (fields tick ++ [(tick.exchangeTimestampNs : ℤ)])

instance : DecidablePred Fits := fun _ => inferInstanceAs (Decidable (List.Forall₂ _ _ _))

theorem cell_showInteger (v : ℤ) : Cell (showInteger v) v :=
  ⟨[], showInteger v, [], fun _ h => (List.not_mem_nil h).elim, decimal_showInteger v,
    fun _ h => (List.not_mem_nil h).elim, (List.append_nil _).symm⟩

theorem row_rowText {ranges : List (ℤ × ℤ)} {vs : List ℤ}
    (h : List.Forall₂ (fun range v => range.1 ≤ v ∧ v ≤ range.2) ranges vs) (hne : vs ≠ []) :
    Row ranges (rowText vs) vs := by
  induction h with
  | nil => exact absurd rfl hne
  | @cons range v ranges vs hv hrest ih =>
    cases hrest with
    | nil => exact .last (cell_showInteger v) hv.1 hv.2
    | cons _ _ => exact .cons (cell_showInteger v) hv.1 hv.2 (ih (List.cons_ne_nil _ _))

theorem not_mem_rowText (vs : List ℤ) : '\n' ∉ rowText vs := by
  induction vs with
  | nil => exact List.not_mem_nil
  | cons v vs ih =>
    cases vs with
    | nil => exact not_mem_showInteger v
    | cons v' vs =>
      rw [rowText, List.mem_append, List.mem_cons, not_or, not_or]
      · exact ⟨not_mem_showInteger v, by decide, ih⟩
      · simp

/-- **What is written is a row.** -/
theorem isRow_csvRow (hfits : Fits tick) (hlocal : tick.localTimestampNs = 0) :
    IsRow (csvRow tick) tick := by
  refine ⟨?_, hlocal, Or.inl (Or.inr (row_rowText hfits (by simp)))⟩
  obtain ⟨c, cs, hcs⟩ := List.exists_cons_of_ne_nil
    (Nat.toDigits_ne_nil (n := tick.instrumentId) (b := 10))
  have hdigit : c.isDigit = true :=
    Nat.isDigit_of_mem_toDigits (by decide) (by decide) (hcs ▸ List.mem_cons_self)
  have hshow : showInteger tick.instrumentId = c :: cs := by
    rw [showInteger, if_neg (by omega), Int.natAbs_natCast, hcs]
  refine ⟨c, ?_, hdigit⟩
  rw [csvRow, fields, List.cons_append, rowText, hshow]
  · exact Option.mem_some_self c
  · simp

theorem getlines_flatMap (h : ∀ line ∈ lines, '\n' ∉ line) :
    getlines (lines.flatMap fun line => line ++ ['\n']) = lines := by
  induction lines with
  | nil => rfl
  | cons line lines ih =>
    rw [List.flatMap_cons, List.append_assoc, List.singleton_append,
      getlines_append_newline (h line List.mem_cons_self),
      ih fun line hline => h line (List.mem_cons_of_mem _ hline)]

theorem describes_append {header : List (List Char)} (h : ∀ line ∈ header, Skipped line)
    (h' : Describes lines ticks) : Describes (header ++ lines) ticks := by
  induction header with
  | nil => exact h'
  | cons line header ih =>
    exact .skip (h line List.mem_cons_self)
      (ih fun line hline => h line (List.mem_cons_of_mem _ hline))

theorem describes_csvRow (h : ∀ tick ∈ ticks, Fits tick ∧ tick.localTimestampNs = 0) :
    Describes (ticks.map csvRow) ticks := by
  induction ticks with
  | nil => exact .nil
  | cons tick ticks ih =>
    obtain ⟨hfits, hlocal⟩ := h tick List.mem_cons_self
    exact .row (isRow_csvRow hfits hlocal) (ih fun tick h' => h tick (List.mem_cons_of_mem _ h'))

/-- **What is written is read back.** -/
theorem loadCsv_csvFile (header : List (List Char)) (ticks : List MarketTick)
    (hheader : ∀ line ∈ header, Skipped line ∧ '\n' ∉ line)
    (hticks : ∀ tick ∈ ticks, Fits tick ∧ tick.localTimestampNs = 0) :
    loadCsv (getlines (csvFile header ticks)) = ticks := by
  have hlines : getlines (csvFile header ticks) = header ++ ticks.map csvRow := by
    refine getlines_flatMap fun line hline => ?_
    rcases List.mem_append.mp hline with hline | hline
    · exact (hheader line hline).2
    · obtain ⟨tick, -, rfl⟩ := List.mem_map.mp hline
      exact not_mem_rowText _
  rw [hlines]
  exact loadCsv_of_describes
    (describes_append (fun line hline => (hheader line hline).1) (describes_csvRow hticks))

/-- Two ticks, one with a negative bid, below a comment and the header. -/
theorem loadCsv_csvFile_twoTicks :
    loadCsv (getlines (csvFile ["# ticks".toList, "instrument_id,bid_price".toList]
      [⟨1, -3, 10002, 100, 100, 10000, 10, 0, 0⟩, ⟨1, 9997, 10003, 2, 150, 9, 5, 25572199, 0⟩])) =
      [⟨1, -3, 10002, 100, 100, 10000, 10, 0, 0⟩, ⟨1, 9997, 10003, 2, 150, 9, 5, 25572199, 0⟩] :=
  loadCsv_csvFile _ _ (by decide) (by decide)

/-! ### The two readers -/

/-- The time stamp in the line, if one is read. -/
def stampOf (line : List Char) : Option ℕ := do
  let (_, ss) ← readTick line
  readTimestamp ss

/-- The ticks that `load_csv` loads, each with the time stamp that was in its line. -/
def loadRows (lines : List (List Char)) : List (MarketTick × Option ℕ) :=
  lines.filterMap fun line => (loadCsvLine line).map fun tick => (tick, stampOf line)

theorem map_fst_loadRows (lines : List (List Char)) :
    (loadRows lines).map Prod.fst = loadCsv lines := by
  induction lines with
  | nil => rfl
  | cons line lines ih =>
    rw [loadCsv_cons, ← ih, loadRows, List.filterMap_cons]
    cases loadCsvLine line <;> rfl

/-- A tick of the replay loop and one of `load_csv` that have been read from the same line. A time
stamp in the line is that of both, zero as well; without one, it is zero for `load_csv` and a
reading of the clock for the replay loop. -/
structure SameRecord (clock : ℕ → ℕ) (delivered : MarketTick) (row : MarketTick × Option ℕ) :
    Prop where
  fields : fields delivered = fields row.1
  stamped : ∀ ts, row.2 = some ts →
    delivered.exchangeTimestampNs = ts ∧ row.1.exchangeTimestampNs = ts
  unstamped : row.2 = none →
    (∃ r, delivered.exchangeTimestampNs = clock r) ∧ row.1.exchangeTimestampNs = 0
  arrival : ∃ r, delivered.localTimestampNs = clock r

/-- What one line gives the two readers. -/
theorem sameRecord_replayLine (clock : ℕ → ℕ) (line : List Char) (s : ReplayState) :
    List.Forall₂ (SameRecord clock) (delivered (replayLine clock line s).1) (loadRows [line]) := by
  by_cases hskip : Skipped line
  · rw [replayLine, if_pos hskip, loadRows, List.filterMap_cons, loadCsvLine, if_pos hskip]
    exact .nil
  rw [replayLine, if_neg hskip, loadRows, List.filterMap_cons, loadCsvLine, if_neg hskip, stampOf]
  cases hread : readTick line with
  | none => exact .nil
  | some r =>
    obtain ⟨tick, rest⟩ := r
    cases htime : readTimestamp rest with
    | none =>
      simp only [htime, delivered_append, delivered_pace]
      refine .cons ⟨rfl, fun ts hts => ?_, fun _ => ⟨⟨_, rfl⟩, ?_⟩, ⟨_, rfl⟩⟩ .nil
      · exact absurd (htime.symm.trans hts) (Option.some_ne_none ts).symm
      · exact congrArg (fun ts : Option ℕ => ts.getD 0) htime
    | some ts =>
      simp only [htime, delivered_append, delivered_pace]
      refine .cons ⟨rfl, fun ts' hts => ?_, fun hts => ?_, ⟨_, rfl⟩⟩ .nil
      · obtain rfl : ts = ts' := Option.some.inj (htime.symm.trans hts)
        exact ⟨rfl, congrArg (fun ts : Option ℕ => ts.getD 0) htime⟩
      · exact absurd (htime.symm.trans hts) (Option.some_ne_none ts)

/-- **The two readers agree** on every file: the replay loop delivers what `load_csv` loads from the
lines before the first one at which it sees that it has been stopped, which are all of them if there
is no such line. -/
theorem replay_agrees (clock : ℕ → ℕ) (running : ℕ → Bool) (lines : List (List Char)) (n : ℕ)
    (s : ReplayState) : ∃ k ≤ lines.length, (∀ i < k, running (n + i) = true) ∧
      (k < lines.length → running (n + k) = false) ∧
      List.Forall₂ (SameRecord clock) (delivered (replay clock running lines n s))
        (loadRows (lines.take k)) ∧
      (loadRows (lines.take k)).map Prod.fst = loadCsv (lines.take k) := by
  induction lines generalizing n s with
  | nil =>
    exact ⟨0, le_rfl, fun _ h => absurd h (Nat.not_lt_zero _), fun h => absurd h (lt_irrefl 0),
      .nil, rfl⟩
  | cons line lines ih =>
    by_cases hrunning : running n = true
    · obtain ⟨k, hk, hbefore, hstop, hrows, -⟩ := ih (n + 1) (replayLine clock line s).2
      refine ⟨k + 1, Nat.succ_le_succ hk, fun i hi => ?_, fun h => ?_, ?_, map_fst_loadRows _⟩
      · cases i with
        | zero => exact hrunning
        | succ i => exact Nat.succ_add_eq_add_succ n i ▸ hbefore i (Nat.lt_of_succ_lt_succ hi)
      · exact Nat.succ_add_eq_add_succ n k ▸ hstop (Nat.lt_of_succ_lt_succ h)
      · rw [delivered_replay_cons hrunning, List.take_succ_cons, loadRows,
          ← List.singleton_append, List.filterMap_append]
        exact List.rel_append (sameRecord_replayLine clock line s) hrows
    · refine ⟨0, Nat.zero_le _, fun _ h => absurd h (Nat.not_lt_zero _),
        fun _ => eq_false_of_ne_true hrunning, ?_, rfl⟩
      rw [replay, if_neg hrunning]
      exact .nil

/-! ### The pace -/

/-- What is assumed of a pause: the reading of the clock after it is later than the one before it by
what was asked for, at least. They are the last two readings for the line. -/
def Pauses (clock : ℕ → ℕ) (line : List Char) (s : ReplayState) : Prop :=
  ∀ ns, .sleep ns ∈ (replayLine clock line s).1 →
    clock ((replayLine clock line s).2.readings - 2) + ns ≤
      clock ((replayLine clock line s).2.readings - 1)

/-- The same for all lines of a file. -/
def Sleeps (clock : ℕ → ℕ) : List (List Char) → ReplayState → Prop
  | [], _ => True
  | line :: lines, s => Pauses clock line s ∧ Sleeps clock lines (replayLine clock line s).2

/-- The time at which a tick is due, when the first one had the time stamp `exchangeNs` and the
clock showed `localNs`. -/
def due (exchangeNs localNs : ℕ) (tick : MarketTick) : ℕ :=
  localNs + (tick.exchangeTimestampNs - exchangeNs)

/-- The tick has not been delivered before it is due. The sum must not wrap. -/
def OnTime (exchangeNs localNs : ℕ) (tick : MarketTick) : Prop :=
  exchangeNs < tick.exchangeTimestampNs → due exchangeNs localNs tick ≤ uint64Max →
    due exchangeNs localNs tick ≤ tick.localTimestampNs

/-- The base of the pace, and the first tick that has set it. -/
structure SameBase (s s' : ReplayState) : Prop where
  firstTick : s'.firstTick = s.firstTick
  baseExchangeNs : s'.baseExchangeNs = s.baseExchangeNs
  baseLocalNs : s'.baseLocalNs = s.baseLocalNs

/-- **One line** is skipped or rejected, or it is a tick: its time stamp is found out, then comes
the pause, and then a last reading of the clock. -/
theorem replayLine_cases (clock : ℕ → ℕ) (line : List Char) (s : ReplayState) :
    (delivered (replayLine clock line s).1 = [] ∧ (replayLine clock line s).2 = s) ∨
    ∃ (tick : MarketTick) (exchangeNs : ℕ) (s₁ : ReplayState), SameBase s s₁ ∧
      replayLine clock line s =
        ((s₁.pace clock exchangeNs).1 ++
          [.callback
            { tick with
              exchangeTimestampNs := exchangeNs,
              localTimestampNs := clock (s₁.pace clock exchangeNs).2.readings }],
          ((s₁.pace clock exchangeNs).2.now clock).2) := by
  by_cases hskip : Skipped line
  · rw [replayLine, if_pos hskip]
    exact Or.inl ⟨rfl, rfl⟩
  rw [replayLine, if_neg hskip]
  cases hread : readTick line with
  | none => exact Or.inl ⟨rfl, rfl⟩
  | some r =>
    obtain ⟨tick, rest⟩ := r
    right
    cases htime : readTimestamp rest with
    | none => exact ⟨tick, _, (s.now clock).2, ⟨rfl, rfl, rfl⟩, by simp only [htime]; rfl⟩
    | some ts => exact ⟨tick, ts, s, ⟨rfl, rfl, rfl⟩, by simp only [htime]; rfl⟩

/-- A line after the first tick: the base stays, and what is delivered is on time. -/
theorem onTime_replayLine {clock : ℕ → ℕ} (hmono : ∀ r, clock r ≤ clock (r + 1)) {line : List Char}
    {s : ReplayState} (hfirst : s.firstTick = false) (hpauses : Pauses clock line s) :
    SameBase s (replayLine clock line s).2 ∧
    ∀ tick ∈ delivered (replayLine clock line s).1,
      OnTime s.baseExchangeNs s.baseLocalNs tick := by
  unfold Pauses at hpauses
  rcases replayLine_cases clock line s with ⟨hnone, hs⟩ | ⟨tick, exchangeNs, s₁, hbase, hline⟩
  · rw [hnone, hs]
    exact ⟨⟨rfl, rfl, rfl⟩, fun _ h => (List.not_mem_nil h).elim⟩
  have hfirst₁ : ¬ s₁.firstTick = true := by
    rw [hbase.firstTick, hfirst]
    exact Bool.false_ne_true
  rw [hline] at hpauses ⊢
  rw [delivered_append, delivered_pace, List.nil_append]
  by_cases hlate : s₁.baseExchangeNs < exchangeNs
  · set target := (s₁.baseLocalNs + (exchangeNs - s₁.baseExchangeNs)) % (uint64Max + 1)
      with htarget
    have hpace : s₁.pace clock exchangeNs =
        (if clock s₁.readings < target then [.sleep (target - clock s₁.readings)] else [],
          { s₁ with readings := s₁.readings + 1 }) := by
      rw [ReplayState.pace, if_neg hfirst₁, if_pos hlate]
      rfl
    rw [hpace] at hpauses ⊢
    refine ⟨⟨hbase.firstTick, hbase.baseExchangeNs, hbase.baseLocalNs⟩, fun t ht hlt hfits => ?_⟩
    cases List.mem_singleton.mp ht
    have hdue : due s.baseExchangeNs s.baseLocalNs { tick with
        exchangeTimestampNs := exchangeNs, localTimestampNs := clock (s₁.readings + 1) } =
        target := by
      rw [htarget, hbase.baseExchangeNs, hbase.baseLocalNs]
      exact (Nat.mod_eq_of_lt (Nat.lt_succ_of_le hfits)).symm
    refine hdue.le.trans ?_
    show target ≤ clock (s₁.readings + 1)
    by_cases hsleep : clock s₁.readings < target
    · have := hpauses (target - clock s₁.readings)
        (List.mem_append_left _ (by rw [if_pos hsleep]; exact List.mem_singleton_self _))
      have : clock s₁.readings + (target - clock s₁.readings) ≤ clock (s₁.readings + 1) := this
      omega
    · exact (not_lt.mp hsleep).trans (hmono _)
  · have hpace : s₁.pace clock exchangeNs = ([], s₁) := by
      rw [ReplayState.pace, if_neg hfirst₁, if_neg hlate]
    rw [hpace]
    refine ⟨⟨hbase.firstTick, hbase.baseExchangeNs, hbase.baseLocalNs⟩, fun t ht hlt => ?_⟩
    cases List.mem_singleton.mp ht
    rw [← hbase.baseExchangeNs] at hlt
    exact absurd hlt hlate

/-- The lines after the first tick. -/
theorem onTime_replay {clock : ℕ → ℕ} (hmono : ∀ r, clock r ≤ clock (r + 1))
    (running : ℕ → Bool) {lines : List (List Char)} {n : ℕ} {s : ReplayState}
    (hfirst : s.firstTick = false) (hsleeps : Sleeps clock lines s) :
    ∀ tick ∈ delivered (replay clock running lines n s),
      OnTime s.baseExchangeNs s.baseLocalNs tick := by
  induction lines generalizing n s with
  | nil => exact fun _ h => (List.not_mem_nil h).elim
  | cons line lines ih =>
    by_cases hrunning : running n = true
    · obtain ⟨hbase, hline⟩ := onTime_replayLine hmono hfirst hsleeps.1
      rw [delivered_replay_cons hrunning]
      intro tick htick
      rcases List.mem_append.mp htick with htick | htick
      · exact hline tick htick
      · rw [← hbase.baseExchangeNs, ← hbase.baseLocalNs]
        exact ih (hbase.firstTick.trans hfirst) hsleeps.2 tick htick
    · rw [replay, if_neg hrunning]
      exact fun _ h => (List.not_mem_nil h).elim

/-- **No tick comes early.** The first tick sets the base, with the reading of the clock before its
own local time stamp; no later tick is delivered before it is due. -/
theorem replay_paced (clock : ℕ → ℕ) (hmono : ∀ r, clock r ≤ clock (r + 1)) (running : ℕ → Bool)
    (lines : List (List Char)) (n : ℕ) (s : ReplayState) (hfirst : s.firstTick = true)
    (hsleeps : Sleeps clock lines s) (tick₀ : MarketTick) (ticks : List MarketTick)
    (hdelivered : delivered (replay clock running lines n s) = tick₀ :: ticks) :
    ∃ r, tick₀.localTimestampNs = clock (r + 1) ∧
      ∀ tick ∈ ticks, OnTime tick₀.exchangeTimestampNs (clock r) tick := by
  induction lines generalizing n s with
  | nil => cases hdelivered
  | cons line lines ih =>
    by_cases hrunning : running n = true
    swap
    · rw [replay, if_neg hrunning] at hdelivered
      cases hdelivered
    rw [delivered_replay_cons hrunning] at hdelivered
    obtain ⟨-, hsleeps⟩ := hsleeps
    rcases replayLine_cases clock line s with ⟨hnone, hs⟩ | ⟨tick, exchangeNs, s₁, hbase, hline⟩
    · rw [hs] at hdelivered hsleeps
      rw [hnone, List.nil_append] at hdelivered
      exact ih _ s hfirst hsleeps hdelivered
    · have hpace : s₁.pace clock exchangeNs = ([], { s₁ with
          readings := s₁.readings + 1, baseExchangeNs := exchangeNs,
          baseLocalNs := clock s₁.readings, firstTick := false }) := by
        rw [ReplayState.pace, if_pos (hbase.firstTick.trans hfirst)]
        rfl
      rw [hline, hpace] at hdelivered hsleeps
      cases hdelivered
      refine ⟨s₁.readings, rfl, fun tick htick => ?_⟩
      exact onTime_replay hmono running rfl hsleeps tick htick

/-- Two rows, the second one three microseconds after the first. -/
def spacedRows : List (List Char) :=
  ["1,9998,10002,100,100,10000,10,5".toList, "1,9997,10003,200,150,10000,5,3005".toList]

/-- The loop pauses before the second row, which is due at `3000`. -/
theorem replay_paced_spacedRows : ∃ r, 1000 = 1000 * (r + 1) ∧
    ∀ tick ∈ [(⟨1, 9997, 10003, 200, 150, 10000, 5, 3005, 3000⟩ : MarketTick)],
      OnTime 5 (1000 * r) tick := by
  refine replay_paced (fun r => 1000 * r) (fun r => Nat.mul_le_mul_left _ r.le_succ)
    (fun _ => true) spacedRows 0 {} rfl ⟨?_, ?_, trivial⟩
    ⟨1, 9998, 10002, 100, 100, 10000, 10, 5, 1000⟩ _ (by decide +kernel)
  · intro ns hns
    have hnone : (replayLine (fun r => 1000 * r) "1,9998,10002,100,100,10000,10,5".toList {}).1 =
        [.callback ⟨1, 9998, 10002, 100, 100, 10000, 10, 5, 1000⟩] := by decide +kernel
    rw [hnone] at hns
    cases List.mem_singleton.mp hns
  · intro ns hns
    have hpause : (replayLine (fun r => 1000 * r) "1,9997,10003,200,150,10000,5,3005".toList
        (replayLine (fun r => 1000 * r) "1,9998,10002,100,100,10000,10,5".toList {}).2).1 =
        [.sleep 1000, .callback ⟨1, 9997, 10003, 200, 150, 10000, 5, 3005, 3000⟩] := by
      decide +kernel
    have hreadings : (replayLine (fun r => 1000 * r) "1,9997,10003,200,150,10000,5,3005".toList
        (replayLine (fun r => 1000 * r) "1,9998,10002,100,100,10000,10,5".toList {}).2).2.readings =
        4 := by decide +kernel
    rw [hpause] at hns
    rw [hreadings]
    simp only [List.mem_cons, ReplayEvent.sleep.injEq, List.not_mem_nil, or_false,
      reduceCtorEq] at hns
    show 1000 * 2 + ns ≤ 1000 * 3
    omega

end CsvReplay

end MiniTrader
