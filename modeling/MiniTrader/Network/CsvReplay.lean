import MiniTrader.Lib.Extraction
import MiniTrader.Strategy.StrategyBase

/-!
# CSV replay

`load_csv` of `src/main.cpp` and the replay loop of `MarketReceiver::run` in
`src/network/market_receiver.cpp` read the same format with the same extractions: seven integers
with a character after each of the first six, and then, if there is more, a character and a time
stamp. Nothing asks what the characters are, what comes after the last integer, or why there was no
time stamp.

So a line is read correctly unless it begins like a record and is not one. `Scan` is what the
extractions see of a line, as a grammar; `Row` is what a line of the file is meant to look like; and
`Plain` says that what is scanned are commas, and then nothing or one more column.

## Main definitions

* `readTick`, `readTimestamp`, `loadCsvLine`, `loadCsv`, `replayLine`, `replay`
* `Row`, `Record` — the documented format
* `ReadsRecords` — what a reader is to make of a line
* `Scan` — what the extractions see; `Plain` — the condition

## Main results

* `row_iff`, `record_iff` — the format in terms of what is scanned
* `exists_stamped` — every record is read correctly
* `readsRecords_iff_plain` — and nothing else is, under the condition
-/

namespace MiniTrader

open Extraction

namespace CsvReplay

/-! ### The readers -/

/-- The largest `uint64_t`. -/
def uint64Max : ℕ := 18446744073709551615

/-- Extraction of an `int64_t`. -/
def extractInt64 : List Char → Option (ℤ × List Char) :=
  extractSigned (-9223372036854775808) 9223372036854775807

/-- Extraction of an `int32_t`. -/
def extractInt32 : List Char → Option (ℤ × List Char) := extractSigned (-2147483648) 2147483647

/-- `ss >> tick.instrument_id >> comma >> … >> tick.last_size`. -/
def readTick (ss : List Char) : Option (MarketTick × List Char) := do
  let (instrumentId, ss) ← extractUnsigned uint64Max ss
  let (_, ss) ← extractChar ss
  let (bidPrice, ss) ← extractInt64 ss
  let (_, ss) ← extractChar ss
  let (askPrice, ss) ← extractInt64 ss
  let (_, ss) ← extractChar ss
  let (bidSize, ss) ← extractInt32 ss
  let (_, ss) ← extractChar ss
  let (askSize, ss) ← extractInt32 ss
  let (_, ss) ← extractChar ss
  let (lastPrice, ss) ← extractInt64 ss
  let (_, ss) ← extractChar ss
  let (lastSize, ss) ← extractInt32 ss
  some (⟨instrumentId, bidPrice, askPrice, bidSize, askSize, lastPrice, lastSize, 0, 0⟩, ss)

/-- `ss >> c2 >> ts`. -/
def readTimestamp (ss : List Char) : Option ℕ := do
  let (_, ss) ← extractChar ss
  let (ts, _) ← extractUnsigned uint64Max ss
  some ts

/-- The line is skipped: it is empty, a comment or a header. -/
def Skipped : List Char → Prop
  | [] => True
  | c :: _ => c = '#' ∨ c.toNat < '0'.toNat ∨ '9'.toNat < c.toNat

instance : DecidablePred Skipped
  | [] => inferInstanceAs (Decidable True)
  | _ :: _ => inferInstanceAs (Decidable (_ ∨ _ ∨ _))

/-- One line of `load_csv`. -/
def loadCsvLine (line : List Char) : Option MarketTick :=
  if Skipped line then none
  else do
    let (tick, ss) ← readTick line
    some { tick with exchangeTimestampNs := (readTimestamp ss).getD 0 }

/-- `load_csv`: what one line gives is appended. -/
def loadCsv (lines : List (List Char)) : List MarketTick :=
  lines.foldl (fun ticks line => ticks ++ (loadCsvLine line).toList) []

/-- What the replay loop does. -/
inductive ReplayEvent where
  | formatError (line : List Char)
  | sleep (ns : ℕ)
  | callback (tick : MarketTick)
  deriving DecidableEq, Repr

/-- The tick that is passed on. -/
def ReplayEvent.tick? : ReplayEvent → Option MarketTick
  | .formatError _ => none
  | .sleep _ => none
  | .callback tick => some tick

/-- The ticks that the callback gets. -/
def delivered (events : List ReplayEvent) : List MarketTick := events.filterMap ReplayEvent.tick?

/-- The variables of the replay loop, and how often the clock has been read. -/
structure ReplayState where
  firstTick : Bool := true
  baseExchangeNs : ℕ := 0
  baseLocalNs : ℕ := 0
  readings : ℕ := 0

/-- `Order::now_ns()`. -/
def ReplayState.now (clock : ℕ → ℕ) (s : ReplayState) : ℕ × ReplayState :=
  (clock s.readings, { s with readings := s.readings + 1 })

/-- The pause before a tick: the first one sets the base, the others come at their distance from
it. -/
def ReplayState.pace (clock : ℕ → ℕ) (exchangeNs : ℕ) (s : ReplayState) :
    List ReplayEvent × ReplayState :=
  if s.firstTick then
    let (now, s) := s.now clock
    ([], { s with baseExchangeNs := exchangeNs, baseLocalNs := now, firstTick := false })
  else if s.baseExchangeNs < exchangeNs then
    let target := (s.baseLocalNs + (exchangeNs - s.baseExchangeNs)) % (uint64Max + 1)
    let (now, s) := s.now clock
    (if now < target then [.sleep (target - now)] else [], s)
  else ([], s)

/-- One line of the replay loop. -/
def replayLine (clock : ℕ → ℕ) (line : List Char) (s : ReplayState) :
    List ReplayEvent × ReplayState :=
  if Skipped line then ([], s)
  else
    match readTick line with
    | none => ([.formatError line], s)
    | some (tick, ss) =>
      let (exchangeNs, s) := match readTimestamp ss with
        | some ts => (ts, s)
        | none => s.now clock
      let (events, s) := s.pace clock exchangeNs
      let (now, s) := s.now clock
      (events ++
        [.callback { tick with exchangeTimestampNs := exchangeNs, localTimestampNs := now }], s)

/-- The replay loop; `running n` is what it reads of `running_` before its line `n`. -/
def replay (clock : ℕ → ℕ) (running : ℕ → Bool) : List (List Char) → ℕ → ReplayState →
    List ReplayEvent
  | [], _, _ => []
  | line :: lines, n, s =>
    if running n then
      (replayLine clock line s).1 ++ replay clock running lines (n + 1) (replayLine clock line s).2
    else []

/-! ### The format -/

/-- An integer with blanks around it. -/
def Cell (cs : List Char) (v : ℤ) : Prop :=
  ∃ before digits after, Blank before ∧ Decimal digits v ∧ Blank after ∧
    cs = before ++ (digits ++ after)

/-- Cells with commas between them, one for each range of values. -/
inductive Row : List (ℤ × ℤ) → List Char → List ℤ → Prop where
  | last {lo hi v : ℤ} {cs : List Char} : Cell cs v → lo ≤ v → v ≤ hi → Row [(lo, hi)] cs [v]
  | cons {lo hi v : ℤ} {cs rest : List Char} {ranges : List (ℤ × ℤ)} {vs : List ℤ} : Cell cs v →
      lo ≤ v → v ≤ hi → Row ranges rest vs → Row ((lo, hi) :: ranges) (cs ++ ',' :: rest) (v :: vs)

/-- The values of a `uint64_t`. -/
def uint64 : ℤ × ℤ := (0, uint64Max)

/-- The values of an `int64_t`. -/
def int64 : ℤ × ℤ := (-9223372036854775808, 9223372036854775807)

/-- The values of an `int32_t`. -/
def int32 : ℤ × ℤ := (-2147483648, 2147483647)

/-- The columns from `instrument_id` to `last_size`. -/
def columns : List (ℤ × ℤ) := [uint64, int64, int64, int32, int32, int64, int32]

/-- A record of the file: the seven columns, and perhaps the time stamp. -/
def Record (line : List Char) (vs : List ℤ) : Prop :=
  Row columns line vs ∨ Row (columns ++ [uint64]) line vs

/-- The fields of the tick have the values of their columns. -/
def HasColumns (tick : MarketTick) : List ℤ → Prop
  | instrumentId :: bidPrice :: askPrice :: bidSize :: askSize :: lastPrice :: lastSize :: more =>
    tick.instrumentId = instrumentId ∧ tick.bidPrice = bidPrice ∧ tick.askPrice = askPrice ∧
      tick.bidSize = bidSize ∧ tick.askSize = askSize ∧ tick.lastPrice = lastPrice ∧
      tick.lastSize = lastSize ∧ ∀ ts ∈ more, tick.exchangeTimestampNs = ts
  | _ => False

/-- **What a reader is to make of a line**: a tick if the line is a record, with the value of its
column in every field, and nothing otherwise. -/
structure ReadsRecords (line : List Char) (ticks : List MarketTick) : Prop where
  accepts : ∀ vs, Record line vs → ∃ tick, ticks = [tick] ∧ HasColumns tick vs
  rejects : (¬∃ vs, Record line vs) → ticks = []

/-- What the extractions see of a line: for each range an integer in it, and after each but the last
one a character. -/
inductive Scan : List (ℤ × ℤ) → List Char → List Char → List ℤ → List Char → Prop where
  | last {lo hi v : ℤ} {ss rest : List Char} : ReadsInteger ss v rest → lo ≤ v → v ≤ hi →
      Scan [(lo, hi)] ss [] [v] rest
  | cons {lo hi v : ℤ} {ss ss₁ ss₂ rest separators : List Char} {c : Char}
      {ranges : List (ℤ × ℤ)} {vs : List ℤ} : ReadsInteger ss v ss₁ → lo ≤ v → v ≤ hi →
      ReadsChar ss₁ c ss₂ → Scan ranges ss₂ separators vs rest →
      Scan ((lo, hi) :: ranges) ss (c :: separators) (v :: vs) rest

/-- Nothing more, or one more column. -/
def Tail (rest : List Char) : Prop :=
  Blank rest ∨ ∃ ss ts, ReadsChar rest ',' ss ∧ Cell ss ts ∧ 0 ≤ ts ∧ ts ≤ uint64Max

/-- If the line begins with seven integers in range, with one character after each of the first six,
then the characters are commas, and nothing more follows or one more column. -/
def Plain (line : List Char) : Prop :=
  ∀ separators vs rest, Scan columns line separators vs rest →
    (∀ c ∈ separators, c = ',') ∧ Tail rest

variable {ranges : List (ℤ × ℤ)} {line ss rest rest' separators separators' : List Char}
  {vs vs' : List ℤ} {v lo hi : ℤ}

theorem Scan.unique (h : Scan ranges ss separators vs rest)
    (h' : Scan ranges ss separators' vs' rest') :
    separators = separators' ∧ vs = vs' ∧ rest = rest' := by
  induction h generalizing separators' vs' rest' with
  | last hv _ _ =>
    cases h' with
    | last hv' _ _ =>
      obtain ⟨rfl, rfl⟩ := hv.unique hv'
      exact ⟨rfl, rfl, rfl⟩
    | cons _ _ _ _ hnil => cases hnil
  | cons hv _ _ hc hrest ih =>
    cases h' with
    | last _ _ _ => cases hrest
    | cons hv' _ _ hc' hrest' =>
      obtain ⟨rfl, rfl⟩ := hv.unique hv'
      obtain ⟨rfl, rfl⟩ := hc.unique hc'
      obtain ⟨rfl, rfl, rfl⟩ := ih hrest'
      exact ⟨rfl, rfl, rfl⟩

/-- Blanks do not go on with a digit. -/
theorem endsInteger_of_blank (h : Blank rest) : EndsInteger rest := by
  intro c hc
  have hmem : c ∈ rest := List.mem_of_mem_head? hc
  rw [← Bool.not_eq_true]
  intro hdigit
  have hspace := h c hmem
  rw [isSpace_of_isDigit hdigit] at hspace
  cases hspace

/-- A cell at the end is an integer and blanks. -/
theorem cell_iff : Cell ss v ↔ ∃ rest, ReadsInteger ss v rest ∧ Blank rest := by
  constructor
  · rintro ⟨before, digits, after, hbefore, hdigits, hafter, rfl⟩
    exact ⟨after, ⟨before, digits, hbefore, hdigits, endsInteger_of_blank hafter, rfl⟩, hafter⟩
  · rintro ⟨rest, ⟨before, digits, hbefore, hdigits, -, rfl⟩, hrest⟩
    exact ⟨before, digits, rest, hbefore, hdigits, hrest, rfl⟩

/-- A cell before a comma is an integer, and the comma comes next. -/
theorem cell_comma_iff : (∃ cs, Cell cs v ∧ ss = cs ++ ',' :: rest) ↔
    ∃ ss₁, ReadsInteger ss v ss₁ ∧ ReadsChar ss₁ ',' rest := by
  constructor
  · rintro ⟨cs, ⟨before, digits, after, hbefore, hdigits, hafter, rfl⟩, rfl⟩
    refine ⟨after ++ ',' :: rest, ⟨before, digits, hbefore, hdigits, ?_, ?_⟩,
      ⟨after, hafter, by decide, rfl⟩⟩
    · cases after with
      | nil =>
        intro c hc
        cases hc
        decide
      | cons c after => exact fun d hd => endsInteger_of_blank hafter d hd
    · rw [List.append_assoc, List.append_assoc]
  · rintro ⟨ss₁, ⟨before, digits, hbefore, hdigits, -, rfl⟩, ⟨after, hafter, -, rfl⟩⟩
    exact ⟨before ++ (digits ++ after), ⟨before, digits, after, hbefore, hdigits, hafter, rfl⟩,
      by rw [List.append_assoc, List.append_assoc]⟩

/-- **A row** is what is scanned with commas, and nothing more. -/
theorem row_iff : Row ranges line vs ↔ ∃ separators rest, Scan ranges line separators vs rest ∧
    (∀ c ∈ separators, c = ',') ∧ Blank rest := by
  constructor
  · intro h
    induction h with
    | last hcell hlo hhi =>
      obtain ⟨rest, hv, hrest⟩ := cell_iff.mp hcell
      exact ⟨[], rest, Scan.last hv hlo hhi, fun c hc => absurd hc List.not_mem_nil, hrest⟩
    | cons hcell hlo hhi _ ih =>
      obtain ⟨separators, rest, hscan, hcommas, hrest⟩ := ih
      obtain ⟨ss₁, hv, hc⟩ := cell_comma_iff.mp ⟨_, hcell, rfl⟩
      refine ⟨',' :: separators, rest, Scan.cons hv hlo hhi hc hscan, fun c hmem => ?_, hrest⟩
      rcases List.mem_cons.mp hmem with rfl | hmem
      · rfl
      · exact hcommas c hmem
  · rintro ⟨separators, rest, hscan, hcommas, hrest⟩
    induction hscan with
    | last hv hlo hhi => exact Row.last (cell_iff.mpr ⟨_, hv, hrest⟩) hlo hhi
    | cons hv hlo hhi hc _ ih =>
      obtain rfl := hcommas _ List.mem_cons_self
      obtain ⟨cs, hcell, rfl⟩ := cell_comma_iff.mpr ⟨_, hv, hc⟩
      have hrow := ih (fun c hmem => hcommas c (List.mem_cons_of_mem _ hmem)) hrest
      exact Row.cons hcell hlo hhi hrow

/-! ### Records -/

/-- What comes after a scan can be scanned too. -/
theorem Scan.snoc {c : Char} {ss' rest'' : List Char} (h : Scan ranges ss separators vs rest)
    (hc : ReadsChar rest c ss') (hv : ReadsInteger ss' v rest'') (hlo : lo ≤ v) (hhi : v ≤ hi) :
    Scan (ranges ++ [(lo, hi)]) ss (separators ++ [c]) (vs ++ [v]) rest'' := by
  induction h with
  | last hv₀ hlo₀ hhi₀ => exact Scan.cons hv₀ hlo₀ hhi₀ hc (Scan.last hv hlo hhi)
  | cons hv₀ hlo₀ hhi₀ hc₀ _ ih => exact Scan.cons hv₀ hlo₀ hhi₀ hc₀ (ih hc)

theorem Scan.exists_of_snoc (hne : ranges ≠ [])
    (h : Scan (ranges ++ [(lo, hi)]) ss separators vs rest) :
    ∃ separators₀ c vs₀ v rest₀ ss', separators = separators₀ ++ [c] ∧ vs = vs₀ ++ [v] ∧
      Scan ranges ss separators₀ vs₀ rest₀ ∧ ReadsChar rest₀ c ss' ∧ ReadsInteger ss' v rest ∧
      lo ≤ v ∧ v ≤ hi := by
  induction ranges generalizing ss separators vs with
  | nil => exact absurd rfl hne
  | cons range ranges ih =>
    cases ranges with
    | nil =>
      cases h with
      | cons hv₀ hlo₀ hhi₀ hc hrest =>
        cases hrest with
        | last hv hlo hhi =>
          exact ⟨[], _, [_], _, _, _, rfl, rfl, Scan.last hv₀ hlo₀ hhi₀, hc, hv, hlo, hhi⟩
        | cons _ _ _ _ hnil => cases hnil
    | cons range' ranges =>
      cases h with
      | cons hv₀ hlo₀ hhi₀ hc hrest =>
        obtain ⟨separators₀, c, vs₀, v, rest₀, ss', rfl, rfl, hscan, htail⟩ :=
          ih (List.cons_ne_nil _ _) hrest
        exact ⟨_ :: separators₀, c, _ :: vs₀, v, rest₀, ss', rfl, rfl,
          Scan.cons hv₀ hlo₀ hhi₀ hc hscan, htail⟩

/-- **A record** is seven columns with commas, and nothing more or one more column. -/
theorem record_iff : Record line vs ↔ ∃ separators vs₀ rest, Scan columns line separators vs₀ rest ∧
    (∀ c ∈ separators, c = ',') ∧
    (Blank rest ∧ vs = vs₀ ∨
      ∃ ss ts, ReadsChar rest ',' ss ∧ Cell ss ts ∧ 0 ≤ ts ∧ ts ≤ uint64Max ∧
        vs = vs₀ ++ [ts]) := by
  rw [Record, row_iff, row_iff]
  constructor
  · rintro (⟨separators, rest, hscan, hcommas, hblank⟩ | ⟨separators, rest, hscan, hcommas, hblank⟩)
    · exact ⟨separators, vs, rest, hscan, hcommas, Or.inl ⟨hblank, rfl⟩⟩
    · obtain ⟨separators, c, vs₀, ts, rest₀, ss, rfl, rfl, hscan₀, hc, hts, hlo, hhi⟩ :=
        Scan.exists_of_snoc (List.cons_ne_nil _ _) hscan
      obtain rfl := hcommas c (List.mem_append_right _ List.mem_cons_self)
      exact ⟨separators, vs₀, rest₀, hscan₀, fun c hmem => hcommas c (List.mem_append_left _ hmem),
        Or.inr ⟨ss, ts, hc, cell_iff.mpr ⟨rest, hts, hblank⟩, hlo, hhi, rfl⟩⟩
  · rintro ⟨separators, vs₀, rest, hscan, hcommas,
      ⟨hblank, rfl⟩ | ⟨ss, ts, hc, hcell, hlo, hhi, rfl⟩⟩
    · exact Or.inl ⟨separators, rest, hscan, hcommas, hblank⟩
    · obtain ⟨rest', hts, hblank⟩ := cell_iff.mp hcell
      refine Or.inr
        ⟨separators ++ [','], rest', hscan.snoc hc hts hlo hhi, fun c hmem => ?_, hblank⟩
      rcases List.mem_append.mp hmem with hmem | hmem
      · exact hcommas c hmem
      · exact List.mem_singleton.mp hmem

/-- A scanned line is a record if and only if its separators are commas and its tail is right. -/
theorem exists_record_iff (h : Scan columns line separators vs rest) :
    (∃ vs', Record line vs') ↔ (∀ c ∈ separators, c = ',') ∧ Tail rest := by
  constructor
  · rintro ⟨vs', hrecord⟩
    obtain ⟨separators', vs₀, rest', hscan, hcommas, htail⟩ := record_iff.mp hrecord
    obtain ⟨rfl, rfl, rfl⟩ := h.unique hscan
    refine ⟨hcommas, ?_⟩
    rcases htail with ⟨hblank, -⟩ | ⟨ss, ts, hc, hcell, hlo, hhi, -⟩
    · exact Or.inl hblank
    · exact Or.inr ⟨ss, ts, hc, hcell, hlo, hhi⟩
  · rintro ⟨hcommas, hblank | ⟨ss, ts, hc, hcell, hlo, hhi⟩⟩
    · exact ⟨vs, record_iff.mpr ⟨separators, vs, rest, h, hcommas, Or.inl ⟨hblank, rfl⟩⟩⟩
    · exact ⟨vs ++ [ts], record_iff.mpr
        ⟨separators, vs, rest, h, hcommas, Or.inr ⟨ss, ts, hc, hcell, hlo, hhi, rfl⟩⟩⟩

/-! ### What is read -/

variable {tick : MarketTick}

/-- **The chain of extractions** scans the seven columns; the times are still to be set. -/
theorem exists_scan_of_readTick (hline : ∃ c ∈ line.head?, c.isDigit = true)
    (h : readTick line = some (tick, rest)) :
    tick.localTimestampNs = 0 ∧ ∃ separators vs, Scan columns line separators vs rest ∧
      ∀ (exchangeNs localNs : ℕ) (more : List ℤ), (∀ ts ∈ more, exchangeNs = ts) →
        HasColumns { tick with exchangeTimestampNs := exchangeNs, localTimestampNs := localNs }
          (vs ++ more) := by
  obtain ⟨⟨instrumentId, ss₁⟩, h₁, h⟩ := Option.bind_eq_some_iff.mp h
  obtain ⟨⟨c₁, ss₂⟩, hc₁, h⟩ := Option.bind_eq_some_iff.mp h
  obtain ⟨⟨bidPrice, ss₃⟩, h₂, h⟩ := Option.bind_eq_some_iff.mp h
  obtain ⟨⟨c₂, ss₄⟩, hc₂, h⟩ := Option.bind_eq_some_iff.mp h
  obtain ⟨⟨askPrice, ss₅⟩, h₃, h⟩ := Option.bind_eq_some_iff.mp h
  obtain ⟨⟨c₃, ss₆⟩, hc₃, h⟩ := Option.bind_eq_some_iff.mp h
  obtain ⟨⟨bidSize, ss₇⟩, h₄, h⟩ := Option.bind_eq_some_iff.mp h
  obtain ⟨⟨c₄, ss₈⟩, hc₄, h⟩ := Option.bind_eq_some_iff.mp h
  obtain ⟨⟨askSize, ss₉⟩, h₅, h⟩ := Option.bind_eq_some_iff.mp h
  obtain ⟨⟨c₅, ss₁₀⟩, hc₅, h⟩ := Option.bind_eq_some_iff.mp h
  obtain ⟨⟨lastPrice, ss₁₁⟩, h₆, h⟩ := Option.bind_eq_some_iff.mp h
  obtain ⟨⟨c₆, ss₁₂⟩, hc₆, h⟩ := Option.bind_eq_some_iff.mp h
  obtain ⟨⟨lastSize, ss₁₃⟩, h₇, h⟩ := Option.bind_eq_some_iff.mp h
  cases h
  obtain ⟨hv₁, hhi₁⟩ := readsInteger_of_extractUnsigned hline h₁
  obtain ⟨hv₂, hlo₂, hhi₂⟩ := extractSigned_eq_some_iff.mp h₂
  obtain ⟨hv₃, hlo₃, hhi₃⟩ := extractSigned_eq_some_iff.mp h₃
  obtain ⟨hv₄, hlo₄, hhi₄⟩ := extractSigned_eq_some_iff.mp h₄
  obtain ⟨hv₅, hlo₅, hhi₅⟩ := extractSigned_eq_some_iff.mp h₅
  obtain ⟨hv₆, hlo₆, hhi₆⟩ := extractSigned_eq_some_iff.mp h₆
  obtain ⟨hv₇, hlo₇, hhi₇⟩ := extractSigned_eq_some_iff.mp h₇
  refine ⟨rfl, [c₁, c₂, c₃, c₄, c₅, c₆],
    [instrumentId, bidPrice, askPrice, bidSize, askSize, lastPrice, lastSize], ?_,
    fun _ _ _ hmore => ⟨rfl, rfl, rfl, rfl, rfl, rfl, rfl, hmore⟩⟩
  exact Scan.cons hv₁ (Int.natCast_nonneg _) (Int.ofNat_le.mpr hhi₁)
    (extractChar_eq_some_iff.mp hc₁)
    (Scan.cons hv₂ hlo₂ hhi₂ (extractChar_eq_some_iff.mp hc₂)
    (Scan.cons hv₃ hlo₃ hhi₃ (extractChar_eq_some_iff.mp hc₃)
    (Scan.cons hv₄ hlo₄ hhi₄ (extractChar_eq_some_iff.mp hc₄)
    (Scan.cons hv₅ hlo₅ hhi₅ (extractChar_eq_some_iff.mp hc₅)
    (Scan.cons hv₆ hlo₆ hhi₆ (extractChar_eq_some_iff.mp hc₆)
    (Scan.last hv₇ hlo₇ hhi₇))))))

/-- And it succeeds whenever they can be scanned. -/
theorem exists_readTick (h : Scan columns line separators vs rest) :
    ∃ tick, readTick line = some (tick, rest) := by
  rcases h with _ | ⟨hv₁, hlo₁, hhi₁, hc₁, h⟩
  rcases h with _ | ⟨hv₂, hlo₂, hhi₂, hc₂, h⟩
  rcases h with _ | ⟨hv₃, hlo₃, hhi₃, hc₃, h⟩
  rcases h with _ | ⟨hv₄, hlo₄, hhi₄, hc₄, h⟩
  rcases h with _ | ⟨hv₅, hlo₅, hhi₅, hc₅, h⟩
  rcases h with _ | ⟨hv₆, hlo₆, hhi₆, hc₆, h⟩
  rcases h with ⟨hv₇, hlo₇, hhi₇⟩ | ⟨_, _, _, _, h⟩
  · rw [← extractChar_eq_some_iff] at hc₁ hc₂ hc₃ hc₄ hc₅ hc₆
    have h₁ := hv₁.extractUnsigned hlo₁ hhi₁
    have h₂ := extractSigned_eq_some_iff.mpr ⟨hv₂, hlo₂, hhi₂⟩
    have h₃ := extractSigned_eq_some_iff.mpr ⟨hv₃, hlo₃, hhi₃⟩
    have h₄ := extractSigned_eq_some_iff.mpr ⟨hv₄, hlo₄, hhi₄⟩
    have h₅ := extractSigned_eq_some_iff.mpr ⟨hv₅, hlo₅, hhi₅⟩
    have h₆ := extractSigned_eq_some_iff.mpr ⟨hv₆, hlo₆, hhi₆⟩
    have h₇ := extractSigned_eq_some_iff.mpr ⟨hv₇, hlo₇, hhi₇⟩
    simp only [readTick, extractInt64, extractInt32, Option.bind_eq_bind, Option.bind_some,
      h₁, hc₁, h₂, hc₂, h₃, hc₃, h₄, hc₄, h₅, hc₅, h₆, hc₆, h₇]
    exact ⟨_, rfl⟩
  · cases h

theorem readTimestamp_of_column {ts : ℤ} (hc : ReadsChar rest ',' ss) (hcell : Cell ss ts)
    (hlo : 0 ≤ ts) (hhi : ts ≤ uint64Max) : readTimestamp rest = some ts.toNat := by
  obtain ⟨rest', hts, -⟩ := cell_iff.mp hcell
  have hts := hts.extractUnsigned hlo hhi
  rw [← extractChar_eq_some_iff] at hc
  simp only [readTimestamp, Option.bind_eq_bind, Option.bind_some, hc, hts]

/-- What both readers make of a line that is not skipped; they differ in the time stamps. -/
def stamped (exchangeNs localNs : ℕ) (line : List Char) : Option MarketTick := do
  let (tick, ss) ← readTick line
  some { tick with
    exchangeTimestampNs := (readTimestamp ss).getD exchangeNs, localTimestampNs := localNs }

theorem stamped_of_readTick (h : readTick line = some (tick, rest)) (exchangeNs localNs : ℕ) :
    stamped exchangeNs localNs line = some { tick with
      exchangeTimestampNs := (readTimestamp rest).getD exchangeNs, localTimestampNs := localNs } :=
  Option.bind_eq_some_iff.mpr ⟨_, h, rfl⟩

/-- **Records are read**, and every field gets its column. -/
theorem exists_stamped (hline : ∃ c ∈ line.head?, c.isDigit = true) (h : Record line vs)
    (exchangeNs localNs : ℕ) :
    ∃ tick, stamped exchangeNs localNs line = some tick ∧ HasColumns tick vs := by
  obtain ⟨separators, vs₀, rest, hscan, -, htail⟩ := record_iff.mp h
  obtain ⟨tick, hread⟩ := exists_readTick hscan
  obtain ⟨-, separators', vs', hscan', hcolumns⟩ := exists_scan_of_readTick hline hread
  obtain ⟨rfl, rfl, -⟩ := hscan.unique hscan'
  refine ⟨_, stamped_of_readTick hread exchangeNs localNs, ?_⟩
  rcases htail with ⟨-, rfl⟩ | ⟨ss, ts, hc, hcell, hlo, hhi, rfl⟩
  · have hseven := hcolumns ((readTimestamp rest).getD exchangeNs) localNs [] fun ts hts =>
      absurd hts List.not_mem_nil
    rwa [List.append_nil] at hseven
  · refine hcolumns _ _ [ts] fun ts' hts' => ?_
    rw [List.mem_singleton.mp hts', readTimestamp_of_column hc hcell hlo hhi, Option.getD_some,
      Int.toNat_of_nonneg hlo]

/-- **And nothing else is**, if and only if the line is plain. -/
theorem readsRecords_stamped_iff (hline : ∃ c ∈ line.head?, c.isDigit = true)
    (exchangeNs localNs : ℕ) :
    ReadsRecords line (stamped exchangeNs localNs line).toList ↔ Plain line := by
  constructor
  · intro h separators vs rest hscan
    obtain ⟨tick, hread⟩ := exists_readTick hscan
    have hstamped := stamped_of_readTick hread exchangeNs localNs
    refine (exists_record_iff hscan).mp ?_
    by_contra hno
    have hnil := h.rejects hno
    rw [hstamped] at hnil
    cases hnil
  · intro h
    refine ⟨fun vs hrecord => ?_, fun hno => ?_⟩
    · obtain ⟨tick, hstamped, hcolumns⟩ := exists_stamped hline hrecord exchangeNs localNs
      exact ⟨tick, by rw [hstamped]; rfl, hcolumns⟩
    · cases hread : readTick line with
      | none => rw [stamped, hread]; rfl
      | some r =>
        obtain ⟨tick, rest⟩ := r
        obtain ⟨-, separators, vs, hscan, -⟩ := exists_scan_of_readTick hline hread
        exact absurd ((exists_record_iff hscan).mpr (h separators vs rest hscan)) hno

/-! ### The two readers -/

theorem not_skipped (hline : ∃ c ∈ line.head?, c.isDigit = true) : ¬Skipped line := by
  obtain ⟨c, hc, hdigit⟩ := hline
  obtain ⟨cs, rfl⟩ := List.head?_eq_some_iff.mp hc
  have hd : 48 ≤ c.toNat ∧ c.toNat ≤ 57 := by
    simpa [Char.isDigit, UInt32.le_iff_toNat_le] using hdigit
  rintro (rfl | hlt | hlt)
  · exact absurd hdigit (by decide)
  · exact absurd hlt (not_lt.mpr hd.1)
  · exact absurd hlt (not_lt.mpr hd.2)

/-- `load_csv` appends what one line gives. -/
theorem loadCsv_concat (lines : List (List Char)) (line : List Char) :
    loadCsv (lines ++ [line]) = loadCsv lines ++ (loadCsvLine line).toList := by
  rw [loadCsv, List.foldl_append]
  rfl

theorem loadCsvLine_eq (hline : ∃ c ∈ line.head?, c.isDigit = true) :
    loadCsvLine line = stamped 0 0 line := by
  rw [loadCsvLine, if_neg (not_skipped hline)]
  cases hread : readTick line with
  | none =>
    rw [stamped, hread]
    rfl
  | some r =>
    obtain ⟨tick, rest⟩ := r
    rw [stamped_of_readTick hread, ← (exists_scan_of_readTick hline hread).1]
    rfl

theorem delivered_append (events events' : List ReplayEvent) :
    delivered (events ++ events') = delivered events ++ delivered events' :=
  List.filterMap_append

/-- Nothing is passed on while the loop waits. -/
theorem delivered_pace (clock : ℕ → ℕ) (exchangeNs : ℕ) (s : ReplayState) :
    delivered (s.pace clock exchangeNs).1 = [] := by
  unfold ReplayState.pace
  split
  · rfl
  · split
    · dsimp only
      split <;> rfl
    · rfl

/-- The replay loop passes on what one line gives. -/
theorem exists_delivered_replayLine (hline : ∃ c ∈ line.head?, c.isDigit = true) (clock : ℕ → ℕ)
    (s : ReplayState) : ∃ exchangeNs localNs,
      delivered (replayLine clock line s).1 = (stamped exchangeNs localNs line).toList := by
  rw [replayLine, if_neg (not_skipped hline)]
  cases hread : readTick line with
  | none =>
    refine ⟨0, 0, ?_⟩
    rw [stamped, hread]
    rfl
  | some r =>
    obtain ⟨tick, rest⟩ := r
    -- without a time stamp the clock is read, and that is its first reading
    refine ⟨clock s.readings, ?_⟩
    cases htime : readTimestamp rest <;>
    · simp only [htime, delivered_append, delivered_pace, stamped_of_readTick hread]
      exact ⟨_, rfl⟩

/-- A line that is read while the loop runs comes before the rest. -/
theorem delivered_replay_cons {running : ℕ → Bool} {n : ℕ} (hrunning : running n = true)
    (clock : ℕ → ℕ) (line : List Char) (lines : List (List Char)) (s : ReplayState) :
    delivered (replay clock running (line :: lines) n s) = delivered (replayLine clock line s).1 ++
      delivered (replay clock running lines (n + 1) (replayLine clock line s).2) := by
  rw [replay, if_pos hrunning, delivered_append]

/-- **Both readers read the records of a file, and nothing else**, if and only if what they scan is
separated by commas and nothing but a time stamp follows it. -/
theorem readsRecords_iff_plain (hline : ∃ c ∈ line.head?, c.isDigit = true) :
    (∀ lines, ∃ ticks, loadCsv (lines ++ [line]) = loadCsv lines ++ ticks ∧
      (ReadsRecords line ticks ↔ Plain line)) ∧
    ∀ clock running lines n s, running n = true →
      delivered (replay clock running (line :: lines) n s) =
        delivered (replayLine clock line s).1 ++
        delivered (replay clock running lines (n + 1) (replayLine clock line s).2) ∧
      (ReadsRecords line (delivered (replayLine clock line s).1) ↔ Plain line) := by
  constructor
  · intro lines
    refine ⟨_, loadCsv_concat lines line, ?_⟩
    rw [loadCsvLine_eq hline]
    exact readsRecords_stamped_iff hline 0 0
  · intro clock running lines n s hrunning
    refine ⟨delivered_replay_cons hrunning clock line lines s, ?_⟩
    obtain ⟨exchangeNs, localNs, hdelivered⟩ := exists_delivered_replayLine hline clock s
    rw [hdelivered]
    exact readsRecords_stamped_iff hline exchangeNs localNs

/-- A record of `data/sample_ticks.csv`. -/
theorem readsRecords_iff_plain_sample :
    (∀ lines, ∃ ticks, loadCsv (lines ++ ["1,9997,10003,119,194,9997,9,25572199".toList]) =
        loadCsv lines ++ ticks ∧
      (ReadsRecords "1,9997,10003,119,194,9997,9,25572199".toList ticks ↔
        Plain "1,9997,10003,119,194,9997,9,25572199".toList)) ∧
    ∀ clock running lines n s, running n = true →
      delivered
          (replay clock running ("1,9997,10003,119,194,9997,9,25572199".toList :: lines) n s) =
        delivered (replayLine clock "1,9997,10003,119,194,9997,9,25572199".toList s).1 ++
        delivered (replay clock running lines (n + 1)
          (replayLine clock "1,9997,10003,119,194,9997,9,25572199".toList s).2) ∧
      (ReadsRecords "1,9997,10003,119,194,9997,9,25572199".toList
          (delivered (replayLine clock "1,9997,10003,119,194,9997,9,25572199".toList s).1) ↔
        Plain "1,9997,10003,119,194,9997,9,25572199".toList) :=
  readsRecords_iff_plain ⟨'1', by decide, by decide⟩

/-- A price with a decimal point. -/
def fractional : List Char := "1,9997.5,10003,119,194,9997,9".toList

/-- The point is taken for a comma, so every column after it is shifted. -/
theorem loadCsvLine_fractional :
    loadCsvLine fractional = some ⟨1, 9997, 5, 10003, 119, 194, 9997, 9, 0⟩ := by
  decide

/-- The line is no record. -/
theorem not_record_fractional : ¬∃ vs, Record fractional vs := by
  rintro ⟨vs, hrecord⟩
  obtain ⟨separators, vs₀, rest, hscan, hcommas, -⟩ := record_iff.mp hrecord
  rcases hscan with _ | ⟨hv₁, _, _, hc₁, hscan⟩
  rcases hscan with _ | ⟨hv₂, _, _, hc₂, -⟩
  have h₁ : ReadsInteger fractional 1 ",9997.5,10003,119,194,9997,9".toList :=
    readsInteger_iff.mpr ⟨false, 1, by decide, rfl⟩
  obtain ⟨-, rfl⟩ := hv₁.unique h₁
  have hcomma : ReadsChar ",9997.5,10003,119,194,9997,9".toList ','
      "9997.5,10003,119,194,9997,9".toList := extractChar_eq_some_iff.mp (by decide)
  obtain ⟨-, rfl⟩ := hc₁.unique hcomma
  have h₂ : ReadsInteger "9997.5,10003,119,194,9997,9".toList 9997
      ".5,10003,119,194,9997,9".toList := readsInteger_iff.mpr ⟨false, 9997, by decide, rfl⟩
  obtain ⟨-, rfl⟩ := hv₂.unique h₂
  have hpoint : ReadsChar ".5,10003,119,194,9997,9".toList '.'
      "5,10003,119,194,9997,9".toList := extractChar_eq_some_iff.mp (by decide)
  obtain ⟨rfl, -⟩ := hc₂.unique hpoint
  exact absurd (hcommas '.' (List.mem_cons_of_mem _ List.mem_cons_self)) (by decide)

/-- **A line that is no record is read**, by both readers, and a price of 9997.5 makes an ask of
5. -/
theorem not_readsRecords_fractional : (∃ c ∈ fractional.head?, c.isDigit = true) ∧
    loadCsv [fractional] = [⟨1, 9997, 5, 10003, 119, 194, 9997, 9, 0⟩] ∧
    ¬ReadsRecords fractional (loadCsv [fractional]) ∧
    ∀ clock s, ¬ReadsRecords fractional (delivered (replayLine clock fractional s).1) := by
  have hline : ∃ c ∈ fractional.head?, c.isDigit = true := ⟨'1', by decide, by decide⟩
  have hload : loadCsv [fractional] = [⟨1, 9997, 5, 10003, 119, 194, 9997, 9, 0⟩] := by
    rw [← List.nil_append [fractional], loadCsv_concat, loadCsvLine_fractional]
    rfl
  refine ⟨hline, hload, fun h => ?_, fun clock s h => ?_⟩
  · have hnil := h.rejects not_record_fractional
    rw [hload] at hnil
    cases hnil
  · obtain ⟨exchangeNs, localNs, hdelivered⟩ := exists_delivered_replayLine hline clock s
    have hnil := h.rejects not_record_fractional
    rw [hdelivered, stamped_of_readTick (show readTick fractional = some (_, _) from rfl)] at hnil
    cases hnil

end CsvReplay

end MiniTrader
