import Mathlib.Data.Int.Notation
import Mathlib.Data.List.TakeWhile
import Mathlib.Data.Nat.Notation
import Mathlib.Order.Basic
import Mathlib.Tactic.Common

/-!
# Formatted input

The extraction operators of a C++ input stream for integers and characters, on what is left of the
text. A character of the stream is a character here; nothing depends on how many there are. An
extraction that sets the failure bit is `none`, and what it has consumed does not matter then.

An integer is blanks, a sign or none, and as many digits as there are. Where it ends is decided by
the next character alone: there is no test of what follows it. A character is the first one that is
not blank, whatever it is.

Two points are not what one would write down. An unsigned integer may have a minus sign, and is then
negated modulo the size of the type. And the digits of an integer that is too large are consumed,
but the extraction fails.

## Main definitions

* `extractSigned`, `extractUnsigned`, `extractChar`, `getlines` — the operators
* `Decimal` — what an integer looks like
* `ReadsInteger`, `ReadsChar` — how a text is taken apart

## Main results

* `extractSigned_eq_some_iff`, `extractChar_eq_some_iff`
* `ReadsInteger.extractUnsigned` — the unsigned integers without a surprise
* `ReadsInteger.unique`, `ReadsChar.unique`
* `decimal_showInteger` — what is written can be read
-/

namespace Extraction

/-- `isspace` in the classic locale. -/
def isSpace (c : Char) : Bool := c.toNat = 32 ∨ 9 ≤ c.toNat ∧ c.toNat ≤ 13

/-- What every extraction does first. -/
def skipws (ss : List Char) : List Char := ss.dropWhile isSpace

/-- The value of a sequence of digits. -/
def digitsValue (ds : List Char) : ℕ := ds.foldl (fun v c => 10 * v + (c.toNat - 48)) 0

/-- A sign, and what follows it. -/
def getSign : List Char → Bool × List Char
  | '-' :: ss => (true, ss)
  | '+' :: ss => (false, ss)
  | ss => (false, ss)

/-- An integer: whether it has a minus sign, its digits, and what follows it. -/
def getInteger (ss : List Char) : Option (Bool × ℕ × List Char) :=
  let r := getSign (skipws ss)
  let digits := r.2.takeWhile Char.isDigit
  if digits = [] then none else some (r.1, digitsValue digits, r.2.dropWhile Char.isDigit)

/-- The value of a sign and a number. -/
def signed (negative : Bool) (n : ℕ) : ℤ := if negative then -n else n

/-- `operator>>` for a signed type with the values from `lo` to `hi`. -/
def extractSigned (lo hi : ℤ) (ss : List Char) : Option (ℤ × List Char) := do
  let (negative, n, ss) ← getInteger ss
  if lo ≤ signed negative n ∧ signed negative n ≤ hi then some (signed negative n, ss) else none

/-- `operator>>` for an unsigned type with the values up to `max`. -/
def extractUnsigned (max : ℕ) (ss : List Char) : Option (ℕ × List Char) := do
  let (negative, n, ss) ← getInteger ss
  if n ≤ max then some (if negative then (max + 1 - n) % (max + 1) else n, ss) else none

/-- `operator>>` for a `char`. -/
def extractChar (ss : List Char) : Option (Char × List Char) :=
  match skipws ss with
  | [] => none
  | c :: ss => some (c, ss)

/-- The lines that `std::getline` gives, one after the other. After a newline at the end of the text
there is none. -/
def getlines : List Char → List (List Char)
  | [] => []
  | c :: cs =>
    if c = '\n' then [] :: getlines cs
    else
      match getlines cs with
      | [] => [[c]]
      | line :: lines => (c :: line) :: lines

/-- How an integer is written. -/
def showInteger (v : ℤ) : List Char :=
  if v < 0 then '-' :: Nat.toDigits 10 v.natAbs else Nat.toDigits 10 v.natAbs

/-! ### What the text looks like -/

/-- Only blanks. -/
def Blank (cs : List Char) : Prop := ∀ c ∈ cs, isSpace c = true

/-- Only digits, and at least one. -/
structure Digits (ds : List Char) : Prop where
  ne_nil : ds ≠ []
  digit : ∀ c ∈ ds, c.isDigit = true

/-- The text does not go on with a digit. -/
def EndsInteger (rest : List Char) : Prop := ∀ c ∈ rest.head?, c.isDigit = false

/-- A sign or none. -/
inductive Sign : List Char → Bool → Prop where
  | none : Sign [] false
  | plus : Sign ['+'] false
  | minus : Sign ['-'] true

/-- A decimal integer and its value. -/
def Decimal (cs : List Char) (v : ℤ) : Prop :=
  ∃ sign negative ds, Sign sign negative ∧ Digits ds ∧ cs = sign ++ ds ∧
    v = signed negative (digitsValue ds)

/-- The text begins with the integer `v`, and `rest` comes after it. -/
def ReadsInteger (ss : List Char) (v : ℤ) (rest : List Char) : Prop :=
  ∃ blanks cs, Blank blanks ∧ Decimal cs v ∧ EndsInteger rest ∧ ss = blanks ++ (cs ++ rest)

/-- The text begins with the character `c`, and `rest` comes after it. -/
def ReadsChar (ss : List Char) (c : Char) (rest : List Char) : Prop :=
  ∃ blanks, Blank blanks ∧ isSpace c = false ∧ ss = blanks ++ c :: rest

variable {ss ss' cs ds rest rest' : List Char} {c c' : Char} {v v' lo hi : ℤ} {n max : ℕ}
  {negative : Bool}

theorem isSpace_of_isDigit (h : c.isDigit = true) : isSpace c = false := by
  have hd : 48 ≤ c.toNat ∧ c.toNat ≤ 57 := by
    simpa [Char.isDigit, UInt32.le_iff_toNat_le] using h
  rw [isSpace, decide_eq_false_iff_not]
  omega

theorem skipws_append (h : Blank cs) : skipws (cs ++ ss) = skipws ss := by
  rw [skipws, skipws, List.dropWhile_append_of_pos h]

theorem skipws_cons (h : isSpace c = false) : skipws (c :: cs) = c :: cs := by
  rw [skipws, List.dropWhile_cons_of_neg (by rw [h]; decide)]

/-- Blanks, and then what is not blank. -/
theorem exists_blank_append_skipws (ss : List Char) :
    ∃ blanks, Blank blanks ∧ ss = blanks ++ skipws ss :=
  ⟨ss.takeWhile isSpace, fun _ => List.mem_takeWhile_imp, List.takeWhile_append_dropWhile.symm⟩

theorem skipws_eq_nil_iff : skipws ss = [] ↔ Blank ss := by
  rw [skipws, List.dropWhile_eq_nil_iff]
  rfl

theorem isSpace_of_skipws (h : skipws ss = c :: rest) : isSpace c = false := by
  have hhead := List.head?_dropWhile_not isSpace ss
  rw [← skipws, h] at hhead
  simpa using hhead

/-! ### Characters -/

theorem extractChar_eq_some_iff : extractChar ss = some (c, rest) ↔ ReadsChar ss c rest := by
  constructor
  · intro h
    obtain ⟨blanks, hblanks, hss⟩ := exists_blank_append_skipws ss
    rw [extractChar] at h
    split at h
    · cases h
    · rename_i c' rest' hskip
      cases h
      exact ⟨blanks, hblanks, isSpace_of_skipws hskip, by rw [← hskip]; exact hss⟩
  · rintro ⟨blanks, hblanks, hc, rfl⟩
    rw [extractChar, skipws_append hblanks, skipws_cons hc]

theorem extractChar_eq_none_iff : extractChar ss = none ↔ Blank ss := by
  rw [← skipws_eq_nil_iff, extractChar]
  split <;> rename_i h <;> simp [h]

theorem ReadsChar.unique (h : ReadsChar ss c rest) (h' : ReadsChar ss c' rest') :
    c = c' ∧ rest = rest' := by
  rw [← extractChar_eq_some_iff] at h h'
  rw [h] at h'
  cases h'
  exact ⟨rfl, rfl⟩

/-! ### Integers -/

theorem getSign_of_isDigit (h : c.isDigit = true) : getSign (c :: cs) = (false, c :: cs) := by
  unfold getSign
  split
  · rename_i he
    cases he
    exact absurd h (by decide)
  · rename_i he
    cases he
    exact absurd h (by decide)
  · rfl

theorem getSign_append {sign : List Char} (h : Sign sign negative) (hds : Digits ds) :
    getSign (sign ++ (ds ++ rest)) = (negative, ds ++ rest) := by
  cases h with
  | none =>
    obtain ⟨d, ds, rfl⟩ := List.exists_cons_of_ne_nil hds.ne_nil
    exact getSign_of_isDigit (hds.digit d List.mem_cons_self)
  | plus => rfl
  | minus => rfl

theorem skipws_sign_append {sign : List Char} (h : Sign sign negative) (hds : Digits ds) :
    skipws (sign ++ (ds ++ rest)) = sign ++ (ds ++ rest) := by
  cases h with
  | none =>
    obtain ⟨d, ds, rfl⟩ := List.exists_cons_of_ne_nil hds.ne_nil
    exact skipws_cons (isSpace_of_isDigit (hds.digit d List.mem_cons_self))
  | plus => exact skipws_cons (by decide)
  | minus => exact skipws_cons (by decide)

/-- A sign is taken off the text, if there is one. -/
theorem exists_sign (ss : List Char) :
    ∃ sign, Sign sign (getSign ss).1 ∧ ss = sign ++ (getSign ss).2 := by
  unfold getSign
  split
  · exact ⟨_, Sign.minus, rfl⟩
  · exact ⟨_, Sign.plus, rfl⟩
  · exact ⟨_, Sign.none, rfl⟩

theorem takeWhile_isDigit_append (hds : Digits ds) (hrest : EndsInteger rest) :
    (ds ++ rest).takeWhile Char.isDigit = ds ∧ (ds ++ rest).dropWhile Char.isDigit = rest := by
  rw [List.takeWhile_append_of_pos hds.digit, List.dropWhile_append_of_pos hds.digit]
  cases rest with
  | nil => exact ⟨List.append_nil ds, rfl⟩
  | cons c rest =>
    have hc := hrest c rfl
    rw [List.takeWhile_cons_of_neg (by rw [hc]; decide),
      List.dropWhile_cons_of_neg (by rw [hc]; decide), List.append_nil]
    exact ⟨rfl, rfl⟩

/-- **An integer is read** as far as its digits go. -/
theorem readsInteger_iff : ReadsInteger ss v rest ↔
    ∃ negative n, getInteger ss = some (negative, n, rest) ∧ v = signed negative n := by
  constructor
  · rintro ⟨blanks, cs, hblanks, ⟨sign, negative, ds, hsign, hds, rfl, rfl⟩, hrest, rfl⟩
    obtain ⟨htake, hdrop⟩ := takeWhile_isDigit_append hds hrest
    refine ⟨negative, digitsValue ds, ?_, rfl⟩
    rw [getInteger, List.append_assoc, skipws_append hblanks, skipws_sign_append hsign hds,
      getSign_append hsign hds, htake, hdrop, if_neg hds.ne_nil]
  · rintro ⟨negative, n, h, rfl⟩
    obtain ⟨blanks, hblanks, hss⟩ := exists_blank_append_skipws ss
    obtain ⟨sign, hsign, hskip⟩ := exists_sign (skipws ss)
    rw [getInteger] at h
    split at h
    · cases h
    · rename_i hne
      cases h
      refine ⟨blanks, sign ++ (getSign (skipws ss)).2.takeWhile Char.isDigit, hblanks,
        ⟨sign, _, _, hsign, ⟨hne, fun c => List.mem_takeWhile_imp⟩, rfl, rfl⟩, ?_, ?_⟩
      · intro c hc
        have hhead := List.head?_dropWhile_not Char.isDigit (getSign (skipws ss)).2
        rw [hc] at hhead
        simpa using hhead
      · rw [List.append_assoc, List.takeWhile_append_dropWhile, ← hskip]
        exact hss

theorem ReadsInteger.unique (h : ReadsInteger ss v rest) (h' : ReadsInteger ss v' rest') :
    v = v' ∧ rest = rest' := by
  obtain ⟨negative, n, he, rfl⟩ := readsInteger_iff.mp h
  obtain ⟨negative', n', he', rfl⟩ := readsInteger_iff.mp h'
  rw [he] at he'
  cases he'
  exact ⟨rfl, rfl⟩

/-- **What is written can be read.** -/
theorem decimal_showInteger (v : ℤ) : Decimal (showInteger v) v := by
  have hdigits : Digits (Nat.toDigits 10 v.natAbs) :=
    ⟨Nat.toDigits_ne_nil, fun _ => Nat.isDigit_of_mem_toDigits (by decide) (by decide)⟩
  have hvalue : digitsValue (Nat.toDigits 10 v.natAbs) = v.natAbs := by
    have h : Nat.ofDigitChars 10 (Nat.toDigits 10 v.natAbs) 0 = v.natAbs :=
      Nat.ofDigitChars_ten_toDigits
    rwa [Nat.ofDigitChars_eq_foldl] at h
  unfold showInteger
  split
  · refine ⟨_, _, _, .minus, hdigits, rfl, ?_⟩
    rw [hvalue, signed, if_pos rfl]
    omega
  · refine ⟨_, _, _, .none, hdigits, rfl, ?_⟩
    rw [hvalue, signed, if_neg Bool.false_ne_true]
    omega

/-- It is written without newlines. -/
theorem not_mem_showInteger (v : ℤ) : '\n' ∉ showInteger v := by
  have hdigits : '\n' ∉ Nat.toDigits 10 v.natAbs := fun h =>
    absurd (Nat.isDigit_of_mem_toDigits (by decide) (by decide) h) (by decide)
  unfold showInteger
  split
  · rw [List.mem_cons, not_or]
    exact ⟨by decide, hdigits⟩
  · exact hdigits

/-- **Signed integers** are extracted if they are in range. -/
theorem extractSigned_eq_some_iff : extractSigned lo hi ss = some (v, rest) ↔
    ReadsInteger ss v rest ∧ lo ≤ v ∧ v ≤ hi := by
  rw [readsInteger_iff, extractSigned]
  constructor
  · intro h
    obtain ⟨⟨negative, n, ss'⟩, hget, h⟩ := Option.bind_eq_some_iff.mp h
    dsimp only at h
    split at h
    · rename_i hrange
      cases h
      exact ⟨⟨negative, n, hget, rfl⟩, hrange⟩
    · cases h
  · rintro ⟨⟨negative, n, hget, rfl⟩, hrange⟩
    refine Option.bind_eq_some_iff.mpr ⟨_, hget, ?_⟩
    dsimp only
    rw [if_pos hrange]

/-- **Unsigned integers** are extracted if they are in range. -/
theorem ReadsInteger.extractUnsigned (h : ReadsInteger ss v rest) (hlo : 0 ≤ v) (hhi : v ≤ max) :
    extractUnsigned max ss = some (v.toNat, rest) := by
  obtain ⟨negative, n, hget, rfl⟩ := readsInteger_iff.mp h
  refine Option.bind_eq_some_iff.mpr ⟨_, hget, ?_⟩
  dsimp only
  cases negative with
  | true =>
    rw [signed, if_pos rfl] at hlo
    obtain rfl : n = 0 := by omega
    rw [if_pos (Nat.zero_le _), if_pos rfl, Nat.sub_zero, Nat.mod_self]
    rfl
  | false =>
    have hn : signed false n = n := rfl
    rw [hn] at hhi ⊢
    rw [if_pos (by omega)]
    rfl

/-- Without a minus sign there is nothing else. -/
theorem readsInteger_of_extractUnsigned (hss : ∃ c ∈ ss.head?, c.isDigit = true)
    (h : extractUnsigned max ss = some (n, rest)) : ReadsInteger ss n rest ∧ n ≤ max := by
  obtain ⟨⟨negative, m, ss'⟩, hget, h⟩ := Option.bind_eq_some_iff.mp h
  have hnegative : negative = false := by
    obtain ⟨c, hc, hdigit⟩ := hss
    obtain ⟨cs, rfl⟩ : ∃ cs, ss = c :: cs := by
      cases ss with
      | nil => cases hc
      | cons c' cs => cases hc; exact ⟨cs, rfl⟩
    rw [getInteger, skipws_cons (isSpace_of_isDigit hdigit),
      getSign_of_isDigit hdigit] at hget
    dsimp only at hget
    split at hget
    · cases hget
    · cases hget
      rfl
  subst hnegative
  dsimp only at h
  split at h
  · rename_i hm
    cases h
    exact ⟨readsInteger_iff.mpr ⟨false, _, hget, rfl⟩, hm⟩
  · cases h

/-! ### Lines -/

/-- A line with its newline comes first. -/
theorem getlines_append_newline {line : List Char} (h : '\n' ∉ line) (text : List Char) :
    getlines (line ++ '\n' :: text) = line :: getlines text := by
  induction line with
  | nil => rfl
  | cons c line ih =>
    rw [List.mem_cons, not_or] at h
    rw [List.cons_append, getlines, if_neg (Ne.symm h.1), ih h.2]

end Extraction
