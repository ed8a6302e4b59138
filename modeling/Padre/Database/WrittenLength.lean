import Mathlib.Data.Bool.AllAny
import Padre.Database.Neighbours
import Padre.Model.CommandLine

/-! # The length that was written

Both readers of a length, the option `-l` and the fourth field of a row, ask `atoi` for the
number and test the `int` they get. On a numeral of any length that `int` is what saturation
and wrap-around leave of its value, so the readers take the numerals of one band after
another. Either of them stores what was written exactly up to `INT_MAX` and in the bands
that are refused.
-/
namespace Padre
open CString Rows Trace

/-- The length a numeral stands for, if it is one. -/
def writtenLength (numeral : List UInt8) : Option ℕ :=
  if 1 ≤ digitsValue numeral ∧ digitsValue numeral ≤ INT_MAX then some (digitsValue numeral) else none

/-- The length that is stored for a numeral, unless it is taken for zero or less. -/
def storedLength (numeral : List UInt8) : Option ℕ :=
  if 0 < atoi numeral then some (atoi numeral).toNat else none

/-- The values `atoi` keeps, saturates or wraps around to zero or below. -/
def SurvivesAtoi (v : ℕ) : Prop := v ≤ INT_MAX ∨ 2 ^ 63 ≤ v ∨ v % 2 ^ 32 = 0 ∨ 2 ^ 31 ≤ v % 2 ^ 32

/-- The length `parse_opt` stores for a `-l`, when it returns no error. -/
def optionLength (argNum : ℕ) (options : CliOpts) (arg : CStr) : Option ℕ :=
  match (parseOpt argNum options (.l arg)).result with
  | .ok r => if r.1 = 0 then some r.2.length else none
  | .error _ => none

/-- The length in `account` behind the first `count` characters of a text, when the scan has
not been left before. -/
def scannedLength (pre text tail : List UInt8) (count : ℕ) : Option ℕ :=
  match scanText pre text tail count with
  | .ok st => some st.account.length
  | .error _ => none

/-- A place in a database at which the scan finds a fourth field: the rows above it, the
three fields in front and the part of the pattern behind. -/
structure LengthPlace where
  above : List UInt8
  domain : List UInt8
  username : List UInt8
  iteration : List UInt8
  pattern : List UInt8
  whole_rows : above = [] ∨ above.getLast? = some newline
  reached : textRejected above = false
  comma_free : comma ∉ domain ∧ comma ∉ username ∧ comma ∉ iteration
  newline_free : newline ∉ domain ∧ newline ∉ username ∧ newline ∉ iteration ∧ newline ∉ pattern

namespace LengthPlace

/-- The row of a place, with `l` as the fourth field. -/
def row (place : LengthPlace) (l : List UInt8) : List UInt8 :=
  rowOf place.domain place.username place.iteration l place.pattern

/-- The database as far as the place. -/
def front (place : LengthPlace) (l : List UInt8) : List UInt8 := place.above ++ place.row l

/-- The account of the row. -/
def account (place : LengthPlace) (length : ℕ) : Account (Option CStr) :=
  ⟨closedField place.domain,closedField place.username,closedField place.iteration,
    closedField place.pattern,length⟩

end LengthPlace

/-- What `atoi` makes of a numeral is what was written exactly where the value survives. -/
theorem atoi_numeral_iff {l : List UInt8} (hne : l ≠ []) (h : ∀ c ∈ l, isdigit c) :
    storedLength l = writtenLength l ↔ SurvivesAtoi (digitsValue l) := by
  have hpos := toInt_saturated_pos_iff (digitsValue l)
  have hval := toInt_saturated (v := digitsValue l)
  rw [storedLength, atoi, strtol_of_digits hne h]
  unfold writtenLength SurvivesAtoi
  by_cases htaken : 0 < toInt (min (2 ^ 63 - 1) (digitsValue l : ℤ))
  · obtain ⟨hlong,hwrapped,hint⟩ := hpos.mp htaken
    have heq := hval htaken
    rw [if_pos htaken, heq, Int.toNat_natCast]
    by_cases hwritten : 1 ≤ digitsValue l ∧ digitsValue l ≤ INT_MAX
    · rw [if_pos hwritten, Option.some.injEq]
      unfold INT_MAX at hwritten ⊢
      omega
    · rw [if_neg hwritten]
      unfold INT_MAX at hwritten ⊢
      simp only [reduceCtorEq, false_iff]
      omega
  · rw [if_neg htaken]
    rw [hpos] at htaken
    by_cases hwritten : 1 ≤ digitsValue l ∧ digitsValue l ≤ INT_MAX
    · unfold INT_MAX at hwritten
      omega
    · rw [if_neg hwritten]
      unfold INT_MAX at hwritten ⊢
      simp only [true_iff]
      omega

theorem optionLength_eq (argNum : ℕ) (options : CliOpts) (arg : CStr) :
    optionLength argNum options arg = storedLength arg.bytes := by
  by_cases hpos : 0 < atoi arg.bytes
  · have hnot : ¬ (atoi arg.bytes = 0 ∨ atoi arg.bytes < 0) := by omega
    simp [optionLength, storedLength, parseOpt, hnot, hpos]
  · have hbad : atoi arg.bytes = 0 ∨ atoi arg.bytes < 0 := by omega
    have herr : ¬ EINVAL = 0 := by decide
    simp [optionLength, storedLength, parseOpt, hbad, hpos, herr]

section Place
variable (place : LengthPlace) {l : List UInt8}

theorem newline_notMem_place (h : newline ∉ l) : newline ∉ place.row l := by
  obtain ⟨hd,hu,hi,hp⟩ := place.newline_free
  exact newline_notMem_rowOf hd hu hi h hp

theorem rowRejected_place (h : comma ∉ l) : rowRejected (place.row l) = decide (atoi l ≤ 0) := by
  obtain ⟨hd,hu,hi⟩ := place.comma_free
  exact rowRejected_rowOf hd hu hi h

theorem rowAccount_place (h : comma ∉ l) : (rowAccount (place.row l)).length = (atoi l).toNat := by
  obtain ⟨hd,hu,hi⟩ := place.comma_free
  simp only [rowAccount, LengthPlace.row, rowFields_rowOf hd hu hi h]

theorem rowEntry_place (h : comma ∉ l) : rowEntry (place.row l) = some (place.account (atoi l).toNat) := by
  obtain ⟨hd,hu,hi⟩ := place.comma_free
  exact rowEntry_rowOf hd hu hi h

theorem textRejected_front (hn : newline ∉ l) (hc : comma ∉ l) :
    textRejected (place.front l) = decide (atoi l ≤ 0) := by
  have hrow := newline_notMem_place place hn
  have habove := rest_of_whole_rows place.whole_rows
  rw [LengthPlace.front, textRejected_append habove, place.reached, Bool.false_or, textRejected,
    rows_rest hrow, rest_rest hrow, rowRejected_place place hc]
  rfl

theorem rest_front (hn : newline ∉ l) : rest newline (place.front l) = place.row l := by
  rw [LengthPlace.front, (rows_append (rest_of_whole_rows place.whole_rows) _).2,
    rest_rest (newline_notMem_place place hn)]

/-- The scan behind the fourth field of a place. -/
theorem scannedLength_eq (hn : newline ∉ l) (hc : comma ∉ l) (pre below tail : List UInt8) :
    scannedLength pre (place.front l ++ below) tail (place.front l).length = storedLength l := by
  have hrejected := textRejected_front place hn hc
  unfold scannedLength storedLength
  by_cases hpos : 0 < atoi l
  · have hr : textRejected (place.front l) = false := by
      rw [hrejected]
      simpa using hpos
    obtain ⟨st,_,hscan,htracks⟩ := scanText_accepted pre tail hr below
    have hlength := htracks.length_account
    simp only [rest_front place hn, rowAccount_place place hc] at hlength
    simp only [hscan, if_pos hpos, hlength]
  · have hr : textRejected (place.front l) = true := by
      rw [hrejected]
      simpa using hpos
    obtain ⟨st,hscan,-⟩ := scanText_rejected pre tail hr below
    simp only [hscan, if_neg hpos]

/-- The accounts of a database in which the row of a place is accepted with the length, if
there is one, and otherwise rejected. -/
def LengthPlace.accounts (below tail : List UInt8) (length : Option ℕ) : List (Account (Option CStr)) :=
  length.elim [] fun n =>
    textEntries place.above ++ (place.account n :: (textEntries below ++ lastEntry (rest newline below) tail))

/-- What is returned for a database with the row in it, when the rows below it are fine. -/
theorem read_place (hn : newline ∉ l) (hc : comma ∉ l) {below : List UInt8}
    (hbelow : textRejected below = false) (pre tail : List UInt8) :
    (parseText pre (place.front l ++ newline :: below) tail).read =
      place.accounts below tail (storedLength l) := by
  have habove := rest_of_whole_rows place.whole_rows
  have hrow := newline_notMem_place place hn
  have hassoc : place.front l ++ newline :: below = place.above ++ (place.row l ++ newline :: below) := by
    simp [LengthPlace.front]
  have hr : textRejected (place.front l ++ newline :: below) = decide (atoi l ≤ 0) := by
    rw [hassoc, textRejected_append habove, place.reached, Bool.false_or, textRejected, rows_row hrow,
      rest_row hrow, List.any_cons, rowRejected_place place hc, Bool.or_assoc]
    have hrest : ((rows newline below).any rowRejected || rowRejected (rest newline below)) = false := hbelow
    rw [hrest, Bool.or_false]
  unfold storedLength
  by_cases hpos : 0 < atoi l
  · have hok : textRejected (place.front l ++ newline :: below) = false := by
      rw [hr]
      simpa using hpos
    have hentries : textEntries (place.row l ++ newline :: below) =
        place.account (atoi l).toNat :: textEntries below := by
      rw [textEntries, rows_row hrow, List.filterMap_cons_some (rowEntry_place place hc), textEntries]
    rw [(parseText_accepted pre tail hok).2, if_pos hpos, LengthPlace.accounts, Option.elim_some, hassoc,
      textEntries_append habove, hentries, (rows_append habove _).2, rest_row hrow, List.append_assoc,
      List.cons_append]
  · have herr : textRejected (place.front l ++ newline :: below) = true := by
      rw [hr]
      simpa using hpos
    rw [if_neg hpos, Parsed.read, parseText_rejected pre tail herr, AccountList.entries_free]
    rfl

theorem accounts_inj (below tail : List UInt8) {n m : Option ℕ} :
    place.accounts below tail n = place.accounts below tail m ↔ n = m := by
  constructor
  · intro h
    cases n with
    | none =>
      cases m with
      | none => rfl
      | some m => simp [LengthPlace.accounts] at h
    | some n =>
      cases m with
      | none => simp [LengthPlace.accounts] at h
      | some m => simpa [LengthPlace.accounts, LengthPlace.account] using h
  · intro h
    rw [h]

end Place

/-- An accepted length is the number that was written exactly for the numerals whose value
survives `atoi`: as a `-l`, at every point of a row behind its fourth field, and in the list
`parse_accounts` returns. -/
theorem writtenLength_iff (l : CStr) (hne : l.bytes ≠ []) (hdigits : ∀ c ∈ l.bytes, isdigit c) :
    (∀ argNum options,
      optionLength argNum options l = writtenLength l.bytes ↔ SurvivesAtoi (digitsValue l.bytes)) ∧
    ∀ (place : LengthPlace) (pre below tail : List UInt8),
      (scannedLength pre (place.front l.bytes ++ below) tail (place.front l.bytes).length =
        writtenLength l.bytes ↔ SurvivesAtoi (digitsValue l.bytes)) ∧
      (textRejected below = false →
        ((parseText pre (place.front l.bytes ++ newline :: below) tail).read =
          place.accounts below tail (writtenLength l.bytes) ↔ SurvivesAtoi (digitsValue l.bytes))) := by
  have hatoi := atoi_numeral_iff hne hdigits
  have hn : newline ∉ l.bytes := notMem_digits hdigits (by decide)
  have hc : comma ∉ l.bytes := notMem_digits hdigits (by decide)
  constructor
  · intro argNum options
    rw [optionLength_eq]
    exact hatoi
  · intro place pre below tail
    constructor
    · rw [scannedLength_eq place hn hc]
      exact hatoi
    · intro hbelow
      rw [read_place place hn hc hbelow, ← hatoi]
      exact accounts_inj place below tail

/-- The second row of a database. -/
def samplePlace : LengthPlace where
  above := literal "a,b,0,8,c\n"
  domain := literal "d"
  username := literal "e"
  iteration := literal "1"
  pattern := literal ":alnum:,"
  whole_rows := Or.inr (by decide)
  reached := by decide
  comma_free := by decide
  newline_free := by decide

/-- `INT_MAX` itself. -/
theorem writtenLength_iff_max :
    (optionLength 1 ⟨none,none,none,none,0⟩ (CStr.upto (literal "2147483647")) =
      writtenLength (literal "2147483647") ↔ SurvivesAtoi (digitsValue (literal "2147483647"))) ∧
    ((parseText [] (samplePlace.front (literal "2147483647") ++ newline :: literal "f,g\n") [0]).read =
      samplePlace.accounts (literal "f,g\n") [0] (writtenLength (literal "2147483647")) ↔
        SurvivesAtoi (digitsValue (literal "2147483647"))) := by
  have hdigits : ∀ c ∈ (CStr.upto (literal "2147483647")).bytes, isdigit c :=
    List.all_iff_forall_prop.mp (by decide)
  have h := writtenLength_iff (CStr.upto (literal "2147483647")) (by decide) hdigits
  exact ⟨h.1 1 ⟨none,none,none,none,0⟩,(h.2 samplePlace [] (literal "f,g\n") [0]).2 (by decide)⟩

/-- The first value behind the wrap-around, 2 ^ 32 + 1, is taken for 1. -/
theorem writtenLength_wrapped :
    ¬ ∀ l : CStr, l.bytes ≠ [] → (∀ c ∈ l.bytes, isdigit c) →
      (∀ argNum options, optionLength argNum options l = writtenLength l.bytes) ∧
      ∀ (place : LengthPlace) (pre below tail : List UInt8),
        scannedLength pre (place.front l.bytes ++ below) tail (place.front l.bytes).length =
          writtenLength l.bytes := by
  intro h
  have hdigits : ∀ c ∈ (CStr.upto (literal "4294967297")).bytes, isdigit c :=
    List.all_iff_forall_prop.mp (by decide)
  have hoption := (h (CStr.upto (literal "4294967297")) (by decide) hdigits).1 1 ⟨none,none,none,none,0⟩
  exact absurd hoption (by decide)

end Padre
