import Padre.Database.Contents

/-! # Reading back the documented format

A database is a concatenation of rows `<domain>,<username>,<iteration>,<length>,<characters>`.
The fields in front of the pattern carry their freedom from separators with them, and so
does the length its range, so that every `Entry` has a row and every list of entries a file.
-/
namespace Padre
open CString Rows

/-- A string that may stand in front of a separator. -/
structure PlainField where
  str : CStr
  no_comma : comma ∉ str.bytes
  no_newline : newline ∉ str.bytes

/-- A string that may stand at the end of a row. -/
structure Pattern where
  str : CStr
  no_newline : newline ∉ str.bytes

/-- An account the documented format can express. -/
structure Entry where
  domain : PlainField
  username : PlainField
  iteration : PlainField
  length : ℕ
  length_pos : 1 ≤ length
  length_le : length ≤ INT_MAX
  characters : Pattern

/-- The row of five given fields. -/
def rowOf (d u i l c : List UInt8) : List UInt8 :=
  d ++ comma :: (u ++ comma :: (i ++ comma :: (l ++ comma :: c)))

def Entry.row (e : Entry) : List UInt8 :=
  rowOf e.domain.str.bytes e.username.str.bytes e.iteration.str.bytes (decimal e.length)
    e.characters.str.bytes

def Entry.account (e : Entry) : Account (Option CStr) :=
  ⟨some e.domain.str,some e.username.str,some e.iteration.str,some e.characters.str,e.length⟩

/-- The rows of a list of entries, each with its newline. -/
def database (entries : List Entry) : List UInt8 := entries.flatMap fun e => e.row ++ [newline]

section Row
variable {d u i l c : List UInt8}

theorem newline_notMem_rowOf (hd : newline ∉ d) (hu : newline ∉ u) (hi : newline ∉ i)
    (hl : newline ∉ l) (hc : newline ∉ c) : newline ∉ rowOf d u i l c := by
  have hne : newline ≠ comma := by decide
  simp [rowOf, hd, hu, hi, hl, hc, hne]

theorem rowFields_rowOf (hd : comma ∉ d) (hu : comma ∉ u) (hi : comma ∉ i) (hl : comma ∉ l) :
    rowFields (rowOf d u i l c) = [d,u,i,l,c] := rowFields_full hd hu hi hl

theorem rowRejected_rowOf (hd : comma ∉ d) (hu : comma ∉ u) (hi : comma ∉ i) (hl : comma ∉ l) :
    rowRejected (rowOf d u i l c) = decide (atoi l ≤ 0) := by
  simp [rowRejected, rowFields_rowOf hd hu hi hl]

theorem rowEntry_rowOf (hd : comma ∉ d) (hu : comma ∉ u) (hi : comma ∉ i) (hl : comma ∉ l) :
    rowEntry (rowOf d u i l c) =
      some ⟨closedField d,closedField u,closedField i,closedField c,(atoi l).toNat⟩ := by
  simp [rowEntry, rowAccount, lastField, rowFields_rowOf hd hu hi hl, closedField]

end Row

theorem notMem_digits {l : List UInt8} (hdigits : ∀ c ∈ l, isdigit c) {b : UInt8} (h : isdigit b = false) :
    b ∉ l := by
  intro hb
  rw [hdigits b hb] at h
  cases h

theorem notMem_decimal {b : UInt8} (h : isdigit b = false) (n : ℕ) : b ∉ decimal n :=
  notMem_digits (fun _ hc => isdigit_of_mem_decimal hc) h

namespace Entry

theorem newline_notMem_row (e : Entry) : newline ∉ e.row :=
  newline_notMem_rowOf e.domain.no_newline e.username.no_newline e.iteration.no_newline
    (notMem_decimal (by decide) _) e.characters.no_newline

theorem atoi_length (e : Entry) : atoi (decimal e.length) = e.length := atoi_decimal e.length_le

theorem row_not_rejected (e : Entry) : rowRejected e.row = false := by
  have hpos := e.length_pos
  rw [Entry.row, rowRejected_rowOf e.domain.no_comma e.username.no_comma e.iteration.no_comma
    (notMem_decimal (by decide) _), e.atoi_length]
  simp
  omega

theorem rowEntry_row (e : Entry) : rowEntry e.row = some e.account := by
  rw [Entry.row, rowEntry_rowOf e.domain.no_comma e.username.no_comma e.iteration.no_comma
    (notMem_decimal (by decide) _), e.atoi_length]
  simp [account, closedField]

end Entry

theorem lastEntry_nil (tail : List UInt8) : lastEntry [] tail = [] := by
  simp [lastEntry, lastField, rowFields, fields]

/-- A text of terminated rows without a rejected length gives the account of each row. -/
theorem parseAccounts_rows (rs : List (List UInt8)) (hrs : ∀ r ∈ rs, newline ∉ r)
    (hok : ∀ r ∈ rs, rowRejected r = false) (tail : List UInt8) :
    (parseAccounts (rs.flatMap (· ++ [newline]) ++ tail) 0 (rs.flatMap (· ++ [newline])).length).read =
      rs.filterMap rowEntry := by
  obtain ⟨hrows,hrest⟩ := rows_flatMap hrs
  have haccepted : textRejected (rs.flatMap (· ++ [newline])) = false := by
    simp only [textRejected, hrows, hrest, Bool.or_eq_false_iff, List.any_eq_false]
    exact ⟨fun r hr => by simp [hok r hr],by decide⟩
  have hread := (parseText_accepted [] tail haccepted).2
  rw [hrest, lastEntry_nil, List.append_nil, textEntries, hrows] at hread
  rwa [parseText_nil] at hread

/-- `parse_accounts` returns exactly the accounts a database was written from. -/
theorem parseAccounts_database (entries : List Entry) (tail : List UInt8) :
    (parseAccounts (database entries ++ tail) 0 (database entries).length).read =
      entries.map Entry.account := by
  have hread := parseAccounts_rows (entries.map Entry.row)
    (List.forall_mem_map.mpr fun e _ => e.newline_notMem_row)
    (List.forall_mem_map.mpr fun e _ => e.row_not_rejected) tail
  have hentries : (entries.map Entry.row).filterMap rowEntry = entries.map Entry.account := by
    rw [List.filterMap_map, ← List.filterMap_eq_map]
    exact congrArg (List.filterMap · entries) (funext fun e => e.rowEntry_row)
  rw [List.flatMap_map, hentries] at hread
  exact hread

end Padre
