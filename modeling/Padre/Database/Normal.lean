import Mathlib.Data.Set.List
import Padre.Database.LastRow

/-! # The normal form of a database

Whatever a text looks like, the accounts with a length that are read from it are those of one
list of entries and no other, so that a database can be written again from what was read.
-/
namespace Padre
open CString Rows

theorem notMem_upto {field : List UInt8} {b : UInt8} (h : b ∉ field) : b ∉ (CStr.upto field).bytes :=
  fun hb => h ((List.takeWhile_sublist _).subset hb)

/-- A field of a row, as a string. -/
def plainField {field : List UInt8} (hc : comma ∉ field) (hn : newline ∉ field) : PlainField :=
  ⟨CStr.upto field,notMem_upto hc,notMem_upto hn⟩

/-- An account with a length comes from a row with all five fields. -/
theorem exists_entry {row : List UInt8} (hn : newline ∉ row) (hlength : (rowAccount row).length ≠ 0) :
    ∃ e : Entry, e.account = { rowAccount row with characters := closedField (lastField row) } := by
  cases rowShape row with
  | one hc => simp [rowAccount, rowFields_one hc, Account.null] at hlength
  | two hd hc => simp [rowAccount, rowFields_two hd hc, Account.null] at hlength
  | three hd hu hc => simp [rowAccount, rowFields_three hd hu hc, Account.null] at hlength
  | four hd hu hi hc => simp [rowAccount, rowFields_four hd hu hi hc] at hlength
  | @full d u i l c hd hu hi hl =>
    simp only [rowAccount, rowFields_full hd hu hi hl] at hlength
    simp only [List.mem_append, List.mem_cons, not_or] at hn
    obtain ⟨hdn,-,hun,-,hin,-,-,-,hcn⟩ := hn
    have hmax := atoi_le l
    refine ⟨⟨plainField hd hdn,plainField hu hun,plainField hi hin,(atoi l).toNat,by omega,by omega,
      ⟨CStr.upto c,notMem_upto hcn⟩⟩,?_⟩
    simp [Entry.account, plainField, rowAccount, lastField, rowFields_full hd hu hi hl, closedField]

theorem Entry.account_injective : Function.Injective Entry.account := by
  rintro ⟨⟨d,_,_⟩,⟨u,_,_⟩,⟨i,_,_⟩,l,_,_,⟨c,_⟩⟩ ⟨⟨d',_,_⟩,⟨u',_,_⟩,⟨i',_,_⟩,l',_,_,⟨c',_⟩⟩ h
  simp only [Entry.account, Account.mk.injEq, Option.some.injEq] at h
  obtain ⟨rfl,rfl,rfl,rfl,rfl⟩ := h
  rfl

/-- The entries whose accounts have a length. -/
theorem exists_entries (text z : List UInt8) :
    ∃ es : List Entry, es.map Entry.account =
      (textEntries text ++ lastEntry (rest newline text) (0 :: z)).filter fun a => a.length ≠ 0 := by
  obtain ⟨hrows,hrest⟩ : (∀ r ∈ rows newline text, newline ∉ r) ∧ newline ∉ rest newline text :=
    notMem_of_mem_split text
  have hrange : ((textEntries text ++ lastEntry (rest newline text) (0 :: z)).filter fun a => a.length ≠ 0) ∈
      Set.range (List.map Entry.account) := by
    rw [Set.range_list_map]
    intro a ha
    obtain ⟨hmem,hlength⟩ := List.mem_filter.mp ha
    have hlength : a.length ≠ 0 := by simpa using hlength
    rcases List.mem_append.mp hmem with hmem | hmem
    · obtain ⟨row,hrow,hentry⟩ := List.mem_filterMap.mp hmem
      rw [rowEntry] at hentry
      split_ifs at hentry
      obtain rfl := Option.some.inj hentry
      exact exists_entry (hrows row hrow) hlength
    · rw [lastEntry_nul] at hmem
      split_ifs at hmem
      · cases hmem
      · obtain rfl := List.mem_singleton.mp hmem
        exact exists_entry hrest hlength
  exact hrange

theorem read_database (es : List Entry) (tail : List UInt8) :
    (parseText [] (database es) tail).read = es.map Entry.account := by
  have hfree : ∀ r ∈ es.map Entry.row, newline ∉ r := List.forall_mem_map.mpr fun e _ => e.newline_notMem_row
  have haccepted : ∀ r ∈ es.map Entry.row, rowRejected r = false :=
    List.forall_mem_map.mpr fun e _ => e.row_not_rejected
  have hentry : rowEntry ∘ Entry.row = fun e => some e.account := funext fun e => e.rowEntry_row
  have hread := parseAccounts_rows (es.map Entry.row) hfree haccepted tail
  rw [List.flatMap_map, List.filterMap_map, hentry, List.filterMap_eq_map'] at hread
  rw [parseText_nil]
  exact hread

/-- For every text with a terminator behind it there is exactly one list of entries whose
database is read as the accounts of the text that have a length. -/
theorem parseText_normal (pre text z : List UInt8) :
    ∃! es : List Entry, ∀ tail, (parseText [] (database es) tail).read =
      (parseText pre text (0 :: z)).read.filter fun a => a.length ≠ 0 := by
  have hexists : ∃ es : List Entry,
      es.map Entry.account = (parseText pre text (0 :: z)).read.filter fun a => a.length ≠ 0 := by
    by_cases hr : textRejected text = true
    · refine ⟨[],?_⟩
      rw [read_rejected hr]
      rfl
    · rw [(parseText_accepted pre (0 :: z) (by simpa using hr)).2]
      exact exists_entries text z
  obtain ⟨es,hes⟩ := hexists
  refine ⟨es,fun tail => (read_database es tail).trans hes,?_⟩
  intro es' hread
  have hsame := (read_database es' []).symm.trans ((hread []).trans hes.symm)
  exact List.map_injective_iff.mpr Entry.account_injective hsame

end Padre
