import Padre.Database.LastRow
import Padre.Run.Selection
import Padre.Run.SizeLimit

/-! # A database that breaks off

`read_entire_file` takes the first read without bytes for the end of the file and does not
ask `ferror`, so the bytes in front of a read error are parsed as if they were the whole
file. `determine_account` selects nothing from them only when it would select nothing from
a file that ends there.
-/
namespace Padre
open CString Rows Trace

/-- A stream that meets a read error: the successful reads, what the call that meets the error
still stores, perhaps nothing, and what calls behind the error would store. -/
structure BrokenStream where
  before : List Chunk
  short : Chunk
  later : List Chunk
  before_read : ∀ chunk ∈ before, chunk.bytes ≠ []
  short_lt : short.bytes.length < CHUNK_SIZE

/-- What the calls of `fread` store, one after the other. -/
def BrokenStream.reads (stream : BrokenStream) : List Chunk :=
  stream.before ++ stream.short :: stream.later

/-- The accounts of a text with `tail` behind it in its object. -/
def storedAccounts (text tail : List UInt8) : List (Account (Option CStr)) :=
  if textRejected text then [] else textEntries text ++ lastEntry (rest newline text) tail

/-- The entries of a text: the rows with two commas or more, and the rest when something
follows its last separator. -/
def entryCount (text : List UInt8) : ℕ :=
  if textRejected text then 0
  else (rows newline text).countP (fun row => decide (2 ≤ row.count comma)) +
    if lastField (rest newline text) = [] then 0 else 1

/-- The items of the menu for a text; the pattern of an account is not shown. -/
def menuItems (text : List UInt8) : List TuiItem := (storedAccounts text [0]).filterMap tuiItem

/-- What makes `determine_account` select nothing from a file with these bytes: the size limit,
no entry, or several entries of which none is chosen. -/
def SelectsNothing (w : World) (text : List UInt8) : Prop :=
  MAX_DATABASE_FILE_SIZE < text.length + CHUNK_SIZE ∨ entryCount text = 0 ∨
    2 ≤ entryCount text ∧ (w.curses.postMenu (menuItems text) ≠ E_OK ∨ ¬ Chooses w.curses.getch)

theorem parseText_read (text tail : List UInt8) :
    (parseText [] text tail).read = storedAccounts text tail := by
  unfold storedAccounts
  by_cases hr : textRejected text = true
  · rw [if_pos hr, read_rejected hr]
  · rw [if_neg hr, (parseText_accepted [] tail (by simpa using hr)).2]

/-- The fields of a row that the menu shows are terminated. -/
theorem tuiItem_rowAccount (row : List UInt8) (characters : Option (Option CStr)) :
    tuiItem { rowAccount row with characters := characters } ≠ none := by
  cases rowShape row with
  | one hc => simp [rowAccount, rowFields_one hc, tuiItem, formatStr, Account.null]
  | two hd hc => simp [rowAccount, rowFields_two hd hc, tuiItem, formatStr, Account.null]
  | three hd hu hc =>
    simp [rowAccount, rowFields_three hd hu hc, tuiItem, formatStr, Account.null, closedField]
  | four hd hu hi hc => simp [rowAccount, rowFields_four hd hu hi hc, tuiItem, formatStr, closedField]
  | full hd hu hi hl => simp [rowAccount, rowFields_full hd hu hi hl, tuiItem, formatStr, closedField]

section Stored
variable {text tail : List UInt8} {a : Account (Option CStr)}

theorem exists_of_mem_stored (h : a ∈ storedAccounts text tail) :
    ∃ row characters, a = { rowAccount row with characters := some characters } := by
  unfold storedAccounts at h
  split at h
  · cases h
  · rcases List.mem_append.mp h with h | h
    · obtain ⟨row,-,hentry⟩ := List.mem_filterMap.mp h
      rw [rowEntry_eq] at hentry
      split at hentry
      · cases hentry
      · exact ⟨row,_,(Option.some.inj hentry).symm⟩
    · unfold lastEntry at h
      split at h
      · cases h
      · exact ⟨_,_,List.mem_singleton.mp h⟩

theorem ne_null_of_mem_stored (h : a ∈ storedAccounts text tail) : a ≠ Account.null := by
  obtain ⟨row,characters,rfl⟩ := exists_of_mem_stored h
  intro hnull
  have hfield := congrArg Account.characters hnull
  cases hfield

theorem tuiItem_of_mem_stored (h : a ∈ storedAccounts text tail) : tuiItem a ≠ none := by
  obtain ⟨row,characters,rfl⟩ := exists_of_mem_stored h
  exact tuiItem_rowAccount row (some characters)

theorem length_textEntries (text : List UInt8) :
    (textEntries text).length = (rows newline text).countP (fun row => decide (2 ≤ row.count comma)) := by
  rw [textEntries, List.length_filterMap_eq_countP]
  apply List.countP_congr
  intro row _
  have hnone := rowEntry_eq_none_iff row
  cases hentry : rowEntry row with
  | none =>
    have hskip := hnone.mp hentry
    simp
    omega
  | some a =>
    have hkeep : ¬ row.count comma ≤ 1 := by simp [← hnone, hentry]
    simp
    omega

theorem length_lastEntry (row tail : List UInt8) :
    (lastEntry row tail).length = if lastField row = [] then 0 else 1 := by
  unfold lastEntry
  split
  · rfl
  · rfl

theorem length_stored (text tail : List UInt8) : (storedAccounts text tail).length = entryCount text := by
  unfold storedAccounts entryCount
  split
  · rfl
  · rw [List.length_append, length_textEntries, length_lastEntry]

theorem stored_items (text tail : List UInt8) : (storedAccounts text tail).filterMap tuiItem = menuItems text := by
  unfold menuItems storedAccounts
  split
  · rfl
  · rw [List.filterMap_append, List.filterMap_append]
    congr 1
    unfold lastEntry
    split
    · rfl
    · rfl

end Stored

/-- On a file that is not refused `determine_account` is the choice among what was read. -/
theorem determineAccount_stored {w : World} {options : CliOpts} {path : CStr} {chunks : List Chunk}
    (hdatabase : options.username = none) (hpath : options.domainOrDatabase = some path)
    (hopen : openStream w path = some chunks)
    (hfits : (delivered chunks).length + CHUNK_SIZE ≤ MAX_DATABASE_FILE_SIZE) :
    ∃ tail, ∀ fuel, (determineAccount w fuel options).result =
      (accountFromList w fuel (storedAccounts (delivered chunks) tail)).result := by
  obtain ⟨buf,hrun,hlimit⟩ := readEntireFile_limit hopen
  obtain ⟨data,hdata⟩ := Option.ne_none_iff_exists'.mp (hlimit.mpr hfits)
  obtain ⟨⟨slack,rfl⟩,hsize,-,-⟩ := readEntireFile_collects hopen hrun hdata
  refine ⟨slack,?_⟩
  intro fuel
  rw [determineAccount, if_pos hdatabase, Run.emit_bind, hpath, Run.bind_of_ok hrun, hdata]
  simp only [hsize, ← parseText_nil, parseText_read, Run.emits_bind]

theorem determineAccount_refused {w : World} {options : CliOpts} {path : CStr} {chunks : List Chunk}
    (hdatabase : options.username = none) (hpath : options.domainOrDatabase = some path)
    (hopen : openStream w path = some chunks)
    (hlarge : MAX_DATABASE_FILE_SIZE < (delivered chunks).length + CHUNK_SIZE) (fuel : ℕ) :
    (determineAccount w fuel options).result = .ok (Account.null,0) := by
  obtain ⟨buf,hrun,hlimit⟩ := readEntireFile_limit hopen
  have hdata : buf.data = none := by
    by_contra hne
    have := hlimit.mp hne
    omega
  rw [determineAccount, if_pos hdatabase, Run.emit_bind, hpath, Run.bind_of_ok hrun, hdata]
  rfl

/-- Behind a read error nothing is selected exactly when nothing would be selected from a whole
file with the bytes that were read. -/
theorem determineAccount_broken_iff {w : World} {options : CliOpts} {path : CStr} {stream : BrokenStream}
    (hmenu : ∀ items request i, i < items → w.curses.menuDriver items request i < items)
    (hdatabase : options.username = none) (hpath : options.domainOrDatabase = some path)
    (hopen : openStream w path = some stream.reads) :
    (∀ fuel r, (determineAccount w fuel options).result = .ok r → r.1 = Account.null) ↔
      SelectsNothing w (delivered stream.reads) := by
  unfold SelectsNothing
  by_cases hfits : (delivered stream.reads).length + CHUNK_SIZE ≤ MAX_DATABASE_FILE_SIZE
  · obtain ⟨tail,hresult⟩ := determineAccount_stored hdatabase hpath hopen hfits
    have hselects := accountFromList_selects_iff hmenu
      (fun a ha => ne_null_of_mem_stored ha) fun a (ha : a ∈ storedAccounts (delivered stream.reads) tail) =>
        tuiItem_of_mem_stored ha
    rw [length_stored, stored_items] at hselects
    rw [or_iff_right (Nat.not_lt.mpr hfits)]
    simp only [hresult]
    exact hselects
  · refine iff_of_true ?_ (Or.inl (by omega))
    intro fuel r hr
    rw [determineAccount_refused hdatabase hpath hopen (by omega)] at hr
    cases hr
    rfl

/-- Of a database with one row, `a,b,0,8,xyz`, the reads up to an error deliver this. -/
def cutStream : BrokenStream where
  before := [⟨literal "a,b",by decide⟩]
  short := ⟨literal ",0,8,x",by decide⟩
  later := []
  before_read := by
    intro chunk h
    obtain rfl := List.mem_singleton.mp h
    decide
  short_lt := by decide

theorem determineAccount_broken_iff_cut :
    (∀ fuel r, (determineAccount (fileWorld cutStream.reads) fuel
        ⟨some (CStr.upto (literal "f")),none,none,none,0⟩).result = .ok r → r.1 = Account.null) ↔
      SelectsNothing (fileWorld cutStream.reads) (literal "a,b,0,8,x") :=
  determineAccount_broken_iff (fun _ _ _ hi => hi) rfl rfl (openStream_fileWorld cutStream.reads)

/-- The row that breaks off is selected, with the pattern cut short. -/
theorem determineAccount_broken :
    ¬ ∀ (w : World) (options : CliOpts) (path : CStr) (stream : BrokenStream),
      options.username = none → options.domainOrDatabase = some path →
      openStream w path = some stream.reads →
      ∀ fuel r, (determineAccount w fuel options).result = .ok r → r.1 = Account.null := by
  intro h
  have hopen := openStream_fileWorld cutStream.reads
  have hfits : (delivered cutStream.reads).length + CHUNK_SIZE ≤ MAX_DATABASE_FILE_SIZE := by decide
  let options : CliOpts := ⟨some (CStr.upto (literal "f")),none,none,none,0⟩
  obtain ⟨tail,hresult⟩ := determineAccount_stored (show options.username = none from rfl) rfl hopen hfits
  have hstored : storedAccounts (delivered cutStream.reads) tail =
      [⟨closedField (literal "a"),closedField (literal "b"),closedField (literal "0"),
        some (headStr (literal "x" ++ tail)),8⟩] := rfl
  have hnull := h _ options _ cutStream rfl rfl hopen 0 (_,0) (by rw [hresult, hstored]; rfl)
  have hfield := congrArg Account.characters hnull
  cases hfield

end Padre
