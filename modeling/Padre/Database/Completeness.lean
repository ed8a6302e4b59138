import Padre.Database.Contents

/-! # When every returned account is complete

`main` hands an account to `strlen` and to `enumerate_charset` and so relies on all of its
fields. The scanner asks for the domain and the username at the end of a row and for
nothing at the end of the text. The rows of a text on which this is enough are told by
their number of commas.
-/
namespace Padre
open CString Rows

namespace Account
variable {P Q : Type}

/-- No null pointer and a positive length. -/
@[mk_iff] structure Complete (a : Account P) : Prop where
  domain : a.domain ≠ none
  username : a.username ≠ none
  iteration : a.iteration ≠ none
  characters : a.characters ≠ none
  length : 1 ≤ a.length

theorem complete_map (f : P → Q) (a : Account P) : (a.map f).Complete ↔ a.Complete := by
  simp [complete_iff, map]

end Account

/-- A terminated row that is skipped or has all five fields. -/
def rowIsWhole (row : List UInt8) : Prop := row.count comma ≤ 1 ∨ 4 ≤ row.count comma

/-- A rest of which nothing is returned or that has all five fields. -/
def restIsWhole (row : List UInt8) : Prop :=
  row = [] ∨ row.getLast? = some comma ∨ 4 ≤ row.count comma

/-- The texts the scanner returns only complete accounts for. -/
def textIsWhole (text : List UInt8) : Prop :=
  textRejected text = true ∨
    (∀ row ∈ rows newline text, rowIsWhole row) ∧ restIsWhole (rest newline text)

theorem rowAccount_filled (row : List UInt8) :
    ((rowAccount row).domain = none ↔ row.count comma < 1) ∧
    ((rowAccount row).username = none ↔ row.count comma < 2) ∧
    ((rowAccount row).iteration = none ↔ row.count comma < 3) := by
  cases rowShape row with
  | one hc => simp [rowAccount, rowFields_one hc, Account.null, List.count_eq_zero_of_not_mem hc]
  | two hd hc =>
    simp [rowAccount, rowFields_two hd hc, Account.null, closedField, List.count_eq_zero_of_not_mem hd,
      List.count_eq_zero_of_not_mem hc]
  | three hd hu hc =>
    simp [rowAccount, rowFields_three hd hu hc, Account.null, closedField,
      List.count_eq_zero_of_not_mem hd, List.count_eq_zero_of_not_mem hu,
      List.count_eq_zero_of_not_mem hc]
  | four hd hu hi hc =>
    simp [rowAccount, rowFields_four hd hu hi hc, closedField, List.count_eq_zero_of_not_mem hd,
      List.count_eq_zero_of_not_mem hu, List.count_eq_zero_of_not_mem hi,
      List.count_eq_zero_of_not_mem hc]
  | full hd hu hi hl =>
    simp [rowAccount, rowFields_full hd hu hi hl, closedField, List.count_eq_zero_of_not_mem hd,
      List.count_eq_zero_of_not_mem hu, List.count_eq_zero_of_not_mem hi,
      List.count_eq_zero_of_not_mem hl]

theorem rowAccount_length {row : List UInt8} (hr : rowRejected row = false) :
    1 ≤ (rowAccount row).length ↔ 4 ≤ row.count comma := by
  cases rowShape row with
  | one hc => simp [rowAccount, rowFields_one hc, Account.null, List.count_eq_zero_of_not_mem hc]
  | two hd hc =>
    simp [rowAccount, rowFields_two hd hc, Account.null, List.count_eq_zero_of_not_mem hd,
      List.count_eq_zero_of_not_mem hc]
  | three hd hu hc =>
    simp [rowAccount, rowFields_three hd hu hc, Account.null, List.count_eq_zero_of_not_mem hd,
      List.count_eq_zero_of_not_mem hu, List.count_eq_zero_of_not_mem hc]
  | four hd hu hi hc =>
    simp [rowAccount, rowFields_four hd hu hi hc, List.count_eq_zero_of_not_mem hd,
      List.count_eq_zero_of_not_mem hu, List.count_eq_zero_of_not_mem hi,
      List.count_eq_zero_of_not_mem hc]
  | @full d u i l c hd hu hi hl =>
    have hpos : 0 < atoi l := by simpa [rowRejected, rowFields_full hd hu hi hl] using hr
    simp [rowAccount, rowFields_full hd hu hi hl, List.count_eq_zero_of_not_mem hd,
      List.count_eq_zero_of_not_mem hu, List.count_eq_zero_of_not_mem hi,
      List.count_eq_zero_of_not_mem hl]
    omega

/-- The account of a row is complete if four separators closed the fields before the
pattern. -/
theorem rowAccount_complete {row : List UInt8} (hr : rowRejected row = false) (p : Option CStr) :
    ({ rowAccount row with characters := some p } : Account (Option CStr)).Complete ↔
      4 ≤ row.count comma := by
  obtain ⟨hd,hu,hi⟩ := rowAccount_filled row
  simp only [Account.complete_iff, ne_eq, hd, hu, hi, rowAccount_length hr, reduceCtorEq,
    not_false_eq_true, true_and]
  omega

/-- The newline case keeps the rows with two commas. -/
theorem rowEntry_eq (row : List UInt8) :
    rowEntry row = if row.count comma ≤ 1 then none
      else some { rowAccount row with characters := closedField (lastField row) } := by
  obtain ⟨hdomain,husername,-⟩ := rowAccount_filled row
  unfold rowEntry
  by_cases hskip : row.count comma ≤ 1
  · rw [if_pos hskip, if_pos (Or.inr (husername.mpr (by omega)))]
  · have hkeep : ¬ ((rowAccount row).domain = none ∨ (rowAccount row).username = none) := by
      rw [hdomain, husername]
      omega
    rw [if_neg hskip, if_neg hkeep]

theorem rowEntry_eq_none_iff (row : List UInt8) : rowEntry row = none ↔ row.count comma ≤ 1 := by
  rw [rowEntry_eq]
  by_cases hskip : row.count comma ≤ 1
  · simp [hskip]
  · simp [hskip]

theorem rowEntry_complete {row : List UInt8} (hr : rowRejected row = false) :
    (∀ a ∈ rowEntry row, a.Complete) ↔ rowIsWhole row := by
  have hcomplete := rowAccount_complete hr (some (CStr.upto (lastField row)))
  by_cases hskip : row.count comma ≤ 1
  · simp [rowEntry_eq, rowIsWhole, hskip]
  · simpa [rowEntry_eq, rowIsWhole, hskip, closedField] using hcomplete

theorem lastEntry_complete {row : List UInt8} (hr : rowRejected row = false) (tail : List UInt8) :
    (∀ a ∈ lastEntry row tail, a.Complete) ↔ restIsWhole row := by
  have hcomplete := rowAccount_complete hr (headStr (lastField row ++ tail))
  by_cases hwhole : 4 ≤ row.count comma
  · refine iff_of_true (fun a ha => ?_) (Or.inr (Or.inr hwhole))
    unfold lastEntry at ha
    split at ha
    · cases ha
    · obtain rfl := List.mem_singleton.mp ha
      exact hcomplete.mpr hwhole
  · have hlast : lastField row = [] ↔ row = [] ∨ row.getLast? = some comma :=
      last_eq_nil_iff (k := 4) (by omega)
    by_cases hnil : lastField row = []
    · refine iff_of_true ?_ ((hlast.mp hnil).imp_right Or.inl)
      intro a ha
      simp [lastEntry, hnil] at ha
    · simpa [lastEntry, hnil, restIsWhole, ← or_assoc, ← hlast, hwhole] using hcomplete

theorem textEntries_complete {text : List UInt8} (hr : textRejected text = false) :
    (∀ a ∈ textEntries text, a.Complete) ↔ ∀ row ∈ rows newline text, rowIsWhole row := by
  have hrows : ∀ row ∈ rows newline text, rowRejected row = false := by
    intro row hrow
    by_contra h
    have : textRejected text = true := by
      rw [textRejected, Bool.or_eq_true, List.any_eq_true]
      exact Or.inl ⟨row,hrow,by simpa using h⟩
    rw [hr] at this
    cases this
  constructor
  · intro h row hrow
    refine (rowEntry_complete (hrows row hrow)).mp fun a ha => h a ?_
    exact List.mem_filterMap.mpr ⟨row,hrow,ha⟩
  · intro h a ha
    obtain ⟨row,hrow,hentry⟩ := List.mem_filterMap.mp ha
    exact (rowEntry_complete (hrows row hrow)).mpr (h row hrow) a hentry

/-- All accounts `parse_accounts` returns are complete exactly on the whole texts. -/
theorem parseAccounts_complete_iff (text tail : List UInt8) :
    (∀ a ∈ (parseAccounts (text ++ tail) 0 text.length).list.entries, a.Complete) ↔
      textIsWhole text := by
  rw [← parseText_nil]
  cases hr : textRejected text with
  | true =>
    rw [parseText_rejected [] tail hr, AccountList.entries_free]
    simp [textIsWhole, hr]
  | false =>
    have hrest : rowRejected (rest newline text) = false := by
      rw [textRejected, Bool.or_eq_false_iff] at hr
      exact hr.2
    have hread := (parseText_accepted [] tail hr).2
    have hpointers : (∀ a ∈ (parseText [] text tail).list.entries, a.Complete) ↔
        ∀ a ∈ (parseText [] text tail).read, a.Complete := by
      simp [Parsed.read, Account.complete_map]
    rw [hpointers, hread]
    simp only [List.mem_append, or_imp, forall_and, textEntries_complete hr,
      lastEntry_complete hrest, textIsWhole, hr, Bool.false_eq_true, false_or]

/-- A row of two commas is accepted without an iteration and without a length. -/
theorem parseAccounts_incomplete :
    ¬ ∀ a ∈ (parseAccounts (literal "a,b,\n") 0 5).list.entries, a.Complete := by
  intro h
  have hmem : (⟨some 0,some 2,none,some 4,0⟩ : Account ℕ) ∈
      (parseAccounts (literal "a,b,\n") 0 5).list.entries := by decide
  exact (h _ hmem).iteration rfl

end Padre
