import Padre.Database.TextReader
import Padre.General.Rows

/-! # What a row means

The account a row describes, stated on the row as a whole: its first four separators cut
it into fields, and the number of fields decides what the row is. `readBytes_row` shows
that the reader computes exactly this.
-/
namespace Padre
open CString Rows

/-- The fields of a row; the last one is the pattern, commas and all. -/
def rowFields (row : List UInt8) : List (List UInt8) := fields comma 4 row

/-- The account in front of the last field of a row. -/
def rowAccount (row : List UInt8) : Account (Option CStr) :=
  match rowFields row with
  | [d,_] => { Account.null with domain := closedField d }
  | [d,u,_] => { Account.null with domain := closedField d, username := closedField u }
  | [d,u,i,_] => ⟨closedField d,closedField u,closedField i,none,0⟩
  | [d,u,i,l,_] => ⟨closedField d,closedField u,closedField i,none,(atoi l).toNat⟩
  | _ => Account.null

def lastField (row : List UInt8) : List UInt8 := (rowFields row).getLastD []

/-- The length of the row is written and is not positive. -/
def rowRejected (row : List UInt8) : Bool :=
  match rowFields row with
  | [_,_,_,l,_] => decide (atoi l ≤ 0)
  | _ => false

/-- The row as the scan leaves it. -/
def cutRow (row : List UInt8) : List UInt8 := [0].intercalate (rowFields row)

/-- The account of a terminated row, unless the row is skipped. -/
def rowEntry (row : List UInt8) : Option (Account (Option CStr)) :=
  if (rowAccount row).domain = none ∨ (rowAccount row).username = none then none
  else some { rowAccount row with characters := closedField (lastField row) }

/-- Every row is one of these, by the number of its separators. -/
inductive RowShape : List UInt8 → Prop where
  | one {c} : comma ∉ c → RowShape c
  | two {d c} : comma ∉ d → comma ∉ c → RowShape (d ++ comma :: c)
  | three {d u c} : comma ∉ d → comma ∉ u → comma ∉ c → RowShape (d ++ comma :: (u ++ comma :: c))
  | four {d u i c} : comma ∉ d → comma ∉ u → comma ∉ i → comma ∉ c →
      RowShape (d ++ comma :: (u ++ comma :: (i ++ comma :: c)))
  | full {d u i l c} : comma ∉ d → comma ∉ u → comma ∉ i → comma ∉ l →
      RowShape (d ++ comma :: (u ++ comma :: (i ++ comma :: (l ++ comma :: c))))

theorem rowShape (row : List UInt8) : RowShape row := by
  by_cases h1 : comma ∈ row
  swap
  · exact .one h1
  obtain ⟨d,r,rfl,hd⟩ := exists_first h1
  by_cases h2 : comma ∈ r
  swap
  · exact .two hd h2
  obtain ⟨u,r,rfl,hu⟩ := exists_first h2
  by_cases h3 : comma ∈ r
  swap
  · exact .three hd hu h3
  obtain ⟨i,r,rfl,hi⟩ := exists_first h3
  by_cases h4 : comma ∈ r
  swap
  · exact .four hd hu hi h4
  obtain ⟨l,c,rfl,hl⟩ := exists_first h4
  exact .full hd hu hi hl

section Fields
variable {d u i l c : List UInt8}

theorem rowFields_one (hc : comma ∉ c) : rowFields c = [c] := fields_last hc 4

theorem rowFields_two (hd : comma ∉ d) (hc : comma ∉ c) : rowFields (d ++ comma :: c) = [d,c] := by
  rw [rowFields, fields_field hd, fields_last hc]

theorem rowFields_three (hd : comma ∉ d) (hu : comma ∉ u) (hc : comma ∉ c) :
    rowFields (d ++ comma :: (u ++ comma :: c)) = [d,u,c] := by
  rw [rowFields, fields_field hd, fields_field hu, fields_last hc]

theorem rowFields_four (hd : comma ∉ d) (hu : comma ∉ u) (hi : comma ∉ i) (hc : comma ∉ c) :
    rowFields (d ++ comma :: (u ++ comma :: (i ++ comma :: c))) = [d,u,i,c] := by
  rw [rowFields, fields_field hd, fields_field hu, fields_field hi, fields_last hc]

theorem rowFields_full (hd : comma ∉ d) (hu : comma ∉ u) (hi : comma ∉ i) (hl : comma ∉ l) :
    rowFields (d ++ comma :: (u ++ comma :: (i ++ comma :: (l ++ comma :: c)))) = [d,u,i,l,c] := by
  rw [rowFields, fields_field hd, fields_field hu, fields_field hi, fields_field hl, fields_zero]

end Fields

/-- The reader at the start of a row. -/
def rowStart (cut : List UInt8) (accounts : List (Account (Option CStr)))
    (stderr : List Diagnostic) : TextState :=
  ⟨cut,[],Account.null,accounts,stderr⟩

theorem readBytes_append (t : TextState) (s₁ s₂ : List UInt8) :
    readBytes t (s₁ ++ s₂) = readBytes t s₁ >>= fun u => readBytes u s₂ := by
  simp [readBytes, List.foldlM_append]

theorem readBytes_plain {s : List UInt8} (t : TextState) (hs : ∀ u : TextState, u.account = t.account →
      ∀ b ∈ s, readByte u b = .ok { u with cut := u.cut ++ [b], field := u.field ++ [b] }) :
    readBytes t s = .ok { t with cut := t.cut ++ s, field := t.field ++ s } := by
  induction s generalizing t with
  | nil => simp [readBytes, Pure.pure, Except.pure]
  | cons b s ih =>
    have hb := hs t rfl b (List.mem_cons_self ..)
    have hrest := ih { t with cut := t.cut ++ [b], field := t.field ++ [b] }
      fun u hu c hc => hs u hu c (List.mem_cons_of_mem _ hc)
    rw [readBytes_cons, hb]
    simpa [bind, Except.bind] using hrest

theorem readBytes_field (t : TextState) {s : List UInt8} (hn : newline ∉ s) (hc : comma ∉ s) :
    readBytes t s = .ok { t with cut := t.cut ++ s, field := t.field ++ s } := by
  apply readBytes_plain t
  intro u _ b hb
  simp [readByte, ne_of_mem_of_not_mem hb hn, ne_of_mem_of_not_mem hb hc]

theorem readBytes_pattern (t : TextState) {s : List UInt8} (hn : newline ∉ s)
    (hd : t.account.domain ≠ none) (hu : t.account.username ≠ none)
    (hi : t.account.iteration ≠ none) (hl : t.account.length ≠ 0) :
    readBytes t s = .ok { t with cut := t.cut ++ s, field := t.field ++ s } := by
  apply readBytes_plain t
  intro u hu' b hb
  simp [readByte, ne_of_mem_of_not_mem hb hn, hu', hd, hu, hi, hl]

theorem readBytes_field_comma (t : TextState) {f : List UInt8} (hn : newline ∉ f) (hc : comma ∉ f)
    (s : List UInt8) : readBytes t (f ++ comma :: s) =
      readByte { t with cut := t.cut ++ f, field := t.field ++ f } comma >>= fun u => readBytes u s := by
  rw [readBytes_append, readBytes_field t hn hc]
  rfl

section Row
variable {row cut : List UInt8} {accounts : List (Account (Option CStr))} {stderr : List Diagnostic}

theorem readBytes_row (hn : newline ∉ row) (hr : rowRejected row = false) :
    readBytes (rowStart cut accounts stderr) row =
      .ok ⟨cut ++ cutRow row,lastField row,rowAccount row,accounts,stderr⟩ := by
  have hcn : comma ≠ newline := by decide
  cases rowShape row with
  | one hc =>
    rw [readBytes_field _ hn hc]
    simp [rowStart, cutRow, lastField, rowAccount, rowFields_one hc]
  | @two d c hd hc =>
    obtain ⟨hnd,-,hnc⟩ : newline ∉ d ∧ newline ≠ comma ∧ newline ∉ c := by simpa using hn
    rw [readBytes_field_comma _ hnd hd]
    simp [readByte, hcn, rowStart, Account.null, bind, Except.bind, readBytes_field _ hnc hc,
      cutRow, lastField, rowAccount, rowFields_two hd hc, List.intercalate]
  | @three d u c hd hu hc =>
    obtain ⟨hnd,-,hnu,-,hnc⟩ : newline ∉ d ∧ newline ≠ comma ∧ newline ∉ u ∧ newline ≠ comma ∧
      newline ∉ c := by simpa using hn
    rw [readBytes_field_comma _ hnd hd]
    simp [readByte, hcn, rowStart, Account.null, bind, Except.bind, closedField,
      readBytes_field_comma _ hnu hu, readBytes_field _ hnc hc,
      cutRow, lastField, rowAccount, rowFields_three hd hu hc, List.intercalate]
  | @four d u i c hd hu hi hc =>
    obtain ⟨hnd,-,hnu,-,hni,-,hnc⟩ : newline ∉ d ∧ newline ≠ comma ∧ newline ∉ u ∧
      newline ≠ comma ∧ newline ∉ i ∧ newline ≠ comma ∧ newline ∉ c := by simpa using hn
    rw [readBytes_field_comma _ hnd hd]
    simp [readByte, hcn, rowStart, Account.null, bind, Except.bind, closedField,
      readBytes_field_comma _ hnu hu, readBytes_field_comma _ hni hi, readBytes_field _ hnc hc,
      cutRow, lastField, rowAccount, rowFields_four hd hu hi hc, List.intercalate]
  | @full d u i l c hd hu hi hl =>
    obtain ⟨hnd,-,hnu,-,hni,-,hnl,-,hnc⟩ : newline ∉ d ∧ newline ≠ comma ∧ newline ∉ u ∧
      newline ≠ comma ∧ newline ∉ i ∧ newline ≠ comma ∧ newline ∉ l ∧ newline ≠ comma ∧
      newline ∉ c := by simpa using hn
    have hpos : ¬ atoi l ≤ 0 := by simpa [rowRejected, rowFields_full hd hu hi hl] using hr
    have htmp : ¬ (atoi l = 0 ∨ atoi l < 0) := by omega
    have hlen : ¬ (atoi l).toNat = 0 := by omega
    rw [readBytes_field_comma _ hnd hd]
    simp only [readByte, rowStart, Account.null, bind, Except.bind, closedField, if_neg hcn, if_true,
      readBytes_field_comma _ hnu hu, readBytes_field_comma _ hni hi,
      readBytes_field_comma _ hnl hl, reduceCtorEq, if_false, List.nil_append, if_neg htmp]
    rw [readBytes_pattern _ hnc (by simp) (by simp) (by simp) (by simpa using hlen)]
    simp [cutRow, lastField, rowAccount, closedField, rowFields_full hd hu hi hl, List.intercalate]

theorem readBytes_rejected (hn : newline ∉ row) (hr : rowRejected row = true) (s : List UInt8) :
    ∃ t, readBytes (rowStart cut accounts stderr) (row ++ s) = .error t ∧
      t.stderr = stderr ++ [.invalidLength (accounts.length + 1)] := by
  have hcn : comma ≠ newline := by decide
  cases rowShape row with
  | one hc => simp [rowRejected, rowFields_one hc] at hr
  | two hd hc => simp [rowRejected, rowFields_two hd hc] at hr
  | three hd hu hc => simp [rowRejected, rowFields_three hd hu hc] at hr
  | four hd hu hi hc => simp [rowRejected, rowFields_four hd hu hi hc] at hr
  | @full d u i l c hd hu hi hl =>
    obtain ⟨hnd,-,hnu,-,hni,-,hnl,-⟩ : newline ∉ d ∧ newline ≠ comma ∧ newline ∉ u ∧
      newline ≠ comma ∧ newline ∉ i ∧ newline ≠ comma ∧ newline ∉ l ∧ newline ≠ comma ∧
      newline ∉ c := by simpa using hn
    have hle : atoi l ≤ 0 := by simpa [rowRejected, rowFields_full hd hu hi hl] using hr
    have htmp : atoi l = 0 ∨ atoi l < 0 := by omega
    rw [List.append_assoc, List.cons_append, readBytes_field_comma _ hnd hd]
    simp [readByte, hcn, rowStart, Account.null, bind, Except.bind, closedField,
      readBytes_field_comma _ hnu hu, readBytes_field_comma _ hni hi,
      readBytes_field_comma _ hnl hl, htmp]

/-- What a terminated row prints. -/
def rowMessages (accepted : ℕ) (row : List UInt8) : List Diagnostic :=
  if rowEntry row = none then [.invalidEntry (accepted + 1)] else []

theorem readBytes_row_newline (hn : newline ∉ row) (hr : rowRejected row = false) (s : List UInt8) :
    readBytes (rowStart cut accounts stderr) (row ++ newline :: s) =
      readBytes (rowStart (cut ++ (cutRow row ++ [0])) (accounts ++ (rowEntry row).toList)
        (stderr ++ rowMessages accounts.length row)) s := by
  rw [readBytes_append, readBytes_row hn hr]
  simp only [bind, Except.bind, readBytes_cons, readByte, if_true, rowEntry, rowMessages]
  by_cases hnull : (rowAccount row).domain = none ∨ (rowAccount row).username = none
  · simp [hnull, rowStart]
  · simp [hnull, rowStart]

end Row

/-- Whether some row of the text, the last one included, has a rejected length. -/
def textRejected (text : List UInt8) : Bool :=
  (rows newline text).any rowRejected || rowRejected (rest newline text)

def textEntries (text : List UInt8) : List (Account (Option CStr)) :=
  (rows newline text).filterMap rowEntry

/-- The text as the scan leaves it. -/
def cutText (text : List UInt8) : List UInt8 :=
  ((rows newline text).flatMap fun row => cutRow row ++ [0]) ++ cutRow (rest newline text)

/-- Reading a text without rejected rows. -/
theorem readBytes_text (text : List UInt8) (cut : List UInt8)
    (accounts : List (Account (Option CStr))) (stderr : List Diagnostic)
    (h : textRejected text = false) :
    ∃ stderr', readBytes (rowStart cut accounts stderr) text =
      .ok ⟨cut ++ cutText text,lastField (rest newline text),rowAccount (rest newline text),
        accounts ++ textEntries text,stderr'⟩ := by
  induction text using text_induction newline generalizing cut accounts stderr with
  | last r hn =>
    have hr : rowRejected r = false := by simpa [textRejected, rows_rest hn, rest_rest hn] using h
    exact ⟨stderr,by
      simp [readBytes_row hn hr, cutText, textEntries, rows_rest hn, rest_rest hn]⟩
  | row r s hn ih =>
    simp only [textRejected, rows_row hn, rest_row hn, List.any_cons, Bool.or_eq_false_iff] at h
    obtain ⟨⟨hr,hrows⟩,hrest⟩ := h
    rw [readBytes_row_newline hn hr]
    obtain ⟨stderr',hread⟩ := ih (cut ++ (cutRow r ++ [0])) (accounts ++ (rowEntry r).toList)
      (stderr ++ rowMessages accounts.length r) (by simp [textRejected, hrows, hrest])
    refine ⟨stderr',hread.trans ?_⟩
    cases hentry : rowEntry r <;>
      simp [cutText, textEntries, rows_row hn, rest_row hn, hentry]

theorem readBytes_text_rejected (text : List UInt8) (cut : List UInt8)
    (accounts : List (Account (Option CStr))) (stderr : List Diagnostic)
    (h : textRejected text = true) :
    ∃ t, readBytes (rowStart cut accounts stderr) text = .error t := by
  induction text using text_induction newline generalizing cut accounts stderr with
  | last r hn =>
    have hr : rowRejected r = true := by simpa [textRejected, rows_rest hn, rest_rest hn] using h
    obtain ⟨t,hread,-⟩ := readBytes_rejected hn hr []
    exact ⟨t,by rwa [List.append_nil] at hread⟩
  | row r s hn ih =>
    cases hr : rowRejected r with
    | true =>
      obtain ⟨t,hread,-⟩ := readBytes_rejected hn hr (newline :: s)
      exact ⟨t,hread⟩
    | false =>
      rw [readBytes_row_newline hn hr]
      exact ih _ _ _ (by simpa [textRejected, rows_row hn, rest_row hn, hr] using h)

end Padre
