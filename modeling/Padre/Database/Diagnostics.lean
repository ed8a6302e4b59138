import Padre.Database.Frame
import Padre.Database.Neighbours

/-! # The lines that diagnostics name

The scan prints a message for every row it skips and for the row whose length it rejects, and
takes the number of accounts pushed so far for the number of rows above. Every skipped row
makes the two differ by one more, so the messages name the right lines exactly when there is
at most one of them.
-/
namespace Padre
open CString Rows

/-- The messages of a scan, row by row, with the line of a row a function of the text above. -/
def messages (line : List UInt8 → ℕ) (above : List UInt8) :
    (below : List (List UInt8)) → (last : List UInt8) → List Diagnostic
  | [], last => if rowRejected last then [.invalidLength (line above)] else []
  | row :: below, last =>
    if rowRejected row then [.invalidLength (line above)]
    else (if rowEntry row = none then [.invalidEntry (line above)] else []) ++
      messages line (above ++ (row ++ [newline])) below last

/-- The line a message reports. -/
def reportedLine (above : List UInt8) : ℕ := (textEntries above).length + 1

/-- The line a row is on. -/
def lineOf (above : List UInt8) : ℕ := above.count newline + 1

/-- The rows a message is printed for, up to the first whose length is rejected. -/
def faultyRows (text : List UInt8) : ℕ :=
  ((rows newline text).takeWhile fun row => !rowRejected row).countP (fun row => decide (row.count comma ≤ 1)) +
    if textRejected text then 1 else 0

section Above
variable {above row : List UInt8}

theorem rest_above_row (h : rest newline above = []) (hn : newline ∉ row) :
    rest newline (above ++ (row ++ [newline])) = [] := by
  rw [(rows_append h _).2, rest_row hn]
  rfl

theorem textEntries_above_row (h : rest newline above = []) (hn : newline ∉ row) :
    textEntries (above ++ (row ++ [newline])) = textEntries above ++ (rowEntry row).toList := by
  rw [textEntries_append h, textEntries, textEntries, rows_row hn]
  cases hentry : rowEntry row with
  | none => simp [hentry, rows, split]
  | some a => simp [hentry, rows, split]

theorem lineOf_above_row (hn : newline ∉ row) : lineOf (above ++ (row ++ [newline])) = lineOf above + 1 := by
  simp [lineOf, List.count_eq_zero_of_not_mem hn]

end Above

/-- The reader prints what the rows of the text make it print. -/
theorem readBytes_messages (text : List UInt8) (above cut : List UInt8) (stderr : List Diagnostic)
    (habove : rest newline above = []) :
    ∃ t, (readBytes (rowStart cut (textEntries above) stderr) text = .ok t ∨
        readBytes (rowStart cut (textEntries above) stderr) text = .error t) ∧
      t.stderr = stderr ++ messages reportedLine above (rows newline text) (rest newline text) := by
  induction text using text_induction newline generalizing above cut stderr with
  | last r hn =>
    rw [rows_rest hn, rest_rest hn, messages]
    cases hr : rowRejected r with
    | true =>
      obtain ⟨t,hread,hstderr⟩ := readBytes_rejected hn hr []
      rw [List.append_nil] at hread
      exact ⟨t,Or.inr hread,hstderr⟩
    | false => exact ⟨_,Or.inl (readBytes_row hn hr),by simp⟩
  | row r s hn ih =>
    rw [rows_row hn, rest_row hn, messages]
    cases hr : rowRejected r with
    | true =>
      obtain ⟨t,hread,hstderr⟩ := readBytes_rejected hn hr (newline :: s)
      exact ⟨t,Or.inr hread,hstderr⟩
    | false =>
      obtain ⟨t,hread,hstderr⟩ := ih (above ++ (r ++ [newline])) (cut ++ (cutRow r ++ [0]))
        (stderr ++ rowMessages (textEntries above).length r) (rest_above_row habove hn)
      rw [textEntries_above_row habove hn] at hread
      refine ⟨t,?_,?_⟩
      · rw [readBytes_row_newline hn hr]
        exact hread
      · rw [hstderr, rowMessages, List.append_assoc]
        rfl

theorem parseText_messages (pre text tail : List UInt8) :
    (parseText pre text tail).stderr = messages reportedLine [] (rows newline text) (rest newline text) := by
  obtain ⟨t,hread,hstderr⟩ := readBytes_messages text [] [] [] rfl
  have htext : readText text = t := by
    have hstart : rowStart [] (textEntries []) [] = rowStart [] [] [] := rfl
    rw [hstart] at hread
    unfold readText
    rcases hread with hread | hread
    · rw [hread]
    · rw [hread]
  rw [(parseText_readText pre text tail).1, htext, hstderr, List.nil_append]

theorem faultyRows_last {r : List UInt8} (hn : newline ∉ r) :
    faultyRows r = if rowRejected r then 1 else 0 := by
  simp [faultyRows, textRejected, rows_rest hn, rest_rest hn]

theorem faultyRows_row {r : List UInt8} (hn : newline ∉ r) (s : List UInt8) :
    faultyRows (r ++ newline :: s) =
      if rowRejected r then 1 else (if rowEntry r = none then 1 else 0) + faultyRows s := by
  have hskip := rowEntry_eq_none_iff r
  cases hr : rowRejected r with
  | true => simp [faultyRows, textRejected, rows_row hn, hr]
  | false =>
    by_cases hnone : r.count comma ≤ 1
    · simp [faultyRows, textRejected, rows_row hn, rest_row hn, hr, hskip, hnone]
      omega
    · simp [faultyRows, textRejected, rows_row hn, rest_row hn, hr, hskip, hnone]

/-- Below a text whose rows have been counted right at most one message can be right, and below
any other none. -/
theorem messages_eq_iff (text above : List UInt8) (habove : rest newline above = []) :
    messages reportedLine above (rows newline text) (rest newline text) =
      messages lineOf above (rows newline text) (rest newline text) ↔
      faultyRows text = 0 ∨ reportedLine above = lineOf above ∧ faultyRows text = 1 := by
  induction text using text_induction newline generalizing above with
  | last r hn =>
    rw [rows_rest hn, rest_rest hn, faultyRows_last hn, messages, messages]
    cases hr : rowRejected r with
    | true => simp
    | false => simp
  | row r s hn ih =>
    rw [rows_row hn, rest_row hn, faultyRows_row hn, messages, messages]
    cases hr : rowRejected r with
    | true => simp
    | false =>
      have hbelow := ih (above ++ (r ++ [newline])) (rest_above_row habove hn)
      have hcount : reportedLine (above ++ (r ++ [newline])) =
          reportedLine above + (rowEntry r).toList.length := by
        rw [reportedLine, textEntries_above_row habove hn, List.length_append, reportedLine]
        omega
      rw [hcount, lineOf_above_row hn] at hbelow
      by_cases hskip : rowEntry r = none
      · -- the message of this row is right, and none below it can be
        simp only [hskip, Option.toList_none, List.length_nil, Nat.add_zero] at hbelow
        simp only [hskip, Bool.false_eq_true, if_false, if_true, List.cons_append, List.nil_append,
          List.cons.injEq, Diagnostic.invalidEntry.injEq, hbelow]
        omega
      · obtain ⟨a,ha⟩ := Option.ne_none_iff_exists'.mp hskip
        simp only [ha, Option.toList_some, List.length_singleton] at hbelow
        simp only [ha, reduceCtorEq, Bool.false_eq_true, if_false, List.nil_append, hbelow]
        omega

/-- The messages name the lines of the rows they are about exactly when there is at most one. -/
theorem parseText_lines_iff (pre text tail : List UInt8) :
    (parseText pre text tail).stderr = messages lineOf [] (rows newline text) (rest newline text) ↔
      faultyRows text ≤ 1 := by
  rw [parseText_messages, messages_eq_iff text [] rfl]
  have hstart : reportedLine [] = lineOf [] := rfl
  rw [and_iff_right hstart]
  omega

/-- The second of two skipped rows is reported on the line of the first. -/
theorem parseText_lines_skipped :
    ¬ ∀ pre text tail : List UInt8,
      (parseText pre text tail).stderr = messages lineOf [] (rows newline text) (rest newline text) := by
  intro h
  exact absurd (h [] (literal "x\ny\n") []) (by decide)

end Padre
