import Padre.Database.Completeness
import Padre.Database.RoundTrip

/-! # The unterminated last row

A row without a newline is finished behind the loop, by code that asks only whether anything
follows the last separator. The newline case asks for the domain and the username, and puts
a terminator behind the pattern. The two agree on the rows for which both questions have the
same answer, and the text alone decides the accounts unless the pattern is left open.
-/
namespace Padre
open CString Rows AccountList

theorem textEntries_newline (text : List UInt8) :
    textEntries (text ++ [newline]) = textEntries text ++ (rowEntry (rest newline text)).toList := by
  rw [textEntries, textEntries, (rows_concat text).1, List.filterMap_append]
  cases h : rowEntry (rest newline text) <;> simp [h]

theorem textRejected_newline (text : List UInt8) : textRejected (text ++ [newline]) = textRejected text := by
  have hnil : rowRejected [] = false := by decide
  simp [textRejected, rows_concat, hnil]

theorem lastEntry_nul (row z : List UInt8) :
    lastEntry row (0 :: z) = if lastField row = [] then []
      else [{ rowAccount row with characters := closedField (lastField row) }] := by
  rw [lastEntry, headStr_append_nul]
  rfl

theorem read_rejected {text : List UInt8} (h : textRejected text = true) (pre tail : List UInt8) :
    (parseText pre text tail).read = [] := by
  rw [Parsed.read, parseText_rejected pre tail h, entries_free]
  rfl

/-- The final newline is optional exactly where a length is rejected or the last row is kept
by both pieces of code or by neither: with at most one comma it has to end in it, with more
something has to follow the last one that closes a field. -/
theorem parseText_newline_iff (pre text z pre' tail' : List UInt8) :
    (parseText pre text (0 :: z)).read = (parseText pre' (text ++ [newline]) tail').read ↔
      textRejected text = true ∨
        (lastField (rest newline text) = [] ↔ (rest newline text).count comma ≤ 1) := by
  by_cases hr : textRejected text = true
  · have hr' : textRejected (text ++ [newline]) = true := by rw [textRejected_newline, hr]
    rw [read_rejected hr, read_rejected hr']
    exact iff_of_true rfl (Or.inl hr)
  · have hr' : textRejected (text ++ [newline]) = false := by simpa [textRejected_newline] using hr
    rw [(parseText_accepted pre (0 :: z) (by simpa using hr)).2, (parseText_accepted pre' tail' hr').2,
      textEntries_newline, (rows_concat text).2, lastEntry_nil, List.append_nil, List.append_cancel_left_eq,
      lastEntry_nul, rowEntry_eq, or_iff_right hr]
    by_cases hlast : lastField (rest newline text) = [] <;>
      by_cases hcount : (rest newline text).count comma ≤ 1
    · simp [hlast, hcount]
    · simp [hlast, hcount]
    · simp [hlast, hcount]
    · simp [hlast, hcount]

/-- Without a newline `foo` is an account, with one it is skipped. -/
theorem parseText_newline_foo :
    ¬ ∀ text z : List UInt8, text ≠ [] → (0 : UInt8) ∉ text → text.getLast? ≠ some newline →
      ∀ tail', (parseText [] text (0 :: z)).read = (parseText [] (text ++ [newline]) tail').read := by
  intro h
  have heq := h (literal "foo") [] (by decide) (by decide) (by decide) [0]
  exact absurd heq (by decide)

theorem lastEntry_tail_iff (row : List UInt8) :
    (∀ tail tail', lastEntry row tail = lastEntry row tail') ↔
      lastField row = [] ∨ (0 : UInt8) ∈ lastField row := by
  constructor
  · intro h
    by_contra hopen
    obtain ⟨hne,hnul⟩ := not_or.mp hopen
    -- a NUL behind the pattern against one a byte later
    have heq := h [0] (65 :: [0])
    simp only [lastEntry, if_neg hne, List.cons.injEq, Account.mk.injEq, Option.some.injEq] at heq
    have hstr : headStr (lastField row ++ [0]) = headStr ((lastField row ++ [65]) ++ [0]) := by
      simpa using heq.1.2.2.2.1
    rw [headStr_append_nul, headStr_append_nul, Option.some.injEq, CStr.ext_iff] at hstr
    have hnul' : (0 : UInt8) ∉ lastField row ++ [65] := by simp [hnul]
    simp only [CStr.upto, untilNul_eq_self hnul, untilNul_eq_self hnul'] at hstr
    have hlen := congrArg List.length hstr
    simp at hlen
  · rintro (hnil | hnul) tail tail'
    · simp only [lastEntry, if_pos hnil]
    · obtain ⟨f,g,hf,-⟩ := List.eq_append_cons_of_mem hnul
      have hstr (z : List UInt8) : headStr (lastField row ++ z) = some (CStr.upto f) := by
        rw [hf, List.append_assoc, List.cons_append, headStr_append_nul]
      simp only [lastEntry, hstr]

/-- Every pattern has its terminator inside the text exactly where a length is rejected, the
last row ends in a separator, or its pattern has a NUL in it. -/
theorem parseText_tail_iff (pre text : List UInt8) :
    (∀ tail tail', (parseText pre text tail).read = (parseText pre text tail').read) ↔
      textRejected text = true ∨ lastField (rest newline text) = [] ∨
        (0 : UInt8) ∈ lastField (rest newline text) := by
  by_cases hr : textRejected text = true
  · refine iff_of_true ?_ (Or.inl hr)
    intro tail tail'
    rw [read_rejected hr, read_rejected hr]
  · have hread (tail : List UInt8) :=
      (parseText_accepted pre tail (show textRejected text = false by simpa using hr)).2
    simp only [hread, List.append_cancel_left_eq]
    rw [or_iff_right hr]
    exact lastEntry_tail_iff (rest newline text)

/-- A scan that ends in a pattern reads on behind the text. -/
theorem parseText_tail_open :
    ¬ ∀ pre text tail tail' : List UInt8, (parseText pre text tail).read = (parseText pre text tail').read := by
  intro h
  exact absurd (h [] (literal "a,b,0,8,x") [0] [65,0]) (by decide)

end Padre
