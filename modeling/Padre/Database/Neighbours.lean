import Padre.Database.RoundTrip

/-! # Rows do not depend on their neighbours

A text that is empty or ends in a newline leaves the scanner as it found it. Parsing such
a text and any other behind it is parsing both on their own, and a rejected length in
either empties the result.
-/
namespace Padre
open CString Rows AccountList

theorem rest_of_whole_rows {text : List UInt8} (h : text = [] ∨ text.getLast? = some newline) :
    rest newline text = [] := by
  rcases h with rfl | h
  · rfl
  · exact rest_eq_nil_of_getLast? h

theorem textRejected_append {A : List UInt8} (hA : rest newline A = []) (B : List UInt8) :
    textRejected (A ++ B) = (textRejected A || textRejected B) := by
  obtain ⟨hrows,hrest⟩ := rows_append hA B
  have hnil : rowRejected [] = false := by decide
  simp [textRejected, hrows, hrest, hA, hnil, Bool.or_assoc]

theorem textEntries_append {A : List UInt8} (hA : rest newline A = []) (B : List UInt8) :
    textEntries (A ++ B) = textEntries A ++ textEntries B := by
  simp [textEntries, (rows_append hA B).1]

/-- Parsing `A ++ B` in an object that goes on with `tail`, against parsing `A` in any
object and `B` in one that goes on with the same `tail`. -/
theorem parseAccounts_append (pre A B tail preA tailA preB : List UInt8)
    (hA : A = [] ∨ A.getLast? = some newline) :
    (¬ stopsOnLength preA A tailA ∧ ¬ stopsOnLength preB B tail →
      (parseText pre (A ++ B) tail).read = (parseText preA A tailA).read ++ (parseText preB B tail).read) ∧
    (stopsOnLength preA A tailA ∨ stopsOnLength preB B tail →
      (parseText pre (A ++ B) tail).list = freeAccountList) := by
  have hrest := rest_of_whole_rows hA
  have hsplit := textRejected_append hrest B
  constructor
  · rintro ⟨ha,hb⟩
    rw [stopsOnLength_iff] at ha hb
    have hA' : textRejected A = false := by simpa using ha
    have hB' : textRejected B = false := by simpa using hb
    have hAB : textRejected (A ++ B) = false := by rw [hsplit, hA', hB', Bool.or_false]
    rw [(parseText_accepted pre tail hAB).2, (parseText_accepted preA tailA hA').2,
      (parseText_accepted preB tail hB').2, textEntries_append hrest, hrest, lastEntry_nil,
      (rows_append hrest B).2]
    simp
  · intro h
    have hAB : textRejected (A ++ B) = true := by
      rw [hsplit, Bool.or_eq_true]
      exact h.imp (stopsOnLength_iff _ _).mp (stopsOnLength_iff _ _).mp
    exact parseText_rejected pre tail hAB

/-- One whole row in front of a row that is skipped and an unterminated one. -/
theorem parseAccounts_append_rows :
    (parseText [] (literal "a,b,0,8,c\nskipped\n" ++ literal "c,d,1,9,:alnum:") [0]).read =
      [⟨some (some (CStr.upto (literal "a"))),some (some (CStr.upto (literal "b"))),
        some (some (CStr.upto (literal "0"))),some (some (CStr.upto (literal "c"))),8⟩,
       ⟨some (some (CStr.upto (literal "c"))),some (some (CStr.upto (literal "d"))),
        some (some (CStr.upto (literal "1"))),some (some (CStr.upto (literal ":alnum:"))),9⟩] := by
  have happend := (parseAccounts_append [] (literal "a,b,0,8,c\nskipped\n") (literal "c,d,1,9,:alnum:") [0] [] [7] []
    (Or.inr (by decide))).1 ⟨by rw [stopsOnLength_iff]; decide,by rw [stopsOnLength_iff]; decide⟩
  exact happend.trans (by decide)

end Padre
