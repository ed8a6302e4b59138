import Mathlib.Data.List.Induction
import Padre.Database.Completeness

/-! # What the scan writes

The scan writes terminators over separators and nothing else. Which comma is a separator is
decided by the fields that are still null and by a length that is still zero, which comes
down to the number of commas in front of it in its row, because a row is left as soon as its
length turns out not to be positive.
-/
namespace Padre
open CString Rows

/-- The reader where it stops, behind the text or at a rejected length. -/
def readText (text : List UInt8) : TextState :=
  match readBytes (rowStart [] [] []) text with
  | .ok t => t
  | .error t => t

theorem parseByte_length {st next : ParseState} {str : ℕ}
    (h : parseByte st str = .ok next ∨ parseByte st str = .error next) :
    next.mem.length = st.mem.length := by
  simp only [parseByte] at h
  split_ifs at h
  all_goals rcases h with h | h
  all_goals cases h
  all_goals simp only [List.length_set]

theorem parseLoop_length {st next : ParseState} {str count : ℕ}
    (h : parseLoop st str count = .ok next ∨ parseLoop st str count = .error next) :
    next.mem.length = st.mem.length := by
  induction count generalizing st str with
  | zero =>
    rcases h with h | h
    all_goals cases h
    rfl
  | succ count ih =>
    rw [parseLoop_succ] at h
    cases hb : parseByte st str with
    | error e =>
      rw [hb] at h
      rcases h with h | h
      all_goals cases h
      exact parseByte_length (Or.inr hb)
    | ok mid =>
      rw [hb] at h
      exact (ih h).trans (parseByte_length (Or.inl hb))

/-- The object and the messages of a scan, from the reader. -/
theorem parseText_readText (pre text tail : List UInt8) :
    (parseText pre text tail).stderr = (readText text).stderr ∧
    (parseText pre text tail).mem =
      pre ++ (((readText text).cut ++ text.drop (readText text).cut.length) ++ tail) := by
  have htracks := scanText_tracks pre tail text []
  have hlength : (pre ++ (text ++ tail)).length = pre.length + (text.length + tail.length) := by simp
  rw [List.append_nil, List.nil_append, scanText] at htracks
  simp only [parseText, parseAccounts, Nat.add_sub_cancel_left, readText]
  cases hread : readBytes (rowStart [] [] []) text with
  | ok t =>
    rw [hread] at htracks
    obtain ⟨st,hst,hrun⟩ := htracks.of_ok
    have hcut := readBytes_cut_length hread
    have hdrop : text.drop t.cut.length = [] := by
      apply List.drop_eq_nil_of_le
      simp [hcut, rowStart]
    rw [hst]
    dsimp only
    rw [hdrop, List.append_nil]
    split
    · exact ⟨hrun.stderr,hrun.mem⟩
    · exact ⟨hrun.stderr,hrun.mem⟩
  | error t =>
    rw [hread] at htracks
    obtain ⟨st,hst,-,hstderr,unread,hsuffix,hmem⟩ := htracks.of_error
    have hsame := parseLoop_length (Or.inr hst)
    rw [hst]
    refine ⟨hstderr,?_⟩
    -- the rest is as long as what is left of the text, and so is that
    have hunread : unread = text.drop t.cut.length := by
      have hlen := congrArg List.length hmem
      rw [hsame] at hlen
      simp only [parseStart, List.length_append] at hlen
      rw [List.suffix_iff_eq_drop.mp hsuffix]
      congr 1
      have := hsuffix.length_le
      omega
    dsimp only
    rw [hmem, hunread, List.append_assoc]

/-- The character `b` is a newline or, behind `before`, one of the first four commas of its row. -/
def Separates (before : List UInt8) (b : UInt8) : Prop :=
  b = newline ∨ b = comma ∧ (rest newline before).count comma < 4

instance instDecidableSeparates (before : List UInt8) (b : UInt8) : Decidable (Separates before b) :=
  inferInstanceAs (Decidable (b = newline ∨ b = comma ∧ (rest newline before).count comma < 4))

/-- The text as the scan leaves it, also where it is left early. -/
def scannedText (text : List UInt8) : List UInt8 :=
  (readText text).cut ++ text.drop (readText text).cut.length

/-- A field is open: the next comma closes it. -/
def FieldOpen {P : Type} (a : Account P) : Prop :=
  a.domain = none ∨ a.username = none ∨ a.iteration = none ∨ a.length = 0

theorem fieldOpen_rowAccount {row : List UInt8} (hr : rowRejected row = false) :
    FieldOpen (rowAccount row) ↔ row.count comma < 4 := by
  obtain ⟨hd,hu,hi⟩ := rowAccount_filled row
  have hl := rowAccount_length hr
  unfold FieldOpen
  rw [hd, hu, hi]
  omega

theorem readByte_separator {t : TextState} {b : UInt8} (h : b = newline ∨ b = comma ∧ FieldOpen t.account) :
    ∃ u, (readByte t b = .ok u ∨ readByte t b = .error u) ∧ u.cut = t.cut ++ [0] := by
  have hcn : comma ≠ newline := by decide
  rcases h with rfl | ⟨rfl,hopen⟩
  · simp only [readByte, if_true]
    split_ifs
    · exact ⟨_,Or.inl rfl,rfl⟩
    · exact ⟨_,Or.inl rfl,rfl⟩
  · simp only [readByte, if_neg hcn, if_true]
    split_ifs with hd hu hi hl htmp
    · exact ⟨_,Or.inl rfl,rfl⟩
    · exact ⟨_,Or.inl rfl,rfl⟩
    · exact ⟨_,Or.inl rfl,rfl⟩
    · exact ⟨_,Or.inr rfl,rfl⟩
    · exact ⟨_,Or.inl rfl,rfl⟩
    · simp [FieldOpen, hd, hu, hi, hl] at hopen

theorem readByte_kept {t : TextState} {b : UInt8} (h : ¬ (b = newline ∨ b = comma ∧ FieldOpen t.account)) :
    readByte t b = .ok { t with cut := t.cut ++ [b], field := t.field ++ [b] } := by
  obtain ⟨hnl,hcomma⟩ := not_or.mp h
  rw [readByte, if_neg hnl]
  by_cases hc : b = comma
  · have hclosed : ¬ FieldOpen t.account := fun hopen => hcomma ⟨hc,hopen⟩
    simp only [FieldOpen, not_or] at hclosed
    obtain ⟨hd,hu,hi,hl⟩ := hclosed
    rw [if_pos hc, if_neg hd, if_neg hu, if_neg hi, if_neg hl]
  · rw [if_neg hc]

section Snoc
variable {text : List UInt8}

theorem readText_accepted (h : textRejected text = false) :
    ∃ stderr, readBytes (rowStart [] [] []) text = .ok (readText text) ∧
      readText text = ⟨cutText text,lastField (rest newline text),rowAccount (rest newline text),
        textEntries text,stderr⟩ := by
  obtain ⟨stderr,hread⟩ := readBytes_text text [] [] [] h
  refine ⟨stderr,?_,?_⟩
  · rw [readText, hread]
  · rw [readText, hread]
    rfl

theorem readText_snoc_rejected (h : textRejected text = true) (b : UInt8) :
    readText (text ++ [b]) = readText text := by
  obtain ⟨t,hread⟩ := readBytes_text_rejected text [] [] [] h
  rw [readText, readText, readBytes_append, hread]
  rfl

theorem readText_snoc_cut (h : textRejected text = false) (b : UInt8) :
    (readText (text ++ [b])).cut = cutText text ++ [if Separates text b then 0 else b] := by
  obtain ⟨stderr,hread,heq⟩ := readText_accepted h
  have hrest : rowRejected (rest newline text) = false := (Bool.or_eq_false_iff.mp h).2
  have hiff : b = newline ∨ b = comma ∧ FieldOpen (readText text).account ↔ Separates text b := by
    rw [heq, fieldOpen_rowAccount hrest]
    rfl
  have hcut : (readText text).cut = cutText text := congrArg TextState.cut heq
  rw [readText, readBytes_append, hread]
  simp only [bind, Except.bind, readBytes_cons]
  by_cases hsep : Separates text b
  · obtain ⟨u,hu,hucut⟩ := readByte_separator (hiff.mpr hsep)
    rw [if_pos hsep, ← hcut, ← hucut]
    rcases hu with hu | hu
    · rw [hu]
      rfl
    · rw [hu]
  · rw [if_neg hsep, ← hcut, readByte_kept (mt hiff.mp hsep)]
    rfl

theorem readText_cut_le (text : List UInt8) : (readText text).cut.length ≤ text.length := by
  induction text using List.reverseRecOn with
  | nil => exact le_rfl
  | append_singleton text b ih =>
    rw [List.length_append, List.length_singleton]
    cases hr : textRejected text with
    | true =>
      rw [readText_snoc_rejected hr]
      omega
    | false =>
      rw [readText_snoc_cut hr, List.length_append, cutText_length text hr, List.length_singleton]

/-- One more character: it is overwritten if the scan comes to it and it separates. -/
theorem scannedText_snoc (text : List UInt8) (b : UInt8) :
    scannedText (text ++ [b]) =
      scannedText text ++ [if textRejected text = false ∧ Separates text b then 0 else b] := by
  have hle := readText_cut_le text
  cases hr : textRejected text with
  | true =>
    rw [scannedText, readText_snoc_rejected hr, List.drop_append_of_le_length hle]
    simp [scannedText]
  | false =>
    obtain ⟨stderr,-,heq⟩ := readText_accepted hr
    have hcut : (readText text).cut = cutText text := congrArg TextState.cut heq
    have hlen := cutText_length text hr
    have hnew := readText_snoc_cut hr b
    have hall : (text ++ [b]).drop (readText (text ++ [b])).cut.length = [] := by
      apply List.drop_eq_nil_of_le
      rw [hnew, List.length_append, List.length_append, hlen]
      exact le_rfl
    have hdone : text.drop (readText text).cut.length = [] := by
      apply List.drop_eq_nil_of_le
      rw [hcut, hlen]
    rw [scannedText, scannedText, hall, hdone, hnew, hcut]
    simp

theorem scannedText_length (text : List UInt8) : (scannedText text).length = text.length := by
  have hle := readText_cut_le text
  rw [scannedText, List.length_append, List.length_drop]
  omega

theorem scannedText_prefix (text more : List UInt8) : scannedText text <+: scannedText (text ++ more) := by
  induction more using List.reverseRecOn with
  | nil => simp
  | append_singleton more b ih =>
    rw [← List.append_assoc, scannedText_snoc]
    exact ih.trans (List.prefix_append ..)

theorem scannedText_accepted (h : textRejected text = false) : scannedText text = cutText text := by
  obtain ⟨stderr,-,heq⟩ := readText_accepted h
  have hcut : (readText text).cut = cutText text := congrArg TextState.cut heq
  rw [scannedText, hcut, List.drop_eq_nil_of_le (cutText_length text h).ge, List.append_nil]

/-- The character of a text between `before` and `after`, behind the scan. -/
theorem scannedText_getElem? (before : List UInt8) (b : UInt8) (after : List UInt8) :
    (scannedText (before ++ b :: after))[before.length]? =
      some (if textRejected before = false ∧ Separates before b then 0 else b) := by
  have hsplit : before ++ b :: after = (before ++ [b]) ++ after := by simp
  obtain ⟨rest,hrest⟩ := scannedText_prefix (before ++ [b]) after
  rw [hsplit, ← hrest, scannedText_snoc, List.append_assoc, List.getElem?_append_right (scannedText_length before).le,
    scannedText_length, Nat.sub_self]
  rfl

end Snoc

/-- Behind the scan every character that changed is a separator of its row and now NUL, and
behind the fourth comma of a rejected row nothing has changed. The text above that row, all of
it when no row is rejected, is cut at every newline and at the first four commas of each row. -/
theorem parseText_frame (pre text tail : List UInt8) :
    ∃ text', (parseText pre text tail).mem = pre ++ (text' ++ tail) ∧ text'.length = text.length ∧
      (∀ before b after, text = before ++ b :: after → ∃ b', text'[before.length]? = some b' ∧
        (b' ≠ b → Separates before b ∧ b' = 0) ∧
        (textRejected before = true → b' = b) ∧
        (textRejected before = false → Separates before b → b' = 0)) ∧
      ∀ above below, text = above ++ below → textRejected above = false →
        text'.take above.length = cutText above := by
  refine ⟨scannedText text,(parseText_readText pre text tail).2,scannedText_length text,?_,?_⟩
  · rintro before b after rfl
    refine ⟨_,scannedText_getElem? before b after,?_,?_,?_⟩
    · intro hne
      by_cases hsep : textRejected before = false ∧ Separates before b
      · exact ⟨hsep.2,if_pos hsep⟩
      · exact absurd (if_neg hsep) hne
    · intro hr
      rw [if_neg (by simp [hr])]
    · intro hr hsep
      rw [if_pos ⟨hr,hsep⟩]
  · rintro above below rfl hr
    obtain ⟨rest,hrest⟩ := scannedText_prefix above below
    rw [← hrest, ← scannedText_length above, List.take_left, scannedText_accepted hr]

end Padre
