import Padre.Database.RowMeaning

/-! # What `parse_accounts` returns

The scan of a text that lies between `pre` and `tail` in its object, in terms of the rows
of the text. A rejected length anywhere leaves the empty list. Otherwise the accounts are
those of the terminated rows and, when something follows its last separator, of the rest.
-/
namespace Padre
open CString Rows AccountList

/-- `parse_accounts` on `text`, with `pre` and `tail` around it in the object. -/
def parseText (pre text tail : List UInt8) : Parsed :=
  parseAccounts (pre ++ (text ++ tail)) pre.length (pre.length + text.length)

theorem parseText_nil (text tail : List UInt8) :
    parseText [] text tail = parseAccounts (text ++ tail) 0 text.length := by
  simp [parseText]

/-- The scan is left through the length error. -/
def stopsOnLength (pre text tail : List UInt8) : Prop :=
  ∃ st, parseLoop (parseStart (pre ++ (text ++ tail)) pre.length (pre.length + text.length))
    pre.length text.length = .error st

/-- The scan of `text` as far as its first `count` characters. -/
def scanText (pre text tail : List UInt8) (count : ℕ) : Except ParseState ParseState :=
  parseLoop (parseStart (pre ++ (text ++ tail)) pre.length (pre.length + text.length)) pre.length count

/-- The account of an unterminated last row; its pattern ends wherever the next NUL is. -/
def lastEntry (row tail : List UInt8) : List (Account (Option CStr)) :=
  if lastField row = [] then []
  else [{ rowAccount row with characters := some (headStr (lastField row ++ tail)) }]

theorem tracks_start (pre text tail : List UInt8) :
    Tracks pre (text ++ tail)
      (parseStart (pre ++ (text ++ tail)) pre.length (pre.length + text.length))
      (rowStart [] [] []) := by
  exact ⟨rfl,rfl,⟨pre,rfl,rfl⟩,fun _ => rfl,[],holds_start _ _ _,fun _ => rfl⟩

theorem readBytes_cut_length {t u : TextState} {text : List UInt8} (h : readBytes t text = .ok u) :
    u.cut.length = t.cut.length + text.length := by
  induction text generalizing t with
  | nil =>
    cases h
    rfl
  | cons b text ih =>
    rw [readBytes_cons] at h
    cases hb : readByte t b with
    | error e =>
      rw [hb] at h
      cases h
    | ok v =>
      rw [hb] at h
      have hv := readByte_cut_length hb
      have hu := ih h
      simp only [List.length_cons]
      omega

theorem cutText_length (text : List UInt8) (h : textRejected text = false) :
    (cutText text).length = text.length := by
  obtain ⟨_,hread⟩ := readBytes_text text [] [] [] h
  simpa [rowStart] using readBytes_cut_length hread

section Scan
variable (pre text tail : List UInt8)

/-- The scan of a text as far as the bytes `front`. -/
theorem scanText_tracks (front back : List UInt8) :
    TracksResult pre front (back ++ tail) (scanText pre (front ++ back) tail front.length)
      (readBytes (rowStart [] [] []) front) := by
  have hstart := tracks_start pre (front ++ back) tail
  have hassoc : (front ++ back) ++ tail = front ++ (back ++ tail) := List.append_assoc ..
  have h : Tracks pre (front ++ (back ++ tail)) _ _ := hassoc ▸ hstart
  simpa [scanText, rowStart] using h.run front

variable {text}

theorem scanText_accepted {front : List UInt8} (h : textRejected front = false) (back : List UInt8) :
    ∃ st stderr, scanText pre (front ++ back) tail front.length = .ok st ∧
      Tracks pre (back ++ tail) st ⟨cutText front,lastField (rest newline front),
        rowAccount (rest newline front),textEntries front,stderr⟩ := by
  obtain ⟨stderr,hread⟩ := readBytes_text front [] [] [] h
  have htracks := scanText_tracks pre tail front back
  rw [hread] at htracks
  obtain ⟨st,hst,hrun⟩ := htracks.of_ok
  exact ⟨st,stderr,hst,hrun⟩

theorem scanText_rejected {front : List UInt8} (h : textRejected front = true) (back : List UInt8) :
    ∃ st, scanText pre (front ++ back) tail front.length = .error st ∧ st.list = freeAccountList := by
  obtain ⟨t,hread⟩ := readBytes_text_rejected front [] [] [] h
  have htracks := scanText_tracks pre tail front back
  rw [hread] at htracks
  obtain ⟨st,hst,hlist,-⟩ := htracks.of_error
  exact ⟨st,hst,hlist⟩

theorem stopsOnLength_iff : stopsOnLength pre text tail ↔ textRejected text = true := by
  constructor
  · rintro ⟨st,hst⟩
    by_contra hr
    obtain ⟨st',_,hok,-⟩ := scanText_accepted pre tail (by simpa using hr) []
    rw [List.append_nil, scanText, hst] at hok
    cases hok
  · intro hr
    obtain ⟨st,hst,-⟩ := scanText_rejected pre tail hr []
    rw [List.append_nil] at hst
    exact ⟨st,hst⟩

theorem parseText_rejected (h : textRejected text = true) :
    (parseText pre text tail).list = freeAccountList := by
  obtain ⟨st,hst,hlist⟩ := scanText_rejected pre tail h []
  rw [List.append_nil, scanText] at hst
  simp only [parseText, parseAccounts, Nat.add_sub_cancel_left]
  rw [hst]
  exact hlist

/-- Without a rejected length: the object after the scan and the accounts in it. -/
theorem parseText_accepted (h : textRejected text = false) :
    (parseText pre text tail).mem = pre ++ (cutText text ++ tail) ∧
    (parseText pre text tail).read = textEntries text ++ lastEntry (rest newline text) tail := by
  obtain ⟨st,stderr,hloop,htracks⟩ := scanText_accepted pre tail h []
  have hlen := cutText_length text h
  rw [List.append_nil, scanText] at hloop
  obtain ⟨w,hw,hcur⟩ := htracks.field
  obtain ⟨xs,hxs,hmap⟩ := htracks.list
  have hacc := htracks.account tail
  have hmem : st.mem = pre ++ (cutText text ++ tail) := by simpa using htracks.mem
  have hentries := hmap tail
  dsimp only at hw hacc hentries
  have hend : w.length + (lastField (rest newline text)).length = pre.length + text.length := by
    rw [← hlen, ← List.length_append, ← List.length_append, hw]
  simp only [parseText, parseAccounts, Nat.add_sub_cancel_left, Parsed.read, lastEntry]
  rw [hloop]
  by_cases hlast : lastField (rest newline text) = []
  · have hge : ¬ st.cur < pre.length + text.length := by
      rw [hlast, List.length_nil] at hend
      omega
    simp only [if_neg hge, if_pos hlast, hmem, hxs.entries, List.append_nil]
    exact ⟨trivial,hentries⟩
  · have hlt : st.cur < pre.length + text.length := by
      have := List.length_pos_iff.mpr hlast
      omega
    -- the pattern of the last row is read from the object as it is behind the text
    have hstr : strAt (pre ++ (cutText text ++ tail)) st.cur =
        headStr (lastField (rest newline text) ++ tail) := by
      rw [← List.append_assoc, hw, hcur, List.append_assoc, strAt_append_length]
    simp only [if_pos hlt, if_neg hlast, hmem, (hxs.push _).entries, List.map_append, hentries]
    refine ⟨trivial,?_⟩
    rw [← hacc]
    simp [Account.map, hstr]

end Scan

end Padre
