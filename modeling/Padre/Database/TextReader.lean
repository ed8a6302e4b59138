import Padre.Database.AccountList

/-! # The scanner refines a reader of texts

`readByte` is the scanner without memory: it collects the bytes of the current field and
keeps the fields of an account as strings. `Tracks` is the simulation between the two.
Whatever follows the bytes already cut, every pointer of the scanner reads as the string
the reader holds, and the list holds the accounts the reader has collected.
-/
namespace Padre
open CString AccountList

/-- The reader between two characters: the text as the scan leaves it, the bytes since the
last separator, the account under construction, the accounts so far and the messages. -/
structure TextState where
  cut : List UInt8
  field : List UInt8
  account : Account (Option CStr)
  accounts : List (Account (Option CStr))
  stderr : List Diagnostic

/-- A field that a separator has closed. -/
def closedField (field : List UInt8) : Option (Option CStr) := some (some (CStr.upto field))

def readByte (t : TextState) (b : UInt8) : Except TextState TextState :=
  if b = newline then
    let account := { t.account with characters := closedField t.field }
    let next := { t with cut := t.cut ++ [0], field := [], account := Account.null }
    if account.domain = none ∨ account.username = none then
      .ok { next with stderr := t.stderr ++ [.invalidEntry (t.accounts.length + 1)] }
    else .ok { next with accounts := t.accounts ++ [account] }
  else if b = comma then
    let next := { t with cut := t.cut ++ [0], field := [] }
    if t.account.domain = none then
      .ok { next with account := { t.account with domain := closedField t.field } }
    else if t.account.username = none then
      .ok { next with account := { t.account with username := closedField t.field } }
    else if t.account.iteration = none then
      .ok { next with account := { t.account with iteration := closedField t.field } }
    else if t.account.length = 0 then
      let tmp := atoi t.field
      if tmp = 0 ∨ tmp < 0 then
        .error { t with
          cut := t.cut ++ [0]
          accounts := []
          stderr := t.stderr ++ [.invalidLength (t.accounts.length + 1)] }
      else .ok { next with account := { t.account with length := tmp.toNat } }
    else .ok { t with cut := t.cut ++ [b], field := t.field ++ [b] }
  else .ok { t with cut := t.cut ++ [b], field := t.field ++ [b] }

def readBytes (t : TextState) (text : List UInt8) : Except TextState TextState :=
  text.foldlM readByte t

theorem readBytes_cons (t : TextState) (b : UInt8) (s : List UInt8) :
    readBytes t (b :: s) = readByte t b >>= fun u => readBytes u s := rfl

/-- The scanner at the end of `pre ++ t.cut`, with `rest` still to come in its object. -/
structure Tracks (pre rest : List UInt8) (st : ParseState) (t : TextState) : Prop where
  mem : st.mem = pre ++ (t.cut ++ rest)
  stderr : st.stderr = t.stderr
  field : ∃ w, pre ++ t.cut = w ++ t.field ∧ st.cur = w.length
  account : ∀ post, st.account.map (strAt (pre ++ (t.cut ++ post))) = t.account
  list : ∃ xs, Holds st.list xs ∧
    ∀ post, xs.map (Account.map (strAt (pre ++ (t.cut ++ post)))) = t.accounts

/-- After a text with `tail` behind it: the scan and the reader go on together, or both
have stopped at a rejected length and the scan has left the rest of the text alone. -/
def TracksResult (pre text tail : List UInt8) :
    Except ParseState ParseState → Except TextState TextState → Prop
  | .ok st, .ok t => Tracks pre tail st t
  | .error st, .error t => st.list = freeAccountList ∧ t.accounts = [] ∧ st.stderr = t.stderr ∧
      ∃ unread, unread <:+ text ∧ st.mem = pre ++ (t.cut ++ (unread ++ tail))
  | _, _ => False

theorem getD_append_length (w rest : List UInt8) (b : UInt8) :
    (w ++ b :: rest).getD w.length 0 = b := by
  simp [List.getD_eq_getElem?_getD]

theorem set_append_length (w rest : List UInt8) (b c : UInt8) :
    (w ++ b :: rest).set w.length c = w ++ c :: rest := by
  simp

namespace Tracks
variable {pre rest : List UInt8} {st : ParseState} {t : TextState} {b : UInt8}

theorem size_eq (h : Tracks pre rest st t) : st.list.size = t.accounts.length := by
  obtain ⟨xs,hxs,hmap⟩ := h.list
  rw [hxs.size, ← hmap [], List.length_map]

theorem cur_str (h : Tracks pre rest st t) (post : List UInt8) :
    strAt (pre ++ (t.cut ++ 0 :: post)) st.cur = some (CStr.upto t.field) := by
  obtain ⟨w,hw,hcur⟩ := h.field
  rw [← List.append_assoc, hw, hcur, List.append_assoc]
  exact strAt_field w t.field post

theorem getD_mem (h : Tracks pre (b :: rest) st t) : st.mem.getD (pre ++ t.cut).length 0 = b := by
  rw [h.mem, ← List.append_assoc]
  exact getD_append_length _ _ _

theorem set_mem (h : Tracks pre (b :: rest) st t) :
    st.mem.set (pre ++ t.cut).length 0 = pre ++ (t.cut ++ ([0] ++ rest)) := by
  rw [h.mem, ← List.append_assoc, set_append_length]
  simp

theorem keep (h : Tracks pre (b :: rest) st t) :
    Tracks pre rest st { t with cut := t.cut ++ [b], field := t.field ++ [b] } := by
  obtain ⟨w,hw,hcur⟩ := h.field
  obtain ⟨xs,hxs,hmap⟩ := h.list
  refine ⟨by simp [h.mem],h.stderr,⟨w,?_,hcur⟩,fun post => ?_,xs,hxs,fun post => ?_⟩
  · simp only [← List.append_assoc, hw]
  · simpa using h.account (b :: post)
  · simpa using hmap (b :: post)

theorem close (h : Tracks pre (b :: rest) st t) (a : Account ℕ) (ta : Account (Option CStr))
    (ha : ∀ post, a.map (strAt (pre ++ (t.cut ++ 0 :: post))) = ta) :
    Tracks pre rest
      { st with mem := st.mem.set (pre ++ t.cut).length 0, account := a,
                cur := (pre ++ t.cut).length + 1 }
      { t with cut := t.cut ++ [0], field := [], account := ta } := by
  obtain ⟨xs,hxs,hmap⟩ := h.list
  refine ⟨?_,h.stderr,⟨pre ++ (t.cut ++ [0]),by simp,by simp; omega⟩,fun post => ?_,xs,hxs,
    fun post => ?_⟩
  · rw [h.set_mem]
    simp
  · simpa using ha post
  · simpa using hmap (0 :: post)

theorem atoi_cur (h : Tracks pre (b :: rest) st t) :
    atoi ((st.mem.set (pre ++ t.cut).length 0).drop st.cur) = atoi t.field := by
  obtain ⟨w,hw,hcur⟩ := h.field
  have hmem : st.mem.set (pre ++ t.cut).length 0 = w ++ (t.field ++ 0 :: rest) := by
    rw [h.set_mem, ← List.append_assoc, hw]
    simp
  rw [hmem, hcur, List.drop_left, atoi_append_nul]

theorem domain_eq_none (h : Tracks pre rest st t) :
    t.account.domain = none ↔ st.account.domain = none := by
  rw [← h.account []]
  simp [Account.map]

theorem username_eq_none (h : Tracks pre rest st t) :
    t.account.username = none ↔ st.account.username = none := by
  rw [← h.account []]
  simp [Account.map]

theorem iteration_eq_none (h : Tracks pre rest st t) :
    t.account.iteration = none ↔ st.account.iteration = none := by
  rw [← h.account []]
  simp [Account.map]

theorem length_account (h : Tracks pre rest st t) : t.account.length = st.account.length := by
  rw [← h.account []]
  simp [Account.map]

theorem characters (h : Tracks pre rest st t) (post : List UInt8) :
    ({ st.account with characters := some st.cur } : Account ℕ).map
      (strAt (pre ++ (t.cut ++ 0 :: post))) =
        { t.account with characters := closedField t.field } := by
  rw [← h.account (0 :: post)]
  simp [Account.map, h.cur_str, closedField]

theorem newline_step (h : Tracks pre (newline :: rest) st t) :
    TracksResult pre [newline] rest (parseByte st (pre ++ t.cut).length) (readByte t newline) := by
  have hclose := h.close Account.null Account.null fun post => rfl
  simp only [parseByte, readByte, h.getD_mem, if_true]
  by_cases hnull : st.account.domain = none ∨ st.account.username = none
  · have hnull' : t.account.domain = none ∨ t.account.username = none := by
      simpa [h.domain_eq_none, h.username_eq_none] using hnull
    rw [if_pos hnull, if_pos hnull']
    exact ⟨hclose.mem,by simp [h.stderr, h.size_eq],hclose.field,hclose.account,hclose.list⟩
  · have hnull' : ¬ (t.account.domain = none ∨ t.account.username = none) := by
      simpa [h.domain_eq_none, h.username_eq_none] using hnull
    obtain ⟨xs,hxs,hmap⟩ := hclose.list
    rw [if_neg hnull, if_neg hnull']
    refine ⟨hclose.mem,hclose.stderr,hclose.field,hclose.account,_,hxs.push _,fun post => ?_⟩
    have hlast := h.characters post
    have hbefore := hmap post
    simp only [List.append_assoc, List.singleton_append] at hbefore ⊢
    simp [hbefore, hlast]

theorem comma_step (h : Tracks pre (comma :: rest) st t) :
    TracksResult pre [comma] rest (parseByte st (pre ++ t.cut).length) (readByte t comma) := by
  have hne : comma ≠ newline := by decide
  have hacc := fun post => h.account (0 :: post)
  simp only [parseByte, readByte, h.getD_mem, if_true, if_neg hne, h.atoi_cur, h.domain_eq_none,
    h.username_eq_none, h.iteration_eq_none, h.length_account]
  by_cases hd : st.account.domain = none
  · rw [if_pos hd, if_pos hd]
    apply h.close
    intro post
    rw [← hacc post]
    simp [Account.map, h.cur_str, closedField]
  by_cases hu : st.account.username = none
  · rw [if_neg hd, if_pos hu, if_neg hd, if_pos hu]
    apply h.close
    intro post
    rw [← hacc post]
    simp [Account.map, h.cur_str, closedField]
  by_cases hi : st.account.iteration = none
  · rw [if_neg hd, if_neg hu, if_pos hi, if_neg hd, if_neg hu, if_pos hi]
    apply h.close
    intro post
    rw [← hacc post]
    simp [Account.map, h.cur_str, closedField]
  rw [if_neg hd, if_neg hu, if_neg hi, if_neg hd, if_neg hu, if_neg hi]
  by_cases hl : st.account.length = 0
  · rw [if_pos hl, if_pos hl]
    by_cases htmp : atoi t.field = 0 ∨ atoi t.field < 0
    · rw [if_pos htmp, if_pos htmp]
      exact ⟨rfl,rfl,by simp [h.stderr, h.size_eq],[],List.nil_suffix,by rw [h.set_mem]; simp⟩
    · rw [if_neg htmp, if_neg htmp]
      apply h.close
      intro post
      rw [← hacc post]
      simp [Account.map]
  · rw [if_neg hl, if_neg hl]
    exact h.keep

theorem plain_step (h : Tracks pre (b :: rest) st t) (hnl : b ≠ newline) (hc : b ≠ comma) :
    TracksResult pre [b] rest (parseByte st (pre ++ t.cut).length) (readByte t b) := by
  simp only [parseByte, readByte, h.getD_mem, if_neg hnl, if_neg hc]
  exact h.keep

/-- One character of the scan is one byte of the reader. -/
theorem step (h : Tracks pre (b :: rest) st t) :
    TracksResult pre [b] rest (parseByte st (pre ++ t.cut).length) (readByte t b) := by
  by_cases hnl : b = newline
  · subst hnl
    exact h.newline_step
  by_cases hc : b = comma
  · subst hc
    exact h.comma_step
  exact h.plain_step hnl hc

end Tracks

theorem readByte_cut_length {t u : TextState} {b : UInt8} (h : readByte t b = .ok u) :
    u.cut.length = t.cut.length + 1 := by
  simp only [readByte] at h
  split_ifs at h
  all_goals cases h
  all_goals simp

theorem TracksResult.mono {pre text text' tail : List UInt8} {x : Except ParseState ParseState}
    {y : Except TextState TextState} (hle : text <:+ text') (h : TracksResult pre text tail x y) :
    TracksResult pre text' tail x y := by
  cases x with
  | ok st => cases y <;> exact h
  | error st =>
    cases y with
    | ok t => exact h
    | error t =>
      obtain ⟨hlist,hacc,herr,unread,hun,hmem⟩ := h
      exact ⟨hlist,hacc,herr,unread,hun.trans hle,hmem⟩

theorem TracksResult.of_ok {pre text tail : List UInt8} {x : Except ParseState ParseState} {t : TextState}
    (h : TracksResult pre text tail x (.ok t)) : ∃ st, x = .ok st ∧ Tracks pre tail st t := by
  cases x with
  | ok st => exact ⟨st,rfl,h⟩
  | error st => exact False.elim h

theorem TracksResult.of_error {pre text tail : List UInt8} {x : Except ParseState ParseState} {t : TextState}
    (h : TracksResult pre text tail x (.error t)) :
    ∃ st, x = .error st ∧ st.list = freeAccountList ∧ st.stderr = t.stderr ∧
      ∃ unread, unread <:+ text ∧ st.mem = pre ++ (t.cut ++ (unread ++ tail)) := by
  cases x with
  | ok st => exact False.elim h
  | error st =>
    obtain ⟨hlist,-,hstderr,hmem⟩ := h
    exact ⟨st,rfl,hlist,hstderr,hmem⟩

/-- The whole scan of a text is the reading of that text. -/
theorem Tracks.run {pre tail : List UInt8} (text : List UInt8) {st : ParseState} {t : TextState}
    (h : Tracks pre (text ++ tail) st t) :
    TracksResult pre text tail (parseLoop st (pre ++ t.cut).length text.length) (readBytes t text) := by
  induction text generalizing st t with
  | nil => exact h
  | cons b text ih =>
    have hstep := h.step
    rw [List.length_cons, parseLoop_succ, readBytes_cons]
    cases hp : parseByte st (pre ++ t.cut).length with
    | error st' =>
      cases hr : readByte t b with
      | error t' =>
        rw [hp, hr] at hstep
        obtain ⟨hlist,hacc,herr,unread,⟨read,hread⟩,hmem⟩ := hstep
        exact ⟨hlist,hacc,herr,unread ++ text,⟨read,by simp [← List.append_assoc, hread]⟩,
          by simpa using hmem⟩
      | ok t' =>
        rw [hp, hr] at hstep
        exact False.elim hstep
    | ok st' =>
      cases hr : readByte t b with
      | error t' =>
        rw [hp, hr] at hstep
        exact False.elim hstep
      | ok t' =>
        rw [hp, hr] at hstep
        have hlen : (pre ++ t'.cut).length = (pre ++ t.cut).length + 1 := by
          simp [readByte_cut_length hr, Nat.add_assoc]
        have hrest := ih hstep
        rw [hlen] at hrest
        exact hrest.mono (List.suffix_cons b text)

end Padre
