import Mathlib.Algebra.Order.BigOperators.Group.List
import Mathlib.Data.List.GetD
import Mathlib.Order.Interval.Finset.Nat
import Padre.Database.Pushes

/-! # The pointers of the accounts

The scan stores pointers into the text and never looks at them again. They only ever move
forward, and each but the first stands behind a terminator, so that every string a caller can
reach ends in front of the next one, whichever rows were skipped in between.
-/
namespace Padre
open CString AccountList

/-- The pointers of an account, in the order of its fields. -/
def Account.pointers (a : Account ℕ) : List ℕ := [a.domain,a.username,a.iteration,a.characters].reduceOption

/-- The account between two separators, whose fields are filled from the front with `ps`. -/
inductive Filled : Account ℕ → List ℕ → Prop where
  | empty (L : ℕ) : Filled ⟨none,none,none,none,L⟩ []
  | domain (d L : ℕ) : Filled ⟨some d,none,none,none,L⟩ [d]
  | username (d u L : ℕ) : Filled ⟨some d,some u,none,none,L⟩ [d,u]
  | iteration (d u i L : ℕ) : Filled ⟨some d,some u,some i,none,L⟩ [d,u,i]

/-- A place where the scan may start a field. -/
def Starts (begin : ℕ) (mem : List UInt8) (p : ℕ) : Prop := p = begin ∨ begin < p ∧ mem[p - 1]? = some 0

/-- Places in the order of the text, each of which starts a field. -/
structure Marks (begin : ℕ) (mem : List UInt8) (marks : List ℕ) : Prop where
  ordered : marks.Pairwise (· < ·)
  start : ∀ p ∈ marks, Starts begin mem p

/-- The scan in front of the character `str`, with the accounts `xs` pushed and the pointers `ps`
in the account between the separators. -/
structure Pointing (begin str : ℕ) (st : ParseState) (xs : List (Account ℕ)) (ps : List ℕ) : Prop where
  list : Holds st.list xs
  filled : Filled st.account ps
  marks : Marks begin st.mem (xs.flatMap Account.pointers ++ ps ++ [st.cur])
  inside : begin ≤ str ∧ st.cur ≤ str
  full : ∀ a ∈ xs, 3 ≤ a.pointers.length

section Marks
variable {begin str cur p q : ℕ} {mem : List UInt8} {marks kept : List ℕ}

theorem Starts.begin_le (h : Starts begin mem p) : begin ≤ p := by
  rcases h with rfl | ⟨hlt,-⟩
  · exact le_rfl
  · exact hlt.le

/-- A terminator more does no harm. -/
theorem Starts.cut (h : Starts begin mem p) (str : ℕ) : Starts begin (mem.set str 0) p := by
  refine h.imp_right fun ⟨hlt,hnul⟩ => ⟨hlt,?_⟩
  rw [List.getElem?_set]
  split_ifs with heq hstr
  · rfl
  · rw [← heq, List.getElem?_eq_none (Nat.le_of_not_lt hstr)] at hnul
    cases hnul
  · exact hnul

theorem Marks.le_last (h : Marks begin mem (marks ++ [cur])) : ∀ p ∈ marks ++ [cur], p ≤ cur := by
  intro p hp
  rcases List.mem_append.mp hp with hp | hp
  · exact ((List.pairwise_append.mp h.ordered).2.2 p hp cur (List.mem_singleton_self cur)).le
  · exact (List.mem_singleton.mp hp).le

theorem Marks.sublist (h : Marks begin mem marks) (hkept : kept.Sublist marks) : Marks begin mem kept :=
  ⟨h.ordered.sublist hkept,fun p hp => h.start p (hkept.subset hp)⟩

/-- The marks that are kept, and a new one behind the separator that is cut. -/
theorem Marks.cut (h : Marks begin mem (marks ++ [cur])) (hinside : begin ≤ str ∧ cur ≤ str) (hstr : str < mem.length)
    (hkept : kept.Sublist (marks ++ [cur])) : Marks begin (mem.set str 0) (kept ++ [str + 1]) := by
  constructor
  · refine List.pairwise_append.mpr ⟨h.ordered.sublist hkept,List.pairwise_singleton _ _,?_⟩
    intro p hp q hq
    have hle := h.le_last p (hkept.subset hp)
    rw [List.mem_singleton.mp hq]
    omega
  · intro p hp
    rcases List.mem_append.mp hp with hp | hp
    · exact (h.start p (hkept.subset hp)).cut str
    · rw [List.mem_singleton.mp hp]
      exact Or.inr ⟨by omega,by simp [hstr]⟩

/-- Between two marks there is a string, and it ends in front of the second. -/
theorem Marks.string (h : Marks begin mem marks) (hp : p ∈ marks) (hq : q ∈ marks) (hlt : p < q) :
    ∃ s, strAt mem p = some s ∧ p + s.bytes.length < q := by
  have hbegin := (h.start p hp).begin_le
  obtain ⟨-,hnul⟩ := (h.start q hq).resolve_left (by omega)
  obtain ⟨k,rfl⟩ : ∃ k, q = p + k + 1 := ⟨q - p - 1,by omega⟩
  have hdrop : (mem.drop p)[k]? = some 0 := by
    rw [List.getElem?_drop]
    exact hnul
  refine ⟨CStr.upto (mem.drop p),if_pos (List.mem_of_getElem? hdrop),?_⟩
  have hle : (untilNul (mem.drop p)).length ≤ k := by
    by_contra hgt
    have hlt : k < (untilNul (mem.drop p)).length := Nat.lt_of_not_le hgt
    have hchar : (untilNul (mem.drop p))[k] = 0 := by
      obtain ⟨hk,hzero⟩ := List.getElem?_eq_some_iff.mp hdrop
      exact ((List.takeWhile_prefix _).getElem hlt).trans hzero
    exact nul_notMem_untilNul _ (hchar ▸ List.getElem_mem hlt)
  change p + (untilNul (mem.drop p)).length < p + k + 1
  omega

end Marks

section Scan
variable {begin str end_ : ℕ} {st next : ParseState} {xs : List (Account ℕ)} {ps : List ℕ}

theorem Filled.pointers {a : Account ℕ} (h : Filled a ps) : a.pointers = ps := by
  cases h with
  | _ => rfl

/-- The account that is pushed. -/
theorem Filled.pushed {a : Account ℕ} (h : Filled a ps) (cur : ℕ) :
    ({ a with characters := some cur } : Account ℕ).pointers = ps ++ [cur] := by
  cases h with
  | _ => rfl

theorem Filled.two_le {a : Account ℕ} (h : Filled a ps) (hfields : ¬ (a.domain = none ∨ a.username = none)) :
    2 ≤ ps.length := by
  cases h with
  | empty => simp at hfields
  | domain => simp at hfields
  | username => simp
  | iteration => simp

theorem lt_length_of_getD {mem : List UInt8} {c : UInt8} (h : mem.getD str 0 = c) (hc : c ≠ 0) : str < mem.length := by
  by_contra hge
  rw [List.getD_eq_default _ _ (Nat.le_of_not_lt hge)] at h
  exact hc h.symm

/-- A newline: the account is pushed or skipped, and the next one has no field yet. -/
theorem Pointing.newline (h : Pointing begin str st xs ps) (hnl : st.mem.getD str 0 = newline)
    (hb : parseByte st str = .ok next) : ∃ xs', Pointing begin (str + 1) next xs' [] := by
  have hstr := lt_length_of_getD hnl (by decide)
  simp only [parseByte, if_pos hnl] at hb
  split_ifs at hb with hfields
  · cases hb
    refine ⟨xs,h.list,.empty 0,?_,by have := h.inside; dsimp only; omega,h.full⟩
    rw [List.append_nil]
    refine h.marks.cut h.inside hstr ?_
    rw [List.append_assoc]
    exact List.sublist_append_left _ _
  · cases hb
    refine ⟨xs ++ [{ st.account with characters := some st.cur }],h.list.push _,.empty 0,?_,
      by have := h.inside; dsimp only; omega,?_⟩
    · rw [List.append_nil, List.flatMap_append, List.flatMap_singleton, h.filled.pushed, ← List.append_assoc]
      exact h.marks.cut h.inside hstr (List.Sublist.refl _)
    · intro a ha
      rcases List.mem_append.mp ha with ha | ha
      · exact h.full a ha
      · rw [List.mem_singleton.mp ha, h.filled.pushed, List.length_append, List.length_singleton]
        have htwo := h.filled.two_le hfields
        omega

/-- A separator closes a field. -/
theorem Pointing.field (h : Pointing begin str st xs ps) (hstr : str < st.mem.length) {a : Account ℕ}
    (ha : Filled a (ps ++ [st.cur])) :
    Pointing begin (str + 1) { st with mem := st.mem.set str 0, account := a, cur := str + 1 } xs (ps ++ [st.cur]) := by
  refine ⟨h.list,ha,?_,by have := h.inside; dsimp only; omega,h.full⟩
  rw [← List.append_assoc]
  exact h.marks.cut h.inside hstr (List.Sublist.refl _)

/-- A character that is left alone. -/
theorem Pointing.skip (h : Pointing begin str st xs ps) : Pointing begin (str + 1) st xs ps :=
  ⟨h.list,h.filled,h.marks,by have := h.inside; omega,h.full⟩

theorem Pointing.comma (h : Pointing begin str st xs ps) (hnl : st.mem.getD str 0 ≠ Padre.newline)
    (hc : st.mem.getD str 0 = Padre.comma) (hb : parseByte st str = .ok next) :
    ∃ ps', Pointing begin (str + 1) next xs ps' := by
  have hstr := lt_length_of_getD hc (by decide)
  have hfilled := h.filled
  simp only [parseByte, if_neg hnl, if_pos hc] at hb
  generalize haccount : st.account = a at hfilled hb
  cases hfilled with
  | empty L =>
    cases hb
    exact ⟨_,h.field hstr (.domain st.cur L)⟩
  | domain d L =>
    cases hb
    exact ⟨_,h.field hstr (.username d st.cur L)⟩
  | username d u L =>
    cases hb
    exact ⟨_,h.field hstr (.iteration d u st.cur L)⟩
  | iteration d u i L =>
    simp only [reduceCtorEq, if_false] at hb
    split_ifs at hb
    · cases hb
      refine ⟨_,h.list,.iteration d u i _,?_,by have := h.inside; dsimp only; omega,h.full⟩
      exact h.marks.cut h.inside hstr (List.sublist_append_left _ _)
    · cases hb
      exact ⟨_,h.skip⟩

theorem Pointing.step (h : Pointing begin str st xs ps) (hb : parseByte st str = .ok next) :
    ∃ xs' ps', Pointing begin (str + 1) next xs' ps' := by
  by_cases hnl : st.mem.getD str 0 = Padre.newline
  · obtain ⟨xs',h'⟩ := h.newline hnl hb
    exact ⟨xs',[],h'⟩
  · by_cases hc : st.mem.getD str 0 = Padre.comma
    · obtain ⟨ps',h'⟩ := h.comma hnl hc hb
      exact ⟨xs,ps',h'⟩
    · rw [parseByte, if_neg hnl, if_neg hc] at hb
      cases hb
      exact ⟨xs,ps,h.skip⟩

theorem Pointing.run {count : ℕ} (h : Pointing begin str st xs ps) (hrun : parseLoop st str count = .ok next) :
    ∃ xs' ps', Pointing begin (str + count) next xs' ps' := by
  induction count generalizing st str xs ps with
  | zero =>
    cases hrun
    exact ⟨xs,ps,h⟩
  | succ count ih =>
    rw [parseLoop_succ] at hrun
    cases hb : parseByte st str with
    | error e =>
      rw [hb] at hrun
      cases hrun
    | ok mid =>
      rw [hb] at hrun
      obtain ⟨xs',ps',h'⟩ := h.step hb
      obtain ⟨xs'',ps'',h''⟩ := ih h' hrun
      rw [Nat.succ_add_eq_add_succ] at h''
      exact ⟨xs'',ps'',h''⟩

theorem pointing_start (mem : List UInt8) (begin end_ : ℕ) :
    Pointing begin begin (parseStart mem begin end_) [] [] := by
  refine ⟨holds_start mem begin end_,.empty 0,⟨List.pairwise_singleton _ _,?_⟩,⟨le_rfl,le_rfl⟩,by simp⟩
  intro p hp
  exact Or.inl (List.mem_singleton.mp hp)

end Scan

/-- What a caller of `parse_accounts` finds: the pointers in the order of the text, at least three
of them in every account but the last. -/
structure Pointed (begin end_ : ℕ) (parsed : Parsed) : Prop where
  marks : Marks begin parsed.mem (parsed.list.entries.flatMap Account.pointers)
  inside : ∀ p ∈ parsed.list.entries.flatMap Account.pointers, p < end_
  full : ∃ xs last, parsed.list.entries = xs ++ last ∧ last.length ≤ 1 ∧
    (∀ a ∈ xs, 3 ≤ a.pointers.length) ∧ ∀ a ∈ last, 1 ≤ a.pointers.length

theorem parseLoop_error {st e : ParseState} {str count : ℕ} (h : parseLoop st str count = .error e) :
    e.list = freeAccountList := by
  induction count generalizing st str with
  | zero => cases h
  | succ count ih =>
    rw [parseLoop_succ] at h
    cases hb : parseByte st str with
    | error e' =>
      rw [hb] at h
      cases h
      simp only [parseByte] at hb
      split_ifs at hb
      cases hb
      rfl
    | ok mid =>
      rw [hb] at h
      exact ih h

theorem pointed_free (begin end_ : ℕ) (mem : List UInt8) (stderr : List Diagnostic) :
    Pointed begin end_ ⟨freeAccountList,mem,stderr⟩ :=
  ⟨⟨List.Pairwise.nil,by simp [entries_free]⟩,by simp [entries_free],[],[],rfl,by simp,by simp,by simp⟩

/-- Behind the loop. -/
theorem Pointing.pointed {begin end_ : ℕ} {st : ParseState} {xs : List (Account ℕ)} {ps : List ℕ}
    (h : Pointing begin (begin + (end_ - begin)) st xs ps) :
    Pointed begin end_ (if st.cur < end_ then
      ⟨pushAccount st.list { st.account with characters := some st.cur },st.mem,st.stderr⟩
      else ⟨st.list,st.mem,st.stderr⟩) := by
  have hlast := h.marks.le_last
  split_ifs with hcur
  · have hentries := (h.list.push { st.account with characters := some st.cur }).entries
    have hpointers : (pushAccount st.list { st.account with characters := some st.cur }).entries.flatMap
        Account.pointers = xs.flatMap Account.pointers ++ ps ++ [st.cur] := by
      rw [hentries, List.flatMap_append, List.flatMap_singleton, h.filled.pushed, List.append_assoc]
    refine ⟨?_,?_,xs,[{ st.account with characters := some st.cur }],hentries,le_rfl,h.full,?_⟩
    · rw [hpointers]
      exact h.marks
    · rw [hpointers]
      intro p hp
      exact (hlast p hp).trans_lt hcur
    · intro a ha
      rw [List.mem_singleton.mp ha, h.filled.pushed, List.length_append, List.length_singleton]
      omega
  · have hsub : (xs.flatMap Account.pointers).Sublist (xs.flatMap Account.pointers ++ ps ++ [st.cur]) := by
      rw [List.append_assoc]
      exact List.sublist_append_left _ _
    refine ⟨?_,?_,xs,[],by simpa using h.list.entries,by simp,h.full,by simp⟩
    · rw [h.list.entries]
      exact h.marks.sublist hsub
    · rw [h.list.entries]
      intro p hp
      have hbegin := (h.marks.start p (hsub.subset hp)).begin_le
      have hinside := h.inside
      have hlt : p < st.cur := (List.pairwise_append.mp h.marks.ordered).2.2 p (List.mem_append_left _ hp) _
        (List.mem_singleton_self _)
      omega

theorem parseAccounts_pointed (mem : List UInt8) (begin end_ : ℕ) :
    Pointed begin end_ (parseAccounts mem begin end_) := by
  unfold parseAccounts
  cases hrun : parseLoop (parseStart mem begin end_) begin (end_ - begin) with
  | error st =>
    have hfree := pointed_free begin end_ st.mem st.stderr
    rwa [← parseLoop_error hrun] at hfree
  | ok st =>
    obtain ⟨xs,ps,h⟩ := (pointing_start mem begin end_).run hrun
    exact h.pointed

/-- Marks in the text are no more than its bytes. -/
theorem Marks.length_le {begin end_ : ℕ} {mem : List UInt8} {marks : List ℕ} (h : Marks begin mem marks)
    (hinside : ∀ p ∈ marks, p < end_) : marks.length ≤ end_ - begin := by
  have hnodup : marks.Nodup := h.ordered.imp fun hlt => hlt.ne
  have hsub : marks.toFinset ⊆ Finset.Ico begin end_ := by
    intro p hp
    have hmem := List.mem_toFinset.mp hp
    exact Finset.mem_Ico.mpr ⟨(h.start p hmem).begin_le,hinside p hmem⟩
  calc marks.length = marks.toFinset.card := (List.toFinset_card_of_nodup hnodup).symm
    _ ≤ (Finset.Ico begin end_).card := Finset.card_le_card hsub
    _ = end_ - begin := Nat.card_Ico begin end_

theorem mul_length_le_flatMap {k : ℕ} {accounts : List (Account ℕ)} (h : ∀ a ∈ accounts, k ≤ a.pointers.length) :
    k * accounts.length ≤ (accounts.flatMap Account.pointers).length := by
  have hsum := List.card_nsmul_le_sum (accounts.map fun a => a.pointers.length) k (List.forall_mem_map.mpr h)
  rw [List.length_map, nsmul_eq_mul, Nat.cast_id, Nat.mul_comm] at hsum
  rwa [List.length_flatMap]

/-- The strings of the accounts lie in the text one behind the other: each but the last is
terminated in front of the next, so no two of them overlap. -/
theorem parseAccounts_strings (mem : List UInt8) (begin end_ : ℕ) :
    ((parseAccounts mem begin end_).list.entries.flatMap Account.pointers).Pairwise (fun p q =>
      ∃ s, strAt (parseAccounts mem begin end_).mem p = some s ∧ p + s.bytes.length < q) ∧
    ∀ p ∈ (parseAccounts mem begin end_).list.entries.flatMap Account.pointers, begin ≤ p ∧ p < end_ := by
  obtain ⟨hmarks,hinside,-⟩ := parseAccounts_pointed mem begin end_
  constructor
  · exact hmarks.ordered.imp_of_mem fun hp hq hlt => hmarks.string hp hq hlt
  · intro p hp
    exact ⟨(hmarks.start p hp).begin_le,hinside p hp⟩

/-- An account takes three bytes of the text, but for an unterminated last one. -/
theorem parseAccounts_length_le (mem : List UInt8) (begin end_ : ℕ) :
    3 * (parseAccounts mem begin end_).list.entries.length ≤ end_ - begin + 2 := by
  obtain ⟨hmarks,hinside,xs,last,hentries,hone,hfull,hlast⟩ := parseAccounts_pointed mem begin end_
  have hpointers := hmarks.length_le hinside
  have hxs := mul_length_le_flatMap hfull
  have hl := mul_length_le_flatMap hlast
  rw [hentries, List.flatMap_append, List.length_append] at hpointers
  rw [hentries, List.length_append]
  omega

end Padre
