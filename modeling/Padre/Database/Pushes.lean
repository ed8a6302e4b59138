import Padre.Database.AccountList

/-! # The list during the scan

The accounts that a scan pushes, turn by turn, and the list that holds them: at every point
of the scan its first slots are the accounts pushed so far, in the order of the pushes, and
the next push finds its slot inside the allocation, grown before if it was full.
-/
namespace Padre
open CString AccountList

/-- The account the turn at the character `str` pushes. -/
def pushedAt (st : ParseState) (str : ℕ) : Option (Account ℕ) :=
  if st.mem.getD str 0 = newline ∧ ¬ (st.account.domain = none ∨ st.account.username = none) then
    some { st.account with characters := some st.cur }
  else none

/-- The account pushed behind the loop, for a file without a newline at its end. -/
def pushedBehind (st : ParseState) (end_ : ℕ) : Option (Account ℕ) :=
  if st.cur < end_ then some { st.account with characters := some st.cur } else none

/-- The accounts pushed by the first `count` turns from the character `str` on. -/
def pushes (st : ParseState) (str : ℕ) : (count : ℕ) → List (Account ℕ)
  | 0 => []
  | count + 1 =>
    (pushedAt st str).toList ++
      match parseByte st str with
      | .ok next => pushes next (str + 1) count
      | .error _ => []

theorem holds_pushed {list : AccountList} {xs : List (Account ℕ)} (h : Holds list xs) (a : Option (Account ℕ)) :
    Holds (a.elim list (pushAccount list)) (xs ++ a.toList) := by
  cases a with
  | none => simpa using h
  | some a => exact h.push a

section Scan
variable {st next : ParseState}

/-- A turn that goes on has pushed what `pushedAt` names and left the list alone otherwise. -/
theorem parseByte_list {str : ℕ} (h : parseByte st str = .ok next) :
    next.list = (pushedAt st str).elim st.list (pushAccount st.list) := by
  unfold parseByte at h
  unfold pushedAt
  by_cases hnl : st.mem.getD str 0 = newline
  · rw [if_pos hnl] at h
    by_cases hnull : st.account.domain = none ∨ st.account.username = none
    · rw [if_neg (by simp [hnull])]
      simp only [hnull, if_true, Except.ok.injEq] at h
      rw [← h]
      rfl
    · rw [if_pos ⟨hnl,hnull⟩]
      simp only [hnull, if_false, Except.ok.injEq] at h
      rw [← h]
      rfl
  · rw [if_neg hnl] at h
    rw [if_neg (by simp only [hnl, false_and, not_false_eq_true])]
    dsimp only at h
    split_ifs at h
    all_goals cases h
    all_goals rfl

theorem parseLoop_holds {xs : List (Account ℕ)} {str count : ℕ} (hs : Holds st.list xs)
    (h : parseLoop st str count = .ok next) : Holds next.list (xs ++ pushes st str count) := by
  induction count generalizing st str xs with
  | zero =>
    cases h
    simpa [pushes] using hs
  | succ count ih =>
    rw [parseLoop_succ] at h
    cases hb : parseByte st str with
    | error e =>
      rw [hb] at h
      cases h
    | ok mid =>
      rw [hb] at h
      have hmid : Holds mid.list (xs ++ (pushedAt st str).toList) := by
        rw [parseByte_list hb]
        exact holds_pushed hs _
      have hrun := ih hmid h
      simpa only [pushes, hb, List.append_assoc] using hrun

theorem scan_holds {mem : List UInt8} {begin end_ count : ℕ}
    (h : parseLoop (parseStart mem begin end_) begin count = .ok st) :
    Holds st.list (pushes (parseStart mem begin end_) begin count) := by
  simpa using parseLoop_holds (holds_start mem begin end_) h

theorem parseAccounts_list {mem : List UInt8} {begin end_ : ℕ}
    (h : parseLoop (parseStart mem begin end_) begin (end_ - begin) = .ok st) :
    (parseAccounts mem begin end_).list = (pushedBehind st end_).elim st.list (pushAccount st.list) := by
  unfold parseAccounts pushedBehind
  rw [h]
  by_cases hlt : st.cur < end_
  · simp only [if_pos hlt]
    rfl
  · simp only [if_neg hlt]
    rfl

/-- At every point of the scan, and in the list that is returned: the slots are the accounts
pushed so far and nothing else, in an allocation of at least one slot that they fit in. The
next push writes to a slot of the allocation it finds after growing. -/
theorem parseAccounts_holds (mem : List UInt8) (begin end_ : ℕ) :
    (∀ count st, parseLoop (parseStart mem begin end_) begin count = .ok st →
      Holds st.list (pushes (parseStart mem begin end_) begin count) ∧
      (growAccountList st.list).size < (growAccountList st.list).capacity ∧
      (growAccountList st.list).accounts.length = (growAccountList st.list).capacity) ∧
    (∀ st, parseLoop (parseStart mem begin end_) begin (end_ - begin) = .ok st →
      Holds (parseAccounts mem begin end_).list
        (pushes (parseStart mem begin end_) begin (end_ - begin) ++ (pushedBehind st end_).toList)) := by
  constructor
  · intro count st h
    have hst := scan_holds h
    exact ⟨hst,hst.slot⟩
  · intro st h
    rw [parseAccounts_list h]
    exact holds_pushed (scan_holds h) (pushedBehind st end_)

end Scan

/-- A row of three fields and an unterminated one, in the two slots of a list grown once. -/
theorem parseAccounts_holds_two :
    Holds (parseAccounts (literal "a,b,\nc") 0 6).list
      [⟨some 0,some 2,none,some 4,0⟩,⟨none,none,none,some 5,0⟩] :=
  (parseAccounts_holds (literal "a,b,\nc") 0 6).2 _ rfl

end Padre
