import Mathlib.Order.Basic
import Padre.Run.Selection

/-! # What the menu answers

The loop of `tui__wait_user_selection` goes through the keys one by one up to the first that
leaves the menu. The item it answers with is where the moves in front of that key have led.
-/
namespace Padre
open CString FuelLoop Trace

/-- The current item in front of key `k`. -/
def cursor (curses : Curses) (items : ℕ) : ℕ → ℕ
  | 0 => 0
  | k + 1 =>
    if curses.getch k = KEY_DOWN then curses.menuDriver items .downItem (cursor curses items k)
    else if curses.getch k = KEY_UP then curses.menuDriver items .upItem (cursor curses items k)
    else cursor curses items k

open Classical in
/-- The first key that leaves the menu. -/
noncomputable def leavingKey (getch : ℕ → ℤ) : Option ℕ :=
  if h : ∃ k, LeavesMenu (getch k) then some (Nat.find h) else none

/-- What the menu answers with when key `k` leaves it. -/
def menuAnswer (curses : Curses) (items k : ℕ) : ℤ × ℕ :=
  if curses.getch k = KEY_QUIT then (-1,k + 1) else (cursor curses items k,k + 1)

section Leaving
variable {getch : ℕ → ℤ} {k : ℕ}

theorem leavingKey_eq_none : leavingKey getch = none ↔ ∀ k, ¬ LeavesMenu (getch k) := by
  unfold leavingKey
  split
  · rename_i h
    exact iff_of_false (Option.some_ne_none _) (not_forall_not.mpr h)
  · rename_i h
    exact iff_of_true rfl (not_exists.mp h)

theorem leavingKey_eq_some :
    leavingKey getch = some k ↔ LeavesMenu (getch k) ∧ ∀ j < k, ¬ LeavesMenu (getch j) := by
  classical
  unfold leavingKey
  split
  · rename_i h
    rw [Option.some.injEq, Nat.find_eq_iff]
  · rename_i h
    exact iff_of_false (Option.some_ne_none k).symm fun hk => h ⟨k,hk.1⟩

end Leaving

section Wait
variable {curses : Curses} {items k : ℕ}

theorem selectionTurn_cursor (h : ¬ LeavesMenu (curses.getch k)) :
    selectionTurn curses items ⟨cursor curses items k,k⟩ = some (.again ⟨cursor curses items (k + 1),k + 1⟩) := by
  obtain ⟨hquit,henter⟩ := not_or.mp h
  simp only [selectionTurn, cursor, if_neg hquit, if_neg henter]
  split_ifs
  · rfl
  · rfl
  · rfl

theorem selectionTurn_answer (h : LeavesMenu (curses.getch k)) :
    selectionTurn curses items ⟨cursor curses items k,k⟩ = some (.done (menuAnswer curses items k)) := by
  unfold menuAnswer
  by_cases hquit : curses.getch k = KEY_QUIT
  · rw [if_pos hquit]
    exact selectionTurn_quit hquit
  · rw [if_neg hquit]
    exact selectionTurn_enter (h.resolve_left hquit)

theorem tuiWaitUserSelection_eq (hk : leavingKey curses.getch = some k) (items fuel : ℕ) :
    tuiWaitUserSelection curses fuel items = if k < fuel then some (menuAnswer curses items k) else none := by
  obtain ⟨hleaves,hbefore⟩ := leavingKey_eq_some.mp hk
  exact loop_orbit (fun j : ℕ => (⟨cursor curses items j,j⟩ : MenuState))
    (fun j hj => selectionTurn_cursor (hbefore j hj)) (selectionTurn_answer hleaves) fuel

theorem cursor_lt (hmenu : ∀ request i, i < items → curses.menuDriver items request i < items)
    (hitems : 0 < items) (k : ℕ) : cursor curses items k < items := by
  induction k with
  | zero => exact hitems
  | succ k ih =>
    unfold cursor
    split_ifs
    · exact hmenu _ _ ih
    · exact hmenu _ _ ih
    · exact ih

end Wait

end Padre
