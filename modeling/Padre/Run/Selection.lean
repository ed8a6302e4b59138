import Mathlib.Data.List.GetD
import Padre.Model.Program

/-! # The choice from the menu

Two keys leave the loop of `tui__wait_user_selection`, and the value `getch` returns at the
end of the input is not one of them. The menu is left exactly when one of the two is typed,
and with an item exactly when the first of them is Enter. That is when one of several
accounts is selected; a single one is selected without a question.
-/
namespace Padre
open CString FuelLoop Trace

/-- The keys that leave the menu. -/
def LeavesMenu (c : ℤ) : Prop := c = KEY_QUIT ∨ c = KEY_ENTER

/-- Enter is typed, and `q` not before it. -/
def Chooses (getch : ℕ → ℤ) : Prop := ∃ n, getch n = KEY_ENTER ∧ ∀ k < n, getch k ≠ KEY_QUIT

section Menu
variable {curses : Curses} {items : ℕ} {s t : MenuState} {r : ℤ × ℕ}

theorem selectionTurn_again (items : ℕ) (h : ¬ LeavesMenu (curses.getch s.used)) :
    ∃ current, selectionTurn curses items s = some (.again ⟨current,s.used + 1⟩) := by
  obtain ⟨hquit,henter⟩ := not_or.mp h
  simp only [selectionTurn, if_neg hquit, if_neg henter]
  split_ifs
  · exact ⟨_,rfl⟩
  · exact ⟨_,rfl⟩
  · exact ⟨_,rfl⟩

theorem selectionTurn_quit (h : curses.getch s.used = KEY_QUIT) :
    selectionTurn curses items s = some (.done (-1,s.used + 1)) := by
  simp only [selectionTurn, if_pos h]

theorem selectionTurn_enter (h : curses.getch s.used = KEY_ENTER) :
    selectionTurn curses items s = some (.done (s.current,s.used + 1)) := by
  have hquit : ¬ KEY_ENTER = KEY_QUIT := by decide
  have hdown : ¬ KEY_ENTER = KEY_DOWN := by decide
  have hup : ¬ KEY_ENTER = KEY_UP := by decide
  simp only [selectionTurn, h, if_neg hquit, if_neg hdown, if_neg hup, if_true]

/-- The moves stay on the items of the menu. -/
theorem selectionTurn_current (hmenu : ∀ request i, i < items → curses.menuDriver items request i < items)
    (hs : s.current < items) (h : selectionTurn curses items s = some (.again t)) : t.current < items := by
  simp only [selectionTurn] at h
  split_ifs at h
  all_goals cases h
  · exact hmenu _ _ hs
  · exact hmenu _ _ hs
  · exact hs

theorem selectionTurn_leaves (items : ℕ) (h : LeavesMenu (curses.getch s.used)) :
    ∃ r, selectionTurn curses items s = some (.done r) := by
  rcases h with hquit | henter
  · exact ⟨_,selectionTurn_quit hquit⟩
  · exact ⟨_,selectionTurn_enter henter⟩

theorem selection_endless (h : ∀ k, ¬ LeavesMenu (curses.getch k)) (fuel : ℕ) :
    tuiWaitUserSelection curses fuel items = none := by
  apply loop_eq_none (fun _ => True) (fun _ _ _ _ => trivial) ?_ fuel trivial
  intro s r _ hdone
  obtain ⟨current,hagain⟩ := selectionTurn_again items (h s.used)
  rw [hagain] at hdone
  cases hdone

/-- The menu is left exactly when one of the two keys is typed. -/
theorem selection_returns_iff :
    (∃ fuel r, tuiWaitUserSelection curses fuel items = some r) ↔ ∃ k, LeavesMenu (curses.getch k) := by
  constructor
  · rintro ⟨fuel,r,hr⟩
    by_contra hnone
    rw [selection_endless (not_exists.mp hnone)] at hr
    cases hr
  · rintro ⟨n,hn⟩
    have hturn : ∀ s : MenuState, s.used ≤ n →
        (∃ r, selectionTurn curses items s = some (.done r)) ∨
        ∃ t, selectionTurn curses items s = some (.again t) ∧ t.used ≤ n ∧ n - t.used < n - s.used := by
      intro s hs
      by_cases hk : LeavesMenu (curses.getch s.used)
      · exact Or.inl (selectionTurn_leaves items hk)
      · obtain ⟨current,hagain⟩ := selectionTurn_again items hk
        have hne : s.used ≠ n := by
          intro heq
          exact hk (heq ▸ hn)
        exact Or.inr ⟨_,hagain,by dsimp only; omega,by dsimp only; omega⟩
    obtain ⟨r,hr⟩ := loop_returns (fun s : MenuState => s.used ≤ n) (fun s => n - s.used) hturn
      (show (⟨0,0⟩ : MenuState).used ≤ n by simp) (Nat.lt_succ_self _)
    exact ⟨_,r,hr⟩

/-- The menu in front of a `getch`: no key so far has left it, and its current item is one of
its items. -/
structure MenuOpen (curses : Curses) (items : ℕ) (s : MenuState) : Prop where
  before : ∀ k < s.used, ¬ LeavesMenu (curses.getch k)
  current : s.current < items

theorem MenuOpen.again (hmenu : ∀ request i, i < items → curses.menuDriver items request i < items)
    (h : MenuOpen curses items s) (ht : selectionTurn curses items s = some (.again t)) :
    MenuOpen curses items t := by
  by_cases hk : LeavesMenu (curses.getch s.used)
  · obtain ⟨r,hr⟩ := selectionTurn_leaves items hk
    rw [hr] at ht
    cases ht
  · refine ⟨?_,selectionTurn_current hmenu h.current ht⟩
    obtain ⟨current,hagain⟩ := selectionTurn_again items hk
    rw [hagain] at ht
    cases ht
    intro k hlt
    rcases Nat.lt_succ_iff_lt_or_eq.mp hlt with hlt | rfl
    · exact h.before k hlt
    · exact hk

/-- A `q` is the first key that leaves the menu, so no Enter comes before it. -/
theorem MenuOpen.not_chooses (h : MenuOpen curses items s) (hquit : curses.getch s.used = KEY_QUIT) :
    ¬ Chooses curses.getch := by
  rintro ⟨n,henter,hquits⟩
  have hle : s.used ≤ n := by
    by_contra hlt
    exact h.before n (by omega) (Or.inr henter)
  rcases Nat.eq_or_lt_of_le hle with heq | hlt
  · rw [heq, henter] at hquit
    exact absurd hquit (by decide)
  · exact hquits s.used hlt hquit

theorem MenuOpen.done (h : MenuOpen curses items s) (hr : selectionTurn curses items s = some (.done r)) :
    Chooses curses.getch ∧ 0 ≤ r.1 ∧ r.1.toNat < items ∨ ¬ Chooses curses.getch ∧ r.1 = -1 := by
  by_cases hk : LeavesMenu (curses.getch s.used)
  · rcases hk with hquit | henter
    · rw [selectionTurn_quit hquit] at hr
      cases hr
      exact Or.inr ⟨h.not_chooses hquit,rfl⟩
    · rw [selectionTurn_enter henter] at hr
      cases hr
      refine Or.inl ⟨⟨s.used,henter,?_⟩,by simp,by simpa using h.current⟩
      intro k hlt hquit
      exact h.before k hlt (Or.inl hquit)
  · obtain ⟨current,hagain⟩ := selectionTurn_again items hk
    rw [hagain] at hr
    cases hr

/-- What the menu returns: the current item of the moment Enter is typed, or `-1`. -/
theorem selection_result (hmenu : ∀ request i, i < items → curses.menuDriver items request i < items)
    (hitems : 0 < items) {fuel : ℕ} (h : tuiWaitUserSelection curses fuel items = some r) :
    Chooses curses.getch ∧ 0 ≤ r.1 ∧ r.1.toNat < items ∨ ¬ Chooses curses.getch ∧ r.1 = -1 := by
  apply loop_invariant (MenuOpen curses items) _ (fun s t hs ht => hs.again hmenu ht)
    (fun s r hs hr => hs.done hr) ?_ h
  exact ⟨fun k hk => absurd hk (Nat.not_lt_zero k),hitems⟩

end Menu

theorem mapM_eq_filterMap {α β : Type} {f : α → Option β} {l : List α} (h : ∀ a ∈ l, f a ≠ none) :
    l.mapM f = some (l.filterMap f) ∧ (l.filterMap f).length = l.length := by
  induction l with
  | nil => exact ⟨rfl,rfl⟩
  | cons a l ih =>
    obtain ⟨hmap,hlen⟩ := ih fun b hb => h b (List.mem_cons_of_mem _ hb)
    obtain ⟨b,hb⟩ := Option.ne_none_iff_exists'.mp (h a (List.mem_cons_self ..))
    simp [hb, hmap, hlen]

section Select
variable {w : World} {accounts : List (Account (Option CStr))}

/-- The choice once the menu has been posted. -/
theorem selectAccount_posted (hitem : ∀ a ∈ accounts, tuiItem a ≠ none)
    (hpost : ¬ w.curses.postMenu (accounts.filterMap tuiItem) ≠ E_OK) (fuel : ℕ) :
    selectAccount w fuel accounts =
      Run.ofFuel (tuiWaitUserSelection w.curses fuel accounts.length) >>= fun selected =>
        if selected.1 ≥ 0 then do
          let account ← Run.deref accounts[selected.1.toNat]?
          pure (account,selected.2)
        else pure (Account.null,selected.2) := by
  obtain ⟨hmap,hlen⟩ := mapM_eq_filterMap hitem
  rw [selectAccount, hmap, Run.deref_some, Run.pure_bind, tuiShowMenu, if_neg hpost, hlen]

/-- The menu selects an account exactly when it can be posted and the keys choose. -/
theorem selectAccount_selects_iff
    (hmenu : ∀ items request i, i < items → w.curses.menuDriver items request i < items)
    (hsome : 0 < accounts.length) (hnull : ∀ a ∈ accounts, a ≠ Account.null)
    (hitem : ∀ a ∈ accounts, tuiItem a ≠ none) :
    (∀ fuel r, (selectAccount w fuel accounts).result = .ok r → r.1 = Account.null) ↔
      w.curses.postMenu (accounts.filterMap tuiItem) ≠ E_OK ∨ ¬ Chooses w.curses.getch := by
  by_cases hpost : w.curses.postMenu (accounts.filterMap tuiItem) ≠ E_OK
  · refine iff_of_true ?_ (Or.inl hpost)
    intro fuel r hr
    rw [selectAccount, (mapM_eq_filterMap hitem).1, Run.deref_some, Run.pure_bind, tuiShowMenu, if_pos hpost] at hr
    cases hr
    rfl
  · rw [or_iff_right hpost]
    constructor
    · intro h hchooses
      have hreturns : ∃ fuel r, tuiWaitUserSelection w.curses fuel accounts.length = some r :=
        selection_returns_iff.mpr (hchooses.imp fun n hn => Or.inr hn.1)
      obtain ⟨fuel,r,hr⟩ := hreturns
      rcases selection_result (hmenu accounts.length) hsome hr with ⟨-,hpos,hlt⟩ | ⟨hnot,-⟩
      · have hresult : (selectAccount w fuel accounts).result = .ok (accounts[r.1.toNat],r.2) := by
          rw [selectAccount_posted hitem hpost, hr, Run.ofFuel_some, Run.pure_bind, if_pos hpos,
            List.getElem?_eq_getElem hlt]
          rfl
        exact hnull _ (List.getElem_mem hlt) (h fuel _ hresult)
      · exact hnot hchooses
    · intro hnot fuel r hr
      rw [selectAccount_posted hitem hpost] at hr
      cases hwait : tuiWaitUserSelection w.curses fuel accounts.length with
      | none =>
        rw [hwait] at hr
        cases hr
      | some selected =>
        rcases selection_result (hmenu accounts.length) hsome hwait with ⟨hchooses,-⟩ | ⟨-,hquit⟩
        · exact absurd hchooses hnot
        · have hneg : ¬ selected.1 ≥ 0 := by omega
          rw [hwait, Run.ofFuel_some, Run.pure_bind, if_neg hneg] at hr
          cases hr
          rfl

theorem accountFromList_selects_iff
    (hmenu : ∀ items request i, i < items → w.curses.menuDriver items request i < items)
    (hnull : ∀ a ∈ accounts, a ≠ Account.null) (hitem : ∀ a ∈ accounts, tuiItem a ≠ none) :
    (∀ fuel r, (accountFromList w fuel accounts).result = .ok r → r.1 = Account.null) ↔
      accounts.length = 0 ∨ 2 ≤ accounts.length ∧
        (w.curses.postMenu (accounts.filterMap tuiItem) ≠ E_OK ∨ ¬ Chooses w.curses.getch) := by
  match accounts with
  | [] =>
    refine iff_of_true ?_ (Or.inl rfl)
    intro fuel r hr
    cases hr
    rfl
  | [a] =>
    refine iff_of_false ?_ (by simp)
    intro h
    exact hnull a (List.mem_singleton_self a) (h 0 (a,0) rfl)
  | a :: b :: rest =>
    rw [or_iff_right (by simp), and_iff_right (by simp)]
    exact selectAccount_selects_iff hmenu (by simp) hnull hitem

end Select

/-- With its input at an end the menu is left only by a `q` or an Enter that came before. -/
theorem tuiWaitUserSelection_ends_iff (curses : Curses) (items : ℕ) (keys : List ℤ) :
    (∃ fuel r, tuiWaitUserSelection { curses with getch := fun k => keys.getD k EOF } fuel items = some r) ↔
      KEY_QUIT ∈ keys ∨ KEY_ENTER ∈ keys := by
  have hkey (c : ℤ) (hc : c ≠ EOF) : (∃ k, keys.getD k EOF = c) ↔ c ∈ keys := by
    constructor
    · rintro ⟨k,rfl⟩
      have hlt : k < keys.length := by
        by_contra hge
        exact hc (List.getD_eq_default _ _ (by omega))
      rw [List.getD_eq_getElem _ _ hlt]
      exact List.getElem_mem hlt
    · intro hmem
      obtain ⟨k,hk,rfl⟩ := List.getElem_of_mem hmem
      exact ⟨k,List.getD_eq_getElem _ _ hk⟩
  rw [selection_returns_iff]
  simp only [LeavesMenu, exists_or]
  rw [hkey KEY_QUIT (by decide), hkey KEY_ENTER (by decide)]

/-- No key at all, as when the database was read from the standard input. -/
theorem tuiWaitUserSelection_endless :
    ¬ ∀ (curses : Curses) (items : ℕ) (keys : List ℤ), ∃ fuel r,
      tuiWaitUserSelection { curses with getch := fun k => keys.getD k EOF } fuel items = some r := by
  intro h
  obtain ⟨k,hk⟩ := selection_returns_iff.mp (h ⟨fun _ => EOF,fun _ => E_OK,fun _ _ i => i⟩ 2 [])
  rcases hk with hquit | henter
  · change EOF = KEY_QUIT at hquit
    exact absurd hquit (by decide)
  · change EOF = KEY_ENTER at henter
    exact absurd henter (by decide)

end Padre
