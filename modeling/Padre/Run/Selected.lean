import Padre.Run.Agreement
import Padre.Run.Alike

/-! # Selecting an account is giving it

Whichever row of a database the keys lead to, from the moment it is selected the program
goes on as if the account had been given by options, and nothing is seen of the way there.
-/
namespace Padre
open CString Rows Trace

namespace WrittenAccount

/-- The rows of some accounts, each with its newline. -/
def file (accounts : List WrittenAccount) : List UInt8 := accounts.flatMap fun a => a.row ++ [newline]

variable (accounts : List WrittenAccount)

theorem rows_file : rows newline (file accounts) = accounts.map row ∧ rest newline (file accounts) = [] := by
  have hfree : ∀ r ∈ accounts.map row, newline ∉ r := List.forall_mem_map.mpr fun a _ => a.newline_notMem_row
  have hrows := rows_flatMap hfree
  rwa [List.flatMap_map] at hrows

theorem file_accepted : textRejected (file accounts) = false := by
  obtain ⟨hrows,hrest⟩ := rows_file accounts
  simp only [textRejected, hrows, hrest, Bool.or_eq_false_iff, List.any_eq_false]
  refine ⟨List.forall_mem_map.mpr fun a _ => ?_,by decide⟩
  simp [a.row_not_rejected]

theorem stored_file (tail : List UInt8) : storedAccounts (file accounts) tail = accounts.map account := by
  obtain ⟨hrows,hrest⟩ := rows_file accounts
  have hentries : (accounts.map row).filterMap rowEntry = accounts.map account := by
    rw [List.filterMap_map, ← List.filterMap_eq_map]
    exact congrArg (List.filterMap · accounts) (funext fun a => a.rowEntry_row)
  simp [storedAccounts, file_accepted, textEntries, hrows, hrest, hentries, lastEntry_nil]

/-- Reading the rows prints nothing. -/
theorem messages_rows (line : List UInt8 → ℕ) (above : List UInt8) :
    messages line above (accounts.map row) [] = [] := by
  induction accounts generalizing above with
  | nil => rfl
  | cons a accounts ih => simp [messages, a.row_not_rejected, a.rowEntry_row, ih]

end WrittenAccount

section Selected
variable {w : World} {accounts : List WrittenAccount} {a : WrittenAccount} {m : ℕ}

theorem choose_selected (hitems : w.curses.postMenu ((accounts.map WrittenAccount.account).filterMap tuiItem) = E_OK)
    (hbefore : ∀ j < m, ¬ LeavesMenu (w.curses.getch j)) (henter : w.curses.getch m = KEY_ENTER)
    (hselected : accounts[cursor w.curses accounts.length m]? = some a) :
    Purpose.choose w (accounts.map WrittenAccount.account) = pure (a.account,m + 1) := by
  have hk : leavingKey w.curses.getch = some m := leavingKey_eq_some.mpr ⟨Or.inr henter,hbefore⟩
  have hquit : ¬ w.curses.getch m = KEY_QUIT := by
    rw [henter]
    decide
  unfold Purpose.choose
  rw [if_neg (not_not.mpr hitems), hk]
  simp only [if_neg hquit, List.length_map, List.getElem?_map, hselected]
  rfl

theorem lookUp_selected {text : List UInt8} (htext : text = WrittenAccount.file accounts)
    (hfits : text.length + CHUNK_SIZE ≤ MAX_DATABASE_FILE_SIZE) (hseveral : 2 ≤ accounts.length)
    (hposted : w.curses.postMenu (menuItems text) = E_OK)
    (hbefore : ∀ j < m, ¬ LeavesMenu (w.curses.getch j)) (henter : w.curses.getch m = KEY_ENTER)
    (hselected : accounts[cursor w.curses accounts.length m]? = some a) :
    Purpose.lookUp w text = pure (a.account,m + 1) := by
  obtain ⟨hrows,hrest⟩ := WrittenAccount.rows_file accounts
  have hstored := WrittenAccount.stored_file accounts
  subst htext
  rw [menuItems, hstored] at hposted
  have hselect : Purpose.select w (accounts.map WrittenAccount.account) = pure (a.account,m + 1) := by
    match accounts, hseveral with
    | _ :: _ :: _, _ => exact choose_selected hposted hbefore henter hselected
  unfold Purpose.lookUp
  rw [if_neg (Nat.not_lt.mpr hfits), hrows, hrest, WrittenAccount.messages_rows, hstored, hselect]
  rfl

/-- Whatever account of a database is selected, the program goes on as if it had been given by
options, in any order. -/
theorem main_selected {path : CStr} {chunks : List Chunk} {events : List ArgpEvent}
    (hopen : openStream w path = some chunks) (hfile : delivered chunks = WrittenAccount.file accounts)
    (hfits : (delivered chunks).length + CHUNK_SIZE ≤ MAX_DATABASE_FILE_SIZE) (hseveral : 2 ≤ accounts.length)
    (hposted : w.curses.postMenu (menuItems (delivered chunks)) = E_OK)
    (hbefore : ∀ j < m, ¬ LeavesMenu (w.curses.getch j)) (henter : w.curses.getch m = KEY_ENTER)
    (hselected : accounts[cursor w.curses accounts.length m]? = some a) (hgiven : a.Given events) :
    Run.SameOutcome Event.visible (fun fuel => main w fuel [.keyArg path])
      (fun fuel => main (w.typing fun j => w.curses.getch (m + 1 + j)) fuel events) := by
  have hdatabase : Purpose.program w [.keyArg path] =
      Purpose.ask w a.account fun j => w.curses.getch (m + 1 + j) := by
    have hoptions : commandLine [] [.keyArg path] = pure ⟨some path,none,none,none,0⟩ := rfl
    have hchosen := lookUp_selected hfile hfits hseveral hposted hbefore henter hselected
    rw [Purpose.program, Purpose.accountOf, hoptions, Run.pure_bind, Purpose.determine, if_pos rfl, Run.deref_some,
      Run.pure_bind, hopen]
    simp only [hchosen, Run.pure_bind]
  have hoptions : Purpose.program (w.typing fun j => w.curses.getch (m + 1 + j)) events =
      Purpose.ask w a.account fun j => w.curses.getch (m + 1 + j) := by
    have haccount : accountFromOptions ⟨some a.domain.str,some a.username.str,some a.iteration.str,
        some a.characters.str,(atoi a.length.str.bytes).toNat⟩ = a.account := by
      have hpos := a.length_pos
      have hlength : (atoi a.length.str.bytes).toNat ≠ 0 := by omega
      simp [accountFromOptions, WrittenAccount.account, hlength]
    have hkeys : (fun k => (w.typing fun j => w.curses.getch (m + 1 + j)).curses.getch (0 + k)) =
        fun j => w.curses.getch (m + 1 + j) := by
      funext k
      rw [Nat.zero_add]
      rfl
    rw [Purpose.program, Purpose.accountOf, ← cliParse_eq, hgiven.cliParse_eq, Run.pure_bind, Purpose.determine,
      if_neg (by simp), Run.pure_bind, haccount, hkeys]
    exact ask_congr rfl rfl a.account _
  have hmain := main_comesTo w [.keyArg path]
  have hmain' := main_comesTo (w.typing fun j => w.curses.getch (m + 1 + j)) events
  rw [hdatabase] at hmain
  rw [hoptions] at hmain'
  exact hmain.same hmain'

end Selected

/-- A second account to write. -/
def writtenXyz : WrittenAccount where
  domain := ⟨CStr.upto (literal "x"),by decide,by decide⟩
  username := ⟨CStr.upto (literal "y"),by decide,by decide⟩
  iteration := ⟨CStr.upto (literal "1"),by decide,by decide⟩
  length := ⟨CStr.upto (literal "8"),by decide,by decide⟩
  characters := ⟨CStr.upto (literal "x-z"),by decide⟩
  length_pos := by decide

/-- A menu that moves by one item, up to its ends, in front of two accounts. -/
def pickWorld : World :=
  { plainWorld [] [chunkAbc,⟨literal "x,y,1,8,x-z\n",by decide⟩] 4 with
    curses := ⟨fun k => [KEY_DOWN,KEY_ENTER,120,10].getD k EOF,fun _ => E_OK,fun items request i =>
      match request with
      | .downItem => min (i + 1) (items - 1)
      | .upItem => i - 1⟩ }

theorem main_selected_second :
    Run.SameOutcome Event.visible (fun fuel => main pickWorld fuel [.keyArg (CStr.upto (literal "f"))])
      (fun fuel => main (pickWorld.typing fun j => pickWorld.curses.getch (1 + 1 + j)) fuel
        [.l (CStr.upto (literal "8")),.keyArg (CStr.upto (literal "x")),.keyArg (CStr.upto (literal "y")),
          .c (CStr.upto (literal "x-z")),.i (CStr.upto (literal "1"))]) := by
  have hselected : [writtenAbc,writtenXyz][cursor pickWorld.curses 2 1]? = some writtenXyz := rfl
  refine main_selected (show _ = some [chunkAbc,⟨literal "x,y,1,8,x-z\n",by decide⟩] by rfl) (by decide) (by decide)
    (by decide) (by decide) ?_ (by decide) hselected ⟨by decide,by decide⟩
  intro j hj
  obtain rfl := Nat.lt_one_iff.mp hj
  exact not_or.mpr ⟨by decide,by decide⟩

end Padre
