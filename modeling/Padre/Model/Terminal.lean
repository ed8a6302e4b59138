import Padre.General.FuelLoop
import Padre.Model.CommandLine

/-! # The terminal interface

`tui.c` over the stream of values `getch` returns. The curses menu itself is not part of
the program: which item a request makes the current one, and whether a menu can be
posted, are parameters.
-/
namespace Padre
open CString FuelLoop Trace

/-- `ERR` of curses is the `EOF` the prompt compares with. -/
def EOF : ℤ := -1
def KEY_DOWN : ℤ := 258
def KEY_UP : ℤ := 259
def KEY_ENTER : ℤ := 10
def KEY_QUIT : ℤ := 113
def E_OK : ℤ := 0

structure TuiItem where
  name : Option (Option CStr)
  description : List UInt8
deriving DecidableEq

inductive MenuRequest where
  | downItem
  | upItem
deriving DecidableEq

/-- The parts of curses the menu relies on. -/
structure Curses where
  getch : ℕ → ℤ
  postMenu : List TuiItem → ℤ
  menuDriver : ℕ → MenuRequest → ℕ → ℕ

/-- The current item and the number of keys taken from the stream. -/
structure MenuState where
  current : ℕ
  used : ℕ
deriving DecidableEq

/-- A turn of the loop in `tui__wait_user_selection`. -/
def selectionTurn (curses : Curses) (items : ℕ) (s : MenuState) :
    Option (Turn MenuState (ℤ × ℕ)) :=
  let c := curses.getch s.used
  let used := s.used + 1
  if c = KEY_QUIT then some (.done (-1,used))
  else if c = KEY_DOWN then some (.again ⟨curses.menuDriver items .downItem s.current,used⟩)
  else if c = KEY_UP then some (.again ⟨curses.menuDriver items .upItem s.current,used⟩)
  else if c = KEY_ENTER then some (.done (s.current,used))
  else some (.again ⟨s.current,used⟩)

def tuiWaitUserSelection (curses : Curses) (fuel items : ℕ) : Option (ℤ × ℕ) :=
  loop (selectionTurn curses items) fuel ⟨0,0⟩

/-- `tui_show_menu`: the selected item and the number of keys it took. -/
def tuiShowMenu (curses : Curses) (fuel : ℕ) (items : List TuiItem) : Run Event (ℤ × ℕ) :=
  let ret := curses.postMenu items
  if ret ≠ E_OK then do
    Run.emit (.stderr ("Error trying to show ncurses menu: " ++ toString ret ++ "\n"))
    pure (-1,0)
  else Run.ofFuel (tuiWaitUserSelection curses fuel items.length)

/-- `(char)c` -/
def charOf (c : ℤ) : UInt8 := UInt8.ofNat (c % 256).toNat

/-- The loop of `tui_ask_password` with `room = *len - curr_len`: the array, `curr_len`
and the last `c`. -/
def askLoop (keys : ℕ → ℤ) (passwd : List UInt8) (currLen : ℕ) :
    (room : ℕ) → Run Event (List UInt8 × ℕ × ℤ)
  | 0 => pure (passwd,currLen,keys currLen)
  | room + 1 =>
    let c := keys currLen
    if c = EOF ∨ c = KEY_ENTER then pure (passwd,currLen,c)
    else do
      Run.emit (.key currLen (charOf c))
      askLoop keys (passwd.set currLen (charOf c)) (currLen + 1) room

/-- What `tui_ask_password` returns, and `passwd` and `*len` after it. -/
structure Asked where
  ret : ℤ
  passwd : List UInt8
  len : ℕ
deriving DecidableEq

def tuiAskPassword (keys : ℕ → ℤ) (passwd : List UInt8) (len : ℕ) : Run Event Asked := do
  let r ← askLoop keys passwd 0 len
  Run.emit (.zero r.2.1)
  pure ⟨if r.2.2 = EOF then -1 else 0,r.1.set r.2.1 0,r.2.1⟩

end Padre
