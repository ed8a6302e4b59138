import Padre.General.CString
import Padre.General.Numeral

/-! # Accounts and the database scanner

`struct account`, the growing account list and `parse_accounts` of `padre.c`. The
scanner works in place: `mem` is the object the file was read into and every pointer
is an offset into it. A null pointer is `none`.
-/
namespace Padre
open CString

def newline : UInt8 := 10
def comma : UInt8 := 44

/-- `struct account`, over the pointers or over what they point to. -/
structure Account (P : Type) where
  domain : Option P
  username : Option P
  iteration : Option P
  characters : Option P
  length : ℕ
deriving DecidableEq

namespace Account
variable {P Q : Type}

/-- `{nullptr, nullptr, nullptr, nullptr, 0}` -/
def null : Account P := ⟨none,none,none,none,0⟩

def map (f : P → Q) (a : Account P) : Account Q :=
  ⟨a.domain.map f,a.username.map f,a.iteration.map f,a.characters.map f,a.length⟩

end Account

/-- `struct account_list`: the slots `malloc` and `realloc` made room for, of which
the first `size` have been written. -/
structure AccountList where
  accounts : List (Option (Account ℕ))
  size : ℕ
  capacity : ℕ
deriving DecidableEq

def newAccountList (initialCapacity : ℕ) : AccountList :=
  ⟨List.replicate initialCapacity none,0,initialCapacity⟩

/-- `free_account_list` leaves `{nullptr, 0, 0}` behind. -/
def freeAccountList : AccountList := ⟨[],0,0⟩

/-- `realloc`: what fits of the old slots, followed by slots nobody has written. -/
def reallocSlots (slots : List (Option (Account ℕ))) (capacity : ℕ) : List (Option (Account ℕ)) :=
  slots.take capacity ++ List.replicate (capacity - slots.length) none

/-- The doubling of a full list in `push_account`. -/
def growAccountList (list : AccountList) : AccountList :=
  if list.size = list.capacity then
    { list with capacity := list.capacity * 2, accounts := reallocSlots list.accounts (list.capacity * 2) }
  else list

def pushAccount (list : AccountList) (account : Account ℕ) : AccountList :=
  let list := growAccountList list
  { list with accounts := list.accounts.set list.size (some account), size := list.size + 1 }

/-- The accounts a caller of `parse_accounts` finds in the list. -/
def AccountList.entries (list : AccountList) : List (Account ℕ) :=
  (list.accounts.take list.size).reduceOption

/-- What `parse_accounts` prints to the standard error. -/
inductive Diagnostic where
  | invalidEntry (line : ℕ)
  | invalidLength (line : ℕ)
deriving DecidableEq

def Diagnostic.text : Diagnostic → String
  | .invalidEntry line => "Error: invalid entry at line " ++ toString line ++ ", skipping\n"
  | .invalidLength line =>
    "Error: the length of the derived password may not be negative or zero, line "
      ++ toString line ++ "\n"

def AVERAGE_DATABASE_ENTRY_SIZE : ℕ := 60

/-- The variables of `parse_accounts` between two characters. -/
structure ParseState where
  mem : List UInt8
  list : AccountList
  cur : ℕ
  account : Account ℕ
  stderr : List Diagnostic
deriving DecidableEq

/-- One turn of the scan, with `str` the character it looks at. The early return of a
rejected length leaves the freed list in the state it fails with. -/
def parseByte (st : ParseState) (str : ℕ) : Except ParseState ParseState :=
  if st.mem.getD str 0 = newline then
    let account := { st.account with characters := some st.cur }
    let next := { st with mem := st.mem.set str 0, account := Account.null, cur := str + 1 }
    if account.domain = none ∨ account.username = none then
      .ok { next with stderr := st.stderr ++ [.invalidEntry (st.list.size + 1)] }
    else
      .ok { next with list := pushAccount st.list account }
  else if st.mem.getD str 0 = comma then
    let next := { st with mem := st.mem.set str 0, cur := str + 1 }
    if st.account.domain = none then
      .ok { next with account := { st.account with domain := some st.cur } }
    else if st.account.username = none then
      .ok { next with account := { st.account with username := some st.cur } }
    else if st.account.iteration = none then
      .ok { next with account := { st.account with iteration := some st.cur } }
    else if st.account.length = 0 then
      -- `str` has become the terminator of the numeral before `atoi` reads it
      let tmp := atoi ((st.mem.set str 0).drop st.cur)
      if tmp = 0 ∨ tmp < 0 then
        .error { st with
          mem := st.mem.set str 0
          list := freeAccountList
          stderr := st.stderr ++ [.invalidLength (st.list.size + 1)] }
      else
        .ok { next with account := { st.account with length := tmp.toNat } }
    else .ok st -- the comma is part of the pattern
  else .ok st

/-- The state in front of the scan of `end_ - begin` bytes. -/
def parseStart (mem : List UInt8) (begin end_ : ℕ) : ParseState where
  mem := mem
  list := newAccountList
    (if end_ - begin < AVERAGE_DATABASE_ENTRY_SIZE then 1
      else (end_ - begin) / AVERAGE_DATABASE_ENTRY_SIZE)
  cur := begin
  account := Account.null
  stderr := []

/-- The first `count` turns of the loop over `begin ≤ str < end_`. -/
def parseLoop (st : ParseState) (begin count : ℕ) : Except ParseState ParseState :=
  (List.range' begin count).foldlM parseByte st

theorem parseLoop_succ (st : ParseState) (begin count : ℕ) :
    parseLoop st begin (count + 1) = parseByte st begin >>= fun next => parseLoop next (begin + 1) count := by
  rw [parseLoop, List.range'_succ, List.foldlM_cons]
  rfl

/-- What `parse_accounts` leaves: its result, the object and its messages. -/
structure Parsed where
  list : AccountList
  mem : List UInt8
  stderr : List Diagnostic
deriving DecidableEq

def parseAccounts (mem : List UInt8) (begin end_ : ℕ) : Parsed :=
  match parseLoop (parseStart mem begin end_) begin (end_ - begin) with
  | .error st => ⟨st.list,st.mem,st.stderr⟩
  | .ok st =>
    if st.cur < end_ then -- missing a newline at the end of the file
      ⟨pushAccount st.list { st.account with characters := some st.cur },st.mem,st.stderr⟩
    else ⟨st.list,st.mem,st.stderr⟩

/-- The accounts returned, with each field read as a C string after the scan. A field
that no NUL inside the object terminates reads as `none`. -/
def Parsed.read (p : Parsed) : List (Account (Option CStr)) :=
  p.list.entries.map (Account.map (strAt p.mem))

end Padre
