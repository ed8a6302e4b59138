import Padre.CommandLine.Meaning
import Padre.Charset.Notation
import Padre.Database.Diagnostics
import Padre.Password.Conversion
import Padre.Run.Buffer
import Padre.Run.Menu
import Padre.Run.Prompt
import Padre.Run.ReadError

/-! # What the program is for

The program without its loops and its buffers: an account comes from the options or from a
text of rows, a line is typed, and the password is the derived bytes, each replaced by the
character of the spec that its residue selects. What is left of the machine are the outcomes
a user can see (messages, the exit status, a run that does not end), which allocations succeed,
and one trace of the memory: behind the pattern of a last row without a newline stand the bytes
of the allocation that the file has not filled.
-/
namespace Padre
open CString Rows Trace

/-- What a user sees: neither the writes to `master_pwd` nor the calls inside the program. -/
def Event.visible : Event → Bool
  | .stderr _ => true
  | .perror _ => true
  | .openFailed _ => true
  | .stdout _ => true
  | _ => false

namespace Purpose

def fails (texts : List String) : Run Event ℕ := do
  Run.emits (texts.map .perror)
  pure EXIT_FAILURE

/-- The characters of a spec. -/
def characters (spec : CStr) : List UInt8 := untilNul (expansion (resolveClass spec))

def password (chars bytes : List UInt8) : List UInt8 := bytes.map (charAt chars chars.length)

/-- The spec has whitespace or a range without an end. -/
def Endless (spec : CStr) : Prop :=
  spec.bytes.any isspace = true ∨ (items spec.bytes).any Item.endless = true

instance instDecidableEndless (spec : CStr) : Decidable (Endless spec) :=
  inferInstanceAs (Decidable (_ ∨ _))

/-- The password over the characters of `spec`. -/
def printOver (w : World) (spec : CStr) (bytes : List UInt8) : Run Event ℕ :=
  if Endless spec then Run.stop .unfinished
  else if 94 < (expansion (resolveClass spec)).length then fails ["Error enumerating the charset"]
  else if w.malloc .charset (characters spec).length = false then
    fails ["While enumerating the charset","Error enumerating the charset"]
  else if characters spec = [] ∧ bytes ≠ [] then Run.stop .undefined
  else do
    Run.emit (.stdout (password (characters spec) bytes ++ [newline]))
    pure EXIT_SUCCESS

def print (w : World) (account : Account (Option CStr)) (bytes : List UInt8) : Run Event ℕ :=
  match account.characters with
  | none => fails ["Error enumerating the charset"]
  | some none => Run.stop .undefined
  | some (some spec) => printOver w spec bytes

def derive (w : World) (account : Account (Option CStr)) (master : List UInt8) : Run Event ℕ := do
  let domain ← Run.deref (account.domain.bind id)
  let username ← Run.deref (account.username.bind id)
  let iteration ← Run.deref (account.iteration.bind id)
  if w.malloc .salt (saltLen domain username iteration + 1) = false then
    fails ["Could not allocate memory for the salt","Error deriving the domain password"]
  else
    let key := w.scrypt master (domain.bytes ++ username.bytes ++ iteration.bytes) MP_N MP_r MP_p account.length
    if key.1 ≠ 0 then fails ["Error deriving the domain password"]
    else print w account key.2.toList

/-- The line that is typed, as far as there is room, unless the input ends in it. -/
def masterPassword (keys : ℕ → ℤ) : Option (List UInt8) :=
  if keys (promptLen keys) = EOF then none else some (typed keys 0 (promptLen keys))

/-- The program once the account is known. -/
def ask (w : World) (account : Account (Option CStr)) (keys : ℕ → ℤ) : Run Event ℕ :=
  if account.domain = none then pure EXIT_FAILURE
  else if w.malloc .password (account.length + 1) = false then
    fails ["Error allocating memory for the derived password"]
  else
    match masterPassword keys with
    | none => fails ["Error reading the master password from the standard input"]
    | some master => derive w account master

/-- The choice between several accounts, and the number of keys it takes. -/
noncomputable def choose (w : World) (accounts : List (Account (Option CStr))) :
    Run Event (Account (Option CStr) × ℕ) :=
  if w.curses.postMenu (accounts.filterMap tuiItem) ≠ E_OK then do
    Run.emit (.stderr ("Error trying to show ncurses menu: " ++
      toString (w.curses.postMenu (accounts.filterMap tuiItem)) ++ "\n"))
    pure (Account.null,0)
  else
    match leavingKey w.curses.getch with
    | none => Run.stop .unfinished
    | some k =>
      if w.curses.getch k = KEY_QUIT then pure (Account.null,k + 1)
      else do
        let account ← Run.deref accounts[cursor w.curses accounts.length k]?
        pure (account,k + 1)

noncomputable def select (w : World) (accounts : List (Account (Option CStr))) :
    Run Event (Account (Option CStr) × ℕ) :=
  match accounts with
  | [] => do
    Run.emit (.stderr "Error: could not read any accounts from given file\n")
    pure (Account.null,0)
  | [account] => do
    Run.emit (.stderr "Warning: automatically selected the only available account\n")
    pure (account,0)
  | accounts => choose w accounts

/-- What the allocation holds behind a text of `size` bytes. -/
def slack (w : World) (size : ℕ) : List UInt8 := fresh (w.uninit .database) size (capacityOf size - size)

noncomputable def lookUp (w : World) (text : List UInt8) : Run Event (Account (Option CStr) × ℕ) :=
  if MAX_DATABASE_FILE_SIZE < text.length + CHUNK_SIZE then do
    Run.emit (.stderr "Error: database file exceeds size limit\n")
    pure (Account.null,0)
  else do
    Run.emits ((messages reportedLine [] (rows newline text) (rest newline text)).map fun d => .stderr d.text)
    select w (storedAccounts text (slack w text.length))

/-- The account that is asked for, and the number of keys it takes to choose it. -/
noncomputable def determine (w : World) (options : CliOpts) : Run Event (Account (Option CStr) × ℕ) :=
  if options.username = none then do
    let path ← Run.deref options.domainOrDatabase
    match openStream w path with
    | none => do
      Run.emit (.openFailed path)
      pure (Account.null,0)
    | some chunks => lookUp w (delivered chunks)
  else pure (accountFromOptions options,0)

noncomputable def accountOf (w : World) (argv : List ArgpEvent) : Run Event (Account (Option CStr) × ℕ) := do
  let options ← commandLine [] argv
  determine w options

noncomputable def program (w : World) (argv : List ArgpEvent) : Run Event ℕ := do
  let determined ← accountOf w argv
  ask w determined.1 fun k => w.curses.getch (determined.2 + k)

end Purpose

end Padre
