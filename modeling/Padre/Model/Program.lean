import Padre.Model.Accounts
import Padre.Model.Charset
import Padre.Model.Derivation
import Padre.Model.Terminal

/-! # The program

`read_entire_file`, `determine_account` and `main` of `main.c`. A `World` is what a run
depends on besides its arguments: the files, the memory nobody has written yet, the
success of `malloc`, the key derivation function and the terminal.
-/
namespace Padre
open CString Trace

def CHUNK_SIZE : ℕ := 1024
def MAX_DATABASE_FILE_SIZE : ℕ := 1024 * 16
def MAX_MASTER_PASSWORD_LENGTH : ℕ := 64
def EXIT_SUCCESS : ℕ := 0
def EXIT_FAILURE : ℕ := 1

/-- What one `fread` of a chunk stores; at most as much as was asked for. -/
structure Chunk where
  bytes : List UInt8
  length_le : bytes.length ≤ CHUNK_SIZE

/-- The objects whose first content is indeterminate. -/
inductive Object where
  | database
  | password
  | masterPwd
  | salt
  | chars
  | charset
deriving DecidableEq

structure World where
  /-- the reads that opening a path leads to, when it can be opened -/
  fopen : CStr → Option (List Chunk)
  stdin : List Chunk
  uninit : Object → ℕ → UInt8
  malloc : Object → ℕ → Bool
  scrypt : Scrypt
  curses : Curses

/-- `struct buffer` -/
structure Buffer where
  data : Option (List UInt8)
  size : ℕ
  capacity : ℕ
deriving DecidableEq

/-- `n` bytes nobody has written, from offset `off` of their object on. -/
def fresh (uninit : ℕ → UInt8) (off n : ℕ) : List UInt8 := (List.range' off n).map uninit

/-- `realloc` to a larger capacity. -/
def reallocBytes (uninit : ℕ → UInt8) (data : List UInt8) (capacity : ℕ) : List UInt8 :=
  data ++ fresh uninit data.length (capacity - data.length)

/-- The loop of `read_entire_file` over what `fread` delivers; no bytes end it. -/
def readLoop (uninit : ℕ → UInt8) (data : List UInt8) (size capacity : ℕ) :
    List Chunk → Run Event Buffer
  | [] => pure ⟨some data,size,capacity⟩
  | chunk :: chunks =>
    if chunk.bytes = [] then pure ⟨some data,size,capacity⟩
    else
      let data := memcpy data size chunk.bytes
      let size := size + chunk.bytes.length
      if size + CHUNK_SIZE > capacity then
        let capacity := capacity * 2
        if capacity > MAX_DATABASE_FILE_SIZE then do
          Run.emit (.stderr "Error: database file exceeds size limit\n")
          pure ⟨none,size,capacity⟩
        else readLoop uninit (reallocBytes uninit data capacity) size capacity chunks
      else readLoop uninit data size capacity chunks

/-- The stream `read_entire_file` reads. -/
def openStream (w : World) (path : CStr) : Option (List Chunk) :=
  if path.bytes = literal "-" then some w.stdin else w.fopen path

/-- `read_entire_file`; `strcmp` dereferences the path. -/
def readEntireFile (w : World) (path : Option CStr) : Run Event Buffer := do
  let path ← Run.deref path
  match openStream w path with
  | none => do
    Run.emit (.openFailed path)
    pure ⟨none,0,0⟩
  | some chunks =>
    readLoop (w.uninit .database) (fresh (w.uninit .database) 0 CHUNK_SIZE) 0 CHUNK_SIZE chunks

/-- How `%s` prints a pointer; the C library has a text for a null pointer. -/
def formatStr : Option (Option CStr) → Option (List UInt8)
  | none => some (literal "(null)")
  | some none => none
  | some (some s) => some s.bytes

/-- The menu item of an account, its description cut to 255 bytes. -/
def tuiItem (account : Account (Option CStr)) : Option TuiItem :=
  match formatStr account.username, formatStr account.iteration with
  | some username, some iteration =>
    some ⟨account.domain,(username ++ literal ", iteration " ++ iteration).take 255⟩
  | _, _ => none

/-- The choice between several accounts: the account and the number of keys it took. -/
def selectAccount (w : World) (fuel : ℕ) (accounts : List (Account (Option CStr))) :
    Run Event (Account (Option CStr) × ℕ) := do
  let items ← Run.deref (accounts.mapM tuiItem)
  let selected ← tuiShowMenu w.curses fuel items
  if selected.1 ≥ 0 then do
    let account ← Run.deref accounts[selected.1.toNat]?
    pure (account,selected.2)
  else pure (Account.null,selected.2)

/-- What `determine_account` does with a list of accounts. -/
def accountFromList (w : World) (fuel : ℕ) (accounts : List (Account (Option CStr))) :
    Run Event (Account (Option CStr) × ℕ) :=
  match accounts with
  | [] => do
    Run.emit (.stderr "Error: could not read any accounts from given file\n")
    pure (Account.null,0)
  | [account] => do
    Run.emit (.stderr "Warning: automatically selected the only available account\n")
    pure (account,0)
  | accounts => selectAccount w fuel accounts

/-- The account the options themselves describe. -/
def accountFromOptions (options : CliOpts) : Account (Option CStr) where
  domain := options.domainOrDatabase.map some
  username := options.username.map some
  iteration := some (some (options.iteration.getD (CStr.upto (literal "0"))))
  characters := some (some (options.characters.getD (CStr.upto (literal ""))))
  length := if options.length = 0 then 64 else options.length

/-- `determine_account`: the account, its fields read as C strings, and the number of
keys that were typed. -/
def determineAccount (w : World) (fuel : ℕ) (options : CliOpts) :
    Run Event (Account (Option CStr) × ℕ) :=
  if options.username = none then do
    Run.emit (.readEntireFile options.domainOrDatabase)
    let buf ← readEntireFile w options.domainOrDatabase
    match buf.data with
    | none => pure (Account.null,0)
    | some data => do
      let parsed := parseAccounts data 0 buf.size
      Run.emits (parsed.stderr.map fun d => .stderr d.text)
      accountFromList w fuel parsed.read
  else pure (accountFromOptions options,0)

/-- The characters of an account as the argument of `enumerate_charset`, which accepts a
null pointer but reads any other one up to a terminator. -/
def charsetSpec : Option (Option CStr) → Run Event (Option CStr)
  | none => pure none
  | some none => Run.stop .undefined
  | some (some spec) => pure (some spec)

/-- `main` from the enumeration of the character set on. -/
def printPassword (w : World) (fuel : ℕ) (account : Account (Option CStr))
    (password : List UInt8) : Run Event ℕ := do
  let spec ← charsetSpec account.characters
  let r ← Run.ofFuel (enumerateCharset fuel (w.malloc .charset) (w.uninit .chars) spec freshOut)
  Run.emits (r.2.stderr.map .perror)
  if r.1 ≠ 0 then do
    Run.emit (.perror "Error enumerating the charset")
    pure EXIT_FAILURE
  else do
    let chars ← Run.deref (r.2.res.bind id)
    let len ← Run.deref r.2.rlen
    let converted ← Run.deref (toChars password 0 chars.bytes len account.length)
    let line ← Run.deref (strAt converted.1 0)
    Run.emit (.stdout (line.bytes ++ [newline]))
    pure EXIT_SUCCESS

/-- `main` between the two comments about the master password: the derivation and the
`memset`. -/
def deriveAndClear (w : World) (account : Account (Option CStr)) (asked : Asked) :
    Run Event Derived := do
  let domain ← Run.deref (account.domain.bind id)
  let username ← Run.deref (account.username.bind id)
  let iteration ← Run.deref (account.iteration.bind id)
  let derived := derivePassword w.scrypt (w.malloc .salt) (w.uninit .salt)
    (asked.passwd.take asked.len) domain username iteration account.length
    (fresh (w.uninit .password) 0 (account.length + 1))
  Run.emits (derived.stderr.map .perror)
  Run.emits ((List.range MAX_MASTER_PASSWORD_LENGTH).map .zero)
  pure derived

/-- `main` once the master password has been read. -/
def afterPrompt (w : World) (fuel : ℕ) (account : Account (Option CStr)) (asked : Asked) :
    Run Event ℕ := do
  let derived ← deriveAndClear w account asked
  if derived.ret ≠ 0 then do
    Run.emit (.perror "Error deriving the domain password")
    pure EXIT_FAILURE
  else printPassword w fuel account derived.buf

/-- `main` once the account is known, with the keys that are still to be typed. -/
def mainWith (w : World) (fuel : ℕ) (account : Account (Option CStr)) (keys : ℕ → ℤ) :
    Run Event ℕ :=
  if account.domain = none then pure EXIT_FAILURE
  else if w.malloc .password (account.length + 1) = false then do
    Run.emit (.perror "Error allocating memory for the derived password")
    pure EXIT_FAILURE
  else do
    let asked ← tuiAskPassword keys (fresh (w.uninit .masterPwd) 0 MAX_MASTER_PASSWORD_LENGTH)
      MAX_MASTER_PASSWORD_LENGTH
    if asked.ret ≠ 0 then do
      Run.emit (.perror "Error reading the master password from the standard input")
      pure EXIT_FAILURE
    else afterPrompt w fuel account asked

/-- `determine_account(cli_parse(argc, argv))` on the calls of `parse_opt` the arguments
lead to. -/
def mainAccount (w : World) (fuel : ℕ) (argv : List ArgpEvent) : Run Event (Account (Option CStr) × ℕ) := do
  let options ← cliParse argv
  Run.emit (.determineAccount options)
  determineAccount w fuel options

def main (w : World) (fuel : ℕ) (argv : List ArgpEvent) : Run Event ℕ := do
  let determined ← mainAccount w fuel argv
  mainWith w fuel determined.1 fun k => w.curses.getch (determined.2 + k)

/-- A world with memory to spare in which every name opens `file`, the keys are followed by
the end of the input and every derived byte is `b`. -/
def plainWorld (keys : List ℤ) (file : List Chunk) (b : UInt8) : World where
  fopen _ := some file
  stdin := []
  uninit _ _ := 7
  malloc _ _ := true
  scrypt _ _ _ _ _ n := (0,Vector.replicate n b)
  curses := ⟨fun k => keys.getD k EOF,fun _ => E_OK,fun _ _ i => i⟩

end Padre
