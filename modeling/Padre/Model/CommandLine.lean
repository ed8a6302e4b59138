import Padre.General.CString
import Padre.General.Numeral
import Padre.General.Trace

/-! # The command line

`parse_opt` and `cli_parse` of `cli.c` under the `argp` of the GNU C library, and the
events by which a run of the program is observed.
-/
namespace Padre
open CString Trace

structure CliOpts where
  domainOrDatabase : Option CStr
  username : Option CStr
  iteration : Option CStr
  characters : Option CStr
  length : ℕ
deriving DecidableEq

/-- What a run does that the properties speak of. `key` and `zero` are the writes to
`master_pwd`: of a key that was typed, and of a zero byte. -/
inductive Event where
  | stderr (text : String)
  | perror (text : String)
  | openFailed (path : CStr)
  | determineAccount (options : CliOpts)
  | readEntireFile (path : Option CStr)
  | key (i : ℕ) (c : UInt8)
  | zero (i : ℕ)
  | stdout (line : List UInt8)
deriving DecidableEq

/-- A call of `parse_opt`: the keys `'c'`, `'l'` and `'i'` of `cli_options`,
`ARGP_KEY_ARG`, `ARGP_KEY_END`, and the keys its `default` case answers. -/
inductive ArgpEvent where
  | c (arg : CStr)
  | l (arg : CStr)
  | i (arg : CStr)
  | keyArg (arg : CStr)
  | keyEnd
  | other
deriving DecidableEq

def ARGP_ERR_UNKNOWN : ℤ := 7
def EX_USAGE : ℕ := 64

/-- `parse_opt` with `state->arg_num` and `state->input`. -/
def parseOpt (argNum : ℕ) (options : CliOpts) : ArgpEvent → Run Event (ℤ × CliOpts)
  | .c arg => pure (0,{ options with characters := some arg })
  | .l arg =>
    let tmp := atoi arg.bytes
    if tmp = 0 ∨ tmp < 0 then do
      Run.emit (.stderr "Error: the length of the derived password may not be negative or zero\n")
      pure (EINVAL,options)
    else pure (0,{ options with length := tmp.toNat })
  | .i arg => pure (0,{ options with iteration := some arg })
  | .keyArg arg =>
    match argNum with
    | 0 => pure (0,{ options with domainOrDatabase := some arg })
    | 1 => pure (0,{ options with username := some arg })
    | _ => do
      Run.emit (.stderr "Error: too many arguments\n")
      Run.stop (.exits EX_USAGE)
  | .keyEnd =>
    if argNum < 1 then do
      Run.emit (.stderr "Error: missing required argument(s)\n")
      Run.stop (.exits EX_USAGE)
    else pure (0,options)
  | .other => pure (ARGP_ERR_UNKNOWN,options)

/-- `state->arg_num` after a call. -/
def nextArgNum (argNum : ℕ) : ArgpEvent → ℕ
  | .keyArg _ => argNum + 1
  | _ => argNum

/-- `argp_parse`: one call for each event and one for the end, until a call fails. A key
the parser does not know is no failure. -/
def argpParse (argNum : ℕ) (options : CliOpts) : List ArgpEvent → Run Event (ℤ × CliOpts)
  | [] => parseOpt argNum options .keyEnd
  | event :: events => do
    let r ← parseOpt argNum options event
    if r.1 = 0 ∨ r.1 = ARGP_ERR_UNKNOWN then argpParse (nextArgNum argNum event) r.2 events
    else pure r

/-- `cli_parse` drops what `argp_parse` returns. -/
def cliParse (argv : List ArgpEvent) : Run Event CliOpts := do
  let r ← argpParse 0 ⟨none,none,none,none,0⟩ argv
  pure r.2

end Padre
