import Padre.General.CString
import Padre.General.FuelLoop
import Padre.General.Numeral

/-! # The character set of a password

`push_char` and `enumerate_charset` of `padre.c`. Neither loop of the enumeration is
bounded by the code, so both run on fuel. `spec` stands for the bytes from the pointer
up to the terminator.
-/
namespace Padre
open CString FuelLoop

def dash : UInt8 := 45

/-- `push_char` on the array `chars`, with `begin` and `end_` offsets into it. -/
def pushChar (chars : List UInt8) (begin : Option ℕ) (end_ : ℕ) (c : UInt8) : List UInt8 × Option ℕ :=
  match begin with
  | some p => if p < end_ then (chars.set p c,some (p + 1)) else (chars,none)
  | none => (chars,none)

/-- The character classes; the second `"*"` is never reached. -/
def resolveClass (spec : CStr) : List UInt8 :=
  if spec.bytes = literal "" ∨ spec.bytes = literal ":graph:" ∨ spec.bytes = literal "*" then
    literal "!-~"
  else if spec.bytes = literal ":alnum:" then literal "a-zA-Z0-9"
  else if spec.bytes = literal ":alpha:" then literal "a-zA-Z"
  else if spec.bytes = literal ":digit:" then literal "0-9"
  else if spec.bytes = literal ":lower:" then literal "a-z"
  else if spec.bytes = literal ":punct:" then literal "!-/:-@[-`\x7b-~"
  else if spec.bytes = literal ":upper:" then literal "A-Z"
  else if spec.bytes = literal ":word:" then literal "A-Za-z0-9_"
  else if spec.bytes = literal ":xdigit:" then literal "A-Fa-f0-9"
  else if spec.bytes = literal "*" then literal "!-~öäüµ€§°"
  else spec.bytes

/-- As big as `|*|` plus one for the terminator. -/
def CHARS_SIZE : ℕ := 95

/-- The variables of the scan. -/
structure ScanState where
  spec : List UInt8
  chars : List UInt8
  result : Option ℕ
  /-- left side of a character range -/
  l : UInt8
  /-- operator found -/
  op : Bool
deriving DecidableEq

/-- `result = push_char(result, end, c)` -/
def ScanState.push (s : ScanState) (c : UInt8) : ScanState :=
  let pushed := pushChar s.chars s.result CHARS_SIZE c
  { s with chars := pushed.1, result := pushed.2 }

/-- A turn of `for (; l <= c; l++)`, where both sides are compared as `int`. -/
def rangeTurn (c : UInt8) (s : ScanState) : Option (Turn ScanState ScanState) :=
  if schar s.l ≤ schar c then some (.again { s.push s.l with l := s.l + 1 })
  else some (.done s)

/-- A turn of the loop over `spec`. -/
def scanTurn (fuel : ℕ) (s : ScanState) : Option (Turn ScanState ScanState) :=
  match s.spec with
  | [] => some (.done s)
  | c :: rest =>
    if isspace c then some (.again s) -- `continue` does not advance `spec`
    else if s.l = 0 ∧ c = dash then some (.again { s.push c with spec := rest })
    else if s.l = 0 ∧ c ≠ dash then some (.again { s with l := c, spec := rest })
    else if s.l ≠ 0 ∧ c = dash then some (.again { s with op := true, spec := rest })
    else if s.l ≠ 0 ∧ c ≠ dash ∧ s.op = true then
      match loop (rangeTurn c) fuel s with
      | none => none
      | some t => some (.again { t with op := false, l := 0, spec := rest })
    else some (.again { s.push s.l with l := c, spec := rest })

/-- The pushes after the loop: the pending character, the pending dash, the terminator. -/
def flush (s : ScanState) : ScanState :=
  let s := if s.l ≠ 0 then s.push s.l else s
  let s := if s.op = true then s.push dash else s
  s.push 0

def scanStart (uninit : ℕ → UInt8) (spec : List UInt8) : ScanState where
  spec := spec
  chars := (List.range CHARS_SIZE).map uninit
  result := some 0
  l := 0
  op := false

/-- An object of `malloc` with the bytes that were copied to its start. -/
structure Block where
  allocated : ℕ
  bytes : List UInt8
deriving DecidableEq

/-- The caller's variables a call may change. `res` and `rlen` are `none` when the
argument itself is a null pointer. -/
structure CharsetOut where
  res : Option (Option Block)
  rlen : Option ℕ
  errno : ℤ
  stderr : List String
deriving DecidableEq

/-- The variables of a caller who has not written to them. -/
def freshOut : CharsetOut := ⟨some none,some 0,0,[]⟩

/-- The part of `enumerate_charset` after the scan. -/
def deliver (malloc : ℕ → Bool) (s : ScanState) (out : CharsetOut) : ℤ × CharsetOut :=
  if s.result = none then (-1,{ out with errno := EINVAL })
  else
    let rlen := strlen s.chars
    if malloc rlen then
      (0,{ out with rlen := some rlen, res := some (some ⟨rlen,s.chars.take (rlen + 1)⟩) })
    else
      (-1,{ out with rlen := some rlen, res := some none, errno := ENOMEM,
                     stderr := out.stderr ++ ["While enumerating the charset"] })

/-- `enumerate_charset`, or nothing when its loops do not end within the fuel. `uninit`
is the content of the local array before the first push. -/
def enumerateCharset (fuel : ℕ) (malloc : ℕ → Bool) (uninit : ℕ → UInt8) (spec : Option CStr)
    (out : CharsetOut) : Option (ℤ × CharsetOut) :=
  match spec with
  | none => some (-1,{ out with errno := EINVAL })
  | some spec =>
    if out.res = none ∨ out.rlen = none then some (-1,{ out with errno := EINVAL })
    else
      match loop (scanTurn fuel) fuel (scanStart uninit (resolveClass spec)) with
      | none => none
      | some s => some (deliver malloc (flush s) out)

end Padre
