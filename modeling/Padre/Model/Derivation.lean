import Padre.General.CString
import Padre.General.Numeral

/-! # Deriving a password

`derive_password` and `to_chars` of `padre.c`. The key derivation function is a
parameter; its output has as many bytes as the caller asks for.
-/
namespace Padre
open CString

def MP_N : ℕ := 16384
def MP_r : ℕ := 8
def MP_p : ℕ := 1

/-- `crypto_scrypt(passwd, salt, N, r, p, buflen)`: its return value and the bytes it
leaves in the buffer. -/
abbrev Scrypt := List UInt8 → List UInt8 → ℕ → ℕ → ℕ → (buflen : ℕ) → ℤ × Vector UInt8 buflen

/-- `memcpy(block + off, src, …)`; a copy that leaves the block makes it longer. -/
def memcpy (block : List UInt8) (off : ℕ) (src : List UInt8) : List UInt8 :=
  block.take off ++ src ++ block.drop (off + src.length)

def saltLen (domain username passno : CStr) : ℕ :=
  domain.bytes.length + username.bytes.length + passno.bytes.length

/-- The block after the three copies. Each finds its place by `strlen` of what the one
before has left. -/
def saltBlock (uninit : ℕ → UInt8) (domain username passno : CStr) : List UInt8 :=
  let salt := (List.range (saltLen domain username passno + 1)).map uninit
  let salt := memcpy salt 0 (domain.bytes ++ [0])
  let salt := memcpy salt (strlen salt) (username.bytes ++ [0])
  memcpy salt (strlen salt) (passno.bytes ++ [0])

/-- The bytes handed to the key derivation as the salt. -/
def salt (uninit : ℕ → UInt8) (domain username passno : CStr) : List UInt8 :=
  (saltBlock uninit domain username passno).take (saltLen domain username passno)

/-- The return value of `derive_password`, the object `buf` after it and what it printed. -/
structure Derived where
  ret : ℤ
  buf : List UInt8
  stderr : List String
deriving DecidableEq

def derivePassword (scrypt : Scrypt) (malloc : ℕ → Bool) (uninit : ℕ → UInt8)
    (masterPassword : List UInt8) (domain username passno : CStr)
    (bufLen : ℕ) (buf : List UInt8) : Derived :=
  if malloc (saltLen domain username passno + 1) then
    let r := scrypt masterPassword (salt uninit domain username passno) MP_N MP_r MP_p bufLen
    ⟨r.1,memcpy buf 0 r.2.toList,[]⟩
  else ⟨-1,buf,["Could not allocate memory for the salt"]⟩

/-- `to_chars` on the object `mem`, from the offset `bytes` on: the object after it and
the pointer it returns. Undefined when the modulus is zero or `chars` is left. -/
def toChars (mem : List UInt8) (bytes : ℕ) (chars : List UInt8) (clen : ℕ) :
    (len : ℕ) → Option (List UInt8 × ℕ)
  | 0 => some (mem.set bytes 0,bytes)
  | len + 1 =>
    if toInt clen = 0 then none
    else
      let index := ((mem.getD bytes 0).toNat : ℤ).tmod (toInt clen)
      match chars[index.toNat]? with
      | none => none
      | some c => toChars (mem.set bytes c) (bytes + 1) chars clen len

end Padre
