import Mathlib.Data.List.Basic
import Mathlib.Data.List.TakeWhile
import Mathlib.Tactic.Common

/-! # C strings in byte objects

An object is a list of bytes and a pointer into it an offset. A C string is what
the library functions read from a pointer on: the bytes before the first NUL.
Reading is defined only when that NUL lies inside the object.
-/
namespace CString

/-- The content of a NUL-terminated string. -/
structure CStr where
  bytes : List UInt8
  nul_free : (0 : UInt8) ∉ bytes
deriving DecidableEq

@[ext] theorem CStr.ext {s t : CStr} (h : s.bytes = t.bytes) : s = t := by
  cases s
  cases t
  simpa using h

/-- The bytes of `s` before its first NUL. -/
def untilNul (s : List UInt8) : List UInt8 := s.takeWhile (· != 0)

theorem nul_notMem_untilNul (s : List UInt8) : (0 : UInt8) ∉ untilNul s := by
  intro h
  simpa using List.mem_takeWhile_imp h

def CStr.upto (s : List UInt8) : CStr := ⟨untilNul s, nul_notMem_untilNul s⟩

/-- The literal `s` of the source, encoded as the compiler encodes it. -/
def literal (s : String) : List UInt8 := s.toList.flatMap String.utf8EncodeChar

/-- What a C string read at the start of `s` gives; nothing when it has no NUL. -/
def headStr (s : List UInt8) : Option CStr := if 0 ∈ s then some (CStr.upto s) else none

/-- What a C string read at offset `p` of the object `mem` gives. -/
def strAt (mem : List UInt8) (p : ℕ) : Option CStr := headStr (mem.drop p)

/-- `strlen` of the string at the start of the object. -/
def strlen (mem : List UInt8) : ℕ := (untilNul mem).length

theorem untilNul_append_of_notMem {s : List UInt8} (h : (0 : UInt8) ∉ s) (t : List UInt8) :
    untilNul (s ++ t) = s ++ untilNul t := by
  apply List.takeWhile_append_of_pos
  intro b hb
  simpa using ne_of_mem_of_not_mem hb h

@[simp] theorem untilNul_cons_zero (t : List UInt8) : untilNul (0 :: t) = [] := by
  simp [untilNul]

theorem untilNul_eq_self {s : List UInt8} (h : (0 : UInt8) ∉ s) : untilNul s = s := by
  have ha := untilNul_append_of_notMem h []
  simpa [untilNul] using ha

theorem untilNul_append_nul (s t : List UInt8) : untilNul (s ++ 0 :: t) = untilNul s := by
  induction s with
  | nil => simp [untilNul]
  | cons b s ih =>
    by_cases hb : b = 0
    · subst hb
      simp
    · simp only [untilNul] at ih
      simp [untilNul, hb, ih]

theorem CStr.upto_append_nul (s t : List UInt8) : CStr.upto (s ++ 0 :: t) = CStr.upto s :=
  CStr.ext (untilNul_append_nul s t)

@[simp] theorem CStr.upto_bytes (s : CStr) : CStr.upto s.bytes = s :=
  CStr.ext (untilNul_eq_self s.nul_free)

@[simp] theorem headStr_append_nul (s t : List UInt8) :
    headStr (s ++ 0 :: t) = some (CStr.upto s) := by
  simp [headStr, CStr.upto_append_nul]

@[simp] theorem strAt_append_length (w s : List UInt8) : strAt (w ++ s) w.length = headStr s := by
  simp [strAt]

theorem strAt_field (w s t : List UInt8) :
    strAt (w ++ (s ++ 0 :: t)) w.length = some (CStr.upto s) := by
  simp

theorem strlen_append_nul {s : List UInt8} (h : (0 : UInt8) ∉ s) (t : List UInt8) :
    strlen (s ++ 0 :: t) = s.length := by
  rw [strlen, untilNul_append_nul, untilNul_eq_self h]

end CString
