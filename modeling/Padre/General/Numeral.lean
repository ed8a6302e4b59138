import Mathlib.Data.Nat.Digits.Defs
import Mathlib.Tactic.Common
import Mathlib.Tactic.Ring
import Padre.General.CString

/-! # Numerals of the C library

`atoi` as the GNU C library documents it: `strtol` in base ten, saturating in a
64-bit `long`, whose result is converted to a 32-bit `int` by wrapping.
-/
namespace CString

/-- `isspace` of the C locale; no byte above 127 is whitespace there. -/
def isspace (c : UInt8) : Bool := c == 32 || (9 ≤ c && c ≤ 13)

def isdigit (c : UInt8) : Bool := 48 ≤ c && c ≤ 57

/-- The value of the digits at the start of `s`. -/
def digitsValue (s : List UInt8) : ℕ :=
  (s.takeWhile isdigit).foldl (fun v c => 10 * v + (c.toNat - 48)) 0

def strtol (s : List UInt8) : ℤ :=
  match s.dropWhile isspace with
  | [] => 0
  | c :: t =>
    if c = 45 then max (-2 ^ 63) (-(digitsValue t : ℤ))
    else if c = 43 then min (2 ^ 63 - 1) (digitsValue t : ℤ)
    else min (2 ^ 63 - 1) (digitsValue (c :: t) : ℤ)

/-- The value of a `char`, which is signed, as an `int`. -/
def schar (c : UInt8) : ℤ := if c.toNat < 128 then c.toNat else c.toNat - 256

/-- Conversion to a 32-bit `int`. -/
def toInt (x : ℤ) : ℤ := x.bmod (2 ^ 32)

def EINVAL : ℤ := 22
def ENOMEM : ℤ := 12

def INT_MAX : ℕ := 2 ^ 31 - 1

def atoi (s : List UInt8) : ℤ := toInt (strtol s)

theorem toInt_of_le {n : ℕ} (h : n ≤ INT_MAX) : toInt n = n := by
  unfold INT_MAX at h
  unfold toInt
  exact Int.bmod_eq_of_le (by omega) (by omega)

theorem atoi_le (s : List UInt8) : atoi s ≤ INT_MAX := by
  have hlt : toInt (strtol s) < (2 ^ 32 + 1) / 2 := Int.bmod_lt (by decide)
  unfold atoi INT_MAX
  omega

theorem digitsValue_append_nul (s t : List UInt8) : digitsValue (s ++ 0 :: t) = digitsValue s := by
  have h : (s ++ 0 :: t).takeWhile isdigit = s.takeWhile isdigit := by
    induction s with
    | nil => simp [isdigit]
    | cons c s ih => by_cases hc : isdigit c <;> simp [hc, ih]
  simp [digitsValue, h]

theorem strtol_append_nul (s t : List UInt8) : strtol (s ++ 0 :: t) = strtol s := by
  induction s with
  | nil => simp [strtol, isspace, digitsValue, isdigit]
  | cons c s ih =>
    by_cases hc : isspace c
    · simpa [strtol, hc] using ih
    · have hd := digitsValue_append_nul (c :: s) t
      simp only [List.cons_append] at hd
      simp [strtol, hc, digitsValue_append_nul, hd]

theorem atoi_append_nul (s t : List UInt8) : atoi (s ++ 0 :: t) = atoi s := by
  rw [atoi, strtol_append_nul, atoi]

/-- The digit `d < 10` as a character. -/
def digitChar (d : ℕ) : UInt8 := UInt8.ofNat (48 + d)

/-- `n` in decimal, without leading zeros. -/
def decimal (n : ℕ) : List UInt8 :=
  if n < 10 then [digitChar n] else decimal (n / 10) ++ [digitChar (n % 10)]

theorem digitChar_toNat {d : ℕ} (h : d < 10) : (digitChar d).toNat = 48 + d := by
  simp only [digitChar, UInt8.toNat_ofNat']
  omega

theorem isdigit_digitChar {d : ℕ} (h : d < 10) : isdigit (digitChar d) := by
  have hd := digitChar_toNat h
  simp only [isdigit, Bool.and_eq_true, decide_eq_true_eq, UInt8.le_iff_toNat_le, hd]
  constructor
  · simp
  · simp
    omega

theorem isdigit_of_mem_decimal {n : ℕ} {c : UInt8} (h : c ∈ decimal n) : isdigit c := by
  induction n using decimal.induct with
  | case1 n hn =>
    rw [decimal, if_pos hn, List.mem_singleton] at h
    exact h ▸ isdigit_digitChar hn
  | case2 n hn ih =>
    rw [decimal, if_neg hn] at h
    rcases List.mem_append.mp h with h | h
    · exact ih h
    · exact List.mem_singleton.mp h ▸ isdigit_digitChar (Nat.mod_lt _ (by omega))

theorem digitsValue_decimal (n : ℕ) : digitsValue (decimal n) = n := by
  have hall : (decimal n).takeWhile isdigit = decimal n :=
    List.takeWhile_eq_self_iff.mpr fun c hc => isdigit_of_mem_decimal hc
  rw [digitsValue, hall]
  clear hall
  induction n using decimal.induct with
  | case1 n hn =>
    have hd := digitChar_toNat hn
    rw [decimal, if_pos hn]
    simp [hd]
  | case2 n hn ih =>
    have hd := digitChar_toNat (Nat.mod_lt n (show 10 > 0 by omega))
    rw [decimal, if_neg hn, List.foldl_append, ih]
    simp only [List.foldl_cons, List.foldl_nil, hd]
    omega

theorem decimal_ne_nil (n : ℕ) : decimal n ≠ [] := by
  rw [decimal]
  split <;> simp

theorem isdigit_bounds {c : UInt8} (h : isdigit c) : 48 ≤ c.toNat ∧ c.toNat ≤ 57 := by
  simp only [isdigit, Bool.and_eq_true, decide_eq_true_eq, UInt8.le_iff_toNat_le] at h
  simpa using h

theorem strtol_of_digits {s : List UInt8} (hne : s ≠ []) (h : ∀ c ∈ s, isdigit c) :
    strtol s = min (2 ^ 63 - 1) (digitsValue s : ℤ) := by
  cases s with
  | nil => exact absurd rfl hne
  | cons c t =>
    obtain ⟨hl, hu⟩ := isdigit_bounds (h c (List.mem_cons_self ..))
    have hspace : isspace c = false := by
      simp only [isspace, Bool.or_eq_false_iff, beq_eq_false_iff_ne, ne_eq, Bool.and_eq_false_iff,
        decide_eq_false_iff_not, UInt8.le_iff_toNat_le, ← UInt8.toNat_inj]
      simp
      omega
    have hminus : c ≠ 45 := by
      rintro rfl
      simp at hl
    have hplus : c ≠ 43 := by
      rintro rfl
      simp at hl
    simp [strtol, hspace, hminus, hplus]

theorem atoi_decimal {n : ℕ} (h : n ≤ INT_MAX) : atoi (decimal n) = n := by
  have hs := strtol_of_digits (decimal_ne_nil n) fun c hc => isdigit_of_mem_decimal hc
  rw [digitsValue_decimal] at hs
  have hmin : min (2 ^ 63 - 1) (n : ℤ) = n := by
    unfold INT_MAX at h
    omega
  rw [atoi, hs, hmin, toInt_of_le h]

/-- The numerals that are positive behind saturation and wrap-around. -/
theorem toInt_saturated_pos_iff (v : ℕ) :
    0 < toInt (min (2 ^ 63 - 1) (v : ℤ)) ↔ v < 2 ^ 63 ∧ 0 < v % 2 ^ 32 ∧ v % 2 ^ 32 < 2 ^ 31 := by
  rw [toInt, Int.bmod_eq_emod]
  split
  · omega
  · omega

theorem toInt_saturated {v : ℕ} (h : 0 < toInt (min (2 ^ 63 - 1) (v : ℤ))) :
    toInt (min (2 ^ 63 - 1) (v : ℤ)) = (v % 2 ^ 32 : ℕ) := by
  obtain ⟨hlong,hpos,hint⟩ := (toInt_saturated_pos_iff v).mp h
  rw [toInt, Int.bmod_eq_emod]
  split
  · omega
  · omega

end CString
