import Mathlib.Data.List.GetD
import Padre.General.Residues
import Padre.Model.Derivation

/-! # From bytes to characters

`to_chars` overwrites each byte with the character its residue selects and closes the
string. Each character is selected by the bytes of one residue, so the outputs of the key
derivation spread over the passwords as evenly as 256 bytes spread over the characters.
-/
namespace Padre
open CString Residues

/-- The character a byte selects. -/
def charAt (chars : List UInt8) (clen : ℕ) (b : UInt8) : UInt8 := chars.getD (b.toNat % clen) 0

theorem toChars_from {chars : List UInt8} {clen : ℕ} (hpos : 1 ≤ clen) (hle : clen ≤ chars.length)
    (hmax : clen ≤ INT_MAX) (done bytes after : List UInt8) (last : UInt8) :
    toChars (done ++ (bytes ++ last :: after)) done.length chars clen bytes.length =
      some (done ++ (bytes.map (charAt chars clen) ++ 0 :: after),done.length + bytes.length) := by
  induction bytes generalizing done with
  | nil => simp [toChars]
  | cons b bytes ih =>
    have hint : toInt clen = clen := toInt_of_le hmax
    have hlt : b.toNat % clen < chars.length := (Nat.mod_lt _ hpos).trans_le hle
    have hget : (done ++ (b :: bytes ++ last :: after)).getD done.length 0 = b := by
      simp [List.getD_eq_getElem?_getD]
    have hindex : (((b.toNat : ℤ)).tmod (clen : ℤ)).toNat = b.toNat % clen := by
      rw [← Int.ofNat_tmod, Int.toNat_natCast]
    have hchar : chars[b.toNat % clen]? = some (charAt chars clen b) := by
      rw [charAt, List.getD_eq_getElem _ _ hlt, List.getElem?_eq_getElem hlt]
    have hset : (done ++ (b :: bytes ++ last :: after)).set done.length (charAt chars clen b) =
        (done ++ [charAt chars clen b]) ++ (bytes ++ last :: after) := by
      simp
    have hrest := ih (done ++ [charAt chars clen b])
    have hne : ¬ (clen : ℤ) = 0 := by omega
    simp only [List.length_append, List.length_cons, List.length_nil, Nat.zero_add] at hrest
    simp only [toChars, List.length_cons, hint, if_neg hne, hget, hindex, hchar, hset, hrest]
    simp [Nat.add_assoc, Nat.add_comm 1]

/-- `to_chars` on a whole object: one character for each byte, then the terminator. -/
theorem toChars_spec {chars : List UInt8} {clen : ℕ} (hpos : 1 ≤ clen) (hle : clen ≤ chars.length)
    (hmax : clen ≤ INT_MAX) (bytes after : List UInt8) (last : UInt8) :
    toChars (bytes ++ last :: after) 0 chars clen bytes.length =
      some (bytes.map (charAt chars clen) ++ 0 :: after,bytes.length) := by
  simpa using toChars_from hpos hle hmax [] bytes after last

/-- The outputs of the key derivation that `to_chars` turns into the password `p`. -/
def preimages {L : ℕ} (chars rest : List UInt8) (last : UInt8) (p : Fin L → UInt8) :
    Finset (Fin L → UInt8) :=
  Finset.univ.filter fun b => toChars (List.ofFn b ++ [last]) 0 (chars ++ rest) chars.length L =
    some (List.ofFn p ++ [0],L)

theorem charAt_eq_iff {chars : List UInt8} (hnodup : chars.Nodup) (rest : List UInt8) {c : UInt8}
    (hc : c ∈ chars) (b : UInt8) :
    charAt (chars ++ rest) chars.length b = c ↔ b.toNat % chars.length = chars.idxOf c := by
  have hlt : b.toNat % chars.length < chars.length := Nat.mod_lt _ (List.length_pos_of_mem hc)
  have hget : charAt (chars ++ rest) chars.length b = chars[b.toNat % chars.length] := by
    rw [charAt, List.getD_append _ _ _ _ hlt, List.getD_eq_getElem _ _ hlt]
  rw [hget]
  constructor
  · rintro rfl
    exact (hnodup.idxOf_getElem _ hlt).symm
  · intro h
    have hidx := List.getElem_idxOf (List.idxOf_lt_length_iff.mpr hc)
    simpa only [← h] using hidx

theorem preimages_eq {L : ℕ} {chars : List UInt8} (hnodup : chars.Nodup) (hne : chars ≠ [])
    (hmax : chars.length ≤ INT_MAX) (rest : List UInt8) (last : UInt8) {p : Fin L → UInt8}
    (hp : ∀ k, p k ∈ chars) :
    preimages chars rest last p = stringsOfResidues chars.length fun k => chars.idxOf (p k) := by
  ext b
  have hle : chars.length ≤ (chars ++ rest).length := by simp
  have hspec := toChars_spec (List.length_pos_iff.mpr hne) hle hmax (List.ofFn b) [] last
  rw [List.length_ofFn] at hspec
  simp only [preimages, stringsOfResidues, Finset.mem_filter, Finset.mem_univ, true_and]
  rw [hspec]
  simp only [Option.some.injEq, Prod.mk.injEq, and_true, List.append_cancel_right_eq, List.map_ofFn]
  rw [List.ofFn_inj, funext_iff]
  exact forall_congr' fun k => charAt_eq_iff hnodup rest (hp k) (b k)

/-- The passwords over a charset of different characters are reached as evenly as can be. -/
theorem card_preimages {L : ℕ} (chars rest : List UInt8) (last : UInt8) (p : Fin L → UInt8)
    (hnodup : chars.Nodup) (hne : chars ≠ []) (hlen : chars.length ≤ 94) (hp : ∀ k, p k ∈ chars) :
    (256 / chars.length) ^ L ≤ (preimages chars rest last p).card ∧
    (preimages chars rest last p).card ≤ ((256 + chars.length - 1) / chars.length) ^ L ∧
    1 ≤ (preimages chars rest last p).card ∧
    (chars.length ∣ 256 → (preimages chars rest last p).card = (256 / chars.length) ^ L) := by
  have hmax : chars.length ≤ INT_MAX := by
    unfold INT_MAX
    omega
  have hr : ∀ k, chars.idxOf (p k) < chars.length := fun k => List.idxOf_lt_length_iff.mpr (hp k)
  have hpos : 0 < chars.length := List.length_pos_iff.mpr hne
  obtain ⟨hlower,hupper⟩ := card_stringsOfResidues_bounds hr
  rw [preimages_eq hnodup hne hmax rest last hp]
  refine ⟨hlower,hupper,?_,card_stringsOfResidues_of_dvd hr⟩
  have hquot : 1 ≤ 256 / chars.length := (Nat.one_le_div_iff hpos).mpr (by omega)
  exact (Nat.one_le_pow _ _ hquot).trans hlower

/-- Two characters, each reached by half of the bytes. -/
theorem card_preimages_ab :
    (256 / 2) ^ 2 ≤ (preimages [97,98] [0] 7 ![98,97]).card ∧
    (preimages [97,98] [0] 7 ![98,97]).card ≤ ((256 + 2 - 1) / 2) ^ 2 ∧
    1 ≤ (preimages [97,98] [0] 7 ![98,97]).card ∧
    (2 ∣ 256 → (preimages [97,98] [0] 7 ![98,97]).card = (256 / 2) ^ 2) :=
  card_preimages [97,98] [0] 7 ![98,97] (by decide) (by decide) (by decide) (by decide)

end Padre
