import Mathlib.Algebra.BigOperators.Fin
import Mathlib.Algebra.Order.BigOperators.Ring.Finset
import Mathlib.Data.Fintype.BigOperators
import Mathlib.Data.Int.CardIntervalMod

/-! # Counting bytes by their residue

How many of the 256 bytes leave a given residue, and how many strings of bytes leave
given residues at every position. The second count is a product, since the positions do
not depend on one another.
-/
namespace Residues
open Finset

instance fintypeByte : Fintype UInt8 :=
  Fintype.ofEquiv (Fin 256) ⟨UInt8.ofFin,UInt8.toFin,fun _ => rfl,fun _ => rfl⟩

/-- The bytes that leave the residue `r` modulo `n`. -/
def bytesOfResidue (n r : ℕ) : Finset UInt8 := univ.filter fun b => b.toNat % n = r

theorem card_bytesOfResidue_eq_count (n r : ℕ) :
    (bytesOfResidue n r).card = Nat.count (fun x => x % n = r) 256 := by
  rw [Nat.count_eq_card_filter_range]
  refine card_bij (fun b _ => b.toNat) (fun b hb => ?_) (fun b _ c _ h => UInt8.toNat_inj.mp h)
    fun x hx => ?_
  · have hr : b.toNat % n = r := by simpa [bytesOfResidue] using hb
    exact mem_filter.mpr ⟨mem_range.mpr b.toNat_lt,hr⟩
  · obtain ⟨hlt,hr⟩ := mem_filter.mp hx
    rw [mem_range] at hlt
    have htoNat : (UInt8.ofNat x).toNat = x := by
      rw [UInt8.toNat_ofNat']
      omega
    exact ⟨UInt8.ofNat x,by simp [bytesOfResidue, htoNat, hr],htoNat⟩

theorem card_bytesOfResidue {n r : ℕ} (hr : r < n) :
    (bytesOfResidue n r).card = 256 / n + if r < 256 % n then 1 else 0 := by
  have hcount := Nat.count_modEq_card 256 (show 0 < n by omega) r
  have hpred : (fun x => x ≡ r [MOD n]) = fun x => x % n = r := by
    funext x
    rw [Nat.ModEq, Nat.mod_eq_of_lt hr]
  rw [card_bytesOfResidue_eq_count]
  simp only [hpred, Nat.mod_eq_of_lt hr] at hcount
  exact hcount

theorem card_bytesOfResidue_bounds {n r : ℕ} (hr : r < n) :
    256 / n ≤ (bytesOfResidue n r).card ∧ (bytesOfResidue n r).card ≤ (256 + n - 1) / n := by
  have hn : 0 < n := by omega
  rw [card_bytesOfResidue hr]
  refine ⟨by omega,?_⟩
  rw [Nat.le_div_iff_mul_le hn]
  have hdiv := Nat.div_add_mod 256 n
  have hcomm := Nat.mul_comm n (256 / n)
  split
  · rw [Nat.add_mul]
    omega
  · simp only [Nat.add_zero]
    omega

theorem card_bytesOfResidue_of_dvd {n r : ℕ} (hr : r < n) (hn : n ∣ 256) :
    (bytesOfResidue n r).card = 256 / n := by
  have hz : 256 % n = 0 := Nat.mod_eq_zero_of_dvd hn
  simp [card_bytesOfResidue hr, hz]

/-- The bytes that leave one of the residues `s`. -/
def bytesOfResidues (n : ℕ) (s : Finset ℕ) : Finset UInt8 := univ.filter fun b => b.toNat % n ∈ s

theorem card_bytesOfResidues (n : ℕ) (s : Finset ℕ) :
    (bytesOfResidues n s).card = ∑ r ∈ s, (bytesOfResidue n r).card := by
  have hfiber : ∀ b ∈ bytesOfResidues n s, b.toNat % n ∈ s := fun b hb => (mem_filter.mp hb).2
  rw [card_eq_sum_card_fiberwise hfiber]
  refine sum_congr rfl ?_
  intro r hr
  congr 1
  ext b
  simp only [bytesOfResidues, bytesOfResidue, mem_filter, mem_univ, true_and, and_iff_right_iff_imp]
  rintro rfl
  exact hr

theorem card_bytesOfResidues_bounds {n : ℕ} {s : Finset ℕ} (hs : ∀ r ∈ s, r < n) :
    s.card * (256 / n) ≤ (bytesOfResidues n s).card ∧
      (bytesOfResidues n s).card ≤ s.card * ((256 + n - 1) / n) := by
  rw [card_bytesOfResidues]
  constructor
  · exact card_nsmul_le_sum s _ _ fun r hr => (card_bytesOfResidue_bounds (hs r hr)).1
  · exact sum_le_card_nsmul s _ _ fun r hr => (card_bytesOfResidue_bounds (hs r hr)).2

/-- The strings of `L` bytes whose residues are those of `r`. -/
def stringsOfResidues {L : ℕ} (n : ℕ) (r : Fin L → ℕ) : Finset (Fin L → UInt8) :=
  univ.filter fun b => ∀ k, (b k).toNat % n = r k

theorem card_stringsOfResidues {L : ℕ} (n : ℕ) (r : Fin L → ℕ) :
    (stringsOfResidues n r).card = ∏ k, (bytesOfResidue n (r k)).card := by
  have hpi : stringsOfResidues n r = Fintype.piFinset fun k => bytesOfResidue n (r k) := by
    ext b
    simp [stringsOfResidues, bytesOfResidue]
  rw [hpi, Fintype.card_piFinset]

theorem card_stringsOfResidues_bounds {L n : ℕ} {r : Fin L → ℕ} (hr : ∀ k, r k < n) :
    (256 / n) ^ L ≤ (stringsOfResidues n r).card ∧
      (stringsOfResidues n r).card ≤ ((256 + n - 1) / n) ^ L := by
  rw [card_stringsOfResidues]
  constructor
  · calc
      (256 / n) ^ L = ∏ _k : Fin L, 256 / n := by simp
      _ ≤ ∏ k, (bytesOfResidue n (r k)).card :=
        prod_le_prod' fun k _ => (card_bytesOfResidue_bounds (hr k)).1
  · calc
      ∏ k, (bytesOfResidue n (r k)).card ≤ ∏ _k : Fin L, (256 + n - 1) / n :=
        prod_le_prod' fun k _ => (card_bytesOfResidue_bounds (hr k)).2
      _ = ((256 + n - 1) / n) ^ L := by simp

theorem card_stringsOfResidues_of_dvd {L n : ℕ} {r : Fin L → ℕ} (hr : ∀ k, r k < n) (hn : n ∣ 256) :
    (stringsOfResidues n r).card = (256 / n) ^ L := by
  rw [card_stringsOfResidues]
  simp [card_bytesOfResidue_of_dvd (hr _) hn]

end Residues
