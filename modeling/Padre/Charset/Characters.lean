import Mathlib.Data.List.Perm.Subperm
import Padre.Charset.Notation

/-! # The characters of an expansion

A range holds the characters between its ends as signed values, each once. The items of a
spec only use characters of the spec, so that an expansion stays within the bounds the spec
stays in; without repetition it is no longer than the characters between them are many.
-/
namespace Padre
open CString

theorem schar_injective {c d : UInt8} (h : schar c = schar d) : c = d := by
  have hc := c.toNat_lt
  have hd := d.toNat_lt
  apply UInt8.toNat_inj.mp
  unfold schar at h
  split at h <;> split at h <;> omega

theorem schar_add {c : UInt8} {i : ℕ} (h : schar c + i ≤ 127) : schar (c + UInt8.ofNat i) = schar c + i := by
  induction i with
  | zero => simp
  | succ i ih =>
    have hi := ih (by omega)
    have hadd : c + UInt8.ofNat (i + 1) = c + UInt8.ofNat i + 1 := by
      rw [UInt8.ofNat_add, ← UInt8.add_assoc]
      rfl
    rw [hadd, schar_succ (by omega), hi]
    omega

theorem mem_rangeChars {lo hi c : UInt8} : c ∈ rangeChars lo hi ↔ schar lo ≤ schar c ∧ schar c ≤ schar hi := by
  have hmax := (schar_bounds hi).2
  simp only [rangeChars, List.mem_map, List.mem_range]
  constructor
  · rintro ⟨i,hi',rfl⟩
    rw [schar_add (by omega)]
    omega
  · rintro ⟨hle,hle'⟩
    refine ⟨(schar c - schar lo).toNat,by omega,?_⟩
    apply schar_injective
    rw [schar_add (by omega)]
    omega

theorem rangeChars_ascending (lo hi : UInt8) :
    (rangeChars lo hi).Pairwise fun c d => schar c < schar d := by
  have hmax := (schar_bounds hi).2
  rw [rangeChars, List.pairwise_map]
  refine List.Pairwise.imp_of_mem ?_ List.pairwise_lt_range
  intro i j hi' hj hlt
  rw [List.mem_range] at hi' hj
  rw [schar_add (by omega), schar_add (by omega)]
  omega

theorem nodup_rangeChars (lo hi : UInt8) : (rangeChars lo hi).Nodup := by
  refine (rangeChars_ascending lo hi).imp ?_
  rintro c d hlt rfl
  exact lt_irrefl _ hlt

/-- The characters an item is written with. -/
def Item.ends : Item → List UInt8
  | .single c => [c]
  | .range lo hi => [lo,hi]

/-- The characters a scan has pending. -/
def pendingChars : Option (UInt8 × Bool) → List UInt8
  | none => []
  | some (l,false) => [l]
  | some (l,true) => [l,dash]

@[simp] theorem mem_ends_single {b c : UInt8} : b ∈ (Item.single c).ends ↔ b = c := List.mem_singleton
@[simp] theorem mem_ends_range {b lo hi : UInt8} : b ∈ (Item.range lo hi).ends ↔ b = lo ∨ b = hi :=
  List.mem_pair

theorem mem_pendingChars_append {pending : Option (UInt8 × Bool)} {s : List UInt8} {i : Item} {b : UInt8}
    (hi : i ∈ itemsFrom pending s) (hb : b ∈ i.ends) : b ∈ pendingChars pending ++ s := by
  fun_induction itemsFrom pending s with
  | case1 => simp at hi
  | case2 l =>
    rw [List.mem_singleton.mp hi] at hb
    exact hb
  | case3 l =>
    rcases List.mem_pair.mp hi with rfl | rfl
    · simp_all [pendingChars]
    · simp_all [pendingChars]
  | case4 s ih =>
    rcases List.mem_cons.mp hi with rfl | hi
    · simpa [pendingChars] using Or.inl hb
    · exact List.mem_cons_of_mem _ (ih hi)
  | case5 c s _ ih => exact ih hi
  | case6 l s ih => simpa [pendingChars] using ih hi
  | case7 l c s _ ih =>
    rcases List.mem_cons.mp hi with rfl | hi
    · simpa [pendingChars] using Or.inl hb
    · exact List.mem_cons_of_mem _ (ih hi)
  | case8 l s ih =>
    have hmem := ih hi
    simp only [pendingChars, List.cons_append, List.mem_cons] at hmem ⊢
    tauto
  | case9 l c s _ ih =>
    rcases List.mem_cons.mp hi with rfl | hi
    · rcases mem_ends_range.mp hb with rfl | rfl
      · simp [pendingChars]
      · simp [pendingChars]
    · have hmem := ih hi
      simp only [pendingChars, List.nil_append] at hmem
      simp [pendingChars, hmem]

/-- Items are written with characters of the spec. -/
theorem mem_of_mem_items {spec : List UInt8} {i : Item} {b : UInt8} (hi : i ∈ items spec)
    (hb : b ∈ i.ends) : b ∈ spec := mem_pendingChars_append hi hb

theorem expansion_bounds {spec : List UInt8} {a z : ℤ} (h : ∀ b ∈ spec, a ≤ schar b ∧ schar b ≤ z) :
    ∀ c ∈ expansion spec, a ≤ schar c ∧ schar c ≤ z := by
  intro c hc
  obtain ⟨i,hi,hci⟩ := List.mem_flatMap.mp hc
  cases i with
  | single d =>
    rw [List.mem_singleton.mp hci]
    exact h d (mem_of_mem_items hi (by simp))
  | range lo hi' =>
    have hlo := h lo (mem_of_mem_items hi (by simp))
    have hhi := h hi' (mem_of_mem_items hi (by simp))
    have hmem := mem_rangeChars.mp hci
    omega

theorem items_endless {spec : List UInt8} (h : (127 : UInt8) ∉ spec) :
    (items spec).any Item.endless = false := by
  rw [any_endless_iff]
  intro lo hmem
  exact h (mem_of_mem_items hmem (by simp))

/-- There are 94 printable characters that are not blank. -/
theorem length_le_of_nodup {e : List UInt8} (hnodup : e.Nodup)
    (h : ∀ c ∈ e, 33 ≤ schar c ∧ schar c ≤ 126) : e.length ≤ 94 := by
  have hsub : e ⊆ rangeChars 33 126 := by
    intro c hc
    exact mem_rangeChars.mpr (h c hc)
  exact (List.subperm_of_subset hnodup hsub).length_le

end Padre
