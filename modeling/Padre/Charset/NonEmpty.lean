import Padre.Charset.Scan

/-! # When an accepted spec yields a character

`to_chars` divides by the length `enumerate_charset` returns. An expansion never starts
with a NUL, so the length is zero only for an empty expansion, and only specs made of
reversed ranges have one.
-/
namespace Padre
open CString

/-- A spec of nothing but ranges whose right side is below the left one; a range may have
several dashes in it. -/
inductive ReversedRanges : List UInt8 → Prop where
  | nil : ReversedRanges []
  | cons {lo hi : UInt8} {dashes : ℕ} {s : List UInt8} : lo ≠ dash → hi ≠ dash →
      schar hi < schar lo → ReversedRanges s →
      ReversedRanges (lo :: (List.replicate (dashes + 1) dash ++ hi :: s))

theorem expansionFrom_dashes (l : UInt8) (dashes : ℕ) (s : List UInt8) :
    expansionFrom (some (l,true)) (List.replicate dashes dash ++ s) = expansionFrom (some (l,true)) s := by
  induction dashes with
  | zero => rfl
  | succ n ih => rw [List.replicate_succ, List.cons_append, expansionFrom_dash_dash, ih]

theorem ReversedRanges.expansion_eq_nil {s : List UInt8} (h : ReversedRanges s) : expansion s = [] := by
  induction h with
  | nil => rfl
  | @cons lo hi dashes s hlo hhi hlt _ ih =>
    rw [expansion, expansionFrom_none_cons hlo, List.replicate_succ, List.cons_append,
      expansionFrom_left_dash, expansionFrom_dashes, expansionFrom_dash_cons hhi,
      rangeChars_of_lt hlt]
    exact ih

theorem reversedRanges_of_expansionFrom (s : List UInt8) :
    (expansionFrom none s = [] → ReversedRanges s) ∧
    (∀ l, l ≠ dash → expansionFrom (some (l,false)) s = [] → ReversedRanges (l :: s)) ∧
    (∀ l dashes, l ≠ dash → expansionFrom (some (l,true)) s = [] →
      ReversedRanges (l :: (List.replicate (dashes + 1) dash ++ s))) := by
  induction s with
  | nil =>
    refine ⟨fun _ => .nil,?_,?_⟩
    · intro l _ h
      simp at h
    · intro l n _ h
      simp at h
  | cons c s ih =>
    obtain ⟨hnone,hleft,hdash⟩ := ih
    by_cases hc : c = dash
    · subst hc
      refine ⟨?_,?_,?_⟩
      · intro h
        simp [expansionFrom_none_dash] at h
      · intro l hl h
        rw [expansionFrom_left_dash] at h
        exact hdash l 0 hl h
      · intro l n hl h
        rw [expansionFrom_dash_dash] at h
        have hnext := hdash l (n + 1) hl h
        rwa [List.replicate_succ', List.append_assoc] at hnext
    · refine ⟨?_,?_,?_⟩
      · intro h
        rw [expansionFrom_none_cons hc] at h
        exact hleft c hc h
      · intro l hl h
        simp [expansionFrom_left_cons hc] at h
      · intro l n hl h
        rw [expansionFrom_dash_cons hc, List.append_eq_nil_iff, rangeChars_eq_nil] at h
        exact .cons hl hc h.1 (hnone h.2)

theorem expansion_eq_nil_iff (s : List UInt8) : expansion s = [] ↔ ReversedRanges s :=
  ⟨(reversedRanges_of_expansionFrom s).1,ReversedRanges.expansion_eq_nil⟩

/-- An expansion may have a NUL in it but never in front, since neither the spec nor the
pending left side has one. -/
theorem head?_expansionFrom {s : List UInt8} (hs : (0 : UInt8) ∉ s) :
    (expansionFrom none s).head? ≠ some 0 ∧
    ∀ l, l ≠ 0 → (expansionFrom (some (l,false)) s).head? ≠ some 0 ∧
      (expansionFrom (some (l,true)) s).head? ≠ some 0 := by
  induction s with
  | nil => exact ⟨by simp,fun l hl => by simpa using hl⟩
  | cons c s ih =>
    have hc : c ≠ 0 := fun h => hs (by simp [h])
    obtain ⟨hnone,hleft⟩ := ih fun h => hs (List.mem_cons_of_mem _ h)
    by_cases hd : c = dash
    · subst hd
      refine ⟨?_,fun l hl => ⟨?_,?_⟩⟩
      · simpa [expansionFrom_none_dash] using hc
      · rw [expansionFrom_left_dash]
        exact (hleft l hl).2
      · rw [expansionFrom_dash_dash]
        exact (hleft l hl).2
    · refine ⟨?_,fun l hl => ⟨?_,?_⟩⟩
      · rw [expansionFrom_none_cons hd]
        exact (hleft c hc).1
      · simpa [expansionFrom_left_cons hd] using hl
      · rw [expansionFrom_dash_cons hd, List.head?_append]
        cases hr : (rangeChars l c).head? with
        | none => simpa using hnone
        | some x =>
          have hx := head?_rangeChars hr
          simpa [hx] using hl

theorem untilNul_eq_nil_iff {s : List UInt8} (h : s.head? ≠ some 0) : untilNul s = [] ↔ s = [] := by
  cases s with
  | nil => simp [untilNul]
  | cons c s =>
    have hc : c ≠ 0 := by simpa using h
    simp [untilNul, hc]

theorem resolveClass_nil {spec : CStr} (h : spec.bytes = []) : resolveClass spec = literal "!-~" := by
  rw [resolveClass, h]
  rfl

/-- No class name stands for an empty set, nor is it one itself. -/
theorem resolveClass_cases (spec : CStr) :
    resolveClass spec = spec.bytes ∨
      (expansion (resolveClass spec) ≠ [] ∧ (spec.bytes = [] ∨ expansion spec.bytes ≠ [])) := by
  have hclasses : ∀ c ∈ classes, expansion c.2 ≠ [] ∧ (c.1 = [] ∨ expansion c.1 ≠ []) := by decide
  exact (resolveClass_resolved spec).imp_right (hclasses _)

/-- The charset of an accepted spec is empty exactly for the specs made of reversed ranges. -/
theorem enumerateCharset_rlen_pos_iff {fuel : ℕ} {malloc : ℕ → Bool} {uninit : ℕ → UInt8}
    {spec : CStr} {out out' : CharsetOut} {rlen : ℕ}
    (h : enumerateCharset fuel malloc uninit (some spec) out = some (0,out'))
    (hrlen : out'.rlen = some rlen) :
    1 ≤ rlen ↔ ¬ (spec.bytes ≠ [] ∧ ReversedRanges spec.bytes) := by
  obtain ⟨-,-,hlen,-⟩ := enumerateCharset_accepted h
  have hhead : (expansion (resolveClass spec)).head? ≠ some 0 :=
    (head?_expansionFrom (nul_notMem_resolveClass spec)).1
  have heq : rlen = (untilNul (expansion (resolveClass spec))).length :=
    Option.some.inj (hrlen.symm.trans hlen)
  rw [heq, Nat.one_le_iff_ne_zero, ne_eq, List.length_eq_zero_iff, untilNul_eq_nil_iff hhead,
    ← expansion_eq_nil_iff]
  rcases resolveClass_cases spec with hspec | ⟨hclass,hspec⟩
  · rw [hspec]
    refine not_congr ⟨fun he => ⟨?_,he⟩,fun he => he.2⟩
    intro hnil
    rw [resolveClass_nil hnil, hnil] at hspec
    exact absurd hspec (by decide)
  · refine iff_of_true hclass ?_
    rintro ⟨hne,he⟩
    rcases hspec with hspec | hspec
    · exact hne hspec
    · exact hspec he

/-- `z-a` is accepted and has no characters. -/
theorem enumerateCharset_reversed :
    ¬ ∀ (fuel : ℕ) (malloc : ℕ → Bool) (uninit : ℕ → UInt8) (spec : CStr) (out out' : CharsetOut)
      (rlen : ℕ), enumerateCharset fuel malloc uninit (some spec) out = some (0,out') →
        out'.rlen = some rlen → 1 ≤ rlen := by
  intro h
  have hcall : enumerateCharset 4 (fun _ => true) (fun _ => 7) (some (CStr.upto (literal "z-a"))) freshOut =
      some (0,⟨some (some ⟨0,[0]⟩),some 0,0,[]⟩) := by decide
  exact absurd (h _ _ _ _ _ _ _ hcall rfl) (by decide)

/-- `a-c` is accepted and has three. -/
theorem enumerateCharset_rlen_pos_abc :
    1 ≤ 3 ↔ ¬ ((CStr.upto (literal "a-c")).bytes ≠ [] ∧ ReversedRanges (CStr.upto (literal "a-c")).bytes) :=
  enumerateCharset_rlen_pos_iff
    (show enumerateCharset 5 (fun _ => true) (fun _ => 7) (some (CStr.upto (literal "a-c"))) freshOut =
      some (0,⟨some (some ⟨3,[97,98,99,0]⟩),some 3,0,[]⟩) by decide) rfl

end Padre
