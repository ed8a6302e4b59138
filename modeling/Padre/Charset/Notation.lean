import Mathlib.Data.List.Basic
import Padre.Model.Charset

/-! # The bracket notation

A character spec is a list of items: single characters and ranges. Whether a character
stands for itself or opens a range is known one or two characters later, so the reading
carries the pending left side and whether a dash has followed it. The expansion of a spec
lists the characters of its items in order, each range ascending.
-/
namespace Padre
open CString

/-- An item of a spec; a range may have its ends the wrong way round. -/
inductive Item where
  | single (c : UInt8)
  | range (lo hi : UInt8)
deriving DecidableEq

/-- The characters from `lo` up to `hi` as signed values, none when `hi` is below `lo`. -/
def rangeChars (lo hi : UInt8) : List UInt8 :=
  (List.range (schar hi - schar lo + 1).toNat).map fun i => lo + UInt8.ofNat i

def Item.chars : Item → List UInt8
  | .single c => [c]
  | .range lo hi => rangeChars lo hi

/-- The items of `s` behind a pending left side and, with `true`, a dash. -/
def itemsFrom : Option (UInt8 × Bool) → List UInt8 → List Item
  | none, [] => []
  | some (l,false), [] => [.single l]
  | some (l,true), [] => [.single l,.single dash]
  | none, c :: s => if c = dash then .single dash :: itemsFrom none s else itemsFrom (some (c,false)) s
  | some (l,false), c :: s =>
    if c = dash then itemsFrom (some (l,true)) s else .single l :: itemsFrom (some (c,false)) s
  | some (l,true), c :: s =>
    if c = dash then itemsFrom (some (l,true)) s else .range l c :: itemsFrom none s

def items (spec : List UInt8) : List Item := itemsFrom none spec

/-- Not a range with its ends the wrong way round. -/
def Item.ascending : Item → Bool
  | .single _ => true
  | .range lo hi => schar lo ≤ schar hi

/-- A range up to the greatest `char`. -/
def Item.endless : Item → Bool
  | .single _ => false
  | .range _ hi => hi == 127

theorem itemsFrom_nil_endless (pending : Option (UInt8 × Bool)) :
    (itemsFrom pending []).any Item.endless = false := by
  rcases pending with _ | ⟨l,_ | _⟩ <;> rfl

theorem any_endless_iff {its : List Item} :
    its.any Item.endless = false ↔ ∀ lo, Item.range lo 127 ∉ its := by
  rw [List.any_eq_false]
  constructor
  · intro h lo hmem
    exact h _ hmem rfl
  · intro h i hi hendless
    cases i with
    | single c => cases hendless
    | range lo hi' =>
      obtain rfl : hi' = 127 := by simpa [Item.endless] using hendless
      exact h lo hi

def expansionFrom (pending : Option (UInt8 × Bool)) (s : List UInt8) : List UInt8 :=
  (itemsFrom pending s).flatMap Item.chars

/-- The characters a spec denotes, with repetition. -/
def expansion (spec : List UInt8) : List UInt8 := expansionFrom none spec

section Schar
variable {c d : UInt8}

theorem schar_bounds (c : UInt8) : -128 ≤ schar c ∧ schar c ≤ 127 := by
  have hc := c.toNat_lt
  unfold schar
  split <;> omega

theorem schar_succ (h : schar c < 127) : schar (c + 1) = schar c + 1 := by
  have hc := c.toNat_lt
  have hadd : (c + 1).toNat = (c.toNat + 1) % 256 := by simp [UInt8.toNat_add]
  unfold schar at h ⊢
  rw [hadd]
  split at h <;> split <;> omega

theorem schar_lt_iff : schar c < 127 ↔ c ≠ 127 := by
  constructor
  · rintro h rfl
    exact absurd h (by decide)
  · intro h
    have hc := c.toNat_lt
    have hne : c.toNat ≠ 127 := fun heq => h (UInt8.toNat_inj.mp heq)
    unfold schar
    split <;> omega

end Schar

@[simp] theorem rangeChars_of_lt {lo hi : UInt8} (h : schar hi < schar lo) : rangeChars lo hi = [] := by
  have hz : (schar hi - schar lo + 1).toNat = 0 := by omega
  simp [rangeChars, hz]

theorem rangeChars_cons {lo hi : UInt8} (h : schar lo ≤ schar hi) (hhi : schar hi < 127) :
    rangeChars lo hi = lo :: rangeChars (lo + 1) hi := by
  have hsucc := schar_succ (c := lo) (by omega)
  have hn : (schar hi - schar lo + 1).toNat = (schar hi - schar (lo + 1) + 1).toNat + 1 := by omega
  unfold rangeChars
  rw [hn, List.range_succ_eq_map]
  simp only [List.map_cons, List.map_map]
  congr 1
  · simp
  · apply List.map_congr_left
    intro i _
    simp only [Function.comp_apply, Nat.succ_eq_add_one, UInt8.ofNat_add]
    rw [UInt8.add_comm (UInt8.ofNat i), ← UInt8.add_assoc]
    rfl

theorem rangeChars_eq_nil {lo hi : UInt8} : rangeChars lo hi = [] ↔ schar hi < schar lo := by
  simp only [rangeChars, List.map_eq_nil_iff, List.range_eq_nil]
  omega

theorem head?_rangeChars {lo hi c : UInt8} (h : (rangeChars lo hi).head? = some c) : c = lo := by
  unfold rangeChars at h
  cases hn : (schar hi - schar lo + 1).toNat with
  | zero => simp [hn] at h
  | succ n =>
    rw [hn, List.range_succ_eq_map] at h
    simpa using h.symm

section Expansion
variable {l c : UInt8} {s : List UInt8}

@[simp] theorem expansionFrom_none_nil : expansionFrom none [] = [] := rfl
@[simp] theorem expansionFrom_left_nil : expansionFrom (some (l,false)) [] = [l] := rfl
@[simp] theorem expansionFrom_dash_nil : expansionFrom (some (l,true)) [] = [l,dash] := rfl

theorem expansionFrom_none_dash : expansionFrom none (dash :: s) = dash :: expansionFrom none s := by
  simp [expansionFrom, itemsFrom, Item.chars]

theorem expansionFrom_none_cons (h : c ≠ dash) :
    expansionFrom none (c :: s) = expansionFrom (some (c,false)) s := by
  simp [expansionFrom, itemsFrom, h]

theorem expansionFrom_left_dash :
    expansionFrom (some (l,false)) (dash :: s) = expansionFrom (some (l,true)) s := by
  simp [expansionFrom, itemsFrom]

theorem expansionFrom_left_cons (h : c ≠ dash) :
    expansionFrom (some (l,false)) (c :: s) = l :: expansionFrom (some (c,false)) s := by
  simp [expansionFrom, itemsFrom, h, Item.chars]

theorem expansionFrom_dash_dash :
    expansionFrom (some (l,true)) (dash :: s) = expansionFrom (some (l,true)) s := by
  simp [expansionFrom, itemsFrom]

theorem expansionFrom_dash_cons (h : c ≠ dash) :
    expansionFrom (some (l,true)) (c :: s) = rangeChars l c ++ expansionFrom none s := by
  simp [expansionFrom, itemsFrom, h, Item.chars]

end Expansion

/-- The class names and the specs they stand for. -/
def classes : List (List UInt8 × List UInt8) :=
  [(literal "",literal "!-~"),(literal ":graph:",literal "!-~"),(literal "*",literal "!-~"),
    (literal ":alnum:",literal "a-zA-Z0-9"),(literal ":alpha:",literal "a-zA-Z"),
    (literal ":digit:",literal "0-9"),(literal ":lower:",literal "a-z"),
    (literal ":punct:",literal "!-/:-@[-`\x7b-~"),(literal ":upper:",literal "A-Z"),
    (literal ":word:",literal "A-Za-z0-9_"),(literal ":xdigit:",literal "A-Fa-f0-9")]

/-- What the name `s` is resolved to: itself or the spec of its class. -/
def Resolved (s r : List UInt8) : Prop := r = s ∨ (s,r) ∈ classes

theorem Resolved.ite {s name value rest : List UInt8} (hclass : (name,value) ∈ classes)
    (hrest : Resolved s rest) : Resolved s (if s = name then value else rest) := by
  by_cases h : s = name
  · rw [if_pos h, h]
    exact Or.inr hclass
  · rw [if_neg h]
    exact hrest

theorem resolveClass_resolved (spec : CStr) : Resolved spec.bytes (resolveClass spec) := by
  unfold resolveClass
  by_cases hfirst : spec.bytes = literal "" ∨ spec.bytes = literal ":graph:" ∨ spec.bytes = literal "*"
  · rw [if_pos hfirst]
    rcases hfirst with h | h | h
    · exact Or.inr (by rw [h]; simp [classes])
    · exact Or.inr (by rw [h]; simp [classes])
    · exact Or.inr (by rw [h]; simp [classes])
  · have hlast : ¬ spec.bytes = literal "*" := fun h => hfirst (Or.inr (Or.inr h))
    rw [if_neg hfirst, if_neg hlast]
    repeat apply Resolved.ite (by simp [classes])
    exact Or.inl rfl

theorem nul_notMem_resolveClass (spec : CStr) : (0 : UInt8) ∉ resolveClass spec := by
  have hclasses : ∀ c ∈ classes, (0 : UInt8) ∉ c.2 := by decide
  rcases resolveClass_resolved spec with h | h
  · rw [h]
    exact spec.nul_free
  · exact hclasses _ h

end Padre
