import Padre.Charset.Characters
import Padre.Charset.Termination

/-! # What a charset holds

The local array has room for 94 characters and the terminator. An expansion that fits is
delivered as it is, repetitions included; a longer one is refused and the caller's variables
stay as they were. A charset is therefore a set exactly when the spec denotes no character
twice.
-/
namespace Padre
open CString FuelLoop

theorem verdict_whole {malloc : ℕ → Bool} {e : List UInt8} {out : CharsetOut} (hnul : (0 : UInt8) ∉ e)
    (hmalloc : malloc e.length = true) :
    verdict malloc e out =
      if e.length ≤ 94 then (0,{ out with rlen := some e.length, res := some (some ⟨e.length,e ++ [0]⟩) })
      else (-1,{ out with errno := EINVAL }) := by
  unfold verdict
  simp only [untilNul_eq_self hnul, hmalloc, if_true]

theorem resolveClass_bounds {spec : CStr} {a z : ℤ} (ha : a ≤ 33) (hz : 126 ≤ z)
    (h : ∀ b ∈ spec.bytes, a ≤ schar b ∧ schar b ≤ z) :
    ∀ b ∈ resolveClass spec, a ≤ schar b ∧ schar b ≤ z := by
  have hclasses : ∀ c ∈ classes, c.2.all (fun b => 33 ≤ schar b ∧ schar b ≤ 126) = true := by decide
  rcases resolveClass_resolved spec with hself | hclass
  · rw [hself]
    exact h
  · intro b hb
    have hprint := List.all_iff_forall_prop.mp (hclasses _ hclass) b hb
    omega

theorem schar_bounds_of_le {a z b : UInt8} (hz : z < 128) (h : a ≤ b ∧ b ≤ z) :
    (a.toNat : ℤ) ≤ schar b ∧ schar b ≤ z.toNat := by
  have ha : a.toNat ≤ b.toNat := h.1
  have hb : b.toNat ≤ z.toNat := h.2
  have hlt : z.toNat < 128 := hz
  rw [schar, if_pos (by omega)]
  omega

theorem isspace_of_le {c : UInt8} (h : 33 ≤ c) : isspace c = false := by
  have hblank : c ≠ 32 := by
    rintro rfl
    exact absurd h (by decide)
  have hcontrol : ¬ c ≤ 13 := fun hc => absurd (UInt8.le_trans h hc) (by decide)
  simp [isspace, hblank, hcontrol]

theorem items_endless_of_bytes {spec : CStr} (hbytes : ∀ b ∈ spec.bytes, 1 ≤ b ∧ b ≤ 126) :
    (items spec.bytes).any Item.endless = false :=
  items_endless fun h => absurd (hbytes _ h).2 (by decide)

section Printable
variable {spec : CStr} (hbytes : ∀ b ∈ spec.bytes, 33 ≤ b ∧ b ≤ 126)
include hbytes

theorem bytes_of_printable : ∀ b ∈ spec.bytes, 1 ≤ b ∧ b ≤ 126 := by
  intro b hb
  exact ⟨UInt8.le_trans (show 1 ≤ 33 by decide) (hbytes b hb).1,(hbytes b hb).2⟩

theorem any_isspace_of_printable : spec.bytes.any isspace = false := by
  rw [List.any_eq_false]
  intro b hb
  simp [isspace_of_le (hbytes b hb).1]

theorem length_expansion_of_nodup (hnodup : (expansion (resolveClass spec)).Nodup) :
    (expansion (resolveClass spec)).length ≤ 94 := by
  have hprint : ∀ b ∈ spec.bytes, 33 ≤ schar b ∧ schar b ≤ 126 := by
    intro b hb
    exact schar_bounds_of_le (by decide) (hbytes b hb)
  exact length_le_of_nodup hnodup (expansion_bounds (resolveClass_bounds (le_refl _) (le_refl _) hprint))

end Printable

section Call
variable {malloc : ℕ → Bool} {uninit : ℕ → UInt8} {spec : CStr} {out : CharsetOut}

theorem verdict_of_bytes (hbytes : ∀ b ∈ spec.bytes, 1 ≤ b ∧ b ≤ 126)
    (hmalloc : malloc (expansion (resolveClass spec)).length = true) :
    verdict malloc (expansion (resolveClass spec)) out =
      if (expansion (resolveClass spec)).length ≤ 94 then
        (0,{ out with rlen := some (expansion (resolveClass spec)).length,
                      res := some (some ⟨(expansion (resolveClass spec)).length,
                        expansion (resolveClass spec) ++ [0]⟩) })
      else (-1,{ out with errno := EINVAL }) := by
  have hspec : ∀ b ∈ spec.bytes, 1 ≤ schar b ∧ schar b ≤ 126 := by
    intro b hb
    exact schar_bounds_of_le (by decide) (hbytes b hb)
  have hbounds := expansion_bounds (resolveClass_bounds (by omega) (by omega) hspec)
  exact verdict_whole (fun h => absurd (hbounds 0 h).1 (by decide)) hmalloc

theorem enumerateCharset_returns (hbytes : ∀ b ∈ spec.bytes, 1 ≤ b ∧ b ≤ 126)
    (hspaces : spec.bytes.any isspace = false) (hres : out.res ≠ none) (hrlen : out.rlen ≠ none) :
    ∃ N, ∀ fuel, N ≤ fuel → ∃ r, enumerateCharset fuel malloc uninit (some spec) out = some r := by
  refine ⟨(resolveClass spec).length + 256,?_⟩
  intro fuel hfuel
  exact ⟨_,enumerateCharset_eq_verdict hres hrlen hspaces (items_endless_of_bytes hbytes) (by omega)⟩

/-- A call that returns accepts an expansion of at most 94 characters and holds all of it. -/
theorem enumerateCharset_held (hbytes : ∀ b ∈ spec.bytes, 1 ≤ b ∧ b ≤ 126) (hmalloc : ∀ n, malloc n = true)
    (hres : out.res ≠ none) (hrlen : out.rlen ≠ none) {fuel : ℕ} {r : ℤ} {out' : CharsetOut}
    (h : enumerateCharset fuel malloc uninit (some spec) out = some (r,out')) :
    ((expansion (resolveClass spec)).length ≤ 94 → r = 0) ∧
    (r = 0 → out'.rlen = some (expansion (resolveClass spec)).length ∧
      out'.res = some (some ⟨(expansion (resolveClass spec)).length,
        expansion (resolveClass spec) ++ [0]⟩)) ∧
    (r ≠ 0 → r = -1 ∧ out' = { out with errno := EINVAL }) := by
  have hverdict := (enumerateCharset_eq_some hres hrlen h).1
  rw [verdict_of_bytes hbytes (hmalloc _)] at hverdict
  by_cases hlen : (expansion (resolveClass spec)).length ≤ 94
  · rw [if_pos hlen] at hverdict
    obtain ⟨rfl,rfl⟩ := Prod.mk.inj hverdict
    simp
  · rw [if_neg hlen] at hverdict
    obtain ⟨rfl,rfl⟩ := Prod.mk.inj hverdict
    simp [hlen]

/-- A spec is refused as a whole: what is accepted is held in full, and what is not leaves
the caller's variables alone. -/
theorem enumerateCharset_whole (hbytes : ∀ b ∈ spec.bytes, 1 ≤ b ∧ b ≤ 126)
    (hspaces : spec.bytes.any isspace = false) (hmalloc : ∀ n, malloc n = true)
    (hres : out.res ≠ none) (hrlen : out.rlen ≠ none) :
    (∃ N, ∀ fuel, N ≤ fuel → ∃ r, enumerateCharset fuel malloc uninit (some spec) out = some r) ∧
    ∀ fuel r out', enumerateCharset fuel malloc uninit (some spec) out = some (r,out') →
      ((expansion (resolveClass spec)).length ≤ 94 → r = 0) ∧
      (r = 0 → out'.rlen = some (expansion (resolveClass spec)).length ∧
        out'.res = some (some ⟨(expansion (resolveClass spec)).length,
          expansion (resolveClass spec) ++ [0]⟩)) ∧
      (r ≠ 0 → r = -1 ∧ out' = { out with errno := EINVAL }) :=
  ⟨enumerateCharset_returns hbytes hspaces hres hrlen,
    fun _ _ _ h => enumerateCharset_held hbytes hmalloc hres hrlen h⟩

theorem enumerateCharset_whole_abc :
    (∃ N, ∀ fuel, N ≤ fuel → ∃ r, enumerateCharset fuel (fun _ => true) (fun _ => 7)
      (some (CStr.upto (literal "a-c"))) freshOut = some r) ∧
    ∀ fuel r out', enumerateCharset fuel (fun _ => true) (fun _ => 7)
        (some (CStr.upto (literal "a-c"))) freshOut = some (r,out') →
      ((expansion (resolveClass (CStr.upto (literal "a-c")))).length ≤ 94 → r = 0) ∧
      (r = 0 → out'.rlen = some (expansion (resolveClass (CStr.upto (literal "a-c")))).length ∧
        out'.res = some (some ⟨(expansion (resolveClass (CStr.upto (literal "a-c")))).length,
          expansion (resolveClass (CStr.upto (literal "a-c"))) ++ [0]⟩)) ∧
      (r ≠ 0 → r = -1 ∧ out' = { freshOut with errno := EINVAL }) :=
  enumerateCharset_whole (List.all_iff_forall_prop.mp (by decide)) (by decide) (fun _ => rfl) freshOut_res freshOut_rlen

/-- The characters a call has left at `*res`, `*rlen` many. -/
def CharsetOut.charset (out : CharsetOut) : Option (List UInt8) :=
  match out.res, out.rlen with
  | some (some block), some rlen => some (block.bytes.take rlen)
  | _, _ => none

/-- The spec is accepted, and the charset is the set of the characters it denotes. -/
def AcceptedAsSet (malloc : ℕ → Bool) (uninit : ℕ → UInt8) (spec : CStr) (out : CharsetOut) : Prop :=
  ∃ fuel out' charset, enumerateCharset fuel malloc uninit (some spec) out = some (0,out') ∧
    out'.charset = some charset ∧ charset.Nodup ∧ ∀ c, c ∈ charset ↔ c ∈ expansion (resolveClass spec)

/-- Nothing removes repetitions. -/
theorem acceptedAsSet_iff (hbytes : ∀ b ∈ spec.bytes, 33 ≤ b ∧ b ≤ 126) (hmalloc : ∀ n, malloc n = true)
    (hres : out.res ≠ none) (hrlen : out.rlen ≠ none) :
    AcceptedAsSet malloc uninit spec out ↔ (expansion (resolveClass spec)).Nodup := by
  have hlow := bytes_of_printable hbytes
  have hcharset {fuel out'} (hcall : enumerateCharset fuel malloc uninit (some spec) out = some (0,out')) :
      out'.charset = some (expansion (resolveClass spec)) := by
    obtain ⟨hlen,hblock⟩ := (enumerateCharset_held hlow hmalloc hres hrlen hcall).2.1 rfl
    simp only [CharsetOut.charset, hlen, hblock, List.take_left]
  constructor
  · rintro ⟨fuel,out',charset,hcall,hheld,hnodup,-⟩
    rw [hcharset hcall, Option.some.injEq] at hheld
    rw [hheld]
    exact hnodup
  · intro hnodup
    obtain ⟨N,hreturns⟩ : ∃ N, ∀ fuel, N ≤ fuel → ∃ r,
        enumerateCharset fuel malloc uninit (some spec) out = some r :=
      enumerateCharset_returns hlow (any_isspace_of_printable hbytes) hres hrlen
    obtain ⟨⟨r,out'⟩,hcall⟩ := hreturns N (le_refl N)
    have haccepts := (enumerateCharset_held hlow hmalloc hres hrlen hcall).1
    obtain rfl : r = 0 := haccepts (length_expansion_of_nodup hbytes hnodup)
    exact ⟨N,out',_,hcall,hcharset hcall,hnodup,fun _ => Iff.rfl⟩

end Call

/-- The charset of `aa` is `aa`. -/
theorem enumerateCharset_repetition :
    ¬ ∀ (malloc : ℕ → Bool) (uninit : ℕ → UInt8) (spec : CStr) (out : CharsetOut),
      (∀ b ∈ spec.bytes, 33 ≤ b ∧ b ≤ 126) → (∀ i ∈ items (resolveClass spec), i.ascending = true) →
      (∀ n, malloc n = true) → out.res ≠ none → out.rlen ≠ none →
        AcceptedAsSet malloc uninit spec out := by
  intro h
  obtain ⟨fuel,out',charset,hcall,hheld,hnodup,-⟩ := h (fun _ => true) (fun _ => 7)
    (CStr.upto (literal "aa")) freshOut (List.all_iff_forall_prop.mp (by decide)) (by decide) (fun _ => rfl)
    freshOut_res freshOut_rlen
  obtain ⟨-,-,hlen,hblock⟩ := enumerateCharset_accepted hcall
  have hcharset : out'.charset = some [97,97] := by
    rw [CharsetOut.charset, hlen, hblock]
    decide
  rw [hcharset, Option.some.injEq] at hheld
  rw [← hheld] at hnodup
  exact absurd hnodup (by decide)

theorem acceptedAsSet_abcx :
    AcceptedAsSet (fun _ => true) (fun _ => 7) (CStr.upto (literal "a-cx")) freshOut ↔
      (expansion (resolveClass (CStr.upto (literal "a-cx")))).Nodup :=
  acceptedAsSet_iff (List.all_iff_forall_prop.mp (by decide)) (fun _ => rfl) freshOut_res freshOut_rlen

end Padre
