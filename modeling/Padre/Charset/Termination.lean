import Mathlib.Data.Bool.AllAny
import Padre.Charset.Scan

/-! # The specs whose scan ends

The variable of a range loop has the width of its bound and is incremented past it, so that
a range up to 127, the greatest `char`, has no end. Every other range ends, and a scan that
meets neither such a range nor whitespace consumes a character a turn. A call that returns
has met neither, and a call on a spec with neither returns the verdict on its expansion on
enough fuel.
-/
namespace Padre
open CString FuelLoop

theorem rangeLoop_returns {c : UInt8} (hc : c ≠ 127) {fuel : ℕ} (hfuel : 255 < fuel) (s : ScanState) :
    ∃ t, loop (rangeTurn c) fuel s = some t := by
  have hend := schar_lt_iff.mpr hc
  have hstart := (schar_bounds s.l).1
  refine loop_returns (fun _ => True) (fun u => (schar c + 1 - schar u.l).toNat) ?_ trivial (by omega)
  intro u _
  by_cases hle : schar u.l ≤ schar c
  · have hsucc := schar_succ (c := u.l) (by omega)
    refine Or.inr ⟨_,by rw [rangeTurn, if_pos hle],trivial,?_⟩
    dsimp only
    omega
  · exact Or.inl ⟨u,by rw [rangeTurn, if_neg hle]⟩

theorem rangeLoop_returns_iff {c : UInt8} (s : ScanState) :
    (∃ fuel t, loop (rangeTurn c) fuel s = some t) ↔ c ≠ 127 := by
  constructor
  · rintro ⟨fuel,t,h⟩
    exact schar_lt_iff.mp (rangeLoop_spec h).1
  · intro hc
    exact ⟨256,rangeLoop_returns hc (by omega) s⟩

/-- The next turn runs the loop of a range up to `c`. -/
def ScanState.AtRange (s : ScanState) (c : UInt8) : Prop :=
  s.spec.head? = some c ∧ isspace c = false ∧ s.l ≠ 0 ∧ c ≠ dash ∧ s.op = true

theorem ScanState.AtRange.mem_items {s : ScanState} {c : UInt8} (h : s.AtRange c) :
    Item.range s.l c ∈ itemsFrom s.pending s.spec := by
  obtain ⟨hhead,-,hl,hd,hop⟩ := h
  obtain ⟨rest,hspec⟩ := List.head?_eq_some_iff.mp hhead
  simp [ScanState.pending, hspec, hl, hd, hop, itemsFrom]

theorem scanTurn_returns {fuel : ℕ} {s : ScanState} (hfuel : 255 < fuel)
    (hranges : ∀ c, s.AtRange c → c ≠ 127) :
    (∃ t, scanTurn fuel s = some (.done t)) ∨ ∃ t, scanTurn fuel s = some (.again t) := by
  unfold scanTurn
  cases hspec : s.spec with
  | nil => exact Or.inl ⟨s,rfl⟩
  | cons c rest =>
    right
    dsimp only
    by_cases hspace : isspace c = true
    · exact ⟨s,if_pos hspace⟩
    rw [if_neg hspace]
    by_cases hrange : s.l ≠ 0 ∧ c ≠ dash ∧ s.op = true
    · have hat : s.AtRange c := ⟨by rw [hspec, List.head?_cons],by simpa using hspace,hrange⟩
      obtain ⟨u,hu⟩ := rangeLoop_returns (hranges c hat) hfuel s
      simp only [hu]
      repeat' split
      all_goals exact ⟨_,rfl⟩
    · rw [if_neg hrange]
      repeat' split
      all_goals exact ⟨_,rfl⟩

/-- What every turn keeps of the ranges to come: whether one of them is endless. -/
structure EndInv (s₀ s : ScanState) : Prop extends ScanInv s₀ s where
  endless : (itemsFrom s.pending s.spec).any Item.endless = (itemsFrom s₀.pending s₀.spec).any Item.endless

theorem ScanStep.endInv {fuel : ℕ} {s₀ s t : ScanState} (h : EndInv s₀ s) (hstep : ScanStep fuel s t) :
    EndInv s₀ t := by
  obtain ⟨settled,hsettled⟩ := hstep.settles h.nul_free h.pending
  refine ⟨hstep.inv h.toScanInv,?_⟩
  rw [← h.endless, hsettled.items, List.any_append, hsettled.ends, Bool.false_or]

section Scan
variable {fuel fuel' : ℕ} {s t : ScanState} (hnul : (0 : UInt8) ∉ s.spec)
  (hpending : s.op = true → s.l ≠ 0)
include hnul hpending

/-- The scan ends behind the last character, with a turn for each, when it starts no range up to
the greatest `char`. -/
theorem scanLoop_returns (hspaces : s.spec.any isspace = false) (hfuel : 255 < fuel)
    (hfuel' : s.spec.length < fuel')
    (hranges : ∀ u ∈ visited (scanTurn fuel) fuel' s, ∀ c, u.AtRange c → c ≠ 127) :
    ∃ t, loop (scanTurn fuel) fuel' s = some t := by
  refine loop_returns_of_visited (fun u => u.spec.length) (fun u hu => ?_) hfuel'
  have hinv : ScanInv s u := visited_invariant (ScanInv s) (fun v w hv hagain => (scanTurn_again hagain).inv hv)
    ⟨hnul,hpending,rfl,rfl⟩ hu
  rcases scanTurn_returns hfuel (hranges u hu) with hdone | ⟨t,ht⟩
  · exact Or.inl hdone
  · refine Or.inr ⟨t,ht,?_⟩
    rcases (scanTurn_again ht).spec with ⟨-,hspace⟩ | ⟨c,hspec,-⟩
    · rw [hinv.spaces, hspaces] at hspace
      cases hspace
    · rw [hspec, List.length_cons]
      omega

/-- The ranges a scan starts are among those of its spec. -/
theorem ranges_ne (hends : (itemsFrom s.pending s.spec).any Item.endless = false) :
    ∀ u ∈ visited (scanTurn fuel) fuel' s, ∀ c, u.AtRange c → c ≠ 127 := by
  intro u hu c hat
  have hinv : EndInv s u := visited_invariant (EndInv s) (fun v w hv hagain => (scanTurn_again hagain).endInv hv)
    ⟨⟨hnul,hpending,rfl,rfl⟩,rfl⟩ hu
  rintro rfl
  exact any_endless_iff.mp (hinv.endless.trans hends) u.l hat.mem_items

theorem scanLoop_ends (h : loop (scanTurn fuel) fuel' s = some t) :
    (itemsFrom s.pending s.spec).any Item.endless = false := by
  refine loop_invariant (EndInv s) (fun _ => (itemsFrom s.pending s.spec).any Item.endless = false)
    (fun u v hu hagain => (scanTurn_again hagain).endInv hu) (fun u v hu hdone => ?_)
    ⟨⟨hnul,hpending,rfl,rfl⟩,rfl⟩ h
  rw [← hu.endless, (scanTurn_done hdone).1]
  exact itemsFrom_nil_endless u.pending

end Scan

/-- What holds of a name of a class as of the spec behind it holds of a spec as of what it
is resolved to. -/
theorem resolveClass_iff {P : List UInt8 → Prop} (h : ∀ c ∈ classes, (P c.1 ↔ P c.2)) (spec : CStr) :
    P (resolveClass spec) ↔ P spec.bytes := by
  rcases resolveClass_resolved spec with hself | hclass
  · rw [hself]
  · exact (h _ hclass).symm

theorem resolveClass_isspace (spec : CStr) :
    (resolveClass spec).any isspace = false ↔ spec.bytes.any isspace = false :=
  resolveClass_iff (P := fun s => s.any isspace = false) (by decide) spec

theorem resolveClass_endless (spec : CStr) :
    (items (resolveClass spec)).any Item.endless = false ↔ (items spec.bytes).any Item.endless = false :=
  resolveClass_iff (P := fun s => (items s).any Item.endless = false) (by decide) spec

section Call
variable {malloc : ℕ → Bool} {uninit : ℕ → UInt8} {spec : CStr} {out : CharsetOut}

theorem scanStart_returns (hspaces : spec.bytes.any isspace = false) {fuel : ℕ}
    (hfuel : (resolveClass spec).length + 255 < fuel)
    (hranges : ∀ u ∈ visited (scanTurn fuel) fuel (scanStart uninit (resolveClass spec)), ∀ c, u.AtRange c → c ≠ 127) :
    ∃ s, loop (scanTurn fuel) fuel (scanStart uninit (resolveClass spec)) = some s := by
  have hspaces' := (resolveClass_isspace spec).mpr hspaces
  exact scanLoop_returns (nul_notMem_resolveClass spec) (by simp [scanStart]) hspaces' (by omega)
    (show (resolveClass spec).length < fuel by omega) hranges

theorem scanStart_ranges (uninit : ℕ → UInt8) (hends : (items spec.bytes).any Item.endless = false)
    {fuel fuel' : ℕ} :
    ∀ u ∈ visited (scanTurn fuel) fuel' (scanStart uninit (resolveClass spec)), ∀ c, u.AtRange c → c ≠ 127 :=
  ranges_ne (nul_notMem_resolveClass spec) (by simp [scanStart]) ((resolveClass_endless spec).mpr hends)

/-- On the specs without whitespace and without an endless range a call reaches its answer. -/
theorem enumerateCharset_eq_verdict (hres : out.res ≠ none) (hrlen : out.rlen ≠ none)
    (hspaces : spec.bytes.any isspace = false) (hends : (items spec.bytes).any Item.endless = false)
    {fuel : ℕ} (hfuel : (resolveClass spec).length + 255 < fuel) :
    enumerateCharset fuel malloc uninit (some spec) out =
      some (verdict malloc (expansion (resolveClass spec)) out) := by
  obtain ⟨s,hs⟩ := scanStart_returns hspaces hfuel (scanStart_ranges uninit hends)
  have hcall : enumerateCharset fuel malloc uninit (some spec) out = some (deliver malloc (flush s) out) := by
    simp [enumerateCharset, hres, hrlen, hs]
  rw [hcall, (enumerateCharset_eq_some hres hrlen hcall).1]

/-- Nothing else has one. -/
theorem enumerateCharset_returned (hres : out.res ≠ none) (hrlen : out.rlen ≠ none) {fuel : ℕ}
    {r : ℤ × CharsetOut} (h : enumerateCharset fuel malloc uninit (some spec) out = some r) :
    spec.bytes.any isspace = false ∧ (items spec.bytes).any Item.endless = false := by
  rw [← resolveClass_isspace, ← resolveClass_endless]
  obtain ⟨s,hloop,-⟩ := enumerateCharset_scan hres hrlen h
  refine ⟨(enumerateCharset_eq_some hres hrlen h).2,?_⟩
  exact scanLoop_ends (nul_notMem_resolveClass spec) (by simp [scanStart]) hloop

/-- The range loops that a call starts end. -/
def RangeLoopsEnd (uninit : ℕ → UInt8) (spec : CStr) (out : CharsetOut) : Prop :=
  out.res ≠ none → out.rlen ≠ none →
    ∀ fuel, ∀ s ∈ visited (scanTurn fuel) fuel (scanStart uninit (resolveClass spec)), ∀ c, s.AtRange c →
      ∃ fuel' t, loop (rangeTurn c) fuel' s = some t

theorem rangeLoopsEnd_iff (hres : out.res ≠ none) (hrlen : out.rlen ≠ none)
    (hspaces : spec.bytes.any isspace = false) :
    RangeLoopsEnd uninit spec out ↔ (items spec.bytes).any Item.endless = false := by
  constructor
  · intro hloops
    -- A scan whose range loops all end comes to the end of the spec.
    obtain ⟨t,ht⟩ := scanStart_returns hspaces (Nat.lt_succ_self _)
      (fun u hu c hat => (rangeLoop_returns_iff u).mp (hloops hres hrlen _ u hu c hat))
    rw [← resolveClass_endless]
    exact scanLoop_ends (nul_notMem_resolveClass spec) (by simp [scanStart]) ht
  · intro hends _ _ fuel u hu c hat
    rw [rangeLoop_returns_iff]
    exact scanStart_ranges uninit hends u hu c hat

theorem enumerateCharset_returns_iff (hres : out.res ≠ none) (hrlen : out.rlen ≠ none)
    (hspaces : spec.bytes.any isspace = false) :
    (∃ fuel r, enumerateCharset fuel malloc uninit (some spec) out = some r) ↔
      (items spec.bytes).any Item.endless = false := by
  constructor
  · rintro ⟨fuel,r,h⟩
    exact (enumerateCharset_returned hres hrlen h).2
  · intro hends
    exact ⟨_,_,enumerateCharset_eq_verdict hres hrlen hspaces hends (Nat.lt_succ_self _)⟩

/-- The range loops of a call, and the call itself, end exactly for the specs without a range up
to the byte 127. A call that is refused for a null pointer does not look at the spec. -/
theorem enumerateCharset_ends_iff (hspaces : spec.bytes.any isspace = false) :
    (RangeLoopsEnd uninit spec out ↔
      out.res = none ∨ out.rlen = none ∨ ∀ lo, Item.range lo 127 ∉ items spec.bytes) ∧
    ((∃ fuel r, enumerateCharset fuel malloc uninit (some spec) out = some r) ↔
      out.res = none ∨ out.rlen = none ∨ ∀ lo, Item.range lo 127 ∉ items spec.bytes) := by
  rw [← any_endless_iff]
  by_cases hres : out.res = none
  · refine ⟨iff_of_true (fun h => absurd hres h) (Or.inl hres),iff_of_true ?_ (Or.inl hres)⟩
    exact ⟨0,(-1,{ out with errno := EINVAL }),by simp [enumerateCharset, hres]⟩
  by_cases hrlen : out.rlen = none
  · refine ⟨iff_of_true (fun _ h => absurd hrlen h) (Or.inr (Or.inl hrlen)),iff_of_true ?_ (Or.inr (Or.inl hrlen))⟩
    exact ⟨0,(-1,{ out with errno := EINVAL }),by simp [enumerateCharset, hrlen]⟩
  simp only [hres, hrlen, false_or]
  exact ⟨rangeLoopsEnd_iff hres hrlen hspaces,enumerateCharset_returns_iff hres hrlen hspaces⟩

end Call

/-- `a-` up to the byte 127 keeps the range loop going. -/
theorem enumerateCharset_endless :
    ¬ ∀ (malloc : ℕ → Bool) (uninit : ℕ → UInt8) (spec : CStr) (out : CharsetOut),
      out.res ≠ none → out.rlen ≠ none → spec.bytes.any isspace = false →
        RangeLoopsEnd uninit spec out ∧
        ∃ fuel r, enumerateCharset fuel malloc uninit (some spec) out = some r := by
  intro h
  obtain ⟨-,fuel,r,hr⟩ := h (fun _ => true) (fun _ => 7) ⟨[97,45,127],by decide⟩ freshOut freshOut_res
    freshOut_rlen (by decide)
  have hends := (enumerateCharset_returned freshOut_res freshOut_rlen hr).2
  exact absurd hends (by decide)

theorem enumerateCharset_ends_az :
    RangeLoopsEnd (fun _ => 7) (CStr.upto (literal "a-z")) freshOut ∧
    ∃ fuel r, enumerateCharset fuel (fun _ => true) (fun _ => 7) (some (CStr.upto (literal "a-z"))) freshOut =
      some r := by
  have hranges : ∀ lo, Item.range lo 127 ∉ items (CStr.upto (literal "a-z")).bytes := any_endless_iff.mp (by decide)
  obtain ⟨hloops,hcall⟩ :=
    @enumerateCharset_ends_iff (fun _ => true) (fun _ => 7) (CStr.upto (literal "a-z")) freshOut (by decide)
  exact ⟨hloops.mpr (Or.inr (Or.inr hranges)),hcall.mpr (Or.inr (Or.inr hranges))⟩

def stripped (spec : CStr) : CStr :=
  ⟨spec.bytes.filter (!isspace ·),fun h => spec.nul_free (List.mem_of_mem_filter h)⟩

/-- The scan of a spec ends as that of its stripped form does. -/
def SkipsWhitespace (malloc : ℕ → Bool) (uninit : ℕ → UInt8) (spec : CStr) (out : CharsetOut) : Prop :=
  ∃ fuel r fuel' r', enumerateCharset fuel malloc uninit (some spec) out = some r ∧
    enumerateCharset fuel' malloc uninit (some (stripped spec)) out = some r' ∧
    r.1 = r'.1 ∧ r.2.res = r'.2.res ∧ r.2.rlen = r'.2.rlen

/-- Whitespace is never skipped: `continue` leaves `spec` where it is. -/
theorem not_skipsWhitespace {malloc : ℕ → Bool} {uninit : ℕ → UInt8} {spec : CStr} {out : CharsetOut}
    (hspaces : spec.bytes.any isspace = true) (hres : out.res ≠ none) (hrlen : out.rlen ≠ none) :
    ¬ SkipsWhitespace malloc uninit spec out := by
  rintro ⟨fuel,r,-,-,hr,-⟩
  rw [(enumerateCharset_returned hres hrlen hr).1] at hspaces
  cases hspaces

theorem enumerateCharset_whitespace :
    ¬ ∀ (malloc : ℕ → Bool) (uninit : ℕ → UInt8) (spec : CStr) (out : CharsetOut),
      out.res ≠ none → out.rlen ≠ none → (∀ b ∈ spec.bytes, b < 128) → spec.bytes.any isspace = true →
      spec.bytes ∉ classes.map Prod.fst → (stripped spec).bytes ∉ classes.map Prod.fst →
      (∃ fuel r, enumerateCharset fuel malloc uninit (some (stripped spec)) out = some r) →
        SkipsWhitespace malloc uninit spec out := by
  intro h
  have hcall : enumerateCharset 5 (fun _ => true) (fun _ => 7) (some (stripped (CStr.upto (literal "a b"))))
      freshOut = some (0,⟨some (some ⟨2,[97,98,0]⟩),some 2,0,[]⟩) := by decide
  have hascii : ∀ b ∈ (CStr.upto (literal "a b")).bytes, b < 128 := List.all_iff_forall_prop.mp (by decide)
  obtain ⟨fuel,r,-,-,hr,-⟩ := h _ _ (CStr.upto (literal "a b")) freshOut freshOut_res freshOut_rlen
    hascii (by decide) (by decide) (by decide) ⟨5,_,hcall⟩
  have hspaces := (enumerateCharset_returned freshOut_res freshOut_rlen hr).1
  exact absurd hspaces (by decide)

theorem not_skipsWhitespace_blank :
    ¬ SkipsWhitespace (fun _ => true) (fun _ => 7) (CStr.upto (literal "a b")) freshOut :=
  not_skipsWhitespace (by decide) freshOut_res freshOut_rlen

end Padre
