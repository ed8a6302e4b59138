import Padre.Charset.Termination

/-! # Where an enumeration writes

The cells of the local array that the pushes of a scan write to, and the cells of the block
that the copy behind it does. A cell no push writes to keeps its content. The pushes stay
inside the array whatever the spec. The copy takes the terminator along into a block that
was allocated without room for it.
-/
namespace Padre
open CString FuelLoop

/-- The cell `push_char` writes to. -/
def pushWrites (begin : Option ℕ) (end_ : ℕ) : List ℕ :=
  match begin with
  | some p => if p < end_ then [p] else []
  | none => []

def ScanState.writes (s : ScanState) : List ℕ := pushWrites s.result CHARS_SIZE

def rangeWrites (c : UInt8) (s : ScanState) : List ℕ := if schar s.l ≤ schar c then s.writes else []

/-- The cells a turn of the scan writes to, branch by branch. -/
def turnWrites (fuel : ℕ) (s : ScanState) : List ℕ :=
  match s.spec with
  | [] => []
  | c :: _ =>
    if isspace c then []
    else if s.l = 0 ∧ c = dash then s.writes
    else if s.l = 0 ∧ c ≠ dash then []
    else if s.l ≠ 0 ∧ c = dash then []
    else if s.l ≠ 0 ∧ c ≠ dash ∧ s.op = true then (visited (rangeTurn c) fuel s).flatMap (rangeWrites c)
    else s.writes

/-- The cells the pushes after the scan write to. -/
def flushWrites (s : ScanState) : List ℕ :=
  let pending := if s.l ≠ 0 then s.writes else []
  let s := if s.l ≠ 0 then s.push s.l else s
  let operator := if s.op = true then s.writes else []
  let s := if s.op = true then s.push dash else s
  pending ++ operator ++ s.writes

/-- The cells of the local array a call writes to. -/
def arrayWrites (fuel : ℕ) (uninit : ℕ → UInt8) (spec : List UInt8) : List ℕ :=
  (visited (scanTurn fuel) fuel (scanStart uninit spec)).flatMap (turnWrites fuel) ++
    match loop (scanTurn fuel) fuel (scanStart uninit spec) with
    | none => []
    | some s => flushWrites s

/-- The cells of a block the copy has written to. -/
def Block.writes (block : Block) : List ℕ := List.range block.bytes.length

section Frame
variable {i : ℕ} {fuel : ℕ} {s t : ScanState}

theorem push_untouched {c : UInt8} (h : i ∉ s.writes) : (s.push c).chars[i]? = s.chars[i]? := by
  unfold ScanState.writes pushWrites at h
  unfold ScanState.push pushChar
  cases hresult : s.result with
  | none => rfl
  | some p =>
    simp only [hresult] at h
    by_cases hp : p < CHARS_SIZE
    · rw [if_pos hp] at h
      have hne : p ≠ i := fun heq => h (by simp [heq])
      simp only [if_pos hp]
      exact List.getElem?_set_ne hne
    · simp only [if_neg hp]

theorem rangeLoop_untouched {c : UInt8} (h : loop (rangeTurn c) fuel s = some t)
    (hi : i ∉ (visited (rangeTurn c) fuel s).flatMap (rangeWrites c)) : t.chars[i]? = s.chars[i]? := by
  refine loop_untouched (fun u : ScanState => u.chars[i]?) (rangeWrites c) ?_ ?_ hi h
  · intro u v hu hagain
    obtain ⟨hle,rfl⟩ := rangeTurn_again hagain
    rw [rangeWrites, if_pos hle] at hu
    exact push_untouched hu
  · intro u v _ hdone
    rw [(rangeTurn_done hdone).2]

theorem ScanStep.untouched (hstep : ScanStep fuel s t) (hi : i ∉ turnWrites fuel s) :
    t.chars[i]? = s.chars[i]? := by
  unfold turnWrites at hi
  cases hstep with
  | space _ _ => rfl
  | literalDash hspec hl =>
    apply push_untouched
    simpa [hspec, hl, isspace_dash] using hi
  | left _ _ _ _ => rfl
  | operator _ _ => rfl
  | @range c rest u hspec hspace hl hd hop hloop =>
    have hlist : i ∉ (visited (rangeTurn c) fuel s).flatMap (rangeWrites c) := by
      simpa only [hspec, hspace, hl, hd, hop, false_and, and_false, if_false, ne_eq, not_false_eq_true,
        true_and, if_true, Bool.false_eq_true] using hi
    have hcells := rangeLoop_untouched hloop hlist
    exact hcells
  | next hspec hspace hl hd hop =>
    apply push_untouched
    simpa [hspec, hspace, hl, hd, hop] using hi

theorem scanLoop_untouched {fuel' : ℕ} (h : loop (scanTurn fuel) fuel' s = some t)
    (hi : i ∉ (visited (scanTurn fuel) fuel' s).flatMap (turnWrites fuel)) :
    t.chars[i]? = s.chars[i]? := by
  refine loop_untouched (fun u : ScanState => u.chars[i]?) (turnWrites fuel) ?_ ?_ hi h
  · intro u v hu hagain
    exact (scanTurn_again hagain).untouched hu
  · intro u v _ hdone
    rw [(scanTurn_done hdone).2]

theorem push_if_untouched {p : Prop} [Decidable p] {c : UInt8} (hi : i ∉ if p then s.writes else []) :
    (if p then s.push c else s).chars[i]? = s.chars[i]? := by
  by_cases hp : p
  · rw [if_pos hp] at hi ⊢
    exact push_untouched hi
  · rw [if_neg hp]

theorem flush_untouched (hi : i ∉ flushWrites s) : (flush s).chars[i]? = s.chars[i]? := by
  simp only [flushWrites, List.append_assoc, List.mem_append, not_or] at hi
  obtain ⟨hpending,hoperator,hlast⟩ := hi
  exact ((push_untouched hlast).trans (push_if_untouched hoperator)).trans (push_if_untouched hpending)

end Frame

/-- A cell of the array that no push writes to keeps its content. -/
theorem array_untouched {i fuel : ℕ} {uninit : ℕ → UInt8} {spec : List UInt8} {s : ScanState}
    (h : loop (scanTurn fuel) fuel (scanStart uninit spec) = some s) (hi : i ∉ arrayWrites fuel uninit spec) :
    (flush s).chars[i]? = (scanStart uninit spec).chars[i]? := by
  simp only [arrayWrites, h, List.mem_append, not_or] at hi
  exact (flush_untouched hi.2).trans (scanLoop_untouched h hi.1)

section Inside
variable {i : ℕ} {s : ScanState}

theorem writes_lt (hi : i ∈ s.writes) : i < CHARS_SIZE := by
  unfold ScanState.writes pushWrites at hi
  split at hi
  · split at hi
    · rw [List.mem_singleton.mp hi]
      assumption
    · cases hi
  · cases hi

theorem rangeWrites_lt {c : UInt8} (hi : i ∈ rangeWrites c s) : i < CHARS_SIZE := by
  unfold rangeWrites at hi
  split at hi
  · exact writes_lt hi
  · cases hi

theorem turnWrites_lt {fuel : ℕ} (hi : i ∈ turnWrites fuel s) : i < CHARS_SIZE := by
  unfold turnWrites at hi
  repeat' split at hi
  all_goals first
    | cases hi
    | exact writes_lt hi
    | obtain ⟨u,-,hu⟩ := List.mem_flatMap.mp hi
      exact rangeWrites_lt hu

theorem flushWrites_lt (hi : i ∈ flushWrites s) : i < CHARS_SIZE := by
  have hif {p : Prop} [Decidable p] {u : ScanState} (h : i ∈ if p then u.writes else []) : i < CHARS_SIZE := by
    split at h
    · exact writes_lt h
    · cases h
  simp only [flushWrites, List.append_assoc, List.mem_append] at hi
  rcases hi with hi | hi | hi
  · exact hif hi
  · exact hif hi
  · exact writes_lt hi

end Inside

/-- No push leaves the array, on any fuel: the pointer is null from the first that would. -/
theorem arrayWrites_lt {i fuel : ℕ} {uninit : ℕ → UInt8} {spec : List UInt8}
    (hi : i ∈ arrayWrites fuel uninit spec) : i < CHARS_SIZE := by
  unfold arrayWrites at hi
  rcases List.mem_append.mp hi with hi | hi
  · obtain ⟨u,-,hu⟩ := List.mem_flatMap.mp hi
    exact turnWrites_lt hu
  · split at hi
    · cases hi
    · exact flushWrites_lt hi

/-- The writes of a call stay inside the objects they go to. -/
def WritesInside (fuel : ℕ) (malloc : ℕ → Bool) (uninit : ℕ → UInt8) (spec : CStr) (out : CharsetOut) : Prop :=
  (∀ i ∈ arrayWrites fuel uninit (resolveClass spec), i < CHARS_SIZE) ∧
  ∀ out' block, enumerateCharset fuel malloc uninit (some spec) out = some (0,out') →
    out'.res = some (some block) → ∀ i ∈ block.writes, i < block.allocated

/-- Every accepted spec has the copy write one byte behind its block. The pushes change the
cells that are listed, and no other. -/
theorem writesInside_iff {fuel : ℕ} {malloc : ℕ → Bool} {uninit : ℕ → UInt8} {spec : CStr}
    {out : CharsetOut} {r : ℤ × CharsetOut}
    (h : enumerateCharset fuel malloc uninit (some spec) out = some r) :
    (WritesInside fuel malloc uninit spec out ↔ out.res = none ∨ out.rlen = none ∨
      94 < (expansion (resolveClass spec)).length ∨
      malloc (untilNul (expansion (resolveClass spec))).length = false) ∧
    ∀ s, loop (scanTurn fuel) fuel (scanStart uninit (resolveClass spec)) = some s →
      ∀ i, i ∉ arrayWrites fuel uninit (resolveClass spec) →
        (flush s).chars[i]? = (scanStart uninit (resolveClass spec)).chars[i]? := by
  refine ⟨?_,fun s hs i hi => array_untouched hs hi⟩
  constructor
  · rintro ⟨-,hblock⟩
    by_contra hcond
    simp only [not_or, Bool.not_eq_false, not_lt] at hcond
    obtain ⟨hres,hrlen,hlen,hmalloc⟩ := hcond
    have hverdict := (enumerateCharset_eq_some hres hrlen h).1
    simp only [verdict, if_pos hlen, hmalloc, if_true] at hverdict
    rw [hverdict] at h
    have hlast := hblock _ _ h rfl (untilNul (expansion (resolveClass spec))).length (by simp [Block.writes])
    exact absurd hlast (lt_irrefl _)
  · intro hcond
    refine ⟨fun i hi => arrayWrites_lt hi,?_⟩
    intro out' block hcall hblock
    exfalso
    obtain ⟨hres,hrlen⟩ := out_of_accepted hcall
    have hverdict := (enumerateCharset_eq_some hres hrlen hcall).1
    rcases hcond with hnull | hnull | hlen | hmalloc
    · exact hres hnull
    · exact hrlen hnull
    · exact absurd (verdict_eq_zero hverdict.symm).1 (by omega)
    · simp only [verdict, hmalloc, Bool.false_eq_true, if_false] at hverdict
      split at hverdict <;> simp at hverdict

/-- The block of `a` has one byte, and two are copied into it. -/
theorem enumerateCharset_overflow :
    ¬ ∀ (fuel : ℕ) (malloc : ℕ → Bool) (uninit : ℕ → UInt8) (spec : CStr) (out : CharsetOut)
      (r : ℤ × CharsetOut), enumerateCharset fuel malloc uninit (some spec) out = some r →
        WritesInside fuel malloc uninit spec out := by
  intro h
  have hcall : enumerateCharset 2 (fun _ => true) (fun _ => 7) (some (CStr.upto (literal "a"))) freshOut =
      some (0,⟨some (some ⟨1,[97,0]⟩),some 1,0,[]⟩) := by decide
  exact absurd ((h _ _ _ _ _ _ hcall).2 _ _ hcall rfl 1 (by decide)) (by decide)

/-- The 95 characters of `!-~a` are refused, so that nothing is copied. -/
theorem writesInside_refused :
    WritesInside 300 (fun _ => true) (fun _ => 7) (CStr.upto (literal "!-~a")) freshOut ∧
    ∀ s, loop (scanTurn 300) 300 (scanStart (fun _ => 7) (resolveClass (CStr.upto (literal "!-~a")))) = some s →
      ∀ i, i ∉ arrayWrites 300 (fun _ => 7) (resolveClass (CStr.upto (literal "!-~a"))) →
        (flush s).chars[i]? = (scanStart (fun _ => 7) (resolveClass (CStr.upto (literal "!-~a")))).chars[i]? := by
  have hcall : enumerateCharset 300 (fun _ => true) (fun _ => 7) (some (CStr.upto (literal "!-~a"))) freshOut =
      some (verdict (fun _ => true) (expansion (resolveClass (CStr.upto (literal "!-~a")))) freshOut) :=
    enumerateCharset_eq_verdict freshOut_res freshOut_rlen (by decide) (by decide) (by decide)
  have h := writesInside_iff hcall
  exact ⟨h.1.mpr (Or.inr (Or.inr (Or.inl (by decide)))),h.2⟩

end Padre
