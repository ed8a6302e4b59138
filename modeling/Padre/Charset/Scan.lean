import Padre.Charset.Notation

/-! # The scan computes the expansion

The buffer a scan ends with is the one it has, pushed with the expansion of what is left
of the spec. Every turn keeps this, so that an accepted spec delivers its expansion up to
the first NUL. A scan that returns has met no whitespace and no range up to the greatest
`char`: either would have kept one of the loops going.
-/
namespace Padre
open CString FuelLoop

/-- The local array and the pointer into it. -/
def ScanState.buffer (s : ScanState) : List UInt8 × Option ℕ := (s.chars,s.result)

/-- Successive pushes. -/
def pushChars (b : List UInt8 × Option ℕ) (cs : List UInt8) : List UInt8 × Option ℕ :=
  cs.foldl (fun b c => pushChar b.1 b.2 CHARS_SIZE c) b

@[simp] theorem pushChars_nil (b : List UInt8 × Option ℕ) : pushChars b [] = b := rfl

theorem pushChars_append (b : List UInt8 × Option ℕ) (cs ds : List UInt8) :
    pushChars b (cs ++ ds) = pushChars (pushChars b cs) ds := List.foldl_append

theorem pushChars_cons (s : ScanState) (c : UInt8) (cs : List UInt8) :
    pushChars s.buffer (c :: cs) = pushChars (s.push c).buffer cs := rfl

@[simp] theorem push_l (s : ScanState) (c : UInt8) : (s.push c).l = s.l := rfl
@[simp] theorem push_op (s : ScanState) (c : UInt8) : (s.push c).op = s.op := rfl

theorem pushChars_none (chars cs : List UInt8) : pushChars (chars,none) cs = (chars,none) := by
  induction cs with
  | nil => rfl
  | cons c cs ih => exact ih

/-- Pushes behind `done` in an array of the declared size: they fit, or the pointer is null. -/
theorem pushChars_spec (done room cs : List UInt8) (h : done.length + room.length = CHARS_SIZE) :
    (cs.length ≤ room.length → pushChars (done ++ room,some done.length) cs =
      (done ++ cs ++ room.drop cs.length,some (done ++ cs).length)) ∧
    (room.length < cs.length → (pushChars (done ++ room,some done.length) cs).2 = none) := by
  induction cs generalizing done room with
  | nil => simp
  | cons c cs ih =>
    cases room with
    | nil =>
      have hfull : ¬ done.length < CHARS_SIZE := by simpa using h.ge
      have hpush : pushChars (done ++ [],some done.length) (c :: cs) = (done ++ [],none) := by
        simp only [pushChars, List.foldl_cons, pushChar, if_neg hfull]
        exact pushChars_none (done ++ []) cs
      exact ⟨fun hle => by simp at hle,fun _ => by rw [hpush]⟩
    | cons b room =>
      have hlt : done.length < CHARS_SIZE := by
        simp only [List.length_cons] at h
        omega
      have hstep : pushChars (done ++ b :: room,some done.length) (c :: cs) =
          pushChars ((done ++ [c]) ++ room,some (done ++ [c]).length) cs := by
        simp [pushChars, pushChar, hlt]
      have hi := ih (done ++ [c]) room (by simp only [List.length_append, List.length_cons] at h ⊢; simp; omega)
      rw [hstep]
      refine ⟨?_,fun hgt => hi.2 (by simpa using hgt)⟩
      intro hle
      rw [hi.1 (by simpa using hle)]
      simp

theorem rangeTurn_again {c : UInt8} {s t : ScanState} (h : rangeTurn c s = some (.again t)) :
    schar s.l ≤ schar c ∧ t = { s.push s.l with l := s.l + 1 } := by
  unfold rangeTurn at h
  split at h
  · cases h
    exact ⟨‹_›,rfl⟩
  · cases h

theorem rangeTurn_done {c : UInt8} {s t : ScanState} (h : rangeTurn c s = some (.done t)) :
    schar c < schar s.l ∧ t = s := by
  unfold rangeTurn at h
  split at h
  · cases h
  · cases h
    exact ⟨by omega,rfl⟩

theorem rangeLoop_eq_none {c : UInt8} (hc : schar c = 127) (fuel : ℕ) (s : ScanState) :
    loop (rangeTurn c) fuel s = none := by
  refine loop_eq_none (fun _ => True) (fun _ _ _ _ => trivial) (fun s r _ hd => ?_) fuel trivial
  have hlt := (rangeTurn_done hd).1
  have hle := (schar_bounds s.l).2
  omega

theorem rangeLoop_spec {c : UInt8} {fuel : ℕ} {s t : ScanState}
    (h : loop (rangeTurn c) fuel s = some t) :
    schar c < 127 ∧ t.buffer = pushChars s.buffer (rangeChars s.l c) := by
  have hc : schar c < 127 := by
    by_contra hge
    have hmax := (schar_bounds c).2
    rw [rangeLoop_eq_none (by omega)] at h
    cases h
  refine ⟨hc,?_⟩
  refine loop_invariant
    (fun u : ScanState => pushChars u.buffer (rangeChars u.l c) = pushChars s.buffer (rangeChars s.l c))
    (fun u : ScanState => u.buffer = pushChars s.buffer (rangeChars s.l c))
    (fun u v hu hagain => ?_) (fun u v hu hdone => ?_) rfl h
  · obtain ⟨hle,rfl⟩ := rangeTurn_again hagain
    rw [rangeChars_cons hle hc, pushChars_cons] at hu
    exact hu
  · obtain ⟨hlt,rfl⟩ := rangeTurn_done hdone
    simpa [rangeChars_of_lt hlt] using hu

/-- All a turn of the scan can do. -/
inductive ScanStep (fuel : ℕ) (s : ScanState) : ScanState → Prop where
  | space {c rest} : s.spec = c :: rest → isspace c = true → ScanStep fuel s s
  | literalDash {rest} : s.spec = dash :: rest → s.l = 0 → ScanStep fuel s { s.push dash with spec := rest }
  | left {c rest} : s.spec = c :: rest → isspace c = false → s.l = 0 → c ≠ dash →
      ScanStep fuel s { s with l := c, spec := rest }
  | operator {rest} : s.spec = dash :: rest → s.l ≠ 0 → ScanStep fuel s { s with op := true, spec := rest }
  | range {c rest u} : s.spec = c :: rest → isspace c = false → s.l ≠ 0 → c ≠ dash → s.op = true →
      loop (rangeTurn c) fuel s = some u → ScanStep fuel s { u with op := false, l := 0, spec := rest }
  | next {c rest} : s.spec = c :: rest → isspace c = false → s.l ≠ 0 → c ≠ dash → s.op = false →
      ScanStep fuel s { s.push s.l with l := c, spec := rest }

theorem scanTurn_again {fuel : ℕ} {s t : ScanState} (h : scanTurn fuel s = some (.again t)) :
    ScanStep fuel s t := by
  unfold scanTurn at h
  cases hspec : s.spec with
  | nil => simp [hspec] at h
  | cons c rest =>
    simp only [hspec] at h
    by_cases hspace : isspace c = true
    · rw [if_pos hspace] at h
      cases h
      exact .space hspec hspace
    have hspace' : isspace c = false := by simpa using hspace
    rw [if_neg hspace] at h
    by_cases hl : s.l = 0 <;> by_cases hd : c = dash
    · subst hd
      simp only [hl, true_and, if_true] at h
      cases h
      exact .literalDash hspec hl
    · simp only [hl, hd, and_false, if_false, true_and, not_false_eq_true, if_true, ne_eq] at h
      cases h
      exact .left hspec hspace' hl hd
    · subst hd
      simp only [hl, false_and, if_false, ne_eq, not_false_eq_true, true_and, if_true] at h
      cases h
      exact .operator hspec hl
    · simp only [hl, hd, false_and, and_false, if_false, ne_eq, not_false_eq_true, true_and] at h
      by_cases hop : s.op = true
      · rw [if_pos hop] at h
        split at h
        · cases h
        · cases h
          exact .range hspec hspace' hl hd hop ‹_›
      · rw [if_neg hop] at h
        cases h
        exact .next hspec hspace' hl hd (by simpa using hop)

theorem scanTurn_done {fuel : ℕ} {s t : ScanState} (h : scanTurn fuel s = some (.done t)) :
    s.spec = [] ∧ t = s := by
  unfold scanTurn at h
  cases hspec : s.spec with
  | nil =>
    simp only [hspec] at h
    cases h
    exact ⟨rfl,rfl⟩
  | cons c rest =>
    simp only [hspec] at h
    repeat' split at h
    all_goals cases h

/-- The left side and the operator a state has pending. -/
def ScanState.pending (s : ScanState) : Option (UInt8 × Bool) :=
  if s.l = 0 then none else some (s.l,s.op)

/-- The buffer the scan is going to end with. -/
def ScanState.outcome (s : ScanState) : List UInt8 × Option ℕ :=
  pushChars s.buffer (expansionFrom s.pending s.spec)

/-- What every turn of a scan from `s₀` keeps. -/
structure ScanInv (s₀ s : ScanState) : Prop where
  nul_free : (0 : UInt8) ∉ s.spec
  pending : s.op = true → s.l ≠ 0
  outcome : s.outcome = s₀.outcome
  spaces : s.spec.any isspace = s₀.spec.any isspace

theorem isspace_dash : isspace dash = false := by decide

/-- `t` has settled the first items that were left in `s`, and pushed their characters. -/
structure Settles (s t : ScanState) (settled : List Item) : Prop where
  items : itemsFrom s.pending s.spec = settled ++ itemsFrom t.pending t.spec
  buffer : t.buffer = pushChars s.buffer (settled.flatMap Item.chars)
  ends : settled.any Item.endless = false

theorem Settles.outcome {s t : ScanState} {settled : List Item} (h : Settles s t settled) :
    t.outcome = s.outcome := by
  simp only [ScanState.outcome, expansionFrom, h.items, List.flatMap_append, pushChars_append, h.buffer]

/-- Where a turn is in the spec afterwards: at the whitespace it met, or a character on. -/
theorem ScanStep.spec {fuel : ℕ} {s t : ScanState} (hstep : ScanStep fuel s t) :
    (t = s ∧ s.spec.any isspace = true) ∨ ∃ c, s.spec = c :: t.spec ∧ isspace c = false := by
  cases hstep with
  | space hspec hspace => exact Or.inl ⟨rfl,by simp [hspec, hspace]⟩
  | literalDash hspec _ => exact Or.inr ⟨dash,hspec,isspace_dash⟩
  | operator hspec _ => exact Or.inr ⟨dash,hspec,isspace_dash⟩
  | left hspec hspace _ _ => exact Or.inr ⟨_,hspec,hspace⟩
  | range hspec hspace _ _ _ _ => exact Or.inr ⟨_,hspec,hspace⟩
  | next hspec hspace _ _ _ => exact Or.inr ⟨_,hspec,hspace⟩

theorem ScanStep.pending {fuel : ℕ} {s t : ScanState} (hnul : (0 : UInt8) ∉ s.spec)
    (hpending : s.op = true → s.l ≠ 0) (hstep : ScanStep fuel s t) : t.op = true → t.l ≠ 0 := by
  have hne {c rest} (hspec : s.spec = c :: rest) : c ≠ 0 := fun h => hnul (by simp [hspec, h])
  cases hstep with
  | space _ _ => exact hpending
  | literalDash _ _ => exact hpending
  | left hspec _ _ _ => exact fun _ => hne hspec
  | operator _ hl => exact fun _ => hl
  | range _ _ _ _ _ _ => exact fun h => by simp at h
  | next hspec _ _ _ _ => exact fun _ => hne hspec

theorem ScanStep.settles {fuel : ℕ} {s t : ScanState} (hnul : (0 : UInt8) ∉ s.spec)
    (hpending : s.op = true → s.l ≠ 0) (hstep : ScanStep fuel s t) : ∃ settled, Settles s t settled := by
  have hne {c rest} (hspec : s.spec = c :: rest) : c ≠ 0 := fun h => hnul (by simp [hspec, h])
  have hop (hl : s.l = 0) : s.op = false := by
    by_contra hop
    exact hpending (by simpa using hop) hl
  cases hstep with
  | space _ _ => exact ⟨[],rfl,rfl,rfl⟩
  | @literalDash rest hspec hl =>
    refine ⟨[.single dash],?_,rfl,rfl⟩
    simp [ScanState.pending, hspec, hl, itemsFrom]
  | @left c rest hspec _ hl hd =>
    refine ⟨[],?_,rfl,rfl⟩
    simp [ScanState.pending, hspec, hl, hop hl, hne hspec, itemsFrom, hd]
  | @operator rest hspec hl =>
    refine ⟨[],?_,rfl,rfl⟩
    cases hop : s.op with
    | false => simp [ScanState.pending, hspec, hl, hop, itemsFrom]
    | true => simp [ScanState.pending, hspec, hl, hop, itemsFrom]
  | @range c rest u hspec _ hl hd hop hloop =>
    obtain ⟨hend,hbuffer⟩ := rangeLoop_spec hloop
    refine ⟨[.range s.l c],?_,?_,?_⟩
    · simp [ScanState.pending, hspec, hl, hop, itemsFrom, hd]
    · rw [List.flatMap_singleton]
      exact hbuffer
    · simpa [Item.endless] using schar_lt_iff.mp hend
  | @next c rest hspec _ hl hd hop =>
    refine ⟨[.single s.l],?_,rfl,rfl⟩
    simp [ScanState.pending, hspec, hl, hop, hne hspec, itemsFrom, hd]

theorem ScanStep.inv {fuel : ℕ} {s₀ s t : ScanState} (h : ScanInv s₀ s) (hstep : ScanStep fuel s t) :
    ScanInv s₀ t := by
  obtain ⟨settled,hsettled⟩ := hstep.settles h.nul_free h.pending
  have hpending := hstep.pending h.nul_free h.pending
  have houtcome := hsettled.outcome.trans h.outcome
  rcases hstep.spec with ⟨rfl,-⟩ | ⟨c,hspec,hspace⟩
  · exact h
  · refine ⟨?_,hpending,houtcome,?_⟩
    · intro hmem
      exact h.nul_free (by simp [hspec, hmem])
    · rw [← h.spaces, hspec, List.any_cons, hspace, Bool.false_or]

theorem scanLoop_inv {fuel fuel' : ℕ} {s t : ScanState} (hnul : (0 : UInt8) ∉ s.spec)
    (hpending : s.op = true → s.l ≠ 0) (h : loop (scanTurn fuel) fuel' s = some t) :
    ScanInv s t ∧ t.spec = [] := by
  refine loop_invariant (ScanInv s) (fun t => ScanInv s t ∧ t.spec = [])
    (fun u v hu hagain => (scanTurn_again hagain).inv hu) (fun u v hu hdone => ?_)
    ⟨hnul,hpending,rfl,rfl⟩ h
  obtain ⟨hspec,rfl⟩ := scanTurn_done hdone
  exact ⟨hu,hspec⟩

theorem flush_buffer {s : ScanState} (hspec : s.spec = []) (hpending : s.op = true → s.l ≠ 0) :
    (flush s).buffer = pushChars s.outcome [0] := by
  simp only [flush, ScanState.outcome, ScanState.pending, hspec]
  by_cases hl : s.l = 0
  · have hop : ¬ s.op = true := fun hop => hpending hop hl
    rw [if_pos hl, if_neg (not_not.mpr hl), if_neg hop]
    rfl
  · by_cases hop : s.op = true
    · rw [if_neg hl, if_pos hl, push_op, if_pos hop, hop]
      rfl
    · have hop' : s.op = false := by simpa using hop
      rw [if_neg hl, if_pos hl, push_op, if_neg hop, hop']
      rfl

theorem scanLoop_flush {fuel fuel' : ℕ} {uninit : ℕ → UInt8} {spec : List UInt8} {s : ScanState}
    (hnul : (0 : UInt8) ∉ spec) (h : loop (scanTurn fuel) fuel' (scanStart uninit spec) = some s) :
    (flush s).buffer = pushChars ((scanStart uninit spec).chars,some 0) (expansion spec ++ [0]) ∧
    spec.any isspace = false := by
  obtain ⟨hinv,hspec⟩ := scanLoop_inv hnul (by simp [scanStart]) h
  have hspaces := hinv.spaces
  rw [hspec] at hspaces
  refine ⟨?_,hspaces.symm⟩
  rw [flush_buffer hspec hinv.pending, hinv.outcome, pushChars_append]
  rfl

/-- Pushes into the empty array. -/
theorem pushChars_start (uninit : ℕ → UInt8) (spec cs : List UInt8) :
    (cs.length ≤ CHARS_SIZE → pushChars ((scanStart uninit spec).chars,some 0) cs =
      (cs ++ (scanStart uninit spec).chars.drop cs.length,some cs.length)) ∧
    (CHARS_SIZE < cs.length → (pushChars ((scanStart uninit spec).chars,some 0) cs).2 = none) := by
  have hroom : (scanStart uninit spec).chars.length = CHARS_SIZE := by simp [scanStart]
  have h := pushChars_spec [] (scanStart uninit spec).chars cs (by simpa using hroom)
  rw [hroom] at h
  exact h

theorem take_strlen_succ {s : List UInt8} (h : (0 : UInt8) ∈ s) :
    s.take (strlen s + 1) = untilNul s ++ [0] := by
  obtain ⟨f,t,rfl,hf⟩ := List.eq_append_cons_of_mem h
  rw [strlen_append_nul hf, untilNul_append_nul, untilNul_eq_self hf, List.take_length_add_append]
  rfl

/-- What a call makes of an expansion: it is held up to its first NUL, or refused as a whole. -/
def verdict (malloc : ℕ → Bool) (e : List UInt8) (out : CharsetOut) : ℤ × CharsetOut :=
  if e.length ≤ 94 then
    let held := untilNul e
    if malloc held.length then
      (0,{ out with rlen := some held.length, res := some (some ⟨held.length,held ++ [0]⟩) })
    else
      (-1,{ out with rlen := some held.length, res := some none, errno := ENOMEM,
                     stderr := out.stderr ++ ["While enumerating the charset"] })
  else (-1,{ out with errno := EINVAL })

/-- The terminator counts: 95 characters leave no room for it. -/
theorem deliver_eq_verdict {malloc : ℕ → Bool} {uninit : ℕ → UInt8} {spec e : List UInt8}
    {s : ScanState} {out : CharsetOut}
    (h : s.buffer = pushChars ((scanStart uninit spec).chars,some 0) (e ++ [0])) :
    deliver malloc s out = verdict malloc e out := by
  obtain ⟨hfits,hover⟩ := pushChars_start uninit spec (e ++ [0])
  rw [← h, List.length_append, List.length_singleton] at hfits hover
  unfold CHARS_SIZE at hfits hover
  by_cases hlen : e.length ≤ 94
  · obtain ⟨hchars,hresult⟩ := Prod.mk.inj (hfits (by omega))
    rw [List.append_assoc] at hchars
    have hheld : untilNul s.chars = untilNul e := by rw [hchars]; exact untilNul_append_nul e _
    have hbytes := take_strlen_succ (s := s.chars) (by simp [hchars])
    have hrlen : strlen s.chars = (untilNul e).length := by rw [strlen, hheld]
    have hsome : s.result ≠ none := by simp [hresult]
    rw [hrlen, hheld] at hbytes
    simp only [deliver, verdict, if_pos hlen, if_neg hsome, hbytes, hrlen]
  · have hnone : s.result = none := hover (by omega)
    simp only [deliver, verdict, if_neg hlen, if_pos hnone]

theorem freshOut_res : freshOut.res ≠ none := by simp [freshOut]

theorem freshOut_rlen : freshOut.rlen ≠ none := by simp [freshOut]

/-- A call that returns has returned from its scan. -/
theorem enumerateCharset_scan {fuel : ℕ} {malloc : ℕ → Bool} {uninit : ℕ → UInt8} {spec : CStr}
    {out : CharsetOut} {r : ℤ × CharsetOut} (hres : out.res ≠ none) (hrlen : out.rlen ≠ none)
    (h : enumerateCharset fuel malloc uninit (some spec) out = some r) :
    ∃ s, loop (scanTurn fuel) fuel (scanStart uninit (resolveClass spec)) = some s ∧
      deliver malloc (flush s) out = r := by
  simp only [enumerateCharset, hres, hrlen, or_self, if_false] at h
  cases hloop : loop (scanTurn fuel) fuel (scanStart uninit (resolveClass spec)) with
  | none => simp [hloop] at h
  | some s =>
    simp only [hloop, Option.some.injEq] at h
    exact ⟨s,rfl,h⟩

/-- The only answer a call can have, whatever the fuel. -/
theorem enumerateCharset_eq_some {fuel : ℕ} {malloc : ℕ → Bool} {uninit : ℕ → UInt8} {spec : CStr}
    {out : CharsetOut} {r : ℤ × CharsetOut} (hres : out.res ≠ none) (hrlen : out.rlen ≠ none)
    (h : enumerateCharset fuel malloc uninit (some spec) out = some r) :
    r = verdict malloc (expansion (resolveClass spec)) out ∧ (resolveClass spec).any isspace = false := by
  obtain ⟨s,hloop,hdeliver⟩ := enumerateCharset_scan hres hrlen h
  obtain ⟨hflush,hspaces⟩ := scanLoop_flush (nul_notMem_resolveClass spec) hloop
  exact ⟨hdeliver.symm.trans (deliver_eq_verdict hflush),hspaces⟩

theorem verdict_eq_zero {malloc : ℕ → Bool} {e : List UInt8} {out out' : CharsetOut}
    (h : verdict malloc e out = (0,out')) : e.length ≤ 94 ∧ out'.rlen = some (untilNul e).length ∧
      out'.res = some (some ⟨(untilNul e).length,untilNul e ++ [0]⟩) := by
  unfold verdict at h
  by_cases hlen : e.length ≤ 94
  · simp only [if_pos hlen] at h
    split at h
    · cases h
      exact ⟨hlen,rfl,rfl⟩
    · simp at h
  · simp [if_neg hlen] at h

theorem out_of_accepted {fuel : ℕ} {malloc : ℕ → Bool} {uninit : ℕ → UInt8} {spec : CStr}
    {out out' : CharsetOut} (h : enumerateCharset fuel malloc uninit (some spec) out = some (0,out')) :
    out.res ≠ none ∧ out.rlen ≠ none := by
  apply not_or.mp
  intro hnull
  simp [enumerateCharset, hnull] at h

/-- An accepted spec delivers its expansion, up to the first NUL in it. -/
theorem enumerateCharset_accepted {fuel : ℕ} {malloc : ℕ → Bool} {uninit : ℕ → UInt8} {spec : CStr}
    {out out' : CharsetOut} (h : enumerateCharset fuel malloc uninit (some spec) out = some (0,out')) :
    (expansion (resolveClass spec)).length ≤ 94 ∧ (resolveClass spec).any isspace = false ∧
    out'.rlen = some (untilNul (expansion (resolveClass spec))).length ∧
    out'.res = some (some ⟨(untilNul (expansion (resolveClass spec))).length,
      untilNul (expansion (resolveClass spec)) ++ [0]⟩) := by
  obtain ⟨hres,hrlen⟩ := out_of_accepted h
  obtain ⟨hverdict,hspaces⟩ := enumerateCharset_eq_some hres hrlen h
  obtain ⟨hlen,hheld,hblock⟩ := verdict_eq_zero hverdict.symm
  exact ⟨hlen,hspaces,hheld,hblock⟩

end Padre
