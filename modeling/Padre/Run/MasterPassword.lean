import Padre.Run.KeyFree
import Padre.Run.Prompt

/-! # How long the master password lives

The array `master_pwd` is seen through the events that write to it: a key that is stored
and a zero. Only the prompt stores keys, and every way out of `main` behind it but one
leads over the `memset`.
-/
namespace Padre
open CString Trace

/-- Every place a key was stored at is overwritten with zero later on. -/
def Cleared (trace : List Event) : Prop :=
  ∀ before i c after, trace = before ++ .key i c :: after → .zero i ∈ after

/-- The process ends by its own doing: `main` returns or something in it calls `exit`. -/
def Exits (run : Run Event ℕ) : Prop :=
  ∃ status, run.result = .ok status ∨ run.result = .error (.exits status)

/-- Nothing of the master password is left in `master_pwd` when the process exits. -/
def ClearsBeforeExit (run : Run Event ℕ) : Prop := Exits run → Cleared run.trace

theorem cleared_of_keyFree {trace : List Event} (h : ∀ e ∈ trace, e.isKey = false) : Cleared trace := by
  rintro before i c after rfl
  have hkey := h (.key i c) (by simp)
  cases hkey

/-- What is performed before the first key does not count. -/
theorem cleared_append_left {before trace : List Event} (h : ∀ e ∈ before, e.isKey = false) :
    Cleared (before ++ trace) ↔ Cleared trace := by
  constructor
  · rintro hc front i c after rfl
    exact hc (before ++ front) i c after (by simp)
  · intro hc front i c after heq
    rcases List.append_eq_append_iff.mp heq with ⟨mid,rfl,hmid⟩ | ⟨mid,rfl,hmid⟩
    · exact hc mid i c after hmid
    · cases mid with
      | nil => exact hc [] i c after hmid.symm
      | cons e mid =>
        rw [List.cons_append, List.cons.injEq] at hmid
        have hkey := h e (by simp)
        rw [← hmid.1] at hkey
        cases hkey

theorem cleared_append_right {stored after : List Event} (h : ∀ e ∈ after, e.isKey = false)
    (hzero : ∀ i c, .key i c ∈ stored → .zero i ∈ after) : Cleared (stored ++ after) := by
  intro front i c back heq
  rcases List.append_eq_append_iff.mp heq with ⟨mid,rfl,hmid⟩ | ⟨mid,rfl,hmid⟩
  · have hkey := h (.key i c) (by simp [hmid])
    cases hkey
  · cases mid with
    | nil =>
      rw [List.nil_append] at hmid
      have hkey := h (.key i c) (by simp [← hmid])
      cases hkey
    | cons e mid =>
      rw [List.cons_append, List.cons.injEq] at hmid
      rw [hmid.2]
      exact List.mem_append_right _ (hzero i c (by simp [hmid.1]))

/-- The keys left to be typed when `main` asks for the master password, if it gets there. -/
def promptKeys (w : World) (fuel : ℕ) (argv : List ArgpEvent) : Option (ℕ → ℤ) :=
  match (mainAccount w fuel argv).result with
  | .error _ => none
  | .ok (account,used) =>
    if account.domain = none ∨ w.malloc .password (account.length + 1) = false then none
    else some fun k => w.curses.getch (used + k)

/-- The input ends behind at least one stored key, before a newline. -/
def EndsBehindKeys (keys : ℕ → ℤ) : Prop :=
  ∃ n, 0 < n ∧ n ≤ MAX_MASTER_PASSWORD_LENGTH ∧ keys n = EOF ∧
    ∀ j < n, keys j ≠ EOF ∧ keys j ≠ KEY_ENTER

theorem endsBehindKeys_iff (keys : ℕ → ℤ) :
    EndsBehindKeys keys ↔ 0 < promptLen keys ∧ keys (promptLen keys) = EOF := by
  constructor
  · rintro ⟨n,hpos,hle,hend,hplain⟩
    rw [promptLen, storedKeys_eq hle hplain (Or.inl hend)]
    exact ⟨hpos,hend⟩
  · rintro ⟨hpos,hend⟩
    refine ⟨_,hpos,storedKeys_le _ _ _,hend,?_⟩
    intro j hj
    exact stored_plain hj

/-- Between the two comments there is no exit, and the whole array is zero behind them. -/
theorem deriveAndClear_cases (w : World) (account : Account (Option CStr)) (asked : Asked) :
    (deriveAndClear w account asked).result = .error .undefined ∨
    ∃ derived, (deriveAndClear w account asked).result = .ok derived ∧
      ∀ i < MAX_MASTER_PASSWORD_LENGTH, .zero i ∈ (deriveAndClear w account asked).trace := by
  unfold deriveAndClear
  cases account.domain.bind id with
  | none => exact Or.inl rfl
  | some domain =>
    cases account.username.bind id with
    | none => exact Or.inl rfl
    | some username =>
      cases account.iteration.bind id with
      | none => exact Or.inl rfl
      | some iteration =>
        refine Or.inr ⟨_,rfl,?_⟩
        intro i hi
        simp [hi]

theorem afterPrompt_zero {w : World} {fuel : ℕ} {account : Account (Option CStr)} {asked : Asked}
    (h : Exits (afterPrompt w fuel account asked)) {i : ℕ} (hi : i < MAX_MASTER_PASSWORD_LENGTH) :
    .zero i ∈ (afterPrompt w fuel account asked).trace := by
  rcases deriveAndClear_cases w account asked with hu | ⟨derived,-,hzero⟩
  · obtain ⟨status,hs⟩ := h
    rw [afterPrompt, Run.bind_of_error hu] at hs
    simp at hs
  · exact Run.mem_trace_bind (hzero i hi)

/-- `main` from the prompt on clears what it stored, unless the input ended behind a key. -/
theorem mainWith_clears_iff (w : World) (fuel : ℕ) {account : Account (Option CStr)} (keys : ℕ → ℤ)
    (hdomain : account.domain ≠ none) (hmalloc : w.malloc .password (account.length + 1) = true) :
    ClearsBeforeExit (mainWith w fuel account keys) ↔ ¬ EndsBehindKeys keys := by
  rw [endsBehindKeys_iff]
  by_cases hend : keys (promptLen keys) = EOF
  · rw [mainWith_eof fuel hdomain hmalloc hend]
    constructor
    · rintro hclears ⟨hpos,-⟩
      have hcleared := hclears ⟨_,Or.inl rfl⟩
      obtain ⟨n,hn⟩ := Nat.exists_eq_succ_of_ne_zero hpos.ne'
      -- the first key stays where it is
      have hzero := hcleared [] 0 (charOf (keys 0)) _ (by rw [hn, keyEvents, List.range'_succ]; rfl)
      simp at hzero
    · intro hnot hexits
      have hn : promptLen keys = 0 := by
        by_contra hne
        exact hnot ⟨Nat.pos_of_ne_zero hne,hend⟩
      apply cleared_of_keyFree
      intro e he
      rw [hn] at he
      simp [keyEvents] at he
      rcases he with rfl | rfl <;> rfl
  · refine iff_of_true ?_ fun h => hend h.2
    intro hexits
    obtain ⟨asked,-,hrun⟩ := mainWith_typed fuel hdomain hmalloc hend
    rw [hrun] at hexits ⊢
    apply cleared_append_right
    · intro e he
      rcases List.mem_cons.mp he with rfl | he
      · rfl
      · exact keyFree_afterPrompt w fuel account asked e he
    · intro i c hkey
      have hlt := mem_keyEvents hkey
      rw [Nat.zero_add] at hlt
      exact List.mem_cons_of_mem _ (afterPrompt_zero hexits (hlt.trans_le (storedKeys_le _ _ _)))

theorem mainWith_of_no_prompt {w : World} {account : Account (Option CStr)} (fuel : ℕ) (keys : ℕ → ℤ)
    (h : account.domain = none ∨ w.malloc .password (account.length + 1) = false) :
    KeyFree (mainWith w fuel account keys) := by
  unfold mainWith
  split
  · exact .pure _
  · rename_i hdomain
    rw [if_pos (h.resolve_left hdomain)]
    exact .bind (.emit rfl) fun _ _ => .pure _

/-- The master password is cleared before every exit, exactly unless the prompt is reached
and the input ends behind at least one key. -/
theorem main_clears_iff (w : World) (fuel : ℕ) (argv : List ArgpEvent) :
    ClearsBeforeExit (main w fuel argv) ↔
      ∀ keys, promptKeys w fuel argv = some keys → ¬ EndsBehindKeys keys := by
  unfold promptKeys main
  cases hacc : (mainAccount w fuel argv).result with
  | error e =>
    rw [Run.bind_of_error hacc]
    exact iff_of_true (fun _ => cleared_of_keyFree (keyFree_mainAccount w fuel argv))
      fun keys h => by cases h
  | ok determined =>
    obtain ⟨account,used⟩ := determined
    rw [Run.bind_of_ok hacc]
    -- what `main` does in front of the prompt stores no key
    have hclears (run : Run Event ℕ) :
        ClearsBeforeExit ⟨(mainAccount w fuel argv).trace ++ run.trace,run.result⟩ ↔ ClearsBeforeExit run :=
      imp_congr Iff.rfl (cleared_append_left (keyFree_mainAccount w fuel argv))
    rw [hclears]
    by_cases h : account.domain = none ∨ w.malloc .password (account.length + 1) = false
    · simp only [if_pos h]
      exact iff_of_true (fun _ => cleared_of_keyFree (mainWith_of_no_prompt fuel _ h))
        fun keys hkeys => by cases hkeys
    · rw [not_or, Bool.not_eq_false] at h
      have hprompt : ¬ (account.domain = none ∨ w.malloc .password (account.length + 1) = false) := by
        simp [h]
      rw [mainWith_clears_iff w fuel _ h.1 h.2]
      simp only [if_neg hprompt, Option.some.injEq, forall_eq']

/-- One key and the end of the input: the key is still in `master_pwd` when `main` returns. -/
theorem main_keeps_key :
    ¬ ∀ (w : World) (fuel : ℕ) (argv : List ArgpEvent), ClearsBeforeExit (main w fuel argv) := by
  intro h
  let argv : List ArgpEvent := [.keyArg (CStr.upto (literal "a")),.keyArg (CStr.upto (literal "b"))]
  have hcleared := h (plainWorld [120] [] 0) 1 argv ⟨EXIT_FAILURE,Or.inl (by decide)⟩
  have hzero := hcleared
    [.determineAccount ⟨some (CStr.upto (literal "a")),some (CStr.upto (literal "b")),none,none,0⟩] 0 120
    [.zero 1,.perror "Error reading the master password from the standard input"] (by decide)
  exact absurd hzero (by decide)

end Padre
