import Padre.General.Outcome
import Padre.Run.Phases

/-! # Where a run writes

The places of `master_pwd` a run of `main` writes to. The keys and the `memset` stay inside the
array in every run. The terminator of the prompt does so unless the whole array has been typed.
-/
namespace Padre
open CString Trace

/-- Every write to `master_pwd` is inside the array. -/
abbrev Inside {α : Type} (x : Run Event α) : Prop :=
  x.Emits fun e => ∀ i, e.place = some i → i < MAX_MASTER_PASSWORD_LENGTH

section Account
variable {w : World} {fuel : ℕ} {account : Account (Option CStr)} {keys : ℕ → ℤ}

theorem inside_printPassword (password : List UInt8) : Inside (printPassword w fuel account password) := by
  refine .bind ?_ fun spec _ => .bind (.ofFuel _) fun r _ => .bind (.emits ?_) fun _ _ => ?_
  · unfold charsetSpec
    split
    · exact .pure _
    · exact .stop _
    · exact .pure _
  · intro e he
    obtain ⟨text,-,rfl⟩ := List.mem_map.mp he
    rintro _ ⟨⟩
  · split
    · exact .bind (.emit (by rintro _ ⟨⟩)) fun _ _ => .pure _
    · exact .bind (.deref _) fun _ _ => .bind (.deref _) fun _ _ => .bind (.deref _) fun _ _ =>
        .bind (.deref _) fun _ _ => .bind (.emit (by rintro _ ⟨⟩)) fun _ _ => .pure _

/-- The `memset` ends with the array. -/
theorem inside_deriveAndClear (asked : Asked) : Inside (deriveAndClear w account asked) := by
  refine .bind (.deref _) fun domain _ => .bind (.deref _) fun username _ =>
    .bind (.deref _) fun iteration _ => .bind (.emits ?_) fun _ _ => .bind (.emits ?_) fun _ _ => .pure _
  · intro e he
    obtain ⟨text,-,rfl⟩ := List.mem_map.mp he
    rintro _ ⟨⟩
  · intro e he
    obtain ⟨j,hj,rfl⟩ := List.mem_map.mp he
    rintro _ ⟨rfl⟩
    exact List.mem_range.mp hj

theorem inside_afterPrompt (asked : Asked) : Inside (afterPrompt w fuel account asked) := by
  refine .bind (inside_deriveAndClear asked) fun derived _ => ?_
  split
  · exact .bind (.emit (by rintro _ ⟨⟩)) fun _ _ => .pure _
  · exact inside_printPassword _

/-- The prompt and what follows it. -/
theorem inside_prompt_iff {rest : List Event}
    (hrest : ∀ e ∈ rest, ∀ i, e.place = some i → i < MAX_MASTER_PASSWORD_LENGTH) :
    (∀ e ∈ keyEvents keys 0 (promptLen keys) ++ (.zero (promptLen keys) :: rest), ∀ i, e.place = some i →
      i < MAX_MASTER_PASSWORD_LENGTH) ↔ promptLen keys < MAX_MASTER_PASSWORD_LENGTH := by
  constructor
  · intro h
    exact h (.zero (promptLen keys)) (by simp) _ rfl
  · intro hlt e he i hi
    rcases List.mem_append.mp he with he | he
    · obtain ⟨j,hj,rfl⟩ := List.mem_map.mp he
      have hlast := (List.mem_range'_1.mp hj).2
      cases hi
      omega
    · rcases List.mem_cons.mp he with rfl | he
      · cases hi
        exact hlt
      · exact hrest e he i hi

theorem inside_mainWith_iff :
    Inside (mainWith w fuel account keys) ↔
      (account.domain ≠ none → w.malloc .password (account.length + 1) = true →
        promptLen keys < MAX_MASTER_PASSWORD_LENGTH) := by
  by_cases hdomain : account.domain = none
  · rw [mainWith, if_pos hdomain]
    exact iff_of_true (.pure _) fun h => absurd hdomain h
  · cases hmalloc : w.malloc .password (account.length + 1) with
    | false =>
      rw [mainWith, if_neg hdomain, if_pos hmalloc]
      exact iff_of_true (.bind (.emit (by rintro _ ⟨⟩)) fun _ _ => .pure _) fun _ h => by cases h
    | true =>
      rw [imp_iff_right hdomain, imp_iff_right rfl]
      by_cases hend : keys (promptLen keys) = EOF
      · rw [mainWith_eof fuel hdomain hmalloc hend]
        refine inside_prompt_iff ?_
        intro e he
        rw [List.mem_singleton.mp he]
        rintro _ ⟨⟩
      · obtain ⟨asked,-,hrun⟩ := mainWith_typed fuel hdomain hmalloc hend
        rw [hrun]
        exact inside_prompt_iff (inside_afterPrompt asked)

end Account

/-- No run writes outside of `master_pwd` exactly when every prompt it comes to is answered with a
newline or the end of the input before the array is full. -/
theorem main_inside_iff (w : World) (argv : List ArgpEvent) :
    (∀ fuel, ∀ e ∈ (main w fuel argv).trace, ∀ i, e.place = some i → i < MAX_MASTER_PASSWORD_LENGTH) ↔
      ∀ fuel account used, (mainAccount w fuel argv).result = .ok (account,used) → account.domain ≠ none →
        w.malloc .password (account.length + 1) = true →
        ∃ j < MAX_MASTER_PASSWORD_LENGTH, w.curses.getch (used + j) = EOF ∨ w.curses.getch (used + j) = KEY_ENTER := by
  have hshort (used : ℕ) :
      (∃ j < MAX_MASTER_PASSWORD_LENGTH, w.curses.getch (used + j) = EOF ∨ w.curses.getch (used + j) = KEY_ENTER) ↔
        (promptLen fun j => w.curses.getch (used + j)) < MAX_MASTER_PASSWORD_LENGTH := storedKeys_lt_iff.symm
  simp only [hshort]
  constructor
  · intro h fuel account used haccount
    have hinside : Inside (mainWith w fuel account fun j => w.curses.getch (used + j)) := fun e he =>
      h fuel e (Run.mem_bind_trace_iff.mpr (Or.inr ⟨(account,used),haccount,he⟩))
    exact inside_mainWith_iff.mp hinside
  · intro h fuel e he i hi
    rcases Run.mem_bind_trace_iff.mp he with he | ⟨⟨account,used⟩,haccount,he⟩
    · rw [(mainAccount_early w fuel argv e he).1] at hi
      cases hi
    · exact inside_mainWith_iff.mpr (h fuel account used haccount) e he i hi

end Padre
