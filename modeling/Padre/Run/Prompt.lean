import Mathlib.Data.List.Basic
import Padre.Model.Program

/-! # What the prompt reads

The prompt stores the keys up to the first newline or the end of the input, as far as
there is room, and then takes one more. Its run is given by the number of keys it stores.
-/
namespace Padre
open CString Trace

/-- The number of keys stored from key `cur` on with `room` places left. -/
def storedKeys (keys : ℕ → ℤ) (cur : ℕ) : (room : ℕ) → ℕ
  | 0 => 0
  | room + 1 =>
    if keys cur = EOF ∨ keys cur = KEY_ENTER then 0 else storedKeys keys (cur + 1) room + 1

/-- The bytes that `n` keys from key `cur` on are stored as. -/
def typed (keys : ℕ → ℤ) (cur n : ℕ) : List UInt8 := (List.range' cur n).map fun i => charOf (keys i)

@[simp] theorem length_typed (keys : ℕ → ℤ) (cur n : ℕ) : (typed keys cur n).length = n := by
  simp [typed]

def keyEvents (keys : ℕ → ℤ) (cur n : ℕ) : List Event :=
  (List.range' cur n).map fun i => .key i (charOf (keys i))

theorem mem_keyEvents {keys : ℕ → ℤ} {cur n i : ℕ} {c : UInt8} (h : .key i c ∈ keyEvents keys cur n) :
    i < cur + n := by
  obtain ⟨j,hj,heq⟩ := List.mem_map.mp h
  cases heq
  exact (List.mem_range'_1.mp hj).2

section Stored
variable {keys : ℕ → ℤ} {cur room : ℕ}

theorem storedKeys_le (keys : ℕ → ℤ) (cur room : ℕ) : storedKeys keys cur room ≤ room := by
  induction room generalizing cur with
  | zero => exact le_rfl
  | succ room ih =>
    have hnext := ih (cur + 1)
    unfold storedKeys
    split <;> omega

theorem storedKeys_plain {j : ℕ} (h : j < storedKeys keys cur room) :
    keys (cur + j) ≠ EOF ∧ keys (cur + j) ≠ KEY_ENTER := by
  induction room generalizing cur j with
  | zero => exact absurd h (Nat.not_lt_zero _)
  | succ room ih =>
    unfold storedKeys at h
    split at h
    · exact absurd h (Nat.not_lt_zero _)
    · rename_i hcur
      cases j with
      | zero => simpa only [Nat.add_zero, not_or] using hcur
      | succ j =>
        rw [Nat.add_comm j, ← Nat.add_assoc]
        exact ih (by omega)

/-- With room left, the key behind the stored ones is what ended the prompt. -/
theorem storedKeys_end (h : storedKeys keys cur room < room) :
    keys (cur + storedKeys keys cur room) = EOF ∨ keys (cur + storedKeys keys cur room) = KEY_ENTER := by
  induction room generalizing cur with
  | zero => exact absurd h (Nat.not_lt_zero _)
  | succ room ih =>
    unfold storedKeys at h ⊢
    split
    · assumption
    · rename_i hcur
      rw [if_neg hcur] at h
      rw [Nat.add_comm (storedKeys keys (cur + 1) room), ← Nat.add_assoc]
      exact ih (by omega)

theorem stored_plain {j : ℕ} (h : j < storedKeys keys 0 room) : keys j ≠ EOF ∧ keys j ≠ KEY_ENTER := by
  have hplain := storedKeys_plain h
  rwa [Nat.zero_add] at hplain

theorem stored_end (h : storedKeys keys 0 room < room) :
    keys (storedKeys keys 0 room) = EOF ∨ keys (storedKeys keys 0 room) = KEY_ENTER := by
  have hend := storedKeys_end h
  rwa [Nat.zero_add] at hend

/-- The prompt stores no key from the first one on that ends it. -/
theorem storedKeys_le_of_end {n : ℕ} (hend : keys n = EOF ∨ keys n = KEY_ENTER) :
    storedKeys keys 0 room ≤ n := by
  by_contra hlt
  have hplain := stored_plain (Nat.lt_of_not_le hlt)
  exact hend.elim hplain.1 hplain.2

theorem storedKeys_eq {n : ℕ} (hn : n ≤ room) (hplain : ∀ j < n, keys j ≠ EOF ∧ keys j ≠ KEY_ENTER)
    (hend : keys n = EOF ∨ keys n = KEY_ENTER) : storedKeys keys 0 room = n := by
  apply Nat.le_antisymm (storedKeys_le_of_end hend)
  by_contra hlt
  have hshort : storedKeys keys 0 room < room := by omega
  have hne := hplain _ (Nat.lt_of_not_le hlt)
  exact (stored_end hshort).elim hne.1 hne.2

end Stored

theorem askLoop_eq (keys : ℕ → ℤ) (done free : List UInt8) {room : ℕ} (hroom : room ≤ free.length) :
    askLoop keys (done ++ free) done.length room =
      ⟨keyEvents keys done.length (storedKeys keys done.length room),
        .ok (done ++ (typed keys done.length (storedKeys keys done.length room) ++
            free.drop (storedKeys keys done.length room)),
          done.length + storedKeys keys done.length room,
          keys (done.length + storedKeys keys done.length room))⟩ := by
  induction room generalizing done free with
  | zero => rfl
  | succ room ih =>
    unfold askLoop storedKeys
    by_cases hend : keys done.length = EOF ∨ keys done.length = KEY_ENTER
    · rw [if_pos hend, if_pos hend]
      rfl
    · cases free with
      | nil => simp at hroom
      | cons b free =>
        have hset : (done ++ b :: free).set done.length (charOf (keys done.length)) =
            (done ++ [charOf (keys done.length)]) ++ free := by
          simp
        have hnext := ih (done ++ [charOf (keys done.length)]) free (by simpa using hroom)
        simp only [List.length_append, List.length_cons, List.length_nil, Nat.zero_add] at hnext
        simp only [if_neg hend, Run.emit_bind, hset, hnext]
        simp [keyEvents, typed, List.range'_succ, Nat.add_assoc, Nat.add_comm 1]

theorem tuiAskPassword_eq (keys : ℕ → ℤ) {passwd : List UInt8} {len : ℕ} (hlen : len ≤ passwd.length) :
    tuiAskPassword keys passwd len =
      ⟨keyEvents keys 0 (storedKeys keys 0 len) ++ [.zero (storedKeys keys 0 len)],
        .ok ⟨if keys (storedKeys keys 0 len) = EOF then -1 else 0,
          (typed keys 0 (storedKeys keys 0 len) ++ passwd.drop (storedKeys keys 0 len)).set
            (storedKeys keys 0 len) 0,
          storedKeys keys 0 len⟩⟩ := by
  have hloop := askLoop_eq keys [] passwd hlen
  simp only [List.nil_append, List.length_nil, Nat.zero_add] at hloop
  unfold tuiAskPassword
  rw [hloop]
  rfl

/-- The number of keys the prompt of `main` stores. -/
abbrev promptLen (keys : ℕ → ℤ) : ℕ := storedKeys keys 0 MAX_MASTER_PASSWORD_LENGTH

theorem length_fresh (uninit : ℕ → UInt8) (off n : ℕ) : (fresh uninit off n).length = n := by
  simp [fresh]

section Main
variable {w : World} {account : Account (Option CStr)} (fuel : ℕ) {keys : ℕ → ℤ}

theorem mainWith_eof (hdomain : account.domain ≠ none)
    (hmalloc : w.malloc .password (account.length + 1) = true) (hend : keys (promptLen keys) = EOF) :
    mainWith w fuel account keys =
      ⟨keyEvents keys 0 (promptLen keys) ++ [.zero (promptLen keys),
        .perror "Error reading the master password from the standard input"],.ok EXIT_FAILURE⟩ := by
  have hasked := tuiAskPassword_eq keys
    (length_fresh (w.uninit .masterPwd) 0 MAX_MASTER_PASSWORD_LENGTH).ge
  simp only [mainWith, if_neg hdomain, hmalloc, Bool.true_eq_false, if_false, hasked]
  rw [Run.bind_of_ok rfl]
  simp [hend]

theorem mainWith_typed (hdomain : account.domain ≠ none)
    (hmalloc : w.malloc .password (account.length + 1) = true) (hend : keys (promptLen keys) ≠ EOF) :
    ∃ asked, asked.passwd.take asked.len = typed keys 0 (promptLen keys) ∧
      mainWith w fuel account keys = ⟨keyEvents keys 0 (promptLen keys) ++
        (.zero (promptLen keys) :: (afterPrompt w fuel account asked).trace),
        (afterPrompt w fuel account asked).result⟩ := by
  have hasked := tuiAskPassword_eq keys
    (length_fresh (w.uninit .masterPwd) 0 MAX_MASTER_PASSWORD_LENGTH).ge
  simp only [mainWith, if_neg hdomain, hmalloc, Bool.true_eq_false, if_false, hasked]
  rw [Run.bind_of_ok rfl]
  simp only [if_neg hend, ne_eq, not_true_eq_false, if_false, List.append_assoc]
  refine ⟨_,?_,rfl⟩
  rw [List.take_set_of_le le_rfl]
  exact List.take_left' (length_typed keys 0 _)

end Main

end Padre
