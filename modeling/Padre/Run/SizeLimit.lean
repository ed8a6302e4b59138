import Padre.Run.DatabaseFile

/-! # The size limit

`read_entire_file` compares the limit with the doubled capacity and not with the size. The
capacities it goes through divide the limit, so that a file is refused as soon as a chunk no
longer fits below the limit, whatever the reads that deliver it.
-/
namespace Padre
open CString Trace

section Limit
variable {got : List UInt8} {capacity : ℕ}

/-- The capacities the loop can reach without exceeding the limit. -/
def LimitDivisor (capacity : ℕ) : Prop := ∃ j : ℕ, MAX_DATABASE_FILE_SIZE = capacity * 2 ^ j

theorem LimitDivisor.le (h : LimitDivisor capacity) : capacity ≤ MAX_DATABASE_FILE_SIZE := by
  obtain ⟨j,hj⟩ := h
  rw [hj]
  exact Nat.le_mul_of_pos_right _ (Nat.two_pow_pos j)

/-- A doubled capacity is another divisor unless the capacity was the limit itself. -/
theorem LimitDivisor.double (h : LimitDivisor capacity) :
    capacity = MAX_DATABASE_FILE_SIZE ∨ LimitDivisor (capacity * 2) := by
  obtain ⟨j,hj⟩ := h
  cases j with
  | zero =>
    left
    rw [hj, pow_zero, mul_one]
  | succ j =>
    right
    exact ⟨j,by rw [hj, pow_succ', mul_assoc]⟩

theorem readTurn_limit (uninit : ℕ → UInt8) {s : ReadState} (chunk : Chunk) (h : LimitDivisor s.capacity) :
    (readTurn uninit s chunk = none →
      MAX_DATABASE_FILE_SIZE < s.size + chunk.bytes.length + CHUNK_SIZE) ∧
    ∀ t, readTurn uninit s chunk = some t → LimitDivisor t.capacity := by
  unfold readTurn
  by_cases hfull : s.size + chunk.bytes.length + CHUNK_SIZE > s.capacity
  · simp only [if_pos hfull]
    rcases h.double with hmax | hnext
    · have hlimit : s.capacity * 2 > MAX_DATABASE_FILE_SIZE := by
        rw [hmax]
        decide
      rw [if_pos hlimit]
      exact ⟨fun _ => hmax ▸ hfull,fun t ht => (by cases ht)⟩
    · rw [if_neg (Nat.not_lt.mpr hnext.le)]
      refine ⟨fun hnone => (by cases hnone),?_⟩
      intro t ht
      cases ht
      exact hnext
  · simp only [if_neg hfull]
    refine ⟨fun hnone => (by cases hnone),?_⟩
    intro t ht
    cases ht
    exact h

/-- The loop ends, and with a buffer exactly for what leaves a chunk of room below the limit. -/
theorem readLoop_limit {uninit : ℕ → UInt8} {chunks : List Chunk} {s : ReadState}
    (h : Collects got s.data s.size s.capacity) (hcap : LimitDivisor s.capacity) :
    ∃ buf, (readLoop uninit s.data s.size s.capacity chunks).result = .ok buf ∧
      (buf.data ≠ none ↔ (got ++ delivered chunks).length + CHUNK_SIZE ≤ MAX_DATABASE_FILE_SIZE) := by
  have hroom : got.length + CHUNK_SIZE ≤ MAX_DATABASE_FILE_SIZE := by
    rw [← h.size_eq]
    exact h.window.trans hcap.le
  induction chunks generalizing got s with
  | nil => exact ⟨_,rfl,iff_of_true (Option.some_ne_none _) (by simpa [delivered] using hroom)⟩
  | cons chunk chunks ih =>
    by_cases hempty : chunk.bytes = []
    · rw [readLoop, if_pos hempty, delivered, if_pos hempty, List.append_nil]
      exact ⟨_,rfl,iff_of_true (Option.some_ne_none _) hroom⟩
    · rw [readLoop_turn uninit s hempty, delivered, if_neg hempty, ← List.append_assoc]
      obtain ⟨hrefused,hkept⟩ := readTurn_limit uninit chunk hcap
      cases hturn : readTurn uninit s chunk with
      | none =>
        have hlt := hrefused hturn
        refine ⟨_,rfl,iff_of_false (fun hne => hne rfl) ?_⟩
        rw [List.length_append, List.length_append, ← h.size_eq]
        omega
      | some t =>
        have hnext := h.turn hturn
        have hle := hnext.window.trans (hkept t hturn).le
        rw [hnext.size_eq] at hle
        exact ih hnext (hkept t hturn) hle

end Limit

section File
variable {w : World} {path : CStr} {chunks : List Chunk}

theorem readEntireFile_limit (hopen : openStream w path = some chunks) :
    ∃ buf, (readEntireFile w (some path)).result = .ok buf ∧
      (buf.data ≠ none ↔ (delivered chunks).length + CHUNK_SIZE ≤ MAX_DATABASE_FILE_SIZE) := by
  rw [readEntireFile_eq hopen]
  exact readLoop_limit (collects_start w) ⟨4,rfl⟩

/-- The limit of the buffer is the limit of the file for the sizes up to a chunk below it and
for those above it. -/
theorem readEntireFile_limit_iff (hopen : openStream w path = some chunks) :
    ∃ buf, (readEntireFile w (some path)).result = .ok buf ∧
      ((buf.data ≠ none ↔ (delivered chunks).length ≤ MAX_DATABASE_FILE_SIZE) ↔
        (delivered chunks).length ≤ MAX_DATABASE_FILE_SIZE - CHUNK_SIZE ∨
          MAX_DATABASE_FILE_SIZE < (delivered chunks).length) := by
  obtain ⟨buf,hrun,hdata⟩ := readEntireFile_limit hopen
  refine ⟨buf,hrun,?_⟩
  rw [hdata]
  unfold MAX_DATABASE_FILE_SIZE CHUNK_SIZE
  omega

end File

theorem readEntireFile_limit_iff_short :
    ∃ buf, (readEntireFile (fileWorld [⟨literal "a,b,0,8,c\n",by decide⟩])
        (some (CStr.upto (literal "f")))).result = .ok buf ∧
      ((buf.data ≠ none ↔ (literal "a,b,0,8,c\n").length ≤ MAX_DATABASE_FILE_SIZE) ↔
        (literal "a,b,0,8,c\n").length ≤ MAX_DATABASE_FILE_SIZE - CHUNK_SIZE ∨
          MAX_DATABASE_FILE_SIZE < (literal "a,b,0,8,c\n").length) :=
  readEntireFile_limit_iff (openStream_fileWorld [⟨literal "a,b,0,8,c\n",by decide⟩])

theorem delivered_replicate (chunk : Chunk) (h : chunk.bytes ≠ []) (n : ℕ) :
    (delivered (List.replicate n chunk)).length = n * chunk.bytes.length := by
  induction n with
  | zero => simp [delivered]
  | succ n ih =>
    rw [List.replicate_succ, delivered, if_neg h, List.length_append, ih, Nat.succ_mul, Nat.add_comm]

/-- A file of 15 · 1024 + 1 bytes, far below the limit, is refused. -/
theorem readEntireFile_refuses :
    ¬ ∀ (w : World) (path : CStr) (chunks : List Chunk), openStream w path = some chunks →
      ∃ buf, (readEntireFile w (some path)).result = .ok buf ∧
        (buf.data ≠ none ↔ (delivered chunks).length ≤ MAX_DATABASE_FILE_SIZE) := by
  intro h
  have hopen := openStream_fileWorld (List.replicate 15361 ⟨[65],by decide⟩)
  have hlen := delivered_replicate ⟨[65],by decide⟩ (by simp) 15361
  obtain ⟨buf,hrun,hclaim⟩ := h _ _ _ hopen
  obtain ⟨buf',hrun',hlimit⟩ := readEntireFile_limit hopen
  obtain rfl := Except.ok.inj (hrun.symm.trans hrun')
  rw [hlimit, hlen] at hclaim
  unfold MAX_DATABASE_FILE_SIZE CHUNK_SIZE at hclaim
  simp at hclaim

end Padre
