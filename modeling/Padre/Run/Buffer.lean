import Mathlib.Data.Nat.Log
import Padre.Run.SizeLimit

/-! # The buffer of a file

What `read_entire_file` returns is a function of the bytes of the file, however the reads cut
them: the bytes, and behind them what the allocation held. The capacity is the least doubling
of a chunk that leaves a chunk of room, and a file is refused when that exceeds the limit.
-/
namespace Padre
open CString Trace

/-- The capacities a buffer of `size` bytes may have. -/
def Roomy (size : ℕ) : Set ℕ := {c | ∃ j : ℕ, c = CHUNK_SIZE * 2 ^ j ∧ size + CHUNK_SIZE ≤ c}

/-- The least of them. -/
def capacityOf (size : ℕ) : ℕ := CHUNK_SIZE * 2 ^ Nat.clog 2 ((size + CHUNK_SIZE - 1) / CHUNK_SIZE + 1)

theorem mem_roomy_iff {size j : ℕ} :
    size + CHUNK_SIZE ≤ CHUNK_SIZE * 2 ^ j ↔ (size + CHUNK_SIZE - 1) / CHUNK_SIZE + 1 ≤ 2 ^ j := by
  unfold CHUNK_SIZE
  omega

theorem isLeast_capacityOf (size : ℕ) : IsLeast (Roomy size) (capacityOf size) := by
  constructor
  · exact ⟨_,rfl,mem_roomy_iff.mpr (Nat.le_pow_clog (by omega) _)⟩
  · rintro c ⟨j,rfl,hc⟩
    apply Nat.mul_le_mul_left
    apply Nat.pow_le_pow_right (by omega)
    exact Nat.clog_le_of_le_pow (mem_roomy_iff.mp hc)

/-- The bytes `got` in an object of the given capacity, whose rest has not been written. -/
def held (uninit : ℕ → UInt8) (got : List UInt8) (capacity : ℕ) : List UInt8 :=
  got ++ fresh uninit got.length (capacity - got.length)

theorem fresh_append (uninit : ℕ → UInt8) (off m n : ℕ) :
    fresh uninit off m ++ fresh uninit (off + m) n = fresh uninit off (m + n) := by
  rw [fresh, fresh, fresh, ← List.map_append, List.range'_append_1]

theorem drop_fresh (uninit : ℕ → UInt8) (off m n : ℕ) :
    (fresh uninit off n).drop m = fresh uninit (off + m) (n - m) := by
  rw [fresh, ← List.map_drop, List.drop_range', Nat.mul_one]
  rfl

/-- The loop in front of an `fread` when it has read `got`. -/
structure ReadsInto (uninit : ℕ → UInt8) (got : List UInt8) (s : ReadState) : Prop where
  data : s.data = held uninit got s.capacity
  size : s.size = got.length
  capacity : IsLeast (Roomy got.length) s.capacity
  limit : s.capacity ≤ MAX_DATABASE_FILE_SIZE

section Turn
variable {uninit : ℕ → UInt8} {got : List UInt8} {s t : ReadState} {chunk : Chunk}

theorem memcpy_held (bytes : List UInt8) (capacity : ℕ) :
    memcpy (held uninit got capacity) got.length bytes = held uninit (got ++ bytes) capacity := by
  have hdrop : (held uninit got capacity).drop (got.length + bytes.length) =
      fresh uninit (got.length + bytes.length) (capacity - (got.length + bytes.length)) := by
    rw [held, ← List.drop_drop, List.drop_left, drop_fresh, Nat.sub_sub]
  rw [memcpy, hdrop, held, List.take_left, held, List.length_append]

theorem reallocBytes_held {capacity capacity' : ℕ} (hle : got.length ≤ capacity) (hgrow : capacity ≤ capacity') :
    reallocBytes uninit (held uninit got capacity) capacity' = held uninit got capacity' := by
  have hlen : (held uninit got capacity).length = capacity := by
    simp only [held, fresh, List.length_append, List.length_map, List.length_range']
    omega
  have hsplit := fresh_append uninit got.length (capacity - got.length) (capacity' - capacity)
  rw [Nat.add_sub_cancel' hle] at hsplit
  rw [reallocBytes, hlen, held, held, List.append_assoc, hsplit]
  congr 2
  omega

/-- A capacity that has become too small is doubled to the least one that is not. -/
theorem isLeast_double {size size' c : ℕ} (h : IsLeast (Roomy size) c)
    (hnear : size' ≤ size + CHUNK_SIZE) (hfull : c < size' + CHUNK_SIZE) : IsLeast (Roomy size') (c * 2) := by
  obtain ⟨⟨j,rfl,hroom⟩,hleast⟩ := h
  have hchunk : CHUNK_SIZE ≤ CHUNK_SIZE * 2 ^ j := Nat.le_mul_of_pos_right _ (Nat.two_pow_pos j)
  constructor
  · exact ⟨j + 1,by rw [pow_succ, mul_assoc],by omega⟩
  · rintro c ⟨i,rfl,hc⟩
    have hlt : CHUNK_SIZE * 2 ^ j < CHUNK_SIZE * 2 ^ i := by omega
    have hexp : j < i := (Nat.pow_lt_pow_iff_right (by omega)).mp (Nat.lt_of_mul_lt_mul_left hlt)
    rw [mul_assoc, ← pow_succ]
    exact Nat.mul_le_mul_left _ (Nat.pow_le_pow_right (by omega) hexp)

theorem isLeast_keep {size size' c : ℕ} (h : IsLeast (Roomy size) c) (hle : size ≤ size')
    (hroom : size' + CHUNK_SIZE ≤ c) : IsLeast (Roomy size') c := by
  obtain ⟨⟨j,hj,-⟩,hleast⟩ := h
  refine ⟨⟨j,hj,hroom⟩,?_⟩
  rintro c' ⟨i,hi,hc⟩
  exact hleast ⟨i,hi,by omega⟩

theorem ReadsInto.turn (h : ReadsInto uninit got s) (hturn : readTurn uninit s chunk = some t) :
    ReadsInto uninit (got ++ chunk.bytes) t := by
  have hchunk := chunk.length_le
  obtain ⟨j,-,hroom⟩ := h.capacity.1
  unfold readTurn at hturn
  rw [h.data, h.size, memcpy_held] at hturn
  by_cases hfull : got.length + chunk.bytes.length + CHUNK_SIZE > s.capacity
  · simp only [if_pos hfull] at hturn
    split at hturn
    · cases hturn
    · rename_i hlimit
      cases hturn
      rw [reallocBytes_held (by rw [List.length_append]; omega) (by omega)]
      refine ⟨rfl,by rw [List.length_append],?_,not_lt.mp hlimit⟩
      rw [List.length_append]
      exact isLeast_double h.capacity (by omega) hfull
  · simp only [if_neg hfull, Option.some.injEq] at hturn
    rw [← hturn]
    refine ⟨rfl,by rw [List.length_append],?_,h.limit⟩
    rw [List.length_append]
    exact isLeast_keep h.capacity (Nat.le_add_right _ _) (Nat.not_lt.mp hfull)

/-- A refused chunk would have needed a capacity above the limit. -/
theorem ReadsInto.refused (h : ReadsInto uninit got s) (hturn : readTurn uninit s chunk = none) :
    MAX_DATABASE_FILE_SIZE < capacityOf (got ++ chunk.bytes).length := by
  have hchunk := chunk.length_le
  unfold readTurn at hturn
  rw [h.size] at hturn
  by_cases hfull : got.length + chunk.bytes.length + CHUNK_SIZE > s.capacity
  · simp only [if_pos hfull] at hturn
    split at hturn
    · rename_i hlimit
      have hdouble := isLeast_double h.capacity (by omega) hfull
      rw [List.length_append, (isLeast_capacityOf _).unique hdouble]
      exact hlimit
    · cases hturn
  · simp only [if_neg hfull] at hturn
    cases hturn

theorem capacityOf_mono {m n : ℕ} (h : m ≤ n) : capacityOf m ≤ capacityOf n := by
  obtain ⟨j,hj,hroom⟩ := (isLeast_capacityOf n).1
  exact (isLeast_capacityOf m).2 ⟨j,hj,by omega⟩

/-- The buffer of a file with the bytes `text`, unless it is refused. -/
def bufferOf (uninit : ℕ → UInt8) (text : List UInt8) : Buffer :=
  ⟨some (held uninit text (capacityOf text.length)),text.length,capacityOf text.length⟩

theorem readLoop_exact (h : ReadsInto uninit got s) (chunks : List Chunk) :
    (capacityOf (got ++ delivered chunks).length ≤ MAX_DATABASE_FILE_SIZE →
      readLoop uninit s.data s.size s.capacity chunks = pure (bufferOf uninit (got ++ delivered chunks))) ∧
    (MAX_DATABASE_FILE_SIZE < capacityOf (got ++ delivered chunks).length →
      ∃ size capacity, readLoop uninit s.data s.size s.capacity chunks =
        ⟨[.stderr "Error: database file exceeds size limit\n"],.ok ⟨none,size,capacity⟩⟩) := by
  have hdone : capacityOf got.length = s.capacity := (isLeast_capacityOf _).unique h.capacity
  have hend : (⟨some s.data,s.size,s.capacity⟩ : Buffer) = bufferOf uninit got := by
    rw [bufferOf, hdone, h.data, h.size]
  induction chunks generalizing got s with
  | nil =>
    rw [delivered, List.append_nil, hdone]
    refine ⟨fun _ => by rw [readLoop, hend],fun hlarge => absurd h.limit (by omega)⟩
  | cons chunk chunks ih =>
    by_cases hempty : chunk.bytes = []
    · rw [delivered, if_pos hempty, List.append_nil, hdone, readLoop, if_pos hempty, hend]
      exact ⟨fun _ => rfl,fun hlarge => absurd h.limit (by omega)⟩
    · rw [readLoop_turn uninit s hempty, delivered, if_neg hempty, ← List.append_assoc]
      cases hturn : readTurn uninit s chunk with
      | none =>
        have hlarge := h.refused hturn
        have hmono : capacityOf (got ++ chunk.bytes).length ≤
            capacityOf (got ++ chunk.bytes ++ delivered chunks).length := capacityOf_mono (by simp)
        exact ⟨fun hle => absurd hle (by omega),fun _ => ⟨_,_,rfl⟩⟩
      | some t =>
        have hnext := h.turn hturn
        have hcapacity := (isLeast_capacityOf _).unique hnext.capacity
        exact ih hnext hcapacity (by rw [bufferOf, hcapacity, hnext.data, hnext.size])

end Turn

theorem capacityOf_le_iff (size : ℕ) :
    capacityOf size ≤ MAX_DATABASE_FILE_SIZE ↔ size + CHUNK_SIZE ≤ MAX_DATABASE_FILE_SIZE := by
  obtain ⟨⟨j,-,hroom⟩,hleast⟩ := isLeast_capacityOf size
  constructor
  · intro hle
    exact hroom.trans hle
  · intro hle
    exact hleast ⟨4,rfl,hle⟩

section File
variable {w : World} {path : CStr} {chunks : List Chunk}

theorem readsInto_start (w : World) : ReadsInto (w.uninit .database) [] (readStart w) where
  data := rfl
  size := rfl
  capacity := isLeast_capacityOf 0
  limit := show CHUNK_SIZE ≤ MAX_DATABASE_FILE_SIZE by decide

theorem readEntireFile_buffer (hopen : openStream w path = some chunks)
    (hfits : (delivered chunks).length + CHUNK_SIZE ≤ MAX_DATABASE_FILE_SIZE) :
    readEntireFile w (some path) = pure (bufferOf (w.uninit .database) (delivered chunks)) := by
  rw [readEntireFile_eq hopen]
  exact (readLoop_exact (readsInto_start w) chunks).1 ((capacityOf_le_iff _).mpr hfits)

theorem readEntireFile_large (hopen : openStream w path = some chunks)
    (hlarge : MAX_DATABASE_FILE_SIZE < (delivered chunks).length + CHUNK_SIZE) :
    ∃ size capacity, readEntireFile w (some path) =
      ⟨[.stderr "Error: database file exceeds size limit\n"],.ok ⟨none,size,capacity⟩⟩ := by
  rw [readEntireFile_eq hopen]
  refine (readLoop_exact (readsInto_start w) chunks).2 ?_
  rw [List.nil_append, ← Nat.not_le, capacityOf_le_iff]
  exact Nat.not_le.mpr hlarge

/-- The reads that deliver a file have no part in what is returned. -/
theorem readEntireFile_exact (hopen : openStream w path = some chunks) :
    ((delivered chunks).length + CHUNK_SIZE ≤ MAX_DATABASE_FILE_SIZE →
      ∃ capacity, IsLeast {c | ∃ j : ℕ, c = CHUNK_SIZE * 2 ^ j ∧ (delivered chunks).length + CHUNK_SIZE ≤ c}
          capacity ∧
        readEntireFile w (some path) = pure
          ⟨some (delivered chunks ++
              fresh (w.uninit .database) (delivered chunks).length (capacity - (delivered chunks).length)),
            (delivered chunks).length,capacity⟩) ∧
    (MAX_DATABASE_FILE_SIZE < (delivered chunks).length + CHUNK_SIZE →
      ∃ size capacity, readEntireFile w (some path) =
        ⟨[.stderr "Error: database file exceeds size limit\n"],.ok ⟨none,size,capacity⟩⟩) := by
  constructor
  · intro hfits
    exact ⟨capacityOf (delivered chunks).length,isLeast_capacityOf _,readEntireFile_buffer hopen hfits⟩
  · exact readEntireFile_large hopen

end File

theorem readEntireFile_exact_short :
    ((literal "a,b,0,8,c\n").length + CHUNK_SIZE ≤ MAX_DATABASE_FILE_SIZE →
      ∃ capacity, IsLeast {c | ∃ j : ℕ, c = CHUNK_SIZE * 2 ^ j ∧ (literal "a,b,0,8,c\n").length + CHUNK_SIZE ≤ c}
          capacity ∧
        readEntireFile (fileWorld [⟨literal "a,b,0",by decide⟩,⟨literal ",8,c\n",by decide⟩])
            (some (CStr.upto (literal "f"))) = pure
          ⟨some (literal "a,b,0,8,c\n" ++ fresh (fun _ => 7) 10 (capacity - 10)),10,capacity⟩) ∧
    (MAX_DATABASE_FILE_SIZE < (literal "a,b,0,8,c\n").length + CHUNK_SIZE →
      ∃ size capacity, readEntireFile (fileWorld [⟨literal "a,b,0",by decide⟩,⟨literal ",8,c\n",by decide⟩])
          (some (CStr.upto (literal "f"))) =
        ⟨[.stderr "Error: database file exceeds size limit\n"],.ok ⟨none,size,capacity⟩⟩) :=
  readEntireFile_exact (openStream_fileWorld [⟨literal "a,b,0",by decide⟩,⟨literal ",8,c\n",by decide⟩])

end Padre
