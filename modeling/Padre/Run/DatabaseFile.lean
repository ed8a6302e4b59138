import Mathlib.Data.List.Basic
import Padre.Model.Program

/-! # Reading a file

`read_entire_file` collects what `fread` delivers in a growing object. The first `size`
bytes of the object are what has been read so far, and there is always room for one more
chunk behind them: a single doubling is enough for that.
-/
namespace Padre
open CString Trace

/-- What a sequence of reads delivers up to the first empty one. -/
def delivered : List Chunk → List UInt8
  | [] => []
  | chunk :: chunks => if chunk.bytes = [] then [] else chunk.bytes ++ delivered chunks

/-- The object holds the bytes `got`, with a window of one chunk behind them. -/
structure Collects (got data : List UInt8) (size capacity : ℕ) : Prop where
  bytes : ∃ slack, data = got ++ slack
  size_eq : size = got.length
  allocated : data.length = capacity
  window : size + CHUNK_SIZE ≤ capacity

section Collects
variable {got data : List UInt8} {size capacity : ℕ}

theorem Collects.read (h : Collects got data size capacity) (chunk : Chunk) :
    (∃ slack, memcpy data size chunk.bytes = (got ++ chunk.bytes) ++ slack) ∧
    (memcpy data size chunk.bytes).length = capacity := by
  obtain ⟨⟨slack,rfl⟩,rfl,hlen,hwindow⟩ := h
  have hchunk := chunk.length_le
  constructor
  · exact ⟨(got ++ slack).drop (got.length + chunk.bytes.length),by simp [memcpy]⟩
  · simp only [memcpy, List.length_append, List.length_take, List.length_drop] at hlen ⊢
    omega

theorem Collects.keep (h : Collects got data size capacity) (chunk : Chunk)
    (hroom : ¬ size + chunk.bytes.length + CHUNK_SIZE > capacity) :
    Collects (got ++ chunk.bytes) (memcpy data size chunk.bytes) (size + chunk.bytes.length) capacity := by
  obtain ⟨hbytes,hlen⟩ := h.read chunk
  exact ⟨hbytes,by rw [List.length_append, h.size_eq],hlen,by omega⟩

theorem Collects.grow (h : Collects got data size capacity) (uninit : ℕ → UInt8) (chunk : Chunk) :
    Collects (got ++ chunk.bytes)
      (reallocBytes uninit (memcpy data size chunk.bytes) (capacity * 2))
      (size + chunk.bytes.length) (capacity * 2) := by
  obtain ⟨⟨slack,hslack⟩,hlen⟩ := h.read chunk
  have hchunk := chunk.length_le
  have hwindow := h.window
  refine ⟨?_,by rw [List.length_append, h.size_eq],?_,by omega⟩
  · rw [reallocBytes, hslack, List.append_assoc]
    exact ⟨_,rfl⟩
  · simp only [reallocBytes, fresh, List.length_append, List.length_map, List.length_range', hlen]
    omega

/-- The variables of the loop in front of an `fread`. -/
structure ReadState where
  data : List UInt8
  size : ℕ
  capacity : ℕ

/-- The turn of the loop behind an `fread` that stored the bytes of `chunk`, unless it refuses
the file. -/
def readTurn (uninit : ℕ → UInt8) (s : ReadState) (chunk : Chunk) : Option ReadState :=
  let data := memcpy s.data s.size chunk.bytes
  let size := s.size + chunk.bytes.length
  if size + CHUNK_SIZE > s.capacity then
    if s.capacity * 2 > MAX_DATABASE_FILE_SIZE then none
    else some ⟨reallocBytes uninit data (s.capacity * 2),size,s.capacity * 2⟩
  else some ⟨data,size,s.capacity⟩

/-- The states in front of the calls of `fread`, the one that delivers nothing included. -/
def readStates (uninit : ℕ → UInt8) (s : ReadState) : List Chunk → List ReadState
  | [] => [s]
  | chunk :: chunks =>
    s :: if chunk.bytes = [] then []
      else match readTurn uninit s chunk with
        | none => []
        | some t => readStates uninit t chunks

theorem readLoop_turn (uninit : ℕ → UInt8) (s : ReadState) {chunk : Chunk} (h : chunk.bytes ≠ [])
    (chunks : List Chunk) :
    readLoop uninit s.data s.size s.capacity (chunk :: chunks) =
      match readTurn uninit s chunk with
      | none => do
        Run.emit (.stderr "Error: database file exceeds size limit\n")
        pure ⟨none,s.size + chunk.bytes.length,s.capacity * 2⟩
      | some t => readLoop uninit t.data t.size t.capacity chunks := by
  rw [readLoop, if_neg h]
  unfold readTurn
  by_cases hfull : s.size + chunk.bytes.length + CHUNK_SIZE > s.capacity
  · by_cases hlimit : s.capacity * 2 > MAX_DATABASE_FILE_SIZE
    · simp only [if_pos hfull, if_pos hlimit]
    · simp only [if_pos hfull, if_neg hlimit]
  · simp only [if_neg hfull]

/-- `states` are those a run of the loop goes through: it starts in the first, each turn leads from
one to the next, and from every one of them the run goes on with the reads that are left. -/
structure Iterates (uninit : ℕ → UInt8) (start : ReadState) (chunks : List Chunk) (run : Run Event Buffer)
    (states : List ReadState) : Prop where
  first : states[0]? = some start
  next : ∀ k s chunk, states[k]? = some s → chunks[k]? = some chunk →
    states[k + 1]? = if chunk.bytes = [] then none else readTurn uninit s chunk
  rest : ∀ k s, states[k]? = some s → run = readLoop uninit s.data s.size s.capacity (chunks.drop k)

theorem readStates_zero (uninit : ℕ → UInt8) (s : ReadState) (chunks : List Chunk) :
    (readStates uninit s chunks)[0]? = some s := by
  cases chunks with
  | nil => rfl
  | cons chunk chunks => rfl

theorem readStates_one (uninit : ℕ → UInt8) (s : ReadState) (chunk : Chunk) (chunks : List Chunk) :
    (readStates uninit s (chunk :: chunks))[1]? = if chunk.bytes = [] then none else readTurn uninit s chunk := by
  rw [readStates, List.getElem?_cons_succ]
  by_cases hempty : chunk.bytes = []
  · rw [if_pos hempty, if_pos hempty]
    rfl
  · rw [if_neg hempty, if_neg hempty]
    cases readTurn uninit s chunk with
    | none => rfl
    | some u => exact readStates_zero uninit u chunks

/-- A turn behind the first one is a turn of the loop that the first one leads to. -/
theorem readStates_succ {uninit : ℕ → UInt8} {s t : ReadState} {chunk : Chunk} {chunks : List Chunk} {k : ℕ}
    (h : (readStates uninit s (chunk :: chunks))[k + 1]? = some t) :
    chunk.bytes ≠ [] ∧ ∃ u, readTurn uninit s chunk = some u ∧
      readStates uninit s (chunk :: chunks) = s :: readStates uninit u chunks ∧
      (readStates uninit u chunks)[k]? = some t := by
  rw [readStates, List.getElem?_cons_succ] at h
  by_cases hempty : chunk.bytes = []
  · simp [hempty] at h
  rw [if_neg hempty] at h
  cases hturn : readTurn uninit s chunk with
  | none => simp [hturn] at h
  | some u =>
    simp only [hturn] at h
    exact ⟨hempty,u,rfl,by simp only [readStates, if_neg hempty, hturn],h⟩

theorem readStates_iterates (uninit : ℕ → UInt8) (s : ReadState) (chunks : List Chunk) :
    Iterates uninit s chunks (readLoop uninit s.data s.size s.capacity chunks) (readStates uninit s chunks) := by
  refine ⟨readStates_zero uninit s chunks,?_,?_⟩
  · intro k t chunk ht hchunk
    induction k generalizing s chunks with
    | zero =>
      obtain ⟨rest,rfl⟩ := List.head?_eq_some_iff.mp (List.head?_eq_getElem?.trans hchunk)
      rw [readStates_zero, Option.some.injEq] at ht
      rw [readStates_one, ht]
    | succ k ih =>
      cases chunks with
      | nil => cases hchunk
      | cons first chunks =>
        obtain ⟨-,u,-,hstates,hrest⟩ := readStates_succ ht
        rw [hstates, List.getElem?_cons_succ]
        exact ih u chunks hrest hchunk
  · intro k t ht
    induction k generalizing s chunks with
    | zero =>
      rw [readStates_zero, Option.some.injEq] at ht
      rw [ht, List.drop_zero]
    | succ k ih =>
      cases chunks with
      | nil => cases ht
      | cons first chunks =>
        obtain ⟨hne,u,hturn,-,hrest⟩ := readStates_succ ht
        rw [readLoop_turn uninit s hne, hturn, List.drop_succ_cons]
        exact ih u chunks hrest

/-- One doubling restores the window behind any read. -/
theorem Collects.turn {uninit : ℕ → UInt8} {s t : ReadState} {chunk : Chunk}
    (h : Collects got s.data s.size s.capacity) (hturn : readTurn uninit s chunk = some t) :
    Collects (got ++ chunk.bytes) t.data t.size t.capacity := by
  unfold readTurn at hturn
  by_cases hfull : s.size + chunk.bytes.length + CHUNK_SIZE > s.capacity
  · simp only [if_pos hfull] at hturn
    split at hturn
    · cases hturn
    · cases hturn
      exact h.grow uninit chunk
  · simp only [if_neg hfull, Option.some.injEq] at hturn
    rw [← hturn]
    exact h.keep chunk hfull

/-- In front of a call of `fread` the object holds what the calls before have stored. -/
theorem readStates_collects {uninit : ℕ → UInt8} {chunks : List Chunk} {s t : ReadState} {k : ℕ}
    (h : Collects got s.data s.size s.capacity) (ht : (readStates uninit s chunks)[k]? = some t) :
    Collects (got ++ delivered (chunks.take k)) t.data t.size t.capacity := by
  induction k generalizing got s chunks with
  | zero =>
    rw [readStates_zero, Option.some.injEq] at ht
    rw [← ht, List.take_zero, delivered, List.append_nil]
    exact h
  | succ k ih =>
    cases chunks with
    | nil => cases ht
    | cons chunk chunks =>
      obtain ⟨hne,u,hturn,-,hrest⟩ := readStates_succ ht
      rw [List.take_succ_cons, delivered, if_neg hne, ← List.append_assoc]
      exact ih (h.turn hturn) hrest

/-- A file that is not refused is collected as a whole. -/
theorem readLoop_collects {uninit : ℕ → UInt8} {chunks : List Chunk} {s : ReadState} {buf : Buffer}
    {data' : List UInt8} (h : Collects got s.data s.size s.capacity)
    (hrun : (readLoop uninit s.data s.size s.capacity chunks).result = .ok buf)
    (hdata : buf.data = some data') :
    Collects (got ++ delivered chunks) data' buf.size buf.capacity := by
  induction chunks generalizing got s with
  | nil =>
    cases hrun
    cases hdata
    simpa [delivered] using h
  | cons chunk chunks ih =>
    by_cases hempty : chunk.bytes = []
    · rw [readLoop, if_pos hempty] at hrun
      cases hrun
      cases hdata
      simpa [delivered, hempty] using h
    · rw [readLoop_turn uninit s hempty] at hrun
      rw [delivered, if_neg hempty, ← List.append_assoc]
      cases hturn : readTurn uninit s chunk with
      | none =>
        rw [hturn] at hrun
        cases hrun
        cases hdata
      | some t =>
        rw [hturn] at hrun
        exact ih (h.turn hturn) hrun

end Collects

/-- The state in front of the first `fread`. -/
def readStart (w : World) : ReadState := ⟨fresh (w.uninit .database) 0 CHUNK_SIZE,0,CHUNK_SIZE⟩

theorem collects_start (w : World) :
    Collects [] (readStart w).data (readStart w).size (readStart w).capacity :=
  ⟨⟨_,rfl⟩,rfl,by simp [readStart, fresh],by simp [readStart]⟩

section File
variable {w : World} {path : CStr} {chunks : List Chunk}

theorem readEntireFile_eq (hopen : openStream w path = some chunks) :
    readEntireFile w (some path) =
      readLoop (w.uninit .database) (readStart w).data (readStart w).size (readStart w).capacity chunks := by
  rw [readEntireFile, Run.deref_some, Run.pure_bind, hopen]
  rfl

theorem readEntireFile_collects {buf : Buffer} {data : List UInt8} (hopen : openStream w path = some chunks)
    (hrun : (readEntireFile w (some path)).result = .ok buf) (hdata : buf.data = some data) :
    Collects (delivered chunks) data buf.size buf.capacity := by
  rw [readEntireFile_eq hopen] at hrun
  exact readLoop_collects (collects_start w) hrun hdata

/-- In front of every `fread` of the loop the window it may write to lies inside the allocation,
behind all that the calls before have stored, and a file that is not refused is in the buffer as
a whole, with room for a chunk behind it. -/
theorem readEntireFile_window (hopen : openStream w path = some chunks) :
    Iterates (w.uninit .database) (readStart w) chunks (readEntireFile w (some path))
      (readStates (w.uninit .database) (readStart w) chunks) ∧
    (∀ k s, (readStates (w.uninit .database) (readStart w) chunks)[k]? = some s →
      s.data.length = s.capacity ∧ s.size + CHUNK_SIZE ≤ s.capacity ∧
        s.data.take s.size = delivered (chunks.take k)) ∧
    ∀ buf data, (readEntireFile w (some path)).result = .ok buf → buf.data = some data →
      data.take buf.size = delivered chunks ∧ data.length = buf.capacity ∧
        buf.size + CHUNK_SIZE ≤ buf.capacity := by
  refine ⟨?_,?_,?_⟩
  · rw [readEntireFile_eq hopen]
    exact readStates_iterates _ _ _
  · intro k s hs
    have h := readStates_collects (collects_start w) hs
    obtain ⟨slack,hbytes⟩ := h.bytes
    refine ⟨h.allocated,h.window,?_⟩
    rw [hbytes, h.size_eq, List.take_left]
    rfl
  · intro buf data hrun hdata
    have h := readEntireFile_collects hopen hrun hdata
    obtain ⟨slack,hbytes⟩ := h.bytes
    refine ⟨?_,h.allocated,h.window⟩
    rw [hbytes, h.size_eq, List.take_left]

end File

/-- A world in which every name opens the file that these reads deliver. -/
def fileWorld (chunks : List Chunk) : World := plainWorld [] chunks 0

theorem openStream_fileWorld (chunks : List Chunk) :
    openStream (fileWorld chunks) (CStr.upto (literal "f")) = some chunks :=
  if_neg (by decide)

/-- One row that is read in two pieces. -/
def cutFile : List Chunk := [⟨literal "a,b,0",by decide⟩,⟨literal ",8,c\n",by decide⟩]

theorem readEntireFile_window_short :
    Iterates (fun _ => 7) (readStart (fileWorld cutFile)) cutFile
      (readEntireFile (fileWorld cutFile) (some (CStr.upto (literal "f"))))
      (readStates (fun _ => 7) (readStart (fileWorld cutFile)) cutFile) ∧
    (∀ k s, (readStates (fun _ => 7) (readStart (fileWorld cutFile)) cutFile)[k]? = some s →
      s.data.length = s.capacity ∧ s.size + CHUNK_SIZE ≤ s.capacity ∧
        s.data.take s.size = delivered (cutFile.take k)) ∧
    ∃ buf data, (readEntireFile (fileWorld cutFile) (some (CStr.upto (literal "f")))).result = .ok buf ∧
      buf.data = some data ∧ buf.size = 10 ∧ buf.capacity = 2048 ∧ data.take 10 = literal "a,b,0,8,c\n" ∧
        data.length = 2048 := by
  obtain ⟨hiterates,hwindows,hbuffer⟩ := readEntireFile_window (openStream_fileWorld cutFile)
  obtain ⟨hbytes,hlength,-⟩ := hbuffer ⟨some _,10,2048⟩ _ rfl rfl
  exact ⟨hiterates,hwindows,_,_,rfl,rfl,rfl,rfl,hbytes,hlength⟩

end Padre
