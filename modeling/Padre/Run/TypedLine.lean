import Padre.Run.Prompt

/-! # The line that is typed

The prompt is left at a newline, at the end of the input, or because the buffer is full. The
last of these is not told apart: the terminator goes behind the buffer, and the call reports
success for a line it has not read to the end. Whether it happens is decided by the first keys
of the stream, as many as the buffer has bytes and one.
-/
namespace Padre
open CString Trace

/-- The place in `passwd` an event writes to. -/
def Event.place : Event → Option ℕ
  | .key i _ => some i
  | .zero i => some i
  | _ => none

section Prompt
variable {keys : ℕ → ℤ} {n : ℕ}

theorem storedKeys_lt_iff : storedKeys keys 0 n < n ↔ ∃ j < n, keys j = EOF ∨ keys j = KEY_ENTER := by
  constructor
  · intro h
    exact ⟨_,h,stored_end h⟩
  · rintro ⟨j,hj,hend⟩
    exact (storedKeys_le_of_end hend).trans_lt hj

/-- Every write of the prompt stays inside a buffer of `n` bytes exactly when the newline or
the end of the input comes before the buffer is full. -/
theorem tuiAskPassword_inside_iff (keys : ℕ → ℤ) (passwd : List UInt8) :
    (∀ e ∈ (tuiAskPassword keys passwd passwd.length).trace, ∀ i, e.place = some i → i < passwd.length) ↔
      ∃ j < passwd.length, keys j = EOF ∨ keys j = KEY_ENTER := by
  rw [← storedKeys_lt_iff, tuiAskPassword_eq keys le_rfl]
  constructor
  · intro h
    exact h (.zero (storedKeys keys 0 passwd.length)) (by simp) _ rfl
  · intro hlt e he i hi
    rcases List.mem_append.mp he with he | he
    · obtain ⟨j,hj,rfl⟩ := List.mem_map.mp he
      have hlast := (List.mem_range'_1.mp hj).2
      cases hi
      omega
    · rw [List.mem_singleton.mp he] at hi
      cases hi
      exact hlt

/-- One key too many puts the terminator behind a buffer of one byte. -/
theorem tuiAskPassword_outside :
    ¬ ∀ (keys : ℕ → ℤ) (passwd : List UInt8), 1 ≤ passwd.length →
      ∀ e ∈ (tuiAskPassword keys passwd passwd.length).trace, ∀ i, e.place = some i → i < passwd.length := by
  intro h
  exact absurd (h (fun _ => 120) [7] (by decide) (.zero 1) (by decide) 1 rfl) (by decide)

/-- The keys before the first newline, with no end of the input among them, are `m` many. -/
structure LineTyped (keys : ℕ → ℤ) (m : ℕ) : Prop where
  newline : keys m = KEY_ENTER
  plain : ∀ j < m, keys j ≠ EOF ∧ keys j ≠ KEY_ENTER

def ByteKeys (keys : ℕ → ℤ) : Prop := ∀ j, keys j = EOF ∨ (1 ≤ keys j ∧ keys j ≤ 255)

/-- The call returns 0 and leaves `asked`. -/
def Accepted (keys : ℕ → ℤ) (passwd : List UInt8) (asked : Asked) : Prop :=
  (tuiAskPassword keys passwd passwd.length).result = .ok asked ∧ asked.ret = 0

/-- Success means a line that ends before the input does, held in full. -/
def ReadsWholeLine (keys : ℕ → ℤ) (passwd : List UInt8) : Prop :=
  ∀ asked, Accepted keys passwd asked → ∃ m, LineTyped keys m ∧ asked.len = m ∧
    (asked.passwd.take m).map (fun b => (b.toNat : ℤ)) = (List.range m).map keys

/-- The newline or the end of the input is among the first `n` keys or directly behind them. -/
def EndsWithin (keys : ℕ → ℤ) (n : ℕ) : Prop := ∃ m ≤ n, keys m = EOF ∨ keys m = KEY_ENTER

theorem endsWithin_iff :
    EndsWithin keys n ↔ keys (storedKeys keys 0 n) = EOF ∨ keys (storedKeys keys 0 n) = KEY_ENTER := by
  have hle := storedKeys_le keys 0 n
  constructor
  · rintro ⟨m,hm,hend⟩
    by_cases hlt : storedKeys keys 0 n < n
    · exact stored_end hlt
    · have hstored : storedKeys keys 0 n ≤ m := storedKeys_le_of_end hend
      rwa [show storedKeys keys 0 n = m by omega]
  · intro hend
    exact ⟨_,hle,hend⟩

theorem toNat_charOf {c : ℤ} (h : 1 ≤ c ∧ c ≤ 255) : ((charOf c).toNat : ℤ) = c := by
  unfold charOf
  rw [UInt8.toNat_ofNat']
  omega

theorem typed_eq (hkeys : ByteKeys keys) (hplain : ∀ j < n, keys j ≠ EOF ∧ keys j ≠ KEY_ENTER) :
    (typed keys 0 n).map (fun b => (b.toNat : ℤ)) = (List.range n).map keys := by
  rw [typed, List.map_map, List.range_eq_range']
  apply List.map_congr_left
  intro j hj
  have hlt := (List.mem_range'_1.mp hj).2
  exact toNat_charOf ((hkeys j).resolve_left (hplain j (by omega)).1)

theorem Accepted.eq {passwd : List UInt8} {asked : Asked} (h : Accepted keys passwd asked) :
    keys (storedKeys keys 0 passwd.length) ≠ EOF ∧ asked.len = storedKeys keys 0 passwd.length ∧
      asked.passwd.take asked.len = typed keys 0 asked.len := by
  obtain ⟨hresult,hret⟩ := h
  rw [tuiAskPassword_eq keys le_rfl] at hresult
  cases hresult
  refine ⟨?_,rfl,?_⟩
  · intro heof
    rw [if_pos heof] at hret
    cases hret
  · rw [List.take_set_of_le le_rfl]
    exact List.take_left' (length_typed keys 0 _)

theorem accepted_of_ne_eof (passwd : List UInt8) (h : keys (storedKeys keys 0 passwd.length) ≠ EOF) :
    ∃ asked, Accepted keys passwd asked := by
  unfold Accepted
  rw [tuiAskPassword_eq keys le_rfl]
  exact ⟨_,rfl,if_neg h⟩

theorem readsWholeLine_of_endsWithin {passwd : List UInt8} (hkeys : ByteKeys keys)
    (hends : EndsWithin keys passwd.length) : ReadsWholeLine keys passwd := by
  intro asked h
  obtain ⟨hne,hlen,htake⟩ := h.eq
  have hplain : ∀ j < asked.len, keys j ≠ EOF ∧ keys j ≠ KEY_ENTER := by
    intro j hj
    exact stored_plain (hj.trans_eq hlen)
  refine ⟨asked.len,⟨?_,hplain⟩,rfl,?_⟩
  · rw [hlen]
    exact (endsWithin_iff.mp hends).resolve_left hne
  · rw [htake]
    exact typed_eq hkeys hplain

/-- An accepted call has read the whole line exactly on the streams that end one within the
buffer's length, and such lines are told apart by what the buffers hold. -/
theorem readsWholeLine_iff (hkeys : ByteKeys keys) (passwd : List UInt8) :
    (ReadsWholeLine keys passwd ↔ EndsWithin keys passwd.length) ∧
    ∀ keys' passwd' asked asked', ByteKeys keys' →
      EndsWithin keys passwd.length → EndsWithin keys' passwd'.length →
      Accepted keys passwd asked → Accepted keys' passwd' asked' →
      asked.passwd.take asked.len = asked'.passwd.take asked'.len →
        ∃ m, LineTyped keys m ∧ LineTyped keys' m ∧ ∀ j < m, keys j = keys' j := by
  constructor
  · constructor
    · intro hreads
      rw [endsWithin_iff]
      by_cases heof : keys (storedKeys keys 0 passwd.length) = EOF
      · exact Or.inl heof
      · obtain ⟨asked,hasked⟩ := accepted_of_ne_eof passwd heof
        obtain ⟨m,hline,hlen,-⟩ := hreads asked hasked
        rw [← hasked.eq.2.1, hlen]
        exact Or.inr hline.newline
    · exact readsWholeLine_of_endsWithin hkeys
  · intro keys' passwd' asked asked' hkeys' hends hends' hasked hasked' hsame
    obtain ⟨m,hline,rfl,hheld⟩ := readsWholeLine_of_endsWithin hkeys hends asked hasked
    obtain ⟨m',hline',rfl,hheld'⟩ := readsWholeLine_of_endsWithin hkeys' hends' asked' hasked'
    rw [hsame, hheld'] at hheld
    have hcount : asked'.len = asked.len := by simpa using congrArg List.length hheld
    rw [hcount] at hheld hline'
    refine ⟨asked.len,hline,hline',?_⟩
    intro j hj
    exact (List.map_inj_left.mp hheld j (List.mem_range.mpr hj)).symm

end Prompt

def sampleKeys (j : ℕ) : ℤ := [120,121].getD j 10

theorem byteKeys_sample : ByteKeys sampleKeys := by
  intro j
  right
  match j with
  | 0 => decide
  | 1 => decide
  | j + 2 =>
    change (1 : ℤ) ≤ 10 ∧ (10 : ℤ) ≤ 255
    decide

/-- `xy` is typed into a buffer of one byte, and `x` is the password. -/
theorem readsWholeLine_cut :
    ¬ ∀ (keys : ℕ → ℤ) (passwd : List UInt8), ByteKeys keys → ReadsWholeLine keys passwd := by
  intro h
  obtain ⟨m,hline,hlen,-⟩ := h sampleKeys [7] byteKeys_sample ⟨0,[120],1⟩ ⟨rfl,rfl⟩
  have hnewline := hline.newline
  rw [← hlen] at hnewline
  exact absurd hnewline (by decide)

theorem readsWholeLine_sample :
    (ReadsWholeLine sampleKeys [7,7] ↔ EndsWithin sampleKeys [7,7].length) ∧
    ∀ keys' passwd' asked asked', ByteKeys keys' →
      EndsWithin sampleKeys [7,7].length → EndsWithin keys' passwd'.length →
      Accepted sampleKeys [7,7] asked → Accepted keys' passwd' asked' →
      asked.passwd.take asked.len = asked'.passwd.take asked'.len →
        ∃ m, LineTyped sampleKeys m ∧ LineTyped keys' m ∧ ∀ j < m, sampleKeys j = keys' j :=
  readsWholeLine_iff byteKeys_sample [7,7]

end Padre
