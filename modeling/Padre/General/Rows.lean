import Mathlib.Data.List.Basic
import Mathlib.Tactic.Common

/-! # Rows and fields of a text

A text is a list of terminated rows followed by an unterminated rest, and a row is a list
of fields of which at most the first `k` separators close one. Both are cut from the
front, so that a row in front of a text, or a field in front of a row, comes off as one.
-/
namespace Rows

variable {α : Type*} [DecidableEq α]

/-- The terminated rows of a text and the rest behind the last terminator. -/
def split (sep : α) : List α → List (List α) × List α
  | [] => ([],[])
  | b :: s =>
    if b = sep then ([] :: (split sep s).1,(split sep s).2)
    else match (split sep s).1 with
      | [] => ([],b :: (split sep s).2)
      | r :: rs => ((b :: r) :: rs,(split sep s).2)

def rows (sep : α) (text : List α) : List (List α) := (split sep text).1
def rest (sep : α) (text : List α) : List α := (split sep text).2

/-- The fields of a row, cut at its first `k` separators. -/
def fields (sep : α) : ℕ → List α → List (List α)
  | _, [] => [[]]
  | 0, b :: s => [b :: s]
  | k + 1, b :: s =>
    if b = sep then [] :: fields sep k s
    else match fields sep (k + 1) s with
      | [] => [[b]]
      | f :: fs => (b :: f) :: fs

variable {sep : α}

theorem split_row {r : List α} (h : sep ∉ r) (s : List α) :
    split sep (r ++ sep :: s) = (r :: (split sep s).1,(split sep s).2) := by
  induction r with
  | nil => simp [split]
  | cons b r ih =>
    obtain ⟨hb,hr⟩ : sep ≠ b ∧ sep ∉ r := by simpa using h
    simp [split, ih hr, Ne.symm hb]

theorem split_rest {r : List α} (h : sep ∉ r) : split sep r = ([],r) := by
  induction r with
  | nil => rfl
  | cons b r ih =>
    obtain ⟨hb,hr⟩ : sep ≠ b ∧ sep ∉ r := by simpa using h
    simp [split, ih hr, Ne.symm hb]

@[simp] theorem rows_row {r : List α} (h : sep ∉ r) (s : List α) :
    rows sep (r ++ sep :: s) = r :: rows sep s := by
  simp [rows, split_row h]

@[simp] theorem rest_row {r : List α} (h : sep ∉ r) (s : List α) :
    rest sep (r ++ sep :: s) = rest sep s := by
  simp [rest, split_row h]

theorem rows_rest {r : List α} (h : sep ∉ r) : rows sep r = [] := by simp [rows, split_rest h]
theorem rest_rest {r : List α} (h : sep ∉ r) : rest sep r = r := by simp [rest, split_rest h]

omit [DecidableEq α] in
theorem exists_first {s : List α} (h : sep ∈ s) : ∃ f t, s = f ++ sep :: t ∧ sep ∉ f := by
  obtain ⟨f,t,hs,hf⟩ := List.eq_append_cons_of_mem h
  exact ⟨f,t,hs,hf⟩

/-- Induction on the rows of a text. -/
theorem text_induction (sep : α) {motive : List α → Prop}
    (last : ∀ r, sep ∉ r → motive r)
    (row : ∀ r s, sep ∉ r → motive s → motive (r ++ sep :: s)) (text : List α) : motive text := by
  induction hn : text.length using Nat.strongRecOn generalizing text with
  | ind n ih =>
    by_cases hsep : sep ∈ text
    · obtain ⟨r,s,rfl,hr⟩ := exists_first hsep
      have hlt : s.length < n := by
        simp only [← hn, List.length_append, List.length_cons]
        omega
      exact row r s hr (ih s.length hlt s rfl)
    · exact last text hsep

/-- Neither a row nor the rest has the separator in it. -/
theorem notMem_of_mem_split (text : List α) :
    (∀ r ∈ rows sep text, sep ∉ r) ∧ sep ∉ rest sep text := by
  induction text using text_induction sep with
  | last r hr =>
    rw [rows_rest hr, rest_rest hr]
    exact ⟨fun s hs => absurd hs List.not_mem_nil,hr⟩
  | row r s hr ih =>
    rw [rows_row hr, rest_row hr, List.forall_mem_cons]
    exact ⟨⟨hr,ih.1⟩,ih.2⟩

theorem rows_flatMap {rs : List (List α)} (h : ∀ r ∈ rs, sep ∉ r) :
    rows sep (rs.flatMap fun r => r ++ [sep]) = rs ∧ rest sep (rs.flatMap fun r => r ++ [sep]) = [] := by
  induction rs with
  | nil => simp [rows, rest, split]
  | cons r rs ih =>
    have hr := h r (List.mem_cons_self ..)
    obtain ⟨hrows,hrest⟩ := ih fun s hs => h s (List.mem_cons_of_mem _ hs)
    simp [rows_row hr, rest_row hr, hrows, hrest]

theorem rows_append {text : List α} (h : rest sep text = []) (s : List α) :
    rows sep (text ++ s) = rows sep text ++ rows sep s ∧ rest sep (text ++ s) = rest sep s := by
  induction text using text_induction sep with
  | last r hr =>
    rw [rest_rest hr] at h
    simp [h, rows_rest]
  | row r t hr ih =>
    rw [rest_row hr] at h
    simp [rows_row hr, rest_row hr, ih h]

/-- A terminator turns the rest of a text into its last row. -/
theorem rows_concat (text : List α) :
    rows sep (text ++ [sep]) = rows sep text ++ [rest sep text] ∧ rest sep (text ++ [sep]) = [] := by
  induction text using text_induction sep with
  | last r hr =>
    rw [rows_row hr, rest_row hr, rows_rest hr, rest_rest hr]
    exact ⟨rfl,rfl⟩
  | row r s hr ih =>
    obtain ⟨hrows,hrest⟩ := ih
    rw [List.append_assoc, List.cons_append, rows_row hr, rest_row hr, rows_row hr, rest_row hr, hrows]
    exact ⟨rfl,hrest⟩

theorem rest_eq_nil_of_getLast? {text : List α} (h : text.getLast? = some sep) :
    rest sep text = [] := by
  induction text using text_induction sep with
  | last r hr => exact absurd (List.mem_of_getLast? h) hr
  | row r s hr ih =>
    rw [rest_row hr]
    by_cases hs : s = []
    · simp [hs, rest, split]
    · refine ih ?_
      rwa [List.getLast?_append_of_ne_nil _ (by simp), List.getLast?_cons_of_ne_nil hs] at h

@[simp] theorem fields_zero (s : List α) : fields sep 0 s = [s] := by cases s <;> rfl

@[simp] theorem fields_field {f : List α} (h : sep ∉ f) (k : ℕ) (s : List α) :
    fields sep (k + 1) (f ++ sep :: s) = f :: fields sep k s := by
  induction f with
  | nil => simp [fields]
  | cons b f ih =>
    obtain ⟨hb,hf⟩ : sep ≠ b ∧ sep ∉ f := by simpa using h
    simp [fields, ih hf, Ne.symm hb]

theorem fields_last {f : List α} (h : sep ∉ f) (k : ℕ) : fields sep k f = [f] := by
  induction f with
  | nil => cases k <;> rfl
  | cons b f ih =>
    obtain ⟨hb,hf⟩ : sep ≠ b ∧ sep ∉ f := by simpa using h
    cases k with
    | zero => rfl
    | succ k => simp [fields, ih hf, Ne.symm hb]

theorem length_fields (k : ℕ) (s : List α) : (fields sep k s).length = min k (s.count sep) + 1 := by
  induction k generalizing s with
  | zero => simp
  | succ k ih =>
    by_cases hsep : sep ∈ s
    · obtain ⟨f,t,rfl,hf⟩ := exists_first hsep
      rw [fields_field hf, List.length_cons, ih, List.count_append, List.count_cons_self,
        List.count_eq_zero_of_not_mem hf]
      omega
    · rw [fields_last hsep, List.count_eq_zero_of_not_mem hsep]
      simp

theorem exists_append_last (sep : α) (k : ℕ) (s : List α) :
    ∃ w, s = w ++ (fields sep k s).getLastD [] ∧ (w = [] ∨ w.getLast? = some sep) ∧
      (s.count sep ≤ k → sep ∉ (fields sep k s).getLastD []) := by
  induction k generalizing s with
  | zero => exact ⟨[],by simp,Or.inl rfl,by simp [List.count_eq_zero]⟩
  | succ k ih =>
    by_cases hsep : sep ∈ s
    · obtain ⟨f,t,rfl,hf⟩ := exists_first hsep
      obtain ⟨w,hw,hend,hlast⟩ := ih t
      have hne : fields sep k t ≠ [] := List.ne_nil_of_length_pos (by rw [length_fields]; omega)
      have hgetLast : (fields sep (k + 1) (f ++ sep :: t)).getLastD [] = (fields sep k t).getLastD [] := by
        rw [fields_field hf, List.getLastD_cons, List.getLastD_eq_getLast?, List.getLastD_eq_getLast?]
        cases h : (fields sep k t).getLast? with
        | none => exact absurd (List.getLast?_eq_none_iff.mp h) hne
        | some x => rfl
      rw [hgetLast]
      refine ⟨f ++ sep :: w,by simpa using hw,Or.inr ?_,fun hcount => hlast ?_⟩
      · rcases hend with rfl | hend
        · simp
        · rw [List.getLast?_append_of_ne_nil _ (by simp), List.getLast?_cons, hend]
          rfl
      · rw [List.count_append, List.count_cons_self, List.count_eq_zero_of_not_mem hf] at hcount
        omega
    · rw [fields_last hsep]
      exact ⟨[],by simp,Or.inl rfl,fun _ => by simpa using hsep⟩

theorem last_eq_nil_iff {k : ℕ} {s : List α} (hcount : s.count sep ≤ k) :
    (fields sep k s).getLastD [] = [] ↔ s = [] ∨ s.getLast? = some sep := by
  obtain ⟨w,hw,hend,hlast⟩ := exists_append_last sep k s
  constructor
  · intro h
    rw [h, List.append_nil] at hw
    exact hw ▸ hend
  · rintro (rfl | h)
    · cases k <;> rfl
    · by_contra hne
      rw [hw, List.getLast?_append_of_ne_nil _ hne] at h
      exact hlast hcount (List.mem_of_getLast? h)

end Rows
