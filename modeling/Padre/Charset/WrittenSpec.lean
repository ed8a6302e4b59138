import Padre.Charset.Capacity

/-! # Writing a spec and reading it back

A list of items is written by concatenating them. Where a dash that stands for itself comes
first, last or directly after a range, and no character is denoted twice, the items are read
back from the spec, and `enumerate_charset` delivers their characters in order.
-/
namespace Padre
open CString

def Item.written : Item → List UInt8
  | .single c => [c]
  | .range lo hi => [lo,dash,hi]

def write (its : List Item) : List UInt8 := its.flatMap Item.written

@[simp] theorem write_nil : write [] = [] := rfl
@[simp] theorem write_single (c : UInt8) (its : List Item) : write (.single c :: its) = c :: write its := rfl
@[simp] theorem write_range (lo hi : UInt8) (its : List Item) :
    write (.range lo hi :: its) = lo :: dash :: hi :: write its := rfl

/-- A dash stands for itself only first, directly after a range, or last. -/
def DashesPlaced (its : List Item) : Prop :=
  ∀ before after, its = before ++ .single dash :: after →
    before = [] ∨ (∃ lo hi, before.getLast? = some (.range lo hi)) ∨ after = []

/-- The lists of items that the notation can express. -/
structure Expressible (its : List Item) : Prop where
  nonempty : its ≠ []
  printable : ∀ i ∈ its, ∀ b ∈ i.ends, 33 ≤ b ∧ b ≤ 126
  ascending : ∀ i ∈ its, i.ascending = true
  no_dash_ends : ∀ lo hi, Item.range lo hi ∈ its → lo ≠ dash ∧ hi ≠ dash
  dashes_placed : DashesPlaced its
  once : (its.flatMap Item.chars).Nodup

/-- The single character behind which a scan still waits for a dash. -/
def waiting (done : List Item) : Option UInt8 :=
  match done.getLast? with
  | some (.single c) => if c = dash then none else some c
  | _ => none

theorem waiting_concat_single {done : List Item} {c : UInt8} (h : c ≠ dash) :
    waiting (done ++ [.single c]) = some c := by
  simp [waiting, h]

theorem waiting_concat_dash (done : List Item) : waiting (done ++ [.single dash]) = none := by
  simp [waiting]

theorem waiting_concat_range (done : List Item) (lo hi : UInt8) :
    waiting (done ++ [.range lo hi]) = none := by
  simp [waiting]

theorem waiting_eq_some {done : List Item} {c : UInt8} (h : waiting done = some c) :
    done.getLast? = some (.single c) := by
  unfold waiting at h
  split at h
  · split at h
    · cases h
    · cases h
      assumption
  · cases h

/-- The items written behind `done` are read back, behind the one that was waiting. -/
theorem itemsFrom_write {done rest : List Item} (hplaced : DashesPlaced (done ++ rest))
    (hends : ∀ lo hi, Item.range lo hi ∈ rest → lo ≠ dash ∧ hi ≠ dash) :
    itemsFrom ((waiting done).map fun c => (c,false)) (write rest) =
      ((waiting done).map Item.single).toList ++ rest := by
  induction rest generalizing done with
  | nil => cases waiting done <;> rfl
  | cons i rest ih =>
    have hnext : DashesPlaced ((done ++ [i]) ++ rest) := by simpa using hplaced
    have hi := ih hnext fun lo hi h => hends lo hi (List.mem_cons_of_mem _ h)
    cases i with
    | range lo hi' =>
      obtain ⟨hlo,hhi⟩ := hends lo hi' (by simp)
      rw [waiting_concat_range] at hi
      cases waiting done with
      | none => simpa [itemsFrom, hlo, hhi] using hi
      | some c => simpa [itemsFrom, hlo, hhi] using hi
    | single c =>
      by_cases hc : c = dash
      · subst hc
        rw [waiting_concat_dash] at hi
        cases hw : waiting done with
        | none => simpa [itemsFrom] using hi
        | some d =>
          have hlast := waiting_eq_some hw
          have hrest : rest = [] := by
            rcases hplaced done rest rfl with h | ⟨lo,hi',h⟩ | h
            · simp [h] at hlast
            · simp [h] at hlast
            · exact h
          simp [hrest, itemsFrom]
      · rw [waiting_concat_single hc] at hi
        cases waiting done with
        | none => simpa [itemsFrom, hc] using hi
        | some d => simpa [itemsFrom, hc] using hi

theorem items_write {its : List Item} (h : Expressible its) : items (write its) = its :=
  itemsFrom_write (show DashesPlaced ([] ++ its) from h.dashes_placed) h.no_dash_ends

theorem expansion_write {its : List Item} (h : Expressible its) :
    expansion (write its) = its.flatMap Item.chars := congrArg (List.flatMap Item.chars) (items_write h)

theorem write_printable {its : List Item} (h : Expressible its) : ∀ b ∈ write its, 33 ≤ b ∧ b ≤ 126 := by
  intro b hb
  obtain ⟨i,hi,hbi⟩ := List.mem_flatMap.mp hb
  cases i with
  | single c => exact h.printable _ hi b hbi
  | range lo hi' =>
    simp only [Item.written, List.mem_cons, List.not_mem_nil, or_false] at hbi
    rcases hbi with rfl | rfl | rfl
    · exact h.printable _ hi b (by simp)
    · decide
    · exact h.printable _ hi b (by simp)

/-- The names of the classes other than `"*"` are not written lists: each has its colon twice. -/
theorem resolveClass_write {its : List Item} {spec : CStr} (h : Expressible its)
    (hspec : spec.bytes = write its) (hstar : write its ≠ literal "*") : resolveClass spec = write its := by
  have hnames : ∀ c ∈ classes, c.1 = [] ∨ c.1 = literal "*" ∨ ¬ (expansion c.1).Nodup := by decide
  rcases resolveClass_resolved spec with hself | hclass
  · rw [hself, hspec]
  · rw [hspec] at hclass
    rcases hnames _ hclass with hempty | hname | htwice
    · have hitems := items_write h
      rw [show write its = [] from hempty] at hitems
      exact absurd hitems.symm h.nonempty
    · exact absurd hname hstar
    · rw [show expansion (write its) = _ from expansion_write h] at htwice
      exact absurd h.once htwice

/-- `enumerate_charset` undoes the notation. -/
theorem enumerateCharset_write {malloc : ℕ → Bool} {uninit : ℕ → UInt8} {its : List Item} {spec : CStr}
    {out : CharsetOut} (h : Expressible its) (hspec : spec.bytes = write its)
    (hstar : write its ≠ literal "*") (hmalloc : malloc (its.flatMap Item.chars).length = true)
    (hres : out.res ≠ none) (hrlen : out.rlen ≠ none) :
    ∃ N, ∀ fuel, N ≤ fuel → enumerateCharset fuel malloc uninit (some spec) out =
      some (0,{ out with
        rlen := some (its.flatMap Item.chars).length,
        res := some (some ⟨(its.flatMap Item.chars).length,its.flatMap Item.chars ++ [0]⟩) }) := by
  have hprint : ∀ b ∈ spec.bytes, 33 ≤ b ∧ b ≤ 126 := by
    rw [hspec]
    exact write_printable h
  have hexpansion : expansion (resolveClass spec) = its.flatMap Item.chars := by
    rw [resolveClass_write h hspec hstar, expansion_write h]
  have hroom : malloc (expansion (resolveClass spec)).length = true := by rw [hexpansion]; exact hmalloc
  have hlen := length_expansion_of_nodup hprint (by rw [hexpansion]; exact h.once)
  refine ⟨(resolveClass spec).length + 256,?_⟩
  intro fuel hfuel
  rw [enumerateCharset_eq_verdict hres hrlen (any_isspace_of_printable hprint)
    (items_endless_of_bytes (bytes_of_printable hprint)) (by omega),
    verdict_of_bytes (bytes_of_printable hprint) hroom, if_pos hlen, hexpansion]

/-- All 94 characters, the dash between two ranges. -/
theorem expressible_graph : Expressible [.range 33 44,.single dash,.range 46 126] where
  nonempty := by decide
  printable := by
    have hall : ∀ i ∈ [Item.range 33 44,.single dash,.range 46 126],
        i.ends.all (fun b => 33 ≤ b ∧ b ≤ 126) = true := by decide
    exact fun i hi => List.all_iff_forall_prop.mp (hall i hi)
  ascending := by decide
  no_dash_ends := by
    intro lo hi h
    simp only [List.mem_cons, Item.range.injEq, reduceCtorEq, List.not_mem_nil, or_false, false_or] at h
    rcases h with ⟨rfl,rfl⟩ | ⟨rfl,rfl⟩
    · decide
    · decide
  dashes_placed := by
    intro before after h
    rcases before with _ | ⟨i,_ | ⟨j,rest⟩⟩
    · exact Or.inl rfl
    · exact Or.inr (Or.inl ⟨33,44,by simp_all⟩)
    · rcases rest with _ | ⟨k,rest⟩
      · simp at h
      · simp at h
  once := by
    simp only [List.flatMap_cons, List.flatMap_nil, List.append_nil, Item.chars, List.nodup_append,
      List.singleton_append, List.nodup_cons, nodup_rangeChars, true_and, List.mem_cons, mem_rangeChars]
    refine ⟨⟨by decide,trivial⟩,?_⟩
    have hleft : schar 44 < schar dash := by decide
    have hright : schar dash < schar 46 := by decide
    rintro a ⟨-,ha⟩ b hb rfl
    rcases hb with rfl | ⟨hb,-⟩
    · omega
    · omega

theorem enumerateCharset_write_graph :
    ∃ N, ∀ fuel, N ≤ fuel →
      enumerateCharset fuel (fun _ => true) (fun _ => 7) (some (CStr.upto (literal "!-,-.-~"))) freshOut =
        some (0,{ freshOut with
          rlen := some (List.flatMap Item.chars [.range 33 44,.single dash,.range 46 126]).length,
          res := some (some ⟨(List.flatMap Item.chars [.range 33 44,.single dash,.range 46 126]).length,
            List.flatMap Item.chars [.range 33 44,.single dash,.range 46 126] ++ [0]⟩) }) :=
  enumerateCharset_write expressible_graph (by decide) (by decide) rfl freshOut_res freshOut_rlen

end Padre
