import Padre.Charset.NonEmpty
import Padre.Run.Stops

/-! # What goes wrong in a run

A run of `main` uses a null pointer, reads a pattern on behind its object or divides by zero
in a few cases only, given by the account and by what the derivation makes of it. With a menu
that stays on its items there are no others.
-/
namespace Padre
open CString Rows Trace

/-- The ways a run can go wrong behind the prompt. -/
inductive Faults (w : World) (account : Account (Option CStr)) (keys : ℕ → ℤ) : Prop where
  | field : Prompts w account keys → (∀ d u i, ¬ Salted account d u i) → Faults w account keys
  | pattern (d u i : CStr) : Prompts w account keys → DerivesFrom w account keys d u i →
      account.characters = some none → Faults w account keys
  | modulus (d u i spec : CStr) : Prompts w account keys → DerivesFrom w account keys d u i →
      account.characters = some (some spec) → spec.bytes.any isspace = false → spec.bytes ≠ [] →
      ReversedRanges spec.bytes → w.malloc .charset 0 = true → account.length ≠ 0 → Faults w account keys

section Account
variable {w : World} {account : Account (Option CStr)}

/-- The specs without a character. -/
theorem expansion_class_eq_nil_iff (spec : CStr) :
    expansion (resolveClass spec) = [] ↔ spec.bytes ≠ [] ∧ ReversedRanges spec.bytes := by
  rw [← expansion_eq_nil_iff]
  rcases resolveClass_cases spec with hspec | ⟨hclass,hspec⟩
  · rw [hspec]
    refine ⟨fun h => ⟨?_,h⟩,fun h => h.2⟩
    intro hnil
    rw [resolveClass_nil hnil, hnil] at hspec
    exact absurd hspec (by decide)
  · refine iff_of_false hclass ?_
    rintro ⟨hne,hnil⟩
    exact hspec.elim hne fun h => h hnil

theorem characters_eq_nil_iff (spec : CStr) :
    Purpose.characters spec = [] ↔ expansion (resolveClass spec) = [] :=
  untilNul_eq_nil_iff (head?_expansionFrom (nul_notMem_resolveClass spec)).1

/-- A reversed range does not go up to the greatest character. -/
theorem ReversedRanges.ends {s : List UInt8} (h : ReversedRanges s) : (items s).any Item.endless = false := by
  rw [any_endless_iff]
  intro lo hmem
  have hchars : (Item.range lo 127).chars = [] := List.flatMap_eq_nil_iff.mp h.expansion_eq_nil _ hmem
  have hlt : schar 127 < schar lo := rangeChars_eq_nil.mp hchars
  have hmax : schar 127 = 127 := by decide
  have hbounds := schar_bounds lo
  omega

theorem printOver_undefined_iff {spec : CStr} {bytes : List UInt8} :
    (Purpose.printOver w spec bytes).result = .error .undefined ↔
      spec.bytes.any isspace = false ∧ spec.bytes ≠ [] ∧ ReversedRanges spec.bytes ∧
        w.malloc .charset 0 = true ∧ bytes ≠ [] := by
  have hnil (h : spec.bytes ≠ [] ∧ ReversedRanges spec.bytes) :
      expansion (resolveClass spec) = [] ∧ Purpose.characters spec = [] := by
    have hexpansion := (expansion_class_eq_nil_iff spec).mpr h
    exact ⟨hexpansion,(characters_eq_nil_iff spec).mpr hexpansion⟩
  unfold Purpose.printOver
  split_ifs with hendless hlong hmalloc hempty
  · refine iff_of_false (by simp) ?_
    rintro ⟨hspaces,-,hreversed,-,-⟩
    simp [Purpose.Endless, hspaces, hreversed.ends] at hendless
  · refine iff_of_false (fails_returns _ _) ?_
    rintro ⟨-,hne,hreversed,-,-⟩
    simp [hnil ⟨hne,hreversed⟩] at hlong
  · refine iff_of_false (fails_returns _ _) ?_
    rintro ⟨-,hne,hreversed,htrue,-⟩
    simp [hnil ⟨hne,hreversed⟩, htrue] at hmalloc
  · refine iff_of_true rfl ?_
    obtain ⟨hspaces,-⟩ := not_endless hendless
    obtain ⟨hne,hreversed⟩ := (expansion_class_eq_nil_iff spec).mp ((characters_eq_nil_iff spec).mp hempty.1)
    rw [hempty.1] at hmalloc
    exact ⟨hspaces,hne,hreversed,by simpa using hmalloc,hempty.2⟩
  · refine iff_of_false (by simp) ?_
    rintro ⟨-,hne,hreversed,-,hbytes⟩
    exact hempty ⟨(hnil ⟨hne,hreversed⟩).2,hbytes⟩

theorem print_undefined_iff {bytes : List UInt8} :
    (Purpose.print w account bytes).result = .error .undefined ↔
      account.characters = some none ∨ ∃ spec, account.characters = some (some spec) ∧
        spec.bytes.any isspace = false ∧ spec.bytes ≠ [] ∧ ReversedRanges spec.bytes ∧
          w.malloc .charset 0 = true ∧ bytes ≠ [] := by
  unfold Purpose.print
  rcases account.characters with _ | _ | spec
  · simp [fails_returns]
  · simp
  · simp [printOver_undefined_iff]

theorem ask_undefined_iff {keys : ℕ → ℤ} :
    (Purpose.ask w account keys).result = .error .undefined ↔ Faults w account keys := by
  have hbytes (d u i : CStr) : (scryptCall w d u i account.length keys).2.toList ≠ [] ↔ account.length ≠ 0 := by
    rw [← List.length_pos_iff, Vector.length_toList, Nat.pos_iff_ne_zero]
  simp only [ask_stops_iff, and_true, print_undefined_iff, hbytes]
  constructor
  · rintro ⟨hprompts,hfields | ⟨d,u,i,hderives,hopen | ⟨spec,hspec,hspaces,hne,hreversed,hcharset,hlength⟩⟩⟩
    · exact .field hprompts hfields
    · exact .pattern d u i hprompts hderives hopen
    · exact .modulus d u i spec hprompts hderives hspec hspaces hne hreversed hcharset hlength
  · intro h
    cases h with
    | field hprompts hfields => exact ⟨hprompts,Or.inl hfields⟩
    | pattern d u i hprompts hderives hopen => exact ⟨hprompts,Or.inr ⟨d,u,i,hderives,Or.inl hopen⟩⟩
    | modulus d u i spec hprompts hderives hspec hspaces hne hreversed hcharset hlength =>
      exact ⟨hprompts,Or.inr ⟨d,u,i,hderives,Or.inr ⟨spec,hspec,hspaces,hne,hreversed,hcharset,hlength⟩⟩⟩

end Account

section Determine
variable {w : World}

/-- A menu that stays on its items selects one of the accounts. -/
theorem choose_defined (hmenu : ∀ items request i, i < items → w.curses.menuDriver items request i < items)
    {accounts : List (Account (Option CStr))} (hsome : 0 < accounts.length) :
    (Purpose.choose w accounts).result ≠ .error .undefined := by
  unfold Purpose.choose
  split_ifs
  · simp
  · split
    · simp
    · rename_i k _
      split_ifs
      · simp
      · rw [List.getElem?_eq_getElem (cursor_lt (hmenu accounts.length) hsome k)]
        simp

theorem select_defined (hmenu : ∀ items request i, i < items → w.curses.menuDriver items request i < items)
    (accounts : List (Account (Option CStr))) : (Purpose.select w accounts).result ≠ .error .undefined := by
  match accounts with
  | [] => simp [Purpose.select]
  | [_] => simp [Purpose.select]
  | _ :: _ :: _ => exact choose_defined hmenu (by simp)

theorem determine_undefined_iff (hmenu : ∀ items request i, i < items → w.curses.menuDriver items request i < items)
    {options : CliOpts} : (Purpose.determine w options).result = .error .undefined ↔
      options.username = none ∧ options.domainOrDatabase = none := by
  unfold Purpose.determine Purpose.lookUp
  by_cases husername : options.username = none
  · rw [if_pos husername, and_iff_right husername]
    cases options.domainOrDatabase with
    | none => simp
    | some path =>
      rw [Run.deref_some, Run.pure_bind]
      refine iff_of_false ?_ (by simp)
      split
      · simp
      · split_ifs
        · simp
        · exact select_defined hmenu _
  · rw [if_neg husername]
    exact iff_of_false (by simp) fun h => husername h.1

end Determine

/-- With a menu that stays on its items, a run of `main` goes wrong exactly when the database has
no path, or for an account that cannot be derived from or converted to. -/
theorem main_undefined_iff {w : World}
    (hmenu : ∀ items request i, i < items → w.curses.menuDriver items request i < items) (argv : List ArgpEvent) :
    (∃ fuel, (main w fuel argv).result = .error .undefined) ↔
      (∃ options, (cliParse argv).result = .ok options ∧ options.username = none ∧ options.domainOrDatabase = none) ∨
      ∃ fuel account used, (mainAccount w fuel argv).result = .ok (account,used) ∧
        Faults w account fun k => w.curses.getch (used + k) := by
  have hparsed := cliParse_returns argv (show Stop.undefined ≠ .exits EX_USAGE by simp)
  have haccount : (Purpose.accountOf w argv).result = .error .undefined ↔
      ∃ options, (cliParse argv).result = .ok options ∧ options.username = none ∧ options.domainOrDatabase = none := by
    simp only [Purpose.accountOf, ← cliParse_eq, Run.bind_stops_iff, hparsed, false_or, determine_undefined_iff hmenu]
  rw [(main_comesTo w argv).result_iff (by simp), main_stops_iff, haccount]
  simp only [ask_undefined_iff]

/-- Two rows whose spec is a reversed range. -/
def reversedRows : List Chunk := [⟨literal "a,b,0,8,z-a\nx,y,1,8,z-a\n",by decide⟩]

/-- The first item of a menu is chosen and a line is typed for it. -/
theorem main_undefined_iff_reversed :
    ∃ fuel, (main (plainWorld [10,120,10] reversedRows 4) fuel [.keyArg (CStr.upto (literal "f"))]).result =
      .error .undefined := by
  have haccount : (mainAccount (plainWorld [10,120,10] reversedRows 4) 3 [.keyArg (CStr.upto (literal "f"))]).result =
      .ok (fullAccount (CStr.upto (literal "a")) (CStr.upto (literal "b")) (CStr.upto (literal "0"))
        (CStr.upto (literal "z-a")) 8,1) := rfl
  have hreversed : ReversedRanges (CStr.upto (literal "z-a")).bytes := (expansion_eq_nil_iff _).mp (by decide)
  refine (main_undefined_iff (fun _ _ _ hi => hi) _).mpr (Or.inr ⟨3,_,1,haccount,?_⟩)
  exact .modulus _ _ _ _ ⟨by decide,rfl,by decide⟩ ⟨⟨rfl,rfl,rfl⟩,rfl,rfl⟩ rfl (by decide) (by decide) hreversed rfl
    (by decide)

end Padre
