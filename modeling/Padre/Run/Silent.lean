import Padre.Run.Ends

/-! # Failing without a word

Every failing run of `main` says what went wrong, but for two: the menu is left with `q`, or
the account that is selected is an unterminated last row without a comma, which has no
domain.
-/
namespace Padre
open CString Rows Trace

section Ask
variable {w : World} {account : Account (Option CStr)} {status : ℕ}

theorem fails_speaks {texts : List String} (h : texts ≠ []) : Purpose.fails texts ≠ pure status := by
  intro hfails
  have htrace := congrArg Run.trace hfails
  simp [Purpose.fails, h] at htrace

theorem printOver_speaks {spec : CStr} {bytes : List UInt8} : Purpose.printOver w spec bytes ≠ pure status := by
  unfold Purpose.printOver
  split_ifs
  · simp [Run.ext_iff]
  · exact fails_speaks (by simp)
  · exact fails_speaks (by simp)
  · simp [Run.ext_iff]
  · simp [Run.ext_iff]

theorem print_speaks {bytes : List UInt8} : Purpose.print w account bytes ≠ pure status := by
  unfold Purpose.print
  split
  · exact fails_speaks (by simp)
  · simp [Run.ext_iff]
  · exact printOver_speaks

theorem derive_speaks {master : List UInt8} : Purpose.derive w account master ≠ pure status := by
  intro h
  simp only [Purpose.derive, Run.bind_eq_pure_iff] at h
  obtain ⟨d,-,u,-,i,-,hderived⟩ := h
  split_ifs at hderived
  · exact fails_speaks (by simp) hderived
  · exact fails_speaks (by simp) hderived
  · exact print_speaks hderived

/-- Only an account without a domain is given up in silence. -/
theorem ask_silent_iff {keys : ℕ → ℤ} :
    Purpose.ask w account keys = pure status ↔ account.domain = none ∧ status = EXIT_FAILURE := by
  unfold Purpose.ask
  split_ifs with hdomain
  · rw [and_iff_right hdomain]
    simp [Run.ext_iff, eq_comm]
  · exact iff_of_false (fails_speaks (by simp)) fun h => hdomain h.1
  · refine iff_of_false ?_ fun h => hdomain h.1
    split
    · exact fails_speaks (by simp)
    · exact derive_speaks

end Ask

/-- The reader prints nothing exactly for a text without a faulty row. -/
theorem messages_eq_nil_iff (line : List UInt8 → ℕ) (text above : List UInt8) :
    messages line above (rows newline text) (rest newline text) = [] ↔ faultyRows text = 0 := by
  induction text using text_induction newline generalizing above with
  | last r hn =>
    rw [rows_rest hn, rest_rest hn, faultyRows_last hn, messages]
    split_ifs <;> simp
  | row r s hn ih =>
    rw [rows_row hn, rest_row hn, faultyRows_row hn, messages]
    split_ifs
    · simp
    · simp
    · simp [ih]

theorem domain_of_mem_textEntries {text : List UInt8} {a : Account (Option CStr)} (h : a ∈ textEntries text) :
    a.domain ≠ none := by
  obtain ⟨row,-,hentry⟩ := List.mem_filterMap.mp h
  unfold rowEntry at hentry
  split_ifs at hentry with hmissing
  cases hentry
  exact (not_or.mp hmissing).1

theorem lastEntry_domain_iff (row tail : List UInt8) (j : ℕ) :
    (∃ a, (lastEntry row tail)[j]? = some a ∧ a.domain = none) ↔ j = 0 ∧ row ≠ [] ∧ comma ∉ row := by
  have hdomain : (rowAccount row).domain = none ↔ comma ∉ row := by
    rw [(rowAccount_filled row).1, Nat.lt_one_iff, List.count_eq_zero]
  have hlast (h : comma ∉ row) : lastField row = row := by simp [lastField, rowFields_one h]
  unfold lastEntry
  split_ifs with hnil
  · refine iff_of_false (by simp) ?_
    rintro ⟨-,hne,hcomma⟩
    exact hne (hlast hcomma ▸ hnil)
  · cases j with
    | zero =>
      simp only [List.getElem?_cons_zero, Option.some.injEq, exists_eq_left', hdomain, true_and]
      refine ⟨fun hcomma => ⟨?_,hcomma⟩,fun h => h.2⟩
      exact hlast hcomma ▸ hnil
    | succ j => simp

/-- An account without a domain is the last row of the text, not terminated and without a comma. -/
theorem stored_domain_iff {text : List UInt8} (haccepted : textRejected text = false) (tail : List UInt8) (i : ℕ) :
    (∃ a, (storedAccounts text tail)[i]? = some a ∧ a.domain = none) ↔
      i = (textEntries text).length ∧ rest newline text ≠ [] ∧ comma ∉ rest newline text := by
  rw [storedAccounts, if_neg (by simp [haccepted]), List.getElem?_append]
  split_ifs with hi
  · refine iff_of_false ?_ fun h => hi.ne h.1
    rintro ⟨a,ha,hnone⟩
    exact domain_of_mem_textEntries (List.mem_of_getElem? ha) hnone
  · have hplace : i - (textEntries text).length = 0 ↔ i = (textEntries text).length := by omega
    rw [lastEntry_domain_iff, hplace]

theorem accepted_of_faultyRows {text : List UInt8} (h : faultyRows text = 0) : textRejected text = false := by
  unfold faultyRows at h
  split_ifs at h with hr
  simpa using hr

/-- The keys leave the menu with `q`, or with a last row that has no domain. -/
def LeftSilently (curses : Curses) (text : List UInt8) : Prop :=
  ∃ k, leavingKey curses.getch = some k ∧ (curses.getch k = KEY_QUIT ∨
    cursor curses (entryCount text) k = (textEntries text).length ∧
      rest newline text ≠ [] ∧ comma ∉ rest newline text)

section Determine
variable {w : World}

theorem choose_silent_iff {accounts : List (Account (Option CStr))} :
    (∃ determined, Purpose.choose w accounts = pure determined ∧ determined.1.domain = none) ↔
      w.curses.postMenu (accounts.filterMap tuiItem) = E_OK ∧ ∃ k, leavingKey w.curses.getch = some k ∧
        (w.curses.getch k = KEY_QUIT ∨
          ∃ a, accounts[cursor w.curses accounts.length k]? = some a ∧ a.domain = none) := by
  unfold Purpose.choose
  split_ifs with hpost
  · refine iff_of_false ?_ fun h => hpost h.1
    rintro ⟨determined,h,-⟩
    simp [Run.ext_iff] at h
  · rw [and_iff_right (not_not.mp hpost)]
    cases hk : leavingKey w.curses.getch with
    | none => simp [Run.ext_iff]
    | some k =>
      simp only [Option.some.injEq, exists_eq_left']
      split_ifs with hquit
      · exact iff_of_true ⟨_,rfl,rfl⟩ (Or.inl hquit)
      · rw [or_iff_right hquit]
        simp only [Run.bind_eq_pure_iff, Run.deref_eq_pure_iff]
        constructor
        · rintro ⟨_,⟨a,ha,⟨rfl⟩⟩,hdomain⟩
          exact ⟨a,ha,hdomain⟩
        · rintro ⟨a,ha,hdomain⟩
          exact ⟨_,⟨a,ha,rfl⟩,hdomain⟩

theorem select_silent_iff {text : List UInt8} (haccepted : textRejected text = false) (tail : List UInt8) :
    (∃ determined, Purpose.select w (storedAccounts text tail) = pure determined ∧ determined.1.domain = none) ↔
      2 ≤ entryCount text ∧ w.curses.postMenu (menuItems text) = E_OK ∧ LeftSilently w.curses text := by
  have hchosen : (∃ determined, Purpose.choose w (storedAccounts text tail) = pure determined ∧
      determined.1.domain = none) ↔
      w.curses.postMenu (menuItems text) = E_OK ∧ LeftSilently w.curses text := by
    simp only [choose_silent_iff, stored_items, length_stored, stored_domain_iff haccepted, LeftSilently]
  rw [← hchosen, ← length_stored text tail]
  match storedAccounts text tail with
  | [] => simp [Purpose.select, Run.ext_iff]
  | [_] => simp [Purpose.select, Run.ext_iff]
  | _ :: _ :: _ => exact (and_iff_right (by simp)).symm

theorem lookUp_silent_iff {text : List UInt8} :
    (∃ determined, Purpose.lookUp w text = pure determined ∧ determined.1.domain = none) ↔
      text.length + CHUNK_SIZE ≤ MAX_DATABASE_FILE_SIZE ∧ faultyRows text = 0 ∧ 2 ≤ entryCount text ∧
        w.curses.postMenu (menuItems text) = E_OK ∧ LeftSilently w.curses text := by
  unfold Purpose.lookUp
  split_ifs with hlarge
  · refine iff_of_false ?_ fun h => Nat.not_lt.mpr h.1 hlarge
    rintro ⟨determined,h,-⟩
    simp [Run.ext_iff] at h
  · rw [and_iff_right (Nat.not_lt.mp hlarge)]
    simp only [Run.emits_bind_eq_pure_iff, List.map_eq_nil_iff, messages_eq_nil_iff, and_assoc, exists_and_left]
    exact and_congr_right fun hfaulty => select_silent_iff (accepted_of_faultyRows hfaulty) _

end Determine

/-- The menu of a database without a faulty row is left without an account that can be used. -/
structure GivenUp (w : World) (options : CliOpts) (path : CStr) (chunks : List Chunk) : Prop extends
    MenuShown w options path chunks where
  faultless : faultyRows (delivered chunks) = 0
  left : LeftSilently w.curses (delivered chunks)

theorem determine_silent_iff {w : World} {options : CliOpts}
    (hpath : options.username ≠ none → options.domainOrDatabase ≠ none) :
    (∃ determined, Purpose.determine w options = pure determined ∧ determined.1.domain = none) ↔
      ∃ path chunks, GivenUp w options path chunks := by
  refine (determine_iff (fun x => ∃ determined, x = pure determined ∧ determined.1.domain = none) ?_ ?_ ?_).trans ?_
  · rintro ⟨determined,h,-⟩
    simp [Run.ext_iff] at h
  · rintro path ⟨determined,h,-⟩
    simp [Run.ext_iff] at h
  · rintro husername ⟨_,⟨rfl⟩,hdomain⟩
    simp [accountFromOptions, hpath husername] at hdomain
  · simp only [lookUp_silent_iff]
    constructor
    · rintro ⟨path,chunks,husername,hnamed,hopen,hfits,hfaultless,hseveral,hposted,hleft⟩
      exact ⟨path,chunks,⟨husername,hnamed,hopen,hfits,hseveral,hposted⟩,hfaultless,hleft⟩
    · rintro ⟨path,chunks,⟨husername,hnamed,hopen,hfits,hseveral,hposted⟩,hfaultless,hleft⟩
      exact ⟨path,chunks,husername,hnamed,hopen,hfits,hfaultless,hseveral,hposted,hleft⟩

/-- A username is the second positional argument. -/
theorem path_of_username {argv : List ArgpEvent} {options : CliOpts} (h : (cliParse argv).result = .ok options)
    (husername : options.username ≠ none) : options.domainOrDatabase ≠ none := by
  obtain ⟨events,rfl⟩ : ∃ events, options = optionsOf events := by
    rw [cliParse_eq, commandLine] at h
    split at h
    · exact ⟨_,(Except.ok.inj h).symm⟩
    · exact ⟨_,(Except.ok.inj h).symm⟩
    · cases h
    · cases h
  simp only [optionsOf, ne_eq, List.getElem?_eq_none_iff, not_le] at husername ⊢
  omega

/-- A run of `main` returns without a word exactly when the menu of a database without a faulty row
is left with `q` or with a last row that has no domain. -/
theorem main_silent_iff (w : World) (argv : List ArgpEvent) :
    (∃ fuel, (main w fuel argv).trace.filter Event.visible = [] ∧
      ∃ status, (main w fuel argv).result = .ok status) ↔
      ∃ options path chunks, (cliParse argv).trace = [] ∧ (cliParse argv).result = .ok options ∧
        GivenUp w options path chunks := by
  have hshown : (∃ fuel, (main w fuel argv).trace.filter Event.visible = [] ∧
      ∃ status, (main w fuel argv).result = .ok status) ↔ ∃ status, Purpose.program w argv = pure status := by
    simp only [← (main_comesTo w argv).shown_iff (show (pure _ : Run Event ℕ).result ≠ .error .unfinished by simp)]
    constructor
    · rintro ⟨fuel,htrace,status,hresult⟩
      exact ⟨status,fuel,Run.ext_iff.mpr ⟨htrace,hresult⟩⟩
    · rintro ⟨status,fuel,hfuel⟩
      exact ⟨fuel,congrArg Run.trace hfuel,status,congrArg Run.result hfuel⟩
  rw [hshown]
  simp only [Purpose.program, Purpose.accountOf, Run.bind_eq_pure_iff, ask_silent_iff, ← cliParse_eq]
  constructor
  · rintro ⟨status,determined,⟨options,hoptions,hdetermined⟩,hdomain,-⟩
    have hparsed := congrArg Run.result hoptions
    obtain ⟨path,chunks,hgiven⟩ := (determine_silent_iff (path_of_username hparsed)).mp ⟨determined,hdetermined,hdomain⟩
    exact ⟨options,path,chunks,congrArg Run.trace hoptions,hparsed,hgiven⟩
  · rintro ⟨options,path,chunks,htrace,hparsed,hgiven⟩
    obtain ⟨determined,hdetermined,hdomain⟩ := (determine_silent_iff (path_of_username hparsed)).mpr ⟨path,chunks,hgiven⟩
    exact ⟨EXIT_FAILURE,determined,⟨options,Run.ext_iff.mpr ⟨htrace,hparsed⟩,hdetermined⟩,hdomain,rfl⟩

end Padre
