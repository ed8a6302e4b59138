import Padre.Run.Stops

/-! # When the program ends

Two loops of the program can wait for something that never comes: the menu for a key that
leaves it, and the scan of a spec for its own end. A run of `main` ends exactly when it
gets to neither of them.
-/
namespace Padre
open CString Rows Trace

/-- The menu of a database of several accounts is shown. -/
structure MenuShown (w : World) (options : CliOpts) (path : CStr) (chunks : List Chunk) : Prop where
  database : options.username = none
  named : options.domainOrDatabase = some path
  opened : openStream w path = some chunks
  fits : (delivered chunks).length + CHUNK_SIZE ≤ MAX_DATABASE_FILE_SIZE
  several : 2 ≤ entryCount (delivered chunks)
  posted : w.curses.postMenu (menuItems (delivered chunks)) = E_OK

/-- No key leaves the menu. -/
structure MenuWaits (w : World) (options : CliOpts) (path : CStr) (chunks : List Chunk) : Prop extends
    MenuShown w options path chunks where
  waits : ∀ k, ¬ LeavesMenu (w.curses.getch k)

/-- The derivation succeeds, and the spec behind it is scanned without end. -/
def ScanTurns (w : World) (account : Account (Option CStr)) (keys : ℕ → ℤ) : Prop :=
  Prompts w account keys ∧ ∃ d u i spec, DerivesFrom w account keys d u i ∧
    account.characters = some (some spec) ∧ Purpose.Endless spec

section Account
variable {w : World} {account : Account (Option CStr)}

theorem printOver_unfinished_iff {spec : CStr} {bytes : List UInt8} :
    (Purpose.printOver w spec bytes).result = .error .unfinished ↔ Purpose.Endless spec := by
  unfold Purpose.printOver
  split_ifs with hendless
  · exact iff_of_true rfl hendless
  · exact iff_of_false (fails_returns _ _) hendless
  · exact iff_of_false (fails_returns _ _) hendless
  · exact iff_of_false (by simp) hendless
  · exact iff_of_false (by simp) hendless

theorem print_unfinished_iff {bytes : List UInt8} :
    (Purpose.print w account bytes).result = .error .unfinished ↔
      ∃ spec, account.characters = some (some spec) ∧ Purpose.Endless spec := by
  unfold Purpose.print
  rcases account.characters with _ | _ | spec
  · simp [fails_returns]
  · simp
  · simp [printOver_unfinished_iff]

theorem ask_unfinished_iff {keys : ℕ → ℤ} :
    (Purpose.ask w account keys).result = .error .unfinished ↔ ScanTurns w account keys := by
  simp only [ask_stops_iff, reduceCtorEq, and_false, false_or, print_unfinished_iff, ScanTurns, exists_and_left]

end Account

section Menu
variable {w : World}

theorem choose_unfinished_iff {accounts : List (Account (Option CStr))} :
    (Purpose.choose w accounts).result = .error .unfinished ↔
      w.curses.postMenu (accounts.filterMap tuiItem) = E_OK ∧ ∀ k, ¬ LeavesMenu (w.curses.getch k) := by
  unfold Purpose.choose
  by_cases hpost : w.curses.postMenu (accounts.filterMap tuiItem) ≠ E_OK
  · rw [if_pos hpost]
    exact iff_of_false (by simp) fun h => hpost h.1
  · rw [if_neg hpost, ← leavingKey_eq_none, and_iff_right (not_not.mp hpost)]
    cases leavingKey w.curses.getch with
    | none => simp
    | some k =>
      dsimp only
      split_ifs
      · simp
      · cases accounts[cursor w.curses accounts.length k]? <;> simp

theorem select_unfinished_iff (text tail : List UInt8) :
    (Purpose.select w (storedAccounts text tail)).result = .error .unfinished ↔
      2 ≤ entryCount text ∧ w.curses.postMenu (menuItems text) = E_OK ∧
        ∀ k, ¬ LeavesMenu (w.curses.getch k) := by
  rw [← length_stored text tail, ← stored_items text tail]
  match storedAccounts text tail with
  | [] => simp [Purpose.select]
  | [account] => simp [Purpose.select]
  | a :: b :: accounts =>
    rw [and_iff_right (by simp)]
    exact choose_unfinished_iff

theorem lookUp_unfinished_iff {text : List UInt8} :
    (Purpose.lookUp w text).result = .error .unfinished ↔
      text.length + CHUNK_SIZE ≤ MAX_DATABASE_FILE_SIZE ∧ 2 ≤ entryCount text ∧
        w.curses.postMenu (menuItems text) = E_OK ∧ ∀ k, ¬ LeavesMenu (w.curses.getch k) := by
  unfold Purpose.lookUp
  by_cases hlarge : MAX_DATABASE_FILE_SIZE < text.length + CHUNK_SIZE
  · rw [if_pos hlarge]
    exact iff_of_false (by simp) fun h => Nat.not_lt.mpr h.1 hlarge
  · rw [if_neg hlarge, and_iff_right (Nat.not_lt.mp hlarge), Run.emits_stops_iff]
    exact select_unfinished_iff text _

/-- What is true of the account that is determined only where a database is opened depends on
its text. -/
theorem determine_iff {options : CliOpts} (Q : Run Event (Account (Option CStr) × ℕ) → Prop)
    (hpath : ¬ Q (Run.stop .undefined))
    (hopen : ∀ path, ¬ Q (Run.emit (.openFailed path) >>= fun _ => pure (Account.null,0)))
    (hgiven : options.username ≠ none → ¬ Q (pure (accountFromOptions options,0))) :
    Q (Purpose.determine w options) ↔ ∃ path chunks, options.username = none ∧
      options.domainOrDatabase = some path ∧ openStream w path = some chunks ∧
        Q (Purpose.lookUp w (delivered chunks)) := by
  unfold Purpose.determine
  split_ifs with husername
  · cases hnamed : options.domainOrDatabase with
    | none => exact iff_of_false hpath (by simp)
    | some path =>
      rw [Run.deref_some, Run.pure_bind]
      cases hopened : openStream w path with
      | none =>
        refine iff_of_false (hopen path) ?_
        rintro ⟨path',chunks,-,⟨rfl⟩,h,-⟩
        cases hopened.symm.trans h
      | some chunks =>
        constructor
        · intro h
          exact ⟨path,chunks,husername,rfl,hopened,h⟩
        · rintro ⟨path',chunks',-,⟨rfl⟩,h,hlookup⟩
          obtain rfl := Option.some.inj (hopened.symm.trans h)
          exact hlookup
  · refine iff_of_false (hgiven husername) ?_
    rintro ⟨path,chunks,h,-⟩
    exact husername h

theorem determine_unfinished_iff {options : CliOpts} :
    (Purpose.determine w options).result = .error .unfinished ↔
      ∃ path chunks, MenuWaits w options path chunks := by
  refine (determine_iff (fun x => x.result = .error .unfinished) (by simp) (by simp) (by simp)).trans ?_
  simp only [lookUp_unfinished_iff]
  constructor
  · rintro ⟨path,chunks,husername,hpath,hopen,hfits,hseveral,hposted,hwaits⟩
    exact ⟨path,chunks,⟨husername,hpath,hopen,hfits,hseveral,hposted⟩,hwaits⟩
  · rintro ⟨path,chunks,⟨husername,hpath,hopen,hfits,hseveral,hposted⟩,hwaits⟩
    exact ⟨path,chunks,husername,hpath,hopen,hfits,hseveral,hposted,hwaits⟩

theorem accountOf_unfinished_iff {argv : List ArgpEvent} :
    (Purpose.accountOf w argv).result = .error .unfinished ↔
      ∃ options path chunks, (cliParse argv).result = .ok options ∧ MenuWaits w options path chunks := by
  have hends := cliParse_returns argv (show Stop.unfinished ≠ .exits EX_USAGE by simp)
  simp only [Purpose.accountOf, ← cliParse_eq, Run.bind_stops_iff, hends, false_or, determine_unfinished_iff]
  constructor
  · rintro ⟨options,hoptions,path,chunks,hwaits⟩
    exact ⟨options,path,chunks,hoptions,hwaits⟩
  · rintro ⟨options,path,chunks,hoptions,hwaits⟩
    exact ⟨options,hoptions,path,chunks,hwaits⟩

end Menu

/-- A run of `main` ends, on some fuel, exactly when neither the menu waits for a key that never
comes nor a derived password for a spec without an end. -/
theorem main_ends_iff (w : World) (argv : List ArgpEvent) :
    (∃ fuel, (main w fuel argv).result ≠ .error .unfinished) ↔
      (∀ options path chunks, (cliParse argv).result = .ok options → ¬ MenuWaits w options path chunks) ∧
      ∀ fuel account used, (mainAccount w fuel argv).result = .ok (account,used) →
        ¬ ScanTurns w account fun k => w.curses.getch (used + k) := by
  rw [(main_comesTo w argv).ends_iff, ne_eq, main_stops_iff, accountOf_unfinished_iff, not_or]
  simp only [ask_unfinished_iff, not_exists, not_and]

end Padre
