import Padre.Run.Refines

/-! # Where a run stops

A run of `main` stops without a status while the account is determined, or behind the prompt:
where a string of the salt is missing, or in what becomes of the derived bytes.
-/
namespace Padre
open CString Rows Trace

/-- The master password of the account is read. -/
structure Prompts (w : World) (account : Account (Option CStr)) (keys : ℕ → ℤ) : Prop where
  domain : account.domain ≠ none
  malloc : w.malloc .password (account.length + 1) = true
  typed : keys (promptLen keys) ≠ EOF

/-- The three strings of the salt are there. -/
structure Salted (account : Account (Option CStr)) (d u i : CStr) : Prop where
  domain : account.domain = some (some d)
  username : account.username = some (some u)
  iteration : account.iteration = some (some i)

/-- The derivation from the three strings succeeds. -/
structure DerivesFrom (w : World) (account : Account (Option CStr)) (keys : ℕ → ℤ) (d u i : CStr) : Prop where
  salted : Salted account d u i
  malloc : w.malloc .salt (saltLen d u i + 1) = true
  derived : (scryptCall w d u i account.length keys).1 = 0

theorem fails_returns (texts : List String) (e : Stop) : (Purpose.fails texts).result ≠ .error e := by
  intro h
  cases h

theorem cliParse_returns (argv : List ArgpEvent) {e : Stop} (he : e ≠ .exits EX_USAGE) :
    (cliParse argv).result ≠ .error e := by
  rw [cliParse_eq, commandLine]
  split
  · simp
  · simp
  · simpa using he.symm
  · simpa using he.symm

section Account
variable {w : World} {account : Account (Option CStr)} {keys : ℕ → ℤ} {e : Stop}

theorem derive_salted {d u i : CStr} (h : Salted account d u i) (keys : ℕ → ℤ) :
    Purpose.derive w account (typed keys 0 (promptLen keys)) =
      if w.malloc .salt (saltLen d u i + 1) = false then
        Purpose.fails ["Could not allocate memory for the salt","Error deriving the domain password"]
      else if (scryptCall w d u i account.length keys).1 ≠ 0 then
        Purpose.fails ["Error deriving the domain password"]
      else Purpose.print w account (scryptCall w d u i account.length keys).2.toList := by
  simp only [Purpose.derive, h.domain, h.username, h.iteration, Option.bind_some, id_eq, Run.deref_some,
    Run.pure_bind, scryptCall, salt_eq]

theorem derive_not_salted (h : ∀ d u i, ¬ Salted account d u i) (master : List UInt8) :
    Purpose.derive w account master = Run.stop .undefined := by
  unfold Purpose.derive
  rcases hd : account.domain with _ | _ | d
  · rfl
  · rfl
  · rcases hu : account.username with _ | _ | u
    · rfl
    · rfl
    · rcases hi : account.iteration with _ | _ | i
      · rfl
      · rfl
      · exact absurd ⟨hd,hu,hi⟩ (h d u i)

theorem Salted.unique {d u i d' u' i' : CStr} (h : Salted account d u i) (h' : Salted account d' u' i') :
    d = d' ∧ u = u' ∧ i = i' := by
  have hd := h.domain.symm.trans h'.domain
  have hu := h.username.symm.trans h'.username
  have hi := h.iteration.symm.trans h'.iteration
  simpa using And.intro hd (And.intro hu hi)

/-- The derivation stops where a string of the salt is missing or behind the derived bytes. -/
theorem derive_stops_iff :
    (Purpose.derive w account (typed keys 0 (promptLen keys))).result = .error e ↔
      (∀ d u i, ¬ Salted account d u i) ∧ e = .undefined ∨ ∃ d u i, DerivesFrom w account keys d u i ∧
        (Purpose.print w account (scryptCall w d u i account.length keys).2.toList).result = .error e := by
  by_cases hsalted : ∃ d u i, Salted account d u i
  · obtain ⟨d,u,i,h⟩ := hsalted
    rw [derive_salted h, or_iff_right fun hnone => hnone.1 d u i h]
    constructor
    · intro hstops
      split_ifs at hstops with hmalloc hret
      · exact absurd hstops (fails_returns _ e)
      · exact absurd hstops (fails_returns _ e)
      · exact ⟨d,u,i,⟨h,by simpa using hmalloc,not_not.mp hret⟩,hstops⟩
    · rintro ⟨d',u',i',hderives,hstops⟩
      obtain ⟨rfl,rfl,rfl⟩ := h.unique hderives.salted
      rw [if_neg (by simp [hderives.malloc]), if_neg (not_not.mpr hderives.derived)]
      exact hstops
  · simp only [not_exists] at hsalted
    rw [derive_not_salted hsalted, and_iff_right hsalted, or_iff_left]
    · exact ⟨fun h => (Except.error.inj h).symm,fun h => congrArg Except.error h.symm⟩
    · rintro ⟨d,u,i,hderives,-⟩
      exact hsalted d u i hderives.salted

theorem ask_stops_iff :
    (Purpose.ask w account keys).result = .error e ↔ Prompts w account keys ∧
      ((∀ d u i, ¬ Salted account d u i) ∧ e = .undefined ∨ ∃ d u i, DerivesFrom w account keys d u i ∧
        (Purpose.print w account (scryptCall w d u i account.length keys).2.toList).result = .error e) := by
  rw [← derive_stops_iff]
  unfold Purpose.ask Purpose.masterPassword
  split_ifs with hdomain hmalloc hend
  · exact iff_of_false (by simp) fun h => h.1.domain hdomain
  · refine iff_of_false (fails_returns _ e) ?_
    rintro ⟨hprompts,-⟩
    simp [hprompts.malloc] at hmalloc
  · exact iff_of_false (fails_returns _ e) fun h => h.1.typed hend
  · rw [and_iff_right ⟨hdomain,by simpa using hmalloc,hend⟩]

end Account

/-- The account that is determined, in the runs and in the purpose. -/
theorem exists_determined_iff (w : World) (argv : List ArgpEvent) {P : Account (Option CStr) → ℕ → Prop} :
    (∃ determined, (Purpose.accountOf w argv).result = .ok determined ∧ P determined.1 determined.2) ↔
      ∃ fuel account used, (mainAccount w fuel argv).result = .ok (account,used) ∧ P account used := by
  simp only [← (mainAccount_comesTo w argv).answers_iff]
  constructor
  · rintro ⟨⟨account,used⟩,⟨fuel,hfuel⟩,h⟩
    exact ⟨fuel,account,used,hfuel,h⟩
  · rintro ⟨fuel,account,used,hfuel,h⟩
    exact ⟨(account,used),⟨fuel,hfuel⟩,h⟩

/-- A run stops while the account is determined, or with it. -/
theorem main_stops_iff (w : World) (argv : List ArgpEvent) {e : Stop} :
    (Purpose.program w argv).result = .error e ↔ (Purpose.accountOf w argv).result = .error e ∨
      ∃ fuel account used, (mainAccount w fuel argv).result = .ok (account,used) ∧
        (Purpose.ask w account fun k => w.curses.getch (used + k)).result = .error e := by
  rw [Purpose.program, Run.bind_stops_iff, ← exists_determined_iff]

end Padre
