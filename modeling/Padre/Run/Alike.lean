import Padre.Run.Refines

/-! # What a run does not depend on

Two runs of the program are compared. Neither the memory nobody has written nor the way the
reads cut a file shows in a run, as long as no text ends in an open pattern; and of the line
typed at the prompt nothing shows but what the key derivation makes of it.
-/
namespace Padre
open CString Rows Trace

/-- No pattern of the text is read on behind its end. -/
def Settled (text : List UInt8) : Prop :=
  lastField (rest newline text) = [] ∨ (0 : UInt8) ∈ lastField (rest newline text)

/-- The database the options name, when they name one that can be opened, is settled. -/
def SettledDatabase (w : World) (options : CliOpts) : Prop :=
  options.username = none → ∀ {path chunks}, options.domainOrDatabase = some path →
    openStream w path = some chunks → Settled (delivered chunks)

/-- Two worlds that differ in the memory nobody has written and in how the reads cut a stream. -/
structure Alike (w w' : World) : Prop where
  malloc : w'.malloc = w.malloc
  scrypt : w'.scrypt = w.scrypt
  curses : w'.curses = w.curses
  streams : ∀ path, (openStream w' path).map delivered = (openStream w path).map delivered

section Memory
variable {w w' : World}

theorem storedAccounts_settled {text : List UInt8} (h : Settled text) (tail tail' : List UInt8) :
    storedAccounts text tail = storedAccounts text tail' := by
  unfold storedAccounts
  rw [(lastEntry_tail_iff _).mpr h tail tail']

theorem select_alike (h : Alike w w') (accounts : List (Account (Option CStr))) :
    Purpose.select w' accounts = Purpose.select w accounts := by
  match accounts with
  | [] => rfl
  | [_] => rfl
  | _ :: _ :: _ =>
    simp only [Purpose.select, Purpose.choose, h.curses]

theorem lookUp_alike (h : Alike w w') {text : List UInt8} (hsettled : Settled text) :
    Purpose.lookUp w' text = Purpose.lookUp w text := by
  simp only [Purpose.lookUp, select_alike h, storedAccounts_settled hsettled (Purpose.slack w' text.length)
    (Purpose.slack w text.length)]

theorem determine_alike (h : Alike w w') {options : CliOpts} (hsettled : SettledDatabase w options) :
    Purpose.determine w' options = Purpose.determine w options := by
  unfold Purpose.determine
  by_cases husername : options.username = none
  · simp only [if_pos husername]
    cases hpath : options.domainOrDatabase with
    | none => rfl
    | some path =>
      simp only [Run.deref_some, Run.pure_bind]
      have hstream := h.streams path
      cases hopen : openStream w path with
      | none =>
        rw [hopen, Option.map_none, Option.map_eq_none_iff] at hstream
        rw [hstream]
      | some chunks =>
        rw [hopen, Option.map_some, Option.map_eq_some_iff] at hstream
        obtain ⟨chunks',hopen',hsame⟩ := hstream
        simp only [hopen', hsame]
        exact lookUp_alike h (hsettled husername hpath hopen)
  · simp only [if_neg husername]

theorem ask_congr (hmalloc : w'.malloc = w.malloc) (hscrypt : w'.scrypt = w.scrypt)
    (account : Account (Option CStr)) (keys : ℕ → ℤ) :
    Purpose.ask w' account keys = Purpose.ask w account keys := by
  simp only [Purpose.ask, Purpose.derive, Purpose.print, Purpose.printOver, hmalloc, hscrypt]

theorem program_alike (h : Alike w w') {argv : List ArgpEvent}
    (hsettled : ∀ options, (cliParse argv).result = .ok options → SettledDatabase w options) :
    Purpose.program w' argv = Purpose.program w argv := by
  have haccount : Purpose.accountOf w' argv = Purpose.accountOf w argv := by
    apply Run.bind_congr
    intro options hoptions
    rw [← cliParse_eq] at hoptions
    exact determine_alike h (hsettled options hoptions)
  simp only [Purpose.program, haccount, ask_congr h.malloc h.scrypt, h.curses]

/-- Neither the memory nobody has written nor the reads that deliver a file show in a run. -/
theorem main_alike (h : Alike w w') {argv : List ArgpEvent}
    (hsettled : ∀ options, (cliParse argv).result = .ok options → SettledDatabase w options) :
    Run.SameOutcome Event.visible (fun fuel => main w fuel argv) (fun fuel => main w' fuel argv) := by
  have hmain' := main_comesTo w' argv
  rw [program_alike h hsettled] at hmain'
  exact (main_comesTo w argv).same hmain'

end Memory

/-- The row of `cutFile`, read at once. -/
def wholeFile : List Chunk := [⟨literal "a,b,0,8,c\n",by decide⟩]

/-- A world whose memory holds `b` wherever nobody has written. -/
def pieceWorld (file : List Chunk) (b : UInt8) : World :=
  { plainWorld [120,10] file 4 with uninit := fun _ _ => b }

theorem openStream_pieceWorld {file chunks : List Chunk} {b : UInt8} {path : CStr}
    (h : openStream (pieceWorld file b) path = some chunks) : chunks = [] ∨ chunks = file := by
  unfold openStream at h
  split_ifs at h
  · exact Or.inl (Option.some.inj h).symm
  · exact Or.inr (Option.some.inj h).symm

theorem pieceWorld_alike : Alike (pieceWorld wholeFile 7) (pieceWorld cutFile 9) := by
  refine ⟨rfl,rfl,rfl,?_⟩
  intro path
  unfold openStream
  split_ifs
  · rfl
  · exact congrArg some (by decide)

theorem main_alike_cut :
    Run.SameOutcome Event.visible
      (fun fuel => main (pieceWorld wholeFile 7) fuel [.keyArg (CStr.upto (literal "f"))])
      (fun fuel => main (pieceWorld cutFile 9) fuel [.keyArg (CStr.upto (literal "f"))]) := by
  refine main_alike pieceWorld_alike ?_
  intro options _ _ path chunks _ hopen
  rcases openStream_pieceWorld hopen with rfl | rfl
  · exact Or.inl (by decide)
  · exact Or.inl (by decide)

/-- The world in which the keys `getch` are typed. -/
def World.typing (w : World) (getch : ℕ → ℤ) : World := { w with curses := { w.curses with getch := getch } }

/-- The input ends at neither prompt, or at both, and the key derivation makes the same of the
two lines. -/
structure SameSecret (scrypt : Scrypt) (keys keys' : ℕ → ℤ) : Prop where
  ends : keys (promptLen keys) = EOF ↔ keys' (promptLen keys') = EOF
  derived : keys (promptLen keys) ≠ EOF → ∀ salt L,
    scrypt (typed keys 0 (promptLen keys)) salt MP_N MP_r MP_p L =
      scrypt (typed keys' 0 (promptLen keys')) salt MP_N MP_r MP_p L

section Typed
variable {w : World} {getch : ℕ → ℤ} {account : Account (Option CStr)} {used : ℕ}

theorem leavingKey_typing {g : ℕ → ℤ} {k : ℕ} (h : ∀ j < k + 1, getch j = g j) (hk : leavingKey g = some k) :
    leavingKey getch = some k := by
  obtain ⟨hleaves,hbefore⟩ := leavingKey_eq_some.mp hk
  refine leavingKey_eq_some.mpr ⟨?_,?_⟩
  · rw [h k (Nat.lt_succ_self k)]
    exact hleaves
  · intro j hj
    rw [h j (Nat.lt_succ_of_lt hj)]
    exact hbefore j hj

theorem cursor_typing {items k : ℕ} (h : ∀ j < k, getch j = w.curses.getch j) :
    cursor (w.typing getch).curses items k = cursor w.curses items k := by
  induction k with
  | zero => rfl
  | succ k ih =>
    have hkey : (w.typing getch).curses.getch k = w.curses.getch k := h k (Nat.lt_succ_self k)
    rw [cursor, cursor, hkey, ih fun j hj => h j (Nat.lt_succ_of_lt hj)]
    rfl

theorem choose_typing {accounts : List (Account (Option CStr))}
    (hchosen : (Purpose.choose w accounts).result = .ok (account,used))
    (h : ∀ j < used, getch j = w.curses.getch j) :
    Purpose.choose (w.typing getch) accounts = Purpose.choose w accounts := by
  unfold Purpose.choose at hchosen ⊢
  by_cases hpost : w.curses.postMenu (accounts.filterMap tuiItem) ≠ E_OK
  · have hpost' : (w.typing getch).curses.postMenu (accounts.filterMap tuiItem) ≠ E_OK := hpost
    rw [if_pos hpost, if_pos hpost']
    rfl
  · have hpost' : ¬ (w.typing getch).curses.postMenu (accounts.filterMap tuiItem) ≠ E_OK := hpost
    rw [if_neg hpost] at hchosen ⊢
    rw [if_neg hpost']
    cases hk : leavingKey w.curses.getch with
    | none =>
      rw [hk] at hchosen
      cases hchosen
    | some k =>
      rw [hk] at hchosen
      have hused : used = k + 1 := by
        dsimp only at hchosen
        split_ifs at hchosen
        · cases hchosen
          rfl
        · obtain ⟨a,-,ha⟩ := Run.bind_answers_iff.mp hchosen
          cases ha
          rfl
      subst hused
      have hkey : (w.typing getch).curses.getch k = w.curses.getch k := h k (Nat.lt_succ_self k)
      have hk' : leavingKey (w.typing getch).curses.getch = some k := leavingKey_typing h hk
      rw [hk']
      simp only [hkey, cursor_typing fun j hj => h j (Nat.lt_succ_of_lt hj)]

theorem select_typing {accounts : List (Account (Option CStr))}
    (hchosen : (Purpose.select w accounts).result = .ok (account,used))
    (h : ∀ j < used, getch j = w.curses.getch j) :
    Purpose.select (w.typing getch) accounts = Purpose.select w accounts := by
  match accounts with
  | [] => rfl
  | [_] => rfl
  | _ :: _ :: _ => exact choose_typing hchosen h

theorem lookUp_typing {text : List UInt8} (hchosen : (Purpose.lookUp w text).result = .ok (account,used))
    (h : ∀ j < used, getch j = w.curses.getch j) :
    Purpose.lookUp (w.typing getch) text = Purpose.lookUp w text := by
  have hslack : Purpose.slack (w.typing getch) text.length = Purpose.slack w text.length := rfl
  unfold Purpose.lookUp at hchosen ⊢
  rw [hslack]
  split_ifs at hchosen ⊢
  · rfl
  · rw [select_typing (by exact hchosen) h]

theorem determine_typing {options : CliOpts} (hchosen : (Purpose.determine w options).result = .ok (account,used))
    (h : ∀ j < used, getch j = w.curses.getch j) :
    Purpose.determine (w.typing getch) options = Purpose.determine w options := by
  have hopen (path : CStr) : openStream (w.typing getch) path = openStream w path := rfl
  unfold Purpose.determine at hchosen ⊢
  split_ifs at hchosen ⊢
  · obtain ⟨path,hpath,hfile⟩ := Run.bind_answers_iff.mp hchosen
    apply Run.bind_congr
    intro path' hpath'
    obtain rfl := Except.ok.inj (hpath.symm.trans hpath')
    rw [hopen]
    cases hchunks : openStream w path with
    | none => rfl
    | some chunks =>
      rw [hchunks] at hfile
      exact lookUp_typing hfile h
  · rfl

theorem derive_typing {master master' : List UInt8}
    (h : ∀ salt L, w.scrypt master salt MP_N MP_r MP_p L = w.scrypt master' salt MP_N MP_r MP_p L) :
    Purpose.derive (w.typing getch) account master' = Purpose.derive w account master := by
  unfold Purpose.derive
  simp only [h]
  rfl

theorem ask_typing {keys keys' : ℕ → ℤ} (h : SameSecret w.scrypt keys keys') :
    Purpose.ask (w.typing getch) account keys' = Purpose.ask w account keys := by
  unfold Purpose.ask Purpose.masterPassword
  by_cases hend : keys (promptLen keys) = EOF
  · rw [if_pos hend, if_pos (h.ends.mp hend)]
    rfl
  · rw [if_neg hend, if_neg (mt h.ends.mpr hend)]
    simp only [derive_typing (h.derived hend)]
    rfl

/-- Of the line that is typed nothing shows but what the key derivation makes of it. -/
theorem main_typed {fuel : ℕ} {argv : List ArgpEvent}
    (hchosen : (mainAccount w fuel argv).result = .ok (account,used))
    (hchoice : ∀ j < used, getch j = w.curses.getch j)
    (hsecret : SameSecret w.scrypt (fun k => w.curses.getch (used + k)) fun k => getch (used + k)) :
    Run.SameOutcome Event.visible (fun fuel => main w fuel argv) (fun fuel => main (w.typing getch) fuel argv) := by
  have haccount : (Purpose.accountOf w argv).result = .ok (account,used) :=
    (mainAccount_comesTo w argv).answers_iff.mp ⟨fuel,hchosen⟩
  have hsame : Purpose.accountOf (w.typing getch) argv = Purpose.accountOf w argv := by
    obtain ⟨options,hoptions,hdetermined⟩ := Run.bind_answers_iff.mp haccount
    apply Run.bind_congr
    intro options' hoptions'
    obtain rfl := Except.ok.inj (hoptions.symm.trans hoptions')
    exact determine_typing hdetermined hchoice
  have hprogram : Purpose.program (w.typing getch) argv = Purpose.program w argv := by
    unfold Purpose.program
    rw [hsame]
    apply Run.bind_congr
    intro determined hok
    obtain rfl := Except.ok.inj (haccount.symm.trans hok)
    exact ask_typing hsecret
  have hmain' := main_comesTo (w.typing getch) argv
  rw [hprogram] at hmain'
  exact (main_comesTo w argv).same hmain'

end Typed

theorem main_typed_short :
    Run.SameOutcome Event.visible
      (fun fuel => main (plainWorld [120,10] [] 4) fuel
        [.keyArg (CStr.upto (literal "a")),.keyArg (CStr.upto (literal "b"))])
      (fun fuel => main ((plainWorld [120,10] [] 4).typing fun k => [121,122,10].getD k EOF) fuel
        [.keyArg (CStr.upto (literal "a")),.keyArg (CStr.upto (literal "b"))]) := by
  refine main_typed (show (mainAccount _ 0 _).result = .ok (_,0) by rfl) (fun j hj => absurd hj (Nat.not_lt_zero j))
    ⟨?_,?_⟩
  · exact iff_of_false (by decide) (by decide)
  · intro _ _ _
    rfl

end Padre
