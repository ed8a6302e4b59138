import Padre.General.Monitor
import Padre.Run.TypedLine

/-! # The order of a run

`main` goes through phases: the options, the account, the prompt, which stores one key behind
the other and terminates them, the `memset`, which goes over the array from its start to its
end, and the line that is printed, behind which nothing happens any more. How a run can end
depends on the phase it is in.
-/
namespace Padre
open CString Trace

inductive Phase where
  | options
  | account
  | database
  | prompt (stored : ℕ)
  | asked
  | clearing (zeros : ℕ)
  | printed
deriving DecidableEq

namespace Phase

/-- The phase behind an event, when the event is in order. -/
def step : Phase → Event → Option Phase
  | .options, .stderr _ => some .options
  | .options, .determineAccount _ => some .account
  | .account, .readEntireFile _ => some .database
  | .account, .perror _ => some .account
  | .account, .key i _ => if i = 0 then some (.prompt 1) else none
  | .account, .zero i => if i = 0 then some .asked else none
  | .database, .openFailed _ => some .database
  | .database, .stderr _ => some .database
  | .database, .perror _ => some .database
  | .database, .key i _ => if i = 0 then some (.prompt 1) else none
  | .database, .zero i => if i = 0 then some .asked else none
  | .prompt n, .key i _ => if i = n ∧ n < MAX_MASTER_PASSWORD_LENGTH then some (.prompt (n + 1)) else none
  | .prompt n, .zero i => if i = n then some .asked else none
  | .asked, .perror _ => some .asked
  | .asked, .zero i => if i = 0 then some (.clearing 1) else none
  | .clearing n, .zero i => if i = n ∧ n < MAX_MASTER_PASSWORD_LENGTH then some (.clearing (n + 1)) else none
  | .clearing n, .perror _ => if n = MAX_MASTER_PASSWORD_LENGTH then some (.clearing n) else none
  | .clearing n, .stdout _ => if n = MAX_MASTER_PASSWORD_LENGTH then some .printed else none
  | _, _ => none

/-- The ways a run can stop in a phase without a status of `main`. -/
def Stops (e : Stop) : Phase → Prop
  | .options => e = .exits EX_USAGE
  | .database => e = .undefined ∨ e = .unfinished
  | .asked => e = .undefined
  | .clearing n => n = MAX_MASTER_PASSWORD_LENGTH ∧ (e = .undefined ∨ e = .unfinished)
  | _ => False

/-- The status `main` returns in a phase. -/
def Returns (status : ℕ) : Phase → Prop
  | .account => status = EXIT_FAILURE
  | .database => status = EXIT_FAILURE
  | .asked => status = EXIT_FAILURE
  | .clearing n => n = MAX_MASTER_PASSWORD_LENGTH ∧ status = EXIT_FAILURE
  | .printed => status = EXIT_SUCCESS
  | _ => False

/-- The account is known or being looked up. -/
def Choosing (p : Phase) : Prop := p = .account ∨ p = .database

/-- The account is not known yet, or the prompt is not opened yet. -/
def Early (p : Phase) : Prop := p = .options ∨ p.Choosing

/-- The phase behind `n` keys of a prompt that is opened in the phase `p`. -/
def behindKeys (p : Phase) : ℕ → Phase
  | 0 => p
  | n + 1 => .prompt (n + 1)

/-- The phase behind `n` zeros of the `memset`. -/
def behindZeros : ℕ → Phase
  | 0 => .asked
  | n + 1 => .clearing (n + 1)

end Phase

/-- A run in order from phase `p` on. -/
abbrev InOrder {α : Type} (p : Phase) (x : Run Event α) (post : α → Phase → Prop) : Prop :=
  x.Follows Phase.step Phase.Stops p post

/-- A run in order from phase `p` on that stops early if it stops. -/
abbrev LooksUp {α : Type} (p : Phase) (x : Run Event α) (post : α → Phase → Prop) : Prop :=
  x.Follows Phase.step (fun e q => q.Stops e ∧ q.Early) p post

section Options
variable {argNum : ℕ} {options : CliOpts}

theorem parseOpt_looksUp (argNum : ℕ) (options : CliOpts) (event : ArgpEvent) :
    LooksUp .options (parseOpt argNum options event) fun _ p => p = .options := by
  unfold parseOpt
  split
  · exact .pure rfl
  · dsimp only
    split
    · exact .emit rfl (.pure rfl)
    · exact .pure rfl
  · exact .pure rfl
  · split
    · exact .pure rfl
    · exact .pure rfl
    · exact .emit rfl (.stop ⟨rfl,Or.inl rfl⟩)
  · split
    · exact .emit rfl (.stop ⟨rfl,Or.inl rfl⟩)
    · exact .pure rfl
  · exact .pure rfl

theorem argpParse_looksUp (argNum : ℕ) (options : CliOpts) (events : List ArgpEvent) :
    LooksUp .options (argpParse argNum options events) fun _ p => p = .options := by
  induction events generalizing argNum options with
  | nil => exact parseOpt_looksUp argNum options .keyEnd
  | cons event events ih =>
    refine .bind (parseOpt_looksUp argNum options event) ?_
    rintro r _ rfl
    split
    · exact ih _ _
    · exact .pure rfl

theorem cliParse_looksUp (argv : List ArgpEvent) :
    LooksUp .options (cliParse argv) fun _ p => p = .options :=
  .bind (argpParse_looksUp 0 ⟨none,none,none,none,0⟩ argv) fun _ _ hp => .pure hp

end Options

section Determine
variable {w : World} {fuel : ℕ}

theorem readLoop_looksUp (uninit : ℕ → UInt8) (data : List UInt8) (size capacity : ℕ) (chunks : List Chunk) :
    LooksUp .database (readLoop uninit data size capacity chunks) fun _ p => p = .database := by
  induction chunks generalizing data size capacity with
  | nil => exact .pure rfl
  | cons chunk chunks ih =>
    unfold readLoop
    dsimp only
    split_ifs
    · exact .pure rfl
    · exact .emit rfl (.pure rfl)
    · exact ih _ _ _
    · exact ih _ _ _

theorem readEntireFile_looksUp (w : World) (path : Option CStr) :
    LooksUp .database (readEntireFile w path) fun _ p => p = .database := by
  refine .bind (.deref (fun _ _ => rfl) fun _ => ⟨Or.inl rfl,Or.inr (Or.inr rfl)⟩) ?_
  rintro path _ rfl
  split
  · exact .emit rfl (.pure rfl)
  · exact readLoop_looksUp _ _ _ _ _

theorem tuiShowMenu_looksUp (curses : Curses) (fuel : ℕ) (items : List TuiItem) :
    LooksUp .database (tuiShowMenu curses fuel items) fun _ p => p = .database := by
  unfold tuiShowMenu
  dsimp only
  split
  · exact .emit rfl (.pure rfl)
  · exact .ofFuel (fun _ _ => rfl) fun _ => ⟨Or.inr rfl,Or.inr (Or.inr rfl)⟩

theorem selectAccount_looksUp (accounts : List (Account (Option CStr))) :
    LooksUp .database (selectAccount w fuel accounts) fun _ p => p = .database := by
  refine .bind (.deref (fun _ _ => rfl) fun _ => ⟨Or.inl rfl,Or.inr (Or.inr rfl)⟩) ?_
  rintro items _ rfl
  refine .bind (tuiShowMenu_looksUp w.curses fuel items) ?_
  rintro selected _ rfl
  split
  · refine .bind (.deref (fun _ _ => rfl) fun _ => ⟨Or.inl rfl,Or.inr (Or.inr rfl)⟩) ?_
    rintro account _ rfl
    exact .pure rfl
  · exact .pure rfl

theorem accountFromList_looksUp (accounts : List (Account (Option CStr))) :
    LooksUp .database (accountFromList w fuel accounts) fun _ p => p = .database := by
  unfold accountFromList
  split
  · exact .emit rfl (.pure rfl)
  · exact .emit rfl (.pure rfl)
  · exact selectAccount_looksUp accounts

theorem watch_messages (messages : List Diagnostic) :
    (messages.map fun d => Event.stderr d.text).foldlM Phase.step .database = some .database := by
  apply watch_stays
  intro e he
  obtain ⟨d,-,rfl⟩ := List.mem_map.mp he
  rfl

theorem determineAccount_looksUp (w : World) (fuel : ℕ) (options : CliOpts) :
    LooksUp .account (determineAccount w fuel options) fun _ p => p.Choosing := by
  unfold determineAccount
  split
  · refine .emit rfl (.bind (readEntireFile_looksUp w _) ?_)
    rintro buf _ rfl
    split
    · exact .pure (Or.inr rfl)
    · refine .emits (watch_messages _) (.weaken (accountFromList_looksUp _) ?_)
      intro _ _ hp
      exact Or.inr hp
  · exact .pure (Or.inl rfl)

theorem mainAccount_looksUp (w : World) (fuel : ℕ) (argv : List ArgpEvent) :
    LooksUp .options (mainAccount w fuel argv) fun _ p => p.Choosing := by
  refine .bind (cliParse_looksUp argv) ?_
  rintro options _ rfl
  exact .emit rfl (determineAccount_looksUp w fuel options)

end Determine

section Derive
variable {w : World} {fuel : ℕ} {account : Account (Option CStr)}

theorem watch_perrors {p : Phase} (hp : ∀ text, p.step (.perror text) = some p) (texts : List String) :
    (texts.map Event.perror).foldlM Phase.step p = some p := by
  apply watch_stays
  intro e he
  obtain ⟨text,-,rfl⟩ := List.mem_map.mp he
  exact hp text

/-- The `memset` goes over the array in order. -/
theorem watch_zeros :
    ((List.range MAX_MASTER_PASSWORD_LENGTH).map Event.zero).foldlM Phase.step .asked =
      some (.clearing MAX_MASTER_PASSWORD_LENGTH) := by
  have hstep (i : ℕ) (hi : i < MAX_MASTER_PASSWORD_LENGTH) :
      (Phase.behindZeros i).step (.zero i) = some (Phase.behindZeros (i + 1)) := by
    cases i with
    | zero => rfl
    | succ i => exact if_pos ⟨rfl,hi⟩
  have hzeros := watch_orbit Phase.behindZeros Event.zero (n := 0) (m := MAX_MASTER_PASSWORD_LENGTH)
    fun i _ hi => hstep i (by rwa [Nat.zero_add] at hi)
  rw [List.range_eq_range']
  exact hzeros

theorem printPassword_inOrder (w : World) (fuel : ℕ) (account : Account (Option CStr)) (password : List UInt8) :
    InOrder (.clearing MAX_MASTER_PASSWORD_LENGTH) (printPassword w fuel account password) Phase.Returns := by
  have hspec : InOrder (.clearing MAX_MASTER_PASSWORD_LENGTH) (charsetSpec account.characters)
      fun _ p => p = .clearing MAX_MASTER_PASSWORD_LENGTH := by
    unfold charsetSpec
    split
    · exact .pure rfl
    · exact .stop ⟨rfl,Or.inl rfl⟩
    · exact .pure rfl
  refine .bind hspec ?_
  rintro spec _ rfl
  refine .bind (.ofFuel (fun _ _ => rfl) fun _ => ⟨rfl,Or.inr rfl⟩) ?_
  rintro r _ rfl
  refine .emits (watch_perrors (fun _ => rfl) _) ?_
  split
  · exact .emit rfl (.pure ⟨rfl,rfl⟩)
  · refine .bind (.deref (fun _ _ => rfl) fun _ => ⟨rfl,Or.inl rfl⟩) ?_
    rintro chars _ rfl
    refine .bind (.deref (fun _ _ => rfl) fun _ => ⟨rfl,Or.inl rfl⟩) ?_
    rintro len _ rfl
    refine .bind (.deref (fun _ _ => rfl) fun _ => ⟨rfl,Or.inl rfl⟩) ?_
    rintro converted _ rfl
    refine .bind (.deref (fun _ _ => rfl) fun _ => ⟨rfl,Or.inl rfl⟩) ?_
    rintro line _ rfl
    exact .emit rfl (.pure rfl)

theorem deriveAndClear_inOrder (w : World) (account : Account (Option CStr)) (asked : Asked) :
    InOrder .asked (deriveAndClear w account asked) fun _ p => p = .clearing MAX_MASTER_PASSWORD_LENGTH := by
  refine .bind (.deref (fun _ _ => rfl) fun _ => rfl) ?_
  rintro domain _ rfl
  refine .bind (.deref (fun _ _ => rfl) fun _ => rfl) ?_
  rintro username _ rfl
  refine .bind (.deref (fun _ _ => rfl) fun _ => rfl) ?_
  rintro iteration _ rfl
  exact .emits (watch_perrors (fun _ => rfl) _) (.emits watch_zeros (.pure rfl))

theorem afterPrompt_inOrder (w : World) (fuel : ℕ) (account : Account (Option CStr)) (asked : Asked) :
    InOrder .asked (afterPrompt w fuel account asked) Phase.Returns := by
  refine .bind (deriveAndClear_inOrder w account asked) ?_
  rintro derived _ rfl
  split
  · exact .emit rfl (.pure ⟨rfl,rfl⟩)
  · exact printPassword_inOrder w fuel account derived.buf

end Derive

section Prompt
variable {w : World} {p : Phase}

theorem step_key (hp : p.Choosing) (n : ℕ) (hn : n < MAX_MASTER_PASSWORD_LENGTH) (c : UInt8) :
    (p.behindKeys n).step (.key n c) = some (p.behindKeys (n + 1)) := by
  cases n with
  | zero =>
    rcases hp with rfl | rfl
    · rfl
    · rfl
  | succ n => exact if_pos ⟨rfl,hn⟩

theorem step_terminator (hp : p.Choosing) (n : ℕ) : (p.behindKeys n).step (.zero n) = some .asked := by
  cases n with
  | zero =>
    rcases hp with rfl | rfl
    · rfl
    · rfl
  | succ n => exact if_pos rfl

/-- The keys come one behind the other, and the terminator behind the last. -/
theorem tuiAskPassword_inOrder (hp : p.Choosing) (keys : ℕ → ℤ) {passwd : List UInt8}
    (hlen : MAX_MASTER_PASSWORD_LENGTH ≤ passwd.length) :
    InOrder p (tuiAskPassword keys passwd MAX_MASTER_PASSWORD_LENGTH) fun _ q => q = .asked := by
  have hstored (i : ℕ) (hi : i < 0 + promptLen keys) : i < MAX_MASTER_PASSWORD_LENGTH := by
    rw [Nat.zero_add] at hi
    exact hi.trans_le (storedKeys_le keys 0 MAX_MASTER_PASSWORD_LENGTH)
  have hkeys := watch_orbit p.behindKeys (fun i => Event.key i (charOf (keys i))) (n := 0) (m := promptLen keys)
    fun i _ hi => step_key hp i (hstored i hi) _
  rw [Nat.zero_add] at hkeys
  rw [tuiAskPassword_eq keys hlen]
  refine ⟨.asked,watch_append.mpr ⟨_,hkeys,?_⟩,fun _ _ => rfl,?_⟩
  · rw [List.foldlM_cons, step_terminator hp]
    rfl
  · rintro _ ⟨⟩

theorem step_perror (hp : p.Choosing) (text : String) : p.step (.perror text) = some p := by
  rcases hp with rfl | rfl
  · rfl
  · rfl

theorem returns_failure (hp : p.Choosing) : p.Returns EXIT_FAILURE := by
  rcases hp with rfl | rfl
  · rfl
  · rfl

theorem mainWith_inOrder (hp : p.Choosing) (w : World) (fuel : ℕ) (account : Account (Option CStr)) (keys : ℕ → ℤ) :
    InOrder p (mainWith w fuel account keys) Phase.Returns := by
  unfold mainWith
  split_ifs
  · exact .pure (returns_failure hp)
  · exact .emit (step_perror hp _) (.pure (returns_failure hp))
  · refine .bind (tuiAskPassword_inOrder hp keys (length_fresh _ _ _).ge) ?_
    rintro asked _ rfl
    split
    · exact .emit rfl (.pure rfl)
    · exact afterPrompt_inOrder w fuel account asked

end Prompt

theorem main_inOrder (w : World) (fuel : ℕ) (argv : List ArgpEvent) :
    InOrder .options (main w fuel argv) Phase.Returns := by
  refine .bind ((mainAccount_looksUp w fuel argv).mono fun _ _ h => h.1) ?_
  intro determined p hp
  exact mainWith_inOrder hp w fuel determined.1 _

/-- No event of an early phase writes to `master_pwd` or prints. -/
theorem step_early {p q : Phase} {e : Event} (h : p.step e = some q) (hq : q.Early) :
    p.Early ∧ e.place = none ∧ ∀ line, e ≠ .stdout line := by
  unfold Phase.step at h
  split at h
  all_goals try split_ifs at h
  all_goals simp_all [Phase.Early, Phase.Choosing, Event.place]
  all_goals simp [← h] at hq

theorem watch_early {trace : List Event} {p q : Phase} (h : trace.foldlM Phase.step p = some q) (hq : q.Early) :
    p.Early ∧ ∀ e ∈ trace, e.place = none ∧ ∀ line, e ≠ .stdout line := by
  induction trace generalizing p with
  | nil =>
    cases h
    exact ⟨hq,fun _ he => absurd he List.not_mem_nil⟩
  | cons e trace ih =>
    rw [List.foldlM_cons, Option.bind_eq_bind, Option.bind_eq_some_iff] at h
    obtain ⟨r,hstep,hrest⟩ := h
    obtain ⟨hr,hevents⟩ := ih hrest
    obtain ⟨hp,hevent⟩ := step_early hstep hr
    exact ⟨hp,List.forall_mem_cons.mpr ⟨hevent,hevents⟩⟩

/-- Until the account is known nothing is stored and nothing is printed. -/
theorem mainAccount_early (w : World) (fuel : ℕ) (argv : List ArgpEvent) :
    ∀ e ∈ (mainAccount w fuel argv).trace, e.place = none ∧ ∀ line, e ≠ .stdout line := by
  obtain ⟨p,hwatch,hreturns,hstops⟩ := mainAccount_looksUp w fuel argv
  refine (watch_early hwatch ?_).2
  cases hresult : (mainAccount w fuel argv).result with
  | ok determined => exact Or.inr (hreturns determined hresult)
  | error e => exact (hstops e hresult).2

/-- Every run of `main` is in order, and the phase it is left in says how it ends. -/
theorem main_phases (w : World) (fuel : ℕ) (argv : List ArgpEvent) :
    ∃ p, (main w fuel argv).trace.foldlM Phase.step .options = some p ∧
      (∀ status, (main w fuel argv).result = .ok status → p.Returns status) ∧
      ∀ e, (main w fuel argv).result = .error e → p.Stops e :=
  main_inOrder w fuel argv

/-- `master_pwd` behind an event; the terminator of a full line falls behind the array. -/
def storeMasterPwd (mem : List UInt8) : Event → List UInt8
  | .key i c => mem.set i c
  | .zero i => mem.set i 0
  | _ => mem

/-- `master_pwd` behind the events `trace`. -/
def masterPwdAfter (w : World) (trace : List Event) : List UInt8 :=
  trace.foldl storeMasterPwd (fresh (w.uninit .masterPwd) 0 MAX_MASTER_PASSWORD_LENGTH)

/-- In the `memset` the bytes in front of the next one are zero. -/
structure Zeroed (p : Phase) (mem : List UInt8) : Prop where
  length : mem.length = MAX_MASTER_PASSWORD_LENGTH
  zero : ∀ n, p = .clearing n → ∀ i < n, mem[i]? = some 0

theorem length_storeMasterPwd (mem : List UInt8) (e : Event) : (storeMasterPwd mem e).length = mem.length := by
  cases e with
  | key i c => exact List.length_set
  | zero i => exact List.length_set
  | _ => rfl

/-- Only a zero of the `memset` and a message behind it lead to its phases. -/
theorem step_clearing {p : Phase} {e : Event} {n : ℕ} (h : p.step e = some (.clearing n)) :
    (p = .asked ∧ e = .zero 0 ∧ n = 1) ∨
    (∃ m < MAX_MASTER_PASSWORD_LENGTH, p = .clearing m ∧ e = .zero m ∧ n = m + 1) ∨
    ∃ text, p = .clearing n ∧ e = .perror text := by
  unfold Phase.step at h
  split at h
  all_goals try split_ifs at h
  all_goals simp_all

theorem step_stdout {p q : Phase} {line : List UInt8} (h : p.step (.stdout line) = some q) :
    p = .clearing MAX_MASTER_PASSWORD_LENGTH ∧ q = .printed := by
  cases p with
  | clearing n =>
    simp only [Phase.step, Option.ite_none_right_eq_some, Option.some.injEq] at h
    exact ⟨congrArg Phase.clearing h.1,h.2.symm⟩
  | _ => cases h

theorem step_printed (e : Event) : Phase.printed.step e = none := by
  cases e with
  | _ => rfl

/-- Nothing is done behind the line. -/
theorem watch_printed {trace after : List Event} {p q : Phase} {line : List UInt8}
    (h : (trace ++ .stdout line :: after).foldlM Phase.step p = some q) :
    trace.foldlM Phase.step p = some (.clearing MAX_MASTER_PASSWORD_LENGTH) ∧ after = [] ∧ q = .printed := by
  obtain ⟨r,hbefore,hrest⟩ := watch_append.mp h
  rw [List.foldlM_cons, Option.bind_eq_bind, Option.bind_eq_some_iff] at hrest
  obtain ⟨s,hline,hafter⟩ := hrest
  obtain ⟨rfl,rfl⟩ := step_stdout hline
  cases after with
  | nil => exact ⟨hbefore,rfl,(Option.some.inj hafter).symm⟩
  | cons e after =>
    rw [List.foldlM_cons, step_printed] at hafter
    cases hafter

/-- A run that prints returns. -/
theorem main_of_printed {w : World} {fuel : ℕ} {argv : List ArgpEvent} {before after : List Event}
    {line : List UInt8} (h : (main w fuel argv).trace = before ++ .stdout line :: after) :
    before.foldlM Phase.step .options = some (.clearing MAX_MASTER_PASSWORD_LENGTH) ∧ after = [] ∧
      (main w fuel argv).result = .ok EXIT_SUCCESS := by
  obtain ⟨p,hwatch,hreturns,hstops⟩ := main_inOrder w fuel argv
  rw [h] at hwatch
  obtain ⟨hbefore,hafter,rfl⟩ := watch_printed hwatch
  refine ⟨hbefore,hafter,?_⟩
  cases hresult : (main w fuel argv).result with
  | ok status => exact congrArg Except.ok (hreturns status hresult)
  | error e => exact (hstops e hresult).elim

theorem Zeroed.step {p q : Phase} {mem : List UInt8} {e : Event} (h : Zeroed p mem) (hstep : p.step e = some q) :
    Zeroed q (storeMasterPwd mem e) := by
  refine ⟨(length_storeMasterPwd mem e).trans h.length,?_⟩
  rintro n rfl i hi
  rcases step_clearing hstep with ⟨rfl,rfl,rfl⟩ | ⟨m,hm,rfl,rfl,rfl⟩ | ⟨text,rfl,rfl⟩
  · obtain rfl := Nat.lt_one_iff.mp hi
    exact List.getElem?_set_self (h.length ▸ by decide)
  · rcases Nat.lt_succ_iff_lt_or_eq.mp hi with hlt | rfl
    · rw [storeMasterPwd, List.getElem?_set_ne hlt.ne']
      exact h.zero m rfl i hlt
    · exact List.getElem?_set_self (h.length ▸ hm)
  · exact h.zero n rfl i hi

theorem zeroed_after (w : World) {trace : List Event} {p : Phase}
    (h : trace.foldlM Phase.step .options = some p) : Zeroed p (masterPwdAfter w trace) := by
  refine watch_invariant storeMasterPwd Zeroed (fun _ _ _ _ => Zeroed.step) ⟨length_fresh _ _ _,?_⟩ h
  rintro n ⟨⟩

/-- When the password is printed `master_pwd` is zero, and nothing is done any more. -/
theorem main_prints_cleared {w : World} {fuel : ℕ} {argv : List ArgpEvent} {before after : List Event}
    {line : List UInt8} (h : (main w fuel argv).trace = before ++ .stdout line :: after) :
    masterPwdAfter w before = List.replicate MAX_MASTER_PASSWORD_LENGTH 0 ∧ after = [] ∧
      (main w fuel argv).result = .ok EXIT_SUCCESS := by
  obtain ⟨hbefore,hafter,hresult⟩ := main_of_printed h
  obtain ⟨hlength,hzero⟩ := zeroed_after w hbefore
  refine ⟨?_,hafter,hresult⟩
  apply List.eq_replicate_iff.mpr
  refine ⟨hlength,?_⟩
  intro b hb
  obtain ⟨i,hi,rfl⟩ := List.getElem_of_mem hb
  have hz := hzero _ rfl i (hlength ▸ hi)
  rw [List.getElem?_eq_getElem hi] at hz
  exact Option.some.inj hz

/-- What a run over one key, `a-c` and two characters does in front of its line. -/
def shortRun : List Event :=
  [.determineAccount ⟨some (CStr.upto (literal "a")),some (CStr.upto (literal "b")),none,
      some (CStr.upto (literal "a-c")),2⟩,.key 0 120,.zero 1] ++
    (List.range MAX_MASTER_PASSWORD_LENGTH).map .zero

theorem main_prints_cleared_short :
    masterPwdAfter (plainWorld [120,10] [] 4) shortRun = List.replicate MAX_MASTER_PASSWORD_LENGTH 0 ∧
      ([] : List Event) = [] ∧
      (main (plainWorld [120,10] [] 4) 5 [.c (CStr.upto (literal "a-c")),.l (CStr.upto (literal "2")),
        .keyArg (CStr.upto (literal "a")),.keyArg (CStr.upto (literal "b"))]).result = .ok EXIT_SUCCESS :=
  main_prints_cleared (show _ = shortRun ++ .stdout [98,98,10] :: [] by decide)

end Padre
