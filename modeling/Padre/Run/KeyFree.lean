import Padre.Model.Program

/-! # Runs that store no key

Only the prompt stores keys of the master password. Every other part of the program is
shown to leave them alone, function by function, whatever it does besides.
-/
namespace Padre
open CString Trace

/-- The event stores a key of the master password. -/
def Event.isKey : Event → Bool
  | .key _ _ => true
  | _ => false

abbrev KeyFree {α : Type} (run : Run Event α) : Prop := run.Emits fun e => e.isKey = false

theorem keyFree_parseOpt (argNum : ℕ) (options : CliOpts) (event : ArgpEvent) :
    KeyFree (parseOpt argNum options event) := by
  cases event with
  | c arg => exact .pure _
  | l arg =>
    unfold parseOpt
    dsimp only
    split
    · exact .bind (.emit rfl) fun _ _ => .pure _
    · exact .pure _
  | i arg => exact .pure _
  | keyArg arg =>
    rcases argNum with _ | _ | argNum
    · exact .pure _
    · exact .pure _
    · exact .bind (.emit rfl) fun _ _ => .stop _
  | keyEnd =>
    unfold parseOpt
    dsimp only
    split
    · exact .bind (.emit rfl) fun _ _ => .stop _
    · exact .pure _
  | other => exact .pure _

theorem keyFree_argpParse (argNum : ℕ) (options : CliOpts) (events : List ArgpEvent) :
    KeyFree (argpParse argNum options events) := by
  induction events generalizing argNum options with
  | nil => exact keyFree_parseOpt _ _ _
  | cons event events ih =>
    refine .bind (keyFree_parseOpt _ _ _) ?_
    intro r _
    split
    · exact ih _ _
    · exact .pure _

theorem keyFree_cliParse (argv : List ArgpEvent) : KeyFree (cliParse argv) :=
  .bind (keyFree_argpParse _ _ _) fun _ _ => .pure _

theorem keyFree_readLoop (uninit : ℕ → UInt8) (data : List UInt8) (size capacity : ℕ)
    (chunks : List Chunk) : KeyFree (readLoop uninit data size capacity chunks) := by
  induction chunks generalizing data size capacity with
  | nil => exact .pure _
  | cons chunk chunks ih =>
    unfold readLoop
    split
    · exact .pure _
    · dsimp only
      split
      · split
        · exact .bind (.emit rfl) fun _ _ => .pure _
        · exact ih _ _ _
      · exact ih _ _ _

theorem keyFree_readEntireFile (w : World) (path : Option CStr) : KeyFree (readEntireFile w path) := by
  refine .bind (.deref _) ?_
  intro path _
  split
  · exact .bind (.emit rfl) fun _ _ => .pure _
  · exact keyFree_readLoop _ _ _ _ _

theorem keyFree_tuiShowMenu (curses : Curses) (fuel : ℕ) (items : List TuiItem) :
    KeyFree (tuiShowMenu curses fuel items) := by
  unfold tuiShowMenu
  dsimp only
  split
  · exact .bind (.emit rfl) fun _ _ => .pure _
  · exact .ofFuel _

theorem keyFree_accountFromList (w : World) (fuel : ℕ) (accounts : List (Account (Option CStr))) :
    KeyFree (accountFromList w fuel accounts) := by
  unfold accountFromList
  split
  · exact .bind (.emit rfl) fun _ _ => .pure _
  · exact .bind (.emit rfl) fun _ _ => .pure _
  · refine .bind (.deref _) fun items _ => .bind (keyFree_tuiShowMenu _ _ _) ?_
    intro selected _
    split
    · exact .bind (.deref _) fun _ _ => .pure _
    · exact .pure _

theorem keyFree_determineAccount (w : World) (fuel : ℕ) (options : CliOpts) :
    KeyFree (determineAccount w fuel options) := by
  unfold determineAccount
  split
  · refine .bind (.emit rfl) fun _ _ => .bind (keyFree_readEntireFile _ _) ?_
    intro buf _
    split
    · exact .pure _
    · refine .bind (.emits ?_) fun _ _ => keyFree_accountFromList _ _ _
      intro e he
      obtain ⟨d,-,rfl⟩ := List.mem_map.mp he
      rfl
  · exact .pure _

theorem keyFree_mainAccount (w : World) (fuel : ℕ) (argv : List ArgpEvent) :
    KeyFree (mainAccount w fuel argv) :=
  .bind (keyFree_cliParse _) fun _ _ => .bind (.emit rfl) fun _ _ => keyFree_determineAccount _ _ _

theorem keyFree_deriveAndClear (w : World) (account : Account (Option CStr)) (asked : Asked) :
    KeyFree (deriveAndClear w account asked) := by
  refine .bind (.deref _) fun domain _ => .bind (.deref _) fun username _ =>
    .bind (.deref _) fun iteration _ => ?_
  refine .bind (.emits ?_) fun _ _ => .bind (.emits ?_) fun _ _ => .pure _
  · intro e he
    obtain ⟨text,-,rfl⟩ := List.mem_map.mp he
    rfl
  · intro e he
    obtain ⟨i,-,rfl⟩ := List.mem_map.mp he
    rfl

theorem keyFree_charsetSpec (characters : Option (Option CStr)) : KeyFree (charsetSpec characters) := by
  unfold charsetSpec
  split
  · exact .pure _
  · exact .stop _
  · exact .pure _

theorem keyFree_printPassword (w : World) (fuel : ℕ) (account : Account (Option CStr))
    (password : List UInt8) : KeyFree (printPassword w fuel account password) := by
  refine .bind (keyFree_charsetSpec _) fun spec _ => .bind (.ofFuel _) fun r _ =>
    .bind (.emits fun e he => ?_) fun _ _ => ?_
  · obtain ⟨text,-,rfl⟩ := List.mem_map.mp he
    rfl
  · split
    · exact .bind (.emit rfl) fun _ _ => .pure _
    · exact .bind (.deref _) fun _ _ => .bind (.deref _) fun _ _ => .bind (.deref _) fun _ _ =>
        .bind (.deref _) fun _ _ => .bind (.emit rfl) fun _ _ => .pure _

theorem keyFree_afterPrompt (w : World) (fuel : ℕ) (account : Account (Option CStr)) (asked : Asked) :
    KeyFree (afterPrompt w fuel account asked) := by
  refine .bind (keyFree_deriveAndClear _ _ _) ?_
  intro derived _
  split
  · exact .bind (.emit rfl) fun _ _ => .pure _
  · exact keyFree_printPassword _ _ _ _

end Padre
