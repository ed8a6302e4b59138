import Padre.CommandLine.Options

/-! # What a command line means

The calls of `parse_opt` are answered one after the other up to the first faulty one: a
length that is not positive, a third positional argument, or the end of the arguments
behind no positional one. The options are those of the calls in front of it.
-/
namespace Padre
open CString Trace

/-- `parse_opt` fails on the call or does not return, behind `n` positional arguments. -/
def ArgpEvent.faulty (n : ℕ) : ArgpEvent → Bool
  | .l arg => decide (atoi arg.bytes ≤ 0)
  | .keyArg _ => decide (2 ≤ n)
  | .keyEnd => decide (n = 0)
  | _ => false

/-- The calls in front of the first faulty one. -/
def soundCalls (n : ℕ) : List ArgpEvent → List ArgpEvent
  | [] => []
  | event :: events => if event.faulty n then [] else event :: soundCalls (nextArgNum n event) events

/-- The first faulty call; the end of the arguments is the last call. -/
def firstFault (n : ℕ) : List ArgpEvent → Option ArgpEvent
  | [] => if n = 0 then some .keyEnd else none
  | event :: events => if event.faulty n then some event else firstFault (nextArgNum n event) events

/-- The options that the calls `events` behind those in `done` lead to, or the exit. -/
def commandLine (done events : List ArgpEvent) : Run Event CliOpts :=
  match firstFault (positionals done).length events with
  | none => pure (optionsOf (done ++ events))
  | some (.l _) => do
    Run.emit (.stderr "Error: the length of the derived password may not be negative or zero\n")
    pure (optionsOf (done ++ soundCalls (positionals done).length events))
  | some (.keyArg _) => do
    Run.emit (.stderr "Error: too many arguments\n")
    Run.stop (.exits EX_USAGE)
  | some _ => do
    Run.emit (.stderr "Error: missing required argument(s)\n")
    Run.stop (.exits EX_USAGE)

section Parse
variable {done : List ArgpEvent} {event : ArgpEvent}

theorem nextArgNum_positionals (done : List ArgpEvent) (event : ArgpEvent) :
    nextArgNum (positionals done).length event = (positionals (done ++ [event])).length := by
  rw [positionals_snoc, List.length_append]
  cases event <;> rfl

/-- A call that is not faulty leaves at most two positional arguments behind it. -/
theorem positionals_le_two (htwo : (positionals done).length ≤ 2)
    (h : event.faulty (positionals done).length = false) : (positionals (done ++ [event])).length ≤ 2 := by
  rw [← nextArgNum_positionals]
  cases event with
  | keyArg arg =>
    have hlt : (positionals done).length < 2 := by simpa [ArgpEvent.faulty] using h
    exact hlt
  | _ => exact htwo

theorem parseOpt_sound (htwo : (positionals done).length ≤ 2)
    (h : event.faulty (positionals done).length = false) :
    ∃ ret, (ret = 0 ∨ ret = ARGP_ERR_UNKNOWN) ∧
      parseOpt (positionals done).length (optionsOf done) event = pure (ret,optionsOf (done ++ [event])) := by
  have hroom := positionals_le_two htwo h
  cases event with
  | keyEnd =>
    have hsome : ¬ (positionals done).length < 1 := by simpa [ArgpEvent.faulty] using h
    refine ⟨0,Or.inl rfl,?_⟩
    rw [optionsOf_snoc, parseOpt, if_neg hsome]
    simp [optionsOf]
  | l arg =>
    have hpos : 0 < atoi arg.bytes := by simpa [ArgpEvent.faulty] using h
    exact parseOpt_accepted hpos hroom
  | _ => exact parseOpt_accepted trivial hroom

theorem commandLine_sound (h : event.faulty (positionals done).length = false) (events : List ArgpEvent) :
    commandLine done (event :: events) = commandLine (done ++ [event]) events := by
  simp only [commandLine, firstFault, soundCalls, h, Bool.false_eq_true, if_false, nextArgNum_positionals,
    List.append_assoc, List.singleton_append]

/-- The options in `argp_parse` when it is left. -/
def argpOptions (argNum : ℕ) (options : CliOpts) (events : List ArgpEvent) : Run Event CliOpts := do
  let r ← argpParse argNum options events
  pure r.2

/-- Nothing is called behind a faulty call. -/
theorem argpOptions_faulty (h : event.faulty (positionals done).length = true) (events : List ArgpEvent) :
    argpOptions (positionals done).length (optionsOf done) (event :: events) =
      commandLine done (event :: events) := by
  simp only [commandLine, firstFault, soundCalls, h, if_true, List.append_nil]
  cases event with
  | l arg =>
    have hle : atoi arg.bytes ≤ 0 := by simpa [ArgpEvent.faulty] using h
    have hbad : atoi arg.bytes = 0 ∨ atoi arg.bytes < 0 := by omega
    simp only [argpOptions, argpParse, parseOpt, if_pos hbad]
    rfl
  | keyArg arg =>
    have htwo : 2 ≤ (positionals done).length := by simpa [ArgpEvent.faulty] using h
    obtain ⟨n,hn⟩ := Nat.exists_eq_add_of_le' htwo
    rw [hn]
    rfl
  | keyEnd =>
    have hnone : (positionals done).length = 0 := by simpa [ArgpEvent.faulty] using h
    rw [hnone]
    rfl
  | c arg => cases h
  | i arg => cases h
  | other => cases h

theorem argpOptions_commandLine (htwo : (positionals done).length ≤ 2) (events : List ArgpEvent) :
    argpOptions (positionals done).length (optionsOf done) events = commandLine done events := by
  induction events generalizing done with
  | nil =>
    rw [argpOptions, argpParse, commandLine, firstFault, List.append_nil]
    by_cases hnone : (positionals done).length = 0
    · rw [hnone]
      rfl
    · rw [if_neg hnone, parseOpt, if_neg (by omega)]
      rfl
  | cons event events ih =>
    cases h : event.faulty (positionals done).length with
    | true => exact argpOptions_faulty h events
    | false =>
      obtain ⟨ret,hret,hcall⟩ := parseOpt_sound htwo h
      rw [commandLine_sound h, argpOptions, argpParse, hcall, Run.pure_bind, if_pos hret, nextArgNum_positionals]
      exact ih (positionals_le_two htwo h)

end Parse

/-- `cli_parse` of any calls: the options of all of them, or what the first fault leads to. -/
theorem cliParse_commandLine (events : List ArgpEvent) : cliParse events = commandLine [] events :=
  argpOptions_commandLine (show (positionals []).length ≤ 2 by decide) events

end Padre
