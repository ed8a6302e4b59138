import Padre.CommandLine.Options
import Padre.Model.Program

/-! # A rejected length

`parse_opt` answers a `-l` that is not positive with an error, and `argp_parse` hands the
error to `cli_parse`, which drops it. What follows then runs on options that have neither
a database nor a domain.
-/
namespace Padre
open CString Trace

/-- An option, as opposed to a positional argument and to the end of the arguments. -/
def ArgpEvent.IsOption : ArgpEvent → Prop
  | .keyArg _ => False
  | .keyEnd => False
  | _ => True

/-- The program fails and neither determines an account nor reads a file without a name. -/
structure FailsWithoutDeriving (run : Run Event ℕ) : Prop where
  failure : ∃ status, status ≠ EXIT_SUCCESS ∧
    (run.result = .ok status ∨ run.result = .error (.exits status))
  no_account : ∀ options, .determineAccount options ∉ run.trace
  no_file : .readEntireFile none ∉ run.trace

/-- Among options the first rejected one has only accepted ones before it. -/
theorem exists_first_rejected {pre : List ArgpEvent} (hpre : ∀ e ∈ pre, e.IsOption) {arg : CStr}
    (harg : atoi arg.bytes ≤ 0) (post : List ArgpEvent) :
    ∃ before arg' after, pre ++ .l arg :: post = before ++ .l arg' :: after ∧
      atoi arg'.bytes ≤ 0 ∧ (∀ e ∈ before, e.Accepted) ∧ ∀ e ∈ before, e.IsOption := by
  induction pre with
  | nil => exact ⟨[],arg,post,rfl,harg,by simp,by simp⟩
  | cons event pre ih =>
    obtain ⟨before,arg',after,heq,harg',haccepted,hoption⟩ :=
      ih fun e he => hpre e (List.mem_cons_of_mem _ he)
    have hevent := hpre event (List.mem_cons_self ..)
    by_cases ha : event.Accepted
    · refine ⟨event :: before,arg',after,by simp [heq],harg',?_,?_⟩
      · exact List.forall_mem_cons.mpr ⟨ha,haccepted⟩
      · exact List.forall_mem_cons.mpr ⟨hevent,hoption⟩
    · cases event with
      | l bad => exact ⟨[],bad,pre ++ .l arg :: post,rfl,not_lt.mp ha,by simp,by simp⟩
      | c _ => exact absurd trivial ha
      | i _ => exact absurd trivial ha
      | other => exact absurd trivial ha
      | keyArg _ => exact hevent.elim
      | keyEnd => exact hevent.elim

theorem positionals_of_options {events : List ArgpEvent} (h : ∀ e ∈ events, e.IsOption) :
    positionals events = [] := by
  rw [positionals, List.filterMap_eq_nil_iff]
  intro e he
  have hoption := h e he
  cases e with
  | keyArg _ => exact hoption.elim
  | _ => rfl

/-- `cli_parse` returns the options of the calls before the rejected one. -/
theorem cliParse_rejected {before : List ArgpEvent} (after : List ArgpEvent) {arg : CStr} (harg : atoi arg.bytes ≤ 0)
    (haccepted : ∀ e ∈ before, e.Accepted) (hoption : ∀ e ∈ before, e.IsOption) :
    (cliParse (before ++ .l arg :: after)).result = .ok (optionsOf before) := by
  have hnone := positionals_of_options hoption
  have hparse := argpParse_accepted [] before (.l arg :: after) haccepted (by simp [hnone])
  rw [List.nil_append] at hparse
  have hstart : argpParse 0 ⟨none,none,none,none,0⟩ (before ++ .l arg :: after) =
      argpParse (positionals before).length (optionsOf before) (.l arg :: after) := hparse
  have hbad : atoi arg.bytes = 0 ∨ atoi arg.bytes < 0 := by omega
  have herr : ¬ (EINVAL = 0 ∨ EINVAL = ARGP_ERR_UNKNOWN) := by decide
  have hcall (n : ℕ) : (parseOpt n (optionsOf before) (.l arg)).result = .ok (EINVAL,optionsOf before) := by
    simp only [parseOpt, if_pos hbad]
    rfl
  have hstop : (argpParse (positionals before).length (optionsOf before) (.l arg :: after)).result =
      .ok (EINVAL,optionsOf before) := by
    rw [argpParse, Run.bind_of_ok (hcall _), if_neg herr]
    rfl
  rw [cliParse, hstart, Run.bind_of_ok hstop]
  rfl

/-- After every rejected length the program goes on to a file without a name. -/
theorem main_rejected (w : World) (fuel : ℕ) (pre : List ArgpEvent) (hpre : ∀ e ∈ pre, e.IsOption)
    {arg : CStr} (harg : atoi arg.bytes ≤ 0) (post : List ArgpEvent) :
    ¬ FailsWithoutDeriving (main w fuel (pre ++ .l arg :: post)) ∧
    (∃ options, options.username = none ∧
      .determineAccount options ∈ (main w fuel (pre ++ .l arg :: post)).trace) ∧
    .readEntireFile none ∈ (main w fuel (pre ++ .l arg :: post)).trace ∧
    (main w fuel (pre ++ .l arg :: post)).result = .error .undefined := by
  obtain ⟨before,arg',after,heq,harg',haccepted,hoption⟩ := exists_first_rejected hpre harg post
  rw [heq]
  have hparse := cliParse_rejected after harg' haccepted hoption
  have hnone := positionals_of_options hoption
  have hdatabase : (optionsOf before).domainOrDatabase = none := by simp [optionsOf, hnone]
  have husername : (optionsOf before).username = none := by simp [optionsOf, hnone]
  have hdetermine : determineAccount w fuel (optionsOf before) =
      ⟨[.readEntireFile none],.error .undefined⟩ := by
    rw [determineAccount, if_pos husername, hdatabase]
    rfl
  have haccount : mainAccount w fuel (before ++ .l arg' :: after) =
      ⟨(cliParse (before ++ .l arg' :: after)).trace ++
        [.determineAccount (optionsOf before),.readEntireFile none],.error .undefined⟩ := by
    rw [mainAccount, Run.bind_of_ok hparse, Run.emit_bind, hdetermine]
  rw [main, Run.bind_of_error (congrArg Run.result haccount), haccount]
  refine ⟨fun h => h.no_file (by simp),⟨_,husername,by simp⟩,by simp,rfl⟩

/-- The command line `-l 0 a b`. -/
theorem main_rejected_zero :
    ¬ ∀ (w : World) (fuel : ℕ) (pre : List ArgpEvent) (arg : CStr) (post : List ArgpEvent),
      (∀ e ∈ pre, e.IsOption) → atoi arg.bytes ≤ 0 →
        FailsWithoutDeriving (main w fuel (pre ++ .l arg :: post)) := by
  intro h
  have hfails := h (plainWorld [] [] 0) 0 [] (CStr.upto (literal "0"))
    [.keyArg (CStr.upto (literal "a")),.keyArg (CStr.upto (literal "b"))] (by simp) (by decide)
  exact hfails.no_file (by decide)

/-- The same behind another option. -/
theorem main_rejected_behind_option :
    ¬ FailsWithoutDeriving (main (plainWorld [] [] 0) 0
      ([.i (CStr.upto (literal "1"))] ++ .l (CStr.upto (literal "-3")) :: [.keyArg (CStr.upto (literal "a"))])) :=
  (main_rejected (plainWorld [] [] 0) 0 [.i (CStr.upto (literal "1"))]
    (by simp [ArgpEvent.IsOption]) (by decide) [.keyArg (CStr.upto (literal "a"))]).1

end Padre
