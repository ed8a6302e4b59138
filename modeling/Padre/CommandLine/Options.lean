import Mathlib.Data.List.Basic
import Padre.Model.CommandLine

/-! # The options after a command line

Each call of `parse_opt` sets one field, so the options that a sequence of accepted calls
leads to can be read off field by field: the last option of each kind and the first two
positional arguments.
-/
namespace Padre
open CString Trace

namespace ArgpEvent

@[simp] def cArg : ArgpEvent → Option CStr
  | .c arg => some arg
  | _ => none

@[simp] def iArg : ArgpEvent → Option CStr
  | .i arg => some arg
  | _ => none

/-- The length a `-l` stores. -/
@[simp] def lLength : ArgpEvent → Option ℕ
  | .l arg => some (atoi arg.bytes).toNat
  | _ => none

@[simp] def positional : ArgpEvent → Option CStr
  | .keyArg arg => some arg
  | _ => none

/-- `parse_opt` returns no error. -/
def Accepted : ArgpEvent → Prop
  | .l arg => 0 < atoi arg.bytes
  | .keyEnd => False
  | _ => True

end ArgpEvent

/-- The positional arguments among the calls. -/
def positionals (events : List ArgpEvent) : List CStr := events.filterMap ArgpEvent.positional

/-- The last of the calls of one kind. -/
def lastOf {α : Type} (f : ArgpEvent → Option α) (events : List ArgpEvent) : Option α :=
  (events.filterMap f).getLast?

/-- The options read off from the calls. -/
def optionsOf (events : List ArgpEvent) : CliOpts where
  domainOrDatabase := (positionals events)[0]?
  username := (positionals events)[1]?
  iteration := lastOf ArgpEvent.iArg events
  characters := lastOf ArgpEvent.cArg events
  length := (lastOf ArgpEvent.lLength events).getD 0

theorem lastOf_snoc {α : Type} (f : ArgpEvent → Option α) (events : List ArgpEvent) (event : ArgpEvent) :
    lastOf f (events ++ [event]) = (f event).or (lastOf f events) := by
  cases h : f event <;> simp [lastOf, h]

theorem positionals_snoc (events : List ArgpEvent) (event : ArgpEvent) :
    positionals (events ++ [event]) = positionals events ++ event.positional.toList := by
  cases event <;> simp [positionals]

theorem optionsOf_snoc (events : List ArgpEvent) (event : ArgpEvent) :
    optionsOf (events ++ [event]) =
      ⟨(positionals events ++ event.positional.toList)[0]?,
        (positionals events ++ event.positional.toList)[1]?,
        event.iArg.or (lastOf ArgpEvent.iArg events),event.cArg.or (lastOf ArgpEvent.cArg events),
        (event.lLength.or (lastOf ArgpEvent.lLength events)).getD 0⟩ := by
  simp only [optionsOf, lastOf_snoc, positionals_snoc]

theorem parseOpt_accepted {events : List ArgpEvent} {event : ArgpEvent} (h : event.Accepted)
    (hroom : (positionals (events ++ [event])).length ≤ 2) :
    ∃ ret, (ret = 0 ∨ ret = ARGP_ERR_UNKNOWN) ∧
      parseOpt (positionals events).length (optionsOf events) event =
        pure (ret,optionsOf (events ++ [event])) := by
  rw [optionsOf_snoc]
  cases event with
  | c arg => exact ⟨0,Or.inl rfl,by simp [parseOpt, optionsOf]⟩
  | i arg => exact ⟨0,Or.inl rfl,by simp [parseOpt, optionsOf]⟩
  | l arg =>
    have hpos : 0 < atoi arg.bytes := h
    have hnot : ¬ (atoi arg.bytes = 0 ∨ atoi arg.bytes < 0) := by omega
    exact ⟨0,Or.inl rfl,by simp [parseOpt, hnot, optionsOf]⟩
  | keyArg arg =>
    rw [positionals_snoc, List.length_append] at hroom
    -- `arg_num` is the number of positional arguments before this one
    rcases hp : positionals events with _ | ⟨d,_ | ⟨u,rest⟩⟩
    · exact ⟨0,Or.inl rfl,by simp [parseOpt, hp, optionsOf]⟩
    · exact ⟨0,Or.inl rfl,by simp [parseOpt, hp, optionsOf]⟩
    · simp [hp] at hroom
  | keyEnd => exact h.elim
  | other => exact ⟨_,Or.inr rfl,by simp [parseOpt, optionsOf]⟩

/-- The parser behind calls without an error. -/
theorem argpParse_accepted (done pre post : List ArgpEvent) (h : ∀ e ∈ pre, e.Accepted)
    (hroom : (positionals (done ++ pre)).length ≤ 2) :
    argpParse (positionals done).length (optionsOf done) (pre ++ post) =
      argpParse (positionals (done ++ pre)).length (optionsOf (done ++ pre)) post := by
  induction pre generalizing done with
  | nil => rw [List.append_nil, List.nil_append]
  | cons event pre ih =>
    have hsplit : done ++ event :: pre = (done ++ [event]) ++ pre := by simp
    rw [hsplit] at hroom ⊢
    have hone : (positionals (done ++ [event])).length ≤ 2 := by
      simp only [positionals, List.filterMap_append, List.length_append] at hroom ⊢
      omega
    obtain ⟨ret,hret,hstep⟩ := parseOpt_accepted (h event (List.mem_cons_self ..)) hone
    have hnext : nextArgNum (positionals done).length event = (positionals (done ++ [event])).length := by
      rw [positionals_snoc, List.length_append]
      cases event <;> rfl
    rw [List.cons_append, argpParse, hstep, Run.pure_bind, if_pos hret, hnext]
    exact ih (done ++ [event]) (fun e he => h e (List.mem_cons_of_mem _ he)) hroom

theorem cliParse_accepted {events : List ArgpEvent} (h : ∀ e ∈ events, e.Accepted)
    (hone : 1 ≤ (positionals events).length) (htwo : (positionals events).length ≤ 2) :
    cliParse events = pure (optionsOf events) := by
  have hparse := argpParse_accepted [] events [] h htwo
  rw [List.append_nil, List.nil_append] at hparse
  have hstart : argpParse 0 ⟨none,none,none,none,0⟩ events =
      argpParse (positionals events).length (optionsOf events) [] := hparse
  have hend : ¬ (positionals events).length < 1 := by omega
  rw [cliParse, hstart, argpParse, parseOpt, if_neg hend]
  rfl

end Padre
