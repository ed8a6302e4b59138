import Padre.Run.Refines

/-! # Two ways to write the same account

An option may be left out or be given its default, a spec may name a class or list its
ranges, and a length may be written with zeros in front. Nothing of it is seen in a run.
-/
namespace Padre
open CString Trace

/-- The two specs list the same characters in the same order. -/
structure SameSpec (s s' : CStr) : Prop where
  expansion : expansion (resolveClass s) = expansion (resolveClass s')
  ends : Purpose.Endless s ↔ Purpose.Endless s'

theorem SameSpec.refl (s : CStr) : SameSpec s s := ⟨rfl,Iff.rfl⟩

/-- The name of a class stands for its ranges. -/
theorem sameSpec_class : ∀ c ∈ classes, SameSpec (CStr.upto c.1) (CStr.upto c.2) := by
  have hexpansion : ∀ c ∈ classes,
      expansion (resolveClass (CStr.upto c.1)) = expansion (resolveClass (CStr.upto c.2)) := by decide
  have hends : ∀ c ∈ classes, ¬ Purpose.Endless (CStr.upto c.1) ∧ ¬ Purpose.Endless (CStr.upto c.2) := by decide
  intro c hc
  exact ⟨hexpansion c hc,iff_of_false (hends c hc).1 (hends c hc).2⟩

/-- One call for another one that says the same. -/
inductive Respelled : ArgpEvent → ArgpEvent → Prop where
  | c {s s'} : SameSpec s s' → Respelled (.c s) (.c s')
  | l {s s'} : atoi s.bytes = atoi s'.bytes → Respelled (.l s) (.l s')
  | same (event) : Respelled event event

/-- The default of the iteration. -/
def CliOpts.iterationOr (options : CliOpts) : CStr := options.iteration.getD (CStr.upto (literal "0"))

/-- The default of the characters. -/
def CliOpts.charactersOr (options : CliOpts) : CStr := options.characters.getD (CStr.upto (literal ""))

/-- The default of the length. -/
def CliOpts.lengthOr (options : CliOpts) : ℕ := if options.length = 0 then 64 else options.length

/-- The options that say the same once the defaults are in. -/
structure SameOptions (o o' : CliOpts) : Prop where
  domainOrDatabase : o.domainOrDatabase = o'.domainOrDatabase
  username : o.username = o'.username
  iteration : o.iterationOr = o'.iterationOr
  characters : SameSpec o.charactersOr o'.charactersOr
  length : o.lengthOr = o'.lengthOr

/-- The accounts that differ in the way their characters are written. -/
structure SameAccount (a a' : Account (Option CStr)) : Prop where
  domain : a.domain = a'.domain
  username : a.username = a'.username
  iteration : a.iteration = a'.iteration
  length : a.length = a'.length
  characters : a.characters = a'.characters ∨
    ∃ s s', a.characters = some (some s) ∧ a'.characters = some (some s') ∧ SameSpec s s'

theorem SameAccount.refl (a : Account (Option CStr)) : SameAccount a a := ⟨rfl,rfl,rfl,rfl,Or.inl rfl⟩

section Parse
variable {o o' : CliOpts}

theorem parseOpt_respelled (n : ℕ) (h : SameOptions o o') {event event' : ArgpEvent}
    (hevent : Respelled event event') :
    (parseOpt n o event).Related (fun r r' => r.1 = r'.1 ∧ SameOptions r.2 r'.2) (parseOpt n o' event') := by
  obtain ⟨hdomain,husername,hiteration,hcharacters,hlength⟩ := h
  cases hevent with
  | c hspec => exact .pure ⟨rfl,⟨hdomain,husername,hiteration,hspec,hlength⟩⟩
  | @l s s' hatoi =>
    unfold parseOpt
    simp only [hatoi]
    split_ifs
    · exact .returns _ ⟨rfl,⟨hdomain,husername,hiteration,hcharacters,hlength⟩⟩
    · exact .pure ⟨rfl,⟨hdomain,husername,hiteration,hcharacters,rfl⟩⟩
  | same =>
    cases event with
    | c s => exact .pure ⟨rfl,⟨hdomain,husername,hiteration,.refl s,hlength⟩⟩
    | l s =>
      unfold parseOpt
      dsimp only
      split_ifs
      · exact .returns _ ⟨rfl,⟨hdomain,husername,hiteration,hcharacters,hlength⟩⟩
      · exact .pure ⟨rfl,⟨hdomain,husername,hiteration,hcharacters,rfl⟩⟩
    | i s => exact .pure ⟨rfl,⟨hdomain,husername,rfl,hcharacters,hlength⟩⟩
    | keyArg s =>
      rcases n with _ | _ | n
      · exact .pure ⟨rfl,⟨rfl,husername,hiteration,hcharacters,hlength⟩⟩
      · exact .pure ⟨rfl,⟨hdomain,rfl,hiteration,hcharacters,hlength⟩⟩
      · exact .stops _ _
    | keyEnd =>
      unfold parseOpt
      split_ifs
      · exact .stops _ _
      · exact .pure ⟨rfl,⟨hdomain,husername,hiteration,hcharacters,hlength⟩⟩
    | other => exact .pure ⟨rfl,⟨hdomain,husername,hiteration,hcharacters,hlength⟩⟩

theorem nextArgNum_respelled (n : ℕ) {event event' : ArgpEvent} (h : Respelled event event') :
    nextArgNum n event = nextArgNum n event' := by
  cases h with
  | _ => rfl

theorem argpParse_respelled {events events' : List ArgpEvent} (hevents : List.Forall₂ Respelled events events')
    (n : ℕ) (h : SameOptions o o') : (argpParse n o events).Related
      (fun r r' => r.1 = r'.1 ∧ SameOptions r.2 r'.2) (argpParse n o' events') := by
  induction hevents generalizing n o o' with
  | nil => exact parseOpt_respelled n h (.same .keyEnd)
  | cons hevent _ ih =>
    refine .bind (parseOpt_respelled n h hevent) ?_
    rintro ⟨ret,r⟩ ⟨_,r'⟩ ⟨rfl,hr⟩
    rw [nextArgNum_respelled n hevent]
    dsimp only
    split_ifs
    · exact ih _ hr
    · exact .pure ⟨rfl,hr⟩

end Parse

section Program
variable {w : World} {a a' : Account (Option CStr)}

theorem printOver_respelled {s s' : CStr} (h : SameSpec s s') (bytes : List UInt8) :
    Purpose.printOver w s bytes = Purpose.printOver w s' bytes := by
  unfold Purpose.printOver Purpose.characters
  simp only [h.expansion, h.ends]

theorem ask_respelled (h : SameAccount a a') (keys : ℕ → ℤ) : Purpose.ask w a keys = Purpose.ask w a' keys := by
  obtain ⟨d,u,i,c,l⟩ := a
  obtain ⟨d',u',i',c',l'⟩ := a'
  obtain ⟨rfl,rfl,rfl,rfl,hcharacters⟩ := h
  have hprint (bytes : List UInt8) : Purpose.print w ⟨d,u,i,c,l⟩ bytes = Purpose.print w ⟨d,u,i,c',l⟩ bytes := by
    rcases hcharacters with rfl | ⟨s,s',rfl,rfl,hspec⟩
    · rfl
    · exact printOver_respelled hspec bytes
  simp only [Purpose.ask, Purpose.derive, hprint]

theorem accountFromOptions_respelled {o o' : CliOpts} (h : SameOptions o o') :
    SameAccount (accountFromOptions o) (accountFromOptions o') := by
  refine ⟨?_,?_,?_,h.length,Or.inr ⟨_,_,rfl,rfl,h.characters⟩⟩
  · exact congrArg (Option.map some) h.domainOrDatabase
  · exact congrArg (Option.map some) h.username
  · exact congrArg (fun s => some (some s)) h.iteration

theorem determine_respelled {o o' : CliOpts} (h : SameOptions o o') : (Purpose.determine w o).Related
    (fun r r' => r.2 = r'.2 ∧ SameAccount r.1 r'.1) (Purpose.determine w o') := by
  unfold Purpose.determine
  rw [h.domainOrDatabase, h.username]
  split_ifs
  · exact .refl (fun r => ⟨rfl,.refl r.1⟩) _
  · exact .pure ⟨rfl,accountFromOptions_respelled h⟩

/-- The program on calls that are read as options that say the same. -/
theorem program_respelled {argv argv' : List ArgpEvent}
    (h : (cliParse argv).Related SameOptions (cliParse argv')) :
    Purpose.program w argv = Purpose.program w argv' := by
  rw [cliParse_eq, cliParse_eq] at h
  apply Run.Related.eq
  refine .bind (.bind h fun o o' ho => determine_respelled ho) ?_
  rintro ⟨a,used⟩ ⟨a',_⟩ ⟨rfl,ha⟩
  dsimp only
  rw [ask_respelled ha]
  exact .refl (fun _ => rfl) _

theorem main_of_respelled {argv argv' : List ArgpEvent}
    (h : (cliParse argv).Related SameOptions (cliParse argv')) :
    Run.SameOutcome Event.visible (fun fuel => main w fuel argv) (fun fuel => main w fuel argv') := by
  have hmain := main_comesTo w argv
  rw [program_respelled h] at hmain
  exact hmain.same (main_comesTo w argv')

end Program

/-- Specs and lengths may be written in any way that means the same. -/
theorem main_respelled (w : World) {argv argv' : List ArgpEvent} (h : List.Forall₂ Respelled argv argv') :
    Run.SameOutcome Event.visible (fun fuel => main w fuel argv) (fun fuel => main w fuel argv') := by
  refine main_of_respelled (.bind (argpParse_respelled h 0 ?_) fun r r' hr => .pure hr.2)
  exact ⟨rfl,rfl,rfl,.refl _,rfl⟩

theorem main_respelled_class :
    Run.SameOutcome Event.visible
      (fun fuel => main (plainWorld [120,10] [] 4) fuel [.c (CStr.upto (literal ":digit:")),
        .l (CStr.upto (literal "008")),.keyArg (CStr.upto (literal "a")),.keyArg (CStr.upto (literal "b"))])
      (fun fuel => main (plainWorld [120,10] [] 4) fuel [.c (CStr.upto (literal "0-9")),
        .l (CStr.upto (literal "8")),.keyArg (CStr.upto (literal "a")),.keyArg (CStr.upto (literal "b"))]) := by
  have hspec : SameSpec (CStr.upto (literal ":digit:")) (CStr.upto (literal "0-9")) :=
    sameSpec_class (literal ":digit:",literal "0-9") (by decide)
  exact main_respelled _ (.cons (.c hspec) (.cons (.l (by decide)) (.cons (.same _) (.cons (.same _) .nil))))

/-- The calls that give every option its default. -/
def defaults : List ArgpEvent :=
  [.i (CStr.upto (literal "0")),.l (CStr.upto (literal "64")),.c (CStr.upto (literal "*"))]

/-- Giving the defaults in front of a command line is leaving them out. -/
theorem main_defaults (w : World) (argv : List ArgpEvent) :
    Run.SameOutcome Event.visible (fun fuel => main w fuel argv) (fun fuel => main w fuel (defaults ++ argv)) := by
  have hsame : SameOptions ⟨none,none,none,none,0⟩
      ⟨none,none,some (CStr.upto (literal "0")),some (CStr.upto (literal "*")),64⟩ :=
    ⟨rfl,rfl,rfl,⟨by decide,by decide⟩,rfl⟩
  have hdefaults : cliParse (defaults ++ argv) =
      argpParse 0 ⟨none,none,some (CStr.upto (literal "0")),some (CStr.upto (literal "*")),64⟩ argv >>= fun r =>
        pure r.2 := rfl
  apply main_of_respelled
  rw [hdefaults]
  have hevents : List.Forall₂ Respelled argv argv := List.forall₂_same.mpr fun event _ => .same event
  exact .bind (argpParse_respelled hevents 0 hsame) fun r r' hr => .pure hr.2

end Padre
