import Padre.CommandLine.Options
import Padre.Database.RoundTrip
import Padre.Run.DatabaseFile

/-! # The command line and the database agree

An account can be given by options and positional arguments in any order, or by the one
row of a file. Both ways lead `determine_account` to the same fields.
-/
namespace Padre
open CString Rows Trace

/-- The five fields of an account as they are written. -/
structure WrittenAccount where
  domain : PlainField
  username : PlainField
  iteration : PlainField
  length : PlainField
  characters : Pattern
  length_pos : 0 < atoi length.str.bytes

namespace WrittenAccount
variable (a : WrittenAccount)

def account : Account (Option CStr) :=
  ⟨some a.domain.str,some a.username.str,some a.iteration.str,some a.characters.str,
    (atoi a.length.str.bytes).toNat⟩

/-- The row `<domain>,<username>,<iteration>,<length>,<characters>`. -/
def row : List UInt8 :=
  rowOf a.domain.str.bytes a.username.str.bytes a.iteration.str.bytes a.length.str.bytes
    a.characters.str.bytes

/-- The calls of `parse_opt` that give the account, in one of their orders. -/
def calls : List ArgpEvent :=
  [.i a.iteration.str,.l a.length.str,.c a.characters.str,.keyArg a.domain.str,.keyArg a.username.str]

/-- An order of the calls in which the domain comes before the username. -/
structure Given (events : List ArgpEvent) : Prop where
  perm : events.Perm a.calls
  order : [ArgpEvent.keyArg a.domain.str,.keyArg a.username.str].Sublist events

variable {a}

theorem Given.lastOf_eq {events : List ArgpEvent} (h : a.Given events) {α : Type}
    {f : ArgpEvent → Option α} {x : α} (hf : a.calls.filterMap f = [x]) : lastOf f events = some x := by
  have hperm := h.perm.filterMap f
  rw [hf] at hperm
  rw [lastOf, List.perm_singleton.mp hperm]
  rfl

theorem Given.positionals_eq {events : List ArgpEvent} (h : a.Given events) :
    positionals events = [a.domain.str,a.username.str] := by
  have hsub : [a.domain.str,a.username.str].Sublist (positionals events) :=
    h.order.filterMap ArgpEvent.positional
  have hlen : (positionals events).length = 2 := (h.perm.filterMap ArgpEvent.positional).length_eq
  exact (hsub.eq_of_length hlen.symm).symm

theorem Given.accepted {events : List ArgpEvent} (h : a.Given events) : ∀ e ∈ events, e.Accepted := by
  intro e he
  have hmem := h.perm.mem_iff.mp he
  simp only [calls, List.mem_cons, List.not_mem_nil, or_false] at hmem
  rcases hmem with rfl | rfl | rfl | rfl | rfl
  · trivial
  · exact a.length_pos
  · trivial
  · trivial
  · trivial

theorem Given.cliParse_eq {events : List ArgpEvent} (h : a.Given events) :
    cliParse events = pure ⟨some a.domain.str,some a.username.str,some a.iteration.str,
      some a.characters.str,(atoi a.length.str.bytes).toNat⟩ := by
  have hpositionals := h.positionals_eq
  rw [cliParse_accepted h.accepted (by simp [hpositionals]) (by simp [hpositionals]), optionsOf,
    hpositionals, h.lastOf_eq (f := ArgpEvent.iArg) (x := a.iteration.str) rfl,
    h.lastOf_eq (f := ArgpEvent.cArg) (x := a.characters.str) rfl,
    h.lastOf_eq (f := ArgpEvent.lLength) (x := (atoi a.length.str.bytes).toNat) rfl]
  rfl

variable (w : World) (fuel : ℕ)

theorem Given.determineAccount_options {events : List ArgpEvent} (h : a.Given events) :
    ∃ options, (cliParse events).result = .ok options ∧
      (determineAccount w fuel options).result = .ok (a.account,0) := by
  refine ⟨_,congrArg Run.result h.cliParse_eq,?_⟩
  have hpos := a.length_pos
  have hlength : (atoi a.length.str.bytes).toNat ≠ 0 := by omega
  rw [determineAccount, if_neg (by simp)]
  simp [accountFromOptions, account, hlength]

theorem newline_notMem_row : newline ∉ a.row :=
  newline_notMem_rowOf a.domain.no_newline a.username.no_newline a.iteration.no_newline a.length.no_newline
    a.characters.no_newline

theorem row_not_rejected : rowRejected a.row = false := by
  rw [row, rowRejected_rowOf a.domain.no_comma a.username.no_comma a.iteration.no_comma a.length.no_comma]
  simpa using a.length_pos

theorem rowEntry_row : rowEntry a.row = some a.account := by
  rw [row, rowEntry_rowOf a.domain.no_comma a.username.no_comma a.iteration.no_comma a.length.no_comma]
  simp [account, closedField]

theorem read_row (slack : List UInt8) :
    (parseAccounts (a.row ++ [newline] ++ slack) 0 (a.row ++ [newline]).length).read = [a.account] := by
  have hread := parseAccounts_rows [a.row] (by simpa using a.newline_notMem_row)
    (by simpa using a.row_not_rejected) slack
  simpa [a.rowEntry_row] using hread

/-- `determine_account` on the name of a file with the row. -/
theorem determineAccount_file {path : CStr} {chunks : List Chunk} (hopen : openStream w path = some chunks)
    (hfile : delivered chunks = a.row ++ [newline]) {buf : Buffer} {data : List UInt8}
    (hread : (readEntireFile w (some path)).result = .ok buf) (hdata : buf.data = some data) :
    ∃ options, (cliParse [.keyArg path]).result = .ok options ∧
      (determineAccount w fuel options).result = .ok (a.account,0) ∧
      .stderr "Warning: automatically selected the only available account\n" ∈
        (determineAccount w fuel options).trace := by
  refine ⟨⟨some path,none,none,none,0⟩,rfl,?_⟩
  obtain ⟨⟨slack,rfl⟩,hsize,-,-⟩ := readEntireFile_collects hopen hread hdata
  rw [hfile] at hsize
  rw [determineAccount, if_pos rfl, Run.emit_bind, Run.bind_of_ok hread, hdata]
  simp only [hsize, hfile, read_row, accountFromList, Run.emits_bind, Run.emit_bind]
  simp

end WrittenAccount

/-- An account that is given by options and positional arguments, in any order, and the
same account as the one row of a file lead to the same fields. -/
theorem determineAccount_agree (w : World) (fuel : ℕ) (a : WrittenAccount) {events : List ArgpEvent}
    (hgiven : a.Given events) (path : CStr) {chunks : List Chunk}
    (hopen : openStream w path = some chunks) (hfile : delivered chunks = a.row ++ [newline])
    (buf : Buffer) {data : List UInt8} (hread : (readEntireFile w (some path)).result = .ok buf)
    (hdata : buf.data = some data) :
    ∃ options database, (cliParse events).result = .ok options ∧
      (cliParse [.keyArg path]).result = .ok database ∧
      (determineAccount w fuel options).result = .ok (a.account,0) ∧
      (determineAccount w fuel database).result = .ok (a.account,0) ∧
      .stderr "Warning: automatically selected the only available account\n" ∈
        (determineAccount w fuel database).trace := by
  obtain ⟨options,hoptions,haccount⟩ := hgiven.determineAccount_options w fuel
  obtain ⟨database,hdatabase,hselected,hwarning⟩ := a.determineAccount_file w fuel hopen hfile hread hdata
  exact ⟨options,database,hoptions,hdatabase,haccount,hselected,hwarning⟩

/-- An account to write. -/
def writtenAbc : WrittenAccount where
  domain := ⟨CStr.upto (literal "a"),by decide,by decide⟩
  username := ⟨CStr.upto (literal "b"),by decide,by decide⟩
  iteration := ⟨CStr.upto (literal "0"),by decide,by decide⟩
  length := ⟨CStr.upto (literal "12"),by decide,by decide⟩
  characters := ⟨CStr.upto (literal "a-c,"),by decide⟩
  length_pos := by decide

/-- The reads of a file with its row. -/
def chunkAbc : Chunk := ⟨literal "a,b,0,12,a-c,\n",by decide⟩

theorem determineAccount_agree_abc :
    ∃ options database,
      (cliParse [.keyArg (CStr.upto (literal "a")),.l (CStr.upto (literal "12")),.keyArg (CStr.upto (literal "b")),
        .c (CStr.upto (literal "a-c,")),.i (CStr.upto (literal "0"))]).result = .ok options ∧
      (cliParse [.keyArg (CStr.upto (literal "f"))]).result = .ok database ∧
      (determineAccount (plainWorld [] [chunkAbc] 0) 0 options).result = .ok (writtenAbc.account,0) ∧
      (determineAccount (plainWorld [] [chunkAbc] 0) 0 database).result = .ok (writtenAbc.account,0) ∧
      .stderr "Warning: automatically selected the only available account\n" ∈
        (determineAccount (plainWorld [] [chunkAbc] 0) 0 database).trace :=
  determineAccount_agree (plainWorld [] [chunkAbc] 0) 0 writtenAbc
    ⟨by decide,by decide⟩ (CStr.upto (literal "f")) (show _ = some [chunkAbc] by rfl) (by decide)
    ⟨some (reallocBytes (fun _ => 7) (memcpy (fresh (fun _ => 7) 0 1024) 0 chunkAbc.bytes) 2048),14,2048⟩
    (by rfl) rfl

end Padre
