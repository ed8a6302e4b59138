import Padre.Charset.Termination
import Padre.General.Outcome
import Padre.Password.Salt
import Padre.Run.Printed
import Padre.Run.Purpose

/-! # The program does what it is for

Each function comes to the outcome its purpose names: what is seen of a run is that outcome,
on every fuel that lets the run end, and on enough fuel it is. Memory nobody has written
shows in it only behind the text of a database.
-/
namespace Padre
open CString Rows Trace

section Print
variable {w : World} {account : Account (Option CStr)}

/-- The answer of `enumerate_charset`, when it has one. -/
def charsetAnswer (malloc : ℕ → Bool) : Option CStr → Option (ℤ × CharsetOut)
  | none => some (-1,{ freshOut with errno := EINVAL })
  | some spec =>
    if Purpose.Endless spec then none else some (verdict malloc (expansion (resolveClass spec)) freshOut)

theorem not_endless {spec : CStr} (h : ¬ Purpose.Endless spec) :
    spec.bytes.any isspace = false ∧ (items spec.bytes).any Item.endless = false := by
  simpa [Purpose.Endless] using h

theorem enumerateCharset_comesTo (malloc : ℕ → Bool) (uninit : ℕ → UInt8) (spec : Option CStr) :
    Run.ComesTo Event.visible
      (fun fuel => (Run.ofFuel (enumerateCharset fuel malloc uninit spec freshOut) : Run Event (ℤ × CharsetOut)))
      (Run.ofFuel (charsetAnswer malloc spec)) := by
  cases spec with
  | none => exact .of_shown rfl
  | some spec =>
    apply Run.ComesTo.ofFuel
    · intro fuel r hr
      obtain ⟨hspaces,hends⟩ := enumerateCharset_returned freshOut_res freshOut_rlen hr
      have hreturns : ¬ Purpose.Endless spec := by simp [Purpose.Endless, hspaces, hends]
      rw [charsetAnswer, if_neg hreturns, (enumerateCharset_eq_some freshOut_res freshOut_rlen hr).1]
    · refine ⟨(resolveClass spec).length + 256,?_⟩
      intro fuel hfuel
      by_cases hendless : Purpose.Endless spec
      · rw [charsetAnswer, if_pos hendless]
        cases hr : enumerateCharset fuel malloc uninit (some spec) freshOut with
        | none => rfl
        | some r =>
          obtain ⟨hspaces,hends⟩ := enumerateCharset_returned freshOut_res freshOut_rlen hr
          simp [Purpose.Endless, hspaces, hends] at hendless
      · obtain ⟨hspaces,hends⟩ := not_endless hendless
        rw [charsetAnswer, if_neg hendless]
        exact enumerateCharset_eq_verdict freshOut_res freshOut_rlen hspaces hends (by omega)

/-- `main` behind the call of `enumerate_charset`. -/
def printFrom (account : Account (Option CStr)) (password : List UInt8) (r : ℤ × CharsetOut) : Run Event ℕ := do
  Run.emits (r.2.stderr.map .perror)
  if r.1 ≠ 0 then do
    Run.emit (.perror "Error enumerating the charset")
    pure EXIT_FAILURE
  else do
    let chars ← Run.deref (r.2.res.bind id)
    let len ← Run.deref r.2.rlen
    let converted ← Run.deref (toChars password 0 chars.bytes len account.length)
    let line ← Run.deref (strAt converted.1 0)
    Run.emit (.stdout (line.bytes ++ [newline]))
    pure EXIT_SUCCESS

theorem charAt_append {chars : List UInt8} (hne : chars ≠ []) (rest : List UInt8) (b : UInt8) :
    charAt (chars ++ rest) chars.length b = charAt chars chars.length b := by
  have hlt : b.toNat % chars.length < chars.length := Nat.mod_lt _ (List.length_pos_iff.mpr hne)
  rw [charAt, charAt, List.getD_append _ _ _ _ hlt]

/-- The derived bytes and the one behind them are converted in place. -/
theorem toChars_password {chars : List UInt8} (hlen : chars.length ≤ 94) {L : ℕ} (b : Vector UInt8 L) (last : UInt8) :
    toChars (b.toList ++ [last]) 0 (chars ++ [0]) chars.length L =
      if chars = [] ∧ b.toList ≠ [] then none else some (Purpose.password chars b.toList ++ [0],L) := by
  by_cases hne : chars = []
  · subst hne
    cases L with
    | zero =>
      have hnil : b.toList = [] := List.eq_nil_of_length_eq_zero b.length_toList
      simp [toChars, hnil, Purpose.password]
    | succ L =>
      have hcons : b.toList ≠ [] := List.ne_nil_of_length_pos (by simp)
      rw [if_pos ⟨rfl,hcons⟩]
      rfl
  · have hmax : chars.length ≤ INT_MAX := by
      unfold INT_MAX
      omega
    have hspec := toChars_spec (List.length_pos_iff.mpr hne) (show chars.length ≤ (chars ++ [0]).length by simp)
      hmax b.toList [] last
    rw [Vector.length_toList] at hspec
    rw [hspec, if_neg (fun h => hne h.1), Purpose.password]
    simp only [funext (charAt_append hne [0])]

theorem nul_notMem_password {chars : List UInt8} (hnul : (0 : UInt8) ∉ chars) {bytes : List UInt8}
    (h : ¬ (chars = [] ∧ bytes ≠ [])) : (0 : UInt8) ∉ Purpose.password chars bytes := by
  intro hmem
  obtain ⟨b,hb,hchar⟩ := List.mem_map.mp hmem
  have hne : chars ≠ [] := fun hnil => h ⟨hnil,List.ne_nil_of_mem hb⟩
  have hlt : b.toNat % chars.length < chars.length := Nat.mod_lt _ (List.length_pos_iff.mpr hne)
  rw [charAt, List.getD_eq_getElem _ _ hlt] at hchar
  exact hnul (hchar ▸ List.getElem_mem hlt)

/-- The text `%s` prints for a password. -/
theorem strAt_password {password : List UInt8} (hnul : (0 : UInt8) ∉ password) :
    strAt (password ++ [0]) 0 = some ⟨password,hnul⟩ := by
  have hstr := strAt_field [] password []
  rw [List.nil_append, List.length_nil] at hstr
  rw [hstr]
  exact congrArg some (CStr.upto_bytes ⟨_,hnul⟩)

/-- A charset that is delivered is used for the conversion. -/
theorem printFrom_delivered {chars : List UInt8} (hlen : chars.length ≤ 94) (hnul : (0 : UInt8) ∉ chars)
    (b : Vector UInt8 account.length) (last : UInt8) :
    printFrom account (b.toList ++ [last]) (0,⟨some (some ⟨chars.length,chars ++ [0]⟩),some chars.length,0,[]⟩) =
      if chars = [] ∧ b.toList ≠ [] then Run.stop .undefined
      else Run.emit (.stdout (Purpose.password chars b.toList ++ [newline])) >>= fun _ => pure EXIT_SUCCESS := by
  have hconvert := toChars_password hlen b last
  have hrun : printFrom account (b.toList ++ [last])
      (0,⟨some (some ⟨chars.length,chars ++ [0]⟩),some chars.length,0,[]⟩) =
        Run.deref (toChars (b.toList ++ [last]) 0 (chars ++ [0]) chars.length account.length) >>= fun converted =>
          Run.deref (strAt converted.1 0) >>= fun line =>
            Run.emit (.stdout (line.bytes ++ [newline])) >>= fun _ => pure EXIT_SUCCESS := rfl
  rw [hrun, hconvert]
  by_cases hempty : chars = [] ∧ b.toList ≠ []
  · rw [if_pos hempty, if_pos hempty]
    rfl
  · rw [if_neg hempty, if_neg hempty, Run.deref_some, Run.pure_bind,
      strAt_password (nul_notMem_password hnul hempty)]
    rfl

/-- What becomes of the verdict on a spec that is read to its end. -/
theorem printFrom_verdict (w : World) {spec : CStr} (hends : ¬ Purpose.Endless spec)
    (b : Vector UInt8 account.length) (last : UInt8) :
    (printFrom account (b.toList ++ [last])
      (verdict (w.malloc .charset) (expansion (resolveClass spec)) freshOut)).shown Event.visible =
        Purpose.printOver w spec b.toList := by
  have hshorter : (Purpose.characters spec).length ≤ (expansion (resolveClass spec)).length :=
    (List.takeWhile_sublist _).length_le
  rw [Purpose.printOver, if_neg hends]
  by_cases hlen : (expansion (resolveClass spec)).length ≤ 94
  · rw [if_neg (Nat.not_lt.mpr hlen)]
    cases hmalloc : w.malloc .charset (Purpose.characters spec).length with
    | false =>
      have hverdict : verdict (w.malloc .charset) (expansion (resolveClass spec)) freshOut =
          (-1,⟨some none,some (Purpose.characters spec).length,ENOMEM,["While enumerating the charset"]⟩) := by
        rw [Purpose.characters] at hmalloc
        simp [verdict, hlen, hmalloc, freshOut, Purpose.characters]
      rw [hverdict, if_pos rfl]
      rfl
    | true =>
      have hverdict : verdict (w.malloc .charset) (expansion (resolveClass spec)) freshOut =
          (0,⟨some (some ⟨(Purpose.characters spec).length,Purpose.characters spec ++ [0]⟩),
            some (Purpose.characters spec).length,0,[]⟩) := by
        rw [Purpose.characters] at hmalloc
        simp [verdict, hlen, hmalloc, freshOut, Purpose.characters]
      rw [hverdict, printFrom_delivered (hshorter.trans hlen) (nul_notMem_untilNul _) b last,
        if_neg (show ¬ true = false by decide)]
      split
      · rfl
      · rfl
  · rw [if_pos (Nat.not_le.mp hlen), verdict, if_neg hlen]
    rfl

theorem shown_charsetSpec (characters : Option (Option CStr)) :
    (charsetSpec characters).shown Event.visible = charsetSpec characters := by
  rcases characters with _ | _ | spec
  · rfl
  · rfl
  · rfl

/-- `main` from the enumeration of the character set on. -/
theorem printPassword_comesTo (b : Vector UInt8 account.length) (last : UInt8) :
    Run.ComesTo Event.visible (fun fuel => printPassword w fuel account (b.toList ++ [last]))
      (Purpose.print w account b.toList) := by
  have hrun : Run.ComesTo Event.visible (fun fuel => printPassword w fuel account (b.toList ++ [last])) _ :=
    .andThen (shown_charsetSpec account.characters) fun spec _ =>
      (enumerateCharset_comesTo (w.malloc .charset) (w.uninit .chars) spec).bind fun r _ =>
        .of_shown (x := printFrom account (b.toList ++ [last]) r) rfl
  convert hrun using 1
  rw [Purpose.print]
  rcases account.characters with _ | _ | spec
  · rfl
  · rfl
  · change Purpose.printOver w spec b.toList =
      Run.ofFuel (charsetAnswer (w.malloc .charset) (some spec)) >>= fun r =>
        (printFrom account (b.toList ++ [last]) r).shown Event.visible
    by_cases hendless : Purpose.Endless spec
    · rw [charsetAnswer, if_pos hendless, Purpose.printOver, if_pos hendless]
      rfl
    · rw [charsetAnswer, if_neg hendless, ← printFrom_verdict w hendless b last]
      rfl

end Print

section Derive
variable {w : World} {account : Account (Option CStr)}

/-- The two outcomes of `derive_password` before its return value is looked at. -/
theorem derivePassword_outcome (w : World) (L : ℕ) (master : List UInt8) (d u i : CStr) :
    ∃ last, derivePassword w.scrypt (w.malloc .salt) (w.uninit .salt) master d u i L
        (fresh (w.uninit .password) 0 (L + 1)) =
      if w.malloc .salt (saltLen d u i + 1) = false then
        ⟨-1,fresh (w.uninit .password) 0 (L + 1),["Could not allocate memory for the salt"]⟩
      else ⟨(w.scrypt master (d.bytes ++ u.bytes ++ i.bytes) MP_N MP_r MP_p L).1,
        (w.scrypt master (d.bytes ++ u.bytes ++ i.bytes) MP_N MP_r MP_p L).2.toList ++ [last],[]⟩ := by
  obtain ⟨last,hbuf⟩ := memcpy_fresh (w.uninit .password)
    (w.scrypt master (d.bytes ++ u.bytes ++ i.bytes) MP_N MP_r MP_p L).2
  refine ⟨last,?_⟩
  cases hmalloc : w.malloc .salt (saltLen d u i + 1) with
  | false =>
    rw [derivePassword, hmalloc]
    rfl
  | true =>
    rw [derivePassword, hmalloc, ← hbuf, salt_eq]
    rfl

theorem filter_zeros (n : ℕ) : ((List.range n).map Event.zero).filter Event.visible = [] := by
  rw [List.filter_eq_nil_iff]
  intro e he
  obtain ⟨i,-,rfl⟩ := List.mem_map.mp he
  exact Bool.false_ne_true

theorem filter_perrors (texts : List String) :
    (texts.map Event.perror).filter Event.visible = texts.map Event.perror := by
  rw [List.filter_eq_self]
  intro e he
  obtain ⟨text,-,rfl⟩ := List.mem_map.mp he
  rfl

/-- `main` behind `derive_password`: the `memset` and what becomes of the derivation. -/
def clearAndPrint (w : World) (fuel : ℕ) (account : Account (Option CStr)) (derived : Derived) : Run Event ℕ := do
  Run.emits (derived.stderr.map .perror)
  Run.emits ((List.range MAX_MASTER_PASSWORD_LENGTH).map .zero)
  if derived.ret ≠ 0 then do
    Run.emit (.perror "Error deriving the domain password")
    pure EXIT_FAILURE
  else printPassword w fuel account derived.buf

theorem afterPrompt_eq (w : World) (fuel : ℕ) (account : Account (Option CStr)) (asked : Asked) :
    afterPrompt w fuel account asked =
      Run.deref (account.domain.bind id) >>= fun domain => Run.deref (account.username.bind id) >>= fun username =>
        Run.deref (account.iteration.bind id) >>= fun iteration =>
          clearAndPrint w fuel account (derivePassword w.scrypt (w.malloc .salt) (w.uninit .salt)
            (asked.passwd.take asked.len) domain username iteration account.length
            (fresh (w.uninit .password) 0 (account.length + 1))) := by
  simp only [afterPrompt, deriveAndClear, clearAndPrint, Run.bind_assoc, Run.pure_bind]

theorem clearAndPrint_failed {derived : Derived} (hret : derived.ret ≠ 0) (fuel : ℕ) :
    (clearAndPrint w fuel account derived).shown Event.visible =
      Purpose.fails (derived.stderr ++ ["Error deriving the domain password"]) := by
  simp only [clearAndPrint, if_pos hret, Run.emits_bind, Run.emit_bind, Run.shown, List.filter_append, filter_zeros,
    filter_perrors, Purpose.fails, List.map_append, List.append_assoc]
  rfl

theorem clearAndPrint_comesTo {derived : Derived} (hret : derived.ret = 0) (b : Vector UInt8 account.length)
    {last : UInt8} (hbuf : derived.buf = b.toList ++ [last]) (hstderr : derived.stderr = []) :
    Run.ComesTo Event.visible (fun fuel => clearAndPrint w fuel account derived)
      (Purpose.print w account b.toList) := by
  have hzeros : ((Run.emits ((List.range MAX_MASTER_PASSWORD_LENGTH).map .zero) : Run Event Unit)).shown
      Event.visible = pure () := by
    rw [Run.shown_emits, filter_zeros]
    rfl
  simp only [clearAndPrint, hret, hbuf, hstderr, ne_eq, not_true_eq_false, if_false]
  exact .after rfl (.after hzeros (printPassword_comesTo b last))

/-- `main` once the master password has been read. -/
theorem afterPrompt_comesTo (asked : Asked) :
    Run.ComesTo Event.visible (fun fuel => afterPrompt w fuel account asked)
      (Purpose.derive w account (asked.passwd.take asked.len)) := by
  simp only [afterPrompt_eq]
  refine .andThen (Run.shown_deref _) fun d _ => .andThen (Run.shown_deref _) fun u _ =>
    .andThen (Run.shown_deref _) fun i _ => ?_
  obtain ⟨last,houtcome⟩ := derivePassword_outcome w account.length (asked.passwd.take asked.len) d u i
  rw [houtcome]
  cases hmalloc : w.malloc .salt (saltLen d u i + 1) with
  | false =>
    rw [if_pos rfl, if_pos rfl]
    exact .of_forall (clearAndPrint_failed (show (-1 : ℤ) ≠ 0 by decide))
  | true =>
    rw [if_neg (by decide), if_neg (by decide)]
    dsimp only
    by_cases hret : (w.scrypt (asked.passwd.take asked.len) (d.bytes ++ u.bytes ++ i.bytes) MP_N MP_r MP_p
        account.length).1 = 0
    · rw [if_neg (not_not.mpr hret)]
      exact clearAndPrint_comesTo hret _ rfl rfl
    · rw [if_pos hret]
      exact .of_forall (clearAndPrint_failed hret)

end Derive

section Ask
variable {w : World} {account : Account (Option CStr)} {keys : ℕ → ℤ}

theorem filter_keyEvents (keys : ℕ → ℤ) (cur n : ℕ) : (keyEvents keys cur n).filter Event.visible = [] := by
  rw [List.filter_eq_nil_iff]
  intro e he
  obtain ⟨i,-,rfl⟩ := List.mem_map.mp he
  exact Bool.false_ne_true

/-- The prompt shows nothing of what is typed. -/
theorem shown_tuiAskPassword (keys : ℕ → ℤ) {passwd : List UInt8} {len : ℕ} (hlen : len ≤ passwd.length) :
    ∃ asked, asked.passwd.take asked.len = typed keys 0 (storedKeys keys 0 len) ∧
      asked.ret = (if keys (storedKeys keys 0 len) = EOF then -1 else 0) ∧
      (tuiAskPassword keys passwd len).shown Event.visible = pure asked := by
  refine ⟨⟨if keys (storedKeys keys 0 len) = EOF then -1 else 0,
    (typed keys 0 (storedKeys keys 0 len) ++ passwd.drop (storedKeys keys 0 len)).set (storedKeys keys 0 len) 0,
    storedKeys keys 0 len⟩,?_,rfl,?_⟩
  · rw [List.take_set_of_le le_rfl]
    exact List.take_left' (length_typed keys 0 _)
  · rw [tuiAskPassword_eq keys hlen, Run.shown, List.filter_append, filter_keyEvents]
    rfl

/-- `main` once the account is known. -/
theorem mainWith_comesTo (w : World) (account : Account (Option CStr)) (keys : ℕ → ℤ) :
    Run.ComesTo Event.visible (fun fuel => mainWith w fuel account keys) (Purpose.ask w account keys) := by
  unfold mainWith Purpose.ask
  by_cases hdomain : account.domain = none
  · simp only [if_pos hdomain]
    exact .pure _
  · simp only [if_neg hdomain]
    by_cases hmalloc : w.malloc .password (account.length + 1) = false
    · simp only [if_pos hmalloc]
      exact .of_shown rfl
    · simp only [if_neg hmalloc]
      obtain ⟨asked,htyped,hret,hshown⟩ := shown_tuiAskPassword keys
        (length_fresh (w.uninit .masterPwd) 0 MAX_MASTER_PASSWORD_LENGTH).ge
      refine .after hshown ?_
      rw [Purpose.masterPassword, hret]
      by_cases hend : keys (promptLen keys) = EOF
      · simp only [if_pos hend]
        exact .of_shown rfl
      · simp only [if_neg hend, ne_eq, not_true_eq_false, if_false]
        rw [← htyped]
        exact afterPrompt_comesTo asked

end Ask

section Determine
variable {w : World} {accounts : List (Account (Option CStr))}

theorem tuiWaitUserSelection_comesTo (curses : Curses) (items : ℕ) :
    Run.ComesTo Event.visible
      (fun fuel => (Run.ofFuel (tuiWaitUserSelection curses fuel items) : Run Event (ℤ × ℕ)))
      (Run.ofFuel ((leavingKey curses.getch).map (menuAnswer curses items))) := by
  cases hk : leavingKey curses.getch with
  | none =>
    have hnever (fuel : ℕ) : tuiWaitUserSelection curses fuel items = none :=
      selection_endless (leavingKey_eq_none.mp hk) fuel
    simp only [hnever]
    exact .of_shown rfl
  | some k =>
    apply Run.ComesTo.ofFuel
    · intro fuel r hr
      rw [tuiWaitUserSelection_eq hk] at hr
      split at hr
      · exact hr
      · cases hr
    · refine ⟨k + 1,?_⟩
      intro fuel hfuel
      rw [tuiWaitUserSelection_eq hk, if_pos (show k < fuel from hfuel)]
      rfl

/-- The menu of accounts that can be shown. -/
theorem selectAccount_comesTo (hitem : ∀ a ∈ accounts, tuiItem a ≠ none) :
    Run.ComesTo Event.visible (fun fuel => selectAccount w fuel accounts) (Purpose.choose w accounts) := by
  unfold Purpose.choose
  by_cases hpost : w.curses.postMenu (accounts.filterMap tuiItem) ≠ E_OK
  · have hrefused (fuel : ℕ) : selectAccount w fuel accounts = ⟨[.stderr ("Error trying to show ncurses menu: " ++
        toString (w.curses.postMenu (accounts.filterMap tuiItem)) ++ "\n")],.ok (Account.null,0)⟩ := by
      rw [selectAccount, (mapM_eq_filterMap hitem).1, Run.deref_some, Run.pure_bind, tuiShowMenu, if_pos hpost]
      rfl
    simp only [hrefused, if_pos hpost]
    exact .of_shown rfl
  · rw [if_neg hpost]
    simp only [selectAccount_posted hitem hpost]
    have hrun : Run.ComesTo Event.visible (fun fuel =>
        (Run.ofFuel (tuiWaitUserSelection w.curses fuel accounts.length) : Run Event (ℤ × ℕ)) >>= fun selected =>
          if selected.1 ≥ 0 then do
            let account ← Run.deref accounts[selected.1.toNat]?
            pure (account,selected.2)
          else pure (Account.null,selected.2)) _ :=
      (tuiWaitUserSelection_comesTo w.curses accounts.length).bind fun selected _ => .of_shown rfl
    convert hrun using 1
    cases hk : leavingKey w.curses.getch with
    | none => rfl
    | some k =>
      simp only [Option.map_some, Run.ofFuel_some, Run.pure_bind, menuAnswer]
      by_cases hquit : w.curses.getch k = KEY_QUIT
      · simp only [if_pos hquit]
        rfl
      · have hpos : (cursor w.curses accounts.length k : ℤ) ≥ 0 := Int.natCast_nonneg _
        simp only [if_neg hquit, if_pos hpos, Int.toNat_natCast, Run.shown_bind, Run.shown_deref]
        rfl

theorem accountFromList_comesTo (hitem : ∀ a ∈ accounts, tuiItem a ≠ none) :
    Run.ComesTo Event.visible (fun fuel => accountFromList w fuel accounts) (Purpose.select w accounts) := by
  match accounts with
  | [] => exact .of_shown rfl
  | [_] => exact .of_shown rfl
  | _ :: _ :: _ => exact selectAccount_comesTo hitem

/-- The database as it has been read. -/
theorem lookUp_comesTo {path : CStr} {chunks : List Chunk} (hopen : openStream w path = some chunks) :
    Run.ComesTo Event.visible (fun fuel => readEntireFile w (some path) >>= fun buf =>
      match buf.data with
      | none => pure (Account.null,0)
      | some data => do
        let parsed := parseAccounts data 0 buf.size
        Run.emits (parsed.stderr.map fun d => .stderr d.text)
        accountFromList w fuel parsed.read) (Purpose.lookUp w (delivered chunks)) := by
  unfold Purpose.lookUp
  by_cases hlarge : MAX_DATABASE_FILE_SIZE < (delivered chunks).length + CHUNK_SIZE
  · obtain ⟨size,capacity,hrun⟩ := readEntireFile_large hopen hlarge
    simp only [hrun, if_pos hlarge]
    exact .of_forall fun _ => rfl
  · have hread : parseAccounts (held (w.uninit .database) (delivered chunks) (capacityOf (delivered chunks).length))
        0 (delivered chunks).length = parseText [] (delivered chunks) (Purpose.slack w (delivered chunks).length) :=
      (parseText_nil _ _).symm
    rw [if_neg hlarge, readEntireFile_buffer hopen (not_lt.mp hlarge)]
    simp only [Run.pure_bind, bufferOf, hread, parseText_read, parseText_messages]
    refine .andThen ?_ fun _ _ => accountFromList_comesTo fun a ha => tuiItem_of_mem_stored ha
    apply Run.shown_eq_self
    refine .emits ?_
    intro e he
    obtain ⟨d,-,rfl⟩ := List.mem_map.mp he
    rfl

theorem determineAccount_comesTo (w : World) (options : CliOpts) :
    Run.ComesTo Event.visible (fun fuel => determineAccount w fuel options) (Purpose.determine w options) := by
  unfold determineAccount Purpose.determine
  by_cases husername : options.username = none
  · simp only [if_pos husername]
    have hcall : (Run.emit (.readEntireFile options.domainOrDatabase) : Run Event Unit).shown Event.visible =
        pure () := rfl
    cases hpath : options.domainOrDatabase with
    | none => exact .of_forall fun _ => rfl
    | some path =>
      rw [hpath] at hcall
      cases hopen : openStream w path with
      | none =>
        have hread : readEntireFile w (some path) = ⟨[.openFailed path],.ok ⟨none,0,0⟩⟩ := by
          rw [readEntireFile, Run.deref_some, Run.pure_bind, hopen]
          rfl
        simp only [hread, Run.deref_some, Run.pure_bind, hopen]
        exact .of_forall fun _ => rfl
      | some chunks =>
        simp only [Run.deref_some, Run.pure_bind, hopen]
        exact .after hcall (lookUp_comesTo hopen)
  · simp only [if_neg husername]
    exact .pure _

end Determine

theorem cliParse_eq (argv : List ArgpEvent) : cliParse argv = commandLine [] argv :=
  argpOptions_commandLine (show (positionals []).length ≤ 2 by decide) argv

theorem shown_cliParse (argv : List ArgpEvent) : (cliParse argv).shown Event.visible = commandLine [] argv := by
  rw [cliParse_eq]
  apply Run.shown_eq_self
  unfold commandLine
  split
  · exact .pure _
  · exact .bind (.emit rfl) fun _ _ => .pure _
  · exact .bind (.emit rfl) fun _ _ => .stop _
  · exact .bind (.emit rfl) fun _ _ => .stop _

theorem mainAccount_comesTo (w : World) (argv : List ArgpEvent) :
    Run.ComesTo Event.visible (fun fuel => mainAccount w fuel argv) (Purpose.accountOf w argv) := by
  refine .andThen (shown_cliParse argv) fun options _ => ?_
  have hcall : (Run.emit (.determineAccount options) : Run Event Unit).shown Event.visible = pure () := rfl
  exact .after hcall (determineAccount_comesTo w options)

theorem main_comesTo (w : World) (argv : List ArgpEvent) :
    Run.ComesTo Event.visible (fun fuel => main w fuel argv) (Purpose.program w argv) :=
  (mainAccount_comesTo w argv).bind fun determined _ =>
    mainWith_comesTo w determined.1 fun k => w.curses.getch (determined.2 + k)

/-- What is seen of a run of `main` is what the program is for, on any fuel that lets the run
end, and on enough fuel whether it ends or not. -/
theorem main_refines (w : World) (argv : List ArgpEvent) :
    (∀ fuel, (main w fuel argv).result ≠ .error .unfinished →
      (main w fuel argv).trace.filter Event.visible = (Purpose.program w argv).trace ∧
      (main w fuel argv).result = (Purpose.program w argv).result) ∧
    ∃ n, ∀ fuel, n ≤ fuel →
      (main w fuel argv).trace.filter Event.visible = (Purpose.program w argv).trace ∧
      (main w fuel argv).result = (Purpose.program w argv).result := by
  obtain ⟨hshort,n,hlong⟩ := main_comesTo w argv
  constructor
  · intro fuel hends
    have hshown := (hshort fuel).resolve_left hends
    have hresult := congrArg Run.result hshown
    exact ⟨congrArg Run.trace hshown,hresult⟩
  · refine ⟨n,?_⟩
    intro fuel hfuel
    have hshown := hlong fuel hfuel
    have hresult := congrArg Run.result hshown
    exact ⟨congrArg Run.trace hshown,hresult⟩

end Padre
