import Padre.Charset.Scan
import Padre.Password.Conversion
import Padre.Run.Prompt

/-! # The password that is printed

For an account whose fields are all there, `main` prints one line when the derivation
succeeds and none when it does not. The line is as long as the account asks for and made
of the characters that the derived bytes select.
-/
namespace Padre
open CString Trace

/-- The line an event prints to the standard output. -/
def Event.line : Event → Option (List UInt8)
  | .stdout line => some line
  | _ => none

def printed (trace : List Event) : List (List UInt8) := trace.filterMap Event.line

@[simp] theorem printed_nil : printed [] = [] := rfl

@[simp] theorem printed_append (s t : List Event) : printed (s ++ t) = printed s ++ printed t :=
  List.filterMap_append

@[simp] theorem printed_stdout (line : List UInt8) (t : List Event) :
    printed (.stdout line :: t) = line :: printed t := rfl

@[simp] theorem printed_zero (i : ℕ) (t : List Event) : printed (.zero i :: t) = printed t := rfl

@[simp] theorem printed_perror (text : String) (t : List Event) :
    printed (.perror text :: t) = printed t := rfl

@[simp] theorem printed_map {α : Type} (f : α → Event) (xs : List α) (h : ∀ x, (f x).line = none) :
    printed (xs.map f) = [] := by
  rw [printed, List.filterMap_eq_nil_iff]
  intro e he
  obtain ⟨x,-,rfl⟩ := List.mem_map.mp he
  exact h x

theorem printed_keyEvents (keys : ℕ → ℤ) (cur n : ℕ) : printed (keyEvents keys cur n) = [] :=
  printed_map _ _ fun _ => rfl

/-- The password that the derived bytes `b` select from the characters `chars` of `spec`. -/
structure IsPassword (spec : CStr) (chars : List UInt8) (rlen : ℕ) {L : ℕ} (b : Vector UInt8 L)
    (password : List UInt8) : Prop where
  length : password.length = L
  nul_free : (0 : UInt8) ∉ password
  selected : ∀ (k : ℕ) (hk : k < L), password[k]? = chars[b[k].toNat % rlen]?
  expanded : ∀ c ∈ password, c ∈ expansion (resolveClass spec)

section Account
variable (w : World) (fuel : ℕ) (d u i spec : CStr) (L : ℕ) (keys : ℕ → ℤ)

def fullAccount : Account (Option CStr) := ⟨some (some d),some (some u),some (some i),some (some spec),L⟩

/-- The call of the key derivation function that the typed keys lead to. -/
def scryptCall : ℤ × Vector UInt8 L :=
  w.scrypt (typed keys 0 (promptLen keys)) (salt (w.uninit .salt) d u i) MP_N MP_r MP_p L

/-- The run of `main` gets behind the derivation. -/
def Derives : Prop :=
  w.malloc .password (L + 1) = true ∧ keys (promptLen keys) ≠ EOF ∧
    w.malloc .salt (saltLen d u i + 1) = true ∧ (scryptCall w d u i L keys).1 = 0

theorem deriveAndClear_full (asked : Asked) :
    ∃ trace, deriveAndClear w (fullAccount d u i spec L) asked =
      ⟨trace,.ok (derivePassword w.scrypt (w.malloc .salt) (w.uninit .salt)
        (asked.passwd.take asked.len) d u i L (fresh (w.uninit .password) 0 (L + 1)))⟩ ∧
      printed trace = [] := by
  simp only [deriveAndClear, fullAccount, Option.bind_some, id_eq, Run.deref_some, Run.pure_bind,
    Run.emits_bind, Run.pure_trace, Run.pure_result, List.append_nil]
  refine ⟨_,rfl,?_⟩
  rw [printed_append, printed_map _ _ fun _ => rfl, printed_map _ _ fun _ => rfl]
  rfl

variable {w d u i spec L keys}

theorem memcpy_fresh (uninit : ℕ → UInt8) (b : Vector UInt8 L) :
    ∃ last, memcpy (fresh uninit 0 (L + 1)) 0 b.toList = b.toList ++ [last] := by
  have hlen : ((fresh uninit 0 (L + 1)).drop L).length = 1 := by simp [fresh]
  obtain ⟨last,hlast⟩ := List.length_eq_one_iff.mp hlen
  refine ⟨last,?_⟩
  simp [memcpy, hlast]

section Charset
variable {out : CharsetOut} {block : Block} {rlen : ℕ}

theorem charset_delivered
    (hcharset : enumerateCharset fuel (w.malloc .charset) (w.uninit .chars) (some spec) freshOut = some (0,out))
    (hrlen : out.rlen = some rlen) (hres : out.res = some (some block)) :
    rlen = (untilNul (expansion (resolveClass spec))).length ∧
    block.bytes = untilNul (expansion (resolveClass spec)) ++ [0] ∧ rlen ≤ INT_MAX := by
  obtain ⟨hle,-,hlen,hblock⟩ := enumerateCharset_accepted hcharset
  have hr : rlen = (untilNul (expansion (resolveClass spec))).length :=
    Option.some.inj (hrlen.symm.trans hlen)
  have hshorter : (untilNul (expansion (resolveClass spec))).length ≤
      (expansion (resolveClass spec)).length := (List.takeWhile_sublist _).length_le
  refine ⟨hr,?_,?_⟩
  · have heq := hres.symm.trans hblock
    simp only [Option.some.injEq] at heq
    rw [heq]
  · unfold INT_MAX
    omega

variable {b : Vector UInt8 L}

theorem isPassword_convert (hr : rlen = (untilNul (expansion (resolveClass spec))).length)
    (hbytes : block.bytes = untilNul (expansion (resolveClass spec)) ++ [0]) (hpos : 1 ≤ rlen) :
    IsPassword spec block.bytes rlen b (b.toList.map (charAt block.bytes rlen)) := by
  -- a residue never reaches the terminator behind the characters
  have hchar (x : UInt8) : charAt block.bytes rlen x ∈ untilNul (expansion (resolveClass spec)) := by
    have hlt : x.toNat % rlen < (untilNul (expansion (resolveClass spec))).length :=
      hr ▸ Nat.mod_lt _ hpos
    rw [charAt, hbytes, List.getD_append _ _ _ _ hlt, List.getD_eq_getElem _ _ hlt]
    exact List.getElem_mem hlt
  refine ⟨by simp,?_,?_,?_⟩
  · intro h
    obtain ⟨x,-,hx⟩ := List.mem_map.mp h
    exact nul_notMem_untilNul _ (hx ▸ hchar x)
  · intro k hk
    have hlt : b[k].toNat % rlen < block.bytes.length := by
      rw [hbytes, List.length_append, ← hr]
      exact Nat.lt_add_right _ (Nat.mod_lt _ hpos)
    rw [List.getElem?_map, List.getElem?_eq_getElem hlt]
    simp [charAt, hk, hlt]
  · intro c hc
    obtain ⟨x,-,rfl⟩ := List.mem_map.mp hc
    exact (List.takeWhile_sublist _).subset (hchar x)

theorem printPassword_prints
    (hcharset : enumerateCharset fuel (w.malloc .charset) (w.uninit .chars) (some spec) freshOut = some (0,out))
    (hrlen : out.rlen = some rlen) (hres : out.res = some (some block)) (hpos : 1 ≤ rlen) (last : UInt8) :
    (printPassword w fuel (fullAccount d u i spec L) (b.toList ++ [last])).result = .ok EXIT_SUCCESS ∧
    printed (printPassword w fuel (fullAccount d u i spec L) (b.toList ++ [last])).trace =
      [b.toList.map (charAt block.bytes rlen) ++ [newline]] := by
  obtain ⟨hr,hbytes,hmax⟩ := charset_delivered fuel hcharset hrlen hres
  have hnul := (isPassword_convert (b := b) hr hbytes hpos).nul_free
  have hle : rlen ≤ block.bytes.length := by simp [hbytes, hr]
  have hconvert := toChars_spec hpos hle hmax b.toList [] last
  rw [Vector.length_toList] at hconvert
  have hline : strAt (b.toList.map (charAt block.bytes rlen) ++ [0]) 0 =
      some ⟨b.toList.map (charAt block.bytes rlen),hnul⟩ := by
    have hstr := strAt_field [] (b.toList.map (charAt block.bytes rlen)) []
    rw [List.nil_append, List.length_nil] at hstr
    rw [hstr]
    exact congrArg some (CStr.upto_bytes ⟨_,hnul⟩)
  simp only [printPassword, fullAccount, charsetSpec, Run.pure_bind, hcharset, Run.ofFuel_some,
    Run.emits_bind, hres, hrlen, hconvert, hline, Run.deref_some, Option.bind_some, id_eq,
    ne_eq, not_true_eq_false, if_false, Run.emit_bind, Run.pure_trace, Run.pure_result]
  refine ⟨trivial,?_⟩
  rw [printed_append, printed_map _ _ fun _ => rfl]
  rfl

/-- `main` behind the prompt, according to whether the derivation succeeds. -/
theorem afterPrompt_prints {asked : Asked}
    (htyped : asked.passwd.take asked.len = typed keys 0 (promptLen keys))
    (hcharset : enumerateCharset fuel (w.malloc .charset) (w.uninit .chars) (some spec) freshOut = some (0,out))
    (hrlen : out.rlen = some rlen) (hres : out.res = some (some block)) (hpos : 1 ≤ rlen) :
    (w.malloc .salt (saltLen d u i + 1) = true ∧ (scryptCall w d u i L keys).1 = 0 →
      (afterPrompt w fuel (fullAccount d u i spec L) asked).result = .ok EXIT_SUCCESS ∧
      printed (afterPrompt w fuel (fullAccount d u i spec L) asked).trace =
        [(scryptCall w d u i L keys).2.toList.map (charAt block.bytes rlen) ++ [newline]]) ∧
    (¬ (w.malloc .salt (saltLen d u i + 1) = true ∧ (scryptCall w d u i L keys).1 = 0) →
      printed (afterPrompt w fuel (fullAccount d u i spec L) asked).trace = []) := by
  obtain ⟨trace,hrun,htrace⟩ := deriveAndClear_full w d u i spec L asked
  rw [afterPrompt, hrun, Run.bind_of_ok rfl, htyped]
  by_cases hsalt : w.malloc .salt (saltLen d u i + 1) = true
  · obtain ⟨last,hbuf⟩ := memcpy_fresh (w.uninit .password) (scryptCall w d u i L keys).2
    have hderived : derivePassword w.scrypt (w.malloc .salt) (w.uninit .salt)
        (typed keys 0 (promptLen keys)) d u i L (fresh (w.uninit .password) 0 (L + 1)) =
        ⟨(scryptCall w d u i L keys).1,(scryptCall w d u i L keys).2.toList ++ [last],[]⟩ := by
      rw [derivePassword, if_pos hsalt, ← hbuf]
      rfl
    rw [hderived]
    by_cases hret : (scryptCall w d u i L keys).1 = 0
    · obtain ⟨hresult,hprinted⟩ := printPassword_prints (d := d) (u := u) (i := i) fuel hcharset hrlen hres
        hpos (b := (scryptCall w d u i L keys).2) last
      simp only [hret, ne_eq, not_true_eq_false, if_false, printed_append, htrace, hresult, hprinted]
      exact ⟨fun _ => ⟨trivial,rfl⟩,fun h => absurd ⟨hsalt,trivial⟩ h⟩
    · refine ⟨fun h => absurd h.2 hret,?_⟩
      intro _
      simp only [ne_eq, hret, not_false_eq_true, if_true, printed_append, htrace]
      rfl
  · refine ⟨fun h => absurd h.1 hsalt,?_⟩
    intro _
    rw [derivePassword, if_neg hsalt, printed_append, htrace]
    rfl

variable (w d u i spec L keys) in
/-- For every account, every accepted spec with a character in it and every derivation,
`main` prints exactly the password that the derived bytes select, and nothing when it does
not get behind the derivation. -/
theorem main_prints
    (hcharset : enumerateCharset fuel (w.malloc .charset) (w.uninit .chars) (some spec) freshOut = some (0,out))
    (hrlen : out.rlen = some rlen) (hres : out.res = some (some block)) (hpos : 1 ≤ rlen) :
    ∃ line, IsPassword spec block.bytes rlen (scryptCall w d u i L keys).2 line ∧
      (Derives w d u i L keys →
        (mainWith w fuel (fullAccount d u i spec L) keys).result = .ok EXIT_SUCCESS ∧
        printed (mainWith w fuel (fullAccount d u i spec L) keys).trace = [line ++ [newline]]) ∧
      (¬ Derives w d u i L keys → printed (mainWith w fuel (fullAccount d u i spec L) keys).trace = []) := by
  obtain ⟨hr,hbytes,-⟩ := charset_delivered fuel hcharset hrlen hres
  refine ⟨_,isPassword_convert hr hbytes hpos,?_⟩
  have hdomain : (fullAccount d u i spec L).domain ≠ none := by simp [fullAccount]
  by_cases hpassword : w.malloc .password (L + 1) = true
  · by_cases hend : keys (promptLen keys) = EOF
    · refine ⟨fun h => absurd hend h.2.1,?_⟩
      intro _
      rw [mainWith_eof fuel hdomain hpassword hend, printed_append, printed_keyEvents]
      rfl
    · obtain ⟨asked,htyped,hrun⟩ := mainWith_typed fuel hdomain hpassword hend
      obtain ⟨hdone,hfailed⟩ := afterPrompt_prints (d := d) (u := u) (i := i) (L := L) fuel htyped hcharset
        hrlen hres hpos
      rw [hrun]
      simp only [printed_append, printed_keyEvents, printed_zero, List.nil_append]
      exact ⟨fun h => hdone h.2.2,fun h => hfailed fun hd => h ⟨hpassword,hend,hd⟩⟩
  · refine ⟨fun h => absurd h.1 hpassword,?_⟩
    intro _
    have hfalse : w.malloc .password ((fullAccount d u i spec L).length + 1) = false :=
      Bool.eq_false_iff.mpr hpassword
    rw [mainWith, if_neg hdomain, if_pos hfalse]
    rfl

end Charset

end Account

/-- Two characters over `a-c`, behind a master password of one key. -/
theorem main_prints_abc :
    ∃ line, IsPassword (CStr.upto (literal "a-c")) [97,98,99,0] 3
        (scryptCall (plainWorld [120,10] [] 4) (CStr.upto (literal "a")) (CStr.upto (literal "b"))
          (CStr.upto (literal "0")) 2 fun k => [120,10].getD k EOF).2 line ∧
      printed (mainWith (plainWorld [120,10] [] 4) 5
        (fullAccount (CStr.upto (literal "a")) (CStr.upto (literal "b")) (CStr.upto (literal "0"))
          (CStr.upto (literal "a-c")) 2) fun k => [120,10].getD k EOF).trace = [line ++ [newline]] := by
  have hcharset : enumerateCharset 5 ((plainWorld [120,10] [] 4).malloc .charset)
      ((plainWorld [120,10] [] 4).uninit .chars) (some (CStr.upto (literal "a-c"))) freshOut =
      some (0,⟨some (some ⟨3,[97,98,99,0]⟩),some 3,0,[]⟩) := by decide
  obtain ⟨line,hline,hprints,-⟩ := main_prints (plainWorld [120,10] [] 4) 5 (CStr.upto (literal "a"))
    (CStr.upto (literal "b")) (CStr.upto (literal "0")) (CStr.upto (literal "a-c")) 2
    (fun k => [120,10].getD k EOF) hcharset rfl rfl (by decide)
  exact ⟨line,hline,(hprints ⟨rfl,by decide,rfl,rfl⟩).2⟩

end Padre
