import Mathlib.Data.List.Basic
import Padre.Model.Derivation

/-! # The salt of an account

The three copies of `derive_password` put the domain, the username and the iteration one
behind the other, whatever the block held before, and stay inside it. Without a separator
between them the salt does not tell where one field ends: it determines the string, and with
the places of the two cuts the account.
-/
namespace Padre
open CString

theorem memcpy_first (block s : List UInt8) :
    memcpy block 0 (s ++ [0]) = s ++ 0 :: block.drop (s.length + 1) := by
  simp [memcpy]

theorem memcpy_strlen {w : List UInt8} (hw : (0 : UInt8) ∉ w) (s rest : List UInt8) :
    memcpy (w ++ 0 :: rest) (strlen (w ++ 0 :: rest)) (s ++ [0]) =
      (w ++ s) ++ 0 :: rest.drop s.length := by
  have hdrop : (w ++ 0 :: rest).drop (w.length + (s.length + 1)) = rest.drop s.length := by
    rw [← List.drop_drop, List.drop_left, List.drop_succ_cons]
  rw [strlen_append_nul hw, memcpy, List.take_left]
  simp [hdrop]

theorem nul_notMem_append (s t : CStr) : (0 : UInt8) ∉ s.bytes ++ t.bytes := by
  simp [s.nul_free, t.nul_free]

/-- The copies fill the block, up to the terminator that the last one leaves. -/
theorem saltBlock_eq (uninit : ℕ → UInt8) (domain username passno : CStr) :
    saltBlock uninit domain username passno = (domain.bytes ++ username.bytes ++ passno.bytes) ++ [0] := by
  simp only [saltBlock]
  rw [memcpy_first, memcpy_strlen domain.nul_free, memcpy_strlen (nul_notMem_append domain username)]
  rw [List.drop_eq_nil_of_le]
  simp only [saltLen, List.length_drop, List.length_map, List.length_range]
  omega

/-- No copy is beyond the allocation: the block is as long behind the copies as in front of them. -/
theorem length_saltBlock (uninit : ℕ → UInt8) (domain username passno : CStr) :
    (saltBlock uninit domain username passno).length = saltLen domain username passno + 1 := by
  rw [saltBlock_eq]
  simp only [saltLen, List.length_append, List.length_singleton]

/-- The salt is the plain concatenation. -/
theorem salt_eq (uninit : ℕ → UInt8) (domain username passno : CStr) :
    salt uninit domain username passno = domain.bytes ++ username.bytes ++ passno.bytes := by
  have hlen : saltLen domain username passno =
      (domain.bytes ++ username.bytes ++ passno.bytes).length := by
    simp [saltLen, Nat.add_assoc]
  rw [salt, saltBlock_eq, hlen, List.take_left]

/-- The cells of a block `memcpy` writes to. -/
def memcpyWrites (off : ℕ) (src : List UInt8) : List ℕ := List.range' off src.length

/-- The cells of the allocated block the three copies write to, copy by copy. -/
def saltWrites (uninit : ℕ → UInt8) (domain username passno : CStr) : List ℕ :=
  let salt := (List.range (saltLen domain username passno + 1)).map uninit
  let first := memcpyWrites 0 (domain.bytes ++ [0])
  let salt := memcpy salt 0 (domain.bytes ++ [0])
  let second := memcpyWrites (strlen salt) (username.bytes ++ [0])
  let salt := memcpy salt (strlen salt) (username.bytes ++ [0])
  first ++ second ++ memcpyWrites (strlen salt) (passno.bytes ++ [0])

theorem memcpy_untouched {block src : List UInt8} {off i : ℕ} (hoff : off ≤ block.length)
    (h : i ∉ memcpyWrites off src) : (memcpy block off src)[i]? = block[i]? := by
  have hout : i < off ∨ off + src.length ≤ i := by
    by_contra hin
    apply h
    rw [memcpyWrites, List.mem_range'_1]
    omega
  have hlen : (block.take off ++ src).length = off + src.length := by
    rw [List.length_append, List.length_take]
    omega
  unfold memcpy
  rcases hout with hlt | hge
  · rw [List.append_assoc, List.getElem?_append_left (by rw [List.length_take]; omega),
      List.getElem?_take_of_lt hlt]
  · rw [List.getElem?_append_right (by omega), hlen, List.getElem?_drop]
    congr 1
    omega

/-- Where the terminator of the copy before stands is where a copy starts. -/
theorem saltWrites_eq (uninit : ℕ → UInt8) (domain username passno : CStr) :
    saltWrites uninit domain username passno =
      List.range' 0 (domain.bytes.length + 1) ++
        List.range' domain.bytes.length (username.bytes.length + 1) ++
        List.range' (domain.bytes.length + username.bytes.length) (passno.bytes.length + 1) := by
  simp only [saltWrites, memcpyWrites]
  rw [memcpy_first, memcpy_strlen domain.nul_free, strlen_append_nul domain.nul_free,
    strlen_append_nul (nul_notMem_append domain username)]
  simp only [List.length_append, List.length_singleton]

/-- A cell none of the copies writes to is as it was allocated. -/
theorem saltBlock_untouched {uninit : ℕ → UInt8} {domain username passno : CStr} {i : ℕ}
    (h : i ∉ saltWrites uninit domain username passno) :
    (saltBlock uninit domain username passno)[i]? =
      ((List.range (saltLen domain username passno + 1)).map uninit)[i]? := by
  simp only [saltWrites, List.mem_append, not_or] at h
  obtain ⟨⟨hfirst,hsecond⟩,hthird⟩ := h
  simp only [saltBlock]
  rw [memcpy_untouched ?_ hthird, memcpy_untouched ?_ hsecond, memcpy_untouched (Nat.zero_le _) hfirst]
  · rw [memcpy_first, strlen_append_nul domain.nul_free]
    simp
  · rw [memcpy_first, memcpy_strlen domain.nul_free, strlen_append_nul (nul_notMem_append domain username)]
    simp

/-- The copies stay in the `salt_len + 1` bytes of the block and leave the rest of it alone, the
bytes of the salt are the concatenation, and the derivation is one and the same for every first
content of the block. -/
theorem derivePassword_salt (scrypt : Scrypt) (malloc : ℕ → Bool) (uninit : ℕ → UInt8)
    (masterPassword : List UInt8) (domain username passno : CStr) (bufLen : ℕ) (buf : List UInt8) :
    (∀ i ∈ saltWrites uninit domain username passno, i < saltLen domain username passno + 1) ∧
    (saltBlock uninit domain username passno).length = saltLen domain username passno + 1 ∧
    (∀ i, i ∉ saltWrites uninit domain username passno → (saltBlock uninit domain username passno)[i]? =
      ((List.range (saltLen domain username passno + 1)).map uninit)[i]?) ∧
    (saltBlock uninit domain username passno).take (saltLen domain username passno) =
      domain.bytes ++ username.bytes ++ passno.bytes ∧
    derivePassword scrypt malloc uninit masterPassword domain username passno bufLen buf =
      (if malloc (saltLen domain username passno + 1) then
        let r := scrypt masterPassword (domain.bytes ++ username.bytes ++ passno.bytes) MP_N MP_r MP_p bufLen
        ⟨r.1,memcpy buf 0 r.2.toList,[]⟩
      else ⟨-1,buf,["Could not allocate memory for the salt"]⟩) ∧
    ∀ uninit' : ℕ → UInt8,
      derivePassword scrypt malloc uninit' masterPassword domain username passno bufLen buf =
        derivePassword scrypt malloc uninit masterPassword domain username passno bufLen buf := by
  refine ⟨?_,length_saltBlock uninit domain username passno,fun i hi => saltBlock_untouched hi,
    salt_eq uninit domain username passno,?_,?_⟩
  · intro i hi
    rw [saltWrites_eq, List.mem_append, List.mem_append] at hi
    simp only [List.mem_range'_1] at hi
    unfold saltLen
    omega
  · rw [derivePassword, salt_eq]
  · intro uninit'
    simp only [derivePassword, salt_eq]

/-- What the key derivation is salted with is named by these three fields. -/
structure SaltFields where
  domain : CStr
  username : CStr
  iteration : CStr
deriving DecidableEq

def SaltFields.salt (f : SaltFields) (uninit : ℕ → UInt8) : List UInt8 :=
  Padre.salt uninit f.domain f.username f.iteration

/-- Two triples cut one string at different places. -/
structure Recut (f g : SaltFields) : Prop where
  string : f.domain.bytes ++ f.username.bytes ++ f.iteration.bytes =
    g.domain.bytes ++ g.username.bytes ++ g.iteration.bytes
  cuts : f.domain.bytes.length ≠ g.domain.bytes.length ∨
    f.username.bytes.length ≠ g.username.bytes.length

theorem SaltFields.eq_of_cuts {f g : SaltFields}
    (hstring : f.domain.bytes ++ f.username.bytes ++ f.iteration.bytes =
      g.domain.bytes ++ g.username.bytes ++ g.iteration.bytes)
    (hdomain : f.domain.bytes.length = g.domain.bytes.length)
    (husername : f.username.bytes.length = g.username.bytes.length) : f = g := by
  have hlen : (f.domain.bytes ++ f.username.bytes).length =
      (g.domain.bytes ++ g.username.bytes).length := by
    simp [hdomain, husername]
  obtain ⟨hdu,hi⟩ := List.append_inj hstring hlen
  obtain ⟨hd,hu⟩ := List.append_inj hdu hdomain
  cases f
  cases g
  simp only [SaltFields.mk.injEq]
  exact ⟨CStr.ext hd,CStr.ext hu,CStr.ext hi⟩

/-- Unequal triples have different salts unless they cut one string at different places;
so do in particular two that differ in a single field, such as two iterations of one account. -/
theorem salt_ne_iff (uninit uninit' : ℕ → UInt8) (f g : SaltFields) (hne : f ≠ g) :
    (f.salt uninit ≠ g.salt uninit' ↔ ¬ Recut f g) ∧
    (f.domain = g.domain ∧ f.username = g.username ∨
      f.domain = g.domain ∧ f.iteration = g.iteration ∨
      f.username = g.username ∧ f.iteration = g.iteration → f.salt uninit ≠ g.salt uninit') := by
  have hiff : f.salt uninit = g.salt uninit' ↔ Recut f g := by
    rw [SaltFields.salt, SaltFields.salt, salt_eq, salt_eq]
    refine ⟨fun h => ⟨h,?_⟩,fun h => h.string⟩
    by_contra hcuts
    simp only [ne_eq, not_or, not_not] at hcuts
    exact hne (SaltFields.eq_of_cuts h hcuts.1 hcuts.2)
  refine ⟨not_congr hiff,?_⟩
  intro hshared heq
  obtain ⟨hstring,hcuts⟩ := hiff.mp heq
  have hlen := congrArg List.length hstring
  simp only [List.length_append] at hlen
  rcases hshared with ⟨hd,hu⟩ | ⟨hd,hi⟩ | ⟨hu,hi⟩
  · rw [hd, hu] at hcuts
    omega
  · rw [hd, hi] at hlen
    rw [hd] at hcuts
    omega
  · rw [hu, hi] at hlen
    rw [hu] at hcuts
    omega

/-- A letter that moves from the username to the domain. -/
theorem salt_collision :
    ¬ ∀ (uninit : ℕ → UInt8) (f g : SaltFields), f ≠ g → f.salt uninit ≠ g.salt uninit := by
  intro h
  exact h (fun _ => 7)
    ⟨CStr.upto (literal "ab"),CStr.upto (literal "c"),CStr.upto (literal "0")⟩
    ⟨CStr.upto (literal "a"),CStr.upto (literal "bc"),CStr.upto (literal "0")⟩ (by decide) (by decide)

/-- The first and the second iteration of an account. -/
theorem salt_ne_iterations :
    (SaltFields.mk (CStr.upto (literal "a")) (CStr.upto (literal "b")) (CStr.upto (literal "0"))).salt
        (fun _ => 7) ≠
      (SaltFields.mk (CStr.upto (literal "a")) (CStr.upto (literal "b")) (CStr.upto (literal "1"))).salt
        (fun _ => 8) :=
  (salt_ne_iff (fun _ => 7) (fun _ => 8) ⟨CStr.upto (literal "a"),CStr.upto (literal "b"),CStr.upto (literal "0")⟩
    ⟨CStr.upto (literal "a"),CStr.upto (literal "b"),CStr.upto (literal "1")⟩ (by decide)).2
    (Or.inl ⟨rfl,rfl⟩)

end Padre
