import Mathlib.Data.Set.Card
import Padre.General.Residues
import Padre.Run.Prints

/-! # How evenly passwords come out

A password is printed for as many outputs of the key derivation as its characters have bytes
that select them. A character that the spec names several times is selected by as many more
bytes, and the remainder of 256 by the number of characters makes up for the rest.
-/
namespace Padre
open CString Residues Trace

/-- The places at which `c` stands in `chars`. -/
def places (chars : List UInt8) (c : UInt8) : Finset ℕ :=
  (Finset.range chars.length).filter fun r => chars.getD r 0 = c

theorem card_places (chars : List UInt8) (c : UInt8) : (places chars c).card = chars.count c := by
  induction chars using List.reverseRecOn with
  | nil => rfl
  | append_singleton chars b ih =>
    have hbelow : (Finset.range chars.length).filter (fun r => (chars ++ [b]).getD r 0 = c) = places chars c := by
      refine Finset.filter_congr fun r hr => ?_
      rw [List.getD_append _ _ _ _ (Finset.mem_range.mp hr)]
    have hlast : (chars ++ [b]).getD chars.length 0 = b := by simp
    have hnotMem : chars.length ∉ places chars c := by simp [places]
    rw [places, List.length_append, List.length_singleton, Finset.range_add_one, Finset.filter_insert, hbelow, hlast,
      List.count_append, ← ih]
    by_cases hb : b = c
    · rw [if_pos hb, Finset.card_insert_of_notMem hnotMem, hb, List.count_singleton_self]
    · simp [hb]

/-- The bytes that select `c`. -/
theorem filter_charAt {chars : List UInt8} (hne : chars ≠ []) (c : UInt8) :
    (Finset.univ.filter fun b => charAt chars chars.length b = c) = bytesOfResidues chars.length (places chars c) := by
  ext b
  have hlt : b.toNat % chars.length < chars.length := Nat.mod_lt _ (List.length_pos_iff.mpr hne)
  simp [bytesOfResidues, places, charAt, hlt]

/-- The strings of bytes that become the password `p`. -/
def preimage {L : ℕ} (chars : List UInt8) (p : Fin L → UInt8) : Finset (Fin L → UInt8) :=
  Finset.univ.filter fun b => Purpose.password chars (List.ofFn b) = List.ofFn p

theorem preimage_eq_piFinset {L : ℕ} {chars : List UInt8} (hne : chars = [] → L = 0) (p : Fin L → UInt8) :
    preimage chars p = Fintype.piFinset fun k => bytesOfResidues chars.length (places chars (p k)) := by
  have hselects (k : Fin L) (b : UInt8) :
      charAt chars chars.length b = p k ↔ b ∈ bytesOfResidues chars.length (places chars (p k)) := by
    have hchars : chars ≠ [] := fun hnil => absurd k.isLt (by simp [hne hnil])
    rw [← filter_charAt hchars, Finset.mem_filter, and_iff_right (Finset.mem_univ b)]
  ext b
  simp only [preimage, Purpose.password, List.map_ofFn, List.ofFn_inj, funext_iff, Function.comp_apply,
    Finset.mem_filter, Finset.mem_univ, true_and, Fintype.mem_piFinset, hselects]

theorem card_preimage_bounds {L : ℕ} {chars : List UInt8} (hne : chars = [] → L = 0) (p : Fin L → UInt8) :
    ∏ k, (chars.count (p k) * (256 / chars.length)) ≤ (preimage chars p).card ∧
      (preimage chars p).card ≤ ∏ k, (chars.count (p k) * ((256 + chars.length - 1) / chars.length)) := by
  have hplaces (k : Fin L) : ∀ r ∈ places chars (p k), r < chars.length :=
    fun r hr => Finset.mem_range.mp (Finset.mem_filter.mp hr).1
  rw [preimage_eq_piFinset hne, Fintype.card_piFinset]
  simp only [← card_places]
  constructor
  · exact Finset.prod_le_prod' fun k _ => (card_bytesOfResidues_bounds (hplaces k)).1
  · exact Finset.prod_le_prod' fun k _ => (card_bytesOfResidues_bounds (hplaces k)).2

section Derived
variable {L : ℕ}

/-- The world in which the key derivation gives the bytes `b`. -/
def World.deriving (w : World) (b : Fin L → UInt8) : World :=
  { w with scrypt := fun _ _ _ _ _ _ => (0,Vector.ofFn fun k => if h : k.val < L then b ⟨k,h⟩ else 0) }

/-- The outputs of the key derivation for which the program prints `p`. -/
def printing (w : World) (argv : List ArgpEvent) (p : Fin L → UInt8) : Set (Fin L → UInt8) :=
  {b | ∃ fuel, Event.stdout (List.ofFn p ++ [newline]) ∈ (main (w.deriving b) fuel argv).trace}

theorem scryptCall_deriving (w : World) (b : Fin L → UInt8) (d u i : CStr) (keys : ℕ → ℤ) :
    scryptCall (w.deriving b) d u i L keys = (0,Vector.ofFn b) := by
  simp [scryptCall, World.deriving]

variable {w : World} {account : Account (Option CStr)} {keys : ℕ → ℤ} {b b' : Fin account.length → UInt8}

/-- Which bytes are derived does not matter for whether a password comes out. -/
theorem Yields.deriving {d u i spec : CStr} (h : Yields (w.deriving b) account keys d u i spec) :
    Yields (w.deriving b') account keys d u i spec := by
  obtain ⟨⟨hdomain,hmalloc,htyped⟩,⟨hsalted,hsalt,hderived⟩,hspec,⟨hends,hfits,hcharset,henough⟩⟩ := h
  refine ⟨⟨hdomain,hmalloc,htyped⟩,⟨hsalted,hsalt,?_⟩,hspec,⟨hends,hfits,hcharset,?_⟩⟩
  · rw [scryptCall_deriving]
  · intro hnil
    have hempty := congrArg List.length (henough hnil)
    apply List.eq_nil_of_length_eq_zero
    simpa using hempty

theorem ask_deriving_iff {d u i spec : CStr} (h : Yields (w.deriving b) account keys d u i spec)
    (p : Fin account.length → UInt8) :
    Event.stdout (List.ofFn p ++ [newline]) ∈ (Purpose.ask (w.deriving b') account keys).trace ↔
      b' ∈ preimage (Purpose.characters spec) p := by
  rw [ask_prints_iff, preimage, Finset.mem_filter, and_iff_right (Finset.mem_univ b')]
  constructor
  · rintro ⟨d',u',i',spec',hyields,hline⟩
    obtain rfl : spec = spec' := by
      have hsame := h.characters.symm.trans hyields.characters
      simpa using hsame
    rw [scryptCall_deriving, Vector.toList_ofFn] at hline
    exact (List.append_cancel_right hline).symm
  · intro hpassword
    refine ⟨d,u,i,spec,h.deriving,?_⟩
    rw [scryptCall_deriving, Vector.toList_ofFn, hpassword]

end Derived

/-- What a run prints for an account that is known. -/
theorem main_stdout_determined {w : World} {fuel : ℕ} {argv : List ArgpEvent} {account : Account (Option CStr)}
    {used : ℕ} (h : (mainAccount w fuel argv).result = .ok (account,used)) {line : List UInt8} :
    (∃ fuel, Event.stdout line ∈ (main w fuel argv).trace) ↔
      Event.stdout line ∈ (Purpose.ask w account fun k => w.curses.getch (used + k)).trace := by
  have haccount := (mainAccount_comesTo w argv).answers_iff.mp ⟨fuel,h⟩
  rw [main_stdout_iff, program_prints_iff, ← exists_determined_iff]
  constructor
  · rintro ⟨determined,hdetermined,hmem⟩
    obtain rfl := Except.ok.inj (haccount.symm.trans hdetermined)
    exact hmem
  · intro hmem
    exact ⟨(account,used),haccount,hmem⟩

/-- Over the outputs of a key derivation that lets the program print, each password is printed for
as many as its characters, with their repetitions in the spec, have bytes. -/
theorem main_prints_evenly {w : World} {fuel : ℕ} {argv : List ArgpEvent} {account : Account (Option CStr)}
    {used : ℕ} {spec : CStr} {b : Fin account.length → UInt8} {line : List UInt8}
    (hdetermined : (mainAccount w fuel argv).result = .ok (account,used))
    (hspec : account.characters = some (some spec))
    (hprints : ∃ fuel, Event.stdout line ∈ (main (w.deriving b) fuel argv).trace)
    (p : Fin account.length → UInt8) :
    ∏ k, ((Purpose.characters spec).count (p k) * (256 / (Purpose.characters spec).length)) ≤
      (printing w argv p).ncard ∧
    (printing w argv p).ncard ≤ ∏ k, ((Purpose.characters spec).count (p k) *
      ((256 + (Purpose.characters spec).length - 1) / (Purpose.characters spec).length)) := by
  have hsame (b' : Fin account.length → UInt8) : (mainAccount (w.deriving b') fuel argv).result = .ok (account,used) :=
    hdetermined
  obtain ⟨d,u,i,spec',hyields,-⟩ := ask_prints_iff.mp ((main_stdout_determined (hsame b)).mp hprints)
  obtain rfl : spec = spec' := by
    have h := hspec.symm.trans hyields.characters
    simpa using h
  have hset : printing w argv p = preimage (Purpose.characters spec) p := by
    ext b'
    rw [printing, Set.mem_ofPred_eq, main_stdout_determined (hsame b')]
    exact ask_deriving_iff hyields p
  have hne : Purpose.characters spec = [] → account.length = 0 := by
    intro hnil
    have hempty := congrArg List.length (hyields.delivered.enough hnil)
    simpa using hempty
  rw [hset, Set.ncard_coe_finset]
  exact card_preimage_bounds hne p

/-- Two characters over `a-c`. -/
theorem main_prints_evenly_short :
    ∏ k, ((Purpose.characters (CStr.upto (literal "a-c"))).count (![97,98] k) *
        (256 / (Purpose.characters (CStr.upto (literal "a-c"))).length)) ≤
      (printing (plainWorld [120,10] [] 4) [.c (CStr.upto (literal "a-c")),.l (CStr.upto (literal "2")),
        .keyArg (CStr.upto (literal "a")),.keyArg (CStr.upto (literal "b"))] ![97,98]).ncard ∧
    (printing (plainWorld [120,10] [] 4) [.c (CStr.upto (literal "a-c")),.l (CStr.upto (literal "2")),
        .keyArg (CStr.upto (literal "a")),.keyArg (CStr.upto (literal "b"))] ![97,98]).ncard ≤
      ∏ k, ((Purpose.characters (CStr.upto (literal "a-c"))).count (![97,98] k) *
        ((256 + (Purpose.characters (CStr.upto (literal "a-c"))).length - 1) /
          (Purpose.characters (CStr.upto (literal "a-c"))).length)) := by
  have hprints : Event.stdout [98,98,10] ∈ (main ((plainWorld [120,10] [] 4).deriving ![4,4]) 5
      [.c (CStr.upto (literal "a-c")),.l (CStr.upto (literal "2")),.keyArg (CStr.upto (literal "a")),
        .keyArg (CStr.upto (literal "b"))]).trace := by decide
  exact main_prints_evenly (show (mainAccount _ 0 _).result = .ok (⟨_,_,_,_,2⟩,0) by rfl) rfl ⟨5,hprints⟩ ![97,98]

end Padre
