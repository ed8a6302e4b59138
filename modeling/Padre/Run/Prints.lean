import Padre.Run.Phases
import Padre.Run.Stops

/-! # What is printed, and when

A run of `main` prints at most one line, and it does so exactly when an account is determined
whose key is derived and whose characters are delivered. The line is the derived bytes, each
replaced by the character its residue selects.
-/
namespace Padre
open CString Rows Trace

/-- The characters of the spec are delivered, and there is one for each of the derived bytes. -/
structure Delivered (w : World) (spec : CStr) (bytes : List UInt8) : Prop where
  ends : ¬ Purpose.Endless spec
  fits : (expansion (resolveClass spec)).length ≤ 94
  malloc : w.malloc .charset (Purpose.characters spec).length = true
  enough : Purpose.characters spec = [] → bytes = []

/-- The derived bytes become a password over the characters of `spec`. -/
structure Yields (w : World) (account : Account (Option CStr)) (keys : ℕ → ℤ) (d u i spec : CStr) : Prop where
  prompts : Prompts w account keys
  derives : DerivesFrom w account keys d u i
  characters : account.characters = some (some spec)
  delivered : Delivered w spec (scryptCall w d u i account.length keys).2.toList

section Account
variable {w : World} {account : Account (Option CStr)} {keys : ℕ → ℤ} {line : List UInt8}

theorem stdout_notMem_fails (texts : List String) : Event.stdout line ∉ (Purpose.fails texts).trace := by
  simp [Purpose.fails]

theorem printOver_prints_iff {spec : CStr} {bytes : List UInt8} :
    Event.stdout line ∈ (Purpose.printOver w spec bytes).trace ↔
      Delivered w spec bytes ∧ line = Purpose.password (Purpose.characters spec) bytes ++ [newline] := by
  unfold Purpose.printOver
  split_ifs with hendless hlong hmalloc hempty
  · exact iff_of_false (by simp) fun h => h.1.ends hendless
  · exact iff_of_false (stdout_notMem_fails _) fun h => Nat.not_lt.mpr h.1.fits hlong
  · refine iff_of_false (stdout_notMem_fails _) ?_
    rintro ⟨hdelivered,-⟩
    simp [hdelivered.malloc] at hmalloc
  · exact iff_of_false (by simp) fun h => hempty.2 (h.1.enough hempty.1)
  · have hdelivered : Delivered w spec bytes :=
      ⟨hendless,Nat.not_lt.mp hlong,by simpa using hmalloc,fun hnil => by_contra fun hne => hempty ⟨hnil,hne⟩⟩
    simp [hdelivered]

theorem ask_prints_iff :
    Event.stdout line ∈ (Purpose.ask w account keys).trace ↔ ∃ d u i spec, Yields w account keys d u i spec ∧
      line = Purpose.password (Purpose.characters spec) (scryptCall w d u i account.length keys).2.toList ++
        [newline] := by
  constructor
  · intro h
    unfold Purpose.ask Purpose.masterPassword at h
    split_ifs at h with hdomain hmalloc hend
    · simp at h
    · exact absurd h (stdout_notMem_fails _)
    · exact absurd h (stdout_notMem_fails _)
    · by_cases hsalted : ∃ d u i, Salted account d u i
      · obtain ⟨d,u,i,hsalted⟩ := hsalted
        dsimp only at h
        rw [derive_salted hsalted] at h
        split_ifs at h with hsalt hret
        · exact absurd h (stdout_notMem_fails _)
        · exact absurd h (stdout_notMem_fails _)
        · unfold Purpose.print at h
          split at h
          · exact absurd h (stdout_notMem_fails _)
          · simp at h
          · rename_i spec hspec
            obtain ⟨hdelivered,hline⟩ := printOver_prints_iff.mp h
            exact ⟨d,u,i,spec,⟨⟨hdomain,by simpa using hmalloc,hend⟩,⟨hsalted,by simpa using hsalt,not_not.mp hret⟩,
              hspec,hdelivered⟩,hline⟩
      · simp only [not_exists] at hsalted
        dsimp only at h
        rw [derive_not_salted hsalted] at h
        simp at h
  · rintro ⟨d,u,i,spec,⟨hprompts,hderives,hspec,hdelivered⟩,hline⟩
    have hmalloc : ¬ w.malloc .password (account.length + 1) = false := by simp [hprompts.malloc]
    have hsalt : ¬ w.malloc .salt (saltLen d u i + 1) = false := by simp [hderives.malloc]
    unfold Purpose.ask Purpose.masterPassword
    rw [if_neg hprompts.domain, if_neg hmalloc, if_neg hprompts.typed]
    dsimp only
    rw [derive_salted hderives.salted, if_neg hsalt, if_neg (not_not.mpr hderives.derived), Purpose.print, hspec]
    exact printOver_prints_iff.mpr ⟨hdelivered,hline⟩

end Account

theorem stdout_notMem_accountOf {w : World} {argv : List ArgpEvent} {line : List UInt8} :
    Event.stdout line ∉ (Purpose.accountOf w argv).trace := by
  obtain ⟨-,n,hlong⟩ := mainAccount_comesTo w argv
  rw [← hlong n le_rfl]
  intro hmem
  exact (mainAccount_early w n argv _ (List.mem_of_mem_filter hmem)).2 line rfl

theorem program_prints_iff {w : World} {argv : List ArgpEvent} {line : List UInt8} :
    Event.stdout line ∈ (Purpose.program w argv).trace ↔
      ∃ fuel account used, (mainAccount w fuel argv).result = .ok (account,used) ∧
        Event.stdout line ∈ (Purpose.ask w account fun k => w.curses.getch (used + k)).trace := by
  rw [Purpose.program, Run.mem_bind_trace_iff, or_iff_right stdout_notMem_accountOf, ← exists_determined_iff]

theorem main_stdout_iff {w : World} {argv : List ArgpEvent} {line : List UInt8} :
    (∃ fuel, Event.stdout line ∈ (main w fuel argv).trace) ↔
      Event.stdout line ∈ (Purpose.program w argv).trace := by
  obtain ⟨hshort,n,hlong⟩ := main_comesTo w argv
  constructor
  · rintro ⟨fuel,hmem⟩
    obtain ⟨before,after,htrace⟩ := List.append_of_mem hmem
    obtain ⟨-,-,hresult⟩ := main_of_printed htrace
    have hshown := (hshort fuel).resolve_left (by simp [hresult])
    rw [← hshown]
    exact List.mem_filter.mpr ⟨hmem,rfl⟩
  · intro hmem
    rw [← hlong n le_rfl] at hmem
    exact ⟨n,(List.mem_filter.mp hmem).1⟩

/-- A line is printed, on some fuel, exactly when a password comes out, and it is that password. -/
theorem main_prints_iff (w : World) (argv : List ArgpEvent) (line : List UInt8) :
    (∃ fuel, Event.stdout line ∈ (main w fuel argv).trace) ↔
      ∃ fuel account used d u i spec, (mainAccount w fuel argv).result = .ok (account,used) ∧
        Yields w account (fun k => w.curses.getch (used + k)) d u i spec ∧
        line = Purpose.password (Purpose.characters spec)
          (scryptCall w d u i account.length fun k => w.curses.getch (used + k)).2.toList ++ [newline] := by
  simp only [main_stdout_iff, program_prints_iff, ask_prints_iff]
  constructor
  · rintro ⟨fuel,account,used,haccount,d,u,i,spec,hyields,hline⟩
    exact ⟨fuel,account,used,d,u,i,spec,haccount,hyields,hline⟩
  · rintro ⟨fuel,account,used,d,u,i,spec,haccount,hyields,hline⟩
    exact ⟨fuel,account,used,haccount,d,u,i,spec,hyields,hline⟩

end Padre
