import Mathlib.Tactic.Common

/-! # Loops run on fuel

One turn of a loop either goes round again in a new state or leaves with a result.
The body itself may contain a loop, so that a turn need not return within the fuel.
A loop that keeps an invariant under which it always goes round again has no answer on
any fuel.
-/
namespace FuelLoop

inductive Turn (σ ρ : Type*) where
  | again (s : σ)
  | done (r : ρ)

variable {σ ρ : Type*}

def loop (body : σ → Option (Turn σ ρ)) : ℕ → σ → Option ρ
  | 0, _ => none
  | fuel + 1, s =>
    match body s with
    | none => none
    | some (.again t) => loop body fuel t
    | some (.done r) => some r

theorem loop_again {body : σ → Option (Turn σ ρ)} {s t : σ} (h : body s = some (.again t))
    (fuel : ℕ) : loop body (fuel + 1) s = loop body fuel t := by
  simp [loop, h]

theorem loop_done {body : σ → Option (Turn σ ρ)} {s : σ} {r : ρ} (h : body s = some (.done r))
    (fuel : ℕ) : loop body (fuel + 1) s = some r := by
  simp [loop, h]

theorem loop_eq_some {body : σ → Option (Turn σ ρ)} {fuel : ℕ} {s : σ} {r : ρ}
    (h : loop body (fuel + 1) s = some r) :
    body s = some (.done r) ∨ ∃ t, body s = some (.again t) ∧ loop body fuel t = some r := by
  unfold loop at h
  split at h
  · cases h
  · exact Or.inr ⟨_,‹_›,h⟩
  · cases h
    exact Or.inl ‹_›

/-- The rule of loops: what every turn keeps holds when the loop is left. -/
theorem loop_invariant {body : σ → Option (Turn σ ρ)} (inv : σ → Prop) (post : ρ → Prop)
    (hagain : ∀ s t, inv s → body s = some (.again t) → inv t)
    (hdone : ∀ s r, inv s → body s = some (.done r) → post r)
    {fuel : ℕ} {s : σ} {r : ρ} (hs : inv s) (h : loop body fuel s = some r) : post r := by
  induction fuel generalizing s with
  | zero => cases h
  | succ fuel ih =>
    rcases loop_eq_some h with hd | ⟨t,ht,hr⟩
    · exact hdone s r hs hd
    · exact ih (hagain s t hs ht) hr

theorem loop_eq_none {body : σ → Option (Turn σ ρ)} (inv : σ → Prop)
    (hagain : ∀ s t, inv s → body s = some (.again t) → inv t)
    (hdone : ∀ s r, inv s → body s ≠ some (.done r)) (fuel : ℕ) {s : σ} (hs : inv s) :
    loop body fuel s = none := by
  cases h : loop body fuel s with
  | none => rfl
  | some r =>
    exact (loop_invariant inv (fun _ => False) hagain (fun s r hi hd => hdone s r hi hd) hs h).elim

/-- The states a turn is started in. -/
def visited (body : σ → Option (Turn σ ρ)) : ℕ → σ → List σ
  | 0, _ => []
  | fuel + 1, s =>
    s :: match body s with
      | some (.again t) => visited body fuel t
      | _ => []

theorem visited_again {body : σ → Option (Turn σ ρ)} {s t : σ} (h : body s = some (.again t))
    (fuel : ℕ) : visited body (fuel + 1) s = s :: visited body fuel t := by
  simp [visited, h]

/-- What every turn keeps holds in front of every turn. -/
theorem visited_invariant {body : σ → Option (Turn σ ρ)} (inv : σ → Prop)
    (hagain : ∀ s t, inv s → body s = some (.again t) → inv t) {fuel : ℕ} {s u : σ} (hs : inv s)
    (hu : u ∈ visited body fuel s) : inv u := by
  induction fuel generalizing s with
  | zero => cases hu
  | succ fuel ih =>
    rcases List.mem_cons.mp hu with rfl | hrest
    · exact hs
    · split at hrest
      · exact ih (hagain s _ hs ‹_›) hrest
      · cases hrest

/-- The rule of termination: a loop returns whose turns, as long as they are taken, go on nearer
to the end or leave. -/
theorem loop_returns_of_visited {body : σ → Option (Turn σ ρ)} (measure : σ → ℕ) {fuel : ℕ} {s : σ}
    (hturn : ∀ u ∈ visited body fuel s, (∃ r, body u = some (.done r)) ∨
      ∃ t, body u = some (.again t) ∧ measure t < measure u)
    (hfuel : measure s < fuel) : ∃ r, loop body fuel s = some r := by
  induction fuel generalizing s with
  | zero => omega
  | succ fuel ih =>
    rcases hturn s List.mem_cons_self with ⟨r,hr⟩ | ⟨t,ht,hlt⟩
    · exact ⟨r,loop_done hr fuel⟩
    · rw [visited_again ht] at hturn
      rw [loop_again ht]
      exact ih (fun u hu => hturn u (List.mem_cons_of_mem s hu)) (by omega)

theorem loop_returns {body : σ → Option (Turn σ ρ)} (inv : σ → Prop) (measure : σ → ℕ)
    (hturn : ∀ s, inv s → (∃ r, body s = some (.done r)) ∨
      ∃ t, body s = some (.again t) ∧ inv t ∧ measure t < measure s)
    {fuel : ℕ} {s : σ} (hs : inv s) (hfuel : measure s < fuel) : ∃ r, loop body fuel s = some r := by
  have hagain (u t : σ) (hu : inv u) (ht : body u = some (.again t)) : inv t := by
    rcases hturn u hu with ⟨r,hr⟩ | ⟨t',ht',hinv,-⟩
    · rw [hr] at ht
      cases ht
    · rw [ht'] at ht
      cases ht
      exact hinv
  refine loop_returns_of_visited measure (fun u hu => ?_) hfuel
  rcases hturn u (visited_invariant inv hagain hs hu) with hdone | ⟨t,ht,-,hlt⟩
  · exact Or.inl hdone
  · exact Or.inr ⟨t,ht,hlt⟩

/-- The rule of first exits: the loop goes through the states `orbit` and leaves in turn `n`. -/
theorem loop_orbit {body : σ → Option (Turn σ ρ)} (orbit : ℕ → σ) {n : ℕ} {r : ρ}
    (hagain : ∀ k < n, body (orbit k) = some (.again (orbit (k + 1))))
    (hdone : body (orbit n) = some (.done r)) (fuel : ℕ) :
    loop body fuel (orbit 0) = if n < fuel then some r else none := by
  have hfrom (k fuel : ℕ) (hk : k ≤ n) :
      loop body fuel (orbit k) = if n - k < fuel then some r else none := by
    induction fuel generalizing k with
    | zero => rfl
    | succ fuel ih =>
      rcases Nat.eq_or_lt_of_le hk with rfl | hlt
      · rw [loop_done hdone, if_pos (by omega)]
      · rw [loop_again (hagain k hlt), ih (k + 1) hlt]
        congr 1
        rw [eq_iff_iff]
        omega
  have hstart := hfrom 0 fuel (Nat.zero_le n)
  rwa [Nat.sub_zero] at hstart

/-- The frame rule of loops: what only the turns that write to `i` change stays as it was
where no turn does. -/
theorem loop_untouched {α ι : Type*} {body : σ → Option (Turn σ σ)} (view : σ → α)
    (writes : σ → List ι) {i : ι}
    (hagain : ∀ s t, i ∉ writes s → body s = some (.again t) → view t = view s)
    (hdone : ∀ s t, i ∉ writes s → body s = some (.done t) → view t = view s)
    {fuel : ℕ} {s t : σ} (hi : i ∉ (visited body fuel s).flatMap writes)
    (h : loop body fuel s = some t) : view t = view s := by
  induction fuel generalizing s with
  | zero => cases h
  | succ fuel ih =>
    rw [visited, List.flatMap_cons, List.mem_append, not_or] at hi
    obtain ⟨hs,hrest⟩ := hi
    rcases loop_eq_some h with hd | ⟨u,hu,hr⟩
    · exact hdone s t hs hd
    · simp only [hu] at hrest
      exact (ih hrest hr).trans (hagain s u hs hu)

end FuelLoop
