import Padre.General.Trace

/-! # Monitors of runs

A monitor reads the events of a run one by one and refuses those that are out of order. A
run follows a monitor when no event is refused; what holds of the state it is left in then
depends on how the run ends. Runs are followed part by part.
-/
namespace Trace

variable {ε σ α β : Type} {step : σ → ε → Option σ}

/-- What every allowed event keeps, of the state and of what the events do elsewhere, holds
behind every allowed trace. -/
theorem watch_invariant {τ : Type} (effect : τ → ε → τ) (inv : σ → τ → Prop)
    (hstep : ∀ s m e t, inv s m → step s e = some t → inv t (effect m e))
    {trace : List ε} {s t : σ} {m : τ} (hs : inv s m) (h : trace.foldlM step s = some t) :
    inv t (trace.foldl effect m) := by
  induction trace generalizing s m with
  | nil =>
    obtain rfl := Option.some.inj h
    exact hs
  | cons e trace ih =>
    rw [List.foldlM_cons, Option.bind_eq_bind, Option.bind_eq_some_iff] at h
    obtain ⟨u,hu,ht⟩ := h
    exact ih (hstep s m e u hs hu) ht

theorem watch_append {before after : List ε} {s t : σ} :
    (before ++ after).foldlM step s = some t ↔
      ∃ u, before.foldlM step s = some u ∧ after.foldlM step u = some t := by
  rw [List.foldlM_append, Option.bind_eq_bind, Option.bind_eq_some_iff]

/-- Events that leave the monitor where it is. -/
theorem watch_stays {events : List ε} {s : σ} (h : ∀ e ∈ events, step s e = some s) :
    events.foldlM step s = some s := by
  induction events with
  | nil => rfl
  | cons e events ih =>
    rw [List.foldlM_cons, h e (List.mem_cons_self ..)]
    exact ih fun e he => h e (List.mem_cons_of_mem _ he)

/-- Events that lead the monitor through the states `orbit`. -/
theorem watch_orbit (orbit : ℕ → σ) (event : ℕ → ε) {n m : ℕ}
    (h : ∀ i, n ≤ i → i < n + m → step (orbit i) (event i) = some (orbit (i + 1))) :
    ((List.range' n m).map event).foldlM step (orbit n) = some (orbit (n + m)) := by
  induction m generalizing n with
  | zero => rfl
  | succ m ih =>
    have hrest := ih (n := n + 1) fun i hi hlt => h i (by omega) (by omega)
    rw [List.range'_succ, List.map_cons, List.foldlM_cons, h n (Nat.le_refl n) (by omega)]
    rw [Nat.succ_add_eq_add_succ] at hrest
    exact hrest

namespace Run

/-- The monitor allows the run from state `s` on; behind an answer `post` holds, and behind a
stop `stopped`. -/
def Follows (step : σ → ε → Option σ) (stopped : Stop → σ → Prop) (s : σ) (x : Run ε α)
    (post : α → σ → Prop) : Prop :=
  ∃ t, x.trace.foldlM step s = some t ∧
    (∀ a, x.result = .ok a → post a t) ∧ ∀ e, x.result = .error e → stopped e t

namespace Follows
variable {stopped : Stop → σ → Prop} {s : σ} {post : α → σ → Prop}

theorem pure {a : α} (h : post a s) : Follows step stopped s (Pure.pure a : Run ε α) post := by
  refine ⟨s,rfl,?_,?_⟩
  · rintro _ ⟨rfl⟩
    exact h
  · rintro _ ⟨⟩

theorem stop {e : Stop} (h : stopped e s) : Follows step stopped s (Run.stop e : Run ε α) post := by
  refine ⟨s,rfl,?_,?_⟩
  · rintro _ ⟨⟩
  · rintro _ ⟨rfl⟩
    exact h

theorem deref {o : Option α} (hsome : ∀ a, o = some a → post a s) (hnone : o = none → stopped .undefined s) :
    Follows step stopped s (Run.deref o : Run ε α) post := by
  cases o with
  | none => exact stop (hnone rfl)
  | some a => exact pure (hsome a rfl)

theorem ofFuel {o : Option α} (hsome : ∀ a, o = some a → post a s) (hnone : o = none → stopped .unfinished s) :
    Follows step stopped s (Run.ofFuel o : Run ε α) post := by
  cases o with
  | none => exact stop (hnone rfl)
  | some a => exact pure (hsome a rfl)

/-- The rule of sequences. -/
theorem bind {x : Run ε α} {f : α → Run ε β} {mid : α → σ → Prop} {post : β → σ → Prop}
    (hx : Follows step stopped s x mid) (hf : ∀ a t, mid a t → Follows step stopped t (f a) post) :
    Follows step stopped s (x >>= f) post := by
  obtain ⟨t,hwatch,hok,herror⟩ := hx
  cases hresult : x.result with
  | error e =>
    rw [bind_of_error hresult]
    refine ⟨t,hwatch,?_,?_⟩
    · rintro _ ⟨⟩
    · rintro _ ⟨rfl⟩
      exact herror e hresult
  | ok a =>
    obtain ⟨u,hrest,hpost⟩ := hf a t (hok a hresult)
    rw [bind_of_ok hresult]
    exact ⟨u,watch_append.mpr ⟨t,hwatch,hrest⟩,hpost⟩

theorem emit {e : ε} {t : σ} {f : Unit → Run ε β} {post : β → σ → Prop} (hstep : step s e = some t)
    (hf : Follows step stopped t (f ()) post) : Follows step stopped s (Run.emit e >>= f) post := by
  obtain ⟨u,hwatch,hpost⟩ := hf
  refine ⟨u,?_,hpost⟩
  rw [emit_bind, List.foldlM_cons, hstep]
  exact hwatch

theorem emits {es : List ε} {t : σ} {f : Unit → Run ε β} {post : β → σ → Prop}
    (hsteps : es.foldlM step s = some t) (hf : Follows step stopped t (f ()) post) :
    Follows step stopped s (Run.emits es >>= f) post := by
  obtain ⟨u,hwatch,hpost⟩ := hf
  exact ⟨u,watch_append.mpr ⟨t,hsteps,hwatch⟩,hpost⟩

theorem mono {x : Run ε α} {stopped' : Stop → σ → Prop} (hx : Follows step stopped s x post)
    (hstopped : ∀ e t, stopped e t → stopped' e t) : Follows step stopped' s x post := by
  obtain ⟨t,hwatch,hok,herror⟩ := hx
  exact ⟨t,hwatch,hok,fun e he => hstopped e t (herror e he)⟩

theorem weaken {x : Run ε α} {post' : α → σ → Prop} (hx : Follows step stopped s x post)
    (hpost : ∀ a t, post a t → post' a t) : Follows step stopped s x post' := by
  obtain ⟨t,hwatch,hok,herror⟩ := hx
  exact ⟨t,hwatch,fun a ha => hpost a t (hok a ha),herror⟩

end Follows

end Run

end Trace
