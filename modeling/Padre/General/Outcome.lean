import Mathlib.Order.Lattice
import Padre.General.Trace

/-! # Outcomes of runs on fuel

What is seen of a run from outside is some of its events and how it ends. A family of runs
on more and more fuel comes to an outcome when every run shows the outcome or has not
ended yet, and with enough fuel shows it. Outcomes are put together like runs.
-/
namespace Trace.Run

variable {ε α β : Type} {visible : ε → Bool}

/-- A run with only its visible events. -/
def shown (visible : ε → Bool) (x : Run ε α) : Run ε α := ⟨x.trace.filter visible,x.result⟩

theorem shown_deref (a : Option α) : (deref a : Run ε α).shown visible = deref a := by
  cases a with
  | none => rfl
  | some a => rfl

theorem shown_emits (es : List ε) : (emits es).shown visible = emits (es.filter visible) := rfl

theorem shown_bind (x : Run ε α) (f : α → Run ε β) :
    (x >>= f).shown visible = x.shown visible >>= fun a => (f a).shown visible := by
  cases h : x.result with
  | error e =>
    have hshown : (x.shown visible).result = .error e := h
    rw [bind_of_error h, bind_of_error hshown]
    rfl
  | ok a =>
    have hshown : (x.shown visible).result = .ok a := h
    rw [bind_of_ok h, bind_of_ok hshown]
    simp [shown]

theorem bind_assoc {γ : Type} (x : Run ε α) (f : α → Run ε β) (g : β → Run ε γ) :
    x >>= f >>= g = x >>= fun a => f a >>= g := by
  cases hx : x.result with
  | error e => rw [bind_of_error hx, bind_of_error hx, bind_of_error rfl]
  | ok a =>
    rw [bind_of_ok hx, bind_of_ok hx]
    cases hf : (f a).result with
    | error e => rw [bind_of_error hf, bind_of_error rfl]
    | ok b => rw [bind_of_ok hf, bind_of_ok rfl, List.append_assoc]

theorem bind_stops_iff {x : Run ε α} {f : α → Run ε β} {e : Stop} :
    (x >>= f).result = .error e ↔
      x.result = .error e ∨ ∃ a, x.result = .ok a ∧ (f a).result = .error e := by
  cases hx : x.result with
  | error e' =>
    rw [bind_of_error hx]
    simp
  | ok a =>
    rw [bind_of_ok hx]
    simp

theorem bind_answers_iff {x : Run ε α} {f : α → Run ε β} {b : β} :
    (x >>= f).result = .ok b ↔ ∃ a, x.result = .ok a ∧ (f a).result = .ok b := by
  cases hx : x.result with
  | error e =>
    rw [bind_of_error hx]
    simp
  | ok a =>
    rw [bind_of_ok hx]
    simp

/-- The events of a sequence. -/
theorem mem_bind_trace_iff {x : Run ε α} {f : α → Run ε β} {e : ε} :
    e ∈ (x >>= f).trace ↔ e ∈ x.trace ∨ ∃ a, x.result = .ok a ∧ e ∈ (f a).trace := by
  cases h : x.result with
  | ok a => simp [bind_of_ok h]
  | error s => simp [bind_of_error h]

theorem bind_congr {x : Run ε α} {f g : α → Run ε β} (h : ∀ a, x.result = .ok a → f a = g a) :
    x >>= f = x >>= g := by
  cases hx : x.result with
  | error e => rw [bind_of_error hx, bind_of_error hx]
  | ok a => rw [bind_of_ok hx, bind_of_ok hx, h a hx]

theorem ext_iff {x y : Run ε α} : x = y ↔ x.trace = y.trace ∧ x.result = y.result := by
  cases x
  cases y
  simp

/-- A sequence does nothing but answer exactly when both its parts do. -/
theorem bind_eq_pure_iff {x : Run ε α} {f : α → Run ε β} {b : β} :
    x >>= f = Pure.pure b ↔ ∃ a, x = Pure.pure a ∧ f a = Pure.pure b := by
  cases hx : x.result with
  | error e =>
    rw [bind_of_error hx]
    simp [ext_iff, hx]
  | ok a =>
    rw [bind_of_ok hx]
    simp [ext_iff, hx, and_assoc]

theorem deref_eq_pure_iff {o : Option α} {a : α} : (deref o : Run ε α) = Pure.pure a ↔ o = some a := by
  cases o with
  | none => simp [ext_iff]
  | some b => simp [ext_iff]

theorem emits_bind_eq_pure_iff {es : List ε} {f : Unit → Run ε β} {b : β} :
    emits es >>= f = Pure.pure b ↔ es = [] ∧ f () = Pure.pure b := by
  simp [ext_iff, and_assoc]

theorem emits_stops_iff {es : List ε} {f : Unit → Run ε β} {s : Stop} :
    (emits es >>= f).result = .error s ↔ (f ()).result = .error s := Iff.rfl

/-- Two runs with the same events that stop alike or return related values. -/
inductive Related {β : Type} (R : α → β → Prop) : Run ε α → Run ε β → Prop where
  | returns (t : List ε) {a : α} {b : β} : R a b → Related R ⟨t,.ok a⟩ ⟨t,.ok b⟩
  | stops (t : List ε) (e : Stop) : Related R ⟨t,.error e⟩ ⟨t,.error e⟩

namespace Related
variable {γ δ : Type} {R : α → β → Prop} {S : γ → δ → Prop}

theorem pure {a : α} {b : β} (h : R a b) :
    Related R (Pure.pure a : Run ε α) (Pure.pure b : Run ε β) := .returns [] h

theorem refl {R : α → α → Prop} (h : ∀ a, R a a) (x : Run ε α) : Related R x x := by
  obtain ⟨t,_ | a⟩ := x
  · exact .stops t _
  · exact .returns t (h a)

/-- The rule of sequences. -/
theorem bind {x : Run ε α} {y : Run ε β} {f : α → Run ε γ} {g : β → Run ε δ} (h : Related R x y)
    (hf : ∀ a b, R a b → Related S (f a) (g b)) : Related S (x >>= f) (y >>= g) := by
  cases h with
  | stops t e => exact .stops t e
  | @returns t a b hab =>
    have hrest := hf a b hab
    rw [bind_of_ok rfl, bind_of_ok rfl]
    dsimp only
    generalize f a = fa, g b = gb at hrest
    cases hrest with
    | returns u hcd => exact .returns (t ++ u) hcd
    | stops u e => exact .stops (t ++ u) e

theorem eq {x y : Run ε α} (h : Related Eq x y) : x = y := by
  cases h with
  | returns t hab => rw [hab]
  | stops t e => rfl

end Related

/-- A run all of whose events are visible. -/
theorem shown_eq_self {x : Run ε α} (h : x.Emits fun e => visible e = true) : x.shown visible = x := by
  have hfilter : x.trace.filter visible = x.trace := List.filter_eq_self.mpr h
  rw [shown, hfilter]

/-- The runs show `outcome`, and before they have enough fuel for it they do not end. -/
structure ComesTo (visible : ε → Bool) (run : ℕ → Run ε α) (outcome : Run ε α) : Prop where
  short : ∀ fuel, (run fuel).result = .error .unfinished ∨ (run fuel).shown visible = outcome
  long : ∃ n, ∀ fuel, n ≤ fuel → (run fuel).shown visible = outcome

namespace ComesTo

theorem of_forall {run : ℕ → Run ε α} {outcome : Run ε α} (h : ∀ fuel, (run fuel).shown visible = outcome) :
    ComesTo visible run outcome :=
  ⟨fun fuel => Or.inr (h fuel),⟨0,fun fuel _ => h fuel⟩⟩

/-- Runs that do not depend on the fuel. -/
theorem of_shown {x outcome : Run ε α} (h : x.shown visible = outcome) : ComesTo visible (fun _ => x) outcome :=
  of_forall fun _ => h

theorem pure (a : α) : ComesTo visible (fun _ => (Pure.pure a : Run ε α)) (Pure.pure a) := of_shown rfl

/-- Loops: an answer on some fuel is the answer, and with enough fuel it is there. -/
theorem ofFuel {f : ℕ → Option α} {answer : Option α} (hshort : ∀ fuel a, f fuel = some a → answer = some a)
    (hlong : ∃ n, ∀ fuel, n ≤ fuel → f fuel = answer) :
    ComesTo visible (fun fuel => (Run.ofFuel (f fuel) : Run ε α)) (Run.ofFuel answer) := by
  constructor
  · intro fuel
    cases h : f fuel with
    | none => exact Or.inl rfl
    | some a =>
      rw [hshort fuel a h]
      exact Or.inr rfl
  · obtain ⟨n,hn⟩ := hlong
    refine ⟨n,?_⟩
    intro fuel hfuel
    rw [hn fuel hfuel]
    cases answer with
    | none => rfl
    | some a => rfl

/-- The rule of sequences. -/
theorem bind {run : ℕ → Run ε α} {outcome : Run ε α} {f : ℕ → α → Run ε β} {g : α → Run ε β}
    (h : ComesTo visible run outcome)
    (hf : ∀ a, outcome.result = .ok a → ComesTo visible (fun fuel => f fuel a) (g a)) :
    ComesTo visible (fun fuel => run fuel >>= f fuel) (outcome >>= g) := by
  have hbind (fuel : ℕ) (hrun : (run fuel).shown visible = outcome) :
      (run fuel >>= f fuel).shown visible = outcome >>= fun a => (f fuel a).shown visible := by
    rw [shown_bind, hrun]
  constructor
  · intro fuel
    rcases h.short fuel with hout | hrun
    · left
      rw [bind_of_error hout]
    · cases hresult : outcome.result with
      | error e =>
        right
        rw [hbind fuel hrun, bind_of_error hresult, bind_of_error hresult]
      | ok a =>
        have hok : (run fuel).result = .ok a := by
          rw [← hresult, ← hrun]
          rfl
        rcases (hf a hresult).short fuel with hrest | hrest
        · left
          rw [bind_of_ok hok, hrest]
        · right
          rw [hbind fuel hrun, bind_of_ok hresult, bind_of_ok hresult, hrest]
  · obtain ⟨n,hn⟩ := h.long
    cases hresult : outcome.result with
    | error e =>
      refine ⟨n,?_⟩
      intro fuel hfuel
      rw [hbind fuel (hn fuel hfuel), bind_of_error hresult, bind_of_error hresult]
    | ok a =>
      obtain ⟨m,hm⟩ := (hf a hresult).long
      refine ⟨max n m,?_⟩
      intro fuel hfuel
      rw [hbind fuel (hn fuel ((le_max_left n m).trans hfuel)), bind_of_ok hresult, bind_of_ok hresult,
        hm fuel ((le_max_right n m).trans hfuel)]

/-- An outcome of the first part that is an answer. -/
theorem andThen {x : Run ε α} {outcome : Run ε α} {f : ℕ → α → Run ε β} {g : α → Run ε β}
    (h : x.shown visible = outcome)
    (hf : ∀ a, outcome.result = .ok a → ComesTo visible (fun fuel => f fuel a) (g a)) :
    ComesTo visible (fun fuel => x >>= f fuel) (outcome >>= g) := (of_shown h).bind hf

/-- A first part that shows nothing but its answer. -/
theorem after {x : Run ε α} {a : α} {f : ℕ → α → Run ε β} {outcome : Run ε β}
    (h : x.shown visible = Pure.pure a) (hf : ComesTo visible (fun fuel => f fuel a) outcome) :
    ComesTo visible (fun fuel => x >>= f fuel) outcome := by
  have hrun : ComesTo visible (fun fuel => x >>= f fuel) (Pure.pure a >>= fun _ => outcome) := by
    refine andThen h ?_
    rintro _ ⟨rfl⟩
    exact hf
  exact hrun

/-- What a run that ends shows is the outcome. -/
theorem shown_iff {run : ℕ → Run ε α} {o x : Run ε α} (h : ComesTo visible run o)
    (hx : x.result ≠ .error .unfinished) : (∃ fuel, (run fuel).shown visible = x) ↔ o = x := by
  constructor
  · rintro ⟨fuel,rfl⟩
    exact ((h.short fuel).resolve_left hx).symm
  · rintro rfl
    obtain ⟨n,hn⟩ := h.long
    exact ⟨n,hn n le_rfl⟩

/-- An end on some fuel is the end of the outcome. -/
theorem result_iff {run : ℕ → Run ε α} {o : Run ε α} (h : ComesTo visible run o) {r : Except Stop α}
    (hr : r ≠ .error .unfinished) : (∃ fuel, (run fuel).result = r) ↔ o.result = r := by
  constructor
  · rintro ⟨fuel,rfl⟩
    rw [(h.shown_iff (x := (run fuel).shown visible) hr).mp ⟨fuel,rfl⟩]
    rfl
  · rintro rfl
    obtain ⟨fuel,hfuel⟩ := (h.shown_iff hr).mpr rfl
    have hresult : ((run fuel).shown visible).result = o.result := by rw [hfuel]
    exact ⟨fuel,hresult⟩

theorem answers_iff {run : ℕ → Run ε α} {o : Run ε α} (h : ComesTo visible run o) {a : α} :
    (∃ fuel, (run fuel).result = .ok a) ↔ o.result = .ok a := h.result_iff (by simp)

/-- The runs end on some fuel exactly when the outcome is an end. -/
theorem ends_iff {run : ℕ → Run ε α} {o : Run ε α} (h : ComesTo visible run o) :
    (∃ fuel, (run fuel).result ≠ .error .unfinished) ↔ o.result ≠ .error .unfinished := by
  constructor
  · rintro ⟨fuel,hne⟩
    rcases h.short fuel with hout | hrun
    · exact absurd hout hne
    · rw [← hrun]
      exact hne
  · intro hne
    obtain ⟨n,hn⟩ := h.long
    refine ⟨n,?_⟩
    rw [← hn n le_rfl] at hne
    exact hne

end ComesTo

/-- Two families of runs that cannot be told apart from outside: any two runs that end show the
same, and with enough fuel all do. -/
def SameOutcome (visible : ε → Bool) (run run' : ℕ → Run ε α) : Prop :=
  (∀ fuel fuel', (run fuel).result ≠ .error .unfinished → (run' fuel').result ≠ .error .unfinished →
    (run fuel).shown visible = (run' fuel').shown visible) ∧
  ∃ n, ∀ fuel fuel', n ≤ fuel → n ≤ fuel' → (run fuel).shown visible = (run' fuel').shown visible

theorem ComesTo.same {run run' : ℕ → Run ε α} {o : Run ε α} (h : ComesTo visible run o)
    (h' : ComesTo visible run' o) : SameOutcome visible run run' := by
  constructor
  · intro fuel fuel' hends hends'
    rw [(h.short fuel).resolve_left hends, (h'.short fuel').resolve_left hends']
  · obtain ⟨n,hn⟩ := h.long
    obtain ⟨m,hm⟩ := h'.long
    refine ⟨max n m,?_⟩
    intro fuel fuel' hfuel hfuel'
    rw [hn fuel ((le_max_left n m).trans hfuel), hm fuel' ((le_max_right n m).trans hfuel')]

end Trace.Run
