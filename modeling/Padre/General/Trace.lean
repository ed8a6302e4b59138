import Mathlib.Tactic.Common

/-! # Runs that leave a trace

A run performs events and then either returns a value or stops: through an exit of
the process, through an operation the language leaves undefined, or because it does
not answer within the fuel it was given. The events performed before a stop stay.
-/
namespace Trace

inductive Stop where
  | exits (status : ℕ)
  | undefined
  | unfinished
deriving DecidableEq, Repr

structure Run (ε α : Type) where
  trace : List ε
  result : Except Stop α

variable {ε α β : Type}

namespace Run

def pure (a : α) : Run ε α := ⟨[],.ok a⟩

def bind (x : Run ε α) (f : α → Run ε β) : Run ε β :=
  match x.result with
  | .ok a => ⟨x.trace ++ (f a).trace,(f a).result⟩
  | .error e => ⟨x.trace,.error e⟩

instance : Monad (Run ε) where
  pure := pure
  bind := bind

def emit (e : ε) : Run ε Unit := ⟨[e],.ok ()⟩

def emits (es : List ε) : Run ε Unit := ⟨es,.ok ()⟩

def stop (e : Stop) : Run ε α := ⟨[],.error e⟩

/-- An answer that may be missing for lack of fuel. -/
def ofFuel : Option α → Run ε α
  | some a => ⟨[],.ok a⟩
  | none => ⟨[],.error .unfinished⟩

/-- A pointer the program dereferences without a check. -/
def deref : Option α → Run ε α
  | some a => ⟨[],.ok a⟩
  | none => ⟨[],.error .undefined⟩

@[simp] theorem pure_trace (a : α) : (Pure.pure a : Run ε α).trace = [] := rfl
@[simp] theorem pure_result (a : α) : (Pure.pure a : Run ε α).result = .ok a := rfl
@[simp] theorem emit_trace (e : ε) : (emit e).trace = [e] := rfl
@[simp] theorem emit_result (e : ε) : (emit e).result = .ok () := rfl
@[simp] theorem emits_trace (es : List ε) : (emits es).trace = es := rfl
@[simp] theorem emits_result (es : List ε) : (emits es).result = .ok () := rfl
@[simp] theorem stop_trace (e : Stop) : (stop e : Run ε α).trace = [] := rfl
@[simp] theorem stop_result (e : Stop) : (stop e : Run ε α).result = .error e := rfl

theorem bind_of_ok {x : Run ε α} {a : α} (h : x.result = .ok a) (f : α → Run ε β) :
    x >>= f = ⟨x.trace ++ (f a).trace,(f a).result⟩ := by
  change bind x f = _
  simp [bind, h]

theorem bind_of_error {x : Run ε α} {e : Stop} (h : x.result = .error e) (f : α → Run ε β) :
    x >>= f = ⟨x.trace,.error e⟩ := by
  change bind x f = _
  simp [bind, h]

theorem mem_trace_bind {x : Run ε α} {f : α → Run ε β} {e : ε} (h : e ∈ x.trace) :
    e ∈ (x >>= f).trace := by
  cases hx : x.result with
  | error s =>
    rw [bind_of_error hx]
    exact h
  | ok a =>
    rw [bind_of_ok hx]
    exact List.mem_append_left _ h

@[simp] theorem pure_bind (a : α) (f : α → Run ε β) : (Pure.pure a : Run ε α) >>= f = f a := rfl

@[simp] theorem emit_bind (e : ε) (f : Unit → Run ε β) :
    emit e >>= f = ⟨e :: (f ()).trace,(f ()).result⟩ := rfl

@[simp] theorem emits_bind (es : List ε) (f : Unit → Run ε β) :
    emits es >>= f = ⟨es ++ (f ()).trace,(f ()).result⟩ := rfl

@[simp] theorem deref_some (a : α) : (deref (some a) : Run ε α) = Pure.pure a := rfl
@[simp] theorem deref_none : (deref none : Run ε α) = stop .undefined := rfl
@[simp] theorem ofFuel_some (a : α) : (ofFuel (some a) : Run ε α) = Pure.pure a := rfl

@[simp] theorem stop_bind (e : Stop) (f : α → Run ε β) : (stop e : Run ε α) >>= f = stop e := rfl

/-- Every event a run performs has the property, also when it stops. -/
def Emits (P : ε → Prop) (x : Run ε α) : Prop := ∀ e ∈ x.trace, P e

namespace Emits
variable {P : ε → Prop}

theorem pure (a : α) : (Pure.pure a : Run ε α).Emits P := by simp [Emits]

theorem stop (e : Stop) : (Run.stop e : Run ε α).Emits P := by simp [Emits]

theorem emit {e : ε} (h : P e) : (Run.emit e).Emits P := by simpa [Emits] using h

theorem emits {es : List ε} (h : ∀ e ∈ es, P e) : (Run.emits es).Emits P := h

theorem ofFuel (a : Option α) : (Run.ofFuel a : Run ε α).Emits P := by
  cases a <;> simp [Emits, Run.ofFuel]

theorem deref (a : Option α) : (Run.deref a : Run ε α).Emits P := by
  cases a <;> simp [Emits, Run.deref]

/-- The rule of sequences: the second part counts for the values the first can return. -/
theorem bind {x : Run ε α} {f : α → Run ε β} (hx : x.Emits P)
    (hf : ∀ a, x.result = .ok a → (f a).Emits P) : (x >>= f).Emits P := by
  cases h : x.result with
  | error e =>
    rw [bind_of_error h]
    exact hx
  | ok a =>
    rw [bind_of_ok h]
    intro e he
    rcases List.mem_append.mp he with he | he
    · exact hx e he
    · exact hf a h e he

end Emits

end Run

end Trace
