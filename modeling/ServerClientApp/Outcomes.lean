import Mathlib.Data.List.Basic
import Mathlib.Tactic.Common

/-!
Computations that emit effects and may stop. What was emitted before a stop
stays visible, so a claim about a computation that ends early can still speak
about what it had done. Effects and reasons to stop are arbitrary types.
-/

namespace ServerClientApp.Outcomes

/-- The effects in the order they happened, and a value or a reason to stop. -/
structure Outcome (ε σ α : Type) where
  effects : List ε
  result : Except σ α

namespace Outcome

variable {ε σ α β γ : Type}

theorem ext' {x y : Outcome ε σ α} (he : x.effects = y.effects) (hr : x.result = y.result) :
    x = y := by
  cases x
  cases y
  simp_all

protected def pure (a : α) : Outcome ε σ α := ⟨[], .ok a⟩

/-- A stop skips what would follow and keeps what was emitted. -/
protected def bind (x : Outcome ε σ α) (f : α → Outcome ε σ β) : Outcome ε σ β :=
  match x.result with
  | .ok a => ⟨x.effects ++ (f a).effects, (f a).result⟩
  | .error e => ⟨x.effects, .error e⟩

instance : Monad (Outcome ε σ) where
  pure := Outcome.pure
  bind := Outcome.bind

def emit (e : ε) : Outcome ε σ Unit := ⟨[e], .ok ()⟩

def stop (e : σ) : Outcome ε σ α := ⟨[], .error e⟩

def stopIf (p : Bool) (e : σ) : Outcome ε σ Unit := if p then stop e else pure ()

def ofExcept : Except σ α → Outcome ε σ α
  | .ok a => pure a
  | .error e => stop e

theorem pure_def (a : α) : (pure a : Outcome ε σ α) = ⟨[], .ok a⟩ := rfl

@[simp] theorem mk_ok_bind (out : List ε) (a : α) (f : α → Outcome ε σ β) :
    ((⟨out, .ok a⟩ : Outcome ε σ α) >>= f) = ⟨out ++ (f a).effects, (f a).result⟩ := rfl

@[simp] theorem mk_error_bind (out : List ε) (e : σ) (f : α → Outcome ε σ β) :
    ((⟨out, .error e⟩ : Outcome ε σ α) >>= f) = ⟨out, .error e⟩ := rfl

private theorem id_map_outcome (x : Outcome ε σ α) : id <$> x = x := by
  obtain ⟨out, e | a⟩ := x
  · rfl
  · exact ext' (List.append_nil out) rfl

private theorem pure_bind_outcome (a : α) (f : α → Outcome ε σ β) : (pure a >>= f) = f a := rfl

private theorem bind_assoc_outcome (x : Outcome ε σ α) (f : α → Outcome ε σ β)
    (g : β → Outcome ε σ γ) : (x >>= f >>= g) = (x >>= fun a => f a >>= g) := by
  obtain ⟨out, e | a⟩ := x
  · rfl
  · rcases hb : f a with ⟨out', e | b⟩
    · simp [hb]
    · simp [hb, List.append_assoc]

instance : LawfulMonad (Outcome ε σ) :=
  LawfulMonad.mk' _ id_map_outcome pure_bind_outcome bind_assoc_outcome

@[simp] theorem emit_bind (e : ε) (f : Unit → Outcome ε σ β) :
    (emit e >>= f) = ⟨e :: (f ()).effects, (f ()).result⟩ := rfl

@[simp] theorem stop_bind (e : σ) (f : α → Outcome ε σ β) :
    ((stop e : Outcome ε σ α) >>= f) = stop e := rfl

/-- A computation that gives a value gave one at every stage, and emitted the
effects of the stages in their order. -/
theorem bind_eq_ok {x : Outcome ε σ α} {f : α → Outcome ε σ β} {out : List ε} {b : β} :
    (x >>= f) = ⟨out, .ok b⟩ ↔
      ∃ a o o', x = ⟨o, .ok a⟩ ∧ f a = ⟨o', .ok b⟩ ∧ out = o ++ o' := by
  obtain ⟨o, _ | a⟩ := x
  · simp
  · constructor
    · intro h
      simp only [mk_ok_bind, mk.injEq] at h
      exact ⟨a, o, (f a).effects, rfl, ext' rfl h.2, h.1.symm⟩
    · intro hgiven
      obtain ⟨a', o₁, o₂, h, hf, rfl⟩ := hgiven
      simp only [mk.injEq, Except.ok.injEq] at h
      obtain ⟨rfl, rfl⟩ := h
      simp [hf]

theorem pure_eq_ok {a b : α} {out : List ε} :
    (pure a : Outcome ε σ α) = ⟨out, .ok b⟩ ↔ out = [] ∧ b = a := by
  simp only [pure_def, mk.injEq, Except.ok.injEq]
  constructor
  · intro hgiven
    obtain ⟨rfl, rfl⟩ := hgiven
    exact ⟨rfl, rfl⟩
  · intro hgiven
    obtain ⟨rfl, rfl⟩ := hgiven
    exact ⟨rfl, rfl⟩

theorem stop_ne_ok {e : σ} {a : α} {out : List ε} :
    (stop e : Outcome ε σ α) ≠ ⟨out, .ok a⟩ := by
  simp [stop]

theorem stopIf_eq_ok {p : Bool} {e : σ} {out : List ε} :
    (stopIf p e : Outcome ε σ Unit) = ⟨out, .ok ()⟩ ↔ p = false ∧ out = [] := by
  cases p <;> simp [stopIf, stop, pure_def, eq_comm]

theorem ofExcept_eq_ok {x : Except σ α} {a : α} {out : List ε} :
    (ofExcept x : Outcome ε σ α) = ⟨out, .ok a⟩ ↔ x = .ok a ∧ out = [] := by
  cases x <;> simp [ofExcept, stop, pure_def, eq_comm, and_comm]

def toStep (x : Outcome ε σ α) : Option (α × List ε) :=
  match x.result with
  | .ok a => some (a, x.effects)
  | .error _ => none

theorem toStep_eq_some {x : Outcome ε σ α} {a : α} {out : List ε} :
    x.toStep = some (a, out) ↔ x = ⟨out, .ok a⟩ := by
  obtain ⟨o, _ | b⟩ := x
  · simp [toStep]
  · simp [toStep, and_comm]

/-- If the computation stops, it is for one of these reasons. -/
def StopsFor (reason : σ → Prop) (x : Outcome ε σ α) : Prop :=
  ∀ e, x.result = .error e → reason e

theorem stopsFor_ok {reason : σ → Prop} (out : List ε) (a : α) :
    StopsFor reason (⟨out, .ok a⟩ : Outcome ε σ α) := by
  intro e h
  simp at h

theorem stopsFor_stopIf {reason : σ → Prop} {e : σ} (he : reason e) (p : Bool) :
    StopsFor reason (stopIf p e : Outcome ε σ Unit) := by
  cases p with
  | false => exact stopsFor_ok [] ()
  | true =>
    intro e' h
    simp only [stopIf, stop, if_true, Except.error.injEq] at h
    exact h ▸ he

/-- The reasons of a computation are those of its stages. -/
theorem StopsFor.bind {reason : σ → Prop} {x : Outcome ε σ α} {f : α → Outcome ε σ β}
    (hx : StopsFor reason x) (hf : ∀ a, x.result = .ok a → StopsFor reason (f a)) :
    StopsFor reason (x >>= f) := by
  obtain ⟨out, e | a⟩ := x
  · intro e' h
    simp only [mk_error_bind, Except.error.injEq] at h
    exact hx e' (h ▸ rfl)
  · exact hf a rfl

end Outcome

end ServerClientApp.Outcomes
