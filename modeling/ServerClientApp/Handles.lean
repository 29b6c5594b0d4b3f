import ServerClientApp.Outcomes
import Mathlib.Data.Finset.Basic

/-!
Resources that a computation takes and gives back. Those who hand them out give none
that is held; in return only what is held may be given back, and nothing of a base that
was there before. The rules follow a computation effect by effect, also where it stops.
Resources, effects and reasons to stop are arbitrary types.
-/

namespace ServerClientApp.Handles

open Outcomes

section Uses

variable {ρ : Type} [DecidableEq ρ]

inductive Use (ρ : Type) where
  | takes (r : ρ)
  | gives (r : ρ)
  deriving DecidableEq, Repr

def Use.apply (held : Finset ρ) : Use ρ → Finset ρ
  | .takes r => insert r held
  | .gives r => held.erase r

def after (held : Finset ρ) (uses : List (Use ρ)) : Finset ρ := uses.foldl Use.apply held

def Use.Free (held : Finset ρ) : Use ρ → Prop
  | .takes r => r ∉ held
  | .gives _ => True

/-- What is given back is held, and not of the base. -/
def Use.Due (base held : Finset ρ) : Use ρ → Prop
  | .takes _ => True
  | .gives r => r ∈ held ∧ r ∉ base

instance (held : Finset ρ) : ∀ u : Use ρ, Decidable (u.Free held)
  | .takes r => inferInstanceAs (Decidable (r ∉ held))
  | .gives _ => isTrue trivial

def Throughout (right : Finset ρ → Use ρ → Prop) : Finset ρ → List (Use ρ) → Prop
  | _, [] => True
  | held, u :: uses => right held u ∧ Throughout right (u.apply held) uses

instance instDecidableThroughout {right : Finset ρ → Use ρ → Prop}
    [∀ held u, Decidable (right held u)] : ∀ held uses, Decidable (Throughout right held uses)
  | _, [] => isTrue trivial
  | held, u :: uses =>
    have : Decidable (Throughout right (u.apply held) uses) :=
      instDecidableThroughout (u.apply held) uses
    inferInstanceAs (Decidable (right held u ∧ Throughout right (u.apply held) uses))

abbrev Granted (held : Finset ρ) (uses : List (Use ρ)) : Prop := Throughout Use.Free held uses

abbrev Returned (base held : Finset ρ) (uses : List (Use ρ)) : Prop :=
  Throughout (Use.Due base) held uses

theorem after_append (held : Finset ρ) (uses later : List (Use ρ)) :
    after held (uses ++ later) = after (after held uses) later :=
  List.foldl_append

theorem throughout_append {right : Finset ρ → Use ρ → Prop} {held : Finset ρ}
    {uses later : List (Use ρ)} : Throughout right held (uses ++ later) ↔
      Throughout right held uses ∧ Throughout right (after held uses) later := by
  induction uses generalizing held with
  | nil => simp [Throughout, after]
  | cons u uses ih =>
    simp only [List.cons_append, Throughout, ih, and_assoc]
    rfl

end Uses

section Rules

variable {ρ ε σ α β : Type} [DecidableEq ρ] {use : ε → Option (Use ρ)} {base held : Finset ρ}
  {ok : σ → Prop}

/-- Where nothing is handed out that is held, the computation gives back what it may, a
value it gives meets the postcondition with what is held then, and it stops for
admissible reasons only. -/
structure Careful (use : ε → Option (Use ρ)) (base : Finset ρ) (ok : σ → Prop) (held : Finset ρ)
    (x : Outcome ε σ α) (post : Finset ρ → α → Prop) : Prop where
  returned : Granted held (x.effects.filterMap use) → Returned base held (x.effects.filterMap use)
  value : Granted held (x.effects.filterMap use) → ∀ a, x.result = .ok a →
    post (after held (x.effects.filterMap use)) a
  stops : Granted held (x.effects.filterMap use) → ∀ e, x.result = .error e → ok e

variable {x : Outcome ε σ α} {f : α → Outcome ε σ β} {post : Finset ρ → α → Prop}
  {post' : Finset ρ → β → Prop}

/-- A computation without uses. -/
theorem careful_silent (hsilent : x.effects.filterMap use = [])
    (hvalue : ∀ a, x.result = .ok a → post held a) (hstops : ∀ e, x.result = .error e → ok e) :
    Careful use base ok held x post := by
  refine ⟨?_, ?_, fun _ => hstops⟩
  · rw [hsilent]
    exact fun h => trivial
  · rw [hsilent]
    exact fun _ => hvalue

theorem careful_pure {a : α} (h : post held a) :
    Careful use base ok held (pure a : Outcome ε σ α) post := by
  refine careful_silent rfl ?_ ?_
  · intro b hb
    rw [Outcome.pure_def, Except.ok.injEq] at hb
    exact hb ▸ h
  · intro e he
    simp [Outcome.pure_def] at he

theorem careful_stop {e : σ} (h : ok e) :
    Careful use base ok held (Outcome.stop e : Outcome ε σ α) post := by
  refine careful_silent rfl ?_ ?_
  · intro a ha
    simp [Outcome.stop] at ha
  · intro e' he
    simp only [Outcome.stop, Except.error.injEq] at he
    exact he ▸ h

theorem careful_stopIf {p : Bool} {e : σ} {post : Finset ρ → Unit → Prop} (hok : ok e)
    (h : p = false → post held ()) : Careful use base ok held (Outcome.stopIf p e) post := by
  cases p with
  | true => exact careful_stop hok
  | false => exact careful_pure (h rfl)

theorem careful_takes {e : ε} {r : ρ} {post : Finset ρ → Unit → Prop}
    (huse : use e = some (.takes r)) (h : r ∉ held → post (insert r held) ()) :
    Careful use base ok held (Outcome.emit e) post := by
  have huses : (Outcome.emit e : Outcome ε σ Unit).effects.filterMap use = [.takes r] := by
    simp [Outcome.emit, huse]
  refine ⟨?_, ?_, ?_⟩
  · rw [huses]
    exact fun _ => ⟨trivial, trivial⟩
  · rw [huses]
    exact fun hgranted _ _ => h hgranted.1
  · intro _ e' he
    simp [Outcome.emit] at he

theorem careful_gives {e : ε} {r : ρ} {post : Finset ρ → Unit → Prop}
    (huse : use e = some (.gives r)) (hheld : r ∈ held) (hbase : r ∉ base)
    (h : post (held.erase r) ()) :
    Careful use base ok held (Outcome.emit e) post := by
  have huses : (Outcome.emit e : Outcome ε σ Unit).effects.filterMap use = [.gives r] := by
    simp [Outcome.emit, huse]
  refine ⟨?_, ?_, ?_⟩
  · rw [huses]
    exact fun _ => ⟨⟨hheld, hbase⟩, trivial⟩
  · rw [huses]
    exact fun _ _ _ => h
  · intro _ e' he
    simp [Outcome.emit] at he

/-- What follows is looked at with what is held then. -/
theorem Careful.bind (hx : Careful use base ok held x post)
    (hf : ∀ a held', post held' a → Careful use base ok held' (f a) post') :
    Careful use base ok held (x >>= f) post' := by
  obtain ⟨hreturned, hvalue, hstops⟩ := hx
  obtain ⟨out, e | a⟩ := x
  · rw [Outcome.mk_error_bind]
    refine ⟨hreturned, ?_, ?_⟩
    · intro _ b hb
      simp at hb
    · intro hgranted e' he
      rw [Except.error.injEq] at he
      exact hstops hgranted e' (he ▸ rfl)
  · rw [Outcome.mk_ok_bind]
    refine ⟨?_, ?_, ?_⟩
    all_goals
      simp only [List.filterMap_append]
      intro hgranted
      obtain ⟨hfirst, hsecond⟩ := throughout_append.mp hgranted
      have hlater := hf a _ (hvalue hfirst a rfl)
    · exact throughout_append.mpr ⟨hreturned hfirst, hlater.returned hsecond⟩
    · intro b hb
      rw [after_append]
      exact hlater.value hsecond b hb
    · exact hlater.stops hsecond

/-- A part without uses, and what follows it. -/
theorem careful_silent_bind (hsilent : x.effects.filterMap use = [])
    (hstops : ∀ e, x.result = .error e → ok e)
    (hf : ∀ a, Careful use base ok held (f a) post') :
    Careful use base ok held (x >>= f) post' := by
  have hx : Careful use base ok held x fun held' _ => held' = held :=
    careful_silent hsilent (fun _ _ => rfl) hstops
  refine hx.bind fun a held' heq => ?_
  rw [heq]
  exact hf a

theorem careful_stopIf_bind {p : Bool} {e : σ} {f : Unit → Outcome ε σ β} (hok : ok e)
    (hf : Careful use base ok held (f ()) post') :
    Careful use base ok held (Outcome.stopIf p e >>= f) post' := by
  have hx : Careful use base ok held (Outcome.stopIf p e) fun held' _ => held' = held :=
    careful_stopIf hok fun _ => rfl
  refine hx.bind fun _ held' heq => ?_
  rw [heq]
  exact hf

theorem careful_takes_bind {e : ε} {r : ρ} {f : Unit → Outcome ε σ β}
    (huse : use e = some (.takes r))
    (hf : r ∉ held → Careful use base ok (insert r held) (f ()) post') :
    Careful use base ok held (Outcome.emit e >>= f) post' := by
  have hx : Careful use base ok held (Outcome.emit e : Outcome ε σ Unit)
      fun held' _ => r ∉ held ∧ held' = insert r held :=
    careful_takes huse fun hfree => ⟨hfree, rfl⟩
  refine hx.bind fun _ held' hgiven => ?_
  obtain ⟨hfree, rfl⟩ := hgiven
  exact hf hfree

theorem careful_gives_bind {e : ε} {r : ρ} {f : Unit → Outcome ε σ β}
    (huse : use e = some (.gives r)) (hheld : r ∈ held) (hbase : r ∉ base)
    (hf : Careful use base ok (held.erase r) (f ()) post') :
    Careful use base ok held (Outcome.emit e >>= f) post' := by
  have hx : Careful use base ok held (Outcome.emit e : Outcome ε σ Unit)
      fun held' _ => held' = held.erase r :=
    careful_gives huse hheld hbase rfl
  refine hx.bind fun _ held' heq => ?_
  rw [heq]
  exact hf

theorem Careful.mono {post₁ : Finset ρ → α → Prop} (h : Careful use base ok held x post)
    (himp : ∀ held' a, post held' a → post₁ held' a) : Careful use base ok held x post₁ :=
  ⟨h.returned, fun hgranted a ha => himp _ a (h.value hgranted a ha), h.stops⟩

/-- Where nothing is handed out that is held, a value the computation gives meets the
postcondition with what is held then and with what it did. -/
def Traced (use : ε → Option (Use ρ)) (held : Finset ρ) (x : Outcome ε σ α)
    (post : Finset ρ → List ε → α → Prop) : Prop :=
  Granted held (x.effects.filterMap use) → ∀ a, x.result = .ok a →
    post (after held (x.effects.filterMap use)) x.effects a

theorem Careful.traced (h : Careful use base ok held x post) :
    Traced use held x fun held' _ a => post held' a := h.value

theorem traced_pure {a : α} {post : Finset ρ → List ε → α → Prop} (h : post held [] a) :
    Traced use held (pure a : Outcome ε σ α) post := by
  intro _ b hb
  rw [Outcome.pure_def, Except.ok.injEq] at hb
  exact hb ▸ h

theorem Traced.and {post₁ post₂ : Finset ρ → List ε → α → Prop} (h₁ : Traced use held x post₁)
    (h₂ : Traced use held x post₂) :
    Traced use held x fun held' out a => post₁ held' out a ∧ post₂ held' out a :=
  fun hgranted a ha => ⟨h₁ hgranted a ha, h₂ hgranted a ha⟩

/-- What follows continues what was done. -/
theorem Traced.bind {post : Finset ρ → List ε → α → Prop} {post' : Finset ρ → List ε → β → Prop}
    (hx : Traced use held x post) (hf : ∀ a held' out, post held' out a →
      Traced use held' (f a) fun held'' out' b => post' held'' (out ++ out') b) :
    Traced use held (x >>= f) post' := by
  obtain ⟨out, e | a⟩ := x
  · intro _ b hb
    simp at hb
  · rw [Outcome.mk_ok_bind]
    intro hgranted b hb
    simp only [List.filterMap_append] at hgranted ⊢
    obtain ⟨hfirst, hsecond⟩ := throughout_append.mp hgranted
    rw [after_append]
    exact hf a _ out (hx hfirst a rfl) hsecond b hb

end Rules

end ServerClientApp.Handles
