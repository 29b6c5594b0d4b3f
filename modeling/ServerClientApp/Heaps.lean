import ServerClientApp.Outcomes
import Mathlib.Logic.Function.Basic

/-!
Computations on a heap of allocated blocks. Access to a block that is not allocated, or a
second release of one, is a trap, and another one is an access beyond what a block holds.
A computation with memory simulates one without if it does the same where the allocations
succeed; some reasons of the other one to stop are accesses of the second kind. The rules
follow the accesses one by one, with all cells of the heap in the assertions. Contents,
effects and reasons to stop are arbitrary types.
-/

namespace ServerClientApp.Heaps

open Outcomes Outcome

section Model

variable {κ ε ε' σ σ' α : Type}

abbrev Cells (κ : Type) := ℕ → Option κ

/-- The blocks are numbered as they are allocated, and no number is used again. -/
structure Heap (κ : Type) where
  next : ℕ
  cells : Cells κ

def Heap.empty : Heap κ := ⟨0, fun _ => none⟩

def Heap.push (h : Heap κ) (c : κ) : Heap κ :=
  ⟨h.next + 1, Function.update h.cells h.next (some c)⟩

def Heap.set (h : Heap κ) (a : ℕ) (content : Option κ) : Heap κ :=
  { h with cells := Function.update h.cells a content }

/-- `none` is NULL. -/
abbrev Pointer := Option ℕ

/-- A computation stops at a pointer to no block or to one of another kind, at an access
beyond what there is, or for a reason of its own. -/
inductive Trap (σ : Type) where
  | invalid
  | outside
  | own (reason : σ)
  deriving DecidableEq, Repr

def Trap.map (g : σ → σ') : Trap σ → Trap σ'
  | invalid => invalid
  | outside => outside
  | own e => own (g e)

def Trap.of (access : σ → Bool) (e : σ) : Trap σ := if access e then outside else own e

abbrev Mem (κ ε σ : Type) := StateT (Heap κ) (Outcome ε (Trap σ))

def embed (access : σ → Bool) (x : Outcome ε σ α) : Mem κ ε σ α :=
  fun h => ⟨x.effects, (x.result.map (·, h)).mapError (Trap.of access)⟩

def hoist (f : ε → ε') (g : σ → σ') (x : Mem κ ε σ α) : Mem κ ε' σ' α :=
  fun h => ⟨(x h).effects.map f, (x h).result.mapError (Trap.map g)⟩

def halt (t : Trap σ) : Mem κ ε σ α := fun _ => stop t

/-- The allocation under a number may fail. What the block holds at first is given. -/
def malloc (fails : ℕ → Bool) (c : κ) : Mem κ ε σ Pointer := fun h =>
  if fails h.next then pure (none, ⟨h.next + 1, h.cells⟩)
  else pure (some h.next, h.push c)

def allocate (fails : ℕ → Bool) (starved : σ) (c : κ) : Mem κ ε σ ℕ := do
  match ← malloc fails c with
  | some a => return a
  | none => halt (.own starved)

def load (p : Pointer) : Mem κ ε σ κ := fun h =>
  match p.bind h.cells with
  | some c => pure (c, h)
  | none => stop .invalid

def replace (p : Pointer) (content : Option κ) : Mem κ ε σ Unit := fun h =>
  match p with
  | some a => if (h.cells a).isSome then pure ((), h.set a content) else stop .invalid
  | none => stop .invalid

def store (p : Pointer) (c : κ) : Mem κ ε σ Unit := replace p (some c)

def free (p : Pointer) : Mem κ ε σ Unit := if p.isNone then pure () else replace p none

end Model

section Cells

variable {κ : Type} {m : Cells κ} {a b : ℕ}

theorem ne_of_held {c : κ} (hcell : m a = some c) (hnone : m b = none) : a ≠ b := by
  rintro rfl
  simp [hcell] at hnone

/-- What a block held does not matter once it is overwritten. -/
theorem update_shadow (hne : a ≠ b) (c c' c'' : Option κ) :
    Function.update (Function.update (Function.update m b c) a c') b c'' =
      Function.update (Function.update m a c') b c'' := by
  rw [Function.update_comm hne, Function.update_idem, Function.update_comm hne.symm]

/-- A block that was allocated is given back. -/
theorem update_none (hnone : m b = none) (c : Option κ) :
    Function.update (Function.update m b c) b none = m := by
  rw [Function.update_idem]
  exact Function.update_eq_self_iff.mpr hnone.symm

theorem update_none_behind (hne : a ≠ b) (hnone : m b = none) (c c' : Option κ) :
    Function.update (Function.update (Function.update m b c) a c') b none =
      Function.update m a c' := by
  rw [Function.update_comm hne, update_none hnone]

end Cells

section Rules

variable {κ ε ε' σ σ' α α' β β' : Type} {access : σ → Bool} {fails : ℕ → Bool} {starved : σ}

def Heap.Sound (h : Heap κ) : Prop := ∀ a, h.next ≤ a → h.cells a = none

theorem sound_empty : (Heap.empty : Heap κ).Sound := fun _ _ => rfl

@[simp] theorem Heap.cells_push (h : Heap κ) (c : κ) :
    (h.push c).cells = Function.update h.cells h.next (some c) := rfl

@[simp] theorem Heap.cells_set (h : Heap κ) (a : ℕ) (content : Option κ) :
    (h.set a content).cells = Function.update h.cells a content := rfl

theorem Heap.Sound.push {h : Heap κ} (hsound : h.Sound) (c : κ) : (h.push c).Sound := by
  intro a ha
  have hlater : h.next < a := ha
  rw [Heap.cells_push, Function.update_of_ne (Nat.ne_of_gt hlater)]
  exact hsound a (Nat.le_of_lt hlater)

theorem Heap.Sound.set {h : Heap κ} {a : ℕ} (hsound : h.Sound) (hcell : (h.cells a).isSome = true)
    (content : Option κ) : (h.set a content).Sound := by
  intro b hb
  have hne : b ≠ a := by
    intro heq
    rw [hsound a (heq ▸ hb)] at hcell
    simp at hcell
  rw [Heap.cells_set, Function.update_of_ne hne]
  exact hsound b hb

/-- How an outcome on the heap may compare with one without: the same value or the same
stop after the same effects, or, where an allocation may fail, an early end. -/
inductive Follows (access : σ → Bool) (fails : ℕ → Bool) (starved : σ) (y : Outcome ε σ β)
    (post : Cells κ → α → β → Prop) : Outcome ε (Trap σ) (α × Heap κ) → Prop
  | value {a : α} {b : β} {h : Heap κ} : y.result = .ok b → h.Sound → post h.cells a b →
      Follows access fails starved y post ⟨y.effects, .ok (a, h)⟩
  | stops {e : σ} : y.result = .error e →
      Follows access fails starved y post ⟨y.effects, .error (Trap.of access e)⟩
  | starves {n : ℕ} {out : List ε} : fails n = true → out <+: y.effects →
      Follows access fails starved y post ⟨out, .error (.own starved)⟩

/-- On these cells every pointer is valid, and the computation does what the other one
does. -/
def Simulates (access : σ → Bool) (fails : ℕ → Bool) (starved : σ) (m : Cells κ)
    (x : Mem κ ε σ α) (y : Outcome ε σ β) (post : Cells κ → α → β → Prop) : Prop :=
  ∀ h : Heap κ, h.Sound → h.cells = m → Follows access fails starved y post (x h)

variable {m : Cells κ} {x : Mem κ ε σ α} {y : Outcome ε σ β} {f : α → Mem κ ε σ α'}
  {g : β → Outcome ε σ β'} {post : Cells κ → α → β → Prop} {post' : Cells κ → α' → β' → Prop}

theorem Simulates.mono {post₁ : Cells κ → α → β → Prop}
    (h : Simulates access fails starved m x y post) (himp : ∀ m' a b, post m' a b → post₁ m' a b) :
    Simulates access fails starved m x y post₁ := by
  intro heap hsound hcells
  have hx := h heap hsound hcells
  generalize x heap = first at hx ⊢
  cases hx with
  | value hy hsound' hpost => exact .value hy hsound' (himp _ _ _ hpost)
  | stops hy => exact .stops hy
  | starves hn hinitial => exact .starves hn hinitial

/-- The value without memory is that of the other computation. -/
theorem Simulates.result (h : Simulates access fails starved m x y post) :
    Simulates access fails starved m x y fun m' a b => post m' a b ∧ y.result = .ok b := by
  intro heap hsound hcells
  have hx := h heap hsound hcells
  generalize x heap = first at hx ⊢
  cases hx with
  | value hy hsound' hpost => exact .value hy hsound' ⟨hpost, hy⟩
  | stops hy => exact .stops hy
  | starves hn hinitial => exact .starves hn hinitial

theorem simulates_pure {a : α} {b : β} (h : post m a b) :
    Simulates access fails starved m (pure a : Mem κ ε σ α) (pure b) post := by
  intro heap hsound hcells
  exact .value (y := pure b) rfl hsound (hcells ▸ h)

theorem simulates_embed {y : Outcome ε σ α} :
    Simulates access fails starved m (embed access y) y
      fun m' a b => m' = m ∧ a = b ∧ y.result = .ok b := by
  intro heap hsound hcells
  obtain ⟨out, e | a⟩ := y
  · exact .stops (y := ⟨out, .error e⟩) rfl
  · exact .value (y := ⟨out, .ok a⟩) rfl hsound ⟨hcells, rfl, rfl⟩

theorem simulates_stop {e : σ} :
    Simulates access fails starved m (embed access (stop e) : Mem κ ε σ α)
      (stop e : Outcome ε σ β) post := by
  intro heap _ _
  exact .stops (y := stop e) rfl

/-- An access beyond what there is, where the other computation stops for it. -/
theorem simulates_outside {e : σ} (haccess : access e = true) :
    Simulates access fails starved m (halt .outside : Mem κ ε σ α)
      (stop e : Outcome ε σ β) post := by
  intro heap _ _
  have hstops : Follows access fails starved (stop e : Outcome ε σ β) post
      ⟨[], .error (Trap.of access e)⟩ := .stops (y := stop e) rfl
  rw [Trap.of, if_pos haccess] at hstops
  exact hstops

theorem Simulates.bind (hx : Simulates access fails starved m x y post)
    (hf : ∀ m' a b, post m' a b → Simulates access fails starved m' (f a) (g b) post') :
    Simulates access fails starved m (x >>= f) (y >>= g) post' := by
  intro heap hsound hcells
  have hfirst := hx heap hsound hcells
  change Follows access fails starved (y >>= g) post' (x heap >>= fun r => f r.1 r.2)
  generalize x heap = first at hfirst
  obtain ⟨out, e | b⟩ := y
  · cases hfirst with
    | value hy => simp at hy
    | stops hy =>
      rw [Except.error.injEq] at hy
      exact .stops (y := ⟨out, .error e⟩) (congrArg Except.error hy)
    | starves hn hinitial => exact .starves hn hinitial
  · cases hfirst with
    | stops hy => simp at hy
    | starves hn hinitial => exact .starves hn (hinitial.trans (List.prefix_append _ _))
    | @value a b' heap' hy hsound' hpost =>
      rw [Except.ok.injEq] at hy
      subst hy
      have hsecond := hf heap'.cells a b hpost heap' hsound' rfl
      simp only [mk_ok_bind]
      generalize f a heap' = second at hsecond
      cases hsecond with
      | value hg hsound'' hpost' => exact .value (y := ⟨out ++ (g b).effects, _⟩) hg hsound'' hpost'
      | stops hg => exact .stops (y := ⟨out ++ (g b).effects, _⟩) hg
      | starves hn hinitial => exact .starves hn ((List.prefix_append_right_inj out).mpr hinitial)

/-- A part that does nothing outside of the heap. -/
theorem Simulates.silent {own : Cells κ → α → Prop} {y : Outcome ε σ β'}
    (hx : Simulates access fails starved m x (pure ()) fun m' a _ => own m' a)
    (hf : ∀ m' a, own m' a → Simulates access fails starved m' (f a) y post') :
    Simulates access fails starved m (x >>= f) y post' :=
  hx.bind fun m' a _ h => hf m' a h

theorem simulates_embed_bind {y : Outcome ε σ α} {g : α → Outcome ε σ β'}
    (hf : ∀ a, y.result = .ok a → Simulates access fails starved m (f a) (g a) post') :
    Simulates access fails starved m (embed access y >>= f) (y >>= g) post' := by
  refine simulates_embed.bind fun m' a b hembed => ?_
  obtain ⟨rfl, rfl, hvalue⟩ := hembed
  exact hf a hvalue

theorem simulates_allocate {c : κ} {f : ℕ → Mem κ ε σ α'} {y : Outcome ε σ β'}
    (hf : ∀ a, m a = none →
      Simulates access fails starved (Function.update m a (some c)) (f a) y post') :
    Simulates access fails starved m (allocate fails starved c >>= f) y post' := by
  have hx : Simulates access fails starved m (allocate fails starved c : Mem κ ε σ ℕ) (pure ())
      fun m' a _ => m a = none ∧ m' = Function.update m a (some c) := by
    intro heap hsound hcells
    change Follows access fails starved (pure ()) _ (malloc fails c heap >>= _)
    unfold malloc
    by_cases hfails : fails heap.next = true
    · rw [if_pos hfails]
      exact .starves hfails List.nil_prefix
    · rw [if_neg hfails]
      exact .value (y := pure ()) rfl (hsound.push c)
        ⟨hcells ▸ hsound _ (Nat.le_refl _), by rw [← hcells, Heap.cells_push]⟩
  refine hx.silent fun m' a h => ?_
  obtain ⟨hnone, rfl⟩ := h
  exact hf a hnone

theorem simulates_load {a : ℕ} {c : κ} {f : κ → Mem κ ε σ α'} {y : Outcome ε σ β'}
    (hcell : m a = some c) (hf : Simulates access fails starved m (f c) y post') :
    Simulates access fails starved m (load (some a) >>= f) y post' := by
  have hx : Simulates access fails starved m (load (some a) : Mem κ ε σ κ) (pure ())
      fun m' c' _ => c' = c ∧ m' = m := by
    intro heap hsound hcells
    rw [load, hcells, Option.bind_some, hcell]
    exact .value (y := pure ()) rfl hsound ⟨rfl, hcells⟩
  refine hx.silent fun m' c' h => ?_
  obtain ⟨rfl, rfl⟩ := h
  exact hf

theorem simulates_replace {a : ℕ} {content : Option κ} {f : Unit → Mem κ ε σ α'}
    {y : Outcome ε σ β'} (hcell : (m a).isSome = true)
    (hf : Simulates access fails starved (Function.update m a content) (f ()) y post') :
    Simulates access fails starved m (replace (some a) content >>= f) y post' := by
  have hx : Simulates access fails starved m (replace (some a) content : Mem κ ε σ Unit) (pure ())
      fun m' _ _ => m' = Function.update m a content := by
    intro heap hsound hcells
    subst hcells
    simp only [replace]
    rw [if_pos hcell]
    exact .value (y := pure ()) rfl (hsound.set hcell content) rfl
  refine hx.silent fun m' _ h => ?_
  subst h
  exact hf

theorem simulates_store {a : ℕ} {c : κ} {f : Unit → Mem κ ε σ α'} {y : Outcome ε σ β'}
    (hcell : (m a).isSome = true)
    (hf : Simulates access fails starved (Function.update m a (some c)) (f ()) y post') :
    Simulates access fails starved m (store (some a) c >>= f) y post' :=
  simulates_replace hcell hf

theorem simulates_free {a : ℕ} {f : Unit → Mem κ ε σ α'} {y : Outcome ε σ β'}
    (hcell : (m a).isSome = true)
    (hf : Simulates access fails starved (Function.update m a none) (f ()) y post') :
    Simulates access fails starved m (free (some a) >>= f) y post' :=
  simulates_replace hcell hf

theorem simulates_free_null {f : Unit → Mem κ ε σ α'} {y : Outcome ε σ β'}
    (hf : Simulates access fails starved m (f ()) y post') :
    Simulates access fails starved m (free none >>= f) y post' := hf

/-- A run on the empty heap has no invalid pointer. Its effects are a first part of those
of the other computation. It goes beyond what there is exactly where that one stops for
an access, it stops as that one does or because an allocation fails, and a value comes
with all the effects and a heap that meets the postcondition. -/
theorem Simulates.start (h : Simulates access fails starved (fun _ => none) x y post) :
    (x Heap.empty).result ≠ .error .invalid ∧
    (x Heap.empty).effects <+: y.effects ∧
    ((x Heap.empty).result = .error .outside →
      (x Heap.empty).effects = y.effects ∧ ∃ e, access e = true ∧ y.result = .error e) ∧
    (∀ e, (x Heap.empty).result = .error (.own e) →
      ((x Heap.empty).effects = y.effects ∧ access e = false ∧ y.result = .error e) ∨
        (e = starved ∧ ∃ n, fails n = true)) ∧
    ∀ a heap, (x Heap.empty).result = .ok (a, heap) →
      (x Heap.empty).effects = y.effects ∧ ∃ b, y.result = .ok b ∧ post heap.cells a b := by
  have hx := h Heap.empty sound_empty rfl
  generalize x Heap.empty = first at hx
  cases hx with
  | @value a b heap hy hsound hpost =>
    refine ⟨by simp, List.prefix_refl _, by simp, by simp, ?_⟩
    intro a' heap' heq
    rw [Except.ok.injEq, Prod.mk.injEq] at heq
    obtain ⟨rfl, rfl⟩ := heq
    exact ⟨rfl, b, hy, hpost⟩
  | @stops e hy =>
    cases haccess : access e with
    | true =>
      rw [Trap.of, if_pos haccess]
      exact ⟨by simp, List.prefix_refl _, fun _ => ⟨rfl, e, haccess, hy⟩, by simp, by simp⟩
    | false =>
      rw [Trap.of, if_neg (by simp [haccess])]
      refine ⟨by simp, List.prefix_refl _, by simp, fun e' heq => ?_, by simp⟩
      rw [Except.error.injEq, Trap.own.injEq] at heq
      exact Or.inl ⟨rfl, heq ▸ haccess, heq ▸ hy⟩
  | @starves n out hn hinitial =>
    refine ⟨by simp, hinitial, by simp, fun e heq => ?_, by simp⟩
    rw [Except.error.injEq, Trap.own.injEq] at heq
    exact Or.inr ⟨heq.symm, n, hn⟩

theorem Trap.map_of {access' : σ' → Bool} {r : σ → σ'} (h : ∀ e, access' (r e) = access e) (e : σ) :
    Trap.map r (Trap.of access e) = Trap.of access' (r e) := by
  unfold Trap.of
  rw [h]
  split <;> rfl

/-- Other names for effects and reasons. -/
theorem Simulates.hoist {e : ε → ε'} {r : σ → σ'} {access' : σ' → Bool}
    (haccess : ∀ reason, access' (r reason) = access reason)
    (h : Simulates access fails starved m x y post) :
    Simulates access' fails (r starved) m (Heaps.hoist e r x)
      ⟨y.effects.map e, y.result.mapError r⟩ post := by
  intro heap hsound hcells
  have hx := h heap hsound hcells
  unfold Heaps.hoist
  generalize x heap = first at hx
  cases hx with
  | value hy hsound' hpost =>
    exact .value (y := ⟨y.effects.map e, _⟩) (by rw [hy]; rfl) hsound' hpost
  | @stops reason hy =>
    have hstops : Follows access' fails (r starved) ⟨y.effects.map e, y.result.mapError r⟩ post
        ⟨y.effects.map e, .error (Trap.of access' (r reason))⟩ :=
      .stops (y := ⟨y.effects.map e, _⟩) (by rw [hy]; rfl)
    rwa [← Trap.map_of haccess] at hstops
  | starves hn hinitial => exact .starves hn (hinitial.map e)

end Rules

end ServerClientApp.Heaps
