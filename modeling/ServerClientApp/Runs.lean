import Mathlib.Data.List.Basic
import Mathlib.Tactic.Common

/-!
Runs of a partial step function that emits outputs. A run is possible when
each of its steps is. Invariants and simulations are proved once here, from
what one step preserves, and every later module gets its facts about whole
runs from the two induction rules of this one.
-/

namespace ServerClientApp.Runs

variable {σ ι ε τ : Type*} {step : σ → ι → Option (σ × List ε)}

/-- Take the inputs in order and collect what the steps emit. -/
def exec (step : σ → ι → Option (σ × List ε)) : σ → List ι → Option (σ × List ε)
  | s, [] => some (s, [])
  | s, i :: is =>
    match step s i with
    | none => none
    | some (s', out) => (exec step s' is).map fun r => (r.1, out ++ r.2)

@[simp] theorem exec_nil (s : σ) : exec step s [] = some (s, []) := rfl

theorem exec_cons {s t : σ} {i : ι} {is : List ι} {out : List ε} :
    exec step s (i :: is) = some (t, out) ↔
      ∃ s' o o', step s i = some (s', o) ∧ exec step s' is = some (t, o') ∧ out = o ++ o' := by
  simp only [exec]
  cases hstep : step s i with
  | none => simp
  | some r =>
    obtain ⟨s', o⟩ := r
    simp only [Option.map_eq_some_iff, Prod.mk.injEq, Option.some.injEq, Prod.exists]
    constructor
    · intro hgiven
      obtain ⟨t', o', hrest, rfl, rfl⟩ := hgiven
      exact ⟨s', o, o', ⟨rfl, rfl⟩, hrest, rfl⟩
    · intro hgiven
      obtain ⟨s'', o'', o', ⟨rfl, rfl⟩, hrest, rfl⟩ := hgiven
      exact ⟨t, o', hrest, rfl, rfl⟩

theorem exec_append {s t : σ} {is js : List ι} {out : List ε} :
    exec step s (is ++ js) = some (t, out) ↔
      ∃ s' o o', exec step s is = some (s', o) ∧ exec step s' js = some (t, o') ∧
        out = o ++ o' := by
  induction is generalizing s out with
  | nil => simp
  | cons i is ih =>
    simp only [List.cons_append, exec_cons, ih]
    constructor
    · intro hgiven
      obtain ⟨s', o, _, hi, ⟨s'', o', o'', his, hjs, rfl⟩, rfl⟩ := hgiven
      exact ⟨s'', o ++ o', o'', ⟨s', o, o', hi, his, rfl⟩, hjs, (List.append_assoc ..).symm⟩
    · intro hgiven
      obtain ⟨s'', _, o'', ⟨s', o, o', hi, his, rfl⟩, hjs, rfl⟩ := hgiven
      exact ⟨s', o, o' ++ o'', hi, ⟨s'', o', o'', his, hjs, rfl⟩, List.append_assoc ..⟩

theorem exec_single {s t : σ} {i : ι} {out : List ε} (h : step s i = some (t, out)) :
    exec step s [i] = some (t, out) := by
  simp [exec, h]

/-- What a run is seen to do, input by input. -/
def gathered {β : Type*} (step : σ → ι → Option (σ × List ε)) (view : σ → ι → List β) :
    σ → List ι → List β
  | _, [] => []
  | s, i :: is =>
    view s i ++
      match step s i with
      | none => []
      | some (s', _) => gathered step view s' is

theorem gathered_cons {β : Type*} {view : σ → ι → List β} {s s' : σ} {i : ι} {is : List ι}
    {out : List ε} (h : step s i = some (s', out)) :
    gathered step view s (i :: is) = view s i ++ gathered step view s' is := by
  simp only [gathered, h]

def final (step : σ → ι → Option (σ × List ε)) (s : σ) (is : List ι) : σ :=
  ((exec step s is).map Prod.fst).getD s

theorem exec_final {s : σ} {is : List ι} (h : (exec step s is).isSome = true) :
    ∃ out, exec step s is = some (final step s is, out) := by
  obtain ⟨⟨t, out⟩, hrun⟩ := Option.isSome_iff_exists.mp h
  exact ⟨out, by rw [final, hrun, Option.map_some, Option.getD_some]⟩

/-- Every input of the run meets the condition in the state it is taken in. -/
def Along (step : σ → ι → Option (σ × List ε)) (ok : σ → ι → Prop) : σ → List ι → Prop
  | _, [] => True
  | s, i :: is => ok s i ∧ ∀ s' o, step s i = some (s', o) → Along step ok s' is

theorem along_true (s : σ) (is : List ι) : Along step (fun _ _ => True) s is := by
  induction is generalizing s with
  | nil => trivial
  | cons i is ih => exact ⟨trivial, fun s' _ _ => ih s'⟩

theorem Along.mono {ok ok' : σ → ι → Prop} (himp : ∀ s i, ok s i → ok' s i) {s : σ} {is : List ι}
    (h : Along step ok s is) : Along step ok' s is := by
  induction is generalizing s with
  | nil => trivial
  | cons i is ih => exact ⟨himp s i h.1, fun s' o hi => ih (h.2 s' o hi)⟩

/-- A condition along a run holds along what is left after its first part. -/
theorem Along.later {ok : σ → ι → Prop} {s t : σ} {is js : List ι} {out : List ε}
    (h : Along step ok s (is ++ js)) (hrun : exec step s is = some (t, out)) :
    Along step ok t js := by
  induction is generalizing s out with
  | nil =>
    simp only [exec_nil, Option.some.injEq, Prod.mk.injEq] at hrun
    exact hrun.1 ▸ h
  | cons i is ih =>
    obtain ⟨s₁, o, o', hi, hrest, -⟩ := exec_cons.mp hrun
    exact ih (h.2 s₁ o hi) hrest

theorem Along.initial {ok : σ → ι → Prop} {s : σ} {is js : List ι}
    (h : Along step ok s (is ++ js)) : Along step ok s is := by
  induction is generalizing s with
  | nil => trivial
  | cons i is ih => exact ⟨h.1, fun s' o hi => ih (h.2 s' o hi)⟩

theorem Along.append {ok : σ → ι → Prop} {s t : σ} {is js : List ι} {out : List ε}
    (h : Along step ok s is) (hrun : exec step s is = some (t, out)) (hlater : Along step ok t js) :
    Along step ok s (is ++ js) := by
  induction is generalizing s out with
  | nil =>
    simp only [exec_nil, Option.some.injEq, Prod.mk.injEq] at hrun
    exact hrun.1 ▸ hlater
  | cons i is ih =>
    obtain ⟨s₁, o, o', hi, hrest, -⟩ := exec_cons.mp hrun
    refine ⟨h.1, fun s' o₁ hi' => ?_⟩
    rw [hi, Option.some.injEq, Prod.mk.injEq] at hi'
    exact ih (h.2 s' o₁ (by rw [hi, hi'.1, hi'.2])) (hi'.1 ▸ hrest)

theorem Along.and {ok ok' : σ → ι → Prop} {s : σ} {is : List ι} (h : Along step ok s is)
    (h' : Along step ok' s is) : Along step (fun s i => ok s i ∧ ok' s i) s is := by
  induction is generalizing s with
  | nil => trivial
  | cons i is ih =>
    exact ⟨⟨h.1, h'.1⟩, fun s' o hi => ih (h.2 s' o hi) (h'.2 s' o hi)⟩

instance instDecidableAlong {ok : σ → ι → Prop} [∀ s i, Decidable (ok s i)] :
    ∀ s is, Decidable (Along step ok s is)
  | _, [] => isTrue trivial
  | s, i :: is =>
    match h : step s i with
    | none => decidable_of_iff (ok s i)
        ⟨fun hok => ⟨hok, fun s' o hstep => by simp [h] at hstep⟩, And.left⟩
    | some r =>
      have : Decidable (Along step ok r.1 is) := instDecidableAlong r.1 is
      decidable_of_iff (ok s i ∧ Along step ok r.1 is)
        (and_congr_right fun _ => ⟨fun hrest s' o hstep => by
          rw [h, Option.some.injEq] at hstep
          rwa [hstep] at hrest, fun hall => hall r.1 r.2 h⟩)

theorem Along.concat {ok : σ → ι → Prop} {s : σ} {is : List ι} {i : ι}
    (h : Along step ok s is) (hlast : ∀ t out, exec step s is = some (t, out) → ok t i) :
    Along step ok s (is ++ [i]) := by
  induction is generalizing s with
  | nil => exact ⟨hlast s [] rfl, fun _ _ _ => trivial⟩
  | cons j is ih =>
    refine ⟨h.1, fun s' o hj => ih (h.2 s' o hj) fun t out hrun => ?_⟩
    exact hlast t (o ++ out) (exec_cons.mpr ⟨s', o, out, hj, hrun, rfl⟩)

/-- A relation that each step carries along, together with the abstract move
its input stands for, relates the end of a run to the fold of these moves. -/
theorem exec_simulates {ok : σ → ι → Prop} {R : σ → τ → Prop} (next : τ → ι → τ)
    (hstep : ∀ s t i s' o, R s t → ok s i → step s i = some (s', o) → R s' (next t i))
    {s s' : σ} {t : τ} {is : List ι} {out : List ε} (hR : R s t) (hok : Along step ok s is)
    (h : exec step s is = some (s', out)) : R s' (is.foldl next t) := by
  induction is generalizing s t out with
  | nil =>
    simp only [exec_nil, Option.some.injEq, Prod.mk.injEq] at h
    exact h.1 ▸ hR
  | cons i is ih =>
    obtain ⟨s₁, o, o', hi, hrest, -⟩ := exec_cons.mp h
    exact ih (hstep s t i s₁ o hR hok.1 hi) (hok.2 s₁ o hi) hrest

/-- What holds at the start and is preserved by each step holds at the end. -/
theorem exec_invariant {ok : σ → ι → Prop} {I : σ → Prop}
    (hstep : ∀ s i s' o, I s → ok s i → step s i = some (s', o) → I s')
    {s s' : σ} {is : List ι} {out : List ε} (hI : I s) (hok : Along step ok s is)
    (h : exec step s is = some (s', out)) : I s' := by
  exact exec_simulates (R := fun s (_ : Unit) => I s) (t := ()) (fun t _ => t)
    (fun s _ i s' o hI hi => hstep s i s' o hI hi) hI hok h

/-- An invariant may also speak about the outputs so far. -/
theorem exec_history {ok : σ → ι → Prop} {I : σ → List ε → Prop}
    (hstep : ∀ s past i s' o, I s past → ok s i → step s i = some (s', o) → I s' (past ++ o))
    {s s' : σ} {past : List ε} {is : List ι} {out : List ε} (hI : I s past)
    (hok : Along step ok s is) (h : exec step s is = some (s', out)) : I s' (past ++ out) := by
  induction is generalizing s past out with
  | nil =>
    simp only [exec_nil, Option.some.injEq, Prod.mk.injEq] at h
    obtain ⟨rfl, rfl⟩ := h
    rwa [List.append_nil]
  | cons i is ih =>
    obtain ⟨s₁, o, o', hi, hrest, rfl⟩ := exec_cons.mp h
    rw [← List.append_assoc]
    exact ih (hstep s past i s₁ o hI hok.1 hi) (hok.2 s₁ o hi) hrest

/-- Steps that lower a load are as many as the load at most. -/
theorem exec_bounded {ok : σ → ι → Prop} {I : σ → Prop} {load : σ → ℕ}
    (hstep : ∀ s i s' o, I s → ok s i → step s i = some (s', o) → I s' ∧ load s' < load s)
    {s s' : σ} {is : List ι} {out : List ε} (hI : I s) (hok : Along step ok s is)
    (h : exec step s is = some (s', out)) : I s' ∧ is.length + load s' ≤ load s := by
  induction is generalizing s out with
  | nil =>
    simp only [exec_nil, Option.some.injEq, Prod.mk.injEq] at h
    obtain ⟨rfl, -⟩ := h
    exact ⟨hI, by simp⟩
  | cons i is ih =>
    obtain ⟨s₁, o, o', hi, hrest, -⟩ := exec_cons.mp h
    obtain ⟨hI₁, hless⟩ := hstep s i s₁ o hI hok.1 hi
    obtain ⟨hI', hbound⟩ := ih hI₁ (hok.2 s₁ o hi) hrest
    refine ⟨hI', ?_⟩
    rw [List.length_cons]
    omega

/-- A condition that each step shows in its outputs holds along a run exactly if
the outputs of the run show it. -/
theorem along_iff_outputs {ok : σ → ι → Prop} {shows : ε → Prop}
    (hstep : ∀ s i s' o, step s i = some (s', o) → (ok s i ↔ ∀ e ∈ o, shows e))
    {s s' : σ} {is : List ι} {out : List ε} (h : exec step s is = some (s', out)) :
    Along step ok s is ↔ ∀ e ∈ out, shows e := by
  induction is generalizing s out with
  | nil =>
    simp only [exec_nil, Option.some.injEq, Prod.mk.injEq] at h
    obtain ⟨-, rfl⟩ := h
    simp [Along]
  | cons i is ih =>
    obtain ⟨s₁, o, o', hi, hrest, rfl⟩ := exec_cons.mp h
    simp only [Along, List.forall_mem_append, hstep s i s₁ o hi, ← ih hrest]
    refine and_congr_right fun _ => ⟨fun hall => hall s₁ o hi, fun halong s' o' hi' => ?_⟩
    rw [hi, Option.some.injEq, Prod.mk.injEq] at hi'
    exact hi'.1 ▸ halong

end ServerClientApp.Runs
