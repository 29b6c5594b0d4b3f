import Mathlib.Data.List.Nodup
import Mathlib.Logic.Function.Basic
import Mathlib.Tactic.Common

/-!
Exclusive leases. Owners hold at most one resource each and no resource has two
owners, and a list names the resources that are held. An idle owner may take a
free resource, and an owner may give back the one it holds. Owners and resources
are arbitrary; a resource may be taken again once it was given back.
-/

namespace ServerClientApp.Leases

variable {ι ρ : Type*}

/-- The list names each held resource once, and each has one owner. -/
structure Listed (held : ι → Option ρ) (resources : List ρ) : Prop where
  exclusive : ∀ i j r, held i = some r → held j = some r → i = j
  nodup : resources.Nodup
  mem_iff : ∀ r, r ∈ resources ↔ ∃ i, held i = some r

theorem listed_empty : Listed (fun _ : ι => (none : Option ρ)) [] where
  exclusive := by simp
  nodup := List.nodup_nil
  mem_iff := by simp

namespace Listed

variable {held : ι → Option ρ} {resources : List ρ}

theorem owner (h : Listed held resources) {r : ρ} (hmem : r ∈ resources) :
    ∃! i, held i = some r := by
  obtain ⟨i, hi⟩ := (h.mem_iff r).mp hmem
  exact ⟨i, hi, fun j hj => h.exclusive j i r hj hi⟩

theorem not_held (h : Listed held resources) {r : ρ} (hfree : r ∉ resources) (i : ι) :
    held i ≠ some r := fun hi => hfree ((h.mem_iff r).mpr ⟨i, hi⟩)

/-- Dropping a place drops the resource it names, and no other. -/
theorem mem_eraseIdx_iff {k : ℕ} {r q : ρ} (hnodup : resources.Nodup)
    (hplace : resources[k]? = some r) : q ∈ resources.eraseIdx k ↔ q ∈ resources ∧ q ≠ r := by
  rw [List.mem_eraseIdx_iff_getElem?]
  constructor
  · intro hgiven
    obtain ⟨j, hjk, hj⟩ := hgiven
    refine ⟨List.mem_of_getElem? hj, ?_⟩
    intro heq
    subst heq
    obtain ⟨hjlt, hjget⟩ := List.getElem?_eq_some_iff.mp hj
    obtain ⟨hk, hget⟩ := List.getElem?_eq_some_iff.mp hplace
    exact hjk ((hnodup.getElem_inj_iff).mp (hjget.trans hget.symm))
  · intro hgiven
    obtain ⟨hmem, hne⟩ := hgiven
    obtain ⟨j, hj⟩ := List.getElem?_of_mem hmem
    refine ⟨j, ?_, hj⟩
    intro heq
    subst heq
    rw [hplace, Option.some.injEq] at hj
    exact hne hj.symm

variable [DecidableEq ι]

/-- After a lease an owner holds what it took, the others what they held. -/
theorem update_some_eq_some {i a : ι} {r q : ρ} :
    Function.update held i (some r) a = some q ↔ (a = i ∧ q = r) ∨ (a ≠ i ∧ held a = some q) := by
  by_cases hai : a = i
  · subst hai
    simp [eq_comm]
  · rw [Function.update_of_ne hai]
    simp [hai]

theorem update_none_eq_some {i a : ι} {q : ρ} :
    Function.update held i none a = some q ↔ a ≠ i ∧ held a = some q := by
  by_cases hai : a = i
  · subst hai
    simp
  · rw [Function.update_of_ne hai]
    simp [hai]

/-- An idle owner takes a free resource. -/
theorem take (h : Listed held resources) {i : ι} {r : ρ} (hidle : held i = none)
    (hfree : r ∉ resources) : Listed (Function.update held i (some r)) (resources ++ [r]) where
  exclusive := by
    intro a b q ha hb
    rw [update_some_eq_some] at ha hb
    obtain ⟨rfl, rfl⟩ | ⟨-, ha⟩ := ha
    · obtain ⟨rfl, -⟩ | ⟨-, hb⟩ := hb
      · rfl
      · exact absurd hb (h.not_held hfree b)
    · obtain ⟨rfl, rfl⟩ | ⟨-, hb⟩ := hb
      · exact absurd ha (h.not_held hfree a)
      · exact h.exclusive a b q ha hb
  nodup := by
    rw [List.nodup_append]
    refine ⟨h.nodup, List.nodup_singleton r, ?_⟩
    intro a ha b hb
    rw [List.mem_singleton] at hb
    intro heq
    subst heq
    exact hfree (hb ▸ ha)
  mem_iff := by
    intro q
    simp only [List.mem_append, List.mem_singleton, h.mem_iff, update_some_eq_some]
    constructor
    · intro hgiven
      obtain ⟨j, hj⟩ | rfl := hgiven
      · have hne : j ≠ i := by
          intro heq
          rw [heq, hidle] at hj
          exact Option.some_ne_none q hj.symm
        exact ⟨j, Or.inr ⟨hne, hj⟩⟩
      · exact ⟨i, Or.inl ⟨rfl, rfl⟩⟩
    · intro hgiven
      obtain ⟨j, ⟨-, hq⟩ | ⟨-, hj⟩⟩ := hgiven
      · exact Or.inr hq
      · exact Or.inl ⟨j, hj⟩

/-- An owner gives its resource back, and the list drops the place that named it. -/
theorem giveBack (h : Listed held resources) {i : ι} {r : ρ} {k : ℕ} (hheld : held i = some r)
    (hplace : resources[k]? = some r) :
    Listed (Function.update held i none) (resources.eraseIdx k) where
  exclusive := by
    intro a b q ha hb
    rw [update_none_eq_some] at ha hb
    exact h.exclusive a b q ha.2 hb.2
  nodup := h.nodup.sublist (List.eraseIdx_sublist _ _)
  mem_iff := by
    intro q
    simp only [mem_eraseIdx_iff h.nodup hplace, h.mem_iff, update_none_eq_some]
    constructor
    · intro hgiven
      obtain ⟨⟨j, hj⟩, hne⟩ := hgiven
      refine ⟨j, ?_, hj⟩
      intro heq
      rw [heq, hheld, Option.some.injEq] at hj
      exact hne hj.symm
    · intro hgiven
      obtain ⟨j, hji, hj⟩ := hgiven
      exact ⟨⟨j, hj⟩, fun hq => hji (h.exclusive j i r (hq ▸ hj) hheld)⟩

/-- Giving back can also be said by the resource alone. -/
theorem update_none_eq [DecidableEq ρ] (h : Listed held resources) {i : ι} {r : ρ}
    (hheld : held i = some r) :
    Function.update held i none = fun j => if held j = some r then none else held j := by
  funext j
  by_cases hji : j = i
  · subst hji
    rw [Function.update_self, if_pos hheld]
  · rw [Function.update_of_ne hji, if_neg fun hj => hji (h.exclusive j i r hj hheld)]

end Listed

end ServerClientApp.Leases
