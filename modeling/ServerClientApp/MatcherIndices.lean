import ServerClientApp.Outcomes
import ServerClientApp.Wildcards

/-!
The indices of the wildcard matcher. Here its two iterators are ints that start
at -1 and are incremented before they are used, every access to a vector is
recorded, and an access outside the vector or an increment past the largest int
stops the run. The matcher of Wildcards, on natural numbers, is followed step by
step.
-/

namespace ServerClientApp.MatcherIndices

open Outcomes Outcome Protocols Wildcards

inductive Side where
  | old
  | new
  deriving DecidableEq, Repr

structure Access where
  side : Side
  index : ℤ
  deriving DecidableEq, Repr

/-- Why a run has no result: an access out of range, a signed overflow, or a loop
that is not left in the given number of rounds. -/
inductive Fault where
  | outOfRange
  | overflow
  | unfinished
  deriving DecidableEq, Repr

abbrev Run := Outcome Access Fault

/-- INT_MAX -/
def intMax : ℤ := 2147483647

def sizeAsInt (tokens : List Token) : ℤ := (tokens.length : ℤ).bmod (2 ^ 32)

def increment (it : ℤ) : Run ℤ := if it = intMax then stop .overflow else pure (it + 1)

def readAt (side : Side) (tokens : List Token) (it : ℤ) : Run Token := do
  emit ⟨side, it⟩
  match if it < 0 then none else tokens[it.toNat]? with
  | some token => pure token
  | none => stop .outOfRange

section Loops

variable (oldTokens newTokens : List Token)

def searchIndices (afterStar : Token) : ℕ → ℤ → Run (Option ℤ)
  | 0, _ => stop .unfinished
  | rounds + 1, itNew =>
    if itNew = sizeAsInt newTokens then pure none
    else do
      let token ← readAt .new newTokens itNew
      if token = afterStar then pure (some itNew)
      else do
        let itNew ← increment itNew
        searchIndices afterStar rounds itNew

/-- The outer loop. A literal token is read again for each comparison. -/
def compareIndicesLoop (starStr plusStr : Token) (limit : ℕ) : ℕ → ℤ → ℤ → Run Bool
  | 0, _, _ => stop .unfinished
  | rounds + 1, itOld, itNew => do
    let itOld ← increment itOld
    let itNew ← increment itNew
    if itOld = sizeAsInt oldTokens ∨ itNew = sizeAsInt newTokens then
      pure (decide (itOld = sizeAsInt oldTokens ∧ itNew = sizeAsInt newTokens))
    else do
      let old ← readAt .old oldTokens itOld
      if old = starStr then do
        let itOld ← increment itOld
        if itOld = sizeAsInt oldTokens then pure true
        else do
          let afterStar ← readAt .old oldTokens itOld
          match ← searchIndices newTokens afterStar limit itNew with
          | none => pure false
          | some itNew => compareIndicesLoop starStr plusStr limit rounds itOld itNew
      else do
        let old ← readAt .old oldTokens itOld
        if old = plusStr then compareIndicesLoop starStr plusStr limit rounds itOld itNew
        else do
          let old ← readAt .old oldTokens itOld
          let new ← readAt .new newTokens itNew
          if old ≠ new then pure false
          else compareIndicesLoop starStr plusStr limit rounds itOld itNew

/-- compare_token_vectors, with a limit on the rounds of each loop. -/
def compareIndices (starStr plusStr : Token) (limit : ℕ) : Run Bool :=
  compareIndicesLoop oldTokens newTokens starStr plusStr limit limit (-1) (-1)

end Loops

example : compareIndices [ascii "*", ascii "a"] [ascii "x", ascii "a"] starStr plusStr 3 =
    ⟨[⟨.old, 0⟩, ⟨.old, 1⟩, ⟨.new, 0⟩, ⟨.new, 1⟩], .ok true⟩ := by rfl

section Safety

variable (oldTokens newTokens : List Token)

def Side.tokens : Side → List Token
  | .old => oldTokens
  | .new => newTokens

def InRange (access : Access) : Prop :=
  0 ≤ access.index ∧ access.index < (access.side.tokens oldTokens newTokens).length

/-- The run ends with this result and all its accesses are in range. -/
def Safely {α : Type} (x : Run α) (a : α) : Prop :=
  x.result = .ok a ∧ ∀ access ∈ x.effects, InRange oldTokens newTokens access

variable {oldTokens newTokens} {α β : Type}

theorem safely_pure (a : α) : Safely oldTokens newTokens (pure a : Run α) a := by
  refine ⟨rfl, ?_⟩
  intro access hmem
  exact absurd hmem List.not_mem_nil

theorem Safely.bind {x : Run α} {f : α → Run β} {a : α} {b : β}
    (hx : Safely oldTokens newTokens x a) (hf : Safely oldTokens newTokens (f a) b) :
    Safely oldTokens newTokens (x >>= f) b := by
  obtain ⟨out, result⟩ := x
  obtain ⟨rfl, hout⟩ := hx
  refine ⟨hf.1, ?_⟩
  intro access hmem
  rcases List.mem_append.mp hmem with hmem | hmem
  · exact hout access hmem
  · exact hf.2 access hmem

/-- Below the largest int an increment adds one. -/
theorem safely_increment {z : ℤ} {i : ℕ} (hz : z + 1 = i) (hi : i ≤ 2 ^ 31 - 1) :
    Safely oldTokens newTokens (increment z) i := by
  have hne : z ≠ intMax := by
    unfold intMax
    omega
  unfold increment
  rw [if_neg hne, hz]
  exact safely_pure _

theorem safely_readAt (side : Side) {i : ℕ}
    (hi : i < (side.tokens oldTokens newTokens).length) :
    Safely oldTokens newTokens (readAt side (side.tokens oldTokens newTokens) i)
      (side.tokens oldTokens newTokens)[i] := by
  have hread : readAt side (side.tokens oldTokens newTokens) i =
      ⟨[⟨side, i⟩], .ok (side.tokens oldTokens newTokens)[i]⟩ := by
    have hneg : ¬ (i : ℤ) < 0 := by omega
    simp only [readAt, if_neg hneg, Int.toNat_natCast, List.getElem?_eq_getElem hi]
    rfl
  rw [hread]
  refine ⟨rfl, ?_⟩
  intro access hmem
  rw [List.mem_singleton.mp hmem]
  exact ⟨by simp, by simpa using hi⟩

theorem sizeAsInt_eq {tokens : List Token} (h : tokens.length ≤ 2 ^ 31 - 1) :
    sizeAsInt tokens = tokens.length := by
  unfold sizeAsInt
  exact Int.bmod_eq_of_le (by omega) (by omega)

/-- The search follows the one on natural numbers and stays in range. -/
theorem searchIndices_safely (hnew : newTokens.length ≤ 2 ^ 31 - 1) (afterStar : Token)
    (fuel rounds itNew : ℕ) (hle : itNew ≤ newTokens.length) (hrounds : fuel ≤ rounds)
    {found : Option ℕ} (h : searchAfterStar newTokens afterStar fuel itNew = some found) :
    Safely oldTokens newTokens (searchIndices newTokens afterStar rounds itNew)
      (Option.map (fun i : ℕ => (i : ℤ)) found) := by
  induction fuel generalizing rounds itNew with
  | zero => simp [searchAfterStar] at h
  | succ fuel ih =>
    cases rounds with
    | zero => omega
    | succ rounds =>
      unfold searchIndices
      simp only [sizeAsInt_eq hnew, Int.natCast_inj]
      by_cases hend : itNew = newTokens.length
      · have hfound : found = none := by simpa [searchAfterStar, hend, eq_comm] using h
        rw [if_pos hend, hfound]
        exact safely_pure none
      · have hlt : itNew < newTokens.length := by omega
        rw [if_neg hend]
        refine (safely_readAt .new hlt).bind ?_
        change Safely _ _ (if newTokens[itNew] = afterStar then _ else _) _
        by_cases htoken : newTokens[itNew] = afterStar
        · have hfound : found = some itNew := by
            simpa [searchAfterStar, hend, List.getElem?_eq_getElem hlt, htoken, eq_comm] using h
          rw [if_pos htoken, hfound]
          exact safely_pure _
        · have hnext : searchAfterStar newTokens afterStar fuel (itNew + 1) = some found := by
            simpa [searchAfterStar, hend, List.getElem?_eq_getElem hlt, htoken] using h
          rw [if_neg htoken]
          refine (safely_increment (i := itNew + 1) (by omega) (by omega)).bind ?_
          exact ih rounds (itNew + 1) (by omega) (by omega) hnext

/-- A search that finds something finds it inside the vector. -/
theorem searchAfterStar_lt {afterStar : Token} {itNew found : ℕ}
    (hle : itNew ≤ newTokens.length)
    (h : searchAfterStar newTokens afterStar (newTokens.length + 1) itNew = some (some found)) :
    found < newTokens.length := by
  rcases searchAfterStar_eq afterStar (newTokens.length + 1) itNew hle (by omega) with
    ⟨hnone, -⟩ | ⟨i, hlt, hsome, -⟩
  · simp [hnone] at h
  · rw [hsome, Option.some.injEq, Option.some.injEq] at h
    omega

/-- Behind a star that is not the last token, if going on from where the search ends
is safe. -/
theorem afterStar_safely (hnew : newTokens.length ≤ 2 ^ 31 - 1) {starStr plusStr : Token}
    {limit fuel rounds itOld itNew : ℕ} (hlimit : newTokens.length < limit) {b : Bool}
    (hafter : itOld + 1 < oldTokens.length) (hle : itNew ≤ newTokens.length)
    (hgo : ∀ found : ℕ, found < newTokens.length →
      compareLoop oldTokens newTokens starStr plusStr fuel (itOld + 2) (found + 1) = some b →
      Safely oldTokens newTokens (compareIndicesLoop oldTokens newTokens starStr plusStr limit
        rounds (itOld + 1 : ℕ) found) b)
    (h : (do
      match ← searchAfterStar newTokens oldTokens[itOld + 1] (newTokens.length + 1) itNew with
      | none => some false
      | some itNew =>
        compareLoop oldTokens newTokens starStr plusStr fuel (itOld + 2) (itNew + 1)) = some b) :
    Safely oldTokens newTokens (do
      let afterStar ← readAt .old oldTokens (itOld + 1 : ℕ)
      match ← searchIndices newTokens afterStar limit itNew with
      | none => pure false
      | some itNew =>
        compareIndicesLoop oldTokens newTokens starStr plusStr limit rounds (itOld + 1 : ℕ) itNew)
      b := by
  refine (safely_readAt .old hafter).bind ?_
  obtain ⟨found, hsearch, hfound⟩ := Option.bind_eq_some_iff.mp h
  refine (searchIndices_safely hnew _ (newTokens.length + 1) limit itNew hle hlimit hsearch).bind ?_
  cases found with
  | none =>
    rw [← Option.some.inj hfound]
    exact safely_pure false
  | some found => exact hgo found (searchAfterStar_lt hle hsearch) hfound

/-- The outer loop follows the one on natural numbers, whose indices are one
ahead, and stays in range. -/
theorem compareIndicesLoop_safely (hold : oldTokens.length ≤ 2 ^ 31 - 1)
    (hnew : newTokens.length ≤ 2 ^ 31 - 1) (starStr plusStr : Token) {limit : ℕ}
    (hlimit : newTokens.length < limit) (fuel rounds itOld itNew : ℕ)
    (hitOld : itOld ≤ oldTokens.length) (hitNew : itNew ≤ newTokens.length)
    (hrounds : fuel ≤ rounds) {zOld zNew : ℤ} (hzOld : zOld + 1 = itOld) (hzNew : zNew + 1 = itNew)
    {b : Bool} (h : compareLoop oldTokens newTokens starStr plusStr fuel itOld itNew = some b) :
    Safely oldTokens newTokens
      (compareIndicesLoop oldTokens newTokens starStr plusStr limit rounds zOld zNew) b := by
  induction fuel generalizing rounds itOld itNew zOld zNew with
  | zero => simp [compareLoop] at h
  | succ fuel ih =>
    cases rounds with
    | zero => omega
    | succ rounds =>
      unfold compareIndicesLoop
      refine (safely_increment hzOld (by omega)).bind ?_
      refine (safely_increment hzNew (by omega)).bind ?_
      simp only [sizeAsInt_eq hold, sizeAsInt_eq hnew, Int.natCast_inj]
      by_cases hend : itOld = oldTokens.length ∨ itNew = newTokens.length
      · have hb : b = decide (itOld = oldTokens.length ∧ itNew = newTokens.length) := by
          simpa [compareLoop, hend, eq_comm] using h
        rw [if_pos hend, hb]
        exact safely_pure _
      · have hlt : itOld < oldTokens.length := by omega
        have hlt' : itNew < newTokens.length := by omega
        rw [compareLoop, if_neg hend, List.getElem?_eq_getElem hlt] at h
        rw [if_neg hend]
        refine (safely_readAt .old hlt).bind ?_
        change Safely _ _ (if oldTokens[itOld] = starStr then _ else _) _
        change (if oldTokens[itOld] = starStr then _ else _) = _ at h
        by_cases hstar : oldTokens[itOld] = starStr
        · rw [if_pos hstar] at h ⊢
          refine (safely_increment (i := itOld + 1) (by omega) (by omega)).bind ?_
          simp only [Int.natCast_inj]
          by_cases hlast : itOld + 1 = oldTokens.length
          · rw [if_pos hlast] at h ⊢
            rw [← Option.some.inj h]
            exact safely_pure true
          · have hafter : itOld + 1 < oldTokens.length := by omega
            rw [if_neg hlast, List.getElem?_eq_getElem hafter] at h
            rw [if_neg hlast]
            refine afterStar_safely hnew hlimit hafter hitNew ?_ h
            intro found hfound hgo
            have hzFound : (found : ℤ) + 1 = (found + 1 : ℕ) := rfl
            exact ih rounds (itOld + 2) (found + 1) (by omega) (by omega) (by omega) (by omega)
              hzFound hgo
        · rw [if_neg hstar] at h ⊢
          refine (safely_readAt .old hlt).bind ?_
          change Safely _ _ (if oldTokens[itOld] = plusStr then _ else _) _
          by_cases hplus : oldTokens[itOld] = plusStr
          · rw [if_pos hplus] at h ⊢
            exact ih rounds (itOld + 1) (itNew + 1) (by omega) (by omega) (by omega)
              (by omega) (by omega) h
          · rw [if_neg hplus, List.getElem?_eq_getElem hlt'] at h
            rw [if_neg hplus]
            refine (safely_readAt .old hlt).bind ?_
            refine (safely_readAt .new hlt').bind ?_
            change Safely _ _ (if oldTokens[itOld] ≠ newTokens[itNew] then _ else _) _
            change (if oldTokens[itOld] ≠ newTokens[itNew] then _ else _) = _ at h
            by_cases hequal : oldTokens[itOld] ≠ newTokens[itNew]
            · rw [if_pos hequal] at h ⊢
              rw [← Option.some.inj h]
              exact safely_pure false
            · rw [if_neg hequal] at h ⊢
              exact ih rounds (itOld + 1) (itNew + 1) (by omega) (by omega) (by omega)
                (by omega) (by omega) h

/-- Vectors that an int can count are compared without an access out of range or an
overflow. Both loops are left within every limit above the two lengths, and the
result is that of the matcher on natural numbers. -/
theorem compareIndices_safe (oldTokens newTokens : List Token) (starStr plusStr : Token)
    (hold : oldTokens.length ≤ 2 ^ 31 - 1) (hnew : newTokens.length ≤ 2 ^ 31 - 1) (limit : ℕ)
    (hlimit : oldTokens.length < limit) (hlimit' : newTokens.length < limit) :
    ∃ b, compareTokenVectors oldTokens newTokens starStr plusStr = some b ∧
      (compareIndices oldTokens newTokens starStr plusStr limit).result = .ok b ∧
      ∀ access ∈ (compareIndices oldTokens newTokens starStr plusStr limit).effects,
        0 ≤ access.index ∧
          access.index ≤ (access.side.tokens oldTokens newTokens).length - 1 := by
  have hanswer := compareTokenVectors_eq oldTokens newTokens starStr plusStr
  have hstart : (-1 : ℤ) + 1 = (0 : ℕ) := rfl
  obtain ⟨hresult, hrange⟩ := compareIndicesLoop_safely hold hnew starStr plusStr hlimit'
    (oldTokens.length + 1) limit 0 0 (Nat.zero_le _) (Nat.zero_le _) (by omega) hstart hstart
    hanswer
  refine ⟨_, hanswer, hresult, ?_⟩
  intro access hmem
  obtain ⟨hlo, hhi⟩ := hrange access hmem
  exact ⟨hlo, by omega⟩

/-- A star before a literal that does not come, and empty vectors. -/
theorem compareIndices_safe_two :
    (compareIndices [ascii "+", ascii "*", ascii "a"] [ascii "a", ascii "b"] starStr plusStr
        4).result = .ok false ∧
      (compareIndices [] [] starStr plusStr 1).result = .ok true := by
  obtain ⟨b, hb, hresult, -⟩ := compareIndices_safe [ascii "+", ascii "*", ascii "a"]
    [ascii "a", ascii "b"] starStr plusStr (by decide) (by decide) 4 (by decide) (by decide)
  obtain ⟨b', hb', hresult', -⟩ := compareIndices_safe [] [] starStr plusStr (by decide)
    (by decide) 1 (by decide) (by decide)
  have hfalse : compareTokenVectors [ascii "+", ascii "*", ascii "a"] [ascii "a", ascii "b"]
      starStr plusStr = some false := by decide
  have htrue : compareTokenVectors [] [] starStr plusStr = some true := by decide
  rw [hb, Option.some.injEq] at hfalse
  rw [hb', Option.some.injEq] at htrue
  exact ⟨hfalse ▸ hresult, htrue ▸ hresult'⟩

end Safety

end ServerClientApp.MatcherIndices
