import ServerClientApp.Protocols
import ServerClientApp.StarMatching
import Mathlib.Data.List.AList

/-!
Topics, their levels, and the wildcard matcher of the server. The matcher is
embedded with its two indices and its nested loops; an access outside a vector
gives `none`. It is then shown to be the forward pass of StarMatching on the
suffixes at the two indices, and its soundness is inherited from there.
-/

namespace ServerClientApp.Wildcards

open Protocols StarMatching

abbrev Topic := Bytes
abbrev Token := Bytes

def slash : UInt8 := 47

/-- One getline with '/' as the delimiter: it fails on an exhausted stream, and
the delimiter is read but not kept. -/
def getlineSlash (stream : Bytes) : Option (Token × Bytes) :=
  if stream = [] then none
  else some (stream.takeWhile (· ≠ slash), (stream.dropWhile (· ≠ slash)).drop 1)

/-- Each getline takes at least one byte, so as many as there are bytes do. -/
def tokenizeLoop : ℕ → Bytes → List Token
  | 0, _ => []
  | fuel + 1, stream =>
    match getlineSlash stream with
    | none => []
    | some (token, rest) => token :: tokenizeLoop fuel rest

def tokenizeTopic (topic : Topic) : List Token := tokenizeLoop (topic.length + 1) topic

example : tokenizeTopic (ascii "upb//ec/") = [ascii "upb", [], ascii "ec"] := by decide

section Compare

variable (oldTokens newTokens : List Token)

/-- The loop after a star: the first index from it_new on whose token is the
one after the star, or that there is none. -/
def searchAfterStar (afterStar : Token) : ℕ → ℕ → Option (Option ℕ)
  | 0, _ => none
  | fuel + 1, itNew =>
    if itNew = newTokens.length then some none
    else do
      let token ← newTokens[itNew]?
      if token = afterStar then some (some itNew)
      else searchAfterStar afterStar fuel (itNew + 1)

/-- The outer loop from the point where both iterators have been incremented. -/
def compareLoop (starStr plusStr : Token) : ℕ → ℕ → ℕ → Option Bool
  | 0, _, _ => none
  | fuel + 1, itOld, itNew =>
    if itOld = oldTokens.length ∨ itNew = newTokens.length then
      some (decide (itOld = oldTokens.length ∧ itNew = newTokens.length))
    else do
      let old ← oldTokens[itOld]?
      if old = starStr then
        if itOld + 1 = oldTokens.length then some true
        else do
          let afterStar ← oldTokens[itOld + 1]?
          match ← searchAfterStar newTokens afterStar (newTokens.length + 1) itNew with
          | none => some false
          | some itNew => compareLoop starStr plusStr fuel (itOld + 2) (itNew + 1)
      else if old = plusStr then compareLoop starStr plusStr fuel (itOld + 1) (itNew + 1)
      else do
        let new ← newTokens[itNew]?
        if old ≠ new then some false
        else compareLoop starStr plusStr fuel (itOld + 1) (itNew + 1)

def compareTokenVectors (starStr plusStr : Token) : Option Bool :=
  compareLoop oldTokens newTokens starStr plusStr (oldTokens.length + 1) 0 0

variable {oldTokens newTokens}

/-- The search ends at the place where the suffix of the new tokens has the
first occurrence, whatever the fuel left over. -/
theorem searchAfterStar_eq (afterStar : Token) (fuel itNew : ℕ)
    (hle : itNew ≤ newTokens.length) (hfuel : newTokens.length < itNew + fuel) :
    (searchAfterStar newTokens afterStar fuel itNew = some none ∧
        dropPast afterStar (newTokens.drop itNew) = none) ∨
      ∃ found, found < newTokens.length ∧
        searchAfterStar newTokens afterStar fuel itNew = some (some found) ∧
        dropPast afterStar (newTokens.drop itNew) = some (newTokens.drop (found + 1)) := by
  induction fuel generalizing itNew with
  | zero => omega
  | succ fuel ih =>
    by_cases hend : itNew = newTokens.length
    · left
      simp [searchAfterStar, hend, dropPast]
    · have hlt : itNew < newTokens.length := by omega
      rw [List.drop_eq_getElem_cons hlt]
      by_cases htoken : newTokens[itNew] = afterStar
      · right
        refine ⟨itNew, hlt, ?_, ?_⟩
        · simp [searchAfterStar, hend, List.getElem?_eq_getElem hlt, htoken]
        · simp [dropPast, htoken]
      · have hstep : searchAfterStar newTokens afterStar (fuel + 1) itNew =
            searchAfterStar newTokens afterStar fuel (itNew + 1) := by
          simp [searchAfterStar, hend, List.getElem?_eq_getElem hlt, htoken]
        have hdrop : dropPast afterStar (newTokens[itNew] :: newTokens.drop (itNew + 1)) =
            dropPast afterStar (newTokens.drop (itNew + 1)) := by
          simp [dropPast, htoken]
        rw [hstep, hdrop]
        exact ih (itNew + 1) hlt (by omega)

/-- The outer loop is the forward pass on the suffixes at its two indices. -/
theorem compareLoop_eq (starStr plusStr : Token) (fuel itOld itNew : ℕ)
    (hold : itOld ≤ oldTokens.length) (hnew : itNew ≤ newTokens.length)
    (hfuel : oldTokens.length < itOld + fuel) :
    compareLoop oldTokens newTokens starStr plusStr fuel itOld itNew =
      some (matchTokens starStr plusStr (oldTokens.drop itOld) (newTokens.drop itNew)) := by
  induction fuel generalizing itOld itNew with
  | zero => omega
  | succ fuel ih =>
    by_cases hendOld : itOld = oldTokens.length
    · subst hendOld
      simp only [compareLoop, true_or, if_true, true_and, List.drop_length, matchTokens_nil,
        Option.some.injEq]
      rw [Bool.eq_iff_iff, decide_eq_true_iff, List.isEmpty_iff, List.drop_eq_nil_iff]
      omega
    · have hlt : itOld < oldTokens.length := by omega
      rw [List.drop_eq_getElem_cons hlt]
      by_cases hendNew : itNew = newTokens.length
      · subst hendNew
        rw [List.drop_length, matchTokens_exhausted]
        simp [compareLoop, hendOld]
      · have hlt' : itNew < newTokens.length := by omega
        rw [List.drop_eq_getElem_cons hlt']
        by_cases hstar : oldTokens[itOld] = starStr
        · rw [hstar]
          by_cases hlast : itOld + 1 = oldTokens.length
          · rw [hlast, List.drop_length, matchTokens_last_star]
            simp [compareLoop, hendOld, hendNew, List.getElem?_eq_getElem hlt, hstar, hlast]
          · have hafter : itOld + 1 < oldTokens.length := by omega
            rw [List.drop_eq_getElem_cons hafter, matchTokens_star,
              ← List.drop_eq_getElem_cons hlt']
            obtain ⟨hsearch, hdrop⟩ | ⟨found, hfound, hsearch, hdrop⟩ :=
              searchAfterStar_eq oldTokens[itOld + 1] (newTokens.length + 1) itNew hnew
                (by omega)
            · simp [compareLoop, hendOld, hendNew, List.getElem?_eq_getElem hlt, hstar, hlast,
                List.getElem?_eq_getElem hafter, hsearch, hdrop]
            · simp [compareLoop, hendOld, hendNew, List.getElem?_eq_getElem hlt, hstar, hlast,
                List.getElem?_eq_getElem hafter, hsearch, hdrop,
                ih (itOld + 2) (found + 1) (by omega) (by omega) (by omega)]
        · by_cases hplus : oldTokens[itOld] = plusStr
          · have hne : plusStr ≠ starStr := hplus ▸ hstar
            rw [hplus, matchTokens_plus starStr plusStr hne]
            simp [compareLoop, hendOld, hendNew, List.getElem?_eq_getElem hlt, hplus, hne,
              ih (itOld + 1) (itNew + 1) (by omega) (by omega) (by omega)]
          · rw [matchTokens_literal starStr plusStr hstar hplus]
            by_cases hequal : oldTokens[itOld] = newTokens[itNew]
            · rw [hequal] at hstar hplus
              simp [compareLoop, hendOld, hendNew, List.getElem?_eq_getElem hlt, hstar, hplus,
                List.getElem?_eq_getElem hlt', hequal,
                ih (itOld + 1) (itNew + 1) (by omega) (by omega) (by omega)]
            · simp [compareLoop, hendOld, hendNew, List.getElem?_eq_getElem hlt, hstar, hplus,
                List.getElem?_eq_getElem hlt', hequal]

/-- The matcher always answers, and as the forward pass over both vectors does. -/
theorem compareTokenVectors_eq (oldTokens newTokens : List Token) (starStr plusStr : Token) :
    compareTokenVectors oldTokens newTokens starStr plusStr =
      some (matchTokens starStr plusStr oldTokens newTokens) := by
  unfold compareTokenVectors
  rw [compareLoop_eq starStr plusStr _ 0 0 (Nat.zero_le _) (Nat.zero_le _) (by omega),
    List.drop_zero, List.drop_zero]

end Compare

section Subscriptions

def starStr : Token := ascii "*"
def plusStr : Token := ascii "+"

abbrev Subscriptions := AList fun _ : Topic => List Token

def checkWildcardTopic (topic : Topic) (subscrTopics : Subscriptions) : Bool :=
  let newTokens := tokenizeTopic topic
  subscrTopics.entries.any fun entry =>
    compareTokenVectors entry.2 newTokens starStr plusStr == some true

/-- The levels a token may stand for: '+' for one, '*' for any number, any
other token for itself. -/
abbrev Levels : Token → List Token → Prop := Fits starStr plusStr

theorem checkWildcardTopic_sound {topic : Topic} {subscrTopics : Subscriptions}
    (h : checkWildcardTopic topic subscrTopics = true) :
    ∃ key tokens, subscrTopics.lookup key = some tokens ∧
      Cut Levels tokens (tokenizeTopic topic) := by
  obtain ⟨⟨key, tokens⟩, hmem, hmatch⟩ := List.any_eq_true.mp h
  rw [compareTokenVectors_eq, beq_iff_eq, Option.some.injEq] at hmatch
  exact ⟨key, tokens, AList.mem_lookup_iff.mpr hmem, matchTokens_sound starStr plusStr _ _ hmatch⟩

end Subscriptions

end ServerClientApp.Wildcards
