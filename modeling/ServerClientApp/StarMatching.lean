import Mathlib.Data.List.Basic
import Mathlib.Tactic.Common

/-!
Matching a list against a pattern of literals, a token for exactly one item
and a token for any number of items. The matcher makes one forward pass: after
a star it commits to the first occurrence of the token that follows. Items and
the two special tokens are arbitrary.
-/

namespace ServerClientApp.StarMatching

variable {α : Type*}

/-- The list is cut into consecutive pieces, one for each pattern token. -/
inductive Cut (fits : α → List α → Prop) : List α → List α → Prop
  | nil : Cut fits [] []
  | cons {token : α} {tokens piece items : List α} :
      fits token piece → Cut fits tokens items → Cut fits (token :: tokens) (piece ++ items)

theorem cut_cons {fits : α → List α → Prop} {token : α} {tokens items : List α} :
    Cut fits (token :: tokens) items ↔
      ∃ piece rest, items = piece ++ rest ∧ fits token piece ∧ Cut fits tokens rest := by
  constructor
  · intro h
    cases h with
    | cons hpiece hrest => exact ⟨_, _, rfl, hpiece, hrest⟩
  · intro hgiven
    obtain ⟨piece, rest, rfl, hpiece, hrest⟩ := hgiven
    exact Cut.cons hpiece hrest

variable [DecidableEq α] (star plus : α)

def Fits (token : α) (piece : List α) : Prop :=
  if token = star then True else if token = plus then piece.length = 1 else piece = [token]

theorem fits_self (token : α) : Fits star plus token [token] := by
  unfold Fits
  split
  · trivial
  · split <;> rfl

/-- What follows the first occurrence of an item. -/
def dropPast (item : α) : List α → Option (List α)
  | [] => none
  | head :: items => if head = item then some items else dropPast item items

theorem dropPast_split {item : α} {items rest : List α} (h : dropPast item items = some rest) :
    ∃ skipped, item ∉ skipped ∧ items = skipped ++ item :: rest := by
  induction items with
  | nil => simp [dropPast] at h
  | cons head items ih =>
    by_cases hhead : head = item
    · simp only [dropPast, hhead, if_true, Option.some.injEq] at h
      exact ⟨[], List.not_mem_nil, by rw [hhead, h, List.nil_append]⟩
    · simp only [dropPast, hhead, if_false] at h
      obtain ⟨skipped, hnot, rfl⟩ := ih h
      refine ⟨head :: skipped, ?_, rfl⟩
      simp only [List.mem_cons, not_or]
      exact ⟨fun heq => hhead heq.symm, hnot⟩

def matchTokens : List α → List α → Bool
  | [], items => items.isEmpty
  | _ :: _, [] => false
  | token :: tokens, item :: items =>
    if token = star then
      match tokens with
      | [] => true
      | after :: tokens =>
        match dropPast after (item :: items) with
        | none => false
        | some rest => matchTokens tokens rest
    else if token = plus then matchTokens tokens items
    else decide (token = item) && matchTokens tokens items

theorem matchTokens_nil (items : List α) : matchTokens star plus [] items = items.isEmpty := by
  simp [matchTokens]

theorem matchTokens_exhausted (token : α) (tokens : List α) :
    matchTokens star plus (token :: tokens) [] = false := by
  simp [matchTokens]

theorem matchTokens_last_star (item : α) (items : List α) :
    matchTokens star plus [star] (item :: items) = true := by
  simp [matchTokens]

theorem matchTokens_star (after : α) (tokens : List α) (item : α) (items : List α) :
    matchTokens star plus (star :: after :: tokens) (item :: items) =
      match dropPast after (item :: items) with
      | none => false
      | some rest => matchTokens star plus tokens rest := by
  simp [matchTokens]

theorem matchTokens_plus (hne : plus ≠ star) (tokens : List α) (item : α) (items : List α) :
    matchTokens star plus (plus :: tokens) (item :: items) =
      matchTokens star plus tokens items := by
  cases tokens <;> simp [matchTokens, hne]

theorem matchTokens_literal {token : α} (hstar : token ≠ star) (hplus : token ≠ plus)
    (tokens : List α) (item : α) (items : List α) :
    matchTokens star plus (token :: tokens) (item :: items) =
      (decide (token = item) && matchTokens star plus tokens items) := by
  cases tokens <;> simp [matchTokens, hstar, hplus]

/-- A list the matcher accepts can be cut along the pattern. -/
theorem matchTokens_sound (tokens items : List α) (h : matchTokens star plus tokens items = true) :
    Cut (Fits star plus) tokens items := by
  induction tokens, items using matchTokens.induct star plus with
  | case1 items =>
    rw [matchTokens_nil, List.isEmpty_iff] at h
    subst h
    exact Cut.nil
  | case2 token tokens => simp [matchTokens_exhausted] at h
  | case3 item items =>
    have hstar : Fits star plus star (item :: items) := by simp [Fits]
    simpa only [List.append_nil] using Cut.cons hstar Cut.nil
  | case4 item items after tokens hdrop => simp [matchTokens_star, hdrop] at h
  | case5 item items after tokens rest hdrop ih =>
    simp only [matchTokens_star, hdrop] at h
    obtain ⟨skipped, -, hsplit⟩ := dropPast_split hdrop
    have hstar : Fits star plus star skipped := by simp [Fits]
    rw [hsplit]
    exact Cut.cons hstar (Cut.cons (fits_self star plus after) (ih h))
  | case6 tokens item items hne ih =>
    rw [matchTokens_plus star plus hne] at h
    have hplus : Fits star plus plus [item] := by simp [Fits, hne]
    exact Cut.cons hplus (ih h)
  | case7 token tokens item items hstar hplus ih =>
    rw [matchTokens_literal star plus hstar hplus, Bool.and_eq_true, decide_eq_true_eq] at h
    obtain ⟨rfl, hrest⟩ := h
    exact Cut.cons (fits_self star plus token) (ih hrest)

end ServerClientApp.StarMatching
