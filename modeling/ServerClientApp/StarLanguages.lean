import ServerClientApp.StarMatching
import Mathlib.Data.Fintype.EquivFin

/-!
The languages of patterns with stars and pluses, and how much of them the forward
pass accepts. If a star takes one or more items, the pass accepts the whole language
of a pattern exactly if the pattern never lets an early commitment hurt. If a star
takes any number of items, it accepts exactly the language where what follows a star
cannot be mistaken.
-/

namespace ServerClientApp.StarLanguages

open StarMatching

variable {α : Type*} [DecidableEq α] (star plus : α)

/-- A pattern without the two special tokens stands for itself alone. -/
theorem matchTokens_ordinary {tokens : List α} (hstar : star ∉ tokens) (hplus : plus ∉ tokens)
    (items : List α) : matchTokens star plus tokens items = true ↔ tokens = items := by
  induction tokens generalizing items with
  | nil => rw [matchTokens_nil, List.isEmpty_iff, eq_comm]
  | cons token tokens ih =>
    rw [List.mem_cons, not_or] at hstar hplus
    cases items with
    | nil => simp [matchTokens_exhausted]
    | cons item items =>
      rw [matchTokens_literal star plus (Ne.symm hstar.1) (Ne.symm hplus.1), Bool.and_eq_true,
        decide_eq_true_eq, ih hstar.2 hplus.2, List.cons.injEq]

section Complete

def Spans (token : α) (piece : List α) : Prop :=
  if token = star then piece ≠ [] else if token = plus then piece.length = 1 else piece = [token]

theorem spans_star {piece : List α} : Spans star plus star piece ↔ piece ≠ [] := by
  simp [Spans]

theorem spans_plus (hne : plus ≠ star) {piece : List α} :
    Spans star plus plus piece ↔ ∃ item, piece = [item] := by
  simp [Spans, hne, List.length_eq_one_iff]

theorem spans_literal {token : α} (hstar : token ≠ star) (hplus : token ≠ plus) {piece : List α} :
    Spans star plus token piece ↔ piece = [token] := by
  simp [Spans, hstar, hplus]

/-- Where in a pattern: before any star, right behind one, or behind the literal
that follows one. -/
inductive Place where
  | start
  | afterStar
  | gap
  deriving DecidableEq, Repr

/-- The patterns the forward pass misses no list of: each star is the last token,
or one literal follows it and then only pluses up to the next star. -/
def forgiving : Place → List α → Bool
  | .start, [] => true
  | .start, token :: tokens =>
    if token = star then forgiving .afterStar tokens else forgiving .start tokens
  | .afterStar, [] => true
  | .afterStar, token :: tokens => token ≠ star && token ≠ plus && forgiving .gap tokens
  | .gap, [] => false
  | .gap, token :: tokens =>
    if token = star then forgiving .afterStar tokens
    else token = plus && forgiving .gap tokens

variable {star plus}

/-- The first occurrence is not behind any given one. -/
theorem dropPast_append (item : α) (skipped rest : List α) :
    ∃ found, dropPast item (skipped ++ item :: rest) = some found ∧ rest <:+ found := by
  induction skipped with
  | nil => exact ⟨rest, by simp [dropPast], List.suffix_refl rest⟩
  | cons head skipped ih =>
    by_cases hhead : head = item
    · refine ⟨skipped ++ item :: rest, by simp [dropPast, hhead], ?_⟩
      exact (List.suffix_cons item rest).trans (List.suffix_append skipped _)
    · obtain ⟨found, hfound, hsuffix⟩ := ih
      exact ⟨found, by simp [dropPast, hhead, hfound], hsuffix⟩

/-- An item that does not occur before is dropped where it stands. -/
theorem dropPast_of_notMem {item : α} {skipped : List α} (rest : List α) (h : item ∉ skipped) :
    dropPast item (skipped ++ item :: rest) = some rest := by
  induction skipped with
  | nil => simp [dropPast]
  | cons head skipped ih =>
    rw [List.mem_cons, not_or] at h
    have hhead : head ≠ item := fun heq => h.1 heq.symm
    simpa [dropPast, hhead] using ih h.2

theorem dropPast_of_absent {item : α} {items : List α} (h : item ∉ items) :
    dropPast item items = none := by
  cases hdrop : dropPast item items with
  | none => rfl
  | some rest =>
    obtain ⟨skipped, -, rfl⟩ := dropPast_split hdrop
    exact absurd (List.mem_append_right skipped List.mem_cons_self) h

/-- Behind a star the pass accepts every list that ends in one of the language:
it never stops later than the list it is compared with. -/
theorem forgiving_accepts (hne : plus ≠ star) (tokens : List α) :
    (forgiving star plus .afterStar tokens = true → ∀ items given,
      Cut (Spans star plus) (star :: tokens) given → given <:+ items →
        matchTokens star plus (star :: tokens) items = true) ∧
    (forgiving star plus .gap tokens = true → ∀ items given,
      Cut (Spans star plus) tokens given → given <:+ items →
        matchTokens star plus tokens items = true) := by
  induction tokens with
  | nil =>
    constructor
    · intro _ items given hcut hsuffix
      obtain ⟨piece, rest, rfl, hpiece, -⟩ := cut_cons.mp hcut
      obtain ⟨before, rfl⟩ := hsuffix
      cases hitems : before ++ (piece ++ rest) with
      | nil => simp [(spans_star star plus).mp hpiece] at hitems
      | cons item items => exact matchTokens_last_star star plus item items
    · intro hgap
      simp [forgiving] at hgap
  | cons token tokens ih =>
    obtain ⟨ihStar, ihGap⟩ := ih
    constructor
    · intro hforgiving items given hcut hsuffix
      simp only [forgiving, Bool.and_eq_true, decide_eq_true_eq] at hforgiving
      obtain ⟨⟨hstar, hplus⟩, hgap⟩ := hforgiving
      obtain ⟨piece, _, rfl, -, htail⟩ := cut_cons.mp hcut
      obtain ⟨_, rest, rfl, hliteral, hrest⟩ := cut_cons.mp htail
      rw [spans_literal star plus hstar hplus] at hliteral
      subst hliteral
      obtain ⟨before, rfl⟩ := hsuffix
      -- The literal stands somewhere, so the search finds it there or earlier.
      obtain ⟨found, hdrop, hfound⟩ := dropPast_append token (before ++ piece) rest
      have hitems : before ++ (piece ++ ([token] ++ rest)) =
          before ++ piece ++ token :: rest := by simp
      rw [hitems]
      cases hcons : before ++ piece ++ token :: rest with
      | nil => simp at hcons
      | cons item items =>
        rw [matchTokens_star, ← hcons, hdrop]
        exact ihGap hgap found rest hrest hfound
    · intro hforgiving items given hcut hsuffix
      by_cases hstar : token = star
      · subst hstar
        simp only [forgiving, if_true] at hforgiving
        exact ihStar hforgiving items given hcut hsuffix
      · simp only [forgiving, hstar, if_false, Bool.and_eq_true, decide_eq_true_eq] at hforgiving
        obtain ⟨rfl, hgap⟩ := hforgiving
        obtain ⟨_, rest, rfl, hplus, hrest⟩ := cut_cons.mp hcut
        obtain ⟨level, rfl⟩ := (spans_plus star token hne).mp hplus
        obtain ⟨before, rfl⟩ := hsuffix
        cases before with
        | nil =>
          rw [List.nil_append, List.singleton_append, matchTokens_plus star token hne]
          exact ihGap hgap rest rest hrest (List.suffix_refl rest)
        | cons first before =>
          rw [List.cons_append, matchTokens_plus star token hne]
          refine ihGap hgap _ rest hrest ?_
          exact (List.suffix_append [level] rest).trans (List.suffix_append before _)

/-- In a forgiving pattern the forward pass accepts its whole language. -/
theorem matchTokens_complete (hne : plus ≠ star) {tokens items : List α}
    (hforgiving : forgiving star plus .start tokens = true)
    (hcut : Cut (Spans star plus) tokens items) : matchTokens star plus tokens items = true := by
  induction tokens generalizing items with
  | nil =>
    cases hcut
    rw [matchTokens_nil, List.isEmpty_nil]
  | cons token tokens ih =>
    by_cases hstar : token = star
    · subst hstar
      simp only [forgiving, if_true] at hforgiving
      exact (forgiving_accepts hne tokens).1 hforgiving items items hcut (List.suffix_refl items)
    · simp only [forgiving, hstar, if_false] at hforgiving
      obtain ⟨piece, rest, rfl, hpiece, hrest⟩ := cut_cons.mp hcut
      by_cases hplus : token = plus
      · subst hplus
        obtain ⟨item, rfl⟩ := (spans_plus star token hne).mp hpiece
        rw [List.singleton_append, matchTokens_plus star token hne]
        exact ih hforgiving hrest
      · rw [spans_literal star plus hstar hplus] at hpiece
        subst hpiece
        rw [List.singleton_append, matchTokens_literal star plus hstar hplus, Bool.and_eq_true]
        exact ⟨decide_eq_true rfl, ih hforgiving hrest⟩

/-- A list of the language that holds one chosen item at every wildcard. -/
def sample (star plus filler : α) (tokens : List α) : List α :=
  tokens.map fun token => if token = star ∨ token = plus then filler else token

theorem cut_sample (hne : plus ≠ star) (filler : α) (tokens : List α) :
    Cut (Spans star plus) tokens (sample star plus filler tokens) := by
  induction tokens with
  | nil => exact Cut.nil
  | cons token tokens ih =>
    have hpiece : Spans star plus token
        [if token = star ∨ token = plus then filler else token] := by
      by_cases hstar : token = star
      · subst hstar
        exact (spans_star token plus).mpr (List.cons_ne_nil _ _)
      · by_cases hplus : token = plus
        · subst hplus
          exact (spans_plus star token hne).mpr ⟨_, rfl⟩
        · simp [spans_literal star plus hstar hplus, hstar, hplus]
    exact Cut.cons hpiece ih

/-- With an ordinary item for the wildcards the list holds neither of the two
special tokens. -/
theorem sample_ordinary {filler : α} (hstar : filler ≠ star) (hplus : filler ≠ plus)
    (tokens : List α) :
    star ∉ sample star plus filler tokens ∧ plus ∉ sample star plus filler tokens := by
  constructor
  all_goals
    intro hmem
    obtain ⟨token, -, htoken⟩ := List.mem_map.mp hmem
    split at htoken
    · rename_i hspecial
      simp_all
    · rename_i hordinary
      simp_all

theorem cut_star {piece tokens items : List α} (hpiece : piece ≠ [])
    (h : Cut (Spans star plus) tokens items) :
    Cut (Spans star plus) (star :: tokens) (piece ++ items) :=
  Cut.cons ((spans_star star plus).mpr hpiece) h

theorem cut_plus (hne : plus ≠ star) (item : α) {tokens items : List α}
    (h : Cut (Spans star plus) tokens items) :
    Cut (Spans star plus) (plus :: tokens) (item :: items) :=
  Cut.cons ((spans_plus star plus hne).mpr ⟨item, rfl⟩) h

theorem cut_literal {token : α} (hstar : token ≠ star) (hplus : token ≠ plus)
    {tokens items : List α} (h : Cut (Spans star plus) tokens items) :
    Cut (Spans star plus) (token :: tokens) (token :: items) :=
  Cut.cons ((spans_literal star plus hstar hplus).mpr rfl) h

def Missed (star plus : α) (tokens : List α) : Prop :=
  ∃ given, Cut (Spans star plus) tokens given ∧ matchTokens star plus tokens given = false

/-- The pass rejects a list of the language that it starts to compare too early: the
item and k more stand in front of the list, and of all that stands there it has passed
only k. -/
def MissedBehind (star plus item : α) (k : ℕ) (tokens : List α) : Prop :=
  ∃ before skipped given, skipped.length = k ∧ Cut (Spans star plus) tokens given ∧
    matchTokens star plus tokens ((before ++ item :: (skipped ++ given)).drop k) = false

theorem Missed.cons_plus (hne : plus ≠ star) (item : α) {tokens : List α} (h : Missed star plus tokens) :
    Missed star plus (plus :: tokens) := by
  obtain ⟨given, hcut, hreject⟩ := h
  refine ⟨item :: given, cut_plus hne item hcut, ?_⟩
  rw [matchTokens_plus star plus hne]
  exact hreject

theorem Missed.cons_literal {token : α} (hstar : token ≠ star) (hplus : token ≠ plus) {tokens : List α}
    (h : Missed star plus tokens) : Missed star plus (token :: tokens) := by
  obtain ⟨given, hcut, hreject⟩ := h
  refine ⟨token :: given, cut_literal hstar hplus hcut, ?_⟩
  rw [matchTokens_literal star plus hstar hplus, hreject, Bool.and_false]

/-- A star followed by a special token is taken to search for that token itself. -/
theorem missed_star_special (hne : plus ≠ star) {after filler : α}
    (hafter : after = star ∨ after = plus) (hstar : filler ≠ star) (hplus : filler ≠ plus)
    (tokens : List α) : Missed star plus (star :: after :: tokens) := by
  refine ⟨sample star plus filler (star :: after :: tokens), cut_sample hne filler _, ?_⟩
  have habsent : after ∉ sample star plus filler (star :: after :: tokens) := by
    have hordinary := sample_ordinary hstar hplus (star :: after :: tokens)
    rcases hafter with rfl | rfl
    · exact hordinary.1
    · exact hordinary.2
  have hdrop := dropPast_of_absent habsent
  simp only [sample, List.map_cons] at hdrop ⊢
  rw [matchTokens_star, hdrop]

/-- The search finds the literal behind the star where the cut has it, as the star can
hold an item that differs from it. -/
theorem Missed.star_literal {token filler : α} (hstar : token ≠ star) (hplus : token ≠ plus)
    (hfiller : filler ≠ token) {tokens : List α} (h : Missed star plus tokens) :
    Missed star plus (star :: token :: tokens) := by
  obtain ⟨given, hcut, hreject⟩ := h
  refine ⟨[filler] ++ token :: given,
    cut_star (List.cons_ne_nil _ _) (cut_literal hstar hplus hcut), ?_⟩
  have habsent : token ∉ [filler] := by
    intro hmem
    exact hfiller (List.mem_singleton.mp hmem).symm
  have hdrop := dropPast_of_notMem given habsent
  rw [List.singleton_append] at hdrop ⊢
  rw [matchTokens_star, hdrop]
  exact hreject

/-- The search stops too early, at a literal the star holds. -/
theorem MissedBehind.star_literal {token : α} (hstar : token ≠ star) (hplus : token ≠ plus)
    {tokens : List α} (h : MissedBehind star plus token 0 tokens) :
    Missed star plus (star :: token :: tokens) := by
  obtain ⟨before, skipped, given, hskipped, hcut, hreject⟩ := h
  rw [List.length_eq_zero_iff] at hskipped
  subst hskipped
  refine ⟨(token :: before) ++ token :: given,
    cut_star (List.cons_ne_nil _ _) (cut_literal hstar hplus hcut), ?_⟩
  have hdrop : dropPast token (token :: (before ++ token :: given)) =
      some (before ++ token :: given) := by simp [dropPast]
  rw [List.cons_append, matchTokens_star, hdrop]
  simpa using hreject

/-- At the end of the pattern there is an item too many. -/
theorem missedBehind_nil (star plus item : α) (k : ℕ) : MissedBehind star plus item k [] := by
  refine ⟨[], List.replicate k item, [], List.length_replicate, Cut.nil, ?_⟩
  have hlength : ((item :: List.replicate k item).drop k).length = 1 := by simp
  obtain ⟨last, hlast⟩ := List.length_eq_one_iff.mp hlength
  rw [List.nil_append, List.append_nil, hlast, matchTokens_nil]
  rfl

/-- A plus takes the first of the items in front. -/
theorem MissedBehind.cons_plus (hne : plus ≠ star) {item : α} {k : ℕ} {tokens : List α}
    (h : MissedBehind star plus item (k + 1) tokens) :
    MissedBehind star plus item k (plus :: tokens) := by
  obtain ⟨before, skipped, given, hskipped, hcut, hreject⟩ := h
  have hskippedNe : skipped ≠ [] := List.ne_nil_of_length_eq_add_one hskipped
  obtain ⟨shorter, level, rfl⟩ := (List.eq_nil_or_concat' skipped).resolve_left hskippedNe
  rw [List.length_append, List.length_singleton] at hskipped
  have hlist : before ++ item :: (shorter ++ [level] ++ given) =
      before ++ item :: (shorter ++ level :: given) := by simp
  rw [hlist] at hreject
  have hlt : k < (before ++ item :: (shorter ++ level :: given)).length := by
    simp only [List.length_append, List.length_cons]
    omega
  refine ⟨before, shorter, level :: given, by omega, cut_plus hne level hcut, ?_⟩
  rw [List.drop_eq_getElem_cons hlt, matchTokens_plus star plus hne]
  exact hreject

/-- A literal is compared with the filler in front of the item. -/
theorem missedBehind_literal (hne : plus ≠ star) {token filler : α} (hstar : token ≠ star)
    (hplus : token ≠ plus) (hfiller : filler ≠ token) (item : α) (k : ℕ) (tokens : List α) :
    MissedBehind star plus item k (token :: tokens) := by
  refine ⟨List.replicate (k + 1) filler, List.replicate k item, _, List.length_replicate,
    cut_sample hne filler (token :: tokens), ?_⟩
  have hle : k ≤ (List.replicate (k + 1) filler).length := by simp
  rw [List.drop_append_of_le_length hle, List.drop_replicate, Nat.add_sub_cancel_left,
    List.replicate_one, List.singleton_append, matchTokens_literal star plus hstar hplus,
    decide_eq_false hfiller.symm, Bool.false_and]

theorem exists_fresh [Infinite α] (avoid : List α) : ∃ item, item ∉ avoid := by
  obtain ⟨item, hitem⟩ := Infinite.exists_notMem_finset avoid.toFinset
  exact ⟨item, fun hmem => hitem (List.mem_toFinset.mpr hmem)⟩

/-- A pattern that is not forgiving has a list in its language that the pass
rejects. Behind the literal after a star the list is rejected by itself, or it is
once the search has stopped at an earlier occurrence of that literal. -/
theorem unforgiving_missed [Infinite α] (hne : plus ≠ star) (tokens : List α) :
    (forgiving star plus .afterStar tokens = false → Missed star plus (star :: tokens)) ∧
    (forgiving star plus .gap tokens = false → ∀ (k : ℕ) (item : α),
      Missed star plus tokens ∨ MissedBehind star plus item k tokens) := by
  induction tokens with
  | nil =>
    refine ⟨fun hforgiving => by simp [forgiving] at hforgiving, ?_⟩
    intro _ k item
    exact Or.inr (missedBehind_nil star plus item k)
  | cons token tokens ih =>
    obtain ⟨ihStar, ihGap⟩ := ih
    obtain ⟨filler, hfiller⟩ := exists_fresh [star, plus, token]
    simp only [List.mem_cons, List.not_mem_nil, or_false, not_or] at hfiller
    obtain ⟨hfillerStar, hfillerPlus, hfillerToken⟩ := hfiller
    constructor
    · intro hforgiving
      by_cases hspecial : token = star ∨ token = plus
      · exact missed_star_special hne hspecial hfillerStar hfillerPlus tokens
      · rw [not_or] at hspecial
        obtain ⟨hstar, hplus⟩ := hspecial
        simp only [forgiving, ne_eq, hstar, not_false_eq_true, decide_true, hplus, Bool.true_and]
          at hforgiving
        rcases ihGap hforgiving 0 token with hmissed | hbehind
        · exact hmissed.star_literal hstar hplus hfillerToken
        · exact hbehind.star_literal hstar hplus
    · intro hforgiving k item
      by_cases hstar : token = star
      · subst hstar
        simp only [forgiving, if_true] at hforgiving
        exact Or.inl (ihStar hforgiving)
      · by_cases hplus : token = plus
        · subst hplus
          simp only [forgiving, hstar, if_false, decide_true, Bool.true_and] at hforgiving
          rcases ihGap hforgiving (k + 1) item with hmissed | hbehind
          · exact Or.inl (hmissed.cons_plus hne item)
          · exact Or.inr (hbehind.cons_plus hne)
        · exact Or.inr (missedBehind_literal hne hstar hplus hfillerToken item k tokens)

theorem missed_of_unforgiving [Infinite α] (hne : plus ≠ star) (tokens : List α)
    (hforgiving : forgiving star plus .start tokens = false) : Missed star plus tokens := by
  induction tokens with
  | nil => simp [forgiving] at hforgiving
  | cons token tokens ih =>
    by_cases hstar : token = star
    · subst hstar
      simp only [forgiving, if_true] at hforgiving
      exact (unforgiving_missed hne tokens).1 hforgiving
    · simp only [forgiving, hstar, if_false] at hforgiving
      by_cases hplus : token = plus
      · subst hplus
        exact (ih hforgiving).cons_plus hne star
      · exact (ih hforgiving).cons_literal hstar hplus

/-- The forward pass accepts the whole language of a pattern exactly if the pattern
is forgiving. -/
theorem accepts_language_iff [Infinite α] (hne : plus ≠ star) (tokens : List α) :
    (∀ items, Cut (Spans star plus) tokens items → matchTokens star plus tokens items = true) ↔
      forgiving star plus .start tokens = true := by
  constructor
  · intro hall
    by_contra hforgiving
    rw [Bool.not_eq_true] at hforgiving
    obtain ⟨given, hcut, hreject⟩ := missed_of_unforgiving hne tokens hforgiving
    simp [hall given hcut] at hreject
  · intro hforgiving items hcut
    exact matchTokens_complete hne hforgiving hcut

end Complete

section Exact

/-- The list can be cut along the pattern: a star takes any number of items, but
at least one if it is the last token. -/
inductive Aligned : List α → List α → Prop
  | nil : Aligned [] []
  | lastStar {items : List α} : items ≠ [] → Aligned [star] items
  | star {token : α} {tokens items : List α} (piece : List α) :
      Aligned (token :: tokens) items → Aligned (star :: token :: tokens) (piece ++ items)
  | plus {tokens items : List α} (item : α) :
      Aligned tokens items → Aligned (plus :: tokens) (item :: items)
  | literal {token : α} {tokens items : List α} : token ≠ star → token ≠ plus →
      Aligned tokens items → Aligned (token :: tokens) (token :: items)

/-- Each star but a final one is followed by a literal that occurs at most once in
the list. -/
def Unambiguous (tokens items : List α) : Prop :=
  ∀ before after later, tokens = before ++ star :: after :: later →
    after ≠ star ∧ after ≠ plus ∧ items.count after ≤ 1

variable {star plus}

section

omit [DecidableEq α]

theorem Aligned.of_star (hne : plus ≠ star) {after : α} {tokens items : List α}
    (h : Aligned star plus (star :: after :: tokens) items) :
    ∃ piece rest, items = piece ++ rest ∧ Aligned star plus (after :: tokens) rest := by
  cases h with
  | star piece hrest => exact ⟨piece, _, rfl, hrest⟩
  | plus => exact absurd rfl hne
  | literal hstar => exact absurd rfl hstar

theorem Aligned.of_plus (hne : plus ≠ star) {tokens items : List α}
    (h : Aligned star plus (plus :: tokens) items) :
    ∃ item rest, items = item :: rest ∧ Aligned star plus tokens rest := by
  cases h with
  | plus item hrest => exact ⟨item, _, rfl, hrest⟩
  | literal _ hplus => exact absurd rfl hplus
  | star | lastStar => exact absurd rfl hne

theorem Aligned.of_literal {token : α} (hstar : token ≠ star) (hplus : token ≠ plus)
    {tokens items : List α} (h : Aligned star plus (token :: tokens) items) :
    ∃ rest, items = token :: rest ∧ Aligned star plus tokens rest := by
  cases h with
  | literal _ _ hrest => exact ⟨_, rfl, hrest⟩
  | plus => exact absurd rfl hplus
  | star | lastStar => exact absurd rfl hstar

/-- A cut at a star and the literal behind it is a place where the literal occurs. -/
theorem Aligned.split {after : α} (hne : plus ≠ star) (hstar : after ≠ star)
    (hplus : after ≠ plus) {tokens items : List α}
    (h : Aligned star plus (star :: after :: tokens) items) :
    ∃ piece rest, items = piece ++ after :: rest ∧ Aligned star plus tokens rest := by
  obtain ⟨piece, _, rfl, htail⟩ := h.of_star hne
  obtain ⟨rest, rfl, hrest⟩ := htail.of_literal hstar hplus
  exact ⟨piece, rest, rfl, hrest⟩

theorem Aligned.ne_nil {tokens items : List α} (h : Aligned star plus tokens items)
    (htokens : tokens ≠ []) : items ≠ [] := by
  induction h with
  | nil => exact absurd rfl htokens
  | lastStar hitems => exact hitems
  | star piece _ ih =>
    intro hnil
    exact ih (List.cons_ne_nil _ _) (List.append_eq_nil_iff.mp hnil).2
  | plus | literal => exact List.cons_ne_nil _ _

end

theorem unambiguous_cons {token : α} {tokens items : List α} :
    Unambiguous star plus (token :: tokens) items ↔
      (token = star → ∀ after ∈ tokens.head?,
        after ≠ star ∧ after ≠ plus ∧ items.count after ≤ 1) ∧
      Unambiguous star plus tokens items := by
  constructor
  · intro h
    constructor
    · intro heq after hafter
      obtain ⟨later, rfl⟩ := List.head?_eq_some_iff.mp hafter
      exact h [] after later (by rw [heq, List.nil_append])
    · intro before after later hsplit
      exact h (token :: before) after later (by rw [hsplit, List.cons_append])
  · intro hgiven before after later hsplit
    obtain ⟨hhead, htail⟩ := hgiven
    cases before with
    | nil =>
      rw [List.nil_append, List.cons.injEq] at hsplit
      exact hhead hsplit.1 after (by rw [hsplit.2, List.head?_cons, Option.mem_some])
    | cons first before =>
      rw [List.cons_append, List.cons.injEq] at hsplit
      exact htail before after later hsplit.2

instance instDecidableUnambiguous :
    ∀ tokens items : List α, Decidable (Unambiguous star plus tokens items)
  | [], _ => isTrue fun before _ _ hsplit => by simp at hsplit
  | _ :: tokens, items =>
    have : Decidable (Unambiguous star plus tokens items) := instDecidableUnambiguous tokens items
    decidable_of_iff _ unambiguous_cons.symm

theorem Unambiguous.tail {token : α} {tokens items rest : List α}
    (h : Unambiguous star plus (token :: tokens) items) (hrest : rest.Sublist items) :
    Unambiguous star plus tokens rest := by
  intro before after later hsplit
  obtain ⟨hstar, hplus, hcount⟩ := (unambiguous_cons.mp h).2 before after later hsplit
  exact ⟨hstar, hplus, (hrest.count_le after).trans hcount⟩

/-- On an unambiguous pattern the pass accepts exactly the lists that can be cut. -/
theorem matchTokens_exact (hne : plus ≠ star) (tokens items : List α)
    (h : Unambiguous star plus tokens items) :
    matchTokens star plus tokens items = true ↔ Aligned star plus tokens items := by
  induction tokens, items using matchTokens.induct star plus with
  | case1 items =>
    rw [matchTokens_nil, List.isEmpty_iff]
    constructor
    · intro hnil
      subst hnil
      exact Aligned.nil
    · intro haligned
      cases haligned
      rfl
  | case2 token tokens =>
    simp only [matchTokens_exhausted, Bool.false_eq_true, false_iff]
    intro haligned
    exact haligned.ne_nil (List.cons_ne_nil _ _) rfl
  | case3 item items =>
    simp only [matchTokens_last_star, true_iff]
    exact Aligned.lastStar (List.cons_ne_nil _ _)
  | case4 item items after tokens hdrop =>
    obtain ⟨hstar, hplus, -⟩ := h [] after tokens rfl
    simp only [matchTokens_star, hdrop, Bool.false_eq_true, false_iff]
    intro haligned
    obtain ⟨piece, rest, hsplit, -⟩ := haligned.split hne hstar hplus
    obtain ⟨found, hfound, -⟩ := dropPast_append after piece rest
    rw [hsplit, hfound] at hdrop
    exact Option.some_ne_none found hdrop
  | case5 item items after tokens rest hdrop ih =>
    obtain ⟨hstar, hplus, hcount⟩ := h [] after tokens rfl
    obtain ⟨skipped, -, hsplit⟩ := dropPast_split hdrop
    have hsublist : (after :: rest).Sublist (item :: items) :=
      hsplit ▸ List.sublist_append_right skipped _
    have htail := (h.tail hsublist).tail (List.sublist_cons_self after rest)
    simp only [matchTokens_star, hdrop, ih htail]
    constructor
    · intro hrest
      rw [hsplit]
      exact Aligned.star skipped (Aligned.literal hstar hplus hrest)
    · intro haligned
      obtain ⟨piece, rest', hsplit', hrest⟩ := haligned.split hne hstar hplus
      -- The literal occurs only once, so the cut is made where the search stops.
      have habsent : after ∉ piece := by
        intro hmem
        rw [hsplit', List.count_append, List.count_cons_self] at hcount
        have hpos := List.count_pos_iff.mpr hmem
        omega
      rw [hsplit', dropPast_of_notMem rest' habsent, Option.some.injEq] at hdrop
      exact hdrop ▸ hrest
  | case6 tokens item items _ ih =>
    rw [matchTokens_plus star plus hne, ih (h.tail (List.sublist_cons_self item items))]
    constructor
    · exact Aligned.plus item
    · intro haligned
      obtain ⟨_, _, hcons, hrest⟩ := haligned.of_plus hne
      rw [List.cons.injEq] at hcons
      exact hcons.2 ▸ hrest
  | case7 token tokens item items hstar hplus ih =>
    rw [matchTokens_literal star plus hstar hplus, Bool.and_eq_true, decide_eq_true_eq,
      ih (h.tail (List.sublist_cons_self item items))]
    constructor
    · intro hgiven
      obtain ⟨rfl, hrest⟩ := hgiven
      exact Aligned.literal hstar hplus hrest
    · intro haligned
      obtain ⟨_, hcons, hrest⟩ := haligned.of_literal hstar hplus
      rw [List.cons.injEq] at hcons
      exact ⟨hcons.1.symm, hcons.2 ▸ hrest⟩

end Exact

end ServerClientApp.StarLanguages
