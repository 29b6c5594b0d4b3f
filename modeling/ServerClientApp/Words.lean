import Mathlib.Data.List.Basic
import Mathlib.Data.List.TakeWhile
import Mathlib.Data.List.DropRight

/-!
Texts that are made of words with separators between them, read from the front and from
the back. Items and separators are arbitrary.
-/

namespace ServerClientApp.Words

variable {α : Type*}

section Front

variable {sep : α → Bool} {text word rest : List α} {d : α}

/-- What is between the separators, but for the empty parts. -/
def words (sep : α → Bool) (text : List α) : List (List α) :=
  (text.splitOnP sep).filter (· ≠ [])

theorem words_nil (sep : α → Bool) : words sep ([] : List α) = [] := by
  simp [words, List.splitOnP_nil]

/-- Only what the text has in it counts as a separator. -/
theorem words_congr {sep' : α → Bool} (h : ∀ b ∈ text, sep b = sep' b) :
    words sep text = words sep' text := by
  have hsplit : text.splitOnP sep = text.splitOnP sep' := by
    induction text with
    | nil => simp only [List.splitOnP_nil]
    | cons d text ih =>
      have hd := h d List.mem_cons_self
      have htext := ih fun b hb => h b (List.mem_cons_of_mem d hb)
      simp only [List.splitOnP_cons_eq_if_modifyHead, hd, htext]
  rw [words, hsplit, words]

/-- A separator in front changes nothing. -/
theorem words_sep (hd : sep d = true) (text : List α) : words sep (d :: text) = words sep text := by
  have hsplit := List.splitOnP_append_cons (p := sep) [] text hd
  rw [List.nil_append, List.splitOnP_nil] at hsplit
  simp [words, hsplit]

theorem words_dropWhile (sep : α → Bool) (text : List α) :
    words sep (text.dropWhile sep) = words sep text := by
  induction text with
  | nil => rfl
  | cons d text ih =>
    cases hd : sep d with
    | true => rw [List.dropWhile_cons_of_pos hd, ih, words_sep hd]
    | false => rw [List.dropWhile_cons_of_neg (by simp [hd])]

theorem words_word (hne : word ≠ []) (hword : ∀ b ∈ word, sep b = false) (hd : sep d = true)
    (rest : List α) : words sep (word ++ d :: rest) = word :: words sep rest := by
  rw [words, List.splitOnP_append_cons_of_forall_mem hword d hd]
  simp [hne, words]

theorem words_last (hne : word ≠ []) (hword : ∀ b ∈ word, sep b = false) :
    words sep word = [word] := by
  rw [words, List.splitOnP_eq_singleton hword]
  simp [hne]

/-- A text that does not begin with a separator begins with a word. -/
theorem words_takeWhile (hne : text ≠ []) (hhead : ∀ d rest, text = d :: rest → sep d = false) :
    words sep text = text.takeWhile (!sep ·) ::
      words sep ((text.dropWhile (!sep ·)).drop 1) := by
  have hword : ∀ b ∈ text.takeWhile (!sep ·), sep b = false := by
    intro b hb
    simpa using List.mem_takeWhile_imp hb
  have hsome : text.takeWhile (!sep ·) ≠ [] := by
    obtain ⟨d, rest, rfl⟩ := List.exists_cons_of_ne_nil hne
    simp [hhead d rest rfl]
  have hsplit : text.takeWhile (!sep ·) ++ text.dropWhile (!sep ·) = text :=
    List.takeWhile_append_dropWhile
  cases hrest : text.dropWhile (!sep ·) with
  | nil =>
    rw [hrest, List.append_nil] at hsplit
    rw [List.drop_nil, words_nil, hsplit]
    exact words_last hne (hsplit ▸ hword)
  | cons d rest =>
    have hd : sep d = true := by
      have hfirst := List.head_dropWhile_not (!sep ·) (l := text) (by simp [hrest])
      simpa [hrest] using hfirst
    rw [hrest] at hsplit
    rw [List.drop_one, List.tail_cons, ← words_word hsome hword hd rest, hsplit]

def cut [DecidableEq α] (sep : α) (text : List α) : List α × List α :=
  (text.takeWhile (· ≠ sep), (text.dropWhile (· ≠ sep)).drop 1)

theorem cut_append [DecidableEq α] {sep : α} (h : sep ∉ word) (rest : List α) :
    cut sep (word ++ sep :: rest) = (word, rest) := by
  have hword : ∀ b ∈ word, decide (b ≠ sep) = true :=
    fun b hb => decide_eq_true fun heq => h (heq ▸ hb)
  rw [cut, List.takeWhile_append_of_pos hword, List.dropWhile_append_of_pos hword,
    List.takeWhile_cons_of_neg (by simp), List.dropWhile_cons_of_neg (by simp), List.append_nil,
    List.drop_one, List.tail_cons]

/-- The last word. -/
theorem cut_word [DecidableEq α] {sep : α} (h : sep ∉ word) : cut sep word = (word, []) := by
  have hword : ∀ b ∈ word, decide (b ≠ sep) = true :=
    fun b hb => decide_eq_true fun heq => h (heq ▸ hb)
  rw [cut, List.takeWhile_eq_self_iff.mpr hword, List.dropWhile_eq_nil_iff.mpr hword, List.drop_nil]

end Front

section Back

variable {sep : α} {tail : List α}

/-- A tail is not found where a longer one that does not end with it has been put. -/
theorem not_suffix_append {tail' : List α} (hlength : tail.length ≤ tail'.length)
    (hne : ¬ tail <:+ tail') (text : List α) : ¬ tail <:+ text ++ tail' := by
  intro hsuffix
  exact hne (List.suffix_of_suffix_length_le hsuffix (List.suffix_append text tail') hlength)

variable [DecidableEq α]

/-- The text up to its last separator. -/
def upToLast (sep : α) (text : List α) : List α := text.rdropWhile (· ≠ sep)

theorem upToLast_append (h : sep ∉ tail) (text : List α) :
    upToLast sep (text ++ sep :: tail) = text ++ [sep] := by
  induction tail using List.reverseRecOn with
  | nil => exact List.rdropWhile_concat_neg _ _ _ (by simp)
  | append_singleton tail d ih =>
    rw [List.mem_append, List.mem_singleton, not_or] at h
    have hassoc : text ++ sep :: (tail ++ [d]) = text ++ sep :: tail ++ [d] := by simp
    have hd : d ≠ sep := fun heq => h.2 heq.symm
    unfold upToLast at ih ⊢
    rw [hassoc, List.rdropWhile_concat_pos _ _ _ (by simpa using hd)]
    exact ih h.1

/-- What has been put behind a text is found there. -/
theorem dropSuffix_append (text tail : List α) : (text ++ tail).dropSuffix? tail = some text :=
  List.dropSuffix?_eq_some_iff.mpr ⟨tail, rfl, beq_self_eq_true tail⟩

theorem dropSuffix_none {text : List α} (h : ¬ tail <:+ text) : text.dropSuffix? tail = none := by
  rw [Option.eq_none_iff_forall_ne_some]
  intro front hfront
  obtain ⟨tail', rfl, htail⟩ := List.dropSuffix?_eq_some_iff.mp hfront
  exact h ⟨front, by rw [eq_of_beq htail]⟩

theorem dropPrefix_append (front text : List α) : (front ++ text).dropPrefix? front = some text :=
  List.dropPrefix?_append_of_beq text (beq_self_eq_true front)

end Back

end ServerClientApp.Words
