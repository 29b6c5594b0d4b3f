import ServerClientApp.SubscriberProgram
import ServerClientApp.Words

/-!
What the subscriber makes of every line that can be typed. strtok goes through the words
of a line, and the first two words decide: which lines ask for what, and which are
refused with which notice.
-/

namespace ServerClientApp.TypedLines

open Protocols Wildcards SubscriberHandlers SubscriberProgram Words

section Tokens

variable {delims delims' text token rest : Bytes}

/-- strtok gives the first word and leaves the others. -/
theorem words_strtok (delims text : Bytes) : words (· ∈ delims) text =
    match strtok delims text with
    | none => []
    | some (token, rest) => token :: words (· ∈ delims) rest := by
  rw [← words_dropWhile]
  unfold strtok
  dsimp only
  split_ifs with hempty
  · rw [hempty, words_nil]
  · have hhead : ∀ d rest, text.dropWhile (· ∈ delims) = d :: rest →
        decide (d ∈ delims) = false := by
      intro d rest hcons
      have hfirst := List.head?_dropWhile_not (fun b => decide (b ∈ delims)) text
      rw [hcons] at hfirst
      exact hfirst
    rw [words_takeWhile hempty hhead]
    simp only [decide_not]

end Tokens

section Lines

/-- The words of a line, up to its first NUL. -/
def commandWords (line : Bytes) : List Bytes :=
  words (· ∈ ascii " ") (line.takeWhile (· ≠ 0))

def commandNamed (name : Bytes) : Option UInt8 :=
  if name = ascii "subscribe" then some subscribeReq
  else if name = ascii "unsubscribe" then some unsubscribeReq
  else none

/-- What the words of a line ask for: the first names a command, the second is its topic,
and the others do not count. -/
def meaning : List Bytes → Typed
  | [] => .usage
  | name :: args =>
    match commandNamed name, args with
    | none, _ => .usage
    | some _, [] => .invalidTopic
    | some command, topic :: _ =>
      if topic.length ≤ 50 then .request command topic else .invalidTopic

/-- The topic is the next word, on a line also where strtok splits at line ends. -/
theorem topicArgument_words (command : UInt8) {rest : Bytes} (h : 10 ∉ rest) :
    topicArgument command rest =
      match words (· ∈ ascii " ") rest with
      | [] => .invalidTopic
      | topic :: _ => if topic.length ≤ 50 then .request command topic else .invalidTopic := by
  have hsame : words (· ∈ ascii " ") rest = words (· ∈ ascii "\n ") rest := by
    refine words_congr fun b hb => ?_
    have hne : b ≠ 10 := fun heq => h (heq ▸ hb)
    simp [ascii, hne]
  have hnext := words_strtok (ascii "\n ") rest
  rw [hsame, hnext]
  unfold topicArgument
  cases strtok (ascii "\n ") rest with
  | none => rfl
  | some r =>
    dsimp only
    by_cases hlong : r.1.length > 50
    · rw [if_pos hlong, if_neg (by omega)]
    · rw [if_neg hlong, if_pos (by omega)]

/-- Every line means what its words mean, except exit. -/
theorem manageStdinData_words {line : Bytes} (h : 10 ∉ line) :
    manageStdinData line =
      if line = ascii "exit" then .exit else meaning (commandWords line) := by
  unfold manageStdinData commandWords
  split_ifs
  · rfl
  · rw [words_strtok]
    cases htoken : strtok (ascii " ") (line.takeWhile (· ≠ 0)) with
    | none => rfl
    | some r =>
      obtain ⟨name, rest⟩ := r
      obtain ⟨-, -, -, hsub⟩ := SubscriberSpecs.strtok_eq_some htoken
      have hrest : 10 ∉ rest := fun hmem => h ((List.takeWhile_prefix _).subset (hsub hmem))
      simp only [meaning, commandNamed, topicArgument_words _ hrest]
      split_ifs
      all_goals cases words (· ∈ ascii " ") rest <;> rfl

theorem meaning_ne_exit (ws : List Bytes) : meaning ws ≠ .exit := by
  unfold meaning
  split
  · simp
  · split
    · simp
    · simp
    · split_ifs <;> simp

theorem meaning_eq_request {ws : List Bytes} {command : UInt8} {topic : Topic} :
    meaning ws = .request command topic ↔ topic.length ≤ 50 ∧ ∃ name more,
      ws = name :: topic :: more ∧ commandNamed name = some command := by
  constructor
  · intro h
    unfold meaning at h
    split at h
    · simp at h
    · rename_i name args
      split at h
      · simp at h
      · simp at h
      · rename_i code word more hname
        split_ifs at h with hshort
        rw [Typed.request.injEq] at h
        obtain ⟨rfl, rfl⟩ := h
        exact ⟨hshort, name, more, rfl, hname⟩
  · intro hgiven
    obtain ⟨hshort, name, more, rfl, hname⟩ := hgiven
    simp only [meaning, hname, if_pos hshort]

theorem meaning_eq_invalidTopic {ws : List Bytes} :
    meaning ws = .invalidTopic ↔ ∃ name args, ws = name :: args ∧
      (commandNamed name).isSome = true ∧ ∀ topic ∈ args.head?, 50 < topic.length := by
  constructor
  · intro h
    unfold meaning at h
    split at h
    · simp at h
    · rename_i name args
      split at h
      · simp at h
      · rename_i code hname
        exact ⟨name, [], rfl, by simp [hname], by simp⟩
      · rename_i code word more hname
        split_ifs at h with hshort
        exact ⟨name, word :: more, rfl, by simp [hname], by simpa using hshort⟩
  · intro hgiven
    obtain ⟨name, args, rfl, hname, hlong⟩ := hgiven
    obtain ⟨command, hcommand⟩ := Option.isSome_iff_exists.mp hname
    cases args with
    | nil => simp only [meaning, hcommand]
    | cons topic more =>
      have hlong : ¬ topic.length ≤ 50 := not_le.mpr (hlong topic rfl)
      simp only [meaning, hcommand, if_neg hlong]

theorem meaning_eq_usage {ws : List Bytes} :
    meaning ws = .usage ↔ ∀ name ∈ ws.head?, commandNamed name = none := by
  cases ws with
  | nil => simp [meaning]
  | cons name args =>
    simp only [List.head?_cons, Option.mem_def, Option.some.injEq, forall_eq']
    cases hname : commandNamed name with
    | none => simp [meaning, hname]
    | some command =>
      refine iff_of_false ?_ (by simp)
      simp only [meaning, hname]
      cases args with
      | nil => simp
      | cons topic more =>
        dsimp only
        split_ifs <;> simp

/-- What a typed line without a line end is taken for: exit if it is just that word; a
request exactly if its first word is a command and its second a topic of at most 50
bytes, whatever blanks are around them and whatever comes after; a wrong topic if after
a command there is none or a longer one; and a wrong command in all other cases. -/
theorem typed_line_meaning {line : Bytes} (h : 10 ∉ line) :
    (manageStdinData line = .exit ↔ line = ascii "exit") ∧
    (∀ command topic, manageStdinData line = .request command topic ↔
      topic.length ≤ 50 ∧ ∃ name more,
        commandWords line = name :: topic :: more ∧ commandNamed name = some command) ∧
    (manageStdinData line = .invalidTopic ↔ ∃ name args,
      commandWords line = name :: args ∧ (commandNamed name).isSome = true ∧
        ∀ topic ∈ args.head?, 50 < topic.length) ∧
    (manageStdinData line = .usage ↔
      line ≠ ascii "exit" ∧ ∀ name ∈ (commandWords line).head?, commandNamed name = none) := by
  rw [manageStdinData_words h]
  by_cases hexit : line = ascii "exit"
  · -- exit is no command, so the words of that line ask for nothing.
    have hwords : commandWords line = [ascii "exit"] := by
      rw [hexit]
      decide
    have hname : commandNamed (ascii "exit") = none := by decide
    rw [if_pos hexit, hwords]
    refine ⟨by simp [hexit], ?_, ?_, by simp [hexit]⟩
    · simp
    · refine iff_of_false (by simp) ?_
      intro hgiven
      obtain ⟨name, args, hcons, hsome, -⟩ := hgiven
      rw [List.cons.injEq] at hcons
      rw [← hcons.1, hname] at hsome
      exact Bool.noConfusion hsome
  · rw [if_neg hexit]
    refine ⟨iff_of_false (meaning_ne_exit _) hexit, fun command topic => meaning_eq_request,
      meaning_eq_invalidTopic, ?_⟩
    rw [meaning_eq_usage, and_iff_right hexit]

/-- Blanks around the words and a third word. -/
theorem typed_line_meaning_spaced :
    manageStdinData (ascii "  subscribe   t u") = .request subscribeReq (ascii "t") :=
  ((typed_line_meaning (by decide)).2.1 subscribeReq (ascii "t")).mpr
    ⟨by decide, ascii "subscribe", [ascii "u"], by decide, by decide⟩

end Lines

end ServerClientApp.TypedLines
