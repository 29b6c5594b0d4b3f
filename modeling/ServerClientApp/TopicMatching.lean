import ServerClientApp.Delivery
import ServerClientApp.Ledger
import ServerClientApp.StarLanguages

/-!
Which topics a subscription matches. The matcher misses topics of some wildcard
subscriptions and is exact on others, and the cutting of a topic into its levels
loses one final slash, so that a client without wildcards can get a topic it did
not ask for.
-/

namespace ServerClientApp.TopicMatching

open Outcomes Runs Protocols StarMatching StarLanguages Wildcards Datagrams ServerHandlers
  HandlerSpecs ServerRuns Ledger Delivery

section Languages

/-- The levels a token stands for: '+' for one, '*' for one or more, any other
token for itself. -/
abbrev StrictLevels : Token → List Token → Prop := Spans starStr plusStr

theorem plusStr_ne_starStr : plusStr ≠ starStr := by decide

theorem compareTokenVectors_eq_true {oldTokens newTokens : List Token} :
    compareTokenVectors oldTokens newTokens starStr plusStr = some true ↔
      matchTokens starStr plusStr oldTokens newTokens = true := by
  rw [compareTokenVectors_eq, Option.some.injEq]

/-- The matcher misses no topic of a subscription exactly if each '*' of it is the
last token, or one literal follows and then only '+' up to the next '*'. -/
theorem misses_no_topic_iff (subscription : List Token) :
    (∀ topic, Cut StrictLevels subscription topic →
      compareTokenVectors subscription topic starStr plusStr = some true) ↔
    forgiving starStr plusStr .start subscription = true := by
  simp only [compareTokenVectors_eq_true]
  exact accepts_language_iff plusStr_ne_starStr subscription

/-- After the star the matcher stops at the first level "a" and does not come back
for the second one. -/
theorem misses_recurring_level :
    Cut StrictLevels [ascii "*", ascii "a"] [ascii "x", ascii "a", ascii "a"] ∧
      compareTokenVectors [ascii "*", ascii "a"] [ascii "x", ascii "a", ascii "a"]
        starStr plusStr = some false := by
  refine ⟨?_, by decide⟩
  have hliteral : Cut StrictLevels [ascii "a"] [ascii "a"] :=
    cut_literal (by decide) (by decide) Cut.nil
  have hpiece : [ascii "x", ascii "a"] ≠ [] := List.cons_ne_nil _ _
  exact cut_star hpiece hliteral

/-- Where the level behind each '*' but a final one is a literal and cannot be
mistaken, the matcher accepts exactly the topics that can be cut along the
subscription. -/
theorem exact_on_unambiguous (subscription topic : List Token)
    (h : Unambiguous starStr plusStr subscription topic) :
    compareTokenVectors subscription topic starStr plusStr = some true ↔
      Aligned starStr plusStr subscription topic := by
  rw [compareTokenVectors_eq_true]
  exact matchTokens_exact plusStr_ne_starStr subscription topic h

/-- Several wildcards at once. -/
theorem exact_on_elevators : Aligned starStr plusStr
    [ascii "*", ascii "ec", ascii "+", ascii "*"]
    [ascii "upb", ascii "ec", ascii "100", ascii "floor"] :=
  (exact_on_unambiguous _ _ (by decide)).mp (by decide)

end Languages

section Tokens

theorem getlineSlash_ne_nil {stream : Bytes} (h : stream ≠ []) :
    getlineSlash stream = some (stream.takeWhile (· ≠ slash),
      (stream.dropWhile (· ≠ slash)).drop 1) := if_neg h

/-- What a getline leaves is shorter than what it found. -/
theorem getlineSlash_shorter {stream : Bytes} (h : stream ≠ []) :
    ((stream.dropWhile (· ≠ slash)).drop 1).length < stream.length := by
  have hpos := List.length_pos_iff.mpr h
  have hle := (List.dropWhile_suffix (· ≠ slash) (l := stream)).length_le
  rw [List.length_drop]
  omega

/-- More fuel than bytes changes nothing. -/
theorem tokenizeLoop_fuel (fuel more : ℕ) (stream : Bytes) (h : stream.length < fuel)
    (hmore : stream.length < more) : tokenizeLoop fuel stream = tokenizeLoop more stream := by
  induction fuel generalizing more stream with
  | zero => omega
  | succ fuel ih =>
    cases more with
    | zero => omega
    | succ more =>
      by_cases hnil : stream = []
      · simp [tokenizeLoop, getlineSlash, hnil]
      · have hshorter := getlineSlash_shorter hnil
        simp only [tokenizeLoop, getlineSlash_ne_nil hnil]
        rw [ih more _ (by omega) (by omega)]

theorem tokenizeTopic_nil : tokenizeTopic [] = [] := by
  simp [tokenizeTopic, tokenizeLoop, getlineSlash]

theorem tokenizeTopic_cons {topic : Topic} (h : topic ≠ []) :
    tokenizeTopic topic = topic.takeWhile (· ≠ slash) ::
      tokenizeTopic ((topic.dropWhile (· ≠ slash)).drop 1) := by
  have hshorter := getlineSlash_shorter h
  rw [tokenizeTopic, tokenizeLoop, getlineSlash_ne_nil h]
  simp only [tokenizeTopic]
  rw [tokenizeLoop_fuel _ _ _ (by omega) (Nat.lt_succ_self _)]

theorem takeWhile_level {level : Token} (h : slash ∉ level) (rest : Topic) :
    (level ++ rest).takeWhile (· ≠ slash) = level ++ rest.takeWhile (· ≠ slash) ∧
      (level ++ rest).dropWhile (· ≠ slash) = rest.dropWhile (· ≠ slash) := by
  have hlevel : ∀ b ∈ level, decide (b ≠ slash) = true := by
    intro b hb
    exact decide_eq_true fun heq => h (heq ▸ hb)
  exact ⟨List.takeWhile_append_of_pos hlevel, List.dropWhile_append_of_pos hlevel⟩

/-- A last level with nothing behind it. -/
theorem tokenizeTopic_level {level : Token} (hne : level ≠ []) (h : slash ∉ level) :
    tokenizeTopic level = [level] := by
  obtain ⟨htake, hdrop⟩ := takeWhile_level h []
  rw [List.append_nil] at htake hdrop
  rw [tokenizeTopic_cons hne, htake, hdrop]
  simp [tokenizeTopic_nil]

/-- A level, empty or not, with a slash behind it. -/
theorem tokenizeTopic_slash {level : Token} (h : slash ∉ level) (rest : Topic) :
    tokenizeTopic (level ++ slash :: rest) = level :: tokenizeTopic rest := by
  obtain ⟨htake, hdrop⟩ := takeWhile_level h (slash :: rest)
  have hne : level ++ slash :: rest ≠ [] := by simp
  rw [tokenizeTopic_cons hne, htake, hdrop]
  simp

/-- A topic is empty, a single level, or a level and what follows its slash. -/
theorem topic_induction {motive : Topic → Prop} (nil : motive [])
    (level : ∀ level, level ≠ [] → slash ∉ level → motive level)
    (cut : ∀ level rest, slash ∉ level → motive rest → motive (level ++ slash :: rest))
    (topic : Topic) : motive topic := by
  induction hlength : topic.length using Nat.strong_induction_on generalizing topic with
  | _ size ih =>
    by_cases hslash : slash ∈ topic
    · obtain ⟨first, rest, rfl, hfirst⟩ := List.eq_append_cons_of_mem hslash
      rw [List.length_append, List.length_cons] at hlength
      exact cut first rest hfirst (ih rest.length (by omega) rest rfl)
    · by_cases hnil : topic = []
      · exact hnil ▸ nil
      · exact level topic hnil hslash

def Unended (topic : Topic) : Prop := topic ≠ [] ∧ topic.getLast? ≠ some slash

instance (topic : Topic) : Decidable (Unended topic) := by
  unfold Unended
  infer_instance

theorem unended_level {level : Token} (hne : level ≠ []) (h : slash ∉ level) :
    Unended level := by
  refine ⟨hne, fun hlast => h (List.mem_of_getLast? hlast)⟩

theorem unended_slash {level rest : Topic} : Unended (level ++ slash :: rest) ↔ Unended rest := by
  cases rest with
  | nil => simp [Unended]
  | cons b rest => simp [Unended]

def Ends (topic ended : Topic) : Prop := Unended topic ∧ ended = topic ++ [slash]

/-- The topics differ only by one slash at the end of a last level. -/
def Twins (s t : Topic) : Prop := Ends s t ∨ Ends t s

def rejoin (tokens : List Token) : Topic := tokens.flatMap (· ++ [slash])

theorem rejoin_tokenizeTopic (topic : Topic) :
    rejoin (tokenizeTopic topic) = if Unended topic then topic ++ [slash] else topic := by
  induction topic using topic_induction with
  | nil => simp [tokenizeTopic_nil, rejoin, Unended]
  | level level hne h =>
    rw [tokenizeTopic_level hne h, if_pos (unended_level hne h)]
    simp [rejoin]
  | cut level rest h ih =>
    rw [tokenizeTopic_slash h, rejoin, List.flatMap_cons]
    change level ++ [slash] ++ rejoin (tokenizeTopic rest) = _
    rw [ih]
    simp only [unended_slash]
    split <;> simp

theorem tokenizeTopic_ended {topic : Topic} (h : Unended topic) :
    tokenizeTopic (topic ++ [slash]) = tokenizeTopic topic := by
  induction topic using topic_induction with
  | nil => exact absurd rfl h.1
  | level level hne hlevel =>
    rw [tokenizeTopic_slash hlevel, tokenizeTopic_nil, tokenizeTopic_level hne hlevel]
  | cut level rest hlevel ih =>
    rw [List.append_assoc, List.cons_append, tokenizeTopic_slash hlevel,
      tokenizeTopic_slash hlevel, ih (unended_slash.mp h)]

/-- The levels tell all topics apart but those that differ by a slash at the end. -/
theorem tokenizeTopic_eq_iff {s t : Topic} :
    tokenizeTopic s = tokenizeTopic t ↔ s = t ∨ Twins s t := by
  constructor
  · intro heq
    have hrejoin := congrArg rejoin heq
    rw [rejoin_tokenizeTopic, rejoin_tokenizeTopic] at hrejoin
    by_cases hs : Unended s
    · by_cases ht : Unended t
      · rw [if_pos hs, if_pos ht] at hrejoin
        exact Or.inl (List.append_cancel_right hrejoin)
      · rw [if_pos hs, if_neg ht] at hrejoin
        exact Or.inr (Or.inl ⟨hs, hrejoin.symm⟩)
    · by_cases ht : Unended t
      · rw [if_neg hs, if_pos ht] at hrejoin
        exact Or.inr (Or.inr ⟨ht, hrejoin⟩)
      · rw [if_neg hs, if_neg ht] at hrejoin
        exact Or.inl hrejoin
  · intro hgiven
    rcases hgiven with rfl | ⟨hs, rfl⟩ | ⟨ht, rfl⟩
    · rfl
    · exact (tokenizeTopic_ended hs).symm
    · exact tokenizeTopic_ended ht

/-- No level holds a slash. -/
theorem slash_not_mem_token {topic : Topic} {token : Token} (h : token ∈ tokenizeTopic topic) :
    slash ∉ token := by
  induction topic using topic_induction with
  | nil => simp [tokenizeTopic_nil] at h
  | level level hne hlevel =>
    rw [tokenizeTopic_level hne hlevel, List.mem_singleton] at h
    exact h ▸ hlevel
  | cut level rest hlevel ih =>
    rw [tokenizeTopic_slash hlevel, List.mem_cons] at h
    rcases h with rfl | h
    · exact hlevel
    · exact ih h

theorem rejoin_eq_intercalate {tokens : List Token} (h : tokens ≠ []) :
    rejoin tokens = [slash].intercalate tokens ++ [slash] := by
  induction tokens with
  | nil => exact absurd rfl h
  | cons token tokens ih =>
    by_cases hlast : tokens = []
    · subst hlast
      simp [rejoin]
    · have hrest := ih hlast
      rw [List.intercalate_cons_of_ne_nil hlast, List.append_assoc, ← hrest]
      simp [rejoin]

/-- The levels joined again give the topic without a slash at its end. -/
theorem intercalate_tokenizeTopic (topic : Topic) :
    [slash].intercalate (tokenizeTopic topic) =
      if topic.getLast? = some slash then topic.dropLast else topic := by
  by_cases hnil : topic = []
  · subst hnil
    simp [tokenizeTopic_nil]
  · have htokens : tokenizeTopic topic ≠ [] := by
      rw [tokenizeTopic_cons hnil]
      exact List.cons_ne_nil _ _
    have hrejoin := rejoin_tokenizeTopic topic
    rw [rejoin_eq_intercalate htokens] at hrejoin
    by_cases hlast : topic.getLast? = some slash
    · rw [if_neg (fun hunended : Unended topic => hunended.2 hlast)] at hrejoin
      have hdrop := congrArg List.dropLast hrejoin
      rw [List.dropLast_concat] at hdrop
      rw [if_pos hlast]
      exact hdrop
    · rw [if_pos (show Unended topic from ⟨hnil, hlast⟩)] at hrejoin
      rw [if_neg hlast]
      exact List.append_cancel_right hrejoin

/-- Two topics have the same levels exactly if they differ by one slash at the
end, no level holds a slash, and the levels joined again give the topic back. -/
theorem tokenizeTopic_faithful :
    (∀ s t : Topic, s ≠ t → (tokenizeTopic s = tokenizeTopic t ↔ Twins s t)) ∧
      ∀ topic : Topic, (∀ token ∈ tokenizeTopic topic, slash ∉ token) ∧
        [slash].intercalate (tokenizeTopic topic) =
          if topic.getLast? = some slash then topic.dropLast else topic := by
  refine ⟨?_, ?_⟩
  · intro s t hne
    rw [tokenizeTopic_eq_iff, or_iff_right hne]
  · intro topic
    exact ⟨fun token h => slash_not_mem_token h, intercalate_tokenizeTopic topic⟩

/-- A single slash is not the twin of the empty topic, but "a" is that of "a/". -/
theorem tokenizeTopic_faithful_two :
    tokenizeTopic [] ≠ tokenizeTopic (ascii "/") ∧
      tokenizeTopic (ascii "a") = tokenizeTopic (ascii "a/") := by
  have htwins := tokenizeTopic_faithful.1
  refine ⟨?_, (htwins _ _ (by decide)).mpr (Or.inl ⟨by decide, by decide⟩)⟩
  intro heq
  rcases (htwins _ _ (by decide)).mp heq with ⟨h, -⟩ | ⟨-, h⟩
  · exact absurd h (by decide)
  · exact absurd h (by decide)

end Tokens

section WithoutWildcards

def Ordinary (topic : Topic) : Prop :=
  starStr ∉ tokenizeTopic topic ∧ plusStr ∉ tokenizeTopic topic

instance (topic : Topic) : Decidable (Ordinary topic) := by
  unfold Ordinary
  infer_instance

theorem mem_of_lookup {topics : Subscriptions} {key : Topic} {tokens : List Token}
    (h : topics.lookup key = some tokens) : key ∈ topics :=
  AList.lookup_isSome.mp (by rw [h]; rfl)

theorem checkWildcardTopic_ordinary {topics : Subscriptions} (htokenized : Tokenized topics)
    (hordinary : ∀ key ∈ topics, Ordinary key) (topic : Topic) :
    checkWildcardTopic topic topics = true ↔
      ∃ key ∈ topics, tokenizeTopic key = tokenizeTopic topic := by
  have hmatch : ∀ key tokens, topics.lookup key = some tokens →
      (compareTokenVectors tokens (tokenizeTopic topic) starStr plusStr = some true ↔
        tokenizeTopic key = tokenizeTopic topic) := by
    intro key tokens hlookup
    obtain ⟨hstar, hplus⟩ := hordinary key (mem_of_lookup hlookup)
    rw [htokenized key tokens hlookup, compareTokenVectors_eq_true]
    exact matchTokens_ordinary starStr plusStr hstar hplus _
  constructor
  · intro h
    obtain ⟨⟨key, tokens⟩, hentry, hequal⟩ := List.any_eq_true.mp h
    have hlookup : topics.lookup key = some tokens := AList.mem_lookup_iff.mpr hentry
    exact ⟨key, mem_of_lookup hlookup, (hmatch key tokens hlookup).mp (by simpa using hequal)⟩
  · intro hgiven
    obtain ⟨key, hmem, heq⟩ := hgiven
    obtain ⟨tokens, hlookup⟩ := Option.isSome_iff_exists.mp (AList.lookup_isSome.mpr hmem)
    refine List.any_eq_true.mpr ⟨⟨key, tokens⟩, AList.mem_lookup_iff.mp hlookup, ?_⟩
    simpa using (hmatch key tokens hlookup).mpr heq

/-- Subscribing stores every topic with its own tokens, and nothing else changes
what is stored. -/
theorem tokenized_step {s s' : Server} {i : Env × Event} {out : List Effect} (hc : Consistent s)
    (h : ∀ id, Tokenized (s.topicsOf id)) (hstep : step s i = some (s', out)) :
    ∀ id, Tokenized (s'.topicsOf id) := by
  obtain ⟨env, event⟩ := i
  cases served hc hstep with
  | line | datagram | refused => exact h
  | admitted =>
    intro other
    rw [topicsOf_enrol]
    exact h other
  | left _ _ hclient =>
    intro other
    rw [topicsOf_dismiss hclient]
    exact h other
  | @answered _ _ _ received id c topic _ _ _ _ hclient _ _ hupdate =>
    intro other
    rw [topicsOf_of_update hupdate]
    by_cases hother : other = id
    · have hid : s.topicsOf id = c.subscribedTopics := by
        rw [Server.topicsOf, hclient, Option.elim_some]
      rw [hother, Function.update_self]
      exact tokenized_topicsAfter _ _ (hid ▸ h id)
    · rw [Function.update_of_ne hother]
      exact h other

/-- In every state the server can reach the stored tokens are those of the topics. -/
theorem tokenized_of_reachable {s : Server} (h : Reachable s) (id : ClientId) :
    Tokenized (s.topicsOf id) := by
  obtain ⟨udpSockfd, tcpSockfd, is, out, hrun, hfresh⟩ := h
  have hinit : ∀ id, Tokenized ((Server.prepare udpSockfd tcpSockfd).topicsOf id) := by
    intro id topic tokens hlookup
    simp [Server.topicsOf, Server.client, Server.prepare] at hlookup
  have hend := exec_invariant (I := fun s => Consistent s ∧ ∀ id, Tokenized (s.topicsOf id))
    (fun s i s' o hI hfresh hstep =>
      ⟨consistent_step hI.1 hfresh hstep, tokenized_step hI.1 hI.2 hstep⟩)
    ⟨consistent_prepare udpSockfd tcpSockfd, hinit⟩ hfresh hrun
  exact hend.2 id

/-- A connected client whose subscriptions hold no wildcard gets only topics it is
subscribed to, exactly if the topic is one of them or none of them differs from it
by a slash at the end alone. -/
theorem receives_only_subscribed_iff {topics : Subscriptions} (htokenized : Tokenized topics)
    (hordinary : ∀ key ∈ topics, Ordinary key) (topic : Topic) (fd : Int) :
    (selected topic ⟨fd, true, topics⟩ = true → topic ∈ topics) ↔
      topic ∈ topics ∨ ∀ key ∈ topics, ¬ Twins key topic := by
  rw [selected_iff, checkWildcardTopic_ordinary htokenized hordinary]
  simp only [true_and, tokenizeTopic_eq_iff]
  constructor
  · intro h
    by_cases hmem : topic ∈ topics
    · exact Or.inl hmem
    · right
      intro key hkey htwins
      exact hmem (h (Or.inr ⟨key, hkey, Or.inr htwins⟩))
  · intro h hselected
    rcases hselected with hmem | ⟨key, hkey, rfl | htwins⟩
    · exact hmem
    · exact hkey
    · exact h.resolve_right fun hnone => hnone key hkey htwins

def subscribeSlashed : Frame := Frame.ofText subscribeReq (ascii "t/") (by decide)

def slashed : Server :=
  (enrol (Server.prepare 3 4) (ascii "a") 5).setClient (ascii "a")
    ⟨5, true, AList.insert (ascii "t/") [ascii "t"] ∅⟩

theorem reachable_slashed : Reachable slashed :=
  reachable_of_run 3 4
    [(Env.plain, .connect ⟨(127, 0, 0, 1), 1⟩ 5 connectA),
      (Env.plain, .frame 0 5 subscribeSlashed)]
    (by rfl) (by decide)

/-- The client is not selected for the topic "u". -/
theorem receives_only_subscribed_slashed :
    selected (ascii "u") ⟨5, true, slashed.topicsOf (ascii "a")⟩ = false := by
  have hkeys : (slashed.topicsOf (ascii "a")).keys = [ascii "t/"] := by decide
  have honly := receives_only_subscribed_iff
    (tokenized_of_reachable reachable_slashed (ascii "a")) (by decide) (ascii "u") 5
  refine Bool.eq_false_iff.mpr fun hselected => absurd (honly.mpr (Or.inr ?_) hselected) (by decide)
  intro key hkey htwins
  rw [AList.mem_keys, hkeys, List.mem_singleton] at hkey
  subst hkey
  rcases htwins with ⟨-, heq⟩ | ⟨-, heq⟩
  · exact absurd heq (by decide)
  · exact absurd heq (by decide)

set_option maxRecDepth 4000 in
/-- The client gets a datagram under the topic "t". -/
theorem slash_at_end_ignored : Reachable slashed ∧
    Ordinary (ascii "t/") ∧ (slashed.topicsOf (ascii "a")).keys = [ascii "t/"] ∧
    ascii "t" ∉ slashed.topicsOf (ascii "a") ∧
    manageUdpMessage Env.plain slashed (some seven) =
      ⟨[.wrote 5 (9 :: 0 :: 26 :: (sevenText ++ [0]))], .ok slashed⟩ :=
  ⟨reachable_slashed, by decide, by decide, by decide, by rfl⟩

end WithoutWildcards

end ServerClientApp.TopicMatching
