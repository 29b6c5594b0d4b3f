import ServerClientApp.HandlerSpecs
import ServerClientApp.SubscriberHandlers

/-!
What each function of the subscriber can do, said once.
-/

namespace ServerClientApp.SubscriberSpecs

open PartialTransfers Outcomes Protocols Wildcards Datagrams ServerHandlers HandlerSpecs
  SubscriberHandlers

section Lines

variable {delims text token rest : Bytes}

/-- A token is not empty, holds no delimiter, and comes with the rest from the text. -/
theorem strtok_eq_some (h : strtok delims text = some (token, rest)) :
    token ≠ [] ∧ (∀ b ∈ token, b ∉ delims) ∧ token ⊆ text ∧ rest ⊆ text := by
  unfold strtok at h
  dsimp only at h
  split_ifs at h with hempty
  simp only [Option.some.injEq, Prod.mk.injEq] at h
  obtain ⟨rfl, rfl⟩ := h
  have hsub : text.dropWhile (· ∈ delims) ⊆ text := (List.dropWhile_suffix _).subset
  refine ⟨?_, ?_, ?_, ?_⟩
  · intro hnil
    -- The first byte that is left is no delimiter, so the token has at least that byte.
    cases hleft : text.dropWhile (· ∈ delims) with
    | nil => exact hempty hleft
    | cons head tail =>
      have hhead := List.head?_dropWhile_not (fun b => decide (b ∈ delims)) text
      rw [hleft] at hnil hhead
      simp only [List.head?_cons, decide_eq_false_iff_not] at hhead
      simp [hhead] at hnil
  · intro b hb
    simpa using List.mem_takeWhile_imp hb
  · intro b hb
    exact hsub ((List.takeWhile_prefix _).subset hb)
  · intro b hb
    exact hsub ((List.dropWhile_suffix _).subset (List.mem_of_mem_drop hb))

/-- A word in front of a delimiter is the next token. -/
theorem strtok_word (hne : token ≠ []) (hword : ∀ b ∈ token, b ∉ delims) {d : UInt8}
    (hd : d ∈ delims) : strtok delims (token ++ d :: rest) = some (token, rest) := by
  obtain ⟨head, tail, rfl⟩ := List.exists_cons_of_ne_nil hne
  have hdrop : (head :: tail ++ d :: rest).dropWhile (· ∈ delims) = head :: tail ++ d :: rest := by
    rw [List.cons_append, List.dropWhile_cons_of_neg]
    simpa using hword head List.mem_cons_self
  have hall : ∀ b ∈ head :: tail, (decide (b ∉ delims)) = true := fun b hb => by
    simpa using hword b hb
  unfold strtok
  dsimp only
  rw [hdrop, if_neg (by simp), List.takeWhile_append_of_pos hall, List.dropWhile_append_of_pos hall,
    List.takeWhile_cons_of_neg (by simpa using hd), List.dropWhile_cons_of_neg (by simpa using hd),
    List.append_nil, List.drop_one, List.tail_cons]

/-- A last word is the last token. -/
theorem strtok_last_word (hne : token ≠ []) (hword : ∀ b ∈ token, b ∉ delims) :
    strtok delims token = some (token, []) := by
  obtain ⟨head, tail, rfl⟩ := List.exists_cons_of_ne_nil hne
  have hdrop : (head :: tail).dropWhile (· ∈ delims) = head :: tail := by
    rw [List.dropWhile_cons_of_neg]
    simpa using hword head List.mem_cons_self
  have hall : ∀ b ∈ head :: tail, (decide (b ∉ delims)) = true := fun b hb => by
    simpa using hword b hb
  unfold strtok
  dsimp only
  rw [hdrop, if_neg (by simp), List.takeWhile_eq_self_iff.mpr hall,
    List.dropWhile_eq_nil_iff.mpr hall, List.drop_nil]

/-- What the subscriber asks for is a subscription or its end, for a topic that is a
word of 1 to 50 bytes. -/
theorem manageStdinData_request {line : Bytes} {command : UInt8} {topic : Topic}
    (h : manageStdinData line = .request command topic) :
    (command = subscribeReq ∨ command = unsubscribeReq) ∧ topic ≠ [] ∧ topic.length ≤ 50 ∧
      (0 : UInt8) ∉ topic ∧ (32 : UInt8) ∉ topic ∧ (10 : UInt8) ∉ topic := by
  have hargument {code : UInt8} {left : Bytes} (hleft : (0 : UInt8) ∉ left)
      (harg : topicArgument code left = .request command topic) :
      command = code ∧ topic ≠ [] ∧ topic.length ≤ 50 ∧
        (0 : UInt8) ∉ topic ∧ (32 : UInt8) ∉ topic ∧ (10 : UInt8) ∉ topic := by
    unfold topicArgument at harg
    cases htoken : strtok (ascii "\n ") left with
    | none => simp [htoken] at harg
    | some r =>
      obtain ⟨token, rest⟩ := r
      obtain ⟨hne, hword, hsub, -⟩ := strtok_eq_some htoken
      simp only [htoken] at harg
      split_ifs at harg with hlong
      simp only [Typed.request.injEq] at harg
      obtain ⟨rfl, rfl⟩ := harg
      exact ⟨rfl, hne, by omega, fun hmem => hleft (hsub hmem),
        fun hmem => hword 32 hmem (by decide), fun hmem => hword 10 hmem (by decide)⟩
  unfold manageStdinData at h
  split_ifs at h with hexit
  cases htoken : strtok (ascii " ") (line.takeWhile (· ≠ 0)) with
  | none =>
    rw [htoken] at h
    exact Typed.noConfusion h
  | some r =>
    obtain ⟨word, left⟩ := r
    obtain ⟨-, -, -, hsub⟩ := strtok_eq_some htoken
    have hleft : (0 : UInt8) ∉ left := fun hmem => by
      simpa using List.mem_takeWhile_imp (hsub hmem)
    simp only [htoken] at h
    split_ifs at h
    · obtain ⟨hcommand, hrest⟩ := hargument hleft h
      exact ⟨Or.inl hcommand, hrest⟩
    · obtain ⟨hcommand, hrest⟩ := hargument hleft h
      exact ⟨Or.inr hcommand, hrest⟩

/-- A word of at most 50 bytes typed after the command is the topic asked for. -/
theorem manageStdinData_subscribe {w : Bytes} (hne : w ≠ []) (hlen : w.length ≤ 50)
    (hnul : (0 : UInt8) ∉ w) (hspace : (32 : UInt8) ∉ w) (hnewline : (10 : UInt8) ∉ w) :
    manageStdinData (ascii "subscribe " ++ w) = .request subscribeReq w := by
  have hexit : ascii "subscribe " ++ w ≠ ascii "exit" := by
    intro heq
    have hhead := congrArg List.head? heq
    simp [ascii] at hhead
  have hcommand : ∀ b ∈ ascii "subscribe ", b ≠ 0 := by simp [ascii]
  have htake : (ascii "subscribe " ++ w).takeWhile (· ≠ 0) = ascii "subscribe" ++ 32 :: w := by
    rw [List.takeWhile_eq_self_iff.mpr]
    · rfl
    · intro b hb
      rcases List.mem_append.mp hb with hb | hb
      · simpa using hcommand b hb
      · simpa using fun heq : b = 0 => hnul (heq ▸ hb)
  have hfirst : strtok (ascii " ") (ascii "subscribe" ++ 32 :: w) = some (ascii "subscribe", w) :=
    strtok_word (by decide) (by simp [ascii]) (by decide)
  have hsecond : strtok (ascii "\n ") w = some (w, []) := by
    refine strtok_last_word hne ?_
    intro b hb hmem
    have hcases : b = 10 ∨ b = 32 := by simpa [ascii] using hmem
    rcases hcases with rfl | rfl
    · exact hnewline hb
    · exact hspace hb
  simp only [manageStdinData, hexit, if_false, htake, hfirst, if_true, topicArgument, hsecond,
    gt_iff_lt, not_lt.mpr hlen]

end Lines

section Exchanges

variable {env : Env} {out : List Effect} {sock sock' : Socket}

theorem sendRequest_eq_ok {fd : Int} {command : UInt8} {topic : Topic}
    (h : topic.length + 1 < 2 ^ 16) :
    sendRequest env fd command topic = ⟨out, .ok ()⟩ ↔
      Delivers env fd (Frame.ofText command topic h) ∧
        out = [.wrote fd (Frame.ofText command topic h).encode] := by
  have hmsg := Frame.message_ofText command topic h
  have hsend : sendRequest env fd command topic =
      (sendOn env fd (Frame.ofText command topic h).message >>= fun r => die (r.1 < 0)) := by
    rw [hmsg]
    rfl
  rw [hsend]
  exact sendOn_die_eq_ok

/-- One line is shown for whatever was read. -/
theorem awaitAnswer_ok {command : UInt8} {topic : Topic}
    (h : awaitAnswer command topic sock = ⟨out, .ok sock'⟩) :
    0 ≤ (recvEfficient sock TcpMessage.zero).rc ∧
      out = [.printed (outcomeLine command topic
        (recvEfficient sock TcpMessage.zero).msg.command)] := by
  unfold awaitAnswer at h
  obtain ⟨⟨⟩, _, out, hrecv, h₁, rfl⟩ := Outcome.bind_eq_ok.mp h
  obtain ⟨hrc, rfl⟩ := die_eq_ok.mp hrecv
  simp only [Outcome.emit_bind, Outcome.pure_def, Outcome.mk.injEq] at h₁
  exact ⟨by simpa using hrc, h₁.1.symm⟩

/-- The end of the stream ends the loop; a publication is printed, anything else is
complained about. -/
theorem manageTcpData_ok {ended : Bool} (h : manageTcpData sock = ⟨out, .ok (ended, sock')⟩) :
    ((recvEfficient sock TcpMessage.zero).rc = 0 ∧ ended = true ∧ out = []) ∨
      (0 < (recvEfficient sock TcpMessage.zero).rc ∧ ended = false ∧
        (((recvEfficient sock TcpMessage.zero).msg.command ≠ msgFromUdp ∧
            ∃ line, out = [.complained line]) ∨
          ((recvEfficient sock TcpMessage.zero).msg.command = msgFromUdp ∧
            ∃ text, cString (recvEfficient sock TcpMessage.zero).msg.payload = .ok text ∧
              out = [.printed (text ++ ascii "\n")]))) := by
  unfold manageTcpData at h
  obtain ⟨⟨⟩, _, out, hrecv, h₁, rfl⟩ := Outcome.bind_eq_ok.mp h
  obtain ⟨hnonneg, rfl⟩ := die_eq_ok.mp hrecv
  clear h hrecv
  simp only [decide_eq_false_iff_not, not_lt] at hnonneg
  rw [List.nil_append]
  by_cases hzero : (recvEfficient sock TcpMessage.zero).rc = 0
  · simp only [hzero, if_true, Outcome.pure_eq_ok, Prod.mk.injEq] at h₁
    obtain ⟨rfl, rfl, -⟩ := h₁
    exact Or.inl ⟨hzero, rfl, rfl⟩
  · have hpos : 0 < (recvEfficient sock TcpMessage.zero).rc := by omega
    by_cases hcommand : (recvEfficient sock TcpMessage.zero).msg.command = msgFromUdp
    · simp only [hzero, if_false, hcommand, ne_eq, not_true_eq_false] at h₁
      obtain ⟨text, _, _, hstring, h₂, rfl⟩ := Outcome.bind_eq_ok.mp h₁
      obtain ⟨htext, rfl⟩ := readString_eq_ok.mp hstring
      simp only [Outcome.emit_bind, Outcome.pure_def, Outcome.mk.injEq, Except.ok.injEq,
        Prod.mk.injEq] at h₂
      obtain ⟨rfl, rfl, -⟩ := h₂
      exact Or.inr ⟨hpos, rfl, Or.inr ⟨hcommand, text, htext, rfl⟩⟩
    · simp only [hzero, if_false, ne_eq, hcommand, not_false_eq_true, if_true, Outcome.emit_bind,
        Outcome.pure_def, Outcome.mk.injEq, Except.ok.injEq, Prod.mk.injEq] at h₁
      obtain ⟨rfl, rfl, -⟩ := h₁
      exact Or.inr ⟨hpos, rfl, Or.inl ⟨hcommand, _, rfl⟩⟩

end Exchanges

end ServerClientApp.SubscriberSpecs
