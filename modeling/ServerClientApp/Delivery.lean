import ServerClientApp.ServerRuns

/-!
Publications. The clients a datagram goes to hold different descriptors, each of
them gets one copy of one frame, and the first send that fails ends the server
with the later clients left out.
-/

namespace ServerClientApp.Delivery

open PartialTransfers Outcomes Protocols StarMatching Wildcards Datagrams ServerHandlers HandlerSpecs
  ServerRuns

section Recipients

variable {env : Env} {s : Server} {topic : Topic}

theorem mem_recipients {entry : Entry} :
    entry ∈ recipients topic (env.iterate s.clients) ↔
      s.client entry.1 = some entry.2 ∧ selected topic entry.2 = true := by
  rw [recipients, List.mem_filter, mem_iterate]

theorem selected_iff {c : Client} :
    selected topic c = true ↔ c.isConnected = true ∧
      (topic ∈ c.subscribedTopics ∨ checkWildcardTopic topic c.subscribedTopics = true) := by
  simp [selected]

/-- A client is selected for a topic it is subscribed to, or for one cut into the
levels of a subscription. -/
theorem selected_sound {c : Client} (h : selected topic c = true) :
    c.isConnected = true ∧ (topic ∈ c.subscribedTopics ∨
      ∃ key tokens, c.subscribedTopics.lookup key = some tokens ∧
        Cut Levels tokens (tokenizeTopic topic)) := by
  obtain ⟨hconnected, hmem | hwildcard⟩ := selected_iff.mp h
  · exact ⟨hconnected, Or.inl hmem⟩
  · exact ⟨hconnected, Or.inr (checkWildcardTopic_sound hwildcard)⟩

theorem recipients_nodup : (recipients topic (env.iterate s.clients)).Nodup := by
  have hentries : (env.iterate s.clients).Nodup :=
    (env.iterate_perm s.clients).nodup_iff.mpr s.clients.nodupKeys.nodup
  exact hentries.filter _

theorem recipients_ids_nodup :
    ((recipients topic (env.iterate s.clients)).map Sigma.fst).Nodup := by
  refine List.Nodup.map_on ?_ recipients_nodup
  intro x hx y hy heq
  have hclient := (mem_recipients.mp hx).1
  rw [heq, (mem_recipients.mp hy).1, Option.some.injEq] at hclient
  exact Sigma.ext heq (heq_of_eq hclient.symm)

/-- A recipient holds the descriptor its copy is written to. -/
theorem recipient_holds {entry : Entry} (h : entry ∈ recipients topic (env.iterate s.clients)) :
    holder s entry.1 = some entry.2.currFd := by
  obtain ⟨hclient, hselected⟩ := mem_recipients.mp h
  exact holder_eq_some.mpr ⟨entry.2, hclient, (selected_iff.mp hselected).1, rfl⟩

theorem recipients_fds_nodup (hc : Consistent s) :
    ((recipients topic (env.iterate s.clients)).map fun entry => entry.2.currFd).Nodup := by
  refine List.Nodup.map_on ?_ recipients_nodup
  intro x hx y hy heq
  have hid : x.1 = y.1 :=
    hc.leased.exclusive x.1 y.1 _ (recipient_holds hx) (heq ▸ recipient_holds hy)
  have hclient := (mem_recipients.mp hx).1
  rw [hid, (mem_recipients.mp hy).1, Option.some.injEq] at hclient
  exact Sigma.ext hid (heq_of_eq hclient.symm)

theorem recipient_open (hc : Consistent s) {entry : Entry}
    (h : entry ∈ recipients topic (env.iterate s.clients)) : entry.2.currFd ∈ s.clientFds :=
  (hc.leased.mem_iff _).mpr ⟨entry.1, recipient_holds h⟩

end Recipients

section Scenario

def audience : Server :=
  ((enrol (enrol (Server.prepare 3 4) (ascii "a") 5) (ascii "b") 6).setClient (ascii "a")
    ⟨5, true, AList.insert (ascii "t") [ascii "t"] ∅⟩).setClient (ascii "b")
    ⟨6, true, AList.insert (ascii "*") [ascii "*"] ∅⟩

theorem reachable_audience : Reachable audience :=
  reachable_of_run 3 4
    [(Env.plain, .connect ⟨(127, 0, 0, 1), 1⟩ 5 connectA),
      (Env.plain, .connect ⟨(127, 0, 0, 1), 2⟩ 6 connectB),
      (Env.plain, .frame 0 5 subscribeT),
      (Env.plain, .frame 1 6 (Frame.ofText subscribeReq (ascii "*") (by decide)))]
    (by rfl) (by decide)

def seven : Datagram :=
  ⟨⟨(127, 0, 0, 1), 9⟩, ascii "t" ++ List.replicate 49 0 ++ [0, 0, 0, 0, 0, 7]⟩

def sevenText : Bytes := ascii "127.0.0.1:9 - t - INT - 7"

set_option maxRecDepth 4000 in
theorem formattedMsg_seven : formattedMsg seven = .ok (ascii "t", some sevenText) := by rfl

end Scenario

section Sound

/-- A publication goes once to each of some connected clients on the descriptors
they hold, always as the same frame, only for a subscription that is the topic or
matches it level by level, and it changes no table. -/
theorem delivery_sound {s : Server} (h : Reachable s) {env : Env} (hsends : env.Sends)
    {d : Datagram} {topic : Topic} {text : Bytes}
    (hformat : formattedMsg d = .ok (topic, some text)) :
    ∃ receivers : List Entry,
      sendMsgIfSubscribed env s topic text = ⟨receivers.map fun entry => .wrote entry.2.currFd
        (9 :: (bigEndian (UInt16.ofNat (text.length + 1)) ++ (text ++ [0]))), .ok s⟩ ∧
      cString (some (text ++ [0])) = .ok text ∧
      (UInt16.ofNat (text.length + 1)).toNat = text.length + 1 ∧
      (receivers.map Sigma.fst).Nodup ∧ (receivers.map fun entry => entry.2.currFd).Nodup ∧
      ∀ entry ∈ receivers, s.client entry.1 = some entry.2 ∧ entry.2.isConnected = true ∧
        entry.2.currFd ∈ s.clientFds ∧ entry.2.currFd ≠ -1 ∧
        (topic ∈ entry.2.subscribedTopics ∨
          ∃ key tokens, entry.2.subscribedTopics.lookup key = some tokens ∧
            Cut Levels tokens (tokenizeTopic topic)) := by
  have hc := h.consistent
  obtain ⟨-, hfree, hlength⟩ := formattedMsg_text hformat
  refine ⟨recipients topic (env.iterate s.clients), ?_, cString_append_nul text [] hfree,
    UInt16.toNat_ofNat_of_lt' hlength, recipients_ids_nodup, recipients_fds_nodup hc, ?_⟩
  · exact (sendMsgIfSubscribed_eq_ok hlength).mpr
      ⟨fun entry _ => delivers_of_sends hsends _ _, rfl, rfl⟩
  · intro entry hentry
    obtain ⟨hclient, hselected⟩ := mem_recipients.mp hentry
    obtain ⟨hconnected, hmatch⟩ := selected_sound hselected
    have hopen := recipient_open hc hentry
    have hnonneg := hc.nonneg _ hopen
    exact ⟨hclient, hconnected, hopen, by omega, hmatch⟩

theorem delivery_sound_audience : ∃ receivers : List Entry,
    receivers.map (fun entry => entry.2.currFd) = [6, 5] ∧
    sendMsgIfSubscribed Env.plain audience (ascii "t") sevenText =
      ⟨receivers.map fun entry => .wrote entry.2.currFd (9 :: 0 :: 26 :: (sevenText ++ [0])),
        .ok audience⟩ ∧ (receivers.map fun entry => entry.2.currFd).Nodup := by
  obtain ⟨receivers, hsend, -, -, -, hnodup, -⟩ :=
    delivery_sound reachable_audience Env.plain_sends formattedMsg_seven
  have hwritten : (sendMsgIfSubscribed Env.plain audience (ascii "t") sevenText).effects =
      [6, 5].map fun fd => .wrote fd (9 :: 0 :: 26 :: (sevenText ++ [0])) := by rfl
  have hinjective : Function.Injective
      fun fd => Effect.wrote fd (9 :: 0 :: 26 :: (sevenText ++ [0])) :=
    fun fd fd' heq => (Effect.wrote.inj heq).1
  refine ⟨receivers, hinjective.list_map ?_, hsend, hnodup⟩
  rw [List.map_map, ← hwritten, hsend]
  rfl

end Sound

section Failures

variable {env : Env} {s : Server} {topic : Topic} {f : Frame}

/-- The fan-out loop stops at the first recipient whose send fails. -/
theorem fanOut_until_failure {entries before after : List Entry} {entry : Entry}
    (hsplit : recipients topic entries = before ++ entry :: after)
    (hbefore : ∀ e ∈ before, Delivers env e.2.currFd f)
    (hfails : ¬ Delivers env entry.2.currFd f) :
    ∃ part, part <+: f.encode ∧ part ≠ f.encode ∧
      fanOut env topic entries f.message =
        ⟨copies f before ++ [.wrote entry.2.currFd part], .error .die⟩ := by
  induction entries generalizing before with
  | nil => simp [recipients] at hsplit
  | cons first rest ih =>
    by_cases hselected : selected topic first.2 = true
    · have hcons : recipients topic (first :: rest) = first :: recipients topic rest := by
        simp [recipients, hselected]
      rw [hcons] at hsplit
      cases before with
      | nil =>
        rw [List.nil_append, List.cons.injEq] at hsplit
        obtain ⟨rfl, -⟩ := hsplit
        exact fanOut_fails hselected hfails rest
      | cons head before =>
        rw [List.cons_append, List.cons.injEq] at hsplit
        obtain ⟨rfl, hrest⟩ := hsplit
        obtain ⟨part, hinit, hne, hfan⟩ :=
          ih hrest fun e he => hbefore e (List.mem_cons_of_mem first he)
        refine ⟨part, hinit, hne, ?_⟩
        rw [fanOut_delivers hselected (hbefore first List.mem_cons_self), hfan]
        rfl
    · rw [Bool.not_eq_true] at hselected
      have hcons : recipients topic (first :: rest) = recipients topic rest := by
        simp [recipients, hselected]
      rw [fanOut_skip hselected]
      exact ih (hcons ▸ hsplit) hbefore

/-- An accepted datagram whose text fits the buffer is handed to the fan-out loop. -/
theorem manageUdpMessage_accepted {d : Datagram} {text : Bytes}
    (hformat : formattedMsg d = .ok (topic, some text)) (hfits : text.length + 1 ≤ maxUdpMsg) :
    manageUdpMessage env s (some d) = sendMsgIfSubscribed env s topic text := by
  simp only [manageUdpMessage, hformat, Except.mapError, Outcome.ofExcept, pure_bind, hfits, if_true]

/-- A failed recv ends the process before anything is written or changed. -/
theorem serveClient_recv_failed {env : Env} {s : Server} {sock : Socket} (it : ℕ) (fd : Int)
    (hrc : (recvEfficient sock TcpMessage.zero).rc < 0) :
    serveClient env s it fd sock = ⟨[], .error .die⟩ := by
  have hdie : die (decide ((recvEfficient sock TcpMessage.zero).rc < 0)) = Outcome.stop .die := by
    simp [die, Outcome.stopIf, hrc]
  simp only [serveClient, hdie, Outcome.stop_bind]
  rfl

/-- The descriptors of all recipients differ, so copies for the first ones and a part
for the next are not on the descriptor of a later one. -/
theorem later_unwritten {env : Env} {s : Server} (h : Consistent s) {topic : Topic} {f : Frame}
    {before after : List Entry} {entry e : Entry} {part wire : Bytes}
    (hsplit : recipients topic (env.iterate s.clients) = before ++ entry :: after) (he : e ∈ after) :
    .wrote e.2.currFd wire ∉ copies f before ++ [.wrote entry.2.currFd part] := by
  have hnodup : ((recipients topic (env.iterate s.clients)).map fun e => e.2.currFd).Nodup :=
    recipients_fds_nodup h
  rw [hsplit, List.map_append, List.map_cons, List.nodup_append] at hnodup
  obtain ⟨-, hlater, hdisjoint⟩ := hnodup
  have hmem : e.2.currFd ∈ after.map fun e => e.2.currFd := List.mem_map_of_mem he
  intro hwrote
  rw [List.mem_append, List.mem_singleton] at hwrote
  rcases hwrote with hcopy | hpart
  · obtain ⟨e', he', heq⟩ := List.mem_map.mp hcopy
    rw [Effect.wrote.injEq] at heq
    exact hdisjoint _ (List.mem_map_of_mem he') _ (List.mem_cons_of_mem _ hmem) heq.1
  · rw [Effect.wrote.injEq] at hpart
    exact (List.nodup_cons.mp hlater).1 (hpart.1 ▸ hmem)

/-- A datagram reaches its recipients up to the first one whose send fails. That
one is left with a strict prefix of the frame, the later ones with nothing, and
the server ends; if no send fails all have the frame and the server goes on. A
recv that fails ends the server before it has touched its tables. -/
theorem published_until_failure {s : Server} (h : Reachable s) (env : Env) {d : Datagram}
    {topic : Topic} {text : Bytes} (hformat : formattedMsg d = .ok (topic, some text))
    (hfits : text.length + 1 ≤ maxUdpMsg) :
    ((∀ e ∈ recipients topic (env.iterate s.clients),
        Delivers env e.2.currFd (publicationFrame text (formattedMsg_text hformat).2.2)) →
      manageUdpMessage env s (some d) =
        ⟨copies (publicationFrame text (formattedMsg_text hformat).2.2)
          (recipients topic (env.iterate s.clients)), .ok s⟩) ∧
    (∀ before entry after, recipients topic (env.iterate s.clients) = before ++ entry :: after →
      (∀ e ∈ before,
        Delivers env e.2.currFd (publicationFrame text (formattedMsg_text hformat).2.2)) →
      ¬ Delivers env entry.2.currFd (publicationFrame text (formattedMsg_text hformat).2.2) →
      ∃ part, part <+: (publicationFrame text (formattedMsg_text hformat).2.2).encode ∧
        part ≠ (publicationFrame text (formattedMsg_text hformat).2.2).encode ∧
        manageUdpMessage env s (some d) =
          ⟨copies (publicationFrame text (formattedMsg_text hformat).2.2) before ++
            [.wrote entry.2.currFd part], .error .die⟩ ∧
        ∀ e ∈ after, ∀ wire,
          .wrote e.2.currFd wire ∉ (manageUdpMessage env s (some d)).effects) ∧
    ∀ (it : ℕ) (fd : Int) (sock : Socket), (recvEfficient sock TcpMessage.zero).rc < 0 →
      serveClient env s it fd sock = ⟨[], .error .die⟩ := by
  have hlength := (formattedMsg_text hformat).2.2
  have hact : manageUdpMessage env s (some d) = sendMsgIfSubscribed env s topic text :=
    manageUdpMessage_accepted hformat hfits
  refine ⟨?_, ?_, ?_⟩
  · intro hall
    rw [hact]
    exact (sendMsgIfSubscribed_eq_ok hlength).mpr ⟨hall, rfl, rfl⟩
  · intro before entry after hsplit hbefore hfails
    obtain ⟨part, hinit, hne, hfan⟩ := fanOut_until_failure hsplit hbefore hfails
    have hend : manageUdpMessage env s (some d) =
        ⟨copies (publicationFrame text hlength) before ++ [.wrote entry.2.currFd part],
          .error .die⟩ := by
      rw [hact, sendMsgIfSubscribed, ← publicationFrame_message text hlength, hfan]
      rfl
    refine ⟨part, hinit, hne, hend, ?_⟩
    intro e he wire
    rw [hend]
    exact later_unwritten h.consistent hsplit he
  · intro it fd sock hrc
    exact serveClient_recv_failed it fd hrc

/-- The sends on one descriptor fail after the command byte. -/
def Env.failing (broken : Int) : Env :=
  { Env.plain with sends := fun fd => if fd = broken then [.moved 1, .failed] else [] }

theorem published_until_failure_audience : ∃ part,
    part <+: (publicationFrame sevenText (by decide)).encode ∧
      manageUdpMessage (Env.failing 5) audience (some seven) =
        ⟨[.wrote 6 (publicationFrame sevenText (by decide)).encode, .wrote 5 part], .error .die⟩ := by
  obtain ⟨-, hfailure, -⟩ := published_until_failure reachable_audience (Env.failing 5)
    formattedMsg_seven (by decide)
  obtain ⟨part, hinit, -, hend, -⟩ := hfailure
    [⟨ascii "b", ⟨6, true, AList.insert (ascii "*") [ascii "*"] ∅⟩⟩]
    ⟨ascii "a", ⟨5, true, AList.insert (ascii "t") [ascii "t"] ∅⟩⟩ [] (by rfl) (by decide)
    (by decide)
  exact ⟨part, hinit, hend⟩

set_option maxRecDepth 4000 in
/-- With the first client in the map's order gone, the server ends before the second
one has its copy. -/
theorem gone_client_ends_server : Reachable audience ∧
    manageUdpMessage Env.plain audience (some seven) =
      ⟨[.wrote 6 (9 :: 0 :: 26 :: (sevenText ++ [0])),
        .wrote 5 (9 :: 0 :: 26 :: (sevenText ++ [0]))], .ok audience⟩ ∧
    manageUdpMessage (Env.failing 6) audience (some seven) =
      ⟨[.wrote 6 [9]], .error .die⟩ :=
  ⟨reachable_audience, by rfl, by rfl⟩

end Failures

end ServerClientApp.Delivery
