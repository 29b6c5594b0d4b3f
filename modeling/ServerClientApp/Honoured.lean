import ServerClientApp.Delivery
import ServerClientApp.Ledger
import ServerClientApp.SubscriberSpecs

/-!
A subscription from the line typed at the subscriber to the datagrams it is for.
The word goes through strtok and a frame with a length on one side and through a
field of 50 bytes on the other, and the key is the same. It is kept over sessions
until it is taken back.
-/

namespace ServerClientApp.Honoured

open PartialTransfers Outcomes Runs Protocols Wildcards Datagrams ServerHandlers HandlerSpecs
  ServerRuns Ledger Delivery SubscriberHandlers SubscriberSpecs

section Words

/-- What can be typed as a topic: 1 to 50 bytes, none of them NUL, space or newline. -/
structure Word (w : Bytes) : Prop where
  nonempty : w ≠ []
  short : w.length ≤ 50
  nulFree : (0 : UInt8) ∉ w
  noSpace : (32 : UInt8) ∉ w
  noNewline : (10 : UInt8) ∉ w

theorem Word.fits {w : Bytes} (h : Word w) : w.length + 1 < 2 ^ 16 := by
  have := h.short
  omega

theorem Word.request {w : Bytes} (h : Word w) :
    manageStdinData (ascii "subscribe " ++ w) = .request subscribeReq w :=
  manageStdinData_subscribe h.nonempty h.short h.nulFree h.noSpace h.noNewline

/-- The word padded with NUL bytes to the length of the field is read as the word. -/
theorem topicField_padded {w tail : Bytes} {d : Datagram} (h : Word w)
    (hbytes : d.bytes = w ++ List.replicate (50 - w.length) 0 ++ tail) : topicField d = w := by
  have hfield : (udpBuffer d).take 50 = w ++ List.replicate (50 - w.length) 0 := by
    have hlength : (w ++ List.replicate (50 - w.length) (0 : UInt8)).length = 50 := by
      have := h.short
      rw [List.length_append, List.length_replicate]
      omega
    rw [udpBuffer, List.take_take, min_eq_left (by decide), hbytes, List.append_assoc _ tail,
      List.take_left' hlength]
  have hword : ∀ b ∈ w, (decide (b ≠ 0)) = true := fun b hb =>
    decide_eq_true fun hzero => h.nulFree (hzero ▸ hb)
  rw [topicField, hfield, List.takeWhile_append_of_pos hword, List.takeWhile_replicate,
    if_neg (by decide), List.append_nil]

end Words

section Keeping

def Keeps (id : ClientId) (topic : Topic) (s : Server) (i : Env × Event) : Prop :=
  ∀ fd ∈ holder s id, deed i.2 ≠ .ask fd (.unsubscribe topic)

instance (id : ClientId) (topic : Topic) (s : Server) (i : Env × Event) :
    Decidable (Keeps id topic s i) :=
  inferInstanceAs (Decidable (∀ fd ∈ holder s id, deed i.2 ≠ .ask fd (.unsubscribe topic)))

/-- A deed adds to the account of an id at most the request made on its descriptor. -/
theorem next_requests (b : Book) (d : Deed) (id : ClientId) :
    (b.next d).requests id = b.requests id ∨
      ∃ fd request, d = .ask fd request ∧ b.holder id = some fd ∧
        (b.next d).requests id = b.requests id ++ [request] := by
  cases d with
  | connect id' fd =>
    left
    dsimp only [Book.next]
    split_ifs <;> rfl
  | leave | other => exact Or.inl rfl
  | ask fd request =>
    by_cases hheld : b.holder id = some fd
    · exact Or.inr ⟨fd, request, rfl, hheld, if_pos hheld⟩
    · exact Or.inl (if_neg hheld)

variable {id : ClientId} {topic : Topic} {s s' : Server} {out : List Effect} {b : Book}
  {i : Env × Event}

theorem subscribed_step (h : Kept s b) (hmem : topic ∈ topicSet s id) (hlawful : Lawful s i)
    (hkeeps : Keeps id topic s i) (hstep : step s i = some (s', out)) : topic ∈ topicSet s' id := by
  rw [(kept_step h hlawful hstep).topics]
  rcases next_requests b (deed i.2) id with heq | ⟨fd, request, hdeed, hheld, heq⟩
  · rwa [heq, ← h.topics]
  · rw [heq, List.foldl_append, ← h.topics]
    cases request with
    | subscribe other => exact Finset.mem_insert_of_mem hmem
    | unsubscribe other =>
      refine Finset.mem_erase.mpr ⟨?_, hmem⟩
      intro hsame
      exact hkeeps fd (by rw [h.holder, hheld]; rfl) (hsame ▸ hdeed)

/-- Until the client takes it back a subscription stays, over all its sessions. -/
theorem subscribed_run {is : List (Env × Event)} (h : Kept s b) (hmem : topic ∈ topicSet s id)
    (hlawful : Along step Lawful s is) (hkeeps : Along step (Keeps id topic) s is)
    (hrun : exec step s is = some (s', out)) : (∃ b', Kept s' b') ∧ topic ∈ topicSet s' id := by
  refine exec_invariant (I := fun s => (∃ b, Kept s b) ∧ topic ∈ topicSet s id) ?_ ⟨⟨b, h⟩, hmem⟩
    (hlawful.and hkeeps) hrun
  rintro s i s' out ⟨⟨b, h⟩, hmem⟩ ⟨hlawful, hkeeps⟩ hstep
  exact ⟨⟨_, kept_step h hlawful hstep⟩, subscribed_step h hmem hlawful hkeeps hstep⟩

end Keeping

section Honouring

variable {env : Env} {id : ClientId} {s s' : Server} {out : List Effect} {b : Book}

/-- The frame of a request that is read whole is processed as that request. -/
theorem subscribe_processed {w : Bytes} (hw : Word w) {k : ℕ} {fd : Int} {rest : Bytes}
    {calls : List Call} (h : Kept s b) (hheld : holder s id = some fd)
    (hstep : step s (env, .readable k fd
      ⟨(Frame.ofText subscribeReq w hw.fits).encode ++ rest, calls⟩) = some (s', out)) :
    (∃ b', Kept s' b') ∧ topicSet s' id = insert w (topicSet s id) := by
  have hframe := Frame.message_ofText subscribeReq w hw.fits
  obtain ⟨later, hread⟩ := frame_read hstep
  rw [hframe] at hread
  have hrequest : requestOf (TcpMessage.ofText subscribeReq w) = some (.subscribe w) := by
    simp [requestOf, TcpMessage.ofText, cString_append_nul w [] hw.nulFree]
  have hlawful : Lawful s (env, .readable k fd
      ⟨(Frame.ofText subscribeReq w hw.fits).encode ++ rest, calls⟩) :=
    ⟨trivial, fun _ => by rw [hread, hrequest]; rfl⟩
  obtain ⟨id', hheld', -, htopics, -⟩ := request_step h.consistent
    (by rw [hread]; exact hrequest) (by rw [hread]; dsimp only; omega) hstep
  obtain rfl := h.consistent.leased.exclusive id id' fd hheld hheld'
  exact ⟨⟨_, kept_step h hlawful hstep⟩, htopics⟩

/-- A client that holds the topic as a key gets one copy, whatever else matches. -/
theorem one_copy (env : Env) {topic : Topic} {fd : Int} (hc : Consistent s)
    (hmem : topic ∈ topicSet s id) (hheld : holder s id = some fd) (f : Frame) :
    (copies f (recipients topic (env.iterate s.clients))).count (.wrote fd f.encode) = 1 ∧
      ∀ wire, .wrote fd wire ∈ copies f (recipients topic (env.iterate s.clients)) →
        wire = f.encode := by
  obtain ⟨c, hclient, hconnected, rfl⟩ := holder_eq_some.mp hheld
  have hkey : topic ∈ c.subscribedTopics := by
    rwa [mem_topicSet, Server.topicsOf, hclient, Option.elim_some] at hmem
  have hrecipient : (⟨id, c⟩ : Entry) ∈ recipients topic (env.iterate s.clients) :=
    mem_recipients.mpr ⟨hclient, selected_iff.mpr ⟨hconnected, Or.inl hkey⟩⟩
  have hnodup : (copies f (recipients topic (env.iterate s.clients))).Nodup := by
    have hfds : ((recipients topic (env.iterate s.clients)).map fun e => e.2.currFd).Nodup :=
      recipients_fds_nodup hc
    have heq : copies f (recipients topic (env.iterate s.clients)) =
        ((recipients topic (env.iterate s.clients)).map fun entry => entry.2.currFd).map
          fun fd => .wrote fd f.encode := by
      rw [copies, List.map_map]
      rfl
    rw [heq]
    exact hfds.map fun fd fd' heq => (Effect.wrote.inj heq).1
  refine ⟨List.count_eq_one_of_mem hnodup (List.mem_map.mpr ⟨_, hrecipient, rfl⟩), ?_⟩
  intro wire hwire
  obtain ⟨entry, -, heq⟩ := List.mem_map.mp hwire
  exact (Effect.wrote.inj heq).2.symm

/-- The subscriber makes a request of the typed word, and the server stores the word
itself as the key. From then on, over any events, disconnections and reconnections
and until the client takes it back, each accepted datagram with the padded word in
its topic field is sent once to the client while it is connected. -/
theorem subscription_honoured {w : Bytes} (hw : Word w) {sent : Env} {sockfd : Int} {wire : Bytes}
    (hsent : sendRequest sent sockfd subscribeReq w = ⟨[.wrote sockfd wire], .ok ()⟩)
    {udpSockfd tcpSockfd : Int} {is : List (Env × Event)} {s₀ : Server} {out₀ : List Effect}
    (hbefore : Along step Lawful (Server.prepare udpSockfd tcpSockfd) is)
    (hrun₀ : exec step (Server.prepare udpSockfd tcpSockfd) is = some (s₀, out₀))
    {id : ClientId} {asked : Env} {k : ℕ} {fd : Int} {rest : Bytes} {calls : List Call}
    {s₁ : Server} {out₁ : List Effect} (hheld : holder s₀ id = some fd)
    (hasked : step s₀ (asked, .readable k fd ⟨wire ++ rest, calls⟩) = some (s₁, out₁))
    {js : List (Env × Event)} {s : Server} {out₂ : List Effect} (hafter : Along step Lawful s₁ js)
    (hkeeps : Along step (Keeps id w) s₁ js) (hrun₁ : exec step s₁ js = some (s, out₂)) :
    manageStdinData (ascii "subscribe " ++ w) = .request subscribeReq w ∧
    topicSet s₁ id = insert w (topicSet s₀ id) ∧
    (s.topicsOf id).lookup w = some (tokenizeTopic w) ∧
    ∀ (env : Env) (d : Datagram) (tail text : Bytes) (topic : Topic)
      (hformat : formattedMsg d = .ok (topic, some text)) (fd' : Int), env.Sends →
      d.bytes = w ++ List.replicate (50 - w.length) 0 ++ tail → text.length + 1 ≤ maxUdpMsg →
      holder s id = some fd' →
      ∃ out, step s (env, .datagram (some d)) = some (s, out) ∧
        out.count (.wrote fd' (publicationFrame text (formattedMsg_text hformat).2.2).encode) = 1 ∧
        ∀ wire', .wrote fd' wire' ∈ out →
          wire' = (publicationFrame text (formattedMsg_text hformat).2.2).encode := by
  have hframe : wire = (Frame.ofText subscribeReq w hw.fits).encode := by
    obtain ⟨-, heq⟩ := (sendRequest_eq_ok hw.fits).mp hsent
    exact (Effect.wrote.inj (List.cons.inj heq).1).2
  subst hframe
  obtain ⟨⟨b, hkept⟩, htopics⟩ := subscribe_processed hw (kept_run hbefore hrun₀) hheld hasked
  have hstored : w ∈ topicSet s₁ id := htopics ▸ Finset.mem_insert_self w _
  obtain ⟨⟨b', hkept'⟩, hmem⟩ := subscribed_run hkept hstored hafter hkeeps hrun₁
  refine ⟨hw.request, htopics, ?_, ?_⟩
  · obtain ⟨tokens, hlookup⟩ :=
      Option.isSome_iff_exists.mp (AList.lookup_isSome.mpr (mem_topicSet.mp hmem))
    rw [hlookup, hkept'.tokens id w tokens hlookup]
  · intro env d tail text topic hformat fd' hsends hbytes hfits hfd'
    obtain ⟨rfl, -, hlength⟩ := formattedMsg_text hformat
    rw [topicField_padded hw hbytes] at hformat
    obtain ⟨hcount, honly⟩ := one_copy env hkept'.consistent hmem hfd'
      (publicationFrame text hlength)
    refine ⟨_, Outcome.toStep_eq_some.mpr ?_, hcount, honly⟩
    rw [manageUdpMessage_accepted hformat hfits]
    exact (sendMsgIfSubscribed_eq_ok hlength).mpr
      ⟨fun entry _ => delivers_of_sends hsends _ _, rfl, rfl⟩

/-- The client a before and after its request for t, and after it has come back. -/
def newcomer : Server := enrol (Server.prepare 3 4) (ascii "a") 5

def subscribed : Server :=
  newcomer.setClient (ascii "a") ⟨5, true, AList.insert (ascii "t") [ascii "t"] ∅⟩

def returned : Server :=
  enrol (dismiss subscribed (ascii "a") ⟨5, true, AList.insert (ascii "t") [ascii "t"] ∅⟩ 3)
    (ascii "a") 6

def arrival : List (Env × Event) :=
  [(Env.plain, .connect ⟨(127, 0, 0, 1), 1⟩ 5 connectA)]

def comeback : List (Env × Event) :=
  [(Env.plain, .hangUp 0 5),
    (Env.plain, .connect ⟨(127, 0, 0, 1), 2⟩ 6 connectA)]

set_option maxRecDepth 4000 in
theorem subscription_honoured_returned : ∃ out,
    step returned (Env.plain, .datagram (some seven)) = some (returned, out) ∧
      out.count (.wrote 6 (9 :: 0 :: 26 :: (sevenText ++ [0]))) = 1 := by
  have hword : Word (ascii "t") :=
    ⟨by decide, by decide, by decide, by decide, by decide⟩
  obtain ⟨-, -, -, hdatagram⟩ := subscription_honoured hword
    (by rfl : sendRequest Env.plain 3 subscribeReq (ascii "t") =
      ⟨[.wrote 3 subscribeT.encode], .ok ()⟩)
    (by decide) (by rfl : exec step (Server.prepare 3 4) arrival = some (newcomer, _))
    (by rfl : holder newcomer (ascii "a") = some 5)
    (by rfl : step newcomer (Env.plain, .readable 0 5 ⟨subscribeT.encode ++ [], []⟩) =
      some (subscribed, _))
    (by decide) (by decide) (by rfl : exec step subscribed comeback = some (returned, _))
  obtain ⟨out, hstep, hcount, -⟩ := hdatagram Env.plain seven [0, 0, 0, 0, 0, 7] sevenText
    (ascii "t") formattedMsg_seven 6 Env.plain_sends (by rfl) (by decide) (by rfl)
  exact ⟨out, hstep, hcount⟩

end Honouring

end ServerClientApp.Honoured
