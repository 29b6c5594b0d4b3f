import ServerClientApp.Delivery

/-!
The order of the client map. unordered_map is iterated in an order of its own, which
may be another one each time, and send splits a message as it likes. Neither can be
seen from outside as long as the sends go through: the tables are the same, and so is
what is written on each descriptor, closed and printed, in its order.
-/

namespace ServerClientApp.IterationOrder

open PartialTransfers Outcomes Runs Protocols Wildcards Datagrams ServerHandlers HandlerSpecs
  ServerRuns Delivery

section Views

/-- What is seen by one who looks at a descriptor, the open descriptors and the terminal. -/
def seenAt (fd : Int) : Effect → Bool
  | .wrote fd' _ => fd' = fd
  | .closed _ | .printed _ | .complained _ => true

def Alike (out out' : List Effect) : Prop := ∀ fd, out.filter (seenAt fd) = out'.filter (seenAt fd)

variable {out out' later later' : List Effect}

theorem alike_refl (out : List Effect) : Alike out out := fun _ => rfl

theorem Alike.append (h : Alike out out') (hlater : Alike later later') :
    Alike (out ++ later) (out' ++ later') := by
  intro fd
  rw [List.filter_append, List.filter_append, h fd, hlater fd]

/-- Copies of one frame in another order look the same at each descriptor. -/
theorem alike_copies (f : Frame) {entries entries' : List Entry} (h : entries.Perm entries') :
    Alike (copies f entries) (copies f entries') := by
  intro fd
  have hperm : ((copies f entries).filter (seenAt fd)).Perm
      ((copies f entries').filter (seenAt fd)) := (h.map _).filter _
  have hsame (receivers : List Entry) :
      ∀ e ∈ (copies f receivers).filter (seenAt fd), e = .wrote fd f.encode := by
    intro e he
    obtain ⟨hmem, hseen⟩ := List.mem_filter.mp he
    obtain ⟨entry, -, rfl⟩ := List.mem_map.mp hmem
    simp only [seenAt, decide_eq_true_eq] at hseen
    rw [hseen]
  rw [List.eq_replicate_of_mem (hsame entries), List.eq_replicate_of_mem (hsame entries'),
    hperm.length_eq]

end Views

section Steps

variable {env env' : Env} {s t t' : Server} {out out' : List Effect} {fd : Int}

theorem getClientFromFd_alike (h : Consistent s) (env env' : Env) (hmem : fd ∈ s.clientFds) :
    getClientFromFd env s fd = getClientFromFd env' s fd := by
  obtain ⟨id, c, hentry, hc, hmark, hfd⟩ := h.getClientFromFd env hmem
  obtain ⟨id', c', hentry', hc', hmark', hfd'⟩ := h.getClientFromFd env' hmem
  have hid : id = id' := h.leased.exclusive id id' fd
    (holder_eq_some.mpr ⟨c, hc, hmark, hfd⟩) (holder_eq_some.mpr ⟨c', hc', hmark', hfd'⟩)
  subst hid
  rw [hc, Option.some.injEq] at hc'
  rw [hentry, hentry', hc']

theorem manageUdpMessage_alike {d : Datagram} (h : manageUdpMessage env s (some d) = ⟨out, .ok t⟩)
    (h' : manageUdpMessage env' s (some d) = ⟨out', .ok t'⟩) : t = t' ∧ Alike out out' := by
  obtain ⟨hs, hcases⟩ := manageUdpMessage_ok h
  obtain ⟨hs', hcases'⟩ := manageUdpMessage_ok h'
  refine ⟨hs.trans hs'.symm, ?_⟩
  rcases hcases with ⟨topic, line, hformat, -⟩ | ⟨topic, text, hformat, -, hsend⟩
  · have hsame : (⟨out, .ok t⟩ : Act Server) = ⟨out', .ok t'⟩ := by
      rw [← h, ← h']
      simp only [manageUdpMessage, hformat, Except.mapError, Outcome.ofExcept, pure_bind]
    rw [(Outcome.mk.inj hsame).1]
    exact alike_refl out'
  · rcases hcases' with ⟨topic', line, hformat', -⟩ | ⟨topic', text', hformat', -, hsend'⟩
    · simp [hformat] at hformat'
    · simp only [hformat, Except.ok.injEq, Prod.mk.injEq, Option.some.injEq] at hformat'
      obtain ⟨rfl, rfl⟩ := hformat'
      have hshort : text.length + 1 < 2 ^ 16 := (formattedMsg_text hformat).2.2
      obtain ⟨-, rfl, -⟩ := (sendMsgIfSubscribed_eq_ok hshort).mp hsend
      obtain ⟨-, rfl, -⟩ := (sendMsgIfSubscribed_eq_ok hshort).mp hsend'
      exact alike_copies _
        (((env.iterate_perm s.clients).trans (env'.iterate_perm s.clients).symm).filter _)

theorem manageConnectionRequest_alike {addr : SockAddr} {sock : Socket}
    (h : manageConnectionRequest env s addr fd sock = ⟨out, .ok t⟩)
    (h' : manageConnectionRequest env' s addr fd sock = ⟨out', .ok t'⟩) :
    t = t' ∧ out = out' := by
  obtain ⟨-, -, id, hid, hanswer⟩ := manageConnectionRequest_eq_ok.mp h
  obtain ⟨-, -, id', hid', hanswer'⟩ := manageConnectionRequest_eq_ok.mp h'
  rw [hid, Except.ok.injEq] at hid'
  subst hid'
  rcases admitOrDecline_eq_ok.mp hanswer with ⟨hconnected, -, rfl, rfl⟩ | ⟨hidle, -, rfl, rfl⟩
  · rcases admitOrDecline_eq_ok.mp hanswer' with ⟨-, -, rfl, rfl⟩ | ⟨hidle, -⟩
    · exact ⟨rfl, rfl⟩
    · exact absurd hconnected hidle
  · rcases admitOrDecline_eq_ok.mp hanswer' with ⟨hconnected, -⟩ | ⟨-, -, rfl, rfl⟩
    · exact absurd hconnected hidle
    · exact ⟨rfl, rfl⟩

/-- The answer to a request and the tables after it, for any order. -/
theorem request_answer {msg : TcpMessage} {topic : Topic} {entry : Entry}
    (hstring : cString msg.payload = .ok topic) : ∃ answer s₁, ∀ env,
      getClientFromFd env s fd = some entry → manageSubscribeUnsubscribe env s fd msg =
        (sendAnswer env fd answer >>= fun _ => (⟨[], .ok s₁⟩ : Act Server)) := by
  obtain ⟨id, c⟩ := entry
  have hunfold (env : Env) (hentry : getClientFromFd env s fd = some ⟨id, c⟩) :
      manageSubscribeUnsubscribe env s fd msg = (if msg.command = subscribeReq then
        if topic ∈ c.subscribedTopics then sendAnswer env fd subscribeFail >>= fun _ => pure s
        else sendAnswer env fd subscribeSucc >>= fun _ => pure (s.setClient id { c with
          subscribedTopics := c.subscribedTopics.insert topic (tokenizeTopic topic) })
      else
        if topic ∈ c.subscribedTopics then
          sendAnswer env fd unsubscribeSucc >>= fun _ => pure (s.setClient id { c with
            subscribedTopics := c.subscribedTopics.erase topic })
        else sendAnswer env fd unsubscribeFail >>= fun _ => pure s) := by
    simp only [manageSubscribeUnsubscribe, hstring, hentry, Except.mapError, Outcome.ofExcept,
      pure_bind]
  by_cases hcommand : msg.command = subscribeReq
  · by_cases hmem : topic ∈ c.subscribedTopics
    · refine ⟨subscribeFail, s, fun env hentry => ?_⟩
      rw [hunfold env hentry, if_pos hcommand, if_pos hmem]
      rfl
    · refine ⟨subscribeSucc, s.setClient id { c with
        subscribedTopics := c.subscribedTopics.insert topic (tokenizeTopic topic) },
        fun env hentry => ?_⟩
      rw [hunfold env hentry, if_pos hcommand, if_neg hmem]
      rfl
  · by_cases hmem : topic ∈ c.subscribedTopics
    · refine ⟨unsubscribeSucc, s.setClient id { c with
        subscribedTopics := c.subscribedTopics.erase topic }, fun env hentry => ?_⟩
      rw [hunfold env hentry, if_neg hcommand, if_pos hmem]
      rfl
    · refine ⟨unsubscribeFail, s, fun env hentry => ?_⟩
      rw [hunfold env hentry, if_neg hcommand, if_neg hmem]
      rfl

theorem serveClient_alike (h : Consistent s) (hmem : fd ∈ s.clientFds) {it : ℕ} {sock : Socket}
    {deleted deleted' : Bool} (hserve : serveClient env s it fd sock = ⟨out, .ok (t, deleted)⟩)
    (hserve' : serveClient env' s it fd sock = ⟨out', .ok (t', deleted')⟩) :
    t = t' ∧ out = out' := by
  have hsame := getClientFromFd_alike h env env' hmem
  rcases serveClient_ok hserve with ⟨hzero, -⟩ | ⟨hpos, -, hrequest⟩
  · have heq : serveClient env s it fd sock = serveClient env' s it fd sock := by
      simp only [serveClient, hzero, if_true, hsame]
    rw [hserve, hserve'] at heq
    simp only [Outcome.mk.injEq, Except.ok.injEq, Prod.mk.injEq] at heq
    exact ⟨heq.2.1, heq.1⟩
  · rcases serveClient_ok hserve' with ⟨hzero, -⟩ | ⟨-, -, hrequest'⟩
    · omega
    · obtain ⟨topic, id, c, htopic, hentry, -⟩ := manageSubscribeUnsubscribe_ok hrequest
      obtain ⟨answer, s₁, hanswer⟩ := request_answer htopic
      rw [hanswer env hentry] at hrequest
      rw [hanswer env' (hsame ▸ hentry)] at hrequest'
      obtain ⟨-, rfl, rfl⟩ := sendAnswer_then_eq_ok.mp hrequest
      obtain ⟨-, rfl, rfl⟩ := sendAnswer_then_eq_ok.mp hrequest'
      exact ⟨rfl, rfl⟩

theorem alike_step (h : Consistent s) {event : Event}
    (hstep : handle env s event = some (t, out)) (hstep' : handle env' s event = some (t', out')) :
    t = t' ∧ Alike out out' := by
  have hequal (heq : t = t' ∧ out = out') : t = t' ∧ Alike out out' :=
    ⟨heq.1, heq.2 ▸ alike_refl out⟩
  cases event with
  | line text =>
    rw [handle] at hstep hstep'
    rw [hstep, Option.some.injEq, Prod.mk.injEq] at hstep'
    exact hequal hstep'
  | datagram received =>
    rw [handle, Outcome.toStep_eq_some] at hstep hstep'
    cases received with
    | none => exact absurd hstep manageUdpMessage_none
    | some d => exact manageUdpMessage_alike hstep hstep'
  | connection addr fd sock =>
    rw [handle, Outcome.toStep_eq_some] at hstep hstep'
    exact hequal (manageConnectionRequest_alike hstep hstep')
  | readable k fd sock =>
    obtain ⟨hplace, deleted, hserve⟩ := handle_readable hstep
    obtain ⟨-, deleted', hserve'⟩ := handle_readable hstep'
    rw [← clientFds_getElem?] at hplace
    exact hequal (serveClient_alike h (List.mem_of_getElem? hplace) hserve hserve')

end Steps

section Runs

variable {s t t' : Server} {is is' : List (Env × Event)} {out out' : List Effect}

theorem alike_run (h : Consistent s) (hevents : is.map Prod.snd = is'.map Prod.snd)
    (hfresh : Along step Fresh s is) (hrun : exec step s is = some (t, out))
    (hrun' : exec step s is' = some (t', out')) : t = t' ∧ Alike out out' := by
  induction is generalizing s is' out out' with
  | nil =>
    obtain rfl : is' = [] := by simpa using hevents.symm
    simp only [exec_nil, Option.some.injEq, Prod.mk.injEq] at hrun hrun'
    obtain ⟨rfl, rfl⟩ := hrun
    obtain ⟨rfl, rfl⟩ := hrun'
    exact ⟨rfl, alike_refl []⟩
  | cons i is ih =>
    have hne : is' ≠ [] := by
      intro hnil
      simp [hnil] at hevents
    obtain ⟨i', is', rfl⟩ := List.exists_cons_of_ne_nil hne
    rw [List.map_cons, List.map_cons, List.cons.injEq] at hevents
    obtain ⟨hevent, hevents⟩ := hevents
    obtain ⟨s₁, o, later, hstep, hrest, rfl⟩ := exec_cons.mp hrun
    obtain ⟨s₂, o', later', hstep', hrest', rfl⟩ := exec_cons.mp hrun'
    have hfirst : s₁ = s₂ ∧ Alike o o' := by
      unfold step at hstep hstep'
      rw [← hevent] at hstep'
      exact alike_step h hstep hstep'
    obtain ⟨rfl, halike⟩ := hfirst
    obtain ⟨hsame, hlater⟩ :=
      ih (consistent_step h hfresh.1 hstep) hevents (hfresh.2 s₁ o hstep) hrest hrest'
    exact ⟨hsame, halike.append hlater⟩

/-- Two runs on the same events that go through, whatever orders the map is iterated in
and whatever parts send takes, end with the same tables; and on each descriptor, with
what is closed and printed, the same is seen in the same order. -/
theorem order_unobserved {udpSockfd tcpSockfd : Int}
    (hevents : is.map Prod.snd = is'.map Prod.snd)
    (hfresh : Along step Fresh (Server.prepare udpSockfd tcpSockfd) is)
    (hrun : exec step (Server.prepare udpSockfd tcpSockfd) is = some (t, out))
    (hrun' : exec step (Server.prepare udpSockfd tcpSockfd) is' = some (t', out')) :
    t = t' ∧ Alike out out' :=
  alike_run (consistent_prepare udpSockfd tcpSockfd) hevents hfresh hrun hrun'

def backwards : Env :=
  ⟨fun clients => clients.entries.reverse, fun _ => List.reverse_perm _, fun _ => [.moved 1]⟩

def broadcast : List Event :=
  [.connect ⟨(127, 0, 0, 1), 1⟩ 5 connectA, .connect ⟨(127, 0, 0, 1), 2⟩ 6 connectB,
    .frame 0 5 subscribeT, .frame 1 6 (Frame.ofText subscribeReq (ascii "*") (by decide)),
    .datagram (some seven)]

set_option maxRecDepth 4000 in
/-- The copies go out in another order. -/
theorem order_unobserved_backwards : ∃ t out out',
    exec step (Server.prepare 3 4) (broadcast.map fun event => (Env.plain, event)) = some (t, out) ∧
      exec step (Server.prepare 3 4) (broadcast.map fun event => (backwards, event)) =
        some (t, out') ∧ out ≠ out' ∧ Alike out out' := by
  obtain ⟨out, hrun⟩ := exec_final (show (exec step (Server.prepare 3 4)
    (broadcast.map fun event => (Env.plain, event))).isSome = true by rfl)
  obtain ⟨out', hrun'⟩ := exec_final (show (exec step (Server.prepare 3 4)
    (broadcast.map fun event => (backwards, event))).isSome = true by rfl)
  have hne : (exec step (Server.prepare 3 4) (broadcast.map fun event =>
      (Env.plain, event))).map Prod.snd ≠ (exec step (Server.prepare 3 4)
        (broadcast.map fun event => (backwards, event))).map Prod.snd := by decide +kernel
  have hevents : (broadcast.map fun event => (Env.plain, event)).map Prod.snd =
      (broadcast.map fun event => (backwards, event)).map Prod.snd := by
    rw [List.map_map, List.map_map]
    rfl
  obtain ⟨hsame, halike⟩ := order_unobserved hevents (by decide) hrun hrun'
  rw [hrun, hrun', Option.map_some, Option.map_some, ne_eq, Option.some.injEq] at hne
  exact ⟨_, out, out', hrun, by rw [hrun', hsame], hne, halike⟩

end Runs

end ServerClientApp.IterationOrder
