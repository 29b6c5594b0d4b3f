import ServerClientApp.ServerHandlers

/-!
What each handler can do, said once. A handler that gives new tables did one of
a few things to them, and wrote exactly the frames listed here; later modules
reason from these statements and do not unfold the handlers.
-/

namespace ServerClientApp.HandlerSpecs

open PartialTransfers Outcomes Protocols Wildcards Datagrams ServerHandlers

variable {env : Env} {s s' : Server} {out : List Effect}

section Tables

@[simp] theorem client_setClient (s : Server) (id : ClientId) (c : Client) :
    (s.setClient id c).client = Function.update s.client id (some c) := by
  funext id'
  by_cases h : id' = id
  · subst h
    rw [Function.update_self]
    exact AList.lookup_insert s.clients
  · rw [Function.update_of_ne h]
    exact AList.lookup_insert_ne h

@[simp] theorem pollFds_setClient (s : Server) (id : ClientId) (c : Client) :
    (s.setClient id c).pollFds = s.pollFds := rfl

@[simp] theorem numPollfds_setClient (s : Server) (id : ClientId) (c : Client) :
    (s.setClient id c).numPollfds = s.numPollfds := rfl

@[simp] theorem client_addClientPollfd (s : Server) (fd : Int) :
    (s.addClientPollfd fd).client = s.client := rfl

theorem mem_iterate {entry : Entry} :
    entry ∈ env.iterate s.clients ↔ s.client entry.1 = some entry.2 := by
  rw [(env.iterate_perm s.clients).mem_iff]
  exact AList.mem_lookup_iff.symm

theorem getClientFromFd_some {fd : Int} {entry : Entry}
    (h : getClientFromFd env s fd = some entry) :
    s.client entry.1 = some entry.2 ∧ entry.2.currFd = fd :=
  ⟨mem_iterate.mp (List.mem_of_find?_eq_some h), by simpa using List.find?_some h⟩

theorem getClientFromFd_ne_none {fd : Int} {id : ClientId} {c : Client}
    (hclient : s.client id = some c) (hfd : c.currFd = fd) : getClientFromFd env s fd ≠ none := by
  intro h
  have hnone := List.find?_eq_none.mp h ⟨id, c⟩ (mem_iterate.mpr hclient)
  exact hnone (by simpa using hfd)

end Tables

section Sends

def Delivers (env : Env) (fd : Int) (f : Frame) : Prop :=
  (sendEfficient f.message (env.sends fd)).rc ≠ -1

instance (env : Env) (fd : Int) (f : Frame) : Decidable (Delivers env fd f) := by
  unfold Delivers
  infer_instance

theorem delivers_of_sends (h : env.Sends) (fd : Int) (f : Frame) : Delivers env fd f :=
  (sendEfficient_steady f.message (env.sends fd) (h fd)).1

/-- A successful send writes the encoding and hands the message on unchanged. -/
theorem sendOn_delivers {fd : Int} {f : Frame} (h : Delivers env fd f) :
    sendOn env fd f.message =
      ⟨[.wrote fd f.encode], .ok (3 + f.len.toNat, f.message)⟩ := by
  rcases sendEfficient_cases f.message (env.sends fd)
    (by rw [f.block_message]; exact f.length_eq) with ⟨hrc, hwire, hmsg⟩ | ⟨hfail, -⟩
  · rw [f.block_message] at hwire
    simp only [sendOn, hrc, hwire, hmsg]
    rfl
  · exact absurd hfail h

/-- A failed send writes a strict prefix of the encoding and returns -1. -/
theorem sendOn_not_delivers {fd : Int} {f : Frame} (h : ¬ Delivers env fd f) :
    ∃ part msg, part <+: f.encode ∧ part ≠ f.encode ∧
      sendOn env fd f.message = ⟨[.wrote fd part], .ok (-1, msg)⟩ := by
  have hfail : (sendEfficient f.message (env.sends fd)).rc = -1 := not_not.mp h
  rcases sendEfficient_cases f.message (env.sends fd)
    (by rw [f.block_message]; exact f.length_eq) with ⟨hrc, -⟩ | ⟨-, hinit, hne⟩
  · omega
  · rw [f.block_message] at hinit hne
    exact ⟨_, (sendEfficient f.message (env.sends fd)).msg, hinit, hne,
      by simp only [sendOn, hfail]⟩

/-- send_efficient with DIE on its result: a complete frame or the end. -/
theorem sendOn_die_eq_ok {fd : Int} {f : Frame} :
    (sendOn env fd f.message >>= fun r => die (r.1 < 0)) = ⟨out, .ok ()⟩ ↔
      Delivers env fd f ∧ out = [.wrote fd f.encode] := by
  by_cases h : Delivers env fd f
  · have hrc : ¬ (3 + (f.len.toNat : Int)) < 0 := by omega
    simp only [sendOn_delivers h, h, true_and, Outcome.mk_ok_bind, die, hrc, decide_false]
    simp [Outcome.stopIf, Outcome.pure_def, eq_comm]
  · obtain ⟨part, msg, -, -, heq⟩ := sendOn_not_delivers h
    simp only [heq, h, false_and, iff_false]
    simp [die, Outcome.stopIf, Outcome.stop]

theorem sendAnswer_eq_ok {fd : Int} {command : UInt8} :
    sendAnswer env fd command = ⟨out, .ok ()⟩ ↔
      Delivers env fd (Frame.bare command) ∧ out = [.wrote fd (Frame.bare command).encode] :=
  sendOn_die_eq_ok (f := Frame.bare command)

/-- An answer followed by what cannot stop any more. -/
theorem sendAnswer_then_eq_ok {fd : Int} {answer : UInt8} {later : List Effect} {s₁ : Server} :
    (sendAnswer env fd answer >>= fun _ => (⟨later, .ok s₁⟩ : Act Server)) = ⟨out, .ok s'⟩ ↔
      Delivers env fd (Frame.bare answer) ∧ s' = s₁ ∧
        out = .wrote fd (Frame.bare answer).encode :: later := by
  constructor
  · intro h
    obtain ⟨⟨⟩, _, _, hsend, hlater, rfl⟩ := Outcome.bind_eq_ok.mp h
    obtain ⟨hdelivers, rfl⟩ := sendAnswer_eq_ok.mp hsend
    simp only [Outcome.mk.injEq, Except.ok.injEq] at hlater
    obtain ⟨rfl, rfl⟩ := hlater
    exact ⟨hdelivers, rfl, rfl⟩
  · intro hgiven
    obtain ⟨hdelivers, rfl, rfl⟩ := hgiven
    exact Outcome.bind_eq_ok.mpr ⟨(), _, _, sendAnswer_eq_ok.mpr ⟨hdelivers, rfl⟩, rfl, rfl⟩

theorem sendConnectionResponse_eq (env : Env) (response : Bool) (fd : Int) :
    sendConnectionResponse env response fd =
      sendAnswer env fd (if response then connectAccepted else connectDenied) := rfl

end Sends

theorem die_eq_ok {failed : Bool} : die failed = ⟨out, .ok ()⟩ ↔ failed = false ∧ out = [] :=
  Outcome.stopIf_eq_ok

/-- The string behind a payload pointer, or the end. -/
theorem readString_eq_ok {payload : Option Bytes} {text : Bytes} :
    (Outcome.ofExcept ((cString payload).mapError Stop.fault) : Act Bytes) = ⟨out, .ok text⟩ ↔
      cString payload = .ok text ∧ out = [] := by
  rw [Outcome.ofExcept_eq_ok]
  cases cString payload <;> simp [Except.mapError]

section Connections

def enrol (s : Server) (id : ClientId) (fd : Int) : Server :=
  (s.setClient id ⟨fd, true, s.topicsOf id⟩).addClientPollfd fd

def refusal (id : ClientId) (fd : Int) : List Effect :=
  [.wrote fd (Frame.bare connectDenied).encode, .closed fd,
    .printed (ascii "Client " ++ id ++ ascii " already connected.\n")]

def admission (s : Server) (id : ClientId) (addr : SockAddr) (fd : Int) : List Effect :=
  [.wrote fd (Frame.bare connectAccepted).encode,
    .printed (connectedLine id addr ++ if s.client id = none then ascii ".\n" else ascii "\n")]

theorem not_connected_of_none {id : ClientId} (h : s.client id = none) : ¬ s.Connected id := by
  intro hconnected
  obtain ⟨c, hc, -⟩ := hconnected
  simp [h] at hc

theorem connected_iff {id : ClientId} {c : Client} (h : s.client id = some c) :
    s.Connected id ↔ c.isConnected = true := by
  constructor
  · intro hconnected
    obtain ⟨c', hc', htrue⟩ := hconnected
    rw [h, Option.some.injEq] at hc'
    exact hc' ▸ htrue
  · exact fun htrue => ⟨c, h, htrue⟩

/-- An id marked connected is refused, any other is admitted, and the answer has
to be sent. -/
theorem admitOrDecline_eq_ok {addr : SockAddr} {fd : Int} {id : ClientId} :
    admitOrDecline env s addr fd id = ⟨out, .ok s'⟩ ↔
      (s.Connected id ∧ Delivers env fd (Frame.bare connectDenied) ∧ s' = s ∧
          out = refusal id fd) ∨
        (¬ s.Connected id ∧ Delivers env fd (Frame.bare connectAccepted) ∧
          s' = enrol s id fd ∧ out = admission s id addr fd) := by
  unfold admitOrDecline
  cases hclient : s.clients.lookup id with
  | none =>
    have hnot : ¬ s.Connected id := not_connected_of_none hclient
    have htables : (s.setClient id ⟨fd, true, ∅⟩).addClientPollfd fd = enrol s id fd := by
      simp [enrol, Server.topicsOf, Server.client, hclient]
    have hout : admission s id addr fd = [.wrote fd (Frame.bare connectAccepted).encode,
        .printed (connectedLine id addr ++ ascii ".\n")] := by
      simp [admission, Server.client, hclient]
    simp only [hnot, false_and, not_false_eq_true, true_and, false_or, hout, htables,
      sendConnectionResponse_eq, if_true, Outcome.emit_bind, Outcome.pure_def,
      sendAnswer_then_eq_ok]
  | some c =>
    have hconnected := connected_iff hclient
    by_cases hmark : c.isConnected = true
    · simp only [hconnected, hmark, not_true_eq_false, false_and, or_false, true_and, refusal,
        sendConnectionResponse_eq, if_true, Bool.false_eq_true, if_false, Outcome.emit_bind,
        Outcome.pure_def, sendAnswer_then_eq_ok]
    · have htables : (s.setClient id { c with isConnected := true, currFd := fd }).addClientPollfd
          fd = enrol s id fd := by
        simp [enrol, Server.topicsOf, Server.client, hclient]
      have hout : admission s id addr fd = [.wrote fd (Frame.bare connectAccepted).encode,
          .printed (connectedLine id addr ++ ascii "\n")] := by
        simp [admission, Server.client, hclient]
      simp only [hconnected, hmark, not_false_eq_true, false_and, false_or, true_and, hout,
        htables, sendConnectionResponse_eq, if_true, Bool.false_eq_true, if_false,
        Outcome.emit_bind, Outcome.pure_def, sendAnswer_then_eq_ok]

/-- The handler gets through exactly if accept and recv_efficient gave no error,
the block holds a string, and the id with it can be admitted or refused. -/
theorem manageConnectionRequest_eq_ok {addr : SockAddr} {fd : Int} {sock : Socket} :
    manageConnectionRequest env s addr fd sock = ⟨out, .ok s'⟩ ↔
      0 ≤ fd ∧ 0 ≤ (recvEfficient sock TcpMessage.zero).rc ∧
      ∃ id, cString (recvEfficient sock TcpMessage.zero).msg.payload = .ok id ∧
        admitOrDecline env s addr fd id = ⟨out, .ok s'⟩ := by
  unfold manageConnectionRequest
  constructor
  · intro h
    obtain ⟨⟨⟩, _, _, haccept, h₁, rfl⟩ := Outcome.bind_eq_ok.mp h
    obtain ⟨hfd, rfl⟩ := die_eq_ok.mp haccept
    obtain ⟨⟨⟩, _, _, hrecv, h₂, rfl⟩ := Outcome.bind_eq_ok.mp h₁
    obtain ⟨hrc, rfl⟩ := die_eq_ok.mp hrecv
    obtain ⟨id, _, _, hstring, h₃, rfl⟩ := Outcome.bind_eq_ok.mp h₂
    obtain ⟨hid, rfl⟩ := readString_eq_ok.mp hstring
    exact ⟨by simpa using hfd, by simpa using hrc, id, hid, h₃⟩
  · intro hgiven
    obtain ⟨hfd, hrc, id, hid, h⟩ := hgiven
    refine Outcome.bind_eq_ok.mpr ⟨(), [], out, die_eq_ok.mpr ⟨by simpa using hfd, rfl⟩, ?_, rfl⟩
    refine Outcome.bind_eq_ok.mpr ⟨(), [], out, die_eq_ok.mpr ⟨by simpa using hrc, rfl⟩, ?_, rfl⟩
    exact Outcome.bind_eq_ok.mpr ⟨id, [], out, readString_eq_ok.mpr ⟨hid, rfl⟩, h, rfl⟩

end Connections

section Requests

def topicsAfter (command : UInt8) (topic : Topic) (topics : Subscriptions) : Subscriptions :=
  if command = subscribeReq then
    if topic ∈ topics then topics else topics.insert topic (tokenizeTopic topic)
  else topics.erase topic

def answerTo (command : UInt8) (topic : Topic) (topics : Subscriptions) : UInt8 :=
  if command = subscribeReq then
    if topic ∈ topics then subscribeFail else subscribeSucc
  else
    if topic ∈ topics then unsubscribeSucc else unsubscribeFail

/-- A request answered with FAIL leaves the subscriptions as they are. -/
theorem topicsAfter_of_mem_iff {command : UInt8} {topic : Topic} {topics : Subscriptions}
    (h : topic ∈ topics ↔ command = subscribeReq) : topicsAfter command topic topics = topics := by
  unfold topicsAfter
  split
  · rename_i hsubscribe
    rw [if_pos (h.mpr hsubscribe)]
  · rename_i hother
    exact AList.ext (List.kerase_of_notMem_keys fun hmem => hother (h.mp hmem))

/-- A request changes the subscriptions of the client registered for the
descriptor, nothing else, and gets one answer. -/
theorem manageSubscribeUnsubscribe_ok {fd : Int} {msg : TcpMessage}
    (h : manageSubscribeUnsubscribe env s fd msg = ⟨out, .ok s'⟩) :
    ∃ topic id c, cString msg.payload = .ok topic ∧ getClientFromFd env s fd = some ⟨id, c⟩ ∧
      s'.client = Function.update s.client id (some { c with
        subscribedTopics := topicsAfter msg.command topic c.subscribedTopics }) ∧
      s'.pollFds = s.pollFds ∧ s'.numPollfds = s.numPollfds ∧
      out = [.wrote fd (Frame.bare (answerTo msg.command topic c.subscribedTopics)).encode] := by
  unfold manageSubscribeUnsubscribe at h
  obtain ⟨topic, _, out, hstring, h₁, rfl⟩ := Outcome.bind_eq_ok.mp h
  obtain ⟨htopic, rfl⟩ := readString_eq_ok.mp hstring
  clear h hstring
  cases hentry : getClientFromFd env s fd with
  | none => simp only [hentry] at h₁; exact absurd h₁ Outcome.stop_ne_ok
  | some entry =>
    obtain ⟨id, c⟩ := entry
    have hclient : s.client id = some c := (getClientFromFd_some hentry).1
    have hsame : Function.update s.client id (some c) = s.client := by
      rw [← hclient, Function.update_eq_self]
    simp only [hentry] at h₁
    -- The four branches differ in the answer and in whether the record changes.
    refine ⟨topic, id, c, htopic, rfl, ?_⟩
    by_cases hsubscribe : msg.command = subscribeReq
    · by_cases hmem : topic ∈ c.subscribedTopics
      · simp only [hsubscribe, hmem, if_true] at h₁
        obtain ⟨-, rfl, rfl⟩ := sendAnswer_then_eq_ok.mp h₁
        have hkeep := topicsAfter_of_mem_iff (iff_of_true hmem hsubscribe)
        exact ⟨by rw [hkeep, hsame], rfl, rfl, by simp [answerTo, hsubscribe, hmem]⟩
      · simp only [hsubscribe, hmem, if_true, if_false] at h₁
        obtain ⟨-, rfl, rfl⟩ := sendAnswer_then_eq_ok.mp h₁
        exact ⟨by simp [topicsAfter, hsubscribe, hmem], rfl, rfl,
          by simp [answerTo, hsubscribe, hmem]⟩
    · by_cases hmem : topic ∈ c.subscribedTopics
      · simp only [hsubscribe, hmem, if_true, if_false] at h₁
        obtain ⟨-, rfl, rfl⟩ := sendAnswer_then_eq_ok.mp h₁
        exact ⟨by simp [topicsAfter, hsubscribe], rfl, rfl, by simp [answerTo, hsubscribe, hmem]⟩
      · simp only [hsubscribe, hmem, if_false] at h₁
        obtain ⟨-, rfl, rfl⟩ := sendAnswer_then_eq_ok.mp h₁
        have hkeep := topicsAfter_of_mem_iff (iff_of_false hmem hsubscribe)
        exact ⟨by rw [hkeep, hsame], rfl, rfl, by simp [answerTo, hsubscribe, hmem]⟩

/-- The tables after the client has been marked disconnected and the entry at
`it` erased. -/
def dismiss (s : Server) (id : ClientId) (c : Client) (it : ℕ) : Server :=
  { s.setClient id { c with isConnected := false, currFd := -1 } with
    pollFds := s.pollFds.eraseIdx it, numPollfds := s.numPollfds - 1 }

/-- Serving a ready descriptor is noticing its close or answering a request. -/
theorem serveClient_ok {it : ℕ} {fd : Int} {sock : Socket} {deleted : Bool}
    (h : serveClient env s it fd sock = ⟨out, .ok (s', deleted)⟩) :
    ((recvEfficient sock TcpMessage.zero).rc = 0 ∧ deleted = true ∧ ∃ id c line,
        getClientFromFd env s fd = some ⟨id, c⟩ ∧ s' = dismiss s id c it ∧
        out = [.closed fd, .printed line]) ∨
      (0 < (recvEfficient sock TcpMessage.zero).rc ∧ deleted = false ∧
        manageSubscribeUnsubscribe env s fd (recvEfficient sock TcpMessage.zero).msg =
          ⟨out, .ok s'⟩) := by
  unfold serveClient at h
  obtain ⟨⟨⟩, _, _, hrecv, h₁, rfl⟩ := Outcome.bind_eq_ok.mp h
  obtain ⟨hnonneg, rfl⟩ := die_eq_ok.mp hrecv
  clear h hrecv
  simp only [decide_eq_false_iff_not, not_lt] at hnonneg
  by_cases hzero : (recvEfficient sock TcpMessage.zero).rc = 0
  · left
    simp only [hzero, if_true] at h₁
    cases hentry : getClientFromFd env s fd with
    | none => simp only [hentry] at h₁; exact absurd h₁ Outcome.stop_ne_ok
    | some entry =>
      obtain ⟨id, c⟩ := entry
      simp only [hentry, Outcome.emit_bind, Outcome.pure_def, Outcome.mk.injEq, Except.ok.injEq,
        Prod.mk.injEq] at h₁
      obtain ⟨rfl, rfl, rfl⟩ := h₁
      exact ⟨hzero, rfl, id, c, _, rfl, rfl, rfl⟩
  · right
    simp only [hzero, if_false] at h₁
    obtain ⟨s₁, o, o', hrequest, hpure, rfl⟩ := Outcome.bind_eq_ok.mp h₁
    obtain ⟨rfl, heq⟩ := Outcome.pure_eq_ok.mp hpure
    rw [Prod.mk.injEq] at heq
    obtain ⟨rfl, rfl⟩ := heq
    refine ⟨by omega, rfl, ?_⟩
    rw [List.nil_append, List.append_nil]
    exact hrequest

end Requests

section Publications

def publicationFrame (text : Bytes) (h : text.length + 1 < 2 ^ 16) : Frame :=
  Frame.ofText msgFromUdp text h

theorem publicationFrame_message (text : Bytes) (h : text.length + 1 < 2 ^ 16) :
    (publicationFrame text h).message = publication text :=
  Frame.message_ofText msgFromUdp text h

/-- The clients the fan-out loop sends to, in its order. -/
def recipients (topic : Topic) (entries : List Entry) : List Entry :=
  entries.filter fun entry => selected topic entry.2

def copies (f : Frame) (entries : List Entry) : List Effect :=
  entries.map fun entry => .wrote entry.2.currFd f.encode

theorem fanOut_skip {topic : Topic} {entry : Entry} (h : selected topic entry.2 = false)
    (rest : List Entry) (msg : TcpMessage) :
    fanOut env topic (entry :: rest) msg = fanOut env topic rest msg := by
  simp [fanOut, h]

/-- The message one recipient got goes on to the next one as it was. -/
theorem fanOut_delivers {topic : Topic} {entry : Entry} (h : selected topic entry.2 = true)
    {f : Frame} (hdelivers : Delivers env entry.2.currFd f) (rest : List Entry) :
    fanOut env topic (entry :: rest) f.message =
      ⟨.wrote entry.2.currFd f.encode :: (fanOut env topic rest f.message).effects,
        (fanOut env topic rest f.message).result⟩ := by
  have hrc : ¬ (3 + (f.len.toNat : Int)) < 0 := by omega
  simp only [fanOut, h, if_true, sendOn_delivers hdelivers, Outcome.mk_ok_bind, die, hrc,
    decide_false, Outcome.stopIf, Bool.false_eq_true, if_false, Outcome.pure_def]
  rfl

/-- A send that fails ends the process there, with a strict prefix written. -/
theorem fanOut_fails {topic : Topic} {entry : Entry} (h : selected topic entry.2 = true)
    {f : Frame} (hfails : ¬ Delivers env entry.2.currFd f) (rest : List Entry) :
    ∃ part, part <+: f.encode ∧ part ≠ f.encode ∧
      fanOut env topic (entry :: rest) f.message =
        ⟨[.wrote entry.2.currFd part], .error .die⟩ := by
  obtain ⟨part, msg, hinit, hne, heq⟩ := sendOn_not_delivers hfails
  refine ⟨part, hinit, hne, ?_⟩
  simp only [fanOut, h, if_true, heq, Outcome.mk_ok_bind, die]
  rfl

/-- The loop goes through exactly if every recipient's send succeeds, and then
each of them has a copy of the frame. -/
theorem fanOut_eq_ok {topic : Topic} {entries : List Entry} {f : Frame} :
    fanOut env topic entries f.message = ⟨out, .ok ()⟩ ↔
      (∀ entry ∈ recipients topic entries, Delivers env entry.2.currFd f) ∧
        out = copies f (recipients topic entries) := by
  induction entries generalizing out with
  | nil => simp [fanOut, recipients, copies, Outcome.pure_def, eq_comm]
  | cons entry rest ih =>
    by_cases hselected : selected topic entry.2 = true
    · have hcons : recipients topic (entry :: rest) = entry :: recipients topic rest := by
        simp [recipients, hselected]
      by_cases hdelivers : Delivers env entry.2.currFd f
      · rw [fanOut_delivers hselected hdelivers, hcons]
        simp only [List.mem_cons, forall_eq_or_imp, hdelivers, true_and, copies, List.map_cons,
          Outcome.mk.injEq]
        constructor
        · intro hgiven
          obtain ⟨rfl, hresult⟩ := hgiven
          obtain ⟨hall, hcopies⟩ := ih.mp (Outcome.ext' rfl hresult)
          exact ⟨hall, congrArg (Effect.wrote entry.2.currFd f.encode :: ·) hcopies⟩
        · intro hgiven
          obtain ⟨hall, rfl⟩ := hgiven
          rw [ih.mpr ⟨hall, rfl⟩]
          exact ⟨rfl, rfl⟩
      · obtain ⟨part, -, -, heq⟩ := fanOut_fails hselected hdelivers rest
        rw [heq, hcons]
        simp [hdelivers]
    · rw [Bool.not_eq_true] at hselected
      have hcons : recipients topic (entry :: rest) = recipients topic rest := by
        simp [recipients, hselected]
      rw [fanOut_skip hselected, hcons]
      exact ih

theorem sendMsgIfSubscribed_eq_ok {topic : Topic} {text : Bytes} (h : text.length + 1 < 2 ^ 16) :
    sendMsgIfSubscribed env s topic text = ⟨out, .ok s'⟩ ↔
      (∀ entry ∈ recipients topic (env.iterate s.clients),
        Delivers env entry.2.currFd (publicationFrame text h)) ∧
      out = copies (publicationFrame text h) (recipients topic (env.iterate s.clients)) ∧
      s' = s := by
  unfold sendMsgIfSubscribed
  rw [← publicationFrame_message text h]
  constructor
  · intro hact
    obtain ⟨⟨⟩, _, _, hfan, hpure, rfl⟩ := Outcome.bind_eq_ok.mp hact
    obtain ⟨hall, rfl⟩ := fanOut_eq_ok.mp hfan
    obtain ⟨rfl, rfl⟩ := Outcome.pure_eq_ok.mp hpure
    exact ⟨hall, List.append_nil _, rfl⟩
  · intro hgiven
    obtain ⟨hall, rfl, rfl⟩ := hgiven
    exact Outcome.bind_eq_ok.mpr ⟨(), _, _, fanOut_eq_ok.mpr ⟨hall, rfl⟩,
      Outcome.pure_eq_ok.mpr ⟨rfl, rfl⟩, (List.append_nil _).symm⟩

/-- A datagram that is served leaves the tables alone, and either is not of a
supported type or goes to its recipients. -/
theorem manageUdpMessage_ok {d : Datagram}
    (h : manageUdpMessage env s (some d) = ⟨out, .ok s'⟩) :
    s' = s ∧
      ((∃ topic line, formattedMsg d = .ok (topic, none) ∧ out = [.complained line]) ∨
        ∃ topic text, formattedMsg d = .ok (topic, some text) ∧ text.length + 1 ≤ maxUdpMsg ∧
          sendMsgIfSubscribed env s topic text = ⟨out, .ok s⟩) := by
  unfold manageUdpMessage at h
  obtain ⟨⟨topic, formatted⟩, _, out, hformat, h₁, rfl⟩ := Outcome.bind_eq_ok.mp h
  obtain ⟨hmap, rfl⟩ := Outcome.ofExcept_eq_ok.mp hformat
  have hformatted : formattedMsg d = .ok (topic, formatted) := by
    cases hcase : formattedMsg d with
    | error fault => simp [hcase, Except.mapError] at hmap
    | ok value => simpa [hcase, Except.mapError] using hmap
  cases formatted with
  | none =>
    simp only [Outcome.emit_bind, Outcome.pure_def, Outcome.mk.injEq, Except.ok.injEq] at h₁
    obtain ⟨rfl, rfl⟩ := h₁
    exact ⟨rfl, Or.inl ⟨topic, _, hformatted, rfl⟩⟩
  | some text =>
    by_cases hfits : text.length + 1 ≤ maxUdpMsg
    · simp only [hfits, if_true] at h₁
      have hlength := (formattedMsg_text hformatted).2.2
      obtain ⟨-, -, rfl⟩ := (sendMsgIfSubscribed_eq_ok hlength).mp h₁
      exact ⟨rfl, Or.inr ⟨topic, text, hformatted, hfits, h₁⟩⟩
    · simp only [hfits, if_false] at h₁
      exact absurd h₁ Outcome.stop_ne_ok

theorem manageUdpMessage_none : manageUdpMessage env s none ≠ ⟨out, .ok s'⟩ :=
  Outcome.stop_ne_ok

/-- The process goes on after a line that is not the exit command. -/
theorem checkStdinData_ok {line : Bytes} (h : checkStdinData s line = ⟨out, .ok s'⟩) :
    s' = s ∧ line ≠ ascii "exit" ∧ ∃ text, out = [.printed text] := by
  unfold checkStdinData at h
  by_cases hexit : line = ascii "exit"
  · rw [if_pos hexit] at h
    exact absurd h Outcome.stop_ne_ok
  · rw [if_neg hexit] at h
    simp only [Outcome.emit_bind, Outcome.pure_def, Outcome.mk.injEq, Except.ok.injEq] at h
    obtain ⟨rfl, rfl⟩ := h
    exact ⟨rfl, hexit, _, rfl⟩

end Publications

end ServerClientApp.HandlerSpecs
