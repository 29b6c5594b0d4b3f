import ServerClientApp.HeapMessages

/-!
The handlers of the server with their memory. A record of the client map lies in a block
of its own, which new makes when its id comes for the first time. The handlers only use
blocks they have and give back what they allocate, but for these records and for the
payload of a message that breaks off.
-/

namespace ServerClientApp.ServerHeap

open PartialTransfers Outcomes Outcome Protocols Wildcards Datagrams ServerHandlers HandlerSpecs
  Heaps HeapMessages

section Model

/-- The tables, and where the record of each registered id lies. -/
structure HeapServer where
  server : Server
  blocks : ClientId → Pointer

variable (fails : ℕ → Bool)

def sendBareAt (env : Env) (fd : Int) (command : UInt8) (msg : ℕ) : Handler Unit := do
  store (some msg) (.message { Stored.zero with command })
  let rc ← sendEfficientAt env fd msg
  lift (die (rc < 0))
  free (some msg)

def sendConnectionResponseAt (env : Env) (response : Bool) (clientSockfd : Int) :
    Handler Unit := do
  let msg ← make fails (.message .zero)
  sendBareAt env clientSockfd (if response then connectAccepted else connectDenied) msg

def getClientFromFdAt (blocks : ClientId → Pointer) (fd : Int) :
    List Entry → Handler (Option Entry)
  | [] => return none
  | entry :: rest => do
    let _ ← load (blocks entry.1)
    if entry.2.currFd == fd then return some entry else getClientFromFdAt blocks fd rest

def admitOrDeclineAt (env : Env) (w : HeapServer) (addr : SockAddr) (clientSockfd : Int)
    (clientId : ClientId) : Handler HeapServer :=
  match w.server.clients.lookup clientId with
  | none => do
    let newClient ← make fails .object
    let s := w.server.setClient clientId ⟨clientSockfd, true, ∅⟩
    let s := s.addClientPollfd clientSockfd
    sendConnectionResponseAt fails env true clientSockfd
    lift (emit (.printed (connectedLine clientId addr ++ ascii ".\n")))
    return ⟨s, Function.update w.blocks clientId (some newClient)⟩
  | some databaseClient => do
    let _ ← load (w.blocks clientId)
    if databaseClient.isConnected then
      sendConnectionResponseAt fails env false clientSockfd
      lift (emit (.closed clientSockfd))
      lift (emit (.printed (ascii "Client " ++ clientId ++ ascii " already connected.\n")))
      return w
    else
      let s := w.server.setClient clientId
        { databaseClient with isConnected := true, currFd := clientSockfd }
      let s := s.addClientPollfd clientSockfd
      sendConnectionResponseAt fails env true clientSockfd
      lift (emit (.printed (connectedLine clientId addr ++ ascii "\n")))
      return ⟨s, w.blocks⟩

def manageConnectionRequestAt (env : Env) (w : HeapServer) (addr : SockAddr)
    (clientSockfd : Int) (sock : Socket) : Handler HeapServer := do
  lift (die (clientSockfd < 0))
  let msg ← make fails (.message .zero)
  let (rc, _) ← recvEfficientAt fails sock msg
  lift (die (rc < 0))
  let s ← loadMessage (some msg)
  let clientId ← readString s.payload
  free s.payload
  free (some msg)
  admitOrDeclineAt fails env w addr clientSockfd clientId

/-- The answer is allocated before the record of the client is looked into. -/
def manageSubscribeUnsubscribeAt (env : Env) (w : HeapServer) (clientFd : Int) (reqMsg : ℕ) :
    Handler HeapServer := do
  let req ← loadMessage (some reqMsg)
  let topic ← readString req.payload
  let entry ← getClientFromFdAt w.blocks clientFd (env.iterate w.server.clients)
  let ansMsg ← make fails (.message .zero)
  match entry with
  | none => halt .outside
  | some ⟨id, reqClient⟩ =>
    if req.command = subscribeReq then
      if topic ∈ reqClient.subscribedTopics then
        sendBareAt env clientFd subscribeFail ansMsg
        return w
      else
        let s := w.server.setClient id { reqClient with
          subscribedTopics := reqClient.subscribedTopics.insert topic (tokenizeTopic topic) }
        sendBareAt env clientFd subscribeSucc ansMsg
        return ⟨s, w.blocks⟩
    else
      if topic ∈ reqClient.subscribedTopics then
        let s := w.server.setClient id { reqClient with
          subscribedTopics := reqClient.subscribedTopics.erase topic }
        sendBareAt env clientFd unsubscribeSucc ansMsg
        return ⟨s, w.blocks⟩
      else
        sendBareAt env clientFd unsubscribeFail ansMsg
        return w

def serveClientAt (env : Env) (w : HeapServer) (it : ℕ) (fd : Int) (sock : Socket) (msg : ℕ) :
    Handler (HeapServer × Bool) := do
  store (some msg) (.message .zero)
  let (rc, _) ← recvEfficientAt fails sock msg
  lift (die (rc < 0))
  if rc = 0 then
    match ← getClientFromFdAt w.blocks fd (env.iterate w.server.clients) with
    | none => halt .outside
    | some ⟨id, exitingClient⟩ =>
      let s := w.server.setClient id { exitingClient with isConnected := false, currFd := -1 }
      lift (emit (.closed fd))
      let s := { s with pollFds := s.pollFds.eraseIdx it, numPollfds := s.numPollfds - 1 }
      lift (emit (.printed (ascii "Client " ++ id ++ ascii " disconnected.\n")))
      return (⟨s, w.blocks⟩, true)
  else
    let w ← manageSubscribeUnsubscribeAt fails env w fd msg
    let s ← loadMessage (some msg)
    free s.payload
    return (w, false)

def fanOutAt (env : Env) (blocks : ClientId → Pointer) (stringTopic : Topic) (msg : ℕ) :
    List Entry → Handler Unit
  | [] => return ()
  | entry :: rest => do
    let _ ← load (blocks entry.1)
    if selected stringTopic entry.2 then
      let rc ← sendEfficientAt env entry.2.currFd msg
      lift (die (rc < 0))
      fanOutAt env blocks stringTopic msg rest
    else fanOutAt env blocks stringTopic msg rest

def sendMsgIfSubscribedAt (env : Env) (w : HeapServer) (topic : Topic) (formattedMsg : Bytes) :
    Handler HeapServer := do
  let msg ← make fails (.message .zero)
  let payload ← make fails (.text (formattedMsg ++ [0]))
  store (some msg)
    (.message ⟨msgFromUdp, UInt16.ofNat (formattedMsg.length + 1), some payload⟩)
  fanOutAt env w.blocks topic msg (env.iterate w.server.clients)
  let s ← loadMessage (some msg)
  free s.payload
  free (some msg)
  return w

def manageUdpMessageAt (env : Env) (w : HeapServer) (received : Option Datagram) :
    Handler HeapServer :=
  match received with
  | none => lift (stop .die)
  | some d =>
    match formattedMsg d with
    | .error _ => halt .outside
    | .ok (_, none) => do
      lift (emit (.complained (ascii "This format is not supported\n")))
      return w
    | .ok (topic, some text) =>
      if text.length + 1 ≤ maxUdpMsg then sendMsgIfSubscribedAt fails env w topic text
      else halt .outside

end Model

section Answers

variable {fails : ℕ → Bool} {m : Cells Cell} {env : Env} {fd : Int} {α β : Type}
  {post : Cells Cell → α → β → Prop} {y : Act β}

theorem follows_sendBare {command : UInt8} {msg : ℕ} {s : Stored} {f : Unit → Handler α}
    {g : Unit → Act β} (hnone : m msg = none)
    (hf : Follows fails m (f ()) (g ()) post) :
    Follows fails (Function.update m msg (some (.message s))) (sendBareAt env fd command msg >>= f)
      (sendAnswer env fd command >>= g) post := by
  unfold sendBareAt sendAnswer
  simp only [bind_assoc]
  refine simulates_store (by rw [Function.update_self]; rfl) ?_
  rw [Function.update_idem]
  refine follows_sendEfficient (Function.update_self ..) .null (Nat.zero_le _)
    fun rc sent _ _ => ?_
  rw [Function.update_idem]
  exact simulates_embed_bind fun _ _ => follows_freeBlock hnone hf

theorem follows_sendConnectionResponse {response : Bool} {f : Unit → Handler α}
    {g : Unit → Act β} (hf : Follows fails m (f ()) (g ()) post) :
    Follows fails m (sendConnectionResponseAt fails env response fd >>= f)
      (sendConnectionResponse env response fd >>= g) post := by
  unfold sendConnectionResponseAt
  rw [bind_assoc]
  exact follows_make fun msg hnone => follows_sendBare hnone hf

end Answers

section Tables

variable {fails : ℕ → Bool} {m m' : Cells Cell} {env : Env} {w w' : HeapServer} {fd : Int}

def RecordsHeld (m : Cells Cell) (w : HeapServer) : Prop :=
  ∀ id, (w.server.client id).isSome = true → ∃ a, w.blocks id = some a ∧ m a = some .object

/-- The same ids are registered, with their records in the same places. -/
structure SameRecords (w w' : HeapServer) : Prop where
  blocks : w'.blocks = w.blocks
  registered : ∀ id, (w'.server.client id).isSome = (w.server.client id).isSome

theorem SameRecords.refl (w : HeapServer) : SameRecords w w := ⟨rfl, fun _ => rfl⟩

/-- The record of a registered client changes where it lies. -/
theorem SameRecords.update {s : Server} {id : ClientId} {c : Client} (c' : Client)
    (hclient : w.server.client id = some c)
    (hs : s.client = Function.update w.server.client id (some c')) :
    SameRecords w ⟨s, w.blocks⟩ := by
  refine ⟨rfl, fun id' => ?_⟩
  rw [hs]
  by_cases h : id' = id
  · rw [h, Function.update_self, hclient]
    rfl
  · rw [Function.update_of_ne h]

inductive Admits (w : HeapServer) (m : Cells Cell) : HeapServer → Cells Cell → Prop
  | same {w' : HeapServer} : SameRecords w w' → Admits w m w' m
  | makes {s : Server} {id : ClientId} {a : ℕ} {c : Client} : m a = none →
      w.server.client id = none → s.client = Function.update w.server.client id (some c) →
      Admits w m ⟨s, Function.update w.blocks id (some a)⟩ (Function.update m a (some .object))

/-- Every entry of the map may be looked at. -/
theorem RecordsHeld.entry (h : RecordsHeld m w) {entry : Entry}
    (hmem : entry ∈ env.iterate w.server.clients) :
    ∃ a, w.blocks entry.1 = some a ∧ m a = some .object :=
  h entry.1 (by rw [mem_iterate.mp hmem]; rfl)

theorem follows_getClientFromFd {α β : Type} {post : Cells Cell → α → β → Prop} {y : Act β}
    {blocks : ClientId → Pointer} {entries : List Entry} {f : Option Entry → Handler α}
    (hheld : ∀ entry ∈ entries, ∃ a, blocks entry.1 = some a ∧ m a = some .object)
    (hf : Follows fails m (f (entries.find? fun entry => entry.2.currFd == fd)) y post) :
    Follows fails m (getClientFromFdAt blocks fd entries >>= f) y post := by
  induction entries with
  | nil => exact hf
  | cons entry rest ih =>
    obtain ⟨a, hblock, hcell⟩ := hheld entry List.mem_cons_self
    unfold getClientFromFdAt
    rw [hblock, bind_assoc]
    refine simulates_load hcell ?_
    rw [List.find?_cons] at hf
    cases hfd : entry.2.currFd == fd with
    | true =>
      rw [hfd] at hf
      exact hf
    | false =>
      rw [hfd] at hf
      exact ih (fun e he => hheld e (List.mem_cons_of_mem entry he)) hf

theorem follows_admitOrDecline {addr : SockAddr} {id : ClientId} (hheld : RecordsHeld m w) :
    Follows fails m (admitOrDeclineAt fails env w addr fd id)
      (admitOrDecline env w.server addr fd id) fun m' a b => a.server = b ∧ Admits w m a m' := by
  unfold admitOrDeclineAt admitOrDecline
  cases hlookup : w.server.clients.lookup id with
  | none =>
    refine follows_make fun a hnone => follows_sendConnectionResponse ?_
    refine simulates_embed_bind fun _ _ => ?_
    refine simulates_pure ⟨rfl, .makes (c := ⟨fd, true, ∅⟩) hnone hlookup ?_⟩
    rw [client_addClientPollfd, client_setClient]
  | some c =>
    obtain ⟨a, hblock, hcell⟩ := hheld id (by rw [Server.client, hlookup]; rfl)
    dsimp only
    rw [hblock]
    refine simulates_load hcell ?_
    by_cases hconnected : c.isConnected = true
    · simp only [hconnected, if_true]
      refine follows_sendConnectionResponse (simulates_embed_bind fun _ _ => ?_)
      exact simulates_embed_bind fun _ _ => simulates_pure ⟨rfl, .same (SameRecords.refl w)⟩
    · simp only [hconnected]
      refine follows_sendConnectionResponse (simulates_embed_bind fun _ _ => ?_)
      refine simulates_pure ⟨rfl, .same (SameRecords.update
        { c with isConnected := true, currFd := fd } hlookup ?_)⟩
      rw [client_addClientPollfd, client_setClient]

theorem follows_manageConnectionRequest {addr : SockAddr} {sock : Socket}
    (hheld : RecordsHeld m w) :
    Follows fails m (manageConnectionRequestAt fails env w addr fd sock)
      (manageConnectionRequest env w.server addr fd sock)
      fun m' a b => a.server = b ∧ Admits w m a m' := by
  unfold manageConnectionRequestAt manageConnectionRequest
  refine simulates_embed_bind fun _ _ => follows_make fun msg hnone => ?_
  have hzero : Function.update m msg (some (Cell.message .zero)) msg = some (.message .zero) :=
    Function.update_self ..
  refine follows_recvEfficient hzero fun p m' hallocated => ?_
  refine simulates_embed_bind fun _ _ => follows_loadMessage (Function.update_self ..) ?_
  refine follows_readString (hallocated.points hzero) fun id => ?_
  refine follows_freePayload hallocated hzero ?_
  rw [Function.update_idem]
  exact follows_freeBlock hnone (follows_admitOrDecline hheld)

end Tables

section Requests

variable {fails : ℕ → Bool} {m : Cells Cell} {env : Env} {w : HeapServer} {fd : Int}

theorem follows_manageSubscribeUnsubscribe {msg : ℕ} {req : Stored} {payload : Option Bytes}
    {len : UInt16} (hheld : RecordsHeld m w) (hcell : m msg = some (.message req))
    (hpoints : Points m req.payload payload) :
    Follows fails m (manageSubscribeUnsubscribeAt fails env w fd msg)
      (manageSubscribeUnsubscribe env w.server fd ⟨req.command, len, payload⟩)
      fun m' a b => a.server = b ∧ SameRecords w a ∧ m' = m := by
  unfold manageSubscribeUnsubscribeAt manageSubscribeUnsubscribe
  refine follows_loadMessage hcell (follows_readString hpoints fun topic => ?_)
  refine follows_getClientFromFd (fun entry => hheld.entry) (follows_make fun ans hnone => ?_)
  cases hentry : getClientFromFd env w.server fd with
  | none =>
    rw [getClientFromFd] at hentry
    rw [hentry]
    exact simulates_outside rfl
  | some entry =>
    obtain ⟨hclient, -⟩ := getClientFromFd_some hentry
    rw [getClientFromFd] at hentry
    rw [hentry]
    obtain ⟨id, c⟩ := entry
    dsimp only
    have hsame := SameRecords.refl w
    split
    all_goals
      split
      all_goals
        refine follows_sendBare hnone (simulates_pure ⟨rfl, ?_, rfl⟩)
        first
        | exact hsame
        | exact SameRecords.update _ hclient (client_setClient ..)

/-- The payload of a request is given back, and that of a message that breaks off is not. -/
theorem follows_serveClient {msg it : ℕ} {s : Stored} {sock : Socket} (hnone : m msg = none)
    (hheld : RecordsHeld m w) :
    Follows fails (Function.update m msg (some (.message s)))
      (serveClientAt fails env w it fd sock msg) (serveClient env w.server it fd sock)
      fun m' a b => (a.1.server = b.1 ∧ a.2 = b.2) ∧ SameRecords w a.1 ∧
        Beside m msg (cutOff sock) m' := by
  unfold serveClientAt serveClient
  refine simulates_store (by rw [Function.update_self]; rfl) ?_
  rw [Function.update_idem]
  have hzero : Function.update m msg (some (Cell.message .zero)) msg = some (.message .zero) :=
    Function.update_self ..
  refine follows_recvEfficient hzero fun p m' hallocated => ?_
  -- The records are where they were, whatever was allocated for the message.
  have hstill : ∀ c, RecordsHeld (Function.update m' msg c) w := by
    intro c id hid
    obtain ⟨a, hblock, hcell⟩ := hheld id hid
    have hne : a ≠ msg := ne_of_held hcell hnone
    refine ⟨a, hblock, ?_⟩
    rw [Function.update_of_ne hne]
    exact hallocated.keeps (by rw [Function.update_of_ne hne, hcell])
  refine simulates_embed_bind fun _ _ => ?_
  by_cases hclosed : (recvEfficient sock TcpMessage.zero).rc = 0
  · simp only [hclosed, if_true]
    have hlost : Beside m msg (cutOff sock) (Function.update m' msg (some (.message
        ⟨(recvEfficient sock TcpMessage.zero).msg.command,
          (recvEfficient sock TcpMessage.zero).msg.len, p⟩))) := by
      rw [cutOff, if_pos hclosed]
      exact hallocated.beside hnone
    refine follows_getClientFromFd (fun entry => (hstill _).entry) ?_
    cases hentry : getClientFromFd env w.server fd with
    | none =>
      rw [getClientFromFd] at hentry
      rw [hentry]
      exact simulates_outside rfl
    | some entry =>
      obtain ⟨hclient, -⟩ := getClientFromFd_some hentry
      rw [getClientFromFd] at hentry
      rw [hentry]
      obtain ⟨id, c⟩ := entry
      refine simulates_embed_bind fun _ _ => simulates_embed_bind fun _ _ => ?_
      exact simulates_pure ⟨⟨rfl, rfl⟩, SameRecords.update _ hclient (client_setClient ..), hlost⟩
  · simp only [hclosed, if_false]
    rw [cutOff, if_neg hclosed]
    refine (follows_manageSubscribeUnsubscribe (hstill _) (Function.update_self ..)
      (hallocated.points hzero)).bind fun m'' a b h => ?_
    obtain ⟨rfl, hsame, rfl⟩ := h
    refine follows_loadMessage (Function.update_self ..) ?_
    refine follows_freePayload hallocated hzero (simulates_pure ⟨⟨rfl, rfl⟩, hsame, ?_⟩)
    rw [Function.update_idem]
    exact ⟨_, m, rfl, hnone, .nothing⟩

end Requests

section Publications

variable {fails : ℕ → Bool} {m : Cells Cell} {env : Env} {w : HeapServer}

/-- The message stays in its block from one client to the next. -/
theorem follows_fanOut {α β : Type} {post : Cells Cell → α → β → Prop} {f : Unit → Handler α}
    {g : Unit → Act β} {blocks : ClientId → Pointer} {topic : Topic} {entries : List Entry}
    {msg : ℕ} {s : Stored} {payload : Option Bytes}
    (hheld : ∀ entry ∈ entries, ∃ a, blocks entry.1 = some a ∧ m a = some .object)
    (hnone : m msg = none)
    (hpoints : ∀ s', Points (Function.update m msg (some (.message s'))) s.payload payload)
    (hwithin : s.len.toNat ≤ (payload.getD []).length)
    (hf : ∀ s', s'.payload = s.payload →
      Follows fails (Function.update m msg (some (.message s'))) (f ()) (g ()) post) :
    Follows fails (Function.update m msg (some (.message s)))
      (fanOutAt env blocks topic msg entries >>= f)
      (fanOut env topic entries ⟨s.command, s.len, payload⟩ >>= g) post := by
  induction entries generalizing s with
  | nil => exact hf s rfl
  | cons entry rest ih =>
    obtain ⟨a, hblock, hcell⟩ := hheld entry List.mem_cons_self
    have hne : a ≠ msg := ne_of_held hcell hnone
    have hrest : ∀ e ∈ rest, ∃ a, blocks e.1 = some a ∧ m a = some .object :=
      fun e he => hheld e (List.mem_cons_of_mem entry he)
    unfold fanOutAt fanOut
    rw [hblock, bind_assoc]
    refine simulates_load (by rw [Function.update_of_ne hne, hcell]) ?_
    by_cases hselected : selected topic entry.2 = true
    · simp only [hselected, if_true, bind_assoc]
      refine follows_sendEfficient (Function.update_self ..) (hpoints s) hwithin
        fun rc sent hsent hlen => ?_
      rw [Function.update_idem]
      refine simulates_embed_bind fun _ hdie => ?_
      obtain ⟨command, len, sentPayload⟩ := sent
      have hsent : sentPayload = payload := hsent
      -- Nothing has failed, and so the next client is sent the same length.
      have hlen : len = s.len := hlen (rc_of_die hdie)
      subst hsent hlen
      exact ih (s := ⟨command, s.len, s.payload⟩) hrest hpoints hwithin hf
    · simp only [hselected]
      exact ih hrest hpoints hwithin hf

theorem follows_sendMsgIfSubscribed {topic : Topic} {text : Bytes} (hheld : RecordsHeld m w) :
    Follows fails m (sendMsgIfSubscribedAt fails env w topic text)
      (sendMsgIfSubscribed env w.server topic text)
      fun m' a b => a.server = b ∧ SameRecords w a ∧ m' = m := by
  unfold sendMsgIfSubscribedAt sendMsgIfSubscribed
  refine follows_makeMessage fun msg payload hmsg hpayload hne => ?_
  have htext : ∀ s', Points (Function.update (Function.update m payload
      (some (Cell.text (text ++ [0])))) msg (some (.message s'))) (some payload)
        (some (text ++ [0])) :=
    fun s' => .text (by rw [Function.update_of_ne hne, Function.update_self])
  refine follows_fanOut ?_ ?_ htext (ofNat_length_le text) ?_
  · intro entry hmem
    obtain ⟨a, hblock, hcell⟩ := hheld.entry hmem
    refine ⟨a, hblock, ?_⟩
    rw [Function.update_of_ne (ne_of_held hcell hpayload), hcell]
  · rw [Function.update_of_ne hne.symm, hmsg]
  · intro s' hs'
    refine follows_loadMessage (Function.update_self ..) ?_
    rw [hs']
    refine simulates_free (by rw [Function.update_of_ne hne, Function.update_self]; rfl) ?_
    rw [update_none_behind hne.symm hpayload]
    exact follows_freeBlock hmsg (simulates_pure ⟨rfl, SameRecords.refl w, rfl⟩)

theorem follows_manageUdpMessage {received : Option Datagram} (hheld : RecordsHeld m w) :
    Follows fails m (manageUdpMessageAt fails env w received)
      (manageUdpMessage env w.server received)
      fun m' a b => a.server = b ∧ SameRecords w a ∧ m' = m := by
  unfold manageUdpMessageAt manageUdpMessage
  cases received with
  | none => exact simulates_stop
  | some d =>
    dsimp only
    cases formattedMsg d with
    | error fault => exact simulates_outside rfl
    | ok formatted =>
      obtain ⟨topic, _ | text⟩ := formatted
      · exact simulates_embed_bind fun _ _ => simulates_pure ⟨rfl, SameRecords.refl w, rfl⟩
      · simp only [Except.mapError, Outcome.ofExcept, pure_bind]
        split
        · exact follows_sendMsgIfSubscribed hheld
        · exact simulates_outside rfl

end Publications

end ServerClientApp.ServerHeap
