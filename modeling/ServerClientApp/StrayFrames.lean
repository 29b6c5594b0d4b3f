import ServerClientApp.Delivery
import ServerClientApp.Ledger

/-!
Frames that the subscriber program never sends. A payload without a NUL is read
beyond its length, and a command that a connection has no use for is taken for
another one.
-/

namespace ServerClientApp.StrayFrames

open PartialTransfers Outcomes Outcome Runs Protocols Wildcards Datagrams ServerHandlers
  HandlerSpecs ServerRuns Ledger Delivery

section Reads

/-- The places of a block that are read as a string: up to and with the first NUL,
beyond the block if there is none in it. -/
def stringReads (block : Bytes) : List ℕ := List.range ((block.takeWhile (· ≠ 0)).length + 1)

def ReadsWithin (payload : Option Bytes) : Prop :=
  ∃ block, payload = some block ∧ ∀ i ∈ stringReads block, i < block.length

theorem stringReads_lt_iff (block : Bytes) :
    (∀ i ∈ stringReads block, i < block.length) ↔ 0 ∈ block := by
  have hlast : (∀ i ∈ stringReads block, i < block.length) ↔
      (block.takeWhile (· ≠ 0)).length < block.length := by
    simp only [stringReads, List.mem_range]
    constructor
    · exact fun h => h _ (Nat.lt_succ_self _)
    · intro h i hi
      omega
  rw [hlast]
  exact string_length_lt_iff block

/-- A string is had exactly if reading it stays in the block. -/
theorem readsWithin_iff (payload : Option Bytes) :
    ReadsWithin payload ↔ ∃ text, cString payload = .ok text := by
  cases payload with
  | none => simp [ReadsWithin, cString]
  | some block =>
    simp only [ReadsWithin, Option.some.injEq, exists_eq_left', stringReads_lt_iff, cString]
    split <;> simp_all

/-- The payload of a frame is read within its length exactly if it has a NUL. -/
theorem readsWithin_message (f : Frame) : ReadsWithin f.message.payload ↔ 0 ∈ f.payload := by
  rw [readsWithin_iff]
  constructor
  · intro hgiven
    obtain ⟨text, htext⟩ := hgiven
    obtain ⟨-, rest, hpayload⟩ := cString_ok htext
    have hblock := f.payload_message
    rw [hpayload, Option.getD_some] at hblock
    rw [← hblock]
    simp
  · intro hmem
    have hstring : cString (some f.payload) = .ok (f.payload.takeWhile (· ≠ 0)) := by
      simp [cString, hmem]
    exact ⟨_, f.cString_message hstring⟩

end Reads

section Faults

variable {env : Env} {s : Server}

/-- An answer is sent or the process ends there. -/
theorem sendAnswer_stops (fd : Int) (command : UInt8) :
    StopsFor (· = Stop.die) (sendAnswer env fd command) := by
  unfold sendAnswer
  refine StopsFor.bind (stopsFor_ok _ _) ?_
  intro sent _
  apply stopsFor_stopIf
  rfl

theorem sendAnswer_then_stops (fd : Int) (command : UInt8) (later : List Effect) (s' : Server) :
    StopsFor (· = Stop.die)
      (sendAnswer env fd command >>= fun _ => (⟨later, .ok s'⟩ : Act Server)) :=
  StopsFor.bind (sendAnswer_stops fd command) fun _ _ => stopsFor_ok later s'

theorem admitOrDecline_stops (addr : SockAddr) (fd : Int) (id : ClientId) :
    StopsFor (· = Stop.die) (admitOrDecline env s addr fd id) := by
  unfold admitOrDecline
  simp only [sendConnectionResponse_eq, emit_bind, pure_def]
  split
  · exact sendAnswer_then_stops _ _ _ _
  · split
    · exact sendAnswer_then_stops _ _ _ _
    · exact sendAnswer_then_stops _ _ _ _

/-- The connection handler once a whole frame has been read. -/
theorem manageConnectionRequest_frame {addr : SockAddr} {fd : Int} (hfd : 0 ≤ fd) (f : Frame)
    (rest : Bytes) {calls : List Call} (hcalls : Steady calls) :
    manageConnectionRequest env s addr fd ⟨f.encode ++ rest, calls⟩ =
      (ofExcept ((cString f.message.payload).mapError Stop.fault) >>= fun id =>
        admitOrDecline env s addr fd id) := by
  obtain ⟨later, -, hread⟩ := recvEfficient_frame f rest calls hcalls
  have haccept : ¬ fd < 0 := by omega
  have hrc : ¬ (3 + (f.len.toNat : Int)) < 0 := by omega
  simp only [manageConnectionRequest, hread, die, haccept, hrc, decide_false, stopIf,
    Bool.false_eq_true, if_false, pure_bind]

/-- The client loop once a whole frame has been read. -/
theorem serveClient_frame (it : ℕ) (fd : Int) (f : Frame) (rest : Bytes) {calls : List Call}
    (hcalls : Steady calls) :
    (serveClient env s it fd ⟨f.encode ++ rest, calls⟩).result.map Prod.fst =
      (manageSubscribeUnsubscribe env s fd f.message).result := by
  obtain ⟨later, -, hread⟩ := recvEfficient_frame f rest calls hcalls
  have hrc : ¬ (3 + (f.len.toNat : Int)) < 0 := by omega
  have hpos : ¬ (3 + (f.len.toNat : Int)) = 0 := by omega
  simp only [serveClient, hread, die, hrc, hpos, decide_false, stopIf, Bool.false_eq_true,
    if_false, pure_bind]
  obtain ⟨out, e | s'⟩ := manageSubscribeUnsubscribe env s fd f.message
  · rfl
  · rfl

end Faults

section Strings

/-- The string was read within the payload; or it could not be, and the frame was
rejected with the tables as they were. -/
def Guarded (s : Server) (f : Frame) (result : Except Stop Server) : Prop :=
  (∀ fault, result ≠ .error (.fault fault)) ∧
    (¬ ReadsWithin f.message.payload →
      ∃ s', result = .ok s' ∧ s'.clients = s.clients ∧ s'.pollFds = s.pollFds)

/-- A handler that reads the payload as a string and ends for no other fault is
guarded exactly against the frames that need no guard. -/
theorem guarded_iff {s : Server} {f : Frame} {act : Bytes → Act Server}
    (hact : ∀ text, cString f.message.payload = .ok text → StopsFor (· = Stop.die) (act text)) :
    Guarded s f (ofExcept ((cString f.message.payload).mapError Stop.fault) >>= act).result ↔
      0 ∈ f.payload := by
  rw [← readsWithin_message, readsWithin_iff]
  cases hstring : cString f.message.payload with
  | error fault =>
    have hnone : ¬ ∃ text, Except.error fault = (.ok text : Except ReadFault Bytes) := by simp
    refine iff_of_false ?_ hnone
    intro hguarded
    exact hguarded.1 fault rfl
  | ok text =>
    refine iff_of_true ⟨?_, ?_⟩ ⟨text, rfl⟩
    · intro fault hfault
      have hdie := hact text hstring _ hfault
      simp at hdie
    · intro hnot
      exact absurd ((readsWithin_iff _).mpr ⟨text, hstring⟩) hnot

/-- In every state the server can reach and for every whole frame, either place that
turns the payload into a string reads it within its length, or rejects it and leaves
the tables alone, exactly if the payload has a NUL. -/
theorem strings_within_frames_iff {s : Server} (h : Reachable s) (env : Env) (f : Frame)
    (rest : Bytes) {calls : List Call} (hcalls : Steady calls) :
    (∀ addr fd, 0 ≤ fd →
      (Guarded s f (manageConnectionRequest env s addr fd ⟨f.encode ++ rest, calls⟩).result ↔
        0 ∈ f.payload)) ∧
    ∀ k fd, s.clientFds[k]? = some fd →
      (Guarded s f ((serveClient env s (3 + k) fd ⟨f.encode ++ rest, calls⟩).result.map Prod.fst) ↔
        0 ∈ f.payload) := by
  constructor
  · intro addr fd hfd
    rw [manageConnectionRequest_frame hfd f rest hcalls]
    exact guarded_iff fun id _ => admitOrDecline_stops addr fd id
  · intro k fd hplace
    obtain ⟨id, c, hentry, -⟩ :=
      h.consistent.getClientFromFd env (List.mem_of_getElem? hplace)
    rw [serveClient_frame (3 + k) fd f rest hcalls]
    unfold manageSubscribeUnsubscribe
    refine guarded_iff fun topic _ => ?_
    simp only [hentry, pure_def]
    split
    all_goals
      split
      all_goals exact sendAnswer_then_stops _ _ _ _

theorem strings_within_frames_audience : Guarded audience unsubscribeT
    ((serveClient Env.plain audience 3 5 ⟨unsubscribeT.encode ++ [], []⟩).result.map Prod.fst) :=
  ((strings_within_frames_iff reachable_audience Env.plain unsubscribeT [] steady_nil).2
    0 5 (by decide)).mpr (by decide)

def unterminated : Frame := ⟨subscribeReq, 1, ascii "t", rfl⟩

/-- An empty frame as the first one makes a NULL pointer the id, and a topic without
its NUL is read beyond the block. -/
theorem strings_read_beyond : Reachable audience ∧
    (manageConnectionRequest Env.plain audience ⟨(127, 0, 0, 1), 3⟩ 7
      ⟨(Frame.bare connectReq).encode, []⟩).result = .error (.fault .nullPointer) ∧
    (serveClient Env.plain audience 3 5 ⟨unterminated.encode, []⟩).result =
      .error (.fault .unterminated) :=
  ⟨reachable_audience, by rfl, by rfl⟩

end Strings

section Commands

variable {env : Env} {s s' : Server} {out : List Effect} {f : Frame} {text : Bytes}
  {rest : Bytes} {calls : List Call}

def RegistersByCommand (f : Frame) (s s' : Server) : Prop :=
  s'.client ≠ s.client ∨ s'.pollFds ≠ s.pollFds → f.command = connectReq

/-- A frame of an established client adds and removes subscriptions only by its
command, and no other command changes the clients. -/
def SubscribesByCommand (f : Frame) (s s' : Server) : Prop :=
  (∀ id topic, topic ∈ s'.topicsOf id → topic ∉ s.topicsOf id → f.command = subscribeReq) ∧
  (∀ id topic, topic ∈ s.topicsOf id → topic ∉ s'.topicsOf id → f.command = unsubscribeReq) ∧
  (f.command ≠ subscribeReq → f.command ≠ unsubscribeReq → s'.client = s.client)

/-- A connection that goes through is refused for a connected id and registered for
any other, whatever the command. -/
theorem connection_step (htext : cString (some f.payload) = .ok text) {addr : SockAddr} {fd : Int}
    (hstep : step s (env, .connection addr fd ⟨f.encode ++ rest, calls⟩) = some (s', out)) :
    (s.Connected text ∧ s' = s) ∨ (¬ s.Connected text ∧ s' = enrol s text fd) := by
  obtain ⟨-, hrc, id, hid, hanswer⟩ :=
    manageConnectionRequest_eq_ok.mp (toStep_eq_some.mp hstep)
  obtain ⟨later, hread⟩ := (recvEfficient_whole f rest calls).resolve_left (by omega)
  rw [hread, f.cString_message htext, Except.ok.injEq] at hid
  subst hid
  rcases admitOrDecline_eq_ok.mp hanswer with
    ⟨hconnected, -, hsame, -⟩ | ⟨hconnected, -, henrol, -⟩
  · exact Or.inl ⟨hconnected, hsame⟩
  · exact Or.inr ⟨hconnected, henrol⟩

theorem registersByCommand_iff (htext : cString (some f.payload) = .ok text) {addr : SockAddr}
    {fd : Int}
    (hstep : step s (env, .connection addr fd ⟨f.encode ++ rest, calls⟩) = some (s', out)) :
    RegistersByCommand f s s' ↔ f.command = connectReq ∨ s.Connected text := by
  rcases connection_step htext hstep with ⟨hconnected, rfl⟩ | ⟨hconnected, rfl⟩
  · simp [RegistersByCommand, hconnected]
  · have hchanged : (enrol s text fd).pollFds ≠ s.pollFds := by
      simp [enrol, Server.addClientPollfd]
    simp [RegistersByCommand, hconnected, hchanged]

/-- A frame of an established client changes the subscriptions of the id that holds
the descriptor. -/
theorem frame_step (h : Consistent s) (htext : cString (some f.payload) = .ok text) {k : ℕ}
    {fd : Int} (hstep : step s (env, .readable k fd ⟨f.encode ++ rest, calls⟩) = some (s', out)) :
    ∃ id c, s.client id = some c ∧ holder s id = some fd ∧
      s'.client = Function.update s.client id (some { c with
        subscribedTopics := topicsAfter f.command text c.subscribedTopics }) := by
  obtain ⟨later, hread⟩ := frame_read hstep
  cases served h hstep with
  | left hzero =>
    rw [hread] at hzero
    simp only at hzero
    omega
  | @answered _ _ _ received id c topic _ hreceived _ _ hc hheld htopic hclient =>
    rw [hread] at hreceived
    subst hreceived
    rw [f.cString_message htext, Except.ok.injEq] at htopic
    subst htopic
    exact ⟨id, c, hc, hheld, hclient⟩

theorem mem_topicsAfter {command : UInt8} {topic key : Topic} {topics : Subscriptions} :
    key ∈ topicsAfter command topic topics ↔
      if command = subscribeReq then key = topic ∨ key ∈ topics
      else key ≠ topic ∧ key ∈ topics := by
  unfold topicsAfter
  split_ifs with hsubscribe hmem
  · constructor
    · exact Or.inr
    · intro hkey
      rcases hkey with rfl | hkey
      · exact hmem
      · exact hkey
  · exact AList.mem_insert topics
  · exact AList.mem_erase

/-- One topic of one id is all a frame changes: after it the id is subscribed to it
exactly if the command says so. -/
theorem mem_topicsOf_frame {id : ClientId} {c : Client} (hc : s.client id = some c)
    (hclient : s'.client = Function.update s.client id (some { c with
      subscribedTopics := topicsAfter f.command text c.subscribedTopics }))
    (other : ClientId) (key : Topic) :
    key ∈ s'.topicsOf other ↔
      if other = id ∧ key = text then f.command = subscribeReq else key ∈ s.topicsOf other := by
  rw [topicsOf_of_update hclient]
  by_cases hother : other = id
  · subst hother
    have hid : s.topicsOf other = c.subscribedTopics := by
      rw [Server.topicsOf, hc, Option.elim_some]
    rw [Function.update_self, mem_topicsAfter, hid]
    by_cases hkey : key = text
    · simp [hkey]
    · simp [hkey]
  · rw [Function.update_of_ne hother, if_neg fun hsame => hother hsame.1]

theorem subscribesByCommand_iff {id : ClientId} {c : Client} (hc : s.client id = some c)
    (hclient : s'.client = Function.update s.client id (some { c with
      subscribedTopics := topicsAfter f.command text c.subscribedTopics })) :
    SubscribesByCommand f s s' ↔
      f.command = subscribeReq ∨ f.command = unsubscribeReq ∨ text ∉ c.subscribedTopics := by
  have hid : s.topicsOf id = c.subscribedTopics := by
    rw [Server.topicsOf, hc, Option.elim_some]
  constructor
  · intro hby
    by_contra hnot
    simp only [not_or, not_not] at hnot
    obtain ⟨hsubscribe, hunsubscribe, hmem⟩ := hnot
    have hremoved : text ∉ s'.topicsOf id := by
      rw [mem_topicsOf_frame hc hclient, if_pos ⟨rfl, rfl⟩]
      exact hsubscribe
    exact hunsubscribe (hby.2.1 id text (hid ▸ hmem) hremoved)
  · intro hcondition
    refine ⟨?_, ?_, ?_⟩
    · intro other key hnow hbefore
      rw [mem_topicsOf_frame hc hclient] at hnow
      split_ifs at hnow
      · exact hnow
      · exact absurd hnow hbefore
    · intro other key hbefore hnow
      rw [mem_topicsOf_frame hc hclient] at hnow
      split_ifs at hnow with hsame
      · obtain ⟨rfl, rfl⟩ := hsame
        exact (hcondition.resolve_left hnow).resolve_right fun habsent => habsent (hid ▸ hbefore)
      · exact absurd hbefore hnow
    · intro hsubscribe hunsubscribe
      have habsent : text ∉ c.subscribedTopics :=
        (hcondition.resolve_left hsubscribe).resolve_left hunsubscribe
      rw [hclient, topicsAfter_of_mem_iff (iff_of_false habsent hsubscribe), ← hc,
        Function.update_eq_self]

/-- In every state the server can reach, a whole frame with a string changes the
tables only by the right command exactly if it has a command its connection has a
use for, or there is nothing it could change: a first frame the id of a connected
client, a later one a topic its client is not subscribed to. -/
theorem only_right_command_iff {s : Server} (h : Reachable s) {f : Frame} {text : Bytes}
    (htext : cString (some f.payload) = .ok text) :
    (∀ env addr fd rest calls s' out,
      step s (env, .connection addr fd ⟨f.encode ++ rest, calls⟩) = some (s', out) →
      (RegistersByCommand f s s' ↔ f.command = connectReq ∨ s.Connected text)) ∧
    ∀ env k fd rest calls s' out,
      step s (env, .readable k fd ⟨f.encode ++ rest, calls⟩) = some (s', out) →
      ∃ id c, holder s id = some fd ∧ s.client id = some c ∧
        (SubscribesByCommand f s s' ↔ f.command = subscribeReq ∨ f.command = unsubscribeReq ∨
          text ∉ c.subscribedTopics) := by
  constructor
  · intro env addr fd rest calls s' out hstep
    exact registersByCommand_iff htext hstep
  · intro env k fd rest calls s' out hstep
    obtain ⟨id, c, hc, hheld, hclient⟩ := frame_step h.consistent htext hstep
    exact ⟨id, c, hheld, hc, subscribesByCommand_iff hc hclient⟩

theorem only_right_command_audience : ∃ s' out,
    step audience (Env.plain, .readable 0 5 ⟨unsubscribeT.encode ++ [], []⟩) = some (s', out) ∧
      SubscribesByCommand unsubscribeT audience s' := by
  obtain ⟨⟨s', out⟩, hstep⟩ := Option.isSome_iff_exists.mp
    (show (step audience (Env.plain, .readable 0 5 ⟨unsubscribeT.encode ++ [], []⟩)).isSome by rfl)
  have htext : cString (some unsubscribeT.payload) = .ok (ascii "t") := by rfl
  obtain ⟨-, hframe⟩ := only_right_command_iff reachable_audience htext
  obtain ⟨id, c, -, -, hiff⟩ := hframe _ _ _ _ _ _ _ hstep
  exact ⟨s', out, hstep, hiff.mpr (Or.inr (Or.inl rfl))⟩

def publishA : Frame := { connectA with command := msgFromUdp }

def answerT : Frame := { unsubscribeT with command := unsubscribeSucc }

/-- The first registers a client, the second removes a subscription. -/
theorem other_commands_take_effect :
    (∃ out, step (Server.prepare 3 4) (Env.plain, .connect ⟨(127, 0, 0, 1), 1⟩ 5 publishA) =
      some (enrol (Server.prepare 3 4) (ascii "a") 5, out)) ∧
    Reachable audience ∧ ascii "t" ∈ audience.topicsOf (ascii "a") ∧
    ∃ s' out, step audience (Env.plain, .frame 0 5 answerT) = some (s', out) ∧
      ascii "t" ∉ s'.topicsOf (ascii "a") :=
  ⟨⟨_, by rfl⟩, reachable_audience, by decide, _, _, by rfl, by decide⟩

end Commands

end ServerClientApp.StrayFrames
