import ServerClientApp.Sessions
import ServerClientApp.SubscriberProgram

/-!
A fleet: one server and any number of subscriber processes. A process connects and
presents its id in one turn, learns whether it is admitted, and is then one end of a
session; it may end between any two of its turns, also before the server has accepted its
connection. The server takes waiting connections and ready descriptors in any order.
Every connection is in one of a few states, and the ids the server holds as connected are
those of the open connections.
-/

namespace ServerClientApp.Fleets

open PartialTransfers Outcomes Runs Protocols Wildcards Datagrams ServerHandlers HandlerSpecs
  ServerRuns Ledger SubscriberHandlers SubscriberSpecs Sessions SubscriberProgram

section Model

/-- A process waits for the answer to its id, or is behind check_connection_validity. -/
inductive Stage where
  | connecting
  | past (phase : Phase)
  deriving DecidableEq, Repr

/-- A connection is in the queue of accept, has a descriptor, or was closed by the server. -/
inductive Link where
  | queued
  | held (fd : Int)
  | severed
  deriving DecidableEq, Repr

/-- A process and its connection; `up` and `down` are the frames on their way to the
server and to the process. -/
structure Peer where
  id : ClientId
  stage : Stage
  link : Link
  up : List Frame
  down : List Frame
  deriving DecidableEq

structure Fleet where
  server : Server
  running : Bool
  peers : ℕ → Option Peer

def Fleet.start (udpSockfd tcpSockfd : Int) : Fleet :=
  ⟨Server.prepare udpSockfd tcpSockfd, true, fun _ => none⟩

/-- What the server wrote on the descriptor of a connection, and whether it closed it. -/
def Peer.hear (out : List Effect) (q : Peer) : Peer :=
  match q.link with
  | .held fd =>
    { q with
      down := q.down ++ written fd out
      link := if .closed fd ∈ out then .severed else .held fd }
  | .queued | .severed => q

namespace Fleet

def setPeer (f : Fleet) (p : ℕ) (q : Peer) : Fleet :=
  { f with peers := Function.update f.peers p (some q) }

def serve (f : Fleet) (server : Server) (out : List Effect) : Fleet :=
  { f with server, peers := fun p => (f.peers p).map (Peer.hear out) }

def session (f : Fleet) (q : Peer) (phase : Phase) : Session :=
  ⟨f.server, q.up, q.down, decide (q.link = .severed) || !f.running, phase⟩

end Fleet

def Peer.resume (q : Peer) (s : Session) : Peer :=
  { q with stage := .past s.phase, up := s.up, down := s.down }

/-- A process starts, gets the answer to its id, takes a turn of its session, or ends;
the server accepts the connection of a process, serves its descriptor, serves an event
of no connection, or ends. -/
inductive Turn where
  | starts (p : ℕ) (env : Env) (id : ClientId)
  | confirms (p : ℕ) (calls : List Call)
  | types (p : ℕ) (env : Env) (line : Bytes)
  | reads (p : ℕ) (calls : List Call)
  | awaits (p : ℕ) (calls : List Call)
  | ends (p : ℕ)
  | accepts (p : ℕ) (env : Env) (addr : SockAddr) (fd : Int) (calls : List Call)
  | serves (p : ℕ) (env : Env) (k : ℕ) (calls : List Call)
  | others (env : Env) (event : Event)
  | stops

/-- main has checked the length of the id, an argument and so without NUL. -/
def startTurn (f : Fleet) (p : ℕ) (env : Env) (id : ClientId) : Option Fleet :=
  if id.length ≤ 10 ∧ 0 ∉ id ∧ f.running = true ∧ (f.peers p).isNone = true then do
    let (_, out) ← (presentId env tcpSockfd id).toStep
    some (f.setPeer p ⟨id, .connecting, .queued, written tcpSockfd out, []⟩)
  else none

def confirmTurn (f : Fleet) (p : ℕ) (calls : List Call) : Option Fleet := do
  let q ← f.peers p
  if q.stage = .connecting then
    let (bytes, down) ← (f.session q .idle).incoming
    let ((valid, _), _) ← (awaitConfirmation ⟨bytes, calls⟩).toStep
    some (f.setPeer p { q with down, stage := .past (if valid then .idle else .stopped) })
  else none

def sessionTurn (f : Fleet) (p : ℕ) (act : Session → Option (Session × List Log)) :
    Option Fleet := do
  let q ← f.peers p
  match q.stage with
  | .past phase => (act (f.session q phase)).map fun r => f.setPeer p (q.resume r.1)
  | .connecting => none

def endTurn (f : Fleet) (p : ℕ) : Option Fleet :=
  (f.peers p).map fun q => f.setPeer p { q with stage := .past .stopped }

def Fleet.handle (f : Fleet) (env : Env) (event : Event) : Option (Fleet × List (Env × Event)) :=
  if f.running then
    (ServerRuns.handle env f.server event).map fun r => (f.serve r.1 r.2, [(env, event)])
  else none

def acceptTurn (f : Fleet) (p : ℕ) (env : Env) (addr : SockAddr) (fd : Int) (calls : List Call) :
    Option (Fleet × List (Env × Event)) := do
  let q ← f.peers p
  match q.link, q.up with
  | .queued, frame :: up =>
    (f.setPeer p { q with link := .held fd, up }).handle env
      (.connection addr fd ⟨frame.encode ++ up.flatMap Frame.encode, calls⟩)
  | _, _ => none

/-- recv waits on an open connection without a frame, and finds the end of the stream
once the process has ended. -/
def serveTurn (f : Fleet) (p : ℕ) (env : Env) (k : ℕ) (calls : List Call) :
    Option (Fleet × List (Env × Event)) := do
  let q ← f.peers p
  match q.link, q.up with
  | .held fd, frame :: up =>
    (f.setPeer p { q with up }).handle env
      (.readable k fd ⟨frame.encode ++ up.flatMap Frame.encode, calls⟩)
  | .held fd, [] =>
    if q.stage = .past .stopped then f.handle env (.readable k fd ⟨[], calls⟩) else none
  | _, _ => none

def Local : Event → Bool
  | .line _ | .datagram _ => true
  | .connection .. | .readable .. => false

def turn (f : Fleet) : Turn → Option (Fleet × List (Env × Event))
  | .starts p env id => (startTurn f p env id).map (·, [])
  | .confirms p calls => (confirmTurn f p calls).map (·, [])
  | .types p env line => (sessionTurn f p (typeTurn · env line)).map (·, [])
  | .reads p calls => (sessionTurn f p (readTurn · calls)).map (·, [])
  | .awaits p calls => (sessionTurn f p (awaitTurn · calls)).map (·, [])
  | .ends p => (endTurn f p).map (·, [])
  | .accepts p env addr fd calls => acceptTurn f p env addr fd calls
  | .serves p env k calls => serveTurn f p env k calls
  | .others env event => if Local event then f.handle env event else none
  | .stops => some ({ f with running := false }, [])

/-- accept returns a descriptor that is not open. -/
def FreshTurn (f : Fleet) : Turn → Prop
  | .accepts _ _ _ fd _ => fd ∉ f.server.pollFds.map PollFd.fd
  | .starts .. | .confirms .. | .types .. | .reads .. | .awaits .. | .ends _ | .serves ..
  | .others .. | .stops => True

instance (f : Fleet) : ∀ t, Decidable (FreshTurn f t)
  | .accepts _ _ _ fd _ => inferInstanceAs (Decidable (fd ∉ f.server.pollFds.map PollFd.fd))
  | .starts .. | .confirms .. | .types .. | .reads .. | .awaits .. | .ends _ | .serves ..
  | .others .. | .stops => isTrue trivial

end Model

section Turns

def IsRequest (f : Frame) : Prop :=
  ∃ command topic, ∃ h : topic.length + 1 < 2 ^ 16,
    (command = subscribeReq ∨ command = unsubscribeReq) ∧ NulFree topic ∧
      f = Frame.ofText command topic h

/-- All a process can do in one turn; `atEnd` says that its stream ends after `down`. -/
inductive Moved (atEnd : Bool) (q : Peer) : Peer → Prop
  | admitted {f : Frame} {down : List Frame} :
      q.stage = .connecting → q.down = f :: down → f.command = connectAccepted →
      Moved atEnd q { q with down, stage := .past .idle }
  | denied {down : List Frame} :
      q.stage = .connecting → (∃ f, q.down = f :: down ∧ f.command ≠ connectAccepted) ∨
        (q.down = [] ∧ down = [] ∧ atEnd = true) →
      Moved atEnd q { q with down, stage := .past .stopped }
  | session {phase phase' : Phase} {up down : List Frame} :
      q.stage = .past phase → phase ≠ .stopped → (∀ f ∈ up, f ∈ q.up ∨ IsRequest f) →
      down <:+ q.down → (∀ command topic, phase' = .waiting command topic → up ≠ []) →
      Moved atEnd q { q with stage := .past phase', up, down }
  | ended : Moved atEnd q { q with stage := .past .stopped }

inductive Turned (f : Fleet) : Fleet → List (Env × Event) → Prop
  | starts {p : ℕ} {id : ClientId} (h : id.length + 1 < 2 ^ 16) :
      f.peers p = none → NulFree id →
      Turned f (f.setPeer p ⟨id, .connecting, .queued, [Frame.ofText connectReq id h], []⟩) []
  | moves {p : ℕ} {q q' : Peer} :
      f.peers p = some q → Moved (decide (q.link = .severed) || !f.running) q q' →
      Turned f (f.setPeer p q') []
  | accepts {p : ℕ} {q : Peer} {frame : Frame} {up : List Frame} {env : Env} {addr : SockAddr}
      {fd : Int} {calls : List Call} {server : Server} {out : List Effect} :
      f.peers p = some q → q.link = .queued → q.up = frame :: up →
      fd ∉ f.server.pollFds.map PollFd.fd →
      handle env f.server (.connection addr fd
        ⟨frame.encode ++ up.flatMap Frame.encode, calls⟩) = some (server, out) →
      Turned f ((f.setPeer p { q with link := .held fd, up }).serve server out)
        [(env, .connection addr fd ⟨frame.encode ++ up.flatMap Frame.encode, calls⟩)]
  | answers {p : ℕ} {q : Peer} {frame : Frame} {up : List Frame} {env : Env} {k : ℕ} {fd : Int}
      {calls : List Call} {server : Server} {out : List Effect} :
      f.peers p = some q → q.link = .held fd → q.up = frame :: up →
      handle env f.server (.readable k fd
        ⟨frame.encode ++ up.flatMap Frame.encode, calls⟩) = some (server, out) →
      Turned f ((f.setPeer p { q with up }).serve server out)
        [(env, .readable k fd ⟨frame.encode ++ up.flatMap Frame.encode, calls⟩)]
  | notices {p : ℕ} {q : Peer} {env : Env} {k : ℕ} {fd : Int} {calls : List Call}
      {server : Server} {out : List Effect} :
      f.peers p = some q → q.link = .held fd → q.stage = .past .stopped →
      handle env f.server (.readable k fd ⟨[], calls⟩) = some (server, out) →
      Turned f (f.serve server out) [(env, .readable k fd ⟨[], calls⟩)]
  | others {env : Env} {event : Event} {server : Server} {out : List Effect} :
      Local event = true → handle env f.server event = some (server, out) →
      Turned f (f.serve server out) [(env, event)]
  | stops : Turned f { f with running := false } []

/-- The turns one by one: what the one who takes the turn finds, and the fleet after it. -/
inductive Taken (f : Fleet) : Turn → Fleet → List (Env × Event) → Prop
  | starts {p : ℕ} {env : Env} {id : ClientId} {out : List Effect} :
      id.length ≤ 10 → NulFree id → f.running = true → f.peers p = none →
      presentId env tcpSockfd id = ⟨out, .ok ()⟩ →
      Taken f (.starts p env id)
        (f.setPeer p ⟨id, .connecting, .queued, written tcpSockfd out, []⟩) []
  | confirms {p : ℕ} {calls : List Call} {q : Peer} {down : List Frame} {valid : Bool} :
      f.peers p = some q → q.stage = .connecting →
      ((∃ frame, q.down = frame :: down ∧ (valid = true ↔ frame.command = connectAccepted)) ∨
        (q.down = [] ∧ down = [] ∧ valid = false ∧
          (decide (q.link = .severed) || !f.running) = true)) →
      Taken f (.confirms p calls)
        (f.setPeer p { q with down, stage := .past (if valid then .idle else .stopped) }) []
  | types {p : ℕ} {env : Env} {line : Bytes} {q : Peer} {phase : Phase} {s' : Session}
      {log : List Log} :
      f.peers p = some q → q.stage = .past phase →
      typeTurn (f.session q phase) env line = some (s', log) →
      Taken f (.types p env line) (f.setPeer p (q.resume s')) []
  | reads {p : ℕ} {calls : List Call} {q : Peer} {phase : Phase} {s' : Session} {log : List Log} :
      f.peers p = some q → q.stage = .past phase →
      readTurn (f.session q phase) calls = some (s', log) →
      Taken f (.reads p calls) (f.setPeer p (q.resume s')) []
  | awaits {p : ℕ} {calls : List Call} {q : Peer} {phase : Phase} {s' : Session} {log : List Log} :
      f.peers p = some q → q.stage = .past phase →
      awaitTurn (f.session q phase) calls = some (s', log) →
      Taken f (.awaits p calls) (f.setPeer p (q.resume s')) []
  | ends {p : ℕ} {q : Peer} : f.peers p = some q →
      Taken f (.ends p) (f.setPeer p { q with stage := .past .stopped }) []
  | accepts {p : ℕ} {q : Peer} {frame : Frame} {up : List Frame} {env : Env} {addr : SockAddr}
      {fd : Int} {calls : List Call} {server : Server} {out : List Effect} :
      f.peers p = some q → q.link = .queued → q.up = frame :: up → f.running = true →
      handle env f.server (.connection addr fd
        ⟨frame.encode ++ up.flatMap Frame.encode, calls⟩) = some (server, out) →
      Taken f (.accepts p env addr fd calls)
        ((f.setPeer p { q with link := .held fd, up }).serve server out)
        [(env, .connection addr fd ⟨frame.encode ++ up.flatMap Frame.encode, calls⟩)]
  | answers {p : ℕ} {q : Peer} {frame : Frame} {up : List Frame} {env : Env} {k : ℕ} {fd : Int}
      {calls : List Call} {server : Server} {out : List Effect} :
      f.peers p = some q → q.link = .held fd → q.up = frame :: up → f.running = true →
      handle env f.server (.readable k fd
        ⟨frame.encode ++ up.flatMap Frame.encode, calls⟩) = some (server, out) →
      Taken f (.serves p env k calls) ((f.setPeer p { q with up }).serve server out)
        [(env, .readable k fd ⟨frame.encode ++ up.flatMap Frame.encode, calls⟩)]
  | notices {p : ℕ} {q : Peer} {env : Env} {k : ℕ} {fd : Int} {calls : List Call}
      {server : Server} {out : List Effect} :
      f.peers p = some q → q.link = .held fd → q.up = [] → q.stage = .past .stopped →
      f.running = true → handle env f.server (.readable k fd ⟨[], calls⟩) = some (server, out) →
      Taken f (.serves p env k calls) (f.serve server out) [(env, .readable k fd ⟨[], calls⟩)]
  | others {env : Env} {event : Event} {server : Server} {out : List Effect} :
      Local event = true → f.running = true →
      handle env f.server event = some (server, out) →
      Taken f (.others env event) (f.serve server out) [(env, event)]
  | stops : Taken f .stops { f with running := false } []

variable {f f' : Fleet} {events : List (Env × Event)}

theorem awaitConfirmation_ok {sock sock' : Socket} {valid : Bool} {out : List Effect}
    (h : awaitConfirmation sock = ⟨out, .ok (valid, sock')⟩) :
    0 ≤ (recvEfficient sock TcpMessage.zero).rc ∧
      (valid = true ↔ (recvEfficient sock TcpMessage.zero).msg.command = connectAccepted) := by
  unfold awaitConfirmation at h
  obtain ⟨⟨⟩, _, _, hrecv, h₁, rfl⟩ := Outcome.bind_eq_ok.mp h
  obtain ⟨hrc, rfl⟩ := die_eq_ok.mp hrecv
  refine ⟨by simpa using hrc, ?_⟩
  split_ifs at h₁ with haccepted
  · obtain ⟨-, heq⟩ := Outcome.pure_eq_ok.mp h₁
    rw [Prod.mk.injEq] at heq
    exact iff_of_true heq.1 haccepted
  · simp only [Outcome.emit_bind, Outcome.pure_def, Outcome.mk.injEq, Except.ok.injEq,
      Prod.mk.injEq] at h₁
    exact iff_of_false (by simp [← h₁.2.1]) haccepted

/-- The process takes the next frame, or the end of its stream, for the answer. -/
theorem confirmTurn_ok {p : ℕ} {calls : List Call} (h : confirmTurn f p calls = some f') :
    ∃ q down valid, f.peers p = some q ∧ q.stage = .connecting ∧
      f' = f.setPeer p { q with down, stage := .past (if valid then .idle else .stopped) } ∧
      ((∃ frame, q.down = frame :: down ∧ (valid = true ↔ frame.command = connectAccepted)) ∨
        (q.down = [] ∧ down = [] ∧ valid = false ∧
          (decide (q.link = .severed) || !f.running) = true)) := by
  unfold confirmTurn at h
  simp only [Option.bind_eq_bind, Option.bind_eq_some_iff] at h
  obtain ⟨q, hq, h⟩ := h
  split_ifs at h with hstage
  simp only [Option.bind_eq_some_iff, Prod.exists, Option.some.injEq] at h
  obtain ⟨bytes, down, hincoming, valid, sock, out, hconfirm, rfl⟩ := h
  obtain ⟨hrc, hvalid⟩ := awaitConfirmation_ok (Outcome.toStep_eq_some.mp hconfirm)
  refine ⟨q, down, valid, hq, hstage, rfl, ?_⟩
  rcases incoming_eq_some hincoming with ⟨frame, hdown, rfl⟩ | ⟨hdown, hover, rfl, rfl⟩
  · have hwhole := recvEfficient_whole frame [] calls
    rw [List.append_nil] at hwhole
    obtain ⟨later, hread⟩ := hwhole.resolve_left (by omega)
    rw [hread] at hvalid
    exact Or.inl ⟨frame, hdown, hvalid⟩
  · rw [(recvEfficient_ended calls).2] at hvalid
    refine Or.inr ⟨hdown, rfl, ?_, hover⟩
    cases hcase : valid with
    | false => rfl
    | true => exact absurd (hvalid.mp hcase) (by decide)

/-- A turn of its session keeps a running process between its frames: it may add a
request, and it takes frames from the front. -/
theorem moved_session {q : Peer} {phase : Phase} {t : Sessions.Turn} {s' : Session}
    {log : List Log} {atEnd : Bool} (hstage : q.stage = .past phase)
    (hown : (∃ env line, t = .types env line) ∨ ∃ calls, t = .reads calls ∨ t = .awaits calls)
    (h : Sessions.Turned 0 (f.session q phase) t s' log) : Moved atEnd q (q.resume s') := by
  have hkept {up : List Frame} (hup : up = q.up) : ∀ g ∈ up, g ∈ q.up ∨ IsRequest g :=
    fun g hg => Or.inl (hup ▸ hg)
  have htail {g : Frame} {down : List Frame} (hdown : q.down = g :: down) : down <:+ q.down :=
    hdown ▸ List.suffix_cons g down
  cases h with
  | served | answered | closed => simp at hown
  | exited hphase =>
    have hphase : phase = .idle := hphase
    exact Moved.session hstage (by simp [hphase]) (hkept rfl) (List.suffix_refl _) (by simp)
  | noted hphase =>
    have hphase : phase = .idle := hphase
    exact Moved.session hstage (by simp [hphase]) (hkept rfl) (List.suffix_refl _)
      (by simp [Fleet.session, hphase])
  | @asked env line command topic h hphase hcommand hfree =>
    have hphase : phase = .idle := hphase
    refine Moved.session hstage (by simp [hphase]) ?_ (List.suffix_refl _) (by simp)
    intro g hg
    rcases List.mem_append.mp hg with hg | hg
    · exact Or.inl hg
    · exact Or.inr ⟨command, topic, h, hcommand, hfree, List.mem_singleton.mp hg⟩
  | shown hphase hdown | ignored hphase hdown =>
    have hphase : phase = .idle := hphase
    exact Moved.session hstage (by simp [hphase]) (hkept rfl) (htail hdown)
      (by simp [Fleet.session, hphase])
  | ended hphase =>
    have hphase : phase = .idle := hphase
    exact Moved.session hstage (by simp [hphase]) (hkept rfl) (List.suffix_refl _) (by simp)
  | taken hphase hdown =>
    have hphase : phase = .waiting _ _ := hphase
    exact Moved.session hstage (by simp [hphase]) (hkept rfl) (htail hdown) (by simp)
  | hungUp hphase =>
    have hphase : phase = .waiting _ _ := hphase
    exact Moved.session hstage (by simp [hphase]) (hkept rfl) (List.suffix_refl _) (by simp)

theorem sessionTurn_ok {p : ℕ} {act : Session → Option (Session × List Log)}
    (h : sessionTurn f p act = some f') :
    ∃ q phase s' log, f.peers p = some q ∧ q.stage = .past phase ∧
      act (f.session q phase) = some (s', log) ∧ f' = f.setPeer p (q.resume s') := by
  unfold sessionTurn at h
  simp only [Option.bind_eq_bind, Option.bind_eq_some_iff] at h
  obtain ⟨q, hq, h⟩ := h
  cases hstage : q.stage with
  | connecting => simp [hstage] at h
  | past phase =>
    simp only [hstage, Option.map_eq_some_iff, Prod.exists] at h
    obtain ⟨s', log, hs', rfl⟩ := h
    exact ⟨q, phase, s', log, hq, hstage, hs', rfl⟩

theorem handle_eq_some {env : Env} {event : Event} (h : f.handle env event = some (f', events)) :
    ∃ server out, f.running = true ∧ ServerRuns.handle env f.server event = some (server, out) ∧
      f' = f.serve server out ∧ events = [(env, event)] := by
  unfold Fleet.handle at h
  split_ifs at h with hrunning
  obtain ⟨⟨server, out⟩, hhandle, heq⟩ := Option.map_eq_some_iff.mp h
  rw [Prod.mk.injEq] at heq
  exact ⟨server, out, hrunning, hhandle, heq.1.symm, heq.2.symm⟩

theorem acceptTurn_ok {p : ℕ} {env : Env} {addr : SockAddr} {fd : Int} {calls : List Call}
    (h : acceptTurn f p env addr fd calls = some (f', events)) :
    ∃ q frame up server out, f.peers p = some q ∧ q.link = .queued ∧ q.up = frame :: up ∧
      f.running = true ∧ ServerRuns.handle env f.server (.connection addr fd
        ⟨frame.encode ++ up.flatMap Frame.encode, calls⟩) = some (server, out) ∧
      f' = (f.setPeer p { q with link := .held fd, up }).serve server out ∧
      events = [(env, .connection addr fd ⟨frame.encode ++ up.flatMap Frame.encode, calls⟩)] := by
  unfold acceptTurn at h
  simp only [Option.bind_eq_bind, Option.bind_eq_some_iff] at h
  obtain ⟨q, hq, h⟩ := h
  split at h
  · rename_i frame up hlink hup
    obtain ⟨server, out, hrunning, hhandle, rfl, rfl⟩ := handle_eq_some h
    exact ⟨q, frame, up, server, out, hq, hlink, hup, hrunning, hhandle, rfl, rfl⟩
  · simp at h

theorem serveTurn_ok {p : ℕ} {env : Env} {k : ℕ} {calls : List Call}
    (h : serveTurn f p env k calls = some (f', events)) :
    ∃ q fd, f.peers p = some q ∧ q.link = .held fd ∧ f.running = true ∧
      ((∃ frame up server out, q.up = frame :: up ∧
          ServerRuns.handle env f.server (.readable k fd
            ⟨frame.encode ++ up.flatMap Frame.encode, calls⟩) = some (server, out) ∧
          f' = (f.setPeer p { q with up }).serve server out ∧
          events = [(env, .readable k fd ⟨frame.encode ++ up.flatMap Frame.encode, calls⟩)]) ∨
        (∃ server out, q.up = [] ∧ q.stage = .past .stopped ∧
          ServerRuns.handle env f.server (.readable k fd ⟨[], calls⟩) = some (server, out) ∧
          f' = f.serve server out ∧ events = [(env, .readable k fd ⟨[], calls⟩)])) := by
  unfold serveTurn at h
  simp only [Option.bind_eq_bind, Option.bind_eq_some_iff] at h
  obtain ⟨q, hq, h⟩ := h
  split at h
  · rename_i fd frame up hlink hup
    obtain ⟨server, out, hrunning, hhandle, rfl, rfl⟩ := handle_eq_some h
    exact ⟨q, fd, hq, hlink, hrunning, Or.inl ⟨frame, up, server, out, hup, hhandle, rfl, rfl⟩⟩
  · rename_i fd hlink hup
    split_ifs at h with hstage
    obtain ⟨server, out, hrunning, hhandle, rfl, rfl⟩ := handle_eq_some h
    exact ⟨q, fd, hq, hlink, hrunning, Or.inr ⟨server, out, hup, hstage, hhandle, rfl, rfl⟩⟩
  · simp at h

theorem taken_turn {t : Turn} (h : turn f t = some (f', events)) : Taken f t f' events := by
  cases t with
  | starts p env id =>
    obtain ⟨f₁, hstart, heq⟩ := Option.map_eq_some_iff.mp h
    obtain ⟨rfl, rfl⟩ := Prod.mk.inj heq
    unfold startTurn at hstart
    split_ifs at hstart with hguard
    obtain ⟨hlength, hfree, hrunning, hnone⟩ := hguard
    obtain ⟨⟨⟨⟩, out⟩, hsend, heq⟩ := Option.bind_eq_some_iff.mp hstart
    rw [← Option.some.inj heq]
    exact Taken.starts hlength hfree hrunning (Option.isNone_iff_eq_none.mp hnone)
      (Outcome.toStep_eq_some.mp hsend)
  | confirms p calls =>
    obtain ⟨f₁, hconfirm, heq⟩ := Option.map_eq_some_iff.mp h
    obtain ⟨rfl, rfl⟩ := Prod.mk.inj heq
    obtain ⟨q, down, valid, hq, hstage, rfl, hread⟩ := confirmTurn_ok hconfirm
    exact Taken.confirms hq hstage hread
  | types p env line =>
    obtain ⟨f₁, hsession, heq⟩ := Option.map_eq_some_iff.mp h
    obtain ⟨rfl, rfl⟩ := Prod.mk.inj heq
    obtain ⟨q, phase, s', log, hq, hstage, hact, rfl⟩ := sessionTurn_ok hsession
    exact Taken.types hq hstage hact
  | reads p calls =>
    obtain ⟨f₁, hsession, heq⟩ := Option.map_eq_some_iff.mp h
    obtain ⟨rfl, rfl⟩ := Prod.mk.inj heq
    obtain ⟨q, phase, s', log, hq, hstage, hact, rfl⟩ := sessionTurn_ok hsession
    exact Taken.reads hq hstage hact
  | awaits p calls =>
    obtain ⟨f₁, hsession, heq⟩ := Option.map_eq_some_iff.mp h
    obtain ⟨rfl, rfl⟩ := Prod.mk.inj heq
    obtain ⟨q, phase, s', log, hq, hstage, hact, rfl⟩ := sessionTurn_ok hsession
    exact Taken.awaits hq hstage hact
  | ends p =>
    obtain ⟨f₁, hend, heq⟩ := Option.map_eq_some_iff.mp h
    obtain ⟨rfl, rfl⟩ := Prod.mk.inj heq
    obtain ⟨q, hq, rfl⟩ := Option.map_eq_some_iff.mp hend
    exact Taken.ends hq
  | accepts p env addr fd calls =>
    obtain ⟨q, frame, up, server, out, hq, hlink, hup, hrunning, hhandle, rfl, rfl⟩ :=
      acceptTurn_ok h
    exact Taken.accepts hq hlink hup hrunning hhandle
  | serves p env k calls =>
    obtain ⟨q, fd, hq, hlink, hrunning, ⟨frame, up, server, out, hup, hhandle, rfl, rfl⟩ |
      ⟨server, out, hup, hstage, hhandle, rfl, rfl⟩⟩ := serveTurn_ok h
    · exact Taken.answers hq hlink hup hrunning hhandle
    · exact Taken.notices hq hlink hup hstage hrunning hhandle
  | others env event =>
    simp only [turn] at h
    split_ifs at h with hlocal
    obtain ⟨server, out, hrunning, hhandle, rfl, rfl⟩ := handle_eq_some h
    exact Taken.others hlocal hrunning hhandle
  | stops =>
    simp only [turn, Option.some.injEq, Prod.mk.injEq] at h
    obtain ⟨rfl, rfl⟩ := h
    exact Taken.stops

theorem turned {t : Turn} (hfresh : FreshTurn f t) (h : turn f t = some (f', events)) :
    Turned f f' events := by
  cases taken_turn h with
  | starts hlength hfree _ hnone hsend =>
    have hfits : _ + 1 < 2 ^ 16 := Nat.lt_of_le_of_lt (Nat.succ_le_succ hlength) (by decide)
    obtain ⟨-, rfl⟩ := (sendRequest_eq_ok hfits).mp hsend
    rw [written_encode]
    exact Turned.starts hfits hnone hfree
  | confirms hq hstage hread =>
    refine Turned.moves hq ?_
    rcases hread with ⟨frame, hdown, hvalid⟩ | ⟨hdown, hnil, rfl, hover⟩
    · by_cases haccepted : frame.command = connectAccepted
      · rw [if_pos (hvalid.mpr haccepted)]
        exact Moved.admitted hstage hdown haccepted
      · rw [if_neg fun hv => haccepted (hvalid.mp hv)]
        exact Moved.denied hstage (Or.inl ⟨frame, hdown, haccepted⟩)
    · exact Moved.denied hstage (Or.inr ⟨hdown, hnil, hover⟩)
  | types hq hstage hact =>
    exact Turned.moves hq (moved_session hstage (Or.inl ⟨_, _, rfl⟩) (turned_types hact))
  | reads hq hstage hact =>
    exact Turned.moves hq (moved_session hstage (Or.inr ⟨_, Or.inl rfl⟩) (turned_reads hact))
  | awaits hq hstage hact =>
    exact Turned.moves hq (moved_session hstage (Or.inr ⟨_, Or.inr rfl⟩) (turned_awaits hact))
  | ends hq => exact Turned.moves hq Moved.ended
  | accepts hq hlink hup _ hhandle => exact Turned.accepts hq hlink hup hfresh hhandle
  | answers hq hlink hup _ hhandle => exact Turned.answers hq hlink hup hhandle
  | notices hq hlink _ hstage _ hhandle => exact Turned.notices hq hlink hstage hhandle
  | others hlocal _ hhandle => exact Turned.others hlocal hhandle
  | stops => exact Turned.stops

end Turns

section Order

/-- What connects a process with the server, by the state of the connection. A process
whose connection waits has sent its id; one with a descriptor holds it under its id and
has its admission in front of everything else, and while it waits for an answer there is
something on the way; a refused one has read its refusal or will; and the server closes
a connection it has admitted only after the process. -/
inductive InOrder (s : Server) (q : Peer) : Prop
  | queued (h : q.id.length + 1 < 2 ^ 16) : q.link = .queued →
      q.up = [Frame.ofText connectReq q.id h] → q.down = [] →
      (q.stage = .connecting ∨ q.stage = .past .stopped) → InOrder s q
  | held {fd : Int} : q.link = .held fd → holder s q.id = some fd →
      (∀ f ∈ q.up, IsRequest f) →
      (q.stage = .connecting → ∃ down, q.down = Frame.bare connectAccepted :: down) →
      (∀ command topic, q.stage = .past (.waiting command topic) → q.up ≠ [] ∨ q.down ≠ []) →
      InOrder s q
  | refused : q.link = .severed → q.stage = .connecting →
      q.down = [Frame.bare connectDenied] → InOrder s q
  | finished : q.link = .severed → q.stage = .past .stopped → InOrder s q

def Readable (f : Frame) : Prop :=
  f.command = msgFromUdp → ∃ text, cString f.message.payload = .ok text

structure Fit (s : Server) (q : Peer) : Prop where
  order : InOrder s q
  name : NulFree q.id
  readable : ∀ f ∈ q.down, Readable f

/-- Every connection is in order, and the ids connected at the server are those of the
open connections, one for each descriptor. -/
structure Sound (f : Fleet) : Prop where
  consistent : Consistent f.server
  fit : ∀ p q, f.peers p = some q → Fit f.server q
  exclusive : ∀ p p' q q' fd, f.peers p = some q → f.peers p' = some q' →
    q.link = .held fd → q'.link = .held fd → p = p'
  owned : ∀ id fd, holder f.server id = some fd →
    ∃ p q, f.peers p = some q ∧ q.id = id ∧ q.link = .held fd

theorem sound_start (udpSockfd tcpSockfd : Int) : Sound (Fleet.start udpSockfd tcpSockfd) where
  consistent := consistent_prepare udpSockfd tcpSockfd
  fit := by simp [Fleet.start]
  exclusive := by simp [Fleet.start]
  owned := by simp [Fleet.start, holder, Server.client, Server.prepare]

theorem readable_publication {f : Frame} (h : IsPublication f) : Readable f := by
  obtain ⟨text, hfits, rfl, hfree⟩ := h
  intro _
  refine ⟨text, ?_⟩
  rw [publicationFrame_message]
  exact cString_append_nul text [] hfree

theorem readable_bare {command : UInt8} (h : command ≠ msgFromUdp) :
    Readable (Frame.bare command) := fun hcommand => absurd hcommand h

section Processes

variable {atEnd : Bool} {s : Server} {q q' : Peer}

theorem Moved.same (h : Moved atEnd q q') : q'.id = q.id ∧ q'.link = q.link := by
  cases h with
  | admitted | denied | session | ended => exact ⟨rfl, rfl⟩

theorem Moved.down_suffix (h : Moved atEnd q q') : q'.down <:+ q.down := by
  cases h with
  | admitted hstage hdown => exact hdown ▸ List.suffix_cons _ _
  | denied hstage hdown =>
    obtain ⟨f, hdown, -⟩ | ⟨-, rfl, -⟩ := hdown
    · exact hdown ▸ List.suffix_cons _ _
    · exact List.nil_suffix
  | session _ _ _ hdown => exact hdown
  | ended => exact List.suffix_refl _

/-- A process keeps its connection in order. -/
theorem InOrder.moved (h : InOrder s q) (hmoved : Moved atEnd q q') : InOrder s q' := by
  cases hmoved with
  | @admitted f down hstage hdown hcommand =>
    cases h with
    | queued _ _ _ hempty => simp [hempty] at hdown
    | held hlink hheld hrequests => exact InOrder.held hlink hheld hrequests (by simp) (by simp)
    | refused _ _ honly =>
      rw [honly, List.cons.injEq] at hdown
      rw [← hdown.1] at hcommand
      exact absurd hcommand (by decide)
    | finished _ hover => simp [hstage] at hover
  | @denied down hstage hdown =>
    cases h with
    | queued hfits hlink hup hempty =>
      refine InOrder.queued hfits hlink hup ?_ (Or.inr rfl)
      obtain ⟨f, hcons, -⟩ | ⟨-, hnil, -⟩ := hdown
      · simp [hempty] at hcons
      · exact hnil
    | held hlink hheld hrequests => exact InOrder.held hlink hheld hrequests (by simp) (by simp)
    | refused hlink => exact InOrder.finished hlink rfl
    | finished _ hover => simp [hstage] at hover
  | session hstage hlive hup _ hwaiting =>
    cases h with
    | queued _ _ _ _ hcases => simp [hstage, hlive] at hcases
    | held hlink hheld hrequests =>
      refine InOrder.held hlink hheld ?_ (by simp) ?_
      · intro f hf
        rcases hup f hf with hold | hnew
        · exact hrequests f hold
        · exact hnew
      · intro command topic hstage'
        exact Or.inl (hwaiting command topic (Stage.past.inj hstage'))
    | refused _ hconnecting => simp [hstage] at hconnecting
    | finished _ hover => simp [hstage, hlive] at hover
  | ended =>
    cases h with
    | queued hfits hlink hup hempty => exact InOrder.queued hfits hlink hup hempty (Or.inr rfl)
    | held hlink hheld hrequests => exact InOrder.held hlink hheld hrequests (by simp) (by simp)
    | refused hlink => exact InOrder.finished hlink rfl
    | finished hlink => exact InOrder.finished hlink rfl

theorem Fit.moved (h : Fit s q) (hmoved : Moved atEnd q q') : Fit s q' where
  order := h.order.moved hmoved
  name := hmoved.same.1 ▸ h.name
  readable := fun f hf => h.readable f (hmoved.down_suffix.subset hf)

end Processes

section Events

variable {env : Env} {event : Event} {s s' : Server} {out : List Effect} {q : Peer} {fd : Int}

theorem hear_held (hlink : q.link = .held fd) : q.hear out =
    { q with
      down := q.down ++ written fd out
      link := if .closed fd ∈ out then .severed else .held fd } := by
  simp only [Peer.hear, hlink]

theorem hear_silent (hlink : ∀ fd, q.link ≠ .held fd) : q.hear out = q := by
  unfold Peer.hear
  cases hcase : q.link with
  | held fd => exact absurd hcase (hlink fd)
  | queued | severed => rfl

theorem hear_id (out : List Effect) (q : Peer) : (q.hear out).id = q.id := by
  unfold Peer.hear
  split
  · rfl
  · rfl
  · rfl

/-- The server does not give a connection another descriptor. -/
theorem link_of_hear (h : (q.hear out).link = .held fd) : q.link = .held fd := by
  cases hlink : q.link with
  | held fd' =>
    rw [hear_held hlink] at h
    dsimp only at h
    split_ifs at h
    exact h
  | queued | severed =>
    rw [hear_silent (by simp [hlink]), hlink] at h
    simp at h

/-- A datagram closes no descriptor. -/
theorem keeps_datagram {d : Datagram} (h : manageUdpMessage env s (some d) = ⟨out, .ok s'⟩) :
    .closed fd ∉ out := by
  obtain ⟨-, ⟨topic, line, -, rfl⟩ | ⟨topic, text, hformat, -, hsend⟩⟩ := manageUdpMessage_ok h
  · simp
  · obtain ⟨-, -, hlength⟩ := formattedMsg_text hformat
    obtain ⟨-, rfl, -⟩ := (sendMsgIfSubscribed_eq_ok hlength).mp hsend
    intro hmem
    obtain ⟨entry, -, heq⟩ := List.mem_map.mp hmem
    simp at heq

/-- What an event of others does to the holder of a descriptor: it stays, and may be
sent publications. -/
theorem undisturbed {id : ClientId} (h : Consistent s) (hfresh : Fresh s (env, event))
    (hother : concerns fd event = false) (hheld : holder s id = some fd)
    (hstep : handle env s event = some (s', out)) :
    holder s' id = some fd ∧ .closed fd ∉ out ∧ ∀ f ∈ written fd out, IsPublication f := by
  have hopen : fd ∈ s.clientFds := (h.leased.mem_iff fd).mpr ⟨id, hheld⟩
  refine ⟨?_, ?_, (serves_others ⟨h, hopen⟩ hfresh hother hstep).2⟩
  · cases served h hstep with
    | line | datagram | refused => exact hheld
    | @admitted addr fd' sock id' hid hfd hidle =>
      have hne : id ≠ id' := by
        intro heq
        subst heq
        rw [holder_eq_none.mpr hidle] at hheld
        simp at hheld
      rw [holder_enrol, Function.update_of_ne hne, hheld]
    | @left k fd' sock id' c shown hzero hplace hclient hheld' =>
      have hne : id ≠ id' := by
        intro heq
        subst heq
        rw [hheld, Option.some.injEq] at hheld'
        simp [concerns, hheld'] at hother
      rw [holder_dismiss, Function.update_of_ne hne, hheld]
    | answered _ _ _ hclient _ _ hupdate => rw [holder_of_topics hclient hupdate, hheld]
  · cases served h hstep with
    | line | admitted | answered => simp [admission]
    | datagram hact => exact keeps_datagram hact
    | @refused addr fd' =>
      have hne : fd ≠ fd' := by
        intro heq
        subst heq
        exact hfresh (clientFds_subset _ hopen)
      simp [refusal, hne]
    | @left k fd' =>
      have hne : fd ≠ fd' := by
        intro heq
        simp [concerns, heq] at hother
      simp [hne]

/-- An event of others leaves a connection in order and where it is. -/
theorem Fit.hear (h : Fit s q) (hc : Consistent s) (hfresh : Fresh s (env, event))
    (hother : ∀ fd, q.link = .held fd → concerns fd event = false)
    (hstep : handle env s event = some (s', out)) :
    Fit s' (q.hear out) ∧ (q.hear out).link = q.link := by
  obtain ⟨horder, hname, hreadable⟩ := h
  cases horder with
  | queued hfits hlink hup hdown hstage =>
    rw [hear_silent (by simp [hlink])]
    exact ⟨⟨InOrder.queued hfits hlink hup hdown hstage, hname, hreadable⟩, rfl⟩
  | refused hlink hstage hdown =>
    rw [hear_silent (by simp [hlink])]
    exact ⟨⟨InOrder.refused hlink hstage hdown, hname, hreadable⟩, rfl⟩
  | finished hlink hstage =>
    rw [hear_silent (by simp [hlink])]
    exact ⟨⟨InOrder.finished hlink hstage, hname, hreadable⟩, rfl⟩
  | @held fd hlink hheld hrequests hadmission hwaiting =>
    obtain ⟨hheld', hkept, hpublications⟩ :=
      undisturbed hc hfresh (hother fd hlink) hheld hstep
    rw [hear_held hlink, if_neg hkept]
    refine ⟨⟨InOrder.held rfl hheld' hrequests ?_ ?_, hname, ?_⟩, hlink.symm⟩
    · intro hstage
      obtain ⟨down, hdown⟩ := hadmission hstage
      exact ⟨down ++ written fd out, by rw [hdown, List.cons_append]⟩
    · intro command topic hstage
      rcases hwaiting command topic hstage with hup | hdown
      · exact Or.inl hup
      · exact Or.inr (List.append_ne_nil_of_left_ne_nil hdown _)
    · intro f hf
      rcases List.mem_append.mp hf with hf | hf
      · exact hreadable f hf
      · exact readable_publication (hpublications f hf)

/-- accept reads the id whole: the process is admitted under it or refused. -/
theorem accept_id {id : ClientId} {h : id.length + 1 < 2 ^ 16} (hfree : NulFree id)
    {addr : SockAddr} {rest : Bytes} {calls : List Call}
    (hstep : handle env s (.connection addr fd
      ⟨(Frame.ofText connectReq id h).encode ++ rest, calls⟩) = some (s', out)) :
    0 ≤ fd ∧ ((s.Connected id ∧ s' = s ∧ out = refusal id fd) ∨
      (¬ s.Connected id ∧ s' = enrol s id fd ∧ out = admission s id addr fd)) := by
  obtain ⟨hfd, hrc, id', hid, hanswer⟩ :=
    manageConnectionRequest_eq_ok.mp (Outcome.toStep_eq_some.mp hstep)
  obtain ⟨later, hread⟩ :=
    (recvEfficient_whole (Frame.ofText connectReq id h) rest calls).resolve_left (by omega)
  have htext : cString (Frame.ofText connectReq id h).message.payload = .ok id := by
    rw [Frame.message_ofText]
    exact cString_append_nul id [] hfree
  rw [hread, htext, Except.ok.injEq] at hid
  subst hid
  rcases admitOrDecline_eq_ok.mp hanswer with ⟨hconnected, -, hs, hout⟩ | ⟨hidle, -, hs, hout⟩
  · exact ⟨hfd, Or.inl ⟨hconnected, hs, hout⟩⟩
  · exact ⟨hfd, Or.inr ⟨hidle, hs, hout⟩⟩

end Events

end Order

section Steps

variable {f f' : Fleet} {events : List (Env × Event)} {p : ℕ} {q : Peer} {server : Server}
  {out : List Effect}

theorem peers_eq_setPeer (f : Fleet) (p : ℕ) (q : Peer) :
    (f.setPeer p q).peers = Function.update f.peers p (some q) := rfl

theorem setPeer_self (f : Fleet) (p : ℕ) (q : Peer) : (f.setPeer p q).peers p = some q := by
  rw [peers_eq_setPeer, Function.update_self]

theorem setPeer_other {p' : ℕ} (h : p' ≠ p) : (f.setPeer p q).peers p' = f.peers p' := by
  rw [peers_eq_setPeer, Function.update_of_ne h]

theorem peers_setPeer {p' : ℕ} {q' : Peer} (h : (f.setPeer p q).peers p' = some q') :
    (p' = p ∧ q' = q) ∨ (p' ≠ p ∧ f.peers p' = some q') := by
  by_cases hp : p' = p
  · subst hp
    rw [setPeer_self, Option.some.injEq] at h
    exact Or.inl ⟨rfl, h.symm⟩
  · rw [setPeer_other hp] at h
    exact Or.inr ⟨hp, h⟩

theorem peers_serve (f : Fleet) (server : Server) (out : List Effect) (p : ℕ) :
    (f.serve server out).peers p = (f.peers p).map (Peer.hear out) := rfl

/-- A process that keeps its id and its connection, or a new one in the queue. -/
theorem Sound.setPeer (h : Sound f) (hfit : Fit f.server q)
    (hgains : ∀ fd, q.link = .held fd → ∃ q₀, f.peers p = some q₀ ∧ q₀.link = .held fd)
    (hkeeps : ∀ q₀ fd, f.peers p = some q₀ → q₀.link = .held fd →
      q.id = q₀.id ∧ q.link = .held fd) :
    Sound (f.setPeer p q) where
  consistent := h.consistent
  fit := by
    intro p' q' hp'
    rcases peers_setPeer hp' with ⟨-, rfl⟩ | ⟨-, hold⟩
    · exact hfit
    · exact h.fit p' q' hold
  exclusive := by
    intro p₁ p₂ q₁ q₂ fd h₁ h₂ hlink₁ hlink₂
    rcases peers_setPeer h₁ with ⟨rfl, rfl⟩ | ⟨-, hold₁⟩
    · obtain ⟨q₀, hq₀, hlink₀⟩ := hgains fd hlink₁
      rcases peers_setPeer h₂ with ⟨rfl, -⟩ | ⟨-, hold₂⟩
      · rfl
      · exact h.exclusive _ _ _ _ fd hq₀ hold₂ hlink₀ hlink₂
    · rcases peers_setPeer h₂ with ⟨rfl, rfl⟩ | ⟨-, hold₂⟩
      · obtain ⟨q₀, hq₀, hlink₀⟩ := hgains fd hlink₂
        exact h.exclusive _ _ _ _ fd hold₁ hq₀ hlink₁ hlink₀
      · exact h.exclusive _ _ _ _ fd hold₁ hold₂ hlink₁ hlink₂
  owned := by
    intro id fd hheld
    obtain ⟨p', q', hp', hid, hlink⟩ := h.owned id fd hheld
    by_cases hp : p' = p
    · subst hp
      obtain ⟨hid', hlink'⟩ := hkeeps q' fd hp' hlink
      exact ⟨p', q, setPeer_self f p' q, hid'.trans hid, hlink'⟩
    · exact ⟨p', q', by rw [setPeer_other hp, hp'], hid, hlink⟩

/-- A server turn is looked at connection by connection, and for the ids held after it. -/
theorem sound_serve (hc : Consistent server)
    (hfit : ∀ p q, f.peers p = some q → Fit server (q.hear out))
    (hexclusive : ∀ p p' q q' fd, f.peers p = some q → f.peers p' = some q' →
      q.link = .held fd → q'.link = .held fd → p = p')
    (howned : ∀ id fd, holder server id = some fd →
      ∃ p q, f.peers p = some q ∧ q.id = id ∧ (q.hear out).link = .held fd) :
    Sound (f.serve server out) where
  consistent := hc
  fit := by
    intro p q hp
    obtain ⟨q₀, hq₀, rfl⟩ := Option.map_eq_some_iff.mp hp
    exact hfit p q₀ hq₀
  exclusive := by
    intro p p' q q' fd hp hp' hlink hlink'
    obtain ⟨q₀, hq₀, rfl⟩ := Option.map_eq_some_iff.mp hp
    obtain ⟨q₁, hq₁, rfl⟩ := Option.map_eq_some_iff.mp hp'
    exact hexclusive p p' q₀ q₁ fd hq₀ hq₁ (link_of_hear hlink) (link_of_hear hlink')
  owned := by
    intro id fd hheld
    obtain ⟨p, q, hp, hid, hlink⟩ := howned id fd hheld
    exact ⟨p, q.hear out, by rw [peers_serve, hp, Option.map_some], (hear_id out q).trans hid,
      hlink⟩

/-- An open connection has a descriptor of the client part of the poll vector. -/
theorem Sound.open (h : Sound f) {fd : Int} (hq : f.peers p = some q) (hlink : q.link = .held fd) :
    holder f.server q.id = some fd ∧ fd ∈ f.server.clientFds := by
  cases (h.fit p q hq).order with
  | queued _ hlink' | refused hlink' | finished hlink' => simp [hlink'] at hlink
  | held hlink' hheld =>
    rw [hlink, Link.held.injEq] at hlink'
    subst hlink'
    exact ⟨hheld, (h.consistent.leased.mem_iff _).mpr ⟨q.id, hheld⟩⟩

/-- Behind its admission a process sends requests only. -/
theorem Sound.up_requests (h : Sound f) {fd : Int} (hq : f.peers p = some q)
    (hlink : q.link = .held fd) : ∀ frame ∈ q.up, IsRequest frame := by
  cases (h.fit p q hq).order with
  | queued _ hlink' | refused hlink' | finished hlink' => simp [hlink'] at hlink
  | held _ _ hrequests => exact hrequests

theorem Sound.moves {q' : Peer} {atEnd : Bool} (h : Sound f) (hq : f.peers p = some q)
    (hmoved : Moved atEnd q q') : Sound (f.setPeer p q') := by
  obtain ⟨hid, hlink⟩ := hmoved.same
  refine h.setPeer ((h.fit p q hq).moved hmoved) ?_ ?_
  · intro fd hheld
    exact ⟨q, hq, hlink ▸ hheld⟩
  · intro q₀ fd hq₀ hheld
    rw [hq, Option.some.injEq] at hq₀
    subst hq₀
    exact ⟨hid, hlink.trans hheld⟩

theorem Sound.starts {id : ClientId} (h : Sound f) (hfits : id.length + 1 < 2 ^ 16)
    (hnone : f.peers p = none) (hfree : NulFree id) :
    Sound (f.setPeer p ⟨id, .connecting, .queued, [Frame.ofText connectReq id hfits], []⟩) := by
  refine h.setPeer ⟨InOrder.queued hfits rfl rfl rfl (Or.inl rfl), hfree, by simp⟩ (by simp) ?_
  intro q₀ fd hq₀
  simp [hnone] at hq₀

theorem concerns_readable {fd fd' : Int} (k : ℕ) (sock : Socket) (h : fd ≠ fd') :
    concerns fd (.readable k fd' sock) = false := by
  simpa [concerns] using Ne.symm h

theorem Sound.others {env : Env} {event : Event} (h : Sound f) (hlocal : Local event = true)
    (hstep : handle env f.server event = some (server, out)) : Sound (f.serve server out) := by
  have hfresh : Fresh f.server (env, event) := by
    cases event with
    | line | datagram => trivial
    | connection | readable => simp [Local] at hlocal
  have hother : ∀ fd, concerns fd event = false := by
    cases event with
    | line | datagram => exact fun _ => rfl
    | connection | readable => simp [Local] at hlocal
  have hserver : server = f.server := by
    cases served h.consistent hstep with
    | line | datagram | refused => rfl
    | admitted | left | answered => simp [Local] at hlocal
  subst hserver
  refine sound_serve h.consistent ?_ h.exclusive ?_
  · intro p q hq
    exact ((h.fit p q hq).hear h.consistent hfresh (fun fd _ => hother fd) hstep).1
  · intro id fd hheld
    obtain ⟨p, q, hq, hid, hlink⟩ := h.owned id fd hheld
    refine ⟨p, q, hq, hid, ?_⟩
    rw [((h.fit p q hq).hear h.consistent hfresh (fun fd _ => hother fd) hstep).2, hlink]

/-- The process is admitted under a descriptor nobody has, or refused. -/
theorem Sound.accepts {env : Env} {addr : SockAddr} {fd : Int} {frame : Frame} {up : List Frame}
    {calls : List Call} (h : Sound f) (hq : f.peers p = some q) (hlink : q.link = .queued)
    (hup : q.up = frame :: up) (hfresh : fd ∉ f.server.pollFds.map PollFd.fd)
    (hstep : handle env f.server (.connection addr fd
      ⟨frame.encode ++ up.flatMap Frame.encode, calls⟩) = some (server, out)) :
    Sound ((f.setPeer p { q with link := .held fd, up }).serve server out) := by
  have hfresh' : Fresh f.server
      (env, .connection addr fd ⟨frame.encode ++ up.flatMap Frame.encode, calls⟩) := hfresh
  have hconsistent : Consistent server := consistent_step h.consistent hfresh' hstep
  -- Nobody else has the descriptor, and all others stay where they are.
  have hfree : ∀ p' q', f.peers p' = some q' → q'.link ≠ .held fd := fun p' q' hp' hheld =>
    hfresh (clientFds_subset _ (h.open hp' hheld).2)
  have hothers : ∀ p' q', f.peers p' = some q' →
      Fit server (q'.hear out) ∧ (q'.hear out).link = q'.link := fun p' q' hp' =>
    (h.fit p' q' hp').hear h.consistent hfresh' (fun _ _ => rfl) hstep
  obtain ⟨horder, hname, -⟩ := h.fit p q hq
  cases horder with
  | held hlink' | refused hlink' | finished hlink' => simp [hlink] at hlink'
  | queued hfits _ honly hdown hstage =>
    rw [honly, List.cons.injEq] at hup
    obtain ⟨rfl, rfl⟩ := hup
    have hheard : ({ q with link := .held fd, up := [] } : Peer).hear out =
        { q with
          up := []
          down := written fd out
          link := if .closed fd ∈ out then .severed else .held fd } := by
      rw [hear_held (q := { q with link := .held fd, up := [] }) rfl, hdown, List.nil_append]
    obtain ⟨hfd, hanswer⟩ := accept_id hname hstep
    refine sound_serve hconsistent ?_ ?_ ?_
    · intro p' q' hp'
      rcases peers_setPeer hp' with ⟨-, rfl⟩ | ⟨-, hold⟩
      · rw [hheard]
        rcases hanswer with ⟨-, rfl, rfl⟩ | ⟨-, rfl, rfl⟩
        · have hwritten : written fd (refusal q.id fd) = [Frame.bare connectDenied] :=
            written_encode _
          rw [hwritten, if_pos (by simp [refusal])]
          refine ⟨?_, hname, ?_⟩
          · rcases hstage with hconnecting | hstopped
            · exact InOrder.refused rfl hconnecting rfl
            · exact InOrder.finished rfl hstopped
          · intro f hf
            exact List.mem_singleton.mp hf ▸ readable_bare (by decide)
        · have hwritten : written fd (admission f.server q.id addr fd) =
              [Frame.bare connectAccepted] := written_encode _
          rw [hwritten, if_neg (by simp [admission])]
          refine ⟨InOrder.held rfl ?_ (by simp) (fun _ => ⟨[], rfl⟩) (by simp), hname, ?_⟩
          · rw [holder_enrol, Function.update_self]
          · intro f hf
            exact List.mem_singleton.mp hf ▸ readable_bare (by decide)
      · exact (hothers p' q' hold).1
    · intro p₁ p₂ q₁ q₂ fd' h₁ h₂ hlink₁ hlink₂
      rcases peers_setPeer h₁ with ⟨rfl, rfl⟩ | ⟨-, hold₁⟩
      · rcases peers_setPeer h₂ with ⟨rfl, -⟩ | ⟨-, hold₂⟩
        · rfl
        · rw [Link.held.injEq] at hlink₁
          exact absurd (hlink₁ ▸ hlink₂) (hfree p₂ q₂ hold₂)
      · rcases peers_setPeer h₂ with ⟨rfl, rfl⟩ | ⟨-, hold₂⟩
        · rw [Link.held.injEq] at hlink₂
          exact absurd (hlink₂ ▸ hlink₁) (hfree p₁ q₁ hold₁)
        · exact h.exclusive p₁ p₂ q₁ q₂ fd' hold₁ hold₂ hlink₁ hlink₂
    · intro id fd' hheld
      have hstay (hold : holder f.server id = some fd') : ∃ p' q',
          (f.setPeer p { q with link := .held fd, up := [] }).peers p' = some q' ∧ q'.id = id ∧
            (q'.hear out).link = .held fd' := by
        obtain ⟨p', q', hp', hid, hlink'⟩ := h.owned id fd' hold
        have hne : p' ≠ p := by
          intro heq
          subst heq
          rw [hq, Option.some.injEq] at hp'
          simp [← hp', hlink] at hlink'
        exact ⟨p', q', by rw [setPeer_other hne, hp'], hid, by rw [(hothers p' q' hp').2, hlink']⟩
      rcases hanswer with ⟨-, rfl, rfl⟩ | ⟨-, rfl, rfl⟩
      · exact hstay hheld
      · by_cases hid : id = q.id
        · subst hid
          rw [holder_enrol, Function.update_self, Option.some.injEq] at hheld
          subst hheld
          refine ⟨p, _, setPeer_self f p _, rfl, ?_⟩
          rw [hheard, if_neg (by simp [admission])]
        · rw [holder_enrol, Function.update_of_ne hid] at hheld
          exact hstay hheld

/-- A request is answered on its own connection. -/
theorem answered_request {s : Server} {env : Env} {k : ℕ} {fd : Int} {frame : Frame}
    {rest : Bytes} {calls : List Call} (h : Consistent s)
    (hstep : handle env s (.readable k fd ⟨frame.encode ++ rest, calls⟩) = some (server, out)) :
    holder server = holder s ∧ ∃ answer, answer ≠ msgFromUdp ∧
      out = [.wrote fd (Frame.bare answer).encode] := by
  obtain ⟨later, hread⟩ := frame_read hstep
  cases served h hstep with
  | left hzero =>
    rw [hread] at hzero
    dsimp only at hzero
    omega
  | answered _ _ _ hclient _ _ hupdate =>
    refine ⟨holder_of_topics hclient hupdate, _, ?_, rfl⟩
    unfold answerTo
    split_ifs <;> decide

/-- Reading from a process changes neither its id nor its connection. -/
theorem peers_read {up : List Frame} {p' : ℕ} {q' : Peer} (hq : f.peers p = some q)
    (hp' : (f.setPeer p { q with up }).peers p' = some q') :
    ∃ q₀, f.peers p' = some q₀ ∧ q'.id = q₀.id ∧ q'.link = q₀.link := by
  rcases peers_setPeer hp' with ⟨rfl, rfl⟩ | ⟨-, hold⟩
  · exact ⟨q, hq, rfl, rfl⟩
  · exact ⟨q', hold, rfl, rfl⟩

theorem Sound.answers {env : Env} {k : ℕ} {fd : Int} {frame : Frame} {up : List Frame}
    {calls : List Call} (h : Sound f) (hq : f.peers p = some q) (hlink : q.link = .held fd)
    (hup : q.up = frame :: up)
    (hstep : handle env f.server (.readable k fd
      ⟨frame.encode ++ up.flatMap Frame.encode, calls⟩) = some (server, out)) :
    Sound ((f.setPeer p { q with up }).serve server out) := by
  have hfresh : Fresh f.server
      (env, .readable k fd ⟨frame.encode ++ up.flatMap Frame.encode, calls⟩) := trivial
  obtain ⟨hholder, answer, hanswer, rfl⟩ := answered_request h.consistent hstep
  have hheard : ({ q with up } : Peer).hear [.wrote fd (Frame.bare answer).encode] =
      { q with up, down := q.down ++ [Frame.bare answer], link := .held fd } := by
    rw [hear_held (q := { q with up }) hlink, written_encode, if_neg (by simp)]
  have hown : Fit server (({ q with up } : Peer).hear [.wrote fd (Frame.bare answer).encode]) := by
    obtain ⟨horder, hname, hreadable⟩ := h.fit p q hq
    rw [hheard]
    refine ⟨?_, hname, ?_⟩
    · cases horder with
      | queued _ hlink' | refused hlink' | finished hlink' => simp [hlink'] at hlink
      | held _ _ hrequests hadmission =>
        refine InOrder.held rfl (hholder ▸ (h.open hq hlink).1) ?_ ?_ (by simp)
        · exact fun f hf => hrequests f (hup ▸ List.mem_cons_of_mem frame hf)
        · intro hstage
          obtain ⟨down, hdown⟩ := hadmission hstage
          exact ⟨down ++ [Frame.bare answer], by rw [hdown, List.cons_append]⟩
    · intro f hf
      rcases List.mem_append.mp hf with hf | hf
      · exact hreadable f hf
      · exact List.mem_singleton.mp hf ▸ readable_bare hanswer
  have hall : ∀ p' q', (f.setPeer p { q with up }).peers p' = some q' →
      Fit server (q'.hear [.wrote fd (Frame.bare answer).encode]) ∧
        (q'.hear [.wrote fd (Frame.bare answer).encode]).link = q'.link := by
    intro p' q' hp'
    rcases peers_setPeer hp' with ⟨-, rfl⟩ | ⟨hne, hold⟩
    · exact ⟨hown, by rw [hheard, hlink]⟩
    · refine (h.fit p' q' hold).hear h.consistent hfresh (fun fd' hlink' => ?_) hstep
      exact concerns_readable k _ fun heq =>
        hne (h.exclusive p' p q' q fd hold hq (heq ▸ hlink') hlink)
  refine sound_serve (consistent_step h.consistent hfresh hstep) ?_ ?_ ?_
  · exact fun p' q' hp' => (hall p' q' hp').1
  · intro p₁ p₂ q₁ q₂ fd' h₁ h₂ hlink₁ hlink₂
    obtain ⟨q₃, h₃, -, hlink₃⟩ := peers_read hq h₁
    obtain ⟨q₄, h₄, -, hlink₄⟩ := peers_read hq h₂
    exact h.exclusive p₁ p₂ q₃ q₄ fd' h₃ h₄ (hlink₃ ▸ hlink₁) (hlink₄ ▸ hlink₂)
  · intro id fd' hheld
    obtain ⟨p', q', hp', hid, hlink'⟩ := h.owned id fd' (hholder ▸ hheld)
    by_cases hne : p' = p
    · subst hne
      rw [hq, Option.some.injEq] at hp'
      subst hp'
      refine ⟨p', { q with up }, setPeer_self f p' _, hid, ?_⟩
      rw [(hall p' _ (setPeer_self f p' _)).2]
      exact hlink'
    · have hp₁ : (f.setPeer p { q with up }).peers p' = some q' := by rw [setPeer_other hne, hp']
      exact ⟨p', q', hp₁, hid, by rw [(hall p' q' hp₁).2, hlink']⟩

/-- The server gives the descriptor of an ended process back. -/
theorem Sound.notices {env : Env} {k : ℕ} {fd : Int} {calls : List Call} (h : Sound f)
    (hq : f.peers p = some q) (hlink : q.link = .held fd) (hstage : q.stage = .past .stopped)
    (hstep : handle env f.server (.readable k fd ⟨[], calls⟩) = some (server, out)) :
    Sound (f.serve server out) := by
  have hfresh : Fresh f.server (env, .readable k fd ⟨[], calls⟩) := trivial
  have hconsistent : Consistent server := consistent_step h.consistent hfresh hstep
  have hothers : ∀ p' q', p' ≠ p → f.peers p' = some q' →
      Fit server (q'.hear out) ∧ (q'.hear out).link = q'.link := by
    intro p' q' hne hp'
    refine (h.fit p' q' hp').hear h.consistent hfresh (fun fd' hlink' => ?_) hstep
    exact concerns_readable k _ fun heq =>
      hne (h.exclusive p' p q' q fd hp' hq (heq ▸ hlink') hlink)
  cases served h.consistent hstep with
  | answered hread hpos =>
    have hended := (recvEfficient_ended calls).1
    rw [hread] at hended
    omega
  | @left _ _ _ id c shown hzero hplace hclient hheld =>
    have hid : id = q.id := h.consistent.leased.exclusive id q.id fd hheld (h.open hq hlink).1
    subst hid
    refine sound_serve hconsistent ?_ h.exclusive ?_
    · intro p' q' hp'
      by_cases hne : p' = p
      · subst hne
        rw [hq, Option.some.injEq] at hp'
        subst hp'
        obtain ⟨-, hname, hreadable⟩ := h.fit p' q hq
        rw [hear_held hlink, if_pos (by simp)]
        refine ⟨InOrder.finished rfl hstage, hname, ?_⟩
        intro f hf
        simp only [written, List.filterMap_cons, List.filterMap_nil, List.append_nil] at hf
        exact hreadable f hf
      · exact (hothers p' q' hne hp').1
    · intro id fd' hheld'
      have hid : id ≠ q.id := by
        intro heq
        subst heq
        rw [holder_dismiss, Function.update_self] at hheld'
        simp at hheld'
      rw [holder_dismiss, Function.update_of_ne hid] at hheld'
      obtain ⟨p', q', hp', hid', hlink'⟩ := h.owned id fd' hheld'
      have hne : p' ≠ p := by
        intro heq
        subst heq
        rw [hq, Option.some.injEq] at hp'
        exact hid (hp' ▸ hid'.symm)
      exact ⟨p', q', hp', hid', by rw [(hothers p' q' hne hp').2, hlink']⟩

/-- Every turn keeps the fleet sound. -/
theorem sound_step {t : Turn} (h : Sound f) (hfresh : FreshTurn f t)
    (hstep : turn f t = some (f', events)) : Sound f' := by
  cases turned hfresh hstep with
  | starts hfits hnone hfree => exact h.starts hfits hnone hfree
  | moves hq hmoved => exact h.moves hq hmoved
  | accepts hq hlink hup hnew hserve => exact h.accepts hq hlink hup hnew hserve
  | answers hq hlink hup hserve => exact h.answers hq hlink hup hserve
  | notices hq hlink hstage hserve => exact h.notices hq hlink hstage hserve
  | others hlocal hserve => exact h.others hlocal hserve
  | stops => exact ⟨h.consistent, h.fit, h.exclusive, h.owned⟩

theorem sound_run {udpSockfd tcpSockfd : Int} {turns : List Turn}
    (hfresh : Along turn FreshTurn (Fleet.start udpSockfd tcpSockfd) turns)
    (hrun : exec turn (Fleet.start udpSockfd tcpSockfd) turns = some (f, events)) : Sound f :=
  exec_invariant (fun _ _ _ _ h hfresh hstep => sound_step h hfresh hstep)
    (sound_start udpSockfd tcpSockfd) hfresh hrun

end Steps

end ServerClientApp.Fleets
