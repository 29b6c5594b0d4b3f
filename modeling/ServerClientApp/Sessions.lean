import ServerClientApp.Delivery
import ServerClientApp.SubscriberSpecs

/-!
One session: the server, the subscriber, and the two streams of frames between
them. The server may serve any event at any time, the subscriber reads its stream
from two places, in its loop and while it waits for an answer, and a log keeps
what each end did. Both ends are the functions of the source.
-/

namespace ServerClientApp.Sessions

open PartialTransfers Outcomes Runs Protocols Wildcards Datagrams ServerHandlers HandlerSpecs
  ServerRuns Delivery SubscriberHandlers SubscriberSpecs

section Model

inductive Phase where
  | idle
  | waiting (command : UInt8) (topic : Topic)
  | stopped
  deriving DecidableEq, Repr

/-- `up` and `down` are the frames on their way to the server and to the subscriber;
`closed` says that the server has closed the connection. -/
structure Session where
  server : Server
  up : List Frame
  down : List Frame
  closed : Bool
  phase : Phase

def Session.start (server : Server) : Session := ⟨server, [], [], false, .idle⟩

/-- What an end did: a request was sent, answered, or a line shown for it (with the
message it was taken from); a publication was sent or shown; any other line was
shown. -/
inductive Log where
  | asked (command : UInt8) (topic : Topic)
  | answered (command : UInt8) (topic : Topic) (answer : UInt8)
  | outcome (line : Bytes) (taken : TcpMessage)
  | published (payload : Bytes)
  | shown (line : Bytes)
  | noted (line : Bytes)
  deriving DecidableEq, Repr

def written (fd : Int) (out : List Effect) : List Frame :=
  out.filterMap fun effect =>
    match effect with
    | .wrote fd' wire => if fd' = fd then Frame.decode wire else none
    | .closed _ | .printed _ | .complained _ => none

def publications (frames : List Frame) : List Bytes :=
  (frames.filter fun f => f.command = msgFromUdp).map Frame.payload

/-- The next bytes recv gives the subscriber, and what stays on the way: a frame, or
the end of the stream once the server has closed. -/
def Session.incoming (s : Session) : Option (Bytes × List Frame) :=
  match s.down with
  | f :: rest => some (f.encode, rest)
  | [] => if s.closed then some ([], []) else none

def tcpSockfd : Int := 3

/-- One end takes a step: the server serves an event of others, serves the next
request of this session at its place in the poll vector, or closes; a line is typed;
the loop finds the socket ready; the wait for an answer ends. -/
inductive Turn where
  | serves (env : Env) (event : Event)
  | answers (env : Env) (k : ℕ) (calls : List Call)
  | closes
  | types (env : Env) (line : Bytes)
  | reads (calls : List Call)
  | awaits (calls : List Call)

/-- Events on the descriptor of the session are turns of their own. -/
def concerns (fd : Int) : Event → Bool
  | .readable _ fd' _ => fd' = fd
  | .line _ | .datagram _ | .connection .. => false

variable (fd : Int)

def serverTurn (s : Session) (env : Env) (event : Event) : Option (Session × List Log) :=
  if s.closed || concerns fd event then none
  else do
    let (server, out) ← handle env s.server event
    some ({ s with server, down := s.down ++ written fd out },
      (publications (written fd out)).map Log.published)

def answerTurn (s : Session) (env : Env) (k : ℕ) (calls : List Call) :
    Option (Session × List Log) :=
  match s.closed, s.up with
  | false, f :: up => do
    let (server, out) ← handle env s.server (.readable k fd ⟨f.encode, calls⟩)
    let topic ← (cString (some f.payload)).toOption
    some ({ s with server, up, down := s.down ++ written fd out },
      (written fd out).map fun answer => .answered f.command topic answer.command)
  | _, _ => none

def typeTurn (s : Session) (env : Env) (line : Bytes) : Option (Session × List Log) :=
  match s.phase with
  | .idle =>
    match manageStdinData line with
    | .exit => some ({ s with phase := .stopped }, [])
    | .usage | .invalidTopic => some (s, ((manageStdinData line).notice.map Log.noted).toList)
    | .request command topic => do
      let (_, out) ← (sendRequest env tcpSockfd command topic).toStep
      some ({ s with up := s.up ++ written tcpSockfd out, phase := .waiting command topic },
        [.asked command topic])
  | _ => none

def readTurn (s : Session) (calls : List Call) : Option (Session × List Log) :=
  match s.phase with
  | .idle => do
    let (bytes, down) ← s.incoming
    let ((ended, _), out) ← (manageTcpData ⟨bytes, calls⟩).toStep
    some ({ s with down, phase := if ended then .stopped else .idle }, out.filterMap fun effect =>
      match effect with
      | .printed line => some (.shown line)
      | .complained line => some (.noted line)
      | _ => none)
  | _ => none

def awaitTurn (s : Session) (calls : List Call) : Option (Session × List Log) :=
  match s.phase with
  | .waiting command topic => do
    let (bytes, down) ← s.incoming
    let (_, out) ← (awaitAnswer command topic ⟨bytes, calls⟩).toStep
    let taken := (recvEfficient ⟨bytes, calls⟩ TcpMessage.zero).msg
    some ({ s with down, phase := .idle }, out.filterMap fun effect =>
      match effect with
      | .printed line => some (.outcome line taken)
      | _ => none)
  | _ => none

def turn (s : Session) : Turn → Option (Session × List Log)
  | .serves env event => serverTurn fd s env event
  | .answers env k calls => answerTurn fd s env k calls
  | .closes => some ({ s with closed := true }, [])
  | .types env line => typeTurn s env line
  | .reads calls => readTurn s calls
  | .awaits calls => awaitTurn s calls

def FreshTurn (s : Session) : Turn → Prop
  | .serves env event => Fresh s.server (env, event)
  | .answers .. | .closes | .types .. | .reads _ | .awaits _ => True

instance (s : Session) : ∀ t, Decidable (FreshTurn s t)
  | .serves env event => inferInstanceAs (Decidable (Fresh s.server (env, event)))
  | .answers .. | .closes | .types .. | .reads _ | .awaits _ => isTrue trivial

end Model

section Written

variable {fd : Int} {env : Env} {s s' : Server} {out : List Effect}

theorem written_encode (f : Frame) : written fd [.wrote fd f.encode] = [f] := by
  simp [written, Frame.decode_encode]

theorem written_other {fd' : Int} (h : fd' ≠ fd) (wire : Bytes) (rest : List Effect) :
    written fd (.wrote fd' wire :: rest) = written fd rest := by
  simp [written, h]

def IsPublication (f : Frame) : Prop := ∃ text h, f = publicationFrame text h ∧ NulFree text

/-- Among the effects of a datagram only copies of its publication are written. -/
theorem written_datagram {d : Datagram} (h : manageUdpMessage env s (some d) = ⟨out, .ok s'⟩) :
    ∀ f ∈ written fd out, IsPublication f := by
  obtain ⟨-, ⟨topic, line, -, rfl⟩ | ⟨topic, text, hformat, -, hsend⟩⟩ := manageUdpMessage_ok h
  · simp [written]
  · obtain ⟨-, hfree, hlength⟩ := formattedMsg_text hformat
    obtain ⟨-, rfl, -⟩ := (sendMsgIfSubscribed_eq_ok hlength).mp hsend
    intro f hf
    obtain ⟨effect, heffect, hdecode⟩ := List.mem_filterMap.mp hf
    obtain ⟨entry, -, rfl⟩ := List.mem_map.mp heffect
    dsimp only at hdecode
    split_ifs at hdecode
    rw [Frame.decode_encode, Option.some.injEq] at hdecode
    exact ⟨text, hlength, hdecode.symm, hfree⟩

/-- The server side of the session is in order, as long as it is open. -/
def Live (fd : Int) (s : Server) : Prop := Consistent s ∧ fd ∈ s.clientFds

/-- An event of others leaves the session open, and writes publications on it only. -/
theorem serves_others {event : Event} (h : Live fd s) (hfresh : Fresh s (env, event))
    (hother : concerns fd event = false) (hstep : handle env s event = some (s', out)) :
    Live fd s' ∧ ∀ f ∈ written fd out, IsPublication f := by
  obtain ⟨hc, hopen⟩ := h
  have hconsistent : Consistent s' := consistent_step (i := (env, event)) hc hfresh hstep
  obtain ⟨owner, howner⟩ := (hc.leased.mem_iff fd).mp hopen
  -- The owner keeps the descriptor unless the event concerns it.
  have hlive (hkeep : holder s' owner = some fd) : Live fd s' :=
    ⟨hconsistent, (hconsistent.leased.mem_iff fd).mpr ⟨owner, hkeep⟩⟩
  cases served hc hstep with
  | line => exact ⟨hlive howner, by simp [written]⟩
  | datagram hact => exact ⟨hlive howner, written_datagram hact⟩
  | @refused addr fd' =>
    have hne : fd' ≠ fd := by
      intro heq
      subst heq
      exact hfresh (clientFds_subset _ hopen)
    exact ⟨hlive howner, by simp [refusal, written, hne]⟩
  | @admitted addr fd' sock id hid hfd hidle =>
    have hne : fd' ≠ fd := by
      intro heq
      subst heq
      exact hfresh (clientFds_subset _ hopen)
    have hid : owner ≠ id := by
      intro heq
      subst heq
      rw [holder_eq_none.mpr hidle] at howner
      simp at howner
    exact ⟨hlive (by rw [holder_enrol, Function.update_of_ne hid, howner]),
      by simp [admission, written, hne]⟩
  | @left k fd' sock id c shown hzero hplace hclient hheld =>
    have hne : fd' ≠ fd := by simpa [concerns] using hother
    have hid : owner ≠ id := by
      intro heq
      subst heq
      rw [howner, Option.some.injEq] at hheld
      exact hne hheld.symm
    exact ⟨hlive (by rw [holder_dismiss, Function.update_of_ne hid, howner]), by simp [written]⟩
  | @answered k fd' sock received id c topic _ hreceived hpos hplace hclient hheld htopic hupdate =>
    have hne : fd' ≠ fd := by simpa [concerns] using hother
    refine ⟨hlive (by rw [holder_of_topics hclient hupdate, howner]), ?_⟩
    rw [written_other hne]
    simp [written]

/-- A request of the session leaves it open, and writes one answer on it. -/
theorem serves_request {k : ℕ} {f : Frame} {calls : List Call} {topic : Topic} (h : Live fd s)
    (htopic : cString (some f.payload) = .ok topic)
    (hstep : handle env s (.readable k fd ⟨f.encode, calls⟩) = some (s', out)) :
    Live fd s' ∧ ∃ topics, written fd out = [Frame.bare (answerTo f.command topic topics)] := by
  obtain ⟨hc, hopen⟩ := h
  have hconsistent : Consistent s' :=
    consistent_step (i := (env, .readable k fd ⟨f.encode, calls⟩)) hc trivial hstep
  have hwhole : handle env s (.readable k fd ⟨f.encode ++ [], calls⟩) = some (s', out) := by
    rwa [List.append_nil]
  obtain ⟨later, hread⟩ := frame_read hwhole
  rw [List.append_nil] at hread
  cases served hc hstep with
  | left hzero =>
    rw [hread] at hzero
    dsimp only at hzero
    omega
  | @answered _ _ _ received id c topic' _ hreceived hpos hplace hclient hheld htopic' hupdate =>
    have hmsg : received.msg = f.message := by rw [← hreceived, hread]
    rw [hmsg, f.cString_message htopic, Except.ok.injEq] at htopic'
    subst htopic'
    refine ⟨⟨hconsistent, (hconsistent.leased.mem_iff fd).mpr ⟨id, ?_⟩⟩, c.subscribedTopics, ?_⟩
    · rw [holder_of_topics hclient hupdate, hheld]
    · rw [hmsg]
      exact written_encode _

end Written

section Turns

inductive Turned (fd : Int) (s : Session) : Turn → Session → List Log → Prop
  | served {env : Env} {event : Event} {server : Server} {frames : List Frame} :
      s.closed = false → Live fd server → (∀ f ∈ frames, IsPublication f) →
      Turned fd s (.serves env event) { s with server, down := s.down ++ frames }
        ((publications frames).map Log.published)
  | answered {env : Env} {k : ℕ} {calls : List Call} {f : Frame} {up : List Frame} {topic : Topic}
      {server : Server} {topics : Subscriptions} :
      s.closed = false → Live fd server → s.up = f :: up → cString (some f.payload) = .ok topic →
      Turned fd s (.answers env k calls)
        { s with server, up, down := s.down ++ [Frame.bare (answerTo f.command topic topics)] }
        [.answered f.command topic (answerTo f.command topic topics)]
  | closed : Turned fd s .closes { s with closed := true } []
  | exited {env : Env} {text : Bytes} : s.phase = .idle →
      Turned fd s (.types env text) { s with phase := .stopped } []
  | noted {env : Env} {text line : Bytes} : s.phase = .idle →
      Turned fd s (.types env text) s [.noted line]
  | asked {env : Env} {text : Bytes} {command : UInt8} {topic : Topic}
      {h : topic.length + 1 < 2 ^ 16} :
      s.phase = .idle → command = subscribeReq ∨ command = unsubscribeReq → NulFree topic →
      Turned fd s (.types env text)
        { s with up := s.up ++ [Frame.ofText command topic h], phase := .waiting command topic }
        [.asked command topic]
  | shown {calls : List Call} {f : Frame} {down : List Frame} {text : Bytes} :
      s.phase = .idle → s.down = f :: down → f.command = msgFromUdp →
      cString f.message.payload = .ok text →
      Turned fd s (.reads calls) { s with down } [.shown (text ++ ascii "\n")]
  | ignored {calls : List Call} {f : Frame} {down : List Frame} {line : Bytes} :
      s.phase = .idle → s.down = f :: down → f.command ≠ msgFromUdp →
      Turned fd s (.reads calls) { s with down } [.noted line]
  | ended {calls : List Call} : s.phase = .idle → s.down = [] → s.closed = true →
      Turned fd s (.reads calls) { s with phase := .stopped } []
  | taken {calls : List Call} {f : Frame} {down : List Frame} {command : UInt8} {topic : Topic} :
      s.phase = .waiting command topic → s.down = f :: down →
      Turned fd s (.awaits calls) { s with down, phase := .idle }
        [.outcome (outcomeLine command topic f.command) f.message]
  | hungUp {calls : List Call} {command : UInt8} {topic : Topic} :
      s.phase = .waiting command topic → s.down = [] → s.closed = true →
      Turned fd s (.awaits calls) { s with phase := .idle }
        [.outcome (outcomeLine command topic 0) TcpMessage.zero]

variable {fd : Int} {s s' : Session} {log : List Log}

theorem incoming_eq_some {bytes : Bytes} {down : List Frame}
    (h : s.incoming = some (bytes, down)) :
    (∃ f, s.down = f :: down ∧ bytes = f.encode) ∨
      (s.down = [] ∧ s.closed = true ∧ bytes = [] ∧ down = []) := by
  unfold Session.incoming at h
  cases hdown : s.down with
  | nil =>
    simp only [hdown] at h
    split_ifs at h with hclosed
    simp only [Option.some.injEq, Prod.mk.injEq] at h
    exact Or.inr ⟨rfl, hclosed, h.1.symm, h.2.symm⟩
  | cons f rest =>
    simp only [hdown, Option.some.injEq, Prod.mk.injEq] at h
    obtain ⟨rfl, rfl⟩ := h
    exact Or.inl ⟨f, rfl, rfl⟩

theorem serverTurn_ok {env : Env} {event : Event}
    (h : serverTurn fd s env event = some (s', log)) :
    s.closed = false ∧ concerns fd event = false ∧
      ∃ server out, handle env s.server event = some (server, out) ∧
        s' = { s with server, down := s.down ++ written fd out } ∧
        log = (publications (written fd out)).map Log.published := by
  unfold serverTurn at h
  split_ifs at h with hguard
  simp only [Bool.or_eq_true, not_or, Bool.not_eq_true] at hguard
  simp only [Option.bind_eq_bind, Option.bind_eq_some_iff, Prod.exists, Option.some.injEq,
    Prod.mk.injEq] at h
  obtain ⟨server, out, hhandle, rfl, rfl⟩ := h
  exact ⟨hguard.1, hguard.2, server, out, hhandle, rfl, rfl⟩

theorem answerTurn_ok {env : Env} {k : ℕ} {calls : List Call}
    (h : answerTurn fd s env k calls = some (s', log)) :
    s.closed = false ∧ ∃ f up server out topic, s.up = f :: up ∧
      handle env s.server (.readable k fd ⟨f.encode, calls⟩) = some (server, out) ∧
      cString (some f.payload) = .ok topic ∧
      s' = { s with server, up, down := s.down ++ written fd out } ∧
      log = (written fd out).map fun answer => .answered f.command topic answer.command := by
  unfold answerTurn at h
  split at h
  · rename_i f up hclosed hup
    simp only [Option.bind_eq_bind, Option.bind_eq_some_iff, Prod.exists, Option.some.injEq,
      Prod.mk.injEq] at h
    obtain ⟨server, out, hhandle, topic, htopic, rfl, rfl⟩ := h
    refine ⟨hclosed, f, up, server, out, topic, hup, hhandle, ?_, rfl, rfl⟩
    cases hstring : cString (some f.payload) with
    | error fault => simp [hstring, Except.toOption] at htopic
    | ok text => simpa [hstring, Except.toOption] using htopic
  · simp at h

theorem turned_serves {env : Env} {event : Event} (hlive : s.closed = false → Live fd s.server)
    (hfresh : Fresh s.server (env, event)) (h : serverTurn fd s env event = some (s', log)) :
    Turned fd s (.serves env event) s' log := by
  obtain ⟨hclosed, hother, server, out, hhandle, rfl, rfl⟩ := serverTurn_ok h
  obtain ⟨hserver, hframes⟩ := serves_others (hlive hclosed) hfresh hother hhandle
  exact Turned.served hclosed hserver hframes

theorem turned_answers {env : Env} {k : ℕ} {calls : List Call}
    (hlive : s.closed = false → Live fd s.server)
    (h : answerTurn fd s env k calls = some (s', log)) :
    Turned fd s (.answers env k calls) s' log := by
  obtain ⟨hclosed, f, up, server, out, topic, hup, hhandle, htopic, rfl, rfl⟩ := answerTurn_ok h
  obtain ⟨hserver, topics, hwritten⟩ := serves_request (hlive hclosed) htopic hhandle
  rw [hwritten]
  exact Turned.answered hclosed hserver hup htopic

theorem turned_types {env : Env} {line : Bytes} (h : typeTurn s env line = some (s', log)) :
    Turned fd s (.types env line) s' log := by
  unfold typeTurn at h
  cases hphase : s.phase with
  | waiting | stopped => simp [hphase] at h
  | idle =>
    simp only [hphase] at h
    cases hline : manageStdinData line with
    | exit =>
      simp only [hline, Option.some.injEq, Prod.mk.injEq] at h
      obtain ⟨rfl, rfl⟩ := h
      exact Turned.exited hphase
    | usage | invalidTopic =>
      simp only [hline, Typed.notice, Option.map_some, Option.toList_some, Option.some.injEq,
        Prod.mk.injEq] at h
      obtain ⟨rfl, rfl⟩ := h
      exact Turned.noted hphase
    | request command topic =>
      obtain ⟨hcommand, -, hlength, hfree, -⟩ := manageStdinData_request hline
      have hfits : topic.length + 1 < 2 ^ 16 := by omega
      simp only [hline, Option.bind_eq_bind, Option.bind_eq_some_iff, Prod.exists,
        Option.some.injEq, Prod.mk.injEq] at h
      obtain ⟨⟨⟩, out, hsend, rfl, rfl⟩ := h
      obtain ⟨-, rfl⟩ := (sendRequest_eq_ok hfits).mp (Outcome.toStep_eq_some.mp hsend)
      rw [written_encode]
      exact Turned.asked hphase hcommand hfree

theorem turned_reads {calls : List Call} (h : readTurn s calls = some (s', log)) :
    Turned fd s (.reads calls) s' log := by
  unfold readTurn at h
  cases hphase : s.phase with
  | waiting | stopped => simp [hphase] at h
  | idle =>
    simp only [hphase, Option.bind_eq_bind, Option.bind_eq_some_iff, Prod.exists,
      Option.some.injEq, Prod.mk.injEq] at h
    obtain ⟨bytes, down, hincoming, ended, sock, out, hread, rfl, rfl⟩ := h
    have hact := manageTcpData_ok (Outcome.toStep_eq_some.mp hread)
    rcases incoming_eq_some hincoming with ⟨f, hdown, rfl⟩ | ⟨hdown, hclosed, rfl, rfl⟩
    · have hwhole := recvEfficient_whole f [] calls
      rw [List.append_nil] at hwhole
      rcases hact with ⟨hzero, -, -⟩ | ⟨hpos, rfl, hcases⟩
      · rcases hwhole with hfailed | ⟨later, hframe⟩
        · omega
        · rw [hframe] at hzero
          dsimp only at hzero
          omega
      · obtain ⟨later, hframe⟩ := hwhole.resolve_left (by omega)
        rw [hframe] at hcases
        have hidle : ({ s with down, phase := .idle } : Session) = { s with down } := by
          rw [← hphase]
        rcases hcases with ⟨hcommand, line, rfl⟩ | ⟨hcommand, text, htext, rfl⟩
        · simp only [Bool.false_eq_true, if_false, hidle]
          exact Turned.ignored hphase hdown hcommand
        · simp only [Bool.false_eq_true, if_false, hidle]
          exact Turned.shown hphase hdown hcommand htext
    · have hended := (recvEfficient_ended calls).1
      rcases hact with ⟨-, rfl, rfl⟩ | ⟨hpos, -, -⟩
      · have hsame : ({ s with down := [], phase := .stopped } : Session) =
            { s with phase := .stopped } := by
          rw [← hdown]
        rw [if_pos rfl, hsame]
        exact Turned.ended hphase hdown hclosed
      · omega

theorem turned_awaits {calls : List Call} (h : awaitTurn s calls = some (s', log)) :
    Turned fd s (.awaits calls) s' log := by
  unfold awaitTurn at h
  cases hphase : s.phase with
  | idle | stopped => simp [hphase] at h
  | waiting command topic =>
    simp only [hphase, Option.bind_eq_bind, Option.bind_eq_some_iff, Prod.exists,
      Option.some.injEq, Prod.mk.injEq] at h
    obtain ⟨bytes, down, hincoming, sock, out, hread, rfl, rfl⟩ := h
    obtain ⟨hnonneg, rfl⟩ := awaitAnswer_ok (Outcome.toStep_eq_some.mp hread)
    rcases incoming_eq_some hincoming with ⟨f, hdown, rfl⟩ | ⟨hdown, hclosed, rfl, rfl⟩
    · have hwhole := recvEfficient_whole f [] calls
      rw [List.append_nil] at hwhole
      obtain ⟨later, hframe⟩ := hwhole.resolve_left (by omega)
      rw [hframe]
      exact Turned.taken hphase hdown
    · rw [(recvEfficient_ended calls).2]
      have hsame : ({ s with down := [], phase := .idle } : Session) =
          { s with phase := .idle } := by
        rw [← hdown]
      rw [hsame]
      exact Turned.hungUp hphase hdown hclosed

theorem turned {t : Turn} (hlive : s.closed = false → Live fd s.server) (hfresh : FreshTurn s t)
    (h : turn fd s t = some (s', log)) : Turned fd s t s' log := by
  cases t with
  | serves env event => exact turned_serves hlive hfresh h
  | answers env k calls => exact turned_answers hlive h
  | closes =>
    simp only [turn, Option.some.injEq, Prod.mk.injEq] at h
    obtain ⟨rfl, rfl⟩ := h
    exact Turned.closed
  | types env line => exact turned_types h
  | reads calls => exact turned_reads h
  | awaits calls => exact turned_awaits h

end Turns

end ServerClientApp.Sessions
