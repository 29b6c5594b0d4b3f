import ServerClientApp.DatagramBounds
import ServerClientApp.Settling

/-!
What can end a program of the fleet. The handlers trust what they read: a payload that
is missing or has no NUL is a fault, and so is a request on a descriptor nobody holds.
The frames the two programs send each other never are one, so only exit and a system
call that fails are left.
-/

namespace ServerClientApp.Faults

open PartialTransfers Outcomes Runs Protocols Wildcards Datagrams ServerHandlers HandlerSpecs
  ServerRuns SubscriberHandlers SubscriberSpecs SubscriberProgram Fleets DatagramBounds
open Outcome (StopsFor)
open Sessions (Phase Session tcpSockfd incoming_eq_some)

section Handlers

variable {α : Type} {smooth : Prop} {env : Env} {s : Server} {calls : List Call} {bytes : Bytes}

/-- If the computation stops it is by DIE, and a call has failed. -/
abbrev DiesOnly (smooth : Prop) (x : Act α) : Prop := StopsFor (fun e => e = .die ∧ ¬ smooth) x

theorem DiesOnly.weaken {other : Prop} {x : Act α} (h : DiesOnly smooth x)
    (himp : other → smooth) : DiesOnly other x := by
  intro e he
  obtain ⟨hdie, hnot⟩ := h e he
  exact ⟨hdie, fun hother => hnot (himp hother)⟩

theorem diesOnly_ok (out : List Effect) (a : α) : DiesOnly smooth (⟨out, .ok a⟩ : Act α) :=
  Outcome.stopsFor_ok out a

theorem diesOnly_die {failed : Bool} (h : failed = true → ¬ smooth) :
    DiesOnly smooth (die failed) := by
  cases failed with
  | false => exact diesOnly_ok [] ()
  | true => exact Outcome.stopsFor_stopIf ⟨rfl, h rfl⟩ true

/-- A send stops the process only if it fails. -/
theorem diesOnly_send (env : Env) (fd : Int) (f : Frame) :
    DiesOnly env.Sends (sendOn env fd f.message >>= fun r => die (r.1 < 0)) := by
  refine StopsFor.bind (Outcome.stopsFor_ok _ _) fun r hr => diesOnly_die fun hfailed hsends => ?_
  rw [sendOn_delivers (delivers_of_sends hsends fd f)] at hr
  cases hr
  simp only [decide_eq_true_eq] at hfailed
  omega

theorem diesOnly_ofText (env : Env) (fd : Int) (command : UInt8) {text : Bytes}
    (h : text.length + 1 < 2 ^ 16) :
    DiesOnly env.Sends
      (sendOn env fd (TcpMessage.ofText command text) >>= fun r => die (r.1 < 0)) := by
  rw [← Frame.message_ofText command text h]
  exact diesOnly_send env fd _

/-- What is done with a message is done if recv has not failed. -/
theorem diesOnly_recv {act : Act α} (hcalls : smooth → Steady calls)
    (h : 0 ≤ (recvEfficient ⟨bytes, calls⟩ TcpMessage.zero).rc → DiesOnly smooth act) :
    DiesOnly smooth
      (die ((recvEfficient ⟨bytes, calls⟩ TcpMessage.zero).rc < 0) >>= fun _ => act) := by
  by_cases hfailed : (recvEfficient ⟨bytes, calls⟩ TcpMessage.zero).rc < 0
  · refine StopsFor.bind (diesOnly_die fun _ hsmooth => ?_) ?_
    · have hnonneg :=
        (recvEfficient_keeps_steady ⟨bytes, calls⟩ TcpMessage.zero (hcalls hsmooth)).1
      omega
    · intro _ hok
      simp [die, hfailed, Outcome.stopIf, Outcome.stop] at hok
  · simp only [die, hfailed, decide_false, Outcome.stopIf, Bool.false_eq_true, if_false, pure_bind]
    exact h (by omega)

theorem diesOnly_awaitConfirmation (bytes : Bytes) (calls : List Call) :
    DiesOnly (Steady calls) (awaitConfirmation ⟨bytes, calls⟩) := by
  refine diesOnly_recv id fun _ => ?_
  split
  · exact diesOnly_ok _ _
  · exact diesOnly_ok _ _

theorem diesOnly_awaitAnswer (command : UInt8) (topic : Topic) (bytes : Bytes) (calls : List Call) :
    DiesOnly (Steady calls) (awaitAnswer command topic ⟨bytes, calls⟩) :=
  diesOnly_recv id fun _ => diesOnly_ok _ _

/-- The loop of a subscriber reads what it can print. -/
theorem diesOnly_manageTcpData {s : Session} {down : List Frame}
    (h : s.incoming = some (bytes, down)) (hreadable : ∀ f ∈ s.down, Readable f) :
    DiesOnly (Steady calls) (manageTcpData ⟨bytes, calls⟩) := by
  refine diesOnly_recv id fun hrc => ?_
  split
  · exact diesOnly_ok _ _
  · rename_i hopen
    split
    · exact diesOnly_ok _ _
    · rename_i hcommand
      rcases incoming_eq_some h with ⟨f, hdown, rfl⟩ | ⟨-, -, rfl, -⟩
      · have hwhole := recvEfficient_whole f [] calls
        rw [List.append_nil] at hwhole
        obtain ⟨later, hread⟩ := hwhole.resolve_left (by omega)
        rw [hread] at hcommand ⊢
        obtain ⟨text, htext⟩ :=
          hreadable f (hdown ▸ List.mem_cons_self) (not_not.mp hcommand)
        simp only [htext, Except.mapError, Outcome.ofExcept, pure_bind]
        exact diesOnly_ok _ _
      · have hended := (recvEfficient_ended calls).1
        omega

theorem diesOnly_sendAnswer (fd : Int) (answer : UInt8) (later : List Effect) (s' : Server) :
    DiesOnly env.Sends (sendAnswer env fd answer >>= fun _ => (⟨later, .ok s'⟩ : Act Server)) :=
  (diesOnly_send env fd (Frame.bare answer)).bind fun _ _ => diesOnly_ok later s'

theorem diesOnly_admitOrDecline (addr : SockAddr) (fd : Int) (id : ClientId) :
    DiesOnly env.Sends (admitOrDecline env s addr fd id) := by
  unfold admitOrDecline
  simp only [sendConnectionResponse_eq, Outcome.emit_bind, Outcome.pure_def]
  split
  · exact diesOnly_sendAnswer _ _ _ _
  · split
    · exact diesOnly_sendAnswer _ _ _ _
    · exact diesOnly_sendAnswer _ _ _ _

/-- A connection whose first frame is an id. -/
theorem diesOnly_manageConnectionRequest {f : Frame} {id : ClientId} (addr : SockAddr) (fd : Int)
    (rest : Bytes) (hid : cString f.message.payload = .ok id) :
    DiesOnly (0 ≤ fd ∧ Steady calls ∧ env.Sends)
      (manageConnectionRequest env s addr fd ⟨f.encode ++ rest, calls⟩) := by
  unfold manageConnectionRequest
  refine StopsFor.bind (diesOnly_die fun hfailed hsmooth => ?_) fun _ _ => ?_
  · simp only [decide_eq_true_eq] at hfailed
    omega
  · refine diesOnly_recv (fun hsmooth => hsmooth.2.1) fun hrc => ?_
    obtain ⟨later, hread⟩ := (recvEfficient_whole f rest calls).resolve_left (by omega)
    simp only [hread, hid, pure_bind, Except.mapError, Outcome.ofExcept]
    exact (diesOnly_admitOrDecline addr fd id).weaken fun hsmooth => hsmooth.2.2

/-- A descriptor that is held, with the end of the stream or a request. -/
theorem diesOnly_serveClient {fd : Int} (it : ℕ) (hregistered : ClientLoop.Registered s fd)
    (hreceives : 0 ≤ (recvEfficient ⟨bytes, calls⟩ TcpMessage.zero).rc →
      ClientLoop.Receives ⟨bytes, calls⟩) :
    DiesOnly (Steady calls ∧ env.Sends) (serveClient env s it fd ⟨bytes, calls⟩) := by
  by_cases hfailed : (recvEfficient ⟨bytes, calls⟩ TcpMessage.zero).rc < 0
  · exact diesOnly_recv And.left fun hrc => by omega
  · rcases ClientLoop.serveClient_registered env it hregistered (hreceives (by omega)) with
      ⟨out, s', hserve, -⟩ | ⟨hnot, out, hserve⟩
    · rw [hserve]
      exact diesOnly_ok _ _
    · rw [hserve]
      intro e he
      cases he
      exact ⟨rfl, fun hsmooth => hnot hsmooth.2⟩

theorem diesOnly_fanOut (topic : Topic) (entries : List Entry) (f : Frame) :
    DiesOnly env.Sends (fanOut env topic entries f.message) := by
  induction entries with
  | nil => exact diesOnly_ok _ _
  | cons entry rest ih =>
    by_cases hselected : selected topic entry.2 = true
    · by_cases hdelivers : Delivers env entry.2.currFd f
      · rw [fanOut_delivers hselected hdelivers]
        exact ih
      · obtain ⟨part, -, -, hfails⟩ := fanOut_fails hselected hdelivers rest
        rw [hfails]
        intro e he
        cases he
        exact ⟨rfl, fun hsends => hdelivers (delivers_of_sends hsends _ _)⟩
    · rw [fanOut_skip (by simpa using hselected)]
      exact ih

/-- A datagram the buffers have room for. -/
theorem diesOnly_manageUdpMessage {d : Datagram}
    (hfits : (dataType d).toNat = 3 → StringFits d) :
    DiesOnly env.Sends (manageUdpMessage env s (some d)) := by
  simp only [manageUdpMessage]
  cases hformat : formattedMsg d with
  | error fault =>
    obtain ⟨i, hi, hbeyond⟩ := (formattedMsg_fault_iff d).mp ⟨fault, hformat⟩
    have hwithin := (payloadReads_lt_iff d).mpr (fun htype => (hfits htype).1) i hi
    omega
  | ok formatted =>
    obtain ⟨topic, _ | text⟩ := formatted
    · exact diesOnly_ok _ _
    · have hlength : text.length + 1 ≤ maxUdpMsg := by
        by_cases htype : (dataType d).toNat = 3
        · obtain ⟨-, -, rfl⟩ := (formattedMsg_string htype).mp hformat
          exact (string_text_length d).mpr (hfits htype).2
        · exact number_text_length htype hformat
      have hshort : text.length + 1 < 2 ^ 16 := (formattedMsg_text hformat).2.2
      simp only [Except.mapError, Outcome.ofExcept, pure_bind, hlength, if_true,
        sendMsgIfSubscribed, ← publicationFrame_message text hshort]
      exact (diesOnly_fanOut topic _ _).bind fun _ _ => diesOnly_ok _ _

end Handlers

section Turns

def stopOf {α : Type} (x : Act α) : Option Stop :=
  match x.result with
  | .error e => some e
  | .ok _ => none

/-- Why the program whose turn it is ends in it, if it does not go through. -/
def stops (f : Fleet) : Fleets.Turn → Option Stop
  | .starts _ env id => if id.length ≤ 10 then stopOf (presentId env tcpSockfd id) else none
  | .confirms p calls => do
    let q ← f.peers p
    let (bytes, _) ← (f.session q .idle).incoming
    if q.stage = .connecting then stopOf (awaitConfirmation ⟨bytes, calls⟩) else none
  | .types p env line => do
    let q ← f.peers p
    match q.stage, manageStdinData line with
    | .past .idle, .request command topic => stopOf (sendRequest env tcpSockfd command topic)
    | _, _ => none
  | .reads p calls => do
    let q ← f.peers p
    let (bytes, _) ← (f.session q .idle).incoming
    if q.stage = .past .idle then stopOf (manageTcpData ⟨bytes, calls⟩) else none
  | .awaits p calls => do
    let q ← f.peers p
    let (bytes, _) ← (f.session q .idle).incoming
    match q.stage with
    | .past (.waiting command topic) => stopOf (awaitAnswer command topic ⟨bytes, calls⟩)
    | _ => none
  | .accepts p env addr fd calls => do
    let q ← f.peers p
    match q.link, q.up with
    | .queued, frame :: up =>
      stopOf (manageConnectionRequest env f.server addr fd
        ⟨frame.encode ++ up.flatMap Frame.encode, calls⟩)
    | _, _ => none
  | .serves p env k calls => do
    let q ← f.peers p
    match q.link, q.up with
    | .held fd, frame :: up =>
      stopOf (serveClient env f.server (3 + k) fd
        ⟨frame.encode ++ up.flatMap Frame.encode, calls⟩)
    | .held fd, [] =>
      if q.stage = .past .stopped then
        stopOf (serveClient env f.server (3 + k) fd ⟨[], calls⟩)
      else none
    | _, _ => none
  | .others _ (.line text) => stopOf (checkStdinData f.server text)
  | .others env (.datagram received) => stopOf (manageUdpMessage env f.server received)
  | .others _ (.connection ..) | .others _ (.readable ..) | .ends _ | .stops => none

def Smooth : Fleets.Turn → Prop
  | .starts _ env _ | .types _ env _ => env.Sends
  | .confirms _ calls | .reads _ calls | .awaits _ calls => Steady calls
  | .accepts _ env _ fd calls => 0 ≤ fd ∧ Steady calls ∧ env.Sends
  | .serves _ env _ calls => Steady calls ∧ env.Sends
  | .others env (.datagram received) => received.isSome = true ∧ env.Sends
  | .others _ (.line _) | .others _ (.connection ..) | .others _ (.readable ..) | .ends _
  | .stops => True

def Fitting : Fleets.Turn → Prop
  | .others _ (.datagram (some d)) => (dataType d).toNat = 3 → StringFits d
  | _ => True

variable {f : Fleet} {p : ℕ} {q : Peer} {t : Fleets.Turn} {e : Stop}

theorem stopOf_eq_some {α : Type} {x : Act α} : stopOf x = some e ↔ x.result = .error e := by
  unfold stopOf
  cases x.result with
  | error e' => simp
  | ok a => simp

theorem toStep_of_stopOf {α : Type} {x : Act α} (h : stopOf x = some e) : x.toStep = none := by
  unfold Outcome.toStep
  rw [stopOf_eq_some.mp h]

/-- A turn that ends a program is none that the fleet goes on from. -/
theorem turn_of_stops (h : stops f t = some e) : turn f t = none := by
  cases t with
  | starts p env id =>
    simp only [stops] at h
    split_ifs at h
    simp [turn, startTurn, toStep_of_stopOf h]
  | confirms p calls =>
    simp only [stops, Option.bind_eq_bind, Option.bind_eq_some_iff] at h
    obtain ⟨q, hq, r, hincoming, h⟩ := h
    split_ifs at h with hstage
    simp [turn, confirmTurn, hq, hstage, hincoming, toStep_of_stopOf h]
  | types p env line =>
    simp only [stops, Option.bind_eq_bind, Option.bind_eq_some_iff] at h
    obtain ⟨q, hq, h⟩ := h
    split at h
    · rename_i command topic hstage hline
      simp [turn, sessionTurn, hq, hstage, Sessions.typeTurn, Fleet.session, hline,
        toStep_of_stopOf h]
    · simp at h
  | reads p calls =>
    simp only [stops, Option.bind_eq_bind, Option.bind_eq_some_iff] at h
    obtain ⟨q, hq, r, hincoming, h⟩ := h
    split_ifs at h with hstage
    simp [turn, sessionTurn, hq, hstage, Sessions.readTurn, Settling.session_phase, hincoming,
      toStep_of_stopOf h]
  | awaits p calls =>
    simp only [stops, Option.bind_eq_bind, Option.bind_eq_some_iff] at h
    obtain ⟨q, hq, r, hincoming, h⟩ := h
    split at h
    · rename_i command topic hstage
      have hsame : (f.session q (.waiting command topic)).incoming = some r := hincoming
      simp [turn, sessionTurn, hq, hstage, Sessions.awaitTurn, Settling.session_phase, hsame,
        toStep_of_stopOf h]
    · simp at h
  | ends | stops => simp [stops] at h
  | accepts p env addr fd calls =>
    simp only [stops, Option.bind_eq_bind, Option.bind_eq_some_iff] at h
    obtain ⟨q, hq, h⟩ := h
    split at h
    · rename_i frame up hlink hup
      simp [turn, acceptTurn, hq, hlink, hup, Fleet.handle, ServerRuns.handle, Fleet.setPeer,
        toStep_of_stopOf h]
    · simp at h
  | serves p env k calls =>
    simp only [stops, Option.bind_eq_bind, Option.bind_eq_some_iff] at h
    obtain ⟨q, hq, h⟩ := h
    split at h
    · rename_i fd frame up hlink hup
      simp [turn, serveTurn, hq, hlink, hup, Fleet.handle, ServerRuns.handle, Fleet.setPeer,
        toStep_of_stopOf h]
    · rename_i fd hlink hup
      split_ifs at h with hstage
      simp [turn, serveTurn, hq, hlink, hup, hstage, Fleet.handle, ServerRuns.handle,
        toStep_of_stopOf h]
    · simp at h
  | others env event =>
    cases event with
    | line text =>
      rw [stops] at h
      simp [turn, Local, Fleet.handle, ServerRuns.handle, toStep_of_stopOf h]
    | datagram received =>
      rw [stops] at h
      simp [turn, Local, Fleet.handle, ServerRuns.handle, toStep_of_stopOf h]
    | connection | readable => simp [stops] at h

theorem DiesOnly.stops {α : Type} {smooth : Prop} {x : Act α} (h : DiesOnly smooth x)
    (hstop : stopOf x = some e) : e = .die ∧ ¬ smooth := h e (stopOf_eq_some.mp hstop)

/-- The server finds the id of a process in front of a waiting connection. -/
theorem diesOnly_accepts {env : Env} {addr : SockAddr} {fd : Int} {calls : List Call}
    {frame : Frame} {up : List Frame} (h : Sound f) (hq : f.peers p = some q)
    (hlink : q.link = .queued) (hup : q.up = frame :: up) (rest : Bytes) :
    DiesOnly (Smooth (.accepts p env addr fd calls))
      (manageConnectionRequest env f.server addr fd ⟨frame.encode ++ rest, calls⟩) := by
  obtain ⟨horder, hname, -⟩ := h.fit p q hq
  cases horder with
  | held hlink' | refused hlink' | finished hlink' => simp [hlink'] at hlink
  | queued hfits _ honly =>
    rw [honly, List.cons.injEq] at hup
    obtain ⟨rfl, rfl⟩ := hup
    have hid : cString (Frame.ofText connectReq q.id hfits).message.payload = .ok q.id := by
      rw [Frame.message_ofText]
      exact cString_append_nul q.id [] hname
    exact diesOnly_manageConnectionRequest addr fd rest hid

/-- What a client it has admitted sends is a request. -/
theorem diesOnly_answers {env : Env} {k : ℕ} {fd : Int} {calls : List Call} {frame : Frame}
    {up : List Frame} (h : Sound f) (hq : f.peers p = some q) (hlink : q.link = .held fd)
    (hup : q.up = frame :: up) (rest : Bytes) :
    DiesOnly (Smooth (.serves p env k calls))
      (serveClient env f.server (3 + k) fd ⟨frame.encode ++ rest, calls⟩) := by
  have hregistered := ClientLoop.registered_of_consistent h.consistent (h.open hq hlink).2
  refine diesOnly_serveClient (3 + k) hregistered fun hrc => Or.inr ?_
  obtain ⟨later, hread⟩ := (recvEfficient_whole frame rest calls).resolve_left (by omega)
  obtain ⟨command, topic, hfits, -, hfree, rfl⟩ :=
    h.up_requests hq hlink frame (hup ▸ List.mem_cons_self)
  rw [hread]
  refine ⟨by dsimp only; omega, topic, ?_⟩
  rw [Frame.message_ofText]
  exact cString_append_nul topic [] hfree

/-- A stream without a whole frame left is the end of a client it has admitted. -/
theorem diesOnly_notices {env : Env} {k : ℕ} {fd : Int} {calls : List Call} {bytes : Bytes}
    (h : Sound f) (hq : f.peers p = some q) (hlink : q.link = .held fd)
    (hended : (recvEfficient ⟨bytes, calls⟩ TcpMessage.zero).rc ≤ 0) :
    DiesOnly (Smooth (.serves p env k calls))
      (serveClient env f.server (3 + k) fd ⟨bytes, calls⟩) :=
  diesOnly_serveClient (3 + k)
    (ClientLoop.registered_of_consistent h.consistent (h.open hq hlink).2)
    fun hrc => Or.inl (by omega)

/-- What the server does with a waiting connection: it reads an id. -/
theorem accepts_stops {env : Env} {addr : SockAddr} {fd : Int} {calls : List Call} (h : Sound f)
    (hstop : stops f (.accepts p env addr fd calls) = some e) :
    e = .die ∧ ¬ Smooth (.accepts p env addr fd calls) := by
  simp only [stops, Option.bind_eq_bind, Option.bind_eq_some_iff] at hstop
  obtain ⟨q, hq, hstop⟩ := hstop
  split at hstop
  · rename_i frame up hlink hup
    exact (diesOnly_accepts h hq hlink hup _).stops hstop
  · simp at hstop

/-- What the server reads from a client it has admitted is a request or the end. -/
theorem serves_stops {env : Env} {k : ℕ} {calls : List Call} (h : Sound f)
    (hstop : stops f (.serves p env k calls) = some e) :
    e = .die ∧ ¬ Smooth (.serves p env k calls) := by
  simp only [stops, Option.bind_eq_bind, Option.bind_eq_some_iff] at hstop
  obtain ⟨q, hq, hstop⟩ := hstop
  split at hstop
  · rename_i fd frame up hlink hup
    exact (diesOnly_answers h hq hlink hup _).stops hstop
  · rename_i fd hlink hup
    split_ifs at hstop
    exact (diesOnly_notices h hq hlink (recvEfficient_ended calls).1).stops hstop
  · simp at hstop

/-- In a fleet that is in order a program ends with exit, or by a call that fails. -/
theorem stops_reason (h : Sound f) (hfitting : Fitting t) (hstop : stops f t = some e) :
    (e = .exit ∧ ∃ env, t = .others env (.line (ascii "exit"))) ∨ (e = .die ∧ ¬ Smooth t) := by
  cases t with
  | starts p env id =>
    simp only [stops] at hstop
    split_ifs at hstop with hlength
    have hfits : id.length + 1 < 2 ^ 16 := by omega
    exact Or.inr ((diesOnly_ofText env tcpSockfd connectReq hfits).stops hstop)
  | confirms p calls =>
    simp only [stops, Option.bind_eq_bind, Option.bind_eq_some_iff] at hstop
    obtain ⟨q, -, r, -, hstop⟩ := hstop
    split_ifs at hstop
    exact Or.inr ((diesOnly_awaitConfirmation r.1 calls).stops hstop)
  | types p env line =>
    simp only [stops, Option.bind_eq_bind, Option.bind_eq_some_iff] at hstop
    obtain ⟨q, -, hstop⟩ := hstop
    split at hstop
    · rename_i command topic _ hline
      obtain ⟨-, -, hlength, -⟩ := manageStdinData_request hline
      have hfits : topic.length + 1 < 2 ^ 16 := by omega
      exact Or.inr ((diesOnly_ofText env tcpSockfd command hfits).stops hstop)
    · simp at hstop
  | reads p calls =>
    simp only [stops, Option.bind_eq_bind, Option.bind_eq_some_iff] at hstop
    obtain ⟨q, hq, ⟨bytes, down⟩, hincoming, hstop⟩ := hstop
    split_ifs at hstop
    exact Or.inr ((diesOnly_manageTcpData hincoming (h.fit p q hq).readable).stops hstop)
  | awaits p calls =>
    simp only [stops, Option.bind_eq_bind, Option.bind_eq_some_iff] at hstop
    obtain ⟨q, -, r, -, hstop⟩ := hstop
    split at hstop
    · exact Or.inr ((diesOnly_awaitAnswer _ _ r.1 calls).stops hstop)
    · simp at hstop
  | ends | stops => simp [stops] at hstop
  | accepts p env addr fd calls => exact Or.inr (accepts_stops h hstop)
  | serves p env k calls => exact Or.inr (serves_stops h hstop)
  | others env event =>
    cases event with
    | line text =>
      rw [stops, stopOf_eq_some, checkStdinData] at hstop
      split_ifs at hstop with hexit
      · cases hstop
        exact Or.inl ⟨rfl, env, by rw [hexit]⟩
      · cases hstop
    | datagram received =>
      cases received with
      | none =>
        rw [stops, stopOf_eq_some] at hstop
        cases hstop
        exact Or.inr ⟨rfl, fun hsmooth => by simp [Smooth] at hsmooth⟩
      | some d =>
        obtain ⟨hdie, hnot⟩ := (diesOnly_manageUdpMessage hfitting).stops hstop
        exact Or.inr ⟨hdie, fun hsmooth => hnot hsmooth.2⟩
    | connection | readable => simp [stops] at hstop

end Turns

end ServerClientApp.Faults
