import ServerClientApp.Connections
import ServerClientApp.SubscriberSpecs

/-!
The subscriber as a process, from main to the close of its socket. The peer may
answer anything: what the process reads is one stream of bytes, and each round of
the loop has what poll reports and the line getline reads. What it writes on the
socket is an initial part of the frames its user asked for.
-/

namespace ServerClientApp.SubscriberProgram

open PartialTransfers Outcomes Protocols Wildcards Datagrams ServerHandlers HandlerSpecs
  Connections SubscriberHandlers SubscriberSpecs

section Model

def presentId (env : Env) (tcpSockfd : Int) (id : ClientId) : Act Unit := do
  let (rc, _) ← sendOn env tcpSockfd (TcpMessage.ofText connectReq id)
  die (rc < 0)

/-- The second half: only the command of the message counts, also where the stream
ended inside of it or left it zero. -/
def awaitConfirmation (sock : Socket) : Act (Bool × Socket) := do
  let received := recvEfficient sock TcpMessage.zero
  die (received.rc < 0)
  if received.msg.command = connectAccepted then return (true, received.sock)
  else
    Outcome.emit (.printed (ascii "Connection denied\n"))
    return (false, received.sock)

def checkConnectionValidity (env : Env) (tcpSockfd : Int) (id : ClientId) (sock : Socket) :
    Act (Bool × Socket) := do
  presentId env tcpSockfd id
  awaitConfirmation sock

/-- What one poll reports: the line getline reads, if stdin is ready, and whether the
socket is; with the results of the send calls until the next poll. -/
structure Round where
  env : Env
  stdin : Option Bytes
  tcp : Bool

def manageLine (env : Env) (tcpSockfd : Int) (line : Bytes) (sock : Socket) :
    Act (Bool × Socket) :=
  match manageStdinData line with
  | .exit => return (true, sock)
  | .request command topic => do
    sendRequest env tcpSockfd command topic
    let sock ← awaitAnswer command topic sock
    return (false, sock)
  | .usage | .invalidTopic => do
    Outcome.emit (.printed ((manageStdinData line).notice.getD []))
    return (false, sock)

def serveStdin (tcpSockfd : Int) (r : Round) (sock : Socket) : Act (Bool × Socket) :=
  match r.stdin with
  | none => return (false, sock)
  | some line => manageLine r.env tcpSockfd line sock

/-- The body of the loop: stdin before the socket, which is left alone after exit. -/
def serveRound (tcpSockfd : Int) (r : Round) (sock : Socket) : Act (Bool × Socket) := do
  let (ended, sock) ← serveStdin tcpSockfd r sock
  if ended then return (true, sock)
  else if r.tcp then manageTcpData sock
  else return (false, sock)

def run (tcpSockfd : Int) : List Round → Socket → Act (Bool × Socket)
  | [], sock => return (false, sock)
  | r :: rounds, sock => do
    let (ended, sock) ← serveRound tcpSockfd r sock
    if ended then return (true, sock) else run tcpSockfd rounds sock

/-- What main gets from the library and the kernel: the number sscanf reads, and in
prepare the connected socket, `none` if a call failed. -/
structure Outside where
  sscanf : Bytes → Option UInt16
  prepare : Bytes → UInt16 → Option Int

def checkAndRun (env : Env) (tcpSockfd : Int) (id : ClientId) (rounds : List Round)
    (sock : Socket) : Act Bool := do
  let (valid, sock) ← checkConnectionValidity env tcpSockfd id sock
  if valid then
    let (ended, _) ← run tcpSockfd rounds sock
    return ended
  else return true

def leave (tcpSockfd : Int) (ended : Bool) : Act (Option Int) :=
  if ended then do
    Outcome.emit (.closed tcpSockfd)
    return some 0
  else return none

/-- main up to the end of these rounds: the exit code, once the subscriber has been
deleted or there was nothing to do. -/
def subscriberMain (outside : Outside) (argv : List Bytes) (env : Env) (rounds : List Round)
    (sock : Socket) : Act (Option Int) :=
  match argv with
  | [_, clientId, serverIp, serverPort] =>
    if clientId.length > 10 then do
      Outcome.emit (.printed (ascii "ID must have at most 10 characters\n"))
      return some (-1)
    else
      match outside.sscanf serverPort with
      | none => Outcome.stop .die
      | some port =>
        match outside.prepare serverIp port with
        | none => Outcome.stop .die
        | some tcpSockfd => do
          let ended ← checkAndRun env tcpSockfd clientId rounds sock
          leave tcpSockfd ended
  | _ => do
    Outcome.emit (.printed (ascii "Subscriber Usage: " ++ argv.headD [] ++
      ascii " <CLIENT_ID> <SERVER_IP> <SERVER_PORT> \n"))
    return some (-1)

end Model

section Writing

variable {α β : Type} {fd : Int} {frames more : List Frame}

def sent (fd : Int) (out : List Effect) : Bytes := (wires fd out).flatten

@[simp] theorem sent_nil (fd : Int) : sent fd [] = [] := rfl

@[simp] theorem sent_append (fd : Int) (out out' : List Effect) :
    sent fd (out ++ out') = sent fd out ++ sent fd out' := by
  rw [sent, wires_append, List.flatten_append, sent, sent]

@[simp] theorem sent_printed (fd : Int) (text : Bytes) : sent fd [.printed text] = [] := rfl

@[simp] theorem sent_complained (fd : Int) (text : Bytes) : sent fd [.complained text] = [] := rfl

@[simp] theorem sent_closed (fd fd' : Int) : sent fd [.closed fd'] = [] := rfl

@[simp] theorem sent_wrote (fd : Int) (wire : Bytes) : sent fd [.wrote fd wire] = wire := by
  simp [sent, wires]

/-- The frames go out whole and in order if a value is given, and an initial part of
their bytes if the process stops; no descriptor is closed. -/
structure Writes (fd : Int) (frames : List Frame) (x : Act α) : Prop where
  keeps : ∀ fd', .closed fd' ∉ x.effects
  initial : sent fd x.effects <+: frames.flatMap Frame.encode
  whole : ∀ a, x.result = .ok a → sent fd x.effects = frames.flatMap Frame.encode

theorem writes_nothing {x : Act α} (h : x.effects = []) : Writes fd [] x where
  keeps := by simp [h]
  initial := by simp [h]
  whole := by simp [h]

theorem writes_pure (a : α) : Writes fd [] (pure a : Act α) := writes_nothing rfl

theorem writes_stop (e : Stop) : Writes fd [] (Outcome.stop e : Act α) := writes_nothing rfl

theorem writes_die (failed : Bool) : Writes fd [] (die failed) := by
  cases failed with
  | false => exact writes_pure ()
  | true => exact writes_stop .die

theorem writes_printed (text : Bytes) :
    Writes fd [] (Outcome.emit (.printed text) : Act Unit) where
  keeps := by simp [Outcome.emit]
  initial := List.nil_prefix
  whole := fun _ _ => rfl

theorem writes_complained (text : Bytes) :
    Writes fd [] (Outcome.emit (.complained text) : Act Unit) where
  keeps := by simp [Outcome.emit]
  initial := List.nil_prefix
  whole := fun _ _ => rfl

/-- The frames of a computation that stops are those of the stage it stops in. -/
theorem Writes.bind {x : Act α} {f : α → Act β} (hx : Writes fd frames x)
    (hf : ∀ a, x.result = .ok a → Writes fd more (f a)) : Writes fd (frames ++ more) (x >>= f) := by
  obtain ⟨out, e | a⟩ := x
  · refine ⟨hx.keeps, ?_, ?_⟩
    · rw [List.flatMap_append, Outcome.mk_error_bind]
      exact hx.initial.trans (List.prefix_append _ _)
    · intro b hb
      simp at hb
  · have hwhole : sent fd out = frames.flatMap Frame.encode := hx.whole a rfl
    have hlater := hf a rfl
    refine ⟨?_, ?_, ?_⟩
    · intro fd' hmem
      rcases List.mem_append.mp hmem with hmem | hmem
      · exact hx.keeps fd' hmem
      · exact hlater.keeps fd' hmem
    · rw [List.flatMap_append, Outcome.mk_ok_bind, sent_append, hwhole,
        List.prefix_append_right_inj]
      exact hlater.initial
    · intro b hb
      rw [List.flatMap_append, Outcome.mk_ok_bind, sent_append, hwhole, hlater.whole b hb]

/-- A stage that writes nothing adds nothing. -/
theorem Writes.after {x : Act α} {f : α → Act β} (hx : Writes fd [] x)
    (hf : ∀ a, x.result = .ok a → Writes fd frames (f a)) : Writes fd frames (x >>= f) :=
  hx.bind hf

theorem Writes.last {x : Act α} {f : α → Act β} (hx : Writes fd frames x)
    (hf : ∀ a, x.result = .ok a → Writes fd [] (f a)) : Writes fd frames (x >>= f) := by
  simpa using hx.bind hf

/-- send_efficient with DIE on its result writes the frame, or a strict part of it. -/
theorem writes_sendOn (env : Env) (f : Frame) :
    Writes fd [f] (sendOn env fd f.message >>= fun r => die (r.1 < 0)) := by
  by_cases h : Delivers env fd f
  · have hok : (sendOn env fd f.message >>= fun r => die (r.1 < 0)) =
        ⟨[.wrote fd f.encode], .ok ()⟩ := sendOn_die_eq_ok.mpr ⟨h, rfl⟩
    rw [hok]
    refine ⟨by simp, ?_, ?_⟩
    · rw [sent_wrote, List.flatMap_singleton]
    · intro a _
      rw [sent_wrote, List.flatMap_singleton]
  · obtain ⟨part, msg, hpart, -, heq⟩ := sendOn_not_delivers h
    rw [heq]
    refine ⟨by simp [die, Outcome.stopIf, Outcome.stop], ?_, ?_⟩
    · simpa [die, Outcome.stopIf, Outcome.stop] using hpart
    · intro a ha
      simp [die, Outcome.stopIf, Outcome.stop] at ha

theorem writes_ofText (env : Env) (command : UInt8) {text : Bytes} (h : text.length + 1 < 2 ^ 16) :
    Writes fd [Frame.ofText command text h]
      (sendOn env fd (TcpMessage.ofText command text) >>= fun r => die (r.1 < 0)) := by
  rw [← Frame.message_ofText command text h]
  exact writes_sendOn env _

end Writing

section Rounds

variable {fd : Int}

theorem writes_awaitAnswer (command : UInt8) (topic : Topic) (sock : Socket) :
    Writes fd [] (awaitAnswer command topic sock) := by
  unfold awaitAnswer
  refine (writes_die _).after fun _ _ => ?_
  exact (writes_printed _).after fun _ _ => writes_pure _

theorem writes_awaitConfirmation (sock : Socket) : Writes fd [] (awaitConfirmation sock) := by
  unfold awaitConfirmation
  refine (writes_die _).after fun _ _ => ?_
  split
  · exact writes_pure _
  · exact (writes_printed _).after fun _ _ => writes_pure _

theorem writes_manageTcpData (sock : Socket) : Writes fd [] (manageTcpData sock) := by
  unfold manageTcpData
  refine (writes_die _).after fun _ _ => ?_
  split
  · exact writes_pure _
  · split
    · exact (writes_complained _).after fun _ _ => writes_pure _
    · refine Writes.after ?_ fun _ _ => (writes_printed _).after fun _ _ => writes_pure _
      cases Except.mapError Stop.fault
        (cString (recvEfficient sock TcpMessage.zero).msg.payload) with
      | error e => exact writes_stop e
      | ok text => exact writes_pure text

def requestFrame (line : Bytes) : Option Frame :=
  match manageStdinData line with
  | .request command topic =>
    if h : topic.length + 1 < 2 ^ 16 then some (Frame.ofText command topic h) else none
  | .exit | .usage | .invalidTopic => none

def requests (rounds : List Round) : List Frame :=
  rounds.filterMap fun r => r.stdin.bind requestFrame

theorem writes_manageLine (env : Env) (line : Bytes) (sock : Socket) :
    Writes fd (requestFrame line).toList (manageLine env fd line sock) := by
  unfold manageLine requestFrame
  cases hline : manageStdinData line with
  | exit => exact writes_pure _
  | usage | invalidTopic => exact (writes_printed _).after fun _ _ => writes_pure _
  | request command topic =>
    obtain ⟨-, -, hlength, -⟩ := manageStdinData_request hline
    have hfits : topic.length + 1 < 2 ^ 16 := by omega
    simp only [hfits, dite_true, Option.toList_some]
    have hsend : Writes fd [Frame.ofText command topic hfits] (sendRequest env fd command topic) :=
      writes_ofText env command hfits
    refine hsend.last fun _ _ => ?_
    exact (writes_awaitAnswer command topic sock).after fun _ _ => writes_pure _

theorem writes_serveStdin (r : Round) (sock : Socket) :
    Writes fd (r.stdin.bind requestFrame).toList (serveStdin fd r sock) := by
  unfold serveStdin
  cases r.stdin with
  | none => exact writes_pure _
  | some line => exact writes_manageLine r.env line sock

theorem writes_serveRound (r : Round) (sock : Socket) :
    Writes fd (r.stdin.bind requestFrame).toList (serveRound fd r sock) := by
  unfold serveRound
  refine (writes_serveStdin r sock).last fun ⟨ended, later⟩ _ => ?_
  dsimp only
  split
  · exact writes_pure _
  · split
    · exact writes_manageTcpData _
    · exact writes_pure _

/-- The loop sends the requests of the rounds it takes, and takes all of them unless it
ends before. -/
theorem writes_run (fd : Int) (rounds : List Round) (sock : Socket) :
    ∃ frames, frames <+: requests rounds ∧ Writes fd frames (run fd rounds sock) ∧
      ∀ sock', (run fd rounds sock).result = .ok (false, sock') → frames = requests rounds := by
  induction rounds generalizing sock with
  | nil => exact ⟨[], List.prefix_refl [], writes_pure _, fun _ _ => rfl⟩
  | cons r rounds ih =>
    have hround : Writes fd (r.stdin.bind requestFrame).toList (serveRound fd r sock) :=
      writes_serveRound r sock
    have hcons : requests (r :: rounds) =
        (r.stdin.bind requestFrame).toList ++ requests rounds := by
      cases hrequest : r.stdin.bind requestFrame with
      | none => simp [requests, hrequest]
      | some f => simp [requests, hrequest]
    unfold run
    rcases hserve : serveRound fd r sock with ⟨out, e | ⟨ended, sock₁⟩⟩
    · rw [hserve] at hround
      refine ⟨_, hcons ▸ List.prefix_append _ _, hround, ?_⟩
      intro sock' h
      simp at h
    · rw [hserve] at hround
      cases ended with
      | true =>
        refine ⟨(r.stdin.bind requestFrame).toList, hcons ▸ List.prefix_append _ _, ?_, ?_⟩
        · refine hround.last fun _ ha => ?_
          simp only [Except.ok.injEq] at ha
          subst ha
          exact writes_pure _
        · intro sock' h
          simp [Outcome.pure_def] at h
      | false =>
        obtain ⟨frames, hinit, hwrites, hall⟩ := ih sock₁
        refine ⟨(r.stdin.bind requestFrame).toList ++ frames, ?_, ?_, ?_⟩
        · rw [hcons, List.prefix_append_right_inj]
          exact hinit
        · refine hround.bind fun _ ha => ?_
          simp only [Except.ok.injEq] at ha
          subst ha
          exact hwrites
        · intro sock' h
          rw [hcons, hall sock' h]

/-- After the id the process sends the requests of the rounds it takes. -/
theorem writes_checkAndRun (fd : Int) (env : Env) {id : ClientId} (h : id.length + 1 < 2 ^ 16)
    (rounds : List Round) (sock : Socket) :
    ∃ frames, frames <+: requests rounds ∧
      Writes fd (Frame.ofText connectReq id h :: frames) (checkAndRun env fd id rounds sock) ∧
      ((checkAndRun env fd id rounds sock).result = .ok false → frames = requests rounds) := by
  have hcheck : Writes fd [Frame.ofText connectReq id h]
      (checkConnectionValidity env fd id sock) :=
    (writes_ofText env connectReq h).last fun _ _ => writes_awaitConfirmation sock
  unfold checkAndRun
  rcases hvalid : checkConnectionValidity env fd id sock with ⟨out, e | ⟨valid, sock₁⟩⟩
  · rw [hvalid] at hcheck
    refine ⟨[], List.nil_prefix, ⟨hcheck.keeps, hcheck.initial, ?_⟩, ?_⟩
    · intro ended hended
      simp at hended
    · intro hfalse
      simp at hfalse
  · rw [hvalid] at hcheck
    cases valid with
    | false =>
      refine ⟨[], List.nil_prefix, hcheck.last fun a ha => ?_, ?_⟩
      · simp only [Except.ok.injEq] at ha
        subst ha
        exact writes_pure _
      · intro hfalse
        simp [Outcome.pure_def] at hfalse
    | true =>
      obtain ⟨frames, hinit, hwrites, hall⟩ := writes_run fd rounds sock₁
      refine ⟨frames, hinit, hcheck.bind fun a ha => ?_, ?_⟩
      · simp only [Except.ok.injEq] at ha
        subst ha
        exact hwrites.last fun _ _ => writes_pure _
      · intro hfalse
        simp only [Outcome.mk_ok_bind, if_true] at hfalse
        rcases hrun : run fd rounds sock₁ with ⟨out', e | ⟨ended, sock₂⟩⟩
        · rw [hrun] at hfalse
          exact absurd (show Except.error e = Except.ok false from hfalse) (by simp)
        · rw [hrun] at hfalse
          obtain rfl : ended = false := Except.ok.inj (show Except.ok ended = _ from hfalse)
          exact hall sock₂ (by rw [hrun])

end Rounds

section Process

def started (outside : Outside) (argv : List Bytes) : Option (ClientId × Int) :=
  match argv with
  | [_, clientId, serverIp, serverPort] =>
    if clientId.length > 10 then none
    else do
      let port ← outside.sscanf serverPort
      let tcpSockfd ← outside.prepare serverIp port
      return (clientId, tcpSockfd)
  | _ => none

theorem started_eq_some {outside : Outside} {argv : List Bytes} {id : ClientId} {fd : Int}
    (h : started outside argv = some (id, fd)) (env : Env) (rounds : List Round) (sock : Socket) :
    id.length ≤ 10 ∧ subscriberMain outside argv env rounds sock =
      (checkAndRun env fd id rounds sock >>= leave fd) := by
  unfold started at h
  unfold subscriberMain
  split at h
  · split_ifs at h with hlong
    simp only [Option.bind_eq_bind, Option.bind_eq_some_iff, Option.pure_def, Option.some.injEq,
      Prod.mk.injEq] at h
    obtain ⟨port, hport, tcpSockfd, hprepare, rfl, rfl⟩ := h
    refine ⟨by omega, ?_⟩
    simp only [hlong, if_false, hport, hprepare]
  · simp at h

theorem started_eq_none {outside : Outside} {argv : List Bytes}
    (h : started outside argv = none) (env : Env) (rounds : List Round) (sock : Socket) (fd : Int) :
    Writes fd [] (subscriberMain outside argv env rounds sock) ∧
      ((subscriberMain outside argv env rounds sock).result = .ok (some (-1)) ∨
        (subscriberMain outside argv env rounds sock).result = .error .die) := by
  unfold started at h
  unfold subscriberMain
  split at h
  · rename_i name clientId serverIp serverPort
    split_ifs at h with hlong
    · simp only [hlong, if_true]
      exact ⟨(writes_printed _).after fun _ _ => writes_pure _, Or.inl rfl⟩
    · simp only [hlong, if_false]
      cases hport : outside.sscanf serverPort with
      | none => exact ⟨writes_stop _, Or.inr rfl⟩
      | some port =>
        cases hprepare : outside.prepare serverIp port with
        | none =>
          simp only [hprepare]
          exact ⟨writes_stop _, Or.inr rfl⟩
        | some tcpSockfd => simp [hport, hprepare] at h
  · exact ⟨(writes_printed _).after fun _ _ => writes_pure _, Or.inl rfl⟩

/-- Whatever the peer sends and however the calls end, a subscriber with usable
arguments writes on its socket an initial part of the frame with its id and the frames
of the requests typed, in their order: whole frames unless the process stops, and all
of them as long as it is in its loop. It closes the socket exactly if main returns 0,
and then once, as the last thing it does. With other arguments it writes and closes
nothing. -/
theorem speaks_in_order (outside : Outside) (argv : List Bytes) (env : Env) (rounds : List Round)
    (sock : Socket) :
    (started outside argv = none →
      (∀ fd, sent fd (subscriberMain outside argv env rounds sock).effects = [] ∧
        .closed fd ∉ (subscriberMain outside argv env rounds sock).effects) ∧
      ((subscriberMain outside argv env rounds sock).result = .ok (some (-1)) ∨
        (subscriberMain outside argv env rounds sock).result = .error .die)) ∧
    ∀ id fd, started outside argv = some (id, fd) → ∃ h : id.length + 1 < 2 ^ 16,
      sent fd (subscriberMain outside argv env rounds sock).effects <+:
        (Frame.ofText connectReq id h :: requests rounds).flatMap Frame.encode ∧
      (∀ code, (subscriberMain outside argv env rounds sock).result = .ok code →
        ∃ frames, frames <+: requests rounds ∧ (code = none → frames = requests rounds) ∧
          sent fd (subscriberMain outside argv env rounds sock).effects =
            (Frame.ofText connectReq id h :: frames).flatMap Frame.encode) ∧
      ((subscriberMain outside argv env rounds sock).result = .ok (some 0) →
        ∃ before, (subscriberMain outside argv env rounds sock).effects = before ++ [.closed fd] ∧
          ∀ fd', .closed fd' ∉ before) ∧
      ((subscriberMain outside argv env rounds sock).result ≠ .ok (some 0) →
        ∀ fd', .closed fd' ∉ (subscriberMain outside argv env rounds sock).effects) := by
  constructor
  · intro hnone
    obtain ⟨-, hresult⟩ := started_eq_none hnone env rounds sock 0
    refine ⟨fun fd => ?_, hresult⟩
    obtain ⟨hwrites, -⟩ := started_eq_none hnone env rounds sock fd
    exact ⟨List.prefix_nil.mp hwrites.initial, hwrites.keeps fd⟩
  · intro id fd hstarted
    obtain ⟨hlength, hmain⟩ := started_eq_some hstarted env rounds sock
    have h : id.length + 1 < 2 ^ 16 := by omega
    obtain ⟨frames, hinit, hwrites, hall⟩ := writes_checkAndRun fd env h rounds sock
    have hpart : (Frame.ofText connectReq id h :: frames).flatMap Frame.encode <+:
        (Frame.ofText connectReq id h :: requests rounds).flatMap Frame.encode := by
      obtain ⟨rest, hrest⟩ := hinit
      rw [← hrest, ← List.cons_append, List.flatMap_append]
      exact List.prefix_append _ _
    refine ⟨h, ?_⟩
    rw [hmain]
    rcases hrun : checkAndRun env fd id rounds sock with ⟨out, e | ended⟩
    · rw [hrun] at hwrites
      refine ⟨hwrites.initial.trans hpart, ?_, ?_, fun _ => hwrites.keeps⟩
      · intro code hcode
        simp at hcode
      · intro hcode
        simp at hcode
    · rw [hrun] at hwrites hall
      have hwhole := hwrites.whole ended rfl
      cases ended with
      | false =>
        have hframes : frames = requests rounds := hall rfl
        have hstill : ((⟨out, .ok false⟩ : Act Bool) >>= leave fd) = ⟨out, .ok none⟩ :=
          Outcome.ext' (List.append_nil out) rfl
        rw [hstill]
        refine ⟨hwrites.initial.trans hpart, ?_, ?_, fun _ => hwrites.keeps⟩
        · intro code _
          exact ⟨frames, hinit, fun _ => hframes, hwhole⟩
        · intro hcode
          simp at hcode
      | true =>
        have hleft : ((⟨out, .ok true⟩ : Act Bool) >>= leave fd) =
          ⟨out ++ [.closed fd], .ok (some 0)⟩ := rfl
        have hsent : sent fd (out ++ [.closed fd]) = sent fd out := by
          rw [sent_append, sent_closed, List.append_nil]
        rw [hleft]
        refine ⟨hsent ▸ hwrites.initial.trans hpart, ?_, ?_, ?_⟩
        · intro code hcode
          refine ⟨frames, hinit, ?_, hsent ▸ hwhole⟩
          intro hnone
          simp [hnone] at hcode
        · intro _
          exact ⟨out, rfl, hwrites.keeps⟩
        · intro hcode
          exact absurd rfl hcode

end Process

end ServerClientApp.SubscriberProgram
