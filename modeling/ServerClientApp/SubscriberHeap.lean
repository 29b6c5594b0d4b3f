import ServerClientApp.HeapMessages
import ServerClientApp.SubscriberProgram

/-!
The subscriber with its memory: every calloc, malloc, strdup and new, and every free. It
never uses a block it does not have, and does what the program without memory does. The
payload of a message that is taken for an answer is not given back, and that of one that
breaks off is not either.
-/

namespace ServerClientApp.SubscriberHeap

open PartialTransfers Outcomes Outcome Protocols Wildcards ServerHandlers SubscriberHandlers
  SubscriberProgram Heaps HeapMessages

section Model

variable (fails : ℕ → Bool)

/-- The first part of check_connection_validity and of subscribe_unsubscribe_topic: a
message with a copy of the text is sent, and the message that comes is put in its place. -/
def exchangeAt (env : Env) (tcpSockfd : Int) (command : UInt8) (text : Bytes) (sock : Socket) :
    Handler (ℕ × Socket) := do
  let msg ← make fails (.message .zero)
  let payload ← make fails (.text (text ++ [0]))
  store (some msg) (.message ⟨command, UInt16.ofNat (text.length + 1), some payload⟩)
  let rc ← sendEfficientAt env tcpSockfd msg
  lift (die (rc < 0))
  let s ← loadMessage (some msg)
  free s.payload
  store (some msg) (.message .zero)
  let (rc, sock) ← recvEfficientAt fails sock msg
  lift (die (rc < 0))
  return (msg, sock)

def checkConnectionValidityAt (env : Env) (tcpSockfd : Int) (id : ClientId) (sock : Socket) :
    Handler (Bool × Socket) := do
  let (msg, sock) ← exchangeAt fails env tcpSockfd connectReq id sock
  let s ← loadMessage (some msg)
  if s.command = connectAccepted then
    free (some msg)
    return (true, sock)
  else
    lift (emit (.printed (ascii "Connection denied\n")))
    free (some msg)
    return (false, sock)

def subscribeUnsubscribeTopicAt (env : Env) (tcpSockfd : Int) (command : UInt8) (topic : Topic)
    (sock : Socket) : Handler Socket := do
  let (msg, sock) ← exchangeAt fails env tcpSockfd command topic sock
  let s ← loadMessage (some msg)
  lift (emit (.printed (outcomeLine command topic s.command)))
  free (some msg)
  return sock

def manageLineAt (env : Env) (tcpSockfd : Int) (line : Bytes) (sock : Socket) :
    Handler (Bool × Socket) :=
  match manageStdinData line with
  | .exit => return (true, sock)
  | .request command topic => do
    let helper ← make fails (.text (line.takeWhile (· ≠ 0) ++ [0]))
    let sock ← subscribeUnsubscribeTopicAt fails env tcpSockfd command topic sock
    let _ ← load (some helper)
    free (some helper)
    return (false, sock)
  | .invalidTopic => do
    let helper ← make fails (.text (line.takeWhile (· ≠ 0) ++ [0]))
    lift (emit (.printed ((manageStdinData line).notice.getD [])))
    free (some helper)
    return (false, sock)
  | .usage => do
    let helper ← make fails (.text (line.takeWhile (· ≠ 0) ++ [0]))
    free (some helper)
    lift (emit (.printed ((manageStdinData line).notice.getD [])))
    return (false, sock)

def manageTcpDataAt (sock : Socket) (msg : ℕ) : Handler (Bool × Socket) := do
  store (some msg) (.message .zero)
  let (rc, sock) ← recvEfficientAt fails sock msg
  lift (die (rc < 0))
  if rc = 0 then return (true, sock)
  else
    let s ← loadMessage (some msg)
    if s.command ≠ msgFromUdp then
      lift (emit (.complained (ascii "Big error: message is not coming from UDP\n")))
      free s.payload
      return (false, sock)
    else
      let text ← readString s.payload
      lift (emit (.printed (text ++ ascii "\n")))
      free s.payload
      return (false, sock)

def serveStdinAt (tcpSockfd : Int) (r : Round) (sock : Socket) : Handler (Bool × Socket) :=
  match r.stdin with
  | none => return (false, sock)
  | some line => manageLineAt fails r.env tcpSockfd line sock

def serveRoundAt (tcpSockfd : Int) (r : Round) (sock : Socket) (msg : ℕ) :
    Handler (Bool × Socket) := do
  let (ended, sock) ← serveStdinAt fails tcpSockfd r sock
  if ended then return (true, sock)
  else if r.tcp then manageTcpDataAt fails sock msg
  else return (false, sock)

def loopAt (tcpSockfd : Int) : List Round → Socket → ℕ → Handler (Bool × Socket)
  | [], sock, _ => return (false, sock)
  | r :: rounds, sock, msg => do
    let (ended, sock) ← serveRoundAt fails tcpSockfd r sock msg
    if ended then return (true, sock) else loopAt tcpSockfd rounds sock msg

def runAt (tcpSockfd : Int) (rounds : List Round) (sock : Socket) : Handler (Bool × Socket) := do
  let msg ← make fails (.message .zero)
  let (ended, sock) ← loopAt fails tcpSockfd rounds sock msg
  if ended then
    free (some msg)
    return (true, sock)
  else return (false, sock)

def checkAndRunAt (env : Env) (tcpSockfd : Int) (id : ClientId) (rounds : List Round)
    (sock : Socket) : Handler Bool := do
  let (valid, sock) ← checkConnectionValidityAt fails env tcpSockfd id sock
  if valid then
    let (ended, _) ← runAt fails tcpSockfd rounds sock
    return ended
  else return true

def leaveAt (tcpSockfd : Int) (subscriber : ℕ) (ended : Bool) : Handler (Option Int) :=
  if ended then do
    lift (emit (.closed tcpSockfd))
    free (some subscriber)
    return some 0
  else return none

def subscriberMainAt (outside : Outside) (argv : List Bytes) (env : Env) (rounds : List Round)
    (sock : Socket) : Handler (Option Int) :=
  match argv with
  | [_, clientId, serverIp, serverPort] =>
    if clientId.length > 10 then do
      lift (emit (.printed (ascii "ID must have at most 10 characters\n")))
      return some (-1)
    else
      match outside.sscanf serverPort with
      | none => lift (stop .die)
      | some port => do
        let subscriber ← make fails .object
        match outside.prepare serverIp port with
        | none => lift (stop .die)
        | some tcpSockfd => do
          let ended ← checkAndRunAt fails env tcpSockfd clientId rounds sock
          leaveAt tcpSockfd subscriber ended
  | _ => do
    lift (emit (.printed (ascii "Subscriber Usage: " ++ argv.headD [] ++
      ascii " <CLIENT_ID> <SERVER_IP> <SERVER_PORT> \n")))
    return some (-1)

end Model

section Losses

def lostByStdin (r : Round) (sock : Socket) : List Bytes :=
  match r.stdin.map manageStdinData with
  | some (.request ..) => payloadOf sock
  | _ => []

def lostByRound (tcpSockfd : Int) (r : Round) (sock : Socket) : List Bytes :=
  lostByStdin r sock ++
    match (serveStdin tcpSockfd r sock).result with
    | .ok (false, sock) => if r.tcp then cutOff sock else []
    | _ => []

def lostByLoop (tcpSockfd : Int) : List Round → Socket → List Bytes
  | [], _ => []
  | r :: rounds, sock =>
    lostByRound tcpSockfd r sock ++
      match (serveRound tcpSockfd r sock).result with
      | .ok (false, sock) => lostByLoop tcpSockfd rounds sock
      | _ => []

/-- The payloads nothing points to any more: of the message taken for the confirmation,
of those taken for answers, and of a last one that broke off. -/
def lostBy (env : Env) (tcpSockfd : Int) (id : ClientId) (rounds : List Round) (sock : Socket) :
    List Bytes :=
  payloadOf sock ++
    match (checkConnectionValidity env tcpSockfd id sock).result with
    | .ok (true, sock) => lostByLoop tcpSockfd rounds sock
    | _ => []

-- A publication that comes before the answer to a request is taken for it.
example : lostBy .plain 3 (ascii "id") [⟨.plain, some (ascii "subscribe a"), false⟩]
    ⟨[connectAccepted, 0, 0, msgFromUdp, 0, 2, 65, 0], []⟩ = [[65, 0]] := by
  decide

end Losses

section Exchanges

variable {fails : ℕ → Bool} {m : Cells Cell} {env : Env} {fd : Int} {sock : Socket}

theorem follows_exchange {α β : Type} {post : Cells Cell → α → β → Prop} {command : UInt8}
    {text : Bytes} {f : ℕ × Socket → Handler α} {g : Unit → Act β}
    (hf : ∀ msg s m', s.command = (recvEfficient sock TcpMessage.zero).msg.command →
      m' msg = some (.message s) → Lost m (payloadOf sock) (Function.update m' msg none) →
      Follows fails m' (f (msg, (recvEfficient sock TcpMessage.zero).sock)) (g ()) post) :
    Follows fails m (exchangeAt fails env fd command text sock >>= f)
      ((sendOn env fd (TcpMessage.ofText command text) >>= fun r => die (r.1 < 0)) >>= fun _ =>
        die ((recvEfficient sock TcpMessage.zero).rc < 0) >>= g) post := by
  unfold exchangeAt
  simp only [bind_assoc, pure_bind]
  refine follows_makeMessage fun msg payload hmsg hpayload hne => ?_
  have htext : Function.update (Function.update m payload (some (Cell.text (text ++ [0])))) msg
      (some (.message ⟨command, UInt16.ofNat (text.length + 1), some payload⟩)) payload =
        some (.text (text ++ [0])) := by
    rw [Function.update_of_ne hne, Function.update_self]
  refine follows_sendEfficient (Function.update_self ..) (.text htext) (ofNat_length_le text)
    fun rc sent _ _ => ?_
  refine simulates_embed_bind fun _ _ => ?_
  rw [Function.update_idem]
  refine follows_loadMessage (Function.update_self ..) ?_
  refine simulates_free (by rw [Function.update_of_ne hne, Function.update_self]; rfl) ?_
  rw [update_none_behind hne.symm hpayload]
  refine simulates_store (by rw [Function.update_self]; rfl) ?_
  rw [Function.update_idem]
  refine follows_recvEfficient (Function.update_self ..) fun p m' hallocated => ?_
  refine simulates_embed_bind fun _ _ => hf msg _ _ rfl (Function.update_self ..) ?_
  rw [Function.update_idem]
  exact hallocated.loses.release hmsg

theorem follows_checkConnectionValidity {id : ClientId} :
    Follows fails m (checkConnectionValidityAt fails env fd id sock)
      (checkConnectionValidity env fd id sock)
      fun m' a b => a = b ∧ Lost m (payloadOf sock) m' := by
  unfold checkConnectionValidityAt checkConnectionValidity presentId awaitConfirmation
  refine follows_exchange fun msg s m' hcommand hmsg hlost => ?_
  have hblock : (m' msg).isSome = true := by rw [hmsg]; rfl
  refine follows_loadMessage hmsg ?_
  rw [hcommand]
  by_cases haccepted : (recvEfficient sock TcpMessage.zero).msg.command = connectAccepted
  · simp only [haccepted, if_true]
    exact simulates_free hblock (simulates_pure ⟨rfl, hlost⟩)
  · simp only [haccepted, if_false]
    exact simulates_embed_bind fun _ _ => simulates_free hblock (simulates_pure ⟨rfl, hlost⟩)

theorem follows_subscribeUnsubscribeTopic {command : UInt8} {topic : Topic} :
    Follows fails m (subscribeUnsubscribeTopicAt fails env fd command topic sock)
      (sendRequest env fd command topic >>= fun _ => awaitAnswer command topic sock)
      fun m' a b => a = b ∧ Lost m (payloadOf sock) m' := by
  unfold subscribeUnsubscribeTopicAt sendRequest awaitAnswer
  refine follows_exchange fun msg s m' hcommand hmsg hlost => ?_
  refine follows_loadMessage hmsg ?_
  rw [hcommand]
  refine simulates_embed_bind fun _ _ => ?_
  exact simulates_free (by rw [hmsg]; rfl) (simulates_pure ⟨rfl, hlost⟩)

end Exchanges

section Rounds

variable {fails : ℕ → Bool} {m : Cells Cell} {env : Env} {fd : Int} {sock : Socket} {msg : ℕ}
  {s : Stored}

theorem follows_manageLine {line : Bytes} :
    Follows fails m (manageLineAt fails env fd line sock) (manageLine env fd line sock)
      fun m' a b => a = b ∧ Lost m (lostByStdin ⟨env, some line, true⟩ sock) m' := by
  unfold manageLineAt manageLine lostByStdin
  cases hline : manageStdinData line with
  | exit => exact simulates_pure ⟨rfl, by simpa [hline] using Lost.nothing⟩
  | invalidTopic =>
    refine follows_make fun helper hnone => simulates_embed_bind fun _ _ => ?_
    refine follows_freeBlock hnone (simulates_pure ⟨rfl, ?_⟩)
    simpa [hline] using Lost.nothing
  | usage =>
    refine follows_make fun helper hnone => follows_freeBlock hnone ?_
    refine simulates_embed_bind fun _ _ => simulates_pure ⟨rfl, ?_⟩
    simpa [hline] using Lost.nothing
  | request command topic =>
    simp only [Option.map_some, hline]
    refine follows_make fun helper hnone => ?_
    rw [← bind_assoc]
    refine follows_subscribeUnsubscribeTopic.bind fun m' later _ hasked => ?_
    obtain ⟨rfl, hlost⟩ := hasked
    have hhelper := hlost.keeps (Function.update_self ..)
    refine simulates_load hhelper (simulates_free (by rw [hhelper]; rfl) ?_)
    exact simulates_pure ⟨rfl, hlost.release hnone⟩

/-- A message that comes by itself is given back, unless it broke off. -/
theorem follows_manageTcpData (hnone : m msg = none) :
    Follows fails (Function.update m msg (some (.message s))) (manageTcpDataAt fails sock msg)
      (manageTcpData sock) fun m' a b => a = b ∧ Beside m msg (cutOff sock) m' := by
  unfold manageTcpDataAt manageTcpData
  refine simulates_store (by rw [Function.update_self]; rfl) ?_
  rw [Function.update_idem]
  have hzero : Function.update m msg (some (Cell.message .zero)) msg = some (.message .zero) :=
    Function.update_self ..
  refine follows_recvEfficient hzero fun p m' hallocated => ?_
  refine simulates_embed_bind fun _ _ => ?_
  by_cases hclosed : (recvEfficient sock TcpMessage.zero).rc = 0
  · simp only [hclosed, if_true]
    refine simulates_pure ⟨rfl, ?_⟩
    rw [cutOff, if_pos hclosed]
    exact hallocated.beside hnone
  · simp only [hclosed, if_false]
    have hcut : cutOff sock = [] := if_neg hclosed
    rw [hcut]
    refine follows_loadMessage (Function.update_self ..) ?_
    have hfreed {c : Stored} : Beside m msg []
        (Function.update (Function.update m msg (some (.message .zero))) msg
          (some (.message c))) := by
      rw [Function.update_idem]
      exact ⟨c, m, rfl, hnone, .nothing⟩
    by_cases hother : (recvEfficient sock TcpMessage.zero).msg.command = msgFromUdp
    · simp only [hother, ne_eq, not_true, if_false]
      refine follows_readString (hallocated.points hzero) fun text => ?_
      refine simulates_embed_bind fun _ _ => ?_
      exact follows_freePayload hallocated hzero (simulates_pure ⟨rfl, hfreed⟩)
    · simp only [hother, ne_eq, not_false_eq_true, if_true]
      refine simulates_embed_bind fun _ _ => ?_
      exact follows_freePayload hallocated hzero (simulates_pure ⟨rfl, hfreed⟩)

theorem follows_serveStdin {r : Round} :
    Follows fails m (serveStdinAt fails fd r sock) (serveStdin fd r sock)
      fun m' a b => a = b ∧ Lost m (lostByStdin r sock) m' := by
  unfold serveStdinAt serveStdin
  cases hline : r.stdin with
  | none => exact simulates_pure ⟨rfl, by simpa [lostByStdin, hline] using Lost.nothing⟩
  | some line =>
    refine follows_manageLine.mono fun m' a b h => ?_
    simpa only [lostByStdin, hline] using h

theorem follows_serveRound {r : Round} (hnone : m msg = none) :
    Follows fails (Function.update m msg (some (.message s))) (serveRoundAt fails fd r sock msg)
      (serveRound fd r sock) fun m' a b => a = b ∧ Beside m msg (lostByRound fd r sock) m' := by
  unfold serveRoundAt serveRound lostByRound
  refine follows_serveStdin.result.bind fun m' a b h => ?_
  obtain ⟨⟨rfl, hlost⟩, hvalue⟩ := h
  obtain ⟨ended, later⟩ := a
  rw [hvalue]
  have hbeside := hlost.beside hnone
  cases ended with
  | true =>
    rw [List.append_nil]
    exact simulates_pure ⟨rfl, hbeside⟩
  | false =>
    simp only [Bool.false_eq_true, if_false]
    cases r.tcp with
    | false =>
      simp only [Bool.false_eq_true, if_false, List.append_nil]
      exact simulates_pure ⟨rfl, hbeside⟩
    | true =>
      obtain ⟨s₁, m₁, rfl, hnone₁, hlost₁⟩ := hbeside
      refine (follows_manageTcpData hnone₁).mono fun m' a b h => ?_
      exact ⟨h.1, h.2.trans hlost₁⟩

/-- The loop is left, or goes on, with the message and what was lost so far. -/
theorem follows_loop {rounds : List Round} (hnone : m msg = none) :
    Follows fails (Function.update m msg (some (.message s))) (loopAt fails fd rounds sock msg)
      (run fd rounds sock) fun m' a b => a = b ∧ Beside m msg (lostByLoop fd rounds sock) m' := by
  induction rounds generalizing m s sock with
  | nil => exact simulates_pure ⟨rfl, s, m, rfl, hnone, .nothing⟩
  | cons r rounds ih =>
    unfold loopAt run lostByLoop
    refine (follows_serveRound hnone).result.bind fun m' a b h => ?_
    obtain ⟨⟨rfl, hbeside⟩, hvalue⟩ := h
    obtain ⟨ended, later⟩ := a
    rw [hvalue]
    cases ended with
    | true =>
      rw [List.append_nil]
      exact simulates_pure ⟨rfl, hbeside⟩
    | false =>
      obtain ⟨s₁, m₁, rfl, hnone₁, hlost₁⟩ := hbeside
      refine (ih hnone₁).mono fun m' a b h => ?_
      exact ⟨h.1, h.2.trans hlost₁⟩

/-- Once the loop is left only what was lost is still there. -/
theorem follows_run {rounds : List Round} :
    Follows fails m (runAt fails fd rounds sock) (run fd rounds sock)
      fun m' a b => a = b ∧ (a.1 = true → Lost m (lostByLoop fd rounds sock) m') := by
  unfold runAt
  refine follows_make fun msg hnone => ?_
  rw [← bind_pure (run fd rounds sock)]
  refine (follows_loop hnone).bind fun m' a b h => ?_
  obtain ⟨rfl, hbeside⟩ := h
  obtain ⟨ended, later⟩ := a
  cases ended with
  | true =>
    obtain ⟨hblock, hlost⟩ := hbeside.release
    exact simulates_free hblock (simulates_pure ⟨rfl, fun _ => hlost⟩)
  | false => exact simulates_pure ⟨rfl, fun h => absurd h (by simp)⟩

end Rounds

section Process

variable {fails : ℕ → Bool} {m : Cells Cell} {env : Env} {fd : Int} {sock : Socket}
  {rounds : List Round}

theorem follows_checkAndRun {id : ClientId} :
    Follows fails m (checkAndRunAt fails env fd id rounds sock) (checkAndRun env fd id rounds sock)
      fun m' a b => a = b ∧ (a = true → Lost m (lostBy env fd id rounds sock) m') := by
  unfold checkAndRunAt checkAndRun lostBy
  refine follows_checkConnectionValidity.result.bind fun m₁ a b h => ?_
  obtain ⟨⟨rfl, hlost⟩, hvalue⟩ := h
  obtain ⟨valid, later⟩ := a
  rw [hvalue]
  cases valid with
  | false => exact simulates_pure ⟨rfl, fun _ => by rwa [List.append_nil]⟩
  | true =>
    refine follows_run.bind fun m₂ a b h => ?_
    obtain ⟨rfl, hrun⟩ := h
    exact simulates_pure ⟨rfl, fun hended => hlost.trans (hrun hended)⟩

def lostInMain (outside : Outside) (argv : List Bytes) (env : Env) (rounds : List Round)
    (sock : Socket) : List Bytes :=
  (started outside argv).elim [] fun (id, fd) => lostBy env fd id rounds sock

theorem follows_subscriberMain {outside : Outside} {argv : List Bytes} :
    Follows fails m (subscriberMainAt fails outside argv env rounds sock)
      (subscriberMain outside argv env rounds sock) fun m' a b =>
        a = b ∧ ∀ code, a = some code → Lost m (lostInMain outside argv env rounds sock) m' := by
  unfold subscriberMainAt subscriberMain lostInMain started
  match argv with
  | [_, clientId, serverIp, serverPort] =>
    dsimp only
    by_cases hlong : clientId.length > 10
    · simp only [hlong, if_true]
      exact simulates_embed_bind fun _ _ => simulates_pure ⟨rfl, fun _ _ => .nothing⟩
    · simp only [hlong, if_false]
      cases outside.sscanf serverPort with
      | none => exact simulates_stop
      | some port =>
        dsimp only [Option.bind_eq_bind, Option.bind_some]
        refine follows_make fun subscriber hnone => ?_
        cases outside.prepare serverIp port with
        | none => exact simulates_stop
        | some tcpSockfd =>
          refine follows_checkAndRun.bind fun m' ended b h => ?_
          obtain ⟨rfl, hlost⟩ := h
          unfold leaveAt leave
          cases ended with
          | false => exact simulates_pure ⟨rfl, fun code hcode => absurd hcode (by simp)⟩
          | true =>
            have hkept := (hlost rfl).keeps (Function.update_self ..)
            refine simulates_embed_bind fun _ _ => simulates_free (by rw [hkept]; rfl) ?_
            exact simulates_pure ⟨rfl, fun _ _ => (hlost rfl).release hnone⟩
  | [] | [_] | [_, _] | [_, _, _] | _ :: _ :: _ :: _ :: _ :: _ =>
    exact simulates_embed_bind fun _ _ => simulates_pure ⟨rfl, fun _ _ => .nothing⟩

/-- The process reads past a string, and does nothing else that it should not. -/
def OnlyFaults (e : Stop) : Prop := accesses e = true → ∃ fault, e = .fault fault

theorem onlyFaults_die (failed : Bool) : StopsFor OnlyFaults (die failed) :=
  stopsFor_stopIf (fun h => by simp [accesses] at h) failed

theorem onlyFaults_ok {α : Type} (act : Act α) {a : α} (h : act.result = .ok a) :
    StopsFor OnlyFaults act := by
  intro e he
  rw [h] at he
  simp at he

theorem onlyFaults_send {command : UInt8} {text : Bytes} :
    StopsFor OnlyFaults
      (sendOn env fd (TcpMessage.ofText command text) >>= fun r => die (r.1 < 0)) :=
  (onlyFaults_ok _ rfl).bind fun _ _ => onlyFaults_die _

theorem onlyFaults_manageTcpData : StopsFor OnlyFaults (manageTcpData sock) := by
  unfold manageTcpData
  refine (onlyFaults_die _).bind fun _ _ => ?_
  split
  · exact onlyFaults_ok _ rfl
  · split
    · exact onlyFaults_ok _ rfl
    · refine StopsFor.bind ?_ fun _ _ => onlyFaults_ok _ rfl
      cases cString (recvEfficient sock TcpMessage.zero).msg.payload with
      | ok text => exact onlyFaults_ok _ rfl
      | error fault =>
        intro e he _
        exact ⟨fault, (Except.error.inj he).symm⟩

theorem onlyFaults_serveRound {r : Round} : StopsFor OnlyFaults (serveRound fd r sock) := by
  unfold serveRound
  refine StopsFor.bind ?_ fun a _ => ?_
  · unfold serveStdin manageLine
    split
    · exact onlyFaults_ok _ rfl
    · split
      · exact onlyFaults_ok _ rfl
      · refine onlyFaults_send.bind fun _ _ => StopsFor.bind ?_ fun _ _ => onlyFaults_ok _ rfl
        exact (onlyFaults_die _).bind fun _ _ => onlyFaults_ok _ rfl
      · exact onlyFaults_ok _ rfl
      · exact onlyFaults_ok _ rfl
  · obtain ⟨ended, later⟩ := a
    cases ended with
    | true => exact onlyFaults_ok _ rfl
    | false =>
      cases r.tcp with
      | true => exact onlyFaults_manageTcpData
      | false => exact onlyFaults_ok _ rfl

theorem onlyFaults_run : StopsFor OnlyFaults (run fd rounds sock) := by
  induction rounds generalizing sock with
  | nil => exact onlyFaults_ok _ rfl
  | cons r rounds ih =>
    unfold run
    refine onlyFaults_serveRound.bind fun a _ => ?_
    obtain ⟨ended, later⟩ := a
    cases ended with
    | true => exact onlyFaults_ok _ rfl
    | false => exact ih

theorem onlyFaults_checkAndRun {id : ClientId} :
    StopsFor OnlyFaults (checkAndRun env fd id rounds sock) := by
  unfold checkAndRun checkConnectionValidity
  refine StopsFor.bind ?_ fun a _ => ?_
  · refine onlyFaults_send.bind fun _ _ => (onlyFaults_die _).bind fun _ _ => ?_
    split
    · exact onlyFaults_ok _ rfl
    · exact onlyFaults_ok _ rfl
  · obtain ⟨valid, later⟩ := a
    cases valid with
    | false => exact onlyFaults_ok _ rfl
    | true => exact onlyFaults_run.bind fun _ _ => onlyFaults_ok _ rfl

theorem onlyFaults_subscriberMain {outside : Outside} {argv : List Bytes} :
    StopsFor OnlyFaults (subscriberMain outside argv env rounds sock) := by
  have hstop : StopsFor OnlyFaults (stop .die : Act (Option Int)) := by
    intro e he haccess
    rw [← Except.error.inj he] at haccess
    simp [accesses] at haccess
  unfold subscriberMain
  split
  · split
    · exact onlyFaults_ok _ rfl
    · split
      · exact hstop
      · split
        · exact hstop
        · refine onlyFaults_checkAndRun.bind fun ended _ => ?_
          cases ended <;> exact onlyFaults_ok _ rfl
  · exact onlyFaults_ok _ rfl

/-- Whatever comes and whichever allocations fail, the process only uses blocks it has and
gives none back twice; it reads beyond a block only where the process without memory stops
at a string that is missing or has no NUL, and does what that one does up to the DIE of an
allocation. When main returns, the heap holds the lost payloads and nothing else. -/
theorem only_lost_payloads_left (fails : ℕ → Bool) (outside : Outside) (argv : List Bytes)
    (env : Env) (rounds : List Round) (sock : Socket) :
    let onHeap := subscriberMainAt fails outside argv env rounds sock Heap.empty
    let bare := subscriberMain outside argv env rounds sock
    onHeap.result ≠ .error .invalid ∧
    onHeap.effects <+: bare.effects ∧
    (onHeap.result = .error .outside →
      onHeap.effects = bare.effects ∧ ∃ fault, bare.result = .error (.fault fault)) ∧
    (∀ e, onHeap.result = .error (.own e) →
      (onHeap.effects = bare.effects ∧ accesses e = false ∧ bare.result = .error e) ∨
        (e = .die ∧ ∃ n, fails n = true)) ∧
    ∀ code heap, onHeap.result = .ok (code, heap) →
      onHeap.effects = bare.effects ∧ bare.result = .ok code ∧
      (code.isSome = true →
        Lost (fun _ => none) (lostInMain outside argv env rounds sock) heap.cells) := by
  have hfollows : Follows fails (fun _ => none)
      (subscriberMainAt fails outside argv env rounds sock) _ _ := follows_subscriberMain
  obtain ⟨hvalid, hinitial, hbeyond, hstops, hvalue⟩ := hfollows.start
  refine ⟨hvalid, hinitial, fun houtside => ?_, hstops, fun code heap hresult => ?_⟩
  · obtain ⟨heffects, e, haccess, hbare⟩ := hbeyond houtside
    obtain ⟨fault, rfl⟩ := onlyFaults_subscriberMain e hbare haccess
    exact ⟨heffects, fault, hbare⟩
  · obtain ⟨heffects, b, hb, rfl, hlost⟩ := hvalue code heap hresult
    refine ⟨heffects, hb, fun hcode => ?_⟩
    obtain ⟨c, hc⟩ := Option.isSome_iff_exists.mp hcode
    exact hlost c hc

end Process

end ServerClientApp.SubscriberHeap
