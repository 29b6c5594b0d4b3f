import ServerClientApp.Outcomes
import ServerClientApp.Datagrams

/-!
The server: its tables and the functions that serve one event. A handler gives
what it wrote, closed and printed, and the new tables or the reason the process
ended. What comes from outside a handler is an argument: the iteration order of
the client map, the results of the send calls on each descriptor, and what recv
will find on a socket.
-/

namespace ServerClientApp.ServerHandlers

open PartialTransfers Outcomes Protocols Wildcards Datagrams

abbrev ClientId := Bytes

structure Client where
  currFd : Int
  isConnected : Bool
  subscribedTopics : Subscriptions
  deriving DecidableEq

abbrev Clients := AList fun _ : ClientId => Client

abbrev Entry := Sigma fun _ : ClientId => Client

/-- An entry of the poll vector; `revents` is its POLLIN bit. -/
structure PollFd where
  fd : Int
  revents : Bool
  deriving DecidableEq, Repr

structure Server where
  clients : Clients
  pollFds : List PollFd
  numPollfds : ℤ
  deriving DecidableEq

/-- What can be seen of a handler from outside the process. -/
inductive Effect where
  | wrote (fd : Int) (wire : Bytes)
  | closed (fd : Int)
  | printed (text : Bytes)
  | complained (text : Bytes)
  deriving DecidableEq, Repr

/-- Why the process ends: the exit command, DIE, or something the language
leaves undefined or throws on. -/
inductive Stop where
  | exit
  | die
  | fault (fault : ReadFault)
  | nullClient
  | overflow
  deriving DecidableEq, Repr

/-- The map is iterated in some order of its entries, and the send calls on a
descriptor report some results. -/
structure Env where
  iterate : Clients → List Entry
  iterate_perm : ∀ clients, (iterate clients).Perm clients.entries
  sends : Int → List Call

def Env.Sends (env : Env) : Prop := ∀ fd, Steady (env.sends fd)

def Env.plain : Env := ⟨AList.entries, fun _ => List.Perm.refl _, fun _ => []⟩

theorem Env.plain_sends : Env.plain.Sends := fun _ => steady_nil

abbrev Act := Outcome Effect Stop

def die (failed : Bool) : Act Unit := Outcome.stopIf failed .die

section Tables

def Server.setClient (s : Server) (id : ClientId) (c : Client) : Server :=
  { s with clients := s.clients.insert id c }

def Server.prepare (udpSockfd tcpSockfd : Int) : Server :=
  ⟨∅, [⟨0, false⟩, ⟨udpSockfd, false⟩, ⟨tcpSockfd, false⟩], 3⟩

def Server.addClientPollfd (s : Server) (clientSockfd : Int) : Server :=
  { s with pollFds := s.pollFds ++ [⟨clientSockfd, false⟩], numPollfds := s.numPollfds + 1 }

def Server.clientFds (s : Server) : List Int := (s.pollFds.drop 3).map PollFd.fd

def Server.client (s : Server) (id : ClientId) : Option Client := s.clients.lookup id

def Server.Connected (s : Server) (id : ClientId) : Prop :=
  ∃ c, s.client id = some c ∧ c.isConnected = true

def Server.topicsOf (s : Server) (id : ClientId) : Subscriptions :=
  (s.client id).elim ∅ Client.subscribedTopics

/-- `none` is the placeholder with a NULL client. -/
def getClientFromFd (env : Env) (s : Server) (fd : Int) : Option Entry :=
  (env.iterate s.clients).find? fun entry => entry.2.currFd == fd

end Tables

section Connections

def sendOn (env : Env) (fd : Int) (msg : TcpMessage) : Act (Int × TcpMessage) :=
  let sent := sendEfficient msg (env.sends fd)
  ⟨[.wrote fd sent.wire], .ok (sent.rc, sent.msg)⟩

def sendConnectionResponse (env : Env) (response : Bool) (clientSockfd : Int) : Act Unit := do
  let msg : TcpMessage :=
    { TcpMessage.zero with command := if response then connectAccepted else connectDenied }
  let (rc, _) ← sendOn env clientSockfd msg
  die (rc < 0)

def connectedLine (clientId : ClientId) (addr : SockAddr) : Bytes :=
  ascii "New client " ++ clientId ++ ascii " connected from " ++ inetNtoa addr.ip ++
    ascii ":" ++ decimal addr.port.toNat

/-- manage_connection_request once the id is known: the look-up in the client map
and its three branches. -/
def admitOrDecline (env : Env) (s : Server) (addr : SockAddr) (clientSockfd : Int)
    (clientId : ClientId) : Act Server :=
  match s.clients.lookup clientId with
  | none => do
    let s := s.setClient clientId ⟨clientSockfd, true, ∅⟩
    let s := s.addClientPollfd clientSockfd
    sendConnectionResponse env true clientSockfd
    Outcome.emit (.printed (connectedLine clientId addr ++ ascii ".\n"))
    return s
  | some databaseClient =>
    if databaseClient.isConnected then do
      sendConnectionResponse env false clientSockfd
      Outcome.emit (.closed clientSockfd)
      Outcome.emit (.printed (ascii "Client " ++ clientId ++ ascii " already connected.\n"))
      return s
    else do
      let s := s.setClient clientId
        { databaseClient with isConnected := true, currFd := clientSockfd }
      let s := s.addClientPollfd clientSockfd
      sendConnectionResponse env true clientSockfd
      Outcome.emit (.printed (connectedLine clientId addr ++ ascii "\n"))
      return s

/-- accept has returned the descriptor and the address, and the socket holds what
the peer sends. Only an error of recv_efficient is looked at. -/
def manageConnectionRequest (env : Env) (s : Server) (addr : SockAddr) (clientSockfd : Int)
    (sock : Socket) : Act Server := do
  die (clientSockfd < 0)
  let received := recvEfficient sock TcpMessage.zero
  die (received.rc < 0)
  let clientId ← Outcome.ofExcept (received.msg.payload |> cString |>.mapError Stop.fault)
  admitOrDecline env s addr clientSockfd clientId

end Connections

section Requests

def sendAnswer (env : Env) (clientFd : Int) (command : UInt8) : Act Unit := do
  let (rc, _) ← sendOn env clientFd { TcpMessage.zero with command := command }
  die (rc < 0)

/-- Every command but SUBSCRIBE_REQ is taken for UNSUBSCRIBE_REQ. -/
def manageSubscribeUnsubscribe (env : Env) (s : Server) (clientFd : Int) (reqMsg : TcpMessage) :
    Act Server := do
  let topic ← Outcome.ofExcept (reqMsg.payload |> cString |>.mapError Stop.fault)
  match getClientFromFd env s clientFd with
  | none => Outcome.stop .nullClient
  | some ⟨id, reqClient⟩ =>
    if reqMsg.command = subscribeReq then
      if topic ∈ reqClient.subscribedTopics then
        sendAnswer env clientFd subscribeFail
        return s
      else
        let s := s.setClient id { reqClient with
          subscribedTopics := reqClient.subscribedTopics.insert topic (tokenizeTopic topic) }
        sendAnswer env clientFd subscribeSucc
        return s
    else
      if topic ∈ reqClient.subscribedTopics then
        let s := s.setClient id { reqClient with
          subscribedTopics := reqClient.subscribedTopics.erase topic }
        sendAnswer env clientFd unsubscribeSucc
        return s
      else
        sendAnswer env clientFd unsubscribeFail
        return s

/-- The body of the client loop for the entry at `it`, which has POLLIN: the new
tables and whether the entry has been deleted. -/
def serveClient (env : Env) (s : Server) (it : ℕ) (fd : Int) (sock : Socket) :
    Act (Server × Bool) := do
  let received := recvEfficient sock TcpMessage.zero
  die (received.rc < 0)
  if received.rc = 0 then
    match getClientFromFd env s fd with
    | none => Outcome.stop .nullClient
    | some ⟨id, exitingClient⟩ =>
      let s := s.setClient id { exitingClient with isConnected := false, currFd := -1 }
      Outcome.emit (.closed fd)
      let s := { s with pollFds := s.pollFds.eraseIdx it, numPollfds := s.numPollfds - 1 }
      Outcome.emit (.printed (ascii "Client " ++ id ++ ascii " disconnected.\n"))
      return (s, true)
  else
    let s ← manageSubscribeUnsubscribe env s fd received.msg
    return (s, false)

end Requests

section Publications

def publication (formattedMsg : Bytes) : TcpMessage :=
  TcpMessage.ofText msgFromUdp formattedMsg

def selected (stringTopic : Topic) (c : Client) : Bool :=
  c.isConnected && (decide (stringTopic ∈ c.subscribedTopics) ||
    checkWildcardTopic stringTopic c.subscribedTopics)

/-- The fan-out loop; the message goes from one send_efficient to the next. -/
def fanOut (env : Env) (stringTopic : Topic) : List Entry → TcpMessage → Act Unit
  | [], _ => return ()
  | entry :: rest, msg =>
    if selected stringTopic entry.2 then do
      let (rc, msg) ← sendOn env entry.2.currFd msg
      die (rc < 0)
      fanOut env stringTopic rest msg
    else
      fanOut env stringTopic rest msg

def sendMsgIfSubscribed (env : Env) (s : Server) (topic : Topic) (formattedMsg : Bytes) :
    Act Server := do
  fanOut env topic (env.iterate s.clients) (publication formattedMsg)
  return s

/-- recvfrom gave a datagram or, as `none`, an error. -/
def manageUdpMessage (env : Env) (s : Server) (received : Option Datagram) : Act Server := do
  match received with
  | none => Outcome.stop .die
  | some d =>
    let (topic, formatted) ← Outcome.ofExcept ((formattedMsg d).mapError Stop.fault)
    match formatted with
    | none =>
      Outcome.emit (.complained (ascii "This format is not supported\n"))
      return s
    | some text =>
      if text.length + 1 ≤ maxUdpMsg then
        sendMsgIfSubscribed env s topic text
      else
        Outcome.stop .overflow

def checkStdinData (s : Server) (line : Bytes) : Act Server :=
  if line = ascii "exit" then Outcome.stop .exit
  else do
    Outcome.emit (.printed (ascii "Only exit command is supported\n"))
    return s

end Publications

end ServerClientApp.ServerHandlers
