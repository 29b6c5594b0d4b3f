import ServerClientApp.ServerHandlers

/-!
The subscriber: what it makes of a typed line, the request it sends, the line it
shows for the answer, and what it does with a frame that comes by itself.
-/

namespace ServerClientApp.SubscriberHandlers

open PartialTransfers Outcomes Protocols Wildcards ServerHandlers

section Lines

/-- strtok: the next token and what is left for the next call. -/
def strtok (delims text : Bytes) : Option (Bytes × Bytes) :=
  let text := text.dropWhile (· ∈ delims)
  if text = [] then none
  else some (text.takeWhile (· ∉ delims), (text.dropWhile (· ∉ delims)).drop 1)

inductive Typed where
  | exit
  | usage
  | invalidTopic
  | request (command : UInt8) (topic : Topic)
  deriving DecidableEq, Repr

def topicArgument (command : UInt8) (rest : Bytes) : Typed :=
  match strtok (ascii "\n ") rest with
  | none => .invalidTopic
  | some (topic, _) => if topic.length > 50 then .invalidTopic else .request command topic

/-- manage_stdin_data up to the call of subscribe_unsubscribe_topic. The line is
compared whole with exit, and copied up to its first NUL for strtok. -/
def manageStdinData (stdinData : Bytes) : Typed :=
  if stdinData = ascii "exit" then .exit
  else
    match strtok (ascii " ") (stdinData.takeWhile (· ≠ 0)) with
    | none => .usage
    | some (command, rest) =>
      if command = ascii "subscribe" then topicArgument subscribeReq rest
      else if command = ascii "unsubscribe" then topicArgument unsubscribeReq rest
      else .usage

def Typed.notice : Typed → Option Bytes
  | usage => some (ascii "Accepted commands: <exit> <subscribe> <unsubscribe>\n")
  | invalidTopic => some (ascii "Invalid topic. Topic must have at most 50 characters.\n")
  | exit | request .. => none

end Lines

section Requests

def sendRequest (env : Env) (tcpSockfd : Int) (command : UInt8) (topic : Topic) : Act Unit := do
  let (rc, _) ← sendOn env tcpSockfd (TcpMessage.ofText command topic)
  die (rc < 0)

def outcomeLine (command : UInt8) (topic : Topic) (answer : UInt8) : Bytes :=
  if command = subscribeReq then
    if answer = subscribeSucc then ascii "Subscribed to topic " ++ topic ++ ascii "\n"
    else ascii "Already subscribed to topic " ++ topic ++ ascii "\n"
  else
    if answer = unsubscribeSucc then ascii "Unsubscribed from topic " ++ topic ++ ascii "\n"
    else ascii "Not subscribed to topic " ++ topic ++ ascii ", cannot unsubscribe\n"

/-- The second half: any message that is read is taken for the answer, also the one
left zero by the end of the stream. -/
def awaitAnswer (command : UInt8) (topic : Topic) (sock : Socket) : Act Socket := do
  let received := recvEfficient sock TcpMessage.zero
  die (received.rc < 0)
  Outcome.emit (.printed (outcomeLine command topic received.msg.command))
  return received.sock

end Requests

section Messages

/-- A message that comes by itself; true when the connection has been closed. -/
def manageTcpData (sock : Socket) : Act (Bool × Socket) := do
  let received := recvEfficient sock TcpMessage.zero
  die (received.rc < 0)
  if received.rc = 0 then return (true, received.sock)
  else if received.msg.command ≠ msgFromUdp then
    Outcome.emit (.complained (ascii "Big error: message is not coming from UDP\n"))
    return (false, received.sock)
  else
    let text ← Outcome.ofExcept (received.msg.payload |> cString |>.mapError Stop.fault)
    Outcome.emit (.printed (text ++ ascii "\n"))
    return (false, received.sock)

end Messages

end ServerClientApp.SubscriberHandlers
