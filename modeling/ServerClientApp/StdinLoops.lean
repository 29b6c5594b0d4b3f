import ServerClientApp.LineInput
import ServerClientApp.ServerRuns
import ServerClientApp.SubscriberHandlers

/-!
Typed lines. The loops of the server and of the subscriber read one line for each time
poll reports stdin, so a line that came in together with an earlier one stays in the
buffer of the input layer until something else is typed.
-/

namespace ServerClientApp.StdinLoops

open Outcomes Runs Protocols LineInput ServerHandlers ServerRuns SubscriberHandlers

def newline : UInt8 := 10

def serverLoop : Program Server (Env × Event) UInt8 where
  onLine s _ line :=
    match (checkStdinData s line).result with
    | .ok s' => some (s', false)
    | .error .exit => some (s, true)
    | .error _ => none
  onOther s i :=
    match i.2 with
    | .line _ => none
    | .datagram _ | .connection .. | .readable .. => (ServerRuns.step s i).map fun r => (r.1, false)

/-- Subscriber::run: manage_stdin_data for a line, which may wait for an answer on the
socket, and manage_tcp_data. -/
def subscriberLoop : Program Int (Env × Socket) UInt8 where
  onLine tcpSockfd given line :=
    match manageStdinData line with
    | .exit => some (tcpSockfd, true)
    | .usage | .invalidTopic => some (tcpSockfd, false)
    | .request command topic => do
      let _ ← (sendRequest given.1 tcpSockfd command topic).toStep
      let _ ← (awaitAnswer command topic given.2).toStep
      some (tcpSockfd, false)
  onOther tcpSockfd given := (manageTcpData given.2).toStep.map fun r => (tcpSockfd, r.1.1)

/-- In every run of either loop in which each read of the kernel brings at most one end
of a line: when the loop polls and the kernel holds no input, the lines handled are the
lines that came in, each once and in their order. -/
theorem no_line_waits (capacity : ℕ) :
    (∀ (s₀ : Server) (moves : List (Move (Env × Event) UInt8)) (r : Reader Server UInt8)
      (lines : List Bytes),
      Along (LineInput.step newline serverLoop capacity) (ReadsOneLine newline capacity)
        (Reader.asleep s₀) moves →
      exec (LineInput.step newline serverLoop capacity) (Reader.asleep s₀) moves = some (r, lines) →
      r.phase = .polling → r.kernel = [] → lines = completeLines newline (received moves)) ∧
    ∀ (tcpSockfd : Int) (moves : List (Move (Env × Socket) UInt8)) (r : Reader Int UInt8)
      (lines : List Bytes),
      Along (LineInput.step newline subscriberLoop capacity) (ReadsOneLine newline capacity)
        (Reader.asleep tcpSockfd) moves →
      exec (LineInput.step newline subscriberLoop capacity) (Reader.asleep tcpSockfd) moves =
        some (r, lines) →
      r.phase = .polling → r.kernel = [] → lines = completeLines newline (received moves) := by
  constructor
  · intro s₀ moves r lines hok hrun hpolling hempty
    exact all_handled_when_asleep hok hrun hpolling hempty
  · intro tcpSockfd moves r lines hok hrun hpolling hempty
    exact all_handled_when_asleep hok hrun hpolling hempty

def typed {ω : Type} (given : ω) (chunk : Bytes) : List (Move ω UInt8) :=
  [.arrives chunk, .wakes, .fills, .takes given]

/-- Two lines, one after the other. -/
theorem no_line_waits_typed : ∃ r lines,
    exec (LineInput.step newline serverLoop 1024) (Reader.asleep (Server.prepare 3 4))
      (typed (Env.plain, .line []) (ascii "x\n") ++ typed (Env.plain, .line []) (ascii "y\n")) =
        some (r, lines) ∧
    lines = [ascii "x", ascii "y"] := by
  refine ⟨_, _, by rfl, ?_⟩
  refine ((no_line_waits 1024).1 (Server.prepare 3 4)
    (typed (Env.plain, .line []) (ascii "x\n") ++ typed (Env.plain, .line []) (ascii "y\n"))
    _ _ (by decide) (by rfl) (by rfl) (by rfl)).trans ?_
  decide

/-- Two lines at once: the loops sleep with the exit command unhandled. -/
theorem exit_waits :
    (∃ r, exec (LineInput.step newline serverLoop 1024) (Reader.asleep (Server.prepare 3 4))
        (typed (Env.plain, .line []) (ascii "x\nexit\n")) = some (r, [ascii "x"]) ∧
      r.phase = .polling ∧ r.kernel = []) ∧
    (∃ r, exec (LineInput.step newline subscriberLoop 1024) (Reader.asleep 3)
        (typed (Env.plain, ⟨[], []⟩) (ascii "x\nexit\n")) = some (r, [ascii "x"]) ∧
      r.phase = .polling ∧ r.kernel = []) ∧
    completeLines newline (ascii "x\nexit\n") = [ascii "x", ascii "exit"] :=
  ⟨⟨_, by rfl, by rfl, by rfl⟩, ⟨_, by rfl, by rfl, by rfl⟩, by decide⟩

end ServerClientApp.StdinLoops
