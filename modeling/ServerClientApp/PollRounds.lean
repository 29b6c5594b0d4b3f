import ServerClientApp.ServerRuns
import Mathlib.Data.List.Indexes

/-!
The loop of the server with what waits outside it. Peers connect, send and close
at any time; poll reports what is pending at that moment; the entries are then
served in the order of the poll vector, so the listening socket has its turn
before every client. What happened on a connection before another one arrived is
recorded with the arrival.
-/

namespace ServerClientApp.PollRounds

open PartialTransfers Outcomes Runs Protocols Datagrams ServerHandlers HandlerSpecs Leases
  ServerRuns

section Model

/-- What came on a connection and is unread, and whether the peer has closed it. -/
structure Channel where
  arrived : Bytes
  closed : Bool

def Channel.receive (ch : Channel) (bytes : Bytes) : Channel :=
  { ch with arrived := ch.arrived ++ bytes }

def Channel.close (ch : Channel) : Channel := { ch with closed := true }

def Channel.read (ch : Channel) (calls : List Call) : Channel :=
  { ch with arrived := (recvEfficient ⟨ch.arrived, calls⟩ TcpMessage.zero).sock.pending }

def Channel.ready (ch : Channel) : Bool := !ch.arrived.isEmpty || ch.closed

def holdsFrame : Bytes → Bool
  | _ :: hi :: lo :: rest => decide (hi.toNat * 256 + lo.toNat ≤ rest.length)
  | _ => false

/-- recv_efficient need not wait: the frame is there, or the stream has ended. -/
def Channel.settled (ch : Channel) : Bool := ch.closed || holdsFrame ch.arrived

/-- A connection waiting for accept. `gone` are the client descriptors whose peer had
closed when it arrived, as long as the server has not closed them. -/
structure Arrival where
  addr : SockAddr
  channel : Channel
  gone : List Int

inductive Phase where
  | poll
  | entry (it : ℕ)
  deriving DecidableEq, Repr

structure System where
  server : Server
  phase : Phase
  lines : List Bytes
  datagrams : List Datagram
  backlog : List Arrival
  channels : Int → Channel

def System.start (udpSockfd tcpSockfd : Int) : System :=
  ⟨Server.prepare udpSockfd tcpSockfd, .poll, [], [], [], fun _ => ⟨[], false⟩⟩

namespace System

def pending (sys : System) (it : ℕ) (fd : Int) : Bool :=
  match it with
  | 0 => !sys.lines.isEmpty
  | 1 => !sys.datagrams.isEmpty
  | 2 => !sys.backlog.isEmpty
  | _ + 3 => (sys.channels fd).ready

def polled (sys : System) : List PollFd :=
  sys.server.pollFds.mapIdx fun it p => ⟨p.fd, sys.pending it p.fd⟩

/-- Behind the listening socket the loop goes on to the clients, if there are any. -/
def nextPhase (num : ℤ) (it : ℕ) : Phase :=
  if it = 2 ∧ num < 4 then .poll else .entry (it + 1)

def setChannel (sys : System) (fd : Int) (ch : Channel) : System :=
  { sys with channels := Function.update sys.channels fd ch }

/-- The server has closed the descriptor, which may be given out again. -/
def forget (sys : System) (fd : Int) : System :=
  { sys with backlog := sys.backlog.map fun a => { a with gone := a.gone.filter (· ≠ fd) } }

/-- Serve an entry that has POLLIN. The calls are what recv returns, and `newFd` what
accept returns. -/
def serve (sys : System) (env : Env) (newFd : Int) (calls : List Call) (it : ℕ) (fd : Int) :
    Option (System × List Effect) :=
  match it with
  | 0 => do
    let line ← sys.lines.head?
    let (server, out) ← handle env sys.server (.line line)
    some ({ sys with server, phase := .entry 1, lines := sys.lines.tail }, out)
  | 1 => do
    let d ← sys.datagrams.head?
    let (server, out) ← handle env sys.server (.datagram (some d))
    some ({ sys with server, phase := .entry 2, datagrams := sys.datagrams.tail }, out)
  | 2 => do
    let arrival ← sys.backlog.head?
    if arrival.channel.settled then
      let (server, out) ←
        handle env sys.server (.connection arrival.addr newFd ⟨arrival.channel.arrived, calls⟩)
      let phase := nextPhase server.numPollfds 2
      let sys := sys.setChannel newFd (arrival.channel.read calls)
      some ({ sys with server, phase, backlog := sys.backlog.tail }, out)
    else none
  | k + 3 =>
    if (sys.channels fd).settled then do
      let ((server, deleted), out) ←
        (serveClient env sys.server (3 + k) fd ⟨(sys.channels fd).arrived, calls⟩).toStep
      if deleted then some ({ sys.forget fd with server, phase := .entry (k + 3) }, out)
      else
        let sys := sys.setChannel fd ((sys.channels fd).read calls)
        some ({ sys with server, phase := .entry (k + 4) }, out)
    else none

def advance (sys : System) (env : Env) (newFd : Int) (calls : List Call) :
    Option (System × List Effect) :=
  match sys.phase with
  | .poll =>
    if sys.polled.any PollFd.revents then
      some ({ sys with server := { sys.server with pollFds := sys.polled }, phase := .entry 0 }, [])
    else none
  | .entry it =>
    match sys.server.pollFds[it]? with
    | none => some ({ sys with phase := .poll }, [])
    | some p =>
      if p.revents then sys.serve env newFd calls it p.fd
      else some ({ sys with phase := nextPhase sys.server.numPollfds it }, [])

end System

inductive Move where
  | types (line : Bytes)
  | publishes (d : Datagram)
  | connects (addr : SockAddr)
  | presents (n : ℕ) (bytes : Bytes)
  | abandons (n : ℕ)
  | sends (fd : Int) (bytes : Bytes)
  | closes (fd : Int)
  | serves (env : Env) (newFd : Int) (calls : List Call)

def System.closedFds (sys : System) : List Int :=
  sys.server.clientFds.filter fun fd => (sys.channels fd).closed

def System.setArrival (sys : System) (n : ℕ) (a : Arrival) : System :=
  { sys with backlog := sys.backlog.set n a }

def move (sys : System) : Move → Option (System × List Effect)
  | .types line => some ({ sys with lines := sys.lines ++ [line] }, [])
  | .publishes d => some ({ sys with datagrams := sys.datagrams ++ [d] }, [])
  | .connects addr =>
    some ({ sys with backlog := sys.backlog ++ [⟨addr, ⟨[], false⟩, sys.closedFds⟩] }, [])
  | .presents n bytes => do
    let a ← sys.backlog[n]?
    if a.channel.closed then none
    else some (sys.setArrival n { a with channel := a.channel.receive bytes }, [])
  | .abandons n => do
    let a ← sys.backlog[n]?
    some (sys.setArrival n { a with channel := a.channel.close }, [])
  | .sends fd bytes =>
    if fd ∈ sys.server.clientFds ∧ (sys.channels fd).closed = false then
      some (sys.setChannel fd ((sys.channels fd).receive bytes), [])
    else none
  | .closes fd =>
    if fd ∈ sys.server.clientFds then some (sys.setChannel fd (sys.channels fd).close, [])
    else none
  | .serves env newFd calls => sys.advance env newFd calls

def Admissible (sys : System) : Move → Prop
  | .serves _ newFd _ => newFd ∉ sys.server.pollFds.map PollFd.fd
  | _ => True

instance (sys : System) : ∀ m, Decidable (Admissible sys m)
  | .serves _ newFd _ => inferInstanceAs (Decidable (newFd ∉ sys.server.pollFds.map PollFd.fd))
  | .types _ | .publishes _ | .connects _ | .presents .. | .abandons _ | .sends .. | .closes _ =>
    isTrue trivial

end Model

section Steps

inductive Advanced (env : Env) (newFd : Int) (calls : List Call) (sys : System) :
    System → List Effect → Prop
  | poll : Advanced env newFd calls sys
      { sys with server := { sys.server with pollFds := sys.polled }, phase := .entry 0 } []
  | pass (phase : Phase) : Advanced env newFd calls sys { sys with phase } []
  | line {text : Bytes} {server : Server} {out : List Effect} :
      handle env sys.server (.line text) = some (server, out) →
      Advanced env newFd calls sys
        { sys with server, phase := .entry 1, lines := sys.lines.tail } out
  | datagram {d : Datagram} {server : Server} {out : List Effect} :
      handle env sys.server (.datagram (some d)) = some (server, out) →
      Advanced env newFd calls sys
        { sys with server, phase := .entry 2, datagrams := sys.datagrams.tail } out
  | accept {arrival : Arrival} {rest : List Arrival} {server : Server} {phase : Phase}
      {out : List Effect} :
      sys.backlog = arrival :: rest →
      handle env sys.server (.connection arrival.addr newFd ⟨arrival.channel.arrived, calls⟩) =
        some (server, out) →
      Advanced env newFd calls sys
        { sys.setChannel newFd (arrival.channel.read calls) with server, phase, backlog := rest } out
  | left {k : ℕ} {fd : Int} {server : Server} {out : List Effect} :
      handle env sys.server (.readable k fd ⟨(sys.channels fd).arrived, calls⟩) =
        some (server, out) →
      (recvEfficient ⟨(sys.channels fd).arrived, calls⟩ TcpMessage.zero).rc = 0 →
      Advanced env newFd calls sys { sys.forget fd with server, phase := .entry (k + 3) } out
  | answered {k : ℕ} {fd : Int} {server : Server} {out : List Effect} :
      handle env sys.server (.readable k fd ⟨(sys.channels fd).arrived, calls⟩) =
        some (server, out) →
      0 < (recvEfficient ⟨(sys.channels fd).arrived, calls⟩ TcpMessage.zero).rc →
      Advanced env newFd calls sys
        { sys.setChannel fd ((sys.channels fd).read calls) with server, phase := .entry (k + 4) } out

variable {env : Env} {newFd : Int} {calls : List Call} {sys sys' : System} {out : List Effect}

theorem handle_of_serveClient {s server : Server} {k : ℕ} {fd : Int} {sock : Socket}
    {deleted : Bool}
    (hentry : (s.pollFds[3 + k]?).map PollFd.fd = some fd)
    (h : (serveClient env s (3 + k) fd sock).toStep = some ((server, deleted), out)) :
    handle env s (.readable k fd sock) = some (server, out) := by
  simp only [handle, hentry, if_true, h, Option.map_some]

theorem served_entry {it : ℕ} {fd : Int}
    (hentry : (sys.server.pollFds[it]?).map PollFd.fd = some fd)
    (h : sys.serve env newFd calls it fd = some (sys', out)) :
    Advanced env newFd calls sys sys' out := by
  match it with
  | 0 =>
    simp only [System.serve, Option.bind_eq_bind, Option.bind_eq_some_iff, Prod.exists] at h
    obtain ⟨line, -, server, out', hhandle, heq⟩ := h
    obtain ⟨rfl, rfl⟩ := Prod.mk.inj (Option.some.inj heq)
    exact Advanced.line hhandle
  | 1 =>
    simp only [System.serve, Option.bind_eq_bind, Option.bind_eq_some_iff, Prod.exists] at h
    obtain ⟨d, -, server, out', hhandle, heq⟩ := h
    obtain ⟨rfl, rfl⟩ := Prod.mk.inj (Option.some.inj heq)
    exact Advanced.datagram hhandle
  | 2 =>
    simp only [System.serve, Option.bind_eq_bind, Option.bind_eq_some_iff] at h
    obtain ⟨arrival, hhead, h⟩ := h
    split_ifs at h
    simp only [Option.bind_eq_some_iff, Prod.exists] at h
    obtain ⟨server, out', hhandle, heq⟩ := h
    obtain ⟨rfl, rfl⟩ := Prod.mk.inj (Option.some.inj heq)
    exact Advanced.accept (List.eq_cons_of_mem_head? hhead) hhandle
  | k + 3 =>
    rw [Nat.add_comm k 3] at hentry
    simp only [System.serve] at h
    split_ifs at h
    simp only [Option.bind_eq_bind, Option.bind_eq_some_iff, Prod.exists] at h
    obtain ⟨server, deleted, out', hserve, h⟩ := h
    have hhandle := handle_of_serveClient hentry hserve
    rcases serveClient_ok (Outcome.toStep_eq_some.mp hserve) with
      ⟨hzero, rfl, -⟩ | ⟨hpos, rfl, -⟩
    · simp only [if_true] at h
      obtain ⟨rfl, rfl⟩ := Prod.mk.inj (Option.some.inj h)
      exact Advanced.left hhandle hzero
    · simp only [Bool.false_eq_true, if_false] at h
      obtain ⟨rfl, rfl⟩ := Prod.mk.inj (Option.some.inj h)
      exact Advanced.answered hhandle hpos

theorem advanced (h : sys.advance env newFd calls = some (sys', out)) :
    Advanced env newFd calls sys sys' out := by
  unfold System.advance at h
  cases hphase : sys.phase with
  | poll =>
    simp only [hphase] at h
    split_ifs at h
    obtain ⟨rfl, rfl⟩ := Prod.mk.inj (Option.some.inj h)
    exact Advanced.poll
  | entry it =>
    simp only [hphase] at h
    cases hentry : sys.server.pollFds[it]? with
    | none =>
      simp only [hentry, Option.some.injEq, Prod.mk.injEq] at h
      obtain ⟨rfl, rfl⟩ := h
      exact Advanced.pass .poll
    | some p =>
      simp only [hentry] at h
      by_cases hready : p.revents = true
      · simp only [hready, if_true] at h
        exact served_entry (by rw [hentry, Option.map_some]) h
      · simp only [hready, Bool.false_eq_true, if_false, Option.some.injEq, Prod.mk.injEq] at h
        obtain ⟨rfl, rfl⟩ := h
        exact Advanced.pass _

/-- The tables agree, and what is recorded of an arrival is still true: these
descriptors are polled and their streams have ended. -/
structure Sound (sys : System) : Prop where
  consistent : Consistent sys.server
  gone : ∀ arrival ∈ sys.backlog, ∀ fd ∈ arrival.gone,
    fd ∈ sys.server.clientFds ∧ (sys.channels fd).closed = true

theorem sound_start (udpSockfd tcpSockfd : Int) : Sound (System.start udpSockfd tcpSockfd) where
  consistent := consistent_prepare udpSockfd tcpSockfd
  gone := by simp [System.start]

theorem clientFds_polled (sys : System) :
    ({ sys.server with pollFds := sys.polled } : Server).clientFds = sys.server.clientFds := by
  have hfds : sys.polled.map PollFd.fd = sys.server.pollFds.map PollFd.fd := by
    apply List.ext_getElem?
    intro it
    rw [System.polled, List.getElem?_map, List.getElem?_map, List.getElem?_mapIdx, Option.map_map]
    rfl
  rw [Server.clientFds, List.map_drop, hfds, ← List.map_drop]
  rfl

/-- poll changes no descriptor and no record. -/
theorem consistent_polled (h : Consistent sys.server) :
    Consistent { sys.server with pollFds := sys.polled } where
  counted := by
    rw [System.polled, List.length_mapIdx]
    exact h.counted
  listening := by
    rw [System.polled, List.length_mapIdx]
    exact h.listening
  leased := by
    rw [clientFds_polled]
    exact h.leased
  nonneg := by
    rw [clientFds_polled]
    exact h.nonneg
  idle := h.idle

/-- Replacing a channel by one that is closed if it was keeps ended streams ended. -/
theorem closed_update {channels : Int → Channel} {fd fd' : Int} {ch : Channel}
    (hkeep : fd' = fd → (channels fd').closed = true → ch.closed = true)
    (h : (channels fd').closed = true) : (Function.update channels fd ch fd').closed = true := by
  by_cases hfd : fd' = fd
  · subst hfd
    rw [Function.update_self]
    exact hkeep rfl h
  · rwa [Function.update_of_ne hfd]

/-- A client that leaves takes only its own descriptor out of the poll vector. -/
theorem still_polled {s : Server} (h : Consistent s) {k : ℕ} {fd fd' : Int} {id : ClientId}
    {c : Client} (hplace : s.clientFds[k]? = some fd) (hpolled : fd' ∈ s.clientFds)
    (hne : fd' ≠ fd) : fd' ∈ (dismiss s id c (3 + k)).clientFds := by
  rw [clientFds_dismiss _ _ _ _ h.listening, Listed.mem_eraseIdx_iff h.leased.nodup hplace]
  exact ⟨hpolled, hne⟩

theorem sound_advance (h : Sound sys) (hfresh : newFd ∉ sys.server.pollFds.map PollFd.fd)
    (hstep : sys.advance env newFd calls = some (sys', out)) : Sound sys' := by
  cases advanced hstep with
  | poll =>
    refine ⟨consistent_polled h.consistent, ?_⟩
    intro arrival hmem fd hgone
    obtain ⟨hpolled, hclosed⟩ := h.gone arrival hmem fd hgone
    exact ⟨by rwa [clientFds_polled], hclosed⟩
  | pass => exact ⟨h.consistent, h.gone⟩
  | line hhandle =>
    cases served h.consistent hhandle with
    | line => exact ⟨h.consistent, h.gone⟩
  | datagram hhandle =>
    cases served h.consistent hhandle with
    | datagram => exact ⟨h.consistent, h.gone⟩
  | @accept arrival rest server _ _ hbacklog hhandle =>
    have hconsistent : Consistent server :=
      consistent_step (i := (env, .connection arrival.addr newFd ⟨_, calls⟩)) h.consistent hfresh
        hhandle
    have hkept : sys.server.clientFds ⊆ server.clientFds := by
      cases served h.consistent hhandle with
      | refused => exact List.Subset.refl _
      | admitted =>
        rw [clientFds_enrol _ _ _ h.consistent.listening]
        exact List.subset_append_left _ _
    refine ⟨hconsistent, ?_⟩
    intro a hmem fd hgone
    obtain ⟨hpolled, hclosed⟩ := h.gone a (hbacklog ▸ List.mem_cons_of_mem _ hmem) fd hgone
    have hne : fd ≠ newFd := by
      intro heq
      subst heq
      exact hfresh (clientFds_subset _ hpolled)
    exact ⟨hkept hpolled, closed_update (fun heq => absurd heq hne) hclosed⟩
  | @left k fd server _ hhandle hzero =>
    have hconsistent : Consistent server :=
      consistent_step (i := (env, .readable k fd ⟨_, calls⟩)) h.consistent trivial hhandle
    cases served h.consistent hhandle with
    | answered hreceived hpos =>
      subst hreceived
      omega
    | @left _ _ _ id c _ _ hplace =>
      refine ⟨hconsistent, ?_⟩
      intro a hmem fd' hgone
      obtain ⟨before, hbefore, rfl⟩ := List.mem_map.mp hmem
      obtain ⟨hgone, hne⟩ := List.mem_filter.mp hgone
      obtain ⟨hpolled, hclosed⟩ := h.gone before hbefore fd' hgone
      exact ⟨still_polled h.consistent hplace hpolled (of_decide_eq_true hne), hclosed⟩
  | @answered k fd server _ hhandle hpos =>
    have hconsistent : Consistent server :=
      consistent_step (i := (env, .readable k fd ⟨_, calls⟩)) h.consistent trivial hhandle
    cases served h.consistent hhandle with
    | left hzero => omega
    | answered _ _ _ _ _ _ _ hpoll =>
      refine ⟨hconsistent, ?_⟩
      intro a hmem fd' hgone
      obtain ⟨hpolled, hclosed⟩ := h.gone a hmem fd' hgone
      have hfds : server.clientFds = sys.server.clientFds := by
        rw [Server.clientFds, hpoll, Server.clientFds]
      exact ⟨hfds ▸ hpolled, closed_update (fun heq hch => heq ▸ hch) hclosed⟩

theorem sound_setArrival (h : Sound sys) {n : ℕ} {a : Arrival} (ha : sys.backlog[n]? = some a)
    (ch : Channel) : Sound (sys.setArrival n { a with channel := ch }) := by
  refine ⟨h.consistent, ?_⟩
  intro a' hmem fd hgone
  rcases List.mem_or_eq_of_mem_set hmem with hmem | rfl
  · exact h.gone a' hmem fd hgone
  · exact h.gone a (List.mem_of_getElem? ha) fd hgone

/-- Whatever arrives and whatever the loop does next, the tables stay in agreement
and the records of the arrivals stay true. -/
theorem sound_move {m : Move} (h : Sound sys) (hadmissible : Admissible sys m)
    (hstep : move sys m = some (sys', out)) : Sound sys' := by
  cases m with
  | types line | publishes d =>
    obtain ⟨rfl, -⟩ := Prod.mk.inj (Option.some.inj hstep)
    exact ⟨h.consistent, h.gone⟩
  | connects addr =>
    obtain ⟨rfl, -⟩ := Prod.mk.inj (Option.some.inj hstep)
    refine ⟨h.consistent, ?_⟩
    intro a hmem fd hgone
    rcases List.mem_append.mp hmem with hmem | hmem
    · exact h.gone a hmem fd hgone
    · rw [List.mem_singleton.mp hmem] at hgone
      exact List.mem_filter.mp hgone
  | presents n bytes =>
    simp only [move, Option.bind_eq_bind, Option.bind_eq_some_iff] at hstep
    obtain ⟨a, ha, hstep⟩ := hstep
    split_ifs at hstep
    obtain ⟨rfl, -⟩ := Prod.mk.inj (Option.some.inj hstep)
    exact sound_setArrival h ha _
  | abandons n =>
    simp only [move, Option.bind_eq_bind, Option.bind_eq_some_iff] at hstep
    obtain ⟨a, ha, hstep⟩ := hstep
    obtain ⟨rfl, -⟩ := Prod.mk.inj (Option.some.inj hstep)
    exact sound_setArrival h ha _
  | sends fd bytes =>
    simp only [move] at hstep
    split_ifs at hstep with hguard
    obtain ⟨rfl, -⟩ := Prod.mk.inj (Option.some.inj hstep)
    refine ⟨h.consistent, ?_⟩
    intro a hmem fd' hgone
    obtain ⟨hpolled, hclosed⟩ := h.gone a hmem fd' hgone
    exact ⟨hpolled, closed_update (fun heq hch => heq ▸ hch) hclosed⟩
  | closes fd =>
    simp only [move] at hstep
    split_ifs at hstep with hguard
    obtain ⟨rfl, -⟩ := Prod.mk.inj (Option.some.inj hstep)
    refine ⟨h.consistent, ?_⟩
    intro a hmem fd' hgone
    obtain ⟨hpolled, hclosed⟩ := h.gone a hmem fd' hgone
    exact ⟨hpolled, closed_update (fun _ _ => rfl) hclosed⟩
  | serves env newFd calls => exact sound_advance h hadmissible hstep

end Steps

section Return

variable {sys sys' : System} {out : List Effect}

theorem sound_run {udpSockfd tcpSockfd : Int} {ms : List Move}
    (hadmissible : Along move Admissible (System.start udpSockfd tcpSockfd) ms)
    (hrun : exec move (System.start udpSockfd tcpSockfd) ms = some (sys, out)) : Sound sys :=
  exec_invariant (fun _ _ _ _ h hadmissible hstep => sound_move h hadmissible hstep)
    (sound_start udpSockfd tcpSockfd) hadmissible hrun

/-- The turn of the listening socket with a connection that is ready. -/
theorem advance_accept {arrival : Arrival} {rest : List Arrival} {p : PollFd} (env : Env)
    (newFd : Int) (calls : List Call) (hphase : sys.phase = .entry 2)
    (hentry : sys.server.pollFds[2]? = some p) (hready : p.revents = true)
    (hbacklog : sys.backlog = arrival :: rest) (hsettled : arrival.channel.settled = true) :
    (sys.advance env newFd calls).map Prod.snd =
      (handle env sys.server
        (.connection arrival.addr newFd ⟨arrival.channel.arrived, calls⟩)).map Prod.snd := by
  simp only [System.advance, hphase, hentry, hready, if_true, System.serve, hbacklog,
    List.head?_cons, Option.bind_eq_bind, Option.bind_some, hsettled]
  cases handle env sys.server
    (.connection arrival.addr newFd ⟨arrival.channel.arrived, calls⟩) <;> rfl

theorem accepted_mem_refusal (id : ClientId) (fd : Int) :
    .wrote fd (Frame.bare connectAccepted).encode ∉ refusal id fd := by
  have hne : (Frame.bare connectAccepted).encode ≠ (Frame.bare connectDenied).encode := by decide
  simp [refusal, hne]

theorem denied_mem_admission (s : Server) (id : ClientId) (addr : SockAddr) (fd : Int) :
    .wrote fd (Frame.bare connectDenied).encode ∉ admission s id addr fd := by
  have hne : (Frame.bare connectDenied).encode ≠ (Frame.bare connectAccepted).encode := by decide
  simp [admission, hne]

/-- A returning id at the head of the backlog: it has its turn, its frame is there,
and every connection that holds the id was closed by its peer before it arrived. -/
structure Returning (sys : System) (arrival : Arrival) (calls : List Call) (id : ClientId) :
    Prop where
  phase : sys.phase = .entry 2
  reported : (sys.server.pollFds[2]?).map PollFd.revents = some true
  first : sys.backlog.head? = some arrival
  settled : arrival.channel.settled = true
  read : 0 ≤ (recvEfficient ⟨arrival.channel.arrived, calls⟩ TcpMessage.zero).rc
  presented :
    cString (recvEfficient ⟨arrival.channel.arrived, calls⟩ TcpMessage.zero).msg.payload = .ok id
  left : ∀ fd, holder sys.server id = some fd → fd ∈ arrival.gone

/-- The id is connected exactly if the end of an old stream is still to be read. -/
theorem Returning.connected_iff (hsound : Sound sys) {arrival : Arrival} {calls : List Call}
    {id : ClientId} (h : Returning sys arrival calls id) :
    sys.server.Connected id ↔ ∃ fd ∈ sys.server.clientFds,
      (sys.channels fd).closed = true ∧ holder sys.server id = some fd := by
  obtain ⟨rest, hbacklog⟩ : ∃ rest, sys.backlog = arrival :: rest :=
    ⟨_, List.eq_cons_of_mem_head? h.first⟩
  constructor
  · intro hregistered
    obtain ⟨c, hc, hconnected⟩ := hregistered
    have hheld := holder_eq_some.mpr ⟨c, hc, hconnected, rfl⟩
    obtain ⟨hpolled, hclosed⟩ :=
      hsound.gone arrival (hbacklog ▸ List.mem_cons_self) _ (h.left _ hheld)
    exact ⟨_, hpolled, hclosed, hheld⟩
  · intro hleft
    obtain ⟨fd, -, -, hheld⟩ := hleft
    obtain ⟨c, hc, hconnected, -⟩ := holder_eq_some.mp hheld
    exact ⟨c, hc, hconnected⟩

/-- The loop's next step answers the arrival as its id is answered. -/
theorem Returning.answered {arrival : Arrival} {calls : List Call} {id : ClientId}
    (h : Returning sys arrival calls id) {env : Env} {newFd : Int} (hfd : 0 ≤ newFd) {s' : Server}
    {out : List Effect}
    (hanswer : admitOrDecline env sys.server arrival.addr newFd id = ⟨out, .ok s'⟩) :
    ∃ sys', move sys (.serves env newFd calls) = some (sys', out) := by
  obtain ⟨rest, hbacklog⟩ : ∃ rest, sys.backlog = arrival :: rest :=
    ⟨_, List.eq_cons_of_mem_head? h.first⟩
  obtain ⟨p, hentry, hready⟩ := Option.map_eq_some_iff.mp h.reported
  have hhandle : handle env sys.server
      (.connection arrival.addr newFd ⟨arrival.channel.arrived, calls⟩) = some (s', out) :=
    Outcome.toStep_eq_some.mpr (manageConnectionRequest_eq_ok.mpr
      ⟨hfd, h.read, id, h.presented, hanswer⟩)
  have hout := advance_accept env newFd calls h.phase hentry hready hbacklog h.settled
  rw [hhandle, Option.map_some, Option.map_eq_some_iff] at hout
  obtain ⟨⟨sys', _⟩, hadvance, rfl⟩ := hout
  exact ⟨sys', hadvance⟩

/-- In every run a returning id is accepted if no descriptor of it is left in the
poll vector with the end of its stream unread, and denied if one is. -/
theorem return_accepted_iff {udpSockfd tcpSockfd : Int} {ms : List Move} {before : List Effect}
    (hadmissible : Along move Admissible (System.start udpSockfd tcpSockfd) ms)
    (hrun : exec move (System.start udpSockfd tcpSockfd) ms = some (sys, before))
    {arrival : Arrival} {calls : List Call} {id : ClientId}
    (hreturn : Returning sys arrival calls id) {env : Env} (hsends : env.Sends) {newFd : Int}
    (hfd : 0 ≤ newFd) :
    ∃ sys' out, move sys (.serves env newFd calls) = some (sys', out) ∧
      (.wrote newFd (Frame.bare connectAccepted).encode ∈ out ↔
        ¬ ∃ fd ∈ sys.server.clientFds,
          (sys.channels fd).closed = true ∧ holder sys.server id = some fd) ∧
      (.wrote newFd (Frame.bare connectDenied).encode ∈ out ↔
        ∃ fd ∈ sys.server.clientFds,
          (sys.channels fd).closed = true ∧ holder sys.server id = some fd) := by
  rw [← hreturn.connected_iff (sound_run hadmissible hrun)]
  by_cases hconnected : sys.server.Connected id
  · obtain ⟨sys', hstep⟩ := hreturn.answered hfd (admitOrDecline_eq_ok.mpr
      (Or.inl ⟨hconnected, delivers_of_sends hsends _ _, rfl, rfl⟩))
    refine ⟨sys', _, hstep, iff_of_false (accepted_mem_refusal id newFd) (not_not.mpr hconnected),
      iff_of_true ?_ hconnected⟩
    exact List.mem_cons_self
  · obtain ⟨sys', hstep⟩ := hreturn.answered hfd (admitOrDecline_eq_ok.mpr
      (Or.inr ⟨hconnected, delivers_of_sends hsends _ _, rfl, rfl⟩))
    refine ⟨sys', _, hstep, iff_of_true ?_ hconnected,
      iff_of_false (denied_mem_admission _ id arrival.addr newFd) hconnected⟩
    exact List.mem_cons_self

def visit (steps : List Move) : List Move :=
  [.connects ⟨(127, 0, 0, 1), 1⟩,
    .presents 0 connectA.encode] ++ steps

def turns (n : ℕ) (newFd : Int) : List Move := List.replicate n (.serves Env.plain newFd [])

def backInTime : List Move :=
  visit (turns 4 5) ++ turns 2 6 ++ [.closes 5] ++ turns 6 6 ++ visit (turns 3 5)

/-- A client comes and leaves, and is back in the round that reports both. -/
def backTooSoon : List Move := visit (turns 4 5) ++ turns 2 6 ++ [.closes 5] ++ visit (turns 3 6)

def reached (ms : List Move) : System :=
  ((exec move (System.start 3 4) ms).map Prod.fst).getD (System.start 3 4)

theorem run_reached (ms : List Move) (h : (exec move (System.start 3 4) ms).isSome) :
    ∃ out, exec move (System.start 3 4) ms = some (reached ms, out) := exec_final h

def again (gone : List Int) : Arrival :=
  ⟨⟨(127, 0, 0, 1), 1⟩, ⟨connectA.encode, false⟩, gone⟩

set_option maxRecDepth 4000 in
theorem return_accepted_iff_backInTime : ∃ sys' out,
    move (reached backInTime) (.serves Env.plain 5 []) = some (sys', out) ∧
      .wrote 5 (Frame.bare connectAccepted).encode ∈ out := by
  obtain ⟨before, hrun⟩ := run_reached backInTime (by rfl)
  have hholder : holder (reached backInTime).server (ascii "a") = none := by rfl
  have hreturn : Returning (reached backInTime) (again []) [] (ascii "a") :=
    ⟨by rfl, by rfl, by rfl, by rfl, by decide, by rfl, by simp [hholder]⟩
  obtain ⟨sys', out, hstep, haccepted, -⟩ := return_accepted_iff (by decide) hrun hreturn
    Env.plain_sends (by decide : (0 : Int) ≤ 5)
  refine ⟨sys', out, hstep, haccepted.mpr ?_⟩
  intro hleft
  obtain ⟨fd, -, -, hheld⟩ := hleft
  simp [hholder] at hheld

set_option maxRecDepth 4000 in
/-- The close and the new connection are reported by one poll: the connection is
served first and denied. -/
theorem backTooSoon_denied :
    (∃ before, exec move (System.start 3 4) backTooSoon = some (reached backTooSoon, before)) ∧
      Along move Admissible (System.start 3 4) backTooSoon ∧
      Returning (reached backTooSoon) (again [5]) [] (ascii "a") ∧
      ∃ sys' out, move (reached backTooSoon) (.serves Env.plain 6 []) = some (sys', out) ∧
        .wrote 6 (Frame.bare connectDenied).encode ∈ out := by
  have hholder : holder (reached backTooSoon).server (ascii "a") = some 5 := by rfl
  refine ⟨run_reached backTooSoon (by rfl), by decide,
    ⟨by rfl, by rfl, by rfl, by rfl, by decide, by rfl, ?_⟩, ?_⟩
  · simp [hholder, again]
  · obtain ⟨⟨sys', out⟩, hstep⟩ := Option.isSome_iff_exists.mp
      (show (move (reached backTooSoon) (.serves Env.plain 6 [])).isSome by rfl)
    refine ⟨sys', out, hstep, ?_⟩
    have hout : (move (reached backTooSoon) (.serves Env.plain 6 [])).map Prod.snd =
        some (refusal (ascii "a") 6) := by rfl
    rw [hstep, Option.map_some, Option.some.injEq] at hout
    rw [show out = refusal (ascii "a") 6 from hout]
    exact List.mem_cons_self

end Return

end ServerClientApp.PollRounds
