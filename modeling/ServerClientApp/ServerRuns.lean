import ServerClientApp.HandlerSpecs
import ServerClientApp.Leases
import ServerClientApp.Runs

/-!
Runs of the server, one event after another in any order, and the agreement of
the client map with the poll vector along them. A descriptor is a lease of a
client id: connections take it, disconnections give it back, and nothing else
touches who holds what.
-/

namespace ServerClientApp.ServerRuns

open PartialTransfers Outcomes Runs Protocols Wildcards Datagrams ServerHandlers HandlerSpecs Leases

section Events

/-- What the loop serves: a line on stdin, what recvfrom gave, a connection with
the descriptor accept gave it, or a ready entry `k` of the client part. -/
inductive Event where
  | line (text : Bytes)
  | datagram (received : Option Datagram)
  | connection (addr : SockAddr) (fd : Int) (sock : Socket)
  | readable (k : ℕ) (fd : Int) (sock : Socket)

def Event.connect (addr : SockAddr) (fd : Int) (f : Frame) : Event :=
  .connection addr fd ⟨f.encode, []⟩

def Event.frame (k : ℕ) (fd : Int) (f : Frame) : Event := .readable k fd ⟨f.encode, []⟩

def Event.hangUp (k : ℕ) (fd : Int) : Event := .readable k fd ⟨[], []⟩

/-- The client part of the poll vector starts behind three entries. -/
def handle (env : Env) (s : Server) : Event → Option (Server × List Effect)
  | .line text => (checkStdinData s text).toStep
  | .datagram received => (manageUdpMessage env s received).toStep
  | .connection addr fd sock => (manageConnectionRequest env s addr fd sock).toStep
  | .readable k fd sock =>
    if (s.pollFds[3 + k]?).map PollFd.fd = some fd then
      (serveClient env s (3 + k) fd sock).toStep.map fun r => (r.1.1, r.2)
    else none

def step (s : Server) (i : Env × Event) : Option (Server × List Effect) := handle i.1 s i.2

/-- accept returns a descriptor that is not open. -/
def Fresh (s : Server) (i : Env × Event) : Prop :=
  match i.2 with
  | .connection _ fd _ => fd ∉ s.pollFds.map PollFd.fd
  | _ => True

instance (s : Server) : ∀ i, Decidable (Fresh s i)
  | (_, .connection _ fd _) => inferInstanceAs (Decidable (fd ∉ s.pollFds.map PollFd.fd))
  | (_, .line _) | (_, .datagram _) | (_, .readable ..) => isTrue trivial

/-- The server can get here from prepare, with accept never returning an open
descriptor. -/
def Reachable (s : Server) : Prop :=
  ∃ udpSockfd tcpSockfd is out, exec step (Server.prepare udpSockfd tcpSockfd) is = some (s, out) ∧
    Along step Fresh (Server.prepare udpSockfd tcpSockfd) is

variable {env : Env} {s s' : Server} {out : List Effect}

/-- A ready client descriptor is noticed closed or answered, as serveClient does it. -/
theorem handle_readable {k : ℕ} {fd : Int} {sock : Socket}
    (h : handle env s (.readable k fd sock) = some (s', out)) :
    (s.pollFds[3 + k]?).map PollFd.fd = some fd ∧
      ∃ deleted, serveClient env s (3 + k) fd sock = ⟨out, .ok (s', deleted)⟩ := by
  simp only [handle] at h
  split at h
  · rename_i hentry
    obtain ⟨⟨⟨s₁, deleted⟩, out₁⟩, hserve, heq⟩ := Option.map_eq_some_iff.mp h
    rw [Prod.mk.injEq] at heq
    obtain ⟨rfl, rfl⟩ := heq
    exact ⟨hentry, deleted, Outcome.toStep_eq_some.mp hserve⟩
  · simp at h

/-- A frame that is whole on the stream of a ready client descriptor is read whole. -/
theorem frame_read {k : ℕ} {fd : Int} {f : Frame} {rest : Bytes} {calls : List Call}
    (h : handle env s (.readable k fd ⟨f.encode ++ rest, calls⟩) = some (s', out)) :
    ∃ later, recvEfficient ⟨f.encode ++ rest, calls⟩ TcpMessage.zero =
      ⟨3 + f.len.toNat, f.message, ⟨rest, later⟩⟩ := by
  obtain ⟨-, deleted, hserve⟩ := handle_readable h
  refine (recvEfficient_whole f rest calls).resolve_left ?_
  intro hfailed
  rcases serveClient_ok hserve with ⟨hzero, -⟩ | ⟨hpos, -⟩ <;> omega

end Events

section Descriptors

def holder (s : Server) (id : ClientId) : Option Int :=
  (s.client id).bind fun c => if c.isConnected then some c.currFd else none

variable {s s' : Server}

theorem holder_eq_some {id : ClientId} {fd : Int} :
    holder s id = some fd ↔ ∃ c, s.client id = some c ∧ c.isConnected = true ∧ c.currFd = fd := by
  simp only [holder, Option.bind_eq_some_iff]
  refine exists_congr fun c => and_congr_right fun _ => ?_
  cases c.isConnected <;> simp

theorem holder_eq_none {id : ClientId} : holder s id = none ↔ ¬ s.Connected id := by
  rw [Option.eq_none_iff_forall_ne_some]
  constructor
  · rintro h ⟨c, hc, hconnected⟩
    exact h c.currFd (holder_eq_some.mpr ⟨c, hc, hconnected, rfl⟩)
  · intro h fd hfd
    obtain ⟨c, hc, hconnected, -⟩ := holder_eq_some.mp hfd
    exact h ⟨c, hc, hconnected⟩

/-- Changing one record changes what its id holds. -/
theorem holder_of_update {id : ClientId} {c : Client}
    (h : s'.client = Function.update s.client id (some c)) :
    holder s' = Function.update (holder s) id (if c.isConnected then some c.currFd else none) := by
  funext j
  by_cases hj : j = id
  · subst hj
    rw [Function.update_self, holder, h, Function.update_self, Option.bind_some]
  · rw [Function.update_of_ne hj, holder, h, Function.update_of_ne hj]
    rfl

theorem client_enrol (s : Server) (id : ClientId) (fd : Int) :
    (enrol s id fd).client = Function.update s.client id (some ⟨fd, true, s.topicsOf id⟩) := by
  rw [enrol, client_addClientPollfd, client_setClient]

theorem holder_enrol (s : Server) (id : ClientId) (fd : Int) :
    holder (enrol s id fd) = Function.update (holder s) id (some fd) := by
  simpa using holder_of_update (client_enrol s id fd)

theorem client_dismiss (s : Server) (id : ClientId) (c : Client) (it : ℕ) :
    (dismiss s id c it).client =
      Function.update s.client id (some { c with isConnected := false, currFd := -1 }) :=
  client_setClient s id _

theorem holder_dismiss (s : Server) (id : ClientId) (c : Client) (it : ℕ) :
    holder (dismiss s id c it) = Function.update (holder s) id none := by
  simpa using holder_of_update (client_dismiss s id c it)

/-- Changing only the subscriptions of a record leaves what its id holds. -/
theorem holder_of_topics {id : ClientId} {c : Client} {topics : Subscriptions}
    (hc : s.client id = some c)
    (h : s'.client = Function.update s.client id (some { c with subscribedTopics := topics })) :
    holder s' = holder s := by
  have hid : holder s id = if c.isConnected then some c.currFd else none := by
    rw [holder, hc, Option.bind_some]
  rw [holder_of_update h, ← hid, Function.update_eq_self]

theorem clientFds_enrol (s : Server) (id : ClientId) (fd : Int) (h : 3 ≤ s.pollFds.length) :
    (enrol s id fd).clientFds = s.clientFds ++ [fd] := by
  change ((s.pollFds ++ [(⟨fd, false⟩ : PollFd)]).drop 3).map PollFd.fd = _
  rw [List.drop_append_of_le_length h, List.map_append]
  rfl

theorem clientFds_dismiss (s : Server) (id : ClientId) (c : Client) (k : ℕ)
    (h : 3 ≤ s.pollFds.length) : (dismiss s id c (3 + k)).clientFds = s.clientFds.eraseIdx k := by
  have htake : (s.pollFds.take 3).length = 3 := by rw [List.length_take, min_eq_left h]
  change ((s.pollFds.eraseIdx (3 + k)).drop 3).map PollFd.fd = _
  rw [Server.clientFds, List.eraseIdx_map]
  congr 1
  conv_lhs => rw [← List.take_append_drop 3 s.pollFds]
  rw [List.eraseIdx_append_of_length_le (by omega), htake, List.drop_append_of_le_length (by omega),
    List.drop_of_length_le htake.le, List.nil_append, Nat.add_sub_cancel_left]

theorem clientFds_getElem? (s : Server) (k : ℕ) :
    s.clientFds[k]? = (s.pollFds[3 + k]?).map PollFd.fd := by
  rw [Server.clientFds, List.getElem?_map, List.getElem?_drop]

end Descriptors

section Agreement

/-- The client map and the poll vector agree: the client part of the vector lists
the descriptors held by connected ids, and the others hold -1. -/
structure Consistent (s : Server) : Prop where
  counted : s.numPollfds = s.pollFds.length
  listening : 3 ≤ s.pollFds.length
  leased : Listed (holder s) s.clientFds
  nonneg : ∀ fd ∈ s.clientFds, 0 ≤ fd
  idle : ∀ id c, s.client id = some c → c.isConnected = false → c.currFd = -1

variable {env : Env} {s s' : Server} {out : List Effect}

theorem consistent_prepare (udpSockfd tcpSockfd : Int) :
    Consistent (Server.prepare udpSockfd tcpSockfd) where
  counted := rfl
  listening := le_refl 3
  leased := listed_empty
  nonneg := by simp [Server.prepare, Server.clientFds]
  idle := by simp [Server.prepare, Server.client]

theorem Consistent.enrol (h : Consistent s) {id : ClientId} {fd : Int} (hfd : 0 ≤ fd)
    (hidle : ¬ s.Connected id) (hfresh : fd ∉ s.clientFds) :
    Consistent (HandlerSpecs.enrol s id fd) where
  counted := by
    change s.numPollfds + 1 = ((s.pollFds ++ [_]).length : ℤ)
    rw [h.counted, List.length_append, List.length_singleton, Nat.cast_add, Nat.cast_one]
  listening := by
    change 3 ≤ (s.pollFds ++ [_]).length
    rw [List.length_append]
    exact h.listening.trans (Nat.le_add_right _ _)
  leased := by
    rw [holder_enrol, clientFds_enrol s id fd h.listening]
    exact h.leased.take (holder_eq_none.mpr hidle) hfresh
  nonneg := by
    rw [clientFds_enrol s id fd h.listening]
    intro fd' hmem
    rcases List.mem_append.mp hmem with hmem | hmem
    · exact h.nonneg fd' hmem
    · rwa [List.mem_singleton.mp hmem]
  idle := by
    intro id' c hc hdisconnected
    rw [client_enrol] at hc
    by_cases hid : id' = id
    · rw [hid, Function.update_self, Option.some.injEq] at hc
      simp [← hc] at hdisconnected
    · rw [Function.update_of_ne hid] at hc
      exact h.idle id' c hc hdisconnected

theorem Consistent.dismiss (h : Consistent s) {id : ClientId} {c : Client} {k : ℕ} {fd : Int}
    (hheld : holder s id = some fd) (hplace : s.clientFds[k]? = some fd) :
    Consistent (HandlerSpecs.dismiss s id c (3 + k)) where
  counted := by
    have hlt : 3 + k < s.pollFds.length := by
      obtain ⟨hk, -⟩ := List.getElem?_eq_some_iff.mp hplace
      rw [Server.clientFds, List.length_map, List.length_drop] at hk
      omega
    change s.numPollfds - 1 = ((s.pollFds.eraseIdx (3 + k)).length : ℤ)
    rw [h.counted, List.length_eraseIdx_of_lt hlt]
    omega
  listening := by
    have hlt : 3 + k < s.pollFds.length := by
      obtain ⟨hk, -⟩ := List.getElem?_eq_some_iff.mp hplace
      rw [Server.clientFds, List.length_map, List.length_drop] at hk
      omega
    change 3 ≤ (s.pollFds.eraseIdx (3 + k)).length
    rw [List.length_eraseIdx_of_lt hlt]
    omega
  leased := by
    rw [holder_dismiss, clientFds_dismiss s id c k h.listening]
    exact h.leased.giveBack hheld hplace
  nonneg := by
    rw [clientFds_dismiss s id c k h.listening]
    exact fun fd' hmem => h.nonneg fd' (List.mem_of_mem_eraseIdx hmem)
  idle := by
    intro id' c' hc hdisconnected
    rw [client_dismiss] at hc
    by_cases hid : id' = id
    · rw [hid, Function.update_self, Option.some.injEq] at hc
      rw [← hc]
    · rw [Function.update_of_ne hid] at hc
      exact h.idle id' c' hc hdisconnected

theorem Consistent.changeTopics (h : Consistent s) {id : ClientId} {c : Client}
    {topics : Subscriptions} (hc : s.client id = some c)
    (hclient : s'.client = Function.update s.client id (some { c with subscribedTopics := topics }))
    (hpoll : s'.pollFds = s.pollFds) (hnum : s'.numPollfds = s.numPollfds) : Consistent s' := by
  have hfds : s'.clientFds = s.clientFds := by rw [Server.clientFds, hpoll, Server.clientFds]
  refine ⟨by rw [hnum, hpoll, h.counted], hpoll ▸ h.listening, ?_, hfds ▸ h.nonneg, ?_⟩
  · rw [holder_of_topics hc hclient, hfds]
    exact h.leased
  · intro id' c' hc' hdisconnected
    rw [hclient] at hc'
    by_cases hid : id' = id
    · rw [hid, Function.update_self, Option.some.injEq] at hc'
      rw [← hc'] at hdisconnected ⊢
      exact h.idle id c hc hdisconnected
    · rw [Function.update_of_ne hid] at hc'
      exact h.idle id' c' hc' hdisconnected

/-- Whatever the iteration order, a descriptor of the client part leads to the
id that holds it. -/
theorem Consistent.getClientFromFd (h : Consistent s) (env : Env) {fd : Int}
    (hmem : fd ∈ s.clientFds) :
    ∃ id c, ServerHandlers.getClientFromFd env s fd = some ⟨id, c⟩ ∧ s.client id = some c ∧
      c.isConnected = true ∧ c.currFd = fd := by
  obtain ⟨owner, howner, -⟩ := h.leased.owner hmem
  obtain ⟨c₀, hc₀, -, hfd₀⟩ := holder_eq_some.mp howner
  cases hentry : ServerHandlers.getClientFromFd env s fd with
  | none => exact absurd hentry (getClientFromFd_ne_none hc₀ hfd₀)
  | some entry =>
    obtain ⟨id, c⟩ := entry
    obtain ⟨hc, hfd⟩ := getClientFromFd_some hentry
    refine ⟨id, c, rfl, hc, ?_, hfd⟩
    -- A disconnected record holds -1, and no descriptor of the vector is negative.
    by_contra hdisconnected
    have hidle := h.idle id c hc (by simpa using hdisconnected)
    have hnonneg := h.nonneg fd hmem
    change c.currFd = fd at hfd
    omega

end Agreement

section Steps

/-- All an event can do in a state whose tables agree. -/
inductive Served (env : Env) (s : Server) : Event → Server → List Effect → Prop
  | line {text shown : Bytes} : text ≠ ascii "exit" → Served env s (.line text) s [.printed shown]
  | datagram {d : Datagram} {out : List Effect} :
      manageUdpMessage env s (some d) = ⟨out, .ok s⟩ → Served env s (.datagram (some d)) s out
  | refused {addr : SockAddr} {fd : Int} {sock : Socket} {id : ClientId} :
      cString (recvEfficient sock TcpMessage.zero).msg.payload = .ok id → s.Connected id →
      Served env s (.connection addr fd sock) s (refusal id fd)
  | admitted {addr : SockAddr} {fd : Int} {sock : Socket} {id : ClientId} :
      cString (recvEfficient sock TcpMessage.zero).msg.payload = .ok id → 0 ≤ fd →
      ¬ s.Connected id →
      Served env s (.connection addr fd sock) (enrol s id fd) (admission s id addr fd)
  | left {k : ℕ} {fd : Int} {sock : Socket} {id : ClientId} {c : Client} {shown : Bytes} :
      (recvEfficient sock TcpMessage.zero).rc = 0 → s.clientFds[k]? = some fd →
      s.client id = some c → holder s id = some fd →
      Served env s (.readable k fd sock) (dismiss s id c (3 + k)) [.closed fd, .printed shown]
  | answered {k : ℕ} {fd : Int} {sock : Socket} {received : Received} {id : ClientId} {c : Client}
      {topic : Topic} {s' : Server} :
      recvEfficient sock TcpMessage.zero = received → 0 < received.rc →
      s.clientFds[k]? = some fd → s.client id = some c → holder s id = some fd →
      cString received.msg.payload = .ok topic →
      s'.client = Function.update s.client id (some { c with
        subscribedTopics := topicsAfter received.msg.command topic c.subscribedTopics }) →
      s'.pollFds = s.pollFds → s'.numPollfds = s.numPollfds →
      Served env s (.readable k fd sock) s'
        [.wrote fd (Frame.bare (answerTo received.msg.command topic c.subscribedTopics)).encode]

variable {env : Env} {s s' : Server} {out : List Effect} {event : Event}

theorem served (h : Consistent s) (hstep : handle env s event = some (s', out)) :
    Served env s event s' out := by
  cases event with
  | line text =>
    obtain ⟨rfl, hline, shown, rfl⟩ := checkStdinData_ok (Outcome.toStep_eq_some.mp hstep)
    exact Served.line hline
  | datagram received =>
    have hact := Outcome.toStep_eq_some.mp hstep
    cases received with
    | none => exact absurd hact manageUdpMessage_none
    | some d =>
      obtain ⟨rfl, -⟩ := manageUdpMessage_ok hact
      exact Served.datagram hact
  | connection addr fd sock =>
    obtain ⟨hfd, -, id, hid, hanswer⟩ :=
      manageConnectionRequest_eq_ok.mp (Outcome.toStep_eq_some.mp hstep)
    rcases admitOrDecline_eq_ok.mp hanswer with
      ⟨hconnected, -, rfl, rfl⟩ | ⟨hconnected, -, rfl, rfl⟩
    · exact Served.refused hid hconnected
    · exact Served.admitted hid hfd hconnected
  | readable k fd sock =>
    obtain ⟨hentry, deleted, hserve⟩ := handle_readable hstep
    rw [← clientFds_getElem?] at hentry
    obtain ⟨id, c, hget, hc, hconnected, hfd⟩ :=
      h.getClientFromFd env (List.mem_of_getElem? hentry)
    have hheld : holder s id = some fd := holder_eq_some.mpr ⟨c, hc, hconnected, hfd⟩
    rcases serveClient_ok hserve with
      ⟨hzero, -, id', c', shown, hget', rfl, rfl⟩ | ⟨hpos, -, hrequest⟩
    · rw [hget, Option.some.injEq, Sigma.mk.injEq, heq_eq_eq] at hget'
      obtain ⟨rfl, rfl⟩ := hget'
      exact Served.left hzero hentry hc hheld
    · obtain ⟨topic, id', c', htopic, hget', hclient, hpoll, hnum, rfl⟩ :=
        manageSubscribeUnsubscribe_ok hrequest
      rw [hget, Option.some.injEq, Sigma.mk.injEq, heq_eq_eq] at hget'
      obtain ⟨rfl, rfl⟩ := hget'
      exact Served.answered rfl hpos hentry hc hheld htopic hclient hpoll hnum

theorem clientFds_subset (s : Server) : s.clientFds ⊆ s.pollFds.map PollFd.fd :=
  List.map_subset _ (List.drop_subset _ _)

/-- One event keeps the tables in agreement. -/
theorem consistent_step {i : Env × Event} (h : Consistent s) (hfresh : Fresh s i)
    (hstep : step s i = some (s', out)) : Consistent s' := by
  obtain ⟨env, event⟩ := i
  cases served h hstep with
  | line | datagram | refused => exact h
  | admitted _ hfd hidle => exact h.enrol hfd hidle fun hmem => hfresh (clientFds_subset s hmem)
  | left _ hplace _ hheld => exact h.dismiss hheld hplace
  | answered _ _ _ hc _ _ hclient hpoll hnum => exact h.changeTopics hc hclient hpoll hnum

theorem consistent_run {is : List (Env × Event)} (h : Consistent s) (hfresh : Along step Fresh s is)
    (hrun : exec step s is = some (s', out)) : Consistent s' :=
  exec_invariant (fun _ _ _ _ h hfresh hstep => consistent_step h hfresh hstep) h hfresh hrun

theorem reachable_prepare (udpSockfd tcpSockfd : Int) :
    Reachable (Server.prepare udpSockfd tcpSockfd) :=
  ⟨udpSockfd, tcpSockfd, [], [], rfl, trivial⟩

theorem reachable_of_run (udpSockfd tcpSockfd : Int) (is : List (Env × Event))
    (hrun : (exec step (Server.prepare udpSockfd tcpSockfd) is).map Prod.fst = some s)
    (hfresh : Along step Fresh (Server.prepare udpSockfd tcpSockfd) is) : Reachable s := by
  obtain ⟨⟨_, out⟩, hexec, rfl⟩ := Option.map_eq_some_iff.mp hrun
  exact ⟨udpSockfd, tcpSockfd, is, out, hexec, hfresh⟩

theorem Reachable.next {i : Env × Event} (h : Reachable s) (hfresh : Fresh s i)
    (hstep : step s i = some (s', out)) : Reachable s' := by
  obtain ⟨udpSockfd, tcpSockfd, is, before, hrun, halong⟩ := h
  refine ⟨udpSockfd, tcpSockfd, is ++ [i], before ++ out,
    exec_append.mpr ⟨s, before, out, hrun, exec_single hstep, rfl⟩, halong.concat ?_⟩
  intro t before' hrun'
  rw [hrun, Option.some.injEq, Prod.mk.injEq] at hrun'
  exact hrun'.1 ▸ hfresh

theorem Reachable.consistent (h : Reachable s) : Consistent s := by
  obtain ⟨udpSockfd, tcpSockfd, is, out, hrun, hfresh⟩ := h
  exact consistent_run (consistent_prepare udpSockfd tcpSockfd) hfresh hrun

end Steps

section Bijection

/-- In every state the server can reach, the client map and the poll vector are in
bijection: they count the same, each descriptor behind the first three is that of
exactly one id and connected, disconnected records hold -1, a connection with a
complete frame is refused and left out of both exactly if its id is connected, and
the look-up by descriptor gives the owner. -/
theorem tables_in_bijection {s : Server} (h : Reachable s) :
    s.numPollfds = s.pollFds.length ∧
    s.clientFds.Nodup ∧
    (∀ fd, fd ∈ s.clientFds ↔
      ∃! id, ∃ c, s.client id = some c ∧ c.isConnected = true ∧ c.currFd = fd) ∧
    (∀ id c, s.client id = some c → c.isConnected = true → c.currFd ∈ s.clientFds) ∧
    (∀ id c, s.client id = some c → c.isConnected = false → c.currFd = -1) ∧
    (∀ (env : Env) (addr : SockAddr) (fd : Int) (f : Frame) (calls : List Call) (rest : Bytes)
      (id : ClientId), 0 ≤ fd → Steady calls → cString (some f.payload) = .ok id →
      ∀ s' out, step s (env, .connection addr fd ⟨f.encode ++ rest, calls⟩) = some (s', out) ↔
        (s.Connected id ∧ Delivers env fd (Frame.bare connectDenied) ∧
          s' = s ∧ out = refusal id fd) ∨
        (¬ s.Connected id ∧ Delivers env fd (Frame.bare connectAccepted) ∧
          s' = enrol s id fd ∧ out = admission s id addr fd)) ∧
    (∀ (env : Env) (fd : Int), fd ∈ s.clientFds → ∃ id c, getClientFromFd env s fd = some ⟨id, c⟩ ∧
      s.client id = some c ∧ c.isConnected = true ∧ c.currFd = fd) := by
  have hc := h.consistent
  refine ⟨hc.counted, hc.leased.nodup, ?_, ?_, hc.idle,
    ?_, fun env fd => hc.getClientFromFd env⟩
  · intro fd
    simp only [← holder_eq_some]
    refine ⟨hc.leased.owner, fun hunique => (hc.leased.mem_iff fd).mpr hunique.exists⟩
  · intro id c hclient hconnected
    exact (hc.leased.mem_iff _).mpr ⟨id, holder_eq_some.mpr ⟨c, hclient, hconnected, rfl⟩⟩
  · intro env addr fd f calls rest id hfd hcalls hid s' out
    obtain ⟨later, -, hread⟩ := recvEfficient_frame f rest calls hcalls
    have hid' := f.cString_message hid
    rw [step, handle, Outcome.toStep_eq_some, manageConnectionRequest_eq_ok, hread]
    simp only [hid', Except.ok.injEq]
    constructor
    · intro hgiven
      obtain ⟨-, -, _, rfl, hanswer⟩ := hgiven
      exact admitOrDecline_eq_ok.mp hanswer
    · exact fun hanswer => ⟨hfd, by omega, id, rfl, admitOrDecline_eq_ok.mpr hanswer⟩

def connectA : Frame := Frame.ofText connectReq (ascii "a") (by decide)

def connectB : Frame := Frame.ofText connectReq (ascii "b") (by decide)

def subscribeT : Frame := Frame.ofText subscribeReq (ascii "t") (by decide)

def unsubscribeT : Frame := Frame.ofText unsubscribeReq (ascii "t") (by decide)

private def twoClients : Server := enrol (enrol (Server.prepare 3 4) (ascii "a") 5) (ascii "b") 6

private def oneLeft : Server := dismiss twoClients (ascii "a") ⟨5, true, ∅⟩ 3

private def arrivals : List (Env × Event) :=
  [(Env.plain, .connect ⟨(127, 0, 0, 1), 1⟩ 5 connectA),
    (Env.plain, .connect ⟨(127, 0, 0, 1), 2⟩ 6 connectB)]

private theorem reachable_twoClients : Reachable twoClients :=
  reachable_of_run 3 4 arrivals (by rfl) (by decide)

private theorem reachable_oneLeft : Reachable oneLeft :=
  reachable_of_run 3 4 (arrivals ++ [(Env.plain, .hangUp 0 5)]) (by rfl) (by decide)

/-- While the client a is connected its id is refused, and once it has left the id comes
back on the descriptor it had. -/
theorem tables_in_bijection_after_return :
    twoClients.clientFds = [5, 6] ∧
    step twoClients (Env.plain, .connect ⟨(127, 0, 0, 1), 3⟩ 7 connectA) =
      some (twoClients, refusal (ascii "a") 7) ∧
    oneLeft.clientFds = [6] ∧
    step oneLeft (Env.plain, .connect ⟨(127, 0, 0, 1), 4⟩ 5 connectA) =
      some (enrol oneLeft (ascii "a") 5,
        admission oneLeft (ascii "a") ⟨(127, 0, 0, 1), 4⟩ 5) := by
  obtain ⟨-, -, -, -, -, hrefuses, -⟩ := tables_in_bijection reachable_twoClients
  obtain ⟨-, -, -, -, hidle, hadmits, -⟩ := tables_in_bijection reachable_oneLeft
  have hconnected : twoClients.Connected (ascii "a") := ⟨⟨5, true, ∅⟩, by rfl, rfl⟩
  have hleft : ¬ oneLeft.Connected (ascii "a") := by
    intro h
    obtain ⟨c, hc, hmark⟩ := h
    have hrecord : oneLeft.client (ascii "a") = some ⟨-1, false, ∅⟩ := by rfl
    rw [hrecord, Option.some.injEq] at hc
    simp [← hc] at hmark
  have hrefused := (hrefuses Env.plain ⟨(127, 0, 0, 1), 3⟩ 7 connectA [] [] (ascii "a") (by decide)
    steady_nil (by rfl) twoClients (refusal (ascii "a") 7)).mpr
      (Or.inl ⟨hconnected, by decide, rfl, rfl⟩)
  have hadmitted := (hadmits Env.plain ⟨(127, 0, 0, 1), 4⟩ 5 connectA [] [] (ascii "a") (by decide)
    steady_nil (by rfl) _ _).mpr (Or.inr ⟨hleft, by decide, rfl, rfl⟩)
  rw [List.append_nil] at hrefused hadmitted
  exact ⟨by decide, hrefused, by decide, hadmitted⟩

end Bijection

end ServerClientApp.ServerRuns
