import ServerClientApp.Faults

/-!
Subscribers killed at any moment, also amid a send. What a process had sent of a request
stays on its connection behind the whole frames, and the server reads it like the end of
the stream. A process killed before its id was whole leaves a connection of no client;
the server trusts what it reads there, and ends.
-/

namespace ServerClientApp.Kills

open PartialTransfers Outcomes Runs Protocols Datagrams ServerHandlers HandlerSpecs ServerRuns
  SubscriberHandlers SubscriberSpecs Fleets Faults
open Sessions (tcpSockfd)

section Model

/-- `torn` is what a killed process had sent of a request, and `nameless` what came on the
connections of processes killed before their ids were whole. -/
structure Site where
  fleet : Fleet
  torn : ℕ → Bytes
  nameless : List Bytes

namespace Site

def start (udpSockfd listenSockfd : Int) : Site :=
  ⟨Fleet.start udpSockfd listenSockfd, fun _ => [], []⟩

def unread (site : Site) (p : ℕ) (q : Peer) : Bytes := q.up.flatMap Frame.encode ++ site.torn p

end Site

def wire (command : UInt8) (text : Bytes) : Bytes :=
  (sendEfficient (TcpMessage.ofText command text) []).wire

/-- A turn of the fleet; a process is killed after n bytes of its id, or of the request a
line asks for; the server takes the n-th connection without an id. -/
inductive Move where
  | turns (t : Fleets.Turn)
  | killedNaming (id : ClientId) (n : ℕ)
  | killedAsking (p : ℕ) (line : Bytes) (n : ℕ)
  | meets (n : ℕ) (env : Env) (addr : SockAddr) (fd : Int) (calls : List Call)

def acceptMove (site : Site) (p : ℕ) (env : Env) (addr : SockAddr) (fd : Int)
    (calls : List Call) : Option (Fleet × List (Env × Event)) := do
  let q ← site.fleet.peers p
  match q.link, q.up with
  | .queued, _ :: up =>
    (site.fleet.setPeer p { q with link := .held fd, up }).handle env
      (.connection addr fd ⟨site.unread p q, calls⟩)
  | _, _ => none

def serveMove (site : Site) (p : ℕ) (env : Env) (k : ℕ) (calls : List Call) :
    Option (Fleet × List (Env × Event)) := do
  let q ← site.fleet.peers p
  match q.link, q.up with
  | .held fd, _ :: up =>
    (site.fleet.setPeer p { q with up }).handle env (.readable k fd ⟨site.unread p q, calls⟩)
  | .held fd, [] =>
    if q.stage = .past .stopped then
      site.fleet.handle env (.readable k fd ⟨site.unread p q, calls⟩)
    else none
  | _, _ => none

def killNaming (site : Site) (id : ClientId) (n : ℕ) : Option Site :=
  if id.length ≤ 10 ∧ 0 ∉ id ∧ site.fleet.running = true ∧ n < (wire connectReq id).length then
    some { site with nameless := site.nameless ++ [(wire connectReq id).take n] }
  else none

def killAsking (site : Site) (p : ℕ) (line : Bytes) (n : ℕ) : Option Site := do
  let q ← site.fleet.peers p
  match q.stage, manageStdinData line with
  | .past .idle, .request command topic =>
    if n < (wire command topic).length then
      (endTurn site.fleet p).map fun fleet =>
        { site with fleet, torn := Function.update site.torn p ((wire command topic).take n) }
    else none
  | _, _ => none

def meetMove (site : Site) (n : ℕ) (env : Env) (addr : SockAddr) (fd : Int)
    (calls : List Call) : Option (Site × List (Env × Event)) := do
  let part ← site.nameless[n]?
  let (fleet, events) ← site.fleet.handle env (.connection addr fd ⟨part, calls⟩)
  some ({ site with fleet, nameless := site.nameless.eraseIdx n }, events)

def move (site : Site) : Move → Option (Site × List (Env × Event))
  | .turns (.accepts p env addr fd calls) =>
    (acceptMove site p env addr fd calls).map fun r => ({ site with fleet := r.1 }, r.2)
  | .turns (.serves p env k calls) =>
    (serveMove site p env k calls).map fun r => ({ site with fleet := r.1 }, r.2)
  | .turns t => (turn site.fleet t).map fun r => ({ site with fleet := r.1 }, r.2)
  | .killedNaming id n => (killNaming site id n).map (·, [])
  | .killedAsking p line n => (killAsking site p line n).map (·, [])
  | .meets n env addr fd calls => meetMove site n env addr fd calls

def FreshMove (site : Site) : Move → Prop
  | .turns t => FreshTurn site.fleet t
  | .meets _ _ _ fd _ => fd ∉ site.fleet.server.pollFds.map PollFd.fd
  | .killedNaming .. | .killedAsking .. => True

instance (site : Site) : ∀ m, Decidable (FreshMove site m)
  | .turns t => inferInstanceAs (Decidable (FreshTurn site.fleet t))
  | .meets _ _ _ fd _ =>
    inferInstanceAs (Decidable (fd ∉ site.fleet.server.pollFds.map PollFd.fd))
  | .killedNaming .. | .killedAsking .. => isTrue trivial

/-- Why the program whose move it is ends in it, if it does not go through. -/
def stops (site : Site) : Move → Option Stop
  | .turns (.accepts p env addr fd calls) => do
    let q ← site.fleet.peers p
    match q.link, q.up with
    | .queued, _ :: _ =>
      stopOf (manageConnectionRequest env site.fleet.server addr fd ⟨site.unread p q, calls⟩)
    | _, _ => none
  | .turns (.serves p env k calls) => do
    let q ← site.fleet.peers p
    match q.link, q.up with
    | .held fd, _ :: _ =>
      stopOf (serveClient env site.fleet.server (3 + k) fd ⟨site.unread p q, calls⟩)
    | .held fd, [] =>
      if q.stage = .past .stopped then
        stopOf (serveClient env site.fleet.server (3 + k) fd ⟨site.unread p q, calls⟩)
      else none
    | _, _ => none
  | .turns t => Faults.stops site.fleet t
  | .killedNaming .. | .killedAsking .. => none
  | .meets n env addr fd calls => do
    let part ← site.nameless[n]?
    stopOf (manageConnectionRequest env site.fleet.server addr fd ⟨part, calls⟩)

def Smooth : Move → Prop
  | .turns t => Faults.Smooth t
  | .killedNaming .. | .killedAsking .. => True
  | .meets _ env _ fd calls => 0 ≤ fd ∧ Steady calls ∧ env.Sends

def Fitting : Move → Prop
  | .turns t => Faults.Fitting t
  | .killedNaming .. | .killedAsking .. | .meets .. => True

end Model

section Parts

variable {site site' : Site} {p : ℕ} {q : Peer} {f : Frame} {part : Bytes} {calls : List Call}

def Broken (part : Bytes) (f : Frame) : Prop := part <+: f.encode ∧ part ≠ f.encode

theorem wire_eq (command : UInt8) {text : Bytes} (h : text.length + 1 < 2 ^ 16) :
    wire command text = (Frame.ofText command text h).encode := by
  rw [wire, ← Frame.message_ofText command text h]
  exact (sendEfficient_frame _ [] steady_nil).2.1

theorem broken_take {n : ℕ} (h : n < f.encode.length) : Broken (f.encode.take n) f := by
  refine ⟨List.take_prefix n f.encode, ?_⟩
  intro heq
  have hlength := congrArg List.length heq
  rw [List.length_take] at hlength
  omega

theorem broken_nil : Broken [] (Frame.bare 0) := by
  exact ⟨List.nil_prefix, by simp [Frame.encode]⟩

/-- The server notices the end of a stream behind a frame that broke off. -/
theorem Broken.ended (h : Broken part f) (calls : List Call) :
    (recvEfficient ⟨part, calls⟩ TcpMessage.zero).rc ≤ 0 := by
  rcases recvEfficient_broken f part calls h.1 h.2 with hfailed | ⟨hzero, -⟩ <;> omega

/-- The payload of an id that broke off has no NUL. -/
theorem Broken.no_string {id : ClientId} {hfits : id.length + 1 < 2 ^ 16} (hfree : NulFree id)
    (h : Broken part (Frame.ofText connectReq id hfits))
    (hread : 0 ≤ (recvEfficient ⟨part, calls⟩ TcpMessage.zero).rc) :
    ∃ fault, cString (recvEfficient ⟨part, calls⟩ TcpMessage.zero).msg.payload =
      .error fault := by
  obtain ⟨hinit, hne⟩ := h
  obtain ⟨-, hpayload⟩ := (recvEfficient_broken _ part calls hinit hne).resolve_left (by omega)
  rw [hpayload]
  split
  · exact ⟨.nullPointer, rfl⟩
  · refine ⟨.unterminated, ?_⟩
    have hshort : part.length < (Frame.ofText connectReq id hfits).encode.length :=
      lt_of_le_of_ne hinit.length_le fun heq => hne (hinit.eq_of_length heq)
    have hid : part.drop 3 <+: id := by
      refine List.prefix_of_prefix_length_le (hinit.drop 3) (List.prefix_append id [0]) ?_
      simp only [Frame.encode, Frame.ofText, bigEndian, List.length_cons, List.length_append,
        List.length_nil] at hshort
      rw [List.length_drop]
      omega
    have hmem : (0 : UInt8) ∉ part.drop 3 := fun hzero => hfree (hid.subset hzero)
    simp only [cString, hmem, if_false]

/-- The server ends in taking a connection without an id. -/
theorem nameless_ends {id : ClientId} {hfits : id.length + 1 < 2 ^ 16} (env : Env) (s : Server)
    (addr : SockAddr) (fd : Int) (calls : List Call) (hfree : NulFree id)
    (h : Broken part (Frame.ofText connectReq id hfits)) :
    ∃ e, stopOf (manageConnectionRequest env s addr fd ⟨part, calls⟩) = some e ∧
      ((∃ fault, e = .fault fault) ∨ e = .die ∧ ¬ (0 ≤ fd ∧ Steady calls ∧ env.Sends)) := by
  simp only [stopOf_eq_some]
  by_cases hfd : fd < 0
  · refine ⟨.die, ?_, Or.inr ⟨rfl, fun hsmooth => by omega⟩⟩
    simp only [manageConnectionRequest, die, hfd, decide_true, Outcome.stopIf, if_true]
    rfl
  by_cases hread : (recvEfficient ⟨part, calls⟩ TcpMessage.zero).rc < 0
  · refine ⟨.die, ?_, Or.inr ⟨rfl, fun hsmooth => ?_⟩⟩
    · simp only [manageConnectionRequest, die, hfd, hread, decide_false, decide_true,
        Outcome.stopIf, Bool.false_eq_true, if_false, if_true, pure_bind]
      rfl
    · have hnonneg := (recvEfficient_keeps_steady ⟨part, calls⟩ TcpMessage.zero hsmooth.2.1).1
      omega
  · obtain ⟨fault, hfault⟩ := h.no_string hfree (not_lt.mp hread)
    refine ⟨.fault fault, ?_, Or.inl ⟨fault, rfl⟩⟩
    simp only [manageConnectionRequest, die, hfd, hread, decide_false, Outcome.stopIf,
      Bool.false_eq_true, if_false, pure_bind, hfault, Except.mapError, Outcome.ofExcept]
    rfl

end Parts

section Reading

variable {env : Env} {s s' : Server} {fd : Int} {k : ℕ} {addr : SockAddr} {f : Frame}
  {rest part : Bytes} {calls : List Call} {out : List Effect}

/-- serve_client looks at the return of recv_efficient, and at the message only where it
is not zero. -/
theorem handle_readable_congr {sock sock' : Socket}
    (hrc : (recvEfficient sock TcpMessage.zero).rc = (recvEfficient sock' TcpMessage.zero).rc)
    (hmsg : (recvEfficient sock TcpMessage.zero).rc ≠ 0 →
      (recvEfficient sock TcpMessage.zero).msg = (recvEfficient sock' TcpMessage.zero).msg) :
    handle env s (.readable k fd sock) = handle env s (.readable k fd sock') := by
  have hserve : serveClient env s (3 + k) fd sock = serveClient env s (3 + k) fd sock' := by
    simp only [serveClient]
    by_cases hzero : (recvEfficient sock TcpMessage.zero).rc = 0
    · simp only [← hrc, hzero, if_true]
    · rw [hmsg hzero, hrc]
  simp only [handle, hserve]

/-- What follows a whole frame, and how the recv calls split it, does not matter. -/
theorem handle_readable_whole (rest' : Bytes)
    (h : handle env s (.readable k fd ⟨f.encode ++ rest, calls⟩) = some (s', out)) :
    handle env s (.readable k fd ⟨f.encode ++ rest', []⟩) = some (s', out) := by
  obtain ⟨later, hread⟩ := frame_read h
  obtain ⟨later', -, hread'⟩ := recvEfficient_frame f rest' [] steady_nil
  rw [← h]
  exact handle_readable_congr (by rw [hread, hread']) fun _ => by rw [hread, hread']

/-- A frame that broke off is read like the end of the stream. -/
theorem handle_readable_broken (hbroken : Broken part f)
    (h : handle env s (.readable k fd ⟨part, calls⟩) = some (s', out)) :
    handle env s (.readable k fd ⟨[], []⟩) = some (s', out) := by
  obtain ⟨-, deleted, hserve⟩ := handle_readable h
  have hended := hbroken.ended calls
  have hzero : (recvEfficient ⟨part, calls⟩ TcpMessage.zero).rc = 0 := by
    rcases serveClient_ok hserve with ⟨hzero, -⟩ | ⟨hpos, -⟩ <;> omega
  rw [← h]
  exact handle_readable_congr hzero.symm fun hne => absurd rfl hne

theorem handle_connection_whole (rest' : Bytes)
    (h : handle env s (.connection addr fd ⟨f.encode ++ rest, calls⟩) = some (s', out)) :
    handle env s (.connection addr fd ⟨f.encode ++ rest', []⟩) = some (s', out) := by
  simp only [handle, Outcome.toStep_eq_some, manageConnectionRequest_eq_ok] at h ⊢
  obtain ⟨hfd, hrc, id, hid, hadmit⟩ := h
  obtain ⟨later, hread⟩ := (recvEfficient_whole f rest calls).resolve_left (by omega)
  obtain ⟨later', -, hread'⟩ := recvEfficient_frame f rest' [] steady_nil
  rw [hread] at hid
  rw [hread']
  exact ⟨hfd, by dsimp only; omega, id, hid, hadmit⟩

end Reading

section Runs

variable {udpSockfd listenSockfd : Int} {site site' : Site} {m : Move}
  {events : List (Env × Event)} {e : Stop}

def Reached (udpSockfd listenSockfd : Int) (f : Fleet) : Prop :=
  ∃ turns events, Along turn FreshTurn (Fleet.start udpSockfd listenSockfd) turns ∧
    exec turn (Fleet.start udpSockfd listenSockfd) turns = some (f, events)

theorem Reached.sound {f : Fleet} (h : Reached udpSockfd listenSockfd f) : Sound f := by
  obtain ⟨turns, events, hfresh, hrun⟩ := h
  exact sound_run hfresh hrun

theorem Reached.turn {f f' : Fleet} {t : Fleets.Turn} (h : Reached udpSockfd listenSockfd f)
    (hfresh : FreshTurn f t) (hstep : Fleets.turn f t = some (f', events)) :
    Reached udpSockfd listenSockfd f' := by
  obtain ⟨turns, before, halong, hrun⟩ := h
  exact ⟨turns ++ [t], before ++ events, halong.append hrun ⟨hfresh, fun _ _ _ => trivial⟩,
    exec_append.mpr ⟨f, before, events, hrun, exec_single hstep, rfl⟩⟩

/-- The fleet is one that its own turns lead to, and what killed processes have left are
frames that broke off, those without a client inside an id. -/
structure Tracked (udpSockfd listenSockfd : Int) (site : Site) : Prop where
  reached : Reached udpSockfd listenSockfd site.fleet
  torn : ∀ p, ∃ f, Broken (site.torn p) f
  nameless : ∀ part ∈ site.nameless, ∃ (id : ClientId) (hfits : id.length + 1 < 2 ^ 16),
    NulFree id ∧ Broken part (Frame.ofText connectReq id hfits)

inductive Moved (site : Site) : Site → Prop
  | turned {t : Fleets.Turn} {fleet : Fleet} {events : List (Env × Event)} :
      FreshTurn site.fleet t → turn site.fleet t = some (fleet, events) →
      Moved site { site with fleet }
  | tore {p : ℕ} {fleet : Fleet} {part : Bytes} {f : Frame} :
      turn site.fleet (.ends p) = some (fleet, []) → Broken part f →
      Moved site { site with fleet, torn := Function.update site.torn p part }
  | strayed {id : ClientId} {hfits : id.length + 1 < 2 ^ 16} {part : Bytes} :
      NulFree id → Broken part (Frame.ofText connectReq id hfits) →
      Moved site { site with nameless := site.nameless ++ [part] }

def Unread : Fleets.Turn → Prop
  | .accepts .. | .serves .. => False
  | .starts .. | .confirms .. | .types .. | .reads .. | .awaits .. | .ends _ | .others ..
  | .stops => True

theorem turn_cases (t : Fleets.Turn) :
    (∃ p env addr fd calls, t = .accepts p env addr fd calls) ∨
      (∃ p env k calls, t = .serves p env k calls) ∨ Unread t := by
  cases t with
  | accepts p env addr fd calls => exact Or.inl ⟨p, env, addr, fd, calls, rfl⟩
  | serves p env k calls => exact Or.inr (Or.inl ⟨p, env, k, calls, rfl⟩)
  | starts | confirms | types | reads | awaits | ends | others | stops =>
    exact Or.inr (Or.inr trivial)

theorem move_turns {t : Fleets.Turn} (h : Unread t) :
    move site (.turns t) = (turn site.fleet t).map fun r => ({ site with fleet := r.1 }, r.2) := by
  cases t with
  | accepts | serves => exact h.elim
  | starts | confirms | types | reads | awaits | ends | others | stops => rfl

theorem stops_turns {t : Fleets.Turn} (h : Unread t) :
    stops site (.turns t) = Faults.stops site.fleet t := by
  cases t with
  | accepts | serves => exact h.elim
  | starts | confirms | types | reads | awaits | ends | others | stops => rfl

theorem handle_rest {f : Fleet} {env : Env} {event event' : Event}
    {r : Fleet × List (Env × Event)}
    (hsame : ∀ server out, ServerRuns.handle env f.server event = some (server, out) →
      ServerRuns.handle env f.server event' = some (server, out))
    (h : f.handle env event = some r) : f.handle env event' = some (r.1, [(env, event')]) := by
  obtain ⟨server, out, hrunning, hhandle, hfleet, -⟩ := handle_eq_some h
  simp only [Fleet.handle, hrunning, if_true, hsame server out hhandle, Option.map_some, hfleet]

/-- The server accepts a process as if nothing broken followed its id. -/
theorem moved_accepts {p : ℕ} {env : Env} {addr : SockAddr} {fd : Int} {calls : List Call}
    {r : Fleet × List (Env × Event)} (h : acceptMove site p env addr fd calls = some r) :
    ∃ events, turn site.fleet (.accepts p env addr fd []) = some (r.1, events) := by
  simp only [acceptMove, Option.bind_eq_bind, Option.bind_eq_some_iff] at h
  obtain ⟨q, hq, h⟩ := h
  split at h
  · rename_i frame up hlink hup
    simp only [Site.unread, hup, List.flatMap_cons, List.append_assoc] at h
    have hturn := handle_rest (fun _ _ => handle_connection_whole (up.flatMap Frame.encode)) h
    refine ⟨_, Eq.trans ?_ hturn⟩
    simp only [turn, acceptTurn, hq, Option.bind_eq_bind, Option.bind_some, hlink, hup]
  · simp at h

/-- The server serves a process as if nothing broken followed its frames. -/
theorem moved_serves {p : ℕ} {env : Env} {k : ℕ} {calls : List Call}
    {r : Fleet × List (Env × Event)} (htorn : ∃ f, Broken (site.torn p) f)
    (h : serveMove site p env k calls = some r) :
    ∃ events, turn site.fleet (.serves p env k []) = some (r.1, events) := by
  obtain ⟨broken, hbroken⟩ := htorn
  simp only [serveMove, Option.bind_eq_bind, Option.bind_eq_some_iff] at h
  obtain ⟨q, hq, h⟩ := h
  split at h
  · rename_i fd frame up hlink hup
    simp only [Site.unread, hup, List.flatMap_cons, List.append_assoc] at h
    have hturn := handle_rest (fun _ _ => handle_readable_whole (up.flatMap Frame.encode)) h
    refine ⟨_, Eq.trans ?_ hturn⟩
    simp only [turn, serveTurn, hq, Option.bind_eq_bind, Option.bind_some, hlink, hup]
  · rename_i fd hlink hup
    split_ifs at h with hstage
    simp only [Site.unread, hup, List.flatMap_nil, List.nil_append] at h
    have hturn := handle_rest (fun _ _ => handle_readable_broken hbroken) h
    refine ⟨_, Eq.trans ?_ hturn⟩
    simp only [turn, serveTurn, hq, Option.bind_eq_bind, Option.bind_some, hlink, hup, hstage,
      if_true]
  · simp at h

theorem moved_killNaming {id : ClientId} {n : ℕ} (h : killNaming site id n = some site') :
    Moved site site' := by
  unfold killNaming at h
  split_ifs at h with hguard
  obtain ⟨hlength, hfree, -, hn⟩ := hguard
  have hfits : id.length + 1 < 2 ^ 16 := by omega
  rw [wire_eq connectReq hfits] at h hn
  rw [← Option.some.inj h]
  exact Moved.strayed hfree (broken_take hn)

theorem moved_killAsking {p : ℕ} {line : Bytes} {n : ℕ}
    (h : killAsking site p line n = some site') : Moved site site' := by
  simp only [killAsking, Option.bind_eq_bind, Option.bind_eq_some_iff] at h
  obtain ⟨q, hq, h⟩ := h
  split at h
  · rename_i command topic hstage hline
    split_ifs at h with hn
    obtain ⟨fleet, hend, rfl⟩ := Option.map_eq_some_iff.mp h
    obtain ⟨-, -, hlength, -⟩ := manageStdinData_request hline
    have hfits : topic.length + 1 < 2 ^ 16 := by omega
    rw [wire_eq command hfits] at hn ⊢
    exact Moved.tore (by rw [turn, hend, Option.map_some]) (broken_take hn)
  · simp at h

/-- A connection without an id is never gone through. -/
theorem meets_stops (h : Tracked udpSockfd listenSockfd site) {n : ℕ} (env : Env)
    (addr : SockAddr) (fd : Int) (calls : List Call) (hn : n < site.nameless.length) :
    ∃ e, stops site (.meets n env addr fd calls) = some e ∧
      ((∃ fault, e = .fault fault) ∨ e = .die ∧ ¬ Smooth (.meets n env addr fd calls)) := by
  obtain ⟨id, hfits, hfree, hbroken⟩ := h.nameless _ (List.getElem_mem hn)
  obtain ⟨e, hstop, hreason⟩ := nameless_ends env site.fleet.server addr fd calls hfree hbroken
  refine ⟨e, ?_, hreason⟩
  simp only [stops, List.getElem?_eq_getElem hn, Option.bind_eq_bind, Option.bind_some, hstop]

/-- A move that ends a program is none that the others go on from. -/
theorem move_of_stops (h : stops site m = some e) : move site m = none := by
  cases m with
  | killedNaming | killedAsking => simp [stops] at h
  | meets n env addr fd calls =>
    simp only [stops, Option.bind_eq_bind, Option.bind_eq_some_iff] at h
    obtain ⟨part, hpart, h⟩ := h
    simp [move, meetMove, hpart, Fleet.handle, ServerRuns.handle, toStep_of_stopOf h]
  | turns t =>
    rcases turn_cases t with ⟨p, env, addr, fd, calls, rfl⟩ | ⟨p, env, k, calls, rfl⟩ | hunread
    · simp only [stops, Option.bind_eq_bind, Option.bind_eq_some_iff] at h
      obtain ⟨q, hq, h⟩ := h
      split at h
      · rename_i frame up hlink hup
        simp [move, acceptMove, hq, hlink, hup, Fleet.handle, ServerRuns.handle, Fleet.setPeer,
          toStep_of_stopOf h]
      · simp at h
    · simp only [stops, Option.bind_eq_bind, Option.bind_eq_some_iff] at h
      obtain ⟨q, hq, h⟩ := h
      split at h
      · rename_i fd frame up hlink hup
        simp [move, serveMove, hq, hlink, hup, Fleet.handle, ServerRuns.handle, Fleet.setPeer,
          toStep_of_stopOf h]
      · rename_i fd hlink hup
        split_ifs at h with hstage
        simp [move, serveMove, hq, hlink, hup, hstage, Fleet.handle, ServerRuns.handle,
          toStep_of_stopOf h]
      · simp at h
    · rw [stops_turns hunread] at h
      rw [move_turns hunread, turn_of_stops h, Option.map_none]

theorem moved (h : Tracked udpSockfd listenSockfd site) (hfresh : FreshMove site m)
    (hstep : move site m = some (site', events)) : Moved site site' := by
  cases m with
  | killedNaming id n =>
    obtain ⟨site₁, hkill, heq⟩ := Option.map_eq_some_iff.mp hstep
    exact (Prod.mk.inj heq).1 ▸ moved_killNaming hkill
  | killedAsking p line n =>
    obtain ⟨site₁, hkill, heq⟩ := Option.map_eq_some_iff.mp hstep
    exact (Prod.mk.inj heq).1 ▸ moved_killAsking hkill
  | meets n env addr fd calls =>
    by_cases hn : n < site.nameless.length
    · obtain ⟨e, hstop, -⟩ := meets_stops h env addr fd calls hn
      rw [move_of_stops hstop] at hstep
      simp at hstep
    · simp [move, meetMove, List.getElem?_eq_none (not_lt.mp hn)] at hstep
  | turns t =>
    rcases turn_cases t with ⟨p, env, addr, fd, calls, rfl⟩ | ⟨p, env, k, calls, rfl⟩ | hunread
    · obtain ⟨r, haccept, heq⟩ := Option.map_eq_some_iff.mp hstep
      obtain ⟨events, hturn⟩ := moved_accepts haccept
      have hfresh' : FreshTurn site.fleet (.accepts p env addr fd []) := hfresh
      exact (Prod.mk.inj heq).1 ▸ Moved.turned hfresh' hturn
    · obtain ⟨r, hserve, heq⟩ := Option.map_eq_some_iff.mp hstep
      obtain ⟨events, hturn⟩ := moved_serves (h.torn p) hserve
      have hfresh' : FreshTurn site.fleet (.serves p env k []) := trivial
      exact (Prod.mk.inj heq).1 ▸ Moved.turned hfresh' hturn
    · rw [move_turns hunread] at hstep
      obtain ⟨r, hturn, heq⟩ := Option.map_eq_some_iff.mp hstep
      have hfresh' : FreshTurn site.fleet t := hfresh
      exact (Prod.mk.inj heq).1 ▸ Moved.turned hfresh' hturn

theorem tracked_step (h : Tracked udpSockfd listenSockfd site) (hmoved : Moved site site') :
    Tracked udpSockfd listenSockfd site' := by
  cases hmoved with
  | turned hfresh hturn => exact ⟨h.reached.turn hfresh hturn, h.torn, h.nameless⟩
  | @tore p fleet part f hturn hbroken =>
    have hfresh : FreshTurn site.fleet (.ends p) := trivial
    refine ⟨h.reached.turn hfresh hturn, ?_, h.nameless⟩
    intro p'
    by_cases hp : p' = p
    · exact ⟨f, by simpa only [hp, Function.update_self] using hbroken⟩
    · simpa only [Function.update_of_ne hp] using h.torn p'
  | @strayed id hfits part hfree hbroken =>
    refine ⟨h.reached, h.torn, ?_⟩
    intro part' hmem
    rcases List.mem_append.mp hmem with hold | hnew
    · exact h.nameless part' hold
    · exact ⟨id, hfits, hfree, List.mem_singleton.mp hnew ▸ hbroken⟩

theorem tracked_run {moves : List Move}
    (hfresh : Along move FreshMove (Site.start udpSockfd listenSockfd) moves)
    (hrun : exec move (Site.start udpSockfd listenSockfd) moves = some (site, events)) :
    Tracked udpSockfd listenSockfd site := by
  refine exec_invariant (fun _ _ _ _ h hfresh hstep => tracked_step h (moved h hfresh hstep))
    ⟨⟨[], [], trivial, rfl⟩, fun _ => ⟨_, broken_nil⟩, ?_⟩ hfresh hrun
  simp [Site.start]

/-- Serving a client ends the server only by a call that fails. -/
theorem serves_stops {p : ℕ} {env : Env} {k : ℕ} {calls : List Call} (h : Sound site.fleet)
    (htorn : ∃ f, Broken (site.torn p) f)
    (hstop : stops site (.turns (.serves p env k calls)) = some e) :
    e = .die ∧ ¬ Smooth (.turns (.serves p env k calls)) := by
  obtain ⟨broken, hbroken⟩ := htorn
  simp only [stops, Option.bind_eq_bind, Option.bind_eq_some_iff] at hstop
  obtain ⟨q, hq, hstop⟩ := hstop
  split at hstop
  · rename_i fd frame up hlink hup
    simp only [Site.unread, hup, List.flatMap_cons, List.append_assoc] at hstop
    exact (diesOnly_answers h hq hlink hup _).stops hstop
  · rename_i fd hlink hup
    split_ifs at hstop
    simp only [Site.unread, hup, List.flatMap_nil, List.nil_append] at hstop
    exact (diesOnly_notices h hq hlink (hbroken.ended calls)).stops hstop
  · simp at hstop

theorem accepts_stops {p : ℕ} {env : Env} {addr : SockAddr} {fd : Int} {calls : List Call}
    (h : Sound site.fleet) (hstop : stops site (.turns (.accepts p env addr fd calls)) = some e) :
    e = .die ∧ ¬ Smooth (.turns (.accepts p env addr fd calls)) := by
  simp only [stops, Option.bind_eq_bind, Option.bind_eq_some_iff] at hstop
  obtain ⟨q, hq, hstop⟩ := hstop
  split at hstop
  · rename_i frame up hlink hup
    simp only [Site.unread, hup, List.flatMap_cons, List.append_assoc] at hstop
    exact (diesOnly_accepts h hq hlink hup _).stops hstop
  · simp at hstop

theorem stops_reason (h : Tracked udpSockfd listenSockfd site) (hfitting : Fitting m)
    (hstop : stops site m = some e) :
    (e = .exit ∧ ∃ env, m = .turns (.others env (.line (ascii "exit")))) ∨
      (e = .die ∧ ¬ Smooth m) ∨
      ∃ fault n env addr fd calls, e = .fault fault ∧ m = .meets n env addr fd calls := by
  cases m with
  | killedNaming | killedAsking => simp [stops] at hstop
  | meets n env addr fd calls =>
    by_cases hn : n < site.nameless.length
    · obtain ⟨e', hstop', ⟨fault, rfl⟩ | hdie⟩ := meets_stops h env addr fd calls hn
      · rw [hstop', Option.some.injEq] at hstop
        exact Or.inr (Or.inr ⟨fault, n, env, addr, fd, calls, hstop.symm, rfl⟩)
      · rw [hstop', Option.some.injEq] at hstop
        exact Or.inr (Or.inl (hstop ▸ hdie))
    · simp [stops, List.getElem?_eq_none (not_lt.mp hn)] at hstop
  | turns t =>
    rcases turn_cases t with ⟨p, env, addr, fd, calls, rfl⟩ | ⟨p, env, k, calls, rfl⟩ | hunread
    · exact Or.inr (Or.inl (accepts_stops h.reached.sound hstop))
    · exact Or.inr (Or.inl (serves_stops h.reached.sound (h.torn p) hstop))
    · rw [stops_turns hunread] at hstop
      have hfitting' : Faults.Fitting t := hfitting
      rcases Faults.stops_reason h.reached.sound hfitting' hstop with ⟨hexit, env, rfl⟩ | hdie
      · exact Or.inl ⟨hexit, env, rfl⟩
      · exact Or.inr (Or.inl hdie)

end Runs

section Guarantee

variable {udpSockfd listenSockfd : Int} {site : Site} {events : List (Env × Event)}

def killed : List Move :=
  [.turns (.starts 0 Env.plain (ascii "a")),
    .turns (.accepts 0 Env.plain ⟨(127, 0, 0, 1), 1⟩ 5 []), .turns (.confirms 0 []),
    .killedAsking 0 (ascii "subscribe t") 4, .killedNaming (ascii "b") 4]

end Guarantee

end ServerClientApp.Kills
