import ServerClientApp.ClientLoop
import ServerClientApp.Handles

/-!
The server as a process, from main to the end of its destructor. Each round of the loop
has what poll reports and what recvfrom, accept and the client sockets give. Descriptors
are handles: every one the process opens is in the poll vector as long as it is open, and
the destructor closes what is left.
-/

namespace ServerClientApp.ServerProgram

open PartialTransfers Outcomes Outcome Protocols Wildcards Datagrams ServerHandlers HandlerSpecs
  ServerRuns StrayFrames ClientLoop Handles

section Model

inductive Syscall where
  | opened (fd : Int)
  | handling (h : Handling)
  deriving DecidableEq, Repr

abbrev Program := Outcome Syscall LoopStop

def within {α : Type} (x : Loop α) : Program α := ⟨x.effects.map .handling, x.result⟩

def perform {α : Type} (act : Act α) : Program α := within (inLoop act)

/-- What one round finds: whether poll fails, the line getline reads, what recvfrom and
accept return and what the peer of a new connection sends, which clients are ready and
what they send; with the results of the send calls. -/
structure Round where
  failed : Bool
  stdin : Option Bytes
  datagram : Option (Option Datagram)
  connection : Option (SockAddr × Int × Socket)
  ready : Int → Bool
  env : Env
  envs : Int → Env
  socks : Int → Socket

def Round.reports (r : Round) : ℕ → Int → Bool
  | 0, _ => r.stdin.isSome
  | 1, _ => r.datagram.isSome
  | 2, _ => r.connection.isSome
  | _ + 3, fd => r.ready fd

def poll (r : Round) (s : Server) : Server :=
  { s with pollFds := s.pollFds.mapIdx fun it p => ⟨p.fd, r.reports it p.fd⟩ }

def serveStdin (r : Round) (s : Server) : Program (Bool × Server) :=
  match r.stdin with
  | none => return (false, s)
  | some line =>
    if line = ascii "exit" then return (true, s)
    else do
      let s ← perform (checkStdinData s line)
      return (false, s)

def serveUdp (r : Round) (s : Server) : Program Server :=
  match r.datagram with
  | none => return s
  | some received => perform (manageUdpMessage r.env s received)

def accept (clientSockfd : Int) : Program Unit :=
  if clientSockfd < 0 then return () else emit (.opened clientSockfd)

def serveTcp (r : Round) (s : Server) : Program Server :=
  match r.connection with
  | none => return s
  | some (addr, clientSockfd, sock) => do
    accept clientSockfd
    perform (manageConnectionRequest r.env s addr clientSockfd sock)

/-- The body of the loop. The rounds of the client loop are as many as it needs. -/
def serveRound (r : Round) (s : Server) : Program (Bool × Server) := do
  stopIf r.failed (.ended .die)
  let (ended, s) ← serveStdin r (poll r s)
  if ended then return (true, s)
  else
    let s ← serveUdp r s
    let s ← serveTcp r s
    let s ← within (serveClients r.envs r.socks (s.pollFds.length + 1) s)
    return (false, s)

def run : List Round → Server → Program (Bool × Server)
  | [], s => return (false, s)
  | r :: rounds, s => do
    let (ended, s) ← serveRound r s
    if ended then return (true, s) else run rounds s

/-- What main gets from the library and the kernel: the number sscanf reads, and for
each of the two sockets the descriptor, negative if socket fails, and whether the calls
that set it up succeed. -/
structure Outside where
  sscanf : Bytes → Option UInt16
  udpSocket : UInt16 → Int × Bool
  tcpSocket : UInt16 → Int × Bool

def prepareSocket (made : Int × Bool) : Program Int := do
  stopIf (made.1 < 0) (.ended .die)
  emit (.opened made.1)
  stopIf (!made.2) (.ended .die)
  return made.1

def prepare (outside : Outside) (port : UInt16) : Program Server := do
  let udpSockfd ← prepareSocket (outside.udpSocket port)
  let tcpSockfd ← prepareSocket (outside.tcpSocket port)
  return Server.prepare udpSockfd tcpSockfd

/-- The loop of the destructor from the entry `i` on, over `n` entries. -/
def closeFrom (s : Server) : ℕ → ℕ → Program Unit
  | 0, _ => return ()
  | n + 1, i =>
    match s.pollFds[i]? with
    | none => stop .pastEnd
    | some p => do
      emit (.handling (.effect (.closed p.fd)))
      closeFrom s n (i + 1)

/-- for (int i = 1; i < num_pollfds; i++) -/
def destroy (s : Server) : Program Unit := closeFrom s (s.numPollfds - 1).toNat 1

def prepareAndRun (outside : Outside) (port : UInt16) (rounds : List Round) :
    Program (Bool × Server) := do
  let s ← prepare outside port
  run rounds s

def leave (s : Server) (ended : Bool) : Program (Option Int) :=
  if ended then do
    destroy s
    return some 0
  else return none

/-- main up to the end of these rounds: the exit code, once the server has been deleted
or there was nothing to do. -/
def serverMain (outside : Outside) (argv : List Bytes) (rounds : List Round) :
    Program (Option Int) :=
  match argv with
  | [_, portText] =>
    match outside.sscanf portText with
    | none => stop (.ended .die)
    | some port => do
      let (ended, s) ← prepareAndRun outside port rounds
      leave s ended
  | _ => do
    emit (.handling (.effect (.printed
      (ascii "Server usage: " ++ argv.headD [] ++ ascii " <PORT>\n"))))
    return some (-1)

end Model

section Silence

variable {α β : Type} {env : Env} {s s' : Server}

structure Silent (act : Act α) : Prop where
  quiet : ∀ fd, .closed fd ∉ act.effects
  stops : StopsFor (· ≠ Stop.nullClient) act

def FailsSilently (act : Act α) : Prop :=
  ∀ e, act.result = .error e → (∀ fd, .closed fd ∉ act.effects) ∧ e ≠ .nullClient

theorem Silent.fails {act : Act α} (h : Silent act) : FailsSilently act :=
  fun e he => ⟨h.quiet, h.stops e he⟩

theorem failsSilently_ok (out : List Effect) (a : α) : FailsSilently (⟨out, .ok a⟩ : Act α) := by
  intro e he
  simp at he

theorem silent_ok {out : List Effect} (h : ∀ fd, .closed fd ∉ out) (a : α) :
    Silent (⟨out, .ok a⟩ : Act α) := ⟨h, stopsFor_ok out a⟩

theorem silent_stop {e : Stop} (h : e ≠ .nullClient) : Silent (stop e : Act α) :=
  ⟨by simp [stop], fun e' he => by rwa [← Except.error.inj he]⟩

theorem silent_die (failed : Bool) : Silent (die failed) := by
  cases failed with
  | true => exact silent_stop (by decide)
  | false => exact silent_ok (by simp) ()

theorem Silent.bind {x : Act α} {f : α → Act β} (hx : Silent x) (hf : ∀ a, Silent (f a)) :
    Silent (x >>= f) := by
  refine ⟨?_, hx.stops.bind fun a _ => (hf a).stops⟩
  intro fd
  have hquiet := hx.quiet fd
  rcases x with ⟨out, e | a⟩
  · exact hquiet
  · rw [mk_ok_bind, List.mem_append, not_or]
    exact ⟨hquiet, (hf a).quiet fd⟩

theorem Silent.then_fails {x : Act α} {f : α → Act β} (hx : Silent x)
    (hf : ∀ a, FailsSilently (f a)) : FailsSilently (x >>= f) := by
  rcases x with ⟨out, e | a⟩
  · intro e' he
    exact ⟨hx.quiet, hx.stops e' (congrArg Except.error (Except.error.inj he))⟩
  · intro e he
    obtain ⟨hlater, hreason⟩ := hf a e he
    refine ⟨fun fd => ?_, hreason⟩
    rw [mk_ok_bind, List.mem_append, not_or]
    exact ⟨hx.quiet fd, hlater fd⟩

theorem silent_sendOn (env : Env) (fd : Int) (msg : TcpMessage) : Silent (sendOn env fd msg) :=
  silent_ok (by simp) _

theorem silent_sendAnswer (env : Env) (fd : Int) (command : UInt8) :
    Silent (sendAnswer env fd command) :=
  (silent_sendOn env fd _).bind fun _ => silent_die _

theorem silent_ofExcept (x : Except ReadFault α) :
    Silent (Outcome.ofExcept (x.mapError Stop.fault) : Act α) := by
  cases x with
  | ok a => exact silent_ok (by simp) a
  | error fault => exact silent_stop (by simp)

theorem silent_emit {e : Effect} (h : ∀ fd, e ≠ .closed fd) : Silent (emit e : Act Unit) :=
  silent_ok (fun fd hmem => h fd (List.mem_singleton.mp hmem).symm) ()

theorem silent_pure (a : α) : Silent (pure a : Act α) := silent_ok (by simp) a

theorem failsSilently_admitOrDecline (addr : SockAddr) (fd : Int) (id : ClientId) :
    FailsSilently (admitOrDecline env s addr fd id) := by
  unfold admitOrDecline
  simp only [sendConnectionResponse_eq, emit_bind, pure_def]
  split
  · exact (silent_sendAnswer env fd _).then_fails fun _ => failsSilently_ok _ _
  · split
    · exact (silent_sendAnswer env fd _).then_fails fun _ => failsSilently_ok _ _
    · exact (silent_sendAnswer env fd _).then_fails fun _ => failsSilently_ok _ _

theorem failsSilently_manageConnectionRequest (addr : SockAddr) (fd : Int) (sock : Socket) :
    FailsSilently (manageConnectionRequest env s addr fd sock) :=
  (silent_die _).then_fails fun _ => (silent_die _).then_fails fun _ =>
    (silent_ofExcept _).then_fails fun _ => failsSilently_admitOrDecline _ _ _

theorem silent_manageSubscribeUnsubscribe {fd : Int} (msg : TcpMessage)
    (hentry : getClientFromFd env s fd ≠ none) :
    Silent (manageSubscribeUnsubscribe env s fd msg) := by
  unfold manageSubscribeUnsubscribe
  refine (silent_ofExcept _).bind fun topic => ?_
  cases hcase : getClientFromFd env s fd with
  | none => exact absurd hcase hentry
  | some entry =>
    dsimp only
    split_ifs
    all_goals exact (silent_sendAnswer env fd _).bind fun _ => silent_pure _

theorem failsSilently_serveClient {fd : Int} (it : ℕ) (sock : Socket)
    (hentry : getClientFromFd env s fd ≠ none) :
    FailsSilently (serveClient env s it fd sock) := by
  unfold serveClient
  refine (silent_die _).then_fails fun _ => ?_
  split_ifs
  · cases hcase : getClientFromFd env s fd with
    | none => exact absurd hcase hentry
    | some entry => exact failsSilently_ok _ _
  · refine ((silent_manageSubscribeUnsubscribe _ hentry).bind fun _ => ?_).fails
    exact silent_pure _

theorem silent_fanOut (topic : Topic) (entries : List Entry) (msg : TcpMessage) :
    Silent (fanOut env topic entries msg) := by
  induction entries generalizing msg with
  | nil => exact silent_ok (by simp) ()
  | cons entry entries ih =>
    unfold fanOut
    split_ifs
    · exact (silent_sendOn env _ msg).bind fun _ => (silent_die _).bind fun _ => ih _
    · exact ih msg

theorem silent_manageUdpMessage (received : Option Datagram) :
    Silent (manageUdpMessage env s received) := by
  unfold manageUdpMessage
  cases received with
  | none => exact silent_stop (by decide)
  | some d =>
    refine (silent_ofExcept _).bind fun formatted => ?_
    obtain ⟨topic, text⟩ := formatted
    cases text with
    | none => exact (silent_emit (by simp)).bind fun _ => silent_pure s
    | some text =>
      dsimp only
      split_ifs
      · exact (silent_fanOut topic _ _).bind fun _ => silent_pure s
      · exact silent_stop (by decide)

theorem silent_checkStdinData (line : Bytes) : Silent (checkStdinData s line) := by
  unfold checkStdinData
  split_ifs
  · exact silent_stop (by decide)
  · exact (silent_emit (by simp)).bind fun _ => silent_pure s

end Silence

section Descriptors

def stdio : Finset Int := {0, 1, 2}

def closes : Effect → Option (Use Int)
  | .closed fd => some (.gives fd)
  | .wrote .. | .printed _ | .complained _ => none

def descriptorUse : Syscall → Option (Use Int)
  | .opened fd => some (.takes fd)
  | .handling (.effect e) => closes e
  | .handling (.received _) => none

/-- The loop is not stuck, and the process touches neither what is behind the poll vector
nor the NULL placeholder. -/
def Orderly (reason : LoopStop) : Prop :=
  reason ≠ .pastEnd ∧ reason ≠ .unfinished ∧ reason ≠ .ended .nullClient

abbrev Keeps {α : Type} (held : Finset Int) (x : Program α) (post : Finset Int → α → Prop) : Prop :=
  Careful descriptorUse stdio Orderly held x post

def Holds (held : Finset Int) (fds : List Int) : Prop :=
  ∃ own, fds = 0 :: own ∧ own.Nodup ∧ (∀ fd ∈ own, fd ∉ stdio) ∧
    ∀ fd, fd ∈ held ↔ fd ∈ stdio ∨ fd ∈ own

/-- The tables agree, and the open descriptors are those of the poll vector. -/
def Kept (held : Finset Int) (s : Server) : Prop :=
  Consistent s ∧ Holds held (s.pollFds.map PollFd.fd)

variable {held : Finset Int} {fds : List Int} {fd : Int}

theorem Holds.mem_iff (h : Holds held fds) : fd ∈ held ↔ fd ∈ stdio ∨ fd ∈ fds := by
  obtain ⟨own, rfl, -, -, hheld⟩ := h
  rw [hheld, List.mem_cons]
  refine ⟨?_, ?_⟩
  · exact fun hcases => hcases.imp_right Or.inr
  · rintro (hstdio | rfl | hown)
    · exact Or.inl hstdio
    · exact Or.inl (by decide)
    · exact Or.inr hown

theorem Holds.nodup (h : Holds held fds) : fds.Nodup := by
  obtain ⟨own, rfl, hnodup, hnew, -⟩ := h
  refine List.nodup_cons.mpr ⟨?_, hnodup⟩
  intro hmem
  exact hnew 0 hmem (by decide)

theorem Holds.open (h : Holds held fds) (hfree : fd ∉ held) :
    Holds (insert fd held) (fds ++ [fd]) := by
  obtain ⟨own, rfl, hnodup, hnew, hheld⟩ := h
  obtain ⟨hstdio, hown⟩ := not_or.mp ((hheld fd).not.mp hfree)
  refine ⟨own ++ [fd], rfl, ?_, ?_, ?_⟩
  · rw [List.nodup_append_comm, List.singleton_append, List.nodup_cons]
    exact ⟨hown, hnodup⟩
  · intro fd' hmem
    rcases List.mem_append.mp hmem with hold | hlast
    · exact hnew fd' hold
    · exact List.mem_singleton.mp hlast ▸ hstdio
  · intro fd'
    rw [Finset.mem_insert, hheld, List.mem_append, List.mem_singleton]
    tauto

/-- An entry behind the first one has a descriptor of the process. -/
theorem Holds.own (h : Holds held fds) {i : ℕ} (hplace : fds[i + 1]? = some fd) :
    fd ∈ held ∧ fd ∉ stdio := by
  obtain ⟨own, rfl, -, hnew, hheld⟩ := h
  rw [List.getElem?_cons_succ] at hplace
  have hmem := List.mem_of_getElem? hplace
  exact ⟨(hheld fd).mpr (Or.inr hmem), hnew fd hmem⟩

theorem Holds.close (h : Holds held fds) {i : ℕ} (hplace : fds[i + 1]? = some fd) :
    Holds (held.erase fd) (fds.eraseIdx (i + 1)) := by
  obtain ⟨own, rfl, hnodup, hnew, hheld⟩ := h
  rw [List.getElem?_cons_succ] at hplace
  rw [List.eraseIdx_cons_succ]
  refine ⟨own.eraseIdx i, rfl, hnodup.sublist (List.eraseIdx_sublist _ _), ?_, ?_⟩
  · exact fun fd' hmem => hnew fd' (List.mem_of_mem_eraseIdx hmem)
  · intro fd'
    rw [Finset.mem_erase, hheld, Leases.Listed.mem_eraseIdx_iff hnodup hplace]
    have hstdio : fd' ∈ stdio → fd' ≠ fd := by
      intro hmem heq
      exact hnew fd (List.mem_of_getElem? hplace) (heq ▸ hmem)
    tauto

theorem filterMap_within {α : Type} (act : Act α) :
    (perform act).effects.filterMap descriptorUse = act.effects.filterMap closes := by
  simp [perform, within, inLoop, List.filterMap_map, Function.comp_def, descriptorUse]

theorem filterMap_closes {out : List Effect} (h : ∀ fd, .closed fd ∉ out) :
    out.filterMap closes = [] := by
  rw [List.filterMap_eq_nil_iff]
  intro e he
  cases e with
  | closed fd => exact absurd he (h fd)
  | wrote | printed | complained => rfl

/-- A handler closes at most one descriptor, and none where it ends the process. -/
theorem keeps_perform {α : Type} {act : Act α} {post : Finset Int → α → Prop}
    (hfails : FailsSilently act)
    (hok : ∀ a out, act = ⟨out, .ok a⟩ → (out.filterMap closes = [] ∧ post held a) ∨
      ∃ fd, out.filterMap closes = [.gives fd] ∧ fd ∈ held ∧ fd ∉ stdio ∧
        post (held.erase fd) a) : Keeps held (perform act) post := by
  rcases act with ⟨out, e | a⟩
  · obtain ⟨hquiet, hreason⟩ := hfails e rfl
    refine careful_silent ?_ ?_ ?_
    · rw [filterMap_within]
      exact filterMap_closes hquiet
    · intro a ha
      simp [perform, within, inLoop, Except.mapError] at ha
    · intro reason hresult
      have hended : reason = .ended e := by
        simpa [perform, within, inLoop, Except.mapError, eq_comm] using hresult
      subst hended
      exact ⟨by simp, by simp, by simpa using hreason⟩
  · have hvalue : ∀ b, (perform (⟨out, .ok a⟩ : Act α)).result = .ok b → b = a := by
      intro b hb
      simpa [perform, within, inLoop, Except.mapError, eq_comm] using hb
    have hstops : ∀ reason, (perform (⟨out, .ok a⟩ : Act α)).result = .error reason →
        Orderly reason := by
      intro reason hresult
      simp [perform, within, inLoop, Except.mapError] at hresult
    rcases hok a out rfl with ⟨hnone, hpost⟩ | ⟨fd, hone, hheld, hown, hpost⟩
    · refine careful_silent ?_ ?_ hstops
      · rw [filterMap_within]
        exact hnone
      · exact fun b hb => hvalue b hb ▸ hpost
    · refine ⟨?_, ?_, fun _ => hstops⟩
      · rw [filterMap_within, hone]
        exact fun _ => ⟨⟨hheld, hown⟩, trivial⟩
      · rw [filterMap_within, hone]
        exact fun _ b hb => hvalue b hb ▸ hpost

end Descriptors

section Rounds

variable {held : Finset Int} {s s' : Server} {env : Env}

theorem fds_poll (r : Round) (s : Server) :
    (poll r s).pollFds.map PollFd.fd = s.pollFds.map PollFd.fd := by
  apply List.ext_getElem?
  intro it
  rw [poll, List.getElem?_map, List.getElem?_map, List.getElem?_mapIdx, Option.map_map]
  rfl

/-- poll changes no descriptor. -/
theorem Kept.poll (h : Kept held s) (r : Round) : Kept held (ServerProgram.poll r s) := by
  obtain ⟨hconsistent, hholds⟩ := h
  have hfds := fds_poll r s
  have hlength : (ServerProgram.poll r s).pollFds.length = s.pollFds.length := by
    rw [← List.length_map PollFd.fd, hfds, List.length_map]
  have hclients : (ServerProgram.poll r s).clientFds = s.clientFds := by
    rw [Server.clientFds, List.map_drop, hfds, ← List.map_drop, Server.clientFds]
  refine ⟨⟨?_, ?_, ?_, ?_, hconsistent.idle⟩, hfds ▸ hholds⟩
  · rw [hlength]
    exact hconsistent.counted
  · rw [hlength]
    exact hconsistent.listening
  · rw [hclients]
    exact hconsistent.leased
  · rw [hclients]
    exact hconsistent.nonneg

theorem Kept.not_mem (h : Kept held s) {fd : Int} (hfree : fd ∉ held) : fd ∉ s.clientFds := by
  intro hmem
  refine hfree (h.2.mem_iff.mpr (Or.inr ?_))
  exact clientFds_subset s hmem

theorem keeps_serveStdin (h : Kept held s) (r : Round) :
    Keeps held (serveStdin r s) fun held' x => Kept held' x.2 := by
  unfold serveStdin
  cases r.stdin with
  | none => exact careful_pure h
  | some line =>
    dsimp only
    split_ifs
    · exact careful_pure h
    · refine Careful.bind (show Keeps held _ Kept from ?_) fun _ _ hkept => careful_pure hkept
      refine keeps_perform (silent_checkStdinData line).fails ?_
      intro s' out hact
      obtain ⟨rfl, -, shown, rfl⟩ := checkStdinData_ok hact
      exact Or.inl ⟨rfl, h⟩

theorem keeps_serveUdp (h : Kept held s) (r : Round) : Keeps held (serveUdp r s) Kept := by
  unfold serveUdp
  cases r.datagram with
  | none => exact careful_pure h
  | some received =>
    have hsilent : Silent (manageUdpMessage r.env s received) := silent_manageUdpMessage received
    refine keeps_perform hsilent.fails ?_
    intro s' out hact
    have hquiet := hsilent.quiet
    rw [hact] at hquiet
    refine Or.inl ⟨filterMap_closes hquiet, ?_⟩
    cases received with
    | none => exact absurd hact manageUdpMessage_none
    | some d =>
      obtain ⟨rfl, -⟩ := manageUdpMessage_ok hact
      exact h

/-- accept gives a descriptor that is not open, or the handler ends the process. -/
theorem keeps_accept (fd : Int) : Keeps held (accept fd) fun held' _ =>
    fd < 0 ∨ (fd ∉ held ∧ held' = insert fd held) := by
  unfold accept
  split_ifs with hfailed
  · exact careful_pure (Or.inl hfailed)
  · exact careful_takes rfl fun hfree => Or.inr ⟨hfree, rfl⟩

/-- A connection is enrolled with its descriptor, or refused and its descriptor closed. -/
theorem keeps_manageConnectionRequest (h : Kept held s) {held' : Finset Int} {addr : SockAddr}
    {fd : Int} {sock : Socket} (haccept : fd < 0 ∨ (fd ∉ held ∧ held' = insert fd held)) :
    Keeps held' (perform (manageConnectionRequest env s addr fd sock)) Kept := by
  refine keeps_perform (failsSilently_manageConnectionRequest addr fd sock) ?_
  intro s' out hact
  obtain ⟨hfd, -, id, -, hanswer⟩ := manageConnectionRequest_eq_ok.mp hact
  obtain ⟨hfree, rfl⟩ := haccept.resolve_left (by omega)
  rcases admitOrDecline_eq_ok.mp hanswer with ⟨-, -, rfl, rfl⟩ | ⟨hidle, -, rfl, rfl⟩
  · right
    refine ⟨fd, rfl, Finset.mem_insert_self fd held, ?_, ?_⟩
    · exact fun hstdio => hfree (h.2.mem_iff.mpr (Or.inl hstdio))
    · rw [Finset.erase_insert hfree]
      exact h
  · refine Or.inl ⟨rfl, h.1.enrol hfd hidle (h.not_mem hfree), ?_⟩
    have hfds : (enrol s id fd).pollFds.map PollFd.fd = s.pollFds.map PollFd.fd ++ [fd] := by
      simp [enrol, Server.addClientPollfd, Server.setClient]
    rw [hfds]
    exact h.2.open hfree

theorem keeps_serveTcp (h : Kept held s) (r : Round) : Keeps held (serveTcp r s) Kept := by
  unfold serveTcp
  cases r.connection with
  | none => exact careful_pure h
  | some connection =>
    obtain ⟨addr, fd, sock⟩ := connection
    exact (keeps_accept fd).bind fun _ _ haccept => keeps_manageConnectionRequest h haccept

/-- An entry of the client part that is served is erased with its descriptor closed, or
stays. -/
theorem keeps_serveClient (h : Kept held s) {k : ℕ} {p : PollFd} {sock : Socket}
    (hentry : s.pollFds[3 + k]? = some p) :
    Keeps held (perform (serveClient env s (3 + k) p.fd sock)) fun held' x =>
      Kept held' x.1 ∧
        x.1.pollFds.length + (if x.2 then 1 else 0) = s.pollFds.length := by
  have hplace : (s.pollFds.map PollFd.fd)[3 + k]? = some p.fd := by
    rw [List.getElem?_map, hentry, Option.map_some]
  have hclient : s.clientFds[k]? = some p.fd := by
    rw [clientFds_getElem?, hentry, Option.map_some]
  obtain ⟨id, c, hfound, -⟩ := h.1.getClientFromFd env (List.mem_of_getElem? hclient)
  refine keeps_perform (failsSilently_serveClient (3 + k) sock (by simp [hfound])) ?_
  intro x out hact
  obtain ⟨s', deleted⟩ := x
  have hstep : handle env s (.readable k p.fd sock) = some (s', out) :=
    PollRounds.handle_of_serveClient (by rw [hentry, Option.map_some])
      (Outcome.toStep_eq_some.mpr hact)
  have hconsistent : Consistent s' :=
    consistent_step (i := (env, .readable k p.fd sock)) h.1 trivial hstep
  rcases serveClient_ok hact with ⟨-, rfl, id, c, line, -, rfl, rfl⟩ | ⟨-, rfl, hanswer⟩
  · right
    have hrest : 3 + k = (2 + k) + 1 := by omega
    obtain ⟨hheld, hown⟩ := h.2.own (hrest ▸ hplace)
    refine ⟨p.fd, rfl, hheld, hown, ⟨hconsistent, ?_⟩, ?_⟩
    · have hfds : (dismiss s id c (3 + k)).pollFds.map PollFd.fd =
          (s.pollFds.map PollFd.fd).eraseIdx (2 + k + 1) := by
        rw [← hrest]
        exact (List.eraseIdx_map ..).symm
      rw [hfds]
      exact h.2.close (hrest ▸ hplace)
    · have hlt := (List.getElem?_eq_some_iff.mp hentry).1
      change (s.pollFds.eraseIdx (3 + k)).length + 1 = s.pollFds.length
      rw [List.length_eraseIdx_of_lt hlt]
      omega
  · obtain ⟨topic, id, c, -, -, -, hpoll, -, rfl⟩ := manageSubscribeUnsubscribe_ok hanswer
    exact Or.inl ⟨rfl, ⟨hconsistent, hpoll ▸ h.2⟩, by simp [hpoll]⟩

theorem within_bind {α β : Type} (x : Loop α) (f : α → Loop β) :
    within (x >>= f) = within x >>= fun a => within (f a) := by
  rcases x with ⟨out, e | a⟩
  · rfl
  · simp [within]

/-- The client loop, from any entry of the client part. -/
theorem keeps_clientLoop (envs : Int → Env) (socks : Int → Socket) {rounds k : ℕ}
    (h : Kept held s) (hle : 3 + k ≤ s.pollFds.length)
    (hrounds : s.pollFds.length < rounds + 3 + k) :
    Keeps held (within (clientLoop envs socks rounds s (3 + k))) Kept := by
  induction rounds generalizing s held k with
  | zero => omega
  | succ rounds ih =>
    unfold clientLoop
    split_ifs with hend
    · exact careful_pure h
    · cases hentry : s.pollFds[3 + k]? with
      | none =>
        rw [List.getElem?_eq_none_iff] at hentry
        omega
      | some p =>
        have hlt := (List.getElem?_eq_some_iff.mp hentry).1
        dsimp only
        split_ifs
        · rw [within_bind]
          refine careful_silent_bind rfl (by simp [within, emit]) fun _ => ?_
          rw [within_bind]
          refine Careful.bind (keeps_serveClient h hentry) ?_
          intro x held₁ hserved
          obtain ⟨s₁, deleted⟩ := x
          obtain ⟨hkept, hlength⟩ := hserved
          cases deleted with
          | true =>
            simp only [if_true] at hlength ⊢
            exact ih hkept (by omega) (by omega)
          | false =>
            simp only [Bool.false_eq_true, if_false, Nat.add_zero] at hlength ⊢
            exact ih (k := k + 1) hkept (by omega) (by omega)
        · exact ih (k := k + 1) h (by omega) (by omega)

theorem keeps_serveClients (h : Kept held s) (envs : Int → Env) (socks : Int → Socket) :
    Keeps held (within (serveClients envs socks (s.pollFds.length + 1) s)) Kept := by
  unfold serveClients
  split_ifs
  · exact careful_pure h
  · exact keeps_clientLoop (k := 0) envs socks h h.1.listening (by omega)

theorem keeps_serveRound (h : Kept held s) (r : Round) :
    Keeps held (serveRound r s) fun held' x => Kept held' x.2 := by
  unfold serveRound
  refine careful_stopIf_bind (by simp [Orderly]) ?_
  refine (keeps_serveStdin (h.poll r) r).bind fun x held₁ hkept => ?_
  obtain ⟨ended, s₁⟩ := x
  cases ended with
  | true => exact careful_pure hkept
  | false =>
    refine (keeps_serveUdp hkept r).bind fun s₂ held₂ hkept₂ => ?_
    refine (keeps_serveTcp hkept₂ r).bind fun s₃ held₃ hkept₃ => ?_
    exact (keeps_serveClients hkept₃ r.envs r.socks).bind fun _ _ hkept₄ => careful_pure hkept₄

theorem keeps_run (h : Kept held s) (rounds : List Round) :
    Keeps held (run rounds s) fun held' x => Kept held' x.2 := by
  induction rounds generalizing held s with
  | nil => exact careful_pure h
  | cons r rounds ih =>
    unfold run
    refine (keeps_serveRound h r).bind fun x held₁ hkept => ?_
    obtain ⟨ended, s₁⟩ := x
    cases ended with
    | true => exact careful_pure hkept
    | false => exact ih hkept

end Rounds

section Main

variable {held : Finset Int} {s : Server}

/-- A socket is open once it is set up. -/
theorem keeps_prepareSocket (made : Int × Bool) :
    Keeps held (prepareSocket made) fun held' fd => fd ∉ held ∧ held' = insert fd held := by
  unfold prepareSocket
  refine careful_stopIf_bind (by simp [Orderly]) ?_
  refine careful_takes_bind rfl fun hfree => ?_
  refine careful_stopIf_bind (by simp [Orderly]) ?_
  exact careful_pure ⟨hfree, rfl⟩

theorem keeps_prepare (outside : Outside) (port : UInt16) :
    Keeps stdio (prepare outside port) Kept := by
  unfold prepare
  refine (keeps_prepareSocket (outside.udpSocket port)).bind fun udpSockfd held₁ hudp => ?_
  obtain ⟨hudp, rfl⟩ := hudp
  refine (keeps_prepareSocket (outside.tcpSocket port)).bind fun tcpSockfd held₂ htcp => ?_
  obtain ⟨htcp, rfl⟩ := htcp
  have hstdin : Holds stdio [0] := ⟨[], rfl, List.nodup_nil, by simp, by simp⟩
  exact careful_pure
    ⟨consistent_prepare udpSockfd tcpSockfd, (hstdin.open hudp).open htcp⟩

theorem keeps_prepareAndRun (outside : Outside) (port : UInt16) (rounds : List Round) :
    Keeps stdio (prepareAndRun outside port rounds) fun held' x => Kept held' x.2 :=
  (keeps_prepare outside port).bind fun _ _ hkept => keeps_run hkept rounds

/-- The loop of the destructor closes the entries it goes over, which are the rest of
the vector. -/
theorem keeps_closeFrom {n i : ℕ} (hlength : s.pollFds.length = i + n)
    (hnodup : ((s.pollFds.map PollFd.fd).drop i).Nodup)
    (hown : ∀ fd ∈ (s.pollFds.map PollFd.fd).drop i, fd ∉ stdio)
    (hheld : ∀ fd, fd ∈ held ↔ fd ∈ stdio ∨ fd ∈ (s.pollFds.map PollFd.fd).drop i) :
    Keeps held (closeFrom s n i) fun held' _ => held' = stdio := by
  induction n generalizing held i with
  | zero =>
    have hnil : (s.pollFds.map PollFd.fd).drop i = [] := by
      rw [List.drop_eq_nil_iff, List.length_map]
      omega
    refine careful_pure (Finset.ext fun fd => ?_)
    rw [hheld, hnil]
    simp
  | succ n ih =>
    have hlt : i < s.pollFds.length := by omega
    have hcons : (s.pollFds.map PollFd.fd).drop i =
        s.pollFds[i].fd :: (s.pollFds.map PollFd.fd).drop (i + 1) := by
      rw [List.drop_eq_getElem_cons (by simpa using hlt), List.getElem_map]
    rw [hcons] at hnodup hown hheld
    obtain ⟨hnew, hnodup⟩ := List.nodup_cons.mp hnodup
    have hfirst : s.pollFds[i].fd ∉ stdio := hown _ List.mem_cons_self
    unfold closeFrom
    simp only [List.getElem?_eq_getElem hlt]
    refine careful_gives_bind rfl ((hheld _).mpr (Or.inr List.mem_cons_self)) hfirst ?_
    refine ih (by omega) hnodup (fun fd hmem => hown fd (List.mem_cons_of_mem _ hmem)) ?_
    intro fd
    rw [Finset.mem_erase, hheld, List.mem_cons]
    have hrest : fd ∈ (s.pollFds.map PollFd.fd).drop (i + 1) → fd ≠ s.pollFds[i].fd := by
      intro hmem heq
      exact hnew (heq ▸ hmem)
    have hstdio : fd ∈ stdio → fd ≠ s.pollFds[i].fd := by
      intro hmem heq
      exact hfirst (heq ▸ hmem)
    tauto

theorem keeps_destroy (h : Kept held s) :
    Keeps held (destroy s) fun held' _ => held' = stdio := by
  obtain ⟨hconsistent, own, hfds, hnodup, hown, hheld⟩ := h
  have hdrop : (s.pollFds.map PollFd.fd).drop 1 = own := by rw [hfds, List.drop_one, List.tail_cons]
  have hcounted := hconsistent.counted
  have hlistening := hconsistent.listening
  exact keeps_closeFrom (by omega) (hdrop ▸ hnodup) (hdrop ▸ hown) (hdrop ▸ hheld)

theorem keeps_serverMain (outside : Outside) (argv : List Bytes) (rounds : List Round) :
    Keeps stdio (serverMain outside argv rounds) fun held' code =>
      code.isSome = true → held' = stdio := by
  unfold serverMain
  split
  · rename_i portText
    cases outside.sscanf portText with
    | none => exact careful_stop (by simp [Orderly])
    | some port =>
      refine (keeps_prepareAndRun outside port rounds).bind fun x held₁ hkept => ?_
      obtain ⟨ended, s⟩ := x
      unfold leave
      dsimp only at hkept ⊢
      split_ifs
      · exact (keeps_destroy hkept).bind fun _ _ hclosed => careful_pure fun _ => hclosed
      · exact careful_pure (by simp)
  · refine careful_silent rfl ?_ ?_
    · exact fun _ _ _ => rfl
    · intro e he
      simp [emit, pure_def] at he

def descriptors {α : Type} (x : Program α) : List (Use Int) :=
  x.effects.filterMap descriptorUse

/-- Whatever comes in and whatever the calls return, if socket and accept give out only
descriptors that are not open, then the server closes only descriptors it has open,
never 0, 1 or 2 and none twice; as long as it is in its loop, those open are 0, 1, 2 and
those of the poll vector, each there once, and the clients among them are the connected
ones; and once main has returned, everything the process opened is closed. On no input
does the process run past the poll vector, use the NULL placeholder, or go around its
client loop forever. -/
theorem closes_what_it_opened (outside : Outside) (argv : List Bytes) (rounds : List Round) :
    (Granted stdio (descriptors (serverMain outside argv rounds)) →
      Returned stdio stdio (descriptors (serverMain outside argv rounds)) ∧
      (∀ code, (serverMain outside argv rounds).result = .ok (some code) →
        after stdio (descriptors (serverMain outside argv rounds)) = stdio) ∧
      ∀ reason, (serverMain outside argv rounds).result = .error reason → Orderly reason) ∧
    ∀ port ended s, Granted stdio (descriptors (prepareAndRun outside port rounds)) →
      (prepareAndRun outside port rounds).result = .ok (ended, s) →
      (∀ fd, fd ∈ after stdio (descriptors (prepareAndRun outside port rounds)) ↔
        fd ∈ stdio ∨ fd ∈ s.pollFds.map PollFd.fd) ∧
      (s.pollFds.map PollFd.fd).Nodup ∧
      ∀ fd, fd ∈ s.clientFds ↔ ∃ id, holder s id = some fd := by
  constructor
  · intro hgranted
    obtain ⟨hreturned, hvalue, hstops⟩ := keeps_serverMain outside argv rounds
    exact ⟨hreturned hgranted, fun code hcode => hvalue hgranted _ hcode rfl, hstops hgranted⟩
  · intro port ended s hgranted hrun
    obtain ⟨-, hvalue, -⟩ := keeps_prepareAndRun outside port rounds
    obtain ⟨hconsistent, hholds⟩ := hvalue hgranted _ hrun
    exact ⟨fun fd => hholds.mem_iff, hholds.nodup, hconsistent.leased.mem_iff⟩

def Round.quiet : Round :=
  ⟨false, none, none, none, fun _ => false, Env.plain, fun _ => Env.plain, fun _ => ⟨[], []⟩⟩

def Round.presentsA (fd : Int) : Round :=
  { Round.quiet with connection := some (⟨(127, 0, 0, 1), 1⟩, fd, ⟨connectA.encode, []⟩) }

def steadyOutside : Outside := ⟨fun _ => some 8080, fun _ => (3, true), fun _ => (4, true)⟩

/-- The id a is enrolled, refused, gone and back when exit is typed. -/
def returning : List Round :=
  [Round.presentsA 5, Round.presentsA 6, { Round.quiet with ready := fun fd => fd = 5 },
    Round.presentsA 5, { Round.quiet with stdin := some (ascii "exit") }]

set_option maxRecDepth 4000 in
theorem closes_what_it_opened_returning :
    (descriptors (serverMain steadyOutside [ascii "server", ascii "8080"] returning)) =
      [.takes 3, .takes 4, .takes 5, .takes 6, .gives 6, .gives 5, .takes 5, .gives 3, .gives 4,
        .gives 5] ∧
    Returned stdio stdio
      (descriptors (serverMain steadyOutside [ascii "server", ascii "8080"] returning)) := by
  have huses : descriptors (serverMain steadyOutside [ascii "server", ascii "8080"] returning) =
      [.takes 3, .takes 4, .takes 5, .takes 6, .gives 6, .gives 5, .takes 5, .gives 3, .gives 4,
        .gives 5] := by rfl
  refine ⟨huses, ?_⟩
  have hgranted : Granted stdio
      (descriptors (serverMain steadyOutside [ascii "server", ascii "8080"] returning)) := by
    rw [huses]
    decide
  exact ((closes_what_it_opened steadyOutside _ returning).1 hgranted).1

end Main

end ServerClientApp.ServerProgram
