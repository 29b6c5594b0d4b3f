import ServerClientApp.ServerProgram

/-!
The rounds of the server process are runs of events. The handlers do not look at the
POLLIN bits, so each one serves its event in the tables without them, and what the whole
process does from prepare on is what the events do, one after another.
-/

namespace ServerClientApp.ProgramRuns

open PartialTransfers Outcomes Outcome Runs Protocols Wildcards Datagrams ServerHandlers
  HandlerSpecs ServerRuns StrayFrames ClientLoop Handles ServerProgram

section Bits

variable {env : Env} {s s' : Server} {out : List Effect}

theorem map_ok {α β : Type} (f : α → β) (out : List Effect) (a : α) :
    f <$> (⟨out, .ok a⟩ : Act α) = ⟨out, .ok (f a)⟩ := Outcome.ext' (List.append_nil out) rfl

def unpolled (s : Server) : Server :=
  { s with pollFds := s.pollFds.map fun p => ⟨p.fd, false⟩ }

theorem unpolled_poll (r : Round) (s : Server) : unpolled (poll r s) = unpolled s := by
  have hpoll : (poll r s).pollFds.map (fun p => (⟨p.fd, false⟩ : PollFd)) =
      s.pollFds.map fun p => ⟨p.fd, false⟩ := by
    apply List.ext_getElem?
    intro it
    rw [poll, List.getElem?_map, List.getElem?_map, List.getElem?_mapIdx, Option.map_map]
    rfl
  unfold unpolled
  rw [hpoll]
  rfl

theorem manageUdpMessage_unpolled (env : Env) (s : Server) (received : Option Datagram) :
    manageUdpMessage env (unpolled s) received = unpolled <$> manageUdpMessage env s received := by
  unfold manageUdpMessage
  cases received with
  | none => rfl
  | some d =>
    dsimp only
    rw [map_bind]
    congr 1
    funext formatted
    obtain ⟨topic, text⟩ := formatted
    cases text with
    | none => rfl
    | some text =>
      dsimp only
      split_ifs
      · simp only [sendMsgIfSubscribed, map_bind, map_pure]
        rfl
      · rfl

theorem enrol_unpolled (s : Server) (id : ClientId) (fd : Int) :
    enrol (unpolled s) id fd = unpolled (enrol s id fd) := by
  simp [enrol, unpolled, Server.addClientPollfd, Server.setClient, Server.topicsOf, Server.client]

theorem manageConnectionRequest_unpolled {addr : SockAddr} {fd : Int} {sock : Socket}
    (h : manageConnectionRequest env s addr fd sock = ⟨out, .ok s'⟩) :
    manageConnectionRequest env (unpolled s) addr fd sock = ⟨out, .ok (unpolled s')⟩ := by
  obtain ⟨hfd, hrc, id, hid, hanswer⟩ := manageConnectionRequest_eq_ok.mp h
  refine manageConnectionRequest_eq_ok.mpr ⟨hfd, hrc, id, hid, admitOrDecline_eq_ok.mpr ?_⟩
  rcases admitOrDecline_eq_ok.mp hanswer with
    ⟨hconnected, hsent, rfl, rfl⟩ | ⟨hidle, hsent, rfl, rfl⟩
  · exact Or.inl ⟨hconnected, hsent, rfl, rfl⟩
  · exact Or.inr ⟨hidle, hsent, (enrol_unpolled s id fd).symm, rfl⟩

theorem manageSubscribeUnsubscribe_unpolled (env : Env) (s : Server) (fd : Int)
    (msg : TcpMessage) :
    manageSubscribeUnsubscribe env (unpolled s) fd msg =
      unpolled <$> manageSubscribeUnsubscribe env s fd msg := by
  unfold manageSubscribeUnsubscribe
  rw [map_bind]
  congr 1
  funext topic
  have hfound : getClientFromFd env (unpolled s) fd = getClientFromFd env s fd := rfl
  rw [hfound]
  cases getClientFromFd env s fd with
  | none => rfl
  | some entry =>
    dsimp only
    split_ifs
    all_goals
      rw [map_bind]
      rfl

theorem serveClient_unpolled (env : Env) (s : Server) (it : ℕ) (fd : Int) (sock : Socket) :
    serveClient env (unpolled s) it fd sock =
      (fun r => (unpolled r.1, r.2)) <$> serveClient env s it fd sock := by
  unfold serveClient
  simp only [map_bind]
  congr 1
  funext _
  split_ifs
  · have hfound : getClientFromFd env (unpolled s) fd = getClientFromFd env s fd := rfl
    rw [hfound]
    cases getClientFromFd env s fd with
    | none => rfl
    | some entry =>
      simp only [map_bind, map_pure]
      simp [unpolled, Server.setClient, List.eraseIdx_map]
  · rw [manageSubscribeUnsubscribe_unpolled]
    simp only [map_bind, bind_map_left, map_pure]

/-- An event is served without the bits as with them. -/
theorem handle_unpolled {event : Event} (h : handle env s event = some (s', out)) :
    handle env (unpolled s) event = some (unpolled s', out) := by
  cases event with
  | line text =>
    obtain ⟨rfl, hline, -⟩ := checkStdinData_ok (Outcome.toStep_eq_some.mp h)
    refine Outcome.toStep_eq_some.mpr ?_
    have hact := Outcome.toStep_eq_some.mp h
    simp only [checkStdinData, if_neg hline, emit_bind, pure_def, Outcome.mk.injEq] at hact ⊢
    exact ⟨hact.1, trivial⟩
  | datagram received =>
    refine Outcome.toStep_eq_some.mpr ?_
    rw [manageUdpMessage_unpolled, Outcome.toStep_eq_some.mp h, map_ok]
  | connection addr fd sock =>
    exact Outcome.toStep_eq_some.mpr
      (manageConnectionRequest_unpolled (Outcome.toStep_eq_some.mp h))
  | readable k fd sock =>
    obtain ⟨hentry, deleted, hserve⟩ := handle_readable h
    have hentry' : ((unpolled s).pollFds[3 + k]?).map PollFd.fd = some fd := by
      rw [unpolled, List.getElem?_map, Option.map_map]
      exact hentry
    have hserve' : serveClient env (unpolled s) (3 + k) fd sock =
        ⟨out, .ok (unpolled s', deleted)⟩ := by
      rw [serveClient_unpolled, hserve, map_ok]
    exact PollRounds.handle_of_serveClient hentry' (Outcome.toStep_eq_some.mpr hserve')

end Bits

section Reaching

variable {held : Finset Int} {s s' s₁ s₂ : Server} {env : Env} {seen later : List Effect}

def acts (out : List Syscall) : List Effect :=
  out.filterMap fun
    | .handling (.effect e) => some e
    | .opened _ | .handling (.received _) => none

/-- Events lead from these tables to those, but for the POLLIN bits, and do this. -/
def Reaches (s : Server) (seen : List Effect) (s' : Server) : Prop :=
  ∃ events, exec step (unpolled s) events = some (unpolled s', seen) ∧
    Along step Fresh (unpolled s) events

theorem acts_append (out more : List Syscall) : acts (out ++ more) = acts out ++ acts more :=
  List.filterMap_append

theorem reaches_refl (s : Server) : Reaches s [] s := ⟨[], rfl, trivial⟩

theorem Reaches.trans (h : Reaches s seen s₁) (hlater : Reaches s₁ later s₂) :
    Reaches s (seen ++ later) s₂ := by
  obtain ⟨events, hrun, hfresh⟩ := h
  obtain ⟨events', hrun', hfresh'⟩ := hlater
  exact ⟨events ++ events', exec_append.mpr ⟨_, _, _, hrun, hrun', rfl⟩,
    hfresh.append hrun hfresh'⟩

theorem Reaches.poll (r : Round) (h : Reaches (ServerProgram.poll r s) seen s') :
    Reaches s seen s' := by
  unfold Reaches at h
  rw [unpolled_poll] at h
  exact h

theorem fresh_unpolled {event : Event} :
    Fresh (unpolled s) (env, event) ↔ Fresh s (env, event) := by
  have hfds : (unpolled s).pollFds.map PollFd.fd = s.pollFds.map PollFd.fd := by
    simp [unpolled, List.map_map, Function.comp_def]
  cases event with
  | line | datagram | readable => exact Iff.rfl
  | connection => simp only [Fresh, hfds]

theorem reaches_handle {event : Event} (hfresh : Fresh s (env, event))
    (h : handle env s event = some (s', seen)) : Reaches s seen s' :=
  ⟨[(env, event)], exec_single (handle_unpolled h), fresh_unpolled.mpr hfresh,
    fun _ _ _ => trivial⟩

/-- The handler's effects are those of the program. -/
theorem traced_perform {α : Type} {act : Act α} {post : Finset Int → List Syscall → α → Prop}
    (h : ∀ a out, act = ⟨out, .ok a⟩ → ∀ held' seen, acts seen = out → post held' seen a) :
    Traced descriptorUse held (perform act) post := by
  rcases act with ⟨out, e | a⟩
  · intro _ a ha
    simp [perform, within, inLoop, Except.mapError] at ha
  · intro _ b hb
    have heq : b = a := by
      simpa [perform, within, inLoop, Except.mapError, eq_comm] using hb
    subst heq
    refine h b out rfl _ _ ?_
    simp [perform, within, inLoop, acts, List.filterMap_map, Function.comp_def]

theorem traced_serveStdin (r : Round) (s : Server) :
    Traced descriptorUse held (serveStdin r s) fun _ out x => Reaches s (acts out) x.2 := by
  unfold serveStdin
  cases r.stdin with
  | none => exact traced_pure (reaches_refl s)
  | some line =>
    dsimp only
    split_ifs
    · exact traced_pure (reaches_refl s)
    · refine Traced.bind
        (show Traced descriptorUse held _ fun _ out s' => Reaches s (acts out) s' from ?_)
        fun s' _ out hreach => traced_pure (by rwa [List.append_nil])
      refine traced_perform fun s' out hact _ seen hseen => ?_
      subst hseen
      have hhandle : handle r.env s (.line line) = some (s', acts seen) :=
        Outcome.toStep_eq_some.mpr hact
      exact reaches_handle (by trivial) hhandle

theorem traced_serveUdp (r : Round) (s : Server) :
    Traced descriptorUse held (serveUdp r s) fun _ out s' => Reaches s (acts out) s' := by
  unfold serveUdp
  cases r.datagram with
  | none => exact traced_pure (reaches_refl s)
  | some received =>
    refine traced_perform fun s' out hact _ seen hseen => ?_
    subst hseen
    have hhandle : handle r.env s (.datagram received) = some (s', acts seen) :=
      Outcome.toStep_eq_some.mpr hact
    exact reaches_handle (by trivial) hhandle

/-- One part of the program after another. -/
theorem reaching_bind {α β : Type} {x : Program α} {f : α → Program β} {mid : α → Server}
    {state : β → Server} {post : Finset Int → α → Prop}
    (hx : Traced descriptorUse held x fun held' out a =>
      post held' a ∧ Reaches s (acts out) (mid a))
    (hf : ∀ a held', post held' a → Traced descriptorUse held' (f a) fun _ out b =>
      Reaches (mid a) (acts out) (state b)) :
    Traced descriptorUse held (x >>= f) fun _ out b => Reaches s (acts out) (state b) := by
  refine hx.bind fun a held' out hgiven => ?_
  obtain ⟨hpost, hreach⟩ := hgiven
  intro hgranted b hb
  rw [acts_append]
  exact hreach.trans (hf a held' hpost hgranted b hb)

/-- A part that does nothing to the tables and nothing to be seen. -/
theorem reaching_silent {α β : Type} {x : Program α} {f : α → Program β} {state : β → Server}
    (hquiet : acts x.effects = [] ∧ x.effects.filterMap descriptorUse = [])
    (hf : ∀ a, Traced descriptorUse held (f a) fun _ out b => Reaches s (acts out) (state b)) :
    Traced descriptorUse held (x >>= f) fun _ out b => Reaches s (acts out) (state b) := by
  have hx : Traced descriptorUse held x fun held' out _ =>
      held' = held ∧ Reaches s (acts out) s := by
    intro _ _ _
    rw [hquiet.1, hquiet.2]
    exact ⟨rfl, reaches_refl s⟩
  refine reaching_bind hx fun a held' heq => ?_
  rw [heq]
  exact hf a

/-- accept gives a fresh descriptor, or the handler ends the process. -/
theorem traced_serveTcp (h : Kept held s) (r : Round) :
    Traced descriptorUse held (serveTcp r s) fun _ out s' => Reaches s (acts out) s' := by
  unfold serveTcp
  cases r.connection with
  | none => exact traced_pure (reaches_refl s)
  | some connection =>
    obtain ⟨addr, fd, sock⟩ := connection
    dsimp only
    have haccept : Traced descriptorUse held (accept fd) fun _ out _ =>
        (fd < 0 ∨ fd ∉ held) ∧ acts out = [] := by
      refine ((keeps_accept fd).mono fun _ _ hgiven => hgiven.imp_right And.left).traced.and ?_
      intro _ _ _
      unfold accept
      split_ifs
      · rfl
      · rfl
    refine haccept.bind fun _ held' out hgiven => ?_
    obtain ⟨hfree, hquiet⟩ := hgiven
    refine traced_perform fun s' out' hact _ seen hseen => ?_
    rw [acts_append, hquiet, List.nil_append, hseen]
    have hfd : 0 ≤ fd := (manageConnectionRequest_eq_ok.mp hact).1
    have hfresh : Fresh s (r.env, .connection addr fd sock) := by
      intro hmem
      exact hfree.resolve_left (by omega) (h.2.mem_iff.mpr (Or.inr hmem))
    exact reaches_handle hfresh (Outcome.toStep_eq_some.mpr hact)

theorem traced_clientLoop (envs : Int → Env) (socks : Int → Socket) (rounds k : ℕ) (s : Server) :
    Traced descriptorUse held (within (clientLoop envs socks rounds s (3 + k)))
      fun _ out s' => Reaches s (acts out) s' := by
  induction rounds generalizing s held k with
  | zero =>
    intro _ s' hresult
    simp [within, clientLoop, stop] at hresult
  | succ rounds ih =>
    unfold clientLoop
    split_ifs
    · exact traced_pure (reaches_refl s)
    · cases hentry : s.pollFds[3 + k]? with
      | none =>
        intro _ s' hresult
        simp [within, stop] at hresult
      | some p =>
        dsimp only
        split_ifs
        · rw [within_bind]
          refine reaching_silent ⟨rfl, rfl⟩ fun _ => ?_
          rw [within_bind]
          refine reaching_bind (show Traced descriptorUse held _ fun _ out (x : Server × Bool) =>
            True ∧ Reaches s (acts out) x.1 from ?_) ?_
          · refine traced_perform fun x out hact _ seen hseen => ⟨trivial, ?_⟩
            subst hseen
            have hplace : (s.pollFds[3 + k]?).map PollFd.fd = some p.fd := by
              rw [hentry, Option.map_some]
            have hhandle : handle (envs p.fd) s (.readable k p.fd (socks p.fd)) =
                some (x.1, acts seen) :=
              PollRounds.handle_of_serveClient hplace (Outcome.toStep_eq_some.mpr hact)
            exact reaches_handle (by trivial) hhandle
          · intro x held₁ _
            obtain ⟨s₁, deleted⟩ := x
            cases deleted with
            | true => exact ih k s₁
            | false => exact ih (k + 1) s₁
        · exact ih (k + 1) s

theorem traced_serveClients (envs : Int → Env) (socks : Int → Socket) (rounds : ℕ) (s : Server) :
    Traced descriptorUse held (within (serveClients envs socks rounds s))
      fun _ out s' => Reaches s (acts out) s' := by
  unfold serveClients
  split_ifs
  · exact traced_pure (reaches_refl s)
  · exact traced_clientLoop envs socks rounds 0 s

theorem traced_serveRound (h : Kept held s) (r : Round) :
    Traced descriptorUse held (serveRound r s) fun _ out x => Reaches s (acts out) x.2 := by
  unfold serveRound
  refine reaching_silent ?_ fun _ => ?_
  · cases r.failed with
    | true => exact ⟨rfl, rfl⟩
    | false => exact ⟨rfl, rfl⟩
  have hstdin : Traced descriptorUse held (serveStdin r (poll r s)) fun _ out x =>
      Reaches s (acts out) x.2 :=
    fun hgranted x hx => (traced_serveStdin r (poll r s) hgranted x hx).poll r
  refine reaching_bind ((keeps_serveStdin (h.poll r) r).traced.and hstdin) ?_
  intro x held₁ hkept₁
  obtain ⟨ended, s₁⟩ := x
  cases ended with
  | true => exact traced_pure (reaches_refl s₁)
  | false =>
    refine reaching_bind ((keeps_serveUdp hkept₁ r).traced.and (traced_serveUdp r s₁)) ?_
    intro s₂ held₂ hkept₂
    refine reaching_bind ((keeps_serveTcp hkept₂ r).traced.and (traced_serveTcp hkept₂ r)) ?_
    intro s₃ held₃ hkept₃
    refine reaching_bind ((keeps_serveClients hkept₃ r.envs r.socks).traced.and
      (traced_serveClients r.envs r.socks _ s₃)) ?_
    intro s₄ held₄ _
    exact traced_pure (reaches_refl s₄)

theorem traced_run (h : Kept held s) (rounds : List Round) :
    Traced descriptorUse held (run rounds s) fun _ out x => Reaches s (acts out) x.2 := by
  induction rounds generalizing held s with
  | nil => exact traced_pure (reaches_refl s)
  | cons r rounds ih =>
    unfold run
    refine reaching_bind ((keeps_serveRound h r).traced.and (traced_serveRound h r)) ?_
    intro x held₁ hkept
    obtain ⟨ended, s₁⟩ := x
    cases ended with
    | true => exact traced_pure (reaches_refl s₁)
    | false => exact ih hkept

end Reaching

section Refinement

variable {held : Finset Int} {outside : Outside} {port : UInt16} {rounds : List Round}
  {s : Server}

theorem traced_prepareSocket (made : Int × Bool) :
    Traced descriptorUse held (prepareSocket made) fun _ out _ => acts out = [] := by
  intro _ fd _
  unfold prepareSocket
  by_cases hmade : made.1 < 0
  · simp [hmade, stopIf, stop, acts]
  · cases hset : made.2 with
    | true => simp [hmade, stopIf, acts, pure_def]
    | false => simp [hmade, stopIf, stop, acts, pure_def]

/-- prepare is not seen, and leaves the tables as new. -/
theorem traced_prepare (outside : Outside) (port : UInt16) :
    Traced descriptorUse stdio (prepare outside port) fun held' out s =>
      Kept held' s ∧ acts out = [] ∧
        ∃ udpSockfd tcpSockfd, s = Server.prepare udpSockfd tcpSockfd := by
  refine (keeps_prepare outside port).traced.and ?_
  refine (traced_prepareSocket _).bind fun udpSockfd held₁ out₁ hquiet₁ => ?_
  refine (traced_prepareSocket _).bind fun tcpSockfd held₂ out₂ hquiet₂ => ?_
  refine traced_pure ⟨?_, udpSockfd, tcpSockfd, rfl⟩
  rw [acts_append, acts_append, hquiet₁, hquiet₂]
  rfl

theorem traced_prepareAndRun (outside : Outside) (port : UInt16) (rounds : List Round) :
    Traced descriptorUse stdio (prepareAndRun outside port rounds) fun _ out x =>
      ∃ udpSockfd tcpSockfd, Reaches (Server.prepare udpSockfd tcpSockfd) (acts out) x.2 := by
  refine (traced_prepare outside port).bind fun s held₁ out₁ hprepared => ?_
  obtain ⟨hkept, hquiet, udpSockfd, tcpSockfd, rfl⟩ := hprepared
  intro hgranted x hx
  refine ⟨udpSockfd, tcpSockfd, ?_⟩
  rw [acts_append, hquiet, List.nil_append]
  exact traced_run hkept rounds hgranted x hx

/-- From prepare on the server process goes through what some events do to the tables,
and does what they do, in their order: whatever holds of all runs of events, with accept
giving out fresh descriptors, holds of the process. -/
theorem program_runs_events
    (hgranted : Granted stdio (descriptors (prepareAndRun outside port rounds))) {ended : Bool}
    (hrun : (prepareAndRun outside port rounds).result = .ok (ended, s)) :
    ∃ udpSockfd tcpSockfd events s',
      exec step (Server.prepare udpSockfd tcpSockfd) events =
        some (s', acts (prepareAndRun outside port rounds).effects) ∧
      Along step Fresh (Server.prepare udpSockfd tcpSockfd) events ∧
      Reachable s' ∧ s'.clients = s.clients ∧ s'.numPollfds = s.numPollfds ∧
      s'.pollFds.map PollFd.fd = s.pollFds.map PollFd.fd := by
  obtain ⟨udpSockfd, tcpSockfd, events, hexec, hfresh⟩ :=
    traced_prepareAndRun outside port rounds hgranted _ hrun
  have hstart : unpolled (Server.prepare udpSockfd tcpSockfd) =
      Server.prepare udpSockfd tcpSockfd := rfl
  rw [hstart] at hexec hfresh
  refine ⟨udpSockfd, tcpSockfd, events, unpolled s, hexec, hfresh,
    ⟨udpSockfd, tcpSockfd, events, _, hexec, hfresh⟩, rfl, rfl, ?_⟩
  rw [unpolled, List.map_map]
  rfl

set_option maxRecDepth 4000 in
theorem program_runs_events_returning : ∃ udpSockfd tcpSockfd events s',
    exec step (Server.prepare udpSockfd tcpSockfd) events =
      some (s', acts (prepareAndRun steadyOutside 8080 returning).effects) := by
  have hended : ∃ s, (prepareAndRun steadyOutside 8080 returning).result = .ok (true, s) :=
    ⟨_, rfl⟩
  obtain ⟨s, hrun⟩ := hended
  have huses : descriptors (prepareAndRun steadyOutside 8080 returning) =
      [.takes 3, .takes 4, .takes 5, .takes 6, .gives 6, .gives 5, .takes 5] := by rfl
  have hgranted : Granted stdio (descriptors (prepareAndRun steadyOutside 8080 returning)) := by
    rw [huses]
    decide
  obtain ⟨udpSockfd, tcpSockfd, events, s', hexec, -⟩ := program_runs_events hgranted hrun
  exact ⟨udpSockfd, tcpSockfd, events, s', hexec⟩

end Refinement

end ServerClientApp.ProgramRuns
