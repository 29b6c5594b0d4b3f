import ServerClientApp.Updates

/-!
One process of a fleet, seen alone. What it reads is what the server wrote on its
connection, and what it does with that does not depend on how its turns are mixed
with those of the server and of the other processes: it is what main does on that
stream of bytes.
-/

namespace ServerClientApp.Projections

open PartialTransfers Outcomes Runs Protocols Wildcards Datagrams ServerHandlers HandlerSpecs
  ServerRuns SubscriberHandlers SubscriberSpecs SubscriberProgram Fleets
open Sessions (Phase Session Log typeTurn readTurn awaitTurn turned_types turned_reads
  turned_awaits tcpSockfd written written_encode incoming_eq_some)

section Model

def roundOf (p : ℕ) : Fleets.Turn → Option Round
  | .types p' env line => if p' = p then some ⟨env, some line, false⟩ else none
  | .reads p' _ => if p' = p then some ⟨Env.plain, none, true⟩ else none
  | .starts .. | .confirms .. | .awaits .. | .ends _ | .accepts .. | .serves .. | .others ..
  | .stops => none

/-- What is left of the program at a stage: the rest of check_connection_validity or of
subscribe_unsubscribe_topic, and the rounds of the loop. -/
def resume (rounds : List Round) (sock : Socket) : Stage → Act (Bool × Socket)
  | .connecting => do
    let (valid, sock) ← awaitConfirmation sock
    if valid then run tcpSockfd rounds sock else return (true, sock)
  | .past .idle => run tcpSockfd rounds sock
  | .past (.waiting command topic) => do
    let sock ← awaitAnswer command topic sock
    run tcpSockfd rounds sock
  | .past .stopped => return (true, sock)

def outputs (f : Fleet) (t : Fleets.Turn) : List Effect :=
  match turn f t with
  | some (_, events) => events.flatMap fun i => ((step f.server i).map Prod.snd).getD []
  | none => []

def linkFd : Link → Option Int
  | .held fd => some fd
  | .queued | .severed => none

/-- The descriptor of a process at the server, from the turn on in which it is accepted. -/
def descriptor (p : ℕ) (f : Fleet) : Fleets.Turn → Option Int
  | .accepts p' _ _ fd _ => if p' = p then some fd else (f.peers p).bind fun q => linkFd q.link
  | .starts .. | .confirms .. | .types .. | .reads .. | .awaits .. | .ends _ | .serves ..
  | .others .. | .stops => (f.peers p).bind fun q => linkFd q.link

def brings (p : ℕ) (f : Fleet) (t : Fleets.Turn) : Bytes :=
  match descriptor p f t with
  | some fd => sent fd (outputs f t)
  | none => []

def takes (p : ℕ) (f : Fleet) : Fleets.Turn → Bytes
  | .accepts p' .. | .serves p' .. =>
    if p' = p then (((f.peers p).bind fun q => q.up.head?).map Frame.encode).getD [] else []
  | .starts .. | .confirms .. | .types .. | .reads .. | .awaits .. | .ends _ | .others ..
  | .stops => []

def wire (frames : List Frame) : Bytes := frames.flatMap Frame.encode

@[simp] theorem wire_nil : wire [] = [] := rfl

@[simp] theorem wire_append (frames more : List Frame) :
    wire (frames ++ more) = wire frames ++ wire more := List.flatMap_append

theorem wire_cons (f : Frame) (frames : List Frame) :
    wire (f :: frames) = f.encode ++ wire frames := rfl

end Model

section Streams

variable {s s' : Session} {bytes more : Bytes} {down : List Frame} {calls calls₀ : List Call}
  {log : List Log}

/-- A message read from a stream that has ended. -/
theorem recv_ended (hcalls : Steady calls) : ∃ later, Steady later ∧
    recvEfficient ⟨[], calls⟩ TcpMessage.zero = ⟨0, TcpMessage.zero, ⟨[], later⟩⟩ := by
  match calls with
  | [] => exact ⟨_, hcalls, rfl⟩
  | .failed :: calls => simp [Steady] at hcalls
  | .moved count :: calls => exact ⟨_, hcalls, rfl⟩

/-- A message read from the stream as far as it goes is the one read from the stream
with everything that comes behind. -/
theorem recv_next (h : s.incoming = some (bytes, down))
    (hrc : 0 ≤ (recvEfficient ⟨bytes, calls₀⟩ TcpMessage.zero).rc)
    (hmore : s.closed = true → more = []) (hcalls : Steady calls) :
    ∃ later, Steady later ∧ recvEfficient ⟨wire s.down ++ more, calls⟩ TcpMessage.zero =
      ⟨(recvEfficient ⟨bytes, calls₀⟩ TcpMessage.zero).rc,
        (recvEfficient ⟨bytes, calls₀⟩ TcpMessage.zero).msg, ⟨wire down ++ more, later⟩⟩ := by
  rcases incoming_eq_some h with ⟨f, hdown, rfl⟩ | ⟨hdown, hclosed, rfl, rfl⟩
  · have hwhole := recvEfficient_whole f [] calls₀
    rw [List.append_nil] at hwhole
    obtain ⟨later₀, hread₀⟩ := hwhole.resolve_left (by omega)
    obtain ⟨later, hsteady, hread⟩ := recvEfficient_frame f (wire down ++ more) calls hcalls
    refine ⟨later, hsteady, ?_⟩
    rw [hdown, wire_cons, List.append_assoc, hread, hread₀]
  · obtain ⟨later, hsteady, hread⟩ := recv_ended hcalls
    obtain ⟨hle, hzero⟩ := recvEfficient_ended calls₀
    refine ⟨later, hsteady, ?_⟩
    rw [hdown, hmore hclosed, wire_nil, List.append_nil, hread, hzero, Int.le_antisymm hle hrc]

end Streams

section Stages

variable {s s' : Session} {log : List Log} {env : Env} {line more : Bytes}
  {calls calls₀ : List Call} {sock sock' later : Socket} {out : List Effect} {ended valid : Bool}

/-- A function of the subscriber that reads one message does the same with the same
message from another stream. -/
def SameRead (sock₀ sock later : Socket) : Prop :=
  recvEfficient sock TcpMessage.zero =
    ⟨(recvEfficient sock₀ TcpMessage.zero).rc, (recvEfficient sock₀ TcpMessage.zero).msg, later⟩

theorem manageTcpData_same {sock₀ : Socket} (hsame : SameRead sock₀ sock later)
    (h : manageTcpData sock₀ = ⟨out, .ok (ended, sock')⟩) :
    manageTcpData sock = ⟨out, .ok (ended, later)⟩ := by
  unfold manageTcpData at h ⊢
  rw [hsame]
  obtain ⟨⟨⟩, _, _, hdie, h₁, rfl⟩ := Outcome.bind_eq_ok.mp h
  refine Outcome.bind_eq_ok.mpr ⟨(), _, _, hdie, ?_, rfl⟩
  split_ifs at h₁ ⊢
  · obtain ⟨rfl, heq⟩ := Outcome.pure_eq_ok.mp h₁
    rw [(Prod.mk.inj heq).1]
    rfl
  · simp_all [Outcome.pure_def]
  · obtain ⟨text, _, _, hstring, h₂, rfl⟩ := Outcome.bind_eq_ok.mp h₁
    refine Outcome.bind_eq_ok.mpr ⟨text, _, _, hstring, ?_, rfl⟩
    simp_all [Outcome.pure_def]

theorem awaitAnswer_same {sock₀ : Socket} {command : UInt8} {topic : Topic}
    (hsame : SameRead sock₀ sock later) (h : awaitAnswer command topic sock₀ = ⟨out, .ok sock'⟩) :
    awaitAnswer command topic sock = ⟨out, .ok later⟩ := by
  obtain ⟨hrc, rfl⟩ := awaitAnswer_ok h
  unfold awaitAnswer
  rw [hsame]
  exact Outcome.bind_eq_ok.mpr ⟨(), [], _, die_eq_ok.mpr ⟨by simpa using hrc, rfl⟩, rfl, rfl⟩

theorem awaitConfirmation_same {sock₀ : Socket} (hsame : SameRead sock₀ sock later)
    (h : awaitConfirmation sock₀ = ⟨out, .ok (valid, sock')⟩) :
    awaitConfirmation sock = ⟨out, .ok (valid, later)⟩ := by
  unfold awaitConfirmation at h ⊢
  rw [hsame]
  obtain ⟨⟨⟩, _, _, hdie, h₁, rfl⟩ := Outcome.bind_eq_ok.mp h
  refine Outcome.bind_eq_ok.mpr ⟨(), _, _, hdie, ?_, rfl⟩
  split_ifs at h₁ ⊢
  · simp_all [Outcome.pure_def]
  · simp_all [Outcome.pure_def]

theorem sent_nothing {α : Type} {fd : Int} {x : Act α} {a : α} (h : Writes fd [] x)
    (hx : x = ⟨out, .ok a⟩) : sent fd out = [] := by
  subst hx
  exact h.whole a rfl

theorem run_types (env : Env) (line : Bytes) (rounds : List Round) (sock : Socket) :
    run tcpSockfd (⟨env, some line, false⟩ :: rounds) sock =
      (manageLine env tcpSockfd line sock >>= fun r =>
        if r.1 then return (true, r.2) else run tcpSockfd rounds r.2) := by
  simp only [run, serveRound, serveStdin, bind_assoc]
  congr 1
  funext ⟨ended, later⟩
  cases ended with
  | false => rfl
  | true => rfl

theorem run_reads (rounds : List Round) (sock : Socket) :
    run tcpSockfd (⟨Env.plain, none, true⟩ :: rounds) sock =
      (manageTcpData sock >>= fun r =>
        if r.1 then return (true, r.2) else run tcpSockfd rounds r.2) := rfl

def after {α : Type} (out : List Effect) (x : Act α) : Act α := ⟨out ++ x.effects, x.result⟩

/-- A typed line takes the program to the stage of the session behind it. -/
theorem resume_types (h : typeTurn s env line = some (s', log)) :
    s'.down = s.down ∧ ∃ out, wire s.up ++ sent tcpSockfd out = wire s'.up ∧
      ∀ rounds sock, resume (⟨env, some line, false⟩ :: rounds) sock (.past s.phase) =
        after out (resume rounds sock (.past s'.phase)) := by
  unfold typeTurn at h
  cases hphase : s.phase with
  | waiting | stopped => simp [hphase] at h
  | idle =>
    simp only [hphase] at h
    simp only [resume, run_types, manageLine]
    cases hline : manageStdinData line with
    | exit =>
      simp only [hline, Option.some.injEq, Prod.mk.injEq] at h
      obtain ⟨rfl, -⟩ := h
      exact ⟨rfl, [], List.append_nil _, fun rounds sock => rfl⟩
    | usage | invalidTopic =>
      simp only [hline, Option.some.injEq, Prod.mk.injEq] at h
      obtain ⟨rfl, -⟩ := h
      refine ⟨rfl, [.printed ((manageStdinData line).notice.getD [])], List.append_nil _,
        fun rounds sock => ?_⟩
      rw [hphase, hline]
      rfl
    | request command topic =>
      simp only [hline, Option.bind_eq_bind, Option.bind_eq_some_iff, Prod.exists,
        Option.some.injEq, Prod.mk.injEq] at h
      obtain ⟨⟨⟩, out, hsend, rfl, -⟩ := h
      rw [Outcome.toStep_eq_some] at hsend
      obtain ⟨-, -, hlength, -⟩ := manageStdinData_request hline
      have hfits : topic.length + 1 < 2 ^ 16 := by omega
      obtain ⟨-, rfl⟩ := (sendRequest_eq_ok hfits).mp hsend
      refine ⟨rfl, [.wrote tcpSockfd (Frame.ofText command topic hfits).encode], ?_,
        fun rounds sock => ?_⟩
      · rw [sent_wrote, written_encode, wire_append, wire_cons, wire_nil, List.append_nil]
      · simp only [hsend, bind_assoc]
        rfl

/-- So does a message the loop reads, whatever comes behind it. -/
theorem resume_reads (h : readTurn s calls₀ = some (s', log)) (hcalls : Steady calls)
    (hmore : s.closed = true → more = []) :
    ∃ out later, sent tcpSockfd out = [] ∧ Steady later ∧ ∀ rounds,
      resume (⟨Env.plain, none, true⟩ :: rounds) ⟨wire s.down ++ more, calls⟩ (.past s.phase) =
        after out (resume rounds ⟨wire s'.down ++ more, later⟩ (.past s'.phase)) := by
  unfold readTurn at h
  cases hphase : s.phase with
  | waiting | stopped => simp [hphase] at h
  | idle =>
    simp only [hphase, Option.bind_eq_bind, Option.bind_eq_some_iff, Prod.exists,
      Option.some.injEq, Prod.mk.injEq] at h
    obtain ⟨bytes, down, hincoming, ended, sock, out, hread, rfl, -⟩ := h
    rw [Outcome.toStep_eq_some] at hread
    have hrc : 0 ≤ (recvEfficient ⟨bytes, calls₀⟩ TcpMessage.zero).rc := by
      rcases manageTcpData_ok hread with ⟨hzero, -⟩ | ⟨hpos, -⟩
      · omega
      · omega
    obtain ⟨later, hsteady, hnext⟩ := recv_next hincoming hrc hmore hcalls
    refine ⟨out, later, sent_nothing (writes_manageTcpData _) hread, hsteady, fun rounds => ?_⟩
    simp only [resume, run_reads, manageTcpData_same hnext hread]
    cases ended with
    | false => rfl
    | true => rfl

theorem resume_awaits (h : awaitTurn s calls₀ = some (s', log)) (hcalls : Steady calls)
    (hmore : s.closed = true → more = []) :
    ∃ out later, sent tcpSockfd out = [] ∧ Steady later ∧ ∀ rounds,
      resume rounds ⟨wire s.down ++ more, calls⟩ (.past s.phase) =
        after out (resume rounds ⟨wire s'.down ++ more, later⟩ (.past s'.phase)) := by
  unfold awaitTurn at h
  cases hphase : s.phase with
  | idle | stopped => simp [hphase] at h
  | waiting command topic =>
    simp only [hphase, Option.bind_eq_bind, Option.bind_eq_some_iff, Prod.exists,
      Option.some.injEq, Prod.mk.injEq] at h
    obtain ⟨bytes, down, hincoming, sock, out, hread, rfl, -⟩ := h
    rw [Outcome.toStep_eq_some] at hread
    obtain ⟨hrc, -⟩ := awaitAnswer_ok hread
    obtain ⟨later, hsteady, hnext⟩ := recv_next hincoming hrc hmore hcalls
    refine ⟨out, later, sent_nothing (writes_awaitAnswer _ _ _) hread, hsteady, fun rounds => ?_⟩
    simp only [resume, awaitAnswer_same hnext hread]
    rfl

theorem resume_confirms {s : Session} {bytes : Bytes} {down : List Frame}
    (hincoming : s.incoming = some (bytes, down))
    (hread : awaitConfirmation ⟨bytes, calls₀⟩ = ⟨out, .ok (valid, sock)⟩) (hcalls : Steady calls)
    (hmore : s.closed = true → more = []) :
    ∃ later, sent tcpSockfd out = [] ∧ Steady later ∧ ∀ rounds,
      resume rounds ⟨wire s.down ++ more, calls⟩ .connecting =
        after out (resume rounds ⟨wire down ++ more, later⟩
          (.past (if valid then .idle else .stopped))) := by
  obtain ⟨hrc, -⟩ := awaitConfirmation_ok hread
  obtain ⟨later, hsteady, hnext⟩ := recv_next hincoming hrc hmore hcalls
  refine ⟨later, sent_nothing (writes_awaitConfirmation _) hread, hsteady, fun rounds => ?_⟩
  simp only [resume, awaitConfirmation_same hnext hread]
  cases valid with
  | false => rfl
  | true => rfl

end Stages

section Turns

variable {f f' : Fleet} {p : ℕ} {q q' : Peer} {t : Fleets.Turn} {events : List (Env × Event)}
  {env : Env} {event : Event} {s s' : Server} {out : List Effect}

def Framed (out : List Effect) : Prop :=
  ∀ fd bytes, .wrote fd bytes ∈ out → ∃ f : Frame, bytes = f.encode

theorem wire_written (h : Framed out) (fd : Int) : wire (written fd out) = sent fd out := by
  induction out with
  | nil => rfl
  | cons effect out ih =>
    have hrest := ih fun fd' bytes hmem => h fd' bytes (List.mem_cons_of_mem _ hmem)
    rw [← List.singleton_append, sent_append, ← hrest]
    cases effect with
    | wrote fd' bytes =>
      obtain ⟨frame, rfl⟩ := h fd' bytes List.mem_cons_self
      by_cases hfd : fd' = fd
      · subst hfd
        have hfirst : written fd' ([.wrote fd' frame.encode] ++ out) =
            frame :: written fd' out := by
          simp only [written, List.singleton_append, List.filterMap_cons, if_true,
            Frame.decode_encode]
        rw [hfirst, sent_wrote, wire_cons]
      · have hnone : sent fd [.wrote fd' frame.encode] = [] := by
          rw [sent, Connections.wires_other hfd]
          rfl
        rw [List.singleton_append, Sessions.written_other hfd, hnone, List.nil_append]
    | closed | printed | complained => rfl

theorem framed_step (h : Consistent s) (hstep : handle env s event = some (s', out)) :
    Framed out := by
  intro fd bytes hmem
  cases served h hstep with
  | line | left => simp at hmem
  | datagram hact =>
    obtain ⟨-, ⟨topic, line, -, rfl⟩ | ⟨topic, text, hformat, -, hsend⟩⟩ := manageUdpMessage_ok hact
    · simp at hmem
    · obtain ⟨-, -, hlength⟩ := formattedMsg_text hformat
      obtain ⟨-, rfl, -⟩ := (sendMsgIfSubscribed_eq_ok hlength).mp hsend
      obtain ⟨entry, -, heq⟩ := List.mem_map.mp hmem
      exact ⟨publicationFrame text hlength, (Effect.wrote.inj heq).2.symm⟩
  | refused =>
    simp only [refusal, List.mem_cons, Effect.wrote.injEq, reduceCtorEq, List.not_mem_nil,
      or_false] at hmem
    exact ⟨_, hmem.2⟩
  | admitted =>
    simp only [admission, List.mem_cons, Effect.wrote.injEq, reduceCtorEq, List.not_mem_nil,
      or_false] at hmem
    exact ⟨_, hmem.2⟩
  | answered =>
    simp only [List.mem_cons, Effect.wrote.injEq, List.not_mem_nil, or_false] at hmem
    exact ⟨_, hmem.2⟩

/-- What a process hears comes behind what it has to read. -/
theorem wire_hear (h : Framed out) (q : Peer) :
    wire (q.hear out).down = wire q.down ++ ((linkFd q.link).map fun fd => sent fd out).getD [] ∧
      (q.hear out).up = q.up ∧ (q.hear out).stage = q.stage := by
  cases hlink : q.link with
  | held fd =>
    rw [hear_held hlink]
    refine ⟨?_, rfl, rfl⟩
    rw [wire_append, wire_written h]
    rfl
  | queued | severed =>
    rw [hear_silent (by simp [hlink])]
    exact ⟨(List.append_nil _).symm, rfl, rfl⟩

def Hushed (p : ℕ) (f : Fleet) : Prop :=
  f.running = false ∨ ∃ q, f.peers p = some q ∧ q.link = .severed

/-- A server that has ended serves nothing. -/
theorem turn_running (h : turn f t = some (f', events)) : events = [] ∨ f.running = true := by
  cases taken_turn h with
  | starts | confirms | types | reads | awaits | ends | stops => exact Or.inl rfl
  | accepts _ _ _ hrunning | answers _ _ _ hrunning | others _ hrunning =>
    exact Or.inr hrunning
  | notices _ _ _ _ hrunning => exact Or.inr hrunning

theorem outputs_eq (h : turn f t = some (f', events)) :
    outputs f t = events.flatMap fun i => ((step f.server i).map Prod.snd).getD [] := by
  unfold outputs
  rw [h]

theorem outputs_served {server : Server} (h : turn f t = some (f', [(env, event)]))
    (hstep : handle env f.server event = some (server, out)) : outputs f t = out := by
  rw [outputs_eq h, List.flatMap_singleton, step, hstep]
  rfl

theorem brings_silent (h : turn f t = some (f', [])) : brings p f t = [] := by
  unfold brings
  rw [outputs_eq h]
  cases descriptor p f t with
  | none => rfl
  | some fd => rfl

theorem brings_served {server : Server} {link : Link} (h : turn f t = some (f', [(env, event)]))
    (hstep : handle env f.server event = some (server, out))
    (hlink : descriptor p f t = linkFd link) :
    brings p f t = ((linkFd link).map fun fd => sent fd out).getD [] := by
  unfold brings
  rw [outputs_served h hstep, hlink]
  cases link with
  | held fd => rfl
  | queued | severed => rfl

/-- A turn in which the process does nothing itself. -/
structure Passive (p : ℕ) (f : Fleet) (t : Fleets.Turn) (q q' : Peer) : Prop where
  stage : q'.stage = q.stage
  round : roundOf p t = none
  down : wire q'.down = wire q.down ++ brings p f t
  up : wire q.up = takes p f t ++ wire q'.up

theorem passive_served {server : Server} {q₀ : Peer} (hc : Consistent f.server)
    (h : turn f t = some (f', [(env, event)])) (hround : roundOf p t = none)
    (hstep : handle env f.server event = some (server, out)) (hstage : q₀.stage = q.stage)
    (hdown : q₀.down = q.down) (hup : wire q.up = takes p f t ++ wire q₀.up)
    (hlink : descriptor p f t = linkFd q₀.link) : Passive p f t q (q₀.hear out) := by
  obtain ⟨hwire, hup', hstage'⟩ := wire_hear (framed_step hc hstep) q₀
  refine ⟨hstage'.trans hstage, hround, ?_, by rw [hup, hup']⟩
  rw [hwire, hdown, brings_served h hstep hlink]

theorem passive_quiet (h : turn f t = some (f', [])) (hround : roundOf p t = none)
    (htakes : takes p f t = []) : Passive p f t q q where
  stage := rfl
  round := hround
  down := by rw [brings_silent h, List.append_nil]
  up := by rw [htakes, List.nil_append]

/-- A turn of the server. -/
theorem passive_turn (hc : Consistent f.server) (hq : f.peers p = some q)
    (h : turn f t = some (f', events)) (hevents : events ≠ []) :
    ∃ q', f'.peers p = some q' ∧ Passive p f t q q' := by
  cases taken_turn h with
  | starts | confirms | types | reads | awaits | ends | stops => exact absurd rfl hevents
  | others _ _ hstep =>
    refine ⟨_, by rw [peers_serve, hq]; rfl, ?_⟩
    exact passive_served hc h rfl hstep rfl rfl rfl (by simp [descriptor, hq])
  | @accepts p' q₁ frame up env addr fd calls server out hq₁ _ hup _ hstep =>
    by_cases hp : p' = p
    · subst hp
      rw [hq, Option.some.injEq] at hq₁
      subst hq₁
      refine ⟨_, by rw [peers_serve, setPeer_self]; rfl, ?_⟩
      refine passive_served hc h rfl hstep rfl rfl ?_ (by simp [descriptor, linkFd])
      simp [takes, hq, hup, wire_cons]
    · refine ⟨q.hear out, by rw [peers_serve, setPeer_other (Ne.symm hp), hq]; rfl, ?_⟩
      exact passive_served hc h rfl hstep rfl rfl (by simp [takes, hp])
        (by simp [descriptor, hp, hq])
  | @answers p' q₁ frame up env k fd calls server out hq₁ _ hup _ hstep =>
    by_cases hp : p' = p
    · subst hp
      rw [hq, Option.some.injEq] at hq₁
      subst hq₁
      refine ⟨_, by rw [peers_serve, setPeer_self]; rfl, ?_⟩
      refine passive_served hc h rfl hstep rfl rfl ?_ (by simp [descriptor, hq])
      simp [takes, hq, hup, wire_cons]
    · refine ⟨q.hear out, by rw [peers_serve, setPeer_other (Ne.symm hp), hq]; rfl, ?_⟩
      exact passive_served hc h rfl hstep rfl rfl (by simp [takes, hp]) (by simp [descriptor, hq])
  | @notices p' q₁ env k fd calls server out hq₁ _ hup _ _ hstep =>
    refine ⟨q.hear out, by rw [peers_serve, hq]; rfl, ?_⟩
    refine passive_served hc h rfl hstep rfl rfl ?_ (by simp [descriptor, hq])
    by_cases hp : p' = p
    · subst hp
      rw [hq, Option.some.injEq] at hq₁
      subst hq₁
      simp [takes, hq, hup]
    · simp [takes, hp]

/-- The turn takes the program from the stage of a process to the next one, whatever
comes behind what the process has to read. -/
def Advances (p : ℕ) (f : Fleet) (t : Fleets.Turn) (q q' : Peer) (more : Bytes) : Prop :=
  ∀ calls, Steady calls → ∃ out later, Steady later ∧
    wire q.up ++ sent tcpSockfd out = takes p f t ++ wire q'.up ∧
    ∀ rounds, resume ((roundOf p t).toList ++ rounds)
        ⟨wire q.down ++ (brings p f t ++ more), calls⟩ q.stage =
      after out (resume rounds ⟨wire q'.down ++ more, later⟩ q'.stage)

theorem Passive.advances (h : Passive p f t q q') (more : Bytes) : Advances p f t q q' more := by
  intro calls hcalls
  refine ⟨[], calls, hcalls, ?_, fun rounds => ?_⟩
  · rw [sent_nil, List.append_nil, h.up]
  · rw [h.round, ← List.append_assoc, ← h.down, ← h.stage]
    rfl

/-- A turn of the process itself, which takes what is next in its stream. -/
theorem advances_own {more : Bytes} (hquiet : brings p f t = []) (htakes : takes p f t = [])
    (h : ∀ calls, Steady calls → ∃ out later, Steady later ∧
      wire q.up ++ sent tcpSockfd out = wire q'.up ∧
      ∀ rounds, resume ((roundOf p t).toList ++ rounds) ⟨wire q.down ++ more, calls⟩ q.stage =
        after out (resume rounds ⟨wire q'.down ++ more, later⟩ q'.stage)) :
    Advances p f t q q' more := by
  intro calls hcalls
  obtain ⟨out, later, hsteady, hup, hresume⟩ := h calls hcalls
  refine ⟨out, later, hsteady, by rw [htakes, hup]; rfl, ?_⟩
  rwa [hquiet]

theorem hushed_of_closed {phase : Phase} (hq : f.peers p = some q)
    (h : (f.session q phase).closed = true) : Hushed p f := by
  simp only [Fleet.session, Bool.or_eq_true, decide_eq_true_eq, Bool.not_eq_true'] at h
  rcases h with hsevered | hended
  · exact Or.inr ⟨q, hq, hsevered⟩
  · exact Or.inl hended

theorem advances_session {more : Bytes} (act : Session → Option (Session × List Log))
    {p' : ℕ} {q₁ : Peer} {phase : Phase} {s' : Session} {log : List Log}
    (hq : f.peers p = some q) (h : turn f t = some (f.setPeer p' (q₁.resume s'), []))
    (hq₁ : f.peers p' = some q₁) (hstage : q₁.stage = .past phase)
    (hs' : act (f.session q₁ phase) = some (s', log)) (htakes : takes p f t = [])
    (hround : p' ≠ p → roundOf p t = none) (hmore : Hushed p f → more = [])
    (hact : p' = p → ∀ s s' log, act s = some (s', log) → (s.closed = true → more = []) →
      ∀ calls, Steady calls → ∃ out later, Steady later ∧
        wire s.up ++ sent tcpSockfd out = wire s'.up ∧
        ∀ rounds, resume ((roundOf p t).toList ++ rounds) ⟨wire s.down ++ more, calls⟩
            (.past s.phase) =
          after out (resume rounds ⟨wire s'.down ++ more, later⟩ (.past s'.phase))) :
    ∃ q', (f.setPeer p' (q₁.resume s')).peers p = some q' ∧ Advances p f t q q' more := by
  by_cases hp : p' = p
  case neg =>
    refine ⟨q, by rw [setPeer_other (Ne.symm hp), hq], ?_⟩
    exact (passive_quiet h (hround hp) htakes).advances more
  subst hp
  rw [hq, Option.some.injEq] at hq₁
  subst hq₁
  refine ⟨_, setPeer_self f p' _, advances_own (brings_silent h) htakes fun calls hcalls => ?_⟩
  rw [hstage]
  exact hact rfl _ _ _ hs' (fun hclosed => hmore (hushed_of_closed hq hclosed)) calls hcalls

theorem advances_confirms {more : Bytes} {calls₀ : List Call} (hq : f.peers p = some q)
    (hquiet : brings p f (.confirms p calls₀) = []) (hmore : Hushed p f → more = [])
    (h : confirmTurn f p calls₀ = some f') :
    ∃ q', f'.peers p = some q' ∧ Advances p f (.confirms p calls₀) q q' more := by
  unfold confirmTurn at h
  rw [hq] at h
  simp only [Option.bind_eq_bind, Option.bind_some] at h
  split_ifs at h with hstage
  simp only [Option.bind_eq_some_iff, Prod.exists, Option.some.injEq] at h
  obtain ⟨bytes, down, hincoming, valid, sock, out, hconfirm, rfl⟩ := h
  refine ⟨_, setPeer_self f p _, advances_own hquiet rfl fun calls hcalls => ?_⟩
  obtain ⟨later, hwrites, hsteady, hresume⟩ := resume_confirms hincoming
    (Outcome.toStep_eq_some.mp hconfirm) hcalls fun hclosed => hmore (hushed_of_closed hq hclosed)
  refine ⟨out, later, hsteady, by rw [hwrites, List.append_nil], fun rounds => ?_⟩
  rw [hstage]
  exact hresume rounds

/-- Every turn takes the program of a process along, but for its end by force. -/
theorem advances_turn {more : Bytes} (hc : Consistent f.server) (hq : f.peers p = some q)
    (h : turn f t = some (f', events)) (hends : t ≠ .ends p) (hmore : Hushed p f → more = []) :
    ∃ q', f'.peers p = some q' ∧ Advances p f t q q' more := by
  by_cases hevents : events = []
  case neg =>
    obtain ⟨q', hq', hpassive⟩ := passive_turn hc hq h hevents
    exact ⟨q', hq', hpassive.advances more⟩
  -- A turn of another process leaves this one where it is.
  have hother {p' : ℕ} {q' : Peer} (hp : p' ≠ p) (hturn : turn f t = some (f.setPeer p' q', []))
      (hround : roundOf p t = none) (htakes : takes p f t = []) :
      ∃ q₁, (f.setPeer p' q').peers p = some q₁ ∧ Advances p f t q q₁ more :=
    ⟨q, by rw [setPeer_other (Ne.symm hp), hq], (passive_quiet hturn hround htakes).advances more⟩
  cases taken_turn h with
  | accepts | answers | notices | others => simp at hevents
  | starts _ _ _ hnone => exact hother (fun hp => by simp [← hp, hnone] at hq) h rfl rfl
  | @confirms p' calls q₁ down valid =>
    by_cases hp : p' = p
    · subst hp
      obtain ⟨f₁, hconfirm, heq⟩ := Option.map_eq_some_iff.mp h
      rw [← (Prod.mk.inj heq).1]
      exact advances_confirms hq (brings_silent h) hmore hconfirm
    · exact hother hp h rfl rfl
  | @types p' env line q₁ phase s' log hq₁ hstage hact =>
    refine advances_session (typeTurn · env line) hq h hq₁ hstage hact rfl
      (fun hp => by simp [roundOf, hp]) hmore fun hp s s' log hact _ calls hcalls => ?_
    obtain ⟨hdown, out, hup, hresume⟩ := resume_types hact
    refine ⟨out, calls, hcalls, hup, fun rounds => ?_⟩
    rw [hdown]
    simpa [roundOf, hp] using hresume rounds _
  | @reads p' calls₀ q₁ phase s' log hq₁ hstage hact =>
    refine advances_session (readTurn · calls₀) hq h hq₁ hstage hact rfl
      (fun hp => by simp [roundOf, hp]) hmore fun hp s s' log hact hmore' calls hcalls => ?_
    obtain ⟨out, later, hwrites, hsteady, hresume⟩ := resume_reads hact hcalls hmore'
    refine ⟨out, later, hsteady, by rw [hwrites, List.append_nil, Updates.readTurn_up hact], ?_⟩
    simpa [roundOf, hp] using hresume
  | @awaits p' calls₀ q₁ phase s' log hq₁ hstage hact =>
    refine advances_session (awaitTurn · calls₀) hq h hq₁ hstage hact rfl (fun _ => rfl) hmore
      fun _ s s' log hact hmore' calls hcalls => ?_
    obtain ⟨out, later, hwrites, hsteady, hresume⟩ := resume_awaits hact hcalls hmore'
    refine ⟨out, later, hsteady, ?_, hresume⟩
    rw [hwrites, List.append_nil, Updates.awaitTurn_up hact]
  | ends => exact hother (fun hp => hends (hp ▸ rfl)) h rfl rfl
  | stops => exact ⟨q, hq, (passive_quiet h rfl rfl).advances more⟩

theorem brings_severed (hq : f.peers p = some q) (hlink : q.link = .severed)
    (h : turn f t = some (f', events)) : brings p f t = [] := by
  have hnone : descriptor p f t = none := by
    cases taken_turn h with
    | @accepts p' q₁ frame up env addr fd calls server out hq₁ hqueued =>
      have hp : p' ≠ p := by
        intro heq
        subst heq
        rw [hq, Option.some.injEq] at hq₁
        subst hq₁
        simp [hlink] at hqueued
      simp [descriptor, hp, hq, hlink, linkFd]
    | starts | confirms | types | reads | awaits | ends | answers | notices | others | stops =>
      simp [descriptor, hq, hlink, linkFd]
  unfold brings
  rw [hnone]

/-- What a process keeps when it moves, is accepted, is read from and hears something,
it keeps in every turn. -/
theorem peer_step {I : Peer → Prop} (hmoved : ∀ atEnd q q', Moved atEnd q q' → I q → I q')
    (haccepted : ∀ q fd up, q.link = .queued → I q → I { q with link := .held fd, up })
    (hread : ∀ q up, I q → I { q with up }) (hheard : ∀ q out, I q → I (q.hear out))
    (hq : f.peers p = some q) (h : I q) (hfresh : FreshTurn f t)
    (hstep : turn f t = some (f', events)) : ∃ q', f'.peers p = some q' ∧ I q' := by
  have hset {p' : ℕ} {q₁ q₂ : Peer} (hq₁ : f.peers p' = some q₁) (hkept : I q₁ → I q₂) :
      ∃ q', (f.setPeer p' q₂).peers p = some q' ∧ I q' := by
    by_cases hp : p = p'
    · subst hp
      rw [hq, Option.some.injEq] at hq₁
      exact ⟨q₂, setPeer_self f p q₂, hkept (hq₁ ▸ h)⟩
    · exact ⟨q, by rw [setPeer_other hp, hq], h⟩
  have hserve {g : Fleet} (hg : ∃ q', g.peers p = some q' ∧ I q') (server : Server)
      (out : List Effect) : ∃ q', (g.serve server out).peers p = some q' ∧ I q' := by
    obtain ⟨q', hq', h'⟩ := hg
    exact ⟨q'.hear out, by rw [peers_serve, hq', Option.map_some], hheard q' out h'⟩
  cases turned hfresh hstep with
  | @starts p' id hfits hnone =>
    have hp : p ≠ p' := by
      intro heq
      simp [← heq, hq] at hnone
    exact ⟨q, by rw [setPeer_other hp, hq], h⟩
  | moves hq₁ hmoves => exact hset hq₁ (hmoved _ _ _ hmoves)
  | accepts hq₁ hqueued => exact hserve (hset hq₁ (haccepted _ _ _ hqueued)) _ _
  | answers hq₁ => exact hserve (hset hq₁ (hread _ _)) _ _
  | notices | others => exact hserve ⟨q, hq, h⟩ _ _
  | stops => exact ⟨q, hq, h⟩

theorem severed_step (hq : f.peers p = some q) (hlink : q.link = .severed)
    (hfresh : FreshTurn f t) (hstep : turn f t = some (f', events)) :
    ∃ q', f'.peers p = some q' ∧ q'.link = .severed := by
  refine peer_step ?_ ?_ (fun _ _ h => h) ?_ hq hlink hfresh hstep
  · exact fun _ _ _ hmoved h => hmoved.same.2.trans h
  · intro q fd up hqueued h
    simp [hqueued] at h
  · intro q out h
    rw [hear_silent (by simp [h]), h]

theorem id_step (hq : f.peers p = some q) (hfresh : FreshTurn f t)
    (hstep : turn f t = some (f', events)) : ∃ q', f'.peers p = some q' ∧ q'.id = q.id := by
  refine peer_step ?_ (fun _ _ _ _ h => h) (fun _ _ h => h) ?_ hq rfl hfresh hstep
  · exact fun _ _ _ hmoved h => hmoved.same.1.trans h
  · exact fun q out h => (hear_id out q).trans h

/-- No connection is opened again, and no server started. -/
theorem hushed_step (h : Hushed p f) (hfresh : FreshTurn f t)
    (hstep : turn f t = some (f', events)) : Hushed p f' ∧ brings p f t = [] := by
  rcases h with hended | ⟨q, hq, hlink⟩
  · have hevents : events = [] := (turn_running hstep).resolve_right (by simp [hended])
    subst hevents
    refine ⟨Or.inl ?_, brings_silent hstep⟩
    cases turned hfresh hstep with
    | starts | moves => exact hended
    | stops => rfl
  · exact ⟨Or.inr (severed_step hq hlink hfresh hstep), brings_severed hq hlink hstep⟩

/-- Nothing more comes to a process that is cut off. -/
theorem hushed_run {turns : List Fleets.Turn} (h : Hushed p f)
    (hfresh : Along turn FreshTurn f turns) (hrun : exec turn f turns = some (f', events)) :
    gathered turn (brings p) f turns = [] := by
  induction turns generalizing f events with
  | nil => rfl
  | cons t turns ih =>
    obtain ⟨f₁, o, o', hstep, hrest, -⟩ := exec_cons.mp hrun
    obtain ⟨hhushed, hnothing⟩ := hushed_step h hfresh.1 hstep
    rw [gathered_cons hstep, hnothing, ih hhushed (hfresh.2 f₁ o hstep) hrest]
    rfl

end Turns

section Programs

variable {f f' : Fleet} {p : ℕ} {q q' : Peer} {turns : List Fleets.Turn}
  {events : List (Env × Event)}

def Between (q : Peer) : Prop := q.stage = .past .idle ∨ q.stage = .past .stopped

theorem resume_between (h : Between q) (sock : Socket) :
    resume [] sock q.stage = ⟨[], .ok (decide (q.stage = .past .stopped), sock)⟩ := by
  rcases h with hidle | hstopped
  · rw [hidle]
    rfl
  · rw [hstopped]
    rfl

/-- From any stage on, the turns of a run make up what is left of the program on what
the process has to read and is still brought. -/
theorem resume_run (h : Sound f) (hfresh : Along turn FreshTurn f turns)
    (hrun : exec turn f turns = some (f', events)) (hq : f.peers p = some q)
    (hends : .ends p ∉ turns) (hq' : f'.peers p = some q') (hbetween : Between q')
    {calls : List Call} (hcalls : Steady calls) :
    q'.id = q.id ∧ ∃ out sock, resume (turns.filterMap (roundOf p))
        ⟨wire q.down ++ gathered turn (brings p) f turns, calls⟩ q.stage =
          ⟨out, .ok (decide (q'.stage = .past .stopped), sock)⟩ ∧
      sock.pending = wire q'.down ∧
      wire q.up ++ sent tcpSockfd out = gathered turn (takes p) f turns ++ wire q'.up := by
  induction turns generalizing f q events calls with
  | nil =>
    simp only [exec_nil, Option.some.injEq, Prod.mk.injEq] at hrun
    obtain ⟨rfl, -⟩ := hrun
    rw [hq, Option.some.injEq] at hq'
    subst hq'
    exact ⟨rfl, [], _, resume_between hbetween _, List.append_nil _, List.append_nil _⟩
  | cons t turns ih =>
    obtain ⟨f₁, o, o', hstep, hrest, -⟩ := exec_cons.mp hrun
    have hsound : Sound f₁ := sound_step h hfresh.1 hstep
    have hlater := hfresh.2 f₁ o hstep
    obtain ⟨q₁, hq₁, hadvances⟩ := advances_turn h.consistent hq hstep
      (fun heq => hends (heq ▸ List.mem_cons_self))
      fun hhushed => hushed_run (hushed_step hhushed hfresh.1 hstep).1 hlater hrest
    obtain ⟨out, later, hsteady, hup, hresume⟩ := hadvances calls hcalls
    obtain ⟨q₂, hq₂, hid⟩ := id_step hq hfresh.1 hstep
    rw [hq₁, Option.some.injEq] at hq₂
    subst hq₂
    obtain ⟨hid', out', sock, hout', hpending, hup'⟩ := ih hsound hlater hrest hq₁
      (fun hmem => hends (List.mem_cons_of_mem t hmem)) hsteady
    refine ⟨hid'.trans hid, out ++ out', sock, ?_, hpending, ?_⟩
    · have hrounds : (t :: turns).filterMap (roundOf p) =
          (roundOf p t).toList ++ turns.filterMap (roundOf p) := by
        rw [List.filterMap_cons]
        cases roundOf p t <;> rfl
      rw [gathered_cons hstep, hrounds, hresume, hout']
      rfl
    · rw [gathered_cons hstep, sent_append, ← List.append_assoc, hup, List.append_assoc, hup',
        List.append_assoc]

theorem checkAndRun_eq (env : Env) (id : ClientId) (rounds : List Round) (sock : Socket) :
    checkAndRun env tcpSockfd id rounds sock = (presentId env tcpSockfd id >>= fun _ =>
      resume rounds sock .connecting >>= fun r => return r.1) := by
  simp only [checkAndRun, checkConnectionValidity, resume, bind_assoc]
  congr 1
  funext _
  congr 1
  funext ⟨valid, later⟩
  cases valid with
  | false => rfl
  | true => rfl

/-- Before a process starts nothing is done by it or for it. -/
theorem unborn_step {t : Fleets.Turn} (hnone : f.peers p = none)
    (h : turn f t = some (f', events)) :
    (f'.peers p = none ∧ brings p f t = [] ∧ takes p f t = [] ∧ roundOf p t = none) ∨
      ∃ env id out, t = .starts p env id ∧ presentId env tcpSockfd id = ⟨out, .ok ()⟩ ∧
        f' = f.setPeer p ⟨id, .connecting, .queued, written tcpSockfd out, []⟩ ∧
        wire (written tcpSockfd out) = sent tcpSockfd out ∧ events = [] := by
  have habsent {p' : ℕ} {q₁ : Peer} (hq₁ : f.peers p' = some q₁) : p' ≠ p := by
    intro heq
    simp [← heq, hq₁] at hnone
  have hset {p' : ℕ} {q₁ q₂ : Peer} (hq₁ : f.peers p' = some q₁) :
      (f.setPeer p' q₂).peers p = none := by
    rw [setPeer_other (Ne.symm (habsent hq₁)), hnone]
  have hserve {g : Fleet} (hg : g.peers p = none) (server : Server) (out : List Effect) :
      (g.serve server out).peers p = none := by
    rw [peers_serve, hg, Option.map_none]
  have hquiet (hdescriptor : descriptor p f t = none) : brings p f t = [] := by
    unfold brings
    rw [hdescriptor]
  cases taken_turn h with
  | @starts p' env id out hfits _ _ _ hsend =>
    by_cases hp : p' = p
    · subst hp
      refine Or.inr ⟨env, id, out, rfl, hsend, rfl, ?_, rfl⟩
      obtain ⟨-, rfl⟩ := (sendRequest_eq_ok (by omega)).mp hsend
      rw [written_encode, sent_wrote, wire_cons, wire_nil, List.append_nil]
    · refine Or.inl ⟨by rw [setPeer_other (Ne.symm hp), hnone], hquiet ?_, rfl, rfl⟩
      simp [descriptor, hnone]
  | confirms hq₁ | ends hq₁ =>
    exact Or.inl ⟨hset hq₁, hquiet (by simp [descriptor, hnone]), rfl, rfl⟩
  | types hq₁ | reads hq₁ | awaits hq₁ =>
    exact Or.inl ⟨hset hq₁, hquiet (by simp [descriptor, hnone]), rfl,
      by simp [roundOf, habsent hq₁]⟩
  | accepts hq₁ =>
    exact Or.inl ⟨hserve (hset hq₁) _ _, hquiet (by simp [descriptor, habsent hq₁, hnone]),
      by simp [takes, habsent hq₁], rfl⟩
  | answers hq₁ =>
    exact Or.inl ⟨hserve (hset hq₁) _ _, hquiet (by simp [descriptor, hnone]),
      by simp [takes, habsent hq₁], rfl⟩
  | notices hq₁ =>
    exact Or.inl ⟨hserve hnone _ _, hquiet (by simp [descriptor, hnone]),
      by simp [takes, habsent hq₁], rfl⟩
  | others => exact Or.inl ⟨hserve hnone _ _, hquiet (by simp [descriptor, hnone]), rfl, rfl⟩
  | stops => exact Or.inl ⟨hnone, hquiet (by simp [descriptor, hnone]), rfl, rfl⟩

/-- A process that is not there at first has done what the program does from its start. -/
theorem program_run (h : Sound f) (hfresh : Along turn FreshTurn f turns)
    (hrun : exec turn f turns = some (f', events)) (hnone : f.peers p = none)
    (hends : .ends p ∉ turns) (hq' : f'.peers p = some q') (hbetween : Between q')
    {calls : List Call} (hcalls : Steady calls) :
    ∃ env out, .starts p env q'.id ∈ turns ∧
      checkAndRun env tcpSockfd q'.id (turns.filterMap (roundOf p))
        ⟨gathered turn (brings p) f turns, calls⟩ =
          ⟨out, .ok (decide (q'.stage = .past .stopped))⟩ ∧
      sent tcpSockfd out = gathered turn (takes p) f turns ++ wire q'.up := by
  induction turns generalizing f events with
  | nil =>
    simp only [exec_nil, Option.some.injEq, Prod.mk.injEq] at hrun
    obtain ⟨rfl, -⟩ := hrun
    simp [hnone] at hq'
  | cons t turns ih =>
    obtain ⟨f₁, o, o', hstep, hrest, -⟩ := exec_cons.mp hrun
    have hsound : Sound f₁ := sound_step h hfresh.1 hstep
    have hlater := hfresh.2 f₁ o hstep
    have hends' : .ends p ∉ turns := fun hmem => hends (List.mem_cons_of_mem t hmem)
    rw [gathered_cons hstep, gathered_cons hstep]
    rcases unborn_step hnone hstep with
      ⟨hnone', hbrings, htakes, hround⟩ | ⟨env, id, out, rfl, hpresent, rfl, hwire, rfl⟩
    · obtain ⟨env, out, hmem, hcheck, hsent⟩ := ih hsound hlater hrest hnone' hends'
      refine ⟨env, out, List.mem_cons_of_mem t hmem, ?_, ?_⟩
      · rw [List.filterMap_cons_none hround, hbrings]
        exact hcheck
      · rw [htakes]
        exact hsent
    · obtain ⟨hid, out', sock, hresume, -, hup⟩ := resume_run hsound hlater hrest
        (setPeer_self f p _) hends' hq' hbetween hcalls
      dsimp only at hid
      refine ⟨env, out ++ out', hid ▸ List.mem_cons_self, ?_, ?_⟩
      · have hrest : resume (turns.filterMap (roundOf p)) ⟨gathered turn (brings p) _ turns, calls⟩
            .connecting = ⟨out', .ok (decide (q'.stage = .past .stopped), sock)⟩ := hresume
        rw [brings_silent hstep, List.nil_append, List.filterMap_cons_none rfl, checkAndRun_eq, hid,
          hpresent, hrest]
        exact Outcome.ext' (congrArg (out ++ ·) (List.append_nil out')) rfl
      · rw [sent_append, ← hwire, hup]
        rfl


/-- In every run of a fleet a process that was not ended by force and is in the middle of
no exchange has done what main does alone on the bytes the server wrote on its
connection, with the lines typed at it and the messages it read in their order: it has
returned 0 exactly if main has, and what main writes is what the server has read from
it and what is on its way. The turns of all others make no difference. -/
theorem processes_run_main {udpSockfd listenSockfd : Int}
    (hfresh : Along turn FreshTurn (Fleet.start udpSockfd listenSockfd) turns)
    (hrun : exec turn (Fleet.start udpSockfd listenSockfd) turns = some (f, events))
    (hq : f.peers p = some q) (hends : .ends p ∉ turns) (hbetween : Between q)
    {outside : Outside} {argv : List Bytes}
    (hstarted : started outside argv = some (q.id, tcpSockfd)) {calls : List Call}
    (hcalls : Steady calls) :
    ∃ env out, .starts p env q.id ∈ turns ∧
      subscriberMain outside argv env (turns.filterMap (roundOf p))
        ⟨gathered turn (brings p) (Fleet.start udpSockfd listenSockfd) turns, calls⟩ =
          ⟨out, .ok (if q.stage = .past .stopped then some 0 else none)⟩ ∧
      sent tcpSockfd out =
        gathered turn (takes p) (Fleet.start udpSockfd listenSockfd) turns ++ wire q.up := by
  obtain ⟨env, out, hmem, hcheck, hsent⟩ := program_run (sound_start udpSockfd listenSockfd) hfresh
    hrun rfl hends hq hbetween hcalls
  rw [← hsent]
  by_cases hstopped : q.stage = .past .stopped
  · refine ⟨env, out ++ [.closed tcpSockfd], hmem, ?_, ?_⟩
    · rw [(started_eq_some hstarted env _ _).2, hcheck]
      simp only [hstopped, decide_true, if_true]
      rfl
    · rw [sent_append, sent_closed, List.append_nil]
  · refine ⟨env, out, hmem, ?_, rfl⟩
    rw [(started_eq_some hstarted env _ _).2, hcheck]
    simp only [hstopped, decide_false, if_false]
    exact Outcome.ext' (List.append_nil out) rfl

/-- Two processes: the first one subscribes and reads a publication while the second one
is admitted and leaves. -/
def mixed : List Fleets.Turn :=
  [.starts 0 Env.plain (ascii "a"), .starts 1 Env.plain (ascii "b"),
    .accepts 1 Env.plain ⟨(127, 0, 0, 1), 1⟩ 5 [], .accepts 0 Env.plain ⟨(127, 0, 0, 1), 2⟩ 6 [],
    .confirms 0 [], .types 0 Env.plain (ascii "subscribe t"), .confirms 1 [],
    .serves 0 Env.plain 1 [], .types 1 Env.plain (ascii "exit"), .awaits 0 [],
    .others Env.plain (.datagram (some Delivery.seven)), .serves 1 Env.plain 0 [], .reads 0 []]

set_option maxRecDepth 4000 in
theorem processes_run_main_mixed : ∃ env out,
    subscriberMain ⟨fun _ => some 12345, fun _ _ => some 3⟩
      [ascii "subscriber", ascii "a", ascii "127.0.0.1", ascii "12345"] env
      (mixed.filterMap (roundOf 0))
      ⟨gathered turn (brings 0) (Fleet.start 3 4) mixed, []⟩ = ⟨out, .ok none⟩ ∧
    sent tcpSockfd out = gathered turn (takes 0) (Fleet.start 3 4) mixed := by
  obtain ⟨events, hrun⟩ := exec_final
    (show (exec turn (Fleet.start 3 4) mixed).isSome = true by rfl)
  have hstarted : started ⟨fun _ => some 12345, fun _ _ => some 3⟩
      [ascii "subscriber", ascii "a", ascii "127.0.0.1", ascii "12345"] = some (ascii "a", 3) := rfl
  obtain ⟨env, out, -, hmain, hsent⟩ := processes_run_main (p := 0) (by decide) hrun rfl
    (by simp [mixed]) (Or.inl rfl) hstarted steady_nil
  exact ⟨env, out, hmain, hsent.trans (List.append_nil _)⟩

end Programs

end ServerClientApp.Projections
