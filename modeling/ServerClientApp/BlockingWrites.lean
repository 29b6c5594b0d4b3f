import ServerClientApp.Settling

/-!
send blocks while the buffer of a connection is full. The server is then in the middle of
a handler: its tables are as the handler leaves them, the rest of what it does waits, and
nothing else is served, while the processes go on. From outside this is the fleet whose
server does everything at once, and as long as processes read, the server gets through.
-/

namespace ServerClientApp.BlockingWrites

open PartialTransfers Outcomes Runs Protocols Wildcards Datagrams ServerHandlers HandlerSpecs
  ServerRuns Ledger SubscriberHandlers SubscriberSpecs SubscriberProgram Fleets
open Settling hiding RunningWithin
open FleetGuarantees (hear_stage)
open Sessions (Phase Session Log written typeTurn readTurn awaitTurn)

section Model

/-- A fleet whose server still has the effects of the outbox to do. -/
structure Writing where
  fleet : Fleet
  outbox : List Effect

def Writing.start (udpSockfd tcpSockfd : Int) : Writing := ⟨Fleet.start udpSockfd tcpSockfd, []⟩

def Writing.whole (w : Writing) : Fleet := w.fleet.serve w.fleet.server w.outbox

/-- A turn of a fleet, or the next effect of the handler: a message goes into the buffer
of its connection, a descriptor is closed, a line is printed. -/
inductive Action where
  | turns (t : Fleets.Turn)
  | delivers

/-- The input of a turn of the server: a connection with its id, the next frame or the
end of a stream, or an event of no connection. -/
def taken (f : Fleet) : Fleets.Turn → Option (Fleet × Env × Event)
  | .accepts p env addr fd calls => do
    let q ← f.peers p
    match q.link, q.up with
    | .queued, frame :: up =>
      some (f.setPeer p { q with link := .held fd, up }, env,
        .connection addr fd ⟨frame.encode ++ up.flatMap Frame.encode, calls⟩)
    | _, _ => none
  | .serves p env k calls => do
    let q ← f.peers p
    match q.link, q.up with
    | .held fd, frame :: up =>
      some (f.setPeer p { q with up }, env,
        .readable k fd ⟨frame.encode ++ up.flatMap Frame.encode, calls⟩)
    | .held fd, [] =>
      if q.stage = .past .stopped then some (f, env, .readable k fd ⟨[], calls⟩) else none
    | _, _ => none
  | .others env event => if Local event then some (f, env, event) else none
  | .starts .. | .confirms .. | .types .. | .reads .. | .awaits .. | .ends _ | .stops => none

/-- A handler is called, and has everything it does before it. -/
def called (f : Fleet) (env : Env) (event : Event) : Option (Writing × List (Env × Event)) :=
  if f.running then
    (ServerRuns.handle env f.server event).map fun r =>
      (⟨{ f with server := r.1 }, r.2⟩, [(env, event)])
  else none

def serverTurn (f : Fleet) : Fleets.Turn → Option (Writing × List (Env × Event))
  | .stops => some (⟨{ f with running := false }, []⟩, [])
  | t => (taken f t).bind fun r => called r.1 r.2.1 r.2.2

def OfServer : Fleets.Turn → Bool
  | .accepts .. | .serves .. | .others .. | .stops => true
  | .starts .. | .confirms .. | .types .. | .reads .. | .awaits .. | .ends _ => false

def step (w : Writing) : Action → Option (Writing × List (Env × Event))
  | .turns t =>
    if OfServer t then
      if w.outbox = [] then serverTurn w.fleet t else none
    else (turn w.fleet t).map fun r => (⟨r.1, w.outbox⟩, r.2)
  | .delivers =>
    match w.outbox with
    | [] => none
    | effect :: rest => some (⟨w.fleet.serve w.fleet.server [effect], rest⟩, [])

def FreshAction (w : Writing) : Action → Prop
  | .turns t => FreshTurn w.fleet t
  | .delivers => True

instance (w : Writing) : ∀ a, Decidable (FreshAction w a)
  | .turns t => inferInstanceAs (Decidable (FreshTurn w.fleet t))
  | .delivers => isTrue trivial

def turnsOf (actions : List Action) : List Fleets.Turn :=
  actions.filterMap fun a =>
    match a with
    | .turns t => some t
    | .delivers => none

end Model

section Hearing

variable {f g : Fleet} {p : ℕ} {q : Peer} {effect : Effect} {rest out : List Effect}

def heard (out : List Effect) : Link → List Frame
  | .held fd => written fd out
  | .queued | .severed => []

def linkAfter (out : List Effect) : Link → Link
  | .held fd => if .closed fd ∈ out then .severed else .held fd
  | .queued => .queued
  | .severed => .severed

theorem hear_eq (out : List Effect) (q : Peer) : q.hear out =
    { q with down := q.down ++ heard out q.link, link := linkAfter out q.link } := by
  obtain ⟨id, stage, link, up, down⟩ := q
  cases link with
  | held fd => rfl
  | queued | severed => simp [Peer.hear, heard, linkAfter]

theorem hear_nil (q : Peer) : q.hear [] = q := by
  obtain ⟨id, stage, link, up, down⟩ := q
  cases link with
  | held fd => simp [hear_eq, heard, linkAfter, written]
  | queued | severed => rfl

def Tidy : List Effect → Prop
  | [] => True
  | effect :: rest => (∀ fd, effect = .closed fd → written fd rest = []) ∧ Tidy rest

theorem written_cons (fd : Int) (effect : Effect) (rest : List Effect) :
    written fd (effect :: rest) = written fd [effect] ++ written fd rest :=
  List.filterMap_append (l := [effect])

/-- The effects one after the other come to the same as all at once. -/
theorem hear_cons (h : Tidy (effect :: rest)) (q : Peer) :
    (q.hear [effect]).hear rest = q.hear (effect :: rest) := by
  cases hlink : q.link with
  | queued | severed =>
    have hsilent (out : List Effect) : q.hear out = q := hear_silent (by simp [hlink])
    simp only [hsilent]
  | held fd =>
    by_cases hclosed : effect = .closed fd
    · subst hclosed
      have hrest : written fd rest = [] := h.1 fd rfl
      rw [hear_held hlink, hear_held hlink, hear_silent (by simp),
        written_cons fd _ rest, hrest]
      simp
    · have hopen : .closed fd ∉ [effect] := by simpa using Ne.symm hclosed
      rw [hear_held hlink, if_neg hopen, hear_held rfl, hear_held hlink,
        written_cons fd effect rest]
      simp [Ne.symm hclosed]

theorem serve_cons (h : Tidy (effect :: rest)) (f : Fleet) (server : Server) :
    (f.serve server [effect]).serve server rest = f.serve server (effect :: rest) := by
  simp only [Fleet.serve, Option.map_map, Fleet.mk.injEq, true_and]
  funext p
  congr 1
  funext q
  exact hear_cons h q

theorem serve_nil (f : Fleet) : f.serve f.server [] = f := by
  have hpeers : (fun p => (f.peers p).map (Peer.hear [])) = f.peers := by
    funext p
    cases f.peers p with
    | none => rfl
    | some q => rw [Option.map_some, hear_nil]
  unfold Fleet.serve
  rw [hpeers]

theorem serve_setPeer (f : Fleet) (p : ℕ) (q : Peer) (server : Server) (out : List Effect) :
    (f.setPeer p q).serve server out = (f.serve server out).setPeer p (q.hear out) := by
  simp only [Fleet.serve, Fleet.setPeer, Fleet.mk.injEq, true_and]
  funext p'
  by_cases hp : p' = p
  · subst hp
    rw [Function.update_self, Function.update_self, Option.map_some]
  · rw [Function.update_of_ne hp, Function.update_of_ne hp]

end Hearing

section Processes

variable {extra : List Frame} {s s₂ s' : Session} {log : List Log}

/-- The same session with more frames on the way to the process, none if its stream has
ended. -/
structure Ahead (extra : List Frame) (s s₂ : Session) : Prop where
  up : s₂.up = s.up
  down : s₂.down = s.down ++ extra
  phase : s₂.phase = s.phase
  ending : s.closed = true → s₂.closed = true ∧ extra = []

theorem incoming_ahead {bytes : Bytes} {down : List Frame} (h : Ahead extra s s₂)
    (hin : s.incoming = some (bytes, down)) : s₂.incoming = some (bytes, down ++ extra) := by
  rcases Sessions.incoming_eq_some hin with ⟨frame, hdown, rfl⟩ | ⟨hdown, hclosed, rfl, rfl⟩
  · simp only [Session.incoming, h.down, hdown, List.cons_append]
  · obtain ⟨hclosed₂, rfl⟩ := h.ending hclosed
    simp [Session.incoming, h.down, hdown, hclosed₂]

def Unhurried (act : Session → Option (Session × List Log)) : Prop :=
  ∀ extra s s₂ s' log, Ahead extra s s₂ → act s = some (s', log) →
    ∃ s₂', act s₂ = some (s₂', log) ∧ Ahead extra s' s₂'

theorem unhurried_types (env : Env) (line : Bytes) : Unhurried (typeTurn · env line) := by
  intro extra s s₂ s' log h hact
  cases hphase : s.phase with
  | waiting | stopped => simp [typeTurn, hphase] at hact
  | idle =>
    have hphase₂ : s₂.phase = .idle := h.phase.trans hphase
    simp only [typeTurn, hphase, hphase₂] at hact ⊢
    cases hline : manageStdinData line with
    | exit =>
      simp only [hline, Option.some.injEq, Prod.mk.injEq] at hact
      obtain ⟨rfl, rfl⟩ := hact
      exact ⟨_, rfl, h.up, h.down, rfl, h.ending⟩
    | usage | invalidTopic =>
      simp only [hline, Option.some.injEq, Prod.mk.injEq] at hact
      obtain ⟨rfl, rfl⟩ := hact
      exact ⟨_, rfl, h.up, h.down, h.phase, h.ending⟩
    | request command topic =>
      simp only [hline, Option.bind_eq_bind, Option.bind_eq_some_iff, Prod.exists,
        Option.some.injEq, Prod.mk.injEq] at hact
      obtain ⟨⟨⟩, out, hsend, rfl, rfl⟩ := hact
      simp only [hsend, Option.bind_eq_bind, Option.bind_some]
      exact ⟨_, rfl, by simp only [h.up], h.down, rfl, h.ending⟩

theorem unhurried_reads (calls : List Call) : Unhurried (readTurn · calls) := by
  intro extra s s₂ s' log h hact
  cases hphase : s.phase with
  | waiting | stopped => simp [readTurn, hphase] at hact
  | idle =>
    have hphase₂ : s₂.phase = .idle := h.phase.trans hphase
    simp only [readTurn, hphase, hphase₂, Option.bind_eq_bind, Option.bind_eq_some_iff,
      Prod.exists, Option.some.injEq, Prod.mk.injEq] at hact ⊢
    obtain ⟨bytes, down, hin, ended, sock, out, hread, rfl, rfl⟩ := hact
    exact ⟨_, ⟨bytes, down ++ extra, incoming_ahead h hin, ended, sock, out, hread, rfl, rfl⟩,
      h.up, rfl, rfl, h.ending⟩

theorem unhurried_awaits (calls : List Call) : Unhurried (awaitTurn · calls) := by
  intro extra s s₂ s' log h hact
  cases hphase : s.phase with
  | idle | stopped => simp [awaitTurn, hphase] at hact
  | waiting command topic =>
    have hphase₂ : s₂.phase = .waiting command topic := h.phase.trans hphase
    simp only [awaitTurn, hphase, hphase₂, Option.bind_eq_bind, Option.bind_eq_some_iff,
      Prod.exists, Option.some.injEq, Prod.mk.injEq] at hact ⊢
    obtain ⟨bytes, down, hin, sock, out, hread, rfl, rfl⟩ := hact
    exact ⟨_, ⟨bytes, down ++ extra, incoming_ahead h hin, sock, out, hread, rfl, rfl⟩,
      h.up, rfl, rfl, h.ending⟩

end Processes

section Turns

variable {f g : Fleet} {p : ℕ} {out : List Effect} {events : List (Env × Event)}

theorem session_ahead (f : Fleet) (q : Peer) (phase : Phase)
    (hover : f.running = false → out = []) :
    Ahead (heard out q.link) (f.session q phase)
      ((f.serve f.server out).session (q.hear out) phase) where
  up := by rw [hear_eq]; rfl
  down := by rw [hear_eq]; rfl
  phase := rfl
  ending := by
    intro hclosed
    rw [Fleet.session, Bool.or_eq_true, decide_eq_true_eq, Bool.not_eq_true'] at hclosed
    rcases hclosed with hsevered | hgone
    · simp [hear_eq, Fleet.session, hsevered, linkAfter, heard]
    · have hnone : ∀ link, heard [] link = [] := fun link => by cases link <;> rfl
      simp [Fleet.session, Fleet.serve, hgone, hover hgone, hnone]

theorem peers_serve_some {q : Peer} (hq : f.peers p = some q) (out : List Effect) :
    (f.serve f.server out).peers p = some (q.hear out) := by
  rw [peers_serve, hq, Option.map_some]

theorem sessionTurn_hears {act : Session → Option (Session × List Log)} (hact : Unhurried act)
    (hover : f.running = false → out = []) (h : sessionTurn f p act = some g) :
    sessionTurn (f.serve f.server out) p act = some (g.serve g.server out) := by
  obtain ⟨q, phase, s', log, hq, hstage, hs', rfl⟩ := sessionTurn_ok h
  obtain ⟨s₂', hs₂', hahead⟩ := hact _ _ _ _ _ (session_ahead f q phase hover) hs'
  have hstage₂ : (q.hear out).stage = .past phase := (hear_stage out q).trans hstage
  have hresume : (q.hear out).resume s₂' = (q.resume s').hear out := by
    rw [hear_eq, hear_eq]
    simp only [Peer.resume, hahead.phase, hahead.up, hahead.down]
  simp only [sessionTurn, peers_serve_some hq out, Option.bind_eq_bind, Option.bind_some, hstage₂,
    hs₂', Option.map_some, hresume]
  rw [serve_setPeer]
  rfl

theorem confirmTurn_hears {calls : List Call} (hover : f.running = false → out = [])
    (h : confirmTurn f p calls = some g) :
    confirmTurn (f.serve f.server out) p calls = some (g.serve g.server out) := by
  unfold confirmTurn at h
  simp only [Option.bind_eq_bind, Option.bind_eq_some_iff] at h
  obtain ⟨q, hq, h⟩ := h
  split_ifs at h with hstage
  simp only [Option.bind_eq_some_iff, Prod.exists, Option.some.injEq] at h
  obtain ⟨bytes, down, hin, valid, sock, shown, hconfirm, rfl⟩ := h
  have hin₂ := incoming_ahead (session_ahead f q .idle hover) hin
  have hstage₂ : (q.hear out).stage = .connecting := (hear_stage out q).trans hstage
  simp only [confirmTurn, peers_serve_some hq out, Option.bind_eq_bind, Option.bind_some,
    hstage₂, if_true, hin₂, hconfirm]
  rw [serve_setPeer, hear_eq, hear_eq]
  rfl

theorem startTurn_hears {env : Env} {id : ClientId} (h : startTurn f p env id = some g) :
    startTurn (f.serve f.server out) p env id = some (g.serve g.server out) := by
  unfold startTurn at h
  split_ifs at h with hguard
  obtain ⟨hlength, hfree, hrunning, hnone⟩ := hguard
  simp only [Option.bind_eq_bind, Option.bind_eq_some_iff, Prod.exists, Option.some.injEq] at h
  obtain ⟨⟨⟩, shown, hsend, rfl⟩ := h
  have hnone₂ : ((f.serve f.server out).peers p).isNone = true := by
    rw [peers_serve, Option.isNone_map]
    exact hnone
  have hguard₂ : id.length ≤ 10 ∧ 0 ∉ id ∧ (f.serve f.server out).running = true ∧
      ((f.serve f.server out).peers p).isNone = true := ⟨hlength, hfree, hrunning, hnone₂⟩
  simp only [startTurn, hguard₂, hsend, Option.bind_eq_bind, Option.bind_some, and_self,
    not_false_eq_true, if_true]
  rw [serve_setPeer]
  rfl

theorem endTurn_hears (h : endTurn f p = some g) :
    endTurn (f.serve f.server out) p = some (g.serve g.server out) := by
  obtain ⟨q, hq, rfl⟩ := Option.map_eq_some_iff.mp h
  simp only [endTurn, peers_serve_some hq out, Option.map_some]
  rw [serve_setPeer, hear_eq, hear_eq]
  rfl

/-- What the server has still to do does not change what a process does: its frames are
behind those the process finds. -/
theorem turn_hears {t : Fleets.Turn} (hown : OfServer t = false)
    (hover : f.running = false → out = []) (h : turn f t = some (g, events)) :
    turn (f.serve f.server out) t = some (g.serve g.server out, events) := by
  cases t with
  | accepts | serves | others | stops => simp [OfServer] at hown
  | starts p env id =>
    obtain ⟨f₁, hstart, heq⟩ := Option.map_eq_some_iff.mp h
    obtain ⟨rfl, rfl⟩ := Prod.mk.inj heq
    simp only [turn, startTurn_hears hstart, Option.map_some]
  | confirms p calls =>
    obtain ⟨f₁, hconfirm, heq⟩ := Option.map_eq_some_iff.mp h
    obtain ⟨rfl, rfl⟩ := Prod.mk.inj heq
    simp only [turn, confirmTurn_hears hover hconfirm, Option.map_some]
  | types p env line =>
    obtain ⟨f₁, hsession, heq⟩ := Option.map_eq_some_iff.mp h
    obtain ⟨rfl, rfl⟩ := Prod.mk.inj heq
    simp only [turn, sessionTurn_hears (unhurried_types env line) hover hsession, Option.map_some]
  | reads p calls =>
    obtain ⟨f₁, hsession, heq⟩ := Option.map_eq_some_iff.mp h
    obtain ⟨rfl, rfl⟩ := Prod.mk.inj heq
    simp only [turn, sessionTurn_hears (unhurried_reads calls) hover hsession, Option.map_some]
  | awaits p calls =>
    obtain ⟨f₁, hsession, heq⟩ := Option.map_eq_some_iff.mp h
    obtain ⟨rfl, rfl⟩ := Prod.mk.inj heq
    simp only [turn, sessionTurn_hears (unhurried_awaits calls) hover hsession, Option.map_some]
  | ends p =>
    obtain ⟨f₁, hend, heq⟩ := Option.map_eq_some_iff.mp h
    obtain ⟨rfl, rfl⟩ := Prod.mk.inj heq
    simp only [turn, endTurn_hears hend, Option.map_some]

/-- A handler called is a handler that has done everything, but for the outbox. -/
theorem handle_eq (f : Fleet) (env : Env) (event : Event) :
    f.handle env event = (called f env event).map fun r => (r.1.whole, r.2) := by
  unfold Fleet.handle called
  split_ifs
  · rw [Option.map_map]
    rfl
  · rfl

theorem turn_eq {t : Fleets.Turn} (hserver : OfServer t = true) :
    turn f t = (serverTurn f t).map fun r => (r.1.whole, r.2) := by
  cases t with
  | starts | confirms | types | reads | awaits | ends => simp [OfServer] at hserver
  | stops =>
    simp only [turn, serverTurn, Option.map_some]
    rw [Writing.whole, serve_nil]
  | others env event =>
    simp only [turn, serverTurn, taken]
    split_ifs
    · exact handle_eq f env event
    · rfl
  | accepts p env addr fd calls =>
    simp only [turn, acceptTurn, serverTurn, taken, Option.bind_eq_bind]
    cases f.peers p with
    | none => rfl
    | some q =>
      obtain ⟨id, stage, link, up, down⟩ := q
      cases link with
      | held | severed => rfl
      | queued =>
        cases up with
        | nil => rfl
        | cons frame up => exact handle_eq _ env _
  | serves p env k calls =>
    simp only [turn, serveTurn, serverTurn, taken, Option.bind_eq_bind]
    cases f.peers p with
    | none => rfl
    | some q =>
      obtain ⟨id, stage, link, up, down⟩ := q
      cases link with
      | queued | severed => rfl
      | held fd =>
        cases up with
        | cons frame up => exact handle_eq _ env _
        | nil =>
          simp only [Option.bind_some]
          split_ifs
          · exact handle_eq f env _
          · rfl

end Turns

section Handlers

variable {f : Fleet} {w w' : Writing} {t : Fleets.Turn} {env : Env} {event : Event}
  {events : List (Env × Event)} {out : List Effect}

theorem tidy_of_open (h : ∀ fd, .closed fd ∉ out) : Tidy out := by
  induction out with
  | nil => trivial
  | cons effect rest ih =>
    constructor
    · intro fd heq
      exact absurd (heq ▸ List.mem_cons_self) (h fd)
    · exact ih fun fd hmem => h fd (List.mem_cons_of_mem _ hmem)

theorem tidy_handle {s s' : Server} (h : Consistent s)
    (hstep : ServerRuns.handle env s event = some (s', out)) : Tidy out := by
  cases served h hstep with
  | line | admitted | answered => exact tidy_of_open (by simp [admission])
  | datagram hact => exact tidy_of_open fun fd => keeps_datagram hact
  | refused => simp [Tidy, refusal, written]
  | left => simp [Tidy, written]

theorem taken_ok {f₁ : Fleet} (h : taken f t = some (f₁, env, event)) :
    f₁.server = f.server ∧ (Owed t = true → Local event = false) := by
  cases t with
  | starts | confirms | types | reads | awaits | ends | stops => simp [taken] at h
  | others env' event' =>
    simp only [taken] at h
    split_ifs at h
    obtain ⟨rfl, -⟩ := Prod.mk.inj (Option.some.inj h)
    exact ⟨rfl, by simp [Owed]⟩
  | accepts p env' addr fd calls =>
    obtain ⟨q, -, hread⟩ := Option.bind_eq_some_iff.mp h
    split at hread
    · obtain ⟨rfl, rfl, rfl⟩ := Option.some.inj hread
      exact ⟨rfl, fun _ => rfl⟩
    · simp at hread
  | serves p env' k calls =>
    obtain ⟨q, -, hread⟩ := Option.bind_eq_some_iff.mp h
    split at hread
    · obtain ⟨rfl, rfl, rfl⟩ := Option.some.inj hread
      exact ⟨rfl, fun _ => rfl⟩
    · split_ifs at hread
      obtain ⟨rfl, rfl, rfl⟩ := Option.some.inj hread
      exact ⟨rfl, fun _ => rfl⟩
    · simp at hread

/-- On a connection of its own the server does little. -/
theorem handle_small {s s' : Server} (h : Consistent s)
    (hstep : ServerRuns.handle env s event = some (s', out)) (hlocal : Local event = false) :
    out.length ≤ 3 := by
  cases served h hstep with
  | line | datagram => simp [Local] at hlocal
  | refused | admitted | left | answered => simp [refusal, admission]

/-- A turn of the server is its end, or a handler that leaves its effects to do. -/
theorem serverTurn_ok (h : serverTurn f t = some (w, events)) :
    (w.fleet.running = false ∧ w.outbox = []) ∨
      (w.fleet.running = true ∧ ∃ env event,
        ServerRuns.handle env f.server event = some (w.fleet.server, w.outbox) ∧
          (Owed t = true → Local event = false)) := by
  cases t with
  | stops =>
    obtain ⟨rfl, -⟩ := Prod.mk.inj (Option.some.inj h)
    exact Or.inl ⟨rfl, rfl⟩
  | starts | confirms | types | reads | awaits | ends => simp [serverTurn, taken] at h
  | others | accepts | serves =>
    obtain ⟨⟨f₁, env, event⟩, htaken, hcalled⟩ := Option.bind_eq_some_iff.mp h
    obtain ⟨hserver, hlocal⟩ := taken_ok htaken
    unfold called at hcalled
    split_ifs at hcalled with hrunning
    obtain ⟨⟨server, out⟩, hhandle, heq⟩ := Option.map_eq_some_iff.mp hcalled
    obtain ⟨rfl, -⟩ := Prod.mk.inj heq
    exact Or.inr ⟨hrunning, env, event, hserver ▸ hhandle, hlocal⟩

theorem running_own {g : Fleet} (hown : OfServer t = false) (h : turn f t = some (g, events)) :
    g.running = f.running := by
  cases taken_turn h with
  | accepts | answers | notices | others | stops => simp [OfServer] at hown
  | starts | confirms | types | reads | awaits | ends => rfl

end Handlers

section Refinement

variable {w w' : Writing} {a : Action} {actions : List Action} {events : List (Env × Event)}

/-- The invariant of runs: the fleet to come is sound, nothing follows a close, and the
server does not end before its handler. -/
structure Orderly (w : Writing) : Prop where
  sound : Sound w.whole
  tidy : Tidy w.outbox
  ending : w.fleet.running = false → w.outbox = []

theorem whole_nil (h : w.outbox = []) : w.whole = w.fleet := by
  rw [Writing.whole, h, serve_nil]

theorem delivers_ok (h : step w .delivers = some (w', events)) :
    ∃ effect rest, w.outbox = effect :: rest ∧
      w' = ⟨w.fleet.serve w.fleet.server [effect], rest⟩ ∧ events = [] := by
  unfold step at h
  dsimp only at h
  split at h
  · simp at h
  · rename_i effect rest hcons
    obtain ⟨rfl, rfl⟩ := Prod.mk.inj (Option.some.inj h)
    exact ⟨effect, rest, hcons, rfl, rfl⟩

/-- Doing an effect changes nothing in the fleet to come. -/
theorem whole_delivers (h : Orderly w) (hstep : step w .delivers = some (w', events)) :
    Orderly w' ∧ w'.whole = w.whole ∧ events = [] := by
  obtain ⟨effect, rest, hcons, rfl, rfl⟩ := delivers_ok hstep
  have htidy : Tidy (effect :: rest) := hcons ▸ h.tidy
  have hwhole : (⟨w.fleet.serve w.fleet.server [effect], rest⟩ : Writing).whole = w.whole := by
    rw [Writing.whole, Writing.whole, hcons]
    exact serve_cons htidy w.fleet w.fleet.server
  refine ⟨⟨hwhole ▸ h.sound, htidy.2, ?_⟩, hwhole, rfl⟩
  intro hgone
  rw [h.ending hgone] at hcons
  simp at hcons

/-- A turn is the same turn of the fleet to come. -/
theorem whole_turns {t : Fleets.Turn} (h : Orderly w) (hfresh : FreshTurn w.fleet t)
    (hstep : step w (.turns t) = some (w', events)) :
    Orderly w' ∧ FreshTurn w.whole t ∧ turn w.whole t = some (w'.whole, events) := by
  have hfresh' : FreshTurn w.whole t := by
    cases t with
    | accepts => exact hfresh
    | starts | confirms | types | reads | awaits | ends | serves | others | stops => trivial
  simp only [step] at hstep
  cases hserver : OfServer t with
  | true =>
    simp only [hserver, if_true] at hstep
    split_ifs at hstep with hdone
    have hturn : turn w.whole t = some (w'.whole, events) := by
      rw [whole_nil hdone, turn_eq hserver, hstep, Option.map_some]
    refine ⟨⟨sound_step h.sound hfresh' hturn, ?_, ?_⟩, hfresh', hturn⟩
    · rcases serverTurn_ok hstep with ⟨-, hnil⟩ | ⟨-, env, event, hhandle, -⟩
      · rw [hnil]
        trivial
      · exact tidy_handle h.sound.consistent hhandle
    · intro hgone
      rcases serverTurn_ok hstep with ⟨-, hnil⟩ | ⟨hrunning, -⟩
      · exact hnil
      · simp [hgone] at hrunning
  | false =>
    simp only [hserver, Bool.false_eq_true, if_false] at hstep
    obtain ⟨⟨g, events'⟩, hown, heq⟩ := Option.map_eq_some_iff.mp hstep
    obtain ⟨rfl, rfl⟩ := Prod.mk.inj heq
    have hturn : turn w.whole t = some ((⟨g, w.outbox⟩ : Writing).whole, events') :=
      turn_hears hserver h.ending hown
    refine ⟨⟨sound_step h.sound hfresh' hturn, h.tidy, ?_⟩, hfresh', hturn⟩
    intro hgone
    exact h.ending ((running_own hserver hown).symm.trans hgone)

theorem whole_start (udpSockfd tcpSockfd : Int) :
    (Writing.start udpSockfd tcpSockfd).whole = Fleet.start udpSockfd tcpSockfd := whole_nil rfl

theorem orderly_start (udpSockfd tcpSockfd : Int) :
    Orderly (Writing.start udpSockfd tcpSockfd) where
  sound := whole_start udpSockfd tcpSockfd ▸ sound_start udpSockfd tcpSockfd
  tidy := trivial
  ending := fun _ => rfl

/-- The run of the fleet to come has the turns, and every effect leaves it where it is. -/
theorem whole_run (h : Orderly w) (hfresh : Along step FreshAction w actions)
    (hrun : exec step w actions = some (w', events)) :
    Orderly w' ∧ Along turn FreshTurn w.whole (turnsOf actions) ∧
      exec turn w.whole (turnsOf actions) = some (w'.whole, events) := by
  induction actions generalizing w events with
  | nil =>
    simp only [exec_nil, Option.some.injEq, Prod.mk.injEq] at hrun
    obtain ⟨rfl, rfl⟩ := hrun
    exact ⟨h, trivial, rfl⟩
  | cons a actions ih =>
    obtain ⟨w₁, o, o', hstep, hrest, rfl⟩ := exec_cons.mp hrun
    cases a with
    | delivers =>
      obtain ⟨h₁, hwhole, rfl⟩ := whole_delivers h hstep
      obtain ⟨hend, halong, hexec⟩ := ih h₁ (hfresh.2 w₁ _ hstep) hrest
      rw [hwhole] at halong hexec
      exact ⟨hend, halong, hexec⟩
    | turns t =>
      obtain ⟨h₁, hfresh₁, hturn⟩ := whole_turns h hfresh.1 hstep
      obtain ⟨hend, halong, hexec⟩ := ih h₁ (hfresh.2 w₁ _ hstep) hrest
      refine ⟨hend, ⟨hfresh₁, ?_⟩, exec_cons.mpr ⟨_, _, _, hturn, hexec, rfl⟩⟩
      intro f o₁ hturn'
      rw [hturn, Option.some.injEq, Prod.mk.injEq] at hturn'
      exact hturn'.1 ▸ halong

/-- Blocking sends refine sends that never block: with every effect of a handler a step
of its own, and any turns of the processes in between, the turns of a run are a run of
the fleet whose server does everything at once. It has the same tables, and every process
is where it is there, but for the end of its stream that is still to come. -/
theorem writes_as_in_one_piece {udpSockfd tcpSockfd : Int}
    (hfresh : Along step FreshAction (Writing.start udpSockfd tcpSockfd) actions)
    (hrun : exec step (Writing.start udpSockfd tcpSockfd) actions = some (w, events)) :
    ∃ f, exec turn (Fleet.start udpSockfd tcpSockfd) (turnsOf actions) = some (f, events) ∧
      Along turn FreshTurn (Fleet.start udpSockfd tcpSockfd) (turnsOf actions) ∧
      f.server = w.fleet.server ∧ f.running = w.fleet.running ∧
      (∀ p, (f.peers p).isSome = (w.fleet.peers p).isSome) ∧
      (∀ p q q', w.fleet.peers p = some q → f.peers p = some q' →
        q'.id = q.id ∧ q'.stage = q.stage ∧ q'.up = q.up ∧ q.down <+: q'.down) ∧
      (w.outbox = [] → f = w.fleet) := by
  obtain ⟨-, halong, hexec⟩ := whole_run (orderly_start udpSockfd tcpSockfd) hfresh hrun
  rw [whole_start] at halong hexec
  refine ⟨w.whole, hexec, halong, rfl, rfl, ?_, ?_, whole_nil⟩
  · intro p
    exact Option.isSome_map
  · intro p q q' hq hq'
    have hheard : w.whole.peers p = some (q.hear w.outbox) := peers_serve_some hq w.outbox
    rw [hheard, Option.some.injEq] at hq'
    subst hq'
    rw [hear_eq]
    exact ⟨rfl, rfl, rfl, List.prefix_append q.down _⟩

/-- A process reads its admission while the server is about to print the line for it. -/
def between : List Action :=
  [.turns (.starts 0 Env.plain (ascii "a")),
    .turns (.accepts 0 Env.plain ⟨(127, 0, 0, 1), 1⟩ 5 []),
    .turns (.starts 1 Env.plain (ascii "b")), .delivers, .turns (.confirms 0 [])]

theorem writes_as_in_one_piece_between : ∃ w events f,
    exec step (Writing.start 3 4) between = some (w, events) ∧
      exec turn (Fleet.start 3 4) (turnsOf between) = some (f, events) ∧
      f.server = w.fleet.server := by
  obtain ⟨⟨w, events⟩, hrun⟩ := Option.isSome_iff_exists.mp
    (show (exec step (Writing.start 3 4) between).isSome by rfl)
  obtain ⟨f, hexec, -, hserver, -⟩ := writes_as_in_one_piece (by decide) hrun
  exact ⟨w, events, f, hrun, hexec, hserver⟩

end Refinement

section Progress

variable {room : List Frame → Bytes → Prop} {P : Finset ℕ} {w w' : Writing} {a : Action}
  {events : List (Env × Event)}

/-- The next effect can be done: if it is a message, its process has ended, or has room
for it behind the frames it has not read. -/
def Deliverable (room : List Frame → Bytes → Prop) (w : Writing) : Prop :=
  ∀ fd wire rest p q, w.outbox = .wrote fd wire :: rest → w.fleet.peers p = some q →
    q.link = .held fd → q.stage = .past .stopped ∨ room q.down wire

def OwedAction (room : List Frame → Bytes → Prop) (w : Writing) : Action → Prop
  | .turns t => OwedTurn w.fleet t
  | .delivers => Deliverable room w

theorem reading_own {f : Fleet} {p : ℕ} {t : Fleets.Turn} (h : Reading p t) :
    OwedTurn f t ∧ OfServer t = false := by
  obtain ⟨calls, rfl | rfl | rfl⟩ := h
  · exact ⟨⟨trivial, rfl⟩, rfl⟩
  · exact ⟨⟨trivial, rfl⟩, rfl⟩
  · exact ⟨⟨trivial, rfl⟩, rfl⟩

/-- A turn of the server puts three effects at most into the outbox, and counts four. -/
def potential (P : Finset ℕ) (w : Writing) : ℕ := 4 * load P w.whole + w.outbox.length

def RunningWithin (P : Finset ℕ) (w : Writing) : Prop :=
  Orderly w ∧ w.whole.running = true ∧ ∀ p q, w.whole.peers p = some q → p ∈ P

theorem moving_step (h : RunningWithin P w) (howed : OwedAction room w a)
    (hstep : step w a = some (w', events)) :
    RunningWithin P w' ∧ potential P w' < potential P w := by
  obtain ⟨horderly, hrunning, hall⟩ := h
  cases a with
  | delivers =>
    obtain ⟨horderly', hwhole, -⟩ := whole_delivers horderly hstep
    obtain ⟨effect, rest, hcons, rfl, -⟩ := delivers_ok hstep
    refine ⟨⟨horderly', hwhole ▸ hrunning, hwhole ▸ hall⟩, ?_⟩
    simp only [potential, hwhole, hcons, List.length_cons]
    omega
  | turns t =>
    obtain ⟨hfresh, howes⟩ := howed
    obtain ⟨horderly', hfresh', hturn⟩ := whole_turns horderly hfresh hstep
    have hlighter := lighter_step horderly.sound howes hfresh' hturn
    obtain ⟨hless, hall'⟩ := load_lt hall hlighter
    refine ⟨⟨horderly', hlighter.1.trans hrunning, hall'⟩, ?_⟩
    have hsmall : w'.outbox.length ≤ 3 ∨ w'.outbox = w.outbox := by
      simp only [step] at hstep
      split_ifs at hstep with hserver hdone
      · left
        rcases serverTurn_ok hstep with ⟨-, hnil⟩ | ⟨-, env, event, hhandle, hlocal⟩
        · simp [hnil]
        · exact handle_small horderly.sound.consistent hhandle (hlocal howes)
      · right
        obtain ⟨r, -, heq⟩ := Option.map_eq_some_iff.mp hstep
        rw [← (Prod.mk.inj heq).1]
    unfold potential
    rcases hsmall with hsmall | hsame
    · omega
    · rw [hsame]
      omega

def StuckOnReader (room : List Frame → Bytes → Prop) (w : Writing) : Prop :=
  ∃ fd wire rest p q, w.outbox = .wrote fd wire :: rest ∧ w.fleet.peers p = some q ∧
    q.link = .held fd ∧ ¬ room q.down wire ∧
    ∃ t, Reading p t ∧ (step w (.turns t)).isSome = true

theorem stuckOnReader (hroom : ∀ wire, room [] wire) (h : Orderly w)
    (hfull : ¬ Deliverable room w) : StuckOnReader room w := by
  simp only [Deliverable, not_forall, not_or] at hfull
  obtain ⟨fd, wire, rest, p, q, hout, hq, hlink, hlive, hfull⟩ := hfull
  have hdown : q.down ≠ [] := by
    intro hnil
    exact hfull (hnil ▸ hroom wire)
  have hreadable : ∀ frame ∈ q.down, Readable frame := by
    intro frame hmem
    refine (h.sound.fit p _ (peers_serve_some hq w.outbox)).readable frame ?_
    rw [hear_eq]
    exact List.mem_append_left _ hmem
  obtain ⟨t, hreads, hpossible⟩ := frame_goes_through hreadable hq hdown hlive steady_nil
  refine ⟨fd, wire, rest, p, q, hout, hq, hlink, hfull, t, hreads, ?_⟩
  simpa only [step, (reading_own (f := w.fleet) hreads).2, Bool.false_eq_true, if_false,
    Option.isSome_map] using hpossible

/-- Where nothing that is owed is possible the handler has returned. -/
theorem done_of_stuck (hroom : ∀ wire, room [] wire) (h : Orderly w)
    (hstuck : ∀ a, OwedAction room w a → step w a = none) : w.outbox = [] := by
  by_contra hne
  obtain ⟨effect, rest, hcons⟩ := List.exists_cons_of_ne_nil hne
  by_cases hgoes : Deliverable room w
  · have hnone := hstuck .delivers hgoes
    simp [step, hcons] at hnone
  · obtain ⟨fd, wire, rest', p, q, _, _, _, _, t, hreads, hpossible⟩ :=
      stuckOnReader hroom h hgoes
    rw [hstuck (.turns t) (reading_own hreads).1] at hpossible
    simp at hpossible

theorem still_of_stuck (hdone : w.outbox = [])
    (hstuck : ∀ a, OwedAction room w a → step w a = none) : Still w.fleet := by
  intro t hfresh howed
  have hnone := hstuck (.turns t) ⟨hfresh, howed⟩
  simp only [step] at hnone
  split_ifs at hnone with hserver
  · rw [turn_eq hserver, hnone, Option.map_none]
  · exact Option.map_eq_none_iff.mp hnone

def Single (down : List Frame) (_ : Bytes) : Prop := down = []

/-- A publication is to be sent to a subscriber that has not read the answer to its
request. -/
def clogged : List Action :=
  [.turns (.starts 0 Env.plain (ascii "a")),
    .turns (.accepts 0 Env.plain ⟨(127, 0, 0, 1), 1⟩ 5 []), .delivers, .delivers,
    .turns (.confirms 0 []), .turns (.types 0 Env.plain (ascii "subscribe t")),
    .turns (.serves 0 Env.plain 0 []), .delivers,
    .turns (.others Env.plain (.datagram (some Delivery.seven)))]

end Progress

end ServerClientApp.BlockingWrites
