import ServerClientApp.ClientLoop
import ServerClientApp.FleetGuarantees
import ServerClientApp.StarLanguages
import Mathlib.Algebra.Order.BigOperators.Group.Finset
import Mathlib.Data.Set.Finite.Basic

/-!
A fleet that is left alone settles. While no process starts, ends or is typed at, the
turns that are owed are those of accept, of the server at its descriptors, and of the
processes at their streams. Each of them lowers a weight, so there are finitely many in
any order; and where none is left nobody waits and nothing is on its way.
-/

namespace ServerClientApp.Settling

open PartialTransfers Outcomes Runs Protocols Wildcards Datagrams ServerHandlers HandlerSpecs
  ServerRuns Ledger SubscriberHandlers SubscriberSpecs SubscriberProgram Fleets
open Sessions (Phase Session written concerns)

section Model

/-- A turn in which something that is on its way gets where it goes. -/
def Owed : Fleets.Turn → Bool
  | .confirms .. | .reads .. | .awaits .. | .accepts .. | .serves .. => true
  | .starts .. | .types .. | .ends _ | .others .. | .stops => false

def Reading (p : ℕ) (t : Fleets.Turn) : Prop :=
  ∃ calls, t = .confirms p calls ∨ t = .reads p calls ∨ t = .awaits p calls

def stageWeight : Stage → ℕ
  | .connecting | .past (.waiting ..) => 2
  | .past .idle => 1
  | .past .stopped => 0

def linkWeight : Link → ℕ
  | .queued | .held _ => 1
  | .severed => 0

/-- A frame on its way up may be answered with a frame on its way down. -/
def weight (q : Peer) : ℕ :=
  2 * q.up.length + q.down.length + linkWeight q.link + stageWeight q.stage

/-- The process waits for input and nothing is on its way, or it has ended and the
server has noticed. -/
def Settled (q : Peer) : Prop :=
  (q.stage = .past .idle ∧ (∃ fd, q.link = .held fd) ∧ q.up = [] ∧ q.down = []) ∨
    (q.stage = .past .stopped ∧ q.link = .severed)

end Model

section Weights

variable {f f' : Fleet} {p : ℕ} {q : Peer} {server : Server} {out : List Effect}
  {events : List (Env × Event)}

def Only (fd : Int) (out : List Effect) : Prop :=
  ∀ fd', fd' ≠ fd → written fd' out = [] ∧ .closed fd' ∉ out

theorem hear_elsewhere {fd : Int} (h : Only fd out) (hlink : q.link ≠ .held fd) :
    q.hear out = q := by
  cases hcase : q.link with
  | queued | severed => exact hear_silent (by simp [hcase])
  | held fd' =>
    have hne : fd' ≠ fd := by
      intro heq
      exact hlink (heq ▸ hcase)
    rw [hear_held hcase, (h fd' hne).1, if_neg (h fd' hne).2, List.append_nil, ← hcase]

/-- Where nobody else has the descriptor one process changes. -/
theorem peers_serve_own (server : Server) {fd : Int} (h : Only fd out)
    (hothers : ∀ p' q', p' ≠ p → f.peers p' = some q' → q'.link ≠ .held fd) (q : Peer) :
    ((f.setPeer p q).serve server out).peers = Function.update f.peers p (some (q.hear out)) := by
  funext p'
  by_cases hp : p' = p
  · subst hp
    rw [peers_serve, setPeer_self, Function.update_self, Option.map_some]
  · rw [peers_serve, setPeer_other hp, Function.update_of_ne hp]
    cases hq' : f.peers p' with
    | none => rfl
    | some q' => rw [Option.map_some, hear_elsewhere h (hothers p' q' hp hq')]

/-- One process is lighter and everything else is as it was. -/
def Lighter (f f' : Fleet) : Prop :=
  f'.running = f.running ∧ ∃ p q q', f.peers p = some q ∧
    f'.peers = Function.update f.peers p (some q') ∧ weight q' < weight q

theorem lighter_confirms {down : List Frame} {valid : Bool} (hstage : q.stage = .connecting)
    (hshorter : down.length ≤ q.down.length) :
    weight { q with down, stage := .past (if valid then .idle else .stopped) } < weight q := by
  have hstep : stageWeight (.past (if valid then .idle else .stopped)) < stageWeight q.stage := by
    rw [hstage]
    cases valid <;> decide
  unfold weight
  dsimp only
  omega

/-- Reading a frame, or the end of the stream, in the loop or in the wait for an answer. -/
theorem lighter_session {phase : Phase} {t : Sessions.Turn} {s' : Session} {log : List Sessions.Log}
    (hstage : q.stage = .past phase) (hown : ∃ calls, t = .reads calls ∨ t = .awaits calls)
    (h : Sessions.Turned 0 (f.session q phase) t s' log) : weight (q.resume s') < weight q := by
  have hshorter {frame : Frame} {down : List Frame} (hdown : q.down = frame :: down) :
      down.length < q.down.length := by
    rw [hdown]
    exact Nat.lt_succ_self _
  unfold weight Peer.resume
  rw [hstage]
  cases h with
  | served | answered | closed | exited | noted | asked => simp at hown
  | shown _ hdown | ignored _ hdown =>
    have hless := hshorter hdown
    simp only [Fleet.session]
    omega
  | ended hphase =>
    have hphase : phase = .idle := hphase
    subst hphase
    simp only [Fleet.session, stageWeight]
    omega
  | taken hphase hdown =>
    have hphase : phase = .waiting _ _ := hphase
    have hless := hshorter hdown
    subst hphase
    simp only [Fleet.session, stageWeight]
    omega
  | hungUp hphase =>
    have hphase : phase = .waiting _ _ := hphase
    subst hphase
    simp only [Fleet.session, stageWeight]
    omega

theorem only_wrote (fd : Int) (frame : Frame) : Only fd [.wrote fd frame.encode] := by
  intro fd' hne
  simp [written, Ne.symm hne]

theorem linkWeight_le (link : Link) : linkWeight link ≤ 1 := by
  cases link with
  | queued | held => exact le_refl 1
  | severed => exact Nat.zero_le 1

/-- A frame is taken from a process and at most one written to it. -/
theorem weight_heard {q₁ : Peer} {fd : Int} {frame : Frame} (hheld : q₁.link = .held fd)
    (hup : q.up = frame :: q₁.up) (hdown : q₁.down = q.down) (hstage : q₁.stage = q.stage)
    (hlink : linkWeight q.link = 1) (hone : (written fd out).length ≤ 1) :
    weight (q₁.hear out) < weight q := by
  have hafter := linkWeight_le (if .closed fd ∈ out then .severed else .held fd)
  rw [hear_held hheld]
  simp only [weight, hup, hlink, hdown, hstage, List.length_append, List.length_cons]
  omega

theorem lighter_accepts {env : Env} {addr : SockAddr} {fd : Int} {frame : Frame}
    {up : List Frame} {calls : List Call} (hsound : Sound f)
    (hfresh : fd ∉ f.server.pollFds.map PollFd.fd) (hq : f.peers p = some q)
    (hqueued : q.link = .queued) (hup : q.up = frame :: up)
    (hhandle : ServerRuns.handle env f.server (.connection addr fd
      ⟨frame.encode ++ up.flatMap Frame.encode, calls⟩) = some (server, out)) :
    Lighter f ((f.setPeer p { q with link := .held fd, up }).serve server out) := by
  obtain ⟨horder, hname, -⟩ := hsound.fit p q hq
  have hothers : ∀ p' q', p' ≠ p → f.peers p' = some q' → q'.link ≠ .held fd := by
    intro p' q' _ hq' hlink
    exact hfresh (clientFds_subset _ (hsound.open hq' hlink).2)
  have hwaiting : linkWeight q.link = 1 := by rw [hqueued]; rfl
  cases horder with
  | held hlink | refused hlink | finished hlink => simp [hqueued] at hlink
  | queued hfits _ honly =>
    have hframe : frame = Frame.ofText connectReq q.id hfits := by
      rw [honly, List.cons.injEq] at hup
      exact hup.1.symm
    subst hframe
    obtain ⟨-, ⟨-, rfl, rfl⟩ | ⟨-, rfl, rfl⟩⟩ := accept_id hname hhandle
    · have hanswer : Only fd (refusal q.id fd) := by
        intro fd' hne
        simp [refusal, written, hne, Ne.symm hne]
      refine ⟨rfl, p, q, _, hq, peers_serve_own _ hanswer hothers _, ?_⟩
      refine weight_heard rfl hup rfl rfl hwaiting ?_
      have hwritten : written fd (refusal q.id fd) = [Frame.bare connectDenied] :=
        Sessions.written_encode _
      rw [hwritten, List.length_singleton]
    · have hanswer : Only fd (admission f.server q.id addr fd) := by
        intro fd' hne
        simp [admission, written, Ne.symm hne]
      refine ⟨rfl, p, q, _, hq, peers_serve_own _ hanswer hothers _, ?_⟩
      refine weight_heard rfl hup rfl rfl hwaiting ?_
      have hwritten : written fd (admission f.server q.id addr fd) =
          [Frame.bare connectAccepted] := Sessions.written_encode _
      rw [hwritten, List.length_singleton]

/-- Only one process holds a descriptor. -/
theorem not_held {fd : Int} (h : Sound f) (hq : f.peers p = some q) (hlink : q.link = .held fd) :
    ∀ p' q', p' ≠ p → f.peers p' = some q' → q'.link ≠ .held fd := by
  intro p' q' hne hq' hlink'
  exact hne (h.exclusive p' p q' q fd hq' hq hlink' hlink)

theorem lighter_answers {env : Env} {k : ℕ} {fd : Int} {frame : Frame} {up : List Frame}
    {calls : List Call} (hsound : Sound f) (hq : f.peers p = some q) (hlink : q.link = .held fd)
    (hup : q.up = frame :: up)
    (hhandle : ServerRuns.handle env f.server (.readable k fd
      ⟨frame.encode ++ up.flatMap Frame.encode, calls⟩) = some (server, out)) :
    Lighter f ((f.setPeer p { q with up }).serve server out) := by
  obtain ⟨-, answer, -, rfl⟩ := answered_request hsound.consistent hhandle
  refine ⟨rfl, p, q, _, hq,
    peers_serve_own _ (only_wrote fd _) (not_held hsound hq hlink) _, ?_⟩
  refine weight_heard hlink hup rfl rfl (by rw [hlink]; rfl) ?_
  rw [Sessions.written_encode, List.length_singleton]

theorem lighter_notices {env : Env} {k : ℕ} {fd : Int} {calls : List Call} (hsound : Sound f)
    (hq : f.peers p = some q) (hlink : q.link = .held fd)
    (hhandle : ServerRuns.handle env f.server (.readable k fd ⟨[], calls⟩) = some (server, out)) :
    Lighter f (f.serve server out) := by
  cases served hsound.consistent hhandle with
  | answered hread hpos =>
    have hended := (recvEfficient_ended calls).1
    rw [hread] at hended
    omega
  | @left _ _ _ id c shown =>
    have hanswer : Only fd [.closed fd, .printed shown] := by
      intro fd' hne
      simp [written, hne]
    have hpeers := peers_serve_own (dismiss f.server id c (3 + k)) hanswer
      (not_held hsound hq hlink) q
    have hsame : f.setPeer p q = f := by
      unfold Fleet.setPeer
      rw [Function.update_eq_self_iff.mpr hq.symm]
    rw [hsame] at hpeers
    refine ⟨rfl, p, q, _, hq, hpeers, ?_⟩
    rw [hear_held hlink, if_pos List.mem_cons_self]
    simp only [weight, hlink, linkWeight, written, List.filterMap_cons, List.filterMap_nil,
      List.append_nil]
    omega

/-- Every owed turn makes one process lighter. -/
theorem lighter_step {t : Fleets.Turn} (h : Sound f) (howed : Owed t = true)
    (hfresh : FreshTurn f t) (hstep : turn f t = some (f', events)) : Lighter f f' := by
  cases taken_turn hstep with
  | starts | types | ends | others | stops => simp [Owed] at howed
  | confirms hq hstage hread =>
    refine ⟨rfl, _, _, _, hq, peers_eq_setPeer .., lighter_confirms hstage ?_⟩
    rcases hread with ⟨frame, hdown, -⟩ | ⟨-, rfl, -⟩
    · rw [hdown]
      exact Nat.le_succ _
    · exact Nat.zero_le _
  | reads hq hstage hact =>
    exact ⟨rfl, _, _, _, hq, peers_eq_setPeer ..,
      lighter_session hstage ⟨_, Or.inl rfl⟩ (Sessions.turned_reads hact)⟩
  | awaits hq hstage hact =>
    exact ⟨rfl, _, _, _, hq, peers_eq_setPeer ..,
      lighter_session hstage ⟨_, Or.inr rfl⟩ (Sessions.turned_awaits hact)⟩
  | accepts hq hqueued hup _ hhandle => exact lighter_accepts h hfresh hq hqueued hup hhandle
  | answers hq hlink hup _ hhandle => exact lighter_answers h hq hlink hup hhandle
  | notices hq hlink _ _ _ hhandle => exact lighter_notices h hq hlink hhandle

def load (P : Finset ℕ) (f : Fleet) : ℕ := ∑ p ∈ P, (f.peers p).elim 0 weight

theorem load_lt {P : Finset ℕ} (hall : ∀ p q, f.peers p = some q → p ∈ P) (h : Lighter f f') :
    load P f' < load P f ∧ ∀ p q, f'.peers p = some q → p ∈ P := by
  obtain ⟨-, p, q, q', hq, hpeers, hless⟩ := h
  have hp : p ∈ P := hall p q hq
  constructor
  · refine Finset.sum_lt_sum ?_ ⟨p, hp, ?_⟩
    · intro p' _
      by_cases heq : p' = p
      · subst heq
        rw [hpeers, Function.update_self, hq]
        exact hless.le
      · rw [hpeers, Function.update_of_ne heq]
    · rw [hpeers, Function.update_self, hq]
      exact hless
  · intro p' q₁ hq₁
    by_cases heq : p' = p
    · exact heq ▸ hp
    · rw [hpeers, Function.update_of_ne heq] at hq₁
      exact hall p' q₁ hq₁

end Weights

section Progress

variable {f : Fleet} {p : ℕ} {q : Peer} {env : Env} {calls : List Call}

/-- A frame on the way is read whole by recv calls that do not fail. -/
theorem frame_arrives (frame : Frame) (h : Steady calls) :
    ∃ later, recvEfficient ⟨frame.encode, calls⟩ TcpMessage.zero =
      ⟨3 + frame.len.toNat, frame.message, ⟨[], later⟩⟩ := by
  obtain ⟨later, -, hread⟩ := recvEfficient_frame frame [] calls h
  rw [List.append_nil] at hread
  exact ⟨later, hread⟩

theorem not_died {n : ℕ} : die (decide ((3 + (n : Int)) < 0)) = pure () := by
  have hpos : ¬ (3 + (n : Int)) < 0 := by omega
  simp only [die, hpos, decide_false, Outcome.stopIf, Bool.false_eq_true, if_false]

theorem awaitConfirmation_arrives (frame : Frame) (h : Steady calls) :
    (awaitConfirmation ⟨frame.encode, calls⟩).toStep.isSome = true := by
  obtain ⟨later, hread⟩ := frame_arrives frame h
  simp only [awaitConfirmation, hread, not_died, pure_bind]
  split
  · rfl
  · rfl

theorem awaitAnswer_arrives (command : UInt8) (topic : Topic) (frame : Frame) (h : Steady calls) :
    (awaitAnswer command topic ⟨frame.encode, calls⟩).toStep.isSome = true := by
  obtain ⟨later, hread⟩ := frame_arrives frame h
  simp only [awaitAnswer, hread, not_died, pure_bind]
  rfl

theorem manageTcpData_arrives {frame : Frame} (hreadable : Readable frame) (h : Steady calls) :
    (manageTcpData ⟨frame.encode, calls⟩).toStep.isSome = true := by
  obtain ⟨later, hread⟩ := frame_arrives frame h
  have hne : ¬ (3 + (frame.len.toNat : Int)) = 0 := by omega
  simp only [manageTcpData, hread, not_died, pure_bind, hne, if_false]
  split
  · rfl
  · rename_i hcommand
    obtain ⟨text, htext⟩ := hreadable (not_not.mp hcommand)
    simp only [htext, Except.mapError, Outcome.ofExcept, pure_bind]
    rfl

theorem session_phase (f : Fleet) (q : Peer) (phase : Phase) : (f.session q phase).phase = phase :=
  rfl

theorem incoming_cons {frame : Frame} {down : List Frame} {phase : Phase}
    (h : q.down = frame :: down) : (f.session q phase).incoming = some (frame.encode, down) := by
  simp only [Session.incoming, Fleet.session, h]

/-- accept can take a waiting connection, and gets to the answer. -/
theorem accept_goes_through (h : Sound f) (hrunning : f.running = true) (hsends : env.Sends)
    (hcalls : Steady calls) (hq : f.peers p = some q) (hqueued : q.link = .queued) (addr : SockAddr)
    {fd : Int} (hfd : 0 ≤ fd) : (turn f (.accepts p env addr fd calls)).isSome = true := by
  obtain ⟨horder, hname, -⟩ := h.fit p q hq
  cases horder with
  | held hlink | refused hlink | finished hlink => simp [hqueued] at hlink
  | queued hfits _ honly =>
    obtain ⟨later, -, hread⟩ :=
      recvEfficient_frame (Frame.ofText connectReq q.id hfits) [] calls hcalls
    have hid : cString (Frame.ofText connectReq q.id hfits).message.payload = .ok q.id := by
      rw [Frame.message_ofText]
      exact cString_append_nul q.id [] hname
    have hgiven : ∃ s' out, manageConnectionRequest env f.server addr fd
        ⟨(Frame.ofText connectReq q.id hfits).encode ++ [], calls⟩ = ⟨out, .ok s'⟩ := by
      simp only [manageConnectionRequest_eq_ok, hread, hid]
      by_cases hconnected : f.server.Connected q.id
      · exact ⟨_, _, hfd, by omega, q.id, rfl, admitOrDecline_eq_ok.mpr
          (Or.inl ⟨hconnected, delivers_of_sends hsends _ _, rfl, rfl⟩)⟩
      · exact ⟨_, _, hfd, by omega, q.id, rfl, admitOrDecline_eq_ok.mpr
          (Or.inr ⟨hconnected, delivers_of_sends hsends _ _, rfl, rfl⟩)⟩
    obtain ⟨s', out, hact⟩ := hgiven
    simp only [turn, acceptTurn, hq, Option.bind_eq_bind, Option.bind_some, hqueued, honly,
      Fleet.handle, Fleet.setPeer, hrunning, if_true, ServerRuns.handle, List.flatMap_nil,
      Outcome.toStep_eq_some.mpr hact, Option.map_some, Option.isSome_some]

/-- The server can serve a connection with a frame to read, or at its end. -/
theorem serve_goes_through (h : Sound f) (hrunning : f.running = true) (hsends : env.Sends)
    (hcalls : Steady calls) (hq : f.peers p = some q) {fd : Int} (hlink : q.link = .held fd)
    (hready : q.up ≠ [] ∨ q.stage = .past .stopped) :
    ∃ k, (turn f (.serves p env k calls)).isSome = true := by
  obtain ⟨-, hopen⟩ := h.open hq hlink
  obtain ⟨k, hk⟩ := List.getElem?_of_mem hopen
  have hentry : (f.server.pollFds[3 + k]?).map PollFd.fd = some fd := by
    rw [← clientFds_getElem?]
    exact hk
  have hregistered := ClientLoop.registered_of_consistent h.consistent hopen
  have hserves (sock : Socket) (hreceives : ClientLoop.Receives sock) :
      (ServerRuns.handle env f.server (.readable k fd sock)).isSome = true := by
    rcases ClientLoop.serveClient_registered env (3 + k) hregistered hreceives with
      ⟨out, s', hserve, -⟩ | ⟨hnot, -⟩
    · rw [ServerRuns.handle, if_pos hentry, Outcome.toStep_eq_some.mpr hserve]
      rfl
    · exact absurd hsends hnot
  refine ⟨k, ?_⟩
  cases hup : q.up with
  | nil =>
    have hstopped : q.stage = .past .stopped := hready.resolve_left (by simp [hup])
    have hnonneg := (recvEfficient_keeps_steady ⟨[], calls⟩ TcpMessage.zero hcalls).1
    have hended := (recvEfficient_ended calls).1
    simp only [turn, serveTurn, hq, Option.bind_eq_bind, Option.bind_some, hlink, hup, hstopped,
      if_true, Fleet.handle, hrunning, Option.isSome_map]
    exact hserves _ (Or.inl (by omega))
  | cons frame up =>
    obtain ⟨later, -, hread⟩ := recvEfficient_frame frame (up.flatMap Frame.encode) calls hcalls
    have hreceives : ClientLoop.Receives ⟨frame.encode ++ up.flatMap Frame.encode, calls⟩ := by
      right
      obtain ⟨command, topic, hfits, -, hfree, rfl⟩ :=
        h.up_requests hq hlink frame (hup ▸ List.mem_cons_self)
      rw [hread]
      refine ⟨by dsimp only; omega, topic, ?_⟩
      rw [Frame.message_ofText]
      exact cString_append_nul topic [] hfree
    simp only [turn, serveTurn, hq, Option.bind_eq_bind, Option.bind_some, hlink, hup,
      Fleet.handle, Fleet.setPeer, hrunning, if_true, Option.isSome_map]
    exact hserves _ hreceives

/-- A process can take the next frame for the answer to its id. -/
theorem confirm_goes_through {frame : Frame} {down : List Frame} (hq : f.peers p = some q)
    (hstage : q.stage = .connecting) (hdown : q.down = frame :: down) (hcalls : Steady calls) :
    (turn f (.confirms p calls)).isSome = true := by
  obtain ⟨r, hr⟩ := Option.isSome_iff_exists.mp (awaitConfirmation_arrives frame hcalls)
  simp only [turn, confirmTurn, hq, Option.bind_eq_bind, Option.bind_some, hstage, if_true,
    incoming_cons hdown, hr, Option.map_some, Option.isSome_some]

/-- A process in its loop can take the next frame. -/
theorem read_goes_through {frame : Frame} {down : List Frame} (hreadable : Readable frame)
    (hq : f.peers p = some q) (hstage : q.stage = .past .idle) (hdown : q.down = frame :: down)
    (hcalls : Steady calls) : (turn f (.reads p calls)).isSome = true := by
  obtain ⟨r, hr⟩ := Option.isSome_iff_exists.mp (manageTcpData_arrives hreadable hcalls)
  simp only [turn, sessionTurn, hq, Option.bind_eq_bind, Option.bind_some, hstage,
    Sessions.readTurn, session_phase, incoming_cons hdown, hr, Option.map_some, Option.isSome_some]

/-- A process that waits for an answer can take the next frame for it. -/
theorem await_goes_through {frame : Frame} {down : List Frame} {command : UInt8} {topic : Topic}
    (hq : f.peers p = some q) (hstage : q.stage = .past (.waiting command topic))
    (hdown : q.down = frame :: down) (hcalls : Steady calls) :
    (turn f (.awaits p calls)).isSome = true := by
  obtain ⟨r, hr⟩ := Option.isSome_iff_exists.mp (awaitAnswer_arrives command topic frame hcalls)
  simp only [turn, sessionTurn, hq, Option.bind_eq_bind, Option.bind_some, hstage,
    Sessions.awaitTurn, session_phase, incoming_cons hdown, hr, Option.map_some, Option.isSome_some]

/-- A process that has not ended can take the next frame. -/
theorem frame_goes_through (hreadable : ∀ frame ∈ q.down, Readable frame)
    (hq : f.peers p = some q) (hdown : q.down ≠ []) (hlive : q.stage ≠ .past .stopped)
    (hcalls : Steady calls) : ∃ t, Reading p t ∧ (turn f t).isSome = true := by
  obtain ⟨frame, down, hcons⟩ := List.exists_cons_of_ne_nil hdown
  cases hstage : q.stage with
  | connecting =>
    exact ⟨_, ⟨calls, Or.inl rfl⟩, confirm_goes_through hq hstage hcons hcalls⟩
  | past phase =>
    cases phase with
    | idle =>
      have hfirst : Readable frame := hreadable frame (hcons ▸ List.mem_cons_self)
      exact ⟨_, ⟨calls, Or.inr (Or.inl rfl)⟩, read_goes_through hfirst hq hstage hcons hcalls⟩
    | waiting command topic =>
      exact ⟨_, ⟨calls, Or.inr (Or.inr rfl)⟩, await_goes_through hq hstage hcons hcalls⟩
    | stopped => exact absurd hstage hlive

end Progress

section Settled

variable {f g : Fleet} {p : ℕ} {q : Peer}

def Still (f : Fleet) : Prop := ∀ t, FreshTurn f t → Owed t = true → turn f t = none

theorem not_still {t : Fleets.Turn} (hstill : Still f) (hfresh : FreshTurn f t)
    (howed : Owed t = true) (h : (turn f t).isSome = true) : False := by
  rw [hstill t hfresh howed] at h
  exact absurd h (by decide)

theorem not_reading {t : Fleets.Turn} (hstill : Still f) (hreads : Reading p t)
    (h : (turn f t).isSome = true) : False := by
  obtain ⟨calls, rfl | rfl | rfl⟩ := hreads
  · exact not_still (t := .confirms p calls) hstill trivial rfl h
  · exact not_still (t := .reads p calls) hstill trivial rfl h
  · exact not_still (t := .awaits p calls) hstill trivial rfl h

theorem exists_fresh_fd (fds : List Int) : ∃ fd : Int, 0 ≤ fd ∧ fd ∉ fds := by
  obtain ⟨n, hn⟩ := StarLanguages.exists_fresh (fds.map Int.toNat)
  refine ⟨n, Int.natCast_nonneg n, ?_⟩
  intro hmem
  exact hn (List.mem_map.mpr ⟨n, hmem, Int.toNat_natCast n⟩)

/-- Where nothing is owed every process is settled. -/
theorem settled_of_still (h : Sound f) (hrunning : f.running = true) (hstill : Still f)
    (hq : f.peers p = some q) : Settled q := by
  have hdeaf (hdown : q.down ≠ []) : q.stage = .past .stopped := by
    by_contra hlive
    obtain ⟨t, hreads, hgoes⟩ :=
      frame_goes_through (h.fit p q hq).readable hq hdown hlive steady_nil
    exact not_reading hstill hreads hgoes
  cases (h.fit p q hq).order with
  | queued _ hlink =>
    obtain ⟨fd, hnonneg, hnew⟩ := exists_fresh_fd (f.server.pollFds.map PollFd.fd)
    exact (not_still hstill (t := .accepts p Env.plain ⟨(0, 0, 0, 0), 0⟩ fd []) hnew rfl
      (accept_goes_through h hrunning Env.plain_sends steady_nil hq hlink _ hnonneg)).elim
  | finished hlink hstopped => exact Or.inr ⟨hstopped, hlink⟩
  | refused _ hconnecting hdown => simp [hdeaf (by simp [hdown])] at hconnecting
  | held hlink _ _ hadmission hwaiting =>
    have hunready : ¬ (q.up ≠ [] ∨ q.stage = .past .stopped) := by
      intro hready
      obtain ⟨k, hserve⟩ :=
        serve_goes_through h hrunning Env.plain_sends steady_nil hq hlink hready
      exact not_still hstill (t := .serves p Env.plain k []) trivial rfl hserve
    obtain ⟨hup, hlive⟩ := not_or.mp hunready
    have hup : q.up = [] := not_not.mp hup
    have hdown : q.down = [] := by
      by_contra hne
      exact hlive (hdeaf hne)
    left
    refine ⟨?_, ⟨_, hlink⟩, hup, hdown⟩
    cases hstage : q.stage with
    | connecting =>
      obtain ⟨down, hfirst⟩ := hadmission hstage
      simp [hdown] at hfirst
    | past phase =>
      cases phase with
      | idle => rfl
      | waiting command topic => simpa [hup, hdown] using hwaiting command topic hstage
      | stopped => exact absurd hstage hlive

/-- The ids connected at the server are then those of the processes in their loops. -/
theorem connected_of_settled (h : Sound f) (hsettled : ∀ p q, f.peers p = some q → Settled q)
    (id : ClientId) : f.server.Connected id ↔
      ∃ p q, f.peers p = some q ∧ q.id = id ∧ q.stage = .past .idle := by
  constructor
  · intro hconnected
    obtain ⟨c, hc, hmark⟩ := hconnected
    obtain ⟨p, q, hq, hid, hlink⟩ :=
      h.owned id c.currFd (holder_eq_some.mpr ⟨c, hc, hmark, rfl⟩)
    rcases hsettled p q hq with ⟨hidle, -⟩ | ⟨-, hsevered⟩
    · exact ⟨p, q, hq, hid, hidle⟩
    · simp [hlink] at hsevered
  · intro hgiven
    obtain ⟨p, q, hq, rfl, hidle⟩ := hgiven
    rcases hsettled p q hq with ⟨-, ⟨fd, hlink⟩, -⟩ | ⟨hstopped, -⟩
    · obtain ⟨c, hc, hmark, -⟩ := holder_eq_some.mp (h.open hq hlink).1
      exact ⟨c, hc, hmark⟩
    · simp [hidle] at hstopped

def Populated (f : Fleet) : Prop := ∃ P : Finset ℕ, ∀ p q, f.peers p = some q → p ∈ P

theorem populated_setPeer (h : Populated f) (p : ℕ) (q : Peer) : Populated (f.setPeer p q) := by
  obtain ⟨P, hall⟩ := h
  refine ⟨insert p P, ?_⟩
  intro p' q' hq'
  rcases peers_setPeer hq' with ⟨rfl, -⟩ | ⟨-, hold⟩
  · exact Finset.mem_insert_self p' P
  · exact Finset.mem_insert_of_mem (hall p' q' hold)

theorem populated_serve (h : Populated f) (server : Server) (out : List Effect) :
    Populated (f.serve server out) := by
  obtain ⟨P, hall⟩ := h
  refine ⟨P, ?_⟩
  intro p q hq
  obtain ⟨q₀, hq₀, -⟩ := Option.map_eq_some_iff.mp hq
  exact hall p q₀ hq₀

theorem populated_step {t : Fleets.Turn} {events : List (Env × Event)} (h : Populated f)
    (hfresh : FreshTurn f t) (hstep : turn f t = some (g, events)) : Populated g := by
  cases turned hfresh hstep with
  | starts | moves => exact populated_setPeer h _ _
  | accepts | answers => exact populated_serve (populated_setPeer h _ _) _ _
  | notices | others => exact populated_serve h _ _
  | stops => exact h

def OwedTurn (f : Fleet) (t : Fleets.Turn) : Prop := FreshTurn f t ∧ Owed t = true

/-- The fleet is sound and runs, and all its processes are in the set. -/
def RunningWithin (P : Finset ℕ) (f : Fleet) : Prop :=
  Sound f ∧ f.running = true ∧ ∀ p q, f.peers p = some q → p ∈ P

theorem owed_step {P : Finset ℕ} {t : Fleets.Turn} {events : List (Env × Event)}
    (h : RunningWithin P f) (howed : OwedTurn f t) (hstep : turn f t = some (g, events)) :
    RunningWithin P g ∧ load P g < load P f := by
  obtain ⟨hsound, hrunning, hall⟩ := h
  have hlighter := lighter_step hsound howed.2 howed.1 hstep
  obtain ⟨hless, hall'⟩ := load_lt hall hlighter
  exact ⟨⟨sound_step hsound howed.1 hstep, hlighter.1.trans hrunning, hall'⟩, hless⟩

end Settled

end ServerClientApp.Settling
