import ServerClientApp.Settling

/-!
The exit of the server, seen from its subscribers. Once its process has ended nothing is
accepted or served any more, and the stream of every connection ends behind what was
written on it. The processes read up to that end: whatever they were doing all of them
end, and none that was alive leaves a frame unread.
-/

namespace ServerClientApp.Shutdown

open PartialTransfers Outcomes Runs Protocols Wildcards Datagrams ServerHandlers HandlerSpecs
  ServerRuns Ledger SubscriberHandlers SubscriberSpecs SubscriberProgram Fleets Settling
open Sessions (Phase Session written)

section Model

def Ended (q : Peer) : Prop := q.stage = .past .stopped

/-- It has read what was written to it, unless it is still at it. -/
def Drained (q : Peer) : Prop := Ended q → q.down = []

end Model

section Readers

variable {f g : Fleet} {p : ℕ} {q : Peer}

/-- A process that takes its answer as a denial has nothing else to read: the refusal is
all the server wrote, or the stream has ended. -/
theorem drained_confirms {down : List Frame} {valid : Bool} (h : Sound f)
    (hq : f.peers p = some q) (hstage : q.stage = .connecting)
    (hread : (∃ frame, q.down = frame :: down ∧
      (valid = true ↔ frame.command = connectAccepted)) ∨ down = []) :
    Drained { q with down, stage := .past (if valid then .idle else .stopped) } := by
  intro hended
  rcases hread with ⟨frame, hdown, hvalid⟩ | hnil
  · have hdenied : frame.command ≠ connectAccepted := by
      intro haccepted
      rw [hvalid.mpr haccepted] at hended
      simp [Ended] at hended
    cases (h.fit p q hq).order with
    | queued _ _ _ hempty => simp [hempty] at hdown
    | held _ _ _ hadmission =>
      obtain ⟨later, hfirst⟩ := hadmission hstage
      rw [hfirst, List.cons.injEq] at hdown
      rw [← hdown.1] at hdenied
      exact absurd rfl hdenied
    | refused _ _ honly =>
      rw [honly, List.cons.injEq] at hdown
      exact hdown.2.symm
    | finished _ hover => simp [hstage] at hover
  · exact hnil

/-- The loop is left at the end of the stream only, and the wait for an answer goes back
to the loop. -/
theorem drained_session {phase : Phase} {t : Sessions.Turn} {s' : Session}
    {log : List Sessions.Log} (hstage : q.stage = .past phase)
    (hown : ∃ calls, t = .reads calls ∨ t = .awaits calls)
    (hturned : Sessions.Turned 0 (f.session q phase) t s' log) :
    ¬ Ended q ∧ Drained (q.resume s') := by
  have hlive {phase' : Phase} (hphase : phase = phase') (hne : phase' ≠ .stopped) :
      ¬ Ended q := by
    simp [Ended, hstage, hphase, hne]
  constructor
  · cases hturned with
    | served | answered | closed | exited | noted | asked => simp at hown
    | shown hphase | ignored hphase | ended hphase => exact hlive hphase (by simp)
    | taken hphase | hungUp hphase => exact hlive hphase (by simp)
  · intro hended
    cases hturned with
    | served | answered | closed | exited | noted | asked => simp at hown
    | shown hphase | ignored hphase =>
      have hphase : phase = .idle := hphase
      simp [Ended, Peer.resume, Fleet.session, hphase] at hended
    | ended _ hdown => exact hdown
    | taken | hungUp => simp [Ended, Peer.resume] at hended

/-- Without the server a turn that is owed is one of a process that reads. -/
theorem reads_on {t : Fleets.Turn} {events : List (Env × Event)} (h : Sound f)
    (hgone : f.running = false) (howed : Owed t = true) (hstep : turn f t = some (g, events)) :
    events = [] ∧
      ∃ p q q', f.peers p = some q ∧ ¬ Ended q ∧ g = f.setPeer p q' ∧ Drained q' := by
  cases taken_turn hstep with
  | starts | types | ends | others | stops => simp [Owed] at howed
  | accepts _ _ _ hrunning | answers _ _ _ hrunning => simp [hrunning] at hgone
  | notices _ _ _ _ hrunning => simp [hrunning] at hgone
  | @confirms p calls q down valid hq hstage hread =>
    exact ⟨rfl, p, q, _, hq, by simp [Ended, hstage], rfl,
      drained_confirms h hq hstage (hread.imp_right fun hended => hended.2.1)⟩
  | @reads p calls q phase s' log hq hstage hact =>
    obtain ⟨hlive, hdrained⟩ := drained_session hstage ⟨calls, Or.inl rfl⟩
      (Sessions.turned_reads hact)
    exact ⟨rfl, p, q, _, hq, hlive, rfl, hdrained⟩
  | @awaits p calls q phase s' log hq hstage hact =>
    obtain ⟨hlive, hdrained⟩ := drained_session hstage ⟨calls, Or.inr rfl⟩
      (Sessions.turned_awaits hact)
    exact ⟨rfl, p, q, _, hq, hlive, rfl, hdrained⟩

end Readers

section End

variable {f g : Fleet} {p : ℕ} {q : Peer}

/-- At the end of the stream recv does not wait. -/
theorem incoming_over (hgone : f.running = false) (hdown : q.down = []) (phase : Phase) :
    (f.session q phase).incoming = some ([], []) := by
  simp [Session.incoming, Fleet.session, hdown, hgone]

theorem confirm_over (hgone : f.running = false) (hq : f.peers p = some q)
    (hstage : q.stage = .connecting) (hdown : q.down = []) :
    (turn f (.confirms p [])).isSome = true := by
  simp only [turn, confirmTurn, hq, Option.bind_eq_bind, Option.bind_some, hstage, if_true,
    incoming_over hgone hdown]
  rfl

theorem read_over (hgone : f.running = false) (hq : f.peers p = some q)
    (hstage : q.stage = .past .idle) (hdown : q.down = []) :
    (turn f (.reads p [])).isSome = true := by
  simp only [turn, sessionTurn, hq, Option.bind_eq_bind, Option.bind_some, hstage,
    Sessions.readTurn, session_phase, incoming_over hgone hdown]
  rfl

theorem await_over {command : UInt8} {topic : Topic} (hgone : f.running = false)
    (hq : f.peers p = some q) (hstage : q.stage = .past (.waiting command topic))
    (hdown : q.down = []) : (turn f (.awaits p [])).isSome = true := by
  simp only [turn, sessionTurn, hq, Option.bind_eq_bind, Option.bind_some, hstage,
    Sessions.awaitTurn, session_phase, incoming_over hgone hdown]
  rfl

/-- Without the server nobody waits for ever: a process that has not ended can read. -/
theorem ended_of_still (h : Sound f) (hgone : f.running = false) (hstill : Still f)
    (hq : f.peers p = some q) : Ended q := by
  by_contra hlive
  obtain ⟨t, hreads, hgoes⟩ : ∃ t, Reading p t ∧ (turn f t).isSome = true := by
    by_cases hdown : q.down = []
    · cases hstage : q.stage with
      | connecting => exact ⟨_, ⟨[], Or.inl rfl⟩, confirm_over hgone hq hstage hdown⟩
      | past phase =>
        cases phase with
        | idle => exact ⟨_, ⟨[], Or.inr (Or.inl rfl)⟩, read_over hgone hq hstage hdown⟩
        | waiting command topic =>
          exact ⟨_, ⟨[], Or.inr (Or.inr rfl)⟩, await_over hgone hq hstage hdown⟩
        | stopped => exact absurd hstage hlive
    · exact frame_goes_through (h.fit p q hq).readable hq hdown hlive steady_nil
  exact not_reading hstill hreads hgoes

/-- The fleet `g` after the server of `f` has gone: who was alive reads on, and who had
ended is as he was. -/
structure EndedWithin (P : Finset ℕ) (f g : Fleet) : Prop where
  sound : Sound g
  gone : g.running = false
  known : ∀ p q, g.peers p = some q → p ∈ P
  same : g.server = f.server
  reads : ∀ p q, f.peers p = some q → ¬ Ended q → ∃ q', g.peers p = some q' ∧ Drained q'
  rests : ∀ p q, f.peers p = some q → Ended q → g.peers p = some q

theorem leaving_step {P : Finset ℕ} {g' : Fleet} {t : Fleets.Turn} {events : List (Env × Event)}
    (h : EndedWithin P f g) (howed : OwedTurn g t) (hstep : turn g t = some (g', events)) :
    EndedWithin P f g' ∧ load P g' < load P g := by
  have hlighter := lighter_step h.sound howed.2 howed.1 hstep
  obtain ⟨hless, hknown⟩ := load_lt h.known hlighter
  obtain ⟨-, p₀, q₀, q₁, hq₀, hlive, rfl, hdrained⟩ := reads_on h.sound h.gone howed.2 hstep
  refine ⟨⟨sound_step h.sound howed.1 hstep, h.gone, hknown, h.same, ?_, ?_⟩, hless⟩
  · intro p q hq hq'
    by_cases hp : p = p₀
    · subst hp
      exact ⟨q₁, setPeer_self g p q₁, hdrained⟩
    · rw [setPeer_other hp]
      exact h.reads p q hq hq'
  · intro p q hq hended
    have hrest := h.rests p q hq hended
    have hp : p ≠ p₀ := by
      rintro rfl
      rw [hq₀, Option.some.injEq] at hrest
      exact hlive (hrest ▸ hended)
    rw [setPeer_other hp]
    exact hrest

/-- The exit of the server ends its subscribers, in whatever order they take turns: from
every state of every run in which the server has ended only boundedly many turns are
owed, they leave its tables alone, and as long as one process is alive one of them is
possible; a process that was alive ends with everything read the server had written to
it. -/
theorem exit_ends_everyone {udpSockfd tcpSockfd : Int} {turns : List Fleets.Turn}
    {events : List (Env × Event)}
    (hfresh : Along turn FreshTurn (Fleet.start udpSockfd tcpSockfd) turns)
    (hrun : exec turn (Fleet.start udpSockfd tcpSockfd) turns = some (f, events))
    (hgone : f.running = false) :
    ∃ n, ∀ owed g events', Along turn OwedTurn f owed → exec turn f owed = some (g, events') →
      owed.length ≤ n ∧ g.server = f.server ∧
      ((∀ t, FreshTurn g t → Owed t = true → turn g t = none) →
        ∀ p q, f.peers p = some q → ∃ q', g.peers p = some q' ∧ Ended q' ∧
          q'.down = if q.stage = .past .stopped then q.down else []) := by
  obtain ⟨P, hknown⟩ : Populated f :=
    exec_invariant (fun _ _ _ _ h hfresh hstep => populated_step h hfresh hstep)
      ⟨∅, by simp [Fleet.start]⟩ hfresh hrun
  have hstart : EndedWithin P f f :=
    ⟨sound_run hfresh hrun, hgone, hknown, rfl,
      fun p q hq hlive => ⟨q, hq, fun hended => absurd hended hlive⟩, fun p q hq _ => hq⟩
  refine ⟨load P f, ?_⟩
  intro owed g events' howed hrest
  obtain ⟨hleaving, hbound⟩ :=
    exec_bounded (fun _ _ _ _ h howed hstep => leaving_step h howed hstep) hstart howed hrest
  refine ⟨by omega, hleaving.same, ?_⟩
  intro hstill p q hq
  split_ifs with hended
  · have hq' := hleaving.rests p q hq hended
    exact ⟨q, hq', hended, rfl⟩
  · obtain ⟨q', hq', hdrained⟩ := hleaving.reads p q hq hended
    have hended' : Ended q' := ended_of_still hleaving.sound hleaving.gone hstill hq'
    exact ⟨q', hq', hended', hdrained hended'⟩

/-- The server ends while one process waits for the answer to its id. -/
theorem exit_ends_everyone_rivals : ∃ f events n,
    exec turn (Fleet.start 3 4) (FleetGuarantees.rivals ++ [.stops]) = some (f, events) ∧
      (f.peers 1).map Peer.stage = some .connecting ∧
      ∀ owed g events', Along turn OwedTurn f owed → exec turn f owed = some (g, events') →
        owed.length ≤ n ∧ g.server = f.server ∧
        ((∀ t, FreshTurn g t → Owed t = true → turn g t = none) →
          ∀ p q, f.peers p = some q → ∃ q', g.peers p = some q' ∧ Ended q' ∧
            q'.down = if q.stage = .past .stopped then q.down else []) := by
  obtain ⟨⟨f, events⟩, hrun⟩ := Option.isSome_iff_exists.mp
    (show (exec turn (Fleet.start 3 4) (FleetGuarantees.rivals ++ [.stops])).isSome by rfl)
  have hvalue : (exec turn (Fleet.start 3 4) (FleetGuarantees.rivals ++ [.stops])).map
      (fun r => (r.1.running, (r.1.peers 1).map Peer.stage)) =
        some (false, some .connecting) := by rfl
  rw [hrun, Option.map_some, Option.some.injEq, Prod.mk.injEq] at hvalue
  obtain ⟨n, hends⟩ := exit_ends_everyone (by decide) hrun hvalue.1
  exact ⟨f, events, n, hrun, hvalue.2, hends⟩

end End

end ServerClientApp.Shutdown
