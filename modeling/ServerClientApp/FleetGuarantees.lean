import ServerClientApp.Fleets

/-!
What holds of every fleet, however its processes and the server take turns: an id has
one process at a time, check_connection_validity tells what the server decided, and the
server sees a run in which established clients send requests only.
-/

namespace ServerClientApp.FleetGuarantees

open PartialTransfers Outcomes Runs Protocols Wildcards Datagrams ServerHandlers HandlerSpecs
  ServerRuns Ledger SubscriberHandlers SubscriberSpecs SubscriberProgram Fleets
open Sessions (Phase Session IsPublication written concerns)

section Exclusion

def Active (q : Peer) : Prop := ∃ phase, q.stage = .past phase ∧ phase ≠ .stopped

/-- The process has the id, and the server has its connection open. -/
def Occupies (f : Fleet) (p : ℕ) (id : ClientId) (fd : Int) : Prop :=
  ∃ q, f.peers p = some q ∧ q.id = id ∧ q.link = .held fd

variable {f : Fleet} {p p' : ℕ} {q : Peer} {id : ClientId} {fd fd' : Int}

theorem active_occupies (h : Sound f) (hq : f.peers p = some q) (hactive : Active q) :
    ∃ fd, Occupies f p q.id fd := by
  obtain ⟨phase, hstage, hlive⟩ := hactive
  cases (h.fit p q hq).order with
  | queued _ _ _ _ hcases => simp [hstage, hlive] at hcases
  | held hlink => exact ⟨_, q, hq, rfl, hlink⟩
  | refused _ hconnecting => simp [hstage] at hconnecting
  | finished _ hstopped => simp [hstage, hlive] at hstopped

theorem occupies_holder (h : Sound f) (hocc : Occupies f p id fd) :
    holder f.server id = some fd ∧ fd ∈ f.server.clientFds := by
  obtain ⟨q, hq, rfl, hlink⟩ := hocc
  exact h.open hq hlink

/-- Two processes whose connections are open do not share an id. -/
theorem occupies_unique (h : Sound f) (hocc : Occupies f p id fd) (hocc' : Occupies f p' id fd') :
    p = p' ∧ fd = fd' := by
  have hfd : some fd = some fd' :=
    (occupies_holder h hocc).1.symm.trans (occupies_holder h hocc').1
  rw [Option.some.injEq] at hfd
  subst hfd
  obtain ⟨q, hq, -, hlink⟩ := hocc
  obtain ⟨q', hq', -, hlink'⟩ := hocc'
  exact ⟨h.exclusive p p' q q' fd hq hq' hlink hlink', rfl⟩

variable {udpSockfd tcpSockfd : Int} {turns : List Turn} {events : List (Env × Event)}

/-- In every run of a fleet, at every moment: the ids connected at the server are those of
the processes whose connections are open, one process for each, under the descriptor of
that connection; every process that was admitted and has not ended is among them, so no
two of these have one id; and when every process with an open connection is admitted and
has not ended, the ids connected are exactly those of the admitted processes. -/
theorem one_process_per_id
    (hfresh : Along turn FreshTurn (Fleet.start udpSockfd tcpSockfd) turns)
    (hrun : exec turn (Fleet.start udpSockfd tcpSockfd) turns = some (f, events)) :
    (∀ id fd, holder f.server id = some fd ↔ ∃! p, Occupies f p id fd) ∧
    (∀ p q, f.peers p = some q → Active q →
      ∃ fd, Occupies f p q.id fd ∧ holder f.server q.id = some fd) ∧
    (∀ p p' q q', f.peers p = some q → f.peers p' = some q' → Active q → Active q' →
      q.id = q'.id → p = p') ∧
    ((∀ p q fd, f.peers p = some q → q.link = .held fd → Active q) →
      ∀ id, f.server.Connected id ↔ ∃ p q, f.peers p = some q ∧ q.id = id ∧ Active q) := by
  have h := sound_run hfresh hrun
  have hregistered : ∀ p q, f.peers p = some q → Active q →
      ∃ fd, Occupies f p q.id fd ∧ holder f.server q.id = some fd := by
    intro p q hq hactive
    obtain ⟨fd, hocc⟩ := active_occupies h hq hactive
    exact ⟨fd, hocc, (occupies_holder h hocc).1⟩
  refine ⟨?_, hregistered, ?_, ?_⟩
  · intro id fd
    constructor
    · intro hheld
      obtain ⟨p, q, hq, hid, hlink⟩ := h.owned id fd hheld
      exact ⟨p, ⟨q, hq, hid, hlink⟩, fun p' hocc' =>
        (occupies_unique h hocc' ⟨q, hq, hid, hlink⟩).1⟩
    · intro hunique
      obtain ⟨p, hocc, -⟩ := hunique
      exact (occupies_holder h hocc).1
  · intro p p' q q' hq hq' hactive hactive' hid
    obtain ⟨fd, hocc⟩ := active_occupies h hq hactive
    obtain ⟨fd', hocc'⟩ := active_occupies h hq' hactive'
    exact (occupies_unique h hocc (hid ▸ hocc')).1
  · intro hrest id
    constructor
    · intro hconnected
      obtain ⟨c, hc, hmark⟩ := hconnected
      obtain ⟨p, q, hq, hid, hlink⟩ :=
        h.owned id c.currFd (holder_eq_some.mpr ⟨c, hc, hmark, rfl⟩)
      exact ⟨p, q, hq, hid, hrest p q c.currFd hq hlink⟩
    · intro hgiven
      obtain ⟨p, q, hq, rfl, hactive⟩ := hgiven
      obtain ⟨fd, -, hheld⟩ := hregistered p q hq hactive
      obtain ⟨c, hc, hmark, -⟩ := holder_eq_some.mp hheld
      exact ⟨c, hc, hmark⟩

def rivals : List Fleets.Turn :=
  [.starts 0 Env.plain (ascii "a"), .starts 1 Env.plain (ascii "a"),
    .accepts 0 Env.plain ⟨(127, 0, 0, 1), 1⟩ 5 []]

theorem one_process_per_id_rivals : ∃ f events,
    exec turn (Fleet.start 3 4) rivals = some (f, events) ∧
      ∀ id fd, holder f.server id = some fd ↔ ∃! p, Occupies f p id fd := by
  obtain ⟨⟨f, events⟩, hrun⟩ := Option.isSome_iff_exists.mp
    (show (exec turn (Fleet.start 3 4) rivals).isSome by rfl)
  exact ⟨f, events, hrun, (one_process_per_id (by decide) hrun).1⟩

end Exclusion

section Handshake

variable {f f' g : Fleet} {p : ℕ} {q q' : Peer} {out : List Effect} {events : List (Env × Event)}

theorem hear_stage (out : List Effect) (q : Peer) : (q.hear out).stage = q.stage := by
  unfold Peer.hear
  split
  · rfl
  · rfl
  · rfl

def Keeps (id : ClientId) (link : Link) (q : Peer) : Prop :=
  q.id = id ∧ (q.link = link ∨ q.stage = .past .stopped)

variable {id : ClientId} {link : Link}

theorem Keeps.moved {atEnd : Bool} (h : Keeps id link q) (hmoved : Moved atEnd q q') :
    Keeps id link q' := by
  obtain ⟨hid, hlink⟩ := hmoved.same
  refine ⟨hid.trans h.1, ?_⟩
  rcases h.2 with hsame | hstopped
  · exact Or.inl (hlink.trans hsame)
  · right
    cases hmoved with
    | admitted hstage | denied hstage => simp [hstage] at hstopped
    | session hstage hlive => simp [hstage, hlive] at hstopped
    | ended => rfl

/-- A process with a descriptor has its admission in front of everything else. -/
def Admitted (q : Peer) : Prop :=
  ∀ fd, q.link = .held fd → q.stage = .connecting →
    ∃ down, q.down = Frame.bare connectAccepted :: down

theorem admitted_of_fit {s : Server} (h : Fit s q) : Admitted q := by
  intro fd hheld hstage
  cases h.order with
  | queued _ hlink | refused hlink | finished hlink => simp [hheld] at hlink
  | held _ _ _ hadmission => exact hadmission hstage

/-- A connection that has left the queue is closed by the server only if its process has
ended: an admitted process has no refusal to read. -/
theorem Keeps.hear {s' : Server} (hlink : link ≠ .queued) (h : Keeps id link q)
    (hadmitted : Admitted q) (hfit' : Fit s' (q.hear out)) : Keeps id link (q.hear out) := by
  refine ⟨(hear_id out q).trans h.1, ?_⟩
  rcases h.2 with hsame | hstopped
  · cases hcase : q.link with
    | queued => exact absurd (hsame.symm.trans hcase) hlink
    | severed =>
      rw [hear_silent (by simp [hcase])]
      exact Or.inl hsame
    | held fd =>
      cases hfit'.order with
      | queued _ hqueued =>
        rw [hear_held hcase] at hqueued
        dsimp only at hqueued
        split_ifs at hqueued
      | held hheld =>
        left
        rw [hheld, ← link_of_hear hheld, hsame]
      | refused _ hconnecting hdown =>
        rw [hear_stage] at hconnecting
        obtain ⟨down, hfirst⟩ := hadmitted fd hcase hconnecting
        rw [hear_held hcase, hfirst, List.cons_append, List.cons.injEq] at hdown
        exact absurd (congrArg Frame.command hdown.1) (by decide)
      | finished _ hstopped => exact Or.inr hstopped
  · exact Or.inr ((hear_stage out q).trans hstopped)

def Stays (p : ℕ) (id : ClientId) (link : Link) (f : Fleet) : Prop :=
  ∃ q, f.peers p = some q ∧ Keeps id link q

theorem stays_serve {f₁ : Fleet} {server : Server} (hlink : link ≠ .queued)
    (hsound : Sound (f₁.serve server out)) (hq : f₁.peers p = some q) (hkeeps : Keeps id link q)
    (hadmitted : Admitted q) : Stays p id link (f₁.serve server out) := by
  have hheard : (f₁.serve server out).peers p = some (q.hear out) := by
    rw [peers_serve, hq, Option.map_some]
  exact ⟨q.hear out, hheard, hkeeps.hear hlink hadmitted (hsound.fit p _ hheard)⟩

theorem stays_step {t : Fleets.Turn} (hlink : link ≠ .queued) (h : Sound f)
    (hstays : Stays p id link f) (hfresh : FreshTurn f t)
    (hstep : turn f t = some (f', events)) : Stays p id link f' := by
  have hsound := sound_step h hfresh hstep
  obtain ⟨q, hq, hkeeps⟩ := hstays
  have hadmitted := admitted_of_fit (h.fit p q hq)
  -- What the server reads is gone from one process, whose connection stays as it was.
  cases turned hfresh hstep with
  | @starts p₀ _ _ hnone =>
    have hne : p ≠ p₀ := by
      intro heq
      subst heq
      simp [hq] at hnone
    exact ⟨q, by rw [setPeer_other hne, hq], hkeeps⟩
  | @moves p₀ q₀ q' hq₀ hmoved =>
    by_cases hp : p = p₀
    · subst hp
      rw [hq, Option.some.injEq] at hq₀
      subst hq₀
      exact ⟨q', setPeer_self f p q', hkeeps.moved hmoved⟩
    · exact ⟨q, by rw [setPeer_other hp, hq], hkeeps⟩
  | @accepts p₀ q₀ frame up env addr fd _ _ _ hq₀ hqueued =>
    by_cases hp : p = p₀
    · subst hp
      rw [hq, Option.some.injEq] at hq₀
      subst hq₀
      have hstopped : q.stage = .past .stopped :=
        hkeeps.2.resolve_left fun hsame => hlink (hsame.symm.trans hqueued)
      refine stays_serve hlink hsound (setPeer_self f p _) ⟨hkeeps.1, Or.inr hstopped⟩ ?_
      intro _ _ hconnecting
      simp [hstopped] at hconnecting
    · exact stays_serve hlink hsound ((setPeer_other hp).trans hq) hkeeps hadmitted
  | @answers p₀ q₀ frame up _ _ _ _ _ _ hq₀ =>
    by_cases hp : p = p₀
    · subst hp
      rw [hq, Option.some.injEq] at hq₀
      subst hq₀
      exact stays_serve hlink hsound (setPeer_self f p { q with up }) hkeeps hadmitted
    · exact stays_serve hlink hsound ((setPeer_other hp).trans hq) hkeeps hadmitted
  | notices | others => exact stays_serve hlink hsound hq hkeeps hadmitted
  | stops => exact ⟨q, hq, hkeeps⟩

theorem stays_run {turns : List Fleets.Turn} (hlink : link ≠ .queued) (h : Sound f)
    (hstays : Stays p id link f) (hfresh : Along turn FreshTurn f turns)
    (hrun : exec turn f turns = some (g, events)) : Sound g ∧ Stays p id link g :=
  exec_invariant (I := fun f => Sound f ∧ Stays p id link f)
    (fun _ _ _ _ h hfresh hstep =>
      ⟨sound_step h.1 hfresh hstep, stays_step hlink h.1 h.2 hfresh hstep⟩)
    ⟨h, hstays⟩ hfresh hrun

/-- accept decides by the id alone: is there a process with it whose connection is open? -/
theorem accept_decides {env : Env} {addr : SockAddr} {fd : Int} {calls : List Call} (h : Sound f)
    (haccept : turn f (.accepts p env addr fd calls) = some (f', events)) :
    ∃ q, f.peers p = some q ∧
      ((∃ p' fd', Occupies f p' q.id fd') → f'.server = f.server ∧ Stays p q.id .severed f') ∧
      ((¬ ∃ p' fd', Occupies f p' q.id fd') → holder f'.server q.id = some fd ∧
        Stays p q.id (.held fd) f') := by
  obtain ⟨q, frame, up, server, out, hq, hqueued, hup, -, hhandle, rfl, -⟩ :=
    acceptTurn_ok haccept
  refine ⟨q, hq, ?_⟩
  obtain ⟨horder, hname, -⟩ := h.fit p q hq
  cases horder with
  | held hlink | refused hlink | finished hlink => simp [hqueued] at hlink
  | queued hfits _ honly =>
    rw [honly, List.cons.injEq] at hup
    obtain ⟨rfl, rfl⟩ := hup
    have hpeer : (((f.setPeer p { q with link := .held fd, up := [] }).serve server out).peers p) =
        some (({ q with link := .held fd, up := [] } : Peer).hear out) := by
      rw [peers_serve, setPeer_self, Option.map_some]
    rw [hear_held (q := { q with link := .held fd, up := [] }) rfl] at hpeer
    obtain ⟨-, ⟨hconnected, rfl, rfl⟩ | ⟨hidle, rfl, rfl⟩⟩ := accept_id hname hhandle
    · have htaken : ∃ p' fd', Occupies f p' q.id fd' := by
        obtain ⟨c, hc, hmark⟩ := hconnected
        obtain ⟨p', q', hq', hid, hlink⟩ :=
          h.owned q.id c.currFd (holder_eq_some.mpr ⟨c, hc, hmark, rfl⟩)
        exact ⟨p', c.currFd, q', hq', hid, hlink⟩
      refine ⟨fun _ => ⟨rfl, _, hpeer, rfl, Or.inl ?_⟩, fun hnot => absurd htaken hnot⟩
      rw [if_pos (by simp [refusal])]
    · have hfree : ¬ ∃ p' fd', Occupies f p' q.id fd' := by
        intro htaken
        obtain ⟨p', fd', hocc⟩ := htaken
        obtain ⟨c, hc, hmark, -⟩ := holder_eq_some.mp (occupies_holder h hocc).1
        exact hidle ⟨c, hc, hmark⟩
      refine ⟨fun htaken => absurd htaken hfree, fun _ => ⟨?_, _, hpeer, rfl, Or.inl ?_⟩⟩
      · exact (congrFun (holder_enrol f.server q.id fd) q.id).trans (Function.update_self ..)
      · rw [if_neg (by simp [admission])]

/-- check_connection_validity gives true exactly on an open connection. -/
theorem confirm_tells {calls : List Call} {link : Link} (h : Sound f)
    (hstays : Stays p id link f) (hlink : link ≠ .queued)
    (hconfirm : turn f (.confirms p calls) = some (f', events)) :
    ∃ q', f'.peers p = some q' ∧ q'.id = id ∧ f'.server = f.server ∧
      (∀ fd, link = .held fd → q'.stage = .past .idle ∧ q'.link = .held fd) ∧
      (link = .severed → q'.stage = .past .stopped) := by
  obtain ⟨f₁, hturn, heq⟩ := Option.map_eq_some_iff.mp hconfirm
  obtain ⟨rfl, rfl⟩ := Prod.mk.inj heq
  obtain ⟨q, down, valid, hq, hstage, rfl, hread⟩ := confirmTurn_ok hturn
  obtain ⟨q₀, hq₀, hid, hcases⟩ := hstays
  rw [hq, Option.some.injEq] at hq₀
  subst hq₀
  have hsame : q.link = link := hcases.resolve_right (by simp [hstage])
  refine ⟨_, setPeer_self f p _, hid, rfl, ?_, ?_⟩
  · intro fd hheld
    subst hheld
    obtain ⟨rest, hfirst⟩ := admitted_of_fit (h.fit p q hq) fd hsame hstage
    obtain ⟨frame, hdown, hvalid⟩ | ⟨hnil, -⟩ := hread
    · rw [hfirst, List.cons.injEq] at hdown
      rw [if_pos (hvalid.mpr (by rw [← hdown.1]; rfl))]
      exact ⟨rfl, hsame⟩
    · simp [hfirst] at hnil
  · intro hsevered
    subst hsevered
    cases (h.fit p q hq).order with
    | queued _ hlink' | held hlink' => simp [hsame] at hlink'
    | finished _ hstopped => simp [hstage] at hstopped
    | refused _ _ hrefusal =>
      obtain ⟨frame, hdown, hvalid⟩ | ⟨hnil, -⟩ := hread
      · rw [hrefusal, List.cons.injEq] at hdown
        rw [if_neg]
        intro hv
        have hcommand := hvalid.mp hv
        rw [← hdown.1] at hcommand
        exact absurd hcommand (by decide)
      · simp [hrefusal] at hnil

/-- In every run, a process whose connection is accepted is admitted exactly if no process
with its id has an open connection at that moment, and whatever happens until the process
reads the answer, check_connection_validity tells it so: it goes on to its loop, under its
id and on its descriptor, or it ends with the tables as they were. -/
theorem handshake_decided {udpSockfd tcpSockfd : Int} {before after : List Fleets.Turn}
    {env : Env} {addr : SockAddr} {fd : Int} {calls calls' : List Call} {g' : Fleet}
    {e₁ e₂ e₃ e₄ : List (Env × Event)}
    (hfresh : Along turn FreshTurn (Fleet.start udpSockfd tcpSockfd)
      (before ++ .accepts p env addr fd calls :: after))
    (hbefore : exec turn (Fleet.start udpSockfd tcpSockfd) before = some (f, e₁))
    (haccept : turn f (.accepts p env addr fd calls) = some (f', e₂))
    (hafter : exec turn f' after = some (g, e₃))
    (hconfirm : turn g (.confirms p calls') = some (g', e₄)) :
    ∃ q q', f.peers p = some q ∧ g'.peers p = some q' ∧ q'.id = q.id ∧
      ((∃ p' fd', Occupies f p' q.id fd') →
        f'.server = f.server ∧ q'.stage = .past .stopped) ∧
      ((¬ ∃ p' fd', Occupies f p' q.id fd') →
        holder f'.server q.id = some fd ∧ holder g'.server q.id = some fd ∧
          q'.stage = .past .idle ∧ q'.link = .held fd) := by
  have hsound := sound_run hfresh.initial hbefore
  have hlater := hfresh.later hbefore
  have hsound' := sound_step hsound hlater.1 haccept
  have hfresh' := hlater.2 f' e₂ haccept
  obtain ⟨q, hq, htaken, hfree⟩ := accept_decides hsound haccept
  by_cases hcase : ∃ p' fd', Occupies f p' q.id fd'
  · obtain ⟨hserver, hstays⟩ := htaken hcase
    obtain ⟨hsound₂, hstays₂⟩ := stays_run (by simp) hsound' hstays hfresh' hafter
    obtain ⟨q', hq', hid, -, -, hstopped⟩ := confirm_tells hsound₂ hstays₂ (by simp) hconfirm
    exact ⟨q, q', hq, hq', hid, fun _ => ⟨hserver, hstopped rfl⟩, fun hnot => absurd hcase hnot⟩
  · obtain ⟨hheld, hstays⟩ := hfree hcase
    obtain ⟨hsound₂, hstays₂⟩ := stays_run (by simp) hsound' hstays hfresh' hafter
    obtain ⟨q', hq', hid, hserver, hidle, -⟩ :=
      confirm_tells hsound₂ hstays₂ (by simp) hconfirm
    obtain ⟨hstage, hlink⟩ := hidle fd rfl
    have hsound₃ := sound_step (t := .confirms p calls') hsound₂ trivial hconfirm
    refine ⟨q, q', hq, hq', hid, fun htaken => absurd htaken hcase,
      fun _ => ⟨hheld, ?_, hstage, hlink⟩⟩
    exact hid ▸ (hsound₃.open hq' hlink).1

/-- The second rival is accepted while the first waits for its answer. -/
theorem handshake_decided_rivals : ∃ (f f' g' : Fleet) (q q' : Peer),
    f.peers 1 = some q ∧ (∃ p' fd', Occupies f p' q.id fd') ∧ f'.server = f.server ∧
      g'.peers 1 = some q' ∧ q'.id = q.id ∧ q'.stage = .past .stopped := by
  let second : Fleets.Turn := .accepts 1 Env.plain ⟨(127, 0, 0, 1), 2⟩ 6 []
  obtain ⟨e, hbefore⟩ := exec_final
    (show (exec turn (Fleet.start 3 4) rivals).isSome = true by rfl)
  obtain ⟨⟨g', events⟩, hrun⟩ := Option.isSome_iff_exists.mp
    (show (exec turn (final turn (Fleet.start 3 4) rivals)
      (second :: ([.confirms 0 []] ++ [.confirms 1 []]))).isSome by rfl)
  obtain ⟨f', e₂, _, haccept, hrest, -⟩ := exec_cons.mp hrun
  obtain ⟨g, e₃, _, hafter, hlast, -⟩ := exec_append.mp hrest
  obtain ⟨g₁, e₄, _, hconfirm, hnil, -⟩ := exec_cons.mp hlast
  obtain ⟨q, q', hq, hq', hid, htaken, -⟩ :=
    handshake_decided (by decide) hbefore haccept hafter hconfirm
  have hname : q.id = ascii "a" := by
    have hvalue : ((final turn (Fleet.start 3 4) rivals).peers 1).map Peer.id =
        some (ascii "a") := by rfl
    rw [hq, Option.map_some, Option.some.injEq] at hvalue
    exact hvalue
  have hoccupied : ∃ p' fd', Occupies (final turn (Fleet.start 3 4) rivals) p' q.id fd' :=
    ⟨0, 5, _, rfl, hname.symm, rfl⟩
  obtain ⟨hserver, hstopped⟩ := htaken hoccupied
  exact ⟨_, f', g₁, q, q', hq, hoccupied, hserver, hq', hid, hstopped⟩

end Handshake

section Refinement

variable {f f' : Fleet} {events : List (Env × Event)} {t : Fleets.Turn}

theorem request_of_frame {frame : Frame} (h : IsRequest frame) :
    (requestOf frame.message).isSome = true := by
  obtain ⟨command, topic, hfits, hcommand, hfree, rfl⟩ := h
  have htext : cString (Frame.ofText command topic hfits).message.payload = .ok topic := by
    rw [Frame.message_ofText]
    exact cString_append_nul topic [] hfree
  have hkept : (Frame.ofText command topic hfits).message.command = command := rfl
  simp only [requestOf, htext, hkept]
  rcases hcommand with rfl | rfl
  · rfl
  · rfl

/-- In one turn the server serves at most one event, and a lawful one. -/
theorem lawful_step (h : Sound f) (hfresh : FreshTurn f t)
    (hstep : turn f t = some (f', events)) :
    (events = [] ∧ f'.server = f.server) ∨
      ∃ i out, events = [i] ∧ Lawful f.server i ∧ step f.server i = some (f'.server, out) := by
  cases turned hfresh hstep with
  | starts | moves | stops => exact Or.inl ⟨rfl, rfl⟩
  | accepts hq hlink hup hnew hserve =>
    exact Or.inr ⟨_, _, rfl, ⟨hnew, trivial⟩, hserve⟩
  | @answers p q frame up env k fd calls server out hq hlink hup hserve =>
    refine Or.inr ⟨_, out, rfl, ⟨trivial, fun _ => ?_⟩, hserve⟩
    obtain ⟨later, hread⟩ := frame_read hserve
    rw [hread]
    exact request_of_frame (h.up_requests hq hlink frame (hup ▸ List.mem_cons_self))
  | @notices p q env k fd calls server out hq hlink hstage hserve =>
    refine Or.inr ⟨_, out, rfl, ⟨trivial, fun hpos => ?_⟩, hserve⟩
    have hended := (recvEfficient_ended calls).1
    omega
  | @others env event server out hlocal hserve =>
    refine Or.inr ⟨_, out, rfl, ?_, hserve⟩
    cases event with
    | line | datagram => exact ⟨trivial, trivial⟩
    | connection | readable => simp [Local] at hlocal

/-- The events served so far are a lawful run of the server to where it is. -/
def Serves (s₀ : Server) (f : Fleet) (events : List (Env × Event)) : Prop :=
  (∃ out, exec step s₀ events = some (f.server, out)) ∧ Along step Lawful s₀ events

theorem serves_step {s₀ : Server} {past : List (Env × Event)} (h : Sound f)
    (hserves : Serves s₀ f past) (hfresh : FreshTurn f t)
    (hstep : turn f t = some (f', events)) : Serves s₀ f' (past ++ events) := by
  obtain ⟨⟨out, hpast⟩, hlawful⟩ := hserves
  rcases lawful_step h hfresh hstep with ⟨rfl, hsame⟩ | ⟨i, out', rfl, hi, hserve⟩
  · rw [List.append_nil]
    exact ⟨⟨out, hsame ▸ hpast⟩, hlawful⟩
  · refine ⟨⟨out ++ out', ?_⟩, hlawful.concat ?_⟩
    · exact exec_append.mpr ⟨f.server, out, out', hpast, exec_single hserve, rfl⟩
    · intro s out₁ hrun
      rw [hpast, Option.some.injEq, Prod.mk.injEq] at hrun
      exact hrun.1 ▸ hi

/-- What a fleet does to its server is a run of the server alone, with the same end, in
which accept returns descriptors that are not open and established clients send
well-formed requests only: what is proved of lawful runs holds with real subscribers. -/
theorem fleet_serves_lawfully {udpSockfd tcpSockfd : Int} {turns : List Fleets.Turn}
    (hfresh : Along turn FreshTurn (Fleet.start udpSockfd tcpSockfd) turns)
    (hrun : exec turn (Fleet.start udpSockfd tcpSockfd) turns = some (f, events)) :
    (∃ out, exec step (Server.prepare udpSockfd tcpSockfd) events = some (f.server, out)) ∧
      Along step Lawful (Server.prepare udpSockfd tcpSockfd) events := by
  have hstart : Sound (Fleet.start udpSockfd tcpSockfd) ∧
      Serves (Server.prepare udpSockfd tcpSockfd) (Fleet.start udpSockfd tcpSockfd) [] :=
    ⟨sound_start udpSockfd tcpSockfd, ⟨[], rfl⟩, trivial⟩
  have hserves := exec_history
    (I := fun f past => Sound f ∧ Serves (Server.prepare udpSockfd tcpSockfd) f past)
    (fun _ _ _ _ _ h hfresh hstep =>
      ⟨sound_step h.1 hfresh hstep, serves_step h.1 h.2 hfresh hstep⟩)
    hstart hfresh hrun
  rw [List.nil_append] at hserves
  exact hserves.2

theorem fleet_serves_lawfully_rivals : ∃ f events out,
    exec turn (Fleet.start 3 4) rivals = some (f, events) ∧
      exec step (Server.prepare 3 4) events = some (f.server, out) := by
  obtain ⟨⟨f, events⟩, hrun⟩ := Option.isSome_iff_exists.mp
    (show (exec turn (Fleet.start 3 4) rivals).isSome by rfl)
  obtain ⟨⟨out, hserved⟩, -⟩ := fleet_serves_lawfully (by decide) hrun
  exact ⟨f, events, out, hrun, hserved⟩

end Refinement

end ServerClientApp.FleetGuarantees
