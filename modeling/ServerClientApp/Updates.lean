import ServerClientApp.FleetGuarantees
import ServerClientApp.Honoured
import ServerClientApp.PublishedTexts

/-!
The requests of a whole fleet. A line typed at any process is a request of its id; it is
on its way in the stream of that process and then in the account the server keeps of the
id. No request is lost, made twice or overtaken, also when processes with one id follow
each other, so what the server holds for an id is what was typed for it.
-/

namespace ServerClientApp.Updates

open PartialTransfers Outcomes Runs Protocols Wildcards Datagrams ServerHandlers HandlerSpecs
  ServerRuns Ledger SubscriberHandlers SubscriberSpecs Fleets FleetGuarantees
open Sessions (Phase Session Log typeTurn readTurn awaitTurn turned_types turned_reads
  turned_awaits tcpSockfd written written_encode)

section Typing

def typedRequest (line : Bytes) : Option Request :=
  match manageStdinData line with
  | .request command topic =>
    some (if command = subscribeReq then .subscribe topic else .unsubscribe topic)
  | .exit | .usage | .invalidTopic => none

/-- The request typed in a turn, with the id of the process it is typed at. -/
def typedBy (f : Fleet) : Fleets.Turn → Option (ClientId × Request)
  | .types p _ line => do
    let q ← f.peers p
    let request ← typedRequest line
    return (q.id, request)
  | .starts .. | .confirms .. | .reads .. | .awaits .. | .ends _ | .accepts .. | .serves ..
  | .others .. | .stops => none

def typedIn (f : Fleet) : List Fleets.Turn → List (ClientId × Request)
  | [] => []
  | t :: turns =>
    (typedBy f t).toList ++
      match turn f t with
      | some (f', _) => typedIn f' turns
      | none => []

def accountOf (id : ClientId) (typed : List (ClientId × Request)) : List Request :=
  (typed.filter fun entry => entry.1 = id).map Prod.snd

/-- The requests a process has sent that the server has not read. -/
def underway (q : Peer) : List Request := q.up.filterMap fun frame => requestOf frame.message

variable {f f' : Fleet} {q : Peer} {events : List (Env × Event)} {id : ClientId}

theorem accountOf_append (id : ClientId) (typed more : List (ClientId × Request)) :
    accountOf id (typed ++ more) = accountOf id typed ++ accountOf id more := by
  rw [accountOf, List.filter_append, List.map_append]
  rfl

theorem accountOf_own (id : ClientId) (request : Request) :
    accountOf id [(id, request)] = [request] := by
  simp [accountOf]

theorem accountOf_other {other : ClientId} (h : other ≠ id) (request : Request) :
    accountOf id [(other, request)] = [] := by
  simp [accountOf, h]

theorem requestOf_typed {command : UInt8} {topic : Topic} (h : topic.length + 1 < 2 ^ 16)
    (hcommand : command = subscribeReq ∨ command = unsubscribeReq) (hfree : NulFree topic) :
    requestOf (Frame.ofText command topic h).message =
      some (if command = subscribeReq then .subscribe topic else .unsubscribe topic) := by
  have htext : cString (Frame.ofText command topic h).message.payload = .ok topic := by
    rw [Frame.message_ofText]
    exact cString_append_nul topic [] hfree
  have hkept : (Frame.ofText command topic h).message.command = command := rfl
  simp only [requestOf, htext, hkept]
  rcases hcommand with rfl | rfl
  · rfl
  · rfl

/-- A typed line leaves the stream as it is, or puts its request behind it. -/
theorem typeTurn_up {s s' : Session} {env : Env} {line : Bytes} {log : List Log}
    (h : typeTurn s env line = some (s', log)) :
    (typedRequest line = none ∧ s'.up = s.up) ∨ ∃ request frame,
      typedRequest line = some request ∧ s'.up = s.up ++ [frame] ∧
        requestOf frame.message = some request := by
  unfold typeTurn at h
  cases hphase : s.phase with
  | waiting | stopped => simp [hphase] at h
  | idle =>
    simp only [hphase] at h
    cases hline : manageStdinData line with
    | exit | usage | invalidTopic =>
      simp only [hline, Option.some.injEq, Prod.mk.injEq] at h
      obtain ⟨rfl, -⟩ := h
      exact Or.inl ⟨by simp only [typedRequest, hline], rfl⟩
    | request command topic =>
      obtain ⟨hcommand, -, hlength, hfree, -⟩ := manageStdinData_request hline
      have hfits : topic.length + 1 < 2 ^ 16 := by omega
      simp only [hline, Option.bind_eq_bind, Option.bind_eq_some_iff, Prod.exists,
        Option.some.injEq, Prod.mk.injEq] at h
      obtain ⟨⟨⟩, out, hsend, rfl, -⟩ := h
      obtain ⟨-, rfl⟩ := (sendRequest_eq_ok hfits).mp (Outcome.toStep_eq_some.mp hsend)
      rw [written_encode]
      exact Or.inr ⟨_, Frame.ofText command topic hfits, by simp only [typedRequest, hline], rfl,
        requestOf_typed hfits hcommand hfree⟩

/-- What a process does to its own stream in a session. -/
theorem readTurn_up {s s' : Session} {calls : List Call} {log : List Log}
    (h : readTurn s calls = some (s', log)) : s'.up = s.up := by
  have hturned : Sessions.Turned 0 s _ s' log := turned_reads h
  cases hturned <;> rfl

theorem awaitTurn_up {s s' : Session} {calls : List Call} {log : List Log}
    (h : awaitTurn s calls = some (s', log)) : s'.up = s.up := by
  have hturned : Sessions.Turned 0 s _ s' log := turned_awaits h
  cases hturned <;> rfl

end Typing

section Conservation

variable {f f' : Fleet} {p : ℕ} {q : Peer} {events : List (Env × Event)} {id : ClientId}
  {b : Book} {typed : List (ClientId × Request)} {server : Server} {out : List Effect}

/-- For every id, what was typed is what the server has in its account, and behind it
what is on its way from the process that has the connection. -/
structure Accounted (f : Fleet) (b : Book) (typed : List (ClientId × Request)) : Prop where
  sound : Sound f
  kept : Kept f.server b
  held : ∀ p q fd, f.peers p = some q → q.link = .held fd →
    accountOf q.id typed = b.requests q.id ++ underway q
  idle : ∀ id, holder f.server id = none → accountOf id typed = b.requests id

theorem accounted_start (udpSockfd tcpSockfd : Int) :
    Accounted (Fleet.start udpSockfd tcpSockfd) Book.empty [] where
  sound := sound_start udpSockfd tcpSockfd
  kept := kept_prepare udpSockfd tcpSockfd
  held := by simp [Fleet.start]
  idle := fun _ _ => rfl

/-- A turn of a process that sends nothing. -/
theorem Accounted.silent {q' : Peer} (h : Accounted f b typed) (hsound : Sound (f.setPeer p q'))
    (hlink : ∀ fd, q'.link = .held fd → ∃ q, f.peers p = some q ∧ q.link = .held fd ∧
      q'.id = q.id ∧ q'.up = q.up) : Accounted (f.setPeer p q') b typed where
  sound := hsound
  kept := h.kept
  held := by
    intro p' q₁ fd hp' hheld
    rcases peers_setPeer hp' with ⟨rfl, rfl⟩ | ⟨-, hold⟩
    · obtain ⟨q, hq, hopen, hid, hup⟩ := hlink fd hheld
      rw [hid, underway, hup]
      exact h.held p' q fd hq hopen
    · exact h.held p' q₁ fd hold hheld
  idle := h.idle

theorem underway_sends {q' : Peer} {request : Request} {frame : Frame}
    (hup : q'.up = q.up ++ [frame]) (hrequest : requestOf frame.message = some request) :
    underway q' = underway q ++ [request] := by
  rw [underway, hup, List.filterMap_append, List.filterMap_cons, hrequest]
  rfl

/-- A process sends a request. -/
theorem Accounted.sends {q' : Peer} {fd : Int} {request : Request} {frame : Frame}
    (h : Accounted f b typed) (hsound : Sound (f.setPeer p q')) (hq : f.peers p = some q)
    (hlink : q.link = .held fd) (hid : q'.id = q.id) (hup : q'.up = q.up ++ [frame])
    (hrequest : requestOf frame.message = some request) :
    Accounted (f.setPeer p q') b (typed ++ [(q.id, request)]) where
  sound := hsound
  kept := h.kept
  held := by
    intro p' q₁ fd' hp' hheld
    rcases peers_setPeer hp' with ⟨rfl, rfl⟩ | ⟨hne, hold⟩
    · rw [hid, accountOf_append, accountOf_own, h.held p' q fd hq hlink,
        underway_sends hup hrequest, List.append_assoc]
    · have hother : q.id ≠ q₁.id := fun heq =>
        hne (occupies_unique h.sound ⟨q₁, hold, heq.symm, hheld⟩ ⟨q, hq, rfl, hlink⟩).1
      rw [accountOf_append, accountOf_other hother, List.append_nil]
      exact h.held p' q₁ fd' hold hheld
  idle := by
    intro id hnone
    have hother : q.id ≠ id := by
      intro heq
      have hheld := (h.sound.open hq hlink).1
      rw [heq, show holder f.server id = none from hnone] at hheld
      simp at hheld
    rw [accountOf_append, accountOf_other hother, List.append_nil]
    exact h.idle id hnone

theorem hear_up (out : List Effect) (q : Peer) : (q.hear out).up = q.up := by
  unfold Peer.hear
  split
  · rfl
  · rfl
  · rfl

/-- The server serves an event; `g` is the fleet with what it has read taken from the
stream. -/
theorem Accounted.serve {g : Fleet} {b' : Book} (hsound : Sound (g.serve server out))
    (hkept : Kept server b')
    (hheld : ∀ p q fd, g.peers p = some q → (q.hear out).link = .held fd →
      accountOf q.id typed = b'.requests q.id ++ underway q)
    (hidle : ∀ id, holder server id = none → accountOf id typed = b'.requests id) :
    Accounted (g.serve server out) b' typed where
  sound := hsound
  kept := hkept
  held := by
    intro p q fd hp hlink
    obtain ⟨q₀, hq₀, rfl⟩ := Option.map_eq_some_iff.mp hp
    rw [hear_id, underway, hear_up]
    exact hheld p q₀ fd hq₀ hlink
  idle := hidle

/-- Only a request changes the accounts. -/
theorem next_requests_eq (b : Book) {d : Deed} (h : ∀ fd request, d ≠ .ask fd request) :
    (b.next d).requests = b.requests := by
  funext id
  rcases Honoured.next_requests b d id with heq | ⟨fd, request, rfl, -⟩
  · exact heq
  · exact absurd rfl (h fd request)

theorem Accounted.accepts {q : Peer} {frame : Frame} {up : List Frame} {env : Env}
    {addr : SockAddr} {fd : Int} {calls : List Call} {server : Server} {out : List Effect}
    (h : Accounted f b typed) (hq : f.peers p = some q) (hqueued : q.link = .queued)
    (hup : q.up = frame :: up)
    (hhandle : handle env f.server (.connection addr fd
      ⟨frame.encode ++ up.flatMap Frame.encode, calls⟩) = some (server, out))
    (hsound : Sound ((f.setPeer p { q with link := .held fd, up }).serve server out))
    (hkept : Kept server (b.next (deed (.connection addr fd
      ⟨frame.encode ++ up.flatMap Frame.encode, calls⟩)))) :
    Accounted ((f.setPeer p { q with link := .held fd, up }).serve server out)
      (b.next (deed (.connection addr fd ⟨frame.encode ++ up.flatMap Frame.encode, calls⟩)))
      typed := by
  obtain ⟨horder, hname, -⟩ := h.sound.fit p q hq
  cases horder with
  | held hlink | refused hlink | finished hlink => simp [hqueued] at hlink
  | queued hfits _ honly =>
    rw [honly, List.cons.injEq] at hup
    obtain ⟨rfl, rfl⟩ := hup
    have hrequests := next_requests_eq b (d := deed (.connection addr fd
      ⟨(Frame.ofText connectReq q.id hfits).encode ++ [].flatMap Frame.encode, calls⟩)) (by
        intro fd' request
        simp only [deed]
        split <;> simp)
    obtain ⟨-, hanswer⟩ := accept_id hname hhandle
    refine Accounted.serve hsound hkept ?_ ?_
    · intro p' q₁ fd' hp' hlink'
      rw [hrequests]
      rcases peers_setPeer hp' with ⟨-, rfl⟩ | ⟨-, hold⟩
      · rcases hanswer with ⟨-, -, rfl⟩ | ⟨hidle, -, -⟩
        · rw [hear_held rfl] at hlink'
          simp [refusal] at hlink'
        · exact (h.idle q.id (holder_eq_none.mpr hidle)).trans (List.append_nil _).symm
      · exact h.held p' q₁ fd' hold (link_of_hear hlink')
    · intro id hnone
      rw [hrequests]
      rcases hanswer with ⟨-, rfl, -⟩ | ⟨-, rfl, -⟩
      · exact h.idle id hnone
      · rw [holder_enrol] at hnone
        by_cases hid : id = q.id
        · rw [hid, Function.update_self] at hnone
          simp at hnone
        · rw [Function.update_of_ne hid] at hnone
          exact h.idle id hnone

theorem Accounted.answers {q : Peer} {frame : Frame} {up : List Frame} {env : Env} {k : ℕ}
    {fd : Int} {calls : List Call} {server : Server} {out : List Effect}
    (h : Accounted f b typed) (hq : f.peers p = some q) (hlink : q.link = .held fd)
    (hup : q.up = frame :: up)
    (hhandle : handle env f.server (.readable k fd
      ⟨frame.encode ++ up.flatMap Frame.encode, calls⟩) = some (server, out))
    (hsound : Sound ((f.setPeer p { q with up }).serve server out))
    (hkept : Kept server (b.next (deed (.readable k fd
      ⟨frame.encode ++ up.flatMap Frame.encode, calls⟩)))) :
    Accounted ((f.setPeer p { q with up }).serve server out)
      (b.next (deed (.readable k fd ⟨frame.encode ++ up.flatMap Frame.encode, calls⟩)))
      typed := by
  obtain ⟨request, hrequest⟩ := Option.isSome_iff_exists.mp
    (request_of_frame (h.sound.up_requests hq hlink frame (hup ▸ List.mem_cons_self)))
  obtain ⟨hholder, -⟩ := answered_request h.sound.consistent hhandle
  have hunder : underway q = request :: underway { q with up } := by
    rw [underway, hup, List.filterMap_cons, hrequest]
    rfl
  have hnext : ∀ id, (b.next (deed (.readable k fd
      ⟨frame.encode ++ up.flatMap Frame.encode, calls⟩))).requests id =
        if b.holder id = some fd then b.requests id ++ [request] else b.requests id := by
    obtain ⟨later, hread⟩ := frame_read hhandle
    have hpos : ¬ (3 + (frame.len.toNat : ℤ)) = 0 := by omega
    intro id
    simp only [deed, hread, hpos, if_false, hrequest]
    rfl
  refine Accounted.serve hsound hkept ?_ ?_
  · intro p' q₁ fd' hp' hlink'
    rw [hnext, ← h.kept.holder]
    rcases peers_setPeer hp' with ⟨-, rfl⟩ | ⟨hne, hold⟩
    · rw [if_pos (h.sound.open hq hlink).1, h.held p q fd hq hlink, hunder, List.append_assoc]
      rfl
    · have hheld := h.sound.open hold (link_of_hear hlink')
      have hother : holder f.server q₁.id ≠ some fd := by
        intro heq
        rw [hheld.1, Option.some.injEq] at heq
        subst heq
        exact hne (h.sound.exclusive p' p q₁ q _ hold hq (link_of_hear hlink') hlink)
      rw [if_neg hother]
      exact h.held p' q₁ fd' hold (link_of_hear hlink')
  · intro id hnone
    rw [hholder] at hnone
    rw [hnext, ← h.kept.holder, hnone, if_neg (by simp)]
    exact h.idle id hnone

theorem Accounted.notices {q : Peer} {env : Env} {k : ℕ} {fd : Int} {calls : List Call}
    {server : Server} {out : List Effect} (h : Accounted f b typed) (hq : f.peers p = some q)
    (hlink : q.link = .held fd) (hempty : q.up = [])
    (hhandle : handle env f.server (.readable k fd ⟨[], calls⟩) = some (server, out))
    (hsound : Sound (f.serve server out))
    (hkept : Kept server (b.next (deed (.readable k fd ⟨[], calls⟩)))) :
    Accounted (f.serve server out) (b.next (deed (.readable k fd ⟨[], calls⟩))) typed := by
  obtain ⟨hended, hempty'⟩ := recvEfficient_ended calls
  have hnone : requestOf TcpMessage.zero = none := rfl
  have hrequests := next_requests_eq b (d := deed (.readable k fd ⟨[], calls⟩)) (by
    intro fd' request
    simp only [deed, hempty', hnone]
    split <;> simp)
  refine Accounted.serve hsound hkept ?_ ?_
  · intro p' q₁ fd' hp' hlink'
    rw [hrequests]
    exact h.held p' q₁ fd' hp' (link_of_hear hlink')
  · intro id hnone
    rw [hrequests]
    -- The account of the id that leaves has nothing on its way.
    by_cases hid : id = q.id
    · rw [hid, h.held p q fd hq hlink, underway, hempty]
      exact List.append_nil _
    · refine h.idle id ?_
      cases served h.sound.consistent hhandle with
      | answered hread hpos =>
        rw [hread] at hended
        omega
      | left _ _ _ hheld =>
        have howner := h.sound.consistent.leased.exclusive _ _ _ hheld (h.sound.open hq hlink).1
        subst howner
        rwa [holder_dismiss, Function.update_of_ne hid] at hnone

theorem Accounted.others {env : Env} {event : Event} {server : Server} {out : List Effect}
    (h : Accounted f b typed) (hlocal : Local event = true)
    (hhandle : handle env f.server event = some (server, out))
    (hsound : Sound (f.serve server out)) (hkept : Kept server (b.next (deed event))) :
    Accounted (f.serve server out) (b.next (deed event)) typed := by
  have hdeed : deed event = .other := by
    cases event with
    | line | datagram => rfl
    | connection | readable => simp [Local] at hlocal
  have hserver : server = f.server := by
    cases served h.sound.consistent hhandle with
    | line | datagram | refused => rfl
    | admitted | left | answered => simp [Local] at hlocal
  subst hserver
  refine Accounted.serve hsound hkept ?_ ?_
  · intro p q fd hq hlink
    rw [hdeed]
    exact h.held p q fd hq (link_of_hear hlink)
  · intro id hnone
    rw [hdeed]
    exact h.idle id hnone

/-- The book goes on with the event of a turn, if the server has served one. -/
theorem kept_turn {t : Fleets.Turn} (h : Accounted f b typed) (hfresh : FreshTurn f t)
    (hstep : turn f t = some (f', events)) :
    Kept f'.server (events.foldl (fun b i => b.next (deed i.2)) b) := by
  rcases lawful_step h.sound hfresh hstep with ⟨rfl, hsame⟩ | ⟨i, out, rfl, hlawful, hserve⟩
  · rw [hsame]
    exact h.kept
  · exact kept_step h.kept hlawful hserve

/-- A typed line is a request of the process it is typed at, or nothing. -/
theorem Accounted.types {q : Peer} {phase : Phase} {env : Env} {line : Bytes} {s' : Session}
    {log : List Log} (h : Accounted f b typed) (hq : f.peers p = some q)
    (hstage : q.stage = .past phase)
    (hact : typeTurn (f.session q phase) env line = some (s', log))
    (hsound : Sound (f.setPeer p (q.resume s'))) :
    Accounted (f.setPeer p (q.resume s')) b
      (typed ++ (typedBy f (.types p env line)).toList) := by
  rcases typeTurn_up hact with ⟨hnone, hup⟩ | ⟨request, frame, hsome, hup, hrequest⟩
  · have hby : typedBy f (.types p env line) = none := by simp [typedBy, hq, hnone]
    rw [hby, Option.toList_none, List.append_nil]
    exact h.silent hsound fun fd hlink => ⟨q, hq, hlink, rfl, hup⟩
  · have hby : typedBy f (.types p env line) = some (q.id, request) := by
      simp [typedBy, hq, hsome]
    have hidle : phase ≠ .stopped := by
      intro hstopped
      subst hstopped
      simp [typeTurn, Fleet.session] at hact
    obtain ⟨fd, q₀, hq₀, -, hlink⟩ := active_occupies h.sound hq ⟨phase, hstage, hidle⟩
    rw [hq, Option.some.injEq] at hq₀
    subst hq₀
    rw [hby, Option.toList_some]
    exact h.sends hsound hq hlink rfl hup hrequest

theorem accounted_step {t : Fleets.Turn} (h : Accounted f b typed) (hfresh : FreshTurn f t)
    (hstep : turn f t = some (f', events)) :
    Accounted f' (events.foldl (fun b i => b.next (deed i.2)) b)
      (typed ++ (typedBy f t).toList) := by
  have hsound := sound_step h.sound hfresh hstep
  have hkept := kept_turn h hfresh hstep
  cases taken_turn hstep with
  | types hq hstage hact => exact h.types hq hstage hact hsound
  | starts =>
    rw [typedBy, Option.toList_none, List.append_nil]
    exact h.silent hsound (by simp)
  | confirms hq | ends hq =>
    rw [typedBy, Option.toList_none, List.append_nil]
    exact h.silent hsound fun fd hlink => ⟨_, hq, hlink, rfl, rfl⟩
  | reads hq _ hact =>
    rw [typedBy, Option.toList_none, List.append_nil]
    exact h.silent hsound fun fd hlink => ⟨_, hq, hlink, rfl, readTurn_up hact⟩
  | awaits hq _ hact =>
    rw [typedBy, Option.toList_none, List.append_nil]
    exact h.silent hsound fun fd hlink => ⟨_, hq, hlink, rfl, awaitTurn_up hact⟩
  | accepts hq hlink hup _ hhandle =>
    rw [typedBy, Option.toList_none, List.append_nil]
    exact h.accepts hq hlink hup hhandle hsound hkept
  | answers hq hlink hup _ hhandle =>
    rw [typedBy, Option.toList_none, List.append_nil]
    exact h.answers hq hlink hup hhandle hsound hkept
  | notices hq hlink hup _ _ hhandle =>
    rw [typedBy, Option.toList_none, List.append_nil]
    exact h.notices hq hlink hup hhandle hsound hkept
  | others hlocal _ hhandle =>
    rw [typedBy, Option.toList_none, List.append_nil]
    exact h.others hlocal hhandle hsound hkept
  | stops =>
    rw [typedBy, Option.toList_none, List.append_nil]
    exact ⟨hsound, h.kept, h.held, h.idle⟩

theorem accounted_run {turns : List Fleets.Turn} (h : Accounted f b typed)
    (hfresh : Along turn FreshTurn f turns) (hrun : exec turn f turns = some (f', events)) :
    Accounted f' (events.foldl (fun b i => b.next (deed i.2)) b) (typed ++ typedIn f turns) := by
  induction turns generalizing f b typed events with
  | nil =>
    simp only [exec_nil, Option.some.injEq, Prod.mk.injEq] at hrun
    obtain ⟨rfl, rfl⟩ := hrun
    rwa [typedIn, List.append_nil]
  | cons t turns ih =>
    obtain ⟨f₁, first, rest, hstep, hrest, rfl⟩ := exec_cons.mp hrun
    have hlater := ih (accounted_step h hfresh.1 hstep) (hfresh.2 f₁ first hstep) hrest
    rw [List.foldl_append, typedIn, hstep, ← List.append_assoc]
    exact hlater

/-- In every run of a fleet and for every id: the requests typed at the processes of the
id, one process after another, are those the server has processed for the id and behind
them those on their way from the process that has the connection, none lost, made twice
or overtaken. The subscriptions of the id are what the first part makes of none. -/
theorem no_update_lost {udpSockfd tcpSockfd : Int} {turns : List Fleets.Turn}
    (hfresh : Along turn FreshTurn (Fleet.start udpSockfd tcpSockfd) turns)
    (hrun : exec turn (Fleet.start udpSockfd tcpSockfd) turns = some (f, events)) (id : ClientId) :
    topicSet f.server id = ((book events).requests id).foldl Request.apply ∅ ∧
    (∀ p fd, Occupies f p id fd → ∃ q, f.peers p = some q ∧
      accountOf id (typedIn (Fleet.start udpSockfd tcpSockfd) turns) =
        (book events).requests id ++ underway q) ∧
    ((¬ ∃ p fd, Occupies f p id fd) →
      accountOf id (typedIn (Fleet.start udpSockfd tcpSockfd) turns) =
        (book events).requests id) := by
  have h := accounted_run (accounted_start udpSockfd tcpSockfd) hfresh hrun
  rw [List.nil_append] at h
  refine ⟨h.kept.topics id, ?_, ?_⟩
  · intro p fd hocc
    obtain ⟨q, hq, rfl, hlink⟩ := hocc
    exact ⟨q, hq, h.held p q fd hq hlink⟩
  · intro hfree
    refine h.idle id (Option.eq_none_iff_forall_ne_some.mpr fun fd hheld => hfree ?_)
    obtain ⟨p, q, hq, hid, hlink⟩ := h.sound.owned id fd hheld
    exact ⟨p, fd, q, hq, hid, hlink⟩

/-- A process leaves a request on its way and ends; another one comes with its id. -/
def successors : List Fleets.Turn :=
  [.starts 0 Env.plain (ascii "a"), .accepts 0 Env.plain ⟨(127, 0, 0, 1), 1⟩ 5 [],
    .confirms 0 [], .types 0 Env.plain (ascii "subscribe t"), .ends 0,
    .starts 1 Env.plain (ascii "a"), .serves 0 Env.plain 0 [], .serves 0 Env.plain 0 [],
    .accepts 1 Env.plain ⟨(127, 0, 0, 1), 2⟩ 5 [], .confirms 1 [],
    .types 1 Env.plain (ascii "unsubscribe t")]

set_option maxRecDepth 4000 in
theorem no_update_lost_successors : ∃ f events,
    exec turn (Fleet.start 3 4) successors = some (f, events) ∧
      accountOf (ascii "a") (typedIn (Fleet.start 3 4) successors) =
        [.subscribe (ascii "t"), .unsubscribe (ascii "t")] ∧
      ∃ q, f.peers 1 = some q ∧
        accountOf (ascii "a") (typedIn (Fleet.start 3 4) successors) =
          (book events).requests (ascii "a") ++ underway q := by
  obtain ⟨events, hrun⟩ := exec_final
    (show (exec turn (Fleet.start 3 4) successors).isSome = true by rfl)
  refine ⟨_, events, hrun, by rfl, ?_⟩
  exact (no_update_lost (by decide) hrun (ascii "a")).2.1 1 5 ⟨_, rfl, rfl, rfl⟩

end Conservation

section Hearing

variable {env : Env} {s s' : Server} {out : List Effect} {d : Datagram} {id : ClientId} {fd : Int}

def Wants (topics : Finset Topic) (topic : Topic) : Prop :=
  topic ∈ topics ∨ ∃ key ∈ topics,
    compareTokenVectors (tokenizeTopic key) (tokenizeTopic topic) starStr plusStr = some true

theorem checkWildcardTopic_iff {topics : Subscriptions} (h : Tokenized topics) (topic : Topic) :
    checkWildcardTopic topic topics = true ↔ ∃ key ∈ topics.keys,
      compareTokenVectors (tokenizeTopic key) (tokenizeTopic topic) starStr plusStr =
        some true := by
  simp only [checkWildcardTopic, List.any_eq_true, beq_iff_eq]
  constructor
  · intro hany
    obtain ⟨⟨key, tokens⟩, hmem, hmatch⟩ := hany
    refine ⟨key, List.mem_map.mpr ⟨_, hmem, rfl⟩, ?_⟩
    rw [← h key tokens (AList.mem_lookup_iff.mpr hmem)]
    exact hmatch
  · intro hany
    obtain ⟨key, hkey, hmatch⟩ := hany
    obtain ⟨⟨key', tokens⟩, hmem, rfl⟩ := List.mem_map.mp hkey
    refine ⟨_, hmem, ?_⟩
    rw [h key' tokens (AList.mem_lookup_iff.mpr hmem)]
    exact hmatch

/-- The client that holds the descriptor is selected exactly if its topics want it. -/
theorem selected_wants {c : Client} {topic : Topic} (htokens : Tokenized (s.topicsOf id))
    (hclient : s.client id = some c) (hconnected : c.isConnected = true) :
    selected topic c = true ↔ Wants (topicSet s id) topic := by
  have htopics : s.topicsOf id = c.subscribedTopics := by
    rw [Server.topicsOf, hclient, Option.elim_some]
  rw [htopics] at htokens
  simp only [Delivery.selected_iff, hconnected, true_and, Wants, mem_topicSet, htopics,
    checkWildcardTopic_iff htokens, AList.mem_keys]

/-- A datagram is written once on the descriptor of a client that wants it. -/
theorem written_wants (h : Consistent s) (htokens : Tokenized (s.topicsOf id))
    (hheld : holder s id = some fd) (hact : manageUdpMessage env s (some d) = ⟨out, .ok s'⟩) :
    (Wants (topicSet s id) (topicField d) →
      written fd out = (Connections.publicationOf (.datagram (some d))).toList) ∧
    (¬ Wants (topicSet s id) (topicField d) → written fd out = []) := by
  obtain ⟨c, hclient, hconnected, hfd⟩ := holder_eq_some.mp hheld
  obtain ⟨-, ⟨topic, line, hformat, rfl⟩ | ⟨topic, text, hformat, -, hsend⟩⟩ :=
    manageUdpMessage_ok hact
  · have hnone : Connections.publicationOf (.datagram (some d)) = none := by
      simp only [Connections.publicationOf, hformat]
    rw [hnone]
    exact ⟨fun _ => rfl, fun _ => rfl⟩
  · obtain ⟨rfl, -, hlength⟩ := formattedMsg_text hformat
    obtain ⟨-, rfl, -⟩ := (sendMsgIfSubscribed_eq_ok hlength).mp hsend
    have hsome : Connections.publicationOf (.datagram (some d)) =
        some (publicationFrame text hlength) := by
      simp only [Connections.publicationOf, hformat, hlength, dite_true]
    have hmem : fd ∈ (recipients (topicField d) (env.iterate s.clients)).map
        (fun entry => entry.2.currFd) ↔ Wants (topicSet s id) (topicField d) := by
      rw [← selected_wants htokens hclient hconnected, List.mem_map]
      constructor
      · intro hentry
        obtain ⟨⟨other, c'⟩, hmem, hfd'⟩ := hentry
        have hother := Delivery.recipient_holds hmem
        have hid : other = id :=
          h.leased.exclusive other id fd (hother.trans (congrArg some hfd')) hheld
        subst hid
        obtain ⟨hclient', hselected⟩ := Delivery.mem_recipients.mp hmem
        rw [hclient, Option.some.injEq] at hclient'
        exact hclient' ▸ hselected
      · intro hselected
        exact ⟨⟨id, c⟩, Delivery.mem_recipients.mpr ⟨hclient, hselected⟩, hfd⟩
    rw [PublishedTexts.written_eq,
      Connections.wires_copies fd _ _ (Delivery.recipients_fds_nodup h), hsome]
    constructor
    · intro hwants
      rw [if_pos (hmem.mpr hwants), List.filterMap_cons, Frame.decode_encode]
      rfl
    · intro hnot
      rw [if_neg fun hin => hnot (hmem.mp hin)]
      rfl

variable {f f' : Fleet} {events more : List (Env × Event)}

/-- Whatever has happened before, a datagram that the server serves is put once, behind
everything else, into the stream of each process with an open connection whose topics
want it, and into no other; and these topics are what was typed at the processes with
its id, but for the requests on their way. Nothing else changes. -/
theorem datagram_heard {udpSockfd tcpSockfd : Int} {turns : List Fleets.Turn}
    (hfresh : Along turn FreshTurn (Fleet.start udpSockfd tcpSockfd) turns)
    (hrun : exec turn (Fleet.start udpSockfd tcpSockfd) turns = some (f, events))
    (hserve : turn f (.others env (.datagram (some d))) = some (f', more)) :
    f'.server = f.server ∧ f'.running = f.running ∧
    (∀ p, f.peers p = none → f'.peers p = none) ∧
    ∀ p q, f.peers p = some q → ∃ handled frames,
      (∀ fd, q.link = .held fd →
        accountOf q.id (typedIn (Fleet.start udpSockfd tcpSockfd) turns) =
          handled ++ underway q) ∧
      f'.peers p = some { q with down := q.down ++ frames } ∧
      ((∃ fd, q.link = .held fd) ∧ Wants (handled.foldl Request.apply ∅) (topicField d) →
        frames = (Connections.publicationOf (.datagram (some d))).toList) ∧
      (¬ ((∃ fd, q.link = .held fd) ∧ Wants (handled.foldl Request.apply ∅) (topicField d)) →
        frames = []) := by
  have h := accounted_run (accounted_start udpSockfd tcpSockfd) hfresh hrun
  rw [List.nil_append] at h
  simp only [turn, Local, if_true] at hserve
  obtain ⟨server, out, -, hhandle, rfl, -⟩ := handle_eq_some hserve
  have hact := Outcome.toStep_eq_some.mp hhandle
  refine ⟨(manageUdpMessage_ok hact).1, rfl, ?_, ?_⟩
  · intro p hp
    rw [peers_serve, hp, Option.map_none]
  · intro p q hq
    rw [peers_serve, hq, Option.map_some]
    by_cases hopen : ∃ fd, q.link = .held fd
    · obtain ⟨fd, hlink⟩ := hopen
      obtain ⟨hwants, hnot⟩ := written_wants h.sound.consistent (h.kept.tokens q.id)
        (h.sound.open hq hlink).1 hact
      rw [h.kept.topics] at hwants hnot
      refine ⟨_, written fd out, fun fd' hlink' => h.held p q fd' hq hlink', ?_, ?_, ?_⟩
      · rw [hear_held hlink, if_neg (keeps_datagram hact), ← hlink]
      · exact fun hboth => hwants hboth.2
      · exact fun hneither => hnot fun hw => hneither ⟨⟨fd, hlink⟩, hw⟩
    · refine ⟨[], [], fun fd hlink => absurd ⟨fd, hlink⟩ hopen, ?_,
        fun hboth => absurd hboth.1 hopen, fun _ => rfl⟩
      rw [hear_silent fun fd hlink => hopen ⟨fd, hlink⟩, List.append_nil]

def listening : List Fleets.Turn :=
  [.starts 0 Env.plain (ascii "a"), .accepts 0 Env.plain ⟨(127, 0, 0, 1), 1⟩ 5 [],
    .confirms 0 [], .types 0 Env.plain (ascii "subscribe t"), .serves 0 Env.plain 0 [],
    .awaits 0 [], .types 0 Env.plain (ascii "unsubscribe t")]

set_option maxRecDepth 4000 in
theorem datagram_heard_listening : ∃ f events f' more,
    exec turn (Fleet.start 3 4) listening = some (f, events) ∧
      turn f (.others Env.plain (.datagram (some Delivery.seven))) = some (f', more) ∧
      ∃ q, f.peers 0 = some q ∧ underway q ≠ [] ∧
        f'.peers 0 = some { q with
          down := q.down ++
            (Connections.publicationOf (.datagram (some Delivery.seven))).toList } ∧
        (Connections.publicationOf (.datagram (some Delivery.seven))).isSome = true := by
  obtain ⟨events, hrun⟩ := exec_final
    (show (exec turn (Fleet.start 3 4) listening).isSome = true by rfl)
  obtain ⟨⟨f', more⟩, hserve⟩ := Option.isSome_iff_exists.mp
    (show (turn (final turn (Fleet.start 3 4) listening)
      (.others Env.plain (.datagram (some Delivery.seven)))).isSome = true by rfl)
  obtain ⟨handled, frames, htyped, hpeer, hwants, -⟩ :=
    (datagram_heard (by decide) hrun hserve).2.2.2 0 _ rfl
  -- The request not to be subscribed any more is on its way and does not count.
  have hhandled : handled = [.subscribe (ascii "t")] :=
    List.append_cancel_right ((htyped 5 rfl).symm.trans (by rfl) :
      handled ++ _ = [.subscribe (ascii "t")] ++ _)
  have hframes := hwants ⟨⟨5, rfl⟩, by rw [hhandled]; exact Or.inl (by decide)⟩
  rw [hframes] at hpeer
  exact ⟨_, events, f', more, hrun, hserve, _, rfl, by decide, hpeer, by rfl⟩

end Hearing

end ServerClientApp.Updates
