import ServerClientApp.PollRounds
import ServerClientApp.StrayFrames

/-!
The loop of run over the client entries of the poll vector. Entries are erased
while the vector is walked, and the iterator moves on only where none was. Calls
of recv_efficient are recorded in their order beside what the handlers do. What
recv and send give on a descriptor, and the order of the client map when it is
served, are arguments.
-/

namespace ServerClientApp.ClientLoop

open PartialTransfers Outcomes Outcome Protocols Wildcards Datagrams ServerHandlers HandlerSpecs
  ServerRuns Delivery StrayFrames

section Model

inductive Handling where
  | received (fd : Int)
  | effect (e : Effect)
  deriving DecidableEq, Repr

/-- The process ends, the iterator is past the end of the vector, or the loop is not
left in the given number of rounds. -/
inductive LoopStop where
  | ended (reason : Stop)
  | pastEnd
  | unfinished
  deriving DecidableEq, Repr

abbrev Loop := Outcome Handling LoopStop

def inLoop {α : Type} (act : Act α) : Loop α :=
  ⟨act.effects.map .effect, act.result.mapError .ended⟩

variable (envs : Int → Env) (socks : Int → Socket)

def clientLoop : ℕ → Server → ℕ → Loop Server
  | 0, _, _ => stop .unfinished
  | rounds + 1, s, it =>
    if it = s.pollFds.length then pure s
    else
      match s.pollFds[it]? with
      | none => stop .pastEnd
      | some clientPollfd =>
        if clientPollfd.revents then do
          let fd := clientPollfd.fd
          emit (.received fd)
          let (s, deleted) ← inLoop (serveClient (envs fd) s it fd (socks fd))
          clientLoop rounds s (if deleted then it else it + 1)
        else clientLoop rounds s (it + 1)

def serveClients (rounds : ℕ) (s : Server) : Loop Server :=
  if s.numPollfds < 4 then pure s else clientLoop envs socks rounds s 3

def handled (seen : List Handling) : List Int :=
  seen.filterMap fun
    | .received fd => some fd
    | .effect _ => none

end Model

section Serving

variable {env : Env} {s s' : Server} {fd : Int} {sock : Socket}

def Registered (s : Server) (fd : Int) : Prop := ∃ id c, s.client id = some c ∧ c.currFd = fd

def closes (sock : Socket) : Bool := decide ((recvEfficient sock TcpMessage.zero).rc = 0)

def Receives (sock : Socket) : Prop :=
  (recvEfficient sock TcpMessage.zero).rc = 0 ∨
    0 < (recvEfficient sock TcpMessage.zero).rc ∧
      ∃ topic, cString (recvEfficient sock TcpMessage.zero).msg.payload = .ok topic

/-- What serving an entry leaves behind: without the entry if it closed, and with
the owners of all other descriptors. -/
structure Left (s : Server) (it : ℕ) (fd : Int) (deleted : Bool) (s' : Server) : Prop where
  pollFds : s'.pollFds = if deleted then s.pollFds.eraseIdx it else s.pollFds
  numPollfds : s'.numPollfds = if deleted then s.numPollfds - 1 else s.numPollfds
  others : ∀ other, other ≠ fd → Registered s other → Registered s' other

theorem Registered.update {id : ClientId} {c c' : Client} {other : Int}
    (hclient : s.client id = some c) (hupdate : s'.client = Function.update s.client id (some c'))
    (hkeeps : c.currFd = other → c'.currFd = other) (h : Registered s other) :
    Registered s' other := by
  obtain ⟨owner, record, hrecord, hfd⟩ := h
  by_cases howner : owner = id
  · subst howner
    rw [hclient, Option.some.injEq] at hrecord
    refine ⟨owner, c', by rw [hupdate, Function.update_self], hkeeps ?_⟩
    rw [hrecord, hfd]
  · refine ⟨owner, record, ?_, hfd⟩
    rw [hupdate, Function.update_of_ne howner, hrecord]

/-- Where the tables agree every polled client is registered. -/
theorem registered_of_consistent (h : Consistent s) (hmem : fd ∈ s.clientFds) :
    Registered s fd := by
  obtain ⟨id, c, -, hclient, -, hcurr⟩ := h.getClientFromFd Env.plain hmem
  exact ⟨id, c, hclient, hcurr⟩

/-- A request of a registered client is answered, or the process ends because the
answer cannot be sent. -/
theorem manageSubscribeUnsubscribe_answers {msg : TcpMessage} {topic : Topic} {entry : Entry}
    (hstring : cString msg.payload = .ok topic) (hentry : getClientFromFd env s fd = some entry) :
    (∃ out s', manageSubscribeUnsubscribe env s fd msg = ⟨out, .ok s'⟩) ∨
      ¬ env.Sends ∧ ∃ out, manageSubscribeUnsubscribe env s fd msg = ⟨out, .error .die⟩ := by
  have hanswer : ∃ answer s₁, manageSubscribeUnsubscribe env s fd msg =
      (sendAnswer env fd answer >>= fun _ => (⟨[], .ok s₁⟩ : Act Server)) := by
    obtain ⟨id, c⟩ := entry
    unfold manageSubscribeUnsubscribe
    simp only [hstring, Except.mapError, Outcome.ofExcept, pure_bind, hentry]
    simp only [pure_def]
    split
    all_goals
      split
      all_goals exact ⟨_, _, rfl⟩
  obtain ⟨answer, s₁, heq⟩ := hanswer
  rw [heq]
  by_cases hdelivers : Delivers env fd (Frame.bare answer)
  · exact Or.inl ⟨_, s₁, sendAnswer_then_eq_ok.mpr ⟨hdelivers, rfl, rfl⟩⟩
  · refine Or.inr ⟨fun hsends => hdelivers (delivers_of_sends hsends fd _), ?_⟩
    have hstops : StopsFor (· = Stop.die)
        (sendAnswer env fd answer >>= fun _ => (⟨[], .ok s₁⟩ : Act Server)) :=
      sendAnswer_then_stops fd answer [] s₁
    cases hrun : (sendAnswer env fd answer >>= fun _ => (⟨[], .ok s₁⟩ : Act Server)) with
    | mk out result =>
      cases result with
      | ok s' => exact absurd (sendAnswer_then_eq_ok.mp hrun).1 hdelivers
      | error reason =>
        have hreason : reason = .die := hstops reason (by rw [hrun])
        exact ⟨out, by rw [hreason]⟩

/-- A close of a registered descriptor is noticed. -/
theorem serveClient_closes (env : Env) (it : ℕ) (hregistered : Registered s fd)
    (hclosed : closes sock = true) :
    ∃ out s', serveClient env s it fd sock = ⟨out, .ok (s', true)⟩ := by
  obtain ⟨id, c, hclient, hfd⟩ := hregistered
  have hzero : (recvEfficient sock TcpMessage.zero).rc = 0 := of_decide_eq_true hclosed
  cases hentry : getClientFromFd env s fd with
  | none => exact absurd hentry (getClientFromFd_ne_none hclient hfd)
  | some entry =>
    obtain ⟨owner, record⟩ := entry
    refine ⟨[.closed fd, .printed (ascii "Client " ++ owner ++ ascii " disconnected.\n")],
      dismiss s owner record it, ?_⟩
    simp only [serveClient, hzero, die, lt_irrefl, decide_false, stopIf, Bool.false_eq_true,
      if_false, pure_bind, if_true, hentry]
    rfl

/-- A message is taken for a request. -/
theorem serveClient_request (it : ℕ) (hpos : 0 < (recvEfficient sock TcpMessage.zero).rc) :
    serveClient env s it fd sock =
      (manageSubscribeUnsubscribe env s fd (recvEfficient sock TcpMessage.zero).msg >>= fun s' =>
        pure (s', false)) := by
  have hnonneg : ¬ (recvEfficient sock TcpMessage.zero).rc < 0 := by omega
  have hne : ¬ (recvEfficient sock TcpMessage.zero).rc = 0 := by omega
  simp only [serveClient, die, hnonneg, hne, decide_false, stopIf, Bool.false_eq_true, if_false,
    pure_bind]

theorem left_of_close {it : ℕ} {id : ClientId} {c : Client}
    (hentry : getClientFromFd env s fd = some ⟨id, c⟩) : Left s it fd true (dismiss s id c it) := by
  obtain ⟨hclient, hfd⟩ := getClientFromFd_some hentry
  refine ⟨rfl, rfl, ?_⟩
  intro other hother h
  refine h.update hclient (client_setClient s id _) ?_
  intro heq
  exact absurd (heq.symm.trans hfd) hother

theorem left_of_request {it : ℕ} {msg : TcpMessage} {out : List Effect}
    (h : manageSubscribeUnsubscribe env s fd msg = ⟨out, .ok s'⟩) : Left s it fd false s' := by
  obtain ⟨topic, id, c, -, hentry, hclient, hpoll, hnum, -⟩ := manageSubscribeUnsubscribe_ok h
  refine ⟨hpoll, hnum, ?_⟩
  intro other _ hother
  exact hother.update (getClientFromFd_some hentry).1 hclient fun hsame => hsame

theorem left_of_serve {it : ℕ} {deleted : Bool} {out : List Effect}
    (h : serveClient env s it fd sock = ⟨out, .ok (s', deleted)⟩) : Left s it fd deleted s' := by
  rcases serveClient_ok h with ⟨-, rfl, id, c, line, hentry, rfl, -⟩ | ⟨-, rfl, hact⟩
  · exact left_of_close hentry
  · exact left_of_request hact

/-- Serving a registered descriptor goes through, or ends the process at an answer
that cannot be sent. -/
theorem serveClient_registered (env : Env) (it : ℕ) (hregistered : Registered s fd)
    (hreceives : Receives sock) :
    (∃ out s', serveClient env s it fd sock = ⟨out, .ok (s', closes sock)⟩ ∧
        Left s it fd (closes sock) s') ∨
      ¬ env.Sends ∧ ∃ out, serveClient env s it fd sock = ⟨out, .error .die⟩ := by
  rcases hreceives with hzero | ⟨hpos, topic, hstring⟩
  · have hclosed : closes sock = true := decide_eq_true hzero
    obtain ⟨out, s', hserve⟩ := serveClient_closes env it hregistered hclosed
    left
    rw [hclosed]
    exact ⟨out, s', hserve, left_of_serve hserve⟩
  · have hopen : closes sock = false := decide_eq_false (by omega)
    obtain ⟨id, c, hclient, hfd⟩ := hregistered
    rw [hopen, serveClient_request it hpos]
    cases hentry : getClientFromFd env s fd with
    | none => exact absurd hentry (getClientFromFd_ne_none hclient hfd)
    | some entry =>
      rcases manageSubscribeUnsubscribe_answers hstring hentry with
        ⟨out, s', hact⟩ | ⟨hfails, out, hact⟩
      · left
        refine ⟨out, s', ?_, left_of_request hact⟩
        rw [hact]
        exact Outcome.ext' (List.append_nil out) rfl
      · right
        refine ⟨hfails, out, ?_⟩
        rw [hact]
        rfl

end Serving

section Walk

variable {envs : Int → Env} {socks : Int → Socket}

def readyFds (entries : List PollFd) : List Int := (entries.filter PollFd.revents).map PollFd.fd

def stays (socks : Int → Socket) (p : PollFd) : Bool := !(p.revents && closes (socks p.fd))

/-- The close of a client, or the answer to its request, and nothing else. -/
def Attended (socks : Int → Socket) (fd : Int) (out : List Effect) : Prop :=
  (closes (socks fd) = true ∧ ∃ line, out = [.closed fd, .printed line]) ∨
    (closes (socks fd) = false ∧ ∃ topic topics,
      cString (recvEfficient (socks fd) TcpMessage.zero).msg.payload = .ok topic ∧
        out = [.wrote fd (Frame.bare (answerTo
          (recvEfficient (socks fd) TcpMessage.zero).msg.command topic topics)).encode])

def handling (r : Int × List Effect) : List Handling := .received r.1 :: r.2.map .effect

/-- The loop is left with these descriptors attended to one after another, and this poll
vector, counted. -/
def Leaves (socks : Int → Socket) (loop : Loop Server) (fds : List Int) (pollFds : List PollFd) :
    Prop :=
  ∃ s' : Server, ∃ outs : List (Int × List Effect),
    loop.result = .ok s' ∧ loop.effects = outs.flatMap handling ∧
    outs.map Prod.fst = fds ∧ (∀ r ∈ outs, Attended socks r.1 r.2) ∧
    handled loop.effects = fds ∧ s'.pollFds = pollFds ∧ s'.numPollfds = pollFds.length

/-- The process ends at an answer that cannot be sent, after some of these
descriptors. -/
def DiesAmong (loop : Loop Server) (fds : List Int) : Prop :=
  loop.result = .error (.ended .die) ∧ handled loop.effects <+: fds

theorem handled_effects (out : List Effect) : handled (out.map .effect) = [] := by
  simp [handled, List.filterMap_map]

theorem handled_cons (fd : Int) (out : List Effect) (later : List Handling) :
    handled (.received fd :: (out.map .effect ++ later)) = fd :: handled later := by
  have hout := handled_effects out
  unfold handled at hout ⊢
  rw [List.filterMap_cons, List.filterMap_append, hout]
  rfl

variable {s s' : Server} {before todo : List PollFd} {p : PollFd} {out : List Effect}
  {rounds it : ℕ}

/-- An entry that is not ready is passed over. -/
theorem clientLoop_skips (hentry : s.pollFds[it]? = some p) (hready : p.revents = false) :
    clientLoop envs socks (rounds + 1) s it = clientLoop envs socks rounds s (it + 1) := by
  have hne : it ≠ s.pollFds.length := (List.getElem?_eq_some_iff.mp hentry).1.ne
  simp only [clientLoop, if_neg hne, hentry, hready, Bool.false_eq_true, if_false]

/-- A ready entry is served and the loop goes on. -/
theorem clientLoop_serves (hentry : s.pollFds[it]? = some p) (hready : p.revents = true)
    {deleted : Bool} (hserve : serveClient (envs p.fd) s it p.fd (socks p.fd) =
      ⟨out, .ok (s', deleted)⟩) :
    let next := clientLoop envs socks rounds s' (if deleted then it else it + 1)
    clientLoop envs socks (rounds + 1) s it =
      ⟨.received p.fd :: (out.map .effect ++ next.effects), next.result⟩ := by
  have hne : it ≠ s.pollFds.length := (List.getElem?_eq_some_iff.mp hentry).1.ne
  simp only [clientLoop, if_neg hne, hentry, hready, if_true, hserve, inLoop, Except.mapError,
    mk_ok_bind, emit_bind]

/-- The process ends in serving a ready entry. -/
theorem clientLoop_dies (hentry : s.pollFds[it]? = some p) (hready : p.revents = true)
    {reason : Stop} (hserve : serveClient (envs p.fd) s it p.fd (socks p.fd) =
      ⟨out, .error reason⟩) :
    clientLoop envs socks (rounds + 1) s it =
      ⟨.received p.fd :: out.map .effect, .error (.ended reason)⟩ := by
  have hne : it ≠ s.pollFds.length := (List.getElem?_eq_some_iff.mp hentry).1.ne
  simp only [clientLoop, if_neg hne, hentry, hready, if_true, hserve, inLoop, Except.mapError,
    mk_error_bind, emit_bind]

theorem attended_of_serve {deleted : Bool}
    (h : serveClient (envs p.fd) s it p.fd (socks p.fd) = ⟨out, .ok (s', deleted)⟩) :
    Attended socks p.fd out := by
  rcases serveClient_ok h with ⟨hzero, -, id, c, line, -, -, rfl⟩ | ⟨hpos, -, hact⟩
  · exact Or.inl ⟨decide_eq_true hzero, line, rfl⟩
  · obtain ⟨topic, id, c, hstring, -, -, -, -, rfl⟩ := manageSubscribeUnsubscribe_ok hact
    exact Or.inr ⟨decide_eq_false (by omega), topic, c.subscribedTopics, hstring, rfl⟩

theorem Leaves.cons {next : Loop Server} {fd : Int} {fds : List Int} {pollFds : List PollFd}
    (hattended : Attended socks fd out) (h : Leaves socks next fds pollFds) :
    Leaves socks ⟨.received fd :: (out.map .effect ++ next.effects), next.result⟩ (fd :: fds)
      pollFds := by
  obtain ⟨s', outs, hresult, heffects, hfds, hall, hhandled, hpoll, hnum⟩ := h
  refine ⟨s', (fd, out) :: outs, hresult, ?_, ?_, ?_, ?_, hpoll, hnum⟩
  · rw [heffects, List.flatMap_cons]
    rfl
  · rw [List.map_cons, hfds]
  · exact List.forall_mem_cons.mpr ⟨hattended, hall⟩
  · rw [handled_cons, hhandled]

theorem DiesAmong.cons {next : Loop Server} {fd : Int} {fds : List Int}
    (h : DiesAmong next fds) :
    DiesAmong ⟨.received fd :: (out.map .effect ++ next.effects), next.result⟩ (fd :: fds) := by
  obtain ⟨hresult, hhandled⟩ := h
  refine ⟨hresult, ?_⟩
  rw [handled_cons]
  exact List.prefix_cons_inj fd |>.mpr hhandled

structure Walking (socks : Int → Socket) (s : Server) (before todo : List PollFd) : Prop where
  pollFds : s.pollFds = before ++ todo
  counted : s.numPollfds = s.pollFds.length
  distinct : (todo.map PollFd.fd).Nodup
  registered : ∀ p ∈ todo, Registered s p.fd
  receives : ∀ p ∈ todo, p.revents = true → Receives (socks p.fd)

theorem Walking.entry (h : Walking socks s before (p :: todo)) :
    s.pollFds[before.length]? = some p := by
  rw [h.pollFds, List.getElem?_append_right (le_refl _), Nat.sub_self, List.getElem?_cons_zero]

theorem Walking.skip (h : Walking socks s before (p :: todo)) :
    Walking socks s (before ++ [p]) todo where
  pollFds := by rw [h.pollFds, List.append_assoc, List.singleton_append]
  counted := h.counted
  distinct := (List.nodup_cons.mp h.distinct).2
  registered := fun q hq => h.registered q (List.mem_cons_of_mem p hq)
  receives := fun q hq => h.receives q (List.mem_cons_of_mem p hq)

/-- Serving an entry keeps the owners of the entries behind it. -/
theorem Walking.serve {deleted : Bool} (h : Walking socks s before (p :: todo))
    (hleft : Left s before.length p.fd deleted s') :
    Walking socks s' (if deleted then before else before ++ [p]) todo := by
  obtain ⟨hnew, hdistinct⟩ := List.nodup_cons.mp h.distinct
  have hregistered : ∀ q ∈ todo, Registered s' q.fd := by
    intro q hq
    refine hleft.others q.fd ?_ (h.registered q (List.mem_cons_of_mem p hq))
    intro heq
    exact hnew (heq ▸ List.mem_map_of_mem hq)
  have hreceives : ∀ q ∈ todo, q.revents = true → Receives (socks q.fd) := fun q hq =>
    h.receives q (List.mem_cons_of_mem p hq)
  have hpoll := hleft.pollFds
  have hnum := hleft.numPollfds
  cases deleted with
  | true =>
    have herase : (before ++ p :: todo).eraseIdx before.length = before ++ todo := by
      rw [List.eraseIdx_append_of_length_le (le_refl _), Nat.sub_self, List.eraseIdx_cons_zero]
    simp only [if_true] at hpoll hnum ⊢
    rw [h.pollFds, herase] at hpoll
    refine ⟨hpoll, ?_, hdistinct, hregistered, hreceives⟩
    rw [hnum, h.counted, h.pollFds, hpoll, List.length_append, List.length_append,
      List.length_cons]
    omega
  | false =>
    simp only [Bool.false_eq_true, if_false] at hpoll hnum ⊢
    refine ⟨?_, ?_, hdistinct, hregistered, hreceives⟩
    · rw [hpoll, h.pollFds, List.append_assoc, List.singleton_append]
    · rw [hnum, hpoll, h.counted]

/-- The rest of the walk handles the ready entries in order and keeps those that
stay, or ends at an answer that cannot be sent. -/
theorem Walking.run (envs : Int → Env) (h : Walking socks s before todo)
    (hrounds : todo.length < rounds) :
    Leaves socks (clientLoop envs socks rounds s before.length) (readyFds todo)
        (before ++ todo.filter (stays socks)) ∨
      (∃ fd, ¬ (envs fd).Sends) ∧
        DiesAmong (clientLoop envs socks rounds s before.length) (readyFds todo) := by
  induction todo generalizing s before rounds with
  | nil =>
    cases rounds with
    | zero => omega
    | succ rounds =>
      have hpoll : s.pollFds = before := by rw [h.pollFds, List.append_nil]
      have hend : clientLoop envs socks (rounds + 1) s before.length = pure s := by
        simp only [clientLoop, hpoll, if_true]
      left
      rw [hend, List.filter_nil, List.append_nil]
      exact ⟨s, [], rfl, rfl, rfl, by simp, rfl, hpoll, by rw [h.counted, hpoll]⟩
  | cons p todo ih =>
    cases rounds with
    | zero => omega
    | succ rounds =>
      have hfewer : todo.length < rounds := by simpa using hrounds
      cases hready : p.revents with
      | false =>
        have hfds : readyFds (p :: todo) = readyFds todo := by simp [readyFds, hready]
        have hkept : before ++ (p :: todo).filter (stays socks) =
            before ++ [p] ++ todo.filter (stays socks) := by
          simp [stays, hready]
        have hlength : before.length + 1 = (before ++ [p]).length := by simp
        rw [clientLoop_skips h.entry hready, hfds, hkept, hlength]
        exact ih h.skip hfewer
      | true =>
        have hfds : readyFds (p :: todo) = p.fd :: readyFds todo := by simp [readyFds, hready]
        have hmem : p ∈ p :: todo := List.mem_cons_self
        rw [hfds]
        rcases serveClient_registered (envs p.fd) before.length (h.registered p hmem)
          (h.receives p hmem hready) with ⟨out, s', hserve, hleft⟩ | ⟨hfails, out, hserve⟩
        · -- Where the entry was erased the iterator stays, and so does what is before it.
          have hkept : before ++ (p :: todo).filter (stays socks) =
              (if closes (socks p.fd) then before else before ++ [p]) ++
                todo.filter (stays socks) := by
            cases hclosed : closes (socks p.fd) <;> simp [stays, hready, hclosed]
          have hlength : (if closes (socks p.fd) then before.length else before.length + 1) =
              (if closes (socks p.fd) then before else before ++ [p]).length := by
            split <;> simp
          have hnext := ih (h.serve hleft) hfewer
          rw [clientLoop_serves h.entry hready hserve, hkept, hlength]
          exact hnext.imp (Leaves.cons (attended_of_serve hserve)) fun hdies =>
            ⟨hdies.1, hdies.2.cons⟩
        · right
          rw [clientLoop_dies h.entry hready hserve]
          refine ⟨⟨p.fd, hfails⟩, rfl, ?_⟩
          have hseen := handled_cons p.fd out []
          rw [List.append_nil] at hseen
          rw [hseen]
          exact ⟨readyFds todo, rfl⟩

end Walk

section Round

variable (envs : Int → Env) {socks : Int → Socket} {s : Server} {rounds : ℕ}

/-- The walk from the first client entry. -/
theorem clientLoop_run (hcounted : s.numPollfds = s.pollFds.length)
    (hlistening : 3 ≤ s.pollFds.length) (hdistinct : s.clientFds.Nodup)
    (hregistered : ∀ fd ∈ s.clientFds, Registered s fd)
    (hreceives : ∀ p ∈ s.pollFds.drop 3, p.revents = true → Receives (socks p.fd))
    (hrounds : s.pollFds.length < rounds) :
    Leaves socks (clientLoop envs socks rounds s 3) (readyFds (s.pollFds.drop 3))
        (s.pollFds.take 3 ++ (s.pollFds.drop 3).filter (stays socks)) ∨
      (∃ fd, ¬ (envs fd).Sends) ∧
        DiesAmong (clientLoop envs socks rounds s 3) (readyFds (s.pollFds.drop 3)) := by
  have hlength : (s.pollFds.take 3).length = 3 := by
    rw [List.length_take]
    omega
  have hwalking : Walking socks s (s.pollFds.take 3) (s.pollFds.drop 3) :=
    ⟨(List.take_append_drop 3 _).symm, hcounted, hdistinct,
      fun p hp => hregistered p.fd (List.mem_map_of_mem hp), hreceives⟩
  have hfewer : (s.pollFds.drop 3).length < rounds := by
    rw [List.length_drop]
    omega
  have hrun := hwalking.run envs hfewer
  rw [hlength] at hrun
  exact hrun

/-- The whole client part of a round, whether it is entered or not. -/
theorem serveClients_run (hcounted : s.numPollfds = s.pollFds.length)
    (hdistinct : s.clientFds.Nodup)
    (hregistered : ∀ fd ∈ s.clientFds, Registered s fd)
    (hreceives : ∀ p ∈ s.pollFds.drop 3, p.revents = true → Receives (socks p.fd))
    (hrounds : s.pollFds.length < rounds) :
    Leaves socks (serveClients envs socks rounds s) (readyFds (s.pollFds.drop 3))
        (s.pollFds.take 3 ++ (s.pollFds.drop 3).filter (stays socks)) ∨
      (∃ fd, ¬ (envs fd).Sends) ∧
        DiesAmong (serveClients envs socks rounds s) (readyFds (s.pollFds.drop 3)) := by
  unfold serveClients
  by_cases hfew : s.numPollfds < 4
  · have hshort : s.pollFds.length ≤ 3 := by omega
    rw [if_pos hfew, List.drop_eq_nil_of_le hshort, List.take_of_length_le hshort,
      List.filter_nil, List.append_nil]
    exact Or.inl ⟨s, [], rfl, rfl, rfl, by simp, rfl, rfl, hcounted⟩
  · rw [if_neg hfew]
    exact clientLoop_run envs hcounted (by omega) hdistinct hregistered hreceives hrounds

theorem mem_readyFds {entries : List PollFd} {fd : Int} :
    fd ∈ readyFds entries ↔ ∃ p ∈ entries, p.revents = true ∧ p.fd = fd := by
  simp [readyFds, and_assoc]

/-- An entry that accept has just appended is not among the ready ones. -/
theorem accepted_not_ready {env : Env} {s₀ : Server} {addr : SockAddr} {newFd : Int}
    {sock : Socket} {out : List Effect} (hfresh : newFd ∉ s₀.clientFds)
    (h : manageConnectionRequest env s₀ addr newFd sock = ⟨out, .ok s⟩) :
    newFd ∉ readyFds (s.pollFds.drop 3) := by
  obtain ⟨-, -, id, -, hadmit⟩ := manageConnectionRequest_eq_ok.mp h
  intro hmem
  obtain ⟨p, hp, hready, hfd⟩ := mem_readyFds.mp hmem
  have hold : p ∉ s₀.pollFds.drop 3 := by
    intro hin
    exact hfresh (hfd ▸ List.mem_map_of_mem hin)
  rcases admitOrDecline_eq_ok.mp hadmit with ⟨-, -, rfl, -⟩ | ⟨-, -, rfl, -⟩
  · exact hold hp
  · have happended : (enrol s₀ id newFd).pollFds = s₀.pollFds ++ [⟨newFd, false⟩] := rfl
    rw [happended, List.drop_append] at hp
    rcases List.mem_append.mp hp with hin | hnew
    · exact hold hin
    · have heq := List.mem_singleton.mp (List.mem_of_mem_drop hnew)
      rw [heq] at hready
      exact Bool.noConfusion hready

/-- One round serves every ready client once, in the order of the poll vector, and
no other one, not even one accepted in the same round: it closes the descriptor or sends
one answer; behind the first three entries it leaves those whose client has not closed.
Only an answer that cannot be sent ends the process on the way. -/
theorem round_serves_ready (hcounted : s.numPollfds = s.pollFds.length)
    (hdistinct : s.clientFds.Nodup) (hregistered : ∀ fd ∈ s.clientFds, Registered s fd)
    (hreceives : ∀ p ∈ s.pollFds.drop 3, p.revents = true → Receives (socks p.fd))
    (hrounds : s.pollFds.length < rounds) :
    ((∀ fd, (envs fd).Sends) →
      Leaves socks (serveClients envs socks rounds s) (readyFds (s.pollFds.drop 3))
        (s.pollFds.take 3 ++ (s.pollFds.drop 3).filter (stays socks))) ∧
    (Leaves socks (serveClients envs socks rounds s) (readyFds (s.pollFds.drop 3))
        (s.pollFds.take 3 ++ (s.pollFds.drop 3).filter (stays socks)) ∨
      DiesAmong (serveClients envs socks rounds s) (readyFds (s.pollFds.drop 3))) ∧
    (handled (serveClients envs socks rounds s).effects).Nodup ∧
    (∀ p ∈ s.pollFds.drop 3, p.revents = false →
      p.fd ∉ handled (serveClients envs socks rounds s).effects) ∧
    ∀ env s₀ addr newFd sock out, newFd ∉ s₀.clientFds →
      manageConnectionRequest env s₀ addr newFd sock = ⟨out, .ok s⟩ →
      newFd ∉ handled (serveClients envs socks rounds s).effects := by
  have hrun := serveClients_run envs hcounted hdistinct hregistered hreceives hrounds
  have hinit : handled (serveClients envs socks rounds s).effects <+:
      readyFds (s.pollFds.drop 3) := by
    rcases hrun with ⟨s', outs, -, -, -, -, hhandled, -⟩ | ⟨-, hdies⟩
    · rw [hhandled]
    · exact hdies.2
  refine ⟨?_, ?_, ?_, ?_, ?_⟩
  · intro hsends
    refine hrun.resolve_right ?_
    intro hfails
    obtain ⟨fd, hfd⟩ := hfails.1
    exact hfd (hsends fd)
  · exact hrun.imp_right And.right
  · exact (hdistinct.sublist (List.filter_sublist.map PollFd.fd)).sublist hinit.sublist
  · intro p hp hready hmem
    obtain ⟨q, hq, hready', hfd⟩ := mem_readyFds.mp (hinit.subset hmem)
    have heq : q = p := List.inj_on_of_nodup_map hdistinct hq hp hfd
    rw [heq, hready] at hready'
    exact Bool.noConfusion hready'
  · intro env s₀ addr newFd sock out hfresh h hmem
    exact accepted_not_ready hfresh h (hinit.subset hmem)

def bothReady : Server :=
  { audience with pollFds := [⟨0, false⟩, ⟨3, false⟩, ⟨4, false⟩, ⟨5, true⟩, ⟨6, true⟩] }

def firstCloses (fd : Int) : Socket := ⟨if fd = 5 then [] else unsubscribeT.encode, []⟩

theorem round_serves_ready_both :
    Leaves firstCloses (serveClients (fun _ => Env.plain) firstCloses 6 bothReady) [5, 6]
      [⟨0, false⟩, ⟨3, false⟩, ⟨4, false⟩, ⟨6, true⟩] := by
  have hregistered : ∀ fd ∈ bothReady.clientFds, Registered bothReady fd := by
    intro fd hfd
    have haudience : Registered audience fd :=
      registered_of_consistent reachable_audience.consistent hfd
    exact haudience
  have hreceives : ∀ p ∈ bothReady.pollFds.drop 3, p.revents = true →
      Receives (firstCloses p.fd) := by
    intro p hp _
    have hp' : p = ⟨5, true⟩ ∨ p = ⟨6, true⟩ := by simpa [bothReady] using hp
    rcases hp' with rfl | rfl
    · exact Or.inl (by decide)
    · exact Or.inr ⟨by decide, ascii "t", by rfl⟩
  exact (round_serves_ready (fun _ => Env.plain) rfl (by decide) hregistered hreceives
    (by decide)).1 fun _ => Env.plain_sends

end Round

section Steps

open Runs PollRounds

variable {envs : Int → Env} {socks : Int → Socket} {sys sys' : System} {env : Env} {newFd : Int}
  {calls : List Call} {out : List Effect} {rounds k : ℕ}

def performed (seen : List Handling) : List Effect :=
  seen.filterMap fun
    | .received _ => none
    | .effect e => some e

theorem performed_append (seen later : List Handling) :
    performed (seen ++ later) = performed seen ++ performed later := List.filterMap_append ..

theorem performed_handling (r : Int × List Effect) : performed (handling r) = r.2 := by
  simp [performed, handling, List.filterMap_map]

theorem performed_outs (outs : List (Int × List Effect)) :
    performed (outs.flatMap handling) = outs.flatMap Prod.snd := by
  induction outs with
  | nil => rfl
  | cons r outs ih => rw [List.flatMap_cons, performed_append, performed_handling, ih,
      List.flatMap_cons]

/-- A step of the server's loop at a client entry is one iteration of the walk, and
leaves fewer entries to come. -/
theorem iteration_of_advance (hphase : sys.phase = .entry (k + 3))
    (hle : k + 3 ≤ sys.server.pollFds.length)
    (hreads : ∀ p, sys.server.pollFds[k + 3]? = some p →
      envs p.fd = env ∧ socks p.fd = ⟨(sys.channels p.fd).arrived, calls⟩)
    (h : sys.advance env newFd calls = some (sys', out)) :
    (sys'.phase = .poll ∧ out = [] ∧
        clientLoop envs socks (rounds + 1) sys.server (k + 3) = pure sys'.server) ∨
      ∃ k' seen, sys'.phase = .entry (k' + 3) ∧ performed seen = out ∧
        k' + 3 ≤ sys'.server.pollFds.length ∧
        sys'.server.pollFds.length - (k' + 3) < sys.server.pollFds.length - (k + 3) ∧
        clientLoop envs socks (rounds + 1) sys.server (k + 3) =
          ⟨seen ++ (clientLoop envs socks rounds sys'.server (k' + 3)).effects,
            (clientLoop envs socks rounds sys'.server (k' + 3)).result⟩ := by
  simp only [System.advance, hphase] at h
  cases hentry : sys.server.pollFds[k + 3]? with
  | none =>
    simp only [hentry, Option.some.injEq, Prod.mk.injEq] at h
    obtain ⟨rfl, rfl⟩ := h
    have hend : k + 3 = sys.server.pollFds.length :=
      le_antisymm hle (List.getElem?_eq_none_iff.mp hentry)
    refine Or.inl ⟨rfl, rfl, ?_⟩
    simp only [clientLoop, if_pos hend]
  | some p =>
    right
    have hlt : k + 3 < sys.server.pollFds.length := (List.getElem?_eq_some_iff.mp hentry).1
    simp only [hentry] at h
    cases hready : p.revents with
    | false =>
      simp only [hready, Bool.false_eq_true, if_false, Option.some.injEq, Prod.mk.injEq] at h
      obtain ⟨rfl, rfl⟩ := h
      refine ⟨k + 1, [], ?_, rfl, ?_, ?_, clientLoop_skips hentry hready⟩
      · simp [System.nextPhase]
      · dsimp only
        omega
      · dsimp only
        omega
    | true =>
      obtain ⟨henv, hsock⟩ := hreads p hentry
      simp only [hready, if_true, System.serve] at h
      split_ifs at h
      simp only [Option.bind_eq_bind, Option.bind_eq_some_iff, Prod.exists] at h
      obtain ⟨server, deleted, out', hserve, h⟩ := h
      rw [Nat.add_comm 3 k, ← henv, ← hsock] at hserve
      have hserved := Outcome.toStep_eq_some.mp hserve
      have hpoll := (left_of_serve hserved).pollFds
      cases deleted with
      | true =>
        simp only [if_true] at h hpoll
        have hlength : server.pollFds.length = sys.server.pollFds.length - 1 := by
          rw [hpoll, List.length_eraseIdx_of_lt hlt]
        obtain ⟨rfl, rfl⟩ := Prod.mk.inj (Option.some.inj h)
        refine ⟨k, handling (p.fd, out'), rfl, performed_handling _, ?_, ?_,
          clientLoop_serves hentry hready hserved⟩
        · dsimp only
          omega
        · dsimp only
          omega
      | false =>
        simp only [Bool.false_eq_true, if_false] at h hpoll
        obtain ⟨rfl, rfl⟩ := Prod.mk.inj (Option.some.inj h)
        refine ⟨k + 1, handling (p.fd, out'), rfl, performed_handling _, ?_, ?_,
          clientLoop_serves hentry hready hserved⟩
        · dsimp only
          rw [hpoll]
          omega
        · dsimp only
          rw [hpoll]
          omega

/-- The loop is at a client entry, and its next step finds on the descriptor what the
walk is given for it. -/
def Agrees (envs : Int → Env) (socks : Int → Socket) (sys : System) (m : Move) : Prop :=
  ∃ k, sys.phase = .entry (k + 3) ∧ ∀ env newFd calls p, m = .serves env newFd calls →
    sys.server.pollFds[k + 3]? = some p →
      envs p.fd = env ∧ socks p.fd = ⟨(sys.channels p.fd).arrived, calls⟩

/-- What arrives changes nothing the loop is doing. -/
theorem move_arrival {m : Move} (h : move sys m = some (sys', out))
    (hnot : ∀ env newFd calls, m ≠ .serves env newFd calls) :
    sys'.server = sys.server ∧ sys'.phase = sys.phase ∧ out = [] := by
  cases m with
  | serves env newFd calls => exact absurd rfl (hnot env newFd calls)
  | types | publishes | connects =>
    obtain ⟨rfl, rfl⟩ := Prod.mk.inj (Option.some.inj h)
    exact ⟨rfl, rfl, rfl⟩
  | presents n bytes =>
    simp only [move, Option.bind_eq_bind, Option.bind_eq_some_iff] at h
    obtain ⟨a, -, h⟩ := h
    split_ifs at h
    obtain ⟨rfl, rfl⟩ := Prod.mk.inj (Option.some.inj h)
    exact ⟨rfl, rfl, rfl⟩
  | abandons n =>
    simp only [move, Option.bind_eq_bind, Option.bind_eq_some_iff] at h
    obtain ⟨a, -, h⟩ := h
    obtain ⟨rfl, rfl⟩ := Prod.mk.inj (Option.some.inj h)
    exact ⟨rfl, rfl, rfl⟩
  | sends fd bytes =>
    simp only [move] at h
    split_ifs at h
    obtain ⟨rfl, rfl⟩ := Prod.mk.inj (Option.some.inj h)
    exact ⟨rfl, rfl, rfl⟩
  | closes fd =>
    simp only [move] at h
    split_ifs at h
    obtain ⟨rfl, rfl⟩ := Prod.mk.inj (Option.some.inj h)
    exact ⟨rfl, rfl, rfl⟩

/-- From a client entry to the next poll, whatever arrives meanwhile, the server's loop
is the rest of the walk. -/
theorem walk_of_moves {ms : List Move} (hphase : sys.phase = .entry (k + 3))
    (hle : k + 3 ≤ sys.server.pollFds.length) (hagrees : Along move (Agrees envs socks) sys ms)
    (hrun : exec move sys ms = some (sys', out)) (hend : sys'.phase = .poll)
    (hrounds : sys.server.pollFds.length - (k + 3) < rounds) :
    (clientLoop envs socks rounds sys.server (k + 3)).result = .ok sys'.server ∧
      performed (clientLoop envs socks rounds sys.server (k + 3)).effects = out := by
  induction ms generalizing sys out k rounds with
  | nil =>
    obtain ⟨rfl, -⟩ := Prod.mk.inj (Option.some.inj hrun)
    rw [hphase] at hend
    exact Phase.noConfusion hend
  | cons m ms ih =>
    obtain ⟨sys₁, o, o', hmove, hrest, rfl⟩ := exec_cons.mp hrun
    obtain ⟨⟨k₀, hphase₀, hreads⟩, hnext⟩ := hagrees
    have hlater := hnext sys₁ o hmove
    rw [hphase, Phase.entry.injEq] at hphase₀
    obtain rfl : k₀ = k := by omega
    by_cases hserves : ∃ env newFd calls, m = .serves env newFd calls
    · obtain ⟨env, newFd, calls, rfl⟩ := hserves
      obtain ⟨rounds, rfl⟩ : ∃ n, rounds = n + 1 := ⟨rounds - 1, by omega⟩
      rcases iteration_of_advance hphase hle (fun p => hreads env newFd calls p rfl) hmove with
        ⟨hpoll, rfl, hwalk⟩ | ⟨k', seen, hphase', rfl, hle', hfewer, hwalk⟩
      · -- Nothing of the round is left.
        cases ms with
        | nil =>
          obtain ⟨rfl, rfl⟩ := Prod.mk.inj (Option.some.inj hrest)
          rw [hwalk]
          exact ⟨rfl, rfl⟩
        | cons m' ms =>
          obtain ⟨k'', hphase'', -⟩ := hlater.1
          rw [hpoll] at hphase''
          exact Phase.noConfusion hphase''
      · have hrounds' : sys₁.server.pollFds.length - (k' + 3) < rounds := by omega
        obtain ⟨hresult, hdone⟩ := ih hphase' hle' hlater hrest hrounds'
        rw [hwalk]
        refine ⟨hresult, ?_⟩
        rw [performed_append, hdone]
    · obtain ⟨hserver, hsame, rfl⟩ := move_arrival hmove fun env newFd calls heq =>
        hserves ⟨env, newFd, calls, heq⟩
      rw [← hserver] at hle hrounds ⊢
      exact ih (hsame.trans hphase) hle hlater hrest hrounds

/-- In every run of the loop the client part of a round attends to the clients that poll
reported, each once and in their order, whatever arrives meanwhile. -/
theorem moves_attend_ready {udpSockfd tcpSockfd : Int} {before ms : List Move}
    {seen : List Effect}
    (hadmissible : Along move Admissible (System.start udpSockfd tcpSockfd) before)
    (hbefore : exec move (System.start udpSockfd tcpSockfd) before = some (sys, seen))
    (hphase : sys.phase = .entry 3) (hagrees : Along move (Agrees envs socks) sys ms)
    (hrun : exec move sys ms = some (sys', out)) (hend : sys'.phase = .poll)
    (hreceives : ∀ p ∈ sys.server.pollFds.drop 3, p.revents = true → Receives (socks p.fd)) :
    ∃ outs : List (Int × List Effect), out = outs.flatMap Prod.snd ∧
      outs.map Prod.fst = readyFds (sys.server.pollFds.drop 3) ∧
      (∀ r ∈ outs, Attended socks r.1 r.2) ∧
      sys'.server.pollFds = sys.server.pollFds.take 3 ++
        (sys.server.pollFds.drop 3).filter (stays socks) := by
  have hconsistent := (sound_run hadmissible hbefore).consistent
  have hrounds : sys.server.pollFds.length - (0 + 3) < sys.server.pollFds.length + 1 := by omega
  obtain ⟨hresult, hdone⟩ :=
    walk_of_moves hphase hconsistent.listening hagrees hrun hend hrounds
  rcases clientLoop_run envs hconsistent.counted hconsistent.listening hconsistent.leased.nodup
    (fun fd hfd => registered_of_consistent hconsistent hfd) hreceives
    (Nat.lt_succ_self sys.server.pollFds.length) with
    ⟨s', outs, hresult', heffects, hfds, hall, -, hpoll, -⟩ | ⟨-, hdies, -⟩
  · rw [hresult', Except.ok.injEq] at hresult
    rw [heffects, performed_outs] at hdone
    exact ⟨outs, hdone.symm, hfds, hall, hresult ▸ hpoll⟩
  · rw [hdies] at hresult
    simp at hresult

end Steps

end ServerClientApp.ClientLoop
