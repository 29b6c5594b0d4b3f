import Mathlib.Data.Finset.Basic
import ServerClientApp.LineInput
import ServerClientApp.ServerRuns
import ServerClientApp.Words

/-!
The standard output of the server, read by someone who sees nothing else. Every line can
be told from the others, and its client id read from it; replayed one after another the
lines say at every moment which ids are registered and which of them are connected.
-/

namespace ServerClientApp.Transcripts

open PartialTransfers Outcomes Runs Protocols Wildcards Datagrams ServerHandlers HandlerSpecs
  ServerRuns LineInput Words

section Notices

/-- What a line of the output says; `first` marks an id that was not registered before. -/
inductive Notice where
  | onlyExit
  | arrived (id : ClientId) (origin : Bytes) (first : Bool)
  | refused (id : ClientId)
  | left (id : ClientId)
  deriving DecidableEq, Repr

def Notice.render : Notice → Bytes
  | onlyExit => ascii "Only exit command is supported"
  | arrived id origin first =>
    ascii "New client " ++ (id ++ ascii " connected from " ++ origin ++
      if first then ascii "." else [])
  | refused id => ascii "Client " ++ (id ++ ascii " already connected.")
  | left id => ascii "Client " ++ (id ++ ascii " disconnected.")

/-- Behind "New client ". The address has no blank in it, so the id ends before the last
one. -/
def readArrival (text : Bytes) : Option Notice :=
  let (text, first) :=
    match text.dropSuffix? (ascii ".") with
    | some text => (text, true)
    | none => (text, false)
  let front := upToLast 32 text
  (front.dropSuffix? (ascii " connected from ")).map fun id =>
    .arrived id (text.drop front.length) first

def readClient (text : Bytes) : Option Notice :=
  match text.dropSuffix? (ascii " disconnected.") with
  | some id => some (.left id)
  | none => (text.dropSuffix? (ascii " already connected.")).map .refused

def readNotice (line : Bytes) : Option Notice :=
  if line = ascii "Only exit command is supported" then some .onlyExit
  else
    match line.dropPrefix? (ascii "New client ") with
    | some text => readArrival text
    | none => (line.dropPrefix? (ascii "Client ")).bind readClient

def Notice.Clean : Notice → Prop
  | onlyExit => True
  | arrived id origin _ =>
    10 ∉ id ∧ 10 ∉ origin ∧ 32 ∉ origin ∧ ¬ ascii "." <:+ origin ∧ origin ≠ []
  | refused id | left id => 10 ∉ id

variable {n : Notice}

theorem readArrival_render {id origin : Bytes} (hblank : 32 ∉ origin)
    (hdot : ¬ ascii "." <:+ origin) (hne : origin ≠ []) (first : Bool) :
    readArrival (id ++ ascii " connected from " ++ origin ++ if first then ascii "." else []) =
      some (.arrived id origin first) := by
  have hlength : (ascii ".").length ≤ origin.length := List.length_pos_of_ne_nil hne
  have hblanks : ascii " connected from " = ascii " connected from" ++ [32] := by decide
  have hfront : upToLast 32 (id ++ ascii " connected from " ++ origin) =
      id ++ ascii " connected from " := by
    have hsplit : id ++ ascii " connected from " ++ origin =
        id ++ ascii " connected from" ++ 32 :: origin := by
      rw [hblanks]
      simp only [List.append_assoc, List.singleton_append]
    rw [hsplit, upToLast_append hblank, hblanks, List.append_assoc]
  have hmarked : (id ++ ascii " connected from " ++ origin ++
      if first then ascii "." else []).dropSuffix? (ascii ".") =
        if first then some (id ++ ascii " connected from " ++ origin) else none := by
    cases first with
    | true => exact dropSuffix_append _ _
    | false =>
      rw [if_neg Bool.false_ne_true, if_neg Bool.false_ne_true, List.append_nil]
      exact dropSuffix_none (not_suffix_append hlength hdot _)
  unfold readArrival
  rw [hmarked]
  cases first with
  | true =>
    simp only [if_true, hfront, dropSuffix_append, List.drop_left, Option.map_some]
  | false =>
    simp only [Bool.false_eq_true, if_false, List.append_nil, hfront, dropSuffix_append,
      List.drop_left, Option.map_some]

/-- Lines are told apart by their first bytes. -/
theorem dropPrefix_client (text : Bytes) :
    (ascii "Client " ++ text).dropPrefix? (ascii "New client ") = none := by
  rw [Option.eq_none_iff_forall_ne_some]
  intro rest hrest
  obtain ⟨front, heq, hfront⟩ := List.dropPrefix?_eq_some_iff.mp hrest
  rw [eq_of_beq hfront] at heq
  have hhead := congrArg List.head? heq
  simp [ascii] at hhead

theorem readClient_refused (id : ClientId) :
    readClient (id ++ ascii " already connected.") = some (.refused id) := by
  have hother : (id ++ ascii " already connected.").dropSuffix? (ascii " disconnected.") = none :=
    dropSuffix_none (not_suffix_append (by decide) (by decide) id)
  rw [readClient, hother, dropSuffix_append, Option.map_some]

theorem readClient_left (id : ClientId) :
    readClient (id ++ ascii " disconnected.") = some (.left id) := by
  rw [readClient, dropSuffix_append]

theorem readNotice_eq {line : Bytes} (h : line.head? ≠ some 79) :
    readNotice line =
      match line.dropPrefix? (ascii "New client ") with
      | some text => readArrival text
      | none => (line.dropPrefix? (ascii "Client ")).bind readClient := by
  have hother : line ≠ ascii "Only exit command is supported" := by
    rintro rfl
    exact h rfl
  rw [readNotice, if_neg hother]

/-- Every line is read as what it says. -/
theorem readNotice_render (h : n.Clean) : readNotice n.render = some n := by
  cases n with
  | onlyExit => rfl
  | arrived id origin first =>
    obtain ⟨-, -, hblank, hdot, hne⟩ := h
    rw [readNotice_eq (by simp [Notice.render, ascii]), Notice.render, dropPrefix_append]
    exact readArrival_render hblank hdot hne first
  | refused id =>
    rw [readNotice_eq (by simp [Notice.render, ascii]), Notice.render, dropPrefix_client,
      dropPrefix_append]
    exact readClient_refused id
  | left id =>
    rw [readNotice_eq (by simp [Notice.render, ascii]), Notice.render, dropPrefix_client,
      dropPrefix_append]
    exact readClient_left id

/-- A line does not end before its end. -/
theorem newline_render (h : n.Clean) : 10 ∉ n.render := by
  cases n with
  | onlyExit => decide
  | arrived id origin first =>
    obtain ⟨hid, horigin, -⟩ := h
    have hmark : 10 ∉ (if first then ascii "." else [] : Bytes) := by cases first <;> decide
    have hnew : 10 ∉ ascii "New client " := by decide
    have hfrom : 10 ∉ ascii " connected from " := by decide
    simp only [Notice.render, List.mem_append, hid, horigin, hmark, hnew, hfrom, or_self,
      not_false_eq_true]
  | refused id =>
    have hid : 10 ∉ id := h
    have hclient : 10 ∉ ascii "Client " := by decide
    have hsays : 10 ∉ ascii " already connected." := by decide
    simp only [Notice.render, List.mem_append, hid, hclient, hsays, or_self, not_false_eq_true]
  | left id =>
    have hid : 10 ∉ id := h
    have hclient : 10 ∉ ascii "Client " := by decide
    have hsays : 10 ∉ ascii " disconnected." := by decide
    simp only [Notice.render, List.mem_append, hid, hclient, hsays, or_self, not_false_eq_true]

end Notices

section Output

variable {env : Env} {s s' : Server} {out : List Effect} {event : Event}

def stdout (out : List Effect) : Bytes :=
  out.flatMap fun
    | .printed text => text
    | .wrote .. | .closed _ | .complained _ => []

theorem stdout_append (out later : List Effect) :
    stdout (out ++ later) = stdout out ++ stdout later := List.flatMap_append

def transcript (notices : List Notice) : Bytes :=
  notices.flatMap fun n => n.render ++ [10]

theorem completeLines_transcript {notices : List Notice} (h : ∀ n ∈ notices, n.Clean) :
    completeLines 10 (transcript notices) = notices.map Notice.render := by
  have hlines : transcript notices = (notices.map Notice.render).flatMap (· ++ [10]) ++ [] := by
    rw [List.append_nil, List.flatMap_map]
    rfl
  have hclean : ∀ line ∈ notices.map Notice.render, (10 : UInt8) ∉ line := by
    intro line hmem
    obtain ⟨n, hn, rfl⟩ := List.mem_map.mp hmem
    exact newline_render (h n hn)
  rw [hlines, completeLines_append hclean, completeLines_eq_nil.mpr List.not_mem_nil,
    List.append_nil]

/-- The ids that have been registered, and those of them that are connected. -/
structure Roster where
  registered : Finset ClientId
  connected : Finset ClientId
  deriving DecidableEq

def Roster.note (r : Roster) : Notice → Roster
  | .arrived id _ _ => ⟨insert id r.registered, insert id r.connected⟩
  | .left id => ⟨r.registered, r.connected.erase id⟩
  | .refused _ | .onlyExit => r

def replay (lines : List Bytes) : Roster := (lines.filterMap readNotice).foldl Roster.note ⟨∅, ∅⟩

theorem replay_render {notices : List Notice} (h : ∀ n ∈ notices, n.Clean) :
    replay (notices.map Notice.render) = notices.foldl Roster.note ⟨∅, ∅⟩ := by
  have hread : (notices.map Notice.render).filterMap readNotice = notices := by
    rw [List.filterMap_map]
    refine (List.filterMap_congr ?_).trans List.filterMap_some
    exact fun n hn => readNotice_render (h n hn)
  rw [replay, hread]

def origin (addr : SockAddr) : Bytes := inetNtoa addr.ip ++ ascii ":" ++ decimal addr.port.toNat

theorem decimal_ne_nil (n : ℕ) : decimal n ≠ [] := by
  simp [decimal]

theorem origin_bytes {addr : SockAddr} {b : UInt8} (h : b ∈ origin addr) :
    b = 46 ∨ b = 58 ∨ 48 ≤ b.toNat := by
  have hdot : ascii "." = [46] := rfl
  have hcolon : ascii ":" = [58] := rfl
  simp only [origin, inetNtoa, hdot, hcolon, List.mem_append, List.mem_singleton] at h
  have hdigit {n : ℕ} (hmem : b ∈ decimal n) : 48 ≤ b.toNat := (decimal_digit hmem).1
  tauto

theorem clean_arrived {id : ClientId} (hid : 10 ∉ id) (addr : SockAddr) (first : Bool) :
    (Notice.arrived id (origin addr) first).Clean := by
  refine ⟨hid, ?_, ?_, ?_, ?_⟩
  · intro hmem
    rcases origin_bytes hmem with h | h | h <;> revert h <;> decide
  · intro hmem
    rcases origin_bytes hmem with h | h | h <;> revert h <;> decide
  · -- The last byte is a digit of the port.
    intro hsuffix
    have hlast : ascii "." <:+ decimal addr.port.toNat :=
      List.suffix_of_suffix_length_le hsuffix (List.suffix_append _ _)
        (List.length_pos_of_ne_nil (decimal_ne_nil _))
    have hdigit := decimal_digit (hlast.subset (show 46 ∈ ascii "." by decide))
    revert hdigit
    decide
  · simp [origin, ascii]

end Output

section Runs

variable {env : Env} {s s' : Server} {past out : List Effect} {notices : List Notice} {n : Notice}
  {event : Event}

/-- The peer gives itself an id that fits on one line. -/
def OneLine (_ : Server) (i : Env × Event) : Prop :=
  match i.2 with
  | .connection _ _ sock =>
    ∀ id, cString (recvEfficient sock TcpMessage.zero).msg.payload = .ok id → 10 ∉ id
  | .line _ | .datagram _ | .readable .. => True

instance (s : Server) : ∀ i, Decidable (OneLine s i)
  | (_, .connection _ _ sock) =>
    match h : cString (recvEfficient sock TcpMessage.zero).msg.payload with
    | .ok id => decidable_of_iff (10 ∉ id) (by simp [OneLine, h])
    | .error _ => isTrue (by simp [OneLine, h])
  | (_, .line _) | (_, .datagram _) | (_, .readable ..) => isTrue trivial

/-- What a line can say behind the others. -/
def Roster.Allows (r : Roster) : Notice → Prop
  | .arrived id _ first => id ∉ r.connected ∧ (first = true ↔ id ∉ r.registered)
  | .refused id | .left id => id ∈ r.connected
  | .onlyExit => True

def roster (notices : List Notice) : Roster := notices.foldl Roster.note ⟨∅, ∅⟩

theorem roster_concat (notices : List Notice) (n : Notice) :
    roster (notices ++ [n]) = (roster notices).note n := by
  rw [roster, List.foldl_append]
  rfl

structure Roster.Knows (r : Roster) (s : Server) : Prop where
  registered : ∀ id, id ∈ r.registered ↔ (s.client id).isSome = true
  connected : ∀ id, id ∈ r.connected ↔ (holder s id).isSome = true

/-- The output so far is these lines, and they tell the state of the server. -/
structure Told (s : Server) (past : List Effect) (notices : List Notice) : Prop where
  clean : ∀ n ∈ notices, n.Clean
  shown : stdout past = transcript notices
  allowed : ∀ before n after, notices = before ++ n :: after → (roster before).Allows n
  knows : (roster notices).Knows s
  oneLine : ∀ id, (s.client id).isSome = true → 10 ∉ id

theorem told_prepare (udpSockfd tcpSockfd : Int) :
    Told (Server.prepare udpSockfd tcpSockfd) [] [] where
  clean := by simp
  shown := rfl
  allowed := by simp
  knows := ⟨by simp [roster, Server.prepare, Server.client],
    by simp [roster, holder, Server.prepare, Server.client]⟩
  oneLine := by simp [Server.prepare, Server.client]

/-- An event that prints nothing and leaves the ids as they are. -/
theorem Told.quiet (h : Told s past notices) (hshown : stdout out = [])
    (hclient : ∀ id, (s'.client id).isSome = (s.client id).isSome)
    (hholder : holder s' = holder s) :
    Told s' (past ++ out) notices where
  clean := h.clean
  shown := by rw [stdout_append, hshown, List.append_nil, h.shown]
  allowed := h.allowed
  knows := by
    constructor
    · intro id
      rw [hclient id]
      exact h.knows.registered id
    · intro id
      rw [hholder]
      exact h.knows.connected id
  oneLine := by
    intro id hid
    rw [hclient id] at hid
    exact h.oneLine id hid

/-- An event that prints one line. -/
theorem Told.tell (h : Told s past notices) (hclean : n.Clean)
    (hallows : (roster notices).Allows n) (hshown : stdout out = n.render ++ [10])
    (hknows : ((roster notices).note n).Knows s')
    (honeLine : ∀ id, (s'.client id).isSome = true → 10 ∉ id) :
    Told s' (past ++ out) (notices ++ [n]) where
  clean := by
    intro m hm
    rcases List.mem_append.mp hm with hm | hm
    · exact h.clean m hm
    · rwa [List.mem_singleton.mp hm]
  shown := by
    rw [stdout_append, h.shown, hshown, transcript, transcript, List.flatMap_append,
      List.flatMap_singleton]
  allowed := by
    intro before m after heq
    rcases List.eq_nil_or_concat' after with rfl | ⟨rest, last, rfl⟩
    · obtain ⟨rfl, hm⟩ := List.append_inj' heq rfl
      rw [← (List.cons.inj hm).1]
      exact hallows
    · rw [← List.cons_append, ← List.append_assoc] at heq
      exact h.allowed before m rest (List.append_inj' heq rfl).1
  knows := by
    rw [roster_concat]
    exact hknows
  oneLine := honeLine

theorem stdout_copies (f : Frame) (entries : List Entry) : stdout (copies f entries) = [] := by
  induction entries with
  | nil => rfl
  | cons entry entries ih => exact ih

/-- Publications are not printed. -/
theorem stdout_datagram {d : Datagram} (h : manageUdpMessage env s (some d) = ⟨out, .ok s'⟩) :
    stdout out = [] := by
  obtain ⟨-, ⟨topic, line, -, rfl⟩ | ⟨topic, text, hformat, -, hsend⟩⟩ := manageUdpMessage_ok h
  · rfl
  · obtain ⟨-, rfl, -⟩ := (sendMsgIfSubscribed_eq_ok (formattedMsg_text hformat).2.2).mp hsend
    exact stdout_copies _ _

theorem stdout_line {text : Bytes} (h : checkStdinData s text = ⟨out, .ok s'⟩) :
    stdout out = Notice.onlyExit.render ++ [10] := by
  unfold checkStdinData at h
  split at h
  · exact absurd h Outcome.stop_ne_ok
  · simp only [Outcome.emit_bind, Outcome.pure_def, Outcome.mk.injEq] at h
    obtain ⟨rfl, -⟩ := h
    have hend : ascii "Only exit command is supported\n" =
        ascii "Only exit command is supported" ++ [10] := by decide +kernel
    simp [stdout, Notice.render, hend]

theorem stdout_refusal (id : ClientId) (fd : Int) :
    stdout (refusal id fd) = (Notice.refused id).render ++ [10] := by
  have hend : ascii " already connected.\n" = ascii " already connected." ++ [10] := by decide
  simp [stdout, refusal, Notice.render, hend]

theorem stdout_admission (id : ClientId) (addr : SockAddr) (fd : Int) :
    stdout (admission s id addr fd) =
      (Notice.arrived id (origin addr) (s.client id).isNone).render ++ [10] := by
  have hdot : ascii ".\n" = ascii "." ++ [10] := by decide
  have hend : ascii "\n" = [10] := by decide
  cases hclient : s.client id <;>
    simp [stdout, admission, connectedLine, Notice.render, origin, hclient, hdot, hend]

/-- The line about a client that has left names the client of the descriptor. -/
theorem stdout_left {it : ℕ} {fd : Int} {sock : Socket} {deleted : Bool} {id : ClientId}
    {c : Client} (h : serveClient env s it fd sock = ⟨out, .ok (s', deleted)⟩)
    (hzero : (recvEfficient sock TcpMessage.zero).rc = 0)
    (hentry : getClientFromFd env s fd = some ⟨id, c⟩) :
    stdout out = (Notice.left id).render ++ [10] := by
  have hend : ascii " disconnected.\n" = ascii " disconnected." ++ [10] := by decide
  simp only [serveClient, hzero, die, lt_irrefl, decide_false, Outcome.stopIf, Bool.false_eq_true,
    if_false, if_true, hentry, Outcome.emit_bind, Outcome.pure_def] at h
  obtain ⟨rfl, -⟩ := h
  simp [stdout, Notice.render, hend]

theorem isSome_update {f : ClientId → Option Client} {id : ClientId} {c : Client} (j : ClientId) :
    (Function.update f id (some c) j).isSome = true ↔ j = id ∨ (f j).isSome = true := by
  by_cases hj : j = id
  · simp [hj]
  · rw [Function.update_of_ne hj, or_iff_right hj]

/-- An id that has a record keeps one. -/
theorem isSome_update_known {f : ClientId → Option Client} {id : ClientId} {c : Client}
    (h : (f id).isSome = true) (j : ClientId) :
    (Function.update f id (some c) j).isSome = (f j).isSome := by
  rw [Bool.eq_iff_iff, isSome_update, or_iff_right_iff_imp]
  exact fun heq => heq ▸ h

theorem knows_enrol {r : Roster} (h : r.Knows s) (id : ClientId) (origin : Bytes) (first : Bool)
    (fd : Int) : (r.note (.arrived id origin first)).Knows (enrol s id fd) := by
  constructor
  · intro j
    rw [client_enrol, isSome_update, ← h.registered]
    exact Finset.mem_insert
  · intro j
    rw [holder_enrol]
    by_cases hj : j = id
    · simp [Roster.note, hj]
    · simp [Roster.note, hj, h.connected]

theorem knows_dismiss {r : Roster} (h : r.Knows s) {id : ClientId} {c : Client}
    (hc : s.client id = some c) (it : ℕ) :
    (r.note (.left id)).Knows (dismiss s id c it) := by
  constructor
  · intro j
    rw [client_dismiss, isSome_update_known (by rw [hc, Option.isSome_some])]
    exact h.registered j
  · intro j
    rw [holder_dismiss]
    by_cases hj : j = id
    · simp [Roster.note, hj]
    · simp [Roster.note, hj, h.connected]

/-- One event prints no line, or one that follows from the others. -/
theorem told_step {i : Env × Event} (hc : Consistent s) (h : Told s past notices)
    (honeLine : OneLine s i) (hstep : step s i = some (s', out)) :
    ∃ more, Told s' (past ++ out) (notices ++ more) := by
  obtain ⟨env, event⟩ := i
  cases served hc hstep with
  | @line text _ _ =>
    have hshown := stdout_line (Outcome.toStep_eq_some.mp hstep)
    exact ⟨[.onlyExit], h.tell trivial trivial hshown h.knows h.oneLine⟩
  | datagram hact =>
    refine ⟨[], ?_⟩
    rw [List.append_nil]
    exact h.quiet (stdout_datagram hact) (fun _ => rfl) rfl
  | @refused _ fd _ id hid hconnected =>
    have hmem : id ∈ (roster notices).connected := by
      obtain ⟨c, hclient, hmark⟩ := hconnected
      rw [h.knows.connected, holder_eq_some.mpr ⟨c, hclient, hmark, rfl⟩, Option.isSome_some]
    exact ⟨[.refused id],
      h.tell (honeLine id hid) hmem (stdout_refusal id fd) h.knows h.oneLine⟩
  | @admitted addr fd _ id hid _ hidle =>
    have hline : 10 ∉ id := honeLine id hid
    refine ⟨[.arrived id (origin addr) (s.client id).isNone],
      h.tell (clean_arrived hline addr _) ⟨?_, ?_⟩ (stdout_admission id addr fd)
        (knows_enrol h.knows id _ _ fd) ?_⟩
    · rw [h.knows.connected, holder_eq_none.mpr hidle]
      simp
    · rw [h.knows.registered]
      cases s.client id <;> simp
    · intro j hj
      rw [client_enrol, isSome_update] at hj
      rcases hj with rfl | hj
      · exact hline
      · exact h.oneLine j hj
  | @left k fd sock id c shown hzero hplace hclient hheld =>
    obtain ⟨-, deleted, hserve⟩ := handle_readable hstep
    obtain ⟨owner, record, hentry, howner, hmark, hfd⟩ :=
      hc.getClientFromFd env (List.mem_of_getElem? hplace)
    have hsame : owner = id :=
      hc.leased.exclusive owner id fd (holder_eq_some.mpr ⟨record, howner, hmark, hfd⟩) hheld
    subst hsame
    have hsome : (s.client owner).isSome = true := by rw [hclient, Option.isSome_some]
    refine ⟨[.left owner], h.tell (h.oneLine owner hsome) ?_ (stdout_left hserve hzero hentry)
      (knows_dismiss h.knows hclient _) ?_⟩
    · change owner ∈ (roster notices).connected
      rw [h.knows.connected, hheld, Option.isSome_some]
    · intro j hj
      rw [client_dismiss, isSome_update_known hsome] at hj
      exact h.oneLine j hj
  | @answered _ _ _ _ id c _ s' _ _ _ hclient _ _ hupdate _ _ =>
    refine ⟨[], ?_⟩
    rw [List.append_nil]
    refine h.quiet rfl (fun j => ?_) (holder_of_topics hclient hupdate)
    rw [hupdate, isSome_update_known (by rw [hclient, Option.isSome_some])]

theorem told_run {is : List (Env × Event)} (hc : Consistent s) (h : Told s past notices)
    (hok : Along step (fun s i => Fresh s i ∧ OneLine s i) s is)
    (hrun : exec step s is = some (s', out)) :
    ∃ more, Told s' (past ++ out) (notices ++ more) := by
  have hkept : Consistent s' ∧ ∃ more, Told s' (past ++ out) (notices ++ more) := by
    refine exec_history (I := fun s past => Consistent s ∧ ∃ more, Told s past (notices ++ more))
      ?_ ⟨hc, [], by rwa [List.append_nil]⟩ hok hrun
    intro s past i s' out hI hi hstep
    obtain ⟨hc, more, h⟩ := hI
    obtain ⟨last, h'⟩ := told_step hc h hi.2 hstep
    exact ⟨consistent_step hc hi.1 hstep, more ++ last, by rwa [← List.append_assoc]⟩
  exact hkept.2

/-- Whatever the server has served, its output is whole lines that can all be read, each
of them possible behind the ones before it; and replayed they tell which ids the client
map holds now and which of them are connected. -/
theorem output_tells_clients {udpSockfd tcpSockfd : Int} {is : List (Env × Event)} {s : Server}
    {out : List Effect}
    (hok : Along step (fun s i => Fresh s i ∧ OneLine s i) (Server.prepare udpSockfd tcpSockfd) is)
    (hrun : exec step (Server.prepare udpSockfd tcpSockfd) is = some (s, out)) :
    stdout out = (completeLines 10 (stdout out)).flatMap (· ++ [10]) ∧
    (∀ before line after, completeLines 10 (stdout out) = before ++ line :: after →
      ∃ n, readNotice line = some n ∧ n.render = line ∧ (replay before).Allows n) ∧
    ∀ id, (id ∈ (replay (completeLines 10 (stdout out))).registered ↔
        (s.client id).isSome = true) ∧
      (id ∈ (replay (completeLines 10 (stdout out))).connected ↔ s.Connected id) := by
  obtain ⟨notices, h⟩ := told_run (consistent_prepare udpSockfd tcpSockfd)
    (told_prepare udpSockfd tcpSockfd) hok hrun
  rw [List.nil_append, List.nil_append] at h
  have hlines : completeLines 10 (stdout out) = notices.map Notice.render := by
    rw [h.shown, completeLines_transcript h.clean]
  rw [hlines]
  refine ⟨?_, ?_, ?_⟩
  · rw [h.shown, transcript, List.flatMap_map]
  · intro before line after heq
    obtain ⟨front, rest, rfl, rfl, hrest⟩ := List.map_eq_append_iff.mp heq
    obtain ⟨n, tail, rfl, rfl, rfl⟩ := List.map_eq_cons_iff.mp hrest
    refine ⟨n, readNotice_render (h.clean n (by simp)), rfl, ?_⟩
    rw [replay_render fun m hm => h.clean m (List.mem_append_left _ hm)]
    exact h.allowed front n tail rfl
  · intro id
    rw [replay_render h.clean]
    refine ⟨h.knows.registered id, ?_⟩
    rw [← not_iff_not, ← holder_eq_none]
    refine (not_congr (h.knows.connected id)).trans ?_
    simp

def comings : List (Env × Event) :=
  [(Env.plain, .connect ⟨(127, 0, 0, 1), 1⟩ 5 connectA),
    (Env.plain, .connect ⟨(127, 0, 0, 1), 2⟩ 6 connectA),
    (Env.plain, .hangUp 0 5),
    (Env.plain, .line (ascii "stop")),
    (Env.plain, .connect ⟨(127, 0, 0, 1), 3⟩ 5 connectA)]

theorem output_tells_clients_comings : ∃ s out,
    exec step (Server.prepare 3 4) comings = some (s, out) ∧
    (ascii "a" ∈ (replay (completeLines 10 (stdout out))).connected ↔ s.Connected (ascii "a")) := by
  obtain ⟨out, hrun⟩ := exec_final
    (show (exec step (Server.prepare 3 4) comings).isSome = true by rfl)
  obtain ⟨-, -, htells⟩ := output_tells_clients (by decide +kernel) hrun
  exact ⟨_, out, hrun, (htells (ascii "a")).2⟩

end Runs

end ServerClientApp.Transcripts
