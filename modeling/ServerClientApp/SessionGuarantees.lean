import ServerClientApp.Sessions

/-!
What a session guarantees, for every interleaving of the two ends. The stream
carries the publications in order and without loss; they reach the user as long as
none of them is the frame that ends a wait for an answer.
-/

namespace ServerClientApp.SessionGuarantees

open PartialTransfers Outcomes Runs Protocols Wildcards Datagrams ServerHandlers HandlerSpecs
  ServerRuns Delivery SubscriberHandlers SubscriberSpecs Sessions

section Publications

def publishedIn (log : List Log) : List Bytes :=
  log.filterMap fun e => if let .published payload := e then some payload else none

def shownIn (log : List Log) : List Bytes :=
  log.filterMap fun e => if let .shown line := e then some line else none

def lineOf (payload : Bytes) : Bytes := payload.takeWhile (· ≠ 0) ++ ascii "\n"

/-- The lines of all publications the subscriber took from the stream, also of those
it took for an answer. -/
def consumedIn (log : List Log) : List Bytes :=
  log.filterMap fun e =>
    match e with
    | .shown line => some line
    | .outcome _ taken =>
      if taken.command = msgFromUdp then some (lineOf (taken.payload.getD [])) else none
    | _ => none

/-- The entry is not an outcome taken from a publication. -/
def NotMistaken : Log → Prop
  | .outcome _ taken => taken.command ≠ msgFromUdp
  | _ => True

theorem publishedIn_append (log log' : List Log) :
    publishedIn (log ++ log') = publishedIn log ++ publishedIn log' := List.filterMap_append

theorem consumedIn_append (log log' : List Log) :
    consumedIn (log ++ log') = consumedIn log ++ consumedIn log' := List.filterMap_append

theorem publications_append (frames frames' : List Frame) :
    publications (frames ++ frames') = publications frames ++ publications frames' := by
  rw [publications, List.filter_append, List.map_append]
  rfl

theorem publishedIn_published (payloads : List Bytes) :
    publishedIn (payloads.map Log.published) = payloads := by
  induction payloads with
  | nil => rfl
  | cons payload payloads ih => exact congrArg (payload :: ·) ih

theorem consumedIn_published (payloads : List Bytes) :
    consumedIn (payloads.map Log.published) = [] := by
  simp [consumedIn]

theorem shownIn_sublist (log : List Log) : (shownIn log).Sublist (consumedIn log) := by
  induction log with
  | nil => exact List.Sublist.refl []
  | cons e log ih =>
    cases e with
    | shown line => exact ih.cons_cons line
    | outcome line taken =>
      by_cases hcommand : taken.command = msgFromUdp
      · simpa [shownIn, consumedIn, hcommand] using ih.cons _
      · simpa [shownIn, consumedIn, hcommand] using ih
    | asked | answered | published | noted => exact ih

/-- The subscriber shows all it takes exactly if it takes nothing by mistake. -/
theorem shownIn_eq_consumedIn (log : List Log) :
    shownIn log = consumedIn log ↔ ∀ e ∈ log, NotMistaken e := by
  induction log with
  | nil => exact iff_of_true rfl (by simp)
  | cons e log ih =>
    rw [List.forall_mem_cons, ← ih]
    cases e with
    | shown line => simp [shownIn, consumedIn, NotMistaken]
    | outcome line taken =>
      by_cases hcommand : taken.command = msgFromUdp
      · refine iff_of_false ?_ (by simp [NotMistaken, hcommand])
        intro heq
        have hlength := congrArg List.length heq
        have hle := (shownIn_sublist log).length_le
        simp only [shownIn, consumedIn, List.filterMap_cons, hcommand, if_true,
          List.length_cons] at hlength hle
        omega
      · simp [shownIn, consumedIn, NotMistaken, hcommand]
    | asked | answered | published | noted => simp [shownIn, consumedIn, NotMistaken]

def AnswerFirst (s : Session) : Turn → Prop
  | .awaits _ => ∀ f ∈ s.down.head?, f.command ≠ msgFromUdp
  | .serves .. | .answers .. | .closes | .types .. | .reads _ => True

instance (s : Session) : ∀ t, Decidable (AnswerFirst s t)
  | .awaits _ => inferInstanceAs (Decidable (∀ f ∈ s.down.head?, f.command ≠ msgFromUdp))
  | .serves .. | .answers .. | .closes | .types .. | .reads _ => isTrue trivial

/-- What was published has been taken from the stream or is still on it, in order. -/
structure Carried (fd : Int) (s : Session) (log : List Log) : Prop where
  live : s.closed = false → Live fd s.server
  texts : ∀ f ∈ s.down, f.command = msgFromUdp → IsPublication f
  whole : ∀ payload ∈ publishedIn log, ∃ text, payload = text ++ [0] ∧ NulFree text
  carried : (publishedIn log).map lineOf = consumedIn log ++ (publications s.down).map lineOf

variable {fd : Int} {s s' : Session} {log past : List Log} {t : Turn}

theorem carried_start {server : Server} (hreach : Reachable server)
    (hopen : fd ∈ server.clientFds) : Carried fd (Session.start server) [] where
  live := fun _ => ⟨hreach.consistent, hopen⟩
  texts := by simp [Session.start]
  whole := by simp [publishedIn]
  carried := rfl

theorem publications_bare {answer : UInt8} (h : answer ≠ msgFromUdp) :
    publications [Frame.bare answer] = [] := by
  simp [publications, Frame.bare, h]

theorem answerTo_ne (command : UInt8) (topic : Topic) (topics : Subscriptions) :
    answerTo command topic topics ≠ msgFromUdp := by
  unfold answerTo
  split_ifs <;> decide

theorem publication_payload {f : Frame} (h : IsPublication f) :
    f.command = msgFromUdp ∧ ∃ text, f.payload = text ++ [0] ∧ NulFree text := by
  obtain ⟨text, hlength, rfl, hfree⟩ := h
  exact ⟨rfl, text, rfl, hfree⟩

/-- Printing a publication gives its line. -/
theorem line_of_string {f : Frame} {text : Bytes} (h : cString f.message.payload = .ok text) :
    text ++ ascii "\n" = lineOf f.payload := by
  obtain ⟨hfree, rest, hpayload⟩ := cString_ok h
  have heq : f.payload = text ++ 0 :: rest := by
    rw [Frame.message] at hpayload
    split_ifs at hpayload
    exact Option.some.inj hpayload
  rw [lineOf, heq, takeWhile_append_nul text rest hfree]

/-- A turn that publishes and takes nothing. -/
theorem Carried.keep (h : Carried fd s past) (hlive : s'.closed = false → Live fd s'.server)
    (hdown : s'.down = s.down) (hpublished : publishedIn log = [])
    (hconsumed : consumedIn log = []) : Carried fd s' (past ++ log) := by
  have hpast : publishedIn (past ++ log) = publishedIn past := by
    rw [publishedIn_append, hpublished, List.append_nil]
  refine ⟨hlive, hdown ▸ h.texts, hpast ▸ h.whole, ?_⟩
  rw [hpast, consumedIn_append, hconsumed, List.append_nil, hdown]
  exact h.carried

/-- A turn that takes the next frame, and its line if it is a publication. -/
theorem Carried.take (h : Carried fd s past) {f : Frame} {down : List Frame}
    (hnext : s.down = f :: down) (hlive : s'.closed = false → Live fd s'.server)
    (hdown : s'.down = down) (hpublished : publishedIn log = [])
    (hconsumed : consumedIn log = (publications [f]).map lineOf) : Carried fd s' (past ++ log) := by
  have hpast : publishedIn (past ++ log) = publishedIn past := by
    rw [publishedIn_append, hpublished, List.append_nil]
  have hframes : s.down = [f] ++ s'.down := by rw [hnext, hdown, List.singleton_append]
  refine ⟨hlive, ?_, hpast ▸ h.whole, ?_⟩
  · intro g hg
    exact h.texts g (hframes ▸ List.mem_append_right _ hg)
  · rw [hpast, h.carried, hframes, publications_append, List.map_append, consumedIn_append,
      hconsumed, List.append_assoc]

theorem carried_step (h : Carried fd s past) (hfresh : FreshTurn s t)
    (hstep : turn fd s t = some (s', log)) : Carried fd s' (past ++ log) := by
  cases turned h.live hfresh hstep with
  | @served env event server frames hclosed hlive hframes =>
    refine ⟨fun _ => hlive, ?_, ?_, ?_⟩
    · intro f hmem hcommand
      rcases List.mem_append.mp hmem with hmem | hmem
      · exact h.texts f hmem hcommand
      · exact hframes f hmem
    · intro payload hmem
      rw [publishedIn_append, publishedIn_published] at hmem
      rcases List.mem_append.mp hmem with hmem | hmem
      · exact h.whole payload hmem
      · obtain ⟨f, hf, rfl⟩ := List.mem_map.mp hmem
        exact (publication_payload (hframes f (List.mem_filter.mp hf).1)).2
    · rw [publishedIn_append, publishedIn_published, List.map_append, h.carried,
        consumedIn_append, consumedIn_published, List.append_nil, publications_append,
        List.map_append, List.append_assoc]
  | answered hclosed hlive hup htopic =>
    refine ⟨fun _ => hlive, ?_, by simpa [publishedIn] using h.whole, ?_⟩
    · intro f hmem hcommand
      rcases List.mem_append.mp hmem with hmem | hmem
      · exact h.texts f hmem hcommand
      · rw [List.mem_singleton.mp hmem] at hcommand
        exact absurd hcommand (answerTo_ne _ _ _)
    · rw [publishedIn_append, consumedIn_append, publications_append,
        publications_bare (answerTo_ne _ _ _)]
      simpa [publishedIn, consumedIn] using h.carried
  | closed => exact h.keep (by simp) rfl rfl rfl
  | exited | ended | noted | asked => exact h.keep h.live rfl rfl rfl
  | hungUp =>
    refine h.keep h.live rfl rfl ?_
    simp [consumedIn, TcpMessage.zero, msgFromUdp]
  | shown hphase hdown hcommand htext =>
    refine h.take hdown h.live rfl rfl ?_
    rw [line_of_string htext]
    simp [consumedIn, publications, hcommand]
  | ignored hphase hdown hcommand =>
    refine h.take hdown h.live rfl rfl ?_
    simp [consumedIn, publications, hcommand]
  | @taken calls f down command topic hphase hdown =>
    refine h.take hdown h.live rfl rfl ?_
    have hmsg : f.message.command = f.command := rfl
    by_cases hcommand : f.command = msgFromUdp
    · simp [consumedIn, publications, hcommand, hmsg, f.payload_message]
    · simp [consumedIn, publications, hcommand, hmsg]

theorem carried_run {turns : List Turn} (h : Carried fd s past)
    (hfresh : Along (turn fd) FreshTurn s turns) (hrun : exec (turn fd) s turns = some (s', log)) :
    Carried fd s' (past ++ log) :=
  exec_history (fun _ _ _ _ _ h hfresh hstep => carried_step h hfresh hstep) h hfresh hrun

/-- A turn takes no publication for an answer exactly if it meets the condition. -/
theorem answerFirst_iff (hstep : turn fd s t = some (s', log)) :
    AnswerFirst s t ↔ ∀ e ∈ log, NotMistaken e := by
  cases t with
  | serves env event =>
    obtain ⟨-, -, server, out, -, -, rfl⟩ := serverTurn_ok hstep
    simp [AnswerFirst, NotMistaken]
  | answers env k calls =>
    obtain ⟨-, f, up, server, out, topic, -, -, -, -, rfl⟩ := answerTurn_ok hstep
    simp [AnswerFirst, NotMistaken]
  | closes =>
    simp only [turn, Option.some.injEq, Prod.mk.injEq] at hstep
    obtain ⟨-, rfl⟩ := hstep
    simp [AnswerFirst]
  | types env line =>
    have hturned : Turned fd s _ s' log := turned_types hstep
    cases hturned <;> simp [AnswerFirst, NotMistaken]
  | reads calls =>
    have hturned : Turned fd s _ s' log := turned_reads hstep
    cases hturned <;> simp [AnswerFirst, NotMistaken]
  | awaits calls =>
    have hturned : Turned fd s _ s' log := turned_awaits hstep
    cases hturned with
    | taken hphase hdown => simp [AnswerFirst, NotMistaken, hdown, Frame.message]
    | hungUp hphase hdown hclosed =>
      simp [AnswerFirst, NotMistaken, hdown, TcpMessage.zero, msgFromUdp]

/-- In every run in which the subscriber never waits with a publication next on the
stream, it prints the publications the server sent in order and each once, and all of
them when the stream is drained. A drained run prints them all in no other case. -/
theorem publications_reach_subscriber {server : Server} (hreach : Reachable server)
    (hopen : fd ∈ server.clientFds) {turns : List Turn}
    (hfresh : Along (turn fd) FreshTurn (Session.start server) turns)
    (hrun : exec (turn fd) (Session.start server) turns = some (s, log)) :
    (∀ payload ∈ publishedIn log, ∃ text, payload = text ++ [0] ∧ NulFree text) ∧
    (Along (turn fd) AnswerFirst (Session.start server) turns →
      shownIn log <+: (publishedIn log).map lineOf ∧
        (s.down = [] → shownIn log = (publishedIn log).map lineOf)) ∧
    (s.down = [] → (shownIn log = (publishedIn log).map lineOf ↔
      Along (turn fd) AnswerFirst (Session.start server) turns)) := by
  have hcarried := carried_run (carried_start hreach hopen) hfresh hrun
  rw [List.nil_append] at hcarried
  have hfirst : Along (turn fd) AnswerFirst (Session.start server) turns ↔
      shownIn log = consumedIn log := by
    rw [shownIn_eq_consumedIn]
    exact along_iff_outputs (fun _ _ _ _ => answerFirst_iff) hrun
  have hdrained (hdown : s.down = []) : (publishedIn log).map lineOf = consumedIn log := by
    have heq := hcarried.carried
    rwa [hdown, publications, List.filter_nil, List.map_nil, List.map_nil, List.append_nil] at heq
  refine ⟨hcarried.whole, fun halong => ⟨?_, fun hdown => ?_⟩, fun hdown => ?_⟩
  · rw [hcarried.carried, hfirst.mp halong]
    exact List.prefix_append _ _
  · rw [hdrained hdown, hfirst.mp halong]
  · rw [hdrained hdown, hfirst]

def undisturbed : List Turn :=
  [.types Env.plain (ascii "subscribe u"), .answers Env.plain 0 [], .awaits [],
    .serves Env.plain (.datagram (some seven)), .reads []]

/-- The same with the publication sent before the request is answered. -/
def overtaken : List Turn :=
  [.types Env.plain (ascii "subscribe u"), .serves Env.plain (.datagram (some seven)),
    .answers Env.plain 0 [], .awaits [], .reads []]

def ending (turns : List Turn) : Session × List Log :=
  (exec (turn 5) (Session.start audience) turns).getD (Session.start audience, [])

theorem run_ending (turns : List Turn)
    (h : (exec (turn 5) (Session.start audience) turns).isSome) :
    exec (turn 5) (Session.start audience) turns =
      some ((ending turns).1, (ending turns).2) := by
  obtain ⟨r, hrun⟩ := Option.isSome_iff_exists.mp h
  rw [ending, hrun, Option.getD_some]

set_option maxRecDepth 4000 in
theorem publications_reach_subscriber_undisturbed :
    shownIn (ending undisturbed).2 = [sevenText ++ ascii "\n"] := by
  obtain ⟨-, -, hdrained⟩ := publications_reach_subscriber reachable_audience
    (by decide : (5 : Int) ∈ audience.clientFds) (by decide)
    (run_ending undisturbed (by rfl))
  rw [(hdrained (by rfl)).mpr (by decide)]
  rfl

set_option maxRecDepth 4000 in
/-- The publication is taken for the answer: the run is drained and the user has seen
nothing of it. -/
theorem overtaken_unseen : Reachable audience ∧ (5 : Int) ∈ audience.clientFds ∧
    Along (turn 5) FreshTurn (Session.start audience) overtaken ∧
    exec (turn 5) (Session.start audience) overtaken =
      some ((ending overtaken).1, (ending overtaken).2) ∧
    (ending overtaken).1.down = [] ∧ (ending overtaken).1.phase = .idle ∧
    publishedIn (ending overtaken).2 = [sevenText ++ [0]] ∧
    shownIn (ending overtaken).2 = [] :=
  ⟨reachable_audience, by decide, by decide, run_ending overtaken (by rfl), by rfl, by rfl,
    by rfl, by rfl⟩

end Publications

section Answers

def requestsIn (log : List Log) : List (UInt8 × Topic) :=
  log.filterMap fun e => if let .asked command topic := e then some (command, topic) else none

def answersIn (log : List Log) : List (UInt8 × Topic × UInt8) :=
  log.filterMap fun e =>
    if let .answered command topic answer := e then some (command, topic, answer) else none

def outcomesIn (log : List Log) : List Bytes :=
  log.filterMap fun e => if let .outcome line _ := e then some line else none

def others (frames : List Frame) : List Frame := frames.filter fun f => f.command ≠ msgFromUdp

def Answers (command answer : UInt8) : Prop :=
  (command = subscribeReq ∧ (answer = subscribeSucc ∨ answer = subscribeFail)) ∨
    (command = unsubscribeReq ∧ (answer = unsubscribeSucc ∨ answer = unsubscribeFail))

def Tells (command : UInt8) (topic : Topic) (answer : UInt8) (line : Bytes) : Prop :=
  (command = subscribeReq ∧
      (line = ascii "Subscribed to topic " ++ topic ++ ascii "\n" ↔ answer = subscribeSucc) ∧
      (line = ascii "Already subscribed to topic " ++ topic ++ ascii "\n" ↔
        answer = subscribeFail)) ∨
    (command = unsubscribeReq ∧
      (line = ascii "Unsubscribed from topic " ++ topic ++ ascii "\n" ↔
        answer = unsubscribeSucc) ∧
      (line = ascii "Not subscribed to topic " ++ topic ++ ascii ", cannot unsubscribe\n" ↔
        answer = unsubscribeFail))

theorem tells_outcomeLine {command : UInt8} {topic : Topic} {answer : UInt8}
    (h : Answers command answer) :
    Tells command topic answer (outcomeLine command topic answer) := by
  obtain ⟨rfl, hanswer⟩ | ⟨rfl, hanswer⟩ := h
  · refine Or.inl ⟨rfl, ?_⟩
    rcases hanswer with rfl | rfl <;>
      simp [outcomeLine, ascii, subscribeSucc, subscribeFail]
  · refine Or.inr ⟨rfl, ?_⟩
    rcases hanswer with rfl | rfl <;>
      simp [outcomeLine, ascii, subscribeReq, unsubscribeReq, unsubscribeSucc, unsubscribeFail]

theorem answers_answerTo {command : UInt8} (topic : Topic) (topics : Subscriptions)
    (h : command = subscribeReq ∨ command = unsubscribeReq) :
    Answers command (answerTo command topic topics) := by
  rcases h with rfl | rfl
  · refine Or.inl ⟨rfl, ?_⟩
    rw [answerTo, if_pos rfl]
    split_ifs
    · exact Or.inr rfl
    · exact Or.inl rfl
  · refine Or.inr ⟨rfl, ?_⟩
    rw [answerTo, if_neg (by decide)]
    split_ifs
    · exact Or.inl rfl
    · exact Or.inr rfl

def AnswerNext (s : Session) : Turn → Prop
  | .awaits _ => ∃ f ∈ s.down.head?, f.command ≠ msgFromUdp
  | .serves .. | .answers .. | .closes | .types .. | .reads _ => True

instance (s : Session) : ∀ t, Decidable (AnswerNext s t)
  | .awaits _ => inferInstanceAs (Decidable (∃ f ∈ s.down.head?, f.command ≠ msgFromUdp))
  | .serves .. | .answers .. | .closes | .types .. | .reads _ => isTrue trivial

structure Exchange where
  command : UInt8
  topic : Topic
  answer : UInt8

namespace Exchange

def request (e : Exchange) : UInt8 × Topic := (e.command, e.topic)

def answered (e : Exchange) : UInt8 × Topic × UInt8 := (e.command, e.topic, e.answer)

def line (e : Exchange) : Bytes := outcomeLine e.command e.topic e.answer

end Exchange

/-- The two ends after the requests that are done: no request is open, the open one is
on its way to the server, or its answer is on its way back. -/
inductive Lockstep (done : List Exchange) (s : Session) (log : List Log) : Prop
  | quiet : (∀ command topic, s.phase ≠ .waiting command topic) → s.up = [] →
      others s.down = [] → requestsIn log = done.map Exchange.request →
      answersIn log = done.map Exchange.answered → Lockstep done s log
  | unanswered {command : UInt8} {topic : Topic} {h : topic.length + 1 < 2 ^ 16} :
      s.phase = .waiting command topic → NulFree topic →
      command = subscribeReq ∨ command = unsubscribeReq →
      s.up = [Frame.ofText command topic h] → others s.down = [] →
      requestsIn log = done.map Exchange.request ++ [(command, topic)] →
      answersIn log = done.map Exchange.answered → Lockstep done s log
  | answered {command : UInt8} {topic : Topic} {answer : UInt8} :
      s.phase = .waiting command topic → Answers command answer → s.up = [] →
      others s.down = [Frame.bare answer] →
      requestsIn log = done.map Exchange.request ++ [(command, topic)] →
      answersIn log = done.map Exchange.answered ++ [(command, topic, answer)] →
      Lockstep done s log

/-- The ends are in step, and a line was shown for each request that is done. -/
structure InStep (fd : Int) (done : List Exchange) (s : Session) (log : List Log) : Prop where
  live : s.closed = false → Live fd s.server
  sound : ∀ e ∈ done, Answers e.command e.answer
  lines : outcomesIn log = done.map Exchange.line
  lockstep : Lockstep done s log

variable {fd : Int} {s s' : Session} {log past : List Log} {t : Turn} {done : List Exchange}

theorem requestsIn_append (log log' : List Log) :
    requestsIn (log ++ log') = requestsIn log ++ requestsIn log' := List.filterMap_append

theorem answersIn_append (log log' : List Log) :
    answersIn (log ++ log') = answersIn log ++ answersIn log' := List.filterMap_append

theorem outcomesIn_append (log log' : List Log) :
    outcomesIn (log ++ log') = outcomesIn log ++ outcomesIn log' := List.filterMap_append

theorem others_append (frames frames' : List Frame) :
    others (frames ++ frames') = others frames ++ others frames' := List.filter_append ..

theorem others_publications {frames : List Frame} (h : ∀ f ∈ frames, IsPublication f) :
    others frames = [] := by
  refine List.filter_eq_nil_iff.mpr ?_
  intro f hf
  simp [(publication_payload (h f hf)).1]

theorem others_bare {answer : UInt8} (h : answer ≠ msgFromUdp) :
    others [Frame.bare answer] = [Frame.bare answer] := by
  simp [others, Frame.bare, h]

/-- A turn that neither asks nor answers, and leaves the requests and the answers on
the way as they are. -/
theorem Lockstep.keep (h : Lockstep done s past) (hphase : s'.phase = s.phase)
    (hup : s'.up = s.up) (hdown : others s'.down = others s.down) (hasked : requestsIn log = [])
    (hanswered : answersIn log = []) : Lockstep done s' (past ++ log) := by
  have hrequests : requestsIn (past ++ log) = requestsIn past := by
    rw [requestsIn_append, hasked, List.append_nil]
  have hanswers : answersIn (past ++ log) = answersIn past := by
    rw [answersIn_append, hanswered, List.append_nil]
  cases h with
  | quiet hquiet hempty hnone hreq hans =>
    exact .quiet (hphase ▸ hquiet) (hup.trans hempty) (hdown.trans hnone) (hrequests.trans hreq)
      (hanswers.trans hans)
  | unanswered hwaits hfree hcommand hone hnone hreq hans =>
    exact .unanswered (hphase.trans hwaits) hfree hcommand (hup.trans hone) (hdown.trans hnone)
      (hrequests.trans hreq) (hanswers.trans hans)
  | answered hwaits hanswer hempty hone hreq hans =>
    exact .answered (hphase.trans hwaits) hanswer (hup.trans hempty) (hdown.trans hone)
      (hrequests.trans hreq) (hanswers.trans hans)

theorem Lockstep.idle (h : Lockstep done s past) (hphase : s.phase = .idle) :
    s.up = [] ∧ others s.down = [] ∧ requestsIn past = done.map Exchange.request ∧
      answersIn past = done.map Exchange.answered := by
  cases h with
  | quiet _ hup hdown hreq hans => exact ⟨hup, hdown, hreq, hans⟩
  | unanswered hwaits => simp [hphase] at hwaits
  | answered hwaits => simp [hphase] at hwaits

/-- The frame that ends the wait is the answer to the open request. -/
theorem Lockstep.taken (h : Lockstep done s past) {command : UInt8} {topic : Topic}
    (hphase : s.phase = .waiting command topic) {f : Frame} {down : List Frame}
    (hdown : s.down = f :: down) (hf : f.command ≠ msgFromUdp) :
    Answers command f.command ∧ s.up = [] ∧ others down = [] ∧
      requestsIn past = done.map Exchange.request ++ [(command, topic)] ∧
      answersIn past = done.map Exchange.answered ++ [(command, topic, f.command)] := by
  have hothers : others s.down = f :: others down := by
    rw [hdown, others, List.filter_cons_of_pos (by simpa using hf)]
    rfl
  cases h with
  | quiet hquiet => exact absurd hphase (hquiet command topic)
  | unanswered _ _ _ _ hnone => simp [hothers] at hnone
  | answered hwaits hanswer hup hone hreq hans =>
    obtain ⟨rfl, rfl⟩ : _ = command ∧ _ = topic := by simpa using hwaits.symm.trans hphase
    obtain ⟨rfl, hrest⟩ : f = _ ∧ others down = [] := by simpa using hothers.symm.trans hone
    exact ⟨hanswer, hup, hrest, hreq, hans⟩

/-- The request at the head of the stream is answered, and it is the open one. -/
theorem Lockstep.answer (h : Lockstep done s past) {f : Frame} {up : List Frame} {topic : Topic}
    (hup : s.up = f :: up) (htopic : cString (some f.payload) = .ok topic)
    (topics : Subscriptions) (hphase : s'.phase = s.phase) (hrest : s'.up = up)
    (hdown : s'.down = s.down ++ [Frame.bare (answerTo f.command topic topics)]) :
    Lockstep done s' (past ++ [.answered f.command topic (answerTo f.command topic topics)]) := by
  cases h with
  | quiet _ hempty => simp [hempty] at hup
  | answered _ _ hempty => simp [hempty] at hup
  | @unanswered command topic' hlength hwaits hfree hcommand hone hnone hreq hans =>
    obtain ⟨rfl, rfl⟩ : Frame.ofText command topic' hlength = f ∧ [] = up := by
      simpa using hone.symm.trans hup
    have hsame : topic' = topic := by
      have hstring := (cString_append_nul topic' [] hfree).symm.trans htopic
      simpa using hstring
    subst hsame
    refine .answered (hphase.trans hwaits) (answers_answerTo topic' topics hcommand) hrest ?_ ?_ ?_
    · rw [hdown, others_append, hnone, others_bare (answerTo_ne _ _ _)]
      rfl
    · simpa [requestsIn] using hreq
    · rw [answersIn_append, hans]
      rfl

/-- A turn that shows no outcome. -/
theorem InStep.keep (h : InStep fd done s past) (hlive : s'.closed = false → Live fd s'.server)
    (hlines : outcomesIn log = []) (hlockstep : Lockstep done s' (past ++ log)) :
    InStep fd done s' (past ++ log) := by
  refine ⟨hlive, h.sound, ?_, hlockstep⟩
  rw [outcomesIn_append, hlines, List.append_nil, h.lines]

theorem inStep_step (h : InStep fd done s past) (hfresh : FreshTurn s t) (hnext : AnswerNext s t)
    (hstep : turn fd s t = some (s', log)) : ∃ done', InStep fd done' s' (past ++ log) := by
  have hlock := h.lockstep
  cases turned h.live hfresh hstep with
  | @served env event server frames hclosed hlive hframes =>
    refine ⟨done, h.keep (fun _ => hlive) ?_ (hlock.keep rfl rfl ?_ ?_ ?_)⟩
    · simp [outcomesIn]
    · rw [others_append, others_publications hframes, List.append_nil]
    · simp [requestsIn]
    · simp [answersIn]
  | answered hclosed hlive hup htopic =>
    exact ⟨done, h.keep (fun _ => hlive) rfl (hlock.answer hup htopic _ rfl rfl rfl)⟩
  | closed => exact ⟨done, h.keep (by simp) rfl (hlock.keep rfl rfl rfl rfl rfl)⟩
  | noted hphase => exact ⟨done, h.keep h.live rfl (hlock.keep rfl rfl rfl rfl rfl)⟩
  | exited hphase | ended hphase =>
    obtain ⟨hup, hnone, hreq, hans⟩ := hlock.idle hphase
    refine ⟨done, h.keep h.live rfl (.quiet (by simp) hup hnone ?_ ?_)⟩
    · rw [List.append_nil, hreq]
    · rw [List.append_nil, hans]
  | @asked env text command topic hlength hphase hcommand hfree =>
    obtain ⟨hup, hnone, hreq, hans⟩ := hlock.idle hphase
    refine ⟨done, h.keep h.live rfl
      (.unanswered (h := hlength) rfl hfree hcommand ?_ hnone ?_ ?_)⟩
    · rw [hup, List.nil_append]
    · rw [requestsIn_append, hreq]
      rfl
    · simpa [answersIn] using hans
  | shown hphase hdown hcommand htext =>
    refine ⟨done, h.keep h.live rfl (hlock.keep rfl rfl ?_ rfl rfl)⟩
    rw [hdown, others, others, List.filter_cons_of_neg (by simpa using hcommand)]
  | ignored hphase hdown hcommand =>
    -- In its loop the subscriber finds publications only.
    obtain ⟨-, hnone, -, -⟩ := hlock.idle hphase
    rw [hdown, others, List.filter_cons_of_pos (by simpa using hcommand)] at hnone
    exact absurd hnone (List.cons_ne_nil _ _)
  | @taken calls f down command topic hphase hdown =>
    obtain ⟨f', hhead, hf⟩ := hnext
    obtain rfl : f = f' := by simpa [hdown] using hhead
    obtain ⟨hanswer, hup, hnone, hreq, hans⟩ := hlock.taken hphase hdown hf
    refine ⟨done ++ [⟨command, topic, f.command⟩], h.live, ?_, ?_,
      .quiet (by simp) hup hnone ?_ ?_⟩
    · simpa [or_imp, forall_and] using And.intro h.sound hanswer
    · rw [outcomesIn_append, h.lines, List.map_append]
      rfl
    · simpa [requestsIn, Exchange.request] using hreq
    · simpa [answersIn, Exchange.answered] using hans
  | hungUp hphase hdown hclosed =>
    obtain ⟨f, hhead, -⟩ := hnext
    simp [hdown] at hhead

/-- The ends are in step after a run, with some requests done. -/
theorem inStep_run {turns : List Turn} (h : InStep fd done s past)
    (hfresh : Along (turn fd) FreshTurn s turns) (hnext : Along (turn fd) AnswerNext s turns)
    (hrun : exec (turn fd) s turns = some (s', log)) :
    ∃ done', InStep fd done' s' (past ++ log) := by
  refine exec_history (I := fun s past => ∃ done, InStep fd done s past) ?_ ⟨done, h⟩
    (hfresh.and hnext) hrun
  rintro s past t s' log ⟨done, h⟩ ⟨hfresh, hnext⟩ hstep
  exact inStep_step h hfresh hnext hstep

theorem inStep_start {server : Server} (hreach : Reachable server)
    (hopen : fd ∈ server.clientFds) : InStep fd [] (Session.start server) [] where
  live := fun _ => ⟨hreach.consistent, hopen⟩
  sound := by simp
  lines := rfl
  lockstep := .quiet (by simp [Session.start]) rfl rfl rfl rfl

/-- The exchanges that are done are the first requests, and the first answers. -/
theorem Lockstep.done_prefix (h : Lockstep done s log) :
    done.map Exchange.request <+: requestsIn log ∧
      done.map Exchange.answered <+: answersIn log := by
  cases h with
  | quiet _ _ _ hreq hans => rw [hreq, hans]; exact ⟨List.prefix_rfl, List.prefix_rfl⟩
  | unanswered _ _ _ _ _ hreq hans =>
    rw [hreq, hans]; exact ⟨List.prefix_append _ _, List.prefix_rfl⟩
  | answered _ _ _ _ hreq hans =>
    rw [hreq, hans]; exact ⟨List.prefix_append _ _, List.prefix_append _ _⟩

/-- In every run in which each wait ends with a frame that is no publication, the line
shown for a request tells the answer the server gave to that request. -/
theorem outcomes_tell_answers {server : Server} (hreach : Reachable server)
    (hopen : fd ∈ server.clientFds) {turns : List Turn}
    (hfresh : Along (turn fd) FreshTurn (Session.start server) turns)
    (hnext : Along (turn fd) AnswerNext (Session.start server) turns)
    (hrun : exec (turn fd) (Session.start server) turns = some (s, log)) (k : ℕ) {line : Bytes}
    (hline : (outcomesIn log)[k]? = some line) :
    ∃ command topic answer, (requestsIn log)[k]? = some (command, topic) ∧
      (answersIn log)[k]? = some (command, topic, answer) ∧ Answers command answer ∧
      Tells command topic answer line := by
  obtain ⟨done, hinStep⟩ := inStep_run (inStep_start hreach hopen) hfresh hnext hrun
  rw [List.nil_append] at hinStep
  rw [hinStep.lines, List.getElem?_map, Option.map_eq_some_iff] at hline
  obtain ⟨e, he, rfl⟩ := hline
  obtain ⟨⟨_, hreq⟩, ⟨_, hans⟩⟩ := hinStep.lockstep.done_prefix
  have hanswer := hinStep.sound e (List.mem_of_getElem? he)
  obtain ⟨hk, rfl⟩ := List.getElem?_eq_some_iff.mp he
  refine ⟨_, _, _, ?_, ?_, hanswer, tells_outcomeLine hanswer⟩
  · rw [← hreq, List.getElem?_append_left (by simpa using hk), List.getElem?_map, he]
    rfl
  · rw [← hans, List.getElem?_append_left (by simpa using hk), List.getElem?_map, he]
    rfl

set_option maxRecDepth 4000 in
theorem outcomes_tell_answers_undisturbed :
    (answersIn (ending undisturbed).2)[0]? = some (subscribeReq, ascii "u", subscribeSucc) := by
  obtain ⟨command, topic, answer, hreq, hans, -, htells⟩ :=
    outcomes_tell_answers reachable_audience (by decide : (5 : Int) ∈ audience.clientFds)
      (by decide) (by decide) (run_ending undisturbed (by rfl)) 0
      (show _ = some (ascii "Subscribed to topic u\n") by rfl)
  obtain ⟨rfl, rfl⟩ : subscribeReq = command ∧ ascii "u" = topic :=
    Prod.mk.inj (Option.some.inj ((show _ = some (subscribeReq, ascii "u") by rfl).symm.trans hreq))
  obtain ⟨-, hsucc, -⟩ | ⟨hother, -⟩ := htells
  · rw [hans, hsucc.mp (by rfl)]
  · exact absurd hother (by decide)

def hungUp : List Turn :=
  [.types Env.plain (ascii "subscribe u"), .closes, .awaits []]

set_option maxRecDepth 4000 in
/-- A publication, and the end of the stream, are told as an answer: in the first run
the server has answered success, in the second one it has not answered. -/
theorem overtaken_misreported : Reachable audience ∧ (5 : Int) ∈ audience.clientFds ∧
    (Along (turn 5) FreshTurn (Session.start audience) overtaken ∧
      exec (turn 5) (Session.start audience) overtaken =
        some ((ending overtaken).1, (ending overtaken).2) ∧
      (outcomesIn (ending overtaken).2)[0]? = some (ascii "Already subscribed to topic u\n") ∧
      (answersIn (ending overtaken).2)[0]? = some (subscribeReq, ascii "u", subscribeSucc)) ∧
    (Along (turn 5) FreshTurn (Session.start audience) hungUp ∧
      exec (turn 5) (Session.start audience) hungUp =
        some ((ending hungUp).1, (ending hungUp).2) ∧
      (outcomesIn (ending hungUp).2)[0]? = some (ascii "Already subscribed to topic u\n") ∧
      (answersIn (ending hungUp).2)[0]? = none) :=
  ⟨reachable_audience, by decide, ⟨by decide, run_ending overtaken (by rfl), by rfl, by rfl⟩,
    ⟨by decide, run_ending hungUp (by rfl), by rfl, by rfl⟩⟩

end Answers

end ServerClientApp.SessionGuarantees
