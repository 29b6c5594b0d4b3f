import ServerClientApp.ServerRuns
import Mathlib.Data.Finset.Basic

/-!
What the server keeps for its clients: who is connected where, and the requests
made under each id in the order they were processed. The book is written from
what the peers did alone. The server follows it, so the subscriptions of an id
are the fold of its requests over all its sessions.
-/

namespace ServerClientApp.Ledger

open Runs Protocols Wildcards Datagrams ServerHandlers HandlerSpecs ServerRuns

section Book

inductive Request where
  | subscribe (topic : Topic)
  | unsubscribe (topic : Topic)
  deriving DecidableEq, Repr

namespace Request

def apply (topics : Finset Topic) : Request → Finset Topic
  | subscribe topic => insert topic topics
  | unsubscribe topic => topics.erase topic

def succ : Request → UInt8
  | subscribe _ => subscribeSucc
  | unsubscribe _ => unsubscribeSucc

def fail : Request → UInt8
  | subscribe _ => subscribeFail
  | unsubscribe _ => unsubscribeFail

end Request

/-- The request a message makes, if it is one the Subscriber program can send. -/
def requestOf (msg : TcpMessage) : Option Request :=
  match cString msg.payload with
  | .error _ => none
  | .ok topic =>
    if msg.command = subscribeReq then some (.subscribe topic)
    else if msg.command = unsubscribeReq then some (.unsubscribe topic)
    else none

inductive Deed where
  | connect (id : ClientId) (fd : Int)
  | leave (fd : Int)
  | ask (fd : Int) (request : Request)
  | other
  deriving DecidableEq, Repr

def deed : Event → Deed
  | .connection _ fd sock =>
    match cString (recvEfficient sock TcpMessage.zero).msg.payload with
    | .ok id => .connect id fd
    | .error _ => .other
  | .readable _ fd sock =>
    if (recvEfficient sock TcpMessage.zero).rc = 0 then .leave fd
    else
      match requestOf (recvEfficient sock TcpMessage.zero).msg with
      | some request => .ask fd request
      | none => .other
  | .line _ | .datagram _ => .other

structure Book where
  holder : ClientId → Option Int
  requests : ClientId → List Request

def Book.empty : Book := ⟨fun _ => none, fun _ => []⟩

/-- An id that is connected cannot connect again, and a request counts for the id
that holds the descriptor it came on. -/
def Book.next (b : Book) : Deed → Book
  | .connect id fd =>
    if b.holder id = none then { b with holder := Function.update b.holder id (some fd) } else b
  | .leave fd => { b with holder := fun id => if b.holder id = some fd then none else b.holder id }
  | .ask fd request =>
    { b with requests := fun id =>
        if b.holder id = some fd then b.requests id ++ [request] else b.requests id }
  | .other => b

def book (is : List (Env × Event)) : Book := is.foldl (fun b i => b.next (deed i.2)) Book.empty

/-- accept returns a descriptor that is not open, and established clients send
requests only. -/
def Lawful (s : Server) (i : Env × Event) : Prop :=
  Fresh s i ∧
    match i.2 with
    | .readable _ _ sock => 0 < (recvEfficient sock TcpMessage.zero).rc →
        (requestOf (recvEfficient sock TcpMessage.zero).msg).isSome
    | _ => True

instance (s : Server) : ∀ i, Decidable (Lawful s i)
  | (_, .readable ..) => inferInstanceAs (Decidable (_ ∧ (_ → _)))
  | (_, .line _) | (_, .datagram _) | (_, .connection ..) => inferInstanceAs (Decidable (_ ∧ True))

end Book

section Topics

def topicSet (s : Server) (id : ClientId) : Finset Topic := (s.topicsOf id).keys.toFinset

theorem mem_topicSet {s : Server} {id : ClientId} {topic : Topic} :
    topic ∈ topicSet s id ↔ topic ∈ s.topicsOf id := by
  rw [topicSet, List.mem_toFinset, AList.mem_keys]

def Tokenized (topics : Subscriptions) : Prop :=
  ∀ topic tokens, topics.lookup topic = some tokens → tokens = tokenizeTopic topic

theorem requestOf_eq_some {msg : TcpMessage} {topic : Topic} {request : Request}
    (htopic : cString msg.payload = .ok topic) (h : requestOf msg = some request) :
    (msg.command = subscribeReq ∧ request = .subscribe topic) ∨
      (msg.command = unsubscribeReq ∧ request = .unsubscribe topic) := by
  simp only [requestOf, htopic] at h
  split_ifs at h with hsubscribe hunsubscribe
  · exact Or.inl ⟨hsubscribe, (Option.some.inj h).symm⟩
  · exact Or.inr ⟨hunsubscribe, (Option.some.inj h).symm⟩

variable {msg : TcpMessage} {topic : Topic} {request : Request} {topics : Subscriptions}

theorem keys_topicsAfter (htopic : cString msg.payload = .ok topic)
    (h : requestOf msg = some request) :
    (topicsAfter msg.command topic topics).keys.toFinset =
      request.apply topics.keys.toFinset := by
  rcases requestOf_eq_some htopic h with ⟨hcommand, rfl⟩ | ⟨hcommand, rfl⟩
  · simp only [topicsAfter, hcommand, if_true, Request.apply]
    split_ifs with hmem
    · rw [Finset.insert_eq_of_mem (List.mem_toFinset.mpr (AList.mem_keys.mpr hmem))]
    · ext key
      rw [List.mem_toFinset, ← AList.mem_keys, AList.mem_insert, Finset.mem_insert,
        List.mem_toFinset, ← AList.mem_keys]
  · have hne : msg.command ≠ subscribeReq := by rw [hcommand]; decide
    simp only [topicsAfter, hne, if_false, Request.apply]
    ext key
    rw [List.mem_toFinset, ← AList.mem_keys, AList.mem_erase, Finset.mem_erase,
      List.mem_toFinset, ← AList.mem_keys]

theorem tokenized_topicsAfter (command : UInt8) (topic : Topic) (h : Tokenized topics) :
    Tokenized (topicsAfter command topic topics) := by
  intro key tokens hlookup
  unfold topicsAfter at hlookup
  split_ifs at hlookup with hsubscribe hmem
  · exact h key tokens hlookup
  · by_cases hkey : key = topic
    · rw [hkey, AList.lookup_insert, Option.some.injEq] at hlookup
      rw [hkey, ← hlookup]
    · rw [AList.lookup_insert_ne hkey] at hlookup
      exact h key tokens hlookup
  · by_cases hkey : key = topic
    · rw [hkey, AList.lookup_erase] at hlookup
      simp at hlookup
    · rw [AList.lookup_erase_ne hkey] at hlookup
      exact h key tokens hlookup

/-- The answer is the SUCC code exactly if the request changes the set. -/
theorem answerTo_eq (htopic : cString msg.payload = .ok topic) (h : requestOf msg = some request) :
    answerTo msg.command topic topics =
      if request.apply topics.keys.toFinset ≠ topics.keys.toFinset then request.succ
      else request.fail := by
  rcases requestOf_eq_some htopic h with ⟨hcommand, rfl⟩ | ⟨hcommand, rfl⟩
  · simp only [answerTo, hcommand, if_true, Request.apply, Request.succ, Request.fail, ne_eq,
      Finset.insert_eq_self, List.mem_toFinset, AList.mem_keys, ite_not]
  · have hne : msg.command ≠ subscribeReq := by rw [hcommand]; decide
    simp only [answerTo, hne, if_false, Request.apply, Request.succ, Request.fail, ne_eq,
      Finset.erase_eq_self, List.mem_toFinset, AList.mem_keys, not_not]

end Topics

section Refinement

/-- The server has done what the book says. -/
structure Kept (s : Server) (b : Book) : Prop where
  consistent : Consistent s
  holder : holder s = b.holder
  topics : ∀ id, topicSet s id = (b.requests id).foldl Request.apply ∅
  tokens : ∀ id, Tokenized (s.topicsOf id)

theorem kept_prepare (udpSockfd tcpSockfd : Int) :
    Kept (Server.prepare udpSockfd tcpSockfd) Book.empty where
  consistent := consistent_prepare udpSockfd tcpSockfd
  holder := rfl
  topics := fun _ => rfl
  tokens := fun _ topic tokens h => by simp [Server.topicsOf, Server.client, Server.prepare] at h

theorem topicsOf_enrol (s : Server) (id : ClientId) (fd : Int) :
    (enrol s id fd).topicsOf = s.topicsOf := by
  funext other
  by_cases hid : other = id
  · subst hid
    rw [Server.topicsOf, client_enrol, Function.update_self, Option.elim_some]
  · rw [Server.topicsOf, client_enrol, Function.update_of_ne hid]
    rfl

theorem topicsOf_dismiss {s : Server} {id : ClientId} {c : Client} (hc : s.client id = some c)
    (it : ℕ) : (dismiss s id c it).topicsOf = s.topicsOf := by
  funext other
  by_cases hid : other = id
  · subst hid
    rw [Server.topicsOf, client_dismiss, Function.update_self, Option.elim_some, Server.topicsOf,
      hc, Option.elim_some]
  · rw [Server.topicsOf, client_dismiss, Function.update_of_ne hid]
    rfl

theorem topicsOf_of_update {s s' : Server} {id : ClientId} {c : Client} {topics : Subscriptions}
    (h : s'.client = Function.update s.client id (some { c with subscribedTopics := topics })) :
    s'.topicsOf = Function.update s.topicsOf id topics := by
  funext other
  by_cases hid : other = id
  · subst hid
    rw [Server.topicsOf, h, Function.update_self, Function.update_self, Option.elim_some]
  · rw [Server.topicsOf, h, Function.update_of_ne hid, Function.update_of_ne hid]
    rfl

variable {s s' : Server} {out : List Effect} {b : Book} {i : Env × Event}

/-- A request that is answered comes from the id that holds the descriptor, and
does to its topics what requests do. -/
theorem request_step {env : Env} {k : ℕ} {fd : Int} {sock : Socket} {request : Request}
    (h : Consistent s) (hrequest : requestOf (recvEfficient sock TcpMessage.zero).msg = some request)
    (hpos : 0 < (recvEfficient sock TcpMessage.zero).rc)
    (hstep : step s (env, .readable k fd sock) = some (s', out)) :
    ∃ id, holder s id = some fd ∧ holder s' = holder s ∧
      topicSet s' id = request.apply (topicSet s id) ∧
      (Tokenized (s.topicsOf id) → Tokenized (s'.topicsOf id)) ∧
      (∀ other, other ≠ id → s'.topicsOf other = s.topicsOf other) ∧
      out = [.wrote fd (Frame.bare (if request.apply (topicSet s id) ≠ topicSet s id
        then request.succ else request.fail)).encode] := by
  cases served h hstep with
  | left hzero => omega
  | @answered _ _ _ received id c topic _ hreceived _ _ hc hheld htopic hclient hpoll hnum =>
    subst hreceived
    have htopics := topicsOf_of_update hclient
    have hid : s.topicsOf id = c.subscribedTopics := by
      rw [Server.topicsOf, hc, Option.elim_some]
    refine ⟨id, hheld, holder_of_topics hc hclient, ?_, ?_, ?_, ?_⟩
    · rw [topicSet, topicSet, htopics, Function.update_self, hid]
      exact keys_topicsAfter htopic hrequest
    · intro htokens
      rw [htopics, Function.update_self]
      exact tokenized_topicsAfter _ _ (hid ▸ htokens)
    · intro other hother
      rw [htopics, Function.update_of_ne hother]
    · rw [answerTo_eq htopic hrequest, topicSet, hid]

/-- Who holds what may change while all topics and all accounts stay. -/
theorem Kept.rehold {b' : Book} (h : Kept s b) (hconsistent : Consistent s')
    (hholder : ServerRuns.holder s' = b'.holder) (hrequests : b'.requests = b.requests)
    (htopics : s'.topicsOf = s.topicsOf) : Kept s' b' where
  consistent := hconsistent
  holder := hholder
  topics := by
    intro id
    rw [topicSet, htopics, hrequests]
    exact h.topics id
  tokens := by
    rw [htopics]
    exact h.tokens

/-- A request goes to the account of the one id that holds the descriptor. -/
theorem Kept.request {env : Env} {k : ℕ} {fd : Int} {sock : Socket} {request : Request}
    (h : Kept s b) (hconsistent : Consistent s')
    (hrequest : requestOf (recvEfficient sock TcpMessage.zero).msg = some request)
    (hpos : 0 < (recvEfficient sock TcpMessage.zero).rc)
    (hstep : step s (env, .readable k fd sock) = some (s', out)) :
    Kept s' (b.next (.ask fd request)) := by
  obtain ⟨id, hheld, hholder, htopics, htokens, hothers, -⟩ :=
    request_step h.consistent hrequest hpos hstep
  refine ⟨hconsistent, hholder.trans h.holder, ?_, ?_⟩
  · intro other
    simp only [Book.next]
    by_cases hother : other = id
    · subst hother
      rw [if_pos (by rw [← h.holder, hheld]), List.foldl_append, ← h.topics, htopics]
      rfl
    · have hnot : b.holder other ≠ some fd := by
        rw [← h.holder]
        exact fun hfd => hother (h.consistent.leased.exclusive other id fd hfd hheld)
      rw [if_neg hnot, ← h.topics, topicSet, hothers other hother]
      rfl
  · intro other
    by_cases hother : other = id
    · exact hother ▸ htokens (h.tokens id)
    · rw [hothers other hother]
      exact h.tokens other

/-- One event takes the server along with the book. -/
theorem kept_step (h : Kept s b) (hlawful : Lawful s i) (hstep : step s i = some (s', out)) :
    Kept s' (b.next (deed i.2)) := by
  have hconsistent := consistent_step h.consistent hlawful.1 hstep
  obtain ⟨env, event⟩ := i
  cases served h.consistent hstep with
  | line | datagram => exact h
  | @refused addr fd sock id hid hconnected =>
    have hheld : b.holder id ≠ none := by
      rw [← h.holder]
      exact fun hnone => holder_eq_none.mp hnone hconnected
    simp only [deed, hid, Book.next, hheld, if_false]
    exact h
  | @admitted addr fd sock id hid hfd hidle =>
    have hfree : b.holder id = none := by rw [← h.holder, holder_eq_none.mpr hidle]
    simp only [deed, hid, Book.next, hfree, if_true]
    exact h.rehold hconsistent (by rw [holder_enrol, h.holder]) rfl (topicsOf_enrol s id fd)
  | @left k fd sock id c shown hzero hplace hc hheld =>
    simp only [deed, hzero, if_true, Book.next]
    refine h.rehold hconsistent ?_ rfl (topicsOf_dismiss hc (3 + k))
    rw [holder_dismiss, h.consistent.leased.update_none_eq hheld, h.holder]
  | @answered k fd sock received _ _ _ _ hreceived hpos =>
    subst hreceived
    obtain ⟨request, hrequest⟩ := Option.isSome_iff_exists.mp (hlawful.2 hpos)
    have hzero : (recvEfficient sock TcpMessage.zero).rc ≠ 0 := by omega
    simp only [deed, hzero, if_false, hrequest]
    exact h.request hconsistent hrequest hpos hstep

theorem kept_run {is : List (Env × Event)} {udpSockfd tcpSockfd : Int}
    (hlawful : Along step Lawful (Server.prepare udpSockfd tcpSockfd) is)
    (hrun : exec step (Server.prepare udpSockfd tcpSockfd) is = some (s, out)) : Kept s (book is) :=
  exec_simulates (R := Kept) (fun b (i : Env × Event) => b.next (deed i.2))
    (fun _ _ _ _ _ h hlawful hstep => kept_step h hlawful hstep)
    (kept_prepare udpSockfd tcpSockfd) hlawful hrun

end Refinement

section Exactness

/-- In every run the topics of every id are the fold of the requests processed on
all its sessions, each stored with its own tokens; and the next request is answered
with SUCC exactly if it changes the topics of the id it comes from. -/
theorem ledger_exact {udpSockfd tcpSockfd : Int} {is : List (Env × Event)} {s : Server}
    {out : List Effect} (hlawful : Along step Lawful (Server.prepare udpSockfd tcpSockfd) is)
    (hrun : exec step (Server.prepare udpSockfd tcpSockfd) is = some (s, out)) :
    (∀ id, topicSet s id = ((book is).requests id).foldl Request.apply ∅) ∧
    (∀ id topic tokens, (s.topicsOf id).lookup topic = some tokens →
      tokens = tokenizeTopic topic) ∧
    ∀ (env : Env) (k : ℕ) (fd : Int) (sock : Socket) (request : Request) (s' : Server)
      (out' : List Effect), requestOf (recvEfficient sock TcpMessage.zero).msg = some request →
      0 < (recvEfficient sock TcpMessage.zero).rc →
      step s (env, .readable k fd sock) = some (s', out') →
      ∃ id, (book is).holder id = some fd ∧ topicSet s' id = request.apply (topicSet s id) ∧
        (∀ other, other ≠ id → s'.topicsOf other = s.topicsOf other) ∧
        out' = [.wrote fd (Frame.bare (if topicSet s' id ≠ topicSet s id
          then request.succ else request.fail)).encode] := by
  have hkept := kept_run hlawful hrun
  refine ⟨hkept.topics, hkept.tokens, ?_⟩
  intro env k fd sock request s' out' hrequest hpos hstep
  obtain ⟨id, hheld, -, htopics, -, hothers, hout⟩ :=
    request_step hkept.consistent hrequest hpos hstep
  exact ⟨id, hkept.holder ▸ hheld, htopics, hothers, by rw [htopics, hout]⟩

def returningClient : List (Env × Event) :=
  let connect := Event.connect ⟨(127, 0, 0, 1), 1⟩ 5 connectA
  let subscribe := Event.frame 0 5 subscribeT
  [connect, subscribe, subscribe, .hangUp 0 5, connect].map fun event => (Env.plain, event)

theorem ledger_exact_returningClient : ∃ s out,
    exec step (Server.prepare 3 4) returningClient = some (s, out) ∧
      topicSet s (ascii "a") = {ascii "t"} ∧
      ∀ s' out', step s (Env.plain, .frame 0 5 unsubscribeT)
        = some (s', out') →
        ∃ id, (book returningClient).holder id = some 5 ∧
          topicSet s' id = (topicSet s id).erase (ascii "t") := by
  obtain ⟨⟨s, out⟩, hrun⟩ := Option.isSome_iff_exists.mp
    (show (exec step (Server.prepare 3 4) returningClient).isSome by rfl)
  obtain ⟨htopics, -, hnext⟩ := ledger_exact (by decide) hrun
  refine ⟨s, out, hrun, (htopics (ascii "a")).trans (by decide), ?_⟩
  intro s' out' hstep
  obtain ⟨id, hid, hset, -⟩ :=
    hnext Env.plain 0 5 _ (.unsubscribe (ascii "t")) s' out' (by decide) (by decide) hstep
  exact ⟨id, hid, hset⟩

end Exactness

end ServerClientApp.Ledger
