import ServerClientApp.Delivery
import ServerClientApp.PollRounds

/-!
The loop of the server recv by recv. poll reports a connection when one byte of it is
unread, and the listening socket when a connection was opened; the server then calls
recv until it has a whole frame. What arrives in the meantime, on this connection or
elsewhere, is interleaved with these calls.
-/

namespace ServerClientApp.BlockingReads

open PartialTransfers Outcomes Runs Protocols ServerHandlers ServerRuns PollRounds

section Bytes

/-- bytes_remaining of recv_efficient when these bytes are got: of the command, then
of the length, then of as many bytes as the length says. -/
def bytesRemaining : Bytes → ℕ
  | [] => 1
  | [_] => 2
  | [_, _] => 1
  | _ :: hi :: lo :: payload => hi.toNat * 256 + lo.toNat - payload.length

theorem bytesRemaining_eq_zero_iff (bytes : Bytes) :
    bytesRemaining bytes = 0 ↔ holdsFrame bytes = true := by
  match bytes with
  | [] | [_] | [_, _] => simp [bytesRemaining, holdsFrame]
  | _ :: hi :: lo :: payload =>
    simp only [bytesRemaining, holdsFrame, decide_eq_true_eq]
    omega

theorem holdsFrame_append {bytes : Bytes} (more : Bytes) (h : holdsFrame bytes = true) :
    holdsFrame (bytes ++ more) = true := by
  match bytes with
  | [] | [_] | [_, _] => simp [holdsFrame] at h
  | _ :: hi :: lo :: payload =>
    simp only [holdsFrame, decide_eq_true_eq, List.cons_append, List.length_append] at h ⊢
    omega

def WithinFrame : Bytes → Prop
  | _ :: hi :: lo :: payload => payload.length ≤ hi.toNat * 256 + lo.toNat
  | _ => True

/-- A recv asks for no more than bytes_remaining, so it stays within the frame. -/
theorem withinFrame_append {got chunk : Bytes} (h : WithinFrame got)
    (hlen : chunk.length ≤ bytesRemaining got) : WithinFrame (got ++ chunk) := by
  match got, chunk with
  | [], [] | [], [_] | [_], [] | [_], [_] | [_, _], [] => trivial
  | [_], [_, _] | [_, _], [_] => exact Nat.zero_le _
  | [], _ :: _ :: _ | [_], _ :: _ :: _ :: _ | [_, _], _ :: _ :: _ =>
    simp only [bytesRemaining, List.length_cons] at hlen
    omega
  | _ :: hi :: lo :: payload, chunk =>
    simp only [WithinFrame, bytesRemaining, List.cons_append, List.length_append] at h hlen ⊢
    omega

/-- The number two length bytes announce. -/
theorem toNat_lenBytes (hi lo : UInt8) :
    (UInt16.ofNat (hi.toNat * 256 + lo.toNat)).toNat = hi.toNat * 256 + lo.toNat := by
  have hhi := hi.toNat_lt
  have hlo := lo.toNat_lt
  exact UInt16.toNat_ofNat_of_lt' (show hi.toNat * 256 + lo.toNat < 65536 by omega)

theorem bigEndian_lenBytes (hi lo : UInt8) :
    bigEndian (UInt16.ofNat (hi.toNat * 256 + lo.toNat)) = [hi, lo] := by
  have hlo := lo.toNat_lt
  have hhigh : (hi.toNat * 256 + lo.toNat) / 256 = hi.toNat := by omega
  have hlow : (hi.toNat * 256 + lo.toNat) % 256 = lo.toNat := by omega
  rw [bigEndian, toNat_lenBytes, hhigh, hlow, UInt8.ofNat_toNat, UInt8.ofNat_toNat]

/-- What is got when nothing remains is exactly a frame. -/
theorem frame_of_got {got : Bytes} (h : WithinFrame got) (hdone : bytesRemaining got = 0) :
    ∃ f : Frame, got = f.encode := by
  match got with
  | [] | [_] | [_, _] => simp [bytesRemaining] at hdone
  | command :: hi :: lo :: payload =>
    simp only [WithinFrame, bytesRemaining] at h hdone
    have hlen := toNat_lenBytes hi lo
    refine ⟨⟨command, UInt16.ofNat (hi.toNat * 256 + lo.toNat), payload, by omega⟩, ?_⟩
    rw [Frame.encode, bigEndian_lenBytes]
    rfl

/-- recv_efficient returns 0 for a stream that ends before its frame is whole. -/
theorem recvEfficient_unfinished {part : Bytes} (hpart : bytesRemaining part ≠ 0)
    {calls : List Call} (h : Steady calls) :
    (recvEfficient ⟨part, calls⟩ TcpMessage.zero).rc = 0 := by
  have hnonneg := (recvEfficient_keeps_steady ⟨part, calls⟩ TcpMessage.zero h).1
  match part with
  | [] | [_] | [_, _] =>
    exact ((recvEfficient_no_header _ calls (by simp)).resolve_left (by omega)).1
  | command :: hi :: lo :: payload =>
    simp only [bytesRemaining] at hpart
    have hlen := toNat_lenBytes hi lo
    have hcut := recvEfficient_cut_payload command (UInt16.ofNat (hi.toNat * 256 + lo.toNat))
      payload calls (by omega)
    rw [bigEndian_lenBytes, List.cons_append, List.cons_append, List.nil_append] at hcut
    exact (hcut.resolve_left (by omega)).1

end Bytes

section Model

/-- recv_efficient under way: what accept returned if it was the one that opened the
connection, how many bytes are got, what recv returned so far, and whether it has
returned the end of the stream. -/
structure Reading where
  newFd : Int
  got : ℕ
  calls : List Call
  ended : Bool

namespace Reading

def start (newFd : Int) : Reading := ⟨newFd, 0, [], false⟩

def unread (r : Reading) (ch : Channel) : Bytes := ch.arrived.drop r.got

def remaining (r : Reading) (ch : Channel) : ℕ := bytesRemaining (ch.arrived.take r.got)

def due (r : Reading) (ch : Channel) : Bool := !r.ended && r.remaining ch != 0

/-- One recv on the connection: it waits while nothing is unread and the peer has not
closed, and otherwise moves from one byte to all it asks for. An error ends the program. -/
def recv (r : Reading) (ch : Channel) : Call → Option Reading
  | .failed => none
  | .moved count =>
    if (r.unread ch).isEmpty then
      if ch.closed then some { r with ended := true } else none
    else
      let k := grant count (min (r.remaining ch) (r.unread ch).length)
      some { r with got := r.got + k, calls := r.calls ++ [.moved k] }

end Reading

structure Loop where
  sys : System
  reading : Option Reading

def Loop.start (udpSockfd tcpSockfd : Int) : Loop := ⟨System.start udpSockfd tcpSockfd, none⟩

/-- The connection the loop reads a frame from at its place, if it does. A connection
stays at the head of the backlog until the frame that presents its id is read. -/
def source (sys : System) : Option Channel :=
  match sys.phase with
  | .poll => none
  | .entry it =>
    match sys.server.pollFds[it]? with
    | none => none
    | some p =>
      if p.revents then
        match it with
        | 0 | 1 => none
        | 2 => sys.backlog.head?.map Arrival.channel
        | _ + 3 => some (sys.channels p.fd)
      else none

/-- Something arrives or the loop takes a step in which it reads no frame; or it enters
recv_efficient, is at one of its recvs, or goes on with what it returned. -/
inductive Action where
  | moves (m : Move)
  | begins (newFd : Int)
  | recvs (call : Call)
  | handles (env : Env)

def Loop.mayMove (l : Loop) : Move → Bool
  | .serves .. => l.reading.isNone && (source l.sys).isNone
  | _ => true

def step (l : Loop) : Action → Option (Loop × List Effect)
  | .moves m =>
    if l.mayMove m then (move l.sys m).map fun r => (⟨r.1, l.reading⟩, r.2) else none
  | .begins newFd =>
    if l.reading.isNone && (source l.sys).isSome then
      some (⟨l.sys, some (Reading.start newFd)⟩, [])
    else none
  | .recvs call => do
    let r ← l.reading
    let ch ← source l.sys
    if r.due ch then (r.recv ch call).map fun r' => (⟨l.sys, some r'⟩, []) else none
  | .handles env => do
    let r ← l.reading
    let ch ← source l.sys
    if r.due ch then none
    else (l.sys.advance env r.newFd r.calls).map fun out => (⟨out.1, none⟩, out.2)

def Action.own : Action → Bool
  | .moves (.serves ..) | .begins _ | .recvs _ | .handles _ => true
  | .moves _ => false

def FindsInput (l : Loop) : Prop :=
  ∀ r ch, l.reading = some r → source l.sys = some ch → r.due ch = true →
    r.unread ch ≠ [] ∨ ch.closed = true

/-- A datagram is pending, or a whole frame of a client or of a new connection. The
connection the server is held up by has no whole frame. -/
def OtherWork (sys : System) : Prop :=
  sys.datagrams ≠ [] ∨ (∃ fd ∈ sys.server.clientFds, holdsFrame (sys.channels fd).arrived = true) ∨
    ∃ arrival ∈ sys.backlog, holdsFrame arrival.channel.arrived = true

structure HeldUp (l : Loop) : Prop where
  reading : ∃ r ch, l.reading = some r ∧ source l.sys = some ch ∧ r.due ch = true
  stuck : ∀ a : Action, a.own = true → step l a = none
  work : OtherWork l.sys

def BeginsSettled (l : Loop) : Action → Prop
  | .begins _ => ∀ ch ∈ source l.sys, ch.settled = true
  | _ => True

instance (l : Loop) : ∀ a, Decidable (BeginsSettled l a)
  | .begins _ => inferInstanceAs (Decidable (∀ ch ∈ source l.sys, ch.settled = true))
  | .moves _ | .recvs _ | .handles _ => isTrue trivial

end Model

section Steps

variable {l l' : Loop} {r r' : Reading} {ch ch' : Channel} {out : List Effect}

inductive Stepped (l : Loop) : Action → Loop → List Effect → Prop
  | moves {m : Move} {sys : System} {out : List Effect} :
      l.mayMove m = true → move l.sys m = some (sys, out) →
      Stepped l (.moves m) ⟨sys, l.reading⟩ out
  | begins {newFd : Int} {ch : Channel} :
      l.reading = none → source l.sys = some ch →
      Stepped l (.begins newFd) ⟨l.sys, some (Reading.start newFd)⟩ []
  | recvs {call : Call} {r r' : Reading} {ch : Channel} :
      l.reading = some r → source l.sys = some ch → r.due ch = true → r.recv ch call = some r' →
      Stepped l (.recvs call) ⟨l.sys, some r'⟩ []
  | handles {env : Env} {r : Reading} {ch : Channel} {sys : System} {out : List Effect} :
      l.reading = some r → source l.sys = some ch → r.due ch = false →
      l.sys.advance env r.newFd r.calls = some (sys, out) →
      Stepped l (.handles env) ⟨sys, none⟩ out

theorem stepped {a : Action} (h : step l a = some (l', out)) : Stepped l a l' out := by
  cases a with
  | moves m =>
    simp only [step] at h
    split_ifs at h with hmay
    obtain ⟨⟨sys, out'⟩, hmove, heq⟩ := Option.map_eq_some_iff.mp h
    obtain ⟨rfl, rfl⟩ := Prod.mk.inj heq
    exact Stepped.moves hmay hmove
  | begins newFd =>
    simp only [step] at h
    split_ifs at h with hguard
    obtain ⟨hnone, hsome⟩ := Bool.and_eq_true_iff.mp hguard
    obtain ⟨ch, hsource⟩ := Option.isSome_iff_exists.mp hsome
    obtain ⟨rfl, rfl⟩ := Prod.mk.inj (Option.some.inj h)
    exact Stepped.begins (Option.isNone_iff_eq_none.mp hnone) hsource
  | recvs call =>
    simp only [step, Option.bind_eq_bind, Option.bind_eq_some_iff] at h
    obtain ⟨r, hreading, ch, hsource, h⟩ := h
    split_ifs at h with hdue
    obtain ⟨r', hrecv, heq⟩ := Option.map_eq_some_iff.mp h
    obtain ⟨rfl, rfl⟩ := Prod.mk.inj heq
    exact Stepped.recvs hreading hsource hdue hrecv
  | handles env =>
    simp only [step, Option.bind_eq_bind, Option.bind_eq_some_iff] at h
    obtain ⟨r, hreading, ch, hsource, h⟩ := h
    split_ifs at h with hdue
    obtain ⟨⟨sys, out'⟩, hadvance, heq⟩ := Option.map_eq_some_iff.mp h
    obtain ⟨rfl, rfl⟩ := Prod.mk.inj heq
    exact Stepped.handles hreading hsource (Bool.not_eq_true _ ▸ hdue) hadvance

theorem source_eq_some {sys : System} : source sys = some ch ↔
    ∃ it p, sys.phase = .entry it ∧ sys.server.pollFds[it]? = some p ∧ p.revents = true ∧
      ((it = 2 ∧ ∃ a, sys.backlog.head? = some a ∧ a.channel = ch) ∨
        3 ≤ it ∧ sys.channels p.fd = ch) := by
  constructor
  · intro h
    unfold source at h
    split at h
    · cases h
    · rename_i it hphase
      split at h
      · cases h
      · rename_i p hentry
        split_ifs at h with hready
        refine ⟨it, p, hphase, hentry, hready, ?_⟩
        match it with
        | 0 | 1 => cases h
        | 2 => exact Or.inl ⟨rfl, Option.map_eq_some_iff.mp h⟩
        | k + 3 => exact Or.inr ⟨by omega, Option.some.inj h⟩
  · intro h
    obtain ⟨it, p, hphase, hentry, hready, hplace⟩ := h
    rcases hplace with ⟨rfl, a, hhead, rfl⟩ | ⟨hit, rfl⟩
    · simp only [source, hphase, hentry, hready, if_true, hhead, Option.map_some]
    · obtain ⟨k, rfl⟩ : ∃ k, it = k + 3 := ⟨it - 3, by omega⟩
      simp only [source, hphase, hentry, hready, if_true]

structure Grown (ch ch' : Channel) : Prop where
  arrived : ∃ more, ch'.arrived = ch.arrived ++ more
  closed : ch.closed = true → ch' = ch

theorem Grown.refl (ch : Channel) : Grown ch ch := ⟨⟨[], (List.append_nil _).symm⟩, fun _ => rfl⟩

theorem grown_receive (bytes : Bytes) (h : ch.closed = false) : Grown ch (ch.receive bytes) :=
  ⟨⟨bytes, rfl⟩, fun hclosed => by rw [h] at hclosed; cases hclosed⟩

theorem grown_close (ch : Channel) : Grown ch ch.close := by
  obtain ⟨arrived, closed⟩ := ch
  refine ⟨⟨[], (List.append_nil _).symm⟩, ?_⟩
  intro hclosed
  rw [Channel.close, show closed = true from hclosed]

/-- A settled connection stays settled. -/
theorem Grown.settled (h : Grown ch ch') (hsettled : ch.settled = true) : ch'.settled = true := by
  obtain ⟨more, hmore⟩ := h.arrived
  rcases Bool.or_eq_true_iff.mp hsettled with hclosed | hframe
  · rwa [h.closed hclosed]
  · exact Bool.or_eq_true_iff.mpr (Or.inr (hmore ▸ holdsFrame_append more hframe))

structure Outside (sys sys' : System) : Prop where
  server : sys'.server = sys.server
  phase : sys'.phase = sys.phase
  backlog : ∀ a, sys.backlog.head? = some a →
    ∃ a', sys'.backlog.head? = some a' ∧ Grown a.channel a'.channel
  channels : ∀ fd, Grown (sys.channels fd) (sys'.channels fd)

theorem Outside.source {sys sys' : System} (h : Outside sys sys') (hsource : source sys = some ch) :
    ∃ ch', BlockingReads.source sys' = some ch' ∧ Grown ch ch' := by
  obtain ⟨it, p, hphase, hentry, hready, hplace⟩ := source_eq_some.mp hsource
  rw [← h.phase] at hphase
  rw [← h.server] at hentry
  rcases hplace with ⟨rfl, a, hhead, rfl⟩ | ⟨hit, rfl⟩
  · obtain ⟨a', hhead', hgrown⟩ := h.backlog a hhead
    exact ⟨_, source_eq_some.mpr
      ⟨2, p, hphase, hentry, hready, Or.inl ⟨rfl, a', hhead', rfl⟩⟩, hgrown⟩
  · exact ⟨_, source_eq_some.mpr ⟨it, p, hphase, hentry, hready, Or.inr ⟨hit, rfl⟩⟩,
      h.channels p.fd⟩

theorem outside_setArrival {sys : System} {n : ℕ} {a : Arrival} (ha : sys.backlog[n]? = some a)
    {ch : Channel} (hgrown : Grown a.channel ch) :
    Outside sys (sys.setArrival n { a with channel := ch }) := by
  refine ⟨rfl, rfl, ?_, fun fd => Grown.refl _⟩
  intro first hfirst
  change ∃ a', (sys.backlog.set n _).head? = some a' ∧ _
  cases n with
  | zero =>
    rw [List.head?_eq_getElem?] at hfirst ⊢
    rw [hfirst, Option.some.injEq] at ha
    subst ha
    refine ⟨_, List.getElem?_set_self ?_, hgrown⟩
    exact (List.getElem?_eq_some_iff.mp hfirst).1
  | succ n =>
    rw [List.head?_eq_getElem?, List.getElem?_set_ne (by omega), ← List.head?_eq_getElem?]
    exact ⟨first, hfirst, Grown.refl _⟩

theorem outside_setChannel {sys : System} {fd : Int} {ch : Channel}
    (hgrown : Grown (sys.channels fd) ch) : Outside sys (sys.setChannel fd ch) := by
  refine ⟨rfl, rfl, fun a ha => ⟨a, ha, Grown.refl _⟩, ?_⟩
  intro fd'
  change Grown _ (Function.update sys.channels fd ch fd')
  by_cases hfd : fd' = fd
  · subst hfd
    rwa [Function.update_self]
  · rw [Function.update_of_ne hfd]
    exact Grown.refl _

theorem outside_move {sys sys' : System} {m : Move} (hm : (Action.moves m).own = false)
    (h : move sys m = some (sys', out)) : Outside sys sys' := by
  have hsame (sys' : System) (hserver : sys'.server = sys.server) (hphase : sys'.phase = sys.phase)
      (hbacklog : sys'.backlog = sys.backlog) (hchannels : sys'.channels = sys.channels) :
      Outside sys sys' :=
    ⟨hserver, hphase, fun a ha => ⟨a, hbacklog ▸ ha, Grown.refl _⟩,
      fun fd => hchannels ▸ Grown.refl _⟩
  cases m with
  | serves env newFd calls => cases hm
  | types line | publishes d =>
    obtain ⟨rfl, -⟩ := Prod.mk.inj (Option.some.inj h)
    exact hsame _ rfl rfl rfl rfl
  | connects addr =>
    obtain ⟨rfl, -⟩ := Prod.mk.inj (Option.some.inj h)
    refine ⟨rfl, rfl, ?_, fun fd => Grown.refl _⟩
    intro a ha
    refine ⟨a, ?_, Grown.refl _⟩
    change (sys.backlog ++ _).head? = some a
    rw [List.head?_append, ha, Option.some_or]
  | presents n bytes =>
    simp only [move, Option.bind_eq_bind, Option.bind_eq_some_iff] at h
    obtain ⟨a, ha, h⟩ := h
    split_ifs at h with hopen
    obtain ⟨rfl, -⟩ := Prod.mk.inj (Option.some.inj h)
    exact outside_setArrival ha (grown_receive bytes (Bool.not_eq_true _ ▸ hopen))
  | abandons n =>
    simp only [move, Option.bind_eq_bind, Option.bind_eq_some_iff] at h
    obtain ⟨a, ha, h⟩ := h
    obtain ⟨rfl, -⟩ := Prod.mk.inj (Option.some.inj h)
    exact outside_setArrival ha (grown_close _)
  | sends fd bytes =>
    simp only [move] at h
    split_ifs at h with hguard
    obtain ⟨rfl, -⟩ := Prod.mk.inj (Option.some.inj h)
    exact outside_setChannel (grown_receive bytes hguard.2)
  | closes fd =>
    simp only [move] at h
    split_ifs at h with hguard
    obtain ⟨rfl, -⟩ := Prod.mk.inj (Option.some.inj h)
    exact outside_setChannel (grown_close _)

/-- While a frame is read, only arrivals are moves of the rounds. -/
theorem own_eq_false {m : Move} (hmay : l.mayMove m = true) (hreading : l.reading = some r) :
    (Action.moves m).own = false := by
  cases m with
  | serves env newFd calls => simp [Loop.mayMove, hreading] at hmay
  | types | publishes | connects | presents | abandons | sends | closes => rfl

/-- What one recv does when recv_efficient is at one. -/
theorem recv_cases {call : Call} (hdue : r.due ch = true) (h : r.recv ch call = some r') :
    (r.unread ch = [] ∧ ch.closed = true ∧ r' = { r with ended := true }) ∨
      ∃ k, 1 ≤ k ∧ k ≤ r.remaining ch ∧ k ≤ (r.unread ch).length ∧
        r' = { r with got := r.got + k, calls := r.calls ++ [.moved k] } := by
  cases call with
  | failed => cases h
  | moved count =>
    simp only [Reading.recv] at h
    split_ifs at h with hempty hclosed
    · exact Or.inl ⟨List.isEmpty_iff.mp hempty, hclosed, (Option.some.inj h).symm⟩
    · have hremaining : r.remaining ch ≠ 0 := by
        simp only [Reading.due, Bool.and_eq_true, bne_iff_ne] at hdue
        exact hdue.2
      have hunread : 0 < (r.unread ch).length :=
        List.length_pos_of_ne_nil fun hnil => hempty (by rw [hnil]; rfl)
      have hle := grant_le count (min (r.remaining ch) (r.unread ch).length) (by omega)
      have hpos := grant_pos count (min (r.remaining ch) (r.unread ch).length)
      exact Or.inr ⟨_, hpos, by omega, by omega, (Option.some.inj h).symm⟩

/-- recv returns exactly if a byte is unread or the peer has closed. -/
theorem recv_returns_iff :
    (∃ call, (r.recv ch call).isSome = true) ↔ r.unread ch ≠ [] ∨ ch.closed = true := by
  constructor
  · intro h
    obtain ⟨call, hcall⟩ := h
    cases call with
    | failed => cases hcall
    | moved count =>
      simp only [Reading.recv] at hcall
      split_ifs at hcall with hempty hclosed
      · exact Or.inr hclosed
      · cases hcall
      · exact Or.inl fun hnil => hempty (by rw [hnil]; rfl)
  · intro h
    refine ⟨.moved 1, ?_⟩
    simp only [Reading.recv]
    split_ifs with hempty hclosed
    · rfl
    · exact (h.resolve_right hclosed (List.isEmpty_iff.mp hempty)).elim
    · rfl

/-- At a recv the server can take no step exactly if it waits for this connection. -/
theorem stuck_iff (hreading : l.reading = some r) (hsource : source l.sys = some ch)
    (hdue : r.due ch = true) :
    (∀ a : Action, a.own = true → step l a = none) ↔ r.unread ch = [] ∧ ch.closed = false := by
  have hrecv : (∀ call, step l (.recvs call) = none) ↔
      ¬ ∃ call, (r.recv ch call).isSome = true := by
    simp only [step, hreading, hsource, Option.bind_eq_bind, Option.bind_some, hdue, if_true,
      Option.map_eq_none_iff, not_exists, Bool.not_eq_true, Option.isSome_eq_false_iff,
      Option.isNone_iff_eq_none]
  have hwaits : (¬ ∃ call, (r.recv ch call).isSome = true) ↔
      r.unread ch = [] ∧ ch.closed = false := by
    rw [recv_returns_iff, not_or, not_not, Bool.not_eq_true]
  rw [← hwaits, ← hrecv]
  constructor
  · intro h call
    exact h (.recvs call) rfl
  · intro h a ha
    cases a with
    | moves m =>
      cases m with
      | serves env newFd calls => simp [step, Loop.mayMove, hreading]
      | types | publishes | connects | presents | abandons | sends | closes => cases ha
    | begins newFd => simp [step, hreading]
    | recvs call => exact h call
    | handles env => simp [step, hreading, hsource, hdue]

end Steps

section Rounds

variable {l l' : Loop} {r : Reading} {ch : Channel} {out : List Effect}

/-- A frame is read at a place for it, and what is got is part of one frame. After the
end of the stream nothing is unread and the frame is not whole. -/
structure Reads (l : Loop) (r : Reading) (ch : Channel) : Prop where
  source : source l.sys = some ch
  got_le : r.got ≤ ch.arrived.length
  within : WithinFrame (ch.arrived.take r.got)
  steady : Steady r.calls
  ended : r.ended = true → r.unread ch = [] ∧ ch.closed = true ∧ r.remaining ch ≠ 0

theorem Reads.grown {l : Loop} {ch ch' : Channel} (h : Reads l r ch) {sys : System}
    {reading : Option Reading} (hsource : BlockingReads.source sys = some ch')
    (hgrown : Grown ch ch') : Reads ⟨sys, reading⟩ r ch' := by
  obtain ⟨more, hmore⟩ := hgrown.arrived
  have htake : ch'.arrived.take r.got = ch.arrived.take r.got := by
    rw [hmore, List.take_append_of_le_length h.got_le]
  refine ⟨hsource, ?_, htake ▸ h.within, h.steady, ?_⟩
  · rw [hmore, List.length_append]
    have hle := h.got_le
    omega
  · intro hended
    rw [hgrown.closed (h.ended hended).2.1]
    exact h.ended hended

theorem Reads.recv {l : Loop} {r r' : Reading} {call : Call} (h : Reads l r ch)
    (hdue : r.due ch = true) (hrecv : r.recv ch call = some r') {reading : Option Reading} :
    Reads ⟨l.sys, reading⟩ r' ch := by
  have hnot : r.ended = false ∧ r.remaining ch ≠ 0 := by
    simpa only [Reading.due, Bool.and_eq_true, Bool.not_eq_true', bne_iff_ne] using hdue
  rcases recv_cases hdue hrecv with ⟨hunread, hclosed, rfl⟩ | ⟨k, hpos, hle, hlen, rfl⟩
  · exact ⟨h.source, h.got_le, h.within, h.steady, fun _ => ⟨hunread, hclosed, hnot.2⟩⟩
  · have htake : ch.arrived.take (r.got + k) = ch.arrived.take r.got ++ (r.unread ch).take k :=
      List.take_add
    have hchunk : ((r.unread ch).take k).length ≤ r.remaining ch := by
      rw [List.length_take]
      omega
    refine ⟨h.source, ?_, ?_, ?_, ?_⟩
    · have hdrop : (r.unread ch).length = ch.arrived.length - r.got := List.length_drop
      have hgot := h.got_le
      change r.got + k ≤ _
      omega
    · change WithinFrame (ch.arrived.take (r.got + k))
      rw [htake]
      exact withinFrame_append h.within hchunk
    · intro hmem
      rcases List.mem_append.mp hmem with hmem | hmem
      · exact h.steady hmem
      · cases List.mem_singleton.mp hmem
    · intro hended
      rw [show r.ended = true from hended] at hnot
      cases hnot.1

def Reached (l : Loop) : Prop := ∀ r, l.reading = some r → ∃ ch, Reads l r ch

theorem reached_step {a : Action} (h : Reached l) (hstep : step l a = some (l', out)) :
    Reached l' := by
  cases stepped hstep with
  | @moves m sys _ hmay hmove =>
    intro r hr
    obtain ⟨ch, hch⟩ := h r hr
    obtain ⟨ch', hsource, hgrown⟩ := (outside_move (own_eq_false hmay hr) hmove).source hch.source
    exact ⟨ch', hch.grown hsource hgrown⟩
  | @begins newFd ch hnone hsource =>
    intro r hr
    obtain rfl := Option.some.inj hr
    refine ⟨ch, hsource, Nat.zero_le _, trivial, steady_nil, ?_⟩
    intro hended
    cases hended
  | @recvs call r₀ r₁ ch hreading hsource hdue hrecv =>
    intro r hr
    obtain rfl := Option.some.inj hr
    obtain ⟨ch₀, hch⟩ := h r₀ hreading
    obtain rfl : ch₀ = ch := Option.some.inj (hch.source.symm.trans hsource)
    exact ⟨ch₀, hch.recv hdue hrecv⟩
  | handles =>
    intro r hr
    cases hr

theorem reached_start (udpSockfd tcpSockfd : Int) : Reached (Loop.start udpSockfd tcpSockfd) := by
  intro r hr
  cases hr

theorem reached_run {udpSockfd tcpSockfd : Int} {as : List Action}
    (hrun : exec step (Loop.start udpSockfd tcpSockfd) as = some (l, out)) : Reached l :=
  exec_invariant (fun _ _ _ _ h _ hstep => reached_step h hstep) (reached_start _ _)
    (along_true _ as) hrun

/-- The recvs made one by one have the result of recv_efficient in one piece. -/
theorem Reads.over (h : Reads l r ch) (hover : r.due ch = false) :
    (recvEfficient ⟨ch.arrived, r.calls⟩ TcpMessage.zero).rc =
        (if r.ended then 0 else (r.got : Int)) ∧
      (r.ended = false →
        (recvEfficient ⟨ch.arrived, r.calls⟩ TcpMessage.zero).sock.pending = r.unread ch) := by
  have hsplit : ch.arrived.take r.got ++ r.unread ch = ch.arrived := List.take_append_drop _ _
  cases hended : r.ended with
  | true =>
    obtain ⟨hunread, hclosed, hremaining⟩ := h.ended hended
    rw [hunread, List.append_nil] at hsplit
    rw [Reading.remaining, hsplit] at hremaining
    refine ⟨recvEfficient_unfinished hremaining h.steady, ?_⟩
    intro hfalse
    cases hfalse
  | false =>
    have hdone : r.remaining ch = 0 := by
      simpa [Reading.due, hended] using hover
    obtain ⟨f, hf⟩ := frame_of_got h.within hdone
    obtain ⟨later, -, hread⟩ := recvEfficient_frame f (r.unread ch) r.calls h.steady
    have hgot : r.got = 3 + f.len.toNat := by
      rw [← f.encode_length, ← hf, List.length_take, min_eq_left h.got_le]
    rw [← hf, hsplit] at hread
    refine ⟨?_, fun _ => by rw [hread]⟩
    rw [hread, hgot]
    simp

/-- In every state the server can reach, a recv_efficient that is over has the result it
has in one piece. -/
theorem returns_in_one_piece {udpSockfd tcpSockfd : Int} {as : List Action}
    (hrun : exec step (Loop.start udpSockfd tcpSockfd) as = some (l, out))
    (hreading : l.reading = some r) (hsource : source l.sys = some ch) (hover : r.due ch = false) :
    (recvEfficient ⟨ch.arrived, r.calls⟩ TcpMessage.zero).rc =
        (if r.ended then 0 else (r.got : Int)) ∧
      (r.ended = false →
        (recvEfficient ⟨ch.arrived, r.calls⟩ TcpMessage.zero).sock.pending = r.unread ch) := by
  obtain ⟨ch', hreads⟩ := reached_run hrun r hreading
  obtain rfl : ch' = ch := Option.some.inj (hreads.source.symm.trans hsource)
  exact hreads.over hover

def Admits (l : Loop) : Action → Prop
  | .moves m => Admissible l.sys m
  | .begins newFd => newFd ∉ l.sys.server.pollFds.map PollFd.fd
  | _ => True

instance (l : Loop) : ∀ a, Decidable (Admits l a)
  | .moves m => inferInstanceAs (Decidable (Admissible l.sys m))
  | .begins newFd => inferInstanceAs (Decidable (newFd ∉ l.sys.server.pollFds.map PollFd.fd))
  | .recvs _ | .handles _ => isTrue trivial

/-- The loop is where a run that reads in one piece ends, and what accept returned is
still not open. -/
structure InOnePiece (start : System) (l : Loop) (past : List Effect) : Prop where
  run : ∃ ms, Along move Admissible start ms ∧ exec move start ms = some (l.sys, past)
  fresh : ∀ r, l.reading = some r → r.newFd ∉ l.sys.server.pollFds.map PollFd.fd

theorem InOnePiece.move {start sys : System} {past o : List Effect} (h : InOnePiece start l past)
    {m : Move} (hm : Admissible l.sys m) (hmove : move l.sys m = some (sys, o)) :
    ∃ ms, Along PollRounds.move Admissible start ms ∧
      exec PollRounds.move start ms = some (sys, past ++ o) := by
  obtain ⟨ms, halong, hms⟩ := h.run
  refine ⟨ms ++ [m], halong.concat ?_, exec_append.mpr ⟨_, _, _, hms, exec_single hmove, rfl⟩⟩
  intro t out' ht
  rw [hms, Option.some.injEq, Prod.mk.injEq] at ht
  exact ht.1 ▸ hm

theorem inOnePiece_step {start : System} {past : List Effect} {a : Action}
    (h : InOnePiece start l past) (ha : Admits l a) (hstep : step l a = some (l', out)) :
    InOnePiece start l' (past ++ out) := by
  cases stepped hstep with
  | @moves m sys _ hmay hmove =>
    refine ⟨h.move ha hmove, ?_⟩
    intro r hr
    rw [(outside_move (own_eq_false hmay hr) hmove).server]
    exact h.fresh r hr
  | begins hnone hsource =>
    rw [List.append_nil]
    refine ⟨h.run, ?_⟩
    intro r hr
    obtain rfl := Option.some.inj hr
    exact ha
  | @recvs call r₀ r₁ ch hreading hsource hdue hrecv =>
    rw [List.append_nil]
    refine ⟨h.run, ?_⟩
    intro r hr
    obtain rfl := Option.some.inj hr
    have hfd : r₁.newFd = r₀.newFd := by
      rcases recv_cases hdue hrecv with ⟨-, -, rfl⟩ | ⟨k, -, -, -, rfl⟩
      · rfl
      · rfl
    rw [hfd]
    exact h.fresh r₀ hreading
  | @handles env r _ _ _ hreading hsource hover hadvance =>
    refine ⟨h.move (m := .serves env r.newFd r.calls) (h.fresh r hreading) hadvance, ?_⟩
    intro r' hr'
    cases hr'

/-- Read recv by recv, the loop makes a run of the loop that reads in one piece. -/
theorem refines_run {udpSockfd tcpSockfd : Int} {as : List Action}
    (hok : Along step Admits (Loop.start udpSockfd tcpSockfd) as)
    (hrun : exec step (Loop.start udpSockfd tcpSockfd) as = some (l, out)) :
    ∃ ms, Along move Admissible (System.start udpSockfd tcpSockfd) ms ∧
      exec move (System.start udpSockfd tcpSockfd) ms = some (l.sys, out) := by
  have hstart :
      InOnePiece (System.start udpSockfd tcpSockfd) (Loop.start udpSockfd tcpSockfd) [] := by
    refine ⟨⟨[], trivial, rfl⟩, ?_⟩
    intro r hr
    cases hr
  exact (exec_history (fun _ _ _ _ _ h ha hstep => inOnePiece_step h ha hstep) hstart hok hrun).run

end Rounds

section Waiting

variable {l l' : Loop} {r : Reading} {ch : Channel} {out : List Effect}

/-- While the connection holds a whole frame, a recv that is still due has a byte to
return. -/
theorem findsInput_of_settled (hsettled : ch.settled = true) (hdue : r.due ch = true) :
    r.unread ch ≠ [] ∨ ch.closed = true := by
  rcases Bool.or_eq_true_iff.mp hsettled with hclosed | hframe
  · exact Or.inr hclosed
  · left
    intro hunread
    have hsplit : ch.arrived.take r.got ++ r.unread ch = ch.arrived := List.take_append_drop _ _
    rw [hunread, List.append_nil] at hsplit
    have hdone := (bytesRemaining_eq_zero_iff _).mpr hframe
    rw [← hsplit] at hdone
    simp [Reading.due, Reading.remaining, hdone] at hdue

def Waits (l : Loop) : Prop :=
  ∃ r ch, l.reading = some r ∧ source l.sys = some ch ∧ r.due ch = true ∧ r.unread ch = [] ∧
    ch.closed = false

theorem Waits.not_findsInput (h : Waits l) : ¬ FindsInput l := by
  intro hfinds
  obtain ⟨r, ch, hreading, hsource, hdue, hunread, hopen⟩ := h
  rcases hfinds r ch hreading hsource hdue with hne | hclosed
  · exact hne hunread
  · rw [hopen] at hclosed
    cases hclosed

/-- Whatever work there is elsewhere, it waits too. -/
theorem Waits.heldUp (h : Waits l) (hwork : OtherWork l.sys) : HeldUp l := by
  obtain ⟨r, ch, hreading, hsource, hdue, hunread, hopen⟩ := h
  exact ⟨⟨r, ch, hreading, hsource, hdue⟩, (stuck_iff hreading hsource hdue).mpr ⟨hunread, hopen⟩,
    hwork⟩

theorem HeldUp.waits (h : HeldUp l) : Waits l := by
  obtain ⟨r, ch, hreading, hsource, hdue⟩ := h.reading
  obtain ⟨hunread, hopen⟩ := (stuck_iff hreading hsource hdue).mp h.stuck
  exact ⟨r, ch, hreading, hsource, hdue, hunread, hopen⟩

def ReadsSettled (l : Loop) : Prop :=
  ∀ r, l.reading = some r → ∃ ch, source l.sys = some ch ∧ ch.settled = true

theorem readsSettled_step {a : Action} (h : ReadsSettled l) (ha : BeginsSettled l a)
    (hstep : step l a = some (l', out)) : ReadsSettled l' := by
  cases stepped hstep with
  | @moves m sys _ hmay hmove =>
    intro r hr
    obtain ⟨ch, hsource, hsettled⟩ := h r hr
    obtain ⟨ch', hsource', hgrown⟩ := (outside_move (own_eq_false hmay hr) hmove).source hsource
    exact ⟨ch', hsource', hgrown.settled hsettled⟩
  | @begins newFd ch hnone hsource => exact fun r hr => ⟨ch, hsource, ha ch hsource⟩
  | @recvs call r₀ r₁ ch hreading hsource hdue hrecv => exact fun r hr => h r₀ hreading
  | handles =>
    intro r hr
    cases hr

theorem findsInput_of_readsSettled (h : ReadsSettled l) : FindsInput l := by
  intro r ch hreading hsource hdue
  obtain ⟨ch', hsource', hch⟩ := h r hreading
  obtain rfl : ch' = ch := Option.some.inj (hsource'.symm.trans hsource)
  exact findsInput_of_settled hch hdue

/-- On a connection that is not settled the recvs take all that has arrived, and the
next one waits. -/
theorem runs_dry (h : Reads l r ch) (hreading : l.reading = some r)
    (hunsettled : ch.settled = false) :
    ∃ (calls : List Call) (l' : Loop),
      exec step l (calls.map Action.recvs) = some (l', []) ∧ Waits l' := by
  obtain ⟨hopen, hpart⟩ := Bool.or_eq_false_iff.mp hunsettled
  have hsplit (r : Reading) : ch.arrived.take r.got ++ r.unread ch = ch.arrived :=
    List.take_append_drop _ _
  induction hn : (r.unread ch).length using Nat.strong_induction_on generalizing l r with
  | h n ih =>
    have hdue : r.due ch = true := by
      have hended : r.ended = false := by
        by_contra hended
        have hclosed := (h.ended (Bool.not_eq_false _ ▸ hended)).2.1
        rw [hopen] at hclosed
        cases hclosed
      have hremaining : r.remaining ch ≠ 0 := by
        intro hzero
        have hframe := holdsFrame_append (r.unread ch) ((bytesRemaining_eq_zero_iff _).mp hzero)
        rw [hsplit, hpart] at hframe
        cases hframe
      simp [Reading.due, hended, hremaining]
    by_cases hunread : r.unread ch = []
    · exact ⟨[], l, rfl, r, ch, hreading, h.source, hdue, hunread, hopen⟩
    · obtain ⟨call, hcall⟩ := recv_returns_iff.mpr (Or.inl hunread)
      obtain ⟨r', hrecv⟩ := Option.isSome_iff_exists.mp hcall
      have hstep : step l (.recvs call) = some (⟨l.sys, some r'⟩, []) := by
        simp [step, hreading, h.source, hdue, hrecv]
      have hshorter : (r'.unread ch).length < n := by
        rcases recv_cases hdue hrecv with ⟨hnil, -, -⟩ | ⟨k, hpos, -, hlen, rfl⟩
        · exact absurd hnil hunread
        · have hdrop : (ch.arrived.drop (r.got + k)).length = ch.arrived.length - (r.got + k) :=
            List.length_drop
          have hbefore : (r.unread ch).length = ch.arrived.length - r.got := List.length_drop
          change (ch.arrived.drop (r.got + k)).length < n
          omega
      obtain ⟨calls, l', hrun, hwaits⟩ :=
        ih _ hshorter (show Reads ⟨l.sys, some r'⟩ r' ch from h.recv hdue hrecv) rfl rfl
      exact ⟨call :: calls, l', exec_cons.mpr ⟨_, _, _, hstep, hrun, rfl⟩, hwaits⟩

theorem along_recvs (l : Loop) (calls : List Call) :
    Along step BeginsSettled l (calls.map Action.recvs) := by
  induction calls generalizing l with
  | nil => trivial
  | cons call calls ih => exact ⟨trivial, fun l' _ _ => ih l'⟩

/-- In every state the server can reach within recv_efficient: if nothing more arrives,
every recv finds input exactly if the connection is settled. -/
theorem recvs_find_input_iff_settled {udpSockfd tcpSockfd : Int} {as : List Action}
    (hrun : exec step (Loop.start udpSockfd tcpSockfd) as = some (l, out))
    (hreading : l.reading = some r) (hsource : source l.sys = some ch) :
    (∀ (calls : List Call) (l' : Loop) (out : List Effect),
      exec step l (calls.map Action.recvs) = some (l', out) → FindsInput l') ↔
      ch.settled = true := by
  obtain ⟨ch', hreads⟩ := reached_run hrun r hreading
  obtain rfl : ch' = ch := Option.some.inj (hreads.source.symm.trans hsource)
  constructor
  · intro hfinds
    by_contra hunsettled
    obtain ⟨calls, l', hdry, hwaits⟩ :=
      runs_dry hreads hreading (Bool.not_eq_true _ ▸ hunsettled)
    exact hwaits.not_findsInput (hfinds calls l' [] hdry)
  · intro hsettled calls l' out' hcalls
    have hkept : ReadsSettled l := fun r' hr' => ⟨ch', hsource, hsettled⟩
    exact findsInput_of_readsSettled (exec_invariant
      (fun _ _ _ _ h ha hstep => readsSettled_step h ha hstep) hkept (along_recvs l calls) hcalls)

def passes (n : ℕ) : List Action := (turns n 9).map Action.moves

def joins (f : Frame) (fd : Int) : List Action :=
  [.moves (.connects ⟨(127, 0, 0, 1), 1⟩), .moves (.presents 0 f.encode)] ++ passes 3 ++
    [.begins fd, .recvs (.moved 1), .recvs (.moved 2), .recvs (.moved 2), .handles Env.plain]

/-- Two clients are connected. The first one sends these bytes, the second one a whole
frame, and the server has got one byte of the first one. -/
def bothSend (bytes : Bytes) : List Action :=
  joins connectA 5 ++ passes 2 ++ joins connectB 6 ++ passes 3 ++
    [.moves (.sends 5 bytes), .moves (.sends 6 subscribeT.encode)] ++ passes 4 ++
    [.begins 9, .recvs (.moved 1)]

def silent : List Action :=
  [.moves (.connects ⟨(127, 0, 0, 1), 1⟩)] ++ passes 3 ++
    [.begins 5, .moves (.publishes Delivery.seven)]

def after (as : List Action) : Loop := final step (Loop.start 3 4) as

/-- Whatever arrives between two recvs, the loop that reads recv by recv is where a run of
the loop that reads every message in one piece is, with the same output; and a
recv_efficient that is over returns there what it returns in one piece, and leaves the
same bytes. -/
theorem reads_as_in_one_piece {udpSockfd tcpSockfd : Int} {as : List Action}
    (hok : Along step Admits (Loop.start udpSockfd tcpSockfd) as)
    (hrun : exec step (Loop.start udpSockfd tcpSockfd) as = some (l, out)) :
    (∃ ms, Along move Admissible (System.start udpSockfd tcpSockfd) ms ∧
      exec move (System.start udpSockfd tcpSockfd) ms = some (l.sys, out)) ∧
    ∀ r ch, l.reading = some r → source l.sys = some ch → r.due ch = false →
      (recvEfficient ⟨ch.arrived, r.calls⟩ TcpMessage.zero).rc =
          (if r.ended then 0 else (r.got : Int)) ∧
        (r.ended = false →
          (recvEfficient ⟨ch.arrived, r.calls⟩ TcpMessage.zero).sock.pending = r.unread ch) :=
  ⟨refines_run hok hrun, fun _ _ hreading hsource hover =>
    returns_in_one_piece hrun hreading hsource hover⟩

set_option maxRecDepth 4000 in
theorem reads_as_in_one_piece_bothSend : ∃ out ms,
    exec step (Loop.start 3 4) (bothSend subscribeT.encode) =
        some (after (bothSend subscribeT.encode), out) ∧
      exec move (System.start 3 4) ms = some ((after (bothSend subscribeT.encode)).sys, out) := by
  obtain ⟨out, hrun⟩ : ∃ out, exec step (Loop.start 3 4) (bothSend subscribeT.encode) =
      some (after (bothSend subscribeT.encode), out) := exec_final (by rfl)
  obtain ⟨ms, -, hwhole⟩ := (reads_as_in_one_piece (by decide) hrun).1
  exact ⟨out, ms, hrun, hwhole⟩

/-- In every run in which recv_efficient is only entered for connections that hold a
whole frame or are closed, each recv finds an unread byte or a closed connection, and
the server is never held up by one peer. -/
theorem recvs_find_input {udpSockfd tcpSockfd : Int} {as : List Action}
    (hsettled : Along step BeginsSettled (Loop.start udpSockfd tcpSockfd) as)
    (hrun : exec step (Loop.start udpSockfd tcpSockfd) as = some (l, out)) :
    FindsInput l ∧ ¬ HeldUp l := by
  have hreads : ReadsSettled l := by
    refine exec_invariant (fun _ _ _ _ h ha hstep => readsSettled_step h ha hstep) ?_ hsettled hrun
    intro r hr
    cases hr
  have hfinds := findsInput_of_readsSettled hreads
  exact ⟨hfinds, fun hheld => hheld.waits.not_findsInput hfinds⟩

set_option maxRecDepth 4000 in
theorem recvs_find_input_bothSend :
    FindsInput (after (bothSend subscribeT.encode)) ∧
      ¬ HeldUp (after (bothSend subscribeT.encode)) := by
  obtain ⟨out, hrun⟩ : ∃ out, exec step (Loop.start 3 4) (bothSend subscribeT.encode) =
      some (after (bothSend subscribeT.encode), out) := exec_final (by rfl)
  exact recvs_find_input (by decide) hrun

set_option maxRecDepth 4000 in
/-- One byte of a request holds up the request of another client, and a connection on
which nothing was sent a datagram. -/
theorem one_byte_holds_up :
    (∃ out, exec step (Loop.start 3 4) (bothSend [subscribeReq]) =
        some (after (bothSend [subscribeReq]), out)) ∧
      Along step Admits (Loop.start 3 4) (bothSend [subscribeReq]) ∧
      ¬ FindsInput (after (bothSend [subscribeReq])) ∧ HeldUp (after (bothSend [subscribeReq])) ∧
      (∃ out, exec step (Loop.start 3 4) silent = some (after silent, out)) ∧
      Along step Admits (Loop.start 3 4) silent ∧
      ¬ FindsInput (after silent) ∧ HeldUp (after silent) := by
  have hclient : Waits (after (bothSend [subscribeReq])) :=
    ⟨⟨9, 1, [.moved 1], false⟩, ⟨[subscribeReq], false⟩, by rfl, by rfl, by decide, by rfl, by rfl⟩
  have haccepted : Waits (after silent) :=
    ⟨Reading.start 5, ⟨[], false⟩, by rfl, by rfl, by decide, by rfl, by rfl⟩
  exact ⟨exec_final (by rfl), by decide, hclient.not_findsInput,
    hclient.heldUp (Or.inr (Or.inl ⟨6, by decide, by decide⟩)), exec_final (by rfl), by decide,
    haccepted.not_findsInput, haccepted.heldUp (Or.inl (List.cons_ne_nil _ _))⟩

end Waiting

end ServerClientApp.BlockingReads
