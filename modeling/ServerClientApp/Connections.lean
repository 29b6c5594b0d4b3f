import ServerClientApp.Delivery
import ServerClientApp.Ledger

/-!
What a client hears on one connection, from the event that accepts it on. One step
adds at most one frame, and only on a descriptor that the server holds for a client;
so the stream of a connection is an acceptance, then answers and publications in the
order of the events that made them, and nothing once the client has left.
-/

namespace ServerClientApp.Connections

open Outcomes Runs Protocols Wildcards Datagrams ServerHandlers HandlerSpecs ServerRuns Ledger
  Delivery

section Streams

def wires (fd : Int) (out : List Effect) : List Bytes :=
  out.filterMap fun effect =>
    match effect with
    | .wrote fd' wire => if fd' = fd then some wire else none
    | .closed _ | .printed _ | .complained _ => none

def OpensOn (fd : Int) : Event → Prop
  | .connection _ fd' _ => fd' = fd
  | .line _ | .datagram _ | .readable .. => False

instance (fd : Int) : ∀ event, Decidable (OpensOn fd event)
  | .connection _ fd' _ => inferInstanceAs (Decidable (fd' = fd))
  | .line _ | .datagram _ | .readable .. => isFalse id

def requestOn (fd : Int) (event : Event) : Option Request :=
  match deed event with
  | .ask fd' request => if fd' = fd then some request else none
  | .connect .. | .leave _ | .other => none

/-- The frame for the subscribers of a datagram. -/
def publicationOf : Event → Option Frame
  | .datagram (some d) =>
    match formattedMsg d with
    | .ok (_, some text) =>
      if h : text.length + 1 < 2 ^ 16 then some (publicationFrame text h) else none
    | .ok (_, none) | .error _ => none
  | .datagram none | .line _ | .connection .. | .readable .. => none

def Answers (request : Request) (f : Frame) : Prop :=
  f = Frame.bare request.succ ∨ f = Frame.bare request.fail

/-- The frames are publications of the events in their order, interleaved with one
answer for each request of the events on the descriptor, in their order. -/
structure Speaks (fd : Int) (is : List (Env × Event)) (frames : List Frame) : Prop where
  publications : (frames.filter fun f => f.command = msgFromUdp).Sublist
    (is.filterMap fun i => publicationOf i.2)
  answers : List.Forall₂ Answers (is.filterMap fun i => requestOn fd i.2)
    (frames.filter fun f => f.command ≠ msgFromUdp)

theorem speaks_nil (fd : Int) : Speaks fd [] [] := ⟨List.Sublist.refl [], List.Forall₂.nil⟩

theorem Speaks.append {fd : Int} {is js : List (Env × Event)} {frames more : List Frame}
    (h : Speaks fd is frames) (h' : Speaks fd js more) : Speaks fd (is ++ js) (frames ++ more) := by
  constructor
  · rw [List.filter_append, List.filterMap_append]
    exact h.publications.append h'.publications
  · rw [List.filter_append, List.filterMap_append]
    exact List.rel_append h.answers h'.answers

theorem wires_append (fd : Int) (out more : List Effect) :
    wires fd (out ++ more) = wires fd out ++ wires fd more := List.filterMap_append

theorem wires_wrote (fd : Int) (wire : Bytes) (rest : List Effect) :
    wires fd (.wrote fd wire :: rest) = wire :: wires fd rest := by
  simp [wires]

theorem wires_other {fd fd' : Int} (h : fd' ≠ fd) (wire : Bytes) (rest : List Effect) :
    wires fd (.wrote fd' wire :: rest) = wires fd rest := by
  simp [wires, h]

/-- Copies on different descriptors are at most one on each. -/
theorem wires_copies (fd : Int) (f : Frame) (entries : List Entry)
    (h : (entries.map fun entry => entry.2.currFd).Nodup) :
    wires fd (copies f entries) =
      if fd ∈ entries.map (fun entry => entry.2.currFd) then [f.encode] else [] := by
  induction entries with
  | nil => rfl
  | cons entry entries ih =>
    rw [List.map_cons, List.nodup_cons] at h
    change wires fd (.wrote entry.2.currFd f.encode :: copies f entries) = _
    by_cases hfd : entry.2.currFd = fd
    · subst hfd
      rw [wires_wrote, ih h.2, if_neg h.1, List.map_cons, if_pos List.mem_cons_self]
    · have hne : fd ≠ entry.2.currFd := fun heq => hfd heq.symm
      rw [wires_other hfd, ih h.2]
      simp only [List.map_cons, List.mem_cons, hne, false_or]

end Streams

section Steps

variable {fd : Int} {s s' : Server} {out : List Effect} {i : Env × Event}

/-- What a datagram writes on a descriptor: nothing, or its publication, and that
only if a client holds the descriptor. -/
theorem wires_datagram (h : Consistent s) {env : Env} {d : Datagram}
    (hact : manageUdpMessage env s (some d) = ⟨out, .ok s'⟩) :
    wires fd out = [] ∨ fd ∈ s.clientFds ∧
      ∃ f, publicationOf (.datagram (some d)) = some f ∧ f.command = msgFromUdp ∧
        wires fd out = [f.encode] := by
  obtain ⟨-, ⟨topic, line, -, rfl⟩ | ⟨topic, text, hformat, -, hsend⟩⟩ := manageUdpMessage_ok hact
  · exact Or.inl rfl
  · have hlength := (formattedMsg_text hformat).2.2
    obtain ⟨-, rfl, -⟩ := (sendMsgIfSubscribed_eq_ok hlength).mp hsend
    rw [wires_copies fd _ _ (recipients_fds_nodup h)]
    split
    · rename_i hmem
      right
      obtain ⟨entry, hentry, rfl⟩ := List.mem_map.mp hmem
      refine ⟨recipient_open h hentry, publicationFrame text hlength, ?_, rfl, rfl⟩
      simp only [publicationOf, hformat, hlength, dite_true]
    · exact Or.inl rfl

theorem wires_refusal {fd' : Int} (hne : fd' ≠ fd) (id : ClientId) :
    wires fd (refusal id fd') = [] := by
  rw [refusal, wires_other hne]
  rfl

theorem wires_admission {fd' : Int} (hne : fd' ≠ fd) (id : ClientId) (addr : SockAddr) :
    wires fd (admission s id addr fd') = [] := by
  rw [admission, wires_other hne]
  rfl

/-- A descriptor that no client holds is not written on, but for a new connection's. -/
theorem quiet_step (h : Consistent s) (hclosed : fd ∉ s.clientFds) (hopens : ¬ OpensOn fd i.2)
    (hstep : step s i = some (s', out)) : fd ∉ s'.clientFds ∧ wires fd out = [] := by
  obtain ⟨env, event⟩ := i
  cases served h hstep with
  | line => exact ⟨hclosed, rfl⟩
  | datagram hact =>
    rcases wires_datagram h hact with hnothing | ⟨hmem, -⟩
    · exact ⟨hclosed, hnothing⟩
    · exact absurd hmem hclosed
  | refused => exact ⟨hclosed, wires_refusal hopens _⟩
  | @admitted addr fd' =>
    have hne : fd' ≠ fd := hopens
    refine ⟨?_, wires_admission hne _ addr⟩
    rw [clientFds_enrol _ _ _ h.listening, List.mem_append, List.mem_singleton, not_or]
    exact ⟨hclosed, hne.symm⟩
  | left =>
    refine ⟨?_, rfl⟩
    rw [clientFds_dismiss _ _ _ _ h.listening]
    exact fun hmem => hclosed (List.mem_of_mem_eraseIdx hmem)
  | @answered k fd' _ _ _ _ _ _ _ _ hplace _ _ _ _ hpoll =>
    have hmem : fd' ∈ s.clientFds := List.mem_of_getElem? hplace
    have hne : fd' ≠ fd := fun heq => hclosed (heq ▸ hmem)
    refine ⟨?_, by rw [wires_other hne]; rfl⟩
    rwa [Server.clientFds, hpoll]

theorem speaks_silent (h : requestOn fd i.2 = none) : Speaks fd [i] [] := by
  constructor
  · exact List.nil_sublist _
  · simp only [List.filterMap_cons, h, List.filterMap_nil, List.filter_nil]
    exact List.Forall₂.nil

theorem speaks_publication {f : Frame} (h : publicationOf i.2 = some f)
    (hrequest : requestOn fd i.2 = none) (hcommand : f.command = msgFromUdp) :
    Speaks fd [i] [f] := by
  constructor
  · simp [h, hcommand]
  · simp [hrequest, hcommand]

theorem Answers.command_ne {request : Request} {f : Frame} (h : Answers request f) :
    f.command ≠ msgFromUdp := by
  rcases h with rfl | rfl
  all_goals
    cases request
    all_goals
      simp only [Frame.bare, Request.succ, Request.fail]
      decide

theorem speaks_answer (request : Request) {f : Frame} (h : requestOn fd i.2 = some request)
    (hanswer : Answers request f) : Speaks fd [i] [f] := by
  have hcommand := hanswer.command_ne
  constructor
  · simp [hcommand]
  · simpa [h, hcommand] using hanswer

/-- What one event adds to the stream of a descriptor. -/
theorem speaks_step (h : Consistent s) (hlawful : Lawful s i) (hopens : ¬ OpensOn fd i.2)
    (hstep : step s i = some (s', out)) :
    ∃ frames, wires fd out = frames.map Frame.encode ∧ Speaks fd [i] frames := by
  obtain ⟨env, event⟩ := i
  cases served h hstep with
  | line => exact ⟨[], rfl, speaks_silent rfl⟩
  | datagram hact =>
    rcases wires_datagram h hact with hnothing | ⟨-, f, hpublication, hcommand, hwires⟩
    · exact ⟨[], hnothing, speaks_silent rfl⟩
    · exact ⟨[f], hwires, speaks_publication hpublication rfl hcommand⟩
  | refused hid =>
    refine ⟨[], wires_refusal hopens _, speaks_silent ?_⟩
    simp [requestOn, deed, hid]
  | @admitted addr fd' _ _ hid =>
    refine ⟨[], wires_admission hopens _ addr, speaks_silent ?_⟩
    simp [requestOn, deed, hid]
  | left hzero =>
    refine ⟨[], rfl, speaks_silent ?_⟩
    simp [requestOn, deed, hzero]
  | @answered k fd' sock received id c topic _ hreceived hpos _ _ _ htopic =>
    subst hreceived
    obtain ⟨request, hrequest⟩ := Option.isSome_iff_exists.mp (hlawful.2 hpos)
    have hzero : (recvEfficient sock TcpMessage.zero).rc ≠ 0 := by omega
    have hdeed : deed (.readable k fd' sock) = .ask fd' request := by
      simp only [deed, hzero, if_false, hrequest]
    by_cases hfd : fd' = fd
    · subst hfd
      refine ⟨[Frame.bare _], wires_wrote _ _ [], speaks_answer request ?_ ?_⟩
      · simp [requestOn, hdeed]
      · rw [answerTo_eq htopic hrequest]
        split
        · exact Or.inl rfl
        · exact Or.inr rfl
    · refine ⟨[], wires_other hfd _ [], speaks_silent ?_⟩
      simp [requestOn, hdeed, hfd]

/-- After the client has left, the descriptor is not one of the client part. -/
theorem leave_step (h : Consistent s) (hfresh : Fresh s i) (hleave : deed i.2 = .leave fd)
    (hstep : step s i = some (s', out)) : fd ∉ s'.clientFds := by
  have hconsistent := consistent_step h hfresh hstep
  obtain ⟨env, event⟩ := i
  cases served h hstep with
  | line | datagram => simp [deed] at hleave
  | refused hid | admitted hid => simp [deed, hid] at hleave
  | @left k fd' sock id c shown hzero hplace hc hheld =>
    have hfd : fd' = fd := by simpa [deed, hzero] using hleave
    subst hfd
    intro hmem
    obtain ⟨other, hother⟩ := (hconsistent.leased.mem_iff fd').mp hmem
    rw [holder_dismiss, h.leased.update_none_eq hheld] at hother
    by_cases hholds : holder s other = some fd'
    · simp [hholds] at hother
    · simp only [hholds, if_false] at hother
  | @answered k fd' sock received _ _ _ _ hreceived hpos =>
    subst hreceived
    have hzero : (recvEfficient sock TcpMessage.zero).rc ≠ 0 := by omega
    simp only [deed, hzero, if_false] at hleave
    split at hleave
    all_goals simp at hleave

end Steps

section Runs

variable {fd : Int} {s s' : Server} {out : List Effect} {is : List (Env × Event)}

/-- A descriptor that no client holds stays silent until accept gives it out again. -/
theorem quiet_run (h : Consistent s) (hclosed : fd ∉ s.clientFds) (hfresh : Along step Fresh s is)
    (hopens : ∀ i ∈ is, ¬ OpensOn fd i.2) (hrun : exec step s is = some (s', out)) :
    wires fd out = [] := by
  induction is generalizing s out with
  | nil =>
    simp only [exec_nil, Option.some.injEq, Prod.mk.injEq] at hrun
    rw [← hrun.2]
    rfl
  | cons i is ih =>
    obtain ⟨s₁, o, o', hi, hrest, rfl⟩ := exec_cons.mp hrun
    obtain ⟨hclosed', hsilent⟩ := quiet_step h hclosed (hopens i List.mem_cons_self) hi
    have hlater := ih (consistent_step h hfresh.1 hi) hclosed' (hfresh.2 s₁ o hi)
      (fun j hj => hopens j (List.mem_cons_of_mem i hj)) hrest
    rw [wires_append, hsilent, hlater, List.nil_append]

/-- The stream of a descriptor between two connections on it. -/
theorem speaks_run (h : Consistent s) (hlawful : Along step Lawful s is)
    (hopens : ∀ i ∈ is, ¬ OpensOn fd i.2) (hrun : exec step s is = some (s', out)) :
    ∃ frames, wires fd out = frames.map Frame.encode ∧ Speaks fd is frames := by
  induction is generalizing s out with
  | nil =>
    simp only [exec_nil, Option.some.injEq, Prod.mk.injEq] at hrun
    exact ⟨[], by rw [← hrun.2]; rfl, speaks_nil fd⟩
  | cons i is ih =>
    obtain ⟨s₁, o, o', hi, hrest, rfl⟩ := exec_cons.mp hrun
    obtain ⟨frames, hframes, hspeaks⟩ :=
      speaks_step h hlawful.1 (hopens i List.mem_cons_self) hi
    obtain ⟨more, hmore, hspeaks'⟩ := ih (consistent_step h hlawful.1.1 hi) (hlawful.2 s₁ o hi)
      (fun j hj => hopens j (List.mem_cons_of_mem i hj)) hrest
    refine ⟨frames ++ more, ?_, hspeaks.append hspeaks'⟩
    rw [wires_append, hframes, hmore, List.map_append]

/-- Once the client has left, nothing is added to the stream. -/
theorem silent_after_leaving (h : Consistent s) (before after : List (Env × Event))
    (i : Env × Event) (hfresh : Along step Fresh s (before ++ i :: after))
    (hleave : deed i.2 = .leave fd) (hopens : ∀ j ∈ after, ¬ OpensOn fd j.2)
    (hrun : exec step s (before ++ i :: after) = some (s', out)) {left : Server}
    {told : List Effect} (hleft : exec step s (before ++ [i]) = some (left, told)) :
    wires fd out = wires fd told := by
  obtain ⟨s₁, o₁, o₂, hbefore, hrest, rfl⟩ := exec_append.mp hrun
  obtain ⟨s₂, o₃, o₄, hi, hafter, rfl⟩ := exec_cons.mp hrest
  have htold : exec step s (before ++ [i]) = some (s₂, o₁ ++ o₃) :=
    exec_append.mpr ⟨s₁, o₁, o₃, hbefore, exec_single hi, rfl⟩
  rw [htold, Option.some.injEq, Prod.mk.injEq] at hleft
  obtain ⟨-, rfl⟩ := hleft
  have hconsistent := consistent_run h hfresh.initial hbefore
  have hfresh' := hfresh.later hbefore
  have hclosed := leave_step hconsistent hfresh'.1 hleave hi
  have hquiet := quiet_run (consistent_step hconsistent hfresh'.1 hi) hclosed
    (hfresh'.2 s₂ o₃ hi) hopens hafter
  rw [← List.append_assoc, wires_append, hquiet, List.append_nil]

/-- From the event that accepts a connection until accept gives out its descriptor
again, the server writes on it one CONNECT_DENIED if the id was marked connected, and
else a CONNECT_ACCEPTED, the publications of datagrams in their order interleaved with
one answer for each request in their order, and nothing once the client has left. -/
theorem session_well_formed {s₀ s : Server} (h : Reachable s₀) {env : Env} {addr : SockAddr}
    {fd : Int} {sock : Socket} {is : List (Env × Event)} {out : List Effect}
    (hlawful : Along step Lawful s₀ ((env, .connection addr fd sock) :: is))
    (hopens : ∀ i ∈ is, ¬ OpensOn fd i.2)
    (hrun : exec step s₀ ((env, .connection addr fd sock) :: is) = some (s, out)) :
    ∃ id, cString (recvEfficient sock TcpMessage.zero).msg.payload = .ok id ∧
      (s₀.Connected id → wires fd out = [(Frame.bare connectDenied).encode]) ∧
      (¬ s₀.Connected id →
        (∃ frames, wires fd out = (Frame.bare connectAccepted).encode :: frames.map Frame.encode ∧
          Speaks fd is frames) ∧
        ∀ before i after left told, is = before ++ i :: after → deed i.2 = .leave fd →
          exec step s₀ ((env, .connection addr fd sock) :: before ++ [i]) = some (left, told) →
          wires fd out = wires fd told) := by
  have hc := h.consistent
  have hfresh : Along step Fresh s₀ ((env, .connection addr fd sock) :: is) :=
    hlawful.mono fun _ _ => And.left
  obtain ⟨s₁, o, o', hconnect, hrest, hout⟩ := exec_cons.mp hrun
  have hc₁ := consistent_step hc hfresh.1 hconnect
  cases served hc hconnect with
  | @refused _ _ _ id hid hconnected =>
    refine ⟨id, hid, ?_, fun hnot => absurd hconnected hnot⟩
    intro _
    have hclosed : fd ∉ s₀.clientFds := fun hmem => hfresh.1 (clientFds_subset s₀ hmem)
    rw [hout, wires_append, quiet_run hc hclosed (hfresh.2 s₀ _ hconnect) hopens hrest, refusal,
      wires_wrote]
    rfl
  | @admitted _ _ _ id hid _ hidle =>
    refine ⟨id, hid, fun hconnected => absurd hconnected hidle, ?_⟩
    intro _
    constructor
    · obtain ⟨frames, hframes, hspeaks⟩ :=
        speaks_run hc₁ (hlawful.2 _ _ hconnect) hopens hrest
      refine ⟨frames, ?_, hspeaks⟩
      rw [hout, wires_append, hframes, admission, wires_wrote]
      rfl
    · intro before i after left told hsplit hleave hleft
      subst hsplit
      refine silent_after_leaving hc ((env, .connection addr fd sock) :: before) after i hfresh
        hleave ?_ hrun hleft
      intro j hj
      exact hopens j (List.mem_append_right before (List.mem_cons_of_mem i hj))

def chat : List (Env × Event) :=
  [Event.frame 0 5 subscribeT, .datagram (some seven), .hangUp 0 5, .datagram (some seven)].map
    fun event => (Env.plain, event)

theorem session_well_formed_chat : ∃ s out frames,
    exec step (Server.prepare 3 4)
      ((Env.plain, .connect ⟨(127, 0, 0, 1), 1⟩ 5 connectA) :: chat) = some (s, out) ∧
    wires 5 out = (Frame.bare connectAccepted).encode :: frames.map Frame.encode ∧
    frames.map Frame.encode =
      [(Frame.bare subscribeSucc).encode, 9 :: 0 :: 26 :: (sevenText ++ [0])] ∧
    Speaks 5 chat frames := by
  obtain ⟨⟨s, out⟩, hrun⟩ := Option.isSome_iff_exists.mp
    (show (exec step (Server.prepare 3 4)
      ((Env.plain, .connect ⟨(127, 0, 0, 1), 1⟩ 5 connectA) :: chat)).isSome by rfl)
  have hwritten : (exec step (Server.prepare 3 4)
      ((Env.plain, .connect ⟨(127, 0, 0, 1), 1⟩ 5 connectA) :: chat)).map (wires 5 ·.2) =
        some [(Frame.bare connectAccepted).encode, (Frame.bare subscribeSucc).encode,
          9 :: 0 :: 26 :: (sevenText ++ [0])] := by rfl
  rw [hrun, Option.map_some, Option.some.injEq] at hwritten
  obtain ⟨id, -, -, haccepted⟩ :=
    session_well_formed (reachable_prepare 3 4) (by decide) (by decide) hrun
  have hidle : ¬ (Server.prepare 3 4).Connected id := not_connected_of_none rfl
  obtain ⟨⟨frames, hwires, hspeaks⟩, -⟩ := haccepted hidle
  exact ⟨s, out, frames, hrun, hwires, (List.cons.inj (hwires.symm.trans hwritten)).2, hspeaks⟩

end Runs

end ServerClientApp.Connections
