import ServerClientApp.ServerRuns

/-!
Handshakes that break off. The peer sends a strict prefix of a frame and closes;
recv_efficient returns 0 and manage_connection_request does not look at it, so
what happens next depends on the part of the payload that came.
-/

namespace ServerClientApp.Handshake

open PartialTransfers Outcomes Protocols Datagrams ServerHandlers HandlerSpecs ServerRuns

variable {env : Env} {s : Server} {addr : SockAddr} {fd : Int} {part : Bytes} {calls : List Call}

/-- The id the handler takes from a frame that broke off: the received part of the
payload up to a NUL. -/
theorem manageConnectionRequest_truncated {s' : Server} {out : List Effect} {f : Frame}
    (hfd : 0 ≤ fd) (hcalls : Steady calls) (hinit : part <+: f.encode) (hne : part ≠ f.encode) :
    manageConnectionRequest env s addr fd ⟨part, calls⟩ = ⟨out, .ok s'⟩ ↔
      3 ≤ part.length ∧ ∃ id, cString (some (part.drop 3)) = .ok id ∧
        admitOrDecline env s addr fd id = ⟨out, .ok s'⟩ := by
  obtain ⟨hrc, hpayload⟩ := recvEfficient_truncated f part calls hcalls hinit hne
  rw [manageConnectionRequest_eq_ok, hrc, hpayload]
  simp only [hfd, le_refl, true_and]
  by_cases hlen : part.length < 3
  · have hnot : ¬ 3 ≤ part.length := by omega
    simp [hlen, hnot, cString]
  · simp only [hlen, if_false, not_lt.mp hlen, true_and]

/-- Admitting an id always changes the tables. -/
theorem enrol_ne (s : Server) (id : ClientId) (fd : Int) : s ≠ enrol s id fd := by
  intro h
  have hlength : s.pollFds.length = (s.pollFds ++ [(⟨fd, false⟩ : PollFd)]).length :=
    congrArg (fun s => s.pollFds.length) h
  simp at hlength

/-- A handshake that breaks off is gone through without a trace exactly if the part
of the payload that came holds a NUL, the id before it is connected, and the refusal
can still be sent. -/
theorem abandoned_without_trace (env : Env) (s : Server) (addr : SockAddr) {fd : Int} {f : Frame}
    {part : Bytes} {calls : List Call} (hfd : 0 ≤ fd) (hcalls : Steady calls)
    (hinit : part <+: f.encode) (hne : part ≠ f.encode) :
    (∃ out, manageConnectionRequest env s addr fd ⟨part, calls⟩ = ⟨out, .ok s⟩) ↔
      3 ≤ part.length ∧ ∃ id, cString (some (part.drop 3)) = .ok id ∧ s.Connected id ∧
        Delivers env fd (Frame.bare connectDenied) := by
  simp only [manageConnectionRequest_truncated hfd hcalls hinit hne, admitOrDecline_eq_ok]
  constructor
  · intro hgiven
    obtain ⟨out, hlen, id, hid, ⟨hconnected, hdelivers, -⟩ | ⟨-, -, hchanged, -⟩⟩ := hgiven
    · exact ⟨hlen, id, hid, hconnected, hdelivers⟩
    · exact absurd hchanged (enrol_ne s id fd)
  · intro hgiven
    obtain ⟨hlen, id, hid, hconnected, hdelivers⟩ := hgiven
    exact ⟨_, hlen, id, hid, Or.inl ⟨hconnected, hdelivers, trivial, rfl⟩⟩

/-- The peer presents the id of a connected client and breaks off in the byte after
its NUL. -/
theorem abandoned_without_trace_duplicate :
    ∃ out, manageConnectionRequest Env.plain (enrol (Server.prepare 3 4) (ascii "a") 5)
      ⟨(127, 0, 0, 1), 1⟩ 6 ⟨[0, 0, 3, 97, 0], [.moved 1]⟩ =
        ⟨out, .ok (enrol (Server.prepare 3 4) (ascii "a") 5)⟩ :=
  (abandoned_without_trace Env.plain _ _ (f := ⟨0, 3, [97, 0, 0], rfl⟩) (by decide) (by decide)
    (by decide) (by decide)).mpr ⟨by decide, ascii "a", by decide, ⟨_, rfl, rfl⟩, by decide⟩

/-- A peer that sends nothing makes the handler read a NULL payload, and one that
breaks off behind a NUL of its payload is registered as a client. -/
theorem abandoned_leaves_trace :
    Reachable (Server.prepare 3 4) ∧
    manageConnectionRequest Env.plain (Server.prepare 3 4) ⟨(127, 0, 0, 1), 1⟩ 5 ⟨[], []⟩ =
      ⟨[], .error (.fault .nullPointer)⟩ ∧
    ∃ out, manageConnectionRequest Env.plain (Server.prepare 3 4) ⟨(127, 0, 0, 1), 1⟩ 5
      ⟨[0, 0, 3, 97, 0], []⟩ = ⟨out, .ok (enrol (Server.prepare 3 4) (ascii "a") 5)⟩ :=
  ⟨reachable_prepare 3 4, by rfl, _, by rfl⟩

end ServerClientApp.Handshake
