import ServerClientApp.Protocols

/-!
The frame format is faithful and self-delimiting. Whatever counts the send and
recv calls of the two ends report, successive calls of send_efficient write the
encodings one after another and successive calls of recv_efficient take them
apart again at the same places. The message itself is left as it was, save
where a failed call ends send_efficient while len is in network order.
-/

namespace ServerClientApp.FrameCodec

open PartialTransfers Protocols

def sendAll : List Frame → List Call → List Int × Bytes
  | [], _ => ([], [])
  | f :: fs, calls =>
    let sent := sendEfficient f.message calls
    let later := sendAll fs sent.calls
    (sent.rc :: later.1, sent.wire ++ later.2)

/-- Successive calls of recv_efficient, each on what the one before it left. -/
def recvAll : ℕ → Socket → List Received × Socket
  | 0, sock => ([], sock)
  | n + 1, sock =>
    let received := recvEfficient sock TcpMessage.zero
    let later := recvAll n received.sock
    (received :: later.1, later.2)

theorem sendAll_steady (fs : List Frame) (calls : List Call) (h : Steady calls) :
    sendAll fs calls = (fs.map fun f => (3 + f.len.toNat : Int), fs.flatMap Frame.encode) := by
  induction fs generalizing calls with
  | nil => rfl
  | cons f fs ih =>
    obtain ⟨hrc, hwire, -, hcalls⟩ := sendEfficient_frame f calls h
    simp [sendAll, hrc, hwire, ih _ hcalls]

/-- Reading as many frames as a stream starts with gives these frames, and each
call leaves the stream at the first byte of the next one. -/
theorem recvAll_frames (fs : List Frame) (rest : Bytes) (calls : List Call) (h : Steady calls) :
    ∃ reads later, Steady later ∧
      recvAll fs.length ⟨fs.flatMap Frame.encode ++ rest, calls⟩ = (reads, ⟨rest, later⟩) ∧
      reads.map (fun r => (r.rc, r.msg)) =
        fs.map (fun f => ((3 + f.len.toNat : Int), f.message)) ∧
      reads.map (fun r => r.sock.pending) =
        fs.tails.tail.map (fun suffix => suffix.flatMap Frame.encode ++ rest) := by
  induction fs generalizing calls with
  | nil => exact ⟨[], calls, h, rfl, rfl, rfl⟩
  | cons f fs ih =>
    obtain ⟨calls', hcalls', hread⟩ :=
      recvEfficient_frame f (fs.flatMap Frame.encode ++ rest) calls h
    obtain ⟨reads, later, hlater, hall, hmsgs, hpending⟩ := ih calls' hcalls'
    refine ⟨⟨3 + f.len.toNat, f.message, ⟨fs.flatMap Frame.encode ++ rest, calls'⟩⟩ :: reads,
      later, hlater, ?_, ?_, ?_⟩
    · simp only [List.flatMap_cons, List.length_cons, List.append_assoc, recvAll, hread, hall]
    · simp [hmsgs]
    · cases fs <;> simp [hpending]

/-- What one end sends as a list of frames the other end reads as the same
list, each call returning 3 + len and stopping after its own frame; and when
the stream then ends inside one more frame, the next call returns 0. Both ends
may fragment their transfers in any way. -/
theorem frames_faithful (fs : List Frame) (outCalls inCalls : List Call)
    (hout : Steady outCalls) (hin : Steady inCalls) :
    (sendAll fs outCalls).1 = fs.map (fun f => (3 + f.len.toNat : Int)) ∧
      ∀ rest, ∃ reads left,
        recvAll fs.length ⟨(sendAll fs outCalls).2 ++ rest, inCalls⟩ = (reads, left) ∧
        left.pending = rest ∧
        reads.map (fun r => (r.rc, r.msg)) =
          fs.map (fun f => ((3 + f.len.toNat : Int), f.message)) ∧
        reads.map (fun r => r.sock.pending) =
          fs.tails.tail.map (fun suffix => suffix.flatMap Frame.encode ++ rest) ∧
        ∀ f : Frame, rest <+: f.encode → rest ≠ f.encode →
          (recvEfficient left TcpMessage.zero).rc = 0 := by
  rw [sendAll_steady fs outCalls hout]
  refine ⟨rfl, ?_⟩
  intro rest
  obtain ⟨reads, later, hlater, hall, hmsgs, hpending⟩ := recvAll_frames fs rest inCalls hin
  exact ⟨reads, ⟨rest, later⟩, hall, rfl, hmsgs, hpending,
    fun f hinit hne => (recvEfficient_truncated f rest later hlater hinit hne).1⟩

/-- Two frames, one without payload, over ends that fragment differently. -/
theorem frames_faithful_two :
    let fs := [Frame.bare connectAccepted, ⟨msgFromUdp, 2, [65, 0], rfl⟩]
    let sent := sendAll fs [.moved 1, .moved 1, .moved 1, .moved 1, .moved 2, .moved 1]
    sent.1 = [3, 5] ∧ ∃ reads left,
      recvAll 2 ⟨sent.2 ++ [9, 0], [.moved 1, .moved 2, .moved 1, .moved 1, .moved 1]⟩ =
        (reads, left) ∧ left.pending = [9, 0] ∧ (recvEfficient left TcpMessage.zero).rc = 0 := by
  obtain ⟨hrc, hread⟩ := frames_faithful
    [Frame.bare connectAccepted, ⟨msgFromUdp, 2, [65, 0], rfl⟩]
    [.moved 1, .moved 1, .moved 1, .moved 1, .moved 2, .moved 1]
    [.moved 1, .moved 2, .moved 1, .moved 1, .moved 1] (by decide) (by decide)
  obtain ⟨reads, left, hall, hleft, -, -, hcut⟩ := hread [9, 0]
  exact ⟨hrc, reads, left, hall, hleft,
    hcut ⟨msgFromUdp, 2, [65, 0], rfl⟩ (by decide) (by decide)⟩

section Restored

/-- A call fails while the command or the length is being sent: the first, the
second, or the third after one that took only one byte of the length. -/
def headerFails : List Call → Bool
  | .failed :: _ => true
  | .moved _ :: .failed :: _ => true
  | .moved _ :: .moved count :: .failed :: _ => decide (count ≤ 1)
  | _ => false

theorem push_header (calls : List Call) (command lo hi : UInt8) :
    ((push calls [command]).complete && (push (push calls [command]).calls [lo, hi]).complete) =
      !headerFails calls := by
  match calls with
  | [] => rfl
  | .failed :: _ => rfl
  | [.moved _] =>
    rw [push_single]
    rfl
  | .moved _ :: .failed :: _ =>
    rw [push_single]
    rfl
  | [.moved _, .moved count] =>
    rw [push_single, push_pair]
    by_cases hcount : count ≤ 1 <;> simp [push, headerFails, hcount]
  | .moved _ :: .moved count :: .failed :: _ =>
    rw [push_single, push_pair]
    by_cases hcount : count ≤ 1 <;> simp [push, headerFails, hcount]
  | .moved _ :: .moved count :: .moved _ :: _ =>
    rw [push_single, push_pair]
    by_cases hcount : count ≤ 1 <;> simp [push_single, headerFails, hcount]

/-- Swapping the bytes changes nothing exactly if they are equal. -/
theorem htons_eq_self_iff (v : UInt16) : htons v = v ↔ v.toNat / 256 = v.toNat % 256 := by
  have hlt : v.toNat < 2 ^ 16 := v.toNat_lt
  rw [← UInt16.toNat_inj, htons_toNat]
  omega

/-- len is left in network order by a failure before the payload. -/
theorem sendEfficient_msg (msg : TcpMessage) (calls : List Call) :
    (sendEfficient msg calls).msg =
      if headerFails calls then { msg with len := htons msg.len } else msg := by
  have hheader := push_header calls msg.command (UInt8.ofNat (msg.len.toNat / 256))
    (UInt8.ofNat (msg.len.toNat % 256))
  change ((push calls [msg.command]).complete &&
    (push (push calls [msg.command]).calls (bigEndian msg.len)).complete) =
      !headerFails calls at hheader
  simp only [sendEfficient, memory_htons]
  cases hfirst : (push calls [msg.command]).complete with
  | false =>
    have hfails : headerFails calls = true := by simpa [hfirst] using hheader
    simp [hfails]
  | true =>
    cases hsecond : (push (push calls [msg.command]).calls (bigEndian msg.len)).complete with
    | false =>
      have hfails : headerFails calls = true := by simpa [hfirst, hsecond] using hheader
      simp [hfails]
    | true =>
      have hsteady : headerFails calls = false := by simpa [hfirst, hsecond] using hheader
      simp only [if_true, hsteady, Bool.false_eq_true, if_false, ntohs_htons]
      split <;> rfl

/-- What is on the wire is a prefix of the encoding, and the result tells
whether it is all of it. -/
theorem sendEfficient_wire (msg : TcpMessage) (calls : List Call)
    (hlen : msg.block.length = msg.len.toNat) :
    (sendEfficient msg calls).wire <+: msg.command :: (bigEndian msg.len ++ msg.block) ∧
      ((sendEfficient msg calls).wire = msg.command :: (bigEndian msg.len ++ msg.block) ↔
        (sendEfficient msg calls).rc ≠ -1) := by
  rcases sendEfficient_cases msg calls hlen with ⟨hrc, hwire, -⟩ | ⟨hrc, hinit, hne⟩
  · rw [hwire, hrc]
    refine ⟨List.prefix_refl _, ?_⟩
    constructor
    · intro _
      omega
    · intro _
      rfl
  · refine ⟨hinit, ?_⟩
    constructor
    · intro heq
      exact absurd heq hne
    · intro hne'
      exact absurd hrc hne'

/-- The message is left as it was, and the wire and the result agree, exactly if
no call fails before the payload or len reads the same in both orders. -/
theorem message_restored_iff (msg : TcpMessage) (calls : List Call)
    (hlen : msg.block.length = msg.len.toNat) :
    ((sendEfficient msg calls).msg = msg ∧
        (sendEfficient msg calls).wire <+: msg.command :: (bigEndian msg.len ++ msg.block) ∧
        ((sendEfficient msg calls).wire = msg.command :: (bigEndian msg.len ++ msg.block) ↔
          (sendEfficient msg calls).rc ≠ -1)) ↔
      headerFails calls = false ∨ msg.len.toNat / 256 = msg.len.toNat % 256 := by
  rw [and_iff_left (sendEfficient_wire msg calls hlen), sendEfficient_msg, ← htons_eq_self_iff]
  cases hfails : headerFails calls with
  | false => simp
  | true =>
    simp only [if_true, Bool.true_eq_false, false_or]
    constructor
    · intro heq
      exact congrArg TcpMessage.len heq
    · intro heq
      rw [heq]

/-- A failure in the payload, and one at the command of a message without any. -/
theorem message_restored_two :
    (sendEfficient ⟨msgFromUdp, 2, some [65, 0]⟩ [.moved 1, .moved 2, .moved 1, .failed]).msg =
        ⟨msgFromUdp, 2, some [65, 0]⟩ ∧
      (sendEfficient ⟨connectAccepted, 0, none⟩ [.failed]).msg = ⟨connectAccepted, 0, none⟩ :=
  ⟨((message_restored_iff ⟨msgFromUdp, 2, some [65, 0]⟩ _ (by decide)).mpr
      (Or.inl (by decide))).1,
    ((message_restored_iff ⟨connectAccepted, 0, none⟩ _ (by decide)).mpr (Or.inr (by decide))).1⟩

/-- After a failure at the first byte of the length a len of 2 reads 512. -/
theorem message_not_restored :
    (sendEfficient ⟨msgFromUdp, 2, some [65, 0]⟩ [.moved 1, .failed]).rc = -1 ∧
      (sendEfficient ⟨msgFromUdp, 2, some [65, 0]⟩ [.moved 1, .failed]).msg =
        ⟨msgFromUdp, 512, some [65, 0]⟩ ∧
      (sendEfficient ⟨msgFromUdp, 2, some [65, 0]⟩ [.moved 1, .failed]).msg ≠
        ⟨msgFromUdp, 2, some [65, 0]⟩ := by
  decide

end Restored

end ServerClientApp.FrameCodec
