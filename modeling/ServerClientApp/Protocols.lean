import ServerClientApp.PartialTransfers
import Mathlib.Algebra.Group.Nat.Defs
import Mathlib.Data.List.Flatten
import Mathlib.Data.List.TakeWhile

/-!
The TCP protocol shared by the server and the subscriber: the message record,
the command codes, and the two functions that move a message over a stream
socket in three parts (command, length, payload). A payload of a received
message is what recv_efficient wrote of the block it allocated, so a message
that broke off keeps the shorter list. The host is little-endian.
-/

namespace ServerClientApp.Protocols

open PartialTransfers

abbrev Bytes := List UInt8

/-- The bytes of an ASCII literal of the source. -/
def ascii (s : String) : Bytes := s.toList.map fun c => UInt8.ofNat c.toNat

abbrev connectReq : UInt8 := 0
abbrev connectAccepted : UInt8 := 1
abbrev connectDenied : UInt8 := 2
abbrev subscribeReq : UInt8 := 3
abbrev unsubscribeReq : UInt8 := 4
abbrev subscribeSucc : UInt8 := 5
abbrev subscribeFail : UInt8 := 6
abbrev unsubscribeSucc : UInt8 := 7
abbrev unsubscribeFail : UInt8 := 8
abbrev msgFromUdp : UInt8 := 9

/-- `payload` is the bytes behind the pointer, `none` for NULL. -/
structure TcpMessage where
  command : UInt8
  len : UInt16
  payload : Option Bytes
  deriving DecidableEq, Repr

def TcpMessage.zero : TcpMessage := ⟨0, 0, none⟩

section ByteOrder

/-- htons and ntohs on a little-endian host. -/
def htons (v : UInt16) : UInt16 := UInt16.ofNat (v.toNat % 256 * 256 + v.toNat / 256)

abbrev ntohs (v : UInt16) : UInt16 := htons v

def memory (v : UInt16) : Bytes := [UInt8.ofNat (v.toNat % 256), UInt8.ofNat (v.toNat / 256)]

/-- Overwrite the first bytes of a 16-bit field. -/
def overwrite (got : Bytes) (old : UInt16) : UInt16 :=
  match got ++ (memory old).drop got.length with
  | [lo, hi] => UInt16.ofNat (lo.toNat + hi.toNat * 256)
  | _ => old

def bigEndian (v : UInt16) : Bytes := [UInt8.ofNat (v.toNat / 256), UInt8.ofNat (v.toNat % 256)]

private theorem toNat_lt_square (v : UInt16) : v.toNat < 256 * 256 := v.toNat_lt

theorem htons_toNat (v : UInt16) : (htons v).toNat = v.toNat % 256 * 256 + v.toNat / 256 := by
  have h := toNat_lt_square v
  unfold htons
  rw [UInt16.toNat_ofNat_of_lt']
  show _ < 65536
  omega

theorem ntohs_htons (v : UInt16) : ntohs (htons v) = v := by
  have h := toNat_lt_square v
  apply UInt16.toNat_inj.mp
  rw [htons_toNat, htons_toNat]
  omega

theorem memory_htons (v : UInt16) : memory (htons v) = bigEndian v := by
  have h := toNat_lt_square v
  unfold memory bigEndian
  rw [htons_toNat]
  congr 2
  · omega
  · congr 1
    omega

theorem overwrite_memory (v old : UInt16) : overwrite (memory v) old = v := by
  have h := toNat_lt_square v
  apply UInt16.toNat_inj.mp
  change (UInt16.ofNat ((UInt8.ofNat (v.toNat % 256)).toNat +
    (UInt8.ofNat (v.toNat / 256)).toNat * 256)).toNat = v.toNat
  rw [UInt8.toNat_ofNat_of_lt' (show v.toNat % 256 < 256 by omega),
    UInt8.toNat_ofNat_of_lt' (show v.toNat / 256 < 256 by omega),
    UInt16.toNat_ofNat_of_lt' (show v.toNat % 256 + v.toNat / 256 * 256 < 65536 by omega)]
  omega

/-- The length field is back in host order after a whole transfer. -/
theorem ntohs_overwrite_bigEndian (v old : UInt16) : ntohs (overwrite (bigEndian v) old) = v := by
  rw [← memory_htons, overwrite_memory, ntohs_htons]

end ByteOrder

section Frames

/-- A message with a payload of exactly the announced length. -/
structure Frame where
  command : UInt8
  len : UInt16
  payload : Bytes
  length_eq : payload.length = len.toNat
  deriving DecidableEq, Repr

namespace Frame

def bare (command : UInt8) : Frame := ⟨command, 0, [], rfl⟩

def ofText (command : UInt8) (text : Bytes) (h : text.length + 1 < 2 ^ 16) : Frame :=
  ⟨command, UInt16.ofNat (text.length + 1), text ++ [0], by
    rw [List.length_append, UInt16.toNat_ofNat_of_lt' h, List.length_singleton]⟩

def encode (f : Frame) : Bytes := f.command :: (bigEndian f.len ++ f.payload)

/-- The message recv_efficient makes of the frame: no payload, no block. -/
def message (f : Frame) : TcpMessage :=
  ⟨f.command, f.len, if f.len = 0 then none else some f.payload⟩

def decode : Bytes → Option Frame
  | command :: hi :: lo :: payload =>
    let len := UInt16.ofNat (hi.toNat * 256 + lo.toNat)
    if h : payload.length = len.toNat then some ⟨command, len, payload, h⟩ else none
  | _ => none

theorem decode_encode (f : Frame) : decode f.encode = some f := by
  obtain ⟨command, len, payload, hlen⟩ := f
  have hlt := toNat_lt_square len
  have hback : UInt16.ofNat ((UInt8.ofNat (len.toNat / 256)).toNat * 256 +
      (UInt8.ofNat (len.toNat % 256)).toNat) = len := by
    apply UInt16.toNat_inj.mp
    rw [UInt8.toNat_ofNat_of_lt' (show len.toNat / 256 < 256 by omega),
      UInt8.toNat_ofNat_of_lt' (show len.toNat % 256 < 256 by omega),
      UInt16.toNat_ofNat_of_lt' (show len.toNat / 256 * 256 + len.toNat % 256 < 65536 by omega)]
    omega
  simp only [encode, bigEndian, List.cons_append, List.nil_append, decode, hback, hlen, dite_true]

theorem encode_length (f : Frame) : f.encode.length = 3 + f.len.toNat := by
  simp only [encode, bigEndian, List.length_cons, List.length_append, f.length_eq, List.length_nil]
  omega

end Frame

def TcpMessage.ofText (command : UInt8) (text : Bytes) : TcpMessage :=
  ⟨command, UInt16.ofNat (text.length + 1), some (text ++ [0])⟩

theorem Frame.message_ofText (command : UInt8) (text : Bytes) (h : text.length + 1 < 2 ^ 16) :
    (Frame.ofText command text h).message = TcpMessage.ofText command text := by
  have hne : UInt16.ofNat (text.length + 1) ≠ 0 := by
    intro heq
    have hzero := congrArg UInt16.toNat heq
    rw [UInt16.toNat_ofNat_of_lt' h] at hzero
    exact Nat.succ_ne_zero _ hzero
  simp only [Frame.message, Frame.ofText, TcpMessage.ofText, hne, if_false]

theorem Frame.payload_message (f : Frame) : f.message.payload.getD [] = f.payload := by
  by_cases hzero : f.len = 0
  · have hnil : f.payload = [] := List.length_eq_zero_iff.mp (by rw [f.length_eq, hzero]; rfl)
    rw [Frame.message, if_pos hzero, hnil, Option.getD_none]
  · rw [Frame.message, if_neg hzero, Option.getD_some]

/-- The payload bytes send_efficient reads: len of them from the block. -/
def TcpMessage.block (msg : TcpMessage) : Bytes := (msg.payload.getD []).take msg.len.toNat

theorem Frame.block_message (f : Frame) : f.message.block = f.payload := by
  rw [TcpMessage.block, f.payload_message, Frame.message, ← f.length_eq, List.take_length]

end Frames

section Send

structure Sent where
  rc : Int
  wire : Bytes
  msg : TcpMessage
  calls : List Call

/-- len is swapped in place before the first two parts and back before the
payload; an error returns from where it happens. -/
def sendEfficient (msg : TcpMessage) (calls : List Call) : Sent :=
  let msg := { msg with len := htons msg.len }
  let first := push calls [msg.command]
  if first.complete then
    let second := push first.calls (memory msg.len)
    if second.complete then
      let msg := { msg with len := ntohs msg.len }
      let third := push second.calls msg.block
      if third.complete then
        ⟨first.wire.length + second.wire.length + third.wire.length,
          first.wire ++ second.wire ++ third.wire, msg, third.calls⟩
      else
        ⟨-1, first.wire ++ second.wire ++ third.wire, msg, third.calls⟩
    else
      ⟨-1, first.wire ++ second.wire, msg, second.calls⟩
  else
    ⟨-1, first.wire, msg, first.calls⟩

/-- Either the whole encoding is on the wire, its length is returned and the
message is as it was, or -1 is returned and a strict prefix is on the wire. -/
theorem sendEfficient_cases (msg : TcpMessage) (calls : List Call)
    (hlen : msg.block.length = msg.len.toNat) :
    ((sendEfficient msg calls).rc = 3 + msg.len.toNat ∧
        (sendEfficient msg calls).wire = msg.command :: (bigEndian msg.len ++ msg.block) ∧
        (sendEfficient msg calls).msg = msg) ∨
      ((sendEfficient msg calls).rc = -1 ∧
        (sendEfficient msg calls).wire <+: msg.command :: (bigEndian msg.len ++ msg.block) ∧
        (sendEfficient msg calls).wire ≠ msg.command :: (bigEndian msg.len ++ msg.block)) := by
  have hmsg : ({ msg with len := ntohs (htons msg.len) } : TcpMessage) = msg := by
    rw [ntohs_htons]
  have hcons : msg.command :: (bigEndian msg.len ++ msg.block) =
      [msg.command] ++ (bigEndian msg.len ++ msg.block) := rfl
  rw [hcons]
  simp only [sendEfficient, memory_htons, hmsg]
  cases hfirst : (push calls [msg.command]).complete with
  | false =>
    right
    obtain ⟨hinit, hne⟩ :=
      push_failed_strict calls [msg.command] [] (bigEndian msg.len ++ msg.block) hfirst
    exact ⟨rfl, hinit, hne⟩
  | true =>
    have hwire := (push_wire calls [msg.command]).2.mp hfirst
    cases hsecond : (push (push calls [msg.command]).calls (bigEndian msg.len)).complete with
    | false =>
      right
      obtain ⟨hinit, hne⟩ :=
        push_failed_strict _ (bigEndian msg.len) [msg.command] msg.block hsecond
      simp only [if_true, Bool.false_eq_true, if_false, hwire]
      exact ⟨trivial, hinit, hne⟩
    | true =>
      have hwire' := (push_wire _ (bigEndian msg.len)).2.mp hsecond
      cases hthird : (push (push (push calls [msg.command]).calls (bigEndian msg.len)).calls
          msg.block).complete with
      | false =>
        right
        obtain ⟨hinit, hne⟩ :=
          push_failed_strict _ msg.block ([msg.command] ++ bigEndian msg.len) [] hthird
        simp only [List.append_nil, List.append_assoc] at hinit hne
        simp only [if_true, Bool.false_eq_true, if_false, hwire, hwire', List.append_assoc]
        exact ⟨trivial, hinit, hne⟩
      | true =>
        have hwire'' := (push_wire _ msg.block).2.mp hthird
        simp only [if_true, hwire, hwire', hwire'', List.append_assoc]
        refine Or.inl ⟨?_, trivial, trivial⟩
        rw [hlen]
        simp [bigEndian]

/-- System calls that do not fail make a call of send_efficient succeed. -/
theorem sendEfficient_steady (msg : TcpMessage) (calls : List Call) (h : Steady calls) :
    (sendEfficient msg calls).rc ≠ -1 ∧ Steady (sendEfficient msg calls).calls := by
  have hfirst := push_steady calls [msg.command] h
  have hsecond := push_steady _ (memory (htons msg.len)) hfirst.2
  have hthird := push_steady _
    ({ msg with len := ntohs (htons msg.len) } : TcpMessage).block hsecond.2
  simp only [sendEfficient, hfirst.1, hsecond.1, hthird.1, if_true]
  exact ⟨by omega, hthird.2⟩

theorem sendEfficient_frame (f : Frame) (calls : List Call) (h : Steady calls) :
    (sendEfficient f.message calls).rc = 3 + f.len.toNat ∧
      (sendEfficient f.message calls).wire = f.encode ∧
      (sendEfficient f.message calls).msg = f.message ∧
      Steady (sendEfficient f.message calls).calls := by
  obtain ⟨hrc, hcalls⟩ := sendEfficient_steady f.message calls h
  rcases sendEfficient_cases f.message calls (by rw [f.block_message]; exact f.length_eq) with
    ⟨hrc', hwire, hmsg⟩ | ⟨hfail, -⟩
  · rw [f.block_message] at hwire
    exact ⟨hrc', hwire, hmsg, hcalls⟩
  · exact absurd hfail hrc

end Send

section Receive

/-- What is left to read on a connection, in the order it will arrive up to the
peer's close, and the results of the next recv calls. -/
structure Socket where
  pending : Bytes
  calls : List Call
  deriving DecidableEq, Repr

/-- Return value, the message as far as it was filled in, the socket left. -/
structure Received where
  rc : Int
  msg : TcpMessage
  sock : Socket
  deriving DecidableEq, Repr

/-- What recv returned when it ended a part early: 0 at the end of the stream,
a negative value on an error. -/
def earlyRc : Ending → Int
  | .failed => -1
  | _ => 0

def recvEfficient (sock : Socket) (msg : TcpMessage) : Received :=
  let first := pull sock.calls 1 sock.pending
  let msg := { msg with command := first.got.headD msg.command }
  if first.ending = .complete then
    let second := pull first.calls 2 first.rest
    let msg := { msg with len := overwrite second.got msg.len }
    if second.ending = .complete then
      let msg := { msg with len := ntohs msg.len }
      if msg.len = 0 then
        ⟨first.got.length + second.got.length, msg, ⟨second.rest, second.calls⟩⟩
      else
        let third := pull second.calls msg.len.toNat second.rest
        let msg := { msg with payload := some third.got }
        if third.ending = .complete then
          ⟨first.got.length + second.got.length + third.got.length, msg,
            ⟨third.rest, third.calls⟩⟩
        else
          ⟨earlyRc third.ending, msg, ⟨third.rest, third.calls⟩⟩
    else
      ⟨earlyRc second.ending, msg, ⟨second.rest, second.calls⟩⟩
  else
    ⟨earlyRc first.ending, msg, ⟨first.rest, first.calls⟩⟩

theorem recvEfficient_keeps_steady (sock : Socket) (msg : TcpMessage) (h : Steady sock.calls) :
    0 ≤ (recvEfficient sock msg).rc ∧ Steady (recvEfficient sock msg).sock.calls := by
  have hearly {ending : Ending} (hnot : ending ≠ .failed) : 0 ≤ earlyRc ending := by
    cases ending with
    | failed => exact absurd rfl hnot
    | complete | closed => exact Int.le_refl 0
  have hfirst := pull_keeps_steady sock.calls 1 sock.pending h
  have hsecond := pull_keeps_steady _ 2 (pull sock.calls 1 sock.pending).rest hfirst.2
  unfold recvEfficient
  dsimp only
  split_ifs
  · exact ⟨by dsimp only; omega, hsecond.2⟩
  · exact ⟨by dsimp only; omega, (pull_keeps_steady _ _ _ hsecond.2).2⟩
  · exact ⟨hearly (pull_keeps_steady _ _ _ hsecond.2).1, (pull_keeps_steady _ _ _ hsecond.2).2⟩
  · exact ⟨hearly hsecond.1, hsecond.2⟩
  · exact ⟨hearly hfirst.1, hfirst.2⟩

/-- A stream that starts with a whole frame gives that frame and leaves what
follows it, however the recv calls split it, unless one of them fails. -/
theorem recvEfficient_whole (f : Frame) (rest : Bytes) (calls : List Call) :
    (recvEfficient ⟨f.encode ++ rest, calls⟩ TcpMessage.zero).rc = -1 ∨
      ∃ later, recvEfficient ⟨f.encode ++ rest, calls⟩ TcpMessage.zero =
        ⟨3 + f.len.toNat, f.message, ⟨rest, later⟩⟩ := by
  rcases pull_enough calls 1 (f.encode ++ rest) (by simp [Frame.encode]) with
    hfailed | ⟨hgot, hend, hrest⟩
  · simp [recvEfficient, hfailed, earlyRc]
  have hgot : (pull calls 1 (f.encode ++ rest)).got = [f.command] := hgot
  have hrest : (pull calls 1 (f.encode ++ rest)).rest = bigEndian f.len ++ (f.payload ++ rest) := by
    simpa [Frame.encode] using hrest
  rcases pull_enough (pull calls 1 (f.encode ++ rest)).calls 2
    (bigEndian f.len ++ (f.payload ++ rest)) (by simp [bigEndian]) with
    hfailed | ⟨hgot', hend', hrest'⟩
  · simp [recvEfficient, hend, hrest, hfailed, earlyRc]
  have hgot' : (pull (pull calls 1 (f.encode ++ rest)).calls 2
      (bigEndian f.len ++ (f.payload ++ rest))).got = bigEndian f.len := hgot'
  have hrest' : (pull (pull calls 1 (f.encode ++ rest)).calls 2
      (bigEndian f.len ++ (f.payload ++ rest))).rest = f.payload ++ rest := hrest'
  by_cases hlen : f.len = 0
  · right
    have hnil : f.payload = [] := List.length_eq_zero_iff.mp (by rw [f.length_eq, hlen]; rfl)
    simp only [recvEfficient, hend, hgot, hrest, hend', hgot', hrest', ntohs_overwrite_bigEndian,
      if_true, List.headD_cons, TcpMessage.zero]
    simp [hlen, hnil, Frame.message, bigEndian]
  rcases pull_enough (pull (pull calls 1 (f.encode ++ rest)).calls 2
    (bigEndian f.len ++ (f.payload ++ rest))).calls f.len.toNat (f.payload ++ rest)
    (by rw [List.length_append, f.length_eq]; omega) with hfailed | ⟨hgot'', hend'', hrest''⟩
  · simp [recvEfficient, hend, hrest, hend', hgot', hrest', ntohs_overwrite_bigEndian, hlen,
      hfailed, earlyRc]
  · right
    rw [← f.length_eq, List.take_left] at hgot''
    rw [← f.length_eq, List.drop_left] at hrest''
    rw [f.length_eq] at hgot'' hrest''
    simp only [recvEfficient, hend, hgot, hrest, hend', hgot', hrest', ntohs_overwrite_bigEndian,
      hend'', hgot'', hrest'', if_true, List.headD_cons, TcpMessage.zero]
    simp [hlen, Frame.message, bigEndian, f.length_eq]

/-- An ended stream leaves the message as it was. -/
theorem recvEfficient_ended (calls : List Call) :
    (recvEfficient ⟨[], calls⟩ TcpMessage.zero).rc ≤ 0 ∧
      (recvEfficient ⟨[], calls⟩ TcpMessage.zero).msg = TcpMessage.zero := by
  match calls with
  | [] => exact ⟨Int.le_refl 0, rfl⟩
  | .failed :: calls => exact ⟨show (-1 : Int) ≤ 0 by decide, rfl⟩
  | .moved count :: calls => exact ⟨Int.le_refl 0, rfl⟩

theorem recvEfficient_frame (f : Frame) (rest : Bytes) (calls : List Call) (h : Steady calls) :
    ∃ later, Steady later ∧ recvEfficient ⟨f.encode ++ rest, calls⟩ TcpMessage.zero =
      ⟨3 + f.len.toNat, f.message, ⟨rest, later⟩⟩ := by
  obtain ⟨hrc, hcalls⟩ := recvEfficient_keeps_steady ⟨f.encode ++ rest, calls⟩ TcpMessage.zero h
  obtain ⟨later, hread⟩ := (recvEfficient_whole f rest calls).resolve_left (by omega)
  rw [hread] at hcalls
  exact ⟨later, hcalls, hread⟩

/-- A stream that ends before the length is complete gives no payload block. -/
theorem recvEfficient_no_header (part : Bytes) (calls : List Call) (hlen : part.length < 3) :
    (recvEfficient ⟨part, calls⟩ TcpMessage.zero).rc = -1 ∨
      ((recvEfficient ⟨part, calls⟩ TcpMessage.zero).rc = 0 ∧
        (recvEfficient ⟨part, calls⟩ TcpMessage.zero).msg.payload = none) := by
  match part with
  | [] =>
    rcases pull_short calls 1 ([] : Bytes) (by simp) with hfailed | ⟨-, hend⟩
    · simp [recvEfficient, hfailed, earlyRc]
    · simp [recvEfficient, hend, earlyRc, TcpMessage.zero]
  | command :: part =>
    rcases pull_enough calls 1 (command :: part) (by simp) with hfailed | ⟨-, hend, hrest⟩
    · simp [recvEfficient, hfailed, earlyRc]
    have hrest : (pull calls 1 (command :: part)).rest = part := hrest
    rcases pull_short (pull calls 1 (command :: part)).calls 2 part
      (by simp only [List.length_cons] at hlen; omega) with hfailed | ⟨-, hend'⟩
    · simp [recvEfficient, hend, hrest, hfailed, earlyRc]
    · simp [recvEfficient, hend, hrest, hend', earlyRc, TcpMessage.zero]

/-- A stream that ends inside the payload gives a block with the part of the
payload that came. -/
theorem recvEfficient_cut_payload (command : UInt8) (len : UInt16) (part : Bytes)
    (calls : List Call) (hlen : part.length < len.toNat) :
    (recvEfficient ⟨command :: (bigEndian len ++ part), calls⟩ TcpMessage.zero).rc = -1 ∨
      ((recvEfficient ⟨command :: (bigEndian len ++ part), calls⟩ TcpMessage.zero).rc = 0 ∧
        (recvEfficient ⟨command :: (bigEndian len ++ part), calls⟩ TcpMessage.zero).msg.payload =
          some part) := by
  rcases pull_enough calls 1 (command :: (bigEndian len ++ part)) (by simp) with
    hfailed | ⟨-, hend, hrest⟩
  · simp [recvEfficient, hfailed, earlyRc]
  have hrest : (pull calls 1 (command :: (bigEndian len ++ part))).rest =
      bigEndian len ++ part := hrest
  rcases pull_enough (pull calls 1 (command :: (bigEndian len ++ part))).calls 2
    (bigEndian len ++ part) (by simp [bigEndian]) with hfailed | ⟨hgot', hend', hrest'⟩
  · simp [recvEfficient, hend, hrest, hfailed, earlyRc]
  have hgot' : (pull (pull calls 1 (command :: (bigEndian len ++ part))).calls 2
      (bigEndian len ++ part)).got = bigEndian len := hgot'
  have hrest' : (pull (pull calls 1 (command :: (bigEndian len ++ part))).calls 2
      (bigEndian len ++ part)).rest = part := hrest'
  have hne : len ≠ 0 := by
    intro heq
    subst heq
    simp at hlen
  rcases pull_short (pull (pull calls 1 (command :: (bigEndian len ++ part))).calls 2
    (bigEndian len ++ part)).calls len.toNat part hlen with hfailed | ⟨hgot'', hend''⟩
  · simp [recvEfficient, hend, hrest, hend', hgot', hrest', ntohs_overwrite_bigEndian, hne,
      hfailed, earlyRc]
  · simp [recvEfficient, hend, hrest, hend', hgot', hrest', ntohs_overwrite_bigEndian, hne,
      hgot'', hend'', earlyRc]

/-- A stream that ends inside a frame makes the call return 0, unless a recv fails.
Before the whole length is in there is no payload block, and after it the block holds
the part of the payload that came. -/
theorem recvEfficient_broken (f : Frame) (part : Bytes) (calls : List Call)
    (hinit : part <+: f.encode) (hne : part ≠ f.encode) :
    (recvEfficient ⟨part, calls⟩ TcpMessage.zero).rc = -1 ∨
      ((recvEfficient ⟨part, calls⟩ TcpMessage.zero).rc = 0 ∧
        (recvEfficient ⟨part, calls⟩ TcpMessage.zero).msg.payload =
          if part.length < 3 then none else some (part.drop 3)) := by
  have hshort : part.length < 3 + f.len.toNat := by
    rw [← f.encode_length]
    exact lt_of_le_of_ne hinit.length_le fun heq => hne (hinit.eq_of_length heq)
  by_cases hlen : part.length < 3
  · simpa only [hlen, if_true] using recvEfficient_no_header part calls hlen
  · have hsplit : part = f.command :: (bigEndian f.len ++ part.drop 3) := by
      calc
        part = part.take 3 ++ part.drop 3 := (List.take_append_drop 3 part).symm
        _ = f.encode.take 3 ++ part.drop 3 := by
          rw [(List.prefix_iff_eq_take.mp hinit), List.take_take, min_eq_left (by omega)]
        _ = _ := rfl
    have hcut := recvEfficient_cut_payload f.command f.len (part.drop 3) calls
      (by rw [List.length_drop]; omega)
    rw [← hsplit] at hcut
    simpa only [hlen, if_false] using hcut

theorem recvEfficient_truncated (f : Frame) (part : Bytes) (calls : List Call)
    (h : Steady calls) (hinit : part <+: f.encode) (hne : part ≠ f.encode) :
    (recvEfficient ⟨part, calls⟩ TcpMessage.zero).rc = 0 ∧
      (recvEfficient ⟨part, calls⟩ TcpMessage.zero).msg.payload =
        if part.length < 3 then none else some (part.drop 3) := by
  have hnonneg := (recvEfficient_keeps_steady ⟨part, calls⟩ TcpMessage.zero h).1
  exact (recvEfficient_broken f part calls hinit hne).resolve_left (by omega)

end Receive

section Strings

inductive ReadFault where
  | nullPointer
  | unterminated
  deriving DecidableEq, Repr

/-- The string behind a char pointer. Without a NUL among the bytes that were
written, the read goes on to bytes nobody wrote or past the block. -/
def cString : Option Bytes → Except ReadFault Bytes
  | none => .error .nullPointer
  | some bytes =>
    if 0 ∈ bytes then .ok (bytes.takeWhile (· ≠ 0)) else .error .unterminated

theorem takeWhile_append_nul (text rest : Bytes) (h : 0 ∉ text) :
    (text ++ 0 :: rest).takeWhile (· ≠ 0) = text := by
  rw [List.takeWhile_append_of_pos]
  · simp
  · intro b hb
    have hne : b ≠ 0 := fun heq => h (heq ▸ hb)
    simpa using hne

/-- A string ends inside its block exactly if the block has a NUL. -/
theorem string_length_lt_iff (block : Bytes) :
    (block.takeWhile (· ≠ 0)).length < block.length ↔ 0 ∈ block := by
  constructor
  · intro hlt
    by_contra hmem
    have hall : block.takeWhile (· ≠ 0) = block := by
      rw [List.takeWhile_eq_self_iff]
      intro b hb
      exact decide_eq_true fun heq => hmem (heq ▸ hb)
    rw [hall] at hlt
    omega
  · intro hmem
    obtain ⟨before, rest, rfl, hbefore⟩ := List.eq_append_cons_of_mem hmem
    rw [takeWhile_append_nul before rest hbefore, List.length_append, List.length_cons]
    omega

theorem cString_append_nul (text rest : Bytes) (h : 0 ∉ text) :
    cString (some (text ++ 0 :: rest)) = .ok text := by
  simp only [cString, List.mem_append, List.mem_cons, true_or, or_true, if_true,
    takeWhile_append_nul text rest h]

theorem cString_ok {payload : Option Bytes} {text : Bytes} (h : cString payload = .ok text) :
    0 ∉ text ∧ ∃ rest, payload = some (text ++ 0 :: rest) := by
  cases payload with
  | none => simp [cString] at h
  | some bytes =>
    by_cases hmem : 0 ∈ bytes
    · simp only [cString, hmem, if_true, Except.ok.injEq] at h
      obtain ⟨before, rest, rfl, hbefore⟩ := List.eq_append_cons_of_mem hmem
      rw [takeWhile_append_nul before rest hbefore] at h
      subst h
      exact ⟨hbefore, rest, rfl⟩
    · simp [cString, hmem] at h

/-- A string in the payload of a frame is a string in the block read from it. -/
theorem Frame.cString_message {f : Frame} {text : Bytes} (h : cString (some f.payload) = .ok text) :
    cString f.message.payload = .ok text := by
  obtain ⟨-, rest, hpayload⟩ := cString_ok h
  have hne : f.len ≠ 0 := by
    intro hzero
    have hlength := f.length_eq
    rw [Option.some.inj hpayload, hzero] at hlength
    simp at hlength
  rw [Frame.message, if_neg hne]
  exact h

end Strings

end ServerClientApp.Protocols
