import ServerClientApp.Delivery

/-!
What the server reads of a datagram and what it makes of it. Missing bytes read as
zeros of the buffer, so truncated datagrams are forwarded; and the one string type
trusts the datagram for its NUL, while the text it goes into has more in it than the
datagram.
-/

namespace ServerClientApp.DatagramBounds

open Outcomes Protocols Wildcards Datagrams ServerHandlers HandlerSpecs ServerRuns Delivery

section Text

def heading (d : Datagram) : Bytes :=
  inetNtoa d.sender.ip ++ ascii ":" ++ decimal d.sender.port.toNat ++ ascii " - " ++
    topicField d ++ ascii " - "

def stringField (d : Datagram) : Bytes := (udpPayload d).takeWhile (· ≠ 0)

theorem heading_length (d : Datagram) :
    (heading d).length = (inetNtoa d.sender.ip).length + (decimal d.sender.port.toNat).length +
      (topicField d).length + 7 := by
  have hseparators : (ascii ":").length = 1 ∧ (ascii " - ").length = 3 := by decide
  simp only [heading, List.length_append, hseparators.1, hseparators.2]
  omega

theorem heading_length_le (d : Datagram) : (heading d).length ≤ 77 := by
  have hip := inetNtoa_length_le d.sender.ip
  have hport : (decimal d.sender.port.toNat).length ≤ 5 :=
    decimal_length_le (by omega) (by have := d.sender.port.toNat_lt; omega)
  have htopic := topicField_length_le d
  rw [heading_length]
  omega

/-- The text is the heading and the part that depends on the type. -/
theorem formattedMsg_eq_ok {d : Datagram} {topic : Topic} {text : Bytes} :
    formattedMsg d = .ok (topic, some text) ↔ topic = topicField d ∧
      ∃ value, interpretUdpPayload (dataType d).toNat (udpPayload d) = .ok (some value) ∧
        text = heading d ++ value := by
  unfold formattedMsg
  cases hvalue : interpretUdpPayload (dataType d).toNat (udpPayload d) with
  | error fault => simp [Except.map]
  | ok value =>
    cases value with
    | none => simp [Except.map]
    | some value => simp [Except.map, heading, eq_comm]

theorem cString_udpPayload {d : Datagram} {text : Bytes} :
    cString (some (udpPayload d)) = .ok text ↔ 0 ∈ udpPayload d ∧ text = stringField d := by
  by_cases hmem : 0 ∈ udpPayload d
  · simp [cString, hmem, stringField, eq_comm]
  · simp [cString, hmem]

/-- A string ends inside the buffer, and its text with the NUL fits formatted_msg. -/
def StringFits (d : Datagram) : Prop :=
  0 ∈ udpPayload d ∧
    (inetNtoa d.sender.ip).length + (decimal d.sender.port.toNat).length +
      (topicField d).length + (stringField d).length ≤ 1583

theorem interpretUdpPayload_numeric {type : ℕ} (h : type < 3) (payload : Bytes) :
    ∃ value, interpretUdpPayload type payload = .ok (some value) := by
  match type with
  | 0 | 1 | 2 => exact ⟨_, rfl⟩

theorem interpretUdpPayload_unsupported {type : ℕ} (h : 3 < type) (payload : Bytes) :
    interpretUdpPayload type payload = .ok none := by
  match type with
  | type + 4 => rfl

/-- The text of a string is known from the datagram. -/
theorem formattedMsg_string {d : Datagram} {topic : Topic} {text : Bytes}
    (htype : (dataType d).toNat = 3) :
    formattedMsg d = .ok (topic, some text) ↔ topic = topicField d ∧ 0 ∈ udpPayload d ∧
      text = heading d ++ (ascii "STRING - " ++ stringField d) := by
  rw [formattedMsg_eq_ok, htype]
  refine and_congr_right fun _ => ?_
  constructor
  · intro hgiven
    obtain ⟨value, hvalue, htext⟩ := hgiven
    obtain ⟨string, hstring, rfl⟩ := interpretUdpPayload_string hvalue
    obtain ⟨hmem, rfl⟩ := cString_udpPayload.mp hstring
    exact ⟨hmem, htext⟩
  · intro hgiven
    obtain ⟨hmem, htext⟩ := hgiven
    have hstring := cString_udpPayload.mpr ⟨hmem, rfl⟩
    exact ⟨_, by simp only [interpretUdpPayload, hstring, Except.map], htext⟩

theorem string_text_length (d : Datagram) :
    (heading d ++ (ascii "STRING - " ++ stringField d)).length + 1 ≤ maxUdpMsg ↔
      (inetNtoa d.sender.ip).length + (decimal d.sender.port.toNat).length +
        (topicField d).length + (stringField d).length ≤ 1583 := by
  have hlabel : (ascii "STRING - ").length = 9 := by decide
  rw [List.length_append, List.length_append, heading_length, hlabel, maxUdpMsg]
  omega

/-- The text of a number always fits the buffer. -/
theorem number_text_length {d : Datagram} {topic : Topic} {text : Bytes}
    (htype : (dataType d).toNat ≠ 3) (h : formattedMsg d = .ok (topic, some text)) :
    text.length + 1 ≤ maxUdpMsg := by
  obtain ⟨-, value, hvalue, htext⟩ := formattedMsg_eq_ok.mp h
  have hnumber := (interpretUdpPayload_number htype hvalue).2
  have hheading := heading_length_le d
  rw [htext, List.length_append, maxUdpMsg]
  omega

/-- There is a text that fits the buffer for every number, and for a string that fits. -/
theorem text_fits_iff (d : Datagram) :
    (∃ topic text, formattedMsg d = .ok (topic, some text) ∧ text.length + 1 ≤ maxUdpMsg) ↔
      (dataType d).toNat ≤ 3 ∧ ((dataType d).toNat = 3 → StringFits d) := by
  by_cases hstring : (dataType d).toNat = 3
  · simp only [formattedMsg_string hstring, hstring, le_refl, true_and, forall_const]
    constructor
    · intro hgiven
      obtain ⟨_, text, ⟨-, hmem, htext⟩, hlength⟩ := hgiven
      rw [htext] at hlength
      exact ⟨hmem, (string_text_length d).mp hlength⟩
    · intro hfits
      exact ⟨_, _, ⟨rfl, hfits.1, rfl⟩, (string_text_length d).mpr hfits.2⟩
  · by_cases hnumber : (dataType d).toNat < 3
    · obtain ⟨value, hvalue⟩ := interpretUdpPayload_numeric hnumber (udpPayload d)
      have htext := formattedMsg_eq_ok.mpr ⟨rfl, value, hvalue, rfl⟩
      refine iff_of_true ⟨_, _, htext, number_text_length hstring htext⟩ ⟨by omega, ?_⟩
      exact fun heq => absurd heq hstring
    · have hlarge : 3 < (dataType d).toNat := by omega
      have hnone := interpretUdpPayload_unsupported hlarge (udpPayload d)
      refine iff_of_false ?_ (fun hle => by omega)
      intro hgiven
      obtain ⟨topic, text, htext, -⟩ := hgiven
      obtain ⟨-, value, hvalue, -⟩ := formattedMsg_eq_ok.mp htext
      rw [hnone] at hvalue
      simp at hvalue

end Text

section Reads

/-- The places in the buffer that are read as the payload. A string is read up to
and with its NUL, beyond the buffer if there is none in it. -/
def payloadReads (d : Datagram) : List ℕ :=
  match (dataType d).toNat with
  | 0 => 51 :: List.range' 52 4
  | 1 => List.range' 51 2
  | 2 => 51 :: (List.range' 52 4 ++ [56])
  | 3 => List.range' 51 ((stringField d).length + 1)
  | _ => []

theorem udpPayload_length (d : Datagram) : (udpPayload d).length = 1549 := by
  simp [udpPayload, udpBuffer_length, maxUdpMsg]

/-- A string without a NUL in the buffer takes up what is left of the buffer. -/
theorem stringField_length (d : Datagram) :
    (stringField d).length < 1549 ↔ 0 ∈ udpPayload d := by
  rw [stringField, ← udpPayload_length d]
  exact string_length_lt_iff (udpPayload d)

/-- The reads stay in the buffer exactly if a string ends in it. -/
theorem payloadReads_lt_iff (d : Datagram) :
    (∀ i ∈ payloadReads d, i < maxUdpMsg) ↔ ((dataType d).toNat = 3 → 0 ∈ udpPayload d) := by
  rw [← stringField_length]
  have hbuffer : maxUdpMsg = 1600 := rfl
  by_cases hstring : (dataType d).toNat = 3
  · simp only [payloadReads, hstring, List.mem_range'_1, forall_const]
    constructor
    · intro hall
      have hlast := hall (51 + (stringField d).length) (by omega)
      omega
    · intro hlength i hi
      omega
  · refine iff_of_true ?_ (fun heq => absurd heq hstring)
    intro i hi
    unfold payloadReads at hi
    split at hi
    all_goals simp only [List.mem_cons, List.mem_append, List.mem_range'_1, List.not_mem_nil,
      or_false] at hi
    all_goals omega

/-- A string depends on its bytes and its NUL, or on what shows that there is none. -/
theorem cString_congr {bytes bytes' : Bytes}
    (hsame : ∀ k ≤ (bytes.takeWhile (· ≠ 0)).length, bytes[k]? = bytes'[k]?) :
    cString (some bytes) = cString (some bytes') := by
  induction bytes generalizing bytes' with
  | nil =>
    have hnil : bytes'[0]? = none := (hsame 0 (Nat.zero_le _)).symm
    rw [List.getElem?_eq_none_iff, Nat.le_zero, List.length_eq_zero_iff] at hnil
    rw [hnil]
  | cons b bytes ih =>
    obtain ⟨rest, rfl⟩ : ∃ rest, bytes' = b :: rest := by
      have hfirst := hsame 0 (Nat.zero_le _)
      cases bytes' with
      | nil => simp at hfirst
      | cons b' rest =>
        rw [List.getElem?_cons_zero, List.getElem?_cons_zero, Option.some.injEq] at hfirst
        exact ⟨rest, by rw [hfirst]⟩
    by_cases hzero : b = 0
    · simp [cString, hzero]
    · have hlater : ∀ k ≤ (bytes.takeWhile (· ≠ 0)).length, bytes[k]? = rest[k]? := by
        intro k hk
        have hnext := hsame (k + 1) (by
          rw [List.takeWhile_cons_of_pos (by simpa using hzero)]
          exact Nat.succ_le_succ hk)
        rwa [List.getElem?_cons_succ, List.getElem?_cons_succ] at hnext
      have hrest := ih hlater
      have hne : (0 : UInt8) ≠ b := fun heq => hzero heq.symm
      simp only [cString, List.mem_cons, hne, false_or] at hrest ⊢
      rw [List.takeWhile_cons_of_pos (by simpa using hzero),
        List.takeWhile_cons_of_pos (by simpa using hzero)]
      by_cases hmem : 0 ∈ bytes
      · by_cases hmem' : 0 ∈ rest
        · simp only [hmem, hmem', if_true, Except.ok.injEq] at hrest ⊢
          rw [hrest]
        · simp [hmem, hmem'] at hrest
      · by_cases hmem' : 0 ∈ rest
        · simp [hmem, hmem'] at hrest
        · simp [hmem, hmem']

/-- What is shown for the payload depends on nothing in the buffer but these places. -/
theorem interpretUdpPayload_congr {d d' : Datagram}
    (hsame : ∀ i ∈ payloadReads d, (udpBuffer d)[i]? = (udpBuffer d')[i]?) :
    interpretUdpPayload (dataType d).toNat (udpPayload d) =
      interpretUdpPayload (dataType d).toNat (udpPayload d') := by
  have hbyte (k : ℕ) (hk : 51 + k ∈ payloadReads d) : (udpPayload d)[k]? = (udpPayload d')[k]? := by
    rw [udpPayload, udpPayload, List.getElem?_drop, List.getElem?_drop, hsame _ hk]
  unfold payloadReads at hbyte
  generalize (dataType d).toNat = type at hbyte ⊢
  rcases type with _ | _ | _ | _ | type
  · simp only [interpretUdpPayload, bigEndian32, List.getD_eq_getElem?_getD, List.getElem?_drop,
      Nat.reduceAdd, hbyte 0 (by simp), hbyte 1 (by simp), hbyte 2 (by simp), hbyte 3 (by simp),
      hbyte 4 (by simp)]
  · simp only [interpretUdpPayload, bigEndian16, List.getD_eq_getElem?_getD, hbyte 0 (by simp),
      hbyte 1 (by simp)]
  · simp only [interpretUdpPayload, bigEndian32, List.getD_eq_getElem?_getD, List.getElem?_drop,
      Nat.reduceAdd, hbyte 0 (by simp), hbyte 1 (by simp), hbyte 2 (by simp), hbyte 3 (by simp),
      hbyte 4 (by simp), hbyte 5 (by simp)]
  · refine congrArg (Except.map fun text => some (ascii "STRING - " ++ text)) (cString_congr ?_)
    intro k hk
    refine hbyte k ?_
    have hlength : (stringField d).length = ((udpPayload d).takeWhile (· ≠ 0)).length := rfl
    simp only [Nat.reduceAdd, List.mem_range'_1]
    omega
  · rfl

/-- Reading a datagram faults exactly if it reads beyond the buffer. -/
theorem formattedMsg_fault_iff (d : Datagram) :
    (∃ fault, formattedMsg d = .error fault) ↔ ∃ i ∈ payloadReads d, maxUdpMsg ≤ i := by
  have hreads : (∃ i ∈ payloadReads d, maxUdpMsg ≤ i) ↔
      ¬ ((dataType d).toNat = 3 → 0 ∈ udpPayload d) := by
    rw [← payloadReads_lt_iff]
    simp only [not_forall, not_lt, exists_prop]
  rw [hreads]
  by_cases hstring : (dataType d).toNat = 3
  · simp only [formattedMsg, hstring, interpretUdpPayload, cString, forall_const]
    by_cases hmem : 0 ∈ udpPayload d
    · simp [hmem, Except.map]
    · simp [hmem, Except.map]
  · refine iff_of_false ?_ (fun h => h fun heq => absurd heq hstring)
    intro hgiven
    obtain ⟨fault, hfault⟩ := hgiven
    unfold formattedMsg at hfault
    by_cases hnumber : (dataType d).toNat < 3
    · obtain ⟨value, hvalue⟩ := interpretUdpPayload_numeric hnumber (udpPayload d)
      simp [hvalue, Except.map] at hfault
    · have hlarge : 3 < (dataType d).toNat := by omega
      simp [interpretUdpPayload_unsupported hlarge, Except.map] at hfault

/-- All reads of the payload stay in the receive buffer, and the whole text with its
NUL in the buffer it is written to, exactly if the datagram holds a number or no
supported type, or a string that ends in the receive buffer and is short enough for
what the text has besides it. -/
theorem stays_in_buffers_iff (d : Datagram) :
    ((∀ i ∈ payloadReads d, i < maxUdpMsg) ∧
      ∀ topic text, formattedMsg d = .ok (topic, some text) → text.length + 1 ≤ maxUdpMsg) ↔
    ((dataType d).toNat = 3 → StringFits d) := by
  rw [payloadReads_lt_iff]
  by_cases htype : (dataType d).toNat = 3
  · simp only [htype, forall_const, formattedMsg_string htype]
    constructor
    · intro hgiven
      obtain ⟨hmem, hlength⟩ := hgiven
      exact ⟨hmem, (string_text_length d).mp (hlength _ _ ⟨rfl, hmem, rfl⟩)⟩
    · intro hfits
      refine ⟨hfits.1, ?_⟩
      intro topic text htext
      obtain ⟨-, -, heq⟩ := htext
      rw [heq]
      exact (string_text_length d).mpr hfits.2
  · refine iff_of_true ⟨fun heq => absurd heq htype, ?_⟩ (fun heq => absurd heq htype)
    exact fun topic text => number_text_length htype

def unended : Datagram :=
  ⟨⟨(127, 0, 0, 1), 9⟩, ascii "t" ++ List.replicate 49 0 ++ 3 :: List.replicate 1549 97⟩

/-- The copy goes on behind the buffer. -/
theorem unended_read_beyond :
    unended.bytes.length = maxUdpMsg ∧ 1600 ∈ payloadReads unended := by
  have hlength : unended.bytes.length = maxUdpMsg := by
    simp only [unended, List.length_append, List.length_cons, List.length_replicate]
    rfl
  refine ⟨hlength, ?_⟩
  have hbuffer : udpBuffer unended = unended.bytes := by
    rw [udpBuffer, ← hlength, List.take_left]
  have htype : (dataType unended).toNat = 3 := by
    rw [dataType, hbuffer]
    rfl
  have hpayload : udpPayload unended = List.replicate 1549 97 := by
    rw [udpPayload, hbuffer]
    rfl
  have hstring : (stringField unended).length = 1549 := by
    rw [stringField, hpayload, List.takeWhile_replicate, if_pos (by decide), List.length_replicate]
  simp only [payloadReads, htype, hstring, List.mem_range'_1]
  omega

end Reads

section Grammar

def needed : ℕ → Option ℕ
  | 0 => some 56
  | 1 => some 53
  | 2 => some 57
  | 3 => some 51
  | _ => none

theorem needed_iff {type : ℕ} : (∃ size, needed type = some size) ↔ type ≤ 3 := by
  match type with
  | 0 | 1 | 2 | 3 => simp [needed]
  | type + 4 => simp [needed]

def WellFormed (d : Datagram) : Prop :=
  ∃ type size, d.bytes[50]? = some type ∧ needed type.toNat = some size ∧ size ≤ d.bytes.length

def Forwarded (d : Datagram) : Prop :=
  ∃ topic text, ∀ env s, manageUdpMessage env s (some d) = sendMsgIfSubscribed env s topic text

/-- The datagram is dropped: a complaint, nothing sent, the tables as they were. -/
def Dropped (d : Datagram) : Prop :=
  ∃ line, ∀ env s, manageUdpMessage env s (some d) = ⟨[.complained line], .ok s⟩

theorem forwarded_iff (d : Datagram) : Forwarded d ↔
    (dataType d).toNat ≤ 3 ∧ ((dataType d).toNat = 3 → StringFits d) := by
  rw [← text_fits_iff]
  constructor
  · intro hforwarded
    obtain ⟨topic, text, hact⟩ := hforwarded
    have hnobody : manageUdpMessage Env.plain (Server.prepare 3 4) (some d) =
        ⟨[], .ok (Server.prepare 3 4)⟩ := hact Env.plain (Server.prepare 3 4)
    obtain ⟨-, ⟨_, _, -, hcomplaint⟩ | ⟨topic', text', hformat, hfits, -⟩⟩ :=
      manageUdpMessage_ok hnobody
    · simp at hcomplaint
    · exact ⟨topic', text', hformat, hfits⟩
  · intro hgiven
    obtain ⟨topic, text, hformat, hfits⟩ := hgiven
    exact ⟨topic, text, fun env s => manageUdpMessage_accepted hformat hfits⟩

theorem dropped_of_unsupported {d : Datagram} (h : 3 < (dataType d).toNat) : Dropped d := by
  refine ⟨ascii "This format is not supported\n", fun env s => ?_⟩
  have hnone := interpretUdpPayload_unsupported h (udpPayload d)
  simp only [manageUdpMessage, formattedMsg, hnone, Except.map, Except.mapError, Option.map_none,
    Outcome.ofExcept, pure_bind]
  rfl

/-- The type byte is the one of the datagram, or a zero where it has none. -/
theorem dataType_eq (d : Datagram) : dataType d = d.bytes.getD 50 0 := by
  unfold dataType udpBuffer
  rw [List.getD_eq_getElem?_getD, List.getD_eq_getElem?_getD,
    List.getElem?_take_of_lt (show 50 < maxUdpMsg by decide)]
  by_cases h : 50 < d.bytes.length
  · rw [List.getElem?_append_left h]
  · have hle : d.bytes.length ≤ 50 := by omega
    rw [List.getElem?_append_right hle, List.getElem?_eq_none hle, List.getElem?_replicate]
    split <;> rfl

theorem wellFormed_iff (d : Datagram) : WellFormed d ↔ 51 ≤ d.bytes.length ∧
    ∃ size, needed (dataType d).toNat = some size ∧ size ≤ d.bytes.length := by
  rw [dataType_eq, List.getD_eq_getElem?_getD]
  constructor
  · intro hgiven
    obtain ⟨type, size, htype, hsize⟩ := hgiven
    obtain ⟨hlt, -⟩ := List.getElem?_eq_some_iff.mp htype
    rw [htype]
    exact ⟨hlt, size, hsize⟩
  · intro hgiven
    obtain ⟨hlt, size, hsize⟩ := hgiven
    have htype : d.bytes[50]? = some d.bytes[50] := List.getElem?_eq_getElem hlt
    rw [htype] at hsize
    exact ⟨d.bytes[50], size, htype, hsize⟩

/-- Where the type byte is missing it reads as zero, and the datagram is taken for a
number. -/
theorem forwarded_of_short {d : Datagram} (h : d.bytes.length ≤ 50) : Forwarded d := by
  have hzero : (dataType d).toNat = 0 := by
    rw [dataType_eq, List.getD_eq_getElem?_getD, List.getElem?_eq_none h]
    rfl
  exact (forwarded_iff d).mpr ⟨by omega, fun heq => by omega⟩

/-- With its payload in it, a datagram is well formed if its type is supported. -/
theorem wellFormed_iff_supported {d : Datagram} (hlong : 51 ≤ d.bytes.length)
    (hwhole : ∀ size, needed (dataType d).toNat = some size → size ≤ d.bytes.length) :
    WellFormed d ↔ (dataType d).toNat ≤ 3 := by
  rw [wellFormed_iff, ← needed_iff]
  constructor
  · intro h
    obtain ⟨-, size, hsize, -⟩ := h
    exact ⟨size, hsize⟩
  · intro h
    obtain ⟨size, hsize⟩ := h
    exact ⟨hlong, size, hsize, hwhole size hsize⟩

/-- Exactly the well-formed datagrams are forwarded and all others dropped, if and
only if the datagram reaches to its type, a supported type has its whole payload,
and a string fits. -/
theorem forwards_wellFormed_iff (d : Datagram) :
    ((Forwarded d ↔ WellFormed d) ∧ (¬ WellFormed d → Dropped d)) ↔
      51 ≤ d.bytes.length ∧
      (∀ size, needed (dataType d).toNat = some size → size ≤ d.bytes.length) ∧
      ((dataType d).toNat = 3 → StringFits d) := by
  constructor
  · intro hgiven
    obtain ⟨hiff, -⟩ := hgiven
    have hlong : 51 ≤ d.bytes.length := by
      by_contra hshort
      have hforwarded := forwarded_of_short (Nat.le_of_lt_succ (not_le.mp hshort))
      exact hshort ((wellFormed_iff d).mp (hiff.mp hforwarded)).1
    rw [forwarded_iff, wellFormed_iff] at hiff
    refine ⟨hlong, ?_, ?_⟩
    · intro size hsize
      have hsupported := needed_iff.mp ⟨size, hsize⟩
      by_cases hstring : (dataType d).toNat = 3
      · rw [hstring] at hsize
        exact (Option.some.inj hsize) ▸ hlong
      · obtain ⟨-, size', hsize', hle⟩ := hiff.mp ⟨hsupported, fun heq => absurd heq hstring⟩
        rw [hsize, Option.some.injEq] at hsize'
        exact hsize' ▸ hle
    · intro hstring
      have hneeded : needed (dataType d).toNat = some 51 := by rw [hstring]; rfl
      exact (hiff.mpr ⟨hlong, 51, hneeded, hlong⟩).2 hstring
  · intro hgiven
    obtain ⟨hlong, hwhole, hstring⟩ := hgiven
    rw [wellFormed_iff_supported hlong hwhole, forwarded_iff]
    refine ⟨and_iff_left hstring, ?_⟩
    intro hnot
    exact dropped_of_unsupported (Nat.lt_of_not_le hnot)

def truncated : Datagram :=
  ⟨⟨(127, 0, 0, 1), 9⟩, ascii "t" ++ List.replicate 49 0 ++ [0]⟩

def truncatedText : Bytes := ascii "127.0.0.1:9 - t - INT - 0"

set_option maxRecDepth 4000 in
theorem formattedMsg_truncated :
    formattedMsg truncated = .ok (ascii "t", some truncatedText) := by rfl

set_option maxRecDepth 4000 in
/-- It goes to the subscribers as the number 0. -/
theorem truncated_forwarded : Reachable audience ∧ truncated.bytes.length = 51 ∧
    ¬ WellFormed truncated ∧ Forwarded truncated ∧
    manageUdpMessage Env.plain audience (some truncated) =
      ⟨[.wrote 6 (9 :: 0 :: 26 :: (truncatedText ++ [0])),
        .wrote 5 (9 :: 0 :: 26 :: (truncatedText ++ [0]))], .ok audience⟩ := by
  refine ⟨reachable_audience, rfl, ?_, ?_, by rfl⟩
  · intro hwellFormed
    obtain ⟨-, size, hsize, hle⟩ := (wellFormed_iff truncated).mp hwellFormed
    have hneeded : needed (dataType truncated).toNat = some 56 := by rfl
    rw [hneeded, Option.some.injEq] at hsize
    have hlength : truncated.bytes.length = 51 := rfl
    omega
  · exact ⟨_, _, fun env s => manageUdpMessage_accepted formattedMsg_truncated (by decide)⟩

end Grammar

end ServerClientApp.DatagramBounds
