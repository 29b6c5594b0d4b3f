import ServerClientApp.Protocols
import ServerClientApp.Rounding
import ServerClientApp.Wildcards

/-!
From a UDP datagram to the text sent to the subscribers. The receive buffer
has 1600 bytes, is zeroed before every datagram, and is read by position. The
text is built by successive sprintf calls; whether it fits the buffer it is
built in is for the caller to say. Doubles are rationals rounded to 53 bits:
the values that occur are far from both ends of the exponent range.
-/

namespace ServerClientApp.Datagrams

open Protocols Rounding Wildcards

def maxUdpMsg : ℕ := 1600

structure SockAddr where
  ip : UInt8 × UInt8 × UInt8 × UInt8
  port : UInt16
  deriving DecidableEq, Repr

/-- A received datagram, before recvfrom cuts it to the buffer. -/
structure Datagram where
  sender : SockAddr
  bytes : Bytes
  deriving DecidableEq, Repr

section Text

/-- printf of an unsigned integer in decimal. -/
def decimal (n : ℕ) : Bytes := (Nat.toDigits 10 n).map fun c => UInt8.ofNat c.toNat

def inetNtoa (ip : UInt8 × UInt8 × UInt8 × UInt8) : Bytes :=
  decimal ip.1.toNat ++ ascii "." ++ decimal ip.2.1.toNat ++ ascii "." ++
    decimal ip.2.2.1.toNat ++ ascii "." ++ decimal ip.2.2.2.toNat

/-- printf("%d") of a 32-bit pattern. -/
def signedDecimal (number : UInt32) : Bytes :=
  if number.toNat < 2 ^ 31 then decimal number.toNat
  else ascii "-" ++ decimal (2 ^ 32 - number.toNat)

/-- printf("%.*f") of a value that is not negative: rounded to the nearest
multiple of 10^-places, with no point if there are no places. -/
def fixedPoint (places : ℕ) (x : ℚ) : Bytes :=
  let scaled := (roundHalfEven (x * 10 ^ places)).toNat
  let digits := decimal (scaled % 10 ^ places)
  if places = 0 then decimal scaled
  else decimal (scaled / 10 ^ places) ++ ascii "." ++
    (List.replicate (places - digits.length) 48 ++ digits)

theorem decimal_length_le {n k : ℕ} (hk : 0 < k) (h : n < 10 ^ k) : (decimal n).length ≤ k := by
  unfold decimal
  rw [List.length_map]
  exact (Nat.length_toDigits_le_iff (by omega) hk).mpr h

def NulFree (text : Bytes) : Prop := 0 ∉ text

theorem NulFree.append {s t : Bytes} (hs : NulFree s) (ht : NulFree t) : NulFree (s ++ t) := by
  intro h
  rcases List.mem_append.mp h with h | h
  · exact hs h
  · exact ht h

theorem toDigits_digit {n : ℕ} {c : Char} (h : c ∈ Nat.toDigits 10 n) :
    48 ≤ c.toNat ∧ c.toNat ≤ 57 := by
  have hdigit := Nat.isDigit_of_mem_toDigits (by omega) (by omega) h
  simp only [Char.isDigit, Bool.and_eq_true, decide_eq_true_eq] at hdigit
  exact hdigit

/-- Every byte of a decimal text is a digit. -/
theorem decimal_digit {n : ℕ} {digit : UInt8} (h : digit ∈ decimal n) :
    48 ≤ digit.toNat ∧ digit.toNat ≤ 57 := by
  obtain ⟨c, hc, rfl⟩ := List.mem_map.mp h
  obtain ⟨hlo, hhi⟩ := toDigits_digit hc
  rw [UInt8.toNat_ofNat_of_lt' (show c.toNat < 256 by omega)]
  exact ⟨hlo, hhi⟩

theorem decimal_nulFree (n : ℕ) : NulFree (decimal n) := by
  intro hmem
  have hlo := (decimal_digit hmem).1
  have : (0 : UInt8).toNat = 0 := rfl
  omega

theorem inetNtoa_length_le (ip : UInt8 × UInt8 × UInt8 × UInt8) : (inetNtoa ip).length ≤ 15 := by
  have h : ∀ b : UInt8, (decimal b.toNat).length ≤ 3 := fun b =>
    decimal_length_le (by omega) (by have := b.toNat_lt; omega)
  have hdot : (ascii ".").length = 1 := rfl
  have h₁ := h ip.1
  have h₂ := h ip.2.1
  have h₃ := h ip.2.2.1
  have h₄ := h ip.2.2.2
  simp only [inetNtoa, List.length_append, hdot]
  omega

theorem inetNtoa_nulFree (ip : UInt8 × UInt8 × UInt8 × UInt8) : NulFree (inetNtoa ip) := by
  have hdot : NulFree (ascii ".") := by unfold NulFree; decide
  unfold inetNtoa
  exact ((((((decimal_nulFree _).append hdot).append (decimal_nulFree _)).append hdot).append
    (decimal_nulFree _)).append hdot).append (decimal_nulFree _)

theorem signedDecimal_length_le (number : UInt32) : (signedDecimal number).length ≤ 11 := by
  have hlt := number.toNat_lt
  have hminus : (ascii "-").length = 1 := rfl
  unfold signedDecimal
  split
  · have := decimal_length_le (n := number.toNat) (k := 10) (by omega) (by omega)
    omega
  · have := decimal_length_le (n := 2 ^ 32 - number.toNat) (k := 10) (by omega) (by omega)
    rw [List.length_append, hminus]
    omega

theorem signedDecimal_nulFree (number : UInt32) : NulFree (signedDecimal number) := by
  have hminus : NulFree (ascii "-") := by unfold NulFree; decide
  unfold signedDecimal
  split
  · exact decimal_nulFree _
  · exact hminus.append (decimal_nulFree _)

theorem fixedPoint_nulFree (places : ℕ) (x : ℚ) : NulFree (fixedPoint places x) := by
  have hpoint : NulFree (ascii ".") := by unfold NulFree; decide
  have hzeros (k : ℕ) : NulFree (List.replicate k 48) := by
    intro hmem
    exact absurd (List.eq_of_mem_replicate hmem) (by decide)
  unfold fixedPoint
  dsimp only
  split
  · exact decimal_nulFree _
  · exact ((decimal_nulFree _).append hpoint).append ((hzeros _).append (decimal_nulFree _))

/-- The integer part of a value below 2^32 has at most ten digits. -/
theorem fixedPoint_length_le (places : ℕ) {x : ℚ} {m : ℕ} (hx : x ≤ m) (hm : m < 2 ^ 32) :
    (fixedPoint places x).length ≤ 11 + places := by
  have hround : roundHalfEven (x * 10 ^ places) ≤ ((m * 10 ^ places : ℕ) : ℤ) := by
    apply roundHalfEven_le
    push_cast
    gcongr
  have hscaled : (roundHalfEven (x * 10 ^ places)).toNat ≤ m * 10 ^ places :=
    Int.toNat_le.mpr hround
  have hpow : 0 < 10 ^ places := by positivity
  have hwhole : (roundHalfEven (x * 10 ^ places)).toNat / 10 ^ places ≤ m :=
    (Nat.div_le_div_right hscaled).trans (by rw [Nat.mul_div_cancel _ hpow])
  have hpoint : (ascii ".").length = 1 := rfl
  unfold fixedPoint
  dsimp only
  split
  · rename_i hplaces
    subst hplaces
    have hle : (roundHalfEven (x * 10 ^ 0)).toNat ≤ m := by simpa using hwhole
    have := decimal_length_le (n := (roundHalfEven (x * 10 ^ 0)).toNat) (k := 10) (by omega)
      (by omega)
    omega
  · rename_i hplaces
    have hint := decimal_length_le
      (n := (roundHalfEven (x * 10 ^ places)).toNat / 10 ^ places) (k := 10) (by omega) (by omega)
    have hfrac := decimal_length_le
      (n := (roundHalfEven (x * 10 ^ places)).toNat % 10 ^ places) (k := places) (by omega)
      (Nat.mod_lt _ hpow)
    simp only [List.length_append, List.length_replicate, hpoint]
    omega

end Text

section Buffer

/-- The zeroed receive buffer after recvfrom. -/
def udpBuffer (d : Datagram) : Bytes :=
  (d.bytes ++ List.replicate maxUdpMsg 0).take maxUdpMsg

theorem udpBuffer_length (d : Datagram) : (udpBuffer d).length = maxUdpMsg := by
  simp [udpBuffer]

def topicField (d : Datagram) : Topic := ((udpBuffer d).take 50).takeWhile (· ≠ 0)

def dataType (d : Datagram) : UInt8 := (udpBuffer d).getD 50 0

def udpPayload (d : Datagram) : Bytes := (udpBuffer d).drop 51

theorem topicField_nulFree (d : Datagram) : NulFree (topicField d) := by
  intro hmem
  have h := List.mem_takeWhile_imp hmem
  simp at h

theorem topicField_length_le (d : Datagram) : (topicField d).length ≤ 50 :=
  ((List.takeWhile_prefix _).length_le).trans (List.length_take_le 50 _)

end Buffer

section Interpret

def bigEndian16 (bytes : Bytes) : ℕ := (bytes.getD 0 0).toNat * 256 + (bytes.getD 1 0).toNat

def bigEndian32 (bytes : Bytes) : UInt32 :=
  UInt32.ofNat (((bytes.getD 0 0).toNat * 256 + (bytes.getD 1 0).toNat) * 65536 +
    ((bytes.getD 2 0).toNat * 256 + (bytes.getD 3 0).toNat))

/-- A double operation rounds its exact result to 53 significant bits. -/
def double (x : ℚ) : ℚ := toPrecision 53 x

def scaleDown (power : ℕ) (x : ℚ) : ℚ := (fun y => double (y / 10))^[power] x

/-- The part of the text that depends on the type, `none` for a type that is not
supported. A string is copied up to its NUL. -/
def interpretUdpPayload (type : ℕ) (payload : Bytes) : Except ReadFault (Option Bytes) :=
  match type with
  | 0 =>
    let sign := payload.getD 0 0
    let number := bigEndian32 (payload.drop 1)
    let number := if sign = 1 then number * (-1) else number
    .ok (some (ascii "INT - " ++ signedDecimal number))
  | 1 =>
    let realNr := double (bigEndian16 payload / 100)
    .ok (some (ascii "SHORT_REAL - " ++ fixedPoint 2 realNr))
  | 2 =>
    let sign := payload.getD 0 0
    let power := (payload.getD 5 0).toNat
    let realNr := scaleDown power (bigEndian32 (payload.drop 1)).toNat
    -- times -1.0 sets the sign bit, also of a zero, and printf shows it
    let minus := if sign = 1 then ascii "-" else []
    .ok (some (ascii "FLOAT - " ++ minus ++ fixedPoint power realNr))
  | 3 => (cString (some payload)).map fun text => some (ascii "STRING - " ++ text)
  | _ => .ok none

def formattedMsg (d : Datagram) : Except ReadFault (Topic × Option Bytes) :=
  let head := inetNtoa d.sender.ip ++ ascii ":" ++ decimal d.sender.port.toNat ++
    ascii " - " ++ topicField d ++ ascii " - "
  (interpretUdpPayload (dataType d).toNat (udpPayload d)).map fun value =>
    (topicField d, value.map (head ++ ·))

theorem scaleDown_bounds (power : ℕ) {x : ℚ} (hx : 0 ≤ x) :
    0 ≤ scaleDown power x ∧ scaleDown power x ≤ x := by
  induction power generalizing x with
  | zero => exact ⟨hx, le_refl x⟩
  | succ power ih =>
    obtain ⟨hlo, hhi⟩ := toPrecision_bounds 53 (by omega) (show 0 ≤ x / 10 by positivity)
    obtain ⟨hlo', hhi'⟩ := ih (x := double (x / 10)) hlo
    refine ⟨hlo', hhi'.trans ?_⟩
    unfold double
    linarith

theorem bigEndian16_lt (bytes : Bytes) : bigEndian16 bytes < 2 ^ 16 := by
  have h₁ := (bytes.getD 0 0).toNat_lt
  have h₂ := (bytes.getD 1 0).toNat_lt
  unfold bigEndian16
  omega

/-- The labels of the text and the minus sign. -/
private theorem labels_nulFree : NulFree (ascii "INT - ") ∧ NulFree (ascii "SHORT_REAL - ") ∧
    NulFree (ascii "FLOAT - ") ∧ NulFree (ascii "STRING - ") ∧ NulFree (ascii "-") := by
  unfold NulFree
  decide

private theorem labels_length : (ascii "INT - ").length = 6 ∧
    (ascii "SHORT_REAL - ").length = 13 ∧ (ascii "FLOAT - ").length = 8 ∧
    (ascii "STRING - ").length = 9 ∧ (ascii "-").length = 1 := by
  decide

/-- The text of a number holds no NUL and has a bounded length. -/
theorem interpretUdpPayload_number {type : ℕ} {payload value : Bytes} (htype : type ≠ 3)
    (h : interpretUdpPayload type payload = .ok (some value)) :
    NulFree value ∧ value.length ≤ 275 := by
  have hlabels := labels_length
  have hnul := labels_nulFree
  match type with
  | 0 =>
    simp only [interpretUdpPayload, Except.ok.injEq, Option.some.injEq] at h
    subst h
    refine ⟨hnul.1.append (signedDecimal_nulFree _), ?_⟩
    rw [List.length_append, hlabels.1]
    have := signedDecimal_length_le (if payload.getD 0 0 = 1 then
      bigEndian32 (payload.drop 1) * (-1) else bigEndian32 (payload.drop 1))
    omega
  | 1 =>
    simp only [interpretUdpPayload, Except.ok.injEq, Option.some.injEq] at h
    subst h
    refine ⟨hnul.2.1.append (fixedPoint_nulFree _ _), ?_⟩
    have hlt := bigEndian16_lt payload
    have hnonneg : (0 : ℚ) ≤ bigEndian16 payload / 100 := by positivity
    have hbound : double (bigEndian16 payload / 100) ≤ bigEndian16 payload := by
      have hdouble := (toPrecision_bounds 53 (by omega) hnonneg).2
      have hpos : (0 : ℚ) ≤ bigEndian16 payload := by positivity
      unfold double
      linarith
    have := fixedPoint_length_le 2 hbound (by omega)
    rw [List.length_append, hlabels.2.1]
    omega
  | 2 =>
    simp only [interpretUdpPayload, Except.ok.injEq, Option.some.injEq] at h
    subst h
    have hminus : NulFree (if payload.getD 0 0 = 1 then ascii "-" else []) ∧
        (if payload.getD 0 0 = 1 then ascii "-" else []).length ≤ 1 := by
      split
      · exact ⟨hnul.2.2.2.2, by rw [hlabels.2.2.2.2]⟩
      · exact ⟨List.not_mem_nil, by simp⟩
    refine ⟨(hnul.2.2.1.append hminus.1).append (fixedPoint_nulFree _ _), ?_⟩
    have hpower := (payload.getD 5 0).toNat_lt
    have hbound := (scaleDown_bounds (payload.getD 5 0).toNat
      (show (0 : ℚ) ≤ (bigEndian32 (payload.drop 1)).toNat by positivity)).2
    have hfixed := fixedPoint_length_le (payload.getD 5 0).toNat hbound
      (bigEndian32 (payload.drop 1)).toNat_lt
    rw [List.length_append, List.length_append, hlabels.2.2.1]
    have := hminus.2
    omega
  | 3 => exact absurd rfl htype
  | type + 4 => simp [interpretUdpPayload] at h

/-- The text of a string is its label and the string. -/
theorem interpretUdpPayload_string {payload value : Bytes}
    (h : interpretUdpPayload 3 payload = .ok (some value)) :
    ∃ text, cString (some payload) = .ok text ∧ value = ascii "STRING - " ++ text := by
  cases htext : cString (some payload) with
  | error fault => simp [interpretUdpPayload, htext, Except.map] at h
  | ok text =>
    simp only [interpretUdpPayload, htext, Except.map, Except.ok.injEq, Option.some.injEq] at h
    exact ⟨text, rfl, h.symm⟩

/-- The text of a supported type holds no NUL and is not much longer than the
payload. -/
theorem interpretUdpPayload_text {type : ℕ} {payload value : Bytes}
    (h : interpretUdpPayload type payload = .ok (some value)) :
    NulFree value ∧ value.length ≤ 275 + payload.length := by
  by_cases htype : type = 3
  · subst htype
    obtain ⟨text, htext, rfl⟩ := interpretUdpPayload_string h
    obtain ⟨hfree, rest, hpayload⟩ := cString_ok htext
    refine ⟨labels_nulFree.2.2.2.1.append hfree, ?_⟩
    have hlength := congrArg List.length (Option.some.inj hpayload)
    rw [List.length_append] at hlength
    rw [List.length_append, labels_length.2.2.2.1]
    omega
  · obtain ⟨hfree, hlength⟩ := interpretUdpPayload_number htype h
    exact ⟨hfree, by omega⟩

/-- Every text handed on is a C string whose length, with the NUL, fits the
16-bit length field of a message. -/
theorem formattedMsg_text {d : Datagram} {topic : Topic} {text : Bytes}
    (h : formattedMsg d = .ok (topic, some text)) :
    topic = topicField d ∧ NulFree text ∧ text.length + 1 < 2 ^ 16 := by
  unfold formattedMsg at h
  cases hvalue : interpretUdpPayload (dataType d).toNat (udpPayload d) with
  | error fault => simp [hvalue, Except.map] at h
  | ok value =>
    cases value with
    | none => simp [hvalue, Except.map] at h
    | some value =>
      simp only [hvalue, Except.map, Option.map_some, Except.ok.injEq, Prod.mk.injEq,
        Option.some.injEq] at h
      obtain ⟨rfl, rfl⟩ := h
      obtain ⟨hfree, hlength⟩ := interpretUdpPayload_text hvalue
      have hcolon : NulFree (ascii ":") ∧ NulFree (ascii " - ") := by
        unfold NulFree
        decide
      refine ⟨rfl, ?_, ?_⟩
      · exact ((((((inetNtoa_nulFree _).append hcolon.1).append (decimal_nulFree _)).append
          hcolon.2).append (topicField_nulFree d)).append hcolon.2).append hfree
      · have hip := inetNtoa_length_le d.sender.ip
        have hport := decimal_length_le (n := d.sender.port.toNat) (k := 5) (by omega)
          (by have := d.sender.port.toNat_lt; omega)
        have htopic := topicField_length_le d
        have hpayload : (udpPayload d).length = 1549 := by
          simp [udpPayload, udpBuffer_length, maxUdpMsg]
        have hseparators : (ascii ":").length = 1 ∧ (ascii " - ").length = 3 := by decide
        simp only [List.length_append, hseparators.1, hseparators.2]
        omega

end Interpret

end ServerClientApp.Datagrams
