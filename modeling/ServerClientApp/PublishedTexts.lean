import ServerClientApp.Connections
import ServerClientApp.DatagramBounds
import ServerClientApp.NumberTexts
import ServerClientApp.SessionGuarantees
import ServerClientApp.Words

/-!
The lines a subscriber shows for publications, read back. As long as the topic has no
blank in it, and 32 bits with a sign hold an integer, the line gives the address and the
port of the sender, the topic, the type and the value of the datagram; the lines of a
whole session give datagrams that the server has handled, in their order and none of them
twice.
-/

namespace ServerClientApp.PublishedTexts

open PartialTransfers Outcomes Runs Protocols Wildcards Datagrams DatagramBounds NumberTexts
  ServerHandlers HandlerSpecs ServerRuns Delivery SubscriberHandlers Sessions SessionGuarantees
  Words

section Reading

/-- What a datagram says. A fraction is its digits and the number of those behind the
point. -/
inductive Value where
  | int (number : ℤ)
  | shortReal (hundredths : ℕ)
  | float (negative : Bool) (power digits : ℕ)
  | string (text : Bytes)
  deriving DecidableEq, Repr

structure Publication where
  sender : SockAddr
  topic : Topic
  value : Value
  deriving DecidableEq, Repr

def valueOf (type : ℕ) (payload : Bytes) : Option Value :=
  match type with
  | 0 => some (.int (signedValue (payload.getD 0 0) (bigEndian32 (payload.drop 1))))
  | 1 => some (.shortReal (bigEndian16 payload))
  | 2 =>
    some (.float (payload.getD 0 0 = 1) (payload.getD 5 0).toNat
      (bigEndian32 (payload.drop 1)).toNat)
  | 3 => some (.string (payload.takeWhile (· ≠ 0)))
  | _ => none

/-- The program shows an integer in 32 bits, one of them for the sign. -/
def FitsInt (payload : Bytes) : Prop :=
  if payload.getD 0 0 = 1 then (bigEndian32 (payload.drop 1)).toNat ≤ 2 ^ 31
  else (bigEndian32 (payload.drop 1)).toNat < 2 ^ 31

instance (payload : Bytes) : Decidable (FitsInt payload) :=
  inferInstanceAs (Decidable (if payload.getD 0 0 = 1
    then (bigEndian32 (payload.drop 1)).toNat ≤ 2 ^ 31
    else (bigEndian32 (payload.drop 1)).toNat < 2 ^ 31))

def contentOf (d : Datagram) : Option Publication :=
  (valueOf (dataType d).toNat (udpPayload d)).map (⟨d.sender, topicField d, ·⟩)

def readInteger (text : Bytes) : ℤ :=
  match text.dropPrefix? (ascii "-") with
  | some text => -readDecimal text
  | none => readDecimal text

def readFraction (text : Bytes) : ℕ × ℕ :=
  let (whole, fraction) := cut 46 text
  (fraction.length, readDecimal (whole ++ fraction))

def readValue (label text : Bytes) : Option Value :=
  if label = ascii "INT" then some (.int (readInteger text))
  else if label = ascii "SHORT_REAL" then some (.shortReal (readFraction text).2)
  else if label = ascii "FLOAT" then
    match text.dropPrefix? (ascii "-") with
    | some text => some (.float true (readFraction text).1 (readFraction text).2)
    | none => some (.float false (readFraction text).1 (readFraction text).2)
  else if label = ascii "STRING" then some (.string text)
  else none

def readOctet (text : Bytes) : UInt8 := UInt8.ofNat (readDecimal text)

def readAddress (text : Bytes) : SockAddr :=
  let (first, text) := cut 46 text
  let (second, text) := cut 46 text
  let (third, text) := cut 46 text
  let (fourth, port) := cut 58 text
  ⟨(readOctet first, readOctet second, readOctet third, readOctet fourth),
    UInt16.ofNat (readDecimal port)⟩

/-- The words before the value; each has a dash and a blank behind its own blank. -/
def readPublication (text : Bytes) : Option Publication :=
  let (address, text) := cut 32 text
  let (topic, text) := cut 32 (text.drop 2)
  let (label, text) := cut 32 (text.drop 2)
  (readValue label (text.drop 2)).map (⟨readAddress address, topic, ·⟩)

theorem not_mem_decimal {b : UInt8} (h : b.toNat < 48) (n : ℕ) : b ∉ decimal n := by
  intro hmem
  have hdigit := (decimal_digit hmem).1
  omega

theorem colon_decimal (n : ℕ) : 58 ∉ decimal n := by
  intro hmem
  have hdigit := (decimal_digit hmem).2
  revert hdigit
  decide

theorem readOctet_decimal (b : UInt8) : readOctet (decimal b.toNat) = b := by
  rw [readOctet, readDecimal_decimal, UInt8.ofNat_toNat]

theorem readAddress_text (sender : SockAddr) :
    readAddress (inetNtoa sender.ip ++ ascii ":" ++ decimal sender.port.toNat) = sender := by
  have hdot (n : ℕ) : 46 ∉ decimal n := not_mem_decimal (by decide) n
  have hpoint : ascii "." = [46] := rfl
  have hcolon : ascii ":" = [58] := rfl
  simp only [inetNtoa, hpoint, hcolon, List.append_assoc, List.cons_append, List.nil_append,
    readAddress, cut_append (hdot _), cut_append (colon_decimal _), readOctet_decimal,
    readDecimal_decimal, UInt16.ofNat_toNat]

theorem dropPrefix_decimal (n : ℕ) (rest : Bytes) :
    (decimal n ++ rest).dropPrefix? (ascii "-") = none := by
  rw [Option.eq_none_iff_forall_ne_some]
  intro tail htail
  obtain ⟨front, heq, hfront⟩ := List.dropPrefix?_eq_some_iff.mp htail
  rw [eq_of_beq hfront] at heq
  obtain ⟨d, digits, hdigits⟩ := List.exists_cons_of_ne_nil (show decimal n ≠ [] by simp [decimal])
  have hhead : d = 45 := by
    rw [hdigits] at heq
    exact (List.cons.inj heq).1
  have hmem : (45 : UInt8) ∈ decimal n := by
    rw [hdigits, hhead]
    exact List.mem_cons_self
  exact not_mem_decimal (by decide) n hmem

theorem readInteger_text (z : ℤ) : readInteger (integerDecimal z) = z := by
  cases z with
  | ofNat n =>
    have hplain := dropPrefix_decimal n []
    rw [List.append_nil] at hplain
    simp only [readInteger, integerDecimal, hplain, readDecimal_decimal]
    rfl
  | negSucc n =>
    simp only [readInteger, integerDecimal, dropPrefix_append, readDecimal_decimal]
    rfl

theorem readFraction_text (places number : ℕ) :
    readFraction (exactDecimal places number) = (places, number) := by
  have hdot (n : ℕ) : 46 ∉ decimal n := not_mem_decimal (by decide) n
  rcases Nat.eq_zero_or_pos places with rfl | hplaces
  · simp only [exactDecimal, if_true, readFraction, cut_word (hdot number), List.append_nil,
      readDecimal_decimal, List.length_nil]
  · obtain ⟨whole, fraction, htext, hlength, hreads⟩ := exactDecimal_reads places number hplaces
    have hdigits := decimal_length_le hplaces
      (Nat.mod_lt number (show 0 < 10 ^ places by positivity))
    have hexact := htext
    rw [exactDecimal, if_neg hplaces.ne'] at hexact
    -- Both ways to write the text have as many digits behind the point.
    obtain ⟨hfront, rfl⟩ := List.append_inj' hexact (by
      rw [hlength, List.length_append, List.length_replicate]
      omega)
    rw [← List.append_cancel_right hfront] at htext hreads
    have hpoint : ascii "." = [46] := rfl
    rw [htext, hpoint, List.append_assoc, List.singleton_append, readFraction,
      cut_append (hdot _)]
    exact Prod.ext hlength hreads

theorem dropPrefix_exactDecimal (places number : ℕ) :
    (exactDecimal places number).dropPrefix? (ascii "-") = none := by
  unfold exactDecimal
  dsimp only
  split_ifs
  · have hplain := dropPrefix_decimal number []
    rwa [List.append_nil] at hplain
  · rw [List.append_assoc]
    exact dropPrefix_decimal _ _

/-- An integer that fits is shown with its value. -/
theorem shown_int {payload : Bytes} (h : FitsInt payload) :
    twosComplement (if payload.getD 0 0 = 1 then bigEndian32 (payload.drop 1) * (-1)
      else bigEndian32 (payload.drop 1)) =
        signedValue (payload.getD 0 0) (bigEndian32 (payload.drop 1)) := by
  unfold FitsInt at h
  unfold signedValue
  by_cases hsign : payload.getD 0 0 = 1
  · rw [if_pos hsign] at h
    rw [if_pos hsign, if_pos hsign]
    exact (twosComplement_neg _).mpr h
  · rw [if_neg hsign] at h
    rw [if_neg hsign, if_neg hsign]
    exact (twosComplement_pos _).mpr h

/-- The part of the text behind the heading: its label, and what is read behind it. -/
theorem interpretUdpPayload_reads {type : ℕ} {payload text : Bytes}
    (hfits : type = 0 → FitsInt payload) (h : interpretUdpPayload type payload = .ok (some text)) :
    ∃ label shown value, 32 ∉ label ∧ text = label ++ ascii " - " ++ shown ∧
      valueOf type payload = some value ∧ readValue label shown = some value := by
  match type with
  | 0 =>
    simp only [interpretUdpPayload, Except.ok.injEq, Option.some.injEq] at h
    subst h
    refine ⟨ascii "INT", _, _, by decide, rfl, rfl, ?_⟩
    rw [readValue, if_pos rfl, signedDecimal_eq, readInteger_text, shown_int (hfits rfl)]
  | 1 =>
    rw [interpretUdpPayload_shortReal, Except.ok.injEq, Option.some.injEq] at h
    subst h
    refine ⟨ascii "SHORT_REAL", _, _, by decide, rfl, rfl, ?_⟩
    rw [readValue, if_neg (by decide), if_pos rfl, readFraction_text]
  | 2 =>
    rw [interpretUdpPayload_float, Except.ok.injEq, Option.some.injEq] at h
    subst h
    refine ⟨ascii "FLOAT", _, _, by decide, List.append_assoc _ _ _, rfl, ?_⟩
    rw [readValue, if_neg (by decide), if_neg (by decide), if_pos rfl]
    by_cases hsign : payload.getD 0 0 = 1
    · simp only [hsign, if_true, dropPrefix_append, readFraction_text, decide_true]
    · simp only [hsign, if_false, List.nil_append, dropPrefix_exactDecimal, readFraction_text,
        decide_false]
  | 3 =>
    obtain ⟨shown, hshown, rfl⟩ := interpretUdpPayload_string h
    obtain ⟨hfree, rest, hpayload⟩ := cString_ok hshown
    refine ⟨ascii "STRING", shown, .string shown, by decide, rfl, ?_, rfl⟩
    rw [Option.some.inj hpayload, valueOf, takeWhile_append_nul shown rest hfree]
  | type + 4 => simp [interpretUdpPayload] at h

theorem blank_address (sender : SockAddr) :
    32 ∉ inetNtoa sender.ip ++ ascii ":" ++ decimal sender.port.toNat := by
  have hdigits (n : ℕ) : 32 ∉ decimal n := not_mem_decimal (by decide) n
  have hseparators : 32 ∉ ascii "." ∧ 32 ∉ ascii ":" := by decide
  simp only [inetNtoa, List.mem_append, hdigits, hseparators, or_self, not_false_eq_true]

/-- The topic is one word, and an integer fits. -/
structure Legible (d : Datagram) : Prop where
  topic : 32 ∉ topicField d
  int : (dataType d).toNat = 0 → FitsInt (udpPayload d)

/-- The whole text is read back. -/
theorem readPublication_text {d : Datagram} {topic : Topic} {text : Bytes}
    (hlegible : Legible d) (h : formattedMsg d = .ok (topic, some text)) :
    ∃ content, contentOf d = some content ∧ readPublication text = some content := by
  obtain ⟨-, value, hvalue, rfl⟩ := formattedMsg_eq_ok.mp h
  obtain ⟨label, shown, content, hlabel, rfl, hcontent, hread⟩ :=
    interpretUdpPayload_reads hlegible.int hvalue
  have hseparator : ascii " - " = [32, 45, 32] := rfl
  have htext : heading d ++ (label ++ ascii " - " ++ shown) =
      (inetNtoa d.sender.ip ++ ascii ":" ++ decimal d.sender.port.toNat) ++ 32 :: 45 :: 32 ::
        (topicField d ++ 32 :: 45 :: 32 :: (label ++ 32 :: 45 :: 32 :: shown)) := by
    rw [heading, hseparator]
    simp only [List.append_assoc, List.cons_append, List.nil_append]
  refine ⟨⟨d.sender, topicField d, content⟩, by rw [contentOf, hcontent, Option.map_some], ?_⟩
  simp only [readPublication, htext, cut_append (blank_address d.sender),
    cut_append hlegible.topic, cut_append hlabel, List.drop_succ_cons, List.drop_zero, hread,
    readAddress_text, Option.map_some]

end Reading

section Showing

variable {fd : Int} {s s' : Session} {past log : List Log}

def Tells (line : Bytes) (d : Datagram) : Prop :=
  ∃ content, contentOf d = some content ∧ readPublication line = some content

def datagramOf : Turn → Option Datagram
  | .serves _ (.datagram received) => received
  | .serves _ (.line _) | .serves _ (.connection ..) | .serves _ (.readable ..) => none
  | .answers .. | .closes | .types .. | .reads _ | .awaits _ => none

theorem written_eq (fd : Int) (out : List Effect) :
    written fd out = (Connections.wires fd out).filterMap Frame.decode := by
  rw [written, Connections.wires, List.filterMap_filterMap]
  refine List.filterMap_congr fun effect _ => ?_
  cases effect with
  | wrote fd' wire =>
    by_cases hfd : fd' = fd
    · simp [hfd]
    · simp [hfd]
  | closed | printed | complained => rfl

/-- A bare frame is not a publication. -/
theorem publications_wrote {fd' : Int} {command : UInt8} (h : command ≠ msgFromUdp)
    (rest : List Effect) (hrest : written fd rest = []) :
    publications (written fd (.wrote fd' (Frame.bare command).encode :: rest)) = [] := by
  by_cases hfd : fd' = fd
  · subst hfd
    have hone : written fd' (.wrote fd' (Frame.bare command).encode :: rest) =
        [Frame.bare command] := by
      simp only [written, List.filterMap_cons, if_true, Frame.decode_encode]
      exact congrArg _ hrest
    rw [hone, publications_bare h]
  · rw [written_other hfd, hrest]
    rfl

theorem publicationOf_eq_some {d : Datagram} {f : Frame}
    (h : Connections.publicationOf (.datagram (some d)) = some f) :
    ∃ topic text, formattedMsg d = .ok (topic, some text) ∧
      ∃ hlength, f = publicationFrame text hlength := by
  simp only [Connections.publicationOf] at h
  split at h
  · rename_i topic text hformat
    split_ifs at h with hlength
    exact ⟨topic, text, hformat, hlength, (Option.some.inj h).symm⟩
  all_goals simp at h

/-- Only a datagram makes the server publish on a session, and then its text. -/
theorem published_turn {t : Turn} (hlive : s.closed = false → Live fd s.server)
    (h : turn fd s t = some (s', log)) :
    publishedIn log = [] ∨ ∃ d topic text, datagramOf t = some d ∧
      formattedMsg d = .ok (topic, some text) ∧ publishedIn log = [text ++ [0]] := by
  cases t with
  | serves env event =>
    obtain ⟨hclosed, -, server, out, hhandle, -, rfl⟩ := serverTurn_ok h
    rw [publishedIn_published]
    cases served (hlive hclosed).1 hhandle with
    | line => exact Or.inl rfl
    | @datagram d _ hact =>
      rw [written_eq]
      rcases Connections.wires_datagram (hlive hclosed).1 hact with
        hnone | ⟨-, f, hf, hcommand, hone⟩
      · rw [hnone]
        exact Or.inl rfl
      · obtain ⟨topic, text, hformat, hlength, rfl⟩ := publicationOf_eq_some hf
        refine Or.inr ⟨d, topic, text, rfl, hformat, ?_⟩
        rw [hone, List.filterMap_cons, Frame.decode_encode]
        rfl
    | refused => exact Or.inl (publications_wrote (by decide) _ rfl)
    | admitted => exact Or.inl (publications_wrote (by decide) _ rfl)
    | left => exact Or.inl rfl
    | answered => exact Or.inl (publications_wrote (answerTo_ne _ _ _) _ rfl)
  | answers env k calls =>
    obtain ⟨-, f, up, server, out, topic, -, -, -, -, rfl⟩ := answerTurn_ok h
    left
    simp [publishedIn]
  | closes =>
    simp only [turn, Option.some.injEq, Prod.mk.injEq] at h
    obtain ⟨-, rfl⟩ := h
    exact Or.inl rfl
  | types env line =>
    have hturned : Turned fd s _ s' log := turned_types h
    cases hturned <;> exact Or.inl rfl
  | reads calls =>
    have hturned : Turned fd s _ s' log := turned_reads h
    cases hturned <;> exact Or.inl rfl
  | awaits calls =>
    have hturned : Turned fd s _ s' log := turned_awaits h
    cases hturned <;> exact Or.inl rfl

/-- The payloads published in a run are of datagrams of the run, in their order. -/
theorem published_run {turns : List Turn} (h : Carried fd s past)
    (hfresh : Along (turn fd) FreshTurn s turns)
    (hlegible : ∀ d ∈ turns.filterMap datagramOf, Legible d)
    (hrun : exec (turn fd) s turns = some (s', log)) :
    List.SublistForall₂ (fun payload d => ∃ text, payload = text ++ [0] ∧ NulFree text ∧
      Tells text d) (publishedIn log) (turns.filterMap datagramOf) := by
  induction turns generalizing s past log with
  | nil =>
    simp only [exec_nil, Option.some.injEq, Prod.mk.injEq] at hrun
    rw [← hrun.2]
    exact List.SublistForall₂.nil
  | cons t turns ih =>
    obtain ⟨s₁, first, rest, hstep, hrest, rfl⟩ := exec_cons.mp hrun
    have hlater := ih (carried_step h hfresh.1 hstep) (hfresh.2 s₁ first hstep)
      (fun d hd => hlegible d (by
        rw [List.filterMap_cons]
        split
        · exact hd
        · exact List.mem_cons_of_mem _ hd)) hrest
    rw [publishedIn_append]
    rcases published_turn h.live hstep with hnone | ⟨d, topic, text, hd, hformat, hone⟩
    · rw [hnone, List.nil_append, List.filterMap_cons]
      split
      · exact hlater
      · exact hlater.cons_right
    · rw [List.filterMap_cons, hd] at hlegible ⊢
      rw [hone, List.singleton_append]
      obtain ⟨content, hcontent, hread⟩ :=
        readPublication_text (hlegible d List.mem_cons_self) hformat
      exact hlater.cons
        ⟨text, rfl, (formattedMsg_text hformat).2.1, content, hcontent, hread⟩

theorem sublistForall₂_of_sublist {α β : Type*} {R : α → β → Prop} {l l' : List α} {m : List β}
    (hsub : l'.Sublist l) (h : List.SublistForall₂ R l m) : List.SublistForall₂ R l' m := by
  induction h generalizing l' with
  | nil =>
    rw [List.sublist_nil.mp hsub]
    exact List.SublistForall₂.nil
  | cons hab _ ih =>
    cases hsub with
    | cons _ hsub => exact (ih hsub).cons_right
    | cons_cons _ hsub => exact (ih hsub).cons hab
  | cons_right _ ih => exact (ih hsub).cons_right

end Showing

end ServerClientApp.PublishedTexts
