import ServerClientApp.Datagrams

/-!
The numbers in the texts sent to the subscribers, compared with the numbers in
the datagrams. A decimal text is read back digit by digit; the two formats for
fractions lose nothing, the one for integers holds a sign and 32 bits and is
printed as a signed number of 32 bits.
-/

namespace ServerClientApp.NumberTexts

open Protocols Rounding Wildcards Datagrams

section Digits

def chars (text : Bytes) : List Char := text.map fun b => Char.ofNat b.toNat

/-- The number a text of decimal digits stands for. -/
def readDecimal (text : Bytes) : ℕ := Nat.ofDigitChars 10 (chars text) 0

theorem chars_append (s t : Bytes) : chars (s ++ t) = chars s ++ chars t := List.map_append

theorem chars_decimal (n : ℕ) : chars (decimal n) = Nat.toDigits 10 n := by
  unfold chars decimal
  rw [List.map_map]
  refine (List.map_congr_left ?_).trans (List.map_id _)
  intro c hc
  have hhi := (toDigits_digit hc).2
  simp only [Function.comp_apply, id_eq]
  rw [UInt8.toNat_ofNat_of_lt' (show c.toNat < 256 by omega), Char.ofNat_toNat]

theorem readDecimal_decimal (n : ℕ) : readDecimal (decimal n) = n := by
  unfold readDecimal
  rw [chars_decimal]
  exact Nat.ofDigitChars_ten_toDigits

/-- Different numbers have different texts. -/
theorem decimal_injective {m n : ℕ} (h : decimal m = decimal n) : m = n := by
  have hread := congrArg readDecimal h
  rwa [readDecimal_decimal, readDecimal_decimal] at hread

/-- No text of a number begins with a minus sign. -/
theorem decimal_ne_minus (m : ℕ) (text : Bytes) : decimal m ≠ ascii "-" ++ text := by
  intro h
  have hmem : (45 : UInt8) ∈ decimal m := by
    rw [h]
    exact List.mem_cons_self
  have hlo := (decimal_digit hmem).1
  have : (45 : UInt8).toNat = 45 := rfl
  omega

end Digits

section Integers

def integerDecimal : ℤ → Bytes
  | .ofNat n => decimal n
  | .negSucc n => ascii "-" ++ decimal (n + 1)

theorem integerDecimal_injective {y z : ℤ} (h : integerDecimal y = integerDecimal z) : y = z := by
  cases y with
  | ofNat m =>
    cases z with
    | ofNat n => exact congrArg Int.ofNat (decimal_injective h)
    | negSucc n => exact absurd h (decimal_ne_minus m _)
  | negSucc m =>
    cases z with
    | ofNat n => exact absurd h.symm (decimal_ne_minus n _)
    | negSucc n =>
      have := decimal_injective (List.append_cancel_left h)
      omega

def twosComplement (number : UInt32) : ℤ :=
  if number.toNat < 2 ^ 31 then number.toNat else number.toNat - 2 ^ 32

/-- printf("%d") shows the pattern's value in two's complement. -/
theorem signedDecimal_eq (number : UInt32) :
    signedDecimal number = integerDecimal (twosComplement number) := by
  have hlt := number.toNat_lt
  unfold signedDecimal twosComplement
  split
  · rfl
  · have hneg : (number.toNat : ℤ) - 2 ^ 32 = .negSucc (2 ^ 32 - number.toNat - 1) := by omega
    rw [hneg]
    unfold integerDecimal
    congr 2
    omega

def networkOrder32 (number : UInt32) : Bytes :=
  [UInt8.ofNat (number.toNat / 2 ^ 24), UInt8.ofNat (number.toNat / 2 ^ 16),
    UInt8.ofNat (number.toNat / 2 ^ 8), UInt8.ofNat number.toNat]

/-- ntohl undoes network order. -/
theorem bigEndian32_networkOrder32 (number : UInt32) (rest : Bytes) :
    bigEndian32 (networkOrder32 number ++ rest) = number := by
  have hlt := number.toNat_lt
  apply UInt32.toNat_inj.mp
  simp only [bigEndian32, networkOrder32, List.cons_append, List.nil_append,
    List.getD_cons_zero, List.getD_cons_succ, UInt8.toNat_ofNat', UInt32.toNat_ofNat']
  omega

/-- The integer that a sign and a magnitude stand for. -/
def signedValue (sign : UInt8) (magnitude : UInt32) : ℤ :=
  if sign = 1 then -magnitude.toNat else magnitude.toNat

/-- Multiplied by -1 modulo 2^32 and read as two's complement. -/
theorem twosComplement_neg (number : UInt32) :
    twosComplement (number * (-1)) = -number.toNat ↔ number.toNat ≤ 2 ^ 31 := by
  have hlt := number.toNat_lt
  have hminus : (-1 : UInt32).toNat = 2 ^ 32 - 1 := rfl
  unfold twosComplement
  rw [UInt32.toNat_mul, hminus]
  split <;> omega

theorem twosComplement_pos (number : UInt32) :
    twosComplement number = number.toNat ↔ number.toNat < 2 ^ 31 := by
  unfold twosComplement
  split <;> omega

theorem int_text_iff (number : UInt32) (value : ℤ) :
    (Except.ok (some (ascii "INT - " ++ signedDecimal number)) : Except ReadFault (Option Bytes)) =
        .ok (some (ascii "INT - " ++ integerDecimal value)) ↔ twosComplement number = value := by
  rw [signedDecimal_eq, Except.ok.injEq, Option.some.injEq, List.append_right_inj]
  constructor
  · exact integerDecimal_injective
  · exact congrArg integerDecimal

/-- An integer is shown with its value exactly if 32 bits with a sign hold it. -/
theorem int_shown_iff (sign : UInt8) (magnitude : UInt32) (rest : Bytes)
    (hsign : sign = 0 ∨ sign = 1) :
    interpretUdpPayload 0 (sign :: (networkOrder32 magnitude ++ rest)) =
        .ok (some (ascii "INT - " ++ integerDecimal (signedValue sign magnitude))) ↔
      (sign = 0 ∧ magnitude.toNat < 2 ^ 31) ∨ (sign = 1 ∧ magnitude.toNat ≤ 2 ^ 31) := by
  unfold interpretUdpPayload
  simp only [List.getD_cons_zero, List.drop_succ_cons, List.drop_zero,
    bigEndian32_networkOrder32, int_text_iff]
  have hne : (0 : UInt8) ≠ 1 := by decide
  rcases hsign with rfl | rfl
  · simp only [signedValue, hne, if_false, twosComplement_pos, true_and, false_and, or_false]
  · simp only [signedValue, if_true, twosComplement_neg, hne.symm, true_and, false_and, false_or]

/-- The largest integer that is shown, and its negative. -/
theorem int_shown_largest :
    interpretUdpPayload 0 (0 :: (networkOrder32 2147483647 ++ [0])) =
        .ok (some (ascii "INT - " ++ integerDecimal (signedValue 0 2147483647))) ∧
      interpretUdpPayload 0 (1 :: (networkOrder32 2147483648 ++ [0])) =
        .ok (some (ascii "INT - " ++ integerDecimal (signedValue 1 2147483648))) :=
  ⟨(int_shown_iff 0 2147483647 [0] (by decide)).mpr (by decide),
    (int_shown_iff 1 2147483648 [0] (by decide)).mpr (by decide)⟩

/-- A magnitude of three billion without a sign is shown as a negative number. -/
theorem int_shown_wrapped :
    interpretUdpPayload 0 (0 :: networkOrder32 3000000000) =
        .ok (some (ascii "INT - -1294967296")) ∧
      integerDecimal (signedValue 0 3000000000) = ascii "3000000000" ∧
      interpretUdpPayload 0 (0 :: networkOrder32 3000000000) ≠
        .ok (some (ascii "INT - " ++ integerDecimal (signedValue 0 3000000000))) := by
  refine ⟨by rfl, by rfl, by decide⟩

end Integers

section Fractions

def exactDecimal (places number : ℕ) : Bytes :=
  let digits := decimal (number % 10 ^ places)
  if places = 0 then decimal number
  else decimal (number / 10 ^ places) ++ ascii "." ++
    (List.replicate (places - digits.length) 48 ++ digits)

/-- So many digits behind the point, and without the point the digits read as
the number. -/
theorem exactDecimal_reads (places number : ℕ) (hplaces : 0 < places) :
    ∃ whole fraction, exactDecimal places number = whole ++ ascii "." ++ fraction ∧
      fraction.length = places ∧ readDecimal (whole ++ fraction) = number := by
  have hlength := decimal_length_le hplaces
    (Nat.mod_lt number (show 0 < 10 ^ places by positivity))
  refine ⟨decimal (number / 10 ^ places), List.replicate
    (places - (decimal (number % 10 ^ places)).length) 48 ++ decimal (number % 10 ^ places),
    ?_, ?_, ?_⟩
  · simp [exactDecimal, hplaces.ne']
  · rw [List.length_append, List.length_replicate]
    omega
  · have hzeros (k : ℕ) : chars (List.replicate k 48) = List.replicate k '0' :=
      List.map_replicate
    have hdigits : (Nat.toDigits 10 (number % 10 ^ places)).length =
        (decimal (number % 10 ^ places)).length := (List.length_map _).symm
    unfold readDecimal
    rw [chars_append, chars_append, hzeros, chars_decimal, chars_decimal,
      Nat.ofDigitChars_append, Nat.ofDigitChars_append, Nat.ofDigitChars_ten_toDigits,
      Nat.ofDigitChars_replicate_zero, Nat.ofDigitChars_eq_ofDigitChars_zero,
      Nat.ofDigitChars_ten_toDigits, hdigits, ← mul_assoc, ← pow_add,
      Nat.add_sub_cancel' hlength, Nat.div_add_mod]

/-- A value within less than half a unit of the last place is shown exactly. -/
theorem fixedPoint_eq {places number : ℕ} {x : ℚ} (h : |10 ^ places * x - number| < 1 / 2) :
    fixedPoint places x = exactDecimal places number := by
  have hround : roundHalfEven (x * 10 ^ places) = (number : ℤ) := by
    apply roundHalfEven_eq
    rw [mul_comm]
    exact_mod_cast h
  unfold fixedPoint exactDecimal
  rw [hround, Int.toNat_natCast]

/-- 255 rounded divisions of 32 bits are off by less than half a unit. -/
theorem compounded_small {p m : ℕ} (hp : p ≤ 255) (hm : m < 2 ^ 32) :
    ((1 + 2 ^ (-53 : ℤ)) ^ p - 1) * |(m : ℚ)| < 1 / 2 := by
  have hm' : (m : ℚ) ≤ 2 ^ 32 := by exact_mod_cast hm.le
  calc
    ((1 + 2 ^ (-53 : ℤ)) ^ p - 1) * |(m : ℚ)|
        ≤ ((1 + 2 ^ (-53 : ℤ)) ^ 255 - 1) * 2 ^ 32 := by
          rw [abs_of_nonneg (by positivity)]
          have hone : (1 : ℚ) ≤ 1 + 2 ^ (-53 : ℤ) := by norm_num
          have := one_le_pow₀ hone (n := 255)
          gcongr
    _ < 1 / 2 := by norm_num

variable (rnd : ℚ → ℚ) (hrnd : ∀ x, |rnd x - x| ≤ 2 ^ (-53 : ℤ) * |x|)

include hrnd in
/-- Up to 255 divisions by ten, each rounded, lose no digit of 32 bits. -/
theorem iterate_exact {p m : ℕ} (hp : p ≤ 255) (hm : m < 2 ^ 32) :
    |10 ^ p * (fun y => rnd (y / 10))^[p] m - m| < 1 / 2 :=
  (iterate_div_error (by positivity) hrnd (by norm_num) m p).trans_lt (compounded_small hp hm)

include hrnd in
/-- One rounded division by a hundred loses no digit of 16 bits. -/
theorem hundredth_exact {n : ℕ} (hn : n < 2 ^ 16) :
    |10 ^ 2 * rnd (n / 100) - n| < 1 / 2 := by
  have herr := iterate_div_error (by positivity) hrnd (show (0 : ℚ) < 100 by norm_num) n 1
  have hsmall := compounded_small (show 1 ≤ 255 by omega) (show n < 2 ^ 32 by omega)
  have hscale : (10 : ℚ) ^ 2 = 100 ^ 1 := by norm_num
  rw [hscale]
  exact herr.trans_lt hsmall

theorem double_error (x : ℚ) : |double x - x| ≤ 2 ^ (-53 : ℤ) * |x| := by
  have herr := toPrecision_error 53 x
  rw [mul_comm]
  exact_mod_cast herr

theorem interpretUdpPayload_shortReal (payload : Bytes) :
    interpretUdpPayload 1 payload =
      .ok (some (ascii "SHORT_REAL - " ++ exactDecimal 2 (bigEndian16 payload))) := by
  simp only [interpretUdpPayload]
  rw [fixedPoint_eq (hundredth_exact double double_error (bigEndian16_lt payload))]

theorem interpretUdpPayload_float (payload : Bytes) :
    interpretUdpPayload 2 payload =
      .ok (some (ascii "FLOAT - " ++ (if payload.getD 0 0 = 1 then ascii "-" else []) ++
        exactDecimal (payload.getD 5 0).toNat (bigEndian32 (payload.drop 1)).toNat)) := by
  have hpower : (payload.getD 5 0).toNat ≤ 255 := by
    have := (payload.getD 5 0).toNat_lt
    omega
  have hexact := iterate_exact double double_error hpower (bigEndian32 (payload.drop 1)).toNat_lt
  simp only [interpretUdpPayload, scaleDown]
  rw [fixedPoint_eq hexact]

include hrnd in
/-- With divisions of the precision of a double every fraction is shown exactly,
and so are the two formats for fractions. -/
theorem fractions_exact :
    (∀ m p : ℕ, m < 2 ^ 32 → p ≤ 255 →
      |10 ^ p * (fun y => rnd (y / 10))^[p] m - m| < 1 / 2 ∧
      fixedPoint p ((fun y => rnd (y / 10))^[p] m) = exactDecimal p m) ∧
    (∀ n : ℕ, n < 2 ^ 16 →
      |100 * rnd (n / 100) - n| < 1 / 2 ∧ fixedPoint 2 (rnd (n / 100)) = exactDecimal 2 n) ∧
    ∀ payload : Bytes,
      interpretUdpPayload 1 payload =
        .ok (some (ascii "SHORT_REAL - " ++ exactDecimal 2 (bigEndian16 payload))) ∧
      interpretUdpPayload 2 payload =
        .ok (some (ascii "FLOAT - " ++ (if payload.getD 0 0 = 1 then ascii "-" else []) ++
          exactDecimal (payload.getD 5 0).toNat (bigEndian32 (payload.drop 1)).toNat)) := by
  refine ⟨?_, ?_, ?_⟩
  · intro m p hm hp
    have hexact := iterate_exact rnd hrnd hp hm
    exact ⟨hexact, fixedPoint_eq hexact⟩
  · intro n hn
    have hexact := hundredth_exact rnd hrnd hn
    refine ⟨?_, fixedPoint_eq hexact⟩
    have hscale : (100 : ℚ) = 10 ^ 2 := by norm_num
    rw [hscale] at hexact ⊢
    exact hexact
  · intro payload
    exact ⟨interpretUdpPayload_shortReal payload, interpretUdpPayload_float payload⟩

/-- The largest power and the largest hundredth, with doubles. -/
theorem fractions_exact_double :
    |10 ^ 255 * (fun y => double (y / 10))^[255] (4294967295 : ℕ) - (4294967295 : ℕ)| < 1 / 2 ∧
      fixedPoint 2 (double ((65535 : ℕ) / 100)) = exactDecimal 2 65535 :=
  ⟨((fractions_exact double double_error).1 4294967295 255 (by decide) (by decide)).1,
    ((fractions_exact double double_error).2.1 65535 (by decide)).2⟩

example : exactDecimal 3 42 = ascii "0.042" := by rfl

end Fractions

end ServerClientApp.NumberTexts
