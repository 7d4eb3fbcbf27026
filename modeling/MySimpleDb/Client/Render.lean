import MySimpleDb.Lib.Numeral
import MySimpleDb.Server.ResultStreamExact

/-!
# Numerics shown by the client

The client holds a numeric as the 16 bytes of a cell.  It negates them byte by
byte and divides them by ten with a running remainder; the text is the one the
server prints for the numeric.
-/

namespace MySimpleDb.Client

open MySimpleDb.Lib MySimpleDb.Storage MySimpleDb.Proto MySimpleDb.Server

/-! ## Division by ten -/

/-- One pass of division by ten, from the first byte on: the quotient and the remainder. -/
def divTen : Nat → Bytes → Bytes × Nat
  | carry, [] => ([], carry)
  | carry, b :: rest =>
      let cur := carry * 256 + b.toNat
      let (quotient, carry) := divTen (cur % 10) rest
      (UInt8.ofNat (cur / 10) :: quotient, carry)

theorem length_divTen (carry : Nat) (bytes : Bytes) :
    (divTen carry bytes).1.length = bytes.length := by
  induction bytes generalizing carry with
  | nil => rfl
  | cons b rest inductionHypothesis => simp [divTen, inductionHypothesis]

/-- A pass divides the number in the bytes with the carry in front of it. -/
theorem divTen_spec {carry : Nat} (digit : carry < 10) (bytes : Bytes) :
    (divTen carry bytes).2 < 10 ∧
      bigNat (divTen carry bytes).1 * 10 + (divTen carry bytes).2 =
        carry * 256 ^ bytes.length + bigNat bytes := by
  induction bytes generalizing carry with
  | nil => simp [divTen, digit, bigNat, ofBytes]
  | cons b rest inductionHypothesis =>
      have byte := b.toNat_lt
      have remainder : (carry * 256 + b.toNat) % 10 < 10 := Nat.mod_lt _ (by decide)
      obtain ⟨small, value⟩ := inductionHypothesis remainder
      refine ⟨small, ?_⟩
      have quotient : (UInt8.ofNat ((carry * 256 + b.toNat) / 10)).toNat =
          (carry * 256 + b.toNat) / 10 := by
        rw [UInt8.toNat_ofNat']
        omega
      have divided := Nat.div_add_mod (carry * 256 + b.toNat) 10
      simp only [divTen, bigNat_cons, length_divTen, quotient, List.length_cons, pow_succ]
      calc (bigNat (divTen ((carry * 256 + b.toNat) % 10) rest).1 +
            256 ^ rest.length * ((carry * 256 + b.toNat) / 10)) * 10 +
            (divTen ((carry * 256 + b.toNat) % 10) rest).2
          = bigNat (divTen ((carry * 256 + b.toNat) % 10) rest).1 * 10 +
            (divTen ((carry * 256 + b.toNat) % 10) rest).2 +
            256 ^ rest.length * (10 * ((carry * 256 + b.toNat) / 10)) := by ring
        _ = 256 ^ rest.length * (10 * ((carry * 256 + b.toNat) / 10) +
            (carry * 256 + b.toNat) % 10) + bigNat rest := by rw [value]; ring
        _ = carry * (256 ^ rest.length * 256) +
            (bigNat rest + 256 ^ rest.length * b.toNat) := by rw [divided]; ring

theorem bigNat_divTen (bytes : Bytes) : bigNat (divTen 0 bytes).1 = bigNat bytes / 10 := by
  obtain ⟨small, value⟩ := divTen_spec (by decide : 0 < 10) bytes
  omega

theorem divTen_snd (bytes : Bytes) : (divTen 0 bytes).2 = bigNat bytes % 10 := by
  obtain ⟨small, value⟩ := divTen_spec (by decide : 0 < 10) bytes
  omega

/-- Some byte is not zero exactly if the number is not. -/
theorem any_ne_zero_iff (bytes : Bytes) : bytes.any (· != 0) = true ↔ 0 < bigNat bytes := by
  induction bytes with
  | nil => simp [bigNat, ofBytes]
  | cons b rest inductionHypothesis =>
      have power : 0 < 256 ^ rest.length := by positivity
      rw [List.any_cons, Bool.or_eq_true, inductionHypothesis, bigNat_cons, bne_iff_ne, ne_eq,
        ← UInt8.toNat_inj, UInt8.toNat_zero, Nat.add_pos_iff_pos_or_pos, or_comm,
        Nat.mul_pos_iff_of_pos_left power, Nat.pos_iff_ne_zero, Nat.pos_iff_ne_zero]

/-- The digits gathered from the low end, while a byte is left that is not zero. -/
def lowDigits (bytes : Bytes) : Bytes :=
  if left : bytes.any (· != 0) = true then
    UInt8.ofNat (48 + (divTen 0 bytes).2) :: lowDigits (divTen 0 bytes).1
  else []
termination_by bigNat bytes
decreasing_by
  rw [bigNat_divTen]
  exact Nat.div_lt_self ((any_ne_zero_iff bytes).mp left) (by decide)

theorem lowDigits_eq (bytes : Bytes) :
    lowDigits bytes = (Nat.digits 10 (bigNat bytes)).map fun d => UInt8.ofNat (48 + d) := by
  induction bytes using lowDigits.induct with
  | case1 bytes left inductionHypothesis =>
      have pos := (any_ne_zero_iff bytes).mp left
      rw [lowDigits, dif_pos left, inductionHypothesis, bigNat_divTen, divTen_snd,
        Nat.digits_def' (by decide) pos, List.map_cons]
  | case2 bytes done =>
      have zero : bigNat bytes = 0 := by
        rw [any_ne_zero_iff] at done
        omega
      rw [lowDigits, dif_neg done, zero, Nat.digits_zero, List.map_nil]

/-! ## The text -/

/-- `decimal_text`. -/
def decimalText (c : DecimalCell) : Bytes :=
  let neg := c.bytes.headD 0 &&& 0x80 != 0
  let b := if neg then (addOne (c.bytes.map (~~~ ·))).2 else c.bytes
  let digits := lowDigits b
  let digits := if digits.isEmpty then [48] else digits
  let digits := digits.reverse
  if c.scale = 0 then if neg then 45 :: digits else digits
  else
    let digits :=
      if digits.length ≤ c.scale then
        List.replicate (c.scale - digits.length + 1) 48 ++ digits
      else digits
    (if neg then [45] else []) ++
      (digits.take (digits.length - c.scale) ++ 46 :: digits.drop (digits.length - c.scale))

theorem reverse_lowDigits (bytes : Bytes) :
    (if (lowDigits bytes).isEmpty then [48] else lowDigits bytes).reverse =
      natToText (bigNat bytes) := by
  rw [natToText, lowDigits_eq]
  by_cases zero : bigNat bytes = 0
  · rw [zero]
    rfl
  · have some : ((Nat.digits 10 (bigNat bytes)).map fun d => UInt8.ofNat (48 + d)).isEmpty =
        false := by
      rw [List.isEmpty_eq_false_iff, Ne, List.map_eq_nil_iff, Nat.digits_eq_nil_iff_eq_zero]
      exact zero
    rw [if_neg zero, some, if_neg Bool.false_ne_true, List.map_reverse]

theorem and_top_ne_zero_iff (b : UInt8) : (b &&& 0x80 != 0) = true ↔ 128 ≤ b.toNat := by
  have table : ∀ n < 256, n &&& 128 ≠ 0 ↔ 128 ≤ n := by decide +kernel
  rw [bne_iff_ne, ne_eq, ← UInt8.toNat_inj, UInt8.toNat_and]
  exact table b.toNat b.toNat_lt

/-- The first bit of 16 bytes tells whether the number is in the upper half. -/
theorem top_bit_iff {bytes : Bytes} (length : bytes.length = 16) :
    (bytes.headD 0 &&& 0x80 != 0) = true ↔ 2 ^ 127 ≤ bigNat bytes := by
  rcases bytes with _ | ⟨b, rest⟩
  · cases length
  · rw [List.length_cons, Nat.add_right_cancel_iff] at length
    have below := bigNat_lt rest
    rw [length] at below
    rw [List.headD_cons, and_top_ne_zero_iff, bigNat_cons, length]
    omega

/-- On any 16 bytes the client shows what the server prints for the numeric they stand for. -/
theorem decimalText_eq {c : DecimalCell} (length : c.bytes.length = 16) :
    decimalText c = decimalToText (decimalOf c) := by
  have sign := top_bit_iff length
  have below := bigNat_lt c.bytes
  rw [length] at below
  have value : (decimalOf c).unscaled =
      if 2 ^ 127 ≤ bigNat c.bytes then (bigNat c.bytes : Int) - 2 ^ 128
      else (bigNat c.bytes : Int) := rfl
  have negative : (c.bytes.headD 0 &&& 0x80 != 0) = true ↔ (decimalOf c).unscaled < 0 := by
    rw [sign, value]
    split <;> omega
  have magnitude : bigNat (if c.bytes.headD 0 &&& 0x80 != 0 then
      (addOne (c.bytes.map (~~~ ·))).2 else c.bytes) = (decimalOf c).unscaled.natAbs := by
    rw [value]
    by_cases upper : 2 ^ 127 ≤ bigNat c.bytes
    · have pos : 0 < bigNat c.bytes := by omega
      rw [if_pos (sign.mpr upper), if_pos upper, bigNat_addOne_complement pos, length]
      omega
    · rw [if_neg (mt sign.mp upper), if_neg upper]
      omega
  have scale : (decimalOf c).scale = c.scale := rfl
  unfold decimalText decimalToText fixedText
  dsimp only
  rw [reverse_lowDigits, magnitude, scale]
  by_cases none : c.scale = 0
  · simp only [if_pos none, negative]
  · have padded : (if (natToText (decimalOf c).unscaled.natAbs).length ≤ c.scale then
          List.replicate (c.scale - (natToText (decimalOf c).unscaled.natAbs).length + 1) 48 ++
            natToText (decimalOf c).unscaled.natAbs
        else natToText (decimalOf c).unscaled.natAbs) =
        List.replicate (c.scale + 1 - (natToText (decimalOf c).unscaled.natAbs).length) 48 ++
          natToText (decimalOf c).unscaled.natAbs := by
      split
      · rw [Nat.sub_add_comm (by assumption)]
      · rw [Nat.sub_eq_zero_of_le (by omega)]
        rfl
    rw [padded]
    simp only [if_neg none, negative]
    split <;> rfl

/-! ## Through the wire -/

/-- The client shows the numeric the server holds: the cell the server builds is taken from
the bytes as it was, and its text is the text of the numeric. -/
theorem decimalText_sent {d : DecimalVal} (bounded : d.Bounded) (rest : Bytes) :
    ∃ c, takeCell (appendCell (.decimal (decCell d)) ++ rest) = some (.decimal c, rest) ∧
      decimalText c = decimalToText d := by
  obtain ⟨same, length⟩ := decimalOf_decCell bounded
  have scale : (decCell d).scale < 256 := Nat.lt_succ_of_le bounded.2
  have short : ShortText (cellBox (.decimal (decCell d))) := by
    intro s none
    cases none
  have sized : CellSized (.decimal (decCell d)) := ⟨length, scale⟩
  refine ⟨decCell d, (reads_cell sized short).exact rest, ?_⟩
  rw [decimalText_eq length, same]

/-- A negative numeric below one. -/
theorem decimalText_sent_small :
    ∃ c, takeCell (appendCell (.decimal (decCell ⟨-5, 3⟩)) ++ []) = some (.decimal c, []) ∧
      decimalText c = ascii "-0.005" := by
  have text : decimalToText ⟨-5, 3⟩ = ascii "-0.005" := by decide +kernel
  rw [← text]
  exact decimalText_sent ⟨by decide, by decide⟩ []

end MySimpleDb.Client
