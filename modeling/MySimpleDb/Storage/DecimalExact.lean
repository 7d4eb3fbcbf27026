import MySimpleDb.Lib.Numeral
import MySimpleDb.Storage.CastSafe

/-!
# Decimal texts

The texts that are decimal numerals and the numbers they denote.  The scanner
reads them and no others, within its limits, without rounding, and it reads what
the printer writes as the numeric that was printed.
-/

namespace MySimpleDb.Storage

open MySimpleDb.Lib

/-! ## Numerals -/

/-- An optional sign. -/
inductive SignText : Bytes → Bool → Prop
  | none : SignText [] false
  | plus : SignText [43] false
  | minus : SignText [45] true

/-- An optional exponent. -/
inductive ExponentText : Bytes → Int → Prop
  | none : ExponentText [] 0
  | some {mark : UInt8} {sign digits : Bytes} {neg : Bool} (isMark : mark = 101 ∨ mark = 69)
      (isSign : SignText sign neg) (nonempty : digits ≠ []) (all : digits.all isDigit = true) :
      ExponentText (mark :: (sign ++ digits))
        (if neg then -(digitsVal digits : Int) else digitsVal digits)

/-- A sign, digits with an optional point and an exponent; the point may have no digits on
one side. -/
structure DecimalText (s : Bytes) (neg : Bool) (whole frac : Bytes) (e : Int) : Prop where
  parts : ∃ sign point exponent : Bytes, s = sign ++ (whole ++ (point ++ exponent)) ∧
    SignText sign neg ∧ (point = [] ∧ frac = [] ∨ point = 46 :: frac) ∧ ExponentText exponent e
  whole_all : whole.all isDigit = true
  frac_all : frac.all isDigit = true
  nonempty : whole ++ frac ≠ []

/-- The number denoted by a numeral with these parts. -/
def denoted (neg : Bool) (whole frac : Bytes) (e : Int) : ℚ :=
  (if neg then -1 else 1) * digitsVal (whole ++ frac) * 10 ^ (e - frac.length)

/-- The limits of the scanner: of the exponent, of the digits read, of the value once the
scale is not negative, and of the scale. -/
structure InLimits (whole frac : Bytes) (e : Int) : Prop where
  exponent : |e| ≤ 1000
  digits : (digitsVal (whole ++ frac) : Int) < kNumericUnscaledMax
  value : (digitsVal (whole ++ frac) : Int) * 10 ^ (e - frac.length).toNat < kNumericUnscaledMax
  scale : frac.length - e ≤ 255

/-! ## Reading digits -/

/-- A text that does not go on with a digit. -/
def NoDigit (s : Bytes) : Prop :=
  ∀ c ∈ s.head?, isDigit c = false

theorem exists_digits (s : Bytes) :
    ∃ digits rest : Bytes, s = digits ++ rest ∧ digits.all isDigit = true ∧ NoDigit rest := by
  refine ⟨s.takeWhile isDigit, s.dropWhile isDigit, List.takeWhile_append_dropWhile.symm, ?_, ?_⟩
  · exact List.all_takeWhile
  · intro c mem
    have := List.head?_dropWhile_not isDigit s
    rw [Option.mem_def.mp mem] at this
    simpa using this

/-- All digits there are read, unless the limit is reached on the way. -/
theorem takeDigits_go_append (frac : Bool) {digits rest : Bytes} (all : digits.all isDigit = true)
    (stop : NoDigit rest) {u : Int} (nonneg : 0 ≤ u) (below : u < kNumericUnscaledMax)
    (scale : Int) (any : Bool) :
    takeDigits.go frac (digits ++ rest) u scale any =
      if kNumericUnscaledMax ≤ u * 10 ^ digits.length + digitsVal digits then
        dbRaise .valueMismatch "数值超出 numeric 可表示范围"
      else .ok ⟨u * 10 ^ digits.length + digitsVal digits,
        scale + (if frac then digits.length else 0 : Nat), any || !digits.isEmpty, rest⟩ := by
  induction digits generalizing u scale any with
  | nil =>
      have same : u * 10 ^ ([] : Bytes).length + (digitsVal [] : Nat) = u := by simp
      rw [same, if_neg (not_le.mpr below), List.nil_append]
      cases rest with
      | nil => cases frac <;> simp [takeDigits.go]
      | cons c rest =>
          have other := stop c rfl
          cases frac <;> simp [takeDigits.go, other]
  | cons c digits inductionHypothesis =>
      rw [List.all_cons, Bool.and_eq_true] at all
      rw [List.cons_append, takeDigits.go, if_pos all.1]
      have grown : 0 ≤ u * 10 + (digitVal c : Int) := by positivity
      have value : u * 10 ^ (c :: digits).length + (digitsVal (c :: digits) : Nat) =
          (u * 10 + digitVal c) * 10 ^ digits.length + (digitsVal digits : Nat) := by
        rw [digitsVal_cons, List.length_cons]
        push_cast
        ring
      rw [value]
      dsimp only
      by_cases past : kNumericUnscaledMax ≤ u * 10 + (digitVal c : Int)
      · have power : (1 : Int) ≤ 10 ^ digits.length := one_le_pow₀ (by decide)
        have later : kNumericUnscaledMax ≤
            (u * 10 + digitVal c) * 10 ^ digits.length + (digitsVal digits : Nat) := by
          calc kNumericUnscaledMax ≤ u * 10 + digitVal c := past
            _ ≤ (u * 10 + digitVal c) * 10 ^ digits.length := le_mul_of_one_le_right grown power
            _ ≤ _ := le_add_of_nonneg_right (by positivity)
        rw [if_pos past, if_pos later]
      · rw [if_neg past, inductionHypothesis all.2 grown (not_le.mp past)]
        have length : (if frac = true then scale + 1 else scale) +
            (if frac = true then digits.length else 0 : Nat) =
            scale + (if frac = true then (c :: digits).length else 0 : Nat) := by
          cases frac
          · simp
          · simp only [if_true, List.length_cons]
            push_cast
            ring
        rw [length]
        simp

/-- The exponent's digits are read within the limit of 1000. -/
theorem takeExponent_append {digits rest : Bytes} (all : digits.all isDigit = true)
    (stop : NoDigit rest) {e : Int} (nonneg : 0 ≤ e) (below : e ≤ 1000) (any : Bool) :
    takeExponent (digits ++ rest) e any =
      if 1000 < e * 10 ^ digits.length + digitsVal digits then
        dbRaise .valueMismatch "数值超出 numeric 可表示范围"
      else .ok (e * 10 ^ digits.length + digitsVal digits, any || !digits.isEmpty, rest) := by
  induction digits generalizing e any with
  | nil =>
      have same : e * 10 ^ ([] : Bytes).length + (digitsVal [] : Nat) = e := by simp
      rw [same, if_neg (not_lt.mpr below), List.nil_append]
      cases rest with
      | nil => simp [takeExponent]
      | cons c rest =>
          have other := stop c rfl
          simp [takeExponent, other]
  | cons c digits inductionHypothesis =>
      rw [List.all_cons, Bool.and_eq_true] at all
      rw [List.cons_append, takeExponent, if_pos all.1]
      have grown : 0 ≤ e * 10 + (digitVal c : Int) := by positivity
      have value : e * 10 ^ (c :: digits).length + (digitsVal (c :: digits) : Nat) =
          (e * 10 + digitVal c) * 10 ^ digits.length + (digitsVal digits : Nat) := by
        rw [digitsVal_cons, List.length_cons]
        push_cast
        ring
      rw [value]
      dsimp only
      by_cases past : 1000 < e * 10 + (digitVal c : Int)
      · have power : (1 : Int) ≤ 10 ^ digits.length := one_le_pow₀ (by decide)
        have later : 1000 < (e * 10 + digitVal c) * 10 ^ digits.length + (digitsVal digits : Nat) := by
          calc 1000 < e * 10 + digitVal c := past
            _ ≤ (e * 10 + digitVal c) * 10 ^ digits.length := le_mul_of_one_le_right grown power
            _ ≤ _ := le_add_of_nonneg_right (by positivity)
        rw [if_pos past, if_pos later]
      · rw [if_neg past, inductionHypothesis all.2 grown (not_lt.mp past)]
        simp

/-- Multiplying up stays within the limit exactly if the result does. -/
theorem scaleUp_eq (n : Nat) {u : Int} (nonneg : 0 ≤ u) (below : u < kNumericUnscaledMax) :
    scaleUp n u = if kNumericUnscaledMax ≤ u * 10 ^ n then
        dbRaise .valueMismatch "数值超出 numeric 可表示范围"
      else .ok (u * 10 ^ n) := by
  induction n generalizing u with
  | zero =>
      rw [pow_zero, mul_one, if_neg (not_le.mpr below)]
      rfl
  | succ n inductionHypothesis =>
      have value : u * 10 ^ (n + 1) = u * 10 * 10 ^ n := by ring
      rw [scaleUp, value]
      by_cases past : kNumericUnscaledMax ≤ u * 10
      · have power : (1 : Int) ≤ 10 ^ n := one_le_pow₀ (by decide)
        have later : kNumericUnscaledMax ≤ u * 10 * 10 ^ n :=
          past.trans (le_mul_of_one_le_right (by positivity) power)
        rw [if_pos past, if_pos later]
      · rw [if_neg past, inductionHypothesis (by positivity) (not_le.mp past)]

/-! ## The scanner in parts -/

/-- The exponent part, and the text behind it. -/
def exponentPart (s : Bytes) : Res (Int × Bytes) :=
  match s with
  | c :: rest =>
      if c = 101 ∨ c = 69 then do
        let (eneg, rest) := takeSign rest
        let (e, eany, rest) ← takeExponent rest 0 false
        if !eany then
          dbRaise .valueMismatch "字符串转数值失败"
        pure (if eneg then -e else e, rest)
      else pure (0, s)
  | [] => pure (0, [])

/-- The value with its scale made non-negative. -/
def scaled (neg : Bool) (scale u : Int) : Res DecimalVal := do
  let u ← if scale < 0 then scaleUp scale.natAbs u else pure u
  let scale := if scale < 0 then 0 else scale
  if 255 < scale then
    dbRaise .valueMismatch "数值超出 numeric 可表示范围"
  pure ⟨if neg then -u else u, scale.toNat⟩

/-- What follows the mantissa. -/
def finished (neg : Bool) (scan : DecimalScan) : Res DecimalVal := do
  if !scan.any then
    dbRaise .valueMismatch "字符串转数值失败"
  let (e, rest) ← exponentPart scan.rest
  if rest ≠ [] then
    dbRaise .valueMismatch "字符串转数值失败"
  scaled neg (scan.scale - e) scan.unscaled

/-- The part behind the point. -/
def fraction (scan : DecimalScan) : Res DecimalScan :=
  match scan.rest with
  | 46 :: rest => takeDigits true { scan with rest := rest }
  | _ => pure scan

theorem parseDecimalText_parts (s : Bytes) :
    parseDecimalText s = (do
      let scan ← takeDigits false { rest := (takeSign s).2 }
      let scan ← fraction scan
      finished (takeSign s).1 scan) := by
  unfold parseDecimalText
  rcases takeSign s with ⟨neg, s⟩
  refine congrArg (takeDigits false { rest := s } >>= ·) (funext fun scan => ?_)
  extract_lets afterFraction
  have same : ∀ scan, afterFraction scan = finished neg scan := by
    rintro ⟨u, scale, any, rest⟩
    cases any with
    | false => rfl
    | true =>
        cases rest with
        | nil => rfl
        | cons c rest =>
            unfold afterFraction finished exponentPart
            by_cases mark : c = 101 ∨ c = 69
            · simp only [if_pos mark]
              rcases takeSign rest with ⟨eneg, rest⟩
              rcases takeExponent rest 0 false with err | ⟨e, eany, rest⟩
              · rfl
              · cases eany <;> rfl
            · simp only [if_neg mark]
              rfl
  have joined : ∀ next : Res DecimalScan,
      (next >>= fun scan => afterFraction scan) = next >>= finished neg := by
    intro next
    exact congrArg (next >>= ·) (funext same)
  by_cases point : ∃ rest, scan.rest = 46 :: rest
  · obtain ⟨rest, rest_eq⟩ := point
    unfold fraction
    rw [rest_eq]
    exact joined _
  · have plain : fraction scan = pure scan := by
      unfold fraction
      split
      · rename_i rest rest_eq
        exact absurd ⟨rest, rest_eq⟩ point
      · rfl
    rw [plain]
    split
    · rename_i rest rest_eq
      exact absurd ⟨rest, rest_eq⟩ point
    · exact joined (pure scan)

/-! ## Signs -/

/-- A text that does not begin with a sign. -/
def NoSign (s : Bytes) : Prop :=
  ∀ c ∈ s.head?, c ≠ 43 ∧ c ≠ 45

theorem exists_sign (s : Bytes) :
    ∃ sign, SignText sign (takeSign s).1 ∧ s = sign ++ (takeSign s).2 := by
  unfold takeSign
  split
  · exact ⟨[43], .plus, rfl⟩
  · exact ⟨[45], .minus, rfl⟩
  · exact ⟨[], .none, rfl⟩

theorem takeSign_append {sign : Bytes} {neg : Bool} (isSign : SignText sign neg) {s : Bytes}
    (other : NoSign s) : takeSign (sign ++ s) = (neg, s) := by
  cases isSign with
  | plus => rfl
  | minus => rfl
  | none =>
      rw [List.nil_append]
      unfold takeSign
      split
      · exact absurd rfl (other 43 rfl).1
      · exact absurd rfl (other 45 rfl).2
      · rfl

theorem noSign_of_all {digits : Bytes} (all : digits.all isDigit = true) : NoSign digits := by
  intro c mem
  have digit := List.all_eq_true.mp all c (List.mem_of_mem_head? mem)
  constructor
  · rintro rfl
    exact absurd digit (by decide)
  · rintro rfl
    exact absurd digit (by decide)

theorem noDigit_nil : NoDigit [] := by
  intro c mem
  cases mem

/-! ## Exponents -/

theorem exponentPart_mark {mark : UInt8} (isMark : mark = 101 ∨ mark = 69) {s digits rest : Bytes}
    (cut : (takeSign s).2 = digits ++ rest) (all : digits.all isDigit = true)
    (stop : NoDigit rest) (e : Int) :
    exponentPart (mark :: s) = .ok (e, []) ↔
      (digitsVal digits : Int) ≤ 1000 ∧ digits ≠ [] ∧ rest = [] ∧
        e = if (takeSign s).1 then -(digitsVal digits : Int) else digitsVal digits := by
  have read := takeExponent_append all stop le_rfl (by decide) false
  rw [zero_mul, zero_add, ← cut] at read
  unfold exponentPart
  simp only [if_pos isMark, read]
  by_cases past : 1000 < (digitsVal digits : Int)
  · rw [if_pos past]
    constructor
    · intro failed
      cases failed
    · intro parts
      exact absurd parts.1 (not_le.mpr past)
  · rw [if_neg past]
    cases digits with
    | nil =>
        constructor
        · intro failed
          cases failed
        · intro parts
          exact absurd rfl parts.2.1
    | cons c digits =>
        constructor
        · intro done
          cases done
          exact ⟨not_lt.mp past, List.cons_ne_nil _ _, rfl, rfl⟩
        · rintro ⟨-, -, rfl, rfl⟩
          rfl

/-- The exponent parts that are read to the end. -/
theorem exponentPart_eq_ok (s : Bytes) (e : Int) :
    exponentPart s = .ok (e, []) ↔ ExponentText s e ∧ |e| ≤ 1000 := by
  have magnitude : ∀ (neg : Bool) (n : Nat), |if neg then -(n : Int) else n| = n := by
    intro neg n
    cases neg <;> simp
  cases s with
  | nil =>
      constructor
      · intro done
        cases done
        exact ⟨.none, by decide⟩
      · rintro ⟨text, -⟩
        cases text
        rfl
  | cons mark s =>
      by_cases isMark : mark = 101 ∨ mark = 69
      · constructor
        · intro done
          obtain ⟨sign, isSign, cut⟩ := exists_sign s
          obtain ⟨digits, rest, read, all, stop⟩ := exists_digits (takeSign s).2
          obtain ⟨small, nonempty, rfl, rfl⟩ := (exponentPart_mark isMark read all stop e).mp done
          rw [List.append_nil] at read
          refine ⟨?_, (magnitude _ _).trans_le small⟩
          have text := ExponentText.some isMark isSign nonempty all
          have behind : sign ++ digits = s := by
            rw [← read]
            exact cut.symm
          rwa [behind] at text
        · rintro ⟨text, small⟩
          cases text with
          | some isMark isSign nonempty all =>
              rename_i sign digits neg
              have signed := takeSign_append isSign (noSign_of_all all)
              have cut : (takeSign (sign ++ digits)).2 = digits ++ [] := by
                rw [signed, List.append_nil]
              rw [exponentPart_mark isMark cut all noDigit_nil, signed]
              rw [magnitude] at small
              exact ⟨small, nonempty, rfl, rfl⟩
      · constructor
        · intro done
          unfold exponentPart at done
          simp only [if_neg isMark] at done
          cases done
        · rintro ⟨text, -⟩
          cases text with
          | some mark => exact absurd mark isMark

/-! ## Scales -/

theorem scaled_eq_ok (neg : Bool) (scale : Int) {u : Int} (nonneg : 0 ≤ u)
    (below : u < kNumericUnscaledMax) (d : DecimalVal) :
    scaled neg scale u = .ok d ↔
      u * 10 ^ (-scale).toNat < kNumericUnscaledMax ∧ scale ≤ 255 ∧
        d = ⟨if neg then -(u * 10 ^ (-scale).toNat) else u * 10 ^ (-scale).toNat,
          scale.toNat⟩ := by
  by_cases negative : scale < 0
  · have power : scale.natAbs = (-scale).toNat := by omega
    have zero : scale.toNat = 0 := by omega
    unfold scaled
    simp only [if_pos negative, scaleUp_eq _ nonneg below, power, zero]
    by_cases past : kNumericUnscaledMax ≤ u * 10 ^ (-scale).toNat
    · rw [if_pos past]
      constructor
      · intro failed
        cases failed
      · intro parts
        exact absurd parts.1 (not_lt.mpr past)
    · rw [if_neg past]
      constructor
      · intro done
        cases done
        exact ⟨not_le.mp past, by omega, rfl⟩
      · rintro ⟨-, -, rfl⟩
        rfl
  · have power : (-scale).toNat = 0 := by omega
    unfold scaled
    simp only [if_neg negative, power, pow_zero, mul_one]
    by_cases tooLong : 255 < scale
    · simp only [if_pos tooLong]
      constructor
      · intro failed
        cases failed
      · intro parts
        exact absurd parts.2.1 (not_le.mpr tooLong)
    · simp only [if_neg tooLong]
      constructor
      · intro done
        cases done
        exact ⟨below, not_lt.mp tooLong, rfl⟩
      · rintro ⟨-, -, rfl⟩
        rfl

theorem finished_eq_ok (neg : Bool) (scan : DecimalScan) (d : DecimalVal) :
    finished neg scan = .ok d ↔
      scan.any = true ∧ ∃ e, exponentPart scan.rest = .ok (e, []) ∧
        scaled neg (scan.scale - e) scan.unscaled = .ok d := by
  rcases scan with ⟨u, scale, any, rest⟩
  unfold finished
  cases any with
  | false =>
      constructor
      · intro failed
        cases failed
      · intro parts
        cases parts.1
  | true =>
      dsimp only
      rcases exponentPart rest with err | ⟨e, rest⟩
      · constructor
        · intro failed
          cases failed
        · rintro ⟨-, e, failed, -⟩
          cases failed
      · cases rest with
        | nil =>
            constructor
            · intro done
              exact ⟨rfl, e, rfl, done⟩
            · rintro ⟨-, e, same, done⟩
              cases same
              exact done
        | cons c rest =>
            constructor
            · intro failed
              cases failed
            · rintro ⟨-, e, failed, -⟩
              cases failed

/-! ## The mantissa -/

/-- A text cut into a sign, the digits on the two sides of the point, and what follows. -/
structure Cut (s : Bytes) (neg : Bool) (whole frac tail : Bytes) : Prop where
  parts : ∃ sign point : Bytes, s = sign ++ (whole ++ (point ++ tail)) ∧ SignText sign neg ∧
    takeSign s = (neg, whole ++ (point ++ tail)) ∧
    (point = [] ∧ frac = [] ∧ 46 ∉ tail.head? ∨ point = 46 :: frac)
  whole_all : whole.all isDigit = true
  frac_all : frac.all isDigit = true
  stop : NoDigit tail

theorem exists_cut (s : Bytes) : ∃ neg whole frac tail, Cut s neg whole frac tail := by
  obtain ⟨sign, isSign, signed⟩ := exists_sign s
  obtain ⟨whole, rest, read, whole_all, stop⟩ := exists_digits (takeSign s).2
  by_cases point : 46 ∈ rest.head?
  · obtain ⟨behind, rfl⟩ := List.head?_eq_some_iff.mp point
    obtain ⟨frac, tail, rfl, frac_all, stop⟩ := exists_digits behind
    refine ⟨(takeSign s).1, whole, frac, tail, ⟨sign, 46 :: frac, ?_, isSign, ?_, Or.inr rfl⟩,
      whole_all, frac_all, stop⟩
    · rw [List.cons_append, ← read]
      exact signed
    · rw [List.cons_append, ← read]
  · refine ⟨(takeSign s).1, whole, [], rest, ⟨sign, [], ?_, isSign, ?_, Or.inl ⟨rfl, rfl, point⟩⟩,
      whole_all, rfl, stop⟩
    · rw [List.nil_append, ← read]
      exact signed
    · rw [List.nil_append, ← read]

/-- The scanner on a text that is cut. -/
theorem Cut.parseDecimalText_eq {s : Bytes} {neg : Bool} {whole frac tail : Bytes}
    (cut : Cut s neg whole frac tail) :
    parseDecimalText s = if kNumericUnscaledMax ≤ (digitsVal (whole ++ frac) : Int) then
        dbRaise .valueMismatch "数值超出 numeric 可表示范围"
      else finished neg ⟨digitsVal (whole ++ frac), frac.length, !(whole ++ frac).isEmpty,
        tail⟩ := by
  obtain ⟨sign, point, -, -, signed, shape⟩ := cut.parts
  rw [parseDecimalText_parts, signed]
  have zero : (0 : Int) < kNumericUnscaledMax := by decide
  rcases shape with ⟨rfl, rfl, other⟩ | rfl
  · have read := takeDigits_go_append false cut.whole_all cut.stop le_rfl zero 0 false
    rw [zero_mul, zero_add] at read
    dsimp only [takeDigits]
    rw [List.nil_append, List.append_nil, read]
    split
    · rfl
    · have kept : ∀ scan : DecimalScan, scan.rest = tail → fraction scan = .ok scan := by
        rintro scan rfl
        unfold fraction
        split
        · rename_i rest rest_eq
          rw [rest_eq] at other
          exact absurd rfl other
        · rfl
      exact congrArg (· >>= finished neg) (kept _ rfl)
  · have stopWhole : NoDigit ((46 :: frac) ++ tail) := by
      rintro c mem
      cases mem
      rfl
    have read := takeDigits_go_append false cut.whole_all stopWhole le_rfl zero 0 false
    rw [zero_mul, zero_add] at read
    dsimp only [takeDigits]
    rw [read]
    have value : (digitsVal (whole ++ frac) : Int) =
        digitsVal whole * 10 ^ frac.length + digitsVal frac := by
      rw [digitsVal_append]
      push_cast
      rfl
    by_cases past : kNumericUnscaledMax ≤ (digitsVal whole : Int)
    · have power : (1 : Int) ≤ 10 ^ frac.length := one_le_pow₀ (by decide)
      have later : kNumericUnscaledMax ≤ (digitsVal (whole ++ frac) : Int) := by
        rw [value]
        calc kNumericUnscaledMax ≤ (digitsVal whole : Int) := past
          _ ≤ digitsVal whole * 10 ^ frac.length := le_mul_of_one_le_right (by positivity) power
          _ ≤ _ := le_add_of_nonneg_right (by positivity)
      rw [if_pos past, if_pos later]
      rfl
    · have readFrac := takeDigits_go_append true cut.frac_all cut.stop
        (Int.natCast_nonneg (digitsVal whole)) (not_le.mp past) 0 (!whole.isEmpty)
      rw [if_neg past]
      change (takeDigits.go true (frac ++ tail) (digitsVal whole) 0 (!whole.isEmpty) >>=
        finished neg) = _
      rw [readFrac, value]
      split
      · rfl
      · simp only [if_true, zero_add]
        have any : (!whole.isEmpty || !frac.isEmpty) = !(whole ++ frac).isEmpty := by
          cases whole <;> rfl
        rw [any]
        rfl

theorem DecimalText.cut {s : Bytes} {neg : Bool} {whole frac : Bytes} {e : Int}
    (text : DecimalText s neg whole frac e) :
    ∃ tail, Cut s neg whole frac tail ∧ ExponentText tail e := by
  obtain ⟨sign, point, exponent, rfl, isSign, shape, isExponent⟩ := text.parts
  have mark : ∀ c ∈ exponent.head?, c = 101 ∨ c = 69 := by
    intro c mem
    cases isExponent with
    | none => cases mem
    | some isMark =>
        cases mem
        exact isMark
  have stop : NoDigit exponent := by
    intro c mem
    rcases mark c mem with rfl | rfl <;> rfl
  have noSign : NoSign (whole ++ (point ++ exponent)) := by
    rcases whole with _ | ⟨c, whole⟩
    · rcases shape with ⟨-, rfl⟩ | rfl
      · exact absurd rfl text.nonempty
      · rintro c mem
        cases mem
        decide
    · intro x mem
      cases mem
      exact noSign_of_all text.whole_all c rfl
  refine ⟨exponent, ⟨⟨sign, point, rfl, isSign, takeSign_append isSign noSign, ?_⟩,
    text.whole_all, text.frac_all, stop⟩, isExponent⟩
  rcases shape with ⟨rfl, rfl⟩ | rfl
  · refine Or.inl ⟨rfl, rfl, ?_⟩
    intro mem
    rcases mark 46 mem with same | same <;> cases same
  · exact Or.inr rfl

theorem Cut.text {s : Bytes} {neg : Bool} {whole frac tail : Bytes} {e : Int}
    (cut : Cut s neg whole frac tail) (isExponent : ExponentText tail e)
    (nonempty : whole ++ frac ≠ []) : DecimalText s neg whole frac e := by
  obtain ⟨sign, point, same, isSign, -, shape⟩ := cut.parts
  refine ⟨⟨sign, point, tail, same, isSign, ?_, isExponent⟩, cut.whole_all, cut.frac_all, nonempty⟩
  rcases shape with ⟨rfl, rfl, -⟩ | rfl
  · exact Or.inl ⟨rfl, rfl⟩
  · exact Or.inr rfl

/-- The value and the scale of what is read on a text that is cut. -/
theorem Cut.parseDecimalText_eq_ok {s : Bytes} {neg : Bool} {whole frac tail : Bytes}
    (cut : Cut s neg whole frac tail) (d : DecimalVal) :
    parseDecimalText s = .ok d ↔
      whole ++ frac ≠ [] ∧ ∃ e, ExponentText tail e ∧ InLimits whole frac e ∧
        d = ⟨if neg then -((digitsVal (whole ++ frac) : Int) * 10 ^ (e - frac.length).toNat)
          else digitsVal (whole ++ frac) * 10 ^ (e - frac.length).toNat,
          (frac.length - e).toNat⟩ := by
  rw [cut.parseDecimalText_eq]
  by_cases past : kNumericUnscaledMax ≤ (digitsVal (whole ++ frac) : Int)
  · rw [if_pos past]
    constructor
    · intro failed
      cases failed
    · rintro ⟨-, e, -, limits, -⟩
      exact absurd limits.digits (not_lt.mpr past)
  · have below := not_le.mp past
    have any : (!(whole ++ frac).isEmpty) = true ↔ whole ++ frac ≠ [] := by simp
    rw [if_neg past, finished_eq_ok]
    dsimp only
    rw [any]
    refine and_congr_right fun _ => exists_congr fun e => ?_
    rw [exponentPart_eq_ok, scaled_eq_ok _ _ (by positivity) below, neg_sub]
    constructor
    · rintro ⟨⟨isExponent, small⟩, value, scale, same⟩
      exact ⟨isExponent, ⟨small, below, value, scale⟩, same⟩
    · rintro ⟨isExponent, limits, same⟩
      exact ⟨⟨isExponent, limits.exponent⟩, limits.value, limits.scale, same⟩

/-! ## The numbers denoted -/

/-- The value and the scale fix the numeric. -/
theorem DecimalVal.eq_iff (d : DecimalVal) (neg : Bool) (whole frac : Bytes) (e : Int) :
    d = ⟨if neg then -((digitsVal (whole ++ frac) : Int) * 10 ^ (e - frac.length).toNat)
        else digitsVal (whole ++ frac) * 10 ^ (e - frac.length).toNat, (frac.length - e).toNat⟩ ↔
      d.scale = (frac.length - e).toNat ∧ d.toRat = denoted neg whole frac e := by
  have shifted : (10 : ℚ) ^ (e - frac.length).toNat / 10 ^ (frac.length - e).toNat =
      10 ^ (e - frac.length) := by
    rw [div_eq_iff (by positivity), ← zpow_natCast, ← zpow_natCast, ← zpow_add₀ (by norm_num)]
    congr 1
    omega
  have value : (((if neg then -((digitsVal (whole ++ frac) : Int) * 10 ^ (e - frac.length).toNat)
      else digitsVal (whole ++ frac) * 10 ^ (e - frac.length).toNat : Int)) : ℚ) /
      10 ^ (frac.length - e).toNat = denoted neg whole frac e := by
    rw [denoted, ← shifted]
    cases neg
    · rw [if_neg Bool.false_ne_true, if_neg Bool.false_ne_true]
      push_cast
      ring
    · rw [if_pos rfl, if_pos rfl]
      push_cast
      ring
  rcases d with ⟨unscaled, scale⟩
  constructor
  · intro same
    cases same
    exact ⟨rfl, value⟩
  · rintro ⟨rfl, equal⟩
    have power : (0 : ℚ) < 10 ^ (frac.length - e).toNat := by positivity
    rw [DecimalVal.toRat, ← value, div_left_inj' power.ne'] at equal
    exact congrArg (DecimalVal.mk · _) (Int.cast_inj.mp equal)

/-! ## Printed numerics -/

/-- Printed digits cut at the point. -/
theorem fixedText_parts (n places : Nat) :
    ∃ whole frac point : Bytes, fixedText n places = whole ++ point ∧
      (point = [] ∧ frac = [] ∨ point = 46 :: frac) ∧ whole.all isDigit = true ∧
      frac.all isDigit = true ∧ whole ++ frac ≠ [] ∧ frac.length = places ∧
      digitsVal (whole ++ frac) = n := by
  by_cases none : places = 0
  · refine ⟨natToText n, [], [], ?_, Or.inl ⟨rfl, rfl⟩, all_natToText n, rfl, ?_, none.symm, ?_⟩
    · rw [fixedText, if_pos none, List.append_nil]
    · rw [List.append_nil]
      exact natToText_ne_nil n
    · rw [List.append_nil, digitsVal_natToText]
  · let digits := List.replicate (places + 1 - (natToText n).length) 48 ++ natToText n
    have enough : places < digits.length := by
      dsimp only [digits]
      rw [List.length_append, List.length_replicate]
      omega
    have all : digits.all isDigit = true := by
      rw [List.all_append, all_natToText, Bool.and_true, List.all_replicate]
      split <;> rfl
    have cut := List.take_append_drop (digits.length - places) digits
    have allParts := all
    rw [← cut, List.all_append, Bool.and_eq_true] at allParts
    refine ⟨digits.take (digits.length - places), digits.drop (digits.length - places),
      46 :: digits.drop (digits.length - places), ?_, Or.inr rfl, allParts.1, allParts.2, ?_, ?_, ?_⟩
    · rw [fixedText, if_neg none]
    · rw [cut]
      exact List.ne_nil_of_length_pos (by omega)
    · rw [List.length_drop]
      omega
    · rw [cut, digitsVal_replicate_zero, digitsVal_natToText]

theorem decimalToText_text (d : DecimalVal) :
    ∃ whole frac, DecimalText (decimalToText d) (decide (d.unscaled < 0)) whole frac 0 ∧
      frac.length = d.scale ∧ digitsVal (whole ++ frac) = d.unscaled.natAbs := by
  obtain ⟨whole, frac, point, body, shape, whole_all, frac_all, nonempty, length, value⟩ :=
    fixedText_parts d.unscaled.natAbs d.scale
  refine ⟨whole, frac, ⟨?_, whole_all, frac_all, nonempty⟩, length, value⟩
  unfold decimalToText
  by_cases negative : d.unscaled < 0
  · refine ⟨[45], point, [], ?_, ?_, shape, .none⟩
    · rw [if_pos negative, body, List.append_nil]
      rfl
    · rw [decide_eq_true negative]
      exact .minus
  · refine ⟨[], point, [], ?_, ?_, shape, .none⟩
    · rw [if_neg negative, body, List.append_nil]
      rfl
    · rw [decide_eq_false negative]
      exact .none

/-- The scanner reads what the printer writes as the numeric that was printed. -/
theorem parseDecimalText_decimalToText {d : DecimalVal} (bounded : d.Bounded) :
    parseDecimalText (decimalToText d) = .ok d := by
  obtain ⟨whole, frac, text, length, value⟩ := decimalToText_text d
  obtain ⟨tail, cut, isExponent⟩ := text.cut
  have power : ((0 : Int) - frac.length).toNat = 0 := by omega
  have magnitude : ((d.unscaled.natAbs : Nat) : Int) = |d.unscaled| := Int.natCast_natAbs _
  rw [cut.parseDecimalText_eq_ok]
  refine ⟨text.nonempty, 0, isExponent, ⟨by decide, ?_, ?_, ?_⟩, ?_⟩
  · rw [value, magnitude]
    exact bounded.1
  · rw [power, pow_zero, mul_one, value, magnitude]
    exact bounded.1
  · have small := bounded.2
    omega
  · rw [power, pow_zero, mul_one, value, length, sub_zero, Int.toNat_natCast, magnitude]
    rcases d with ⟨unscaled, scale⟩
    congr 1
    split
    · rename_i negative
      rw [abs_of_neg (of_decide_eq_true negative), neg_neg]
    · rename_i other
      have nonneg : ¬unscaled < 0 := fun negative => other (decide_eq_true negative)
      rw [abs_of_nonneg (not_lt.mp nonneg)]

/-! ## Exactness -/

/-- The texts that are read are the numerals within the limits, and the value read is the
number denoted; what the printer writes is read as the numeric that was printed. -/
theorem parseDecimalText_exact :
    (∀ s d, parseDecimalText s = .ok d ↔
      ∃ neg whole frac e, DecimalText s neg whole frac e ∧ InLimits whole frac e ∧
        d.scale = (frac.length - e).toNat ∧ d.toRat = denoted neg whole frac e) ∧
    ∀ d : DecimalVal, d.Bounded → parseDecimalText (decimalToText d) = .ok d := by
  refine ⟨?_, fun d => parseDecimalText_decimalToText⟩
  intro s d
  constructor
  · intro done
    obtain ⟨neg, whole, frac, tail, cut⟩ := exists_cut s
    obtain ⟨nonempty, e, isExponent, limits, same⟩ := (cut.parseDecimalText_eq_ok d).mp done
    exact ⟨neg, whole, frac, e, cut.text isExponent nonempty, limits,
      (d.eq_iff neg whole frac e).mp same⟩
  · rintro ⟨neg, whole, frac, e, text, limits, same⟩
    obtain ⟨tail, cut, isExponent⟩ := text.cut
    exact (cut.parseDecimalText_eq_ok d).mpr
      ⟨text.nonempty, e, isExponent, limits, (d.eq_iff neg whole frac e).mpr same⟩

/-- A numeral with an exponent, read with the scale of its digits and exponent. -/
theorem parseDecimalText_exact_exponent :
    parseDecimalText (ascii "-01.50e-2") = .ok ⟨-150, 4⟩ ∧
      parseDecimalText (decimalToText ⟨-150, 4⟩) = .ok ⟨-150, 4⟩ := by
  constructor
  · decide +kernel
  · exact parseDecimalText_exact.2 ⟨-150, 4⟩ ⟨by decide, by decide⟩

end MySimpleDb.Storage
