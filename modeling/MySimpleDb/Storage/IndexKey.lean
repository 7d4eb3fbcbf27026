import MySimpleDb.Lib.Interval
import MySimpleDb.Storage.Types
import Mathlib.Order.Basic
import Mathlib.Tactic.NormNum

/-!
# Index keys

The order-preserving encoding of column values into index keys.  A key is
compared by its NULL flag first and by its 64-bit value second; `rank` reads
that order as one natural number, and every key comparison below is a
comparison of ranks.
-/

namespace MySimpleDb.Storage

open MySimpleDb.Lib

/-- Encoded value and NULL flag. -/
structure IndexKey where
  val : UInt64 := 0
  null : Bool := false
deriving DecidableEq

/-- Three-way comparison: by value, NULL last. -/
def keyCmp (a b : IndexKey) : Int :=
  if a.null ≠ b.null then (if a.null then 1 else -1)
  else if a.val ≠ b.val then (if a.val < b.val then -1 else 1)
  else 0

/-! ## Encoding -/

def signFlip : UInt64 := 0x8000000000000000

/-- `-0` becomes `+0`, negative patterns are complemented and the others get
their sign bit set. -/
def doubleKey (x : F64) : IndexKey :=
  let x := if Flt.eq x (Flt.zero false) then Flt.zero false else x
  let bits := UInt64.ofNat x.toBits
  ⟨if bits >>> 63 ≠ 0 then ~~~bits else bits ||| signFlip, false⟩

private def keyMismatch : Res IndexKey :=
  dbRaise .valueMismatch "索引键值与列类型不匹配"

def encodeKey (type : TypeAttr) (v : Value) : Res IndexKey :=
  match v.box with
  | .null => .ok ⟨0, true⟩
  | box =>
      if type.rep = .dec then dbRaise .notImplemented "numeric 列暂不支持索引"
      else
        match box with
        | .bool b =>
            if type.rep = .bool then .ok ⟨if b then 1 else 0, false⟩ else keyMismatch
        | .int64 i =>
            if type.rep = .int64 then .ok ⟨i.toUInt64 ^^^ signFlip, false⟩ else keyMismatch
        | .double d => if type.rep = .double then .ok (doubleKey d) else keyMismatch
        | .float x =>
            if type.rep = .float then .ok (doubleKey (Flt.convert _ x)) else keyMismatch
        | _ => dbRaise .notImplemented "索引键类型未支持(变长键)"

@[simp] theorem doubleKey_null (x : F64) : (doubleKey x).null = false := rfl

/-- The NULL flag of a key is that of the value. -/
theorem encodeKey_null {t : TypeAttr} {v : Value} {key : IndexKey}
    (encoded : encodeKey t v = .ok key) : key.null = valueIsNull v := by
  rcases v with ⟨vt, box⟩
  cases box <;> simp only [encodeKey, keyMismatch, dbRaise] at encoded
  case null => cases encoded; rfl
  all_goals
    split at encoded
    · cases encoded
    · first
      | cases encoded
      | (split at encoded <;> cases encoded; rfl)

/-! ## Keys are linearly ordered -/

namespace IndexKey

/-- Position of a key in key order. -/
def rank (k : IndexKey) : Nat :=
  (if k.null then 2 ^ 64 else 0) + k.val.toNat

theorem rank_injective : Function.Injective rank := by
  rintro ⟨a, aNull⟩ ⟨b, bNull⟩ same
  have a_lt := a.toNat_lt
  have b_lt := b.toNat_lt
  simp only [rank] at same
  have null_eq : aNull = bNull := by
    cases aNull <;> cases bNull <;> simp at same ⊢ <;> omega
  subst null_eq
  have val_eq : a = b := UInt64.toNat_inj.mp (by omega)
  rw [val_eq]

instance : LinearOrder IndexKey :=
  LinearOrder.lift' rank rank_injective

theorem lt_iff_rank {a b : IndexKey} : a < b ↔ a.rank < b.rank :=
  Iff.rfl

theorem le_iff_rank {a b : IndexKey} : a ≤ b ↔ a.rank ≤ b.rank :=
  Iff.rfl

/-- The NULL key lies above every value key. -/
theorem lt_null {a : IndexKey} (not_null : a.null = false) (val : UInt64) :
    a < ⟨val, true⟩ := by
  rw [lt_iff_rank]
  have := a.val.toNat_lt
  simp only [rank, not_null, Bool.false_eq_true, if_false, if_true]
  omega

end IndexKey

/-- `key_cmp` is the three-way form of the key order. -/
theorem keyCmp_eq (a b : IndexKey) :
    keyCmp a b = if a < b then -1 else if b < a then 1 else 0 := by
  rcases a with ⟨a, aNull⟩
  rcases b with ⟨b, bNull⟩
  have a_lt := a.toNat_lt
  have b_lt := b.toNat_lt
  simp only [keyCmp, IndexKey.lt_iff_rank, IndexKey.rank]
  by_cases null_eq : aNull = bNull
  · subst null_eq
    simp only [ne_eq, not_true_eq_false, if_false, Nat.add_lt_add_iff_left]
    by_cases val_eq : a = b
    · subst val_eq
      simp
    · have ne : a.toNat ≠ b.toNat := fun same => val_eq (UInt64.toNat_inj.mp same)
      simp only [val_eq, not_false_eq_true, if_true, UInt64.lt_iff_toNat_lt]
      split_ifs <;> omega
  · cases aNull <;> cases bNull <;> simp_all <;> omega

theorem keyCmp_neg_iff {a b : IndexKey} : keyCmp a b < 0 ↔ a < b := by
  rw [keyCmp_eq]
  split_ifs with lt gt <;> simp [lt]

theorem keyCmp_pos_iff {a b : IndexKey} : 0 < keyCmp a b ↔ b < a := by
  rw [keyCmp_eq]
  split_ifs with lt gt
  · simpa using not_lt_of_gt lt
  · simpa using gt
  · simpa using gt

theorem keyCmp_eq_zero_iff {a b : IndexKey} : keyCmp a b = 0 ↔ a = b := by
  rw [keyCmp_eq]
  split_ifs with lt gt
  · simpa using ne_of_lt lt
  · simpa using (ne_of_lt gt).symm
  · simpa using le_antisymm (not_lt.mp gt) (not_lt.mp lt)

/-! ## Ranks of encoded values -/

private theorem or_two_pow {n k : Nat} (lt : n < 2 ^ k) : n ||| 2 ^ k = n + 2 ^ k := by
  have split := Nat.two_pow_add_eq_or_of_lt lt 1
  rw [Nat.mul_one] at split
  rw [Nat.or_comm, ← split, Nat.add_comm]

private theorem xor_two_pow {n k : Nat} (lt : n < 2 ^ k) : n ^^^ 2 ^ k = n + 2 ^ k := by
  rw [← or_two_pow lt]
  apply Nat.eq_of_testBit_eq
  intro i
  rw [Nat.testBit_xor, Nat.testBit_or, Nat.testBit_two_pow]
  by_cases same : k = i
  · subst same
    simp [Nat.testBit_lt_two_pow lt]
  · simp [same]

private theorem toNat_xor_signFlip (x : UInt64) :
    (x ^^^ signFlip).toNat =
      if x.toNat < 2 ^ 63 then x.toNat + 2 ^ 63 else x.toNat - 2 ^ 63 := by
  have x_lt := x.toNat_lt
  rw [UInt64.toNat_xor, show signFlip.toNat = 2 ^ 63 from rfl]
  split
  · rename_i low
    exact xor_two_pow low
  · rename_i high
    obtain ⟨n, n_eq⟩ : ∃ n, x.toNat = n + 2 ^ 63 := ⟨x.toNat - 2 ^ 63, by omega⟩
    have n_lt : n < 2 ^ 63 := by omega
    rw [n_eq, ← xor_two_pow n_lt, Nat.xor_assoc, Nat.xor_self, Nat.xor_zero,
      xor_two_pow n_lt, Nat.add_sub_cancel]

/-- Flipping the sign bit shifts the signed range to start at 0. -/
theorem rank_int64 (i : Int64) :
    ((IndexKey.rank ⟨i.toUInt64 ^^^ signFlip, false⟩ : Nat) : Int) = i.toInt + 2 ^ 63 := by
  have i_lt := i.toUInt64.toNat_lt
  have signed : i.toInt =
      if 2 * i.toUInt64.toNat < 2 ^ 64 then (i.toUInt64.toNat : Int)
      else (i.toUInt64.toNat : Int) - 2 ^ 64 := by
    exact BitVec.toInt_eq_toNat_cond i.toBitVec
  simp only [IndexKey.rank, Bool.false_eq_true, if_false, Nat.zero_add, toNat_xor_signFlip]
  rw [signed]
  split <;> split <;> push_cast <;> omega

private theorem toRat_eq_zero_iff {x : F64} : x.toRat = 0 ↔ x.mag = 0 := by
  have mag_zero : Format.magVal ⟨52, 11⟩ x.mag = 0 ↔ x.mag = 0 := by
    rw [← Format.magVal_zero ⟨52, 11⟩]
    exact (Format.magVal_strictMono _).injective.eq_iff
  unfold Flt.toRat
  split <;> simp [mag_zero]

/-- Negative numbers lie below `2 ^ 63` in reverse order of magnitude, the
others above it in order of magnitude. -/
theorem rank_doubleKey {x : F64} (not_nan : x.isNaN = false) :
    (doubleKey x).rank =
      if x.sign = true ∧ x.mag ≠ 0 then 2 ^ 63 - 1 - x.mag else 2 ^ 63 + x.mag := by
  have mag_lt : x.mag < 2 ^ 63 := by simpa using x.mag_lt
  have zero_iff : Flt.eq x (Flt.zero false) = true ↔ x.mag = 0 := by
    have zero_not_nan : (Flt.zero false : F64).isNaN = false :=
      Flt.isFinite_not_isNaN (by decide)
    simp [Flt.eq, not_nan, zero_not_nan, Flt.toRat_zero, toRat_eq_zero_iff]
  by_cases mag_zero : x.mag = 0
  · simp only [doubleKey, zero_iff.mpr mag_zero, if_true, mag_zero]
    simp
    decide
  · have not_zero : Flt.eq x (Flt.zero false) = false := by
      simpa [mag_zero] using zero_iff
    have bits_lt : x.toBits < 2 ^ 64 := by simpa using x.toBits_lt
    have bits_nat : (UInt64.ofNat x.toBits).toNat = x.toBits := by
      rw [UInt64.toNat_ofNat', Nat.mod_eq_of_lt bits_lt]
    simp only [doubleKey, not_zero, Bool.false_eq_true, if_false, IndexKey.rank, Nat.zero_add]
    have high_iff : UInt64.ofNat x.toBits >>> 63 ≠ 0 ↔ x.sign = true := by
      rw [ne_eq, ← UInt64.toNat_inj, UInt64.toNat_shiftRight, bits_nat]
      simp only [Flt.toBits, UInt64.toNat_ofNat]
      rw [Nat.shiftRight_eq_div_pow]
      cases x.sign
      · simp
        omega
      · simp
    cases sign : x.sign
    · have low : ¬(UInt64.ofNat x.toBits >>> 63 ≠ 0) := by
        rw [high_iff, sign]; simp
      rw [if_neg low, UInt64.toNat_or, bits_nat, show signFlip.toNat = 2 ^ 63 from rfl]
      simp only [Flt.toBits, sign, Bool.false_eq_true, if_false, false_and, Nat.zero_add]
      rw [or_two_pow mag_lt, Nat.add_comm]
    · rw [if_pos (high_iff.mpr sign), UInt64.toNat_not, bits_nat]
      simp only [Flt.toBits, sign, if_true, true_and, mag_zero, ne_eq, not_false_eq_true]
      simp
      omega

/-- Double keys are ordered as the numbers are. -/
theorem doubleKey_lt_iff {x y : F64} (x_num : x.isNaN = false) (y_num : y.isNaN = false) :
    doubleKey x < doubleKey y ↔ x.toRat < y.toRat := by
  have mono := Format.magVal_strictMono ⟨52, 11⟩
  have x_lt : x.mag < 2 ^ 63 := by simpa using x.mag_lt
  have y_lt : y.mag < 2 ^ 63 := by simpa using y.mag_lt
  have x_nonneg := Format.magVal_nonneg ⟨52, 11⟩ x.mag
  have y_nonneg := Format.magVal_nonneg ⟨52, 11⟩ y.mag
  have x_pos : x.mag ≠ 0 → 0 < Format.magVal ⟨52, 11⟩ x.mag := fun ne =>
    (Format.magVal_zero ⟨52, 11⟩) ▸ mono (Nat.pos_of_ne_zero ne)
  have y_pos : y.mag ≠ 0 → 0 < Format.magVal ⟨52, 11⟩ y.mag := fun ne =>
    (Format.magVal_zero ⟨52, 11⟩) ▸ mono (Nat.pos_of_ne_zero ne)
  rw [IndexKey.lt_iff_rank, rank_doubleKey x_num, rank_doubleKey y_num]
  unfold Flt.toRat
  have mag_iff := mono.lt_iff_lt (a := x.mag) (b := y.mag)
  have mag_iff' := mono.lt_iff_lt (a := y.mag) (b := x.mag)
  have zero := Format.magVal_zero ⟨52, 11⟩
  cases x.sign <;> cases y.sign <;>
    simp only [Bool.false_eq_true, false_and, true_and, if_false, if_true]
  · rw [mag_iff]; omega
  · by_cases y_zero : y.mag = 0
    · simp only [y_zero, ne_eq, not_true_eq_false, if_false, zero]
      constructor
      · intro lt; omega
      · intro lt; linarith
    · simp only [y_zero, ne_eq, not_false_eq_true, if_true]
      constructor
      · intro lt; omega
      · intro lt; linarith [y_pos y_zero]
  · by_cases x_zero : x.mag = 0
    · simp only [x_zero, ne_eq, not_true_eq_false, if_false, zero]
      rw [neg_zero, ← zero, mono.lt_iff_lt]
      omega
    · simp only [x_zero, ne_eq, not_false_eq_true, if_true]
      constructor
      · intro _; linarith [x_pos x_zero]
      · intro _; omega
  · rw [neg_lt_neg_iff, mag_iff']
    by_cases x_zero : x.mag = 0 <;> by_cases y_zero : y.mag = 0 <;>
      simp only [x_zero, y_zero, ne_eq, not_true_eq_false, not_false_eq_true, if_false,
        if_true] <;> omega

end MySimpleDb.Storage
