import Mathlib.Data.Nat.Digits.Lemmas
import MySimpleDb.Lib.DecimalText

/-!
# Digit strings

A digit string and the number it denotes: the value of an append, and the
numeral of a number.
-/

namespace MySimpleDb.Lib

/-! ## Values -/

@[simp]
theorem digitsVal_nil : digitsVal [] = 0 :=
  rfl

/-- Digits read on from the number `n`. -/
theorem foldl_digits (s : Bytes) (n : Nat) :
    s.foldl (fun n c => n * 10 + digitVal c) n = n * 10 ^ s.length + digitsVal s := by
  induction s generalizing n with
  | nil => simp
  | cons c s inductionHypothesis =>
      rw [digitsVal, List.foldl_cons, List.foldl_cons, inductionHypothesis, inductionHypothesis,
        List.length_cons]
      ring

theorem digitsVal_append (s t : Bytes) :
    digitsVal (s ++ t) = digitsVal s * 10 ^ t.length + digitsVal t := by
  rw [digitsVal, List.foldl_append, foldl_digits]
  rfl

theorem digitsVal_cons (c : UInt8) (s : Bytes) :
    digitsVal (c :: s) = digitVal c * 10 ^ s.length + digitsVal s := by
  rw [digitsVal, List.foldl_cons, foldl_digits, Nat.zero_mul, Nat.zero_add]

/-- Zeros in front do not count. -/
theorem digitsVal_replicate_zero (n : Nat) (s : Bytes) :
    digitsVal (List.replicate n 48 ++ s) = digitsVal s := by
  induction n with
  | zero => rfl
  | succ n inductionHypothesis =>
      rw [List.replicate_succ, List.cons_append, digitsVal_cons, inductionHypothesis]
      have zero : digitVal 48 = 0 := rfl
      rw [zero, Nat.zero_mul, Nat.zero_add]

theorem digitVal_lt {c : UInt8} (digit : isDigit c = true) : digitVal c < 10 := by
  have upper : c ≤ 57 := by
    rw [isDigit, Bool.and_eq_true] at digit
    exact of_decide_eq_true digit.2
  have upper : c.toNat ≤ 57 := upper
  rw [digitVal]
  omega

/-! ## Numerals -/

theorem isDigit_ofNat {d : Nat} (small : d < 10) : isDigit (UInt8.ofNat (48 + d)) = true := by
  interval_cases d <;> rfl

theorem digitVal_ofNat {d : Nat} (small : d < 10) : digitVal (UInt8.ofNat (48 + d)) = d := by
  interval_cases d <;> rfl

theorem all_natToText (n : Nat) : (natToText n).all isDigit = true := by
  rw [natToText]
  split
  · rfl
  · rw [List.all_map, List.all_reverse, List.all_eq_true]
    intro d mem
    exact isDigit_ofNat (Nat.digits_lt_base (by decide) mem)

theorem natToText_ne_nil (n : Nat) : natToText n ≠ [] := by
  rw [natToText]
  split
  · exact List.cons_ne_nil _ _
  · rename_i nonzero
    intro empty
    rw [List.map_eq_nil_iff, List.reverse_eq_nil_iff] at empty
    exact nonzero (Nat.digits_eq_nil_iff_eq_zero.mp empty)

theorem digitsVal_natToText (n : Nat) : digitsVal (natToText n) = n := by
  have reading : ∀ ds : List Nat, (∀ d ∈ ds, d < 10) →
      digitsVal (ds.reverse.map fun d => UInt8.ofNat (48 + d)) = Nat.ofDigits 10 ds := by
    intro ds small
    induction ds with
    | nil => rfl
    | cons d ds inductionHypothesis =>
        rw [List.reverse_cons, List.map_append, digitsVal_append,
          inductionHypothesis fun d mem => small d (List.mem_cons_of_mem _ mem), Nat.ofDigits_cons]
        have last : digitsVal (List.map (fun d => UInt8.ofNat (48 + d)) [d]) = d := by
          rw [List.map_singleton, digitsVal_cons, digitVal_ofNat (small d List.mem_cons_self)]
          simp
        rw [last, List.length_map, List.length_singleton]
        ring
  rw [natToText]
  split
  · rename_i zero
    rw [zero]
    rfl
  · rw [reading _ fun d => Nat.digits_lt_base (by decide), Nat.ofDigits_digits]

end MySimpleDb.Lib
