import MySimpleDb.Planner.Fold
import MySimpleDb.Expr.Typed

/-!
# What structural equality of trees decides

`expr_equal` does not look at the scale of a cast, and compares constants with
`==`, which takes the two zeros for one.  Trees it accepts that agree in these
two details evaluate alike; nothing else is overlooked.
-/

namespace MySimpleDb.Planner

open MySimpleDb.Lib MySimpleDb.Storage MySimpleDb.Analyzer MySimpleDb.Expr

/-! ## The details that are not compared -/

/-- The sign bit of a floating-point box. -/
def signOf : Box → Bool
  | .double d => d.sign
  | .float x => x.sign
  | _ => false

mutual
/-- Casts at the same position have the same scale, and constants at the same
position the same sign bit. -/
def sameDetails : BoundExpr → BoundExpr → Bool
  | .const a, .const b => signOf a.box = signOf b.box
  | .arith _ l r _, .arith _ l' r' _ => sameDetails l l' && sameDetails r r'
  | .neg x _, .neg y _ => sameDetails x y
  | .cmp _ l r, .cmp _ l' r' => sameDetails l l' && sameDetails r r'
  | .logic _ l r, .logic _ l' r' => sameDetails l l' && sameDetails r r'
  | .not x, .not y => sameDetails x y
  | .isNull x _, .isNull y _ => sameDetails x y
  | .funcCall _ _ _ args _, .funcCall _ _ _ args' _ => argsSameDetails args args'
  | .cast x _ _ scale, .cast y _ _ scale' => scale = scale' && sameDetails x y
  | _, _ => true

def argsSameDetails : List BoundExpr → List BoundExpr → Bool
  | a :: as, b :: bs => sameDetails a b && argsSameDetails as bs
  | _, _ => true
end

theorem eq_of_flt_eq {f : Format} {x y : Flt f} (equal : Flt.eq x y = true)
    (sign : x.sign = y.sign) : x = y := by
  simp only [Flt.eq, Bool.and_eq_true, decide_eq_true_eq] at equal
  have rat := equal.2
  rcases x with ⟨xs, xm, x_lt⟩
  rcases y with ⟨ys, ym, y_lt⟩
  obtain rfl : xs = ys := sign
  have mag : f.magVal xm = f.magVal ym := by
    cases xs <;> simpa [Flt.toRat] using rat
  obtain rfl := (Format.magVal_strictMono f).injective mag
  rfl

theorem eq_of_valueEqual {a b : Value} (equal : valueEqual a b = true)
    (sign : signOf a.box = signOf b.box) : a = b := by
  rcases a with ⟨ta, ba⟩
  rcases b with ⟨tb, bb⟩
  simp only [valueEqual, Bool.and_eq_true, decide_eq_true_eq] at equal
  obtain ⟨rfl, boxes⟩ := equal
  have box_eq : ba = bb := by
    cases ba <;> cases bb <;>
      simp only [boxEqual, Bool.false_eq_true, decide_eq_true_eq] at boxes
    case null.null => rfl
    case double.double => exact congrArg _ (eq_of_flt_eq boxes sign)
    case float.float => exact congrArg _ (eq_of_flt_eq boxes sign)
    all_goals rw [boxes]
  rw [box_eq]

/-! ## Call flags -/

mutual
/-- Every call is marked as its overload is: all of them pass on a NULL. -/
def StrictCalls : BoundExpr → Prop
  | .const _ | .colRef _ _ => True
  | .arith _ l r _ | .cmp _ l r | .logic _ l r => StrictCalls l ∧ StrictCalls r
  | .neg x _ | .not x | .isNull x _ | .cast x _ _ _ => StrictCalls x
  | .funcCall _ _ strictNull args _ => strictNull = true ∧ ArgsStrictCalls args

def ArgsStrictCalls : List BoundExpr → Prop
  | [] => True
  | a :: args => StrictCalls a ∧ ArgsStrictCalls args
end

mutual
/-- Accepted trees that agree in the details evaluate alike. -/
theorem exprEqual_sound (row : Option Row) : ∀ {a b : BoundExpr}, StrictCalls a → StrictCalls b →
    exprEqual a b = true → sameDetails a b = true → evalBound a row = evalBound b row
  | .const a, b, _, _, equal, details => by
      cases b <;> simp only [exprEqual, Bool.false_eq_true] at equal
      simp only [sameDetails, decide_eq_true_eq] at details
      rw [eq_of_valueEqual equal details]
  | .colRef i t, b, _, _, equal, _ => by
      cases b <;> simp only [exprEqual, Bool.false_eq_true] at equal
      simp only [Bool.and_eq_true, decide_eq_true_eq] at equal
      rw [equal.1, equal.2]
  | .arith op l r t, b, ha, hb, equal, details => by
      cases b <;> simp only [exprEqual, Bool.false_eq_true] at equal
      simp only [Bool.and_eq_true, decide_eq_true_eq] at equal
      simp only [sameDetails, Bool.and_eq_true] at details
      simp only [StrictCalls] at ha hb
      obtain ⟨⟨⟨rfl, rfl⟩, l_equal⟩, r_equal⟩ := equal
      simp only [evalBound, exprEqual_sound row ha.1 hb.1 l_equal details.1,
        exprEqual_sound row ha.2 hb.2 r_equal details.2]
  | .neg x t, b, ha, hb, equal, details => by
      cases b <;> simp only [exprEqual, Bool.false_eq_true] at equal
      simp only [Bool.and_eq_true, decide_eq_true_eq] at equal
      simp only [sameDetails] at details
      simp only [StrictCalls] at ha hb
      obtain ⟨rfl, x_equal⟩ := equal
      simp only [evalBound, exprEqual_sound row ha hb x_equal details]
  | .cmp op l r, b, ha, hb, equal, details => by
      cases b <;> simp only [exprEqual, Bool.false_eq_true] at equal
      simp only [Bool.and_eq_true, decide_eq_true_eq] at equal
      simp only [sameDetails, Bool.and_eq_true] at details
      simp only [StrictCalls] at ha hb
      obtain ⟨⟨rfl, l_equal⟩, r_equal⟩ := equal
      simp only [evalBound, exprEqual_sound row ha.1 hb.1 l_equal details.1,
        exprEqual_sound row ha.2 hb.2 r_equal details.2]
  | .logic op l r, b, ha, hb, equal, details => by
      cases b <;> simp only [exprEqual, Bool.false_eq_true] at equal
      simp only [Bool.and_eq_true, decide_eq_true_eq] at equal
      simp only [sameDetails, Bool.and_eq_true] at details
      simp only [StrictCalls] at ha hb
      obtain ⟨⟨rfl, l_equal⟩, r_equal⟩ := equal
      simp only [evalBound, exprEqual_sound row ha.1 hb.1 l_equal details.1,
        exprEqual_sound row ha.2 hb.2 r_equal details.2]
  | .not x, b, ha, hb, equal, details => by
      cases b <;> simp only [exprEqual, Bool.false_eq_true] at equal
      simp only [sameDetails] at details
      simp only [StrictCalls] at ha hb
      simp only [evalBound, exprEqual_sound row ha hb equal details]
  | .isNull x neg, b, ha, hb, equal, details => by
      cases b <;> simp only [exprEqual, Bool.false_eq_true] at equal
      simp only [Bool.and_eq_true, decide_eq_true_eq] at equal
      simp only [sameDetails] at details
      simp only [StrictCalls] at ha hb
      obtain ⟨rfl, x_equal⟩ := equal
      simp only [evalBound, exprEqual_sound row ha hb x_equal details]
  | .funcCall f name strictNull args t, b, ha, hb, equal, details => by
      cases b <;> simp only [exprEqual, Bool.false_eq_true] at equal
      simp only [Bool.and_eq_true, decide_eq_true_eq] at equal
      simp only [sameDetails] at details
      simp only [StrictCalls] at ha hb
      obtain ⟨⟨rfl, rfl⟩, a_equal⟩ := equal
      obtain ⟨rfl, a_strict⟩ := ha
      obtain ⟨rfl, b_strict⟩ := hb
      simp only [evalBound, argsEqual_sound row a_strict b_strict a_equal details]
  | .cast x t len scale, b, ha, hb, equal, details => by
      cases b <;> simp only [exprEqual, Bool.false_eq_true] at equal
      simp only [Bool.and_eq_true, decide_eq_true_eq] at equal
      simp only [sameDetails, Bool.and_eq_true, decide_eq_true_eq] at details
      simp only [StrictCalls] at ha hb
      obtain ⟨⟨rfl, rfl⟩, x_equal⟩ := equal
      obtain ⟨rfl, x_details⟩ := details
      simp only [evalBound, exprEqual_sound row ha hb x_equal x_details]

theorem argsEqual_sound (row : Option Row) : ∀ {as bs : List BoundExpr}, ArgsStrictCalls as →
    ArgsStrictCalls bs → argsEqual as bs = true → argsSameDetails as bs = true →
    evalArgs as row = evalArgs bs row
  | [], bs, _, _, equal, _ => by
      cases bs <;> simp [argsEqual] at equal
      rfl
  | a :: as, bs, ha, hb, equal, details => by
      cases bs <;> simp only [argsEqual, Bool.false_eq_true] at equal
      simp only [Bool.and_eq_true] at equal
      simp only [argsSameDetails, Bool.and_eq_true] at details
      simp only [ArgsStrictCalls] at ha hb
      simp only [evalArgs, exprEqual_sound row ha.1 hb.1 equal.1 details.1,
        argsEqual_sound row ha.2 hb.2 equal.2 details.2]
end

end MySimpleDb.Planner
