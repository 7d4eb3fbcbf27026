import MySimpleDb.Expr.Eval
import MySimpleDb.Storage.IndexKey

/-!
# Index key ranges

Which conjuncts of a predicate an index can answer, and the key ranges they
select: the matching part of the index selection pass.
-/

namespace MySimpleDb.Planner

open MySimpleDb.Lib MySimpleDb.Storage MySimpleDb.Analyzer

/-- Scan bound: key, and whether equal keys are included. -/
abbrev ScanBound : Type := Bound IndexKey

/-- Key range of an index scan; an absent bound is unbounded. -/
abbrev IndexRange : Type := KeyInterval IndexKey

def kNullKey : IndexKey := ⟨0, true⟩

/-! ## Ranges -/

/-- The larger key is tighter; on equal keys the open bound is. -/
def tighterLo (a b : Option ScanBound) : Option ScanBound :=
  match a, b with
  | some x, some y =>
      let c := keyCmp x.key y.key
      if c ≠ 0 then (if 0 < c then a else b)
      else if x.inclusive then b else a
  | some _, none => a
  | none, _ => b

/-- The smaller key is tighter; on equal keys the open bound is. -/
def tighterHi (a b : Option ScanBound) : Option ScanBound :=
  match a, b with
  | some x, some y =>
      let c := keyCmp x.key y.key
      if c ≠ 0 then (if c < 0 then a else b)
      else if x.inclusive then b else a
  | some _, none => a
  | none, _ => b

def rangeMeet (a b : IndexRange) : Option IndexRange :=
  let r : IndexRange := ⟨tighterLo a.lo b.lo, tighterHi a.hi b.hi⟩
  match r.lo, r.hi with
  | some lo, some hi =>
      let c := keyCmp lo.key hi.key
      if 0 < c ∨ (c = 0 ∧ !(lo.inclusive && hi.inclusive)) then none else some r
  | _, _ => some r

def rangesMeet (a b : List IndexRange) : List IndexRange :=
  a.flatMap fun x => b.filterMap fun y => rangeMeet x y

/-- Exact ranges of a comparison: NULL rows are excluded, so a range without
an upper bound stops before the NULL key. -/
def cmpRanges (op : CmpOp) (k : IndexKey) : List IndexRange :=
  let closedK : ScanBound := ⟨k, true⟩
  let openK : ScanBound := ⟨k, false⟩
  let openNull : ScanBound := ⟨kNullKey, false⟩
  match op with
  | .eq => [⟨some closedK, some closedK⟩]
  | .lt => [⟨none, some openK⟩]
  | .le => [⟨none, some closedK⟩]
  | .gt => [⟨some openK, some openNull⟩]
  | .ge => [⟨some closedK, some openNull⟩]
  | .ne => [⟨none, some openK⟩, ⟨some openK, some openNull⟩]

/-! ## Matching conjuncts -/

/-- Key of a constant for a column, when the two are of one family: a double
or numeric constant is encoded in the double domain, also for a float column. -/
def keyOf (col : ColumnSpec) (v : Value) (doubleAttr : TypeAttr) : Res (Option IndexKey) :=
  let rep := col.type.rep
  match v.box with
  | .null => .ok none
  | .int64 _ =>
      if rep ≠ .int64 then .ok none else some <$> encodeKey col.type v
  | .double _ =>
      if rep ≠ .double ∧ rep ≠ .float then .ok none else some <$> encodeKey doubleAttr v
  | .float _ =>
      if rep ≠ .float then .ok none else some <$> encodeKey col.type v
  | .bool _ =>
      if rep ≠ .bool then .ok none else some <$> encodeKey col.type v
  | .dec _ =>
      if rep ≠ .double ∧ rep ≠ .float then .ok none
      else do
        let keyVal ← castValue v doubleAttr
        some <$> encodeKey doubleAttr keyVal
  | .str _ => .ok none

/-- The operator with its operands exchanged. -/
def mirror : CmpOp → CmpOp
  | .eq => .eq
  | .ne => .ne
  | .lt => .gt
  | .le => .ge
  | .gt => .lt
  | .ge => .le

/-- Matched condition as EXPLAIN shows it. -/
structure IndexCond where
  col : String
  op : CmpOp := .eq
  value : Value := {}
  isNull : Bool := false
  negate : Bool := false

/-- A matched conjunct: its position, its ranges and its condition. -/
structure Hit where
  conj : Nat
  eq : Bool
  ranges : List IndexRange
  cond : IndexCond

/-- Whether an expression is a reference to column `ordinal`. -/
def isCol (e : BoundExpr) (ordinal : Nat) : Bool :=
  match e with
  | .colRef idx _ => idx = ordinal
  | _ => false

/-- The constant side and the operator seen from the column. -/
def colVersusConst (op : CmpOp) (left right : BoundExpr) (ordinal : Nat) :
    Option (CmpOp × Value) :=
  let lcol := isCol left ordinal
  let rcol := isCol right ordinal
  if lcol = rcol then none
  else if lcol then
    match right with
    | .const v => some (op, v)
    | _ => none
  else
    match left with
    | .const v => some (mirror op, v)
    | _ => none

def matchHit (e : BoundExpr) (col : ColumnSpec) (ordinal conj : Nat)
    (doubleAttr : TypeAttr) : Res (Option Hit) :=
  match e with
  | .cmp op left right =>
      match colVersusConst op left right ordinal with
      | none => .ok none
      | some (op, v) => do
          match ← keyOf col v doubleAttr with
          | none => pure none
          | some k =>
              pure (some ⟨conj, op = .eq, cmpRanges op k, { col := col.name, op, value := v }⟩)
  | .isNull operand negate =>
      if isCol operand ordinal then
        let ranges : List IndexRange :=
          if negate then [⟨none, some ⟨kNullKey, false⟩⟩]
          else [⟨some ⟨kNullKey, true⟩, some ⟨kNullKey, true⟩⟩]
        .ok (some ⟨conj, false, ranges, { col := col.name, isNull := true, negate }⟩)
      else .ok none
  | _ => .ok none

/-- Intersect the ranges of the matched conjuncts, stopping at the empty set. -/
def intersectRanges (hits : List Hit) : List IndexRange :=
  go [{}] hits
where
  go (ranges : List IndexRange) : List Hit → List IndexRange
    | [] => ranges
    | h :: hits =>
        let ranges := rangesMeet ranges h.ranges
        if ranges.isEmpty then ranges else go ranges hits

end MySimpleDb.Planner
