import MySimpleDb.Expr.Eval

/-!
# Constant folding

The expression part of the folding pass: constant subtrees are evaluated, NULL
constants absorb strict operators, and logic nodes, NOT and self comparisons
are simplified.  A weak position is one whose value is only asked for being
true, where NULL and false are the same.
-/

namespace MySimpleDb.Planner

open MySimpleDb.Lib MySimpleDb.Storage MySimpleDb.Analyzer MySimpleDb.Expr

def isConst : BoundExpr → Bool
  | .const _ => true
  | _ => false

def isNullConst : BoundExpr → Bool
  | .const v => valueIsNull v
  | _ => false

/-- The value of a boolean constant; NULL is not one. -/
def constBool : BoundExpr → Option Bool
  | .const v =>
      match v.box with
      | .bool b => some b
      | _ => none
  | _ => none

/-! ## Structural equality -/

def negateCmp : CmpOp → CmpOp
  | .eq => .ne
  | .ne => .eq
  | .lt => .ge
  | .le => .gt
  | .gt => .le
  | .ge => .lt

/-- `operator==` of boxes: alternatives agree and contents are `==`, which on
floating point identifies the two zeros. -/
def boxEqual : Box → Box → Bool
  | .null, .null => true
  | .bool a, .bool b => a = b
  | .int64 a, .int64 b => a = b
  | .double a, .double b => Flt.eq a b
  | .float a, .float b => Flt.eq a b
  | .str a, .str b => a = b
  | .dec a, .dec b => a = b
  | _, _ => false

def valueEqual (a b : Value) : Bool :=
  a.type = b.type && boxEqual a.box b.box

mutual
/-- Structural equality of trees, field by field as the source compares them:
a cast is compared by type and length. -/
def exprEqual : BoundExpr → BoundExpr → Bool
  | .const a, .const b => valueEqual a b
  | .colRef i t, .colRef j u => i = j && t = u
  | .arith op l r t, .arith op' l' r' u => op = op' && t = u && exprEqual l l' && exprEqual r r'
  | .neg x t, .neg y u => t = u && exprEqual x y
  | .cmp op l r, .cmp op' l' r' => op = op' && exprEqual l l' && exprEqual r r'
  | .logic op l r, .logic op' l' r' => op = op' && exprEqual l l' && exprEqual r r'
  | .not x, .not y => exprEqual x y
  | .isNull x neg, .isNull y neg' => neg = neg' && exprEqual x y
  | .funcCall f _ _ args t, .funcCall g _ _ args' u => f = g && t = u && argsEqual args args'
  | .cast x t len _, .cast y u len' _ => t = u && len = len' && exprEqual x y
  | _, _ => false

def argsEqual : List BoundExpr → List BoundExpr → Bool
  | [], [] => true
  | a :: as, b :: bs => exprEqual a b && argsEqual as bs
  | _, _ => false
end

/-! ## Simplification -/

/-- A dominating constant decides a logic node, a neutral one leaves the other
side. -/
def simplifyLogic (op : LogicOp) (left right : BoundExpr) : BoundExpr :=
  let lb := constBool left
  let rb := constBool right
  match op with
  | .and =>
      if lb = some false ∨ rb = some false then .const (boolVal kBool false)
      else if lb.isSome then right
      else if rb.isSome then left
      else .logic op left right
  | .or =>
      if lb = some true ∨ rb = some true then .const (boolVal kBool true)
      else if lb.isSome then right
      else if rb.isSome then left
      else .logic op left right

/-- NOT over NOT, a comparison or a NULL test is absorbed. -/
def simplifyNot : BoundExpr → BoundExpr
  | .not x => x
  | .cmp op left right => .cmp (negateCmp op) left right
  | .isNull x negate => .isNull x !negate
  | x => .not x

/-- A comparison of equal sides: a NULL test, or never true. -/
def simplifyCmp (op : CmpOp) (left right : BoundExpr) : BoundExpr :=
  match op with
  | .eq | .le | .ge =>
      if exprEqual left right then .isNull left true else .cmp op left right
  | .ne | .lt | .gt =>
      if exprEqual left right then .const (boolVal kBool false) else .cmp op left right

/-! ## The pass -/

mutual
/-- Fold an expression, bottom up; `weak` tells whether it stands in a weak
position. -/
def foldExpr (weak : Bool) : BoundExpr → Res BoundExpr
  | .const v => .ok (.const v)
  | .colRef i t => .ok (.colRef i t)
  | .arith op left right type => do
      let l ← foldExpr false left
      let r ← foldExpr false right
      if isConst l && isConst r then .const <$> evalConst (.arith op l r type)
      else if isNullConst l || isNullConst r then pure (.const nullVal)
      else pure (.arith op l r type)
  | .neg operand type => do
      let x ← foldExpr false operand
      if isConst x then .const <$> evalConst (.neg x type)
      else pure (.neg x type)
  | .cmp op left right => do
      let l ← foldExpr false left
      let r ← foldExpr false right
      if isConst l && isConst r then .const <$> evalConst (.cmp op l r)
      else if isNullConst l || isNullConst r then pure (.const nullVal)
      else if weak then pure (simplifyCmp op l r)
      else pure (.cmp op l r)
  | .logic op left right => do
      let l ← foldExpr weak left
      let r ← foldExpr weak right
      if isConst l && isConst r then .const <$> evalConst (.logic op l r)
      else pure (simplifyLogic op l r)
  | .not operand => do
      let x ← foldExpr false operand
      if isConst x then .const <$> evalConst (.not x)
      else
        match simplifyNot x with
        | .cmp op l r => pure (if weak then simplifyCmp op l r else .cmp op l r)
        | y => pure y
  | .isNull operand negate => do
      let x ← foldExpr false operand
      if isConst x then .const <$> evalConst (.isNull x negate)
      else pure (.isNull x negate)
  | .funcCall func name strictNull args type => do
      let args ← foldArgs args
      if args.all isConst then .const <$> evalConst (.funcCall func name strictNull args type)
      else pure (.funcCall func name strictNull args type)
  | .cast operand type length scale => do
      let x ← foldExpr false operand
      if isConst x then .const <$> evalConst (.cast x type length scale)
      else pure (.cast x type length scale)

def foldArgs : List BoundExpr → Res (List BoundExpr)
  | [] => .ok []
  | a :: args => do
      let a ← foldExpr false a
      let args ← foldArgs args
      pure (a :: args)
end

end MySimpleDb.Planner
