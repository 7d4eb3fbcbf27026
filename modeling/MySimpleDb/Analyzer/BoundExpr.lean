import MySimpleDb.Storage.Types

/-!
# Bound expressions

Expression trees after name resolution: columns are row positions, functions
are overload ids and every result domain has been fixed.
-/

namespace MySimpleDb.Analyzer

open MySimpleDb.Storage

inductive CmpOp
  | eq | ne | lt | le | gt | ge
deriving DecidableEq, Repr

inductive LogicOp
  | and | or
deriving DecidableEq, Repr

/-- The arithmetic operator characters. -/
inductive ArithOp
  | add | sub | mul | div
deriving DecidableEq, Repr

inductive BoundExpr
  | const (value : Value)
  | colRef (colIdx : Nat) (type : TypeAttr)
  | arith (op : ArithOp) (left right : BoundExpr) (type : TypeAttr)
  | neg (operand : BoundExpr) (type : TypeAttr)
  | cmp (op : CmpOp) (left right : BoundExpr)
  | logic (op : LogicOp) (left right : BoundExpr)
  | not (operand : BoundExpr)
  | isNull (operand : BoundExpr) (negate : Bool)
  | funcCall (func : Nat) (name : String) (strictNull : Bool)
      (args : List BoundExpr) (type : TypeAttr)
  | cast (operand : BoundExpr) (type : TypeAttr) (length scale : Nat)

/-- Projection column: a star column has no expression and names a row
position. -/
structure ProjCol where
  expr : Option BoundExpr
  name : String
  colIdx : Nat := 0

/-- Sort key: an output column or an expression over the input row. -/
structure BoundOrderItem where
  desc : Bool := false
  outIdx : Nat := 0
  expr : Option BoundExpr

/-- Assignment of an UPDATE. -/
structure BoundUpdateItem where
  colIdx : Nat
  value : BoundExpr

end MySimpleDb.Analyzer
