import MySimpleDb.Analyzer.BoundExpr
import MySimpleDb.Lib.DecimalText

/-!
# Expression syntax

The expression trees the parser produces; literals keep their source text.
-/

namespace MySimpleDb.Parser

open MySimpleDb.Lib MySimpleDb.Analyzer

/-- A type as written: name, and length and scale when given. -/
structure TypeInfo where
  type : String
  length : Option Int := none
  scale : Option Int := none

inductive UnaryOp
  | plus | minus
deriving DecidableEq, Repr

inductive SqlExpr
  | int (text : Bytes)
  | float (text : Bytes)
  | decimal (text : Bytes)
  | string (value : Bytes)
  | null
  | bool (value : Bool)
  | identifier (name : String)
  | binaryOp (op : ArithOp) (left right : SqlExpr)
  | unaryOp (op : UnaryOp) (operand : SqlExpr)
  | compare (op : CmpOp) (left right : SqlExpr)
  | logic (op : LogicOp) (left right : SqlExpr)
  | not (operand : SqlExpr)
  | isNull (operand : SqlExpr) (negate : Bool)
  | between (expr lo hi : SqlExpr)
  | funcCall (name : String) (args : List SqlExpr)
  | cast (operand : SqlExpr) (target : TypeInfo)

/-! ## SELECT -/

/-- An item of a select list; an empty alias is none. -/
inductive SelectItem
  | star
  | expr (e : SqlExpr) (aliasName : String)

structure OrderItem where
  expr : SqlExpr
  desc : Bool := false

/-- The parts of a SELECT but its table. -/
structure SelectStmt where
  items : List SelectItem
  cond : Option SqlExpr := none
  orders : List OrderItem := []

/-! ## Expressions as text -/

/-- Source bytes as a string, one character for each. -/
def textString (text : Bytes) : String :=
  String.ofList (text.map fun c => Char.ofNat c.toNat)

def typeToString (type : String) (length scale : Option Int) : String :=
  match length, scale with
  | none, _ => type
  | some n, some s => type ++ "(" ++ toString n ++ "," ++ toString s ++ ")"
  | some n, none => type ++ "(" ++ toString n ++ ")"

def cmpToString : CmpOp → String
  | .eq => "="
  | .ne => "<>"
  | .lt => "<"
  | .le => "<="
  | .gt => ">"
  | .ge => ">="

def arithToString : ArithOp → String
  | .add => "+"
  | .sub => "-"
  | .mul => "*"
  | .div => "/"

def unaryToString : UnaryOp → String
  | .plus => "+"
  | .minus => "-"

mutual

/-- The name of an output column without an alias. -/
def exprToString : SqlExpr → String
  | .int text => textString text
  | .float text => textString text
  | .decimal text => textString text
  | .string value => "'" ++ textString value ++ "'"
  | .null => "NULL"
  | .bool value => if value then "true" else "false"
  | .identifier name => name
  | .binaryOp op left right =>
      "(" ++ exprToString left ++ " " ++ arithToString op ++ " " ++ exprToString right ++ ")"
  | .unaryOp op operand => "(" ++ unaryToString op ++ exprToString operand ++ ")"
  | .compare op left right =>
      "(" ++ exprToString left ++ " " ++ cmpToString op ++ " " ++ exprToString right ++ ")"
  | .logic op left right =>
      "(" ++ exprToString left ++ (if op = .and then " AND " else " OR ") ++
        exprToString right ++ ")"
  | .not operand => "(NOT " ++ exprToString operand ++ ")"
  | .isNull operand negate =>
      "(" ++ exprToString operand ++ (if negate then " IS NOT NULL" else " IS NULL") ++ ")"
  | .between expr lo hi =>
      "(" ++ exprToString expr ++ " BETWEEN " ++ exprToString lo ++ " AND " ++
        exprToString hi ++ ")"
  | .funcCall name args => name ++ "(" ++ String.intercalate ", " (exprsToStrings args) ++ ")"
  | .cast operand target =>
      "CAST(" ++ exprToString operand ++ " AS " ++
        typeToString target.type target.length target.scale ++ ")"

def exprsToStrings : List SqlExpr → List String
  | [] => []
  | e :: es => exprToString e :: exprsToStrings es

end

end MySimpleDb.Parser
