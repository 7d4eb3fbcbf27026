import MySimpleDb.Lib.SepList
import MySimpleDb.Parser.Ast
import MySimpleDb.Parser.Token
import MySimpleDb.Storage.Types

/-!
# The grammar of expressions

The productions of expressions, bounds of BETWEEN and argument lists, with the
trees their actions build.  Where the productions are ambiguous the parser
decides by the precedence of the rule on its stack and of the token ahead; a
derivation therefore names the operators open at its left edge and the rules
open at its right edge.
-/

namespace MySimpleDb.Parser

open MySimpleDb.Lib MySimpleDb.Storage MySimpleDb.Analyzer

/-! ## Precedence -/

/-- The line of a token in the precedence declarations, from `%left OR` up. -/
def Token.level : Token → Option Nat
  | .or => some 1
  | .and => some 2
  | .not => some 3
  | .is | .between => some 4
  | .eq | .ne | .lt | .le | .gt | .ge => some 5
  | .plus | .minus => some 6
  | .star | .slash => some 7
  | _ => none

/-- The level of `UMINUS`. -/
def uminusLevel : Nat := 8

/-- `%left`. -/
def leftAssoc (level : Nat) : Bool :=
  level ∈ [1, 2, 3, 6, 7]

/-- `%right`. -/
def rightAssoc (level : Nat) : Bool :=
  level = 8

/-- A rule on the stack with an operand at its right edge that may go on. -/
inductive OpenRule
  | level (level : Nat)
  /-- `BETWEEN`, whose last bound goes on with arithmetic operators alone. -/
  | between

/-- A token that an operand of a bound goes on with. -/
def Token.isArith (t : Token) : Bool :=
  t ∈ [.plus, .minus, .star, .slash]

/-- The parser reduces the rule before it shifts the token. -/
def OpenRule.reduces (t : Token) : OpenRule → Bool
  | .level rule =>
      match t.level with
      | some ahead => ahead < rule || (ahead = rule && leftAssoc rule)
      | none => true
  | .between => !t.isArith

/-- The parser shifts the token before it reduces a rule of this level. -/
def Token.shifts (rule : Nat) (t : Token) : Bool :=
  match t.level with
  | some ahead => rule < ahead || (ahead = rule && rightAssoc rule)
  | none => Bool.false

/-! ## Operators -/

def arithToken : ArithOp → Token
  | .add => .plus
  | .sub => .minus
  | .mul => .star
  | .div => .slash

def compareToken : CmpOp → Token
  | .eq => .eq
  | .ne => .ne
  | .lt => .lt
  | .le => .le
  | .gt => .gt
  | .ge => .ge

def logicToken : LogicOp → Token
  | .and => .and
  | .or => .or

def unaryToken : UnaryOp → Token
  | .plus => .plus
  | .minus => .minus

/-- An operator between two expressions: the token, its level and the tree. -/
inductive BinaryRule
  | arith (op : ArithOp)
  | compare (op : CmpOp)
  | logic (op : LogicOp)

namespace BinaryRule

def token : BinaryRule → Token
  | .arith op => arithToken op
  | .compare op => compareToken op
  | .logic op => logicToken op

def level : BinaryRule → Nat
  | .arith .add | .arith .sub => 6
  | .arith .mul | .arith .div => 7
  | .compare _ => 5
  | .logic .and => 2
  | .logic .or => 1

def tree : BinaryRule → SqlExpr → SqlExpr → SqlExpr
  | .arith op, left, right => .binaryOp op left right
  | .compare op, left, right => .compare op left right
  | .logic op, left, right => .logic op left right

/-- A rule has the precedence of its operator. -/
theorem level_token (rule : BinaryRule) : rule.token.level = some rule.level := by
  rcases rule with op | op | op <;> cases op <;> rfl

end BinaryRule

/-! ## Types -/

/-- `int_token`. -/
def intToken (text : Bytes) : Option Int :=
  let n : Int := digitsVal text
  if n ≤ int64Max then some n else none

/-- `plain_type`. -/
def plainType : Token → Option String
  | .int => some "int"
  | .bigint => some "bigint"
  | .float => some "float"
  | .double => some "double"
  | .boolean => some "boolean"
  | .bool => some "bool"
  | _ => none

/-- `len_type`. -/
def lenType : Token → Option String
  | .char => some "char"
  | .varchar => some "varchar"
  | _ => none

/-- `prec_type`. -/
def precType : Token → Option String
  | .numeric => some "numeric"
  | .decimal => some "decimal"
  | _ => none

/-- `type_specifier`; a length out of range is a syntax error. -/
inductive TypeSpecifier : List Token → TypeInfo → Prop
  | plain {t : Token} {name : String} (type : plainType t = some name) :
      TypeSpecifier [t] { type := name }
  | len {t : Token} {name : String} (type : lenType t = some name) :
      TypeSpecifier [t] { type := name }
  | lenLength {t : Token} {name : String} {text : Bytes} {n : Int} (type : lenType t = some name)
      (length : intToken text = some n) :
      TypeSpecifier [t, .lparen, .integer text, .rparen] { type := name, length := some n }
  | prec {t : Token} {name : String} (type : precType t = some name) :
      TypeSpecifier [t] { type := name }
  | precLength {t : Token} {name : String} {text : Bytes} {n : Int}
      (type : precType t = some name) (length : intToken text = some n) :
      TypeSpecifier [t, .lparen, .integer text, .rparen] { type := name, length := some n }
  | precScale {t : Token} {name : String} {text text' : Bytes} {n m : Int}
      (type : precType t = some name) (length : intToken text = some n)
      (scale : intToken text' = some m) :
      TypeSpecifier [t, .lparen, .integer text, .comma, .integer text', .rparen]
        { type := name, length := some n, scale := some m }

/-! ## Expressions -/

/-- The tree of a literal or a name. -/
def literal : Token → Option SqlExpr
  | .integer text => some (.int text)
  | .floatNum text => some (.float text)
  | .decimalNum text => some (.decimal text)
  | .string value => some (.string value)
  | .null => some .null
  | .true => some (.bool true)
  | .false => some (.bool false)
  | .identifier name => some (.identifier name)
  | _ => none

/-- `null_not_opt`. -/
def nullNot (negate : Bool) : List Token :=
  if negate then [.not] else []

/-- The two kinds of operands: `expression` and `between_operand`. -/
inductive Operand
  | expression | between

mutual

/-- The tokens derive the tree as an operand of a kind, with these operators open at the left
edge and these rules open at the right edge. -/
inductive Derives : Operand → List Token → SqlExpr → List Token → List OpenRule → Prop
  | literal {kind : Operand} {t : Token} {e : SqlExpr} (tree : literal t = some e) :
      Derives kind [t] e [] []
  | funcCall {name : String} {args : List Token} {es : List SqlExpr} (list : FuncArgs args es) :
      Derives .expression (.identifier name :: .lparen :: (args ++ [.rparen]))
        (.funcCall name es) [] []
  | cast {kind : Operand} {ts type : List Token} {e : SqlExpr} {target : TypeInfo}
      {lefts : List Token} {rights : List OpenRule}
      (operand : Derives .expression ts e lefts rights) (specifier : TypeSpecifier type target) :
      Derives kind (.cast :: .lparen :: (ts ++ .as :: (type ++ [.rparen]))) (.cast e target) [] []
  | paren {kind : Operand} {ts : List Token} {e : SqlExpr} {lefts : List Token}
      {rights : List OpenRule} (inner : Derives .expression ts e lefts rights) :
      Derives kind (.lparen :: (ts ++ [.rparen])) e [] []
  | unary {kind : Operand} {ts lefts : List Token} {e : SqlExpr} {rights : List OpenRule}
      (op : UnaryOp) (operand : Derives kind ts e lefts rights)
      (shifted : ∀ t ∈ lefts, t.shifts uminusLevel) :
      Derives kind (unaryToken op :: ts) (.unaryOp op e) [] (.level uminusLevel :: rights)
  | binary {kind : Operand} {ts ts' lefts lefts' : List Token} {e e' : SqlExpr}
      {rights rights' : List OpenRule} (rule : BinaryRule)
      (allowed : kind = .between → ∃ op, rule = .arith op)
      (left : Derives kind ts e lefts rights) (right : Derives kind ts' e' lefts' rights')
      (reduced : ∀ r ∈ rights, r.reduces rule.token) (shifted : ∀ t ∈ lefts', t.shifts rule.level) :
      Derives kind (ts ++ rule.token :: ts') (rule.tree e e') (lefts ++ [rule.token])
        (.level rule.level :: rights')
  | not {ts lefts : List Token} {e : SqlExpr} {rights : List OpenRule}
      (operand : Derives .expression ts e lefts rights) (shifted : ∀ t ∈ lefts, t.shifts 3) :
      Derives .expression (.not :: ts) (.not e) [] (.level 3 :: rights)
  | isNull {ts lefts : List Token} {e : SqlExpr} {rights : List OpenRule} (negate : Bool)
      (operand : Derives .expression ts e lefts rights) (reduced : ∀ r ∈ rights, r.reduces .is) :
      Derives .expression (ts ++ .is :: (nullNot negate ++ [.null])) (.isNull e negate)
        (lefts ++ [.is]) []
  | between {ts lo hi lefts leftsLo leftsHi : List Token} {e eLo eHi : SqlExpr}
      {rights rightsLo rightsHi : List OpenRule}
      (operand : Derives .expression ts e lefts rights)
      (lower : Derives .between lo eLo leftsLo rightsLo)
      (upper : Derives .between hi eHi leftsHi rightsHi)
      (reduced : ∀ r ∈ rights, r.reduces .between) :
      Derives .expression (ts ++ .between :: (lo ++ .and :: hi)) (.between e eLo eHi)
        (lefts ++ [.between]) [.between]
  | notBetween {ts lo hi lefts leftsLo leftsHi : List Token} {e eLo eHi : SqlExpr}
      {rights rightsLo rightsHi : List OpenRule}
      (operand : Derives .expression ts e lefts rights)
      (lower : Derives .between lo eLo leftsLo rightsLo)
      (upper : Derives .between hi eHi leftsHi rightsHi)
      (reduced : ∀ r ∈ rights, r.reduces .not) :
      Derives .expression (ts ++ .not :: .between :: (lo ++ .and :: hi))
        (.not (.between e eLo eHi)) (lefts ++ [.not]) [.between]

/-- `func_args`. -/
inductive FuncArgs : List Token → List SqlExpr → Prop
  | empty : FuncArgs [] []
  | snoc {args ts lefts : List Token} {es : List SqlExpr} {e : SqlExpr} {rights : List OpenRule}
      (list : FuncArgs args es) (last : Derives .expression ts e lefts rights) :
      FuncArgs (args ++ .comma :: ts) (es ++ [e])
  | one {ts lefts : List Token} {e : SqlExpr} {rights : List OpenRule}
      (first : Derives .expression ts e lefts rights) : FuncArgs ts [e]

end

/-- The parser accepts the tokens as an expression and builds the tree. -/
def Expression (ts : List Token) (e : SqlExpr) : Prop :=
  ∃ lefts rights, Derives .expression ts e lefts rights

end MySimpleDb.Parser
