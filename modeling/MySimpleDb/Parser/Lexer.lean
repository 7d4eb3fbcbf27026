import MySimpleDb.Parser.Ast
import MySimpleDb.Parser.Modes
import MySimpleDb.Parser.Token

/-!
# The lexer

The rules of the server's scanner in their order, and the marks that its tokens
put on the text.
-/

namespace MySimpleDb.Parser

open MySimpleDb.Lib

/-! ## Rules -/

inductive LexState
  | initial | commentBlock
deriving DecidableEq

/-- A rule of the lexer; its action gives the token of the matched text, if any. -/
abbrev LexRule : Type := Rule LexState (Bytes → Option Token) UInt8

/-- Keywords match in either case. -/
def keywordPattern (keyword : Bytes) : Pattern UInt8 :=
  .word (keyword.map fun letter c => c = letter || c + 32 = letter)

def keywords : List (String × Token) :=
  [("create", .create), ("table", .table), ("schema", .schema), ("index", .index), ("on", .on),
    ("drop", .drop), ("delete", .delete), ("from", .from), ("insert", .insert), ("into", .into),
    ("values", .values), ("update", .update), ("cast", .cast), ("int", .int),
    ("bigint", .bigint), ("float", .float), ("char", .char), ("varchar", .varchar),
    ("double", .double), ("decimal", .decimal), ("numeric", .numeric), ("boolean", .boolean),
    ("bool", .bool), ("explain", .explain), ("select", .select), ("as", .as), ("order", .order),
    ("by", .by), ("asc", .asc), ("desc", .desc), ("null", .null), ("true", .true),
    ("false", .false), ("where", .where), ("and", .and), ("or", .or), ("not", .not), ("is", .is),
    ("between", .between), ("set", .set), ("begin", .begin), ("start", .start),
    ("transaction", .transaction), ("commit", .commit), ("rollback", .rollback),
    ("work", .work)]

def keywordRule (keyword : String × Token) : LexRule where
  on := [.initial]
  pattern := keywordPattern (ascii keyword.1)
  action := fun _ => some keyword.2

def digitPattern : Pattern UInt8 :=
  .one isDigit

def dotPattern : Pattern UInt8 :=
  .one fun c => c = 46

/-- `[eE][+-]?{DIGIT}+` -/
def exponentPattern : Pattern UInt8 :=
  .seq (.one fun c => c = 101 || c = 69)
    (.seq (.opt (.one fun c => c = 43 || c = hyphen)) (.plus digitPattern))

def floatPattern : Pattern UInt8 :=
  .alt (.seq (.plus digitPattern) (.seq dotPattern (.seq (.star digitPattern) exponentPattern)))
    (.alt (.seq dotPattern (.seq (.plus digitPattern) exponentPattern))
      (.seq (.plus digitPattern) exponentPattern))

def decimalPattern : Pattern UInt8 :=
  .alt (.seq (.plus digitPattern) (.seq dotPattern (.star digitPattern)))
    (.seq dotPattern (.plus digitPattern))

/-- `'([^']|'')*'`, for either quote. -/
def quotedPattern (q : UInt8) : Pattern UInt8 :=
  .seq (.one fun c => c = q)
    (.seq (.star (.alt (.one fun c => c ≠ q) (.word [fun c => c = q, fun c => c = q])))
      (.one fun c => c = q))

/-- The characters up to the closing quote, a doubled quote once. -/
def unquoted (q : UInt8) : Bytes → Bytes
  | [] => []
  | [_] => []
  | c :: d :: rest => if c = q ∧ d = q then c :: unquoted q rest else c :: unquoted q (d :: rest)

def isNameStart (c : UInt8) : Bool :=
  97 ≤ c && c ≤ 122 || 65 ≤ c && c ≤ 90 || c = 95

def isNameChar (c : UInt8) : Bool :=
  isNameStart c || isDigit c

/-- `[a-zA-Z_][a-zA-Z0-9_]*` -/
def namePattern : Pattern UInt8 :=
  .seq (.one isNameStart) (.star (.one isNameChar))

def lowered (c : UInt8) : UInt8 :=
  if 65 ≤ c ∧ c ≤ 90 then c + 32 else c

/-- Literals, names and keywords. -/
def wordRules : List LexRule :=
  keywords.map keywordRule ++
    [{ on := [.initial], pattern := floatPattern, action := fun text => some (.floatNum text) },
      { on := [.initial], pattern := decimalPattern,
        action := fun text => some (.decimalNum text) },
      { on := [.initial], pattern := .plus digitPattern,
        action := fun text => some (.integer text) },
      { on := [.initial], pattern := quotedPattern quote,
        action := fun text => some (.string (unquoted quote text.tail)) },
      { on := [.initial], pattern := quotedPattern doubleQuote,
        action := fun text => some (.identifier (textString (unquoted doubleQuote text.tail))) },
      { on := [.initial], pattern := namePattern,
        action := fun text => some (.identifier (textString (text.map lowered))) }]

/-- A fixed operator text. -/
def operatorPattern (text : String) : Pattern UInt8 :=
  .word ((ascii text).map fun expected c => c = expected)

/-- Comparisons of one or two characters. -/
def compareRules : List LexRule :=
  [{ on := [.initial], pattern := operatorPattern "<=", action := fun _ => some .le },
    { on := [.initial], pattern := operatorPattern ">=", action := fun _ => some .ge },
    { on := [.initial], pattern := .alt (operatorPattern "==") (operatorPattern "="),
      action := fun _ => some .eq },
    { on := [.initial], pattern := .alt (operatorPattern "<>") (operatorPattern "!="),
      action := fun _ => some .ne }]

/-- Tokens of one character. -/
def charToken (c : UInt8) : Option Token :=
  if c = 43 then some .plus
  else if c = hyphen then some .minus
  else if c = asterisk then some .star
  else if c = solidus then some .slash
  else if c = 40 then some .lparen
  else if c = 41 then some .rparen
  else if c = 44 then some .comma
  else if c = semicolon then some .semicolon
  else if c = 46 then some .dot
  else if c = 60 then some .lt
  else if c = 62 then some .gt
  else none

def charRule : LexRule where
  on := [.initial]
  pattern := .one fun c => (charToken c).isSome
  action := fun text => text.head?.bind charToken

def newlineRule : LexRule where
  on := [.initial]
  pattern := .one fun c => c = newline
  action := fun _ => none

/-- `[ \t\r]+` -/
def blankRule : LexRule where
  on := [.initial]
  pattern := .plus (.one fun c => c = 32 || c = 9 || c = 13)
  action := fun _ => none

/-- `"--"[^\n]*` -/
def commentRule : LexRule where
  on := [.initial]
  pattern := .seq (operatorPattern "--") (.star (.one fun c => c ≠ newline))
  action := fun _ => none

def blockStartRule : LexRule where
  on := [.initial]
  pattern := operatorPattern "/*"
  action := fun _ => none
  begins := some .commentBlock

def blockEndRule : LexRule where
  on := [.commentBlock]
  pattern := blockEndPattern
  action := fun _ => none
  begins := some .initial

def blockTextRule : LexRule where
  on := [.commentBlock]
  pattern := blockTextPattern
  action := fun _ => none

/-- Any other character is invalid. -/
def invalidRule : LexRule where
  on := [.initial]
  pattern := .one fun c => c ≠ newline
  action := fun _ => some .error

/-- All rules, in their order. -/
def lexRules : List LexRule :=
  wordRules ++ compareRules ++
    [charRule, newlineRule, blankRule, commentRule, blockStartRule, blockEndRule, blockTextRule,
      invalidRule]

/-! ## Tokens -/

/-- The token that a chunk gives. -/
def chunkToken (chunk : Option (Bytes → Option Token) × Bytes) : Option Token :=
  chunk.1.bind fun action => action chunk.2

/-- The text cut as the lexer matches it, and the state at its end. -/
def lex (text : Bytes) : List (Option (Bytes → Option Token) × Bytes) × LexState :=
  Rule.scan lexRules .initial text

/-- The tokens of a text; an unclosed block comment ends with an error. -/
def tokens (text : Bytes) : List Token :=
  let (chunks, last) := lex text
  chunks.filterMap chunkToken ++ if last = .commentBlock then [.error] else []

/-- The text with the semicolons marked that become tokens. -/
def tokenMarks (chunks : List (Option (Bytes → Option Token) × Bytes)) : Marked :=
  chunks.flatMap fun chunk => chunk.2.map fun c => (c, chunkToken chunk = some .semicolon)

def lexMarks (text : Bytes) : Marked :=
  tokenMarks (lex text).1

/-- No chunk is a quote that nothing closes. -/
def QuotesClosed (chunks : List (Option (Bytes → Option Token) × Bytes)) : Prop :=
  ∀ chunk ∈ chunks, chunkToken chunk = some .error →
    chunk.2 ≠ [quote] ∧ chunk.2 ≠ [doubleQuote]

/-- All quotes and all comments of the text are closed. -/
def Terminated (text : Bytes) : Prop :=
  QuotesClosed (lex text).1 ∧ (lex text).2 = .initial

instance (chunks : List (Option (Bytes → Option Token) × Bytes)) :
    Decidable (QuotesClosed chunks) :=
  List.decidableBAll _ _

instance (text : Bytes) : Decidable (Terminated text) :=
  inferInstanceAs (Decidable (_ ∧ _))

example : tokens (ascii "1e-5-- x\nB='b''c;';") =
    [.floatNum (ascii "1e-5"), .identifier "b", .eq, .string (ascii "b'c;"), .semicolon] := by
  decide +kernel

end MySimpleDb.Parser
