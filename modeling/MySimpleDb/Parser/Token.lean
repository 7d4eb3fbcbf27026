import MySimpleDb.Lib.DecimalText

/-!
# Tokens

What the lexer hands to the parser.  Literals keep their source text; names hold
one character for each byte.
-/

namespace MySimpleDb.Parser

open MySimpleDb.Lib

inductive Token
  -- keywords
  | create | table | drop | schema | insert | into | values | delete | «from» | update | index | on
  | int | bigint | float | char | varchar | double | boolean | bool | numeric | decimal
  | explain | select | as | null | true | false | where | and | or | not | is | set | between | cast
  | order | by | asc | desc
  | begin | start | transaction | commit | work | rollback
  -- literals and names
  | integer (text : Bytes)
  | floatNum (text : Bytes)
  | decimalNum (text : Bytes)
  | identifier (name : String)
  | string (value : Bytes)
  -- operators
  | eq | ne | le | ge | lt | gt
  | plus | minus | star | slash
  -- punctuation
  | lparen | rparen | comma | semicolon | dot
  | error
deriving DecidableEq

end MySimpleDb.Parser
