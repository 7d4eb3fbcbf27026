import MySimpleDb.Parser.Modes

/-!
# The client's scanner

The client collects SQL text line by line and sends it to the server at each
semicolon outside of quotes and comments.
-/

namespace MySimpleDb.Client

open MySimpleDb.Lib MySimpleDb.Parser

def sqlBufferLimit : Nat :=
  268435456

inductive ScanState
  | initial | comment | stringSingle | stringDouble | commentBlock
deriving DecidableEq

/-- The text collected so far and the Query frames sent, first to last.  What the replies are
does not change what is sent. -/
structure ClientState where
  sqlBuffer : Bytes := []
  sqlOverflow : Bool := false
  state : ScanState := .initial
  frames : List Bytes := []

namespace ClientState

def resetSqlBuffer (s : ClientState) : ClientState :=
  { s with sqlBuffer := [], sqlOverflow := false }

def appendToSql (text : Bytes) (s : ClientState) : ClientState :=
  if s.sqlOverflow then s
  else if sqlBufferLimit < s.sqlBuffer.length + text.length then
    { s with sqlBuffer := [], sqlOverflow := true }
  else { s with sqlBuffer := s.sqlBuffer ++ text }

def sendToServer (s : ClientState) : ClientState :=
  if s.sqlOverflow then s.resetSqlBuffer
  else if s.sqlBuffer = [] then s
  else { s with frames := s.frames ++ [s.sqlBuffer] }.resetSqlBuffer

/-- White space in front of a statement is not collected. -/
def appendSpace (text : Bytes) (s : ClientState) : ClientState :=
  if s.sqlBuffer = [] then s else s.appendToSql text

def appendAndSend (text : Bytes) (s : ClientState) : ClientState :=
  (s.appendToSql text).sendToServer

end ClientState

/-! ## Rules -/

abbrev ScanRule : Type := Rule ScanState (Bytes → ClientState → ClientState) UInt8

/-- `[^\n]+` in a line comment. -/
def lineTextRule : ScanRule where
  on := [.comment]
  pattern := .plus (.one fun c => c ≠ newline)
  action := ClientState.appendToSql

def lineEndRule : ScanRule where
  on := [.comment]
  pattern := .one fun c => c = newline
  action := ClientState.appendToSql
  begins := some .initial

def blockEndRule : ScanRule where
  on := [.commentBlock]
  pattern := blockEndPattern
  action := ClientState.appendToSql
  begins := some .initial

def blockTextRule : ScanRule where
  on := [.commentBlock]
  pattern := blockTextPattern
  action := ClientState.appendToSql

def spaceRule : ScanRule where
  on := [.initial]
  pattern := .plus (.one isSpace)
  action := ClientState.appendSpace

/-- A quote outside of comments starts its string. -/
def openRule (q : UInt8) (string : ScanState) : ScanRule where
  on := [.initial]
  pattern := .one fun c => c = q
  action := ClientState.appendToSql
  begins := some string

def lineStartRule : ScanRule where
  on := [.initial]
  pattern := .seq (.one fun c => c = hyphen) (.one fun c => c = hyphen)
  action := ClientState.appendToSql
  begins := some .comment

def blockStartRule : ScanRule where
  on := [.initial]
  pattern := .seq (.one fun c => c = solidus) (.one fun c => c = asterisk)
  action := ClientState.appendToSql
  begins := some .commentBlock

def semicolonRule : ScanRule where
  on := [.initial]
  pattern := .one fun c => c = semicolon
  action := ClientState.appendAndSend

/-- Any other character, in a state. -/
def anyRule (state : ScanState) : ScanRule where
  on := [state]
  pattern := .one fun c => c ≠ newline
  action := ClientState.appendToSql

def doubledRule (q : UInt8) (string : ScanState) : ScanRule where
  on := [string]
  pattern := .seq (.one fun c => c = q) (.one fun c => c = q)
  action := ClientState.appendToSql

def closeRule (q : UInt8) (string : ScanState) : ScanRule where
  on := [string]
  pattern := .one fun c => c = q
  action := ClientState.appendToSql
  begins := some .initial

/-- A line may end inside a string. -/
def stringNewlineRule (string : ScanState) : ScanRule where
  on := [string]
  pattern := .one fun c => c = newline
  action := ClientState.appendToSql

def stringRules (q : UInt8) (string : ScanState) : List ScanRule :=
  [doubledRule q string, closeRule q string, stringNewlineRule string, anyRule string]

/-- All rules, in their order. -/
def scanRules : List ScanRule :=
  [lineTextRule, lineEndRule, blockEndRule, blockTextRule, spaceRule,
    openRule quote .stringSingle, openRule doubleQuote .stringDouble, lineStartRule,
    blockStartRule, semicolonRule, anyRule .initial] ++
    stringRules quote .stringSingle ++ stringRules doubleQuote .stringDouble

/-! ## Input -/

/-- The action of a chunk; what no rule matches is not collected. -/
def ClientState.take (s : ClientState)
    (chunk : Option (Bytes → ClientState → ClientState) × Bytes) : ClientState :=
  match chunk.1 with
  | some action => action chunk.2 s
  | none => s

/-- A text goes through the scanner in its state. -/
def ClientState.yylex (s : ClientState) (text : Bytes) : ClientState :=
  let (chunks, last) := Rule.scan scanRules s.state text
  { chunks.foldl ClientState.take s with state := last }

/-- An empty line is no input. -/
def ClientState.processInput (s : ClientState) (input : Bytes) : ClientState :=
  if input = [] then s else s.yylex (input ++ [newline])

/-- The lines of a text; a text that does not end its last line has it still. -/
def getLines : Bytes → List Bytes
  | [] => []
  | c :: text =>
      if c = newline then [] :: getLines text
      else
        match getLines text with
        | [] => [[c]]
        | line :: lines => (c :: line) :: lines

/-- The client after the whole input; a statement left over gets its semicolon. -/
def runBatch (input : Bytes) : ClientState :=
  let s := (getLines input).foldl ClientState.processInput {}
  if s.sqlBuffer = [] then s
  else (s.appendToSql [semicolon]).sendToServer

end MySimpleDb.Client
