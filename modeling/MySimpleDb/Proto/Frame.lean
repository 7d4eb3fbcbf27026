import MySimpleDb.Common.Err
import MySimpleDb.Lib.Cursor
import MySimpleDb.Storage.Types

/-!
# Frames between client and server

The length-prefixed frames of the connection and the codings of their bodies:
the head, batches and end of a result set, and notices.
-/

namespace MySimpleDb.Proto

open MySimpleDb.Lib MySimpleDb.Storage

/-! ## Frames -/

/-- Message types, by their byte in the frame. -/
abbrev MsgType : Type := UInt8

namespace MsgType

def query : MsgType := 1
def ok : MsgType := 2
def error : MsgType := 3
def resultSetHead : MsgType := 4
def resultSetBatch : MsgType := 5
def resultSetEnd : MsgType := 6
def notice : MsgType := 7

end MsgType

/-- A whole frame: the payload length in 32 bits, the type byte, the body. -/
def sendFrame (type : MsgType) (body : Bytes) : Bytes :=
  Cursor.bigEndian 4 (1 + body.length) ++ type :: body

/-- One frame off the stream; a limit of 0 is no limit. -/
def recvFrame (maxPayload : Nat) : Cursor (MsgType × Bytes) := do
  let len ← Cursor.num 4
  if len < 1 ∨ (maxPayload ≠ 0 ∧ maxPayload < len) then Cursor.fail
  else do
    match ← Cursor.bytes len with
    | type :: body => pure (type, body)
    | [] => Cursor.fail

/-! ## Cells -/

/-- A fixed-point cell: 16 bytes in two's complement, most significant first,
and the scale. -/
structure DecimalCell where
  bytes : Bytes
  scale : Nat
deriving DecidableEq

inductive CellVal
  | null
  | bool (b : Bool)
  | int64 (i : Int64)
  | double (d : F64)
  | float (x : F32)
  | string (s : Bytes)
  | decimal (d : DecimalCell)
deriving DecidableEq

def cellNull : Nat := 0
def cellInt : Nat := 1
def cellDouble : Nat := 2
def cellString : Nat := 3
def cellBool : Nat := 4
def cellFloat : Nat := 5
def cellDecimal : Nat := 6

/-- The tag byte and the payload of a cell; a string has a length of 16 bits. -/
def appendCell : CellVal → Bytes
  | .int64 i => Cursor.bigEndian 1 cellInt ++ Cursor.bigEndian 8 i.toUInt64.toNat
  | .double d => Cursor.bigEndian 1 cellDouble ++ Cursor.bigEndian 8 d.toBits
  | .string s => Cursor.bigEndian 1 cellString ++ (Cursor.bigEndian 2 s.length ++ s)
  | .bool b => Cursor.bigEndian 1 cellBool ++ Cursor.bigEndian 1 (if b then 1 else 0)
  | .float x => Cursor.bigEndian 1 cellFloat ++ Cursor.bigEndian 4 x.toBits
  | .decimal d =>
      Cursor.bigEndian 1 cellDecimal ++ (d.bytes ++ Cursor.bigEndian 1 d.scale)
  | .null => Cursor.bigEndian 1 cellNull

/-- A length of 16 bits and as many bytes. -/
def takeText : Cursor Bytes := do
  let len ← Cursor.num 2
  Cursor.bytes len

def takeCell : Cursor CellVal := do
  let tag ← Cursor.num 1
  if tag = cellInt then do
    let bits ← Cursor.num 8
    pure (.int64 (UInt64.ofNat bits).toInt64)
  else if tag = cellDouble then do
    let bits ← Cursor.num 8
    pure (.double (Flt.ofBits _ bits))
  else if tag = cellString then do
    let text ← takeText
    pure (.string text)
  else if tag = cellBool then do
    let b ← Cursor.num 1
    if 1 < b then Cursor.fail else pure (.bool (b ≠ 0))
  else if tag = cellFloat then do
    let bits ← Cursor.num 4
    pure (.float (Flt.ofBits _ bits))
  else if tag = cellDecimal then do
    let bytes ← Cursor.bytes 16
    let scale ← Cursor.num 1
    pure (.decimal ⟨bytes, scale⟩)
  else if tag = cellNull then pure .null
  else Cursor.fail

/-! ## Result sets -/

/-- The most rows of one batch. -/
def rsBatchMaxRows : Nat := 256

/-- What a client builds up: names from the head, rows from the batches. -/
structure ResultSet where
  cols : List Bytes := []
  rows : List (List CellVal) := []

def encodeRsHead (cols : List Bytes) : Bytes :=
  Cursor.bigEndian 4 cols.length ++
    cols.flatMap fun col => Cursor.bigEndian 2 col.length ++ col

def encodeRsBatch (rows : List (List CellVal)) : Bytes :=
  Cursor.bigEndian 4 rows.length ++ rows.flatMap fun row => row.flatMap appendCell

def encodeRsEnd (rowCount : Nat) : Bytes :=
  Cursor.bigEndian 8 rowCount

def decodeRsHead (body : Bytes) : Option (List Bytes) :=
  Cursor.whole (do
    let colCount ← Cursor.num 4
    Cursor.many takeText colCount) body

def decodeRsBatch (body : Bytes) (colCount : Nat) : Option (List (List CellVal)) :=
  Cursor.whole (do
    let rowCount ← Cursor.num 4
    Cursor.many (Cursor.many takeCell colCount) rowCount) body

def decodeRsEnd (body : Bytes) : Option Nat :=
  Cursor.whole (Cursor.num 8) body

/-! ## Notices -/

def noticeLevelMax : Nat := 9

def encodeNotice (level : Nat) (message : Bytes) : Bytes :=
  Cursor.bigEndian 1 level ++ message

def decodeNotice (body : Bytes) : Option (Nat × Bytes) :=
  match Cursor.num 1 body with
  | some (level, message) => if noticeLevelMax < level then none else some (level, message)
  | none => none

end MySimpleDb.Proto
