import MySimpleDb.Proto.Frame

/-!
# Streaming a result set

The server turns values into cells and sends them in batches as it pulls rows;
the client takes frame after frame until the end frame.
-/

namespace MySimpleDb.Server

open MySimpleDb.Lib MySimpleDb.Storage MySimpleDb.Proto

/-! ## The sending side -/

/-- Message levels, lowest first. -/
inductive LogLevel
  | debug5 | debug4 | debug3 | debug2 | debug | info | notice | warning | error | critical
deriving DecidableEq, Repr

def LogLevel.rank : LogLevel → Nat
  | .debug5 => 0
  | .debug4 => 1
  | .debug3 => 2
  | .debug2 => 3
  | .debug => 4
  | .info => 5
  | .notice => 6
  | .warning => 7
  | .error => 8
  | .critical => 9

/-- Add one to a big-endian number held in bytes, from the last byte up: the
carry out and the bytes. -/
def addOne : Bytes → Bool × Bytes
  | [] => (true, [])
  | b :: rest =>
      let (carry, out) := addOne rest
      if carry then (b = 255, (b + 1) :: out) else (false, b :: out)

/-- A decimal as a cell: the magnitude, negated byte by byte when negative. -/
def decCell (d : DecimalVal) : DecimalCell :=
  let mag := Cursor.bigEndian 16 d.unscaled.natAbs
  ⟨if d.unscaled < 0 then (addOne (mag.map (~~~ ·))).2 else mag, d.scale⟩

private def badAccess {α : Type} : Res α :=
  .error (.crash "bad_variant_access")

/-- The cell of a value, by the representation its type names. -/
def toCell (v : Value) : Res CellVal :=
  if valueIsNull v then .ok .null
  else
    match v.type.rep, v.box with
    | .bool, .bool b => .ok (.bool b)
    | .int64, .int64 i => .ok (.int64 i)
    | .float, .float x => .ok (.float x)
    | .double, .double d => .ok (.double d)
    | .str, .str s => .ok (.string s)
    | .dec, .dec d => .ok (.decimal (decCell d))
    | .none, _ => dbRaise .internal "值无语义类型"
    | _, _ => badAccess

/-- The rows pulled from the stream, a frame whenever a batch is full: the bytes
sent, and the batch left over with the number of rows. -/
def sendRows : List (List Value) → List (List CellVal) → Nat →
    Bytes × Res (List (List CellVal) × Nat)
  | [], batch, total => ([], .ok (batch, total))
  | row :: rows, batch, total =>
      match row.mapM toCell with
      | .error e => ([], .error e)
      | .ok cells =>
          let batch := batch ++ [cells]
          let total := (total + 1) % 2 ^ 64
          if rsBatchMaxRows ≤ batch.length then
            let (sent, left) := sendRows rows [] total
            (sendFrame MsgType.resultSetBatch (encodeRsBatch batch) ++ sent, left)
          else sendRows rows batch total

/-- A notice is sent when the session wants its level. -/
def sendNotice (sessionLevel msgLevel : LogLevel) (message : Bytes) : Bytes :=
  if msgLevel.rank < sessionLevel.rank then []
  else sendFrame MsgType.notice (encodeNotice msgLevel.rank message)

def utf8 (s : String) : Bytes :=
  s.toUTF8.data.toList

/-- The whole response of a result set: the bytes sent, and an error when a row
has no cells. -/
def sendResultStream (colNames : List Bytes) (rows : List (List Value))
    (sessionLevel : LogLevel) : Bytes × Res Unit :=
  let head := sendFrame MsgType.resultSetHead (encodeRsHead colNames)
  match sendRows rows [] 0 with
  | (sent, .error e) => (head ++ sent, .error e)
  | (sent, .ok (batch, total)) =>
      let last := if batch = [] then [] else sendFrame MsgType.resultSetBatch (encodeRsBatch batch)
      let done := sendNotice sessionLevel .debug
        (utf8 "执行结果: 返回 " ++ natToText total ++ utf8 " 行")
      (head ++ sent ++ last ++ done ++ sendFrame MsgType.resultSetEnd (encodeRsEnd total), .ok ())

/-! ## The receiving side -/

/-- A frame takes at least its length field and type byte off the stream. -/
theorem recvFrame_length {maxPayload : Nat} {stream rest : Bytes} {frame : MsgType × Bytes}
    (taken : recvFrame maxPayload stream = some (frame, rest)) : rest.length < stream.length := by
  obtain ⟨len, payload, header, taken⟩ := Cursor.bind_eq_some.mp taken
  have header_length := Cursor.num_length header
  split at taken
  · cases taken
  · obtain ⟨text, left, body, taken⟩ := Cursor.bind_eq_some.mp taken
    have body_length := Cursor.bytes_length body
    split at taken
    · obtain ⟨-, rfl⟩ := Prod.mk.inj (Option.some.inj taken)
      omega
    · cases taken

/-- Frames after the head, until the end frame; `none` when the client gives
the result up. -/
def recvResultStream (stream : Bytes) (rs : ResultSet) : Option ResultSet :=
  match taken : recvFrame 0 stream with
  | none => none
  | some ((type, body), rest) =>
      have := recvFrame_length taken
      if type = MsgType.resultSetBatch then
        match decodeRsBatch body (rs.cols.length % 2 ^ 32) with
        | none => none
        | some rows => recvResultStream rest { rs with rows := rs.rows ++ rows }
      else if type = MsgType.resultSetEnd then
        match decodeRsEnd body with
        | none => none
        | some total => if total = rs.rows.length then some rs else none
      else if type = MsgType.notice then
        match decodeNotice body with
        | none => none
        | some _ => recvResultStream rest rs
      else none
termination_by stream.length

/-- The reply to a query that is a result set: notices first, then the head. -/
def recvReply (stream : Bytes) : Option ResultSet :=
  match taken : recvFrame 0 stream with
  | none => none
  | some ((type, body), rest) =>
      have := recvFrame_length taken
      if type = MsgType.notice then
        match decodeNotice body with
        | none => none
        | some _ => recvReply rest
      else if type = MsgType.resultSetHead then
        match decodeRsHead body with
        | none => none
        | some cols => recvResultStream rest { cols := cols }
      else none
termination_by stream.length

end MySimpleDb.Server
