import MySimpleDb.Storage.Page
import MySimpleDb.Storage.Types

/-!
# The bytes of the log

Records as `Wal::append` lays them out in `wal.log`, and the reader of recovery,
which fills a buffer from the file in chunks of any size.
-/

namespace MySimpleDb.Storage

open MySimpleDb.Lib

/-- A record as it is read from the file; the payload depends on `op`. -/
structure WalRecord where
  lsn : Nat := 0
  txn : Nat := 0
  op : UInt8 := 1
  payload : Bytes := []
deriving DecidableEq

def walHeaderSize : Nat := 25

def walPatchHeaderSize : Nat := 20

def walPayloadMax : Nat := walPatchHeaderSize + 2 * pageSize

namespace WalRecord

/-- What the CRC of a record covers. -/
def crcSource (r : WalRecord) : Bytes :=
  toBytes 8 r.lsn ++ toBytes 8 r.txn ++ [r.op] ++ r.payload

/-- `[len u32][lsn u64][txn u64][op u8][crc u32][payload]`. -/
def bytes (r : WalRecord) : Bytes :=
  toBytes 4 r.payload.length ++ (toBytes 8 r.lsn ++ toBytes 8 r.txn ++ [r.op]) ++
    toBytes 4 (crc32 r.crcSource).toNat ++ r.payload

theorem length_bytes (r : WalRecord) : r.bytes.length = walHeaderSize + r.payload.length := by
  simp only [bytes, List.length_append, length_toBytes, List.length_singleton, walHeaderSize]

end WalRecord

/-! ## Writing -/

/-- `wal.log` and the number of the next record. -/
structure WalFile where
  bytes : Bytes := []
  nextLsn : Nat := 1

/-- `Wal::append`; the record number is a 64-bit counter. -/
def WalFile.append (op : UInt8) (txn : Nat) (payload : Bytes) (w : WalFile) : WalFile :=
  { bytes := w.bytes ++ WalRecord.bytes ⟨w.nextLsn, txn, op, payload⟩
    nextLsn := (w.nextLsn + 1) % 2 ^ 64 }

/-! ## Reading -/

/-- How many bytes a read asks for at most. -/
def chunkSize : Nat := 16 * 1024

/-- The reader: what is left of the file, and the bytes read and not consumed. -/
structure WalReader where
  rest : Bytes
  /-- Reads made, and how many bytes the operating system gives for each. -/
  reads : Nat := 0
  sizes : Nat → Nat
  eof : Bool := false
  buf : Bytes := []
  validBytes : Nat := 0

namespace WalReader

/-- A reader at the front of a file. -/
def create (file : Bytes) (sizes : Nat → Nat) : WalReader :=
  { rest := file, sizes := sizes }

/-- Read at least one byte and at most a chunk; nothing is read at the end. -/
def fill (r : WalReader) : Bool × WalReader :=
  if r.eof then (false, r)
  else if r.rest = [] then (false, { r with reads := r.reads + 1, eof := true })
  else
    let n := max 1 (min (r.sizes r.reads) chunkSize)
    (true, { r with
      reads := r.reads + 1, buf := r.buf ++ r.rest.take n, rest := r.rest.drop n })

theorem fill_rest_lt {r : WalReader} (filled : r.fill.1 = true) :
    r.fill.2.rest.length < r.rest.length := by
  by_cases ended : r.eof = true ∨ r.rest = []
  · rcases ended with eof | empty
    · simp [fill, eof] at filled
    · by_cases eof : r.eof = true <;> simp [fill, eof, empty] at filled
  · obtain ⟨goes_on, some_left⟩ := not_or.mp ended
    have pos := List.length_pos_of_ne_nil some_left
    rw [fill, if_neg goes_on, if_neg some_left]
    simp only [List.length_drop]
    omega

/-- `while (buf_.size() < need) if (!fill()) return false;`. -/
def fillTo (need : Nat) (r : WalReader) : Bool × WalReader :=
  if r.buf.length < need then
    if _ : r.fill.1 = true then fillTo need r.fill.2
    else (false, r.fill.2)
  else (true, r)
termination_by r.rest.length
decreasing_by exact fill_rest_lt (by assumption)

/-- `WalReader::next`. -/
def next (r : WalReader) : Option WalRecord × WalReader :=
  match r.fillTo walHeaderSize with
  | (false, r) => (none, r)
  | (true, r) =>
      let len := ofBytes (r.buf.take 4)
      if walPayloadMax < len then (none, r)
      else
        match r.fillTo (walHeaderSize + len) with
        | (false, r) => (none, r)
        | (true, r) =>
            let crcSrc := (r.buf.drop 4).take 17 ++ (r.buf.drop walHeaderSize).take len
            if (crc32 crcSrc).toNat ≠ ofBytes ((r.buf.drop 21).take 4) then (none, r)
            else
              (some {
                  lsn := ofBytes ((r.buf.drop 4).take 8)
                  txn := ofBytes ((r.buf.drop 12).take 8)
                  op := r.buf.getD 20 0
                  payload := (r.buf.drop walHeaderSize).take len },
                { r with
                  buf := r.buf.drop (walHeaderSize + len)
                  validBytes := r.validBytes + (walHeaderSize + len) })

/-- `n` calls of `next`, one after another. -/
def nexts : Nat → WalReader → List (Option WalRecord) × WalReader
  | 0, r => ([], r)
  | n + 1, r =>
      let (first, r) := r.next
      let (later, r) := nexts n r
      (first :: later, r)

end WalReader

end MySimpleDb.Storage
