import MySimpleDb.Lib.Cursor
import MySimpleDb.Storage.Types

/-!
# Rows as bytes

A record is a length, a bitmap of the NULL columns and the bytes of the other
columns in order.  Encoding answers `none` where the source returns `false`,
and so does decoding.
-/

namespace MySimpleDb.Storage

open MySimpleDb.Lib

/-! ## Encoding -/

/-- The two's complement of an integer in `width` bytes. -/
def toSigned (width : Nat) (i : Int) : Nat :=
  (i % 2 ^ (8 * width)).toNat

/-- The integer that `width` bytes hold in two's complement. -/
def ofSigned (width n : Nat) : Int :=
  if (n : Int) < 2 ^ (8 * width - 1) then n else n - 2 ^ (8 * width)

/-- The bytes of a value that is not NULL. -/
def encodeValue (col : ColumnSpec) (v : Value) : Res (Option Bytes) :=
  match col.type.rep with
  | .int64 =>
      match v.box with
      | .int64 i =>
          if col.type.store ≠ .fixed then dbRaise .internal "encode: 存储形式与值表示不符"
          else if col.type.width = 4 then
            if i.toInt < int32Min ∨ int32Max < i.toInt then .ok none
            else .ok (some (toBytes 4 (toSigned 4 i.toInt)))
          else if col.type.width = 8 then .ok (some (toBytes 8 (toSigned 8 i.toInt)))
          else dbRaise .internal ("encode: 定宽字节数不在枚举取值集合内: " ++ toString col.type.width)
      | _ => .ok none
  | .double =>
      match v.box with
      | .double d =>
          if d.isFinite = false then .ok none
          else if col.type.store ≠ .fixed ∨ col.type.width ≠ 8 then
            dbRaise .internal "encode: 属性组合不在枚举取值集合内"
          else .ok (some (toBytes 8 d.toBits))
      | _ => .ok none
  | .str =>
      match v.box with
      | .str s =>
          if col.type.store = .varLen then
            if 65535 < s.length then .ok none
            else if 0 < col.length ∧ col.length < s.length then .ok none
            else .ok (some (toBytes 2 s.length ++ s))
          else if col.type.store = .charPad then
            if col.length < s.length then .ok none
            else .ok (some (s ++ List.replicate (col.length - s.length) 32))
          else dbRaise .internal "encode: 存储形式与值表示不符"
      | _ => .ok none
  | .float =>
      match v.box with
      | .float x =>
          if x.isFinite = false then .ok none
          else if col.type.store ≠ .fixed ∨ col.type.width ≠ 4 then
            dbRaise .internal "encode: 属性组合不在枚举取值集合内"
          else .ok (some (toBytes 4 x.toBits))
      | _ => .ok none
  | .bool =>
      match v.box with
      | .bool b =>
          if col.type.store ≠ .fixed ∨ col.type.width ≠ 1 then
            dbRaise .internal "encode: 属性组合不在枚举取值集合内"
          else .ok (some [if b then 1 else 0])
      | _ => .ok none
  | .dec =>
      match v.box with
      | .dec d =>
          if kNumericUnscaledMax ≤ |d.unscaled| then .ok none
          else if col.type.store ≠ .decimal then
            dbRaise .internal "encode: 属性组合不在枚举取值集合内"
          else .ok (some (toBytes 16 (toSigned 16 d.unscaled) ++ [UInt8.ofNat d.scale]))
      | _ => .ok none
  | .none => dbRaise .internal "encode: 列无类型"

/-- The bytes of the columns in order; a NULL takes none. -/
def encodeCols : List ColumnSpec → List Value → Res (Option Bytes)
  | col :: cols, v :: values =>
      if valueIsNull v then
        if col.notNull then .ok none else encodeCols cols values
      else do
        match ← encodeValue col v with
        | none => .ok none
        | some bytes =>
            match ← encodeCols cols values with
            | none => .ok none
            | some rest => .ok (some (bytes ++ rest))
  | _, _ => .ok (some [])

/-- The number with the given bits, lowest first. -/
def bitsValue : List Bool → Nat
  | [] => 0
  | bit :: bits => 2 * bitsValue bits + bit.toNat

def byteOfBits (bits : List Bool) : UInt8 :=
  UInt8.ofNat (bitsValue bits)

/-- One bit per column, set where the value is NULL. -/
def nullBitmap (nulls : List Bool) : Bytes :=
  (List.range ((nulls.length + 7) / 8)).map fun k => byteOfBits ((nulls.drop (8 * k)).take 8)

def encodeRow (cols : List ColumnSpec) (values : List Value) : Res (Option Bytes) :=
  if cols.length ≠ values.length then .ok none
  else do
    match ← encodeCols cols values with
    | none => .ok none
    | some body =>
        let out := nullBitmap (values.map valueIsNull) ++ body
        .ok (some (toBytes 2 out.length ++ out))

/-! ## Decoding -/

/-- A number of `width` bytes, least significant byte first. -/
def littleEndian (width : Nat) : Cursor Nat :=
  ofBytes <$> Cursor.bytes width

/-- The reader of a column that is not NULL. -/
def valueReader (col : ColumnSpec) : Res (Cursor Value) :=
  match col.type.rep with
  | .int64 =>
      if col.type.width = 4 then
        .ok ((fun n => intVal col.type (Int64.ofInt (ofSigned 4 n))) <$> littleEndian 4)
      else if col.type.width = 8 then
        .ok ((fun n => intVal col.type (Int64.ofInt (ofSigned 8 n))) <$> littleEndian 8)
      else dbRaise .internal ("decode: 定宽字节数不在枚举取值集合内: " ++ toString col.type.width)
  | .double => .ok ((fun n => doubleVal col.type (Flt.ofBits _ n)) <$> littleEndian 8)
  | .str =>
      if col.type.store = .varLen then
        .ok do
          let length ← littleEndian 2
          let s ← Cursor.bytes length
          return strVal col.type s
      else if col.type.store = .charPad then .ok (strVal col.type <$> Cursor.bytes col.length)
      else dbRaise .internal "decode: 存储形式与值表示不符"
  | .float => .ok ((fun n => floatVal col.type (Flt.ofBits _ n)) <$> littleEndian 4)
  | .bool =>
      .ok do
        let b ← littleEndian 1
        if 1 < b then Cursor.fail else return boolVal col.type (b ≠ 0)
  | .dec =>
      .ok do
        let u ← littleEndian 16
        let scale ← littleEndian 1
        if kNumericUnscaledMax ≤ |ofSigned 16 u| then Cursor.fail
        else return numericVal col.type (ofSigned 16 u) scale
  | .none => dbRaise .internal "decode: 列无类型"

/-- The bit of column `i`. -/
def nullBit (bitmap : Bytes) (i : Nat) : Bool :=
  (bitmap.getD (i / 8) 0).toNat.testBit (i % 8)

/-- The columns from number `i` on. -/
def decodeCols (bitmap : Bytes) : Nat → List ColumnSpec → Bytes → Res (Option (List Value))
  | _, [], _ => .ok (some [])
  | i, col :: cols, data =>
      if nullBit bitmap i then do
        match ← decodeCols bitmap (i + 1) cols data with
        | none => .ok none
        | some values => .ok (some (typedNull col.type :: values))
      else do
        let reader ← valueReader col
        match reader data with
        | none => .ok none
        | some (v, rest) =>
            match ← decodeCols bitmap (i + 1) cols rest with
            | none => .ok none
            | some values => .ok (some (v :: values))

def decodeRow (cols : List ColumnSpec) (data : Bytes) : Res (Option (List Value)) :=
  if data.length < 2 then .ok none
  else if ofBytes (data.take 2) + 2 ≠ data.length then .ok none
  else
    let bitmapLen := (cols.length + 7) / 8
    if data.length < 2 + bitmapLen then .ok none
    else decodeCols ((data.drop 2).take bitmapLen) 0 cols (data.drop (2 + bitmapLen))

/-! ## Round trip -/

/-- A value as it comes back from a column: with the column's type, text padded
to a fixed length, and the scale in one byte. -/
def stored (col : ColumnSpec) (v : Value) : Value :=
  match v.box with
  | .null => typedNull col.type
  | .str s =>
      if col.type.store = .charPad then
        strVal col.type (s ++ List.replicate (col.length - s.length) 32)
      else strVal col.type s
  | .dec d => numericVal col.type d.unscaled (d.scale % 256)
  | box => ⟨col.type, box⟩

theorem ofSigned_toSigned {width : Nat} {i : Int} (positive : 0 < width)
    (above : -2 ^ (8 * width - 1) ≤ i) (below : i < 2 ^ (8 * width - 1)) :
    ofSigned width (toSigned width i) = i := by
  have double : (2 : Int) ^ (8 * width) = 2 * 2 ^ (8 * width - 1) := by
    rw [← pow_succ', Nat.sub_add_cancel (by omega)]
  have pos : (0 : Int) < 2 ^ (8 * width - 1) := by positivity
  unfold ofSigned toSigned
  rw [double]
  generalize (2 : Int) ^ (8 * width - 1) = half at *
  by_cases negative : i < 0
  · have reduced : i % (2 * half) = i + 2 * half := by
      rw [← Int.add_emod_right, Int.emod_eq_of_lt (by omega) (by omega)]
    rw [reduced, Int.toNat_of_nonneg (by omega), if_neg (by omega)]
    omega
  · rw [Int.emod_eq_of_lt (by omega) (by omega), Int.toNat_of_nonneg (by omega), if_pos below]

theorem toSigned_lt (width : Nat) (i : Int) : toSigned width i < 256 ^ width := by
  have pos : (0 : Int) < 2 ^ (8 * width) := by positivity
  have bound := Int.emod_lt_of_pos i pos
  have same : (256 : Nat) ^ width = 2 ^ (8 * width) := by
    rw [pow_mul]
    rfl
  unfold toSigned
  rw [same]
  have nonneg := Int.emod_nonneg i pos.ne'
  zify
  rw [Int.toNat_of_nonneg nonneg]
  exact bound

theorem littleEndian_reads (width : Nat) {v : Nat} (fits : v < 256 ^ width) :
    Cursor.Reads (littleEndian width) (toBytes width v) v := by
  have read := (Cursor.reads_bytes (length_toBytes width v)).map (f := ofBytes)
  rwa [ofBytes_toBytes_of_lt fits] at read

section Readers

variable {col : ColumnSpec} {bytes : Bytes}

/-- A fixed-width integer column. -/
private theorem reads_int {width : Nat} {i : Int64} (positive : 0 < width)
    (above : -2 ^ (8 * width - 1) ≤ i.toInt) (below : i.toInt < 2 ^ (8 * width - 1)) :
    Cursor.Reads ((fun n => intVal col.type (Int64.ofInt (ofSigned width n))) <$> littleEndian width)
      (toBytes width (toSigned width i.toInt)) (intVal col.type i) := by
  have read := (littleEndian_reads width (toSigned_lt width i.toInt)).map
    (f := fun n => intVal col.type (Int64.ofInt (ofSigned width n)))
  rwa [ofSigned_toSigned positive above below, Int64.ofInt_toInt] at read

theorem valueReader_int {i : Int64} {type : TypeAttr} (rep : col.type.rep = .int64)
    (encoded : encodeValue col ⟨type, .int64 i⟩ = .ok (some bytes)) :
    ∃ reader, valueReader col = .ok reader ∧ Cursor.Reads reader bytes (intVal col.type i) := by
  simp only [encodeValue, rep] at encoded
  split at encoded
  · simp at encoded
  · split at encoded
    · rename_i four
      split at encoded
      · simp at encoded
      · rename_i inRange
        have inRange := not_or.mp inRange
        obtain rfl := Option.some.inj (Except.ok.inj encoded)
        refine ⟨_, by rw [valueReader, rep]; exact if_pos four, reads_int (by decide) ?_ ?_⟩
        · have := inRange.1
          simp only [int32Min] at this
          omega
        · have := inRange.2
          simp only [int32Max] at this
          omega
    · rename_i notFour
      split at encoded
      · rename_i eight
        obtain rfl := Option.some.inj (Except.ok.inj encoded)
        refine ⟨_, by simp only [valueReader, rep]; rw [if_neg notFour, if_pos eight],
          reads_int (by decide) ?_ ?_⟩
        · exact i.le_toInt
        · exact i.toInt_lt
      · simp at encoded

theorem valueReader_double {d : F64} {type : TypeAttr} (rep : col.type.rep = .double)
    (encoded : encodeValue col ⟨type, .double d⟩ = .ok (some bytes)) :
    ∃ reader, valueReader col = .ok reader ∧ Cursor.Reads reader bytes (doubleVal col.type d) := by
  simp only [encodeValue, rep] at encoded
  split at encoded
  · simp at encoded
  · split at encoded
    · simp at encoded
    · obtain rfl := Option.some.inj (Except.ok.inj encoded)
      refine ⟨_, by rw [valueReader, rep], ?_⟩
      have read := (littleEndian_reads 8 (Flt.toBits_lt d)).map
        (f := fun n => doubleVal col.type (Flt.ofBits _ n))
      rwa [Flt.ofBits_toBits] at read

theorem valueReader_float {x : F32} {type : TypeAttr} (rep : col.type.rep = .float)
    (encoded : encodeValue col ⟨type, .float x⟩ = .ok (some bytes)) :
    ∃ reader, valueReader col = .ok reader ∧ Cursor.Reads reader bytes (floatVal col.type x) := by
  simp only [encodeValue, rep] at encoded
  split at encoded
  · simp at encoded
  · split at encoded
    · simp at encoded
    · obtain rfl := Option.some.inj (Except.ok.inj encoded)
      refine ⟨_, by rw [valueReader, rep], ?_⟩
      have read := (littleEndian_reads 4 (Flt.toBits_lt x)).map
        (f := fun n => floatVal col.type (Flt.ofBits _ n))
      rwa [Flt.ofBits_toBits] at read

theorem valueReader_bool {b : Bool} {type : TypeAttr} (rep : col.type.rep = .bool)
    (encoded : encodeValue col ⟨type, .bool b⟩ = .ok (some bytes)) :
    ∃ reader, valueReader col = .ok reader ∧ Cursor.Reads reader bytes (boolVal col.type b) := by
  simp only [encodeValue, rep] at encoded
  split at encoded
  · simp at encoded
  · obtain rfl := Option.some.inj (Except.ok.inj encoded)
    refine ⟨_, by rw [valueReader, rep], ?_⟩
    have bits : [if b then (1 : UInt8) else 0] = toBytes 1 b.toNat ++ [] := by cases b <;> rfl
    rw [bits]
    apply (littleEndian_reads 1 (by cases b <;> decide)).bind
    cases b <;> exact Cursor.Reads.pure _

theorem valueReader_str {s : Bytes} {type : TypeAttr} (rep : col.type.rep = .str)
    (encoded : encodeValue col ⟨type, .str s⟩ = .ok (some bytes)) :
    ∃ reader, valueReader col = .ok reader ∧
      Cursor.Reads reader bytes (stored col ⟨type, .str s⟩) := by
  simp only [encodeValue, rep] at encoded
  split at encoded
  · rename_i varLen
    split at encoded
    · simp at encoded
    · rename_i short
      split at encoded
      · simp at encoded
      · obtain rfl := Option.some.inj (Except.ok.inj encoded)
        refine ⟨_, by simp only [valueReader, rep]; exact if_pos varLen, ?_⟩
        have plain : stored col ⟨type, .str s⟩ = strVal col.type s := by simp [stored, varLen]
        rw [plain]
        apply (littleEndian_reads 2 (by omega)).bind
        exact (Cursor.reads_bytes rfl).map (f := strVal col.type)
  · rename_i notVar
    split at encoded
    · rename_i charPad
      split at encoded
      · simp at encoded
      · rename_i fits
        obtain rfl := Option.some.inj (Except.ok.inj encoded)
        refine ⟨_, by simp only [valueReader, rep]; rw [if_neg notVar, if_pos charPad], ?_⟩
        have padded : stored col ⟨type, .str s⟩ =
            strVal col.type (s ++ List.replicate (col.length - s.length) 32) := by
          simp [stored, charPad]
        rw [padded]
        apply (Cursor.reads_bytes _).map (f := strVal col.type)
        rw [List.length_append, List.length_replicate]
        omega
    · simp at encoded

theorem valueReader_dec {d : DecimalVal} {type : TypeAttr} (rep : col.type.rep = .dec)
    (encoded : encodeValue col ⟨type, .dec d⟩ = .ok (some bytes)) :
    ∃ reader, valueReader col = .ok reader ∧
      Cursor.Reads reader bytes (numericVal col.type d.unscaled (d.scale % 256)) := by
  simp only [encodeValue, rep] at encoded
  split at encoded
  · simp at encoded
  · rename_i small
    split at encoded
    · simp at encoded
    · obtain rfl := Option.some.inj (Except.ok.inj encoded)
      refine ⟨_, by rw [valueReader, rep], ?_⟩
      have magnitude : |d.unscaled| < 10 ^ 38 := by simpa [kNumericUnscaledMax] using small
      have whole : ofSigned 16 (toSigned 16 d.unscaled) = d.unscaled := by
        have bounds := abs_lt.mp magnitude
        apply ofSigned_toSigned (by decide) <;> omega
      apply (littleEndian_reads 16 (toSigned_lt 16 d.unscaled)).bind
      have scale : [UInt8.ofNat d.scale] = toBytes 1 (d.scale % 256) ++ [] := by
        simp only [toBytes, List.append_nil, List.cons.injEq, and_true]
        exact UInt8.ofNat_mod_size.symm
      rw [scale]
      apply (littleEndian_reads 1 (by omega)).bind
      rw [whole, if_neg small]
      exact Cursor.Reads.pure _

/-- What a column encodes, its reader takes exactly. -/
theorem valueReader_reads {v : Value} (encoded : encodeValue col v = .ok (some bytes)) :
    ∃ reader, valueReader col = .ok reader ∧ Cursor.Reads reader bytes (stored col v) := by
  obtain ⟨type, box⟩ := v
  cases rep : col.type.rep with
  | none => simp [encodeValue, rep] at encoded
  | int64 =>
      cases box with
      | int64 i => exact valueReader_int rep encoded
      | _ => simp [encodeValue, rep] at encoded
  | double =>
      cases box with
      | double d => exact valueReader_double rep encoded
      | _ => simp [encodeValue, rep] at encoded
  | str =>
      cases box with
      | str s => exact valueReader_str rep encoded
      | _ => simp [encodeValue, rep] at encoded
  | float =>
      cases box with
      | float x => exact valueReader_float rep encoded
      | _ => simp [encodeValue, rep] at encoded
  | bool =>
      cases box with
      | bool b => exact valueReader_bool rep encoded
      | _ => simp [encodeValue, rep] at encoded
  | dec =>
      cases box with
      | dec d => exact valueReader_dec rep encoded
      | _ => simp [encodeValue, rep] at encoded

end Readers

/-! ### The bitmap -/

theorem bitsValue_lt (bits : List Bool) : bitsValue bits < 2 ^ bits.length := by
  induction bits with
  | nil => simp [bitsValue]
  | cons bit bits inductionHypothesis =>
      simp only [bitsValue, List.length_cons, pow_succ]
      have := bit.toNat_lt
      omega

theorem bitsValue_testBit (bits : List Bool) (i : Nat) :
    (bitsValue bits).testBit i = bits.getD i false := by
  induction bits generalizing i with
  | nil => simp [bitsValue]
  | cons bit bits inductionHypothesis =>
      cases i with
      | zero => cases bit <;> simp [bitsValue, Nat.testBit_zero]
      | succ i =>
          have half : (2 * bitsValue bits + bit.toNat) / 2 = bitsValue bits := by
            have := bit.toNat_lt
            omega
          rw [bitsValue, Nat.testBit_succ, half, inductionHypothesis]
          rfl

theorem byteOfBits_testBit {bits : List Bool} (short : bits.length ≤ 8) (i : Nat) :
    (byteOfBits bits).toNat.testBit i = bits.getD i false := by
  have small : bitsValue bits < 2 ^ 8 :=
    (bitsValue_lt bits).trans_le (Nat.pow_le_pow_right (by decide) short)
  rw [byteOfBits, UInt8.toNat_ofNat_of_lt' small, bitsValue_testBit]

theorem nullBit_nullBitmap {nulls : List Bool} {i : Nat} (lt : i < nulls.length) :
    nullBit (nullBitmap nulls) i = nulls.getD i false := by
  have inside : i / 8 < (nulls.length + 7) / 8 := by omega
  have byte : (nullBitmap nulls).getD (i / 8) 0 = byteOfBits ((nulls.drop (8 * (i / 8))).take 8) := by
    simp [nullBitmap, List.getD_eq_getElem?_getD, List.getElem?_range inside]
  have place : 8 * (i / 8) + i % 8 = i := Nat.div_add_mod i 8
  rw [nullBit, byte, byteOfBits_testBit (by simp)]
  simp only [List.getD_eq_getElem?_getD, List.getElem?_take, List.getElem?_drop, place]
  rw [if_pos (by omega)]

theorem length_nullBitmap (nulls : List Bool) : (nullBitmap nulls).length = (nulls.length + 7) / 8 := by
  simp [nullBitmap]

/-! ### Records -/

/-- The columns from number `i` on come back from their bytes. -/
theorem decodeCols_encodeCols {bitmap : Bytes} {cols : List ColumnSpec} {values : List Value}
    {i : Nat} {body rest : Bytes} (sameLength : cols.length = values.length)
    (bits : ∀ k, k < values.length → nullBit bitmap (i + k) = (values.map valueIsNull).getD k false)
    (encoded : encodeCols cols values = .ok (some body)) :
    decodeCols bitmap i cols (body ++ rest) = .ok (some (List.zipWith stored cols values)) := by
  induction cols generalizing values i body with
  | nil =>
      cases values with
      | nil => rfl
      | cons v values => cases sameLength
  | cons col cols inductionHypothesis =>
      cases values with
      | nil => cases sameLength
      | cons v values =>
          have length_eq : cols.length = values.length := Nat.succ.inj sameLength
          have here : nullBit bitmap i = valueIsNull v := bits 0 (Nat.succ_pos _)
          have later : ∀ k, k < values.length →
              nullBit bitmap (i + 1 + k) = (values.map valueIsNull).getD k false := by
            intro k lt
            rw [Nat.add_right_comm, Nat.add_assoc]
            exact bits (k + 1) (Nat.succ_lt_succ lt)
          cases null : valueIsNull v with
          | true =>
              have box : v.box = .null := valueIsNull_iff.mp null
              have tail : encodeCols cols values = .ok (some body) := by
                cases notNull : col.notNull <;> simp [encodeCols, null, notNull] at encoded
                exact encoded
              rw [decodeCols, here, null, if_pos rfl, inductionHypothesis length_eq later tail]
              simp [stored, box]
          | false =>
              simp only [encodeCols, null, Bool.false_eq_true, if_false] at encoded
              obtain ⟨first, encodedValue, encoded⟩ := Res.bind_eq_ok.mp encoded
              cases first with
              | none => simp at encoded
              | some bytes =>
                  obtain ⟨second, tail, encoded⟩ := Res.bind_eq_ok.mp encoded
                  cases second with
                  | none => simp at encoded
                  | some tailBytes =>
                      obtain rfl := Option.some.inj (Except.ok.inj encoded)
                      obtain ⟨reader, reader_eq, reads⟩ := valueReader_reads encodedValue
                      rw [decodeCols, here, null, if_neg Bool.false_ne_true, reader_eq,
                        Res.bind_ok, List.append_assoc, reads.exact]
                      simp only [inductionHypothesis length_eq later tail, Res.bind_ok,
                        List.zipWith_cons_cons]

/-- A record decodes to the values it was encoded from. -/
theorem decodeRow_encodeRow {cols : List ColumnSpec} {values : List Value} {bytes : Bytes}
    (encoded : encodeRow cols values = .ok (some bytes)) (short : bytes.length < 65538) :
    decodeRow cols bytes = .ok (some (List.zipWith stored cols values)) := by
  unfold encodeRow at encoded
  split at encoded
  · simp at encoded
  · rename_i sameLength
    have length_eq : cols.length = values.length := not_not.mp sameLength
    obtain ⟨encodedCols, encodedBody, encoded⟩ := Res.bind_eq_ok.mp encoded
    cases encodedCols with
    | none => simp at encoded
    | some body =>
        obtain rfl := Option.some.inj (Except.ok.inj encoded)
        set bitmap := nullBitmap (values.map valueIsNull) with bitmap_eq
        have bitmapLen : bitmap.length = (cols.length + 7) / 8 := by
          rw [bitmap_eq, length_nullBitmap, List.length_map, length_eq]
        have total : (toBytes 2 (bitmap ++ body).length ++ (bitmap ++ body)).length =
            2 + (bitmap.length + body.length) := by
          simp
        rw [total] at short
        have header : ofBytes ((toBytes 2 (bitmap ++ body).length ++ (bitmap ++ body)).take 2) =
            bitmap.length + body.length := by
          rw [List.take_left' (length_toBytes 2 _), ofBytes_toBytes_of_lt, List.length_append]
          rw [List.length_append]
          omega
        have afterHeader : (toBytes 2 (bitmap ++ body).length ++ (bitmap ++ body)).drop 2 =
            bitmap ++ body :=
          List.drop_left' (length_toBytes 2 _)
        unfold decodeRow
        rw [total, header, if_neg (by omega), if_neg (by omega)]
        dsimp only
        rw [if_neg (by omega), ← List.drop_drop, afterHeader, ← bitmapLen, List.take_left,
          List.drop_left]
        have bits : ∀ k, k < values.length →
            nullBit bitmap (0 + k) = (values.map valueIsNull).getD k false := by
          intro k lt
          rw [Nat.zero_add, bitmap_eq, nullBit_nullBitmap (by simpa using lt)]
        have columns : decodeCols bitmap 0 cols (body ++ []) = _ :=
          decodeCols_encodeCols length_eq bits encodedBody
        rwa [List.append_nil] at columns

/-! ## What is decoded is stored -/

section Decoded

variable {col : ColumnSpec}

theorem gives_littleEndian (width : Nat) :
    Cursor.Gives (littleEndian width) fun v => v < 256 ^ width :=
  (Cursor.gives_bytes width).map fun enc length => length ▸ ofBytes_lt enc

/-- A value read from a column is one that the column stores as it is. -/
theorem valueReader_stored {reader : Cursor Value} (reader_eq : valueReader col = .ok reader) :
    Cursor.Gives reader fun v => stored col v = v := by
  unfold valueReader at reader_eq
  split at reader_eq
  · split at reader_eq
    · cases reader_eq
      exact (gives_littleEndian 4).map fun n _ => rfl
    · split at reader_eq
      · cases reader_eq
        exact (gives_littleEndian 8).map fun n _ => rfl
      · simp at reader_eq
  · cases reader_eq
    exact (gives_littleEndian 8).map fun n _ => rfl
  · split at reader_eq
    · rename_i varLen
      cases reader_eq
      refine (gives_littleEndian 2).bind fun n _ => (Cursor.gives_bytes n).bind fun s _ => ?_
      exact Cursor.Gives.pure (by simp [stored, strVal, varLen])
    · split at reader_eq
      · cases reader_eq
        refine (Cursor.gives_bytes col.length).map fun s length => ?_
        simp [stored, strVal, length]
      · simp at reader_eq
  · cases reader_eq
    exact (gives_littleEndian 4).map fun n _ => rfl
  · cases reader_eq
    refine (gives_littleEndian 1).bind fun b _ => ?_
    split
    · exact Cursor.gives_fail
    · exact Cursor.Gives.pure rfl
  · cases reader_eq
    refine (gives_littleEndian 16).bind fun u _ => (gives_littleEndian 1).bind fun scale lt => ?_
    split
    · exact Cursor.gives_fail
    · have small : scale % 256 = scale := Nat.mod_eq_of_lt lt
      exact Cursor.Gives.pure (by simp only [stored, numericVal, small])
  · simp at reader_eq

theorem decodeCols_stored {bitmap : Bytes} {cols : List ColumnSpec} {values : List Value} {i : Nat}
    {data : Bytes} (decoded : decodeCols bitmap i cols data = .ok (some values)) :
    values.length = cols.length ∧ List.zipWith stored cols values = values := by
  induction cols generalizing values i data with
  | nil =>
      cases decoded
      exact ⟨rfl, rfl⟩
  | cons col cols inductionHypothesis =>
      rw [decodeCols] at decoded
      split at decoded
      · obtain ⟨rest, decodedRest, decoded⟩ := Res.bind_eq_ok.mp decoded
        cases rest with
        | none => simp at decoded
        | some values' =>
            cases decoded
            obtain ⟨length, same⟩ := inductionHypothesis decodedRest
            exact ⟨by simp [length], by simp [same, stored, typedNull]⟩
      · obtain ⟨reader, reader_eq, decoded⟩ := Res.bind_eq_ok.mp decoded
        cases read : reader data with
        | none => simp [read] at decoded
        | some result =>
            obtain ⟨v, after⟩ := result
            simp only [read] at decoded
            obtain ⟨rest, decodedRest, decoded⟩ := Res.bind_eq_ok.mp decoded
            cases rest with
            | none => simp at decoded
            | some values' =>
                cases decoded
                obtain ⟨length, same⟩ := inductionHypothesis decodedRest
                have first := valueReader_stored reader_eq data v after read
                exact ⟨by simp [length], by simp [same, first]⟩

/-- The values of a record are as many as the columns and stored as they are. -/
theorem decodeRow_stored {cols : List ColumnSpec} {values : List Value} {data : Bytes}
    (decoded : decodeRow cols data = .ok (some values)) :
    values.length = cols.length ∧ List.zipWith stored cols values = values := by
  unfold decodeRow at decoded
  split at decoded
  · simp at decoded
  · split at decoded
    · simp at decoded
    · dsimp only at decoded
      split at decoded
      · simp at decoded
      · exact decodeCols_stored decoded

end Decoded

end MySimpleDb.Storage
