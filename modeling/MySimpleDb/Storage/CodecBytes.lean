import MySimpleDb.Storage.Codec
import MySimpleDb.Storage.HeapFile

/-!
# Decoding a record byte by byte

`decode_row` keeps a position in the record.  Here each byte is fetched by its
place, and a place outside of the record is a fault.
-/

namespace MySimpleDb.Storage

open MySimpleDb.Lib

/-! ## Bytes by their place -/

/-- How decoding stops other than by returning: a byte outside of the record is fetched, or
an error is raised. -/
inductive Fault
  | outside (pos : Nat)
  | raised (e : Err)
deriving DecidableEq

/-- Code that fetches bytes of a record. -/
abbrev Fetch (α : Type) : Type := Except Fault α

theorem fetched_bind {α β : Type} (a : α) (f : α → Fetch β) : ((.ok a : Fetch α) >>= f) = f a :=
  rfl

def fetch (data : Bytes) (pos : Nat) : Fetch UInt8 :=
  match data[pos]? with
  | some b => .ok b
  | none => .error (.outside pos)

/-- `n` bytes from a place on. -/
def fetchRun (data : Bytes) : Nat → Nat → Fetch Bytes
  | _, 0 => .ok []
  | pos, n + 1 => do
      let b ← fetch data pos
      let rest ← fetchRun data (pos + 1) n
      return b :: rest

def readU16 (data : Bytes) (pos : Nat) : Fetch Nat :=
  ofBytes <$> fetchRun data pos 2

def readU32 (data : Bytes) (pos : Nat) : Fetch Nat :=
  ofBytes <$> fetchRun data pos 4

/-- Two halves, the low one first. -/
def readU64 (data : Bytes) (pos : Nat) : Fetch Nat := do
  let lo ← readU32 data pos
  let hi ← readU32 data (pos + 4)
  return lo + 2 ^ 32 * hi

/-- The magnitude loop of a numeric, from the last byte down. -/
def magnitude (bytes : Bytes) : Nat :=
  bytes.reverse.foldl (fun mag b => mag * 256 + b.toNat) 0

/-- A 128-bit two's complement taken back by hand. -/
def fromMagnitude (mag : Nat) : Int :=
  if mag / 2 ^ 127 ≠ 0 then -((2 ^ 128 - mag : Nat) : Int) else mag

/-! ## Decoding -/

/-- A column that is not NULL: the value, and where the next one starts. -/
def decodeAt (col : ColumnSpec) (data : Bytes) (pos : Nat) : Fetch (Option (Value × Nat)) :=
  let len := data.length
  match col.type.rep with
  | .int64 =>
      if col.type.width = 4 then
        if len < pos + 4 then .ok none
        else do
          let v ← readU32 data pos
          return some (intVal col.type (Int64.ofInt (ofSigned 4 v)), pos + 4)
      else if col.type.width = 8 then
        if len < pos + 8 then .ok none
        else do
          let v ← readU64 data pos
          return some (intVal col.type (Int64.ofInt (ofSigned 8 v)), pos + 8)
      else .error (.raised
        (.raise .internal ("decode: 定宽字节数不在枚举取值集合内: " ++ toString col.type.width)))
  | .double =>
      if len < pos + 8 then .ok none
      else do
        let bits ← readU64 data pos
        return some (doubleVal col.type (Flt.ofBits _ bits), pos + 8)
  | .str =>
      if col.type.store = .varLen then
        if len < pos + 2 then .ok none
        else do
          let slen ← readU16 data pos
          if len < pos + 2 + slen then return none
          else
            let s ← fetchRun data (pos + 2) slen
            return some (strVal col.type s, pos + 2 + slen)
      else if col.type.store = .charPad then
        if len < pos + col.length then .ok none
        else do
          let s ← fetchRun data pos col.length
          return some (strVal col.type s, pos + col.length)
      else .error (.raised (.raise .internal "decode: 存储形式与值表示不符"))
  | .float =>
      if len < pos + 4 then .ok none
      else do
        let bits ← readU32 data pos
        return some (floatVal col.type (Flt.ofBits _ bits), pos + 4)
  | .bool =>
      if len < pos + 1 then .ok none
      else do
        let b ← fetch data pos
        if 1 < b.toNat then return none
        else return some (boolVal col.type (b.toNat ≠ 0), pos + 1)
  | .dec =>
      if len < pos + 17 then .ok none
      else do
        let bytes ← fetchRun data pos 16
        let u := fromMagnitude (magnitude bytes)
        if kNumericUnscaledMax ≤ |u| then return none
        else
          let scale ← fetch data (pos + 16)
          return some (numericVal col.type u scale.toNat, pos + 17)
  | .none => .error (.raised (.raise .internal "decode: 列无类型"))

/-- The columns from number `i` on; the bitmap follows the length. -/
def decodeColsAt (data : Bytes) : Nat → List ColumnSpec → Nat → Fetch (Option (List Value))
  | _, [], _ => .ok (some [])
  | i, col :: cols, pos => do
      let bits ← fetch data (2 + i / 8)
      if bits.toNat.testBit (i % 8) then
        match ← decodeColsAt data (i + 1) cols pos with
        | none => return none
        | some values => return some (typedNull col.type :: values)
      else
        match ← decodeAt col data pos with
        | none => return none
        | some (v, pos) =>
            match ← decodeColsAt data (i + 1) cols pos with
            | none => return none
            | some values => return some (v :: values)

def decodeRowAt (cols : List ColumnSpec) (data : Bytes) : Fetch (Option (List Value)) :=
  if data.length < 2 then .ok none
  else do
    let bodyLen ← readU16 data 0
    if bodyLen + 2 ≠ data.length then return none
    else
      let bitmapLen := (cols.length + 7) / 8
      if data.length < 2 + bitmapLen then return none
      else decodeColsAt data 0 cols (2 + bitmapLen)

/-! ## Fetching inside of the record -/

section Inside

variable {data : Bytes} {pos : Nat}

theorem fetch_inside (inside : pos < data.length) : fetch data pos = .ok (data.getD pos 0) := by
  rw [fetch, List.getElem?_eq_getElem inside]
  simp [inside]

theorem drop_eq_cons (inside : pos < data.length) :
    data.drop pos = data.getD pos 0 :: data.drop (pos + 1) := by
  rw [List.drop_eq_getElem_cons inside]
  simp [inside]

theorem fetchRun_inside {n : Nat} (inside : pos + n ≤ data.length) :
    fetchRun data pos n = .ok ((data.drop pos).take n) := by
  induction n generalizing pos with
  | zero => simp [fetchRun]
  | succ n inductionHypothesis =>
      have first : pos < data.length := by omega
      rw [fetchRun, fetch_inside first, inductionHypothesis (by omega), drop_eq_cons first,
        List.take_succ_cons]
      rfl

theorem readU16_inside (inside : pos + 2 ≤ data.length) :
    readU16 data pos = .ok (ofBytes ((data.drop pos).take 2)) := by
  rw [readU16, fetchRun_inside inside]
  rfl

theorem readU32_inside (inside : pos + 4 ≤ data.length) :
    readU32 data pos = .ok (ofBytes ((data.drop pos).take 4)) := by
  rw [readU32, fetchRun_inside inside]
  rfl

theorem readU64_inside (inside : pos + 8 ≤ data.length) :
    readU64 data pos = .ok (ofBytes ((data.drop pos).take 8)) := by
  have low : ((data.drop pos).take 4).length = 4 := by
    rw [List.length_take, List.length_drop]
    omega
  rw [readU64, readU32_inside (by omega), readU32_inside (by omega), slice_add data pos 4 4,
    ofBytes_append, low]
  rfl

theorem ofBytes_take_one (inside : pos + 1 ≤ data.length) :
    ofBytes ((data.drop pos).take 1) = (data.getD pos 0).toNat := by
  rw [drop_eq_cons (by omega), List.take_succ_cons]
  simp [ofBytes]

theorem magnitude_eq (bytes : Bytes) : magnitude bytes = ofBytes bytes := by
  induction bytes with
  | nil => rfl
  | cons b bytes inductionHypothesis =>
      rw [magnitude] at inductionHypothesis ⊢
      rw [List.reverse_cons, List.foldl_append, inductionHypothesis, List.foldl_cons,
        List.foldl_nil, ofBytes]
      ring

/-- The sign taken back by hand is that of two's complement. -/
theorem fromMagnitude_eq {mag : Nat} (small : mag < 2 ^ 128) :
    fromMagnitude mag = ofSigned 16 mag := by
  unfold fromMagnitude ofSigned
  by_cases negative : mag / 2 ^ 127 = 0
  · rw [if_neg (not_not.mpr negative), if_pos (by omega)]
  · rw [if_pos negative, if_neg (by omega)]
    omega

end Inside

/-! ## The readers of the columns -/

section Columns

variable {col : ColumnSpec} {data : Bytes} {pos : Nat}

/-- Decoding at a place agrees with a reader of what is left of the record from there. -/
def Agrees (data : Bytes) (pos : Nat) (reader : Cursor Value)
    (decoded : Fetch (Option (Value × Nat))) : Prop :=
  match reader (data.drop pos) with
  | none => decoded = .ok none
  | some (v, rest) => ∃ pos', decoded = .ok (some (v, pos')) ∧ pos' ≤ data.length ∧
      rest = data.drop pos'

theorem bytes_short {n : Nat} (here : pos ≤ data.length) (short : data.length < pos + n) :
    Cursor.bytes n (data.drop pos) = none := by
  rw [Cursor.bytes, if_neg]
  rw [List.length_drop]
  omega

theorem bytes_inside {n : Nat} (inside : pos + n ≤ data.length) :
    Cursor.bytes n (data.drop pos) = some ((data.drop pos).take n, data.drop (pos + n)) := by
  rw [Cursor.bytes, if_pos, List.drop_drop]
  rw [List.length_drop]
  omega

theorem littleEndian_short {width : Nat} (here : pos ≤ data.length)
    (short : data.length < pos + width) : littleEndian width (data.drop pos) = none :=
  Cursor.bind_of_none (f := fun b => pure (ofBytes b)) (bytes_short here short)

theorem littleEndian_inside {width : Nat} (inside : pos + width ≤ data.length) :
    littleEndian width (data.drop pos) =
      some (ofBytes ((data.drop pos).take width), data.drop (pos + width)) :=
  Cursor.bind_of_some (f := fun b => pure (ofBytes b)) (bytes_inside inside)

/-- A column of one number. -/
theorem agrees_number (here : pos ≤ data.length) {width : Nat} {value : Nat → Value}
    {read : Fetch Nat}
    (read_eq : pos + width ≤ data.length → read = .ok (ofBytes ((data.drop pos).take width))) :
    Agrees data pos (value <$> littleEndian width)
      (if data.length < pos + width then .ok none
        else do
          let n ← read
          return some (value n, pos + width)) := by
  unfold Agrees
  by_cases short : data.length < pos + width
  · rw [if_pos short, map_eq_pure_bind, Cursor.bind_of_none (littleEndian_short here short)]
  · have inside : pos + width ≤ data.length := by omega
    rw [if_neg short, map_eq_pure_bind, Cursor.bind_of_some (littleEndian_inside inside),
      read_eq inside]
    exact ⟨_, rfl, inside, rfl⟩

/-- A column of a run of bytes. -/
theorem agrees_run (here : pos ≤ data.length) {n : Nat} {value : Bytes → Value} :
    Agrees data pos (value <$> Cursor.bytes n)
      (if data.length < pos + n then .ok none
        else do
          let s ← fetchRun data pos n
          return some (value s, pos + n)) := by
  unfold Agrees
  by_cases short : data.length < pos + n
  · rw [if_pos short, map_eq_pure_bind, Cursor.bind_of_none (bytes_short here short)]
  · have inside : pos + n ≤ data.length := by omega
    rw [if_neg short, map_eq_pure_bind, Cursor.bind_of_some (bytes_inside inside),
      fetchRun_inside inside]
    exact ⟨_, rfl, inside, rfl⟩

/-- Text after its length. -/
theorem agrees_varLen (here : pos ≤ data.length) (type : TypeAttr) :
    Agrees data pos
      (do
        let length ← littleEndian 2
        let s ← Cursor.bytes length
        return strVal type s)
      (if data.length < pos + 2 then .ok none
        else do
          let slen ← readU16 data pos
          if data.length < pos + 2 + slen then return none
          else
            let s ← fetchRun data (pos + 2) slen
            return some (strVal type s, pos + 2 + slen)) := by
  unfold Agrees
  by_cases short : data.length < pos + 2
  · rw [if_pos short, Cursor.bind_of_none (littleEndian_short here short)]
  · have inside : pos + 2 ≤ data.length := by omega
    rw [if_neg short, Cursor.bind_of_some (littleEndian_inside inside), readU16_inside inside,
      fetched_bind]
    generalize ofBytes ((data.drop pos).take 2) = slen
    by_cases cut : data.length < pos + 2 + slen
    · rw [if_pos cut, Cursor.bind_of_none (bytes_short inside cut)]
      rfl
    · have whole : pos + 2 + slen ≤ data.length := by omega
      rw [if_neg cut, Cursor.bind_of_some (bytes_inside whole), fetchRun_inside whole]
      exact ⟨_, rfl, whole, rfl⟩

theorem agrees_bool (here : pos ≤ data.length) (type : TypeAttr) :
    Agrees data pos
      (do
        let b ← littleEndian 1
        if 1 < b then Cursor.fail else return boolVal type (b ≠ 0))
      (if data.length < pos + 1 then .ok none
        else do
          let b ← fetch data pos
          if 1 < b.toNat then return none
          else return some (boolVal type (b.toNat ≠ 0), pos + 1)) := by
  unfold Agrees
  by_cases short : data.length < pos + 1
  · rw [if_pos short, Cursor.bind_of_none (littleEndian_short here short)]
  · have inside : pos + 1 ≤ data.length := by omega
    rw [if_neg short, Cursor.bind_of_some (littleEndian_inside inside), ofBytes_take_one inside,
      fetch_inside (by omega), fetched_bind]
    generalize data.getD pos 0 = b
    by_cases damaged : 1 < b.toNat
    · rw [if_pos damaged, if_pos damaged]
      rfl
    · rw [if_neg damaged, if_neg damaged]
      exact ⟨_, rfl, inside, rfl⟩

theorem agrees_dec (here : pos ≤ data.length) (type : TypeAttr) :
    Agrees data pos
      (do
        let u ← littleEndian 16
        let scale ← littleEndian 1
        if kNumericUnscaledMax ≤ |ofSigned 16 u| then Cursor.fail
        else return numericVal type (ofSigned 16 u) scale)
      (if data.length < pos + 17 then .ok none
        else do
          let bytes ← fetchRun data pos 16
          let u := fromMagnitude (magnitude bytes)
          if kNumericUnscaledMax ≤ |u| then return none
          else
            let scale ← fetch data (pos + 16)
            return some (numericVal type u scale.toNat, pos + 17)) := by
  unfold Agrees
  by_cases short : data.length < pos + 17
  · rw [if_pos short]
    by_cases cut : data.length < pos + 16
    · rw [Cursor.bind_of_none (littleEndian_short here cut)]
    · have inside : pos + 16 ≤ data.length := by omega
      rw [Cursor.bind_of_some (littleEndian_inside inside),
        Cursor.bind_of_none (littleEndian_short inside (by omega))]
  · have inside : pos + 16 + 1 ≤ data.length := by omega
    have run : ((data.drop pos).take 16).length = 16 := by
      rw [List.length_take, List.length_drop]
      omega
    have small : ofBytes ((data.drop pos).take 16) < 2 ^ 128 := by
      have bound := ofBytes_lt ((data.drop pos).take 16)
      rw [run] at bound
      exact bound
    rw [if_neg short, Cursor.bind_of_some (littleEndian_inside (by omega)),
      Cursor.bind_of_some (littleEndian_inside inside), fetchRun_inside (by omega), fetched_bind,
      magnitude_eq, fromMagnitude_eq small, ofBytes_take_one inside, fetch_inside (by omega)]
    generalize ofSigned 16 (ofBytes ((data.drop pos).take 16)) = u
    by_cases damaged : kNumericUnscaledMax ≤ |u|
    · rw [if_pos damaged, if_pos damaged]
      rfl
    · rw [if_neg damaged, if_neg damaged]
      exact ⟨_, rfl, inside, rfl⟩

/-- A column decoded at a place in the record. -/
theorem decodeAt_agrees (here : pos ≤ data.length) :
    match valueReader col with
    | .error e => decodeAt col data pos = .error (.raised e)
    | .ok reader => Agrees data pos reader (decodeAt col data pos) := by
  unfold valueReader decodeAt
  cases col.type.rep with
  | none => rfl
  | int64 =>
      by_cases four : col.type.width = 4
      · simp only [if_pos four]
        exact agrees_number here readU32_inside
      · by_cases eight : col.type.width = 8
        · simp only [if_neg four, if_pos eight]
          exact agrees_number here readU64_inside
        · simp only [if_neg four, if_neg eight]
          rfl
  | float => exact agrees_number here readU32_inside
  | double => exact agrees_number here readU64_inside
  | str =>
      by_cases varLen : col.type.store = .varLen
      · simp only [if_pos varLen]
        exact agrees_varLen here col.type
      · by_cases charPad : col.type.store = .charPad
        · simp only [if_neg varLen, if_pos charPad]
          exact agrees_run here
        · simp only [if_neg varLen, if_neg charPad]
          rfl
  | bool => exact agrees_bool here col.type
  | dec => exact agrees_dec here col.type

theorem raised_bind {α β : Type} (e : Err) (f : α → Fetch β) :
    ((.error (.raised e) : Fetch α) >>= f) = .error (.raised e) :=
  rfl

/-- The columns of a record are decoded as if it were taken apart front to back. -/
theorem decodeColsAt_eq {bitmapLen : Nat} (whole : 2 + bitmapLen ≤ data.length)
    {cols : List ColumnSpec} {i : Nat} (covered : (i + cols.length + 7) / 8 ≤ bitmapLen)
    (here : pos ≤ data.length) :
    decodeColsAt data i cols pos =
      (decodeCols ((data.drop 2).take bitmapLen) i cols (data.drop pos)).mapError .raised := by
  induction cols generalizing i pos with
  | nil => rfl
  | cons col cols inductionHypothesis =>
      rw [List.length_cons] at covered
      have inBitmap : i / 8 < bitmapLen := by omega
      have bits : data.getD (2 + i / 8) 0 = ((data.drop 2).take bitmapLen).getD (i / 8) 0 := by
        simp [inBitmap]
      have later : (i + 1 + cols.length + 7) / 8 ≤ bitmapLen := by
        rwa [Nat.add_right_comm i 1]
      rw [decodeColsAt, fetch_inside (by omega), fetched_bind, bits, decodeCols, nullBit]
      split
      · rw [inductionHypothesis later here]
        rcases decodeCols _ (i + 1) cols (data.drop pos) with e | _ | values <;> rfl
      · have agrees := @decodeAt_agrees col data pos here
        rcases reader_eq : valueReader col with e | reader
        · rw [reader_eq] at agrees
          rw [agrees]
          rfl
        · simp only [reader_eq, Agrees] at agrees
          rw [Res.bind_ok]
          rcases read : reader (data.drop pos) with _ | ⟨v, rest⟩
          · rw [read] at agrees
            rw [agrees]
            rfl
          · rw [read] at agrees
            obtain ⟨pos', decoded, here', rfl⟩ := agrees
            rw [decoded, fetched_bind]
            dsimp only
            rw [inductionHypothesis later here']
            rcases decodeCols _ (i + 1) cols (data.drop pos') with e | _ | values <;> rfl

/-- Decoding byte by byte is decoding. -/
theorem decodeRowAt_eq (cols : List ColumnSpec) (data : Bytes) :
    decodeRowAt cols data = (decodeRow cols data).mapError .raised := by
  unfold decodeRowAt decodeRow
  by_cases headless : data.length < 2
  · rw [if_pos headless, if_pos headless]
    rfl
  · rw [if_neg headless, if_neg headless, readU16_inside (by omega), fetched_bind, List.drop_zero]
    by_cases mismatch : ofBytes (data.take 2) + 2 ≠ data.length
    · rw [if_pos mismatch, if_pos mismatch]
      rfl
    · rw [if_neg mismatch, if_neg mismatch]
      dsimp only
      by_cases cut : data.length < 2 + (cols.length + 7) / 8
      · rw [if_pos cut, if_pos cut]
        rfl
      · rw [if_neg cut, if_neg cut]
        exact decodeColsAt_eq (by omega) (by simp) (by omega)

end Columns

/-! ## Numerics as bytes -/

/-- The carry of the addition of one. -/
def addOne : Bytes → Bytes
  | [] => []
  | b :: rest => if b + 1 ≠ 0 then (b + 1) :: rest else 0 :: addOne rest

/-- The bytes of the magnitude; those of a negative number are inverted and one is added. -/
def decBytes (unscaled : Int) : Bytes :=
  let b := (List.range 16).map fun k => UInt8.ofNat (unscaled.natAbs >>> (k * 8))
  if unscaled < 0 then addOne (b.map fun x => ~~~x) else b

theorem toBytes_eq_map (width v : Nat) :
    toBytes width v = (List.range width).map fun k => UInt8.ofNat (v >>> (k * 8)) := by
  induction width generalizing v with
  | zero => rfl
  | succ width inductionHypothesis =>
      rw [toBytes, inductionHypothesis, List.range_succ_eq_map, List.map_cons, List.map_map]
      congr 1
      apply List.map_congr_left
      intro k _
      have shift : v / 256 = v >>> 8 := (Nat.shiftRight_eq_div_pow v 8).symm
      rw [Function.comp_apply, shift, ← Nat.shiftRight_add, Nat.succ_mul, Nat.add_comm 8]

theorem addOne_eq (bytes : Bytes) : addOne bytes = toBytes bytes.length (ofBytes bytes + 1) := by
  induction bytes with
  | nil => rfl
  | cons b rest inductionHypothesis =>
      have small := b.toNat_lt
      rw [addOne, ofBytes, List.length_cons, toBytes]
      by_cases last : b.toNat = 255
      · have wraps : b + 1 = 0 := by
          apply UInt8.toNat_inj.mp
          rw [UInt8.toNat_add, last]
          rfl
        have low : UInt8.ofNat (b.toNat + 256 * ofBytes rest + 1) = 0 := by
          apply UInt8.toNat_inj.mp
          rw [UInt8.toNat_ofNat', last]
          change _ = 0
          omega
        have high : (b.toNat + 256 * ofBytes rest + 1) / 256 = ofBytes rest + 1 := by omega
        rw [if_neg (not_not.mpr wraps), low, high, inductionHypothesis]
      · have next : (b + 1).toNat = b.toNat + 1 := by
          rw [UInt8.toNat_add]
          change (b.toNat + 1) % 256 = _
          omega
        have goesOn : b + 1 ≠ 0 := by
          intro zero
          rw [zero] at next
          exact absurd next (by simp)
        have low : UInt8.ofNat (b.toNat + 256 * ofBytes rest + 1) = b + 1 := by
          apply UInt8.toNat_inj.mp
          rw [UInt8.toNat_ofNat', next]
          omega
        have high : (b.toNat + 256 * ofBytes rest + 1) / 256 = ofBytes rest := by omega
        rw [if_pos goesOn, low, high, toBytes_ofBytes]

theorem ofBytes_complement (bytes : Bytes) :
    ofBytes (bytes.map fun x => ~~~x) + ofBytes bytes + 1 = 256 ^ bytes.length := by
  induction bytes with
  | nil => rfl
  | cons b rest inductionHypothesis =>
      have flipped : (~~~b).toNat + b.toNat = 255 := by
        have small := b.toNat_lt
        rw [UInt8.toNat_not, show UInt8.size = 256 from rfl]
        omega
      rw [List.map_cons, ofBytes, ofBytes, List.length_cons, pow_succ']
      omega

/-- The bytes made by hand are the two's complement. -/
theorem decBytes_eq {unscaled : Int} (small : unscaled.natAbs < 2 ^ 127) :
    decBytes unscaled = toBytes 16 (toSigned 16 unscaled) := by
  unfold decBytes
  rw [← toBytes_eq_map]
  have modulus : ((2 : Int) ^ (8 * 16)) = 2 ^ 128 := rfl
  by_cases negative : unscaled < 0
  · have total := ofBytes_complement (toBytes 16 unscaled.natAbs)
    rw [ofBytes_toBytes_of_lt (by omega), length_toBytes] at total
    have same : ofBytes ((toBytes 16 unscaled.natAbs).map fun x => ~~~x) + 1 =
        toSigned 16 unscaled := by
      rw [toSigned, modulus]
      omega
    rw [if_pos negative, addOne_eq, List.length_map, length_toBytes, same]
  · have same : unscaled.natAbs = toSigned 16 unscaled := by
      rw [toSigned, modulus]
      omega
    rw [if_neg negative, same]

/-! ## Round trip -/

/-- A value as it was encoded, with the type of the column and, where the column says so,
padded with spaces. -/
def asStored (col : ColumnSpec) (v : Value) : Value :=
  ⟨col.type,
    match v.box with
    | .str s =>
        .str (if col.type.store = .charPad then s ++ List.replicate (col.length - s.length) 32
          else s)
    | box => box⟩

theorem stored_eq (col : ColumnSpec) {v : Value} (scale : ∀ d, v.box = .dec d → d.scale < 256) :
    stored col v = asStored col v := by
  rcases v with ⟨type, box⟩
  cases box with
  | str s =>
      simp only [stored, asStored, strVal]
      split <;> rfl
  | dec d => simp only [stored, asStored, numericVal, Nat.mod_eq_of_lt (scale d rfl)]
  | null => rfl
  | bool b => rfl
  | int64 i => rfl
  | double d => rfl
  | float x => rfl

/-- A record decodes to the values it was encoded from; the bytes of its numerics are those
the source makes by hand; and decoding fetches no byte outside of a record. -/
theorem row_codec_exact :
    (∀ (cols : List ColumnSpec) (values : List Value) (bytes : Bytes),
      (∀ v ∈ values, ∀ d, v.box = .dec d → d.scale < 256) →
      encodeRow cols values = .ok (some bytes) → bytes.length ≤ maxRecordLen →
      decodeRowAt cols bytes = .ok (some (List.zipWith asStored cols values))) ∧
    (∀ (col : ColumnSpec) (type : TypeAttr) (d : DecimalVal) (bytes : Bytes),
      col.type.rep = .dec → encodeValue col ⟨type, .dec d⟩ = .ok (some bytes) →
      bytes = decBytes d.unscaled ++ [UInt8.ofNat d.scale]) ∧
    ∀ (cols : List ColumnSpec) (data : Bytes) (pos : Nat),
      decodeRowAt cols data ≠ .error (.outside pos) := by
  refine ⟨?_, ?_, ?_⟩
  · intro cols values bytes scales encoded short
    have decoded : decodeRow cols bytes = .ok (some (List.zipWith stored cols values)) :=
      decodeRow_encodeRow encoded (by
        unfold maxRecordLen pageSize at short
        omega)
    have same : List.zipWith stored cols values = List.zipWith asStored cols values := by
      clear encoded decoded short
      induction cols generalizing values with
      | nil => rfl
      | cons col cols inductionHypothesis =>
          cases values with
          | nil => rfl
          | cons v values =>
              rw [List.zipWith_cons_cons, List.zipWith_cons_cons,
                stored_eq col (scales v List.mem_cons_self),
                inductionHypothesis values fun v mem => scales v (List.mem_cons_of_mem _ mem)]
    rw [decodeRowAt_eq, decoded, same]
    rfl
  · intro col type d bytes rep encoded
    simp only [encodeValue, rep] at encoded
    split at encoded
    · simp at encoded
    · rename_i small
      split at encoded
      · simp at encoded
      · obtain rfl := Option.some.inj (Except.ok.inj encoded)
        rw [decBytes_eq]
        unfold kNumericUnscaledMax at small
        rw [Int.abs_eq_natAbs] at small
        omega
  · intro cols data pos outside
    rw [decodeRowAt_eq] at outside
    rcases decoded : decodeRow cols data with e | values
    · rw [decoded] at outside
      cases outside
    · rw [decoded] at outside
      cases outside

/-- A row of every type, and one with NULLs. -/
theorem row_codec_exact_every_type :
    let cols : List ColumnSpec := [⟨"a", kInt, 0, true, 0⟩, ⟨"b", kChar, 3, false, 0⟩,
      ⟨"c", kNumeric, 0, false, 0⟩, ⟨"d", kVarChar, 0, false, 0⟩]
    let values : List Value := [intVal kInt (-2), strVal kChar [65], numericVal kNumeric (-7) 2,
      nullVal]
    ∃ bytes, encodeRow cols values = .ok (some bytes) ∧
      decodeRowAt cols bytes = .ok (some [intVal kInt (-2), strVal kChar [65, 32, 32],
        numericVal kNumeric (-7) 2, typedNull kVarChar]) := by
  intro cols values
  have encoded : ∃ bytes, encodeRow cols values = .ok (some bytes) ∧
      bytes.length ≤ maxRecordLen := by
    exact ⟨_, rfl, by decide⟩
  obtain ⟨bytes, encoded, short⟩ := encoded
  refine ⟨bytes, encoded, ?_⟩
  apply row_codec_exact.1 cols values bytes _ encoded short
  intro v mem d dec
  simp only [values, List.mem_cons, List.not_mem_nil, or_false] at mem
  rcases mem with rfl | rfl | rfl | rfl <;> cases dec
  decide

end MySimpleDb.Storage
