import MySimpleDb.Server.ResultStream
import MySimpleDb.Storage.CastSafe

/-!
# Result sets over the wire

What the client builds up from the bytes the server sends.  The lengths of names
and strings go out in 16 bits and those of frames in 32, unchecked, so a result
set comes back as it was exactly when every length fits its field.
-/

namespace MySimpleDb.Server

open MySimpleDb.Lib MySimpleDb.Storage MySimpleDb.Proto

/-! ## Decimal cells -/

/-- The increment, with the carry out of the front byte. -/
theorem addOne_spec (bytes : Bytes) :
    (addOne bytes).2.length = bytes.length ∧
      bigNat (addOne bytes).2 + (if (addOne bytes).1 then 256 ^ bytes.length else 0) =
        bigNat bytes + 1 := by
  induction bytes with
  | nil => simp [addOne, bigNat, ofBytes]
  | cons b rest inductionHypothesis =>
      obtain ⟨length, value⟩ := inductionHypothesis
      by_cases carry : (addOne rest).1 = true
      · rw [if_pos carry] at value
        by_cases full : b = 255
        · subst full
          simp only [addOne, carry, if_true, decide_true, bigNat_cons, length, List.length_cons,
            pow_succ]
          refine ⟨trivial, ?_⟩
          have zero : ((255 : UInt8) + 1).toNat = 0 := rfl
          have top : (255 : UInt8).toNat = 255 := rfl
          rw [zero, top]
          omega
        · simp only [addOne, carry, if_true, full, decide_false, bigNat_cons, length,
            List.length_cons]
          refine ⟨trivial, ?_⟩
          have next : (b + 1).toNat = b.toNat + 1 := by
            have ne : b.toNat ≠ 255 := fun eq => full (UInt8.toNat_inj.mp eq)
            have := b.toNat_lt
            rw [UInt8.toNat_add]
            simp only [UInt8.toNat_one]
            omega
          rw [next, Nat.mul_add]
          simp
          omega
      · rw [Bool.not_eq_true] at carry
        simp only [carry, Bool.false_eq_true, if_false] at value
        simp only [addOne, carry, Bool.false_eq_true, if_false, bigNat_cons, length,
          List.length_cons]
        refine ⟨trivial, ?_⟩
        omega

/-- The decimal a cell stands for, its bytes read in two's complement. -/
def decimalOf (c : DecimalCell) : DecimalVal :=
  let n := ofBytes c.bytes.reverse
  ⟨if 2 ^ 127 ≤ n then (n : Int) - 2 ^ 128 else n, c.scale⟩

/-- The complement of a number other than zero, plus one, is its two's complement. -/
theorem bigNat_addOne_complement {bytes : Bytes} (pos : 0 < bigNat bytes) :
    bigNat (addOne (bytes.map (~~~ ·))).2 = 256 ^ bytes.length - bigNat bytes := by
  have complement := bigNat_complement bytes
  obtain ⟨-, increment⟩ := addOne_spec (bytes.map (~~~ ·))
  rw [List.length_map] at increment
  have below := bigNat_lt (addOne (bytes.map (~~~ ·))).2
  split at increment <;> omega

/-- A negated magnitude is the two's complement of it. -/
private theorem bigNat_negate {n : Nat} (pos : 0 < n) (small : n < 2 ^ 127) :
    bigNat (addOne ((Cursor.bigEndian 16 n).map (~~~ ·))).2 = 2 ^ 128 - n := by
  have magnitude : bigNat (Cursor.bigEndian 16 n) = n := by
    rw [bigNat, Cursor.bigEndian, List.reverse_reverse, ofBytes_toBytes_of_lt (by omega)]
  have power : 256 ^ 16 = 2 ^ 128 := by decide
  rw [bigNat_addOne_complement (by rwa [magnitude]), magnitude, Cursor.length_bigEndian, power]

/-- The cell of a decimal stands for that decimal. -/
theorem decimalOf_decCell {d : DecimalVal} (bounded : d.Bounded) :
    decimalOf (decCell d) = d ∧ (decCell d).bytes.length = 16 := by
  rcases d with ⟨u, scale⟩
  have small : u.natAbs < 2 ^ 127 := by
    have limit : |u| < 10 ^ 38 := bounded.1
    rw [Int.abs_eq_natAbs] at limit
    omega
  by_cases neg : u < 0
  · have value := bigNat_negate (by omega) small
    have length := (addOne_spec ((Cursor.bigEndian 16 u.natAbs).map (~~~ ·))).1
    rw [bigNat] at value
    simp only [decCell, if_pos neg, decimalOf, value, length, List.length_map,
      Cursor.length_bigEndian, and_true]
    have signed : ((2 ^ 128 - u.natAbs : Nat) : Int) - 2 ^ 128 = u := by omega
    rw [if_pos (by omega), signed]
  · have value : ofBytes (Cursor.bigEndian 16 u.natAbs).reverse = u.natAbs := by
      rw [Cursor.bigEndian, List.reverse_reverse, ofBytes_toBytes_of_lt (by omega)]
    simp only [decCell, if_neg neg, decimalOf, value, Cursor.length_bigEndian, and_true]
    have signed : (u.natAbs : Int) = u := by omega
    rw [if_neg (by omega), signed]

/-! ## Cells -/

/-- The value a cell stands for. -/
def cellBox : CellVal → Box
  | .null => .null
  | .bool b => .bool b
  | .int64 i => .int64 i
  | .double d => .double d
  | .float x => .float x
  | .string s => .str s
  | .decimal d => .dec (decimalOf d)

/-- The bytes a cell takes in a batch. -/
def boxSize : Box → Nat
  | .null => 1
  | .bool _ => 2
  | .int64 _ => 9
  | .double _ => 9
  | .float _ => 5
  | .str s => 3 + s.length
  | .dec _ => 18

/-- A string whose length fits its 16-bit field. -/
def ShortText (box : Box) : Prop :=
  ∀ s, box = .str s → s.length < 2 ^ 16

/-- A cell with fixed parts of their size. -/
def CellSized : CellVal → Prop
  | .decimal d => d.bytes.length = 16 ∧ d.scale < 256
  | _ => True

/-- The cell of a well-formed value. -/
theorem toCell_eq {v : Value} (valid : v.Valid) (bounded : v.box.DecBounded) :
    ∃ c, toCell v = .ok c ∧ cellBox c = v.box ∧ CellSized c := by
  by_cases null : v.box = .null
  · refine ⟨.null, ?_, null.symm, trivial⟩
    rw [toCell, if_pos (valueIsNull_iff.mpr null)]
  · obtain ⟨-, rep, -⟩ := valid.resolve_left null
    have present : ¬ valueIsNull v = true := by rwa [valueIsNull_iff]
    rw [toCell, if_neg present, rep]
    cases box : v.box with
    | null => exact absurd box null
    | bool b => exact ⟨.bool b, rfl, rfl, trivial⟩
    | int64 i => exact ⟨.int64 i, rfl, rfl, trivial⟩
    | double d => exact ⟨.double d, rfl, rfl, trivial⟩
    | float x => exact ⟨.float x, rfl, rfl, trivial⟩
    | str s => exact ⟨.string s, rfl, rfl, trivial⟩
    | dec d =>
        rw [box] at bounded
        obtain ⟨same, length⟩ := decimalOf_decCell bounded
        refine ⟨.decimal (decCell d), rfl, congrArg Box.dec same, length, ?_⟩
        have scale := bounded.2
        simp only [decCell]
        omega

/-- A cell is sent in the bytes of its value. -/
theorem length_appendCell {c : CellVal} (sized : CellSized c) :
    (appendCell c).length = boxSize (cellBox c) := by
  cases c with
  | decimal d =>
      simp only [appendCell, List.length_append, Cursor.length_bigEndian, sized.1, cellBox,
        boxSize]
  | string s =>
      simp only [appendCell, List.length_append, Cursor.length_bigEndian, cellBox, boxSize]
      omega
  | _ => simp [appendCell, cellBox, boxSize]

private theorem reads_text {s : Bytes} (short : s.length < 2 ^ 16) :
    Cursor.Reads takeText (Cursor.bigEndian 2 s.length ++ s) s :=
  (Cursor.reads_num short).bind (Cursor.reads_bytes rfl)

/-- The tag byte in front of a payload. -/
private theorem reads_tagged {α : Type} {tag : Nat} {f : Nat → Cursor α} {payload : Bytes} {a : α}
    (byte : tag < 256) (read : Cursor.Reads (f tag) payload a) :
    Cursor.Reads (Cursor.num 1 >>= f) (Cursor.bigEndian 1 tag ++ payload) a :=
  (Cursor.reads_num byte).bind read

/-- A cell whose text is short is taken as it was sent. -/
theorem reads_cell {c : CellVal} (sized : CellSized c) (short : ShortText (cellBox c)) :
    Cursor.Reads takeCell (appendCell c) c := by
  cases c with
  | null =>
      rw [← List.append_nil (appendCell CellVal.null)]
      exact reads_tagged (by decide) (Cursor.Reads.pure CellVal.null)
  | int64 i =>
      have fits : i.toUInt64.toNat < 256 ^ 8 := i.toUInt64.toNat_lt
      have bits := (Cursor.reads_num fits).map
        (f := fun bits => CellVal.int64 (UInt64.ofNat bits).toInt64)
      rw [UInt64.ofNat_toNat, Int64.toInt64_toUInt64] at bits
      exact reads_tagged (by decide) bits
  | double d =>
      have fits : d.toBits < 256 ^ 8 := d.toBits_lt
      have bits := (Cursor.reads_num fits).map (f := fun bits => CellVal.double (Flt.ofBits _ bits))
      rw [Flt.ofBits_toBits] at bits
      exact reads_tagged (by decide) bits
  | float x =>
      have fits : x.toBits < 256 ^ 4 := x.toBits_lt
      have bits := (Cursor.reads_num fits).map (f := fun bits => CellVal.float (Flt.ofBits _ bits))
      rw [Flt.ofBits_toBits] at bits
      exact reads_tagged (by decide) bits
  | string s => exact reads_tagged (by decide) (reads_text (short s rfl)).map
  | bool b =>
      apply reads_tagged (by decide)
      have fits : (if b then 1 else 0) < 256 ^ 1 := by cases b <;> decide
      have checked : Cursor.Reads (if 1 < (if b then 1 else 0) then Cursor.fail
          else pure (CellVal.bool ((if b then 1 else 0) ≠ 0))) [] (CellVal.bool b) := by
        cases b <;> exact Cursor.Reads.pure _
      have read := (Cursor.reads_num fits).bind
        (f := fun b => if 1 < b then Cursor.fail else pure (CellVal.bool (b ≠ 0))) checked
      rw [List.append_nil] at read
      exact read
  | decimal d =>
      apply reads_tagged (by decide)
      apply (Cursor.reads_bytes sized.1).bind
      have fits : d.scale < 256 ^ 1 := sized.2
      exact (Cursor.reads_num fits).map (f := fun scale => CellVal.decimal ⟨d.bytes, scale⟩)

/-! ## Bodies -/

theorem reads_head {cols : List Bytes} (count : cols.length < 2 ^ 32)
    (names : ∀ col ∈ cols, col.length < 2 ^ 16) : decodeRsHead (encodeRsHead cols) = some cols ∧
      ∀ front back, back ≠ [] → front ++ back = encodeRsHead cols → decodeRsHead front = none := by
  have fits : cols.length < 256 ^ 4 := count
  have read := (Cursor.reads_num fits).bind
    (Cursor.reads_many fun col mem => reads_text (names col mem))
  exact ⟨read.whole_eq, fun front back cut split => read.whole_short cut split⟩

/-- Cells as they are in the rows of a result with `width` columns. -/
def CellRows (width : Nat) (rows : List (List CellVal)) : Prop :=
  ∀ row ∈ rows, row.length = width ∧ ∀ c ∈ row, CellSized c ∧ ShortText (cellBox c)

theorem reads_batch {width : Nat} {rows : List (List CellVal)} (count : rows.length < 2 ^ 32)
    (cells : CellRows width rows) : decodeRsBatch (encodeRsBatch rows) width = some rows ∧
      ∀ front back, back ≠ [] → front ++ back = encodeRsBatch rows →
        decodeRsBatch front width = none := by
  have fits : rows.length < 256 ^ 4 := count
  have each : ∀ row ∈ rows,
      Cursor.Reads (Cursor.many takeCell width) (row.flatMap appendCell) row := by
    intro row mem
    obtain ⟨length, sized⟩ := cells row mem
    subst length
    exact Cursor.reads_many fun c c_mem => reads_cell (sized c c_mem).1 (sized c c_mem).2
  have read := (Cursor.reads_num fits).bind (Cursor.reads_many each)
  exact ⟨read.whole_eq, fun front back cut split => read.whole_short cut split⟩

/-! ## Frames -/

/-- A body whose frame length fits 32 bits. -/
def FrameFits (body : Bytes) : Prop :=
  1 + body.length < 2 ^ 32

instance (body : Bytes) : Decidable (FrameFits body) :=
  inferInstanceAs (Decidable (_ < _))

theorem recvFrame_sendFrame (type : MsgType) {body : Bytes} (fits : FrameFits body)
    (rest : Bytes) : recvFrame 0 (sendFrame type body ++ rest) = some ((type, body), rest) := by
  have small : 1 + body.length < 256 ^ 4 := fits
  have length : (type :: body).length = 1 + body.length := by
    rw [List.length_cons]
    omega
  have read : Cursor.Reads (recvFrame 0) (sendFrame type body) (type, body) := by
    apply (Cursor.reads_num small).bind
    rw [if_neg (by simp)]
    rw [← List.append_nil (type :: body)]
    exact (Cursor.reads_bytes length).bind (Cursor.Reads.pure (type, body))
  exact read.exact rest

/-- A length that does not fit gives no frame, or one whose body is cut short. -/
theorem recvFrame_overflow (type : MsgType) {body : Bytes} (tooLong : ¬ FrameFits body)
    (rest : Bytes) : recvFrame 0 (sendFrame type body ++ rest) = none ∨
      ∃ front back left, back ≠ [] ∧ front ++ back = body ∧
        recvFrame 0 (sendFrame type body ++ rest) = some ((type, front), left) := by
  have header := (Cursor.reads_num_mod 4 (1 + body.length)).exact (type :: body ++ rest)
  rw [FrameFits, not_lt] at tooLong
  generalize wrapped_eq : (1 + body.length) % 256 ^ 4 = wrapped at header
  have wrapped_lt : wrapped < 2 ^ 32 := by omega
  rw [sendFrame, List.append_assoc, recvFrame, Cursor.bind_of_some header]
  by_cases zero : wrapped < 1
  · left
    rw [if_pos (Or.inl zero)]
    rfl
  · right
    -- the wrapped length stops inside the body
    obtain ⟨n, rfl⟩ : ∃ n, wrapped = n + 1 := ⟨wrapped - 1, by omega⟩
    have inside : n < body.length := by omega
    have taken : Cursor.bytes (n + 1) (type :: body ++ rest) =
        some (type :: body.take n, body.drop n ++ rest) := by
      have enough : n + 1 ≤ (type :: body ++ rest).length := by
        simp only [List.cons_append, List.length_cons, List.length_append]
        omega
      rw [Cursor.bytes, if_pos enough]
      simp [List.take_append_of_le_length inside.le, List.drop_append_of_le_length inside.le]
    refine ⟨body.take n, body.drop n, body.drop n ++ rest, ?_, List.take_append_drop n body, ?_⟩
    · rw [ne_eq, List.drop_eq_nil_iff]
      omega
    · rw [if_neg (by simp [zero]), Cursor.bind_of_some taken]
      rfl

/-! ## The sending side -/

/-- Consecutive batches of `n`: `batch` is the one being filled. -/
def batchesFrom {α : Type} (n : Nat) : List α → List α → List (List α)
  | [], batch => if batch = [] then [] else [batch]
  | row :: rows, batch =>
      let batch := batch ++ [row]
      if n ≤ batch.length then batch :: batchesFrom n rows [] else batchesFrom n rows batch

theorem flatten_batchesFrom {α : Type} (n : Nat) (rows batch : List α) :
    (batchesFrom n rows batch).flatten = batch ++ rows := by
  induction rows generalizing batch with
  | nil =>
      rw [batchesFrom]
      split
      · rename_i empty
        simp [empty]
      · simp
  | cons row rows inductionHypothesis =>
      rw [batchesFrom]
      split
      · rw [List.flatten_cons, inductionHypothesis, List.nil_append, List.append_assoc,
          List.singleton_append]
      · rw [inductionHypothesis, List.append_assoc, List.singleton_append]

theorem batchesFrom_length {α : Type} {n : Nat} (rows : List α) {batch : List α}
    (room : batch.length < n) : ∀ b ∈ batchesFrom n rows batch, b.length ≤ n := by
  induction rows generalizing batch with
  | nil =>
      intro b mem
      rw [batchesFrom] at mem
      split at mem
      · cases mem
      · rw [List.mem_singleton.mp mem]
        exact room.le
  | cons row rows inductionHypothesis =>
      intro b mem
      rw [batchesFrom] at mem
      have length : (batch ++ [row]).length = batch.length + 1 := List.length_append
      split at mem
      · rename_i full
        rcases List.mem_cons.mp mem with rfl | mem
        · omega
        · exact inductionHypothesis (by simp only [List.length_nil]; omega) b mem
      · rename_i partly
        exact inductionHypothesis (by omega) b mem

private theorem map_batchesFrom {α β : Type} (n : Nat) (f : α → β) (rows batch : List α) :
    batchesFrom n (rows.map f) (batch.map f) = (batchesFrom n rows batch).map (List.map f) := by
  induction rows generalizing batch with
  | nil =>
      simp only [batchesFrom, List.map_nil, List.map_eq_nil_iff]
      split <;> simp
  | cons row rows inductionHypothesis =>
      have grown := inductionHypothesis (batch ++ [row])
      have fresh := inductionHypothesis []
      rw [List.map_append, List.map_singleton] at grown
      rw [List.map_nil] at fresh
      simp only [List.map_cons, batchesFrom, List.length_append, List.length_map,
        List.length_singleton, fresh, grown]
      split <;> simp

/-- The frame of a batch. -/
def batchFrame (batch : List (List CellVal)) : Bytes :=
  sendFrame MsgType.resultSetBatch (encodeRsBatch batch)

/-- The batches a server sends are the consecutive ones of 256 rows. -/
theorem sendRows_eq {rows : List (List Value)} {cells : List (List CellVal)}
    (converts : List.Forall₂ (fun row cs => row.mapM toCell = .ok cs) rows cells)
    (batch : List (List CellVal)) (total : Nat) :
    ∃ sent left, sendRows rows batch total =
        (sent, .ok (left, if rows = [] then total else (total + rows.length) % 2 ^ 64)) ∧
      sent ++ (if left = [] then [] else batchFrame left) =
        (batchesFrom rsBatchMaxRows cells batch).flatMap batchFrame := by
  induction converts generalizing batch total with
  | nil =>
      refine ⟨[], batch, rfl, ?_⟩
      rw [batchesFrom]
      split <;> simp
  | @cons row cs rows cells head tail inductionHypothesis =>
      have counted : (if rows = [] then (total + 1) % 2 ^ 64
          else ((total + 1) % 2 ^ 64 + rows.length) % 2 ^ 64) =
            (total + (row :: rows).length) % 2 ^ 64 := by
        rw [List.length_cons]
        split
        · rename_i empty
          simp [empty]
        · omega
      rw [if_neg (List.cons_ne_nil row rows), ← counted]
      simp only [sendRows, head, batchesFrom]
      by_cases full : rsBatchMaxRows ≤ (batch ++ [cs]).length
      · obtain ⟨sent, left, sends, frames⟩ := inductionHypothesis [] ((total + 1) % 2 ^ 64)
        rw [if_pos full, if_pos full, sends]
        refine ⟨_, left, rfl, ?_⟩
        rw [List.flatMap_cons, ← frames, List.append_assoc]
        rfl
      · obtain ⟨sent, left, sends, frames⟩ :=
          inductionHypothesis (batch ++ [cs]) ((total + 1) % 2 ^ 64)
        rw [if_neg full, if_neg full, sends]
        exact ⟨sent, left, rfl, frames⟩

/-- The cell of a value, NULL for one without a cell. -/
def cellOf (v : Value) : CellVal :=
  match toCell v with
  | .ok c => c
  | .error _ => .null

/-- Values the server can put in a result: well-formed and within the digit
limit. -/
def Sendable (v : Value) : Prop :=
  v.Valid ∧ v.box.DecBounded

theorem Sendable.toCell_eq {v : Value} (sendable : Sendable v) : toCell v = .ok (cellOf v) := by
  obtain ⟨c, converts, -⟩ := Server.toCell_eq sendable.1 sendable.2
  rw [cellOf, converts]

theorem Sendable.cellOf_spec {v : Value} (sendable : Sendable v) :
    cellBox (cellOf v) = v.box ∧ CellSized (cellOf v) := by
  obtain ⟨c, converts, spec⟩ := Server.toCell_eq sendable.1 sendable.2
  rw [cellOf, converts]
  exact spec

theorem mapM_toCell {row : List Value} (sendable : ∀ v ∈ row, Sendable v) :
    row.mapM toCell = .ok (row.map cellOf) := by
  induction row with
  | nil => rfl
  | cons v row inductionHypothesis =>
      rw [List.mapM_cons, (sendable v List.mem_cons_self).toCell_eq,
        inductionHypothesis fun w mem => sendable w (List.mem_cons_of_mem v mem)]
      rfl

/-! ## The receiving side -/

theorem recvResultStream_of_frame {stream rest body : Bytes} {type : MsgType} {rs : ResultSet}
    (taken : recvFrame 0 stream = some ((type, body), rest)) :
    recvResultStream stream rs =
      if type = MsgType.resultSetBatch then
        match decodeRsBatch body (rs.cols.length % 2 ^ 32) with
        | none => none
        | some rows => recvResultStream rest { rs with rows := rs.rows ++ rows }
      else if type = MsgType.resultSetEnd then
        match decodeRsEnd body with
        | none => none
        | some total => if total = rs.rows.length then some rs else none
      else if type = MsgType.notice then
        match decodeNotice body with
        | none => none
        | some _ => recvResultStream rest rs
      else none := by
  rw [recvResultStream]
  split
  · rename_i missing
    rw [taken] at missing
    cases missing
  · rename_i found
    rw [taken] at found
    cases found
    rfl

theorem recvResultStream_of_none {stream : Bytes} {rs : ResultSet}
    (missing : recvFrame 0 stream = none) : recvResultStream stream rs = none := by
  rw [recvResultStream]
  split
  · rfl
  · rename_i found
    rw [missing] at found
    cases found

/-- Batches are taken one by one, up to the first frame that does not fit. -/
theorem recvResultStream_batches {rs : ResultSet} (width_lt : rs.cols.length < 2 ^ 32)
    (tail : Bytes) {batches : List (List (List CellVal))}
    (cells : ∀ b ∈ batches, CellRows rs.cols.length b) (counts : ∀ b ∈ batches, b.length < 2 ^ 32) :
    recvResultStream (batches.flatMap batchFrame ++ tail) rs =
      if ∀ b ∈ batches, FrameFits (encodeRsBatch b) then
        recvResultStream tail { rs with rows := rs.rows ++ batches.flatten }
      else none := by
  induction batches generalizing rs with
  | nil => simp
  | cons b batches inductionHypothesis =>
      have b_mem : b ∈ b :: batches := List.mem_cons_self
      obtain ⟨taken, cut_short⟩ := reads_batch (counts b b_mem) (cells b b_mem)
      have width : rs.cols.length % 2 ^ 32 = rs.cols.length := Nat.mod_eq_of_lt width_lt
      rw [List.flatMap_cons, List.append_assoc, batchFrame]
      by_cases fits : FrameFits (encodeRsBatch b)
      · have rest := @inductionHypothesis { rs with rows := rs.rows ++ b } width_lt
          (fun c mem => cells c (List.mem_cons_of_mem b mem))
          (fun c mem => counts c (List.mem_cons_of_mem b mem))
        rw [recvResultStream_of_frame (recvFrame_sendFrame _ fits _), if_pos rfl, width, taken]
        simp only [rest, List.forall_mem_cons, fits, true_and, List.flatten_cons,
          List.append_assoc]
      · rw [if_neg fun all => fits (all b b_mem)]
        rcases recvFrame_overflow MsgType.resultSetBatch fits
            (batches.flatMap batchFrame ++ tail) with
          missing | ⟨front, back, left, cut, split, found⟩
        · exact recvResultStream_of_none missing
        · rw [recvResultStream_of_frame found, if_pos rfl, width,
            cut_short front back cut split]

/-- The end of the stream: the total is checked against the rows taken. -/
theorem recvResultStream_end (total : Nat) (rs : ResultSet) :
    recvResultStream (sendFrame MsgType.resultSetEnd (encodeRsEnd total)) rs =
      if total % 2 ^ 64 = rs.rows.length then some rs else none := by
  have fits : FrameFits (encodeRsEnd total) := by
    rw [FrameFits, encodeRsEnd, Cursor.length_bigEndian]
    decide
  have taken := recvFrame_sendFrame MsgType.resultSetEnd fits []
  have decoded : decodeRsEnd (encodeRsEnd total) = some (total % 2 ^ 64) :=
    (Cursor.reads_num_mod 8 total).whole_eq
  rw [List.append_nil] at taken
  rw [recvResultStream_of_frame taken, if_neg (by decide), if_pos rfl, decoded]

/-- A notice of a level in range is passed over. -/
theorem recvResultStream_notice {session level : LogLevel} {message : Bytes}
    (fits : FrameFits (encodeNotice level.rank message)) (tail : Bytes) (rs : ResultSet) :
    recvResultStream (sendNotice session level message ++ tail) rs =
      recvResultStream tail rs := by
  rw [sendNotice]
  split
  · rfl
  · have in_range : level.rank < 256 ^ 1 ∧ ¬ noticeLevelMax < level.rank := by
      cases level <;> decide
    have read := (Cursor.reads_num in_range.1).exact message
    have decoded : decodeNotice (encodeNotice level.rank message) = some (level.rank, message) := by
      rw [decodeNotice, encodeNotice, read]
      exact if_neg in_range.2
    rw [recvResultStream_of_frame (recvFrame_sendFrame _ fits _), if_neg (by decide),
      if_neg (by decide), if_pos rfl, decoded]

/-- The head is taken when its frame fits. -/
theorem recvReply_head {cols : List Bytes} (count : cols.length < 2 ^ 32)
    (names : ∀ col ∈ cols, col.length < 2 ^ 16) (tail : Bytes) :
    recvReply (sendFrame MsgType.resultSetHead (encodeRsHead cols) ++ tail) =
      if FrameFits (encodeRsHead cols) then recvResultStream tail { cols := cols } else none := by
  obtain ⟨decoded, cut_short⟩ := reads_head count names
  by_cases fits : FrameFits (encodeRsHead cols)
  · have taken := recvFrame_sendFrame MsgType.resultSetHead fits tail
    rw [if_pos fits, recvReply]
    split
    · rename_i missing
      rw [taken] at missing
      cases missing
    · rename_i found
      rw [taken] at found
      cases found
      rw [if_neg (by decide), if_pos rfl, decoded]
  · rw [if_neg fits, recvReply]
    rcases recvFrame_overflow MsgType.resultSetHead fits tail with
      missing | ⟨front, back, left, cut, split_eq, taken⟩
    · split
      · rfl
      · rename_i found
        rw [missing] at found
        cases found
    · split
      · rfl
      · rename_i found
        rw [taken] at found
        cases found
        rw [if_neg (by decide), if_pos rfl, cut_short front back cut split_eq]

/-! ## Lengths a client can receive -/

private theorem gives_text : Cursor.Gives takeText fun s => s.length < 2 ^ 16 := by
  refine (Cursor.gives_num 2).bind fun len small => ?_
  intro text s rest taken
  rw [Cursor.gives_bytes len text s rest taken]
  exact small

private theorem shortText_of_ne {c : CellVal} (other : ∀ s, c ≠ .string s) :
    ShortText (cellBox c) := by
  intro s box
  cases c <;> simp only [cellBox, reduceCtorEq] at box
  cases box
  exact absurd rfl (other s)

/-- A cell off the wire has a string of less than 64 KiB, or none. -/
private theorem gives_cell : Cursor.Gives takeCell fun c => ShortText (cellBox c) := by
  refine (Cursor.gives_num 1).bind fun tag _ => ?_
  split
  · exact (Cursor.gives_num 8).bind fun bits _ => Cursor.Gives.pure (shortText_of_ne (by simp))
  · split
    · exact (Cursor.gives_num 8).bind fun bits _ => Cursor.Gives.pure (shortText_of_ne (by simp))
    · split
      · refine gives_text.bind fun text short => Cursor.Gives.pure ?_
        rintro s ⟨⟩
        exact short
      · split
        · refine (Cursor.gives_num 1).bind fun b _ => ?_
          split
          · exact Cursor.gives_fail
          · exact Cursor.Gives.pure (shortText_of_ne (by simp))
        · split
          · exact (Cursor.gives_num 4).bind fun bits _ =>
              Cursor.Gives.pure (shortText_of_ne (by simp))
          · split
            · exact (Cursor.gives_bytes 16).bind fun bytes _ =>
                (Cursor.gives_num 1).bind fun scale _ =>
                  Cursor.Gives.pure (shortText_of_ne (by simp))
            · split
              · exact Cursor.Gives.pure (shortText_of_ne (by simp))
              · exact Cursor.gives_fail

/-- Rows whose strings are all short. -/
def ShortRows (rows : List (List CellVal)) : Prop :=
  ∀ row ∈ rows, ∀ c ∈ row, ShortText (cellBox c)

private theorem decodeRsBatch_short {body : Bytes} {width : Nat} {rows : List (List CellVal)}
    (decoded : decodeRsBatch body width = some rows) : ShortRows rows := by
  have gives : Cursor.Gives (do
      let rowCount ← Cursor.num 4
      Cursor.many (Cursor.many takeCell width) rowCount) ShortRows :=
    (Cursor.gives_num 4).bind fun rowCount _ =>
      (Cursor.gives_many (Cursor.gives_many gives_cell width) rowCount).mono
        fun rows given row mem => (given.2 row mem).2
  exact gives.whole decoded

private theorem decodeRsHead_short {body : Bytes} {cols : List Bytes}
    (decoded : decodeRsHead body = some cols) :
    cols.length < 2 ^ 32 ∧ ∀ col ∈ cols, col.length < 2 ^ 16 := by
  have gives : Cursor.Gives (do
      let colCount ← Cursor.num 4
      Cursor.many takeText colCount)
      fun cols => cols.length < 2 ^ 32 ∧ ∀ col ∈ cols, col.length < 2 ^ 16 :=
    (Cursor.gives_num 4).bind fun colCount small =>
      (Cursor.gives_many gives_text colCount).mono fun cols given => ⟨given.1 ▸ small, given.2⟩
  exact gives.whole decoded

/-- What follows the head leaves the names and brings short strings only. -/
theorem recvResultStream_short {stream : Bytes} {rs out : ResultSet} (short : ShortRows rs.rows)
    (received : recvResultStream stream rs = some out) :
    out.cols = rs.cols ∧ ShortRows out.rows := by
  fun_induction recvResultStream stream rs with
  | case3 stream rs body rest rows decoded taken shorter inductionHypothesis =>
      refine inductionHypothesis (fun row mem => ?_) received
      rcases List.mem_append.mp mem with mem | mem
      · exact short row mem
      · exact decodeRsBatch_short decoded row mem
  | case5 =>
      obtain rfl := Option.some.inj received
      exact ⟨rfl, short⟩
  | case8 stream rs body rest notice decoded taken shorter not_batch not_end inductionHypothesis =>
      exact inductionHypothesis short received
  | case1 | case2 | case4 | case6 | case7 | case9 => cases received

theorem recvReply_short {stream : Bytes} {out : ResultSet}
    (received : recvReply stream = some out) :
    (out.cols.length < 2 ^ 32 ∧ ∀ col ∈ out.cols, col.length < 2 ^ 16) ∧ ShortRows out.rows := by
  fun_induction recvReply stream with
  | case3 stream body rest notice decoded taken shorter inductionHypothesis =>
      exact inductionHypothesis received
  | case5 stream body rest cols decoded =>
      have no_rows : ShortRows (ResultSet.rows { cols := cols }) := by
        rintro row ⟨⟩
      obtain ⟨cols_eq, rows_short⟩ := recvResultStream_short no_rows received
      rw [cols_eq]
      exact ⟨decodeRsHead_short decoded, rows_short⟩
  | case1 | case2 | case4 | case6 => cases received

/-! ## The round trip -/

/-- The bytes of a head, 2 bytes and the text for each name. -/
def headSize (cols : List Bytes) : Nat :=
  4 + (cols.map fun col => 2 + col.length).sum

/-- The bytes of a batch. -/
def batchSize (rows : List (List Value)) : Nat :=
  4 + (rows.map fun row => (row.map fun v => boxSize v.box).sum).sum

/-- Every length of a result set fits the field it is sent in: names and strings
in 16 bits, frames in 32, the number of rows in 64. -/
structure WireFits (cols : List Bytes) (rows : List (List Value)) : Prop where
  names : ∀ col ∈ cols, col.length < 2 ^ 16
  strings : ∀ row ∈ rows, ∀ v ∈ row, ShortText v.box
  head : 1 + headSize cols < 2 ^ 32
  batches : ∀ batch ∈ batchesFrom rsBatchMaxRows rows [], 1 + batchSize batch < 2 ^ 32
  count : rows.length < 2 ^ 64

/-- The client builds up the names and the values the server sent. -/
def RoundTrips (cols : List Bytes) (rows : List (List Value)) (level : LogLevel) : Prop :=
  (sendResultStream cols rows level).2 = .ok () ∧
    ∃ rs, recvReply (sendResultStream cols rows level).1 = some rs ∧ rs.cols = cols ∧
      rs.rows.map (List.map cellBox) = rows.map (List.map Value.box)

private theorem length_le_headSize (cols : List Bytes) : cols.length ≤ headSize cols := by
  induction cols with
  | nil => exact Nat.zero_le _
  | cons col cols inductionHypothesis =>
      simp only [headSize, List.map_cons, List.sum_cons, List.length_cons] at *
      omega

private theorem length_encodeRsHead (cols : List Bytes) :
    (encodeRsHead cols).length = headSize cols := by
  rw [encodeRsHead, List.length_append, Cursor.length_bigEndian, headSize, List.length_flatMap]
  simp

private theorem length_encodeRsBatch {rows : List (List Value)}
    (sendable : ∀ row ∈ rows, ∀ v ∈ row, Sendable v) :
    (encodeRsBatch (rows.map (List.map cellOf))).length = batchSize rows := by
  have cell : ∀ row ∈ rows, ∀ v ∈ row, (appendCell (cellOf v)).length = boxSize v.box := by
    intro row row_mem v v_mem
    obtain ⟨box, sized⟩ := (sendable row row_mem v v_mem).cellOf_spec
    rw [length_appendCell sized, box]
  have row_size : ∀ row ∈ rows, ((row.map cellOf).flatMap appendCell).length =
      (row.map fun v => boxSize v.box).sum := by
    intro row mem
    rw [List.length_flatMap, List.map_map]
    exact congrArg List.sum (List.map_congr_left (cell row mem))
  rw [encodeRsBatch, List.length_append, Cursor.length_bigEndian, batchSize, List.length_flatMap,
    List.map_map]
  exact congrArg (4 + List.sum ·) (List.map_congr_left row_size)

/-- The text of the notice stays far below the size of a frame. -/
private theorem notice_fits (total : Nat) (small : total < 2 ^ 64) :
    FrameFits (encodeNotice LogLevel.debug.rank
      (utf8 "执行结果: 返回 " ++ natToText total ++ utf8 " 行")) := by
  have digits : (natToText total).length ≤ 20 := by
    rw [natToText]
    split
    · decide
    · rw [List.length_map, List.length_reverse, Nat.digits_length_le_iff (by decide)]
      omega
  have front : (utf8 "执行结果: 返回 ").length = 21 := rfl
  have back : (utf8 " 行").length = 4 := rfl
  simp only [FrameFits, encodeNotice, List.length_append, Cursor.length_bigEndian, front, back]
  omega

/-- What the server sends for a result it has cells for. -/
private theorem sendResultStream_eq {cols : List Bytes} {rows : List (List Value)}
    (level : LogLevel) (sendable : ∀ row ∈ rows, ∀ v ∈ row, Sendable v) :
    sendResultStream cols rows level =
      (sendFrame MsgType.resultSetHead (encodeRsHead cols) ++
        ((batchesFrom rsBatchMaxRows (rows.map (List.map cellOf)) []).flatMap batchFrame ++
          (sendNotice level .debug (utf8 "执行结果: 返回 " ++ natToText (rows.length % 2 ^ 64) ++
              utf8 " 行") ++
            sendFrame MsgType.resultSetEnd (encodeRsEnd (rows.length % 2 ^ 64)))), .ok ()) := by
  have converts : List.Forall₂ (fun row cs => row.mapM toCell = .ok cs) rows
      (rows.map (List.map cellOf)) := by
    rw [List.forall₂_map_right_iff, List.forall₂_same]
    exact fun row mem => mapM_toCell (sendable row mem)
  obtain ⟨sent, left, sends, frames⟩ := sendRows_eq converts [] 0
  have counted : (if rows = [] then 0 else (0 + rows.length) % 2 ^ 64) = rows.length % 2 ^ 64 := by
    split
    · rename_i empty
      simp [empty]
    · rw [Nat.zero_add]
  rw [counted] at sends
  rw [← frames, sendResultStream, sends]
  simp only [batchFrame, List.append_assoc]

/-- The rows a client builds up stand for the rows of the server. -/
private theorem map_cellBox {rows : List (List Value)}
    (sendable : ∀ row ∈ rows, ∀ v ∈ row, Sendable v) :
    (rows.map (List.map cellOf)).map (List.map cellBox) = rows.map (List.map Value.box) := by
  rw [List.map_map]
  apply List.map_congr_left
  intro row row_mem
  rw [Function.comp_apply, List.map_map]
  apply List.map_congr_left
  intro v v_mem
  exact (sendable row row_mem v v_mem).cellOf_spec.1

/-- What the client makes of a result whose names and strings are short. -/
private theorem recvReply_eq {cols : List Bytes} {rows : List (List Value)} (level : LogLevel)
    (width : ∀ row ∈ rows, row.length = cols.length)
    (sendable : ∀ row ∈ rows, ∀ v ∈ row, Sendable v) (count : cols.length < 2 ^ 32)
    (names : ∀ col ∈ cols, col.length < 2 ^ 16)
    (strings : ∀ row ∈ rows, ∀ v ∈ row, ShortText v.box) :
    recvReply (sendResultStream cols rows level).1 =
      if 1 + headSize cols < 2 ^ 32 ∧
          (∀ batch ∈ batchesFrom rsBatchMaxRows rows [], 1 + batchSize batch < 2 ^ 32) ∧
          rows.length < 2 ^ 64 then
        some { cols := cols, rows := rows.map (List.map cellOf) }
      else none := by
  have batches_eq : batchesFrom rsBatchMaxRows (rows.map (List.map cellOf)) [] =
      (batchesFrom rsBatchMaxRows rows []).map (List.map (List.map cellOf)) :=
    map_batchesFrom rsBatchMaxRows (List.map cellOf) rows []
  have in_rows : ∀ batch ∈ batchesFrom rsBatchMaxRows rows [], ∀ row ∈ batch, row ∈ rows := by
    intro batch batch_mem row row_mem
    have mem := List.mem_flatten_of_mem batch_mem row_mem
    rwa [flatten_batchesFrom, List.nil_append] at mem
  have cells : ∀ b ∈ batchesFrom rsBatchMaxRows (rows.map (List.map cellOf)) [],
      CellRows cols.length b := by
    intro b b_mem
    rw [batches_eq] at b_mem
    obtain ⟨batch, batch_mem, rfl⟩ := List.mem_map.mp b_mem
    intro cs cs_mem
    obtain ⟨row, row_mem, rfl⟩ := List.mem_map.mp cs_mem
    have mem := in_rows batch batch_mem row row_mem
    refine ⟨by rw [List.length_map, width row mem], fun c c_mem => ?_⟩
    obtain ⟨v, v_mem, rfl⟩ := List.mem_map.mp c_mem
    obtain ⟨box, sized⟩ := (sendable row mem v v_mem).cellOf_spec
    exact ⟨sized, box ▸ strings row mem v v_mem⟩
  have counts : ∀ b ∈ batchesFrom rsBatchMaxRows (rows.map (List.map cellOf)) [],
      b.length < 2 ^ 32 := by
    intro b b_mem
    have room : ([] : List (List CellVal)).length < rsBatchMaxRows := by decide
    have length_le : b.length ≤ 256 := batchesFrom_length _ room b b_mem
    omega
  have head_size : FrameFits (encodeRsHead cols) ↔ 1 + headSize cols < 2 ^ 32 := by
    rw [FrameFits, length_encodeRsHead]
  have batch_size : (∀ b ∈ batchesFrom rsBatchMaxRows (rows.map (List.map cellOf)) [],
        FrameFits (encodeRsBatch b)) ↔
      ∀ batch ∈ batchesFrom rsBatchMaxRows rows [], 1 + batchSize batch < 2 ^ 32 := by
    rw [batches_eq, List.forall_mem_map]
    refine forall₂_congr fun batch mem => ?_
    rw [FrameFits, length_encodeRsBatch fun row row_mem => sendable row (in_rows batch mem row row_mem)]
  rw [sendResultStream_eq level sendable, recvReply_head count names]
  by_cases head_fits : FrameFits (encodeRsHead cols)
  · rw [if_pos head_fits, recvResultStream_batches count _ cells counts]
    by_cases batches_fit : ∀ b ∈ batchesFrom rsBatchMaxRows (rows.map (List.map cellOf)) [],
        FrameFits (encodeRsBatch b)
    · have small : rows.length % 2 ^ 64 < 2 ^ 64 := Nat.mod_lt _ (by decide)
      rw [if_pos batches_fit, recvResultStream_notice (notice_fits _ small), recvResultStream_end,
        flatten_batchesFrom, Nat.mod_mod]
      simp only [List.nil_append, List.length_map, head_size.mp head_fits, true_and]
      by_cases total : rows.length < 2 ^ 64
      · rw [if_pos (Nat.mod_eq_of_lt total), if_pos ⟨batch_size.mp batches_fit, total⟩]
      · rw [if_neg (by omega), if_neg fun all => total all.2]
    · rw [if_neg batches_fit, if_neg fun all => batches_fit (batch_size.mpr all.2.1)]
  · rw [if_neg head_fits, if_neg fun all => head_fits (head_size.mpr all.1)]

/-- What comes back unchanged has short names and strings, and few columns. -/
private theorem RoundTrips.short {cols : List Bytes} {rows : List (List Value)} {level : LogLevel}
    (trip : RoundTrips cols rows level) : (cols.length < 2 ^ 32 ∧
      ∀ col ∈ cols, col.length < 2 ^ 16) ∧ ∀ row ∈ rows, ∀ v ∈ row, ShortText v.box := by
  obtain ⟨-, rs, received, rfl, same⟩ := trip
  obtain ⟨head, short⟩ := recvReply_short received
  refine ⟨head, fun row row_mem v v_mem => ?_⟩
  have boxes_mem : row.map Value.box ∈ rs.rows.map (List.map cellBox) := by
    rw [same]
    exact List.mem_map_of_mem row_mem
  obtain ⟨cs, cs_mem, cs_eq⟩ := List.mem_map.mp boxes_mem
  have box_mem : v.box ∈ cs.map cellBox := by
    rw [cs_eq]
    exact List.mem_map_of_mem v_mem
  obtain ⟨c, c_mem, c_eq⟩ := List.mem_map.mp box_mem
  rw [← c_eq]
  exact short cs cs_mem c c_mem

/-- A result set comes back as it was exactly when every length fits its field. -/
theorem roundTrips_iff {cols : List Bytes} {rows : List (List Value)} {level : LogLevel}
    (width : ∀ row ∈ rows, row.length = cols.length)
    (sendable : ∀ row ∈ rows, ∀ v ∈ row, Sendable v) :
    RoundTrips cols rows level ↔ WireFits cols rows := by
  constructor
  · intro trip
    obtain ⟨⟨count, names⟩, strings⟩ := trip.short
    obtain ⟨-, rs, received, -⟩ := trip
    rw [recvReply_eq level width sendable count names strings] at received
    split at received
    · rename_i fits
      exact ⟨names, strings, fits.1, fits.2.1, fits.2.2⟩
    · cases received
  · rintro ⟨names, strings, head, batches, total⟩
    have count : cols.length < 2 ^ 32 := by
      have := length_le_headSize cols
      omega
    refine ⟨?_, { cols := cols, rows := rows.map (List.map cellOf) }, ?_, rfl, map_cellBox sendable⟩
    · rw [sendResultStream_eq level sendable]
    · rw [recvReply_eq level width sendable count names strings, if_pos ⟨head, batches, total⟩]

/-- One row with a number and a short text comes back. -/
theorem roundTrips_iff_short : RoundTrips [ascii "a", ascii "b"]
    [[intVal kInt 7, strVal kVarChar (ascii "x")]] .info := by
  have row : ∀ v ∈ [intVal kInt 7, strVal kVarChar (ascii "x")],
      Sendable v ∧ ShortText v.box := by
    intro v mem
    rcases List.mem_cons.mp mem with rfl | mem
    · exact ⟨⟨Or.inr ⟨by decide, rfl, trivial⟩, trivial⟩, by rintro s ⟨⟩⟩
    · rw [List.mem_singleton.mp mem]
      exact ⟨⟨Or.inr ⟨by decide, rfl, trivial⟩, trivial⟩, by rintro s ⟨⟩; decide⟩
  apply (roundTrips_iff (by decide) fun r r_mem => ?_).mpr
  · constructor
    · decide
    · intro r r_mem v v_mem
      rw [List.mem_singleton.mp r_mem] at v_mem
      exact (row v v_mem).2
    · decide
    · decide
    · decide
  · intro v v_mem
    rw [List.mem_singleton.mp r_mem] at v_mem
    exact (row v v_mem).1

/-- A text of 65536 bytes does not come back. -/
theorem not_roundTrips_long :
    ¬ RoundTrips [ascii "a"] [[strVal kVarChar (List.replicate 65536 97)]] .info := by
  intro trip
  have short := trip.short.2 _ List.mem_cons_self _ List.mem_cons_self _ rfl
  rw [List.length_replicate] at short
  exact absurd short (by decide)

end MySimpleDb.Server
