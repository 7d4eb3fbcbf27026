import MySimpleDb.Storage.WalFormat

/-!
# Reading the log back

Whatever the chunks, `next` answers what the unconsumed bytes say, so the
records wholly inside a truncated log come back and nothing after them.
-/

namespace MySimpleDb.Storage

open MySimpleDb.Lib

/-! ## What bytes say -/

/-- The fields of a record with a payload of `len` bytes. -/
def recordFields (c : Bytes) (len : Nat) : WalRecord :=
  { lsn := ofBytes ((c.drop 4).take 8)
    txn := ofBytes ((c.drop 12).take 8)
    op := c.getD 20 0
    payload := (c.drop walHeaderSize).take len }

/-- The stored CRC is not the one of the bytes it covers. -/
def crcFails (c : Bytes) (len : Nat) : Prop :=
  (crc32 ((c.drop 4).take 17 ++ (c.drop walHeaderSize).take len)).toNat ≠
    ofBytes ((c.drop 21).take 4)

instance (c : Bytes) (len : Nat) : Decidable (crcFails c len) :=
  inferInstanceAs (Decidable (_ ≠ _))

/-- The record at the front of unconsumed bytes. -/
def parseRecord (c : Bytes) : Option WalRecord :=
  let len := ofBytes (c.take 4)
  if c.length < walHeaderSize ∨ walPayloadMax < len ∨ c.length < walHeaderSize + len then none
  else if crcFails c len then none
  else some (recordFields c len)

namespace WalReader

variable {r : WalReader} {need : Nat}

/-- The bytes of the file that are not consumed. -/
def content (r : WalReader) : Bytes :=
  r.buf ++ r.rest

/-- The end is noticed only at the end. -/
def Sound (r : WalReader) : Prop :=
  r.eof = true → r.rest = []

theorem fill_spec (sound : r.Sound) :
    r.fill.2.content = r.content ∧ r.fill.2.Sound ∧ r.fill.2.validBytes = r.validBytes ∧
      (r.fill.1 = false → r.content = r.buf) := by
  by_cases eof : r.eof = true
  · rw [fill, if_pos eof]
    refine ⟨rfl, sound, rfl, ?_⟩
    intro _
    rw [content, sound eof, List.append_nil]
  · by_cases empty : r.rest = []
    · rw [fill, if_neg eof, if_pos empty]
      refine ⟨rfl, fun _ => empty, rfl, ?_⟩
      intro _
      rw [content, empty, List.append_nil]
    · rw [fill, if_neg eof, if_neg empty]
      refine ⟨?_, ?_, rfl, ?_⟩
      · simp only [content, List.append_assoc, List.take_append_drop]
      · intro ended
        exact absurd ended eof
      · intro absurd_eq
        cases absurd_eq

/-- Filling up succeeds exactly when the file has enough bytes left. -/
theorem fillTo_spec (sound : r.Sound) :
    (r.fillTo need).2.content = r.content ∧ (r.fillTo need).2.Sound ∧
      (r.fillTo need).2.validBytes = r.validBytes ∧
      ((r.fillTo need).1 = true → need ≤ (r.fillTo need).2.buf.length) ∧
      ((r.fillTo need).1 = false → (r.fillTo need).2.content.length < need) := by
  induction r using fillTo.induct need with
  | case1 r short filled inductionHypothesis =>
      obtain ⟨same, sound', bytes, -⟩ := fill_spec sound
      rw [fillTo, if_pos short, dif_pos filled]
      obtain ⟨kept, rest⟩ := inductionHypothesis sound'
      exact ⟨kept.trans same, rest.1, rest.2.1.trans bytes, rest.2.2⟩
  | case2 r short not_filled =>
      obtain ⟨same, sound', bytes, ended⟩ := fill_spec sound
      rw [fillTo, if_pos short, dif_neg not_filled]
      refine ⟨same, sound', bytes, ?_, ?_⟩
      · intro absurd_eq
        cases absurd_eq
      · intro _
        rw [same, ended (Bool.eq_false_iff.mpr not_filled)]
        exact short
  | case3 r enough =>
      rw [fillTo, if_neg enough]
      refine ⟨rfl, sound, rfl, fun _ => not_lt.mp enough, ?_⟩
      intro absurd_eq
      cases absurd_eq

/-- A part of the buffer is that part of the unconsumed bytes. -/
theorem slice_content {off len : Nat} (inside : off + len ≤ r.buf.length) :
    (r.content.drop off).take len = (r.buf.drop off).take len := by
  have split : r.content.drop off = r.buf.drop off ++ r.rest :=
    List.drop_append_of_le_length (by omega)
  rw [split]
  apply List.take_append_of_le_length
  rw [List.length_drop]
  omega

theorem getD_content {i : Nat} (inside : i < r.buf.length) :
    r.content.getD i 0 = r.buf.getD i 0 := by
  simp [content, List.getElem?_append_left inside]

theorem recordFields_content {len : Nat} (whole : walHeaderSize + len ≤ r.buf.length) :
    recordFields r.buf len = recordFields r.content len := by
  have head : 25 + len ≤ r.buf.length := whole
  have lsn := @slice_content r 4 8 (by omega)
  have txn := @slice_content r 12 8 (by omega)
  rw [recordFields, recordFields, lsn, txn, slice_content whole, getD_content (by omega)]

theorem crcFails_content {len : Nat} (whole : walHeaderSize + len ≤ r.buf.length) :
    crcFails r.buf len ↔ crcFails r.content len := by
  have head : 25 + len ≤ r.buf.length := whole
  have covered := @slice_content r 4 17 (by omega)
  have stored := @slice_content r 21 4 (by omega)
  rw [crcFails, crcFails, covered, stored, slice_content whole]

/-- `next` answers with the record at the front of what is not consumed, and
consumes it. -/
theorem next_spec (sound : r.Sound) :
    r.next.1 = parseRecord r.content ∧ r.next.2.Sound ∧
      match parseRecord r.content with
      | none => r.next.2.content = r.content ∧ r.next.2.validBytes = r.validBytes
      | some rec =>
          r.next.2.content = r.content.drop (walHeaderSize + rec.payload.length) ∧
          r.next.2.validBytes = r.validBytes + (walHeaderSize + rec.payload.length) := by
  obtain ⟨head_same, head_sound, head_bytes, head_full, head_short⟩ :=
    @fillTo_spec r walHeaderSize sound
  rw [next]
  rcases head : r.fillTo walHeaderSize with ⟨_ | _, r₁⟩
  · rw [head] at head_same head_sound head_bytes head_short
    have short : r.content.length < walHeaderSize := head_same ▸ head_short rfl
    have nothing : parseRecord r.content = none := if_pos (Or.inl short)
    rw [nothing]
    exact ⟨rfl, head_sound, head_same, head_bytes⟩
  · rw [head] at head_same head_sound head_bytes head_full
    dsimp only at head_same head_sound head_bytes head_full ⊢
    have full : walHeaderSize ≤ r₁.buf.length := head_full rfl
    have long : walHeaderSize ≤ r.content.length := by
      rw [← head_same, content, List.length_append]
      omega
    have len_eq : ofBytes (r₁.buf.take 4) = ofBytes (r.content.take 4) := by
      have four : 0 + 4 ≤ r₁.buf.length := le_trans (by decide) full
      have slice := slice_content four
      rw [head_same, List.drop_zero, List.drop_zero] at slice
      rw [slice]
    rw [len_eq]
    by_cases big : walPayloadMax < ofBytes (r.content.take 4)
    · have nothing : parseRecord r.content = none := if_pos (Or.inr (Or.inl big))
      rw [nothing, if_pos big]
      exact ⟨rfl, head_sound, head_same, head_bytes⟩
    · rw [if_neg big]
      obtain ⟨same, sound', bytes, body_full, body_short⟩ :=
        @fillTo_spec r₁ (walHeaderSize + ofBytes (r.content.take 4)) head_sound
      rcases body : r₁.fillTo (walHeaderSize + ofBytes (r.content.take 4)) with ⟨_ | _, r₂⟩
      · rw [body] at same sound' bytes body_short
        dsimp only at same sound' bytes body_short ⊢
        have short := body_short rfl
        rw [same, head_same] at short
        have nothing : parseRecord r.content = none := if_pos (Or.inr (Or.inr short))
        rw [nothing]
        exact ⟨rfl, sound', same.trans head_same, bytes.trans head_bytes⟩
      · rw [body] at same sound' bytes body_full
        dsimp only at same sound' bytes body_full ⊢
        have whole := body_full rfl
        have content_eq := same.trans head_same
        have enough : walHeaderSize + ofBytes (r.content.take 4) ≤ r.content.length := by
          have length := congrArg List.length content_eq
          rw [content, List.length_append] at length
          omega
        have parsed : parseRecord r.content =
            if crcFails r.content (ofBytes (r.content.take 4)) then none
            else some (recordFields r.content (ofBytes (r.content.take 4))) := by
          apply if_neg
          rintro (short | past | short) <;> omega
        generalize ofBytes (r.content.take 4) = len at whole parsed enough ⊢
        have crc_iff := crcFails_content whole
        have fields := recordFields_content whole
        rw [content_eq] at crc_iff fields
        by_cases fails : crcFails r.content len
        · have code_fails := crc_iff.mpr fails
          unfold crcFails at code_fails
          rw [parsed, if_pos fails, if_pos code_fails]
          exact ⟨rfl, sound', content_eq, bytes.trans head_bytes⟩
        · have code_holds := mt crc_iff.mp fails
          unfold crcFails at code_holds
          rw [parsed, if_neg fails, if_neg code_holds]
          have length : (recordFields r.content len).payload.length = len := by
            rw [recordFields, List.length_take, List.length_drop]
            omega
          refine ⟨congrArg some fields, sound', ?_, ?_⟩
          · rw [length, ← content_eq]
            exact (List.drop_append_of_le_length whole).symm
          · rw [length, bytes, head_bytes]

end WalReader

/-! ## Records and their bytes -/

namespace WalRecord

/-- The fields are in the range of their types, and the payload within the limit. -/
def InRange (r : WalRecord) : Prop :=
  r.lsn < 2 ^ 64 ∧ r.txn < 2 ^ 64 ∧ r.payload.length ≤ walPayloadMax

variable {r : WalRecord}

/-- The parts of a record in front of other bytes. -/
theorem bytes_append (more : Bytes) :
    r.bytes ++ more = toBytes 4 r.payload.length ++ (toBytes 8 r.lsn ++ (toBytes 8 r.txn ++
      ([r.op] ++ (toBytes 4 (crc32 r.crcSource).toNat ++ (r.payload ++ more))))) := by
  simp only [bytes, List.append_assoc]

theorem len_slice (more : Bytes) : (r.bytes ++ more).take 4 = toBytes 4 r.payload.length := by
  rw [bytes_append]
  exact @slice_middle [] _ _ 0 4 rfl (length_toBytes _ _)

theorem fields_slice (more : Bytes) :
    ((r.bytes ++ more).drop 4).take 8 = toBytes 8 r.lsn ∧
      ((r.bytes ++ more).drop 12).take 8 = toBytes 8 r.txn ∧
      ((r.bytes ++ more).drop 20).take 1 = [r.op] ∧
      ((r.bytes ++ more).drop 21).take 4 = toBytes 4 (crc32 r.crcSource).toNat ∧
      ((r.bytes ++ more).drop 25).take r.payload.length = r.payload := by
  rw [bytes_append]
  refine ⟨?_, ?_, ?_, ?_, ?_⟩
  · exact slice_middle _ (length_toBytes _ _) (length_toBytes _ _)
  · rw [← List.append_assoc]
    apply slice_middle <;> simp
  · rw [← List.append_assoc, ← List.append_assoc]
    apply slice_middle <;> simp
  · rw [← List.append_assoc, ← List.append_assoc, ← List.append_assoc]
    apply slice_middle <;> simp
  · rw [← List.append_assoc, ← List.append_assoc, ← List.append_assoc, ← List.append_assoc]
    apply slice_middle <;> simp

theorem covered_slice (more : Bytes) :
    ((r.bytes ++ more).drop 4).take 17 = toBytes 8 r.lsn ++ toBytes 8 r.txn ++ [r.op] := by
  have parts : r.bytes ++ more = toBytes 4 r.payload.length ++
      ((toBytes 8 r.lsn ++ toBytes 8 r.txn ++ [r.op]) ++
        (toBytes 4 (crc32 r.crcSource).toNat ++ (r.payload ++ more))) := by
    rw [bytes_append]
    simp only [List.append_assoc]
  rw [parts]
  apply slice_middle <;> simp

/-- A whole record is read back field for field. -/
theorem parseRecord_bytes (inRange : r.InRange) (more : Bytes) :
    parseRecord (r.bytes ++ more) = some r := by
  obtain ⟨lsn_lt, txn_lt, payload_le⟩ := inRange
  obtain ⟨lsn, txn, op, crc, payload⟩ := @fields_slice r more
  have len_eq : ofBytes ((r.bytes ++ more).take 4) = r.payload.length := by
    rw [len_slice, ofBytes_toBytes_of_lt]
    exact lt_of_le_of_lt payload_le (by decide)
  have long : walHeaderSize + r.payload.length ≤ (r.bytes ++ more).length := by
    rw [List.length_append, length_bytes]
    omega
  have op_eq : (r.bytes ++ more).getD 20 0 = r.op := by
    have head := congrArg (fun l : Bytes => l.getD 0 0) op
    simpa using head
  have crc_holds : ¬ crcFails (r.bytes ++ more) r.payload.length := by
    have payload' : ((r.bytes ++ more).drop walHeaderSize).take r.payload.length = r.payload :=
      payload
    rw [crcFails, covered_slice, payload', crc, not_not, ofBytes_toBytes_of_lt]
    · rfl
    · exact UInt32.toNat_lt _
  have fields : recordFields (r.bytes ++ more) r.payload.length = r := by
    have payload' : ((r.bytes ++ more).drop walHeaderSize).take r.payload.length = r.payload :=
      payload
    rw [recordFields, lsn, txn, op_eq, payload', ofBytes_toBytes_of_lt lsn_lt,
      ofBytes_toBytes_of_lt txn_lt]
  rw [parseRecord, len_eq, if_neg (by omega), if_neg crc_holds, fields]

/-- A record cut anywhere is none. -/
theorem parseRecord_torn (inRange : r.InRange) {k : Nat} (torn : k < r.bytes.length) :
    parseRecord (r.bytes.take k) = none := by
  have length : (r.bytes.take k).length = k := by
    rw [List.length_take]
    omega
  apply if_pos
  by_cases short : k < walHeaderSize
  · left
    rwa [length]
  · right
    right
    have four : (r.bytes.take k).take 4 = toBytes 4 r.payload.length := by
      have whole := @len_slice r []
      rw [List.append_nil] at whole
      rw [List.take_take, min_eq_left (le_trans (by decide) (not_lt.mp short)), whole]
    rw [length_bytes] at torn
    rw [length, four, ofBytes_toBytes_of_lt (lt_of_le_of_lt inRange.2.2 (by decide))]
    exact torn

/-- A field taken from bytes and laid out again. -/
theorem toBytes_field {c : Bytes} {off width : Nat} (inside : off + width ≤ c.length) :
    toBytes width (ofBytes ((c.drop off).take width)) = (c.drop off).take width := by
  have length : ((c.drop off).take width).length = width := by
    rw [List.length_take, List.length_drop]
    omega
  have back := toBytes_ofBytes ((c.drop off).take width)
  rwa [length] at back

/-- A record that is read is what the bytes consumed lay out, its CRC included. -/
theorem bytes_of_parseRecord {c : Bytes} (parsed : parseRecord c = some r) :
    c = r.bytes ++ c.drop (walHeaderSize + r.payload.length) := by
  rw [parseRecord] at parsed
  split at parsed
  · cases parsed
  · rename_i whole
    split at parsed
    · cases parsed
    · rename_i crc_holds
      obtain rfl := Option.some.inj parsed
      generalize len_eq : ofBytes (c.take 4) = len at *
      have enough : 25 + len ≤ c.length := by
        have : ¬ c.length < walHeaderSize + len := fun short => whole (Or.inr (Or.inr short))
        exact not_lt.mp this
      have length : (recordFields c len).payload.length = len := by
        have : ((c.drop 25).take len).length = len := by
          rw [List.length_take, List.length_drop]
          omega
        exact this
      have len_field := @toBytes_field c 0 4 (by omega)
      have lsn_field := @toBytes_field c 4 8 (by omega)
      have txn_field := @toBytes_field c 12 8 (by omega)
      have crc_field := @toBytes_field c 21 4 (by omega)
      have op_field : (c.drop 20).take 1 = [c.getD 20 0] := by
        have inside : 20 < c.length := by omega
        have head : c.getD 20 0 = c.get ⟨20, inside⟩ := by simp [inside]
        rw [List.drop_eq_getElem_cons inside, head]
        rfl
      have covered : (c.drop 4).take 17 =
          (c.drop 4).take 8 ++ (c.drop 12).take 8 ++ (c.drop 20).take 1 := by
        rw [slice_add c 4 16 1, slice_add c 4 8 8]
      have source : (recordFields c len).crcSource = (c.drop 4).take 17 ++ (c.drop 25).take len := by
        rw [covered, op_field, ← lsn_field, ← txn_field]
        rfl
      have crc_eq : ofBytes ((c.drop 21).take 4) = (crc32 (recordFields c len).crcSource).toNat := by
        rw [source]
        exact (not_not.mp crc_holds).symm
      rw [List.drop_zero, len_eq] at len_field
      rw [length, WalRecord.bytes_append, length, ← crc_eq, crc_field, len_field]
      change c = (c.drop 0).take 4 ++ (toBytes 8 (ofBytes ((c.drop 4).take 8)) ++
        (toBytes 8 (ofBytes ((c.drop 12).take 8)) ++ ([c.getD 20 0] ++
          ((c.drop 21).take 4 ++ ((c.drop 25).take len ++ c.drop (25 + len))))))
      rw [lsn_field, txn_field, ← op_field, ← drop_eq_slice_append, ← drop_eq_slice_append c 21 4,
        ← drop_eq_slice_append c 20 1, ← drop_eq_slice_append c 12 8, ← drop_eq_slice_append c 4 8,
        ← drop_eq_slice_append c 0 4, List.drop_zero]

end WalRecord

/-! ## Whole logs -/

/-- The records that a sequence of appends writes. -/
def writtenRecords : Nat → List (UInt8 × Nat × Bytes) → List WalRecord
  | _, [] => []
  | lsn, (op, txn, payload) :: later =>
      ⟨lsn, txn, op, payload⟩ :: writtenRecords ((lsn + 1) % 2 ^ 64) later

/-- A sequence of appends. -/
def appendAll (appends : List (UInt8 × Nat × Bytes)) (w : WalFile) : WalFile :=
  appends.foldl (fun w a => w.append a.1 a.2.1 a.2.2) w

theorem appendAll_bytes (appends : List (UInt8 × Nat × Bytes)) (w : WalFile) :
    (appendAll appends w).bytes =
      w.bytes ++ (writtenRecords w.nextLsn appends).flatMap WalRecord.bytes := by
  induction appends generalizing w with
  | nil => simp [appendAll, writtenRecords]
  | cons a appends inductionHypothesis =>
      rw [appendAll, List.foldl_cons, ← appendAll, inductionHypothesis]
      simp only [WalFile.append, writtenRecords, List.flatMap_cons, List.append_assoc]

theorem writtenRecords_inRange {appends : List (UInt8 × Nat × Bytes)} {lsn : Nat}
    (lsn_lt : lsn < 2 ^ 64)
    (allowed : ∀ a ∈ appends, a.2.1 < 2 ^ 64 ∧ a.2.2.length ≤ walPayloadMax) :
    ∀ r ∈ writtenRecords lsn appends, r.InRange := by
  induction appends generalizing lsn with
  | nil =>
      intro r mem
      cases mem
  | cons a appends inductionHypothesis =>
      intro r mem
      obtain ⟨op, txn, payload⟩ := a
      obtain ⟨txn_lt, payload_le⟩ := allowed _ List.mem_cons_self
      rcases List.mem_cons.mp mem with rfl | mem
      · exact ⟨lsn_lt, txn_lt, payload_le⟩
      · exact inductionHypothesis (Nat.mod_lt _ (by decide))
          (fun a mem => allowed a (List.mem_cons_of_mem _ mem)) r mem

/-- The records that lie wholly in the first `k` bytes. -/
def intactRecords : List WalRecord → Nat → List WalRecord
  | [], _ => []
  | r :: rs, k =>
      if r.bytes.length ≤ k then r :: intactRecords rs (k - r.bytes.length) else []

namespace WalReader

variable {r : WalReader}

/-- A reader of a truncated log gives the intact records and then nothing. -/
theorem nexts_intact {rs : List WalRecord} {k : Nat} (sound : r.Sound)
    (inRange : ∀ rec ∈ rs, rec.InRange) (content_eq : r.content = (rs.flatMap WalRecord.bytes).take k)
    (n : Nat) :
    (r.nexts n).1 = (List.range n).map (fun i => (intactRecords rs k)[i]?) ∧
      (r.nexts n).2.validBytes =
        r.validBytes + (((intactRecords rs k).take n).map fun rec => rec.bytes.length).sum := by
  induction n generalizing r rs k with
  | zero => simp [nexts]
  | succ n inductionHypothesis =>
      obtain ⟨answer, sound', after⟩ := next_spec sound
      have nothing : parseRecord r.content = none → intactRecords rs k = [] →
          (r.nexts (n + 1)).1 =
              (List.range (n + 1)).map (fun i => (intactRecords rs k)[i]?) ∧
            (r.nexts (n + 1)).2.validBytes = r.validBytes +
              (((intactRecords rs k).take (n + 1)).map fun rec => rec.bytes.length).sum := by
        intro none_left none_intact
        rw [none_left] at answer after
        obtain ⟨same, bytes⟩ := after
        obtain ⟨answers, total⟩ := inductionHypothesis sound' inRange (same.trans content_eq)
        rw [none_intact] at answers total ⊢
        constructor
        · simp [nexts, answer, answers, List.range_succ_eq_map, Function.comp_def]
        · simp [nexts, total, bytes]
      cases rs with
      | nil =>
          apply nothing
          · rw [content_eq, List.flatMap_nil, List.take_nil]
            decide +kernel
          · rfl
      | cons rec rs =>
          have rec_inRange := inRange rec List.mem_cons_self
          rw [List.flatMap_cons] at content_eq
          by_cases whole : rec.bytes.length ≤ k
          · have front : r.content = rec.bytes ++
                (rs.flatMap WalRecord.bytes).take (k - rec.bytes.length) := by
              rw [content_eq, List.take_append, List.take_of_length_le whole]
            have parsed : parseRecord r.content = some rec := by
              rw [front]
              exact WalRecord.parseRecord_bytes rec_inRange _
            rw [parsed] at answer after
            obtain ⟨left, bytes⟩ := after
            have left_eq : r.next.2.content =
                (rs.flatMap WalRecord.bytes).take (k - rec.bytes.length) := by
              rw [left, front, ← WalRecord.length_bytes]
              exact List.drop_left
            obtain ⟨answers, total⟩ := inductionHypothesis sound'
              (fun rec mem => inRange rec (List.mem_cons_of_mem _ mem)) left_eq
            rw [intactRecords, if_pos whole]
            constructor
            · simp [nexts, answer, answers, List.range_succ_eq_map]
            · simp only [nexts, total, bytes, List.take_succ_cons, List.map_cons, List.sum_cons,
                ← WalRecord.length_bytes]
              omega
          · apply nothing
            · rw [content_eq, List.take_append_of_le_length (by omega)]
              exact WalRecord.parseRecord_torn rec_inRange (by omega)
            · exact if_neg whole

theorem nexts_sound (sound : r.Sound) (n : Nat) : (r.nexts n).2.Sound := by
  induction n generalizing r with
  | zero => exact sound
  | succ n inductionHypothesis => exact inductionHypothesis (next_spec sound).2.1

end WalReader

open WalReader in
/-- A truncated log is read back as its intact records and then nothing, whatever
the chunks; of any file a record that is read has the CRC stored with it, and a
call that answers nothing is followed by others that do. -/
theorem wal_reads_intact :
    (∀ (appends : List (UInt8 × Nat × Bytes)) (firstLsn : Nat), firstLsn < 2 ^ 64 →
      (∀ a ∈ appends, a.2.1 < 2 ^ 64 ∧ a.2.2.length ≤ walPayloadMax) →
      ∀ (k : Nat) (sizes : Nat → Nat) (n : Nat),
        ((create ((appendAll appends { nextLsn := firstLsn }).bytes.take k) sizes).nexts n).1 =
            (List.range n).map (fun i =>
              (intactRecords (writtenRecords firstLsn appends) k)[i]?) ∧
          ((create ((appendAll appends { nextLsn := firstLsn }).bytes.take k) sizes).nexts
              n).2.validBytes =
            (((intactRecords (writtenRecords firstLsn appends) k).take n).map
              fun r => r.bytes.length).sum) ∧
    (∀ (file : Bytes) (sizes : Nat → Nat) (n : Nat) (r : WalRecord),
      ((create file sizes).nexts n).2.next.1 = some r →
        ((create file sizes).nexts n).2.content =
            r.bytes ++ ((create file sizes).nexts n).2.next.2.content ∧
          ofBytes ((((create file sizes).nexts n).2.content.drop 21).take 4) =
            (crc32 r.crcSource).toNat) ∧
    ∀ (file : Bytes) (sizes : Nat → Nat) (n : Nat),
      ((create file sizes).nexts n).2.next.1 = none →
        ((create file sizes).nexts n).2.next.2.next.1 = none := by
  have start : ∀ file sizes, (create file sizes).Sound := by
    intro file sizes ended
    cases ended
  refine ⟨?_, ?_, ?_⟩
  · intro appends firstLsn lsn_lt allowed k sizes n
    have content_eq : (create ((appendAll appends { nextLsn := firstLsn }).bytes.take k) sizes).content
        = ((writtenRecords firstLsn appends).flatMap WalRecord.bytes).take k := by
      rw [appendAll_bytes]
      rfl
    obtain ⟨answers, total⟩ :=
      nexts_intact (start _ sizes) (writtenRecords_inRange lsn_lt allowed) content_eq n
    refine ⟨answers, total.trans ?_⟩
    exact Nat.zero_add _
  · intro file sizes n r answered
    obtain ⟨answer, -, after⟩ := next_spec (nexts_sound (start file sizes) n)
    have parsed := answer.symm.trans answered
    rw [parsed] at after
    have front := WalRecord.bytes_of_parseRecord parsed
    rw [after.1]
    refine ⟨front, ?_⟩
    rw [front, (WalRecord.fields_slice _).2.2.2.1, ofBytes_toBytes_of_lt]
    exact UInt32.toNat_lt _
  · intro file sizes n nothing
    have sound := nexts_sound (start file sizes) n
    obtain ⟨answer, sound', after⟩ := next_spec sound
    rw [nothing] at answer
    rw [← answer] at after
    rw [(next_spec sound').1, after.1, ← answer]

open WalReader in
/-- Two records cut in the second, read four bytes at a time. -/
theorem wal_reads_intact_cut :
    ((create ((appendAll [(3, 7, []), (4, 8, [])] { nextLsn := 1 }).bytes.take 30)
        fun _ => 4).nexts 3).1 = [some ⟨1, 7, 3, []⟩, none, none] := by
  have read := (wal_reads_intact.1 [(3, 7, []), (4, 8, [])] 1 (by decide) (by decide) 30
    (fun _ => 4) 3).1
  have intact : intactRecords (writtenRecords 1 [(3, 7, []), (4, 8, [])]) 30 = [⟨1, 7, 3, []⟩] := by
    decide +kernel
  rw [intact] at read
  exact read

end MySimpleDb.Storage
