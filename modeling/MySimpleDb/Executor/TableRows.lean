import MySimpleDb.Executor.OperatorRows

/-!
# The rows of a table and its indexes

The live rows of a table file, what makes an index agree with them, and what the
row operations of the catalog do to them.
-/

namespace MySimpleDb.Executor

open MySimpleDb.Lib MySimpleDb.Storage MySimpleDb.Analyzer MySimpleDb.Catalog MySimpleDb.Planner
open MySimpleDb.Storage.HeapFile (Deleted Appended)
open MySimpleDb.Storage.HeapFile.Scanner (rowAt)

/-! ## Tables -/

/-- Page and slot of a row. -/
def slotOf (row : Row) : Nat × Nat :=
  (row.ref.page.pageNo, row.ref.slot)

/-- Page and slot that an index entry points to. -/
def entrySlot (e : BTreeEntry) : Nat × Nat :=
  (e.pageNo.toNat, e.slot.toNat)

/-- The file of a table holds these live rows, in insertion order. -/
structure Table (db : Db) (table : TableMeta) (h : HeapFile) (rows : List Row) : Prop where
  heap : db.heaps table.fileId = some h
  wellFormed : h.WellFormed
  decoded : h.live.mapM (rowAt table.fileId table.cols) = .ok rows

/-- Every live row has exactly one entry, with the key of its value in the indexed
column; the other entries point to dead slots. -/
structure Agrees (table : TableMeta) (h : HeapFile) (rows : List Row) (ent : IndexEntry)
    (f : IndexFile) : Prop where
  one : ∀ row ∈ rows, ∃ col v key e, table.cols[ent.colOrdinal]? = some col ∧
    row.values[ent.colOrdinal]? = some v ∧ encodeKey col.type v = .ok key ∧ e.key = key ∧
    f.entries.filter (fun e => entrySlot e = slotOf row) = [e]
  used : ∀ e ∈ f.entries, h.Used e.pageNo.toNat e.slot.toNat

/-- A table whose indexes agree with its rows. -/
structure TableState (db : Db) (table : TableMeta) (h : HeapFile) (rows : List Row) : Prop
    extends Table db table h rows where
  indexed : ∀ ent ∈ db.tableIndexes table.tableId, ∃ f, db.indexes ent.fileId = some f ∧
    f.Ordered ∧ Agrees table h rows ent f

/-! ## Rows and slots -/

theorem rowAt_eq_ok {fid : Nat} {cols : List ColumnSpec} {entry : (Nat × Nat) × Bytes} {row : Row} :
    rowAt fid cols entry = .ok row ↔
      ∃ values, HeapFile.decodeRecord cols entry.2 = .ok values ∧
        row = { ref := ⟨⟨fid, entry.1.1⟩, entry.1.2⟩, values := values } := by
  constructor
  · intro row_eq
    obtain ⟨values, decoded, row_eq⟩ := Res.bind_eq_ok.mp row_eq
    cases row_eq
    exact ⟨values, decoded, rfl⟩
  · rintro ⟨values, decoded, rfl⟩
    rw [rowAt, decoded]
    rfl

section Decoded

variable {fid : Nat} {cols : List ColumnSpec} {live live' : List ((Nat × Nat) × Bytes)}
  {rows rows' : List Row}

theorem decoded_cons {entry : (Nat × Nat) × Bytes} :
    (entry :: live).mapM (rowAt fid cols) = .ok rows ↔
      ∃ row rows', rowAt fid cols entry = .ok row ∧ live.mapM (rowAt fid cols) = .ok rows' ∧
        rows = row :: rows' := by
  rw [List.mapM_cons]
  constructor
  · intro mapped
    obtain ⟨row, row_eq, mapped⟩ := Res.bind_eq_ok.mp mapped
    obtain ⟨rows', later, mapped⟩ := Res.bind_eq_ok.mp mapped
    cases mapped
    exact ⟨row, rows', row_eq, later, rfl⟩
  · rintro ⟨row, rows', row_eq, later, rfl⟩
    rw [row_eq, Res.bind_ok, later]
    rfl

theorem decoded_append (first : live.mapM (rowAt fid cols) = .ok rows)
    (second : live'.mapM (rowAt fid cols) = .ok rows') :
    (live ++ live').mapM (rowAt fid cols) = .ok (rows ++ rows') := by
  induction live generalizing rows with
  | nil =>
      cases first
      exact second
  | cons entry live inductionHypothesis =>
      obtain ⟨row, rows', row_eq, later, rfl⟩ := decoded_cons.mp first
      rw [List.cons_append]
      exact decoded_cons.mpr ⟨row, _, row_eq, inductionHypothesis later, rfl⟩

theorem decoded_slots (decoded : live.mapM (rowAt fid cols) = .ok rows) :
    rows.map slotOf = live.map Prod.fst ∧ ∀ row ∈ rows, row.ref.page.fileId = fid := by
  induction live generalizing rows with
  | nil =>
      cases decoded
      exact ⟨rfl, by simp⟩
  | cons entry live inductionHypothesis =>
      obtain ⟨row, rows', row_eq, later, rfl⟩ := decoded_cons.mp decoded
      obtain ⟨values, -, rfl⟩ := rowAt_eq_ok.mp row_eq
      obtain ⟨slots, files⟩ := inductionHypothesis later
      exact ⟨by simp [slots, slotOf], by simpa using files⟩

theorem decoded_mem (decoded : live.mapM (rowAt fid cols) = .ok rows) {row : Row} :
    row ∈ rows ↔ ∃ entry ∈ live, rowAt fid cols entry = .ok row := by
  induction live generalizing rows with
  | nil =>
      cases decoded
      simp
  | cons entry live inductionHypothesis =>
      obtain ⟨row', rows', row_eq, later, rfl⟩ := decoded_cons.mp decoded
      rw [List.mem_cons, inductionHypothesis later]
      rw [List.exists_mem_cons_iff, row_eq, Except.ok.injEq, eq_comm]

theorem decoded_filter (decoded : live.mapM (rowAt fid cols) = .ok rows) (keep : Nat × Nat → Bool) :
    (live.filter fun entry => keep entry.1).mapM (rowAt fid cols) =
      .ok (rows.filter fun row => keep (slotOf row)) := by
  induction live generalizing rows with
  | nil =>
      cases decoded
      rfl
  | cons entry live inductionHypothesis =>
      obtain ⟨row, rows', row_eq, later, rfl⟩ := decoded_cons.mp decoded
      have slot : slotOf row = entry.1 := by
        obtain ⟨values, -, rfl⟩ := rowAt_eq_ok.mp row_eq
        rfl
      rw [List.filter_cons, List.filter_cons, slot]
      split
      · exact decoded_cons.mpr ⟨row, _, row_eq, inductionHypothesis later, rfl⟩
      · exact inductionHypothesis later

end Decoded

namespace Table

variable {db db' : Db} {table : TableMeta} {h : HeapFile} {rows : List Row} {row row' : Row}

theorem slots_nodup (state : Table db table h rows) : (rows.map slotOf).Nodup := by
  rw [(decoded_slots state.decoded).1]
  exact state.wellFormed.nodup_live

theorem file_eq (state : Table db table h rows) (mem : row ∈ rows) :
    row.ref.page.fileId = table.fileId :=
  (decoded_slots state.decoded).2 row mem

/-- A row of the table is determined by its slot. -/
theorem ext_slot (state : Table db table h rows) (mem : row ∈ rows) (mem' : row' ∈ rows)
    (same : slotOf row = slotOf row') : row = row' :=
  List.inj_on_of_nodup_map state.slots_nodup mem mem' same

theorem ref_eq_iff (state : Table db table h rows) (mem : row ∈ rows) {ref : RowRef}
    (file : ref.page.fileId = table.fileId) :
    row.ref = ref ↔ slotOf row = (ref.page.pageNo, ref.slot) := by
  constructor
  · rintro rfl
    rfl
  · intro same
    have row_file := state.file_eq mem
    rcases row with ⟨rid, ⟨⟨fid, no⟩, slot⟩, values⟩
    rcases ref with ⟨⟨fid', no'⟩, slot'⟩
    simp only [slotOf, Prod.mk.injEq] at same row_file file ⊢
    obtain ⟨rfl, rfl⟩ := same
    rw [row_file, file]

theorem live_iff (state : Table db table h rows) {no slot : Nat} :
    (∃ rec, ((no, slot), rec) ∈ h.live) ↔ ∃ row ∈ rows, slotOf row = (no, slot) := by
  have slots := (decoded_slots state.decoded).1
  constructor
  · rintro ⟨rec, mem⟩
    have slot_mem : (no, slot) ∈ rows.map slotOf := slots ▸ List.mem_map_of_mem mem
    exact List.mem_map.mp slot_mem
  · rintro ⟨row, mem, same⟩
    have slot_mem : slotOf row ∈ h.live.map Prod.fst := slots ▸ List.mem_map_of_mem mem
    obtain ⟨⟨key, rec⟩, entry_mem, key_eq⟩ := List.mem_map.mp slot_mem
    refine ⟨rec, ?_⟩
    rwa [← same, ← key_eq]

theorem used (state : Table db table h rows) (mem : row ∈ rows) :
    h.Used row.ref.page.pageNo row.ref.slot := by
  obtain ⟨rec, live⟩ := state.live_iff.mpr ⟨row, mem, rfl⟩
  exact HeapFile.used_of_mem_live live

/-- The values of a live row are as many as the columns and stored as they are. -/
theorem stored_values (state : Table db table h rows) (mem : row ∈ rows) :
    row.values.length = table.cols.length ∧
      List.zipWith stored table.cols row.values = row.values := by
  obtain ⟨entry, -, row_eq⟩ := (decoded_mem state.decoded).mp mem
  obtain ⟨values, decoded, rfl⟩ := rowAt_eq_ok.mp row_eq
  obtain ⟨result, decoded, result_eq⟩ := Res.bind_eq_ok.mp decoded
  cases result with
  | none => cases result_eq
  | some values' =>
      cases result_eq
      exact decodeRow_stored decoded

/-- Reading a slot of the table gives its row, if it is live. -/
theorem readRow_eq (state : Table db table h rows) {pageCount : Nat} {ref : RowRef}
    (file : ref.page.fileId = table.fileId)
    (read : h.readRow pageCount ref table.cols = .ok (some row)) : row ∈ rows ∧ row.ref = ref := by
  obtain ⟨-, -, read⟩ := Res.bind_eq_ok.mp read
  obtain ⟨p, found, read⟩ := Res.bind_eq_ok.mp read
  split at read
  · cases read
  · rename_i rec holds
    obtain ⟨values, decoded, read⟩ := Res.bind_eq_ok.mp read
    cases read
    refine ⟨?_, rfl⟩
    unfold HeapFile.readPage at found
    split at found
    · simp [dbCritical] at found
    · rename_i q q_found
      cases found
      obtain ⟨q_mem, no_eq⟩ := state.wellFormed.page?_iff.mp q_found
      apply (decoded_mem state.decoded).mpr
      refine ⟨((ref.page.pageNo, ref.slot), rec), ?_, rowAt_eq_ok.mpr ⟨values, decoded, ?_⟩⟩
      · exact HeapFile.mem_live.mpr ⟨p, q_mem, no_eq, holds⟩
      · rw [← file]

end Table

/-! ## Changing one row -/

/-- Files other than that of the table stay as they are. -/
def Elsewhere (table : TableMeta) (db db' : Db) : Prop :=
  ∀ fid, fid ≠ table.fileId → db'.heaps fid = db.heaps fid

theorem Elsewhere.trans {table : TableMeta} {db db' db'' : Db} (first : Elsewhere table db db')
    (second : Elsewhere table db' db'') : Elsewhere table db db'' :=
  fun fid apart => (second fid apart).trans (first fid apart)

section Changes

variable {db db' : Db} {table : TableMeta} {h : HeapFile} {rows : List Row} {row : Row}
  {disk : DiskPages}

theorem indexInsert_heaps {values : List Value} {ref : RowRef} {ents : List IndexEntry}
    (done : Db.indexInsert table values ref ents db = .ok db') : db'.heaps = db.heaps := by
  induction ents generalizing db with
  | nil =>
      cases done
      rfl
  | cons ent ents inductionHypothesis =>
      rw [Db.indexInsert] at done
      split at done
      · obtain ⟨key, -, done⟩ := Res.bind_eq_ok.mp done
        obtain ⟨f, -, done⟩ := Res.bind_eq_ok.mp done
        have later : db'.heaps = (db.setIndex ent.fileId _).heaps := inductionHypothesis done
        exact later
      · simp [dbCritical] at done

/-- Deleting a row of the table takes it out. -/
theorem deleteRow_table (state : Table db table h rows) (mem : row ∈ rows) {n : Nat}
    (done : db.deleteRow disk row.ref = .ok (db', n)) :
    n = 1 ∧ Elsewhere table db db' ∧
      ∃ h', Table db' table h' (rows.filter fun row' => row'.ref ≠ row.ref) ∧
        ∀ {no slot}, h'.Used no slot ↔ h.Used no slot := by
  have file := state.file_eq mem
  obtain ⟨h₀, found, done⟩ := Res.bind_eq_ok.mp done
  obtain ⟨⟨h', n'⟩, deleted, done⟩ := Res.bind_eq_ok.mp done
  cases done
  rw [file, PlanNode.heap_eq state.heap] at found
  cases found
  rw [file] at deleted ⊢
  rcases HeapFile.deleteRow_spec state.wellFormed deleted with ⟨rfl, -, kept⟩ | ⟨-, -, dead⟩
  · refine ⟨rfl, fun fid apart => Function.update_of_ne apart _ _, h', ⟨?_, kept.wellFormed, ?_⟩,
      kept.used⟩
    · exact Function.update_self _ _ _
    · have filtered := decoded_filter state.decoded fun key =>
        decide (key ≠ (row.ref.page.pageNo, row.ref.slot))
      rw [kept.live, filtered]
      congr 1
      apply List.filter_congr
      intro row' mem'
      rw [decide_eq_decide, not_iff_not]
      exact (state.ref_eq_iff mem' file).symm
  · obtain ⟨rec, live⟩ := state.live_iff.mpr ⟨row, mem, rfl⟩
    exact absurd live (dead rec)

/-- A new row: the values as the columns store them, in a slot never used. -/
structure NewRow (table : TableMeta) (h : HeapFile) (values : List Value) (row : Row) : Prop where
  values : row.values = List.zipWith stored table.cols values
  file : row.ref.page.fileId = table.fileId
  fresh : ¬h.Used row.ref.page.pageNo row.ref.slot

/-- Adding a row puts it behind the others. -/
theorem addRow_table (state : Table db table h rows) {values : List Value}
    {ents : List IndexEntry} {rid : Nat} {ref : RowRef}
    (done : db.addRow disk table values ents = .ok (db', rid, ref)) :
    Elsewhere table db db' ∧ ∃ h' row, Table db' table h' (rows ++ [row]) ∧
      NewRow table h values row ∧ row.ref = ref ∧
      ∀ {no slot}, h.Used no slot → h'.Used no slot := by
  obtain ⟨h₀, found, done⟩ := Res.bind_eq_ok.mp done
  obtain ⟨⟨h', rid', ref'⟩, inserted, done⟩ := Res.bind_eq_ok.mp done
  obtain ⟨db₁, indexed, done⟩ := Res.bind_eq_ok.mp done
  cases done
  rw [PlanNode.heap_eq state.heap] at found
  cases found
  have heaps := indexInsert_heaps indexed
  obtain ⟨rec, encoded, legal, file, appended⟩ := HeapFile.insertRow_spec state.wellFormed inserted
  have short : rec.length < 65538 := by
    simp only [maxRecordLen, pageSize, pageHeaderSize, slotSize] at legal
    omega
  have decoded : rowAt table.fileId table.cols ((ref.page.pageNo, ref.slot), rec) =
      .ok { ref := ref, values := List.zipWith stored table.cols values } := by
    apply rowAt_eq_ok.mpr
    refine ⟨List.zipWith stored table.cols values, ?_, ?_⟩
    · rw [HeapFile.decodeRecord, decodeRow_encodeRow encoded short]
      rfl
    · rw [← file]
  refine ⟨?_, h', { ref := ref, values := List.zipWith stored table.cols values },
    ⟨?_, appended.wellFormed, ?_⟩, ⟨rfl, file, appended.fresh⟩, rfl, ?_⟩
  · intro fid apart
    rw [heaps]
    exact Function.update_of_ne apart _ _
  · rw [heaps]
    exact Function.update_self _ _ _
  · rw [appended.live]
    exact decoded_append state.decoded (decoded_cons.mpr ⟨_, [], decoded, rfl, rfl⟩)
  · exact fun used => appended.used.mpr (Or.inl used)

end Changes

end MySimpleDb.Executor
