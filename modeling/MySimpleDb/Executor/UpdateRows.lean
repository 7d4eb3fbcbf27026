import MySimpleDb.Executor.Execute
import MySimpleDb.Executor.TableRows

/-!
# What DELETE and UPDATE do to a table

The child of both statements picks live rows and no row twice.  They take these
rows out; UPDATE adds one row for each, computed from the old one.
-/

namespace MySimpleDb.Executor

open MySimpleDb.Lib MySimpleDb.Storage MySimpleDb.Analyzer MySimpleDb.Expr MySimpleDb.Catalog
open MySimpleDb.Planner
open MySimpleDb.Planner.PlanNode (rowsOf entriesIn entryRow fetchRow filterRow heap_eq)

/-! ## The rows picked -/

/-- The ways a statement scans the table it changes. -/
inductive Selects (db : Db) (table : TableMeta) : PlanNode → Prop
  | seqScan : Selects db table (.seqScan table)
  | empty : Selects db table .empty
  | fetch {ent : IndexEntry} {ranges : List IndexRange}
      (index : ent ∈ db.tableIndexes table.tableId)
      (disjoint : ranges.Pairwise fun r r' => ∀ key, ¬(r.Mem key ∧ r'.Mem key)) :
      Selects db table (.fetch table (.indexScan table ent.fileId ranges))
  | filter {child : PlanNode} {pred : BoundExpr} (source : Selects db table child) :
      Selects db table (.filter child pred)

/-- What the child gives before the statement: live rows, and no row twice. -/
structure Chosen (disk : DiskPages) (db : Db) (child : PlanNode) (rows chosen : List Row) :
    Prop where
  pulled : ∃ s, child.opened disk db = .ok s ∧ Pull.Yields (child.next disk db) s chosen
  live : ∀ row ∈ chosen, row ∈ rows
  distinct : (chosen.map Row.ref).Nodup

section Selection

variable {db : Db} {table : TableMeta} {h : HeapFile} {rows chosen : List Row} {disk : DiskPages}
  {child : PlanNode}

theorem Selects.ready (selects : Selects db table child) (state : TableState db table h rows) :
    child.Ready db := by
  induction selects with
  | seqScan => exact ⟨h, state.heap, state.wellFormed⟩
  | empty => trivial
  | fetch index disjoint =>
      obtain ⟨f, found, ordered, -⟩ := state.indexed _ index
      exact ⟨f, found, ordered⟩
  | filter source inductionHypothesis => exact inductionHypothesis

/-- Disjoint ranges hold no entry twice. -/
theorem entriesIn_nodup {f : IndexFile} (ordered : f.Ordered) {ranges : List IndexRange}
    (disjoint : ranges.Pairwise fun r r' => ∀ key, ¬(r.Mem key ∧ r'.Mem key)) :
    (entriesIn f ranges).Nodup := by
  have sorted : f.entries.Pairwise (· < ·) := ordered.ordered.sorted
  rw [entriesIn, List.nodup_flatMap]
  constructor
  · intro r _
    exact (sorted.imp fun lt => ne_of_lt lt).filter _
  · refine disjoint.imp fun apart => ?_
    intro e mem mem'
    apply apart e.key
    rw [List.mem_filter, decide_eq_true_eq] at mem mem'
    exact ⟨mem.2, mem'.2⟩

/-- A row that is fetched is a live row of the table at the entry's slot. -/
theorem fetchRow_mem (state : Table db table h rows) {e : BTreeEntry} {row : Row}
    (fetched : fetchRow db disk table.cols (entryRow table.fileId e) = .ok (some row)) :
    row ∈ rows ∧ row.ref = (entryRow table.fileId e).ref := by
  obtain ⟨h', found, read⟩ := Res.bind_eq_ok.mp fetched
  have heap : db.heap (entryRow table.fileId e).ref.page.fileId = .ok h := heap_eq state.heap
  rw [heap] at found
  cases found
  exact state.readRow_eq rfl read

theorem toOption_join_eq_some {α : Type} {x : Res (Option α)} {a : α}
    (some_eq : x.toOption.join = some a) : x = .ok (some a) := by
  cases x with
  | error e => cases some_eq
  | ok result =>
      cases result with
      | none => cases some_eq
      | some b =>
          cases some_eq
          rfl

/-- Live rows come from the entries that point to them, one from each. -/
theorem fetch_distinct (state : Table db table h rows) {ent : IndexEntry} {f : IndexFile}
    (agrees : Agrees table h rows ent f) {es : List BTreeEntry} (nodup : es.Nodup)
    (inside : ∀ e ∈ es, e ∈ f.entries)
    (kept : Pull.keep (fetchRow db disk table.cols) (es.map (entryRow table.fileId)) = .ok chosen) :
    (∀ row ∈ chosen, row ∈ rows) ∧ (chosen.map Row.ref).Nodup := by
  have chosen_eq := Pull.keep_eq_filterMap kept
  rw [List.filterMap_map] at chosen_eq
  constructor
  · intro row mem
    rw [chosen_eq] at mem
    obtain ⟨e, -, given⟩ := List.mem_filterMap.mp mem
    exact (fetchRow_mem state (toOption_join_eq_some given)).1
  · rw [chosen_eq, List.Nodup, List.pairwise_map, List.pairwise_filterMap]
    apply List.Pairwise.imp_of_mem _ nodup
    intro e e' mem mem' apart row given row' given' same
    obtain ⟨row_mem, row_ref⟩ := fetchRow_mem state (toOption_join_eq_some given)
    obtain ⟨-, row_ref'⟩ := fetchRow_mem state (toOption_join_eq_some given')
    obtain ⟨-, -, -, only, -, -, -, -, filtered⟩ := agrees.one row row_mem
    have at_slot : ∀ e ∈ f.entries, row.ref = (entryRow table.fileId e).ref → e = only := by
      intro e e_mem ref_eq
      have slot_eq : entrySlot e = slotOf row := by
        rw [slotOf, ref_eq]
        rfl
      have mem : e ∈ f.entries.filter fun e => entrySlot e = slotOf row :=
        List.mem_filter.mpr ⟨e_mem, by simpa using slot_eq⟩
      rw [filtered] at mem
      exact List.mem_singleton.mp mem
    apply apart
    rw [at_slot e (inside e mem) row_ref, at_slot e' (inside e' mem') (same.trans row_ref')]

theorem Selects.picks (selects : Selects db table child) (state : TableState db table h rows)
    (rows_eq : rowsOf disk db child = .ok chosen) :
    (∀ row ∈ chosen, row ∈ rows) ∧ (chosen.map Row.ref).Nodup := by
  induction selects generalizing chosen with
  | seqScan =>
      rw [rowsOf, heap_eq state.heap, Res.bind_ok, state.decoded] at rows_eq
      cases rows_eq
      refine ⟨fun row mem => mem, ?_⟩
      apply List.Nodup.of_map fun ref : RowRef => (ref.page.pageNo, ref.slot)
      rw [List.map_map]
      exact state.slots_nodup
  | empty =>
      cases rows_eq
      exact ⟨by simp, List.nodup_nil⟩
  | fetch index disjoint =>
      obtain ⟨f, found, ordered, agrees⟩ := state.indexed _ index
      obtain ⟨located, located_eq, kept⟩ := Res.bind_eq_ok.mp rows_eq
      rw [rowsOf, PlanNode.index_eq found] at located_eq
      cases located_eq
      apply fetch_distinct state.toTable agrees (entriesIn_nodup ordered disjoint) _ kept
      intro e mem
      obtain ⟨r, -, mem⟩ := List.mem_flatMap.mp mem
      exact (List.mem_filter.mp mem).1
  | @filter child pred source inductionHypothesis =>
      obtain ⟨rows', child_eq, kept⟩ := Res.bind_eq_ok.mp rows_eq
      obtain ⟨live, distinct⟩ := inductionHypothesis child_eq
      have kept_eq := Pull.keep_eq_filterMap kept
      have same : ∀ row row', (filterRow pred row).toOption.join = some row' → row' = row := by
        intro row row' given
        obtain ⟨holds, -, given⟩ := Res.bind_eq_ok.mp (toOption_join_eq_some given)
        cases holds
        · cases given
        · cases given
          rfl
      constructor
      · intro row mem
        rw [kept_eq] at mem
        obtain ⟨row', mem', given⟩ := List.mem_filterMap.mp mem
        rw [same row' row given]
        exact live row' mem'
      · rw [kept_eq, List.Nodup, List.pairwise_map, List.pairwise_filterMap]
        rw [List.Nodup, List.pairwise_map] at distinct
        refine distinct.imp fun apart => ?_
        intro row given row' given'
        rwa [same _ row given, same _ row' given']

/-- What is pulled from the child is chosen from the live rows. -/
theorem Selects.pullAll (selects : Selects db table child) (state : TableState db table h rows)
    (pulled : child.pullAll disk db = .ok chosen) : Chosen disk db child rows chosen := by
  have ready := selects.ready state
  have rows_eq := (PlanNode.pullAll_iff ready).mp pulled
  obtain ⟨live, distinct⟩ := selects.picks state rows_eq
  exact ⟨(PlanNode.opened_yields_iff ready).mpr rows_eq, live, distinct⟩

end Selection

/-! ## Taking rows out and adding rows -/

section Loops

variable {db db' : Db} {table : TableMeta} {h : HeapFile} {rows : List Row}
  {disk : Nat → DiskPages}

/-- Rows that are picked by location. -/
def Picked (rows : List Row) (refs : List RowRef) : Prop :=
  refs.Nodup ∧ ∀ ref ∈ refs, ∃ row ∈ rows, row.ref = ref

theorem Picked.tail {ref : RowRef} {refs : List RowRef} (picked : Picked rows (ref :: refs)) :
    Picked (rows.filter fun row => row.ref ≠ ref) refs := by
  obtain ⟨nodup, found⟩ := picked
  rw [List.nodup_cons] at nodup
  refine ⟨nodup.2, fun ref' mem => ?_⟩
  obtain ⟨row, row_mem, rfl⟩ := found ref' (List.mem_cons_of_mem _ mem)
  refine ⟨row, List.mem_filter.mpr ⟨row_mem, ?_⟩, rfl⟩
  rw [decide_eq_true_eq]
  rintro rfl
  exact nodup.1 mem

theorem filter_cons_refs (rows : List Row) (ref : RowRef) (refs : List RowRef) :
    (rows.filter fun row => row.ref ≠ ref).filter (fun row => row.ref ∉ refs) =
      rows.filter fun row => row.ref ∉ ref :: refs := by
  rw [List.filter_filter]
  apply List.filter_congr
  intro row _
  simp [not_or, Bool.and_comm]

theorem deleteByRef_eq_ok {disk : DiskPages} {ref : RowRef} {n : Nat}
    (done : db.deleteByRef disk ref = .ok (db', n)) : db.deleteRow disk ref = .ok (db', n) := by
  unfold Db.deleteByRef at done
  split at done
  · simp at done
  · split at done
    · simp at done
    · exact done

/-- The loop of DELETE takes out every row picked. -/
theorem deleteLoop_table {refs : List RowRef} {i count : Nat} (state : Table db table h rows)
    (picked : Picked rows refs) (done : deleteLoop disk i refs db = .ok (db', count)) :
    count = refs.length ∧ Elsewhere table db db' ∧
      ∃ h', Table db' table h' (rows.filter fun row => row.ref ∉ refs) := by
  induction refs generalizing db h rows i count with
  | nil =>
      cases done
      exact ⟨rfl, fun _ _ => rfl, h, by simpa using state⟩
  | cons ref refs inductionHypothesis =>
      obtain ⟨⟨db₁, n⟩, deleted, done⟩ := Res.bind_eq_ok.mp done
      obtain ⟨⟨db₂, later⟩, rest, done⟩ := Res.bind_eq_ok.mp done
      cases done
      obtain ⟨row, row_mem, rfl⟩ := picked.2 ref (List.mem_cons_self ..)
      obtain ⟨rfl, elsewhere, h₁, state₁, -⟩ :=
        deleteRow_table state row_mem (deleteByRef_eq_ok deleted)
      obtain ⟨rfl, elsewhere', h', state'⟩ := inductionHypothesis state₁ picked.tail rest
      rw [filter_cons_refs] at state'
      exact ⟨Nat.add_comm 1 _, elsewhere.trans elsewhere', h', state'⟩

/-- One turn of the loop of UPDATE. -/
theorem updateRow_table {disk : DiskPages} {ents : List IndexEntry} {r : RowUpdate}
    (state : Table db table h rows) (found : ∃ row ∈ rows, row.ref = r.ref)
    (done : db.updateRow disk table ents r = .ok db') :
    Elsewhere table db db' ∧ ∃ h' row,
      Table db' table h' ((rows.filter fun row => row.ref ≠ r.ref) ++ [row]) ∧
        NewRow table h r.values row ∧ ∀ {no slot}, h.Used no slot → h'.Used no slot := by
  unfold Db.updateRow at done
  split at done
  · simp at done
  · obtain ⟨⟨db₁, n⟩, deleted, done⟩ := Res.bind_eq_ok.mp done
    obtain ⟨row, row_mem, ref_eq⟩ := found
    rw [← ref_eq] at deleted ⊢
    obtain ⟨rfl, elsewhere, h₁, state₁, used⟩ := deleteRow_table state row_mem deleted
    obtain ⟨⟨db₂, rid, ref⟩, added, done⟩ := Res.bind_eq_ok.mp done
    cases done
    obtain ⟨elsewhere', h', new, state', isNew, -, used'⟩ := addRow_table state₁ added
    refine ⟨elsewhere.trans elsewhere', h', new, state', ?_, ?_⟩
    · exact ⟨isNew.values, isNew.file, fun before => isNew.fresh (used.mpr before)⟩
    · exact fun before => used' (used.mpr before)

/-- The loop of UPDATE takes out every row picked and adds one for each. -/
theorem updateLoop_table {ents : List IndexEntry} {rs : List RowUpdate} {i : Nat}
    (state : Table db table h rows) (picked : Picked rows (rs.map RowUpdate.ref))
    (done : Db.updateLoop disk table ents i rs db = .ok db') :
    Elsewhere table db db' ∧ ∃ h' news,
      Table db' table h' ((rows.filter fun row => row.ref ∉ rs.map RowUpdate.ref) ++ news) ∧
        List.Forall₂ (fun r new => NewRow table h r.values new) rs news := by
  induction rs generalizing db h rows i with
  | nil =>
      cases done
      exact ⟨fun _ _ => rfl, h, [], by simpa using state, List.Forall₂.nil⟩
  | cons r rs inductionHypothesis =>
      obtain ⟨db₁, updated, done⟩ := Res.bind_eq_ok.mp done
      obtain ⟨elsewhere, h₁, new, state₁, isNew, used⟩ :=
        updateRow_table state (picked.2 r.ref (List.mem_cons_self ..)) updated
      have picked_tail := picked.tail
      have picked₁ : Picked ((rows.filter fun row => row.ref ≠ r.ref) ++ [new])
          (rs.map RowUpdate.ref) := by
        refine ⟨picked_tail.1, fun ref mem => ?_⟩
        obtain ⟨row, row_mem, row_eq⟩ := picked_tail.2 ref mem
        exact ⟨row, List.mem_append_left _ row_mem, row_eq⟩
      obtain ⟨elsewhere', h', news, state', areNew⟩ := inductionHypothesis state₁ picked₁ done
      -- the row added is in a slot that no row picked before can have
      have new_kept : new.ref ∉ rs.map RowUpdate.ref := by
        intro mem
        obtain ⟨row, row_mem, row_eq⟩ := picked_tail.2 new.ref mem
        apply isNew.fresh
        rw [← row_eq]
        exact state.used (List.mem_filter.mp row_mem).1
      have rows_eq : (((rows.filter fun row => row.ref ≠ r.ref) ++ [new]).filter
          fun row => row.ref ∉ rs.map RowUpdate.ref) =
            (rows.filter fun row => row.ref ∉ (r :: rs).map RowUpdate.ref) ++ [new] := by
        rw [List.filter_append, filter_cons_refs, List.map_cons]
        congr 1
        exact List.filter_cons_of_pos (by simpa using new_kept)
      rw [rows_eq, List.append_assoc, List.singleton_append] at state'
      refine ⟨elsewhere.trans elsewhere', h', new :: news, state', List.Forall₂.cons isNew ?_⟩
      refine areNew.imp fun r new isNew => ?_
      exact ⟨isNew.values, isNew.file, fun before => isNew.fresh (used before)⟩

end Loops

/-! ## The new rows -/

/-- The assignment that decides a column: the last one to it. -/
def assignmentTo (assigns : List BoundUpdateItem) (i : Nat) : Option BoundUpdateItem :=
  assigns.reverse.find? fun a => a.colIdx = i

/-- The row an UPDATE makes of an old one: an assigned column holds the value of
the assignment on the old row, coerced to the column, and the others what they
held; the slot is one that no row had. -/
structure Updated (table : TableMeta) (h : HeapFile) (assigns : List BoundUpdateItem)
    (old new : Row) : Prop where
  length : new.values.length = table.cols.length
  column : ∀ i col, table.cols[i]? = some col →
    match assignmentTo assigns i with
    | none => new.values[i]? = old.values[i]?
    | some a => ∃ v w, evalRow a.value old = .ok v ∧ coerceColValue col v = .ok w ∧
        new.values[i]? = some (stored col w)
  fresh : ¬h.Used new.ref.page.pageNo new.ref.slot

section Assignments

variable {cols : List ColumnSpec} {assigns : List BoundUpdateItem} {old : Row}

/-- What the assignments leave in each column. -/
theorem assignAll_column {vals out : List Value}
    (done : assigns.foldlM (assign cols old) vals = .ok out) :
    out.length = vals.length ∧ ∀ i col, cols[i]? = some col →
      match assignmentTo assigns i with
      | none => out[i]? = vals[i]?
      | some a => ∃ v w, evalRow a.value old = .ok v ∧ coerceColValue col v = .ok w ∧
          (i < vals.length → out[i]? = some w) := by
  induction assigns generalizing vals with
  | nil =>
      cases done
      exact ⟨rfl, fun _ _ _ => rfl⟩
  | cons a assigns inductionHypothesis =>
      rw [List.foldlM_cons] at done
      obtain ⟨vals', first, done⟩ := Res.bind_eq_ok.mp done
      obtain ⟨length, column⟩ := inductionHypothesis done
      unfold assign at first
      split at first
      · cases first
      · rename_i col' col_eq
        obtain ⟨v, evaluated, first⟩ := Res.bind_eq_ok.mp first
        obtain ⟨w, coerced, first⟩ := Res.bind_eq_ok.mp first
        cases first
        rw [List.length_set] at length column
        refine ⟨length, fun i col i_col => ?_⟩
        have later := column i col i_col
        have split : assignmentTo (a :: assigns) i =
            (assignmentTo assigns i).or (if a.colIdx = i then some a else none) := by
          simp [assignmentTo, List.find?_append]
        rw [split]
        cases rest : assignmentTo assigns i with
        | some a' =>
            rw [rest] at later
            exact later
        | none =>
            rw [rest] at later
            by_cases here : a.colIdx = i
            · subst here
              rw [col_eq] at i_col
              cases i_col
              rw [if_pos rfl]
              refine ⟨v, w, evaluated, coerced, fun inside => ?_⟩
              rw [later, List.getElem?_set_self inside]
            · rw [if_neg here]
              simpa [List.getElem?_set_ne here] using later

/-- The new row of values that the assignments give. -/
theorem updated_of_newRow {table : TableMeta} {h : HeapFile} {values : List Value} {new : Row}
    (length : old.values.length = table.cols.length)
    (kept : List.zipWith stored table.cols old.values = old.values)
    (assigned : assignAll table.cols assigns old = .ok values)
    (isNew : NewRow table h values new) : Updated table h assigns old new := by
  obtain ⟨values_length, column⟩ := assignAll_column assigned
  refine ⟨?_, fun i col i_col => ?_, isNew.fresh⟩
  · rw [isNew.values, List.length_zipWith, values_length, length, min_self]
  · have inside : i < old.values.length := by
      rw [length]
      exact (List.getElem?_eq_some_iff.mp i_col).1
    have at_new : new.values[i]? = values[i]?.map (stored col) := by
      rw [isNew.values, List.getElem?_zipWith, i_col]
      cases values[i]? <;> rfl
    have at_old : old.values[i]? = old.values[i]?.map (stored col) := by
      conv_lhs => rw [← kept]
      rw [List.getElem?_zipWith, i_col]
      cases old.values[i]? <;> rfl
    have here := column i col i_col
    cases decided : assignmentTo assigns i with
    | none =>
        rw [decided] at here
        dsimp only at here ⊢
        rw [at_new, here, ← at_old]
    | some a =>
        rw [decided] at here
        obtain ⟨v, w, evaluated, coerced, at_values⟩ := here
        refine ⟨v, w, evaluated, coerced, ?_⟩
        rw [at_new, at_values inside]
        rfl

end Assignments

section Statements

variable {disk : Nat → DiskPages} {db db' : Db} {table : TableMeta} {h : HeapFile}
  {rows : List Row} {child : PlanNode} {count : Nat}

theorem rowUpdate_refs {up : UpdatePlan} {chosen : List Row} {rs : List RowUpdate}
    (computed : List.Forall₂ (fun old r => rowUpdate up old = .ok r) chosen rs) :
    rs.map RowUpdate.ref = chosen.map Row.ref := by
  induction computed with
  | nil => rfl
  | cons first rest inductionHypothesis =>
      obtain ⟨values, -, first⟩ := Res.bind_eq_ok.mp first
      cases first
      rw [List.map_cons, List.map_cons, inductionHypothesis]

theorem news_updated {assigns : List BoundUpdateItem} {chosen news : List Row}
    {rs : List RowUpdate} (state : Table db table h rows)
    (computed : List.Forall₂ (fun old r => rowUpdate ⟨table, assigns, child⟩ old = .ok r) chosen rs)
    (live : ∀ row ∈ chosen, row ∈ rows)
    (areNew : List.Forall₂ (fun r new => NewRow table h r.values new) rs news) :
    List.Forall₂ (Updated table h assigns) chosen news := by
  induction computed generalizing news with
  | nil =>
      cases areNew
      exact List.Forall₂.nil
  | @cons old r chosen rs first rest inductionHypothesis =>
      obtain _ | ⟨isNew, areNew⟩ := areNew
      obtain ⟨values, assigned, first⟩ := Res.bind_eq_ok.mp first
      cases first
      obtain ⟨length, kept⟩ := state.stored_values (live old (List.mem_cons_self ..))
      apply List.Forall₂.cons (updated_of_newRow length kept assigned isNew)
      exact inductionHypothesis (fun row mem => live row (List.mem_cons_of_mem _ mem)) areNew

/-- DELETE takes out the rows its child picks, and counts them. -/
theorem runDeleteWhere_table (state : TableState db table h rows)
    (selects : Selects db table child)
    (done : runDeleteWhere disk ⟨table, child⟩ db = .ok (db', count)) :
    ∃ chosen, Chosen (disk 0) db child rows chosen ∧ count = chosen.length ∧
      Elsewhere table db db' ∧
      ∃ h', Table db' table h' (rows.filter fun row => row.ref ∉ chosen.map Row.ref) := by
  obtain ⟨chosen, pulled, deleted⟩ := Res.bind_eq_ok.mp done
  have picks := selects.pullAll state pulled
  have picked : Picked rows (chosen.map Row.ref) := by
    refine ⟨picks.distinct, fun ref mem => ?_⟩
    obtain ⟨row, row_mem, rfl⟩ := List.mem_map.mp mem
    exact ⟨row, picks.live row row_mem, rfl⟩
  obtain ⟨count_eq, elsewhere, h', state'⟩ := deleteLoop_table state.toTable picked deleted
  rw [List.length_map] at count_eq
  exact ⟨chosen, picks, count_eq, elsewhere, h', state'⟩

/-- UPDATE takes out the rows its child picks, adds one for each, and counts
them. -/
theorem runUpdate_table {assigns : List BoundUpdateItem} (state : TableState db table h rows)
    (selects : Selects db table child)
    (done : runUpdate disk ⟨table, assigns, child⟩ db = .ok (db', count)) :
    ∃ chosen, Chosen (disk 0) db child rows chosen ∧ count = chosen.length ∧
      Elsewhere table db db' ∧ ∃ h' news,
        Table db' table h' ((rows.filter fun row => row.ref ∉ chosen.map Row.ref) ++ news) ∧
          List.Forall₂ (Updated table h assigns) chosen news := by
  obtain ⟨chosen, pulled, done⟩ := Res.bind_eq_ok.mp done
  obtain ⟨rs, computed, done⟩ := Res.bind_eq_ok.mp done
  obtain ⟨db₁, updated, done⟩ := Res.bind_eq_ok.mp done
  cases done
  have picks := selects.pullAll state pulled
  have computed := PlanNode.mapM_eq_ok_iff.mp computed
  have refs := rowUpdate_refs computed
  have picked : Picked rows (rs.map RowUpdate.ref) := by
    rw [refs]
    refine ⟨picks.distinct, fun ref mem => ?_⟩
    obtain ⟨row, row_mem, rfl⟩ := List.mem_map.mp mem
    exact ⟨row, picks.live row row_mem, rfl⟩
  obtain ⟨elsewhere, h', news, state', areNew⟩ := updateLoop_table state.toTable picked updated
  rw [refs] at state'
  refine ⟨chosen, picks, ?_, elsewhere, h', news, state', ?_⟩
  · exact computed.length_eq.symm
  · exact news_updated state.toTable computed picks.live areNew

/-- DELETE and UPDATE change exactly the rows that their child gives on the state
before the statement, each once, and count them; every other row stays.  UPDATE
puts one new row for each of them, in a slot that none of them had. -/
theorem statements_change_chosen (disk : Nat → DiskPages) (db : Db) (table : TableMeta)
    (h : HeapFile) (rows : List Row) (child : PlanNode) (state : TableState db table h rows)
    (selects : Selects db table child) :
    (∀ db' count, runDeleteWhere disk ⟨table, child⟩ db = .ok (db', count) →
      ∃ chosen, Chosen (disk 0) db child rows chosen ∧ count = chosen.length ∧
        Elsewhere table db db' ∧
        ∃ h', Table db' table h' (rows.filter fun row => row.ref ∉ chosen.map Row.ref)) ∧
    ∀ assigns db' count, runUpdate disk ⟨table, assigns, child⟩ db = .ok (db', count) →
      ∃ chosen, Chosen (disk 0) db child rows chosen ∧ count = chosen.length ∧
        Elsewhere table db db' ∧ ∃ h' news,
          Table db' table h' ((rows.filter fun row => row.ref ∉ chosen.map Row.ref) ++ news) ∧
            List.Forall₂ (Updated table h assigns) chosen news :=
  ⟨fun _ _ done => runDeleteWhere_table state selects done,
    fun _ _ _ done => runUpdate_table state selects done⟩

end Statements

/-! ### A table of two rows -/

def pairTable : TableMeta where
  tableId := 100
  fileId := 100
  name := "t"
  cols := [{ name := "c", type := kInt }]

def pairRecord (n : UInt8) : Bytes := [5, 0, 0, n, 0, 0, 0]

/-- The rows 5 and 7 with a tombstone between them. -/
def pairHeap : HeapFile where
  nextRowid := 3
  pages := [{ no := 1, freeBegin := 45, slots := [some (pairRecord 5), none, some (pairRecord 7)] }]

theorem pairHeap_wellFormed : pairHeap.WellFormed :=
  ⟨List.pairwise_singleton _ _, by simp [pairHeap]⟩

def pairEntry (n : UInt64) (slot : UInt16) : BTreeEntry where
  key := ⟨n ^^^ signFlip, false⟩
  pageNo := 1
  slot := slot

/-- The entry of the deleted row 6 is still there. -/
def pairIndex : IndexFile where
  tree := ⟨0, (⟨1, [pairEntry 5 0, pairEntry 6 1, pairEntry 7 2]⟩ : BPlus.Leaf BTreeEntry)⟩
  nextNo := 2

def pairDb : Db where
  heaps := fun fid => if fid = 100 then some pairHeap else none
  indexes := fun fid => if fid = 101 then some pairIndex else none
  indexRows := [⟨"i", 100, 0, 101⟩]

def pairRow (n : Int64) (slot : Nat) : Row where
  ref := ⟨⟨100, 1⟩, slot⟩
  values := [intVal kInt n]

theorem pairTable_state : TableState pairDb pairTable pairHeap [pairRow 5 0, pairRow 7 2] where
  heap := rfl
  wellFormed := pairHeap_wellFormed
  decoded := by decide +kernel
  indexed := by
    intro ent mem
    obtain rfl : ent = ⟨"i", 100, 0, 101⟩ := by
      have all : pairDb.tableIndexes pairTable.tableId = [⟨"i", 100, 0, 101⟩] := by rfl
      rw [all] at mem
      exact List.mem_singleton.mp mem
    have ascending : pairIndex.entries.Pairwise (· < ·) := by
      simp only [IndexFile.entries, pairIndex, BPlus.Tree.entries]
      simp [BTreeEntry.lt_iff_rank, BTreeEntry.rank, IndexKey.rank, pairEntry]
      decide
    refine ⟨pairIndex, rfl, ⟨⟨ascending, fun x _ => ⟨by simp, by simp⟩⟩, by decide, ?_⟩, ?_, ?_⟩
    · simp [pairIndex, IndexFile.leaves, BPlus.Tree.leaves]
    · intro row mem
      simp only [List.mem_cons, List.not_mem_nil, or_false] at mem
      rcases mem with rfl | rfl
      · exact ⟨_, _, _, pairEntry 5 0, rfl, rfl, rfl, rfl, by rfl⟩
      · exact ⟨_, _, _, pairEntry 7 2, rfl, rfl, rfl, rfl, by rfl⟩
    · intro e mem
      have cases_mem : e = pairEntry 5 0 ∨ e = pairEntry 6 1 ∨ e = pairEntry 7 2 := by
        simpa [IndexFile.entries, pairIndex, BPlus.Tree.entries] using mem
      rcases cases_mem with rfl | rfl | rfl
      · exact ⟨_, List.mem_singleton_self _, rfl, by decide⟩
      · exact ⟨_, List.mem_singleton_self _, rfl, by decide⟩
      · exact ⟨_, List.mem_singleton_self _, rfl, by decide⟩

/-- `UPDATE t SET c = c + 1 WHERE c >= 5 AND c < 7`, the lower bound through the
index on `c`. -/
def pairUpdate : UpdatePlan where
  table := pairTable
  assigns := [⟨0, .arith .add (.colRef 0 kInt) (.const (intVal kInt 1)) kInt⟩]
  child := .filter (.fetch pairTable (.indexScan pairTable 101
      [{ lo := some { key := ⟨5 ^^^ signFlip, false⟩ } }]))
    (.cmp .lt (.colRef 0 kInt) (.const (intVal kInt 7)))

theorem statements_change_chosen_pair :
    ∃ db', runUpdate (fun _ _ => 2) pairUpdate pairDb = .ok (db', 1) ∧
      ∃ chosen, Chosen (fun _ => 2) pairDb pairUpdate.child [pairRow 5 0, pairRow 7 2] chosen ∧
        1 = chosen.length ∧ Elsewhere pairTable pairDb db' ∧ ∃ h' news,
          Table db' pairTable h' (([pairRow 5 0, pairRow 7 2].filter fun row =>
            row.ref ∉ chosen.map Row.ref) ++ news) ∧
            List.Forall₂ (Updated pairTable pairHeap pairUpdate.assigns) chosen news := by
  have counted : (runUpdate (fun _ _ => 2) pairUpdate pairDb).map Prod.snd = .ok 1 := by
    decide +kernel
  obtain ⟨⟨db', count⟩, done, rfl⟩ : ∃ result,
      runUpdate (fun _ _ => 2) pairUpdate pairDb = .ok result ∧ result.2 = 1 := by
    cases outcome : runUpdate (fun _ _ => 2) pairUpdate pairDb with
    | error e => simp [outcome, Except.map] at counted
    | ok result => exact ⟨result, rfl, by simpa [outcome, Except.map] using counted⟩
  have index : (⟨"i", 100, 0, 101⟩ : IndexEntry) ∈ pairDb.tableIndexes pairTable.tableId := by
    decide
  have selects : Selects pairDb pairTable pairUpdate.child :=
    .filter (.fetch index (List.pairwise_singleton _ _))
  exact ⟨db', done, (statements_change_chosen (fun _ _ => 2) pairDb pairTable pairHeap
    [pairRow 5 0, pairRow 7 2] pairUpdate.child pairTable_state selects).2 _ db' 1 done⟩

end MySimpleDb.Executor
