import Mathlib.Data.List.Forall2
import MySimpleDb.Executor.Operator

/-!
# The rows of a plan

What a plan selects from files that stay as they are, said without scanners and
states, and that pulling the opened operator gives exactly these rows.
-/

namespace MySimpleDb.Planner.PlanNode

open MySimpleDb.Lib MySimpleDb.Storage MySimpleDb.Analyzer MySimpleDb.Catalog

/-- The entries of an index file in a list of ranges, range by range. -/
def entriesIn (f : IndexFile) (ranges : List IndexRange) : List BTreeEntry :=
  ranges.flatMap fun r => f.entries.filter fun e => decide (KeyInterval.Mem ⟨r.lo, r.hi⟩ e.key)

/-- The rows a plan gives. -/
def rowsOf (disk : DiskPages) (db : Db) : PlanNode → Res (List Row)
  | .seqScan table => do
      let h ← db.heap table.fileId
      h.live.mapM (HeapFile.Scanner.rowAt table.fileId table.cols)
  | .indexScan table indexFid ranges => do
      let f ← db.index indexFid
      return (entriesIn f ranges).map (entryRow table.fileId)
  | .fetch table child => do
      Pull.keep (fetchRow db disk table.cols) (← rowsOf disk db child)
  | .dummyScan => .ok [{}]
  | .empty => .ok []
  | .filter child pred => do
      Pull.keep (filterRow pred) (← rowsOf disk db child)
  | .project child projs => do
      (← rowsOf disk db child).mapM (projectRow projs)
  | .sort child orders sortOnOutput => do
      let keyed ← (← rowsOf disk db child).mapM (rowKeys orders sortOnOutput)
      return (← sortRows orders keyed).map Prod.fst

/-- The files that the scans of a plan start from are there and in order. -/
def Ready (db : Db) : PlanNode → Prop
  | .seqScan table => ∃ h, db.heaps table.fileId = some h ∧ h.WellFormed
  | .indexScan _ indexFid _ => ∃ f, db.indexes indexFid = some f ∧ f.Ordered
  | .fetch _ child => child.Ready db
  | .dummyScan => True
  | .empty => True
  | .filter child _ => child.Ready db
  | .project child _ => child.Ready db
  | .sort child .. => child.Ready db

variable {disk : DiskPages} {db : Db} {rows : List Row}

theorem heap_eq {fid : Nat} {h : HeapFile} (found : db.heaps fid = some h) :
    db.heap fid = .ok h := by
  rw [Db.heap, found]

theorem index_eq {fid : Nat} {f : IndexFile} (found : db.indexes fid = some f) :
    db.index fid = .ok f := by
  rw [Db.index, found]

theorem mapM_eq_ok_iff {α β : Type} {f : α → Res β} {xs : List α} {ys : List β} :
    xs.mapM f = .ok ys ↔ List.Forall₂ (fun x y => f x = .ok y) xs ys := by
  induction xs generalizing ys with
  | nil =>
      rw [List.mapM_nil, Res.pure_eq_ok, List.forall₂_nil_left_iff]
      exact eq_comm
  | cons x xs inductionHypothesis =>
      rw [List.mapM_cons, List.forall₂_cons_left_iff]
      constructor
      · intro mapped
        obtain ⟨y, first, mapped⟩ := Res.bind_eq_ok.mp mapped
        obtain ⟨ys', later, mapped⟩ := Res.bind_eq_ok.mp mapped
        cases mapped
        exact ⟨y, ys', first, inductionHypothesis.mp later, rfl⟩
      · rintro ⟨y, ys', first, later, rfl⟩
        rw [first, Res.bind_ok, inductionHypothesis.mpr later, Res.bind_ok]
        rfl

theorem mapM_length {α β : Type} {f : α → Res β} {xs : List α} {ys : List β}
    (mapped : xs.mapM f = .ok ys) : ys.length = xs.length :=
  (mapM_eq_ok_iff.mp mapped).length_eq.symm

theorem insertSorted_length {orders : List BoundOrderItem} {r : RowKeys} {rows out : List RowKeys}
    (inserted : insertSorted orders r rows = .ok out) : out.length = rows.length + 1 := by
  induction rows generalizing out with
  | nil =>
      cases inserted
      rfl
  | cons r' rows inductionHypothesis =>
      rw [insertSorted] at inserted
      obtain ⟨less, -, inserted⟩ := Res.bind_eq_ok.mp inserted
      split at inserted
      · cases inserted
        rfl
      · obtain ⟨out', later, inserted⟩ := Res.bind_eq_ok.mp inserted
        cases inserted
        rw [List.length_cons, inductionHypothesis later, List.length_cons]

theorem sortRows_length {orders : List BoundOrderItem} {rows out : List RowKeys}
    (sorted : sortRows orders rows = .ok out) : out.length = rows.length := by
  suffices loop : ∀ (rows start out : List RowKeys),
      rows.foldlM (fun sorted r => insertSorted orders r sorted) start = .ok out →
        out.length = start.length + rows.length by
    simpa using loop rows [] out sorted
  intro rows
  induction rows with
  | nil =>
      intro start out done
      cases done
      rfl
  | cons r rows inductionHypothesis =>
      intro start out done
      rw [List.foldlM_cons] at done
      obtain ⟨middle, inserted, done⟩ := Res.bind_eq_ok.mp done
      rw [inductionHypothesis _ _ done, insertSorted_length inserted, List.length_cons]
      omega

theorem entriesIn_length (f : IndexFile) (ranges : List IndexRange) :
    (entriesIn f ranges).length ≤ ranges.length * f.entries.length := by
  induction ranges with
  | nil => exact Nat.zero_le _
  | cons r ranges inductionHypothesis =>
      have first := List.length_filter_le
        (fun e => decide (KeyInterval.Mem ⟨r.lo, r.hi⟩ e.key)) f.entries
      rw [entriesIn] at inductionHypothesis ⊢
      rw [List.flatMap_cons, List.length_append, List.length_cons, Nat.succ_mul]
      omega

/-- A plan gives fewer rows than its loops may turn. -/
theorem rowsOf_length {p : PlanNode} (rows_eq : rowsOf disk db p = .ok rows) :
    rows.length < p.turns db := by
  induction p generalizing rows with
  | seqScan table =>
      obtain ⟨h, found, mapped⟩ := Res.bind_eq_ok.mp rows_eq
      have length := mapM_length mapped
      unfold Db.heap at found
      split at found
      · simp [dbCritical] at found
      · rename_i h' found'
        cases found
        rw [length, turns, found']
        exact Nat.lt_succ_self _
  | indexScan table indexFid ranges =>
      obtain ⟨f, found, rows_eq⟩ := Res.bind_eq_ok.mp rows_eq
      cases rows_eq
      unfold Db.index at found
      split at found
      · cases found
      · rename_i f' found'
        cases found
        rw [turns, found', List.length_map]
        exact Nat.lt_succ_of_le (entriesIn_length f ranges)
  | fetch table child inductionHypothesis =>
      obtain ⟨rows', child_eq, kept⟩ := Res.bind_eq_ok.mp rows_eq
      exact (Pull.keep_length kept).trans_lt (inductionHypothesis child_eq)
  | dummyScan =>
      cases rows_eq
      exact Nat.lt_succ_self 1
  | empty =>
      cases rows_eq
      exact Nat.lt_succ_self 0
  | filter child pred inductionHypothesis =>
      obtain ⟨rows', child_eq, kept⟩ := Res.bind_eq_ok.mp rows_eq
      exact (Pull.keep_length kept).trans_lt (inductionHypothesis child_eq)
  | project child projs inductionHypothesis =>
      obtain ⟨rows', child_eq, mapped⟩ := Res.bind_eq_ok.mp rows_eq
      rw [mapM_length mapped]
      exact inductionHypothesis child_eq
  | sort child orders sortOnOutput inductionHypothesis =>
      obtain ⟨rows', child_eq, rows_eq⟩ := Res.bind_eq_ok.mp rows_eq
      obtain ⟨keyed, keyed_eq, rows_eq⟩ := Res.bind_eq_ok.mp rows_eq
      obtain ⟨sorted, sorted_eq, rows_eq⟩ := Res.bind_eq_ok.mp rows_eq
      cases rows_eq
      rw [List.length_map, sortRows_length sorted_eq, mapM_length keyed_eq]
      exact inductionHypothesis child_eq

/-- Rows that are already sorted are given one by one. -/
theorem sort_yields (disk : DiskPages) (db : Db) (child : PlanNode) (orders : List BoundOrderItem)
    (sortOnOutput : Bool) (rows : List Row) :
    Pull.Yields (next disk db (.sort child orders sortOnOutput)) rows rows := by
  induction rows with
  | nil => exact .done rfl
  | cons row rows inductionHypothesis => exact .row rfl inductionHypothesis

theorem opened_indexScan {table : TableMeta} {indexFid : Nat} {ranges : List IndexRange}
    {f : IndexFile} (found : db.indexes indexFid = some f) :
    opened disk db (.indexScan table indexFid ranges) =
      .ok (ranges.map fun r => IndexScanner.create f r.lo r.hi) := by
  rw [opened]
  induction ranges with
  | nil => rfl
  | cons r ranges inductionHypothesis =>
      rw [List.mapM_cons, inductionHypothesis, index_eq found]
      rfl

/-- Pulling the opened operator of a plan gives its rows: when one side raises no
error, neither does the other. -/
theorem opened_yields_iff {p : PlanNode} (ready : p.Ready db) :
    (∃ s, opened disk db p = .ok s ∧ Pull.Yields (next disk db p) s rows) ↔
      rowsOf disk db p = .ok rows := by
  induction p generalizing rows with
  | seqScan table =>
      obtain ⟨h, found, wellFormed⟩ := ready
      have next_eq : next disk db (.seqScan table) = HeapFile.Scanner.next table.fileId h table.cols := by
        funext s
        rw [next, heap_eq found]
        rfl
      rw [opened, rowsOf, heap_eq found, next_eq, Res.bind_ok, Res.bind_ok]
      have position := HeapFile.Scanner.create_at h
      constructor
      · rintro ⟨s, created, yields⟩
        cases created
        exact (position.yields_iff wellFormed).mp yields
      · intro mapped
        exact ⟨_, rfl, (position.yields_iff wellFormed).mpr mapped⟩
  | indexScan table indexFid ranges =>
      obtain ⟨f, found, ordered⟩ := ready
      have entry_eq : nextEntry db indexFid = IndexScanner.next indexFid f := by
        funext s
        rw [nextEntry, index_eq found]
        rfl
      have yields : Pull.Yields (next disk db (.indexScan table indexFid ranges))
          (ranges.map fun r => IndexScanner.create f r.lo r.hi)
          ((entriesIn f ranges).map (entryRow table.fileId)) := by
        apply Pull.yields_pass_iff.mpr
        refine ⟨entriesIn f ranges, ?_, ?_⟩
        · rw [entry_eq]
          exact Pull.yields_series fun r _ => IndexScanner.create_yields indexFid ordered r.lo r.hi
        · exact List.mapM_pure
      rw [opened_indexScan found, rowsOf, index_eq found, Res.bind_ok]
      constructor
      · rintro ⟨s, created, yields'⟩
        cases created
        rw [yields.unique yields']
        rfl
      · intro rows_eq
        cases rows_eq
        exact ⟨_, rfl, yields⟩
  | fetch table child inductionHypothesis =>
      rw [rowsOf]
      constructor
      · rintro ⟨s, created, yields⟩
        obtain ⟨rows', yields', kept⟩ := Pull.yields_sieve yields
        rw [(inductionHypothesis ready).mp ⟨s, created, yields'⟩, Res.bind_ok]
        exact kept
      · intro rows_eq
        obtain ⟨rows', child_eq, kept⟩ := Res.bind_eq_ok.mp rows_eq
        obtain ⟨s, created, yields⟩ := (inductionHypothesis ready).mpr child_eq
        exact ⟨s, created, yields.sieve (rowsOf_length child_eq) kept⟩
  | dummyScan =>
      have yields : Pull.Yields (next disk db .dummyScan) false [{}] := .row rfl (.done rfl)
      constructor
      · rintro ⟨s, created, yields'⟩
        cases created
        rw [← yields.unique yields', rowsOf]
      · intro rows_eq
        cases rows_eq
        exact ⟨false, rfl, yields⟩
  | empty =>
      have yields : Pull.Yields (next disk db .empty) () [] := .done rfl
      constructor
      · rintro ⟨s, created, yields'⟩
        cases created
        rw [← yields.unique yields', rowsOf]
      · intro rows_eq
        cases rows_eq
        exact ⟨(), rfl, yields⟩
  | filter child pred inductionHypothesis =>
      rw [rowsOf]
      constructor
      · rintro ⟨s, created, yields⟩
        obtain ⟨rows', yields', kept⟩ := Pull.yields_sieve yields
        rw [(inductionHypothesis ready).mp ⟨s, created, yields'⟩, Res.bind_ok]
        exact kept
      · intro rows_eq
        obtain ⟨rows', child_eq, kept⟩ := Res.bind_eq_ok.mp rows_eq
        obtain ⟨s, created, yields⟩ := (inductionHypothesis ready).mpr child_eq
        exact ⟨s, created, yields.sieve (rowsOf_length child_eq) kept⟩
  | project child projs inductionHypothesis =>
      rw [rowsOf]
      constructor
      · rintro ⟨s, created, yields⟩
        obtain ⟨rows', yields', mapped⟩ := Pull.yields_pass_iff.mp yields
        rw [(inductionHypothesis ready).mp ⟨s, created, yields'⟩, Res.bind_ok]
        exact mapped
      · intro rows_eq
        obtain ⟨rows', child_eq, mapped⟩ := Res.bind_eq_ok.mp rows_eq
        obtain ⟨s, created, yields⟩ := (inductionHypothesis ready).mpr child_eq
        exact ⟨s, created, Pull.yields_pass_iff.mpr ⟨rows', yields, mapped⟩⟩
  | sort child orders sortOnOutput inductionHypothesis =>
      rw [opened, rowsOf]
      constructor
      · rintro ⟨s, created, yields⟩
        obtain ⟨s', created', created⟩ := Res.bind_eq_ok.mp created
        obtain ⟨rows', collected, created⟩ := Res.bind_eq_ok.mp created
        obtain ⟨keyed, keyed_eq, created⟩ := Res.bind_eq_ok.mp created
        obtain ⟨sorted, sorted_eq, created⟩ := Res.bind_eq_ok.mp created
        cases created
        have child_eq := (inductionHypothesis ready).mp
          ⟨s', created', Pull.yields_of_collect collected⟩
        rw [child_eq, Res.bind_ok, keyed_eq, Res.bind_ok, sorted_eq, Res.bind_ok,
          yields.unique (sort_yields disk db child orders sortOnOutput _)]
        rfl
      · intro rows_eq
        obtain ⟨rows', child_eq, rows_eq⟩ := Res.bind_eq_ok.mp rows_eq
        obtain ⟨keyed, keyed_eq, rows_eq⟩ := Res.bind_eq_ok.mp rows_eq
        obtain ⟨sorted, sorted_eq, rows_eq⟩ := Res.bind_eq_ok.mp rows_eq
        cases rows_eq
        obtain ⟨s, created, yields⟩ := (inductionHypothesis ready).mpr child_eq
        refine ⟨sorted.map Prod.fst, ?_, sort_yields disk db child orders sortOnOutput _⟩
        rw [created, Res.bind_ok, yields.collect (rowsOf_length child_eq), Res.bind_ok, keyed_eq,
          Res.bind_ok, sorted_eq]
        rfl

/-- Pulling a plan to its end gives its rows, unless it raises. -/
theorem pullAll_iff {p : PlanNode} (ready : p.Ready db) :
    pullAll disk db p = .ok rows ↔ rowsOf disk db p = .ok rows := by
  rw [← opened_yields_iff ready]
  constructor
  · intro pulled
    obtain ⟨s, created, collected⟩ := Res.bind_eq_ok.mp pulled
    exact ⟨s, created, Pull.yields_of_collect collected⟩
  · rintro ⟨s, created, yields⟩
    have rows_eq := (opened_yields_iff ready).mp ⟨s, created, yields⟩
    rw [pullAll, created, Res.bind_ok]
    exact yields.collect (rowsOf_length rows_eq)

end MySimpleDb.Planner.PlanNode
