import MySimpleDb.Executor.OperatorRows

/-!
# What an opened operator still reads

A row that an operator gives depends on the files its plan scans and on nothing
else; behind a sort it depends on no file at all.
-/

namespace MySimpleDb.Planner.PlanNode

open MySimpleDb.Lib MySimpleDb.Storage MySimpleDb.Analyzer MySimpleDb.Catalog

/-- The row sources that plans are built over. -/
inductive Source : PlanNode → Prop
  | seqScan (table : TableMeta) : Source (.seqScan table)
  | fetch (table : TableMeta) (indexFid : Nat) (ranges : List IndexRange) :
      Source (.fetch table (.indexScan table indexFid ranges))
  | dummyScan : Source .dummyScan
  | empty : Source .empty
  | filter {child : PlanNode} (source : Source child) (pred : BoundExpr) :
      Source (.filter child pred)

/-- The plans of SELECT: a projection, sorted before or behind it. -/
inductive Select : PlanNode → Prop
  | plain {child : PlanNode} (source : Source child) (projs : List ProjCol) :
      Select (.project child projs)
  | sortedInput {child : PlanNode} (source : Source child) (orders : List BoundOrderItem)
      (projs : List ProjCol) : Select (.project (.sort child orders false) projs)
  | sortedOutput {child : PlanNode} (source : Source child) (orders : List BoundOrderItem)
      (projs : List ProjCol) : Select (.sort (.project child projs) orders true)

/-- The files that an opened operator of the plan still reads are the same. -/
def Untouched (db db' : Db) : PlanNode → Prop
  | .seqScan table => db'.heaps table.fileId = db.heaps table.fileId
  | .indexScan table indexFid _ =>
      db'.heaps table.fileId = db.heaps table.fileId ∧ db'.indexes indexFid = db.indexes indexFid
  | .fetch _ child => child.Untouched db db'
  | .dummyScan => True
  | .empty => True
  | .filter child _ => child.Untouched db db'
  | .project child _ => child.Untouched db db'
  | .sort .. => True

theorem Untouched.refl (db : Db) (p : PlanNode) : p.Untouched db db := by
  induction p with
  | seqScan table => rfl
  | indexScan table indexFid ranges => exact ⟨rfl, rfl⟩
  | fetch table child inductionHypothesis => exact inductionHypothesis
  | dummyScan => trivial
  | empty => trivial
  | filter child pred inductionHypothesis => exact inductionHypothesis
  | project child projs inductionHypothesis => exact inductionHypothesis
  | sort child orders sortOnOutput => trivial

theorem Untouched.trans {db db' db'' : Db} {p : PlanNode} (first : p.Untouched db db')
    (second : p.Untouched db' db'') : p.Untouched db db'' := by
  induction p with
  | seqScan table => exact Eq.trans second first
  | indexScan table indexFid ranges => exact ⟨second.1.trans first.1, second.2.trans first.2⟩
  | fetch table child inductionHypothesis => exact inductionHypothesis first second
  | dummyScan => trivial
  | empty => trivial
  | filter child pred inductionHypothesis => exact inductionHypothesis first second
  | project child projs inductionHypothesis => exact inductionHypothesis first second
  | sort child orders sortOnOutput => trivial

theorem Untouched.symm {db db' : Db} {p : PlanNode} (same : p.Untouched db db') :
    p.Untouched db' db := by
  induction p with
  | seqScan table => exact Eq.symm same
  | indexScan table indexFid ranges => exact ⟨same.1.symm, same.2.symm⟩
  | fetch table child inductionHypothesis => exact inductionHypothesis same
  | dummyScan => trivial
  | empty => trivial
  | filter child pred inductionHypothesis => exact inductionHypothesis same
  | project child projs inductionHypothesis => exact inductionHypothesis same
  | sort child orders sortOnOutput => trivial

/-! ## The pages on disk do not matter for a row that is there -/

/-- Every table file is a chain of rising page numbers. -/
def HeapsWellFormed (db : Db) : Prop :=
  ∀ fid h, db.heaps fid = some h → h.WellFormed

theorem readRow_disk {h : HeapFile} (wellFormed : h.WellFormed) {pageCount pageCount' : Nat}
    {ref : RowRef} {cols : List ColumnSpec} {result : Option Row}
    (read : h.readRow pageCount ref cols = .ok result) :
    h.readRow pageCount' ref cols = .ok result := by
  obtain ⟨_, checked, read⟩ := Res.bind_eq_ok.mp read
  obtain ⟨p, found, read⟩ := Res.bind_eq_ok.mp read
  have checked' : h.checkRowRef pageCount' ref = .ok () := by
    have le : ref.page.pageNo ≤ h.tail := by
      unfold HeapFile.readPage at found
      split at found
      · simp [dbCritical] at found
      · rename_i q q_found
        obtain ⟨q_mem, no_eq⟩ := wellFormed.page?_iff.mp q_found
        exact no_eq ▸ wellFormed.no_le_tail q_mem
    unfold HeapFile.checkRowRef at checked ⊢
    split at checked
    · simp at checked
    · split at checked
      · simp at checked
      · rename_i valid notHeader
        rw [if_neg valid, if_neg notHeader, if_neg]
        omega
  rw [HeapFile.readRow, checked', Res.bind_ok, found, Res.bind_ok]
  exact read

/-! ## Steps over files that are the same -/

section Frame

variable {disk disk' : DiskPages} {db db' : Db}

theorem Untouched.turns {p : PlanNode} (source : Source p) (same : p.Untouched db db') :
    p.turns db' = p.turns db := by
  induction source with
  | seqScan table =>
      have heap : db'.heaps table.fileId = db.heaps table.fileId := same
      rw [PlanNode.turns, PlanNode.turns, heap]
  | fetch table indexFid ranges =>
      have index : db'.indexes indexFid = db.indexes indexFid := same.2
      rw [PlanNode.turns, PlanNode.turns, PlanNode.turns, PlanNode.turns, index]
  | dummyScan => rfl
  | empty => rfl
  | filter source pred inductionHypothesis => exact inductionHypothesis same

/-- A row fetched from a file that is the same is the same. -/
theorem fetchRow_frame (wellFormed : HeapsWellFormed db) {cols : List ColumnSpec} {row : Row}
    {result : Option Row} (same : db'.heaps row.ref.page.fileId = db.heaps row.ref.page.fileId)
    (fetched : fetchRow db disk cols row = .ok result) :
    fetchRow db' disk' cols row = .ok result := by
  obtain ⟨h, found, read⟩ := Res.bind_eq_ok.mp fetched
  have found' : db'.heap row.ref.page.fileId = .ok h := by
    rw [Db.heap, same]
    exact found
  rw [fetchRow, found', Res.bind_ok]
  unfold Db.heap at found
  split at found
  · simp [dbCritical] at found
  · rename_i h' heap
    cases found
    exact readRow_disk (wellFormed _ _ heap) read

/-- An operator gives the same over files that are the same. -/
theorem Source.next_frame (wellFormed : HeapsWellFormed db) {p : PlanNode} (source : Source p)
    (same : p.Untouched db db') {s s' : p.State} {given : Option Row}
    (step : next disk db p s = .ok (given, s')) : next disk' db' p s = .ok (given, s') := by
  induction source generalizing given with
  | seqScan table =>
      have heap : db'.heap table.fileId = db.heap table.fileId := by
        have heaps : db'.heaps table.fileId = db.heaps table.fileId := same
        rw [Db.heap, Db.heap, heaps]
      rw [next, heap]
      exact step
  | fetch table indexFid ranges =>
      have entry : nextEntry db' indexFid = nextEntry db indexFid := by
        funext s
        rw [nextEntry, nextEntry, Db.index, Db.index, same.2]
      have child : next disk' db' (.indexScan table indexFid ranges) =
          next disk db (.indexScan table indexFid ranges) := by
        rw [next, next, entry]
      have turns_eq : (indexScan table indexFid ranges).turns db' =
          (indexScan table indexFid ranges).turns db := by
        rw [PlanNode.turns, PlanNode.turns, same.2]
      rw [next, child, turns_eq]
      have inFile : ∀ s row s', next disk db (.indexScan table indexFid ranges) s =
          .ok (some row, s') → row.ref.page.fileId = table.fileId := by
        intro s row s' gives
        rw [next] at gives
        unfold Pull.pass at gives
        split at gives
        · cases gives
        · cases gives
        · cases gives
          rfl
      refine Pull.sieve_mono (fun row : Row => row.ref.page.fileId = table.fileId)
        (fun _ _ gives => gives) inFile (fun row result file fetched => ?_) step
      apply fetchRow_frame wellFormed _ fetched
      rw [file]
      exact same.1
  | dummyScan => exact step
  | empty => exact step
  | filter source pred inductionHypothesis =>
      rw [next, same.turns source]
      exact Pull.sieve_mono (fun _ => True)
        (fun _ _ gives => inductionHypothesis same gives) (fun _ _ _ _ => trivial)
        (fun _ _ _ holds => holds) step

/-- So does the operator of a SELECT. -/
theorem Select.next_frame (wellFormed : HeapsWellFormed db) {p : PlanNode} (select : Select p)
    (same : p.Untouched db db') {s s' : p.State} {given : Option Row}
    (step : next disk db p s = .ok (given, s')) : next disk' db' p s = .ok (given, s') := by
  cases select with
  | plain source projs =>
      exact Pull.pass_mono (fun _ _ gives => source.next_frame wellFormed same gives) step
  | sortedInput source orders projs => exact step
  | sortedOutput source orders projs => exact step

end Frame

end MySimpleDb.Planner.PlanNode
