import MySimpleDb.Analyzer.BoundExpr
import MySimpleDb.Planner.IndexRange

/-!
# Plans

The plan nodes that give rows, and the plans that change rows.  What only
EXPLAIN reads of a node is left out.
-/

namespace MySimpleDb.Planner

open MySimpleDb.Storage MySimpleDb.Analyzer

/-- The plan nodes that an operator exists for. -/
inductive PlanNode
  | seqScan (table : TableMeta)
  | indexScan (table : TableMeta) (indexFid : Nat) (ranges : List IndexRange)
  | fetch (table : TableMeta) (child : PlanNode)
  | dummyScan
  | empty
  | filter (child : PlanNode) (pred : BoundExpr)
  | project (child : PlanNode) (projs : List ProjCol)
  | sort (child : PlanNode) (orders : List BoundOrderItem) (sortOnOutput : Bool)

structure InsertPlan where
  table : TableMeta
  /-- An expression for every column of each new row. -/
  rows : List (List BoundExpr)

structure DeletePlan where
  table : TableMeta
  child : PlanNode

structure UpdatePlan where
  table : TableMeta
  assigns : List BoundUpdateItem
  child : PlanNode

end MySimpleDb.Planner
