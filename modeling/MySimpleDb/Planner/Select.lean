import MySimpleDb.Planner.Plan

/-!
# The plan of a SELECT

A filter if there is a WHERE, the projection, and a sort behind the projection
where every key is an output column, else before it.
-/

namespace MySimpleDb.Planner

open MySimpleDb.Analyzer

/-- The row source with its filter. -/
def filtered (input : PlanNode) (cond : Option BoundExpr) : PlanNode :=
  match cond with
  | some pred => .filter input pred
  | none => input

def buildSelect (input : PlanNode) (cond : Option BoundExpr) (projs : List ProjCol)
    (orders : List BoundOrderItem) (sortOnOutput : Bool) : PlanNode :=
  let input := filtered input cond
  let hasOrders := !orders.isEmpty
  let input := if hasOrders && !sortOnOutput then .sort input orders false else input
  let input := .project input projs
  if hasOrders && sortOnOutput then .sort input orders true else input

end MySimpleDb.Planner
