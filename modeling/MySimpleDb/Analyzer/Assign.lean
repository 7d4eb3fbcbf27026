import MySimpleDb.Analyzer.Bind

/-!
# Binding INSERT and UPDATE

Which static types a column may be assigned, and the expressions that the columns
of a new row are given.
-/

namespace MySimpleDb.Analyzer

open MySimpleDb.Lib MySimpleDb.Storage MySimpleDb.Parser

/-! ## Checks of a value against its column -/

def isIntType (t : TypeAttr) : Bool := t.rep = .int64

def isFloatType (t : TypeAttr) : Bool := t.rep = .float || t.rep = .double

def isTextType (t : TypeAttr) : Bool := t.family = .text

def mismatch {α : Type} : Res α :=
  dbRaise .valueMismatch "值与列类型不匹配"

/-- `check_assignment_type`: what is untyped passes. -/
def checkAssignmentType (t : TypeAttr) (col : ColumnSpec) : Res Unit :=
  let accept (ok : Bool) : Res Unit := if ok then .ok () else mismatch
  match col.type.rep with
  | .int64 => accept (isIntType t || t.id = 0)
  | .float | .double => accept (isIntType t || isFloatType t || t.rep = .dec || t.id = 0)
  | .str => accept (isTextType t || t.id = 0)
  | .bool => accept (t.rep = .bool || t.id = 0)
  | .dec => accept (isIntType t || t.rep = .dec || t.id = 0)
  | .none => dbRaise .internal "列无类型"

/-- A literal of a `float` column has to be a `float`. -/
def floatLiteralFits (text : Bytes) : Res Bool :=
  match fromChars ⟨52, 11⟩ text with
  | none => dbRaise .internal "字面量文本解析失败"
  | some d => .ok (!d.isFinite || (Flt.convert ⟨23, 8⟩ d).isFinite)

/-- `check_value_type`: literals are checked for their range and length as well. -/
def checkValueType (expr : SqlExpr) (t : TypeAttr) (col : ColumnSpec) : Res Unit := do
  checkAssignmentType t col
  let ok ← match col.type.rep, expr with
    | .float, .float text => floatLiteralFits text
    | .float, .decimal text => floatLiteralFits text
    | .str, .string s => .ok (col.length = 0 || s.length ≤ col.length)
    | _, _ => .ok true
  if !ok then mismatch

/-! ## INSERT -/

/-- Where the values of a row go: column positions in the order of the values, and for
each column whether it has one. -/
structure InsertTargets where
  target : List Nat
  specified : List Bool

/-- One name of a column list. -/
def addTarget (tbl : TableMeta) (t : InsertTargets) (name : String) : Res InsertTargets :=
  match (buildRowDesc tbl).cols.lookup name with
  | none => dbRaise .unknownColumn ("列不存在: " ++ name)
  | some i =>
      if t.specified.getD i false then
        dbRaise .valueMismatch ("插入列清单中列重复: " ++ name)
      else .ok ⟨t.target ++ [i], t.specified.set i true⟩

/-- An empty list stands for all columns in order. -/
def resolveInsertTargets (columns : List String) (tbl : TableMeta) : Res InsertTargets :=
  if columns = [] then
    .ok ⟨List.range tbl.cols.length, List.replicate tbl.cols.length true⟩
  else columns.foldlM (addTarget tbl) ⟨[], List.replicate tbl.cols.length false⟩

/-- A NOT NULL column that is given no value. -/
def checkUnspecified : List ColumnSpec → List Bool → Res Unit
  | col :: cols, given :: specified => do
      if !given && col.notNull then
        dbRaise .valueMismatch ("NOT NULL 列不允许 NULL: " ++ col.name)
      checkUnspecified cols specified
  | _, _ => .ok ()

/-- The values against the columns they go to. -/
def checkValues (tbl : TableMeta) : List SqlExpr → List TypeAttr → List Nat → Res Unit
  | value :: values, type :: types, i :: target =>
      match tbl.cols[i]? with
      | none => .error (.crash "列下标越界")
      | some col => do
          checkValueType value type col
          checkValues tbl values types target
  | _, _, _ => .ok ()

/-- The values at their columns, NULL elsewhere. -/
def placeValues (bound : List BoundExpr) (target : List Nat) (width : Nat) : List BoundExpr :=
  (bound.zip target).foldl (fun row (e, i) => row.set i e)
    (List.replicate width (.const nullVal))

/-- `bind_insert_row`: an expression for every column. -/
def bindInsertRow (values : List SqlExpr) (t : InsertTargets) (tbl : TableMeta) :
    Res (List BoundExpr) := do
  let bound ← bindArgs none values
  if values.length ≠ t.target.length then dbRaise .valueMismatch "值的数量与列数不符"
  checkUnspecified tbl.cols t.specified
  checkValues tbl values (bound.map Prod.snd) t.target
  return placeValues (bound.map Prod.fst) t.target tbl.cols.length

/-! ## UPDATE -/

mutual
def hasColRef : SqlExpr → Bool
  | .int _ | .float _ | .decimal _ | .string _ | .bool _ | .null => false
  | .identifier _ => true
  | .binaryOp _ left right => hasColRef left || hasColRef right
  | .unaryOp _ operand => hasColRef operand
  | .compare _ left right => hasColRef left || hasColRef right
  | .logic _ left right => hasColRef left || hasColRef right
  | .not operand => hasColRef operand
  | .isNull operand _ => hasColRef operand
  | .between expr lo hi => hasColRef expr || hasColRef lo || hasColRef hi
  | .funcCall _ args => anyColRef args
  | .cast operand _ => hasColRef operand

def anyColRef : List SqlExpr → Bool
  | [] => false
  | a :: args => hasColRef a || anyColRef args
end

/-- One assignment of `parse_update`; the constants of an UPDATE are checked like those of an
INSERT. -/
def bindAssignment (tbl : TableMeta) (assigns : List BoundUpdateItem)
    (item : String × SqlExpr) : Res (List BoundUpdateItem) :=
  let rowDesc := buildRowDesc tbl
  match rowDesc.cols.lookup item.1 with
  | none => dbRaise .unknownColumn ("列不存在: " ++ item.1)
  | some i =>
      if assigns.any fun a => a.colIdx = i then
        dbRaise .valueMismatch ("更新列清单中列重复: " ++ item.1)
      else do
        let (value, t) ← bindExpr (some rowDesc) item.2
        match tbl.cols[i]? with
        | none => .error (.crash "列下标越界")
        | some col =>
            if hasColRef item.2 then checkAssignmentType t col else checkValueType item.2 t col
            return assigns ++ [⟨i, value⟩]

/-- The assignments of an UPDATE. -/
def bindAssignments (tbl : TableMeta) (items : List (String × SqlExpr)) :
    Res (List BoundUpdateItem) :=
  items.foldlM (bindAssignment tbl) []

/-! ## Columns without a value -/

/-- Every target is a column that counts as specified. -/
def InsertTargets.Sound (t : InsertTargets) (width : Nat) : Prop :=
  t.specified.length = width ∧ ∀ i ∈ t.target, t.specified[i]? ≠ some false

theorem addTarget_sound {tbl : TableMeta} {t t' : InsertTargets} {name : String} {width : Nat}
    (sound : t.Sound width) (added : addTarget tbl t name = .ok t') : t'.Sound width := by
  unfold addTarget at added
  split at added
  · exact absurd added dbRaise_ne_ok
  · rename_i i found
    split at added
    · exact absurd added dbRaise_ne_ok
    · obtain rfl := Except.ok.inj added
      constructor
      · rw [List.length_set]
        exact sound.1
      · intro j mem
        by_cases same : i = j
        · subst same
          rw [List.getElem?_set_self']
          cases t.specified[i]? <;> simp
        · rw [List.getElem?_set_ne same]
          rcases List.mem_append.mp mem with mem | mem
          · exact sound.2 j mem
          · exact absurd (List.mem_singleton.mp mem).symm same

theorem resolveInsertTargets_sound {columns : List String} {tbl : TableMeta} {t : InsertTargets}
    (resolved : resolveInsertTargets columns tbl = .ok t) : t.Sound tbl.cols.length := by
  unfold resolveInsertTargets at resolved
  split at resolved
  · obtain rfl := Except.ok.inj resolved
    refine ⟨List.length_replicate, ?_⟩
    intro i _
    simp [List.getElem?_replicate]
  · have fold : ∀ (names : List String) (start : InsertTargets), start.Sound tbl.cols.length →
        names.foldlM (addTarget tbl) start = .ok t → t.Sound tbl.cols.length := by
      intro names
      induction names with
      | nil =>
          intro start sound done
          obtain rfl := Except.ok.inj done
          exact sound
      | cons name names inductionHypothesis =>
          intro start sound done
          rw [List.foldlM_cons] at done
          obtain ⟨next, added, rest⟩ := Res.bind_eq_ok.mp done
          exact inductionHypothesis next (addTarget_sound sound added) rest
    apply fold columns _ _ resolved
    refine ⟨List.length_replicate, ?_⟩
    rintro i ⟨⟩

theorem checkUnspecified_spec (cols : List ColumnSpec) (specified : List Bool) :
    ((∃ p ∈ cols.zip specified, p.2 = false ∧ p.1.notNull = true) →
        ∃ text, checkUnspecified cols specified = .error (.raise .valueMismatch text)) ∧
      ((¬ ∃ p ∈ cols.zip specified, p.2 = false ∧ p.1.notNull = true) →
        checkUnspecified cols specified = .ok ()) := by
  induction cols generalizing specified with
  | nil =>
      constructor
      · rintro ⟨p, ⟨⟩, -⟩
      · exact fun _ => rfl
  | cons col cols inductionHypothesis =>
      cases specified with
      | nil =>
          constructor
          · rintro ⟨p, ⟨⟩, -⟩
          · exact fun _ => rfl
      | cons given specified =>
          have rest := inductionHypothesis specified
          rw [checkUnspecified, List.zip_cons_cons]
          by_cases here : given = false ∧ col.notNull = true
          · rw [if_pos (by simp [here])]
            constructor
            · exact fun _ => ⟨_, rfl⟩
            · exact fun none_missing => absurd ⟨_, List.mem_cons_self, here⟩ none_missing
          · have passes : ¬ (!given && col.notNull) = true := by simpa using here
            rw [if_neg passes]
            constructor
            · rintro ⟨p, mem, missing⟩
              rcases List.mem_cons.mp mem with rfl | mem
              · exact absurd missing here
              · exact rest.1 ⟨p, mem, missing⟩
            · intro none_missing
              exact rest.2 fun ⟨p, mem, missing⟩ =>
                none_missing ⟨p, List.mem_cons_of_mem _ mem, missing⟩

theorem length_placeValues (bound : List BoundExpr) (target : List Nat) (width : Nat) :
    (placeValues bound target width).length = width := by
  have fold : ∀ (pairs : List (BoundExpr × Nat)) (row : List BoundExpr),
      (pairs.foldl (fun row (e, i) => row.set i e) row).length = row.length := by
    intro pairs
    induction pairs with
    | nil => exact fun _ => rfl
    | cons pair pairs inductionHypothesis =>
        intro row
        rw [List.foldl_cons, inductionHypothesis, List.length_set]
  rw [placeValues, fold, List.length_replicate]

/-- A column that is no target gets a NULL. -/
theorem placeValues_apart {bound : List BoundExpr} {target : List Nat} {width i : Nat}
    (inside : i < width) (apart : i ∉ target) :
    (placeValues bound target width)[i]? = some (.const nullVal) := by
  have fold : ∀ (pairs : List (BoundExpr × Nat)), (∀ p ∈ pairs, p.2 ≠ i) →
      ∀ row : List BoundExpr, (pairs.foldl (fun row (e, i) => row.set i e) row)[i]? = row[i]? := by
    intro pairs
    induction pairs with
    | nil => exact fun _ _ => rfl
    | cons pair pairs inductionHypothesis =>
        intro elsewhere row
        rw [List.foldl_cons, inductionHypothesis fun p mem => elsewhere p (List.mem_cons_of_mem _ mem)]
        exact List.getElem?_set_ne (elsewhere pair List.mem_cons_self)
  rw [placeValues, fold]
  · rw [List.getElem?_replicate, if_pos inside]
  · rintro ⟨e, j⟩ mem rfl
    exact apart (List.of_mem_zip mem).2

/-- A row is rejected for a column without a value exactly if it is NOT NULL; other such
columns get a NULL. -/
theorem bindInsertRow_null {columns : List String} {tbl : TableMeta} {t : InsertTargets}
    {values : List SqlExpr} {bound : List (BoundExpr × TypeAttr)}
    (resolved : resolveInsertTargets columns tbl = .ok t)
    (bound_eq : bindArgs none values = .ok bound) (count : values.length = t.target.length)
    (checked : checkValues tbl values (bound.map Prod.snd) t.target = .ok ()) :
    ((∃ p ∈ tbl.cols.zip t.specified, p.2 = false ∧ p.1.notNull = true) →
        ∃ text, bindInsertRow values t tbl = .error (.raise .valueMismatch text)) ∧
      ((¬ ∃ p ∈ tbl.cols.zip t.specified, p.2 = false ∧ p.1.notNull = true) →
        ∃ row : List BoundExpr, bindInsertRow values t tbl = .ok row ∧ row.length = tbl.cols.length ∧
          ∀ i : Nat, t.specified[i]? = some false → row[i]? = some (BoundExpr.const nullVal)) := by
  have unspecified := checkUnspecified_spec tbl.cols t.specified
  have sound := resolveInsertTargets_sound resolved
  rw [bindInsertRow, bound_eq, Res.bind_ok]
  rw [if_neg (not_not.mpr count)]
  constructor
  · intro missing
    obtain ⟨text, rejected⟩ := unspecified.1 missing
    exact ⟨text, by rw [rejected]; rfl⟩
  · intro none_missing
    refine ⟨_, by rw [unspecified.2 none_missing, Res.bind_ok, checked]; rfl,
      length_placeValues .., ?_⟩
    intro i free
    apply placeValues_apart
    · rw [← sound.1]
      exact (List.getElem?_eq_some_iff.mp free).1
    · exact fun mem => sound.2 i mem free

end MySimpleDb.Analyzer
