import MySimpleDb.Analyzer.Assign
import MySimpleDb.Executor.Execute
import MySimpleDb.Expr.Order
import MySimpleDb.Expr.Sound
import MySimpleDb.Storage.CodecBytes

/-!
# What a column makes of an assigned value

The static check, the cast table, the range checks and the row encoder agree: a
value that may be assigned is brought into the range of its column and encoded,
or a mismatch is raised.
-/

namespace MySimpleDb.Executor

open MySimpleDb.Lib MySimpleDb.Storage MySimpleDb.Analyzer MySimpleDb.Expr

/-! ## Which assignments are accepted -/

/-- Representations a column of a representation may be assigned. -/
def Accepts : Rep → Rep → Prop
  | .int64, src => src = .int64
  | .float, src | .double, src => src = .int64 ∨ src = .float ∨ src = .double ∨ src = .dec
  | .str, src => src = .str
  | .bool, src => src = .bool
  | .dec, src => src = .int64 ∨ src = .dec
  | .none, _ => False

instance (dst src : Rep) : Decidable (Accepts dst src) := by
  cases dst <;> unfold Accepts <;> infer_instance

/-- A column as the catalog lets it be declared. -/
def DeclaredCol (col : ColumnSpec) : Prop :=
  col.type ∈ kTypeAttrs ∧ CastSpec col.type col.length col.scale

theorem accepts_of_check {t : TypeAttr} {col : ColumnSpec} (mem : t ∈ kTypeAttrs)
    (checked : checkAssignmentType t col = .ok ()) : Accepts col.type.rep t.rep := by
  have named : t.id ≠ 0 := by
    have each : ∀ t ∈ kTypeAttrs, t.id ≠ 0 := by decide
    exact each t mem
  have text : isTextType t = true → t.rep = .str := by
    have each : ∀ t ∈ kTypeAttrs, isTextType t = true → t.rep = .str := by decide
    exact each t mem
  unfold checkAssignmentType mismatch at checked
  cases rep : col.type.rep <;> simp only [rep] at checked <;> unfold Accepts
  · exact absurd checked dbRaise_ne_ok
  · split at checked
    · simp_all [isIntType]
    · exact absurd checked dbRaise_ne_ok
  · split at checked
    · simp_all [isIntType, isFloatType]
      tauto
    · exact absurd checked dbRaise_ne_ok
  · split at checked
    · simp_all [isIntType, isFloatType]
      tauto
    · exact absurd checked dbRaise_ne_ok
  · split at checked
    · simp_all
    · exact absurd checked dbRaise_ne_ok
  · split at checked
    · simp_all
    · exact absurd checked dbRaise_ne_ok
  · split at checked
    · simp_all [isIntType]
    · exact absurd checked dbRaise_ne_ok

/-- What the analyzer accepts has a conversion that an assignment may use. -/
theorem castAllowed_of_accepts {v : Value} {t : TypeAttr} (accepts : Accepts t.rep v.type.rep) :
    CastAllowed v t .assignment := by
  have entry : ∀ dst src : Rep, Accepts dst src → ∃ fn tier, kCastTable src dst = some (fn, tier) ∧
      tier.tier ≤ CastMode.assignment.tier := by
    intro dst src accepts
    cases dst <;> cases src <;> first
      | exact absurd accepts (by decide)
      | exact ⟨_, _, rfl, by decide⟩
  obtain ⟨fn, tier, found, low⟩ := entry _ _ accepts
  refine ⟨(fn, tier), found, ?_⟩
  rw [castTier]
  split
  · exact le_rfl
  · exact low

/-! ## Only mismatches are raised -/

def Mismatch (e : Err) : Prop :=
  ∃ text, e = .raise .valueMismatch text

/-- A call that returns as described or raises a mismatch. -/
abbrev OrMismatch {α : Type} (r : Res α) (post : α → Prop) : Prop :=
  Within Mismatch r post

theorem orMismatch_raise {α : Type} {post : α → Prop} (text : String) :
    OrMismatch (dbRaise .valueMismatch text : Res α) post :=
  Within.error ⟨text, rfl⟩

theorem parseF64_orMismatch (s : Bytes) : OrMismatch (parseF64 s) fun _ => True := by
  unfold parseF64
  extract_lets text
  split
  · apply Within.guard
    · intro _
      exact Within.ok trivial
    · intro _
      exact orMismatch_raise _
  · exact orMismatch_raise _

theorem narrowF32_orMismatch (d : F64) : OrMismatch (narrowF32 d) fun _ => True :=
  Within.guard (fun _ => orMismatch_raise _) fun _ => Within.ok trivial

theorem i64Restamp_orMismatch {v : Value} {t : TypeAttr} {i : Int64} (box : v.box = .int64 i) :
    OrMismatch (i64Restamp v t) fun _ => True := by
  unfold i64Restamp
  rw [getI64_eq_ok.mpr box]
  extract_lets stamp
  apply Within.guard
  · intro _
    apply Within.guard
    · intro _
      exact orMismatch_raise _
    · intro _
      exact Within.ok trivial
  · intro _
    exact Within.ok trivial

/-- The conversions of accepted assignments raise nothing else. -/
theorem castFn_orMismatch {v : Value} {dst : Rep} {fn : CastFn} {tier : CastMode}
    (entry : kCastTable v.box.rep dst = some (fn, tier)) (accepts : Accepts dst v.box.rep)
    (t : TypeAttr) : OrMismatch (fn v t) fun _ => True := by
  rcases v with ⟨type, box⟩
  cases box <;> cases dst <;> dsimp only [Box.rep] at entry accepts <;>
    first
    | exact absurd accepts (by decide)
    | simp only [kCastTable, Option.some.injEq, Prod.mk.injEq] at entry
      obtain ⟨rfl, -⟩ := entry
  case int64.int64 => exact i64Restamp_orMismatch rfl
  case double.float d =>
    have read : OrMismatch (Storage.getF64 ⟨type, .double d⟩) fun _ => True := Within.ok trivial
    apply Within.bind read
    intro d _
    exact Within.bind (narrowF32_orMismatch d) fun _ _ => Within.ok trivial
  case str.str => exact Within.guard (fun _ => Within.ok trivial) fun _ => Within.ok trivial
  case dec.float d =>
    have read : OrMismatch (Storage.getDec ⟨type, .dec d⟩) fun _ => True := Within.ok trivial
    apply Within.bind read
    intro d _
    apply Within.bind (parseF64_orMismatch (decimalToText d))
    intro x _
    exact Within.bind (narrowF32_orMismatch x) fun _ _ => Within.ok trivial
  case dec.double d =>
    have read : OrMismatch (Storage.getDec ⟨type, .dec d⟩) fun _ => True := Within.ok trivial
    apply Within.bind read
    intro d _
    exact Within.bind (parseF64_orMismatch (decimalToText d)) fun _ _ => Within.ok trivial
  all_goals exact Within.ok trivial

/-- An accepted assignment goes through its entry of the table. -/
theorem castValue_entry {v : Value} {t : TypeAttr} (present : v.box ≠ .null)
    (accepts : Accepts t.rep v.type.rep) :
    ∃ fn tier, kCastTable v.type.rep t.rep = some (fn, tier) ∧
      castValue v t .assignment = fn v t := by
  obtain ⟨⟨fn, tier⟩, entry, low⟩ := castAllowed_of_accepts accepts
  have not_null : ¬ valueIsNull v = true := by rwa [valueIsNull_iff]
  refine ⟨fn, tier, entry, ?_⟩
  rw [castValue, if_neg not_null, entry]
  exact if_neg (not_lt.mpr low)

theorem castValue_orMismatch {v : Value} {t : TypeAttr} (present : v.box ≠ .null)
    (rep : v.type.rep = v.box.rep) (accepts : Accepts t.rep v.type.rep) :
    OrMismatch (castValue v t .assignment) fun _ => True := by
  obtain ⟨fn, tier, entry, converts⟩ := castValue_entry present accepts
  rw [converts]
  exact castFn_orMismatch (rep ▸ entry) (rep ▸ accepts) t

/-! ## Values in the range of a column -/

/-- A value of a static type in its range; the length of a stored text takes two bytes. -/
def Assignable (v : Value) (t : TypeAttr) : Prop :=
  Present v t ∧ ∀ s, v.box = .str s → s.length ≤ 65535

variable {v w : Value} {t : TypeAttr} {col : ColumnSpec}

theorem length_rtrimSpace (s : Bytes) : (rtrimSpace s).length ≤ s.length := by
  rw [rtrimSpace, List.length_reverse]
  exact (List.dropWhile_sublist _).length_le.trans (List.length_reverse ..).le

/-- Narrowing keeps to 32 bits. -/
theorem cast_int_range (assignable : Assignable v t) (accepts : Accepts col.type.rep v.type.rep)
    (cast : castValue v col.type .assignment = .ok w) {i : Int64} (box : w.box = .int64 i)
    (dst : col.type.rep = .int64) (width : col.type.width = 4) :
    int32Min ≤ i.toInt ∧ i.toInt ≤ int32Max := by
  obtain ⟨⟨⟨valid, typed⟩, bounded, range⟩, present⟩ := assignable.1
  obtain ⟨mem, rep, -⟩ := valid.resolve_left present
  obtain ⟨fn, tier, entry, converts⟩ := castValue_entry present accepts
  rw [dst] at accepts entry
  have src : v.type.rep = .int64 := accepts
  rw [src] at entry
  simp only [kCastTable, Option.some.injEq, Prod.mk.injEq] at entry
  obtain ⟨rfl, -⟩ := entry
  have widths : ∀ t ∈ kTypeAttrs, t.rep = .int64 → t.width = 4 ∨ t.width = 8 := by decide
  rw [converts, i64Restamp] at cast
  have source : ∃ j, v.box = .int64 j := by
    rw [src] at rep
    cases v_box : v.box <;> rw [v_box] at rep <;> simp only [Box.rep, reduceCtorEq] at rep
    exact ⟨_, rfl⟩
  obtain ⟨j, v_box⟩ := source
  rw [getI64_eq_ok.mpr v_box, Res.bind_ok] at cast
  rcases widths _ mem src with four | eight
  · rw [if_neg (by omega)] at cast
    have same : w = ⟨col.type, v.box⟩ := (Except.ok.inj cast).symm
    rw [same] at box
    exact range i box four
  · rw [if_pos (by omega)] at cast
    split at cast
    · cases cast
    · rename_i within
      have same : w = ⟨col.type, v.box⟩ := (Except.ok.inj cast).symm
      rw [same] at box
      have equal : j = i := by
        rw [v_box] at box
        exact Box.int64.inj box
      rw [← equal]
      omega

/-- Text does not get longer. -/
theorem cast_text_length (assignable : Assignable v t)
    (accepts : Accepts col.type.rep v.type.rep) (cast : castValue v col.type .assignment = .ok w)
    {s : Bytes} (box : w.box = .str s) (dst : col.type.rep = .str) : s.length ≤ 65535 := by
  obtain ⟨⟨⟨valid, typed⟩, bounded, range⟩, present⟩ := assignable.1
  obtain ⟨mem, rep, -⟩ := valid.resolve_left present
  obtain ⟨fn, tier, entry, converts⟩ := castValue_entry present accepts
  rw [dst] at accepts entry
  have src : v.type.rep = .str := accepts
  rw [src] at entry
  simp only [kCastTable, Option.some.injEq, Prod.mk.injEq] at entry
  obtain ⟨rfl, -⟩ := entry
  have source : ∃ u, v.box = .str u := by
    rw [src] at rep
    cases v_box : v.box <;> rw [v_box] at rep <;> simp only [Box.rep, reduceCtorEq] at rep
    exact ⟨_, rfl⟩
  obtain ⟨u, v_box⟩ := source
  have short := assignable.2 u v_box
  rw [converts, textToText] at cast
  split at cast
  · simp only [getStrView, v_box, Res.bind_ok, Res.pure_eq_ok] at cast
    subst cast
    cases box
    exact (length_rtrimSpace u).trans short
  · have same : w = ⟨col.type, v.box⟩ := (Except.ok.inj cast).symm
    rw [same, v_box] at box
    cases box
    exact short

/-- A cast value is in the range of the column's type. -/
theorem castValue_assignable (assignable : Assignable v t) (mem : col.type ∈ kTypeAttrs)
    (accepts : Accepts col.type.rep v.type.rep) :
    OrMismatch (castValue v col.type .assignment) fun w => Assignable w col.type := by
  obtain ⟨⟨⟨valid, typed⟩, bounded, range⟩, present⟩ := assignable.1
  have rep : v.type.rep = v.box.rep := (valid.resolve_left present).2.1
  apply ((castValue_orMismatch present rep accepts).and_of_ok _).mono
  · exact fun w both => both.2
  · intro w cast
    have safe := castValue_safe valid bounded present mem (castAllowed_of_accepts accepts)
    rw [cast] at safe
    obtain ⟨w_bounded, w_typed, w_present⟩ := safe
    have w_type := w_typed.2.resolve_left w_present
    have w_rep : col.type.rep = w.box.rep := w_type ▸ (w_typed.1.resolve_left w_present).2.1
    refine ⟨⟨⟨w_typed, w_bounded, ?_⟩, w_present⟩, ?_⟩
    · intro i box width
      rw [box] at w_rep
      exact cast_int_range assignable accepts cast box w_rep (w_type ▸ width)
    · intro s box
      rw [box] at w_rep
      exact cast_text_length assignable accepts cast box w_rep

theorem coerceScaleUp_orMismatch (n : Nat) (u : Int) :
    OrMismatch (coerceScaleUp n u) fun _ => True := by
  induction n generalizing u with
  | zero => exact Within.ok trivial
  | succ n inductionHypothesis =>
      rw [coerceScaleUp]
      apply Within.guard
      · intro _
        exact orMismatch_raise _
      · intro _
        exact inductionHypothesis _

theorem coerceNumeric_orMismatch (assignable : Assignable v t) (mem : col.type ∈ kTypeAttrs)
    (dec : col.type.rep = .dec) (accepts : Accepts col.type.rep v.type.rep)
    (precision scale : Nat) :
    OrMismatch (coerceNumeric v col.type precision scale .assignment) fun _ => True := by
  unfold coerceNumeric
  apply Within.bind (castValue_assignable assignable mem accepts)
  intro w w_assignable
  have w_rep : w.box.rep = .dec := by rw [w_assignable.1.rep_eq, dec]
  have read : OrMismatch (Storage.getDec w) fun _ => True := by
    cases box : w.box <;> rw [box] at w_rep <;> simp only [Box.rep, reduceCtorEq] at w_rep
    rw [getDec_eq_ok.mpr box]
    exact Within.ok trivial
  apply Within.bind read
  intro d _
  have scaled : OrMismatch (coerceScale d scale) fun _ => True :=
    Within.guard (fun _ => Within.ok trivial) fun _ => coerceScaleUp_orMismatch _ _
  apply Within.bind scaled
  intro u _
  extract_lets build
  apply Within.guard
  · intro _
    exact orMismatch_raise _
  · intro _
    exact Within.ok trivial

/-- What a column makes of an accepted value is in the column's range. -/
theorem coerceColValue_assignable (declared : DeclaredCol col) (assignable : Assignable v t)
    (accepts : Accepts col.type.rep v.type.rep) :
    OrMismatch (coerceColValue col v) fun w => Assignable w col.type := by
  obtain ⟨mem, precision_le, scale_le⟩ := declared
  have present := assignable.1.2
  have not_null : ¬ valueIsNull v = true := by rwa [valueIsNull_iff]
  rw [coerceColValue, if_neg not_null]
  by_cases dec : col.type.rep = .dec
  · rw [if_pos dec]
    by_cases undeclared : col.length = 0
    · rw [if_pos undeclared]
      exact castValue_assignable assignable mem accepts
    · rw [if_neg undeclared]
      obtain ⟨⟨⟨valid, -⟩, bounded, -⟩, -⟩ := assignable.1
      apply ((coerceNumeric_orMismatch assignable mem dec accepts col.length col.scale).and_of_ok
        _).mono
      · exact fun w both => both.2
      · intro w coerced
        have safe := coerceNumeric_safe valid bounded present mem dec
          (castAllowed_of_accepts accepts) (Nat.pos_of_ne_zero undeclared) (precision_le dec)
          scale_le
        rw [coerced] at safe
        obtain ⟨w_bounded, w_typed, w_present⟩ := safe
        have w_rep : w.box.rep = .dec := by
          rw [← (w_typed.1.resolve_left w_present).2.1, w_typed.2.resolve_left w_present, dec]
        refine ⟨⟨⟨w_typed, inRange_of_rep w_bounded (by rw [w_rep]; decide)⟩, w_present⟩, ?_⟩
        intro s box
        rw [box] at w_rep
        cases w_rep
  · rw [if_neg dec]
    exact castValue_assignable assignable mem accepts

/-! ## The row encoder -/

/-- A text that is longer than its column declares. -/
def TooLong (col : ColumnSpec) (w : Value) : Prop :=
  ∃ s, w.box = .str s ∧ (col.type.store = .charPad ∨ 0 < col.length) ∧ col.length < s.length

/-- How the types of a representation are laid out. -/
def Layout (t : TypeAttr) : Rep → Prop
  | .int64 => t.store = .fixed ∧ (t.width = 4 ∨ t.width = 8)
  | .double => t.store = .fixed ∧ t.width = 8
  | .float => t.store = .fixed ∧ t.width = 4
  | .bool => t.store = .fixed ∧ t.width = 1
  | .dec => t.store = .decimal
  | .str => t.store = .varLen ∨ t.store = .charPad
  | .none => False

instance (t : TypeAttr) (rep : Rep) : Decidable (Layout t rep) := by
  cases rep <;> unfold Layout <;> infer_instance

theorem seeded_layout {t : TypeAttr} (mem : t ∈ kTypeAttrs) : Layout t t.rep := by
  have each : ∀ t ∈ kTypeAttrs, Layout t t.rep := by decide
  exact each t mem

theorem encodeValue_text {s : Bytes} {type : TypeAttr} (rep : col.type.rep = .str)
    (layout : col.type.store = .varLen ∨ col.type.store = .charPad) (short : s.length ≤ 65535) :
    (TooLong col ⟨type, .str s⟩ → encodeValue col ⟨type, .str s⟩ = .ok none) ∧
      (¬ TooLong col ⟨type, .str s⟩ → ∃ bytes, encodeValue col ⟨type, .str s⟩ = .ok (some bytes)) := by
  simp only [encodeValue, rep]
  rcases layout with varLen | charPad
  · have not_padded : col.type.store ≠ .charPad := by
      rw [varLen]
      decide
    rw [if_pos varLen, if_neg (by omega)]
    by_cases past : 0 < col.length ∧ col.length < s.length
    · rw [if_pos past]
      constructor
      · exact fun _ => rfl
      · exact fun fits => absurd ⟨s, rfl, .inr past.1, past.2⟩ fits
    · rw [if_neg past]
      constructor
      · rintro ⟨u, same, padded | declared, longer⟩
        · exact absurd padded not_padded
        · cases same
          exact absurd ⟨declared, longer⟩ past
      · exact fun _ => ⟨_, rfl⟩
  · have not_var : col.type.store ≠ .varLen := by
      rw [charPad]
      decide
    rw [if_neg not_var, if_pos charPad]
    by_cases past : col.length < s.length
    · rw [if_pos past]
      constructor
      · exact fun _ => rfl
      · exact fun fits => absurd ⟨s, rfl, .inl charPad, past⟩ fits
    · rw [if_neg past]
      constructor
      · rintro ⟨u, same, -, longer⟩
        cases same
        exact absurd longer past
      · exact fun _ => ⟨_, rfl⟩

/-- A value in the range of its column is encoded unless it is a text that is too long. -/
theorem encodeValue_assignable (mem : col.type ∈ kTypeAttrs) (assignable : Assignable w col.type) :
    (TooLong col w → encodeValue col w = .ok none) ∧
      (¬ TooLong col w → ∃ bytes, encodeValue col w = .ok (some bytes)) := by
  obtain ⟨present, short⟩ := assignable
  have rep := present.rep_eq
  have type := present.type_eq
  have layout := seeded_layout mem
  have finite := (present.1.1.1.resolve_left present.2).2.2
  obtain ⟨⟨-, bounded, range⟩, not_null⟩ := present
  rcases w with ⟨w_type, box⟩
  dsimp only at rep type finite bounded range not_null short
  have accepted : (∀ s, box ≠ .str s) → (∃ bytes, encodeValue col ⟨w_type, box⟩ = .ok (some bytes)) →
      (TooLong col ⟨w_type, box⟩ → encodeValue col ⟨w_type, box⟩ = .ok none) ∧
        (¬ TooLong col ⟨w_type, box⟩ → ∃ bytes, encodeValue col ⟨w_type, box⟩ = .ok (some bytes)) := by
    intro no_text encoded
    constructor
    · rintro ⟨s, same, -⟩
      exact absurd same (no_text s)
    · exact fun _ => encoded
  cases box with
  | null => exact absurd rfl not_null
  | str s =>
      rw [← rep] at layout
      exact encodeValue_text rep.symm layout (short s rfl)
  | int64 i =>
      apply accepted (by simp)
      rw [← rep] at layout
      simp only [encodeValue, ← rep, Box.rep]
      rw [if_neg (not_not.mpr layout.1)]
      rcases layout.2 with four | eight
      · have within := range i rfl (type ▸ four)
        rw [if_pos four, if_neg (by omega)]
        exact ⟨_, rfl⟩
      · rw [if_neg (by omega), if_pos eight]
        exact ⟨_, rfl⟩
  | double d =>
      apply accepted (by simp)
      rw [← rep] at layout
      have finite : d.isFinite = true := finite
      simp [encodeValue, ← rep, Box.rep, finite, layout.1, layout.2]
  | float x =>
      apply accepted (by simp)
      rw [← rep] at layout
      have finite : x.isFinite = true := finite
      simp [encodeValue, ← rep, Box.rep, finite, layout.1, layout.2]
  | bool b =>
      apply accepted (by simp)
      rw [← rep] at layout
      simp [encodeValue, ← rep, Box.rep, layout.1, layout.2]
  | dec d =>
      apply accepted (by simp)
      rw [← rep] at layout
      have small : ¬ kNumericUnscaledMax ≤ |d.unscaled| := not_le.mpr bounded.1
      have decimal : col.type.store = .decimal := layout
      simp [encodeValue, ← rep, Box.rep, small, decimal]

/-- The one-column row of a value that is not NULL. -/
theorem encodeRow_singleton (present : w.box ≠ .null) :
    (encodeValue col w = .ok none → encodeRow [col] [w] = .ok none) ∧
      ∀ bytes, encodeValue col w = .ok (some bytes) →
        ∃ out, encodeRow [col] [w] = .ok (some out) := by
  have not_null : ¬ valueIsNull w = true := by rwa [valueIsNull_iff]
  constructor
  · intro rejected
    simp [encodeRow, encodeCols, not_null, rejected]
  · intro bytes encoded
    simp [encodeRow, encodeCols, not_null, encoded]

/-! ## What is read back -/

/-- Assignments that keep the value: to the same type, and to a wider number. -/
inductive KeepsValue : TypeAttr → ColumnSpec → Prop
  | same {t : TypeAttr} {col : ColumnSpec} (type : t = col.type)
      (undeclared : t.rep = .dec → col.length = 0) : KeepsValue t col
  | intToBigint {col : ColumnSpec} (type : col.type = kBigint) : KeepsValue kInt col
  | intToNumeric {t : TypeAttr} {col : ColumnSpec} (int : t = kInt ∨ t = kBigint)
      (type : col.type = kNumeric) (undeclared : col.length = 0) : KeepsValue t col
  | floatToDouble {col : ColumnSpec} (type : col.type = kDouble) : KeepsValue kFloat col

theorem rtrimSpace_padded (s : Bytes) (n : Nat) :
    rtrimSpace (s ++ List.replicate n 32) = rtrimSpace s := by
  have spaces : ∀ rest : Bytes, (List.replicate n (32 : UInt8) ++ rest).dropWhile (· == 32) =
      rest.dropWhile (· == 32) := by
    intro rest
    induction n with
    | zero => rfl
    | succ n inductionHypothesis =>
        rw [List.replicate_succ, List.cons_append, List.dropWhile_cons_of_pos (by rfl),
          inductionHypothesis]
  rw [rtrimSpace, List.reverse_append, List.reverse_replicate, spaces, rtrimSpace]

theorem valueCmp_zero {a b : Value} (a_typed : a.OfType t) (b_typed : b.OfType t)
    (same : valueRank a = valueRank b) : valueCmp a b = .ok 0 := by
  obtain ⟨c, compared, below, above⟩ := valueCmp_measures a b a_typed b_typed
  rw [same] at below above
  have zero : c = 0 := by
    have not_below : ¬ c < 0 := fun less => lt_irrefl _ (below.mp less)
    have not_above : ¬ 0 < c := fun more => lt_irrefl _ (above.mp more)
    omega
  rw [compared, zero]

/-- A value of the column's own type is stored as it is, or padded. -/
theorem stored_same (assignable : Assignable v col.type) :
    (stored col v).OfType col.type ∧ valueRank (stored col v) = valueRank v := by
  have present := assignable.1.2
  have type := assignable.1.type_eq
  have rep := assignable.1.rep_eq
  have bounded := assignable.1.1.2.1
  have v_typed := assignable.1.1.1
  rcases v with ⟨v_type, box⟩
  dsimp only at type rep present bounded
  subst type
  cases box with
  | null => exact absurd rfl present
  | int64 i => exact ⟨v_typed, rfl⟩
  | double d => exact ⟨v_typed, rfl⟩
  | float x => exact ⟨v_typed, rfl⟩
  | bool b => exact ⟨v_typed, rfl⟩
  | dec d =>
      have scale : d.scale % 256 = d.scale := Nat.mod_eq_of_lt (Nat.lt_succ_of_le bounded.2)
      have same : stored col ⟨col.type, .dec d⟩ = ⟨col.type, .dec d⟩ := by
        simp only [stored, numericVal, scale]
      rw [same]
      exact ⟨v_typed, rfl⟩
  | str s =>
      have mem := assignable.1.mem
      have str_typed : ∀ u : Bytes, (strVal col.type u).OfType col.type := fun u =>
        Value.OfType.mk mem rep.symm trivial
      unfold stored
      dsimp only
      by_cases padded : col.type.store = .charPad
      · rw [if_pos padded]
        refine ⟨str_typed _, ?_⟩
        have key : ∀ u : Bytes, textKey (strVal col.type u) = (rtrimSpace u).map UInt8.toNat := by
          intro u
          simp only [textKey, strVal, compareView, padded, if_true]
        have no_null : ∀ u : Bytes, (strVal col.type u).box ≠ .null := by
          intro u
          simp [strVal]
        change valueRank (strVal col.type _) = valueRank (strVal col.type s)
        rw [valueRank, valueRank, if_neg (no_null _), if_neg (no_null s), key, key,
          rtrimSpace_padded]
        rfl
      · rw [if_neg padded]
        exact ⟨str_typed _, rfl⟩

/-- A cast to a value's own type leaves it. -/
theorem castValue_same (present : Present v t) : castValue v t .assignment = .ok v := by
  have type := present.type_eq
  have rep := present.rep_eq
  have accepts : Accepts t.rep v.type.rep := by
    have each : ∀ t ∈ kTypeAttrs, Accepts t.rep t.rep := by decide
    rw [type]
    exact each t present.mem
  obtain ⟨fn, tier, entry, converts⟩ := castValue_entry present.2 accepts
  have stamped : (⟨t, v.box⟩ : Value) = v := by
    rw [← type]
  rw [converts]
  rw [type] at entry
  have not_null := present.2
  clear converts accepts
  cases dst : t.rep <;> rw [dst] at entry rep <;>
    simp only [kCastTable, Option.some.injEq, Prod.mk.injEq, reduceCtorEq] at entry <;>
    obtain ⟨rfl, -⟩ := entry
  · have source : ∃ i, v.box = .int64 i := by
      cases box : v.box <;> rw [box] at rep <;> simp only [Box.rep, reduceCtorEq] at rep
      exact ⟨_, rfl⟩
    obtain ⟨i, box⟩ := source
    rw [i64Restamp, type, if_neg (lt_irrefl _), stamped]
    rfl
  · exact congrArg Except.ok stamped
  · exact congrArg Except.ok stamped
  · have apart : ¬ (v.type.store = .charPad ∧ t.store = .varLen) := by
      rw [type]
      rintro ⟨padded, varLen⟩
      rw [padded] at varLen
      cases varLen
    rw [textToText, if_neg apart, stamped]
  · exact congrArg Except.ok stamped
  · exact congrArg Except.ok stamped

theorem coerceColValue_cast (present : v.box ≠ .null)
    (undeclared : col.type.rep = .dec → col.length = 0) :
    coerceColValue col v = castValue v col.type .assignment := by
  have not_null : ¬ valueIsNull v = true := by rwa [valueIsNull_iff]
  rw [coerceColValue, if_neg not_null]
  by_cases dec : col.type.rep = .dec
  · rw [if_pos dec, if_pos (undeclared dec)]
  · rw [if_neg dec]

theorem int_value (present : Present v t) (int : t.rep = .int64) :
    ∃ i, v = ⟨t, .int64 i⟩ := by
  have rep := present.rep_eq
  have type := present.type_eq
  rcases v with ⟨v_type, box⟩
  rw [int] at rep
  cases box <;> simp only [Box.rep, reduceCtorEq] at rep
  exact ⟨_, congrArg (Value.mk · _) type⟩

theorem float_value (present : Present v kFloat) : ∃ x, v = ⟨kFloat, .float x⟩ := by
  have rep := present.rep_eq
  have type := present.type_eq
  rcases v with ⟨v_type, box⟩
  rw [show kFloat.rep = .float from rfl] at rep
  cases box <;> simp only [Box.rep, reduceCtorEq] at rep
  exact ⟨_, congrArg (Value.mk · _) type⟩

/-- A kept value is stored so that it compares equal. -/
theorem keepsValue_stored (keeps : KeepsValue t col) (assignable : Assignable v t) :
    ∃ w, coerceColValue col v = .ok w ∧ valueCmp (stored col w) v = .ok 0 := by
  have present := assignable.1.2
  have type := assignable.1.type_eq
  have rep := assignable.1.rep_eq
  cases keeps with
  | same type_eq undeclared =>
      subst type_eq
      refine ⟨v, ?_, ?_⟩
      · rw [coerceColValue_cast present undeclared, castValue_same assignable.1]
      · obtain ⟨typed, rank⟩ := stored_same assignable
        exact valueCmp_zero typed assignable.1.1.1 rank
  | intToBigint type_eq =>
      obtain ⟨i, rfl⟩ := int_value assignable.1 rfl
      have not_dec : col.type.rep = .dec → col.length = 0 := by
        rw [type_eq]
        rintro ⟨⟩
      refine ⟨⟨kBigint, .int64 i⟩, ?_, ?_⟩
      · rw [coerceColValue_cast present not_dec, type_eq]
        rfl
      · simp [stored, type_eq, valueCmp, valueIsNull, kBigint, kInt, numCmp]
  | intToNumeric int type_eq undeclared =>
      have int_rep : t.rep = .int64 := by
        rcases int with rfl | rfl <;> rfl
      have family : t.family = .num := by
        rcases int with rfl | rfl <;> rfl
      obtain ⟨i, rfl⟩ := int_value assignable.1 int_rep
      refine ⟨⟨kNumeric, .dec ⟨i.toInt, 0⟩⟩, ?_, ?_⟩
      · rw [coerceColValue_cast present (fun _ => undeclared), type_eq]
        rcases int with rfl | rfl <;> rfl
      · have stored_eq : stored col ⟨kNumeric, .dec ⟨i.toInt, 0⟩⟩ = ⟨kNumeric, .dec ⟨i.toInt, 0⟩⟩ := by
          simp only [stored, type_eq, numericVal, Nat.zero_mod]
        have number : boxNumber (.dec ⟨i.toInt, 0⟩) = boxNumber (.int64 i) := by
          simp [boxNumber, DecimalVal.toRat]
        have compared : valueCmp ⟨kNumeric, .dec ⟨i.toInt, 0⟩⟩ ⟨t, .int64 i⟩ =
            numCmp ⟨kNumeric, .dec ⟨i.toInt, 0⟩⟩ ⟨t, .int64 i⟩ := by
          simp [valueCmp, valueIsNull, kNumeric, family]
        rw [stored_eq, compared, numCmp_exact (.inr rfl) (.inl rfl), number]
        simp [threeWay]
  | floatToDouble type_eq =>
      obtain ⟨x, rfl⟩ := float_value assignable.1
      have cast : castValue ⟨kFloat, .float x⟩ kDouble .assignment =
          .ok ⟨kDouble, .double (widenF64 x)⟩ := rfl
      have finite : (widenF64 x).isFinite = true :=
        ((castValue_typed assignable.1.1.1.1 (by decide) cast).1.1.resolve_left (by simp)).2.2
      have not_dec : col.type.rep = .dec → col.length = 0 := by
        rw [type_eq]
        rintro ⟨⟩
      refine ⟨⟨kDouble, .double (widenF64 x)⟩, ?_, ?_⟩
      · rw [coerceColValue_cast present not_dec, type_eq, cast]
      · have stored_eq : stored col ⟨kDouble, .double (widenF64 x)⟩ =
            ⟨kDouble, .double (widenF64 x)⟩ := by
          simp only [stored, type_eq]
        have compared : valueCmp ⟨kDouble, .double (widenF64 x)⟩ ⟨kFloat, .float x⟩ =
            .ok (f64Cmp (widenF64 x) (widenF64 x)) := by
          have read := boxF64_double (show kDouble.rep = .double from rfl) (widenF64 x)
          have read' := boxF64_float (show kFloat.rep = .float from rfl) x
          simp only [valueCmp, valueIsNull, numCmp, read, read', Res.bind_ok]
          rfl
        rw [stored_eq, compared, f64Cmp_eq finite finite]
        simp [threeWay]

/-- A `bigint` goes into an `int` column exactly if it has 32 bits. -/
theorem coerce_bigint_int (i : Int64) (type : col.type = kInt) :
    (int32Min ≤ i.toInt ∧ i.toInt ≤ int32Max →
        coerceColValue col ⟨kBigint, .int64 i⟩ = .ok ⟨kInt, .int64 i⟩ ∧
          stored col ⟨kInt, .int64 i⟩ = ⟨kInt, .int64 i⟩) ∧
      (¬ (int32Min ≤ i.toInt ∧ i.toInt ≤ int32Max) →
        ∃ text, coerceColValue col ⟨kBigint, .int64 i⟩ = .error (.raise .valueMismatch text)) := by
  have not_dec : col.type.rep = .dec → col.length = 0 := by
    rw [type]
    rintro ⟨⟩
  have narrows : coerceColValue col ⟨kBigint, .int64 i⟩ =
      if i.toInt < int32Min ∨ int32Max < i.toInt then
        dbRaise .valueMismatch "整型值超出 int 可表示范围"
      else .ok ⟨kInt, .int64 i⟩ := by
    rw [coerceColValue_cast (by simp) not_dec, type]
    rfl
  rw [narrows]
  constructor
  · intro within
    rw [if_neg (by omega)]
    refine ⟨rfl, ?_⟩
    simp only [stored, type]
  · intro outside
    rw [if_pos (by omega)]
    exact ⟨_, rfl⟩

/-! ## NULL -/

theorem coerceColValue_null (null : v.box = .null) :
    (col.notNull = true → ∃ text, coerceColValue col v = .error (.raise .valueMismatch text)) ∧
      (col.notNull = false → coerceColValue col v = .ok v) := by
  rw [coerceColValue, if_pos (valueIsNull_iff.mpr null)]
  constructor
  · intro notNull
    rw [if_pos notNull]
    exact ⟨_, rfl⟩
  · intro nullable
    rw [if_neg (by rw [nullable]; decide)]

/-- A value that its column takes unless it is a NULL the column does not allow. -/
def Takes (col : ColumnSpec) (v : Value) : Prop :=
  v.box ≠ .null → ∃ w, coerceColValue col v = .ok w

/-- A NULL of a NOT NULL column. -/
def NullRejected (col : ColumnSpec) (v : Value) : Prop :=
  v.box = .null ∧ col.notNull = true

theorem coerceColValue_takes (takes : Takes col v) :
    (NullRejected col v → ∃ text, coerceColValue col v = .error (.raise .valueMismatch text)) ∧
      (¬ NullRejected col v → ∃ w, coerceColValue col v = .ok w) := by
  constructor
  · rintro ⟨null, notNull⟩
    exact (coerceColValue_null null).1 notNull
  · intro allowed
    by_cases null : v.box = .null
    · refine ⟨v, (coerceColValue_null null).2 ?_⟩
      rw [← Bool.not_eq_true]
      exact fun notNull => allowed ⟨null, notNull⟩
    · exact takes null

/-- The values of a new row: a NULL is rejected exactly in a NOT NULL column. -/
theorem insertValues_null {cols : List ColumnSpec} {row : List BoundExpr} {vs : List Value}
    (evaluated : List.Forall₂ (fun e v => evalConst e = .ok v) row vs)
    (width : row.length ≤ cols.length) (takes : ∀ p ∈ cols.zip vs, Takes p.1 p.2) :
    ((∃ p ∈ cols.zip vs, NullRejected p.1 p.2) →
        ∃ text, insertValues cols row = .error (.raise .valueMismatch text)) ∧
      ((¬ ∃ p ∈ cols.zip vs, NullRejected p.1 p.2) → ∃ values, insertValues cols row = .ok values) := by
  induction evaluated generalizing cols with
  | nil =>
      constructor
      · rintro ⟨p, mem, -⟩
        rw [List.zip_nil_right] at mem
        cases mem
      · intro _
        cases cols <;> exact ⟨_, rfl⟩
  | cons first later inductionHypothesis =>
      rename_i e v row vs
      cases cols with
      | nil => cases width
      | cons col cols =>
          rw [List.zip_cons_cons] at takes
          have column := coerceColValue_takes (takes _ List.mem_cons_self)
          have rest := inductionHypothesis (Nat.le_of_succ_le_succ width)
            fun p mem => takes p (List.mem_cons_of_mem _ mem)
          rw [insertValues, first, Res.bind_ok, List.zip_cons_cons]
          by_cases here : NullRejected col v
          · obtain ⟨text, rejected⟩ := column.1 here
            constructor
            · intro _
              exact ⟨text, by rw [rejected]; rfl⟩
            · intro none_rejected
              exact absurd ⟨_, List.mem_cons_self, here⟩ none_rejected
          · obtain ⟨w, coerced⟩ := column.2 here
            rw [coerced, Res.bind_ok]
            constructor
            · rintro ⟨p, mem, rejected⟩
              rcases List.mem_cons.mp mem with rfl | mem
              · exact absurd rejected here
              · obtain ⟨text, later_rejected⟩ := rest.1 ⟨p, mem, rejected⟩
                exact ⟨text, by rw [later_rejected]; rfl⟩
            · intro none_rejected
              obtain ⟨values, inserted⟩ := rest.2 fun ⟨p, mem, rejected⟩ =>
                none_rejected ⟨p, List.mem_cons_of_mem _ mem, rejected⟩
              exact ⟨w :: values, by rw [inserted]; rfl⟩

/-- The values of an updated row. -/
theorem assignAll_null {cols : List ColumnSpec} {assigns : List BoundUpdateItem} {old : Row}
    {target : BoundUpdateItem → ColumnSpec × Value}
    (evaluated : ∀ a ∈ assigns, cols[a.colIdx]? = some (target a).1 ∧
      evalRow a.value old = .ok (target a).2)
    (takes : ∀ a ∈ assigns, Takes (target a).1 (target a).2) :
    ((∃ a ∈ assigns, NullRejected (target a).1 (target a).2) →
        ∃ text, assignAll cols assigns old = .error (.raise .valueMismatch text)) ∧
      ((¬ ∃ a ∈ assigns, NullRejected (target a).1 (target a).2) →
        ∃ vals, assignAll cols assigns old = .ok vals) := by
  suffices past : ∀ vals : List Value,
      ((∃ a ∈ assigns, NullRejected (target a).1 (target a).2) →
        ∃ text, assigns.foldlM (assign cols old) vals = .error (.raise .valueMismatch text)) ∧
      ((¬ ∃ a ∈ assigns, NullRejected (target a).1 (target a).2) →
        ∃ vals', assigns.foldlM (assign cols old) vals = .ok vals') from past old.values
  induction assigns with
  | nil =>
      intro vals
      constructor
      · rintro ⟨a, ⟨⟩, -⟩
      · exact fun _ => ⟨vals, rfl⟩
  | cons a assigns inductionHypothesis =>
      intro vals
      obtain ⟨column, value⟩ := evaluated a List.mem_cons_self
      have coerced := coerceColValue_takes (takes a List.mem_cons_self)
      have rest := inductionHypothesis (fun b mem => evaluated b (List.mem_cons_of_mem _ mem))
        fun b mem => takes b (List.mem_cons_of_mem _ mem)
      have step : assign cols old vals a = (do
          let v ← coerceColValue (target a).1 (target a).2
          return vals.set a.colIdx v) := by
        simp only [assign, column, value, Res.bind_ok]
      rw [List.foldlM_cons, step]
      by_cases here : NullRejected (target a).1 (target a).2
      · obtain ⟨text, rejected⟩ := coerced.1 here
        constructor
        · intro _
          exact ⟨text, by rw [rejected]; rfl⟩
        · intro none_rejected
          exact absurd ⟨_, List.mem_cons_self, here⟩ none_rejected
      · obtain ⟨w, taken⟩ := coerced.2 here
        rw [taken, Res.bind_ok]
        constructor
        · rintro ⟨b, mem, rejected⟩
          rcases List.mem_cons.mp mem with rfl | mem
          · exact absurd rejected here
          · exact (rest _).1 ⟨b, mem, rejected⟩
        · intro none_rejected
          exact (rest _).2 fun ⟨b, mem, rejected⟩ =>
            none_rejected ⟨b, List.mem_cons_of_mem _ mem, rejected⟩

/-! ## Assignment -/

/-- What a row gives back for one of its values. -/
theorem decodeRow_stored_at {cols : List ColumnSpec} {values : List Value} {bytes : Bytes} {i : Nat}
    (column : cols[i]? = some col) (value : values[i]? = some w)
    (encoded : encodeRow cols values = .ok (some bytes)) (short : bytes.length ≤ maxRecordLen) :
    ∃ back, decodeRow cols bytes = .ok (some back) ∧ back[i]? = some (stored col w) := by
  refine ⟨List.zipWith stored cols values, ?_, ?_⟩
  · apply decodeRow_encodeRow encoded
    unfold maxRecordLen pageSize at short
    omega
  · rw [List.getElem?_zipWith, column, value]

end MySimpleDb.Executor
