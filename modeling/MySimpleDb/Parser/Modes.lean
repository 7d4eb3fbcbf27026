import MySimpleDb.Lib.DecimalText
import MySimpleDb.Lib.Flex

/-!
# Where a character of SQL text stands

Outside of quotes and comments a semicolon ends a statement.  What a character
belongs to is a matter of the characters before it, so one pass over the text
marks every semicolon that ends a statement; both scanners agree with it.
-/

namespace MySimpleDb.Parser

open MySimpleDb.Lib

/-! ## Characters -/

abbrev newline : UInt8 := 10
abbrev quote : UInt8 := 39
abbrev doubleQuote : UInt8 := 34
abbrev asterisk : UInt8 := 42
abbrev hyphen : UInt8 := 45
abbrev solidus : UInt8 := 47
abbrev semicolon : UInt8 := 59

def isSpace (c : UInt8) : Bool :=
  c = 32 || c = 9 || c = 13 || c = newline

/-- A character that leaves plain text as it is. -/
def isOrdinary (c : UInt8) : Bool :=
  c ≠ quote && c ≠ doubleQuote && c ≠ hyphen && c ≠ solidus && c ≠ semicolon

theorem isOrdinary_of_isSpace {c : UInt8} (space : isSpace c = true) : isOrdinary c = true := by
  simp only [isSpace, Bool.or_eq_true, decide_eq_true_eq] at space
  rcases space with ((rfl | rfl) | rfl) | rfl <;> rfl

/-! ## Modes -/

/-- What the next character belongs to; after a `-`, a `/`, or an asterisk in a block comment it
may complete a pair. -/
inductive Mode
  | plain | hyphen | solidus
  | quoted (q : UInt8)
  | line
  | block | asterisk

namespace Mode

/-- The mode behind a character that completes no pair. -/
def ofPlain (c : UInt8) : Mode :=
  if c = Parser.quote ∨ c = doubleQuote then quoted c
  else if c = Parser.hyphen then hyphen
  else if c = Parser.solidus then solidus
  else plain

def step : Mode → UInt8 → Mode
  | plain, c => ofPlain c
  | hyphen, c => if c = Parser.hyphen then line else ofPlain c
  | solidus, c => if c = Parser.asterisk then block else ofPlain c
  | quoted q, c => if c = q then plain else quoted q
  | line, c => if c = newline then plain else line
  | block, c => if c = Parser.asterisk then asterisk else block
  | asterisk, c =>
      if c = Parser.solidus then plain else if c = Parser.asterisk then asterisk else block

/-- The character ends a statement. -/
def ends : Mode → UInt8 → Bool
  | plain, c | hyphen, c | solidus, c => c = semicolon
  | _, _ => false

end Mode

/-! ## Marks -/

/-- Characters, each with whether it ends a statement. -/
abbrev Marked : Type := List (UInt8 × Bool)

def marks : Mode → Bytes → Marked
  | _, [] => []
  | m, c :: text => (c, m.ends c) :: marks (m.step c) text

/-- Text in which no statement ends. -/
def unmarked (w : Bytes) : Marked :=
  w.map fun c => (c, false)

@[simp] theorem unmarked_nil : unmarked [] = [] :=
  rfl

@[simp] theorem unmarked_cons (c : UInt8) (w : Bytes) :
    unmarked (c :: w) = (c, false) :: unmarked w :=
  rfl

@[simp] theorem unmarked_append (u v : Bytes) : unmarked (u ++ v) = unmarked u ++ unmarked v :=
  List.map_append

theorem map_fst_marks (m : Mode) (text : Bytes) : (marks m text).map Prod.fst = text := by
  induction text generalizing m with
  | nil => rfl
  | cons c text inductionHypothesis => rw [marks, List.map_cons, inductionHypothesis]

/-- Only semicolons end a statement. -/
theorem eq_semicolon_of_mark {m : Mode} {text : Bytes} {c : UInt8}
    (mem : (c, true) ∈ marks m text) : c = semicolon := by
  induction text generalizing m with
  | nil => cases mem
  | cons d text inductionHypothesis =>
      rcases List.mem_cons.mp mem with same | mem
      · obtain ⟨rfl, ends⟩ := Prod.mk.inj same
        cases m <;> simp only [Mode.ends] at ends <;>
          first | exact of_decide_eq_true ends.symm | cases ends
      · exact inductionHypothesis mem

/-- Behind the text, in which no statement ends, the mode is another. -/
def Passes (m : Mode) (w : Bytes) (m' : Mode) : Prop :=
  ∀ rest, marks m (w ++ rest) = unmarked w ++ marks m' rest

namespace Passes

variable {m m' m'' : Mode} {u v w : Bytes} {c q : UInt8}

theorem nil (m : Mode) : Passes m [] m :=
  fun _ => rfl

theorem append (first : Passes m u m') (second : Passes m' v m'') : Passes m (u ++ v) m'' := by
  intro rest
  rw [List.append_assoc, first, second, unmarked_append, List.append_assoc]

theorem single (silent : m.ends c = false) : Passes m [c] (m.step c) := by
  intro rest
  change (c, m.ends c) :: marks (m.step c) rest = _
  rw [silent]
  rfl

theorem cons (silent : m.ends c = false) (next : Passes (m.step c) w m') : Passes m (c :: w) m' :=
  append (single silent) next

/-- Text over a class whose characters stay in the mode. -/
theorem of_forall {p : UInt8 → Prop} (stays : ∀ c, p c → m.step c = m ∧ m.ends c = false)
    (all : ∀ c ∈ w, p c) : Passes m w m := by
  induction w with
  | nil => exact nil m
  | cons c w inductionHypothesis =>
      obtain ⟨same, silent⟩ := stays c (all c List.mem_cons_self)
      refine cons silent ?_
      rw [same]
      exact inductionHypothesis fun d mem => all d (List.mem_cons_of_mem _ mem)

end Passes

section Pieces

variable {c q : UInt8} {w : Bytes}

theorem isOrdinary_iff : isOrdinary c = true ↔
    c ≠ quote ∧ c ≠ doubleQuote ∧ c ≠ hyphen ∧ c ≠ solidus ∧ c ≠ semicolon := by
  simp [isOrdinary, and_assoc]

theorem passes_plain (ordinary : ∀ c ∈ w, isOrdinary c = true) : Passes .plain w .plain := by
  refine Passes.of_forall (p := fun c => isOrdinary c = true) (fun c ordinary => ?_) ordinary
  obtain ⟨not_quote, not_double, not_hyphen, not_solidus, not_end⟩ := isOrdinary_iff.mp ordinary
  constructor
  · rw [Mode.step, Mode.ofPlain, if_neg (not_or.mpr ⟨not_quote, not_double⟩), if_neg not_hyphen,
      if_neg not_solidus]
  · exact decide_eq_false not_end

theorem passes_open (isQuote : q = quote ∨ q = doubleQuote) : Passes .plain [q] (.quoted q) := by
  rcases isQuote with rfl | rfl <;> exact Passes.single rfl

theorem passes_quoted (others : ∀ c ∈ w, c ≠ q) : Passes (.quoted q) w (.quoted q) :=
  Passes.of_forall (p := fun c => c ≠ q) (fun _ other => ⟨if_neg other, rfl⟩) others

theorem passes_close : Passes (.quoted q) [q] .plain := by
  have closes : (Mode.quoted q).step q = .plain := if_pos rfl
  rw [← closes]
  exact Passes.single rfl

/-- A doubled quote closes and opens. -/
theorem passes_doubled (isQuote : q = quote ∨ q = doubleQuote) :
    Passes (.quoted q) [q, q] (.quoted q) :=
  Passes.append passes_close (passes_open isQuote)

theorem passes_lineStart : Passes .plain [hyphen, hyphen] .line :=
  Passes.cons rfl (Passes.single rfl)

theorem passes_line (others : ∀ c ∈ w, c ≠ newline) : Passes .line w .line :=
  Passes.of_forall (p := fun c => c ≠ newline) (fun _ other => ⟨if_neg other, rfl⟩) others

theorem passes_lineEnd : Passes .line [newline] .plain :=
  Passes.single rfl

theorem passes_blockStart : Passes .plain [solidus, asterisk] .block :=
  Passes.cons rfl (Passes.single rfl)

end Pieces

/-! ## Looking ahead -/

/-- A hyphen before no other hyphen is a character of its own. -/
theorem marks_hyphen {rest : Bytes} (alone : ∀ r, rest ≠ hyphen :: r) :
    marks .plain (hyphen :: rest) = (hyphen, false) :: marks .plain rest := by
  cases rest with
  | nil => rfl
  | cons c rest =>
      have other : c ≠ hyphen := fun same => alone rest (by rw [same])
      have step : Mode.step .hyphen c = Mode.step .plain c := if_neg other
      change _ :: (c, _) :: marks (Mode.step .hyphen c) rest = _
      rw [step]
      rfl

/-- A solidus before no asterisk is a character of its own. -/
theorem marks_solidus {rest : Bytes} (alone : ∀ r, rest ≠ asterisk :: r) :
    marks .plain (solidus :: rest) = (solidus, false) :: marks .plain rest := by
  cases rest with
  | nil => rfl
  | cons c rest =>
      have other : c ≠ asterisk := fun same => alone rest (by rw [same])
      have step : Mode.step .solidus c = Mode.step .plain c := if_neg other
      change _ :: (c, _) :: marks (Mode.step .solidus c) rest = _
      rw [step]
      rfl

/-- Before no solidus an asterisk does not close a comment. -/
theorem marks_asterisk {rest : Bytes} (open_ : ∀ r, rest ≠ solidus :: r) :
    marks .asterisk rest = marks .block rest := by
  cases rest with
  | nil => rfl
  | cons c rest =>
      have other : c ≠ solidus := fun same => open_ rest (by rw [same])
      have step : Mode.step .asterisk c = Mode.step .block c := if_neg other
      change (c, _) :: marks (Mode.step .asterisk c) rest = _
      rw [step]
      rfl

/-- At the end of its line a line comment is over. -/
theorem marks_line {rest : Bytes} (over_ : ∀ c r, rest = c :: r → c = newline) :
    marks .line rest = marks .plain rest := by
  cases rest with
  | nil => rfl
  | cons c rest =>
      cases over_ c rest rfl
      rfl

/-! ## Block comments -/

/-- `"*"+"/"` -/
def blockEndPattern : Pattern UInt8 :=
  .seq (.plus (.one fun c => c = asterisk)) (.one fun c => c = solidus)

/-- `[^*]+|"*"+` -/
def blockTextPattern : Pattern UInt8 :=
  .alt (.plus (.one fun c => c ≠ asterisk)) (.plus (.one fun c => c = asterisk))

/-- Matches of a repeated class. -/
theorem matches_plus_one_iff {p : UInt8 → Bool} {w : Bytes} :
    (Pattern.plus (.one p)).Matches w ↔ w ≠ [] ∧ ∀ c ∈ w, p c = true := by
  constructor
  · intro matched
    constructor
    · obtain ⟨u, v, rfl, first, -⟩ := Pattern.matches_seq_iff.mp matched
      obtain ⟨a, rfl, -⟩ := Pattern.matches_one_iff.mp first
      exact List.cons_ne_nil _ _
    · exact matched.over (p := fun c => p c = true) ⟨fun _ inClass => inClass,
        fun _ inClass => inClass⟩
  · rintro ⟨some, all⟩
    have stars : ∀ w : Bytes, (∀ c ∈ w, p c = true) → (Pattern.star (.one p)).Matches w := by
      intro w all
      induction w with
      | nil => exact .none
      | cons c w inductionHypothesis =>
          exact .more (.one (all c List.mem_cons_self))
            (inductionHypothesis fun d mem => all d (List.mem_cons_of_mem _ mem))
    cases w with
    | nil => exact absurd rfl some
    | cons c w =>
        exact .seq (.one (all c List.mem_cons_self))
          (stars w fun d mem => all d (List.mem_cons_of_mem _ mem))

theorem passes_asterisks {w : Bytes} (all : ∀ c ∈ w, c = asterisk) :
    Passes .asterisk w .asterisk := by
  refine Passes.of_forall (p := fun c => c = asterisk) (fun c same => ?_) all
  cases same
  exact ⟨rfl, rfl⟩

theorem passes_blockEnd {w : Bytes} (matched : blockEndPattern.Matches w) :
    Passes .block w .plain := by
  obtain ⟨u, v, rfl, first, last⟩ := Pattern.matches_seq_iff.mp matched
  obtain ⟨some, all⟩ := matches_plus_one_iff.mp first
  obtain ⟨c, rfl, isSolidus⟩ := Pattern.matches_one_iff.mp last
  cases of_decide_eq_true isSolidus
  cases u with
  | nil => exact absurd rfl some
  | cons a u =>
      cases of_decide_eq_true (all a List.mem_cons_self)
      have asterisks : Passes .asterisk u .asterisk :=
        passes_asterisks fun d mem => of_decide_eq_true (all d (List.mem_cons_of_mem _ mem))
      exact Passes.append (Passes.cons rfl asterisks) (Passes.single rfl)

/-- Text of a block comment stays in it, as asterisks that close it would be matched with the
solidus. -/
theorem marks_blockText {w rest : Bytes} (matched : blockTextPattern.Matches w)
    (longest : ∀ v more, w ++ rest = v ++ more → blockEndPattern.Matches v → v.length ≤ w.length) :
    Passes .block w .block ∨
      (Passes .block w .asterisk ∧ w.getLast? = some asterisk ∧ ∀ r, rest ≠ solidus :: r) := by
  rcases Pattern.matches_alt_iff.mp matched with others | asterisks
  · obtain ⟨-, all⟩ := matches_plus_one_iff.mp others
    refine Or.inl (Passes.of_forall (p := fun c => c ≠ asterisk)
      (fun c other => ⟨if_neg other, rfl⟩) fun c mem => of_decide_eq_true (all c mem))
  · obtain ⟨some, all⟩ := matches_plus_one_iff.mp asterisks
    refine Or.inr ⟨?_, ?_, ?_⟩
    · cases w with
      | nil => exact absurd rfl some
      | cons a w =>
          cases of_decide_eq_true (all a List.mem_cons_self)
          exact Passes.cons rfl
            (passes_asterisks fun d mem => of_decide_eq_true (all d (List.mem_cons_of_mem _ mem)))
    · rw [List.getLast?_eq_some_getLast some]
      exact congrArg Option.some (of_decide_eq_true (all _ (List.getLast_mem some)))
    · rintro r rfl
      have closed : blockEndPattern.Matches (w ++ [solidus]) := .seq asterisks (.one rfl)
      have longer := longest (w ++ [solidus]) r (by simp) closed
      rw [List.length_append] at longer
      exact absurd longer (Nat.not_succ_le_self _)

end MySimpleDb.Parser
