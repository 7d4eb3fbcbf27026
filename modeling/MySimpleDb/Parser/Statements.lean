import MySimpleDb.Parser.LexMarks
import Mathlib.Data.List.DropRight

/-!
# The statements of a text

The text is cut behind each semicolon that the lexer makes a token; white space
in front of a statement is not part of it.
-/

namespace MySimpleDb.Parser

open MySimpleDb.Lib

/-! ## White space -/

/-- Only white space. -/
def Blank (w : Bytes) : Prop :=
  ∀ c ∈ w, isSpace c = true

instance (w : Bytes) : Decidable (Blank w) :=
  List.decidableBAll _ _

def trimStart (w : Bytes) : Bytes :=
  w.dropWhile isSpace

def trimEnd (w : Bytes) : Bytes :=
  w.rdropWhile isSpace

theorem trimStart_eq_nil_iff {w : Bytes} : trimStart w = [] ↔ Blank w :=
  List.dropWhile_eq_nil_iff

/-- A character that is not white space is never dropped. -/
theorem not_dropped {c : UInt8} (visible : isSpace c = false) (w : Bytes) :
    ¬ (w = [] ∧ isSpace c = true) := by
  rintro ⟨-, space⟩
  rw [visible] at space
  cases space

theorem trimStart_append_singleton (w : Bytes) (c : UInt8) :
    trimStart (w ++ [c]) =
      if trimStart w = [] ∧ isSpace c = true then [] else trimStart w ++ [c] := by
  rw [trimStart, trimStart, List.dropWhile_append]
  cases empty : (w.dropWhile isSpace).isEmpty with
  | true =>
      rw [List.isEmpty_iff] at empty
      rw [empty]
      cases space : isSpace c <;> simp [space]
  | false =>
      rw [List.isEmpty_eq_false_iff] at empty
      rw [if_neg Bool.false_ne_true, if_neg fun both => empty both.1]

theorem trimEnd_append_blank (w : Bytes) {blank : Bytes} (isBlank : Blank blank) :
    trimEnd (w ++ blank) = trimEnd w := by
  induction blank using List.reverseRecOn with
  | nil => rw [List.append_nil]
  | append_singleton blank c inductionHypothesis =>
      rw [trimEnd, ← List.append_assoc,
        List.rdropWhile_concat_pos _ _ _ (isBlank c (List.mem_append_right _
          (List.mem_singleton_self _)))]
      exact inductionHypothesis fun d mem => isBlank d (List.mem_append_left _ mem)

theorem trimEnd_append_visible (w : Bytes) {c : UInt8} (visible : isSpace c = false) :
    trimEnd (w ++ [c]) = w ++ [c] :=
  List.rdropWhile_concat_neg _ _ _ (by simp [visible])

/-! ## Cutting -/

/-- One more character: the complete pieces, and what stands behind the last one. -/
def cutChar (s : List Bytes × Bytes) (c : UInt8 × Bool) : List Bytes × Bytes :=
  if c.2 then (s.1 ++ [s.2 ++ [c.1]], []) else (s.1, s.2 ++ [c.1])

/-- Marked text, cut behind each mark. -/
def cut (text : Marked) : List Bytes × Bytes :=
  text.foldl cutChar ([], [])

theorem cut_append_singleton (text : Marked) (c : UInt8 × Bool) :
    cut (text ++ [c]) = cutChar (cut text) c :=
  List.foldl_append

/-- Without marks all text stays behind the last piece. -/
theorem cut_append_unmarked (text : Marked) (w : Bytes) :
    cut (text ++ unmarked w) = ((cut text).1, (cut text).2 ++ w) := by
  induction w using List.reverseRecOn with
  | nil => simp
  | append_singleton w c inductionHypothesis =>
      rw [unmarked_append, ← List.append_assoc, unmarked_cons, unmarked_nil, cut_append_singleton,
        inductionHypothesis, cutChar, List.append_assoc]
      rfl

/-- What is behind the last piece of the text, trimmed. -/
def lastStatement (text : Bytes) : Bytes :=
  trimEnd (trimStart (cut (lexMarks text)).2)

/-- The statements of the text up to their semicolons. -/
def statements (text : Bytes) : List Bytes :=
  (cut (lexMarks text)).1.map trimStart

/-- The text up to its last character that is not white space. -/
def core (text : Bytes) : Marked :=
  (lexMarks text).rdropWhile fun c => isSpace c.1

/-- The frames carry the statements as they are written, and the last one, where it has no
semicolon, with its line ended and a semicolon added. -/
def SentAsWritten (text : Bytes) (frames : List Bytes) : Prop :=
  ∃ blank, Blank blank ∧ newline ∈ blank ∧
    frames = statements text ++
      if lastStatement text = [] then [] else [lastStatement text ++ blank ++ [semicolon]]

/-- Up to its last character that is not white space, the text has an empty line inside a
statement: two ends of lines in a row where a statement has begun. -/
def BlankLineInside (text : Bytes) : Prop :=
  ∃ front back, core text = front ++ (newline, false) :: (newline, false) :: back ∧
    ¬ Blank (cut front).2

/-! ## The core of a text -/

/-- Marked text that is empty or ends in a character that is not white space. -/
def EndsVisible (text : Marked) : Prop :=
  text = [] ∨ ∃ front c, text = front ++ [c] ∧ isSpace c.1 = false

theorem core_endsVisible (text : Bytes) : EndsVisible (core text) := by
  rcases List.eq_nil_or_concat (core text) with none | ⟨front, c, whole⟩
  · exact Or.inl none
  · refine Or.inr ⟨front, c, whole.trans List.concat_eq_append, ?_⟩
    have nonempty : core text ≠ [] := by
      rw [whole]
      simp
    have last := List.rdropWhile_last_not _ _ nonempty
    have same : (core text).getLast nonempty = c := by simp [whole]
    change ¬ isSpace ((core text).getLast nonempty).1 = true at last
    rw [same] at last
    exact Bool.eq_false_iff.mpr last

/-- Behind the core there is only white space, which bears no mark. -/
theorem lexMarks_eq_core {text : Bytes} (closed : QuotesClosed (lex text).1) :
    ∃ blank, Blank blank ∧ lexMarks text = core text ++ unmarked blank := by
  have whole : core text ++ (lexMarks text).rtakeWhile (fun c => isSpace c.1) = lexMarks text :=
    List.rdropWhile_append_rtakeWhile
  generalize tail_eq : (lexMarks text).rtakeWhile (fun c => isSpace c.1) = tail at whole
  have space : ∀ c ∈ tail, isSpace c.1 = true := by
    intro c mem
    rw [← tail_eq] at mem
    exact List.mem_rtakeWhile_imp (p := fun c : UInt8 × Bool => isSpace c.1) mem
  have silent : ∀ c ∈ tail, c.2 = false := by
    rintro ⟨c, isEnd⟩ mem
    cases isEnd with
    | false => rfl
    | true =>
        have inText : (c, true) ∈ marks .plain text := by
          rw [← lexMarks_eq closed, ← whole]
          exact List.mem_append_right _ mem
        have isSemicolon := eq_semicolon_of_mark inText
        have isBlank := space _ mem
        rw [isSemicolon] at isBlank
        cases isBlank
  refine ⟨tail.map Prod.fst, ?_, ?_⟩
  · intro c mem
    obtain ⟨d, inTail, rfl⟩ := List.mem_map.mp mem
    exact space d inTail
  · have same : unmarked (tail.map Prod.fst) = tail := by
      rw [unmarked, List.map_map]
      refine (List.map_congr_left fun c mem => ?_).trans (List.map_id _)
      exact Prod.ext rfl (silent c mem).symm
    rw [same]
    exact whole.symm

/-- The statements of a text are those of its core. -/
theorem statements_eq_core {text : Bytes} (closed : QuotesClosed (lex text).1) :
    statements text = (cut (core text)).1.map trimStart ∧
      lastStatement text = trimStart (cut (core text)).2 := by
  obtain ⟨blank, isBlank, whole⟩ := lexMarks_eq_core closed
  rw [statements, lastStatement, whole, cut_append_unmarked]
  refine ⟨rfl, ?_⟩
  dsimp only
  have ends : (cut (core text)).2 = [] ∨ ∃ w c, (cut (core text)).2 = w ++ [c] ∧
      isSpace c = false := by
    rcases core_endsVisible text with none | ⟨front, c, same, visible⟩
    · rw [none]
      exact Or.inl rfl
    · rw [same, cut_append_singleton, cutChar]
      split
      · exact Or.inl rfl
      · exact Or.inr ⟨_, _, rfl, visible⟩
  rcases ends with none | ⟨w, c, same, visible⟩
  · rw [none, List.nil_append, trimStart_eq_nil_iff.mpr isBlank]
    rfl
  · have kept : trimStart (w ++ [c] ++ blank) = trimStart w ++ [c] ++ blank := by
      rw [trimStart, List.dropWhile_append]
      have here := trimStart_append_singleton w c
      rw [if_neg (not_dropped visible _)] at here
      rw [trimStart] at here
      rw [here]
      simp [trimStart]
    rw [same, kept, trimEnd_append_blank _ isBlank, trimEnd_append_visible _ visible,
      trimStart_append_singleton, if_neg (not_dropped visible _)]

end MySimpleDb.Parser
