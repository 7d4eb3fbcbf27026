import MySimpleDb.Parser.Statements

/-!
# Collecting marked text

What the client does with text, character by character: white space in front of
a statement is dropped, a mark sends the statement.  Without its empty lines a
text gives the same unless one of them stands inside a statement.
-/

namespace MySimpleDb.Client

open MySimpleDb.Lib MySimpleDb.Parser

/-! ## Collecting -/

/-- One more character after the statements sent and the text collected. -/
def collectChar (s : List Bytes × Bytes) (c : UInt8 × Bool) : List Bytes × Bytes :=
  if s.2 = [] ∧ isSpace c.1 = true then s else cutChar s c

def collect (s : List Bytes × Bytes) (text : Marked) : List Bytes × Bytes :=
  text.foldl collectChar s

/-- Every mark stands on a character that is not white space. -/
def MarksVisible (text : Marked) : Prop :=
  ∀ c, (c, true) ∈ text → isSpace c = false

theorem marksVisible_marks (m : Mode) (text : Bytes) : MarksVisible (marks m text) := by
  intro c mem
  cases eq_semicolon_of_mark mem
  rfl

theorem collect_append (s : List Bytes × Bytes) (text more : Marked) :
    collect s (text ++ more) = collect (collect s text) more :=
  List.foldl_append

theorem length_collect_le (s : List Bytes × Bytes) (text : Marked) :
    (collect s text).2.length ≤ s.2.length + text.length := by
  induction text generalizing s with
  | nil => exact le_rfl
  | cons c text inductionHypothesis =>
      have step : (collectChar s c).2.length ≤ s.2.length + 1 := by
        rw [collectChar]
        split
        · omega
        · rw [cutChar]
          split
          · exact Nat.zero_le _
          · simp
      have rest := inductionHypothesis (collectChar s c)
      change (collect (collectChar s c) text).2.length ≤ _
      rw [List.length_cons]
      omega

/-- The collected statements are the pieces without the white space in front. -/
theorem collect_eq_cut {text : Marked} (visible : MarksVisible text) :
    collect ([], []) text = ((cut text).1.map trimStart, trimStart (cut text).2) := by
  induction text using List.reverseRecOn with
  | nil => rfl
  | append_singleton text c inductionHypothesis =>
      rw [collect_append, cut_append_singleton,
        inductionHypothesis fun d mem => visible d (List.mem_append_left _ mem)]
      obtain ⟨c, isEnd⟩ := c
      change collectChar _ _ = _
      rw [collectChar, cutChar, cutChar]
      dsimp only
      cases isEnd with
      | true =>
          have shown : isSpace c = false :=
            visible c (List.mem_append_right _ (List.mem_singleton_self _))
          rw [if_neg (not_dropped shown _), if_pos rfl, if_pos rfl, List.map_append,
            List.map_singleton, trimStart_append_singleton, if_neg (not_dropped shown _)]
          rfl
      | false =>
          rw [if_neg Bool.false_ne_true, if_neg Bool.false_ne_true]
          dsimp only
          rw [trimStart_append_singleton]
          split <;> simp_all

/-- Text without a mark is collected as it is where a statement has begun. -/
theorem collect_unmarked {s : List Bytes × Bytes} (begun : s.2 ≠ []) (w : Bytes) :
    collect s (unmarked w) = (s.1, s.2 ++ w) := by
  induction w generalizing s with
  | nil => simp [collect]
  | cons c w inductionHypothesis =>
      have step : collectChar s (c, false) = (s.1, s.2 ++ [c]) := by
        rw [collectChar, if_neg fun both => begun both.1]
        rfl
      have rest := @inductionHypothesis (s.1, s.2 ++ [c]) (by simp)
      change collect (collectChar s (c, false)) (unmarked w) = _
      rw [step, rest, List.append_assoc]
      rfl

/-- A character that is not white space begins a statement. -/
theorem collect_unmarked_cons {c : UInt8} (visible : isSpace c = false)
    (s : List Bytes × Bytes) (w : Bytes) :
    collect s (unmarked (c :: w)) = (s.1, s.2 ++ c :: w) := by
  have step : collectChar s (c, false) = (s.1, s.2 ++ [c]) := by
    rw [collectChar, if_neg (not_dropped visible _)]
    rfl
  change collect (collectChar s (c, false)) (unmarked w) = _
  rw [step, collect_unmarked (by simp), List.append_assoc]
  rfl

/-- White space is dropped where no statement has begun. -/
theorem collect_blank {s : List Bytes × Bytes} (none : s.2 = []) {w : Bytes} (blank : Blank w) :
    collect s (unmarked w) = s := by
  induction w with
  | nil => rfl
  | cons c w inductionHypothesis =>
      have step : collectChar s (c, false) = s :=
        if_pos ⟨none, blank c List.mem_cons_self⟩
      change collect (collectChar s (c, false)) (unmarked w) = _
      rw [step]
      exact inductionHypothesis fun d mem => blank d (List.mem_cons_of_mem _ mem)

/-! ## Empty lines -/

/-- The text without the ends of its empty lines, from the start of a line or not. -/
def withoutEmptyLines : Bool → Marked → Marked
  | _, [] => []
  | start, c :: text =>
      if start = true ∧ c.1 = newline then withoutEmptyLines true text
      else c :: withoutEmptyLines (decide (c.1 = newline)) text

theorem length_withoutEmptyLines_le (start : Bool) (text : Marked) :
    (withoutEmptyLines start text).length ≤ text.length := by
  induction text generalizing start with
  | nil => exact le_rfl
  | cons c text inductionHypothesis =>
      rw [withoutEmptyLines]
      split
      · exact (inductionHypothesis true).trans (Nat.le_succ _)
      · exact Nat.succ_le_succ (inductionHypothesis _)

/-- Behind the text a line starts. -/
def lineStart : Bool → Marked → Bool
  | start, [] => start
  | _, c :: text => lineStart (decide (c.1 = newline)) text

theorem lineStart_append_singleton (start : Bool) (text : Marked) (c : UInt8 × Bool) :
    lineStart start (text ++ [c]) = decide (c.1 = newline) := by
  induction text generalizing start with
  | nil => rfl
  | cons d text inductionHypothesis => exact inductionHypothesis _

theorem withoutEmptyLines_append (start : Bool) (text more : Marked) :
    withoutEmptyLines start (text ++ more) =
      withoutEmptyLines start text ++ withoutEmptyLines (lineStart start text) more := by
  induction text generalizing start with
  | nil => rfl
  | cons c text inductionHypothesis =>
      rw [List.cons_append, withoutEmptyLines, withoutEmptyLines, lineStart]
      split
      · rename_i empty
        rw [decide_eq_true empty.2]
        exact inductionHypothesis true
      · rw [inductionHypothesis, List.cons_append]

/-- A character that ends no line is kept. -/
theorem withoutEmptyLines_append_singleton (start : Bool) (text : Marked) {c : UInt8 × Bool}
    (inLine : c.1 ≠ newline) :
    withoutEmptyLines start (text ++ [c]) = withoutEmptyLines start text ++ [c] := by
  rw [withoutEmptyLines_append, withoutEmptyLines, if_neg fun both => inLine both.2]
  rfl

/-- Nothing of a line that is not empty is dropped. -/
theorem withoutEmptyLines_line {start : Bool} {text : Marked} {line : Bytes}
    (whole : text.map Prod.fst = line ++ [newline]) (inLine : newline ∉ line)
    (notEmpty : start = true → line ≠ []) : withoutEmptyLines start text = text := by
  induction line generalizing start text with
  | nil =>
      have isInLine : start = false := by
        cases start with
        | false => rfl
        | true => exact absurd rfl (notEmpty rfl)
      obtain ⟨c, rest, rfl, -, none⟩ := List.map_eq_cons_iff.mp whole
      rw [List.map_eq_nil_iff.mp none, isInLine, withoutEmptyLines,
        if_neg fun both => Bool.false_ne_true both.1]
      rfl
  | cons d line inductionHypothesis =>
      obtain ⟨c, rest, rfl, rfl, others⟩ := List.map_eq_cons_iff.mp whole
      have other : c.1 ≠ newline := fun same => inLine (by rw [same]; exact List.mem_cons_self)
      rw [withoutEmptyLines, if_neg fun both => other both.2]
      refine congrArg (List.cons c) (inductionHypothesis others
        (fun mem => inLine (List.mem_cons_of_mem _ mem)) fun isStart => ?_)
      exact absurd (of_decide_eq_true isStart) other

/-- Where no statement has begun at any empty line, nothing is lost. -/
theorem collect_withoutEmptyLines_eq {start : Bool} {text : Marked} {s : List Bytes × Bytes}
    (atStart : ∀ isEnd back, start = true → text = (newline, isEnd) :: back → s.2 = [])
    (outside : ∀ front isEnd isEnd' back,
      text = front ++ (newline, isEnd) :: (newline, isEnd') :: back → (collect s front).2 = []) :
    collect s (withoutEmptyLines start text) = collect s text := by
  induction text generalizing start s with
  | nil => rfl
  | cons c text inductionHypothesis =>
      obtain ⟨c, isEnd⟩ := c
      have ahead : ∀ isEnd' back, c = newline → text = (newline, isEnd') :: back →
          (collectChar s (c, isEnd)).2 = [] := by
        rintro isEnd' back rfl rfl
        have none : s.2 = [] := outside [] isEnd isEnd' back rfl
        rw [collectChar, if_pos ⟨none, rfl⟩]
        exact none
      have others : ∀ front isEnd' isEnd'' back,
          text = front ++ (newline, isEnd') :: (newline, isEnd'') :: back →
            (collect (collectChar s (c, isEnd)) front).2 = [] := by
        rintro front isEnd' isEnd'' back rfl
        exact outside ((c, isEnd) :: front) isEnd' isEnd'' back rfl
      rw [withoutEmptyLines]
      change _ = collect (collectChar s (c, isEnd)) text
      split
      · rename_i empty
        obtain ⟨isStart, rfl⟩ := empty
        have none : s.2 = [] := atStart isEnd text isStart rfl
        have same : collectChar s (newline, isEnd) = s := if_pos ⟨none, rfl⟩
        rw [same] at ahead others ⊢
        exact inductionHypothesis (fun isEnd' back _ whole => ahead isEnd' back rfl whole) others
      · change collect (collectChar s (c, isEnd)) _ = _
        exact inductionHypothesis
          (fun isEnd' back isNewline whole => ahead isEnd' back (of_decide_eq_true isNewline) whole)
          others

/-- The number of characters sent and collected. -/
def total (s : List Bytes × Bytes) : Nat :=
  (s.1.map List.length).sum + s.2.length

theorem total_cutChar (s : List Bytes × Bytes) (c : UInt8 × Bool) :
    total (cutChar s c) = total s + 1 := by
  rw [cutChar]
  split
  · simp [total, Nat.add_assoc]
  · simp [total, Nat.add_assoc]

theorem cutChar_begun (s s' : List Bytes × Bytes) (c : UInt8 × Bool) :
    (cutChar s c).2 = [] ↔ (cutChar s' c).2 = [] := by
  rw [cutChar, cutChar]
  split <;> simp

/-- Collecting less of the text, a client has begun a statement where the other has, and it has
collected no more. -/
theorem collect_withoutEmptyLines_le {start : Bool} {text : Marked} {s s' : List Bytes × Bytes}
    (begun : s'.2 = [] ↔ s.2 = []) (visible : MarksVisible text) :
    ((collect s' (withoutEmptyLines start text)).2 = [] ↔ (collect s text).2 = []) ∧
      total (collect s' (withoutEmptyLines start text)) + total s ≤
        total (collect s text) + total s' := by
  induction text generalizing start s s' with
  | nil => exact ⟨begun, (Nat.add_comm _ _).le⟩
  | cons c text inductionHypothesis =>
      obtain ⟨c, isEnd⟩ := c
      have visible' : MarksVisible text := fun d mem => visible d (List.mem_cons_of_mem _ mem)
      rw [withoutEmptyLines]
      change _ ∧ _ ≤ total (collect (collectChar s (c, isEnd)) text) + _
      split
      · rename_i empty
        obtain ⟨-, rfl⟩ := empty
        have silent : isEnd = false := by
          cases isEnd with
          | false => rfl
          | true => cases visible newline List.mem_cons_self
        cases silent
        by_cases none : s.2 = []
        · have same : collectChar s (newline, false) = s := if_pos ⟨none, rfl⟩
          have rest := @inductionHypothesis true s s' begun visible'
          change (_ ↔ (collect (collectChar s (newline, false)) text).2 = []) ∧ _
          rw [same]
          exact rest
        · have grown : collectChar s (newline, false) = (s.1, s.2 ++ [newline]) := by
            rw [collectChar, if_neg fun both => none both.1]
            rfl
          have more : total (collectChar s (newline, false)) = total s + 1 := by
            rw [collectChar, if_neg fun both => none both.1, total_cutChar]
          have rest := @inductionHypothesis true (collectChar s (newline, false)) s' (by
            rw [grown, begun]
            simp [none]) visible'
          refine ⟨rest.1, ?_⟩
          have bound := rest.2
          omega
      · change ((collect (collectChar s' (c, isEnd)) _).2 = [] ↔
          (collect (collectChar s (c, isEnd)) text).2 = []) ∧
            total (collect (collectChar s' (c, isEnd)) _) + _ ≤ _
        by_cases none : s.2 = [] ∧ isSpace c = true
        · have same : collectChar s (c, isEnd) = s := if_pos none
          have same' : collectChar s' (c, isEnd) = s' := if_pos ⟨begun.mpr none.1, none.2⟩
          rw [same, same']
          exact inductionHypothesis begun visible'
        · have step : collectChar s (c, isEnd) = cutChar s (c, isEnd) := if_neg none
          have step' : collectChar s' (c, isEnd) = cutChar s' (c, isEnd) :=
            if_neg fun both => none ⟨begun.mp both.1, both.2⟩
          have rest := @inductionHypothesis (decide (c = newline)) (cutChar s (c, isEnd))
            (cutChar s' (c, isEnd)) (cutChar_begun _ _ _) visible'
          rw [step, step']
          refine ⟨rest.1, ?_⟩
          have bound := rest.2
          rw [total_cutChar, total_cutChar] at bound
          dsimp only at bound ⊢
          omega

/-- An empty line inside a statement is lost. -/
theorem collect_withoutEmptyLines_ne {start isEnd isEnd' : Bool} {front back : Marked}
    {s : List Bytes × Bytes}
    (visible : MarksVisible (front ++ (newline, isEnd) :: (newline, isEnd') :: back))
    (inside : (collect s front).2 ≠ []) :
    collect s (withoutEmptyLines start (front ++ (newline, isEnd) :: (newline, isEnd') :: back)) ≠
      collect s (front ++ (newline, isEnd) :: (newline, isEnd') :: back) := by
  intro same
  have silent : isEnd = false := by
    cases isEnd with
    | false => rfl
    | true => cases visible newline (by simp)
  have silent' : isEnd' = false := by
    cases isEnd' with
    | false => rfl
    | true => cases visible newline (by simp)
  cases silent
  cases silent'
  have frontVisible : MarksVisible (front ++ [(newline, false)]) := by
    intro d mem
    refine visible d ?_
    simp only [List.mem_append, List.mem_cons, List.not_mem_nil, or_false] at mem ⊢
    tauto
  have backVisible : MarksVisible back := fun d mem => visible d (by simp [mem])
  -- in front of the empty line
  have before := @collect_withoutEmptyLines_le start _ s s Iff.rfl frontVisible
  have begun : (collect s (front ++ [(newline, false)])).2 ≠ [] := by
    rw [collect_append]
    change (collectChar (collect s front) (newline, false)).2 ≠ []
    rw [collectChar, if_neg fun both => inside both.1]
    simp [cutChar]
  -- behind it
  have longer : total (collectChar (collect s (front ++ [(newline, false)])) (newline, false)) =
      total (collect s (front ++ [(newline, false)])) + 1 := by
    rw [collectChar, if_neg fun both => begun both.1, total_cutChar]
  have after := @collect_withoutEmptyLines_le true back
    (collectChar (collect s (front ++ [(newline, false)])) (newline, false))
    (collect s (withoutEmptyLines start (front ++ [(newline, false)]))) (by
      rw [before.1, collectChar, if_neg fun both => begun both.1]
      simp [cutChar, begun]) backVisible
  have split : front ++ (newline, false) :: (newline, false) :: back =
      (front ++ [(newline, false)]) ++ ((newline, false) :: back) := by simp
  have emptied : withoutEmptyLines start (front ++ (newline, false) :: (newline, false) :: back) =
      withoutEmptyLines start (front ++ [(newline, false)]) ++ withoutEmptyLines true back := by
    rw [split, withoutEmptyLines_append, lineStart_append_singleton, withoutEmptyLines,
      if_pos ⟨rfl, rfl⟩]
  rw [emptied, collect_append, split, collect_append] at same
  change _ = collect (collectChar _ _) back at same
  rw [same] at after
  omega

end MySimpleDb.Client
