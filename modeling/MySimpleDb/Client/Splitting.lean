import MySimpleDb.Client.Collect
import MySimpleDb.Client.Scanner

/-!
# Splitting the input into statements

Each chunk of the client's scanner leads from one mode of the text to another,
as the chunks of the lexer do, so the client collects the marked text without
its empty lines, and what it sends are the statements unless an empty line
stands inside one.
-/

namespace MySimpleDb.Client

open MySimpleDb.Lib MySimpleDb.Parser

/-! ## Chunks -/

/-- The mode of a state of the scanner between chunks. -/
def ScanState.mode : ScanState → Mode
  | .initial => .plain
  | .comment => .line
  | .stringSingle => .quoted quote
  | .stringDouble => .quoted doubleQuote
  | .commentBlock => .block

/-- The scanner's text has its last line ended. -/
def LineEnded (text : Bytes) : Prop :=
  ∀ c ∈ text.getLast?, c = newline

namespace ClientState

/-- What is sent and collected. -/
def collected (s : ClientState) : List Bytes × Bytes :=
  (s.frames, s.sqlBuffer)

/-- No text was dropped, and without collected text the scanner is in its initial state. -/
def Sound (s : ClientState) (state : ScanState) : Prop :=
  s.sqlOverflow = false ∧ (s.sqlBuffer = [] → state = .initial)

variable {s : ClientState} {state next : ScanState} {text : Bytes}

theorem appendToSql_eq (notOver : s.sqlOverflow = false)
    (fits : s.sqlBuffer.length + text.length ≤ sqlBufferLimit) :
    s.appendToSql text = { s with sqlBuffer := s.sqlBuffer ++ text } := by
  rw [appendToSql, if_neg (by simp [notOver]), if_neg (by omega)]

end ClientState

/-- A chunk leads from a state to the next: behind it the text goes on in the mode of the next
state, and its action collects it. -/
structure Chunk (state next : ScanState) (action : Bytes → ClientState → ClientState)
    (w rest : Bytes) : Prop where
  marked : ∃ isEnd : Bool, (∀ more, marks state.mode (w ++ (rest ++ more)) =
    w.map (fun c => (c, isEnd)) ++ marks next.mode (rest ++ more)) ∧
      ∀ s : ClientState, s.Sound state → s.sqlBuffer.length + w.length ≤ sqlBufferLimit →
        (action w s).collected = collect s.collected (w.map fun c => (c, isEnd)) ∧
          (action w s).Sound next

section Actions

variable {state next : ScanState} {w rest : Bytes}

/-- Text that is collected; outside of strings and comments it is not white space. -/
theorem chunk_appendToSql (begins : state ≠ .initial ∨ ∃ c v, w = c :: v ∧ isSpace c = false)
    (nonempty : w ≠ [])
    (passes : ∀ more, marks state.mode (w ++ (rest ++ more)) =
      unmarked w ++ marks next.mode (rest ++ more)) :
    Chunk state next ClientState.appendToSql w rest := by
  refine ⟨false, passes, fun s sound fits => ?_⟩
  rw [ClientState.appendToSql_eq sound.1 fits]
  refine ⟨?_, sound.1, fun none => absurd none (by simp [nonempty])⟩
  change _ = collect s.collected (unmarked w)
  by_cases begun : s.sqlBuffer = []
  · rcases begins with inText | ⟨c, v, rfl, visible⟩
    · exact absurd (sound.2 begun) inText
    · rw [collect_unmarked_cons visible]
      rfl
  · rw [collect_unmarked begun]
    rfl

/-- White space between statements. -/
theorem chunk_appendSpace (blank : Blank w) :
    Chunk .initial .initial ClientState.appendSpace w rest := by
  have passes : Passes .plain w .plain :=
    passes_plain fun c mem => isOrdinary_of_isSpace (blank c mem)
  refine ⟨false, fun more => passes _, fun s sound fits => ?_⟩
  change _ = collect s.collected (unmarked w) ∧ _
  by_cases none : s.sqlBuffer = []
  · have same : s.appendSpace w = s := if_pos none
    have dropped : collect s.collected (unmarked w) = s.collected := collect_blank none blank
    rw [same, dropped]
    exact ⟨rfl, sound.1, fun _ => rfl⟩
  · have appended : s.appendSpace w = s.appendToSql w := if_neg none
    have kept : collect s.collected (unmarked w) = (s.frames, s.sqlBuffer ++ w) :=
      collect_unmarked none w
    rw [appended, ClientState.appendToSql_eq sound.1 fits, kept]
    exact ⟨rfl, sound.1, fun _ => rfl⟩

/-- A semicolon sends the statement. -/
theorem chunk_appendAndSend :
    Chunk .initial .initial ClientState.appendAndSend [semicolon] rest := by
  refine ⟨true, fun more => rfl, fun s sound fits => ?_⟩
  rw [ClientState.appendAndSend, ClientState.appendToSql_eq sound.1 fits,
    ClientState.sendToServer, if_neg (by simp [sound.1]), if_neg (by simp)]
  refine ⟨?_, rfl, fun _ => rfl⟩
  change (_, _) = collectChar s.collected (semicolon, true)
  rw [collectChar, if_neg fun both => Bool.false_ne_true both.2]
  rfl

end Actions

/-! ## The rules -/

theorem active_initial : Rule.active scanRules .initial =
    [spaceRule, openRule quote .stringSingle, openRule doubleQuote .stringDouble, lineStartRule,
      blockStartRule, semicolonRule, anyRule .initial] := by
  rfl

theorem active_comment : Rule.active scanRules .comment = [lineTextRule, lineEndRule] := by
  rfl

theorem active_commentBlock :
    Rule.active scanRules .commentBlock = [blockEndRule, blockTextRule] := by
  rfl

theorem active_stringSingle :
    Rule.active scanRules .stringSingle = stringRules quote .stringSingle := by
  rfl

theorem active_stringDouble :
    Rule.active scanRules .stringDouble = stringRules doubleQuote .stringDouble := by
  rfl

section Rules

variable {rule : ScanRule} {state : ScanState} {w rest : Bytes}

/-- Two characters in a row as a match. -/
theorem matches_pair_iff {a b : UInt8} {w : Bytes} :
    (Pattern.seq (.one fun c => c = a) (.one fun c => c = b)).Matches w ↔ w = [a, b] := by
  rw [Pattern.matches_seq_iff]
  constructor
  · rintro ⟨u, v, rfl, first, second⟩
    obtain ⟨c, rfl, same⟩ := Pattern.matches_one_iff.mp first
    obtain ⟨d, rfl, same'⟩ := Pattern.matches_one_iff.mp second
    rw [of_decide_eq_true same, of_decide_eq_true same']
    rfl
  · rintro rfl
    exact ⟨[a], [b], rfl, .one (decide_eq_true rfl), .one (decide_eq_true rfl)⟩

/-- A character alone outside of strings and comments: what would pair with it does not follow
in the text, and the text goes on in its line. -/
theorem anyRule_chunk (wins : Rule.Wins scanRules .initial (anyRule .initial) w rest)
    (ended : LineEnded (w ++ rest))
    (others : ∀ other ∈ [spaceRule, openRule quote .stringSingle,
      openRule doubleQuote .stringDouble, semicolonRule],
        other.pattern.reach (w ++ rest) < (anyRule .initial).pattern.reach (w ++ rest)) :
    Chunk .initial .initial ClientState.appendToSql w rest := by
  obtain ⟨c, rfl, inLine⟩ := Pattern.matches_one_iff.mp wins.matched
  have notNewline : c ≠ newline := of_decide_eq_true inLine
  rw [wins.reach] at others
  have unmatched : ∀ other ∈ [spaceRule, openRule quote .stringSingle,
      openRule doubleQuote .stringDouble, semicolonRule], ¬ other.pattern.Matches [c] := by
    intro other mem matched
    have reached : [c].length ≤ other.pattern.reach ([c] ++ rest) :=
      Pattern.length_le_reach rfl matched
    exact absurd (reached.trans_lt (others other mem)) (lt_irrefl _)
  have visible : isSpace c = false := by
    by_contra space
    refine unmatched spaceRule (by simp) (matches_plus_one_iff.mpr ⟨by simp, ?_⟩)
    simpa using space
  have not_quote : c ≠ quote := by
    rintro rfl
    exact unmatched (openRule quote .stringSingle) (by simp) (.one rfl)
  have not_double : c ≠ doubleQuote := by
    rintro rfl
    exact unmatched (openRule doubleQuote .stringDouble) (by simp) (.one rfl)
  have not_end : c ≠ semicolon := by
    rintro rfl
    exact unmatched semicolonRule (by simp) (.one rfl)
  have goesOn : ∃ d r, rest = d :: r := by
    cases rest with
    | nil => exact absurd (ended c rfl) notNewline
    | cons d r => exact ⟨d, r, rfl⟩
  obtain ⟨d, r, rfl⟩ := goesOn
  -- a pair would be a longer match
  have noPair : ∀ other ∈ Rule.active scanRules .initial, ¬ other.pattern.Matches [c, d] := by
    intro other mem matched
    have longer : [c, d].length ≤ [c].length :=
      wins.longest mem (rfl : [c] ++ d :: r = [c, d] ++ r) matched
    exact absurd longer (by simp)
  refine chunk_appendToSql (Or.inr ⟨c, [], rfl, visible⟩) (by simp) fun more => ?_
  by_cases isHyphen : c = hyphen
  · cases isHyphen
    refine marks_hyphen fun r' same => ?_
    cases (List.cons.inj same).1
    exact noPair lineStartRule (by rw [active_initial]; simp) (matches_pair_iff.mpr rfl)
  · by_cases isSolidus : c = solidus
    · cases isSolidus
      refine marks_solidus fun r' same => ?_
      cases (List.cons.inj same).1
      exact noPair blockStartRule (by rw [active_initial]; simp) (matches_pair_iff.mpr rfl)
    · have passes : Passes .plain [c] .plain := by
        refine passes_plain fun e mem => ?_
        cases List.mem_singleton.mp mem
        exact isOrdinary_iff.mpr ⟨not_quote, not_double, isHyphen, isSolidus, not_end⟩
      exact passes _

/-- The rules of a string. -/
theorem stringRules_chunk {q : UInt8} {string : ScanState}
    (isString : string.mode = .quoted q ∧ string ≠ .initial) (isQuote : q = quote ∨ q = doubleQuote)
    (isActive : Rule.active scanRules string = stringRules q string)
    (wins : Rule.Wins scanRules string rule w rest) :
    Chunk string (rule.begins.getD string) rule.action w rest := by
  have picks := wins.picks
  rw [isActive, stringRules] at picks
  have inString : string ≠ .initial ∨ ∃ c v, w = c :: v ∧ isSpace c = false := Or.inl isString.2
  rcases Rule.picks_cons_iff.mp picks with ⟨rfl, -, -⟩ | ⟨-, picks⟩
  · cases matches_pair_iff.mp wins.matched
    refine chunk_appendToSql inString wins.nonempty fun more => ?_
    change marks string.mode _ = _ ++ marks string.mode _
    rw [isString.1]
    exact passes_doubled isQuote _
  rcases Rule.picks_cons_iff.mp picks with ⟨rfl, -, -⟩ | ⟨others, picks⟩
  · obtain ⟨c, rfl, same⟩ := Pattern.matches_one_iff.mp wins.matched
    cases of_decide_eq_true same
    refine chunk_appendToSql inString wins.nonempty fun more => ?_
    rw [isString.1]
    exact passes_close _
  have other : ∀ c, w = [c] → c ≠ q := by
    rintro c rfl rfl
    have reached : [c].length ≤ (closeRule c string).pattern.reach ([c] ++ rest) :=
      Pattern.length_le_reach rfl (.one (decide_eq_true rfl))
    rw [wins.reach] at others
    exact absurd (reached.trans_lt others) (lt_irrefl _)
  have stays : ∀ c, w = [c] → Chunk string string ClientState.appendToSql w rest := by
    rintro c rfl
    refine chunk_appendToSql inString wins.nonempty fun more => ?_
    rw [isString.1]
    exact passes_quoted (fun d mem => List.mem_singleton.mp mem ▸ other c rfl) _
  rcases Rule.picks_cons_iff.mp picks with ⟨rfl, -, -⟩ | ⟨-, picks⟩
  · obtain ⟨c, same, -⟩ := Pattern.matches_one_iff.mp wins.matched
    exact stays c same
  rcases Rule.picks_cons_iff.mp picks with ⟨rfl, -, -⟩ | ⟨-, picks⟩
  · obtain ⟨c, same, -⟩ := Pattern.matches_one_iff.mp wins.matched
    exact stays c same
  cases picks

/-- Every chunk of a text whose last line is ended leads to the next state. -/
theorem wins_chunk (wins : Rule.Wins scanRules state rule w rest)
    (ended : LineEnded (w ++ rest)) :
    Chunk state (rule.begins.getD state) rule.action w rest := by
  have picks := wins.picks
  have nonempty := wins.nonempty
  cases state with
  | initial =>
      rw [active_initial] at picks
      rcases Rule.picks_cons_iff.mp picks with ⟨rfl, -, -⟩ | ⟨notSpace, picks⟩
      · exact chunk_appendSpace (matches_plus_one_iff.mp wins.matched).2
      rcases Rule.picks_cons_iff.mp picks with ⟨rfl, -, -⟩ | ⟨notQuote, picks⟩
      · obtain ⟨c, rfl, same⟩ := Pattern.matches_one_iff.mp wins.matched
        cases of_decide_eq_true same
        exact chunk_appendToSql (Or.inr ⟨quote, [], rfl, rfl⟩) nonempty fun more =>
          passes_open (Or.inl rfl) _
      rcases Rule.picks_cons_iff.mp picks with ⟨rfl, -, -⟩ | ⟨notDouble, picks⟩
      · obtain ⟨c, rfl, same⟩ := Pattern.matches_one_iff.mp wins.matched
        cases of_decide_eq_true same
        exact chunk_appendToSql (Or.inr ⟨doubleQuote, [], rfl, rfl⟩) nonempty fun more =>
          passes_open (Or.inr rfl) _
      rcases Rule.picks_cons_iff.mp picks with ⟨rfl, -, -⟩ | ⟨-, picks⟩
      · cases matches_pair_iff.mp wins.matched
        exact chunk_appendToSql (Or.inr ⟨hyphen, [hyphen], rfl, rfl⟩) nonempty fun more =>
          passes_lineStart _
      rcases Rule.picks_cons_iff.mp picks with ⟨rfl, -, -⟩ | ⟨-, picks⟩
      · cases matches_pair_iff.mp wins.matched
        exact chunk_appendToSql (Or.inr ⟨solidus, [asterisk], rfl, rfl⟩) nonempty fun more =>
          passes_blockStart _
      rcases Rule.picks_cons_iff.mp picks with ⟨rfl, -, -⟩ | ⟨notEnd, picks⟩
      · obtain ⟨c, rfl, same⟩ := Pattern.matches_one_iff.mp wins.matched
        cases of_decide_eq_true same
        exact chunk_appendAndSend
      rcases Rule.picks_cons_iff.mp picks with ⟨rfl, -, -⟩ | ⟨-, picks⟩
      · refine anyRule_chunk wins ended fun other mem => ?_
        simp only [List.mem_cons, List.not_mem_nil, or_false] at mem
        rcases mem with rfl | rfl | rfl | rfl
        · exact notSpace
        · exact notQuote
        · exact notDouble
        · exact notEnd
      cases picks
  | comment =>
      rw [active_comment] at picks
      rcases Rule.picks_cons_iff.mp picks with ⟨rfl, -, -⟩ | ⟨-, picks⟩
      · have inLine := (matches_plus_one_iff.mp wins.matched).2
        exact chunk_appendToSql (Or.inl (by simp)) nonempty fun more =>
          passes_line (fun c mem => of_decide_eq_true (inLine c mem)) _
      rcases Rule.picks_cons_iff.mp picks with ⟨rfl, -, -⟩ | ⟨-, picks⟩
      · obtain ⟨c, rfl, same⟩ := Pattern.matches_one_iff.mp wins.matched
        cases of_decide_eq_true same
        exact chunk_appendToSql (Or.inl (by simp)) nonempty fun more => passes_lineEnd _
      cases picks
  | stringSingle =>
      exact stringRules_chunk ⟨rfl, by simp⟩ (Or.inl rfl) active_stringSingle wins
  | stringDouble =>
      exact stringRules_chunk ⟨rfl, by simp⟩ (Or.inr rfl) active_stringDouble wins
  | commentBlock =>
      rw [active_commentBlock] at picks
      rcases Rule.picks_cons_iff.mp picks with ⟨rfl, -, -⟩ | ⟨-, picks⟩
      · exact chunk_appendToSql (Or.inl (by simp)) nonempty fun more =>
          passes_blockEnd wins.matched _
      rcases Rule.picks_cons_iff.mp picks with ⟨rfl, -, -⟩ | ⟨-, picks⟩
      · have isActive : blockEndRule ∈ Rule.active scanRules .commentBlock := by
          rw [active_commentBlock]
          exact List.mem_cons_self
        have longest : ∀ v more, w ++ rest = v ++ more → blockEndPattern.Matches v →
            v.length ≤ w.length := fun v more whole matched =>
          wins.longest isActive whole matched
        refine chunk_appendToSql (Or.inl (by simp)) nonempty fun more => ?_
        rcases marks_blockText wins.matched longest with passes | ⟨passes, last, alone⟩
        · exact passes _
        · have closes : ∀ r, rest ++ more ≠ solidus :: r := by
            intro r same
            cases rest with
            | nil =>
                rw [List.append_nil] at ended
                cases ended asterisk last
            | cons d rest => exact alone rest (by rw [(List.cons.inj same).1])
          exact (passes _).trans (congrArg _ (marks_asterisk closes))
      cases picks

/-- Behind the end of a line no line comment is open. -/
theorem wins_next (wins : Rule.Wins scanRules state rule w rest) (ended : LineEnded w) :
    rule.begins.getD state ≠ .comment := by
  have mem := wins.picks.mem
  have inLine : ∀ c v, w = v ++ [c] → c = newline := by
    rintro c v rfl
    exact ended c (by simp)
  cases state with
  | initial =>
      rw [active_initial] at mem
      simp only [List.mem_cons, List.not_mem_nil, or_false] at mem
      rcases mem with rfl | rfl | rfl | rfl | rfl | rfl | rfl
      case inr.inr.inr.inl =>
        cases inLine hyphen [hyphen] (matches_pair_iff.mp wins.matched)
      all_goals exact fun same => by cases same
  | comment =>
      rw [active_comment] at mem
      simp only [List.mem_cons, List.not_mem_nil, or_false] at mem
      rcases mem with rfl | rfl
      · obtain ⟨some, all⟩ := matches_plus_one_iff.mp wins.matched
        have isNewline := inLine _ _ (List.dropLast_append_getLast some).symm
        exact absurd isNewline (of_decide_eq_true (all _ (List.getLast_mem some)))
      · exact fun same => by cases same
  | stringSingle =>
      rw [active_stringSingle] at mem
      simp only [stringRules, List.mem_cons, List.not_mem_nil, or_false] at mem
      rcases mem with rfl | rfl | rfl | rfl <;> exact fun same => by cases same
  | stringDouble =>
      rw [active_stringDouble] at mem
      simp only [stringRules, List.mem_cons, List.not_mem_nil, or_false] at mem
      rcases mem with rfl | rfl | rfl | rfl <;> exact fun same => by cases same
  | commentBlock =>
      rw [active_commentBlock] at mem
      simp only [List.mem_cons, List.not_mem_nil, or_false] at mem
      rcases mem with rfl | rfl <;> exact fun same => by cases same

/-- Some rule matches whatever stands in the text. -/
theorem scanRules_total (state : ScanState) (c : UInt8) (text : Bytes) :
    ∃ rule ∈ Rule.active scanRules state, ∃ w rest, c :: text = w ++ rest ∧ w ≠ [] ∧
      rule.pattern.Matches w := by
  have one : ∀ rule ∈ Rule.active scanRules state, rule.pattern.Matches [c] →
      ∃ rule ∈ Rule.active scanRules state, ∃ w rest, c :: text = w ++ rest ∧ w ≠ [] ∧
        rule.pattern.Matches w :=
    fun rule mem matched => ⟨rule, mem, [c], text, rfl, by simp, matched⟩
  have plus : ∀ p : UInt8 → Bool, p c = true → (Pattern.plus (.one p)).Matches [c] :=
    fun p inClass => matches_plus_one_iff.mpr ⟨by simp, by simpa using inClass⟩
  cases state with
  | initial =>
      rw [active_initial] at one ⊢
      by_cases atEnd : c = newline
      · exact one spaceRule (by simp) (plus _ (by rw [atEnd]; rfl))
      · exact one (anyRule .initial) (by simp) (.one (decide_eq_true atEnd))
  | comment =>
      rw [active_comment] at one ⊢
      by_cases atEnd : c = newline
      · exact one lineEndRule (by simp) (.one (decide_eq_true atEnd))
      · exact one lineTextRule (by simp) (plus _ (decide_eq_true atEnd))
  | stringSingle =>
      rw [active_stringSingle] at one ⊢
      by_cases atEnd : c = newline
      · exact one (stringNewlineRule .stringSingle) (by simp [stringRules])
          (.one (decide_eq_true atEnd))
      · exact one (anyRule .stringSingle) (by simp [stringRules]) (.one (decide_eq_true atEnd))
  | stringDouble =>
      rw [active_stringDouble] at one ⊢
      by_cases atEnd : c = newline
      · exact one (stringNewlineRule .stringDouble) (by simp [stringRules])
          (.one (decide_eq_true atEnd))
      · exact one (anyRule .stringDouble) (by simp [stringRules]) (.one (decide_eq_true atEnd))
  | commentBlock =>
      rw [active_commentBlock] at one ⊢
      by_cases star : c = asterisk
      · exact one blockTextRule (by simp) (.right (plus _ (decide_eq_true star)))
      · exact one blockTextRule (by simp) (.left (plus _ (decide_eq_true star)))

end Rules

/-! ## Lines -/

/-- What a text with its last line ended does to the client. -/
structure Scanned (state last : ScanState) (text : Bytes)
    (chunks : List (Option (Bytes → ClientState → ClientState) × Bytes)) : Prop where
  none : text = [] → last = state
  inText : text ≠ [] → last ≠ .comment
  marked : ∀ more,
    marks state.mode (text ++ more) = marks state.mode text ++ marks last.mode more
  collects : ∀ s : ClientState, s.Sound state →
    s.sqlBuffer.length + text.length ≤ sqlBufferLimit →
      (chunks.foldl ClientState.take s).collected = collect s.collected (marks state.mode text) ∧
        (chunks.foldl ClientState.take s).Sound last

theorem scan_scanned (state : ScanState) (text : Bytes) (ended : LineEnded text) :
    Scanned state (Rule.scan scanRules state text).2 text (Rule.scan scanRules state text).1 := by
  revert ended
  refine Rule.scan_induction
    (motive := fun state text chunks last => LineEnded text → Scanned state last text chunks)
    scanRules_total (fun state _ => ?_)
    (fun state rule w rest chunks last wins others ended => ?_) state text
  · exact ⟨fun _ => rfl, fun some => absurd rfl some, fun _ => rfl, fun s sound _ => ⟨rfl, sound⟩⟩
  · have restEnded : LineEnded rest := by
      intro c mem
      refine ended c ?_
      cases rest with
      | nil => cases mem
      | cons d rest => simpa using mem
    obtain ⟨none, inText, marked, collects⟩ := others restEnded
    obtain ⟨isEnd, here, action⟩ := (wins_chunk wins ended).marked
    have whole : marks state.mode (w ++ rest) =
        w.map (fun c => (c, isEnd)) ++ marks (rule.begins.getD state).mode rest := by
      simpa using here []
    refine ⟨fun empty => ?_, fun _ => ?_, fun more => ?_, fun s sound fits => ?_⟩
    · exact absurd (List.append_eq_nil_iff.mp empty).1 wins.nonempty
    · by_cases empty : rest = []
      · rw [none empty]
        refine wins_next wins ?_
        rwa [empty, List.append_nil] at ended
      · exact inText empty
    · rw [List.append_assoc, here, marked, whole, List.append_assoc]
    · rw [List.length_append] at fits
      obtain ⟨first, sound'⟩ := action s sound (by omega)
      have shorter : (rule.action w s).sqlBuffer.length ≤ s.sqlBuffer.length + w.length := by
        have bound := length_collect_le s.collected (w.map fun c => (c, isEnd))
        rw [← first, List.length_map] at bound
        exact bound
      have rest' := collects (rule.action w s) sound' (by omega)
      rw [first] at rest'
      rw [whole, collect_append]
      exact rest'

/-- The state of the client between lines. -/
structure ClientState.Steady (s : ClientState) : Prop where
  sound : s.Sound s.state
  inText : s.state ≠ .comment

/-- The end of a line stays in the mode of the next line. -/
theorem marks_newline {state : ScanState} (inText : state ≠ .comment) (more : Bytes) :
    marks state.mode (newline :: more) = (newline, false) :: marks state.mode more := by
  cases state with
  | comment => exact absurd rfl inText
  | _ => rfl

/-- One line: an empty one is dropped, any other is collected with its end. -/
theorem processInput_spec {s : ClientState} {line : Bytes} (steady : s.Steady)
    (inLine : newline ∉ line) (fits : s.sqlBuffer.length + (line.length + 1) ≤ sqlBufferLimit) :
    (s.processInput line).Steady ∧
      (s.processInput line).collected = collect s.collected
        (withoutEmptyLines true (marks s.state.mode (line ++ [newline]))) ∧
      ∀ more, marks s.state.mode (line ++ newline :: more) =
        marks s.state.mode (line ++ [newline]) ++ marks (s.processInput line).state.mode more := by
  rw [ClientState.processInput]
  split
  · rename_i empty
    cases empty
    refine ⟨steady, ?_, fun more => ?_⟩
    · rw [List.nil_append, marks_newline steady.inText]
      rfl
    · rw [List.nil_append, List.nil_append, marks_newline steady.inText,
        marks_newline steady.inText]
      rfl
  · rename_i some
    have ended : LineEnded (line ++ [newline]) := by
      intro c mem
      rw [List.getLast?_concat] at mem
      exact (Option.mem_some_iff.mp mem).symm
    obtain ⟨-, inText, marked, collects⟩ := scan_scanned s.state (line ++ [newline]) ended
    obtain ⟨collected, sound⟩ := collects s steady.sound (by simpa using fits)
    have kept : withoutEmptyLines true (marks s.state.mode (line ++ [newline])) =
        marks s.state.mode (line ++ [newline]) :=
      withoutEmptyLines_line (map_fst_marks _ _) inLine fun _ => some
    rw [kept]
    refine ⟨⟨sound, inText (by simp)⟩, collected, fun more => ?_⟩
    have whole := marked more
    rw [List.append_assoc] at whole
    exact whole

/-- The lines as the scanner is given them. -/
def entered (lines : List Bytes) : Bytes :=
  lines.flatMap fun line => line ++ [newline]

/-- The lines collect the text without its empty lines. -/
theorem processInput_lines {lines : List Bytes} {s : ClientState} (steady : s.Steady)
    (inLines : ∀ line ∈ lines, newline ∉ line)
    (fits : s.sqlBuffer.length + (entered lines).length ≤ sqlBufferLimit) :
    (lines.foldl ClientState.processInput s).Steady ∧
      (lines.foldl ClientState.processInput s).collected = collect s.collected
        (withoutEmptyLines true (marks s.state.mode (entered lines))) := by
  induction lines generalizing s with
  | nil => exact ⟨steady, rfl⟩
  | cons line lines inductionHypothesis =>
      have length : (entered (line :: lines)).length = line.length + 1 + (entered lines).length := by
        rw [entered, List.flatMap_cons, List.length_append, List.length_append]
        rfl
      rw [length] at fits
      obtain ⟨steady', collected, marked⟩ := processInput_spec steady
        (inLines line List.mem_cons_self) (by omega)
      -- the text collected so far has not grown beyond the line
      have shorter : (s.processInput line).sqlBuffer.length ≤
          s.sqlBuffer.length + (line.length + 1) := by
        have bound := length_collect_le s.collected
          (withoutEmptyLines true (marks s.state.mode (line ++ [newline])))
        rw [← collected] at bound
        have fewer := length_withoutEmptyLines_le true (marks s.state.mode (line ++ [newline]))
        have same := congrArg List.length (map_fst_marks s.state.mode (line ++ [newline]))
        rw [List.length_map, List.length_append] at same
        change (s.processInput line).sqlBuffer.length ≤ s.sqlBuffer.length + _ at bound
        rw [List.length_singleton] at same
        omega
      obtain ⟨steadyAll, all⟩ := inductionHypothesis steady'
        (fun line mem => inLines line (List.mem_cons_of_mem _ mem)) (by omega)
      refine ⟨steadyAll, ?_⟩
      have whole : entered (line :: lines) = line ++ newline :: entered lines := by
        simp [entered]
      have start : lineStart true (marks s.state.mode (line ++ [newline])) = true := by
        have fst := map_fst_marks s.state.mode (line ++ [newline])
        obtain ⟨front, last, same, -, ends⟩ := List.map_eq_append_iff.mp fst
        obtain ⟨c, none, rfl, isNewline, empty⟩ := List.map_eq_cons_iff.mp ends
        rw [List.map_eq_nil_iff.mp empty] at same
        rw [same, lineStart_append_singleton, isNewline]
        rfl
      rw [List.foldl_cons, all, whole, marked, withoutEmptyLines_append, start, collect_append,
        collected]

/-! ## The whole input -/

theorem getLines_inLine {text line : Bytes} (mem : line ∈ getLines text) : newline ∉ line := by
  induction text generalizing line with
  | nil => cases mem
  | cons c text inductionHypothesis =>
      rw [getLines] at mem
      split at mem
      · rcases List.mem_cons.mp mem with rfl | mem
        · exact List.not_mem_nil
        · exact inductionHypothesis mem
      · rename_i other
        have first : newline ∉ [c] := fun mem => other (List.mem_singleton.mp mem).symm
        split at mem
        · rwa [List.mem_singleton.mp mem]
        · rename_i line' lines whole
          rw [whole] at inductionHypothesis
          rcases List.mem_cons.mp mem with rfl | mem
          · intro inside
            rcases List.mem_cons.mp inside with same | inside
            · exact other same.symm
            · exact inductionHypothesis List.mem_cons_self inside
          · exact inductionHypothesis (List.mem_cons_of_mem _ mem)

/-- The scanner is given the text, and the end of its last line where that is missing. -/
theorem entered_getLines (text : Bytes) :
    ∃ more, (more = [] ∨ more = [newline]) ∧ entered (getLines text) = text ++ more ∧
      LineEnded (text ++ more) := by
  induction text with
  | nil => exact ⟨[], Or.inl rfl, rfl, fun c mem => by cases mem⟩
  | cons c text inductionHypothesis =>
      obtain ⟨more, cases_more, same, ended⟩ := inductionHypothesis
      rw [getLines]
      split
      · rename_i isNewline
        cases isNewline
        refine ⟨more, cases_more, congrArg (List.cons newline) same, fun d mem => ?_⟩
        rw [List.cons_append, List.getLast?_cons] at mem
        cases last : (text ++ more).getLast? with
        | none =>
            rw [last] at mem
            exact (Option.mem_some_iff.mp mem).symm
        | some e =>
            rw [last] at mem
            exact ended d (last.trans mem)
      · split
        · rename_i none
          rw [none] at same
          obtain ⟨rfl, -⟩ := List.append_eq_nil_iff.mp same.symm
          exact ⟨[newline], Or.inr rfl, rfl, fun d mem => (Option.mem_some_iff.mp mem).symm⟩
        · rename_i line lines whole
          rw [whole] at same
          refine ⟨more, cases_more, congrArg (List.cons c) same, fun d mem => ?_⟩
          have some : text ++ more ≠ [] := by
            rw [← same]
            simp [entered]
          obtain ⟨e, rest, nonempty⟩ := List.exists_cons_of_ne_nil some
          refine ended d ?_
          rw [List.cons_append, nonempty] at mem
          rw [nonempty]
          exact mem

theorem marks_append_newline (m : Mode) (text : Bytes) :
    marks m (text ++ [newline]) = marks m text ++ [(newline, false)] := by
  induction text generalizing m with
  | nil => cases m <;> rfl
  | cons c text inductionHypothesis =>
      rw [List.cons_append, marks, marks, inductionHypothesis]
      rfl

/-- The text that the client collects: the core of the input and white space with the end of a
line. -/
theorem collected_runBatch {text : Bytes} (closed : QuotesClosed (lex text).1)
    (small : (entered (getLines text)).length < sqlBufferLimit) :
    ∃ blank : Bytes, Blank blank ∧ (core text ≠ [] → newline ∈ blank) ∧
      ((getLines text).foldl ClientState.processInput {}).Steady ∧
      ((getLines text).foldl ClientState.processInput {}).sqlBuffer.length < sqlBufferLimit ∧
      ((getLines text).foldl ClientState.processInput {}).collected =
        collect ([], []) (withoutEmptyLines true (core text ++ unmarked blank)) := by
  have start : ({} : ClientState).Steady := ⟨⟨rfl, fun _ => rfl⟩, by simp⟩
  obtain ⟨steady, all⟩ := processInput_lines start (fun line mem => getLines_inLine mem)
    (by simpa using small.le)
  obtain ⟨blank, isBlank, marked⟩ := lexMarks_eq_core closed
  rw [lexMarks_eq closed] at marked
  obtain ⟨more, cases_more, whole, ended⟩ := entered_getLines text
  have moreBlank : Blank more := by
    rcases cases_more with rfl | rfl
    · exact fun c mem => absurd mem List.not_mem_nil
    · intro c mem
      cases List.mem_singleton.mp mem
      rfl
  have split : marks .plain (entered (getLines text)) = core text ++ unmarked (blank ++ more) := by
    rw [whole, unmarked_append, ← List.append_assoc, ← marked]
    rcases cases_more with rfl | rfl
    · rw [List.append_nil]
      exact (List.append_nil _).symm
    · exact marks_append_newline _ _
  refine ⟨blank ++ more, ?_, fun some => ?_, steady, ?_, ?_⟩
  · intro c mem
    exact (List.mem_append.mp mem).elim (isBlank c) (moreBlank c)
  · -- the last character ends a line, and the last of the core is not white space
    obtain none | ⟨front, c, same, visible⟩ := core_endsVisible text
    · exact absurd none some
    · have characters := congrArg (List.map Prod.fst) split
      rw [map_fst_marks, whole, List.map_append] at characters
      have plain : (unmarked (blank ++ more)).map Prod.fst = blank ++ more := by
        rw [unmarked, List.map_map]
        exact List.map_id _
      rw [plain] at characters
      rw [characters] at ended
      rcases List.eq_nil_or_concat (blank ++ more) with none | ⟨before, d, last⟩
      · rw [none, List.append_nil, same, List.map_append] at ended
        have isNewline : c.1 = newline := ended c.1 (by simp)
        rw [isNewline] at visible
        cases visible
      · rw [List.concat_eq_append] at last
        rw [last, ← List.append_assoc] at ended
        cases ended d (by simp)
        rw [last]
        simp
  · have bound := length_collect_le ([], [])
      (withoutEmptyLines true (marks .plain (entered (getLines text))))
    have fewer := length_withoutEmptyLines_le true (marks .plain (entered (getLines text)))
    have same := congrArg List.length (map_fst_marks .plain (entered (getLines text)))
    have buffer := congrArg (fun s => s.2.length) all
    rw [List.length_map] at same
    dsimp only [ClientState.collected] at buffer
    rw [buffer]
    refine lt_of_le_of_lt (bound.trans ?_) small
    rw [← same]
    simpa using fewer
  · rw [all]
    change collect ([], []) (withoutEmptyLines true (marks .plain _)) = _
    rw [split]

/-- Without marks an empty line leaves other white space, and the end of a line that is not
empty. -/
theorem withoutEmptyLines_unmarked (start : Bool) (w : Bytes) :
    ∃ v, withoutEmptyLines start (unmarked w) = unmarked v ∧ (∀ c ∈ v, c ∈ w) ∧
      (start = false → newline ∈ w → newline ∈ v) := by
  induction w generalizing start with
  | nil => exact ⟨[], rfl, fun _ mem => mem, fun _ mem => mem⟩
  | cons c w inductionHypothesis =>
      rw [unmarked_cons, withoutEmptyLines]
      split
      · rename_i empty
        obtain ⟨v, same, sub, -⟩ := inductionHypothesis true
        refine ⟨v, same, fun d mem => List.mem_cons_of_mem _ (sub d mem), fun inLine => ?_⟩
        rw [empty.1] at inLine
        cases inLine
      · obtain ⟨v, same, sub, keeps⟩ := inductionHypothesis (decide (c = newline))
        refine ⟨c :: v, by rw [same]; rfl, fun d mem => ?_, fun _ mem => ?_⟩
        · rcases List.mem_cons.mp mem with rfl | mem
          · exact List.mem_cons_self
          · exact List.mem_cons_of_mem _ (sub d mem)
        · by_cases isNewline : c = newline
          · rw [isNewline]
            exact List.mem_cons_self
          · rcases List.mem_cons.mp mem with same' | mem
            · exact absurd same'.symm isNewline
            · exact List.mem_cons_of_mem _ (keeps (decide_eq_false isNewline) mem)

theorem core_marksVisible {text : Bytes} (closed : QuotesClosed (lex text).1) :
    MarksVisible (core text) := by
  obtain ⟨blank, -, whole⟩ := lexMarks_eq_core closed
  rw [lexMarks_eq closed] at whole
  intro c mem
  refine marksVisible_marks .plain text c ?_
  rw [whole]
  exact List.mem_append_left _ mem

/-- Collected text ends as the text does. -/
theorem trimEnd_collect {text : Marked} (ends : EndsVisible text) :
    trimEnd (collect ([], []) text).2 = (collect ([], []) text).2 := by
  rcases ends with rfl | ⟨front, c, rfl, visible⟩
  · rfl
  · rw [collect_append]
    change trimEnd (collectChar _ c).2 = (collectChar _ c).2
    rw [collectChar, if_neg (not_dropped visible _), cutChar]
    split
    · rfl
    · exact trimEnd_append_visible _ visible

theorem withoutEmptyLines_endsVisible {text : Marked} (ends : EndsVisible text) :
    EndsVisible (withoutEmptyLines true text) := by
  rcases ends with rfl | ⟨front, c, rfl, visible⟩
  · exact Or.inl rfl
  · refine Or.inr ⟨_, c, withoutEmptyLines_append_singleton true front ?_, visible⟩
    intro isNewline
    rw [isNewline] at visible
    cases visible

/-- The frames: what the core sends, and its last statement with its line ended. -/
theorem frames_runBatch {text : Bytes} (closed : QuotesClosed (lex text).1)
    (small : (entered (getLines text)).length < sqlBufferLimit) :
    ∃ blank : Bytes, Blank blank ∧ newline ∈ blank ∧
      (runBatch text).frames = (collect ([], []) (withoutEmptyLines true (core text))).1 ++
        if (collect ([], []) (withoutEmptyLines true (core text))).2 = [] then []
        else [(collect ([], []) (withoutEmptyLines true (core text))).2 ++ blank ++
          [semicolon]] := by
  obtain ⟨tail, tailBlank, tailEnds, steady, short, all⟩ := collected_runBatch closed small
  generalize last_eq : (getLines text).foldl ClientState.processInput {} = last at *
  have run : runBatch text = if last.sqlBuffer = [] then last
      else (last.appendToSql [semicolon]).sendToServer := by
    rw [← last_eq]
    rfl
  obtain ⟨blank, same, sub, keeps⟩ :=
    withoutEmptyLines_unmarked (lineStart true (core text)) tail
  have isBlank : Blank blank := fun c mem => tailBlank c (sub c mem)
  rw [withoutEmptyLines_append, same, collect_append] at all
  have visible := core_marksVisible closed
  generalize core_eq : collect ([], []) (withoutEmptyLines true (core text)) = s at *
  by_cases none : s.2 = []
  · rw [collect_blank none isBlank] at all
    refine ⟨[newline], ?_, List.mem_singleton_self _, ?_⟩
    · intro c mem
      cases List.mem_singleton.mp mem
      rfl
    · have empty : last.sqlBuffer = [] := (congrArg Prod.snd all).trans none
      rw [run, if_pos empty, if_pos none, List.append_nil]
      exact congrArg Prod.fst all
  · rw [collect_unmarked none] at all
    have frames : last.frames = s.1 := congrArg Prod.fst all
    have buffer : last.sqlBuffer = s.2 ++ blank := congrArg Prod.snd all
    refine ⟨blank, isBlank, ?_, ?_⟩
    · rcases core_endsVisible text with empty | ⟨front, c, whole, shown⟩
      · rw [empty] at core_eq
        rw [← core_eq] at none
        exact absurd rfl none
      · refine keeps ?_ (tailEnds (by rw [whole]; simp))
        rw [whole, lineStart_append_singleton]
        refine decide_eq_false fun isNewline => ?_
        rw [isNewline] at shown
        cases shown
    · have fits : last.sqlBuffer.length + [semicolon].length ≤ sqlBufferLimit := short
      rw [run, if_neg (by rw [buffer]; simp [none]), if_neg none,
        ClientState.appendToSql_eq steady.sound.1 fits, ClientState.sendToServer,
        if_neg (by simp [steady.sound.1]), if_neg (by simp), ← frames, ← buffer]
      rfl

/-- What is sent are the statements as they are written if and only if no empty line stands
inside a statement. -/
theorem runBatch_exact {text : Bytes} (terminated : Terminated text)
    (small : (entered (getLines text)).length < sqlBufferLimit) :
    SentAsWritten text (runBatch text).frames ↔ ¬ BlankLineInside text := by
  have closed := terminated.1
  obtain ⟨statements_eq, last_eq⟩ := statements_eq_core closed
  have visible := core_marksVisible closed
  have cut_eq := collect_eq_cut visible
  obtain ⟨blank, isBlank, ends, frames⟩ := frames_runBatch closed small
  have begun := (@collect_withoutEmptyLines_le true _ ([], []) ([], []) Iff.rfl visible).1
  have trimmed := trimEnd_collect (core_endsVisible text)
  have trimmed' := trimEnd_collect (withoutEmptyLines_endsVisible (core_endsVisible text))
  have spec : SentAsWritten text (runBatch text).frames ↔
      collect ([], []) (withoutEmptyLines true (core text)) = collect ([], []) (core text) := by
    rw [SentAsWritten, frames, statements_eq, last_eq]
    rw [cut_eq] at begun trimmed ⊢
    generalize collect ([], []) (withoutEmptyLines true (core text)) = s at *
    generalize (cut (core text)).1.map trimStart = sent at *
    generalize trimStart (cut (core text)).2 = left at *
    dsimp only at begun trimmed
    constructor
    · rintro ⟨blank', isBlank', -, same⟩
      by_cases none : left = []
      · rw [if_pos none, if_pos (begun.mpr none), List.append_nil, List.append_nil] at same
        exact Prod.ext same ((begun.mpr none).trans none.symm)
      · rw [if_neg none, if_neg fun empty => none (begun.mp empty)] at same
        obtain ⟨first, second⟩ := List.append_inj' same rfl
        have text_eq := List.append_cancel_right (List.singleton_inj.mp second)
        have ended := congrArg trimEnd text_eq
        rw [trimEnd_append_blank _ isBlank, trimEnd_append_blank _ isBlank', trimmed, trimmed']
          at ended
        exact Prod.ext first ended
    · intro same
      exact ⟨blank, isBlank, ends, by rw [same]⟩
  rw [spec]
  constructor
  · rintro same ⟨front, back, whole, inside⟩
    rw [whole] at same visible
    refine collect_withoutEmptyLines_ne visible ?_ same
    have frontVisible : MarksVisible front := fun c mem => visible c (List.mem_append_left _ mem)
    rw [collect_eq_cut frontVisible]
    exact fun none => inside (trimStart_eq_nil_iff.mp none)
  · intro outside
    refine collect_withoutEmptyLines_eq (fun _ _ _ _ => rfl) fun front isEnd isEnd' back whole => ?_
    rw [whole] at visible
    have silent : isEnd = false ∧ isEnd' = false := by
      constructor
      · cases isEnd with
        | false => rfl
        | true => cases visible newline (by simp)
      · cases isEnd' with
        | false => rfl
        | true => cases visible newline (by simp)
    obtain ⟨rfl, rfl⟩ := silent
    have frontVisible : MarksVisible front := fun c mem => visible c (List.mem_append_left _ mem)
    rw [collect_eq_cut frontVisible]
    refine trimStart_eq_nil_iff.mpr ?_
    by_contra inside
    exact outside ⟨front, back, whole, inside⟩

/-- Two statements with an empty line between them, and a line end in a string. -/
def twoStatements : Bytes :=
  ascii "begin;\n\nselect 'a\nb'"

theorem runBatch_exact_twoStatements : ¬ BlankLineInside twoStatements :=
  (runBatch_exact (by decide +kernel) (by decide +kernel)).mp
    ⟨[newline], by decide, by decide, by decide +kernel⟩

/-- An empty line inside a string. -/
def blankInString : Bytes :=
  ascii "select 'a\n\nb';\n"

theorem blankInString_lost :
    Terminated blankInString ∧ (entered (getLines blankInString)).length < sqlBufferLimit ∧
      statements blankInString = [ascii "select 'a\n\nb';"] ∧
      (runBatch blankInString).frames = [ascii "select 'a\nb';"] ∧
      ¬ SentAsWritten blankInString (runBatch blankInString).frames := by
  have written : statements blankInString = [ascii "select 'a\n\nb';"] := by decide +kernel
  have sent : (runBatch blankInString).frames = [ascii "select 'a\nb';"] := by decide +kernel
  have none : lastStatement blankInString = [] := by decide +kernel
  refine ⟨by decide +kernel, by decide +kernel, written, sent, ?_⟩
  rintro ⟨blank, -, -, same⟩
  rw [written, sent, none, if_pos rfl, List.append_nil] at same
  exact absurd same (by decide +kernel)

end MySimpleDb.Client
