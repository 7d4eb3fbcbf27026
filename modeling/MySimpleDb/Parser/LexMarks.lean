import MySimpleDb.Parser.Lexer

/-!
# The semicolons of the lexer

Where every quote is closed, the semicolons that the lexer makes tokens are the
ones that end a statement.  Each chunk the lexer takes leads from one mode of
the text to another.
-/

namespace MySimpleDb.Parser

open MySimpleDb.Lib

/-! ## Words and comparisons -/

/-- A match takes plain text to plain text. -/
def KeepsPlain (r : Pattern UInt8) : Prop :=
  ∀ w, r.Matches w → Passes .plain w .plain

section KeepsPlain

open Pattern

variable {r s : Pattern UInt8} {q : UInt8}

theorem keepsPlain_of_over (over_ : r.Over fun c => isOrdinary c = true) : KeepsPlain r :=
  fun _ matched => passes_plain (matched.over over_)

theorem KeepsPlain.seq (first : KeepsPlain r) (second : KeepsPlain s) :
    KeepsPlain (.seq r s) := by
  intro w matched
  obtain ⟨u, v, rfl, here, there⟩ := matches_seq_iff.mp matched
  exact Passes.append (first u here) (second v there)

theorem KeepsPlain.alt (first : KeepsPlain r) (second : KeepsPlain s) :
    KeepsPlain (.alt r s) := by
  intro w matched
  rcases matches_alt_iff.mp matched with here | there
  · exact first w here
  · exact second w there

theorem isDigit_bounds {c : UInt8} (digit : isDigit c = true) : 48 ≤ c.toNat ∧ c.toNat ≤ 57 := by
  simp only [isDigit, Bool.and_eq_true, decide_eq_true_eq] at digit
  exact ⟨digit.1, digit.2⟩

/-- A character away from the ones that matter is ordinary. -/
theorem isOrdinary_of_toNat {c : UInt8} (away : c.toNat ≠ 34 ∧ c.toNat ≠ 39 ∧ c.toNat ≠ 45 ∧
    c.toNat ≠ 47 ∧ c.toNat ≠ 59) : isOrdinary c = true := by
  obtain ⟨not_double, not_quote, not_hyphen, not_solidus, not_end⟩ := away
  rw [isOrdinary_iff]
  exact ⟨fun same => not_quote (by rw [same]; rfl), fun same => not_double (by rw [same]; rfl),
    fun same => not_hyphen (by rw [same]; rfl), fun same => not_solidus (by rw [same]; rfl),
    fun same => not_end (by rw [same]; rfl)⟩

theorem isOrdinary_of_isDigit {c : UInt8} (digit : isDigit c = true) : isOrdinary c = true := by
  have bounds := isDigit_bounds digit
  exact isOrdinary_of_toNat (by omega)

theorem isOrdinary_of_isNameChar {c : UInt8} (name : isNameChar c = true) :
    isOrdinary c = true := by
  simp only [isNameChar, isNameStart, Bool.or_eq_true, Bool.and_eq_true, decide_eq_true_eq,
    UInt8.le_iff_toNat_le] at name
  rcases name with ((lower | upper) | rfl) | digit
  · exact isOrdinary_of_toNat (by simp at lower; omega)
  · exact isOrdinary_of_toNat (by simp at upper; omega)
  · rfl
  · exact isOrdinary_of_isDigit digit

/-- The letters of keywords are lower case. -/
theorem keywordPattern_keepsPlain {keyword : Bytes}
    (lower : keyword.all (fun c => 97 ≤ c && c ≤ 122) = true) :
    KeepsPlain (keywordPattern keyword) := by
  refine keepsPlain_of_over (over_word fun q mem c inClass => ?_)
  obtain ⟨letter, inKeyword, rfl⟩ := List.mem_map.mp mem
  have bounds := List.all_eq_true.mp lower letter inKeyword
  simp only [Bool.and_eq_true, Bool.or_eq_true, decide_eq_true_eq, UInt8.le_iff_toNat_le]
    at bounds inClass
  rcases inClass with rfl | rfl
  · exact isOrdinary_of_toNat (by simp at bounds; omega)
  · refine isOrdinary_of_toNat ?_
    rw [UInt8.toNat_add] at bounds
    simp at bounds
    omega

theorem digitPattern_over : digitPattern.Over fun c => isOrdinary c = true :=
  fun _ => isOrdinary_of_isDigit

theorem dotPattern_over : dotPattern.Over fun c => isOrdinary c = true := by
  intro c same
  cases of_decide_eq_true same
  rfl

/-- The sign of an exponent stands before a digit. -/
theorem exponentPattern_keepsPlain : KeepsPlain exponentPattern := by
  intro w matched
  obtain ⟨e, rest, rfl, isE, matched⟩ := matches_seq_iff.mp matched
  obtain ⟨sign, digits, rfl, isSign, matched⟩ := matches_seq_iff.mp matched
  obtain ⟨some, all⟩ := matches_plus_one_iff.mp matched
  have letter : Passes .plain e .plain := by
    obtain ⟨c, rfl, inClass⟩ := matches_one_iff.mp isE
    refine passes_plain fun d mem => ?_
    cases List.mem_singleton.mp mem
    simp only [Bool.or_eq_true, decide_eq_true_eq] at inClass
    rcases inClass with rfl | rfl <;> rfl
  refine Passes.append letter ?_
  have plain : Passes .plain digits .plain :=
    passes_plain fun c mem => isOrdinary_of_isDigit (all c mem)
  rcases matches_alt_iff.mp isSign with isSign | none
  · obtain ⟨c, rfl, inClass⟩ := matches_one_iff.mp isSign
    simp only [Bool.or_eq_true, decide_eq_true_eq] at inClass
    rcases inClass with rfl | rfl
    · exact Passes.append (Passes.single rfl) plain
    · intro rest
      obtain ⟨d, digits, rfl⟩ := List.exists_cons_of_ne_nil some
      rw [List.singleton_append, List.cons_append, marks_hyphen, plain]
      · rfl
      · rintro r same
        have digit := all d List.mem_cons_self
        rw [(List.cons.inj same).1] at digit
        cases digit
  · rw [matches_empty_iff.mp none]
    exact plain

theorem floatPattern_keepsPlain : KeepsPlain floatPattern := by
  have digits : KeepsPlain (.plus digitPattern) :=
    keepsPlain_of_over ⟨digitPattern_over, digitPattern_over⟩
  have dot : KeepsPlain dotPattern := keepsPlain_of_over dotPattern_over
  have more : KeepsPlain (.star digitPattern) := keepsPlain_of_over digitPattern_over
  exact (digits.seq (dot.seq (more.seq exponentPattern_keepsPlain))).alt
    ((dot.seq (digits.seq exponentPattern_keepsPlain)).alt
      (digits.seq exponentPattern_keepsPlain))

/-- A quoted text with its quotes. -/
theorem quotedPattern_keepsPlain (isQuote : q = quote ∨ q = doubleQuote) :
    KeepsPlain (quotedPattern q) := by
  intro w matched
  obtain ⟨first, rest, rfl, opens, tail⟩ := matches_seq_iff.mp matched
  obtain ⟨inside, last, rfl, repeated, closes⟩ := matches_seq_iff.mp tail
  obtain ⟨c, rfl, same⟩ := matches_one_iff.mp opens
  cases of_decide_eq_true same
  obtain ⟨c, rfl, same⟩ := matches_one_iff.mp closes
  cases of_decide_eq_true same
  refine Passes.append (passes_open isQuote) (Passes.append ?_ passes_close)
  refine star_induction (motive := fun w => Passes (.quoted q) w (.quoted q)) (Passes.nil _)
    (fun u v here others => Passes.append ?_ others) repeated
  rcases matches_alt_iff.mp here with other | doubled
  · obtain ⟨c, rfl, differs⟩ := matches_one_iff.mp other
    exact passes_quoted fun d mem => List.mem_singleton.mp mem ▸ of_decide_eq_true differs
  · obtain ⟨a, v, rfl, firstOne, doubled⟩ := matches_seq_iff.mp doubled
    obtain ⟨b, e, rfl, secondOne, none⟩ := matches_seq_iff.mp doubled
    obtain ⟨c, rfl, same⟩ := matches_one_iff.mp firstOne
    cases of_decide_eq_true same
    obtain ⟨c, rfl, same⟩ := matches_one_iff.mp secondOne
    cases of_decide_eq_true same
    rw [matches_empty_iff.mp none]
    exact passes_doubled isQuote

theorem operatorPattern_keepsPlain {text : String}
    (ordinary : (ascii text).all isOrdinary = true) : KeepsPlain (operatorPattern text) := by
  refine keepsPlain_of_over (over_word fun q mem c inClass => ?_)
  obtain ⟨expected, inText, rfl⟩ := List.mem_map.mp mem
  cases of_decide_eq_true inClass
  exact List.all_eq_true.mp ordinary c inText

end KeepsPlain

/-- A rule whose matches leave plain text plain and end no statement. -/
structure PlainRule (rule : LexRule) : Prop where
  keeps : KeepsPlain rule.pattern
  begins : rule.begins = none
  silent : ∀ w, rule.action w ≠ some .semicolon

theorem plainRule_of_mem {rule : LexRule} (mem : rule ∈ wordRules ++ compareRules) :
    PlainRule rule := by
  rcases List.mem_append.mp mem with mem | mem
  · rcases List.mem_append.mp mem with mem | mem
    · obtain ⟨keyword, inTable, rfl⟩ := List.mem_map.mp mem
      have checked : ∀ keyword ∈ keywords,
          (ascii keyword.1).all (fun c => 97 ≤ c && c ≤ 122) = true ∧
            keyword.2 ≠ .semicolon := by decide +kernel
      obtain ⟨lower, other⟩ := checked keyword inTable
      exact ⟨keywordPattern_keepsPlain lower, rfl, fun w same => other (Option.some.inj same)⟩
    · simp only [List.mem_cons, List.not_mem_nil, or_false] at mem
      rcases mem with rfl | rfl | rfl | rfl | rfl | rfl
      · exact ⟨floatPattern_keepsPlain, rfl, fun w => by simp⟩
      · refine ⟨keepsPlain_of_over ?_, rfl, fun w => by simp⟩
        exact ⟨⟨⟨digitPattern_over, digitPattern_over⟩, dotPattern_over, digitPattern_over⟩,
          dotPattern_over, digitPattern_over, digitPattern_over⟩
      · exact ⟨keepsPlain_of_over ⟨digitPattern_over, digitPattern_over⟩, rfl, fun w => by simp⟩
      · exact ⟨quotedPattern_keepsPlain (Or.inl rfl), rfl, fun w => by simp⟩
      · exact ⟨quotedPattern_keepsPlain (Or.inr rfl), rfl, fun w => by simp⟩
      · refine ⟨keepsPlain_of_over ⟨fun c start => ?_, fun c => isOrdinary_of_isNameChar⟩, rfl,
          fun w => by simp⟩
        refine isOrdinary_of_isNameChar ?_
        rw [isNameChar, start]
        rfl
  · simp only [compareRules, List.mem_cons, List.not_mem_nil, or_false] at mem
    rcases mem with rfl | rfl | rfl | rfl
    · exact ⟨operatorPattern_keepsPlain (by decide +kernel), rfl, fun w => by simp⟩
    · exact ⟨operatorPattern_keepsPlain (by decide +kernel), rfl, fun w => by simp⟩
    · exact ⟨(operatorPattern_keepsPlain (by decide +kernel)).alt
        (operatorPattern_keepsPlain (by decide +kernel)), rfl, fun w => by simp⟩
    · exact ⟨(operatorPattern_keepsPlain (by decide +kernel)).alt
        (operatorPattern_keepsPlain (by decide +kernel)), rfl, fun w => by simp⟩

/-! ## Chunks -/

/-- The mode of a state of the lexer between chunks. -/
def LexState.mode : LexState → Mode
  | .initial => .plain
  | .commentBlock => .block

theorem active_initial : Rule.active lexRules .initial = (wordRules ++ compareRules) ++
    [charRule, newlineRule, blankRule, commentRule, blockStartRule, invalidRule] := by
  rfl

theorem active_commentBlock :
    Rule.active lexRules .commentBlock = [blockEndRule, blockTextRule] := by
  rfl

/-- A fixed operator matches its own text. -/
theorem matches_operatorPattern_iff {text : String} {w : Bytes} :
    (operatorPattern text).Matches w ↔ w = ascii text := by
  rw [operatorPattern]
  induction ascii text generalizing w with
  | nil => exact Pattern.matches_empty_iff
  | cons c more inductionHypothesis =>
      refine Pattern.matches_seq_iff.trans ?_
      constructor
      · rintro ⟨u, v, rfl, first, others⟩
        obtain ⟨d, rfl, same⟩ := Pattern.matches_one_iff.mp first
        rw [of_decide_eq_true same, inductionHypothesis.mp others]
        rfl
      · rintro rfl
        exact ⟨[c], more, rfl, .one (decide_eq_true rfl), inductionHypothesis.mpr rfl⟩

/-- A chunk takes the text from the mode of its state to the mode of the next, and it ends a
statement where it is the token of a semicolon. -/
def ChunkMarked (cond next : LexState) (token : Option Token) (w rest : Bytes) : Prop :=
  marks cond.mode (w ++ rest) =
    w.map (fun c => (c, decide (token = some .semicolon))) ++ marks next.mode rest

theorem chunkMarked_of_passes {cond next : LexState} {token : Option Token} {w rest : Bytes}
    (silent : token ≠ some .semicolon) (passes : Passes cond.mode w next.mode) :
    ChunkMarked cond next token w rest := by
  rw [ChunkMarked, passes, decide_eq_false silent]
  rfl

section Chunk

variable {rule : LexRule} {cond : LexState} {w rest : Bytes}

/-- One character of the lexer's table. -/
theorem charRule_marked (wins : Rule.Wins lexRules .initial charRule w rest) :
    ChunkMarked .initial .initial (charRule.action w) w rest := by
  obtain ⟨c, rfl, inTable⟩ := Pattern.matches_one_iff.mp wins.matched
  have shorter : ∀ v more, [c] ++ rest = v ++ more →
      ∀ other ∈ Rule.active lexRules .initial, other.pattern.Matches v → v.length ≤ 1 :=
    fun v more whole other mem matched => wins.longest mem whole matched
  change ChunkMarked .initial .initial (charToken c) [c] rest
  by_cases isEnd : c = semicolon
  · cases isEnd
    rfl
  · have silent : charToken c ≠ some .semicolon := by
      simp only [charToken, if_neg isEnd]
      split_ifs <;> simp
    by_cases isHyphen : c = hyphen
    · cases isHyphen
      rw [ChunkMarked, decide_eq_false silent]
      refine marks_hyphen fun r same => ?_
      -- two hyphens start a comment, which is longer
      have comment := shorter [hyphen, hyphen] r (congrArg (hyphen :: ·) same) commentRule
        (by rw [active_initial]; simp) (.seq (matches_operatorPattern_iff.mpr rfl) .none)
      exact absurd comment (by decide)
    · by_cases isSolidus : c = solidus
      · cases isSolidus
        rw [ChunkMarked, decide_eq_false silent]
        refine marks_solidus fun r same => ?_
        have comment := shorter [solidus, asterisk] r (congrArg (solidus :: ·) same)
          blockStartRule
          (by rw [active_initial]; simp) (matches_operatorPattern_iff.mpr rfl)
        exact absurd comment (by decide)
      · refine chunkMarked_of_passes silent (passes_plain fun d mem => ?_)
        cases List.mem_singleton.mp mem
        rw [isOrdinary_iff]
        refine ⟨?_, ?_, isHyphen, isSolidus, isEnd⟩
        · rintro rfl
          cases inTable
        · rintro rfl
          cases inTable

/-- A line comment, up to the end of its line. -/
theorem commentRule_marked (wins : Rule.Wins lexRules .initial commentRule w rest) :
    ChunkMarked .initial .initial (commentRule.action w) w rest := by
  obtain ⟨u, v, rfl, first, others⟩ := Pattern.matches_seq_iff.mp wins.matched
  have opens : u = [hyphen, hyphen] := matches_operatorPattern_iff.mp first
  have inLine : ∀ c ∈ v, c ≠ newline := fun c mem =>
    of_decide_eq_true (others.over (p := fun c => decide (c ≠ newline) = true)
      (fun _ inClass => inClass) c mem)
  have passes : Passes .plain (u ++ v) .line := by
    rw [opens]
    exact Passes.append passes_lineStart (passes_line inLine)
  change marks .plain _ = unmarked _ ++ marks .plain rest
  rw [passes, marks_line]
  rintro c r rfl
  by_contra other
  have longer : (u ++ (v ++ [c])).length ≤ (u ++ v).length := by
    have isActive : commentRule ∈ Rule.active lexRules .initial := by
      rw [active_initial]
      simp
    have whole : (u ++ v) ++ c :: r = (u ++ (v ++ [c])) ++ r := by simp
    refine wins.longest isActive whole (.seq first ?_)
    have star : ∀ v : Bytes, (Pattern.star (.one fun c => c ≠ newline)).Matches v →
        (Pattern.star (.one fun c => c ≠ newline)).Matches (v ++ [c]) := by
      intro v repeated
      refine Pattern.star_induction
        (motive := fun v => (Pattern.star (.one fun c => c ≠ newline)).Matches (v ++ [c]))
        ?_ (fun a b here there => ?_) repeated
      · exact .more (u := [c]) (.one (decide_eq_true other)) .none
      · rw [List.append_assoc]
        exact .more here there
    exact star v others
  simp at longer

/-- A character of no other rule: in plain text it is ordinary unless it is a quote. -/
theorem invalidRule_marked (wins : Rule.Wins lexRules .initial invalidRule w rest)
    (others : charRule.pattern.reach (w ++ rest) < invalidRule.pattern.reach (w ++ rest))
    (closed : w ≠ [quote] ∧ w ≠ [doubleQuote]) :
    ChunkMarked .initial .initial (invalidRule.action w) w rest := by
  obtain ⟨c, rfl, -⟩ := Pattern.matches_one_iff.mp wins.matched
  rw [wins.reach] at others
  have outside : charToken c = none := by
    by_contra inTable
    have matched : charRule.pattern.Matches [c] := .one (Option.isSome_iff_ne_none.mpr inTable)
    have reached : [c].length ≤ charRule.pattern.reach ([c] ++ rest) :=
      Pattern.length_le_reach rfl matched
    exact absurd (reached.trans_lt others) (lt_irrefl _)
  refine chunkMarked_of_passes (by simp [invalidRule]) (passes_plain fun d mem => ?_)
  cases List.mem_singleton.mp mem
  rw [isOrdinary_iff]
  refine ⟨?_, ?_, ?_, ?_, ?_⟩
  · exact fun same => closed.1 (by rw [same])
  · exact fun same => closed.2 (by rw [same])
  all_goals
    rintro rfl
    cases outside

theorem wins_marked (wins : Rule.Wins lexRules cond rule w rest)
    (closed : rule.action w = some .error → w ≠ [quote] ∧ w ≠ [doubleQuote]) :
    ChunkMarked cond (rule.begins.getD cond) (rule.action w) w rest := by
  have picks := wins.picks
  cases cond with
  | initial =>
      rw [active_initial] at picks
      rcases picks.append with ⟨mem, -⟩ | ⟨-, picks⟩
      · obtain ⟨keeps, begins, silent⟩ := plainRule_of_mem mem
        rw [begins]
        exact chunkMarked_of_passes (silent w) (keeps w wins.matched)
      · rcases Rule.picks_cons_iff.mp picks with ⟨rfl, -, -⟩ | ⟨notChar, picks⟩
        · exact charRule_marked wins
        rcases Rule.picks_cons_iff.mp picks with ⟨rfl, -, -⟩ | ⟨-, picks⟩
        · obtain ⟨c, rfl, same⟩ := Pattern.matches_one_iff.mp wins.matched
          cases of_decide_eq_true same
          rfl
        rcases Rule.picks_cons_iff.mp picks with ⟨rfl, -, -⟩ | ⟨-, picks⟩
        · refine chunkMarked_of_passes (by simp [blankRule]) (passes_plain fun c mem => ?_)
          have blank := (matches_plus_one_iff.mp wins.matched).2 c mem
          refine isOrdinary_of_isSpace ?_
          rw [isSpace, blank]
          rfl
        rcases Rule.picks_cons_iff.mp picks with ⟨rfl, -, -⟩ | ⟨-, picks⟩
        · exact commentRule_marked wins
        rcases Rule.picks_cons_iff.mp picks with ⟨rfl, -, -⟩ | ⟨-, picks⟩
        · cases matches_operatorPattern_iff.mp wins.matched
          exact chunkMarked_of_passes (by simp [blockStartRule]) passes_blockStart
        rcases Rule.picks_cons_iff.mp picks with ⟨rfl, -, -⟩ | ⟨-, picks⟩
        · exact invalidRule_marked wins notChar (closed rfl)
        cases picks
  | commentBlock =>
      rw [active_commentBlock] at picks
      rcases Rule.picks_cons_iff.mp picks with ⟨rfl, -, -⟩ | ⟨-, picks⟩
      · exact chunkMarked_of_passes (by simp [blockEndRule]) (passes_blockEnd wins.matched)
      rcases Rule.picks_cons_iff.mp picks with ⟨rfl, -, -⟩ | ⟨-, picks⟩
      · have isActive : blockEndRule ∈ Rule.active lexRules .commentBlock := by
          rw [active_commentBlock]
          exact List.mem_cons_self
        have longest : ∀ v more, w ++ rest = v ++ more → blockEndPattern.Matches v →
            v.length ≤ w.length := fun v more whole matched =>
          wins.longest isActive whole matched
        rcases marks_blockText wins.matched longest with passes | ⟨passes, -, alone⟩
        · exact chunkMarked_of_passes (by simp [blockTextRule]) passes
        · change marks .block _ = unmarked w ++ marks .block rest
          rw [passes, marks_asterisk alone]
      cases picks

end Chunk

/-! ## The text -/

/-- Some rule matches whatever stands in the text. -/
theorem lexRules_total (cond : LexState) (c : UInt8) (text : Bytes) :
    ∃ rule ∈ Rule.active lexRules cond, ∃ w rest, c :: text = w ++ rest ∧ w ≠ [] ∧
      rule.pattern.Matches w := by
  cases cond with
  | initial =>
      by_cases atEnd : c = newline
      · exact ⟨newlineRule, by rw [active_initial]; simp, [c], text, rfl, by simp,
          .one (decide_eq_true atEnd)⟩
      · exact ⟨invalidRule, by rw [active_initial]; simp, [c], text, rfl, by simp,
          .one (decide_eq_true atEnd)⟩
  | commentBlock =>
      refine ⟨blockTextRule, by rw [active_commentBlock]; simp, [c], text, rfl, by simp, ?_⟩
      by_cases star : c = asterisk
      · exact .right (matches_plus_one_iff.mpr ⟨by simp, by simpa using star⟩)
      · exact .left (matches_plus_one_iff.mpr ⟨by simp, by simpa using star⟩)

/-- Where all quotes are closed, the semicolon tokens are the semicolons outside of quotes and
comments. -/
theorem lexMarks_eq {text : Bytes} (closed : QuotesClosed (lex text).1) :
    lexMarks text = marks .plain text := by
  revert closed
  refine Rule.scan_induction
    (motive := fun cond text chunks _ =>
      QuotesClosed chunks → tokenMarks chunks = marks cond.mode text)
    lexRules_total (fun cond closed => ?_)
    (fun cond rule w rest chunks last wins others closed => ?_) .initial text
  · cases cond <;> rfl
  · have first := wins_marked wins fun error => closed _ List.mem_cons_self error
    rw [ChunkMarked] at first
    have more := others fun chunk mem => closed chunk (List.mem_cons_of_mem _ mem)
    rw [tokenMarks, List.flatMap_cons, first, ← more]
    rfl

end MySimpleDb.Parser
