import MySimpleDb.Parser.Grammar

/-!
# Argument lists

The rule of argument lists goes on from the empty list with a comma, so the
parser takes a list with a comma in front.  On all other token sequences it
takes the expressions separated by single commas and no more.
-/

namespace MySimpleDb.Parser

open MySimpleDb.Lib MySimpleDb.Analyzer

/-! ## The list as it is derived -/

theorem FuncArgs.leftList {ts : List Token} {es : List SqlExpr} :
    FuncArgs ts es → LeftList .comma Expression ts es
  | .empty => .empty
  | .snoc list last => .snoc list.leftList ⟨_, _, last⟩
  | .one first => .one ⟨_, _, first⟩

theorem funcArgs_iff_leftList {ts : List Token} {es : List SqlExpr} :
    FuncArgs ts es ↔ LeftList .comma Expression ts es := by
  constructor
  · exact FuncArgs.leftList
  · intro list
    induction list with
    | empty => exact .empty
    | snoc others last inductionHypothesis =>
        obtain ⟨lefts, rights, last⟩ := last
        exact .snoc inductionHypothesis last
    | one first =>
        obtain ⟨lefts, rights, first⟩ := first
        exact .one first

/-- The tokens of a call. -/
def callTokens (name : String) (args : List Token) : List Token :=
  .identifier name :: .lparen :: (args ++ [.rparen])

/-- A call is derived from its list of arguments and in no other way. -/
theorem expression_funcCall_iff {name : String} {args : List Token} {es : List SqlExpr} :
    Expression (callTokens name args) (.funcCall name es) ↔ FuncArgs args es := by
  constructor
  · rintro ⟨lefts, rights, derived⟩
    generalize whole : callTokens name args = ts at derived
    generalize tree : SqlExpr.funcCall name es = e at derived
    cases derived with
    | literal isLiteral => cases whole
    | funcCall list =>
        cases tree
        have same := List.append_cancel_right (List.cons_injective (List.cons_injective whole))
        rwa [same]
    | cast => cases tree
    | paren => cases whole
    | unary => cases tree
    | binary rule => rcases rule with op | op | op <;> cases tree
    | not => cases tree
    | isNull => cases tree
    | between => cases tree
    | notBetween => cases tree
  · intro list
    exact ⟨_, _, .funcCall list⟩

/-! ## Where commas stand -/

theorem TypeSpecifier.enclosed {ts : List Token} {type : TypeInfo}
    (specifier : TypeSpecifier ts type) : Enclosed .comma ts := by
  cases specifier with
  | plain name =>
      apply Enclosed.singleton
      rintro rfl
      cases name
  | len name =>
      apply Enclosed.singleton
      rintro rfl
      cases name
  | prec name =>
      apply Enclosed.singleton
      rintro rfl
      cases name
  | lenLength name =>
      refine .cons ?_ (.cons (by decide) (.cons (fun h => by cases h) (.singleton (by decide))))
      rintro rfl
      cases name
  | precLength name =>
      refine .cons ?_ (.cons (by decide) (.cons (fun h => by cases h) (.singleton (by decide))))
      rintro rfl
      cases name
  | precScale name =>
      rename_i t name' text text' n m length scale
      have front : Enclosed .comma [t, .lparen, .integer text] := by
        refine .cons ?_ (.cons (by decide) (.singleton (fun h => by cases h)))
        rintro rfl
        cases name
      have back : Enclosed Token.comma [Token.integer text', Token.rparen] :=
        .cons (fun h => by cases h) (.singleton (by decide))
      exact front.separate back

theorem literal_ne_comma {t : Token} {e : SqlExpr} (tree : literal t = some e) : t ≠ .comma := by
  rintro rfl
  cases tree

theorem BinaryRule.token_ne_comma (rule : BinaryRule) : rule.token ≠ .comma := by
  rcases rule with op | op | op <;> cases op <;> decide

theorem unaryToken_ne_comma (op : UnaryOp) : unaryToken op ≠ .comma := by
  cases op <;> decide

mutual

/-- An expression neither begins nor ends with a comma and holds no two in a row. -/
theorem Derives.enclosed {kind : Operand} {ts lefts : List Token} {e : SqlExpr}
    {rights : List OpenRule} : Derives kind ts e lefts rights → Enclosed .comma ts
  | .literal tree => .singleton (literal_ne_comma tree)
  | .funcCall list =>
      .cons (fun h => by cases h) (list.noDouble.1.around (by decide) (by decide))
  | .cast operand specifier =>
      .cons (by decide) (.cons (by decide) (operand.enclosed.join (by decide)
        (specifier.enclosed.snoc (by decide))))
  | .paren inner => inner.enclosed.single.around (by decide) (by decide)
  | .unary op operand _ => .cons (unaryToken_ne_comma op) operand.enclosed
  | .binary rule _ left right _ _ => left.enclosed.join rule.token_ne_comma right.enclosed
  | .not operand _ => .cons (by decide) operand.enclosed
  | .isNull true operand _ =>
      operand.enclosed.join (by decide) (.cons (by decide) (.singleton (by decide)))
  | .isNull false operand _ => operand.enclosed.join (by decide) (.singleton (by decide))
  | .between operand lower upper _ =>
      operand.enclosed.join (by decide) (lower.enclosed.join (by decide) upper.enclosed)
  | .notBetween operand lower upper _ =>
      operand.enclosed.join (by decide)
        (.cons (by decide) (lower.enclosed.join (by decide) upper.enclosed))

/-- An argument list does not end with a comma and holds no two in a row. -/
theorem FuncArgs.noDouble {ts : List Token} {es : List SqlExpr} :
    FuncArgs ts es → NoDouble .comma ts ∧ ts.getLast? ≠ some .comma
  | .empty => ⟨noDouble_nil, fun h => by cases h⟩
  | .snoc list last =>
      ⟨list.noDouble.1.separate list.noDouble.2 last.enclosed, last.enclosed.last_behind _ _⟩
  | .one first => ⟨first.enclosed.single, first.enclosed.last⟩

end

theorem Expression.enclosed {ts : List Token} {e : SqlExpr} (expression : Expression ts e) :
    Enclosed .comma ts := by
  obtain ⟨lefts, rights, derived⟩ := expression
  exact derived.enclosed

/-! ## Argument lists -/

/-- No argument, or expressions separated by single commas. -/
def ArgList (ts : List Token) (es : List SqlExpr) : Prop :=
  ts = [] ∧ es = [] ∨ Separated .comma Expression ts es

/-- A comma in front, one at the end, or two in a row. -/
def Misplaced (ts : List Token) : Prop :=
  ts.head? = some .comma ∨ ts.getLast? = some .comma ∨
    ∃ front back, ts = front ++ .comma :: .comma :: back

/-- A comma in front of one or more expressions separated by single commas. -/
def LeadingComma (ts : List Token) : Prop :=
  ∃ rest es, ts = .comma :: rest ∧ Separated .comma Expression rest es

theorem ArgList.not_misplaced {ts : List Token} {es : List SqlExpr} (list : ArgList ts es) :
    ¬ Misplaced ts := by
  rintro (head | last | ⟨front, back, double⟩)
  all_goals
    rcases list with ⟨rfl, rfl⟩ | separated
  · cases head
  · exact (separated.enclosed Expression.enclosed).head head
  · cases last
  · exact (separated.enclosed Expression.enclosed).last last
  · cases front <;> cases double
  · have single := (separated.enclosed Expression.enclosed).single
    rw [double, NoDouble, List.isChain_append_cons_cons] at single
    exact single.2.1 ⟨rfl, rfl⟩

theorem LeadingComma.misplaced {ts : List Token} (leading : LeadingComma ts) : Misplaced ts := by
  obtain ⟨rest, es, rfl, -⟩ := leading
  exact Or.inl rfl

/-- With these tokens between the parentheses, the calls derived are those with the
expressions of an argument list, and a misplaced comma is a syntax error. -/
def ArgsExact (ts : List Token) : Prop :=
  (∀ name es, Expression (callTokens name ts) (.funcCall name es) ↔ ArgList ts es) ∧
    (Misplaced ts → ∀ name es, ¬ Expression (callTokens name ts) (.funcCall name es))

/-- Calls are derived as they should be exactly on the token sequences that are no list with
a comma in front. -/
theorem funcArgs_exact (ts : List Token) : ArgsExact ts ↔ ¬ LeadingComma ts := by
  constructor
  · rintro ⟨exact, error⟩ leading
    obtain ⟨rest, es, same, separated⟩ := leading
    have derived : Expression (callTokens "f" ts) (.funcCall "f" es) := by
      rw [expression_funcCall_iff, funcArgs_iff_leftList, leftList_iff]
      exact Or.inr (Or.inr ⟨rest, same, separated⟩)
    exact ((exact "f" es).mp derived).not_misplaced
      (LeadingComma.misplaced ⟨rest, es, same, separated⟩)
  · intro clean
    have all : ∀ name es, Expression (callTokens name ts) (.funcCall name es) ↔ ArgList ts es := by
      intro name es
      rw [expression_funcCall_iff, funcArgs_iff_leftList, leftList_iff]
      constructor
      · rintro (none | separated | ⟨rest, same, separated⟩)
        · exact Or.inl none
        · exact Or.inr separated
        · exact absurd ⟨rest, es, same, separated⟩ clean
      · rintro (none | separated)
        · exact Or.inl none
        · exact Or.inr (Or.inl separated)
    refine ⟨all, fun misplaced name es derived => ?_⟩
    exact ((all name es).mp derived).not_misplaced misplaced

/-- The call `f(,1)` is derived, with one argument. -/
theorem funcArgs_leading_comma :
    Expression (callTokens "f" [.comma, .integer (ascii "1")])
        (.funcCall "f" [.int (ascii "1")]) ∧
      ¬ ArgsExact [.comma, .integer (ascii "1")] := by
  have one : Derives .expression [.integer (ascii "1")] (.int (ascii "1")) [] [] := .literal rfl
  refine ⟨⟨_, _, .funcCall (.snoc .empty one)⟩, fun exact => ?_⟩
  have derived : Expression (callTokens "f" [.comma, .integer (ascii "1")])
      (.funcCall "f" [.int (ascii "1")]) := ⟨_, _, .funcCall (.snoc .empty one)⟩
  exact exact.2 (Or.inl rfl) _ _ derived

end MySimpleDb.Parser
