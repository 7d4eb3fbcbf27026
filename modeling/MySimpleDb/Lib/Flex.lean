import Mathlib.Order.Nat

/-!
# Scanners

A regular pattern over classes of symbols, the longest match at the start of a
text by derivatives, and the scanner of a list of rules: under the current start
condition the longest match wins, the first rule among equal ones, and a symbol
that nothing matches is passed by.
-/

namespace MySimpleDb.Lib

/-- A regular pattern. -/
inductive Pattern (α : Type)
  | fail
  | empty
  | one (p : α → Bool)
  | seq (r s : Pattern α)
  | alt (r s : Pattern α)
  | star (r : Pattern α)

namespace Pattern

variable {α : Type} {r s : Pattern α} {p : α → Bool} {a : α} {text w : List α}

def plus (r : Pattern α) : Pattern α :=
  seq r (star r)

def opt (r : Pattern α) : Pattern α :=
  alt r empty

/-- A fixed word, symbol by symbol. -/
def word (classes : List (α → Bool)) : Pattern α :=
  classes.foldr (fun p r => seq (one p) r) empty

/-! ## Matches -/

inductive Matches : Pattern α → List α → Prop
  | empty : Matches empty []
  | one {p : α → Bool} {a : α} (inClass : p a = true) : Matches (one p) [a]
  | seq {r s : Pattern α} {u v : List α} (first : Matches r u) (second : Matches s v) :
      Matches (seq r s) (u ++ v)
  | left {r s : Pattern α} {w : List α} (here : Matches r w) : Matches (alt r s) w
  | right {r s : Pattern α} {w : List α} (here : Matches s w) : Matches (alt r s) w
  | none {r : Pattern α} : Matches (star r) []
  | more {r : Pattern α} {u v : List α} (first : Matches r u) (others : Matches (star r) v) :
      Matches (star r) (u ++ v)

@[simp] theorem not_matches_fail : ¬ Matches fail w := by
  rintro ⟨⟩

@[simp] theorem matches_empty_iff : Matches empty w ↔ w = [] := by
  constructor
  · rintro ⟨⟩
    rfl
  · rintro rfl
    exact .empty

theorem matches_one_iff : Matches (one p) w ↔ ∃ a, w = [a] ∧ p a = true := by
  constructor
  · rintro ⟨⟩
    exact ⟨_, rfl, ‹_›⟩
  · rintro ⟨a, rfl, inClass⟩
    exact .one inClass

theorem matches_seq_iff :
    Matches (seq r s) w ↔ ∃ u v, w = u ++ v ∧ Matches r u ∧ Matches s v := by
  constructor
  · rintro ⟨⟩
    exact ⟨_, _, rfl, ‹_›, ‹_›⟩
  · rintro ⟨u, v, rfl, first, second⟩
    exact .seq first second

theorem matches_alt_iff : Matches (alt r s) w ↔ Matches r w ∨ Matches s w := by
  constructor
  · rintro ⟨⟩
    · exact Or.inl ‹_›
    · exact Or.inr ‹_›
  · rintro (here | here)
    · exact .left here
    · exact .right here

/-- What holds of no symbols and, with one more match in front, again, holds of a repetition. -/
theorem star_induction {motive : List α → Prop} (none : motive [])
    (more : ∀ u v, Matches r u → motive v → motive (u ++ v)) (matched : Matches (star r) w) :
    motive w := by
  generalize same : star r = q at matched
  induction matched with
  | none => exact none
  | more first others _ inductionHypothesis =>
      cases same
      exact more _ _ first (inductionHypothesis rfl)
  | empty | one _ | seq _ _ _ _ | left _ _ | right _ _ => cases same

/-- A repetition of some symbols starts with a match of some. -/
theorem matches_star_cons_iff :
    Matches (star r) (a :: w) ↔
      ∃ u v, w = u ++ v ∧ Matches r (a :: u) ∧ Matches (star r) v := by
  constructor
  · intro matched
    generalize whole : a :: w = text at matched
    revert whole
    generalize same : star r = q at matched
    induction matched with
    | none => intro whole; cases whole
    | @more r u v first others _ inductionHypothesis =>
        intro whole
        cases u with
        | nil => exact inductionHypothesis same whole
        | cons b u =>
            cases same
            cases whole
            exact ⟨u, v, rfl, first, others⟩
    | empty | one _ | seq _ _ _ _ | left _ _ | right _ _ => cases same
  · rintro ⟨u, v, rfl, first, others⟩
    exact Matches.more first others

/-! ## Derivatives -/

/-- The pattern matches no symbols. -/
def nullable : Pattern α → Bool
  | fail => false
  | empty => true
  | one _ => false
  | seq r s => r.nullable && s.nullable
  | alt r s => r.nullable || s.nullable
  | star _ => true

/-- What is left to match after a symbol. -/
def deriv (a : α) : Pattern α → Pattern α
  | fail => fail
  | empty => fail
  | one p => if p a then empty else fail
  | seq r s => if r.nullable then alt (seq (r.deriv a) s) (s.deriv a) else seq (r.deriv a) s
  | alt r s => alt (r.deriv a) (s.deriv a)
  | star r => seq (r.deriv a) (star r)

theorem nullable_iff : r.nullable = true ↔ Matches r [] := by
  induction r with
  | fail => simp [nullable]
  | empty => simp [nullable]
  | one p => simp [nullable, matches_one_iff]
  | seq r s first second =>
      simp only [nullable, Bool.and_eq_true, first, second, matches_seq_iff,
        List.nil_eq_append_iff]
      constructor
      · rintro ⟨here, there⟩
        exact ⟨[], [], ⟨rfl, rfl⟩, here, there⟩
      · rintro ⟨u, v, ⟨rfl, rfl⟩, here, there⟩
        exact ⟨here, there⟩
  | alt r s first second => simp [nullable, first, second, matches_alt_iff]
  | star r _ => simp [nullable, Matches.none]

theorem matches_deriv_iff : Matches (r.deriv a) w ↔ Matches r (a :: w) := by
  induction r generalizing w with
  | fail => simp [deriv]
  | empty => simp [deriv]
  | one p =>
      rw [deriv, matches_one_iff]
      by_cases inClass : p a = true
      · rw [if_pos inClass, matches_empty_iff]
        constructor
        · rintro rfl
          exact ⟨a, rfl, inClass⟩
        · rintro ⟨b, same, -⟩
          exact (List.cons.inj same).2
      · rw [if_neg inClass]
        refine iff_of_false not_matches_fail ?_
        rintro ⟨b, same, inClass'⟩
        exact inClass ((List.cons.inj same).1 ▸ inClass')
  | seq r s first second =>
      have parts : Matches (seq (r.deriv a) s) w ↔
          ∃ u v, w = u ++ v ∧ Matches r (a :: u) ∧ Matches s v := by
        simp only [matches_seq_iff, first]
      rw [deriv, matches_seq_iff]
      by_cases null : r.nullable = true
      · rw [if_pos null, matches_alt_iff, parts, second]
        constructor
        · rintro (⟨u, v, rfl, here, there⟩ | there)
          · exact ⟨a :: u, v, rfl, here, there⟩
          · exact ⟨[], a :: w, rfl, nullable_iff.mp null, there⟩
        · rintro ⟨_ | ⟨b, u⟩, v, whole, here, there⟩
          · rw [List.nil_append] at whole
            exact Or.inr (whole ▸ there)
          · cases whole
            exact Or.inl ⟨u, v, rfl, here, there⟩
      · rw [if_neg null, parts]
        constructor
        · rintro ⟨u, v, rfl, here, there⟩
          exact ⟨a :: u, v, rfl, here, there⟩
        · rintro ⟨_ | ⟨b, u⟩, v, whole, here, there⟩
          · exact absurd (nullable_iff.mpr here) null
          · cases whole
            exact ⟨u, v, rfl, here, there⟩
  | alt r s first second => simp only [deriv, matches_alt_iff, first, second]
  | star r inductionHypothesis =>
      rw [deriv, matches_seq_iff, matches_star_cons_iff]
      simp only [inductionHypothesis]

/-! ## The longest match -/

/-- The length of the longest match at the start of a text; `0` where there is none, or none
with a symbol. -/
def reach : Pattern α → List α → Nat
  | _, [] => 0
  | r, a :: text =>
      let rest := (r.deriv a).reach text
      if 0 < rest then rest + 1 else if (r.deriv a).nullable then 1 else 0

theorem reach_le_length : r.reach text ≤ text.length := by
  induction text generalizing r with
  | nil => exact le_rfl
  | cons a text inductionHypothesis =>
      have rest := @inductionHypothesis (r.deriv a)
      simp only [reach, List.length_cons]
      split
      · omega
      · split <;> omega

theorem matches_take_reach (some : 0 < r.reach text) : Matches r (text.take (r.reach text)) := by
  induction text generalizing r with
  | nil => cases some
  | cons a text inductionHypothesis =>
      simp only [reach] at some ⊢
      split
      · rename_i more
        rw [List.take_succ_cons, ← matches_deriv_iff]
        exact inductionHypothesis more
      · rename_i last
        rw [if_neg last] at some
        split at some
        · rename_i null
          rw [if_pos null, List.take_succ_cons, ← matches_deriv_iff]
          exact nullable_iff.mp null
        · cases some

/-- No match at the start of the text is longer. -/
theorem length_le_reach {rest : List α} (whole : text = w ++ rest) (matched : Matches r w) :
    w.length ≤ r.reach text := by
  subst whole
  induction w generalizing r with
  | nil => exact Nat.zero_le _
  | cons a w inductionHypothesis =>
      rw [← matches_deriv_iff] at matched
      have more := inductionHypothesis matched
      simp only [List.cons_append, reach, List.length_cons]
      split
      · omega
      · rename_i last
        have none : w = [] := List.length_eq_zero_iff.mp (by omega)
        rw [none] at matched
        rw [if_pos (nullable_iff.mpr matched), none]
        exact le_rfl

/-- The classes of a pattern lie in a class. -/
def Over (p : α → Prop) : Pattern α → Prop
  | fail => True
  | empty => True
  | one q => ∀ a, q a = true → p a
  | seq r s => r.Over p ∧ s.Over p
  | alt r s => r.Over p ∧ s.Over p
  | star r => r.Over p

theorem Matches.over {p : α → Prop} (matched : Matches r w) (all : r.Over p) : ∀ a ∈ w, p a := by
  induction matched with
  | empty | none => exact fun a mem => absurd mem List.not_mem_nil
  | one inClass =>
      intro a mem
      cases List.mem_singleton.mp mem
      exact all _ inClass
  | seq _ _ first second =>
      intro a mem
      exact (List.mem_append.mp mem).elim (first all.1 a) (second all.2 a)
  | left _ inductionHypothesis => exact inductionHypothesis all.1
  | right _ inductionHypothesis => exact inductionHypothesis all.2
  | more _ _ first others =>
      intro a mem
      exact (List.mem_append.mp mem).elim (first all a) (others all a)

theorem over_word {p : α → Prop} {classes : List (α → Bool)}
    (all : ∀ q ∈ classes, ∀ a, q a = true → p a) : (word classes).Over p := by
  induction classes with
  | nil => trivial
  | cons q classes inductionHypothesis =>
      exact ⟨all q List.mem_cons_self,
        inductionHypothesis fun q mem => all q (List.mem_cons_of_mem _ mem)⟩

end Pattern

/-! ## Rules -/

/-- A rule under start conditions: its pattern, what it does with the text, and the start
condition it begins. -/
structure Rule (σ κ α : Type) where
  on : List σ
  pattern : Pattern α
  action : κ
  begins : Option σ := none

namespace Rule

variable {σ κ α : Type} {rule picked : Rule σ κ α} {rules rules' : List (Rule σ κ α)}
  {cond : σ} {text : List α}

/-- The rule that wins: the longest match, the first one of them. -/
def choose (text : List α) : List (Rule σ κ α) → Option (Rule σ κ α)
  | [] => none
  | rule :: rules =>
      match choose text rules with
      | none => if 0 < rule.pattern.reach text then some rule else none
      | some other =>
          if rule.pattern.reach text < other.pattern.reach text then some other else some rule

/-- The rule wins: earlier rules match less, later rules no more. -/
inductive Picks (text : List α) : List (Rule σ κ α) → Rule σ κ α → Prop
  | here {rule : Rule σ κ α} {rules : List (Rule σ κ α)} (some : 0 < rule.pattern.reach text)
      (others : ∀ other ∈ rules, other.pattern.reach text ≤ rule.pattern.reach text) :
      Picks text (rule :: rules) rule
  | there {rule picked : Rule σ κ α} {rules : List (Rule σ κ α)}
      (less : rule.pattern.reach text < picked.pattern.reach text)
      (rest : Picks text rules picked) : Picks text (rule :: rules) picked

theorem Picks.pos (picks : Picks text rules picked) : 0 < picked.pattern.reach text := by
  induction picks with
  | here some others => exact some
  | there less rest inductionHypothesis => exact inductionHypothesis

theorem Picks.mem (picks : Picks text rules picked) : picked ∈ rules := by
  induction picks with
  | here some others => exact List.mem_cons_self
  | there less rest inductionHypothesis => exact List.mem_cons_of_mem _ inductionHypothesis

theorem Picks.le (picks : Picks text rules picked) :
    ∀ other ∈ rules, other.pattern.reach text ≤ picked.pattern.reach text := by
  induction picks with
  | here some others =>
      intro other mem
      rcases List.mem_cons.mp mem with rfl | mem
      · exact le_rfl
      · exact others other mem
  | there less rest inductionHypothesis =>
      intro other mem
      rcases List.mem_cons.mp mem with rfl | mem
      · exact less.le
      · exact inductionHypothesis other mem

theorem picks_cons_iff : Picks text (rule :: rules) picked ↔
    (picked = rule ∧ 0 < rule.pattern.reach text ∧
      ∀ other ∈ rules, other.pattern.reach text ≤ rule.pattern.reach text) ∨
    (rule.pattern.reach text < picked.pattern.reach text ∧ Picks text rules picked) := by
  constructor
  · rintro ⟨⟩
    · exact Or.inl ⟨rfl, ‹_›, ‹_›⟩
    · exact Or.inr ⟨‹_›, ‹_›⟩
  · rintro (⟨rfl, some, others⟩ | ⟨less, rest⟩)
    · exact .here some others
    · exact .there less rest

theorem Picks.append (picks : Picks text (rules ++ rules') picked) :
    (picked ∈ rules ∧ ∀ other ∈ rules', other.pattern.reach text ≤ picked.pattern.reach text) ∨
    ((∀ other ∈ rules, other.pattern.reach text < picked.pattern.reach text) ∧
      Picks text rules' picked) := by
  induction rules with
  | nil => exact Or.inr ⟨fun other mem => absurd mem List.not_mem_nil, picks⟩
  | cons rule rules inductionHypothesis =>
      have above := picks.le
      rcases picks_cons_iff.mp picks with ⟨rfl, some, others⟩ | ⟨less, rest⟩
      · exact Or.inl ⟨List.mem_cons_self, fun other mem =>
          others other (List.mem_append_right _ mem)⟩
      · rcases inductionHypothesis rest with ⟨mem, others⟩ | ⟨before, picks⟩
        · exact Or.inl ⟨List.mem_cons_of_mem _ mem, others⟩
        · refine Or.inr ⟨fun other mem => ?_, picks⟩
          rcases List.mem_cons.mp mem with rfl | mem
          · exact less
          · exact before other mem

theorem choose_none (none : choose text rules = none) :
    ∀ rule ∈ rules, rule.pattern.reach text = 0 := by
  induction rules with
  | nil => exact fun rule mem => absurd mem List.not_mem_nil
  | cons rule rules inductionHypothesis =>
      rw [choose] at none
      split at none
      · rename_i others
        split at none
        · cases none
        · intro other mem
          rcases List.mem_cons.mp mem with rfl | mem
          · omega
          · exact inductionHypothesis others other mem
      · split at none <;> cases none

theorem choose_picks (chosen : choose text rules = some picked) : Picks text rules picked := by
  induction rules generalizing picked with
  | nil => cases chosen
  | cons rule rules inductionHypothesis =>
      rw [choose] at chosen
      split at chosen
      · rename_i others
        split at chosen
        · rename_i some
          cases chosen
          refine .here some fun other mem => ?_
          rw [choose_none others other mem]
          exact Nat.zero_le _
        · cases chosen
      · rename_i other others
        have rest := inductionHypothesis others
        split at chosen
        · rename_i less
          cases chosen
          exact .there less rest
        · rename_i notLess
          cases chosen
          have pos := rest.pos
          exact .here (by omega) fun other mem => (rest.le other mem).trans (by omega)

/-! ## Scanning -/

variable [DecidableEq σ]

/-- The rules of a start condition. -/
def active (rules : List (Rule σ κ α)) (cond : σ) : List (Rule σ κ α) :=
  rules.filter fun rule => cond ∈ rule.on

/-- The chunks of a text, each with the action of its rule, and the last start condition. Every
chunk takes a symbol, so the length of the text is fuel enough. -/
def scanFuel (rules : List (Rule σ κ α)) :
    Nat → σ → List α → List (Option κ × List α) × σ
  | 0, cond, _ => ([], cond)
  | _, cond, [] => ([], cond)
  | fuel + 1, cond, a :: text =>
      match choose (a :: text) (active rules cond) with
      | none =>
          let (chunks, last) := scanFuel rules fuel cond text
          ((none, [a]) :: chunks, last)
      | some rule =>
          let n := rule.pattern.reach (a :: text)
          let (chunks, last) :=
            scanFuel rules fuel (rule.begins.getD cond) ((a :: text).drop n)
          ((some rule.action, (a :: text).take n) :: chunks, last)

def scan (rules : List (Rule σ κ α)) (cond : σ) (text : List α) :
    List (Option κ × List α) × σ :=
  scanFuel rules text.length cond text

/-- A winning rule with its match and the text behind it. -/
structure Wins (rules : List (Rule σ κ α)) (cond : σ) (rule : Rule σ κ α) (w rest : List α) :
    Prop where
  picks : Picks (w ++ rest) (active rules cond) rule
  reach : rule.pattern.reach (w ++ rest) = w.length
  matched : rule.pattern.Matches w

theorem Wins.nonempty {w rest : List α} (wins : Wins rules cond rule w rest) : w ≠ [] := by
  rintro rfl
  have pos := wins.picks.pos
  rw [wins.reach] at pos
  cases pos

/-- No active rule has a longer match. -/
theorem Wins.longest {w rest v more : List α} (wins : Wins rules cond rule w rest)
    {other : Rule σ κ α} (mem : other ∈ active rules cond) (whole : w ++ rest = v ++ more)
    (matched : other.pattern.Matches v) : v.length ≤ w.length := by
  have here := wins.picks.le other mem
  rw [wins.reach] at here
  exact (Pattern.length_le_reach whole matched).trans here

/-- A fact about the chunks of a text, from one chunk to the whole. -/
theorem scan_induction {motive : σ → List α → List (Option κ × List α) → σ → Prop}
    (total : ∀ cond a text, ∃ rule ∈ active rules cond, ∃ w rest, a :: text = w ++ rest ∧ w ≠ [] ∧
      rule.pattern.Matches w)
    (done : ∀ cond, motive cond [] [] cond)
    (chunk : ∀ cond (rule : Rule σ κ α) w rest chunks last, Wins rules cond rule w rest →
      motive (rule.begins.getD cond) rest chunks last →
        motive cond (w ++ rest) ((some rule.action, w) :: chunks) last)
    (cond : σ) (text : List α) :
    motive cond text (scan rules cond text).1 (scan rules cond text).2 := by
  have fuelled : ∀ fuel cond (text : List α), text.length ≤ fuel →
      motive cond text (scanFuel rules fuel cond text).1 (scanFuel rules fuel cond text).2 := by
    intro fuel
    induction fuel with
    | zero =>
        intro cond text short
        cases List.length_eq_zero_iff.mp (Nat.le_zero.mp short)
        exact done cond
    | succ fuel inductionHypothesis =>
        intro cond text short
        cases text with
        | nil => exact done cond
        | cons a text =>
            cases chosen : choose (a :: text) (active rules cond) with
            | none =>
                obtain ⟨rule, mem, w, rest, whole, nonempty, matched⟩ := total cond a text
                have reached := Pattern.length_le_reach whole matched
                rw [choose_none chosen rule mem] at reached
                exact absurd (List.length_eq_zero_iff.mp (Nat.le_zero.mp reached)) nonempty
            | some rule =>
                have picks := choose_picks chosen
                have pos := picks.pos
                have within : rule.pattern.reach (a :: text) ≤ (a :: text).length :=
                  Pattern.reach_le_length
                have matched := Pattern.matches_take_reach pos
                generalize n_eq : rule.pattern.reach (a :: text) = n at *
                have split := List.take_append_drop n (a :: text)
                have length : ((a :: text).take n).length = n := by
                  rw [List.length_take]
                  omega
                have shorter : ((a :: text).drop n).length ≤ fuel := by
                  rw [List.length_drop]
                  rw [List.length_cons] at short ⊢
                  omega
                have rest := inductionHypothesis (rule.begins.getD cond) _ shorter
                have wins : Wins rules cond rule ((a :: text).take n) ((a :: text).drop n) := by
                  refine ⟨?_, ?_, matched⟩
                  · rw [split]
                    exact picks
                  · rw [split, length, n_eq]
                have whole := chunk cond rule _ _ _ _ wins rest
                rw [split] at whole
                rw [scanFuel, chosen]
                dsimp only
                rw [n_eq]
                exact whole
  exact fuelled text.length cond text le_rfl

end Rule

end MySimpleDb.Lib
