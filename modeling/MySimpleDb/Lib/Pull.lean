import Mathlib.Data.List.Basic

/-!
# Sources that are pulled

A source gives one item after another and then none.  `Yields` is the sequence
a source gives while nothing else changes it; `collect` pulls it to its end, and
`sieve` is the loop of an operator that passes on some of its child's items.
-/

namespace MySimpleDb.Lib

/-- The next item, if any, and the source after it. -/
abbrev Pull (κ ρ ε : Type) : Type :=
  κ → Except ε (Option ρ × κ)

namespace Pull

variable {κ ρ ρ' ε : Type} {next : Pull κ ρ ε} {c c' : κ} {rows : List ρ}

/-- Pulled to its end the source gives exactly these items. -/
inductive Yields (next : Pull κ ρ ε) : κ → List ρ → Prop
  | done {c c' : κ} (last : next c = .ok (none, c')) : Yields next c []
  | row {c c' : κ} {r : ρ} {rows : List ρ} (first : next c = .ok (some r, c'))
      (rest : Yields next c' rows) : Yields next c (r :: rows)

/-- A source gives one sequence only. -/
theorem Yields.unique {rows' : List ρ} (yields : Yields next c rows)
    (yields' : Yields next c rows') : rows = rows' := by
  induction yields generalizing rows' with
  | done last =>
      cases yields' with
      | done => rfl
      | row first => simp [last] at first
  | row first rest inductionHypothesis =>
      cases yields' with
      | done last => simp [first] at last
      | row first' rest' =>
          rw [first] at first'
          simp only [Except.ok.injEq, Prod.mk.injEq, Option.some.injEq] at first'
          obtain ⟨rfl, rfl⟩ := first'
          rw [inductionHypothesis rest']

/-! ## Pulling to the end -/

/-- Pull at most `fuel` times. -/
def collect (next : Pull κ ρ ε) (stuck : ε) : Nat → κ → Except ε (List ρ)
  | 0, _ => .error stuck
  | fuel + 1, c =>
      match next c with
      | .error e => .error e
      | .ok (none, _) => .ok []
      | .ok (some r, c') =>
          match collect next stuck fuel c' with
          | .error e => .error e
          | .ok rows => .ok (r :: rows)

theorem yields_of_collect {stuck : ε} {fuel : Nat}
    (collected : collect next stuck fuel c = .ok rows) : Yields next c rows := by
  induction fuel generalizing c rows with
  | zero => cases collected
  | succ fuel inductionHypothesis =>
      unfold collect at collected
      split at collected
      · cases collected
      · rename_i last
        cases collected
        exact .done last
      · rename_i first
        split at collected
        · cases collected
        · rename_i rest
          cases collected
          exact .row first (inductionHypothesis rest)

/-- With more fuel than the source has items the loop ends. -/
theorem Yields.collect {stuck : ε} {fuel : Nat} (yields : Yields next c rows)
    (enough : rows.length < fuel) : collect next stuck fuel c = .ok rows := by
  induction yields generalizing fuel with
  | done last =>
      cases fuel with
      | zero => cases enough
      | succ fuel => simp [Pull.collect, last]
  | row first rest inductionHypothesis =>
      cases fuel with
      | zero => cases enough
      | succ fuel =>
          have later := inductionHypothesis (Nat.lt_of_succ_lt_succ enough)
          simp [Pull.collect, first, later]

theorem length_lt_of_collect {stuck : ε} {fuel : Nat}
    (collected : collect next stuck fuel c = .ok rows) : rows.length < fuel := by
  induction fuel generalizing c rows with
  | zero => cases collected
  | succ fuel inductionHypothesis =>
      rw [collect] at collected
      split at collected
      · cases collected
      · cases collected
        exact Nat.zero_lt_succ fuel
      · split at collected
        · cases collected
        · cases collected
          rename_i later
          exact Nat.succ_lt_succ (inductionHypothesis later)

/-! ## Passing on some of the items -/

/-- Pull until `f` keeps an item. -/
def sieve (next : Pull κ ρ ε) (f : ρ → Except ε (Option ρ')) (stuck : ε) :
    Nat → κ → Except ε (Option ρ' × κ)
  | 0, _ => .error stuck
  | fuel + 1, c =>
      match next c with
      | .error e => .error e
      | .ok (none, c') => .ok (none, c')
      | .ok (some r, c') =>
          match f r with
          | .error e => .error e
          | .ok (some r') => .ok (some r', c')
          | .ok none => sieve next f stuck fuel c'

/-- The items `f` keeps, as long as it raises on none. -/
def keep (f : ρ → Except ε (Option ρ')) : List ρ → Except ε (List ρ')
  | [] => .ok []
  | r :: rows =>
      match f r with
      | .error e => .error e
      | .ok none => keep f rows
      | .ok (some r') =>
          match keep f rows with
          | .error e => .error e
          | .ok rows' => .ok (r' :: rows')

/-- What one call of the loop consumed: items dropped, then the one kept. -/
theorem sieve_eq_some {f : ρ → Except ε (Option ρ')} {stuck : ε} {fuel : Nat} {r' : ρ'}
    (found : sieve next f stuck fuel c = .ok (some r', c')) :
    ∃ rows, ∀ rest out, Yields next c' rest → keep f rest = .ok out →
      Yields next c (rows ++ rest) ∧ keep f (rows ++ rest) = .ok (r' :: out) := by
  induction fuel generalizing c with
  | zero => cases found
  | succ fuel inductionHypothesis =>
      unfold sieve at found
      split at found
      · cases found
      · cases found
      · rename_i r middle first
        split at found
        · cases found
        · rename_i kept
          simp only [Except.ok.injEq, Prod.mk.injEq, Option.some.injEq] at found
          obtain ⟨rfl, rfl⟩ := found
          refine ⟨[r], fun rest out yields keeps => ⟨.row first yields, ?_⟩⟩
          simp [keep, kept, keeps]
        · rename_i dropped
          obtain ⟨rows, later⟩ := inductionHypothesis found
          refine ⟨r :: rows, fun rest out yields keeps => ?_⟩
          obtain ⟨yields', keeps'⟩ := later rest out yields keeps
          exact ⟨.row first yields', by simpa [keep, dropped] using keeps'⟩

theorem sieve_eq_none {f : ρ → Except ε (Option ρ')} {stuck : ε} {fuel : Nat}
    (found : sieve next f stuck fuel c = .ok (none, c')) :
    ∃ rows, Yields next c rows ∧ keep f rows = .ok [] := by
  induction fuel generalizing c with
  | zero => cases found
  | succ fuel inductionHypothesis =>
      unfold sieve at found
      split at found
      · cases found
      · rename_i last
        exact ⟨[], .done last, rfl⟩
      · rename_i r middle first
        split at found
        · cases found
        · cases found
        · rename_i dropped
          obtain ⟨rows, yields, keeps⟩ := inductionHypothesis found
          exact ⟨r :: rows, .row first yields, by simpa [keep, dropped] using keeps⟩

/-- A sieve over a source yields the kept items of what the source yields. -/
theorem yields_sieve {f : ρ → Except ε (Option ρ')} {stuck : ε} {fuel : κ → Nat} {out : List ρ'}
    (yields : Yields (fun c => sieve next f stuck (fuel c) c) c out) :
    ∃ rows, Yields next c rows ∧ keep f rows = .ok out := by
  induction yields with
  | done last => exact sieve_eq_none last
  | row first rest inductionHypothesis =>
      obtain ⟨rest', yields', keeps'⟩ := inductionHypothesis
      obtain ⟨rows, consumed⟩ := sieve_eq_some first
      exact ⟨_, consumed rest' _ yields' keeps'⟩

/-- With more fuel than the source has items the loop is not cut off. -/
theorem Yields.sieve_eq {f : ρ → Except ε (Option ρ')} {stuck : ε} {fuel fuel' : Nat}
    (yields : Yields next c rows) (enough : rows.length < fuel) (enough' : rows.length < fuel') :
    sieve next f stuck fuel c = sieve next f stuck fuel' c := by
  induction yields generalizing fuel fuel' with
  | done last =>
      obtain ⟨fuel, rfl⟩ := Nat.exists_eq_add_one.mpr (Nat.zero_lt_of_lt enough)
      obtain ⟨fuel', rfl⟩ := Nat.exists_eq_add_one.mpr (Nat.zero_lt_of_lt enough')
      simp [Pull.sieve, last]
  | row first rest inductionHypothesis =>
      obtain ⟨fuel, rfl⟩ := Nat.exists_eq_add_one.mpr (Nat.zero_lt_of_lt enough)
      obtain ⟨fuel', rfl⟩ := Nat.exists_eq_add_one.mpr (Nat.zero_lt_of_lt enough')
      have later := inductionHypothesis (Nat.lt_of_succ_lt_succ enough)
        (Nat.lt_of_succ_lt_succ enough')
      simp [Pull.sieve, first, later]

/-- A sieve over a source yields all the kept items. -/
theorem Yields.sieve {f : ρ → Except ε (Option ρ')} {stuck : ε} {fuel : Nat} {out : List ρ'}
    (yields : Yields next c rows) (enough : rows.length < fuel) (keeps : keep f rows = .ok out) :
    Yields (Pull.sieve next f stuck fuel) c out := by
  induction yields generalizing out with
  | @done c c' last =>
      obtain ⟨fuel, rfl⟩ := Nat.exists_eq_add_one.mpr (Nat.zero_lt_of_lt enough)
      have past : Pull.sieve next f stuck (fuel + 1) c = .ok (none, c') := by
        simp [Pull.sieve, last]
      cases keeps
      exact .done past
  | @row c c' r rows first rest inductionHypothesis =>
      have less : rows.length < fuel := Nat.lt_of_succ_lt enough
      obtain ⟨fuel, rfl⟩ := Nat.exists_eq_add_one.mpr (Nat.zero_lt_of_lt enough)
      have step : Pull.sieve next f stuck (fuel + 1) c =
          match f r with
          | .error e => .error e
          | .ok (some r') => .ok (some r', c')
          | .ok none => Pull.sieve next f stuck fuel c' := by
        simp [Pull.sieve, first]
      cases kept : f r with
      | error e => simp [keep, kept] at keeps
      | ok item =>
          cases item with
          | some r' =>
              cases later : keep f rows with
              | error e => simp [keep, kept, later] at keeps
              | ok out' =>
                  simp only [keep, kept, later, Except.ok.injEq] at keeps
                  subst keeps
                  rw [kept] at step
                  exact .row step (inductionHypothesis less later)
          | none =>
              simp only [keep, kept] at keeps
              rw [kept, rest.sieve_eq (Nat.lt_of_succ_lt_succ enough) less] at step
              cases inductionHypothesis less keeps with
              | done last => exact .done (step.trans last)
              | row first' rest' => exact .row (step.trans first') rest'

/-- A loop that returned returns the same over a source that gives the same and a
test that answers the same on what the source gives. -/
theorem sieve_mono (kind : ρ → Prop) {next' : Pull κ ρ ε} {f f' : ρ → Except ε (Option ρ')}
    {stuck : ε} {fuel : Nat} {result : Option ρ' × κ}
    (same : ∀ c r, next c = .ok r → next' c = .ok r)
    (given : ∀ c r c', next c = .ok (some r, c') → kind r)
    (answers : ∀ r o, kind r → f r = .ok o → f' r = .ok o)
    (done : sieve next f stuck fuel c = .ok result) :
    sieve next' f' stuck fuel c = .ok result := by
  induction fuel generalizing c with
  | zero => cases done
  | succ fuel inductionHypothesis =>
      unfold sieve at done ⊢
      split at done
      · cases done
      · rename_i last
        rw [same _ _ last]
        exact done
      · rename_i r middle first
        rw [same _ _ first]
        have kind_r := given _ _ _ first
        split at done
        · cases done
        · rename_i kept
          simp only [answers _ _ kind_r kept]
          exact done
        · rename_i dropped
          simp only [answers _ _ kind_r dropped]
          exact inductionHypothesis done

theorem keep_eq_filterMap {f : ρ → Except ε (Option ρ')} {out : List ρ'}
    (keeps : keep f rows = .ok out) :
    out = rows.filterMap fun r => (f r).toOption.join := by
  induction rows generalizing out with
  | nil =>
      cases keeps
      rfl
  | cons r rows inductionHypothesis =>
      rw [keep] at keeps
      split at keeps
      · cases keeps
      · rename_i dropped
        rw [List.filterMap_cons_none (by rw [dropped]; rfl)]
        exact inductionHypothesis keeps
      · rename_i r' kept
        split at keeps
        · cases keeps
        · rename_i later
          cases keeps
          rw [List.filterMap_cons_some (by rw [kept]; rfl), ← inductionHypothesis later]

theorem keep_length {f : ρ → Except ε (Option ρ')} {out : List ρ'}
    (keeps : keep f rows = .ok out) : out.length ≤ rows.length := by
  rw [keep_eq_filterMap keeps]
  exact List.length_filterMap_le _ _

/-! ## Changing every item -/

/-- Pass on every item through `f`. -/
def pass (next : Pull κ ρ ε) (f : ρ → Except ε ρ') : Pull κ ρ' ε := fun c =>
  match next c with
  | .error e => .error e
  | .ok (none, c') => .ok (none, c')
  | .ok (some r, c') =>
      match f r with
      | .error e => .error e
      | .ok r' => .ok (some r', c')

theorem pass_mono {next' : Pull κ ρ ε} {f : ρ → Except ε ρ'} {result : Option ρ' × κ}
    (same : ∀ c r, next c = .ok r → next' c = .ok r) (done : pass next f c = .ok result) :
    pass next' f c = .ok result := by
  unfold pass at done ⊢
  split at done
  · cases done
  · rename_i last
    rw [same _ _ last]
    exact done
  · rename_i first
    rw [same _ _ first]
    exact done

theorem yields_pass_iff {f : ρ → Except ε ρ'} {out : List ρ'} :
    Yields (pass next f) c out ↔ ∃ rows, Yields next c rows ∧ rows.mapM f = .ok out := by
  constructor
  · intro yields
    induction yields with
    | @done c c' last =>
        unfold pass at last
        split at last
        · cases last
        · rename_i ended
          exact ⟨[], .done ended, rfl⟩
        · split at last <;> cases last
    | @row c c' r' out first rest inductionHypothesis =>
        unfold pass at first
        split at first
        · cases first
        · cases first
        · rename_i r middle given
          split at first
          · cases first
          · rename_i changed
            cases first
            obtain ⟨rows, yields, mapped⟩ := inductionHypothesis
            refine ⟨r :: rows, .row given yields, ?_⟩
            rw [List.mapM_cons, changed, mapped]
            rfl
  · rintro ⟨rows, yields, mapped⟩
    induction yields generalizing out with
    | @done c c' last =>
        cases mapped
        exact .done (by rw [pass, last])
    | @row c c' r rows first rest inductionHypothesis =>
        rw [List.mapM_cons] at mapped
        cases changed : f r with
        | error e => simp [changed, bind, Except.bind] at mapped
        | ok r' =>
            cases later : rows.mapM f with
            | error e => simp [changed, later, bind, Except.bind] at mapped
            | ok out' =>
                simp only [changed, later, bind, Except.bind, pure, Except.pure,
                  Except.ok.injEq] at mapped
                subst mapped
                exact .row (by rw [pass, first]; simp only [changed]) (inductionHypothesis later)

/-! ## One source after another -/

/-- Pull each source to its end before the next one. -/
def series (next : Pull κ ρ ε) : Pull (List κ) ρ ε
  | [] => .ok (none, [])
  | c :: cs =>
      match next c with
      | .error e => .error e
      | .ok (some r, c') => .ok (some r, c' :: cs)
      | .ok (none, _) => series next cs

theorem Yields.series_cons {cs : List κ} {out : List ρ} (yields : Yields next c rows)
    (later : Yields (series next) cs out) : Yields (series next) (c :: cs) (rows ++ out) := by
  induction yields with
  | @done c c' last =>
      have skipped : series next (c :: cs) = series next cs := by rw [series, last]
      cases later with
      | done ended => exact .done (skipped.trans ended)
      | row first rest => exact .row (skipped.trans first) rest
  | row first rest inductionHypothesis =>
      exact .row (by rw [series, first]) inductionHypothesis

/-- A series yields what its sources yield, one after another. -/
theorem yields_series {ι : Type} {start : ι → κ} {items : ι → List ρ} {is : List ι}
    (each : ∀ i ∈ is, Yields next (start i) (items i)) :
    Yields (series next) (is.map start) (is.flatMap items) := by
  induction is with
  | nil => exact .done rfl
  | cons i is inductionHypothesis =>
      apply (each i (List.mem_cons_self ..)).series_cons
      exact inductionHypothesis fun i' mem => each i' (List.mem_cons_of_mem _ mem)

end Pull

end MySimpleDb.Lib
