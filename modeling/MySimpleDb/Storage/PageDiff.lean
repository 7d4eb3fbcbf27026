import MySimpleDb.Storage.BufferPool

/-!
# What the patches of a change cover

The regions that `log_page_diff` logs lie inside the page and cover every byte
that changed, so the after-halves turn the baseline into the page.
-/

namespace MySimpleDb.Storage

open MySimpleDb.Lib

/-! ## Regions of differing words -/

section Regions

variable {differs : Nat → Bool} {words : Nat}

/-- The inner loop goes on to where everything that differs is inside the region. -/
theorem regionEnd_spec (turns : Nat) {hi w : Nat} (inside : hi ≤ words) (from_hi : hi ≤ w)
    (start : w ≤ hi + 1) :
    hi ≤ (regionEnd differs words turns hi w).1 ∧
      (regionEnd differs words turns hi w).1 ≤ words ∧
      w ≤ (regionEnd differs words turns hi w).2 ∧
      ∀ k, w ≤ k → k < (regionEnd differs words turns hi w).2 → differs k = true →
        k < (regionEnd differs words turns hi w).1 := by
  induction turns generalizing hi w with
  | zero =>
      refine ⟨le_rfl, inside, le_rfl, ?_⟩
      intro k from_w below
      simp only [regionEnd] at below
      omega
  | succ turns inductionHypothesis =>
      rw [regionEnd]
      split
      · rename_i goOn
        by_cases differ : differs w = true
        · rw [if_pos differ]
          obtain ⟨above, below, later, covered⟩ :=
            inductionHypothesis (w := w + 1) (show w + 1 ≤ words by omega) le_rfl (by omega)
          refine ⟨by omega, below, by omega, ?_⟩
          intro k from_w before_end differ_k
          by_cases same : k = w
          · omega
          · exact covered k (by omega) before_end differ_k
        · rw [if_neg differ]
          obtain ⟨above, below, later, covered⟩ :=
            inductionHypothesis (w := w + 1) inside (by omega) (by omega)
          refine ⟨above, below, by omega, ?_⟩
          intro k from_w before_end differ_k
          by_cases same : k = w
          · rw [same] at differ_k
            exact absurd differ_k differ
          · exact covered k (by omega) before_end differ_k
      · refine ⟨le_rfl, inside, le_rfl, ?_⟩
        intro k from_w below
        dsimp only at below
        omega

/-- Every region lies inside the words. -/
theorem diffRegions_inside {turns w lo hi : Nat}
    (mem : (lo, hi) ∈ diffRegions differs words turns w) : lo < hi ∧ hi ≤ words := by
  induction turns generalizing w with
  | zero => cases mem
  | succ turns inductionHypothesis =>
      rw [diffRegions] at mem
      split at mem
      · rename_i inside
        split at mem
        · have spec := @regionEnd_spec differs words words (w + 1) (w + 1) inside le_rfl (by omega)
          rcases List.mem_cons.mp mem with same | mem
          · cases same
            exact ⟨by omega, spec.2.1⟩
          · exact inductionHypothesis mem
        · exact inductionHypothesis mem
      · cases mem

theorem regionEnd_le (turns : Nat) {hi w : Nat} (from_hi : hi ≤ w) :
    (regionEnd differs words turns hi w).1 ≤ (regionEnd differs words turns hi w).2 := by
  induction turns generalizing hi w with
  | zero => exact from_hi
  | succ turns inductionHypothesis =>
      rw [regionEnd]
      split
      · apply inductionHypothesis
        split
        · exact le_rfl
        · exact Nat.le_succ_of_le from_hi
      · exact from_hi

theorem le_regionEnd (turns : Nat) (hi w : Nat) :
    w ≤ (regionEnd differs words turns hi w).2 := by
  induction turns generalizing hi w with
  | zero => exact le_rfl
  | succ turns inductionHypothesis =>
      rw [regionEnd]
      split
      · exact Nat.le_of_succ_le (inductionHypothesis _ (w + 1))
      · exact le_rfl

theorem diffRegions_from {turns w lo hi : Nat}
    (mem : (lo, hi) ∈ diffRegions differs words turns w) : w ≤ lo := by
  induction turns generalizing w with
  | zero => cases mem
  | succ turns inductionHypothesis =>
      rw [diffRegions] at mem
      split at mem
      · split at mem
        · rcases List.mem_cons.mp mem with same | mem
          · cases same
            exact le_rfl
          · have later := @le_regionEnd differs words words (w + 1) (w + 1)
            have above := inductionHypothesis mem
            omega
        · exact Nat.le_of_succ_le (inductionHypothesis mem)
      · cases mem

/-- The regions follow one another. -/
theorem diffRegions_apart (turns w : Nat) :
    (diffRegions differs words turns w).Pairwise fun r r' => r.2 ≤ r'.1 := by
  induction turns generalizing w with
  | zero => exact .nil
  | succ turns inductionHypothesis =>
      rw [diffRegions]
      split
      · split
        · apply List.Pairwise.cons
          · rintro ⟨lo, hi⟩ mem
            exact le_trans (regionEnd_le words le_rfl) (diffRegions_from mem)
          · exact inductionHypothesis _
        · exact inductionHypothesis _
      · exact .nil

/-- Every word that differs is in a region. -/
theorem diffRegions_covers {turns w k : Nat} (enough : words ≤ w + turns) (from_w : w ≤ k)
    (inside : k < words) (differ : differs k = true) :
    ∃ lo hi, (lo, hi) ∈ diffRegions differs words turns w ∧ lo ≤ k ∧ k < hi := by
  induction turns generalizing w with
  | zero => omega
  | succ turns inductionHypothesis =>
      rw [diffRegions, if_pos (by omega)]
      by_cases starts : differs w = true
      · rw [if_pos starts]
        obtain ⟨above, below, later, covered⟩ :=
          @regionEnd_spec differs words words (w + 1) (w + 1) (by omega) le_rfl (by omega)
        by_cases within : k < (regionEnd differs words words (w + 1) (w + 1)).2
        · refine ⟨w, _, List.mem_cons_self, from_w, ?_⟩
          by_cases same : k = w
          · omega
          · exact covered k (by omega) within differ
        · obtain ⟨lo, hi, mem, bounds⟩ := inductionHypothesis
            (w := (regionEnd differs words words (w + 1) (w + 1)).2) (by omega) (by omega)
          exact ⟨lo, hi, List.mem_cons_of_mem _ mem, bounds⟩
      · rw [if_neg starts]
        have after : k ≠ w := by
          rintro rfl
          exact starts differ
        exact inductionHypothesis (by omega) (by omega)

end Regions

/-! ## Regions of differing bytes -/

variable {before data : Page}

theorem pageDiff_inside {off len : Nat} (mem : (off, len) ∈ pageDiff before data) :
    0 < len ∧ off + len ≤ pageSize := by
  obtain ⟨⟨lo, hi⟩, region, same⟩ := List.mem_map.mp mem
  obtain ⟨below, inside⟩ := diffRegions_inside region
  simp only [Prod.mk.injEq] at same
  unfold pageWords pageSize at inside
  unfold pageSize
  omega

theorem pageDiff_aligned {off len : Nat} (mem : (off, len) ∈ pageDiff before data) :
    8 ∣ off ∧ 8 ∣ len := by
  obtain ⟨⟨lo, hi⟩, region, same⟩ := List.mem_map.mp mem
  cases same
  exact ⟨Nat.dvd_mul_right .., Nat.dvd_mul_right ..⟩

theorem pageDiff_apart (before data : Page) :
    (pageDiff before data).Pairwise fun r r' => r.1 + r.2 ≤ r'.1 := by
  rw [pageDiff, List.pairwise_map]
  apply (diffRegions_apart pageWords 0).imp_of_mem
  rintro ⟨lo, hi⟩ ⟨lo', hi'⟩ mem - apart
  have below := (diffRegions_inside mem).1
  dsimp only at apart ⊢
  omega

/-- A byte that differs is covered. -/
theorem pageDiff_covers {i : Nat} (inside : i < pageSize) (differ : before.get i ≠ data.get i) :
    ∃ off len, (off, len) ∈ pageDiff before data ∧ off ≤ i ∧ i < off + len := by
  have word : differs before data (i / 8) = true := by
    rw [differs, decide_eq_true_iff]
    intro same
    apply differ
    have byte := congrArg (fun bytes : List UInt8 => bytes[i % 8]?) same
    have small : i % 8 < 8 := Nat.mod_lt _ (by decide)
    have split : 8 * (i / 8) + i % 8 = i := Nat.div_add_mod i 8
    simpa [Block.read, small, split] using byte
  have inWords : i / 8 < pageWords := by
    unfold pageWords pageSize
    unfold pageSize at inside
    omega
  have region : ∃ lo hi, (lo, hi) ∈ diffRegions (differs before data) pageWords pageWords 0 ∧
      lo ≤ i / 8 ∧ i / 8 < hi := diffRegions_covers (by omega) (Nat.zero_le _) inWords word
  obtain ⟨lo, hi, mem, from_lo, below⟩ := region
  exact ⟨_, _, List.mem_map.mpr ⟨_, mem, rfl⟩, by omega, by omega⟩

/-! ## Patching -/

/-- The bytes of `source` in the regions, written over a page. -/
def patched (source : Page) (regions : List (Nat × Nat)) (p : Page) : Page :=
  regions.foldl (fun p (off, len) => p.write off (source.read off len)) p

theorem get_write_read (source p : Page) {off len i : Nat} (inside : i < pageSize) :
    (p.write off (source.read off len)).get i =
      if off ≤ i ∧ i < off + len then source.get i else p.get i := by
  rw [Block.get_write p off _ i inside]
  by_cases from_off : off ≤ i
  · rw [if_pos from_off]
    by_cases below : i < off + len
    · have small : i - off < len := by omega
      have place : off + (i - off) = i := by omega
      rw [if_pos ⟨from_off, below⟩]
      simp [Block.read, small, place]
    · have beyond : len ≤ i - off := by omega
      rw [if_neg (fun both => below both.2)]
      simp [Block.read, beyond]
  · rw [if_neg from_off, if_neg (fun both => from_off both.1)]

theorem get_patched (source : Page) (regions : List (Nat × Nat)) (p : Page) {i : Nat}
    (inside : i < pageSize) :
    (patched source regions p).get i =
      if ∃ r ∈ regions, r.1 ≤ i ∧ i < r.1 + r.2 then source.get i else p.get i := by
  induction regions generalizing p with
  | nil => simp [patched]
  | cons r regions inductionHypothesis =>
      rw [patched, List.foldl_cons, ← patched, inductionHypothesis, get_write_read source p inside]
      by_cases later : ∃ r ∈ regions, r.1 ≤ i ∧ i < r.1 + r.2
      · simp [later]
      · simp [later]

/-- The after-halves turn the baseline into the page. -/
theorem patched_pageDiff : patched data (pageDiff before data) before = data := by
  apply Block.ext
  intro i inside
  rw [get_patched data _ before inside]
  split
  · rfl
  · rename_i uncovered
    by_contra differ
    obtain ⟨off, len, mem, bounds⟩ := pageDiff_covers inside differ
    exact uncovered ⟨_, mem, bounds⟩

/-- The before-halves turn the page into the baseline, in any order. -/
theorem patched_before {regions : List (Nat × Nat)}
    (same : ∀ r, r ∈ regions ↔ r ∈ pageDiff before data) :
    patched before regions data = before := by
  apply Block.ext
  intro i inside
  rw [get_patched before _ data inside]
  split
  · rfl
  · rename_i uncovered
    by_contra differ
    obtain ⟨off, len, mem, bounds⟩ := pageDiff_covers inside (Ne.symm differ)
    exact uncovered ⟨_, (same _).mpr mem, bounds⟩

end MySimpleDb.Storage
