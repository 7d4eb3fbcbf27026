import MySimpleDb.Storage.HeapFile

/-!
# Changes of a heap file

What an insertion and a deletion do to the list of live slots, and that a slot
is never used a second time.
-/

namespace MySimpleDb.Storage

open MySimpleDb.Lib

/-! ## Slots of one page -/

namespace HeapPage

theorem liveAt_lower {i : Nat} {slots : List (Option Bytes)} {entry : Nat × Bytes}
    (mem : entry ∈ liveAt i slots) : i ≤ entry.1 ∧ entry.1 < i + slots.length := by
  induction slots generalizing i with
  | nil => cases mem
  | cons slot slots inductionHypothesis =>
      cases slot with
      | none =>
          have := inductionHypothesis mem
          simp only [List.length_cons]
          omega
      | some rec =>
          rcases List.mem_cons.mp mem with rfl | mem
          · simp
          · have := inductionHypothesis mem
            simp only [List.length_cons]
            omega

theorem liveAt_append (i : Nat) (slots slots' : List (Option Bytes)) :
    liveAt i (slots ++ slots') = liveAt i slots ++ liveAt (i + slots.length) slots' := by
  induction slots generalizing i with
  | nil => simp [liveAt]
  | cons slot slots inductionHypothesis =>
      have place : i + 1 + slots.length = i + (slots.length + 1) := by omega
      cases slot <;> simp [liveAt, inductionHypothesis, place]

/-- A tombstone takes its slot out of the live ones. -/
theorem liveAt_set_none (i k : Nat) (slots : List (Option Bytes)) :
    liveAt i (slots.set k none) = (liveAt i slots).filter fun entry => entry.1 ≠ i + k := by
  induction slots generalizing i k with
  | nil => rfl
  | cons slot slots inductionHypothesis =>
      cases k with
      | zero =>
          have others : (liveAt (i + 1) slots).filter (fun entry => decide (entry.1 ≠ i)) =
              liveAt (i + 1) slots := by
            apply List.filter_eq_self.mpr
            intro entry mem
            have := (liveAt_lower mem).1
            simp only [ne_eq, decide_eq_true_eq]
            omega
          cases slot with
          | none => simpa [liveAt] using others.symm
          | some rec => simpa [liveAt] using others.symm
      | succ k =>
          have place : i + 1 + k = i + (k + 1) := by omega
          cases slot with
          | none => simp [liveAt, inductionHypothesis, place]
          | some rec => simp [liveAt, inductionHypothesis, place]

theorem nodup_liveAt (i : Nat) (slots : List (Option Bytes)) :
    ((liveAt i slots).map Prod.fst).Nodup := by
  induction slots generalizing i with
  | nil => exact List.nodup_nil
  | cons slot slots inductionHypothesis =>
      cases slot with
      | none => exact inductionHypothesis (i + 1)
      | some rec =>
          refine List.nodup_cons.mpr ⟨fun mem => ?_, inductionHypothesis (i + 1)⟩
          obtain ⟨entry, mem, same⟩ := List.mem_map.mp mem
          have := (liveAt_lower mem).1
          dsimp only at same
          omega

theorem nodup_liveFrom (p : HeapPage) : ((p.liveFrom 0).map Prod.fst).Nodup := by
  have keys : (p.liveFrom 0).map Prod.fst =
      ((liveAt 0 p.slots).map Prod.fst).map fun slot => (p.no, slot) := by
    simp [liveFrom]
  rw [keys]
  exact (nodup_liveAt 0 p.slots).map fun a b same => (Prod.mk.inj same).2

/-- A slot is live with a record exactly when it holds it. -/
theorem mem_liveFrom_zero {p : HeapPage} {no slot : Nat} {rec : Bytes} :
    ((no, slot), rec) ∈ p.liveFrom 0 ↔ no = p.no ∧ p.record? slot = some rec := by
  suffices loop : ∀ (slots : List (Option Bytes)) (i : Nat),
      (slot, rec) ∈ liveAt i slots ↔ i ≤ slot ∧ slots.getD (slot - i) none = some rec by
    simp only [liveFrom, List.drop_zero, List.mem_map, Prod.mk.injEq, record?]
    constructor
    · rintro ⟨⟨slot', rec'⟩, mem, ⟨rfl, rfl⟩, rfl⟩
      exact ⟨rfl, by simpa using ((loop p.slots 0).mp mem).2⟩
    · rintro ⟨rfl, holds⟩
      exact ⟨(slot, rec), (loop p.slots 0).mpr ⟨Nat.zero_le _, by simpa using holds⟩,
        ⟨rfl, rfl⟩, rfl⟩
  intro slots
  induction slots with
  | nil => intro i; simp [liveAt]
  | cons first slots inductionHypothesis =>
      intro i
      by_cases here : slot = i
      · subst here
        have later : (slot, rec) ∉ liveAt (slot + 1) slots := by
          intro mem
          have := (liveAt_lower mem).1
          dsimp only at this
          omega
        cases first with
        | none => simp [liveAt, later]
        | some rec' => simp [liveAt, later, eq_comm]
      · have shift := inductionHypothesis (i + 1)
        have same : (slot, rec) ∈ liveAt i (first :: slots) ↔ (slot, rec) ∈ liveAt (i + 1) slots := by
          cases first with
          | none => rfl
          | some rec' => simp [liveAt, here]
        rw [same, shift]
        constructor
        · rintro ⟨le, holds⟩
          refine ⟨by omega, ?_⟩
          rw [show slot - i = slot - (i + 1) + 1 by omega]
          simpa using holds
        · rintro ⟨le, holds⟩
          refine ⟨by omega, ?_⟩
          rw [show slot - i = slot - (i + 1) + 1 by omega] at holds
          simpa using holds

end HeapPage

namespace HeapFile

variable {h h' : HeapFile}

/-! ## Slots of a file -/

/-- The slot exists, live or dead. -/
def Used (h : HeapFile) (no slot : Nat) : Prop :=
  ∃ p ∈ h.pages, p.no = no ∧ slot < p.slots.length

theorem WellFormed.ext_no (wellFormed : h.WellFormed) {p q : HeapPage} (p_mem : p ∈ h.pages)
    (q_mem : q ∈ h.pages) (same : p.no = q.no) : p = q := by
  have p_found := wellFormed.page?_iff.mpr ⟨p_mem, rfl⟩
  have q_found := wellFormed.page?_iff.mpr ⟨q_mem, rfl⟩
  rw [same, q_found] at p_found
  exact (Option.some.inj p_found).symm

/-- A live slot is one whose page holds a record in it. -/
theorem mem_live {no slot : Nat} {rec : Bytes} :
    ((no, slot), rec) ∈ h.live ↔ ∃ p ∈ h.pages, p.no = no ∧ p.record? slot = some rec := by
  simp only [live, List.mem_flatMap, HeapPage.mem_liveFrom_zero]
  constructor
  · rintro ⟨p, mem, rfl, holds⟩
    exact ⟨p, mem, rfl, holds⟩
  · rintro ⟨p, mem, rfl, holds⟩
    exact ⟨p, mem, rfl, holds⟩

theorem used_of_mem_live {no slot : Nat} {rec : Bytes} (mem : ((no, slot), rec) ∈ h.live) :
    h.Used no slot := by
  obtain ⟨p, p_mem, rfl, holds⟩ := mem_live.mp mem
  refine ⟨p, p_mem, rfl, ?_⟩
  by_contra beyond
  rw [HeapPage.record?, List.getD_eq_getElem?_getD,
    List.getElem?_eq_none (not_lt.mp beyond)] at holds
  cases holds

/-- No slot is live twice. -/
theorem WellFormed.nodup_live (wellFormed : h.WellFormed) : (h.live.map Prod.fst).Nodup := by
  suffices loop : ∀ pages : List HeapPage, (pages.map HeapPage.no).Pairwise (· < ·) →
      ((pages.flatMap fun p => p.liveFrom 0).map Prod.fst).Nodup from loop _ wellFormed.rising
  intro pages rising
  induction pages with
  | nil => exact List.nodup_nil
  | cons p pages inductionHypothesis =>
      rw [List.map_cons, List.pairwise_cons] at rising
      rw [List.flatMap_cons, List.map_append, List.nodup_append']
      refine ⟨HeapPage.nodup_liveFrom p, inductionHypothesis rising.2, ?_⟩
      intro key here later
      obtain ⟨⟨⟨no, slot⟩, rec⟩, live, rfl⟩ := List.mem_map.mp here
      obtain ⟨entry, later, same⟩ := List.mem_map.mp later
      obtain ⟨q, q_mem, later⟩ := List.mem_flatMap.mp later
      have no_eq := (HeapPage.mem_liveFrom_zero.mp live).1
      have no_eq' : no = q.no := by
        rcases entry with ⟨⟨no', slot'⟩, rec'⟩
        cases same
        exact (HeapPage.mem_liveFrom_zero.mp later).1
      have lt := rising.1 q.no (List.mem_map_of_mem q_mem)
      omega

/-! ## Exchanging a page -/

section SetPage

variable {p q : HeapPage} {before after : List HeapPage}

theorem map_no_setPage (h : HeapFile) (p : HeapPage) :
    (h.setPage p).pages.map HeapPage.no = h.pages.map HeapPage.no := by
  rw [setPage, List.map_map]
  apply List.map_congr_left
  intro q _
  by_cases same : q.no = p.no <;> simp [same]

theorem wellFormed_of_nos (same : h'.pages.map HeapPage.no = h.pages.map HeapPage.no)
    (wellFormed : h.WellFormed) : h'.WellFormed := by
  constructor
  · rw [same]
    exact wellFormed.rising
  · intro p mem
    have no_mem : p.no ∈ h.pages.map HeapPage.no := same ▸ List.mem_map_of_mem mem
    obtain ⟨q, q_mem, q_no⟩ := List.mem_map.mp no_mem
    exact q_no ▸ wellFormed.positive q q_mem

theorem WellFormed.setPage (wellFormed : h.WellFormed) (p : HeapPage) :
    (h.setPage p).WellFormed :=
  wellFormed_of_nos (map_no_setPage h p) wellFormed

/-- Only the page of that number is exchanged. -/
theorem WellFormed.setPage_pages (wellFormed : h.WellFormed)
    (split : h.pages = before ++ q :: after) (same : p.no = q.no) :
    (h.setPage p).pages = before ++ p :: after := by
  have apart : ∀ r ∈ before ++ after, r.no ≠ p.no := by
    have rising := wellFormed.rising
    rw [split, List.map_append, List.map_cons, List.pairwise_append, List.pairwise_cons] at rising
    intro r mem
    rw [same]
    rcases List.mem_append.mp mem with mem | mem
    · exact wellFormed.before_ne split mem
    · exact (rising.2.1.1 r.no (List.mem_map_of_mem mem)).ne'
  have kept : ∀ pages : List HeapPage, (∀ r ∈ pages, r ∈ before ++ after) →
      pages.map (fun r => if r.no = p.no then p else r) = pages := by
    intro pages inside
    conv_rhs => rw [← List.map_id pages]
    apply List.map_congr_left
    intro r mem
    rw [if_neg (apart r (inside r mem))]
    rfl
  rw [HeapFile.setPage, split, List.map_append, List.map_cons, if_pos same.symm,
    kept before fun r mem => List.mem_append_left _ mem,
    kept after fun r mem => List.mem_append_right _ mem]

theorem live_of_split (split : h.pages = before ++ q :: after) :
    h.live = liveOf before ++ (q.liveFrom 0 ++ liveOf after) := by
  simp [live, liveOf, split]

/-- Slots exist as before when a page is exchanged for one with as many. -/
theorem used_setPage (wellFormed : h.WellFormed) (mem : q ∈ h.pages) (same : p.no = q.no)
    {no slot : Nat} :
    (h.setPage p).Used no slot ↔
      if no = q.no then slot < p.slots.length else h.Used no slot := by
  obtain ⟨before, after, split⟩ := List.append_of_mem mem
  unfold Used
  rw [wellFormed.setPage_pages split same]
  split
  · rename_i here
    constructor
    · rintro ⟨r, r_mem, rfl, lt⟩
      have r_eq : r = p := by
        apply (wellFormed.setPage p).ext_no _ _ (here.trans same.symm)
        · rwa [wellFormed.setPage_pages split same]
        · rw [wellFormed.setPage_pages split same]
          simp
      exact r_eq ▸ lt
    · intro lt
      exact ⟨p, by simp, same.trans here.symm, lt⟩
  · rename_i elsewhere
    constructor
    · rintro ⟨r, r_mem, rfl, lt⟩
      refine ⟨r, ?_, rfl, lt⟩
      rw [split]
      rcases List.mem_append.mp r_mem with r_mem | r_mem
      · exact List.mem_append_left _ r_mem
      · rcases List.mem_cons.mp r_mem with rfl | r_mem
        · exact absurd same elsewhere
        · exact List.mem_append_right _ (List.mem_cons_of_mem _ r_mem)
    · rintro ⟨r, r_mem, rfl, lt⟩
      refine ⟨r, ?_, rfl, lt⟩
      rw [split] at r_mem
      rcases List.mem_append.mp r_mem with r_mem | r_mem
      · exact List.mem_append_left _ r_mem
      · rcases List.mem_cons.mp r_mem with rfl | r_mem
        · exact absurd rfl elsewhere
        · exact List.mem_append_right _ (List.mem_cons_of_mem _ r_mem)

end SetPage

/-! ## Deletion -/

theorem live_delete (wellFormed : h.WellFormed) {p : HeapPage} (mem : p ∈ h.pages) (slot : Nat) :
    (h.setPage (p.delete slot)).live =
      h.live.filter fun entry => entry.1 ≠ (p.no, slot) := by
  obtain ⟨before, after, split⟩ := List.append_of_mem mem
  have others : ∀ pages : List HeapPage, (∀ q ∈ pages, q ∈ h.pages ∧ q.no ≠ p.no) →
      (liveOf pages).filter (fun entry => decide (entry.1 ≠ (p.no, slot))) = liveOf pages := by
    intro pages apart
    apply List.filter_eq_self.mpr
    intro entry entry_mem
    obtain ⟨q, q_mem, entry_mem⟩ := List.mem_flatMap.mp entry_mem
    have no_eq := (HeapPage.mem_liveFrom_zero.mp entry_mem).1
    rw [decide_eq_true_eq]
    intro same
    exact (apart q q_mem).2 (no_eq.symm.trans (congrArg Prod.fst same))
  have apart := wellFormed.rising
  rw [split, List.map_append, List.map_cons, List.pairwise_append, List.pairwise_cons] at apart
  have page : (p.delete slot).liveFrom 0 =
      (p.liveFrom 0).filter fun entry => decide (entry.1 ≠ (p.no, slot)) := by
    simp only [HeapPage.liveFrom, HeapPage.delete, List.drop_zero, HeapPage.liveAt_set_none,
      Nat.zero_add, List.filter_map]
    congr 2
    funext entry
    simp
  have split' : (h.setPage (p.delete slot)).pages = before ++ p.delete slot :: after :=
    wellFormed.setPage_pages split rfl
  rw [live_of_split split', live_of_split split, List.filter_append, List.filter_append, ← page,
    others before, others after]
  · intro q q_mem
    exact ⟨by simp [split, q_mem], (apart.2.1.1 q.no (List.mem_map_of_mem q_mem)).ne'⟩
  · intro q q_mem
    exact ⟨by simp [split, q_mem], wellFormed.before_ne split q_mem⟩

/-- What `delete_row` does: the slot addressed dies if it is live. -/
structure Deleted (h : HeapFile) (no slot : Nat) (h' : HeapFile) : Prop where
  wellFormed : h'.WellFormed
  live : h'.live = h.live.filter fun entry => entry.1 ≠ (no, slot)
  used : ∀ {no slot}, h'.Used no slot ↔ h.Used no slot

theorem deleteRow_spec {pageCount n : Nat} {ref : RowRef} (wellFormed : h.WellFormed)
    (done : deleteRow pageCount h ref = .ok (h', n)) :
    (n = 1 ∧ (∃ rec, ((ref.page.pageNo, ref.slot), rec) ∈ h.live) ∧
        Deleted h ref.page.pageNo ref.slot h') ∨
      (n = 0 ∧ h' = h ∧ ∀ rec, ((ref.page.pageNo, ref.slot), rec) ∉ h.live) := by
  obtain ⟨-, -, done⟩ := Res.bind_eq_ok.mp done
  obtain ⟨p, found, done⟩ := Res.bind_eq_ok.mp done
  have page : h.page? ref.page.pageNo = some p := by
    unfold readPage at found
    split at found
    · simp [dbCritical] at found
    · rename_i q q_found
      cases found
      exact q_found
  obtain ⟨mem, no_eq⟩ := wellFormed.page?_iff.mp page
  split at done
  · rename_i dead
    cases done
    refine Or.inr ⟨rfl, rfl, fun rec live => ?_⟩
    obtain ⟨q, q_mem, q_no, holds⟩ := mem_live.mp live
    rw [wellFormed.ext_no q_mem mem (q_no.trans no_eq.symm), dead] at holds
    cases holds
  · rename_i rec holds
    cases done
    refine Or.inl ⟨rfl, ⟨rec, mem_live.mpr ⟨p, mem, no_eq, holds⟩⟩, wellFormed.setPage _, ?_, ?_⟩
    · rw [live_delete wellFormed mem, no_eq]
    · intro no slot
      rw [used_setPage wellFormed mem (show (p.delete ref.slot).no = p.no from rfl)]
      split
      · rename_i here
        constructor
        · intro lt
          exact ⟨p, mem, here.symm, by simpa [HeapPage.delete] using lt⟩
        · rintro ⟨q, q_mem, q_no, lt⟩
          rw [wellFormed.ext_no q_mem mem (q_no.trans here)] at lt
          simpa [HeapPage.delete] using lt
      · rfl

/-! ## Insertion -/

theorem tail_of_split {before : List HeapPage} {p : HeapPage} (split : h.pages = before ++ [p]) :
    h.tail = p.no := by
  simp [tail, split]

/-- No page of the file lies behind its tail. -/
theorem WellFormed.no_le_tail (wellFormed : h.WellFormed) {q : HeapPage} (mem : q ∈ h.pages) :
    q.no ≤ h.tail := by
  obtain ⟨before, p, split⟩ : ∃ before p, h.pages = before ++ [p] :=
    ⟨_, _, (List.dropLast_append_getLast (List.ne_nil_of_mem mem)).symm⟩
  rw [tail_of_split split]
  rw [split] at mem
  rcases List.mem_append.mp mem with mem | mem
  · have rising := wellFormed.rising
    rw [split, List.map_append, List.pairwise_append] at rising
    exact (rising.2.2 q.no (List.mem_map_of_mem mem) p.no (by simp)).le
  · simp at mem
    exact mem ▸ le_rfl

/-- What `insert_row` does to the slots: one live slot more, at a position that
no slot of the file had. -/
structure Appended (h : HeapFile) (no slot : Nat) (rec : Bytes) (h' : HeapFile) : Prop where
  wellFormed : h'.WellFormed
  live : h'.live = h.live ++ [((no, slot), rec)]
  fresh : ¬h.Used no slot
  used : ∀ {no' slot'}, h'.Used no' slot' ↔ h.Used no' slot' ∨ (no' = no ∧ slot' = slot)

section Extend

variable (pageCount : Nat)

theorem extend_no_lt (wellFormed : h.WellFormed) {p : HeapPage} (mem : p ∈ h.pages) :
    p.no < if h.pages = [] then 1 else max pageCount (h.tail + 1) := by
  rw [if_neg (List.ne_nil_of_mem mem)]
  have := wellFormed.no_le_tail mem
  omega

theorem WellFormed.extend (wellFormed : h.WellFormed) : (h.extend pageCount).WellFormed := by
  constructor
  · rw [HeapFile.extend, List.map_append, List.pairwise_append]
    refine ⟨wellFormed.rising, List.pairwise_singleton _ _, ?_⟩
    intro no mem no' mem'
    obtain ⟨p, p_mem, rfl⟩ := List.mem_map.mp mem
    have no'_eq := List.mem_singleton.mp mem'
    rw [no'_eq]
    exact extend_no_lt pageCount wellFormed p_mem
  · intro p mem
    rcases List.mem_append.mp mem with mem | mem
    · exact wellFormed.positive p mem
    · have p_eq := List.mem_singleton.mp mem
      rw [p_eq]
      dsimp only
      split <;> omega

theorem live_extend : (h.extend pageCount).live = h.live := by
  simp [HeapFile.extend, live, HeapPage.liveFrom, HeapPage.liveAt]

theorem used_extend {no slot : Nat} : (h.extend pageCount).Used no slot ↔ h.Used no slot := by
  simp [HeapFile.extend, Used, or_and_right, exists_or]

end Extend

/-- A record that fits on the last page becomes its last slot. -/
theorem append_spec (wellFormed : h.WellFormed) {p p' : HeapPage} {rec : Bytes} {slot : Nat}
    (found : h.page? h.tail = some p) (fits : p.append rec = some (p', slot)) :
    Appended h p'.no slot rec (h.setPage p') := by
  obtain ⟨mem, no_eq⟩ := wellFormed.page?_iff.mp found
  unfold HeapPage.append at fits
  split at fits
  · cases fits
  · cases fits
    obtain ⟨before, q, split⟩ : ∃ before q, h.pages = before ++ [q] :=
      ⟨_, _, (List.dropLast_append_getLast (List.ne_nil_of_mem mem)).symm⟩
    obtain rfl : p = q := wellFormed.ext_no mem (by simp [split]) (no_eq.trans (tail_of_split split))
    have split' : (h.setPage { p with
        freeBegin := p.freeBegin + rec.length, slots := p.slots ++ [some rec] }).pages =
          before ++ [{ p with
            freeBegin := p.freeBegin + rec.length, slots := p.slots ++ [some rec] }] :=
      wellFormed.setPage_pages split rfl
    refine ⟨wellFormed.setPage _, ?_, ?_, ?_⟩
    · rw [live_of_split split', live_of_split split]
      simp [HeapPage.liveFrom, HeapPage.liveAt_append, HeapPage.liveAt, liveOf]
    · rintro ⟨q, q_mem, q_no, lt⟩
      rw [wellFormed.ext_no q_mem mem q_no] at lt
      exact lt_irrefl _ lt
    · intro no' slot'
      have exchanged := @used_setPage h { p with
        freeBegin := p.freeBegin + rec.length, slots := p.slots ++ [some rec] } p wellFormed mem rfl
        no' slot'
      have here : h.Used p.no slot' ↔ slot' < p.slots.length := by
        constructor
        · rintro ⟨q, q_mem, q_no, lt⟩
          rwa [wellFormed.ext_no q_mem mem q_no] at lt
        · intro lt
          exact ⟨p, mem, rfl, lt⟩
      rw [exchanged]
      split
      · rename_i same
        subst same
        rw [here, List.length_append, List.length_singleton]
        simp only [true_and]
        omega
      · rename_i apart
        simp [apart]

theorem insertLoop_spec {pageCount fuel no slot : Nat} {rec : Bytes} (wellFormed : h.WellFormed)
    (done : insertLoop pageCount rec fuel h = .ok (h', no, slot)) :
    Appended h no slot rec h' := by
  induction fuel generalizing h with
  | zero => cases done
  | succ fuel inductionHypothesis =>
      unfold insertLoop at done
      split at done
      · rename_i p slot' appended
        cases done
        obtain ⟨q, found, fits⟩ := Option.bind_eq_some_iff.mp appended
        exact append_spec wellFormed found fits
      · have extended := inductionHypothesis (wellFormed.extend pageCount) done
        constructor
        · exact extended.wellFormed
        · rw [extended.live, live_extend]
        · exact fun used => extended.fresh ((used_extend pageCount).mpr used)
        · intro no' slot'
          rw [extended.used, used_extend]

/-- A record of legal size fits after at most one extension. -/
theorem insertLoop_returns {pageCount : Nat} {rec : Bytes} (wellFormed : h.WellFormed)
    (legal : rec.length ≤ maxRecordLen) :
    ∃ h' no slot, insertLoop pageCount rec 2 h = .ok (h', no, slot) := by
  unfold insertLoop
  split
  · exact ⟨_, _, _, rfl⟩
  · unfold insertLoop
    have extended := wellFormed.extend pageCount
    set fresh : HeapPage := { no := if h.pages = [] then 1 else max pageCount (h.tail + 1) }
      with fresh_eq
    have split : (h.extend pageCount).pages = h.pages ++ [fresh] := rfl
    have found : (h.extend pageCount).page? (h.extend pageCount).tail = some fresh := by
      rw [tail_of_split split]
      exact extended.page?_eq split
    have fits : ¬fresh.freeEnd - fresh.freeBegin < rec.length + slotSize := by
      simp only [fresh_eq, HeapPage.freeEnd, List.length_nil, maxRecordLen, pageSize, slotSize,
        pageHeaderSize] at legal ⊢
      omega
    rw [found, Option.bind_some, HeapPage.append, if_neg fits]
    exact ⟨_, _, _, rfl⟩

/-- What `insert_row` does: the record of the values in a new slot. -/
theorem insertRow_spec {fid pageCount rid : Nat} {cols : List ColumnSpec} {values : List Value}
    {ref : RowRef} (wellFormed : h.WellFormed)
    (done : insertRow fid pageCount h cols values = .ok (h', rid, ref)) :
    ∃ rec, encodeRow cols values = .ok (some rec) ∧ rec.length ≤ maxRecordLen ∧
      ref.page.fileId = fid ∧ Appended h ref.page.pageNo ref.slot rec h' := by
  obtain ⟨encoded, encoded_eq, done⟩ := Res.bind_eq_ok.mp done
  cases encoded with
  | none => simp at done
  | some rec =>
      dsimp only at done
      split at done
      · simp at done
      · rename_i legal
        obtain ⟨⟨h'', no, slot⟩, inserted, done⟩ := Res.bind_eq_ok.mp done
        cases done
        refine ⟨rec, encoded_eq, not_lt.mp legal, rfl, ?_⟩
        have counted : ({ h with nextRowid := (h.nextRowid + 1) % 2 ^ 64 } : HeapFile).WellFormed :=
          ⟨wellFormed.rising, wellFormed.positive⟩
        split at inserted
        · have appended := insertLoop_spec (counted.extend pageCount) inserted
          exact ⟨appended.wellFormed, by rw [appended.live, live_extend]; rfl,
            fun used => appended.fresh ((used_extend pageCount).mpr used), by
              intro no' slot'
              rw [appended.used, used_extend]
              rfl⟩
        · have appended := insertLoop_spec counted inserted
          exact ⟨appended.wellFormed, appended.live, appended.fresh, appended.used⟩

end HeapFile

end MySimpleDb.Storage
