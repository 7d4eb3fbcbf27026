import Mathlib.Data.List.Nodup
import MySimpleDb.Storage.BufferPool

/-!
# The page table and the frames

The page table is the map from the pages of the valid frames to their frames, and
stays so where frames are given up, filled and changed.
-/

namespace MySimpleDb.Storage

open MySimpleDb.Lib

/-- What matters of a frame besides its clock and write-back flags. -/
def PageFrame.core (f : PageFrame) : PageId × Bool × Nat × Page × Page :=
  (f.page, f.valid, f.pin, f.data, f.before)

namespace Engine

variable {e e' : Engine} {pid : PageId} {idx i : Nat} {f : PageFrame}

/-! ## Looking up a page -/

theorem find_erase (other : PageId) :
    (e.erase pid).find other = if other = pid then none else e.find other := by
  have kept : ∀ table : List (PageId × Nat),
      (table.filter fun entry => entry.1 ≠ pid).lookup other =
        if other = pid then none else table.lookup other := by
    intro table
    induction table with
    | nil => simp
    | cons entry table inductionHypothesis =>
        obtain ⟨key, idx⟩ := entry
        by_cases erased : key = pid
        · subst erased
          rw [List.filter_cons_of_neg (by simp), inductionHypothesis]
          by_cases same : other = key
          · simp [same]
          · rw [if_neg same, if_neg same, List.lookup_cons, beq_eq_false_iff_ne.mpr same]
        · rw [List.filter_cons_of_pos (by simpa using erased), List.lookup_cons, List.lookup_cons,
            inductionHypothesis]
          by_cases same : other = key
          · subst same
            simp [erased]
          · rw [beq_eq_false_iff_ne.mpr same]
  exact kept e.pageTable

theorem find_emplace (absent : e.find pid = none) (other : PageId) :
    (e.emplace pid idx).find other = if other = pid then some idx else e.find other := by
  rw [emplace, absent]
  change ((pid, idx) :: e.pageTable).lookup other = _
  rw [List.lookup_cons]
  by_cases same : other = pid
  · simp [same]
  · rw [beq_eq_false_iff_ne.mpr same, if_neg same]
    rfl

theorem frame_out_of_range (beyond : e.frames.length ≤ idx) : e.frame idx = {} := by
  simp [frame, List.getElem?_eq_none beyond]

theorem range_of_valid (valid : (e.frame i).valid = true) : i < e.frames.length := by
  by_contra beyond
  rw [frame_out_of_range (Nat.le_of_not_lt beyond)] at valid
  cases valid

theorem frame_setFrame_eq (e : Engine) (idx other : Nat) (f : PageFrame) :
    (e.setFrame idx f).frame other =
      if other = idx ∧ idx < e.frames.length then f else e.frame other := by
  by_cases same : other = idx
  · subst same
    by_cases inRange : other < e.frames.length
    · rw [frame_setFrame inRange, if_pos ⟨rfl, inRange⟩]
    · rw [if_neg (fun both => inRange both.2), frame_out_of_range (by simpa using inRange),
        frame_out_of_range (by simpa using inRange)]
  · rw [frame_setFrame_of_ne same, if_neg fun both => same both.1]

/-! ## The table and the frames -/

/-- The page table is exactly the map from the pages of valid frames to their frames. -/
structure Indexed (e : Engine) : Prop where
  find_iff : ∀ pid i, e.find pid = some i ↔
    i < e.frames.length ∧ (e.frame i).valid = true ∧ (e.frame i).page = pid
  /-- No page is entered twice. -/
  keys : (e.pageTable.map Prod.fst).Nodup

/-- No page is in two frames. -/
theorem Indexed.unique (indexed : e.Indexed) {i j : Nat} (i_range : i < e.frames.length)
    (j_range : j < e.frames.length) (i_valid : (e.frame i).valid = true)
    (j_valid : (e.frame j).valid = true) (same : (e.frame i).page = (e.frame j).page) : i = j := by
  have at_i := (indexed.find_iff _ i).mpr ⟨i_range, i_valid, rfl⟩
  have at_j := (indexed.find_iff _ j).mpr ⟨j_range, j_valid, same.symm⟩
  rw [at_i] at at_j
  exact Option.some.inj at_j

theorem Indexed.inRange (indexed : e.Indexed) (found : e.find pid = some i) :
    i < e.frames.length :=
  ((indexed.find_iff pid i).mp found).1

/-- A table that says the same of frames that hold the same pages. -/
theorem Indexed.congr (indexed : e.Indexed) (table : e'.pageTable = e.pageTable)
    (length : e'.frames.length = e.frames.length)
    (page : ∀ i, (e'.frame i).page = (e.frame i).page)
    (valid : ∀ i, (e'.frame i).valid = (e.frame i).valid) : e'.Indexed where
  find_iff pid i := by
    rw [find, table, length, page, valid]
    exact indexed.find_iff pid i
  keys := table ▸ indexed.keys

/-- A frame that keeps its page. -/
theorem Indexed.setFrame (indexed : e.Indexed) (page : f.page = (e.frame idx).page)
    (valid : f.valid = (e.frame idx).valid) : (e.setFrame idx f).Indexed := by
  apply indexed.congr
  · rfl
  · exact length_setFrame ..
  · intro i
    rw [frame_setFrame_eq]
    split
    · rename_i here
      rw [here.1, page]
    · rfl
  · intro i
    rw [frame_setFrame_eq]
    split
    · rename_i here
      rw [here.1, valid]
    · rfl

/-- A frame given up, and its page erased. -/
theorem Indexed.vacate (indexed : e.Indexed) (inRange : idx < e.frames.length)
    (invalid : f.valid = false) :
    ((if (e.frame idx).valid then e.erase (e.frame idx).page else e).setFrame idx f).Indexed := by
  have gone : ∀ i, i = idx → ((e.setFrame idx f).frame i).valid = false := by
    rintro i rfl
    rw [frame_setFrame inRange, invalid]
  by_cases valid : (e.frame idx).valid = true
  · rw [if_pos valid]
    constructor
    · intro pid i
      change (e.erase _).find pid = some i ↔ _
      rw [find_erase, length_setFrame]
      change _ ↔ i < e.frames.length ∧ ((e.setFrame idx f).frame i).valid = true ∧
        ((e.setFrame idx f).frame i).page = pid
      constructor
      · intro found
        split at found
        · cases found
        · rename_i apart
          have held := (indexed.find_iff pid i).mp found
          have elsewhere : i ≠ idx := by
            rintro rfl
            exact apart held.2.2.symm
          rw [frame_setFrame_of_ne elsewhere]
          exact held
      · rintro ⟨i_range, i_valid, i_page⟩
        have elsewhere : i ≠ idx := by
          intro here
          rw [gone i here] at i_valid
          cases i_valid
        rw [frame_setFrame_of_ne elsewhere] at i_valid i_page
        have apart : pid ≠ (e.frame idx).page := fun same =>
          elsewhere (indexed.unique i_range inRange i_valid valid (i_page.trans same))
        rw [if_neg apart]
        exact (indexed.find_iff pid i).mpr ⟨i_range, i_valid, i_page⟩
    · exact indexed.keys.sublist (List.filter_sublist.map _)
  · rw [if_neg valid]
    constructor
    · intro pid i
      change e.find pid = some i ↔ _
      rw [length_setFrame, indexed.find_iff]
      by_cases here : i = idx
      · rw [gone i here, here]
        simp [valid]
      · rw [frame_setFrame_of_ne here]
    · exact indexed.keys

/-- A cached page taken out of its frame. -/
theorem Indexed.discard (indexed : e.Indexed) (found : e.find pid = some idx)
    (invalid : f.valid = false) : ((e.erase pid).setFrame idx f).Indexed := by
  obtain ⟨inRange, valid, page⟩ := (indexed.find_iff pid idx).mp found
  have given := indexed.vacate inRange invalid
  rw [if_pos valid, page] at given
  exact given

theorem Indexed.find_of_mem (indexed : e.Indexed) {entry : PageId × Nat}
    (mem : entry ∈ e.pageTable) : e.find entry.1 = some entry.2 := by
  have among : ∀ table : List (PageId × Nat), (table.map Prod.fst).Nodup → entry ∈ table →
      table.lookup entry.1 = some entry.2 := by
    intro table keys mem
    induction table with
    | nil => cases mem
    | cons head table inductionHypothesis =>
        obtain ⟨key, idx⟩ := head
        rw [List.map_cons, List.nodup_cons] at keys
        rcases List.mem_cons.mp mem with rfl | within
        · exact List.lookup_cons_self
        · have apart : entry.1 ≠ key := by
            intro same
            exact keys.1 (List.mem_map.mpr ⟨entry, within, same⟩)
          rw [List.lookup_cons, beq_eq_false_iff_ne.mpr apart]
          exact inductionHypothesis keys.2 within
  exact among e.pageTable indexed.keys mem

/-- A vacant frame filled with a page that is not cached. -/
theorem Indexed.fill (indexed : e.Indexed) (inRange : idx < e.frames.length)
    (vacant : (e.frame idx).valid = false) (absent : e.find pid = none) (valid : f.valid = true)
    (page : f.page = pid) : ((e.setFrame idx f).emplace pid idx).Indexed := by
  have absent' : (e.setFrame idx f).find pid = none := absent
  constructor
  · intro other i
    rw [find_emplace absent']
    have frames : ((e.setFrame idx f).emplace pid idx).frames = (e.setFrame idx f).frames := by
      rw [emplace, absent']
      rfl
    have frame_eq : ((e.setFrame idx f).emplace pid idx).frame i = (e.setFrame idx f).frame i := by
      rw [frame, frames]
      rfl
    rw [frames, length_setFrame, frame_eq]
    by_cases here : i = idx
    · subst here
      rw [frame_setFrame inRange, valid, page]
      constructor
      · intro found
        split at found
        · rename_i same
          exact ⟨inRange, rfl, same.symm⟩
        · have held := (indexed.find_iff other i).mp found
          rw [vacant] at held
          exact absurd held.2.1 (by decide)
      · rintro ⟨-, -, rfl⟩
        rw [if_pos rfl]
    · rw [frame_setFrame_of_ne here]
      constructor
      · intro found
        split at found
        · exact absurd (Option.some.inj found).symm here
        · exact (indexed.find_iff other i).mp found
      · rintro ⟨i_range, i_valid, i_page⟩
        have found := (indexed.find_iff other i).mpr ⟨i_range, i_valid, i_page⟩
        have apart : other ≠ pid := by
          rintro rfl
          rw [absent] at found
          cases found
        rw [if_neg apart]
        exact found
  · have table : ((e.setFrame idx f).emplace pid idx).pageTable = (pid, idx) :: e.pageTable := by
      rw [emplace, absent']
      rfl
    rw [table, List.map_cons, List.nodup_cons]
    refine ⟨?_, indexed.keys⟩
    intro mem
    obtain ⟨⟨key, j⟩, entry, rfl⟩ := List.mem_map.mp mem
    have present : (e.pageTable.lookup key).isSome = true := by
      rw [List.lookup_isSome_iff]
      exact ⟨(key, j), entry, by simp⟩
    rw [show e.pageTable.lookup key = e.find key from rfl, absent] at present
    cases present

end Engine

end MySimpleDb.Storage
