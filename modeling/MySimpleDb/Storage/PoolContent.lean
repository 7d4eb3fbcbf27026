import MySimpleDb.Storage.PoolConsistent

/-!
# What the pool holds

The content of a page is in its frame, or else on disk.  Writing back and eviction
move contents between the two and change none of them, as long as every file can be
opened and every change was marked dirty before its page was given up.
-/

namespace MySimpleDb.Storage

open MySimpleDb.Lib

namespace Engine

open Attempt

variable {e e' e'' : Engine} {pid : PageId} {idx i : Nat} {top : Nat → Nat}

/-! ## Contents -/

/-- The content of a page as callers of the pool see it. -/
def content (e : Engine) (pid : PageId) : Page :=
  (e.find pid).elim (e.files.pages pid) fun i => (e.frame i).data

/-- The content that the log accounts for. -/
def baseline (e : Engine) (pid : PageId) : Page :=
  (e.find pid).elim (e.files.pages pid) fun i => (e.frame i).before

def pinCount (e : Engine) (pid : PageId) : Nat :=
  (e.find pid).elim 0 fun i => (e.frame i).pin

theorem content_of_find (found : e.find pid = some i) : e.content pid = (e.frame i).data := by
  rw [content, found, Option.elim_some]

theorem content_of_absent (absent : e.find pid = none) : e.content pid = e.files.pages pid := by
  rw [content, absent, Option.elim_none]

theorem baseline_of_find (found : e.find pid = some i) : e.baseline pid = (e.frame i).before := by
  rw [baseline, found, Option.elim_some]

theorem baseline_of_absent (absent : e.find pid = none) : e.baseline pid = e.files.pages pid := by
  rw [baseline, absent, Option.elim_none]

theorem pinCount_of_find (found : e.find pid = some i) : e.pinCount pid = (e.frame i).pin := by
  rw [pinCount, found, Option.elim_some]

theorem pinCount_of_absent (absent : e.find pid = none) : e.pinCount pid = 0 := by
  rw [pinCount, absent, Option.elim_none]

/-- The invariant under which contents are safe: a clean frame agrees with the disk, and
the pages of a file lie below `top`. -/
structure Backed (e : Engine) (top : Nat → Nat) : Prop where
  tidy : e.Tidy
  clean : ∀ i, (e.frame i).valid = true → (e.frame i).dirty = false →
    e.files.pages (e.frame i).page = (e.frame i).before
  opens : ∀ fid, e.files.Opens fid
  sound : e.files.Sound
  sizes : ∀ fid, e.files.pageCount fid ≤ top fid
  cached : ∀ i, (e.frame i).valid = true → (e.frame i).page.pageNo < top (e.frame i).page.fileId

/-- The invariant is about the frames, the table and the files alone. -/
theorem Backed.congr (backed : e.Backed top) (frames : e'.frames = e.frames)
    (table : e'.pageTable = e.pageTable) (files : e'.files = e.files) : e'.Backed top := by
  have frame : ∀ i, e'.frame i = e.frame i := by
    intro i
    rw [Engine.frame, Engine.frame, frames]
  refine ⟨?_, ?_, files ▸ backed.opens, files ▸ backed.sound, files ▸ backed.sizes, ?_⟩
  · refine backed.tidy.of_core (backed.tidy.indexed.congr table (by rw [frames]) ?_ ?_) ?_
    · exact fun i => by rw [frame]
    · exact fun i => by rw [frame]
    · exact fun i => by rw [frame]
  · intro i
    rw [frame, files]
    exact backed.clean i
  · intro i
    rw [frame]
    exact backed.cached i

/-- A pool in which no frame holds a page. -/
theorem Fresh.backed (fresh : e.Fresh) (opens : ∀ fid, e.files.Opens fid) (sound : e.files.Sound)
    (sizes : ∀ fid, e.files.pageCount fid ≤ top fid) : e.Backed top := by
  have invalid : ∀ i, (e.frame i).valid = false := by
    intro i
    by_contra valid
    have inRange := range_of_valid (Bool.not_eq_false _ ▸ valid)
    have empty := fresh.2 _ (List.getElem_mem inRange)
    apply valid
    simp [Engine.frame, inRange, empty]
  refine ⟨fresh.tidy, ?_, opens, sound, sizes, ?_⟩
  · intro i valid
    rw [invalid] at valid
    cases valid
  · intro i valid
    rw [invalid] at valid
    cases valid

/-- The log, the transaction and the trees are as before, and what was written to disk is
what the log accounts for. -/
structure Kept (e e' : Engine) : Prop where
  length : e'.frames.length = e.frames.length
  wal : e'.wal = e.wal
  txn : e'.txn = e.txn
  trees : e'.trees = e.trees
  tails : e'.tailPages = e.tailPages
  refused : e'.files.refused = e.files.refused
  keeps : e'.files.kept = e.files.kept
  written : ∀ pid, e'.files.pages pid = e.files.pages pid ∨ e'.files.pages pid = e.baseline pid

theorem Kept.refl (e : Engine) : Kept e e :=
  ⟨rfl, rfl, rfl, rfl, rfl, rfl, rfl, fun _ => .inl rfl⟩

/-- Contents were moved between the frames and the disk, and nothing else happened. -/
structure Moved (e e' : Engine) : Prop where
  kept : Kept e e'
  content : ∀ pid, e'.content pid = e.content pid
  baseline : ∀ pid, e'.baseline pid = e.baseline pid

theorem Moved.refl (e : Engine) : Moved e e :=
  ⟨Kept.refl e, fun _ => rfl, fun _ => rfl⟩

theorem Moved.then_kept (first : Moved e e') (second : Kept e' e'') : Kept e e'' where
  length := second.length.trans first.kept.length
  wal := second.wal.trans first.kept.wal
  txn := second.txn.trans first.kept.txn
  trees := second.trees.trans first.kept.trees
  tails := second.tails.trans first.kept.tails
  refused := second.refused.trans first.kept.refused
  keeps := second.keeps.trans first.kept.keeps
  written pid := by
    rcases second.written pid with same | logged
    · rw [same]
      exact first.kept.written pid
    · exact .inr (logged.trans (first.baseline pid))

theorem Moved.trans (first : Moved e e') (second : Moved e' e'') : Moved e e'' where
  kept := first.then_kept second.kept
  content pid := (second.content pid).trans (first.content pid)
  baseline pid := (second.baseline pid).trans (first.baseline pid)

theorem Calm.content (calm : Calm e e') (pid : PageId) : e'.content pid = e.content pid := by
  cases found : e.find pid with
  | none =>
      rw [content_of_absent found, content_of_absent ((calm.find pid).trans found)]
      exact calm.pages pid found
  | some i =>
      rw [content_of_find found, content_of_find ((calm.find pid).trans found)]
      exact data_of_core (calm.core i)

theorem Calm.baseline (calm : Calm e e') (pid : PageId) : e'.baseline pid = e.baseline pid := by
  cases found : e.find pid with
  | none =>
      rw [baseline_of_absent found, baseline_of_absent ((calm.find pid).trans found)]
      exact calm.pages pid found
  | some i =>
      rw [baseline_of_find found, baseline_of_find ((calm.find pid).trans found)]
      exact before_of_core (calm.core i)

theorem Calm.pinCount (calm : Calm e e') (pid : PageId) : e'.pinCount pid = e.pinCount pid := by
  cases found : e.find pid with
  | none => rw [pinCount_of_absent found, pinCount_of_absent ((calm.find pid).trans found)]
  | some i =>
      rw [pinCount_of_find found, pinCount_of_find ((calm.find pid).trans found)]
      exact pin_of_core (calm.core i)

/-- What a step that leaves the cached pages alone has to keep besides. -/
theorem Calm.moved (calm : Calm e e') (wal : e'.wal = e.wal) (txn : e'.txn = e.txn)
    (trees : e'.trees = e.trees) (tails : e'.tailPages = e.tailPages)
    (refused : e'.files.refused = e.files.refused) (keeps : e'.files.kept = e.files.kept)
    (written : ∀ pid, e'.files.pages pid = e.files.pages pid ∨
      e'.files.pages pid = e.baseline pid) : Moved e e' :=
  ⟨⟨calm.length, wal, txn, trees, tails, refused, keeps, written⟩, calm.content, calm.baseline⟩

theorem Calm.backed (calm : Calm e e') (backed : e.Backed top)
    (clean : ∀ i, (e'.frame i).valid = true → (e'.frame i).dirty = false →
      e'.files.pages (e'.frame i).page = (e'.frame i).before)
    (sound : e'.files.Sound) (sizes : ∀ fid, e'.files.pageCount fid ≤ top fid) :
    e'.Backed top where
  tidy := backed.tidy.of_core (calm.indexed backed.tidy.indexed) calm.core
  clean := clean
  opens fid := (calm.opens fid).mpr (backed.opens fid)
  sound := sound
  sizes := sizes
  cached i valid := by
    rw [valid_of_core (calm.core i)] at valid
    rw [page_of_core (calm.core i)]
    exact backed.cached i valid

end Engine

namespace FileManager

open Attempt

/-- A page written to a file that can be opened. -/
theorem writePage_stored {files : FileManager} {pid : PageId} {data : Page} {logged : Nat}
    (opens : files.Opens pid.fileId) :
    Ends (writePage pid data logged) files
      (fun _ files' => files' = files.stored pid data logged ∨
        files' = (files.opened pid.fileId).stored pid data logged) fun _ _ => False := by
  simp only [writePage, ends_bind, ends_modify]
  apply fdFor_ends.mono
  · rintro - files' (⟨-, rfl⟩ | ⟨-, rfl⟩)
    · exact .inl rfl
    · exact .inr rfl
  · rintro err files' ⟨-, closed, refused⟩
    rcases opens with isOpen | allowed
    · rw [closed] at isOpen
      cases isOpen
    · rw [refused] at allowed
      cases allowed

theorem readPage_loaded {files : FileManager} {pid : PageId} (opens : files.Opens pid.fileId) :
    Ends (readPage pid) files
      (fun data files' => data = files.pages pid ∧
        (files' = files ∨ files' = files.opened pid.fileId)) fun _ _ => False := by
  simp only [readPage, ends_bind, ends_get, ends_pure]
  apply fdFor_ends.mono
  · rintro - files' (⟨-, rfl⟩ | ⟨-, rfl⟩)
    · exact ⟨rfl, .inl rfl⟩
    · exact ⟨rfl, .inr rfl⟩
  · rintro err files' ⟨-, closed, refused⟩
    rcases opens with isOpen | allowed
    · rw [closed] at isOpen
      cases isOpen
    · rw [refused] at allowed
      cases allowed

end FileManager

namespace BufferPool

open Engine Attempt

variable {e e' : Engine} {pid : PageId} {idx i turns : Nat} {top : Nat → Nat}

/-! ## Writing back -/

/-- A frame written to its file, and clean. -/
def wroteBack (e : Engine) (idx : Nat) (files : FileManager) : Engine :=
  let f := e.frame idx
  let written := files.stored f.page f.data e.wal.records.length
  ({ e with files := written } : Engine).setFrame idx { f with dirty := false }

theorem writeBack_cases (backed : e.Backed top)
    (logged : (e.frame idx).valid = true → (e.frame idx).dirty = true →
      (e.frame idx).before = (e.frame idx).data) :
    Ends (writeBack idx) e
      (fun _ e' => (e' = e ∧ ((e.frame idx).valid = true → (e.frame idx).dirty = false)) ∨
        ((e.frame idx).valid = true ∧ (e.frame idx).before = (e.frame idx).data ∧
          ∃ files, (files = e.files ∨ files = e.files.opened (e.frame idx).page.fileId) ∧
            e' = wroteBack e idx files))
      fun _ _ => False := by
  simp only [writeBack, ends_bind, ends_get, ends_ite]
  by_cases due : (e.frame idx).valid = true ∧ (e.frame idx).dirty = true
  · have same := logged due.1 due.2
    rw [if_pos due, if_neg (not_not.mpr same)]
    simp only [onFiles, ends_onPart, ends_modify]
    apply (FileManager.writePage_stored (backed.opens _)).mono
    · rintro - files (rfl | rfl)
      · exact .inr ⟨due.1, same, _, .inl rfl, rfl⟩
      · exact .inr ⟨due.1, same, _, .inr rfl, rfl⟩
    · exact fun _ _ never => never
  · rw [if_neg due]
    refine .inl ⟨rfl, fun valid => ?_⟩
    exact Bool.eq_false_iff.mpr fun dirty => due ⟨valid, dirty⟩

/-- A page written back stays as it is, and its frame is clean then. -/
theorem writeBack_moved (backed : e.Backed top)
    (logged : (e.frame idx).valid = true → (e.frame idx).dirty = true →
      (e.frame idx).before = (e.frame idx).data) :
    Ends (writeBack idx) e
      (fun _ e' => (Moved e e' ∧ e'.Backed top ∧ Calm e e') ∧
        ((e'.frame idx).valid = true → (e'.frame idx).dirty = false))
      fun _ _ => False := by
  apply ((writeBack_ends backed.tidy.indexed).and (writeBack_cases backed logged)).mono
  · rintro - e' ⟨calm, ⟨rfl, clean⟩ | ⟨valid, same, files, opened, rfl⟩⟩
    · exact ⟨⟨Moved.refl _, backed, calm⟩, clean⟩
    · have inRange := range_of_valid valid
      have found := (backed.tidy.indexed.find_iff _ idx).mpr ⟨inRange, valid, rfl⟩
      have pages : files.pages = e.files.pages := by
        rcases opened with rfl | rfl <;> rfl
      have count : ∀ fid, files.pageCount fid = e.files.pageCount fid := by
        rcases opened with rfl | rfl
        · exact fun _ => rfl
        · exact FileManager.pageCount_opened
      have sound : files.Sound := by
        rcases opened with rfl | rfl
        · exact backed.sound
        · exact backed.sound.opened
      have refused : files.refused = e.files.refused := by
        rcases opened with rfl | rfl <;> rfl
      have keeps : files.kept = e.files.kept := by
        rcases opened with rfl | rfl <;> rfl
      have frame : ∀ i, (wroteBack e idx files).frame i =
          if i = idx then { e.frame idx with dirty := false } else e.frame i := by
        intro i
        rw [wroteBack, frame_setFrame_eq]
        by_cases here : i = idx
        · rw [if_pos ⟨here, inRange⟩, if_pos here]
        · rw [if_neg (fun both => here both.1), if_neg here]
          rfl
      refine ⟨⟨?_, ?_, calm⟩, ?_⟩
      · apply calm.moved rfl rfl rfl rfl refused keeps
        intro pid
        by_cases own : pid = (e.frame idx).page
        · right
          rw [own, baseline_of_find found, same]
          exact Function.update_self ..
        · left
          exact (Function.update_of_ne own ..).trans (congrFun pages pid)
      · apply calm.backed backed
        · intro i i_valid i_clean
          rw [frame] at i_valid i_clean ⊢
          by_cases here : i = idx
          · rw [if_pos here]
            exact (Function.update_self ..).trans same.symm
          · rw [if_neg here] at i_valid i_clean ⊢
            have apart : (e.frame i).page ≠ (e.frame idx).page := fun equal =>
              here (backed.tidy.indexed.unique (range_of_valid i_valid) inRange i_valid valid equal)
            refine (Function.update_of_ne apart ..).trans ?_
            rw [pages]
            exact backed.clean i i_valid i_clean
        · exact sound.stored
        · intro fid
          refine (FileManager.pageCount_stored fid).trans_le ?_
          have below := backed.cached idx valid
          split
          · rename_i own
            rw [own, count]
            exact Nat.max_le.mpr ⟨backed.sizes _, below⟩
          · exact (count fid).trans_le (backed.sizes fid)
      · intro _
        rw [frame, if_pos rfl]
  · rintro - - ⟨-, never⟩
    exact never

/-! ## Giving up a frame -/

theorem frame_vacated (inRange : idx < e.frames.length) (i : Nat) :
    (vacated e idx).frame i = if i = idx then { e.frame idx with valid := false } else e.frame i := by
  have same : (vacated e idx).frame i =
      (e.setFrame idx { e.frame idx with valid := false }).frame i := by
    rw [vacated]
    split <;> rfl
  rw [same, frame_setFrame_eq]
  by_cases here : i = idx
  · rw [if_pos ⟨here, inRange⟩, if_pos here]
  · rw [if_neg (fun both => here both.1), if_neg here]

theorem find_vacated (indexed : e.Indexed) (inRange : idx < e.frames.length) (pid : PageId) :
    (vacated e idx).find pid = if e.find pid = some idx then none else e.find pid := by
  by_cases valid : (e.frame idx).valid = true
  · have same : (vacated e idx).find pid = (e.erase (e.frame idx).page).find pid := by
      rw [vacated, if_pos valid]
      rfl
    rw [same, find_erase]
    by_cases own : pid = (e.frame idx).page
    · rw [if_pos own, if_pos ((indexed.find_iff pid idx).mpr ⟨inRange, valid, own.symm⟩)]
    · rw [if_neg own, if_neg fun found => own ((indexed.find_iff pid idx).mp found).2.2.symm]
  · have same : (vacated e idx).find pid = e.find pid := by
      rw [vacated, if_neg valid]
      rfl
    rw [same, if_neg fun found => valid ((indexed.find_iff pid idx).mp found).2.1]

/-- A clean frame that is not pinned is given up without a change to what is held. -/
theorem vacated_moved (backed : e.Backed top) (inRange : idx < e.frames.length)
    (unpinned : (e.frame idx).pin = 0)
    (clean : (e.frame idx).valid = true → (e.frame idx).dirty = false) :
    Moved e (vacated e idx) ∧ (vacated e idx).Backed top ∧
      ∀ pid, (vacated e idx).pinCount pid = e.pinCount pid := by
  have indexed := backed.tidy.indexed
  have files : (vacated e idx).files = e.files := by
    rw [vacated]
    split <;> rfl
  have length : (vacated e idx).frames.length = e.frames.length := by
    rw [vacated]
    split <;> exact length_setFrame ..
  have onDisk : ∀ pid, e.find pid = some idx → e.files.pages pid = (e.frame idx).before := by
    intro pid found
    obtain ⟨-, valid, rfl⟩ := (indexed.find_iff pid idx).mp found
    exact backed.clean idx valid (clean valid)
  have elsewhere : ∀ pid i, e.find pid = some i → i ≠ idx →
      (vacated e idx).find pid = some i ∧ (vacated e idx).frame i = e.frame i := by
    intro pid i found apart
    have not_idx : e.find pid ≠ some idx := by
      rw [found]
      exact fun same => apart (Option.some.inj same)
    rw [find_vacated indexed inRange, if_neg not_idx, frame_vacated inRange, if_neg apart]
    exact ⟨found, rfl⟩
  have absent : ∀ pid, e.find pid = none → (vacated e idx).find pid = none := by
    intro pid gone
    rw [find_vacated indexed inRange, gone]
    exact ite_self none
  have here : ∀ pid, e.find pid = some idx → (vacated e idx).find pid = none := by
    intro pid found
    rw [find_vacated indexed inRange, if_pos found]
  refine ⟨⟨⟨length, ?_, ?_, ?_, ?_, ?_, ?_, ?_⟩, ?_, ?_⟩, ⟨⟨?_, ?_, ?_⟩, ?_, ?_, ?_, ?_, ?_⟩, ?_⟩
  · rw [vacated]
    split <;> rfl
  · rw [vacated]
    split <;> rfl
  · rw [vacated]
    split <;> rfl
  · rw [vacated]
    split <;> rfl
  · rw [files]
  · rw [files]
  · rw [files]
    exact fun _ => .inl rfl
  · intro pid
    cases found : e.find pid with
    | none => rw [content_of_absent (absent pid found), content_of_absent found, files]
    | some i =>
        by_cases same : i = idx
        · subst same
          rw [content_of_absent (here pid found), content_of_find found, files, onDisk pid found]
          exact backed.tidy.logged i unpinned
        · obtain ⟨found', frame⟩ := elsewhere pid i found same
          rw [content_of_find found', content_of_find found, frame]
  · intro pid
    cases found : e.find pid with
    | none => rw [baseline_of_absent (absent pid found), baseline_of_absent found, files]
    | some i =>
        by_cases same : i = idx
        · subst same
          rw [baseline_of_absent (here pid found), baseline_of_find found, files, onDisk pid found]
        · obtain ⟨found', frame⟩ := elsewhere pid i found same
          rw [baseline_of_find found', baseline_of_find found, frame]
  · have given := indexed.vacate inRange (f := { e.frame idx with valid := false }) rfl
    exact given.congr rfl rfl (fun _ => rfl) fun _ => rfl
  · intro i
    rw [frame_vacated inRange]
    split
    · intro pinned
      exact absurd unpinned (Nat.pos_iff_ne_zero.mp pinned)
    · exact backed.tidy.pinned i
  · intro i
    rw [frame_vacated inRange]
    split
    · exact fun _ => backed.tidy.logged idx unpinned
    · exact backed.tidy.logged i
  · intro i
    rw [frame_vacated inRange, files]
    split
    · intro valid
      cases valid
    · exact backed.clean i
  · rw [files]
    exact backed.opens
  · rw [files]
    exact backed.sound
  · rw [files]
    exact backed.sizes
  · intro i
    rw [frame_vacated inRange]
    split
    · intro valid
      cases valid
    · exact backed.cached i
  · intro pid
    cases found : e.find pid with
    | none => rw [pinCount_of_absent (absent pid found), pinCount_of_absent found]
    | some i =>
        by_cases same : i = idx
        · subst same
          rw [pinCount_of_absent (here pid found), pinCount_of_find found, unpinned]
        · obtain ⟨found', frame⟩ := elsewhere pid i found same
          rw [pinCount_of_find found', pinCount_of_find found, frame]

/-- What the turns of the clock leave: a frame that is clean and not pinned, given up. -/
theorem evictLoop_moved (backed : e.Backed top) (some : 0 < e.frames.length) :
    Ends (evictLoop turns i) e
      (fun idx e' => ∃ mid, Moved e mid ∧ mid.Backed top ∧ Calm e mid ∧ idx < e.frames.length ∧
        (mid.frame idx).pin = 0 ∧ ((mid.frame idx).valid = true → (mid.frame idx).dirty = false) ∧
        e' = vacated mid idx)
      fun _ e' => Moved e e' ∧ e'.Backed top ∧ Calm e e' := by
  induction turns generalizing e i with
  | zero => exact ⟨Moved.refl e, backed, Calm.refl e⟩
  | succ turns inductionHypothesis =>
      simp only [evictLoop, ends_bind, ends_get, ends_ite]
      change if 0 < (e.frame (slot e i)).pin then _ else _
      by_cases pinned : 0 < (e.frame (slot e i)).pin
      · rw [if_pos pinned]
        exact inductionHypothesis backed some
      · rw [if_neg pinned]
        have free : (e.frame (slot e i)).pin = 0 := Nat.eq_zero_of_not_pos pinned
        change if (e.frame (slot e i)).valid = true ∧ (e.frame (slot e i)).ref = true then _ else _
        by_cases used : (e.frame (slot e i)).valid = true ∧ (e.frame (slot e i)).ref = true
        · rw [if_pos used]
          have cleared : Calm e
              (e.setFrame (slot e i) { e.frame (slot e i) with ref := false }) :=
            Calm.setFrame rfl (fun set => absurd set Bool.false_ne_true) fun set => set
          have moved := cleared.moved rfl rfl rfl rfl rfl rfl fun _ => .inl rfl
          have backed' : (e.setFrame (slot e i) { e.frame (slot e i) with ref := false }).Backed
              top := by
            apply cleared.backed backed
            · intro k
              rw [frame_setFrame_eq]
              split
              · exact backed.clean (slot e i)
              · exact backed.clean k
            · exact backed.sound
            · exact backed.sizes
          apply (inductionHypothesis backed' (cleared.length ▸ some)).mono
          · rintro idx e' ⟨mid, moved', mid_backed, calm, inRange, rest⟩
            exact ⟨mid, moved.trans moved', mid_backed, cleared.trans calm,
              cleared.length ▸ inRange, rest⟩
          · rintro err e' ⟨moved', backed'', calm⟩
            exact ⟨moved.trans moved', backed'', cleared.trans calm⟩
        · rw [if_neg used]
          simp only [ends_modify, ends_pure]
          apply (writeBack_moved backed fun _ _ => backed.tidy.logged _ free).mono
          · rintro - mid ⟨⟨moved, mid_backed, calm⟩, clean⟩
            exact ⟨mid, moved, mid_backed, calm, slot_lt some i,
              (pin_of_core (calm.core _)).trans free, clean, vacated_of_core (calm.core _)⟩
          · exact fun _ _ never => never.elim

/-- Eviction moves contents only.  It gives up a frame, unless all of them are pinned. -/
theorem evict_moved (backed : e.Backed top) :
    Ends evict e
      (fun idx e' => (Moved e e' ∧ e'.Backed top ∧ ∀ pid, e'.pinCount pid = e.pinCount pid) ∧
        Evicted e idx e')
      fun err e' => err = PoolView.noFrame ∧ (∀ i < e.frames.length, 0 < (e.frame i).pin) ∧
        Moved e e' ∧ e'.Backed top ∧ ∀ pid, e'.pinCount pid = e.pinCount pid := by
  have moves : Ends evict e
      (fun _ e' => Moved e e' ∧ e'.Backed top ∧ ∀ pid, e'.pinCount pid = e.pinCount pid)
      fun _ e' => Moved e e' ∧ e'.Backed top ∧ ∀ pid, e'.pinCount pid = e.pinCount pid := by
    simp only [evict, ends_bind, ends_get]
    rcases Nat.eq_zero_or_pos e.frames.length with noFrames | some
    · rw [noFrames]
      exact ⟨Moved.refl e, backed, fun _ => rfl⟩
    · apply (evictLoop_moved backed some).mono
      · rintro idx e' ⟨mid, moved, mid_backed, calm, inRange, unpinned, clean, rfl⟩
        obtain ⟨moved', backed', pins⟩ :=
          vacated_moved mid_backed (calm.length ▸ inRange) unpinned clean
        exact ⟨moved.trans moved', backed', fun pid => (pins pid).trans (calm.pinCount pid)⟩
      · rintro err e' ⟨moved, backed', calm⟩
        exact ⟨moved, backed', calm.pinCount⟩
  apply (moves.and (evict_ends backed.tidy.indexed)).mono
  · exact fun _ _ both => both
  · rintro err e' ⟨moved, calm, ⟨refused, all⟩ | ⟨idx, -, unpinned, valid, dirty, why⟩⟩
    · exact ⟨refused, all, moved⟩
    · rcases why with unlogged | closed
      · exact absurd (backed.tidy.logged idx unpinned) unlogged
      · exact absurd (backed.opens _) closed

/-! ## Bringing a page in -/

/-- A file opened to read a page of it. -/
theorem opened_moved {fid : Nat} {files : FileManager} (backed : e.Backed top)
    (opened : files = e.files ∨ files = e.files.opened fid) :
    Moved e { e with files } ∧ Engine.Backed { e with files } top := by
  have pages : files.pages = e.files.pages := by
    rcases opened with rfl | rfl <;> rfl
  have refused : files.refused = e.files.refused := by
    rcases opened with rfl | rfl <;> rfl
  have keeps : files.kept = e.files.kept := by
    rcases opened with rfl | rfl <;> rfl
  refine ⟨⟨⟨rfl, rfl, rfl, rfl, rfl, refused, keeps, ?_⟩, ?_, ?_⟩,
    ⟨?_, ?_, ?_, ?_, ?_, backed.cached⟩⟩
  · exact fun pid => .inl (congrFun pages pid)
  · intro pid
    change (e.find pid).elim (files.pages pid) _ = _
    rw [pages]
    rfl
  · intro pid
    change (e.find pid).elim (files.pages pid) _ = _
    rw [pages]
    rfl
  · exact backed.tidy.of_core (backed.tidy.indexed.congr rfl rfl (fun _ => rfl) fun _ => rfl)
      fun _ => rfl
  · intro i valid clean
    change files.pages _ = _
    rw [pages]
    exact backed.clean i valid clean
  · intro fid'
    rcases opened with rfl | rfl
    · exact backed.opens fid'
    · rcases backed.opens fid with isOpen | allowed
      · by_cases same : fid' = fid
        · exact .inl (by simp [FileManager.opened, same])
        · rcases backed.opens fid' with isOpen' | allowed'
          · exact .inl (by simp [FileManager.opened, same, isOpen'])
          · exact .inr allowed'
      · exact (FileManager.opens_opened allowed).mpr (backed.opens fid')
  · rcases opened with rfl | rfl
    · exact backed.sound
    · exact backed.sound.opened
  · intro fid'
    rcases opened with rfl | rfl
    · exact backed.sizes fid'
    · exact (FileManager.pageCount_opened fid').trans_le (backed.sizes fid')

/-- A frame filled with a page and entered into the table. -/
def filled (e : Engine) (pid : PageId) (idx : Nat) (f : PageFrame) : Engine :=
  { e.setFrame idx f with pageTable := (pid, idx) :: e.pageTable }

theorem emplace_setFrame {f : PageFrame} (absent : e.find pid = none) :
    (e.setFrame idx f).emplace pid idx = filled e pid idx f := by
  have absent' : (e.setFrame idx f).find pid = none := absent
  rw [emplace, absent']
  rfl

theorem setFrame_filled (f g : PageFrame) :
    (filled e pid idx f).setFrame idx g = filled e pid idx g := by
  simp [filled, setFrame]

theorem frame_filled {f : PageFrame} (inRange : idx < e.frames.length) (i : Nat) :
    (filled e pid idx f).frame i = if i = idx then f else e.frame i := by
  have same : (filled e pid idx f).frame i = (e.setFrame idx f).frame i := rfl
  rw [same, frame_setFrame_eq]
  by_cases here : i = idx
  · rw [if_pos ⟨here, inRange⟩, if_pos here]
  · rw [if_neg (fun both => here both.1), if_neg here]

theorem find_filled {f : PageFrame} (absent : e.find pid = none) (other : PageId) :
    (filled e pid idx f).find other = if other = pid then some idx else e.find other := by
  have absent' : (e.setFrame idx f).find pid = none := absent
  rw [← emplace_setFrame absent]
  exact find_emplace absent' other

/-- What a page brought into a vacant frame changes. -/
theorem filled_backed (pid : PageId) {f : PageFrame} (backed : e.Backed top) (inRange : idx < e.frames.length)
    (vacant : (e.frame idx).valid = false) (absent : e.find pid = none) (valid : f.valid = true)
    (page : f.page = pid) (pinned : 0 < f.pin) (below : pid.pageNo < top pid.fileId)
    (clean : f.dirty = false → e.files.pages pid = f.before) :
    (filled e pid idx f).Backed top ∧ Kept e (filled e pid idx f) ∧
      (filled e pid idx f).content = Function.update e.content pid f.data ∧
      (filled e pid idx f).baseline = Function.update e.baseline pid f.before ∧
      (filled e pid idx f).pinCount = Function.update e.pinCount pid f.pin := by
  have indexed := backed.tidy.indexed
  have elsewhere : ∀ other i, e.find other = some i → i ≠ idx := by
    rintro other i found rfl
    have held := (indexed.find_iff other i).mp found
    rw [vacant] at held
    exact absurd held.2.1 Bool.false_ne_true
  have kept : ∀ {α : Type} (onDisk : PageId → α) (inFrame : PageFrame → α),
      (fun other => ((filled e pid idx f).find other).elim (onDisk other)
        fun i => inFrame ((filled e pid idx f).frame i)) =
      Function.update (fun other => (e.find other).elim (onDisk other)
        fun i => inFrame (e.frame i)) pid (inFrame f) := by
    intro α onDisk inFrame
    funext other
    rw [find_filled absent]
    by_cases same : other = pid
    · subst same
      rw [if_pos rfl, Option.elim_some, frame_filled inRange, if_pos rfl, Function.update_self]
    · rw [if_neg same, Function.update_of_ne same]
      cases found : e.find other with
      | none => rfl
      | some i =>
          rw [Option.elim_some, Option.elim_some, frame_filled inRange,
            if_neg (elsewhere other i found)]
  refine ⟨⟨⟨?_, ?_, ?_⟩, ?_, backed.opens, backed.sound, backed.sizes, ?_⟩,
    ⟨length_setFrame .., rfl, rfl, rfl, rfl, rfl, rfl, fun _ => .inl rfl⟩, kept _ _, kept _ _, kept _ _⟩
  · rw [← emplace_setFrame absent]
    exact indexed.fill inRange vacant absent valid page
  · intro i
    rw [frame_filled inRange]
    split
    · exact fun _ => valid
    · exact backed.tidy.pinned i
  · intro i
    rw [frame_filled inRange]
    split
    · exact fun none => absurd none (Nat.pos_iff_ne_zero.mp pinned)
    · exact backed.tidy.logged i
  · intro i
    rw [frame_filled inRange]
    split
    · intro _ is_clean
      rw [page]
      exact clean is_clean
    · exact backed.clean i
  · intro i
    rw [frame_filled inRange]
    split
    · intro _
      rw [page]
      exact below
    · exact backed.cached i

/-- A vacant frame cleared. -/
theorem clear_moved {f : PageFrame} (backed : e.Backed top)
    (vacant : (e.frame idx).valid = false) (invalid : f.valid = false) (unpinned : f.pin = 0)
    (logged : f.before = f.data) :
    Moved e (e.setFrame idx f) ∧ (e.setFrame idx f).Backed top ∧
      ∀ pid, (e.setFrame idx f).pinCount pid = e.pinCount pid := by
  have indexed := backed.tidy.indexed
  have other : ∀ pid i, e.find pid = some i → (e.setFrame idx f).frame i = e.frame i := by
    intro pid i found
    apply frame_setFrame_of_ne
    rintro rfl
    have held := (indexed.find_iff pid i).mp found
    rw [vacant] at held
    exact absurd held.2.1 Bool.false_ne_true
  have cases_on : ∀ i, (e.setFrame idx f).frame i = f ∨ (e.setFrame idx f).frame i = e.frame i := by
    intro i
    rw [frame_setFrame_eq]
    split
    · exact .inl rfl
    · exact .inr rfl
  have kept : ∀ {α : Type} (onDisk : PageId → α) (inFrame : PageFrame → α) (pid : PageId),
      (e.find pid).elim (onDisk pid) (fun i => inFrame ((e.setFrame idx f).frame i)) =
        (e.find pid).elim (onDisk pid) fun i => inFrame (e.frame i) := by
    intro α onDisk inFrame pid
    cases found : e.find pid with
    | none => rfl
    | some i => rw [Option.elim_some, Option.elim_some, other pid i found]
  refine ⟨⟨⟨length_setFrame .., rfl, rfl, rfl, rfl, rfl, rfl, fun _ => .inl rfl⟩, kept _ _, kept _ _⟩,
    ⟨⟨?_, ?_, ?_⟩, ?_, backed.opens, backed.sound, backed.sizes, ?_⟩, kept _ _⟩
  · have given : (e.setFrame idx f).pageTable = e.pageTable := rfl
    constructor
    · intro pid i
      change e.find pid = some i ↔ _
      rw [indexed.find_iff, length_setFrame]
      by_cases here : i = idx
      · subst here
        rw [vacant]
        rcases cases_on i with at_f | same
        · rw [at_f, invalid]
          simp
        · rw [same, vacant]
      · rw [frame_setFrame_of_ne here]
    · exact given ▸ indexed.keys
  · intro i
    rcases cases_on i with at_f | same
    · rw [at_f, unpinned]
      exact fun none => absurd none (Nat.lt_irrefl 0)
    · rw [same]
      exact backed.tidy.pinned i
  · intro i
    rcases cases_on i with at_f | same
    · rw [at_f]
      exact fun _ => logged
    · rw [same]
      exact backed.tidy.logged i
  · intro i
    rcases cases_on i with at_f | same
    · rw [at_f, invalid]
      exact fun absurdEq => absurd absurdEq Bool.false_ne_true
    · rw [same]
      exact backed.clean i
  · intro i
    rcases cases_on i with at_f | same
    · rw [at_f, invalid]
      exact fun absurdEq => absurd absurdEq Bool.false_ne_true
    · rw [same]
      exact backed.cached i

/-- What a change of a frame that holds a page changes. -/
theorem held_backed {f : PageFrame} (backed : e.Backed top) (found : e.find pid = some idx)
    (page : f.page = pid) (valid : f.valid = true) (logged : f.pin = 0 → f.before = f.data)
    (clean : f.dirty = false → e.files.pages pid = f.before) :
    (e.setFrame idx f).Backed top ∧ Kept e (e.setFrame idx f) ∧
      (e.setFrame idx f).content = Function.update e.content pid f.data ∧
      (e.setFrame idx f).baseline = Function.update e.baseline pid f.before ∧
      (e.setFrame idx f).pinCount = Function.update e.pinCount pid f.pin := by
  have indexed := backed.tidy.indexed
  obtain ⟨inRange, was_valid, was_page⟩ := (indexed.find_iff pid idx).mp found
  have frame : ∀ i, (e.setFrame idx f).frame i = if i = idx then f else e.frame i := by
    intro i
    rw [frame_setFrame_eq]
    by_cases here : i = idx
    · rw [if_pos ⟨here, inRange⟩, if_pos here]
    · rw [if_neg (fun both => here both.1), if_neg here]
  have kept : ∀ {α : Type} (onDisk : PageId → α) (inFrame : PageFrame → α),
      (fun other => (e.find other).elim (onDisk other)
        fun i => inFrame ((e.setFrame idx f).frame i)) =
      Function.update (fun other => (e.find other).elim (onDisk other)
        fun i => inFrame (e.frame i)) pid (inFrame f) := by
    intro α onDisk inFrame
    funext other
    by_cases same : other = pid
    · subst same
      rw [found, Option.elim_some, frame, if_pos rfl, Function.update_self]
    · rw [Function.update_of_ne same]
      cases at_other : e.find other with
      | none => rfl
      | some i =>
          have apart : i ≠ idx := by
            rintro rfl
            exact same (((indexed.find_iff other i).mp at_other).2.2.symm.trans was_page)
          rw [Option.elim_some, Option.elim_some, frame, if_neg apart]
  refine ⟨⟨⟨?_, ?_, ?_⟩, ?_, backed.opens, backed.sound, backed.sizes, ?_⟩,
    ⟨length_setFrame .., rfl, rfl, rfl, rfl, rfl, rfl, fun _ => .inl rfl⟩, kept _ _, kept _ _, kept _ _⟩
  · exact indexed.setFrame (page.trans was_page.symm) (valid.trans was_valid.symm)
  · intro i
    rw [frame]
    split
    · exact fun _ => valid
    · exact backed.tidy.pinned i
  · intro i
    rw [frame]
    split
    · exact logged
    · exact backed.tidy.logged i
  · intro i
    rw [frame]
    split
    · intro _ is_clean
      rw [page]
      exact clean is_clean
    · exact backed.clean i
  · intro i
    rw [frame]
    split
    · intro _
      rw [page, ← was_page]
      exact backed.cached idx was_valid
    · exact backed.cached i

/-- One more pin on a cached page. -/
theorem pin_moved (ref : Bool) (backed : e.Backed top) (found : e.find pid = some idx) :
    let e' := e.setFrame idx { e.frame idx with ref, pin := (e.frame idx).pin + 1 }
    Moved e e' ∧ e'.Backed top ∧
      e'.pinCount = Function.update e.pinCount pid (e.pinCount pid + 1) := by
  obtain ⟨inRange, valid, page⟩ := (backed.tidy.indexed.find_iff pid idx).mp found
  have changed := held_backed (f := { e.frame idx with ref, pin := (e.frame idx).pin + 1 })
    backed found page valid (fun none => absurd none (Nat.succ_ne_zero _))
    (fun is_clean => page ▸ backed.clean idx valid is_clean)
  obtain ⟨backed', kept, content, baseline, pins⟩ := changed
  refine ⟨⟨kept, ?_, ?_⟩, backed', ?_⟩
  · intro other
    rw [content, ← content_of_find found, Function.update_eq_self]
  · intro other
    rw [baseline, ← baseline_of_find found, Function.update_eq_self]
  · rw [pins, pinCount_of_find found]

/-- A page brought in and taken out again. -/
theorem erase_filled {f g : PageFrame} (absent : e.find pid = none) :
    ((filled e pid idx f).erase pid).setFrame idx g = e.setFrame idx g := by
  have table : ((pid, idx) :: e.pageTable).filter (fun entry => decide (entry.1 ≠ pid)) =
      e.pageTable := by
    rw [List.filter_cons_of_neg (by simp), List.filter_eq_self]
    intro entry mem
    rw [decide_eq_true_eq]
    rintro rfl
    have present : (e.pageTable.lookup entry.1).isSome = true := by
      rw [List.lookup_isSome_iff]
      exact ⟨entry, mem, by simp⟩
    rw [show e.pageTable.lookup entry.1 = e.find entry.1 from rfl, absent] at present
    cases present
  simp only [filled, erase, setFrame, List.set_set, table]

/-! ## Reading and allocating -/

theorem not_pageValid_zero {magic : Nat} (magic_ne : magic ≠ 0) :
    pageValid Block.zero magic = false := by
  have zero : Page.magic Block.zero = 0 := Block.num_zero ..
  simp [pageValid, zero, magic_ne.symm]

/-- A page that passes its check is inside its file. -/
theorem below_of_valid {magic : Nat} (backed : e.Backed top) (magic_ne : magic ≠ 0)
    (valid : pageValid (e.files.pages pid) magic = true) : pid.pageNo < top pid.fileId := by
  refine lt_of_lt_of_le ?_ (backed.sizes pid.fileId)
  by_contra beyond
  rw [backed.sound pid (Nat.le_of_not_lt beyond), not_pageValid_zero magic_ne] at valid
  cases valid

theorem read_moved {magic : Nat} (backed : e.Backed top) (magic_ne : magic ≠ 0) :
    Ends (read pid magic) e
      (fun idx e' => e'.find pid = some idx ∧ Moved e e' ∧ e'.Backed top ∧
        e'.pinCount = Function.update e.pinCount pid (e.pinCount pid + 1))
      fun err e' => Moved e e' ∧ e'.Backed top ∧ (∀ other, e'.pinCount other = e.pinCount other) ∧
        ((err = PoolView.noFrame ∧ e.find pid = none ∧ ∀ i < e.frames.length, 0 < (e.frame i).pin) ∨
          (err = PoolView.badPage pid magic ∧ pageValid (e.content pid) magic = false)) := by
  simp only [read, ends_bind, ends_get]
  cases found : e.find pid with
  | some idx =>
      have pinned := pin_moved true backed found
      exact ⟨found, pinned⟩
  | none =>
      simp only [onFiles, ends_bind, ends_modify, ends_onPart]
      apply (evict_moved backed).mono
      · rintro idx e₁ ⟨⟨moved, backed₁, pins⟩, evicted⟩
        have absent := evicted.absent pid found
        rw [emplace_setFrame absent]
        apply (FileManager.readPage_loaded (backed₁.opens _)).mono
        · rintro data files ⟨rfl, opened⟩
          obtain ⟨moved₂, backed₂⟩ := opened_moved backed₁ opened
          have pages : files.pages pid = e₁.files.pages pid := by
            rcases opened with rfl | rfl <;> rfl
          have inRange : idx < ({ e₁ with files } : Engine).frames.length := evicted.inRange
          have vacant : (({ e₁ with files } : Engine).frame idx).valid = false := evicted.vacant
          have absent₂ : ({ e₁ with files } : Engine).find pid = none := absent
          have pins₂ : ∀ other, ({ e₁ with files } : Engine).pinCount other = e.pinCount other := pins
          have gone := moved.trans moved₂
          have again : ∀ f g : PageFrame, ({ filled e₁ pid idx f with files } : Engine).setFrame idx g =
              filled { e₁ with files } pid idx g := fun f g =>
            setFrame_filled (e := { e₁ with files }) f g
          have frame : ∀ f : PageFrame, ({ filled e₁ pid idx f with files } : Engine).frame idx = f :=
            fun f => (@frame_filled e₁ pid idx f evicted.inRange idx).trans (if_pos rfl)
          simp only [ends_ite, ends_bind, ends_modify, ends_pure, ends_throw, again, frame]
          have disk : e₁.files.pages pid = ({ e₁ with files } : Engine).files.pages pid := pages.symm
          rw [disk]
          generalize ({ e₁ with files } : Engine) = e₂ at *
          simp only [setFrame_filled, frame_filled inRange, if_pos]
          have content : e.content pid = e₂.files.pages pid := by
            rw [← gone.content, content_of_absent absent₂]
          by_cases valid : pageValid (e₂.files.pages pid) magic = true
          · rw [if_pos valid]
            obtain ⟨backed₃, kept, content₃, baseline₃, pins₃⟩ := filled_backed pid backed₂
              inRange vacant absent₂ rfl rfl Nat.one_pos (below_of_valid backed₂ magic_ne valid)
              (f := { page := pid, valid := true, ref := true, pin := 1,
                      data := e₂.files.pages pid, before := e₂.files.pages pid }) (fun _ => rfl)
            refine ⟨?_, gone.trans ⟨kept, ?_, ?_⟩, backed₃, ?_⟩
            · rw [find_filled absent₂, if_pos rfl]
            · intro other
              rw [content₃, ← content_of_absent absent₂, Function.update_eq_self]
            · intro other
              rw [baseline₃, ← baseline_of_absent absent₂, Function.update_eq_self]
            · rw [pins₃, pinCount_of_absent found]
              congr 1
              exact funext pins₂
          · rw [if_neg valid]
            rw [erase_filled absent₂]
            obtain ⟨moved₃, backed₃, pins₃⟩ := clear_moved (f := {}) backed₂ vacant rfl rfl rfl
            refine ⟨gone.trans moved₃, backed₃, fun other => (pins₃ other).trans (pins₂ other), ?_⟩
            refine .inr ⟨trivial, ?_⟩
            rw [content]
            exact Bool.eq_false_iff.mpr valid
        · exact fun _ _ never => never.elim
      · rintro err e' ⟨rfl, all, moved, backed', pins⟩
        exact ⟨moved, backed', pins, .inl ⟨rfl, trivial, all⟩⟩

end BufferPool

end MySimpleDb.Storage
