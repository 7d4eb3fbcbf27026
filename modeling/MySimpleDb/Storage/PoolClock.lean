import MySimpleDb.Storage.PoolTable

/-!
# The clock

A page is written back without a change to what is cached, and the clock finds a
frame to give up whenever one is not pinned: a frame is passed for its reference
bit once, and the clock turns twice.
-/

namespace MySimpleDb.Storage

open MySimpleDb.Lib

namespace Engine

open Attempt

variable {e e' e'' : Engine} {pid : PageId} {idx i : Nat}

/-! ## Steps that leave the cached pages alone -/

/-- The table and the frames are as before but for marks that were cleared, and so are, on
disk, the pages that are not cached. -/
structure Calm (e e' : Engine) : Prop where
  table : e'.pageTable = e.pageTable
  hand : e'.clockHand = e.clockHand
  length : e'.frames.length = e.frames.length
  core : ∀ i, (e'.frame i).core = (e.frame i).core
  ref : ∀ i, (e'.frame i).ref = true → (e.frame i).ref = true
  dirty : ∀ i, (e'.frame i).dirty = true → (e.frame i).dirty = true
  opens : ∀ fid, e'.files.Opens fid ↔ e.files.Opens fid
  pages : ∀ pid, e.find pid = none → e'.files.pages pid = e.files.pages pid

theorem Calm.refl (e : Engine) : Calm e e where
  table := rfl
  hand := rfl
  length := rfl
  core _ := rfl
  ref _ set := set
  dirty _ set := set
  opens _ := Iff.rfl
  pages _ _ := rfl

theorem Calm.find (calm : Calm e e') (pid : PageId) : e'.find pid = e.find pid :=
  congrArg (List.lookup pid) calm.table

theorem Calm.trans (first : Calm e e') (second : Calm e' e'') : Calm e e'' where
  table := second.table.trans first.table
  hand := second.hand.trans first.hand
  length := second.length.trans first.length
  core i := (second.core i).trans (first.core i)
  ref i set := first.ref i (second.ref i set)
  dirty i set := first.dirty i (second.dirty i set)
  opens fid := (second.opens fid).trans (first.opens fid)
  pages pid absent :=
    (second.pages pid ((first.find pid).trans absent)).trans (first.pages pid absent)

theorem page_of_core {f f' : PageFrame} (core : f'.core = f.core) : f'.page = f.page :=
  congrArg (fun c => c.1) core

theorem valid_of_core {f f' : PageFrame} (core : f'.core = f.core) : f'.valid = f.valid :=
  congrArg (fun c => c.2.1) core

theorem pin_of_core {f f' : PageFrame} (core : f'.core = f.core) : f'.pin = f.pin :=
  congrArg (fun c => c.2.2.1) core

theorem data_of_core {f f' : PageFrame} (core : f'.core = f.core) : f'.data = f.data :=
  congrArg (fun c => c.2.2.2.1) core

theorem before_of_core {f f' : PageFrame} (core : f'.core = f.core) : f'.before = f.before :=
  congrArg (fun c => c.2.2.2.2) core

theorem Calm.indexed (calm : Calm e e') (indexed : e.Indexed) : e'.Indexed :=
  indexed.congr calm.table calm.length (fun i => page_of_core (calm.core i))
    fun i => valid_of_core (calm.core i)

/-- A frame with its marks set anew. -/
theorem Calm.setFrame {f : PageFrame} (core : f.core = (e.frame idx).core)
    (ref : f.ref = true → (e.frame idx).ref = true)
    (dirty : f.dirty = true → (e.frame idx).dirty = true) : Calm e (e.setFrame idx f) where
  table := rfl
  hand := rfl
  length := length_setFrame ..
  core i := by
    rw [frame_setFrame_eq]
    split
    · rename_i here
      rw [here.1, core]
    · rfl
  ref i := by
    rw [frame_setFrame_eq]
    split
    · rename_i here
      rw [here.1]
      exact ref
    · exact fun set => set
  dirty i := by
    rw [frame_setFrame_eq]
    split
    · rename_i here
      rw [here.1]
      exact dirty
    · exact fun set => set
  opens _ := Iff.rfl
  pages _ _ := rfl

/-- A frame whose page cannot be written back. -/
def Stuck (e : Engine) (idx : Nat) : Prop :=
  (e.frame idx).valid = true ∧ (e.frame idx).dirty = true ∧
    ((e.frame idx).before ≠ (e.frame idx).data ∨ ¬ e.files.Opens (e.frame idx).page.fileId)

theorem Calm.stuck (calm : Calm e e') (stuck : e'.Stuck idx) : e.Stuck idx := by
  have core := calm.core idx
  obtain ⟨valid, dirty, why⟩ := stuck
  refine ⟨valid_of_core core ▸ valid, calm.dirty idx dirty, ?_⟩
  rw [before_of_core core, data_of_core core, page_of_core core] at why
  exact why.imp_right fun closed opens => closed ((calm.opens _).mpr opens)

end Engine

namespace BufferPool

open Engine Attempt

variable {e e' : Engine} {pid : PageId} {idx i turns : Nat}

/-! ## Writing back -/

theorem writeBack_ends (indexed : e.Indexed) :
    Ends (writeBack idx) e (fun _ e' => Calm e e') fun _ e' => e' = e ∧ e.Stuck idx := by
  simp only [writeBack, ends_bind, ends_get, ends_ite]
  by_cases due : (e.frame idx).valid = true ∧ (e.frame idx).dirty = true
  · rw [if_pos due]
    cases Classical.em ((e.frame idx).before ≠ (e.frame idx).data) with
    | inl unlogged =>
        rw [if_pos unlogged]
        exact ⟨rfl, due.1, due.2, .inl unlogged⟩
    | inr logged =>
        rw [if_neg logged]
        simp only [onFiles, ends_onPart, ends_modify]
        apply FileManager.writePage_opens.mono
        · rintro - files ⟨pages, opens⟩
          have cleared : Calm { e with files } ({ e with files }.setFrame idx
              { e.frame idx with dirty := false }) :=
            Calm.setFrame rfl (fun set => set) (fun set => absurd set Bool.false_ne_true)
          have written : Calm e { e with files } := by
            refine ⟨rfl, rfl, rfl, fun _ => rfl, fun _ set => set, fun _ set => set, opens, ?_⟩
            intro pid absent
            have apart : pid ≠ (e.frame idx).page := by
              rintro rfl
              rw [(indexed.find_iff _ idx).mpr ⟨range_of_valid due.1, due.1, rfl⟩] at absent
              cases absent
            change files.pages pid = e.files.pages pid
            rw [pages, Function.update_of_ne apart]
          exact written.trans cleared
        · rintro - files ⟨rfl, closed⟩
          exact ⟨rfl, due.1, due.2, .inr closed⟩
  · rw [if_neg due]
    exact Calm.refl e

/-! ## The turns of the clock -/

/-- A frame given up, and the hand moved past it. -/
def vacated (e : Engine) (idx : Nat) : Engine :=
  { (if (e.frame idx).valid then e.erase (e.frame idx).page else e).setFrame idx
      { e.frame idx with valid := false } with
    clockHand := (idx + 1) % e.frames.length }

theorem vacated_of_core {f : PageFrame} (core : (e.frame idx).core = f.core) :
    { (if f.valid then e.erase f.page else e).setFrame idx
        { e.frame idx with valid := false } with
      clockHand := (idx + 1) % e.frames.length } = vacated e idx := by
  rw [← valid_of_core core, ← page_of_core core]
  rfl

/-- The frame the clock looks at in a turn. -/
def slot (e : Engine) (turn : Nat) : Nat :=
  (e.clockHand + turn) % e.frames.length

theorem slot_lt (some : 0 < e.frames.length) (turn : Nat) : slot e turn < e.frames.length :=
  Nat.mod_lt _ some

/-- Frames passed in the turns from `i` on: each is pinned, or was marked as used and is
looked at for the first time. -/
def Passed (e : Engine) (turns i : Nat) : Prop :=
  ∀ k < turns, 0 < (e.frame (slot e (i + k))).pin ∨
    ((e.frame (slot e (i + k))).ref = true ∧ ∀ k' < k, slot e (i + k') ≠ slot e (i + k))

theorem Passed.pinned (passed : Passed e turns (i + 1)) (pinned : 0 < (e.frame (slot e i)).pin) :
    Passed e (turns + 1) i := by
  intro k bound
  cases k with
  | zero => exact .inl pinned
  | succ k =>
      have shift : ∀ k, i + (k + 1) = i + 1 + k := by omega
      rw [shift]
      rcases passed k (by omega) with here | ⟨used, first⟩
      · exact .inl here
      · by_cases same : slot e i = slot e (i + 1 + k)
        · exact .inl (same ▸ pinned)
        · refine .inr ⟨used, fun k' before => ?_⟩
          cases k' with
          | zero => exact same
          | succ k' =>
              rw [shift]
              exact first k' (by omega)

/-- The second chance: the mark of a frame is cleared when the frame is passed. -/
theorem Passed.chance (some : 0 < e.frames.length) (used : (e.frame (slot e i)).ref = true)
    (passed : Passed (e.setFrame (slot e i) { e.frame (slot e i) with ref := false })
      turns (i + 1)) : Passed e (turns + 1) i := by
  have same_slot : ∀ turn,
      slot (e.setFrame (slot e i) { e.frame (slot e i) with ref := false }) turn = slot e turn := by
    intro turn
    rw [slot, length_setFrame]
    rfl
  intro k bound
  cases k with
  | zero => exact .inr ⟨used, fun _ none => absurd none (Nat.not_lt_zero _)⟩
  | succ k =>
      have shift : ∀ k, i + (k + 1) = i + 1 + k := by omega
      have later := passed k (by omega)
      simp only [same_slot] at later
      rw [shift]
      by_cases same : slot e (i + 1 + k) = slot e i
      · rw [same, frame_setFrame (slot_lt some i)] at later
        rcases later with here | ⟨cleared, -⟩
        · exact .inl (same ▸ here)
        · cases cleared
      · rw [frame_setFrame_of_ne same] at later
        refine later.imp_right fun ⟨used, first⟩ => ⟨used, fun k' before => ?_⟩
        cases k' with
        | zero => exact fun equal => same equal.symm
        | succ k' =>
            rw [shift]
            exact first k' (by omega)

/-- The clock gives up a frame that is not pinned, or every frame it looks at is passed, or
the page of one that is not pinned cannot be written back. -/
theorem evictLoop_ends (indexed : e.Indexed) (some : 0 < e.frames.length) :
    Ends (evictLoop turns i) e
      (fun idx e' => ∃ mid, Calm e mid ∧ idx < e.frames.length ∧ (e.frame idx).pin = 0 ∧
        e' = vacated mid idx)
      fun err e' => Calm e e' ∧ ((err = PoolView.noFrame ∧ Passed e turns i) ∨
        ∃ idx < e.frames.length, (e.frame idx).pin = 0 ∧ e.Stuck idx) := by
  induction turns generalizing e i with
  | zero =>
      refine ⟨Calm.refl e, .inl ⟨rfl, fun k none => absurd none (Nat.not_lt_zero k)⟩⟩
  | succ turns inductionHypothesis =>
      simp only [evictLoop, ends_bind, ends_get, ends_ite]
      change if 0 < (e.frame (slot e i)).pin then _ else _
      by_cases pinned : 0 < (e.frame (slot e i)).pin
      · rw [if_pos pinned]
        apply (inductionHypothesis indexed some).mono
        · exact fun _ _ found => found
        · rintro err e' ⟨calm, why⟩
          exact ⟨calm, why.imp_left fun both => ⟨both.1, both.2.pinned pinned⟩⟩
      · rw [if_neg pinned]
        have free : (e.frame (slot e i)).pin = 0 := Nat.eq_zero_of_not_pos pinned
        change if (e.frame (slot e i)).valid = true ∧ (e.frame (slot e i)).ref = true then _ else _
        by_cases used : (e.frame (slot e i)).valid = true ∧ (e.frame (slot e i)).ref = true
        · rw [if_pos used]
          have cleared : Calm e
              (e.setFrame (slot e i) { e.frame (slot e i) with ref := false }) :=
            Calm.setFrame rfl (fun set => absurd set Bool.false_ne_true) fun set => set
          apply (inductionHypothesis (cleared.indexed indexed) (cleared.length ▸ some)).mono
          · rintro idx e' ⟨mid, calm, inRange, unpinned, rfl⟩
            exact ⟨mid, cleared.trans calm, cleared.length ▸ inRange,
              (pin_of_core (cleared.core idx)) ▸ unpinned, rfl⟩
          · rintro err e' ⟨calm, why⟩
            refine ⟨cleared.trans calm, ?_⟩
            rcases why with ⟨spent, passed⟩ | ⟨idx, inRange, unpinned, stuck⟩
            · exact .inl ⟨spent, passed.chance some used.2⟩
            · exact .inr ⟨idx, cleared.length ▸ inRange,
                (pin_of_core (cleared.core idx)) ▸ unpinned, cleared.stuck stuck⟩
        · rw [if_neg used]
          simp only [ends_modify, ends_pure]
          apply (writeBack_ends indexed).mono
          · intro _ mid calm
            exact ⟨mid, calm, slot_lt some i, free, vacated_of_core (calm.core _)⟩
          · rintro err e' ⟨rfl, stuck⟩
            exact ⟨Calm.refl _, .inr ⟨_, slot_lt some i, free, stuck⟩⟩

/-- Each frame is looked at in the first turn of the clock, and again in the second. -/
theorem exists_slot (inRange : i < e.frames.length) :
    ∃ k < e.frames.length, slot e k = i ∧ slot e (k + e.frames.length) = i := by
  have some : 0 < e.frames.length := Nat.zero_lt_of_lt inRange
  refine ⟨(i + (e.frames.length - e.clockHand % e.frames.length)) % e.frames.length,
    Nat.mod_lt _ some, ?_⟩
  have below := Nat.mod_lt e.clockHand some
  have here : slot e ((i + (e.frames.length - e.clockHand % e.frames.length)) %
      e.frames.length) = i := by
    rw [slot, Nat.add_mod_mod, ← Nat.mod_add_mod]
    have whole : e.clockHand % e.frames.length +
        (i + (e.frames.length - e.clockHand % e.frames.length)) = i + e.frames.length := by omega
    rw [whole, Nat.add_mod_right, Nat.mod_eq_of_lt inRange]
  refine ⟨here, ?_⟩
  rw [slot, ← Nat.add_assoc, Nat.add_mod_right]
  exact here

theorem Passed.all (passed : Passed e (2 * e.frames.length) 0) (inRange : i < e.frames.length) :
    0 < (e.frame i).pin := by
  obtain ⟨k, bound, first, second⟩ := exists_slot inRange
  have looked := passed (k + e.frames.length) (by omega)
  rw [Nat.zero_add, second] at looked
  rcases looked with pinned | ⟨-, fresh⟩
  · exact pinned
  · have again := fresh k (by omega)
    rw [Nat.zero_add, first] at again
    exact absurd rfl again

/-! ## Eviction -/

/-- The frame is vacant, and the pages of the others are cached as before. -/
structure Evicted (e : Engine) (idx : Nat) (e' : Engine) : Prop where
  inRange : idx < e'.frames.length
  length : e'.frames.length = e.frames.length
  unpinned : (e.frame idx).pin = 0
  indexed : e'.Indexed
  vacant : (e'.frame idx).valid = false
  core : ∀ i, i ≠ idx → (e'.frame i).core = (e.frame i).core
  absent : ∀ pid, e.find pid = none → e'.find pid = none
  opens : ∀ fid, e'.files.Opens fid ↔ e.files.Opens fid
  pages : ∀ pid, e.find pid = none → e'.files.pages pid = e.files.pages pid

theorem evicted_vacated {mid : Engine} (indexed : e.Indexed) (calm : Calm e mid)
    (inRange : idx < e.frames.length) (unpinned : (e.frame idx).pin = 0) :
    Evicted e idx (vacated mid idx) := by
  have inRange' : idx < mid.frames.length := calm.length ▸ inRange
  have length : (vacated mid idx).frames.length = mid.frames.length := by
    rw [vacated]
    split <;> exact length_setFrame ..
  have frame : ∀ i, (vacated mid idx).frame i =
      (mid.setFrame idx { mid.frame idx with valid := false }).frame i := by
    intro i
    rw [vacated]
    split <;> rfl
  have table : ∀ pid, mid.find pid = none → (vacated mid idx).find pid = none := by
    intro pid absent
    rw [vacated]
    split
    · change (mid.erase (mid.frame idx).page).find pid = none
      rw [find_erase, absent, ite_self]
    · exact absent
  have files : (vacated mid idx).files = mid.files := by
    rw [vacated]
    split <;> rfl
  refine ⟨length ▸ inRange', length.trans calm.length, unpinned, ?_, ?_, ?_, ?_, ?_, ?_⟩
  · have given := (calm.indexed indexed).vacate inRange' (f := { mid.frame idx with
      valid := false }) rfl
    exact given.congr rfl rfl (fun _ => rfl) fun _ => rfl
  · rw [frame, frame_setFrame inRange']
  · intro i apart
    rw [frame, frame_setFrame_of_ne apart]
    exact calm.core i
  · exact fun pid absent => table pid ((calm.find pid).trans absent)
  · rw [files]
    exact calm.opens
  · rw [files]
    exact calm.pages

/-- Eviction gives up a frame that is not pinned; it raises where all frames are pinned, and
where a page that is not pinned cannot be written back. -/
theorem evict_ends (indexed : e.Indexed) :
    Ends evict e (Evicted e) fun err e' => Calm e e' ∧
      ((err = PoolView.noFrame ∧ ∀ i < e.frames.length, 0 < (e.frame i).pin) ∨
        ∃ idx < e.frames.length, (e.frame idx).pin = 0 ∧ e.Stuck idx) := by
  simp only [evict, ends_bind, ends_get]
  rcases Nat.eq_zero_or_pos e.frames.length with noFrames | some
  · rw [noFrames]
    exact ⟨Calm.refl e, .inl ⟨rfl, fun _ bound => absurd bound (Nat.not_lt_zero _)⟩⟩
  · apply (evictLoop_ends indexed some).mono
    · rintro idx e' ⟨mid, calm, inRange, unpinned, rfl⟩
      exact evicted_vacated indexed calm inRange unpinned
    · rintro err e' ⟨calm, why⟩
      exact ⟨calm, why.imp_left fun both => ⟨both.1, fun _ => both.2.all⟩⟩

/-- Where all frames are pinned, nothing is changed. -/
theorem evictLoop_pinned (pinned : ∀ i < e.frames.length, 0 < (e.frame i).pin)
    (some : 0 < e.frames.length) :
    Ends (evictLoop turns i) e (fun _ _ => False) fun err e' => err = PoolView.noFrame ∧ e' = e := by
  induction turns generalizing i with
  | zero => exact ⟨rfl, rfl⟩
  | succ turns inductionHypothesis =>
      simp only [evictLoop, ends_bind, ends_get, ends_ite]
      rw [if_pos (pinned _ (Nat.mod_lt _ some))]
      exact inductionHypothesis

theorem evict_pinned (pinned : ∀ i < e.frames.length, 0 < (e.frame i).pin) :
    Ends evict e (fun _ _ => False) fun err e' => err = PoolView.noFrame ∧ e' = e := by
  simp only [evict, ends_bind, ends_get]
  rcases Nat.eq_zero_or_pos e.frames.length with noFrames | some
  · rw [noFrames]
    exact ⟨rfl, rfl⟩
  · exact evictLoop_pinned pinned some

end BufferPool

end MySimpleDb.Storage
