import MySimpleDb.Storage.PoolView

/-!
# The contract for logged pages

What the log undoes and redoes stays right only if callers keep to two rules more
than the pool itself asks for: a page is allocated while it is zero, and the pages
marked dirty are the caller's own.  `strict` is the contract that leaves everything
open after a call that breaks one of them, so that what is proved by it is proved
of code that keeps to both.
-/

namespace MySimpleDb.Storage

open MySimpleDb.Lib

namespace PoolView

/-- The call allocates a page in use, or marks one with a content that the caller may not
give it. -/
def Misuse (own : PageId → Page → Prop) : PoolCall → PoolView → Prop
  | .allocate pid, s => s.pages pid ≠ Block.zero
  | .markDirty pid, s => ¬ own pid (s.pages pid)
  | _, _ => False

/-- The contract of a pool of `frames` frames for callers that may give pages the contents
`own`. -/
def strict (frames : Nat) (own : PageId → Page → Prop) : Prog.Semantics poolInterface Err PoolView :=
  fun c s r s' => Step frames c s r s' ∨ Misuse own c s

/-- A caller that may change every page. -/
def anyPage (_ : PageId) (_ : Page) : Prop :=
  True

/-- The caller may change the pages of the file. -/
def Owns (own : PageId → Page → Prop) (fid : Nat) : Prop :=
  ∀ no < 2 ^ 32, ∀ p, own ⟨fid, no⟩ p

theorem owns_anyPage (fid : Nat) : Owns anyPage fid :=
  fun _ _ _ => trivial

section Rules

variable {frames : Nat} {own : PageId → Page → Prop} {s : PoolView} {α : Type}

/-- What holds by the stricter contract holds by the other. -/
theorem returns_of_strict {p : PoolM α} {post : α → PoolView → Prop}
    (returns : Prog.Returns (strict frames own) p s post) : Prog.Returns (sem frames) p s post := by
  have simulates : Prog.Simulates Eq (sem frames) (strict frames own) := by
    rintro c s _ r s' rfl step
    exact ⟨s', .inl step, rfl⟩
  intro r s' run
  obtain ⟨t, run', rfl⟩ := simulates.runs p rfl run
  exact returns r s' run'

/-- A call that is no misuse does what it does by the contract of the pool. -/
theorem strict_perform {c : PoolCall} {post : c.Result → PoolView → Prop}
    (fine : ¬ Misuse own c s)
    (returns : Prog.Returns (sem frames) (Prog.perform (I := poolInterface) c) s post) :
    Prog.Returns (strict frames own) (Prog.perform (I := poolInterface) c) s post := by
  apply Prog.Returns.perform
  rintro r s' (step | misuse)
  · exact returns r s' (Prog.runs_perform.mpr step)
  · exact absurd misuse fine

theorem strict_createTableFile {fid : Nat} {post : Unit → PoolView → Prop}
    (new : s.top fid = 0) (holds : post () { s with top := Function.update s.top fid 1 }) :
    Prog.Returns (strict frames own) (PoolM.createTableFile fid) s post :=
  strict_perform id (returns_createTableFile new holds)

theorem strict_pageCount {fid : Nat} {post : Nat → PoolView → Prop}
    (holds : ∀ count, count ≤ s.top fid → post count s) :
    Prog.Returns (strict frames own) (PoolM.pageCount fid) s post :=
  strict_perform id (returns_pageCount holds)

theorem strict_allocate {pid : PageId} {post : Unit → PoolView → Prop}
    (room : s.pins.length < frames) (new : s.pages pid = Block.zero)
    (holds : post () { s with
      top := Function.update s.top pid.fileId (max (s.top pid.fileId) (pid.pageNo + 1))
      pins := pid :: s.pins }) :
    Prog.Returns (strict frames own) (PoolM.allocate pid) s post :=
  strict_perform (absurd new) (returns_allocate room new holds)

theorem strict_read {pid : PageId} {magic : Nat} {post : Unit → PoolView → Prop}
    (room : s.pins.length < frames) (valid : pageValid (s.pages pid) magic = true)
    (holds : post () { s with pins := pid :: s.pins }) :
    Prog.Returns (strict frames own) (PoolM.read pid magic) s post :=
  strict_perform id (returns_read room valid holds)

theorem strict_peek {pid : PageId} {post : Page → PoolView → Prop} (pinned : pid ∈ s.pins)
    (holds : post (s.pages pid) s) : Prog.Returns (strict frames own) (PoolM.peek pid) s post :=
  strict_perform id (returns_peek pinned holds)

theorem strict_poke {pid : PageId} {p : Page} {post : Unit → PoolView → Prop}
    (pinned : pid ∈ s.pins)
    (holds : post () { s.setPage pid p with unlogged := pid :: s.unlogged }) :
    Prog.Returns (strict frames own) (PoolM.poke pid p) s post :=
  strict_perform id (returns_poke pinned holds)

theorem strict_markDirty {pid : PageId} {post : Unit → PoolView → Prop}
    (owned : own pid (s.pages pid))
    (pinned : pid ∈ s.pins)
    (holds : post () { s with unlogged := s.unlogged.filter (· ≠ pid) }) :
    Prog.Returns (strict frames own) (PoolM.markDirty pid) s post :=
  strict_perform (absurd owned) (returns_markDirty pinned holds)

theorem strict_unpin {pid : PageId} {post : Unit → PoolView → Prop}
    (pinned : pid ∈ s.pins) (logged : pid ∉ s.unlogged)
    (holds : post () { s with pins := s.pins.erase pid }) :
    Prog.Returns (strict frames own) (PoolM.unpin pid) s post :=
  strict_perform id (returns_unpin pinned logged holds)

theorem strict_flush {pid : PageId} {post : Unit → PoolView → Prop}
    (logged : pid ∉ s.unlogged) (holds : post () s) :
    Prog.Returns (strict frames own) (PoolM.flush pid) s post :=
  strict_perform id (returns_flush logged holds)

theorem strict_tree {fid : Nat} {post : BTree → PoolView → Prop} (holds : post (s.trees fid) s) :
    Prog.Returns (strict frames own) (PoolM.tree fid) s post :=
  strict_perform id (returns_tree holds)

theorem strict_setTree {fid : Nat} {t : BTree} {post : Unit → PoolView → Prop}
    (holds : post () { s with trees := Function.update s.trees fid t }) :
    Prog.Returns (strict frames own) (PoolM.setTree fid t) s post :=
  strict_perform id (returns_setTree holds)

/-- Writing a page of one's own, marking it and giving up the pin. -/
theorem strict_save {k : PoolM α} {pid : PageId} {p : Page} {pins : List PageId}
    {post : α → PoolView → Prop} (owned : own pid p) (pinned : s.pins = pid :: pins)
    (logged : s.unlogged = [])
    (holds : Prog.Returns (strict frames own) k { s.setPage pid p with pins := pins } post) :
    Prog.Returns (strict frames own)
      (do PoolM.poke pid p; PoolM.markDirty pid; PoolM.unpin pid; k) s post := by
  have mem : pid ∈ s.pins := by
    rw [pinned]
    exact List.mem_cons_self ..
  apply Prog.Returns.bind
  apply strict_poke mem
  apply Prog.Returns.bind
  refine strict_markDirty (by simpa using owned) mem ?_
  apply Prog.Returns.bind
  refine strict_unpin mem ?_ ?_
  · simp [logged]
  · simpa [setPage, pinned, logged] using holds

/-- Calls that allocate no page and mark none. -/
def Reads : PoolCall → Prop
  | .pageCount _ => True
  | .read _ magic => magic ≠ 0
  | .peek _ => True
  | .unpin _ => True
  | .tree _ => True
  | _ => False

/-- Code that only reads keeps to the stricter contract. -/
theorem strict_of_reads {p : PoolM α} {post : α → PoolView → Prop} (plain : Prog.Plain Reads p)
    (returns : Prog.Returns (sem frames) p s post) :
    Prog.Returns (strict frames own) p s post := by
  have : Nonempty Err := ⟨.crash ""⟩
  have step : ∀ c (s t : PoolView) r s', Reads c → s = t → strict frames own c s r s' →
      (∃ t', sem frames c t r t' ∧ s' = t') ∨ ∀ r t', sem frames c t r t' := by
    rintro c s _ r s' reads rfl (step | misuse)
    · exact .inl ⟨s', step, rfl⟩
    · cases c <;> first | exact misuse.elim | exact reads.elim
  apply (plain.returns step rfl returns).mono
  rintro a s' ⟨_, rfl, holds⟩
  exact holds

end Rules

end PoolView

end MySimpleDb.Storage
