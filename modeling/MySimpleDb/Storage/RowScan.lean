import MySimpleDb.Storage.BTreeScan
import MySimpleDb.Storage.RowsOnPool

/-!
# Reading rows over the pool

Reading one row, the walk over all pages of a table file and the scanner, on pages that
hold a heap file.  None of them changes what callers of the pool see, but for the pin
that a scanner keeps.
-/

namespace MySimpleDb.Storage

open MySimpleDb.Lib

variable {frames fid : Nat} {own : PageId → Page → Prop} {s : PoolView} {h : HeapFile}

/-! ## One row -/

theorem HeapFile.WellFormed.readRow_eq (wellFormed : h.WellFormed) {a : HeapPage}
    (mem : a ∈ h.pages) {ref : RowRef} (no : ref.page.pageNo = a.no) (count : Nat)
    (cols : List ColumnSpec) :
    HeapFile.readRow count h ref cols = (a.record? ref.slot).elim (.ok none) fun rec =>
      (HeapFile.decodeRecord cols rec).map fun values => some { ref := ref, values := values } := by
  have found : h.page? ref.page.pageNo = some a := wellFormed.page?_iff.mpr ⟨mem, no.symm⟩
  rw [HeapFile.readRow, wellFormed.checkRowRef_ok mem no, Res.bind_ok, HeapFile.readPage, found,
    Res.bind_ok]
  cases a.record? ref.slot with
  | none => rfl
  | some rec => cases HeapFile.decodeRecord cols rec <;> rfl

theorem readSlot_spec (file : RowFile s fid h) {a : HeapPage} (mem : a ∈ h.pages) {ref : RowRef}
    (page : ref.page = ⟨fid, a.no⟩) (logged : s.unlogged = []) (room : s.pins.length < frames)
    {cols : List ColumnSpec} {row? : Option Row} {count : Nat}
    (read : HeapFile.readRow count h ref cols = .ok row?) :
    Prog.Returns (PoolView.strict frames own) (TableFile.readSlot ref cols) s fun r s' =>
      r = row? ∧ s' = s := by
  have laid := file.laid a mem
  rw [file.wellFormed.readRow_eq mem (by rw [page])] at read
  unfold TableFile.readSlot
  rw [page]
  apply Prog.Returns.bind
  refine PoolView.strict_read room laid.valid ?_
  apply Prog.Returns.bind
  refine PoolView.strict_peek List.mem_cons_self ?_
  have dead := laid.record_none ref.slot
  cases record : a.record? ref.slot with
  | none =>
      rw [record] at read
      cases read
      rw [if_pos (dead.mp record)]
      apply Prog.Returns.bind
      refine PoolView.strict_unpin List.mem_cons_self (by simp [logged]) ?_
      rw [List.erase_cons_head]
      exact Prog.Returns.pure ⟨rfl, rfl⟩
  | some rec =>
      rw [record, Option.elim_some] at read
      rw [if_neg fun gone => by
        rw [dead.mpr gone] at record
        cases record]
      have bytes := (laid.record_some record).1
      simp only
      rw [bytes]
      cases decoded : decodeRow cols rec with
      | error err =>
          rw [HeapFile.decodeRecord, decoded] at read
          cases read
      | ok result =>
          cases result with
          | none =>
              rw [HeapFile.decodeRecord, decoded] at read
              cases read
          | some values =>
              rw [HeapFile.decodeRecord, decoded] at read
              cases read
              apply Prog.Returns.bind
              refine Prog.Returns.pure ?_
              apply Prog.Returns.bind
              refine PoolView.strict_unpin List.mem_cons_self (by simp [logged]) ?_
              rw [List.erase_cons_head, ← page]
              exact Prog.Returns.pure ⟨rfl, rfl⟩

/-! ## All pages -/

theorem RowFile.pages_lt (file : RowFile s fid h) : h.pages.length < 2 ^ 32 := by
  have nodup : (0 :: h.pages.map HeapPage.no).Nodup := by
    refine List.nodup_cons.mpr ⟨fun mem => ?_, file.wellFormed.rising.imp Nat.ne_of_lt⟩
    obtain ⟨a, a_mem, zero⟩ := List.mem_map.mp mem
    have := file.wellFormed.positive a a_mem
    omega
  have few : _ ≤ 2 ^ 32 := length_le_of_small nodup (by
    intro no mem
    rcases List.mem_cons.mp mem with rfl | mem
    · decide
    · obtain ⟨a, a_mem, rfl⟩ := List.mem_map.mp mem
      exact file.no_lt a_mem)
  rwa [List.length_cons, List.length_map] at few

section Walk

variable {α : Type} {visit : PageId → Page → Res (List α)} {g : HeapPage → List α}

/-- The walk from a place in the chain gives what the pages from there on give. -/
theorem walkFrom_spec (file : RowFile s fid h)
    (visits : ∀ a ∈ h.pages, visit ⟨fid, a.no⟩ (s.pages ⟨fid, a.no⟩) = .ok (g a))
    (logged : s.unlogged = []) (room : s.pins.length < frames) {before after : List HeapPage}
    (split : h.pages = before ++ after) {fuel : Nat} (enough : after.length < fuel) :
    Prog.Returns (PoolView.strict frames own)
      (TableFile.walkFrom visit fid fuel (HeapFile.headNo after)) s fun xs s' =>
        xs = after.flatMap g ∧ s' = s := by
  induction after generalizing before fuel with
  | nil =>
      obtain ⟨fuel, rfl⟩ : ∃ n, fuel = n + 1 := ⟨fuel - 1, by omega⟩
      unfold TableFile.walkFrom
      exact Prog.Returns.pure ⟨rfl, rfl⟩
  | cons a after inductionHypothesis =>
      obtain ⟨fuel, rfl⟩ : ∃ n, fuel = n + 1 := ⟨fuel - 1, by omega⟩
      have mem : a ∈ h.pages := by simp [split]
      have positive := file.wellFormed.positive a mem
      have head : HeapFile.headNo (a :: after) = a.no := rfl
      have next : (s.pages ⟨fid, a.no⟩).nextPage = HeapFile.headNo after := by
        rw [file.chained a mem]
        exact file.wellFormed.nextPage_eq split
      unfold TableFile.walkFrom
      rw [head, if_neg positive.ne']
      apply Prog.Returns.bind
      refine PoolView.strict_read room (file.laid a mem).valid ?_
      apply Prog.Returns.bind
      refine PoolView.strict_peek List.mem_cons_self ?_
      simp only
      rw [visits a mem, next]
      apply Prog.Returns.bind
      refine Prog.Returns.pure ?_
      apply Prog.Returns.bind
      refine PoolView.strict_unpin List.mem_cons_self (by simp [logged]) ?_
      rw [List.erase_cons_head]
      apply Prog.Returns.bind
      have split' : h.pages = (before ++ [a]) ++ after := by simp [split]
      apply (inductionHypothesis split' (by simpa using enough)).mono
      rintro xs _ ⟨rfl, rfl⟩
      exact Prog.Returns.pure ⟨rfl, rfl⟩

theorem walk_spec (file : RowFile s fid h)
    (visits : ∀ a ∈ h.pages, visit ⟨fid, a.no⟩ (s.pages ⟨fid, a.no⟩) = .ok (g a))
    (logged : s.unlogged = []) (room : s.pins.length < frames) :
    Prog.Returns (PoolView.strict frames own) (TableFile.walk visit fid) s fun xs s' =>
      xs = h.pages.flatMap g ∧ s' = s := by
  have few := file.pages_lt
  unfold TableFile.walk
  apply Prog.Returns.bind
  refine PoolView.strict_read room file.header ?_
  apply Prog.Returns.bind
  refine PoolView.strict_peek List.mem_cons_self ?_
  apply Prog.Returns.bind
  refine PoolView.strict_unpin List.mem_cons_self (by simp [logged]) ?_
  rw [List.erase_cons_head, file.first]
  apply walkFrom_spec file visits logged room (show h.pages = [] ++ h.pages from rfl)
  unfold scanBound
  omega

end Walk

/-- The references of the live slots of a file. -/
def HeapFile.refs (fid : Nat) (h : HeapFile) : List RowRef :=
  h.live.map fun entry => ⟨⟨fid, entry.1.1⟩, entry.1.2⟩

theorem walk_refs (file : RowFile s fid h) (logged : s.unlogged = [])
    (room : s.pins.length < frames) :
    Prog.Returns (PoolView.strict frames own) (TableFile.walk TableFile.refsOf fid) s
      fun refs s' => refs = h.refs fid ∧ s' = s := by
  have visits : ∀ a ∈ h.pages, TableFile.refsOf ⟨fid, a.no⟩ (s.pages ⟨fid, a.no⟩) =
      .ok ((a.liveFrom 0).map fun entry => ⟨⟨fid, entry.1.1⟩, entry.1.2⟩) := by
    intro a mem
    rw [TableFile.refsOf, ← (file.laid a mem).liveSlots_eq, List.map_map]
    rfl
  apply (walk_spec file visits logged room).mono
  rintro refs _ ⟨rfl, rfl⟩
  rw [HeapFile.refs, HeapFile.live, List.map_flatMap]
  exact ⟨rfl, rfl⟩

/-- A fallible map that returns did so of each element. -/
theorem mapM_eq_ok_mem {α β : Type} {d : α → Res β} {l : List α} {rows : List β}
    (mapped : l.mapM d = .ok rows) {a : α} (mem : a ∈ l) : ∃ b, d a = .ok b := by
  induction l generalizing rows with
  | nil => cases mem
  | cons x l inductionHypothesis =>
      rw [List.mapM_cons] at mapped
      obtain ⟨first, first_eq, mapped⟩ := Res.bind_eq_ok.mp mapped
      obtain ⟨rest, rest_eq, -⟩ := Res.bind_eq_ok.mp mapped
      rcases List.mem_cons.mp mem with rfl | mem
      · exact ⟨first, first_eq⟩
      · exact inductionHypothesis rest_eq mem

/-- What a fallible map gives of a concatenation it gives of the parts. -/
theorem mapM_flatMap {ι α β : Type} {d : α → Res β} {f : ι → List α} {l : List ι} {rows : List β}
    (mapped : (l.flatMap f).mapM d = .ok rows) :
    ∃ g : ι → List β, (∀ i ∈ l, (f i).mapM d = .ok (g i)) ∧ rows = l.flatMap g := by
  refine ⟨fun i => ((f i).mapM d).toOption.getD [], ?_⟩
  induction l generalizing rows with
  | nil =>
      cases mapped
      exact ⟨by simp, rfl⟩
  | cons i l inductionHypothesis =>
      rw [List.flatMap_cons, List.mapM_append] at mapped
      obtain ⟨first, first_eq, mapped⟩ := Res.bind_eq_ok.mp mapped
      obtain ⟨rest, rest_eq, mapped⟩ := Res.bind_eq_ok.mp mapped
      cases mapped
      obtain ⟨each, all⟩ := inductionHypothesis rest_eq
      have here : ((f i).mapM d).toOption.getD [] = first := by rw [first_eq]; rfl
      refine ⟨?_, by rw [List.flatMap_cons, here, all]⟩
      rintro j (_ | ⟨_, mem⟩)
      · exact first_eq.trans (congrArg Except.ok here.symm)
      · exact each j mem

theorem walk_values (file : RowFile s fid h) (logged : s.unlogged = [])
    (room : s.pins.length < frames) {cols : List ColumnSpec} {rows : List (List Value)}
    (read : h.readRows cols = .ok rows) :
    Prog.Returns (PoolView.strict frames own) (TableFile.walk (TableFile.valuesOf cols) fid) s
      fun xs s' => xs = rows ∧ s' = s := by
  obtain ⟨g, each, rfl⟩ := mapM_flatMap read
  apply walk_spec file _ logged room
  intro a mem
  rw [← each a mem, ← (file.laid a mem).liveSlots_eq, List.mapM_map]
  rfl

/-! ## Scans -/

/-- The search for a live slot finds the first of those that the page has. -/
theorem HeapLaid.liveFrom_find {p : Page} {a : HeapPage} (laid : HeapLaid p a) {slot : Nat}
    (within : slot ≤ a.slots.length) :
    (RowScanner.liveFrom p slot).elim (a.liveFrom slot = []) fun i =>
      a.liveFrom slot = ((a.no, i), p.record i) :: a.liveFrom (i + 1) ∧ i < a.slots.length := by
  have count := laid.count
  unfold RowScanner.liveFrom
  obtain ⟨n, n_eq⟩ : ∃ n, n = p.slotCount - slot := ⟨_, rfl⟩
  rw [← n_eq]
  induction n generalizing slot with
  | zero =>
      have ended : a.slots.drop slot = [] := List.drop_eq_nil_of_le (by omega)
      rw [HeapPage.liveFrom, ended]
      rfl
  | succ n inductionHypothesis =>
      have below : slot < a.slots.length := by omega
      have record : a.record? slot = a.slots[slot] := by
        rw [HeapPage.record?, List.getD_eq_getElem?_getD, List.getElem?_eq_getElem below,
          Option.getD_some]
      have dead := laid.record_none slot
      have cut : a.liveFrom slot =
          (HeapPage.liveAt slot (a.slots[slot] :: a.slots.drop (slot + 1))).map
            fun live => ((a.no, live.1), live.2) := by
        rw [HeapPage.liveFrom, List.drop_eq_getElem_cons below]
      rw [List.range'_succ, List.find?_cons]
      cases slot_eq : a.slots[slot] with
      | none =>
          have gone : slotTombstone p slot = true := by
            rcases dead.mp (record.trans slot_eq) with beyond | gone
            · omega
            · exact gone
          have later := inductionHypothesis (by omega : slot + 1 ≤ a.slots.length) (by omega)
          have skipped : a.liveFrom slot = a.liveFrom (slot + 1) := by
            rw [cut, slot_eq]
            rfl
          rw [skipped, gone]
          exact later
      | some rec =>
          obtain ⟨bytes, -⟩ := laid.record_some (record.trans slot_eq)
          have live : slotTombstone p slot = false := by
            rw [← Bool.not_eq_true]
            intro gone
            have none := dead.mpr (.inr gone)
            rw [record, slot_eq] at none
            cases none
          rw [live]
          refine ⟨?_, below⟩
          rw [cut, slot_eq, bytes]
          rfl

namespace RowScanner

/-- The pin of a scanner. -/
def pins (scan : RowScanner) : List PageId :=
  (scan.cur.map fun no => ⟨scan.fileId, no⟩).toList

/-- The scanner has the slots in `rest` still before it. -/
inductive At (fid : Nat) (cols : List ColumnSpec) (h : HeapFile) :
    RowScanner → List ((Nat × Nat) × Bytes) → Prop
  | between {before after : List HeapPage} {slot : Nat} (split : h.pages = before ++ after) :
      At fid cols h ⟨fid, cols, HeapFile.headNo after, none, slot, false⟩ (HeapFile.liveOf after)
  | within {before after : List HeapPage} {a : HeapPage} {slot : Nat}
      (split : h.pages = before ++ a :: after) (below : slot ≤ a.slots.length) :
      At fid cols h ⟨fid, cols, HeapFile.headNo after, some a.no, slot, false⟩
        (a.liveFrom slot ++ HeapFile.liveOf after)
  | done {no slot : Nat} : At fid cols h ⟨fid, cols, no, none, slot, true⟩ []

variable {cols : List ColumnSpec} {rest : List ((Nat × Nat) × Bytes)}

/-- What a call gives that has the slots in `rest` before it. -/
def Gives (fid : Nat) (cols : List ColumnSpec) (h : HeapFile) (s : PoolView) :
    List ((Nat × Nat) × Bytes) → Option Row × RowScanner → PoolView → Prop
  | [], out, s' => out.1 = none ∧ At fid cols h out.2 [] ∧ out.2.cur = none ∧ s' = s
  | entry :: rest, out, s' => ∃ row, HeapFile.Scanner.rowAt fid cols entry = .ok row ∧
      out.1 = some row ∧ At fid cols h out.2 rest ∧ s' = { s with pins := out.2.pins ++ s.pins }

theorem release_spec {scan : RowScanner} (logged : s.unlogged = []) :
    Prog.Returns (PoolView.strict frames own) scan.release
      { s with pins := scan.pins ++ s.pins } fun _ s' => s' = s := by
  unfold release pins
  cases scan.cur with
  | none => exact Prog.Returns.pure rfl
  | some no =>
      refine PoolView.strict_unpin List.mem_cons_self (by simp [logged]) ?_
      change { s with pins := (_ :: s.pins).erase _ } = s
      rw [List.erase_cons_head]

/-- At the end of the chain the scan is done. -/
theorem advancePage_end (scan : RowScanner) (logged : s.unlogged = []) (last : scan.nextPageNo = 0) :
    Prog.Returns (PoolView.strict frames own) scan.advancePage
      { s with pins := scan.pins ++ s.pins } fun scan' s' =>
        scan' = { scan with cur := none, isDone := true } ∧ s' = s := by
  unfold advancePage
  apply Prog.Returns.bind
  apply (release_spec logged).mono
  rintro - _ rfl
  rw [if_pos last]
  exact Prog.Returns.pure ⟨rfl, rfl⟩

/-- Elsewhere the next page of the chain is held. -/
theorem advancePage_page (file : RowFile s fid h) {before after : List HeapPage} {a : HeapPage}
    (scan : RowScanner) (split : h.pages = before ++ a :: after) (of_file : scan.fileId = fid)
    (next : scan.nextPageNo = a.no) (logged : s.unlogged = []) (room : s.pins.length < frames) :
    Prog.Returns (PoolView.strict frames own) scan.advancePage
      { s with pins := scan.pins ++ s.pins } fun scan' s' =>
        scan' = { scan with
          cur := some a.no, slot := 0, nextPageNo := HeapFile.headNo after } ∧
        s' = { s with pins := ⟨fid, a.no⟩ :: s.pins } := by
  have mem : a ∈ h.pages := by simp [split]
  have positive := file.wellFormed.positive a mem
  have follows : (s.pages ⟨fid, a.no⟩).nextPage = HeapFile.headNo after := by
    rw [file.chained a mem]
    exact file.wellFormed.nextPage_eq split
  unfold advancePage
  apply Prog.Returns.bind
  apply (release_spec logged).mono
  rintro - _ rfl
  rw [next, if_neg positive.ne', of_file]
  apply Prog.Returns.bind
  refine PoolView.strict_read room (file.laid a mem).valid ?_
  apply Prog.Returns.bind
  refine PoolView.strict_peek List.mem_cons_self ?_
  refine Prog.Returns.pure ⟨?_, rfl⟩
  simp only
  rw [follows]

section Loop

variable {before after : List HeapPage} {a : HeapPage} {slot fuel : Nat}

/-- A live slot of the page that is held is given. -/
theorem nextLoop_found (file : RowFile s fid h) (split : h.pages = before ++ a :: after)
    (below : slot ≤ a.slots.length) {i : Nat}
    (first : liveFrom (s.pages ⟨fid, a.no⟩) slot = some i)
    (decodes : ∀ entry ∈ a.liveFrom slot ++ HeapFile.liveOf after,
      ∃ row, HeapFile.Scanner.rowAt fid cols entry = .ok row) :
    Prog.Returns (PoolView.strict frames own)
      (nextLoop (fuel + 1) ⟨fid, cols, HeapFile.headNo after, some a.no, slot, false⟩)
      { s with pins := ⟨fid, a.no⟩ :: s.pins }
      (Gives fid cols h s (a.liveFrom slot ++ HeapFile.liveOf after)) := by
  have mem : a ∈ h.pages := by simp [split]
  have found := (file.laid a mem).liveFrom_find below
  rw [first] at found
  obtain ⟨live, inside⟩ := found
  rw [live, List.cons_append] at decodes ⊢
  obtain ⟨row, row_eq⟩ := decodes _ List.mem_cons_self
  obtain ⟨values, decoded, made⟩ := Res.bind_eq_ok.mp row_eq
  unfold nextLoop
  apply Prog.Returns.bind
  refine PoolView.strict_peek List.mem_cons_self ?_
  simp only
  rw [first]
  simp only
  rw [decoded]
  apply Prog.Returns.bind
  refine Prog.Returns.pure ?_
  refine Prog.Returns.pure ⟨row, row_eq, ?_, .within split inside, rfl⟩
  exact congrArg some (Except.ok.inj made)

/-- Without a live slot the loop goes on behind the page. -/
theorem nextLoop_past (file : RowFile s fid h) (split : h.pages = before ++ a :: after)
    (below : slot ≤ a.slots.length) (first : liveFrom (s.pages ⟨fid, a.no⟩) slot = none)
    (logged : s.unlogged = []) (room : s.pins.length < frames)
    (goes_on : ∀ b rest, after = b :: rest → Prog.Returns (PoolView.strict frames own)
      (nextLoop fuel ⟨fid, cols, HeapFile.headNo rest, some b.no, 0, false⟩)
      { s with pins := ⟨fid, b.no⟩ :: s.pins } (Gives fid cols h s (HeapFile.liveOf after))) :
    Prog.Returns (PoolView.strict frames own)
      (nextLoop (fuel + 1) ⟨fid, cols, HeapFile.headNo after, some a.no, slot, false⟩)
      { s with pins := ⟨fid, a.no⟩ :: s.pins }
      (Gives fid cols h s (a.liveFrom slot ++ HeapFile.liveOf after)) := by
  have mem : a ∈ h.pages := by simp [split]
  have found := (file.laid a mem).liveFrom_find below
  rw [first, Option.elim_none] at found
  rw [found, List.nil_append]
  unfold nextLoop
  apply Prog.Returns.bind
  refine PoolView.strict_peek List.mem_cons_self ?_
  simp only
  rw [first]
  apply Prog.Returns.bind
  cases after with
  | nil =>
      apply (advancePage_end ⟨fid, cols, 0, some a.no, slot, false⟩ logged rfl).mono
      rintro _ _ ⟨rfl, rfl⟩
      exact Prog.Returns.pure ⟨rfl, .done, rfl, rfl⟩
  | cons b rest =>
      have split' : h.pages = (before ++ [a]) ++ b :: rest := by simp [split]
      apply (advancePage_page file ⟨fid, cols, b.no, some a.no, slot, false⟩ split' rfl rfl
        logged room).mono
      rintro _ _ ⟨rfl, rfl⟩
      exact goes_on b rest rfl

/-- The loop from a page that is held on. -/
theorem nextLoop_within (file : RowFile s fid h) (logged : s.unlogged = [])
    (room : s.pins.length < frames) (split : h.pages = before ++ a :: after)
    (below : slot ≤ a.slots.length) (enough : after.length < fuel)
    (decodes : ∀ entry ∈ a.liveFrom slot ++ HeapFile.liveOf after,
      ∃ row, HeapFile.Scanner.rowAt fid cols entry = .ok row) :
    Prog.Returns (PoolView.strict frames own)
      (nextLoop fuel ⟨fid, cols, HeapFile.headNo after, some a.no, slot, false⟩)
      { s with pins := ⟨fid, a.no⟩ :: s.pins }
      (Gives fid cols h s (a.liveFrom slot ++ HeapFile.liveOf after)) := by
  induction after generalizing before a slot fuel with
  | nil =>
      obtain ⟨fuel, rfl⟩ : ∃ n, fuel = n + 1 := ⟨fuel - 1, by omega⟩
      cases first : liveFrom (s.pages ⟨fid, a.no⟩) slot with
      | some i => exact nextLoop_found file split below first decodes
      | none => exact nextLoop_past file split below first logged room fun b rest none => nomatch none
  | cons b after inductionHypothesis =>
      obtain ⟨fuel, rfl⟩ : ∃ n, fuel = n + 1 := ⟨fuel - 1, by omega⟩
      cases first : liveFrom (s.pages ⟨fid, a.no⟩) slot with
      | some i => exact nextLoop_found file split below first decodes
      | none =>
          apply nextLoop_past file split below first logged room
          rintro _ _ ⟨⟩
          have split' : h.pages = (before ++ [a]) ++ b :: after := by simp [split]
          apply inductionHypothesis split' (Nat.zero_le _) (by simpa using enough)
          exact fun entry mem => decodes entry (List.mem_append_right _ mem)

end Loop

/-- A call of `next` gives the first of the rows before it. -/
theorem next_spec (file : RowFile s fid h) {scan : RowScanner} (position : At fid cols h scan rest)
    (logged : s.unlogged = []) (room : s.pins.length < frames)
    (decodes : ∀ entry ∈ rest, ∃ row, HeapFile.Scanner.rowAt fid cols entry = .ok row) :
    Prog.Returns (PoolView.strict frames own) scan.next
      { s with pins := scan.pins ++ s.pins } (Gives fid cols h s rest) := by
  have few := file.pages_lt
  obtain ⟨fuel, fuel_eq⟩ : ∃ fuel, scanBound = fuel + 1 := ⟨scanBound - 1, rfl⟩
  unfold next
  cases position with
  | done => exact Prog.Returns.pure ⟨rfl, .done, rfl, rfl⟩
  | @between before after slot split =>
      rw [if_neg Bool.false_ne_true, fuel_eq]
      unfold nextLoop
      apply Prog.Returns.bind
      cases after with
      | nil =>
          apply (advancePage_end ⟨fid, cols, 0, none, slot, false⟩ logged rfl).mono
          rintro _ _ ⟨rfl, rfl⟩
          exact Prog.Returns.pure ⟨rfl, .done, rfl, rfl⟩
      | cons a after =>
          apply (advancePage_page file ⟨fid, cols, a.no, none, slot, false⟩ split rfl rfl
            logged room).mono
          rintro _ _ ⟨rfl, rfl⟩
          apply nextLoop_within file logged room split (Nat.zero_le _) _ decodes
          rw [split, List.length_append, List.length_cons] at few
          unfold scanBound at fuel_eq
          omega
  | @within before after a slot split below =>
      rw [if_neg Bool.false_ne_true]
      apply nextLoop_within file logged room split below _ decodes
      rw [split, List.length_append, List.length_cons] at few
      unfold scanBound
      omega

theorem create_spec (file : RowFile s fid h) (logged : s.unlogged = [])
    (room : s.pins.length < frames) (cols : List ColumnSpec) :
    Prog.Returns (PoolView.strict frames own) (create fid cols) s fun scan s' =>
      At fid cols h scan h.live ∧ scan.pins = [] ∧ s' = s := by
  unfold create
  apply Prog.Returns.bind
  refine PoolView.strict_read room file.header ?_
  apply Prog.Returns.bind
  refine PoolView.strict_peek List.mem_cons_self ?_
  apply Prog.Returns.bind
  refine PoolView.strict_unpin List.mem_cons_self (by simp [logged]) ?_
  rw [List.erase_cons_head, file.first]
  exact Prog.Returns.pure ⟨.between (show h.pages = [] ++ h.pages from rfl), rfl, rfl⟩

theorem close_spec {scan : RowScanner} (logged : s.unlogged = []) :
    Prog.Returns (PoolView.strict frames own) scan.close
      { s with pins := scan.pins ++ s.pins } fun _ s' => s' = s := by
  unfold close
  apply Prog.Returns.bind
  apply (release_spec logged).mono
  rintro - _ rfl
  exact Prog.Returns.pure rfl

/-- Calls of `next` give the rows before the scanner one by one, and then none. -/
theorem nexts_spec (file : RowFile s fid h) {scan : RowScanner} {calls : Nat} {rows : List Row}
    (position : At fid cols h scan rest) (logged : s.unlogged = []) (room : s.pins.length < frames)
    (decoded : rest.mapM (HeapFile.Scanner.rowAt fid cols) = .ok rows) :
    Prog.Returns (PoolView.strict frames own) (nexts calls scan)
      { s with pins := scan.pins ++ s.pins } fun r s' =>
        r.1 = ((List.range calls).map fun i => rows[i]?) ∧
          s' = { s with pins := r.2.pins ++ s.pins } := by
  induction calls generalizing scan rest rows with
  | zero => exact Prog.Returns.pure ⟨rfl, rfl⟩
  | succ calls inductionHypothesis =>
      have each : ∀ entry ∈ rest, ∃ row, HeapFile.Scanner.rowAt fid cols entry = .ok row :=
        fun entry mem => mapM_eq_ok_mem decoded mem
      unfold nexts
      apply Prog.Returns.bind
      apply (next_spec file position logged room each).mono
      rintro ⟨row?, scan'⟩ s' gives
      cases rest with
      | nil =>
          obtain rfl : rows = [] := (Except.ok.inj decoded).symm
          obtain ⟨rfl, position', free, rfl⟩ := gives
          have unpinned : scan'.pins = [] := by rw [pins, free]; rfl
          have again := inductionHypothesis position' rfl
          rw [unpinned, List.nil_append] at again
          apply Prog.Returns.bind
          apply again.mono
          rintro ⟨outs, scan''⟩ _ ⟨rfl, rfl⟩
          refine Prog.Returns.pure ⟨?_, rfl⟩
          simp [List.range_succ_eq_map, Function.comp_def]
      | cons entry rest =>
          obtain ⟨row, row_eq, rfl, position', rfl⟩ := gives
          rw [List.mapM_cons] at decoded
          obtain ⟨first, first_eq, decoded⟩ := Res.bind_eq_ok.mp decoded
          obtain ⟨others, others_eq, decoded⟩ := Res.bind_eq_ok.mp decoded
          cases decoded
          obtain rfl := Except.ok.inj (first_eq.symm.trans row_eq)
          apply Prog.Returns.bind
          apply (inductionHypothesis position' others_eq).mono
          rintro ⟨outs, scan''⟩ _ ⟨rfl, rfl⟩
          refine Prog.Returns.pure ⟨?_, rfl⟩
          simp [List.range_succ_eq_map]

/-- A scan gives the rows of the file in the order of the chain. -/
theorem scan_spec (file : RowFile s fid h) (logged : s.unlogged = [])
    (room : s.pins.length < frames) {calls : Nat} {rows : List Row}
    (decoded : h.live.mapM (HeapFile.Scanner.rowAt fid cols) = .ok rows) :
    Prog.Returns (PoolView.strict frames own) (scan fid cols calls) s fun outs s' =>
      outs = ((List.range calls).map fun i => rows[i]?) ∧ s' = s := by
  unfold scan
  apply Prog.Returns.bind
  apply (create_spec file logged room cols).mono
  rintro scan' _ ⟨position, unpinned, rfl⟩
  have nexts : Prog.Returns (PoolView.strict frames own) (nexts calls scan') _ _ :=
    nexts_spec file position logged room decoded
  rw [unpinned, List.nil_append] at nexts
  apply Prog.Returns.bind
  apply nexts.mono
  rintro ⟨outs, last⟩ _ ⟨rfl, rfl⟩
  apply Prog.Returns.bind
  apply (close_spec logged).mono
  rintro - _ rfl
  exact Prog.Returns.pure ⟨rfl, rfl⟩

end RowScanner

end MySimpleDb.Storage
