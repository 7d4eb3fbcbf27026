import MySimpleDb.Lib.Pull
import MySimpleDb.Storage.Codec
import MySimpleDb.Storage.Page

/-!
# Heap files slot by slot

A heap file is a chain of pages of slots; a slot holds a record or is a
tombstone.  What the bytes of a page say beyond that is left to the pages
themselves: here a page keeps its number, the begin of its free space and its
slots.
-/

namespace MySimpleDb.Storage

open MySimpleDb.Lib

/-- `MAX_RECORD_LEN`. -/
def maxRecordLen : Nat := pageSize - pageHeaderSize - slotSize

/-- A data page; `none` is a tombstone. -/
structure HeapPage where
  no : Nat
  freeBegin : Nat := pageHeaderSize
  slots : List (Option Bytes) := []
deriving DecidableEq, Repr

namespace HeapPage

def freeEnd (p : HeapPage) : Nat :=
  pageSize - slotSize * p.slots.length

/-- `heap_append`: the page and the slot, if the record fits. -/
def append (p : HeapPage) (rec : Bytes) : Option (HeapPage × Nat) :=
  if p.freeEnd - p.freeBegin < rec.length + slotSize then none
  else some ({ p with freeBegin := p.freeBegin + rec.length, slots := p.slots ++ [some rec] },
    p.slots.length)

/-- `heap_delete`. -/
def delete (p : HeapPage) (slot : Nat) : HeapPage :=
  { p with slots := p.slots.set slot none }

/-- The record of a slot that is neither dead nor beyond the count. -/
def record? (p : HeapPage) (slot : Nat) : Option Bytes :=
  p.slots.getD slot none

/-- The live ones among slots numbered from `i` on. -/
def liveAt : Nat → List (Option Bytes) → List (Nat × Bytes)
  | _, [] => []
  | i, none :: slots => liveAt (i + 1) slots
  | i, some rec :: slots => (i, rec) :: liveAt (i + 1) slots

/-- The live slots from `slot` on, with the number of the page. -/
def liveFrom (p : HeapPage) (slot : Nat) : List ((Nat × Nat) × Bytes) :=
  (liveAt slot (p.slots.drop slot)).map fun (i, rec) => ((p.no, i), rec)

end HeapPage

/-- The pages of a table file in the order of the chain, and the last row id
handed out. -/
structure HeapFile where
  nextRowid : Nat := 0
  pages : List HeapPage := []
deriving DecidableEq, Repr

/-- The first page cannot be full for a record of legal size. -/
def heapStuck : Err := .crash "heap append does not end"

namespace HeapFile

def page? (h : HeapFile) (no : Nat) : Option HeapPage :=
  h.pages.find? fun p => p.no = no

/-- The number of the first data page, 0 without one. -/
def firstPage (h : HeapFile) : Nat :=
  (h.pages.head?.map HeapPage.no).getD 0

/-- `next_page` of a page: the number of its successor, 0 at the end. -/
def nextPage (h : HeapFile) (no : Nat) : Nat :=
  match h.pages.dropWhile fun p => p.no ≠ no with
  | _ :: p :: _ => p.no
  | _ => 0

/-- The number of the last page, 0 without one. -/
def tail (h : HeapFile) : Nat :=
  (h.pages.getLast?.map HeapPage.no).getD 0

def setPage (h : HeapFile) (p : HeapPage) : HeapFile :=
  { h with pages := h.pages.map fun q => if q.no = p.no then p else q }

/-! ## Insertion -/

/-- A fresh page at the end of the chain: page 1, or a number above the tail and
the `pageCount` pages on disk. -/
def extend (pageCount : Nat) (h : HeapFile) : HeapFile :=
  { h with pages := h.pages ++
      [{ no := if h.pages = [] then 1 else max pageCount (h.tail + 1) }] }

/-- The loop of `insert_row` over full tails. -/
def insertLoop (pageCount : Nat) (rec : Bytes) : Nat → HeapFile → Res (HeapFile × Nat × Nat)
  | 0, _ => .error heapStuck
  | fuel + 1, h =>
      match (h.page? h.tail).bind fun p => p.append rec with
      | some (p, slot) => .ok (h.setPage p, p.no, slot)
      | none => insertLoop pageCount rec fuel (h.extend pageCount)

/-- `Engine::insert_row`: the row id and the location of the new row. -/
def insertRow (fid pageCount : Nat) (h : HeapFile) (cols : List ColumnSpec) (values : List Value) :
    Res (HeapFile × Nat × RowRef) := do
  match ← encodeRow cols values with
  | none => dbRaise .valueMismatch "值与列类型不匹配"
  | some rec =>
      if maxRecordLen < rec.length then dbRaise .recordTooLong "记录超长"
      else
        let rid := (h.nextRowid + 1) % 2 ^ 64
        let h := { h with nextRowid := rid }
        let h := if h.tail = 0 then h.extend pageCount else h
        let (h, no, slot) ← insertLoop pageCount rec 2 h
        return (h, rid, ⟨⟨fid, no⟩, slot⟩)

/-! ## Access by location -/

/-- `check_row_ref` with `pageCount` pages on disk. -/
def checkRowRef (pageCount : Nat) (h : HeapFile) (ref : RowRef) : Res Unit :=
  if ref.page = invalidPage then dbRaise .internal "行引用缺少页位置"
  else if ref.page.pageNo = 0 then dbRaise .internal "行引用指向文件头页"
  else if max (pageCount - 1) h.tail < ref.page.pageNo then
    dbRaise .internal s!"行引用页号越界: fid={ref.page.fileId} page_no={ref.page.pageNo}"
  else .ok ()

/-- A data page read through the pool; a page off the chain is not valid. -/
def readPage (h : HeapFile) (pid : PageId) : Res HeapPage :=
  match h.page? pid.pageNo with
  | none => dbCritical s!"数据页损坏: fid={pid.fileId} page_no={pid.pageNo}"
  | some p => .ok p

def damaged : Err := .critical "数据页记录损坏"

/-- The values of a record; `decode_row` must accept it. -/
def decodeRecord (cols : List ColumnSpec) (rec : Bytes) : Res (List Value) := do
  match ← decodeRow cols rec with
  | none => .error damaged
  | some values => .ok values

/-- `Engine::read_row`; `none` for a dead slot or one beyond the count. -/
def readRow (pageCount : Nat) (h : HeapFile) (ref : RowRef) (cols : List ColumnSpec) :
    Res (Option Row) := do
  checkRowRef pageCount h ref
  let p ← readPage h ref.page
  match p.record? ref.slot with
  | none => .ok none
  | some rec =>
      let values ← decodeRecord cols rec
      return some { ref := ref, values := values }

/-- `Engine::delete_row`: the number of rows deleted. -/
def deleteRow (pageCount : Nat) (h : HeapFile) (ref : RowRef) : Res (HeapFile × Nat) := do
  checkRowRef pageCount h ref
  let p ← readPage h ref.page
  match p.record? ref.slot with
  | none => .ok (h, 0)
  | some _ => .ok (h.setPage (p.delete ref.slot), 1)

/-! ## Scans -/

/-- State of a scan: the page it will load next, the page it holds and the slot
it looks at. -/
structure Scanner where
  nextPageNo : Nat
  cur : Option Nat := none
  slot : Nat := 0
  isDone : Bool := false
deriving DecidableEq, Repr

namespace Scanner

def create (h : HeapFile) : Scanner where
  nextPageNo := h.firstPage

def advancePage (fid : Nat) (h : HeapFile) (s : Scanner) : Res Scanner :=
  if s.nextPageNo = 0 then .ok { s with cur := none, isDone := true }
  else do
    let p ← readPage h ⟨fid, s.nextPageNo⟩
    return { s with cur := some p.no, slot := 0, nextPageNo := h.nextPage p.no }

/-- The first live slot of the page held; a page that was undone has none. -/
def found (h : HeapFile) (s : Scanner) : Option ((Nat × Nat) × Bytes) := do
  let p ← h.page? (← s.cur)
  (p.liveFrom s.slot).head?

/-- The loop of `next` over pages. -/
def nextLoop (fid : Nat) (h : HeapFile) (cols : List ColumnSpec) :
    Nat → Scanner → Res (Option Row × Scanner)
  | 0, _ => .error (.crash "scan does not end")
  | fuel + 1, s => do
      let s ← if s.cur = none then advancePage fid h s else .ok s
      if s.isDone then .ok (none, s)
      else
        match s.found h with
        | some ((no, slot), rec) => do
            let values ← decodeRecord cols rec
            return (some { ref := ⟨⟨fid, no⟩, slot⟩, values := values },
              { s with slot := slot + 1 })
        | none => do
            let s ← advancePage fid h s
            nextLoop fid h cols fuel s

def next (fid : Nat) (h : HeapFile) (cols : List ColumnSpec) (s : Scanner) :
    Res (Option Row × Scanner) :=
  if s.isDone then .ok (none, s) else nextLoop fid h cols (h.pages.length + 2) s

end Scanner

/-! ## Whole files -/

/-- The live slots of the file with their records, in the order of the chain. -/
def live (h : HeapFile) : List ((Nat × Nat) × Bytes) :=
  h.pages.flatMap fun p => p.liveFrom 0

/-- `Engine::read_rows`. -/
def readRows (h : HeapFile) (cols : List ColumnSpec) : Res (List (List Value)) :=
  h.live.mapM fun (_, rec) => decodeRecord cols rec

/-- `Engine::row_count`. -/
def rowCount (h : HeapFile) : Nat :=
  h.live.length

/-- `Engine::delete_all_rows`: the number of rows that were live. -/
def deleteAllRows (fid pageCount : Nat) (h : HeapFile) : Res (HeapFile × Nat) := do
  let refs := h.live.map fun ((no, slot), _) => (⟨⟨fid, no⟩, slot⟩ : RowRef)
  let h ← refs.foldlM (fun h ref => do return (← deleteRow pageCount h ref).1) h
  return (h, refs.length)

/-! ## The chain -/

/-- Page numbers rise along the chain and are not 0. -/
structure WellFormed (h : HeapFile) : Prop where
  rising : (h.pages.map HeapPage.no).Pairwise (· < ·)
  positive : ∀ p ∈ h.pages, 0 < p.no

section Chain

variable {h : HeapFile} {before after : List HeapPage} {p : HeapPage}

theorem WellFormed.before_ne (wellFormed : h.WellFormed) (split : h.pages = before ++ p :: after)
    {q : HeapPage} (mem : q ∈ before) : q.no ≠ p.no := by
  have rising := wellFormed.rising
  rw [split, List.map_append, List.pairwise_append] at rising
  have lt := rising.2.2 q.no (List.mem_map_of_mem mem) p.no (by simp)
  omega

theorem WellFormed.page?_eq (wellFormed : h.WellFormed) (split : h.pages = before ++ p :: after) :
    h.page? p.no = some p := by
  rw [page?, split, List.find?_append, List.find?_eq_none.mpr]
  · simp
  · intro q mem
    simpa using wellFormed.before_ne split mem

theorem WellFormed.nextPage_eq (wellFormed : h.WellFormed)
    (split : h.pages = before ++ p :: after) :
    h.nextPage p.no = (after.head?.map HeapPage.no).getD 0 := by
  have skipped : h.pages.dropWhile (fun q => decide (q.no ≠ p.no)) = p :: after := by
    rw [split, List.dropWhile_append_of_pos]
    · simp
    · intro q mem
      simpa using wellFormed.before_ne split mem
  rw [nextPage, skipped]
  cases after <;> rfl

theorem WellFormed.page?_iff (wellFormed : h.WellFormed) {no : Nat} :
    h.page? no = some p ↔ p ∈ h.pages ∧ p.no = no := by
  constructor
  · intro found
    exact ⟨List.mem_of_find?_eq_some found, by simpa using List.find?_some found⟩
  · rintro ⟨mem, rfl⟩
    obtain ⟨before, after, split⟩ := List.append_of_mem mem
    exact wellFormed.page?_eq split

end Chain

/-! ## What a scan gives -/

/-- The number of the first page of the rest of a chain, 0 at its end. -/
def headNo (pages : List HeapPage) : Nat :=
  (pages.head?.map HeapPage.no).getD 0

/-- The live slots of the rest of a chain. -/
def liveOf (pages : List HeapPage) : List ((Nat × Nat) × Bytes) :=
  pages.flatMap fun p => p.liveFrom 0

theorem liveFrom_cons {p : HeapPage} {slot no i : Nat} {rec : Bytes}
    {rest : List ((Nat × Nat) × Bytes)} (live : p.liveFrom slot = ((no, i), rec) :: rest) :
    no = p.no ∧ rest = p.liveFrom (i + 1) := by
  suffices loop : ∀ (slots : List (Option Bytes)) (k : Nat) (tail : List (Nat × Bytes)),
      HeapPage.liveAt k slots = (i, rec) :: tail →
        k ≤ i ∧ tail = HeapPage.liveAt (i + 1) (slots.drop (i + 1 - k)) by
    unfold HeapPage.liveFrom at live
    obtain ⟨⟨i', rec'⟩, tail, found, entry, tail_eq⟩ := List.map_eq_cons_iff.mp live
    simp only [Prod.mk.injEq] at entry
    obtain ⟨⟨rfl, rfl⟩, rfl⟩ := entry
    obtain ⟨le, rfl⟩ := loop _ _ _ found
    rw [List.drop_drop, show slot + (i' + 1 - slot) = i' + 1 by omega] at tail_eq
    exact ⟨rfl, tail_eq.symm⟩
  intro slots
  induction slots with
  | nil => intro k tail found; cases found
  | cons slot slots inductionHypothesis =>
      intro k tail found
      cases slot with
      | none =>
          obtain ⟨le, tail_eq⟩ := inductionHypothesis (k + 1) tail found
          refine ⟨by omega, ?_⟩
          rw [tail_eq, show i + 1 - k = i + 1 - (k + 1) + 1 by omega, List.drop_succ_cons]
      | some first =>
          simp only [HeapPage.liveAt, List.cons.injEq, Prod.mk.injEq] at found
          obtain ⟨⟨rfl, -⟩, rfl⟩ := found
          exact ⟨le_rfl, by simp⟩

namespace Scanner

/-- The scan has the slots in `rest` still before it. -/
inductive At (h : HeapFile) : Scanner → List ((Nat × Nat) × Bytes) → Prop
  | between {before after : List HeapPage} {slot : Nat} (split : h.pages = before ++ after) :
      At h ⟨headNo after, none, slot, false⟩ (liveOf after)
  | within {before after : List HeapPage} {p : HeapPage} {slot : Nat}
      (split : h.pages = before ++ p :: after) :
      At h ⟨headNo after, some p.no, slot, false⟩ (p.liveFrom slot ++ liveOf after)

theorem create_at (h : HeapFile) : At h (create h) h.live :=
  @At.between h [] h.pages 0 rfl

variable {fid : Nat} {h : HeapFile} {cols : List ColumnSpec} {before after : List HeapPage}

theorem advancePage_end {s : Scanner} (atEnd : s.nextPageNo = 0) :
    advancePage fid h s = .ok { s with cur := none, isDone := true } :=
  if_pos atEnd

theorem advancePage_page (wellFormed : h.WellFormed) {p : HeapPage} {s : Scanner}
    (split : h.pages = before ++ p :: after) (next : s.nextPageNo = p.no) :
    advancePage fid h s =
      .ok { s with cur := some p.no, slot := 0, nextPageNo := headNo after } := by
  have positive : p.no ≠ 0 := (wellFormed.positive p (by simp [split])).ne'
  rw [advancePage, next, if_neg positive, readPage, wellFormed.page?_eq split, Res.bind_ok,
    wellFormed.nextPage_eq split]
  rfl

/-- What a call that has the slots in `rest` before it returns. -/
def Returns (fid : Nat) (h : HeapFile) (cols : List ColumnSpec)
    (result : Res (Option Row × Scanner)) : List ((Nat × Nat) × Bytes) → Prop
  | [] => ∃ s', result = .ok (none, s')
  | ((no, slot), rec) :: rest => ∃ s', At h s' rest ∧ result = do
      let values ← decodeRecord cols rec
      return (some { ref := ⟨⟨fid, no⟩, slot⟩, values := values }, s')

theorem found_within (wellFormed : h.WellFormed) {p : HeapPage} {slot : Nat} {next : Nat}
    (split : h.pages = before ++ p :: after) :
    found h ⟨next, some p.no, slot, false⟩ = (p.liveFrom slot).head? := by
  simp [found, wellFormed.page?_eq split]

/-- A slot that is found is given, and the scan stands behind it. -/
theorem returns_found (wellFormed : h.WellFormed) {p : HeapPage} {slot fuel : Nat}
    (split : h.pages = before ++ p :: after) {entry : (Nat × Nat) × Bytes}
    {live : List ((Nat × Nat) × Bytes)} (found_eq : p.liveFrom slot = entry :: live) :
    Returns fid h cols (nextLoop fid h cols (fuel + 1) ⟨headNo after, some p.no, slot, false⟩)
      (p.liveFrom slot ++ liveOf after) := by
  obtain ⟨⟨no, i⟩, rec⟩ := entry
  obtain ⟨rfl, rest⟩ := liveFrom_cons found_eq
  rw [found_eq, List.cons_append, rest]
  refine ⟨_, At.within split, ?_⟩
  simp [nextLoop, found_within wellFormed split, found_eq]

/-- Without a live slot left on the page the loop goes on to the next one. -/
theorem nextLoop_advance (wellFormed : h.WellFormed) {p : HeapPage} {slot fuel : Nat}
    (split : h.pages = before ++ p :: after) (none_left : p.liveFrom slot = []) :
    nextLoop fid h cols (fuel + 1) ⟨headNo after, some p.no, slot, false⟩ =
      (advancePage fid h ⟨headNo after, some p.no, slot, false⟩ >>= nextLoop fid h cols fuel) := by
  simp [nextLoop, found_within wellFormed split, none_left]

/-- The loop from a page that is held to the first live slot from there on. -/
theorem nextLoop_within (wellFormed : h.WellFormed) {p : HeapPage} {slot fuel : Nat}
    (split : h.pages = before ++ p :: after) (enough : after.length + 2 ≤ fuel) :
    Returns fid h cols (nextLoop fid h cols fuel ⟨headNo after, some p.no, slot, false⟩)
      (p.liveFrom slot ++ liveOf after) := by
  induction after generalizing before p slot fuel with
  | nil =>
      obtain ⟨fuel, rfl⟩ : ∃ n, fuel = n + 2 := ⟨fuel - 2, by simp at enough; omega⟩
      cases live : p.liveFrom slot with
      | cons entry rest =>
          rw [← live]
          exact returns_found wellFormed split live
      | nil =>
          rw [nextLoop_advance wellFormed split live, advancePage_end rfl, Res.bind_ok]
          simp [nextLoop, advancePage_end, headNo, liveOf, Returns]
  | cons q after inductionHypothesis =>
      obtain ⟨fuel, rfl⟩ : ∃ n, fuel = n + 1 := ⟨fuel - 1, by omega⟩
      cases live : p.liveFrom slot with
      | cons entry rest =>
          rw [← live]
          exact returns_found wellFormed split live
      | nil =>
          have split' : h.pages = (before ++ [p]) ++ q :: after := by simp [split]
          rw [nextLoop_advance wellFormed split live, advancePage_page wellFormed split' rfl,
            Res.bind_ok, List.nil_append]
          apply inductionHypothesis split'
          simp only [List.length_cons] at enough
          omega

/-- A call of `next` gives the first of the slots before it. -/
theorem next_returns (fid : Nat) (cols : List ColumnSpec) (wellFormed : h.WellFormed)
    {s : Scanner} {rest : List ((Nat × Nat) × Bytes)} (position : At h s rest) : Returns fid h cols (next fid h cols s) rest := by
  cases position with
  | within split =>
      rename_i before after p slot
      apply nextLoop_within wellFormed split
      rw [split]
      simp only [List.length_append, List.length_cons]
      omega
  | between split =>
      rename_i before after slot
      cases after with
      | nil =>
          exact ⟨{ nextPageNo := 0, slot := slot, isDone := true },
            by simp [next, nextLoop, advancePage_end, headNo]⟩
      | cons p after =>
          have advanced : advancePage fid h ⟨headNo (p :: after), none, slot, false⟩ =
              .ok ⟨headNo after, some p.no, 0, false⟩ :=
            advancePage_page wellFormed split rfl
          have unfolded : next fid h cols ⟨headNo (p :: after), none, slot, false⟩ =
              nextLoop fid h cols (h.pages.length + 2) ⟨headNo after, some p.no, 0, false⟩ := by
            simp [next, nextLoop, advanced]
          rw [unfolded]
          apply nextLoop_within wellFormed split
          rw [split]
          simp only [List.length_append, List.length_cons]
          omega

/-- The row of a live slot. -/
def rowAt (fid : Nat) (cols : List ColumnSpec) (entry : (Nat × Nat) × Bytes) : Res Row := do
  let values ← decodeRecord cols entry.2
  return { ref := ⟨⟨fid, entry.1.1⟩, entry.1.2⟩, values := values }

/-- A scan of a file that stays as it is gives the rows of the live slots. -/
theorem At.yields_iff (wellFormed : h.WellFormed) {s : Scanner}
    {rest : List ((Nat × Nat) × Bytes)} (position : At h s rest) {rows : List Row} :
    Pull.Yields (next fid h cols) s rows ↔ rest.mapM (rowAt fid cols) = .ok rows := by
  induction rest generalizing s rows with
  | nil =>
      obtain ⟨s', last⟩ := next_returns fid cols wellFormed position
      constructor
      · intro yields
        cases yields.unique (.done last)
        rfl
      · intro none_left
        cases none_left
        exact .done last
  | cons entry rest inductionHypothesis =>
      obtain ⟨⟨no, slot⟩, rec⟩ := entry
      obtain ⟨s', position', step⟩ := next_returns fid cols wellFormed position
      rw [List.mapM_cons]
      cases decoded : decodeRecord cols rec with
      | error e =>
          have raised : next fid h cols s = .error e := by rw [step, decoded]; rfl
          constructor
          · intro yields
            cases yields with
            | done last => simp [raised] at last
            | row first => simp [raised] at first
          · intro mapped
            simp [rowAt, decoded, bind, Except.bind] at mapped
      | ok values =>
          have given : next fid h cols s =
              .ok (some { ref := ⟨⟨fid, no⟩, slot⟩, values := values }, s') := by
            rw [step, decoded]
            rfl
          have entry : rowAt fid cols ((no, slot), rec) =
              .ok { ref := ⟨⟨fid, no⟩, slot⟩, values := values } := by
            rw [rowAt, decoded]
            rfl
          rw [entry, Res.bind_ok]
          constructor
          · intro yields
            cases yields with
            | done last => simp [given] at last
            | row first yields' =>
                rw [given] at first
                simp only [Except.ok.injEq, Prod.mk.injEq, Option.some.injEq] at first
                obtain ⟨rfl, rfl⟩ := first
                rw [(inductionHypothesis position').mp yields', Res.bind_ok]
                rfl
          · intro mapped
            obtain ⟨rows', mapped', rows_eq⟩ := Res.bind_eq_ok.mp mapped
            cases rows_eq
            exact .row given ((inductionHypothesis position').mpr mapped')

end Scanner

end HeapFile

end MySimpleDb.Storage
