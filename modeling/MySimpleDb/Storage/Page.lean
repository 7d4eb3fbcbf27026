import MySimpleDb.Lib.Bytes

/-!
# Pages

The 24-byte page header, the checksum of a page, and the slots and records of
heap pages.
-/

namespace MySimpleDb.Storage

open MySimpleDb.Lib

abbrev pageSize : Nat := 4096
abbrev pageHeaderSize : Nat := 24
abbrev slotSize : Nat := 4

/-- The `pageSize` bytes of one page. -/
abbrev Page : Type := Block 4096

inductive PageType
  | fileHeader | heap | btreeLeaf | btreeInternal
deriving DecidableEq, Repr

def PageType.code : PageType → Nat
  | .fileHeader => 1
  | .heap => 2
  | .btreeLeaf => 3
  | .btreeInternal => 4

def magicFileHeader : Nat := 0x54444146
def magicHeap : Nat := 0x50414548
def magicBTreeLeaf : Nat := 0x464C5442

/-- Conversion to a 16-bit unsigned number. -/
def toU16 (v : Int) : Nat := (v % 65536).toNat

namespace Page

/-! ## Header fields -/

def magic (p : Page) : Nat := p.num 0 4
def pageType (p : Page) : Nat := p.num 4 1
def slotCount (p : Page) : Nat := p.num 8 2
def freeBegin (p : Page) : Nat := p.num 10 2
def freeEnd (p : Page) : Nat := p.num 12 2
def nextPage (p : Page) : Nat := p.num 16 4
def checksum (p : Page) : Nat := p.num 20 4

def setSlotCount (p : Page) (v : Nat) : Page := p.setNum 8 2 v
def setFreeBegin (p : Page) (v : Nat) : Page := p.setNum 10 2 v
def setFreeEnd (p : Page) (v : Nat) : Page := p.setNum 12 2 v
def setNextPage (p : Page) (v : Nat) : Page := p.setNum 16 4 v

end Page

/-! ## Checksums -/

/-- One bit of the reflected polynomial division. -/
def crcShift (c : UInt32) : UInt32 :=
  if c &&& 1 ≠ 0 then (0xedb88320 : UInt32) ^^^ (c >>> 1) else c >>> 1

/-- Entry `i` of the table. -/
def crcTable (i : UInt32) : UInt32 :=
  crcShift (crcShift (crcShift (crcShift (crcShift (crcShift (crcShift (crcShift i)))))))

def crcStep (crc : UInt32) (b : UInt8) : UInt32 :=
  crcTable ((crc ^^^ b.toUInt32) &&& 0xff) ^^^ (crc >>> 8)

def crc32 (data : List UInt8) : UInt32 :=
  ~~~ data.foldl crcStep 0xffffffff

/-- The bytes of a page, those of the checksum field as zero. -/
def checksummedBytes (p : Page) : List UInt8 :=
  (List.range pageSize).map fun i => if 20 ≤ i ∧ i < 24 then 0 else p.get i

def pageChecksum (p : Page) : Nat :=
  (crc32 (checksummedBytes p)).toNat

/-- `header(page)->checksum = page_checksum(page)`. -/
def Page.seal (p : Page) : Page := p.setNum 20 4 (pageChecksum p)

def pageValid (p : Page) (magic : Nat) : Bool :=
  p.magic = magic && p.checksum = pageChecksum p

def pageAllZero (p : Page) : Bool := p = Block.zero

/-- An empty page of a kind. -/
def initPage (magic : Nat) (type : PageType) : Page :=
  let p : Page := (Block.zero.setNum 0 4 magic).setNum 4 1 type.code
  ((p.setFreeBegin pageHeaderSize).setFreeEnd pageSize).seal

/-- Free bytes between the two frontiers. -/
def freeSpace (p : Page) : Nat := toU16 (p.freeEnd - p.freeBegin)

/-! ## Sealed pages -/

theorem pageChecksum_lt (p : Page) : pageChecksum p < 256 ^ 4 :=
  UInt32.toNat_lt _

/-- The checksum does not depend on its own field. -/
theorem pageChecksum_setNum (p : Page) (v : Nat) :
    pageChecksum (p.setNum 20 4 v) = pageChecksum p := by
  have same : checksummedBytes (p.setNum 20 4 v) = checksummedBytes p := by
    unfold checksummedBytes
    refine List.map_congr_left fun i _ => ?_
    by_cases field : 20 ≤ i ∧ i < 24
    · rw [if_pos field, if_pos field]
    · rw [if_neg field, if_neg field]
      apply Block.get_write_of_outside
      rw [length_toBytes]
      omega
  rw [pageChecksum, pageChecksum, same]

@[simp]
theorem Page.checksum_seal (p : Page) : p.seal.checksum = pageChecksum p.seal := by
  rw [Page.seal, pageChecksum_setNum]
  exact Block.num_setNum_same p (by decide) (pageChecksum_lt p)

/-- Sealing touches no other field. -/
theorem Page.num_seal (p : Page) {off width : Nat} (apart : off + width ≤ 20 ∨ 24 ≤ off) :
    p.seal.num off width = p.num off width :=
  Block.num_setNum_of_apart p apart

theorem pageValid_seal {p : Page} {magic : Nat} (same : p.magic = magic) :
    pageValid p.seal magic = true := by
  have kept : p.seal.magic = magic := by
    rw [← same]
    exact Page.num_seal p (by omega)
  simp [pageValid, kept]

/-! ## Empty pages -/

section InitPage

variable (magic : Nat) (type : PageType)

theorem initPage_magic (small : magic < 2 ^ 32) : (initPage magic type).magic = magic := by
  simp (disch := omega) only [initPage, Page.magic, Page.num_seal, Page.setFreeBegin,
    Page.setFreeEnd, Block.num_setNum_of_apart, Block.num_setNum_same]

theorem pageValid_initPage (small : magic < 2 ^ 32) :
    pageValid (initPage magic type) magic = true := by
  have same := initPage_magic magic type small
  unfold initPage at same ⊢
  apply pageValid_seal
  exact (Page.num_seal _ (Or.inl (by decide))).symm.trans same

@[simp]
theorem initPage_pageType : (initPage magic type).pageType = type.code := by
  have code_lt : type.code < 256 ^ 1 := by cases type <;> decide
  simp (disch := omega) only [initPage, Page.pageType, Page.num_seal, Page.setFreeBegin,
    Page.setFreeEnd, Block.num_setNum_of_apart, Block.num_setNum_same]

@[simp]
theorem initPage_slotCount : (initPage magic type).slotCount = 0 := by
  simp (disch := omega) only [initPage, Page.slotCount, Page.num_seal, Page.setFreeBegin,
    Page.setFreeEnd, Block.num_setNum_of_apart, Block.num_zero]

@[simp]
theorem initPage_freeBegin : (initPage magic type).freeBegin = 24 := by
  simp (disch := omega) only [initPage, Page.freeBegin, Page.num_seal, Page.setFreeBegin,
    Page.setFreeEnd, pageHeaderSize, Block.num_setNum_of_apart, Block.num_setNum_same]

@[simp]
theorem initPage_freeEnd : (initPage magic type).freeEnd = 4096 := by
  simp (disch := omega) only [initPage, Page.freeEnd, Page.num_seal, Page.setFreeBegin,
    Page.setFreeEnd, pageSize, Block.num_setNum_same]

@[simp]
theorem initPage_nextPage : (initPage magic type).nextPage = 0 := by
  simp (disch := omega) only [initPage, Page.nextPage, Page.num_seal, Page.setFreeBegin,
    Page.setFreeEnd, Block.num_setNum_of_apart, Block.num_zero]

end InitPage

@[simp]
theorem toU16_of_lt {v : Nat} (small : v < 65536) : toU16 v = v := by
  unfold toU16
  omega

end MySimpleDb.Storage
