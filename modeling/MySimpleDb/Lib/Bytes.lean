import Mathlib.Data.List.Basic
import Mathlib.Data.Fintype.Basic
import Mathlib.Data.List.Range
import Mathlib.Tactic.Ring

/-!
# Blocks of bytes

A block holds a fixed number of bytes and is read and written in runs.
Unsigned numbers are stored in it little end first.
-/

namespace MySimpleDb.Lib

/-! ## Little-endian numbers -/

/-- The number that `bytes` holds, least significant byte first. -/
def ofBytes : List UInt8 → Nat
  | [] => 0
  | b :: rest => b.toNat + 256 * ofBytes rest

/-- The `width` low bytes of `v`, least significant byte first. -/
def toBytes : Nat → Nat → List UInt8
  | 0, _ => []
  | width + 1, v => UInt8.ofNat v :: toBytes width (v / 256)

@[simp]
theorem length_toBytes (width v : Nat) : (toBytes width v).length = width := by
  induction width generalizing v with
  | zero => rfl
  | succ width ih => simp [toBytes, ih]

theorem ofBytes_toBytes (width v : Nat) :
    ofBytes (toBytes width v) = v % 256 ^ width := by
  induction width generalizing v with
  | zero => simp [toBytes, ofBytes, Nat.mod_one]
  | succ width ih =>
      have split : v % 256 ^ (width + 1) = v % 256 + 256 * (v / 256 % 256 ^ width) := by
        rw [pow_succ', Nat.mod_mul]
      simp [toBytes, ofBytes, ih, split]

theorem ofBytes_toBytes_of_lt {width v : Nat} (fits : v < 256 ^ width) :
    ofBytes (toBytes width v) = v := by
  rw [ofBytes_toBytes, Nat.mod_eq_of_lt fits]

theorem ofBytes_lt (bytes : List UInt8) : ofBytes bytes < 256 ^ bytes.length := by
  induction bytes with
  | nil => simp [ofBytes]
  | cons b rest ih =>
      have small : b.toNat < 256 := b.toNat_lt
      simp only [ofBytes, List.length_cons, pow_succ']
      omega

theorem toBytes_ofBytes (bytes : List UInt8) : toBytes bytes.length (ofBytes bytes) = bytes := by
  induction bytes with
  | nil => rfl
  | cons b rest inductionHypothesis =>
      have low : UInt8.ofNat (b.toNat + 256 * ofBytes rest) = b := by
        apply UInt8.toNat_inj.mp
        rw [UInt8.toNat_ofNat']
        have := b.toNat_lt
        omega
      have high : (b.toNat + 256 * ofBytes rest) / 256 = ofBytes rest := by
        have := b.toNat_lt
        omega
      rw [List.length_cons, ofBytes, toBytes, low, high, inductionHypothesis]

theorem ofBytes_append (a b : List UInt8) :
    ofBytes (a ++ b) = ofBytes a + 256 ^ a.length * ofBytes b := by
  induction a with
  | nil => simp [ofBytes]
  | cons x a inductionHypothesis =>
      rw [List.cons_append, ofBytes, inductionHypothesis, ofBytes, List.length_cons, pow_succ']
      ring

/-! ## Big-endian numbers -/

/-- The number that `bytes` holds, most significant byte first. -/
def bigNat (bytes : List UInt8) : Nat :=
  ofBytes bytes.reverse

theorem bigNat_cons (b : UInt8) (rest : List UInt8) :
    bigNat (b :: rest) = bigNat rest + 256 ^ rest.length * b.toNat := by
  have single : ofBytes [b] = b.toNat := by simp [ofBytes]
  rw [bigNat, List.reverse_cons, ofBytes_append, List.length_reverse, single, bigNat]

theorem bigNat_lt (bytes : List UInt8) : bigNat bytes < 256 ^ bytes.length := by
  have below := ofBytes_lt bytes.reverse
  rwa [List.length_reverse] at below

theorem bigNat_complement (bytes : List UInt8) :
    bigNat (bytes.map (~~~ ·)) + bigNat bytes + 1 = 256 ^ bytes.length := by
  induction bytes with
  | nil => rfl
  | cons b rest inductionHypothesis =>
      have flipped : (~~~b).toNat + b.toNat = 255 := by
        have := b.toNat_lt
        simp only [UInt8.toNat_not, UInt8.size]
        omega
      rw [List.map_cons, bigNat_cons, bigNat_cons, List.length_map, List.length_cons, pow_succ]
      calc bigNat (rest.map (~~~ ·)) + 256 ^ rest.length * (~~~b).toNat +
            (bigNat rest + 256 ^ rest.length * b.toNat) + 1
          = bigNat (rest.map (~~~ ·)) + bigNat rest + 1 +
            256 ^ rest.length * ((~~~b).toNat + b.toNat) := by ring
        _ = 256 ^ rest.length * 256 := by rw [inductionHypothesis, flipped]; ring

/-! ## Slices -/

/-- The middle of three parts, found by its place. -/
theorem slice_middle {a b : List UInt8} (c : List UInt8) {off len : Nat} (a_length : a.length = off)
    (b_length : b.length = len) : ((a ++ (b ++ c)).drop off).take len = b := by
  subst a_length b_length
  simp

/-- A run taken in two parts. -/
theorem slice_add (bytes : List UInt8) (off m n : Nat) :
    (bytes.drop off).take (m + n) = (bytes.drop off).take m ++ (bytes.drop (off + m)).take n := by
  rw [List.take_add, List.drop_drop]

theorem drop_eq_slice_append (bytes : List UInt8) (off n : Nat) :
    bytes.drop off = (bytes.drop off).take n ++ bytes.drop (off + n) := by
  rw [← List.drop_drop, List.take_append_drop]

/-! ## Blocks -/

/-- `n` bytes. -/
def Block (n : Nat) : Type := Fin n → UInt8

namespace Block

variable {n : Nat}

instance : DecidableEq (Block n) :=
  inferInstanceAs (DecidableEq (Fin n → UInt8))

/-- All bytes zero. -/
def zero : Block n := fun _ => 0

/-- Byte `i`; zero beyond the end. -/
def get (b : Block n) (i : Nat) : UInt8 :=
  if fits : i < n then b ⟨i, fits⟩ else 0

/-- The `len` bytes from `off`. -/
def read (b : Block n) (off len : Nat) : List UInt8 :=
  (List.range' off len).map b.get

/-- The block with `bytes` written from `off`. -/
def write (b : Block n) (off : Nat) (bytes : List UInt8) : Block n := fun i =>
  if off ≤ i.val then (bytes[i.val - off]?).getD (b i) else b i

/-- The `width`-byte number at `off`. -/
def num (b : Block n) (off width : Nat) : Nat :=
  ofBytes (b.read off width)

/-- The block with `v` written as a `width`-byte number at `off`. -/
def setNum (b : Block n) (off width v : Nat) : Block n :=
  b.write off (toBytes width v)

/-- The block with the `len` bytes from `src` copied to `dst`; the ranges may
overlap. -/
def move (b : Block n) (dst src len : Nat) : Block n :=
  b.write dst (b.read src len)

@[ext]
theorem ext {a b : Block n} (same : ∀ i, i < n → a.get i = b.get i) : a = b := by
  funext i
  simpa [get] using same i.val i.isLt

theorem get_zero (i : Nat) : (zero : Block n).get i = 0 := by
  simp [get, zero]

@[simp]
theorem length_read (b : Block n) (off len : Nat) : (b.read off len).length = len := by
  simp [read]

theorem get_write (b : Block n) (off : Nat) (bytes : List UInt8) (i : Nat) (fits : i < n) :
    (b.write off bytes).get i =
      if off ≤ i then (bytes[i - off]?).getD (b.get i) else b.get i := by
  simp [get, write, fits]

/-- Bytes outside the written run stay. -/
theorem get_write_of_outside (b : Block n) {off : Nat} {bytes : List UInt8} {i : Nat}
    (outside : i < off ∨ off + bytes.length ≤ i) : (b.write off bytes).get i = b.get i := by
  by_cases fits : i < n
  · rw [get_write b off bytes i fits]
    rcases outside with before | after
    · simp [Nat.not_le.mpr before]
    · have beyond : bytes.length ≤ i - off := by omega
      simp [List.getElem?_eq_none beyond]
  · simp [get, fits]

/-- A run apart from the written one reads as before. -/
theorem read_write_of_apart (b : Block n) {off off' len : Nat} {bytes : List UInt8}
    (apart : off + len ≤ off' ∨ off' + bytes.length ≤ off) :
    (b.write off' bytes).read off len = b.read off len := by
  apply List.map_congr_left
  intro i mem
  have bounds := List.mem_range'_1.mp mem
  exact get_write_of_outside b (by omega)

/-- A run within the written one reads as what was written. -/
theorem read_write_within (b : Block n) {off len : Nat} {bytes : List UInt8} (at' : Nat)
    (fits : off + bytes.length ≤ n) (within : at' + len ≤ bytes.length) :
    (b.write off bytes).read (off + at') len = (bytes.drop at').take len := by
  apply List.ext_getElem
  · simp only [length_read, List.length_take, List.length_drop]
    omega
  · intro i left right
    have small : i < len := by simpa using left
    have inBlock : off + (at' + i) < n := by omega
    have inBytes : at' + i < bytes.length := by omega
    simp [read, Nat.add_assoc, get_write b off bytes _ inBlock, inBytes]

theorem read_write_same (b : Block n) {off : Nat} {bytes : List UInt8}
    (fits : off + bytes.length ≤ n) :
    (b.write off bytes).read off bytes.length = bytes := by
  have within : (b.write off bytes).read (off + 0) bytes.length =
      (bytes.drop 0).take bytes.length :=
    read_write_within b 0 fits (by omega)
  simpa using within

/-- A run of a run. -/
theorem take_drop_read (b : Block n) {off len : Nat} (at' len' : Nat)
    (within : at' + len' ≤ len) :
    ((b.read off len).drop at').take len' = b.read (off + at') len' := by
  apply List.ext_getElem
  · simp only [length_read, List.length_take, List.length_drop]
    omega
  · intro i left right
    have small : i < len' := by simpa using right
    simp [read, Nat.add_assoc]

/-! ## Numbers in blocks -/

theorem num_lt (b : Block n) (off width : Nat) : b.num off width < 256 ^ width := by
  simpa [num] using ofBytes_lt (b.read off width)

@[simp]
theorem num_zero (off width : Nat) : (zero : Block n).num off width = 0 := by
  have byte : (zero : Block n).get = fun _ => 0 := funext get_zero
  have run : (zero : Block n).read off width = List.replicate width 0 := by
    simp [read, byte]
  rw [num, run]
  clear run
  induction width with
  | zero => rfl
  | succ width ih => simp [List.replicate_succ, ofBytes, ih]

theorem num_setNum_same (b : Block n) {off width v : Nat} (fits : off + width ≤ n)
    (small : v < 256 ^ width) : (b.setNum off width v).num off width = v := by
  have same := read_write_same b
    (show off + (toBytes width v).length ≤ n by simpa using fits)
  rw [length_toBytes] at same
  rw [num, setNum, same, ofBytes_toBytes_of_lt small]

theorem read_setNum_of_apart (b : Block n) {off len off' width v : Nat}
    (apart : off + len ≤ off' ∨ off' + width ≤ off) :
    (b.setNum off' width v).read off len = b.read off len :=
  read_write_of_apart b (by simpa using apart)

theorem num_setNum_of_apart (b : Block n) {off len off' width v : Nat}
    (apart : off + len ≤ off' ∨ off' + width ≤ off) :
    (b.setNum off' width v).num off len = b.num off len := by
  rw [num, num, read_setNum_of_apart b apart]

theorem num_write_of_apart (b : Block n) {off width off' : Nat} {bytes : List UInt8}
    (apart : off + width ≤ off' ∨ off' + bytes.length ≤ off) :
    (b.write off' bytes).num off width = b.num off width := by
  rw [num, num, read_write_of_apart b apart]

/-! ## Moved runs -/

theorem read_move_of_apart (b : Block n) {dst src count off len : Nat}
    (apart : off + len ≤ dst ∨ dst + count ≤ off) :
    (b.move dst src count).read off len = b.read off len :=
  read_write_of_apart b (by simpa using apart)

theorem read_move_within (b : Block n) {dst src count len : Nat} (at' : Nat)
    (fits : dst + count ≤ n) (within : at' + len ≤ count) :
    (b.move dst src count).read (dst + at') len = b.read (src + at') len := by
  rw [move, read_write_within b at' (by simpa using fits) (by simpa using within),
    take_drop_read b at' len within]

theorem num_move_of_apart (b : Block n) {dst src count off len : Nat}
    (apart : off + len ≤ dst ∨ dst + count ≤ off) :
    (b.move dst src count).num off len = b.num off len := by
  rw [num, num, read_move_of_apart b apart]

theorem num_move_within (b : Block n) {dst src count len : Nat} (at' : Nat)
    (fits : dst + count ≤ n) (within : at' + len ≤ count) :
    (b.move dst src count).num (dst + at') len = b.num (src + at') len := by
  rw [num, num, read_move_within b at' fits within]

/-! ## Blocks that agree on a range -/

/-- The same bytes from `lo` up to `hi`. -/
def AgreeOn (a b : Block n) (lo hi : Nat) : Prop :=
  ∀ i, lo ≤ i → i < hi → a.get i = b.get i

theorem AgreeOn.trans {a b c : Block n} {lo hi : Nat} (first : AgreeOn a b lo hi)
    (second : AgreeOn b c lo hi) : AgreeOn a c lo hi :=
  fun i low high => (first i low high).trans (second i low high)

theorem AgreeOn.mono {a b : Block n} {lo hi lo' hi' : Nat} (same : AgreeOn a b lo hi)
    (low : lo ≤ lo') (high : hi' ≤ hi) : AgreeOn a b lo' hi' :=
  fun i above below => same i (low.trans above) (below.trans_le high)

theorem AgreeOn.read {a b : Block n} {lo hi off len : Nat} (same : AgreeOn a b lo hi)
    (within : lo ≤ off ∧ off + len ≤ hi) : a.read off len = b.read off len := by
  apply List.map_congr_left
  intro i mem
  have bounds := List.mem_range'_1.mp mem
  exact same i (by omega) (by omega)

theorem AgreeOn.num {a b : Block n} {lo hi off width : Nat} (same : AgreeOn a b lo hi)
    (within : lo ≤ off ∧ off + width ≤ hi) : a.num off width = b.num off width := by
  rw [Block.num, Block.num, same.read within]

theorem agreeOn_write (b : Block n) {off lo hi : Nat} {bytes : List UInt8}
    (apart : hi ≤ off ∨ off + bytes.length ≤ lo) : AgreeOn (b.write off bytes) b lo hi :=
  fun i low high => get_write_of_outside b (by omega)

theorem agreeOn_setNum (b : Block n) {off width v lo hi : Nat}
    (apart : hi ≤ off ∨ off + width ≤ lo) : AgreeOn (b.setNum off width v) b lo hi :=
  agreeOn_write b (by simpa using apart)

theorem agreeOn_move (b : Block n) {dst src len lo hi : Nat}
    (apart : hi ≤ dst ∨ dst + len ≤ lo) : AgreeOn (b.move dst src len) b lo hi :=
  agreeOn_write b (by simpa using apart)

/-! ## Writes that change nothing -/

theorem write_read_self (b : Block n) (off len : Nat) : b.write off (b.read off len) = b := by
  apply ext
  intro i fits
  by_cases outside : i < off ∨ off + len ≤ i
  · exact get_write_of_outside b (by simpa using outside)
  · have index : i - off < len := by omega
    have place : off + (i - off) = i := by omega
    rw [get_write b off _ i fits, if_pos (by omega)]
    simp [read, index, place]

theorem move_self (b : Block n) (off len : Nat) : b.move off off len = b :=
  write_read_self b off len

theorem setNum_num_self (b : Block n) (off width : Nat) :
    b.setNum off width (b.num off width) = b := by
  have bytes := toBytes_ofBytes (b.read off width)
  rw [length_read] at bytes
  rw [setNum, num, bytes, write_read_self]

end Block

end MySimpleDb.Lib
