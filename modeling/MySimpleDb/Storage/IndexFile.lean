import MySimpleDb.Lib.BPlusScan
import MySimpleDb.Lib.Chain
import MySimpleDb.Lib.Pull
import MySimpleDb.Storage.BTreeInvariant

/-!
# Index files tree by tree

An index file as its operations see it: the tree its pages hold and the number
its next page gets.  A scan descends to a leaf and follows the chain of leaves
from there; it gives the entries between its bounds in order.
-/

namespace MySimpleDb.Storage

open MySimpleDb.Lib
open MySimpleDb.Lib.BPlus (Tree Leaf AllBelow seek placeIn)

structure IndexFile where
  tree : AnyTree
  nextNo : Nat

/-- State of a scan: its bounds, the leaf it holds, the leaf it will load next
and the entry it looks at. -/
structure IndexScanner where
  loBound : Option (Bound IndexKey)
  hiBound : Option (Bound IndexKey)
  cur : Option Nat
  nextNo : Nat
  slotIdx : Nat
  isDone : Bool := false
deriving DecidableEq

namespace IndexFile

/-- `BTree::create`. -/
def created : IndexFile where
  tree := ⟨0, (⟨1, []⟩ : Leaf _)⟩
  nextNo := 2

/-- `BTree::insert`. -/
def insert (f : IndexFile) (e : BTreeEntry) : IndexFile where
  tree := (BPlus.insert 214 f.nextNo e f.tree).1
  nextNo := (BPlus.insert 214 f.nextNo e f.tree).2

def entries (f : IndexFile) : List BTreeEntry :=
  f.tree.2.entries

def leaves (f : IndexFile) : List (Leaf BTreeEntry) :=
  f.tree.2.leaves

/-- The entries of a leaf; a page that was undone has none. -/
def leafEntries (f : IndexFile) (no : Nat) : List BTreeEntry :=
  ((Chain.find Leaf.no f.leaves no).map Leaf.entries).getD []

/-- The order of the tree, and what keeps its leaves apart. -/
structure Ordered (f : IndexFile) : Prop where
  ordered : BPlus.Ordered f.tree.1 none none f.tree.2
  distinct : (f.leaves.map Leaf.no).Nodup
  positive : ∀ leaf ∈ f.leaves, leaf.no ≠ 0

/-- What a scan needs of the tree: separators that cut, and sorted leaves that are
kept apart. -/
structure Searchable (f : IndexFile) : Prop where
  cuts : BPlus.Cuts f.tree.1 f.tree.2
  sorted : ∀ leaf ∈ f.leaves, leaf.entries.Pairwise (· < ·)
  distinct : (f.leaves.map Leaf.no).Nodup
  positive : ∀ leaf ∈ f.leaves, leaf.no ≠ 0

theorem Ordered.searchable {f : IndexFile} (ordered : f.Ordered) : f.Searchable where
  cuts := ordered.ordered.cuts
  sorted := ordered.ordered.leaves_sorted
  distinct := ordered.distinct
  positive := ordered.positive

end IndexFile

/-! ## Scans -/

namespace IndexScanner

open BTreeScanner (beyond skipped passLower)

/-- Position a scan at its lower bound. -/
def create (f : IndexFile) (lo hi : Option (Bound IndexKey)) : IndexScanner :=
  let probe : Option BTreeEntry := lo.map fun b => { key := b.key }
  let leaf := seek probe f.tree.1 f.tree.2
  { loBound := lo, hiBound := hi, cur := some leaf.no,
    nextNo := Chain.next Leaf.no f.leaves leaf.no, slotIdx := placeIn probe leaf.entries }

/-- The loop of `next`. -/
def nextLoop (fid : Nat) (f : IndexFile) :
    Nat → IndexScanner → Res (Option BTreeEntry × IndexScanner)
  | 0, _ => .error (.crash "scan does not end")
  | fuel + 1, scan =>
      match scan.cur with
      | none =>
          if scan.nextNo = 0 then .ok (none, { scan with isDone := true })
          else
            match Chain.find Leaf.no f.leaves scan.nextNo with
            | none => .error (badScanPage ⟨fid, scan.nextNo⟩)
            | some leaf =>
                nextLoop fid f fuel { scan with
                  cur := some leaf.no, nextNo := Chain.next Leaf.no f.leaves leaf.no, slotIdx := 0 }
      | some no =>
          match (f.leafEntries no)[scan.slotIdx]? with
          | none => nextLoop fid f fuel { scan with cur := none }
          | some e =>
              if beyond scan.hiBound e.key then .ok (none, { scan with isDone := true })
              else if skipped scan.loBound e.key then
                nextLoop fid f fuel { scan with slotIdx := scan.slotIdx + 1 }
              else
                .ok (some e,
                  { scan with loBound := passLower scan.loBound, slotIdx := scan.slotIdx + 1 })

/-- More turns than a scan of the file can take. -/
def turns (f : IndexFile) : Nat :=
  f.entries.length + 2 * f.leaves.length + 2

def next (fid : Nat) (f : IndexFile) (scan : IndexScanner) :
    Res (Option BTreeEntry × IndexScanner) :=
  if scan.isDone then .ok (none, scan) else nextLoop fid f (turns f) scan

/-! ### What a scan gives -/

/-- The first entry that a scan does not skip, unless it has passed the upper
bound, and the entries behind it. -/
def firstOf (lo hi : Option (Bound IndexKey)) :
    List BTreeEntry → Option (BTreeEntry × List BTreeEntry)
  | [] => none
  | e :: es =>
      if beyond hi e.key then none
      else if skipped lo e.key then firstOf lo hi es
      else some (e, es)

/-- The scan has the entries in `rest` still before it. -/
inductive At (f : IndexFile) : IndexScanner → List BTreeEntry → Prop
  | within {before after : List (Leaf BTreeEntry)} {leaf : Leaf BTreeEntry}
      {lo hi : Option (Bound IndexKey)} {slot : Nat}
      (split : f.leaves = before ++ leaf :: after) :
      At f ⟨lo, hi, some leaf.no, Chain.head Leaf.no after, slot, false⟩
        (leaf.entries.drop slot ++ after.flatMap Leaf.entries)

variable {fid : Nat} {f : IndexFile} {lo hi : Option (Bound IndexKey)}

/-- What a call that has the entries in `rest` before it returns. -/
def Returns (f : IndexFile) (lo hi : Option (Bound IndexKey))
    (result : Res (Option BTreeEntry × IndexScanner)) (rest : List BTreeEntry) : Prop :=
  match firstOf lo hi rest with
  | none => ∃ s', result = .ok (none, s') ∧ s'.isDone = true
  | some (e, rest') => ∃ s', result = .ok (some e, s') ∧ At f s' rest' ∧
      s'.loBound = passLower lo ∧ s'.hiBound = hi

theorem leafEntries_eq (searchable : f.Searchable) {before after : List (Leaf BTreeEntry)}
    {leaf : Leaf BTreeEntry} (split : f.leaves = before ++ leaf :: after) :
    f.leafEntries leaf.no = leaf.entries := by
  rw [IndexFile.leafEntries, Chain.find_eq searchable.distinct split]
  rfl

/-- The loop from any position, with a turn for every entry and two for every
leaf still before it. -/
theorem nextLoop_returns (fid : Nat) (searchable : f.Searchable) {fuel : Nat}
    {before after : List (Leaf BTreeEntry)} {leaf : Leaf BTreeEntry} {slot : Nat}
    (split : f.leaves = before ++ leaf :: after)
    (enough : (leaf.entries.length - slot) + (after.flatMap Leaf.entries).length +
      2 * after.length + 2 ≤ fuel) :
    Returns f lo hi
      (nextLoop fid f fuel ⟨lo, hi, some leaf.no, Chain.head Leaf.no after, slot, false⟩)
      (leaf.entries.drop slot ++ after.flatMap Leaf.entries) := by
  induction fuel using Nat.strong_induction_on generalizing before after leaf slot with
  | _ fuel inductionHypothesis =>
  obtain ⟨fuel, rfl⟩ : ∃ n, fuel = n + 2 := ⟨fuel - 2, by omega⟩
  by_cases inside : slot < leaf.entries.length
  · have entry : (f.leafEntries leaf.no)[slot]? = some leaf.entries[slot] := by
      rw [leafEntries_eq searchable split, List.getElem?_eq_getElem inside]
    rw [List.drop_eq_getElem_cons inside, List.cons_append, Returns, firstOf]
    unfold nextLoop
    simp only [entry]
    by_cases passed : beyond hi leaf.entries[slot].key = true
    · simp [passed]
    · by_cases skip : skipped lo leaf.entries[slot].key = true
      · have later : Returns f lo hi (nextLoop fid f (fuel + 1)
            ⟨lo, hi, some leaf.no, Chain.head Leaf.no after, slot + 1, false⟩)
            (leaf.entries.drop (slot + 1) ++ after.flatMap Leaf.entries) :=
          inductionHypothesis (fuel + 1) (by omega) split (by omega)
        rw [Returns] at later
        simpa [passed, skip] using later
      · simp only [passed, skip, Bool.false_eq_true, if_false]
        exact ⟨_, rfl, .within split, rfl, rfl⟩
  · have ended : (f.leafEntries leaf.no)[slot]? = none := by
      rw [leafEntries_eq searchable split, List.getElem?_eq_none (not_lt.mp inside)]
    rw [List.drop_eq_nil_of_le (not_lt.mp inside), List.nil_append]
    unfold nextLoop
    simp only [ended]
    unfold nextLoop
    cases after with
    | nil => exact ⟨_, rfl, rfl⟩
    | cons leaf' after =>
        have split' : f.leaves = (before ++ [leaf]) ++ leaf' :: after := by simp [split]
        have positive : leaf'.no ≠ 0 := searchable.positive leaf' (by simp [split])
        have head : Chain.head Leaf.no (leaf' :: after) = leaf'.no := rfl
        have found : Chain.find Leaf.no f.leaves leaf'.no = some leaf' :=
          Chain.find_eq searchable.distinct split'
        have follows : Chain.next Leaf.no f.leaves leaf'.no = Chain.head Leaf.no after :=
          Chain.next_eq searchable.distinct split'
        simp only [head, positive, found, follows, if_false]
        refine inductionHypothesis fuel (by omega) split' ?_
        simp only [List.flatMap_cons, List.length_append, List.length_cons] at enough
        omega

/-- A call of `next` gives the first of the entries before it that the bounds
admit. -/
theorem next_returns (fid : Nat) (searchable : f.Searchable) {s : IndexScanner}
    {rest : List BTreeEntry} (position : At f s rest) :
    Returns f s.loBound s.hiBound (next fid f s) rest := by
  cases position with
  | @within before after leaf lo hi slot split =>
      apply nextLoop_returns fid searchable split
      have entries : f.entries = f.leaves.flatMap Leaf.entries := BPlus.entries_leaves f.tree.2
      rw [turns, entries, split]
      simp only [List.flatMap_append, List.flatMap_cons, List.length_append, List.length_cons]
      omega

/-- The entries a scan gives while the file stays as it is. -/
def scanned (lo hi : Option (Bound IndexKey)) : List BTreeEntry → List BTreeEntry
  | [] => []
  | e :: es =>
      if beyond hi e.key then []
      else if skipped lo e.key then scanned lo hi es
      else e :: scanned (passLower lo) hi es

theorem scanned_firstOf (lo hi : Option (Bound IndexKey)) (es : List BTreeEntry) :
    scanned lo hi es = ((firstOf lo hi es).map fun (e, es') =>
      e :: scanned (passLower lo) hi es').getD [] := by
  induction es with
  | nil => rfl
  | cons e es inductionHypothesis =>
      rw [scanned, firstOf]
      split
      · rfl
      · split
        · exact inductionHypothesis
        · rfl

theorem firstOf_length {es es' : List BTreeEntry} {e : BTreeEntry}
    (first : firstOf lo hi es = some (e, es')) : es'.length < es.length := by
  induction es with
  | nil => cases first
  | cons e' es inductionHypothesis =>
      rw [firstOf] at first
      split at first
      · cases first
      · split at first
        · exact Nat.lt_succ_of_lt (inductionHypothesis first)
        · cases first
          exact Nat.lt_succ_self _

theorem At.yields (fid : Nat) (searchable : f.Searchable) {s : IndexScanner} {rest : List BTreeEntry}
    (position : At f s rest) :
    Pull.Yields (next fid f) s (scanned s.loBound s.hiBound rest) := by
  induction size : rest.length using Nat.strong_induction_on generalizing s rest with
  | _ n inductionHypothesis =>
  have returned := next_returns fid searchable position
  rw [scanned_firstOf]
  unfold Returns at returned
  cases first : firstOf s.loBound s.hiBound rest with
  | none =>
      rw [first] at returned
      obtain ⟨s', last, -⟩ := returned
      exact .done last
  | some entry =>
      obtain ⟨e, rest'⟩ := entry
      rw [first] at returned
      obtain ⟨s', given, position', lo_eq, hi_eq⟩ := returned
      have later := inductionHypothesis rest'.length (size ▸ firstOf_length first) position' rfl
      rw [lo_eq, hi_eq] at later
      exact .row given later

/-! ### Exactness -/

instance (r : KeyInterval IndexKey) (key : IndexKey) : Decidable (r.Mem key) := by
  unfold KeyInterval.Mem KeyInterval.Above KeyInterval.Below
  infer_instance

theorem beyond_iff {key : IndexKey} :
    beyond hi key = true ↔ ∃ b ∈ hi, ¬KeyInterval.Below b key := by
  cases hi with
  | none => simp [beyond]
  | some b =>
      simp only [Option.mem_some_iff, exists_eq_left', KeyInterval.Below, beyond]
      cases b.inclusive
      · simp only [Bool.false_eq_true, if_false, ge_iff_le, decide_eq_true_eq, and_false, or_false]
        rw [← not_lt, keyCmp_neg_iff]
      · simp only [if_true, decide_eq_true_eq, gt_iff_lt, keyCmp_pos_iff, and_true]
        rw [← le_iff_lt_or_eq, not_le]

theorem skipped_iff {key : IndexKey} :
    skipped lo key = true ↔ ∃ b ∈ lo, b.inclusive = false ∧ key = b.key := by
  cases lo with
  | none => simp [skipped]
  | some b => simp [skipped, keyCmp_eq_zero_iff]

/-- Behind a key above an open lower bound the bound is not needed any more. -/
theorem mem_passLower {key key' : IndexKey} (notSkipped : skipped lo key = false)
    (above : ∀ b ∈ lo, b.key ≤ key) (le : key ≤ key') :
    KeyInterval.Mem ⟨passLower lo, hi⟩ key' ↔ KeyInterval.Mem ⟨lo, hi⟩ key' := by
  cases lo with
  | none => rfl
  | some b =>
      cases inclusive : b.inclusive with
      | true =>
          have kept : passLower (some b) = some b := by simp [passLower, inclusive]
          rw [kept]
      | false =>
          have dropped : passLower (some b) = none := by simp [passLower, inclusive]
          have ne : key ≠ b.key := by
            intro same
            rw [skipped_iff.mpr ⟨b, rfl, inclusive, same⟩] at notSkipped
            cases notSkipped
          have lt : b.key < key' := lt_of_lt_of_le (lt_of_le_of_ne (above b rfl) ne.symm) le
          simp [dropped, KeyInterval.Mem, KeyInterval.Above, lt]

/-- Over sorted entries from the lower bound on, a scan gives those that the bounds
admit. -/
theorem scanned_eq_filter {es : List BTreeEntry} (sorted : es.Pairwise (· < ·))
    (above : ∀ e ∈ es, ∀ b ∈ lo, b.key ≤ e.key) :
    scanned lo hi es = es.filter fun e => decide (KeyInterval.Mem ⟨lo, hi⟩ e.key) := by
  induction es generalizing lo with
  | nil => rfl
  | cons e es inductionHypothesis =>
      rw [List.pairwise_cons] at sorted
      rw [scanned]
      split
      · rename_i passed
        obtain ⟨b, b_mem, not_below⟩ := beyond_iff.mp passed
        symm
        apply List.filter_eq_nil_iff.mpr
        intro e' mem
        rw [decide_eq_true_eq]
        intro inside
        apply not_below
        have below := inside.2 b b_mem
        have le : e.key ≤ e'.key := by
          rcases List.mem_cons.mp mem with rfl | mem
          · exact le_rfl
          · exact BTreeEntry.key_le_of_le (sorted.1 e' mem).le
        rcases below with lt | ⟨same, inclusive⟩
        · exact Or.inl (lt_of_le_of_lt le lt)
        · rcases le.lt_or_eq with lt | same'
          · exact Or.inl (same ▸ lt)
          · exact Or.inr ⟨same'.trans same, inclusive⟩
      · rename_i inside
        have below : ∀ b ∈ hi, KeyInterval.Below b e.key := by
          intro b mem
          by_contra not_below
          exact inside (beyond_iff.mpr ⟨b, mem, not_below⟩)
        split
        · rename_i skip
          obtain ⟨b, b_mem, exclusive, same⟩ := skipped_iff.mp skip
          have out : ¬KeyInterval.Mem ⟨lo, hi⟩ e.key := by
            rintro ⟨above_lo, -⟩
            rcases above_lo b b_mem with lt | ⟨-, inclusive⟩
            · exact lt.ne same.symm
            · rw [exclusive] at inclusive
              cases inclusive
          rw [List.filter_cons_of_neg (by simpa using out)]
          exact inductionHypothesis sorted.2 fun e' mem => above e' (List.mem_cons_of_mem _ mem)
        · rename_i notSkipped
          have notSkipped : skipped lo e.key = false := by simpa using notSkipped
          have here := above e (List.mem_cons_self ..)
          have inside_lo : ∀ b ∈ lo, KeyInterval.Above b e.key := by
            intro b mem
            rcases (here b mem).lt_or_eq with lt | same
            · exact Or.inl lt
            · refine Or.inr ⟨same, ?_⟩
              by_contra exclusive
              rw [skipped_iff.mpr ⟨b, mem, by simpa using exclusive, same.symm⟩] at notSkipped
              cases notSkipped
          rw [List.filter_cons_of_pos (by simpa using ⟨inside_lo, below⟩), inductionHypothesis sorted.2]
          · congr 1
            apply List.filter_congr
            intro e' mem
            rw [decide_eq_decide]
            exact mem_passLower notSkipped here (BTreeEntry.key_le_of_le (sorted.1 e' mem).le)
          · intro e' mem b b_mem
            have b_lo : b ∈ lo := by
              unfold passLower at b_mem
              exact (Option.mem_filter_iff.mp b_mem).1
            exact (here b b_lo).trans (BTreeEntry.key_le_of_le (sorted.1 e' mem).le)

/-- A scan gives exactly the entries whose keys the bounds admit, in order. -/
theorem create_yields_of_searchable (fid : Nat) (searchable : f.Searchable)
    (lo hi : Option (Bound IndexKey)) :
    Pull.Yields (next fid f) (create f lo hi)
      (f.entries.filter fun e => decide (KeyInterval.Mem ⟨lo, hi⟩ e.key)) := by
  set probe : Option BTreeEntry := lo.map fun b => { key := b.key }
  obtain ⟨before, after, split, below, above⟩ := searchable.cuts.seek_split probe
  set leaf := seek probe f.tree.1 f.tree.2
  have sorted : f.entries.Pairwise (· < ·) := searchable.cuts.sorted searchable.sorted
  have entries : f.entries = before.flatMap Leaf.entries ++
      (leaf.entries ++ after.flatMap Leaf.entries) := by
    rw [IndexFile.entries, BPlus.entries_leaves, split, List.flatMap_append, List.flatMap_cons]
  have leaf_sorted : leaf.entries.Pairwise (· < ·) := by
    have all : f.entries.Pairwise (· < ·) := sorted
    rw [entries, List.pairwise_append, List.pairwise_append] at all
    exact all.2.1.1
  obtain ⟨leaf_below, leaf_above⟩ := BPlus.placeIn_split probe leaf_sorted
  set place := placeIn probe leaf.entries
  have position : At f (create f lo hi)
      (leaf.entries.drop place ++ after.flatMap Leaf.entries) := by
    have created : create f lo hi =
        ⟨lo, hi, some leaf.no, Chain.head Leaf.no after, place, false⟩ := by
      have follows : Chain.next Leaf.no f.leaves leaf.no = Chain.head Leaf.no after :=
        Chain.next_eq searchable.distinct split
      rw [← follows]
      rfl
    rw [created]
    exact .within split
  have whole : f.entries = (before.flatMap Leaf.entries ++ leaf.entries.take place) ++
      (leaf.entries.drop place ++ after.flatMap Leaf.entries) := by
    rw [entries, List.append_assoc, ← List.append_assoc (leaf.entries.take place),
      List.take_append_drop]
  have outside : (before.flatMap Leaf.entries ++ leaf.entries.take place).filter
      (fun e => decide (KeyInterval.Mem ⟨lo, hi⟩ e.key)) = [] := by
    apply List.filter_eq_nil_iff.mpr
    intro x mem
    obtain ⟨e, e_mem, lt⟩ := (AllBelow.append below leaf_below) x mem
    obtain ⟨b, b_mem, rfl⟩ := Option.mem_map.mp e_mem
    rw [decide_eq_true_eq]
    rintro ⟨above_lo, -⟩
    have key_lt : x.key < b.key := by
      rw [← not_le]
      exact fun le => not_le.mpr lt (BTreeEntry.probe_le_iff.mpr le)
    rcases above_lo b b_mem with gt | ⟨same, -⟩
    · exact lt_asymm gt key_lt
    · exact key_lt.ne same.symm
  have yields := position.yields fid searchable
  have rest_sorted : (leaf.entries.drop place ++ after.flatMap Leaf.entries).Pairwise (· < ·) := by
    have all : f.entries.Pairwise (· < ·) := sorted
    rw [whole, List.pairwise_append] at all
    exact all.2.1
  rw [whole, List.filter_append, outside, List.nil_append]
  rwa [scanned_eq_filter rest_sorted] at yields
  intro x mem b b_mem
  have le := BPlus.NoneBelow.append leaf_above above { key := b.key }
    (Option.mem_map.mpr ⟨b, b_mem, rfl⟩) x mem
  exact BTreeEntry.probe_le_iff.mp le

theorem create_yields (fid : Nat) (ordered : f.Ordered) (lo hi : Option (Bound IndexKey)) :
    Pull.Yields (next fid f) (create f lo hi)
      (f.entries.filter fun e => decide (KeyInterval.Mem ⟨lo, hi⟩ e.key)) :=
  create_yields_of_searchable fid ordered.searchable lo hi

end IndexScanner

end MySimpleDb.Storage
