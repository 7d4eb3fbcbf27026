import MySimpleDb.Lib.Bytes

/-!
# Reading a byte text front to back

A cursor takes a value off the front of a byte text.  It reads an encoding when
it takes exactly that encoding, whatever follows, and fails on every part of it
that is cut short.
-/

namespace MySimpleDb.Lib

variable {α β : Type}

/-- A reader of a byte text: the value taken and the text left. -/
abbrev Cursor (α : Type) : Type :=
  StateT (List UInt8) Option α

namespace Cursor

/-! ## Big-endian numbers -/

/-- The `width` low bytes of `v`, most significant byte first. -/
def bigEndian (width v : Nat) : List UInt8 :=
  (toBytes width v).reverse

@[simp]
theorem length_bigEndian (width v : Nat) : (bigEndian width v).length = width := by
  simp [bigEndian]

/-! ## Cursors -/

/-- The first `n` bytes. -/
def bytes (n : Nat) : Cursor (List UInt8) := fun text =>
  if n ≤ text.length then some (text.take n, text.drop n) else none

/-- A number of `width` bytes, most significant byte first. -/
def num (width : Nat) : Cursor Nat := do
  return ofBytes (← bytes width).reverse

/-- `n` values in a row. -/
def many (p : Cursor α) : Nat → Cursor (List α)
  | 0 => pure []
  | n + 1 => do
      let a ← p
      let rest ← many p n
      pure (a :: rest)

/-- Fail. -/
def fail : Cursor α := fun _ => none

/-- The value of a text that the cursor takes as a whole. -/
def whole (p : Cursor α) (text : List UInt8) : Option α :=
  match p text with
  | some (a, []) => some a
  | _ => none

/-! ## Reading an encoding -/

/-- The cursor takes exactly `enc` and gives `a`; it fails where `enc` is cut
short. -/
structure Reads (p : Cursor α) (enc : List UInt8) (a : α) : Prop where
  exact : ∀ rest, p (enc ++ rest) = some (a, rest)
  short : ∀ front back, back ≠ [] → front ++ back = enc → p front = none

theorem Reads.pure (a : α) : Reads (Pure.pure a) [] a where
  exact _ := rfl
  short _ _ cut split := absurd (List.append_eq_nil_iff.mp split).2 cut

theorem bind_of_some {p : Cursor α} {f : α → Cursor β} {text rest : List UInt8} {a : α}
    (taken : p text = some (a, rest)) : (p >>= f) text = f a rest := by
  simp [bind, StateT.bind, taken]

theorem bind_of_none {p : Cursor α} {f : α → Cursor β} {text : List UInt8}
    (failed : p text = none) : (p >>= f) text = none := by
  simp [bind, StateT.bind, failed]

theorem bind_eq_some {p : Cursor α} {f : α → Cursor β} {text rest : List UInt8} {b : β} :
    (p >>= f) text = some (b, rest) ↔
      ∃ a left, p text = some (a, left) ∧ f a left = some (b, rest) := by
  cases step : p text with
  | none => simp [bind_of_none step]
  | some taken =>
      rw [bind_of_some step]
      constructor
      · intro done
        exact ⟨taken.1, taken.2, rfl, done⟩
      · rintro ⟨a, left, taken_eq, done⟩
        obtain rfl := Option.some.inj taken_eq
        exact done

/-- One encoding after the other. -/
theorem Reads.bind {p : Cursor α} {f : α → Cursor β} {enc next : List UInt8} {a : α} {b : β}
    (first : Reads p enc a) (second : Reads (f a) next b) : Reads (p >>= f) (enc ++ next) b where
  exact rest := by
    rw [List.append_assoc, bind_of_some (first.exact _), second.exact]
  short front back cut split := by
    rcases List.append_eq_append_iff.mp split with ⟨mid, enc_eq, back_eq⟩ | ⟨mid, front_eq, next_eq⟩
    · by_cases empty : mid = []
      · -- the cut is exactly between the two encodings
        subst empty
        rw [List.append_nil] at enc_eq
        have taken := first.exact []
        rw [List.append_nil, enc_eq] at taken
        rw [bind_of_some taken]
        exact second.short [] back cut back_eq
      · exact bind_of_none (first.short front mid empty enc_eq.symm)
    · rw [front_eq, bind_of_some (first.exact _)]
      exact second.short mid back cut next_eq.symm

/-- An encoding followed by nothing more to take. -/
theorem Reads.map {p : Cursor α} {f : α → β} {enc : List UInt8} {a : α} (first : Reads p enc a) :
    Reads (f <$> p) enc (f a) := by
  have bound := first.bind (f := fun a => Pure.pure (f a)) (Reads.pure (f a))
  rwa [List.append_nil] at bound

theorem reads_bytes {enc : List UInt8} {n : Nat} (length : enc.length = n) :
    Reads (bytes n) enc enc where
  exact rest := by
    subst length
    simp [bytes]
  short front back cut split := by
    have shorter : front.length < n := by
      have pos := List.length_pos_iff.mpr cut
      rw [← length, ← split, List.length_append]
      omega
    simp [bytes, not_le.mpr shorter]

/-- A number too large for its width is read back reduced. -/
theorem reads_num_mod (width v : Nat) :
    Reads (num width) (bigEndian width v) (v % 256 ^ width) := by
  have read := (reads_bytes (length_bigEndian width v)).map (f := fun b => ofBytes b.reverse)
  rwa [bigEndian, List.reverse_reverse, ofBytes_toBytes] at read

theorem reads_num {width v : Nat} (fits : v < 256 ^ width) :
    Reads (num width) (bigEndian width v) v := by
  have read := reads_num_mod width v
  rwa [Nat.mod_eq_of_lt fits] at read

theorem reads_many {p : Cursor α} {enc : α → List UInt8} {as : List α}
    (reads : ∀ a ∈ as, Reads p (enc a) a) : Reads (many p as.length) (as.flatMap enc) as := by
  induction as with
  | nil => exact Reads.pure []
  | cons a as inductionHypothesis =>
      have rest := inductionHypothesis fun b mem => reads b (List.mem_cons_of_mem a mem)
      have tail := rest.map (f := fun rest => a :: rest)
      exact (reads a List.mem_cons_self).bind (f := fun a => (fun rest => a :: rest) <$> many p as.length) tail

/-- What is left is as much shorter as was taken. -/
theorem bytes_length {n : Nat} {text enc rest : List UInt8}
    (taken : bytes n text = some (enc, rest)) : text.length = n + rest.length := by
  unfold bytes at taken
  split at taken
  · rename_i enough
    obtain ⟨-, rfl⟩ := Prod.mk.inj (Option.some.inj taken)
    rw [List.length_drop]
    omega
  · cases taken

theorem num_length {width v : Nat} {text rest : List UInt8}
    (taken : num width text = some (v, rest)) : text.length = width + rest.length := by
  obtain ⟨enc, left, step, done⟩ := bind_eq_some.mp taken
  obtain ⟨-, rfl⟩ := Prod.mk.inj (Option.some.inj done)
  exact bytes_length step

theorem Reads.whole_eq {p : Cursor α} {enc : List UInt8} {a : α} (reads : Reads p enc a) :
    whole p enc = some a := by
  have taken := reads.exact []
  rw [List.append_nil] at taken
  simp [whole, taken]

theorem Reads.whole_short {p : Cursor α} {enc front back : List UInt8} {a : α}
    (reads : Reads p enc a) (cut : back ≠ []) (split : front ++ back = enc) :
    whole p front = none := by
  simp [whole, reads.short front back cut split]

/-! ## What a cursor can give -/

/-- Every value the cursor gives satisfies `post`. -/
def Gives (p : Cursor α) (post : α → Prop) : Prop :=
  ∀ text a rest, p text = some (a, rest) → post a

theorem Gives.pure {post : α → Prop} {a : α} (holds : post a) : Gives (Pure.pure a) post := by
  intro text b rest taken
  obtain ⟨rfl, -⟩ := Prod.mk.inj (Option.some.inj taken)
  exact holds

theorem Gives.mono {p : Cursor α} {post weaker : α → Prop} (gives : Gives p post)
    (implies : ∀ a, post a → weaker a) : Gives p weaker :=
  fun text a rest taken => implies a (gives text a rest taken)

theorem Gives.bind {p : Cursor α} {f : α → Cursor β} {mid : α → Prop} {post : β → Prop}
    (first : Gives p mid) (next : ∀ a, mid a → Gives (f a) post) : Gives (p >>= f) post := by
  intro text b rest taken
  obtain ⟨a, left, step, done⟩ := bind_eq_some.mp taken
  exact next a (first text a left step) left b rest done

theorem Gives.map {p : Cursor α} {f : α → β} {mid : α → Prop} {post : β → Prop}
    (first : Gives p mid) (next : ∀ a, mid a → post (f a)) : Gives (f <$> p) post := by
  have bound := first.bind (f := fun a => Pure.pure (f a)) fun a mid => Gives.pure (next a mid)
  exact bound

theorem gives_bytes (n : Nat) : Gives (bytes n) fun enc => enc.length = n := by
  intro text enc rest taken
  unfold bytes at taken
  split at taken
  · rename_i enough
    obtain ⟨rfl, -⟩ := Prod.mk.inj (Option.some.inj taken)
    rw [List.length_take, min_eq_left enough]
  · cases taken

theorem gives_num (width : Nat) : Gives (num width) fun v => v < 256 ^ width := by
  refine (gives_bytes width).bind fun enc length => Gives.pure ?_
  have below := ofBytes_lt enc.reverse
  rwa [List.length_reverse, length] at below

theorem gives_many {p : Cursor α} {post : α → Prop} (gives : Gives p post) (n : Nat) :
    Gives (many p n) fun as => as.length = n ∧ ∀ a ∈ as, post a := by
  induction n with
  | zero => exact Gives.pure ⟨rfl, by simp⟩
  | succ n inductionHypothesis =>
      refine gives.bind fun a holds => inductionHypothesis.bind fun as many => Gives.pure ?_
      constructor
      · rw [List.length_cons, many.1]
      · exact List.forall_mem_cons.mpr ⟨holds, many.2⟩

theorem gives_fail {post : α → Prop} : Gives fail post := by
  intro text a rest taken
  cases taken

theorem Gives.whole {p : Cursor α} {post : α → Prop} (gives : Gives p post) {text : List UInt8}
    {a : α} (taken : p.whole text = some a) : post a := by
  unfold Cursor.whole at taken
  split at taken
  · rename_i b read
    cases taken
    exact gives text _ [] read
  · cases taken

end Cursor

end MySimpleDb.Lib
