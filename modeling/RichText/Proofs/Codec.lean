/-
  RichText/Proofs/Codec.lean
  ==========================
  **A reader of any bytes never stands still, never runs over, and finds its way again.**

  `Codec.decode` takes bytes one at a time and remembers what they owe.  A reader looks ahead:
  it takes as many bytes as the first one asks for, as far as they continue it, and says how
  many these were.  `decode_of_read?` is one such read, and `Reader.toEnd_eq` reading to the
  end: both give the code points that `decode` gives, with their number as the final index.

  What comes before a byte that starts something has no effect on what is read from there
  (`decode_append`): the bytes before it, however malformed, are read as they would be if
  nothing followed.  A value never exceeds what four bytes carry, since a first byte leaves
  room for the bits of those that it asks for (`lead_le`), and so whatever has been read can be
  written and read again.
-/
import Mathlib.Algebra.Group.Nat.Defs
import Mathlib.Tactic.SplitIfs
import RichText.CodePoint.Codec

namespace RichText.Codec

open CodePoint

/-! ### A code point and its length -/

/-- The bits that a first byte carries, and how many bytes are to continue it. -/
def lead? (b : UInt8) : Option (Nat × Nat) :=
  let n := b.toNat
  if n < 0x80 then some (n, 0)
  else if n < 0xC0 then none
  else if n < 0xE0 then some (n - 0xC0, 1)
  else if n < 0xF0 then some (n - 0xE0, 2)
  else if n < 0xF8 then some (n - 0xF0, 3)
  else none

/-- Continues `bits` with the bytes that are owed: the value, and how many bytes were there. -/
def extend (bits : Nat) : Nat → List UInt8 → Nat × Nat
  | 0, _ => (bits, 0)
  | _ + 1, [] => (replacement, 0)
  | owed + 1, b :: bs =>
    if isContinuation b then
      let (c, n) := extend (bits * 0x40 + (b.toNat - 0x80)) owed bs
      (c, n + 1)
    else (replacement, 0)

/-- The first code point of a byte string, and its length in bytes. -/
def read? : List UInt8 → Option (Nat × Nat)
  | [] => none
  | b :: bs =>
    match lead? b with
    | none => some (replacement, 1)
    | some (bits, owed) =>
      let (c, n) := extend bits owed bs
      some (c, n + 1)

theorem start_eq (b : UInt8) :
    start b =
      match lead? b with
      | none => ([replacement], .none)
      | some (bits, 0) => ([bits], .none)
      | some (bits, owed + 1) => ([], .owed bits owed) := by
  simp only [start, lead?]
  split_ifs <;> rfl

theorem extend_cons_of_continues {b : UInt8} (h : isContinuation b = true) (bits owed : Nat)
    (bs : List UInt8) :
    extend bits (owed + 1) (b :: bs) =
      ((extend (bits * 0x40 + (b.toNat - 0x80)) owed bs).1,
        (extend (bits * 0x40 + (b.toNat - 0x80)) owed bs).2 + 1) := by
  simp only [extend, if_pos h]

theorem extend_cons_of_not_continues {b : UInt8} (h : isContinuation b = false) (bits owed : Nat)
    (bs : List UInt8) : extend bits (owed + 1) (b :: bs) = (replacement, 0) := by
  simp [extend, h]

/-- Bytes that are owed are read by looking ahead as they are one at a time. -/
theorem decodeFrom_owed (bits owed : Nat) (bs : List UInt8) :
    decodeFrom (.owed bits owed) bs =
      (extend bits (owed + 1) bs).1 :: decode (bs.drop (extend bits (owed + 1) bs).2) := by
  induction bs generalizing bits owed with
  | nil => rfl
  | cons b bs ih =>
    cases hb : isContinuation b with
    | false =>
      rw [extend_cons_of_not_continues hb]
      simp [step, hb, decode]
    | true =>
      rw [extend_cons_of_continues hb, List.drop_succ_cons]
      cases owed with
      | zero => simp [step, hb, extend, decode]
      | succ owed =>
        rw [← ih]
        simp [step, hb]

/-- One read is the first code point, and what is left after it the others. -/
theorem decode_of_read? {bs : List UInt8} {c n : Nat} (h : read? bs = some (c, n)) :
    decode bs = c :: decode (bs.drop n) := by
  cases bs with
  | nil => cases h
  | cons b bs =>
    have hcons : decode (b :: bs) = (start b).1 ++ decodeFrom (start b).2 bs := rfl
    rw [hcons, start_eq]
    simp only [read?] at h
    match hlead : lead? b, h with
    | none, h =>
      obtain ⟨rfl, rfl⟩ := Prod.mk.inj (Option.some.inj h)
      rfl
    | some (bits, 0), h =>
      obtain ⟨rfl, rfl⟩ := Prod.mk.inj (Option.some.inj h)
      rfl
    | some (bits, owed + 1), h =>
      obtain ⟨rfl, rfl⟩ := Prod.mk.inj (Option.some.inj h)
      exact decodeFrom_owed bits owed bs

/-! ### Bounds of a read -/

theorem length_extend_le (bits owed : Nat) (bs : List UInt8) :
    (extend bits owed bs).2 ≤ bs.length := by
  induction bs generalizing bits owed with
  | nil => cases owed <;> exact Nat.le_refl 0
  | cons b bs ih =>
    cases owed with
    | zero => exact Nat.zero_le _
    | succ owed =>
      cases hb : isContinuation b with
      | false =>
        rw [extend_cons_of_not_continues hb]
        exact Nat.zero_le _
      | true =>
        rw [extend_cons_of_continues hb]
        exact Nat.succ_le_succ (ih _ owed)

/-- A first byte leaves room for six bits of every byte that it asks for. -/
theorem lead_le {b : UInt8} {bits owed : Nat} (h : lead? b = some (bits, owed)) :
    (bits + 1) * 0x40 ^ owed ≤ largest + 1 := by
  simp only [lead?] at h
  split_ifs at h with h1 h2 h3 h4 h5 <;> obtain ⟨rfl, rfl⟩ := Prod.mk.inj (Option.some.inj h)
  all_goals
    simp only [largest]
    omega

theorem extend_le {bits owed : Nat} (h : (bits + 1) * 0x40 ^ owed ≤ largest + 1)
    (bs : List UInt8) : (extend bits owed bs).1 ≤ largest := by
  induction bs generalizing bits owed with
  | nil =>
    cases owed with
    | zero => simpa [extend] using h
    | succ owed => simp [extend, replacement, largest]
  | cons b bs ih =>
    cases owed with
    | zero => simpa [extend] using h
    | succ owed =>
      cases hb : isContinuation b with
      | false =>
        rw [extend_cons_of_not_continues hb]
        decide
      | true =>
        rw [extend_cons_of_continues hb]
        refine ih (Nat.le_trans ?_ h)
        have hbyte : b.toNat - 0x80 < 0x40 := by
          simp only [isContinuation, Bool.and_eq_true, decide_eq_true_eq] at hb
          omega
        rw [Nat.pow_succ', ← Nat.mul_assoc]
        exact Nat.mul_le_mul_right _ (by omega)

/-- **A read takes at least one byte and none that is not there, and gives a value that four
    bytes carry.** -/
theorem read?_bounds {bs : List UInt8} (h : bs ≠ []) :
    ∃ c n, read? bs = some (c, n) ∧ 1 ≤ n ∧ n ≤ bs.length ∧ c ≤ largest := by
  cases bs with
  | nil => exact absurd rfl h
  | cons b bs =>
    simp only [read?]
    match hlead : lead? b with
    | none => exact ⟨replacement, 1, rfl, Nat.le_refl 1, by simp, by decide⟩
    | some (bits, owed) =>
      refine ⟨_, _, rfl, Nat.le_add_left 1 _, ?_, extend_le (lead_le hlead) bs⟩
      exact Nat.succ_le_succ (length_extend_le bits owed bs)

/-! ### Finding the way again -/

/-- A byte that continues no sequence ends one that is pending. -/
theorem decodeFrom_append {b : UInt8} (hb : isContinuation b = false) (p : Pending)
    (first rest : List UInt8) :
    decodeFrom p (first ++ b :: rest) = decodeFrom p first ++ decode (b :: rest) := by
  induction first generalizing p with
  | nil =>
    cases p with
    | none => rfl
    | owed bits more =>
      simp only [List.nil_append, decode, decodeFrom_cons, step, hb]
      rfl
  | cons a first ih =>
    rw [List.cons_append, decodeFrom_cons, decodeFrom_cons, ih, List.append_assoc]

/-- Bytes are read in two parts wherever the second one begins a sequence. -/
theorem decode_append {b : UInt8} (hb : isContinuation b = false) (first rest : List UInt8) :
    decode (first ++ b :: rest) = decode first ++ decode (b :: rest) :=
  decodeFrom_append hb .none first rest

/-- Bytes that do not go on with a sequence begun before them. -/
def Aligned (bs : List UInt8) : Prop := ∀ b ∈ bs.head?, isContinuation b = false

/-- Bytes that start something, or none at all, are read as if nothing came before them. -/
theorem decode_append_of_aligned {b : List UInt8} (h : Aligned b) (a : List UInt8) :
    decode (a ++ b) = decode a ++ decode b := by
  cases b with
  | nil => rw [List.append_nil, decode_nil, List.append_nil]
  | cons x b => exact decode_append (h x rfl) a b

theorem decode_encodeAll {cs : List Nat} (h : ∀ c ∈ cs, c ≤ largest) :
    decode (encodeAll cs) = cs := by
  have hread := decode_append_encodeAll h []
  rwa [List.append_nil, decode_nil, List.append_nil] at hread

/-! ### A reader that counts -/

/-- A place in a byte string, and how many code points were read on the way to it. -/
structure Reader where
  bytes : List UInt8
  pos : Nat
  index : Nat
deriving DecidableEq, Repr

namespace Reader

def start (bytes : List UInt8) : Reader := ⟨bytes, 0, 0⟩

/-- The next code point, and the reader after it. -/
def next? (r : Reader) : Option (Nat × Reader) :=
  (read? (r.bytes.drop r.pos)).map fun (c, n) =>
    (c, { r with pos := r.pos + n, index := r.index + 1 })

theorem next?_eq_none {r : Reader} : r.next? = none ↔ r.bytes.length ≤ r.pos := by
  rw [next?, Option.map_eq_none_iff, ← List.drop_eq_nil_iff]
  constructor
  · intro h
    cases hbytes : r.bytes.drop r.pos with
    | nil => rfl
    | cons b bs =>
      obtain ⟨c, n, hread, -⟩ := read?_bounds (hbytes ▸ List.cons_ne_nil b bs)
      rw [h] at hread
      cases hread
  · intro h
    rw [h]
    rfl

/-- A reader gets on by at least one byte, and by one code point. -/
theorem next?_advances {r s : Reader} {c : Nat} (h : r.next? = some (c, s)) :
    c ≤ largest ∧ s.bytes = r.bytes ∧ r.pos < s.pos ∧ s.pos ≤ r.bytes.length ∧
      s.index = r.index + 1 ∧
      decode (r.bytes.drop r.pos) = c :: decode (r.bytes.drop s.pos) := by
  have hpos : r.pos < r.bytes.length := by
    refine Nat.lt_of_not_le fun hle => ?_
    rw [next?_eq_none.2 hle] at h
    cases h
  have hne : r.bytes.drop r.pos ≠ [] := by
    rw [ne_eq, List.drop_eq_nil_iff]
    omega
  obtain ⟨c, n, hread, hone, hlen, hc⟩ := read?_bounds hne
  rw [next?, hread] at h
  cases h
  rw [List.length_drop] at hlen
  refine ⟨hc, rfl, Nat.lt_add_of_pos_right hone, ?_, rfl, ?_⟩
  · change r.pos + n ≤ r.bytes.length
    omega
  · rw [decode_of_read? hread, List.drop_drop]

/-- Reads to the end: the code points, and the reader that stands there. -/
def toEnd (r : Reader) : List Nat × Reader :=
  match _hnext : r.next? with
  | none => ([], r)
  | some (c, s) => (c :: s.toEnd.1, s.toEnd.2)
termination_by r.bytes.length - r.pos
decreasing_by all_goals
  obtain ⟨-, hbytes, hlt, hle, -⟩ := next?_advances _hnext
  rw [hbytes]
  omega

theorem toEnd_of_none {r : Reader} (h : r.next? = none) : r.toEnd = ([], r) := by
  rw [toEnd]
  split
  · rfl
  · next hsome =>
    rw [h] at hsome
    cases hsome

theorem toEnd_of_some {r s : Reader} {c : Nat} (h : r.next? = some (c, s)) :
    r.toEnd = (c :: s.toEnd.1, s.toEnd.2) := by
  rw [toEnd]
  split
  · next hnone =>
    rw [h] at hnone
    cases hnone
  · next hsome =>
    rw [h] at hsome
    cases hsome
    rfl

/-- **Reading to the end gives the code points from the place of the reader, and counts
    them.** -/
theorem toEnd_eq (r : Reader) (h : r.pos ≤ r.bytes.length) :
    r.toEnd = (decode (r.bytes.drop r.pos),
      ⟨r.bytes, r.bytes.length, r.index + (decode (r.bytes.drop r.pos)).length⟩) := by
  induction r using toEnd.induct with
  | case1 r hnone =>
    have hpos : r.pos = r.bytes.length := Nat.le_antisymm h (next?_eq_none.1 hnone)
    rw [toEnd_of_none hnone, ← hpos, List.drop_eq_nil_of_le (Nat.le_of_eq hpos.symm)]
    rfl
  | case2 r c s hsome ih =>
    obtain ⟨-, hbytes, -, hle, hindex, hdecode⟩ := next?_advances hsome
    rw [toEnd_of_some hsome, ih (hbytes ▸ hle), hdecode, hbytes, hindex, List.length_cons,
      Nat.add_assoc, Nat.add_comm 1]

theorem toEnd_start (bytes : List UInt8) :
    (start bytes).toEnd = (decode bytes, ⟨bytes, bytes.length, (decode bytes).length⟩) := by
  have h := toEnd_eq (start bytes) (Nat.zero_le _)
  rwa [start, List.drop_zero, Nat.zero_add] at h

theorem le_largest_of_mem_toEnd (r : Reader) : ∀ c ∈ r.toEnd.1, c ≤ largest := by
  induction r using toEnd.induct with
  | case1 r hnone => simp [toEnd_of_none hnone]
  | case2 r c s hsome ih =>
    rw [toEnd_of_some hsome]
    exact List.forall_mem_cons.2 ⟨(next?_advances hsome).1, ih⟩

end Reader

/-! ### All of it -/

/-- **The codec round-trips and finds its way again.**  Any code points of up to four bytes are
    read from what they are written as, and counted.  Bytes that do not go on with a sequence
    are read as if nothing came before them, and what comes before as if nothing followed.
    From every place before the end, be it within a sequence, a read gets on by at least one
    byte, not past the end, and gives a value that can be written; and what has been read from
    any place on is read again when it is written.  What a reader gives is what `decode` does. -/
theorem reads_what_is_written :
    (∀ cs : List Nat, (∀ c ∈ cs, c ≤ largest) →
      (Reader.start (encodeAll cs)).toEnd =
        (cs, ⟨encodeAll cs, (encodeAll cs).length, cs.length⟩)) ∧
    (∀ a b : List UInt8, Aligned b →
      (Reader.start (a ++ b)).toEnd.1 = (Reader.start a).toEnd.1 ++ (Reader.start b).toEnd.1) ∧
    (∀ r : Reader, r.pos < r.bytes.length →
      ∃ c s, r.next? = some (c, s) ∧ s.bytes = r.bytes ∧ r.pos < s.pos ∧
        s.pos ≤ r.bytes.length ∧ s.index = r.index + 1 ∧ c ≤ largest) ∧
    (∀ r : Reader, (∀ c ∈ r.toEnd.1, c ≤ largest) ∧
      (Reader.start (encodeAll r.toEnd.1)).toEnd.1 = r.toEnd.1) ∧
    ∀ bytes : List UInt8, (Reader.start bytes).toEnd.1 = decode bytes := by
  refine ⟨?_, ?_, ?_, ?_, fun bytes => by rw [Reader.toEnd_start]⟩
  · intro cs hcs
    rw [Reader.toEnd_start, decode_encodeAll hcs]
  · intro a b hb
    simp only [Reader.toEnd_start]
    exact decode_append_of_aligned hb a
  · intro r hr
    cases hnext : r.next? with
    | none => exact absurd (Reader.next?_eq_none.1 hnext) (Nat.not_le.2 hr)
    | some cs =>
      obtain ⟨hc, hbytes, hlt, hle, hindex, -⟩ := Reader.next?_advances hnext
      exact ⟨cs.1, cs.2, rfl, hbytes, hlt, hle, hindex, hc⟩
  · intro r
    have hbound := r.le_largest_of_mem_toEnd
    refine ⟨hbound, ?_⟩
    rw [Reader.toEnd_start]
    exact decode_encodeAll hbound

/-- A surrogate and the largest value; a sequence of three bytes cut before its last; and the
    place in its middle. -/
theorem reads_what_is_written_surrogate :
    ((∀ c ∈ [0xD800, 0x1FFFFF], c ≤ largest) ∧
      (Reader.start (encodeAll [0xD800, 0x1FFFFF])).toEnd.2.index = 2) ∧
    (Aligned [0x61] ∧ (Reader.start ([0xE2, 0x82] ++ [0x61])).toEnd.1 = [replacement, 0x61]) ∧
    ∃ c s, (⟨[0xE2, 0x82], 1, 0⟩ : Reader).next? = some (c, s) ∧ s.pos = 2 := by
  obtain ⟨hwritten, happend, hnext, -, hdecode⟩ := reads_what_is_written
  have hvalues : ∀ c ∈ [0xD800, 0x1FFFFF], c ≤ largest := by decide
  have haligned : Aligned [0x61] := by
    intro b hb
    cases hb
    rfl
  refine ⟨⟨hvalues, ?_⟩, ⟨haligned, ?_⟩, ?_⟩
  · rw [hwritten _ hvalues]
    rfl
  · rw [happend _ _ haligned, hdecode, hdecode]
    decide
  · obtain ⟨c, s, hs, -, hlt, hle, -⟩ := hnext ⟨[0xE2, 0x82], 1, 0⟩ (by decide)
    exact ⟨c, s, hs, Nat.le_antisymm hle hlt⟩

end RichText.Codec
