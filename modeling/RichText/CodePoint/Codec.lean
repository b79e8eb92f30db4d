/-
  RichText/CodePoint/Codec.lean
  =============================
  **Code points as bytes: UTF-8 without its upper and surrogate gaps.**

  Every value up to `0x1FFFFF` has an encoding of one to four bytes, surrogates
  among them.  Reading never fails: a byte that starts nothing, and a sequence
  that is cut short, are read as one replacement character, and the reader goes
  on at the first byte that it could not use.

  `decode_append_encode` says that an encoded code point is read back whatever
  follows it, and with it `decode_append_encodeAll` that a whole list is.
-/
import RichText.CodePoint

namespace RichText.Codec

open CodePoint

/-! ### Writing -/

/-- The byte that carries `v` above the bits of its kind. -/
private def byte (kind v : Nat) : UInt8 := UInt8.ofNat (kind + v)

/-- The bytes of a code point. -/
def encode (c : Nat) : List UInt8 :=
  if c < 0x80 then [byte 0 c]
  else if c < 0x800 then [byte 0xC0 (c / 0x40), byte 0x80 (c % 0x40)]
  else if c < 0x10000 then
    [byte 0xE0 (c / 0x1000), byte 0x80 (c / 0x40 % 0x40), byte 0x80 (c % 0x40)]
  else
    [byte 0xF0 (c / 0x40000 % 8), byte 0x80 (c / 0x1000 % 0x40), byte 0x80 (c / 0x40 % 0x40),
      byte 0x80 (c % 0x40)]

def encodeAll (cs : List Nat) : List UInt8 := cs.flatMap encode

/-! ### Reading -/

/-- What a reader has seen of a sequence: nothing, or the bits so far and how many
    continuation bytes are owed after the next one. -/
inductive Pending where
  | none
  | owed (bits : Nat) (more : Nat)
deriving DecidableEq, Repr

/-- The first byte of a sequence: what it completes, and what it leaves pending. -/
def start (b : UInt8) : List Nat × Pending :=
  let n := b.toNat
  if n < 0x80 then ([n], .none)
  else if n < 0xC0 then ([replacement], .none)
  else if n < 0xE0 then ([], .owed (n - 0xC0) 0)
  else if n < 0xF0 then ([], .owed (n - 0xE0) 1)
  else if n < 0xF8 then ([], .owed (n - 0xF0) 2)
  else ([replacement], .none)

def isContinuation (b : UInt8) : Bool := 0x80 ≤ b.toNat && b.toNat < 0xC0

/-- One byte more: what it completes, and what it leaves pending. -/
def step : Pending → UInt8 → List Nat × Pending
  | .none, b => start b
  | .owed bits more, b =>
    if isContinuation b then
      let bits := bits * 0x40 + (b.toNat - 0x80)
      match more with
      | 0 => ([bits], .none)
      | k + 1 => ([], .owed bits k)
    else
      let (out, next) := start b
      (replacement :: out, next)

/-- Reads bytes after those of a pending sequence. -/
def decodeFrom : Pending → List UInt8 → List Nat
  | .none, [] => []
  | .owed _ _, [] => [replacement]
  | p, b :: bs => (step p b).1 ++ decodeFrom (step p b).2 bs

/-- The code points of a byte string. -/
def decode (bs : List UInt8) : List Nat := decodeFrom .none bs

/-! ### Reading what was written -/

@[simp] theorem decodeFrom_cons (p : Pending) (b : UInt8) (bs : List UInt8) :
    decodeFrom p (b :: bs) = (step p b).1 ++ decodeFrom (step p b).2 bs := by
  cases p <;> rfl

@[simp] theorem decode_nil : decode [] = [] := rfl

private theorem toNat_byte {kind v : Nat} (h : kind + v < 256) : (byte kind v).toNat = kind + v := by
  simp only [byte, UInt8.toNat_ofNat']
  omega

private theorem step_tail {v bits more : Nat} (h : v < 0x40) :
    step (.owed bits more) (byte 0x80 v) =
      match more with
      | 0 => ([bits * 0x40 + v], .none)
      | k + 1 => ([], .owed (bits * 0x40 + v) k) := by
  have ht : (byte 0x80 v).toNat = 0x80 + v := toNat_byte (by omega)
  have hc : isContinuation (byte 0x80 v) = true := by
    simp [isContinuation, ht]; omega
  cases more <;> simp [step, hc, ht]

/-- An encoded code point is read back, whatever follows. -/
theorem decode_append_encode {c : Nat} (h : c ≤ largest) (bs : List UInt8) :
    decode (encode c ++ bs) = c :: decode bs := by
  simp only [largest] at h
  unfold decode encode
  split
  · next h1 =>
    have ht : (byte 0 c).toNat = c := by rw [toNat_byte (by omega)]; omega
    simp [step, start, ht, h1]
  split
  · next h1 h2 =>
    have ht : (byte 0xC0 (c / 0x40)).toNat = 0xC0 + c / 0x40 := toNat_byte (by omega)
    have hs : step .none (byte 0xC0 (c / 0x40)) = ([], .owed (c / 0x40) 0) := by
      have h3 : ¬ 0xC0 + c / 0x40 < 0x80 := by omega
      have h4 : ¬ 0xC0 + c / 0x40 < 0xC0 := by omega
      have h5 : 0xC0 + c / 0x40 < 0xE0 := by omega
      simp only [step, start, ht, if_neg h3, if_neg h4, if_pos h5, Nat.add_sub_cancel_left]
    have hv : c / 0x40 * 0x40 + c % 0x40 = c := by omega
    simp only [List.cons_append, List.nil_append, decodeFrom_cons, hs,
      step_tail (Nat.mod_lt c (by decide : 0 < 0x40)), hv]
  split
  · next h1 h2 h3 =>
    have ht : (byte 0xE0 (c / 0x1000)).toNat = 0xE0 + c / 0x1000 := toNat_byte (by omega)
    have hs : step .none (byte 0xE0 (c / 0x1000)) = ([], .owed (c / 0x1000) 1) := by
      have h4 : ¬ 0xE0 + c / 0x1000 < 0x80 := by omega
      have h5 : ¬ 0xE0 + c / 0x1000 < 0xC0 := by omega
      have h6 : ¬ 0xE0 + c / 0x1000 < 0xE0 := by omega
      have h7 : 0xE0 + c / 0x1000 < 0xF0 := by omega
      simp only [step, start, ht, if_neg h4, if_neg h5, if_neg h6, if_pos h7,
        Nat.add_sub_cancel_left]
    have hv : (c / 0x1000 * 0x40 + c / 0x40 % 0x40) * 0x40 + c % 0x40 = c := by omega
    simp only [List.cons_append, List.nil_append, decodeFrom_cons, hs,
      step_tail (Nat.mod_lt c (by decide : 0 < 0x40)),
      step_tail (Nat.mod_lt (c / 0x40) (by decide : 0 < 0x40)), hv]
  · next h1 h2 h3 =>
    have h0 : c / 0x40000 % 8 = c / 0x40000 := by omega
    have ht : (byte 0xF0 (c / 0x40000)).toNat = 0xF0 + c / 0x40000 := toNat_byte (by omega)
    have hs : step .none (byte 0xF0 (c / 0x40000)) = ([], .owed (c / 0x40000) 2) := by
      have h4 : ¬ 0xF0 + c / 0x40000 < 0x80 := by omega
      have h5 : ¬ 0xF0 + c / 0x40000 < 0xC0 := by omega
      have h6 : ¬ 0xF0 + c / 0x40000 < 0xE0 := by omega
      have h7 : ¬ 0xF0 + c / 0x40000 < 0xF0 := by omega
      have h8 : 0xF0 + c / 0x40000 < 0xF8 := by omega
      simp only [step, start, ht, if_neg h4, if_neg h5, if_neg h6, if_neg h7, if_pos h8,
        Nat.add_sub_cancel_left]
    have hv : ((c / 0x40000 * 0x40 + c / 0x1000 % 0x40) * 0x40 + c / 0x40 % 0x40) * 0x40
        + c % 0x40 = c := by omega
    simp only [h0, List.cons_append, List.nil_append, decodeFrom_cons, hs,
      step_tail (Nat.mod_lt c (by decide : 0 < 0x40)),
      step_tail (Nat.mod_lt (c / 0x40) (by decide : 0 < 0x40)),
      step_tail (Nat.mod_lt (c / 0x1000) (by decide : 0 < 0x40)), hv]

/-- A list of code points is read back from its bytes, whatever follows. -/
theorem decode_append_encodeAll {cs : List Nat} (h : ∀ c ∈ cs, c ≤ largest)
    (bs : List UInt8) : decode (encodeAll cs ++ bs) = cs ++ decode bs := by
  induction cs with
  | nil => rfl
  | cons c cs ih =>
    have hc := h c List.mem_cons_self
    have hcs : ∀ d ∈ cs, d ≤ largest := fun d hd => h d (List.mem_cons_of_mem c hd)
    simp only [encodeAll, List.flatMap_cons, List.append_assoc, List.cons_append]
    rw [decode_append_encode hc, ← ih hcs]
    rfl

end RichText.Codec
