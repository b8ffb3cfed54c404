import CenDB.Lib.BitFields

/-! # Bit strings, most significant bit first

`bitsOf` lists the bits of a byte string, and `valueBits n x` the low `n` bits of a number.
`bitsOf_toBE` lists the bits of a big-endian word; `foldBits_valueBits` reads a number back. -/

namespace Words

open List Nat

/-- The eight bits of a byte. -/
def byteBits (b : UInt8) : List Bool := (List.range 8).map fun i => b.toNat.testBit (7 - i)

/-- The bits of a byte string. -/
def bitsOf (bytes : List UInt8) : List Bool := bytes.flatMap byteBits

/-- The `n` low bits of a number. -/
def valueBits (n x : ℕ) : List Bool := (List.range n).reverse.map fun i => x.testBit i

/-- The big-endian image of a 64-bit word. -/
def toBE (x : ℕ) : List UInt8 := (toLE 8 x).reverse

theorem length_byteBits (b : UInt8) : (byteBits b).length = 8 := rfl

theorem bitsOf_cons (b : UInt8) (bytes : List UInt8) : bitsOf (b :: bytes) = byteBits b ++ bitsOf bytes := rfl

theorem bitsOf_append (a b : List UInt8) : bitsOf (a ++ b) = bitsOf a ++ bitsOf b := flatMap_append

/-- The bit at a position, read from its byte. -/
theorem getElem?_bitsOf (bytes : List UInt8) (pos : ℕ) :
    (bitsOf bytes)[pos]? = bytes[pos / 8]?.map fun b => b.toNat.testBit (7 - pos % 8) := by
  induction bytes generalizing pos with
  | nil => rfl
  | cons b bytes ih =>
    rw [bitsOf_cons]
    by_cases hpos : pos < 8
    · rw [getElem?_append_left (by rw [length_byteBits]; exact hpos), Nat.div_eq_of_lt hpos, mod_eq_of_lt hpos]
      unfold byteBits
      rw [getElem?_map, getElem?_range hpos]
      rfl
    · rw [getElem?_append_right (by rw [length_byteBits]; omega), length_byteBits, ih]
      have hdiv : pos / 8 = (pos - 8) / 8 + 1 := by omega
      have hmod : pos % 8 = (pos - 8) % 8 := by omega
      rw [hdiv, hmod, getElem?_cons_succ]

theorem valueBits_succ (n x : ℕ) : valueBits (n + 1) x = x.testBit n :: valueBits n x := by
  simp [valueBits, range_succ]

theorem length_valueBits (n x : ℕ) : (valueBits n x).length = n := by simp [valueBits]

theorem byteBits_eq (b : UInt8) : byteBits b = valueBits 8 b.toNat := rfl

/-- The bits of a number above and below a place. -/
theorem valueBits_add (m n x : ℕ) : valueBits (m + n) x = valueBits m (x / 2 ^ n) ++ valueBits n x := by
  induction m with
  | zero => simp [valueBits]
  | succ m ih =>
    rw [Nat.add_right_comm, valueBits_succ, valueBits_succ, ih, cons_append, testBit_div_two_pow]

theorem valueBits_mod (n x : ℕ) : valueBits n (x % 2 ^ n) = valueBits n x := by
  unfold valueBits
  apply map_congr_left
  intro i hi
  rw [mem_reverse, mem_range] at hi
  rw [testBit_mod_two_pow, decide_eq_true hi, Bool.true_and]

/-- The bits of a big-endian image. -/
theorem bitsOf_reverse_toLE (n x : ℕ) : bitsOf (toLE n x).reverse = valueBits (8 * n) x := by
  induction n generalizing x with
  | zero => rfl
  | succ n ih =>
    have hlow : byteBits (UInt8.ofNat x) = valueBits 8 x := by
      rw [byteBits_eq, UInt8.toNat_ofNat']
      exact valueBits_mod 8 x
    rw [toLE, reverse_cons, bitsOf_append, ih, Nat.mul_succ, valueBits_add]
    exact congrArg _ ((append_nil _).trans hlow)

theorem bitsOf_toBE (x : ℕ) : bitsOf (toBE x) = valueBits 64 x := bitsOf_reverse_toLE 8 x

/-- Appending a bit to a number. -/
theorem valueBits_snoc (n q : ℕ) (b : Bool) : valueBits (n + 1) (2 * q + b.toNat) = valueBits n q ++ [b] := by
  have hdiv : (2 * q + b.toNat) / 2 ^ 1 = q := by
    have hb := b.toNat_lt
    omega
  rw [valueBits_add, hdiv]
  congr 1
  cases b with
  | false | true => simp [valueBits]

/-- A number built from its bits, after an accumulator. -/
theorem foldBits_valueBits (n x acc : ℕ) :
    (valueBits n x).foldl (fun v bit => 2 * v + bit.toNat) acc = acc * 2 ^ n + x % 2 ^ n := by
  induction n generalizing acc with
  | zero => simp [valueBits, Nat.mod_one]
  | succ n ih =>
    have hsplit : x % 2 ^ (n + 1) = x % 2 ^ n + 2 ^ n * (x.testBit n).toNat := by
      rw [toNat_testBit, pow_succ, Nat.mod_mul]
    rw [valueBits_succ, foldl_cons, ih, hsplit]
    ring

end Words
