import CenDB.Storage.Dictionary

/-! # Gorilla compression

Every value is written as its XOR with the one before.  What is not zero goes into the last window if it
fits there, and otherwise opens a window of its own, whose leading zeros are written in five bits.

Both sides carry the window from value to value.  They agree as long as every window that is opened has at
most 30 leading zeros or exactly 32: 31 and everything from 33 on is read as 32 (`gorillaDecode_gorillaEncode_iff`). -/

namespace CenDB.Storage

open Words List

/-- `leading_zeros` of a word. -/
def leadingZeros (x : UInt64) : UInt32 := UInt32.ofNat (64 - x.toNat.size)

/-- `trailing_zeros` of a word. -/
def trailingZeros (x : UInt64) : UInt32 := UInt32.ofNat ((List.range 64).findIdx fun i => x.toNat.testBit i)

/-- The block of the last XOR that was written with its own bounds. -/
structure Window where
  leading : UInt32
  trailing : UInt32
deriving DecidableEq, Repr

namespace Window

/-- `i64::MAX as u32` leading zeros, which nothing has. -/
def start : Window := ⟨0xFFFFFFFF, 0⟩

/-- The XOR has no bit outside the window. -/
def fits (w : Window) (xor : UInt64) : Bool := w.leading ≤ leadingZeros xor && w.trailing ≤ trailingZeros xor

def meaningful (w : Window) : UInt32 := 64 - w.leading - w.trailing

end Window

/-! ### The encoder -/

structure GorillaEncoder where
  writer : BitWriter
  prev : UInt64
  window : Window

namespace GorillaEncoder

def start (first : UInt64) : GorillaEncoder := ⟨BitWriter.new.writeBits first 64, first, Window.start⟩

/-- A XOR that is not zero, with a window of its own. -/
def writeWindow (writer : BitWriter) (xor : UInt64) : BitWriter :=
  let leading := leadingZeros xor
  let trailing := trailingZeros xor
  let writer := if 32 ≤ leading then writer.writeBits 31 5 else writer.writeBits leading.toUInt64 5
  let meaningful := 64 - leading - trailing
  if 0 < meaningful then
    (writer.writeBits meaningful.toUInt64 6).writeBits (xor >>> trailing.toUInt64) meaningful.toNat
  else (writer.writeBits 1 6).writeBits 0 1

def write (s : GorillaEncoder) (v : Int64) : GorillaEncoder :=
  let cur := v.toUInt64
  let xor := s.prev ^^^ cur
  if xor = 0 then ⟨s.writer.writeBit false, cur, s.window⟩
  else
    let writer := s.writer.writeBit true
    if s.window.fits xor then
      ⟨(writer.writeBit false).writeBits (xor >>> s.window.trailing.toUInt64) s.window.meaningful.toNat, cur, s.window⟩
    else ⟨writeWindow (writer.writeBit true) xor, cur, ⟨leadingZeros xor, trailingZeros xor⟩⟩

end GorillaEncoder

def gorillaEncode : List Int64 → List UInt8
  | [] => BitWriter.new.intoBytes
  | v :: vals => (vals.foldl GorillaEncoder.write (GorillaEncoder.start v.toUInt64)).writer.intoBytes

/-! ### The decoder -/

/-- What was read, or an error at the end of the bytes. -/
def orCorrupt {α : Type} (message : String) : Option α → Except Halt α
  | some a => .ok a
  | none => .error (corrupt message)

namespace GorillaDecoder

/-- The number of bits of the next XOR, and its window. -/
def readWindow (bytes : List UInt8) (window : Window) (bitPos : ℕ) : Except Halt (UInt32 × Window × ℕ) := do
  let bit ← orCorrupt "Gorilla: truncated" (readBit bytes bitPos)
  if bit then do
    let (leading, bitPos) ← orCorrupt "Gorilla: short leading" (readBits bytes (bitPos + 1) 5 0)
    let leading := if leading.toUInt32 = 31 then 32 else leading.toUInt32
    let (meaningful, bitPos) ← orCorrupt "Gorilla: short meaningful" (readBits bytes bitPos 6 0)
    let meaningful := if meaningful.toUInt32 = 0 then 64 - leading - leading else meaningful.toUInt32
    return (meaningful, ⟨leading, 64 - leading - meaningful⟩, bitPos)
  else return (window.meaningful, window, bitPos + 1)

/-- The next value, and the window and the place after it. -/
def readValue (bytes : List UInt8) (prev : UInt64) (window : Window) (bitPos : ℕ) :
    Except Halt (UInt64 × Window × ℕ) := do
  let bit ← orCorrupt "Gorilla: truncated" (readBit bytes bitPos)
  if bit then do
    let (meaningful, window, bitPos) ← readWindow bytes window (bitPos + 1)
    if meaningful = 0 ∨ 64 < meaningful then return (prev, window, bitPos)
    else do
      let (xorMeaningful, bitPos) ← orCorrupt "Gorilla: short xor" (readBits bytes bitPos meaningful.toNat 0)
      let xor := if window.trailing < 64 then xorMeaningful <<< window.trailing.toUInt64 else 0
      return (prev ^^^ xor, window, bitPos)
  else return (prev, window, bitPos + 1)

def readValues (bytes : List UInt8) : ℕ → UInt64 → Window → ℕ → Except Halt (List Int64)
  | 0, _, _, _ => return []
  | count + 1, prev, window, bitPos => do
    let (cur, window, bitPos) ← readValue bytes prev window bitPos
    let vals ← readValues bytes count cur window bitPos
    return cur.toInt64 :: vals

end GorillaDecoder

def gorillaDecode (bytes : List UInt8) (count : ℕ) : Except Halt (List Int64) :=
  if count = 0 then .ok []
  else do
    let (first, bitPos) ← orCorrupt "Gorilla: short first value" (readBits bytes 0 64 0)
    let vals ← GorillaDecoder.readValues bytes (count - 1) first Window.start bitPos
    return first.toInt64 :: vals

/-! ### Windows -/

theorem toNat_leadingZeros (x : UInt64) : (leadingZeros x).toNat = 64 - x.toNat.size :=
  Nat.mod_eq_of_lt (by omega)

theorem lt_of_leadingZeros (x : UInt64) : x.toNat < 2 ^ (64 - (leadingZeros x).toNat) := by
  have hsize : x.toNat.size ≤ 64 := Nat.size_le.mpr x.toNat_lt
  rw [toNat_leadingZeros, Nat.sub_sub_self hsize]
  exact Nat.lt_size_self x.toNat

theorem toNat_trailingZeros (x : UInt64) :
    (trailingZeros x).toNat = (List.range 64).findIdx fun i => x.toNat.testBit i := by
  have hle : (List.range 64).findIdx (fun i => x.toNat.testBit i) ≤ (List.range 64).length := findIdx_le_length
  rw [length_range] at hle
  exact Nat.mod_eq_of_lt (by omega)

theorem dvd_of_trailingZeros (x : UInt64) : 2 ^ (trailingZeros x).toNat ∣ x.toNat := by
  rw [toNat_trailingZeros]
  apply Nat.dvd_of_mod_eq_zero
  apply Nat.eq_of_testBit_eq
  intro i
  rw [Nat.testBit_mod_two_pow, Nat.zero_testBit, Bool.and_eq_false_iff, decide_eq_false_iff_not]
  by_cases hi : i < (List.range 64).findIdx fun i => x.toNat.testBit i
  · have hnot := not_of_lt_findIdx hi
    rw [getElem_range] at hnot
    exact Or.inr (by simpa using hnot)
  · exact Or.inl hi

namespace Window

/-- The window of a XOR of its own. -/
def own (x : UInt64) : Window := ⟨leadingZeros x, trailingZeros x⟩

/-- Five bits are enough for the leading zeros. -/
def Kept (w : Window) : Prop := w.leading ≤ 30 ∨ w.leading = 32

/-- The window after a XOR. -/
def next (w : Window) (x : UInt64) : Window := if x = 0 ∨ w.fits x then w else own x

/-- The word has no bit outside the window. -/
structure Covers (w : Window) (x : UInt64) : Prop where
  narrow : w.leading.toNat + w.trailing.toNat < 64
  lt : x.toNat < 2 ^ (64 - w.leading.toNat)
  dvd : 2 ^ w.trailing.toNat ∣ x.toNat

variable {x : UInt64}

theorem own_covers (hx : x ≠ 0) : (own x).Covers x where
  narrow := by
    have hpos : 0 < x.toNat := Nat.pos_of_ne_zero fun h => hx (UInt64.toNat_inj.mp h)
    have hle := Nat.le_of_dvd hpos (dvd_of_trailingZeros x)
    have hlt := (Nat.pow_lt_pow_iff_right one_lt_two).mp (hle.trans_lt (lt_of_leadingZeros x))
    dsimp only [own]
    omega
  lt := lt_of_leadingZeros x
  dvd := dvd_of_trailingZeros x

variable {w : Window} {t : UInt32}

theorem covers_of_fits (hx : x ≠ 0) (h : w.fits x = true) : w.Covers x := by
  rw [fits, Bool.and_eq_true, decide_eq_true_iff, decide_eq_true_iff, UInt32.le_iff_toNat_le,
    UInt32.le_iff_toNat_le] at h
  obtain ⟨hnarrow, hlt, hdvd⟩ := own_covers hx
  refine ⟨?_, ?_, ?_⟩
  · dsimp only [own] at hnarrow
    omega
  · exact hlt.trans_le (Nat.pow_le_pow_right two_pos (Nat.sub_le_sub_left h.1 64))
  · exact (Nat.pow_dvd_pow 2 h.2).trans hdvd

/-- The bits between the leading and the trailing zeros. -/
theorem toNat_sub_sub {l : UInt32} (h : l.toNat + t.toNat ≤ 64) :
    (64 - l - t).toNat = 64 - l.toNat - t.toNat := by
  have h64 : (64 : UInt32).toNat = 64 := rfl
  have hl : (64 - l).toNat = 64 - l.toNat := by
    rw [UInt32.toNat_sub_of_le _ _ (by rw [UInt32.le_iff_toNat_le]; omega), h64]
  rw [UInt32.toNat_sub_of_le _ _ (by rw [UInt32.le_iff_toNat_le]; omega), hl]

theorem Covers.toNat_meaningful (h : w.Covers x) :
    w.meaningful.toNat = 64 - w.leading.toNat - w.trailing.toNat := toNat_sub_sub h.narrow.le

theorem toNat_shiftRight_trailing (x : UInt64) (ht : t.toNat < 64) :
    (x >>> t.toUInt64).toNat = x.toNat / 2 ^ t.toNat := by
  rw [UInt64.toNat_shiftRight, UInt32.toNat_toUInt64, Nat.mod_eq_of_lt ht, Nat.shiftRight_eq_div_pow]

theorem toNat_shiftLeft_trailing (y : UInt64) (ht : t.toNat < 64) :
    (y <<< t.toUInt64).toNat = y.toNat * 2 ^ t.toNat % 2 ^ 64 := by
  rw [UInt64.toNat_shiftLeft, UInt32.toNat_toUInt64, Nat.mod_eq_of_lt ht, Nat.shiftLeft_eq]

/-- The bits of the window are the whole word. -/
theorem Covers.div_lt (h : w.Covers x) : x.toNat / 2 ^ w.trailing.toNat < 2 ^ w.meaningful.toNat := by
  have hnarrow := h.narrow
  have hsum : 64 - w.leading.toNat - w.trailing.toNat + w.trailing.toNat = 64 - w.leading.toNat := by omega
  rw [h.toNat_meaningful]
  apply Nat.div_lt_of_lt_mul
  rw [← Nat.pow_add, Nat.add_comm, hsum]
  exact h.lt

end Window

/-! ### What the encoder writes -/

/-- What the five bits of a window say of its leading zeros. -/
def fiveBits (leading : UInt32) : UInt32 := if 32 ≤ leading then 31 else leading

/-- The bits of a XOR behind a window. -/
def Window.code (w : Window) (x : UInt64) : List Bool :=
  let own := Window.own x
  if x = 0 then [false]
  else if w.fits x then
    [true, false] ++ valueBits w.meaningful.toNat (x >>> w.trailing.toUInt64).toNat
  else
    [true, true] ++ (valueBits 5 (fiveBits own.leading).toNat ++ (valueBits 6 own.meaningful.toNat ++
      valueBits own.meaningful.toNat (x >>> own.trailing.toUInt64).toNat))

variable {w : Window} {x : UInt64} {bits : List Bool} {s : GorillaEncoder}

theorem Window.Covers.trailing_lt (h : w.Covers x) : w.trailing.toNat < 64 := by
  have hnarrow := h.narrow
  omega

theorem Window.Covers.meaningful_pos (h : w.Covers x) : 0 < w.meaningful.toNat ∧ w.meaningful.toNat ≤ 64 := by
  have hnarrow := h.narrow
  rw [h.toNat_meaningful]
  omega

theorem GorillaEncoder.wrote_writeWindow {writer : BitWriter} (h : writer.Wrote bits) (hx : x ≠ 0) :
    (writeWindow writer x).Wrote
      (bits ++ (valueBits 5 (fiveBits (Window.own x).leading).toNat ++ (valueBits 6 (Window.own x).meaningful.toNat ++
        valueBits (Window.own x).meaningful.toNat (x >>> (Window.own x).trailing.toUInt64).toNat))) := by
  obtain ⟨hpos, hle⟩ := (Window.own_covers hx).meaningful_pos
  have hfive : (if 32 ≤ leadingZeros x then writer.writeBits 31 5
      else writer.writeBits (leadingZeros x).toUInt64 5).Wrote (bits ++ valueBits 5 (fiveBits (leadingZeros x)).toNat) := by
    unfold fiveBits
    split
    · exact h.writeBits 31 (by decide)
    · exact h.writeBits _ (by decide)
  have hall := (hfive.writeBits (Window.own x).meaningful.toUInt64 (show 6 ≤ 64 by decide)).writeBits
    (x >>> (Window.own x).trailing.toUInt64) hle
  rw [UInt32.toNat_toUInt64, append_assoc, append_assoc] at hall
  have hmeaningful : 0 < 64 - leadingZeros x - trailingZeros x := UInt32.lt_iff_toNat_lt.mpr hpos
  unfold writeWindow
  dsimp only
  rw [if_pos hmeaningful]
  exact hall

/-- **What one value adds to the bits.** -/
theorem GorillaEncoder.write_spec (h : s.writer.Wrote bits) (v : Int64) :
    (s.write v).writer.Wrote (bits ++ s.window.code (s.prev ^^^ v.toUInt64)) ∧ (s.write v).prev = v.toUInt64 ∧
      (s.write v).window = s.window.next (s.prev ^^^ v.toUInt64) := by
  unfold write Window.code Window.next
  dsimp only
  by_cases hx : s.prev ^^^ v.toUInt64 = 0
  · rw [if_pos hx, if_pos hx, if_pos (Or.inl hx)]
    exact ⟨h.writeBit false, rfl, rfl⟩
  · by_cases hfits : s.window.fits (s.prev ^^^ v.toUInt64) = true
    · have hle := (Window.covers_of_fits hx hfits).meaningful_pos.2
      have hwrote := ((h.writeBit true).writeBit false).writeBits
        ((s.prev ^^^ v.toUInt64) >>> s.window.trailing.toUInt64) hle
      rw [if_neg hx, if_pos hfits, if_neg hx, if_pos hfits, if_pos (Or.inr hfits)]
      rw [append_assoc, append_assoc, singleton_append] at hwrote
      exact ⟨hwrote, rfl, rfl⟩
    · have hwrote := wrote_writeWindow ((h.writeBit true).writeBit true) hx
      rw [if_neg hx, if_neg hfits, if_neg hx, if_neg hfits, if_neg (by tauto)]
      rw [append_assoc bits, append_assoc bits, singleton_append] at hwrote
      exact ⟨hwrote, rfl, rfl⟩

/-- The bits of the values behind a value. -/
def gorillaBits (w : Window) (prev : UInt64) : List Int64 → List Bool
  | [] => []
  | v :: vals => w.code (prev ^^^ v.toUInt64) ++ gorillaBits (w.next (prev ^^^ v.toUInt64)) v.toUInt64 vals

theorem wrote_foldl (h : s.writer.Wrote bits) (vals : List Int64) :
    (vals.foldl GorillaEncoder.write s).writer.Wrote (bits ++ gorillaBits s.window s.prev vals) := by
  induction vals generalizing s bits with
  | nil =>
    rw [gorillaBits, append_nil]
    exact h
  | cons v vals ih =>
    obtain ⟨hwrote, hprev, hwindow⟩ := GorillaEncoder.write_spec h v
    have hrest := ih hwrote
    rw [hprev, hwindow, append_assoc] at hrest
    exact hrest

/-- **The bits of a list: its first value, and the XORs behind it.** -/
theorem bits_gorillaEncode (v : Int64) (vals : List Int64) :
    valueBits 64 v.toUInt64.toNat ++ gorillaBits Window.start v.toUInt64 vals <+: bitsOf (gorillaEncode (v :: vals)) := by
  have hfirst := BitWriter.Wrote.new.writeBits v.toUInt64 (le_refl 64)
  rw [List.nil_append] at hfirst
  rw [gorillaEncode, GorillaEncoder.start]
  generalize BitWriter.new.writeBits v.toUInt64 64 = writer at hfirst ⊢
  exact (wrote_foldl (s := ⟨writer, v.toUInt64, Window.start⟩) hfirst vals).intoBytes

/-! ### What the decoder reads -/

section reading

variable {bytes : List UInt8} {bitPos : ℕ} {rest : List Bool}

theorem readBit_of_prefix {b : Bool} (h : b :: rest <+: (bitsOf bytes).drop bitPos) :
    readBit bytes bitPos = some b ∧ rest <+: (bitsOf bytes).drop (bitPos + 1) := by
  obtain ⟨more, hmore⟩ := h
  constructor
  · have hat := congrArg (·[0]?) hmore
    simp only [cons_append, getElem?_cons_zero, getElem?_drop, Nat.add_zero] at hat
    rw [readBit_eq, ← hat]
  · refine ⟨more, ?_⟩
    rw [← drop_drop, ← hmore]
    rfl

theorem readBits_of_prefix {n x : ℕ} (hn : n ≤ 64) (h : valueBits n x ++ rest <+: (bitsOf bytes).drop bitPos) :
    ∃ v, readBits bytes bitPos n 0 = some (v, bitPos + n) ∧ v.toNat = x % 2 ^ n ∧
      rest <+: (bitsOf bytes).drop (bitPos + n) := by
  obtain ⟨v, hread, hv⟩ := readBits_eq (v := 0) (k := 0) ((prefix_append _ _).trans h) (by decide) (by omega)
  obtain ⟨more, hmore⟩ := h
  refine ⟨v, hread, ?_, more, ?_⟩
  · have hzero : (0 : UInt64).toNat = 0 := rfl
    rw [hv, hzero, Nat.zero_mul, Nat.zero_add]
  · rw [← drop_drop, ← hmore, append_assoc, drop_left' (length_valueBits n x)]

/-- The bits of a window that covers a word. -/
theorem readBits_window {w : Window} {x : UInt64} (hw : w.Covers x)
    (h : valueBits w.meaningful.toNat (x >>> w.trailing.toUInt64).toNat ++ rest <+: (bitsOf bytes).drop bitPos) :
    ∃ y, readBits bytes bitPos w.meaningful.toNat 0 = some (y, bitPos + w.meaningful.toNat) ∧
      y.toNat = x.toNat / 2 ^ w.trailing.toNat ∧ rest <+: (bitsOf bytes).drop (bitPos + w.meaningful.toNat) := by
  obtain ⟨y, hread, hy, hrest⟩ := readBits_of_prefix hw.meaningful_pos.2 h
  rw [Window.toNat_shiftRight_trailing x hw.trailing_lt, Nat.mod_eq_of_lt hw.div_lt] at hy
  exact ⟨y, hread, hy, hrest⟩

end reading

theorem xor_xor_self (a b : UInt64) : a ^^^ (a ^^^ b) = b := by
  rw [← UInt64.xor_assoc, UInt64.xor_self, UInt64.zero_xor]

theorem xor_left_inj {a b c : UInt64} (h : a ^^^ b = a ^^^ c) : b = c := by
  rw [← xor_xor_self a b, h, xor_xor_self]

namespace GorillaDecoder

/-- The leading zeros of a window as they are read back. -/
def readBack (leading : UInt32) : UInt32 := if fiveBits leading = 31 then 32 else fiveBits leading

/-- The XOR as it is put together. -/
def placed (trailing : UInt32) (y : UInt64) : UInt64 := if trailing < 64 then y <<< trailing.toUInt64 else 0

theorem fiveBits_lt (leading : UInt32) : (fiveBits leading).toNat < 32 := by
  have h32 : (32 : UInt32).toNat = 32 := rfl
  unfold fiveBits
  split
  · decide
  · rename_i hlt
    rw [UInt32.le_iff_toNat_le] at hlt
    omega

variable {w : Window}

theorem readBack_of_kept (h : w.Kept) : readBack w.leading = w.leading := by
  unfold readBack fiveBits
  rcases h with hle | heq
  · have hlt : ¬32 ≤ w.leading := fun h32 => absurd (UInt32.le_trans h32 hle) (by decide)
    have hne : w.leading ≠ 31 := fun h31 => absurd (h31 ▸ hle) (by decide)
    rw [if_neg hlt, if_neg hne]
  · rw [heq]
    rfl

theorem readBack_of_not_kept (h : ¬w.Kept) :
    readBack w.leading = 32 ∧ w.leading ≠ 32 ∧ 31 ≤ w.leading.toNat := by
  rw [Window.Kept, not_or, UInt32.le_iff_toNat_le] at h
  have h30 : (30 : UInt32).toNat = 30 := rfl
  have h32 : (32 : UInt32).toNat = 32 := rfl
  refine ⟨?_, h.2, by omega⟩
  unfold readBack fiveBits
  split
  · rfl
  · rename_i hlt
    rw [UInt32.le_iff_toNat_le] at hlt
    have h31 : w.leading = 31 := UInt32.toNat_inj.mp (show w.leading.toNat = 31 by omega)
    rw [if_pos h31]

section values

variable {bytes : List UInt8} {bitPos : ℕ} {rest : List Bool} {x : UInt64}

variable {w : Window}

variable {y : UInt64}

/-- A word that is covered is put back. -/
theorem placed_eq (hw : w.Covers x) (hy : y.toNat = x.toNat / 2 ^ w.trailing.toNat) :
    placed w.trailing y = x := by
  unfold placed
  rw [if_pos (UInt32.lt_iff_toNat_lt.mpr hw.trailing_lt)]
  apply UInt64.toNat_inj.mp
  rw [Window.toNat_shiftLeft_trailing y hw.trailing_lt, hy, Nat.div_mul_cancel hw.dvd, Nat.mod_eq_of_lt x.toNat_lt]

/-- A word whose window was read with other leading zeros is put in another place, or lost. -/
theorem placed_ne (hx : x ≠ 0) (hbad : ¬(Window.own x).Kept)
    (hy : y.toNat = x.toNat / 2 ^ (Window.own x).trailing.toNat) :
    placed (64 - 32 - (Window.own x).meaningful) y ≠ x := by
  have hw := Window.own_covers hx
  obtain ⟨-, hne, hle⟩ := readBack_of_not_kept hbad
  have hm := hw.toNat_meaningful
  have hnarrow := hw.narrow
  have hlt := hw.div_lt
  have hdvd := Nat.div_mul_cancel hw.dvd
  have hpos : 0 < x.toNat := Nat.pos_of_ne_zero fun h => hx (UInt64.toNat_inj.mp h)
  have h32 : (32 : UInt32).toNat = 32 := rfl
  have hne32 : (Window.own x).leading.toNat ≠ 32 := fun h => hne (UInt32.toNat_inj.mp h)
  rw [← hy] at hlt hdvd
  intro heq
  unfold placed at heq
  split at heq
  · rename_i hsmall
    by_cases hm32 : (Window.own x).meaningful.toNat ≤ 32
    · have ht : (64 - 32 - (Window.own x).meaningful).toNat = 32 - (Window.own x).meaningful.toNat :=
        Window.toNat_sub_sub (by omega)
      have hshift := congrArg UInt64.toNat heq
      have hfits : y.toNat * 2 ^ (32 - (Window.own x).meaningful.toNat) < 2 ^ 64 := by
        calc y.toNat * 2 ^ (32 - (Window.own x).meaningful.toNat)
            < 2 ^ (Window.own x).meaningful.toNat * 2 ^ (32 - (Window.own x).meaningful.toNat) :=
              Nat.mul_lt_mul_of_pos_right hlt (Nat.two_pow_pos _)
          _ = 2 ^ 32 := by rw [← Nat.pow_add, Nat.add_sub_cancel' hm32]
          _ < 2 ^ 64 := by decide
      rw [Window.toNat_shiftLeft_trailing y (by omega), ht, Nat.mod_eq_of_lt hfits] at hshift
      have hy0 : 0 < y.toNat := by
        rw [← hdvd] at hpos
        exact Nat.pos_of_mul_pos_right hpos
      have hexp := Nat.pow_right_injective le_rfl (Nat.eq_of_mul_eq_mul_left hy0 (hshift.trans hdvd.symm))
      omega
    · -- 31 leading zeros and none behind
      have h33 : (Window.own x).meaningful = 33 :=
        UInt32.toNat_inj.mp (show (Window.own x).meaningful.toNat = 33 by omega)
      rw [h33] at hsmall
      exact absurd hsmall (by decide)
  · rw [← heq] at hpos
    exact absurd hpos (by decide)

/-- A window of its own is read with its number of bits. -/
theorem readWindow_own (w : Window) (hx : x ≠ 0)
    (h : true :: (valueBits 5 (fiveBits (Window.own x).leading).toNat ++
      (valueBits 6 (Window.own x).meaningful.toNat ++ rest)) <+: (bitsOf bytes).drop bitPos) :
    ∃ bitPos', readWindow bytes w bitPos = .ok ((Window.own x).meaningful,
        ⟨readBack (Window.own x).leading, 64 - readBack (Window.own x).leading - (Window.own x).meaningful⟩, bitPos') ∧
      rest <+: (bitsOf bytes).drop bitPos' := by
  have hw := Window.own_covers hx
  have hm := hw.toNat_meaningful
  have hm64 := hw.meaningful_pos
  obtain ⟨hbit, h⟩ := readBit_of_prefix h
  obtain ⟨a, hleading, ha, h⟩ := readBits_of_prefix (by decide) h
  obtain ⟨b, hmeaningful, hb, h⟩ := readBits_of_prefix (by decide) h
  have hfive : a.toUInt32 = fiveBits (Window.own x).leading := by
    apply UInt32.toNat_inj.mp
    have hlt := fiveBits_lt (Window.own x).leading
    rw [UInt64.toNat_toUInt32, ha]
    omega
  have hsix : (if b.toUInt32 = 0 then 64 - readBack (Window.own x).leading - readBack (Window.own x).leading
      else b.toUInt32) = (Window.own x).meaningful := by
    have hb' : b.toUInt32.toNat = (Window.own x).meaningful.toNat % 64 := by
      rw [UInt64.toNat_toUInt32, hb]
      omega
    by_cases hfull : (Window.own x).meaningful.toNat = 64
    · -- the whole word: six bits hold none of its 64
      have hzero : b.toUInt32 = 0 := UInt32.toNat_inj.mp (by rw [hb', hfull]; rfl)
      have hnone : (Window.own x).leading = 0 :=
        UInt32.toNat_inj.mp (show (Window.own x).leading.toNat = 0 by omega)
      rw [if_pos hzero, hnone]
      exact UInt32.toNat_inj.mp hfull.symm
    · have hsame : b.toUInt32 = (Window.own x).meaningful := by
        apply UInt32.toNat_inj.mp
        rw [hb', Nat.mod_eq_of_lt (by omega)]
      have hne : b.toUInt32 ≠ 0 := fun hzero => by
        rw [hsame] at hzero
        have hpos := hm64.1
        rw [hzero] at hpos
        exact absurd hpos (by decide)
      rw [if_neg hne, hsame]
  refine ⟨_, ?_, h⟩
  rw [readWindow, hbit]
  simp only [orCorrupt, bind, Except.bind, if_true, hleading, hmeaningful, hfive]
  rw [readBack] at hsix
  rw [readBack, hsix]
  rfl

/-- The next value, once its window is known. -/
theorem readValue_window {w' : Window} {prev : UInt64} {m : UInt32} {bitPos' : ℕ} {bitPos'' : ℕ}
    (hbit : readBit bytes bitPos = some true) (hwindow : readWindow bytes w (bitPos + 1) = .ok (m, w', bitPos'))
    (hm : 0 < m.toNat ∧ m.toNat ≤ 64) (hread : readBits bytes bitPos' m.toNat 0 = some (y, bitPos'')) :
    readValue bytes prev w bitPos = .ok (prev ^^^ placed w'.trailing y, w', bitPos'') := by
  have hgood : ¬(m = 0 ∨ 64 < m) := by
    rw [not_or, UInt32.lt_iff_toNat_lt]
    refine ⟨fun hzero => ?_, Nat.not_lt.mpr hm.2⟩
    rw [hzero] at hm
    exact absurd hm.1 (by decide)
  rw [readValue, hbit]
  simp only [orCorrupt, bind, Except.bind, if_true, hwindow, hread]
  rw [if_neg hgood]
  rfl

/-- **A value is read back from its bits** if it opens no window, or one whose leading zeros fit. -/
theorem readValue_eq (prev : UInt64) (h : w.code x ++ rest <+: (bitsOf bytes).drop bitPos)
    (hx : x = 0 ∨ w.fits x = true ∨ (Window.own x).Kept) :
    ∃ bitPos', readValue bytes prev w bitPos = .ok (prev ^^^ x, w.next x, bitPos') ∧
      rest <+: (bitsOf bytes).drop bitPos' := by
  unfold Window.code at h
  unfold Window.next
  dsimp only at h
  by_cases hzero : x = 0
  · rw [if_pos hzero] at h
    obtain ⟨hbit, h⟩ := readBit_of_prefix h
    refine ⟨_, ?_, h⟩
    rw [readValue, hbit, hzero, UInt64.xor_zero]
    rfl
  · rw [if_neg hzero] at h
    by_cases hfits : w.fits x = true
    · rw [if_pos hfits, append_assoc] at h
      have hw := Window.covers_of_fits hzero hfits
      obtain ⟨hbit, h⟩ := readBit_of_prefix h
      obtain ⟨hbit', h⟩ := readBit_of_prefix h
      obtain ⟨y, hread, hy, hrest⟩ := readBits_window hw h
      have hwindow : readWindow bytes w (bitPos + 1) = .ok (w.meaningful, w, bitPos + 1 + 1) := by
        rw [readWindow, hbit']
        rfl
      refine ⟨_, ?_, hrest⟩
      rw [readValue_window hbit hwindow hw.meaningful_pos hread, placed_eq hw hy, if_pos (Or.inr hfits)]
    · rw [if_neg hfits, append_assoc, append_assoc, append_assoc] at h
      have hkept : (Window.own x).Kept := (hx.resolve_left hzero).resolve_left hfits
      have hw := Window.own_covers hzero
      obtain ⟨hbit, h⟩ := readBit_of_prefix h
      obtain ⟨bitPos', hwindow, h⟩ := readWindow_own w hzero h
      obtain ⟨y, hread, hy, hrest⟩ := readBits_window hw h
      have hback : (⟨readBack (Window.own x).leading, 64 - readBack (Window.own x).leading -
          (Window.own x).meaningful⟩ : Window) = Window.own x := by
        have htrailing : 64 - (Window.own x).leading - (Window.own x).meaningful = (Window.own x).trailing := by
          unfold Window.meaningful
          grind
        rw [readBack_of_kept hkept, htrailing]
      rw [hback] at hwindow
      refine ⟨_, ?_, hrest⟩
      rw [readValue_window hbit hwindow hw.meaningful_pos hread, placed_eq hw hy, if_neg (by tauto)]

/-- **A value that opens another window is read as another one.** -/
theorem readValue_ne (prev : UInt64) (h : w.code x ++ rest <+: (bitsOf bytes).drop bitPos) (hx : x ≠ 0)
    (hfits : w.fits x ≠ true) (hbad : ¬(Window.own x).Kept) :
    ∃ y w' bitPos', readValue bytes prev w bitPos = .ok (prev ^^^ y, w', bitPos') ∧ y ≠ x := by
  unfold Window.code at h
  dsimp only at h
  rw [if_neg hx, if_neg hfits, append_assoc, append_assoc, append_assoc] at h
  have hw := Window.own_covers hx
  obtain ⟨hbit, h⟩ := readBit_of_prefix h
  obtain ⟨bitPos', hwindow, h⟩ := readWindow_own w hx h
  obtain ⟨y, hread, hy, -⟩ := readBits_window hw h
  rw [(readBack_of_not_kept hbad).1] at hwindow
  exact ⟨_, _, _, readValue_window hbit hwindow hw.meaningful_pos hread, placed_ne hx hbad hy⟩

end values

end GorillaDecoder

/-! ### Round trip -/

/-- The windows that are opened behind a value. -/
def openedFrom (w : Window) (prev : UInt64) : List Int64 → List Window
  | [] => []
  | v :: vals =>
    let x := prev ^^^ v.toUInt64
    let rest := openedFrom (w.next x) v.toUInt64 vals
    if x = 0 ∨ w.fits x then rest else Window.own x :: rest

/-- The windows that are opened: by the first XOR that is not zero, and by every one that does not fit in the
last window. -/
def openedWindows : List Int64 → List Window
  | [] => []
  | v :: vals => openedFrom Window.start v.toUInt64 vals

open GorillaDecoder in
theorem readValues_iff {bytes : List UInt8} {bitPos : ℕ} {prev : UInt64} {vals : List Int64}
    (h : gorillaBits w prev vals <+: (bitsOf bytes).drop bitPos) :
    readValues bytes vals.length prev w bitPos = .ok vals ↔ ∀ w' ∈ openedFrom w prev vals, w'.Kept := by
  induction vals generalizing w prev bitPos with
  | nil => exact iff_of_true rfl nofun
  | cons v vals ih =>
    rw [gorillaBits] at h
    rw [length_cons, readValues, openedFrom]
    dsimp only
    by_cases hnew : prev ^^^ v.toUInt64 = 0 ∨ w.fits (prev ^^^ v.toUInt64) = true ∨
        (Window.own (prev ^^^ v.toUInt64)).Kept
    · obtain ⟨bitPos', hread, hrest⟩ := readValue_eq prev h hnew
      have hkept : (∀ w' ∈ openedFrom w prev (v :: vals), w'.Kept) ↔
          ∀ w' ∈ openedFrom (w.next (prev ^^^ v.toUInt64)) v.toUInt64 vals, w'.Kept := by
        rw [openedFrom]
        split
        · rfl
        · rename_i hopens
          have hown : (Window.own (prev ^^^ v.toUInt64)).Kept := (or_assoc.mpr hnew).resolve_left hopens
          rw [forall_mem_cons]
          exact and_iff_right hown
      rw [openedFrom] at hkept
      rw [hkept, ← ih hrest, hread]
      simp only [bind, Except.bind]
      rw [xor_xor_self]
      cases readValues bytes vals.length v.toUInt64 (w.next (prev ^^^ v.toUInt64)) bitPos' with
      | error e => exact iff_of_false nofun nofun
      | ok vals' =>
        simp only [pure, Except.pure, Except.ok.injEq, List.cons.injEq, Int64.toInt64_toUInt64, true_and]
    · rw [not_or, not_or] at hnew
      obtain ⟨y, w', bitPos', hread, hne⟩ := readValue_ne prev h hnew.1 hnew.2.1 hnew.2.2
      refine iff_of_false ?_ ?_
      · rw [hread]
        simp only [bind, Except.bind]
        cases readValues bytes vals.length (prev ^^^ y) w' bitPos' with
        | error e => nofun
        | ok vals' =>
          intro heq
          have hv : (prev ^^^ y).toInt64 = v := (List.cons.inj (Except.ok.inj heq)).1
          apply hne
          apply xor_left_inj (a := prev)
          rw [xor_xor_self, ← hv, UInt64.toUInt64_toInt64]
      · rw [if_neg (by tauto), forall_mem_cons]
        exact fun hall => hnew.2.2 hall.1

/-- **A list comes back if and only if no window that it opens has 31, or 33 and more, leading zeros.** -/
theorem gorillaDecode_gorillaEncode_iff (vals : List Int64) :
    gorillaDecode (gorillaEncode vals) vals.length = .ok vals ↔
      ∀ w ∈ openedWindows vals, w.leading ≤ 30 ∨ w.leading = 32 := by
  cases vals with
  | nil => exact iff_of_true rfl nofun
  | cons v vals =>
    have hbits := bits_gorillaEncode v vals
    have hbits0 : valueBits 64 v.toUInt64.toNat ++ gorillaBits Window.start v.toUInt64 vals <+:
        (bitsOf (gorillaEncode (v :: vals))).drop 0 := hbits
    obtain ⟨first, hread, hfirst, hrest⟩ := readBits_of_prefix le_rfl hbits0
    rw [Nat.mod_eq_of_lt v.toUInt64.toNat_lt] at hfirst
    obtain rfl : first = v.toUInt64 := UInt64.toNat_inj.mp hfirst
    have hvals := readValues_iff hrest
    rw [openedWindows, gorillaDecode, if_neg (by simp), length_cons, Nat.add_sub_cancel, hread]
    refine Iff.trans ?_ hvals
    simp only [orCorrupt, bind, Except.bind]
    cases GorillaDecoder.readValues (gorillaEncode (v :: vals)) vals.length v.toUInt64 Window.start (0 + 64) with
    | error e => exact iff_of_false nofun nofun
    | ok vals' =>
      simp only [pure, Except.pure, Except.ok.injEq, List.cons.injEq, Int64.toInt64_toUInt64, true_and]

/-- The XOR of neighbours has 63 leading zeros, which are read as 32. -/
theorem gorilla_loses_place : gorillaDecode (gorillaEncode [0, 1]) 2 = .ok [0, 2147483648] ∧
    gorillaDecode (gorillaEncode [0, 1]) 2 ≠ .ok [0, 1] := by
  set_option maxRecDepth 8000 in decide

end CenDB.Storage
