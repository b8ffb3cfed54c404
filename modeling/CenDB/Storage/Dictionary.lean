import CenDB.Lib.BitStrings
import CenDB.Storage.Encoding

/-! # The dictionary codec

A sorted dictionary of the distinct values, then the index of every value in it at a fixed
width: whole bytes where the width allows it, else bit by bit through a 64-bit accumulator
(`BitWriter`, `BitReader`).  `readBits_bitsOf` and `contents_writeBits` say that the reader and
the writer agree on the bit string in between. -/

namespace CenDB.Storage

open Words List

/-! ### Bit by bit -/

/-- Accumulates bits into bytes, most significant first. -/
structure BitWriter where
  bytes : List UInt8
  current : UInt64
  nBits : ℕ

namespace BitWriter

def new : BitWriter := ⟨[], 0, 0⟩

def writeBit (w : BitWriter) (bit : Bool) : BitWriter :=
  let current := if bit then w.current ||| 1 <<< UInt64.ofNat (63 - w.nBits) else w.current
  if w.nBits + 1 = 64 then ⟨w.bytes ++ toBE current.toNat, 0, 0⟩
  else ⟨w.bytes, current, w.nBits + 1⟩

def writeBits (w : BitWriter) (value : UInt64) (count : ℕ) : BitWriter :=
  (List.range count).reverse.foldl (fun w i => w.writeBit (value >>> UInt64.ofNat i &&& 1 != 0)) w

def intoBytes (w : BitWriter) : List UInt8 :=
  if 0 < w.nBits then w.bytes ++ toBE w.current.toNat else w.bytes

end BitWriter

/-- The bit at a position, or `none` at the end. -/
def readBit (bytes : List UInt8) (bitPos : ℕ) : Option Bool :=
  if bytes.length ≤ bitPos / 8 then none
  else some (bytes.getD (bitPos / 8) 0 >>> UInt8.ofNat (7 - bitPos % 8) &&& 1 != 0)

/-- The next `count` bits after the accumulated ones: the value and the new position. -/
def readBits (bytes : List UInt8) : ℕ → ℕ → UInt64 → Option (UInt64 × ℕ)
  | bitPos, 0, v => some (v, bitPos)
  | bitPos, count + 1, v =>
    match readBit bytes bitPos with
    | none => none
    | some bit => readBits bytes (bitPos + 1) count (v <<< 1 ||| bit.toUInt64)

/-! ### The codec -/

/-- Removes consecutive repeated elements. -/
def dedup : List Int64 → List Int64
  | v :: w :: vals => if v = w then dedup (w :: vals) else v :: dedup (w :: vals)
  | vals => vals

namespace DictionaryCodec

/-- The sorted distinct values. -/
def dictOf (vals : List Int64) : List Int64 := dedup (vals.mergeSort fun v w => decide (v ≤ w))

/-- The index of each dictionary value. -/
def codeMap (dict : List Int64) : Table Int64 ℕ := dict.zipIdx.foldl (fun m x => AList.insert x.1 x.2 m) ∅

/-- `code_map.get(&v).unwrap_or(&0)`. -/
def codeOf (dict : List Int64) (v : Int64) : UInt64 := UInt64.ofNat (((codeMap dict).lookup v).getD 0)

/-- The codes bit by bit. -/
def packSlow (bits : ℕ) (codes : List UInt64) : List UInt8 :=
  (codes.foldl (fun w code => w.writeBits code bits) BitWriter.new).intoBytes

def packCodes (bits : ℕ) (codes : List UInt64) : List UInt8 :=
  if bits % 8 = 0 then
    match bits / 8 with
    | 1 => codes.map UInt64.toUInt8
    | 2 => codes.flatMap fun c => toLE 2 c.toUInt16.toNat
    | 4 => codes.flatMap fun c => toLE 4 c.toUInt32.toNat
    | 8 => codes.flatMap fun c => toLE 8 c.toNat
    | _ => packSlow bits codes
  else packSlow bits codes

def encode (vals : List Int64) : Except Halt (List UInt8) :=
  let head := (Encoding.dictionary 0).discriminant
  if vals.isEmpty then .ok (head :: (leU32 0 ++ [0]))
  else
    let dict := dictOf vals
    let bits := requiredBits (UInt64.ofNat dict.length)
    .ok (head :: (leU32 (UInt32.ofNat dict.length) ++ (dict.flatMap leI64 ++
      UInt8.ofNat bits :: packCodes bits (vals.map (codeOf dict)))))

/-- The value of a code. -/
def lookupCode (dict : List Int64) (code : ℕ) : Except Halt Int64 :=
  if code < dict.length then .ok (dict.getD code 0)
  else .error (corrupt "dictionary: code out of range")

/-- The values of codes of whole bytes. -/
def lookupWhole (dict : List Int64) (packed : List UInt8) (width : ℕ) : List ℕ → Except Halt (List Int64)
  | [] => .ok []
  | i :: is =>
    match lookupCode dict (fromLE (slice packed (i * width) (i * width + width))) with
    | .error e => .error e
    | .ok v =>
      match lookupWhole dict packed width is with
      | .error e => .error e
      | .ok vals => .ok (v :: vals)

def decodeWhole (dict : List Int64) (packed : List UInt8) (width count : ℕ) : Except Halt (List Int64) :=
  if packed.length < count * width then
    .error (corrupt s!"dictionary: truncated {width}-byte codes")
  else lookupWhole dict packed width (List.range count)

/-- The values of codes of any width; `message` is the error text after some values. -/
def decodeSlow (dict : List Int64) (packed : List UInt8) (bits : ℕ) (message : ℕ → String) :
    ℕ → ℕ → ℕ → Except Halt (List Int64)
  | 0, _, _ => .ok []
  | count + 1, bitPos, done =>
    match readBits packed bitPos bits 0 with
    | none => .error (corrupt (message done))
    | some (code, bitPos) =>
      match lookupCode dict code.toNat with
      | .error e => .error e
      | .ok v =>
        match decodeSlow dict packed bits message count bitPos (done + 1) with
        | .error e => .error e
        | .ok vals => .ok (v :: vals)

def decodeCodes (dict : List Int64) (packed : List UInt8) (bits count : ℕ) : Except Halt (List Int64) :=
  if bits % 8 = 0 then
    match bits / 8 with
    | 0 =>
      match dict, count with
      | _, 0 => .ok []
      | [], _ + 1 => .error .panic
      | v :: _, count + 1 => .ok (List.replicate (count + 1) v)
    | 1 => decodeWhole dict packed 1 count
    | 2 => decodeWhole dict packed 2 count
    | 4 => decodeWhole dict packed 4 count
    | 8 => decodeWhole dict packed 8 count
    | _ => decodeSlow dict packed bits (fun _ => "dictionary: truncated codes") count 0 0
  else
    decodeSlow dict packed bits (fun done => s!"dictionary: truncated codes at val {done} " ++
        s!"(bits={bits}, packed_len={packed.length}, dict_len={dict.length})") count 0 0

def decode (bytes : List UInt8) (count : ℕ) : Except Halt (List Int64) :=
  if bytes.isEmpty then .ok []
  else
    let body := bytes.drop 1
    if body.length < 5 then .error (corrupt "dictionary: truncated header")
    else
      let dictLen := (u32At body 0).toNat
      let bitsOffset := 4 + dictLen * 8
      if body.length < bitsOffset + 1 then
        .error (corrupt "dictionary: truncated (missing bits byte)")
      else
        let dict := (List.range dictLen).map fun i => i64At body (4 + i * 8)
        decodeCodes dict (body.drop (bitsOffset + 1)) (body.getD bitsOffset 0).toNat count

end DictionaryCodec

/-! ### The bit string of the writer and the reader -/

variable {i : ℕ}

theorem shiftRight_and_one_ne {x : UInt64} (hi : i < 64) : (x >>> UInt64.ofNat i &&& 1 != 0) = x.toNat.testBit i := by
  have hto : (x >>> UInt64.ofNat i &&& 1).toNat = x.toNat / 2 ^ i % 2 := by
    rw [UInt64.toNat_and, toNat_shiftRight _ hi]
    exact Nat.and_two_pow_sub_one_eq_mod _ 1
  rw [Nat.testBit_eq_decide_div_mod_eq, ← hto, Bool.eq_iff_iff, bne_iff_ne, decide_eq_true_iff,
    Ne, ← UInt64.toNat_inj]
  have hzero : (0 : UInt64).toNat = 0 := rfl
  omega

theorem shiftRight_and_one_ne_byte {b : UInt8} (hi : i < 8) :
    (b >>> UInt8.ofNat i &&& 1 != 0) = b.toNat.testBit i := by
  have hto : (b >>> UInt8.ofNat i &&& 1).toNat = b.toNat / 2 ^ i % 2 := by
    have hmod : (UInt8.ofNat i).toNat % 8 = i := by
      rw [UInt8.toNat_ofNat']
      omega
    rw [UInt8.toNat_and, UInt8.toNat_shiftRight, hmod, Nat.shiftRight_eq_div_pow]
    exact Nat.and_two_pow_sub_one_eq_mod _ 1
  rw [Nat.testBit_eq_decide_div_mod_eq, ← hto, Bool.eq_iff_iff, bne_iff_ne, decide_eq_true_iff, Ne, ← UInt8.toNat_inj]
  have hzero : (0 : UInt8).toNat = 0 := rfl
  omega

theorem readBit_eq (bytes : List UInt8) (pos : ℕ) : readBit bytes pos = (bitsOf bytes)[pos]? := by
  rw [getElem?_bitsOf]
  unfold readBit
  by_cases hend : bytes.length ≤ pos / 8
  · simp [hend]
  · rw [if_neg hend, shiftRight_and_one_ne_byte (by omega), getD_eq_getElem _ _ (by omega),
      getElem?_eq_getElem (by omega), Option.map_some]

/-- The reader reads the bits of a number. -/
theorem readBits_eq {bytes : List UInt8} {pos count x : ℕ} {v : UInt64} {k : ℕ}
    (hbits : valueBits count x <+: (bitsOf bytes).drop pos) (hv : v.toNat < 2 ^ k)
    (hk : k + count ≤ 64) :
    ∃ v', readBits bytes pos count v = some (v', pos + count) ∧ v'.toNat = v.toNat * 2 ^ count + x % 2 ^ count := by
  induction count generalizing pos v k with
  | zero => exact ⟨v, rfl, by simp [Nat.mod_one]⟩
  | succ count ih =>
    rw [valueBits_succ] at hbits
    obtain ⟨rest, hrest⟩ := hbits
    have hbit : readBit bytes pos = some (x.testBit count) := by
      have hat := congrArg (·[0]?) hrest
      simp only [cons_append, getElem?_cons_zero, getElem?_drop, Nat.add_zero] at hat
      rw [readBit_eq, ← hat]
    have hnext : valueBits count x <+: (bitsOf bytes).drop (pos + 1) := by
      refine ⟨rest, ?_⟩
      rw [← drop_drop, ← hrest]
      rfl
    have hb : (x.testBit count).toUInt64.toNat = (x.testBit count).toNat := by
      cases x.testBit count <;> rfl
    have hb1 := (x.testBit count).toNat_lt
    have hpow : 2 * 2 ^ k ≤ 2 ^ 64 := by
      rw [← Nat.pow_succ']
      exact Nat.pow_le_pow_right two_pos (by omega)
    have hshift : (v <<< 1).toNat = v.toNat <<< 1 := by
      rw [UInt64.toNat_shiftLeft]
      apply Nat.mod_eq_of_lt
      show v.toNat <<< 1 < 2 ^ 64
      rw [Nat.shiftLeft_eq]
      omega
    have hor : (v <<< 1 ||| (x.testBit count).toUInt64).toNat = 2 * v.toNat + (x.testBit count).toNat := by
      rw [UInt64.toNat_or, hshift, hb, ← Nat.shiftLeft_add_eq_or_of_lt (by omega), Nat.shiftLeft_eq]
      omega
    obtain ⟨v', hread, hval⟩ := ih (v := v <<< 1 ||| (x.testBit count).toUInt64) hnext
      (k := k + 1) (by rw [hor, Nat.pow_succ]; omega) (by omega)
    refine ⟨v', ?_, ?_⟩
    · rw [readBits, hbit]
      dsimp only
      rw [hread, Nat.add_assoc, Nat.add_comm 1]
    · have hfold := foldBits_valueBits (count + 1) x v.toNat
      rw [valueBits_succ, foldl_cons, foldBits_valueBits] at hfold
      rw [hval, hor, hfold]

namespace BitWriter

/-- The bits written so far: the whole bytes, then the top of the accumulator. -/
def Wrote (w : BitWriter) (bits : List Bool) : Prop :=
  w.nBits < 64 ∧ ∃ q, w.current.toNat = 2 ^ (64 - w.nBits) * q ∧ bits = bitsOf w.bytes ++ valueBits w.nBits q

theorem Wrote.new : new.Wrote [] := ⟨by decide, 0, rfl, rfl⟩

variable {w : BitWriter} {bits : List Bool}

theorem Wrote.writeBit (h : w.Wrote bits) (b : Bool) : (w.writeBit b).Wrote (bits ++ [b]) := by
  obtain ⟨hn, q, hq, rfl⟩ := h
  have hpow : 2 ^ (64 - w.nBits) = 2 ^ (63 - w.nBits) * 2 := by
    rw [← Nat.pow_succ]
    congr 1
    omega
  -- the accumulator after the bit
  have hcurrent : (if b then w.current ||| 1 <<< UInt64.ofNat (63 - w.nBits)
      else w.current).toNat = 2 ^ (63 - w.nBits) * (2 * q + b.toNat) := by
    cases b with
    | false =>
      rw [if_neg Bool.false_ne_true, hq, hpow]
      simp only [Bool.toNat_false]
      ring
    | true =>
      have hone : ((1 : UInt64) <<< UInt64.ofNat (63 - w.nBits)).toNat = 2 ^ (63 - w.nBits) := by
        rw [UInt64.toNat_shiftLeft, toNat_ofNat_shift (by omega), Nat.shiftLeft_eq]
        have hlt : 2 ^ (63 - w.nBits) < 2 ^ 64 := Nat.pow_lt_pow_right one_lt_two (by omega)
        show 1 * 2 ^ (63 - w.nBits) % 2 ^ 64 = _
        rw [Nat.one_mul, Nat.mod_eq_of_lt hlt]
      have hlt : 2 ^ (63 - w.nBits) < 2 ^ (64 - w.nBits) := Nat.pow_lt_pow_right one_lt_two (by omega)
      rw [if_pos rfl, UInt64.toNat_or, hone, hq, Nat.mul_comm, ← Nat.shiftLeft_eq,
        ← Nat.shiftLeft_add_eq_or_of_lt hlt, Nat.shiftLeft_eq, hpow]
      simp only [Bool.toNat_true]
      ring
  unfold BitWriter.writeBit
  by_cases hflush : w.nBits + 1 = 64
  · rw [if_pos hflush]
    refine ⟨show 0 < 64 by decide, 0, rfl, ?_⟩
    have h63 : w.nBits = 63 := by omega
    rw [h63, Nat.sub_self, Nat.pow_zero, Nat.one_mul] at hcurrent
    dsimp only
    rw [h63, Nat.sub_self, hcurrent, bitsOf_append, bitsOf_toBE, valueBits_snoc, append_assoc]
    simp [valueBits]
  · rw [if_neg hflush]
    refine ⟨by dsimp only; omega, 2 * q + b.toNat, ?_, ?_⟩
    · have hexp : 64 - (w.nBits + 1) = 63 - w.nBits := by omega
      dsimp only
      rw [hcurrent, hexp]
    · simp [valueBits_snoc]

theorem Wrote.writeBits (h : w.Wrote bits) (value : UInt64) {count : ℕ} (hcount : count ≤ 64) :
    (w.writeBits value count).Wrote (bits ++ valueBits count value.toNat) := by
  unfold BitWriter.writeBits
  induction count generalizing w bits with
  | zero => simpa [valueBits] using h
  | succ count ih =>
    rw [range_succ, reverse_append, valueBits_succ]
    have hstep := h.writeBit (value.toNat.testBit count)
    rw [← shiftRight_and_one_ne (by omega)] at hstep
    have hrest := ih hstep (by omega)
    rw [append_assoc, shiftRight_and_one_ne (by omega)] at hrest
    rw [reverse_singleton, singleton_append, foldl_cons, shiftRight_and_one_ne (by omega)]
    exact hrest

theorem Wrote.intoBytes (h : w.Wrote bits) : bits <+: bitsOf w.intoBytes := by
  obtain ⟨hn, q, hq, rfl⟩ := h
  unfold BitWriter.intoBytes
  by_cases hpos : 0 < w.nBits
  · have hsplit : valueBits 64 w.current.toNat = valueBits w.nBits q ++ valueBits (64 - w.nBits) w.current.toNat := by
      have hadd := valueBits_add w.nBits (64 - w.nBits) w.current.toNat
      rw [Nat.add_sub_cancel' (by omega)] at hadd
      rw [hadd]
      congr 2
      rw [hq, Nat.mul_div_cancel_left _ (Nat.two_pow_pos _)]
    rw [if_pos hpos, bitsOf_append, bitsOf_toBE, hsplit, ← append_assoc]
    exact prefix_append _ _
  · have hzero : w.nBits = 0 := by omega
    rw [if_neg hpos, hzero]
    simp [valueBits]

end BitWriter

namespace DictionaryCodec

/-! ### The codes of the slow path -/

/-- The bits of the codes, in order. -/
def codeBits (bits : ℕ) (codes : List UInt64) : List Bool := codes.flatMap fun code => valueBits bits code.toNat

variable {bits m : ℕ} {dict vals : List Int64} {packed : List UInt8} {v : Int64}

theorem codeBits_packSlow (hbits : bits ≤ 64) (codes : List UInt64) :
    codeBits bits codes <+: bitsOf (packSlow bits codes) := by
  have hloop : ∀ (codes : List UInt64) (w : BitWriter) (written : List Bool),
      w.Wrote written → (codes.foldl (fun w code => w.writeBits code bits) w).Wrote
        (written ++ codeBits bits codes) := by
    intro codes
    induction codes with
    | nil =>
      intro w written h
      rw [codeBits, flatMap_nil, append_nil]
      exact h
    | cons code codes ih =>
      intro w written h
      rw [codeBits, flatMap_cons, ← append_assoc]
      exact ih _ _ (h.writeBits code hbits)
  exact (hloop codes BitWriter.new [] BitWriter.Wrote.new).intoBytes

variable {code pos width count done n : ℕ} {codes : List UInt64} {head : UInt8} {body bytes : List UInt8}
  {is : List ℕ} {message : ℕ → String}

theorem lookupCode_of_lt (h : code < dict.length) : lookupCode dict code = .ok (dict.getD code 0) := if_pos h

/-- The slow path reads the codes back. -/
theorem decodeSlow_eq (hbits : bits ≤ 64) (message : ℕ → String) (hfit : ∀ c ∈ codes, c.toNat < 2 ^ bits)
    (hdict : ∀ c ∈ codes, c.toNat < dict.length) (done : ℕ)
    (h : codeBits bits codes <+: (bitsOf packed).drop pos) :
    decodeSlow dict packed bits message codes.length pos done = .ok (codes.map fun c => dict.getD c.toNat 0) := by
  induction codes generalizing pos done with
  | nil => rfl
  | cons code codes ih =>
    have hsplit : codeBits bits (code :: codes) = valueBits bits code.toNat ++ codeBits bits codes := rfl
    rw [hsplit] at h
    have hnext : codeBits bits codes <+: (bitsOf packed).drop (pos + bits) := by
      obtain ⟨rest, hrest⟩ := h
      refine ⟨rest, ?_⟩
      rw [← drop_drop, ← hrest, append_assoc, drop_left' (length_valueBits bits code.toNat)]
    obtain ⟨v, hread, hv⟩ := readBits_eq (v := 0) (k := 0) ((prefix_append _ _).trans h) (by decide) (by omega)
    have hcode : v.toNat = code.toNat := by
      rw [hv, Nat.mod_eq_of_lt (hfit code mem_cons_self)]
      exact (congrArg (· + code.toNat) (Nat.zero_mul _)).trans (Nat.zero_add _)
    rw [length_cons, decodeSlow, hread]
    dsimp only
    rw [hcode, lookupCode_of_lt (hdict code mem_cons_self)]
    dsimp only
    rw [ih (fun c hc => hfit c (mem_cons_of_mem code hc))
      (fun c hc => hdict c (mem_cons_of_mem code hc)) (done + 1) hnext]
    rfl

/-! ### The codes of whole bytes -/

/-- Codes of whole bytes are read back. -/
theorem decodeWhole_eq (hfit : ∀ c ∈ codes, c.toNat < 256 ^ width) (hdict : ∀ c ∈ codes, c.toNat < dict.length) :
    decodeWhole dict (codes.flatMap fun c => toLE width c.toNat) width codes.length =
      .ok (codes.map fun c => dict.getD c.toNat 0) := by
  have hwidth : ∀ c ∈ codes, (toLE width c.toNat).length = width := fun c _ => toLE_length _ _
  have hlookup : ∀ is : List ℕ, (∀ i ∈ is, i < codes.length) →
      lookupWhole dict (codes.flatMap fun c => toLE width c.toNat) width is =
        .ok (is.map fun i => dict.getD (codes.getD i 0).toNat 0) := by
    intro is
    induction is with
    | nil => exact fun _ => rfl
    | cons i is ih =>
      intro his
      have hi := his i mem_cons_self
      have hmem : codes[i] ∈ codes := getElem_mem hi
      rw [lookupWhole, slice_flatMap hwidth hi, fromLE_toLE, Nat.mod_eq_of_lt (hfit _ hmem),
        lookupCode_of_lt (hdict _ hmem)]
      dsimp only
      rw [ih fun j hj => his j (mem_cons_of_mem i hj), map_cons, getD_eq_getElem _ _ hi]
  unfold decodeWhole
  rw [if_neg (by rw [length_flatMap hwidth]; exact lt_irrefl _), hlookup _ fun i hi => mem_range.mp hi]
  congr 1
  apply ext_getElem
  · simp
  · intro i hi _
    have hlt : i < codes.length := by simpa using hi
    rw [getElem_map, getElem_map, getElem_range, getD_eq_getElem _ _ hlt]

theorem toLE_one (c : UInt64) : [c.toUInt8] = toLE 1 (c.toNat % 256 ^ 1) := by
  rw [toLE, toLE]
  congr 1
  apply UInt8.toNat_inj.mp
  rw [UInt64.toNat_toUInt8, UInt8.toNat_ofNat']
  exact (Nat.mod_mod _ _).symm

/-- **The codes are read back at every width from 1 to 64.** -/
theorem decodeCodes_packCodes (hpos : 1 ≤ bits) (hbits : bits ≤ 64) (hfit : ∀ c ∈ codes, c.toNat < 2 ^ bits)
    (hdict : ∀ c ∈ codes, c.toNat < dict.length) :
    decodeCodes dict (packCodes bits codes) bits codes.length = .ok (codes.map fun c => dict.getD c.toNat 0) := by
  have hslow (message : ℕ → String) : decodeSlow dict (packSlow bits codes) bits message codes.length 0 0 =
        .ok (codes.map fun c => dict.getD c.toNat 0) :=
    decodeSlow_eq hbits message hfit hdict 0 (codeBits_packSlow hbits codes)
  have hwhole {width : ℕ} (h : bits = 8 * width) :
      decodeWhole dict (codes.flatMap fun c => toLE width c.toNat) width codes.length =
        .ok (codes.map fun c => dict.getD c.toNat 0) := by
    apply decodeWhole_eq _ hdict
    intro c hc
    have hlt := hfit c hc
    rw [h, Nat.pow_mul] at hlt
    exact hlt
  -- narrowing a code to the width of the field keeps its low bytes
  have hnarrow {width : ℕ} (h : bits = 8 * width) {f : UInt64 → List UInt8}
      (hf : ∀ c, f c = toLE width (c.toNat % 256 ^ width)) :
      codes.flatMap f = codes.flatMap fun c => toLE width c.toNat := by
    apply flatMap_congr
    intro c hc
    have hlt := hfit c hc
    rw [h, Nat.pow_mul] at hlt
    rw [hf, Nat.mod_eq_of_lt hlt]
  unfold decodeCodes packCodes
  by_cases h8 : bits % 8 = 0
  · rw [if_pos h8, if_pos h8]
    have hdiv : bits = 8 * (bits / 8) := by omega
    generalize bits / 8 = width at hdiv
    split
    · omega
    · rw [← hwhole hdiv, ← hnarrow hdiv fun c => toLE_one c, ← map_eq_flatMap]
      rfl
    · rw [← hwhole hdiv, ← hnarrow hdiv fun c => rfl]
      rfl
    · rw [← hwhole hdiv, ← hnarrow hdiv fun c => rfl]
      rfl
    · exact hwhole hdiv
    · rename_i hno1 hno2 hno4 hno8
      split
      · exact absurd rfl hno1
      · exact absurd rfl hno2
      · exact absurd rfl hno4
      · exact absurd rfl hno8
      · exact hslow _
  · rw [if_neg h8, if_neg h8]
    exact hslow _

/-! ### The dictionary -/

theorem mem_dedup : v ∈ dedup vals ↔ v ∈ vals := by
  fun_induction dedup vals with
  | case1 w vals ih =>
    rw [ih, mem_cons, mem_cons, mem_cons, ← or_assoc, or_self]
  | case2 u w vals hne ih =>
    rw [mem_cons, ih, ← mem_cons]
  | case3 vals hshort => exact Iff.rfl

/-- Removing repeats from a sorted list leaves distinct elements. -/
theorem dedup_ascending (h : vals.Pairwise (· ≤ ·)) : (dedup vals).Pairwise (· < ·) := by
  fun_induction dedup vals with
  | case1 w vals ih => exact ih h.of_cons
  | case2 u w vals hne ih =>
    rw [pairwise_cons] at h ⊢
    refine ⟨?_, ih h.2⟩
    intro x hx
    have huw : u < w := Int64.lt_iff_le_and_ne.mpr ⟨h.1 w mem_cons_self, hne⟩
    cases mem_cons.mp (mem_dedup.mp hx) with
    | inl heq => rwa [heq]
    | inr hmem => exact Int64.lt_of_lt_of_le huw ((pairwise_cons.mp h.2).1 x hmem)
  | case3 vals hshort =>
    cases vals with
    | nil => exact List.Pairwise.nil
    | cons v vals =>
      cases vals with
      | nil => exact pairwise_singleton _ _
      | cons w vals => exact absurd rfl (hshort v w vals)

theorem mem_dictOf : v ∈ dictOf vals ↔ v ∈ vals := by simp [dictOf, mem_dedup]

/-- The dictionary holds every value once. -/
theorem length_dictOf (vals : List Int64) : (dictOf vals).length = vals.toFinset.card := by
  have hsorted : (vals.mergeSort fun v w => decide (v ≤ w)).Pairwise (· ≤ ·) := by
    have htrans (a b c : Int64) (hab : decide (a ≤ b) = true) (hbc : decide (b ≤ c) = true) : decide (a ≤ c) = true :=
      decide_eq_true (Int64.le_trans (of_decide_eq_true hab) (of_decide_eq_true hbc))
    have htotal (a b : Int64) : (decide (a ≤ b) || decide (b ≤ a)) = true := by
      rw [Bool.or_eq_true, decide_eq_true_iff, decide_eq_true_iff]
      exact Int64.le_total a b
    have hpair := pairwise_mergeSort htrans htotal vals
    exact hpair.imp of_decide_eq_true
  have hnodup : (dictOf vals).Nodup := (dedup_ascending hsorted).imp Int64.ne_of_lt
  have hset : (dictOf vals).toFinset = vals.toFinset := by
    ext v
    rw [mem_toFinset, mem_toFinset, mem_dictOf]
  rw [← hset, toFinset_card_of_nodup hnodup]

theorem codeMap_snoc (dict : List Int64) (v : Int64) :
    codeMap (dict ++ [v]) = AList.insert v dict.length (codeMap dict) := by simp [codeMap, zipIdx_append]

/-- The map gives every dictionary value an index that holds it. -/
theorem lookup_codeMap (h : v ∈ dict) : ∃ i, (codeMap dict).lookup v = some i ∧ dict[i]? = some v := by
  induction dict using List.reverseRecOn with
  | nil => cases h
  | append_singleton dict w ih =>
    rw [codeMap_snoc, Table.lookup_insert_if]
    by_cases hvw : v = w
    · refine ⟨dict.length, if_pos hvw, ?_⟩
      rw [getElem?_append_right (le_refl _), Nat.sub_self, hvw]
      rfl
    · have hmem : v ∈ dict := by
        cases mem_append.mp h with
        | inl hmem => exact hmem
        | inr hsingle => exact absurd (mem_singleton.mp hsingle) hvw
      obtain ⟨i, hi, hget⟩ := ih hmem
      refine ⟨i, (if_neg hvw).trans hi, ?_⟩
      rw [getElem?_append_left (List.getElem?_eq_some_iff.mp hget).1, hget]

/-- The code of a dictionary value denotes it. -/
theorem codeOf_spec (h : v ∈ dict) (hlen : dict.length < 2 ^ 64) :
    (codeOf dict v).toNat < dict.length ∧ dict.getD (codeOf dict v).toNat 0 = v := by
  obtain ⟨i, hi, hget⟩ := lookup_codeMap h
  obtain ⟨hlt, hv⟩ := List.getElem?_eq_some_iff.mp hget
  have hcode : (codeOf dict v).toNat = i := by
    unfold codeOf
    rw [hi, Option.getD_some, UInt64.toNat_ofNat', Nat.mod_eq_of_lt (by omega)]
  rw [hcode]
  exact ⟨hlt, by rw [getD_eq_getElem _ _ hlt, hv]⟩

/-! ### The round trip -/

/-- The decoder reads the header that the encoder writes. -/
theorem decode_header (head : UInt8) (hlen : dict.length < 2 ^ 32) (bits : UInt8) (packed : List UInt8) (count : ℕ) :
    decode (head :: (leU32 (UInt32.ofNat dict.length) ++ (dict.flatMap leI64 ++ bits :: packed)))
      count = decodeCodes dict packed bits.toNat count := by
  have hdict : (dict.flatMap leI64).length = dict.length * 8 := length_flatMap fun v _ => length_leI64 v
  have hn : (UInt32.ofNat dict.length).toNat = dict.length := by
    rw [UInt32.toNat_ofNat', Nat.mod_eq_of_lt hlen]
  have hbody : (leU32 (UInt32.ofNat dict.length) ++ (dict.flatMap leI64 ++ bits :: packed)).length =
      4 + (dict.length * 8 + (packed.length + 1)) := by simp
  have hread := map_i64At (leU32 (UInt32.ofNat dict.length)) dict (bits :: packed)
  rw [length_leU32] at hread
  have hu32 := u32At_append [] (UInt32.ofNat dict.length) (dict.flatMap leI64 ++ bits :: packed)
  rw [List.nil_append, length_nil] at hu32
  have hfront : (leU32 (UInt32.ofNat dict.length) ++ dict.flatMap leI64).length = 4 + dict.length * 8 := by simp
  unfold decode
  rw [if_neg (by simp)]
  dsimp only
  rw [drop_one, tail_cons, hu32, hn, hbody, if_neg (by omega), if_neg (by omega), hread]
  congr 1
  · rw [← append_assoc, ← hfront, ← drop_drop, drop_left, drop_one, tail_cons]
  · simp

theorem decode_of_few (hfew : vals.toFinset.card < 2 ^ 32) (h : encode vals = .ok (head :: body)) (d : UInt8) :
    decode (d :: body) vals.length = .ok vals := by
  unfold encode at h
  cases vals with
  | nil =>
    have hbody := (List.cons.inj (Except.ok.inj h)).2
    have hnil : ([] : List Int64).length < 2 ^ 32 := by decide
    rw [← hbody]
    exact decode_header d hnil 0 [] 0
  | cons v vals =>
    rw [if_neg (by simp)] at h
    have hbody := (List.cons.inj (Except.ok.inj h)).2
    rw [← length_dictOf] at hfew
    generalize v :: vals = all at hfew hbody ⊢
    have hbits : (UInt8.ofNat (requiredBits (UInt64.ofNat (dictOf all).length))).toNat =
        requiredBits (UInt64.ofNat (dictOf all).length) := by
      have hle := requiredBits_le_64 (UInt64.ofNat (dictOf all).length)
      rw [UInt8.toNat_ofNat', Nat.mod_eq_of_lt (by omega)]
    have hlen : (UInt64.ofNat (dictOf all).length).toNat = (dictOf all).length := by
      rw [UInt64.toNat_ofNat', Nat.mod_eq_of_lt (by omega)]
    have hfit := lt_pow_requiredBits (UInt64.ofNat (dictOf all).length)
    rw [hlen] at hfit
    have hcode : ∀ w ∈ all, (codeOf (dictOf all) w).toNat < (dictOf all).length ∧
        (dictOf all).getD (codeOf (dictOf all) w).toNat 0 = w :=
      fun w hw => codeOf_spec (mem_dictOf.mpr hw) (by omega)
    have hcodes : ∀ c ∈ all.map (codeOf (dictOf all)), c.toNat < (dictOf all).length := by
      intro c hc
      obtain ⟨w, hw, rfl⟩ := List.mem_map.mp hc
      exact (hcode w hw).1
    have hdecode := decodeCodes_packCodes (one_le_requiredBits _) (requiredBits_le_64 _)
      (fun c hc => lt_trans (hcodes c hc) hfit) hcodes
    rw [length_map, map_map] at hdecode
    rw [← hbody, decode_header _ hfew, hbits, hdecode]
    congr 1
    exact (map_congr_left fun w hw => (hcode w hw).2).trans (map_id' all)

/-! ### What the decoder can return -/

theorem mem_of_lookupCode (h : lookupCode dict code = .ok v) : v ∈ dict := by
  unfold lookupCode at h
  by_cases hlt : code < dict.length
  · rw [if_pos hlt, getD_eq_getElem _ _ hlt] at h
    rw [← Except.ok.inj h]
    exact getElem_mem hlt
  · rw [if_neg hlt] at h
    cases h

theorem mem_of_lookupWhole (h : lookupWhole dict packed width is = .ok vals) : ∀ v ∈ vals, v ∈ dict := by
  induction is generalizing vals with
  | nil =>
    rw [← Except.ok.inj h]
    simp
  | cons i is ih =>
    rw [lookupWhole] at h
    split at h
    · cases h
    · rename_i v hv
      split at h
      · cases h
      · rename_i rest hrest
        rw [← Except.ok.inj h]
        exact forall_mem_cons.mpr ⟨mem_of_lookupCode hv, ih hrest⟩

theorem mem_of_decodeSlow (h : decodeSlow dict packed bits message count pos done = .ok vals) :
    ∀ v ∈ vals, v ∈ dict := by
  induction count generalizing pos done vals with
  | zero =>
    rw [← Except.ok.inj h]
    simp
  | succ count ih =>
    rw [decodeSlow] at h
    split at h
    · cases h
    · split at h
      · cases h
      · rename_i v hv
        split at h
        · cases h
        · rename_i rest hrest
          rw [← Except.ok.inj h]
          exact forall_mem_cons.mpr ⟨mem_of_lookupCode hv, ih hrest⟩

theorem mem_of_decodeCodes (h : decodeCodes dict packed bits count = .ok vals) : ∀ v ∈ vals, v ∈ dict := by
  have hwhole {width : ℕ} (h : decodeWhole dict packed width count = .ok vals) : ∀ v ∈ vals, v ∈ dict := by
    unfold decodeWhole at h
    split at h
    · cases h
    · exact mem_of_lookupWhole h
  unfold decodeCodes at h
  split at h
  · split at h
    · split at h
      · rw [← Except.ok.inj h]
        simp
      · cases h
      · rw [← Except.ok.inj h]
        intro w hw
        rw [eq_of_mem_replicate hw]
        exact mem_cons_self
    · exact hwhole h
    · exact hwhole h
    · exact hwhole h
    · exact hwhole h
    · exact mem_of_decodeSlow h
  · exact mem_of_decodeSlow h

/-- The length of the dictionary is a `u32`. -/
theorem few_of_decode (h : decode bytes count = .ok vals) : vals.toFinset.card < 2 ^ 32 := by
  unfold decode at h
  split at h
  · rw [← Except.ok.inj h]
    decide
  · dsimp only at h
    split at h
    · cases h
    · split at h
      · cases h
      · have hmem := mem_of_decodeCodes h
        have hsub := Finset.card_le_card fun v hv =>
          mem_toFinset.mpr (hmem v (mem_toFinset.mp hv))
        have hcard := le_trans hsub (toFinset_card_le _)
        rw [length_map, length_range] at hcard
        exact lt_of_le_of_lt hcard (UInt32.toNat_lt _)

/-- **The dictionary codec is lossless up to `2 ^ 32 - 1` distinct values.** -/
theorem decode_encode (h : encode vals = .ok (head :: body)) (d : UInt8) :
    decode (d :: body) vals.length = .ok vals ↔ vals.toFinset.card < 2 ^ 32 :=
  ⟨few_of_decode, fun hfew => decode_of_few hfew h d⟩

/-- The encoded column holds its dictionary. -/
theorem card_of_encode (h : encode vals = .ok (head :: body)) : vals.toFinset.card ≤ body.length := by
  cases vals with
  | nil => exact Nat.zero_le _
  | cons v vals =>
    have hdict : ((dictOf (v :: vals)).flatMap leI64).length = (dictOf (v :: vals)).length * 8 :=
      length_flatMap fun w _ => length_leI64 w
    have hcard := length_dictOf (v :: vals)
    rw [← (List.cons.inj (Except.ok.inj h)).2, length_append, length_append, hdict]
    omega

/-! ### Initial parts -/

theorem lookupWhole_take (h : lookupWhole dict packed width is = .ok vals) :
    lookupWhole dict packed width (is.take m) = .ok (vals.take m) := by
  induction is generalizing m vals with
  | nil =>
    rw [← Except.ok.inj h, take_nil, take_nil]
    rfl
  | cons i is ih =>
    cases m with
    | zero => rfl
    | succ m =>
      rw [lookupWhole] at h
      split at h
      · cases h
      · rename_i v hv
        split at h
        · cases h
        · rename_i rest hrest
          rw [take_succ_cons, lookupWhole, hv]
          dsimp only
          rw [ih hrest, ← Except.ok.inj h, take_succ_cons]

theorem decodeSlow_take (hmn : m ≤ n) (h : decodeSlow dict packed bits message n pos done = .ok vals) :
    decodeSlow dict packed bits message m pos done = .ok (vals.take m) := by
  induction m generalizing n pos done vals with
  | zero => rfl
  | succ m ih =>
    cases n with
    | zero => omega
    | succ n =>
      rw [decodeSlow] at h ⊢
      split at h
      · cases h
      · split at h
        · cases h
        · split at h
          · cases h
          · rename_i rest hrest
            rw [ih (Nat.le_of_succ_le_succ hmn) hrest, ← Except.ok.inj h, take_succ_cons]

theorem decodeCodes_take (hmn : m ≤ n) (h : decodeCodes dict packed bits n = .ok vals) :
    decodeCodes dict packed bits m = .ok (vals.take m) := by
  have hwhole {width : ℕ} (h : decodeWhole dict packed width n = .ok vals) :
      decodeWhole dict packed width m = .ok (vals.take m) := by
    unfold decodeWhole at h ⊢
    split at h
    · cases h
    · rename_i hshort
      have hle := Nat.mul_le_mul_right width hmn
      have htake := lookupWhole_take (m := m) h
      rw [take_range, Nat.min_eq_left hmn] at htake
      rw [if_neg (by omega), htake]
  unfold decodeCodes at h ⊢
  split at h
  · rename_i h8
    rw [if_pos h8]
    split at h
    · split at h
      · have hm : m = 0 := by omega
        rw [← Except.ok.inj h, take_nil, hm]
      · cases h
      · cases m with
        | zero => rfl
        | succ m =>
          rw [← Except.ok.inj h, take_replicate, Nat.min_eq_left hmn]
    · exact hwhole h
    · exact hwhole h
    · exact hwhole h
    · exact hwhole h
    · exact decodeSlow_take hmn h
  · rename_i h8
    rw [if_neg h8]
    exact decodeSlow_take hmn h

/-- Decoding fewer values returns the first of them. -/
theorem decode_take (hmn : m ≤ n) (h : decode bytes n = .ok vals) : decode bytes m = .ok (vals.take m) := by
  unfold decode at h ⊢
  split at h
  · rename_i hempty
    rw [if_pos hempty, ← Except.ok.inj h, take_nil]
  · rename_i hempty
    rw [if_neg hempty]
    dsimp only at h ⊢
    split at h
    · cases h
    · rename_i hheader
      split at h
      · cases h
      · rename_i hdict
        rw [if_neg hheader, if_neg hdict]
        exact decodeCodes_take hmn h

end DictionaryCodec

end CenDB.Storage
