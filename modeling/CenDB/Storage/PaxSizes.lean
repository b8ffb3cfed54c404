import CenDB.Storage.PaxLayout

/-! # How many bytes a block needs

Every minipage has at most 16 bytes for each value and 16 more (`length_encodeMinipage_le`).  A
builder whose regions end in the block makes a block (`finalize_isOk_iff`), so a bound on the
minipages and the heaps is a bound on what fits. -/

namespace CenDB.Storage

open Words List Nat

/-! ### Packed values -/

/-- Draining moves bits from the buffer to the output. -/
theorem length_drain (out : List UInt8) (buf : UInt64) (n : ℕ) :
    8 * (drain out buf n).1.length + (drain out buf n).2.2 = 8 * out.length + n ∧
      (drain out buf n).2.2 < 8 := by
  induction n using Nat.strongRecOn generalizing out buf with
  | ind n ih =>
    rw [drain]
    by_cases h8 : 8 ≤ n
    · obtain ⟨hlen, hsmall⟩ := ih (n - 8) (by omega) (out ++ [buf.toUInt8]) (buf >>> 8)
      rw [length_append, length_singleton] at hlen
      rw [if_pos h8]
      exact ⟨by omega, hsmall⟩
    · rw [if_neg h8]
      exact ⟨rfl, Nat.not_le.mp h8⟩

/-- As many bits are packed as the fields have, and less than a byte more. -/
theorem length_packBits (bits : ℕ) (xs : List UInt64) :
    8 * (packBits bits xs).length ≤ bits * xs.length + 7 := by
  -- the loop, from any state
  have hloop : ∀ (xs : List UInt64) (s : List UInt8 × UInt64 × ℕ), s.2.2 < 8 →
      8 * (xs.foldl (packStep bits) s).1.length + (xs.foldl (packStep bits) s).2.2 =
          8 * s.1.length + s.2.2 + bits * xs.length ∧
        (xs.foldl (packStep bits) s).2.2 < 8 := by
    intro xs
    induction xs with
    | nil => exact fun s hs => ⟨rfl, hs⟩
    | cons x xs ih =>
      intro s hs
      have hstep := length_drain s.1 (s.2.1 ||| (x &&& packMask bits) <<< UInt64.ofNat s.2.2) (s.2.2 + bits)
      obtain ⟨hlen, hsmall⟩ := ih (packStep bits s x) hstep.2
      rw [foldl_cons]
      refine ⟨?_, hsmall⟩
      rw [hlen, packStep, hstep.1, length_cons, Nat.mul_succ]
      omega
  obtain ⟨hlen, hsmall⟩ := hloop xs ([], 0, 0) (by decide)
  unfold packBits
  generalize xs.foldl (packStep bits) ([], 0, 0) = s at hlen hsmall
  obtain ⟨out, buf, n⟩ := s
  dsimp only [length_nil] at hlen hsmall ⊢
  split
  · rw [length_append, length_singleton]
    omega
  · omega

/-- At most 64 bits are packed for a value. -/
theorem length_packBits_le {bits : ℕ} (hbits : bits ≤ 64) (xs : List UInt64) :
    (packBits bits xs).length ≤ 8 * xs.length := by
  have hlen := length_packBits bits xs
  have hmul := Nat.mul_le_mul_right xs.length hbits
  omega

/-! ### Differences -/

theorem length_varintEncode (v : UInt64) {n : ℕ} (hv : v.toNat < 128 ^ (n + 1)) :
    (varintEncode v).length ≤ n + 1 := by
  induction n generalizing v with
  | zero =>
    rw [varintEncode, dif_neg]
    · exact le_rfl
    · rw [UInt64.le_iff_toNat_le]
      exact Nat.not_le.mpr hv
  | succ n ih =>
    rw [varintEncode]
    split
    · have hshift := toNat_shiftRight v (show 7 < 64 by decide)
      have hnext : (v >>> 7).toNat < 128 ^ (n + 1) := by
        rw [pow_succ] at hv
        exact hshift.trans_lt (Nat.div_lt_of_lt_mul (by rwa [Nat.mul_comm] at hv))
      exact succ_le_succ (ih (v >>> 7) hnext)
    · simp

theorem DeltaOfDeltaCodec.length_encodeRest (prevDelta prev : Int64) (vals : List Int64) :
    (encodeRest prevDelta prev vals).length ≤ 10 * vals.length := by
  induction vals generalizing prevDelta prev with
  | nil => exact le_rfl
  | cons v vals ih =>
    have hbound : (zigZag (v - prev - prevDelta)).toNat < 128 ^ (9 + 1) := (UInt64.toNat_lt _).trans (by decide)
    have hone := length_varintEncode _ hbound
    have hrest := ih (v - prev) v
    rw [encodeRest, length_append, length_cons]
    omega

/-! ### Runs -/

theorem RunLengthCodec.length_encodeRest (current : Int64) (run : UInt32) (vals : List Int64) :
    (encodeRest current run vals).length ≤ 12 * (vals.length + 1) := by
  have hentry (run : UInt32) (v : Int64) : (entry run v).length = 12 := by rfl
  induction vals generalizing current run with
  | nil =>
    rw [encodeRest, hentry]
    exact le_rfl
  | cons v vals ih =>
    rw [encodeRest, length_cons]
    split
    · have hrest := ih current (run + 1)
      omega
    · have hrest := ih v 1
      rw [length_append, hentry]
      omega

/-! ### Codes -/

/-- One more bit is written. -/
theorem BitWriter.length_writeBit (w : BitWriter) (bit : Bool) (h : w.nBits < 64) :
    8 * (w.writeBit bit).bytes.length + (w.writeBit bit).nBits = 8 * w.bytes.length + w.nBits + 1 ∧
      (w.writeBit bit).nBits < 64 := by
  have hbytes (x : ℕ) : (toBE x).length = 8 := by rw [toBE, length_reverse, toLE_length]
  unfold BitWriter.writeBit
  by_cases hflush : w.nBits + 1 = 64
  · rw [if_pos hflush]
    dsimp only
    rw [length_append, hbytes]
    omega
  · rw [if_neg hflush]
    dsimp only
    omega

theorem BitWriter.length_writeBits (w : BitWriter) (value : UInt64) (count : ℕ) (h : w.nBits < 64) :
    8 * (w.writeBits value count).bytes.length + (w.writeBits value count).nBits =
        8 * w.bytes.length + w.nBits + count ∧
      (w.writeBits value count).nBits < 64 := by
  unfold BitWriter.writeBits
  have hloop : ∀ (is : List ℕ) (w : BitWriter), w.nBits < 64 →
      8 * (is.foldl (fun w i => w.writeBit (value >>> UInt64.ofNat i &&& 1 != 0)) w).bytes.length +
          (is.foldl (fun w i => w.writeBit (value >>> UInt64.ofNat i &&& 1 != 0)) w).nBits =
          8 * w.bytes.length + w.nBits + is.length ∧
        (is.foldl (fun w i => w.writeBit (value >>> UInt64.ofNat i &&& 1 != 0)) w).nBits < 64 := by
    intro is
    induction is with
    | nil => exact fun w hw => ⟨rfl, hw⟩
    | cons i is ih =>
      intro w hw
      obtain ⟨hone, hfew⟩ := w.length_writeBit (value >>> UInt64.ofNat i &&& 1 != 0) hw
      obtain ⟨hlen, hfew'⟩ := ih _ hfew
      rw [foldl_cons, length_cons]
      exact ⟨by omega, hfew'⟩
  have hall := hloop (List.range count).reverse w h
  rwa [length_reverse, length_range] at hall

namespace DictionaryCodec

variable {bits : ℕ}

theorem length_packSlow (hbits : bits ≤ 64) (codes : List UInt64) :
    (packSlow bits codes).length ≤ 8 * codes.length + 8 := by
  have hloop : ∀ (codes : List UInt64) (w : BitWriter), w.nBits < 64 →
      8 * (codes.foldl (fun w code => w.writeBits code bits) w).bytes.length +
          (codes.foldl (fun w code => w.writeBits code bits) w).nBits =
        8 * w.bytes.length + w.nBits + bits * codes.length := by
    intro codes
    induction codes with
    | nil => exact fun w hw => rfl
    | cons code codes ih =>
      intro w hw
      obtain ⟨hone, hfew⟩ := w.length_writeBits code bits hw
      rw [foldl_cons, ih _ hfew, hone, length_cons, Nat.mul_succ]
      omega
  have hall := hloop codes BitWriter.new (by decide)
  have hmul := Nat.mul_le_mul_right codes.length hbits
  have hnew : 8 * BitWriter.new.bytes.length + BitWriter.new.nBits = 0 := rfl
  rw [hnew] at hall
  unfold packSlow BitWriter.intoBytes
  generalize codes.foldl (fun w code => w.writeBits code bits) BitWriter.new = w at hall
  split
  · rw [length_append, toBE, length_reverse, toLE_length]
    omega
  · omega

theorem length_packCodes (hbits : bits ≤ 64) (codes : List UInt64) :
    (packCodes bits codes).length ≤ 8 * codes.length + 8 := by
  have hslow := length_packSlow hbits codes
  have hwhole {f : UInt64 → List UInt8} {width : ℕ} (hf : ∀ c, (f c).length = width)
      (hwidth : width ≤ 8) : (codes.flatMap f).length ≤ 8 * codes.length + 8 := by
    rw [length_flatMap fun c _ => hf c, Nat.mul_comm]
    have hmul := Nat.mul_le_mul_right codes.length hwidth
    omega
  unfold packCodes
  split
  · split
    · rw [length_map]
      omega
    · exact hwhole (fun c => toLE_length 2 _) (by decide)
    · exact hwhole (fun c => toLE_length 4 _) (by decide)
    · exact hwhole (fun c => toLE_length 8 _) (by decide)
    · exact hslow
  · exact hslow

end DictionaryCodec

/-! ### Minipages -/

/-- **A minipage has at most 16 bytes for each value, and 16 more.** -/
theorem length_encodeMinipage_le {enc : Encoding} {vals : List Int64} {page : List UInt8}
    (h : encodeMinipage enc vals = .ok page) : page.length ≤ 16 * vals.length + 16 := by
  obtain ⟨head, henc⟩ := encodeMinipage_eq_ok.mp h
  have hraw {all : List UInt8} (hall : RawCodec.encode vals = .ok (head :: all)) :
      all.length ≤ 16 * vals.length + 16 := by
    rw [← (List.cons.inj (Except.ok.inj hall)).2, length_flatMap fun v _ => length_leI64 v]
    omega
  cases enc with
  | raw | gorilla | chimp128 | fsst => exact hraw henc
  | bitPacked bits =>
    simp only [codecFor, BitPackedCodec.encode] at henc
    split at henc
    · cases henc
    · have hpacked := length_packBits_le (max_requiredBits_le (BitPackedCodec.maxVal vals))
        (vals.map Int64.toUInt64)
      rw [length_map] at hpacked
      rw [← (List.cons.inj (Except.ok.inj henc)).2, length_cons]
      omega
  | frameOfReference base bits =>
    cases vals with
    | nil =>
      rw [← (List.cons.inj (Except.ok.inj henc)).2]
      exact Nat.zero_le _
    | cons v rest =>
      have hbits := max_requiredBits_le (rangeOf (minOf v (v :: rest)) (maxOf v (v :: rest)))
      have hpacked := length_packBits_le hbits ((v :: rest).map fun x => (x - minOf v (v :: rest)).toUInt64)
      rw [length_map] at hpacked
      rw [← (List.cons.inj (Except.ok.inj henc)).2, length_append, length_leI64, length_cons]
      omega
  | deltaOfDelta =>
    rcases vals with _ | ⟨v, _ | ⟨w, rest⟩⟩
    · rw [← (List.cons.inj (Except.ok.inj henc)).2]
      exact Nat.zero_le _
    · rw [← (List.cons.inj (Except.ok.inj henc)).2, length_leI64, length_singleton]
      decide
    · have hrest := DeltaOfDeltaCodec.length_encodeRest (w - v) w rest
      rw [← (List.cons.inj (Except.ok.inj henc)).2, length_append, length_append,
        length_leI64, length_leI64, length_cons, length_cons]
      omega
  | dictionary dictId =>
    cases vals with
    | nil =>
      rw [← (List.cons.inj (Except.ok.inj henc)).2]
      decide
    | cons v rest =>
      have hcodes := DictionaryCodec.length_packCodes
        (requiredBits_le_64 (UInt64.ofNat (DictionaryCodec.dictOf (v :: rest)).length))
        ((v :: rest).map (DictionaryCodec.codeOf (DictionaryCodec.dictOf (v :: rest))))
      have hdict : (DictionaryCodec.dictOf (v :: rest)).length ≤ (v :: rest).length := by
        rw [DictionaryCodec.length_dictOf]
        exact toFinset_card_le _
      rw [length_map] at hcodes
      rw [← (List.cons.inj (Except.ok.inj henc)).2, length_append, length_append,
        length_leU32, length_flatMap fun w _ => length_leI64 w, length_cons]
      omega
  | runLength =>
    cases vals with
    | nil =>
      rw [← (List.cons.inj (Except.ok.inj henc)).2]
      exact Nat.zero_le _
    | cons v rest =>
      have hruns := RunLengthCodec.length_encodeRest v 1 rest
      rw [← (List.cons.inj (Except.ok.inj henc)).2, length_cons]
      omega

/-! ### Blocks -/

variable {laid : List (ColumnDirectory × List UInt8)} {b : PaxBlockBuilder}

/-- Regions that end in a block are all written to it. -/
theorem blockWrites_fit {hdr : BlockHeader} {minipages : List (List UInt8)} {varheap : List UInt8}
    {voff size : ℕ} (hlens : minipages.map List.length = laid.map fun d => d.2.length)
    (hdirs : 64 + laid.length * 64 ≤ size) (hpages : ∀ d ∈ laid, d.1.minipageOff.toNat + d.2.length ≤ size)
    (hheap : voff + varheap.length ≤ size) :
    ∀ w ∈ blockWrites hdr (laid.map Prod.fst) minipages voff varheap, w.1 + w.2.length ≤ size := by
  intro w hw
  cases mem_cons.mp hw with
  | inl hheader =>
    rw [hheader, BlockHeader.length_bytes, blockHeaderSize]
    omega
  | inr hrest =>
    cases mem_append.mp hrest with
    | inl hdir =>
      have hend := (mem_directoryWrites hdir).2
      rw [length_map] at hend
      exact hend.trans hdirs
    | inr hrest =>
      cases mem_append.mp hrest with
      | inl hpage =>
        obtain ⟨d, hd, hoff, hlen⟩ := mem_minipageWrites hlens hpage
        rw [hoff, hlen]
        exact hpages d hd
      | inr hlast =>
        rw [mem_singleton.mp hlast]
        exact hheap

/-- **A builder makes a block if and only if its regions and bitmaps fit**, as long as no offset
wraps. -/
theorem finalize_isOk_iff {stop : ℕ} (hstaging : b.staging.length = b.specs.length)
    (hlayout : layoutColumns b.rowCount (64 + b.specs.length * 64) (b.specs.zip b.staging) = .ok (laid, stop))
    (hstop : stop + 8 ≤ 2 ^ 32) :
    (∃ block, b.finalize = .ok block) ↔
      alignUp stop 8 + (mergeHeaps [] (b.specs.zip b.staging) (laid.map Prod.snd)).2.length +
        b.specs.length * ((b.rowCount.toNat + 7) / 8) + (b.rowCount.toNat + 7) / 8 ≤ b.blockSize.toNat := by
  have hcolumns : (b.specs.zip b.staging).length = b.specs.length := by simp [hstaging]
  have hlaid := (length_layoutColumns hlayout).trans hcolumns
  obtain ⟨hstart, hpages⟩ := layoutColumns_fits hlayout (by omega)
  have hge := le_alignUp stop (show 0 < 8 by decide)
  have hlt := alignUp_lt stop (show 0 < 8 by decide)
  have hdirOff : (UInt32.ofNat (minipagesOffsetAfterDirectory b.specs.length)).toNat =
      64 + b.specs.length * 64 := by
    rw [minipagesOffset_eq, UInt32.toNat_ofNat', mod_eq_of_lt (by omega)]
  have hheapOff : (UInt32.ofNat (alignUp stop 8)).toNat = alignUp stop 8 := by
    rw [UInt32.toNat_ofNat', mod_eq_of_lt (by omega)]
  have hmerged := (mergeHeaps_spec (show (b.specs.zip b.staging).length = (laid.map Prod.snd).length by
      rw [length_map, hlaid, hcolumns]) []).lengths
  rw [map_map] at hmerged
  unfold PaxBlockBuilder.finalize
  dsimp only
  rw [hdirOff, hlayout]
  dsimp only
  generalize mergeHeaps [] (b.specs.zip b.staging) (laid.map Prod.snd) = merged at hmerged
  obtain ⟨minipages, varheap⟩ := merged
  dsimp only at hmerged ⊢
  rw [hheapOff]
  split
  · rename_i hover
    exact iff_of_false (by simp) (Nat.not_le.mpr hover)
  · rename_i hfit
    have halloc : allocAlignedBlock b.blockSize.toNat =
        .ok (List.replicate b.blockSize.toNat 0) := if_neg (by omega)
    rw [halloc]
    dsimp only
    refine iff_of_true ?_ (Nat.not_lt.mp hfit)
    have hwritten (hdr : BlockHeader) : ∃ buf, writeAll (List.replicate b.blockSize.toNat 0)
        (blockWrites hdr (laid.map Prod.fst) minipages (alignUp stop 8) varheap) = some buf := by
      apply writeAll_isSome
      rw [length_replicate]
      exact blockWrites_fit hmerged (by omega) (fun d hd => (hpages d hd).trans (by omega)) (by omega)
    split
    · rename_i hnone
      exact absurd hnone (Option.ne_none_iff_exists'.mpr (hwritten _))
    · simp

/-- The minipages, the heap and the bitmaps of a builder end in its block. -/
def PaxBlockBuilder.Fits (b : PaxBlockBuilder) : Prop :=
  ∃ laid stop, layoutColumns b.rowCount (64 + b.specs.length * 64) (b.specs.zip b.staging) = .ok (laid, stop) ∧
      alignUp stop 8 + (mergeHeaps [] (b.specs.zip b.staging) (laid.map Prod.snd)).2.length +
        b.specs.length * ((b.rowCount.toNat + 7) / 8) + (b.rowCount.toNat + 7) / 8 ≤ b.blockSize.toNat

/-- In a block that is not too large a builder makes a block if and only if it fits. -/
theorem finalize_isOk_iff_fits (hstaging : b.staging.length = b.specs.length)
    (hsize : b.blockSize.toNat + minipageAlign ≤ 2 ^ 32) : (∃ block, b.finalize = .ok block) ↔ b.Fits := by
  have halign : minipageAlign = 64 := rfl
  constructor
  · rintro ⟨block, hblock⟩
    obtain ⟨laid, stop, minipages, varheap, hdr, hfin⟩ := finalize_cases hblock hstaging
    have hstop := hfin.stop_le hsize
    exact ⟨laid, stop, hfin.layout_eq,
      (finalize_isOk_iff hstaging hfin.layout_eq (by omega)).mp ⟨block, hblock⟩⟩
  · rintro ⟨laid, stop, hlayout, hfit⟩
    have hge := le_alignUp stop (show 0 < 8 by decide)
    exact (finalize_isOk_iff hstaging hlayout (by omega)).mpr hfit

end CenDB.Storage
