import CenDB.Storage.Checked

/-! # Damaged pages

What a minipage of any bytes decodes to: an error, exactly the values that were asked for, or else a panic or
too few values.  `Decodable` says for each encoding which pages and counts are of the first kind
(`decodeMinipage_answers_iff`). -/

namespace CenDB.Storage.Checked

open Words List

/-- An error, or as many values as were asked for. -/
def Answers (r : Except Halt (List Int64)) (count : ℕ) : Prop :=
  (∃ e, r = .error (.error e)) ∨ ∃ vals, r = .ok vals ∧ vals.length = count

/-- The sum of the run lengths of the whole entries. -/
def runSum (body : List UInt8) : ℕ :=
  if 12 ≤ body.length then (u32At body 0).toNat + runSum (body.drop 12) else 0
  termination_by body.length
  decreasing_by
    rw [List.length_drop]
    omega

/-- The dictionary or the width of its codes is cut off. -/
def Headless (bytes : List UInt8) : Prop :=
  bytes.length < 5 ∨ bytes.length < 4 + (u32At bytes 0).toNat * 8 + 1

/-- The page is refused for its length, or so many values can be reserved; the runs are as many as asked for;
and there is a value for codes of no bits. -/
def Decodable : Encoding → List UInt8 → ℕ → Prop
  | .raw, bytes, count | .gorilla, bytes, count | .chimp128, bytes, count | .fsst, bytes, count =>
    count < 2 ^ 60 ∨ bytes.length < count * 8 % 2 ^ 64
  | .bitPacked _, bytes, count => count < 2 ^ 60 ∨ bytes = []
  | .frameOfReference _ _, bytes, count => count < 2 ^ 60 ∨ bytes.length < 9
  | .deltaOfDelta, bytes, count => count < 2 ^ 60 ∨ bytes.length < 8
  | .runLength, bytes, count => count < 2 ^ 60 ∧ count ≤ runSum bytes
  | .dictionary _, bytes, count =>
    Headless bytes ∨ count < 2 ^ 60 ∧ (count = 0 ∨ u32At bytes 0 ≠ 0 ∨ bytes.getD 4 0 ≠ 0)

/-! ### Answers -/

theorem answers_corrupt (message : String) (count : ℕ) : Answers (.error (corrupt message)) count :=
  Or.inl ⟨_, rfl⟩

variable {count : ℕ}

theorem answers_ok {vals : List Int64} (h : vals.length = count) : Answers (.ok vals) count :=
  Or.inr ⟨vals, rfl, h⟩

theorem not_answers_panic (count : ℕ) : ¬Answers (.error .panic) count := by
  rintro (⟨e, h⟩ | ⟨vals, h, -⟩) <;> cases h

theorem answers_ok_iff {vals : List Int64} : Answers (.ok vals) count ↔ vals.length = count := by
  refine ⟨?_, answers_ok⟩
  rintro (⟨e, h⟩ | ⟨vals', h, hlen⟩)
  · cases h
  · cases h
    exact hlen

/-- One more value in front. -/
theorem answers_cons (r : Except Halt (List Int64)) (count : ℕ) (v : Int64) : Answers r count →
    Answers (match r with | .error e => .error e | .ok vals => .ok (v :: vals)) (count + 1) := by
  rintro (⟨e, rfl⟩ | ⟨vals, rfl, rfl⟩)
  · exact Or.inl ⟨e, rfl⟩
  · exact answers_ok rfl

/-! ### The plain decoders -/

theorem answers_raw (b : UInt8) (bytes : List UInt8) (count : ℕ) : Answers (RawCodec.decode (b :: bytes) count) count := by
  rw [RawCodec.decode, if_neg (by simp)]
  dsimp only
  split
  · exact answers_corrupt _ _
  · exact answers_ok (by rw [length_map, length_range])

theorem answers_bitPacked (bytes : List UInt8) (count : ℕ) : Answers (BitPackedCodec.decode bytes count) count := by
  unfold BitPackedCodec.decode
  split
  · exact answers_corrupt _ _
  · exact answers_ok (by rw [length_map, length_unpackBits])

theorem answers_frameOfReference (bytes : List UInt8) (count : ℕ) :
    Answers (FrameOfReferenceCodec.decode bytes count) count := by
  unfold FrameOfReferenceCodec.decode
  split
  · exact answers_corrupt _ _
  · exact answers_ok (by rw [length_map, length_unpackBits])

theorem answers_decodeRest (bytes : List UInt8) (prevDelta prev : Int64) (count : ℕ) :
    Answers (DeltaOfDeltaCodec.decodeRest bytes prevDelta prev count) count := by
  induction count generalizing bytes prevDelta prev with
  | zero => exact answers_ok rfl
  | succ count ih =>
    rw [DeltaOfDeltaCodec.decodeRest]
    cases Storage.varintDecode bytes with
    | none => exact answers_corrupt _ _
    | some e =>
      dsimp only
      rcases ih (bytes.drop e.2) (prevDelta + unZigZag e.1) (prev + (prevDelta + unZigZag e.1)) with
        ⟨e', h⟩ | ⟨vals, h, hlen⟩
      · rw [h]
        exact Or.inl ⟨e', rfl⟩
      · rw [h]
        exact answers_ok (congrArg (· + 1) hlen)

theorem answers_deltaOfDelta (b : UInt8) (bytes : List UInt8) (count : ℕ) :
    Answers (DeltaOfDeltaCodec.decode (b :: bytes) count) count := by
  rw [DeltaOfDeltaCodec.decode, if_neg (by simp)]
  split
  · rename_i hzero
    exact answers_ok hzero.symm
  · split
    · exact answers_corrupt _ _
    · dsimp only
      split
      · rename_i hone
        exact answers_ok hone.symm
      · split
        · exact answers_corrupt _ _
        · rcases answers_decodeRest ((b :: bytes).drop 17) (i64At (b :: bytes) 9)
            (i64At (b :: bytes) 1 + i64At (b :: bytes) 9) (count - 2) with ⟨e, h⟩ | ⟨vals, h, hlen⟩
          · rw [h]
            exact Or.inl ⟨e, rfl⟩
          · rw [h]
            refine answers_ok ?_
            rw [length_cons, length_cons, hlen]
            omega

theorem length_expandBody (body : List UInt8) : (RunLengthCodec.expandBody body).length = runSum body := by
  induction hn : body.length using Nat.strongRecOn generalizing body with
  | ind n ih =>
    rw [RunLengthCodec.expandBody, runSum]
    split
    · rw [length_append, length_replicate, ih _ (by rw [List.length_drop]; omega) (body.drop 12) rfl]
    · rfl

/-- Runs that are too short leave values out. -/
theorem decode_runLength (b : UInt8) (bytes : List UInt8) (count : ℕ) :
    ∃ vals, RunLengthCodec.decode (b :: bytes) count = .ok vals ∧ vals.length = min count (runSum bytes) := by
  have hloop := @RunLengthCodec.decodeLoop_eq [] count bytes (Nat.zero_le count)
  refine ⟨_, by rw [RunLengthCodec.decode, if_neg (by simp)], ?_⟩
  rw [drop_succ_cons, drop_zero, hloop, List.nil_append, length_take, length_expandBody]

theorem answers_runLength_iff (b : UInt8) (bytes : List UInt8) (count : ℕ) :
    Answers (RunLengthCodec.decode (b :: bytes) count) count ↔ count ≤ runSum bytes := by
  obtain ⟨vals, hread, hlen⟩ := decode_runLength b bytes count
  rw [hread, answers_ok_iff, hlen]
  omega

/-- The value of a code in front, or an error. -/
theorem answers_lookupCode (dict : List Int64) (code count : ℕ) (r : Except Halt (List Int64)) : Answers r count →
    Answers (match DictionaryCodec.lookupCode dict code with
      | .error e => .error e
      | .ok v => match r with | .error e => .error e | .ok vals => .ok (v :: vals)) (count + 1) := by
  intro h
  unfold DictionaryCodec.lookupCode
  by_cases hcode : code < dict.length
  · rw [if_pos hcode]
    exact answers_cons r count _ h
  · rw [if_neg hcode]
    exact answers_corrupt _ _

theorem answers_lookupWhole (dict : List Int64) (packed : List UInt8) (width : ℕ) (is : List ℕ) :
    Answers (DictionaryCodec.lookupWhole dict packed width is) is.length := by
  induction is with
  | nil => exact answers_ok rfl
  | cons i is ih =>
    rw [DictionaryCodec.lookupWhole]
    exact answers_lookupCode dict _ _ _ ih

theorem answers_decodeWhole (dict : List Int64) (packed : List UInt8) (width count : ℕ) :
    Answers (DictionaryCodec.decodeWhole dict packed width count) count := by
  unfold DictionaryCodec.decodeWhole
  split
  · exact answers_corrupt _ _
  · have hwhole := answers_lookupWhole dict packed width (List.range count)
    rwa [length_range] at hwhole

theorem answers_decodeSlow (dict : List Int64) (packed : List UInt8) (bits : ℕ) (message : ℕ → String)
    (count bitPos done : ℕ) : Answers (DictionaryCodec.decodeSlow dict packed bits message count bitPos done) count := by
  induction count generalizing bitPos done with
  | zero => exact answers_ok rfl
  | succ count ih =>
    rw [DictionaryCodec.decodeSlow]
    split
    · exact answers_corrupt _ _
    · exact answers_lookupCode dict _ _ _ (ih _ _)

/-- Codes of no bits stand for the first value. -/
theorem answers_decodeCodes_iff (dict : List Int64) (packed : List UInt8) (bits count : ℕ) :
    Answers (DictionaryCodec.decodeCodes dict packed bits count) count ↔ count = 0 ∨ dict ≠ [] ∨ bits ≠ 0 := by
  by_cases hbits : bits = 0
  · rw [hbits]
    cases count with
    | zero => exact iff_of_true (answers_ok rfl) (Or.inl rfl)
    | succ count =>
      cases dict with
      | nil => exact iff_of_false (not_answers_panic _) (by simp)
      | cons v dict => exact iff_of_true (answers_ok (length_replicate ..)) (by simp)
  · refine iff_of_true ?_ (Or.inr (Or.inr hbits))
    unfold DictionaryCodec.decodeCodes
    split
    · rename_i h8
      have hpos : bits / 8 ≠ 0 := by omega
      split
      · omega
      · exact answers_decodeWhole dict packed 1 count
      · exact answers_decodeWhole dict packed 2 count
      · exact answers_decodeWhole dict packed 4 count
      · exact answers_decodeWhole dict packed 8 count
      · exact answers_decodeSlow dict packed bits _ count 0 0
    · exact answers_decodeSlow dict packed bits _ count 0 0

theorem answers_dictionary_iff (b : UInt8) (bytes : List UInt8) (count : ℕ) :
    Answers (DictionaryCodec.decode (b :: bytes) count) count ↔
      Headless bytes ∨ count = 0 ∨ u32At bytes 0 ≠ 0 ∨ bytes.getD 4 0 ≠ 0 := by
  rw [DictionaryCodec.decode, if_neg (by simp)]
  dsimp only
  rw [drop_succ_cons, drop_zero]
  by_cases hshort : bytes.length < 5
  · rw [if_pos hshort]
    exact iff_of_true (answers_corrupt _ _) (Or.inl (Or.inl hshort))
  · rw [if_neg hshort]
    by_cases hmissing : bytes.length < 4 + (u32At bytes 0).toNat * 8 + 1
    · rw [if_pos hmissing]
      exact iff_of_true (answers_corrupt _ _) (Or.inl (Or.inr hmissing))
    · rw [if_neg hmissing, answers_decodeCodes_iff]
      have hheadless : ¬Headless bytes := fun h => h.elim hshort hmissing
      rw [or_iff_right hheadless]
      by_cases hempty : u32At bytes 0 = 0
      · have hzero : (u32At bytes 0).toNat = 0 := by rw [hempty]; rfl
        have hbyte : (bytes.getD 4 0).toNat ≠ 0 ↔ bytes.getD 4 0 ≠ 0 := by
          rw [ne_eq, ne_eq, ← UInt8.toNat_inj]
          rfl
        rw [hzero]
        simp only [range_zero, map_nil, ne_eq, not_true_eq_false, false_or, Nat.zero_mul, Nat.add_zero, hempty]
        exact or_congr_right hbyte
      · have hpos : (u32At bytes 0).toNat ≠ 0 := fun h => hempty (UInt32.toNat_inj.mp h)
        refine iff_of_true (Or.inr (Or.inl fun hnil => hpos ?_)) (Or.inr (Or.inl hempty))
        rw [map_eq_nil_iff, range_eq_nil] at hnil
        exact hnil

/-! ### More values than can be reserved -/

theorem rawDecode_cons (h : 2 ^ 60 ≤ count) (b : UInt8) (bytes : List UInt8) :
    Answers (rawDecode (b :: bytes) count) count ↔ bytes.length < count * 8 % 2 ^ 64 := by
  rw [rawDecode, slice_tail]
  simp only [isEmpty_cons, Bool.false_eq_true, if_false, bind, Except.bind]
  split
  · rename_i hshort
    exact iff_of_true (answers_corrupt _ _) hshort
  · rename_i hlong
    rw [reserve_of_le h]
    exact iff_of_false (not_answers_panic count) hlong

theorem bitPackedDecode_cons (h : 2 ^ 60 ≤ count) (b : UInt8) (bytes : List UInt8) :
    Answers (bitPackedDecode (b :: bytes) count) count ↔ bytes = [] := by
  cases bytes with
  | nil => exact iff_of_true (answers_corrupt _ _) rfl
  | cons b' bytes =>
    have hbody : slice (b :: b' :: bytes) 2 (b :: b' :: bytes).length = .ok bytes := Guarded.slice_to_end (by simp)
    refine iff_of_false ?_ nofun
    rw [bitPackedDecode, if_neg (by simp), index_of_lt (by simp) 0]
    simp only [bind, Except.bind, hbody, reserve_of_le h]
    exact not_answers_panic count

theorem frameOfReferenceDecode_cons (h : 2 ^ 60 ≤ count) (b : UInt8) (bytes : List UInt8) :
    Answers (frameOfReferenceDecode (b :: bytes) count) count ↔ bytes.length < 9 := by
  by_cases hshort : bytes.length < 9
  · rw [frameOfReferenceDecode, if_pos (by rw [length_cons]; omega)]
    exact iff_of_true (answers_corrupt _ _) hshort
  · have hlen : 10 ≤ (b :: bytes).length := by
      rw [length_cons]
      omega
    have hbody : slice (b :: bytes) 10 (b :: bytes).length = .ok ((b :: bytes).drop 10) := Guarded.slice_to_end hlen
    refine iff_of_false ?_ hshort
    rw [frameOfReferenceDecode, if_neg (Nat.not_lt.mpr hlen), takeAt_of_le (by omega), index_of_lt (by omega) 0]
    simp only [bind, Except.bind, hbody, reserve_of_le h]
    exact not_answers_panic count

theorem deltaOfDeltaDecode_cons (h : 2 ^ 60 ≤ count) (b : UInt8) (bytes : List UInt8) :
    Answers (deltaOfDeltaDecode (b :: bytes) count) count ↔ bytes.length < 8 := by
  have hzero : count ≠ 0 := by omega
  rw [deltaOfDeltaDecode, if_neg (by simp), if_neg hzero]
  by_cases hshort : bytes.length < 8
  · rw [if_pos (by rw [length_cons]; omega)]
    exact iff_of_true (answers_corrupt _ _) hshort
  · have hlen : 9 ≤ (b :: bytes).length := by
      rw [length_cons]
      omega
    refine iff_of_false ?_ hshort
    rw [if_neg (Nat.not_lt.mpr hlen), takeAt_of_le hlen]
    simp only [bind, Except.bind, reserve_of_le h]
    exact not_answers_panic count

theorem runLengthDecode_cons (h : 2 ^ 60 ≤ count) (b : UInt8) (bytes : List UInt8) :
    ¬Answers (runLengthDecode (b :: bytes) count) count := by
  rw [runLengthDecode, slice_tail]
  simp only [isEmpty_cons, Bool.false_eq_true, if_false, bind, Except.bind, reserve_of_le h]
  exact not_answers_panic count

theorem dictionaryDecode_headless {bytes : List UInt8} (h : Headless bytes) (b : UInt8) (count : ℕ) :
    Answers (dictionaryDecode (b :: bytes) count) count := by
  rw [dictionaryDecode, slice_tail]
  simp only [isEmpty_cons, Bool.false_eq_true, if_false, bind, Except.bind]
  by_cases hshort : bytes.length < 5
  · rw [if_pos hshort]
    exact answers_corrupt _ _
  · have hmissing : bytes.length < 4 + (u32At bytes 0).toNat * 8 + 1 := h.resolve_left hshort
    have hlen : u32Of (Words.slice bytes 0 (0 + 4)) = u32At bytes 0 := rfl
    rw [if_neg hshort, takeAt_of_le (by omega)]
    dsimp only
    rw [hlen, if_pos hmissing]
    exact answers_corrupt _ _

theorem dictionaryDecode_cons_iff (h : 2 ^ 60 ≤ count) (b : UInt8) (bytes : List UInt8) :
    Answers (dictionaryDecode (b :: bytes) count) count ↔ Headless bytes := by
  refine ⟨fun hanswers => ?_, fun hheadless => dictionaryDecode_headless hheadless b count⟩
  by_contra hheadless
  rw [Headless, not_or] at hheadless
  rw [dictionaryDecode_cons b hheadless.1 hheadless.2] at hanswers
  simp only [bind, Except.bind, reserve_of_le h] at hanswers
  exact not_answers_panic count hanswers

/-- **Exactly the decodable pages are answered.** -/
theorem decodeMinipage_answers_iff (enc : Encoding) (bytes : List UInt8) (count : ℕ) :
    Answers (decodeMinipage enc bytes count) count ↔ Decodable enc bytes count := by
  by_cases h : count < 2 ^ 60
  · rw [decodeMinipage_eq enc bytes h, Storage.decodeMinipage]
    generalize enc.discriminant = b
    cases enc with
    | raw | gorilla | chimp128 | fsst => exact iff_of_true (answers_raw b bytes count) (Or.inl h)
    | bitPacked bits => exact iff_of_true (answers_bitPacked _ count) (Or.inl h)
    | frameOfReference base bits => exact iff_of_true (answers_frameOfReference _ count) (Or.inl h)
    | deltaOfDelta => exact iff_of_true (answers_deltaOfDelta b bytes count) (Or.inl h)
    | dictionary dictId => exact (answers_dictionary_iff b bytes count).trans (or_congr_right (and_iff_right h).symm)
    | runLength => exact (answers_runLength_iff b bytes count).trans (and_iff_right h).symm
  · have hle : 2 ^ 60 ≤ count := Nat.not_lt.mp h
    rw [decodeMinipage]
    generalize enc.discriminant = b
    cases enc with
    | raw | gorilla | chimp128 | fsst => exact (rawDecode_cons hle b bytes).trans (or_iff_right h).symm
    | bitPacked bits => exact (bitPackedDecode_cons hle b bytes).trans (or_iff_right h).symm
    | frameOfReference base bits => exact (frameOfReferenceDecode_cons hle b bytes).trans (or_iff_right h).symm
    | deltaOfDelta => exact (deltaOfDeltaDecode_cons hle b bytes).trans (or_iff_right h).symm
    | dictionary dictId =>
      exact (dictionaryDecode_cons_iff hle b bytes).trans (or_iff_left fun hall => h hall.1).symm
    | runLength => exact iff_of_false (runLengthDecode_cons hle b bytes) fun hall => h hall.1

/-- A dictionary without values and codes of no bits, and a page without runs. -/
theorem damaged_pages :
    decodeMinipage (.dictionary 0) [0, 0, 0, 0, 0] 1 = .error .panic ∧ decodeMinipage .runLength [] 1 = .ok [] ∧
      ¬Answers (decodeMinipage (.dictionary 0) [0, 0, 0, 0, 0] 1) 1 ∧ ¬Answers (decodeMinipage .runLength [] 1) 1 := by
  have hpanic : decodeMinipage (.dictionary 0) [0, 0, 0, 0, 0] 1 = .error .panic := by decide
  have hshort : decodeMinipage .runLength [] 1 = .ok [] := by decide +kernel
  refine ⟨hpanic, hshort, ?_, ?_⟩
  · rw [hpanic]
    exact not_answers_panic 1
  · rw [hshort, answers_ok_iff]
    decide

end CenDB.Storage.Checked
