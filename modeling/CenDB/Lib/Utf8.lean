import Mathlib.Tactic

/-! # UTF-8 text as bytes

Texts are lists of characters and files are lists of bytes.  `encode` and `decode` are the encoder
and the decoder of `ByteArray`, as functions on lists; `latin1` reads every byte as a character of
its own.  Reading an encoded text that way gives the text back exactly when it is ASCII
(`latin1_encode_eq_self`). -/

namespace Utf8

open List Nat

/-- The UTF-8 bytes of a text. -/
def encode (cs : List Char) : List UInt8 := cs.flatMap String.utf8EncodeChar

/-- The text of some bytes, if they are valid. -/
def decode (bytes : List UInt8) : Option (List Char) := bytes.toByteArray.utf8Decode?.map Array.toList

/-- One character for each byte. -/
def latin1 (bytes : List UInt8) : List Char := bytes.map fun b => Char.ofNat b.toNat

def Ascii (c : Char) : Prop := c.toNat < 128

instance (c : Char) : Decidable (Ascii c) := inferInstanceAs (Decidable (c.toNat < 128))

/-- Only the characters of the list are tried. -/
instance (priority := 2000) decidableForallMem (p : Char → Prop) [DecidablePred p] (cs : List Char) :
    Decidable (∀ c ∈ cs, p c) := List.decidableBAll p cs

theorem encode_nil : encode [] = [] := rfl

theorem encode_cons (c : Char) (cs : List Char) :
    encode (c :: cs) = String.utf8EncodeChar c ++ encode cs := flatMap_cons

theorem encode_append (cs ds : List Char) : encode (cs ++ ds) = encode cs ++ encode ds := flatMap_append

theorem length_encode_append (cs ds : List Char) :
    (encode (cs ++ ds)).length = (encode cs).length + (encode ds).length := by simp [encode_append]

theorem decode_encode (cs : List Char) : decode (encode cs) = some cs := by
  have h : (encode cs).toByteArray.utf8Decode? = some cs.toArray := utf8Decode?_utf8Encode
  rw [decode, h]
  rfl

variable {cs : List Char} {c : Char} {b : UInt8}

theorem encode_of_decode {bytes : List UInt8} (h : decode bytes = some cs) : encode cs = bytes := by
  obtain ⟨text, htext, rfl⟩ := Option.map_eq_some_iff.mp h
  have hsome : bytes.toByteArray.utf8Decode?.isSome := by rw [htext]; rfl
  have hencode := ByteArray.utf8Encode_get_utf8Decode? (h := hsome)
  simp only [htext, Option.get_some] at hencode
  exact toByteArray_inj.mp hencode

theorem encode_injective : Function.Injective encode := by
  intro cs ds h
  have hdecode := decode_encode cs
  rw [h, decode_encode] at hdecode
  exact (Option.some.inj hdecode).symm

theorem toList_loop (bytes : ByteArray) (i : ℕ) (r : List UInt8) :
    ByteArray.toList.loop bytes i r = r.reverse ++ bytes.data.toList.drop i := by
  fun_induction ByteArray.toList.loop bytes i r with
  | case1 i r h ih =>
    have hlt : i < bytes.data.toList.length := h
    rw [ih, drop_eq_getElem_cons hlt, reverse_cons, append_assoc, singleton_append]
    congr 2
    exact getElem!_pos bytes.data i h
  | case2 i r h => rw [drop_eq_nil_of_le (Nat.le_of_not_lt h), append_nil]

theorem toUTF8_toList (s : String) : s.toUTF8.toList = encode s.toList := by
  rw [ByteArray.toList, toList_loop, reverse_nil, List.nil_append, drop_zero,
    String.toUTF8_eq_toByteArray, ← String.utf8Encode_toList, List.utf8Encode]
  exact toList_data_toByteArray

/-! ### Characters -/

theorem utf8Size_eq_one : c.utf8Size = 1 ↔ Ascii c := by
  rw [Char.utf8Size_eq_one_iff, UInt32.le_iff_toNat_le]
  exact Nat.lt_succ_iff.symm

theorem isDigit_ascii (h : c.isDigit = true) : Ascii c := by
  rw [Char.isDigit_iff_toNat] at h
  have hnine : '9'.toNat = 57 := rfl
  rw [Ascii]
  omega

theorem encodeChar_of_ascii (h : Ascii c) : String.utf8EncodeChar c = [UInt8.ofNat c.toNat] :=
  String.utf8EncodeChar_eq_singleton (utf8Size_eq_one.mpr h)

theorem one_lt_length_encodeChar (h : ¬Ascii c) : 1 < (String.utf8EncodeChar c).length := by
  have hpos := Char.utf8Size_pos c
  have hne := mt utf8Size_eq_one.mp h
  rw [String.length_utf8EncodeChar]
  omega

theorem le_or {n x m : UInt8} (h : n ≤ m) : n ≤ x ||| m := by
  rw [UInt8.le_iff_toNat_le, UInt8.toNat_or]
  exact (UInt8.le_iff_toNat_le.mp h).trans Nat.right_le_or

/-- The bytes of a character outside ASCII are all outside ASCII. -/
theorem le_of_mem_encodeChar (h : ¬Ascii c) (hb : b ∈ String.utf8EncodeChar c) : 128 ≤ b := by
  have hone := mt utf8Size_eq_one.mp h
  rcases Char.utf8Size_eq c with hsize | hsize | hsize | hsize
  · omega
  · rw [String.utf8EncodeChar_eq_cons_cons hsize] at hb
    simp only [mem_cons, not_mem_nil, or_false] at hb
    rcases hb with rfl | rfl <;> exact le_or (by decide)
  · rw [String.utf8EncodeChar_eq_cons_cons_cons hsize] at hb
    simp only [mem_cons, not_mem_nil, or_false] at hb
    rcases hb with rfl | rfl | rfl <;> exact le_or (by decide)
  · rw [String.utf8EncodeChar_eq_cons_cons_cons_cons hsize] at hb
    simp only [mem_cons, not_mem_nil, or_false] at hb
    rcases hb with rfl | rfl | rfl | rfl <;> exact le_or (by decide)

theorem or_and (x y m : UInt8) : (x ||| y) &&& m = x &&& m ||| y &&& m :=
  UInt8.toBitVec_inj.mp BitVec.and_or_distrib_right

/-- A masked byte with the bits of a mark above it is told by the mark. -/
theorem marked {mask mark : UInt8} (h : mask &&& 0xC0 = 0) (x : UInt8) :
    (x &&& mask ||| mark) &&& 0xC0 = mark &&& 0xC0 := by
  rw [or_and, UInt8.and_assoc, h]
  exact (congrArg (· ||| mark &&& 0xC0) UInt8.and_zero).trans UInt8.zero_or

/-- The bytes of a character are a first one and continuation bytes. -/
theorem encodeChar_eq_cons (c : Char) : ∃ b bs, String.utf8EncodeChar c = b :: bs ∧ b &&& 0xC0 ≠ 0x80 ∧
    ∀ x ∈ bs, x &&& 0xC0 = 0x80 := by
  have hcontinues : ∀ x : UInt8, (x &&& 63 ||| 128) &&& 0xC0 = 0x80 := marked rfl
  rcases Char.utf8Size_eq c with hsize | hsize | hsize | hsize
  · have hascii : Ascii c := utf8Size_eq_one.mp hsize
    have hfirst : ∀ n < 128, UInt8.ofNat n &&& 0xC0 ≠ 0x80 := by decide
    exact ⟨_, [], encodeChar_of_ascii hascii, hfirst c.toNat hascii, nofun⟩
  · refine ⟨_, _, String.utf8EncodeChar_eq_cons_cons hsize, ?_, ?_⟩
    · rw [marked rfl]
      decide
    · simp only [mem_singleton, forall_eq]
      exact hcontinues _
  · refine ⟨_, _, String.utf8EncodeChar_eq_cons_cons_cons hsize, ?_, ?_⟩
    · rw [marked rfl]
      decide
    · simp only [mem_cons, not_mem_nil, or_false, forall_eq_or_imp, forall_eq]
      exact ⟨hcontinues _, hcontinues _⟩
  · refine ⟨_, _, String.utf8EncodeChar_eq_cons_cons_cons_cons hsize, ?_, ?_⟩
    · rw [marked rfl]
      decide
    · simp only [mem_cons, not_mem_nil, or_false, forall_eq_or_imp, forall_eq]
      exact ⟨hcontinues _, hcontinues _, hcontinues _⟩

/-- The first byte of a character outside ASCII is no continuation byte. -/
theorem head_encodeChar (h : ¬Ascii c) : ∃ b bs, String.utf8EncodeChar c = b :: bs ∧ 192 ≤ b := by
  have hone := mt utf8Size_eq_one.mp h
  rcases Char.utf8Size_eq c with hsize | hsize | hsize | hsize
  · omega
  · exact ⟨_, _, String.utf8EncodeChar_eq_cons_cons hsize, le_or (by decide)⟩
  · exact ⟨_, _, String.utf8EncodeChar_eq_cons_cons_cons hsize, le_or (by decide)⟩
  · exact ⟨_, _, String.utf8EncodeChar_eq_cons_cons_cons_cons hsize, le_or (by decide)⟩

/-- An ASCII byte of a text is the byte of one of its characters. -/
theorem mem_of_mem_encode (hb : b ∈ encode cs) (hlt : b < 128) : ∃ c ∈ cs, c.toNat = b.toNat := by
  obtain ⟨c, hc, hmem⟩ := mem_flatMap.mp hb
  by_cases hascii : Ascii c
  · rw [encodeChar_of_ascii hascii, mem_singleton] at hmem
    refine ⟨c, hc, ?_⟩
    rw [hmem, UInt8.toNat_ofNat', mod_eq_of_lt]
    exact lt_of_lt_of_le hascii (by decide)
  · exact absurd (le_of_mem_encodeChar hascii hmem) (UInt8.not_le.mpr hlt)

/-- An ASCII byte in front is the first character. -/
theorem toNat_of_encode_cons {rest : List UInt8} (h : encode (c :: cs) = b :: rest) (hlt : b < 128) :
    c.toNat = b.toNat := by
  have hmem : b ∈ String.utf8EncodeChar c := by
    cases hbytes : String.utf8EncodeChar c with
    | nil =>
      have hpos := Char.utf8Size_pos c
      rw [← String.length_utf8EncodeChar, hbytes] at hpos
      cases hpos
    | cons b' bs =>
      rw [encode_cons, hbytes] at h
      cases h
      exact mem_cons_self
  have hmem' : b ∈ encode [c] := by rwa [encode, flatMap_singleton]
  obtain ⟨c', hc', htoNat⟩ := mem_of_mem_encode hmem' hlt
  rwa [mem_singleton.mp hc'] at htoNat

theorem lt_of_mem_encode (h : ∀ c ∈ cs, Ascii c) (hb : b ∈ encode cs) : b < 128 := by
  obtain ⟨c, hc, hmem⟩ := mem_flatMap.mp hb
  have hascii : c.toNat < 128 := h c hc
  rw [encodeChar_of_ascii hascii, mem_singleton] at hmem
  rw [hmem, UInt8.lt_iff_toNat_lt, UInt8.toNat_ofNat', mod_eq_of_lt (hascii.trans (by decide))]
  exact hascii

/-- What holds of the first 128 characters holds of every ASCII character. -/
theorem ofNat_ascii {P : Char → Prop} (h : ∀ n < 128, P (Char.ofNat n)) {c : Char} (hc : Ascii c) : P c := by
  have hn := h c.toNat hc
  rwa [Char.ofNat_toNat] at hn

/-- An ASCII byte in front is a character of its own. -/
theorem exists_of_encode_cons {rest : List UInt8} (h : encode cs = b :: rest) (hb : b < 128) :
    ∃ c ds, cs = c :: ds ∧ Ascii c ∧ UInt8.ofNat c.toNat = b ∧ encode ds = rest := by
  cases cs with
  | nil => cases h
  | cons c ds =>
    rw [encode_cons] at h
    by_cases hc : Ascii c
    · rw [encodeChar_of_ascii hc, singleton_append] at h
      obtain ⟨hbyte, hrest⟩ := List.cons.inj h
      exact ⟨c, ds, rfl, hc, hbyte, hrest⟩
    · obtain ⟨d, tail, hbytes, hd⟩ := head_encodeChar hc
      rw [hbytes, cons_append] at h
      obtain ⟨rfl, -⟩ := List.cons.inj h
      exact absurd (UInt8.lt_trans hb (by decide)) (UInt8.not_lt.mpr hd)

/-- A text may be cut behind ASCII bytes. -/
theorem exists_of_encode_append {taken rest : List UInt8} (h : encode cs = taken ++ rest)
    (htaken : ∀ b ∈ taken, b < 128) : ∃ as bs, cs = as ++ bs ∧ encode as = taken ∧ encode bs = rest := by
  induction taken generalizing cs with
  | nil => exact ⟨[], cs, rfl, rfl, h⟩
  | cons b taken ih =>
    rw [forall_mem_cons] at htaken
    obtain ⟨c, ds, rfl, hc, hbyte, hds⟩ := exists_of_encode_cons h htaken.1
    obtain ⟨as, bs, rfl, has, hbs⟩ := ih hds htaken.2
    refine ⟨c :: as, bs, rfl, ?_, hbs⟩
    rw [encode_cons, encodeChar_of_ascii hc, hbyte, has, singleton_append]

/-! ### Reading bytes as characters -/

theorem toNat_ofNat_byte (b : UInt8) : (Char.ofNat b.toNat).toNat = b.toNat := by
  have hvalid : b.toNat.isValidChar := .inl (b.toNat_lt.trans (by decide))
  rw [Char.ofNat, dif_pos hvalid]
  rfl

theorem latin1_encodeChar (h : Ascii c) : latin1 (String.utf8EncodeChar c) = [c] := by
  have hlt : c.toNat < 256 := lt_of_lt_of_le h (by decide)
  rw [encodeChar_of_ascii h, latin1, map_singleton, UInt8.toNat_ofNat', mod_eq_of_lt hlt, Char.ofNat_toNat]

theorem latin1_append (as bs : List UInt8) : latin1 (as ++ bs) = latin1 as ++ latin1 bs := map_append

theorem length_le_length_encode (cs : List Char) : cs.length ≤ (encode cs).length := by
  induction cs with
  | nil => exact Nat.le_refl 0
  | cons c cs ih =>
    have hpos := Char.utf8Size_pos c
    rw [encode_cons, length_append, String.length_utf8EncodeChar, length_cons]
    omega

theorem latin1_encode_eq_self : latin1 (encode cs) = cs ↔ ∀ c ∈ cs, Ascii c := by
  induction cs with
  | nil => simp [encode, latin1]
  | cons c cs ih =>
    rw [encode_cons, latin1_append, forall_mem_cons]
    by_cases hascii : Ascii c
    · rw [latin1_encodeChar hascii, singleton_append, cons_inj_right, ih]
      exact (and_iff_right hascii).symm
    · have hlong := one_lt_length_encodeChar hascii
      have hrest := length_le_length_encode cs
      refine iff_of_false (fun heq => ?_) (fun hall => hascii hall.1)
      have hlength := congrArg List.length heq
      rw [length_append, latin1, latin1, length_map, length_map, length_cons] at hlength
      omega

/-! ### Lossy decoding -/

/-- The ranges of the bytes that may continue a character, by its first byte. -/
def continuations (b : UInt8) : Option (List (UInt8 × UInt8)) :=
  if b < 0x80 then some []
  else if 0xC2 ≤ b ∧ b ≤ 0xDF then some [(0x80, 0xBF)]
  else if b = 0xE0 then some [(0xA0, 0xBF), (0x80, 0xBF)]
  else if b = 0xED then some [(0x80, 0x9F), (0x80, 0xBF)]
  else if 0xE1 ≤ b ∧ b ≤ 0xEF then some [(0x80, 0xBF), (0x80, 0xBF)]
  else if b = 0xF0 then some [(0x90, 0xBF), (0x80, 0xBF), (0x80, 0xBF)]
  else if 0xF1 ≤ b ∧ b ≤ 0xF3 then some [(0x80, 0xBF), (0x80, 0xBF), (0x80, 0xBF)]
  else if b = 0xF4 then some [(0x80, 0x8F), (0x80, 0xBF), (0x80, 0xBF)]
  else none

/-- A byte between characters: what it prints, and the character it starts with what may follow. -/
def startChar (b : UInt8) : List Char × List UInt8 × List (UInt8 × UInt8) :=
  match continuations b with
  | none => ([Char.ofNat 0xFFFD], [], [])
  | some [] => ([Char.ofNat b.toNat], [], [])
  | some ranges => ([], [b], ranges)

/-- Decodes with a replacement character for every broken one, after the first bytes of a
character. -/
def replaceFrom : List UInt8 → List (UInt8 × UInt8) → List UInt8 → List Char
  | pending, _, [] => if pending = [] then [] else [Char.ofNat 0xFFFD]
  | _, [], b :: rest =>
    let (out, pending, ranges) := startChar b
    out ++ replaceFrom pending ranges rest
  | pending, range :: ranges, b :: rest =>
    if range.1 ≤ b ∧ b ≤ range.2 then
      if ranges = [] then (decode (pending ++ [b])).getD [] ++ replaceFrom [] [] rest
      else replaceFrom (pending ++ [b]) ranges rest
    else
      let (out, pending, ranges) := startChar b
      Char.ofNat 0xFFFD :: (out ++ replaceFrom pending ranges rest)

/-- `String::from_utf8_lossy`: valid text is kept as it is. -/
def lossy (bytes : List UInt8) : List Char := (decode bytes).getD (replaceFrom [] [] bytes)

theorem lossy_encode (cs : List Char) : lossy (encode cs) = cs := by
  rw [lossy, decode_encode]
  rfl

end Utf8
