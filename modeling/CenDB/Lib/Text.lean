import CenDB.Lib.Utf8

/-! # Texts

Characters, lines and hexadecimal numerals of texts, which are lists of characters.

A cursor that moves over the bytes of a text sees every byte as a character of its own (`seen`).  What it
has passed over is cut out of the text (`slice`), so that it comes out right where the cursor has gone from
one character to another. -/

namespace Text

open Utf8 List

/-! ### Characters -/

/-- Unicode white space. -/
def isWhitespace (c : Char) : Bool :=
  (9 ≤ c.toNat && c.toNat ≤ 13) || c.toNat == 0x20 || c.toNat == 0x85 || c.toNat == 0xA0 ||
    c.toNat == 0x1680 || (0x2000 ≤ c.toNat && c.toNat ≤ 0x200A) || c.toNat == 0x2028 ||
    c.toNat == 0x2029 || c.toNat == 0x202F || c.toNat == 0x205F || c.toNat == 0x3000

/-- Alphabetic characters below U+0100. -/
def isAlphabetic (c : Char) : Bool :=
  c.isAlpha || c.toNat == 0xAA || c.toNat == 0xB5 || c.toNat == 0xBA ||
    (0xC0 ≤ c.toNat && c.toNat ≤ 0xFF && c.toNat != 0xD7 && c.toNat != 0xF7)

/-- Numeric characters below U+0100: digits, superscripts and fractions. -/
def isNumeric (c : Char) : Bool :=
  c.isDigit || c.toNat == 0xB2 || c.toNat == 0xB3 || c.toNat == 0xB9 || (0xBC ≤ c.toNat && c.toNat ≤ 0xBE)

def isAlphanumeric (c : Char) : Bool := isAlphabetic c || isNumeric c

/-! ### Numerals -/

def hexValue (c : Char) : Option ℕ :=
  if c.isDigit then some (c.toNat - 48)
  else if 'a' ≤ c && c ≤ 'f' then some (c.toNat - 87)
  else if 'A' ≤ c && c ≤ 'F' then some (c.toNat - 55)
  else none

/-- `u32::from_str_radix(hex, 16)` of at most eight characters: digits after a plus sign or none. -/
def fromStrRadix16 (hex : List Char) : Option ℕ :=
  let digits := match hex with
    | '+' :: digits => digits
    | digits => digits
  if digits = [] then none
  else digits.foldlM (fun n c => (hexValue c).map fun d => 16 * n + d) 0

variable {c : Char} {l text : List Char}

theorem ascii_of_hexValue {n : ℕ} (h : hexValue c = some n) : Ascii c := by
  have hle : ∀ {d : Char}, c ≤ d → d.toNat < 128 → Ascii c := fun hcd hd => Nat.lt_of_le_of_lt hcd hd
  unfold hexValue at h
  split_ifs at h with hdigit hlower hupper
  · exact isDigit_ascii hdigit
  · rw [Bool.and_eq_true, decide_eq_true_eq, decide_eq_true_eq] at hlower
    exact hle hlower.2 (by decide)
  · rw [Bool.and_eq_true, decide_eq_true_eq, decide_eq_true_eq] at hupper
    exact hle hupper.2 (by decide)

/-- A numeral is of ASCII characters. -/
theorem ascii_of_fromStrRadix16 {hex : List Char} {n : ℕ} (h : fromStrRadix16 hex = some n) : ∀ c ∈ hex, Ascii c := by
  have hfold : ∀ (digits : List Char) (start : ℕ) {n},
      digits.foldlM (fun n c => (hexValue c).map fun d => 16 * n + d) start = some n → ∀ c ∈ digits, Ascii c := by
    intro digits
    induction digits with
    | nil => exact fun _ _ _ _ hc => absurd hc not_mem_nil
    | cons c digits ih =>
      intro start n hread
      rw [foldlM_cons, Option.bind_eq_bind, Option.bind_eq_some_iff] at hread
      obtain ⟨m, hfirst, hrest⟩ := hread
      obtain ⟨d, hd, -⟩ := Option.map_eq_some_iff.mp hfirst
      exact forall_mem_cons.mpr ⟨ascii_of_hexValue hd, ih m hrest⟩
  unfold fromStrRadix16 at h
  dsimp only at h
  split at h
  · split_ifs at h
    exact forall_mem_cons.mpr ⟨by decide, hfold _ 0 h⟩
  · split_ifs at h
    exact hfold _ 0 h

/-- The text of a 64-bit integer. -/
def i64Text (n : ℤ) : List Char :=
  if n < 0 then '-' :: Nat.toDigits 10 n.natAbs else Nat.toDigits 10 n.natAbs

/-! ### Lines -/

/-- A line without the carriage return at its end. -/
def stripCr (line : List Char) : List Char :=
  if line.getLast? = some '\r' then line.dropLast else line

/-- The lines of a text, after the first characters of a line. -/
def linesFrom (line : List Char) : List Char → List (List Char)
  | [] => if line = [] then [] else [line]
  | c :: rest => if c = '\n' then stripCr line :: linesFrom [] rest else linesFrom (line ++ [c]) rest

/-- `str::lines` -/
def lines (text : List Char) : List (List Char) := linesFrom [] text

/-- `str::trim` -/
def trim (text : List Char) : List Char := ((text.dropWhile isWhitespace).reverse.dropWhile isWhitespace).reverse

theorem linesFrom_append {line : List Char} (h : '\n' ∉ l) (rest : List Char) :
    linesFrom line (l ++ '\n' :: rest) = stripCr (line ++ l) :: linesFrom [] rest := by
  induction l generalizing line with
  | nil => rw [List.nil_append, append_nil, linesFrom, if_pos rfl]
  | cons c l ih =>
    rw [mem_cons, not_or] at h
    rw [cons_append, linesFrom, if_neg (Ne.symm h.1), ih h.2, append_assoc, singleton_append]

/-- The first line of a text. -/
theorem lines_append (h : '\n' ∉ l) (rest : List Char) :
    lines (l ++ '\n' :: rest) = stripCr l :: lines rest := linesFrom_append h rest

theorem stripCr_subset (line : List Char) : stripCr line ⊆ line := by
  unfold stripCr
  split
  · exact dropLast_subset line
  · simp

/-- There are no line breaks in lines. -/
theorem newline_not_mem_linesFrom {line : List Char} (hline : '\n' ∉ line) (h : l ∈ linesFrom line text) :
    '\n' ∉ l := by
  induction text generalizing line with
  | nil =>
    rw [linesFrom] at h
    split at h
    · cases h
    · rwa [mem_singleton.mp h]
  | cons c rest ih =>
    rw [linesFrom] at h
    split at h
    · rcases mem_cons.mp h with rfl | h
      · exact fun hmem => hline (stripCr_subset line hmem)
      · exact ih not_mem_nil h
    · rename_i hc
      refine ih (fun hmem => ?_) h
      rcases mem_append.mp hmem with hmem | hmem
      · exact hline hmem
      · exact hc (mem_singleton.mp hmem).symm

theorem newline_not_mem_lines (h : l ∈ lines text) : '\n' ∉ l := newline_not_mem_linesFrom not_mem_nil h

theorem trim_subset (text : List Char) : trim text ⊆ text := by
  intro c hc
  have hinner := (dropWhile_sublist isWhitespace).subset (mem_reverse.mp hc)
  exact (dropWhile_sublist isWhitespace).subset (mem_reverse.mp hinner)

/-- Nothing is trimmed off a text that begins and ends with other characters. -/
theorem trim_eq_self {d : Char} {t u : List Char} (hfirst : text = c :: t) (hlast : text = u ++ [d])
    (hc : isWhitespace c = false) (hd : isWhitespace d = false) : trim text = text := by
  have hfront : text.dropWhile isWhitespace = text := by
    rw [hfirst, dropWhile_cons_of_neg (by simp [hc])]
  have hback : text.reverse.dropWhile isWhitespace = text.reverse := by
    rw [hlast, reverse_append, reverse_singleton, singleton_append, dropWhile_cons_of_neg (by simp [hd])]
  rw [trim, hfront, hback, reverse_reverse]

/-! ### Texts as a cursor over bytes sees them -/

/-- Every byte as a character. -/
def seen (text : List Char) : List Char := latin1 (encode text)

/-- The part of the text that the cursor has passed over. -/
def slice (taken : List Char) : List Char := (decode (taken.map fun c => UInt8.ofNat c.toNat)).getD []

theorem seen_append (as bs : List Char) : seen (as ++ bs) = seen as ++ seen bs := by
  rw [seen, encode_append, latin1_append, seen, seen]

theorem seen_eq_self : seen text = text ↔ ∀ c ∈ text, Ascii c := latin1_encode_eq_self

theorem seen_cons (hc : Ascii c) (text : List Char) : seen (c :: text) = c :: seen text := by
  rw [seen, encode_cons, latin1_append, latin1_encodeChar hc]
  rfl

theorem bytes_latin1 (bytes : List UInt8) : ((latin1 bytes).map fun c => UInt8.ofNat c.toNat) = bytes := by
  rw [latin1, map_map]
  refine (map_congr_left fun b _ => ?_).trans (map_id bytes)
  rw [Function.comp_apply, toNat_ofNat_byte, UInt8.ofNat_toNat]
  rfl

theorem slice_seen (text : List Char) : slice (seen text) = text := by
  rw [slice, seen, bytes_latin1, decode_encode]
  rfl

/-- A character outside ASCII is seen from its first byte on. -/
theorem seen_of_not_ascii (hc : ¬Ascii c) : ∃ d u, seen [c] = d :: u ∧ 192 ≤ d.toNat ∧ ∀ e ∈ d :: u, ¬Ascii e := by
  obtain ⟨b, bs, hbytes, hb⟩ := head_encodeChar hc
  have hseen : seen [c] = latin1 (String.utf8EncodeChar c) := by rw [seen, encode, flatMap_singleton]
  have hall : ∀ e ∈ seen [c], ¬Ascii e := by
    intro e he hascii
    rw [hseen] at he
    obtain ⟨b', hb', rfl⟩ := List.mem_map.mp he
    have hle := UInt8.le_iff_toNat_le.mp (le_of_mem_encodeChar hc hb')
    have hlow : (128 : UInt8).toNat = 128 := rfl
    rw [Ascii, toNat_ofNat_byte] at hascii
    omega
  have hcons : seen [c] = Char.ofNat b.toNat :: latin1 bs := by
    rw [hseen, hbytes]
    rfl
  rw [hcons] at hall
  refine ⟨_, _, hcons, ?_, hall⟩
  rw [toNat_ofNat_byte]
  exact UInt8.le_iff_toNat_le.mp hb

/-- A text that was cut out is seen as what was passed over. -/
theorem seen_slice {taken : List Char} (h : slice taken = text) (hne : text ≠ [])
    (hlt : ∀ c ∈ taken, c.toNat < 256) : seen text = taken := by
  have hback : latin1 (taken.map fun c => UInt8.ofNat c.toNat) = taken := by
    rw [latin1, map_map]
    refine (map_congr_left fun c hc => ?_).trans (map_id taken)
    rw [Function.comp_apply, UInt8.toNat_ofNat', Nat.mod_eq_of_lt (hlt c hc), Char.ofNat_toNat]
    rfl
  unfold slice at h
  cases hdecode : decode (taken.map fun c => UInt8.ofNat c.toNat) with
  | none =>
    rw [hdecode] at h
    exact absurd h.symm hne
  | some text' =>
    rw [hdecode] at h
    have htext : text' = text := h
    rw [seen, ← htext, encode_of_decode hdecode, hback]

/-- An ASCII character that is seen is in the text. -/
theorem mem_of_mem_seen (h : c ∈ seen text) (hc : Ascii c) : c ∈ text := by
  obtain ⟨b, hb, rfl⟩ := List.mem_map.mp h
  have hlt : b < 128 := by
    rw [Ascii, toNat_ofNat_byte] at hc
    exact UInt8.lt_iff_toNat_lt.mpr hc
  obtain ⟨d, hd, hnat⟩ := mem_of_mem_encode hb hlt
  have heq : d = Char.ofNat b.toNat := by
    rw [← hnat, Char.ofNat_toNat]
  rwa [← heq]

end Text
