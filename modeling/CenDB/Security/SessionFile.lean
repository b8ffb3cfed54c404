import CenDB.Security.SessionJson
import Mathlib.Data.List.DropRight

/-! # The file session store

The store is its file, one line for each save since the last compaction; the last line of a token
counts.  Compaction writes the sessions of a hash map, in any order (`IterOrder`), to a sibling that
then replaces the file.  File operations are assumed to succeed, so an error is one of reading: a
line that is not UTF-8 or not a session fails the whole file.

`readAll_fileOf` says what a file of lines holds. -/

namespace CenDB.Security

open List Table

/-! ### Lines -/

/-- The lines of a file, without their line breaks. -/
def splitLines : List UInt8 → List (List UInt8)
  | [] => []
  | b :: rest =>
    if b = 10 then [] :: splitLines rest
    else
      match splitLines rest with
      | [] => [[b]]
      | line :: lines => (b :: line) :: lines

/-- `char::is_whitespace`. -/
def isWhitespace (c : Char) : Bool :=
  (9 ≤ c.toNat ∧ c.toNat ≤ 13) ∨ c.toNat ∈ [0x20, 0x85, 0xA0, 0x1680] ∨
    (0x2000 ≤ c.toNat ∧ c.toNat ≤ 0x200A) ∨ c.toNat ∈ [0x2028, 0x2029, 0x202F, 0x205F, 0x3000]

/-- `str::trim`. -/
def trim (cs : List Char) : List Char := (cs.dropWhile isWhitespace).rdropWhile isWhitespace

inductive StoreError
  | invalidUtf8 (lineno : ℕ)
  | corrupt (lineno : ℕ) (e : JsonError) (line : List Char)
  deriving DecidableEq

/-- An order in which a hash map may be iterated. -/
structure IterOrder where
  order : List Session → List Session
  perm : ∀ l, (order l).Perm l

structure FileSessionStore where
  /-- The bytes at the path, if the file exists. -/
  file : Option (List UInt8)
  deriving DecidableEq

namespace FileSessionStore

/-- Opening a file leaves it as it is. -/
def new (file : Option (List UInt8)) : FileSessionStore := ⟨file⟩

/-- The reading loop.  A line break may be preceded by a carriage return, which is trimmed as well. -/
def readLines : ℕ → List (List UInt8) → Table TokenString Session →
    Except StoreError (Table TokenString Session)
  | _, [], map => .ok map
  | lineno, line :: lines, map =>
    match Utf8.decode line with
    | none => .error (.invalidUtf8 lineno)
    | some text =>
      let trimmed := trim text
      if trimmed = [] then readLines (lineno + 1) lines map
      else
        match JsonParser.parseSessionJson (Utf8.encode trimmed) with
        | .ok s => readLines (lineno + 1) lines (map.insert s.token s)
        | .error e => .error (.corrupt lineno e trimmed)

def readAll (st : FileSessionStore) : Except StoreError (Table TokenString Session) :=
  match st.file with
  | none => .ok ∅
  | some bytes => readLines 0 (splitLines bytes) ∅

/-- The bytes of a session in the file. -/
def entry (s : Session) : List UInt8 := jsonLine s ++ [10]

def rewrite (order : IterOrder) (sessions : Table TokenString Session) : FileSessionStore :=
  ⟨some ((order.order (Table.values sessions)).flatMap entry)⟩

def save (session : Session) (st : FileSessionStore) : FileSessionStore :=
  ⟨some (st.file.getD [] ++ entry session)⟩

def load (token : TokenString) (st : FileSessionStore) : Except StoreError (Option Session) :=
  st.readAll.map fun all => all.lookup token

def delete (token : TokenString) (order : IterOrder) (st : FileSessionStore) :
    Except StoreError Unit × FileSessionStore :=
  match st.readAll with
  | .error e => (.error e, st)
  | .ok all =>
    if (all.lookup token).isSome then (.ok (), rewrite order (all.erase token)) else (.ok (), st)

def deleteExpired (beforeTs : UInt64) (order : IterOrder) (st : FileSessionStore) :
    Except StoreError ℕ × FileSessionStore :=
  match st.readAll with
  | .error e => (.error e, st)
  | .ok all =>
    let kept := Table.retain (fun _ s => beforeTs ≤ s.expiresAt) all
    let removed := Table.size all - Table.size kept
    if 0 < removed then (.ok removed, rewrite order kept) else (.ok removed, st)

/-! ### Reading a file of lines -/

/-- A file with one line for each session. -/
def fileOf (ss : List Session) : FileSessionStore := ⟨some (ss.flatMap entry)⟩

theorem splitLines_append {line : List UInt8} (h : ∀ b ∈ line, b ≠ 10) (rest : List UInt8) :
    splitLines (line ++ 10 :: rest) = line :: splitLines rest := by
  induction line with
  | nil => rfl
  | cons b line ih =>
    obtain ⟨hb, hline⟩ := forall_mem_cons.mp h
    rw [cons_append, splitLines, if_neg hb, ih hline]

/-- A last line without a line break. -/
theorem splitLines_last {line : List UInt8} (h : ∀ b ∈ line, b ≠ 10) (hne : line ≠ []) :
    splitLines line = [line] := by
  induction line with
  | nil => exact absurd rfl hne
  | cons b line ih =>
    obtain ⟨hb, hline⟩ := forall_mem_cons.mp h
    rw [splitLines, if_neg hb]
    cases line with
    | nil => rfl
    | cons b' line => rw [ih hline (cons_ne_nil b' line)]

theorem ne_newline_of_all {cs : List Char} (h : cs.all (fun c => c.toNat ≠ 10) = true) :
    ∀ c ∈ cs, c.toNat ≠ 10 := fun c hc => of_decide_eq_true (all_eq_true.mp h c hc)

theorem escapeChar_ne_newline (c : Char) : ∀ c' ∈ escapeChar c, c'.toNat ≠ 10 := by
  have hhex : ∀ c' ∈ hex4 c.toNat, c'.toNat ≠ 10 := by
    have hdigit : ∀ d, d < 16 → (Nat.digitChar d).toNat ≠ 10 := by decide
    intro c' hc'
    simp only [hex4, mem_cons, not_mem_nil, or_false] at hc'
    rcases hc' with rfl | rfl | rfl | rfl <;> exact hdigit _ (Nat.mod_lt _ (by decide))
  unfold escapeChar
  split_ifs with h₁ h₂ h₃ h₄ h₅ h₆ h₇ h₈
  · simp
  · simp
  · simp
  · simp
  · simp
  · simp
  · simp
  · intro c' hc'
    rcases mem_append.mp hc' with hmem | hmem
    · exact ne_newline_of_all (by decide) c' hmem
    · exact hhex c' hmem
  · intro c' hc'
    rw [mem_singleton.mp hc']
    exact h₃

theorem serialize_ne_newline (s : Session) : ∀ c ∈ serializeSessionJson s, c.toNat ≠ 10 := by
  have hdigits : ∀ n, ∀ c ∈ Nat.toDigits 10 n, c.toNat ≠ 10 := by
    intro n c hc hten
    have hdigit := Nat.isDigit_of_mem_toDigits (by decide) (by decide) hc
    have hlow := (Char.isDigit_iff_toNat.mp hdigit).1
    rw [hten] at hlow
    exact absurd hlow (by decide)
  unfold serializeSessionJson
  simp only [forall_mem_append]
  refine ⟨⟨⟨⟨⟨⟨ne_newline_of_all (by decide), ?_⟩, ne_newline_of_all (by decide)⟩, hdigits _⟩,
    ne_newline_of_all (by decide)⟩, hdigits _⟩, ne_newline_of_all (by decide)⟩
  intro c hc
  obtain ⟨c', -, hmem⟩ := mem_flatMap.mp hc
  exact escapeChar_ne_newline c' c hmem

/-- The line of a session is one line. -/
theorem jsonLine_ne_newline (s : Session) : ∀ b ∈ jsonLine s, b ≠ 10 := by
  rintro b hb rfl
  obtain ⟨c, hc, hten⟩ := Utf8.mem_of_mem_encode hb (by decide)
  exact serialize_ne_newline s c hc hten

/-- Trimming a text that starts with a character cuts its end only. -/
theorem trim_cons {c : Char} (hc : isWhitespace c = false) (cs : List Char) :
    trim (c :: cs) = (c :: cs).rdropWhile isWhitespace := by
  rw [trim, dropWhile_cons, hc]
  rfl

theorem trim_concat {c d : Char} (hc : isWhitespace c = false) (hd : isWhitespace d = false)
    (cs : List Char) : trim (c :: (cs ++ [d])) = c :: (cs ++ [d]) := by
  rw [trim_cons hc, ← cons_append]
  exact rdropWhile_concat_neg isWhitespace (c :: cs) d (by rw [hd]; exact Bool.false_ne_true)

/-- The text of a line between its braces. -/
theorem serialize_braces (s : Session) :
    ∃ mid, serializeSessionJson s = Char.ofNat 123 :: (mid ++ [Char.ofNat 125]) := by
  have hopen : "\x7b\"token\":\"".toList = Char.ofNat 123 :: "\"token\":\"".toList := by decide
  unfold serializeSessionJson
  rw [hopen]
  exact ⟨_, rfl⟩

theorem trim_serialize (s : Session) : trim (serializeSessionJson s) = serializeSessionJson s := by
  obtain ⟨mid, hmid⟩ := serialize_braces s
  rw [hmid]
  exact trim_concat (by decide) (by decide) mid

/-- The reading loop over the line of a session. -/
theorem readLines_jsonLine (s : Session) (lineno : ℕ) (lines : List (List UInt8))
    (map : Table TokenString Session) :
    readLines lineno (jsonLine s :: lines) map =
      readLines (lineno + 1) lines (map.insert s.asRead.token s.asRead) := by
  obtain ⟨mid, hmid⟩ := serialize_braces s
  have hdecode : Utf8.decode (jsonLine s) = some (serializeSessionJson s) := Utf8.decode_encode _
  have hne : serializeSessionJson s ≠ [] := by rw [hmid]; exact cons_ne_nil _ _
  rw [readLines, hdecode]
  dsimp only
  rw [trim_serialize, if_neg hne]
  have hparse := parseSessionJson_jsonLine s
  unfold jsonLine at hparse
  rw [hparse]

/-- What the reading loop makes of the lines of sessions. -/
def readEntries (ss : List Session) (map : Table TokenString Session) : Table TokenString Session :=
  ss.foldl (fun map s => map.insert s.asRead.token s.asRead) map

theorem readLines_entries (ss : List Session) (lineno : ℕ) (tail : List UInt8)
    (map : Table TokenString Session) :
    readLines lineno (splitLines (ss.flatMap entry ++ tail)) map =
      readLines (lineno + ss.length) (splitLines tail) (readEntries ss map) := by
  induction ss generalizing lineno map with
  | nil => rfl
  | cons s ss ih =>
    have hsplit : (s :: ss).flatMap entry ++ tail = jsonLine s ++ 10 :: (ss.flatMap entry ++ tail) := by
      rw [flatMap_cons, entry]
      simp
    rw [hsplit, splitLines_append (jsonLine_ne_newline s), readLines_jsonLine, ih, length_cons,
      Nat.add_assoc, Nat.add_comm 1]
    rfl

/-- **A file of lines** holds the last session of each token. -/
theorem readAll_fileOf (ss : List Session) : (fileOf ss).readAll = .ok (readEntries ss ∅) := by
  have h := readLines_entries ss 0 [] ∅
  rw [append_nil] at h
  exact h

theorem lookup_readEntries (ss : List Session) (token : TokenString) :
    (readEntries ss ∅).lookup token = Table.lastOf (ss.map fun s => (s.asRead.token, s.asRead)) token := by
  have h := lookup_foldl_insert (ss.map fun s => (s.asRead.token, s.asRead)) ∅ token
  rw [foldl_map] at h
  exact h.trans (Option.or_none)

end FileSessionStore

/-- A session whose token is ASCII text. -/
def Session.Plain (s : Session) : Prop := ∀ c ∈ s.token.toList, Utf8.Ascii c

instance (s : Session) : Decidable s.Plain := List.decidableBAll Utf8.Ascii s.token.toList

/-- The sessions with an ASCII token are the ones that are read back as they are. -/
theorem Session.asRead_token {s : Session} : s.asRead.token = s.token ↔ s.Plain := by
  rw [Session.Plain, ← Utf8.latin1_encode_eq_self, Session.asRead]
  constructor
  · intro h
    have htext := congrArg String.toList h
    rwa [String.toList_ofList] at htext
  · intro h
    rw [h, String.ofList_toList]

theorem Session.Plain.asRead {s : Session} (h : s.Plain) : s.asRead = s := by
  have htoken := Session.asRead_token.mpr h
  cases s
  simp only [Session.asRead] at htoken ⊢
  rw [htoken]

namespace FileSessionStore

variable {st : FileSessionStore} {sessions : Table TokenString Session} {token : TokenString} {s : Session}

/-! ### The file as a map -/

/-- The file has a line for each of some sessions with ASCII tokens, the last ones of their tokens
being those of the map. -/
def Holds (st : FileSessionStore) (sessions : Table TokenString Session) : Prop :=
  ∃ ss : List Session, (∀ s ∈ ss, s.Plain) ∧ st.file.getD [] = ss.flatMap entry ∧
    ∀ token, sessions.lookup token = Table.lastOf (ss.map fun s => (s.token, s)) token

theorem holds_new : Holds (new none) ∅ := ⟨[], nofun, rfl, fun _ => rfl⟩

theorem Holds.congr (h : st.Holds sessions) {sessions' : Table TokenString Session}
    (hsame : ∀ token, sessions'.lookup token = sessions.lookup token) : st.Holds sessions' := by
  obtain ⟨ss, hplain, hfile, hlast⟩ := h
  exact ⟨ss, hplain, hfile, fun token => (hsame token).trans (hlast token)⟩

theorem readAll_of_entries {ss : List Session} (h : st.file.getD [] = ss.flatMap entry) :
    st.readAll = .ok (readEntries ss ∅) := by
  unfold readAll
  cases hfile : st.file with
  | none =>
    rw [hfile] at h
    cases ss with
    | nil => rfl
    | cons s ss => simp [entry] at h
  | some bytes =>
    rw [hfile] at h
    have hread := readAll_fileOf ss
    rw [readAll, fileOf, ← h] at hread
    exact hread

theorem Holds.readAll (h : st.Holds sessions) :
    ∃ all, st.readAll = .ok all ∧ ∀ token, all.lookup token = sessions.lookup token := by
  obtain ⟨ss, hplain, hfile, hlast⟩ := h
  refine ⟨readEntries ss ∅, readAll_of_entries hfile, fun token => ?_⟩
  have hsame : (ss.map fun s => (s.asRead.token, s.asRead)) = ss.map fun s => (s.token, s) :=
    map_congr_left fun s hs => by rw [(hplain s hs).asRead]
  rw [lookup_readEntries, hsame, hlast]

theorem Holds.load (h : st.Holds sessions) (token : TokenString) :
    st.load token = .ok (sessions.lookup token) := by
  obtain ⟨all, hall, hsame⟩ := h.readAll
  rw [FileSessionStore.load, hall, ← hsame]
  rfl

theorem Holds.keyed (h : st.Holds sessions) (hs : sessions.lookup token = some s) :
    s.token = token ∧ s.Plain := by
  obtain ⟨ss, hplain, -, hlast⟩ := h
  rw [hlast] at hs
  obtain ⟨s', hs', heq⟩ := List.mem_map.mp (mem_of_lastOf hs)
  obtain ⟨rfl, rfl⟩ := Prod.mk.inj heq
  exact ⟨rfl, hplain s' hs'⟩

theorem Holds.save (h : st.Holds sessions) (hs : s.Plain) : (st.save s).Holds (sessions.insert s.token s) := by
  obtain ⟨ss, hplain, hfile, hlast⟩ := h
  refine ⟨ss ++ [s], ?_, ?_, fun token => ?_⟩
  · intro s' hs'
    cases mem_append.mp hs' with
    | inl hmem => exact hplain s' hmem
    | inr hmem => exact mem_singleton.mp hmem ▸ hs
  · simp [FileSessionStore.save, hfile]
  · rw [lookup_insert_if, hlast, map_append, lastOf_append]
    simp only [map_cons, map_nil, Table.lastOf]
    by_cases htoken : token = s.token
    · simp [htoken]
    · rw [if_neg htoken, if_neg (Ne.symm htoken)]
      rfl

/-- A compaction writes the sessions of a map keyed by token. -/
theorem holds_rewrite (order : IterOrder)
    (hkeyed : ∀ token s, sessions.lookup token = some s → s.token = token ∧ s.Plain) :
    (rewrite order sessions).Holds sessions := by
  have hperm := order.perm (Table.values sessions)
  have hitems : (Table.values sessions).map (fun s => (s.token, s)) = Table.items sessions := by
    rw [Table.values, map_map]
    refine map_congr_left fun e he => ?_
    exact Prod.ext (hkeyed e.1 e.2 (mem_entries.mp he)).1 rfl
  refine ⟨order.order (Table.values sessions), ?_, rfl, fun token => ?_⟩
  · intro s hs
    obtain ⟨token, htoken⟩ := mem_values.mp (hperm.mem_iff.mp hs)
    exact (hkeyed token s htoken).2
  · have hmap := hperm.map fun s => (s.token, s)
    rw [hitems] at hmap
    have hnodup : ((order.order (Table.values sessions)).map fun s => (s.token, s)).map Prod.fst |>.Nodup := by
      refine (hmap.map Prod.fst).nodup_iff.mpr ?_
      rw [Table.items, map_map]
      exact sessions.nodupKeys
    ext s
    rw [← mem_items, lastOf_of_nodup hnodup, hmap.mem_iff]

theorem Holds.delete (h : st.Holds sessions) (token : TokenString) (order : IterOrder) :
    (st.delete token order).1 = .ok () ∧ (st.delete token order).2.Holds (sessions.erase token) := by
  obtain ⟨all, hall, hsame⟩ := h.readAll
  rw [FileSessionStore.delete, hall]
  dsimp only
  cases hfound : all.lookup token with
  | none =>
    rw [if_neg (by simp)]
    refine ⟨rfl, h.congr fun t => ?_⟩
    rw [lookup_erase_if]
    split_ifs with ht
    · rw [← hsame, ht, hfound]
    · rfl
  | some found =>
    rw [if_pos Option.isSome_some]
    refine ⟨rfl, (holds_rewrite order ?_).congr fun t => ?_⟩
    · intro t s ht
      rw [lookup_erase_if] at ht
      split_ifs at ht
      exact h.keyed (hsame t ▸ ht)
    · simp [lookup_erase_if, hsame]

theorem Holds.deleteExpired (h : st.Holds sessions) (beforeTs : UInt64) (order : IterOrder) :
    (st.deleteExpired beforeTs order).1 =
        .ok (Table.size sessions - Table.size (Table.retain (fun _ s => beforeTs ≤ s.expiresAt) sessions)) ∧
      (st.deleteExpired beforeTs order).2.Holds (Table.retain (fun _ s => beforeTs ≤ s.expiresAt) sessions) := by
  obtain ⟨all, hall, hsame⟩ := h.readAll
  have hkept : ∀ t, (Table.retain (fun _ s => beforeTs ≤ s.expiresAt) all).lookup t =
      (Table.retain (fun _ s => beforeTs ≤ s.expiresAt) sessions).lookup t := fun t => by
    simp [lookup_retain, hsame]
  rw [FileSessionStore.deleteExpired, hall, ← size_congr hsame, ← size_congr hkept]
  dsimp only
  split_ifs with hremoved
  · refine ⟨rfl, (holds_rewrite order ?_).congr fun t => (hkept t).symm⟩
    intro t s ht
    rw [lookup_retain] at ht
    exact h.keyed (hsame t ▸ (Option.filter_eq_some_iff.mp ht).1)
  · refine ⟨rfl, h.congr fun t => ?_⟩
    rw [← hkept, lookup_retain_of_size (by omega), hsame]

end FileSessionStore
end CenDB.Security
