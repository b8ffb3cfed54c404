import CenDB.Lib.Guarded
import CenDB.Security.SessionStores

/-! # A crash while a session is saved

A crash leaves some first bytes of the appended line in the file.  The parser does not look past the
object it reads (`parseObject_append`), so a proper part of a line is no session
(`parseSessionJson_part`), and neither are two lines in one (`parseSessionJson_joined`).  Either one
fails the whole file, so that a crash is harmless exactly if it leaves nothing of the line or all of
it, with its line break when another save follows (`crashSafe_iff`). -/

namespace CenDB.Security

open Guarded Transition List

namespace JsonParser

/-! ### More input behind -/

variable {α β : Type} {w v rest : List UInt8}

theorem map_ok {x : Except JsonError α} {f : α → β} {b : β} (h : x.map f = .ok b) :
    ∃ a, x = .ok a ∧ f a = b := by
  cases x with
  | error e => cases h
  | ok a => exact ⟨a, rfl, Except.ok.inj h⟩

theorem skipWs_append (h : skipWs w ≠ []) (v : List UInt8) : skipWs (w ++ v) = skipWs w ++ v := by
  rw [skipWs, List.dropWhile_append, if_neg]
  · rfl
  · rwa [List.isEmpty_iff]

theorem expectChar_append {c : UInt8} (h : expectChar c w = .ok rest) (v : List UInt8) :
    expectChar c (w ++ v) = .ok (rest ++ v) := by
  cases w with
  | nil => cases h
  | cons b bytes =>
    rw [expectChar] at h
    split at h
    · rename_i hb
      cases h
      rw [cons_append, expectChar, if_pos hb]
    · cases h

variable {cs : List Char} {fields fields' : Fields} {fuel fuel' : ℕ} {s : Session}

theorem parseStringFrom_append {st : StringState} (h : parseStringFrom st w = .ok (cs, rest)) (v : List UInt8) :
    parseStringFrom st (w ++ v) = .ok (cs, rest ++ v) := by
  induction w generalizing st cs with
  | nil => cases st <;> cases h
  | cons b bytes ih =>
    have hpush : ∀ {c : Char}, push c (parseStringFrom .plain bytes) = .ok (cs, rest) →
        push c (parseStringFrom .plain (bytes ++ v)) = .ok (cs, rest ++ v) := by
      intro c hp
      obtain ⟨out, hout, heq⟩ := map_ok hp
      cases heq
      rw [ih hout]
      rfl
    rw [cons_append]
    cases st with
    | plain =>
      rw [parseStringFrom] at h ⊢
      split_ifs at h ⊢
      · cases h
        rfl
      · exact ih h
      · exact hpush h
    | escape =>
      rw [parseStringFrom] at h ⊢
      split_ifs at h ⊢
      · exact ih h
      · cases hc : unescape b with
        | none =>
          rw [hc] at h
          cases h
        | some c =>
          rw [hc] at h
          exact hpush h
    | unicode read code =>
      rw [parseStringFrom] at h ⊢
      cases hd : toDigit16 b with
      | none =>
        rw [hd] at h
        cases h
      | some d =>
        rw [hd] at h
        dsimp only at h ⊢
        split_ifs at h ⊢
        · exact ih h
        · exact hpush h

theorem parseString_append (h : parseString w = .ok (cs, rest)) (v : List UInt8) :
    parseString (w ++ v) = .ok (cs, rest ++ v) := by
  obtain ⟨bytes, hquote, hfrom⟩ := of_bind_eq_ok h
  have hquote' := expectChar_append hquote v
  rw [parseString, hquote']
  exact parseStringFrom_append hfrom v

/-- A number must be followed by something, or more digits could follow. -/
theorem parseNumber_append {n : UInt64} (h : parseNumber w = .ok (n, rest)) (hrest : rest ≠ [])
    (v : List UInt8) : parseNumber (w ++ v) = .ok (n, rest ++ v) := by
  have hdrop : rest = w.dropWhile isDigit := by
    unfold parseNumber at h
    dsimp only at h
    split_ifs at h
    cases h
    rfl
  have hdrop' : (w ++ v).dropWhile isDigit = w.dropWhile isDigit ++ v := by
    rw [List.dropWhile_append, if_neg]
    rwa [List.isEmpty_iff, ← hdrop]
  have htake : (w ++ v).takeWhile isDigit = w.takeWhile isDigit := by
    rw [List.takeWhile_append, if_neg]
    intro hlength
    have hsplit := congrArg List.length (takeWhile_append_dropWhile (p := isDigit) (l := w))
    rw [length_append, hlength, ← hdrop] at hsplit
    exact hrest (length_eq_zero_iff.mp (by omega))
  unfold parseNumber at h ⊢
  rw [hdrop', htake]
  dsimp only at h ⊢
  split_ifs at h ⊢
  cases h
  rfl

theorem ne_nil_of_skipWs (h : skipWs w ≠ []) : w ≠ [] := by
  rintro rfl
  exact h rfl

theorem ne_nil_of_head? {b : UInt8} (h : w.head? = some b) : w ≠ [] := by
  rintro rfl
  cases h

theorem head?_append (h : w ≠ []) (v : List UInt8) : (w ++ v).head? = w.head? := head?_append_of_ne_nil w h

theorem parseField_append (h : parseField fields w = .ok (fields', rest)) (hrest : rest ≠ []) (v : List UInt8) :
    parseField fields (w ++ v) = .ok (fields', rest ++ v) := by
  obtain ⟨⟨key, afterKey⟩, hkey, h⟩ := of_bind_eq_ok h
  obtain ⟨afterColon, hcolon, h⟩ := of_bind_eq_ok h
  have hkey' := parseString_append hkey v
  have hne : skipWs afterKey ≠ [] := by
    intro hnil
    rw [hnil] at hcolon
    cases hcolon
  have hcolon' : expectChar 58 (skipWs (afterKey ++ v)) = .ok (afterColon ++ v) := by
    rw [skipWs_append hne]
    exact expectChar_append hcolon v
  unfold parseField
  rw [hkey']
  dsimp only [bind, Except.bind]
  rw [hcolon']
  dsimp only
  -- the value is not empty, so the blanks before it end where they ended
  have hvalue : skipWs afterColon ≠ [] := by
    intro hnil
    dsimp only at h
    rw [hnil] at h
    split_ifs at h <;> cases h
  rw [skipWs_append hvalue]
  split_ifs at h ⊢
  · obtain ⟨⟨token, rest'⟩, htoken, heq⟩ := of_bind_eq_ok h
    cases heq
    rw [parseString_append htoken]
  · obtain ⟨⟨n, rest'⟩, hn, heq⟩ := of_bind_eq_ok h
    cases heq
    rw [parseNumber_append hn hrest]
  · obtain ⟨⟨n, rest'⟩, hn, heq⟩ := of_bind_eq_ok h
    cases heq
    rw [parseNumber_append hn hrest]

theorem parseFields_nil (fuel : ℕ) (fields : Fields) {out : Fields × List UInt8} :
    parseFields fuel fields [] ≠ .ok out := by
  intro h
  cases fuel <;> cases h

/-- The fields of an object, with more input behind and as much fuel or more. -/
theorem parseFields_append (hfuel : fuel ≤ fuel') (h : parseFields fuel fields w = .ok (fields', rest))
    (v : List UInt8) :
    parseFields fuel' fields (w ++ v) = .ok (fields', rest ++ v) ∧ rest.head? = some 125 := by
  induction fuel generalizing fuel' fields w with
  | zero => cases h
  | succ fuel ih =>
    obtain ⟨fuel', rfl⟩ : ∃ k, fuel' = k + 1 := ⟨fuel' - 1, by omega⟩
    rw [parseFields] at h ⊢
    have hne : skipWs w ≠ [] := by
      intro hnil
      rw [hnil] at h
      cases h
    rw [skipWs_append hne, head?_append hne]
    dsimp only at h ⊢
    split_ifs at h ⊢ with hclose
    · cases h
      exact ⟨rfl, hclose⟩
    · obtain ⟨⟨fields₁, rest₁⟩, hfield, h⟩ := of_bind_eq_ok h
      dsimp only at h
      have hne₁ : skipWs rest₁ ≠ [] := by
        split_ifs at h with hcomma hclose₁
        · exact ne_nil_of_head? hcomma
        · exact ne_nil_of_head? hclose₁
      rw [parseField_append hfield (ne_nil_of_skipWs hne₁)]
      dsimp only [bind, Except.bind]
      rw [skipWs_append hne₁, head?_append hne₁]
      split_ifs at h ⊢ with hcomma hclose₁
      · have hne₂ : skipWs (skipWs rest₁).tail ≠ [] := by
          intro hnil
          rw [hnil] at h
          exact parseFields_nil fuel fields₁ h
        rw [tail_append_of_ne_nil hne₁, skipWs_append hne₂]
        exact ih (Nat.le_of_succ_le_succ hfuel) h
      · cases h
        exact ⟨rfl, hclose₁⟩

/-- **The parser does not look past an object**. -/
theorem parseObject_append (hfuel : fuel ≤ fuel') (h : parseObject fuel w = .ok (fields, rest)) (v : List UInt8) :
    parseObject fuel' (w ++ v) = .ok (fields, rest ++ v) := by
  obtain ⟨bytes, hopen, h⟩ := of_bind_eq_ok h
  obtain ⟨⟨fields₁, rest₁⟩, hfields, h⟩ := of_bind_eq_ok h
  obtain ⟨rest₂, hclose, heq⟩ := of_bind_eq_ok h
  cases heq
  have hne : skipWs w ≠ [] := by
    intro hnil
    rw [hnil] at hopen
    cases hopen
  have hne' : skipWs bytes ≠ [] := by
    intro hnil
    rw [hnil] at hfields
    exact parseFields_nil fuel _ hfields
  unfold parseObject
  rw [skipWs_append hne, expectChar_append hopen]
  dsimp only [bind, Except.bind]
  rw [skipWs_append hne', (parseFields_append hfuel hfields v).1]
  dsimp only
  rw [expectChar_append hclose]

/-! ### Parts of lines and joined lines -/

theorem parseSessionJson_ok (h : parseSessionJson w = .ok s) :
    ∃ fields rest, parseObject (w.length + 1) w = .ok (fields, rest) ∧ skipWs rest = [] := by
  obtain ⟨⟨fields, rest⟩, hobject, h⟩ := of_bind_eq_ok h
  refine ⟨fields, rest, hobject, ?_⟩
  by_contra hne
  dsimp only at h
  rw [if_pos hne] at h
  cases h

/-- A proper part of a line is not a session. -/
theorem parseSessionJson_part (hline : w ++ v = jsonLine s) (hv : v ≠ []) (x : Session) :
    parseSessionJson w ≠ .ok x := by
  intro h
  obtain ⟨fields, rest, hobject, -⟩ := parseSessionJson_ok h
  have hwhole := parseObject_append (Nat.le_add_right (w.length + 1) 3) hobject v
  have hknown := parseObject_jsonLine s (w.length + 1) []
  rw [hline] at hwhole
  rw [append_nil, hwhole] at hknown
  have hempty := congrArg Prod.snd (Except.ok.inj hknown)
  exact hv (append_eq_nil_iff.mp hempty).2

/-- Two lines without a line break between them are not a session. -/
theorem parseSessionJson_joined (s s' x : Session) : parseSessionJson (jsonLine s ++ jsonLine s') ≠ .ok x := by
  intro h
  obtain ⟨fields, rest, hobject, hrest⟩ := parseSessionJson_ok h
  have hlength : ∃ fuel, (jsonLine s ++ jsonLine s').length + 1 = fuel + 3 := by
    refine ⟨(jsonLine s ++ jsonLine s').length - 2, ?_⟩
    rw [jsonLine_eq, length_append]
    simp only [length_cons]
    omega
  obtain ⟨fuel, hfuel⟩ := hlength
  rw [hfuel, parseObject_jsonLine] at hobject
  cases hobject
  rw [jsonLine_eq, skipWs_cons (by decide)] at hrest
  cases hrest

end JsonParser

namespace FileSessionStore

variable {st : FileSessionStore} {sessions : Table TokenString Session} {s s' : Session} {w v : List UInt8}

/-! ### Reading a broken line -/

/-- A line whose text, trimmed, is neither empty nor a session fails the file. -/
theorem readLines_error (h : ∀ text, Utf8.decode w = some text → trim text ≠ [] ∧
      ∀ x, JsonParser.parseSessionJson (Utf8.encode (trim text)) ≠ .ok x) (lineno : ℕ)
    (lines : List (List UInt8)) (map : Table TokenString Session) :
    ∃ e, readLines lineno (w :: lines) map = .error e := by
  rw [readLines]
  cases hdecode : Utf8.decode w with
  | none => exact ⟨_, rfl⟩
  | some text =>
    obtain ⟨hne, hparse⟩ := h text hdecode
    dsimp only
    rw [if_neg hne]
    cases hresult : JsonParser.parseSessionJson (Utf8.encode (trim text)) with
    | error e => exact ⟨_, rfl⟩
    | ok x => exact absurd hresult (hparse x)

/-- A proper part of a line is not a session, whatever is trimmed off its end. -/
theorem readLines_part (hline : w ++ v = jsonLine s) (hw : w ≠ []) (hv : v ≠ []) (lineno : ℕ)
    (lines : List (List UInt8)) (map : Table TokenString Session) :
    ∃ e, readLines lineno (w :: lines) map = .error e := by
  refine readLines_error (fun text htext => ?_) lineno lines map
  obtain ⟨bytes, rfl⟩ : ∃ bytes, w = 123 :: bytes := by
    rw [jsonLine_eq] at hline
    cases w with
    | nil => exact absurd rfl hw
    | cons b bytes => exact ⟨bytes, by rw [(List.cons.inj hline).1]⟩
  have hencode := Utf8.encode_of_decode htext
  cases text with
  | nil => cases hencode
  | cons c cs =>
    have hc : isWhitespace c = false := by
      rw [JsonParser.char_eq (Utf8.toNat_of_encode_cons hencode (by decide))]
      decide
    have htrim := trim_cons hc cs
    obtain ⟨cut, hcut⟩ := rdropWhile_prefix isWhitespace (l := c :: cs)
    constructor
    · rw [htrim, Ne, rdropWhile_eq_nil_iff]
      intro hall
      rw [hall c mem_cons_self] at hc
      cases hc
    · intro x
      have hsplit : Utf8.encode (trim (c :: cs)) ++ (Utf8.encode cut ++ v) = jsonLine s := by
        rw [htrim, ← append_assoc, ← Utf8.encode_append, hcut, hencode, hline]
      refine JsonParser.parseSessionJson_part hsplit ?_ x
      exact fun hnil => hv (append_eq_nil_iff.mp hnil).2

theorem readLines_joined (s s' : Session) (lineno : ℕ) (lines : List (List UInt8))
    (map : Table TokenString Session) :
    ∃ e, readLines lineno ((jsonLine s ++ jsonLine s') :: lines) map = .error e := by
  refine readLines_error (fun text htext => ?_) lineno lines map
  have hencode : Utf8.encode text = Utf8.encode (serializeSessionJson s ++ serializeSessionJson s') := by
    rw [Utf8.encode_of_decode htext, Utf8.encode_append]
    rfl
  obtain ⟨mid, hmid⟩ := serialize_braces s
  obtain ⟨mid', hmid'⟩ := serialize_braces s'
  have hshape : serializeSessionJson s ++ serializeSessionJson s' =
      Char.ofNat 123 :: ((mid ++ Char.ofNat 125 :: Char.ofNat 123 :: mid') ++ [Char.ofNat 125]) := by
    rw [hmid, hmid']
    simp
  have htext' := (Utf8.encode_injective hencode).trans hshape
  have htrim : trim text = text := by
    rw [htext']
    exact trim_concat (by decide) (by decide) _
  rw [htrim, Utf8.encode_of_decode htext]
  refine ⟨?_, JsonParser.parseSessionJson_joined s s'⟩
  rw [htext']
  exact cons_ne_nil _ _

/-! ### The file after a crash -/

/-- A save of which only some first bytes reach the file. -/
def crash (session : Session) (cut : ℕ) (st : FileSessionStore) : FileSessionStore :=
  ⟨some (st.file.getD [] ++ (entry session).take cut)⟩

theorem length_entry (s : Session) : (entry s).length = (jsonLine s).length + 1 := by
  rw [entry, length_append]
  rfl

theorem Holds.crash_zero (h : st.Holds sessions) (s : Session) : (st.crash s 0).Holds sessions := by
  obtain ⟨ss, hplain, hfile, hlast⟩ := h
  refine ⟨ss, hplain, ?_, hlast⟩
  rw [crash, take_zero, append_nil]
  exact hfile

variable {cut : ℕ} {ss : List Session}

theorem crash_all (hcut : (jsonLine s).length < cut) : st.crash s cut = st.save s := by
  rw [crash, take_of_length_le (by rw [length_entry]; omega)]
  rfl

theorem readAll_tail {tail : List UInt8} (h : st.file = some (ss.flatMap entry ++ tail)) :
    st.readAll = readLines (0 + ss.length) (splitLines tail) (readEntries ss ∅) := by
  rw [readAll, h]
  exact readLines_entries ss 0 tail ∅

theorem jsonLine_ne_nil (s : Session) : jsonLine s ≠ [] := by simp [jsonLine_eq]

/-- A line without its line break is read, as long as nothing follows it. -/
theorem Holds.crash_line (h : st.Holds sessions) (s : Session) :
    (st.crash s (jsonLine s).length).readAll = (st.save s).readAll := by
  obtain ⟨ss, -, hfile, -⟩ := h
  have hcut : (st.crash s (jsonLine s).length).file = some (ss.flatMap entry ++ jsonLine s) := by
    rw [crash, hfile, entry, take_left]
  have hsave : (st.save s).file.getD [] = (ss ++ [s]).flatMap entry := by simp [FileSessionStore.save, hfile]
  rw [readAll_tail hcut, splitLines_last (jsonLine_ne_newline s) (jsonLine_ne_nil s), readLines_jsonLine,
    readAll_of_entries hsave, readEntries, readEntries, foldl_append]
  rfl

theorem load_error {e : StoreError} (h : st.readAll = .error e) (token : TokenString) :
    st.load token = .error e := by
  rw [load, h]
  rfl

/-- A line that is cut short fails the file. -/
theorem Holds.crash_part (h : st.Holds sessions) (hpos : 0 < cut) (hcut : cut < (jsonLine s).length)
    (token : TokenString) :
    ∃ e, (st.crash s cut).load token = .error e := by
  obtain ⟨ss, -, hfile, -⟩ := h
  have htake : (entry s).take cut = (jsonLine s).take cut := by
    rw [entry, take_append_of_le_length (Nat.le_of_lt hcut)]
  have hfile' : (st.crash s cut).file = some (ss.flatMap entry ++ (jsonLine s).take cut) := by
    rw [crash, hfile, htake]
  have hw : (jsonLine s).take cut ≠ [] := by
    intro hnil
    have hlength := congrArg List.length hnil
    rw [length_take, length_nil] at hlength
    omega
  have hv : (jsonLine s).drop cut ≠ [] := by
    intro hnil
    have hlength := congrArg List.length hnil
    rw [length_drop, length_nil] at hlength
    omega
  have hread := readAll_tail hfile'
  rw [splitLines_last (fun b hb => jsonLine_ne_newline s b (mem_of_mem_take hb)) hw] at hread
  obtain ⟨e, he⟩ := readLines_part (take_append_drop cut (jsonLine s)) hw hv (0 + ss.length) []
    (readEntries ss ∅)
  exact ⟨e, load_error (hread.trans he) token⟩

/-- A save after a line without its line break fails the file. -/
theorem Holds.crash_joined (h : st.Holds sessions) (s s' : Session) (token : TokenString) :
    ∃ e, ((st.crash s (jsonLine s).length).save s').load token = .error e := by
  obtain ⟨ss, -, hfile, -⟩ := h
  have hfile' : ((st.crash s (jsonLine s).length).save s').file =
      some (ss.flatMap entry ++ ((jsonLine s ++ jsonLine s') ++ 10 :: [])) := by
    rw [FileSessionStore.save, crash, Option.getD_some, hfile, entry, take_left, entry]
    simp only [append_assoc]
  have hline : ∀ b ∈ jsonLine s ++ jsonLine s', b ≠ 10 :=
    forall_mem_append.mpr ⟨jsonLine_ne_newline s, jsonLine_ne_newline s'⟩
  have hread := readAll_tail hfile'
  rw [splitLines_append hline] at hread
  obtain ⟨e, he⟩ := readLines_joined s s' (0 + ss.length) (splitLines []) (readEntries ss ∅)
  exact ⟨e, load_error (hread.trans he) token⟩

/-! ### Saves after a crash -/

def saveAll (st : FileSessionStore) (ss : List Session) : FileSessionStore :=
  ss.foldl (fun st s => st.save s) st

/-- A session that is stored stays so, or gives way to a later one of its token. -/
theorem Holds.saveAll (h : st.Holds sessions) (hss : ∀ s ∈ ss, s.Plain) {token : TokenString} {x : Session}
    (hx : sessions.lookup token = some x) :
    ∃ y, (st.saveAll ss).load token = .ok (some y) ∧ (y = x ∨ (y ∈ ss ∧ y.token = token)) := by
  induction ss generalizing st sessions x with
  | nil => exact ⟨x, (h.load token).trans (congrArg Except.ok hx), .inl rfl⟩
  | cons s ss ih =>
    obtain ⟨hs, hrest⟩ := forall_mem_cons.mp hss
    have hsaved := h.save hs
    have hlookup := Table.lookup_insert_if sessions s.token token s
    split_ifs at hlookup with htoken
    · obtain ⟨y, hload, hy⟩ := ih hsaved hrest hlookup
      refine ⟨y, hload, .inr ?_⟩
      rcases hy with rfl | ⟨hmem, hkey⟩
      · exact ⟨mem_cons_self, htoken.symm⟩
      · exact ⟨mem_cons_of_mem s hmem, hkey⟩
    · obtain ⟨y, hload, hy⟩ := ih hsaved hrest (hlookup.trans hx)
      exact ⟨y, hload, hy.imp id fun hy => ⟨mem_cons_of_mem s hy.1, hy.2⟩⟩

end FileSessionStore

namespace Stores

open FileSessionStore

/-- After a run of completed operations, a crash that leaves `cut` bytes of the save of a session, and
more saves on the file opened again: every session stored before the crash is still found, unless it
has given way to a session saved under its token. -/
def CrashSafe (ops : List StoreOp) (s : Session) (cut : ℕ) (more : List Session) : Prop :=
  ∀ w, run step start ops = some w → ∀ token x, w.memory.load token = some x → ∀ saved, saved <+: more → ∃ y,
      ((FileSessionStore.new (w.file.crash s cut).file).saveAll saved).load token = .ok (some y) ∧
        (y = x ∨ (y ∈ s :: saved ∧ y.token = token))

/-- Nothing is stored after the operations. -/
def StoresNothing (ops : List StoreOp) : Prop :=
  ∀ w, run step start ops = some w → ∀ token, w.memory.load token = none

variable {w : Stores} {s : Session} {cut : ℕ} {more : List Session}

theorem mirrors_run {ops : List StoreOp} (hops : ∀ s, StoreOp.save s ∈ ops → s.Plain)
    (h : run step start ops = some w) : w.Mirrors := by
  have hplain : Along step (fun _ op => SavesPlain op) start ops := by
    refine along_of_forall ?_ start
    rintro - op hop s rfl
    exact hops s hop
  exact run_invariant (fun _ _ _ h hop hstep => Mirrors.step h hop hstep) mirrors_start hplain h

/-- **A crash is harmless** if and only if there is nothing to lose, or none of the bytes of the line
reach the file, or all of them do, with the line break unless nothing is saved afterwards. -/
theorem crashSafe_iff (ops : List StoreOp) (s : Session) (cut : ℕ) (more : List Session)
    (hops : ∀ s', StoreOp.save s' ∈ ops → s'.Plain) (hs : s.Plain) (hmore : ∀ s' ∈ more, s'.Plain) :
    CrashSafe ops s cut more ↔ StoresNothing ops ∨ cut = 0 ∨ (jsonLine s).length < cut ∨
      (cut = (jsonLine s).length ∧ more = []) := by
  constructor
  · intro hsafe
    by_contra hno
    simp only [not_or, StoresNothing, not_forall] at hno
    obtain ⟨⟨w, hrun, token, hstored⟩, hzero, hle, hlast⟩ := hno
    obtain ⟨x, hx⟩ := Option.ne_none_iff_exists'.mp hstored
    have hholds := (mirrors_run hops hrun).holds
    by_cases hcut : cut = (jsonLine s).length
    · cases more with
      | nil => exact hlast ⟨hcut, rfl⟩
      | cons s' more =>
        obtain ⟨y, hload, -⟩ := hsafe w hrun token x hx [s'] ⟨more, rfl⟩
        obtain ⟨e, herror⟩ := hholds.crash_joined s s' token
        rw [← hcut] at herror
        cases herror.symm.trans hload
    · obtain ⟨y, hload, -⟩ := hsafe w hrun token x hx [] nil_prefix
      have hlt : cut < (jsonLine s).length := by omega
      obtain ⟨e, herror⟩ := hholds.crash_part (Nat.pos_of_ne_zero hzero) hlt token
      cases herror.symm.trans hload
  · intro hcond w hrun token x hx saved hsaved
    have hholds := (mirrors_run hops hrun).holds
    have hplain : ∀ s' ∈ saved, s'.Plain := fun s' hs' => hmore s' (hsaved.subset hs')
    have hplain' : ∀ s' ∈ s :: saved, s'.Plain := forall_mem_cons.mpr ⟨hs, hplain⟩
    rcases hcond with hnothing | rfl | hall | ⟨rfl, rfl⟩
    · have hnone := hnothing w hrun token
      rw [hx] at hnone
      cases hnone
    · obtain ⟨y, hload, hy⟩ := (hholds.crash_zero s).saveAll hplain hx
      exact ⟨y, hload, hy.imp id fun hy => ⟨mem_cons_of_mem s hy.1, hy.2⟩⟩
    · rw [crash_all hall]
      exact hholds.saveAll hplain' hx
    · rw [prefix_nil.mp hsaved] at hplain' ⊢
      obtain ⟨y, hload, hy⟩ := hholds.saveAll hplain' hx
      refine ⟨y, ?_, hy⟩
      rw [FileSessionStore.load, FileSessionStore.saveAll, foldl_nil]
      rw [FileSessionStore.load, FileSessionStore.saveAll, foldl_cons, foldl_nil,
        ← hholds.crash_line s] at hload
      exact hload

theorem crashSafe_iff_none : CrashSafe [.save ⟨"a", 1, 100⟩] ⟨"b", 2, 200⟩ 0 [⟨"c", 3, 300⟩] :=
  (crashSafe_iff [.save ⟨"a", 1, 100⟩] ⟨"b", 2, 200⟩ 0 [⟨"c", 3, 300⟩] (fun s' hs' => by
      obtain rfl := StoreOp.save.inj (mem_singleton.mp hs')
      decide)
    (by decide) (by decide)).mpr (.inr (.inl rfl))

/-- One byte of the next session is enough to lose all of them. -/
theorem torn_line_loses : ¬CrashSafe [.save ⟨"a", 1, 100⟩] ⟨"b", 2, 200⟩ 1 [] := by
  intro hsafe
  have hops : ∀ s, StoreOp.save s ∈ [StoreOp.save ⟨"a", 1, 100⟩] → s.Plain := fun s hs => by
    obtain rfl := StoreOp.save.inj (mem_singleton.mp hs)
    decide
  have hlength : 1 < (jsonLine ⟨"b", 2, 200⟩).length := by
    rw [jsonLine_eq]
    simp only [length_cons]
    omega
  obtain ⟨y, hload, -⟩ := hsafe _ rfl "a" ⟨"a", 1, 100⟩ rfl [] nil_prefix
  obtain ⟨e, herror⟩ := (mirrors_run hops rfl).holds.crash_part (Nat.one_pos) hlength "a"
  cases herror.symm.trans hload

end Stores
end CenDB.Security
