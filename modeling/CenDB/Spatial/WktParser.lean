import CenDB.Lib.ByteCursor
import CenDB.Spatial.Wkt

/-! # The parser of well-known text

The parser keeps a byte offset and cuts the text there.  It does what the reader of characters does in front
of the rest of the text (`fromWkt_eq`): whatever the text is, it never cuts inside a character, and it never
panics (`returns_fromWkt`). -/

namespace CenDB.Spatial

open Text ByteCursor List

/-- Why a text is rejected, with the byte offset. -/
inductive WktErr where
  | expected (c : Char) (offset : ℕ) (got : Option Char)
  | expectedIdent (offset : ℕ)
  | expectedNumber (offset : ℕ)
  | badNumber (text : List Char)
  | expectedSeparator (offset : ℕ)
  | noRings
  | unknownType (ty : List Char)
  | trailing (offset : ℕ)
deriving DecidableEq, Repr

/-- The error of the parser where the reader has this one. -/
def WktError.stop (input : List Char) : WktError → Stop WktErr
  | .expected c rest => .err (.expected c (offset input rest) rest.head?)
  | .expectedIdent rest => .err (.expectedIdent (offset input rest))
  | .expectedNumber rest => .err (.expectedNumber (offset input rest))
  | .badNumber text => .err (.badNumber text)
  | .expectedSeparator rest => .err (.expectedSeparator (offset input rest))
  | .noRings => .err .noRings
  | .unknownType ty => .err (.unknownType ty)
  | .trailing rest => .err (.trailing (offset input rest))
  | .outOfFuel => .outOfFuel

namespace WktParser

variable {F : Type} (num : Decimals F) (alphabetic : Char → Bool)

abbrev WktCursor := ByteCursor WktErr

def skipWs : WktCursor Unit := skipWhile isWhitespace Char.utf8Size

def eat (c : Char) : WktCursor Unit := do
  skipWs
  if (← peek) = some c then advance c.utf8Size
  else do
    let got ← peek
    fail fun n => .expected c n got

def eatIdent : WktCursor (List Char) := do
  skipWs
  let start ← pos
  skipWhile alphabetic Char.utf8Size
  if (← pos) = start then fail .expectedIdent
  else sliceFrom start

/-- A sign or none. -/
def takeSign {ε : Type} : ByteCursor ε Unit := do
  let next ← peek
  if next = some '-' ∨ next = some '+' then advance 1 else return ()

/-- The characters of a number after its sign; whether there is a digit. -/
def numberLoop : ℕ → Bool → Bool → Bool → WktCursor Bool
  | 0, _, _, _ => throw .outOfFuel
  | fuel + 1, seenDot, seenE, seenDigit => do
    match ← peek with
    | some c =>
      if c.isDigit then do
        advance 1
        numberLoop fuel seenDot seenE true
      else if c = '.' && !seenDot && !seenE then do
        advance 1
        numberLoop fuel true seenE seenDigit
      else if (c = 'e' || c = 'E') && !seenE && seenDigit then do
        advance 1
        takeSign
        numberLoop fuel seenDot true seenDigit
      else return seenDigit
    | none => return seenDigit

def eatNumber : WktCursor F := do
  skipWs
  let start ← pos
  takeSign
  let seenDigit ← fun input => numberLoop (input.length + 1) false false false input
  if !seenDigit then throw (.err (.expectedNumber start))
  else do
    let s ← sliceFrom start
    match num.parse s with
    | some f => return f
    | none => throw (.err (.badNumber s))

def eatPoint : WktCursor (Point F) := do
  let x ← eatNumber num
  let y ← eatNumber num
  return ⟨x, y⟩

/-- A list in parentheses. -/
def eatList {α : Type} (item : WktCursor α) : WktCursor (List α) := do
  eat '('
  separated item isWhitespace ',' ')' .expectedSeparator

def eatCoordList : WktCursor (List (Point F)) := eatList (eatPoint num)

/-- A point in parentheses or without. -/
def eatPointToken : WktCursor (Point F) := do
  skipWs
  if (← peek) = some '(' then do
    eat '('
    let p ← eatPoint num
    eat ')'
    return p
  else eatPoint num

def eatRingList : WktCursor (List (LineString F)) := eatList (LineString.mk <$> eatCoordList num)

/-- `Polygon::new(rings[0], rings[1..])` behind a check that there are rings. -/
def polygonOfRings (rings : List (LineString F)) : WktCursor (Polygon F) :=
  if rings.isEmpty then throw (.err .noRings)
  else do
    let exterior ← cut rings[0]?
    let interiors ← cut (if 1 ≤ rings.length then some (rings.drop 1) else none)
    return ⟨exterior, interiors⟩

def eatPolygonList : WktCursor (List (Polygon F)) := eatList (eatRingList num >>= polygonOfRings)

/-- The markers of more dimensions are ignored. -/
def dimensionMarker : WktCursor Unit := do
  skipWs
  match ← peek with
  | some c => if c = 'Z' || c = 'M' then discard (eatIdent alphabetic) else return ()
  | none => return ()

/-- Step over the word `EMPTY`, or go back to where it should be. -/
def emptyMark : WktCursor Bool := do
  skipWs
  if (← peek) = some 'E' then do
    let save ← pos
    let ident ← orDefault (eatIdent alphabetic) []
    if ident.map Char.toUpper = "EMPTY".toList then return true
    else do
      seek save
      return false
  else return false

def marks : WktCursor Bool := do
  dimensionMarker alphabetic
  emptyMark alphabetic

/-- What follows the keyword; `child` reads a geometry with a keyword of its own. -/
def parseBody (child : WktCursor (Geometry F)) (ty : List Char) : WktCursor (Geometry F) :=
  if ty = "POINT".toList then do
    eat '('
    let p ← eatPoint num
    eat ')'
    return .point p
  else if ty = "LINESTRING".toList then (.lineString ⟨·⟩) <$> eatCoordList num
  else if ty = "POLYGON".toList then .polygon <$> (eatRingList num >>= polygonOfRings)
  else if ty = "MULTIPOINT".toList then (.multiPoint ⟨·⟩) <$> eatList (eatPointToken num)
  else if ty = "MULTILINESTRING".toList then (.multiLineString ⟨·⟩) <$> eatRingList num
  else if ty = "MULTIPOLYGON".toList then (.multiPolygon ⟨·⟩) <$> eatPolygonList num
  else if ty = "GEOMETRYCOLLECTION".toList then .geometryCollection <$> eatList child
  else throw (.err (.unknownType ty))

def parseGeometry : ℕ → WktCursor (Geometry F)
  | 0 => throw .outOfFuel
  | fuel + 1 => do
    let ty := (← eatIdent alphabetic).map Char.toUpper
    if ← marks alphabetic then return emptyGeometry num ty
    else parseBody num (parseGeometry fuel) ty

/-- A geometry takes a character or more, so that the number of characters bounds the nesting. -/
def fromWkt (input : List Char) : Except (Stop WktErr) (Geometry F) :=
  whole (do
    skipWs
    let g ← parseGeometry num alphabetic (input.length + 1)
    skipWs
    return g) .trailing input

/-! ### Blanks, names and numbers -/

variable {num} {alphabetic} {input rest : List Char}

theorem at_skipWs (h : rest <:+ input) : At WktError.stop skipWs Spatial.skipWs input rest :=
  at_skipWhile (fun _ _ => rfl) h

theorem at_eat (c : Char) (h : rest <:+ input) : At WktError.stop (eat c) (Spatial.eat c) input rest := by
  refine (at_skipWs h).bind fun _ behind hbehind _ => at_peek (hbehind.trans h) ?_
  split_ifs with hc
  · obtain ⟨next, rfl⟩ := List.head?_eq_some_iff.mp hc
    exact at_bump (hbehind.trans h) rfl
  · exact At.peek (hbehind.trans h) (at_fail rfl)

theorem at_eatIdent (h : rest <:+ input) :
    At WktError.stop (eatIdent alphabetic) (Spatial.eatIdent alphabetic) input rest := by
  refine (at_skipWs h).bind fun _ behind hbehind _ => ?_
  have hsplit : behind.takeWhile alphabetic ++ behind.dropWhile alphabetic = behind :=
    takeWhile_append_dropWhile
  have hinput := hbehind.trans h
  have hskip := skipWhile_eq (ε := WktErr) (p := alphabetic) (fun _ _ => rfl) hinput
  have hmoved := offset_eq_iff (hsplit.symm ▸ hinput)
  have hslice := sliceFrom_eq (ε := WktErr) (hsplit.symm ▸ hinput)
  rw [hsplit] at hmoved hslice
  by_cases htaken : behind.takeWhile alphabetic = []
  · have hstop : WktError.stop input (.expectedIdent (behind.dropWhile alphabetic)) =
        .err (.expectedIdent (offset input (behind.dropWhile alphabetic))) := rfl
    refine At.of_error ?_ ?_ hstop
    · simp only [bind_apply, pos_apply, hskip, Except.bind, if_pos (hmoved.mpr htaken), fail_apply]
    · simp only [Reader.takeWhile, bind, StateT.bind, Except.bind]
      rw [htaken]
      rfl
  · refine At.of_ok (a := behind.takeWhile alphabetic) ?_ ?_ (dropWhile_suffix alphabetic)
    · simp only [bind_apply, pos_apply, hskip, Except.bind, if_neg (mt hmoved.mp htaken), hslice]
    · obtain ⟨c, taken, hcons⟩ := exists_cons_of_ne_nil htaken
      simp only [Reader.takeWhile, bind, StateT.bind, Except.bind]
      rw [hcons]
      rfl

theorem passes_takeSign {ε : Type} : Passes (takeSign : ByteCursor ε Unit) sign := by
  intro input rest h
  rw [takeSign, bind_apply, peek_eq h]
  simp only [Except.bind]
  split_ifs with hsign
  · rcases hsign with hhead | hhead
    all_goals
      obtain ⟨next, rfl⟩ := List.head?_eq_some_iff.mp hhead
      exact ⟨advance_eq h rfl, rfl⟩
  · rw [not_or] at hsign
    rw [sign_eq_self hsign.1 hsign.2]
    exact ⟨rfl, rfl⟩

theorem utf8Size_of_isDigit {c : Char} (h : c.isDigit = true) : 1 = c.utf8Size :=
  (Utf8.utf8Size_eq_one.mpr (Utf8.isDigit_ascii h)).symm

/-- The exponent of a number with its sign. -/
theorem scanNumber_exponent {seenDot : Bool} {c : Char} (hc : c = 'e' ∨ c = 'E') :
    scanNumber seenDot false true (c :: rest) =
      (c :: ((sign rest).1 ++ (scanNumber seenDot true true (sign rest).2).1),
        (scanNumber seenDot true true (sign rest).2).2) := by
  have hdigit : ¬ c.isDigit = true := by rcases hc with rfl | rfl <;> decide
  have hdot : c ≠ '.' := by rcases hc with rfl | rfl <;> decide
  have hexp : (decide (c = 'e') || decide (c = 'E')) = true := by simpa using hc
  rw [scanNumber_cons, if_neg hdigit, if_neg (by simp [hdot]), if_pos (by simp [hexp])]

theorem numberLoop_eq {fuel : ℕ} (seenDot seenE seenDigit : Bool) (hfuel : rest.length < fuel) (h : rest <:+ input) :
    numberLoop fuel seenDot seenE seenDigit input (offset input rest) =
        .ok ((scanNumber seenDot seenE seenDigit rest).2.2,
          offset input (scanNumber seenDot seenE seenDigit rest).2.1) ∧
      rest = (scanNumber seenDot seenE seenDigit rest).1 ++ (scanNumber seenDot seenE seenDigit rest).2.1 := by
  induction fuel generalizing rest seenDot seenE seenDigit with
  | zero => cases hfuel
  | succ fuel ih =>
    rw [numberLoop, bind_apply, peek_eq h]
    cases rest with
    | nil => exact ⟨rfl, rfl⟩
    | cons c rest =>
      have hnext : rest <:+ input := (suffix_cons c rest).trans h
      have hlen : rest.length < fuel := Nat.lt_of_succ_lt_succ hfuel
      have hadvance : ∀ hsize : 1 = c.utf8Size, (advance 1 : WktCursor Unit) input (offset input (c :: rest)) =
        .ok ((), offset input rest) := fun hsize => advance_eq h hsize
      simp only [Except.bind, head?_cons]
      split_ifs with hdigit hdot hexp
      · obtain ⟨hread, hsplit⟩ := ih seenDot seenE true hlen hnext
        rw [scanNumber_digit hdigit, bind_apply, hadvance (utf8Size_of_isDigit hdigit)]
        exact ⟨hread, congrArg (c :: ·) hsplit⟩
      · simp only [Bool.and_eq_true, decide_eq_true_eq, Bool.not_eq_true'] at hdot
        obtain ⟨⟨rfl, rfl⟩, rfl⟩ := hdot
        obtain ⟨hread, hsplit⟩ := ih true false seenDigit hlen hnext
        rw [scanNumber_dot, bind_apply, hadvance rfl]
        exact ⟨hread, congrArg ('.' :: ·) hsplit⟩
      · simp only [Bool.and_eq_true, Bool.or_eq_true, decide_eq_true_eq, Bool.not_eq_true'] at hexp
        obtain ⟨⟨hc, rfl⟩, rfl⟩ := hexp
        have hsize : 1 = c.utf8Size := by rcases hc with rfl | rfl <;> rfl
        obtain ⟨hsign, hsigned⟩ := passes_takeSign (ε := WktErr) input rest hnext
        have hbehind : (sign rest).2 <:+ rest := ⟨(sign rest).1, hsigned.symm⟩
        obtain ⟨hread, hsplit⟩ := ih seenDot true true
          (hbehind.length_le.trans_lt hlen) (hbehind.trans hnext)
        rw [scanNumber_exponent hc, bind_apply, hadvance hsize]
        simp only [Except.bind]
        rw [bind_apply, hsign]
        refine ⟨hread, ?_⟩
        rw [cons_append, append_assoc, ← hsplit, ← hsigned]
      · rw [scanNumber_cons, if_neg hdigit, if_neg hdot, if_neg hexp]
        exact ⟨rfl, rfl⟩

theorem at_eatNumber (h : rest <:+ input) : At WktError.stop (eatNumber num) (Spatial.eatNumber num) input rest := by
  refine (at_skipWs h).bind fun _ start hstart _ => ?_
  have hinput := hstart.trans h
  obtain ⟨hsign, hsigned⟩ := passes_takeSign (ε := WktErr) input start hinput
  have hbehind : (sign start).2 <:+ start := ⟨(sign start).1, hsigned.symm⟩
  obtain ⟨hread, hsplit⟩ := numberLoop_eq false false false
    (Nat.lt_succ_of_le (hbehind.trans hinput).length_le) (hbehind.trans hinput)
  generalize hs : sign start = s at *
  obtain ⟨signed, mid⟩ := s
  generalize hd : scanNumber false false false mid = d at *
  obtain ⟨digits, after, seenDigit⟩ := d
  have htaken : start = (signed ++ digits) ++ after := by rw [append_assoc, ← hsplit, ← hsigned]
  have hslice := sliceFrom_eq (ε := WktErr) (htaken ▸ hinput)
  rw [← htaken] at hslice
  have hafter : after <:+ start := ⟨signed ++ digits, htaken.symm⟩
  cases seenDigit with
  | false =>
    have hstop : WktError.stop input (.expectedNumber start) = .err (.expectedNumber (offset input start)) := rfl
    refine At.of_error ?_ ?_ hstop
    · simp only [bind_apply, pos_apply, hsign, Except.bind]
      rw [hread]
      rfl
    · simp [hs, hd]
  | true =>
    cases hparse : num.parse (signed ++ digits) with
    | none =>
      have hstop : WktError.stop input (.badNumber (signed ++ digits)) = .err (.badNumber (signed ++ digits)) := rfl
      refine At.of_error ?_ ?_ hstop
      · simp only [bind_apply, pos_apply, hsign, Except.bind]
        rw [hread]
        simp only [Bool.not_true, Bool.false_eq_true, if_false, bind_apply, hslice, Except.bind, hparse]
        rfl
      · simp only [hs, hd, hparse]
        rfl
    | some f =>
      refine At.of_ok (a := f) ?_ ?_ hafter
      · simp only [bind_apply, pos_apply, hsign, Except.bind]
        rw [hread]
        simp only [Bool.not_true, Bool.false_eq_true, if_false, bind_apply, hslice, Except.bind, hparse]
        rfl
      · simp only [hs, hd, hparse]
        rfl

theorem at_eatPoint (h : rest <:+ input) : At WktError.stop (eatPoint num) (Spatial.eatPoint num) input rest :=
  (at_eatNumber h).bind fun x _ hbehind _ => (at_eatNumber (hbehind.trans h)).bind fun y _ _ _ =>
    At.pure (⟨x, y⟩ : Point F)

/-! ### Lists and geometries -/

theorem at_eatList {α : Type} {item : WktCursor α} {item' : WktReader α}
    (hitem : ∀ bs, bs <:+ rest → At WktError.stop item item' input bs) (h : rest <:+ input) :
    At WktError.stop (eatList item) (Spatial.eatList item') input rest :=
  (at_eat '(' h).bind fun _ _ hbehind _ => at_separated rfl rfl (fun _ => rfl)
    (fun bs hbs => hitem bs (hbs.trans hbehind)) (hbehind.trans h)

theorem at_eatCoordList (h : rest <:+ input) :
    At WktError.stop (eatCoordList num) (Spatial.eatCoordList num) input rest :=
  at_eatList (fun _ hbs => at_eatPoint (hbs.trans h)) h

theorem at_eatPointToken (h : rest <:+ input) :
    At WktError.stop (eatPointToken num) (Spatial.eatPointToken num) input rest := by
  refine (at_skipWs h).bind fun _ behind hbehind _ => at_peek (hbehind.trans h) ?_
  have hinput := hbehind.trans h
  split_ifs
  · exact (at_eat '(' hinput).bind fun _ _ hopen _ => (at_eatPoint (hopen.trans hinput)).bind fun p _ hpoint _ =>
      (at_eat ')' (hpoint.trans (hopen.trans hinput))).bind fun _ _ _ _ => At.pure p
  · exact at_eatPoint hinput

theorem at_eatRingList (h : rest <:+ input) :
    At WktError.stop (eatRingList num) (Spatial.eatRingList num) input rest :=
  at_eatList (fun _ hbs => (at_eatCoordList (hbs.trans h)).map) h

/-- Behind the check neither the index nor the slice panics. -/
theorem at_polygonOfRings (rings : List (LineString F)) :
    At WktError.stop (polygonOfRings rings) (Spatial.polygonOfRings rings) input rest := by
  cases rings with
  | nil => exact at_throw rfl
  | cons exterior interiors => exact At.of_ok rfl rfl suffix_rfl

theorem at_eatPolygonList (h : rest <:+ input) :
    At WktError.stop (eatPolygonList num) (Spatial.eatPolygonList num) input rest :=
  at_eatList (fun _ hbs => (at_eatRingList (hbs.trans h)).bind fun rings _ _ _ => at_polygonOfRings rings) h

theorem at_dimensionMarker (h : rest <:+ input) :
    At WktError.stop (dimensionMarker alphabetic) (Spatial.dimensionMarker alphabetic) input rest := by
  refine (at_skipWs h).bind fun _ behind hbehind _ => at_peek (hbehind.trans h) ?_
  have hinput := hbehind.trans h
  cases behind with
  | nil => exact At.pure ()
  | cons c next =>
    simp only [head?_cons]
    split_ifs
    · exact (at_eatIdent hinput).map
    · exact At.pure ()

theorem stop_ne_panic (e : WktError) (input : List Char) : e.stop input ≠ .panic := by
  cases e <;> nofun

/-- An error of the reader is reported, unless it is the end of the fuel. -/
theorem exists_err {e : WktError} (he : e.stop input ≠ .outOfFuel) : ∃ e', e.stop input = .err e' := by
  cases hstop : e.stop input with
  | err e' => exact ⟨e', rfl⟩
  | panic => exact absurd hstop (stop_ne_panic e input)
  | outOfFuel => exact absurd hstop he

theorem at_emptyMark (h : rest <:+ input) :
    At WktError.stop (emptyMark alphabetic) (Spatial.emptyMark alphabetic) input rest := by
  refine (at_skipWs h).bind fun _ behind hbehind _ => At.peek (hbehind.trans h) ?_
  have hinput := hbehind.trans h
  by_cases hhead : behind.head? = some 'E'
  · have hident : At WktError.stop (eatIdent alphabetic) (Spatial.eatIdent alphabetic) input behind :=
      at_eatIdent hinput
    have hcursor := hident.eq
    rw [if_pos hhead]
    cases hread : Spatial.eatIdent alphabetic behind with
    | error e =>
      obtain ⟨e', he'⟩ := exists_err (hident.fueled e hread)
      rw [hread, outcome, he'] at hcursor
      refine At.of_ok (a := false) ?_ ?_ suffix_rfl
      · simp only [bind_apply, pos_apply, Except.bind, orDefault_err hcursor]
        rfl
      · simp [hread]
    | ok read =>
      obtain ⟨ident, after⟩ := read
      rw [hread, outcome] at hcursor
      by_cases hempty : ident.map Char.toUpper = "EMPTY".toList
      · refine At.of_ok (a := true) ?_ ?_ (hident.suffix ident after hread)
        · simp only [bind_apply, pos_apply, Except.bind, orDefault_ok hcursor, if_pos hempty]
          rfl
        · simp only [if_pos hhead, hread, if_pos hempty]
      · refine At.of_ok (a := false) ?_ ?_ suffix_rfl
        · simp only [bind_apply, pos_apply, Except.bind, orDefault_ok hcursor, if_neg hempty]
          rfl
        · simp only [if_pos hhead, hread, if_neg hempty]
  · rw [if_neg hhead]
    refine At.of_ok (a := false) rfl ?_ suffix_rfl
    simp only [if_neg hhead]

theorem at_marks (h : rest <:+ input) : At WktError.stop (marks alphabetic) (Spatial.marks alphabetic) input rest :=
  (at_dimensionMarker h).bind fun _ _ hbehind _ => at_emptyMark (hbehind.trans h)

theorem at_parseBody {child : WktCursor (Geometry F)} {child' : WktReader (Geometry F)} (ty : List Char)
    (hchild : ∀ bs, bs <:+ rest → At WktError.stop child child' input bs) (h : rest <:+ input) :
    At WktError.stop (parseBody num child ty) (Spatial.parseBody num child' ty) input rest := by
  unfold parseBody Spatial.parseBody
  split_ifs
  · exact (at_eat '(' h).bind fun _ _ hopen _ => (at_eatPoint (hopen.trans h)).bind fun p _ hpoint _ =>
      (at_eat ')' (hpoint.trans (hopen.trans h))).bind fun _ _ _ _ => At.pure (Geometry.point p)
  · exact (at_eatCoordList h).map
  · exact ((at_eatRingList h).bind fun rings _ _ _ => at_polygonOfRings rings).map
  · exact (at_eatList (fun _ hbs => at_eatPointToken (hbs.trans h)) h).map
  · exact (at_eatRingList h).map
  · exact (at_eatPolygonList h).map
  · exact (at_eatList hchild h).map
  · exact at_throw rfl

/-- A keyword takes a character or more. -/
theorem length_lt_of_eatIdent {ident behind : List Char} (h : Spatial.eatIdent alphabetic rest = .ok (ident, behind)) :
    behind.length < rest.length := by
  obtain ⟨_, mid, hskip, h⟩ := Reader.bind_eq_ok.mp h
  obtain ⟨word, after, htake, h⟩ := Reader.bind_eq_ok.mp h
  cases hskip
  cases htake
  have hle := (dropWhile_suffix (l := rest) isWhitespace).length_le
  have hsplit := congrArg List.length
    (takeWhile_append_dropWhile (p := alphabetic) (l := rest.dropWhile isWhitespace))
  rw [length_append] at hsplit
  cases hword : (rest.dropWhile isWhitespace).takeWhile alphabetic with
  | nil =>
    rw [hword] at h
    cases h
  | cons c word =>
    rw [hword, length_cons] at hsplit
    rw [hword] at h
    cases h
    omega

theorem at_parseGeometry {fuel : ℕ} (hfuel : rest.length < fuel) (h : rest <:+ input) :
    At WktError.stop (parseGeometry num alphabetic fuel) (Spatial.parseGeometry num alphabetic fuel) input rest := by
  induction fuel generalizing rest with
  | zero => cases hfuel
  | succ fuel ih =>
    rw [parseGeometry, Spatial.parseGeometry]
    refine (at_eatIdent h).bind fun ident behind hbehind hread => ?_
    have hlen := length_lt_of_eatIdent hread
    refine (at_marks (hbehind.trans h)).bind fun empty after hafter _ => ?_
    have hsuffix := hafter.trans hbehind
    cases empty with
    | true => exact At.pure _
    | false =>
      exact at_parseBody _ (fun bs hbs => ih (by have := hbs.length_le; have := hafter.length_le; omega)
        (hbs.trans (hsuffix.trans h))) (hsuffix.trans h)

variable (num alphabetic input)

theorem at_whole : At WktError.stop
    (do skipWs; let g ← parseGeometry num alphabetic (input.length + 1); skipWs; return g)
    (do Spatial.skipWs; let g ← Spatial.parseGeometry num alphabetic (input.length + 1); Spatial.skipWs; return g)
    input input :=
  (at_skipWs suffix_rfl).bind fun _ _ hstart _ =>
    (at_parseGeometry (Nat.lt_succ_of_le hstart.length_le) hstart).bind fun g _ hbehind _ =>
      (at_skipWs (hbehind.trans hstart)).bind fun _ _ _ _ => At.pure g

/-- **The parser does what the reader does**, on every text. -/
theorem fromWkt_eq : fromWkt num alphabetic input = match Spatial.fromWkt num alphabetic input with
    | .ok g => .ok g
    | .error e => .error (e.stop input) := by
  rw [fromWkt, whole_eq (at_whole num alphabetic input), Spatial.fromWkt]
  cases (do Spatial.skipWs; let g ← Spatial.parseGeometry num alphabetic (input.length + 1); Spatial.skipWs; return g :
    WktReader (Geometry F)) input with
  | error e => rfl
  | ok read => obtain ⟨g, _ | ⟨c, rest⟩⟩ := read <;> rfl

/-- **The parser never panics**: it returns a geometry or an error. -/
theorem returns_fromWkt : Stop.Returns (fromWkt num alphabetic input) :=
  returns_whole (at_whole num alphabetic input) (fun e => stop_ne_panic e input) .trailing

end WktParser

end CenDB.Spatial
