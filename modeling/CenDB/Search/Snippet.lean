import CenDB.Lib.Windows

/-! # Snippets

A snippet is a window of the text with the most matches, in which the matches are marked.  Only windows that
begin at a match, or at the beginning of the text, are tried.  `generateSnippet_spec` says that this is enough,
and what is marked. -/

namespace CenDB.Search

open Windows List

/-- `char::is_alphanumeric` and `str::to_lowercase`. -/
structure Unicode where
  isAlphanumeric : Char → Bool
  toLowercase : List Char → List Char

/-- The places of the characters of a word that matched. -/
structure Match where
  start : ℕ
  stop : ℕ
  lt : start < stop

variable (u : Unicode)

/-! ### The matches -/

/-- The loop over the words of the text, from `i` on; `rest` is what is there. -/
def scanWords (needles : List (List Char)) (i : ℕ) (rest : List Char) : List Match :=
  match rest with
  | [] => []
  | c :: behind =>
    if h : u.isAlphanumeric c then
      let word := (c :: behind).takeWhile u.isAlphanumeric
      have hword : i < i + word.length := by
        have hpos : word.length ≠ 0 := by simp [word, h]
        exact Nat.lt_add_of_pos_right (Nat.pos_of_ne_zero hpos)
      (if needles.contains (u.toLowercase word) then [⟨i, i + word.length, hword⟩] else []) ++
        scanWords needles (i + word.length) ((c :: behind).dropWhile u.isAlphanumeric)
    else scanWords needles (i + 1) behind
termination_by rest.length
decreasing_by
  · have hle := (dropWhile_suffix u.isAlphanumeric (l := behind)).length_le
    rw [dropWhile_cons_of_pos h, length_cons]
    omega
  · simp

def needles (queryTerms : List (List Char)) : List (List Char) :=
  (queryTerms.map u.toLowercase).filter fun t => !t.isEmpty

def findMatches (text : List Char) (queryTerms : List (List Char)) : List Match :=
  if (needles u queryTerms).isEmpty then [] else scanWords u (needles u queryTerms) 0 text

/-! ### The snippet -/

/-- The loop of `build_snippet` from `i` on. -/
def buildFrom (text : List Char) (winEnd : ℕ) (found : List Match) (i : ℕ) : List Char :=
  if _h : i < winEnd then
    match _hfind : found.find? fun m => m.start = i with
    | some m =>
      "<mark>".toList ++ slice text i (min m.stop winEnd) ++ "</mark>".toList ++
        buildFrom text winEnd found (min m.stop winEnd)
    | none => text[i]?.toList ++ buildFrom text winEnd found (i + 1)
  else []
termination_by winEnd - i
decreasing_by
  · have hstart : m.start = i := by simpa using find?_some _hfind
    have hlt := m.lt
    omega
  · omega

def buildSnippet (text : List Char) (winStart winEnd : ℕ) (found : List Match) : List Char :=
  buildFrom text winEnd found winStart

/-- How many of the places are in the window. -/
def countFrom (starts : List ℕ) (maxLength start : ℕ) : ℕ :=
  (starts.filter fun s => start ≤ s && s < start + maxLength).length

/-- The first of the places whose window has the most of them, and how many. -/
def bestWindow (starts : List ℕ) (maxLength : ℕ) : ℕ × ℕ := starts.foldl (keepBest (countFrom starts maxLength)) (0, 0)

/-- The beginning of the window: the best place, or the beginning of the text if it is better. -/
def bestStart (starts : List ℕ) (maxLength : ℕ) : ℕ :=
  let best := bestWindow starts maxLength
  if best.2 < (starts.filter fun s => s < maxLength).length then 0 else best.1

def affix (truncated : Bool) : List Char := if truncated then "...".toList else []

def generateSnippet (text : List Char) (queryTerms : List (List Char)) (maxLength : ℕ) : Option (List Char) :=
  if text.isEmpty || maxLength == 0 || queryTerms.isEmpty then none
  else
    let found := findMatches u text queryTerms
    if found.isEmpty then none
    else
      let textLen := text.length
      let maxLength := min maxLength textLen
      let start := bestStart (found.map Match.start) maxLength
      let winEnd := min (start + maxLength) textLen
      some (affix (0 < start) ++ buildSnippet text start winEnd found ++ affix (winEnd < textLen))

/-! ### Whole words -/

/-- A whole word of the text that is one of the terms in lower case. -/
structure IsMatch (text : List Char) (queryTerms : List (List Char)) (start stop : ℕ) : Prop where
  run : IsRun u.isAlphanumeric text start stop
  term : u.toLowercase (slice text start stop) ∈ needles u queryTerms

def matchStarts (text : List Char) (queryTerms : List (List Char)) : Set ℕ :=
  {start | ∃ stop, IsMatch u text queryTerms start stop}

variable {u} {text : List Char} {queryTerms : List (List Char)}

variable {i s t : ℕ} {needles : List (List Char)} {rest : List Char}

theorem at_of_drop {c : Char} {behind : List Char} (h : text.drop i = c :: behind) :
    At u.isAlphanumeric text i ↔ u.isAlphanumeric c = true := by
  have hfirst := @at_drop _ u.isAlphanumeric text i 0
  rw [Nat.add_zero, h] at hfirst
  exact hfirst.symm

/-- The scan finds the words from a place on, unless the place is inside of one. -/
theorem mem_scanWords (hrest : text.drop i = rest)
    (hbefore : At u.isAlphanumeric text i → ∀ j, j + 1 = i → ¬At u.isAlphanumeric text j) :
    (∃ m ∈ scanWords u needles i rest, m.start = s ∧ m.stop = t) ↔
      (IsRun u.isAlphanumeric text s t ∧ i ≤ s) ∧ u.toLowercase (slice text s t) ∈ needles := by
  fun_induction scanWords u needles i rest with
  | case1 i =>
    refine iff_of_false (by simp) ?_
    rintro ⟨⟨hrun, hle⟩, -⟩
    have hend : text.length ≤ i := drop_eq_nil_iff.mp hrest
    have hlt := (hrun.inside s (le_refl s) hrun.lt).lt_length
    omega
  | case2 i c behind hc word hword ih =>
    have hat : At u.isAlphanumeric text i := (at_of_drop hrest).mpr hc
    have hrun : IsRun u.isAlphanumeric text i (i + word.length) := by
      have hfirst := isRun_takeWhile hat (hbefore hat)
      rwa [hrest] at hfirst
    have htake : slice text i (i + word.length) = word := by
      rw [slice, Nat.add_sub_cancel_left, hrest]
      exact (prefix_iff_eq_take.mp ( takeWhile_prefix _)).symm
    have hdrop : text.drop (i + word.length) = (c :: behind).dropWhile u.isAlphanumeric := by
      have hsplit : c :: behind = word ++ (c :: behind).dropWhile u.isAlphanumeric :=
        takeWhile_append_dropWhile.symm
      rw [← drop_drop, hrest]
      nth_rewrite 1 [hsplit]
      exact drop_left
    have hmore := ih hdrop (fun hafter => absurd hafter hrun.after)
    rw [isRun_and_le_iff hrun, or_and_right, ← hmore]
    constructor
    · rintro ⟨m, hm, hs, ht⟩
      rcases mem_append.mp hm with hm | hm
      · split_ifs at hm with hneedle
        · obtain rfl := mem_singleton.mp hm
          obtain rfl := hs
          obtain rfl := ht
          exact Or.inl ⟨⟨rfl, rfl⟩, by rw [htake]; exact contains_iff_mem.mp hneedle⟩
        · cases hm
      · exact Or.inr ⟨m, hm, hs, ht⟩
    · rintro (⟨⟨rfl, rfl⟩, hneedle⟩ | ⟨m, hm, hs, ht⟩)
      · rw [htake] at hneedle
        rw [if_pos (contains_iff_mem.mpr hneedle)]
        exact ⟨_, mem_append_left _ (mem_singleton.mpr rfl), rfl, rfl⟩
      · exact ⟨m, mem_append_right _ hm, hs, ht⟩
  | case3 i c behind hc ih =>
    have hat : ¬At u.isAlphanumeric text i := fun hat => hc ((at_of_drop hrest).mp hat)
    have hdrop : text.drop (i + 1) = behind := by rw [← drop_drop, hrest, drop_one, tail_cons]
    have hnext : ∀ j, j + 1 = i + 1 → ¬At u.isAlphanumeric text j := by
      rintro j hj
      obtain rfl : j = i := by omega
      exact hat
    rw [isRun_and_le_succ_iff hat]
    exact ih hdrop fun _ => hnext

theorem mem_findMatches :
    (∃ m ∈ findMatches u text queryTerms, m.start = s ∧ m.stop = t) ↔ IsMatch u text queryTerms s t := by
  unfold findMatches
  split_ifs with hempty
  · refine iff_of_false (by simp) fun h => ?_
    have hterm := h.term
    rw [List.isEmpty_iff.mp hempty] at hterm
    cases hterm
  · rw [mem_scanWords drop_zero (fun _ j hj => by omega)]
    exact ⟨fun h => ⟨h.1.1, h.2⟩, fun h => ⟨⟨h.run, Nat.zero_le s⟩, h.term⟩⟩

theorem le_of_mem_scanWords : ∀ m ∈ scanWords u needles i rest, i ≤ m.start := by
  fun_induction scanWords u needles i rest with
  | case1 i => simp
  | case2 i c behind hc word hword ih =>
    intro m hm
    rcases mem_append.mp hm with hm | hm
    · split_ifs at hm
      · rw [mem_singleton.mp hm]
      · cases hm
    · exact (Nat.le_add_right i word.length).trans (ih m hm)
  | case3 i c behind hc ih => exact fun m hm => (Nat.le_succ i).trans (ih m hm)

theorem scanWords_sorted (needles : List (List Char)) (i : ℕ) (rest : List Char) :
    (scanWords u needles i rest).Pairwise fun m m' => m.start < m'.start := by
  fun_induction scanWords u needles i rest with
  | case1 i => exact List.Pairwise.nil
  | case2 i c behind hc word hword ih =>
    split_ifs
    · refine pairwise_cons.mpr ⟨fun m hm => ?_, ih⟩
      exact hword.trans_le (le_of_mem_scanWords m hm)
    · exact ih
  | case3 i c behind hc ih => exact ih

theorem nodup_starts : ((findMatches u text queryTerms).map Match.start).Nodup := by
  rw [List.Nodup, pairwise_map]
  unfold findMatches
  split_ifs
  · simp
  · exact (scanWords_sorted _ 0 text).imp fun hlt => hlt.ne

theorem mem_starts :
    s ∈ (findMatches u text queryTerms).map Match.start ↔ s ∈ matchStarts u text queryTerms := by
  rw [List.mem_map]
  constructor
  · rintro ⟨m, hm, hs⟩
    exact ⟨m.stop, mem_findMatches.mp ⟨m, hm, hs, rfl⟩⟩
  · rintro ⟨t, ht⟩
    obtain ⟨m, hm, hs, -⟩ := mem_findMatches.mpr ht
    exact ⟨m, hm, hs⟩

/-! ### The best window -/

theorem countFrom_eq_ncard {starts : List ℕ} {S : Set ℕ} (hnodup : starts.Nodup) (hS : ∀ s, s ∈ starts ↔ s ∈ S)
    (width v : ℕ) : countFrom starts width v = (S ∩ Set.Ico v (v + width)).ncard := by
  have hset : S ∩ Set.Ico v (v + width) =
      ((starts.filter fun s => v ≤ s && s < v + width).toFinset : Set ℕ) := by
    ext s
    simp only [Set.mem_inter_iff, Set.mem_Ico, Finset.mem_coe, mem_toFinset, mem_filter, hS,
      Bool.and_eq_true, decide_eq_true_eq]
  rw [hset, Set.ncard_coe_finset, toFinset_card_of_nodup (hnodup.filter _), countFrom]

/-- No window that begins at one of the places has more of them. -/
theorem countFrom_bestStart (starts : List ℕ) (width : ℕ) :
    (∀ s ∈ starts, countFrom starts width s ≤ countFrom starts width (bestStart starts width)) ∧
      (bestStart starts width = 0 ∨ bestStart starts width ∈ starts) := by
  obtain ⟨-, hall, hcase⟩ := keepBest_spec (countFrom starts width) starts (0, 0)
  have hzero : countFrom starts width 0 = (starts.filter fun s => s < width).length := by simp [countFrom]
  unfold bestStart bestWindow
  dsimp only
  split_ifs with hlt
  · exact ⟨fun s hs => (hall s hs).trans (hzero ▸ hlt.le), Or.inl rfl⟩
  · rcases hcase with heq | ⟨x, hx, heq⟩
    · rw [heq] at hall ⊢
      exact ⟨fun s hs => (hall s hs).trans (Nat.zero_le _), Or.inl rfl⟩
    · rw [heq] at hall ⊢
      exact ⟨hall, Or.inr hx⟩

/-! ### The marked text -/

/-- A part of a snippet: a character, or a word with marks. -/
inductive Piece
  | plain (c : Char)
  | marked (word : List Char)

namespace Piece

/-- The part without marks. -/
def chars : Piece → List Char
  | plain c => [c]
  | marked word => word

def render : Piece → List Char
  | plain c => [c]
  | marked word => "<mark>".toList ++ word ++ "</mark>".toList

/-- The marked words of some parts, with the places in the text where they begin. -/
def marks (i : ℕ) : List Piece → List (ℕ × List Char)
  | [] => []
  | plain _ :: pieces => marks (i + 1) pieces
  | marked word :: pieces => (i, word) :: marks (i + word.length) pieces

end Piece

/-- The parts are the text between two places, and the words that begin there are marked up to the second one. -/
structure Marked (u : Unicode) (text : List Char) (queryTerms : List (List Char)) (start stop : ℕ)
    (pieces : List Piece) : Prop where
  chars : pieces.flatMap Piece.chars = slice text start stop
  marks : ∀ s word, (s, word) ∈ Piece.marks start pieces ↔
    (start ≤ s ∧ s < stop) ∧ ∃ t, IsMatch u text queryTerms s t ∧ word = slice text s (min t stop)

theorem buildFrom_eq {found : List Match} {winEnd : ℕ} (hend : winEnd ≤ text.length)
    (hfound : ∀ s t, (∃ m ∈ found, m.start = s ∧ m.stop = t) ↔ IsMatch u text queryTerms s t) (i : ℕ) :
    ∃ pieces, buildFrom text winEnd found i = pieces.flatMap Piece.render ∧
      Marked u text queryTerms i winEnd pieces := by
  fun_induction buildFrom text winEnd found i with
  | case1 i hi m hfind ih =>
    obtain ⟨pieces, hbuild, hpieces⟩ := ih
    have hstart : m.start = i := by simpa using find?_some hfind
    have hmatch : IsMatch u text queryTerms i m.stop :=
      (hfound i m.stop).mp ⟨m, mem_of_find?_eq_some hfind, hstart, rfl⟩
    have hlt := m.lt
    have hlength : i + (slice text i (min m.stop winEnd)).length = min m.stop winEnd := by
      rw [length_slice (by omega)]
      omega
    refine ⟨.marked (slice text i (min m.stop winEnd)) :: pieces, ?_, ?_, fun s word => ?_⟩
    · rw [hbuild, flatMap_cons]
      rfl
    · rw [flatMap_cons, hpieces.chars]
      exact slice_append (by omega) (min_le_right _ _)
    · rw [Piece.marks, hlength, mem_cons, hpieces.marks s word, Prod.mk.injEq]
      constructor
      · rintro (⟨rfl, rfl⟩ | ⟨⟨hle, hs⟩, hword⟩)
        · exact ⟨⟨le_refl _, hi⟩, m.stop, hmatch, rfl⟩
        · exact ⟨⟨by omega, hs⟩, hword⟩
      · rintro ⟨⟨hle, hs⟩, t, ht, hword⟩
        rcases hle.eq_or_lt with rfl | hbehind
        · rw [ht.run.stop_unique hmatch.run] at hword
          exact Or.inl ⟨rfl, hword⟩
        · have hstop := hmatch.run.stop_le ht.run hbehind
          exact Or.inr ⟨⟨by omega, hs⟩, t, ht, hword⟩
  | case2 i hi hfind ih =>
    obtain ⟨pieces, hbuild, hpieces⟩ := ih
    have hc : text[i]? = some text[i] := getElem?_eq_getElem (by omega)
    have hnone : ∀ t, ¬IsMatch u text queryTerms i t := by
      intro t ht
      obtain ⟨m, hm, hs, -⟩ := (hfound i t).mpr ht
      have hnot := find?_eq_none.mp hfind m hm
      simp [hs] at hnot
    refine ⟨.plain text[i] :: pieces, ?_, ?_, fun s word => ?_⟩
    · rw [hbuild, hc, flatMap_cons]
      rfl
    · rw [flatMap_cons, hpieces.chars, Piece.chars, ← slice_succ hc]
      exact slice_append (Nat.le_succ i) hi
    · rw [Piece.marks, hpieces.marks s word]
      refine and_congr_left fun hword => and_congr_left fun _ => ⟨fun hle => by omega, fun hle => ?_⟩
      obtain ⟨t, ht, -⟩ := hword
      rcases hle.eq_or_lt with rfl | hbehind
      · exact absurd ht (hnone t)
      · exact hbehind
  | case3 i hi =>
    refine ⟨[], rfl, ?_, fun s word => ?_⟩
    · rw [slice, Nat.sub_eq_zero_of_le (Nat.not_lt.mp hi), take_zero]
      rfl
    · refine iff_of_false not_mem_nil ?_
      rintro ⟨⟨hle, hs⟩, -⟩
      omega

/-- A snippet: some window of the text with marks and affixes, which has as many matches as any of its width. -/
structure IsSnippet (u : Unicode) (text : List Char) (queryTerms : List (List Char)) (maxLength : ℕ)
    (snippet : List Char) (start stop : ℕ) (pieces : List Piece) : Prop where
  start_le : start ≤ stop
  stop_le : stop ≤ text.length
  short : stop - start ≤ maxLength
  snippet : snippet = affix (0 < start) ++ pieces.flatMap Piece.render ++ affix (stop < text.length)
  marked : Marked u text queryTerms start stop pieces
  best : ∀ v, (matchStarts u text queryTerms ∩ Set.Ico v (v + min maxLength text.length)).ncard ≤
    (matchStarts u text queryTerms ∩ Set.Ico start stop).ncard

/-- **A snippet is a window of the text with the most matches**, and they are marked in it. -/
theorem generateSnippet_spec {maxLength : ℕ} {snippet : List Char}
    (h : generateSnippet u text queryTerms maxLength = some snippet) :
    ∃ start stop pieces, IsSnippet u text queryTerms maxLength snippet start stop pieces := by
  rw [generateSnippet] at h
  dsimp only at h
  split_ifs at h with hnone hempty
  obtain rfl := Option.some.inj h
  have hin : ∀ s ∈ matchStarts u text queryTerms, s < text.length := by
    rintro s ⟨t, ht⟩
    exact ht.run.lt.trans_le ht.run.le_length
  obtain ⟨hbest, hplace⟩ := countFrom_bestStart ((findMatches u text queryTerms).map Match.start)
    (min maxLength text.length)
  generalize bestStart ((findMatches u text queryTerms).map Match.start) (min maxLength text.length) = start at *
  have hstart : start ≤ text.length := by
    rcases hplace with rfl | hmem
    · exact Nat.zero_le _
    · exact (hin start (mem_starts.mp hmem)).le
  have hfound : ∀ s t, (∃ m ∈ findMatches u text queryTerms, m.start = s ∧ m.stop = t) ↔
      IsMatch u text queryTerms s t := fun s t => mem_findMatches
  have hstarts : ∀ s, s ∈ (findMatches u text queryTerms).map Match.start ↔ s ∈ matchStarts u text queryTerms :=
    fun s => mem_starts
  obtain ⟨pieces, hbuild, hpieces⟩ :=
    buildFrom_eq (min_le_right (start + min maxLength text.length) text.length) hfound start
  have hcount := countFrom_eq_ncard nodup_starts hstarts (min maxLength text.length)
  have hwindow : matchStarts u text queryTerms ∩ Set.Ico start (start + min maxLength text.length) =
      matchStarts u text queryTerms ∩ Set.Ico start (min (start + min maxLength text.length) text.length) := by
    ext s
    simp only [Set.mem_inter_iff, Set.mem_Ico, lt_min_iff]
    exact ⟨fun hs => ⟨hs.1, hs.2.1, hs.2.2, hin s hs.1⟩, fun hs => ⟨hs.1, hs.2.1, hs.2.2.1⟩⟩
  refine ⟨start, min (start + min maxLength text.length) text.length, pieces, by omega, min_le_right _ _, by omega,
    by rw [← hbuild, buildSnippet], hpieces, ?_⟩
  rw [← hwindow]
  refine ncard_window_le fun s hs => ?_
  rw [← hcount s, ← hcount start]
  exact hbest s ((hstarts s).mpr hs)

/-- Texts of ASCII characters. -/
def ascii : Unicode := ⟨Char.isAlphanum, List.map Char.toLower⟩

/-- Two matches in one window; the second one is cut. -/
theorem generateSnippet_spec_cut : ∃ start stop pieces,
    IsSnippet ascii "one Cat cats cat".toList ["cat".toList, "CATS".toList] 5
      "...<mark>Cat</mark> <mark>c</mark>...".toList start stop pieces :=
  generateSnippet_spec (by decide +kernel)

end CenDB.Search
