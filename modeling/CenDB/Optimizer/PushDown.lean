import CenDB.Optimizer.Plan

/-! # Filter push-down

The planner splits predicates at the word `and` (`splitAnd`), pushes each conjunct of a filter above a join
to the side whose tables it names, and merges filters that stand on one another.

Splitting undoes joining (`splitAnd_joinAnd`), so a push-down neither loses nor invents a conjunct, and it
leaves the scans and the join conditions as they are (`keeps_pushDownFilters`). -/

namespace CenDB.Optimizer

open List

/-! ### Conjuncts -/

/-- `text.split_whitespace()`. -/
def words (text : List Char) : List (List Char) := (text.splitOnP Text.isWhitespace).filter fun w => w ≠ []

/-- The word `and`, in any case. -/
def isAnd (word : List Char) : Bool := word.map Char.toLower = "and".toList

/-- One word more: a new conjunct after an `and`, else the end of the last one. -/
def pushWord (acc : List (List Char)) (word : List Char) : List (List Char) :=
  if isAnd word then acc ++ [[]]
  else match acc.getLast? with
    | some last => acc.dropLast ++ [if last = [] then word else last ++ ' ' :: word]
    | none => [word]

def splitAnd (predicate : List Char) : List (List Char) :=
  ((words predicate).foldl pushWord []).filter fun c => c ≠ []

def separator : List Char := " and ".toList

def joinAnd (conjuncts : List (List Char)) : List Char := separator.intercalate conjuncts

theorem words_append (a b : List Char) {s : Char} (hs : Text.isWhitespace s = true) :
    words (a ++ s :: b) = words a ++ words b := by
  rw [words, splitOnP_append_cons a b hs, filter_append]
  rfl

variable {w c text predicate : List Char} {conjuncts more more' : List (List Char)}

/-- A text of characters other than white space is one word. -/
theorem words_word (hne : w ≠ []) (hw : ∀ c ∈ w, Text.isWhitespace c = false) : words w = [w] := by
  rw [words, splitOnP_eq_singleton hw]
  simp [hne]

theorem words_merged (a b : List Char) : words (a ++ separator ++ b) = words a ++ "and".toList :: words b := by
  have hsplit : a ++ separator ++ b = a ++ ' ' :: ("and".toList ++ ' ' :: b) := by
    rw [append_assoc]
    rfl
  have hand : words "and".toList = ["and".toList] := words_word (by decide) (by decide)
  rw [hsplit, words_append a _ rfl, words_append _ b rfl, hand]
  rfl

/-- The conjuncts before the last one stay. -/
theorem foldl_pushWord_append (acc : List (List Char)) (last : List Char) (ws : List (List Char)) :
    ws.foldl pushWord (acc ++ [last]) = acc ++ ws.foldl pushWord [last] := by
  induction ws generalizing acc last with
  | nil => rfl
  | cons w ws ih =>
    rw [foldl_cons, foldl_cons]
    by_cases hand : isAnd w = true
    · have hleft : pushWord (acc ++ [last]) w = (acc ++ [last]) ++ [[]] := if_pos hand
      have hright : pushWord [last] w = [last] ++ [[]] := if_pos hand
      rw [hleft, hright, ih, ih, append_assoc]
    · have hleft : pushWord (acc ++ [last]) w = acc ++ [if last = [] then w else last ++ ' ' :: w] := by
        simp [pushWord, hand]
      have hright : pushWord [last] w = [if last = [] then w else last ++ ' ' :: w] := by
        simp [pushWord, hand]
      rw [hleft, hright, ih]

/-- An empty conjunct in front is dropped. -/
theorem filter_foldl_pushWord (ws : List (List Char)) :
    (ws.foldl pushWord [[]]).filter (fun c => c ≠ []) = (ws.foldl pushWord []).filter fun c => c ≠ [] := by
  cases ws with
  | nil => rfl
  | cons w ws =>
    rw [foldl_cons, foldl_cons]
    by_cases hand : isAnd w = true
    · have hleft : pushWord [[]] w = [[]] ++ [[]] := if_pos hand
      have hright : pushWord [] w = [[]] := if_pos hand
      rw [hleft, hright, foldl_pushWord_append, filter_append]
      rfl
    · have hboth : pushWord [[]] w = pushWord [] w := by simp [pushWord, hand]
      rw [hboth]

/-- **Merging two predicates keeps the conjuncts of both.** -/
theorem splitAnd_merged (a b : List Char) : splitAnd (a ++ separator ++ b) = splitAnd a ++ splitAnd b := by
  have hand : pushWord ((words a).foldl pushWord []) "and".toList = (words a).foldl pushWord [] ++ [[]] :=
    if_pos (by decide)
  rw [splitAnd, words_merged, foldl_append, foldl_cons, hand, foldl_pushWord_append, filter_append,
    filter_foldl_pushWord]
  rfl

/-- A text that splitting leaves in one piece. -/
def Conjunct (c : List Char) : Prop := c ≠ [] ∧ (words c).foldl pushWord [] = [c]

theorem Conjunct.splitAnd_eq (h : Conjunct c) : splitAnd c = [c] := by
  rw [splitAnd, h.2]
  simp [h.1]

theorem splitAnd_joinAnd (h : ∀ c ∈ conjuncts, Conjunct c) :
    splitAnd (joinAnd conjuncts) = conjuncts := by
  induction conjuncts with
  | nil => rfl
  | cons c cs ih =>
    rw [forall_mem_cons] at h
    cases cs with
    | nil =>
      have hone : joinAnd [c] = c := by simp [joinAnd, List.intercalate]
      rw [hone, h.1.splitAnd_eq]
    | cons d ds =>
      have hcons : joinAnd (c :: d :: ds) = c ++ separator ++ joinAnd (d :: ds) := by simp [joinAnd]
      rw [hcons, splitAnd_merged, h.1.splitAnd_eq, ih h.2]
      rfl

/-- A word other than `and`. -/
structure PlainWord (w : List Char) : Prop where
  ne_nil : w ≠ []
  noBlank : ∀ c ∈ w, Text.isWhitespace c = false
  notAnd : isAnd w = false

theorem PlainWord.conjunct (h : PlainWord w) : Conjunct w := by
  refine ⟨h.ne_nil, ?_⟩
  rw [words_word h.ne_nil h.noBlank]
  simp [pushWord, h.notAnd]

theorem Conjunct.push (hc : Conjunct c) (hw : PlainWord w) : Conjunct (c ++ ' ' :: w) := by
  refine ⟨by simp, ?_⟩
  rw [words_append c w rfl, words_word hw.ne_nil hw.noBlank, foldl_append, hc.2]
  simp [pushWord, hw.notAnd, hc.1]

theorem conjunct_of_mem_foldl {ws acc : List (List Char)}
    (hws : ∀ w ∈ ws, w ≠ [] ∧ ∀ c ∈ w, Text.isWhitespace c = false) (hacc : ∀ c ∈ acc, c = [] ∨ Conjunct c) :
    ∀ c ∈ ws.foldl pushWord acc, c = [] ∨ Conjunct c := by
  induction ws generalizing acc with
  | nil => exact hacc
  | cons w ws ih =>
    rw [forall_mem_cons] at hws
    refine ih hws.2 fun c hc => ?_
    unfold pushWord at hc
    split at hc
    · rcases mem_append.mp hc with hc | hc
      · exact hacc c hc
      · exact Or.inl (mem_singleton.mp hc)
    · rename_i hand
      have hplain : PlainWord w := ⟨hws.1.1, hws.1.2, Bool.eq_false_iff.mpr hand⟩
      split at hc
      · rename_i last hlast
        rcases mem_append.mp hc with hc | hc
        · exact hacc c (dropLast_subset acc hc)
        · rw [mem_singleton] at hc
          rw [hc]
          split_ifs with hempty
          · exact Or.inr hplain.conjunct
          · exact Or.inr (((hacc last (mem_of_getLast? hlast)).resolve_left hempty).push hplain)
      · rw [mem_singleton.mp hc]
        exact Or.inr hplain.conjunct

theorem not_blank_of_mem_splitOnP (hw : w ∈ text.splitOnP Text.isWhitespace) :
    ∀ c ∈ w, Text.isWhitespace c = false := by
  induction text generalizing w with
  | nil =>
    rw [splitOnP_nil, mem_singleton] at hw
    rw [hw]
    exact forall_mem_nil _
  | cons d text ih =>
    rw [splitOnP_cons_eq_if_modifyHead] at hw
    obtain ⟨first, rest, hsplit⟩ := exists_cons_of_ne_nil (splitOnP_ne_nil Text.isWhitespace text)
    rw [hsplit] at hw ih
    split_ifs at hw with hd
    · rcases mem_cons.mp hw with rfl | hw
      · simp
      · exact ih hw
    · rcases mem_cons.mp hw with rfl | hw
      · exact forall_mem_cons.mpr ⟨Bool.eq_false_iff.mpr hd, ih mem_cons_self⟩
      · exact ih (mem_cons_of_mem first hw)

theorem not_blank_of_mem_words (hw : w ∈ words text) :
    w ≠ [] ∧ ∀ c ∈ w, Text.isWhitespace c = false := by
  obtain ⟨hmem, hne⟩ := mem_filter.mp hw
  exact ⟨of_decide_eq_true hne, not_blank_of_mem_splitOnP hmem⟩

theorem conjunct_of_mem_splitAnd (hc : c ∈ splitAnd predicate) : Conjunct c := by
  obtain ⟨hmem, hne⟩ := mem_filter.mp hc
  have hconjunct := conjunct_of_mem_foldl (fun _ => not_blank_of_mem_words) (forall_mem_nil _) c hmem
  exact hconjunct.resolve_left (of_decide_eq_true hne)

/-! ### Pushing -/

/-- The side of a join whose tables a conjunct names: `some true` for the left one, `none` for both or neither. -/
def conjunctSide (rt : Runtime) (conjunct : List Char) (leftTables rightTables : List Name) : Option Bool :=
  let prefixes := (tokens rt conjunct).map fun token => token.takeWhile fun c => c ≠ '.'
  let refsLeft := prefixes.any fun p => leftTables.contains p
  let refsRight := prefixes.any fun p => rightTables.contains p
  match refsLeft, refsRight with
  | true, false => some true
  | false, true => some false
  | _, _ => none

/-- The conjuncts for one side. -/
def sideConjuncts (rt : Runtime) (left right : LogicalPlan) (predicate : List Char) (side : Option Bool) :
    List (List Char) :=
  (splitAnd predicate).filter fun c => conjunctSide rt c left.tableNames right.tableNames = side

/-- The number of joins, which a push-down does not change. -/
def LogicalPlan.joins : LogicalPlan → ℕ
  | scan _ _ => 0
  | filter input _ => input.joins
  | project input _ => input.joins
  | join left right _ => left.joins + right.joins + 1
  | sort input _ => input.joins
  | aggregate input _ _ => input.joins
  | limit input _ => input.joins

/-- A plan with as many joins as another. -/
abbrev SameJoins (plan : LogicalPlan) := { q : LogicalPlan // q.joins = plan.joins }

variable {plan q : LogicalPlan}

theorem joins_eq (q : SameJoins plan) : q.1.joins = plan.joins := q.2

mutual

/-- `push_down_filters`. -/
def pushDown (rt : Runtime) : (plan : LogicalPlan) → SameJoins plan
  | .filter input predicate =>
    let pushed := pushDown rt input
    let out := pushInto rt pushed.1 predicate
    ⟨out.1, out.2.trans pushed.2⟩
  | .join left right condition =>
    let left' := pushDown rt left
    let right' := pushDown rt right
    ⟨.join left'.1 right'.1 condition, congrArg₂ (fun m n => m + n + 1) left'.2 right'.2⟩
  | .project input columns =>
    let input' := pushDown rt input
    ⟨.project input'.1 columns, input'.2⟩
  | .sort input column =>
    let input' := pushDown rt input
    ⟨.sort input'.1 column, input'.2⟩
  | .aggregate input groupKey aggs =>
    let input' := pushDown rt input
    ⟨.aggregate input'.1 groupKey aggs, input'.2⟩
  | .limit input count =>
    let input' := pushDown rt input
    ⟨.limit input'.1 count, input'.2⟩
  | .scan table predicate => ⟨.scan table predicate, rfl⟩
termination_by plan => (plan.joins, 1, sizeOf plan)
decreasing_by
  all_goals simp only [Prod.lex_def, LogicalPlan.joins, joins_eq]
  all_goals simp <;> omega

/-- `push_filter_into`. -/
def pushInto (rt : Runtime) : (input : LogicalPlan) → List Char → SameJoins input
  | .join left right condition, predicate =>
    let leftConjuncts := sideConjuncts rt left right predicate (some true)
    let rightConjuncts := sideConjuncts rt left right predicate (some false)
    let topConjuncts := sideConjuncts rt left right predicate none
    let left' := pushDown rt left
    let right' := pushDown rt right
    let newLeft : SameJoins left :=
      if leftConjuncts = [] then left'
      else
        let out := pushInto rt left'.1 (joinAnd leftConjuncts)
        ⟨out.1, out.2.trans left'.2⟩
    let newRight : SameJoins right :=
      if rightConjuncts = [] then right'
      else
        let out := pushInto rt right'.1 (joinAnd rightConjuncts)
        ⟨out.1, out.2.trans right'.2⟩
    let newJoin := LogicalPlan.join newLeft.1 newRight.1 condition
    have hjoins : newJoin.joins = left.joins + right.joins + 1 :=
      congrArg₂ (fun m n => m + n + 1) newLeft.2 newRight.2
    if topConjuncts = [] then ⟨newJoin, hjoins⟩
    else ⟨.filter newJoin (joinAnd topConjuncts), hjoins⟩
  | .filter inner innerPred, predicate =>
    let out := pushInto rt inner (innerPred ++ separator ++ predicate)
    ⟨out.1, out.2⟩
  | .scan table scanPred, predicate => ⟨.filter (.scan table scanPred) predicate, rfl⟩
  | .project input columns, predicate => ⟨.filter (.project input columns) predicate, rfl⟩
  | .sort input column, predicate => ⟨.filter (.sort input column) predicate, rfl⟩
  | .aggregate input groupKey aggs, predicate => ⟨.filter (.aggregate input groupKey aggs) predicate, rfl⟩
  | .limit input count, predicate => ⟨.filter (.limit input count) predicate, rfl⟩
termination_by input => (input.joins, 0, sizeOf input)
decreasing_by
  all_goals simp only [Prod.lex_def, LogicalPlan.joins, joins_eq]
  all_goals simp <;> omega

end

def pushDownFilters (rt : Runtime) (plan : LogicalPlan) : LogicalPlan := (pushDown rt plan).1

theorem joins_pushDownFilters (rt : Runtime) (plan : LogicalPlan) : (pushDownFilters rt plan).joins = plan.joins :=
  (pushDown rt plan).2

def pushFilterInto (rt : Runtime) (input : LogicalPlan) (predicate : List Char) : LogicalPlan :=
  (pushInto rt input predicate).1

theorem pushDownFilters_scan (rt : Runtime) (table : Name) (predicate : Option (List Char)) :
    pushDownFilters rt (.scan table predicate) = .scan table predicate := by
  rw [pushDownFilters, pushDown]

theorem pushDownFilters_filter (rt : Runtime) (input : LogicalPlan) (predicate : List Char) :
    pushDownFilters rt (.filter input predicate) = pushFilterInto rt (pushDownFilters rt input) predicate := by
  rw [pushDownFilters, pushDown]
  rfl

theorem pushDownFilters_sort (rt : Runtime) (input : LogicalPlan) (column : Name) :
    pushDownFilters rt (.sort input column) = .sort (pushDownFilters rt input) column := by
  rw [pushDownFilters, pushDown]
  rfl

theorem pushDownFilters_join (rt : Runtime) (left right : LogicalPlan) (condition : List Char) :
    pushDownFilters rt (.join left right condition) =
      .join (pushDownFilters rt left) (pushDownFilters rt right) condition := by
  rw [pushDownFilters, pushDown]
  rfl

theorem pushFilterInto_scan (rt : Runtime) (table : Name) (scanPred : Option (List Char)) (predicate : List Char) :
    pushFilterInto rt (.scan table scanPred) predicate = .filter (.scan table scanPred) predicate := by
  rw [pushFilterInto, pushInto]

theorem pushFilterInto_filter (rt : Runtime) (inner : LogicalPlan) (innerPred predicate : List Char) :
    pushFilterInto rt (.filter inner innerPred) predicate =
      pushFilterInto rt inner (innerPred ++ separator ++ predicate) := by
  rw [pushFilterInto, pushInto]
  rfl

/-- A join with the conjuncts for its sides pushed into them. -/
def pushedJoin (rt : Runtime) (left right : LogicalPlan) (condition predicate : List Char) : LogicalPlan :=
  let leftConjuncts := sideConjuncts rt left right predicate (some true)
  let rightConjuncts := sideConjuncts rt left right predicate (some false)
  .join (if leftConjuncts = [] then pushDownFilters rt left
      else pushFilterInto rt (pushDownFilters rt left) (joinAnd leftConjuncts))
    (if rightConjuncts = [] then pushDownFilters rt right
      else pushFilterInto rt (pushDownFilters rt right) (joinAnd rightConjuncts)) condition

theorem pushFilterInto_join (rt : Runtime) (left right : LogicalPlan) (condition predicate : List Char) :
    pushFilterInto rt (.join left right condition) predicate =
      if sideConjuncts rt left right predicate none = [] then pushedJoin rt left right condition predicate
      else .filter (pushedJoin rt left right condition predicate)
        (joinAnd (sideConjuncts rt left right predicate none)) := by
  rw [pushFilterInto, pushInto, pushedJoin]
  split_ifs <;> rfl

/-! ### What a push-down keeps -/

namespace LogicalPlan

/-- The tables with the predicates of their scans, from left to right. -/
def scans : LogicalPlan → List (Name × Option (List Char))
  | scan table predicate => [(table, predicate)]
  | filter input _ => input.scans
  | project input _ => input.scans
  | join left right _ => left.scans ++ right.scans
  | sort input _ => input.scans
  | aggregate input _ _ => input.scans
  | limit input _ => input.scans

/-- The conjuncts of the filters. -/
def filterConjuncts : LogicalPlan → List (List Char)
  | scan _ _ => []
  | filter input predicate => input.filterConjuncts ++ splitAnd predicate
  | project input _ => input.filterConjuncts
  | join left right _ => left.filterConjuncts ++ right.filterConjuncts
  | sort input _ => input.filterConjuncts
  | aggregate input _ _ => input.filterConjuncts
  | limit input _ => input.filterConjuncts

/-- The conjuncts of the join conditions. -/
def joinConjuncts : LogicalPlan → List (List Char)
  | scan _ _ => []
  | filter input _ => input.joinConjuncts
  | project input _ => input.joinConjuncts
  | join left right condition => left.joinConjuncts ++ right.joinConjuncts ++ splitAnd condition
  | sort input _ => input.joinConjuncts
  | aggregate input _ _ => input.joinConjuncts
  | limit input _ => input.joinConjuncts

end LogicalPlan

/-- One plan has the filters of another and some more. -/
structure Keeps (more : List (List Char)) (plan q : LogicalPlan) : Prop where
  scans : q.scans = plan.scans
  joins : q.joinConjuncts = plan.joinConjuncts
  filters : ∀ c, c ∈ q.filterConjuncts ↔ c ∈ plan.filterConjuncts ∨ c ∈ more

theorem keeps_self (plan : LogicalPlan) : Keeps [] plan plan := ⟨rfl, rfl, fun _ => by simp⟩

theorem keeps_filter (plan : LogicalPlan) (predicate : List Char) :
    Keeps (splitAnd predicate) plan (.filter plan predicate) := ⟨rfl, rfl, fun _ => mem_append⟩

theorem Keeps.trans {r : LogicalPlan} (h : Keeps more plan q) (h' : Keeps more' q r) :
    Keeps (more ++ more') plan r := by
  refine ⟨h'.scans.trans h.scans, h'.joins.trans h.joins, fun c => ?_⟩
  rw [h'.filters, h.filters, mem_append, or_assoc]

theorem Keeps.congr (h : Keeps more plan q) (hmore : ∀ c, c ∈ more ↔ c ∈ more') : Keeps more' plan q :=
  ⟨h.scans, h.joins, fun c => by rw [h.filters, hmore]⟩

/-- A filter in the plan counts as one that is pushed. -/
theorem Keeps.filter {input : LogicalPlan} (h : Keeps (splitAnd predicate) input q) :
    Keeps [] (.filter input predicate) q := by
  refine ⟨h.scans, h.joins, fun c => ?_⟩
  rw [h.filters, LogicalPlan.filterConjuncts, mem_append]
  simp

theorem Keeps.join {moreLeft moreRight : List (List Char)} {left right left' right' : LogicalPlan}
    (hleft : Keeps moreLeft left left') (hright : Keeps moreRight right right') (condition : List Char) :
    Keeps (moreLeft ++ moreRight) (.join left right condition) (.join left' right' condition) := by
  refine ⟨congrArg₂ (· ++ ·) hleft.scans hright.scans, ?_, fun c => ?_⟩
  · rw [LogicalPlan.joinConjuncts, LogicalPlan.joinConjuncts, hleft.joins, hright.joins]
  · rw [LogicalPlan.filterConjuncts, LogicalPlan.filterConjuncts, mem_append, mem_append, mem_append,
      hleft.filters, hright.filters]
    tauto

theorem splitAnd_sideConjuncts (rt : Runtime) (left right : LogicalPlan) (predicate : List Char)
    (side : Option Bool) : splitAnd (joinAnd (sideConjuncts rt left right predicate side)) =
      sideConjuncts rt left right predicate side :=
  splitAnd_joinAnd fun _ hc => conjunct_of_mem_splitAnd (mem_filter.mp hc).1

/-- Every conjunct goes to one side or stays. -/
theorem mem_sideConjuncts (rt : Runtime) (left right : LogicalPlan) (predicate c : List Char) :
    c ∈ sideConjuncts rt left right predicate (some true) ++ sideConjuncts rt left right predicate (some false) ++
      sideConjuncts rt left right predicate none ↔ c ∈ splitAnd predicate := by
  simp only [sideConjuncts, mem_append, mem_filter, decide_eq_true_iff, ← and_or_left]
  refine and_iff_left ?_
  cases conjunctSide rt c left.tableNames right.tableNames with
  | none => simp
  | some side => cases side <;> simp

/-- A side of a join, with the conjuncts for it pushed into it unless there are none. -/
theorem Keeps.side {side pushed filtered : LogicalPlan} (hpushed : Keeps [] side pushed)
    (hfiltered : Keeps conjuncts pushed filtered) :
    Keeps conjuncts side (if conjuncts = [] then pushed else filtered) := by
  split_ifs with hnil
  · rwa [hnil]
  · exact hpushed.trans hfiltered

mutual

/-- **A push-down keeps all filters.** -/
theorem keeps_pushDownFilters (rt : Runtime) (plan : LogicalPlan) : Keeps [] plan (pushDownFilters rt plan) := by
  cases plan with
  | filter input predicate =>
    rw [pushDownFilters_filter]
    have hinput := keeps_pushDownFilters rt input
    have hinto := keeps_pushFilterInto rt (pushDownFilters rt input) predicate
    exact (hinput.trans hinto).filter
  | join left right condition =>
    rw [pushDownFilters_join]
    exact (keeps_pushDownFilters rt left).join (keeps_pushDownFilters rt right) condition
  | project input columns | aggregate input groupKey aggs | limit input count =>
    rw [pushDownFilters, pushDown]
    have hinput := keeps_pushDownFilters rt input
    exact ⟨hinput.scans, hinput.joins, hinput.filters⟩
  | sort input column =>
    rw [pushDownFilters_sort]
    have hinput := keeps_pushDownFilters rt input
    exact ⟨hinput.scans, hinput.joins, hinput.filters⟩
  | scan table predicate =>
    rw [pushDownFilters_scan]
    exact keeps_self _
termination_by (plan.joins, 1, sizeOf plan)
decreasing_by
  all_goals simp only [Prod.lex_def, LogicalPlan.joins, joins_pushDownFilters]
  all_goals simp <;> omega

theorem keeps_pushFilterInto (rt : Runtime) (input : LogicalPlan) (predicate : List Char) :
    Keeps (splitAnd predicate) input (pushFilterInto rt input predicate) := by
  cases input with
  | join left right condition =>
    have hleft := keeps_pushFilterInto rt (pushDownFilters rt left)
      (joinAnd (sideConjuncts rt left right predicate (some true)))
    have hright := keeps_pushFilterInto rt (pushDownFilters rt right)
      (joinAnd (sideConjuncts rt left right predicate (some false)))
    rw [splitAnd_sideConjuncts] at hleft hright
    have hjoin := ((keeps_pushDownFilters rt left).side hleft).join
      ((keeps_pushDownFilters rt right).side hright) condition
    rw [pushFilterInto_join]
    refine Keeps.congr ?_ (mem_sideConjuncts rt left right predicate)
    split_ifs with htop
    · rwa [htop, append_nil]
    · have htopmost := keeps_filter (pushedJoin rt left right condition predicate)
        (joinAnd (sideConjuncts rt left right predicate none))
      rw [splitAnd_sideConjuncts] at htopmost
      exact hjoin.trans htopmost
  | filter inner innerPred =>
    have hinner := keeps_pushFilterInto rt inner (innerPred ++ separator ++ predicate)
    rw [splitAnd_merged] at hinner
    rw [pushFilterInto_filter]
    refine ⟨hinner.scans, hinner.joins, fun c => ?_⟩
    rw [hinner.filters, LogicalPlan.filterConjuncts, mem_append, mem_append, or_assoc]
  | scan table scanPred =>
    rw [pushFilterInto_scan]
    exact keeps_filter _ _
  | project input columns | sort input column | aggregate input groupKey aggs | limit input count =>
    rw [pushFilterInto, pushInto]
    exact keeps_filter _ _
termination_by (input.joins, 0, sizeOf input)
decreasing_by
  all_goals simp only [Prod.lex_def, LogicalPlan.joins, joins_pushDownFilters]
  all_goals simp <;> omega

end

end CenDB.Optimizer
