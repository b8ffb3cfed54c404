import CenDB.Lib.Chains

/-! # Inverted index

Every term has the list of its postings, one for each document that was added with the term.  The
chain of a term has the documents that were added with it, in order (`docIds_addAll`); a search for
all terms counts the postings of a document in these chains (`mem_search`), a search for any term
takes their union (`mem_searchOr`).

A document that is added again keeps the postings of its earlier text.  Searches are exact for the
latest texts if and only if no earlier text has a term (`exact_iff`). -/

namespace CenDB.Search

open List Table

/-- A term of a text and its place. -/
structure Token where
  term : String
  position : UInt32

structure Posting where
  docId : UInt64
  termFrequency : UInt32
  positions : List UInt32

structure SearchResult where
  docId : UInt64
  score : Float
  snippet : Option String

/-! ### Scores -/

structure TfIdfScorer where
  docCount : UInt64
  df : Table String UInt64

namespace TfIdfScorer

def new : TfIdfScorer := ⟨0, ∅⟩

/-- Count the document for each of its terms. -/
def addDocument (s : TfIdfScorer) (terms : List String) : TfIdfScorer where
  docCount := s.docCount + 1
  df := terms.dedup.foldl (fun df term => AList.insert term ((df.lookup term).getD 0 + 1) df) s.df

def score (s : TfIdfScorer) (term : String) (tf : UInt32) : Float :=
  if s.docCount = 0 then 0.0
  else
    let df := (s.df.lookup term).getD 0
    if df = 0 then 0.0
    else
      let idf := (s.docCount.toFloat / df.toFloat).log
      let tfNorm := 1.0 + tf.toFloat.log
      tfNorm * idf

end TfIdfScorer

/-! ### The index -/

structure InvertedIndex where
  index : Table String (List Posting)
  scorer : TfIdfScorer
  docCount : UInt64
  documents : Table UInt64 String
  docLengths : Table UInt64 ℕ

namespace InvertedIndex

def new : InvertedIndex := ⟨∅, .new, 0, ∅, ∅⟩

/-- The positions of each term. -/
def groupPositions (tokens : List Token) : Table String (List UInt32) :=
  Table.pushAll ∅ (tokens.map fun token => (token.term, token.position))

def addDocument (tokenize : String → List Token) (ix : InvertedIndex) (docId : UInt64)
    (text : String) : InvertedIndex :=
  let tokens := tokenize text
  let termPostings := groupPositions tokens
  { docCount := ix.docCount + 1
    documents := AList.insert docId text ix.documents
    docLengths := AList.insert docId tokens.length ix.docLengths
    scorer := ix.scorer.addDocument termPostings.keys
    index := Table.pushAll ix.index ((Table.items termPostings).map fun e =>
      (e.1, ⟨docId, UInt32.ofNat e.2.length, e.2⟩)) }

/-- Descending by score; scores that cannot be compared count as equal. -/
def sortByScore (results : List SearchResult) : List SearchResult :=
  results.mergeSort fun a b => !decide (a.score < b.score)

/-- The postings of each token, if every term is there. -/
def allPostings (ix : InvertedIndex) : List Token → Option (List (Token × List Posting))
  | [] => some []
  | token :: tokens =>
    match ix.index.lookup token.term with
    | none => none
    | some postings => (ix.allPostings tokens).map ((token, postings) :: ·)

/-- For each document, the terms and frequencies of its postings. -/
def candidateDocs (postings : List (Token × List Posting)) : Table UInt64 (List (String × UInt32)) :=
  Table.pushAll ∅ (postings.flatMap fun e => e.2.map fun posting =>
    (posting.docId, (e.1.term, posting.termFrequency)))

/-- The documents that contain all terms of a query. -/
def search (tokenize : String → List Token) (ix : InvertedIndex) (query : String) : List SearchResult :=
  let queryTokens := tokenize query
  if queryTokens.isEmpty then []
  else
    match ix.allPostings queryTokens with
    | none => []
    | some postings =>
      let termCount := queryTokens.length
      let docs := (Table.items (candidateDocs postings)).filter fun e => e.2.length = termCount
      sortByScore (docs.map fun e =>
        ⟨e.1, e.2.foldl (fun sum t => sum + ix.scorer.score t.1 t.2) 0.0, none⟩)

/-- Add to the score of a document. -/
def addScore (docScores : Table UInt64 Float) (docId : UInt64) (score : Float) : Table UInt64 Float :=
  AList.insert docId ((docScores.lookup docId).getD 0.0 + score) docScores

/-- The documents that contain any term of a query. -/
def searchOr (tokenize : String → List Token) (ix : InvertedIndex) (query : String) : List SearchResult :=
  let queryTokens := tokenize query
  if queryTokens.isEmpty then []
  else
    let scores := queryTokens.flatMap fun token =>
      (Table.chain ix.index token.term).map fun posting =>
        (posting.docId, ix.scorer.score token.term posting.termFrequency)
    let docScores := scores.foldl (fun m e => addScore m e.1 e.2) ∅
    sortByScore ((Table.items docScores).map fun e => ⟨e.1, e.2, none⟩)

/-! ### The documents of a term -/

variable {tokenize : String → List Token} {ix : InvertedIndex}

/-- The terms of a text. -/
def termsOf (tokenize : String → List Token) (text : String) : List String := (tokenize text).map Token.term

/-- The documents of the postings of a term. -/
def docIds (ix : InvertedIndex) (term : String) : List UInt64 := (Table.chain ix.index term).map Posting.docId

theorem lookup_groupPositions (tokens : List Token) (term : String) :
    ((groupPositions tokens).lookup term).isSome ↔ term ∈ tokens.map Token.term := by
  have hfilled : Table.Filled (groupPositions tokens) := filled_empty.pushAll _
  rw [← Option.ne_none_iff_isSome, Ne, hfilled.lookup_eq_none, groupPositions, chain_pushAll,
    chain_empty, List.nil_append, map_eq_nil_iff, filter_eq_nil_iff]
  simp [List.mem_map]

/-- A document gets one posting for each of its terms. -/
theorem docIds_addDocument (docId : UInt64) (text term : String) :
    (ix.addDocument tokenize docId text).docIds term =
      ix.docIds term ++ if term ∈ termsOf tokenize text then [docId] else [] := by
  unfold docIds addDocument
  dsimp only
  rw [chain_pushAll, map_append, filter_map, map_map, map_map]
  congr 1
  have hterm := lookup_groupPositions (tokenize text) term
  have hitems := filter_items (groupPositions (tokenize text)) term
  have hcongr : (Table.items (groupPositions (tokenize text))).filter ((fun e => decide (e.1 = term)) ∘
      fun e => (e.1, (⟨docId, UInt32.ofNat e.2.length, e.2⟩ : Posting))) =
        (Table.items (groupPositions (tokenize text))).filter fun e => e.1 = term := rfl
  rw [hcongr, hitems]
  unfold termsOf
  cases hlookup : (groupPositions (tokenize text)).lookup term with
  | none =>
    rw [hlookup] at hterm
    rw [if_neg fun hmem => by simpa using hterm.mpr hmem]
    rfl
  | some positions =>
    rw [hlookup] at hterm
    rw [if_pos (hterm.mp rfl)]
    rfl

/-- Add documents one after the other. -/
def addAll (tokenize : String → List Token) (calls : List (UInt64 × String)) : InvertedIndex :=
  calls.foldl (fun ix c => ix.addDocument tokenize c.1 c.2) new

theorem addAll_append (calls : List (UInt64 × String)) (c : UInt64 × String) :
    addAll tokenize (calls ++ [c]) = (addAll tokenize calls).addDocument tokenize c.1 c.2 := by simp [addAll]

theorem filled_addAll (calls : List (UInt64 × String)) : Table.Filled (addAll tokenize calls).index := by
  induction calls using List.reverseRecOn with
  | nil => exact filled_empty
  | append_singleton calls c ih =>
    rw [addAll_append]
    exact ih.pushAll _

/-- **The chain of a term has the documents that were added with the term, in order.** -/
theorem docIds_addAll (calls : List (UInt64 × String)) (term : String) : (addAll tokenize calls).docIds term =
      (calls.filter fun c => term ∈ termsOf tokenize c.2).map Prod.fst := by
  induction calls using List.reverseRecOn with
  | nil => rfl
  | append_singleton calls c ih =>
    rw [addAll_append, docIds_addDocument, ih, filter_append, map_append]
    by_cases hterm : term ∈ termsOf tokenize c.2 <;> simp [hterm]

/-! ### Searches -/

/-- The documents of results. -/
def ids (results : List SearchResult) : List UInt64 := results.map SearchResult.docId

theorem perm_sortByScore (results : List SearchResult) : (ids (sortByScore results)).Perm (ids results) :=
  (mergeSort_perm results _).map _

theorem docIds_eq_nil (hfilled : Table.Filled ix.index) {term : String} :
    ix.docIds term = [] ↔ ix.index.lookup term = none := by simp [hfilled.lookup_eq_none, docIds]

variable {tokens : List Token} {query : String} {docId : UInt64}

theorem allPostings_of_all (hfilled : Table.Filled ix.index) (h : ∀ token ∈ tokens, ix.docIds token.term ≠ []) :
    ix.allPostings tokens = some (tokens.map fun token => (token, Table.chain ix.index token.term)) := by
  induction tokens with
  | nil => rfl
  | cons token tokens ih =>
    obtain ⟨hfirst, hrest⟩ := forall_mem_cons.mp h
    rw [Ne, docIds_eq_nil hfilled] at hfirst
    obtain ⟨postings, hpostings⟩ := Option.ne_none_iff_exists'.mp hfirst
    rw [allPostings, hpostings, ih hrest, map_cons, Table.chain, hpostings]
    rfl

theorem allPostings_of_missing (hfilled : Table.Filled ix.index) {token : Token} (hmem : token ∈ tokens)
    (h : ix.docIds token.term = []) : ix.allPostings tokens = none := by
  induction tokens with
  | nil => cases hmem
  | cons first tokens ih =>
    rw [allPostings]
    cases mem_cons.mp hmem with
    | inl heq => rw [← heq, (docIds_eq_nil hfilled).mp h]
    | inr hrest =>
      rw [ih hrest]
      cases ix.index.lookup first.term <;> rfl

/-- How often a document is found for the tokens. -/
theorem length_candidateDocs (ix : InvertedIndex) (tokens : List Token) (docId : UInt64) :
    (Table.chain (candidateDocs (tokens.map fun token => (token, Table.chain ix.index token.term)))
      docId).length = ((tokens.map Token.term).map fun term => (ix.docIds term).count docId).sum := by
  rw [candidateDocs, chain_pushAll, chain_empty, List.nil_append, length_map]
  induction tokens with
  | nil => rfl
  | cons token tokens ih =>
    have hone : ((Table.chain ix.index token.term).map fun posting =>
        (posting.docId, (token.term, posting.termFrequency))).countP (fun e => decide (e.1 = docId)) =
        (ix.docIds token.term).count docId := by
      rw [docIds, List.count, countP_map, countP_map]
      rfl
    rw [← countP_eq_length_filter] at ih ⊢
    rw [map_cons, flatMap_cons, countP_append, ih, hone]
    rfl

/-- **A search for all terms finds a document if it has as many postings as the query has terms**, all
of which are there. -/
theorem mem_search (hfilled : Table.Filled ix.index) :
    docId ∈ ids (ix.search tokenize query) ↔
      termsOf tokenize query ≠ [] ∧ (∀ term ∈ termsOf tokenize query, ix.docIds term ≠ []) ∧
        ((termsOf tokenize query).map fun term => (ix.docIds term).count docId).sum =
          (termsOf tokenize query).length := by
  have hnil : termsOf tokenize query = [] ↔ (tokenize query).isEmpty = true := by simp [termsOf]
  have hall : (∀ term ∈ termsOf tokenize query, ix.docIds term ≠ []) ↔
      ∀ token ∈ tokenize query, ix.docIds token.term ≠ [] := forall_mem_map
  unfold search
  dsimp only
  split
  · rename_i hempty
    exact iff_of_false not_mem_nil fun h => h.1 (hnil.mpr hempty)
  · rename_i hne
    rw [← hnil] at hne
    rw [and_iff_right hne]
    by_cases hthere : ∀ token ∈ tokenize query, ix.docIds token.term ≠ []
    · have hcount := length_candidateDocs ix (tokenize query) docId
      have hfilled' : Table.Filled (candidateDocs ((tokenize query).map fun token =>
          (token, Table.chain ix.index token.term))) := filled_empty.pushAll _
      have hpos : 0 < (tokenize query).length := by
        rw [length_pos_iff]
        exact fun h => hne (map_eq_nil_iff.mpr h)
      rw [allPostings_of_all hfilled hthere, and_iff_right (hall.mpr hthere), termsOf, ← hcount,
        length_map, ← hfilled'.mem_keys_of_length hpos]
      dsimp only
      rw [(perm_sortByScore _).mem_iff, ids, map_map]
      rfl
    · rw [hall]
      push Not at hthere
      obtain ⟨token, htoken, hmissing⟩ := hthere
      rw [allPostings_of_missing hfilled htoken hmissing]
      exact iff_of_false not_mem_nil fun h => h.1 token htoken hmissing

theorem nodup_search (query : String) : (ids (ix.search tokenize query)).Nodup := by
  unfold search
  dsimp only
  split
  · exact nodup_nil
  · split
    · exact nodup_nil
    · rename_i postings hpostings
      rw [(perm_sortByScore _).nodup_iff, ids, map_map]
      exact (nodup_keys_items (candidateDocs postings)).sublist (filter_sublist.map _)

/-- A document has a score if it got one. -/
theorem lookup_foldl_addScore (es : List (UInt64 × Float)) (m : Table UInt64 Float) (docId : UInt64) :
    ((es.foldl (fun m e => addScore m e.1 e.2) m).lookup docId).isSome ↔
      (m.lookup docId).isSome ∨ docId ∈ es.map Prod.fst := by
  induction es generalizing m with
  | nil => simp
  | cons e es ih =>
    rw [foldl_cons, ih, addScore, lookup_insert_if, map_cons, mem_cons]
    by_cases he : docId = e.1
    · simp [he]
    · simp [he]

/-- **A search for any term finds the documents of the terms.** -/
theorem mem_searchOr :
    docId ∈ ids (ix.searchOr tokenize query) ↔ ∃ term ∈ termsOf tokenize query, docId ∈ ix.docIds term := by
  have hnil : termsOf tokenize query = [] ↔ (tokenize query).isEmpty = true := by simp [termsOf]
  unfold searchOr
  dsimp only
  split
  · rename_i hempty
    rw [hnil.mpr hempty]
    exact iff_of_false not_mem_nil (by simp)
  · rw [(perm_sortByScore _).mem_iff, ids, map_map]
    have hkeys (m : Table UInt64 Float) : docId ∈ (Table.items m).map (SearchResult.docId ∘
        fun e => ⟨e.1, e.2, none⟩) ↔ (m.lookup docId).isSome := by
      rw [Option.isSome_iff_exists, List.mem_map]
      constructor
      · rintro ⟨⟨docId', score⟩, he, rfl⟩
        exact ⟨score, mem_items.mp he⟩
      · rintro ⟨score, hscore⟩
        exact ⟨(docId, score), mem_items.mpr hscore, rfl⟩
    rw [hkeys, lookup_foldl_addScore, map_flatMap, mem_flatMap]
    simp [termsOf, docIds]

theorem nodup_searchOr (query : String) : (ids (ix.searchOr tokenize query)).Nodup := by
  unfold searchOr
  dsimp only
  split
  · exact nodup_nil
  · rw [(perm_sortByScore _).nodup_iff, ids, map_map]
    exact nodup_keys_items _

/-! ### The latest texts -/

variable {calls : List (UInt64 × String)}

/-- The texts that a document was added with, in order. -/
def textsOf (calls : List (UInt64 × String)) (docId : UInt64) : List String :=
  (calls.filter fun c => c.1 = docId).map Prod.snd

def latest (calls : List (UInt64 × String)) (docId : UInt64) : Option String := (textsOf calls docId).getLast?

/-- After the calls, both searches find exactly the documents whose latest text matches the query. -/
structure Exact (tokenize : String → List Token) (calls : List (UInt64 × String)) (query : String) :
    Prop where
  nodup : (ids ((addAll tokenize calls).search tokenize query)).Nodup
  search : ∀ docId, docId ∈ ids ((addAll tokenize calls).search tokenize query) ↔
    ∃ text, latest calls docId = some text ∧ ∀ term ∈ termsOf tokenize query, term ∈ termsOf tokenize text
  nodupOr : (ids ((addAll tokenize calls).searchOr tokenize query)).Nodup
  searchOr : ∀ docId, docId ∈ ids ((addAll tokenize calls).searchOr tokenize query) ↔
    ∃ text, latest calls docId = some text ∧ ∃ term ∈ termsOf tokenize query, term ∈ termsOf tokenize text

/-- A document is added again only after texts without terms. -/
def Fresh (tokenize : String → List Token) (calls : List (UInt64 × String)) : Prop :=
  ∀ docId, ∀ text ∈ (textsOf calls docId).dropLast, termsOf tokenize text = []

/-- A document has a posting for each of its texts with the term. -/
theorem count_docIds (calls : List (UInt64 × String)) (term : String) (docId : UInt64) :
    ((addAll tokenize calls).docIds term).count docId =
      (textsOf calls docId).countP fun text => term ∈ termsOf tokenize text := by
  rw [docIds_addAll, textsOf, List.count, countP_map, countP_map, countP_filter, countP_filter]
  apply countP_congr
  intro c _
  simp [and_comm]

theorem count_of_latest {text : String} (h : latest calls docId = some text) (term : String) :
    ((addAll tokenize calls).docIds term).count docId =
      ((textsOf calls docId).dropLast.countP fun text => term ∈ termsOf tokenize text) +
        if term ∈ termsOf tokenize text then 1 else 0 := by
  have hsplit : textsOf calls docId = (textsOf calls docId).dropLast ++ [text] :=
    (dropLast_append_getLast? text h).symm
  rw [count_docIds]
  conv_lhs => rw [hsplit]
  rw [countP_append, countP_singleton]
  simp

/-- Without replaced terms a document has at most one posting of a term, from its latest text. -/
theorem count_of_fresh (h : Fresh tokenize calls) (term : String) (docId : UInt64) :
    ((addAll tokenize calls).docIds term).count docId ≤ 1 ∧
      (((addAll tokenize calls).docIds term).count docId = 1 ↔
        ∃ text, latest calls docId = some text ∧ term ∈ termsOf tokenize text) := by
  cases hlatest : latest calls docId with
  | none =>
    have htexts : textsOf calls docId = [] := getLast?_eq_none_iff.mp hlatest
    rw [count_docIds, htexts]
    simp
  | some text =>
    have hfront : (textsOf calls docId).dropLast.countP (fun text => term ∈ termsOf tokenize text) = 0 := by
      rw [countP_eq_zero]
      intro old hold
      rw [h docId old hold]
      simp
    rw [count_of_latest hlatest, hfront]
    by_cases hterm : term ∈ termsOf tokenize text
    · simp [hterm]
    · simp [hterm]

theorem exact_of_fresh (h : Fresh tokenize calls) (hquery : termsOf tokenize query ≠ []) :
    Exact tokenize calls query := by
  refine ⟨nodup_search query, fun docId => ?_, nodup_searchOr query, fun docId => ?_⟩
  · rw [mem_search (filled_addAll calls), and_iff_right hquery]
    have hone (term : String) := count_of_fresh h term docId
    constructor
    · rintro ⟨-, hsum⟩
      -- no term is missing, as a sum of ones and zeros would be smaller
      have hall : ∀ term ∈ termsOf tokenize query, ((addAll tokenize calls).docIds term).count docId = 1 := by
        by_contra hmissing
        push Not at hmissing
        obtain ⟨term, hterm, hne⟩ := hmissing
        have hlt := sum_lt_sum (fun term => ((addAll tokenize calls).docIds term).count docId)
          (fun _ => 1) (fun t _ => (hone t).1) ⟨term, hterm, lt_of_le_of_ne (hone term).1 hne⟩
        rw [hsum, map_const', sum_replicate] at hlt
        simp at hlt
      obtain ⟨first, hfirst⟩ := exists_mem_of_ne_nil _ hquery
      obtain ⟨text, htext, -⟩ := (hone first).2.mp (hall first hfirst)
      refine ⟨text, htext, fun term hterm => ?_⟩
      obtain ⟨text', htext', hin⟩ := (hone term).2.mp (hall term hterm)
      rw [htext] at htext'
      rwa [Option.some.inj htext']
    · rintro ⟨text, htext, hall⟩
      have hcount : ∀ term ∈ termsOf tokenize query, ((addAll tokenize calls).docIds term).count docId = 1 :=
        fun term hterm => (hone term).2.mpr ⟨text, htext, hall term hterm⟩
      constructor
      · intro term hterm hnil
        have hzero := hcount term hterm
        rw [hnil] at hzero
        cases hzero
      · rw [map_congr_left hcount, map_const', sum_replicate]
        simp
  · rw [mem_searchOr]
    constructor
    · rintro ⟨term, hterm, hmem⟩
      have hone := count_of_fresh h term docId
      have hpos := count_pos_iff.mpr hmem
      obtain ⟨text, htext, hin⟩ := hone.2.mp (by omega)
      exact ⟨text, htext, term, hterm, hin⟩
    · rintro ⟨text, htext, term, hterm, hin⟩
      refine ⟨term, hterm, count_pos_iff.mp ?_⟩
      rw [(count_of_fresh h term docId).2.mpr ⟨text, htext, hin⟩]
      exact one_pos

/-- A text with terms that was replaced shows in a search for it or for the text that replaced it. -/
theorem fresh_of_exact (h : ∀ query, (∃ term ∈ termsOf tokenize query,
      ((addAll tokenize calls).index.lookup term).isSome) → Exact tokenize calls query) :
    Fresh tokenize calls := by
  intro docId text htext
  by_contra hterms
  obtain ⟨last, hlast⟩ : ∃ last, latest calls docId = some last := by
    apply Option.ne_none_iff_exists'.mp
    intro hnone
    rw [getLast?_eq_none_iff.mp hnone] at htext
    cases htext
  -- a document of a term makes the term indexed
  have hindexed {term : String} (hcount : 0 < ((addAll tokenize calls).docIds term).count docId) :
      ((addAll tokenize calls).index.lookup term).isSome := by
    rw [← Option.ne_none_iff_isSome, Ne, ← docIds_eq_nil (filled_addAll calls)]
    intro hnil
    rw [hnil] at hcount
    cases hcount
  have hold {term : String} (hterm : term ∈ termsOf tokenize text) :
      0 < (textsOf calls docId).dropLast.countP fun text => term ∈ termsOf tokenize text :=
    countP_pos_iff.mpr ⟨text, htext, decide_eq_true hterm⟩
  by_cases hcommon : ∃ term ∈ termsOf tokenize text, term ∈ termsOf tokenize last
  · obtain ⟨term, hterm, hin⟩ := hcommon
    have hall : ∀ t ∈ termsOf tokenize last, 1 ≤ ((addAll tokenize calls).docIds t).count docId := by
      intro t ht
      rw [count_of_latest hlast, if_pos ht]
      exact Nat.le_add_left 1 _
    have htwo : 1 < ((addAll tokenize calls).docIds term).count docId := by
      have hpos := hold hterm
      rw [count_of_latest hlast, if_pos hin]
      omega
    have hexact := h last ⟨term, hin, hindexed (hall term hin)⟩
    have hmem := (hexact.search docId).mpr ⟨last, hlast, fun _ ht => ht⟩
    obtain ⟨-, -, hsum⟩ := (mem_search (filled_addAll calls)).mp hmem
    have hlt := sum_lt_sum (fun _ => 1)
      (fun t => ((addAll tokenize calls).docIds t).count docId) hall ⟨term, hin, htwo⟩
    rw [hsum, map_const', sum_replicate] at hlt
    simp at hlt
  · obtain ⟨term, hterm⟩ := exists_mem_of_ne_nil _ hterms
    have hpos : 0 < ((addAll tokenize calls).docIds term).count docId := by
      have hfront := hold hterm
      rw [count_of_latest hlast]
      omega
    have hexact := h text ⟨term, hterm, hindexed hpos⟩
    obtain ⟨text', htext', hcommon'⟩ := (hexact.searchOr docId).mp
      (mem_searchOr.mpr ⟨term, hterm, count_pos_iff.mp hpos⟩)
    rw [hlast] at htext'
    rw [← Option.some.inj htext'] at hcommon'
    exact hcommon hcommon'

/-- **Searches are exact for every query with terms, or for every query with an indexed term, if and
only if no document is added again after a text with terms.** -/
theorem exact_iff (tokenize : String → List Token) (calls : List (UInt64 × String)) :
    ((∀ query, termsOf tokenize query ≠ [] → Exact tokenize calls query) ↔ Fresh tokenize calls) ∧
      ((∀ query, (∃ term ∈ termsOf tokenize query,
          ((addAll tokenize calls).index.lookup term).isSome) → Exact tokenize calls query) ↔
        Fresh tokenize calls) := by
  have hnonempty {query : String} {P : String → Prop} (h : ∃ term ∈ termsOf tokenize query, P term) :
      termsOf tokenize query ≠ [] := by
    obtain ⟨term, hterm, -⟩ := h
    exact ne_nil_of_mem hterm
  refine ⟨⟨fun h => ?_, fun h query => exact_of_fresh h⟩,
    ⟨fresh_of_exact, fun h query hquery => exact_of_fresh h (hnonempty hquery)⟩⟩
  exact fresh_of_exact fun query hquery => h query (hnonempty hquery)

/-- The term of a text of one word. -/
def oneWord (text : String) : List Token := if text.isEmpty then [] else [⟨text, 0⟩]

/-- **A replaced text is still found.** -/
theorem replaced_text_found : ids ((addAll oneWord [(1, "cat"), (1, "dog")]).search oneWord "cat") = [1] ∧
      ids ((addAll oneWord [(1, "cat"), (1, "dog")]).searchOr oneWord "cat") = [1] ∧
        latest [(1, "cat"), (1, "dog")] 1 = some "dog" ∧ ¬ Exact oneWord [(1, "cat"), (1, "dog")] "cat" := by
  have hfound : ids ((addAll oneWord [(1, "cat"), (1, "dog")]).search oneWord "cat") = [1] := by
    decide +kernel
  refine ⟨hfound, by decide +kernel, rfl, fun hexact => ?_⟩
  obtain ⟨text, htext, hall⟩ := (hexact.search 1).mp (by rw [hfound]; exact mem_singleton_self 1)
  have hlatest : latest [(1, "cat"), (1, "dog")] 1 = some "dog" := rfl
  rw [← Option.some.inj (hlatest.symm.trans htext)] at hall
  exact absurd (hall "cat" (by decide)) (by decide)

end InvertedIndex

end CenDB.Search
