import CenDB.Lib.Chains

/-! # RDF triple store

A store keeps its triples in a hash set, and for each of the three positions an index from a term to the
triples that have it there.  The set and the indexes are updated one after the other, and a lookup goes by
one index alone.

`Represents` ties the set and the indexes to a finite set of triples.  Both calls keep it, so after every
sequence of calls a lookup returns each triple of that set that agrees with the bound terms once
(`store_exact`). -/

namespace CenDB.Rdf

open List Table

/-! ### Terms and triples -/

/-- The tag of a literal is a language tag after an `@`, or a datatype IRI. -/
inductive RdfTerm where
  | uri (s : String)
  | blankNode (label : String)
  | literal (value : String) (tag : Option String)
deriving DecidableEq, Repr

/-- The text of a literal, the IRI or the label. -/
def RdfTerm.lexicalForm : RdfTerm → String
  | uri s => s
  | blankNode s => s
  | literal s _ => s

structure Triple where
  subject : RdfTerm
  predicate : RdfTerm
  object : RdfTerm
deriving DecidableEq, Repr

/-- The triple has the bound terms in their positions. -/
def Triple.Agrees (t : Triple) (s p o : Option RdfTerm) : Prop :=
  (∀ st ∈ s, t.subject = st) ∧ (∀ pt ∈ p, t.predicate = pt) ∧ ∀ ot ∈ o, t.object = ot

instance (t : Triple) (s p o : Option RdfTerm) : Decidable (t.Agrees s p o) :=
  inferInstanceAs (Decidable (_ ∧ _ ∧ _))

/-! ### The store -/

structure TripleStore where
  triples : Table Triple Unit
  idxS : Table RdfTerm (List Triple)
  idxP : Table RdfTerm (List Triple)
  idxO : Table RdfTerm (List Triple)

namespace TripleStore

def new : TripleStore := ⟨∅, ∅, ∅, ∅⟩

def contains (store : TripleStore) (triple : Triple) : Bool := (store.triples.lookup triple).isSome

/-- Whether the triple is new, and the store. -/
def insert (store : TripleStore) (triple : Triple) : Bool × TripleStore :=
  if store.contains triple then (false, store)
  else (true, {
    triples := AList.insert triple () store.triples
    idxS := Table.push store.idxS triple.subject triple
    idxP := Table.push store.idxP triple.predicate triple
    idxO := Table.push store.idxO triple.object triple })

/-- Drop a triple from the list of a term. -/
def unlist (idx : Table RdfTerm (List Triple)) (term : RdfTerm) (triple : Triple) :
    Table RdfTerm (List Triple) :=
  Table.update term (fun v => v.filter fun t => t ≠ triple) idx

/-- Whether the triple was there, and the store. -/
def remove (store : TripleStore) (triple : Triple) : Bool × TripleStore :=
  if store.contains triple then (true, {
    triples := AList.erase triple store.triples
    idxS := unlist store.idxS triple.subject triple
    idxP := unlist store.idxP triple.predicate triple
    idxO := unlist store.idxO triple.object triple })
  else (false, store)

def len (store : TripleStore) : ℕ := Table.size store.triples

/-- The triples to look through, and whether the predicate, the object and the subject are still to be
compared. -/
def candidates (store : TripleStore) (s p o : Option RdfTerm) : List Triple × Bool × Bool × Bool :=
  match s with
  | some st => (Table.chain store.idxS st, p.isSome, o.isSome, false)
  | none =>
    match p with
    | some pt => (Table.chain store.idxP pt, false, o.isSome, s.isSome)
    | none =>
      match o with
      | some ot => (Table.chain store.idxO ot, p.isSome, false, s.isSome)
      | none => (store.triples.keys, false, false, false)

def matchPattern (store : TripleStore) (s p o : Option RdfTerm) : List Triple :=
  let (candidates, filterP, filterO, filterS) := store.candidates s p o
  candidates.filter fun t =>
    if filterS && some t.subject ≠ s then false
    else if filterP && some t.predicate ≠ p then false
    else if filterO && some t.object ≠ o then false
    else true

/-! ### Sets and indexes -/

/-- The list of a term has the triples of the set with that term, each once. -/
def Indexes (key : Triple → RdfTerm) (idx : Table RdfTerm (List Triple)) (set : Finset Triple) : Prop :=
  ∀ term, (Table.chain idx term).Nodup ∧ ∀ t, t ∈ Table.chain idx term ↔ t ∈ set ∧ key t = term

/-- The store has the triples of the set, in all its indexes. -/
structure Represents (store : TripleStore) (set : Finset Triple) : Prop where
  triples : ∀ t, store.triples.lookup t = some () ↔ t ∈ set
  bySubject : Indexes Triple.subject store.idxS set
  byPredicate : Indexes Triple.predicate store.idxP set
  byObject : Indexes Triple.object store.idxO set

variable {store : TripleStore} {set : Finset Triple} {triple : Triple}

theorem indexes_empty (key : Triple → RdfTerm) : Indexes key ∅ ∅ := fun term => by simp

variable {key : Triple → RdfTerm} {idx : Table RdfTerm (List Triple)}

theorem Indexes.push (h : Indexes key idx set) (hnew : triple ∉ set) :
    Indexes key (Table.push idx (key triple) triple) (Insert.insert triple set) := by
  intro term
  obtain ⟨hnodup, hmem⟩ := h term
  rw [chain_push]
  split
  · rename_i hterm
    subst hterm
    have habsent : triple ∉ Table.chain idx (key triple) := fun hin => hnew ((hmem triple).mp hin).1
    refine ⟨nodup_append.mpr ⟨hnodup, nodup_singleton _, ?_⟩, fun t => ?_⟩
    · rintro a ha b hb rfl
      exact habsent (mem_singleton.mp hb ▸ ha)
    · rw [mem_append, mem_singleton, hmem, Finset.mem_insert]
      constructor
      · rintro (⟨hin, hkey⟩ | rfl)
        · exact ⟨Or.inr hin, hkey⟩
        · simp
      · rintro ⟨rfl | hin, hkey⟩
        · simp
        · exact Or.inl ⟨hin, hkey⟩
  · rename_i hterm
    refine ⟨hnodup, fun t => ?_⟩
    rw [hmem, Finset.mem_insert]
    constructor
    · rintro ⟨hin, hkey⟩
      exact ⟨Or.inr hin, hkey⟩
    · rintro ⟨rfl | hin, hkey⟩
      · exact absurd hkey.symm hterm
      · exact ⟨hin, hkey⟩

theorem Indexes.unlist (h : Indexes key idx set) :
    Indexes key (unlist idx (key triple) triple) (set.erase triple) := by
  intro term
  obtain ⟨hnodup, hmem⟩ := h term
  rw [TripleStore.unlist, chain_update rfl]
  split
  · refine ⟨hnodup.filter _, fun t => ?_⟩
    rw [mem_filter, hmem, Finset.mem_erase]
    simp only [ne_eq, decide_eq_true_eq]
    tauto
  · rename_i hterm
    refine ⟨hnodup, fun t => ?_⟩
    rw [hmem, Finset.mem_erase]
    constructor
    · rintro ⟨hin, hkey⟩
      refine ⟨⟨?_, hin⟩, hkey⟩
      rintro rfl
      exact hterm hkey.symm
    · rintro ⟨⟨-, hin⟩, hkey⟩
      exact ⟨hin, hkey⟩

namespace Represents

theorem contains_iff (h : store.Represents set) : store.contains triple = true ↔ triple ∈ set := by
  rw [contains, ← h.triples, Option.isSome_iff_exists]
  exact ⟨fun ⟨_, hlookup⟩ => hlookup, fun hlookup => ⟨(), hlookup⟩⟩

theorem keys (h : store.Represents set) : store.triples.keys.toFinset = set := by
  ext t
  rw [mem_toFinset, ← AList.mem_keys, ← AList.lookup_isSome, ← h.contains_iff]
  rfl

theorem len_eq (h : store.Represents set) : store.len = set.card := by
  rw [len, size_eq_card, h.keys]

/-- **An insertion adds the triple to the set and says whether it is new.** -/
theorem insert (h : store.Represents set) (triple : Triple) : (store.insert triple).1 = decide (triple ∉ set) ∧
      (store.insert triple).2.Represents (Insert.insert triple set) := by
  unfold TripleStore.insert
  by_cases hin : triple ∈ set
  · rw [if_pos (h.contains_iff.mpr hin), Finset.insert_eq_of_mem hin]
    exact ⟨by simp [hin], h⟩
  · rw [if_neg fun hcontains => hin (h.contains_iff.mp hcontains)]
    refine ⟨by simp [hin], fun t => ?_, h.bySubject.push hin, h.byPredicate.push hin, h.byObject.push hin⟩
    rw [lookup_insert_if, Finset.mem_insert]
    split
    · rename_i heq
      simp [heq]
    · rename_i hne
      rw [h.triples]
      simp [hne]

/-- **A removal takes the triple from the set and says whether it was there.** -/
theorem remove (h : store.Represents set) (triple : Triple) : (store.remove triple).1 = decide (triple ∈ set) ∧
      (store.remove triple).2.Represents (set.erase triple) := by
  unfold TripleStore.remove
  by_cases hin : triple ∈ set
  · rw [if_pos (h.contains_iff.mpr hin)]
    refine ⟨by simp [hin], fun t => ?_, h.bySubject.unlist, h.byPredicate.unlist, h.byObject.unlist⟩
    rw [lookup_erase_if, Finset.mem_erase]
    split
    · rename_i heq
      simp [heq]
    · rename_i hne
      rw [h.triples]
      simp [hne]
  · rw [if_neg fun hcontains => hin (h.contains_iff.mp hcontains), Finset.erase_eq_of_notMem hin]
    exact ⟨by simp [hin], h⟩

/-- **A lookup returns the triples of the set that agree with the bound terms, each once.** -/
theorem matchPattern (h : store.Represents set) (s p o : Option RdfTerm) : (store.matchPattern s p o).Nodup ∧
      ∀ t, t ∈ store.matchPattern s p o ↔ t ∈ set ∧ t.Agrees s p o := by
  unfold TripleStore.matchPattern Triple.Agrees
  cases s with
  | some st =>
    obtain ⟨hnodup, hmem⟩ := h.bySubject st
    refine ⟨hnodup.filter _, fun t => ?_⟩
    dsimp only [candidates]
    rw [mem_filter, hmem]
    cases p <;> cases o <;> simp [and_assoc]
  | none =>
    cases p with
    | some pt =>
      obtain ⟨hnodup, hmem⟩ := h.byPredicate pt
      refine ⟨hnodup.filter _, fun t => ?_⟩
      dsimp only [candidates]
      rw [mem_filter, hmem]
      cases o <;> simp [and_assoc]
    | none =>
      cases o with
      | some ot =>
        obtain ⟨hnodup, hmem⟩ := h.byObject ot
        refine ⟨hnodup.filter _, fun t => ?_⟩
        dsimp only [candidates]
        rw [mem_filter, hmem]
        simp
      | none =>
        refine ⟨store.triples.keys_nodup.filter _, fun t => ?_⟩
        dsimp only [candidates]
        rw [mem_filter, ← h.keys, mem_toFinset]
        simp

end Represents

theorem represents_new : new.Represents ∅ where
  triples t := iff_of_false (by rintro ⟨⟩) (Finset.notMem_empty t)
  bySubject := indexes_empty _
  byPredicate := indexes_empty _
  byObject := indexes_empty _

/-! ### Sequences of calls -/

inductive Call where
  | insert (triple : Triple)
  | remove (triple : Triple)
deriving DecidableEq, Repr

def call (store : TripleStore) : Call → TripleStore
  | .insert triple => (store.insert triple).2
  | .remove triple => (store.remove triple).2

/-- The store after some calls. -/
def calls (cs : List Call) : TripleStore := cs.foldl call new

/-- The set of triples after some calls. -/
def setOf (cs : List Call) : Finset Triple :=
  cs.foldl (fun set c => match c with
    | .insert triple => Insert.insert triple set
    | .remove triple => set.erase triple) ∅

theorem represents_calls (cs : List Call) : (calls cs).Represents (setOf cs) := by
  induction cs using List.reverseRecOn with
  | nil => exact represents_new
  | append_singleton cs c ih =>
    rw [calls, setOf, foldl_concat, foldl_concat]
    cases c with
    | insert triple => exact (ih.insert triple).2
    | remove triple => exact (ih.remove triple).2

/-- **The store is exact**: after every sequence of calls, a lookup returns the stored triples that agree
with the bound terms, each once; an insertion tells whether the triple was absent, a removal whether it
was present, and the length is the number of stored triples. -/
theorem store_exact (cs : List Call) : (∀ s p o, ((calls cs).matchPattern s p o).Nodup ∧
      ∀ t, t ∈ (calls cs).matchPattern s p o ↔ t ∈ setOf cs ∧ t.Agrees s p o) ∧
    (∀ triple, ((calls cs).insert triple).1 = decide (triple ∉ setOf cs)) ∧
    (∀ triple, ((calls cs).remove triple).1 = decide (triple ∈ setOf cs)) ∧
    (calls cs).len = (setOf cs).card :=
  have h := represents_calls cs
  ⟨h.matchPattern, fun triple => (h.insert triple).1, fun triple => (h.remove triple).1, h.len_eq⟩

end TripleStore

end CenDB.Rdf
