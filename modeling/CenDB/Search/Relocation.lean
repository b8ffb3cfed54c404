import CenDB.Lib.Moves
import CenDB.Search.SecondaryIndex

/-! # Relocation of index entries

When rows move, `relocate` rewrites the entries at the old block and slot of each, whatever their segment.
Carried out for one row after another it leaves every entry where its row went if and only if no entry of
another row has the old block and slot of a row when that row is moved (`relocations_right_iff`). -/

namespace CenDB.Search

open List

open Transfer (follow destination)

namespace SecondaryIndex

/-- Each entry at the old block and slot goes to the new place. -/
def relocate (ix : SecondaryIndex) (oldBlock oldSlot : UInt32) (newSegment : UInt64) (newBlock newSlot : UInt32) :
    SecondaryIndex :=
  { ix with
    entries := Table.mapWithKey (fun _ chain => chain.map fun e =>
      if e.rowLocator.block = oldBlock ∧ e.rowLocator.slot = oldSlot then
        { e with rowLocator := ⟨newSegment, newBlock, newSlot⟩ }
      else e) ix.entries }

/-- The callback for a row that moves. -/
def relocateRow (ix : SecondaryIndex) (m : Transfer RowLocator) : SecondaryIndex :=
  ix.relocate m.old.block m.old.slot m.new.segment m.new.block m.new.slot

def relocateAll (ix : SecondaryIndex) (moves : List (Transfer RowLocator)) : SecondaryIndex :=
  moves.foldl relocateRow ix

/-! ### Places of entries -/

/-- The entries with new locators, and nothing else changed. -/
def placed (ix : SecondaryIndex) (place : RowLocator → RowLocator) : SecondaryIndex :=
  { ix with
    entries := Table.mapWithKey (fun _ chain => chain.map fun e => { e with rowLocator := place e.rowLocator })
      ix.entries }

/-- The entries of all values. -/
def allEntries (ix : SecondaryIndex) : List SecondaryIndexEntry := (Table.values ix.entries).flatten

/-- What `relocate` compares. -/
def SamePlace (l l' : RowLocator) : Prop := l.block = l'.block ∧ l.slot = l'.slot

instance : DecidableRel SamePlace := fun _ _ => inferInstanceAs (Decidable (_ ∧ _))

theorem relocateRow_eq (ix : SecondaryIndex) (m : Transfer RowLocator) :
    ix.relocateRow m = ix.placed fun l => Transfer.hop SamePlace l m := by
  have hentry : ∀ e : SecondaryIndexEntry,
      (if e.rowLocator.block = m.old.block ∧ e.rowLocator.slot = m.old.slot then
        { e with rowLocator := ⟨m.new.segment, m.new.block, m.new.slot⟩ } else e) =
      { e with rowLocator := Transfer.hop SamePlace e.rowLocator m } := fun e => by
    rw [Transfer.hop]
    by_cases hsame : SamePlace e.rowLocator m.old
    · rw [if_pos hsame]
      exact if_pos hsame
    · rw [if_neg hsame]
      exact if_neg hsame
  simp only [relocateRow, relocate, placed, hentry]

theorem placed_id (ix : SecondaryIndex) : ix.placed id = ix := by
  have hentries : (ix.placed id).entries = ix.entries := by
    refine AList.ext ((map_congr_left fun item _ => ?_).trans (map_id _))
    simp [Sigma.map]
  exact congrArg (fun entries => { ix with entries := entries }) hentries

theorem placed_placed (ix : SecondaryIndex) (place place' : RowLocator → RowLocator) :
    (ix.placed place).placed place' = ix.placed fun l => place' (place l) := by
  simp only [placed, Table.mapWithKey_mapWithKey, map_map]
  rfl

theorem placed_eq_iff (ix : SecondaryIndex) (place place' : RowLocator → RowLocator) :
    ix.placed place = ix.placed place' ↔ ∀ e ∈ ix.allEntries, place e.rowLocator = place' e.rowLocator := by
  rw [placed, placed, SecondaryIndex.mk.injEq, and_iff_right rfl, AList.ext_iff, Table.mapWithKey, Table.mapWithKey,
    map_inj_left]
  simp only [Sigma.map, Sigma.mk.injEq, heq_eq_eq, map_inj_left, SecondaryIndexEntry.mk.injEq, true_and,
    and_true, id]
  constructor
  · intro hall e he
    obtain ⟨chain, hchain, he⟩ := mem_flatten.mp he
    obtain ⟨item, hitem, rfl⟩ := List.mem_map.mp hchain
    exact hall item hitem e he
  · intro hall item hitem e he
    exact hall e (mem_flatten.mpr ⟨item.2, mem_map_of_mem hitem, he⟩)

theorem relocateAll_eq (ix : SecondaryIndex) (moves : List (Transfer RowLocator)) :
    ix.relocateAll moves = ix.placed (follow SamePlace moves) := by
  induction moves generalizing ix with
  | nil => exact (placed_id ix).symm
  | cons m moves ih =>
    have hstep : ix.relocateAll (m :: moves) = (ix.relocateRow m).relocateAll moves := rfl
    rw [hstep, ih, relocateRow_eq, placed_placed]
    rfl

/-- **Relocations are right after every move if and only if no row moves from the block and slot of an entry
of another row**, but for an entry that is at the new place already. -/
theorem relocations_right_iff (ix : SecondaryIndex) {moves : List (Transfer RowLocator)}
    (h : (moves.map Transfer.old).Nodup) :
    (∀ i ≤ moves.length, ix.relocateAll (moves.take i) = ix.placed (destination (moves.take i))) ↔
      ∀ i (hi : i < moves.length), ∀ e ∈ ix.allEntries,
        SamePlace (destination (moves.take i) e.rowLocator) moves[i].old →
          e.rowLocator = moves[i].old ∨ destination (moves.take i) e.rowLocator = moves[i].new := by
  have hplace : ∀ l : RowLocator, _ := fun l =>
    Transfer.follow_take_eq_iff SamePlace (l := l) (fun l => ⟨rfl, rfl⟩) h
  simp only [relocateAll_eq, placed_eq_iff]
  constructor
  · exact fun hall i hi e he => (hplace e.rowLocator).mp (fun i hi => hall i hi e he) i hi
  · exact fun hok i hi e he => (hplace e.rowLocator).mpr (fun i hi => hok i hi e he) i hi

/-- A row that moves in a segment of its own. -/
theorem relocations_right_iff_alone :
    ((new "val").insert 42 ⟨1, 5, 3⟩ 100 1).relocateAll [⟨⟨1, 5, 3⟩, ⟨1, 10, 0⟩⟩] =
      ((new "val").insert 42 ⟨1, 5, 3⟩ 100 1).placed (destination [⟨⟨1, 5, 3⟩, ⟨1, 10, 0⟩⟩]) := by
  have h := @relocations_right_iff ((new "val").insert 42 ⟨1, 5, 3⟩ 100 1) [⟨⟨1, 5, 3⟩, ⟨1, 10, 0⟩⟩] (by decide)
  exact h.mpr (by decide) 1 le_rfl

/-- The rows of two segments at one block and slot. -/
def twoSegments : SecondaryIndex := ((new "val").insert 42 ⟨1, 5, 3⟩ 100 1).insert 42 ⟨2, 5, 3⟩ 100 1

/-- **Moving one row takes along the entry of the other.** -/
theorem relocate_takes_another_row :
    (twoSegments.relocateAll [⟨⟨1, 5, 3⟩, ⟨1, 10, 0⟩⟩]).lookup 42 200 = [⟨1, 10, 0⟩, ⟨1, 10, 0⟩] ∧
      ¬∀ (ix : SecondaryIndex) (moves : List (Transfer RowLocator)), (moves.map Transfer.old).Nodup →
        ix.relocateAll moves = ix.placed (destination moves) := by
  have hlookup : (twoSegments.relocateAll [⟨⟨1, 5, 3⟩, ⟨1, 10, 0⟩⟩]).lookup 42 200 =
      [⟨1, 10, 0⟩, ⟨1, 10, 0⟩] := by decide
  have hplaced : (twoSegments.placed (destination [⟨⟨1, 5, 3⟩, ⟨1, 10, 0⟩⟩])).lookup 42 200 =
      [⟨1, 10, 0⟩, ⟨2, 5, 3⟩] := by decide
  refine ⟨hlookup, fun hall => ?_⟩
  rw [hall _ _ (by decide), hplaced] at hlookup
  exact absurd hlookup (by decide)

end SecondaryIndex

end CenDB.Search
