import CenDB.Lib.InPlace
import CenDB.Projection.TimeSeriesScan
import CenDB.Storage.PaxSizes

/-! # A flush that fails

`flush_pending` sorts the pending readings, cuts them into chunks by three words a reading, and pushes a block
for each chunk; the buffer is cleared at the end.  The calls here return the store that they leave, also when
they fail; a success leaves the store of the other modules (`flushPending_eq`).

What a chunk needs depends on its encodings and on the bitmaps, so a later chunk can fail to make a block when
the blocks before it are pushed already, and their readings are still pending (`allOrNothing_iff`). -/

namespace CenDB.Projection

open CenDB.Storage List

namespace TimeSeriesStore

variable {fmt : TextFormat} {s s' : TimeSeriesStore}

/-! ### Calls in place -/

/-- How the loop cuts readings. -/
def chunks (usable : ℕ) : List Reading → List (List Reading)
  | [] => []
  | e :: es => (e :: (takeChunk usable rowBytes es).1) :: chunks usable (takeChunk usable rowBytes es).2
  termination_by es => es.length
  decreasing_by
    have hlen := congrArg List.length (takeChunk_append usable rowBytes es)
    rw [List.length_append] at hlen
    rw [length_cons]
    omega

/-- Push a block and its summary. -/
def pushBlock (s : TimeSeriesStore) (block : PaxBlock) : TimeSeriesStore :=
  let hdr := block.header
  let summary : TsBlockSummary :=
    ⟨UInt32.ofNat s.blocks.length, hdr.minTs, hdr.maxTs, hdr.minPk, hdr.maxPk, hdr.rowCount⟩
  { s with summaries := s.summaries ++ [summary], blocks := s.blocks ++ [block] }

/-- One round of the loop. -/
def sealInPlace (fmt : TextFormat) (chunk : List Reading) (s : TimeSeriesStore) :
    Except Halt Unit × TimeSeriesStore :=
  match PaxBlockBuilder.build fmt s.blockSize s.schema.toSpecs (chunk.map rowOf) with
  | .error e => (.error e, s)
  | .ok block => (.ok (), s.pushBlock block)

/-- The space of a block that is left for readings. -/
def usable (s : TimeSeriesStore) : ℕ :=
  let blockOverhead := 64 + 3 * 64 + 256
  s.blockSize.toNat - blockOverhead

def flushInPlace (fmt : TextFormat) (s : TimeSeriesStore) : Except Halt Unit × TimeSeriesStore :=
  if s.pending.isEmpty then (.ok (), s)
  else
    let usable := s.usable
    let s := { s with pending := s.pending.mergeSort readingLe }
    match InPlace.forEach (sealInPlace fmt) (chunks usable s.pending) s with
    | (.error e, s) => (.error e, s)
    | (.ok (), s) => (.ok (), { s with pending := [] })

/-! ### A success leaves the store of `flushPending` -/

theorem sealChunks_eq (fmt : TextFormat) (usable : ℕ) (s : TimeSeriesStore) (pending es : List Reading) :
    (s.sealChunks fmt usable es).map (fun s => { s with pending := pending }) =
      InPlace.result (InPlace.forEach (sealInPlace fmt) (chunks usable es) { s with pending := pending }) := by
  induction es using chunks.induct usable generalizing s with
  | case1 =>
    rw [sealChunks, chunks]
    rfl
  | case2 e es ih =>
    rw [sealChunks, chunks, InPlace.forEach]
    unfold sealChunk sealInPlace
    dsimp only
    cases PaxBlockBuilder.build fmt s.blockSize s.schema.toSpecs
      ((e :: (takeChunk usable rowBytes es).1).map rowOf) with
    | error err => rfl
    | ok block => exact ih (s.pushBlock block)

theorem flushPending_eq (fmt : TextFormat) (s : TimeSeriesStore) :
    s.flushPending fmt = InPlace.result (s.flushInPlace fmt) := by
  unfold flushPending flushInPlace
  by_cases hempty : s.pending.isEmpty = true
  · rw [if_pos hempty, if_pos hempty]
    rfl
  · rw [if_neg hempty, if_neg hempty]
    have hloop := sealChunks_eq fmt s.usable s (s.pending.mergeSort readingLe) (s.pending.mergeSort readingLe)
    dsimp only [usable] at hloop ⊢
    revert hloop
    cases InPlace.forEach (sealInPlace fmt) (chunks (s.blockSize.toNat - (64 + 3 * 64 + 256))
      (s.pending.mergeSort readingLe)) { s with pending := s.pending.mergeSort readingLe } with
    | mk outcome s₁ =>
      cases s.sealChunks fmt (s.blockSize.toNat - (64 + 3 * 64 + 256)) (s.pending.mergeSort readingLe) with
      | error e =>
        cases outcome with
        | error e' => exact fun hloop => congrArg Except.error (Except.error.inj hloop)
        | ok _ => exact fun hloop => nomatch hloop
      | ok s₂ =>
        cases outcome with
        | error e' => exact fun hloop => nomatch hloop
        | ok _ =>
          intro hloop
          obtain rfl : { s₂ with pending := s.pending.mergeSort readingLe } = s₁ := Except.ok.inj hloop
          rfl

/-! ### What a flush leaves -/

/-- A chunk that makes a block. -/
def Builds (fmt : TextFormat) (s : TimeSeriesStore) (chunk : List Reading) (block : PaxBlock) : Prop :=
  PaxBlockBuilder.build fmt s.blockSize s.schema.toSpecs (chunk.map rowOf) = .ok block

/-- The chunks of the pending readings. -/
def pendingChunks (s : TimeSeriesStore) : List (List Reading) := chunks s.usable (s.pending.mergeSort readingLe)

theorem flatten_chunks (usable : ℕ) (es : List Reading) : (chunks usable es).flatten = es := by
  induction es using chunks.induct usable with
  | case1 => rw [chunks, flatten_nil]
  | case2 e es ih => rw [chunks, flatten_cons, ih, cons_append, takeChunk_append]

theorem perm_pendingChunks (s : TimeSeriesStore) : s.pendingChunks.flatten.Perm s.pending := by
  rw [pendingChunks, flatten_chunks]
  exact mergeSort_perm _ _

/-- What pushed blocks leave. -/
theorem foldl_pushBlock (blocks : List PaxBlock) (s : TimeSeriesStore) :
    (blocks.foldl pushBlock s).blocks = s.blocks ++ blocks ∧ (blocks.foldl pushBlock s).pending = s.pending ∧
      (blocks.foldl pushBlock s).blockSize = s.blockSize ∧ (blocks.foldl pushBlock s).schema = s.schema := by
  induction blocks generalizing s with
  | nil => exact ⟨(append_nil _).symm, rfl, rfl, rfl⟩
  | cons block blocks ih =>
    obtain ⟨hblocks, hrest⟩ := ih (s.pushBlock block)
    rw [foldl_cons, hblocks]
    exact ⟨append_assoc _ [block] blocks, hrest⟩

/-- A loop that succeeds pushes a block for each chunk. -/
theorem forEach_seal {cs : List (List Reading)} (h : InPlace.forEach (sealInPlace fmt) cs s = (.ok (), s')) :
    ∃ blocks, List.Forall₂ (Builds fmt s) cs blocks ∧ s' = blocks.foldl pushBlock s := by
  induction cs generalizing s with
  | nil => exact ⟨[], .nil, (Prod.mk.inj h).2.symm⟩
  | cons c cs ih =>
    cases hbuild : PaxBlockBuilder.build fmt s.blockSize s.schema.toSpecs (c.map rowOf) with
    | error e =>
      have hfirst : sealInPlace fmt c s = (.error e, s) := by
        rw [sealInPlace, hbuild]
      rw [InPlace.forEach_cons_error hfirst] at h
      cases h
    | ok block =>
      have hfirst : sealInPlace fmt c s = (.ok (), s.pushBlock block) := by
        rw [sealInPlace, hbuild]
      rw [InPlace.forEach_cons_ok hfirst] at h
      obtain ⟨blocks, hblocks, rfl⟩ := ih h
      exact ⟨block :: blocks, .cons hbuild hblocks, rfl⟩

/-- A round that fails makes no block and leaves the store. -/
theorem seal_error {c : List Reading} {e : Halt} (h : sealInPlace fmt c s = (.error e, s')) :
    s' = s ∧ ∀ block, ¬Builds fmt s c block := by
  unfold sealInPlace at h
  unfold Builds
  cases hbuild : PaxBlockBuilder.build fmt s.blockSize s.schema.toSpecs (c.map rowOf) with
  | error e =>
    rw [hbuild] at h
    exact ⟨(Prod.mk.inj h).2.symm, nofun⟩
  | ok block =>
    rw [hbuild] at h
    cases h

/-- The store with its pending readings in order. -/
def sorted (s : TimeSeriesStore) : TimeSeriesStore := { s with pending := s.pending.mergeSort readingLe }

/-- **A flush seals every chunk, or it leaves the blocks of the chunks before the first that makes no block.** -/
theorem flushInPlace_cases (fmt : TextFormat) (s : TimeSeriesStore) :
    (∃ s' blocks, s.flushInPlace fmt = (.ok (), s') ∧ List.Forall₂ (Builds fmt s) s.pendingChunks blocks ∧
        s'.pending = [] ∧ s'.blocks = s.blocks ++ blocks) ∨
      ∃ e done c rest blocks, s.flushInPlace fmt = (.error e, blocks.foldl pushBlock s.sorted) ∧
        s.pendingChunks = done ++ c :: rest ∧ List.Forall₂ (Builds fmt s) done blocks ∧
        ∀ block, ¬Builds fmt s c block := by
  unfold flushInPlace
  by_cases hempty : s.pending.isEmpty = true
  · have hpending := List.isEmpty_iff.mp hempty
    rw [if_pos hempty]
    refine Or.inl ⟨s, [], rfl, ?_, hpending, (append_nil _).symm⟩
    rw [pendingChunks, hpending, mergeSort_nil, chunks]
    exact .nil
  · rw [if_neg hempty]
    rcases InPlace.forEach_cases (sealInPlace fmt) s.pendingChunks s.sorted with
      ⟨s', hloop⟩ | ⟨done, c, rest, mid, e, s', hsplit, hdone, hfail, hloop⟩
    · obtain ⟨blocks, hblocks, rfl⟩ := forEach_seal hloop
      dsimp only [pendingChunks, sorted] at hloop ⊢
      rw [hloop]
      exact Or.inl ⟨_, blocks, rfl, hblocks, rfl, (foldl_pushBlock blocks s.sorted).1⟩
    · obtain ⟨blocks, hblocks, rfl⟩ := forEach_seal hdone
      obtain ⟨rfl, hnone⟩ := seal_error hfail
      obtain ⟨-, -, hsize, hschema⟩ := foldl_pushBlock blocks s.sorted
      have hnone' : ∀ block, ¬Builds fmt s c block := by
        unfold Builds at hnone ⊢
        rw [hsize, hschema] at hnone
        exact hnone
      dsimp only [pendingChunks, sorted] at hloop hsplit ⊢
      rw [hloop]
      exact Or.inr ⟨e, done, c, rest, blocks, rfl, hsplit, hblocks, hnone'⟩

/-! ### All or nothing -/

/-- Every pending reading is in exactly one new block and none is pending; or the blocks are as they were, and
so are the pending readings. -/
def AllOrNothing (same : List Reading → List Reading → Prop) (fmt : TextFormat) (s : TimeSeriesStore) : Prop :=
  match s.flushInPlace fmt with
  | (.ok (), s') =>
    s'.pending = [] ∧ ∃ batches blocks, List.Forall₂ (Builds fmt s) batches blocks ∧
      s'.blocks = s.blocks ++ blocks ∧ batches.flatten.Perm s.pending
  | (.error _, s') => s'.blocks = s.blocks ∧ s'.summaries = s.summaries ∧ same s'.pending s.pending

/-- The schema takes the readings of a chunk, and what they need fits a block. -/
def Fits (fmt : TextFormat) (s : TimeSeriesStore) (chunk : List Reading) : Prop :=
  ∃ start b, PaxBlockBuilder.new s.blockSize s.schema.toSpecs = .ok start ∧
    start.appendRows fmt (chunk.map rowOf) = .ok b ∧ b.Fits

theorem builds_iff_fits (fmt : TextFormat) (s : TimeSeriesStore) (chunk : List Reading)
    (hsize : s.blockSize.toNat + minipageAlign ≤ 2 ^ 32) :
    (∃ block, Builds fmt s chunk block) ↔ Fits fmt s chunk := by
  unfold Builds Fits PaxBlockBuilder.build
  cases hstart : PaxBlockBuilder.new s.blockSize s.schema.toSpecs with
  | error e => exact iff_of_false nofun nofun
  | ok start =>
    dsimp only
    cases hrows : start.appendRows fmt (chunk.map rowOf) with
    | error e =>
      refine iff_of_false nofun ?_
      rintro ⟨start', b, hstart', hrows', -⟩
      cases hstart'
      rw [hrows] at hrows'
      cases hrows'
    | ok b =>
      obtain ⟨hstaging, hblockSize⟩ := length_staging_of_rows hstart hrows
      dsimp only
      rw [finalize_isOk_iff_fits hstaging (hblockSize ▸ hsize)]
      constructor
      · exact fun hfits => ⟨start, b, rfl, hrows, hfits⟩
      · rintro ⟨start', b', hstart', hrows', hfits⟩
        cases hstart'
        obtain rfl := Except.ok.inj (hrows.symm.trans hrows')
        exact hfits

/-- What holds of the store that a flush leaves, by its first chunk that makes no block. -/
theorem allOrNothing_iff_of_same {same : List Reading → List Reading → Prop} (fmt : TextFormat)
    (s : TimeSeriesStore) :
    AllOrNothing same fmt s ↔ (∀ c ∈ s.pendingChunks, ∃ block, Builds fmt s c block) ∨
      (∀ c, s.pendingChunks.head? = some c → ¬∃ block, Builds fmt s c block) ∧
        same (s.pending.mergeSort readingLe) s.pending := by
  unfold AllOrNothing
  rcases flushInPlace_cases fmt s with
    ⟨s', blocks, hflush, hbuilds, hpending, hblocks⟩ | ⟨e, done, c, rest, blocks, hflush, hsplit, hbuilds, hnone⟩
  · rw [hflush]
    refine iff_of_true ⟨hpending, _, blocks, hbuilds, hblocks, perm_pendingChunks s⟩ (Or.inl fun c hc => ?_)
    obtain ⟨i, hi, rfl⟩ := mem_iff_getElem.mp hc
    exact ⟨_, hbuilds.get hi (hbuilds.length_eq ▸ hi)⟩
  · have hnot : ¬∀ c ∈ s.pendingChunks, ∃ block, Builds fmt s c block := fun hall => by
      obtain ⟨block, hblock⟩ := hall c (hsplit ▸ mem_append_right done mem_cons_self)
      exact hnone block hblock
    obtain ⟨hblocks, hpending, -⟩ := foldl_pushBlock blocks s.sorted
    rw [hflush, or_iff_right hnot, hsplit]
    dsimp only
    rw [hblocks, hpending]
    cases hbuilds with
    | nil =>
      have hfirst : ∀ c', some c = some c' → ¬∃ block, Builds fmt s c' block := by
        rintro c' heq ⟨block, hblock⟩
        rw [Option.some.inj heq] at hnone
        exact hnone block hblock
      refine ⟨fun hsame => ⟨hfirst, hsame.2.2⟩, fun hsame => ⟨append_nil _, rfl, hsame.2⟩⟩
    | cons hblock _ =>
      refine iff_of_false (fun hsame => ?_) fun hfirst => hfirst.1 _ rfl ⟨_, hblock⟩
      have hlen := congrArg List.length hsame.1
      rw [List.length_append, length_cons] at hlen
      exact absurd hlen (by dsimp only [sorted]; omega)

/-- **A flush is all or nothing if and only if all chunks make a block, or the first makes none and the pending
readings are in order**; up to their order, the last part may be left out.  It succeeds if and only if all chunks
make a block, which in a block that is not too large means that they fit. -/
theorem allOrNothing_iff (fmt : TextFormat) (s : TimeSeriesStore) :
    (AllOrNothing (· = ·) fmt s ↔ (∀ c ∈ s.pendingChunks, ∃ block, Builds fmt s c block) ∨
        (∀ c, s.pendingChunks.head? = some c → ¬∃ block, Builds fmt s c block) ∧
          s.pending.mergeSort readingLe = s.pending) ∧
      (AllOrNothing List.Perm fmt s ↔ (∀ c ∈ s.pendingChunks, ∃ block, Builds fmt s c block) ∨
        ∀ c, s.pendingChunks.head? = some c → ¬∃ block, Builds fmt s c block) ∧
      ((s.flushInPlace fmt).1 = .ok () ↔ ∀ c ∈ s.pendingChunks, ∃ block, Builds fmt s c block) ∧
      (s.blockSize.toNat + minipageAlign ≤ 2 ^ 32 → ∀ c, (∃ block, Builds fmt s c block) ↔ Fits fmt s c) := by
  refine ⟨allOrNothing_iff_of_same fmt s, ?_, ?_, fun hsize c => builds_iff_fits fmt s c hsize⟩
  · rw [allOrNothing_iff_of_same, and_iff_left (mergeSort_perm _ _)]
  · rcases flushInPlace_cases fmt s with
      ⟨s', blocks, hflush, hbuilds, -, -⟩ | ⟨e, done, c, rest, blocks, hflush, hsplit, -, hnone⟩
    · rw [hflush]
      refine iff_of_true rfl fun c hc => ?_
      obtain ⟨i, hi, rfl⟩ := mem_iff_getElem.mp hc
      exact ⟨_, hbuilds.get hi (hbuilds.length_eq ▸ hi)⟩
    · rw [hflush]
      refine iff_of_false nofun fun hall => ?_
      obtain ⟨block, hblock⟩ := hall c (hsplit ▸ mem_append_right done mem_cons_self)
      exact hnone block hblock

/-- Two readings of one series, in blocks that have room for a value of one byte but not for one of eight. -/
def twoReadings : TimeSeriesStore :=
  { new ⟨0, 1, [{ ColumnSpec.new 2 .f64 with encoding := .bitPacked 0 }]⟩ 400 with
    pending := [(0, 0, 0), (1, 0, 0x3FF0000000000000)] }

theorem flushInPlace_twoReadings : twoReadings.flushInPlace plainFormat =
    match InPlace.forEach (sealInPlace plainFormat) [[(0, 0, 0)], [(1, 0, 0x3FF0000000000000)]] twoReadings with
    | (.error e, s) => (.error e, s)
    | (.ok (), s) => (.ok (), { s with pending := [] }) := by
  have hsorted : twoReadings.pending.mergeSort readingLe = twoReadings.pending :=
    mergeSort_of_pairwise (by decide)
  have htake (e : Reading) : takeChunk 0 rowBytes [e] = ([], [e]) := rfl
  have hchunks (e e' : Reading) : chunks 0 [e, e'] = [[e], [e']] := by
    rw [chunks, htake, chunks, takeChunk, chunks]
  have husable : twoReadings.usable = 0 := by decide
  rw [flushInPlace, if_neg (by decide)]
  dsimp only
  rw [hsorted, husable, twoReadings, hchunks]

/-- **A reading is found twice after a flush that fails**: in its block, and still pending. -/
theorem failed_flush_duplicates :
    ¬AllOrNothing (· = ·) plainFormat twoReadings ∧ ¬AllOrNothing List.Perm plainFormat twoReadings ∧
      (twoReadings.flushInPlace plainFormat).2.rangeScan 0 0 = .ok (1, [(0, 0, 0), (0, 0, 0)]) := by
  have hfails : (twoReadings.flushInPlace plainFormat).1.toOption = none := by
    rw [flushInPlace_twoReadings]
    decide +kernel
  have hpushed : (twoReadings.flushInPlace plainFormat).2.blocks.length = 1 := by
    rw [flushInPlace_twoReadings]
    decide +kernel
  have hnot (same : List Reading → List Reading → Prop) : ¬AllOrNothing same plainFormat twoReadings := by
    unfold AllOrNothing
    revert hfails hpushed
    rcases twoReadings.flushInPlace plainFormat with ⟨outcome, s'⟩
    cases outcome with
    | error e =>
      intro _ hpushed hsame
      rw [hsame.1] at hpushed
      exact absurd hpushed (by decide)
    | ok _ => exact fun hfails => nomatch hfails
  refine ⟨hnot _, hnot _, ?_⟩
  rw [flushInPlace_twoReadings]
  decide +kernel

end TimeSeriesStore

end CenDB.Projection
