import CenDB.Lib.Numerals
import CenDB.Lib.Table
import CenDB.Lib.Transition

/-! # WAL shipping

The shipper copies a segment straight into the file under its final name, and the replica takes every file
it finds in the directory for a whole segment.  The steps of a run are the steps of the copy (`createSegment`,
`writeSegment`, `finishSegment`), its failures, crashes of either side, and the replica's polls (`catchUp`).
The segments of the primary are a function `source` of the LSN.

Every file is at all times an initial part of the segment its name stands for (`Stored`).  So what a poll
applies is right exactly if no new file is unfinished, no segment below a new one is missing and none was
applied before a restart of the replica (`Ready`). -/

namespace CenDB.Replication

open Transition List Option Table UInt64

abbrev FileName := List Char

abbrev Directory := Table FileName (List UInt8)

inductive ShipError
  | io (text : String)
  | invalidTarget
  | segmentAlreadyShipped
  deriving DecidableEq

/-! ### File names -/

/-- `wal_{:020}.seg`. -/
def segmentName (lsn : UInt64) : FileName := "wal_".toList ++ Numerals.padded 20 lsn.toNat ++ ".seg".toList

/-- The LSN in the name of a segment. -/
def lsnOf (name : FileName) : Option UInt64 :=
  if "wal_".toList <+: name ∧ ".seg".toList <:+ name then
    (Numerals.parseUnsigned 64 ((name.drop 4).take (name.length - 4 - 4))).map UInt64.ofNat
  else none

theorem lsnOf_segmentName (lsn : UInt64) : lsnOf (segmentName lsn) = some lsn := by
  have hmiddle : ((segmentName lsn).drop 4).take ((segmentName lsn).length - 4 - 4) =
      Numerals.padded 20 lsn.toNat := by
    have hlength : (segmentName lsn).length - 4 - 4 = (Numerals.padded 20 lsn.toNat).length := by
      simp [segmentName]
    rw [hlength]
    simp [segmentName]
  have hends : "wal_".toList <+: segmentName lsn ∧ ".seg".toList <:+ segmentName lsn :=
    ⟨⟨_, (append_assoc _ _ _).symm⟩, ⟨_, rfl⟩⟩
  rw [lsnOf, if_pos hends, hmiddle, Numerals.parseUnsigned_padded 20 lsn.toNat_lt, Option.map_some,
    UInt64.ofNat_toNat]

theorem segmentName_inj {lsn lsn' : UInt64} (h : segmentName lsn = segmentName lsn') : lsn = lsn' :=
  Option.some.inj (by rw [← lsnOf_segmentName lsn, h, lsnOf_segmentName])

/-! ### The shipper -/

structure WalShipper where
  lastShippedLsn : UInt64
  segmentsShipped : ℕ
  bytesShipped : ℕ
  deriving DecidableEq

def WalShipper.new : WalShipper := ⟨0, 0, 0⟩

/-- A call of `ship_segment` between the creation of the file and its return. -/
structure Copy where
  lsn : UInt64
  data : List UInt8
  /-- The bytes written so far. -/
  written : ℕ
  deriving DecidableEq

/-- `ship_segment` up to `File::create`, which empties a file that is there. -/
def WalShipper.createSegment (s : WalShipper) (lsn : UInt64) (data : List UInt8) (created : Except String Unit)
    (dir : Directory) : Except ShipError (Copy × Directory) :=
  if lsn ≤ s.lastShippedLsn then .error .segmentAlreadyShipped
  else match created with
    | .error text => .error (.io text)
    | .ok () => .ok (⟨lsn, data, 0⟩, dir.insert (segmentName lsn) [])

/-- `write_all` writes the next `n` bytes. -/
def Copy.writeSegment (c : Copy) (n : ℕ) (dir : Directory) : Copy × Directory :=
  ({ c with written := c.written + n },
    dir.update (segmentName c.lsn) fun content => content ++ (c.data.drop c.written).take n)

/-- `ship_segment` after `sync_all`. -/
def WalShipper.finishSegment (s : WalShipper) (c : Copy) : WalShipper where
  lastShippedLsn := c.lsn
  segmentsShipped := s.segmentsShipped + 1
  bytesShipped := s.bytesShipped + c.data.length

/-! ### The replica -/

structure ReplicaApplier where
  lastAppliedLsn : UInt64
  deriving DecidableEq

def ReplicaApplier.new : ReplicaApplier := ⟨0⟩

/-- The segments in the directory, as far as its entries can be read. -/
def segmentsIn (dir : Directory) (unreadable : List FileName) : List (UInt64 × FileName) :=
  (dir.keys.filter fun name => name ∉ unreadable).filterMap fun name => (lsnOf name).map fun lsn => (lsn, name)

namespace ReplicaApplier

/-- The segments to apply, in the order of their LSNs. -/
def entries (r : ReplicaApplier) (dir : Directory) (unreadable : List FileName) : List (UInt64 × FileName) :=
  ((segmentsIn dir unreadable).filter fun e => r.lastAppliedLsn < e.1).mergeSort fun a b => a.1 ≤ b.1

/-- The loop of `catch_up`, which does not open the files. -/
def advance (r : ReplicaApplier) (entries : List (UInt64 × FileName)) : ReplicaApplier :=
  entries.foldl (fun _ e => ⟨e.1⟩) r

/-- The number of segments applied; `listing` is the outcome of `read_dir`, with the entries it failed on. -/
def catchUp (r : ReplicaApplier) (dir : Directory) (listing : Except String (List FileName)) :
    Except ShipError ℕ × ReplicaApplier :=
  match listing with
  | .error text => (.error (.io text), r)
  | .ok unreadable => (.ok (r.entries dir unreadable).length, r.advance (r.entries dir unreadable))

end ReplicaApplier

/-! ### Runs -/

/-- Shipper, replica and the directory between them. -/
structure Shipping where
  shipper : WalShipper
  /-- The call of `ship_segment` that is running. -/
  copy : Option Copy
  /-- The files that may lose bytes in a crash. -/
  unsynced : List FileName
  dir : Directory
  replica : ReplicaApplier
  /-- The segments applied, with what their files held then. -/
  applied : List (UInt64 × List UInt8)
  /-- The sum of the numbers that `catch_up` returned. -/
  counted : ℕ

inductive ShipStep
  | ship (lsn : UInt64) (created : Except String Unit)
  | write (n : ℕ)
  | fail (text : String)
  | finish
  | crash (kept : FileName → ℕ)
  | poll (listing : Except String (List FileName))
  | restartReplica

namespace Shipping

def start : Shipping := ⟨.new, none, [], ∅, .new, [], 0⟩

def createSegment (w : Shipping) (lsn : UInt64) (data : List UInt8) (created : Except String Unit) : Shipping :=
  match w.shipper.createSegment lsn data created w.dir with
  | .error _ => w
  | .ok (copy, dir) => { w with copy := some copy, unsynced := segmentName lsn :: w.unsynced, dir := dir }

/-- What is read from a file at a poll. -/
def content (w : Shipping) (name : FileName) : List UInt8 := (w.dir.lookup name).getD []

def poll (w : Shipping) (listing : Except String (List FileName)) : Shipping :=
  match listing with
  | .error _ => { w with replica := (w.replica.catchUp w.dir listing).2 }
  | .ok unreadable =>
    let entries := w.replica.entries w.dir unreadable
    { w with
      replica := (w.replica.catchUp w.dir listing).2
      applied := w.applied ++ entries.map fun e => (e.1, w.content e.2)
      counted := w.counted + ((w.replica.catchUp w.dir listing).1.toOption.getD 0) }

/-- One step; `none` where it cannot come next.  Calls of `ship_segment` do not overlap, and they are about
segments of the primary.  A crash leaves of each file that was not synced as many bytes as it likes. -/
def step (source : UInt64 → Option (List UInt8)) (w : Shipping) : ShipStep → Option Shipping
  | .ship lsn created =>
    if w.copy = none then (source lsn).map fun data => w.createSegment lsn data created else none
  | .write n => do
    let c ← w.copy
    let (copy, dir) := c.writeSegment n w.dir
    if copy.written ≤ copy.data.length then some { w with copy := some copy, dir := dir } else none
  | .fail _ => do
    let _ ← w.copy
    some { w with copy := none }
  | .finish => do
    let c ← w.copy
    if c.written = c.data.length then
      some { w with
        shipper := w.shipper.finishSegment c
        copy := none
        unsynced := w.unsynced.filter fun name => name ≠ segmentName c.lsn }
    else none
  | .crash kept =>
    some { w with
      shipper := .new
      copy := none
      unsynced := []
      dir := w.dir.mapWithKey fun name content => if name ∈ w.unsynced then content.take (kept name) else content }
  | .poll listing => some (w.poll listing)
  | .restartReplica => some { w with replica := .new }

/-- The replica has applied whole segments, each counted, in order, without gaps or repeats. -/
structure Faithful (source : UInt64 → Option (List UInt8)) (w : Shipping) : Prop where
  whole : ∀ e ∈ w.applied, source e.1 = some e.2
  ordered : (w.applied.map Prod.fst).Pairwise (· < ·)
  noGap : ∀ e ∈ w.applied, ∀ lsn < e.1, (source lsn).isSome → lsn ∈ w.applied.map Prod.fst
  counted : w.counted = w.applied.length

/-- A file of a segment above the last one applied. -/
def Listed (w : Shipping) (unreadable : List FileName) (lsn : UInt64) (content : List UInt8) : Prop :=
  w.replica.lastAppliedLsn < lsn ∧ segmentName lsn ∉ unreadable ∧ w.dir.lookup (segmentName lsn) = some content

/-- A poll at this time: every new file is finished, every segment below a new one is there or has been
applied, and the new ones come after all that were applied. -/
structure Ready (source : UInt64 → Option (List UInt8)) (w : Shipping) (unreadable : List FileName) : Prop where
  finished : ∀ lsn content data, w.Listed unreadable lsn content → source lsn = some data →
    data.length ≤ content.length
  complete : ∀ lsn content, w.Listed unreadable lsn content → ∀ below < lsn, (source below).isSome →
    below ∈ w.applied.map Prod.fst ∨ ∃ content', w.Listed unreadable below content'
  fresh : ∀ lsn content, w.Listed unreadable lsn content → ∀ e ∈ w.applied, e.1 < lsn

/-- Every poll comes at such a time. -/
def InTime (source : UInt64 → Option (List UInt8)) (w : Shipping) (a : ShipStep) : Prop :=
  ∀ unreadable, a = .poll (.ok unreadable) → w.Ready source unreadable

/-! ### Files -/

/-- Every file is an initial part of the segment its name stands for. -/
structure Stored (source : UInt64 → Option (List UInt8)) (w : Shipping) : Prop where
  files : ∀ name content, w.dir.lookup name = some content →
    ∃ lsn data, name = segmentName lsn ∧ source lsn = some data ∧ content <+: data
  copying : ∀ c, w.copy = some c →
    source c.lsn = some c.data ∧ w.dir.lookup (segmentName c.lsn) = some (c.data.take c.written)

variable {source : UInt64 → Option (List UInt8)} {w w' : Shipping} {a : ShipStep} {lsn : UInt64}
  {data content : List UInt8} {unreadable : List FileName}

theorem stored_start (source : UInt64 → Option (List UInt8)) : start.Stored source :=
  { files := fun _ _ h => by cases h
    copying := fun _ h => by cases h }

variable {dir : Directory} {name : FileName}

/-- One file changes, to an initial part of its segment. -/
theorem Stored.files_of_lookup (h : w.Stored source) (hsource : source lsn = some data)
    (hcontent : content <+: data)
    (hlookup : ∀ name, dir.lookup name = if name = segmentName lsn then some content else w.dir.lookup name) :
    ∀ name content, dir.lookup name = some content →
      ∃ lsn data, name = segmentName lsn ∧ source lsn = some data ∧ content <+: data := by
  intro name content' hname
  rw [hlookup] at hname
  split_ifs at hname with heq
  · cases hname
    exact ⟨lsn, data, heq, hsource, hcontent⟩
  · exact h.files name content' hname

theorem Stored.createSegment (h : w.Stored source) (hsource : source lsn = some data)
    (created : Except String Unit) : (w.createSegment lsn data created).Stored source := by
  unfold Shipping.createSegment WalShipper.createSegment
  split_ifs
  · exact h
  · cases created with
    | error text => exact h
    | ok =>
      have hlookup (name : FileName) : (w.dir.insert (segmentName lsn) []).lookup name =
          if name = segmentName lsn then some [] else w.dir.lookup name := lookup_insert_if _ _ _ _
      refine ⟨h.files_of_lookup hsource nil_prefix hlookup, ?_⟩
      rintro c hc
      cases hc
      exact ⟨hsource, (hlookup _).trans (if_pos rfl)⟩

theorem Stored.writeSegment (h : w.Stored source) {c : Copy} (hc : w.copy = some c) (n : ℕ) :
    Stored source { w with copy := some (c.writeSegment n w.dir).1, dir := (c.writeSegment n w.dir).2 } := by
  obtain ⟨hsource, hfile⟩ := h.copying c hc
  have hlookup (name : FileName) : (c.writeSegment n w.dir).2.lookup name =
      if name = segmentName c.lsn then some (c.data.take (c.written + n)) else w.dir.lookup name := by
    rw [Copy.writeSegment, lookup_update]
    split_ifs with heq
    · rw [heq, hfile, map_some, ← take_add]
    · rfl
  refine ⟨h.files_of_lookup hsource ( take_prefix _ _) hlookup, ?_⟩
  rintro c' hc'
  cases hc'
  exact ⟨hsource, (hlookup _).trans (if_pos rfl)⟩

theorem Stored.crash (h : w.Stored source) (kept : FileName → ℕ) : Stored source { w with
      shipper := .new
      copy := none
      unsynced := []
      dir := w.dir.mapWithKey fun name content =>
        if name ∈ w.unsynced then content.take (kept name) else content } := by
  refine ⟨fun name content hname => ?_, fun c hc => by cases hc⟩
  rw [lookup_mapWithKey] at hname
  obtain ⟨content', hlookup, rfl⟩ := map_eq_some_iff.mp hname
  obtain ⟨lsn, data, rfl, hsource, hbegins⟩ := h.files name content' hlookup
  refine ⟨lsn, data, rfl, hsource, ?_⟩
  split_ifs
  · exact ( take_prefix _ _).trans hbegins
  · exact hbegins

theorem Stored.poll (h : w.Stored source) (listing : Except String (List FileName)) :
    (w.poll listing).Stored source := by
  cases listing with
  | error text | ok unreadable => exact ⟨h.files, h.copying⟩

theorem Stored.step (h : w.Stored source) (hstep : step source w a = some w') : w'.Stored source := by
  cases a with
  | ship lsn created =>
    rw [Shipping.step] at hstep
    split_ifs at hstep
    obtain ⟨data, hsource, rfl⟩ := map_eq_some_iff.mp hstep
    exact h.createSegment hsource created
  | write n =>
    obtain ⟨c, hc, hstep⟩ := bind_eq_some_iff.mp hstep
    dsimp only at hstep
    split_ifs at hstep
    cases hstep
    exact h.writeSegment hc n
  | fail text =>
    obtain ⟨c, -, hstep⟩ := bind_eq_some_iff.mp hstep
    cases hstep
    exact ⟨h.files, fun c hc => by cases hc⟩
  | finish =>
    obtain ⟨c, -, hstep⟩ := bind_eq_some_iff.mp hstep
    split_ifs at hstep
    cases hstep
    exact ⟨h.files, fun c hc => by cases hc⟩
  | crash kept =>
    cases hstep
    exact h.crash kept
  | poll listing =>
    cases hstep
    exact h.poll listing
  | restartReplica =>
    cases hstep
    exact ⟨h.files, h.copying⟩

/-! ### Polls -/

/-- Other steps than polls apply nothing. -/
theorem step_applied (hstep : step source w a = some w') (ha : ∀ listing, a ≠ .poll listing) :
    w'.applied = w.applied ∧ w'.counted = w.counted := by
  cases a with
  | ship lsn created =>
    rw [Shipping.step] at hstep
    split_ifs at hstep
    obtain ⟨data, -, rfl⟩ := map_eq_some_iff.mp hstep
    unfold createSegment
    split <;> exact ⟨rfl, rfl⟩
  | write n =>
    obtain ⟨c, -, hstep⟩ := bind_eq_some_iff.mp hstep
    dsimp only at hstep
    split_ifs at hstep
    cases hstep
    exact ⟨rfl, rfl⟩
  | fail text =>
    obtain ⟨c, -, hstep⟩ := bind_eq_some_iff.mp hstep
    cases hstep
    exact ⟨rfl, rfl⟩
  | finish =>
    obtain ⟨c, -, hstep⟩ := bind_eq_some_iff.mp hstep
    split_ifs at hstep
    cases hstep
    exact ⟨rfl, rfl⟩
  | crash kept | restartReplica =>
    cases hstep
    exact ⟨rfl, rfl⟩
  | poll listing => exact absurd rfl (ha listing)

/-- What a poll appends to the applied segments. -/
def applying (w : Shipping) (unreadable : List FileName) : List (UInt64 × List UInt8) :=
  (w.replica.entries w.dir unreadable).map fun e => (e.1, w.content e.2)

theorem mem_segmentsIn : (lsn, name) ∈ segmentsIn dir unreadable ↔
    name ∈ dir ∧ name ∉ unreadable ∧ lsnOf name = some lsn := by
  rw [segmentsIn, mem_filterMap]
  constructor
  · rintro ⟨name', hmem, hname⟩
    obtain ⟨lsn', hlsn, heq⟩ := map_eq_some_iff.mp hname
    cases heq
    obtain ⟨hdir, hread⟩ := mem_filter.mp hmem
    exact ⟨AList.mem_keys.mpr hdir, of_decide_eq_true hread, hlsn⟩
  · rintro ⟨hdir, hread, hlsn⟩
    refine ⟨name, mem_filter.mpr ⟨AList.mem_keys.mp hdir, decide_eq_true hread⟩, ?_⟩
    rw [hlsn, map_some]

theorem mem_entries {r : ReplicaApplier} {e : UInt64 × FileName} :
    e ∈ r.entries dir unreadable ↔ e ∈ segmentsIn dir unreadable ∧ r.lastAppliedLsn < e.1 := by
  simp [ReplicaApplier.entries]

/-- A segment in the directory stands in the file of its name. -/
theorem Stored.lookup_of_mem (h : w.Stored source) (hmem : (lsn, name) ∈ segmentsIn w.dir unreadable) :
    name = segmentName lsn ∧ ∃ content, w.dir.lookup (segmentName lsn) = some content := by
  obtain ⟨hdir, -, hlsn⟩ := mem_segmentsIn.mp hmem
  obtain ⟨content, hcontent⟩ := isSome_iff_exists.mp (AList.lookup_isSome.mpr hdir)
  obtain ⟨lsn', data, rfl, -, -⟩ := h.files name content hcontent
  rw [lsnOf_segmentName] at hlsn
  cases hlsn
  exact ⟨rfl, content, hcontent⟩

/-- A poll applies the segments listed, with what their files hold. -/
theorem mem_applying (h : w.Stored source) :
    (lsn, content) ∈ w.applying unreadable ↔ w.Listed unreadable lsn content := by
  rw [applying, List.mem_map]
  constructor
  · rintro ⟨⟨lsn', name⟩, hmem, heq⟩
    cases heq
    obtain ⟨hsegment, hlast⟩ := mem_entries.mp hmem
    obtain ⟨rfl, content, hcontent⟩ := h.lookup_of_mem hsegment
    refine ⟨hlast, (mem_segmentsIn.mp hsegment).2.1, ?_⟩
    rw [Shipping.content, hcontent]
    rfl
  · rintro ⟨hlast, hread, hcontent⟩
    have hdir : segmentName lsn ∈ w.dir := AList.lookup_isSome.mp (by rw [hcontent]; rfl)
    have hsegment := mem_segmentsIn.mpr ⟨hdir, hread, lsnOf_segmentName lsn⟩
    refine ⟨(lsn, segmentName lsn), mem_entries.mpr ⟨hsegment, hlast⟩, ?_⟩
    rw [Shipping.content, hcontent]
    rfl

theorem nodup_segmentsIn (dir : Directory) (unreadable : List FileName) :
    (segmentsIn dir unreadable).Pairwise fun a b => a.2 ≠ b.2 := by
  refine List.Pairwise.filterMap _ (fun name name' hne e he e' he' heq => ?_) (dir.keys_nodup.filter _)
  obtain ⟨lsn, -, rfl⟩ := map_eq_some_iff.mp he
  obtain ⟨lsn', -, rfl⟩ := map_eq_some_iff.mp he'
  exact hne heq

/-- Each segment is applied once, in order. -/
theorem applying_ordered (h : w.Stored source) : ((w.applying unreadable).map Prod.fst).Pairwise (· < ·) := by
  have htrans (a b c : UInt64 × FileName) (hab : decide (a.1 ≤ b.1) = true) (hbc : decide (b.1 ≤ c.1) = true) :
      decide (a.1 ≤ c.1) = true :=
    decide_eq_true (UInt64.le_trans (of_decide_eq_true hab) (of_decide_eq_true hbc))
  have htotal (a b : UInt64 × FileName) : (decide (a.1 ≤ b.1) || decide (b.1 ≤ a.1)) = true := by
    rw [Bool.or_eq_true, decide_eq_true_iff, decide_eq_true_iff]
    exact UInt64.le_total _ _
  have hsorted : (w.replica.entries w.dir unreadable).Pairwise fun a b => a.1 ≤ b.1 :=
    (pairwise_mergeSort htrans htotal _).imp of_decide_eq_true
  have hnodup : (w.replica.entries w.dir unreadable).Pairwise fun a b => a.2 ≠ b.2 :=
    ((mergeSort_perm _ _).pairwise_iff Ne.symm).mpr ((nodup_segmentsIn w.dir unreadable).filter _)
  have hmap : (w.applying unreadable).map Prod.fst = (w.replica.entries w.dir unreadable).map Prod.fst := by
    simp [applying]
  rw [hmap, pairwise_map]
  refine (hsorted.and hnodup).imp_of_mem fun {a b} ha hb hab => ?_
  have hname := (h.lookup_of_mem (mem_entries.mp ha).1).1
  have hname' := (h.lookup_of_mem (mem_entries.mp hb).1).1
  exact UInt64.lt_of_le_of_ne hab.1 fun heq => hab.2 (by rw [hname, hname', heq])

theorem poll_applied (w : Shipping) (unreadable : List FileName) :
    (w.poll (.ok unreadable)).applied = w.applied ++ w.applying unreadable := rfl

theorem poll_counted (w : Shipping) (unreadable : List FileName) :
    (w.poll (.ok unreadable)).counted = w.counted + (w.applying unreadable).length := by
  rw [applying, length_map]
  rfl

/-- **One poll** applies whole segments in order exactly if it comes in time. -/
theorem faithful_poll_iff (hstored : w.Stored source) (h : w.Faithful source) :
    (w.poll (.ok unreadable)).Faithful source ↔ w.Ready source unreadable := by
  constructor
  · intro hafter
    have hnew {lsn content} (hlisted : w.Listed unreadable lsn content) :
        (lsn, content) ∈ (w.poll (.ok unreadable)).applied :=
      mem_append_right _ ((mem_applying hstored).mpr hlisted)
    refine ⟨fun lsn content data hlisted hdata => ?_, fun lsn content hlisted below hbelow hsource => ?_,
      fun lsn content hlisted e he => ?_⟩
    · have hwhole := hafter.whole _ (hnew hlisted)
      rw [hdata] at hwhole
      rw [Option.some.inj hwhole]
    · have hmem := hafter.noGap _ (hnew hlisted) below hbelow hsource
      rw [poll_applied, map_append, mem_append] at hmem
      refine hmem.imp id fun hlisted' => ?_
      obtain ⟨⟨below, content'⟩, happlied, rfl⟩ := List.mem_map.mp hlisted'
      exact ⟨content', (mem_applying hstored).mp happlied⟩
    · have hordered := hafter.ordered
      rw [poll_applied, map_append, pairwise_append] at hordered
      exact hordered.2.2 e.1 (mem_map_of_mem he) lsn
        (mem_map_of_mem (f := Prod.fst) ((mem_applying hstored).mpr hlisted))
  · intro hready
    refine ⟨fun e he => ?_, ?_, fun e he lsn hlsn hsource => ?_, ?_⟩
    · rcases mem_append.mp he with he | he
      · exact h.whole e he
      · have hlisted := (mem_applying hstored).mp he
        obtain ⟨lsn, data, hname, hsource, hbegins⟩ := hstored.files _ _ hlisted.2.2
        rw [segmentName_inj hname, hsource]
        rw [← segmentName_inj hname] at hsource
        rw [hbegins.eq_of_length_le (hready.finished _ _ data hlisted hsource)]
    · rw [poll_applied, map_append, pairwise_append]
      refine ⟨h.ordered, applying_ordered hstored, fun lsn hlsn lsn' hlsn' => ?_⟩
      obtain ⟨e, he, rfl⟩ := List.mem_map.mp hlsn
      obtain ⟨e', he', rfl⟩ := List.mem_map.mp hlsn'
      exact hready.fresh _ _ ((mem_applying hstored).mp he') e he
    · rw [poll_applied, map_append, mem_append]
      rcases mem_append.mp he with he | he
      · exact Or.inl (h.noGap e he lsn hlsn hsource)
      · refine (hready.complete _ _ ((mem_applying hstored).mp he) lsn hlsn hsource).imp id ?_
        rintro ⟨content', hlisted⟩
        exact List.mem_map.mpr ⟨_, (mem_applying hstored).mpr hlisted, rfl⟩
    · rw [poll_applied, poll_counted, length_append, h.counted]

theorem faithful_start (source : UInt64 → Option (List UInt8)) : start.Faithful source :=
  { whole := fun _ he => absurd he List.not_mem_nil
    ordered := List.Pairwise.nil
    noGap := fun _ he => absurd he List.not_mem_nil
    counted := rfl }

theorem faithful_congr (happlied : w'.applied = w.applied) (hcounted : w'.counted = w.counted) :
    w'.Faithful source ↔ w.Faithful source := by
  constructor
  · intro h
    exact ⟨happlied ▸ h.whole, happlied ▸ h.ordered, happlied ▸ h.noGap, hcounted ▸ happlied ▸ h.counted⟩
  · intro h
    exact ⟨happlied ▸ h.whole, happlied ▸ h.ordered, happlied ▸ h.noGap, hcounted ▸ happlied ▸ h.counted⟩

theorem faithful_step_iff (hstored : w.Stored source) (h : w.Faithful source) (hstep : step source w a = some w') :
    w'.Faithful source ↔ w.InTime source a := by
  by_cases ha : ∃ unreadable, a = .poll (.ok unreadable)
  · obtain ⟨unreadable, rfl⟩ := ha
    cases hstep
    rw [faithful_poll_iff hstored h]
    refine ⟨fun hready unreadable' heq => ?_, fun hready => hready unreadable rfl⟩
    cases heq
    exact hready
  · have hkept : w'.applied = w.applied ∧ w'.counted = w.counted := by
      by_cases hpoll : ∃ text, a = .poll (.error text)
      · obtain ⟨text, rfl⟩ := hpoll
        cases hstep
        exact ⟨rfl, rfl⟩
      · refine step_applied hstep fun listing heq => ?_
        cases listing with
        | error text => exact hpoll ⟨text, heq⟩
        | ok unreadable => exact ha ⟨unreadable, heq⟩
    refine iff_of_true ((faithful_congr hkept.1 hkept.2).mpr h) fun unreadable heq => ?_
    exact absurd ⟨unreadable, heq⟩ ha

theorem inTime_of_stuck (hstep : step source w a = none) : w.InTime source a := by
  rintro unreadable rfl
  cases hstep

/-- **The replica applies whole segments, in order and without gaps or repeats, exactly in the runs in which
every poll comes in time.** -/
theorem shipped_whole_iff (source : UInt64 → Option (List UInt8)) (steps : List ShipStep) :
    Throughout (step source) (Faithful source) start steps ↔ Along (step source) (InTime source) start steps := by
  exact throughout_iff_along (I := Stored source) (fun _ _ => inTime_of_stuck) (fun _ _ _ h => h.step)
    (fun _ _ _ => faithful_step_iff) (stored_start source) (faithful_start source) steps

/-- The primary has one segment. -/
def oneSegment (lsn : UInt64) : Option (List UInt8) := if lsn = 10 then some [1, 2] else none

/-- The replica looks when the file has been created. -/
theorem not_shipped_whole :
    ¬Throughout (step oneSegment) (Faithful oneSegment) start [.ship 10 (.ok ()), .poll (.ok [])] := by
  intro h
  have hcreated : (start.createSegment 10 [1, 2] (.ok ())).Faithful oneSegment :=
    h [.ship 10 (.ok ())] _ (prefix_append _ _) rfl
  have hpolled : ((start.createSegment 10 [1, 2] (.ok ())).poll (.ok [])).Faithful oneSegment :=
    h _ _ (prefix_refl _) rfl
  have hstored : (start.createSegment 10 [1, 2] (.ok ())).Stored oneSegment :=
    (stored_start oneSegment).createSegment rfl (.ok ())
  have hlisted : (start.createSegment 10 [1, 2] (.ok ())).Listed [] 10 [] :=
    ⟨by decide, List.not_mem_nil, AList.lookup_insert _⟩
  have hlength := ((faithful_poll_iff hstored hcreated).mp hpolled).finished 10 [] [1, 2] hlisted rfl
  cases hlength

end Shipping

end CenDB.Replication
