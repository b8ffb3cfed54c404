import CenDB.Lib.Transition
import CenDB.Security.AuditLog

/-! # Runs of the audit log

A pruned log starts with an entry that stores the digest of a removed one, and the next number is one
more than how many entries there are. -/

namespace CenDB.Security

open Transition List UInt64

namespace AuditRun

open AuditLog

inductive Call
  | append (timestamp userId : UInt64) (op : AuditOp) (resource : String) (rowsAffected : UInt64)
    (detail : String)
  | pruneOlderThan (ts : UInt64)

/-- The log, and the entries of all appends so far. -/
structure World where
  log : AuditLog
  appended : List AuditEntry

def start : World := ⟨new, []⟩

def step (crypto : Crypto) (w : World) : Call → Option World
  | .append timestamp userId op resource rowsAffected detail =>
    (w.log.append crypto timestamp userId op resource rowsAffected detail).map fun r =>
      ⟨r.2, w.appended ++ [w.log.nextEntry crypto timestamp userId op resource rowsAffected detail]⟩
  | .pruneOlderThan ts => some ⟨(w.log.pruneOlderThan ts).2, w.appended⟩

/-- The log verifies, its numbers increase, and no number was given twice. -/
structure Verifiable (crypto : Crypto) (w : World) : Prop where
  verifies : w.log.verifyChain crypto = .ok ()
  increasing : (w.log.entries.map AuditEntry.sequence).Pairwise (· < ·)
  unused : (w.appended.map AuditEntry.sequence).Nodup

/-- A prune keeps the first entries, and nothing is appended after entries have gone. -/
def KeepsFront (w : World) : Call → Prop
  | .append .. => w.log.entries.length = w.appended.length
  | .pruneOlderThan ts => (w.log.pruneOlderThan ts).2.entries <+: w.log.entries

/-- What the run has hashed. -/
def hashedBytes (w : World) : Set (List UInt8) := insert [] {bytes | ∃ e ∈ w.appended, e.hashed = bytes}

/-! ### The log has the first entries that were appended -/

structure Inv (crypto : Crypto) (w : World) : Prop where
  front : w.log.entries <+: w.appended
  chained : Chained crypto (crypto.blake3 []) w.appended
  numbered : w.appended.map AuditEntry.sequence =
    (List.range w.appended.length).map fun i => UInt64.ofNat (i + 1)
  small : w.appended.length < 2 ^ 63

theorem inv_start (crypto : Crypto) : Inv crypto start := ⟨prefix_rfl, trivial, rfl, by decide⟩

variable {crypto : Crypto} {w w' : World}

/-- What an append adds. -/
structure Follows (crypto : Crypto) (log : AuditLog) (e : AuditEntry) : Prop where
  room : log.entries.length + 1 < 2 ^ 63
  sequence : e.sequence = UInt64.ofNat (log.entries.length + 1)
  prevHash : e.prevHash = log.lastHash crypto
  entryHash : e.entryHash = e.computeHash crypto

theorem step_append {timestamp userId : UInt64} {op : AuditOp} {resource : String}
    {rowsAffected : UInt64} {detail : String}
    (h : step crypto w (.append timestamp userId op resource rowsAffected detail) = some w') :
    ∃ e, Follows crypto w.log e ∧ w' = ⟨⟨w.log.entries ++ [e]⟩, w.appended ++ [e]⟩ := by
  simp only [step, append] at h
  split_ifs at h with hroom
  · rw [Option.map_some, Option.some.injEq] at h
    exact ⟨w.log.nextEntry crypto timestamp userId op resource rowsAffected detail,
      ⟨hroom, (ofNat_add _ 1).symm, rfl, rfl⟩, h.symm⟩
  · cases h

/-- Small numbers are told apart. -/
theorem ofNat_lt_ofNat {i j : ℕ} (hij : i < j) (hj : j < 2 ^ 63) : UInt64.ofNat i < UInt64.ofNat j := by
  have hsize : (2 : ℕ) ^ 63 < UInt64.size := by decide
  rw [lt_iff_toNat_lt, toNat_ofNat_of_lt' (by omega), toNat_ofNat_of_lt' (by omega)]
  exact hij

theorem Inv.increasing (h : Inv crypto w) : (w.appended.map AuditEntry.sequence).Pairwise (· < ·) := by
  have hsmall := h.small
  rw [h.numbered, pairwise_map, pairwise_iff_getElem]
  intro i j hi hj hij
  rw [length_range] at hj
  rw [getElem_range, getElem_range]
  exact ofNat_lt_ofNat (by omega) (by omega)

theorem Inv.nodup (h : Inv crypto w) : (w.appended.map AuditEntry.sequence).Nodup :=
  h.increasing.imp fun hlt => UInt64.ne_of_lt hlt

theorem Inv.verifiable (h : Inv crypto w) : Verifiable crypto w where
  verifies := verifyChain_eq_ok.mpr (h.chained.initial h.front)
  increasing := h.increasing.sublist (h.front.map AuditEntry.sequence).sublist
  unused := h.nodup

theorem lastHash_eq_tip (crypto : Crypto) (log : AuditLog) :
    log.lastHash crypto = HashChain.tip AuditEntry.entryHash (crypto.blake3 []) log.entries :=
  (HashChain.tip_eq _ _).symm

variable {e : AuditEntry} {c : Call}

/-- An append to a log that still has all entries. -/
theorem Inv.append (h : Inv crypto w) (hall : w.log.entries.length = w.appended.length)
    (he : Follows crypto w.log e) :
    Inv crypto ⟨⟨w.log.entries ++ [e]⟩, w.appended ++ [e]⟩ := by
  have heq : w.log.entries = w.appended := h.front.eq_of_length hall
  refine ⟨by rw [heq], ?_, ?_, ?_⟩
  · refine (HashChain.valid_append _ _ _).mpr ⟨h.chained, ?_, he.entryHash, trivial⟩
    rw [he.prevHash, lastHash_eq_tip, heq]
  · rw [map_append, h.numbered, length_append, length_singleton, range_succ,
      map_append, map_singleton, map_singleton, he.sequence, heq]
  · rw [length_append, length_singleton, ← heq]
    exact he.room

theorem Inv.step (h : Inv crypto w) (hc : KeepsFront w c) (hstep : AuditRun.step crypto w c = some w') :
    Inv crypto w' := by
  cases c with
  | append timestamp userId op resource rowsAffected detail =>
    obtain ⟨e, he, rfl⟩ := step_append hstep
    exact h.append hc he
  | pruneOlderThan ts =>
    rw [AuditRun.step, Option.some.injEq] at hstep
    subst hstep
    exact ⟨hc.trans h.front, h.chained, h.numbered, h.small⟩

/-! ### What goes wrong otherwise -/

/-- The next number of a pruned log was given before. -/
theorem Inv.reuses (h : Inv crypto w) (hgone : w.log.entries.length ≠ w.appended.length)
    (he : Follows crypto w.log e) :
    ¬((w.appended ++ [e]).map AuditEntry.sequence).Nodup := by
  have hlt : w.log.entries.length < w.appended.length := lt_of_le_of_ne h.front.length_le hgone
  have hmem : e.sequence ∈ w.appended.map AuditEntry.sequence := by
    rw [h.numbered, he.sequence]
    exact mem_map_of_mem (f := fun i => UInt64.ofNat (i + 1)) (mem_range.mpr hlt)
  rw [map_append, map_singleton, nodup_append]
  rintro ⟨-, -, hdisjoint⟩
  exact hdisjoint _ hmem _ mem_cons_self rfl

theorem hashed_ne_nil (e : AuditEntry) : e.hashed ≠ [] := by
  intro h
  have hlen := congrArg List.length h
  rw [AuditEntry.hashed, length_append, Words.toLE_length, length_nil] at hlen
  omega

/-- Without collisions the stored digests of the entries are distinct. -/
theorem Inv.nodup_hashes (h : Inv crypto w) (hinj : Set.InjOn crypto.blake3 (hashedBytes w)) :
    (crypto.blake3 [] :: w.appended.map AuditEntry.entryHash).Nodup := by
  have hstored : w.appended.map AuditEntry.entryHash = w.appended.map (AuditEntry.computeHash crypto) :=
    map_congr_left fun e he => h.chained.stored_eq he
  rw [hstored, nodup_cons]
  constructor
  · rintro hmem
    obtain ⟨e, he, heq⟩ := List.mem_map.mp hmem
    exact hashed_ne_nil e (hinj (Or.inr ⟨e, he, rfl⟩) (Or.inl rfl) heq)
  · refine h.nodup.of_map.map_on fun e he f hf heq => ?_
    have hbytes := hinj (Or.inr ⟨e, he, rfl⟩) (Or.inr ⟨f, hf, rfl⟩) heq
    exact inj_on_of_nodup_map h.nodup he hf (AuditEntry.hashed_inj.mp hbytes).1

/-- Entries that a prune leaves and that are not the first ones do not verify. -/
theorem Inv.breaks (h : Inv crypto w) (hinj : Set.InjOn crypto.blake3 (hashedBytes w)) {ts : UInt64}
    (hback : ¬(w.log.pruneOlderThan ts).2.entries <+: w.log.entries) :
    (w.log.pruneOlderThan ts).2.verifyChain crypto ≠ .ok () := by
  intro hok
  have hsub : (w.log.pruneOlderThan ts).2.entries.Sublist w.log.entries := filter_sublist
  have hfront := HashChain.initial_of_valid h.chained (h.nodup_hashes hinj)
    (hsub.trans h.front.sublist) (verifyChain_eq_ok.mp hok)
  exact hback (prefix_of_prefix_length_le hfront h.front hsub.length_le)

theorem Inv.leaves (h : Inv crypto w) (hinj : Set.InjOn crypto.blake3 (hashedBytes w)) (hc : ¬KeepsFront w c)
    (hstep : AuditRun.step crypto w c = some w') : ¬Verifiable crypto w' := by
  intro hverifiable
  cases c with
  | append timestamp userId op resource rowsAffected detail =>
    obtain ⟨e, he, rfl⟩ := step_append hstep
    exact h.reuses hc he hverifiable.unused
  | pruneOlderThan ts =>
    rw [AuditRun.step, Option.some.injEq] at hstep
    subst hstep
    exact h.breaks hinj hc hverifiable.verifies

/-- A step hashes more, never less. -/
theorem hashedBytes_step (h : step crypto w c = some w') : hashedBytes w ⊆ hashedBytes w' := by
  cases c with
  | append timestamp userId op resource rowsAffected detail =>
    obtain ⟨e, -, rfl⟩ := step_append h
    refine Set.insert_subset_insert ?_
    rintro bytes ⟨f, hf, rfl⟩
    exact ⟨f, mem_append_left [e] hf, rfl⟩
  | pruneOlderThan ts =>
    rw [step, Option.some.injEq] at h
    subst h
    exact subset_rfl

/-- **The audit log stays verifiable** through every run whose prunes leave the first entries and
that appends nothing after entries have gone; and, without collisions, only through these. -/
theorem verifiable_iff {crypto : Crypto} {calls : List Call} {w : World}
    (hrun : run (step crypto) start calls = some w) :
    (Along (step crypto) KeepsFront start calls → Throughout (step crypto) (Verifiable crypto) start calls) ∧
    (Set.InjOn crypto.blake3 (hashedBytes w) → Throughout (step crypto) (Verifiable crypto) start calls →
      Along (step crypto) KeepsFront start calls) := by
  constructor
  · intro hkeeps
    exact throughout_of_along (fun _ _ _ hw hc hstep => Inv.step hw hc hstep)
      (fun _ hw => hw.verifiable) (inv_start crypto) hkeeps
  · intro hinj
    obtain ⟨hside, -⟩ := along_of_final (Q := fun w => Set.InjOn crypto.blake3 (hashedBytes w))
      (fun _ _ _ hstep hinj => hinj.mono (hashedBytes_step hstep)) hrun hinj
    exact (throughout_iff_along_of_side (fun _ hw => hw.verifiable)
      (fun _ _ _ hw _ hc hstep => Inv.step hw hc hstep)
      (fun _ _ _ hw hinj hc hstep => hw.leaves hinj hc hstep) (inv_start crypto) hside hrun).mp

/-! ### Two entries an hour apart -/

/-- BLAKE3 of no bytes and of the two entries. -/
def rowsCrypto : Crypto where
  argon2 _ _ := none
  blake3 data :=
    if data = [] then
      genesisHash
    else if data.getD 0 0 = 1 then
      #v[240, 117, 82, 5, 175, 170, 105, 240, 113, 238, 184, 102, 234, 85, 5, 226, 221, 120, 225,
        174, 199, 247, 177, 178, 171, 46, 251, 160, 170, 24, 208, 27]
    else
      #v[229, 156, 253, 74, 104, 238, 135, 133, 109, 99, 169, 46, 64, 213, 211, 221, 17, 48, 233,
        212, 224, 91, 174, 248, 183, 148, 13, 250, 184, 85, 175, 42]

def firstRow : AuditEntry := new.nextEntry rowsCrypto 1700000000 1 .insert "users" 1 "row1"

def secondRow : AuditEntry := AuditLog.nextEntry rowsCrypto 1700003600 1 .insert "users" 1 "row2" ⟨[firstRow]⟩

def appends : List Call :=
  [.append 1700000000 1 .insert "users" 1 "row1", .append 1700003600 1 .insert "users" 1 "row2"]

theorem run_appends :
    run (step rowsCrypto) start appends = some ⟨⟨[firstRow, secondRow]⟩, [firstRow, secondRow]⟩ := by
  rfl

theorem verifiable_iff_appends : Throughout (step rowsCrypto) (Verifiable rowsCrypto) start appends ↔
      Along (step rowsCrypto) KeepsFront start appends := by
  refine ⟨(verifiable_iff run_appends).2 ?_, (verifiable_iff run_appends).1⟩
  have hcases : ∀ bytes ∈ hashedBytes ⟨⟨[firstRow, secondRow]⟩, [firstRow, secondRow]⟩,
      bytes = [] ∨ bytes = firstRow.hashed ∨ bytes = secondRow.hashed := by
    rintro bytes (rfl | ⟨e, he, rfl⟩)
    · exact .inl rfl
    · cases mem_cons.mp he with
      | inl he => exact .inr (.inl (by rw [he]))
      | inr he => exact .inr (.inr (by rw [mem_singleton.mp he]))
  have hdistinct : [rowsCrypto.blake3 [], rowsCrypto.blake3 firstRow.hashed,
      rowsCrypto.blake3 secondRow.hashed].Nodup := by decide
  simp only [nodup_cons, mem_cons, not_mem_nil, or_false, not_or] at hdistinct
  obtain ⟨⟨h01, h02⟩, h12, -⟩ := hdistinct
  intro a ha b hb hab
  obtain rfl | rfl | rfl := hcases a ha <;> obtain rfl | rfl | rfl := hcases b hb <;> first
      | rfl
      | exact absurd hab (by assumption)
      | exact absurd hab.symm (by assumption)

/-- Pruning the first of the two entries breaks the chain. -/
theorem pruned_log_fails : (run (step rowsCrypto) start (appends ++ [.pruneOlderThan 1700003600])).map
        (fun w => w.log.verifyChain rowsCrypto) = some (.error 2) ∧
      ¬Throughout (step rowsCrypto) (Verifiable rowsCrypto) start
        (appends ++ [.pruneOlderThan 1700003600]) := by
  have hrun : (run (step rowsCrypto) start (appends ++ [.pruneOlderThan 1700003600])).map
      (fun w => w.log.verifyChain rowsCrypto) = some (.error 2) := by decide
  refine ⟨hrun, fun h => ?_⟩
  obtain ⟨w, hw, hfails⟩ := Option.map_eq_some_iff.mp hrun
  have hok := (h _ w prefix_rfl hw).verifies
  rw [hfails] at hok
  cases hok

end AuditRun
end CenDB.Security
