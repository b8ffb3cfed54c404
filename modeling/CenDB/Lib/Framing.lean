import Mathlib.Tactic

/-! # Streams of self-delimiting frames

A `Format` is a frame codec: `decode` reads one frame from the front of a stream and
reports how many symbols it took.  Its two laws say that an encoded valid frame is read
back whatever follows it, and that whatever `decode` accepts is the encoding of the valid
frame it returns.

* `Scans F s rs rest` is the abstract meaning of reading a damaged stream: `s` is the valid
  frames `rs`, one after another, followed by a remainder that does not start with a frame.
  Every stream scans in exactly one way (`Scans.unique`, `scans_scan`).
* `scan` is the executable reader, a loop that stops at the first failure.
* `scan_eq_iff_restarts` is the general fact about appending behind damage: frames written
  after a remainder that does not start with a frame are read back exactly when the
  remainder and the new frames overlap so that the stream starts over (`Restarts`). -/

namespace Framing

open List

/-- A frame codec over symbols `β` and frames `ρ`. -/
structure Format (β ρ : Type*) where
  encode : ρ → List β
  decode : List β → Option (ρ × ℕ)
  Valid : ρ → Prop
  encode_pos : ∀ r, 0 < (encode r).length
  decode_encode : ∀ r, Valid r → ∀ rest, decode (encode r ++ rest) = some (r, (encode r).length)
  decode_sound : ∀ s r n, decode s = some (r, n) →
    Valid r ∧ n = (encode r).length ∧ ∃ rest, s = encode r ++ rest

variable {β ρ : Type*} (F : Format β ρ)

namespace Format

/-- The concatenated encodings of a list of frames. -/
def encodeAll (rs : List ρ) : List β := (rs.map F.encode).flatten

@[simp] theorem encodeAll_nil : F.encodeAll [] = [] := rfl

@[simp] theorem encodeAll_cons (r : ρ) (rs : List ρ) :
    F.encodeAll (r :: rs) = F.encode r ++ F.encodeAll rs := by simp [encodeAll]

theorem encode_ne_nil (r : ρ) : F.encode r ≠ [] := length_pos_iff.mp (F.encode_pos r)

theorem decode_nil : F.decode [] = none := by
  cases h : F.decode [] with
  | none => rfl
  | some p =>
    obtain ⟨-, -, rest, hrest⟩ := F.decode_sound [] p.1 p.2 h
    have := append_eq_nil_iff.mp hrest.symm
    exact absurd this.1 (F.encode_ne_nil p.1)

/-- The frames read from a stream, at most one for each unit of fuel. -/
def scanFuel : ℕ → List β → List ρ
  | 0, _ => []
  | fuel + 1, s =>
    match F.decode s with
    | none => []
    | some (r, n) => r :: scanFuel fuel (s.drop n)

/-- Read frames until the first failure; the length of the stream is fuel enough. -/
def scan (s : List β) : List ρ := F.scanFuel s.length s

end Format

/-- The stream `s` is the valid frames `rs` followed by a remainder that does not start
with a frame. -/
structure Scans (s : List β) (rs : List ρ) (rest : List β) : Prop where
  split : s = F.encodeAll rs ++ rest
  valid : ∀ r ∈ rs, F.Valid r
  damaged : F.decode rest = none

variable {F}

variable {s rest : List β} {r : ρ} {rs : List ρ}

theorem decode_sound_drop {n : ℕ} (h : F.decode s = some (r, n)) : s = F.encode r ++ s.drop n := by
  obtain ⟨-, rfl, rest, hs⟩ := F.decode_sound s r n h
  rw [hs, drop_left]

theorem Scans.nil (h : F.decode s = none) : Scans F s [] s := ⟨rfl, by simp, h⟩

theorem Scans.cons (hr : F.Valid r) (h : Scans F s rs rest) : Scans F (F.encode r ++ s) (r :: rs) rest := by
  refine ⟨?_, ?_, h.damaged⟩
  · simp [h.split]
  · intro r' hr'
    rcases mem_cons.mp hr' with rfl | hr'
    · exact hr
    · exact h.valid r' hr'

/-- Valid frames in front of a stream are read before it. -/
theorem Scans.append (h : Scans F s rs rest) :
    ∀ {ps : List ρ}, (∀ p ∈ ps, F.Valid p) → Scans F (F.encodeAll ps ++ s) (ps ++ rs) rest
  | [], _ => h
  | p :: ps, hp => by
    have hps : ∀ q ∈ ps, F.Valid q := fun q hq => hp q (mem_cons_of_mem p hq)
    have ih := Scans.append h hps
    rw [F.encodeAll_cons, append_assoc, cons_append]
    exact ih.cons (hp p mem_cons_self)

/-- A stream scans in at most one way. -/
theorem Scans.unique {rest' : List β} {rs' : List ρ} (h : Scans F s rs rest) (h' : Scans F s rs' rest') :
    rs = rs' ∧ rest = rest' := by
  induction rs generalizing s rs' with
  | nil =>
    have hs : s = rest := h.split
    cases rs' with
    | nil => exact ⟨rfl, by rw [← hs, h'.split]; rfl⟩
    | cons r' rs' =>
      have hd := F.decode_encode r' (h'.valid r' mem_cons_self) (F.encodeAll rs' ++ rest')
      rw [← append_assoc, ← F.encodeAll_cons, ← h'.split, hs, h.damaged] at hd
      cases hd
  | cons r rs ih =>
    have hd := F.decode_encode r (h.valid r mem_cons_self) (F.encodeAll rs ++ rest)
    rw [← append_assoc, ← F.encodeAll_cons, ← h.split] at hd
    cases rs' with
    | nil =>
      have hs : s = rest' := h'.split
      rw [hs, h'.damaged] at hd
      cases hd
    | cons r' rs' =>
      have hd' := F.decode_encode r' (h'.valid r' mem_cons_self) (F.encodeAll rs' ++ rest')
      rw [← append_assoc, ← F.encodeAll_cons, ← h'.split, hd] at hd'
      obtain ⟨rfl, -⟩ := Prod.mk.inj (Option.some.inj hd')
      have htail : F.encodeAll rs ++ rest = F.encodeAll rs' ++ rest' := by
        have hsplit := h.split.symm.trans h'.split
        rw [F.encodeAll_cons, F.encodeAll_cons, append_assoc, append_assoc] at hsplit
        exact append_cancel_left hsplit
      have := ih ⟨rfl, fun p hp => h.valid p (mem_cons_of_mem _ hp), h.damaged⟩
        ⟨htail, fun p hp => h'.valid p (mem_cons_of_mem _ hp), h'.damaged⟩
      exact ⟨by rw [this.1], this.2⟩

/-- The reader computes the scan, given fuel for every symbol. -/
theorem scans_scanFuel : ∀ (fuel : ℕ) (s : List β), s.length ≤ fuel → ∃ rest, Scans F s (F.scanFuel fuel s) rest
  | 0, s, h => by
    have hs : s = [] := length_eq_zero_iff.mp (Nat.le_zero.mp h)
    subst hs
    exact ⟨[], Scans.nil F.decode_nil⟩
  | fuel + 1, s, h => by
    cases hd : F.decode s with
    | none =>
      refine ⟨s, ?_⟩
      simp only [Format.scanFuel, hd]
      exact Scans.nil hd
    | some p =>
      obtain ⟨r, n⟩ := p
      obtain ⟨hvalid, hn, -⟩ := F.decode_sound s r n hd
      have hsplit := decode_sound_drop hd
      have hpos := F.encode_pos r
      have hshort : (s.drop n).length ≤ fuel := by
        rw [length_drop]; omega
      obtain ⟨rest, hrest⟩ := scans_scanFuel fuel (s.drop n) hshort
      refine ⟨rest, ?_⟩
      simp only [Format.scanFuel, hd]
      have := hrest.cons hvalid
      rwa [← hsplit] at this

theorem scans_scan (s : List β) : ∃ rest, Scans F s (F.scan s) rest := scans_scanFuel s.length s le_rfl

theorem Scans.scan_eq (h : Scans F s rs rest) : F.scan s = rs := by
  obtain ⟨rest', h'⟩ := scans_scan (F := F) s
  exact (h'.unique h).1

theorem scan_eq_nil (h : F.decode s = none) : F.scan s = [] := (Scans.nil h).scan_eq

/-- Valid frames written in front of a stream are read first. -/
theorem scan_encodeAll_append {ps : List ρ} (hp : ∀ p ∈ ps, F.Valid p) (s : List β) :
    F.scan (F.encodeAll ps ++ s) = ps ++ F.scan s := by
  obtain ⟨rest, h⟩ := scans_scan (F := F) s
  exact (h.append hp).scan_eq

theorem scan_encodeAll {ps : List ρ} (hp : ∀ p ∈ ps, F.Valid p) : F.scan (F.encodeAll ps) = ps := by
  have h := scan_encodeAll_append hp []
  rwa [append_nil, scan_eq_nil F.decode_nil, append_nil] at h

/-- Everything the reader returns is valid. -/
theorem valid_of_mem_scan (h : r ∈ F.scan s) : F.Valid r := by
  obtain ⟨rest, hs⟩ := scans_scan (F := F) s
  exact hs.valid r h

/-! ### Writing behind damage -/

/-- Behind the remainder `tail`, the symbols `new` start over: the stream `tail ++ new` begins
with `new` itself, and what is left after that copy does not start with a frame. -/
def Restarts (F : Format β ρ) (tail new : List β) : Prop :=
  ∃ rest, tail ++ new = new ++ rest ∧ F.decode rest = none

/-- Frames written behind a remainder are read back exactly, and nothing else is, if and only
if they are valid and the stream starts over behind the remainder. -/
theorem scan_eq_iff_restarts {tail : List β} : F.scan (tail ++ F.encodeAll rs) = rs ↔
      (∀ r ∈ rs, F.Valid r) ∧ Restarts F tail (F.encodeAll rs) := by
  constructor
  · intro h
    obtain ⟨rest, hs⟩ := scans_scan (F := F) (tail ++ F.encodeAll rs)
    rw [h] at hs
    exact ⟨hs.valid, rest, hs.split, hs.damaged⟩
  · rintro ⟨hvalid, rest, hsplit, hrest⟩
    exact Scans.scan_eq ⟨hsplit, hvalid, hrest⟩

end Framing
