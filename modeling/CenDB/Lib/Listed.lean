import CenDB.Lib.Reader

/-! # Texts that are read as lists

`Listed` says of a text, and of what it leaves, that it is a list with separators; `Spoilt` says that behind
some items there is one that is spoilt.  An item is a value behind what leads to it.  If the reader of the
items returns on the one and fails on the other, so does the reader of the list (`separated_ok_iff`,
`separated_error_iff`). -/

namespace Reader

open List

variable {β ε α : Type}

/-- Items from the first to the closing symbol, and what is left. -/
inductive Listed (lead val : List β → List β → Prop) (blank : β → Bool) (sep close : β) : List β → List β → Prop
  | last {bs start mid rest} (hlead : lead bs start) (hval : val start mid)
    (hclose : mid.dropWhile blank = close :: rest) : Listed lead val blank sep close bs rest
  | more {bs start mid next rest} (hlead : lead bs start) (hval : val start mid)
    (hsep : mid.dropWhile blank = sep :: next) (hrest : Listed lead val blank sep close next rest) :
    Listed lead val blank sep close bs rest

/-- Items, and then one of which the lead or the value is spoilt. -/
inductive Spoilt (lead val : List β → List β → Prop) (badLead badVal : List β → Prop) (blank : β → Bool) (sep : β) :
    List β → Prop
  | lead {bs} (h : badLead bs) : Spoilt lead val badLead badVal blank sep bs
  | val {bs start} (hlead : lead bs start) (h : badVal start) : Spoilt lead val badLead badVal blank sep bs
  | later {bs start mid next} (hlead : lead bs start) (hval : val start mid)
    (hsep : mid.dropWhile blank = sep :: next) (hrest : Spoilt lead val badLead badVal blank sep next) :
    Spoilt lead val badLead badVal blank sep bs

section
variable [DecidableEq β] {item : Reader β ε α} {blank : β → Bool} {sep close : β} {err : List β → ε}

omit [DecidableEq β] in
/-- A separator takes a symbol. -/
theorem length_next_lt {bs mid next : List β} (hshort : mid.length ≤ bs.length)
    (hsep : mid.dropWhile blank = sep :: next) : next.length < bs.length := by
  have hdrop := (dropWhile_suffix (l := mid) blank).length_le
  rw [hsep, length_cons] at hdrop
  exact hdrop.trans hshort

variable {lead val : List β → List β → Prop} {L n : ℕ} {bs rest : List β}
  (hitem : ∀ bs mid, bs.length ≤ L → ((∃ a, item bs = .ok (a, mid)) ↔ ∃ start, lead bs start ∧ val start mid))
  (hshort : ∀ bs a mid, bs.length ≤ L → item bs = .ok (a, mid) → mid.length ≤ bs.length)

include hitem hshort

theorem items_ok_iff (hne : sep ≠ close) (hn : bs.length < n) (hL : bs.length ≤ L) :
    (∃ as, items item blank sep close err n bs = .ok (as, rest)) ↔ Listed lead val blank sep close bs rest := by
  induction n generalizing bs with
  | zero => cases hn
  | succ n ih =>
    have hnext : ∀ {a mid next}, item bs = .ok (a, mid) → mid.dropWhile blank = sep :: next →
        next.length < n ∧ next.length ≤ L := fun {a mid next} hread hsep => by
      have hlt := length_next_lt (hshort bs a mid hL hread) hsep
      omega
    constructor
    · rintro ⟨as, has⟩
      rw [items_succ] at has
      split at has
      · cases has
      rename_i a mid hread
      obtain ⟨start, hlead, hval⟩ := (hitem bs mid hL).mp ⟨a, hread⟩
      split at has
      · cases has
      rename_i b next hdrop
      split_ifs at has with hsep hclose
      · subst hsep
        obtain ⟨hlt, hle⟩ := hnext hread hdrop
        cases hitems : items item blank b close err n next with
        | error e =>
          rw [hitems] at has
          cases has
        | ok read =>
          rw [hitems] at has
          cases has
          exact .more hlead hval hdrop ((ih hlt hle).mp ⟨read.1, hitems⟩)
      · subst hclose
        cases has
        exact .last hlead hval hdrop
    · intro h
      cases h with
      | last hlead hval hclose =>
        obtain ⟨a, hread⟩ := (hitem bs _ hL).mpr ⟨_, hlead, hval⟩
        rw [items_succ, hread]
        simp only [hclose, if_neg hne.symm, if_pos]
        exact ⟨[a], rfl⟩
      | more hlead hval hsep hrest =>
        obtain ⟨a, hread⟩ := (hitem bs _ hL).mpr ⟨_, hlead, hval⟩
        obtain ⟨hlt, hle⟩ := hnext hread hsep
        obtain ⟨as, has⟩ := (ih hlt hle).mpr hrest
        rw [items_succ, hread]
        simp only [hsep, if_pos, has]
        exact ⟨a :: as, rfl⟩

variable {e : ε} {badLead badVal : List β → Prop}

/-- An error that only the items report is reported for the list if an item is spoilt. -/
theorem items_error_iff (herr : ∀ rest, err rest ≠ e)
    (hbad : ∀ bs, bs.length ≤ L → (item bs = .error e ↔ badLead bs ∨ ∃ start, lead bs start ∧ badVal start))
    (hn : bs.length < n) (hL : bs.length ≤ L) :
    items item blank sep close err n bs = .error e ↔ Spoilt lead val badLead badVal blank sep bs := by
  induction n generalizing bs with
  | zero => cases hn
  | succ n ih =>
    have hnext : ∀ {a mid next}, item bs = .ok (a, mid) → mid.dropWhile blank = sep :: next →
        next.length < n ∧ next.length ≤ L := fun {a mid next} hread hsep => by
      have hlt := length_next_lt (hshort bs a mid hL hread) hsep
      omega
    constructor
    · intro h
      rw [items_succ] at h
      split at h
      · rename_i e' hread
        cases h
        rcases (hbad bs hL).mp hread with hlead | ⟨start, hlead, hval⟩
        · exact .lead hlead
        · exact .val hlead hval
      rename_i a mid hread
      obtain ⟨start, hlead, hval⟩ := (hitem bs mid hL).mp ⟨a, hread⟩
      split at h
      · cases h
        exact absurd rfl (herr [])
      rename_i b next hdrop
      split_ifs at h with hsep hclose
      · subst hsep
        obtain ⟨hlt, hle⟩ := hnext hread hdrop
        cases hitems : items item blank b close err n next with
        | error e' =>
          rw [hitems] at h
          cases h
          exact .later hlead hval hdrop ((ih hlt hle).mp hitems)
        | ok read =>
          rw [hitems] at h
          cases h
      · cases h
        exact absurd rfl (herr _)
    · intro h
      rw [items_succ]
      cases h with
      | lead hlead => rw [(hbad bs hL).mpr (Or.inl hlead)]
      | val hlead hval => rw [(hbad bs hL).mpr (Or.inr ⟨_, hlead, hval⟩)]
      | later hlead hval hsep hrest =>
        obtain ⟨a, hread⟩ := (hitem bs _ hL).mpr ⟨_, hlead, hval⟩
        obtain ⟨hlt, hle⟩ := hnext hread hsep
        rw [hread]
        simp only [hsep, if_pos, (ih hlt hle).mpr hrest]
        rfl

theorem separated_ok_iff (hne : sep ≠ close) (hL : bs.length ≤ L) :
    (∃ as, separated item blank sep close err bs = .ok (as, rest)) ↔
      bs.dropWhile blank = close :: rest ∨ (∀ after, bs.dropWhile blank ≠ close :: after) ∧
        Listed lead val blank sep close (bs.dropWhile blank) rest := by
  have hle := (dropWhile_suffix (l := bs) blank).length_le
  rw [separated_eq]
  split_ifs with hhead
  · obtain ⟨after, hafter⟩ := head?_eq_some_iff.mp hhead
    rw [hafter]
    constructor
    · simp
    · simp
  · have hopen : ∀ after, bs.dropWhile blank ≠ close :: after := fun after h => hhead (by rw [h, head?_cons])
    rw [items_ok_iff hitem hshort hne (Nat.lt_succ_of_le hle) (hle.trans hL), or_iff_right (hopen rest),
      and_iff_right hopen]

theorem separated_error_iff (herr : ∀ rest, err rest ≠ e)
    (hbad : ∀ bs, bs.length ≤ L → (item bs = .error e ↔ badLead bs ∨ ∃ start, lead bs start ∧ badVal start))
    (hL : bs.length ≤ L) :
    separated item blank sep close err bs = .error e ↔ (∀ after, bs.dropWhile blank ≠ close :: after) ∧
        Spoilt lead val badLead badVal blank sep (bs.dropWhile blank) := by
  have hle := (dropWhile_suffix (l := bs) blank).length_le
  rw [separated_eq]
  split_ifs with hhead
  · obtain ⟨after, hafter⟩ := head?_eq_some_iff.mp hhead
    exact iff_of_false nofun fun h => h.1 after hafter
  · have hopen : ∀ after, bs.dropWhile blank ≠ close :: after := fun after h => hhead (by rw [h, head?_cons])
    rw [items_error_iff hitem hshort herr hbad (Nat.lt_succ_of_le hle) (hle.trans hL), and_iff_right hopen]

end

end Reader
