import CenDB.Lib.Reader

/-! # Operands and operators

`chain` reads operators and operands behind a first operand and combines them from the left; `leftAssoc` reads
the first operand too.  A list with separators is such a chain as well.

`Opens r stop bs a` says that `r` takes `bs` and goes on as a chain behind the operand `a`, so that a chain may
be read operator by operator (`Opens.append`).  `Consumes` says what any run of a reader takes; for chains
it is an invariant of what has been read so far (`Consumes.leftAssoc`). -/

namespace Reader

open List

variable {β ε α γ ω : Type}

/-! ### What a reader takes -/

/-- The outcome of a reader on `bs`: it fails as `fails` allows, or it takes some symbols that `P` allows, with
the value it returns, and leaves some that `I` allows. -/
def Outcome (I : List β → Prop) (fails : ε → Prop) (P : List β → α → Prop) (bs : List β)
    (result : Except ε (α × List β)) : Prop :=
  (∃ e, result = .error e ∧ fails e) ∨
    ∃ taken rest a, bs = taken ++ rest ∧ result = .ok (a, rest) ∧ I rest ∧ P taken a

/-- The outcome on at most `n` symbols that `I` allows. -/
def Consumes (I : List β → Prop) (fails : ε → Prop) (n : ℕ) (r : Reader β ε α) (P : List β → α → Prop) : Prop :=
  ∀ bs, I bs → bs.length ≤ n → Outcome I fails P bs (r bs)

section consumes

variable {I : List β → Prop} {fails : ε → Prop} {n m : ℕ} {r : Reader β ε α} {f : α → Reader β ε γ}
  {P : List β → α → Prop} {Q : List β → γ → Prop}

/-- A symbol that has been taken before. -/
theorem Outcome.cons {result : Except ε (α × List β)} {b : β} {bs : List β}
    (h : Outcome I fails (fun taken => P (b :: taken)) bs result) : Outcome I fails P (b :: bs) result := by
  rcases h with herror | ⟨taken, rest, a, rfl, hresult, hrest, ha⟩
  · exact .inl herror
  · exact .inr ⟨b :: taken, rest, a, rfl, hresult, hrest, ha⟩

theorem Consumes.mono {P' : List β → α → Prop} (h : Consumes I fails n r P) (hm : m ≤ n)
    (hP : ∀ taken a, P taken a → P' taken a) : Consumes I fails m r P' := by
  intro bs hbs hlen
  rcases h bs hbs (hlen.trans hm) with herror | ⟨taken, rest, a, heq, hr, hrest, ha⟩
  · exact .inl herror
  · exact .inr ⟨taken, rest, a, heq, hr, hrest, hP taken a ha⟩

theorem Consumes.pure {a : α} (ha : P [] a) : Consumes I fails n (Pure.pure a : Reader β ε α) P :=
  fun bs hbs _ => .inr ⟨[], bs, a, rfl, rfl, hbs, ha⟩

/-- **One reader after the other.** -/
theorem Consumes.bind (hr : Consumes I fails n r P) (hf : ∀ taken a, taken.length ≤ n → P taken a →
      Consumes I fails (n - taken.length) (f a) fun more c => Q (taken ++ more) c) :
    Consumes I fails n (r >>= f) Q := by
  intro bs hbs hlen
  rcases hr bs hbs hlen with ⟨e, he, hfails⟩ | ⟨taken, mid, a, rfl, hread, hmid, ha⟩
  · refine .inl ⟨e, ?_, hfails⟩
    simp only [Bind.bind, StateT.bind, he, Except.bind]
  · rw [length_append] at hlen
    have hbind : (r >>= f) (taken ++ mid) = f a mid := by
      simp only [Bind.bind, StateT.bind, hread, Except.bind]
    rcases hf taken a (by omega) ha mid hmid (by omega) with ⟨e, he, hfails⟩ | ⟨more, rest, c, rfl, hread', hrest, hc⟩
    · exact .inl ⟨e, hbind.trans he, hfails⟩
    · exact .inr ⟨taken ++ more, rest, c, (append_assoc _ _ _).symm, hbind.trans hread', hrest, hc⟩

theorem Consumes.map {g : α → γ} (hr : Consumes I fails n r fun taken a => Q taken (g a)) :
    Consumes I fails n (g <$> r) Q := by
  intro bs hbs hlen
  rcases hr bs hbs hlen with ⟨e, he, hfails⟩ | ⟨taken, rest, a, heq, hread, hrest, ha⟩
  · refine .inl ⟨e, ?_, hfails⟩
    simp only [Functor.map, StateT.map, Bind.bind, he, Except.bind]
  · exact .inr ⟨taken, rest, g a, heq, map_eq_ok.mpr ⟨a, hread, rfl⟩, hrest, ha⟩

/-- What a reader takes does not depend on how many symbols there are. -/
theorem Consumes.of_eq_ok (h : ∀ n, Consumes I fails n r P) {bs rest : List β} {a : α} (hbs : I bs)
    (hr : r bs = .ok (a, rest)) : ∃ taken, bs = taken ++ rest ∧ I rest ∧ P taken a := by
  rcases h bs.length bs hbs le_rfl with ⟨e, he, -⟩ | ⟨taken, rest', a', heq, hr', hrest, ha⟩
  · rw [hr] at he
    cases he
  · rw [hr] at hr'
    cases hr'
    exact ⟨taken, heq, hrest, ha⟩

end consumes

/-! ### Chains -/

section chain

variable (operand : Reader β ε α) (operator : Reader β ε (Option ω)) (combine : ω → α → α → α) (err : ε)

/-- At most `n` operators, with an operand after each. -/
def chainFrom : ℕ → α → Reader β ε α
  | 0, _ => throw err
  | n + 1, lhs => do
    match ← operator with
    | some op => do
      let rhs ← operand
      chainFrom n (combine op lhs rhs)
    | none => return lhs

/-- The operators behind an operand.  Each takes a symbol or more. -/
def chain (lhs : α) : Reader β ε α := fun rest => chainFrom operand operator combine err (rest.length + 1) lhs rest

/-- Operands with operators between them. -/
def leftAssoc : Reader β ε α := operand >>= chain operand operator combine err

/-- In front of what `stop` allows, `r` takes `bs` and goes on behind the operand `a`. -/
def Opens (r : Reader β ε α) (stop : List β → Prop) (bs : List β) (a : α) : Prop :=
  ∀ rest, stop rest → ∃ n, rest.length < n ∧ r (bs ++ rest) = chainFrom operand operator combine err n a rest

variable {operand operator combine err} {r : Reader β ε α} {stop P : List β → Prop} {bs cs ds : List β} {a b : α}

theorem opens_chain (a : α) : Opens operand operator combine err (chain operand operator combine err a) stop [] a :=
  fun rest _ => ⟨rest.length + 1, Nat.lt_succ_self _, rfl⟩

theorem Takes.opens (h : Takes operand stop bs a) :
    Opens operand operator combine err (leftAssoc operand operator combine err) stop bs a := by
  intro rest hrest
  refine ⟨rest.length + 1, Nat.lt_succ_self _, ?_⟩
  simp only [leftAssoc, Bind.bind, StateT.bind, h rest hrest, Except.bind]
  rfl

/-- **One more operator and its operand.** -/
theorem Opens.append {op : ω} (h : Opens operand operator combine err r stop bs a) (hcs : cs ≠ [])
    (hop : Takes operator P cs (some op)) (hoperand : Takes operand stop ds b)
    (hP : ∀ rest, stop rest → P (ds ++ rest)) (hstop : ∀ rest, stop rest → stop (cs ++ (ds ++ rest))) :
    Opens operand operator combine err r stop (bs ++ (cs ++ ds)) (combine op a b) := by
  intro rest hrest
  obtain ⟨n, hn, hread⟩ := h _ (hstop rest hrest)
  obtain ⟨n, rfl⟩ := Nat.exists_eq_add_of_lt hn
  refine ⟨(cs ++ (ds ++ rest)).length + n, ?_, ?_⟩
  · have hpos := length_pos_iff.mpr hcs
    simp only [length_append]
    omega
  · rw [append_assoc, append_assoc, hread]
    simp only [chainFrom, Bind.bind, StateT.bind, hop _ (hP rest hrest), hoperand rest hrest, Except.bind]

/-- A chain ends in front of what is no operator. -/
theorem Opens.takes (h : Opens operand operator combine err r stop bs a) {stop' : List β → Prop}
    (hstop : ∀ rest, stop' rest → stop rest) (hnone : ∀ rest, stop' rest → operator rest = .ok (none, rest)) :
    Takes r stop' bs a := by
  intro rest hrest
  obtain ⟨n, hn, hread⟩ := h rest (hstop rest hrest)
  obtain ⟨n, rfl⟩ := Nat.exists_eq_add_of_lt hn
  rw [hread]
  simp only [chainFrom, Bind.bind, StateT.bind, hnone rest hrest, Except.bind]
  rfl

/-- Some more operators and operands, given by a list. -/
theorem Opens.flatMap {δ : Type} {items : List δ} {text₁ text₂ : δ → List β} (op : δ → ω) (val : δ → α)
    (h : Opens operand operator combine err r stop bs a) (hne : ∀ d ∈ items, text₁ d ≠ [])
    (hop : ∀ d ∈ items, Takes operator P (text₁ d) (some (op d)))
    (hoperand : ∀ d ∈ items, Takes operand stop (text₂ d) (val d))
    (hP : ∀ d ∈ items, ∀ rest, stop rest → P (text₂ d ++ rest))
    (hstop : ∀ d ∈ items, ∀ rest, stop rest → stop (text₁ d ++ (text₂ d ++ rest))) :
    Opens operand operator combine err r stop (bs ++ items.flatMap fun d => text₁ d ++ text₂ d)
      (items.foldl (fun a d => combine (op d) a (val d)) a) := by
  induction items generalizing bs a with
  | nil => rwa [flatMap_nil, append_nil]
  | cons d items ih =>
    rw [forall_mem_cons] at hne hop hoperand hP hstop
    have hfirst := h.append hne.1 hop.1 hoperand.1 hP.1 hstop.1
    have hitems := ih hfirst hne.2 hop.2 hoperand.2 hP.2 hstop.2
    rwa [append_assoc] at hitems

/-! ### What a chain takes -/

variable {I : List β → Prop} {fails : ε → Prop} {n : ℕ} {O : List β → Option ω → Prop} {Q R : List β → α → Prop}

theorem consumes_chainFrom {k : ℕ} (hk : n < k) (hoperand : Consumes I fails n operand Q)
    (hoperator : Consumes I fails n operator O) (hnone : ∀ taken, O taken none → taken = [])
    (hsome : ∀ taken op, O taken (some op) → taken ≠ [])
    (hstep : ∀ ta tc tb a b op, R ta a → O tc (some op) → Q tb b → R (ta ++ (tc ++ tb)) (combine op a b))
    {ta : List β} (ha : R ta a) :
    Consumes I fails n (chainFrom operand operator combine err k a) fun more c => R (ta ++ more) c := by
  induction k generalizing n a ta with
  | zero => exact absurd hk (Nat.not_lt_zero _)
  | succ k ih =>
    refine hoperator.bind fun tc op htc hop => ?_
    cases op with
    | none =>
      refine Consumes.pure ?_
      rw [hnone tc hop, append_nil, append_nil]
      exact ha
    | some op =>
      have hpos := length_pos_iff.mpr (hsome tc op hop)
      refine (hoperand.mono (Nat.sub_le _ _) fun _ _ h => h).bind fun tb b _ hb => ?_
      have hle : n - tc.length - tb.length ≤ n := (Nat.sub_le _ _).trans (Nat.sub_le _ _)
      have hrest := ih (n := n - tc.length - tb.length) (by omega) (hoperand.mono hle fun _ _ h => h)
        (hoperator.mono hle fun _ _ h => h) (hstep ta tc tb a b op ha hop hb)
      refine hrest.mono le_rfl fun more c hc => ?_
      simpa only [append_assoc] using hc

/-- **A chain keeps what every operator and its operand keep.** -/
theorem consumes_chain (hoperand : Consumes I fails n operand Q) (hoperator : Consumes I fails n operator O)
    (hnone : ∀ taken, O taken none → taken = []) (hsome : ∀ taken op, O taken (some op) → taken ≠ [])
    (hstep : ∀ ta tc tb a b op, R ta a → O tc (some op) → Q tb b → R (ta ++ (tc ++ tb)) (combine op a b))
    {ta : List β} (ha : R ta a) :
    Consumes I fails n (chain operand operator combine err a) fun more c => R (ta ++ more) c := by
  intro bs hbs hlen
  exact consumes_chainFrom (Nat.lt_succ_self _) (hoperand.mono hlen fun _ _ h => h)
    (hoperator.mono hlen fun _ _ h => h) hnone hsome hstep ha bs hbs le_rfl

theorem Consumes.leftAssoc (hoperand : Consumes I fails n operand Q) (hoperator : Consumes I fails n operator O)
    (hnone : ∀ taken, O taken none → taken = []) (hsome : ∀ taken op, O taken (some op) → taken ≠ [])
    (hfirst : ∀ taken a, Q taken a → R taken a)
    (hstep : ∀ ta tc tb a b op, R ta a → O tc (some op) → Q tb b → R (ta ++ (tc ++ tb)) (combine op a b)) :
    Consumes I fails n (leftAssoc operand operator combine err) R :=
  hoperand.bind fun ta a _ ha => consumes_chain (hoperand.mono (Nat.sub_le _ _) fun _ _ h => h)
    (hoperator.mono (Nat.sub_le _ _) fun _ _ h => h) hnone hsome hstep (hfirst ta a ha)

end chain

end Reader
