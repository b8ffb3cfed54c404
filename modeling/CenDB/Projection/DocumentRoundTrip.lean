import CenDB.Projection.Document

/-! # A CenDoc document reads back

What the builder has written stays where it is, except for the tables it fills in; so a value is
read back from any document that has, from the value's offset on, what the builder had when the
value was complete (`Reads`). -/

namespace CenDB.Projection

open Words List UInt32

/-! ### Tables -/

/-- Filling in a reserved table puts its entries there. -/
theorem writeTable_append (table : List (List UInt8)) (front reserved rest : List UInt8)
    (h : reserved.length = table.flatten.length) :
    writeTable front.length table (front ++ reserved ++ rest) = front ++ table.flatten ++ rest := by
  induction table generalizing front reserved with
  | nil =>
    have hr : reserved = [] := eq_nil_of_length_eq_zero (by simpa using h)
    simp [writeTable, hr]
  | cons entry table ih =>
    rw [flatten_cons, length_append] at h
    have hp : patch front.length entry (front ++ reserved ++ rest) =
        (front ++ entry) ++ reserved.drop entry.length ++ rest := by
      have hle : entry.length ≤ reserved.length := by omega
      simp [patch, drop_append_of_le_length hle, append_assoc]
    have hl : (reserved.drop entry.length).length = table.flatten.length := by
      rw [length_drop]
      omega
    have hi := ih (front ++ entry) (reserved.drop entry.length) hl
    rw [length_append] at hi
    rw [writeTable, hp, hi]
    simp

theorem length_flatten_map {α : Type*} {f : α → List UInt8} {w : ℕ} (hf : ∀ a, (f a).length = w)
    (xs : List α) : (xs.map f).flatten.length = xs.length * w := by
  rw [← flatMap_def]
  exact length_flatMap fun a _ => hf a

namespace CenDocBuilder

/-! ### What the builder keeps -/

/-- `b'` has everything that `b` has. -/
structure Extends (b b' : CenDocBuilder) : Prop where
  out : b.out <+: b'.out
  pool : b.stringPool <+: b'.stringPool

theorem Extends.refl (b : CenDocBuilder) : Extends b b := ⟨prefix_rfl, prefix_rfl⟩

variable {b : CenDocBuilder}

theorem Extends.trans {b' b'' : CenDocBuilder} (h : Extends b b') (h' : Extends b' b'') : Extends b b'' :=
  ⟨h.out.trans h'.out, h.pool.trans h'.pool⟩

theorem extends_push (bytes : List UInt8) (b : CenDocBuilder) : Extends b (b.push bytes) :=
  ⟨prefix_append _ _, prefix_rfl⟩

/-- A string in the pool. -/
def poolEntry (s : String) : List UInt8 := toLE 4 (stringBytes s).length ++ stringBytes s

/-- Every interned string is in the pool, at its id. -/
def Interned (b : CenDocBuilder) : Prop :=
  ∀ s id, b.strings.lookup s = some id →
    ∃ before, before ++ poolEntry s <+: b.stringPool ∧ id = UInt32.ofNat before.length

theorem interned_new : Interned new := by
  intro s id h
  simp [new] at h

theorem Interned.push (h : Interned b) (bytes : List UInt8) : Interned (b.push bytes) := h

end CenDocBuilder

open CenDocBuilder

/-! ### Documents that have what a builder wrote -/

/-- The document has the builder's bytes from `lo` on, and its pool. -/
structure Reads (doc : CenDoc) (lo : ℕ) (b : CenDocBuilder) : Prop where
  out : b.out.drop lo <+: doc.bytes.drop lo
  pool : b.stringPool <+: doc.bytes.drop doc.header.stringPoolOff.toNat
  length_le : b.out.length ≤ doc.bytes.length
  small : doc.bytes.length < 2 ^ 32

namespace Reads

variable {doc : CenDoc} {b : CenDocBuilder}

theorem mono {lo lo' : ℕ} {b' : CenDocBuilder} (h : Reads doc lo b') (hb : Extends b b') (hlo : lo ≤ lo') :
    Reads doc lo' b where
  out := by
    have hd := h.out.drop (lo' - lo)
    rw [drop_drop, drop_drop, Nat.add_sub_cancel' hlo] at hd
    exact (hb.out.drop lo').trans hd
  pool := hb.pool.trans h.pool
  length_le := hb.out.length_le.trans h.length_le
  small := h.small

/-- The builder's last bytes are in the document. -/
theorem drop_eq {front bytes : List UInt8} (h : Reads doc front.length b) (hb : b.out = front ++ bytes) :
    ∃ rest, doc.bytes.drop front.length = bytes ++ rest := by
  obtain ⟨rest, hr⟩ := h.out
  refine ⟨rest, ?_⟩
  rw [← hr, hb, drop_left]

end Reads

theorem headU32_append {x : ℕ} (h : x < 2 ^ 32) (rest : List UInt8) :
    (headU32 (toLE 4 x ++ rest)).toNat = x := by
  rw [headU32, take_append_of_le_length (by simp), take_of_length_le (by simp),
    fromLE_toLE, toNat_ofNat']
  omega

@[simp] theorem headU32_toLE (x : UInt32) (rest : List UInt8) :
    headU32 (toLE 4 x.toNat ++ rest) = x := by
  rw [headU32, take_append_of_le_length (by simp), take_of_length_le (by simp), ofNat_fromLE_toLE_32]

/-! ### Strings -/

/-- A string of the pool is read back. -/
theorem readString_of_pool {doc : CenDoc} {before : List UInt8} {s : String}
    (h : before ++ poolEntry s <+: doc.bytes.drop doc.header.stringPoolOff.toNat)
    (hs : doc.bytes.length < 2 ^ 32) : doc.readString before.length = .ok s := by
  obtain ⟨rest, hr⟩ := h
  have hl := congrArg List.length hr
  simp only [poolEntry, length_append, length_drop, toLE_length] at hl
  have hp : doc.findStringPool = .ok doc.header.stringPoolOff.toNat := by
    rw [CenDoc.findStringPool, if_neg (by omega)]
  have he : doc.bytes.drop (doc.header.stringPoolOff.toNat + before.length) =
      toLE 4 (stringBytes s).length ++ (stringBytes s ++ rest) := by
    rw [← drop_drop, ← hr, append_assoc, drop_left, poolEntry, append_assoc]
  have hlen := headU32_append (x := (stringBytes s).length) (by omega) (stringBytes s ++ rest)
  have hd : (toLE 4 (stringBytes s).length ++ (stringBytes s ++ rest)).drop 4 =
      stringBytes s ++ rest := drop_left' (toLE_length 4 _)
  simp only [CenDoc.readString, hp, he, bind, Except.bind, hlen, hd]
  rw [if_neg (by simp), if_neg (by simp), take_left, stringBytes, Utf8.lossy_encode, String.ofList_toList]

namespace CenDocBuilder

theorem internString_out (s : String) (b : CenDocBuilder) : (b.internString s).2.out = b.out := by
  unfold internString
  cases b.strings.lookup s <;> rfl

theorem extends_internString (s : String) (b : CenDocBuilder) : Extends b (b.internString s).2 := by
  refine ⟨by rw [internString_out], ?_⟩
  unfold internString
  cases b.strings.lookup s with
  | none => exact ⟨_, (append_assoc ..).symm⟩
  | some id => exact prefix_rfl

variable {b : CenDocBuilder} {doc : CenDoc} {fields : List (String × DocValue)} {v : DocValue}

variable {s : String} {lo levels : ℕ} {entries : List (UInt32 × UInt32)} {items : List DocValue}
  {b₂ : CenDocBuilder} {head reserved : List UInt8} {table : List (List UInt8)}
  {r : List (UInt32 × UInt32) × CenDocBuilder} {rv : ℕ × CenDocBuilder}

theorem Interned.mono {id : UInt32} {pool : List UInt8} (hp : b.stringPool <+: pool)
    (h : ∃ before, before ++ poolEntry s <+: b.stringPool ∧ id = UInt32.ofNat before.length) :
    ∃ before, before ++ poolEntry s <+: pool ∧ id = UInt32.ofNat before.length := by
  obtain ⟨before, hb, hid⟩ := h
  exact ⟨before, hb.trans hp, hid⟩

/-- After a string is interned, it and the strings before it are in the pool. -/
theorem interned_internString (h : Interned b) (s : String) : Interned (b.internString s).2 ∧
      (b.internString s).2.strings.lookup s = some (b.internString s).1 := by
  unfold internString
  cases hl : b.strings.lookup s with
  | some id => exact ⟨h, hl⟩
  | none =>
    refine ⟨fun t id ht => ?_, AList.lookup_insert _⟩
    have hpool : b.stringPool <+: b.stringPool ++ toLE 4 (stringBytes s).length ++ stringBytes s :=
      ⟨_, (append_assoc ..).symm⟩
    by_cases hts : t = s
    · subst hts
      rw [AList.lookup_insert, Option.some.injEq] at ht
      refine ⟨b.stringPool, ?_, ht.symm⟩
      rw [poolEntry, append_assoc]
    · rw [AList.lookup_insert_ne hts] at ht
      exact Interned.mono hpool (h t id ht)

/-- The id of an interned string reads back the string. -/
theorem readString_internString (h : Interned b) (hr : Reads doc lo (b.internString s).2) :
    doc.readString (b.internString s).1.toNat = .ok s := by
  obtain ⟨hi, hl⟩ := interned_internString h s
  obtain ⟨before, hp, hid⟩ := hi s _ hl
  have hle := (hp.trans hr.pool).length_le
  rw [length_append, length_drop] at hle
  have hsmall := hr.small
  have hn : (b.internString s).1.toNat = before.length := by
    rw [hid, toNat_ofNat']
    omega
  rw [hn]
  exact readString_of_pool (hp.trans hr.pool) hsmall

/-! ### What an encoder's result has to be -/

/-- A table whose entries read back the fields. -/
def FieldTable (doc : CenDoc) (levels : ℕ) (entries : List (UInt32 × UInt32))
    (fields : List (String × DocValue)) : Prop :=
  List.Forall₂ (fun e f => doc.readString e.1.toNat = .ok f.1 ∧
    doc.decodeValueAtDepth levels e.2.toNat = .ok f.2) entries fields

def ItemTable (doc : CenDoc) (levels : ℕ) (offsets : List UInt32) (items : List DocValue) : Prop :=
  List.Forall₂ (fun off v => doc.decodeValueAtDepth levels off.toNat = .ok v) offsets items

/-- The bytes of a table. -/
def fieldBytes (entries : List (UInt32 × UInt32)) : List UInt8 :=
  (entries.map fun e => toLE 4 e.1.toNat ++ toLE 4 e.2.toNat).flatten

def itemBytes (offsets : List UInt32) : List UInt8 := (offsets.map fun off => toLE 4 off.toNat).flatten

/-- The first entry of a table and what follows it. -/
theorem fieldBytes_cons (e : UInt32 × UInt32) (entries : List (UInt32 × UInt32)) (rest : List UInt8) :
    ¬(fieldBytes (e :: entries) ++ rest).length < 8 ∧ headU32 (fieldBytes (e :: entries) ++ rest) = e.1 ∧
      headU32 ((fieldBytes (e :: entries) ++ rest).drop 4) = e.2 ∧
      (fieldBytes (e :: entries) ++ rest).drop 8 = fieldBytes entries ++ rest := by
  have hb : fieldBytes (e :: entries) ++ rest =
      toLE 4 e.1.toNat ++ (toLE 4 e.2.toNat ++ (fieldBytes entries ++ rest)) := by simp [fieldBytes]
  have hd : (fieldBytes (e :: entries) ++ rest).drop 4 = toLE 4 e.2.toNat ++ (fieldBytes entries ++ rest) := by
    rfl
  refine ⟨?_, by rw [hb, headU32_toLE], by rw [hd, headU32_toLE], ?_⟩
  · rw [hb]
    simp only [length_append, toLE_length]
    omega
  · have h8 : (fieldBytes (e :: entries) ++ rest).drop 8 =
        ((fieldBytes (e :: entries) ++ rest).drop 4).drop 4 := by rw [drop_drop]
    rw [h8, hd]
    exact drop_left' (toLE_length 4 _)

theorem itemBytes_cons (off : UInt32) (offsets : List UInt32) (rest : List UInt8) :
    ¬(itemBytes (off :: offsets) ++ rest).length < 4 ∧ headU32 (itemBytes (off :: offsets) ++ rest) = off ∧
      (itemBytes (off :: offsets) ++ rest).drop 4 = itemBytes offsets ++ rest := by
  have hb : itemBytes (off :: offsets) ++ rest =
      toLE 4 off.toNat ++ (itemBytes offsets ++ rest) := by simp [itemBytes]
  refine ⟨?_, by rw [hb, headU32_toLE], ?_⟩
  · simp [hb]
  · rfl

theorem decodeFields_fieldBytes (h : FieldTable doc levels entries fields) (rest : List UInt8) :
    doc.decodeFields (doc.decodeValueAtDepth levels) fields.length (fieldBytes entries ++ rest) =
      .ok fields := by
  induction h with
  | nil => rfl
  | @cons e f entries fields he _ ih =>
    obtain ⟨hlen, hname, hval, hnext⟩ := fieldBytes_cons e entries rest
    rw [length_cons, CenDoc.decodeFields, if_neg hlen, hname, hval, hnext, he.1, he.2, ih]
    rfl

theorem decodeItems_itemBytes {offsets : List UInt32} (h : ItemTable doc levels offsets items)
    (rest : List UInt8) :
    CenDoc.decodeItems (doc.decodeValueAtDepth levels) items.length (itemBytes offsets ++ rest) =
      .ok items := by
  induction h with
  | nil => rfl
  | @cons off v offsets items hv _ ih =>
    obtain ⟨hlen, hval, hnext⟩ := itemBytes_cons off offsets rest
    rw [length_cons, CenDoc.decodeItems, if_neg hlen, hval, hnext, hv, ih]
    rfl

/-- The lookup stops at the first field of the name. -/
theorem getFieldFrom_fieldBytes (h : FieldTable doc (CenDoc.maxDepth + 1) entries fields) (name : String)
    (rest : List UInt8) :
    doc.getFieldFrom name fields.length (fieldBytes entries ++ rest) =
      .ok ((DocValue.object fields).get name) := by
  induction h with
  | nil => rfl
  | @cons e f entries fields he _ ih =>
    obtain ⟨hlen, hname, hval, hnext⟩ := fieldBytes_cons e entries rest
    rw [length_cons, CenDoc.getFieldFrom, if_neg hlen, hname, hval, hnext, he.1]
    by_cases hf : f.1 = name
    · simp [bind, Except.bind, hf, CenDoc.decodeValueAt, he.2, DocValue.get, Except.map]
    · simp only [bind, Except.bind, hf, if_false, ih]
      simp [DocValue.get, hf]

/-- The result of appending a value: it reads back from its offset. -/
structure EncodesValue (b : CenDocBuilder) (v : DocValue) (r : ℕ × CenDocBuilder) : Prop where
  off : r.1 = b.out.length
  keeps : Extends b r.2
  interned : Interned r.2
  decodes : ∀ doc levels, Reads doc b.out.length r.2 → v.depth < levels →
    doc.decodeValueAtDepth levels b.out.length = .ok v

/-- The result of appending the values of an object. -/
structure EncodesFields (b : CenDocBuilder) (fields : List (String × DocValue))
    (r : List (UInt32 × UInt32) × CenDocBuilder) : Prop where
  length : r.1.length = fields.length
  keeps : Extends b r.2
  interned : Interned r.2
  table : ∀ doc levels, Reads doc b.out.length r.2 → DocValue.fieldsDepth fields ≤ levels →
    FieldTable doc levels r.1 fields

structure EncodesItems (b : CenDocBuilder) (items : List DocValue)
    (r : List UInt32 × CenDocBuilder) : Prop where
  length : r.1.length = items.length
  keeps : Extends b r.2
  interned : Interned r.2
  table : ∀ doc levels, Reads doc b.out.length r.2 → DocValue.itemsDepth items ≤ levels →
    ItemTable doc levels r.1 items

/-! ### Every value -/

/-- A value that is one push. -/
theorem encodesValue_push {bytes : List UInt8} (hb : Interned b)
    (h : ∀ doc : CenDoc, ∀ levels rest, b.out.length + bytes.length < 2 ^ 32 → doc.bytes.drop b.out.length = bytes ++ rest → doc.decodeValueAtDepth (levels + 1) b.out.length = .ok v) :
    EncodesValue b v (b.out.length, b.push bytes) where
  off := rfl
  keeps := extends_push bytes b
  interned := hb.push bytes
  decodes := by
    intro doc levels hr hlev
    obtain ⟨rest, hd⟩ := hr.drop_eq rfl
    have hl := hr.length_le
    rw [push, length_append] at hl
    obtain ⟨n, rfl⟩ := Nat.exists_eq_add_of_lt (Nat.zero_lt_of_lt hlev)
    rw [Nat.zero_add]
    exact h doc n rest (hl.trans_lt hr.small) hd

/-- A value with a table: it is reserved before the values `b₂` has are written, and filled in
after them. -/
theorem reserve_spec (h : Extends ((b.push head).push reserved) b₂)
    (hl : reserved.length = table.flatten.length) :
    ∃ rest, writeTable (b.push head).out.length table b₂.out = b.out ++ (head ++ (table.flatten ++ rest)) ∧
      b₂.out.length = (writeTable (b.push head).out.length table b₂.out).length ∧
      b₂.out.drop ((b.push head).push reserved).out.length = rest := by
  obtain ⟨rest, hr⟩ := h.out
  have hw := writeTable_append table (b.push head).out reserved rest hl
  have ho : (b.push head).out ++ reserved ++ rest = b₂.out := hr
  rw [ho] at hw
  refine ⟨rest, ?_, ?_, ?_⟩
  · rw [hw]
    simp [push]
  · rw [hw, ← ho]
    simp [hl]
  · rw [← hr, drop_left]

/-- A document that has a filled table has the values behind it. -/
theorem reads_behind (h : Extends ((b.push head).push reserved) b₂)
    (hl : reserved.length = table.flatten.length)
    (hr : Reads doc b.out.length { b₂ with out := writeTable (b.push head).out.length table b₂.out }) :
    Reads doc ((b.push head).push reserved).out.length b₂ := by
  obtain ⟨rest, hw, hlen, hd⟩ := reserve_spec h hl
  refine ⟨?_, hr.pool, by rw [hlen]; exact hr.length_le, hr.small⟩
  have hp := hr.out.drop (head.length + reserved.length)
  have hfront : ((b.push head).push reserved).out.length = b.out.length + (head.length + reserved.length) := by
    simp [push]
  rw [drop_drop, drop_drop, ← hfront] at hp
  have hrest : (b.out ++ (head ++ (table.flatten ++ rest))).drop
      ((b.push head).push reserved).out.length = rest := by
    rw [← append_assoc, ← append_assoc]
    exact drop_left' (by simp [push, hl])
  rw [hd]
  simpa only [hw, hrest] using hp

theorem encodesValue_str (hb : Interned b) (s : String) : EncodesValue b (.str s) (b.encodeValue (.str s)) := by
  have hi := interned_internString (hb.push [DocKind.str.toU8]) s
  have hk := extends_internString s (b.push [DocKind.str.toU8])
  refine ⟨rfl, ((extends_push _ b).trans hk).trans (extends_push _ _), hi.1.push _, ?_⟩
  intro doc levels hr hlev
  obtain ⟨n, rfl⟩ := Nat.exists_eq_add_of_lt (Nat.zero_lt_of_lt hlev)
  have hs := readString_internString (hb.push [DocKind.str.toU8]) (hr.mono (extends_push _ _) le_rfl)
  have ho : (b.encodeValue (.str s)).2.out = b.out ++ (DocKind.str.toU8 ::
      toLE 4 ((b.push [DocKind.str.toU8]).internString s).1.toNat) := by
    simp [encodeValue, push, internString_out]
  obtain ⟨rest, hd⟩ := hr.drop_eq ho
  simp [CenDoc.decodeValueAtDepth, hd, hs, Except.map]

/-- Where the table of an object is in a document, and what it has. -/
theorem object_table
    (h : EncodesFields ((b.push (DocKind.object.toU8 :: toLE 4 fields.length)).push (List.replicate (fields.length * 8) 0)) fields r)
    (hr : Reads doc b.out.length { r.2 with out := writeTable (b.push (DocKind.object.toU8 :: toLE 4 fields.length)).out.length (r.1.map fun e => toLE 4 e.1.toNat ++ toLE 4 e.2.toNat) r.2.out })
    (hlev : DocValue.fieldsDepth fields ≤ levels) :
    fields.length < 2 ^ 32 ∧ FieldTable doc levels r.1 fields ∧ ∃ rest, doc.bytes.drop b.out.length =
        DocKind.object.toU8 :: (toLE 4 fields.length ++ (fieldBytes r.1 ++ rest)) := by
  have hl : (List.replicate (fields.length * 8) (0 : UInt8)).length =
      (r.1.map fun e => toLE 4 e.1.toNat ++ toLE 4 e.2.toNat).flatten.length := by
    rw [length_replicate, length_flatten_map (w := 8) (by simp), h.length]
  obtain ⟨rest, hw, -, -⟩ := reserve_spec h.keeps hl
  obtain ⟨rest', hd⟩ := hr.drop_eq hw
  refine ⟨?_, h.table doc levels (reads_behind h.keeps hl hr) hlev, rest ++ rest', ?_⟩
  · have hle := hr.length_le
    have hsmall := hr.small
    rw [hw, length_append, length_append, length_append, ← hl, length_replicate] at hle
    omega
  · rw [hd]
    simp [fieldBytes]

theorem encodesValue_object
    (h : EncodesFields ((b.push (DocKind.object.toU8 :: toLE 4 fields.length)).push (List.replicate (fields.length * 8) 0)) fields r) :
    EncodesValue b (.object fields) (b.out.length, { r.2 with
      out := writeTable (b.push (DocKind.object.toU8 :: toLE 4 fields.length)).out.length
        (r.1.map fun e => toLE 4 e.1.toNat ++ toLE 4 e.2.toNat) r.2.out }) := by
  have hl : (List.replicate (fields.length * 8) (0 : UInt8)).length =
      (r.1.map fun e => toLE 4 e.1.toNat ++ toLE 4 e.2.toNat).flatten.length := by
    rw [length_replicate, length_flatten_map (w := 8) (by simp), h.length]
  obtain ⟨_, hw, -, -⟩ := reserve_spec h.keeps hl
  refine ⟨rfl, ⟨⟨_, hw.symm⟩, h.keeps.pool⟩, h.interned, ?_⟩
  intro doc levels hr hlev
  obtain ⟨n, rfl⟩ := Nat.exists_eq_add_of_lt (Nat.zero_lt_of_lt hlev)
  rw [Nat.zero_add] at hlev ⊢
  obtain ⟨hn, ht, rest, hd⟩ := object_table h hr (Nat.lt_succ_iff.mp hlev)
  have hc := headU32_append hn (fieldBytes r.1 ++ rest)
  have hb : (toLE 4 fields.length ++ (fieldBytes r.1 ++ rest)).drop 4 = fieldBytes r.1 ++ rest :=
    drop_left' (toLE_length 4 _)
  have hdec := decodeFields_fieldBytes ht rest
  simp [CenDoc.decodeValueAtDepth, hd, hc, hb, hdec, Except.map]

theorem encodesValue_array {r : List UInt32 × CenDocBuilder}
    (h : EncodesItems ((b.push (DocKind.array.toU8 :: toLE 4 items.length)).push (List.replicate (items.length * 4) 0)) items r) :
    EncodesValue b (.array items) (b.out.length, { r.2 with
      out := writeTable (b.push (DocKind.array.toU8 :: toLE 4 items.length)).out.length
        (r.1.map fun off => toLE 4 off.toNat) r.2.out }) := by
  have hl : (List.replicate (items.length * 4) (0 : UInt8)).length =
      (r.1.map fun off => toLE 4 off.toNat).flatten.length := by
    rw [length_replicate, length_flatten_map (w := 4) (by simp), h.length]
  obtain ⟨rest, hw, -, -⟩ := reserve_spec h.keeps hl
  refine ⟨rfl, ⟨⟨_, hw.symm⟩, h.keeps.pool⟩, h.interned, ?_⟩
  intro doc levels hr hlev
  obtain ⟨n, rfl⟩ := Nat.exists_eq_add_of_lt (Nat.zero_lt_of_lt hlev)
  rw [Nat.zero_add] at hlev ⊢
  have ht := h.table doc n (reads_behind h.keeps hl hr) (Nat.lt_succ_iff.mp hlev)
  obtain ⟨rest', hd⟩ := hr.drop_eq hw
  have hn : items.length < 2 ^ 32 := by
    have hle := hr.length_le
    have hsmall := hr.small
    rw [hw, length_append, length_append, length_append, ← hl, length_replicate] at hle
    omega
  have hc := headU32_append hn (itemBytes r.1 ++ (rest ++ rest'))
  have hb : (toLE 4 items.length ++ (itemBytes r.1 ++ (rest ++ rest'))).drop 4 =
      itemBytes r.1 ++ (rest ++ rest') := drop_left' (toLE_length 4 _)
  have hdec := decodeItems_itemBytes ht (rest ++ rest')
  have hd' : doc.bytes.drop b.out.length = DocKind.array.toU8 ::
      (toLE 4 items.length ++ (itemBytes r.1 ++ (rest ++ rest'))) := by simp [hd, itemBytes]
  simp [CenDoc.decodeValueAtDepth, hd', hc, hb, hdec, Except.map]

theorem toNat_ofNat_of_reads {b' : CenDocBuilder} (hr : Reads doc lo b') (hk : Extends b b') :
    (UInt32.ofNat b.out.length).toNat = b.out.length := by
  have hle := hk.out.length_le.trans hr.length_le
  exact toNat_ofNat_of_lt' (hle.trans_lt hr.small)

theorem encodesFields_cons (hb : Interned b) {name : String} {rf : List (UInt32 × UInt32) × CenDocBuilder}
    (hv : EncodesValue (b.internString name).2 v rv) (hf : EncodesFields rv.2 fields rf) :
    EncodesFields b ((name, v) :: fields) (((b.internString name).1, UInt32.ofNat rv.1) :: rf.1, rf.2) where
  length := congrArg (· + 1) hf.length
  keeps := ((extends_internString name b).trans hv.keeps).trans hf.keeps
  interned := hf.interned
  table := by
    intro doc levels hr hlev
    have hle : b.out.length ≤ rv.2.out.length := ((extends_internString name b).trans hv.keeps).out.length_le
    rw [DocValue.fieldsDepth, max_le_iff] at hlev
    refine .cons ⟨?_, ?_⟩ (hf.table doc levels (hr.mono (Extends.refl _) hle) hlev.2)
    · exact readString_internString hb (hr.mono (hv.keeps.trans hf.keeps) le_rfl)
    · have hoff : (UInt32.ofNat rv.1).toNat = b.out.length := by
        rw [hv.off, internString_out]
        exact toNat_ofNat_of_reads hr (((extends_internString name b).trans hv.keeps).trans hf.keeps)
      have hdec := hv.decodes doc levels (by rw [internString_out]; exact hr.mono hf.keeps le_rfl) hlev.1
      rw [internString_out] at hdec
      rw [hoff]
      exact hdec

theorem encodesItems_cons {ri : List UInt32 × CenDocBuilder} (hv : EncodesValue b v rv)
    (hi : EncodesItems rv.2 items ri) :
    EncodesItems b (v :: items) (UInt32.ofNat rv.1 :: ri.1, ri.2) where
  length := congrArg (· + 1) hi.length
  keeps := hv.keeps.trans hi.keeps
  interned := hi.interned
  table := by
    intro doc levels hr hlev
    rw [DocValue.itemsDepth, max_le_iff] at hlev
    refine .cons ?_ (hi.table doc levels (hr.mono (Extends.refl _) hv.keeps.out.length_le) hlev.2)
    have hoff : (UInt32.ofNat rv.1).toNat = b.out.length := by
      rw [hv.off]
      exact toNat_ofNat_of_reads hr (hv.keeps.trans hi.keeps)
    rw [hoff]
    exact hv.decodes doc levels (hr.mono hi.keeps le_rfl) hlev.1

mutual

theorem encodeValue_spec : ∀ (v : DocValue) (b : CenDocBuilder), Interned b → EncodesValue b v (b.encodeValue v)
  | .null, b, hb => by
    rw [encodeValue]
    refine encodesValue_push hb fun doc levels rest _ hd => ?_
    simp [CenDoc.decodeValueAtDepth, hd]
  | .bool x, b, hb => by
    rw [encodeValue]
    refine encodesValue_push hb fun doc levels rest _ hd => ?_
    cases x <;> simp [CenDoc.decodeValueAtDepth, hd]
  | .i64 x, b, hb => by
    rw [encodeValue]
    refine encodesValue_push hb fun doc levels rest _ hd => ?_
    have ht : (toLE 8 x.toUInt64.toNat ++ rest).take 8 = toLE 8 x.toUInt64.toNat := take_left' (toLE_length 8 _)
    simp [CenDoc.decodeValueAtDepth, hd, ht, ofNat_fromLE_toLE_64]
  | .f64 bits, b, hb => by
    rw [encodeValue]
    refine encodesValue_push hb fun doc levels rest _ hd => ?_
    have ht : (toLE 8 bits.toNat ++ rest).take 8 = toLE 8 bits.toNat := take_left' (toLE_length 8 _)
    simp [CenDoc.decodeValueAtDepth, hd, ht, ofNat_fromLE_toLE_64]
  | .str s, _, hb => encodesValue_str hb s
  | .bytes x, b, hb => by
    rw [encodeValue]
    refine encodesValue_push hb fun doc levels rest hl hd => ?_
    simp only [length_cons, length_append, toLE_length] at hl
    have hx := headU32_append (x := x.length) (by omega) (x ++ rest)
    have ht : (toLE 4 x.length ++ (x ++ rest)).drop 4 = x ++ rest := drop_left' (toLE_length 4 _)
    simp [CenDoc.decodeValueAtDepth, hd, hx, ht]
  | .object fields, b, hb => by
    rw [encodeValue]
    exact encodesValue_object (encodeFields_spec fields _ hb)
  | .array items, b, hb => by
    rw [encodeValue]
    exact encodesValue_array (encodeItems_spec items _ hb)

theorem encodeFields_spec : ∀ (fields : List (String × DocValue)) (b : CenDocBuilder), Interned b →
    EncodesFields b fields (b.encodeFields fields)
  | [], b, hb => ⟨rfl, Extends.refl b, hb, fun _ _ _ _ => .nil⟩
  | (name, v) :: fields, b, hb => by
    have hv := encodeValue_spec v (b.internString name).2 (interned_internString hb name).1
    rw [encodeFields]
    exact encodesFields_cons hb hv (encodeFields_spec fields _ hv.interned)

theorem encodeItems_spec : ∀ (items : List DocValue) (b : CenDocBuilder), Interned b →
    EncodesItems b items (b.encodeItems items)
  | [], b, hb => ⟨rfl, Extends.refl b, hb, fun _ _ _ _ => .nil⟩
  | v :: items, b, hb => by
    have hv := encodeValue_spec v b hb
    rw [encodeItems]
    exact encodesItems_cons hv (encodeItems_spec items _ hv.interned)

end

/-! ### A whole document -/

/-- A header is read back. -/
theorem fromBytes_toBytes {h : CenDocHeader} (hm : h.magic = hexDocMagic) (hp : h.pad.length = 3)
    (rest : List UInt8) : CenDocHeader.fromBytes (h.toBytes ++ rest) = .ok h := by
  obtain ⟨magic, rootKind, pad, fieldCount, rootOff, stringPoolOff⟩ := h
  subst hm
  obtain ⟨p₀, p₁, p₂, rfl⟩ := length_eq_three.mp hp
  have hb : CenDocHeader.toBytes ⟨hexDocMagic, rootKind, [p₀, p₁, p₂], fieldCount, rootOff,
      stringPoolOff⟩ ++ rest = 0x48 :: 0x45 :: 0x58 :: 0x44 :: rootKind :: p₀ :: p₁ :: p₂ ::
        (toLE 4 fieldCount.toNat ++ (toLE 4 rootOff.toNat ++ (toLE 4 stringPoolOff.toNat ++ rest))) := by rfl
  have hd : (toLE 4 fieldCount.toNat ++ (toLE 4 rootOff.toNat ++ (toLE 4 stringPoolOff.toNat ++ rest))).drop 4 =
      toLE 4 rootOff.toNat ++ (toLE 4 stringPoolOff.toNat ++ rest) :=
    drop_left' (toLE_length 4 _)
  have hd' : (toLE 4 fieldCount.toNat ++ (toLE 4 rootOff.toNat ++
      (toLE 4 stringPoolOff.toNat ++ rest))).drop 8 = toLE 4 stringPoolOff.toNat ++ rest := by rfl
  have hlen : 20 ≤ 8 + (toLE 4 fieldCount.toNat ++ (toLE 4 rootOff.toNat ++
      (toLE 4 stringPoolOff.toNat ++ rest))).length := by
    simp only [length_append, toLE_length]
    omega
  rw [hb, CenDocHeader.fromBytes, if_neg (by simp only [length_cons]; omega), if_neg (by simp [hexDocMagic])]
  simp [slice, hexDocMagic, hd, hd']

/-- A document and what its reader has: the header, the values behind it and the pool. -/
theorem reads_encode (v : DocValue) (hsize : (encode v).length < 2 ^ 32) :
    ∃ doc, CenDoc.new (encode v) = .ok doc ∧ doc.rootKind = v.kind ∧
      doc.header.fieldCount = UInt32.ofNat (fieldCount v) ∧ doc.header.rootOff.toNat = 20 ∧
      Reads doc 20 ((new.push (List.replicate 20 0)).encodeValue v).2 := by
  have hv := encodeValue_spec v _ (interned_new.push (List.replicate 20 0))
  obtain ⟨tail, ht⟩ := hv.keeps.out
  have hoff := hv.off
  revert hsize
  rw [encode]
  generalize (new.push (List.replicate 20 0)).encodeValue v = r at hv ht hoff ⊢
  have hout : r.2.out = List.replicate 20 0 ++ tail := ht.symm
  have h20 : r.1 = 20 := by simpa [new, push] using hoff
  intro hsize
  simp only [patch, take_zero, List.nil_append, Nat.zero_add] at hsize ⊢
  set header : CenDocHeader := ⟨hexDocMagic, v.kind.toU8, [0, 0, 0], UInt32.ofNat (fieldCount v),
    UInt32.ofNat r.1, UInt32.ofNat r.2.out.length⟩ with hheader
  have hlen : header.toBytes.length = 20 := by simp [hheader, CenDocHeader.toBytes, hexDocMagic]
  have hbytes : (r.2.out ++ r.2.stringPool).drop header.toBytes.length = tail ++ r.2.stringPool := by
    simp [hlen, hout]
  rw [hbytes] at hsize ⊢
  have hl : r.2.out.length = 20 + tail.length := by
    rw [hout, length_append, length_replicate]
  have hsmall : r.2.out.length < 2 ^ 32 := by
    rw [length_append, hlen, length_append] at hsize
    omega
  refine ⟨⟨header.toBytes ++ (tail ++ r.2.stringPool), header⟩, ?_, ?_, rfl, ?_, ?_, ?_, ?_, hsize⟩
  · rw [CenDoc.new, fromBytes_toBytes rfl rfl]
    rfl
  · exact DocKind.fromU8_toU8 v.kind
  · rw [hheader, h20]
    rfl
  · rw [hout, drop_left' (by simp), drop_left' hlen]
    exact prefix_append _ _
  · have hp : header.stringPoolOff.toNat = r.2.out.length := toNat_ofNat_of_lt' hsmall
    rw [hp, ← append_assoc, drop_left' (by rw [length_append, hlen, hl])]
  · rw [length_append, hlen, length_append]
    omega

/-- Following a path is looking up one segment after the other. -/
theorem navigate_eq_foldlM (v : DocValue) (segs : List String) :
    CenDoc.navigate v segs = segs.foldlM (fun current seg => current.get seg) v := by
  induction segs generalizing v with
  | nil => rfl
  | cons seg segs ih =>
    rw [CenDoc.navigate, foldlM_cons]
    cases v.get seg with
    | none => rfl
    | some w => exact ih w

/-- The table lookup and the lookup in the value agree. -/
theorem getField_of_reads (hv : v.depth ≤ CenDoc.maxDepth) (hkind : doc.rootKind = v.kind)
    (hcount : doc.header.fieldCount = UInt32.ofNat (fieldCount v)) (hroot : doc.header.rootOff.toNat = 20)
    (hr : Reads doc 20 ((new.push (List.replicate 20 0)).encodeValue v).2) (name : String) :
    doc.getField name = .ok (v.get name) := by
  cases v with
  | object fields =>
    have hf := encodeFields_spec fields
      (((new.push (List.replicate 20 0)).push (DocKind.object.toU8 :: toLE 4 fields.length)).push
        (List.replicate (fields.length * 8) 0)) interned_new
    rw [encodeValue] at hr
    have hlev : DocValue.fieldsDepth fields ≤ CenDoc.maxDepth + 1 := by
      rw [DocValue.depth] at hv
      omega
    obtain ⟨hn, ht, rest, hd⟩ := object_table hf hr hlev
    have hd' : doc.bytes.drop 20 = (DocKind.object.toU8 :: toLE 4 fields.length) ++
        (fieldBytes (encodeFields (((new.push (List.replicate 20 0)).push
          (DocKind.object.toU8 :: toLE 4 fields.length)).push
            (List.replicate (fields.length * 8) 0)) fields).1 ++ rest) := by
      rw [cons_append]
      exact hd
    have h25 : doc.bytes.drop 25 = (doc.bytes.drop 20).drop 5 := by rw [drop_drop]
    rw [CenDoc.getField, if_neg (fun h => h hkind), hroot, h25, hd', hcount,
      drop_left' (by simp), fieldCount, toNat_ofNat_of_lt' hn]
    exact getFieldFrom_fieldBytes ht name rest
  | _ => simp [CenDoc.getField, hkind, DocValue.kind, DocValue.get]

/-- Decoding a document gives back the value; a field or a path read from the document is the one
of the value. -/
theorem encode_readsBack (v : DocValue) (hdepth : v.depth ≤ CenDoc.maxDepth)
    (hsize : (encode v).length < 2 ^ 32) :
    ∃ doc, CenDoc.new (encode v) = .ok doc ∧ doc.decodeRoot = .ok v ∧
      (∀ name, doc.getField name = .ok (v.get name)) ∧
      ∀ path, doc.getPath path =
        .ok ((CenDoc.segments path).foldlM (fun current seg => current.get seg) v) := by
  obtain ⟨doc, hnew, hkind, hcount, hroot, hr⟩ := reads_encode v hsize
  have hv := encodeValue_spec v _ (interned_new.push (List.replicate 20 0))
  have hdec : doc.decodeRoot = .ok v := by
    rw [CenDoc.decodeRoot, CenDoc.decodeValueAt, hroot]
    exact hv.decodes doc _ hr (Nat.lt_succ_of_le hdepth)
  refine ⟨doc, hnew, hdec, getField_of_reads hdepth hkind hcount hroot hr, fun path => ?_⟩
  rw [CenDoc.getPath, hdec, ← navigate_eq_foldlM]
  rfl

/-- An object with a repeated and an empty field name. -/
def repeatedNames : DocValue :=
  .object [("k", .array [.null, .i64 7, .object []]), ("", .str "k"), ("k", .bool true)]

theorem encode_readsBack_repeatedNames :
    ∃ doc, CenDoc.new (encode repeatedNames) = .ok doc ∧ doc.decodeRoot = .ok repeatedNames ∧
      doc.getField "" = .ok (some (.str "k")) ∧
      doc.getField "k" = .ok (some (.array [.null, .i64 7, .object []])) ∧
      doc.getPath "k.0" = .ok none := by
  obtain ⟨doc, hnew, hroot, hfield, hpath⟩ := encode_readsBack repeatedNames (by decide) (by decide)
  exact ⟨doc, hnew, hroot, hfield "", hfield "k", hpath "k.0"⟩

end CenDocBuilder
end CenDB.Projection
