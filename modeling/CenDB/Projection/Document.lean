import CenDB.Lib.Table
import CenDB.Lib.Utf8
import CenDB.Lib.Words

/-! # CenDoc documents

A document is a header, the values and a pool of strings.  A value is a kind tag and its body; the
body of an object or an array starts with a count and a table of offsets, which is reserved before
its values are written and filled in after them.  The pool has every distinct string once, with its
length in front.

The reader's depth counts up to a limit; the model counts down from it, so that running out is
reaching the limit. -/

namespace CenDB.Projection

open Words

/-- `HEXD`. -/
def hexDocMagic : List UInt8 := [0x48, 0x45, 0x58, 0x44]

inductive DocKind
  | null
  | bool
  | i64
  | f64
  | str
  | bytes
  | object
  | array
  deriving DecidableEq, Repr

namespace DocKind

def toU8 : DocKind → UInt8
  | null => 0
  | bool => 1
  | i64 => 2
  | f64 => 3
  | str => 4
  | bytes => 5
  | object => 6
  | array => 7

/-- An unknown tag is taken for null. -/
def fromU8 (b : UInt8) : DocKind :=
  if b = 1 then bool
  else if b = 2 then i64
  else if b = 3 then f64
  else if b = 4 then str
  else if b = 5 then bytes
  else if b = 6 then object
  else if b = 7 then array
  else null

@[simp] theorem fromU8_toU8 (k : DocKind) : fromU8 k.toU8 = k := by cases k <;> rfl

end DocKind

/-- A document value; floating-point numbers are kept as their bits. -/
inductive DocValue
  | null
  | bool (b : Bool)
  | i64 (x : Int64)
  | f64 (bits : UInt64)
  | str (s : String)
  | bytes (b : List UInt8)
  | object (fields : List (String × DocValue))
  | array (items : List DocValue)

namespace DocValue

def kind : DocValue → DocKind
  | null => .null
  | bool _ => .bool
  | i64 _ => .i64
  | f64 _ => .f64
  | str _ => .str
  | bytes _ => .bytes
  | object _ => .object
  | array _ => .array

/-- The value of the first field of a name. -/
def get (key : String) : DocValue → Option DocValue
  | object fields => (fields.find? fun f => f.1 = key).map Prod.snd
  | _ => none

mutual

/-- How many objects and arrays are around the innermost value. -/
def depth : DocValue → ℕ
  | object fields => fieldsDepth fields
  | array items => itemsDepth items
  | _ => 0

def fieldsDepth : List (String × DocValue) → ℕ
  | [] => 0
  | (_, v) :: fields => max (v.depth + 1) (fieldsDepth fields)

def itemsDepth : List DocValue → ℕ
  | [] => 0
  | v :: items => max (v.depth + 1) (itemsDepth items)

end

end DocValue

/-! ### The builder -/

structure CenDocBuilder where
  out : List UInt8
  /-- String → its offset in the pool. -/
  strings : Table String UInt32
  stringPool : List UInt8

structure CenDocHeader where
  magic : List UInt8
  rootKind : UInt8
  pad : List UInt8
  fieldCount : UInt32
  rootOff : UInt32
  stringPoolOff : UInt32

def CenDocHeader.toBytes (h : CenDocHeader) : List UInt8 :=
  h.magic ++ [h.rootKind] ++ h.pad ++ toLE 4 h.fieldCount.toNat ++ toLE 4 h.rootOff.toNat ++
    toLE 4 h.stringPoolOff.toNat

/-- `buf[pos..].copy_from_slice(bytes)`. -/
def patch (pos : ℕ) (bytes buf : List UInt8) : List UInt8 :=
  buf.take pos ++ bytes ++ buf.drop (pos + bytes.length)

/-- Fills in a table, entry by entry. -/
def writeTable : ℕ → List (List UInt8) → List UInt8 → List UInt8
  | _, [], buf => buf
  | pos, entry :: entries, buf => writeTable (pos + entry.length) entries (patch pos entry buf)

namespace CenDocBuilder

def new : CenDocBuilder := ⟨[], ∅, []⟩

def push (bytes : List UInt8) (b : CenDocBuilder) : CenDocBuilder := { b with out := b.out ++ bytes }

/-- `s.as_bytes()`. -/
def stringBytes (s : String) : List UInt8 := Utf8.encode s.toList

def internString (s : String) (b : CenDocBuilder) : UInt32 × CenDocBuilder :=
  match b.strings.lookup s with
  | some id => (id, b)
  | none =>
    let id := UInt32.ofNat b.stringPool.length
    (id, { b with
      strings := b.strings.insert s id
      stringPool := b.stringPool ++ toLE 4 (stringBytes s).length ++ stringBytes s })

mutual

/-- Appends a value; the result is its offset. -/
def encodeValue (b : CenDocBuilder) : DocValue → ℕ × CenDocBuilder
  | .null => (b.out.length, b.push [DocKind.null.toU8])
  | .bool x => (b.out.length, b.push [DocKind.bool.toU8, if x then 1 else 0])
  | .i64 x => (b.out.length, b.push (DocKind.i64.toU8 :: toLE 8 x.toUInt64.toNat))
  | .f64 bits => (b.out.length, b.push (DocKind.f64.toU8 :: toLE 8 bits.toNat))
  | .str s =>
    let (id, b') := (b.push [DocKind.str.toU8]).internString s
    (b.out.length, b'.push (toLE 4 id.toNat))
  | .bytes x => (b.out.length, b.push (DocKind.bytes.toU8 :: (toLE 4 x.length ++ x)))
  | .object fields =>
    let b₁ := b.push (DocKind.object.toU8 :: toLE 4 fields.length)
    let (entries, b₂) := encodeFields (b₁.push (List.replicate (fields.length * 8) 0)) fields
    let table := entries.map fun e => toLE 4 e.1.toNat ++ toLE 4 e.2.toNat
    (b.out.length, { b₂ with out := writeTable b₁.out.length table b₂.out })
  | .array items =>
    let b₁ := b.push (DocKind.array.toU8 :: toLE 4 items.length)
    let (offsets, b₂) := encodeItems (b₁.push (List.replicate (items.length * 4) 0)) items
    let table := offsets.map fun off => toLE 4 off.toNat
    (b.out.length, { b₂ with out := writeTable b₁.out.length table b₂.out })

/-- Appends the values of an object; the result is its table. -/
def encodeFields (b : CenDocBuilder) : List (String × DocValue) → List (UInt32 × UInt32) × CenDocBuilder
  | [] => ([], b)
  | (name, v) :: fields =>
    let (nameId, b₁) := b.internString name
    let (valOff, b₂) := b₁.encodeValue v
    let (entries, b₃) := b₂.encodeFields fields
    ((nameId, UInt32.ofNat valOff) :: entries, b₃)

def encodeItems (b : CenDocBuilder) : List DocValue → List UInt32 × CenDocBuilder
  | [] => ([], b)
  | v :: items =>
    let (valOff, b₁) := b.encodeValue v
    let (offsets, b₂) := b₁.encodeItems items
    (UInt32.ofNat valOff :: offsets, b₂)

end

def fieldCount : DocValue → ℕ
  | .object fields => fields.length
  | .array items => items.length
  | _ => 0

def encode (value : DocValue) : List UInt8 :=
  let (rootOff, b) := (new.push (List.replicate 20 0)).encodeValue value
  let header : CenDocHeader :=
    ⟨hexDocMagic, value.kind.toU8, [0, 0, 0], UInt32.ofNat (fieldCount value), UInt32.ofNat rootOff,
      UInt32.ofNat b.out.length⟩
  patch 0 header.toBytes (b.out ++ b.stringPool)

end CenDocBuilder

/-! ### The reader -/

inductive DocError
  | corrupt (message : String)
  deriving DecidableEq, Repr

/-- A little-endian `u32` at the start of some bytes. -/
def headU32 (bytes : List UInt8) : UInt32 := UInt32.ofNat (fromLE (bytes.take 4))

def CenDocHeader.fromBytes (bytes : List UInt8) : Except DocError CenDocHeader :=
  if bytes.length < 20 then .error (.corrupt "CenDoc header too short")
  else if bytes.take 4 ≠ hexDocMagic then .error (.corrupt "CenDoc magic mismatch")
  else .ok ⟨bytes.take 4, bytes.getD 4 0, slice bytes 5 8, headU32 (bytes.drop 8),
    headU32 (bytes.drop 12), headU32 (bytes.drop 16)⟩

structure CenDoc where
  bytes : List UInt8
  header : CenDocHeader

namespace CenDoc

def new (bytes : List UInt8) : Except DocError CenDoc :=
  (CenDocHeader.fromBytes bytes).map fun header => ⟨bytes, header⟩

def rootKind (doc : CenDoc) : DocKind := DocKind.fromU8 doc.header.rootKind

def findStringPool (doc : CenDoc) : Except DocError ℕ :=
  let poolOff := doc.header.stringPoolOff.toNat
  if doc.bytes.length ≤ poolOff then
    .error (.corrupt s!"CenDoc: pool offset {poolOff} out of bounds (buf len {doc.bytes.length})")
  else .ok poolOff

def readString (doc : CenDoc) (offset : ℕ) : Except DocError String := do
  let poolStart ← doc.findStringPool
  let entry := doc.bytes.drop (poolStart + offset)
  if entry.length < 4 then .error (.corrupt s!"CenDoc: string offset {offset} out of bounds")
  else
    let payload := entry.drop 4
    let len := (headU32 entry).toNat
    if payload.length < len then .error (.corrupt "CenDoc: string payload truncated")
    else .ok (String.ofList (Utf8.lossy (payload.take len)))

/-- Reads the table of an object and its values. -/
def decodeFields (doc : CenDoc) (decode : ℕ → Except DocError DocValue) :
    ℕ → List UInt8 → Except DocError (List (String × DocValue))
  | 0, _ => .ok []
  | count + 1, table =>
    if table.length < 8 then .error (.corrupt "CenDoc: object table truncated")
    else do
      let name ← doc.readString (headU32 table).toNat
      let val ← decode (headU32 (table.drop 4)).toNat
      let fields ← decodeFields doc decode count (table.drop 8)
      .ok ((name, val) :: fields)

def decodeItems (decode : ℕ → Except DocError DocValue) : ℕ → List UInt8 → Except DocError (List DocValue)
  | 0, _ => .ok []
  | count + 1, table =>
    if table.length < 4 then .error (.corrupt "CenDoc: array table truncated")
    else do
      let val ← decode (headU32 table).toNat
      let items ← decodeItems decode count (table.drop 4)
      .ok (val :: items)

def maxDepth : ℕ := 256

/-- Decodes the value at an offset, with so many levels left. -/
def decodeValueAtDepth (doc : CenDoc) : ℕ → ℕ → Except DocError DocValue
  | 0, _ => .error (.corrupt s!"CenDoc: nesting depth {maxDepth + 1} exceeds maximum {maxDepth}")
  | levels + 1, off =>
    match doc.bytes.drop off with
    | [] => .error (.corrupt s!"CenDoc: value offset {off} out of bounds")
    | tag :: body =>
      match DocKind.fromU8 tag with
      | .null => .ok .null
      | .bool =>
        match body with
        | [] => .error (.corrupt "CenDoc: bool truncated")
        | x :: _ => .ok (.bool (x ≠ 0))
      | .i64 =>
        if body.length < 8 then .error (.corrupt "CenDoc: i64 truncated")
        else .ok (.i64 (UInt64.ofNat (fromLE (body.take 8))).toInt64)
      | .f64 =>
        if body.length < 8 then .error (.corrupt "CenDoc: f64 truncated")
        else .ok (.f64 (UInt64.ofNat (fromLE (body.take 8))))
      | .str =>
        if body.length < 4 then .error (.corrupt "CenDoc: str truncated")
        else (doc.readString (headU32 body).toNat).map .str
      | .bytes =>
        if body.length < 4 then .error (.corrupt "CenDoc: bytes truncated")
        else
          let len := (headU32 body).toNat
          if body.length < 4 + len then .error (.corrupt "CenDoc: bytes payload truncated")
          else .ok (.bytes ((body.drop 4).take len))
      | .object =>
        if body.length < 4 then .error (.corrupt "CenDoc: object truncated")
        else
          (doc.decodeFields (decodeValueAtDepth doc levels) (headU32 body).toNat (body.drop 4)).map
            .object
      | .array =>
        if body.length < 4 then .error (.corrupt "CenDoc: array truncated")
        else
          (decodeItems (decodeValueAtDepth doc levels) (headU32 body).toNat (body.drop 4)).map .array

def decodeValueAt (doc : CenDoc) (off : ℕ) : Except DocError DocValue :=
  doc.decodeValueAtDepth (maxDepth + 1) off

def decodeRoot (doc : CenDoc) : Except DocError DocValue := doc.decodeValueAt doc.header.rootOff.toNat

/-- Looks for a name in the table of the root object. -/
def getFieldFrom (doc : CenDoc) (name : String) : ℕ → List UInt8 → Except DocError (Option DocValue)
  | 0, _ => .ok none
  | count + 1, table =>
    if table.length < 8 then .error (.corrupt "CenDoc: field table truncated")
    else do
      let nameInPool ← doc.readString (headU32 table).toNat
      if nameInPool = name then (doc.decodeValueAt (headU32 (table.drop 4)).toNat).map some
      else getFieldFrom doc name count (table.drop 8)

def getField (doc : CenDoc) (name : String) : Except DocError (Option DocValue) :=
  if doc.rootKind ≠ .object then .ok none
  else
    doc.getFieldFrom name doc.header.fieldCount.toNat (doc.bytes.drop (doc.header.rootOff.toNat + 1 + 4))

/-- The segments of a dotted path. -/
def segments (path : String) : List String := (path.toList.splitOn '.').map String.ofList

/-- Goes down one field for each segment. -/
def navigate : DocValue → List String → Option DocValue
  | current, [] => some current
  | current, seg :: segs =>
    match current.get seg with
    | some v => navigate v segs
    | none => none

def getPath (doc : CenDoc) (path : String) : Except DocError (Option DocValue) :=
  doc.decodeRoot.map fun root => navigate root (segments path)

end CenDoc
end CenDB.Projection
