import CenDB.Storage.Encoding

/-! # Values and on-disk headers

The values of a row, the specification of a column, and the two fixed-size records of a PAX
block: the block header and the column directory entry, each 64 bytes.  `BlockHeader.read_bytes`
and `ColumnDirectory.read_bytes` say that a record is read back from its image.  The bits of an
`f64` stand for it, as `to_bits` and `from_bits` do. -/

namespace CenDB.Storage

open Words List

/-- Column value kinds. -/
inductive ValueKind where
  | null
  | bool
  | i64
  | u64
  | f64
  | bytes
  | timestamp
deriving DecidableEq, Repr

namespace ValueKind

def toU8 : ValueKind → UInt8
  | null => 0
  | bool => 1
  | i64 => 2
  | u64 => 3
  | f64 => 4
  | bytes => 5
  | timestamp => 6

/-- Unknown tags map to `null`. -/
def fromU8 (b : UInt8) : ValueKind :=
  if b = 0 then null
  else if b = 1 then bool
  else if b = 2 then i64
  else if b = 3 then u64
  else if b = 4 then f64
  else if b = 5 then bytes
  else if b = 6 then timestamp
  else null

/-- Fixed byte width, or 0 if variable-length. -/
def fixedWidth : ValueKind → ℕ
  | null => 0
  | bool => 1
  | i64 | u64 | f64 | timestamp => 8
  | bytes => 0

/-- The variant's name, as `{:?}` prints it. -/
def debug : ValueKind → String
  | null => "Null"
  | bool => "Bool"
  | i64 => "I64"
  | u64 => "U64"
  | f64 => "F64"
  | bytes => "Bytes"
  | timestamp => "Timestamp"

@[simp] theorem fromU8_toU8 (k : ValueKind) : fromU8 k.toU8 = k := by
  cases k <;> rfl

end ValueKind

/-- A scalar value with its kind tag. -/
inductive Value where
  | null
  | bool (b : Bool)
  | i64 (x : Int64)
  | u64 (x : UInt64)
  | f64 (bits : UInt64)
  | bytes (b : List UInt8)
  | timestamp (x : Int64)
deriving DecidableEq, Repr

/-- The text functions of the standard library: an `f64` with `{}` and with `{:?}`, and
`String::from_utf8_lossy`. -/
structure TextFormat where
  displayF64 : UInt64 → String
  debugF64 : UInt64 → String
  fromUtf8Lossy : List UInt8 → String

namespace Value

def kind : Value → ValueKind
  | null => .null
  | bool _ => .bool
  | i64 _ => .i64
  | u64 _ => .u64
  | f64 _ => .f64
  | bytes _ => .bytes
  | timestamp _ => .timestamp

/-- A value as `{:?}` prints it. -/
def debug (fmt : TextFormat) : Value → String
  | null => "Null"
  | bool b => s!"Bool({b})"
  | i64 x => s!"I64({x})"
  | u64 x => s!"U64({x})"
  | f64 bits => s!"F64({fmt.debugF64 bits})"
  | bytes b =>
    let items := String.intercalate ", " (b.map toString)
    s!"Bytes([{items}])"
  | timestamp x => s!"Timestamp({x})"

end Value

/-- Specification of a column. -/
structure ColumnSpec where
  colId : UInt32
  kind : ValueKind
  encoding : Encoding
  isPk : UInt8
  isTs : UInt8
deriving DecidableEq, Repr

namespace ColumnSpec

def new (colId : UInt32) (kind : ValueKind) : ColumnSpec := ⟨colId, kind, .raw, 0, 0⟩

def pk (s : ColumnSpec) : ColumnSpec := { s with isPk := 1 }

def ts (s : ColumnSpec) : ColumnSpec := { s with isTs := 1 }

/-- Fixed width of a slot; a variable-length column has `(offset, len)` slots. -/
def slotWidth (s : ColumnSpec) : ℕ := if 0 < s.kind.fixedWidth then s.kind.fixedWidth else 8

end ColumnSpec

/-! ### Records -/

/-- Header of a PAX block. -/
structure BlockHeader where
  minPk : Int64
  maxPk : Int64
  minTs : Int64
  maxTs : Int64
  tombstoneBitmapOff : UInt32
  nullBitmapOff : UInt32
  minipagesOff : UInt32
  varheapOff : UInt32
  varheapLen : UInt32
  rowCount : UInt32
  columnCount : UInt32
  flags : UInt32
deriving DecidableEq, Repr

namespace BlockHeader

/-- A header without rows; `min > max` says that there is no zone. -/
def empty : BlockHeader := ⟨Int64.maxValue, Int64.minValue, Int64.maxValue, Int64.minValue, 0, 0, 0, 0, 0, 0, 0, 0⟩

/-- The block could hold a key in `[lo, hi]`. -/
def zoneOverlapsPk (h : BlockHeader) (lo hi : Int64) : Bool := !(decide (h.maxPk < lo) || decide (hi < h.minPk))

/-- The block could hold a timestamp in `[lo, hi]`; always when it has no zone. -/
def zoneOverlapsTs (h : BlockHeader) (lo hi : Int64) : Bool :=
  if h.maxTs < h.minTs then true else !(decide (h.maxTs < lo) || decide (hi < h.minTs))

/-- `bytes_of`: the fields in order. -/
def bytes (h : BlockHeader) : List UInt8 :=
  leI64 h.minPk ++ (leI64 h.maxPk ++ (leI64 h.minTs ++ (leI64 h.maxTs ++
    (leU32 h.tombstoneBitmapOff ++ (leU32 h.nullBitmapOff ++ (leU32 h.minipagesOff ++
      (leU32 h.varheapOff ++ (leU32 h.varheapLen ++ (leU32 h.rowCount ++
        (leU32 h.columnCount ++ leU32 h.flags))))))))))

/-- `pod_read_unaligned`: the fields at their offsets. -/
def read (bytes : List UInt8) : BlockHeader where
  minPk := i64At bytes 0
  maxPk := i64At bytes 8
  minTs := i64At bytes 16
  maxTs := i64At bytes 24
  tombstoneBitmapOff := u32At bytes 32
  nullBitmapOff := u32At bytes 36
  minipagesOff := u32At bytes 40
  varheapOff := u32At bytes 44
  varheapLen := u32At bytes 48
  rowCount := u32At bytes 52
  columnCount := u32At bytes 56
  flags := u32At bytes 60

end BlockHeader

def blockHeaderSize : ℕ := 64

/-- Entry of the column directory. -/
structure ColumnDirectory where
  colId : UInt32
  kind : UInt8
  encoding : UInt8
  flags : UInt8
  reserved : UInt8
  minipageOff : UInt32
  minipageLen : UInt32
  compressedLen : UInt32
  valueCount : UInt32
  zoneMin : Int64
  zoneMax : Int64
deriving DecidableEq, Repr

def columnDirectorySize : ℕ := 64

namespace ColumnDirectory

def flagIsPk : UInt8 := (1 : UInt8) <<< 0

def flagIsTs : UInt8 := (1 : UInt8) <<< 1

def fromSpec (spec : ColumnSpec) (rowCount minipageOff : UInt32) : ColumnDirectory where
  colId := spec.colId
  kind := spec.kind.toU8
  encoding := spec.encoding.discriminant
  flags := (if spec.isPk ≠ 0 then flagIsPk else 0) ||| (if spec.isTs ≠ 0 then flagIsTs else 0)
  reserved := 0
  minipageOff := minipageOff
  minipageLen := UInt32.ofNat spec.slotWidth * rowCount
  compressedLen := UInt32.ofNat spec.slotWidth * rowCount
  valueCount := rowCount
  zoneMin := Int64.maxValue
  zoneMax := Int64.minValue

/-- The column could hold a value in `[lo, hi]`; always when it has no zone. -/
def zoneOverlaps (d : ColumnDirectory) (lo hi : Int64) : Bool :=
  if d.zoneMax < d.zoneMin then true else !(decide (d.zoneMax < lo) || decide (hi < d.zoneMin))

/-- `bytes_of`: the fields in order, then padding. -/
def bytes (d : ColumnDirectory) : List UInt8 :=
  leU32 d.colId ++ ([d.kind, d.encoding, d.flags, d.reserved] ++ (leU32 d.minipageOff ++
    (leU32 d.minipageLen ++ (leU32 d.compressedLen ++ (leU32 d.valueCount ++
      (leI64 d.zoneMin ++ (leI64 d.zoneMax ++ List.replicate 24 0)))))))

/-- `pod_read_unaligned`: the fields at their offsets. -/
def read (bytes : List UInt8) : ColumnDirectory where
  colId := u32At bytes 0
  kind := bytes.getD 4 0
  encoding := bytes.getD 5 0
  flags := bytes.getD 6 0
  reserved := bytes.getD 7 0
  minipageOff := u32At bytes 8
  minipageLen := u32At bytes 12
  compressedLen := u32At bytes 16
  valueCount := u32At bytes 20
  zoneMin := i64At bytes 24
  zoneMax := i64At bytes 32

end ColumnDirectory

/-- Required alignment for every minipage. -/
def minipageAlign : ℕ := 64

/-- The next multiple of `align`, a power of two. -/
def alignUp (off align : ℕ) : ℕ := (off + align - 1) / align * align

/-- Where the minipages start. -/
def minipagesOffsetAfterDirectory (columnCount : ℕ) : ℕ :=
  alignUp (blockHeaderSize + columnCount * columnDirectorySize) minipageAlign

/-! ### Reading records back -/

variable {a b : List UInt8} {n align : ℕ}

theorem i64At_right (h : a.length ≤ n) : i64At (a ++ b) n = i64At b (n - a.length) := by
  have hend : n + 8 - a.length = n - a.length + 8 := by omega
  rw [i64At, slice_append_right h, hend]
  rfl

theorem u32At_right (h : a.length ≤ n) : u32At (a ++ b) n = u32At b (n - a.length) := by
  have hend : n + 4 - a.length = n - a.length + 4 := by omega
  rw [u32At, slice_append_right h, hend]
  rfl

theorem i64At_cons (b : UInt8) (bytes : List UInt8) (n : ℕ) : i64At (b :: bytes) (n + 1) = i64At bytes n := by
  rw [i64At, Nat.add_right_comm, slice, drop_succ_cons, Nat.add_sub_add_right]
  rfl

theorem u32At_cons (b : UInt8) (bytes : List UInt8) (n : ℕ) : u32At (b :: bytes) (n + 1) = u32At bytes n := by
  rw [u32At, Nat.add_right_comm, slice, drop_succ_cons, Nat.add_sub_add_right]
  rfl

@[simp] theorem i64At_head (v : Int64) (rest : List UInt8) : i64At (leI64 v ++ rest) 0 = v :=
  i64At_append [] v rest

@[simp] theorem u32At_head (v : UInt32) (rest : List UInt8) : u32At (leU32 v ++ rest) 0 = v :=
  u32At_append [] v rest

@[simp] theorem u32At_self (v : UInt32) : u32At (leU32 v) 0 = v := by
  have hself := u32At_head v []
  rwa [append_nil] at hself

namespace BlockHeader

@[simp] theorem length_bytes (h : BlockHeader) : h.bytes.length = blockHeaderSize := by rfl

/-- A header is read back from its image. -/
@[simp] theorem read_bytes (h : BlockHeader) : read h.bytes = h := by
  simp [read, bytes, i64At_right, u32At_right]

end BlockHeader

namespace ColumnDirectory

@[simp] theorem length_bytes (d : ColumnDirectory) : d.bytes.length = columnDirectorySize := by rfl

/-- A directory entry is read back from its image. -/
@[simp] theorem read_bytes (d : ColumnDirectory) : read d.bytes = d := by
  simp [read, bytes, i64At_right, u32At_right, i64At_cons, u32At_cons]

end ColumnDirectory

theorem le_alignUp (off : ℕ) (h : 0 < align) : off ≤ alignUp off align := by
  unfold alignUp
  have hmod := Nat.mod_add_div (off + align - 1) align
  have hlt := Nat.mod_lt (off + align - 1) h
  rw [Nat.mul_comm]
  omega

theorem alignUp_lt (off : ℕ) (h : 0 < align) : alignUp off align < off + align := by
  have hle := Nat.div_mul_le_self (off + align - 1) align
  unfold alignUp
  omega

end CenDB.Storage
