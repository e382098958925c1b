import ImmutableLedger.Lib.Framing
import ImmutableLedger.Ledger.Hash

/-!
# Values, keys and rows

The value codecs of the SQL layer (`codec.go`): the columns of a table, the Go values of the query engine, the key
form of a column (bytes that compare as the values do) and the stored form of a row.

A Go value of interface type is a `GoVal`, a NULL is `none`. A `float32` is kept as the `float64` it widens to, as bits,
and a time as its nanoseconds since the epoch, which `UnixNano` wraps into 64 bits. `round32` is Go's conversion
from `float64` to `float32`.
-/

namespace ImmutableLedger

/-! ## Errors -/

/-- How a call of the SQL layer fails: with an error of the ledger or the backend handed on, an error of `fmt.Errorf`
(its format and arguments, and the error it wraps), a lost write conflict, an error of the query engine's own, a
run-time panic of the Go code, or by a loop that does not end. -/
inductive SqlErr where
  | ledger (e : Err)
  | text (format : String) (args : List Arg)
  | wrap (format : String) (args : List Arg) (e : SqlErr)
  | conflict (format : String) (args : List Arg)
  | primaryKeyViolation
  | uniqueKey (index : Bytes)
  | tableExists (name : Bytes)
  | tableNotFound (name : Bytes)
  | savepointDoesNotExist (name : Bytes)
  | panic
  | hang
deriving DecidableEq

/-! ## Columns -/

/-- The column types of the engine (`query.Type`); `other` stands for those the layer does not support. -/
inductive QType where
  | int8 | int16 | int24 | int32 | int64
  | uint8 | uint16 | uint24 | uint32 | uint64
  | float32 | float64
  | char | varchar | text
  | binary | varbinary | blob
  | datetime | timestamp
  | other (code : UInt64)
deriving DecidableEq

inductive ColKind where
  | int | uint | float32 | float64 | string | bytes | datetime
deriving DecidableEq

/-- The persisted definition of one column. -/
structure ColDef where
  name : Bytes
  qtype : QType
  length : ℤ := 0
  precision : ℤ := 0
  nullable : Bool := false
  autoInc : Bool := false
deriving DecidableEq

def kindOfQType : QType → Except SqlErr ColKind
  | .int8 | .int16 | .int24 | .int32 | .int64 => .ok .int
  | .uint8 | .uint16 | .uint24 | .uint32 | .uint64 => .ok .uint
  | .float32 => .ok .float32
  | .float64 => .ok .float64
  | .char | .varchar | .text => .ok .string
  | .binary | .varbinary | .blob => .ok .bytes
  | .datetime | .timestamp => .ok .datetime
  | .other code => .error (.text "column type %v is not supported" [.uint code])

def ColDef.kind (c : ColDef) : Except SqlErr ColKind := kindOfQType c.qtype

/-- What the layer reads of a column of the engine (`sql.Column`): its lengths when it is a string type, its precision
when it is a datetime type. -/
structure Column where
  name : Bytes
  qtype : QType
  nullable : Bool := false
  autoIncrement : Bool := false
  maxCharacterLength : Option ℤ := none
  maxByteLength : ℤ := 0
  precision : Option ℤ := none

/-- Capture a column of the engine into a persistable definition. -/
def colDefOf (col : Column) : Except SqlErr ColDef :=
  match kindOfQType col.qtype with
  | .error e => .error (.wrap "column %q: %w" [.key col.name] e)
  | .ok kind => .ok
    { name := col.name
      qtype := col.qtype
      nullable := col.nullable
      autoInc := col.autoIncrement
      length := match col.maxCharacterLength with
        | none => 0
        | some n => if kind = .bytes then col.maxByteLength else n
      precision := col.precision.getD 0 }

/-! ## Values -/

/-- A Go value of the query engine. -/
inductive GoVal where
  | int8 (v : Int8) | int16 (v : Int16) | int32 (v : Int32) | int64 (v : Int64) | int (v : Int64)
  | bool (v : Bool)
  | uint8 (v : UInt8) | uint16 (v : UInt16) | uint32 (v : UInt32) | uint64 (v : UInt64) | uint (v : UInt64)
  | float32 (bits : UInt64) | float64 (bits : UInt64)
  | string (s : Bytes) | bytes (b : Bytes)
  | time (ns : ℤ)
  | other (type : String)
deriving DecidableEq

/-- The name of the dynamic type (`%T`). -/
def GoVal.type : GoVal → String
  | int8 _ => "int8" | int16 _ => "int16" | int32 _ => "int32" | int64 _ => "int64" | int _ => "int"
  | bool _ => "bool"
  | uint8 _ => "uint8" | uint16 _ => "uint16" | uint32 _ => "uint32" | uint64 _ => "uint64" | uint _ => "uint"
  | float32 _ => "float32" | float64 _ => "float64"
  | string _ => "string" | bytes _ => "[]uint8"
  | time _ => "time.Time"
  | other t => t

/-- A row of the engine: NULL is `none`. -/
abbrev Row := List (Option GoVal)

/-- The one result of `coerce` that the kind of the column selects; a string and a byte string are both bytes. -/
inductive Scalar where
  | int (i : Int64) | uint (u : UInt64) | float (bits : UInt64) | str (s : Bytes) | time (ns : ℤ)
deriving DecidableEq

/-- Normalise an engine value for a column kind. -/
def coerce : ColKind → GoVal → Except SqlErr Scalar
  | .int, .int8 x => .ok (.int x.toInt64)
  | .int, .int16 x => .ok (.int x.toInt64)
  | .int, .int32 x => .ok (.int x.toInt64)
  | .int, .int64 x => .ok (.int x)
  | .int, .int x => .ok (.int x)
  | .int, .bool x => .ok (.int (if x then 1 else 0))
  | .int, .uint64 x => .ok (.int x.toInt64)
  | .int, v => .error (.text "unexpected integer value %T" [.text v.type])
  | .uint, .uint8 x => .ok (.uint x.toUInt64)
  | .uint, .uint16 x => .ok (.uint x.toUInt64)
  | .uint, .uint32 x => .ok (.uint x.toUInt64)
  | .uint, .uint64 x => .ok (.uint x)
  | .uint, .uint x => .ok (.uint x)
  | .uint, .int64 x => .ok (.uint x.toUInt64)
  | .uint, v => .error (.text "unexpected unsigned value %T" [.text v.type])
  | .float32, .float32 x => .ok (.float x)
  | .float32, .float64 x => .ok (.float x)
  | .float32, v => .error (.text "unexpected float value %T" [.text v.type])
  | .float64, .float64 x => .ok (.float x)
  | .float64, .float32 x => .ok (.float x)
  | .float64, v => .error (.text "unexpected float value %T" [.text v.type])
  | .string, .string x => .ok (.str x)
  | .string, .bytes x => .ok (.str x)
  | .string, v => .error (.text "unexpected string value %T" [.text v.type])
  | .bytes, .bytes x => .ok (.str x)
  | .bytes, .string x => .ok (.str x)
  | .bytes, v => .error (.text "unexpected bytes value %T" [.text v.type])
  | .datetime, .time x => .ok (.time x)
  | .datetime, v => .error (.text "unexpected time value %T" [.text v.type])

/-! ## Scalars -/

def signBit : UInt64 := 0x8000000000000000

def encInt64 (v : Int64) : Bytes := Bytes.u64 (v.toUInt64 ^^^ signBit)

def decInt64 (b : Bytes) : Int64 := (Bytes.toU64 b ^^^ signBit).toInt64

def encUint64 (v : UInt64) : Bytes := Bytes.u64 v

def encFloat64 (bits : UInt64) : Bytes := Bytes.u64 (if bits &&& signBit ≠ 0 then ~~~bits else bits ||| signBit)

def decFloat64 (raw : Bytes) : UInt64 :=
  if Bytes.toU64 raw &&& signBit ≠ 0 then Bytes.toU64 raw &&& ~~~signBit else ~~~Bytes.toU64 raw

/-- `UnixNano`. -/
def unixNano (ns : ℤ) : Int64 := Int64.ofInt ns

/-! ## Keys -/

/-- The order-preserving key form of a scalar. -/
def Scalar.key : Scalar → Bytes
  | .int i => encInt64 i
  | .uint u => encUint64 u
  | .float f => encFloat64 f
  | .str s => Bytes.escape s
  | .time t => encInt64 (unixNano t)

/-- What `encodeKeyCol` appends for one column value. -/
def encodeKeyCol (kind : ColKind) (v : GoVal) : Except SqlErr Bytes := do
  let x ← coerce kind v
  pure x.key

/-! ## Rows -/

def rowNull : UInt8 := 0x00
def rowPresent : UInt8 := 0x01

/-- The stored form of a scalar. -/
def Scalar.field : Scalar → Bytes
  | .int i => encInt64 i
  | .uint u => encUint64 u
  | .float f => encFloat64 f
  | .str s => Bytes.putUvarint (UInt64.ofNat s.length) ++ s
  | .time t => encInt64 (unixNano t)

/-- The stored form of one value. -/
def encodeField (c : ColDef) : Option GoVal → Except SqlErr Bytes
  | none => .ok [rowNull]
  | some v => do
    let kind ← c.kind
    match coerce kind v with
    | .error e => .error (.wrap "column %q: %w" [.key c.name] e)
    | .ok x => .ok (rowPresent :: x.field)

/-- The loop of `encodeRow`. -/
def encodeFields : List ColDef → Row → Except SqlErr Bytes
  | c :: cols, v :: row => do
    let head ← encodeField c v
    let rest ← encodeFields cols row
    pure (head ++ rest)
  | _, _ => .ok []

/-- Serialise a full row, all columns in schema order. -/
def encodeRow (cols : List ColDef) (row : Row) : Except SqlErr Bytes :=
  if row.length ≠ cols.length then
    .error (.text "row has %d values, schema has %d columns"
      [.uint (UInt64.ofNat row.length), .uint (UInt64.ofNat cols.length)])
  else encodeFields cols row

def narrowInt (qt : QType) (v : Int64) : GoVal :=
  match qt with
  | .int8 => .int8 v.toInt8
  | .int16 => .int16 v.toInt16
  | .int24 | .int32 => .int32 v.toInt32
  | _ => .int64 v

def narrowUint (qt : QType) (v : UInt64) : GoVal :=
  match qt with
  | .uint8 => .uint8 v.toUInt8
  | .uint16 => .uint16 v.toUInt16
  | .uint24 | .uint32 => .uint32 v.toUInt32
  | _ => .uint64 v

def errRow (f : String) (c : ColDef) : SqlErr := .text f [.key c.name]

section
variable (round32 : UInt64 → UInt64)

/-- The value of eight bytes in a column of a fixed-width kind. -/
def decodeFixed (qt : QType) (raw : Bytes) : ColKind → GoVal
  | .int => narrowInt qt (decInt64 raw)
  | .uint => narrowUint qt (Bytes.toU64 raw)
  | .float32 => .float32 (round32 (decFloat64 raw))
  | .float64 => .float64 (decFloat64 raw)
  | _ => .time (decInt64 raw).toInt

/-- The length-framed bytes at `off`, and where they end. The bound is an `int` and wraps; a wrapped bound below the
start is one that Go cannot slice to. -/
def decodeFramed (c : ColDef) (data : Bytes) (off : ℕ) : Except SqlErr (Bytes × ℕ) :=
  match Bytes.uvarint (data.drop off) with
  | none => .error (errRow "row truncated at column %q" c)
  | some (n, sz) =>
    let stop := (Int64.ofInt (off + sz + n)).toInt
    if stop > data.length then .error (errRow "row truncated at column %q" c)
    else if stop < off + sz then .error .panic
    else .ok ((data.drop (off + sz)).take n, off + sz + n)

/-- The value of a column after its marker, and where it ends. -/
def decodeField (c : ColDef) (data : Bytes) (off : ℕ) : Except SqlErr (GoVal × ℕ) := do
  let kind ← c.kind
  match kind with
  | .string => do
    let (b, off) ← decodeFramed c data off
    pure (.string b, off)
  | .bytes => do
    let (b, off) ← decodeFramed c data off
    pure (.bytes b, off)
  | kind =>
    if off + 8 > data.length then .error (errRow "row truncated at column %q" c)
    else .ok (decodeFixed round32 c.qtype ((data.drop off).take 8) kind, off + 8)

/-- The loop of `decodeRow`, from `off` on. -/
def decodeFields (data : Bytes) : List ColDef → ℕ → Except SqlErr (Row × ℕ)
  | [], off => .ok ([], off)
  | c :: cols, off =>
    match data.drop off with
    | [] => .error (errRow "row truncated at column %q" c)
    | marker :: _ =>
      if marker = rowNull then do
        let (row, off) ← decodeFields data cols (off + 1)
        pure (none :: row, off)
      else if marker ≠ rowPresent then .error (errRow "row corrupt at column %q" c)
      else do
        let (v, off) ← decodeField round32 c data (off + 1)
        let (row, off) ← decodeFields data cols off
        pure (some v :: row, off)

/-- Parse a stored row back into engine values with the Go types of the columns. -/
def decodeRow (cols : List ColDef) (data : Bytes) : Except SqlErr Row := do
  let (row, off) ← decodeFields round32 data cols 0
  if off ≠ data.length then throw (.text "row has %d trailing bytes" [.uint (UInt64.ofNat (data.length - off))])
  pure row

end

end ImmutableLedger
