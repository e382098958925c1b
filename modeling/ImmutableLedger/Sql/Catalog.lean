import ImmutableLedger.Sql.Codec
import ImmutableLedger.Ledger.Backend
import ImmutableLedger.Ledger.Commit

/-!
# Tables, indexes and their keys

The definitions the catalog persists, the logical keys of the ledger and the keys of the derived keyspace (`store.go`), the
encodings of primary keys and of index entries, and the derived operations of a row (`index.go`).

Go strings are byte strings. What the layer calls outside the repository (`strings`, `encoding/json`, the conversion to
`float32`) is a `GoLib`.
-/

namespace ImmutableLedger

/-! ## Definitions -/

/-- A persisted secondary index definition. -/
structure IndexDef where
  id : UInt64
  name : Bytes
  unique : Bool
  colOrds : List ℕ
deriving DecidableEq

/-- The persisted definition of one table. `autoIncNext` caches the persisted counter and is not part of it (0 for none
loaded). -/
structure TableDef where
  id : UInt64
  name : Bytes
  columns : List ColDef
  pkOrds : List ℕ
  comment : Bytes := []
  indexes : List IndexDef := []
  autoIncNext : UInt64 := 0
deriving DecidableEq, Inhabited

/-- The catalog root: the table list and the next ids. -/
structure CatalogMeta where
  nextTableID : UInt64
  nextIndexID : UInt64
  tables : List Bytes := []
deriving DecidableEq

def TableDef.hasAutoInc (d : TableDef) : Bool := d.columns.any ColDef.autoInc

/-- The Go library functions the layer calls. -/
structure GoLib where
  /-- `strings.ToLower`. -/
  toLower : Bytes → Bytes
  /-- `strings.EqualFold`. -/
  equalFold : Bytes → Bytes → Bool
  /-- The conversion of a `float64` to `float32`, and back. -/
  round32 : UInt64 → UInt64
  marshalMeta : CatalogMeta → Bytes
  unmarshalMeta : Bytes → Except String CatalogMeta
  marshalTable : TableDef → Bytes
  unmarshalTable : Bytes → Except String TableDef

/-- What Go documents: definitions survive a round trip through JSON, and rounding a rounded float does nothing. -/
structure GoLib.Ok (G : GoLib) : Prop where
  unmarshal_meta : ∀ m, G.unmarshalMeta (G.marshalMeta m) = .ok m
  unmarshal_table : ∀ d, G.unmarshalTable (G.marshalTable d) = .ok { d with autoIncNext := 0 }
  round32_round32 : ∀ x, G.round32 (G.round32 x) = G.round32 x

/-! ## Keys -/

/-- The tags of SQL-written ledger values. -/
def tagCatalogMeta : UInt8 := 0x01
def tagCatalogTable : UInt8 := 0x02
def tagRow : UInt8 := 0x03
def tagAutoInc : UInt8 := 0x04

/-- The prefixes of the derived keyspace. -/
def scanPrefix : UInt8 := 105 -- 'i'
def scanMetaKey : UInt8 := 106 -- 'j'
def secondaryPrefix : UInt8 := 120 -- 'x'

def scanChunkSize : ℕ := 512

def metaKey : Bytes := ascii "sql/c/meta"

def tableKey (G : GoLib) (name : Bytes) : Bytes := ascii "sql/c/t/" ++ G.toLower name

def autoIncKey (id : UInt64) : Bytes := ascii "sql/c/a/" ++ Bytes.u64 id

def rowKeyPrefix (id : UInt64) : Bytes := ascii "sql/r/" ++ Bytes.u64 id

def rowKey (id : UInt64) (pkEnc : Bytes) : Bytes := rowKeyPrefix id ++ pkEnc

def scanKey (id : UInt64) (pkEnc : Bytes) : Bytes := scanPrefix :: (Bytes.u64 id ++ pkEnc)

def secondarySpace (idxID : UInt64) : Bytes := secondaryPrefix :: Bytes.u64 idxID

/-- The smallest string greater than every string that starts with `b`; none when `b` is all `0xFF`. -/
def incBytes (b : Bytes) : Option Bytes :=
  match b.reverse.dropWhile (fun x => x = 0xFF) with
  | [] => none
  | x :: xs => some ((x + 1) :: xs).reverse

/-- The ledger value of a row. -/
def rowPayload (id : UInt64) (value : Bytes) : Bytes := tagRow :: (Bytes.u64 id ++ value)

theorem drop_payload (id : UInt64) (value : Bytes) : (rowPayload id value).drop 9 = value := by
  unfold rowPayload
  rw [List.drop_succ_cons, ← Bytes.length_u64 id, List.drop_left]

/-- The ledger value of an `AUTO_INCREMENT` counter. -/
def counterPayload (next : UInt64) : Bytes := tagAutoInc :: Bytes.u64 next

/-! ## Encodings of a row's columns -/

/-- `row[ord]`, which panics past the end. -/
def rowAt (row : Row) (ord : ℕ) : Except SqlErr (Option GoVal) :=
  match row[ord]? with
  | some v => .ok v
  | none => .error .panic

/-- `def.Columns[ord]`, which panics past the end. -/
def TableDef.columnAt (d : TableDef) (ord : ℕ) : Except SqlErr ColDef :=
  match d.columns[ord]? with
  | some c => .ok c
  | none => .error .panic

/-- An error wrapped by `fmt.Errorf`. -/
def wrapWith {α : Type} (format : String) (args : List Arg) : Except SqlErr α → Except SqlErr α
  | .ok a => .ok a
  | .error e => .error (.wrap format args e)

/-- The primary-key bytes of the columns `ords`. -/
def encodePKCols (d : TableDef) (row : Row) : List ℕ → Except SqlErr Bytes
  | [] => .ok []
  | ord :: ords => do
    let v ← rowAt row ord
    let c ← d.columnAt ord
    match v with
    | none => throw (.text "primary key column %q is NULL" [.key c.name])
    | some v => do
      let kind ← c.kind
      let enc ← wrapWith "primary key column %q: %w" [.key c.name] (encodeKeyCol kind v)
      let rest ← encodePKCols d row ords
      pure (enc ++ rest)

/-- The order-preserving primary-key bytes of a row. -/
def encodePK (d : TableDef) (row : Row) : Except SqlErr Bytes := encodePKCols d row d.pkOrds

/-- The encoding of the indexed columns `ords`, and whether one of them is NULL. -/
def encodeIndexOrds (d : TableDef) (idx : IndexDef) (row : Row) : List ℕ → Except SqlErr (Bytes × Bool)
  | [] => .ok ([], false)
  | ord :: ords => do
    let v ← rowAt row ord
    match v with
    | none => do
      let (rest, _) ← encodeIndexOrds d idx row ords
      pure (0x00 :: rest, true)
    | some v => do
      let c ← d.columnAt ord
      let kind ← c.kind
      let enc ← wrapWith "index %q column %q: %w" [.key idx.name, .key c.name] (encodeKeyCol kind v)
      let (rest, hasNull) ← encodeIndexOrds d idx row ords
      pure (0x01 :: (enc ++ rest), hasNull)

/-- `cols-enc` of a row, and whether an indexed column is NULL. -/
def encodeIndexCols (d : TableDef) (idx : IndexDef) (row : Row) : Except SqlErr (Bytes × Bool) :=
  encodeIndexOrds d idx row idx.colOrds

/-- The key of an index entry. -/
def entryKey (idxID : UInt64) (colsEnc pkEnc : Bytes) : Bytes := secondarySpace idxID ++ colsEnc ++ pkEnc

/-- The derived operation for one index entry. -/
def entryOp (idxID : UInt64) (colsEnc pkEnc : Bytes) (remove : Bool) : BatchOp :=
  if remove then { key := entryKey idxID colsEnc pkEnc, delete := true }
  else { key := entryKey idxID colsEnc pkEnc, value := pkEnc }

/-- The loop of `indexOps` over the indexes. -/
def indexOpsOf (d : TableDef) (row : Row) (pkEnc : Bytes) (remove : Bool) : List IndexDef → Except SqlErr (List BatchOp)
  | [] => .ok []
  | idx :: idxs => do
    let (colsEnc, _) ← encodeIndexCols d idx row
    let ops ← indexOpsOf d row pkEnc remove idxs
    pure (entryOp idx.id colsEnc pkEnc remove :: ops)

/-- The derived operations that add (or retract) one row's index entries. -/
def indexOps (d : TableDef) (row : Row) (pkEnc : Bytes) (remove : Bool) : Except SqlErr (List BatchOp) :=
  indexOpsOf d row pkEnc remove d.indexes

/-- The rebuild-path form of `indexOps`: an encoding error yields no operations. -/
def indexInsertOps (d : TableDef) (row : Row) (pkEnc : Bytes) : List BatchOp :=
  match indexOps d row pkEnc false with
  | .ok ops => ops
  | .error _ => []

end ImmutableLedger
