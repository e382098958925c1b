import ImmutableLedger.Sql.Catalog
import ImmutableLedger.Ledger.Snapshot

/-!
# The SQL store

The SQL layer's store (`store.go`): the catalog, the rows and the derived keyspace on top of a ledger. What it calls of
the ledger and of the backend they share is the class `LedgerApi`; the ledger's own store is one instance, over any
backend.

The source keeps table definitions behind pointers that its editors share. Here they live in `defs`, under their ids,
and `tables` maps a lower-case name to the id.
-/

namespace ImmutableLedger

/-! ## The ledger underneath -/

/-- What the SQL layer calls of the ledger, and of the backend underneath for the derived keyspace. A leaf of a snapshot
comes with the mark to resume after it. `size` only bounds how many rounds a loop is given. -/
class LedgerApi (L : Type) (μ : outParam Type) where
  root : L → Hash × UInt64
  get : Bytes → EStateM Err L (Option Bytes)
  putBatch : List Op → EStateM Err L (Hash × UInt64)
  snapshotLeaves : UInt64 → Option μ → ℕ → EStateM Err L (List (μ × Bytes) × Bool)
  backendGet : Bytes → EStateM Err L (Option Bytes)
  backendScan : Bytes → Bytes → ℕ → EStateM Err L (List (Bytes × Bytes))
  backendWriteBatch : List BatchOp → EStateM Err L Unit
  size : L → ℕ

/-- The ledger's store under given primitives. -/
def LedgerStore (_ : Crypto) (β : Type) : Type := Store β

/-- A call of the backend itself: its error is handed on as it is. -/
def rawCall {β α : Type} (f : β → Except String α × β) : LedgerM β α := fun s =>
  match f s.backend with
  | (.ok a, b) => .ok a { s with backend := b }
  | (.error e, b) => .error (.raw e) { s with backend := b }

instance (C : Crypto) (β : Type) [Backend β] : LedgerApi (LedgerStore C β) Hash where
  root s := (Store.root s, Store.version s)
  get key := (Store.get C key : LedgerM β (Option Bytes))
  putBatch ops := (Store.putBatch C ops : LedgerM β (Hash × UInt64))
  snapshotLeaves version startAfter max := (do
    let (leaves, done) ← Store.snapshotLeaves C version startAfter max
    pure (leaves.map fun l => (l.path, l.value), done) : LedgerM β (List (Hash × Bytes) × Bool))
  backendGet key := (rawCall fun b => Backend.get b key : LedgerM β (Option Bytes))
  backendScan start stop limit := (rawCall fun b => Backend.scan b start stop limit : LedgerM β (List (Bytes × Bytes)))
  backendWriteBatch ops := (rawCall fun b => Backend.writeBatch b ops : LedgerM β Unit)
  size s := Backend.len (Store.backend s)

/-! ## The store -/

/-- The store: the ledger, the catalog root, the tables by lower-case name and the definitions by id. -/
structure SqlStore (L : Type) where
  led : L
  catMeta : CatalogMeta
  tables : OrdMap Bytes UInt64
  defs : OrdMap UInt64 TableDef

/-- A call on the SQL store; a failing call keeps the changes it made before it failed. -/
abbrev SqlM (L : Type) := EStateM SqlErr (SqlStore L)

variable {L μ : Type} [LedgerApi L μ] (G : GoLib)

/-- A call on the ledger. -/
def onLedger {α : Type} (x : EStateM Err L α) : SqlM L α := fun s =>
  match x s.led with
  | .ok a l => .ok a { s with led := l }
  | .error e l => .error (.ledger e) { s with led := l }

/-- A pure computation that may fail. -/
def ofSql {α : Type} : Except SqlErr α → SqlM L α
  | .ok a => pure a
  | .error e => throw e

/-- `s.led.Root()`'s version. -/
def ledgerVersion : SqlM L UInt64 := do
  let s ← get
  pure (LedgerApi.root s.led).2

namespace SqlStore

/-- A catalogued table by its id. -/
def tableByID (s : SqlStore L) (id : UInt64) : Option TableDef :=
  if s.tables.entries.any (fun e => e.2 = id) then s.defs.get id else none

end SqlStore

/-! ## Catalog persistence -/

/-- The persisted counter of a table with an `AUTO_INCREMENT` column; 1 when there is none. -/
def loadCounter (id : UInt64) : SqlM L UInt64 := do
  match ← onLedger (LedgerApi.get (autoIncKey id)) with
  | some craw =>
    let next := if craw.length = 9 ∧ craw.head? = some tagAutoInc then Bytes.toU64 (craw.drop 1) else 0
    pure (if next = 0 then 1 else next)
  | none => pure 1

def loadTable (name : Bytes) : SqlM L TableDef := do
  match ← onLedger (LedgerApi.get (tableKey G name)) with
  | none => throw (.text "catalog names table %q but its definition is missing" [.key name])
  | some raw =>
    if raw.head? ≠ some tagCatalogTable then throw (.text "table %q definition is corrupt" [.key name])
    match G.unmarshalTable (raw.drop 1) with
    | .error e => throw (.wrap "table %q definition: %w" [.key name] (.text e []))
    | .ok d =>
      if d.hasAutoInc then
        let next ← loadCounter d.id
        pure { d with autoIncNext := next }
      else pure d

/-- The loop of `loadCatalog` over the listed tables. -/
def loadTables : List Bytes → SqlM L Unit
  | [] => pure ()
  | name :: names => do
    let d ← loadTable G name
    modify fun s => { s with tables := s.tables.insert (G.toLower name) d.id, defs := s.defs.insert d.id d }
    loadTables names

def loadCatalog : SqlM L Unit := do
  match ← onLedger (LedgerApi.get metaKey) with
  | none => modify fun s => { s with catMeta := { nextTableID := 1, nextIndexID := 1 } }
  | some raw =>
    if raw.head? ≠ some tagCatalogMeta then throw (.text "catalog meta entry is corrupt" [])
    match G.unmarshalMeta (raw.drop 1) with
    | .error e => throw (.wrap "catalog meta: %w" [] (.text e []))
    | .ok m => do
      modify fun s => { s with catMeta := m }
      loadTables G m.tables

/-- The operations that persist the catalog root and the definitions. -/
def catalogOps (m : CatalogMeta) (defs : List TableDef) : List Op :=
  Op.put metaKey (tagCatalogMeta :: G.marshalMeta m) ::
    defs.map fun d => Op.put (tableKey G d.name) (tagCatalogTable :: G.marshalTable d)

/-! ## Commits -/

/-- The operation that advances the applied-version marker. -/
def markerOp (version : UInt64) : BatchOp := { key := [scanMetaKey], value := Bytes.u64 version }

/-- Apply the ledger operations of a statement, then its derived operations with the marker. -/
def commit (ledOps : List Op) (scanOps : List BatchOp) : SqlM L Unit := do
  let _ ← onLedger (LedgerApi.putBatch ledOps)
  let version ← ledgerVersion
  onLedger (LedgerApi.backendWriteBatch (scanOps ++ [markerOp version]))

/-! ## Rows -/

/-- `readRowLocked`: fetch and decode one row by its primary-key bytes. -/
def readRowLocked (d : TableDef) (pkEnc : Bytes) : SqlM L Row := do
  match ← onLedger (LedgerApi.get (rowKey d.id pkEnc)) with
  | none => throw (.text "table %s: scan entry without a ledger row" [.key d.name])
  | some raw =>
    if raw.length < 9 ∨ raw.head? ≠ some tagRow then throw (.text "table %s: row entry is corrupt" [.key d.name])
    ofSql (decodeRow G.round32 d.columns (raw.drop 9))

/-- `readRow`, which also checks the id in the entry. -/
def readRow (d : TableDef) (pkEnc : Bytes) : SqlM L Row := do
  match ← onLedger (LedgerApi.get (rowKey d.id pkEnc)) with
  | none => throw (.text "table %s: scan entry without a ledger row" [.key d.name])
  | some raw =>
    if raw.length < 9 ∨ raw.head? ≠ some tagRow ∨ Bytes.toU64 ((raw.drop 1).take 8) ≠ d.id then
      throw (.text "table %s: row entry is corrupt" [.key d.name])
    ofSql (decodeRow G.round32 d.columns (raw.drop 9))

def rowExists (d : TableDef) (pkEnc : Bytes) : SqlM L Bool := do
  let raw ← onLedger (LedgerApi.get (rowKey d.id pkEnc))
  pure raw.isSome

/-! ## The derived keyspace -/

def appliedVersion : SqlM L UInt64 := do
  match ← onLedger (LedgerApi.backendGet [scanMetaKey]) with
  | none => pure 0
  | some raw => pure (if raw.length ≠ 8 then 0 else Bytes.toU64 raw)

/-- The loop that drops the scan keyspace, at most `rounds` chunks. -/
def dropScanSpace : ℕ → SqlM L Unit
  | 0 => throw .hang
  | rounds + 1 => do
    let kvs ← onLedger (LedgerApi.backendScan [scanPrefix] [scanPrefix + 1] scanChunkSize)
    if kvs = [] then pure ()
    else
      onLedger (LedgerApi.backendWriteBatch (kvs.map fun kv => { key := kv.1, delete := true }))
      if kvs.length < scanChunkSize then pure () else dropScanSpace rounds

/-- The derived operations of one ledger value: those of a row of a catalogued table, none for any other value. -/
def leafOps (s : SqlStore L) (v : Bytes) : Except SqlErr (List BatchOp) :=
  if v.length < 9 ∨ v.head? ≠ some tagRow then .ok []
  else
    match s.tableByID (Bytes.toU64 ((v.drop 1).take 8)) with
    | none => .ok []
    | some d => do
      let row ← wrapWith "rebuild: table %s: %w" [.key d.name] (decodeRow G.round32 d.columns (v.drop 9))
      let pkEnc ← encodePK d row
      pure ({ key := scanKey (Bytes.toU64 ((v.drop 1).take 8)) pkEnc } :: indexInsertOps d row pkEnc)

/-- The loop of the rebuild over the leaves of one page: the operations not yet written. -/
def rebuildPage : List Bytes → List BatchOp → SqlM L (List BatchOp)
  | [], ops => pure ops
  | v :: vs, ops => do
    let s ← get
    let new ← ofSql (leafOps G s v)
    let ops := ops ++ new
    -- a leaf that is no row of a catalogued table does not flush
    if new ≠ [] ∧ ops.length ≥ scanChunkSize then
      onLedger (LedgerApi.backendWriteBatch ops)
      rebuildPage vs []
    else rebuildPage vs ops

/-- The loop of the rebuild over the pages after `startAfter`, at most `rounds` of them. -/
def rebuildPages (version : UInt64) : ℕ → Option μ → List BatchOp → SqlM L (List BatchOp)
  | 0, _, _ => throw .hang
  | rounds + 1, startAfter, ops => do
    let (leaves, done) ← onLedger (LedgerApi.snapshotLeaves version startAfter scanChunkSize)
    let ops ← rebuildPage G (leaves.map Prod.snd) ops
    if done then pure ops
    else match leaves.getLast? with
      | none => throw .panic
      | some last => rebuildPages version rounds (some last.1) ops

/-- Rebuild the derived keyspace when it does not match the ledger version. -/
def reconcileScanSpace : SqlM L Unit := do
  let version ← ledgerVersion
  let applied ← appliedVersion
  if applied = version then pure ()
  else
    let s ← get
    dropScanSpace (LedgerApi.size s.led + 1)
    let s ← get
    let ops ← rebuildPages G version (LedgerApi.size s.led + 1) none []
    onLedger (LedgerApi.backendWriteBatch (ops ++ [markerOp version]))

/-- The body of `Open`, on a new store. -/
def openSqlM : SqlM L Unit := do
  loadCatalog G
  reconcileScanSpace G

/-- The store before anything is loaded. -/
def newSqlStore (led : L) : SqlStore L where
  led := led
  catMeta := { nextTableID := 0, nextIndexID := 0 }
  tables := OrdMap.empty
  defs := OrdMap.empty

/-- `Open`: bind the SQL layer to a ledger. -/
def openSql (led : L) : EStateM.Result SqlErr (SqlStore L) Unit := openSqlM G (newSqlStore led)

end ImmutableLedger
