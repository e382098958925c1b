import ImmutableLedger.Sql.Store
import ImmutableLedger.Lib.Yields

/-!
# Definitions of tables and indexes

The statements that change the catalog (`database.go`), and `TRUNCATE` (`table.go`). A definition is named by its id,
where the source passes its pointer.
-/

namespace ImmutableLedger

variable {L μ : Type} [LedgerApi L μ] (G : GoLib)

/-- A dereferenced definition. -/
def defAt (id : UInt64) : SqlM L TableDef := do
  let s ← get
  match s.defs.get id with
  | some d => pure d
  | none => throw .panic

/-! ## Tables -/

/-- What the engine hands over for a new table (`sql.PrimaryKeySchema`). -/
structure PrimaryKeySchema where
  schema : List Column
  pkOrdinals : List ℕ

/-- The definition of a new table. -/
def newTableDef (id : UInt64) (name : Bytes) (schema : PrimaryKeySchema) (comment : Bytes) :
    Except SqlErr TableDef := do
  let columns ← schema.schema.mapM fun col => wrapWith "table %s: %w" [.key name] (colDefOf col)
  let d : TableDef := { id, name, columns, pkOrds := schema.pkOrdinals, comment }
  pure (if d.hasAutoInc then { d with autoIncNext := 1 } else d)

def createTable (name : Bytes) (schema : PrimaryKeySchema) (comment : Bytes) : SqlM L Unit := do
  let s ← get
  if (s.tables.get (G.toLower name)).isSome then throw (.tableExists name)
  if schema.pkOrdinals = [] then
    throw (.text "table %s: a primary key is required (keyless tables are not supported)" [.key name])
  let d ← ofSql (newTableDef s.catMeta.nextTableID name schema comment)
  let newMeta : CatalogMeta :=
    { s.catMeta with nextTableID := s.catMeta.nextTableID + 1, tables := s.catMeta.tables ++ [name] }
  commit (catalogOps G newMeta [d]) []
  modify fun s => { s with
    catMeta := newMeta
    tables := s.tables.insert (G.toLower name) d.id
    defs := s.defs.insert d.id d }

/-- The operations that delete the rows of the scan entries `kvs`. -/
def deleteRowOps (d : TableDef) : List (Bytes × Bytes) → SqlM L (List Op × List BatchOp)
  | [] => pure ([], [])
  | kv :: kvs => do
    let pkEnc := kv.1.drop 9
    let row ← readRowLocked G d pkEnc
    let ops ← ofSql (indexOps d row pkEnc true)
    let (ledOps, scanOps) ← deleteRowOps d kvs
    pure (Op.del (rowKey d.id pkEnc) :: ledOps, { key := kv.1, delete := true } :: ops ++ scanOps)

/-- The loop that deletes every row of a table, at most `rounds` chunks; the number of rows deleted. -/
def deleteRows (d : TableDef) : ℕ → ℕ → SqlM L ℕ
  | 0, _ => throw .hang
  | rounds + 1, count => do
    let start := scanKey d.id []
    let kvs ← onLedger (LedgerApi.backendScan start ((incBytes start).getD []) scanChunkSize)
    if kvs = [] then pure count
    else
      let (ledOps, scanOps) ← deleteRowOps G d kvs
      commit ledOps scanOps
      deleteRows d rounds (count + kvs.length)

def dropTable (name : Bytes) : SqlM L Unit := do
  let s ← get
  match s.tables.get (G.toLower name) with
  | none => throw (.tableNotFound name)
  | some id =>
    let d ← defAt id
    let _ ← deleteRows G d (LedgerApi.size s.led + 1) 0
    let newMeta : CatalogMeta := { s.catMeta with tables := s.catMeta.tables.filter fun n => !G.equalFold n name }
    commit
      [Op.put metaKey (tagCatalogMeta :: G.marshalMeta newMeta), Op.del (tableKey G d.name), Op.del (autoIncKey d.id)] []
    modify fun s => { s with catMeta := newMeta, tables := s.tables.erase (G.toLower name) }

def renameTable (oldName newName : Bytes) : SqlM L Unit := do
  let s ← get
  match s.tables.get (G.toLower oldName) with
  | none => throw (.tableNotFound oldName)
  | some id =>
    if (s.tables.get (G.toLower newName)).isSome then throw (.tableExists newName)
    let d ← defAt id
    let renamed : TableDef := { d with name := newName }
    let newMeta : CatalogMeta :=
      { s.catMeta with tables := s.catMeta.tables.map fun n => if G.equalFold n oldName then newName else n }
    commit (catalogOps G newMeta [renamed] ++ [Op.del (tableKey G oldName)]) []
    modify fun s => { s with
      catMeta := newMeta
      tables := (s.tables.erase (G.toLower oldName)).insert (G.toLower newName) id
      defs := s.defs.insert id renamed }

/-- `TRUNCATE`: the number of rows deleted. -/
def truncate (id : UInt64) : SqlM L ℕ := do
  let s ← get
  let d ← defAt id
  deleteRows G d (LedgerApi.size s.led + 1) 0

/-! ## Indexes -/

/-- A column of a new index, with the prefix length asked for. -/
structure IndexColumn where
  name : Bytes
  length : ℤ := 0

/-- What the engine hands over for a new index (`sql.IndexDef`). -/
structure NewIndex where
  unique : Bool
  columns : List IndexColumn

/-- The ordinal of a column by its lower-case name; the last one of a name counts. -/
def colByName (cols : List ColDef) : OrdMap Bytes ℕ :=
  cols.zipIdx.foldl (fun m c => m.insert (G.toLower c.1.name) c.2) OrdMap.empty

/-- The ordinals of the columns of a new index. -/
def indexOrdinals (name : Bytes) (cols : OrdMap Bytes ℕ) : List IndexColumn → Except SqlErr (List ℕ)
  | [] => .ok []
  | ic :: ics => do
    match cols.get (G.toLower ic.name) with
    | none => throw (.text "index %s: unknown column %q" [.key name, .key ic.name])
    | some ord =>
      if ic.length > 0 then throw (.text "index %s: prefix lengths are not supported" [.key name])
      let ords ← indexOrdinals name cols ics
      pure (ord :: ords)

/-- The entries of a new index for the scan entries of a page, given the unique columns seen before. -/
def buildEntries (d : TableDef) (idx : IndexDef) : List (Bytes × Bytes) → OrdMap Bytes Bytes → List BatchOp →
    SqlM L (OrdMap Bytes Bytes × List BatchOp)
  | [], seen, entries => pure (seen, entries)
  | kv :: kvs, seen, entries => do
    let pkEnc := kv.1.drop 9
    let row ← readRowLocked G d pkEnc
    let (colsEnc, hasNull) ← ofSql (encodeIndexCols d idx row)
    let entries := entries ++ [entryOp idx.id colsEnc pkEnc false]
    if idx.unique ∧ ¬ hasNull then
      if ∃ prev ∈ seen.get colsEnc, prev ≠ pkEnc then throw (.uniqueKey idx.name)
      buildEntries d idx kvs (seen.insert colsEnc pkEnc) entries
    else buildEntries d idx kvs seen entries

/-- The pass over a table's scan keyspace from `next` on, at most `rounds` chunks. -/
def buildIndex (d : TableDef) (idx : IndexDef) : ℕ → Bytes → OrdMap Bytes Bytes → List BatchOp → SqlM L (List BatchOp)
  | 0, _, _, _ => throw .hang
  | rounds + 1, next, seen, entries => do
    let kvs ← onLedger (LedgerApi.backendScan next ((incBytes (scanKey d.id [])).getD []) scanChunkSize)
    match kvs.getLast? with
    | none => pure entries
    | some last =>
      let (seen, entries) ← buildEntries G d idx kvs seen entries
      if kvs.length < scanChunkSize then pure entries
      else buildIndex d idx rounds (last.1 ++ [0x00]) seen entries

def createIndex (id : UInt64) (name : Bytes) (indexDefn : NewIndex) : SqlM L Unit := do
  let s ← get
  let d ← defAt id
  if d.indexes.any fun idx => G.equalFold idx.name name then
    throw (.text "index %s already exists on table %s" [.key name, .key d.name])
  let colOrds ← ofSql (indexOrdinals G name (colByName G d.columns) indexDefn.columns)
  let idx : IndexDef := { id := s.catMeta.nextIndexID, name, unique := indexDefn.unique, colOrds }
  let entries ← buildIndex G d idx (LedgerApi.size s.led + 1) (scanKey d.id []) OrdMap.empty []
  let updated : TableDef := { d with indexes := d.indexes ++ [idx] }
  let newMeta : CatalogMeta := { s.catMeta with nextIndexID := s.catMeta.nextIndexID + 1 }
  commit (catalogOps G newMeta [updated]) entries
  modify fun s => { s with catMeta := newMeta, defs := s.defs.insert id updated }

/-- The entries of an index from `next` on, at most `rounds` chunks, as deletes. -/
def indexEntries (idxID : UInt64) : ℕ → Bytes → SqlM L (List BatchOp)
  | 0, _ => throw .hang
  | rounds + 1, next => do
    let kvs ← onLedger (LedgerApi.backendScan next ((incBytes (secondarySpace idxID)).getD []) scanChunkSize)
    let ops : List BatchOp := kvs.map fun kv => { key := kv.1, delete := true }
    match kvs.getLast? with
    | none => pure ops
    | some last =>
      if kvs.length < scanChunkSize then pure ops
      else
        let rest ← indexEntries idxID rounds (last.1 ++ [0x00])
        pure (ops ++ rest)

def dropIndex (id : UInt64) (name : Bytes) : SqlM L Unit := do
  let s ← get
  let d ← defAt id
  match d.indexes.findIdx? fun idx => G.equalFold idx.name name with
  | none => throw (.text "index %s does not exist on table %s" [.key name, .key d.name])
  | some pos =>
    match d.indexes[pos]? with
    | none => throw .panic
    | some idx =>
      let updated : TableDef := { d with indexes := d.indexes.eraseIdx pos }
      let scanOps ← indexEntries idx.id (LedgerApi.size s.led + 1) (secondarySpace idx.id)
      commit (catalogOps G s.catMeta [updated]) scanOps
      modify fun s => { s with defs := s.defs.insert id updated }

def renameIndex (id : UInt64) (old new : Bytes) : SqlM L Unit := do
  let s ← get
  let d ← defAt id
  match d.indexes.findIdx? fun idx => G.equalFold idx.name old with
  | none => throw (.text "index %s does not exist on table %s" [.key old, .key d.name])
  | some pos =>
    let updated : TableDef := { d with indexes := d.indexes.modify pos fun idx => { idx with name := new } }
    commit (catalogOps G s.catMeta [updated]) []
    modify fun s => { s with defs := s.defs.insert id updated }

/-! ## Statements -/

/-- A statement that changes the catalog, or truncates a table. A statement on a table names it. -/
inductive Ddl where
  | createTable (name : Bytes) (schema : PrimaryKeySchema) (comment : Bytes)
  | renameTable (oldName newName : Bytes)
  | dropTable (name : Bytes)
  | truncate (table : Bytes)
  | createIndex (table name : Bytes) (indexDefn : NewIndex)
  | renameIndex (table old new : Bytes)
  | dropIndex (table name : Bytes)

/-- `GetTableInsensitive`: the handle of a table, by its name. -/
def getTableInsensitive (name : Bytes) : SqlM L UInt64 := do
  let s ← get
  match s.tables.get (G.toLower name) with
  | some id => pure id
  | none => throw (.tableNotFound name)

/-- The statement on a store. -/
def Ddl.exec : Ddl → SqlM L Unit
  | createTable name schema comment => ImmutableLedger.createTable G name schema comment
  | renameTable oldName newName => ImmutableLedger.renameTable G oldName newName
  | dropTable name => ImmutableLedger.dropTable G name
  | truncate table => do
    let id ← getTableInsensitive G table
    let _ ← ImmutableLedger.truncate G id
  | createIndex table name indexDefn => do
    let id ← getTableInsensitive G table
    ImmutableLedger.createIndex G id name indexDefn
  | renameIndex table old new => do
    let id ← getTableInsensitive G table
    ImmutableLedger.renameIndex G id old new
  | dropIndex table name => do
    let id ← getTableInsensitive G table
    ImmutableLedger.dropIndex G id name

/-- The store as a machine of these statements. -/
def SqlStore.ddl (s : SqlStore L) (c : Ddl) : Except SqlErr Unit × SqlStore L := ((c.exec G s).val, (c.exec G s).state)

end ImmutableLedger
