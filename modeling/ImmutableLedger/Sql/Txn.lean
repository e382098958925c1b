import ImmutableLedger.Sql.Database

/-!
# Editors and transactions

The buffers of a statement (`tableEditor` of `table.go`) and of a transaction (`txn.go`), the checks that run when a row
enters them, and the commit that applies a transaction as one ledger batch.

A buffered row is filed under its primary-key bytes. The source keeps the buffers in Go maps, which it sorts or iterates in
no fixed order; here maps are ordered.
-/

namespace ImmutableLedger

variable {L μ : Type} [LedgerApi L μ] (G : GoLib)

/-! ## Buffers -/

/-- The buffered end state of one primary key: `old` is the committed row it replaces or deletes (none for a pure
insert), `new` the row to write (none for a delete). -/
structure PendingRow where
  old : Option Row := none
  new : Option Row := none
deriving DecidableEq

/-- The pending rows of one table, by primary-key bytes. -/
abbrev TableTxn := OrdMap Bytes PendingRow

structure Savepoint where
  name : Bytes
  tables : OrdMap UInt64 TableTxn

/-- The buffered write-set of a transaction. -/
structure StoreTxn where
  baseVersion : UInt64
  readOnly : Bool := false
  tables : OrdMap UInt64 TableTxn := OrdMap.empty
  savepoints : List Savepoint := []

/-- The statement buffer of one table. -/
structure Editor where
  table : UInt64
  pending : TableTxn := OrdMap.empty

/-- What an editor works on: the store, the transaction of the session if one is open, and its own buffer. -/
structure EditState (L : Type) where
  store : SqlStore L
  txn : Option StoreTxn
  editor : Editor

/-- A call on an editor. -/
abbrev EditM (L : Type) := EStateM SqlErr (EditState L)

/-- A call on the store. -/
def onStore {α : Type} (x : SqlM L α) : EditM L α := fun s =>
  match x s.store with
  | .ok a st => .ok a { s with store := st }
  | .error e st => .error e { s with store := st }

/-- The transaction's buffer for a table. -/
def txnView (txn : Option StoreTxn) (id : UInt64) : TableTxn :=
  match txn with
  | none => OrdMap.empty
  | some t => (t.tables.get id).getD OrdMap.empty

/-- The statement buffer over the transaction buffer, as it will be after the statement: a statement row over a
transaction row keeps the transaction's `old`. -/
def effectivePending (pending rows : TableTxn) : List (Bytes × PendingRow) :=
  (pending.entries.map fun e =>
    match rows.get e.1 with
    | some q => (e.1, { old := q.old, new := e.2.new })
    | none => e) ++
  rows.entries.filter fun e => (pending.get e.1).isNone

/-! ## Unique indexes -/

/-- Whether a committed entry with the same columns and another primary key exists. -/
def uniqueConflict (idx : IndexDef) (colsEnc pkEnc : Bytes) : SqlM L Bool := do
  let start := secondarySpace idx.id ++ colsEnc
  match incBytes start with
  | none => throw (.text "index keyspace overflow" [])
  | some stop =>
    let kvs ← onLedger (LedgerApi.backendScan start stop 2)
    pure (kvs.any fun kv => kv.2 ≠ pkEnc)

/-- Whether another pending row takes the same columns. -/
def pendingClash (d : TableDef) (idx : IndexDef) (colsEnc pkEnc : Bytes) :
    List (Bytes × PendingRow) → Except SqlErr Bool
  | [] => .ok false
  | (k, p) :: ps =>
    if k = pkEnc then pendingClash d idx colsEnc pkEnc ps
    else match p.new with
      | none => pendingClash d idx colsEnc pkEnc ps
      | some row => do
        let (otherEnc, otherNull) ← encodeIndexCols d idx row
        if ¬ otherNull ∧ otherEnc = colsEnc then pure true else pendingClash d idx colsEnc pkEnc ps

/-- Whether pending work deletes or moves away a committed row with the same columns. -/
def pendingFrees (d : TableDef) (idx : IndexDef) (colsEnc pkEnc : Bytes) :
    List (Bytes × PendingRow) → Except SqlErr Bool
  | [] => .ok false
  | (k, p) :: ps =>
    match p.old with
    | none => pendingFrees d idx colsEnc pkEnc ps
    | some old =>
      if k = pkEnc then pendingFrees d idx colsEnc pkEnc ps
      else do
        let (oldEnc, oldNull) ← encodeIndexCols d idx old
        if oldNull ∨ oldEnc ≠ colsEnc then pendingFrees d idx colsEnc pkEnc ps
        else match p.new with
          | none => pure true
          | some row => do
            let (newEnc, newNull) ← encodeIndexCols d idx row
            if newNull ∨ newEnc ≠ colsEnc then pure true else pendingFrees d idx colsEnc pkEnc ps

/-- The loop of `checkUnique` over the indexes. -/
def checkUniqueOf (d : TableDef) (row : Row) (pkEnc : Bytes) (pendings : List (Bytes × PendingRow)) :
    List IndexDef → SqlM L Unit
  | [] => pure ()
  | idx :: idxs =>
    if ¬ idx.unique then checkUniqueOf d row pkEnc pendings idxs
    else do
      let (colsEnc, hasNull) ← ofSql (encodeIndexCols d idx row)
      if hasNull then checkUniqueOf d row pkEnc pendings idxs
      else
        let committed ← uniqueConflict idx colsEnc pkEnc
        -- a committed conflict stands unless pending work frees it; otherwise the conflict may be pending
        let conflict ←
          if committed then do
            let freed ← ofSql (pendingFrees d idx colsEnc pkEnc pendings)
            pure (!freed)
          else ofSql (pendingClash d idx colsEnc pkEnc pendings)
        if conflict then throw (.uniqueKey idx.name)
        checkUniqueOf d row pkEnc pendings idxs

/-- Enforce the unique indexes against committed state and the pending buffers. -/
def checkUnique (d : TableDef) (row : Row) (pkEnc : Bytes) : EditM L Unit := do
  let s ← get
  onStore (checkUniqueOf d row pkEnc (effectivePending s.editor.pending (txnView s.txn s.editor.table)) d.indexes)

/-! ## Editors -/

/-- The counter value an explicitly supplied `AUTO_INCREMENT` value stands for; 0 for none. -/
def explicitAutoInc : GoVal → UInt64
  | .int64 x => if x > 0 then x.toUInt64 else 0
  | .uint64 x => x
  | .int32 x => if x > 0 then x.toInt64.toUInt64 else 0
  | .uint32 x => x.toUInt64
  | _ => 0

/-- The counter after the explicitly supplied values of a row, from column `i` on. -/
def bumpAutoInc (row : Row) : ℕ → List ColDef → UInt64 → Except SqlErr UInt64
  | _, [], next => .ok next
  | i, c :: cols, next =>
    if ¬ c.autoInc then bumpAutoInc row (i + 1) cols next
    else do
      match ← rowAt row i with
      | none => bumpAutoInc row (i + 1) cols next
      | some v =>
        let x := explicitAutoInc v
        bumpAutoInc row (i + 1) cols (if x > 0 ∧ x ≥ next then x + 1 else next)

namespace Editor

/-- The table's definition. -/
def tableDef : EditM L TableDef := do
  let s ← get
  onStore (defAt s.editor.table)

def writable : EditM L Unit := do
  let s ← get
  match s.txn with
  | some t => if t.readOnly then throw (.text "cannot write in a read-only transaction" []) else pure ()
  | none => pure ()

/-- File a pending row. -/
def setPending (key : Bytes) (p : PendingRow) : EditM L Unit :=
  modify fun s => { s with editor := { s.editor with pending := s.editor.pending.insert key p } }

/-- Whether a row of this key exists for the transaction. -/
def existsFor (d : TableDef) (pkEnc : Bytes) : EditM L Bool := do
  let s ← get
  match (txnView s.txn s.editor.table).get pkEnc with
  | some tp => pure tp.new.isSome
  | none => onStore (rowExists d pkEnc)

def insert (row : Row) : EditM L Unit := do
  writable
  let d ← tableDef
  let pkEnc ← onStore (ofSql (encodePK d row))
  let next ← onStore (ofSql (bumpAutoInc row 0 d.columns d.autoIncNext))
  let d := { d with autoIncNext := next }
  modify fun s => { s with store := { s.store with defs := s.store.defs.insert s.editor.table d } }
  let s ← get
  match s.editor.pending.get pkEnc with
  | some p =>
    if p.new.isSome then throw .primaryKeyViolation
    -- delete then re-insert within the statement
    setPending pkEnc { p with new := some row }
  | none =>
    if ← existsFor d pkEnc then throw .primaryKeyViolation
    setPending pkEnc { new := some row }
  checkUnique d row pkEnc

def delete (row : Row) : EditM L Unit := do
  writable
  let d ← tableDef
  let pkEnc ← onStore (ofSql (encodePK d row))
  let s ← get
  match s.editor.pending.get pkEnc with
  | some p => setPending pkEnc { p with new := none }
  | none => setPending pkEnc { old := some row }

def update (oldRow newRow : Row) : EditM L Unit := do
  writable
  let d ← tableDef
  let oldPK ← onStore (ofSql (encodePK d oldRow))
  let newPK ← onStore (ofSql (encodePK d newRow))
  if oldPK = newPK then
    let s ← get
    match s.editor.pending.get oldPK with
    | some p => setPending oldPK { p with new := some newRow }
    | none => setPending oldPK { old := some oldRow, new := some newRow }
    checkUnique d newRow oldPK
  else
    delete oldRow
    insert newRow

/-- `DiscardChanges`: drop the statement buffer. -/
def discardChanges : EditM L Unit := modify fun s => { s with editor := { s.editor with pending := OrdMap.empty } }

end Editor

/-- One statement row folded into the transaction buffer. -/
def foldRow (rows : TableTxn) (e : Bytes × PendingRow) : TableTxn :=
  match rows.get e.1 with
  | some q => rows.insert e.1 { q with new := e.2.new }
  | none => rows.insert e.1 e.2

/-- The statement buffer folded into the transaction buffer. -/
def foldPending (rows pending : TableTxn) : TableTxn := pending.entries.foldl foldRow rows

/-- One pending row as ledger and derived operations. -/
def buildRowOps (d : TableDef) (pkEnc : Bytes) (p : PendingRow) : Except SqlErr (List Op × List BatchOp) :=
  match p.new, p.old with
  | none, none => .ok ([], [])
  | none, some old => do
    let ops ← indexOps d old pkEnc true
    pure ([Op.del (rowKey d.id pkEnc)], { key := scanKey d.id pkEnc, delete := true } :: ops)
  | some new, old => do
    let value ← encodeRow d.columns new
    let removed ← match old with
      | none => pure []
      | some old => indexOps d old pkEnc true
    let added ← indexOps d new pkEnc false
    pure ([Op.put (rowKey d.id pkEnc) (rowPayload d.id value)],
      { key := scanKey d.id pkEnc } :: (removed ++ added))

/-- The operations of the rows of an editor in direct mode. -/
def buildAllOps (d : TableDef) : List (Bytes × PendingRow) → Except SqlErr (List Op × List BatchOp)
  | [] => .ok ([], [])
  | (k, p) :: ps => do
    let (lo, so) ← buildRowOps d k p
    let (ledOps, scanOps) ← buildAllOps d ps
    pure (lo ++ ledOps, so ++ scanOps)

/-- The operation that persists the counter of a table that has one. -/
def counterOps (d : TableDef) : List Op :=
  if d.hasAutoInc then [Op.put (autoIncKey d.id) (counterPayload d.autoIncNext)] else []

/-- `Close`: end the statement. In a transaction the statement buffer folds into the transaction buffer, otherwise it
commits. -/
def Editor.close : EditM L Unit := do
  let s ← get
  if s.editor.pending.entries = [] then pure ()
  else match s.txn with
    | some t =>
      let rows := foldPending (txnView s.txn s.editor.table) s.editor.pending
      set { s with
        txn := some { t with tables := t.tables.insert s.editor.table rows }
        editor := { s.editor with pending := OrdMap.empty } }
    | none =>
      let d ← Editor.tableDef
      let (ledOps, scanOps) ← onStore (ofSql (buildAllOps d s.editor.pending.entries))
      onStore (commit (ledOps ++ counterOps d) scanOps)

/-! ## Commit -/

/-- The committed state of one key still is what the transaction based itself on. -/
def validatePendingLocked (d : TableDef) (pkEnc : Bytes) (p : PendingRow) : SqlM L Unit := do
  let raw ← onLedger (LedgerApi.get (rowKey d.id pkEnc))
  match p.old, raw with
  | none, some _ =>
    throw (.conflict "table %s: a row this transaction inserts was created concurrently" [.key d.name])
  | none, none => pure ()
  | some _, none =>
    throw (.conflict "table %s: a row this transaction rewrites was deleted concurrently" [.key d.name])
  | some old, some raw =>
    let oldEnc ← ofSql (encodeRow d.columns old)
    if raw.length < 9 ∨ raw.drop 9 ≠ oldEnc then
      throw (.conflict "table %s: a row this transaction rewrites was changed concurrently" [.key d.name])

/-- Whether the transaction deletes or moves away the committed row of each entry that is not its own. -/
def entriesFreed (d : TableDef) (idx : IndexDef) (tt : TableTxn) (colsEnc pkEnc : Bytes) :
    List (Bytes × Bytes) → Except SqlErr Bool
  | [] => .ok true
  | kv :: kvs =>
    if kv.2 = pkEnc then entriesFreed d idx tt colsEnc pkEnc kvs
    else match tt.get kv.2 with
      | none => .ok false
      | some q =>
        match q.new with
        | none => entriesFreed d idx tt colsEnc pkEnc kvs
        | some row => do
          let (otherEnc, otherNull) ← encodeIndexCols d idx row
          if otherNull ∨ otherEnc ≠ colsEnc then entriesFreed d idx tt colsEnc pkEnc kvs else pure false

/-- The loop of `revalidateUniqueLocked` over the buffered rows, for one index. -/
def revalidateIndex (d : TableDef) (idx : IndexDef) (tt : TableTxn) : List (Bytes × PendingRow) → SqlM L Unit
  | [] => pure ()
  | (k, p) :: ps =>
    match p.new with
    | none => revalidateIndex d idx tt ps
    | some row => do
      let (colsEnc, hasNull) ← ofSql (encodeIndexCols d idx row)
      if hasNull then revalidateIndex d idx tt ps
      else
        let start := secondarySpace idx.id ++ colsEnc
        match incBytes start with
        | none => throw (.text "index keyspace overflow" [])
        | some stop =>
          let kvs ← onLedger (LedgerApi.backendScan start stop scanChunkSize)
          let freed ← ofSql (entriesFreed d idx tt colsEnc k kvs)
          if ¬ freed then
            throw (.conflict "table %s: unique index %s: a conflicting row was committed concurrently"
              [.key d.name, .key idx.name])
          revalidateIndex d idx tt ps

/-- The loop of `revalidateUniqueLocked` over the indexes. -/
def revalidateUniqueOf (d : TableDef) (tt : TableTxn) : List IndexDef → SqlM L Unit
  | [] => pure ()
  | idx :: idxs => do
    if idx.unique then revalidateIndex d idx tt tt.entries
    revalidateUniqueOf d tt idxs

/-- Re-check the unique indexes for the buffered rows against committed state. -/
def revalidateUniqueLocked (d : TableDef) (tt : TableTxn) : SqlM L Unit := revalidateUniqueOf d tt d.indexes

/-- The loop of `commitTxn` over the rows of a table. A net no-op is skipped. -/
def commitRows (d : TableDef) (moved : Bool) : List (Bytes × PendingRow) → SqlM L (List Op × List BatchOp)
  | [] => pure ([], [])
  | (k, p) :: ps =>
    if p.old = none ∧ p.new = none then commitRows d moved ps
    else do
      if moved then validatePendingLocked d k p
      let (lo, so) ← ofSql (buildRowOps d k p)
      let (ledOps, scanOps) ← commitRows d moved ps
      pure (lo ++ ledOps, so ++ scanOps)

/-- The loop of `commitTxn` over the tables. -/
def commitTables (moved : Bool) : List (UInt64 × TableTxn) → SqlM L (List Op × List BatchOp)
  | [] => pure ([], [])
  | (id, tt) :: tts => do
    let s ← get
    match s.tableByID id with
    | none => throw (.conflict "a table in the write-set was dropped" [])
    | some d =>
      let (lo, so) ← commitRows d moved tt.entries
      if moved then revalidateUniqueLocked d tt
      let (ledOps, scanOps) ← commitTables moved tts
      pure (lo ++ counterOps d ++ ledOps, so ++ scanOps)

/-- Apply a transaction's buffer as one ledger batch and the matching derived batch. When the store committed other work
after the transaction began, the touched keys and the unique indexes are validated again first. -/
def commitTxn (txn : StoreTxn) : SqlM L Unit := do
  if txn.tables.entries = [] then pure ()
  else
    let version ← ledgerVersion
    let (ledOps, scanOps) ← commitTables (decide (version ≠ txn.baseVersion)) txn.tables.entries
    if ledOps = [] then pure () else commit ledOps scanOps

/-! ## Sessions -/

def startTransaction (s : SqlStore L) (readOnly : Bool) : StoreTxn :=
  { baseVersion := (LedgerApi.root s.led).2, readOnly }

/-- A named savepoint is dropped before it is set anew. -/
def dropSavepoint (name : Bytes) : List Savepoint → List Savepoint
  | [] => []
  | sp :: sps => if G.equalFold sp.name name then sps else sp :: dropSavepoint name sps

def createSavepoint (name : Bytes) (t : StoreTxn) : StoreTxn :=
  { t with savepoints := dropSavepoint G name t.savepoints ++ [⟨name, t.tables⟩] }

/-- The savepoints up to the last one of the name, which is the last of them. -/
def savepointsUpTo (name : Bytes) (sps : List Savepoint) : List Savepoint :=
  (sps.reverse.dropWhile fun sp => !G.equalFold sp.name name).reverse

def rollbackToSavepoint (name : Bytes) (t : StoreTxn) : Except SqlErr StoreTxn :=
  match (savepointsUpTo G name t.savepoints).getLast? with
  | none => .error (.savepointDoesNotExist name)
  | some sp => .ok { t with tables := sp.tables, savepoints := savepointsUpTo G name t.savepoints }

def releaseSavepoint (name : Bytes) (t : StoreTxn) : Except SqlErr StoreTxn :=
  match (savepointsUpTo G name t.savepoints).getLast? with
  | none => .error (.savepointDoesNotExist name)
  | some _ => .ok { t with savepoints := (savepointsUpTo G name t.savepoints).dropLast }

/-- Read one row through the transaction buffer, falling back to the committed row. -/
def readRowTxn (tt : TableTxn) (d : TableDef) (pkEnc : Bytes) : SqlM L Row :=
  match tt.get pkEnc with
  | some p =>
    match p.new with
    | none => throw (.text "table %s: scan resolved a row deleted in this transaction" [.key d.name])
    | some row => pure row
  | none => readRow G d pkEnc

end ImmutableLedger
