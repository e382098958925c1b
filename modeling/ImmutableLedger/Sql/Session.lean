import ImmutableLedger.Sql.Txn

/-!
# Sessions over one store

Sessions share a store; each has at most one open transaction (`txn.go`) and the statement buffers of its open editors
(`table.go`). The calls of all sessions interleave in any order, and the process may be restarted between any two of them.

An editor keeps the transaction that was open when it was made; here the editors of a session end when it starts or ends a
transaction.
-/

namespace ImmutableLedger

variable {L μ : Type} [LedgerApi L μ] (G : GoLib)

/-! ## AUTO_INCREMENT -/

/-- The value `GetNextAutoIncrementValue` is handed, as a counter value; 0 for none. -/
def givenAutoInc : Option GoVal → UInt64
  | some (.int64 v) => if v > 0 then v.toUInt64 else 0
  | some (.uint64 v) => v
  | some (.int v) => if v > 0 then v.toUInt64 else 0
  | some (.uint32 v) => v.toUInt64
  | some (.int32 v) => if v > 0 then v.toInt64.toUInt64 else 0
  | _ => 0

/-- The table's counter set to `next`. -/
def setCounter (id : UInt64) (d : TableDef) (next : UInt64) : SqlM L Unit :=
  modify fun s => { s with defs := s.defs.insert id { d with autoIncNext := next } }

def getNextAutoIncrementValue (id : UInt64) (insertVal : Option GoVal) : SqlM L UInt64 := do
  let d ← defAt id
  let given := givenAutoInc insertVal
  if given = 0 then
    setCounter id d (d.autoIncNext + 1)
    pure d.autoIncNext
  else
    if given ≥ d.autoIncNext then setCounter id d (given + 1)
    pure given

def setAutoIncrementValue (id : UInt64) (v : UInt64) : SqlM L Unit := do
  let d ← defAt id
  setCounter id d v
  commit [Op.put (autoIncKey d.id) (counterPayload v)] []

/-! ## Sessions -/

/-- A session: its transaction if one is open, and the statement buffers of its open editors, by table. -/
structure Session where
  txn : Option StoreTxn := none
  editors : OrdMap UInt64 TableTxn := OrdMap.empty

/-- The statement buffer of a table; empty when no editor is open. -/
def Session.pending (sess : Session) (table : UInt64) : TableTxn := (sess.editors.get table).getD OrdMap.empty

/-- A store and the sessions over it. -/
structure World (L : Type) where
  store : SqlStore L
  sessions : ℕ → Session := fun _ => {}

/-- A call of a session on the store, the transaction or an editor. A table is named by its id. -/
inductive Event where
  | start (readOnly : Bool)
  | read (table : UInt64) (pkEnc : Bytes)
  | insert (table : UInt64) (row : Row)
  | update (table : UInt64) (oldRow newRow : Row)
  | delete (table : UInt64) (row : Row)
  | discard (table : UInt64)
  | close (table : UInt64)
  | commit
  | rollback
  | createSavepoint (name : Bytes)
  | rollbackToSavepoint (name : Bytes)
  | releaseSavepoint (name : Bytes)
  | nextValue (table : UInt64) (insertVal : Option GoVal)
  | setValue (table : UInt64) (v : UInt64)
  | reopen

inductive SessionReply where
  | done
  | row (r : Row)
  | value (v : UInt64)
deriving DecidableEq

namespace World

/-- Another state of session `i`. -/
def withSession (w : World L) (i : ℕ) (sess : Session) : World L := { w with sessions := Function.update w.sessions i sess }

/-- What the editor of a table in session `i` works on. -/
def editState (w : World L) (i : ℕ) (table : UInt64) : EditState L where
  store := w.store
  txn := (w.sessions i).txn
  editor := ⟨table, (w.sessions i).pending table⟩

/-- The world after a call on that editor. -/
def edited (w : World L) (i : ℕ) (s : EditState L) : World L :=
  { w with store := s.store }.withSession i
    { txn := s.txn, editors := (w.sessions i).editors.insert s.editor.table s.editor.pending }

/-- A call on the editor of a table. -/
def edit (w : World L) (i : ℕ) (table : UInt64) (x : EditM L Unit) : Except SqlErr SessionReply × World L :=
  let r := x (w.editState i table)
  (r.val.map fun _ => .done, w.edited i r.state)

/-- `Close` of the editor of a table, which is gone afterwards. -/
def close (w : World L) (i : ℕ) (table : UInt64) : Except SqlErr SessionReply × World L :=
  let r := Editor.close (w.editState i table)
  (r.val.map fun _ => .done, { w with store := r.state.store }.withSession i
    { txn := r.state.txn, editors := (w.sessions i).editors.erase table })

/-- A call on the store. -/
def call (w : World L) {α : Type} (x : SqlM L α) (reply : α → SessionReply) : Except SqlErr SessionReply × World L :=
  ((x w.store).val.map reply, { w with store := (x w.store).state })

/-- A call on the open transaction. -/
def onTxn (w : World L) (i : ℕ) (name : Bytes) (f : StoreTxn → Except SqlErr StoreTxn) : Except SqlErr SessionReply × World L :=
  match (w.sessions i).txn with
  | none => (.error (.text "savepoint %s: no active transaction" [.key name]), w)
  | some t =>
    match f t with
    | .error e => (.error e, w)
    | .ok t' => (.ok .done, w.withSession i { w.sessions i with txn := some t' })

/-- `CommitTransaction`: the transaction ends, whether its commit succeeds or not. -/
def commit (w : World L) (i : ℕ) : Except SqlErr SessionReply × World L :=
  match (w.sessions i).txn with
  | none => (.ok .done, w)
  | some t => (w.withSession i {}).call (commitTxn t) fun _ => .done

/-- `Rollback`. -/
def rollback (w : World L) (i : ℕ) : World L :=
  match (w.sessions i).txn with
  | none => w
  | some _ => w.withSession i {}

/-- Close the store and open it again; no session survives. A store that cannot be opened has no tables. -/
def reopen (w : World L) : Except SqlErr SessionReply × World L :=
  match openSql G w.store.led with
  | .ok () s => (.ok .done, ⟨s, fun _ => {}⟩)
  | .error e s => (.error e, ⟨newSqlStore s.led, fun _ => {}⟩)

/-- One row through the transaction of session `i`. -/
def readRow (w : World L) (i : ℕ) (table : UInt64) (pkEnc : Bytes) : SqlM L Row := do
  let d ← defAt table
  readRowTxn G (txnView (w.sessions i).txn table) d pkEnc

/-- The world as a machine of the calls of its sessions. -/
def step (w : World L) (c : ℕ × Event) : Except SqlErr SessionReply × World L :=
  match c.2 with
  | .start readOnly => (.ok .done, w.withSession c.1 { txn := some (startTransaction w.store readOnly) })
  | .read table pkEnc => w.call (readRow G w c.1 table pkEnc) .row
  | .insert table row => w.edit c.1 table (Editor.insert row)
  | .update table oldRow newRow => w.edit c.1 table (Editor.update oldRow newRow)
  | .delete table row => w.edit c.1 table (Editor.delete row)
  | .discard table => w.edit c.1 table Editor.discardChanges
  | .close table => w.close c.1 table
  | .commit => w.commit c.1
  | .rollback => (.ok .done, w.rollback c.1)
  | .createSavepoint name => w.onTxn c.1 name fun t => .ok (createSavepoint G name t)
  | .rollbackToSavepoint name => w.onTxn c.1 name (rollbackToSavepoint G name)
  | .releaseSavepoint name => w.onTxn c.1 name (releaseSavepoint G name)
  | .nextValue table insertVal => w.call (getNextAutoIncrementValue table insertVal) .value
  | .setValue table v => w.call (setAutoIncrementValue table v) fun _ => .done
  | .reopen => reopen G w

end World

end ImmutableLedger
