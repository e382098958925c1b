import ImmutableLedger.Sql.Session

/-!
# The whole service

Sessions run transactions over one store, and statements on the catalog between them (`txn.go`, `database.go`). A statement
on the catalog commits directly; `DROP TABLE` and `TRUNCATE` first discard what the open transaction of their own session
has buffered for the table.
-/

namespace ImmutableLedger

variable {L μ : Type} [LedgerApi L μ] (G : GoLib)

/-- What a session asks for: a call, or a statement on the catalog. -/
inductive SqlRequest where
  | call (e : Event)
  | ddl (c : Ddl)

/-- The table whose buffered rows a statement discards. -/
def Ddl.discards : Ddl → Option Bytes
  | dropTable name => some name
  | truncate table => some table
  | _ => none

namespace World

/-- The buffered rows of a table dropped from the open transaction of session `i`. -/
def forget (w : World L) (i : ℕ) (id : UInt64) : World L :=
  match (w.sessions i).txn with
  | none => w
  | some t => w.withSession i { w.sessions i with txn := some { t with tables := t.tables.erase id } }

/-- What is discarded before a statement of session `i` on the catalog runs (`Database.DropTable`, `Truncate`). -/
def beforeDdl (w : World L) (i : ℕ) (c : Ddl) : World L :=
  match c.discards.bind fun table => w.store.tables.get (G.toLower table) with
  | none => w
  | some id => w.forget i id

/-- A statement on the catalog. -/
def ddl (w : World L) (i : ℕ) (c : Ddl) : Except SqlErr SessionReply × World L :=
  (w.beforeDdl G i c).call (c.exec G) fun _ => .done

/-- The world as a machine of the requests of its sessions. -/
def serve (w : World L) (c : ℕ × SqlRequest) : Except SqlErr SessionReply × World L :=
  match c.2 with
  | .call e => w.step G (c.1, e)
  | .ddl q => w.ddl G c.1 q

end World

end ImmutableLedger
