import ImmutableLedger.Sql.Store
import ImmutableLedger.Tree.Collect
import ImmutableLedger.Model.Ledger

/-!
# The ledger by its logical keys

What the SQL layer sees of a ledger: a map from logical keys to values with a version, and the derived keyspace beside
it. Paths, trees and earlier versions are gone; paths only order the leaves of a snapshot.

`plan` decides the fate of the next writes of the backend: a write that fails has no effect, and once the plan is used
up every write succeeds. A batch that changes the map is one write.

* `commit_cases`: how a commit of the SQL layer ends.
-/

namespace ImmutableLedger

/-- The operation as the write of a record. -/
def Op.record (op : Op) : BatchOp := ⟨op.key, op.value, op.delete⟩

/-- A ledger as the map from logical keys to values. -/
structure MapLedger (C : Crypto) (ck : Bytes) where
  vals : OrdMap Bytes Bytes := OrdMap.empty
  version : UInt64 := 0
  history : Bool := false
  head : Hash := Hash.zero
  derived : MemBackend := OrdMap.empty
  plan : List Bool := []

variable {C : Crypto} {ck : Bytes}

/-- The SQL store over such a ledger. -/
abbrev MapSql (C : Crypto) (ck : Bytes) := SqlStore (MapLedger C ck)

/-- A map by logical keys as the map by paths. -/
def byPath (C : Crypto) (ck : Bytes) (vals : OrdMap Bytes Bytes) : OrdMap Hash Bytes :=
  vals.entries.foldl (fun m e => m.insert (pathOf C ck e.1) e.2) OrdMap.empty

/-- The operations of a batch on a map by logical keys. -/
def writeOps (vals : OrdMap Bytes Bytes) (ops : List Op) : OrdMap Bytes Bytes :=
  MemBackend.writeBatch vals (ops.map Op.record)

namespace MapLedger

def root (l : MapLedger C ck) : Hash × UInt64 := (contentRoot C ck (byPath C ck l.vals), l.version)

/-- The next write fails. -/
def Fails (l : MapLedger C ck) : Prop := l.plan.head? = some false

instance (l : MapLedger C ck) : Decidable l.Fails := inferInstanceAs (Decidable (_ = _))

/-- The ledger after its next write. -/
def spend (l : MapLedger C ck) : MapLedger C ck := { l with plan := l.plan.tail }

/-- The batch changes the map. -/
def Changes (l : MapLedger C ck) (ops : List Op) : Prop := writeOps l.vals ops ≠ l.vals

instance (l : MapLedger C ck) (ops : List Op) : Decidable (l.Changes ops) := inferInstanceAs (Decidable (¬ _))

/-- A new version holding `vals`, with the chain head bound when the ledger keeps a history. -/
def advance (l : MapLedger C ck) (vals : OrdMap Bytes Bytes) : MapLedger C ck :=
  if l.history then
    let head := historyLink C l.head l.root.1 (l.version + 1)
    { l with vals := vals.insert historyKey head.bytes, version := l.version + 1, head }
  else { l with vals, version := l.version + 1 }

def putBatch (ops : List Op) : EStateM Err (MapLedger C ck) (Hash × UInt64) := fun l =>
  match Model.reservedOp ops with
  | some op => .error (errInvalidf "key %q uses the reserved system prefix" [.key op.key]) l
  | none =>
    if l.Changes ops then
      if l.Fails then .error (errBackend "write failed") l.spend
      else .ok ((l.advance (writeOps l.vals ops)).root) (l.advance (writeOps l.vals ops)).spend
    else .ok l.root l

/-- A page of the leaves of the current version. -/
def snapshotLeaves (version : UInt64) (startAfter : Option Hash) (max : ℕ) :
    EStateM Err (MapLedger C ck) (List (Hash × Bytes) × Bool) := fun l =>
  if version = l.version then
    let rest := remaining startAfter (byPath C ck l.vals).entries
    .ok (rest.take max, decide (rest.length ≤ max)) l
  else .error (errMissingf "root record v%d" [.uint version]) l

def writeBatch (ops : List BatchOp) : EStateM Err (MapLedger C ck) Unit := fun l =>
  if l.Fails then .error (.raw "write failed") l.spend
  else .ok () { l.spend with derived := MemBackend.writeBatch l.derived ops }

instance : LedgerApi (MapLedger C ck) Hash where
  root := root
  get key := fun l => .ok (l.vals.get key) l
  putBatch := putBatch
  snapshotLeaves := snapshotLeaves
  backendGet key := fun l => .ok (OrdMap.get l.derived key) l
  backendScan start stop limit := fun l => .ok (MemBackend.scan l.derived start stop limit) l
  backendWriteBatch := writeBatch
  size l := l.vals.size + l.derived.size

/-- The ledger after a batch that was not refused and did not fail. -/
def put (l : MapLedger C ck) (ops : List Op) : MapLedger C ck :=
  if l.Changes ops then (l.advance (writeOps l.vals ops)).spend else l

/-- The ledger after a derived batch that did not fail. -/
def derive (l : MapLedger C ck) (ops : List BatchOp) : MapLedger C ck :=
  { l.spend with derived := MemBackend.writeBatch l.derived ops }

variable (l : MapLedger C ck) (ops : List Op) (bops : List BatchOp)

@[simp] theorem spend_vals : l.spend.vals = l.vals := rfl
@[simp] theorem spend_version : l.spend.version = l.version := rfl
@[simp] theorem spend_derived : l.spend.derived = l.derived := rfl
@[simp] theorem derive_derived : (l.derive bops).derived = MemBackend.writeBatch l.derived bops := rfl

@[simp] theorem advance_derived (vals : OrdMap Bytes Bytes) : (l.advance vals).derived = l.derived := by
  unfold advance
  split <;> rfl

@[simp] theorem advance_version (vals : OrdMap Bytes Bytes) : (l.advance vals).version = l.version + 1 := by
  unfold advance
  split <;> rfl

@[simp] theorem advance_plan (vals : OrdMap Bytes Bytes) : (l.advance vals).plan = l.plan := by
  unfold advance
  split <;> rfl

/-- A commit binds the map and, with the history on, the chain head. -/
theorem advance_get (vals : OrdMap Bytes Bytes) {k : Bytes} (hk : k ≠ historyKey) :
    (l.advance vals).vals.get k = vals.get k := by
  unfold advance
  split
  · exact (OrdMap.get_insert _ _ _ _).trans (if_neg hk)
  · rfl

@[simp] theorem put_derived : (l.put ops).derived = l.derived := by
  unfold put
  split <;> simp

/-- Once the plan is used up no write fails. -/
theorem not_fails (h : l.plan = []) : ¬ l.Fails := by
  unfold Fails
  rw [h]
  exact fun hf => by cases hf

theorem put_plan (h : l.plan = []) : (l.put ops).plan = [] := by
  unfold put
  split
  · show (l.advance _).plan.tail = []
    rw [advance_plan, h]
    rfl
  · exact h

/-- **What a key holds after a batch.** -/
theorem put_get {k : Bytes} (hk : k ≠ historyKey) : (l.put ops).vals.get k = (writeOps l.vals ops).get k := by
  unfold put
  split
  · exact advance_get l _ hk
  · rename_i h
    rw [not_not.1 h]

end MapLedger

/-! ## Batches by logical keys -/

theorem reservedOp_eq_none {ops : List Op} (h : ∀ op ∈ ops, reservedKeyPrefix.isPrefixOf op.key = false) :
    Model.reservedOp ops = none :=
  List.find?_eq_none.2 fun op hop => by rw [h op hop]; exact Bool.false_ne_true

/-- A key no operation names keeps its value. -/
theorem get_writeOps_of_notin {vals : OrdMap Bytes Bytes} {ops : List Op} {k : Bytes} (h : ∀ op ∈ ops, op.key ≠ k) :
    (writeOps vals ops).get k = vals.get k :=
  MemBackend.get_writeBatch_of_notin (fun o ho => by
    obtain ⟨op, hop, rfl⟩ := List.mem_map.1 ho
    exact h op hop) vals

/-- A key holds what the operations on it, which all agree, make it. -/
theorem get_writeOps {vals : OrdMap Bytes Bytes} {ops : List Op} {k : Bytes} {r : Option Bytes}
    (hmem : ∃ op ∈ ops, op.key = k)
    (hall : ∀ op ∈ ops, op.key = k → (if op.delete then none else some op.value) = r) :
    (writeOps vals ops).get k = r := by
  refine MemBackend.get_writeBatch ?_ ?_ vals
  · obtain ⟨op, hop, hk⟩ := hmem
    exact ⟨op.record, List.mem_map_of_mem hop, hk⟩
  · intro o ho hk
    obtain ⟨op, hop, rfl⟩ := List.mem_map.1 ho
    exact hall op hop hk

/-! ## Calls of the SQL layer -/

section
variable {α β : Type} (s : MapSql C ck)

theorem onLedger_ok {x : EStateM Err (MapLedger C ck) α} {a : α} {l : MapLedger C ck} (h : x s.led = .ok a l) :
    onLedger x s = .ok a { s with led := l } := by
  simp only [onLedger, h]

theorem onLedger_error {x : EStateM Err (MapLedger C ck) α} {e : Err} {l : MapLedger C ck} (h : x s.led = .error e l) :
    onLedger x s = .error (.ledger e) { s with led := l } := by
  simp only [onLedger, h]

@[simp] theorem ledgerGet_run (key : Bytes) : onLedger (LedgerApi.get key) s = .ok (s.led.vals.get key) s := rfl

@[simp] theorem backendGet_run (key : Bytes) :
    onLedger (LedgerApi.backendGet key) s = .ok (OrdMap.get s.led.derived key) s := rfl

@[simp] theorem backendScan_run (start stop : Bytes) (limit : ℕ) :
    onLedger (LedgerApi.backendScan start stop limit) s = .ok (MemBackend.scan s.led.derived start stop limit) s := rfl

@[simp] theorem ledgerVersion_run : (ledgerVersion : SqlM (MapLedger C ck) UInt64) s = .ok s.led.version s := rfl

@[simp] theorem ofSql_ok (a : α) : (ofSql (.ok a) : SqlM (MapLedger C ck) α) = pure a := rfl

end

/-- How a commit ends: refused for a reserved key, failed at the ledger's write, failed at the derived write after the
ledger's, or done. -/
inductive Committed (ledOps : List Op) (scanOps : List BatchOp) (s : MapSql C ck) :
    EStateM.Result SqlErr (MapSql C ck) Unit → Prop
  | refused {op : Op} (h : Model.reservedOp ledOps = some op) :
    Committed ledOps scanOps s
      (.error (.ledger (errInvalidf "key %q uses the reserved system prefix" [.key op.key])) s)
  | failed (h : Model.reservedOp ledOps = none) (hc : s.led.Changes ledOps) (hf : s.led.Fails) :
    Committed ledOps scanOps s (.error (.ledger (errBackend "write failed")) { s with led := s.led.spend })
  | torn (h : Model.reservedOp ledOps = none) (hl : ¬ (s.led.Changes ledOps ∧ s.led.Fails))
      (hf : (s.led.put ledOps).Fails) :
    Committed ledOps scanOps s (.error (.ledger (.raw "write failed")) { s with led := (s.led.put ledOps).spend })
  | done (h : Model.reservedOp ledOps = none) (hl : ¬ (s.led.Changes ledOps ∧ s.led.Fails))
      (hf : ¬ (s.led.put ledOps).Fails) :
    Committed ledOps scanOps s
      (.ok () { s with led := (s.led.put ledOps).derive (scanOps ++ [markerOp (s.led.put ledOps).version]) })

section
variable {ops : List Op} {l : MapLedger C ck}

theorem putBatch_refused {op : Op} (h : Model.reservedOp ops = some op) :
    (LedgerApi.putBatch ops : EStateM Err (MapLedger C ck) _) l =
      .error (errInvalidf "key %q uses the reserved system prefix" [.key op.key]) l := by
  show MapLedger.putBatch ops l = _
  unfold MapLedger.putBatch
  simp only [h]

theorem putBatch_fails (h : Model.reservedOp ops = none) (hl : l.Changes ops ∧ l.Fails) :
    (LedgerApi.putBatch ops : EStateM Err (MapLedger C ck) _) l = .error (errBackend "write failed") l.spend := by
  show MapLedger.putBatch ops l = _
  unfold MapLedger.putBatch
  simp only [h]
  rw [if_pos hl.1, if_pos hl.2]

theorem putBatch_run (h : Model.reservedOp ops = none) (hl : ¬ (l.Changes ops ∧ l.Fails)) :
    (LedgerApi.putBatch ops : EStateM Err (MapLedger C ck) _) l = .ok (l.put ops).root (l.put ops) := by
  show MapLedger.putBatch ops l = _
  unfold MapLedger.putBatch MapLedger.put
  simp only [h]
  by_cases hc : l.Changes ops
  · rw [if_pos hc, if_pos hc, if_neg fun hf => hl ⟨hc, hf⟩]
    rfl
  · rw [if_neg hc, if_neg hc]

end

/-- **A commit of the SQL layer.** -/
theorem commit_cases (ledOps : List Op) (scanOps : List BatchOp) (s : MapSql C ck) :
    Committed ledOps scanOps s (commit ledOps scanOps s) := by
  unfold commit
  cases hres : Model.reservedOp ledOps with
  | some op =>
    rw [EStateM.run_bind_error (onLedger_error s (putBatch_refused hres))]
    exact .refused hres
  | none =>
    by_cases hl : s.led.Changes ledOps ∧ s.led.Fails
    · rw [EStateM.run_bind_error (onLedger_error s (putBatch_fails hres hl))]
      exact .failed hres hl.1 hl.2
    · rw [EStateM.run_bind_ok (onLedger_ok s (putBatch_run hres hl)), EStateM.run_bind_ok (ledgerVersion_run _)]
      by_cases hf : (s.led.put ledOps).Fails
      · have hwrite : (LedgerApi.backendWriteBatch (scanOps ++ [markerOp (s.led.put ledOps).version]) :
            EStateM Err (MapLedger C ck) Unit) (s.led.put ledOps) = .error (.raw "write failed") (s.led.put ledOps).spend :=
          if_pos hf
        rw [onLedger_error _ hwrite]
        exact .torn hres hl hf
      · have hwrite : (LedgerApi.backendWriteBatch (scanOps ++ [markerOp (s.led.put ledOps).version]) :
            EStateM Err (MapLedger C ck) Unit) (s.led.put ledOps) =
            .ok () ((s.led.put ledOps).derive (scanOps ++ [markerOp (s.led.put ledOps).version])) := if_neg hf
        rw [onLedger_ok _ hwrite]
        exact .done hres hl hf

/-- A commit that returned. -/
theorem commit_ok {ledOps : List Op} {scanOps : List BatchOp} {s s' : MapSql C ck}
    (h : commit ledOps scanOps s = .ok () s') :
    s' = { s with led := (s.led.put ledOps).derive (scanOps ++ [markerOp (s.led.put ledOps).version]) } := by
  have hc := commit_cases ledOps scanOps s
  rw [h] at hc
  cases hc
  rfl

end ImmutableLedger
