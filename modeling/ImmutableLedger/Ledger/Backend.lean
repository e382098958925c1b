import ImmutableLedger.Lib.OrdMap
import ImmutableLedger.Ledger.Node

/-!
# Storage backends and record keys

The backend interface of the store (`backend.go`), its in-memory implementation, a backend that
answers as an adversary likes, and the keys of the records a store keeps in a backend (`store.go`).

* `RecKey.bytes_inj`: records of different kinds or identities have different keys.
* `MemBackend.get_writeBatch`: what a record reads as after a batch.
* `MemBackend.mem_scan`: what a scan returns.
-/

namespace ImmutableLedger

/-! ## The interface -/

/-- A single operation inside an atomic batch: a put, or a delete. -/
structure BatchOp where
  key : Bytes
  value : Bytes := []
  delete : Bool := false
deriving DecidableEq

/-- The key-value interface the store sits on. A call may fail, and may change the backend. `scan`
returns the records in `[start, stop)` in ascending key order, at most `limit` of them
(0 for all); an empty `stop` is unbounded. `len`, the number of records, only bounds how many rounds
a scan loop is given. -/
class Backend (β : Type) where
  get : β → Bytes → Except String (Option Bytes) × β
  writeBatch : β → List BatchOp → Except String Unit × β
  scan : β → Bytes → Bytes → ℕ → Except String (List (Bytes × Bytes)) × β
  len : β → ℕ

/-- The in-memory backend: a map from keys to records. -/
abbrev MemBackend := OrdMap Bytes Bytes

namespace MemBackend

/-- One operation of a batch. -/
def applyOp (m : MemBackend) (op : BatchOp) : MemBackend :=
  if op.delete then m.erase op.key else m.insert op.key op.value

/-- All operations of a batch, in order. -/
def writeBatch (m : MemBackend) (ops : List BatchOp) : MemBackend := ops.foldl applyOp m

/-- The records with `start ≤ key`, and `key < stop` unless `stop` is empty. -/
def scan (m : MemBackend) (start stop : Bytes) (limit : ℕ) : List (Bytes × Bytes) :=
  let es := m.entries.filter (fun e => decide (start ≤ e.1) && (stop.isEmpty || decide (e.1 < stop)))
  if limit = 0 then es else es.take limit

end MemBackend

instance : Backend MemBackend where
  get m k := (.ok (OrdMap.get m k), m)
  writeBatch m ops := (.ok (), m.writeBatch ops)
  scan m start stop limit := (.ok (m.scan start stop limit), m)
  len m := m.size

/-- What a backend may answer to a read: a failure, absence, or any bytes. -/
abbrev Answer := Except String (Option Bytes)

/-- An adversarial backend: it answers each read by a strategy that sees every read before it, and
keeps the transcript. -/
structure Hostile where
  strategy : List (Bytes × Answer) → Bytes → Answer
  log : List (Bytes × Answer) := []

instance : Backend Hostile where
  get b k := (b.strategy b.log k, { b with log := b.log ++ [(k, b.strategy b.log k)] })
  writeBatch b _ := (.ok (), b)
  scan b _ _ _ := (.ok [], b)
  len _ := 0

/-! ## Record keys -/

def recNode : UInt8 := 110 -- 'n'
def recValue : UInt8 := 118 -- 'v'
def recStale : UInt8 := 115 -- 's'
def recRoot : UInt8 := 114 -- 'r'
def recCheckpoint : UInt8 := 99 -- 'c'

def nodeRecordKey (nk : NodeKey) : Bytes := recNode :: nk.encode

def valueRecordKey (vh : Hash) (valueVersion : UInt64) : Bytes :=
  recValue :: (vh.bytes ++ Bytes.u64 valueVersion)

def staleRecordKey (staleSince : UInt64) (targetRecordKey : Bytes) : Bytes :=
  recStale :: (Bytes.u64 staleSince ++ targetRecordKey)

def rootRecordKey (version : UInt64) : Bytes := recRoot :: Bytes.u64 version

def checkpointRecordKey : Bytes := [recCheckpoint]

/-- The identity of a record. -/
inductive RecKey where
  | node (nk : NodeKey)
  | value (vh : Hash) (valueVersion : UInt64)
  | stale (staleSince : UInt64) (target : Bytes)
  | root (version : UInt64)
  | checkpoint
deriving DecidableEq

namespace RecKey

/-- The key a record is stored under. -/
def bytes : RecKey → Bytes
  | node nk => nodeRecordKey nk
  | value vh v => valueRecordKey vh v
  | stale t k => staleRecordKey t k
  | root v => rootRecordKey v
  | checkpoint => checkpointRecordKey

/-- **Record keys do not collide.** -/
theorem bytes_inj {a b : RecKey} (h : a.bytes = b.bytes) : a = b := by
  have hhead := congrArg List.head? h
  have htail := congrArg List.tail h
  cases a <;> cases b <;>
    simp only [bytes, nodeRecordKey, valueRecordKey, staleRecordKey, rootRecordKey, checkpointRecordKey,
      List.head?_cons, List.tail_cons, Option.some.injEq] at hhead htail <;>
    first
    | exact absurd hhead (by decide)
    | skip
  case node.node x y => rw [NodeKey.encode_inj htail]
  case value.value v1 w1 v2 w2 =>
    obtain ⟨h1, h2⟩ := List.append_inj htail (by rw [v1.size, v2.size])
    rw [Hash.ext h1, Bytes.u64_inj h2]
  case stale.stale =>
    obtain ⟨h1, h2⟩ := List.append_inj htail (by simp)
    rw [Bytes.u64_inj h1, h2]
  case root.root => rw [Bytes.u64_inj htail]
  case checkpoint.checkpoint => rfl

end RecKey

/-! ## The in-memory backend -/

namespace MemBackend

theorem get_applyOp (m : MemBackend) (op : BatchOp) (k : Bytes) :
    (m.applyOp op).get k = if k = op.key then (if op.delete then none else some op.value) else m.get k := by
  unfold applyOp
  cases op.delete <;> simp

/-- A record no operation names is unchanged. -/
theorem get_writeBatch_of_notin {ops : List BatchOp} {k : Bytes} (h : ∀ op ∈ ops, op.key ≠ k) :
    ∀ (m : MemBackend), (m.writeBatch ops).get k = m.get k := by
  induction ops with
  | nil => intro m; rfl
  | cons op ops ih =>
    intro m
    have h1 := ih (fun o ho => h o (List.mem_cons_of_mem _ ho)) (m.applyOp op)
    rw [writeBatch, List.foldl_cons, ← writeBatch, h1, get_applyOp,
      if_neg (h op List.mem_cons_self).symm]

/-- **A record after a batch** is what the operations on its key, which all agree, make it. -/
theorem get_writeBatch {ops : List BatchOp} {k : Bytes} {r : Option Bytes}
    (hmem : ∃ op ∈ ops, op.key = k)
    (hall : ∀ op ∈ ops, op.key = k → (if op.delete then none else some op.value) = r) :
    ∀ (m : MemBackend), (m.writeBatch ops).get k = r := by
  induction ops with
  | nil => obtain ⟨op, hop, -⟩ := hmem; simp at hop
  | cons op ops ih =>
    intro m
    rw [writeBatch, List.foldl_cons, ← writeBatch]
    by_cases hlater : ∃ o ∈ ops, o.key = k
    · exact ih hlater (fun o ho => hall o (List.mem_cons_of_mem _ ho)) _
    · rw [get_writeBatch_of_notin (fun o ho hk => hlater ⟨o, ho, hk⟩), get_applyOp]
      obtain ⟨o, ho, hk⟩ := hmem
      rcases List.mem_cons.1 ho with rfl | ho
      · rw [if_pos hk.symm]; exact hall o List.mem_cons_self hk
      · exact absurd ⟨o, ho, hk⟩ hlater

/-- **A full scan** returns exactly the records in its range. -/
theorem mem_scan {m : MemBackend} {start stop : Bytes} {e : Bytes × Bytes} :
    e ∈ m.scan start stop 0 ↔ m.get e.1 = some e.2 ∧ start ≤ e.1 ∧ (stop = [] ∨ e.1 < stop) := by
  unfold scan
  rw [if_pos rfl, List.mem_filter, ← OrdMap.mem_entries]
  simp

end MemBackend

end ImmutableLedger
