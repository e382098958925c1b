import ImmutableLedger.Lib.Merge
import ImmutableLedger.Sql.Range
import ImmutableLedger.Sql.Txn

/-!
# Scans

A scan of a table's keyspace (`table.go`) with the rows of the open transaction merged in (`txn.go`). The committed keys
come from the derived keyspace in chunks; the transaction contributes an overlay of entries to add and entries to hide;
each key that comes out is resolved to its row through the transaction buffer.

A forward scan merges while it reads. A reverse scan reads the whole range first, merges, and walks it backwards.
-/

namespace ImmutableLedger

variable {L μ : Type} [LedgerApi L μ] (G : GoLib)

/-! ## The overlay of a transaction -/

/-- `scanOverlay`: what a transaction contributes to a scan, entries to merge in and committed entries to hide. -/
structure ScanOverlay where
  adds : List (Bytes × Bytes) := []
  masks : OrdMap Bytes Unit := OrdMap.empty

namespace ScanOverlay

def inRange (start stop k : Bytes) : Prop := start ≤ k ∧ k < stop

instance (start stop k : Bytes) : Decidable (inRange start stop k) := inferInstanceAs (Decidable (_ ∧ _))

def add (start stop : Bytes) (ov : ScanOverlay) (k pkEnc : Bytes) : ScanOverlay :=
  if inRange start stop k then { adds := ov.adds ++ [(k, pkEnc)], masks := ov.masks.erase k } else ov

def mask (start stop : Bytes) (ov : ScanOverlay) (k : Bytes) : ScanOverlay :=
  if inRange start stop k then { ov with masks := ov.masks.insert k () } else ov

/-- The committed entry under `k` is hidden. -/
def masked (ov : ScanOverlay) (k : Bytes) : Bool := (ov.masks.get k).isSome

end ScanOverlay

open ScanOverlay

/-- One buffered row of the overlay: of the primary keyspace, or of a secondary index. -/
def overlayRow (d : TableDef) (idx : Option IndexDef) (start stop : Bytes) (ov : ScanOverlay) (pkEnc : Bytes)
    (p : PendingRow) : Except SqlErr ScanOverlay :=
  match idx with
  | none =>
    match p.new, p.old with
    | some _, _ => .ok (ov.add start stop (scanKey d.id pkEnc) pkEnc)
    | none, some _ => .ok (ov.mask start stop (scanKey d.id pkEnc))
    | none, none => .ok ov
  | some idx => do
    let ov ← match p.old with
      | none => pure ov
      | some old => do
        let (colsEnc, _) ← encodeIndexCols d idx old
        pure (ov.mask start stop (entryKey idx.id colsEnc pkEnc))
    match p.new with
    | none => pure ov
    | some new => do
      let (colsEnc, _) ← encodeIndexCols d idx new
      pure (ov.add start stop (entryKey idx.id colsEnc pkEnc) pkEnc)

/-- The loop of `buildOverlay` over the buffered rows. -/
def overlayRows (d : TableDef) (idx : Option IndexDef) (start stop : Bytes) :
    ScanOverlay → List (Bytes × PendingRow) → Except SqlErr ScanOverlay
  | ov, [] => .ok ov
  | ov, (k, p) :: rows => do
    let ov ← overlayRow d idx start stop ov k p
    overlayRows d idx start stop ov rows

/-- Entries in ascending key order. -/
def sortEntries (adds : List (Bytes × Bytes)) : List (Bytes × Bytes) := adds.insertionSort fun a b => a.1 ≤ b.1

/-- The overlay of a scan of `[start, stop)`, of the primary keyspace or of the index `idx`; none when there is nothing
to merge. An entry that is added and hidden is added. -/
def buildOverlay (d : TableDef) (tt : TableTxn) (idx : Option IndexDef) (start stop : Bytes) :
    Except SqlErr (Option ScanOverlay) := do
  if tt.entries = [] then pure none
  else
    let ov ← overlayRows d idx start stop {} tt.entries
    if ov.adds = [] ∧ ov.masks.entries = [] then pure none
    else pure (some
      { adds := sortEntries ov.adds
        masks := ov.adds.foldl (fun m kv => m.erase kv.1) ov.masks })

/-- Committed entries merged with an overlay. -/
def mergeOverlay (entries : List (Bytes × Bytes)) : Option ScanOverlay → List (Bytes × Bytes)
  | none => entries
  | some ov => SortedMerge.merge ov.masked entries ov.adds

/-! ## Forward scans -/

/-- The primary-key bytes of an entry: its value in a secondary index, its key after the first nine bytes in the primary
keyspace. A shorter key panics. -/
def entryPK (secondary : Bool) (kv : Bytes × Bytes) : Except SqlErr Bytes :=
  if secondary then .ok kv.2
  else if kv.1.length < 9 then .error .panic
  else .ok (kv.1.drop 9)

/-- `scanIter`: what is left of the chunk at hand and of the entries to add; `next` is where the next chunk starts. -/
structure ScanIter where
  tdef : TableDef
  next : Bytes
  stop : Bytes
  secondary : Bool
  tt : TableTxn
  ov : ScanOverlay
  buf : List (Bytes × Bytes) := []
  done : Bool := false

def newScanIter (d : TableDef) (start stop : Bytes) (secondary : Bool) (tt : TableTxn) (ov : Option ScanOverlay) :
    ScanIter where
  tdef := d
  next := start
  stop := stop
  secondary := secondary
  tt := tt
  ov := ov.getD {}

/-- What comes next of a chunk and an overlay. -/
inductive Pick where
  | emit (kv : Bytes × Bytes) (it : ScanIter)
  | skip (it : ScanIter)
  | eof

namespace ScanIter

/-- Where to resume strictly after the last key of a chunk. -/
def resumeAfter (start : Bytes) (kvs : List (Bytes × Bytes)) : Bytes :=
  match kvs.getLast? with
  | none => start
  | some last => last.1 ++ [0x00]

/-- Read a chunk when the one at hand is used up. -/
def fill (it : ScanIter) : SqlM L ScanIter := do
  if it.buf = [] ∧ ¬ it.done then
    let kvs ← onLedger (LedgerApi.backendScan it.next it.stop scanChunkSize)
    pure { it with next := resumeAfter it.next kvs, buf := kvs, done := decide (kvs.length < scanChunkSize) }
  else pure it

/-- The smaller of the committed head and the overlay head; an overlay entry beyond the chunk waits until the committed
entries catch up or end. -/
def pick (it : ScanIter) : Pick :=
  match it.buf, it.ov.adds with
  | b :: buf, a :: adds =>
    if a.1 < b.1 then .emit a { it with ov := { it.ov with adds } }
    else if a.1 = b.1 then .emit a { it with buf, ov := { it.ov with adds } }
    else if it.ov.masked b.1 then .skip { it with buf } else .emit b { it with buf }
  | b :: buf, [] => if it.ov.masked b.1 then .skip { it with buf } else .emit b { it with buf }
  | [], a :: adds => if it.done then .emit a { it with ov := { it.ov with adds } } else .skip it
  | [], [] => if it.done then .eof else .skip it

/-- The loop of `Next` up to an entry or the end, at most `rounds` rounds. -/
def seek : ℕ → ScanIter → SqlM L (Option (Bytes × Bytes) × ScanIter)
  | 0, _ => throw .hang
  | rounds + 1, it => do
    let it ← it.fill
    match it.pick with
    | .emit kv it => pure (some kv, it)
    | .skip it => seek rounds it
    | .eof => pure (none, it)

/-- `Next`: the next row, none at the end. -/
def nextRow (it : ScanIter) : SqlM L (Option Row × ScanIter) := do
  let s ← get
  let (kv, it) ← it.seek (LedgerApi.size s.led + 1)
  match kv with
  | none => pure (none, it)
  | some kv => do
    let pkEnc ← ofSql (entryPK it.secondary kv)
    let row ← readRowTxn G it.tt it.tdef pkEnc
    pure (some row, it)

end ScanIter

/-! ## Reverse scans -/

/-- `reverseIter`: the primary keys still to come, the next one first. -/
structure ReverseIter where
  tdef : TableDef
  tt : TableTxn
  pks : List Bytes

/-- The loop that reads a whole range, at most `rounds` chunks. -/
def readChunks (stop : Bytes) : ℕ → Bytes → SqlM L (List (Bytes × Bytes))
  | 0, _ => throw .hang
  | rounds + 1, start => do
    let kvs ← onLedger (LedgerApi.backendScan start stop scanChunkSize)
    if kvs.length < scanChunkSize then pure kvs
    else do
      let rest ← readChunks stop rounds (ScanIter.resumeAfter start kvs)
      pure (kvs ++ rest)

/-- The primary-key bytes of the entries. -/
def entryPKs (secondary : Bool) : List (Bytes × Bytes) → Except SqlErr (List Bytes)
  | [] => .ok []
  | kv :: kvs => do
    let pkEnc ← entryPK secondary kv
    let pks ← entryPKs secondary kvs
    pure (pkEnc :: pks)

def newReverseScanIter (d : TableDef) (start stop : Bytes) (secondary : Bool) (tt : TableTxn)
    (ov : Option ScanOverlay) : SqlM L ReverseIter := do
  let s ← get
  let entries ← readChunks stop (LedgerApi.size s.led + 1) start
  let pks ← ofSql (entryPKs secondary (mergeOverlay entries ov))
  pure ⟨d, tt, pks.reverse⟩

def ReverseIter.nextRow (it : ReverseIter) : SqlM L (Option Row × ReverseIter) :=
  match it.pks with
  | [] => pure (none, it)
  | pkEnc :: pks => do
    let row ← readRowTxn G it.tt it.tdef pkEnc
    pure (some row, { it with pks })

/-! ## Partitions -/

/-- What a scan is asked for: the whole primary keyspace of the table, or a range of one keyspace. -/
inductive Partition where
  | fullScan (pre : Bytes)
  | indexRange (part : RangePartition)

/-- The one partition of a table that is scanned as a whole. -/
def tablePartition (d : TableDef) : Partition := .fullScan (scanKey d.id [])

inductive RowIter where
  | forward (it : ScanIter)
  | reverse (it : ReverseIter)

def TableDef.indexByID (d : TableDef) (id : UInt64) : Option IndexDef := d.indexes.find? fun idx => idx.id = id

/-- The scan of `[start, stop)` of the primary keyspace or of an index. -/
def scanRows (d : TableDef) (tt : TableTxn) (idx : Option IndexDef) (start stop : Bytes) (reverse : Bool) :
    SqlM L RowIter := do
  let ov ← ofSql (buildOverlay d tt idx start stop)
  if reverse then do
    let it ← newReverseScanIter d start stop idx.isSome tt ov
    pure (.reverse it)
  else pure (.forward (newScanIter d start stop idx.isSome tt ov))

/-- `PartitionRows`, in a transaction with the buffer `tt` for the table. -/
def partitionRows (d : TableDef) (tt : TableTxn) : Partition → SqlM L RowIter
  | .fullScan pre =>
    match incBytes pre with
    | none => throw (.text "table keyspace overflow" [])
    | some stop => scanRows d tt none pre stop false
  | .indexRange part =>
    match part.idxID with
    | none => scanRows d tt none part.start part.stop part.reverse
    | some id =>
      match d.indexByID id with
      | none => throw (.text "table %s: unknown index id %d" [.key d.name, .uint id])
      | some idx => scanRows d tt (some idx) part.start part.stop part.reverse

def RowIter.nextRow : RowIter → SqlM L (Option Row × RowIter)
  | .forward it => do
    let (row, it) ← it.nextRow G
    pure (row, .forward it)
  | .reverse it => do
    let (row, it) ← it.nextRow G
    pure (row, .reverse it)

/-- The rows of `n` calls of `Next` at most, up to the end. -/
def RowIter.rows : ℕ → RowIter → SqlM L (List Row)
  | 0, _ => throw .hang
  | n + 1, it => do
    match ← it.nextRow G with
    | (none, _) => pure []
    | (some row, it) => do
      let rest ← it.rows n
      pure (row :: rest)

/-- Iterate over a partition: its rows, in `n` calls of `Next` at most. -/
def iterateRows (n : ℕ) (d : TableDef) (tt : TableTxn) (part : Partition) : SqlM L (List Row) := do
  let it ← partitionRows d tt part
  it.rows G n

end ImmutableLedger
