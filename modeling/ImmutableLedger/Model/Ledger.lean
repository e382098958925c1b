import ImmutableLedger.Lib.Machine
import ImmutableLedger.Tree.Prove

/-!
# The ledger as a versioned map

What the store is for, without trees, records, caches or ciphertexts: a finite map from paths to values, of
which the earlier versions stay readable until they are pruned. A call on the store (`Call`) has its
counterpart on this model (`Model.step`), with the same replies and the same errors.

The root of a version is the root of its map (`contentRoot`), and a proof is the proof in its map.
With the history chain on, a commit by keys also binds the chain head at the reserved path.
-/

namespace ImmutableLedger

/-! ## Calls -/

/-- A call on a store. -/
inductive Call where
  | putBatch (ops : List Op)
  | restoreLeaves (leaves : List Leaf)
  | stampVersion (version : UInt64)
  | pinVersion (version : Option UInt64)
  | prune (beforeVersion : UInt64)
  | retainRecent (window : UInt64)
  | get (key : Bytes)
  | getAt (version : UInt64) (key : Bytes)
  | prove (key : Bytes)
  | proveAt (version : UInt64) (key : Bytes)

/-- What a call returns. The counters of a prune are left out. -/
inductive Reply where
  | done
  | committed (root : Hash) (version : UInt64)
  | value (v : Option Bytes)
  | proof (p : Proof)
deriving DecidableEq

section
variable (C : Crypto) {β : Type} [Backend β]

/-- The call on a store. -/
def Call.exec : Call → LedgerM β Reply
  | putBatch ops => do let r ← Store.putBatch C ops; pure (.committed r.1 r.2)
  | restoreLeaves leaves => do let r ← Store.restoreLeaves C leaves; pure (.committed r.1 r.2)
  | stampVersion version => do Store.stampVersion C version; pure .done
  | pinVersion version => do Store.pinVersion version; pure .done
  | prune beforeVersion => do let _ ← Store.prune beforeVersion; pure .done
  | retainRecent window => do let _ ← Store.retainRecent window; pure .done
  | get key => do let v ← Store.get C key; pure (.value v)
  | getAt version key => do let v ← Store.getAt C version key; pure (.value v)
  | prove key => do let p ← Store.prove C key; pure (.proof p)
  | proveAt version key => do let p ← Store.proveAt C version key; pure (.proof p)

/-- The store as a machine: a failed call leaves the state it failed in. -/
def Store.step (s : Store β) (c : Call) : Except Err Reply × Store β := ((c.exec C s).val, (c.exec C s).state)

end

/-! ## The model -/

/-- A versioned map: the current version, its map, the maps of the readable versions, the chain mode and
head, and the pin. -/
structure Model where
  version : UInt64
  cur : OrdMap Hash Bytes
  past : UInt64 → Option (OrdMap Hash Bytes)
  history : Bool
  head : Hash
  pin : Option UInt64

variable (C : Crypto) (ck : Bytes)

/-- The commitments of the values of a map. -/
def commitments (vals : OrdMap Hash Bytes) : OrdMap Hash Hash := vals.mapVal (vhOf C ck)

variable {C ck} in
theorem mem_commitments {vals : OrdMap Hash Bytes} {p vh : Hash} :
    (p, vh) ∈ (commitments C ck vals).entries ↔ ∃ v, vals.get p = some v ∧ vhOf C ck p v = vh := by
  rw [OrdMap.mem_entries]
  unfold commitments
  rw [OrdMap.get_mapVal, Option.map_eq_some_iff]

theorem length_commitments (vals : OrdMap Hash Bytes) :
    (commitments C ck vals).entries.length = vals.size := by
  unfold commitments OrdMap.mapVal OrdMap.size
  exact List.length_map _

/-- The root of a map of values. -/
def contentRoot (vals : OrdMap Hash Bytes) : Hash := rootOf C (commitments C ck vals)

/-- The path of the chain head. -/
def historyPath : Hash := pathOf C ck historyKey

/-- One operation of a batch on a map of values. -/
def applyOp (vals : OrdMap Hash Bytes) (op : Op) : OrdMap Hash Bytes :=
  if op.delete then vals.erase (pathOf C ck op.key) else vals.insert (pathOf C ck op.key) op.value

/-- The operations of a batch in order, so that the last one on a key wins. -/
def applyOps (vals : OrdMap Hash Bytes) (ops : List Op) : OrdMap Hash Bytes := ops.foldl (applyOp C ck) vals

/-- Leaves written over a map of values. -/
def applyLeaves (vals : OrdMap Hash Bytes) (leaves : List Leaf) : OrdMap Hash Bytes :=
  leaves.foldl (fun vals l => vals.insert l.path l.value) vals

/-- The values a batch writes, with their paths. -/
def opPairs (ops : List Op) : List (Hash × Bytes) :=
  ops.filterMap fun op => if op.delete then none else some (pathOf C ck op.key, op.value)

/-- The values a call writes, with their paths. -/
def Call.pairs : Call → List (Hash × Bytes)
  | .putBatch ops => opPairs C ck ops
  | .restoreLeaves leaves => leaves.map fun l => (l.path, l.value)
  | _ => []

namespace Model

/-- An empty store with or without the history chain. -/
def init (history : Bool) : Model where
  version := 0
  cur := OrdMap.empty
  past := fun w => if w = 0 then some OrdMap.empty else none
  history := history
  head := Hash.zero
  pin := none

def root (m : Model) : Hash := contentRoot C ck m.cur

/-- A new version holding `vals`. -/
def commit (m : Model) (vals : OrdMap Hash Bytes) (head : Hash) : Model :=
  { m with version := m.version + 1, cur := vals, head := head
           past := Function.update m.past (m.version + 1) (some vals) }

/-- The chain head the next commit writes. -/
def nextHead (m : Model) : Hash := historyLink C m.head (m.root C ck) (m.version + 1)

/-- The model after a batch that changed the map to `vals`. -/
def commitLinked (m : Model) (vals : OrdMap Hash Bytes) : Model :=
  if m.history then m.commit (vals.insert (historyPath C ck) (m.nextHead C ck).bytes) (m.nextHead C ck)
  else m.commit vals m.head

/-- The first operation on a reserved key. -/
def reservedOp (ops : List Op) : Option Op := ops.find? fun op => reservedKeyPrefix.isPrefixOf op.key

def putBatch (m : Model) (ops : List Op) : Except Err Reply × Model :=
  match reservedOp ops with
  | some op => (.error (errInvalidf "key %q uses the reserved system prefix" [.key op.key]), m)
  | none =>
    let m' := if applyOps C ck m.cur ops = m.cur then m else m.commitLinked C ck (applyOps C ck m.cur ops)
    (.ok (.committed (m'.root C ck) m'.version), m')

/-- The chain head after a restore: the restored leaf at the reserved path, when it has the size of a hash. -/
def restoredHead (m : Model) (vals : OrdMap Hash Bytes) : Hash :=
  match vals.get (historyPath C ck) with
  | some v => if m.history ∧ v.length = hashSize then Hash.ofBytes v else m.head
  | none => m.head

def restoreLeaves (m : Model) (leaves : List Leaf) : Except Err Reply × Model :=
  let vals := applyLeaves m.cur leaves
  let m' := if vals = m.cur then m else m.commit vals (m.restoredHead C ck vals)
  (.ok (.committed (m'.root C ck) m'.version), m')

/-- The current map under a later version. -/
def stamp (m : Model) (version : UInt64) : Model :=
  { m with version := version, past := Function.update m.past version (some m.cur) }

def stampVersion (m : Model) (version : UInt64) : Except Err Reply × Model :=
  if version < m.version then
    (.error (errInvalidf "cannot stamp version %d below current %d" [.uint version, .uint m.version]), m)
  else (.ok .done, m.stamp version)

/-- The versions from `h` on. -/
def keepFrom (m : Model) (h : UInt64) : Model := { m with past := fun w => if w < h then none else m.past w }

def prune (m : Model) (beforeVersion : UInt64) : Except Err Reply × Model :=
  let h := Store.horizon m.pin beforeVersion
  if h > m.version then
    (.error (errInvalidf "cannot prune to future version %d (current %d)" [.uint h, .uint m.version]), m)
  else (.ok .done, m.keepFrom h)

/-- The map of a readable version. -/
def mapAt (m : Model) (version : UInt64) : Except Err (OrdMap Hash Bytes) :=
  if version > m.version then .error (Store.errFuture version m.version)
  else match m.past version with
    | none => .error (errMissingf "root record v%d" [.uint version])
    | some vals => .ok vals

/-- The model as a machine. -/
def step (m : Model) : Call → Except Err Reply × Model
  | .putBatch ops => m.putBatch C ck ops
  | .restoreLeaves leaves => m.restoreLeaves C ck leaves
  | .stampVersion version => m.stampVersion version
  | .pinVersion version => (.ok .done, { m with pin := version })
  | .prune beforeVersion => m.prune beforeVersion
  | .retainRecent window => m.prune (if window > m.version then 0 else m.version - window)
  | .get key => (.ok (.value (m.cur.get (pathOf C ck key))), m)
  | .getAt version key => ((m.mapAt version).map fun vals => .value (vals.get (pathOf C ck key)), m)
  | .prove key => (.ok (.proof (proofOf C (commitments C ck m.cur) (pathOf C ck key))), m)
  | .proveAt version key =>
    ((m.mapAt version).map fun vals => .proof (proofOf C (commitments C ck vals) (pathOf C ck key)), m)

end Model

end ImmutableLedger
