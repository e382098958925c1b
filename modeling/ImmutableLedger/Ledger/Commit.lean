import ImmutableLedger.Ledger.Apply

/-!
# Commits, opening and pruning

The write half of `store.go`: batches and the history link, the atomic commit, the constructors, and
pruning; and the restore path and version pin of `snapshot.go`.
-/

namespace ImmutableLedger

/-- One operation of a `PutBatch`: a put (of a possibly empty value) or a delete. -/
structure Op where
  key : Bytes
  value : Bytes := []
  delete : Bool := false
deriving DecidableEq

def Op.put (key value : Bytes) : Op := { key, value }
def Op.del (key : Bytes) : Op := { key, delete := true }

/-- The namespace of system keys, which user batches may not write. -/
def reservedKeyPrefix : Bytes := ascii "\x00immutable-ledger:"

/-- One exported `(path, value)` pair. -/
structure Leaf where
  path : Hash
  value : Bytes
deriving DecidableEq

structure PruneStats where
  staleEntries : ℕ := 0
  recordsDeleted : ℕ := 0
  rootRecordsDeleted : ℕ := 0
deriving DecidableEq, Repr

def defaultCacheCapacity : ℕ := 1024

def pruneChunk : ℕ := 512

variable (C : Crypto)

/-! ## Batches -/

/-- The dedupe loop of `computeBatch`: the last operation on a path wins. -/
def dedupe (ck : Bytes) : List Op → OrdMap Hash (Option Bytes) → Except Err (OrdMap Hash (Option Bytes))
  | [], m => .ok m
  | op :: ops, m =>
    if reservedKeyPrefix.isPrefixOf op.key then
      .error (errInvalidf "key %q uses the reserved system prefix" [.key op.key])
    else dedupe ck ops (m.insert (pathOf C ck op.key) (if op.delete then none else some op.value))

section
variable {β : Type} [Backend β]

/-- Commitments and stored forms of the deduplicated changes, in path order. -/
def sealUpdates : List (Hash × Option Bytes) → CommitAcc → LedgerM β (CommitAcc × List Update)
  | [], acc => pure (acc, [])
  | (path, none) :: l, acc => do
    let (acc, us) ← sealUpdates l acc
    pure (acc, ⟨path, none⟩ :: us)
  | (path, some value) :: l, acc => do
    let s ← get
    let ct ← sealValue C path value
    let (acc, us) ← sealUpdates l { acc with insertCTs := acc.insertCTs.insert path ct }
    pure (acc, ⟨path, some (vhOf C s.ck path value)⟩ :: us)

/-- Apply the chain-head update on top of the batch's tree, a second pass at the same new version. -/
def appendHistoryLink (acc : CommitAcc) (rootChild : Option Child) : LedgerM β (CommitAcc × Option Child) := do
  let s ← get
  let head := historyLink C s.historyHead s.root acc.newVersion
  let path := pathOf C s.ck historyKey
  let ct ← sealValue C path head.bytes
  let acc := { acc with insertCTs := acc.insertCTs.insert path ct, newHead := some head }
  applySubtree C nibbles acc rootChild [] [⟨path, some (vhOf C s.ck path head.bytes)⟩]

/-- The hash of a root reference. -/
def rootHash (rootChild : Option Child) : Hash :=
  match rootChild with
  | none => placeholderHash C
  | some c => c.hash

/-- The computation shared by `PutBatch` and `PreviewBatch`: none for a no-op batch. -/
def computeBatch (ops : List Op) : LedgerM β (Option (CommitAcc × Option Child × Hash)) := do
  let s ← get
  let deduped ← ofExcept (dedupe C s.ck ops OrdMap.empty)
  if deduped.entries = [] then pure none
  else
    let (acc, updates) ← sealUpdates C deduped.entries { newVersion := s.version + 1 }
    let (acc, newRootChild) ← applySubtree C nibbles acc s.rootChild [] updates
    if newRootChild = s.rootChild then pure none
    else if s.history then
      let (acc, newRootChild) ← appendHistoryLink C acc newRootChild
      pure (some (acc, newRootChild, rootHash C newRootChild))
    else pure (some (acc, newRootChild, rootHash C newRootChild))

/-- The records of a commit. -/
def commitBatch (acc : CommitAcc) (newRoot : Hash) (ckpt : Bytes) : List BatchOp :=
  acc.pending.entries.map (fun e => { key := nodeRecordKey e.1, value := e.2.encode }) ++
  acc.values.entries.map (fun e => { key := valueRecordKey e.1 acc.newVersion, value := e.2 }) ++
  acc.stale.map (fun target => { key := staleRecordKey acc.newVersion target }) ++
  [{ key := rootRecordKey acc.newVersion, value := newRoot.bytes }, { key := checkpointRecordKey, value := ckpt }]

/-- The atomic tail of every commit: write the batch, then swing the in-memory state and warm the
cache. -/
def commitAcc (acc : CommitAcc) (newRootChild : Option Child) (newRoot : Hash) : LedgerM β (Hash × UInt64) := do
  let ckpt ← sealCheckpoint C newRoot acc.newVersion
  backendWriteBatch errBackend (commitBatch acc newRoot ckpt)
  modify fun s =>
    { s with
      cache := acc.pending.entries.foldl (fun cache e => cache.put e.1 e.2) s.cache
      root := newRoot
      version := acc.newVersion
      rootChild := newRootChild
      historyHead := acc.newHead.getD s.historyHead }
  pure (newRoot, acc.newVersion)

namespace Store

/-- `PreviewBatch`: the root and version this batch would produce. -/
def previewBatch (ops : List Op) : LedgerM β (Hash × UInt64) := do
  match ← computeBatch C ops with
  | none => let s ← MonadState.get; pure (s.root, s.version)
  | some (_, _, newRoot) => let s ← MonadState.get; pure (newRoot, s.version + 1)

/-- `PutBatch`: apply a batch as one commit; a batch that changes nothing commits nothing. -/
def putBatch (ops : List Op) : LedgerM β (Hash × UInt64) := do
  match ← computeBatch C ops with
  | none => let s ← MonadState.get; pure (s.root, s.version)
  | some (acc, newRootChild, newRoot) => commitAcc C acc newRootChild newRoot

/-- `RestoreLeaves`: insert plaintext values addressed by path, as one commit. -/
def restoreLeaves (leaves : List Leaf) : LedgerM β (Hash × UInt64) := do
  let s ← MonadState.get
  let deduped : OrdMap Hash Bytes := leaves.foldl (fun m l => m.insert l.path l.value) OrdMap.empty
  if deduped.entries = [] then pure (s.root, s.version)
  else
    let (acc, updates) ← sealUpdates C (deduped.mapVal (fun _ v => some v)).entries { newVersion := s.version + 1 }
    let (acc, newRootChild) ← applySubtree C nibbles acc s.rootChild [] updates
    if newRootChild = s.rootChild then pure (s.root, s.version)
    else
      let r ← commitAcc C acc newRootChild (rootHash C newRootChild)
      -- the head leaf may have arrived as data
      if s.history then
        match ← Store.get C historyKey with
        | some val => if val.length = hashSize then modify fun s => { s with historyHead := Hash.ofBytes val }
        | none => pure ()
      pure r

/-- `StampVersion`: write the root record, the checkpoint and a copy of the root node at `version`. The
in-memory root reference moves before the write. -/
def stampVersion (version : UInt64) : LedgerM β Unit := do
  let s ← MonadState.get
  if version < s.version then
    throw (errInvalidf "cannot stamp version %d below current %d" [.uint version, .uint s.version])
  let ckpt ← sealCheckpoint C s.root version
  let base : List BatchOp :=
    [{ key := rootRecordKey version, value := s.root.bytes }, { key := checkpointRecordKey, value := ckpt }]
  match s.rootChild with
  | none => backendWriteBatch errBackend base
  | some c =>
    let n ← loadNode C (rootNodeKey c.version) c.hash
    modify fun s => { s with rootChild := some ⟨version, c.hash, c.isLeaf⟩ }
    backendWriteBatch errBackend (base ++ [{ key := nodeRecordKey (rootNodeKey version), value := n.encode }])
  modify fun s => { s with version := version }

/-- `PinVersion`: pin a version against pruning, or release the pin. -/
def pinVersion (version : Option UInt64) : LedgerM β Unit := modify fun s => { s with snapshotPin := version }

def setCacheCapacity (capacity : ℕ) : LedgerM β Unit :=
  modify fun s => { s with cache := s.cache.setCapacity capacity }

end Store

/-! ## Opening -/

/-- `storeOptions`: the storage key and the history chain. -/
structure StoreOptions where
  sk : Option Bytes := none
  history : Bool := false

/-- `newStore`: an empty handle on a backend, drawing its nonces from `entropy`. -/
def newStore (backend : β) (commitmentKey : Bytes) (o : StoreOptions) (entropy : ℕ → Nonce) : Store β where
  backend := backend
  ck := commitmentKey
  cipher := o.sk
  ckptMAC := match o.sk with
    | some _ => []
    | none => (hmac C commitmentKey ckptMACLabel).bytes
  root := placeholderHash C
  version := 0
  rootChild := none
  cache := newNodeCache defaultCacheCapacity
  snapshotPin := none
  history := false
  wantHistory := o.history
  historyHead := Hash.zero
  entropy := entropy

/-- The body of `Create`, on a new handle. -/
def createM : LedgerM β Unit := do
  modify fun s => { s with history := s.wantHistory }
  let ckpt ← sealCheckpoint C (placeholderHash C) 0
  backendWriteBatch Err.raw
    [{ key := rootRecordKey 0, value := (placeholderHash C).bytes }, { key := checkpointRecordKey, value := ckpt }]

/-- `Create`: a fresh, empty store. -/
def create (backend : β) (commitmentKey : Bytes) (o : StoreOptions) (entropy : ℕ → Nonce) :
    EStateM.Result Err (Store β) Unit :=
  createM C (newStore C backend commitmentKey o entropy)

/-- Resolve the chain mode at open, cross-check it against the reserved head leaf, and cache the head. -/
def initHistory (flagKnown flag : Bool) : LedgerM β Unit := do
  let val ← Store.get C historyKey
  let s ← get
  let on := if flagKnown then flag else val.isSome
  if on then
    match val with
    | none =>
      if s.version > 0 then throw (errCorrupted "history chain enabled but the head leaf is missing")
    | some v =>
      if v.length ≠ hashSize then throw (errCorrupted "history head leaf malformed")
      set { s with historyHead := Hash.ofBytes v }
  else if val.isSome then throw (errCorrupted "history head leaf present but the chain flag is off")
  if s.wantHistory ∧ ¬ on then
    throw (errInvalid "store was not created with the history chain (WithHistoryChain is a Create-time choice)")
  modify fun s => { s with history := on }

/-- The body of `Open` at a trusted `(root, version)`, on a new handle. -/
def openM (root : Hash) (version : UInt64) : LedgerM β Unit := do
  modify fun s => { s with root := root, version := version }
  let c ← loadRootChild C root version
  modify fun s => { s with rootChild := c }
  let s ← get
  -- the error of this read is ignored: an unreadable checkpoint is one without flags
  let (record, b) := Backend.get s.backend checkpointRecordKey
  set { s with backend := b }
  match record with
  | .ok (some record) =>
    match openCheckpoint C s record with
    | .ok (_, _, flags) => initHistory C true (flags &&& ckptFlagHistory != 0)
    | .error _ => initHistory C false false
  | _ => initHistory C false false

/-- `Open`: open an existing store at a trusted `(root, version)`. -/
def openStore (backend : β) (commitmentKey : Bytes) (root : Hash) (version : UInt64) (o : StoreOptions)
    (entropy : ℕ → Nonce) : EStateM.Result Err (Store β) Unit :=
  openM C root version (newStore C backend commitmentKey o entropy)

/-- The body of `OpenLatest`, on a new handle: the checkpoint gives the root, the version and the chain mode. -/
def openLatestM : LedgerM β Unit := do
  match ← backendGet checkpointRecordKey with
  | none => throw (errMissing "checkpoint record")
  | some record =>
    let s ← get
    let (root, version, flags) ← ofExcept (openCheckpoint C s record)
    modify fun s => { s with root := root, version := version }
    let c ← loadRootChild C root version
    modify fun s => { s with rootChild := c }
    initHistory C true (flags &&& ckptFlagHistory != 0)

/-- `OpenLatest`: open at the checkpoint record. -/
def openLatest (backend : β) (commitmentKey : Bytes) (o : StoreOptions) (entropy : ℕ → Nonce) :
    EStateM.Result Err (Store β) Unit :=
  openLatestM C (newStore C backend commitmentKey o entropy)

/-! ## Pruning -/

/-- The end of the stale range of a horizon. -/
def staleEnd (beforeVersion : UInt64) : Bytes :=
  if beforeVersion = 0xFFFFFFFFFFFFFFFF then [recStale + 1] else recStale :: Bytes.u64 (beforeVersion + 1)

/-- The operations that drop stale entries and their targets. -/
def staleOps (entries : List (Bytes × Bytes)) : List BatchOp :=
  entries.flatMap fun e => [{ key := e.1.drop 9, delete := true }, { key := e.1, delete := true }]

/-- The loop over the stale range, at most `rounds` chunks. -/
def pruneStale (stop : Bytes) : ℕ → PruneStats → LedgerM β PruneStats
  | 0, _ => throw .hang
  | rounds + 1, stats => do
    let entries ← backendScan [recStale] stop pruneChunk
    if entries = [] then pure stats
    else
      if entries.any (fun e => e.1.length < 10) then throw (errCorrupted "stale entry key too short")
      backendWriteBatch errBackend (staleOps entries)
      let stats := { stats with staleEntries := stats.staleEntries + entries.length
                                recordsDeleted := stats.recordsDeleted + entries.length }
      if entries.length = pruneChunk then pruneStale stop rounds stats else pure stats

/-- The loop over the root records below the horizon, at most `rounds` chunks. -/
def pruneRoots (stop : Bytes) : ℕ → PruneStats → LedgerM β PruneStats
  | 0, _ => throw .hang
  | rounds + 1, stats => do
    let entries ← backendScan [recRoot] stop pruneChunk
    if entries = [] then pure stats
    else
      backendWriteBatch errBackend (entries.map fun e => { key := e.1, delete := true })
      let stats := { stats with rootRecordsDeleted := stats.rootRecordsDeleted + entries.length }
      if entries.length = pruneChunk then pruneRoots stop rounds stats else pure stats

namespace Store

/-- The horizon of a prune: capped by the pinned version. -/
def horizon (pin : Option UInt64) (beforeVersion : UInt64) : UInt64 :=
  match pin with
  | some p => if p < beforeVersion then p else beforeVersion
  | none => beforeVersion

/-- `Prune`: delete the records only versions below the horizon need. -/
def prune (beforeVersion : UInt64) : LedgerM β PruneStats := do
  let s ← MonadState.get
  let beforeVersion := horizon s.snapshotPin beforeVersion
  if beforeVersion > s.version then
    throw (errInvalidf "cannot prune to future version %d (current %d)" [.uint beforeVersion, .uint s.version])
  modify fun s => { s with cache := s.cache.clear }
  let stats ← pruneStale (staleEnd beforeVersion) (Backend.len s.backend + 1) {}
  pruneRoots (recRoot :: Bytes.u64 beforeVersion) (Backend.len s.backend + 1) stats

/-- `RetainRecent`: prune so that at least the last `window` versions stay readable. -/
def retainRecent (window : UInt64) : LedgerM β PruneStats := do
  let s ← MonadState.get
  if window > s.version then prune 0 else prune (s.version - window)

end Store

end

end ImmutableLedger
