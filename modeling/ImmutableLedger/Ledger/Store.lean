import ImmutableLedger.Lib.Yields
import ImmutableLedger.Ledger.Backend

/-!
# The store and its reads

The node cache (`cache.go`), the store handle and the read half of `store.go`: sealed values and
checkpoints, verified node loading, and the point reads at the current and at earlier versions.

A call on a store is an `EStateM Err (Store β)` program: a failing call keeps the changes it made to
the handle and the backend before it failed. Randomness is a stream of nonces in the handle.
-/

namespace ImmutableLedger

/-! ## Node cache -/

structure CacheEntry where
  node : Node
  lastUsed : UInt64

/-- A bounded LRU of verified node records. The source keys it by the encoded node key. -/
structure NodeCache where
  capacity : ℕ
  tick : UInt64
  m : OrdMap NodeKey CacheEntry

def newNodeCache (capacity : ℕ) : NodeCache := ⟨capacity, 0, OrdMap.empty⟩

namespace NodeCache

def get (c : NodeCache) (nk : NodeKey) : Option Node × NodeCache :=
  let c := { c with tick := c.tick + 1 }
  match c.m.get nk with
  | none => (none, c)
  | some e => (some e.node, { c with m := c.m.insert nk { e with lastUsed := c.tick } })

/-- The entry used longest ago. -/
def oldest : List (NodeKey × CacheEntry) → Option (NodeKey × UInt64) → Option (NodeKey × UInt64)
  | [], best => best
  | (k, e) :: l, none => oldest l (some (k, e.lastUsed))
  | (k, e) :: l, some (k', t) => oldest l (if e.lastUsed < t then some (k, e.lastUsed) else some (k', t))

/-- Insert (or refresh) a verified node, evicting the least recently used entry at capacity. -/
def put (c : NodeCache) (nk : NodeKey) (n : Node) : NodeCache :=
  if c.capacity = 0 then c
  else
    let m :=
      if (c.m.get nk).isNone ∧ c.capacity ≤ c.m.size then
        match oldest c.m.entries none with
        | some (k, _) => c.m.erase k
        | none => c.m
      else c.m
    { c with tick := c.tick + 1, m := m.insert nk ⟨n, c.tick + 1⟩ }

/-- Drop everything (called by prune: deleted history must not keep resolving from RAM). -/
def clear (c : NodeCache) : NodeCache := { c with m := OrdMap.empty }

def setCapacity (c : NodeCache) (capacity : ℕ) : NodeCache := { c with capacity := capacity, m := OrdMap.empty }

/-- The node cached under a key. -/
def node (c : NodeCache) (nk : NodeKey) : Option Node := (c.m.get nk).map CacheEntry.node

@[simp] theorem fst_get (c : NodeCache) (nk : NodeKey) : (c.get nk).1 = c.node nk := by
  unfold get node
  dsimp only
  cases c.m.get nk <;> rfl

@[simp] theorem node_get (c : NodeCache) (nk nk' : NodeKey) : (c.get nk).2.node nk' = c.node nk' := by
  unfold get node
  dsimp only
  cases h : c.m.get nk with
  | none => rfl
  | some e =>
    by_cases hk : nk' = nk
    · subst hk; simp [h]
    · simp [hk]

/-- What is cached after a `put` is the new entry or was cached before. -/
theorem node_put {c : NodeCache} {nk nk' : NodeKey} {n n' : Node} (h : (c.put nk n).node nk' = some n') :
    (nk' = nk ∧ n' = n) ∨ c.node nk' = some n' := by
  unfold put at h
  split at h
  · exact .inr h
  unfold node at h
  by_cases hk : nk' = nk
  · subst hk; left; simp at h; exact ⟨rfl, h.symm⟩
  right
  unfold node
  simp only [OrdMap.get_insert, hk, if_false] at h
  split at h
  · split at h
    · rw [OrdMap.get_erase] at h
      split at h
      · simp at h
      · exact h
    · exact h
  · exact h

@[simp] theorem capacity_get (c : NodeCache) (nk : NodeKey) : (c.get nk).2.capacity = c.capacity := by
  unfold get
  dsimp only
  cases c.m.get nk <;> rfl

theorem node_put_self {c : NodeCache} (hc : c.capacity ≠ 0) (nk : NodeKey) (n : Node) :
    (c.put nk n).node nk = some n := by
  unfold put node
  rw [if_neg hc]
  simp

end NodeCache

/-! ## The handle -/

/-- The authenticated store (single writer). `cipher` is the storage key when one is configured,
`rootChild` the current root's child reference (none for the empty tree), `entropy` the nonces
`rand.Read` will return. -/
structure Store (β : Type) where
  backend : β
  ck : Bytes
  cipher : Option Bytes
  ckptMAC : Bytes
  root : Hash
  version : UInt64
  rootChild : Option Child
  cache : NodeCache
  snapshotPin : Option UInt64
  history : Bool
  wantHistory : Bool
  historyHead : Hash
  entropy : ℕ → Nonce

/-- A call on a store. -/
abbrev LedgerM (β : Type) := EStateM Err (Store β)

section
variable {β : Type} [Backend β]

def ofExcept {α : Type} : Except Err α → LedgerM β α
  | .ok a => pure a
  | .error e => throw e

/-- `backend.Get`, its error wrapped by `errBackend`. -/
def backendGet (key : Bytes) : LedgerM β (Option Bytes) := fun s =>
  match Backend.get s.backend key with
  | (.ok v, b) => .ok v { s with backend := b }
  | (.error e, b) => .error (errBackend e) { s with backend := b }

/-- `backend.WriteBatch`, its error wrapped by `wrap`. -/
def backendWriteBatch (wrap : String → Err) (ops : List BatchOp) : LedgerM β Unit := fun s =>
  match Backend.writeBatch s.backend ops with
  | (.ok _, b) => .ok () { s with backend := b }
  | (.error e, b) => .error (wrap e) { s with backend := b }

/-- `backend.Scan`, its error wrapped by `errBackend`. -/
def backendScan (start stop : Bytes) (limit : ℕ) : LedgerM β (List (Bytes × Bytes)) := fun s =>
  match Backend.scan s.backend start stop limit with
  | (.ok es, b) => .ok es { s with backend := b }
  | (.error e, b) => .error (errBackend e) { s with backend := b }

/-- The next nonce of `rand.Read`. -/
def drawNonce : LedgerM β Nonce := fun s => .ok (s.entropy 0) { s with entropy := fun n => s.entropy (n + 1) }

variable (C : Crypto)

/-! ## Sealed records -/

def valueAADTag : Bytes := ascii "enclave_os_merkle_val"
def checkpointAAD : Bytes := ascii "enclave_os_merkle_ckpt"
def ckptMACLabel : Bytes := ascii "immutable-ledger:ckpt-mac:v1"

def valueAAD (path : Hash) : Bytes := valueAADTag ++ path.bytes

def ckptFlagHistory : UInt8 := 0x01

/-- The stored form of a value: ciphertext under the storage key when configured, else the plaintext. -/
def sealValue (path : Hash) (plaintext : Bytes) : LedgerM β Bytes := do
  match (← get).cipher with
  | some sk =>
    let nonce ← drawNonce
    pure (encrypt C sk nonce plaintext (valueAAD path))
  | none => pure plaintext

/-- Recover the plaintext from a stored value record. -/
def openValue (cipher : Option Bytes) (path : Hash) (record : Bytes) : Except Err Bytes :=
  match cipher with
  | some sk =>
    match decrypt C sk record (valueAAD path) with
    | .ok pt => .ok pt
    | .error e => .error (errCorruptedf "value decrypt: %v" [.text e.text])
  | none => .ok record

/-- The flags byte of a checkpoint. -/
def ckptFlags (history : Bool) : UInt8 := if history then ckptFlagHistory else 0

/-- The checkpoint payload: `root ‖ version u64 BE ‖ flags u8`. -/
def checkpointPayload (root : Hash) (version : UInt64) (history : Bool) : Bytes :=
  root.bytes ++ Bytes.u64 version ++ [ckptFlags history]

def sealCheckpoint (root : Hash) (version : UInt64) : LedgerM β Bytes := do
  let s ← get
  let payload := checkpointPayload root version s.history
  match s.cipher with
  | some sk =>
    let nonce ← drawNonce
    pure (encrypt C sk nonce payload checkpointAAD)
  | none => pure (payload ++ (hmac C s.ckptMAC payload).bytes)

/-- The authenticated payload of a checkpoint record. -/
def checkpointBody (s : Store β) (record : Bytes) : Except Err Bytes :=
  match s.cipher with
  | some sk =>
    match decrypt C sk record checkpointAAD with
    | .ok pt => .ok pt
    | .error e => .error (errCorruptedf "checkpoint decrypt: %v" [.text e.text])
  | none =>
    if record.length ≠ hashSize + 8 + 32 ∧ record.length ≠ hashSize + 9 + 32 then
      .error (errCorrupted "checkpoint bad length")
    else
      let body := record.length - 32
      if (hmac C s.ckptMAC (record.take body)).bytes ≠ record.drop body then
        .error (errCorrupted "checkpoint authentication failed")
      else .ok (record.take body)

/-- The root, version and flags of a checkpoint record; without a flags byte the flags are 0. -/
def openCheckpoint (s : Store β) (record : Bytes) : Except Err (Hash × UInt64 × UInt8) := do
  let payload ← checkpointBody C s record
  if payload.length = hashSize + 8 then
    pure (Hash.ofBytes (payload.take 32), Bytes.toU64 ((payload.drop 32).take 8), 0)
  else if payload.length = hashSize + 9 then
    pure (Hash.ofBytes (payload.take 32), Bytes.toU64 ((payload.drop 32).take 8), payload.getD (hashSize + 8) 0)
  else throw (errCorrupted "checkpoint bad length")

/-! ## Loading -/

def errNode (f : String) (nk : NodeKey) : Err := errCorruptedf f [.node nk.version nk.pfx]

/-- Load a node and verify it against the hash the caller expects; cached nodes are verified too. -/
def loadNode (nk : NodeKey) (expectedHash : Hash) : LedgerM β Node := do
  let s ← get
  set { s with cache := (s.cache.get nk).2 }
  match (s.cache.get nk).1 with
  | some n =>
    if n.hash C ≠ expectedHash then throw (errNode "node %v hash mismatch" nk)
    pure n
  | none =>
    match ← backendGet (nodeRecordKey nk) with
    | none => throw (errMissingf "node %v" [.node nk.version nk.pfx])
    | some record =>
      let n ← ofExcept (decodeNode record)
      if n.hash C ≠ expectedHash then throw (errNode "node %v hash mismatch" nk)
      modify fun s => { s with cache := s.cache.put nk n }
      pure n

def loadRootRecord (version : UInt64) : LedgerM β Hash := do
  match ← backendGet (rootRecordKey version) with
  | none => throw (errMissingf "root record v%d" [.uint version])
  | some rec =>
    if rec.length ≠ hashSize then throw (errCorruptedf "root record v%d bad length" [.uint version])
    pure (Hash.ofBytes rec)

/-- The root child of a `(root, version)` pair; none for the empty tree. -/
def loadRootChild (root : Hash) (version : UInt64) : LedgerM β (Option Child) := do
  if root = placeholderHash C then pure none
  else
    let n ← loadNode C (rootNodeKey version) root
    pure (some ⟨version, root, n.isLeaf⟩)

def readValue (path vh : Hash) (valueVersion : UInt64) : LedgerM β Bytes := do
  match ← backendGet (valueRecordKey vh valueVersion) with
  | none => throw (errMissing "value record")
  | some ct =>
    let s ← get
    let pt ← ofExcept (openValue C s.cipher path ct)
    if vhOf C s.ck path pt ≠ vh then throw (errCorrupted "value commitment mismatch")
    pure pt

/-! ## Reads -/

/-- The descent of `walk` from child `c` at position `pfx`, with `fuel` nibbles of the path left. An
internal node below the last nibble makes the source index past the path. -/
def walkFrom (path : Hash) : ℕ → Child → List Nib → LedgerM β (Option Bytes)
  | fuel, c, pfx => do
    let nk : NodeKey := ⟨c.version, pfx⟩
    let n ← loadNode C nk c.hash
    if n.isLeaf ≠ c.isLeaf then throw (errNode "node %v kind mismatch" nk)
    match n with
    | .leaf l =>
      if l.path = path then
        let v ← readValue C path l.vh l.valueVersion
        pure (some v)
      else pure none
    | .internal ch =>
      match fuel with
      | 0 => throw .panic
      | fuel + 1 =>
        match ch (nibble path pfx.length) with
        | none => pure none
        | some next => walkFrom path fuel next (pfx ++ [nibble path pfx.length])

/-- The value at `path` in the tree of `rootChild`, none when absent. -/
def walk (rootChild : Option Child) (path : Hash) : LedgerM β (Option Bytes) :=
  match rootChild with
  | none => pure none
  | some c => walkFrom C path nibbles c []

namespace Store

/-- `Get`: the value for a key at the current version. -/
def get (key : Bytes) : LedgerM β (Option Bytes) := do
  let s ← MonadState.get
  walk C s.rootChild (pathOf C s.ck key)

def errFuture (version current : UInt64) : Err :=
  errInvalidf "version %d is in the future (current %d)" [.uint version, .uint current]

/-- `GetAt`: the value for a key at a historical version. -/
def getAt (version : UInt64) (key : Bytes) : LedgerM β (Option Bytes) := do
  let s ← MonadState.get
  if version > s.version then throw (errFuture version s.version)
  let root ← loadRootRecord version
  let rootChild ← loadRootChild C root version
  walk C rootChild (pathOf C s.ck key)

end Store

end

end ImmutableLedger
