import ImmutableLedger.Ledger.Store

/-!
# Applying a batch to the tree

The recursive half of the write path (`store.go`): the accumulator of a commit, building a subtree
from sorted leaves, and folding sorted updates into the subtree at a position. Recursion follows the
nibbles: `fuel` is the number of nibbles below the position, and where the source would index
past the 64th nibble the model panics.

The source keeps `pending` under the encoded node key and iterates Go maps in no fixed order before it
sorts; here maps are ordered, so the entries of `merged` are its sorted pairs.
-/

namespace ImmutableLedger

/-- One deduplicated change: a value commitment to insert or overwrite, none to delete. -/
structure Update where
  path : Hash
  vh : Option Hash
deriving DecidableEq

/-- The work accumulated while applying a batch, flushed atomically. -/
structure CommitAcc where
  newVersion : UInt64
  pending : OrdMap NodeKey Node := OrdMap.empty
  stale : List Bytes := []
  insertCTs : OrdMap Hash Bytes := OrdMap.empty
  values : OrdMap Hash Bytes := OrdMap.empty
  newHead : Option Hash := none

namespace CommitAcc

/-- Retire a node this commit replaces: a persisted record is marked stale, one pending in this very
commit is dropped. -/
def staleNode (acc : CommitAcc) (nk : NodeKey) : CommitAcc :=
  if nk.version = acc.newVersion then { acc with pending := acc.pending.erase nk }
  else { acc with stale := acc.stale ++ [nodeRecordKey nk] }

/-- Retire the value record of a leaf that no longer holds its value. -/
def staleValue (acc : CommitAcc) (leaf : LeafNode) : CommitAcc :=
  if leaf.valueVersion = acc.newVersion then { acc with values := acc.values.erase leaf.vh }
  else { acc with stale := acc.stale ++ [valueRecordKey leaf.vh leaf.valueVersion] }

/-- Add a node at `pfx` under the new version. -/
def addNode (acc : CommitAcc) (pfx : List Nib) (n : Node) : CommitAcc :=
  { acc with pending := acc.pending.insert ⟨acc.newVersion, pfx⟩ n }

end CommitAcc

/-- Contiguous groups of equal nibble at depth `d`. -/
def nibbleGroups {α : Type} (path : α → Hash) (d : ℕ) : List α → List (Nib × List α)
  | [] => []
  | x :: xs =>
    match nibbleGroups path d xs with
    | [] => [(nibble (path x) d, [x])]
    | (nib, g) :: gs =>
      if nibble (path x) d = nib then (nib, x :: g) :: gs else (nibble (path x) d, [x]) :: (nib, g) :: gs

variable (C : Crypto)

/-- Store a leaf node at `pfx` and return its reference; a leaf whose value is written by this commit
also emits its value record. -/
def putLeaf (acc : CommitAcc) (pfx : List Nib) (leaf : LeafNode) : Except Err (CommitAcc × Option Child) := do
  let acc ←
    if leaf.valueVersion = acc.newVersion then
      match acc.values.get leaf.vh with
      | some _ => pure acc
      | none =>
        match acc.insertCTs.get leaf.path with
        | none => throw (errCorrupted "internal: landed insert without ciphertext")
        | some ct => pure { acc with values := acc.values.insert leaf.vh ct }
    else pure acc
  pure (acc.addNode pfx (.leaf leaf), some ⟨acc.newVersion, Node.hash C (.leaf leaf), true⟩)

/-- The loop of `buildFromPairs` over the nibble groups, each built by `sub`. -/
def buildGroups (sub : CommitAcc → Nib → List LeafNode → Except Err (CommitAcc × Option Child)) :
    List (Nib × List LeafNode) → CommitAcc → Children → Except Err (CommitAcc × Children)
  | [], acc, ch => pure (acc, ch)
  | (nib, g) :: gs, acc, ch => do
    let (acc, c) ← sub acc nib g
    buildGroups sub gs acc (Function.update ch nib c)

/-- Build a fresh subtree at `pfx` from sorted leaves. -/
def buildFromPairs : ℕ → CommitAcc → List Nib → List LeafNode → Except Err (CommitAcc × Option Child)
  | _, acc, _, [] => pure (acc, none)
  | _, acc, pfx, [leaf] => putLeaf C acc pfx leaf
  | 0, _, _, _ :: _ :: _ => throw .panic
  | fuel + 1, acc, pfx, a :: b :: pairs => do
    let (acc, ch) ← buildGroups (fun acc nib g => buildFromPairs fuel acc (pfx ++ [nib]) g)
      (nibbleGroups LeafNode.path pfx.length (a :: b :: pairs)) acc (fun _ => none)
    pure (acc.addNode pfx (.internal ch), some ⟨acc.newVersion, Node.hash C (.internal ch), false⟩)

/-- One update merged over the resident leaf: an overwrite with the identical value keeps the old
record, any other routes to a record written by this commit. -/
def mergeUpdate (newVersion : UInt64) (leaf : LeafNode) (merged : OrdMap Hash (Hash × UInt64)) (u : Update) :
    OrdMap Hash (Hash × UInt64) :=
  match u.vh with
  | some vh =>
    merged.insert u.path (vh, if u.path = leaf.path ∧ vh = leaf.vh then leaf.valueVersion else newVersion)
  | none => merged.erase u.path

/-- The resident leaf merged with the updates: path to commitment and value version. -/
def mergeLeaf (newVersion : UInt64) (leaf : LeafNode) (updates : List Update) : OrdMap Hash (Hash × UInt64) :=
  updates.foldl (mergeUpdate newVersion leaf) (OrdMap.empty.insert leaf.path (leaf.vh, leaf.valueVersion))

def mergedPairs (merged : OrdMap Hash (Hash × UInt64)) : List LeafNode :=
  merged.entries.map (fun e => ⟨e.1, e.2.1, e.2.2⟩)

/-- The updates that insert, as leaves of the new version. -/
def insertPairs (newVersion : UInt64) (updates : List Update) : List LeafNode :=
  updates.filterMap (fun u => u.vh.map (fun vh => ⟨u.path, vh, newVersion⟩))

/-- The leaf case of `applySubtree`, at the node `nk`. -/
def applyLeaf (fuel : ℕ) (acc : CommitAcc) (old : Child) (nk : NodeKey) (leaf : LeafNode)
    (updates : List Update) : Except Err (CommitAcc × Option Child) :=
  let merged := mergeLeaf acc.newVersion leaf updates
  if merged.size = 1 ∧ merged.get leaf.path = some (leaf.vh, leaf.valueVersion) then pure (acc, some old)
  else
    let acc := acc.staleNode nk
    let acc := if (merged.get leaf.path).map Prod.fst = some leaf.vh then acc else acc.staleValue leaf
    buildFromPairs C fuel acc nk.pfx (mergedPairs merged)

section
variable {β : Type} [Backend β]

/-- The node of a reference: one this very commit built comes from the pending set, any other is
loaded. -/
def resolveNode (acc : CommitAcc) (nk : NodeKey) (hash : Hash) : LedgerM β Node :=
  if nk.version = acc.newVersion then
    match acc.pending.get nk with
    | none => throw (errNode "pending node %v missing" nk)
    | some n => pure n
  else loadNode C nk hash

/-- The content of a leaf child at `pfx`, to be re-homed by a collapse; its record leaves the pending set
or is marked stale. -/
def takeLeaf (acc : CommitAcc) (c : Child) (pfx : List Nib) : LedgerM β (CommitAcc × LeafNode) :=
  let nk : NodeKey := ⟨c.version, pfx⟩
  if c.version = acc.newVersion then
    match acc.pending.get nk with
    | some (.leaf l) => pure ({ acc with pending := acc.pending.erase nk }, l)
    | _ => throw (errNode "pending leaf %v missing or wrong kind" nk)
  else do
    match ← loadNode C nk c.hash with
    | .leaf l => pure ({ acc with stale := acc.stale ++ [nodeRecordKey nk] }, l)
    | .internal _ => throw (errNode "node %v kind mismatch" nk)

/-- The occupied slots. -/
def occupied (ch : Children) : List (Nib × Child) :=
  (List.finRange 16).filterMap (fun i => (ch i).map (fun c => (i, c)))

/-- The end of the internal case of `applySubtree`: the node at `nk` changed its children to `ch`. A
lone surviving leaf rises, an emptied subtree vanishes. -/
def rebuildNode (acc : CommitAcc) (nk : NodeKey) (ch : Children) : LedgerM β (CommitAcc × Option Child) := do
  let acc := acc.staleNode nk
  match occupied ch with
  | [] => pure (acc, none)
  | (nib, only) :: rest =>
    if rest = [] ∧ only.isLeaf then
      let (acc, leaf) ← takeLeaf C acc only (nk.pfx ++ [nib])
      ofExcept (putLeaf C acc nk.pfx leaf)
    else
      pure (acc.addNode nk.pfx (.internal ch), some ⟨acc.newVersion, Node.hash C (.internal ch), false⟩)

/-- The loop of `applySubtree` over the nibble groups, each applied by `sub`: the accumulator, the
children and whether one of them changed. -/
def applyGroups (sub : CommitAcc → Option Child → Nib → List Update → LedgerM β (CommitAcc × Option Child)) :
    List (Nib × List Update) → CommitAcc → Children → Bool → LedgerM β (CommitAcc × Children × Bool)
  | [], acc, ch, changed => pure (acc, ch, changed)
  | (nib, us) :: gs, acc, ch, changed => do
    let (acc, c) ← sub acc (ch nib) nib us
    if c = ch nib then applyGroups sub gs acc ch changed
    else applyGroups sub gs acc (Function.update ch nib c) true

/-- Apply the sorted updates inside the subtree at `pfx`, returning its new reference; `old` itself
when nothing changed. -/
def applySubtree : ℕ → CommitAcc → Option Child → List Nib → List Update → LedgerM β (CommitAcc × Option Child)
  | _, acc, old, _, [] => pure (acc, old)
  | fuel, acc, none, pfx, u :: us =>
    ofExcept (buildFromPairs C fuel acc pfx (insertPairs acc.newVersion (u :: us)))
  | fuel, acc, some old, pfx, u :: us => do
    let nk : NodeKey := ⟨old.version, pfx⟩
    let n ← resolveNode C acc nk old.hash
    if n.isLeaf ≠ old.isLeaf then throw (errNode "node %v kind mismatch" nk)
    match n with
    | .leaf leaf => ofExcept (applyLeaf C fuel acc old nk leaf (u :: us))
    | .internal ch =>
      match fuel with
      | 0 => throw .panic
      | fuel + 1 =>
        let (acc, ch', changed) ← applyGroups
          (fun acc c nib g => applySubtree fuel acc c (pfx ++ [nib]) g)
          (nibbleGroups Update.path pfx.length (u :: us)) acc ch false
        if changed then rebuildNode C acc nk ch' else pure (acc, some old)

end

end ImmutableLedger
