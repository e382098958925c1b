import Mathlib.Data.List.Sort
import Mathlib.Data.List.FinRange
import ImmutableLedger.Ledger.Commit

/-!
# The history chain and the changes of a version

The readers of `audit.go`: the current chain head, the head of an earlier version, the walk that recomputes the
chain over the stored root records, and the extraction of what a version changed by a walk of its tree in lockstep
with that of its predecessor.

The source collects leaves in Go maps and iterates them in no fixed order before it sorts; here maps are ordered.
-/

namespace ImmutableLedger

variable (C : Crypto) {β : Type} [Backend β]

/-- A call whose errors are wrapped. -/
def wrapErr {α : Type} (wrap : Err → Err) (x : LedgerM β α) : LedgerM β α := fun s =>
  match x s with
  | .ok a s => .ok a s
  | .error e s => .error (wrap e) s

def errHistoryOff : Err := errInvalid "history chain is not enabled on this store"

/-- The loop of `VerifyHistory` from version `v` on, at most `rounds` rounds; `v` wraps as the source's counter
does. -/
def verifyHistoryLoop : ℕ → UInt64 → Hash → LedgerM β Hash
  | 0, _, _ => throw .hang
  | rounds + 1, v, head => do
    let s ← get
    if v ≤ s.version then
      let prevRoot ← wrapErr (fun e => .raw ("history walk at version %d (pruned?): " ++ e.text)) (loadRootRecord (v - 1))
      verifyHistoryLoop rounds (v + 1) (historyLink C head prevRoot v)
    else pure head

namespace Store

/-- `VerifyHistory`: recompute the chain from `(fromVersion, fromHead)` over the stored root records, and compare
the result with the live head. -/
def verifyHistory (fromVersion : UInt64) (fromHead : Hash) : LedgerM β Unit := do
  let s ← MonadState.get
  if ¬ s.history then throw errHistoryOff
  if fromVersion > s.version then throw (errFuture fromVersion s.version)
  let head ← verifyHistoryLoop C (s.version.toNat - fromVersion.toNat + 1) (fromVersion + 1) fromHead
  if head ≠ s.historyHead then
    throw (errCorruptedf "history chain mismatch: recorded roots from version %d do not produce the live head"
      [.uint fromVersion])

end Store

/-! ## Changes -/

/-- One leaf-level difference between a version and its predecessor: the plaintext of a put, or a delete. -/
structure Change where
  path : Hash
  value : Bytes := []
  deleted : Bool := false
deriving DecidableEq

/-- The leaves a lockstep walk collected, by path. -/
abbrev LeafMap := OrdMap Hash LeafNode

/-- The node of a reference, if there is one. -/
def diffLoad (c : Option Child) (pfx : List Nib) : LedgerM β (Option Node) :=
  match c with
  | none => pure none
  | some c => do
    let n ← loadNode C ⟨c.version, pfx⟩ c.hash
    pure (some n)

/-- The collected leaves with the leaf at hand, if the node is one. -/
def collectLeaf (n : Option Node) (out : LeafMap) : LeafMap :=
  match n with
  | some (.leaf l) => out.insert l.path l
  | _ => out

/-- The slots of an internal node. -/
def slotsOf (n : Option Node) : Option Children :=
  match n with
  | some (.internal ch) => some ch
  | _ => none

/-- The loop of `diffChildren` over the slots of two nodes, each pair of children walked by `sub`. -/
def diffSlots (ca cb : Children)
    (sub : Nib → Option Child → Option Child → LeafMap × LeafMap → LedgerM β (LeafMap × LeafMap)) :
    List Nib → LeafMap × LeafMap → LedgerM β (LeafMap × LeafMap)
  | [], out => pure out
  | nib :: nibs, out => do
    let out ← sub nib (ca nib) (cb nib) out
    diffSlots ca cb sub nibs out

/-- Walk two subtrees in lockstep and collect the leaves of every region whose hashes differ. The fuel is the number
of nibbles left: below them no honest node exists. -/
def diffChildren : ℕ → Option Child → Option Child → List Nib → LeafMap × LeafMap → LedgerM β (LeafMap × LeafMap)
  | fuel, a, b, pfx, out =>
    if a = none ∧ b = none then pure out
    else if ∃ x ∈ a, ∃ y ∈ b, x.hash = y.hash then pure out
    else do
      let na ← diffLoad C a pfx
      let nb ← diffLoad C b pfx
      let out := (collectLeaf na out.1, collectLeaf nb out.2)
      if slotsOf na = none ∧ slotsOf nb = none then pure out
      else match fuel with
        | 0 => throw .hang
        | fuel + 1 =>
          diffSlots ((slotsOf na).getD fun _ => none) ((slotsOf nb).getD fun _ => none)
            (fun nib a b out => diffChildren fuel a b (pfx ++ [nib]) out) (List.finRange 16) out

/-- The puts among the new leaves: those at a path other than `historyPath` whose value is not the old one. -/
def changedPuts (historyPath : Hash) (old : LeafMap) : List (Hash × LeafNode) → LedgerM β (List Change)
  | [] => pure []
  | (path, leaf) :: new =>
    -- relocated only; value unchanged
    if path = historyPath ∨ ∃ o ∈ old.get path, o.vh = leaf.vh then changedPuts historyPath old new
    else do
      let value ← readValue C leaf.path leaf.vh leaf.valueVersion
      let rest ← changedPuts historyPath old new
      pure ({ path, value } :: rest)

/-- The deletes: the old leaves at a path other than `historyPath` without a new one. -/
def changedDeletes (historyPath : Hash) (old new : LeafMap) : List Change :=
  (old.entries.filter fun e => decide (e.1 ≠ historyPath) && (new.get e.1).isNone).map fun e =>
    { path := e.1, deleted := true }

namespace Store

/-- `ChangesAt`: what the commit producing `version` changed. -/
def changesAt (version : UInt64) : LedgerM β (List Change) := do
  let s ← MonadState.get
  if version = 0 ∨ version > s.version then
    throw (errInvalidf "version %d out of range (current %d)" [.uint version, .uint s.version])
  let oldRoot ← loadRootRecord (version - 1)
  let newRoot ← loadRootRecord version
  let oldChild ← loadRootChild C oldRoot (version - 1)
  let newChild ← loadRootChild C newRoot version
  let leaves ← diffChildren C nibbles oldChild newChild [] (OrdMap.empty, OrdMap.empty)
  let historyPath := pathOf C s.ck historyKey
  let puts ← changedPuts C historyPath leaves.1 leaves.2.entries
  pure ((puts ++ changedDeletes historyPath leaves.1 leaves.2).insertionSort fun a b => a.path ≤ b.path)

end Store

end ImmutableLedger
