import ImmutableLedger.Ledger.Commit

/-!
# Transaction forks

The overlay of `fork.go`: a write-set buffered over the store, read through, and sealed as the transition it proposes.
The source's fork keeps a pointer to the store; here its operations run on the handle.
-/

namespace ImmutableLedger

/-- `Fork`: a pending transaction over the store at `(rootBefore, versionBefore)`, with the buffered write-set by key:
a value for a put, none for a delete. -/
structure Fork where
  rootBefore : Hash
  versionBefore : UInt64
  overlay : OrdMap Bytes (Option Bytes) := OrdMap.empty
deriving DecidableEq

/-- `SealedFork`: the transition a transaction proposes. -/
structure SealedFork where
  rootBefore : Hash
  versionBefore : UInt64
  rootAfter : Hash
  versionAfter : UInt64
  ops : List Op
deriving DecidableEq

/-- A buffered write as an operation. -/
def overlayOp (e : Bytes × Option Bytes) : Op :=
  match e.2 with
  | some v => Op.put e.1 v
  | none => Op.del e.1

namespace Fork

def put (f : Fork) (key value : Bytes) : Fork := { f with overlay := f.overlay.insert key (some value) }

def delete (f : Fork) (key : Bytes) : Fork := { f with overlay := f.overlay.insert key none }

/-- The write-set in key order. -/
def ops (f : Fork) : List Op := f.overlay.entries.map overlayOp

variable (C : Crypto) {β : Type} [Backend β]

/-- `Get`: through the overlay, then from the store. -/
def get (f : Fork) (key : Bytes) : LedgerM β (Option Bytes) :=
  match f.overlay.get key with
  | some pending => pure pending
  | none => Store.get C key

/-- `Seal`: the root and version the write-set would produce. It fails when the store has moved. -/
def sealFork (f : Fork) : LedgerM β SealedFork := do
  let s ← MonadState.get
  if s.root ≠ f.rootBefore ∨ s.version ≠ f.versionBefore then
    throw (errInvalidf "store moved under the fork (version %d != %d)" [.uint s.version, .uint f.versionBefore])
  let (rootAfter, versionAfter) ← Store.previewBatch C f.ops
  pure { rootBefore := f.rootBefore, versionBefore := f.versionBefore, rootAfter, versionAfter, ops := f.ops }

end Fork

/-- `NewFork`: the store at its current root and version. -/
def Store.newFork {β : Type} (s : Store β) : Fork := { rootBefore := s.root, versionBefore := s.version }

/-- `IsNoop`: the write-set is empty or changes nothing. -/
def SealedFork.isNoop (sf : SealedFork) : Bool := decide (sf.rootAfter = sf.rootBefore)

end ImmutableLedger
