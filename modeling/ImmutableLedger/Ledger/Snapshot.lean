import ImmutableLedger.Ledger.Commit

/-!
# Exporting the leaves of a version

`SnapshotLeaves` walks the tree of a version in path order and returns one page of leaves; `exportLeaves` is the
loop of a caller that asks for page after page.
-/

namespace ImmutableLedger

variable (C : Crypto) {β : Type} [Backend β]

/-- The byte loop of `pathGreater`. -/
def pathGreaterBytes : Bytes → Bytes → Bool
  | x :: xs, y :: ys => if x ≠ y then decide (x > y) else pathGreaterBytes xs ys
  | _, _ => false

def pathGreater (a b : Hash) : Bool := pathGreaterBytes a.bytes b.bytes

/-- The loop of `collectLeaves` over the children of a node. The children below the resume nibble are skipped, and
`sub` collects the leaves of one child; it tells whether the child was exhausted. -/
def collectChildren (ch : Children) (resumeNib : Option Nib)
    (sub : Nib → Child → List Leaf → LedgerM β (Bool × List Leaf)) :
    List Nib → List Leaf → LedgerM β (Bool × List Leaf)
  | [], out => pure (true, out)
  | nib :: nibs, out =>
    if ∃ r ∈ resumeNib, nib < r then collectChildren ch resumeNib sub nibs out
    else match ch nib with
      | none => collectChildren ch resumeNib sub nibs out
      | some cc => do
        let (exhausted, out) ← sub nib cc out
        if exhausted then collectChildren ch resumeNib sub nibs out else pure (false, out)

/-- The walk in nibble order; true when the subtree was exhausted. Below the 64th nibble the source indexes past the
path it resumes after. The fuel bounds the depth of the recursion. -/
def collectLeaves (max : ℕ) : ℕ → Child → List Nib → Option Hash → List Leaf → LedgerM β (Bool × List Leaf)
  | fuel, c, pfx, startAfter, out => do
    if out.length ≥ max then pure (false, out)
    else match ← loadNode C ⟨c.version, pfx⟩ c.hash with
      | .leaf l =>
        -- already streamed
        if ∃ a ∈ startAfter, pathGreater l.path a = false then pure (true, out)
        else
          let value ← readValue C l.path l.vh l.valueVersion
          pure (true, out ++ [⟨l.path, value⟩])
      | .internal ch =>
        if startAfter.isSome ∧ nibbles ≤ pfx.length then throw .panic
        match fuel with
        | 0 => throw .hang
        | fuel + 1 =>
          let resumeNib := startAfter.map fun a => nibble a pfx.length
          -- only the resume child keeps the bound
          collectChildren ch resumeNib
            (fun nib cc out =>
              collectLeaves max fuel cc (pfx ++ [nib]) (if resumeNib = some nib then startAfter else none) out)
            (List.finRange 16) out

namespace Store

/-- `SnapshotLeaves`: up to `max` leaves of the tree at `version`, in path order, strictly after `startAfter`;
true when none remain. -/
def snapshotLeaves (version : UInt64) (startAfter : Option Hash) (max : ℕ) : LedgerM β (List Leaf × Bool) := do
  let root ← loadRootRecord version
  match ← loadRootChild C root version with
  | none => pure ([], true)
  | some rootChild =>
    -- every level is a record of its own
    let s ← MonadState.get
    let (done, leaves) ← collectLeaves C max (nibbles + Backend.len s.backend) rootChild [] startAfter []
    pure (leaves, done)

/-- Page after page of `max` leaves, each after the last path of the one before, in at most `pages` pages. -/
def exportLeaves (version : UInt64) (max : ℕ) : ℕ → Option Hash → LedgerM β (List Leaf)
  | 0, _ => throw .panic
  | pages + 1, startAfter => do
    let (leaves, done) ← snapshotLeaves C version startAfter max
    if done then pure leaves
    else
      let rest ← exportLeaves version max pages ((leaves.getLast?.map Leaf.path).or startAfter)
      pure (leaves ++ rest)

end Store

end ImmutableLedger
