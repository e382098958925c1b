import ImmutableLedger.Sql.Catalog

/-!
# Index ranges

How a range of the query engine becomes bounds of a keyspace (`index.go`): a run of exact columns extends the common
head of both bounds, the first other column sets them, and the columns after it are left to the engine's filters.

The primary key's keyspace is the scan keyspace; its columns carry no NULL markers.
-/

namespace ImmutableLedger

/-- A cut of the engine (`sql.MySQLRangeCut`): a place between values, NULL being the lowest one. -/
inductive Cut where
  | belowNull
  | aboveNull
  | below (key : GoVal)
  | above (key : GoVal)
  | aboveAll
deriving DecidableEq

/-- The part of a range for one column (`sql.MySQLRangeColumnExpr`). -/
structure ColRange where
  lower : Cut
  upper : Cut
deriving DecidableEq

/-- `ledgerIndex`: the primary key (no `idx`) or one secondary index of a table. -/
structure LedgerIndex where
  tdef : TableDef
  idx : Option IndexDef

namespace LedgerIndex

def ords (x : LedgerIndex) : List ℕ :=
  match x.idx with
  | none => x.tdef.pkOrds
  | some idx => idx.colOrds

/-- What all keys of the index start with. -/
def space (x : LedgerIndex) : Bytes :=
  match x.idx with
  | none => scanKey x.tdef.id []
  | some idx => secondarySpace idx.id

/-- The NULL marker of a present value; 0 when the keyspace has no markers. -/
def marker (x : LedgerIndex) : UInt8 := if x.idx.isNone then 0 else 1

end LedgerIndex

def encodeCut (kind : ColKind) (v : GoVal) : Except SqlErr Bytes := encodeKeyCol kind v

/-- `withMarker`. -/
def withMarker (pre : Bytes) (marker : UInt8) (enc : Bytes) : Bytes :=
  pre ++ (if marker ≠ 0 then [marker] else []) ++ enc

/-- The lower bound from the first column that is not exact. -/
def boundedStart (pre : Bytes) (marker : UInt8) (kind : ColKind) : Cut → Option Bytes
  | .belowNull => some pre
  | .aboveNull => some (if marker = 0 then pre else pre ++ [marker])
  | .below key => (encodeCut kind key).toOption.map (withMarker pre marker)
  | .above key => do
    let enc ← (encodeCut kind key).toOption
    incBytes (withMarker pre marker enc)
  | .aboveAll => none

/-- The upper bound from the first column that is not exact. -/
def boundedEnd (pre : Bytes) (marker : UInt8) (kind : ColKind) : Cut → Option Bytes
  | .aboveAll => incBytes pre
  | .above key => do
    let enc ← (encodeCut kind key).toOption
    incBytes (withMarker pre marker enc)
  | .below key => (encodeCut kind key).toOption.map (withMarker pre marker)
  | .aboveNull => if marker = 0 then none else some (pre ++ [marker])
  | .belowNull => none

/-- The bounds from the first column that is not exact. -/
def boundedColumn (pre : Bytes) (marker : UInt8) (kind : ColKind) (r : ColRange) : Option (Bytes × Bytes) := do
  let start ← boundedStart pre marker kind r.lower
  let stop ← boundedEnd pre marker kind r.upper
  pure (start, stop)

namespace LedgerIndex

/-- The loop of `rangeBounds` over the columns; `pre` is the head the exact columns before have built. None when the
range cannot be served. -/
def boundsFrom (x : LedgerIndex) : Bytes → List ColRange → List ℕ → Except SqlErr (Option (Bytes × Bytes))
  | pre, r :: rng, ord :: ords => do
    let c ← x.tdef.columnAt ord
    match c.kind with
    | .error _ => pure none
    | .ok kind =>
      -- an exact NULL
      if r.lower = .belowNull ∧ r.upper = .aboveNull ∧ x.idx.isSome then boundsFrom x (pre ++ [0x00]) rng ords
      else match r.lower, r.upper with
        | .below lb, .above ub =>
          match encodeCut kind lb, encodeCut kind ub with
          | .ok lenc, .ok uenc =>
            -- an exact value
            if lenc = uenc then boundsFrom x (withMarker pre x.marker lenc) rng ords
            else pure (boundedColumn pre x.marker kind r)
          | _, _ => pure none
        | _, _ => pure (boundedColumn pre x.marker kind r)
  | pre, _, _ => pure ((incBytes pre).map fun stop => (pre, stop))

/-- Convert a range into the bounds of a scan. -/
def rangeBounds (x : LedgerIndex) (rng : List ColRange) : Except SqlErr (Option (Bytes × Bytes)) :=
  x.boundsFrom x.space rng x.ords

end LedgerIndex

/-- `indexRangePartition`: a scan of `[start, stop)` of one keyspace; `idxID` names it unless it is the primary one. -/
structure RangePartition where
  start : Bytes
  stop : Bytes
  idxID : Option UInt64
  reverse : Bool := false

end ImmutableLedger
