import ImmutableLedger.Lib.OrdMap
import ImmutableLedger.Lib.Bytes
import ImmutableLedger.Lib.Framing
import ImmutableLedger.Lib.Wire
import ImmutableLedger.Lib.Codec
import ImmutableLedger.Lib.KeyOrder
import ImmutableLedger.Lib.Merge
import ImmutableLedger.Lib.Mirror
import ImmutableLedger.Lib.Sha256
import ImmutableLedger.Lib.SparseMerkle
import ImmutableLedger.Lib.Yields
import ImmutableLedger.Lib.Machine
import ImmutableLedger.Lib.HashChain
import ImmutableLedger.Ledger.Hash
import ImmutableLedger.Ledger.Path
import ImmutableLedger.Ledger.Node
import ImmutableLedger.Ledger.Backend
import ImmutableLedger.Ledger.Store
import ImmutableLedger.Ledger.Apply
import ImmutableLedger.Ledger.Commit
import ImmutableLedger.Ledger.Flaky
import ImmutableLedger.Ledger.Proof
import ImmutableLedger.Ledger.Audit
import ImmutableLedger.Ledger.Snapshot
import ImmutableLedger.Ledger.Fork
import ImmutableLedger.Sql.Codec
import ImmutableLedger.Sql.Catalog
import ImmutableLedger.Sql.Store
import ImmutableLedger.Sql.Database
import ImmutableLedger.Sql.Txn
import ImmutableLedger.Sql.Session
import ImmutableLedger.Sql.Range
import ImmutableLedger.Sql.Scan
import ImmutableLedger.Sql.Keys
import ImmutableLedger.Sql.SampleLib
import ImmutableLedger.Tree.Canonical
import ImmutableLedger.Tree.Delta
import ImmutableLedger.Tree.Build
import ImmutableLedger.Tree.Read
import ImmutableLedger.Tree.Apply
import ImmutableLedger.Tree.Root
import ImmutableLedger.Tree.Prove
import ImmutableLedger.Tree.Collect
import ImmutableLedger.Tree.Diff
import ImmutableLedger.Model.Ledger
import ImmutableLedger.Model.MapLedger
import ImmutableLedger.Sql.Programs
import ImmutableLedger.Refine.Invariant
import ImmutableLedger.Refine.Records
import ImmutableLedger.Refine.Batch
import ImmutableLedger.Refine.Write
import ImmutableLedger.Refine.Sweep
import ImmutableLedger.Refine.Prune
import ImmutableLedger.Refine.Stamp
import ImmutableLedger.Refine.Run
import ImmutableLedger.Refine.Reopen
import ImmutableLedger.Refine.Resume
import ImmutableLedger.Refine.Exact
import ImmutableLedger.Refine.Export
import ImmutableLedger.Refine.Changes
import ImmutableLedger.Refine.Twin
import ImmutableLedger.Refine.LinkedWrite
import ImmutableLedger.Refine.Flaky
import ImmutableLedger.Proof.Content
import ImmutableLedger.Proof.Retention
import ImmutableLedger.Proof.Reopen
import ImmutableLedger.Proof.Chain
import ImmutableLedger.Proof.Completeness
import ImmutableLedger.Proof.Erasure
import ImmutableLedger.Proof.Transfer
import ImmutableLedger.Proof.Views
import ImmutableLedger.Proof.Accounting
import ImmutableLedger.Proof.Restart
import ImmutableLedger.Proof.Noop
import ImmutableLedger.Proof.Fork
import ImmutableLedger.Proof.Uncached
import ImmutableLedger.Proof.Based
import ImmutableLedger.Proof.Torn
import ImmutableLedger.Proof.Catalog
import ImmutableLedger.Proof.FailedCommit
import ImmutableLedger.Proof.Planned
import ImmutableLedger.Proof.Rebuild
import ImmutableLedger.Proof.IndexOrder
import ImmutableLedger.Proof.IndexRange
import ImmutableLedger.Proof.RowCodec
import ImmutableLedger.Proof.Editor
import ImmutableLedger.Proof.Scan
import ImmutableLedger.Proof.KeySpace
import ImmutableLedger.Proof.Overlay
import ImmutableLedger.Proof.ScanExact
import ImmutableLedger.Proof.Formats
import ImmutableLedger.Proof.Sessions
import ImmutableLedger.Proof.AutoInc
import ImmutableLedger.Proof.Image
import ImmutableLedger.Proof.OpenExact
import ImmutableLedger.Security.Binding
import ImmutableLedger.Security.Prover
import ImmutableLedger.Security.Hostile
import ImmutableLedger.Security.FailClosed
import ImmutableLedger.Security.ChainMode
import ImmutableLedger.Security.Depth
import ImmutableLedger.Lib.View
import ImmutableLedger.Proof.EngineRow
import ImmutableLedger.Proof.Issued
import ImmutableLedger.Proof.StoreInv
import ImmutableLedger.Sql.Service
import ImmutableLedger.Proof.Transaction
import ImmutableLedger.Proof.LostUpdate
import ImmutableLedger.Proof.Upkeep
import ImmutableLedger.Proof.DerivedRun
import ImmutableLedger.Proof.ScanRun
import ImmutableLedger.Proof.Marker
import ImmutableLedger.Proof.Backing
