import ImmutableLedger.Refine.Changes
import ImmutableLedger.Refine.Export
import ImmutableLedger.Refine.Resume
import ImmutableLedger.Proof.Retention

/-!
# Reading whole versions

The two readers that return more than one value, on every store a process can reach and every version it retains:
the pages of a version and the changes of a version.

* `snapshot_paging`: a page is the next `max` leaves in path order, and page after page returns every leaf once.
* `changesAt_diff`: the changes of a version are the difference to its predecessor.
-/

namespace ImmutableLedger

open EStateM Machine

variable {C : Crypto} {ck : Bytes} {o : StoreOptions} {entropy : ℕ → Nonce} {ms : List Move} {s : Store MemBackend}
  {m : Model}

/-- A run that yields a value returns it. -/
theorem Refines.returns {W : Set (Hash × Bytes)} {g : UInt64 → Snap} (hR : Refines C W s m g) {α : Type}
    {x : LedgerM MemBackend α} {a : α} (hx : Yields (Around s) x (.ok a)) : ∃ s', x s = .ok a s' := by
  obtain ⟨s', -, hs'⟩ := hx s ⟨s.cache, hR.cache, rfl⟩
  exact ⟨s', hs'⟩

/-- A version with a root record, in the model. -/
theorem OneHandle.retained {W : Set (Hash × Bytes)} (h : OneHandle C ck W s m) {v : UInt64}
    (hv : (OrdMap.get s.backend (rootRecordKey v)).isSome) : ∃ vals, m.mapAt v = .ok vals ∧ m.past v = some vals := by
  obtain ⟨vals, hvals⟩ := h.mapAt hv
  refine ⟨vals, hvals, ?_⟩
  unfold Model.mapAt at hvals
  by_cases hfuture : v > m.version
  · rw [if_pos hfuture] at hvals
    cases hvals
  · rw [if_neg hfuture] at hvals
    cases hp : m.past v with
    | none =>
      rw [hp] at hvals
      cases hvals
    | some vals' =>
      rw [hp] at hvals
      cases hvals
      rfl

/-- **Snapshot paging.** On a reachable store, a page of a retained version is the next `max` leaves after the resume
path, in strictly increasing path order and with the plaintexts of the version, and is the last one when none is
left. A caller that resumes after the last path of each page is done after finitely many pages, and has every leaf
once. -/
theorem snapshot_paging (hC : C.GcmOk) (h : Reached C ck o entropy ms s m) {v : UInt64}
    (hv : (OrdMap.get s.backend (rootRecordKey v)).isSome) {max : ℕ} (hmax : 1 ≤ max) :
    ∃ vals, m.mapAt v = .ok vals ∧
      (vals.entries.Pairwise fun a b => a.1 < b.1) ∧ (∀ p pt, (p, pt) ∈ vals.entries ↔ vals.get p = some pt) ∧
      ∀ startAfter : Option Hash,
        (∃ done s', Store.snapshotLeaves C v startAfter max s =
            .ok (((remaining startAfter vals.entries).take max).map leafOf, done) s' ∧
          (done = true ↔ (remaining startAfter vals.entries).drop max = [])) ∧
        ∀ pages, (remaining startAfter vals.entries).length < pages → ∃ s',
          Store.exportLeaves C v max pages startAfter s = .ok ((remaining startAfter vals.entries).map leafOf) s' := by
  have htracked := h.tracked hC
  obtain ⟨vals, hvals, hpast⟩ := htracked.handle.retained hv
  obtain ⟨⟨rfl, -, g, hR⟩, -⟩ := htracked
  have hW := h.noCollision.values
  refine ⟨vals, hvals, vals.sorted, fun p pt => OrdMap.mem_entries, fun startAfter => ⟨?_, fun pages hpages => ?_⟩⟩
  · obtain ⟨s', hs'⟩ := hR.returns (hR.yields_snapshotLeaves hW hpast hmax startAfter)
    unfold page at hs'
    rw [List.nil_append, List.length_nil, Nat.zero_add, Nat.sub_zero] at hs'
    refine ⟨_, s', hs', ?_⟩
    rw [decide_eq_true_eq, List.drop_eq_nil_iff]
  · exact hR.returns (hR.yields_exportLeaves hW hpast hmax hpages)

/-- **`ChangesAt` is the logical difference.** On a reachable store, for a version whose root record and whose
predecessor's are retained, the changes are the difference of the two maps, unless node hashes of their trees
collide. -/
theorem changesAt_diff (hC : C.GcmOk) (h : Reached C ck o entropy ms s m) {v : UInt64} (hv : 1 ≤ v)
    (hold : (OrdMap.get s.backend (rootRecordKey (v - 1))).isSome)
    (hnew : (OrdMap.get s.backend (rootRecordKey v)).isSome) :
    ∃ old new, m.mapAt (v - 1) = .ok old ∧ m.mapAt v = .ok new ∧
      (¬ Collision C (treeInputs C (commitments C ck old) ++ treeInputs C (commitments C ck new)) →
        ∃ changes s', Store.changesAt C v s = .ok changes s' ∧ IsDiff (historyPath C ck) old new changes) := by
  have htracked := h.tracked hC
  obtain ⟨old, hold', hpast⟩ := htracked.handle.retained hold
  obtain ⟨new, hnew', hpast'⟩ := htracked.handle.retained hnew
  obtain ⟨⟨rfl, -, g, hR⟩, -⟩ := htracked
  refine ⟨old, new, hold', hnew', fun hcol => ?_⟩
  have hv0 : v ≠ 0 := by
    rintro rfl
    exact absurd hv (by decide)
  obtain ⟨changes, hy, hdiff⟩ := hR.yields_changesAt h.noCollision.values hv0 hpast hpast' hcol
  obtain ⟨s', hs'⟩ := hR.returns hy
  exact ⟨changes, s', hs', hdiff⟩

/-- The two pages of a version with three leaves. -/
theorem snapshot_paging_two : ∃ vals, sampleModel.mapAt 2 = .ok vals ∧ vals.size = 3 ∧
    (∃ s', Store.snapshotLeaves quickCrypto 2 none 2 sampleStore =
      .ok (((remaining none vals.entries).take 2).map leafOf, false) s') ∧
    ∃ s', Store.exportLeaves quickCrypto 2 2 4 none sampleStore = .ok ((remaining none vals.entries).map leafOf) s' := by
  have hv : (OrdMap.get sampleStore.backend (rootRecordKey 2)).isSome := by decide +kernel
  obtain ⟨vals, hvals, -, -, hpages⟩ := snapshot_paging quickCrypto_gcmOk sampleStore_reached hv (show 1 ≤ 2 by decide)
  have hcur : (sampleModel.mapAt 2).toOption = some sampleModel.cur := by decide +kernel
  rw [hvals] at hcur
  rw [Option.some.inj hcur] at hvals hpages
  obtain ⟨⟨done, s', hs', hdone⟩, hexport⟩ := hpages none
  have hmore : (remaining none sampleModel.cur.entries).drop 2 ≠ [] := by decide +kernel
  obtain rfl : done = false := Bool.eq_false_iff.2 (mt hdone.1 hmore)
  exact ⟨_, hvals, by decide +kernel, ⟨s', hs'⟩, hexport 4 (by decide +kernel)⟩

/-- The second version against the first. -/
theorem changesAt_diff_second : ∃ old new, sampleModel.mapAt 1 = .ok old ∧ sampleModel.mapAt 2 = .ok new ∧
    old.size = 3 ∧ new.size = 3 ∧ ∃ changes s', Store.changesAt quickCrypto 2 sampleStore = .ok changes s' ∧
      IsDiff (historyPath quickCrypto []) old new changes := by
  have hold : (OrdMap.get sampleStore.backend (rootRecordKey (2 - 1))).isSome := by decide +kernel
  have hnew : (OrdMap.get sampleStore.backend (rootRecordKey 2)).isSome := by decide +kernel
  obtain ⟨old, new, hold', hnew', hdiff⟩ := changesAt_diff quickCrypto_gcmOk sampleStore_reached (by decide) hold hnew
  have hpair : (sampleModel.mapAt (2 - 1)).toOption.bind (fun old => (sampleModel.mapAt 2).toOption.map fun new =>
      (old.size, new.size, decide (¬ Collision quickCrypto (treeInputs quickCrypto (commitments quickCrypto [] old) ++
        treeInputs quickCrypto (commitments quickCrypto [] new))))) = some (3, 3, true) := by decide +kernel
  rw [hold', hnew'] at hpair
  obtain ⟨hsize, hrest⟩ := Prod.ext_iff.1 (Option.some.inj hpair)
  obtain ⟨hsize', hcol⟩ := Prod.ext_iff.1 hrest
  exact ⟨old, new, hold', hnew', hsize, hsize', hdiff (of_decide_eq_true hcol)⟩

end ImmutableLedger
