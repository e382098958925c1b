import ImmutableLedger.Refine.Resume
import ImmutableLedger.Proof.Erasure

/-!
# Exact garbage accounting

The write batch of a commit, on every store a process can reach: its node and value records are those that became
reachable, and its stale marks name those that stopped being reachable.

* `Accounted`: what a write batch has to do with the trees before and after it.
* `Built.accounted`: the batch of a computed commit is accounted for.
* `putBatch_accounted`: every effective batch of operations is.
-/

namespace ImmutableLedger

open EStateM Machine

variable {C : Crypto} {ck : Bytes} {W : Set (Hash × Bytes)} {s s' : Store MemBackend} {m m' : Model}
  {g g' : UInt64 → Snap}

/-- The write batch that took `s` to `s'` writes the records reachable from the new root and not from the old one,
under the new version, and marks those reachable from the old root and not from the new one. No key is written
twice. -/
structure Accounted (C : Crypto) (s s' : Store MemBackend) (batch : List BatchOp) : Prop where
  records : ∀ k, IsRecord k → (k ∈ batch.map BatchOp.key ↔
    ∃ x, k = RecKey.bytes x ∧ Reachable C s'.backend s'.version x ∧ ¬ Reachable C s.backend s.version x)
  version : ∀ x, Reachable C s'.backend s'.version x → ¬ Reachable C s.backend s.version x → x.version = some s'.version
  stale : ∀ k, k.head? = some recStale → (k ∈ batch.map BatchOp.key ↔
    ∃ x, k = staleRecordKey s'.version (RecKey.bytes x) ∧ Reachable C s.backend s.version x ∧
      ¬ Reachable C s'.backend s'.version x)
  once : (batch.map BatchOp.key).Nodup
  puts : ∀ op ∈ batch, op.delete = false

/-! ## The keys of a write batch -/

section
variable {acc : CommitAcc} {root : Hash} {ckpt : Bytes}

/-- The records a commit writes, in the order of its batch. -/
def commitKeys (acc : CommitAcc) : List RecKey :=
  acc.pending.entries.map (fun e => .node e.1) ++ acc.values.entries.map (fun e => .value e.1 acc.newVersion) ++
    acc.stale.map (fun target => .stale acc.newVersion target) ++ [.root acc.newVersion, .checkpoint]

theorem keys_commitBatch : (commitBatch acc root ckpt).map BatchOp.key = (commitKeys acc).map RecKey.bytes := by
  simp only [commitBatch, commitKeys, List.map_append, List.map_map, List.map_cons, List.map_nil]
  rfl

/-- A key of the batch is that of a record it writes. -/
theorem mem_keys_commitBatch {k : Bytes} : k ∈ (commitBatch acc root ckpt).map BatchOp.key ↔
    ∃ x v, written acc root ckpt x = some v ∧ k = RecKey.bytes x := by
  rw [List.mem_map]
  constructor
  · rintro ⟨op, hop, rfl⟩
    obtain ⟨x, v, hw, rfl⟩ := mem_commitBatch.1 hop
    exact ⟨x, v, hw, rfl⟩
  · rintro ⟨x, v, hw, rfl⟩
    exact ⟨_, mem_commitBatch.2 ⟨x, v, hw, rfl⟩, rfl⟩

theorem nodup_commitKeys (hstale : acc.stale.Nodup) : (commitKeys acc).Nodup := by
  have hnodes : (acc.pending.entries.map fun e => RecKey.node e.1).Nodup := by
    have hmap : acc.pending.entries.map (fun e => RecKey.node e.1) = (acc.pending.entries.map Prod.fst).map .node := by
      rw [List.map_map]
      rfl
    rw [hmap]
    exact acc.pending.nodup_keys.map fun a b h => RecKey.node.inj h
  have hvalues : (acc.values.entries.map fun e => RecKey.value e.1 acc.newVersion).Nodup := by
    have hmap : acc.values.entries.map (fun e => RecKey.value e.1 acc.newVersion) =
        (acc.values.entries.map Prod.fst).map fun vh => .value vh acc.newVersion := by
      rw [List.map_map]
      rfl
    rw [hmap]
    exact acc.values.nodup_keys.map fun a b h => (RecKey.value.inj h).1
  have hmarks : (acc.stale.map fun target => RecKey.stale acc.newVersion target).Nodup :=
    hstale.map fun a b h => (RecKey.stale.inj h).2
  unfold commitKeys
  -- records of different kinds are different
  refine List.nodup_append'.2 ⟨List.nodup_append'.2 ⟨List.nodup_append'.2 ⟨hnodes, hvalues, ?_⟩, hmarks, ?_⟩, by simp, ?_⟩
  all_goals
    intro x hx hy
    simp only [List.mem_append, List.mem_map, List.mem_cons, List.not_mem_nil, or_false] at hx hy
    grind

end

/-! ## A computed commit -/

section
variable {acc : CommitAcc} {vals : OrdMap Hash Bytes} {x : Snap} {root : Hash} {ckpt : Bytes}
  (h : Refines C W s m g) (hmax : m.version < 0xFFFFFFFFFFFFFFFF) (hW : VhInj C s.ck W)
  (hB : Built C W s ((g m.version).tree.recs C []) acc vals x)
include h hmax hB

omit h hmax in
/-- A record of the new tree that was not in the old one is of the new version, and written. -/
theorem Built.written_of_new (hW : VhInj C s.ck W) {y : Record} (hy : y ∈ x.tree.recs C [])
    (hold : y ∉ (g m.version).tree.recs C []) :
    y.version = acc.newVersion ∧ ∃ v, written acc root ckpt y.key = some v := by
  obtain ⟨cts, head, hstep⟩ := hB.step
  have hv : y.version = acc.newVersion := by
    by_contra hv
    exact hold (hstep.old y hy hv)
  refine ⟨hv, ?_⟩
  cases y with
  | node nk n =>
    have hpend := (hstep.tracks.pend nk n List.nil_prefix hv).2 hy
    exact ⟨n.encode, by simp [written, hpend, Record.key]⟩
  | value p vh v =>
    have ho := hB.content.owned hW (hB.tree.holds.value_mem hy)
    obtain rfl : v = acc.newVersion := hv
    obtain ⟨ct, hct, -⟩ := hstep.tracks.val_in vh (by rw [ho]; exact hy)
    exact ⟨ct, by simp [written, hct, Record.key]⟩

include hW in
/-- The stale marks are those of the records that left the tree, once each. -/
theorem Built.stale_marks : acc.stale.Nodup ∧ ∀ target, target ∈ acc.stale ↔
    ∃ y ∈ (g m.version).tree.recs C [], target = y.key.bytes ∧ ∀ z ∈ x.tree.recs C [], z.key ≠ y.key := by
  have hx := h.snap_cur
  obtain ⟨cts, head, hstep⟩ := hB.step
  obtain ⟨σ, hσ, hnd, hmem⟩ := hstep.stale
  have hσ' : acc.stale = σ.map fun y => y.key.bytes := by rw [hσ, List.nil_append]
  have hinj : ∀ {y z : Record}, y ∈ (g m.version).tree.recs C [] → z ∈ (g m.version).tree.recs C [] →
      y.key = z.key → y = z := fun hy hz => hx.holds.key_inj (fun p vh vv hf => hx.content.owned hW hf) hy hz
  rw [hσ']
  constructor
  · refine List.Nodup.map_on (fun y hy z hz heq => ?_) hnd
    have hyR := ((hmem y).1 hy).1
    have hzR := ((hmem z).1 hz).1
    exact hinj hyR hzR (RecKey.bytes_inj heq)
  · intro target
    rw [List.mem_map]
    constructor
    · rintro ⟨y, hy, rfl⟩
      obtain ⟨hyR, hyv, hyR'⟩ := (hmem y).1 hy
      refine ⟨y, hyR, rfl, fun z hz hk => hyR' ?_⟩
      -- a record with the key of an old one is that record
      have hzv : z.version ≠ acc.newVersion := by
        have hkv := z.key_version
        rw [hk, y.key_version] at hkv
        rw [← Option.some.inj hkv]
        exact hyv
      rw [← hinj (hstep.old z hz hzv) hyR hk]
      exact hz
    · rintro ⟨y, hyR, rfl, hgone⟩
      exact ⟨y, (hmem y).2 ⟨hyR, (hB.version_le h hmax h.cur y hyR).2, fun hy => hgone y hy rfl⟩, rfl⟩

include hW in
/-- **The batch of a computed commit is accounted for.** -/
theorem Built.accounted (h' : Refines C W s' m' g') (hg : (g' m'.version).tree = x.tree)
    (hv : m'.version = acc.newVersion) :
    Accounted C s s' (commitBatch acc root ckpt) := by
  have hold : ∀ k, Reachable C s.backend s.version k ↔ ∃ y ∈ (g m.version).tree.recs C [], y.key = k := by
    intro k
    rw [h.version]
    exact h.reachable_iff h.cur
  have hnew : ∀ k, Reachable C s'.backend s'.version k ↔ ∃ y ∈ x.tree.recs C [], y.key = k := by
    intro k
    rw [h'.version, ← hg]
    exact h'.reachable_iff h'.cur
  have hversion : s'.version = acc.newVersion := by rw [h'.version, hv]
  obtain ⟨hnd, hmarks⟩ := hB.stale_marks h hmax hW
  -- a record of the new version is not one of the old tree
  have hfresh : ∀ k : RecKey, k.version = some acc.newVersion → ¬ Reachable C s.backend s.version k := by
    intro k hk hreach
    obtain ⟨y, hy, rfl⟩ := (hold k).1 hreach
    rw [y.key_version] at hk
    exact (hB.version_le h hmax h.cur y hy).2 (Option.some.inj hk)
  have hwritten : ∀ k, Reachable C s'.backend s'.version k → ¬ Reachable C s.backend s.version k →
      k.version = some acc.newVersion ∧ ∃ v, written acc root ckpt k = some v := by
    intro k hk hnot
    obtain ⟨y, hy, rfl⟩ := (hnew k).1 hk
    obtain ⟨hyv, hw⟩ := @Built.written_of_new C W s m g acc vals x root ckpt hB hW y hy fun hyR =>
      hnot ((hold _).2 ⟨y, hyR, rfl⟩)
    exact ⟨by rw [y.key_version, hyv], hw⟩
  refine ⟨fun k hrec => ?_, fun k hk hnot => ?_, fun k hk => ?_, ?_, ?_⟩
  · rw [mem_keys_commitBatch]
    constructor
    · rintro ⟨y, v, hw, rfl⟩
      obtain ⟨z, hz, rfl⟩ := hB.written_mem hw hrec
      have hzv : z.key.version = some acc.newVersion := by
        cases z with
        | node nk n =>
          obtain ⟨n', hn', -⟩ := Option.map_eq_some_iff.1 hw
          exact congrArg some (hB.pend hn').1
        | value p vh w =>
          simp only [Record.key, written] at hw
          split at hw
          · rename_i hwv
            exact congrArg some hwv
          · cases hw
      exact ⟨z.key, rfl, (hnew _).2 ⟨z, hz, rfl⟩, hfresh _ hzv⟩
    · rintro ⟨y, rfl, hreach, hnot⟩
      obtain ⟨-, v, hw⟩ := hwritten y hreach hnot
      exact ⟨y, v, hw, rfl⟩
  · rw [hversion]
    exact (hwritten k hk hnot).1
  · rw [mem_keys_commitBatch]
    constructor
    · rintro ⟨y, v, hw, rfl⟩
      cases y with
      | stale t target =>
        simp only [written] at hw
        split at hw
        · rename_i hmark
          obtain ⟨rfl, htarget⟩ := hmark
          obtain ⟨y, hy, rfl, hgone⟩ := (hmarks target).1 htarget
          refine ⟨y.key, by rw [hversion]; rfl, (hold _).2 ⟨y, hy, rfl⟩, fun hreach => ?_⟩
          obtain ⟨z, hz, hzk⟩ := (hnew _).1 hreach
          exact hgone z hz hzk
        · cases hw
      | _ => exact absurd hk (by simp [RecKey.bytes, nodeRecordKey, valueRecordKey, rootRecordKey, checkpointRecordKey,
          recNode, recValue, recRoot, recCheckpoint, recStale])
    · rintro ⟨k', rfl, hreach, hnot⟩
      obtain ⟨y, hy, rfl⟩ := (hold k').1 hreach
      have htarget : y.key.bytes ∈ acc.stale :=
        (hmarks _).2 ⟨y, hy, rfl, fun z hz hzk => hnot ((hnew _).2 ⟨z, hz, hzk⟩)⟩
      exact ⟨.stale acc.newVersion y.key.bytes, [], if_pos ⟨rfl, htarget⟩, by rw [hversion]; rfl⟩
  · rw [keys_commitBatch]
    refine List.Nodup.map_on (fun a ha b hb heq => ?_) (nodup_commitKeys hnd)
    exact RecKey.bytes_inj heq
  · intro op hop
    obtain ⟨y, v, -, rfl⟩ := mem_commitBatch.1 hop
    rfl

end

/-! ## Batches of operations -/

section
variable {o : StoreOptions} {entropy : ℕ → Nonce} {ms : List Move} {ops : List Op}

/-- A batch of operations that moves the version writes a computed commit. -/
theorem Refines.putBatch_writes (h : Refines C W s m g) (hC : C.GcmOk) (hW : VhInj C s.ck W)
    (hok : StepOk C s.ck W m (.putBatch ops)) (heff : (s.step C (.putBatch ops)).2.version ≠ s.version) :
    ∃ acc rootChild s₀ ckpt, computeBatch C ops s = .ok (some (acc, rootChild, (s.step C (.putBatch ops)).2.root)) s₀ ∧
      (s.step C (.putBatch ops)).2.backend = MemBackend.writeBatch s.backend
        (commitBatch acc (s.step C (.putBatch ops)).2.root ckpt) ∧
      Accounted C s (s.step C (.putBatch ops)).2 (commitBatch acc (s.step C (.putBatch ops)).2.root ckpt) := by
  have hstep : s.step C (.putBatch ops) = ((((Call.putBatch ops).exec C s)).val, ((Call.putBatch ops).exec C s).state) := rfl
  have hroot := hok.root
  have hcommits := h.putBatch hC hW hok
  simp only [Model.step, Model.putBatch] at hroot
  cases hres : Model.reservedOp ops with
  | some op =>
    -- refused: the version stays
    obtain ⟨-, -, g', hR, -⟩ := hcommits
    have hv := hR.version
    simp only [Model.step, Model.putBatch, hres] at hv
    exact absurd (hv.trans h.version.symm) heff
  | none =>
    rw [hres] at hroot
    simp only at hroot
    obtain ⟨r, s₀, hrun, hs₀, hr⟩ := h.returns_computeBatch hC hW hok.max hres hok.pairs hok.head s (Near.refl h.cache)
    rcases hr with ⟨rfl, hsame⟩ | ⟨hne, acc, rc, root, x, rfl, hcomp⟩
    · obtain ⟨-, -, g', hR, -⟩ := hcommits
      have hv := hR.version
      simp only [Model.step, Model.putBatch, hres, if_pos hsame] at hv
      exact absurd (hv.trans h.version.symm) heff
    · rw [if_neg hne] at hroot
      obtain ⟨s', hcommit, hs'⟩ := @commitAcc_run C s hC s₀ hs₀ acc
        (m.commitLinked C s.ck (applyOps C s.ck m.cur ops)).cur x
      rw [← hcomp.root, ← hcomp.child] at hcommit
      have hput : Store.putBatch C ops s = _ := (run_bind_ok hrun).trans hcommit
      have hexec : (Call.putBatch ops).exec C s = _ := run_bind_ok hput
      have hs : (s.step C (.putBatch ops)).2 = s' := by rw [hstep, hexec]; rfl
      have hR := h.commit hok.max hcomp.built hs' hW hcomp.ver fun hnil =>
        hroot (hcomp.built.tree.holds.ne_empty hcomp.built.content hnil)
      obtain ⟨ckpt, -, hb⟩ := hs'.backend
      have hr : s'.root = root := by rw [hs'.root, hcomp.root]
      have hnv : (m.commit (m.commitLinked C s.ck (applyOps C s.ck m.cur ops)).cur (acc.newHead.getD m.head)).version =
          acc.newVersion := (hcomp.built.newVersion_eq h).symm
      rw [hs, hr]
      refine ⟨acc, rc, s₀, ckpt, hrun, by rw [hb, hcomp.root], ?_⟩
      refine hcomp.built.accounted h hok.max hW hR ?_ hnv
      rw [hnv, Function.update_self]

/-- **Exact garbage accounting.** On a reachable store, a batch of operations that moves the version is written as one
batch, the one its computation left: the node and value records in it are those reachable from the new root and not
from the old one, and the stale marks in it are those of the records reachable from the old root and not from the new
one, each once. -/
theorem putBatch_accounted (hC : C.GcmOk) (h : Reached C ck o entropy ms s m)
    (h' : Reached C ck o entropy (ms ++ [.call (.putBatch ops)]) s' m') (heff : s'.version ≠ s.version) :
    ∃ acc rootChild s₀ ckpt, computeBatch C ops s = .ok (some (acc, rootChild, s'.root)) s₀ ∧
      s'.backend = MemBackend.writeBatch s.backend (commitBatch acc s'.root ckpt) ∧
      Accounted C s s' (commitBatch acc s'.root ckpt) := by
  obtain ⟨rfl, -, hW, ⟨⟨rfl, -, g, hR⟩, -⟩, hok⟩ := h.next hC h'
  exact hR.putBatch_writes hC hW hok heff

/-- A key is written, then overwritten. -/
def accountedMoves : List Move := [.call (.putBatch [.put [1] [10]])]

theorem putBatch_accounted_overwrite :
    ∃ acc rootChild s₀ ckpt,
      computeBatch quickCrypto [.put [1] [11]]
          (run (Store.move quickCrypto) (created quickCrypto [] {} fun _ => Nonce.zero) accountedMoves).2 =
        .ok (some (acc, rootChild, (run (Store.move quickCrypto) (created quickCrypto [] {} fun _ => Nonce.zero)
          (accountedMoves ++ [.call (.putBatch [.put [1] [11]])])).2.root)) s₀ ∧
      Accounted quickCrypto
        (run (Store.move quickCrypto) (created quickCrypto [] {} fun _ => Nonce.zero) accountedMoves).2
        (run (Store.move quickCrypto) (created quickCrypto [] {} fun _ => Nonce.zero)
          (accountedMoves ++ [.call (.putBatch [.put [1] [11]])])).2
        (commitBatch acc (run (Store.move quickCrypto) (created quickCrypto [] {} fun _ => Nonce.zero)
          (accountedMoves ++ [.call (.putBatch [.put [1] [11]])])).2.root ckpt) := by
  have hcol : NoCollisionMoves quickCrypto [] false (accountedMoves ++ [.call (.putBatch [.put [1] [11]])]) :=
    ⟨vhInj_of_nodup (by decide +kernel), by decide +kernel⟩
  have hmax : ∀ m ∈ trace (Model.move quickCrypto []) (Model.init false)
      (accountedMoves ++ [.call (.putBatch [.put [1] [11]])]), m.version < 0xFFFFFFFFFFFFFFFF := by decide +kernel
  have hfirst : Reached quickCrypto [] {} (fun _ => Nonce.zero) accountedMoves _ _ :=
    ⟨hcol.left, fun m hm => hmax m (mem_trace_append hm), rfl, rfl⟩
  obtain ⟨acc, rc, s₀, ckpt, hrun, -, hacc⟩ := putBatch_accounted quickCrypto_gcmOk hfirst ⟨hcol, hmax, rfl, rfl⟩
    (by decide +kernel)
  exact ⟨acc, rc, s₀, ckpt, hrun, hacc⟩

end

end ImmutableLedger
