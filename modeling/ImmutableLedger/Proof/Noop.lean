import ImmutableLedger.Refine.Flaky
import ImmutableLedger.Refine.Resume
import ImmutableLedger.Security.Binding

/-!
# No-op batches are recognised exactly

A batch on a reachable store either leaves the map as it is, and then nothing is written, or it is committed as one
batch under the next version and a new root. The batches written are counted on the log of the backend.

* `root_eq_iff`: the roots of two maps of sealed values are equal exactly when the maps are.
* `Refines.putBatch_flaky`: a batch, and the log of what it wrote.
* `noop_exact`: a batch is a no-op exactly when the map stays as it is.
-/

namespace ImmutableLedger

open EStateM Machine

variable {C : Crypto} {ck : Bytes} {W : Set (Hash × Bytes)} {s s' : Store MemBackend} {m m' : Model}
  {g : UInt64 → Snap}

/-! ## Roots of maps -/

/-- Maps of sealed values with the same commitments are equal. -/
theorem commitments_inj {a b : OrdMap Hash Bytes} (hW : VhInj C ck W) (ha : ∀ p v, a.get p = some v → (p, v) ∈ W)
    (hb : ∀ p v, b.get p = some v → (p, v) ∈ W) (h : commitments C ck a = commitments C ck b) : a = b := by
  refine OrdMap.ext_get fun p => ?_
  have hp : (a.get p).map (vhOf C ck p) = (b.get p).map (vhOf C ck p) := by
    have hget := congrArg (fun M => M.get p) h
    unfold commitments at hget
    simpa only [OrdMap.get_mapVal] using hget
  cases hap : a.get p with
  | none =>
    rw [hap] at hp
    exact (Option.map_eq_none_iff.1 hp.symm).symm
  | some v =>
    rw [hap, Option.map_some] at hp
    obtain ⟨w, hbp, hvh⟩ := Option.map_eq_some_iff.1 hp.symm
    have hvw : (p, w) = (p, v) := hW (hb p w hbp) (ha p v hap) hvh
    cases hvw
    exact hbp.symm

/-- The values of the current map are among those sealed. -/
theorem Refines.cur_mem (h : Refines C W s m g) (p : Hash) (v : Bytes) (hv : m.cur.get p = some v) : (p, v) ∈ W :=
  h.snap_cur.content.mem p v hv

/-- **The roots of two maps of sealed values are equal exactly when the maps are**, unless node hashes of their trees
collide. -/
theorem root_eq_iff (hW : VhInj C ck W) (hm : ∀ p v, m.cur.get p = some v → (p, v) ∈ W)
    (hm' : ∀ p v, m'.cur.get p = some v → (p, v) ∈ W)
    (hcol : ¬ Collision C (treeInputs C (commitments C ck m.cur) ++ treeInputs C (commitments C ck m'.cur))) :
    m'.root C ck = m.root C ck ↔ m'.cur = m.cur := by
  constructor
  · intro heq
    rcases root_binding (commitments C ck m.cur) (commitments C ck m'.cur) heq.symm with hsame | hcoll
    · exact (commitments_inj hW hm hm' hsame).symm
    · exact absurd hcoll hcol
  · intro hsame
    unfold Model.root
    rw [hsame]

/-! ## What a batch does to the map -/

/-- Operations on other paths leave a path as it is. -/
theorem get_applyOps_of_ne {p : Hash} : ∀ {ops : List Op} (vals : OrdMap Hash Bytes),
    (∀ op ∈ ops, pathOf C ck op.key ≠ p) → (applyOps C ck vals ops).get p = vals.get p := by
  intro ops
  induction ops with
  | nil => intro vals _; rfl
  | cons op ops ih =>
    intro vals hops
    have hne : p ≠ pathOf C ck op.key := (hops op List.mem_cons_self).symm
    have htail := ih (applyOp C ck vals op) fun o ho => hops o (List.mem_cons_of_mem _ ho)
    refine htail.trans ?_
    unfold applyOp
    split
    · rw [OrdMap.get_erase, if_neg hne]
    · rw [OrdMap.get_insert, if_neg hne]

/-- **A batch leaves the map as it is** exactly when its operations do, which do not touch the head leaf: the chain
head that is written on top cannot undo them. -/
theorem Model.cur_putBatch_eq_iff {ops : List Op} (hres : Model.reservedOp ops = none)
    (hleaf : (applyOps C ck m.cur ops).get (historyPath C ck) = m.cur.get (historyPath C ck)) :
    (m.putBatch C ck ops).2.cur = m.cur ↔ applyOps C ck m.cur ops = m.cur := by
  simp only [Model.putBatch, hres]
  refine ⟨fun heq => ?_, fun hsame => by rw [if_pos hsame]⟩
  by_contra hne
  rw [if_neg hne] at heq
  refine hne (OrdMap.ext_get fun p => ?_)
  unfold Model.commitLinked at heq
  by_cases hp : p = historyPath C ck
  · rw [hp]
    exact hleaf
  · by_cases hm : m.history = true
    · rw [if_pos hm] at heq
      have hget := congrArg (fun M => M.get p) heq
      simpa [Model.commit, hp] using hget
    · rw [if_neg hm] at heq
      exact congrArg (fun M => M.get p) heq

/-! ## What a batch writes -/

/-- **A batch and the log of its writes**, every call of the backend going through: nothing is written when the map
stays as it is, else one batch. -/
theorem Refines.putBatch_flaky (h : Refines C W s m g) (hC : C.GcmOk) (hW : VhInj C s.ck W) {ops : List Op}
    (hok : StepOk C s.ck W m (.putBatch ops)) (hres : Model.reservedOp ops = none) (log : List (List BatchOp)) :
    ∃ r t', Store.putBatch C ops (s.over [] log) = .ok r t' ∧
      ((applyOps C s.ck m.cur ops = m.cur ∧ r = (s.root, s.version) ∧ t'.backend.log = log) ∨
        (applyOps C s.ck m.cur ops ≠ m.cur ∧ (∃ batch, t'.backend.log = log ++ [batch]) ∧
          r = ((m.putBatch C s.ck ops).2.root C s.ck, m.version + 1) ∧ t'.root = r.1 ∧ t'.version = r.2)) := by
  obtain ⟨q, s₀, hrun, hs₀, hq⟩ := h.returns_computeBatch hC hW hok.max hres hok.pairs hok.head s (Near.refl h.cache)
  -- the computation over the failing backend is that over the records
  obtain ⟨t₁, ht₁, -, hkept, -⟩ := (mirrors_computeBatch flaky_linked ops).returns (s := s.over [] log) rfl
    (fun _ _ hcut => hcut.2.2 rfl) hrun
  have hfates : t₁.backend.fates = [] := by
    obtain ⟨c, e, f, w, -, hf | hf, rfl⟩ := hkept
    · exact hf
    · exact absurd rfl hf.2
  have hlog : t₁.backend.log = log := by
    obtain ⟨c, e, f, w, -, -, rfl⟩ := hkept
    rfl
  have hstate : (t₁.root, t₁.version) = (s.root, s.version) := by
    obtain ⟨c, e, f, w, -, -, rfl⟩ := hkept
    rfl
  unfold Store.putBatch
  rw [run_bind_ok ht₁]
  rcases hq with ⟨rfl, hsame⟩ | ⟨hne, acc, rc, root, x, rfl, hcomp⟩
  · exact ⟨_, t₁, rfl, .inl ⟨hsame, hstate, hlog⟩⟩
  · rcases commitAcc_flaky (C := C) acc rc root t₁ with
      ⟨msg, e, t', hfate, -⟩ | ⟨ckpt, t', -, hput, -, -, hback, hroot, hver, -⟩
    · rw [Flaky.fate_nil hfates] at hfate
      cases hfate
    · have hbatch : t'.backend.log = log ++ [commitBatch acc root ckpt] := by
        rw [hback, ← hlog]
        rfl
      have hnext : (m.putBatch C s.ck ops).2 = m.commitLinked C s.ck (applyOps C s.ck m.cur ops) := by
        simp only [Model.putBatch, hres, if_neg hne]
      have hv : acc.newVersion = m.version + 1 := by
        rw [hcomp.built.version, h.version]
      refine ⟨_, t', hput, .inr ⟨hne, ⟨_, hbatch⟩, ?_, hroot, hver⟩⟩
      rw [hnext, hcomp.root, hv]
      rfl

section
variable {o : StoreOptions} {entropy : ℕ → Nonce} {ms : List Move}

/-- **No-op batches are recognised exactly.** On a reachable store, a batch of operations on keys without the reserved
prefix returns the current root and version and writes nothing exactly when it leaves the map as it is; else it writes
one batch, under the next version and a new root. -/
theorem noop_exact (hC : C.GcmOk) (h : Reached C ck o entropy ms s m) (ops : List Op)
    (hres : ∀ op ∈ ops, ¬ reservedKeyPrefix.isPrefixOf op.key) {K : Set Bytes} (hK : Set.InjOn (pathOf C ck) K)
    (hhist : historyKey ∈ K) (hkeys : ∀ op ∈ ops, op.key ∈ K)
    (hno : NoCollisionMoves C ck o.history (ms ++ [.call (.putBatch ops)]))
    (hcol : ¬ Collision C (treeInputs C (commitments C ck m.cur) ++
      treeInputs C (commitments C ck (m.putBatch C ck ops).2.cur))) (log : List (List BatchOp)) :
    ∃ r t', Store.putBatch C ops (s.over [] log) = .ok r t' ∧
      ((r = (s.root, s.version) ∧ t'.backend.log = log) ↔ applyOps C ck m.cur ops = m.cur) ∧
      (applyOps C ck m.cur ops ≠ m.cur →
        (∃ batch, t'.backend.log = log ++ [batch]) ∧ r = (t'.root, t'.version) ∧ t'.version = s.version + 1 ∧
          t'.root ≠ s.root) := by
  obtain ⟨⟨⟨rfl, -, g, hR⟩, -⟩, hok⟩ := h.call hC hno
  have hW := hno.values
  have hnone : Model.reservedOp ops = none := List.find?_eq_none.2 hres
  obtain ⟨r, t', hput, hcases⟩ := hR.putBatch_flaky hC hW hok hnone log
  refine ⟨r, t', hput, ?_⟩
  rcases hcases with ⟨hsame, hr, hlog⟩ | ⟨hne, ⟨batch, hlog⟩, hr, hroot, hver⟩
  · exact ⟨⟨fun _ => hsame, fun _ => ⟨hr, hlog⟩⟩, fun hne => absurd hsame hne⟩
  · have hwrote : t'.backend.log ≠ log := by
      rw [hlog]
      simp
    -- the operations stay off the head leaf, so the commit moves the map and with it the root
    have hleaf : ∀ op ∈ ops, pathOf C s.ck op.key ≠ historyPath C s.ck := by
      intro op hop heq
      have hkey : op.key = historyKey := hK (hkeys op hop) hhist heq
      exact hres op hop (by rw [hkey]; decide)
    have hmoved : (m.putBatch C s.ck ops).2.cur ≠ m.cur :=
      mt (Model.cur_putBatch_eq_iff hnone (get_applyOps_of_ne m.cur hleaf)).1 hne
    obtain ⟨-, -, g', hR', -⟩ := hR.putBatch hC hW hok
    have hnew := mt (root_eq_iff hW hR.cur_mem hR'.cur_mem hcol).1 hmoved
    refine ⟨⟨fun hnoop => absurd hnoop.2 hwrote, fun hsame => absurd hsame hne⟩, fun _ => ⟨⟨batch, hlog⟩, ?_, ?_, ?_⟩⟩
    · rw [hroot, hver]
    · rw [hver, hr, hR.version]
    · rw [hroot, hr, hR.root]
      exact hnew

/-- On a store with keys: a key that is written anew, and a batch that writes a value again and deletes a missing key. -/
theorem noop_exact_sampled : ∃ r t r' t',
    Store.putBatch quickCrypto [.put [5] [51]] (sampleStore.over [] []) = .ok r t ∧
    (∃ batch, t.backend.log = [batch]) ∧ t.version = 3 ∧
    Store.putBatch quickCrypto [.put [5] [50], .del [7]] (sampleStore.over [] []) = .ok r' t' ∧
    r' = (sampleStore.root, sampleStore.version) ∧ t'.backend.log = [] := by
  have hK : Set.InjOn (pathOf quickCrypto []) {k | k ∈ [[5], [7], historyKey]} := fun a ha b hb =>
    List.inj_on_of_nodup_map (by decide +kernel) ha hb
  obtain ⟨r, t, hput, -, hwrites⟩ := noop_exact quickCrypto_gcmOk sampleStore_reached [.put [5] [51]] (by decide) hK
    (by simp) (by simp [Op.put]) ⟨vhInj_of_nodup (by decide +kernel), by decide +kernel⟩ (by decide +kernel) []
  obtain ⟨r', t', hsame, hnoop, -⟩ := noop_exact quickCrypto_gcmOk sampleStore_reached [.put [5] [50], .del [7]] (by decide)
    hK (by simp) (by simp [Op.put, Op.del]) ⟨vhInj_of_nodup (by decide +kernel), by decide +kernel⟩ (by decide +kernel) []
  obtain ⟨hbatch, -, hversion, -⟩ := hwrites (by decide +kernel)
  obtain ⟨hr, hlog⟩ := hnoop.2 (by decide +kernel)
  exact ⟨r, t, r', t', hput, hbatch, hversion.trans (by decide +kernel), hsame, hr, hlog⟩

end

end ImmutableLedger
