import ImmutableLedger.Ledger.Fork
import ImmutableLedger.Proof.Noop

/-!
# Forks preview exactly

A fork of a store that nobody moves, driven by any writes, then sealed and applied.

* `Fork.get_applyOps`: the write-set applied to the map reads as the fork does.
* `Refines.previewBatch`: a preview returns what the batch would, and changes nothing.
* `fork_previews`: sealing and applying a fork.
-/

namespace ImmutableLedger

open EStateM Machine

variable {C : Crypto} {ck : Bytes} {W : Set (Hash × Bytes)} {s s' : Store MemBackend} {m m' : Model}
  {g : UInt64 → Snap}

/-- A write on a fork. -/
inductive ForkWrite where
  | put (key value : Bytes)
  | delete (key : Bytes)

namespace ForkWrite

def key : ForkWrite → Bytes
  | put key _ => key
  | delete key => key

/-- The fork after a write. -/
def apply (f : Fork) : ForkWrite → Fork
  | put key value => f.put key value
  | delete key => f.delete key

end ForkWrite

/-- A fork after writes. -/
def Fork.writes (f : Fork) (ws : List ForkWrite) : Fork := ws.foldl ForkWrite.apply f

namespace Fork

variable {f : Fork} {ws : List ForkWrite}

theorem writes_before : (f.writes ws).rootBefore = f.rootBefore ∧ (f.writes ws).versionBefore = f.versionBefore := by
  induction ws generalizing f with
  | nil => exact ⟨rfl, rfl⟩
  | cons w ws ih =>
    obtain ⟨h₁, h₂⟩ := @ih (w.apply f)
    cases w <;> exact ⟨h₁, h₂⟩

/-- The keys of a write-set are keys that were written. -/
theorem key_of_overlay {k : Bytes} {v : Option Bytes} (h : (f.writes ws).overlay.get k = some v) :
    f.overlay.get k = some v ∨ ∃ w ∈ ws, w.key = k := by
  induction ws generalizing f with
  | nil => exact .inl h
  | cons w ws ih =>
    rcases @ih (w.apply f) h with h | ⟨x, hx, hk⟩
    · cases w with
      | put key value =>
        simp only [ForkWrite.apply, Fork.put, OrdMap.get_insert] at h
        by_cases hk : k = key
        · exact .inr ⟨_, List.mem_cons_self, hk.symm⟩
        · rw [if_neg hk] at h
          exact .inl h
      | delete key =>
        simp only [ForkWrite.apply, Fork.delete, OrdMap.get_insert] at h
        by_cases hk : k = key
        · exact .inr ⟨_, List.mem_cons_self, hk.symm⟩
        · rw [if_neg hk] at h
          exact .inl h
    · exact .inr ⟨x, List.mem_cons_of_mem _ hx, hk⟩

/-- The writes of distinct keys, applied to a map in their order. -/
theorem get_applyOps_entries {K : Set Bytes} (hK : Set.InjOn (pathOf C ck) K) {k : Bytes} (hk : k ∈ K) :
    ∀ {E : List (Bytes × Option Bytes)} {vals : OrdMap Hash Bytes}, E.Pairwise (fun a b => a.1 < b.1) →
      (∀ e ∈ E, e.1 ∈ K) → (applyOps C ck vals (E.map overlayOp)).get (pathOf C ck k) =
        (OrdMap.lookup E k).getD (vals.get (pathOf C ck k)) := by
  intro E
  induction E with
  | nil => intro vals _ _; rfl
  | cons e E ih =>
    intro vals hs hE
    obtain ⟨key, pending⟩ := e
    obtain ⟨hlt, hs⟩ := List.pairwise_cons.1 hs
    have hkey : key ∈ K := hE (key, pending) List.mem_cons_self
    have hrest := @ih (applyOp C ck vals (overlayOp (key, pending))) hs fun e he => hE e (List.mem_cons_of_mem _ he)
    show (applyOps C ck (applyOp C ck vals (overlayOp (key, pending))) (E.map overlayOp)).get (pathOf C ck k) = _
    rw [hrest]
    by_cases hkk : k = key
    · -- no later write has the key
      have hnone : OrdMap.lookup E k = none := OrdMap.lookup_eq_none.2 fun e he h => (hlt e he).ne (hkk.symm.trans h.symm)
      have hlook : OrdMap.lookup ((key, pending) :: E) k = some pending := if_pos hkk
      rw [hnone, hlook, hkk]
      cases pending <;> simp [overlayOp, applyOp, Op.put, Op.del]
    · have hpath : pathOf C ck k ≠ pathOf C ck key := fun he => hkk (hK hk hkey he)
      have hlook : OrdMap.lookup ((key, pending) :: E) k = OrdMap.lookup E k := if_neg hkk
      rw [hlook]
      cases pending <;> simp [overlayOp, applyOp, Op.put, Op.del, hpath]

/-- The write-set has keys among `K` only, and none with the reserved prefix. -/
def WritesIn (f : Fork) (K : Set Bytes) : Prop :=
  ∀ k v, f.overlay.get k = some v → k ∈ K ∧ ¬ reservedKeyPrefix.isPrefixOf k

theorem writesIn_writes {K : Set Bytes} (hf : f.overlay = OrdMap.empty) (hkeys : ∀ w ∈ ws, w.key ∈ K)
    (hres : ∀ w ∈ ws, ¬ reservedKeyPrefix.isPrefixOf w.key) : (f.writes ws).WritesIn K := by
  intro k v hk
  rcases key_of_overlay hk with hk | ⟨w, hw, rfl⟩
  · rw [hf] at hk
    cases hk
  · exact ⟨hkeys w hw, hres w hw⟩

section
variable {K : Set Bytes} (hw : f.WritesIn K)
include hw

/-- A write-set without reserved keys is not refused. -/
theorem WritesIn.reservedOp : Model.reservedOp f.ops = none := by
  unfold Model.reservedOp
  rw [List.find?_eq_none]
  intro op hop
  obtain ⟨e, he, rfl⟩ := List.mem_map.1 hop
  have hkey : (overlayOp e).key = e.1 := by
    obtain ⟨k, v⟩ := e
    cases v <;> rfl
  rw [hkey]
  exact (hw e.1 e.2 (OrdMap.mem_entries.1 he)).2

/-- The reserved key is not written. -/
theorem WritesIn.history_unwritten : f.overlay.get historyKey = none := by
  cases hov : f.overlay.get historyKey with
  | none => rfl
  | some v => exact absurd (by decide) (hw historyKey v hov).2

variable (hK : Set.InjOn (pathOf C ck) K)
include hK

/-- **The write-set applied to a map reads as the fork does.** -/
theorem WritesIn.get_applyOps {k : Bytes} (hk : k ∈ K) (vals : OrdMap Hash Bytes) :
    (applyOps C ck vals f.ops).get (pathOf C ck k) = (f.overlay.get k).getD (vals.get (pathOf C ck k)) :=
  get_applyOps_entries hK hk f.overlay.sorted fun e he => (hw e.1 e.2 (OrdMap.mem_entries.1 he)).1

variable (hhist : historyKey ∈ K)
include hhist

/-- A key after the batch of the write-set, the reserved key of a chained store apart. -/
theorem WritesIn.cur_putBatch {k : Bytes} (hk : k ∈ K) (hkh : m.history = true → k ≠ historyKey) :
    (m.putBatch C ck f.ops).2.cur.get (pathOf C ck k) = (f.overlay.get k).getD (m.cur.get (pathOf C ck k)) := by
  rw [← hw.get_applyOps hK hk m.cur]
  simp only [Model.putBatch, hw.reservedOp]
  by_cases hsame : applyOps C ck m.cur f.ops = m.cur
  · rw [if_pos hsame, hsame]
  · rw [if_neg hsame]
    unfold Model.commitLinked
    by_cases hm : m.history = true
    · have hpath : pathOf C ck k ≠ historyPath C ck := fun he => hkh hm (hK hk hhist he)
      rw [if_pos hm]
      simp [Model.commit, hpath]
    · rw [if_neg hm]
      rfl

/-- **The batch of the write-set leaves the map as it is** exactly when the writes do: the chain head it writes on top
cannot undo them. -/
theorem WritesIn.cur_eq_iff : (m.putBatch C ck f.ops).2.cur = m.cur ↔ applyOps C ck m.cur f.ops = m.cur := by
  have hleaf := hw.get_applyOps hK hhist m.cur
  rw [hw.history_unwritten, Option.getD_none] at hleaf
  exact Model.cur_putBatch_eq_iff hw.reservedOp hleaf

end

end Fork

/-! ## Previews -/

/-- **A preview returns what the batch would**, and changes nothing but the cache and the nonces drawn. -/
theorem Refines.previewBatch (h : Refines C W s m g) (hC : C.GcmOk) (hW : VhInj C s.ck W) {ops : List Op}
    (hok : StepOk C s.ck W m (.putBatch ops)) (hres : Model.reservedOp ops = none) :
    ∃ s₀, Store.previewBatch C ops s =
        .ok ((m.putBatch C s.ck ops).2.root C s.ck, (m.putBatch C s.ck ops).2.version) s₀ ∧ Near s s₀ := by
  obtain ⟨r, s₀, hrun, hs₀, hr⟩ := h.returns_computeBatch hC hW hok.max hres hok.pairs hok.head s (Near.refl h.cache)
  have h₀ := h.near hs₀
  have hck : s₀.ck = s.ck := by
    obtain ⟨c, e, -, rfl⟩ := hs₀
    rfl
  refine ⟨s₀, ?_, hs₀⟩
  unfold Store.previewBatch
  rw [run_bind_ok hrun]
  simp only [Model.putBatch, hres]
  rcases hr with ⟨rfl, hsame⟩ | ⟨hne, acc, rc, root, x, rfl, hcomp⟩
  · rw [if_pos hsame]
    show EStateM.Result.ok (s₀.root, s₀.version) s₀ = _
    rw [h₀.root, h₀.version, hck]
  · rw [if_neg hne]
    show EStateM.Result.ok (root, s₀.version + 1) s₀ = _
    rw [hcomp.root, h₀.version]
    have hv : (m.commitLinked C s.ck (applyOps C s.ck m.cur ops)).version = m.version + 1 := by
      rw [hcomp.commit]
      rfl
    rw [hv]
    rfl

/-! ## Sealing and applying -/

section
variable {o : StoreOptions} {entropy : ℕ → Nonce} {ms : List Move} {f : Fork} {ws : List ForkWrite}

/-- A fork of a store that nobody moved is sealed as its preview says. -/
theorem sealFork_run {r : Hash × UInt64} {s₀ : Store MemBackend}
    (hbefore : f.rootBefore = s.root ∧ f.versionBefore = s.version)
    (hrun : Store.previewBatch C f.ops s = .ok r s₀) :
    f.sealFork C s = .ok ⟨f.rootBefore, f.versionBefore, r.1, r.2, f.ops⟩ s₀ := by
  have hunmoved : ¬ (s.root ≠ f.rootBefore ∨ s.version ≠ f.versionBefore) := by
    rw [hbefore.1, hbefore.2]
    simp
  unfold Fork.sealFork
  show (if s.root ≠ f.rootBefore ∨ s.version ≠ f.versionBefore then _ else _ : LedgerM MemBackend SealedFork) s = _
  rw [if_neg hunmoved]
  exact run_bind_ok hrun

/-- What a fork reads. -/
theorem Refines.fork_get (h : Refines C W s m g) (hW : VhInj C s.ck W) (f : Fork) (k : Bytes) :
    ∃ s₁, f.get C k s = .ok ((f.overlay.get k).getD (m.cur.get (pathOf C s.ck k))) s₁ := by
  unfold Fork.get
  cases f.overlay.get k with
  | some pending => exact ⟨s, rfl⟩
  | none =>
    obtain ⟨s₁, -, hs₁⟩ := h.yields_get hW k s (around_self h.cache)
    exact ⟨s₁, hs₁⟩

/-- **Forks preview exactly.** On a reachable store, a fork after any writes of keys without the reserved prefix can be
sealed. Sealing leaves the store as it is, and the sealed operations, applied to it, return the root and version that
were previewed; then a key reads as it did in the fork, except the reserved key of a chained store. The fork is a no-op
exactly when its writes leave the map as it is, unless node hashes of the two trees collide. -/
theorem fork_previews (hC : C.GcmOk) (h : Reached C ck o entropy ms s m) (hf : f = s.newFork.writes ws)
    (hres : ∀ w ∈ ws, ¬ reservedKeyPrefix.isPrefixOf w.key) {K : Set Bytes} (hK : Set.InjOn (pathOf C ck) K)
    (hhist : historyKey ∈ K) (hkeys : ∀ w ∈ ws, w.key ∈ K)
    (h' : Reached C ck o entropy (ms ++ [.call (.putBatch f.ops)]) s' m') :
    ∃ sf s₀, f.sealFork C s = .ok sf s₀ ∧ (∃ cache entropy, s₀ = { s with cache := cache, entropy := entropy }) ∧
      (s₀.step C (.putBatch sf.ops)).1 = .ok (.committed sf.rootAfter sf.versionAfter) ∧
      (∀ k ∈ K, (o.history = true → k ≠ historyKey) → ∃ v s₁, f.get C k s = .ok v s₁ ∧
        ((s₀.step C (.putBatch sf.ops)).2.step C (.get k)).1 = .ok (.value v)) ∧
      (¬ Collision C (treeInputs C (commitments C ck m.cur) ++ treeInputs C (commitments C ck m'.cur)) →
        (sf.isNoop = true ↔ applyOps C ck m.cur f.ops = m.cur)) := by
  obtain ⟨-, hm', hW, ⟨⟨rfl, -, g, hR⟩, ha⟩, hok⟩ := h.next hC h'
  have hw : f.WritesIn K := hf ▸ Fork.writesIn_writes rfl hkeys hres
  have hbefore : f.rootBefore = s.root ∧ f.versionBefore = s.version := by
    rw [hf]
    exact Fork.writes_before
  -- the preview, and the batch on the handle it leaves
  obtain ⟨s₀, hrun, hs₀⟩ := hR.previewBatch hC hW hok hw.reservedOp
  have hck₀ : s₀.ck = s.ck := hs₀.frame (C := C).ck
  obtain ⟨hreply, hF, g', hR', -⟩ := (hR.near hs₀).putBatch hC (by rw [hck₀]; exact hW) (by rw [hck₀]; exact hok)
  have hck' : (s₀.step C (.putBatch f.ops)).2.ck = s.ck := hF.ck.trans hck₀
  have hstep : m.step C s.ck (.putBatch f.ops) = m.putBatch C s.ck f.ops := rfl
  rw [hck₀, hstep] at hreply hR'
  rw [hstep] at hm'
  have hcommitted : (m.putBatch C s.ck f.ops).1 =
      .ok (.committed ((m.putBatch C s.ck f.ops).2.root C s.ck) (m.putBatch C s.ck f.ops).2.version) := by
    simp only [Model.putBatch, hw.reservedOp]
  refine ⟨_, s₀, sealFork_run hbefore hrun, ?_, hreply.trans hcommitted, fun k hk hkh => ?_, fun hcol => ?_⟩
  · obtain ⟨c, e, -, rfl⟩ := hs₀
    exact ⟨c, e, rfl⟩
  · obtain ⟨s₁, hs₁⟩ := hR.fork_get hW f k
    have hget := (hR'.answers_read (by rw [hck']; exact hW) (c := .get k) trivial).1
    rw [hck'] at hget
    have hmode : m.history = o.history := hR.history.symm.trans ha.history
    have hcur := hw.cur_putBatch hK hhist hk fun hon => hkh (hmode.symm.trans hon)
    exact ⟨_, s₁, hs₁, hget.trans (congrArg (fun v => Except.ok (Reply.value v)) hcur)⟩
  · rw [← hw.cur_eq_iff hK hhist, ← hm']
    unfold SealedFork.isNoop
    rw [decide_eq_true_eq]
    show m'.root C s.ck = f.rootBefore ↔ m'.cur = m.cur
    rw [hbefore.1, hR.root]
    rw [← hm'] at hR'
    exact root_eq_iff hW hR.cur_mem hR'.cur_mem hcol

/-- A fork of a new chained store, with one write. -/
def chainedFork : Fork :=
  (created plainCrypto [] { history := true } fun _ => Nonce.zero).newFork.writes [.put [1] [10]]

/-- The fork reads no head, and the store has one after the sealed write-set was applied. -/
theorem fork_misses_history_head :
    (chainedFork.get plainCrypto historyKey (created plainCrypto [] { history := true } fun _ => Nonce.zero)).val =
      .ok none ∧
    ((((chainedFork.sealFork plainCrypto (created plainCrypto [] { history := true } fun _ => Nonce.zero)).state).step
      plainCrypto (.putBatch chainedFork.ops)).2.step plainCrypto (.get historyKey)).1 ≠ .ok (.value none) := by
  decide +kernel

/-- A fork of a store with keys: a key is written anew, one is deleted, and one is new. -/
def sampleWrites : List ForkWrite := [.put [5] [51], .delete [9], .put [7] [70]]

/-- What the fork reads of these keys, and of one that is missing, is read after its write-set was applied. -/
theorem fork_previews_sampled : ∃ sf s₀,
    (sampleStore.newFork.writes sampleWrites).sealFork quickCrypto sampleStore = .ok sf s₀ ∧
    (s₀.step quickCrypto (.putBatch sf.ops)).1 = .ok (.committed sf.rootAfter sf.versionAfter) ∧
    ∀ k ∈ [[5], [9], [7], [2]], ∃ v s₁,
      (sampleStore.newFork.writes sampleWrites).get quickCrypto k sampleStore = .ok v s₁ ∧
        ((s₀.step quickCrypto (.putBatch sf.ops)).2.step quickCrypto (.get k)).1 = .ok (.value v) := by
  have hnext : Reached quickCrypto [] { history := true } (fun _ => Nonce.zero)
      (sampleMoves ++ [.call (.putBatch (sampleStore.newFork.writes sampleWrites).ops)]) _ _ :=
    ⟨⟨vhInj_of_nodup (by decide +kernel), by decide +kernel⟩, by decide +kernel, rfl, rfl⟩
  have hK : Set.InjOn (pathOf quickCrypto []) {k | k ∈ [[5], [9], [7], [2], historyKey]} := fun a ha b hb =>
    List.inj_on_of_nodup_map (by decide +kernel) ha hb
  obtain ⟨sf, s₀, hseal, -, hput, hget, -⟩ := fork_previews quickCrypto_gcmOk sampleStore_reached rfl (by decide) hK (by simp)
    (by simp [sampleWrites, ForkWrite.key]) hnext
  refine ⟨sf, s₀, hseal, hput, fun k hk => hget k ?_ fun _ => ?_⟩
  · exact List.mem_append_left [historyKey] hk
  · revert k
    decide

end

end ImmutableLedger
