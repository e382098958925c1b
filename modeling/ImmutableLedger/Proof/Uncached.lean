import ImmutableLedger.Refine.LinkedWrite
import ImmutableLedger.Refine.Twin
import ImmutableLedger.Refine.Sweep
import ImmutableLedger.Refine.Resume

/-!
# The cache does not show

A store answers every run of calls as it does with its cache disabled. The two handles stay twins: the backend, the
root and the nonces are the same, every node cached by the one is the decoded record under its key, and the other
caches nothing.

* `twinned_call`: a call leaves twins.
* `cache_transparent`: a whole run.
-/

namespace ImmutableLedger

open EStateM Machine

variable {C : Crypto} {b : Store MemBackend}

/-! ## Requests -/

/-- The calls of a run: those of the model, and those that only the store knows. -/
inductive Request where
  | call (c : Call)
  | snapshotLeaves (version : UInt64) (startAfter : Option Hash) (max : ℕ)
  | changesAt (version : UInt64)
  | pruneStats (beforeVersion : UInt64)
  | setCacheCapacity (capacity : ℕ)

/-- What the calls return. -/
inductive Response where
  | reply (r : Reply)
  | leaves (page : List Leaf) (done : Bool)
  | changes (l : List Change)
  | pruned (stats : PruneStats)
deriving DecidableEq

def Request.exec (C : Crypto) : Request → LedgerM MemBackend Response
  | call c => do let r ← c.exec C; pure (.reply r)
  | snapshotLeaves version startAfter max => do
    let r ← Store.snapshotLeaves C version startAfter max; pure (.leaves r.1 r.2)
  | changesAt version => do let l ← Store.changesAt C version; pure (.changes l)
  | pruneStats beforeVersion => do let stats ← Store.prune beforeVersion; pure (.pruned stats)
  | setCacheCapacity capacity => do let _ ← Store.setCacheCapacity capacity; pure (.reply .done)

/-- The request with the cache left off. -/
def Request.uncached : Request → Request
  | setCacheCapacity _ => setCacheCapacity 0
  | q => q

/-- The store as a machine serving requests. -/
def Store.serve (C : Crypto) (s : Store MemBackend) (q : Request) : Except Err Response × Store MemBackend :=
  ((q.exec C s).val, (q.exec C s).state)

/-- The store with its cache switched off, and kept off. -/
def Store.uncached (s : Store MemBackend) : Store MemBackend := { s with cache := s.cache.setCapacity 0 }

def Store.serveUncached (C : Crypto) (s : Store MemBackend) (q : Request) : Except Err Response × Store MemBackend :=
  s.serve C q.uncached

/-! ## Twins, one of them without a cache -/

/-- A cache that is off holds nothing. -/
def Disabled (c : NodeCache) : Prop := c.capacity = 0 ∧ ∀ nk, c.node nk = none

theorem disabled_stable : CacheStable Disabled where
  get c nk h := ⟨by rw [NodeCache.capacity_get]; exact h.1, fun nk' => by rw [NodeCache.node_get]; exact h.2 nk'⟩
  put c nk n h := by
    unfold NodeCache.put
    rw [if_pos h.1]
    exact h

/-- The checkpoint, if there is one that opens, is of the version of the handle; a handle opened on the same backend
reads it with the same keys. -/
structure Marked (C : Crypto) (s : Store MemBackend) : Prop where
  mac : s.ckptMAC = (newStore C s.backend s.ck { sk := s.cipher, history := s.wantHistory } s.entropy).ckptMAC
  ckpt : ∀ record root v flags, OrdMap.get s.backend checkpointRecordKey = some record →
    openCheckpoint C s record = .ok (root, v, flags) → v = s.version

/-- The nodes of the backend are of reached versions, the root is of the current one, and so is the checkpoint. -/
structure Based (C : Crypto) (b : Store MemBackend) : Prop where
  nodes : NodesBelow b
  root : ∀ c ∈ b.rootChild, c.version = b.version
  marked : C.GcmOk → Marked C b

/-- The two handles are twins of a base, the second one without a cache. -/
def Twins (C : Crypto) (s t : Store MemBackend) : Prop := ∃ b, Based C b ∧ Twin Disabled b s t

/-- A call on twins of `b` has one outcome and leaves twins. -/
def Twinned {α : Type} (C : Crypto) (b : Store MemBackend) (x : LedgerM MemBackend α) : Prop :=
  ∀ s t, Twin Disabled b s t → Agree (Twins C) x x s t

theorem Based.linked (h : Based C b) : Linked C (twins Disabled b) := twins_linked disabled_stable h.nodes

/-- A handle with a checkpoint that was sealed for its version. -/
theorem Marked.of_sealed {b' : Store MemBackend} (hb : Marked C b) (hck : b'.ck = b.ck) (hcipher : b'.cipher = b.cipher)
    (hmac : b'.ckptMAC = b.ckptMAC) {ckpt : Bytes} (hget : OrdMap.get b'.backend checkpointRecordKey = some ckpt)
    (hopen : ∃ root flags, openCheckpoint C b ckpt = .ok (root, b'.version, flags)) : Marked C b' where
  mac := by
    rw [hmac, hb.mac]
    simp only [newStore, hcipher, hck]
  ckpt record root' v flags' hrec hopen' := by
    obtain ⟨root, flags, hopen⟩ := hopen
    rw [hget] at hrec
    cases hrec
    rw [openCheckpoint_congr hcipher hmac, hopen] at hopen'
    cases hopen'
    rfl

/-- A checkpoint that twins seal opens to the version it was sealed for. -/
theorem Based.seals (h : Based C b) (root : Hash) (v : UInt64) :
    Mirrors (twins Disabled b) (sealCheckpoint C root v) (sealCheckpoint C root v)
      fun ckpt => C.GcmOk → ∃ root flags, openCheckpoint C b ckpt = .ok (root, v, flags) := by
  intro s t hst
  obtain ⟨r, t', hy, hgrown, -, hcase⟩ := mirrors_sealCheckpoint h.linked root v s t hst
  refine ⟨r, t', hy, hgrown, fun ckpt hr hC => ?_, hcase⟩
  obtain ⟨c, c', e, -, -, rfl, rfl⟩ := hst
  obtain ⟨ckpt', e', hrun, hopen⟩ := sealCheckpoint_run hC root v { b with cache := c', entropy := e }
  rw [hr, hrun] at hy
  cases hy
  exact ⟨root, _, hopen⟩

section
variable {α γ : Type} {x y : LedgerM MemBackend α} {f : α → LedgerM MemBackend γ} {Q : α → Prop}

/-- A call that goes on after a part that keeps twins in step. -/
theorem Twinned.bind (hb : Based C b) (hx : Mirrors (twins Disabled b) x x Q) (hf : ∀ a, Q a → Twinned C b (f a)) :
    Twinned C b (x >>= f) := by
  intro s t hst
  obtain ⟨r, s₁, t₁, hs, ht, hst₁, -, hQ⟩ := hx.runs hst fun _ _ hcut => hcut
  cases r with
  | error e => exact Agree.of_outcome (r := .error e) (run_bind_error hs) (run_bind_error ht) ⟨b, hb, hst₁⟩
  | ok a =>
    unfold Agree
    rw [run_bind_ok hs, run_bind_ok ht]
    exact hf a (hQ a rfl) s₁ t₁ hst₁

/-- A call that goes on after a part that leaves twins. -/
theorem Twinned.seq (hx : Twinned C b x) (hf : ∀ a b', Based C b' → Twinned C b' (f a)) : Twinned C b (x >>= f) := by
  refine fun s t hst => (hx s t hst).bind (fun _ _ h => h) fun a s' t' hst' => ?_
  obtain ⟨b', hb', hst'⟩ := hst'
  exact hf a b' hb' s' t' hst'

theorem Twinned.map (hx : Twinned C b x) (f : α → γ) : Twinned C b (x >>= fun a => Pure.pure (f a)) :=
  fun s t hst => (hx s t hst).map f

theorem Twinned.of_mirrors (hb : Based C b) (h : Mirrors (twins Disabled b) x x Q) : Twinned C b x := by
  intro s t hst
  obtain ⟨r, s', t', hs, ht, hst', -⟩ := h.runs hst fun _ _ hcut => hcut
  exact Agree.of_outcome hs ht ⟨b, hb, hst'⟩

theorem Twinned.pure (h : Based C b) (a : α) : Twinned C b (Pure.pure a : LedgerM MemBackend α) :=
  fun _ _ hst => ⟨rfl, b, h, hst⟩

/-- A call that reads the handle but not its cache or nonces. -/
theorem Twinned.of_get {f : Store MemBackend → LedgerM MemBackend α}
    (hf : ∀ c e, f { b with cache := c, entropy := e } = f b) (h : Twinned C b (f b)) : Twinned C b (get >>= f) := by
  rintro s t ⟨c, c', e, hc, hc', rfl, rfl⟩
  have hag := h _ _ ⟨c, c', e, hc, hc', rfl, rfl⟩
  unfold Agree at hag ⊢
  rw [run_get_bind, run_get_bind, hf c e, hf c' e]
  exact hag

theorem Twinned.ite {p : Prop} [Decidable p] (hx : p → Twinned C b x) (hy : ¬ p → Twinned C b y) :
    Twinned C b (if p then x else y) := by
  by_cases hp : p
  · rw [if_pos hp]
    exact hx hp
  · rw [if_neg hp]
    exact hy hp

end

/-! ## Commits -/

section
variable {acc : CommitAcc} {root : Hash} {ckpt : Bytes} (hp : PendOk acc)
include hp

omit hp in
/-- A node record after a commit: the one it wrote, or the one that was there. -/
theorem get_node_commitBatch (B : MemBackend) (nk : NodeKey) :
    (B.writeBatch (commitBatch acc root ckpt)).get (nodeRecordKey nk) =
      ((acc.pending.get nk).map Node.encode).or (B.get (nodeRecordKey nk)) :=
  get_commitBatch B (.node nk)

/-- The warmed cache is coherent with the written commit: no record it had is overwritten. -/
theorem CacheOk.committed {b' : Store MemBackend} {c : NodeCache} (hc : CacheOk b c) (hlt : b.version < acc.newVersion)
    (hb : b'.backend = MemBackend.writeBatch b.backend (commitBatch acc root ckpt)) (hv : b'.version = acc.newVersion) :
    CacheOk b' (acc.pending.entries.foldl (fun c e => c.put e.1 e.2) c) := by
  intro nk n hn
  rcases node_foldl_put _ _ hn with hm | hold
  · have hget := OrdMap.mem_entries.1 hm
    obtain ⟨hver, hok⟩ := hp nk n hget
    refine ⟨by rw [hv, hver], n.encode, ?_, decodeNode_encode hok⟩
    rw [hb, get_node_commitBatch _ nk, hget]
    rfl
  · obtain ⟨hle, rec, hrec, hdec⟩ := hc nk n hold
    have hnone : acc.pending.get nk = none := by
      cases hget : acc.pending.get nk with
      | none => rfl
      | some m => exact absurd ((hp nk m hget).1 ▸ hle) (not_le.2 hlt)
    refine ⟨by rw [hv]; exact le_trans hle hlt.le, rec, ?_, hdec⟩
    rw [hb, get_node_commitBatch _ nk, hnone]
    exact hrec

theorem Based.committed {b' : Store MemBackend} (h : Based C b) (hlt : b.version < acc.newVersion)
    (hb : b'.backend = MemBackend.writeBatch b.backend (commitBatch acc root ckpt)) (hv : b'.version = acc.newVersion)
    (hroot : ∀ c ∈ b'.rootChild, c.version = acc.newVersion) (hmarked : C.GcmOk → Marked C b') : Based C b' where
  nodes nk hget := by
    rw [hb, get_node_commitBatch _ nk] at hget
    rw [hv]
    cases hn : acc.pending.get nk with
    | some n => exact (hp nk n hn).1.le
    | none =>
      rw [hn] at hget
      exact le_trans (h.nodes nk hget) hlt.le
  root c hc := by rw [hv]; exact hroot c hc
  marked := hmarked

end

theorem Disabled.foldl_put {c : NodeCache} (h : Disabled c) : ∀ l : List (NodeKey × Node),
    Disabled (l.foldl (fun c e => c.put e.1 e.2) c) := by
  intro l
  induction l generalizing c with
  | nil => exact h
  | cons e l ih => exact ih (disabled_stable.put c e.1 e.2 h)

theorem twinned_commitAcc (h : Based C b) {acc : CommitAcc} (hp : PendOk acc) (hlt : b.version < acc.newVersion)
    {c : Option Child} (hc : ∀ c' ∈ c, c'.version = acc.newVersion) (root : Hash) :
    Twinned C b (commitAcc C acc c root) := by
  refine Twinned.bind h (h.seals root acc.newVersion) fun ckpt hckpt => ?_
  rintro s t ⟨c₁, c₂, e, h₁, ⟨h₂, hoff⟩, rfl, rfl⟩
  -- the base after the write, from which the two handles differ in their caches
  let b' : Store MemBackend := { b with
    backend := MemBackend.writeBatch b.backend (commitBatch acc root ckpt)
    root := root
    version := acc.newVersion
    rootChild := c
    historyHead := acc.newHead.getD b.historyHead }
  have hb' : Based C b' := h.committed hp hlt rfl rfl hc fun hC =>
    (h.marked hC).of_sealed rfl rfl rfl (get_commitBatch b.backend .checkpoint) (hckpt hC)
  refine ⟨rfl, b', hb', _, _, e, ?_, ⟨?_, hoff.foldl_put _⟩, rfl, rfl⟩
  · exact h₁.committed hp hlt rfl rfl
  · exact h₂.committed hp hlt rfl rfl

/-- **A commit leaves twins.** -/
theorem twinned_putBatch (h : Based C b) (hmax : b.version < 0xFFFFFFFFFFFFFFFF) (ops : List Op) :
    Twinned C b (Store.putBatch C ops) := by
  refine Twinned.bind h (mirrors_computeBatch h.linked ops) fun r hr => ?_
  cases r with
  | none => exact Twinned.of_get (fun _ _ => rfl) (Twinned.pure h _)
  | some q =>
    obtain ⟨hv, hp, hc⟩ := hr b.version (by rintro s t ⟨c, c', e, -, -, rfl, rfl⟩; rfl) q rfl
    have hlt : b.version < q.1.newVersion := by
      rw [hv]
      exact lt_add_one_of_lt_max hmax
    exact twinned_commitAcc h hp hlt (fun c' hc' => (hc c' hc').trans hv.symm) q.2.2

/-! ## Stamps -/

section
variable {v : UInt64} {root : Hash} {ckpt : Bytes} {top : Option Node} {b' : Store MemBackend}

/-- A stamp writes one node record: under the root key of its version, and there it is the node that key had. -/
theorem CacheOk.stamped {c : NodeCache} (hc : CacheOk b c) (hle : b.version ≤ v)
    (htop : ∀ n, top = some n → ∃ rec, OrdMap.get b.backend (nodeRecordKey (rootNodeKey b.version)) = some rec ∧
      decodeNode rec = .ok n)
    (hb : b'.backend = stampBackend b.backend v root ckpt top) (hv : b'.version = v) : CacheOk b' c := by
  intro nk m hm
  obtain ⟨hver, rec, hrec, hdec⟩ := hc nk m hm
  have hver' : nk.version ≤ b'.version := by
    rw [hv]
    exact le_trans hver hle
  by_cases hk : top.isSome ∧ nk = rootNodeKey v
  · obtain ⟨hsome, rfl⟩ := hk
    obtain ⟨n, rfl⟩ := Option.isSome_iff_exists.1 hsome
    -- the key is of a reached version, so of the current one
    have hvb : v = b.version := le_antisymm hver hle
    obtain ⟨rec', hrec', hdec'⟩ := htop n rfl
    rw [hvb, hrec'] at hrec
    cases hrec
    rw [hdec'] at hdec
    cases hdec
    refine ⟨hver', _, ?_, decodeNode_encode (ok_of_decodeNode hdec')⟩
    rw [hb]
    exact get_stamped_node rfl
  · refine ⟨hver', rec, ?_, hdec⟩
    rw [hb]
    refine (get_stamped_of_ne (x := .node nk) ?_ ?_ ?_).trans hrec
    · intro he; cases he
    · intro he; cases he
    · intro hs he
      exact hk ⟨hs, RecKey.node.inj he⟩

theorem Based.stamped (h : Based C b) (hle : b.version ≤ v) (hb : b'.backend = stampBackend b.backend v root ckpt top)
    (hv : b'.version = v) (hroot : ∀ c ∈ b'.rootChild, c.version = v) (hmarked : C.GcmOk → Marked C b') :
    Based C b' where
  nodes nk hget := by
    obtain ⟨rec, hrec⟩ := Option.isSome_iff_exists.1 hget
    rw [hb] at hrec
    rw [hv]
    rcases exists_of_get_stamped hrec with hk | hk | hk | hold
    · cases RecKey.bytes_inj (a := .node nk) (b := .root v) hk
    · cases RecKey.bytes_inj (a := .node nk) (b := .checkpoint) hk
    · have hkey := RecKey.bytes_inj (a := .node nk) (b := .node (rootNodeKey v)) hk
      rw [RecKey.node.inj hkey]
      exact le_rfl
    · exact le_trans (h.nodes nk (by rw [hold]; rfl)) hle
  root c hc := by rw [hv]; exact hroot c hc
  marked := hmarked

end

/-- **A stamp leaves twins.** -/
theorem twinned_stampVersion (h : Based C b) (v : UInt64) : Twinned C b (Store.stampVersion C v) := by
  refine Twinned.of_get (fun _ _ => rfl) ?_
  refine Twinned.ite (fun _ => Twinned.of_mirrors h (Mirrors.throw_bind (Q := fun _ => True))) fun hlt => ?_
  have hle : b.version ≤ v := not_lt.1 hlt
  refine Twinned.bind h (h.seals b.root v) fun ckpt hckpt => ?_
  cases hchild : b.rootChild with
  | none =>
    rintro s t ⟨c₁, c₂, e, h₁, ⟨h₂, hoff⟩, rfl, rfl⟩
    let b' : Store MemBackend := { b with backend := stampBackend b.backend v b.root ckpt none, version := v }
    have hb' : Based C b' := h.stamped hle rfl rfl (fun c hc => by
      rw [show b'.rootChild = none from hchild] at hc
      cases hc) fun hC => (h.marked hC).of_sealed rfl rfl rfl get_stamped_checkpoint (hckpt hC)
    have htop : ∀ n : Node, none = some n → ∃ rec, OrdMap.get b.backend (nodeRecordKey (rootNodeKey b.version)) =
        some rec ∧ decodeNode rec = .ok n := fun n hn => by cases hn
    refine ⟨rfl, b', hb', c₁, c₂, e, ?_, ⟨?_, hoff⟩, rfl, rfl⟩
    · exact h₁.stamped hle htop rfl rfl
    · exact h₂.stamped hle htop rfl rfl
  | some c =>
    refine Twinned.bind h (twins_loadNode disabled_stable h.nodes _ c.hash) fun n hn => ?_
    rw [h.root c hchild] at hn
    rintro s t ⟨c₁, c₂, e, h₁, ⟨h₂, hoff⟩, rfl, rfl⟩
    let b' : Store MemBackend := { b with
      backend := stampBackend b.backend v b.root ckpt (some n)
      rootChild := some ⟨v, c.hash, c.isLeaf⟩
      version := v }
    have hb' : Based C b' := h.stamped hle rfl rfl (fun c' hc' => by
      cases hc'
      rfl) fun hC => (h.marked hC).of_sealed rfl rfl rfl get_stamped_checkpoint (hckpt hC)
    have htop : ∀ n', some n = some n' → ∃ rec, OrdMap.get b.backend (nodeRecordKey (rootNodeKey b.version)) =
        some rec ∧ decodeNode rec = .ok n' := fun n' hn' => Option.some.inj hn' ▸ hn
    refine ⟨rfl, b', hb', c₁, c₂, e, ?_, ⟨?_, hoff⟩, rfl, rfl⟩
    · exact h₁.stamped hle htop rfl rfl
    · exact h₂.stamped hle htop rfl rfl

/-! ## Prunes -/

/-- A program that only deletes records, and sees neither the cache nor the nonces. -/
def Sweeps {α : Type} (x : LedgerM MemBackend α) : Prop :=
  ∀ b : Store MemBackend, ∃ r B, (∀ k v, OrdMap.get B k = some v → OrdMap.get b.backend k = some v) ∧
    ∀ c e, x { b with cache := c, entropy := e } = outcome r { b with backend := B, cache := c, entropy := e }

theorem Sweeps.pure (a : α) : Sweeps (Pure.pure a : LedgerM MemBackend α) :=
  fun b => ⟨.ok a, b.backend, fun _ _ h => h, fun _ _ => rfl⟩

theorem Sweeps.throw (e : Err) : Sweeps (MonadExcept.throw e : LedgerM MemBackend α) :=
  fun b => ⟨.error e, b.backend, fun _ _ h => h, fun _ _ => rfl⟩

theorem Sweeps.bind {α γ : Type} {x : LedgerM MemBackend α} {f : α → LedgerM MemBackend γ} (hx : Sweeps x)
    (hf : ∀ a, Sweeps (f a)) : Sweeps (x >>= f) := by
  intro b
  obtain ⟨r, B, hsub, hrun⟩ := hx b
  cases r with
  | error e => exact ⟨.error e, B, hsub, fun c e' => run_bind_error (hrun c e')⟩
  | ok a =>
    obtain ⟨r, B', hsub', hrun'⟩ := hf a { b with backend := B }
    exact ⟨r, B', fun k v hk => hsub k v (hsub' k v hk), fun c e => (run_bind_ok (hrun c e)).trans (hrun' c e)⟩

theorem Sweeps.ite {p : Prop} [Decidable p] {x y : LedgerM MemBackend α} (hx : Sweeps x) (hy : Sweeps y) :
    Sweeps (if p then x else y) := by
  by_cases hp : p
  · rw [if_pos hp]
    exact hx
  · rw [if_neg hp]
    exact hy

theorem sweeps_scan (start stop : Bytes) (limit : ℕ) : Sweeps (backendScan start stop limit) :=
  fun b => ⟨.ok (MemBackend.scan b.backend start stop limit), b.backend, fun _ _ h => h, fun _ _ => rfl⟩

theorem sweeps_deletes (del : Bytes → List Bytes) (entries : List (Bytes × Bytes)) :
    Sweeps (backendWriteBatch errBackend (deletes del entries)) :=
  fun b => ⟨.ok (), MemBackend.writeBatch b.backend (deletes del entries), fun _ _ h => get_of_get_deletes h,
    fun _ _ => rfl⟩

theorem sweeps_pruneStale (stop : Bytes) : ∀ (rounds : ℕ) (stats : PruneStats),
    Sweeps (pruneStale stop rounds stats) := by
  intro rounds
  induction rounds with
  | zero => intro stats; exact Sweeps.throw _
  | succ rounds ih =>
    intro stats
    refine (sweeps_scan _ _ _).bind fun entries => ?_
    refine Sweeps.ite (Sweeps.pure stats) (Sweeps.ite ((Sweeps.throw _).bind fun a => ?_) ?_)
    · exact (sweeps_deletes staleKeys entries).bind fun _ => Sweeps.ite (ih _) (Sweeps.pure _)
    · exact (sweeps_deletes staleKeys entries).bind fun _ => Sweeps.ite (ih _) (Sweeps.pure _)

theorem sweeps_pruneRoots (stop : Bytes) : ∀ (rounds : ℕ) (stats : PruneStats),
    Sweeps (pruneRoots stop rounds stats) := by
  intro rounds
  induction rounds with
  | zero => intro stats; exact Sweeps.throw _
  | succ rounds ih =>
    intro stats
    refine (sweeps_scan _ _ _).bind fun entries => Sweeps.ite (Sweeps.pure stats) ?_
    rw [deletes_self]
    exact (sweeps_deletes _ entries).bind fun _ => Sweeps.ite (ih _) (Sweeps.pure _)

theorem Based.swept (h : Based C b) {B : MemBackend}
    (hsub : ∀ k v, OrdMap.get B k = some v → OrdMap.get b.backend k = some v) : Based C { b with backend := B } where
  nodes nk hget := by
    obtain ⟨rec, hrec⟩ := Option.isSome_iff_exists.1 hget
    exact h.nodes nk (by rw [hsub _ _ hrec]; rfl)
  root := h.root
  marked hC := ⟨(h.marked hC).mac, fun record root v flags hget => (h.marked hC).ckpt record root v flags (hsub _ _ hget)⟩

/-- **A prune leaves twins**: it forgets the cached nodes before it deletes records. -/
theorem twinned_prune (h : Based C b) (beforeVersion : UInt64) : Twinned C b (Store.prune beforeVersion) := by
  refine Twinned.of_get (fun _ _ => rfl) ?_
  refine Twinned.ite (fun _ => Twinned.of_mirrors h (Mirrors.throw_bind (Q := fun _ => True))) fun _ => ?_
  rintro s t ⟨c₁, c₂, e, -, ⟨-, hoff⟩, rfl, rfl⟩
  have hsweep := (sweeps_pruneStale (staleEnd (Store.horizon b.snapshotPin beforeVersion))
      (Backend.len b.backend + 1) {}).bind fun stats =>
    sweeps_pruneRoots (recRoot :: Bytes.u64 (Store.horizon b.snapshotPin beforeVersion)) (Backend.len b.backend + 1) stats
  obtain ⟨r, B, hsub, hrun⟩ := hsweep b
  exact Agree.of_outcome (hrun c₁.clear e) (hrun c₂.clear e) ⟨{ b with backend := B }, h.swept hsub, c₁.clear, c₂.clear, e,
    cacheOk_clear _ c₁, ⟨cacheOk_clear _ c₂, hoff.1, fun _ => rfl⟩, rfl, rfl⟩

/-! ## Calls -/

/-- A change of the handle that leaves its backend, version, root reference and keys alone. -/
theorem twinned_modify (h : Based C b) {f : Store MemBackend → Store MemBackend}
    (hf : ∀ c e, f { b with cache := c, entropy := e } = { f b with cache := c, entropy := e })
    (hback : (f b).backend = b.backend) (hver : (f b).version = b.version) (hroot : (f b).rootChild = b.rootChild)
    (hmarked : Marked C b → Marked C (f b)) : Twinned C b (modify f : LedgerM MemBackend PUnit) := by
  rintro s t ⟨c, c', e, hc, ⟨hc', hoff⟩, rfl, rfl⟩
  have hb' : Based C (f b) := by
    refine ⟨fun nk hget => ?_, fun x hx => ?_, fun hC => hmarked (h.marked hC)⟩
    · rw [hback] at hget
      rw [hver]
      exact h.nodes nk hget
    · rw [hroot] at hx
      rw [hver]
      exact h.root x hx
  have hok : ∀ c, CacheOk b c → CacheOk (f b) c := by
    intro c hc nk n hn
    rw [hback, hver]
    exact hc nk n hn
  exact ⟨rfl, f b, hb', c, c', e, hok c hc, ⟨hok c' hc', hoff⟩, hf c e, hf c' e⟩

theorem twinned_refreshHead (h : Based C b) (history : Bool) (r : Hash × UInt64) :
    Twinned C b (refreshHead C history r) := by
  unfold refreshHead
  refine Twinned.ite (fun _ => ?_) fun _ => Twinned.pure h r
  refine Twinned.bind h (mirrors_storeGet h.linked historyKey) fun val _ => ?_
  cases val with
  | none => exact Twinned.pure h r
  | some val =>
    refine Twinned.ite (fun _ => ?_) fun _ => Twinned.pure h r
    exact (twinned_modify h (fun _ _ => rfl) rfl rfl rfl fun hm => ⟨hm.mac, hm.ckpt⟩).map fun _ => r

/-- **A restore leaves twins.** -/
theorem twinned_restoreLeaves (h : Based C b) (hmax : b.version < 0xFFFFFFFFFFFFFFFF) (leaves : List Leaf) :
    Twinned C b (Store.restoreLeaves C leaves) := by
  refine Twinned.of_get (fun _ _ => rfl) (Twinned.ite (fun _ => Twinned.pure h _) fun _ => ?_)
  refine Twinned.bind h (mirrors_sealUpdates h.linked _ _ rfl (pendOk_empty _)) fun q hq => ?_
  obtain ⟨acc, us⟩ := q
  obtain ⟨hv, hp⟩ := hq
  refine Twinned.bind h (mirrors_applySubtree h.linked nibbles acc b.rootChild [] us hp) fun q hq => ?_
  obtain ⟨acc', c⟩ := q
  refine Twinned.ite (fun _ => Twinned.pure h _) fun hne => ?_
  have hv' : acc'.newVersion = b.version + 1 := hq.version.trans hv
  have hlt : b.version < acc'.newVersion := by
    rw [hv']
    exact lt_add_one_of_lt_max hmax
  have hchild : ∀ c' ∈ c, c'.version = acc'.newVersion := by
    intro c' hc'
    rw [hq.child.resolve_left hne c' hc', hq.version]
  exact (twinned_commitAcc h hq.pend hlt hchild _).seq fun r b' hb' => twinned_refreshHead hb' _ r

theorem twinned_retainRecent (h : Based C b) (window : UInt64) : Twinned C b (Store.retainRecent window) :=
  Twinned.of_get (fun _ _ => rfl) (Twinned.ite (fun _ => twinned_prune h 0) fun _ => twinned_prune h _)

/-- **A call leaves twins.** -/
theorem twinned_call (h : Based C b) (hmax : b.version < 0xFFFFFFFFFFFFFFFF) (c : Call) :
    Twinned C b (c.exec C : LedgerM MemBackend Reply) := by
  cases c with
  | putBatch ops => exact (twinned_putBatch h hmax ops).map _
  | restoreLeaves leaves => exact (twinned_restoreLeaves h hmax leaves).map _
  | stampVersion v => exact (twinned_stampVersion h v).map _
  | pinVersion v =>
    have hpin := twinned_modify h (f := fun s => { s with snapshotPin := v }) (fun _ _ => rfl) rfl rfl rfl fun hm =>
      ⟨hm.mac, hm.ckpt⟩
    exact hpin.map fun _ => Reply.done
  | prune v => exact (twinned_prune h v).map _
  | retainRecent window => exact (twinned_retainRecent h window).map _
  | get key => exact (Twinned.of_mirrors h (mirrors_storeGet h.linked key)).map _
  | getAt v key => exact (Twinned.of_mirrors h (mirrors_getAt h.linked v key)).map _
  | prove key => exact (Twinned.of_mirrors h (mirrors_prove h.linked key)).map _
  | proveAt v key => exact (Twinned.of_mirrors h (mirrors_proveAt h.linked v key)).map _

/-! ## Runs -/

/-- **A request is served alike** on twins, the one without a cache staying without. -/
theorem twins_serve {s t : Store MemBackend} (hst : Twins C s t) (hmax : s.version < 0xFFFFFFFFFFFFFFFF) (q : Request) :
    (s.serve C q).1 = (t.serveUncached C q).1 ∧ Twins C (s.serve C q).2 (t.serveUncached C q).2 := by
  obtain ⟨b, hb, htwin⟩ := hst
  have hver : b.version < 0xFFFFFFFFFFFFFFFF := by
    obtain ⟨c, c', e, -, -, rfl, rfl⟩ := htwin
    exact hmax
  -- one call on both sides
  have hsame : ∀ {x : LedgerM MemBackend Response}, Twinned C b x → q.exec C = x → q.uncached.exec C = x →
      (s.serve C q).1 = (t.serveUncached C q).1 ∧ Twins C (s.serve C q).2 (t.serveUncached C q).2 := by
    intro x hx hq hq'
    unfold Store.serveUncached Store.serve
    rw [hq, hq']
    exact hx s t htwin
  cases q with
  | call c => exact hsame ((twinned_call hb hver c).map _) rfl rfl
  | snapshotLeaves v after max => exact hsame ((Twinned.of_mirrors hb (mirrors_snapshotLeaves hb.linked v after max)).map _) rfl rfl
  | changesAt v => exact hsame ((Twinned.of_mirrors hb (mirrors_changesAt hb.linked v)).map _) rfl rfl
  | pruneStats v => exact hsame ((twinned_prune hb v).map _) rfl rfl
  | setCacheCapacity n =>
    -- both caches are emptied, with different capacities
    obtain ⟨c, c', e, -, -, rfl, rfl⟩ := htwin
    refine ⟨rfl, b, hb, c.setCapacity n, c'.setCapacity 0, e, ?_, ⟨?_, rfl, fun _ => rfl⟩, rfl, rfl⟩
    · exact fun nk m hm => by cases hm
    · exact fun nk m hm => by cases hm

/-- A new store has no nodes, and a checkpoint of version zero. -/
theorem created_based (ck : Bytes) (o : StoreOptions) (entropy : ℕ → Nonce) : Based C (created C ck o entropy) ∧
    (created C ck o entropy).cache = newNodeCache defaultCacheCapacity := by
  have hmarked : C.GcmOk → Marked C (created C ck o entropy) := by
    intro hC
    obtain ⟨-, -, hreopen, record, hrec, hopen⟩ := created_anchored hC ck o entropy
    refine ⟨hreopen.mac, fun record' root v flags hrec' hopen' => ?_⟩
    rw [hrec] at hrec'
    cases hrec'
    rw [hopen] at hopen'
    cases hopen'
    rfl
  have hrun : ∃ ckpt e, created C ck o entropy = { newStore C (OrdMap.empty : MemBackend) ck o entropy with
      backend := stampBackend OrdMap.empty 0 (placeholderHash C) ckpt none
      history := o.history
      entropy := e } := by
    obtain ⟨sk, history⟩ := o
    cases sk with
    | none => exact ⟨_, _, rfl⟩
    | some sk => exact ⟨_, _, rfl⟩
  obtain ⟨ckpt, e, hrun⟩ := hrun
  have hempty : Based C (newStore C (OrdMap.empty : MemBackend) ck o entropy) :=
    ⟨fun nk hget => (by cases hget), fun c hc => (by cases hc), fun _ => ⟨rfl, fun _ _ _ _ hrec => (by cases hrec)⟩⟩
  rw [hrun] at hmarked ⊢
  exact ⟨hempty.stamped le_rfl rfl rfl (fun c hc => (by cases hc)) hmarked, rfl⟩

theorem created_twins (ck : Bytes) (o : StoreOptions) (entropy : ℕ → Nonce) :
    Twins C (created C ck o entropy) (created C ck o entropy).uncached := by
  obtain ⟨hb, hcache⟩ := created_based (C := C) ck o entropy
  refine ⟨_, hb, (created C ck o entropy).cache, (created C ck o entropy).cache.setCapacity 0,
    (created C ck o entropy).entropy, fun nk m hm => ?_, ⟨fun nk m hm => ?_, rfl, fun _ => rfl⟩, rfl, rfl⟩
  · rw [hcache] at hm
    cases hm
  · cases hm

/-- The records the cache answers from are in the backend, and without a cache nothing is answered from it. -/
def CacheCurrent (s t : Store MemBackend) : Prop :=
  (∀ nk n, s.cache.node nk = some n →
    ∃ rec, OrdMap.get s.backend (nodeRecordKey nk) = some rec ∧ decodeNode rec = .ok n) ∧
  ∀ nk, t.cache.node nk = none

theorem Twins.cacheCurrent {s t : Store MemBackend} (h : Twins C s t) : CacheCurrent s t := by
  obtain ⟨b, -, c, c', e, hc, ⟨-, hoff⟩, rfl, rfl⟩ := h
  exact ⟨fun nk n hn => (hc nk n hn).2, hoff.2⟩

/-- **The cache does not show.** In every run from a new store, whatever the capacities, the calls return what they
return with the cache off; and at every point a cached node is one whose record the backend still has. -/
theorem cache_transparent (C : Crypto) (ck : Bytes) (o : StoreOptions) (entropy : ℕ → Nonce) (qs : List Request)
    (hmax : ∀ s ∈ trace (Store.serve C) (created C ck o entropy) qs, s.version < 0xFFFFFFFFFFFFFFFF) :
    (run (Store.serve C) (created C ck o entropy) qs).1 =
      (run (Store.serveUncached C) (created C ck o entropy).uncached qs).1 ∧
    ∀ qs₁ qs₂, qs = qs₁ ++ qs₂ → CacheCurrent (run (Store.serve C) (created C ck o entropy) qs₁).2
      (run (Store.serveUncached C) (created C ck o entropy).uncached qs₁).2 := by
  have hbound : Along (Store.serve C) (fun s _ => s.version < 0xFFFFFFFFFFFFFFFF) (created C ck o entropy) qs :=
    (along_of_trace hmax).mono fun s q _ h => h.1
  have hsim : ∀ {qs' : List Request},
      Along (Store.serve C) (fun s _ => s.version < 0xFFFFFFFFFFFFFFFF) (created C ck o entropy) qs' →
      (run (Store.serve C) (created C ck o entropy) qs').1 =
          (run (Store.serveUncached C) (created C ck o entropy).uncached qs').1 ∧
        Twins C (run (Store.serve C) (created C ck o entropy) qs').2
          (run (Store.serveUncached C) (created C ck o entropy).uncached qs').2 :=
    fun h => simulation (R := Twins C) (Q := fun _ _ => True) (fun s t q hst hs _ => twins_serve hst hs q)
      (created_twins ck o entropy) h (along_true _ _)
  refine ⟨(hsim hbound).1, ?_⟩
  rintro qs₁ qs₂ rfl
  exact (hsim (along_append.1 hbound).1).2.cacheCurrent

/-- A run with commits, reads, a stamp and changes of capacity. -/
def cachedRun : List Request :=
  [.call (.putBatch [Op.put [1] [10]]), .call (.get [1]), .setCacheCapacity 1, .call (.putBatch [Op.put [1] [11]]),
    .call (.getAt 1 [1]), .call (.prove [1]), .changesAt 2, .call (.stampVersion 5), .snapshotLeaves 5 none 4,
    .setCacheCapacity 0, .call (.proveAt 1 [1])]

theorem cache_transparent_run :
    (run (Store.serve quickCrypto) (created quickCrypto [] {} fun _ => Nonce.zero) cachedRun).1 =
      (run (Store.serveUncached quickCrypto) (created quickCrypto [] {} fun _ => Nonce.zero).uncached cachedRun).1 :=
  (cache_transparent quickCrypto [] {} (fun _ => Nonce.zero) cachedRun (by decide +kernel)).1

end ImmutableLedger
