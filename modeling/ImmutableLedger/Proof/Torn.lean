import ImmutableLedger.Proof.Based

/-!
# Restores over a backend that fails

`RestoreLeaves` and `StampVersion` when calls of the backend fail. A failed call that was not torn leaves the handle
with its root, version, root reference and chain head, and later calls are answered as if it had not been made. Two
failures tear a call:

* a restore into a chained store commits, and then reads the head leaf; when a call of that read fails, the restore
  reports an error for leaves that are committed;
* a stamp moves the root reference to the new version before it writes the root node there, so that a failed write
  leaves a reference to a node the backend does not have.

`restore_atomic_iff`: these two are the only ones.
-/

namespace ImmutableLedger

open EStateM Machine

variable {C : Crypto} {ck : Bytes} {o : StoreOptions} {entropy : ℕ → Nonce} {s : Store MemBackend}

/-! ## The calls -/

/-- The calls of a restore. -/
inductive RestoreCall where
  | restoreLeaves (leaves : List Leaf)
  | stampVersion (version : UInt64)

namespace RestoreCall

def call : RestoreCall → Call
  | restoreLeaves leaves => .restoreLeaves leaves
  | stampVersion version => .stampVersion version

/-- The calls of the backend when every one goes through: a write, or a read. -/
def tape (C : Crypto) (s : Store MemBackend) (c : RestoreCall) : List Bool :=
  (c.call.exec C (s.over [] [])).state.backend.tape

/-- Under these fates the call, when it fails, is torn: a restore whose write goes through; a stamp above the version of
a store that is not empty, when it is the write that fails. -/
def Torn (C : Crypto) (s : Store MemBackend) (fates : List (Option String)) : RestoreCall → Prop
  | restoreLeaves leaves => true ∈ Flaky.through fates (tape C s (restoreLeaves leaves))
  | stampVersion version => s.version < version ∧ s.rootChild ≠ none ∧
    Flaky.failing fates (tape C s (stampVersion version)) = some true

instance (fates : List (Option String)) (c : RestoreCall) : Decidable (c.Torn C s fates) := by
  cases c <;> unfold Torn <;> infer_instance

end RestoreCall

/-- The handle has the root, version, root reference and chain head it had. -/
def Unmoved (s : Store MemBackend) (t : Store Flaky) : Prop :=
  t.root = s.root ∧ t.version = s.version ∧ t.rootChild = s.rootChild ∧ t.historyHead = s.historyHead

/-- Once the backend works again, the handle answers every run of requests as the handle `s` does with the nonces that
are left, as long as the versions last. -/
def ServesAs (C : Crypto) (s : Store MemBackend) (t : Store Flaky) : Prop :=
  ∀ qs : List Request,
    (∀ u ∈ trace (Store.serve C) { s with entropy := t.entropy } qs, u.version < 0xFFFFFFFFFFFFFFFF) →
    (run (Store.serve C) t.plain qs).1 = (run (Store.serve C) { s with entropy := t.entropy } qs).1

/-! ## Handles that differ in their caches -/

/-- Two handles with one twin that has no cache. -/
def Alike (C : Crypto) (x y : Store MemBackend) : Prop := ∃ u, Twins C x u ∧ Twins C y u

theorem Twins.version {x u : Store MemBackend} (h : Twins C x u) : x.version = u.version := by
  obtain ⟨b, -, c, c', e, -, -, rfl, rfl⟩ := h
  rfl

theorem alike_serve {x y : Store MemBackend} (h : Alike C x y) (hmax : y.version < 0xFFFFFFFFFFFFFFFF) (q : Request) :
    (x.serve C q).1 = (y.serve C q).1 ∧ Alike C (x.serve C q).2 (y.serve C q).2 := by
  obtain ⟨u, hx, hy⟩ := h
  have hxmax : x.version < 0xFFFFFFFFFFFFFFFF := by
    rw [hx.version, ← hy.version]
    exact hmax
  obtain ⟨hrx, hx'⟩ := twins_serve hx hxmax q
  obtain ⟨hry, hy'⟩ := twins_serve hy hmax q
  exact ⟨hrx.trans hry.symm, _, hx', hy'⟩

theorem CacheOk.of_faithful (h : NodesBelow s) {c : NodeCache} (hc : Faithful s.backend c) : CacheOk s c := by
  intro nk n hn
  obtain ⟨rec, hrec, hdec⟩ := hc nk n hn
  exact ⟨h nk (by rw [hrec]; rfl), rec, hrec, hdec⟩

/-- **A handle that was only kept is as good as before.** -/
theorem Grounded.of_kept (h : Grounded C s) {fates : List (Option String)} {t : Store Flaky}
    (hk : Kept (s.over fates []) t) : Unmoved s t ∧ ServesAs C s t := by
  obtain ⟨c, e, f, w, hc, -, rfl⟩ := hk
  refine ⟨⟨rfl, rfl, rfl, rfl⟩, fun qs hmax => ?_⟩
  have hfaithful : Faithful s.backend c := hc fun nk n hn => (h.cache nk n hn).2
  have hoff : CacheOk s (s.cache.setCapacity 0) ∧ Disabled (s.cache.setCapacity 0) :=
    ⟨fun nk n hn => (by cases hn), rfl, fun _ => rfl⟩
  have halike : Alike C { s with cache := c, entropy := e } { s with entropy := e } :=
    ⟨{ s with cache := s.cache.setCapacity 0, entropy := e },
      ⟨s, h.based, c, _, e, CacheOk.of_faithful h.based.nodes hfaithful, hoff, rfl, rfl⟩,
      ⟨s, h.based, s.cache, _, e, h.cache, hoff, rfl, rfl⟩⟩
  exact (simulation (R := Alike C) (fun x y q hxy _ hy => alike_serve hxy hy.1 q) halike (along_true _ _)
    (along_of_trace hmax)).1

/-! ## Restores -/

theorem Kept.rootChild {t t' : Store Flaky} (h : Kept t t') : t'.rootChild = t.rootChild := by
  obtain ⟨c, e, f, w, -, -, rfl⟩ := h
  rfl

/-- The refresh of the head reads, and fails with the root reference it found. -/
theorem refreshHead_flaky (history : Bool) (r : Hash × UInt64) {t : Store Flaky} (ht : t.backend.sparing = false) :
    t.backend.tape <+: (refreshHead C history r t.healthy).state.backend.tape ∧
      ∀ e t', refreshHead C history r t = .error e t' → t'.rootChild = t.rootChild := by
  unfold refreshHead
  cases history with
  | false => exact ⟨List.prefix_rfl, fun e t' h => by cases h⟩
  | true =>
    rw [if_pos rfl]
    obtain ⟨q, u, hfine, hgrown, -, hcase⟩ := mirrors_storeGet (C := C) (taped_linked t.version) historyKey t _ ⟨⟨ht, rfl⟩, rfl⟩
    refine ⟨?_, fun e t' h => ?_⟩
    · cases q with
      | error e =>
        rw [run_bind_error hfine]
        exact hgrown
      | ok val =>
        rw [run_bind_ok hfine]
        cases val with
        | none => exact hgrown
        | some val =>
          dsimp only
          split <;> exact hgrown
    · rcases hcase with ⟨t₁, hrun, -, hk, -⟩ | ⟨e', t₁, -, hrun, ⟨hk, -⟩, -⟩
      · cases q with
        | error e' =>
          rw [run_bind_error hrun] at h
          cases h
          exact hk.rootChild
        | ok val =>
          rw [run_bind_ok hrun] at h
          cases val with
          | none => cases h
          | some val =>
            dsimp only at h
            split at h <;> cases h
      · rw [run_bind_error hrun] at h
        cases h
        exact hk.rootChild

/-- **A restore that fails** wrote nothing and kept the handle, or its write went through and the root reference moved. -/
theorem restoreLeaves_tears (leaves : List Leaf) (t : Store Flaky) :
    Tears (taped t.version) id (fun t' => t'.rootChild ≠ t.rootChild) (Store.restoreLeaves C leaves) t := by
  have hL := taped_linked (C := C) t.version
  have hT := taped_taped t.version
  refine Tears.get_bind (by rintro _ ⟨-, rfl⟩; rfl) (Tears.ite (fun _ => Tears.pure hT _) fun _ => ?_)
  refine Tears.after hT (mirrors_sealUpdates hL _ _ rfl (pendOk_empty _)) fun q u hq => ?_
  refine Tears.after hT (mirrors_applySubtree hL nibbles q.1 t.rootChild [] q.2 hq.2) fun p u' _ => ?_
  refine Tears.ite (fun _ => Tears.pure hT _) fun hne => ?_
  refine Tears.commit (fun w hw => (refreshHead_flaky t.history _ hw).1) fun w e w' hw hchild _ h => ?_
  rw [(refreshHead_flaky t.history _ hw).2 e w' h, hchild]
  exact hne

/-! ## Stamps -/

/-- What the first half of a stamp returned. -/
theorem stampLoad_ok {v : UInt64} {q : Bytes × Option (Child × Node)} {t t₁ : Store Flaky}
    (h : stampLoad C v t = .ok q t₁) : ¬ v < t.version ∧ q.2.map Prod.fst = t.rootChild := by
  unfold stampLoad at h
  rw [run_get_bind] at h
  obtain ⟨hle, h₁⟩ := guard_eq_ok h
  obtain ⟨ckpt, t₂, -, h₂⟩ := bind_eq_ok h₁
  refine ⟨hle, ?_⟩
  cases hchild : t.rootChild with
  | none =>
    rw [hchild] at h₂
    cases h₂
    rfl
  | some c =>
    rw [hchild] at h₂
    obtain ⟨n, t₃, -, h₃⟩ := bind_eq_ok h₂
    cases h₃
    rfl

/-- The handle a stamp writes from: its root reference has moved. -/
def stampMoved (v : UInt64) (top : Option (Child × Node)) (t : Store Flaky) : Store Flaky :=
  { t with rootChild := (top.map fun q => ⟨v, q.1.hash, q.1.isLeaf⟩).or t.rootChild }

/-- The second half of a stamp is one write: it fails with the root reference moved. -/
theorem stampTail_flaky (v : UInt64) (root : Hash) (ckpt : Bytes) (top : Option (Child × Node)) (t : Store Flaky) :
    (stampTail v root (ckpt, top) t.healthy).state.backend.tape = t.backend.tape ++ [true] ∧
      ∀ e t', stampTail v root (ckpt, top) t = .error e t' →
        ∃ msg, t.backend.fate true = some msg ∧ t' = (stampMoved v top t).ticked true := by
  have hrun : ∀ u, stampTail v root (ckpt, top) u = (backendWriteBatch errBackend
      ([{ key := rootRecordKey v, value := root.bytes }, { key := checkpointRecordKey, value := ckpt }] ++
        top.toList.map fun q => { key := nodeRecordKey (rootNodeKey v), value := q.2.encode }) >>= fun _ =>
      modify fun s => { s with version := v } : LedgerM Flaky Unit) (stampMoved v top u) := by
    intro u
    rcases top with _ | ⟨c, n⟩ <;> rfl
  refine ⟨?_, fun e t' h => ?_⟩
  · rw [hrun, run_bind_ok (backendWriteBatch_goes (stampMoved v top t.healthy) errBackend _ (Flaky.fate_nil rfl true))]
    rfl
  · rw [hrun] at h
    cases hfate : t.backend.fate true with
    | none =>
      rw [run_bind_ok (backendWriteBatch_goes (stampMoved v top t) errBackend _ hfate)] at h
      cases h
    | some msg =>
      rw [run_bind_error (backendWriteBatch_fails (stampMoved v top t) errBackend _ hfate)] at h
      cases h
      exact ⟨msg, rfl, rfl⟩

/-- **A stamp that fails** kept the handle, its write not being what failed; or it was the write, and the handle is kept
but for the root reference, which has moved to the stamped version. -/
theorem stampVersion_error {v : UInt64} {t t' : Store Flaky} {e : Err} (ht : t.backend.sparing = false)
    (h : Store.stampVersion C v t = .error e t') :
    ∃ T, (Store.stampVersion C v t.healthy).state.backend.tape = t.backend.tape ++ T ∧
      ((Flaky.failing t.backend.fates T ≠ some true ∧ Kept t t') ∨
        (Flaky.failing t.backend.fates T = some true ∧ ¬ v < t.version ∧ ∃ u, Kept t u ∧
          t' = { u with rootChild := t.rootChild.map fun c => ⟨v, c.hash, c.isLeaf⟩ })) := by
  have hsplit : ∀ u : Store Flaky, u.root = t.root →
      Store.stampVersion C v u = (stampLoad C v >>= stampTail v t.root) u := by
    intro u hu
    rw [stampVersion_split, hu]
  rw [hsplit t rfl] at h
  rw [hsplit t.healthy rfl]
  have hstop : ∀ {w : Store Flaky}, Stopped t w → ∃ T, w.backend.tape = t.backend.tape ++ T ∧
      Flaky.failing t.backend.fates T ≠ some true := by
    rintro w ⟨T, htape, -, hfail⟩
    exact ⟨T, htape, by rw [hfail]; decide⟩
  obtain ⟨r, w, hfine, -, -, hcase⟩ := mirrors_stampLoad (C := C) (taped_linked t.version) v t _ ⟨⟨ht, rfl⟩, rfl⟩
  rcases hcase with ⟨t₁, hrun, ⟨hs₁, rfl⟩, hk, R, hR, htape, hthrough⟩ | ⟨e', t₁, u, hrun, ⟨hk, hcut⟩, -, rfl⟩
  · cases r with
    | error e' =>
      rw [run_bind_error hrun] at h
      cases h
      have hall := hthrough []
      rw [List.append_nil, Flaky.through_nil, List.append_nil] at hall
      refine ⟨R, by rw [run_bind_error hfine]; exact htape, .inl ⟨?_, hk⟩⟩
      unfold Flaky.failing
      rw [hall, List.getElem?_eq_none le_rfl]
      exact Option.some_ne_none true ∘ Eq.symm
    | ok q =>
      rw [run_bind_ok hrun] at h
      obtain ⟨hle, hchild⟩ := stampLoad_ok hrun
      obtain ⟨ckpt, top⟩ := q
      obtain ⟨htape', hfail⟩ := stampTail_flaky v t.root ckpt top t₁
      obtain ⟨msg, hfate, rfl⟩ := hfail e t' h
      refine ⟨R ++ [true], by rw [run_bind_ok hfine, htape', htape, List.append_assoc], .inr ⟨?_, hle, t₁.ticked true, ?_, ?_⟩⟩
      · unfold Flaky.failing
        rw [hthrough, Flaky.through_fails hs₁.1 hfate, List.append_nil]
        exact List.getElem?_concat_length
      · exact hk.trans (Kept.failed hs₁.1 hfate t₁.entropy)
      · -- the root reference that was loaded is the one the handle had
        have hroot : (stampMoved v top t₁).rootChild = t.rootChild.map fun c => ⟨v, c.hash, c.isLeaf⟩ := by
          rw [← hchild]
          rcases top with _ | ⟨c, n⟩
          · exact hk.rootChild.trans hchild.symm
          · rfl
        rw [← hroot]
        rfl
  · rw [run_bind_error hrun] at h
    cases h
    have hgrown : u.healthy.backend.tape <+: ((stampLoad C v >>= stampTail v t.root) t.healthy).state.backend.tape := by
      cases r with
      | error e' => rw [run_bind_error hfine]; exact List.prefix_rfl
      | ok q => rw [run_bind_ok hfine, (stampTail_flaky v t.root q.1 q.2 u).1]; exact List.prefix_append _ _
    obtain ⟨T, htape, hfail⟩ := hstop (hcut.grown hgrown)
    exact ⟨T, htape, .inl ⟨hfail, hk⟩⟩

/-! ## The two calls -/

/-- **A failed restore call left everything as it was exactly when it was not torn.** On every store reached by calls
and resumptions, and for every placement of failing backend calls. -/
theorem restore_atomic_iff (hC : C.GcmOk) {ms : List Move}
    (hmax : ∀ u ∈ trace (Store.move C) (created C ck o entropy) ms, u.version < 0xFFFFFFFFFFFFFFFF)
    (hs : s = (run (Store.move C) (created C ck o entropy) ms).2) {c : RestoreCall} {fates : List (Option String)}
    {e : Err} {t' : Store Flaky} (h : c.call.exec C (s.over fates []) = .error e t') :
    (Unmoved s t' ∧ ServesAs C s t') ↔ ¬ c.Torn C s fates := by
  have hgrounded : Grounded C s := by
    rw [hs]
    exact moves_grounded hC ck o entropy hmax
  -- a torn call has moved the root reference, any other kept the handle
  suffices hcases : (¬ c.Torn C s fates ∧ Kept (s.over fates []) t') ∨ (c.Torn C s fates ∧ t'.rootChild ≠ s.rootChild) by
    rcases hcases with ⟨hwhole, hk⟩ | ⟨htorn, hmoved⟩
    · exact ⟨fun _ => hwhole, fun _ => hgrounded.of_kept hk⟩
    · exact ⟨fun hsame => absurd hsame.1.2.2.1 hmoved, fun hwhole => absurd htorn hwhole⟩
  cases c with
  | restoreLeaves leaves =>
    obtain ⟨T, htape, hfail⟩ := restoreLeaves_tears (C := C) leaves (s.over fates []) _ ⟨⟨rfl, rfl⟩, rfl⟩
    have hcalls : (RestoreCall.restoreLeaves leaves).tape C s = T :=
      (congrArg (fun t : Store Flaky => t.backend.tape) (state_map (Store.restoreLeaves C leaves) _ _)).trans htape
    rw [show (RestoreCall.restoreLeaves leaves).Torn C s fates ↔ true ∈ Flaky.through fates T by rw [← hcalls]; rfl]
    exact hfail e t' (map_eq_error.1 h)
  | stampVersion v =>
    obtain ⟨T, htape, hfail⟩ := stampVersion_error (t := s.over fates []) rfl (map_eq_error.1 h)
    have hcalls : (RestoreCall.stampVersion v).tape C s = T :=
      (congrArg (fun t : Store Flaky => t.backend.tape) (state_map (Store.stampVersion C v) _ _)).trans htape
    rw [show (RestoreCall.stampVersion v).Torn C s fates ↔
      s.version < v ∧ s.rootChild ≠ none ∧ Flaky.failing fates T = some true by rw [← hcalls]; rfl]
    rcases hfail with ⟨hnot, hk⟩ | ⟨hwrite, hle, u, hk, rfl⟩
    · exact .inl ⟨fun ht => hnot ht.2.2, hk⟩
    · -- the root reference of a reached store is of its version
      have hmoved : s.rootChild.map (fun c => (⟨v, c.hash, c.isLeaf⟩ : Child)) ≠ s.rootChild ↔
          s.version < v ∧ s.rootChild ≠ none := by
        cases hchild : s.rootChild with
        | none => simp
        | some c =>
          have hver := hgrounded.based.root c hchild
          have hsame : some (⟨v, c.hash, c.isLeaf⟩ : Child) = some c ↔ v = s.version := by
            rw [← hver]
            refine ⟨fun heq => congrArg Child.version (Option.some.inj heq), ?_⟩
            rintro rfl
            rfl
          refine (not_congr hsame).trans ⟨fun hne => ⟨lt_of_le_of_ne (not_lt.1 hle) (Ne.symm hne), ?_⟩, fun hlt => ?_⟩
          · exact Option.some_ne_none c
          · exact ne_of_gt hlt.1
      by_cases hsame : s.rootChild.map (fun c => (⟨v, c.hash, c.isLeaf⟩ : Child)) = s.rootChild
      · refine .inl ⟨fun ht => hmoved.2 ⟨ht.1, ht.2.1⟩ hsame, ?_⟩
        have hu : ({ u with rootChild := s.rootChild.map fun c => ⟨v, c.hash, c.isLeaf⟩ } : Store Flaky) = u := by
          rw [hsame, ← (show u.rootChild = s.rootChild from hk.rootChild)]
        exact hu ▸ hk
      · obtain ⟨hlt, hne⟩ := hmoved.1 hsame
        exact .inr ⟨⟨hlt, hne, hwrite⟩, hsame⟩

/-- A restore of a leaf into a chained store with keys whose write fails. -/
theorem restore_atomic_sampled : ∃ e t',
    (RestoreCall.restoreLeaves [⟨pathOf quickCrypto [] [4], [40]⟩]).call.exec quickCrypto
      (sampleStore.over [some "disk full"] []) = .error e t' ∧
    Unmoved sampleStore t' ∧ ServesAs quickCrypto sampleStore t' := by
  have hmax : ∀ u ∈ trace (Store.move quickCrypto) (created quickCrypto [] { history := true } fun _ => Nonce.zero)
      sampleMoves, u.version < 0xFFFFFFFFFFFFFFFF := by decide +kernel
  have hfail : ((RestoreCall.restoreLeaves [⟨pathOf quickCrypto [] [4], [40]⟩]).call.exec quickCrypto
      (sampleStore.over [some "disk full"] [])).val.toOption = none := by decide +kernel
  obtain ⟨e, t', hrun⟩ := exists_of_failed hfail
  exact ⟨e, t', hrun, (restore_atomic_iff quickCrypto_gcmOk hmax rfl hrun).2 (by decide +kernel)⟩

/-- A store with one key. -/
def filledStore : Store MemBackend :=
  ((created quickCrypto [] {} fun _ => Nonce.zero).step quickCrypto (.putBatch [Op.put [1] [10]])).2

/-- A stamp of it whose write fails. -/
def tornStamp : Except Err Reply × Store Flaky :=
  (filledStore.over [some "disk full"] []).step quickCrypto (RestoreCall.stampVersion 5).call

/-- A restore of the head leaf into a new chained store: the write goes through, and the read after it fails. -/
def tornRestore : Except Err Reply × Store Flaky :=
  ((created quickCrypto [] { history := true } fun _ => Nonce.zero).over [none, some "disk full"] []).step quickCrypto
    (RestoreCall.restoreLeaves [⟨historyPath quickCrypto [], Hash.zero.bytes⟩]).call

/-- **Failed restore calls that moved the handle.** After the failed stamp the key cannot be read; after the failed
restore the leaf is committed. -/
theorem restore_not_atomic :
    (tornStamp.1 = .error (errBackend "disk full") ∧ tornStamp.2.rootChild ≠ filledStore.rootChild ∧
      (Store.get quickCrypto [1] filledStore).val = .ok (some [10]) ∧
      (Store.get quickCrypto [1] tornStamp.2.plain).val ≠ .ok (some [10])) ∧
    tornRestore.1 = .error (errBackend "disk full") ∧ tornRestore.2.version = 1 ∧
      (Store.get quickCrypto historyKey tornRestore.2.plain).val = .ok (some Hash.zero.bytes) := by
  decide +kernel

end ImmutableLedger
