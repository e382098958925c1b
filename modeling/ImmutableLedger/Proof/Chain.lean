import ImmutableLedger.Lib.HashChain
import ImmutableLedger.Ledger.Audit
import ImmutableLedger.Proof.Content

/-!
# The history chain is exact

In a chained store every batch that changes something adds one link, over the root and the head before it, and
the head is a leaf of the new root. `VerifyHistory` recomputes the chain over the root records it finds, whatever
they are: it ends in the live head only over the true ones.

* `Model.Chained`: the head of the model is the chain over its roots, and a leaf of its map.
* `verifyHistoryLoop_run`: the loop computes the chain over the root records stored.
* `verifyHistory_iff`: `VerifyHistory` succeeds exactly from a true head over true root records.
-/

namespace ImmutableLedger

open EStateM Machine HashChain

variable {C : Crypto} {ck : Bytes}

/-- The link at position `n`: the head of version `n + 1`. -/
def chainLink (C : Crypto) (n : ℕ) (head root : Hash) : Hash := historyLink C head root (UInt64.ofNat (n + 1))

/-- The head of version `n` over the roots of the versions below it. -/
def headOf (C : Crypto) (roots : ℕ → Hash) (n : ℕ) : Hash := chain (chainLink C) roots n 0 Hash.zero

theorem headOf_succ (roots : ℕ → Hash) (n : ℕ) :
    headOf C roots (n + 1) = historyLink C (headOf C roots n) (roots n) (UInt64.ofNat (n + 1)) := by
  unfold headOf
  rw [chain_succ, Nat.zero_add]
  rfl

/-! ## The chain of the model -/

/-- The leaf at the reserved path holds the head; before the first commit there is none. -/
def Model.HeadLeaf (C : Crypto) (ck : Bytes) (m : Model) : Prop :=
  m.cur.get (historyPath C ck) = if m.version = 0 then none else some m.head.bytes

theorem toNat_next_version {v : UInt64} (hmax : v < 0xFFFFFFFFFFFFFFFF) : (v + 1).toNat = v.toNat + 1 := by
  have hlt : v.toNat < 2 ^ 64 - 1 := UInt64.lt_iff_toNat_lt.1 hmax
  rw [UInt64.toNat_add]
  exact Nat.mod_eq_of_lt (by simp only [UInt64.reduceToNat]; omega)

theorem Model.HeadLeaf.putBatch {m : Model} (hhist : m.history = true) (h : m.HeadLeaf C ck) (ops : List Op)
    (hmax : m.version < 0xFFFFFFFFFFFFFFFF) : (m.putBatch C ck ops).2.HeadLeaf C ck := by
  rcases @Model.putBatch_cases C ck m ops with he | he
  · rw [he]
    exact h
  · have hpos : m.version + 1 ≠ 0 := by
      intro h0
      have hnext := toNat_next_version hmax
      rw [h0] at hnext
      simp at hnext
    rw [he]
    unfold HeadLeaf commitLinked
    rw [if_pos hhist]
    simp [commit, hpos]

theorem Model.history_putBatch (m : Model) (ops : List Op) : (m.putBatch C ck ops).2.history = m.history := by
  rcases @Model.putBatch_cases C ck m ops with he | he
  · rw [he]
  · rw [he]
    unfold commitLinked
    split <;> rfl

/-- Calls other than the two of a snapshot restore. -/
def Call.Direct : Call → Prop
  | .restoreLeaves _ => False
  | .stampVersion _ => False
  | _ => True

/-- A run without a snapshot restore keeps the head in its leaf. -/
theorem headLeaf_run {cs : List Call} (hcs : ∀ c ∈ cs, c.Direct)
    (hmax : ∀ m ∈ trace (Model.step C ck) (Model.init true) cs, m.version < 0xFFFFFFFFFFFFFFFF) :
    (run (Model.step C ck) (Model.init true) cs).2.HeadLeaf C ck := by
  have hI : ∀ (m : Model) (c : Call), m.history = true ∧ m.HeadLeaf C ck →
      m.version < 0xFFFFFFFFFFFFFFFF ∧ c.Direct →
      (m.step C ck c).2.history = true ∧ (m.step C ck c).2.HeadLeaf C ck := by
    rintro m c ⟨hhist, hleaf⟩ ⟨hlt, hc⟩
    have hprune : ∀ b, (m.prune b).2.history = true ∧ (m.prune b).2.HeadLeaf C ck := by
      intro b
      unfold Model.prune
      dsimp only
      split
      · exact ⟨hhist, hleaf⟩
      · exact ⟨hhist, hleaf⟩
    cases c with
    | putBatch ops => exact ⟨(m.history_putBatch ops).trans hhist, hleaf.putBatch hhist ops hlt⟩
    | restoreLeaves _ => exact hc.elim
    | stampVersion _ => exact hc.elim
    | prune b => exact hprune b
    | retainRecent w => exact hprune _
    | _ => exact ⟨hhist, hleaf⟩
  have h0 : (Model.init true).history = true ∧ (Model.init true).HeadLeaf C ck := ⟨rfl, rfl⟩
  exact (invariant hI h0 ((along_of_trace hmax).mono fun m c hc h => ⟨h.1, hcs c hc⟩)).2

/-- The chained model at its version: its root is the recorded one, its head that of the chain, and the leaf at the
reserved path holds the head. -/
structure Model.Chained (C : Crypto) (ck : Bytes) (roots : ℕ → Hash) (m : Model) : Prop where
  history : m.history = true
  root : roots m.version.toNat = m.root C ck
  head : m.head = headOf C roots m.version.toNat
  leaf : m.HeadLeaf C ck

variable {roots : ℕ → Hash}

theorem Model.chained_init (h0 : roots 0 = (Model.init true).root C ck) :
    (Model.init true).Chained C ck roots :=
  ⟨rfl, h0, rfl, rfl⟩

/-- **A batch adds one link or none.** -/
theorem Model.Chained.putBatch {m : Model} (h : m.Chained C ck roots) (ops : List Op)
    (hmax : m.version < 0xFFFFFFFFFFFFFFFF)
    (hroot : roots (m.putBatch C ck ops).2.version.toNat = (m.putBatch C ck ops).2.root C ck) :
    (m.putBatch C ck ops).2.Chained C ck roots := by
  refine ⟨(m.history_putBatch ops).trans h.history, hroot, ?_, h.leaf.putBatch h.history ops hmax⟩
  rcases @Model.putBatch_cases C ck m ops with he | he
  · rw [he]
    exact h.head
  · -- the new head links the old head and the old root
    have hlinked : m.commitLinked C ck (applyOps C ck m.cur ops) =
        m.commit ((applyOps C ck m.cur ops).insert (historyPath C ck) (m.nextHead C ck).bytes) (m.nextHead C ck) :=
      if_pos h.history
    rw [he, hlinked]
    show m.nextHead C ck = headOf C roots (m.version + 1).toNat
    have hnext := toNat_next_version hmax
    rw [hnext, headOf_succ, ← h.head, h.root, ← hnext, UInt64.ofNat_toNat]
    rfl

/-! ## The walk over the root records -/

/-- The root record of a version, if it is there and has the size of a hash. -/
def recordedRoot (b : MemBackend) (v : ℕ) : Option Hash :=
  (OrdMap.get b (rootRecordKey (UInt64.ofNat v))).bind fun r =>
    if r.length = hashSize then some (Hash.ofBytes r) else none

/-- The root records as a function, zero where there is none. -/
def recordedRoots (b : MemBackend) (v : ℕ) : Hash := (recordedRoot b v).getD Hash.zero

theorem recordedRoot_eq_some {b : MemBackend} {v : ℕ} {r : Hash} :
    recordedRoot b v = some r ↔ OrdMap.get b (rootRecordKey (UInt64.ofNat v)) = some r.bytes := by
  unfold recordedRoot
  rw [Option.bind_eq_some_iff]
  constructor
  · rintro ⟨x, hx, h⟩
    by_cases hlen : x.length = hashSize
    · rw [if_pos hlen] at h
      cases h
      rw [hx, Hash.bytes_ofBytes hlen]
    · rw [if_neg hlen] at h
      cases h
  · intro h
    exact ⟨r.bytes, h, by rw [if_pos (show r.bytes.length = hashSize from r.size), Hash.ofBytes_bytes]⟩

/-- Loading a root record of the in-memory backend. -/
theorem loadRootRecord_run (s : Store MemBackend) (v : ℕ) :
    (∃ r, recordedRoot s.backend v = some r ∧ loadRootRecord (UInt64.ofNat v) s = .ok r s) ∨
    (∃ e, recordedRoot s.backend v = none ∧ loadRootRecord (UInt64.ofNat v) s = .error e s) := by
  have hget : backendGet (rootRecordKey (UInt64.ofNat v)) s = .ok (OrdMap.get s.backend (rootRecordKey (UInt64.ofNat v))) s :=
    rfl
  unfold recordedRoot
  cases hr : OrdMap.get s.backend (rootRecordKey (UInt64.ofNat v)) with
  | none =>
    rw [hr] at hget
    exact .inr ⟨_, rfl, run_bind_ok hget⟩
  | some x =>
    rw [hr] at hget
    by_cases hlen : x.length = hashSize
    · refine .inl ⟨Hash.ofBytes x, by simp [hlen], (run_bind_ok hget).trans ?_⟩
      simp only [hlen, ne_eq, not_true_eq_false, if_false]
      rfl
    · refine .inr ⟨errCorruptedf "root record v%d bad length" [.uint (UInt64.ofNat v)], by simp [hlen],
        (run_bind_ok hget).trans ?_⟩
      simp only [hlen, ne_eq, not_false_eq_true, if_true]
      rfl

/-- **The loop of `VerifyHistory`** fails at a version without root record, or ends in the chain over the records
stored. -/
theorem verifyHistoryLoop_run (s : Store MemBackend) (hmax : s.version < 0xFFFFFFFFFFFFFFFF) : ∀ (k v : ℕ) (head : Hash),
    v + k = s.version.toNat →
    (∃ e, verifyHistoryLoop C (k + 1) (UInt64.ofNat (v + 1)) head s = .error e s ∧
      ∃ i, v ≤ i ∧ i < v + k ∧ recordedRoot s.backend i = none) ∨
    (verifyHistoryLoop C (k + 1) (UInt64.ofNat (v + 1)) head s =
        .ok (chain (chainLink C) (recordedRoots s.backend) k v head) s ∧
      ∀ i, v ≤ i → i < v + k → (recordedRoot s.backend i).isSome) := by
  have hlt : s.version.toNat < 2 ^ 64 - 1 := UInt64.lt_iff_toNat_lt.1 hmax
  intro k
  -- on the links left
  induction k with
  | zero =>
    intro v head hv
    have hpast : ¬ UInt64.ofNat (v + 1) ≤ s.version := by
      rw [UInt64.le_iff_toNat_le, UInt64.toNat_ofNat']
      omega
    refine .inr ⟨?_, fun i h1 h2 => absurd h2 (by omega)⟩
    unfold verifyHistoryLoop
    refine (run_bind_ok rfl).trans ?_
    exact congrFun (if_neg hpast) s
  | succ k ih =>
    intro v head hv
    have hle : UInt64.ofNat (v + 1) ≤ s.version := by
      rw [UInt64.le_iff_toNat_le, UInt64.toNat_ofNat']
      omega
    have hprev : UInt64.ofNat (v + 1) - 1 = UInt64.ofNat v := by
      rw [← UInt64.toNat_inj, UInt64.toNat_sub_of_le _ _ (by
        rw [UInt64.le_iff_toNat_le, UInt64.toNat_ofNat']; simp only [UInt64.reduceToNat]; omega),
        UInt64.toNat_ofNat', UInt64.toNat_ofNat']
      simp only [UInt64.reduceToNat]
      omega
    have hnext : UInt64.ofNat (v + 1) + 1 = UInt64.ofNat (v + 1 + 1) := by
      rw [← UInt64.toNat_inj, UInt64.toNat_add, UInt64.toNat_ofNat', UInt64.toNat_ofNat']
      simp only [UInt64.reduceToNat]
      omega
    have hstep : ∀ {x}, (wrapErr (fun e => .raw ("history walk at version %d (pruned?): " ++ e.text))
        (loadRootRecord (UInt64.ofNat v)) >>= fun prevRoot =>
          verifyHistoryLoop C (k + 1) (UInt64.ofNat (v + 1 + 1)) (historyLink C head prevRoot (UInt64.ofNat (v + 1)))) s = x →
        verifyHistoryLoop C (k + 1 + 1) (UInt64.ofNat (v + 1)) head s = x := by
      intro x hx
      rw [verifyHistoryLoop]
      refine (run_bind_ok rfl).trans ((congrFun (if_pos hle) s).trans ?_)
      rw [hprev, hnext]
      exact hx
    rcases loadRootRecord_run s v with ⟨r, hr, hload⟩ | ⟨e, hr, hload⟩
    · have hwrap : wrapErr (fun e => .raw ("history walk at version %d (pruned?): " ++ e.text))
          (loadRootRecord (UInt64.ofNat v)) s = .ok r s := by unfold wrapErr; rw [hload]
      have hroot : recordedRoots s.backend v = r := by unfold recordedRoots; rw [hr]; rfl
      rcases ih (v + 1) (historyLink C head r (UInt64.ofNat (v + 1))) (by omega) with ⟨e, hrun, i, h1, h2, hi⟩ | ⟨hrun, hall⟩
      · exact .inl ⟨e, hstep ((run_bind_ok hwrap).trans hrun), i, by omega, by omega, hi⟩
      · refine .inr ⟨hstep ((run_bind_ok hwrap).trans ?_), fun i h1 h2 => ?_⟩
        · rw [hrun, chain, hroot]
          rfl
        · rcases Nat.eq_or_lt_of_le h1 with rfl | h1
          · rw [hr]; rfl
          · exact hall i h1 (by omega)
    · have hwrap : wrapErr (fun e => .raw ("history walk at version %d (pruned?): " ++ e.text))
          (loadRootRecord (UInt64.ofNat v)) s = .error (.raw ("history walk at version %d (pruned?): " ++ e.text)) s := by
        unfold wrapErr; rw [hload]
      exact .inl ⟨_, hstep (run_bind_error hwrap), v, le_rfl, by omega, hr⟩

/-- `VerifyHistory` on a chained handle at or above the version asked for. -/
theorem verifyHistory_run {s : Store MemBackend} (hhist : s.history = true) (hmax : s.version < 0xFFFFFFFFFFFFFFFF)
    {fromVersion : UInt64} (hfrom : fromVersion ≤ s.version) (fromHead : Hash) :
    (Store.verifyHistory C fromVersion fromHead s).val = .ok () ↔
      (∀ i, fromVersion.toNat ≤ i → i < s.version.toNat → (recordedRoot s.backend i).isSome) ∧
      chain (chainLink C) (recordedRoots s.backend) (s.version.toNat - fromVersion.toNat) fromVersion.toNat fromHead =
        s.historyHead := by
  have hle := UInt64.le_iff_toNat_le.1 hfrom
  have hlt : s.version.toNat < 2 ^ 64 - 1 := UInt64.lt_iff_toNat_lt.1 hmax
  have hnext : fromVersion + 1 = UInt64.ofNat (fromVersion.toNat + 1) := by
    rw [← UInt64.toNat_inj, UInt64.toNat_add, UInt64.toNat_ofNat']
    rfl
  have hstep : ∀ {x}, (verifyHistoryLoop C (s.version.toNat - fromVersion.toNat + 1)
        (UInt64.ofNat (fromVersion.toNat + 1)) fromHead >>= fun head =>
          if head ≠ s.historyHead then
            throw (errCorruptedf "history chain mismatch: recorded roots from version %d do not produce the live head"
              [.uint fromVersion])
          else pure ()) s = x → Store.verifyHistory C fromVersion fromHead s = x := by
    intro x hx
    unfold Store.verifyHistory
    refine (run_bind_ok rfl).trans ?_
    simp only [hhist, not_true_eq_false, if_false, not_lt.2 hfrom, hnext]
    exact hx
  rcases @verifyHistoryLoop_run C s hmax (s.version.toNat - fromVersion.toNat) fromVersion.toNat fromHead (by omega) with
    ⟨e, hrun, i, h1, h2, hi⟩ | ⟨hrun, hall⟩
  · rw [hstep (run_bind_error hrun)]
    refine ⟨fun h => (by cases h), fun h => ?_⟩
    have := h.1 i h1 (by omega)
    rw [hi] at this
    cases this
  · rw [hstep (run_bind_ok hrun)]
    set head := chain (chainLink C) (recordedRoots s.backend) (s.version.toNat - fromVersion.toNat) fromVersion.toNat fromHead
    by_cases hh : head = s.historyHead
    · rw [if_neg (not_not.2 hh)]
      exact ⟨fun _ => ⟨fun i h1 h2 => hall i h1 (by omega), hh⟩, fun _ => rfl⟩
    · rw [if_pos hh]
      exact ⟨fun h => (by cases h), fun h => absurd h.2 hh⟩

/-- The true chain, cut at an earlier position. -/
theorem headOf_cut (roots : ℕ → Hash) {j n : ℕ} (hle : j ≤ n) :
    headOf C roots n = chain (chainLink C) roots (n - j) j (headOf C roots j) := by
  unfold headOf
  conv_lhs => rw [show n = j + (n - j) by omega]
  rw [chain_add, Nat.zero_add]

theorem links_cut (roots : ℕ → Hash) {j n : ℕ} (hle : j ≤ n) :
    ∀ t ∈ links (chainLink C) roots (n - j) j (headOf C roots j), t ∈ links (chainLink C) roots n 0 Hash.zero := by
  intro t ht
  rw [show n = j + (n - j) by omega, links_add]
  refine List.mem_append_right _ ?_
  rw [Nat.zero_add]
  exact ht

/-- The chain over the stored records ends in the true head exactly from a true head over true records, when the
links computed do not collide. -/
theorem recorded_chain_iff {b : MemBackend} {j n : ℕ} {fromHead : Hash} (hle : j ≤ n)
    (hinj : Set.InjOn (fun t : ℕ × Hash × Hash => chainLink C t.1 t.2.1 t.2.2)
      {t | t ∈ links (chainLink C) roots n 0 Hash.zero ++ links (chainLink C) (recordedRoots b) (n - j) j fromHead}) :
    ((∀ i, j ≤ i → i < n → (recordedRoot b i).isSome) ∧
        chain (chainLink C) (recordedRoots b) (n - j) j fromHead = headOf C roots n) ↔
      fromHead = headOf C roots j ∧
        ∀ v, j ≤ v → v < n → OrdMap.get b (rootRecordKey (UInt64.ofNat v)) = some (roots v).bytes := by
  rw [headOf_cut roots hle]
  constructor
  · rintro ⟨hsome, heq⟩
    obtain ⟨hh, hx⟩ := chain_inj hinj (fun t ht => List.mem_append_right _ ht)
      (fun t ht => List.mem_append_left _ (links_cut roots hle t ht)) heq
    refine ⟨hh, fun v h1 h2 => ?_⟩
    obtain ⟨r, hr⟩ := Option.isSome_iff_exists.1 (hsome v h1 h2)
    have hroot : recordedRoots b v = roots v := hx v h1 (by omega)
    unfold recordedRoots at hroot
    rw [hr, Option.getD_some] at hroot
    rw [← recordedRoot_eq_some, hr, hroot]
  · rintro ⟨rfl, hrecs⟩
    refine ⟨fun i h1 h2 => by rw [recordedRoot_eq_some.2 (hrecs i h1 h2)]; rfl, ?_⟩
    refine chain_congr _ fun i h1 h2 => ?_
    unfold recordedRoots
    rw [recordedRoot_eq_some.2 (hrecs i h1 (by omega)), Option.getD_some]

theorem linkInj_of_nodup {l : List (ℕ × Hash × Hash)} (h : (l.dedup.map fun t => chainLink C t.1 t.2.1 t.2.2).Nodup) :
    Set.InjOn (fun t : ℕ × Hash × Hash => chainLink C t.1 t.2.1 t.2.2) {t | t ∈ l} :=
  fun _ ha _ hb => List.inj_on_of_nodup_map h (List.mem_dedup.2 ha) (List.mem_dedup.2 hb)

/-! ## Runs of batches -/

/-- The chained model after any batches. -/
theorem chained_run : ∀ (batches : List (List Op)), batches.length < 2 ^ 64 - 1 →
    (∀ pre post, batches = pre ++ post →
      roots (run (Model.step C ck) (Model.init true) (pre.map .putBatch)).2.version.toNat =
        (run (Model.step C ck) (Model.init true) (pre.map .putBatch)).2.root C ck) →
    (run (Model.step C ck) (Model.init true) (batches.map .putBatch)).2.Chained C ck roots := by
  intro batches
  induction batches using List.reverseRecOn with
  | nil => intro _ hroots; exact Model.chained_init (hroots [] [] rfl)
  | append_singleton batches ops ih =>
    intro hlen hroots
    rw [List.length_append, List.length_singleton] at hlen
    have hprev := ih (by omega) fun pre post he => hroots pre (post ++ [ops]) (by rw [he, List.append_assoc])
    have hlast := hroots (batches ++ [ops]) [] (by rw [List.append_nil])
    have hmax : (run (Model.step C ck) (Model.init true) (batches.map .putBatch)).2.version < 0xFFFFFFFFFFFFFFFF :=
      version_trace_lt (isCommit_putBatches batches) (by rw [List.length_map]; omega) true _ (last_mem_trace _ _)
    rw [List.map_append, run_append] at hlast ⊢
    exact hprev.putBatch ops hmax hlast

/-- **`VerifyHistory` is exact.** In the state of a chained store after any batches, with the roots the store went
through and the heads they chain to: the live head is the last one; the reserved leaf holds it, and is absent
before the first commit; and over any backend content `VerifyHistory` succeeds exactly from a true head over the
true root records, when no links computed collide. -/
theorem verifyHistory_iff (hC : C.GcmOk) (o : StoreOptions) (hchain : o.history = true) (entropy : ℕ → Nonce)
    (batches : List (List Op)) (hlen : batches.length < 2 ^ 64 - 1)
    (hcol : NoCollision C ck (Model.init true) (batches.map .putBatch)) (roots : ℕ → Hash)
    (hroots : ∀ pre post, batches = pre ++ post →
      roots (run (Store.step C) (created C ck o entropy) (pre.map .putBatch)).2.version.toNat =
        (run (Store.step C) (created C ck o entropy) (pre.map .putBatch)).2.root)
    (s : Store MemBackend) (hs : s = (run (Store.step C) (created C ck o entropy) (batches.map .putBatch)).2) :
    s.historyHead = headOf C roots s.version.toNat ∧
    (s.step C (.get historyKey)).1 =
      .ok (.value (if s.version = 0 then none else some (headOf C roots s.version.toNat).bytes)) ∧
    ∀ (b : MemBackend) (fromVersion : UInt64) (fromHead : Hash), fromVersion ≤ s.version →
      Set.InjOn (fun t : ℕ × Hash × Hash => chainLink C t.1 t.2.1 t.2.2)
        {t | t ∈ links (chainLink C) roots s.version.toNat 0 Hash.zero ++
          links (chainLink C) (recordedRoots b) (s.version.toNat - fromVersion.toNat) fromVersion.toNat fromHead} →
      ((Store.verifyHistory C fromVersion fromHead { s with backend := b }).val = .ok () ↔
        fromHead = headOf C roots fromVersion.toNat ∧
        ∀ v, fromVersion.toNat ≤ v → v < s.version.toNat →
          OrdMap.get b (rootRecordKey (UInt64.ofNat v)) = some (roots v).bytes) := by
  have htracks := fun pre post he =>
    (@batches_track C ck batches hC o entropy hlen (by rw [hchain]; exact hcol) pre post he).2
  rw [hchain] at htracks
  have hmodel : (run (Model.step C ck) (Model.init true) (batches.map .putBatch)).2.Chained C ck roots := by
    refine chained_run batches hlen fun pre post he => ?_
    obtain ⟨hck, -, g, hR⟩ := htracks pre post he
    have h := hroots pre post he
    rw [hR.version, hR.root, hck] at h
    exact h
  have hmax : (run (Model.step C ck) (Model.init true) (batches.map .putBatch)).2.version < 0xFFFFFFFFFFFFFFFF :=
    version_trace_lt (isCommit_putBatches batches) (by rw [List.length_map]; exact hlen) true _ (last_mem_trace _ _)
  have hone := htracks batches [] (by simp)
  rw [← hs] at hone
  have hread := OneHandle.read hcol.values hone (c := .get historyKey) trivial
  obtain ⟨hck, hfresh, g, hR⟩ := hone
  have hhead : s.historyHead = headOf C roots s.version.toNat := by rw [hR.head, hR.version]; exact hmodel.head
  refine ⟨hhead, ?_, fun b fromVersion fromHead hfrom hinj => ?_⟩
  · rw [hread, ← hhead, hR.head, hR.version]
    exact congrArg (fun v => Except.ok (Reply.value v)) hmodel.leaf
  · have hlive := @verifyHistory_run C { s with backend := b } (by rw [← hmodel.history]; exact hR.history)
      (by rw [← hR.version] at hmax; exact hmax) fromVersion hfrom fromHead
    rw [hlive]
    dsimp only
    rw [hhead]
    exact recorded_chain_iff (UInt64.le_iff_toNat_le.1 hfrom) hinj

/-- Before the first commit the reserved leaf is absent, though the head is the zero hash. -/
theorem historyLeaf_absent_at_genesis :
    (created plainCrypto [] { history := true } fun _ => Nonce.zero).historyHead =
      headOf plainCrypto (fun _ => placeholderHash plainCrypto) 0 ∧
    ((created plainCrypto [] { history := true } fun _ => Nonce.zero).step plainCrypto (.get historyKey)).1 ≠
      .ok (.value (some (headOf plainCrypto (fun _ => placeholderHash plainCrypto) 0).bytes)) := by
  decide +kernel

/-- Two batches over a chained store. -/
def chainedBatches : List (List Op) := [[.put [1] [10]], [.put [1] [11]]]

/-- The store after the first `n` of them. -/
def chainedStore (n : ℕ) : Store MemBackend :=
  (run (Store.step quickCrypto) (created quickCrypto [] { history := true } fun _ => Nonce.zero)
    ((chainedBatches.take n).map .putBatch)).2

/-- A backend that holds nothing but the root record of version 1. -/
def rootOnly : MemBackend := OrdMap.empty.insert (rootRecordKey 1) (chainedStore 1).root.bytes

theorem verifyHistory_iff_rootOnly :
    (Store.verifyHistory quickCrypto 1 (chainedStore 1).historyHead { chainedStore 2 with backend := rootOnly }).val =
      .ok () := by
  have hver : ∀ n < 3, (chainedStore n).version.toNat = n := by decide +kernel
  have hroots : ∀ pre post, chainedBatches = pre ++ post →
      (chainedStore (run (Store.step quickCrypto) (created quickCrypto [] { history := true } fun _ => Nonce.zero)
        (pre.map .putBatch)).2.version.toNat).root =
      (run (Store.step quickCrypto) (created quickCrypto [] { history := true } fun _ => Nonce.zero)
        (pre.map .putBatch)).2.root := by
    intro pre post he
    have hpre : pre = chainedBatches.take pre.length := by rw [he, List.take_left]
    have hlen : pre.length < 3 := by
      have := congrArg List.length he
      rw [List.length_append] at this
      exact Nat.lt_succ_of_le (le_trans (Nat.le_add_right _ _) this.ge)
    rw [hpre]
    change (chainedStore (chainedStore pre.length).version.toNat).root = (chainedStore pre.length).root
    rw [hver _ hlen]
  have h := verifyHistory_iff quickCrypto_gcmOk { history := true } rfl (fun _ => Nonce.zero) chainedBatches
    (by decide) ⟨vhInj_of_nodup (by decide +kernel), by decide +kernel⟩ (fun v => (chainedStore v).root) hroots
    (chainedStore 2) rfl
  refine (h.2.2 rootOnly 1 (chainedStore 1).historyHead (by decide +kernel) ?_).2 ⟨by decide +kernel, ?_⟩
  · apply linkInj_of_nodup
    decide +kernel
  · rw [hver 2 (by decide)]
    intro v h1 h2
    obtain rfl : v = 1 := by
      have : (1 : UInt64).toNat = 1 := rfl
      omega
    decide +kernel

end ImmutableLedger
