import ImmutableLedger.Proof.Content

/-!
# What a prune keeps

On one handle, whatever calls led there, a successful prune changes no answer about the versions from its
horizon on, and makes every version below the horizon missing (`prune_safe`).
-/

namespace ImmutableLedger

open EStateM Machine

variable {C : Crypto} {ck : Bytes}

namespace Model

variable {m : Model}

theorem step_prune_ok {b : UInt64} (h : (m.step C ck (.prune b)).1 = .ok .done) :
    Store.horizon m.pin b ≤ m.version ∧ (m.step C ck (.prune b)).2 = m.keepFrom (Store.horizon m.pin b) := by
  simp only [step, prune] at h ⊢
  split at h
  · cases h
  · rename_i hlt
    rw [if_neg hlt]
    exact ⟨not_lt.1 hlt, rfl⟩

/-- Versions from the horizon on read as before. -/
theorem mapAt_keepFrom {hz w : UInt64} (hw : hz ≤ w) : (m.keepFrom hz).mapAt w = m.mapAt w := by
  unfold mapAt keepFrom
  simp only [if_neg (not_lt.2 hw)]

/-- Versions below the horizon are missing. -/
theorem mapAt_pruned {hz w : UInt64} (hz' : hz ≤ m.version) (hw : w < hz) :
    (m.keepFrom hz).mapAt w = .error (errMissingf "root record v%d" [.uint w]) := by
  unfold mapAt keepFrom
  simp only [if_pos hw, gt_iff_lt]
  rw [if_neg (not_lt.2 (le_trans hw.le hz'))]

end Model

variable {W : Set (Hash × Bytes)} {s : Store MemBackend}

/-- A version with a root record reads from the model. -/
theorem OneHandle.mapAt (h : OneHandle C ck W s m)
    {w : UInt64} (hw : (OrdMap.get s.backend (rootRecordKey w)).isSome) : ∃ vals, m.mapAt w = .ok vals := by
  obtain ⟨-, hfresh, g, hR⟩ := h
  have hle : w ≤ m.version := by
    by_contra hlt
    rw [hfresh w (by rw [hR.version]; exact not_le.1 hlt)] at hw
    cases hw
  rw [hR.roots w hle, Option.isSome_map] at hw
  obtain ⟨vals, hvals⟩ := Option.isSome_iff_exists.1 hw
  refine ⟨vals, ?_⟩
  unfold Model.mapAt
  rw [if_neg (not_lt.2 hle), hvals]

/-- What the answers about key `k` after a prune to the horizon `hz` are, against those before. -/
structure PruneKeeps (C : Crypto) (s s' : Store MemBackend) (hz : UInt64) (k : Bytes) : Prop where
  get : (s'.step C (.get k)).1 = (s.step C (.get k)).1
  prove : (s'.step C (.prove k)).1 = (s.step C (.prove k)).1
  getAt : ∀ w, hz ≤ w → (OrdMap.get s.backend (rootRecordKey w)).isSome →
    ∃ v, (s.step C (.getAt w k)).1 = .ok (.value v) ∧ (s'.step C (.getAt w k)).1 = .ok (.value v)
  proveAt : ∀ w, hz ≤ w → (OrdMap.get s.backend (rootRecordKey w)).isSome →
    ∃ p, (s.step C (.proveAt w k)).1 = .ok (.proof p) ∧ (s'.step C (.proveAt w k)).1 = .ok (.proof p)
  getAt_missing : ∀ w, w < hz → ∃ e, (s'.step C (.getAt w k)).1 = .error e ∧ e.kind = some .missing
  proveAt_missing : ∀ w, w < hz → ∃ e, (s'.step C (.proveAt w k)).1 = .error e ∧ e.kind = some .missing

theorem OneHandle.prune (h : OneHandle C ck W s m) (b : UInt64) : (s.step C (.prune b)).1 = (m.step C ck (.prune b)).1 ∧
      OneHandle C ck W (s.step C (.prune b)).2 (m.step C ck (.prune b)).2 := by
  obtain ⟨rfl, hfresh, g, hR⟩ := h
  obtain ⟨hreply, hF, hR'⟩ := hR.prune b
  exact ⟨hreply, hF.ck, hF.fresh hfresh, hR'⟩

/-- A prune on a store that holds a versioned map. -/
theorem OneHandle.pruneKeeps (hW : VhInj C ck W)
    (h : OneHandle C ck W s m) {b : UInt64} (hprune : (s.step C (.prune b)).1 = .ok .done) (k : Bytes) :
    PruneKeeps C s (s.step C (.prune b)).2 (Store.horizon s.snapshotPin b) k := by
  obtain ⟨hreply, h'⟩ := h.prune b
  have hpin : s.snapshotPin = m.pin := by
    obtain ⟨-, -, g, hR⟩ := h
    exact hR.pin
  rw [hprune] at hreply
  obtain ⟨hle, hm'⟩ := Model.step_prune_ok hreply.symm
  rw [hm'] at h'
  rw [hpin]
  have hread := fun c hc => h.read hW (c := c) hc
  have hread' := fun c hc => h'.read hW (c := c) hc
  refine ⟨?_, ?_, fun w hw hrec => ?_, fun w hw hrec => ?_, fun w hw => ?_, fun w hw => ?_⟩
  · rw [hread (.get k) trivial, hread' (.get k) trivial]; rfl
  · rw [hread (.prove k) trivial, hread' (.prove k) trivial]; rfl
  · obtain ⟨vals, hvals⟩ := h.mapAt hrec
    rw [hread (.getAt w k) trivial, hread' (.getAt w k) trivial]
    simp only [Model.step, Model.mapAt_keepFrom hw, hvals]
    exact ⟨_, rfl, rfl⟩
  · obtain ⟨vals, hvals⟩ := h.mapAt hrec
    rw [hread (.proveAt w k) trivial, hread' (.proveAt w k) trivial]
    simp only [Model.step, Model.mapAt_keepFrom hw, hvals]
    exact ⟨_, rfl, rfl⟩
  · rw [hread' (.getAt w k) trivial]
    simp only [Model.step, Model.mapAt_pruned hle hw]
    exact ⟨_, rfl, rfl⟩
  · rw [hread' (.proveAt w k) trivial]
    simp only [Model.step, Model.mapAt_pruned hle hw]
    exact ⟨_, rfl, rfl⟩

/-- The horizon is the smaller one of the version asked for and the pinned one. -/
theorem horizon_eq_min (pin : Option UInt64) (b : UInt64) : Store.horizon pin b = pin.elim b (min b) := by
  unfold Store.horizon
  cases pin with
  | none => rfl
  | some p =>
    show (if p < b then p else b) = min b p
    by_cases h : p < b
    · rw [if_pos h, min_eq_right h.le]
    · rw [if_neg h, min_eq_left (not_lt.1 h)]

/-- **Prune safety.** In every run on one handle, a successful prune leaves the answers of the current version
and of every version from the horizon on that has a root record as they were, and makes every version below
the horizon missing. -/
theorem prune_safe (hC : C.GcmOk) (o : StoreOptions) (entropy : ℕ → Nonce) (cs : List Call)
    (hcol : NoCollision C ck (Model.init o.history) cs)
    (hmax : ∀ m ∈ trace (Model.step C ck) (Model.init o.history) cs, m.version < 0xFFFFFFFFFFFFFFFF)
    (s : Store MemBackend) (hs : s = (run (Store.step C) (created C ck o entropy) cs).2) (b : UInt64)
    (hprune : (s.step C (.prune b)).1 = .ok .done) (k : Bytes) :
    PruneKeeps C s (s.step C (.prune b)).2 (s.snapshotPin.elim b (min b)) k := by
  subst hs
  rw [← horizon_eq_min]
  exact (run_tracks hC o entropy hcol hmax).2.pruneKeeps hcol.values hprune k

/-- Two versions of a key, the first pinned. -/
def pinnedCalls : List Call := [.putBatch [.put [1] [10]], .putBatch [.put [1] [11]], .pinVersion (some 1)]

/-- The store these calls leave. -/
def pinnedStore : Store MemBackend :=
  (run (Store.step quickCrypto) (created quickCrypto [] {} fun _ => Nonce.zero) pinnedCalls).2

theorem prune_safe_pinned : (pinnedStore.step quickCrypto (.prune 2)).1 = .ok .done ∧
    PruneKeeps quickCrypto pinnedStore (pinnedStore.step quickCrypto (.prune 2)).2
      (pinnedStore.snapshotPin.elim 2 (min 2)) [1] := by
  have hprune : (pinnedStore.step quickCrypto (.prune 2)).1 = .ok .done := by decide +kernel
  exact ⟨hprune, prune_safe quickCrypto_gcmOk {} (fun _ => Nonce.zero) pinnedCalls
    ⟨vhInj_of_nodup (by decide +kernel), by decide +kernel⟩ (by decide +kernel) pinnedStore rfl 2 hprune [1]⟩

end ImmutableLedger
