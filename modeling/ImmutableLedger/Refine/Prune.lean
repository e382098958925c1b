import ImmutableLedger.Refine.Sweep
import ImmutableLedger.Refine.Write

/-!
# Pruning, stamping, pinning and reading

The remaining calls on a store that holds a versioned map. A prune deletes the stale targets blindly; the
invariant that a target is used by no readable version from its mark on (`Dead`) makes that safe.

* `Refines.prune`: a prune forgets the versions below its horizon and nothing else.
* `Refines.stampVersion`: a stamp gives the current map a later version.
* `Refines.answers`: every call answers as the model does.
-/

namespace ImmutableLedger

open EStateM

/-! ## Key ranges -/

theorem singleton_le_iff {a : UInt8} {k : Bytes} : [a] ≤ k ↔ ∃ c l, k = c :: l ∧ a ≤ c := by
  rw [← not_lt]
  cases k with
  | nil => simp
  | cons c l =>
    rw [List.cons_lt_cons_iff]
    constructor
    · intro h
      exact ⟨c, l, rfl, not_lt.1 fun hc => h (.inl hc)⟩
    · rintro ⟨c', l', he, hc⟩
      cases he
      rintro (h | ⟨-, h⟩)
      · exact absurd h (not_lt.2 hc)
      · simp at h

/-- A key from a tag on and below a key of that tag carries the tag. -/
theorem head_of_range {a : UInt8} {k y : Bytes} (h1 : [a] ≤ k) (h2 : k < a :: y) : ∃ l, k = a :: l ∧ l < y := by
  obtain ⟨c, l, rfl, hc⟩ := singleton_le_iff.1 h1
  rcases List.cons_lt_cons_iff.1 h2 with h | ⟨rfl, h⟩
  · exact absurd h (not_lt.2 hc)
  · exact ⟨l, rfl, h⟩

theorem le_iff_lt_add_one {v w : UInt64} (h : w ≠ 0xFFFFFFFFFFFFFFFF) : v ≤ w ↔ v < w + 1 := by
  have hw := w.toNat_lt
  rw [Ne, ← UInt64.toNat_inj] at h
  rw [UInt64.le_iff_toNat_le, UInt64.lt_iff_toNat_lt, UInt64.toNat_add]
  simp only [UInt64.reduceToNat] at h ⊢
  omega

theorem staleEnd_ne_nil (h : UInt64) : staleEnd h ≠ [] := by unfold staleEnd; split <;> simp

theorem head_of_stale_range {h : UInt64} {k : Bytes} (h1 : [recStale] ≤ k) (h2 : k < staleEnd h) :
    k.head? = some recStale := by
  unfold staleEnd at h2
  split at h2
  · obtain ⟨c, l, rfl, hc⟩ := singleton_le_iff.1 h1
    rcases List.cons_lt_cons_iff.1 h2 with h | ⟨rfl, h⟩
    · have hlt : c < recStale + 1 := h
      have : c = recStale := by
        rw [UInt8.le_iff_toNat_le] at hc
        rw [UInt8.lt_iff_toNat_lt] at hlt
        rw [← UInt8.toNat_inj]
        simp [recStale] at hc hlt ⊢
        omega
      rw [this]; rfl
    · simp at h
  · obtain ⟨l, rfl, -⟩ := head_of_range h1 h2
    rfl

/-- **The stale range of a horizon** holds the entries marked up to it. -/
theorem staleRecordKey_mem_range {t h : UInt64} {target : Bytes} :
    ([recStale] ≤ staleRecordKey t target ∧ staleRecordKey t target < staleEnd h) ↔ t ≤ h := by
  have h1 : [recStale] ≤ staleRecordKey t target := singleton_le_iff.2 ⟨_, _, rfl, le_rfl⟩
  rw [and_iff_right h1]
  unfold staleEnd staleRecordKey
  split
  · rename_i hmax
    rw [hmax]
    refine ⟨fun _ => ?_, fun _ => List.cons_lt_cons_iff.2 (.inl (by decide))⟩
    rw [UInt64.le_iff_toNat_le]
    have := t.toNat_lt
    simp only [UInt64.reduceToNat]
    omega
  · rename_i hmax
    rw [le_iff_lt_add_one hmax, List.cons_lt_cons_iff, ← Bytes.u64_lt_u64]
    have := Bytes.append_lt_append (x := Bytes.u64 t) (y := Bytes.u64 (h + 1)) (u := target) (v := []) (by simp)
    rw [List.append_nil] at this
    rw [this]
    simp

/-- The root range of a horizon holds the versions below it. -/
theorem rootRecordKey_mem_range {w h : UInt64} :
    ([recRoot] ≤ rootRecordKey w ∧ rootRecordKey w < recRoot :: Bytes.u64 h) ↔ w < h := by
  have h1 : [recRoot] ≤ rootRecordKey w := singleton_le_iff.2 ⟨_, _, rfl, le_rfl⟩
  rw [and_iff_right h1, rootRecordKey, List.cons_lt_cons_iff, Bytes.u64_lt_u64]
  simp

theorem drop_staleRecordKey (t : UInt64) (target : Bytes) : (staleRecordKey t target).drop 9 = target := by
  unfold staleRecordKey
  rw [List.drop_succ_cons, List.drop_left' (Bytes.length_u64 t)]

/-- Node and value records carry their own tags. -/
theorem RecKey.head_of_version {x : RecKey} {v : UInt64} (h : x.version = some v) :
    x.bytes.head? = some recNode ∨ x.bytes.head? = some recValue := by
  cases x with
  | node => exact .inl rfl
  | value => exact .inr rfl
  | stale => cases h
  | root => cases h
  | checkpoint => cases h

/-! ## Pruning -/

variable {C : Crypto} {W : Set (Hash × Bytes)} {s : Store MemBackend} {m : Model} {g : UInt64 → Snap}

section
variable (h : Refines C W s m g) {hz : UInt64}
include h

/-- What the stale loop deletes: stale entries, and records dead since the horizon or before. -/
theorem Refines.doomed {k : Bytes} (hd : Doomed s.backend [recStale] (staleEnd hz) staleKeys k) :
    k.head? = some recStale ∨ ∃ t x, t ≤ hz ∧ k = RecKey.bytes x ∧ Dead C m g t x := by
  obtain ⟨e, r, he, h1, h2, hk⟩ := hd
  have hhead := head_of_stale_range h1 h2
  obtain ⟨t, x, rfl, hdead⟩ := h.stale e r he hhead
  rcases List.mem_pair.1 hk with rfl | rfl
  · exact .inr ⟨t, x, staleRecordKey_mem_range.1 ⟨h1, h2⟩, drop_staleRecordKey t _, hdead⟩
  · exact .inl hhead

/-- The stale entries are long enough, and their targets lie outside the stale range. -/
theorem Refines.stale_target (e r : Bytes) (he : OrdMap.get s.backend e = some r) (h1 : [recStale] ≤ e)
    (h2 : e < staleEnd hz) : 10 ≤ e.length ∧ ¬ ([recStale] ≤ e.drop 9 ∧ e.drop 9 < staleEnd hz) := by
  obtain ⟨t, x, rfl, hdead⟩ := h.stale e r he (head_of_stale_range h1 h2)
  obtain ⟨v, hv, -⟩ := hdead.old
  have hhead := RecKey.head_of_version hv
  rw [drop_staleRecordKey]
  constructor
  · cases hb : RecKey.bytes x with
    | nil => rw [hb] at hhead; rcases hhead with hh | hh <;> cases hh
    | cons a l => simp [staleRecordKey]; omega
  · rintro ⟨h3, h4⟩
    rw [head_of_stale_range h3 h4] at hhead
    rcases hhead with hh | hh <;> exact absurd hh (by decide)

variable {b₁ b₂ : MemBackend} (hb₁ : Swept s.backend b₁ [recStale] (staleEnd hz) staleKeys)
  (hb₂ : Swept b₁ b₂ [recRoot] (recRoot :: Bytes.u64 hz) fun e => [e])
include hb₁ hb₂

omit h in
theorem get_pruned {k r : Bytes} (hk : b₂.get k = some r) : OrdMap.get s.backend k = some r :=
  hb₁.get_some (hb₂.get_some hk)

/-- A record that is no stale entry, no root record and not dead survives a prune. -/
theorem Refines.get_kept {k : Bytes} (hst : k.head? ≠ some recStale) (hroot : k.head? ≠ some recRoot)
    (hdead : ∀ t y, t ≤ hz → Dead C m g t y → k ≠ RecKey.bytes y) : b₂.get k = OrdMap.get s.backend k := by
  rw [hb₂.get_of_not, hb₁.get_of_not]
  · intro hd
    rcases h.doomed hd with hh | ⟨t, y, ht, he, hy⟩
    · exact hst hh
    · exact hdead t y ht hy he
  · rintro ⟨e, r, -, h1, h2, he⟩
    obtain rfl := List.mem_singleton.1 he
    obtain ⟨l, rfl, -⟩ := head_of_range h1 h2
    exact hroot rfl

/-- The root records after a prune. -/
theorem Refines.get_root_pruned (w : UInt64) :
    b₂.get (rootRecordKey w) = if w < hz then none else OrdMap.get s.backend (rootRecordKey w) := by
  have h₁ : b₁.get (rootRecordKey w) = OrdMap.get s.backend (rootRecordKey w) := by
    refine hb₁.get_of_not fun hd => ?_
    rcases h.doomed hd with hh | ⟨t, y, ht, he, hy⟩
    · cases hh
    · obtain ⟨v, hv, -⟩ := hy.old
      have hhead := RecKey.head_of_version hv
      rw [← he] at hhead
      rcases hhead with hh | hh <;> cases hh
  by_cases hw : w < hz
  · rw [if_pos hw]
    obtain ⟨h1, h2⟩ := rootRecordKey_mem_range.2 hw
    cases hg : b₁.get (rootRecordKey w) with
    | none =>
      cases hg' : b₂.get (rootRecordKey w) with
      | none => rfl
      | some r => rw [hb₂.get_some hg'] at hg; cases hg
    | some r => exact hb₂.get_of_doomed ⟨_, r, hg, h1, h2, List.mem_singleton_self _⟩
  · rw [if_neg hw, ← h₁]
    refine hb₂.get_of_not ?_
    rintro ⟨e, r, -, h1, h2, he⟩
    obtain rfl := List.mem_singleton.1 he
    exact hw (rootRecordKey_mem_range.1 ⟨h1, h2⟩)

/-- **A pruned store holds the versions from the horizon on.** -/
theorem Refines.swept (hle : hz ≤ m.version) :
    Refines C W { s with cache := s.cache.clear, backend := b₂ } (m.keepFrom hz) g := by
  have hpast : ∀ {w vals}, (m.keepFrom hz).past w = some vals → ¬ w < hz ∧ m.past w = some vals := by
    intro w vals hw
    simp only [Model.keepFrom] at hw
    split at hw
    · cases hw
    · rename_i hlt; exact ⟨hlt, hw⟩
  refine ⟨h.version, h.root, h.child, h.history, h.head, h.pin, ?_, ?_, ?_, ?_, ?_, ?_⟩
  · show (if m.version < hz then none else m.past m.version) = some m.cur
    rw [if_neg (not_lt.2 hle)]; exact h.cur
  · intro w vals hw
    obtain ⟨hlt, hw⟩ := hpast hw
    obtain ⟨hv, hx⟩ := h.snaps w vals hw
    refine ⟨hv, hx.transfer rfl rfl (by rw [← h.version] at hv; exact hv) fun r hr => ?_⟩
    have hhead := RecKey.head_of_version r.key_version
    refine h.get_kept hb₁ hb₂ ?_ ?_ fun t y ht hy he => ?_
    · rcases hhead with hh | hh <;> rw [hh] <;> decide
    · rcases hhead with hh | hh <;> rw [hh] <;> decide
    exact hy.unused w vals (le_trans ht (not_lt.1 hlt)) hw r hr
      (RecKey.bytes_inj he)
  · intro w hw
    show b₂.get (rootRecordKey w) = _
    rw [h.get_root_pruned hb₁ hb₂ w]
    simp only [Model.keepFrom]
    split
    · rfl
    · exact h.roots w hw
  · intro k r hk hhead
    exact h.rootKeys k r (get_pruned hb₁ hb₂ hk) hhead
  · intro k r hk hhead
    obtain ⟨t, x, he, hd⟩ := h.stale k r (get_pruned hb₁ hb₂ hk) hhead
    exact ⟨t, x, he, hd.old, hd.since, fun w vals hw hp => hd.unused w vals hw (hpast hp).2⟩
  · exact cacheOk_clear _ _

theorem Refines.frame_pruned : Frame C s { s with cache := s.cache.clear, backend := b₂ } where
  ck := rfl
  cipher := rfl
  mac := rfl
  history := rfl
  want := rfl
  version := le_rfl
  above w _ hnone := by
    cases hg : b₂.get (rootRecordKey w) with
    | none => rfl
    | some r => rw [get_pruned hb₁ hb₂ hg] at hnone; cases hnone
  ckpt := by
    refine .inl ⟨h.get_kept hb₁ hb₂ (by decide) (by decide) fun t y _ hy he => ?_, rfl, rfl⟩
    obtain ⟨v, hv, -⟩ := hy.old
    have hhead := RecKey.head_of_version hv
    rw [← he] at hhead
    rcases hhead with hh | hh <;> cases hh

end

/-- What a prune does from the horizon it computed. -/
theorem prune_eq (s : Store MemBackend) (b : UInt64) : Store.prune b s = (do
    if Store.horizon s.snapshotPin b > s.version then
      throw (errInvalidf "cannot prune to future version %d (current %d)"
        [.uint (Store.horizon s.snapshotPin b), .uint s.version])
    modify fun s => { s with cache := s.cache.clear }
    let stats ← pruneStale (staleEnd (Store.horizon s.snapshotPin b)) (OrdMap.size s.backend + 1) {}
    pruneRoots (recRoot :: Bytes.u64 (Store.horizon s.snapshotPin b)) (OrdMap.size s.backend + 1) stats :
      LedgerM MemBackend PruneStats) s := rfl

/-- **A prune up to the current version** sweeps the stale range, then the root range. -/
theorem Refines.prune_swept (h : Refines C W s m g) {b : UInt64} (hle : Store.horizon m.pin b ≤ m.version) :
    ∃ stats b₁ b₂, Swept s.backend b₁ [recStale] (staleEnd (Store.horizon m.pin b)) staleKeys ∧
      Swept b₁ b₂ [recRoot] (recRoot :: Bytes.u64 (Store.horizon m.pin b)) (fun e => [e]) ∧
      Store.prune b s = .ok stats { s with cache := s.cache.clear, backend := b₂ } := by
  have hprune := prune_eq s b
  rw [h.pin, h.version] at hprune
  generalize Store.horizon m.pin b = hz at hle hprune ⊢
  have h' : Refines C W { s with cache := s.cache.clear } m g := h.around ⟨_, cacheOk_clear s s.cache, rfl⟩
  obtain ⟨stats, b₁, hrun₁, hb₁⟩ := pruneStale_run (staleEnd_ne_nil hz) (OrdMap.size s.backend + 1) {}
    { s with cache := s.cache.clear } (Nat.lt_succ_self _) h'.stale_target
  obtain ⟨stats', b₂, hrun₂, hb₂⟩ := pruneRoots_run (show recRoot :: Bytes.u64 hz ≠ [] by simp)
    (OrdMap.size s.backend + 1) stats { s with cache := s.cache.clear, backend := b₁ }
    (Nat.lt_succ_of_le (OrdMap.size_le fun k v hk => hb₁.get_some hk))
  have hfull : (do
      modify fun s => { s with cache := s.cache.clear }
      let stats ← pruneStale (staleEnd hz) (OrdMap.size s.backend + 1) {}
      pruneRoots (recRoot :: Bytes.u64 hz) (OrdMap.size s.backend + 1) stats : LedgerM MemBackend PruneStats) s =
      .ok stats' { s with cache := s.cache.clear, backend := b₂ } := (run_bind_ok hrun₁).trans hrun₂
  simp only [gt_iff_lt, if_neg (not_lt.2 hle)] at hprune
  exact ⟨stats', b₁, b₂, hb₁, hb₂, hprune.trans hfull⟩

/-- The prune on a store that holds a versioned map. -/
theorem Refines.prune_run (h : Refines C W s m g) (b : UInt64) :
    (Store.prune b s).val.map (fun _ => Reply.done) = (m.prune b).1 ∧ Frame C s (Store.prune b s).state ∧
      ∃ g, Refines C W (Store.prune b s).state (m.prune b).2 g := by
  unfold Model.prune
  by_cases hlt : Store.horizon m.pin b > m.version
  · rw [prune_eq, h.pin, h.version]
    simp only [if_pos hlt]
    exact ⟨rfl, Frame.refl s, g, h⟩
  · obtain ⟨stats, b₁, b₂, hb₁, hb₂, hrun⟩ := h.prune_swept (not_lt.1 hlt)
    simp only [if_neg hlt]
    rw [hrun]
    exact ⟨rfl, h.frame_pruned hb₁ hb₂, g, h.swept hb₁ hb₂ (not_lt.1 hlt)⟩

/-- A call that runs `x` and turns its result into a reply. -/
theorem step_map {α : Type} {c : Call} {x : LedgerM MemBackend α} {r : α → Reply}
    (hc : c.exec C = (do let a ← x; pure (r a))) (s : Store MemBackend) :
    s.step C c = ((x s).val.map r, (x s).state) := by
  unfold Store.step
  rw [hc]
  cases hx : x s with
  | ok a s' => rw [run_bind_ok hx]; rfl
  | error e s' => rw [run_bind_error hx]; rfl

theorem Refines.prune (h : Refines C W s m g) (b : UInt64) : Answers C W s m (.prune b) := by
  unfold Answers
  rw [step_map (x := Store.prune b) (r := fun _ => .done) rfl]
  exact h.prune_run b

theorem Refines.retainRecent (h : Refines C W s m g) (window : UInt64) : Answers C W s m (.retainRecent window) := by
  unfold Answers
  rw [step_map (x := Store.retainRecent window) (r := fun _ => .done) rfl]
  have hrun : Store.retainRecent window s = Store.prune (if window > m.version then 0 else m.version - window) s := by
    show (if window > s.version then Store.prune 0 else Store.prune (s.version - window) : LedgerM MemBackend _) s = _
    rw [h.version]
    split <;> rfl
  rw [hrun]
  exact h.prune_run _

theorem Refines.pinVersion (h : Refines C W s m g) (version : Option UInt64) : Answers C W s m (.pinVersion version) := by
  refine ⟨rfl, ⟨rfl, rfl, rfl, rfl, rfl, le_rfl, fun _ _ h => h, .inl ⟨rfl, rfl, rfl⟩⟩, g, ?_⟩
  exact h.handle rfl rfl rfl rfl rfl rfl h.history h.head rfl h.cache rfl rfl rfl

/-- A read answers as the model does and changes nothing. -/
theorem Refines.read (h : Refines C W s m g) {α : Type} {c : Call} {x : LedgerM MemBackend α} {r : α → Reply}
    {o : Except Err α} (hc : c.exec C = (do let a ← x; pure (r a))) (hx : Yields (Around s) x o)
    (hm : m.step C s.ck c = (o.map r, m)) : Answers C W s m c := by
  unfold Answers
  have hs := around_self h.cache
  rw [step_map hc, hm, hx.val hs]
  exact ⟨rfl, (hx.state hs).frame, g, h.around (hx.state hs)⟩

end ImmutableLedger
