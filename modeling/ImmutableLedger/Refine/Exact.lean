import ImmutableLedger.Refine.Run

/-!
# No record is forgotten

`Refines` says that what the readable versions need is there. `Exact` says that nothing else is: every node and
value record belongs to the current tree, or carries a stale mark of the version right after the last tree it
belonged to. A commit marks exactly the records that leave the tree, and writes none that is not in the new one.

* `Exact.advance`: a commit keeps it.
* `Exact.prune`: a prune keeps it, and takes every record marked up to its horizon.
-/

namespace ImmutableLedger

open EStateM Machine

/-- The key of a node or value record. -/
def IsRecord (k : Bytes) : Prop := k.head? = some recNode ∨ k.head? = some recValue

/-- The readable versions are those from `hz` on, and every node and value record is of the current tree, or was
marked when the tree of some version `t`, which had it, was left. -/
structure Exact (C : Crypto) (s : Store MemBackend) (m : Model) (g : UInt64 → Snap) (hz : UInt64) : Prop where
  past : ∀ w, (m.past w).isSome ↔ hz ≤ w ∧ w ≤ m.version
  used : ∀ k r, OrdMap.get s.backend k = some r → IsRecord k → ∃ y : Record, k = y.key.bytes ∧
    (y ∈ (g m.version).tree.recs C [] ∨
      ∃ t, t < m.version ∧ y ∈ (g t).tree.recs C [] ∧ (OrdMap.get s.backend (staleRecordKey (t + 1) k)).isSome)

variable {C : Crypto} {W : Set (Hash × Bytes)} {s s' : Store MemBackend} {m m' : Model} {g g' : UInt64 → Snap}
  {hz : UInt64}

theorem IsRecord.not_stale {k : Bytes} (h : IsRecord k) : k.head? ≠ some recStale := by
  rcases h with hh | hh <;> rw [hh] <;> decide

theorem IsRecord.not_root {k : Bytes} (h : IsRecord k) : k.head? ≠ some recRoot := by
  rcases h with hh | hh <;> rw [hh] <;> decide

/-! ## Commits -/

section
variable {acc : CommitAcc} {vals : OrdMap Hash Bytes} {x : Snap} {root : Hash} {ckpt : Bytes}

/-- A node or value record a commit writes is one of the new tree. -/
theorem Built.written_mem {R : Set Record} (hB : Built C W s R acc vals x) {y : RecKey} {r : Bytes}
    (hw : written acc root ckpt y = some r) (hrec : IsRecord y.bytes) :
    ∃ z ∈ x.tree.recs C [], z.key = y := by
  cases y with
  | node nk =>
    obtain ⟨n, hn, -⟩ := Option.map_eq_some_iff.1 hw
    exact ⟨.node nk n, (hB.pend hn).2, rfl⟩
  | value vh v =>
    simp only [written] at hw
    split at hw
    · rename_i hv
      obtain ⟨cts, head, hstep⟩ := hB.step
      refine ⟨.value (ownerOf C s.ck W vh) vh v, ?_, rfl⟩
      rw [hv]
      by_contra hnot
      rw [hstep.tracks.val_out vh (under_nil _) hnot] at hw
      cases hw
    · cases hw
  | stale t tg => exact absurd rfl hrec.not_stale
  | root w => exact absurd rfl hrec.not_root
  | checkpoint => rcases hrec with hh | hh <;> cases hh

/-- A record of the old tree is in the new one, or its mark is written. -/
theorem Built.left_marked (h : Refines C W s m g) (hmax : m.version < 0xFFFFFFFFFFFFFFFF)
    (hB : Built C W s ((g m.version).tree.recs C []) acc vals x) {y : Record}
    (hy : y ∈ (g m.version).tree.recs C []) :
    y ∈ x.tree.recs C [] ∨ written acc root ckpt (.stale acc.newVersion y.key.bytes) = some [] := by
  obtain ⟨cts, head, hstep⟩ := hB.step
  obtain ⟨σ, he, -, hσ⟩ := hstep.stale
  by_cases hin : y ∈ x.tree.recs C []
  · exact .inl hin
  · right
    have hmem : y ∈ σ := (hσ y).2 ⟨hy, (hB.version_le h hmax h.cur y hy).2, hin⟩
    refine if_pos ⟨rfl, ?_⟩
    rw [he]
    exact List.mem_append_right _ (List.mem_map.2 ⟨y, hmem, rfl⟩)

/-- A stale mark outlives a commit. -/
theorem stale_kept {b : MemBackend} {t : UInt64} {target : Bytes}
    (h : (OrdMap.get b (staleRecordKey t target)).isSome) :
    (OrdMap.get (b.writeBatch (commitBatch acc root ckpt)) (staleRecordKey t target)).isSome := by
  have hget := @get_commitBatch acc root ckpt b (.stale t target)
  rw [show staleRecordKey t target = RecKey.bytes (.stale t target) from rfl] at h ⊢
  rw [hget, Option.isSome_or, h, Bool.or_true]

end

/-- **Commits keep the records exact.** -/
theorem Exact.advance (hE : Exact C s m g hz) (h : Refines C W s m g) (hmax : m.version < 0xFFFFFFFFFFFFFFFF)
    (hadv : Advance C W s m g s' m' g') : Exact C s' m' g' hz := by
  cases hadv with
  | same hb hv hp hg =>
    refine ⟨by rw [hp, hv]; exact hE.past, ?_⟩
    rw [hb, hv, hg]
    exact hE.used
  | @commit acc vals x root ckpt hB hb hv hp hg =>
    have hnv := hB.newVersion_eq h
    have hlt : m.version < m.version + 1 := lt_add_one_of_lt_max hmax
    have hkeep : ∀ t, t ≤ m.version → g' t = g t := by
      intro t ht
      rw [hg, Function.update_of_ne (lt_of_le_of_lt ht hlt).ne]
    have hnew : g' m'.version = x := by rw [hg, hv, Function.update_self]
    constructor
    · intro w
      rw [hp, hv]
      by_cases hw : w = m.version + 1
      · have hcur := (hE.past m.version).1 (by rw [h.cur]; rfl)
        rw [hw, Function.update_self]
        exact ⟨fun _ => ⟨le_trans hcur.1 hlt.le, le_rfl⟩, fun _ => rfl⟩
      · rw [Function.update_of_ne hw, hE.past w]
        exact ⟨fun hle => ⟨hle.1, le_trans hle.2 hlt.le⟩, fun hle => ⟨hle.1, le_of_le_add_one hmax hle.2 hw⟩⟩
    · intro k r hk hrec
      rw [hnew, hv, hb]
      rw [hb] at hk
      rcases exists_of_get_commitBatch s.backend hk with ⟨y, rfl, hy⟩ | hk
      · -- written by this commit
        obtain ⟨z, hz, rfl⟩ := hB.written_mem hy hrec
        exact ⟨z, rfl, .inl hz⟩
      · obtain ⟨y, rfl, hy | ⟨t, ht, hy, hmark⟩⟩ := hE.used k r hk hrec
        · refine ⟨y, rfl, ?_⟩
          rcases @Built.left_marked C W s m g acc vals x root ckpt h hmax hB y hy with hin | hmark
          · exact .inl hin
          · -- it leaves the tree now
            refine .inr ⟨m.version, hlt, by rw [hkeep _ le_rfl]; exact hy, ?_⟩
            have hget := @get_commitBatch acc root ckpt s.backend (.stale acc.newVersion y.key.bytes)
            rw [hmark, Option.some_or] at hget
            rw [← hnv]
            exact Option.isSome_iff_exists.2 ⟨_, hget⟩
        · exact ⟨y, rfl, .inr ⟨t, lt_trans ht hlt, by rw [hkeep t ht.le]; exact hy, stale_kept hmark⟩⟩

/-! ## Prunes -/

theorem lt_iff_le_of_lt_max {t h : UInt64} (hmax : t < 0xFFFFFFFFFFFFFFFF) : h < t + 1 ↔ h ≤ t := by
  have hlt : t.toNat < 2 ^ 64 - 1 := UInt64.lt_iff_toNat_lt.1 hmax
  rw [UInt64.lt_iff_toNat_lt, UInt64.le_iff_toNat_le, UInt64.toNat_add]
  simp only [UInt64.reduceToNat]
  omega

section
variable {h₀ : UInt64} {b₁ b₂ : MemBackend} (h : Refines C W s m g)
  (hb₁ : Swept s.backend b₁ [recStale] (staleEnd h₀) staleKeys)
  (hb₂ : Swept b₁ b₂ [recRoot] (recRoot :: Bytes.u64 h₀) fun e => [e])
include h hb₁ hb₂

/-- The stale entries a prune leaves: those marked after its horizon. -/
theorem Refines.get_stale_pruned (t : UInt64) (target : Bytes) :
    b₂.get (staleRecordKey t target) = if t ≤ h₀ then none else OrdMap.get s.backend (staleRecordKey t target) := by
  have hroots : b₂.get (staleRecordKey t target) = b₁.get (staleRecordKey t target) := by
    refine hb₂.get_of_not ?_
    rintro ⟨e, r, -, h1, h2, he⟩
    obtain rfl := List.mem_singleton.1 he
    obtain ⟨l, hl, -⟩ := head_of_range h1 h2
    exact absurd (congrArg List.head? hl) (by simp [staleRecordKey, recStale, recRoot])
  rw [hroots]
  by_cases ht : t ≤ h₀
  · rw [if_pos ht]
    obtain ⟨h1, h2⟩ := staleRecordKey_mem_range.2 ht
    cases hg : OrdMap.get s.backend (staleRecordKey t target) with
    | none =>
      cases hg' : b₁.get (staleRecordKey t target) with
      | none => rfl
      | some r => rw [hb₁.get_some hg'] at hg; cases hg
    | some r => exact hb₁.get_of_doomed ⟨_, r, hg, h1, h2, by simp [staleKeys]⟩
  · rw [if_neg ht]
    refine hb₁.get_of_not ?_
    rintro ⟨e, r, he, h1, h2, hk⟩
    rcases List.mem_pair.1 hk with hk | rfl
    · -- a target carries a tag of its own
      obtain ⟨t', y, rfl, hdead⟩ := h.stale e r he (head_of_stale_range h1 h2)
      rw [drop_staleRecordKey] at hk
      obtain ⟨v, hv, -⟩ := hdead.old
      have hhead := RecKey.head_of_version hv
      rw [← hk] at hhead
      rcases hhead with hh | hh <;> cases hh
    · exact ht (staleRecordKey_mem_range.1 ⟨h1, h2⟩)

omit h in
/-- A record marked up to the horizon is gone. -/
theorem get_marked_pruned {t : UInt64} {k : Bytes} (ht : t ≤ h₀)
    (hmark : (OrdMap.get s.backend (staleRecordKey t k)).isSome) : b₂.get k = none := by
  obtain ⟨r, hr⟩ := Option.isSome_iff_exists.1 hmark
  obtain ⟨h1, h2⟩ := @staleRecordKey_mem_range t h₀ k |>.2 ht
  have hnone : b₁.get k = none :=
    hb₁.get_of_doomed ⟨_, r, hr, h1, h2, by rw [staleKeys, drop_staleRecordKey]; exact List.mem_cons_self⟩
  cases hg : b₂.get k with
  | none => rfl
  | some r' => rw [hb₂.get_some hg] at hnone; cases hnone

/-- **After a prune** every node and value record is of the current tree, or of the tree of a version from the
horizon on. -/
theorem Exact.pruned (hE : Exact C s m g hz) (hmax : m.version < 0xFFFFFFFFFFFFFFFF) {k r : Bytes}
    (hk : b₂.get k = some r) (hrec : IsRecord k) : ∃ y : Record, k = y.key.bytes ∧
      (y ∈ (g m.version).tree.recs C [] ∨
        ∃ t, h₀ ≤ t ∧ t < m.version ∧ y ∈ (g t).tree.recs C [] ∧ (b₂.get (staleRecordKey (t + 1) k)).isSome) := by
  obtain ⟨y, rfl, hy | ⟨t, ht, hy, hmark⟩⟩ := hE.used k r (get_pruned hb₁ hb₂ hk) hrec
  · exact ⟨y, rfl, .inl hy⟩
  · have hlate : ¬ t + 1 ≤ h₀ := by
      intro hle
      rw [get_marked_pruned hb₁ hb₂ hle hmark] at hk
      cases hk
    have hle : h₀ ≤ t := (lt_iff_le_of_lt_max (lt_trans ht hmax)).1 (not_le.1 hlate)
    refine ⟨y, rfl, .inr ⟨t, hle, ht, hy, ?_⟩⟩
    rw [h.get_stale_pruned hb₁ hb₂, if_neg hlate]
    exact hmark

/-- **Prunes keep the records exact.** -/
theorem Exact.prune (hE : Exact C s m g hz) (hmax : m.version < 0xFFFFFFFFFFFFFFFF) {c : NodeCache} :
    Exact C { s with cache := c, backend := b₂ } (m.keepFrom h₀) g (max hz h₀) where
  past w := by
    simp only [Model.keepFrom]
    by_cases hw : w < h₀
    · rw [if_pos hw]
      exact ⟨fun hn => (by cases hn), fun hn => absurd (le_trans (le_max_right _ _) hn.1) (not_le.2 hw)⟩
    · rw [if_neg hw, hE.past w, max_le_iff]
      exact ⟨fun hn => ⟨⟨hn.1, not_lt.1 hw⟩, hn.2⟩, fun hn => ⟨hn.1.1, hn.2⟩⟩
  used k r hk hrec := by
    obtain ⟨y, he, hy | ⟨t, -, ht, hy, hmark⟩⟩ := hE.pruned h hb₁ hb₂ hmax hk hrec
    · exact ⟨y, he, .inl hy⟩
    · exact ⟨y, he, .inr ⟨t, ht, hy, hmark⟩⟩

end

/-! ## A new store -/

variable {ck : Bytes}

theorem created_exact (hC : C.GcmOk) (o : StoreOptions) (entropy : ℕ → Nonce) :
    Exact C (created C ck o entropy) (Model.init o.history) (fun _ => ⟨.nil, fun _ => none⟩) 0 := by
  obtain ⟨ckpt, e, -, hrun⟩ := @create_run C ck hC o entropy
  constructor
  · intro w
    simp only [Model.init]
    by_cases hw : w = 0
    · rw [if_pos hw, hw]
      exact ⟨fun _ => ⟨le_rfl, le_rfl⟩, fun _ => rfl⟩
    · rw [if_neg hw]
      refine ⟨fun hn => (by cases hn), fun hn => absurd ?_ hw⟩
      exact le_antisymm hn.2 hn.1
  · intro k r hk hrec
    unfold created at hk
    rw [hrun] at hk
    rcases exists_of_get_stamped hk with rfl | rfl | rfl | hk
    · exact absurd rfl hrec.not_root
    · rcases hrec with hh | hh <;> cases hh
    · -- the stamp of a new store has no root node
      have hnone : (stampBackend OrdMap.empty 0 (placeholderHash C) ckpt none).get
          (RecKey.bytes (.node (rootNodeKey 0))) = none :=
        (get_stamped_of_ne (fun he => by cases he) (fun he => by cases he)
          fun h => by cases h).trans rfl
      exact absurd (hnone.symm.trans hk) (by simp)
    · cases hk

end ImmutableLedger
