import ImmutableLedger.Tree.Apply
import ImmutableLedger.Refine.Invariant

/-!
# The records of a commit

What the atomic batch of a commit does to the in-memory backend, record by record.

* `get_commitBatch`: a record reads as the commit wrote it, or as before.
* `Refines.commit`: a commit that was computed (`Built`), once written, makes the new version of the model.
-/

namespace ImmutableLedger

/-- What a commit writes under a record key. -/
def written (acc : CommitAcc) (newRoot : Hash) (ckpt : Bytes) : RecKey → Option Bytes
  | .node nk => (acc.pending.get nk).map Node.encode
  | .value vh v => if v = acc.newVersion then acc.values.get vh else none
  | .stale t target => if t = acc.newVersion ∧ target ∈ acc.stale then some [] else none
  | .root v => if v = acc.newVersion then some newRoot.bytes else none
  | .checkpoint => some ckpt

variable {acc : CommitAcc} {newRoot : Hash} {ckpt : Bytes}

/-- The operations of a commit write what `written` says, and nothing else. -/
theorem mem_commitBatch {op : BatchOp} : op ∈ commitBatch acc newRoot ckpt ↔
    ∃ x v, written acc newRoot ckpt x = some v ∧ op = { key := RecKey.bytes x, value := v } := by
  unfold commitBatch
  simp only [List.mem_append, List.mem_map, List.mem_cons, List.not_mem_nil, or_false]
  constructor
  · rintro (((⟨e, he, rfl⟩ | ⟨e, he, rfl⟩) | ⟨t, ht, rfl⟩) | rfl | rfl)
    · exact ⟨.node e.1, e.2.encode, by simp [written, OrdMap.mem_entries.1 he], rfl⟩
    · exact ⟨.value e.1 acc.newVersion, e.2, by simp [written, OrdMap.mem_entries.1 he], rfl⟩
    · exact ⟨.stale acc.newVersion t, [], by simp [written, ht], rfl⟩
    · exact ⟨.root acc.newVersion, newRoot.bytes, by simp [written], rfl⟩
    · exact ⟨.checkpoint, ckpt, rfl, rfl⟩
  · rintro ⟨x, v, hw, rfl⟩
    cases x with
    | node nk =>
      obtain ⟨n, hn, rfl⟩ := Option.map_eq_some_iff.1 hw
      exact .inl (.inl (.inl ⟨(nk, n), OrdMap.mem_entries.2 hn, rfl⟩))
    | value vh w =>
      simp only [written] at hw
      split at hw
      · rename_i h; subst h; exact .inl (.inl (.inr ⟨(vh, v), OrdMap.mem_entries.2 hw, rfl⟩))
      · cases hw
    | stale t target =>
      simp only [written] at hw
      split at hw
      · rename_i h; cases hw; obtain ⟨rfl, h⟩ := h; exact .inl (.inr ⟨target, h, rfl⟩)
      · cases hw
    | root w =>
      simp only [written] at hw
      split at hw
      · rename_i h; subst h; cases hw; exact .inr (.inl rfl)
      · cases hw
    | checkpoint => cases hw; exact .inr (.inr rfl)

/-- **A record after a commit**: what the commit wrote, or what was there. -/
theorem get_commitBatch (b : MemBackend) (x : RecKey) :
    (b.writeBatch (commitBatch acc newRoot ckpt)).get x.bytes =
      (written acc newRoot ckpt x).or (b.get x.bytes) := by
  have hkey : ∀ op ∈ commitBatch acc newRoot ckpt, op.key = x.bytes →
      op.delete = false ∧ written acc newRoot ckpt x = some op.value := by
    intro op hop hk
    obtain ⟨y, v, hw, rfl⟩ := mem_commitBatch.1 hop
    rw [RecKey.bytes_inj hk] at hw
    exact ⟨rfl, hw⟩
  cases hw : written acc newRoot ckpt x with
  | none =>
    rw [Option.none_or]
    refine MemBackend.get_writeBatch_of_notin (fun op hop hk => ?_) b
    rw [(hkey op hop hk).2] at hw
    cases hw
  | some v =>
    rw [Option.some_or]
    refine MemBackend.get_writeBatch ⟨_, mem_commitBatch.2 ⟨x, v, hw, rfl⟩, rfl⟩ (fun op hop hk => ?_) b
    obtain ⟨hd, hv⟩ := hkey op hop hk
    rw [hd, ← hv, hw]; rfl

/-- What is in the backend after a commit was written by it, or was there. -/
theorem exists_of_get_commitBatch (b : MemBackend) {k r : Bytes}
    (h : (b.writeBatch (commitBatch acc newRoot ckpt)).get k = some r) :
    (∃ x, k = RecKey.bytes x ∧ written acc newRoot ckpt x = some r) ∨ b.get k = some r := by
  by_cases hk : ∃ op ∈ commitBatch acc newRoot ckpt, op.key = k
  · obtain ⟨op, hop, rfl⟩ := hk
    obtain ⟨x, v, hw, rfl⟩ := mem_commitBatch.1 hop
    simp only at h ⊢
    rw [get_commitBatch b x, hw, Option.some_or] at h
    cases h
    exact .inl ⟨x, rfl, hw⟩
  · right
    rwa [MemBackend.get_writeBatch_of_notin fun op hop he => hk ⟨op, hop, he⟩] at h

/-! ## A commit makes a version -/

theorem lt_add_one_of_lt_max {v : UInt64} (h : v < 0xFFFFFFFFFFFFFFFF) : v < v + 1 := by
  rw [UInt64.lt_iff_toNat_lt] at h ⊢
  rw [UInt64.toNat_add]
  simp only [UInt64.reduceToNat] at h ⊢
  omega

theorem le_of_le_add_one {v w : UInt64} (h : v < 0xFFFFFFFFFFFFFFFF) (hw : w ≤ v + 1) (hne : w ≠ v + 1) : w ≤ v := by
  rw [Ne, ← UInt64.toNat_inj] at hne
  rw [UInt64.lt_iff_toNat_lt] at h
  rw [UInt64.le_iff_toNat_le] at hw ⊢
  rw [UInt64.toNat_add] at hw hne
  simp only [UInt64.reduceToNat] at h hw hne
  omega

variable {C : Crypto}

open Classical in
/-- The path a commitment of a sealed value belongs to. -/
noncomputable def ownerOf (C : Crypto) (ck : Bytes) (W : Set (Hash × Bytes)) (vh : Hash) : Hash :=
  if h : ∃ e ∈ W, vhOf C ck e.1 e.2 = vh then h.choose.1 else Hash.zero

theorem ownerOf_vhOf {ck : Bytes} {W : Set (Hash × Bytes)} (hW : VhInj C ck W) {p : Hash} {v : Bytes}
    (hm : (p, v) ∈ W) : ownerOf C ck W (vhOf C ck p v) = p := by
  have h : ∃ e ∈ W, vhOf C ck e.1 e.2 = vhOf C ck p v := ⟨(p, v), hm, rfl⟩
  unfold ownerOf
  rw [dif_pos h]
  rw [hW h.choose_spec.1 hm h.choose_spec.2]

/-- The commitments of a map of sealed values belong to their paths. -/
theorem Content.owned {ck : Bytes} {W : Set (Hash × Bytes)} {f : Hash → Option (Hash × UInt64)}
    {vals : Hash → Option Bytes} (h : Content C ck W f vals) (hW : VhInj C ck W) {p vh : Hash} {vv : UInt64}
    (hf : f p = some (vh, vv)) : ownerOf C ck W vh = p := by
  have hv := h.vh p
  rw [hf, Option.map_some] at hv
  obtain ⟨pt, hpt, rfl⟩ := Option.map_eq_some_iff.1 hv.symm
  exact ownerOf_vhOf hW (h.mem p pt hpt)

variable {W : Set (Hash × Bytes)} {s : Store MemBackend} {m : Model} {g : UInt64 → Snap}

/-- A commit on top of the records `R`, computed but not written: the accumulator holds the records of the
tree `x`, which holds `vals`. -/
structure Built (C : Crypto) (W : Set (Hash × Bytes)) (s : Store MemBackend) (R : Set Record) (acc : CommitAcc)
    (vals : OrdMap Hash Bytes) (x : Snap) : Prop where
  version : acc.newVersion = s.version + 1
  step : ∃ cts head, Step (ownerOf C s.ck W) (Sealed C s W)
    { newVersion := acc.newVersion, insertCTs := cts, newHead := head } acc [] R (x.tree.recs C [])
  tree : TreeOk C (ownerOf C s.ck W) (Sealed C s W) s acc.newVersion [] x.f x.tree
  content : Content C s.ck W x.f vals.get

theorem Built.pend {R : Set Record} {vals : OrdMap Hash Bytes} {x : Snap} (hB : Built C W s R acc vals x)
    {nk : NodeKey} {n : Node} (hn : acc.pending.get nk = some n) :
    nk.version = acc.newVersion ∧ .node nk n ∈ x.tree.recs C [] := by
  obtain ⟨cts, head, hstep⟩ := hB.step
  have hv : nk.version = acc.newVersion := by
    by_contra hv
    rw [hstep.pend nk fun hc => hv hc.2] at hn
    cases hn
  exact ⟨hv, (hstep.tracks.pend nk n List.nil_prefix hv).1 hn⟩

theorem Record.key_version (r : Record) : r.key.version = some r.version := by cases r <;> rfl

/-- A commit leaves the records of other versions alone. -/
theorem Built.kept {R : Set Record} {vals : OrdMap Hash Bytes} {x : Snap} (hB : Built C W s R acc vals x)
    (b : MemBackend) {k : RecKey} {v : UInt64} (hv : k.version = some v) (hne : v ≠ acc.newVersion) :
    (b.writeBatch (commitBatch acc newRoot ckpt)).get k.bytes = b.get k.bytes := by
  rw [get_commitBatch b k]
  have hnone : written acc newRoot ckpt k = none := by
    cases k with
    | node nk =>
      cases hn : acc.pending.get nk with
      | none => simp [written, hn]
      | some n =>
        cases hv
        exact absurd (hB.pend hn).1 hne
    | value vh w => cases hv; simp [written, hne]
    | stale => cases hv
    | root => cases hv
    | checkpoint => cases hv
  rw [hnone, Option.none_or]

/-- Nodes put into a cache one after the other. -/
theorem node_foldl_put {nk : NodeKey} {n : Node} : ∀ (l : List (NodeKey × Node)) (c : NodeCache),
    (l.foldl (fun c e => c.put e.1 e.2) c).node nk = some n → (nk, n) ∈ l ∨ c.node nk = some n := by
  intro l
  induction l with
  | nil => intro c h; exact .inr h
  | cons e l ih =>
    intro c h
    rcases ih _ h with h | h
    · exact .inl (List.mem_cons_of_mem _ h)
    · rcases NodeCache.node_put h with ⟨rfl, rfl⟩ | h
      · exact .inl List.mem_cons_self
      · exact .inr h

section
variable {vals : OrdMap Hash Bytes} {x : Snap} {s' : Store MemBackend}

/-- The handle after a commit was written. -/
structure Written (C : Crypto) (s : Store MemBackend) (acc : CommitAcc) (vals : OrdMap Hash Bytes) (x : Snap)
    (s' : Store MemBackend) : Prop where
  ck : s'.ck = s.ck
  cipher : s'.cipher = s.cipher
  version : s'.version = acc.newVersion
  root : s'.root = contentRoot C s.ck vals
  child : s'.rootChild = x.tree.ref C
  history : s'.history = s.history
  head : s'.historyHead = acc.newHead.getD s.historyHead
  pin : s'.snapshotPin = s.snapshotPin
  mac : s'.ckptMAC = s.ckptMAC
  want : s'.wantHistory = s.wantHistory
  backend : ∃ ckpt, openCheckpoint C s ckpt = .ok (contentRoot C s.ck vals, acc.newVersion, ckptFlags s.history) ∧
    s'.backend = MemBackend.writeBatch s.backend (commitBatch acc (contentRoot C s.ck vals) ckpt)
  cache : ∃ c, CacheOk s c ∧ s'.cache = acc.pending.entries.foldl (fun c e => c.put e.1 e.2) c

variable (h : Refines C W s m g) (hmax : m.version < 0xFFFFFFFFFFFFFFFF)
  (hB : Built C W s ((g m.version).tree.recs C []) acc vals x) (hs : Written C s acc vals x s')
include h hmax hB

omit hmax in
theorem Built.newVersion_eq : acc.newVersion = m.version + 1 := by rw [hB.version, h.version]

theorem Built.lt : m.version < acc.newVersion := by
  rw [hB.newVersion_eq h]; exact lt_add_one_of_lt_max hmax

/-- The records of the current tree are of earlier versions. -/
theorem Built.version_le {w : UInt64} {vals' : OrdMap Hash Bytes} (hw : m.past w = some vals') :
    ∀ r ∈ (g w).tree.recs C [], r.version ≤ m.version ∧ r.version ≠ acc.newVersion := by
  intro r hr
  obtain ⟨hle, hx⟩ := h.snaps w vals' hw
  have hv : r.version ≤ m.version := le_trans (hx.version_le r hr) hle
  exact ⟨hv, (lt_of_le_of_lt hv (hB.lt h hmax)).ne⟩

include hs

/-- Records of the readable versions survive a commit. -/
theorem Written.snap {w : UInt64} {vals' : OrdMap Hash Bytes} (hw : m.past w = some vals') :
    SnapOk C W s' w vals' (g w) := by
  obtain ⟨hle, hx⟩ := h.snaps w vals' hw
  obtain ⟨ckpt, -, hb⟩ := hs.backend
  refine hx.transfer hs.ck hs.cipher ?_ fun r hr => ?_
  · rw [hs.version]; exact le_trans hle (hB.lt h hmax).le
  · rw [hb]
    exact hB.kept s.backend r.key_version (hB.version_le h hmax hw r hr).2

/-- The new tree is stored. -/
theorem Written.snap_new (hW : VhInj C s.ck W) (hver : ∀ v ∈ x.tree.ver, v = acc.newVersion)
    (hne : x.tree ≠ .nil → contentRoot C s.ck vals ≠ placeholderHash C) :
    SnapOk C W s' acc.newVersion vals x where
  holds := hB.tree.holds
  mono := hB.tree.mono
  ver := hver
  content := by rw [hs.ck]; exact hB.content
  root_ne := by rw [hs.ck]; exact hne
  stored := by
    obtain ⟨ckpt, -, hb⟩ := hs.backend
    obtain ⟨cts, head, hstep⟩ := hB.step
    have hsealed : ∀ p vh ct, Sealed C s W p vh ct → Sealed C s' W p vh ct := by
      rintro p vh ct ⟨pt, h1, h2, h3⟩
      exact ⟨pt, h1, by rw [hs.cipher]; exact h2, by rw [hs.ck]; exact h3⟩
    intro r hr
    by_cases hv : r.version = acc.newVersion
    · -- a record of this commit: pending node or value
      have hget : (MemBackend.writeBatch s.backend (commitBatch acc (contentRoot C s.ck vals) ckpt)).get r.key.bytes = _ :=
        get_commitBatch s.backend r.key
      cases r with
      | node nk n =>
        have hpend := (hstep.tracks.pend nk n List.nil_prefix hv).2 hr
        refine ⟨by rw [hs.version]; exact le_of_eq hv, ?_, hB.tree.holds.recs_ok hr⟩
        rw [hb]
        refine hget.trans ?_
        simp [written, hpend, Record.key]
      | value p vh v =>
        have hv' : v = acc.newVersion := hv
        subst hv'
        have ho := hB.content.owned hW (hB.tree.holds.value_mem hr)
        obtain ⟨ct, hct, hg⟩ := hstep.tracks.val_in vh (by rw [ho]; exact hr)
        rw [ho] at hg
        refine ⟨ct, ?_, hsealed _ _ _ hg⟩
        rw [hb]
        refine hget.trans ?_
        simp [written, hct, Record.key]
    · -- an older record, stored before
      have hold := hB.tree.stored r hr hv
      have hkept : (MemBackend.writeBatch s.backend (commitBatch acc (contentRoot C s.ck vals) ckpt)).get r.key.bytes = _ :=
        hB.kept s.backend r.key_version hv
      rw [← hb] at hkept
      cases r with
      | node nk n =>
        refine ⟨?_, hkept.trans hold.2.1, hold.2.2⟩
        rw [hs.version]
        exact le_trans (h.version ▸ hold.1) (hB.lt h hmax).le
      | value p vh v =>
        obtain ⟨ct, hct, hg⟩ := hold
        exact ⟨ct, hkept.trans hct, hsealed _ _ _ hg⟩

omit hs in
/-- A record dead before a commit is dead after it. -/
theorem Built.dead {t : UInt64} {k : RecKey} (hd : Dead C m g t k) {head : Hash} :
    Dead C (m.commit vals head) (Function.update g acc.newVersion x) t k where
  old := hd.old
  since := by
    show t ≤ m.version + 1
    rw [← hB.newVersion_eq h]
    exact le_trans hd.since (hB.lt h hmax).le
  unused := by
    intro w vals' ht hw y hy
    simp only [Model.commit] at hw
    rw [← hB.newVersion_eq h] at hw
    by_cases hwn : w = acc.newVersion
    · subst hwn
      rw [Function.update_self] at hy
      obtain ⟨cts, head', hstep⟩ := hB.step
      by_cases hv : y.version = acc.newVersion
      · -- the record is older than this commit
        rintro rfl
        obtain ⟨v, h1, h2⟩ := hd.old
        rw [y.key_version] at h1
        cases h1
        exact absurd (lt_of_lt_of_le h2 hd.since) (by rw [hv]; exact (hB.lt h hmax).asymm)
      · exact hd.unused m.version m.cur hd.since h.cur y (hstep.old y hy hv)
    · rw [Function.update_of_ne hwn] at hw hy
      exact hd.unused w vals' ht hw y hy

omit hs in
/-- A record that left the tree is dead from the commit on. -/
theorem Built.dead_of_stale (hW : VhInj C s.ck W) {target : Bytes} (ht : target ∈ acc.stale) {head : Hash} :
    ∃ k, target = RecKey.bytes k ∧
      Dead C (m.commit vals head) (Function.update g acc.newVersion x) acc.newVersion k := by
  obtain ⟨cts, head', hstep⟩ := hB.step
  obtain ⟨σ, he, -, hσ⟩ := hstep.stale
  rw [he, List.nil_append, List.mem_map] at ht
  obtain ⟨r, hr, rfl⟩ := ht
  obtain ⟨hrm, hrv, hrn⟩ := (hσ r).1 hr
  have hcur := h.snap_cur
  refine ⟨r.key, rfl, ⟨r.version, r.key_version, ?_⟩, ?_, ?_⟩
  · exact lt_of_le_of_lt (hB.version_le h hmax h.cur r hrm).1 (hB.lt h hmax)
  · exact (hB.newVersion_eq h).le
  · intro w vals' hle hw y hy hk
    simp only [Model.commit] at hw
    rw [← hB.newVersion_eq h] at hw
    by_cases hwn : w = acc.newVersion
    · subst hwn
      rw [Function.update_self] at hy
      -- an older record of the new tree is one of the old tree, where keys are distinct
      have hyv : y.version ≠ acc.newVersion := by
        have := congrArg RecKey.version hk
        rw [y.key_version, r.key_version] at this
        rw [Option.some.inj this]
        exact hrv
      have hyR := hstep.old y hy hyv
      rw [hcur.holds.key_inj (fun p vh vv => hcur.content.owned hW) hyR hrm hk] at hy
      exact hrn hy
    · rw [Function.update_of_ne hwn] at hw
      exact absurd (le_trans hle (h.snaps w vals' hw).1) (not_le.2 (hB.lt h hmax))

/-- **A commit makes a version.** -/
theorem Refines.commit (hW : VhInj C s.ck W) (hver : ∀ v ∈ x.tree.ver, v = acc.newVersion)
    (hne : x.tree ≠ .nil → contentRoot C s.ck vals ≠ placeholderHash C) :
    Refines C W s' (m.commit vals (acc.newHead.getD m.head)) (Function.update g acc.newVersion x) := by
  obtain ⟨ckpt, -, hb⟩ := hs.backend
  obtain ⟨c, hc, hcache⟩ := hs.cache
  have hnv := hB.newVersion_eq h
  have hget : ∀ k : RecKey, OrdMap.get s'.backend k.bytes =
      (written acc (contentRoot C s.ck vals) ckpt k).or (OrdMap.get s.backend k.bytes) := fun k => by
    rw [hb]; exact get_commitBatch s.backend k
  refine ⟨?_, ?_, ?_, ?_, ?_, ?_, ?_, ?_, ?_, ?_, ?_, ?_⟩
  · rw [hs.version, hnv]; rfl
  · rw [hs.root, hs.ck]; rfl
  · rw [hs.child]
    show _ = (Function.update g acc.newVersion x (m.version + 1)).tree.ref C
    rw [← hnv, Function.update_self]
  · rw [hs.history]; exact h.history
  · rw [hs.head, h.head]; rfl
  · rw [hs.pin]; exact h.pin
  · simp [Model.commit]
  · intro w vals' hw
    simp only [Model.commit] at hw ⊢
    rw [← hnv] at hw ⊢
    by_cases hwn : w = acc.newVersion
    · subst hwn
      rw [Function.update_self] at hw ⊢
      cases hw
      exact ⟨le_rfl, hs.snap_new h hmax hB hW hver hne⟩
    · rw [Function.update_of_ne hwn] at hw ⊢
      exact ⟨le_trans (h.snaps w vals' hw).1 (hB.lt h hmax).le, hs.snap h hmax hB hw⟩
  · intro w hw
    rw [show rootRecordKey w = RecKey.bytes (.root w) from rfl, hget (.root w)]
    simp only [Model.commit, written] at hw ⊢
    by_cases hwn : w = m.version + 1
    · rw [if_pos (hwn.trans hnv.symm), hwn, Function.update_self, hs.ck]; rfl
    · rw [if_neg (fun he => hwn (he.trans hnv)), Function.update_of_ne hwn, Option.none_or, hs.ck]
      exact h.roots w (le_of_le_add_one hmax hw hwn)
  · intro k r hk hhead
    rw [hb] at hk
    rcases exists_of_get_commitBatch s.backend hk with ⟨y, rfl, hy⟩ | hk
    · cases y with
      | root w => exact ⟨w, rfl⟩
      | node nk => cases hhead
      | value vh v => cases hhead
      | stale t tg => cases hhead
      | checkpoint => cases hhead
    · exact h.rootKeys k r hk hhead
  · intro k r hk hhead
    rw [hb] at hk
    rcases exists_of_get_commitBatch s.backend hk with ⟨y, rfl, hy⟩ | hk
    · cases y with
      | stale t tg =>
        simp only [written] at hy
        split at hy
        · rename_i hst
          obtain ⟨rfl, htg⟩ := hst
          obtain ⟨k, rfl, hd⟩ := hB.dead_of_stale h hmax hW htg
          exact ⟨acc.newVersion, k, rfl, hd⟩
        · cases hy
      | root w => cases hhead
      | node nk => cases hhead
      | value vh v => cases hhead
      | checkpoint => cases hhead
    · obtain ⟨t, y, rfl, hd⟩ := h.stale k r hk hhead
      exact ⟨t, y, rfl, hB.dead h hmax hd⟩
  · intro nk n hn
    rw [hcache] at hn
    rw [hs.version]
    rcases node_foldl_put _ _ hn with hn | hn
    · have hp := OrdMap.mem_entries.1 hn
      obtain ⟨hv, hmem⟩ := hB.pend hp
      refine ⟨hv.le, n.encode, ?_, decodeNode_encode (hB.tree.holds.recs_ok hmem)⟩
      rw [show nodeRecordKey nk = RecKey.bytes (.node nk) from rfl, hget (.node nk)]
      simp [written, hp]
    · obtain ⟨hv, rec, hrec, hdec⟩ := hc nk n hn
      rw [h.version] at hv
      refine ⟨le_trans hv (hB.lt h hmax).le, rec, ?_, hdec⟩
      rw [hb, ← hrec]
      exact hB.kept s.backend (k := .node nk) rfl (lt_of_le_of_lt hv (hB.lt h hmax)).ne

end

end ImmutableLedger
