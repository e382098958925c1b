import ImmutableLedger.Refine.Prune

/-!
# Stamping a version

`StampVersion` gives the current map a later version: it writes the root record and the checkpoint of that
version, and a copy of the root node under it. The tree of the new version is the current one with another
version at its top (`Tree.stamp`); everything below is shared.

The versions between the old and the new one have no root record, as long as none was left above the
current version (`Fresh`), which holds on a handle from its creation on.
-/

namespace ImmutableLedger

open EStateM

/-- No root record lies above the current version. -/
def Fresh (s : Store MemBackend) : Prop := ∀ w, s.version < w → OrdMap.get s.backend (rootRecordKey w) = none

variable {C : Crypto} {W : Set (Hash × Bytes)} {s : Store MemBackend} {m : Model} {g : UInt64 → Snap}

theorem Frame.fresh {s' : Store MemBackend} (hF : Frame C s s') (h : Fresh s) : Fresh s' :=
  fun w hw => hF.above w hw (h w (lt_of_le_of_lt hF.version hw))

namespace Tree

/-- The tree with another version at its top. -/
def stamp (v : UInt64) : Tree → Tree
  | nil => nil
  | leaf _ l => leaf v l
  | node _ ch => node v ch

variable {v : UInt64} {t : Tree} {f : Hash → Option (Hash × UInt64)} {pfx : List Nib}

theorem ref_stamp : (t.stamp v).ref C = (t.ref C).map fun c => ⟨v, c.hash, c.isLeaf⟩ := by cases t <;> rfl

theorem Holds.stamp (h : t.Holds f pfx) : (t.stamp v).Holds f pfx := by cases t <;> exact h

theorem ver_stamp : ∀ w ∈ (t.stamp v).ver, w = v := by
  intro w hw
  cases t with
  | nil => cases hw
  | leaf => cases hw; rfl
  | node => cases hw; rfl

theorem Mono.stamp (h : t.Mono) (hv : ∀ w ∈ t.ver, w ≤ v) : (t.stamp v).Mono := by
  cases t with
  | nil => trivial
  | leaf w l => exact le_trans h (hv w rfl)
  | node w ch => exact fun i => ⟨(h i).1, fun u hu => le_trans ((h i).2 u hu) (hv w rfl)⟩

/-- The records of a stamped tree: the top node under the new version, and the records below it. -/
theorem mem_recs_stamp (h : t.Holds f []) {r : Record} (hr : r ∈ (t.stamp v).recs C []) :
    (∃ n, t.top C = some n ∧ r = .node (rootNodeKey v) n) ∨
      r ∈ t.recs C [] ∧ ∀ w, r.key ≠ .node (rootNodeKey w) := by
  cases t with
  | nil => cases hr
  | leaf w l =>
    rcases hr with rfl | rfl
    · exact .inl ⟨_, rfl, rfl⟩
    · exact .inr ⟨.inr rfl, fun w he => by cases he⟩
  | node w ch =>
    rcases hr with rfl | ⟨i, hi⟩
    · exact .inl ⟨_, rfl, rfl⟩
    · refine .inr ⟨.inr ⟨i, hi⟩, fun w he => ?_⟩
      have hin := recs_in (h.2 i) r hi
      cases r with
      | value => cases he
      | node nk n =>
        cases he
        exact absurd hin (not_snoc_isPrefix [] i)

end Tree

/-! ## The records of a stamp -/

/-- The backend after a stamp. -/
def stampBackend (b : MemBackend) (version : UInt64) (root : Hash) (ckpt : Bytes) (top : Option Node) : MemBackend :=
  b.writeBatch ([{ key := rootRecordKey version, value := root.bytes }, { key := checkpointRecordKey, value := ckpt }] ++
    top.toList.map fun n => { key := nodeRecordKey (rootNodeKey version), value := n.encode })

section
variable {b : MemBackend} {version : UInt64} {root : Hash} {ckpt : Bytes} {top : Option Node}

theorem mem_stampBatch {op : BatchOp} (hop : op ∈
    ([{ key := rootRecordKey version, value := root.bytes }, { key := checkpointRecordKey, value := ckpt }] ++
    top.toList.map fun n => { key := nodeRecordKey (rootNodeKey version), value := n.encode } : List BatchOp)) :
    op.delete = false ∧ (op.key = RecKey.bytes (.root version) ∧ op.value = root.bytes ∨
      op.key = RecKey.bytes .checkpoint ∧ op.value = ckpt ∨
      op.key = RecKey.bytes (.node (rootNodeKey version)) ∧ ∃ n, top = some n ∧ op.value = n.encode) := by
  rcases List.mem_append.1 hop with hop | hop
  · rcases List.mem_pair.1 hop with rfl | rfl
    · exact ⟨rfl, .inl ⟨rfl, rfl⟩⟩
    · exact ⟨rfl, .inr (.inl ⟨rfl, rfl⟩)⟩
  · obtain ⟨n, hn, rfl⟩ := List.mem_map.1 hop
    exact ⟨rfl, .inr (.inr ⟨rfl, n, by simpa using hn, rfl⟩)⟩

theorem get_stamped_of_ne {x : RecKey} (h1 : x ≠ .root version) (h2 : x ≠ .checkpoint)
    (h3 : top.isSome → x ≠ .node (rootNodeKey version)) : (stampBackend b version root ckpt top).get x.bytes = b.get x.bytes := by
  refine MemBackend.get_writeBatch_of_notin (fun op hop hk => ?_) b
  obtain ⟨-, hop⟩ := mem_stampBatch hop
  rcases hop with ⟨hop, -⟩ | ⟨hop, -⟩ | ⟨hop, n, hn, -⟩ <;> rw [hop] at hk
  · exact h1 (RecKey.bytes_inj (b := .root version) hk.symm)
  · exact h2 (RecKey.bytes_inj (b := .checkpoint) hk.symm)
  · exact h3 (by rw [hn]; rfl) (RecKey.bytes_inj (b := .node (rootNodeKey version)) hk.symm)

theorem get_stamped_root : (stampBackend b version root ckpt top).get (rootRecordKey version) = some root.bytes := by
  refine MemBackend.get_writeBatch ⟨_, List.mem_append_left _ List.mem_cons_self, rfl⟩ (fun op hop hk => ?_) b
  obtain ⟨hd, hop⟩ := mem_stampBatch hop
  rw [hd]
  rcases hop with ⟨-, hv⟩ | ⟨hop, -⟩ | ⟨hop, -⟩
  · rw [hv]; rfl
  · rw [hk] at hop; cases hop
  · rw [hk] at hop; cases hop

theorem get_stamped_checkpoint : (stampBackend b version root ckpt top).get checkpointRecordKey = some ckpt := by
  refine MemBackend.get_writeBatch ⟨_, List.mem_append_left _ (List.mem_cons_of_mem _ List.mem_cons_self), rfl⟩
    (fun op hop hk => ?_) b
  obtain ⟨hd, hop⟩ := mem_stampBatch hop
  rw [hd]
  rcases hop with ⟨hop, -⟩ | ⟨-, hv⟩ | ⟨hop, -⟩
  · rw [hk] at hop; cases hop
  · rw [hv]; rfl
  · rw [hk] at hop; cases hop

theorem get_stamped_node {n : Node} (hn : top = some n) :
    (stampBackend b version root ckpt top).get (nodeRecordKey (rootNodeKey version)) = some n.encode := by
  subst hn
  refine MemBackend.get_writeBatch ⟨{ key := nodeRecordKey (rootNodeKey version), value := n.encode }, by simp, rfl⟩
    (fun op hop hk => ?_) b
  obtain ⟨hd, hop⟩ := mem_stampBatch hop
  rw [hd]
  rcases hop with ⟨hop, -⟩ | ⟨hop, -⟩ | ⟨-, n', hn', hv⟩
  · rw [hk] at hop; cases hop
  · rw [hk] at hop; cases hop
  · cases hn'; rw [hv]; rfl

/-- What is in the backend after a stamp was written by it, or was there. -/
theorem exists_of_get_stamped {k r : Bytes} (h : (stampBackend b version root ckpt top).get k = some r) :
    k = rootRecordKey version ∨ k = checkpointRecordKey ∨ k = nodeRecordKey (rootNodeKey version) ∨
      b.get k = some r := by
  by_cases hk : k = rootRecordKey version ∨ k = checkpointRecordKey ∨ k = nodeRecordKey (rootNodeKey version)
  · tauto
  · refine .inr (.inr (.inr ?_))
    rwa [stampBackend, MemBackend.get_writeBatch_of_notin fun op hop he => hk ?_] at h
    obtain ⟨-, hop⟩ := mem_stampBatch hop
    rw [he] at hop
    rcases hop with ⟨hop, -⟩ | ⟨hop, -⟩ | ⟨hop, -⟩
    · exact .inl hop
    · exact .inr (.inl hop)
    · exact .inr (.inr hop)

end

/-! ## The stamped store -/

section
variable (h : Refines C W s m g) {version : UInt64} (hle : m.version ≤ version) {ckpt : Bytes}
include h hle

/-- The records of the versions so far are the same after a stamp. -/
theorem Refines.get_stamped_old {x : RecKey} {v : UInt64} (hv : x.version = some v) (hvm : v ≤ m.version) :
    (stampBackend s.backend version (m.root C s.ck) ckpt ((g m.version).tree.top C)).get x.bytes =
      OrdMap.get s.backend x.bytes := by
  have hcur := h.snap_cur
  by_cases hn : x = .node (rootNodeKey version) ∧ (g m.version).tree ≠ .nil
  · -- the root node of the current version, written again
    obtain ⟨rfl, hnil⟩ := hn
    cases hv
    obtain rfl : version = m.version := le_antisymm hvm hle
    obtain ⟨v, n, htop, hver, hmem, -⟩ := Tree.exists_top (C := C) hnil
    obtain rfl := hcur.ver v hver
    exact (get_stamped_node htop).trans (hcur.stored _ hmem).2.1.symm
  · refine get_stamped_of_ne ?_ ?_ fun htop he => hn ⟨he, fun hnil => ?_⟩
    · rintro rfl; cases hv
    · rintro rfl; cases hv
    · rw [hnil] at htop; cases htop

variable {s' : Store MemBackend} (hck : s'.ck = s.ck) (hcipher : s'.cipher = s.cipher) (hversion : s'.version = version)
  (hb : s'.backend = stampBackend s.backend version (m.root C s.ck) ckpt ((g m.version).tree.top C))
include hck hcipher hversion hb

/-- The tree of the stamped version is stored. -/
theorem Refines.snap_stamped :
    SnapOk C W s' version m.cur ⟨(g m.version).tree.stamp version, (g m.version).f⟩ where
  holds := h.snap_cur.holds.stamp
  mono := h.snap_cur.mono.stamp fun w hw => by rw [h.snap_cur.ver w hw]; exact hle
  ver := Tree.ver_stamp
  content := by rw [hck]; exact h.snap_cur.content
  root_ne hne := by
    rw [hck]
    exact h.snap_cur.root_ne fun hnil => hne (by simp only [hnil]; rfl)
  stored := by
    have hcur := h.snap_cur
    intro r hr
    rcases Tree.mem_recs_stamp hcur.holds hr with ⟨n, htop, rfl⟩ | ⟨hr, -⟩
    · refine ⟨by rw [hversion]; exact le_rfl, ?_, hcur.holds.stamp.recs_ok hr⟩
      rw [hb]
      exact get_stamped_node htop
    · have hv : r.version ≤ m.version := hcur.version_le r hr
      have hget : (stampBackend s.backend version (m.root C s.ck) ckpt ((g m.version).tree.top C)).get r.key.bytes = _ :=
        h.get_stamped_old hle r.key_version hv
      rw [← hb] at hget
      have hst := hcur.stored r hr
      cases r with
      | node nk n =>
        refine ⟨?_, hget.trans hst.2.1, hst.2.2⟩
        rw [hversion]; exact le_trans hv hle
      | value p vh v =>
        obtain ⟨ct, h1, pt, h2, h3, h4⟩ := hst
        exact ⟨ct, hget.trans h1, pt, h2, by rw [hcipher]; exact h3, by rw [hck]; exact h4⟩

omit hck hcipher hversion hb in
/-- A record dead before a stamp is dead after it. -/
theorem Refines.dead_stamped {t : UInt64} {x : RecKey} (hd : Dead C m g t x) :
    Dead C (m.stamp version)
      (Function.update g version ⟨(g m.version).tree.stamp version, (g m.version).f⟩) t x where
  old := hd.old
  since := le_trans hd.since hle
  unused := by
    intro w vals ht hw y hy
    simp only [Model.stamp] at hw
    by_cases hwv : w = version
    · subst hwv
      rw [Function.update_self] at hy
      rcases Tree.mem_recs_stamp h.snap_cur.holds hy with ⟨n, -, rfl⟩ | ⟨hy, -⟩
      · rintro rfl
        obtain ⟨v, hv, hlt⟩ := hd.old
        cases hv
        exact absurd (lt_of_lt_of_le hlt hd.since) (not_lt.2 hle)
      · exact hd.unused m.version m.cur hd.since h.cur y hy
    · rw [Function.update_of_ne hwv] at hw hy
      exact hd.unused w vals ht hw y hy

/-- **A stamped store holds the current map under the new version.** -/
theorem Refines.stamped (hfresh : Fresh s) (hroot : s'.root = m.root C s.ck)
    (hchild : s'.rootChild = s.rootChild.map fun c => ⟨version, c.hash, c.isLeaf⟩) (hhist : s'.history = s.history)
    (hhead : s'.historyHead = s.historyHead) (hpin : s'.snapshotPin = s.snapshotPin) (hcache : CacheOk s s'.cache) :
    Refines C W s' (m.stamp version)
      (Function.update g version ⟨(g m.version).tree.stamp version, (g m.version).f⟩) := by
  refine ⟨hversion, ?_, ?_, hhist.trans h.history, hhead.trans h.head, hpin.trans h.pin, ?_, ?_, ?_, ?_, ?_, ?_⟩
  · rw [hroot, hck]; rfl
  · rw [hchild, h.child]
    simp only [Model.stamp, Function.update_self]
    exact Tree.ref_stamp.symm
  · simp [Model.stamp]
  · intro w vals hw
    simp only [Model.stamp] at hw ⊢
    by_cases hwv : w = version
    · subst hwv
      rw [Function.update_self] at hw ⊢
      cases hw
      exact ⟨le_rfl, h.snap_stamped hle hck hcipher hversion hb⟩
    · rw [Function.update_of_ne hwv] at hw ⊢
      obtain ⟨hwm, hx⟩ := h.snaps w vals hw
      refine ⟨le_trans hwm hle, hx.transfer hck hcipher ?_ fun r hr => ?_⟩
      · rw [hversion]; exact le_trans hwm hle
      · rw [hb]
        exact h.get_stamped_old hle r.key_version
          (le_trans (hx.version_le r hr) hwm)
  · intro w hw
    simp only [Model.stamp] at hw ⊢
    rw [hb, hck]
    by_cases hwv : w = version
    · subst hwv
      rw [Function.update_self, get_stamped_root]
      rfl
    · have hget : (stampBackend s.backend version (m.root C s.ck) ckpt ((g m.version).tree.top C)).get
          (rootRecordKey w) = OrdMap.get s.backend (rootRecordKey w) := by
        refine get_stamped_of_ne (x := .root w) ?_ ?_ fun _ he => ?_
        · intro he; exact hwv (RecKey.root.inj he)
        · intro he; cases he
        · cases he
      rw [hget, Function.update_of_ne hwv]
      by_cases hwm : w ≤ m.version
      · exact h.roots w hwm
      · -- a version skipped by the stamp
        have hnone : m.past w = none := by
          cases hp : m.past w with
          | none => rfl
          | some vals => exact absurd (h.snaps w vals hp).1 hwm
        rw [hnone]
        exact hfresh w (by rw [h.version]; exact not_le.1 hwm)
  · intro k r hk hh
    rw [hb] at hk
    rcases exists_of_get_stamped hk with rfl | rfl | rfl | hk
    · exact ⟨version, rfl⟩
    · cases hh
    · cases hh
    · exact h.rootKeys k r hk hh
  · intro k r hk hh
    rw [hb] at hk
    rcases exists_of_get_stamped hk with rfl | rfl | rfl | hk
    · cases hh
    · cases hh
    · cases hh
    · obtain ⟨t, x, rfl, hd⟩ := h.stale k r hk hh
      exact ⟨t, x, rfl, h.dead_stamped hle hd⟩
  · intro nk n hn
    obtain ⟨hv, rec, hrec, hdec⟩ := hcache nk n hn
    rw [h.version] at hv
    refine ⟨by rw [hversion]; exact le_trans hv hle, rec, ?_, hdec⟩
    rw [hb, ← hrec]
    exact h.get_stamped_old hle (x := .node nk) rfl hv

end

section
variable (C : Crypto) {β : Type} [Backend β]

/-- The first half of a stamp: the checkpoint is sealed and the root node loaded. -/
def stampLoad (version : UInt64) : LedgerM β (Bytes × Option (Child × Node)) := do
  let s ← MonadState.get
  if version < s.version then
    throw (errInvalidf "cannot stamp version %d below current %d" [.uint version, .uint s.version])
  let ckpt ← sealCheckpoint C s.root version
  match s.rootChild with
  | none => pure (ckpt, none)
  | some c =>
    let n ← loadNode C (rootNodeKey c.version) c.hash
    pure (ckpt, some (c, n))

/-- The second half: the root reference moves, the records are written, then the version moves. -/
def stampTail (version : UInt64) (root : Hash) : Bytes × Option (Child × Node) → LedgerM β Unit
  | (ckpt, none) => do
    backendWriteBatch errBackend
      [{ key := rootRecordKey version, value := root.bytes }, { key := checkpointRecordKey, value := ckpt }]
    modify fun s => { s with version := version }
  | (ckpt, some (c, n)) => do
    modify fun s => { s with rootChild := some ⟨version, c.hash, c.isLeaf⟩ }
    backendWriteBatch errBackend
      ([{ key := rootRecordKey version, value := root.bytes }, { key := checkpointRecordKey, value := ckpt }] ++
        [{ key := nodeRecordKey (rootNodeKey version), value := n.encode }])
    modify fun s => { s with version := version }

/-- **A stamp is its two halves.** -/
theorem stampVersion_split (version : UInt64) (t : Store β) :
    Store.stampVersion C version t = (stampLoad C version >>= stampTail version t.root) t := by
  unfold Store.stampVersion stampLoad
  rw [run_get_bind, bind_assoc, run_get_bind]
  by_cases hlt : version < t.version
  · rw [if_pos hlt, if_pos hlt]
    rfl
  · rw [if_neg hlt, if_neg hlt]
    show (_ >>= _ : LedgerM β Unit) t = ((_ >>= _ : LedgerM β _) >>= _) t
    rw [bind_assoc]
    refine congrFun (congrArg _ (funext fun ckpt => ?_)) t
    cases t.rootChild with
    | none => rfl
    | some c =>
      show (_ >>= _ : LedgerM β Unit) = ((_ >>= _ : LedgerM β _) >>= _)
      rw [bind_assoc]
      rfl

end

/-- The handle after a stamp. -/
theorem Refines.stampVersion_run (h : Refines C W s m g) (hC : C.GcmOk) {version : UInt64} (hle : m.version ≤ version) :
    ∃ ckpt c e, CacheOk s c ∧ openCheckpoint C s ckpt = .ok (s.root, version, ckptFlags s.history) ∧
      Store.stampVersion C version s = .ok () { s with
        backend := stampBackend s.backend version (m.root C s.ck) ckpt ((g m.version).tree.top C)
        version := version
        rootChild := s.rootChild.map fun c => ⟨version, c.hash, c.isLeaf⟩
        cache := c
        entropy := e } := by
  obtain ⟨ckpt, e, hseal, hopen⟩ := sealCheckpoint_run hC s.root version s
  have hcur := h.snap_cur
  have hlt : ¬ version < s.version := by rw [h.version]; exact not_lt.2 hle
  rw [stampVersion_split]
  by_cases hnil : (g m.version).tree = .nil
  · have hchild : s.rootChild = none := by rw [h.child, hnil]; rfl
    have hhalf : stampLoad C version s = .ok (ckpt, none) { s with entropy := e } := by
      refine (congrFun (if_neg hlt) s).trans ((run_bind_ok hseal).trans ?_)
      rw [hchild]
      rfl
    refine ⟨ckpt, s.cache, e, h.cache, hopen, ?_⟩
    rw [run_bind_ok hhalf, hnil, hchild, ← h.root]
    rfl
  · obtain ⟨v, n, htop, hver, hmem, href⟩ := Tree.exists_top (C := C) hnil
    have hchild : s.rootChild = some ⟨v, n.hash C, n.isLeaf⟩ := h.child.trans href
    have hload := yields_loadNode (s := { s with entropy := e }) (G := Sealed C s W) (hcur.stored _ hmem) (rfl : n.hash C = n.hash C)
    obtain ⟨_, ⟨c, hc, rfl⟩, hload⟩ := hload { s with entropy := e } ⟨s.cache, h.cache, rfl⟩
    have hhalf : stampLoad C version s = .ok (ckpt, some (⟨v, n.hash C, n.isLeaf⟩, n)) { s with cache := c, entropy := e } := by
      refine (congrFun (if_neg hlt) s).trans ((run_bind_ok hseal).trans ?_)
      rw [hchild] at hload ⊢
      exact run_bind_ok hload
    refine ⟨ckpt, c, e, hc, hopen, ?_⟩
    rw [run_bind_ok hhalf, htop, hchild, ← h.root]
    rfl

/-- **`StampVersion` answers as the model does.** -/
theorem Refines.stampVersion (h : Refines C W s m g) (hC : C.GcmOk) (hfresh : Fresh s) (version : UInt64) :
    Answers C W s m (.stampVersion version) := by
  unfold Answers
  rw [step_map (x := Store.stampVersion C version) (r := fun _ => .done) rfl]
  simp only [Model.step, Model.stampVersion]
  by_cases hlt : version < m.version
  · have hrun : Store.stampVersion C version s = .error
        (errInvalidf "cannot stamp version %d below current %d" [.uint version, .uint s.version]) s := by
      show (if version < s.version then _ else _ : LedgerM MemBackend Unit) s = _
      rw [h.version, if_pos hlt]
      rfl
    rw [hrun, if_pos hlt, h.version]
    exact ⟨rfl, Frame.refl s, g, h⟩
  · have hle := not_lt.1 hlt
    obtain ⟨ckpt, c, e, hc, hopen, hrun⟩ := h.stampVersion_run hC hle
    rw [hrun, if_neg hlt]
    refine ⟨rfl, ⟨rfl, rfl, rfl, rfl, rfl, ?_, fun w hw hnone => ?_, .inr ⟨ckpt, get_stamped_checkpoint, hopen⟩⟩, _,
      h.stamped hle rfl rfl rfl rfl hfresh h.root rfl rfl rfl rfl hc⟩
    · show s.version ≤ version
      rw [h.version]; exact hle
    · refine (get_stamped_of_ne (x := .root w) ?_ ?_ fun _ he => ?_).trans hnone
      · rintro he; exact absurd (RecKey.root.inj he) hw.ne'
      · intro he; cases he
      · cases he

/-! ## Every call -/

/-- The calls that only read. -/
def Call.IsRead : Call → Prop
  | .get _ | .getAt _ _ | .prove _ | .proveAt _ _ => True
  | _ => False

/-- **Every read answers as the model does.** -/
theorem Refines.answers_read (h : Refines C W s m g) (hW : VhInj C s.ck W) {c : Call} (hc : c.IsRead) :
    Answers C W s m c := by
  cases c with
  | get key => exact h.read (r := .value) rfl (h.yields_get hW key) rfl
  | getAt version key =>
    refine h.read (r := .value) rfl (h.yields_getAt hW version key) ?_
    show (_, m) = _
    cases m.mapAt version <;> rfl
  | prove key => exact h.read (r := .proof) rfl (h.yields_prove key) rfl
  | proveAt version key =>
    refine h.read (r := .proof) rfl (h.yields_proveAt version key) ?_
    show (_, m) = _
    cases m.mapAt version <;> rfl
  | _ => exact hc.elim

/-- **Every call answers as the model does**, and leaves a store that holds the model's next state. -/
theorem Refines.answers (h : Refines C W s m g) (hC : C.GcmOk) (hW : VhInj C s.ck W) (hfresh : Fresh s) {c : Call}
    (hok : StepOk C s.ck W m c) : Answers C W s m c := by
  cases c with
  | putBatch ops => exact (h.putBatch hC hW hok).answers
  | restoreLeaves leaves => exact (h.restoreLeaves hC hW hok).answers
  | stampVersion version => exact h.stampVersion hC hfresh version
  | pinVersion version => exact h.pinVersion version
  | prune b => exact h.prune b
  | retainRecent window => exact h.retainRecent window
  | _ => exact h.answers_read hW trivial

end ImmutableLedger
