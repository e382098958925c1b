import ImmutableLedger.Refine.Exact
import ImmutableLedger.Proof.Retention

/-!
# What a prune erases

After a prune the backend holds nothing below the horizon: the node and value records are those that can be
reached from the root of a version from the horizon on, and no others.

* `Reachable`: the records reached from the root record of a version, by following node records.
* `Refines.reachable_iff`: these are the records of the tree of the version.
* `prune_erases`: what is left after a prune.
-/

namespace ImmutableLedger

open EStateM Machine

variable {C : Crypto} {ck : Bytes} {W : Set (Hash × Bytes)} {s : Store MemBackend} {m : Model} {g : UInt64 → Snap}

/-! ## Reachability -/

/-- The records of a backend reached from the root of version `w`: its root node, unless the root is that of the
empty tree, the children of a reached node, and the value of a reached leaf. -/
inductive Reachable (C : Crypto) (b : MemBackend) (w : UInt64) : RecKey → Prop
  | root {r : Bytes} (hr : OrdMap.get b (rootRecordKey w) = some r) (hne : r ≠ (placeholderHash C).bytes) :
      Reachable C b w (.node (rootNodeKey w))
  | child {nk : NodeKey} {rec : Bytes} {ch : Children} {i : Nib} {c : Child} (h : Reachable C b w (.node nk))
      (hrec : OrdMap.get b (nodeRecordKey nk) = some rec) (hdec : decodeNode rec = .ok (.internal ch))
      (hc : ch i = some c) : Reachable C b w (.node ⟨c.version, nk.pfx ++ [i]⟩)
  | value {nk : NodeKey} {rec : Bytes} {l : LeafNode} (h : Reachable C b w (.node nk))
      (hrec : OrdMap.get b (nodeRecordKey nk) = some rec) (hdec : decodeNode rec = .ok (.leaf l)) :
      Reachable C b w (.value l.vh l.valueVersion)

namespace Tree

/-- The top node of a subtree that is not empty. -/
theorem mem_recs_top {t : Tree} {c : Child} (h : t.ref C = some c) (pfx : List Nib) :
    ∃ n, .node ⟨c.version, pfx⟩ n ∈ t.recs C pfx := by
  cases t with
  | nil => cases h
  | leaf v l | node v ch => cases h; exact ⟨_, .inl rfl⟩

/-- The children of an internal record are records of the tree. -/
theorem mem_recs_child {t : Tree} {nk : NodeKey} {ch : Children} {i : Nib} {c : Child} (hc : ch i = some c) :
    ∀ {pfx : List Nib}, .node nk (.internal ch) ∈ t.recs C pfx →
      ∃ n, .node ⟨c.version, nk.pfx ++ [i]⟩ n ∈ t.recs C pfx := by
  induction t with
  | nil => intro pfx h; cases h
  | leaf v l =>
    intro pfx h
    rcases h with h | h
    · cases h
    · cases h
  | node v sub ih =>
    intro pfx h
    rcases h with h | ⟨j, h⟩
    · cases h
      obtain ⟨n, hn⟩ := mem_recs_top hc (pfx ++ [i])
      exact ⟨n, .inr ⟨i, hn⟩⟩
    · obtain ⟨n, hn⟩ := ih j h
      exact ⟨n, .inr ⟨j, hn⟩⟩

/-- The value of a leaf record is a record of the tree. -/
theorem mem_recs_value {t : Tree} {nk : NodeKey} {l : LeafNode} : ∀ {pfx : List Nib},
    .node nk (.leaf l) ∈ t.recs C pfx → .value l.path l.vh l.valueVersion ∈ t.recs C pfx := by
  induction t with
  | nil => intro pfx h; cases h
  | leaf v l' =>
    intro pfx h
    rcases h with h | h
    · cases h
      exact .inr rfl
    · cases h
  | node v sub ih =>
    intro pfx h
    rcases h with h | ⟨j, h⟩
    · cases h
    · exact .inr ⟨j, ih j h⟩

end Tree

variable {G : Hash → Hash → Bytes → Prop}

section
variable {w : UInt64} {vals : OrdMap Hash Bytes} {x : Snap}

/-- A stored node record decodes to its node. -/
theorem decode_stored {nk : NodeKey} {n n' : Node} {rec : Bytes}
    (hst : Stored G s (.node nk n)) (hrec : OrdMap.get s.backend (nodeRecordKey nk) = some rec)
    (hdec : decodeNode rec = .ok n') : n' = n := by
  rw [hst.2.1] at hrec
  cases hrec
  rw [decodeNode_encode hst.2.2] at hdec
  cases hdec
  rfl

/-- What is reached belongs to the tree. -/
theorem SnapOk.mem_of_reachable (hx : SnapOk C W s w vals x)
    (hroot : OrdMap.get s.backend (rootRecordKey w) = some (contentRoot C s.ck vals).bytes) {k : RecKey}
    (h : Reachable C s.backend w k) : ∃ y ∈ x.tree.recs C [], y.key = k := by
  induction h with
  | root hr hne =>
    rw [hroot] at hr
    cases hr
    have hnil : x.tree ≠ .nil := by
      intro he
      have := hx.rootHash
      rw [he] at this
      exact hne (congrArg Hash.bytes this.symm)
    obtain ⟨v, n, -, hv, hmem, -⟩ := Tree.exists_top (C := C) hnil
    obtain rfl := hx.ver v hv
    exact ⟨_, hmem, rfl⟩
  | child _ hrec hdec hc ih =>
    obtain ⟨y, hy, hk⟩ := ih
    cases y with
    | value p vh v => cases hk
    | node nk n =>
      cases hk
      obtain rfl := decode_stored (hx.stored _ hy) hrec hdec
      obtain ⟨n, hn⟩ := Tree.mem_recs_child hc hy
      exact ⟨_, hn, rfl⟩
  | value _ hrec hdec ih =>
    obtain ⟨y, hy, hk⟩ := ih
    cases y with
    | value p vh v => cases hk
    | node nk n =>
      cases hk
      obtain rfl := decode_stored (hx.stored _ hy) hrec hdec
      exact ⟨_, Tree.mem_recs_value hy, rfl⟩

/-- The records of a subtree are reached from its top. -/
theorem reachable_of_top {t : Tree} : ∀ {pfx : List Nib},
    (∀ y ∈ t.recs C pfx, Stored G s y) → (∀ c, t.ref C = some c → Reachable C s.backend w (.node ⟨c.version, pfx⟩)) →
    ∀ y ∈ t.recs C pfx, Reachable C s.backend w y.key := by
  induction t with
  | nil => intro pfx _ _ y hy; cases hy
  | leaf v l =>
    intro pfx hst htop y hy
    have hnode := htop _ rfl
    have hleaf := hst (.node ⟨v, pfx⟩ (.leaf l)) (.inl rfl)
    rcases hy with rfl | rfl
    · exact hnode
    · exact .value hnode hleaf.2.1 (decodeNode_encode hleaf.2.2)
  | node v ch ih =>
    intro pfx hst htop y hy
    have hnode := htop _ rfl
    have hin := hst (.node ⟨v, pfx⟩ (.internal fun i => (ch i).ref C)) (.inl rfl)
    rcases hy with rfl | ⟨i, hy⟩
    · exact hnode
    · refine ih i (fun z hz => hst z (.inr ⟨i, hz⟩)) (fun c hc => ?_) y hy
      exact .child hnode hin.2.1 (decodeNode_encode hin.2.2) hc

end

/-- **What is reached from a readable version** is its tree. -/
theorem Refines.reachable_iff (h : Refines C W s m g) {w : UInt64} {vals : OrdMap Hash Bytes} (hw : m.past w = some vals)
    {k : RecKey} : Reachable C s.backend w k ↔ ∃ y ∈ (g w).tree.recs C [], y.key = k := by
  obtain ⟨hle, hx⟩ := h.snaps w vals hw
  have hroot := h.roots w hle
  rw [hw, Option.map_some] at hroot
  refine ⟨fun hk => hx.mem_of_reachable hroot hk, ?_⟩
  rintro ⟨y, hy, rfl⟩
  refine reachable_of_top hx.stored (fun c hc => ?_) y hy
  have hne : (g w).tree ≠ .nil := by
    intro he
    rw [he] at hc
    cases hc
  obtain rfl := hx.ver c.version (Tree.ref_version hc)
  exact .root hroot fun he => hx.root_ne hne (Hash.ext he)

/-! ## Runs of commits and prunes -/

/-- Commits and prunes. -/
def Call.IsWrite : Call → Prop
  | .putBatch _ | .restoreLeaves _ | .prune _ => True
  | _ => False

theorem Model.pin_commitLinked (m : Model) (vals : OrdMap Hash Bytes) : (m.commitLinked C ck vals).pin = m.pin := by
  unfold commitLinked
  split <;> rfl

theorem Model.pin_step {c : Call} (hc : c.IsWrite) : (m.step C ck c).2.pin = m.pin := by
  cases c with
  | putBatch ops =>
    rcases @Model.putBatch_cases C ck m ops with h | h
    · exact congrArg Model.pin h
    · exact (congrArg Model.pin h).trans (m.pin_commitLinked _)
  | restoreLeaves leaves =>
    simp only [step, restoreLeaves]
    split <;> rfl
  | prune b =>
    simp only [step, prune]
    split <;> rfl
  | _ => exact hc.elim

/-- The store holds the model's state and no record that is not accounted for, and it was never pruned
above `b`. -/
def ExactUpTo (C : Crypto) (ck : Bytes) (W : Set (Hash × Bytes)) (b : UInt64) (s : Store MemBackend) (m : Model) :
    Prop :=
  s.ck = ck ∧ Fresh s ∧ m.pin = none ∧ ∃ g hz, hz ≤ b ∧ Refines C W s m g ∧ Exact C s m g hz

/-- The prune `c`, if it succeeds, has a horizon of at most `b`. -/
def PrunesUpTo (C : Crypto) (b : UInt64) (s : Store MemBackend) (c : Call) : Prop :=
  ∀ b', c = .prune b' → (s.step C c).1 = .ok .done → b' ≤ b

section
variable {b : UInt64}

theorem ExactUpTo.commits {c : Call} (hpin : m.pin = none) (hc : c.IsWrite) {hz : UInt64} (hz_le : hz ≤ b)
    (hfresh : Fresh s) (hR : Refines C W s m g) (hE : Exact C s m g hz) (hmax : m.version < 0xFFFFFFFFFFFFFFFF)
    (h : Commits C W s m g c) :
    (s.step C c).1 = (m.step C s.ck c).1 ∧ ExactUpTo C s.ck W b (s.step C c).2 (m.step C s.ck c).2 := by
  obtain ⟨hreply, hF, g', hR', hadv⟩ := h
  exact ⟨hreply, hF.ck, hF.fresh hfresh, (Model.pin_step hc).trans hpin, g', hz, hz_le, hR', hE.advance hR hmax hadv⟩

/-- **One call of the run.** -/
theorem ExactUpTo.step (hC : C.GcmOk) (hW : VhInj C ck W) {c : Call} (h : ExactUpTo C ck W b s m)
    (hup : c.IsWrite ∧ PrunesUpTo C b s c) (hok : StepOk C ck W m c) :
    (s.step C c).1 = (m.step C ck c).1 ∧ ExactUpTo C ck W b (s.step C c).2 (m.step C ck c).2 := by
  obtain ⟨rfl, hfresh, hpin, g, hz, hle, hR, hE⟩ := h
  cases c with
  | putBatch ops => exact ExactUpTo.commits hpin trivial hle hfresh hR hE hok.max (hR.putBatch hC hW hok)
  | restoreLeaves leaves => exact ExactUpTo.commits hpin trivial hle hfresh hR hE hok.max (hR.restoreLeaves hC hW hok)
  | prune b' =>
    have hb : PrunesUpTo C b s (.prune b') := hup.2
    obtain ⟨hreply, hF, -⟩ := hR.prune b'
    refine ⟨hreply, hF.ck, hF.fresh hfresh, (Model.pin_step (c := .prune b') trivial).trans hpin, ?_⟩
    by_cases hlt : m.version < b'
    · -- a prune into the future changes nothing
      have hm : (m.step C s.ck (.prune b')).2 = m := by
        simp only [Model.step, Model.prune, hpin, Store.horizon, gt_iff_lt, if_pos hlt]
      have hs : (s.step C (.prune b')).2 = s := by
        rw [step_map (x := Store.prune b') (r := fun _ => .done) rfl, prune_eq, hR.pin, hR.version, hpin]
        simp only [Store.horizon, gt_iff_lt, if_pos hlt]
        rfl
      rw [hm, hs]
      exact ⟨g, hz, hle, hR, hE⟩
    · have hlast : Store.horizon m.pin b' ≤ m.version := by rw [hpin]; exact not_lt.1 hlt
      obtain ⟨stats, b₁, b₂, hb₁, hb₂, hrun⟩ := hR.prune_swept hlast
      have hstep : s.step C (.prune b') = (.ok .done, { s with cache := s.cache.clear, backend := b₂ }) := by
        rw [step_map (x := Store.prune b') (r := fun _ => .done) rfl, hrun]
        rfl
      have hm : (m.step C s.ck (.prune b')).2 = m.keepFrom (Store.horizon m.pin b') := by
        simp only [Model.step, Model.prune, gt_iff_lt, if_neg (not_lt.2 hlast)]
      have hb' : Store.horizon m.pin b' ≤ b := by rw [hpin]; exact hb b' rfl (by rw [hstep])
      rw [hm, hstep]
      exact ⟨g, _, max_le hle hb', hR.swept hb₁ hb₂ hlast, hE.prune hR hb₁ hb₂ hok.max⟩
  | _ => exact hup.1.elim

/-- **A run of commits and prunes** from `Create` forgets no record. -/
theorem run_exact (hC : C.GcmOk) (o : StoreOptions) (entropy : ℕ → Nonce) {cs : List Call} (hcs : ∀ c ∈ cs, c.IsWrite)
    (hcol : NoCollision C ck (Model.init o.history) cs)
    (hmax : ∀ m ∈ trace (Model.step C ck) (Model.init o.history) cs, m.version < 0xFFFFFFFFFFFFFFFF)
    (hup : Along (Store.step C) (PrunesUpTo C b) (created C ck o entropy) cs) :
    ExactUpTo C ck (callPairs C ck (Model.init o.history) cs) b (run (Store.step C) (created C ck o entropy) cs).2
      (run (Model.step C ck) (Model.init o.history) cs).2 := by
  obtain ⟨hR, hfresh⟩ := @created_refines C ck hC o entropy (callPairs C ck (Model.init o.history) cs)
  have hstart : ExactUpTo C ck (callPairs C ck (Model.init o.history) cs) b (created C ck o entropy)
      (Model.init o.history) :=
    ⟨created_ck hC o entropy, hfresh, rfl, _, 0, UInt64.zero_le, hR, created_exact hC o entropy⟩
  have hstep : ∀ (s : Store MemBackend) (m : Model) (c : Call),
      ExactUpTo C ck (callPairs C ck (Model.init o.history) cs) b s m → c.IsWrite ∧ PrunesUpTo C b s c →
      StepOk C ck (callPairs C ck (Model.init o.history) cs) m c → _ := fun s m c hs hup hok =>
    hs.step hC hcol.values hup hok
  have hup' := hup.mono (Q := fun s c => c.IsWrite ∧ PrunesUpTo C b s c) fun s c hc h => ⟨hcs c hc, h⟩
  refine (simulation hstep hstart hup' ((hcol.along hmax).mono ?_)).2
  exact fun m c _ hm => ⟨hm.1, hm.2.1, fun _ => hm.2.2.1, hm.2.2.2⟩

end

/-! ## What is left -/

/-- What the backend holds after a prune to `b` that took `s` to `s'`: of the node and value records, those reached
from a version from `b` on; of the root records, those of these versions; of the stale entries, those marked
after `b`. A value of `P` that none of these versions has at its path has no record. -/
structure Erased (C : Crypto) (P : Set (Hash × Bytes)) (b : UInt64) (m : Model) (s s' : Store MemBackend) : Prop where
  records : ∀ k, IsRecord k → ((OrdMap.get s'.backend k).isSome ↔
    ∃ w x, b ≤ w ∧ w ≤ s'.version ∧ Reachable C s'.backend w x ∧ k = x.bytes)
  roots : ∀ k, k.head? = some recRoot → ((OrdMap.get s'.backend k).isSome ↔
    ∃ w, b ≤ w ∧ w ≤ s'.version ∧ k = rootRecordKey w)
  stale : ∀ k, k.head? = some recStale → ((OrdMap.get s'.backend k).isSome ↔
    (OrdMap.get s.backend k).isSome ∧ ∃ t target, k = staleRecordKey t target ∧ b < t)
  reads : ∀ key v, (pathOf C s.ck key, v) ∈ P →
    (∀ w, b ≤ w → w ≤ s'.version → (s'.step C (.getAt w key)).1 ≠ .ok (.value (some v))) →
    ∀ vv, OrdMap.get s'.backend (valueRecordKey (vhOf C s.ck (pathOf C s.ck key) v) vv) = none
  paths : ∀ p v, (p, v) ∈ P → (∀ w vals, b ≤ w → m.past w = some vals → vals.get p ≠ some v) →
    ∀ vv, OrdMap.get s'.backend (valueRecordKey (vhOf C s.ck p v) vv) = none

variable {k : Bytes}

section
variable {b hz : UInt64} {b₁ b₂ : MemBackend}

theorem keepFrom_past {w : UInt64} (hw : b ≤ w) : (m.keepFrom b).past w = m.past w := if_neg (not_lt.2 hw)

/-- A value record of the tree of a version is that of a value the version holds. -/
theorem SnapOk.value_of_key (hW : VhInj C s.ck W) {w : UInt64} {vals : OrdMap Hash Bytes} {x : Snap}
    (hx : SnapOk C W s w vals x) {p : Hash} {v : Bytes} (hp : (p, v) ∈ W) {vv : UInt64} {y : Record}
    (hy : y ∈ x.tree.recs C []) (hk : y.key = .value (vhOf C s.ck p v) vv) : vals.get p = some v := by
  cases y with
  | node nk n => cases hk
  | value p' vh v' =>
    cases hk
    have hf := hx.holds.value_mem hy
    have hvh := hx.content.vh p'
    rw [hf, Option.map_some] at hvh
    obtain ⟨v'', hv'', he⟩ := Option.map_eq_some_iff.1 hvh.symm
    have hsame := hW (hx.content.mem p' v'' hv'') hp he
    cases hsame
    exact hv''

theorem Stored.get_isSome {y : Record} (h : Stored G s y) : (OrdMap.get s.backend y.key.bytes).isSome := by
  cases y with
  | node nk n => exact Option.isSome_iff_exists.2 ⟨_, h.2.1⟩
  | value p vh v =>
    obtain ⟨ct, hct, -⟩ := h
    exact Option.isSome_iff_exists.2 ⟨_, hct⟩

section
variable (hE : Exact C s m g hz) (hR : Refines C W s m g) (hmax : m.version < 0xFFFFFFFFFFFFFFFF) (hz_le : hz ≤ b)
  (hle : b ≤ m.version) (hb₁ : Swept s.backend b₁ [recStale] (staleEnd b) staleKeys)
  (hb₂ : Swept b₁ b₂ [recRoot] (recRoot :: Bytes.u64 b) fun e => [e])
include hE hR hmax hz_le hle hb₁ hb₂

/-- A record that is left is one of the tree of a version from the horizon on, which is readable. -/
theorem Exact.left (hrec : IsRecord k) (hk : (b₂.get k).isSome) :
    ∃ w vals y, b ≤ w ∧ w ≤ m.version ∧ m.past w = some vals ∧ y ∈ (g w).tree.recs C [] ∧ k = y.key.bytes := by
  obtain ⟨r, hr⟩ := Option.isSome_iff_exists.1 hk
  obtain ⟨w, y, hbw, hwm, hy, he⟩ : ∃ w y, b ≤ w ∧ w ≤ m.version ∧ y ∈ (g w).tree.recs C [] ∧ k = y.key.bytes := by
    obtain ⟨y, he, hy | ⟨t, hbt, ht, hy, -⟩⟩ := hE.pruned hR hb₁ hb₂ hmax hr hrec
    · exact ⟨m.version, y, hle, le_rfl, hy, he⟩
    · exact ⟨t, y, hbt, ht.le, hy, he⟩
  obtain ⟨vals, hvals⟩ := Option.isSome_iff_exists.1 ((hE.past w).2 ⟨le_trans hz_le hbw, hwm⟩)
  exact ⟨w, vals, y, hbw, hwm, hvals, hy, he⟩

/-- A value that no version from the horizon on has at its path is gone. -/
theorem Exact.value_gone (hW : VhInj C s.ck W) {p : Hash} {v : Bytes} (hp : (p, v) ∈ W)
    (hgone : ∀ w vals, b ≤ w → m.past w = some vals → vals.get p ≠ some v) (vv : UInt64) :
    b₂.get (valueRecordKey (vhOf C s.ck p v) vv) = none := by
  by_contra hsome
  obtain ⟨w, vals, y, hbw, hwm, hvals, hy, he⟩ := hE.left hR hmax hz_le hle hb₁ hb₂
    (k := valueRecordKey (vhOf C s.ck p v) vv) (.inr rfl) (Option.isSome_iff_ne_none.2 hsome)
  obtain ⟨-, hx⟩ := hR.snaps w vals hvals
  have hkey : _ = RecKey.value (vhOf C s.ck p v) vv := RecKey.bytes_inj he.symm
  exact hgone w vals hbw hvals (hx.value_of_key hW hp hy hkey)

/-- The node and value records that are left. -/
theorem Exact.records_left (hrec : IsRecord k) : (b₂.get k).isSome ↔
    ∃ w x, b ≤ w ∧ w ≤ m.version ∧ Reachable C b₂ w x ∧ k = x.bytes := by
  have hR' := hR.swept hb₁ hb₂ hle
  constructor
  · intro hk
    obtain ⟨w, vals, y, hbw, hwm, hvals, hy, he⟩ := hE.left hR hmax hz_le hle hb₁ hb₂ hrec hk
    rw [← keepFrom_past hbw] at hvals
    exact ⟨w, y.key, hbw, hwm, (hR'.reachable_iff hvals).2 ⟨y, hy, rfl⟩, he⟩
  · rintro ⟨w, x, hbw, hwm, hreach, rfl⟩
    obtain ⟨vals, hvals⟩ := Option.isSome_iff_exists.1 ((hE.past w).2 ⟨le_trans hz_le hbw, hwm⟩)
    rw [← keepFrom_past hbw] at hvals
    obtain ⟨y, hy, rfl⟩ := (hR'.reachable_iff hvals).1 hreach
    exact Stored.get_isSome ((hR'.snaps w vals hvals).2.stored y hy)

omit hmax in
/-- The root records that are left. -/
theorem Exact.roots_left (hfresh : Fresh s) (hhead : k.head? = some recRoot) :
    (b₂.get k).isSome ↔ ∃ w, b ≤ w ∧ w ≤ m.version ∧ k = rootRecordKey w := by
  constructor
  · intro hk
    obtain ⟨r, hr⟩ := Option.isSome_iff_exists.1 hk
    obtain ⟨w, rfl⟩ := (hR.swept hb₁ hb₂ hle).rootKeys k r hr hhead
    rw [hR.get_root_pruned hb₁ hb₂ w] at hk
    have hbw : ¬ w < b := by
      intro hlt
      rw [if_pos hlt] at hk
      cases hk
    refine ⟨w, not_lt.1 hbw, ?_, rfl⟩
    by_contra hwm
    rw [if_neg hbw, hfresh w (by rw [hR.version]; exact not_le.1 hwm)] at hk
    cases hk
  · rintro ⟨w, hbw, hwm, rfl⟩
    obtain ⟨vals, hvals⟩ := Option.isSome_iff_exists.1 ((hE.past w).2 ⟨le_trans hz_le hbw, hwm⟩)
    rw [hR.get_root_pruned hb₁ hb₂ w, if_neg (not_lt.2 hbw), hR.roots w hwm, hvals]
    rfl

omit hE hmax hz_le in
/-- The stale entries that are left. -/
theorem Refines.stale_left (hhead : k.head? = some recStale) : (b₂.get k).isSome ↔
    (OrdMap.get s.backend k).isSome ∧ ∃ t target, k = staleRecordKey t target ∧ b < t := by
  constructor
  · intro hk
    obtain ⟨r, hr⟩ := Option.isSome_iff_exists.1 hk
    obtain ⟨t, x, rfl, -⟩ := (hR.swept hb₁ hb₂ hle).stale k r hr hhead
    rw [hR.get_stale_pruned hb₁ hb₂ t x.bytes] at hk
    by_cases ht : t ≤ b
    · rw [if_pos ht] at hk
      cases hk
    · rw [if_neg ht] at hk
      exact ⟨hk, t, x.bytes, rfl, not_le.1 ht⟩
  · rintro ⟨hk, t, target, rfl, hbt⟩
    rw [hR.get_stale_pruned hb₁ hb₂ t target, if_neg (not_le.2 hbt)]
    exact hk

/-- **A prune of a store without forgotten records** erases all that is below its horizon. -/
theorem Exact.erased (hW : VhInj C s.ck W) (hfresh : Fresh s) :
    Erased C W b m s { s with cache := s.cache.clear, backend := b₂ } := by
  have hgone := fun p v hp hgone => hE.value_gone hR hmax hz_le hle hb₁ hb₂ hW (p := p) (v := v) hp hgone
  have hR' := hR.swept hb₁ hb₂ hle
  refine ⟨fun k hrec => ?_, fun k hhead => ?_, fun k hhead => hR.stale_left hle hb₁ hb₂ hhead,
    fun key v hp hread => hgone _ v hp fun w vals hbw hvals hv => ?_, hgone⟩
  · rw [hR'.version]
    exact hE.records_left hR hmax hz_le hle hb₁ hb₂ hrec
  · rw [hR'.version]
    exact hE.roots_left hR hz_le hle hb₁ hb₂ hfresh hhead
  · -- the version would still read as the value
    have hwm : w ≤ m.version := (hR.snaps w vals hvals).1
    have hmap : (m.keepFrom b).mapAt w = .ok vals := by
      rw [Model.mapAt_keepFrom hbw]
      unfold Model.mapAt
      rw [if_neg (not_lt.2 hwm), hvals]
    refine hread w hbw (by rw [hR'.version]; exact hwm) ((hR'.answers_read hW (c := .getAt w key) trivial).1.trans ?_)
    simp only [Model.step, hmap]
    exact congrArg (fun v => Except.ok (Reply.value v)) hv

end

end

/-- **Prune completeness.** In every run of commits and prunes from `Create`, after a successful prune to a version
at or above every earlier horizon, the records in the backend are exactly those the versions from there on need. -/
theorem prune_erases (hC : C.GcmOk) (o : StoreOptions) (entropy : ℕ → Nonce) (cs : List Call)
    (hcs : ∀ c ∈ cs, c.IsWrite) (hcol : NoCollision C ck (Model.init o.history) cs)
    (hmax : ∀ m ∈ trace (Model.step C ck) (Model.init o.history) cs, m.version < 0xFFFFFFFFFFFFFFFF) (b : UInt64)
    (hup : Along (Store.step C) (PrunesUpTo C b) (created C ck o entropy) cs)
    (s : Store MemBackend) (hs : s = (run (Store.step C) (created C ck o entropy) cs).2)
    (hprune : (s.step C (.prune b)).1 = .ok .done) :
    Erased C (callPairs C ck (Model.init o.history) cs) b (run (Model.step C ck) (Model.init o.history) cs).2 s
      (s.step C (.prune b)).2 := by
  have hend := run_exact hC o entropy hcs hcol hmax hup
  have hlast : (run (Model.step C ck) (Model.init o.history) cs).2.version < 0xFFFFFFFFFFFFFFFF :=
    hmax _ (last_mem_trace _ _)
  rw [← hs] at hend
  obtain ⟨rfl, hfresh, hpin, g, hz, hz_le, hR, hE⟩ := hend
  generalize (run (Model.step C s.ck) (Model.init o.history) cs).2 = m at *
  have hle : Store.horizon m.pin b ≤ m.version :=
    (Model.step_prune_ok ((hR.prune b).1.symm.trans hprune)).1
  obtain ⟨stats, b₁, b₂, hb₁, hb₂, hrun⟩ := hR.prune_swept hle
  rw [hpin] at hle hb₁ hb₂
  rw [step_map (x := Store.prune b) (r := fun _ => .done) rfl, hrun]
  exact hE.erased hR hlast hz_le hle hb₁ hb₂ hcol.values hfresh

/-- A value is put, and another in its place. -/
def erasedCalls : List Call := [.putBatch [.put [1] [10]], .prune 1, .putBatch [.put [1] [11]]]

/-- The store these calls leave. -/
def erasedStore : Store MemBackend :=
  (run (Store.step quickCrypto) (created quickCrypto [] {} fun _ => Nonce.zero) erasedCalls).2

theorem prune_erases_superseded : (erasedStore.step quickCrypto (.prune 2)).1 = .ok .done ∧
    Erased quickCrypto (callPairs quickCrypto [] (Model.init false) erasedCalls) 2
      (run (Model.step quickCrypto []) (Model.init false) erasedCalls).2 erasedStore
      (erasedStore.step quickCrypto (.prune 2)).2 := by
  have hcs : ∀ c ∈ erasedCalls, c.IsWrite ∧ ∀ b, c = .prune b → b ≤ 2 := by
    simp [erasedCalls, Call.IsWrite]
  have hcol : NoCollision quickCrypto [] (Model.init false) erasedCalls :=
    ⟨vhInj_of_nodup (by decide +kernel), by decide +kernel⟩
  have hmax : ∀ m ∈ trace (Model.step quickCrypto []) (Model.init false) erasedCalls,
      m.version < 0xFFFFFFFFFFFFFFFF := by decide +kernel
  have hup : Along (Store.step quickCrypto) (PrunesUpTo quickCrypto 2) (created quickCrypto [] {} fun _ => Nonce.zero)
      erasedCalls := (along_true _ _).mono fun s c hc _ b hb _ => (hcs c hc).2 b hb
  -- the reply of the prune is that of the versioned map
  have hprune : (erasedStore.step quickCrypto (.prune 2)).1 = .ok .done :=
    ((run_tracks quickCrypto_gcmOk {} _ hcol hmax).2.prune 2).1.trans (by decide +kernel)
  exact ⟨hprune, prune_erases quickCrypto_gcmOk {} (fun _ => Nonce.zero) erasedCalls (fun c hc => (hcs c hc).1) hcol
    hmax 2 hup erasedStore rfl hprune⟩

end ImmutableLedger
