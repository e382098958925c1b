import ImmutableLedger.Model.Ledger

/-!
# The store holds a versioned map

`Refines s m g`: the handle and the in-memory backend `s` hold the versioned map `m`, the tree of each
readable version being given by `g`. Every record of a readable version is stored, and a record marked
stale since version `t` is used by no readable version from `t` on.

* `Refines.yields_get`, `yields_getAt`, `yields_prove`, `yields_proveAt`: reads return what the model says.
-/

namespace ImmutableLedger

open EStateM

/-- The tree of a version and its entries. -/
structure Snap where
  tree : Tree
  f : Hash → Option (Hash × UInt64)

variable {C : Crypto}

/-- The tree of version `w`, holding the map `vals`, is canonical and all its records are stored. -/
structure SnapOk (C : Crypto) (W : Set (Hash × Bytes)) (s : Store MemBackend) (w : UInt64) (vals : OrdMap Hash Bytes)
    (x : Snap) : Prop where
  holds : x.tree.Holds x.f []
  mono : x.tree.Mono
  ver : ∀ v ∈ x.tree.ver, v = w
  content : Content C s.ck W x.f vals.get
  stored : ∀ r ∈ x.tree.recs C [], Stored (Sealed C s W) s r
  root_ne : x.tree ≠ .nil → contentRoot C s.ck vals ≠ placeholderHash C

namespace RecKey

/-- The version in the key of a node or value record. -/
def version : RecKey → Option UInt64
  | node nk => some nk.version
  | value _ v => some v
  | _ => none

end RecKey

/-- The record `x` may be deleted once the versions below `t` are gone: it is older than `t`, and no
readable version from `t` on uses it. -/
structure Dead (C : Crypto) (m : Model) (g : UInt64 → Snap) (t : UInt64) (x : RecKey) : Prop where
  old : ∃ v, x.version = some v ∧ v < t
  since : t ≤ m.version
  unused : ∀ w vals, t ≤ w → m.past w = some vals → ∀ y ∈ (g w).tree.recs C [], y.key ≠ x

/-- The store `s` holds the versioned map `m`, with the trees `g`. -/
structure Refines (C : Crypto) (W : Set (Hash × Bytes)) (s : Store MemBackend) (m : Model) (g : UInt64 → Snap) :
    Prop where
  version : s.version = m.version
  root : s.root = m.root C s.ck
  child : s.rootChild = (g m.version).tree.ref C
  history : s.history = m.history
  head : s.historyHead = m.head
  pin : s.snapshotPin = m.pin
  cur : m.past m.version = some m.cur
  snaps : ∀ w vals, m.past w = some vals → w ≤ m.version ∧ SnapOk C W s w vals (g w)
  roots : ∀ w, w ≤ m.version → OrdMap.get s.backend (rootRecordKey w) =
    (m.past w).map fun vals => (contentRoot C s.ck vals).bytes
  rootKeys : ∀ k r, OrdMap.get s.backend k = some r → k.head? = some recRoot → ∃ w, k = rootRecordKey w
  stale : ∀ k r, OrdMap.get s.backend k = some r → k.head? = some recStale →
    ∃ t x, k = staleRecordKey t (RecKey.bytes x) ∧ Dead C m g t x
  cache : CacheOk s s.cache

variable {W : Set (Hash × Bytes)} {s : Store MemBackend} {m : Model} {g : UInt64 → Snap}

/-! ## Trees and roots -/

variable {vals : OrdMap Hash Bytes} {w : UInt64} {x : Snap}

theorem SnapOk.commitments (h : SnapOk C W s w vals x) (p : Hash) :
    (x.f p).map Prod.fst = (commitments C s.ck vals).get p := by
  rw [h.content.vh p]
  unfold ImmutableLedger.commitments
  rw [OrdMap.get_mapVal]

theorem SnapOk.rootHash (h : SnapOk C W s w vals x) :
    rootHash C (x.tree.ref C) = contentRoot C s.ck vals := h.holds.rootHash_eq h.commitments

/-- The records of the tree of a version are of that version or older. -/
theorem SnapOk.version_le (h : SnapOk C W s w vals x) :
    ∀ r ∈ x.tree.recs C [], r.version ≤ w := h.mono.version_le fun v hv => (h.ver v hv).le

variable {s' : Store MemBackend}

/-- A change of the handle that keeps the keys, and the records of the tree. -/
theorem SnapOk.transfer
    (h : SnapOk C W s w vals x) (hck : s'.ck = s.ck) (hcipher : s'.cipher = s.cipher) (hv : w ≤ s'.version)
    (hget : ∀ r ∈ x.tree.recs C [], OrdMap.get s'.backend r.key.bytes = OrdMap.get s.backend r.key.bytes) :
    SnapOk C W s' w vals x where
  holds := h.holds
  mono := h.mono
  ver := h.ver
  content := by rw [hck]; exact h.content
  stored := by
    intro r hr
    have hst := h.stored r hr
    have hg := hget r hr
    have hrv := h.version_le r hr
    cases r with
    | node nk n => exact ⟨le_trans hrv hv, hg.trans hst.2.1, hst.2.2⟩
    | value p vh v =>
      obtain ⟨ct, h1, pt, h2, h3, h4⟩ := hst
      exact ⟨ct, hg.trans h1, pt, h2, by rw [hcipher]; exact h3, by rw [hck]; exact h4⟩
  root_ne := by rw [hck]; exact h.root_ne

/-- A handle on the same backend at the same version, and a model with the same versions. -/
theorem Refines.handle {m' : Model} (h : Refines C W s m g) (hb : s'.backend = s.backend)
    (hck : s'.ck = s.ck) (hcipher : s'.cipher = s.cipher) (hversion : s'.version = s.version)
    (hroot : s'.root = s.root) (hchild : s'.rootChild = s.rootChild) (hhist : s'.history = m'.history)
    (hhead : s'.historyHead = m'.head) (hpin : s'.snapshotPin = m'.pin) (hcache : CacheOk s s'.cache)
    (hm : m'.version = m.version) (hcur : m'.cur = m.cur) (hpast : m'.past = m.past) : Refines C W s' m' g where
  version := by rw [hversion, hm]; exact h.version
  root := by rw [hroot, h.root, hck]; unfold Model.root; rw [hcur]
  child := by rw [hchild, hm]; exact h.child
  history := hhist
  head := hhead
  pin := hpin
  cur := by rw [hm, hcur, hpast]; exact h.cur
  snaps w vals hw := by
    rw [hpast] at hw
    obtain ⟨hle, hx⟩ := h.snaps w vals hw
    refine ⟨by rw [hm]; exact hle, hx.transfer hck hcipher ?_ fun r _ => by rw [hb]⟩
    rw [hversion, h.version]; exact hle
  roots w hw := by rw [hb, hck, hpast]; exact h.roots w (by rw [← hm]; exact hw)
  rootKeys k r hk hh := h.rootKeys k r (by rw [← hb]; exact hk) hh
  stale k r hk hh := by
    obtain ⟨t, x, he, hd⟩ := h.stale k r (by rw [← hb]; exact hk) hh
    exact ⟨t, x, he, hd.old, by rw [hm]; exact hd.since, by rw [hpast]; exact hd.unused⟩
  cache nk n hn := by
    obtain ⟨hv, rec, hrec, hdec⟩ := hcache nk n hn
    exact ⟨by rw [hversion]; exact hv, rec, by rw [hb]; exact hrec, hdec⟩

/-- A read leaves a handle that still holds the map. -/
theorem Refines.around (h : Refines C W s m g) (hs : Around s s') : Refines C W s' m g := by
  obtain ⟨c, hc, rfl⟩ := hs
  exact h.handle rfl rfl rfl rfl rfl rfl h.history h.head h.pin hc rfl rfl rfl

/-! ## Reads -/

section
variable (h : Refines C W s m g)
include h

theorem Refines.snap_cur : SnapOk C W s m.version m.cur (g m.version) := (h.snaps _ _ h.cur).2

theorem Refines.yields_get (hW : VhInj C s.ck W) (key : Bytes) :
    Yields (Around s) (Store.get C key) (.ok (m.cur.get (pathOf C s.ck key))) := by
  unfold Store.get
  refine yields_get_store fun c _ => ?_
  show Yields _ (walk C s.rootChild (pathOf C s.ck key)) _
  rw [h.child]
  exact yields_walk hW h.snap_cur.content h.snap_cur.holds h.snap_cur.stored _

theorem Refines.yields_prove (key : Bytes) :
    Yields (Around s) (Store.prove C key) (.ok (proofOf C (commitments C s.ck m.cur) (pathOf C s.ck key))) := by
  unfold Store.prove
  refine yields_get_store fun c _ => ?_
  show Yields _ (provePath C s.rootChild (pathOf C s.ck key)) _
  rw [h.child]
  exact yields_provePath h.snap_cur.holds h.snap_cur.commitments h.snap_cur.stored _

omit h in
/-- The root child of a stored version. -/
theorem SnapOk.yields_loadRootChild (hx : SnapOk C W s w vals x) :
    Yields (Around s) (loadRootChild C (contentRoot C s.ck vals) w) (.ok (x.tree.ref C)) := by
  unfold loadRootChild
  by_cases hnil : x.tree = .nil
  · have hroot := hx.rootHash
    rw [hnil] at hroot ⊢
    rw [if_pos (show contentRoot C s.ck vals = placeholderHash C from hroot.symm)]
    exact Yields.pure _
  · rw [if_neg (hx.root_ne hnil)]
    obtain ⟨v, n, -, hv, hn, href⟩ := Tree.exists_top (C := C) hnil
    obtain rfl := hx.ver v hv
    have hhash : n.hash C = contentRoot C s.ck vals := by rw [← hx.rootHash, href]; rfl
    rw [href]
    refine (yields_loadNode (hx.stored _ hn) hhash).bind ?_
    rw [hhash]
    exact Yields.pure _

/-- The root record of a readable version. -/
theorem Refines.yields_loadRootRecord {version : UInt64} (hp : m.past version = some vals) :
    Yields (Around s) (loadRootRecord version) (.ok (contentRoot C s.ck vals)) := by
  have hrec := yields_backendGet (s := s) (rootRecordKey version)
  rw [h.roots version (h.snaps version vals hp).1, hp, Option.map_some] at hrec
  unfold loadRootRecord
  refine hrec.bind ?_
  simp only [(contentRoot C s.ck vals).size, hashSize, ne_eq, not_true_eq_false, if_false, Hash.ofBytes_bytes]
  exact Yields.pure _

/-- Reading the root record and the root child of a version, then `k`. -/
theorem Refines.yields_at {α : Type} (version : UInt64) {k : Store MemBackend → Option Child → LedgerM MemBackend α}
    {r : OrdMap Hash Bytes → α}
    (hk : ∀ vals c, m.past version = some vals →
      Yields (Around s) (k { s with cache := c } ((g version).tree.ref C)) (.ok (r vals))) :
    Yields (Around s) (do
      let s ← MonadState.get
      if version > s.version then throw (Store.errFuture version s.version)
      let root ← loadRootRecord version
      let rootChild ← loadRootChild C root version
      k s rootChild) ((m.mapAt version).map r) := by
  refine yields_get_store fun c _ => ?_
  show Yields _ (if version > s.version then _ else _) _
  unfold Model.mapAt
  rw [← h.version]
  by_cases hv : version > s.version
  · rw [if_pos hv, if_pos hv]
    exact (Yields.throw _).bind_error
  · rw [if_neg hv, if_neg hv]
    have hroot := h.roots version (by rw [← h.version]; exact not_lt.1 hv)
    have hrec := yields_backendGet (s := s) (rootRecordKey version)
    rw [hroot] at hrec
    cases hp : m.past version with
    | none =>
      rw [hp] at hrec
      unfold loadRootRecord
      exact (hrec.bind (Yields.throw _)).bind_error
    | some vals =>
      exact (h.yields_loadRootRecord hp).bind ((h.snaps version vals hp).2.yields_loadRootChild.bind (hk vals c hp))

theorem Refines.yields_getAt (hW : VhInj C s.ck W) (version : UInt64) (key : Bytes) :
    Yields (Around s) (Store.getAt C version key)
      ((m.mapAt version).map fun vals => vals.get (pathOf C s.ck key)) := by
  refine h.yields_at version (k := fun s c => walk C c (pathOf C s.ck key)) fun vals c hp => ?_
  have hx := (h.snaps version vals hp).2
  exact yields_walk hW hx.content hx.holds hx.stored (pathOf C s.ck key)

theorem Refines.yields_proveAt (version : UInt64) (key : Bytes) :
    Yields (Around s) (Store.proveAt C version key)
      ((m.mapAt version).map fun vals => proofOf C (commitments C s.ck vals) (pathOf C s.ck key)) := by
  refine h.yields_at version (k := fun s c => provePath C c (pathOf C s.ck key)) fun vals c hp => ?_
  have hx := (h.snaps version vals hp).2
  exact yields_provePath hx.holds hx.commitments hx.stored (pathOf C s.ck key)

end

end ImmutableLedger
