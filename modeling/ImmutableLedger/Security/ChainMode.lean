import ImmutableLedger.Security.Hostile
import ImmutableLedger.Refine.Reopen
import ImmutableLedger.Proof.Chain

/-!
# Opening a chained store over hostile storage

`Open` at a trusted root takes the chain mode from the checkpoint, and without one from the read of the head leaf.
That read can be made to miss the leaf by the node that hides a lone leaf in a wrong slot, so the chain is lost
silently, unless the caller asks for it: then every way to lose it is an error.

* `initHistory_none`, `initHistory_some`: what the resolution of the mode does with the read.
* `openM_hostile`: with the chain asked for, `Open` fails or has the committed head.
* `openM_forged`: without, storage can open the store with the chain off.
* `open_keeps_chain_iff`: storage cannot disable the chain exactly when the caller asks for it.
-/

namespace ImmutableLedger

open SparseMerkle EStateM Machine

/-- `Open` fails, or opens the store with the chain on at `head`. -/
def ChainKept (head : Hash) (r : Result Err (Store Hostile) Unit) : Prop :=
  ∀ s, r = .ok () s → s.history = true ∧ s.historyHead = head

/-- Opening met no collision: not among the nodes served and those of the committed tree, and not between the head
opened with and the committed one. -/
structure OpenCollisionless (C : Crypto) (ck : Bytes) (vals : OrdMap Hash Bytes) (head : Hash)
    (r : Result Err (Store Hostile) Unit) : Prop where
  nodes : ¬ Collision C (treeInputs C (commitments C ck vals) ++
    (servedNodes r.state.backend.log).flatMap (Node.inputs C))
  value : r.state.history = true → vhOf C ck (historyPath C ck) r.state.historyHead.bytes =
    vhOf C ck (historyPath C ck) head.bytes → r.state.historyHead = head

variable {C : Crypto} {ck : Bytes}

/-! ## The mode -/

section
variable {β : Type} [Backend β] {s s₁ : Store β}

/-- With no head leaf, the chain asked for cannot be had. -/
theorem initHistory_none_want (hget : Store.get C historyKey s = .ok none s₁) (hpos : 0 < s₁.version)
    (hwant : s₁.wantHistory = true) (flagKnown flag : Bool) : ∃ e, initHistory C flagKnown flag s = .error e s₁ := by
  cases hon : (if flagKnown = true then flag else false) with
  | true =>
    -- the flag says on, but the leaf is missing
    refine ⟨errCorrupted "history chain enabled but the head leaf is missing", ?_⟩
    unfold initHistory
    refine (run_bind_ok hget).trans ((run_bind_ok rfl).trans ?_)
    simp only [Option.isSome_none, hon, if_true, gt_iff_lt, hpos]
    rfl
  | false =>
    refine ⟨errInvalid
      "store was not created with the history chain (WithHistoryChain is a Create-time choice)", ?_⟩
    unfold initHistory
    refine (run_bind_ok hget).trans ((run_bind_ok rfl).trans ?_)
    simp only [Option.isSome_none, hon, hwant, Bool.false_eq_true, if_false, not_false_eq_true, and_self, if_true]
    rfl

/-- With no head leaf, no flag and the chain not asked for, it is off. -/
theorem initHistory_none_off (hget : Store.get C historyKey s = .ok none s₁) (hwant : s₁.wantHistory = false)
    (flag : Bool) : initHistory C false flag s = .ok () { s₁ with history := false } := by
  unfold initHistory
  refine (run_bind_ok hget).trans ((run_bind_ok rfl).trans ?_)
  conv_lhs => simp only [Option.isSome_none, hwant, Bool.false_eq_true, if_false, false_and]
  rfl

/-- With a head leaf, the mode is on at the head read, or opening fails. -/
theorem initHistory_some {v : Bytes} (hget : Store.get C historyKey s = .ok (some v) s₁) (flagKnown flag : Bool) :
    (∃ e s', initHistory C flagKnown flag s = .error e s') ∨
      v.length = hashSize ∧
        initHistory C flagKnown flag s = .ok () { s₁ with historyHead := Hash.ofBytes v, history := true } := by
  have hrun : ∀ {r}, ((do
      if (if flagKnown = true then flag else true) = true then
        if v.length ≠ hashSize then throw (errCorrupted "history head leaf malformed")
        set { s₁ with historyHead := Hash.ofBytes v }
      else throw (errCorrupted "history head leaf present but the chain flag is off")
      if s₁.wantHistory = true ∧ ¬ (if flagKnown = true then flag else true) = true then
        throw (errInvalid "store was not created with the history chain (WithHistoryChain is a Create-time choice)")
      modify fun s => { s with history := if flagKnown = true then flag else true }) : LedgerM β Unit) s₁ = r →
      initHistory C flagKnown flag s = r := by
    intro r hr
    unfold initHistory
    exact (run_bind_ok hget).trans ((run_bind_ok rfl).trans hr)
  cases hon : (if flagKnown = true then flag else true) with
  | false =>
    left
    simp only [hon] at hrun
    exact ⟨_, _, hrun rfl⟩
  | true =>
    simp only [hon] at hrun
    by_cases hlen : v.length = hashSize
    · right
      refine ⟨hlen, hrun ?_⟩
      simp only [hlen, ne_eq, not_true_eq_false, if_false, if_true, and_false]
      rfl
    · left
      refine ⟨errCorrupted "history head leaf malformed", s₁, hrun ?_⟩
      simp only [hlen, ne_eq, not_false_eq_true, if_true]
      rfl

/-- What `Open` does with the root child it has loaded. -/
theorem openM_loaded {root : Hash} {version : UInt64} {c : Option Child} {s₂ : Store β}
    (h : loadRootChild C root version { s with root := root, version := version } = .ok c s₂) :
    ∃ flagKnown flag, openM C root version s = initHistory C flagKnown flag
        { s₂ with rootChild := c, backend := (Backend.get s₂.backend checkpointRecordKey).2 } ∧
      ((Backend.get s₂.backend checkpointRecordKey).1 = .ok none → flagKnown = false) := by
  rw [openM_eq h]
  rcases (Backend.get s₂.backend checkpointRecordKey).1 with e | _ | record
  · exact ⟨false, false, rfl, fun _ => rfl⟩
  · exact ⟨false, false, rfl, fun _ => rfl⟩
  · rcases hck : openCheckpoint C { s₂ with rootChild := c } record with e | ⟨r, v, flags⟩
    · exact ⟨false, false, by simp only [hck], fun h => by cases h⟩
    · exact ⟨true, flags &&& ckptFlagHistory != 0, by simp only [hck], fun h => by cases h⟩

end

/-! ## Opening over hostile storage -/

section
variable {s : Store Hostile} {M : OrdMap Hash Hash} {root : Hash} {version : UInt64}

/-- The walk of `Open` for the head leaf, over the root child it has loaded. -/
theorem get_hostile_of_root {S : Set (Input Hash Hash Hash)} (hinj : Set.InjOn (nodeHash C) S)
    (hS : ∀ x ∈ treeInputs C M, x ∈ S) (hsaw : Saw s) {c : Child} (hc : s.rootChild = some c) (hh : c.hash = rootOf C M)
    (key : Bytes) : ∃ o s', Store.get C key s = outcome o s' ∧ Later s s' ∧
      (HashedIn C S s' → ∀ v, o = .ok (some v) → (pathOf C s.ck key, vhOf C s.ck (pathOf C s.ck key) v) ∈ M.entries) := by
  obtain ⟨o, s', hrun, hlater, -, hsound⟩ :=
    @walkFrom_hostile C S M.entries (pathOf C s.ck key) hinj nibbles c [] s hsaw rfl
  refine ⟨o, s', ?_, hlater, fun hin v ho => ?_⟩
  · show walk C s.rootChild (pathOf C s.ck key) s = _
    rw [hc]
    exact hrun
  · have hs := hsound hin (pinned_root hS hh)
    rw [ho] at hs
    exact hs

/-- **With the chain asked for**, opening a root that commits to a head fails or ends with the chain on at a head of
the same commitment. -/
theorem openM_hostile (hwant : s.wantHistory = true) (hcache : ∀ nk, s.cache.node nk = none) (hpos : 0 < version)
    (hroot : root = rootOf C M)
    (hcol : ¬ Collision C (treeInputs C M ++
      (servedNodes (openM C root version s).state.backend.log).flatMap (Node.inputs C))) :
    (∃ e s', openM C root version s = .error e s') ∨ ∃ s', openM C root version s = .ok () s' ∧ s'.history = true ∧
      (historyPath C s.ck, vhOf C s.ck (historyPath C s.ck) s'.historyHead.bytes) ∈ M.entries := by
  set s₁ : Store Hostile := { s with root := root, version := version } with hs₁
  have hsaw₁ : Saw s₁ := fun nk n hn => by rw [show s₁.cache.node nk = s.cache.node nk from rfl, hcache] at hn; cases hn
  by_cases hph : root = placeholderHash C
  · -- no tree: the head leaf is missing
    have hload : loadRootChild C root version s₁ = .ok none s₁ := by
      unfold loadRootChild
      exact congrFun (if_pos hph) s₁
    obtain ⟨flagKnown, flag, hopen, -⟩ := openM_loaded hload
    left
    rw [hopen]
    obtain ⟨e, he⟩ := initHistory_none_want (C := C) (s := { s₁ with
      rootChild := none, backend := (Backend.get s₁.backend checkpointRecordKey).2 }) rfl hpos hwant flagKnown flag
    exact ⟨e, _, he⟩
  · have hload : loadRootChild C root version s₁ = (loadNode C (rootNodeKey version) root >>= fun n =>
        pure (some ⟨version, root, n.isLeaf⟩)) s₁ := by
      unfold loadRootChild
      exact congrFun (if_neg hph) s₁
    obtain ⟨s₂, hlater, hsaw₂, ⟨e, he, -⟩ | ⟨n, hn, hh, -⟩⟩ := @loadNode_hostile C s₁ hsaw₁ (rootNodeKey version) root
    · -- the root node is not served
      left
      refine ⟨e, s₂, ?_⟩
      unfold openM
      exact (run_bind_ok rfl).trans (run_bind_error (hload.trans (run_bind_error he)))
    · obtain ⟨flagKnown, flag, hopen, -⟩ := openM_loaded (hload.trans (run_bind_ok hn))
      obtain ⟨b, c, hs₂, -⟩ := hlater
      set s₃ : Store Hostile := { s₂ with
        rootChild := some ⟨version, root, n.isLeaf⟩
        backend := (Backend.get s₂.backend checkpointRecordKey).2 } with hs₃
      have hck : s₃.ck = s.ck := by rw [hs₃, hs₂]
      have hsaw₃ : Saw s₃ := by
        intro nk n' hn'
        have hmem := hsaw₂ nk n' hn'
        show n' ∈ servedNodes (s₂.backend.log ++ _)
        rw [servedNodes_append]
        exact List.mem_append_left _ hmem
      rw [hopen] at hcol ⊢
      obtain ⟨o, s₄, hget, ⟨b', c', hs₄, hlog⟩, hsound⟩ := get_hostile_of_root (injOn_of_not_collision hcol)
        (fun x hx => List.mem_append_left _ hx) hsaw₃ rfl hroot historyKey
      have hfields : s₄.version = version ∧ s₄.wantHistory = true := by
        rw [hs₄, hs₃, hs₂]
        exact ⟨rfl, hwant⟩
      rcases o with e | _ | v
      · left
        refine ⟨e, s₄, ?_⟩
        unfold initHistory
        exact run_bind_error hget
      · left
        obtain ⟨e, he⟩ := initHistory_none_want hget (by rw [hfields.1]; exact hpos) hfields.2 flagKnown flag
        exact ⟨e, s₄, he⟩
      · rcases initHistory_some hget flagKnown flag with herr | ⟨hlen, hok⟩
        · exact .inl herr
        · right
          refine ⟨_, hok, rfl, ?_⟩
          rw [hok] at hsound
          have hmem := hsound (fun n hn x hx => List.mem_append_right _ (List.mem_flatMap.2 ⟨n, hn, hx⟩)) v rfl
          rw [hck] at hmem
          rw [show (Hash.ofBytes v).bytes = v from Hash.bytes_ofBytes hlen]
          exact hmem

/-- A cached node is not read again. -/
theorem loadNode_cached {β : Type} [Backend β] {nk : NodeKey} {h : Hash} {n : Node} {s : Store β}
    (hc : s.cache.node nk = some n) (hh : n.hash C = h) :
    loadNode C nk h s = .ok n { s with cache := (s.cache.get nk).2 } := by
  rw [loadNode_hit h hc, checkedNode_of_eq (not_not.2 hh)]
  rfl

/-- A storage that hides the head leaf: it answers node reads with the forged root, and has nothing else. -/
def strippingStrategy (C : Crypto) (ck : Bytes) (root : Hash) : List (Bytes × Answer) → Bytes → Answer :=
  fun _ k => .ok (if k.head? = some recNode then some (forged (historyPath C ck) root).encode else none)

/-- **The forgery**: without the chain asked for, the store opens with the chain off. -/
theorem openM_forged (hwant : s.wantHistory = false) (hcache : s.cache = newNodeCache defaultCacheCapacity)
    (hroot : root ≠ placeholderHash C) (hb : s.backend = ⟨strippingStrategy C s.ck root, []⟩) :
    ∃ s', openM C root version s = .ok () s' ∧ s'.history = false ∧
      (servedNodes s'.backend.log).flatMap (Node.inputs C) = [] := by
  set p := historyPath C s.ck with hp
  set n := forged p root with hn
  set nk := rootNodeKey version with hnk
  set s₁ : Store Hostile := { s with root := root, version := version } with hs₁
  set s₂ : Store Hostile := { s₁ with
    backend := ⟨strippingStrategy C s.ck root, [(nodeRecordKey nk, .ok (some n.encode))]⟩
    cache := (s₁.cache.get nk).2.put nk n } with hs₂
  have hnode : loadNode C nk root s₁ = .ok n s₂ := by
    refine loadNode_read ?_ ?_ (decodeNode_encode (forged_ok p root)) (forged_hash p root)
    · show s.cache.node nk = none
      rw [hcache]
      rfl
    · show Backend.get s.backend _ = _
      rw [hb]
      rfl
  have hload : loadRootChild C root version s₁ = .ok (some ⟨version, root, false⟩) s₂ := by
    unfold loadRootChild
    exact (congrFun (if_neg hroot) s₁).trans (run_bind_ok hnode)
  obtain ⟨flagKnown, flag, hopen, hflag⟩ := openM_loaded hload
  obtain rfl := hflag rfl
  set s₃ : Store Hostile := { s₂ with
    rootChild := some ⟨version, root, false⟩
    backend := (Backend.get s₂.backend checkpointRecordKey).2 } with hs₃
  -- the head leaf is looked for under the root node just cached
  have hcached : s₃.cache.node nk = some n := by
    show ((s.cache.get nk).2.put nk n).node nk = some n
    rw [hcache]
    exact NodeCache.node_put_self (by rw [NodeCache.capacity_get]; decide) nk n
  have hget : Store.get C historyKey s₃ = .ok none { s₃ with cache := (s₃.cache.get nk).2 } := by
    show walkFrom C p nibbles ⟨version, root, false⟩ [] s₃ = _
    refine (walkFrom_loaded p 64 ⟨version, root, false⟩ [] (loadNode_cached hcached (forged_hash p root))).trans ?_
    rw [if_neg (by simp [hn, forged, Node.isLeaf])]
    simp only [hn, forged, List.length_nil, lone_ne]
    rfl
  refine ⟨_, hopen.trans (initHistory_none_off hget hwant flag), rfl, ?_⟩
  have hserved : servedNodes [(nodeRecordKey nk, .ok (some n.encode)), (checkpointRecordKey, .ok none)] = [n] := by
    simp [servedNodes, nodeRecordKey, decodeNode_encode (forged_ok p root), Except.toOption, hn]
  show (servedNodes [(nodeRecordKey nk, .ok (some n.encode)), (checkpointRecordKey, .ok none)]).flatMap _ = []
  rw [hserved, List.flatMap_singleton, forged_inputs]

end

/-! ## Roots of a chained store -/

/-- The head a map of values commits to. -/
def CommitsHead (C : Crypto) (ck : Bytes) (vals : OrdMap Hash Bytes) (head : Hash) : Prop :=
  vals.get (historyPath C ck) = some head.bytes

/-- **Storage cannot disable the chain exactly when the caller asks for it.** Take a root of a chained store after
any calls, at a version above zero; without a snapshot restore among them, it commits to the head of the handle.
When it commits to a head, whose tree has no collision in itself: over every hostile storage `Open` fails or has
the chain on at that head, short of a collision, if and only if it is given `WithHistoryChain`. -/
theorem open_keeps_chain_iff (hC : C.GcmOk) (o : StoreOptions) (hchain : o.history = true) (entropy : ℕ → Nonce)
    (cs : List Call) (hcol : NoCollision C ck (Model.init true) cs)
    (hmax : ∀ m ∈ trace (Model.step C ck) (Model.init true) cs, m.version < 0xFFFFFFFFFFFFFFFF)
    (s : Store MemBackend) (hs : s = (run (Store.step C) (created C ck o entropy) cs).2) (hpos : 0 < s.version)
    (vals : OrdMap Hash Bytes) (hvals : vals = (run (Model.step C ck) (Model.init true) cs).2.cur) :
    ((∀ c ∈ cs, c.Direct) → CommitsHead C ck vals s.historyHead) ∧
    ∀ head, CommitsHead C ck vals head → ¬ Collision C (treeInputs C (commitments C ck vals)) →
      ∀ (o' : StoreOptions) (entropy' : ℕ → Nonce),
      (∀ strategy : List (Bytes × Answer) → Bytes → Answer,
        OpenCollisionless C ck vals head (openStore C ⟨strategy, []⟩ ck s.root s.version o' entropy') →
        ChainKept head (openStore C ⟨strategy, []⟩ ck s.root s.version o' entropy')) ↔
      o'.history = true := by
  have hone := (@run_tracks C ck cs hC o entropy (by rw [hchain]; exact hcol) (by rw [hchain]; exact hmax)).2
  rw [hchain, ← hs] at hone
  obtain ⟨hck, -, g, hR⟩ := hone
  have hroot : s.root = rootOf C (commitments C ck vals) := by rw [hR.root, hck, hvals]; rfl
  constructor
  · intro hdirect
    have hleaf := headLeaf_run hdirect hmax
    have hne : (run (Model.step C ck) (Model.init true) cs).2.version ≠ 0 := by
      rw [← hR.version]
      exact hpos.ne'
    unfold Model.HeadLeaf at hleaf
    rw [if_neg hne, ← hvals, ← hR.head] at hleaf
    exact hleaf
  · intro head hhead htree o' entropy'
    constructor
    · intro hall
      by_contra hoff
      have hph : s.root ≠ placeholderHash C := by
        have hne : (run (Model.step C ck) (Model.init true) cs).2.cur ≠ OrdMap.empty := by
          intro he
          unfold CommitsHead at hhead
          rw [hvals, he] at hhead
          cases hhead
        have := hcol.roots _ (last_mem_trace _ _) hne
        rw [hR.root, hck]
        exact this
      obtain ⟨s', hopen, hhist, hin⟩ := @openM_forged C
        (newStore C ⟨strippingStrategy C ck s.root, []⟩ ck o' entropy') s.root s.version
        (Bool.eq_false_iff.2 hoff) rfl hph rfl
      have hkept := hall (strippingStrategy C ck s.root)
      unfold openStore at hkept
      rw [hopen] at hkept
      have hbad := (hkept ⟨by rw [show Result.state (.ok () s') = s' from rfl, hin, List.append_nil]; exact htree,
        fun h => by rw [show Result.state (.ok () s') = s' from rfl, hhist] at h; cases h⟩ s' rfl).1
      rw [hhist] at hbad
      cases hbad
    · intro hwant strategy hless
      unfold openStore at hless ⊢
      rcases openM_hostile (s := newStore C ⟨strategy, []⟩ ck o' entropy') hwant (fun nk => rfl) hpos hroot hless.nodes with
        ⟨e, s', he⟩ | ⟨s', hopen, hhist, hmem⟩
      · intro s'' hok
        rw [he] at hok
        cases hok
      · intro s'' hok
        rw [hopen] at hless hok
        cases hok
        refine ⟨hhist, hless.value hhist ?_⟩
        obtain ⟨w, hw, hvh⟩ := mem_commitments.1 hmem
        have hw' : vals.get (historyPath C ck) = some w := hw
        rw [hhead] at hw'
        cases hw'
        exact hvh.symm

/-- One batch over a chained store. -/
def linkedCalls : List Call := [.putBatch [.put [97] [1]]]

/-- The store the batch leaves, and its map. -/
def linkedStore (C : Crypto) : Store MemBackend :=
  (run (Store.step C) (created C [] { history := true } fun _ => Nonce.zero) linkedCalls).2

def linkedVals (C : Crypto) : OrdMap Hash Bytes := (run (Model.step C []) (Model.init true) linkedCalls).2.cur

/-- Asked for, the chain of one commit cannot be disabled. -/
theorem open_keeps_chain_iff_linked : 0 < (linkedStore quickCrypto).version ∧
    ∀ strategy : List (Bytes × Answer) → Bytes → Answer, OpenCollisionless quickCrypto [] (linkedVals quickCrypto)
      (linkedStore quickCrypto).historyHead
      (openStore quickCrypto ⟨strategy, []⟩ [] (linkedStore quickCrypto).root (linkedStore quickCrypto).version
        { history := true } fun _ => Nonce.zero) →
    ChainKept (linkedStore quickCrypto).historyHead
      (openStore quickCrypto ⟨strategy, []⟩ [] (linkedStore quickCrypto).root (linkedStore quickCrypto).version
        { history := true } fun _ => Nonce.zero) := by
  have hpos : 0 < (linkedStore quickCrypto).version := by decide +kernel
  have h := open_keeps_chain_iff quickCrypto_gcmOk { history := true } rfl (fun _ => Nonce.zero) linkedCalls
    ⟨vhInj_of_nodup (by decide +kernel), by decide +kernel⟩ (by decide +kernel) (linkedStore quickCrypto) rfl
    hpos (linkedVals quickCrypto) rfl
  have htree : ¬ Collision quickCrypto (treeInputs quickCrypto (commitments quickCrypto [] (linkedVals quickCrypto))) := by decide +kernel
  have hdirect : ∀ c ∈ linkedCalls, c.Direct := by
    intro c hc
    obtain rfl := List.mem_singleton.1 hc
    trivial
  have hkeeps := h.2 (linkedStore quickCrypto).historyHead (h.1 hdirect) htree { history := true } fun _ => Nonce.zero
  exact ⟨hpos, hkeeps.2 rfl⟩

/-- The chained store of one commit, opened without asking for the chain over a storage that hides the head leaf. -/
def strippedOpen : Result Err (Store Hostile) Unit :=
  openStore plainCrypto ⟨strippingStrategy plainCrypto [] (linkedStore plainCrypto).root, []⟩ []
    (linkedStore plainCrypto).root (linkedStore plainCrypto).version {} fun _ => Nonce.zero

/-- **The chain is silently disabled**: the root commits to the head, the store opens with the chain off, and
nothing collides. -/
theorem open_loses_chain :
    (linkedStore plainCrypto).history = true ∧ 0 < (linkedStore plainCrypto).version ∧
    (linkedStore plainCrypto).root = rootOf plainCrypto (commitments plainCrypto [] (linkedVals plainCrypto)) ∧
    CommitsHead plainCrypto [] (linkedVals plainCrypto) (linkedStore plainCrypto).historyHead ∧
    strippedOpen.val = .ok () ∧ strippedOpen.state.history = false ∧
    ¬ Collision plainCrypto (treeInputs plainCrypto (commitments plainCrypto [] (linkedVals plainCrypto)) ++
      (servedNodes strippedOpen.state.backend.log).flatMap (Node.inputs plainCrypto)) := by
  unfold CommitsHead Collision
  decide +kernel

end ImmutableLedger
