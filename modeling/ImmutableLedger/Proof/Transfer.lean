import ImmutableLedger.Refine.Export
import ImmutableLedger.Refine.Resume
import ImmutableLedger.Proof.Chain

/-!
# Snapshot transfer

The leaves of a version, exported page by page and restored into a fresh store in any order and in any number of
calls, then stamped with the version, make a replica: it has the root, the version and the chain head of the
source, its backend opens again, and it stays equal to the source under the same batches. The node and value
versions inside the two stores differ throughout; only the versioned map they hold is the same.

* `cur_restores`: the restored map is the exported one.
* `Model.Alike`: two versioned maps that agree on everything a batch reads; batches keep them so.
* `snapshot_transfer`: the transfer is faithful.
-/

namespace ImmutableLedger

open EStateM Machine

variable {C : Crypto} {ck : Bytes}

/-! ## Restored maps -/

section
variable {vals : OrdMap Hash Bytes} {l : List Leaf}

theorem get_applyLeaves_of_notMem {p : Hash} (hp : ∀ x ∈ l, x.path ≠ p) : (applyLeaves vals l).get p = vals.get p := by
  rcases get_applyLeaves_cases p l vals with ⟨x, hx, hxp, -⟩ | ⟨-, hget⟩
  · exact absurd hxp (hp x hx)
  · exact hget

theorem get_applyLeaves_of_mem (hl : (l.map Leaf.path).Nodup) {x : Leaf} (hx : x ∈ l) :
    (applyLeaves vals l).get x.path = some x.value := by
  induction l generalizing vals with
  | nil => cases hx
  | cons a l ih =>
    obtain ⟨hnotin, hrest⟩ := List.nodup_cons.1 hl
    rcases List.mem_cons.1 hx with rfl | hx
    · have hkeep : ∀ y ∈ l, y.path ≠ x.path := fun y hy he => hnotin (List.mem_map.2 ⟨y, hy, he⟩)
      refine (@get_applyLeaves_of_notMem (vals.insert x.path x.value) l x.path hkeep).trans ?_
      rw [OrdMap.get_insert, if_pos rfl]
    · exact ih hrest hx

end

theorem path_leafOf (vals : OrdMap Hash Bytes) : (leavesOf vals).map Leaf.path = vals.entries.map Prod.fst := by
  unfold leavesOf
  rw [List.map_map]
  rfl

/-- The leaves of a map, in any order, restore it. -/
theorem applyLeaves_leavesOf {vals : OrdMap Hash Bytes} {l : List Leaf} (h : l.Perm (leavesOf vals)) :
    applyLeaves OrdMap.empty l = vals := by
  have hnodup : (l.map Leaf.path).Nodup := by
    rw [(h.map Leaf.path).nodup_iff, path_leafOf]
    exact vals.nodup_keys
  refine OrdMap.ext_get fun p => ?_
  cases hp : vals.get p with
  | some v =>
    have hmem : (⟨p, v⟩ : Leaf) ∈ l := h.mem_iff.2 (List.mem_map.2 ⟨(p, v), OrdMap.mem_entries.2 hp, rfl⟩)
    exact get_applyLeaves_of_mem hnodup hmem
  | none =>
    rw [get_applyLeaves_of_notMem, OrdMap.get_empty]
    intro x hx he
    obtain ⟨e, he', rfl⟩ := List.mem_map.1 (h.mem_iff.1 hx)
    rw [← he, show (leafOf e).path = e.1 from rfl, OrdMap.mem_entries.1 (show (e.1, e.2) ∈ vals.entries from he')] at hp
    cases hp

theorem Model.cur_restoreLeaves (m : Model) (l : List Leaf) :
    (m.restoreLeaves C ck l).2.cur = applyLeaves m.cur l := by
  unfold restoreLeaves
  dsimp only
  split
  · rename_i h; exact h.symm
  · rfl

theorem Model.history_restoreLeaves (m : Model) (l : List Leaf) : (m.restoreLeaves C ck l).2.history = m.history := by
  unfold restoreLeaves
  dsimp only
  split <;> rfl

/-- **The restored map** is that of all the leaves. -/
theorem cur_restores (chunks : List (List Leaf)) (m : Model) :
    (run (Model.step C ck) m (chunks.map .restoreLeaves)).2.cur = applyLeaves m.cur chunks.flatten := by
  induction chunks generalizing m with
  | nil => rfl
  | cons l chunks ih =>
    refine (ih (m.restoreLeaves C ck l).2).trans ?_
    rw [m.cur_restoreLeaves, List.flatten_cons]
    unfold applyLeaves
    rw [List.foldl_append]

/-! ## The restored chain head -/

/-- The cached head is the one in the head leaf, and zero without one. -/
structure Model.HeadCached (C : Crypto) (ck : Bytes) (m : Model) : Prop where
  some : ∀ x, m.cur.get (historyPath C ck) = some x → x.length = hashSize ∧ m.head = Hash.ofBytes x
  none : m.cur.get (historyPath C ck) = none → m.head = Hash.zero

variable {m : Model}

/-- A restore of leaves among which a head leaf has the size of a hash keeps the head cached. -/
theorem Model.HeadCached.restoreLeaves (hhist : m.history = true) (h : m.HeadCached C ck) {l : List Leaf}
    (hl : ∀ x ∈ l, x.path = historyPath C ck → x.value.length = hashSize) : (m.restoreLeaves C ck l).2.HeadCached C ck := by
  unfold Model.restoreLeaves
  dsimp only
  split
  · exact h
  · have hsize : ∀ x, (applyLeaves m.cur l).get (historyPath C ck) = Option.some x → x.length = hashSize := by
      intro x hx
      rcases get_applyLeaves_cases (historyPath C ck) l m.cur with ⟨y, hy, hp, hv⟩ | ⟨-, he⟩
      · rw [hx] at hv
        cases hv
        exact hl y hy hp
      · exact (h.some x (he.symm.trans hx)).1
    constructor
    · intro x hx
      refine ⟨hsize x hx, ?_⟩
      show m.restoredHead C ck (applyLeaves m.cur l) = _
      unfold restoredHead
      rw [show (applyLeaves m.cur l).get (historyPath C ck) = Option.some x from hx]
      exact if_pos ⟨hhist, hsize x hx⟩
    · intro hnone
      show m.restoredHead C ck (applyLeaves m.cur l) = _
      unfold restoredHead
      rw [show (applyLeaves m.cur l).get (historyPath C ck) = Option.none from hnone]
      -- no leaf came, and none was there
      rcases get_applyLeaves_cases (historyPath C ck) l m.cur with ⟨y, -, -, hv⟩ | ⟨-, he⟩
      · rw [show (applyLeaves m.cur l).get (historyPath C ck) = Option.none from hnone] at hv
        cases hv
      · exact h.none (he.symm.trans hnone)

variable {chunks : List (List Leaf)}

theorem headCached_restores
    (hl : ∀ x ∈ chunks.flatten, x.path = historyPath C ck → x.value.length = hashSize) : ∀ {m : Model},
    m.history = true → m.HeadCached C ck →
    (run (Model.step C ck) m (chunks.map .restoreLeaves)).2.HeadCached C ck := by
  induction chunks with
  | nil => intro m _ h; exact h
  | cons l chunks ih =>
    intro m hhist h
    rw [List.flatten_cons] at hl
    have hnext := h.restoreLeaves hhist fun x hx => hl x (List.mem_append_left _ hx)
    exact ih (fun x hx => hl x (List.mem_append_right _ hx)) ((m.history_restoreLeaves l).trans hhist) hnext

theorem Model.HeadCached.putBatch (hhist : m.history = true) (h : m.HeadCached C ck) (ops : List Op) :
    (m.putBatch C ck ops).2.HeadCached C ck := by
  rcases @Model.putBatch_cases C ck m ops with he | he
  · rw [he]
    exact h
  · rw [he]
    unfold commitLinked
    rw [if_pos hhist]
    have hget : (m.commit ((applyOps C ck m.cur ops).insert (historyPath C ck) (m.nextHead C ck).bytes)
        (m.nextHead C ck)).cur.get (historyPath C ck) = Option.some (m.nextHead C ck).bytes := by
      show OrdMap.get (OrdMap.insert _ _ _) _ = _
      rw [OrdMap.get_insert, if_pos rfl]
    refine ⟨fun x hx => ?_, fun hnone => ?_⟩
    · rw [hget] at hx
      cases hx
      exact ⟨(m.nextHead C ck).size, (Hash.ofBytes_bytes _).symm⟩
    · rw [hget] at hnone
      cases hnone

theorem headCached_batches (batches : List (List Op)) : ∀ {m : Model}, m.history = true → m.HeadCached C ck →
    (run (Model.step C ck) m (batches.map .putBatch)).2.HeadCached C ck := by
  induction batches with
  | nil => intro m _ h; exact h
  | cons ops batches ih =>
    intro m hhist h
    exact ih ((m.history_putBatch ops).trans hhist) (h.putBatch hhist ops)

theorem headCached_init : (Model.init true).HeadCached C ck := ⟨fun x hx => (by cases hx), fun _ => rfl⟩

variable {m m' : Model}

theorem Model.HeadCached.head_eq (h : m.HeadCached C ck) (h' : m'.HeadCached C ck) (hcur : m'.cur = m.cur) :
    m'.head = m.head := by
  cases hx : m.cur.get (historyPath C ck) with
  | none => rw [h.none hx, h'.none (by rw [hcur]; exact hx)]
  | some x => rw [(h.some x hx).2, (h'.some x (by rw [hcur]; exact hx)).2]

/-- Without the chain the cached head stays zero. -/
theorem head_of_unchained {cs : List Call} (hcs : ∀ c ∈ cs, c.IsCommit) : ∀ {m : Model}, m.history = false →
    m.head = Hash.zero → (run (Model.step C ck) m cs).2.head = Hash.zero := by
  induction cs with
  | nil => intro m _ h; exact h
  | cons c cs ih =>
    intro m hhist h
    obtain ⟨hnext, hhead⟩ : (m.step C ck c).2.history = false ∧ (m.step C ck c).2.head = Hash.zero := by
      have hc := hcs c List.mem_cons_self
      cases c with
      | putBatch ops =>
        refine ⟨(m.history_putBatch ops).trans hhist, ?_⟩
        rcases @Model.putBatch_cases C ck m ops with he | he
        · exact (congrArg Model.head he).trans h
        · refine (congrArg Model.head he).trans ?_
          unfold Model.commitLinked
          rw [if_neg (by rw [hhist]; exact Bool.false_ne_true)]
          exact h
      | restoreLeaves l =>
        refine ⟨(m.history_restoreLeaves l).trans hhist, ?_⟩
        show (m.restoreLeaves C ck l).2.head = Hash.zero
        unfold Model.restoreLeaves
        dsimp only
        split
        · exact h
        · show m.restoredHead C ck _ = _
          unfold Model.restoredHead
          split
          · rw [if_neg fun hh => by rw [hhist] at hh; exact Bool.false_ne_true hh.1]
            exact h
          · exact h
      | _ => exact hc.elim
    exact ih (fun c hc => hcs c (List.mem_cons_of_mem _ hc)) hnext hhead

variable {batches : List (List Op)}

/-- Without the chain no key but the reserved one has its path, unless paths collide. -/
theorem no_headLeaf (hpath : ∀ ops ∈ batches, ∀ op ∈ ops, pathOf C ck op.key ≠ historyPath C ck) :
    ∀ {m : Model}, m.history = false → m.cur.get (historyPath C ck) = none →
    (run (Model.step C ck) m (batches.map .putBatch)).2.cur.get (historyPath C ck) = none := by
  induction batches with
  | nil => intro m _ h; exact h
  | cons ops batches ih =>
    intro m hhist h
    have hops : ∀ (ops : List Op) (vals : OrdMap Hash Bytes), (∀ op ∈ ops, pathOf C ck op.key ≠ historyPath C ck) →
        (applyOps C ck vals ops).get (historyPath C ck) = vals.get (historyPath C ck) := by
      intro ops
      induction ops with
      | nil => intro vals _; rfl
      | cons op ops ihops =>
        intro vals hne
        refine (ihops _ fun op hop => hne op (List.mem_cons_of_mem _ hop)).trans ?_
        have hop := (hne op List.mem_cons_self).symm
        unfold applyOp
        split
        · rw [OrdMap.get_erase, if_neg hop]
        · rw [OrdMap.get_insert, if_neg hop]
    refine ih (fun ops hmem => hpath ops (List.mem_cons_of_mem _ hmem)) ((m.history_putBatch ops).trans hhist) ?_
    rcases @Model.putBatch_cases C ck m ops with he | he
    · exact (congrArg (fun m : Model => m.cur.get (historyPath C ck)) he).trans h
    · refine (congrArg (fun m : Model => m.cur.get (historyPath C ck)) he).trans ?_
      unfold Model.commitLinked
      rw [if_neg (by rw [hhist]; exact Bool.false_ne_true)]
      exact (hops ops m.cur (hpath ops List.mem_cons_self)).trans h

/-! ## Alike models -/

/-- The two models agree on everything a batch reads. -/
structure Model.Alike (m m' : Model) : Prop where
  version : m'.version = m.version
  cur : m'.cur = m.cur
  history : m'.history = m.history
  head : m'.head = m.head

theorem Model.Alike.commitLinked (h : m.Alike m') (vals : OrdMap Hash Bytes) :
    (m.commitLinked C ck vals).Alike (m'.commitLinked C ck vals) := by
  have hnext : m'.nextHead C ck = m.nextHead C ck := by
    unfold Model.nextHead Model.root
    rw [h.version, h.cur, h.head]
  unfold Model.commitLinked
  rw [h.history, hnext]
  split
  · exact ⟨congrArg (· + 1) h.version, rfl, h.history, rfl⟩
  · exact ⟨congrArg (· + 1) h.version, rfl, h.history, h.head⟩

/-- **A batch treats alike models alike.** -/
theorem Model.Alike.putBatch (h : m.Alike m') (ops : List Op) :
    (m.putBatch C ck ops).1 = (m'.putBatch C ck ops).1 ∧ (m.putBatch C ck ops).2.Alike (m'.putBatch C ck ops).2 := by
  have hreply : ∀ {a a' : Model}, a.Alike a' →
      (.ok (.committed (a.root C ck) a.version) : Except Err Reply) = .ok (.committed (a'.root C ck) a'.version) := by
    intro a a' ha
    unfold Model.root
    rw [ha.cur, ha.version]
  unfold Model.putBatch
  split
  · exact ⟨rfl, h⟩
  · dsimp only
    rw [h.cur]
    split
    · exact ⟨hreply h, h⟩
    · exact ⟨hreply (h.commitLinked _), h.commitLinked _⟩

theorem Model.Alike.run {m m' : Model} (h : m.Alike m') (batches : List (List Op)) :
    (Machine.run (Model.step C ck) m (batches.map .putBatch)).1 =
        (Machine.run (Model.step C ck) m' (batches.map .putBatch)).1 ∧
      (Machine.run (Model.step C ck) m (batches.map .putBatch)).2.Alike
        (Machine.run (Model.step C ck) m' (batches.map .putBatch)).2 := by
  induction batches generalizing m m' with
  | nil => exact ⟨rfl, h⟩
  | cons ops batches ih =>
    obtain ⟨hreply, hnext⟩ : (m.putBatch C ck ops).1 = (m'.putBatch C ck ops).1 ∧
        (m.putBatch C ck ops).2.Alike (m'.putBatch C ck ops).2 := h.putBatch ops
    obtain ⟨hreplies, hend⟩ := ih hnext
    refine ⟨?_, hend⟩
    show (m.putBatch C ck ops).1 :: _ = (m'.putBatch C ck ops).1 :: _
    rw [hreply]
    exact congrArg _ hreplies

/-! ## The source -/

/-- The model a run of batches leaves. -/
def batched (C : Crypto) (ck : Bytes) (history : Bool) (batches : List (List Op)) : Model :=
  (run (Model.step C ck) (Model.init history) (batches.map .putBatch)).2

theorem history_batched (history : Bool) (batches : List (List Op)) : (batched C ck history batches).history = history := by
  have hrun : ∀ (batches : List (List Op)) (m : Model),
      (run (Model.step C ck) m (batches.map .putBatch)).2.history = m.history := by
    intro batches
    induction batches with
    | nil => intro m; rfl
    | cons ops batches ih => intro m; exact (ih _).trans (m.history_putBatch ops)
  exact hrun batches _

/-- No key of the batches has the path of the reserved key, in a store without the chain. -/
def HeadPathFree (C : Crypto) (ck : Bytes) (history : Bool) (batches : List (List Op)) : Prop :=
  history = false → ∀ ops ∈ batches, ∀ op ∈ ops, pathOf C ck op.key ≠ historyPath C ck

/-- **The chain head an `Open` of the source's map finds** is the source's. -/
theorem chainHead_batched {history : Bool} (hlen : batches.length < 2 ^ 64 - 1)
    (hpath : HeadPathFree C ck history batches) :
    Model.chainHead history (batched C ck history batches).version
      ((batched C ck history batches).cur.get (historyPath C ck)) = .ok (batched C ck history batches).head := by
  cases history with
  | false =>
    have hcur : (batched C ck false batches).cur.get (historyPath C ck) = none := no_headLeaf (hpath rfl) rfl rfl
    have hhead : (batched C ck false batches).head = Hash.zero :=
      head_of_unchained (isCommit_putBatches batches) rfl rfl
    rw [hcur, hhead]
    rfl
  | true =>
    have hcached : (batched C ck true batches).HeadCached C ck := headCached_batches batches rfl headCached_init
    have hshort : (batches.map Call.putBatch).length < 2 ^ 64 - 1 := by rw [List.length_map]; exact hlen
    have hdirect : ∀ c ∈ batches.map Call.putBatch, c.Direct := by
      intro c hc
      obtain ⟨ops, -, rfl⟩ := List.mem_map.1 hc
      trivial
    have hleaf : (batched C ck true batches).HeadLeaf C ck :=
      headLeaf_run hdirect (version_trace_lt (isCommit_putBatches batches) hshort true)
    unfold Model.HeadLeaf at hleaf
    by_cases hv : (batched C ck true batches).version = 0
    · rw [if_pos hv] at hleaf
      rw [hleaf, hv, hcached.none hleaf]
      rfl
    · rw [if_neg hv] at hleaf
      obtain ⟨hsize, hhead⟩ := hcached.some _ hleaf
      rw [hleaf]
      simp only [Model.chainHead, if_true, hsize, ne_eq, not_true_eq_false, if_false]
      rw [← hhead]

/-! ## The replica -/

/-- The two stores have the same root, version and chain head. -/
structure SameState (s s' : Store MemBackend) : Prop where
  root : s'.root = s.root
  version : s'.version = s.version
  head : s'.historyHead = s.historyHead

theorem sameState_of_alike {W W' : Set (Hash × Bytes)} {s s' : Store MemBackend}
    (h : OneHandle C ck W s m) (h' : OneHandle C ck W' s' m') (hm : m.Alike m') : SameState s s' := by
  obtain ⟨rfl, -, g, hR⟩ := h
  obtain ⟨hck, -, g', hR'⟩ := h'
  constructor
  · rw [hR.root, hR'.root, hck]
    unfold Model.root
    rw [hm.cur]
  · rw [hR.version, hR'.version, hm.version]
  · rw [hR.head, hR'.head, hm.head]

/-- **The restored and stamped model is alike the source's.** -/
theorem alike_restored {history : Bool} (hperm : chunks.flatten.Perm (leavesOf (batched C ck history batches).cur)) :
    (batched C ck history batches).Alike
      ((run (Model.step C ck) (Model.init history) (chunks.map .restoreLeaves)).2.stamp
        (batched C ck history batches).version) := by
  set m := batched C ck history batches with hm
  have hcur : (run (Model.step C ck) (Model.init history) (chunks.map .restoreLeaves)).2.cur = m.cur :=
    (cur_restores chunks _).trans (applyLeaves_leavesOf hperm)
  have hcommit : ∀ c ∈ chunks.map Call.restoreLeaves, c.IsCommit := by
    intro c hc
    obtain ⟨l, -, rfl⟩ := List.mem_map.1 hc
    trivial
  have hhist : ∀ (chunks : List (List Leaf)) (m : Model),
      (run (Model.step C ck) m (chunks.map .restoreLeaves)).2.history = m.history := by
    intro chunks
    induction chunks with
    | nil => intro m; rfl
    | cons l chunks ih => intro m; exact (ih _).trans (m.history_restoreLeaves l)
  refine ⟨rfl, hcur, (hhist chunks _).trans (history_batched history batches).symm, ?_⟩
  show (run (Model.step C ck) (Model.init history) (chunks.map .restoreLeaves)).2.head = m.head
  cases history with
  | false =>
    exact (head_of_unchained hcommit rfl rfl).trans (head_of_unchained (isCommit_putBatches batches) rfl rfl).symm
  | true =>
    have hcached : m.HeadCached C ck := headCached_batches batches rfl headCached_init
    refine hcached.head_eq (headCached_restores (fun x hx hp => ?_) rfl headCached_init) hcur
    -- a head leaf among the exported ones is that of the source
    obtain ⟨e, he, rfl⟩ := List.mem_map.1 (hperm.mem_iff.1 hx)
    have hget : m.cur.get (historyPath C ck) = some e.2 := by
      rw [← hp]
      exact OrdMap.mem_entries.1 he
    exact (hcached.some _ hget).1

/-- The backend of the store opens at its root and version, and at its checkpoint, with the storage key of `o`. -/
structure OpensAgain (C : Crypto) (ck : Bytes) (o : StoreOptions) (s : Store MemBackend) : Prop where
  open_ : ∀ want entropy, (want = true → o.history = true) →
    ∃ s', openStore C s.backend ck s.root s.version { sk := o.sk, history := want } entropy = .ok () s' ∧
      s'.history = s.history ∧ SameState s s'
  openLatest : ∀ want entropy, (want = true → o.history = true) →
    ∃ s', ImmutableLedger.openLatest C s.backend ck { sk := o.sk, history := want } entropy = .ok () s' ∧
      s'.history = s.history ∧ SameState s s'

/-- A store whose map has its chain head in place opens again. -/
theorem Anchored.opensAgain {W : Set (Hash × Bytes)} (hW : VhInj C ck W) {o : StoreOptions} {s : Store MemBackend}
    (h : OneHandle C ck W s m) (ha : Anchored C o s)
    (hhead : Model.chainHead o.history m.version (m.cur.get (historyPath C ck)) = .ok m.head) : OpensAgain C ck o s := by
  obtain ⟨rfl, -, g, hR⟩ := h
  rw [← ha.history] at hhead
  have hend : ∀ {want entropy} {c : NodeCache}, (want = true → o.history = true) →
      CacheOk { openHandle C s want entropy with version := m.version } c →
      ∃ s', initHistory C true s.history (loadedHandle C s want entropy m.version m.cur (g m.version) c) = .ok () s' ∧
        s'.history = s.history ∧ SameState s s' := by
    intro want entropy c hwant hc
    obtain ⟨s', hrun, hs'⟩ := (hR.opens ha.reopenable hW (fun hw => by rw [ha.history]; exact hwant hw) hR.cur
      hR.staleUpTo hc).1 m.head hhead
    refine ⟨s', hrun, hs'.history, ?_, ?_, ?_⟩
    · rw [hs'.refines.root, hR.root, hs'.ck]; rfl
    · rw [hs'.refines.version, hR.version]; rfl
    · rw [hs'.refines.head, hR.head]; rfl
  constructor
  · intro want entropy hwant
    obtain ⟨c, hc, hopen⟩ := @Refines.openM_run _ _ _ _ _ want entropy _ _ hR ha.reopenable hR.cur
    obtain ⟨s', hrun, hs'⟩ := hend hwant hc
    refine ⟨s', ?_, hs'⟩
    unfold openStore
    rw [← ha.cipher, hR.root, hR.version]
    exact hopen.trans hrun
  · intro want entropy hwant
    obtain ⟨c, hc, hopen⟩ := @Refines.openLatestM_run _ _ _ _ _ want entropy hR ha.reopenable ha.checkpointed
    obtain ⟨s', hrun, hs'⟩ := hend hwant hc
    refine ⟨s', ?_, hs'⟩
    unfold ImmutableLedger.openLatest
    rw [← ha.cipher]
    exact hopen.trans hrun

/-- The calls that make the replica: the restores, and the stamp. -/
def replicaCalls (chunks : List (List Leaf)) (v : UInt64) : List Call := chunks.map .restoreLeaves ++ [.stampVersion v]

/-- The versions of the replica stay below the last one. -/
theorem version_replica_lt {m₀ : Model} {v : UInt64} {more : List (List Op)}
    (hchunks : ∀ m ∈ trace (Model.step C ck) m₀ (chunks.map .restoreLeaves), m.version < 0xFFFFFFFFFFFFFFFF)
    (hle : (run (Model.step C ck) m₀ (chunks.map .restoreLeaves)).2.version ≤ v) (hv : v.toNat + more.length < 2 ^ 64 - 1) :
    ∀ m ∈ trace (Model.step C ck) m₀ (replicaCalls chunks v ++ more.map .putBatch), m.version < 0xFFFFFFFFFFFFFFFF := by
  intro m hm
  unfold replicaCalls at hm
  rw [List.append_assoc] at hm
  rcases trace_append hm with hm | hm
  · exact hchunks m hm
  · rcases List.mem_cons.1 hm with rfl | hm
    · exact hchunks _ (last_mem_trace _ _)
    · -- from the stamp on
      have hstamp : ((run (Model.step C ck) m₀ (chunks.map .restoreLeaves)).2.step C ck (.stampVersion v)).2.version = v := by
        simp only [Model.step, Model.stampVersion, if_neg (not_lt.2 hle)]
        rfl
      have hbound := version_trace (isCommit_putBatches more) m hm
      rw [hstamp, List.length_map] at hbound
      rw [UInt64.lt_iff_toNat_lt]
      simp only [UInt64.reduceToNat]
      omega

/-- **The source exports the entries of its map.** -/
theorem OneHandle.exportLeaves {W : Set (Hash × Bytes)} (hW : VhInj C ck W) {s : Store MemBackend}
    (h : OneHandle C ck W s m) {max pages : ℕ} (hmax : 1 ≤ max) (hpages : m.cur.size < pages) :
    ∃ s', Store.exportLeaves C m.version max pages none s = .ok (leavesOf m.cur) s' := by
  obtain ⟨rfl, -, g, hR⟩ := h
  have hrem : remaining none m.cur.entries = m.cur.entries := remaining_none
  have hfit : (remaining none m.cur.entries).length < pages := by rw [hrem]; exact hpages
  have hyields := hR.yields_exportLeaves hW hR.cur hmax hfit
  obtain ⟨s', -, hrun⟩ := hyields s (around_self hR.cache)
  rw [hrem] at hrun
  exact ⟨s', hrun⟩

/-- **The replica, and what further batches make of it.** -/
theorem replica_tracks (hC : C.GcmOk) (o : StoreOptions) (entropy : ℕ → Nonce)
    (hchunks : chunks.length < 2 ^ 64 - 1) {v : UInt64} {rep : Store MemBackend}
    (hrep : rep = (run (Store.step C) (created C ck o entropy) (chunks.map .restoreLeaves)).2) (hle : rep.version ≤ v)
    {more : List (List Op)} (hmore : v.toNat + more.length < 2 ^ 64 - 1)
    (hcol : NoCollision C ck (Model.init o.history) (replicaCalls chunks v ++ more.map .putBatch)) :
    (rep.step C (.stampVersion v)).1 = .ok .done ∧
    (run (Store.step C) (rep.step C (.stampVersion v)).2 (more.map .putBatch)).1 =
      (run (Model.step C ck) ((run (Model.step C ck) (Model.init o.history) (chunks.map .restoreLeaves)).2.stamp v)
        (more.map .putBatch)).1 ∧
    OneHandle C ck (callPairs C ck (Model.init o.history) (replicaCalls chunks v ++ more.map .putBatch))
      (run (Store.step C) (rep.step C (.stampVersion v)).2 (more.map .putBatch)).2
      (run (Model.step C ck) ((run (Model.step C ck) (Model.init o.history) (chunks.map .restoreLeaves)).2.stamp v)
        (more.map .putBatch)).2 ∧
    Anchored C o (run (Store.step C) (rep.step C (.stampVersion v)).2 (more.map .putBatch)).2 := by
  have hcommit : ∀ c ∈ chunks.map Call.restoreLeaves, c.IsCommit := by
    intro c hc
    obtain ⟨l, -, rfl⟩ := List.mem_map.1 hc
    trivial
  have hshort : (chunks.map Call.restoreLeaves).length < 2 ^ 64 - 1 := by rw [List.length_map]; exact hchunks
  have hmax : ∀ m' ∈ trace (Model.step C ck) (Model.init o.history) (chunks.map .restoreLeaves),
      m'.version < 0xFFFFFFFFFFFFFFFF := version_trace_lt hcommit hshort o.history
  set m₁ := (run (Model.step C ck) (Model.init o.history) (chunks.map .restoreLeaves)).2 with hm₁
  -- the version of the replica before the stamp is the model's
  have hle₁ : m₁.version ≤ v := by
    obtain ⟨-, -, -, g, hR⟩ := run_tracks hC o entropy hcol.left.left hmax
    rw [← hR.version, ← hrep]
    exact hle
  have hstamp : m₁.step C ck (.stampVersion v) = (.ok .done, m₁.stamp v) := by
    simp only [Model.step, Model.stampVersion, if_neg (not_lt.2 hle₁)]
  have hbound := version_replica_lt hmax hle₁ hmore
  obtain ⟨hreplies, hend, hanchored⟩ := run_keeps anchored_frame hC o entropy
    (created_anchored hC ck o entropy) hcol hbound
  have hsplit : replicaCalls chunks v ++ more.map .putBatch =
      chunks.map .restoreLeaves ++ .stampVersion v :: more.map .putBatch := by
    unfold replicaCalls
    rw [List.append_assoc]
    rfl
  rw [hsplit] at hreplies
  obtain ⟨-, hrest⟩ := run_split hreplies
  rw [← hrep, ← hm₁] at hrest
  obtain ⟨hfirst, hrest⟩ := List.cons.inj hrest
  rw [hstamp] at hfirst hrest
  rw [hsplit, run_append, run_append, ← hrep, ← hm₁] at hend
  rw [hsplit, run_append, ← hrep] at hanchored
  have hend' : OneHandle C ck _ (run (Store.step C) (rep.step C (.stampVersion v)).2 (more.map .putBatch)).2
      (run (Model.step C ck) (m₁.step C ck (.stampVersion v)).2 (more.map .putBatch)).2 := hend
  rw [hstamp] at hend'
  rw [hsplit]
  exact ⟨hfirst, hrest, hend', hanchored⟩

/-- **Snapshot transfer is faithful.** The leaves of a source reached by batches, exported in pages of any size and
restored in any order and grouping into a fresh store with the same commitment key and chain mode, then stamped
with the source's version, make a replica with the source's root, version and chain head. It opens again, and the
same batches keep the two equal. -/
theorem snapshot_transfer (hC : C.GcmOk) (o o' : StoreOptions) (hmode : o'.history = o.history)
    (entropy entropy' : ℕ → Nonce) (batches : List (List Op)) (hlen : batches.length < 2 ^ 64 - 1)
    (hpath : HeadPathFree C ck o.history batches)
    (hcol : NoCollision C ck (Model.init o.history) (batches.map .putBatch))
    (src : Store MemBackend) (hsrc : src = (run (Store.step C) (created C ck o entropy) (batches.map .putBatch)).2)
    (max : ℕ) (hmax : 1 ≤ max) :
    (∀ pages, (batched C ck o.history batches).cur.size < pages →
      ∃ src', Store.exportLeaves C src.version max pages none src =
        .ok (leavesOf (batched C ck o.history batches).cur) src') ∧
    ∀ chunks : List (List Leaf), chunks.flatten.Perm (leavesOf (batched C ck o.history batches).cur) →
      chunks.length < 2 ^ 64 - 1 →
      NoCollision C ck (Model.init o.history) (replicaCalls chunks src.version) →
      ∀ rep : Store MemBackend, rep = (run (Store.step C) (created C ck o' entropy') (chunks.map .restoreLeaves)).2 →
      rep.version ≤ src.version →
      (rep.step C (.stampVersion src.version)).1 = .ok .done ∧
      SameState src (rep.step C (.stampVersion src.version)).2 ∧
      OpensAgain C ck o' (rep.step C (.stampVersion src.version)).2 ∧
      ∀ more : List (List Op), batches.length + more.length < 2 ^ 64 - 1 →
        NoCollision C ck (Model.init o.history) ((batches ++ more).map .putBatch) →
        NoCollision C ck (Model.init o.history) (replicaCalls chunks src.version ++ more.map .putBatch) →
        (run (Store.step C) src (more.map .putBatch)).1 =
            (run (Store.step C) (rep.step C (.stampVersion src.version)).2 (more.map .putBatch)).1 ∧
          SameState (run (Store.step C) src (more.map .putBatch)).2
            (run (Store.step C) (rep.step C (.stampVersion src.version)).2 (more.map .putBatch)).2 := by
  -- the source after its batches, and after any more of them
  have hsource : ∀ more : List (List Op), batches.length + more.length < 2 ^ 64 - 1 →
      NoCollision C ck (Model.init o.history) ((batches ++ more).map .putBatch) →
      (run (Store.step C) src (more.map .putBatch)).1 =
          (run (Model.step C ck) (batched C ck o.history batches) (more.map .putBatch)).1 ∧
        OneHandle C ck (callPairs C ck (Model.init o.history) ((batches ++ more).map .putBatch))
          (run (Store.step C) src (more.map .putBatch)).2
          (run (Model.step C ck) (batched C ck o.history batches) (more.map .putBatch)).2 := by
    intro more hmore hcolM
    obtain ⟨hreplies, hend⟩ := batches_track hC o entropy (by rw [List.length_append]; exact hmore) hcolM
      (batches ++ more) [] (List.append_nil _).symm
    rw [List.map_append] at hreplies hend ⊢
    rw [run_append, run_append, ← hsrc] at hend
    obtain ⟨-, hrest⟩ := run_split hreplies
    rw [← hsrc] at hrest
    exact ⟨hrest, hend⟩
  obtain ⟨-, hS⟩ := hsource [] (by simpa using hlen) (by rw [List.append_nil]; exact hcol)
  rw [List.append_nil] at hS
  set m := batched C ck o.history batches with hm
  have hS' : OneHandle C ck (callPairs C ck (Model.init o.history) (batches.map .putBatch)) src m := hS
  have hversion : src.version = m.version := by
    obtain ⟨-, -, g, hR⟩ := hS'
    exact hR.version
  have hv : m.version.toNat ≤ batches.length := by
    have hb : m.version.toNat ≤ 0 + (batches.map Call.putBatch).length :=
      version_trace (isCommit_putBatches batches) m (last_mem_trace _ _)
    rw [List.length_map] at hb
    omega
  rw [hversion]
  refine ⟨fun pages hpages => hS'.exportLeaves hcol.values hmax hpages, ?_⟩
  intro chunks hperm hchunks hcolR rep hrep hle
  have halike : m.Alike ((run (Model.step C ck) (Model.init o.history) (chunks.map .restoreLeaves)).2.stamp m.version) :=
    alike_restored hperm
  have hreplica := fun (more : List (List Op)) (hmore : m.version.toNat + more.length < 2 ^ 64 - 1) hcolM =>
    replica_tracks hC o' entropy' hchunks hrep hle hmore (by rw [hmode]; exact hcolM)
  rw [hmode] at hreplica
  obtain ⟨hdone, -, hT, hanchored⟩ := hreplica [] (by rw [List.length_nil]; omega)
    (by rw [List.map_nil, List.append_nil]; exact hcolR)
  refine ⟨hdone, sameState_of_alike hS' hT halike, ?_, fun more hmore hcolS hcolM => ?_⟩
  · refine hanchored.opensAgain (by rw [List.map_nil, List.append_nil]; exact hcolR.values) hT ?_
    rw [hmode]
    have hhead := chainHead_batched hlen hpath
    rw [← hm, ← halike.cur, ← halike.head] at hhead
    exact hhead
  · obtain ⟨hrepliesS, hendS⟩ := hsource more hmore hcolS
    obtain ⟨-, hrepliesT, hendT, -⟩ := hreplica more (by omega) hcolM
    obtain ⟨hsame, halike'⟩ := @Model.Alike.run C ck _ _ halike more
    exact ⟨hrepliesS.trans (hsame.trans hrepliesT.symm), sameState_of_alike hendS hendT halike'⟩

/-- A chained source of three commits, and its three leaves restored by two calls, the last one first, into a store with a
storage key; the stamp is above the version they leave. -/
def transferBatches : List (List Op) := [[.put [1] [10], .put [2] [20]], [.put [3] [30]], [.del [1]]]

def transferSource : Store MemBackend :=
  (run (Store.step quickCrypto) (created quickCrypto [] { history := true } fun _ => Nonce.zero)
    (transferBatches.map .putBatch)).2

def transferChunks : List (List Leaf) :=
  let leaves := leavesOf (batched quickCrypto [] true transferBatches).cur
  [leaves.drop 2, leaves.take 2]

def transferReplica : Store MemBackend :=
  (run (Store.step quickCrypto) (created quickCrypto [] { sk := some [7], history := true } fun _ => Nonce.zero)
    (transferChunks.map .restoreLeaves)).2

theorem snapshot_transfer_chunks : transferReplica.version = 2 ∧ transferSource.version = 3 ∧
    (transferReplica.step quickCrypto (.stampVersion transferSource.version)).1 = .ok .done ∧
    SameState transferSource (transferReplica.step quickCrypto (.stampVersion transferSource.version)).2 ∧
    OpensAgain quickCrypto [] { sk := some [7], history := true }
      (transferReplica.step quickCrypto (.stampVersion transferSource.version)).2 := by
  have hv : transferSource.version = 3 := by decide +kernel
  have hrep : transferReplica.version = 2 := by decide +kernel
  have hpath : HeadPathFree quickCrypto [] true transferBatches := by
    intro _
    decide +kernel
  have hperm : transferChunks.flatten.Perm (leavesOf (batched quickCrypto [] true transferBatches).cur) := by
    rw [transferChunks, List.flatten_cons, List.flatten_singleton]
    exact List.perm_append_comm.trans (List.Perm.of_eq (List.take_append_drop 2 _))
  have h := (snapshot_transfer quickCrypto_gcmOk { history := true } { sk := some [7], history := true } rfl
    (fun _ => Nonce.zero) (fun _ => Nonce.zero) transferBatches (by decide) hpath
    ⟨vhInj_of_nodup (by decide +kernel), by decide +kernel⟩ transferSource rfl 1 le_rfl).2 transferChunks hperm (by decide)
    (by rw [hv]; exact ⟨vhInj_of_nodup (by decide +kernel), by decide +kernel⟩) transferReplica rfl
    (by rw [hv, hrep]; decide)
  exact ⟨hrep, hv, h.1, h.2.1, h.2.2.1⟩

end ImmutableLedger
