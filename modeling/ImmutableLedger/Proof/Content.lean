import ImmutableLedger.Refine.Run

/-!
# Roots and reads as functions of the content

What a run of commits from `Create` leaves, in terms of the calls alone.

* `root_eq_rootOf`: the root is the root of the current logical map, so two runs that end in the same map
  end in the same root.
* `reads_eq_keyMap`: reads return what the batches wrote, at the current version and at every earlier one.
-/

namespace ImmutableLedger

open EStateM Machine

variable {C : Crypto} {ck : Bytes}

/-! ## Versions of a run of commits -/

/-- The calls that commit. -/
def Call.IsCommit : Call → Prop
  | .putBatch _ | .restoreLeaves _ => True
  | _ => False

theorem isCommit_putBatches (batches : List (List Op)) : ∀ c ∈ batches.map Call.putBatch, c.IsCommit := by
  intro c hc
  obtain ⟨ops, -, rfl⟩ := List.mem_map.1 hc
  trivial

theorem Model.version_commitLinked (m : Model) (vals : OrdMap Hash Bytes) :
    (m.commitLinked C ck vals).version = m.version + 1 := by
  unfold commitLinked
  split <;> rfl

/-- A batch leaves the model as it is, or commits the changed map. -/
theorem Model.putBatch_cases (m : Model) (ops : List Op) :
    (m.putBatch C ck ops).2 = m ∨ (m.putBatch C ck ops).2 = m.commitLinked C ck (applyOps C ck m.cur ops) := by
  unfold putBatch
  cases reservedOp ops with
  | some op => exact .inl rfl
  | none =>
    dsimp only
    split
    · exact .inl rfl
    · exact .inr rfl

theorem Model.version_putBatch (m : Model) (ops : List Op) :
    (m.putBatch C ck ops).2.version = m.version ∨ (m.putBatch C ck ops).2.version = m.version + 1 := by
  rcases @Model.putBatch_cases C ck m ops with h | h
  · exact .inl (by rw [h])
  · exact .inr (by rw [h, m.version_commitLinked])

theorem Model.version_restoreLeaves (m : Model) (leaves : List Leaf) :
    (m.restoreLeaves C ck leaves).2.version = m.version ∨ (m.restoreLeaves C ck leaves).2.version = m.version + 1 := by
  unfold restoreLeaves
  dsimp only
  split
  · exact .inl rfl
  · exact .inr rfl

variable {m : Model}

theorem Model.version_commit {c : Call} (hc : c.IsCommit) :
    (m.step C ck c).2.version = m.version ∨ (m.step C ck c).2.version = m.version + 1 := by
  cases c with
  | putBatch ops => exact m.version_putBatch ops
  | restoreLeaves leaves => exact m.version_restoreLeaves leaves
  | _ => exact hc.elim

/-- A commit moves the version by at most one. -/
theorem Model.toNat_version_commit {c : Call} (hc : c.IsCommit) :
    (m.step C ck c).2.version.toNat ≤ m.version.toNat + 1 := by
  rcases @Model.version_commit C ck m _ hc with h | h
  · rw [h]; omega
  · rw [h, UInt64.toNat_add]
    exact Nat.mod_le _ _

theorem version_trace {cs : List Call} (hcs : ∀ c ∈ cs, c.IsCommit) : ∀ {m : Model},
    ∀ m' ∈ trace (Model.step C ck) m cs, m'.version.toNat ≤ m.version.toNat + cs.length := by
  induction cs with
  | nil =>
    intro m m' hm
    obtain rfl := List.mem_singleton.1 hm
    exact le_rfl
  | cons c cs ih =>
    intro m m' hm
    rcases List.mem_cons.1 hm with rfl | hm
    · exact Nat.le_add_right _ _
    · have h1 := ih (fun c hc => hcs c (List.mem_cons_of_mem _ hc)) m' hm
      have h2 := @Model.toNat_version_commit C ck m _ (hcs c List.mem_cons_self)
      rw [List.length_cons]
      omega

/-- A run of fewer than `2^64 - 1` commits keeps its versions below the last one. -/
theorem version_trace_lt {cs : List Call} (hcs : ∀ c ∈ cs, c.IsCommit) (hlen : cs.length < 2 ^ 64 - 1) (history : Bool) :
    ∀ m' ∈ trace (Model.step C ck) (Model.init history) cs, m'.version < 0xFFFFFFFFFFFFFFFF := by
  intro m' hm
  have h : m'.version.toNat ≤ 0 + cs.length := version_trace hcs m' hm
  rw [UInt64.lt_iff_toNat_lt]
  simp only [UInt64.reduceToNat]
  omega

/-! ## The root -/

/-- A run of commits from `Create`, chained or not, with or without a storage key. -/
structure CommitRun (C : Crypto) (ck : Bytes) where
  o : StoreOptions
  entropy : ℕ → Nonce
  calls : List Call
  commits : ∀ c ∈ calls, c.IsCommit
  short : calls.length < 2 ^ 64 - 1
  noCollision : NoCollision C ck (Model.init o.history) calls

namespace CommitRun

/-- The store the run leaves. -/
def store (r : CommitRun C ck) : Store MemBackend := (run (Store.step C) (created C ck r.o r.entropy) r.calls).2

/-- The logical map of the run: the value commitments its calls leave at their paths. -/
def map (r : CommitRun C ck) : OrdMap Hash Hash :=
  commitments C ck (run (Model.step C ck) (Model.init r.o.history) r.calls).2.cur

theorem tracks (hC : C.GcmOk) (r : CommitRun C ck) :
    OneHandle C ck (callPairs C ck (Model.init r.o.history) r.calls) r.store
      (run (Model.step C ck) (Model.init r.o.history) r.calls).2 :=
  (run_tracks hC r.o r.entropy r.noCollision (version_trace_lt r.commits r.short _)).2

end CommitRun

/-- **The root is a function of the logical content**: `rootOf` of the current map, whatever calls led there. -/
theorem root_eq_rootOf (hC : C.GcmOk) :
    (∀ r : CommitRun C ck, r.store.root = rootOf C r.map) ∧
      ∀ r r' : CommitRun C ck, r.map = r'.map → r.store.root = r'.store.root := by
  have hroot : ∀ r : CommitRun C ck, r.store.root = rootOf C r.map := by
    intro r
    obtain ⟨hck, -, g, hR⟩ := r.tracks hC
    rw [hR.root, hck]
    rfl
  exact ⟨hroot, fun r r' h => by rw [hroot r, hroot r', h]⟩

/-- One put. -/
def putRun : CommitRun quickCrypto [] where
  o := {}
  entropy _ := Nonce.zero
  calls := [.putBatch [.put [1] [10]]]
  commits := by simp [Call.IsCommit]
  short := by decide
  noCollision := ⟨vhInj_of_nodup (by decide +kernel), by decide +kernel⟩

/-- The same content by a longer way, over a storage key. -/
def overwriteRun : CommitRun quickCrypto [] where
  o := { sk := some [7] }
  entropy _ := Nonce.zero
  calls := [.putBatch [.put [1] [11]], .putBatch [.put [1] [12], .put [1] [10]]]
  commits := by simp [Call.IsCommit]
  short := by decide
  noCollision := ⟨vhInj_of_nodup (by decide +kernel), by decide +kernel⟩

theorem root_eq_rootOf_overwritten : putRun.map = overwriteRun.map ∧ putRun.store.root = overwriteRun.store.root :=
  ⟨by decide +kernel, (root_eq_rootOf quickCrypto_gcmOk).2 putRun overwriteRun (by decide +kernel)⟩

/-! ## Reads by key -/

/-- A batch on a map of keys: the operations in order, so that the last one on a key wins. -/
def applyKeyOps (M : Bytes → Option Bytes) (ops : List Op) : Bytes → Option Bytes :=
  ops.foldl (fun M op => Function.update M op.key (if op.delete then none else some op.value)) M

/-- The map of keys after a list of batches. -/
def keyMap (batches : List (List Op)) : Bytes → Option Bytes := batches.foldl applyKeyOps fun _ => none

/-- The model holds the map of keys `M`, as far as the keys `K` go. -/
def Agrees (C : Crypto) (ck : Bytes) (K : Set Bytes) (vals : OrdMap Hash Bytes) (M : Bytes → Option Bytes) : Prop :=
  ∀ k ∈ K, k ≠ historyKey → vals.get (pathOf C ck k) = M k

section
variable {K : Set Bytes} (hK : Set.InjOn (pathOf C ck) K)
include hK

theorem Agrees.applyOps {ops : List Op} (hops : ∀ op ∈ ops, op.key ∈ K) : ∀ {vals : OrdMap Hash Bytes}
    {M : Bytes → Option Bytes}, Agrees C ck K vals M → Agrees C ck K (applyOps C ck vals ops) (applyKeyOps M ops) := by
  induction ops with
  | nil => intro vals M h; exact h
  | cons op ops ih =>
    intro vals M h
    refine ih (fun o ho => hops o (List.mem_cons_of_mem _ ho)) (?_ : Agrees C ck K (applyOp C ck vals op) _)
    intro k hk hne
    have hop := hops op List.mem_cons_self
    dsimp only
    unfold applyOp
    by_cases hkey : k = op.key
    · subst hkey
      rw [Function.update_self]
      cases op.delete <;> simp
    · have hpath : pathOf C ck k ≠ pathOf C ck op.key := fun he => hkey (hK hk hop he)
      rw [Function.update_of_ne hkey, ← h k hk hne]
      cases op.delete <;> simp [hpath]

theorem Agrees.commitLinked (hh : historyKey ∈ K) {vals : OrdMap Hash Bytes} {M : Bytes → Option Bytes}
    (h : Agrees C ck K vals M) : Agrees C ck K (m.commitLinked C ck vals).cur M := by
  intro k hk hne
  rw [← h k hk hne]
  unfold Model.commitLinked
  split
  · have hpath : pathOf C ck k ≠ historyPath C ck := fun he => hne (hK hk hh he)
    simp [Model.commit, hpath]
  · rfl

/-- One batch without reserved keys, on a model that agrees with a map of keys. -/
theorem Agrees.putBatch (hh : historyKey ∈ K) {ops : List Op} (hops : ∀ op ∈ ops, op.key ∈ K)
    {M : Bytes → Option Bytes} (h : Agrees C ck K m.cur M) (hres : Model.reservedOp ops = none) :
    Agrees C ck K (m.putBatch C ck ops).2.cur (applyKeyOps M ops) := by
  have h' := h.applyOps hK hops
  unfold Model.putBatch
  rw [hres]
  dsimp only
  split
  · rename_i he
    rw [he] at h'
    exact h'
  · exact h'.commitLinked hK hh

/-- The map of keys after a run of batches. -/
theorem agrees_run (hh : historyKey ∈ K) {batches : List (List Op)} (hops : ∀ ops ∈ batches, ∀ op ∈ ops, op.key ∈ K)
    (hres : ∀ ops ∈ batches, Model.reservedOp ops = none) : ∀ {m : Model} {M : Bytes → Option Bytes},
    Agrees C ck K m.cur M →
    Agrees C ck K (run (Model.step C ck) m (batches.map .putBatch)).2.cur (batches.foldl applyKeyOps M) := by
  induction batches with
  | nil => intro m M h; exact h
  | cons ops batches ih =>
    intro m M h
    exact ih (fun o ho => hops o (List.mem_cons_of_mem _ ho)) (fun o ho => hres o (List.mem_cons_of_mem _ ho))
      (h.putBatch hK hh (hops ops List.mem_cons_self) (hres ops List.mem_cons_self))

end

/-! ## Earlier versions -/

/-- The model keeps the versions it had, and the current one is the last. -/
structure Model.Extends (m m' : Model) : Prop where
  version : m.version ≤ m'.version
  past : ∀ w, w ≤ m.version → m'.past w = m.past w
  cur : m'.past m'.version = some m'.cur

theorem Model.Extends.putBatch {m m' : Model} (h : m.Extends m') (hmax : m'.version < 0xFFFFFFFFFFFFFFFF) (ops : List Op) :
    m.Extends (m'.putBatch C ck ops).2 := by
  have hlt := lt_add_one_of_lt_max hmax
  have hcommit : ∀ vals head, m.Extends (m'.commit vals head) := fun vals head => by
    refine ⟨le_trans h.version hlt.le, fun w hw => ?_, by simp [Model.commit]⟩
    have hne : w ≠ m'.version + 1 := (lt_of_le_of_lt (le_trans hw h.version) hlt).ne
    simp only [Model.commit, Function.update_of_ne hne]
    exact h.past w hw
  rcases @Model.putBatch_cases C ck m' ops with he | he
  · rw [he]
    exact h
  · rw [he]
    unfold Model.commitLinked
    split
    · exact hcommit _ _
    · exact hcommit _ _

variable {batches : List (List Op)}

theorem Model.Extends.run (hcur : m.past m.version = some m.cur)
    (hlen : m.version.toNat + batches.length < 2 ^ 64 - 1) :
    m.Extends (run (Model.step C ck) m (batches.map .putBatch)).2 := by
  have hmax : ∀ m' ∈ trace (Model.step C ck) m (batches.map .putBatch), m'.version < 0xFFFFFFFFFFFFFFFF := by
    intro m' hm
    have h := version_trace (isCommit_putBatches batches) m' hm
    rw [List.length_map] at h
    rw [UInt64.lt_iff_toNat_lt]
    simp only [UInt64.reduceToNat]
    omega
  refine invariant (I := m.Extends) (P := fun m' c => m'.version < 0xFFFFFFFFFFFFFFFF ∧ ∃ ops, c = .putBatch ops) ?_
    ⟨le_rfl, fun _ _ => rfl, hcur⟩ ((along_of_trace hmax).mono fun m' c hc h => ⟨h.1, ?_⟩)
  · rintro m' _ hI ⟨hlt, ops, rfl⟩
    exact hI.putBatch hlt ops
  · obtain ⟨ops, -, rfl⟩ := List.mem_map.1 hc
    exact ⟨ops, rfl⟩

/-- The version after the first batches reads as their map, after any further ones. -/
theorem mapAt_run {history : Bool} {pre post : List (List Op)} (hlen : (pre ++ post).length < 2 ^ 64 - 1) :
    (run (Model.step C ck) (Model.init history) ((pre ++ post).map .putBatch)).2.mapAt
      (run (Model.step C ck) (Model.init history) (pre.map .putBatch)).2.version =
      .ok (run (Model.step C ck) (Model.init history) (pre.map .putBatch)).2.cur := by
  rw [List.length_append] at hlen
  have hv : (run (Model.step C ck) (Model.init history) (pre.map .putBatch)).2.version.toNat ≤
      0 + (pre.map Call.putBatch).length := version_trace (isCommit_putBatches pre) _ (last_mem_trace _ _)
  have hpre := @Model.Extends.run C ck (Model.init history) pre rfl
    (by show 0 + _ < _; omega)
  rw [List.length_map] at hv
  have hpost := @Model.Extends.run C ck _ post hpre.cur (by omega)
  rw [List.map_append, run_append]
  unfold Model.mapAt
  rw [if_neg (not_lt.2 hpost.version), hpost.past _ le_rfl, hpre.cur]

/-- Every version up to the current one is that of some first part of the batches. -/
theorem exists_batches_of_version {history : Bool} :
    ∀ v, v ≤ (run (Model.step C ck) (Model.init history) (batches.map .putBatch)).2.version →
    ∃ pre post, batches = pre ++ post ∧
      (run (Model.step C ck) (Model.init history) (pre.map .putBatch)).2.version = v := by
  induction batches using List.reverseRecOn with
  | nil =>
    intro v hv
    refine ⟨[], [], rfl, ?_⟩
    rw [UInt64.le_iff_toNat_le] at hv
    rw [← UInt64.toNat_inj]
    exact (Nat.le_zero.1 hv).symm
  | append_singleton batches ops ih =>
    intro v hv
    by_cases hle : v ≤ (run (Model.step C ck) (Model.init history) (batches.map .putBatch)).2.version
    · obtain ⟨pre, post, rfl, hpre⟩ := ih v hle
      exact ⟨pre, post ++ [ops], by rw [List.append_assoc], hpre⟩
    · refine ⟨batches ++ [ops], [], by rw [List.append_nil], ?_⟩
      rw [List.map_append, run_append] at hv ⊢
      have hstep := @Model.toNat_version_commit C ck
        (run (Model.step C ck) (Model.init history) (batches.map .putBatch)).2 (.putBatch ops) trivial
      rw [UInt64.le_iff_toNat_le] at hv hle
      rw [← UInt64.toNat_inj]
      refine le_antisymm ?_ hv
      exact le_trans hstep (Nat.lt_of_not_le hle)

/-- The store after the first batches of a run holds the model after them. -/
theorem batches_track (hC : C.GcmOk) (o : StoreOptions) (entropy : ℕ → Nonce)
    (hlen : batches.length < 2 ^ 64 - 1) (hcol : NoCollision C ck (Model.init o.history) (batches.map .putBatch))
    (pre post : List (List Op)) (he : batches = pre ++ post) :
    (run (Store.step C) (created C ck o entropy) (pre.map .putBatch)).1 =
        (run (Model.step C ck) (Model.init o.history) (pre.map .putBatch)).1 ∧
      OneHandle C ck (callPairs C ck (Model.init o.history) (pre.map .putBatch))
        (run (Store.step C) (created C ck o entropy) (pre.map .putBatch)).2
        (run (Model.step C ck) (Model.init o.history) (pre.map .putBatch)).2 := by
  rw [he, List.map_append] at hcol
  rw [he, List.length_append] at hlen
  have hshort : (pre.map Call.putBatch).length < 2 ^ 64 - 1 := by rw [List.length_map]; omega
  exact run_tracks hC o entropy hcol.left (version_trace_lt (isCommit_putBatches pre) hshort _)

/-- **The store is a versioned map of keys.** A run of batches from `Create` on keys without the reserved prefix
meets no error. A read returns what the last operation on the key left, and a read at the version after the
first batches what they had left; every version up to the current one is of that kind. -/
theorem reads_eq_keyMap (hC : C.GcmOk) (o : StoreOptions) (entropy : ℕ → Nonce) (batches : List (List Op))
    (hlen : batches.length < 2 ^ 64 - 1)
    (hres : ∀ ops ∈ batches, ∀ op ∈ ops, ¬ reservedKeyPrefix.isPrefixOf op.key)
    (K : Set Bytes) (hK : Set.InjOn (pathOf C ck) K) (hhist : historyKey ∈ K)
    (hkeys : ∀ ops ∈ batches, ∀ op ∈ ops, op.key ∈ K)
    (hcol : NoCollision C ck (Model.init o.history) (batches.map .putBatch)) :
    (∀ r ∈ (run (Store.step C) (created C ck o entropy) (batches.map .putBatch)).1,
      ∃ root version, r = .ok (.committed root version)) ∧
    (∀ k ∈ K, k ≠ historyKey →
      ((run (Store.step C) (created C ck o entropy) (batches.map .putBatch)).2.step C (.get k)).1 =
        .ok (.value (keyMap batches k))) ∧
    (∀ pre post, batches = pre ++ post → ∀ k ∈ K, k ≠ historyKey →
      ((run (Store.step C) (created C ck o entropy) (batches.map .putBatch)).2.step C
        (.getAt (run (Store.step C) (created C ck o entropy) (pre.map .putBatch)).2.version k)).1 =
          .ok (.value (keyMap pre k))) ∧
    ∀ v, v ≤ (run (Store.step C) (created C ck o entropy) (batches.map .putBatch)).2.version →
      ∃ pre post, batches = pre ++ post ∧
        (run (Store.step C) (created C ck o entropy) (pre.map .putBatch)).2.version = v := by
  have hres' : ∀ ops ∈ batches, Model.reservedOp ops = none := fun ops hops =>
    List.find?_eq_none.2 (hres ops hops)
  have htracks := fun pre post he => @batches_track C ck batches hC o entropy hlen hcol pre post he
  have hversion : ∀ pre post, batches = pre ++ post →
      (run (Store.step C) (created C ck o entropy) (pre.map .putBatch)).2.version =
        (run (Model.step C ck) (Model.init o.history) (pre.map .putBatch)).2.version := by
    intro pre post he
    obtain ⟨-, -, -, g, hR⟩ := htracks pre post he
    exact hR.version
  obtain ⟨hreplies, hall⟩ := htracks batches [] (by simp)
  have hagree : ∀ pre post, batches = pre ++ post →
      Agrees C ck K (run (Model.step C ck) (Model.init o.history) (pre.map .putBatch)).2.cur (keyMap pre) := by
    rintro pre post rfl
    exact agrees_run hK hhist (fun ops h => hkeys ops (List.mem_append_left _ h))
      (fun ops h => hres' ops (List.mem_append_left _ h)) fun _ _ _ => rfl
  refine ⟨fun r hr => ?_, fun k hk hne => ?_, fun pre post he k hk hne => ?_, fun v hv => ?_⟩
  · rw [hreplies] at hr
    obtain ⟨m', c, hc, rfl⟩ := mem_replies hr
    obtain ⟨ops, hops, rfl⟩ := List.mem_map.1 hc
    simp only [Model.step, Model.putBatch, hres' ops hops]
    exact ⟨_, _, rfl⟩
  · rw [hall.read hcol.values (c := .get k) trivial]
    simp only [Model.step]
    rw [hagree batches [] (by simp) k hk hne]
  · rw [hall.read hcol.values (c := .getAt _ k) trivial, hversion pre post he]
    simp only [Model.step]
    have hat := @mapAt_run C ck o.history pre post (by rw [← he]; exact hlen)
    rw [← he] at hat
    rw [hat, ← hagree pre post he k hk hne]
    rfl
  · rw [hversion batches [] (by simp)] at hv
    obtain ⟨pre, post, he, hpre⟩ := exists_batches_of_version v hv
    exact ⟨pre, post, he, by rw [hversion pre post he, hpre]⟩

/-- A chained store on which a key was put and deleted again. -/
theorem reads_eq_keyMap_deleted :
    ((run (Store.step quickCrypto) (created quickCrypto [] { history := true } fun _ => Nonce.zero)
      ([[.put [1] [10]], [.del [1]]].map .putBatch)).2.step quickCrypto (.get [1])).1 = .ok (.value none) := by
  have hK : Set.InjOn (pathOf quickCrypto []) {historyKey, [1]} := by
    rintro a (rfl | rfl) b (rfl | rfl) h
    · rfl
    · exact absurd h (by decide +kernel)
    · exact absurd h (by decide +kernel)
    · rfl
  exact (reads_eq_keyMap quickCrypto_gcmOk { history := true } (fun _ => Nonce.zero) [[.put [1] [10]], [.del [1]]]
    (by decide) (by decide) {historyKey, [1]} hK (by simp) (by simp [Op.put, Op.del])
    ⟨vhInj_of_nodup (by decide +kernel), by decide +kernel⟩).2.1 [1] (by simp) (by decide)

end ImmutableLedger
