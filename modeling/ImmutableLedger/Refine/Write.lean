import ImmutableLedger.Refine.Batch

/-!
# The commit calls

`PutBatch` and `RestoreLeaves` on a store that holds a versioned map: each replies as the model does and
leaves a store that holds the model's next state.
-/

namespace ImmutableLedger

open EStateM

variable {C : Crypto} {W : Set (Hash × Bytes)} {s : Store MemBackend} {m : Model} {g : UInt64 → Snap}

/-! ## Checkpoints -/

theorem length_checkpointPayload (root : Hash) (version : UInt64) (history : Bool) :
    (checkpointPayload root version history).length = hashSize + 9 := by
  simp [checkpointPayload, root.size, hashSize]

/-- The payload of a checkpoint reads back. -/
theorem openCheckpoint_of_body {record : Bytes} {root : Hash} {version : UInt64} {history : Bool}
    (h : checkpointBody C s record = .ok (checkpointPayload root version history)) :
    openCheckpoint C s record = .ok (root, version, ckptFlags history) := by
  have hlen := length_checkpointPayload root version history
  have htake : (checkpointPayload root version history).take 32 = root.bytes := by
    unfold checkpointPayload
    rw [List.append_assoc, List.take_left' root.size]
  have hver : ((checkpointPayload root version history).drop 32).take 8 = Bytes.u64 version := by
    unfold checkpointPayload
    rw [List.append_assoc, List.drop_left' root.size, List.take_left' (Bytes.length_u64 _)]
  have hflag : (checkpointPayload root version history).getD (hashSize + 8) 0 = ckptFlags history := by
    unfold checkpointPayload
    rw [List.getD_append_right _ _ _ _ (by simp [root.size, hashSize])]
    simp [root.size, hashSize]
  unfold openCheckpoint
  rw [h]
  show (if _ then _ else _ : Except Err _) = _
  rw [if_neg (by rw [hlen]; decide), if_pos hlen, htake, hver, hflag, Hash.ofBytes_bytes, Bytes.toU64_u64]
  rfl

/-- A checkpoint is sealed, and opens to what it was sealed for. -/
theorem sealCheckpoint_run (hC : C.GcmOk) (root : Hash) (version : UInt64) (s : Store MemBackend) :
    ∃ ckpt e, sealCheckpoint C root version s = .ok ckpt { s with entropy := e } ∧
      openCheckpoint C s ckpt = .ok (root, version, ckptFlags s.history) := by
  obtain ⟨b, ck, cipher, mac, r, v, c, cache, pin, hist, want, head, entropy⟩ := s
  cases cipher with
  | none =>
    refine ⟨_, entropy, rfl, openCheckpoint_of_body ?_⟩
    have hlen := length_checkpointPayload root version hist
    have hrec : (checkpointPayload root version hist ++ (hmac C mac (checkpointPayload root version hist)).bytes).length
        = hashSize + 9 + 32 := by rw [List.length_append, hlen, Hash.size]
    have hbody : hashSize + 9 + 32 - 32 = (checkpointPayload root version hist).length := hlen.symm
    simp only [checkpointBody]
    rw [if_neg fun h => h.2 hrec, hrec, hbody, List.take_left, List.drop_left, if_neg fun h => h rfl]
  | some sk =>
    refine ⟨_, fun n => entropy (n + 1), rfl, openCheckpoint_of_body ?_⟩
    simp only [checkpointBody]
    rw [decrypt_encrypt hC]

/-! ## What a call leaves alone -/

/-- What no call on a handle changes: the keys and the chain mode. The version does not go down, no root
record appears above it, and the checkpoint record is replaced whenever the root or the version is, by one of
the new root and version that carries the chain mode. -/
structure Frame (C : Crypto) (s s' : Store MemBackend) : Prop where
  ck : s'.ck = s.ck
  cipher : s'.cipher = s.cipher
  mac : s'.ckptMAC = s.ckptMAC
  history : s'.history = s.history
  want : s'.wantHistory = s.wantHistory
  version : s.version ≤ s'.version
  above : ∀ w, s'.version < w → OrdMap.get s.backend (rootRecordKey w) = none →
    OrdMap.get s'.backend (rootRecordKey w) = none
  ckpt : (OrdMap.get s'.backend checkpointRecordKey = OrdMap.get s.backend checkpointRecordKey ∧ s'.root = s.root ∧
      s'.version = s.version) ∨
    ∃ record, OrdMap.get s'.backend checkpointRecordKey = some record ∧
      openCheckpoint C s record = .ok (s'.root, s'.version, ckptFlags s.history)

theorem Frame.refl (s : Store MemBackend) : Frame C s s :=
  ⟨rfl, rfl, rfl, rfl, rfl, le_rfl, fun _ _ h => h, .inl ⟨rfl, rfl, rfl⟩⟩

variable {s' : Store MemBackend}

/-- A checkpoint is opened with the storage key or the checkpoint key only. -/
theorem openCheckpoint_congr (hcipher : s'.cipher = s.cipher) (hmac : s'.ckptMAC = s.ckptMAC)
    (record : Bytes) : openCheckpoint C s' record = openCheckpoint C s record := by
  simp only [openCheckpoint, checkpointBody, hcipher, hmac]

theorem Frame.trans {s₁ s₂ s₃ : Store MemBackend} (h : Frame C s₁ s₂) (h' : Frame C s₂ s₃) : Frame C s₁ s₃ where
  ck := h'.ck.trans h.ck
  cipher := h'.cipher.trans h.cipher
  mac := h'.mac.trans h.mac
  history := h'.history.trans h.history
  want := h'.want.trans h.want
  version := le_trans h.version h'.version
  above w hw hnone := h'.above w hw (h.above w (lt_of_le_of_lt h'.version hw) hnone)
  ckpt := by
    rcases h'.ckpt with ⟨he, hroot, hversion⟩ | ⟨record, hget, hopen⟩
    · rw [he, hroot, hversion]; exact h.ckpt
    · rw [openCheckpoint_congr h.cipher h.mac, h.history] at hopen
      exact .inr ⟨record, hget, hopen⟩

theorem Near.backend (h : Near s s') : s'.backend = s.backend := by
  obtain ⟨c, e, -, rfl⟩ := h
  rfl

theorem Near.frame (h : Near s s') : Frame C s s' := by
  obtain ⟨c, e, -, rfl⟩ := h
  exact ⟨rfl, rfl, rfl, rfl, rfl, le_rfl, fun _ _ h => h, .inl ⟨rfl, rfl, rfl⟩⟩

theorem Around.frame (h : Around s s') : Frame C s s' := by
  obtain ⟨c, -, rfl⟩ := h
  exact ⟨rfl, rfl, rfl, rfl, rfl, le_rfl, fun _ _ h => h, .inl ⟨rfl, rfl, rfl⟩⟩

variable {vals : OrdMap Hash Bytes}

theorem Written.frame {acc : CommitAcc} {x : Snap}
    (hs : Written C s acc vals x s') (h : Refines C W s m g) (hmax : m.version < 0xFFFFFFFFFFFFFFFF)
    (hB : Built C W s ((g m.version).tree.recs C []) acc vals x) : Frame C s s' := by
  obtain ⟨ckpt, hopen, hb⟩ := hs.backend
  refine ⟨hs.ck, hs.cipher, hs.mac, hs.history, hs.want, ?_, fun w hw hnone => ?_, .inr ⟨ckpt, ?_, ?_⟩⟩
  · rw [hs.version, h.version]; exact (hB.lt h hmax).le
  · rw [hs.version] at hw
    rw [hb]
    refine (get_commitBatch s.backend (.root w)).trans ?_
    simp only [written, if_neg hw.ne', Option.none_or]
    exact hnone
  · rw [hb]
    exact get_commitBatch s.backend .checkpoint
  · rw [hs.root, hs.version]
    exact hopen

/-! ## Batches -/

/-- What a call needs for its step: no version overflow, the values it writes are among `W`, and the map it
makes has a root of its own. -/
structure StepOk (C : Crypto) (ck : Bytes) (W : Set (Hash × Bytes)) (m : Model) (c : Call) : Prop where
  max : m.version < 0xFFFFFFFFFFFFFFFF
  pairs : ∀ e ∈ c.pairs C ck, e ∈ W
  head : m.history = true → (historyPath C ck, (m.nextHead C ck).bytes) ∈ W
  root : (m.step C ck c).2.cur ≠ OrdMap.empty → (m.step C ck c).2.root C ck ≠ placeholderHash C

/-- **A call answers as the model does**, and the store it leaves holds the model's next state. -/
def Answers (C : Crypto) (W : Set (Hash × Bytes)) (s : Store MemBackend) (m : Model) (c : Call) : Prop :=
  (s.step C c).1 = (m.step C s.ck c).1 ∧ Frame C s (s.step C c).2 ∧
    ∃ g, Refines C W (s.step C c).2 (m.step C s.ck c).2 g

/-- How a commit call moves the store: the records and the versions stay, or those of a computed commit are added. -/
inductive Advance (C : Crypto) (W : Set (Hash × Bytes)) (s : Store MemBackend) (m : Model) (g : UInt64 → Snap)
    (s' : Store MemBackend) (m' : Model) (g' : UInt64 → Snap) : Prop
  | same (backend : s'.backend = s.backend) (version : m'.version = m.version) (past : m'.past = m.past)
      (snaps : g' = g)
  | commit {acc : CommitAcc} {vals : OrdMap Hash Bytes} {x : Snap} {root : Hash} {ckpt : Bytes}
      (built : Built C W s ((g m.version).tree.recs C []) acc vals x)
      (backend : s'.backend = MemBackend.writeBatch s.backend (commitBatch acc root ckpt))
      (version : m'.version = m.version + 1) (past : m'.past = Function.update m.past (m.version + 1) (some vals))
      (snaps : g' = Function.update g (m.version + 1) x)

/-- A commit call answers as the model does, and advances the store. -/
def Commits (C : Crypto) (W : Set (Hash × Bytes)) (s : Store MemBackend) (m : Model) (g : UInt64 → Snap) (c : Call) :
    Prop :=
  (s.step C c).1 = (m.step C s.ck c).1 ∧ Frame C s (s.step C c).2 ∧
    ∃ g', Refines C W (s.step C c).2 (m.step C s.ck c).2 g' ∧
      Advance C W s m g (s.step C c).2 (m.step C s.ck c).2 g'

theorem Commits.answers {c : Call} (h : Commits C W s m g c) : Answers C W s m c := by
  obtain ⟨hreply, hF, g', hR, -⟩ := h
  exact ⟨hreply, hF, g', hR⟩

/-- Writing a computed commit. -/
theorem commitAcc_run (hC : C.GcmOk) {s₀ : Store MemBackend} (hs₀ : Near s s₀) {acc : CommitAcc} {vals : OrdMap Hash Bytes} {x : Snap} :
    ∃ s', commitAcc C acc (x.tree.ref C) (contentRoot C s.ck vals) s₀ =
      .ok (contentRoot C s.ck vals, acc.newVersion) s' ∧ Written C s acc vals x s' := by
  obtain ⟨c, e, hc, rfl⟩ := hs₀
  obtain ⟨ckpt, e', hrun, hopen⟩ := sealCheckpoint_run hC (contentRoot C s.ck vals) acc.newVersion
    { s with cache := c, entropy := e }
  refine ⟨{ s with
    backend := MemBackend.writeBatch s.backend (commitBatch acc (contentRoot C s.ck vals) ckpt)
    cache := acc.pending.entries.foldl (fun cache e => cache.put e.1 e.2) c
    root := contentRoot C s.ck vals
    version := acc.newVersion
    rootChild := x.tree.ref C
    historyHead := acc.newHead.getD s.historyHead
    entropy := e' }, ?_, ⟨rfl, rfl, rfl, rfl, rfl, rfl, rfl, rfl, rfl, rfl, ⟨ckpt, hopen, rfl⟩, ⟨c, hc, rfl⟩⟩⟩
  unfold commitAcc
  rw [run_bind_ok hrun]
  rfl

theorem Tree.Holds.ne_empty {t : Tree} {f : Hash → Option (Hash × UInt64)} {ck : Bytes}
    (hH : t.Holds f []) (hc : Content C ck W f vals.get) (hne : t ≠ .nil) : vals ≠ OrdMap.empty := by
  rintro rfl
  obtain ⟨p, -, hp⟩ := hH.exists_of_ne_nil hne
  have := hc.vh p
  rw [OrdMap.get_empty, Option.map_none, Option.map_eq_none_iff] at this
  rw [this] at hp; cases hp

/-- A computed commit, written, makes the model's next version. -/
theorem Computed.write (h : Refines C W s m g) (hC : C.GcmOk) (hW : VhInj C s.ck W) (hmax : m.version < 0xFFFFFFFFFFFFFFFF)
    {acc : CommitAcc} {rc : Option Child} {root : Hash} {m' : Model} {x : Snap} (hc : Computed C W s m g acc rc root m' x)
    (hne : m'.cur ≠ OrdMap.empty → m'.root C s.ck ≠ placeholderHash C) {s₀ : Store MemBackend} (hs₀ : Near s s₀) :
    ∃ s', commitAcc C acc rc root s₀ = .ok (m'.root C s.ck, m'.version) s' ∧ Frame C s s' ∧
      ∃ g', Refines C W s' m' g' ∧ Advance C W s m g s' m' g' := by
  obtain ⟨s', hrun, hs'⟩ := @commitAcc_run C s hC s₀ hs₀ acc m'.cur x
  have hR := h.commit hmax hc.built hs' hW hc.ver fun hnil => hne (hc.built.tree.holds.ne_empty hc.built.content hnil)
  rw [← hc.commit] at hR
  obtain ⟨ckpt, -, hb⟩ := hs'.backend
  have hadv : Advance C W s m g s' m' (Function.update g acc.newVersion x) :=
    .commit hc.built hb (by rw [hc.commit]; rfl) (by rw [hc.commit]; rfl) (by rw [hc.built.newVersion_eq h])
  refine ⟨s', ?_, hs'.frame h hmax hc.built, _, hR, hadv⟩
  rw [hc.child, hc.root, hrun]
  have hv : acc.newVersion = m'.version := by rw [hc.commit]; exact hc.built.newVersion_eq h
  rw [hv]; rfl

theorem Refines.near (h : Refines C W s m g) (hs : Near s s') : Refines C W s' m g := by
  obtain ⟨c, e, hc, rfl⟩ := hs
  exact h.handle rfl rfl rfl rfl rfl rfl h.history h.head h.pin hc rfl rfl rfl

/-- **`PutBatch` answers as the model does.** -/
theorem Refines.putBatch (h : Refines C W s m g) (hC : C.GcmOk) (hW : VhInj C s.ck W) {ops : List Op}
    (hok : StepOk C s.ck W m (.putBatch ops)) : Commits C W s m g (.putBatch ops) := by
  unfold Commits Store.step
  have hroot := hok.root
  simp only [Model.step, Model.putBatch] at hroot ⊢
  cases hres : Model.reservedOp ops with
  | some op =>
    have hrun : (Call.putBatch ops).exec C s =
        .error (errInvalidf "key %q uses the reserved system prefix" [.key op.key]) s := by
      refine run_bind_error (run_bind_error ?_)
      show ((ofExcept (dedupe C s.ck ops OrdMap.empty) >>= _ : LedgerM MemBackend _) s) = _
      rw [dedupe_reserved hres]
      rfl
    rw [hrun]
    exact ⟨rfl, Frame.refl s, g, h, .same rfl rfl rfl rfl⟩
  | none =>
    rw [hres] at hroot
    simp only at hroot ⊢
    obtain ⟨r, s₀, hrun, hs₀, hr⟩ := h.returns_computeBatch hC hW hok.max hres hok.pairs hok.head s (Near.refl h.cache)
    rcases hr with ⟨rfl, hsame⟩ | ⟨hne, acc, rc, root, x, rfl, hcomp⟩
    · rw [if_pos hsame] at hroot ⊢
      have h₀ := h.near hs₀
      have hF := hs₀.frame (C := C)
      have hput : Store.putBatch C ops s = .ok (s₀.root, s₀.version) s₀ := run_bind_ok hrun
      have hexec : (Call.putBatch ops).exec C s = _ := run_bind_ok hput
      rw [hexec]
      refine ⟨?_, hF, g, h₀, .same hs₀.backend rfl rfl rfl⟩
      rw [h₀.root, h₀.version, hF.ck]
      rfl
    · rw [if_neg hne] at hroot ⊢
      obtain ⟨s', hcommit, hF, hR⟩ := hcomp.write h hC hW hok.max hroot hs₀
      have hput : Store.putBatch C ops s = _ := (run_bind_ok hrun).trans hcommit
      have hexec : (Call.putBatch ops).exec C s = _ := run_bind_ok hput
      rw [hexec]
      exact ⟨rfl, hF, hR⟩

/-! ## Restoring -/

theorem get_applyLeaves (leaves : List Leaf) : ∀ (vals : OrdMap Hash Bytes) (p : Hash),
    (applyLeaves vals leaves).get p = ((applyLeaves OrdMap.empty leaves).get p).or (vals.get p) := by
  induction leaves with
  | nil => intro vals p; rfl
  | cons l leaves ih =>
    intro vals p
    show (applyLeaves (vals.insert l.path l.value) leaves).get p =
      ((applyLeaves (OrdMap.empty.insert l.path l.value) leaves).get p).or _
    rw [ih, ih (OrdMap.empty.insert l.path l.value), Option.or_assoc]
    congr 1
    by_cases hp : p = l.path <;> simp [hp]

/-- A path after a restore: a leaf restored there, or what was there. -/
theorem get_applyLeaves_cases (p : Hash) : ∀ (leaves : List Leaf) (vals : OrdMap Hash Bytes),
    (∃ l ∈ leaves, l.path = p ∧ (applyLeaves vals leaves).get p = some l.value) ∨
      ((∀ l ∈ leaves, l.path ≠ p) ∧ (applyLeaves vals leaves).get p = vals.get p) := by
  intro leaves
  induction leaves with
  | nil => intro vals; exact .inr ⟨fun l hl => (by cases hl), rfl⟩
  | cons l leaves ih =>
    intro vals
    rcases ih (vals.insert l.path l.value) with ⟨x, hx, hp, hget⟩ | ⟨hno, hget⟩
    · exact .inl ⟨x, List.mem_cons_of_mem _ hx, hp, hget⟩
    · have hget' : (applyLeaves vals (l :: leaves)).get p = (vals.insert l.path l.value).get p := hget
      rw [OrdMap.get_insert] at hget'
      by_cases hp : p = l.path
      · rw [if_pos hp] at hget'
        exact .inl ⟨l, List.mem_cons_self, hp.symm, hget'⟩
      · rw [if_neg hp] at hget'
        refine .inr ⟨fun x hx => ?_, hget'⟩
        rcases List.mem_cons.1 hx with rfl | hx
        · exact Ne.symm hp
        · exact hno x hx

theorem mem_of_applyLeaves {p : Hash} {v : Bytes} {leaves : List Leaf} (h : (applyLeaves vals leaves).get p = some v) :
    vals.get p = some v ∨ (p, v) ∈ leaves.map fun l => (l.path, l.value) := by
  rcases get_applyLeaves_cases p leaves vals with ⟨l, hl, hp, hget⟩ | ⟨-, hget⟩
  · rw [hget] at h
    cases h
    exact .inr (List.mem_map.2 ⟨l, hl, by rw [hp]⟩)
  · exact .inl (hget.symm.trans h)

/-- The refresh of the head after a restore committed: the head leaf may have arrived as data. -/
def refreshHead (C : Crypto) {β : Type} [Backend β] (history : Bool) (r : Hash × UInt64) :
    LedgerM β (Hash × UInt64) := do
  if history then
    match ← Store.get C historyKey with
    | some val => if val.length = hashSize then modify fun s => { s with historyHead := Hash.ofBytes val }
    | none => pure ()
  pure r

/-- The head of a chained store is refreshed from the restored leaf. -/
theorem Refines.headRefreshed (h : Refines C W s (m.commit vals m.head) g) (hW : VhInj C s.ck W)
    (r : Hash × UInt64) (b : Bool) (hb : b = m.history) : ∃ s', refreshHead C b r s = .ok r s' ∧ Frame C s s' ∧
      s'.backend = s.backend ∧ Refines C W s' (m.commit vals (m.restoredHead C s.ck vals)) g := by
  subst hb
  unfold Model.restoredHead refreshHead
  cases hh : m.history with
  | false =>
    refine ⟨s, rfl, Frame.refl s, rfl, ?_⟩
    simp only [Bool.false_eq_true, false_and, if_false]
    cases vals.get (historyPath C s.ck) <;> exact h
  | true =>
    obtain ⟨_, ⟨c, hc, rfl⟩, hrun⟩ := h.yields_get hW historyKey s (around_self h.cache)
    have h' := h.around ⟨c, hc, rfl⟩
    rw [show (m.commit vals m.head).cur.get (pathOf C s.ck historyKey) = vals.get (historyPath C s.ck) from rfl] at hrun
    simp only [if_true, true_and]
    rw [run_bind_ok hrun]
    cases hv : vals.get (historyPath C s.ck) with
    | none => exact ⟨_, rfl, Around.frame ⟨c, hc, rfl⟩, rfl, h'⟩
    | some v =>
      by_cases hl : v.length = hashSize
      · simp only [hl, if_true]
        exact ⟨_, rfl, ⟨rfl, rfl, rfl, rfl, rfl, le_rfl, fun _ _ h => h, .inl ⟨rfl, rfl, rfl⟩⟩, rfl,
          h'.handle rfl rfl rfl rfl rfl rfl h'.history rfl h'.pin h'.cache rfl rfl rfl⟩
      · simp only [hl, if_false]
        exact ⟨_, rfl, Around.frame ⟨c, hc, rfl⟩, rfl, h'⟩

/-- **`RestoreLeaves` answers as the model does.** -/
theorem Refines.restoreLeaves (h : Refines C W s m g) (hC : C.GcmOk) (hW : VhInj C s.ck W) {leaves : List Leaf}
    (hok : StepOk C s.ck W m (.restoreLeaves leaves)) : Commits C W s m g (.restoreLeaves leaves) := by
  unfold Commits Store.step
  have hroot := hok.root
  simp only [Model.step, Model.restoreLeaves] at hroot ⊢
  set vals := applyLeaves m.cur leaves with hvals
  set d : OrdMap Hash (Option Bytes) := (applyLeaves OrdMap.empty leaves).mapVal fun _ v => some v with hd
  have hdget : ∀ p, d.get p = ((applyLeaves OrdMap.empty leaves).get p).map some := fun p => by
    rw [hd, OrdMap.get_mapVal]
  have hvget : ∀ p, vals.get p = (d.get p).getD (m.cur.get p) := by
    intro p
    rw [hvals, get_applyLeaves, hdget]
    cases (applyLeaves OrdMap.empty leaves).get p <;> rfl
  have hpairs : ∀ p v, d.get p = some (some v) → (p, v) ∈ W := by
    intro p v hp
    rw [hdget] at hp
    obtain ⟨v', hv', he⟩ := Option.map_eq_some_iff.1 hp
    cases he
    exact hok.pairs _ ((mem_of_applyLeaves hv').resolve_left (by simp))
  have hsame : vals = m.cur → ∀ {s₀}, Near s s₀ → Store.restoreLeaves C leaves s = .ok (s.root, s.version) s₀ →
      ((Call.restoreLeaves leaves).exec C s).val = .ok (.committed (m.root C s.ck) m.version) ∧
      Frame C s ((Call.restoreLeaves leaves).exec C s).state ∧
      ∃ g', Refines C W ((Call.restoreLeaves leaves).exec C s).state m g' ∧
        Advance C W s m g ((Call.restoreLeaves leaves).exec C s).state m g' := by
    intro _ s₀ hs₀ hrun
    have hexec : (Call.restoreLeaves leaves).exec C s = _ := run_bind_ok hrun
    rw [hexec]
    refine ⟨?_, hs₀.frame, g, h.near hs₀, .same hs₀.backend rfl rfl rfl⟩
    rw [h.root, h.version]; rfl
  by_cases hempty : (applyLeaves OrdMap.empty leaves).entries = []
  · have hv : vals = m.cur := OrdMap.ext_get fun p => by
      rw [hvget, hdget, OrdMap.get_eq_none.2 (by rw [hempty]; simp)]; rfl
    rw [if_pos hv]
    refine hsame hv (Near.refl h.cache) ?_
    show (if (applyLeaves OrdMap.empty leaves).entries = [] then _ else _ : LedgerM MemBackend _) s = _
    rw [if_pos hempty]
    rfl
  · obtain ⟨⟨acc, us⟩, s₁, hrun₁, hs₁, rfl, cts, rfl, hsealed, -⟩ :=
      returns_sealUpdates (s := s) hC d.entries { newVersion := s.version + 1 } d.sorted s (Near.refl h.cache)
    obtain ⟨⟨acc, child⟩, s₂, hrun₂, hs₂, x, rfl, hnone, hB, hiff, hver⟩ :=
      h.returns_apply hW hok.max hpairs hsealed hvget s₁ hs₁
    simp only at hnone hB hiff hver
    have hrest : Store.restoreLeaves C leaves s = (if x.tree.ref C = s.rootChild then pure (s.root, s.version) else
        commitAcc C acc (x.tree.ref C) (rootHash C (x.tree.ref C)) >>= refreshHead C s.history :
          LedgerM MemBackend (Hash × UInt64)) s₂ := by
      show (if (applyLeaves OrdMap.empty leaves).entries = [] then _ else _ : LedgerM MemBackend _) s = _
      rw [if_neg hempty]
      exact (run_bind_ok hrun₁).trans (run_bind_ok hrun₂)
    by_cases hv : vals = m.cur
    · rw [if_pos hv]
      refine hsame hv hs₂ ?_
      rw [hrest, if_pos (hiff.2 hv)]
      rfl
    · rw [if_neg hv] at hroot ⊢
      rw [if_neg (mt hiff.1 hv)] at hrest
      have hcomp : Computed C W s m g acc (x.tree.ref C) (rootHash C (x.tree.ref C)) (m.commit vals m.head) x :=
        ⟨hB, hver hv, rfl, hB.rootHash, by rw [hnone]; rfl⟩
      obtain ⟨s₃, hcommit, hF, g', hR, hadv⟩ := hcomp.write h hC hW hok.max hroot hs₂
      obtain ⟨s₄, hrun₄, hF', hb₄, hR'⟩ := hR.headRefreshed (by rw [hF.ck]; exact hW) (contentRoot C s.ck vals, m.version + 1)
        s.history h.history
      have hfull : Store.restoreLeaves C leaves s = _ := hrest.trans ((run_bind_ok hcommit).trans hrun₄)
      have hexec : (Call.restoreLeaves leaves).exec C s = _ := run_bind_ok hfull
      rw [hexec]
      rw [hF.ck] at hR'
      refine ⟨rfl, hF.trans hF', g', hR', ?_⟩
      -- the refresh changes the handle only
      cases hadv with
      | same hb hv hp hg => exact .same (hb₄.trans hb) hv hp hg
      | commit hB hb hv hp hg => exact .commit hB (hb₄.trans hb) hv hp hg

end ImmutableLedger
