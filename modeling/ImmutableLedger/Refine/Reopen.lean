import ImmutableLedger.Refine.Run

/-!
# Opening a store again

`Open` at a trusted root and version makes a new handle on the same backend, possibly at a version older than
the newest one the backend holds. The versions above it are given up, but their records and their stale
entries stay behind.

* `Reopenable`: what an `Open` on the handle's backend finds, kept by every call.
* `Refines.reopen`: an `Open` at a readable version answers as the model does, provided the backend holds no
  stale entry marked after that version.
-/

namespace ImmutableLedger

open EStateM

/-- A call on the current handle, or `Open` on its backend, with the same keys and options. -/
inductive Act where
  | call (c : Call)
  | reopen (root : Hash) (version : UInt64)

/-- The store under calls and openings. When `Open` fails, the handle at hand stays. -/
def Store.act (C : Crypto) (s : Store MemBackend) : Act → Except Err Reply × Store MemBackend
  | .call c => s.step C c
  | .reopen root version =>
    match openStore C s.backend s.ck root version { sk := s.cipher, history := s.wantHistory } s.entropy with
    | .ok _ s' => (.ok .done, s')
    | .error e _ => (.error e, s)

namespace Model

/-- The model with the versions above `v` given up. -/
def opened (m : Model) (v : UInt64) (vals : OrdMap Hash Bytes) (head : Hash) : Model :=
  { m with version := v, cur := vals, head := head, pin := none
           past := fun w => if w ≤ v then m.past w else none }

/-- The chain head an `Open` at `version` reads from the reserved leaf, in a chained or unchained store. -/
def chainHead (history : Bool) (version : UInt64) : Option Bytes → Except Err Hash
  | none =>
    if history ∧ version > 0 then .error (errCorrupted "history chain enabled but the head leaf is missing")
    else .ok Hash.zero
  | some x =>
    if history then
      if x.length ≠ hashSize then .error (errCorrupted "history head leaf malformed") else .ok (Hash.ofBytes x)
    else .error (errCorrupted "history head leaf present but the chain flag is off")

/-- `Open` at the version `v` and its root. -/
def reopen (C : Crypto) (ck : Bytes) (m : Model) (v : UInt64) : Except Err Reply × Model :=
  match m.past v with
  | none => (.error (errMissingf "root record v%d" [.uint v]), m)
  | some vals =>
    match chainHead m.history v (vals.get (historyPath C ck)) with
    | .error e => (.error e, m)
    | .ok head => (.ok .done, m.opened v vals head)

/-- The model under calls and openings. -/
def act (C : Crypto) (ck : Bytes) (m : Model) : Act → Except Err Reply × Model
  | .call c => m.step C ck c
  | .reopen _ version => m.reopen C ck version

end Model

variable {C : Crypto} {W : Set (Hash × Bytes)} {s : Store MemBackend} {m : Model} {g : UInt64 → Snap}

/-! ## What `Open` finds -/

/-- The backend of the handle can be opened with its keys and its chain mode. -/
structure Reopenable (C : Crypto) (s : Store MemBackend) : Prop where
  mac : s.ckptMAC = (newStore C s.backend s.ck { sk := s.cipher, history := s.wantHistory } s.entropy).ckptMAC
  want : s.wantHistory = s.history
  ckpt : ∃ record root version, OrdMap.get s.backend checkpointRecordKey = some record ∧
    openCheckpoint C s record = .ok (root, version, ckptFlags s.history)

variable {s' : Store MemBackend}

theorem Frame.reopenable (hF : Frame C s s') (h : Reopenable C s) : Reopenable C s' where
  mac := by
    rw [hF.mac, h.mac]
    simp only [newStore, hF.cipher, hF.ck]
  want := by rw [hF.want, hF.history, h.want]
  ckpt := by
    rcases hF.ckpt with ⟨he, -⟩ | ⟨record, hget, hopen⟩
    · obtain ⟨record, root, version, hget, hopen⟩ := h.ckpt
      refine ⟨record, root, version, he.trans hget, ?_⟩
      rw [openCheckpoint_congr hF.cipher hF.mac, hF.history, hopen]
    · refine ⟨record, s'.root, s'.version, hget, ?_⟩
      rw [openCheckpoint_congr hF.cipher hF.mac, hF.history, hopen]

theorem created_reopenable (hC : C.GcmOk) (ck : Bytes) (o : StoreOptions) (entropy : ℕ → Nonce) :
    Reopenable C (created C ck o entropy) := by
  obtain ⟨ckpt, e, hopen, hrun⟩ := @create_run C ck hC o entropy
  unfold created
  rw [hrun]
  exact ⟨rfl, rfl, ckpt, _, _, get_stamped_checkpoint, hopen⟩

/-- The checkpoint record is that of the root and the version of the handle. -/
def Checkpointed (C : Crypto) (s : Store MemBackend) : Prop :=
  ∃ record, OrdMap.get s.backend checkpointRecordKey = some record ∧
    openCheckpoint C s record = .ok (s.root, s.version, ckptFlags s.history)

theorem Frame.checkpointed (hF : Frame C s s') (h : Checkpointed C s) : Checkpointed C s' := by
  rcases hF.ckpt with ⟨he, hroot, hversion⟩ | ⟨record, hget, hopen⟩
  · obtain ⟨record, hget, hopen⟩ := h
    refine ⟨record, he.trans hget, ?_⟩
    rw [openCheckpoint_congr hF.cipher hF.mac, hopen, hF.history, hroot, hversion]
  · refine ⟨record, hget, ?_⟩
    rw [openCheckpoint_congr hF.cipher hF.mac, hopen, hF.history]

theorem created_checkpointed (hC : C.GcmOk) (ck : Bytes) (o : StoreOptions) (entropy : ℕ → Nonce) :
    Checkpointed C (created C ck o entropy) := by
  obtain ⟨ckpt, e, hopen, hrun⟩ := @create_run C ck hC o entropy
  unfold created
  rw [hrun]
  exact ⟨ckpt, get_stamped_checkpoint, hopen⟩

/-- The stale entries of the backend were marked at version `v` or before. -/
def StaleUpTo (b : MemBackend) (v : UInt64) : Prop :=
  ∀ t target, (OrdMap.get b (staleRecordKey t target)).isSome → t ≤ v

variable {v : UInt64}

theorem staleUpTo_of_entries {b : MemBackend}
    (h : ∀ e ∈ b.entries, e.1.head? = some recStale → Bytes.toU64 ((e.1.drop 1).take 8) ≤ v) : StaleUpTo b v := by
  intro t target hs
  obtain ⟨r, hr⟩ := Option.isSome_iff_exists.1 hs
  have := h _ (OrdMap.mem_entries.2 hr) rfl
  rwa [staleRecordKey, List.drop_one, List.tail_cons, List.take_left' (Bytes.length_u64 t), Bytes.toU64_u64] at this

/-! ## Opening at a readable version -/

variable {vals : OrdMap Hash Bytes}

/-- A new handle at a readable version holds the map of that version. -/
theorem Refines.opened (h : Refines C W s m g) (hv : m.past v = some vals)
    (hst : StaleUpTo s.backend v) (hb : s'.backend = s.backend) (hck : s'.ck = s.ck)
    (hcipher : s'.cipher = s.cipher) (hversion : s'.version = v) (hroot : s'.root = contentRoot C s.ck vals)
    (hchild : s'.rootChild = (g v).tree.ref C) (hpin : s'.snapshotPin = none) (hcache : CacheOk s' s'.cache) :
    Refines C W s' { m.opened v vals s'.historyHead with history := s'.history } g where
  version := hversion
  root := by rw [hroot, hck]; rfl
  child := hchild
  history := rfl
  head := rfl
  pin := hpin
  cur := by simp only [Model.opened, le_refl, if_true]; exact hv
  snaps w vals' hw := by
    simp only [Model.opened] at hw ⊢
    split at hw
    · rename_i hle
      refine ⟨hle, (h.snaps w vals' hw).2.transfer hck hcipher (by rw [hversion]; exact hle) fun r _ => by rw [hb]⟩
    · cases hw
  roots w hw := by
    simp only [Model.opened] at hw ⊢
    rw [if_pos hw, hb, hck]
    exact h.roots w (le_trans hw (h.snaps v vals hv).1)
  rootKeys k r hk hh := h.rootKeys k r (by rw [← hb]; exact hk) hh
  stale k r hk hh := by
    rw [hb] at hk
    obtain ⟨t, x, rfl, hd⟩ := h.stale k r hk hh
    refine ⟨t, x, rfl, hd.old, hst t _ (by rw [hk]; rfl), fun w vals' ht hw => ?_⟩
    simp only [Model.opened] at hw
    split at hw
    · exact hd.unused w vals' ht hw
    · cases hw
  cache := hcache

theorem ckptFlags_history (b : Bool) : (ckptFlags b &&& ckptFlagHistory != 0) = b := by cases b <;> decide

/-- The handle `Open` starts from, with or without the chain asked for. -/
def openHandle (C : Crypto) (s : Store MemBackend) (want : Bool) (entropy : ℕ → Nonce) : Store MemBackend :=
  newStore C s.backend s.ck { sk := s.cipher, history := want } entropy

/-- `Open` once the root child is loaded. -/
theorem openM_eq {β : Type} [Backend β] {s s₂ : Store β} {root : Hash} {version : UInt64} {c : Option Child}
    (h : loadRootChild C root version { s with root := root, version := version } = .ok c s₂) :
    openM C root version s = (match (Backend.get s₂.backend checkpointRecordKey).1 with
      | .ok (some record) =>
        match openCheckpoint C { s₂ with rootChild := c } record with
        | .ok (_, _, flags) => initHistory C true (flags &&& ckptFlagHistory != 0)
        | .error _ => initHistory C false false
      | _ => initHistory C false false : LedgerM β Unit)
        { s₂ with rootChild := c, backend := (Backend.get s₂.backend checkpointRecordKey).2 } := by
  unfold openM
  exact (run_bind_ok rfl).trans ((run_bind_ok h).trans rfl)

/-- `Open` once the root child is loaded, over a checkpoint that opens. -/
theorem openM_of_checkpoint {s s₂ : Store MemBackend} {root root' : Hash} {version version' : UInt64} {c : Option Child}
    {record : Bytes} {on : Bool}
    (h : loadRootChild C root version { s with root := root, version := version } = .ok c s₂)
    (hget : OrdMap.get s₂.backend checkpointRecordKey = some record)
    (hopen : openCheckpoint C { s₂ with rootChild := c } record = .ok (root', version', ckptFlags on)) :
    openM C root version s = initHistory C true on { s₂ with rootChild := c } := by
  have hread : (Backend.get s₂.backend checkpointRecordKey).1 = .ok (some record) := congrArg Except.ok hget
  rw [openM_eq h, hread]
  simp only [hopen, ckptFlags_history]
  rfl

section
variable {want : Bool} {entropy : ℕ → Nonce} {v : UInt64} {vals : OrdMap Hash Bytes}

/-- The handle once the root child of a version is loaded. -/
def loadedHandle (C : Crypto) (s : Store MemBackend) (want : Bool) (entropy : ℕ → Nonce) (v : UInt64)
    (vals : OrdMap Hash Bytes) (x : Snap) (c : NodeCache) : Store MemBackend :=
  { openHandle C s want entropy with
    root := contentRoot C s.ck vals, version := v, rootChild := x.tree.ref C, cache := c }

/-- The root child of a readable version loads. -/
theorem Refines.loadRootChild_run (h : Refines C W s m g) (hv : m.past v = some vals) :
    ∃ c, CacheOk { openHandle C s want entropy with version := v } c ∧
      loadRootChild C (contentRoot C s.ck vals) v
        { openHandle C s want entropy with root := contentRoot C s.ck vals, version := v } =
        .ok ((g v).tree.ref C)
          { openHandle C s want entropy with root := contentRoot C s.ck vals, version := v, cache := c } := by
  have hx : SnapOk C W { openHandle C s want entropy with root := contentRoot C s.ck vals, version := v } v vals (g v) :=
    (h.snaps v vals hv).2.transfer rfl rfl le_rfl fun _ _ => rfl
  obtain ⟨_, ⟨c, hc, rfl⟩, hload⟩ := hx.yields_loadRootChild
    { openHandle C s want entropy with root := contentRoot C s.ck vals, version := v }
    (around_self fun nk n hn => by cases hn)
  exact ⟨c, hc, hload⟩

/-- `Open` up to the chain mode: the root child is loaded, and the checkpoint gives the mode. -/
theorem Refines.openM_run (h : Refines C W s m g) (hr : Reopenable C s) (hv : m.past v = some vals) :
    ∃ c, CacheOk { openHandle C s want entropy with version := v } c ∧
      openM C (contentRoot C s.ck vals) v (openHandle C s want entropy) =
        initHistory C true s.history (loadedHandle C s want entropy v vals (g v) c) := by
  obtain ⟨c, hc, hload⟩ := h.loadRootChild_run hv
  obtain ⟨record, root, version, hget, hopen⟩ := hr.ckpt
  have hopen' : openCheckpoint C (loadedHandle C s want entropy v vals (g v) c) record =
      .ok (root, version, ckptFlags s.history) := by
    refine (openCheckpoint_congr (s := s) ?_ ?_ record).trans hopen
    · rfl
    · exact hr.mac.symm
  exact ⟨c, hc, openM_of_checkpoint hload hget hopen'⟩

/-- `OpenLatest` opens at the root and the version of the checkpoint. -/
theorem Refines.openLatestM_run (h : Refines C W s m g) (hr : Reopenable C s) (hk : Checkpointed C s) :
    ∃ c, CacheOk { openHandle C s want entropy with version := m.version } c ∧
      openLatestM C (openHandle C s want entropy) =
        initHistory C true s.history (loadedHandle C s want entropy m.version m.cur (g m.version) c) := by
  obtain ⟨c, hc, hload⟩ := h.loadRootChild_run h.cur
  obtain ⟨record, hget, hopen⟩ := hk
  rw [h.root, h.version] at hopen
  refine ⟨c, hc, ?_⟩
  have hread : (backendGet checkpointRecordKey : LedgerM MemBackend _) (openHandle C s want entropy) =
      .ok (some record) (openHandle C s want entropy) := by
    rw [backendGet_mem]
    exact congrArg (fun r => Result.ok r _) hget
  have hopen' : (ofExcept (openCheckpoint C (openHandle C s want entropy) record) : LedgerM MemBackend _)
      (openHandle C s want entropy) =
      .ok (m.root C s.ck, m.version, ckptFlags s.history) (openHandle C s want entropy) := by
    have hcongr : openCheckpoint C (openHandle C s want entropy) record = openCheckpoint C s record := by
      refine openCheckpoint_congr (s := s) ?_ ?_ record
      · rfl
      · exact hr.mac.symm
    rw [hcongr, hopen]
    rfl
  refine (run_bind_ok hread).trans ((run_bind_ok hopen').trans ((run_bind_ok hload).trans ?_))
  show initHistory C true (ckptFlags s.history &&& ckptFlagHistory != 0) _ = _
  rw [ckptFlags_history]
  rfl

end

/-- Resolving a known chain mode from the head leaf that was read. -/
theorem initHistory_known {β : Type} [Backend β] {s s₁ : Store β} {val : Option Bytes} {on : Bool}
    (hget : Store.get C historyKey s = .ok val s₁) (hon : s₁.wantHistory = true → on = true)
    (hzero : s₁.historyHead = Hash.zero) :
    (∀ head, Model.chainHead on s₁.version val = .ok head →
      initHistory C true on s = .ok () { s₁ with history := on, historyHead := head }) ∧
    ∀ e, Model.chainHead on s₁.version val = .error e → initHistory C true on s = .error e s₁ := by
  have hrun : initHistory C true on s = _ := (run_bind_ok hget).trans (run_bind_ok rfl)
  rw [hrun]
  cases val with
  | none =>
    cases on with
    | true =>
      by_cases hpos : s₁.version > 0
      · simp only [Model.chainHead, hpos, and_self, if_true]
        exact ⟨fun _ h => (by cases h), fun e h => (by cases h; rfl)⟩
      · simp only [Model.chainHead, hpos, and_false, if_true, if_false]
        refine ⟨fun head h => ?_, fun _ h => (by cases h)⟩
        cases h
        rw [← hzero]
        simp only [not_true_eq_false, and_false, if_false]
        rfl
    | false =>
      have hwant : s₁.wantHistory = false := Bool.eq_false_iff.2 fun h => Bool.false_ne_true (hon h)
      simp only [Model.chainHead, Bool.false_eq_true, false_and, if_false, if_true]
      refine ⟨fun head h => ?_, fun _ h => (by cases h)⟩
      cases h
      rw [← hzero]
      conv_lhs => simp only [Option.isSome_none, hwant, Bool.false_eq_true, false_and, if_false]
      rfl
  | some x =>
    cases on with
    | true =>
      by_cases hx : x.length = hashSize
      · simp only [Model.chainHead, hx, ne_eq, not_true_eq_false, if_true, if_false]
        refine ⟨fun head h => ?_, fun _ h => (by cases h)⟩
        cases h
        simp only [and_false, if_false]
        rfl
      · simp only [Model.chainHead, hx, ne_eq, not_false_eq_true, if_true]
        exact ⟨fun _ h => (by cases h), fun e h => (by cases h; rfl)⟩
    | false =>
      simp only [Model.chainHead, Bool.false_eq_true, if_false, if_true]
      exact ⟨fun _ h => (by cases h), fun e h => (by cases h; rfl)⟩

/-- The handle an `Open` of `s` returns, at a version with the map `vals` and the chain head `head`. -/
structure Opened (C : Crypto) (W : Set (Hash × Bytes)) (s : Store MemBackend) (m : Model) (g : UInt64 → Snap)
    (want : Bool) (v : UInt64) (vals : OrdMap Hash Bytes) (head : Hash) (s' : Store MemBackend) : Prop where
  ck : s'.ck = s.ck
  backend : s'.backend = s.backend
  cipher : s'.cipher = s.cipher
  mac : s'.ckptMAC = s.ckptMAC
  want : s'.wantHistory = want
  history : s'.history = s.history
  refines : Refines C W s' (m.opened v vals head) g

section
variable {want : Bool} {entropy : ℕ → Nonce} {v : UInt64} {vals : OrdMap Hash Bytes}

/-- What `Open` and `OpenLatest` do with the loaded handle: the chain head is read, or is found at fault. -/
theorem Refines.opens (h : Refines C W s m g) (hr : Reopenable C s) (hW : VhInj C s.ck W)
    (hwant : want = true → s.history = true) (hv : m.past v = some vals) (hst : StaleUpTo s.backend v) {c : NodeCache}
    (hc : CacheOk { openHandle C s want entropy with version := v } c) :
    (∀ head, Model.chainHead s.history v (vals.get (historyPath C s.ck)) = .ok head →
      ∃ s', initHistory C true s.history (loadedHandle C s want entropy v vals (g v) c) = .ok () s' ∧
        Opened C W s m g want v vals head s') ∧
    ∀ e, Model.chainHead s.history v (vals.get (historyPath C s.ck)) = .error e →
      ∃ s', initHistory C true s.history (loadedHandle C s want entropy v vals (g v) c) = .error e s' := by
  have h₂ : Refines C W (loadedHandle C s want entropy v vals (g v) c) _ g :=
    h.opened hv hst rfl rfl rfl rfl rfl rfl rfl hc
  obtain ⟨_, ⟨c', hc', rfl⟩, hget⟩ := h₂.yields_get hW historyKey _ (around_self h₂.cache)
  obtain ⟨hok, herr⟩ := initHistory_known hget hwant rfl
  refine ⟨fun head hhead => ⟨_, hok head hhead, rfl, rfl, rfl, hr.mac.symm, rfl, rfl, ?_⟩, fun e he => ⟨_, herr e he⟩⟩
  exact h₂.handle rfl rfl rfl rfl rfl rfl h.history rfl rfl hc' rfl rfl rfl

end

theorem Opened.reopenable {want : Bool} {head : Hash}
    (h : Opened C W s m g want v vals head s') (hr : Reopenable C s) (hwant : want = s.history) : Reopenable C s' where
  mac := by
    rw [h.mac, hr.mac]
    simp only [newStore, h.cipher, h.ck]
  want := by rw [h.want, hwant, h.history]
  ckpt := by
    obtain ⟨record, root, version, hget, hrec⟩ := hr.ckpt
    refine ⟨record, root, version, by rw [h.backend]; exact hget, ?_⟩
    rw [openCheckpoint_congr h.cipher h.mac, h.history, hrec]

/-- **`Open` at a readable version answers as the model does**, when no stale entry was marked after it. -/
theorem Refines.reopen (h : Refines C W s m g) (hr : Reopenable C s) (hW : VhInj C s.ck W)
    (hv : m.past v = some vals) (hst : StaleUpTo s.backend v) :
    (s.act C (.reopen (contentRoot C s.ck vals) v)).1 = (m.reopen C s.ck v).1 ∧
      (s.act C (.reopen (contentRoot C s.ck vals) v)).2.ck = s.ck ∧
      Reopenable C (s.act C (.reopen (contentRoot C s.ck vals) v)).2 ∧
      ∃ g, Refines C W (s.act C (.reopen (contentRoot C s.ck vals) v)).2 (m.reopen C s.ck v).2 g := by
  obtain ⟨c, hc, hopen⟩ : ∃ c, CacheOk { openHandle C s s.wantHistory s.entropy with version := v } c ∧
      openM C (contentRoot C s.ck vals) v (openHandle C s s.wantHistory s.entropy) =
        initHistory C true s.history (loadedHandle C s s.wantHistory s.entropy v vals (g v) c) := h.openM_run hr hv
  obtain ⟨hok, herr⟩ := h.opens hr hW (fun hw => by rw [← hr.want]; exact hw) hv hst hc
  unfold Store.act openStore Model.reopen
  rw [openHandle] at hopen
  dsimp only
  rw [hv, ← h.history, hopen]
  dsimp only
  cases hhead : Model.chainHead s.history v (vals.get (historyPath C s.ck)) with
  | error e =>
    obtain ⟨s', hrun⟩ := herr e hhead
    rw [hrun]
    exact ⟨rfl, rfl, hr, g, h⟩
  | ok head =>
    obtain ⟨s', hrun, hs'⟩ := hok head hhead
    rw [hrun]
    exact ⟨rfl, hs'.ck, hs'.reopenable hr hr.want, g, hs'.refines⟩

end ImmutableLedger
