import ImmutableLedger.Refine.Reopen

/-!
# Stores a process can reach

A store made by `Create`, driven by any calls, and opened again at its checkpoint any number of times: a process
that stops is followed by one that calls `OpenLatest` on the backend it left.

* `Anchored`: what every call keeps, so that the checkpoint is that of the current root and version.
* `Tracked.openLatest`: `OpenLatest` returns a handle on the same map, or finds the chain head at fault.
* `moves_track`: a run of calls and resumptions answers as the versioned map does.
* `Reached`: the store and the versioned map at the end of such a run.
-/

namespace ImmutableLedger

open EStateM Machine

variable {C : Crypto} {ck : Bytes}

/-! ## The checkpoint of a handle -/

/-- What every call on a handle keeps, of a store created with the storage key and chain mode of `o`. -/
structure Anchored (C : Crypto) (o : StoreOptions) (s : Store MemBackend) : Prop where
  cipher : s.cipher = o.sk
  history : s.history = o.history
  reopenable : Reopenable C s
  checkpointed : Checkpointed C s

theorem anchored_frame {o : StoreOptions} (s s' : Store MemBackend) (hF : Frame C s s') (h : Anchored C o s) :
    Anchored C o s' :=
  ⟨hF.cipher.trans h.cipher, hF.history.trans h.history, hF.reopenable h.reopenable, hF.checkpointed h.checkpointed⟩

theorem created_anchored (hC : C.GcmOk) (ck : Bytes) (o : StoreOptions) (entropy : ℕ → Nonce) :
    Anchored C o (created C ck o entropy) := by
  refine ⟨?_, ?_, created_reopenable hC ck o entropy, created_checkpointed hC ck o entropy⟩
  · obtain ⟨ckpt, e, -, hrun⟩ := @create_run C ck hC o entropy
    unfold created
    rw [hrun]
    rfl
  · obtain ⟨ckpt, e, -, hrun⟩ := @create_run C ck hC o entropy
    unfold created
    rw [hrun]
    rfl

theorem Refines.staleUpTo {W : Set (Hash × Bytes)} {s : Store MemBackend} {m : Model} {g : UInt64 → Snap}
    (h : Refines C W s m g) : StaleUpTo s.backend m.version := by
  intro t target hsome
  obtain ⟨r, hr⟩ := Option.isSome_iff_exists.1 hsome
  obtain ⟨t', x, he, hdead⟩ := h.stale _ r hr rfl
  have hkey : RecKey.stale t target = .stale t' x.bytes := RecKey.bytes_inj he
  cases hkey
  exact hdead.since

/-! ## Opening at the checkpoint -/

/-- A call on the handle, or `OpenLatest` on its backend with the same keys and options. -/
inductive Move where
  | call (c : Call)
  | resume

/-- The store under calls and resumptions. When `OpenLatest` fails, the handle at hand stays. -/
def Store.move (C : Crypto) (s : Store MemBackend) : Move → Except Err Reply × Store MemBackend
  | .call c => s.step C c
  | .resume =>
    match openLatest C s.backend s.ck { sk := s.cipher, history := s.wantHistory } s.entropy with
    | .ok _ s' => (.ok .done, s')
    | .error e _ => (.error e, s)

/-- The values a move writes, with their paths. -/
def Move.pairs (C : Crypto) (ck : Bytes) : Move → List (Hash × Bytes)
  | .call c => c.pairs C ck
  | .resume => []

namespace Model

/-- The model as a new handle at the checkpoint sees it: the pin is gone. -/
def resumed (m : Model) (head : Hash) : Model := { m with head := head, pin := none }

/-- `OpenLatest`: the head leaf is read, or found at fault. -/
def resume (C : Crypto) (ck : Bytes) (m : Model) : Except Err Reply × Model :=
  match chainHead m.history m.version (m.cur.get (historyPath C ck)) with
  | .error e => (.error e, m)
  | .ok head => (.ok .done, m.resumed head)

/-- The model under calls and resumptions. -/
def move (C : Crypto) (ck : Bytes) (m : Model) : Move → Except Err Reply × Model
  | .call c => m.step C ck c
  | .resume => m.resume C ck

end Model

/-- The store holds the model's state on one handle, and its checkpoint is that of the handle. -/
structure Tracked (C : Crypto) (ck : Bytes) (o : StoreOptions) (W : Set (Hash × Bytes)) (s : Store MemBackend)
    (m : Model) : Prop where
  handle : OneHandle C ck W s m
  anchored : Anchored C o s

section
variable {o : StoreOptions} {W : Set (Hash × Bytes)} {s : Store MemBackend} {m : Model}

/-- No version above the current one can be read. -/
theorem Refines.opened_self {g : UInt64 → Snap} (h : Refines C W s m g) (head : Hash) :
    m.opened m.version m.cur head = m.resumed head := by
  have hpast : (fun w => if w ≤ m.version then m.past w else none) = m.past := by
    funext w
    by_cases hw : w ≤ m.version
    · rw [if_pos hw]
    · rw [if_neg hw]
      cases hp : m.past w with
      | none => rfl
      | some vals => exact absurd (h.snaps w vals hp).1 hw
  unfold Model.opened Model.resumed
  rw [hpast]

/-- A handle opened at the checkpoint is tracked, and anchored when the same chain mode was asked for. -/
theorem Tracked.of_opened {g : UInt64 → Snap} {want : Bool} {head : Hash} {s' : Store MemBackend} (h : Tracked C ck o W s m)
    (hR : Refines C W s m g) (hs' : Opened C W s m g want m.version m.cur head s') (hwant : want = s.history) :
    Tracked C ck o W s' (m.resumed head) := by
  obtain ⟨⟨hck, hfresh, -⟩, ha⟩ := h
  have hR' := hs'.refines
  rw [hR.opened_self head] at hR'
  have hversion : s'.version = s.version := hR'.version.trans hR.version.symm
  have hroot : s'.root = s.root := by
    rw [hR'.root, hR.root, hs'.ck]
    rfl
  refine ⟨⟨hs'.ck.trans hck, ?_, g, hR'⟩, hs'.cipher.trans ha.cipher, hs'.history.trans ha.history,
    hs'.reopenable ha.reopenable hwant, ?_⟩
  · intro w hw
    rw [hs'.backend]
    exact hfresh w (by rw [← hversion]; exact hw)
  · obtain ⟨record, hget, hopen⟩ := ha.checkpointed
    refine ⟨record, by rw [hs'.backend]; exact hget, ?_⟩
    rw [openCheckpoint_congr hs'.cipher hs'.mac, hopen, hroot, hversion, hs'.history]

/-- **`OpenLatest` on the backend of a tracked store** returns a handle with its root, version and chain mode and
the chain head of the head leaf, or reports the fault of the head leaf. -/
theorem Tracked.openLatest (hW : VhInj C ck W) (h : Tracked C ck o W s m) {want : Bool} (entropy : ℕ → Nonce)
    (hwant : want = true → o.history = true) :
    (∀ head, Model.chainHead o.history m.version (m.cur.get (historyPath C ck)) = .ok head →
      ∃ s', openLatest C s.backend ck { sk := o.sk, history := want } entropy = .ok () s' ∧
        s'.root = s.root ∧ s'.version = s.version ∧ s'.history = s.history ∧ s'.historyHead = head ∧
        (want = o.history → Tracked C ck o W s' (m.resumed head))) ∧
    ∀ e, Model.chainHead o.history m.version (m.cur.get (historyPath C ck)) = .error e →
      ∃ s', openLatest C s.backend ck { sk := o.sk, history := want } entropy = .error e s' := by
  have htracked := h
  obtain ⟨⟨rfl, hfresh, g, hR⟩, ha⟩ := h
  obtain ⟨c, hc, hopen⟩ := @Refines.openLatestM_run _ _ _ _ _ want entropy hR ha.reopenable ha.checkpointed
  obtain ⟨hok, herr⟩ := hR.opens ha.reopenable hW (fun hw => by rw [ha.history]; exact hwant hw) hR.cur
    hR.staleUpTo hc
  have hrun : ImmutableLedger.openLatest C s.backend s.ck { sk := o.sk, history := want } entropy =
      initHistory C true s.history (loadedHandle C s want entropy m.version m.cur (g m.version) c) := by
    unfold ImmutableLedger.openLatest
    rw [← ha.cipher]
    exact hopen
  rw [← ha.history, hrun]
  refine ⟨fun head hhead => ?_, fun e he => herr e he⟩
  obtain ⟨s', hs', hopened⟩ := hok head hhead
  refine ⟨s', hs', ?_, ?_, hopened.history, hopened.refines.head, fun hw => ?_⟩
  · rw [hopened.refines.root, hR.root, hopened.ck]; rfl
  · rw [hopened.refines.version, hR.version]; rfl
  · exact htracked.of_opened hR hopened hw

/-- **A resumption answers as the model does.** -/
theorem Tracked.resume (hW : VhInj C ck W) (h : Tracked C ck o W s m) :
    (s.move C .resume).1 = (m.move C ck .resume).1 ∧ Tracked C ck o W (s.move C .resume).2 (m.move C ck .resume).2 := by
  have hwant : s.wantHistory = o.history := h.anchored.reopenable.want.trans h.anchored.history
  have hhist : m.history = o.history := by
    obtain ⟨⟨-, -, g, hR⟩, ha⟩ := h
    exact hR.history.symm.trans ha.history
  obtain ⟨hok, herr⟩ := h.openLatest hW s.entropy fun hw => hwant ▸ hw
  unfold Store.move Model.move Model.resume
  dsimp only
  rw [h.handle.1, h.anchored.cipher, hhist]
  cases hhead : Model.chainHead o.history m.version (m.cur.get (historyPath C ck)) with
  | error e =>
    obtain ⟨s', hs'⟩ := herr e hhead
    rw [hs']
    exact ⟨rfl, h⟩
  | ok head =>
    obtain ⟨s', hs', -, -, -, -, htracked⟩ := hok head hhead
    rw [hs']
    exact ⟨rfl, htracked hwant⟩

theorem Tracked.step (hC : C.GcmOk) (hW : VhInj C ck W) {c : Call} (h : Tracked C ck o W s m)
    (hok : StepOk C ck W m c) : (s.step C c).1 = (m.step C ck c).1 ∧ Tracked C ck o W (s.step C c).2 (m.step C ck c).2 := by
  obtain ⟨hreply, hF, hs'⟩ := h.handle.step hC hW hok
  exact ⟨hreply, hs', anchored_frame _ _ hF h.anchored⟩

end

/-! ## Runs -/

/-- A run of calls and resumptions meets no collision. -/
abbrev NoCollisionMoves (C : Crypto) (ck : Bytes) (history : Bool) (ms : List Move) : Prop :=
  NoCollisionIn C ck (Model.move C ck) (Move.pairs C ck) (Model.init history) ms

/-- The values a run of calls and resumptions writes. -/
abbrev movePairs (C : Crypto) (ck : Bytes) (history : Bool) (ms : List Move) : Set (Hash × Bytes) :=
  {e | e ∈ runPairs C ck (Model.move C ck) (Move.pairs C ck) (Model.init history) ms}

/-- The first part of a run of calls and resumptions from `Create` answers as the versioned map does, and ends in a
store that is tracked for the whole of it. Only the first part must not exhaust the versions. -/
theorem moves_track_left (hC : C.GcmOk) (o : StoreOptions) (entropy : ℕ → Nonce) {ms ns : List Move}
    (h : NoCollisionMoves C ck o.history (ms ++ ns))
    (hmax : ∀ m ∈ trace (Model.move C ck) (Model.init o.history) ms, m.version < 0xFFFFFFFFFFFFFFFF) :
    (run (Store.move C) (created C ck o entropy) ms).1 = (run (Model.move C ck) (Model.init o.history) ms).1 ∧
      Tracked C ck o (movePairs C ck o.history (ms ++ ns)) (run (Store.move C) (created C ck o entropy) ms).2
        (run (Model.move C ck) (Model.init o.history) ms).2 := by
  obtain ⟨hR, hfresh⟩ := @created_refines C ck hC o entropy (movePairs C ck o.history (ms ++ ns))
  have hstart : Tracked C ck o (movePairs C ck o.history (ms ++ ns)) (created C ck o entropy) (Model.init o.history) :=
    ⟨⟨created_ck hC o entropy, hfresh, _, hR⟩, created_anchored hC ck o entropy⟩
  have hversions := (along_of_trace hmax).mono fun _ _ _ hm => hm.1
  refine simulation (fun s m c hs _ hok => ?_) hstart (along_true _ _) (hversions.and (along_append.1 h.steps).1)
  cases c with
  | call c => exact hs.step hC h.values ⟨hok.1, hok.2.1, fun _ => hok.2.2.1, hok.2.2.2⟩
  | resume => exact hs.resume h.values

/-- **A run of calls and resumptions from `Create` answers as the versioned map does.** -/
theorem moves_track (hC : C.GcmOk) (o : StoreOptions) (entropy : ℕ → Nonce) {ms : List Move}
    (h : NoCollisionMoves C ck o.history ms)
    (hmax : ∀ m ∈ trace (Model.move C ck) (Model.init o.history) ms, m.version < 0xFFFFFFFFFFFFFFFF) :
    (run (Store.move C) (created C ck o entropy) ms).1 = (run (Model.move C ck) (Model.init o.history) ms).1 ∧
      Tracked C ck o (movePairs C ck o.history ms) (run (Store.move C) (created C ck o entropy) ms).2
        (run (Model.move C ck) (Model.init o.history) ms).2 := by
  have hleft := @moves_track_left C ck hC o entropy ms [] (by rw [List.append_nil]; exact h) hmax
  rw [List.append_nil] at hleft
  exact hleft

/-- The store `s` and the versioned map `m` at the end of a run `ms` of calls and resumptions from `Create`, which
meets no collision and does not exhaust the versions. -/
structure Reached (C : Crypto) (ck : Bytes) (o : StoreOptions) (entropy : ℕ → Nonce) (ms : List Move)
    (s : Store MemBackend) (m : Model) : Prop where
  noCollision : NoCollisionMoves C ck o.history ms
  max : ∀ m ∈ trace (Model.move C ck) (Model.init o.history) ms, m.version < 0xFFFFFFFFFFFFFFFF
  store : s = (run (Store.move C) (created C ck o entropy) ms).2
  model : m = (run (Model.move C ck) (Model.init o.history) ms).2

section
variable {o : StoreOptions} {entropy : ℕ → Nonce} {ms : List Move} {s : Store MemBackend} {m : Model}

theorem Reached.tracked (hC : C.GcmOk) (h : Reached C ck o entropy ms s m) :
    Tracked C ck o (movePairs C ck o.history ms) s m := by
  rw [h.store, h.model]
  exact (moves_track hC o entropy h.noCollision h.max).2

/-- A call on a reached store that meets no collision: the store is tracked for the longer run. -/
theorem Reached.call (hC : C.GcmOk) {c : Call} (h : Reached C ck o entropy ms s m)
    (hno : NoCollisionMoves C ck o.history (ms ++ [.call c])) :
    Tracked C ck o (movePairs C ck o.history (ms ++ [.call c])) s m ∧
      StepOk C ck (movePairs C ck o.history (ms ++ [.call c])) m c := by
  obtain ⟨-, htracked⟩ := moves_track_left hC o entropy hno h.max
  rw [← h.store, ← h.model] at htracked
  have hlast := (along_append.1 hno.steps).2.1
  rw [← h.model] at hlast
  have hversion := h.max _ (last_mem_trace _ _)
  rw [← h.model] at hversion
  exact ⟨htracked, hversion, hlast.1, fun _ => hlast.2.1, hlast.2.2⟩

/-- One more call on a reached store: the store is tracked for the longer run, which meets no collision at the call. -/
theorem Reached.next (hC : C.GcmOk) {c : Call} {s' : Store MemBackend} {m' : Model} (h : Reached C ck o entropy ms s m)
    (h' : Reached C ck o entropy (ms ++ [.call c]) s' m') :
    s' = (s.step C c).2 ∧ m' = (m.step C ck c).2 ∧ VhInj C ck (movePairs C ck o.history (ms ++ [.call c])) ∧
      Tracked C ck o (movePairs C ck o.history (ms ++ [.call c])) s m ∧
      StepOk C ck (movePairs C ck o.history (ms ++ [.call c])) m c := by
  have hstore := h'.store
  have hmodel := h'.model
  rw [run_append, ← h.store] at hstore
  rw [run_append, ← h.model] at hmodel
  obtain ⟨htracked, hok⟩ := h.call hC h'.noCollision
  exact ⟨hstore, hmodel, h'.noCollision.values, htracked, hok⟩

end

/-- Two commits of a chained store on three keys, after which it is opened again. -/
def sampleMoves : List Move :=
  [.call (.putBatch [.put [2] [20], .put [5] [50]]), .call (.putBatch [.put [9] [90], .del [2]]), .resume]

def sampleStore : Store MemBackend :=
  (run (Store.move quickCrypto) (created quickCrypto [] { history := true } fun _ => Nonce.zero) sampleMoves).2

def sampleModel : Model := (run (Model.move quickCrypto []) (Model.init true) sampleMoves).2

theorem sampleStore_reached :
    Reached quickCrypto [] { history := true } (fun _ => Nonce.zero) sampleMoves sampleStore sampleModel :=
  ⟨⟨vhInj_of_nodup (by decide +kernel), by decide +kernel⟩, by decide +kernel, rfl, rfl⟩

end ImmutableLedger
