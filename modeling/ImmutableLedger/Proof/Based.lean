import ImmutableLedger.Proof.Uncached
import ImmutableLedger.Refine.Flaky

/-!
# What every reachable handle keeps

Whatever was called on a store, and however often it was opened again at its checkpoint: its node records are of reached
versions, its root is of the current one, every cached node is the record under its key, and the checkpoint names the
current version. Nothing is assumed of the hashes.

* `moves_grounded`: all of this along a run of calls and resumptions.
-/

namespace ImmutableLedger

open EStateM Machine

variable {C : Crypto} {b s : Store MemBackend}

theorem mirrors_stampLoad {β γ : Type} [Backend β] [Backend γ] {M : Link (Store β) (Store γ)} (hL : Linked C M)
    (v : UInt64) : Mirrors M (stampLoad C v) (stampLoad C v) fun _ => True := by
  refine Mirrors.get_bind fun s t h => ?_
  have hs := hL.same s t h
  rw [hs.version, hs.root, hs.rootChild]
  refine Mirrors.ite (fun _ => Mirrors.throw_bind) fun _ => (mirrors_sealCheckpoint hL _ v).bind fun ckpt _ => ?_
  cases t.rootChild with
  | none => exact Mirrors.pure trivial
  | some c => exact (hL.load _ c.hash).bind fun n _ => Mirrors.pure trivial

/-! ## Runs -/

/-- What every reachable handle keeps. -/
structure Grounded (C : Crypto) (s : Store MemBackend) : Prop where
  based : Based C s
  cache : CacheOk s s.cache

/-- A handle and its twin without a cache. -/
theorem Grounded.twin (h : Grounded C s) : Twin Disabled s s s.uncached :=
  ⟨s.cache, s.cache.setCapacity 0, s.entropy, h.cache, ⟨fun nk n hn => (by cases hn), rfl, fun _ => rfl⟩, rfl, rfl⟩

theorem Based.touched (h : Based C b) (c : NodeCache) (e : ℕ → Nonce) : Based C { b with cache := c, entropy := e } :=
  ⟨h.nodes, h.root, fun hC => ⟨(h.marked hC).mac, (h.marked hC).ckpt⟩⟩

theorem Twins.grounded {t : Store MemBackend} (h : Twins C s t) : Grounded C s := by
  obtain ⟨b, hb, c, c', e, hc, -, rfl, -⟩ := h
  exact ⟨hb.touched c e, hc⟩

theorem Grounded.call (h : Grounded C s) (hmax : s.version < 0xFFFFFFFFFFFFFFFF) (c : Call) :
    Grounded C (s.step C c).2 :=
  (twinned_call h.based hmax c s s.uncached h.twin).2.grounded

/-- A chain mode that was resolved: the head leaf was read, and the mode and the head are set. -/
theorem initHistory_ok {β : Type} [Backend β] {s s' : Store β} {flagKnown flag : Bool}
    (h : initHistory C flagKnown flag s = .ok () s') : ∃ val s₁ on head, Store.get C historyKey s = .ok val s₁ ∧
      s' = { s₁ with history := on, historyHead := head } := by
  obtain ⟨val, s₁, hget, h⟩ := bind_eq_ok h
  refine ⟨val, s₁, ?_⟩
  rw [run_get_bind] at h
  dsimp only at h
  generalize (if flagKnown = true then flag else val.isSome) = on at h
  refine ⟨on, ?_⟩
  cases on with
  | true =>
    cases val with
    | none =>
      obtain ⟨-, h⟩ := guard_eq_ok h
      obtain ⟨-, h⟩ := guard_eq_ok h
      cases h
      exact ⟨_, hget, rfl⟩
    | some v =>
      obtain ⟨-, h⟩ := guard_eq_ok h
      obtain ⟨_, s₂, hset, h⟩ := bind_eq_ok h
      cases hset
      obtain ⟨-, h⟩ := guard_eq_ok h
      cases h
      exact ⟨_, hget, rfl⟩
  | false =>
    obtain ⟨-, h⟩ := guard_eq_ok h
    obtain ⟨-, h⟩ := guard_eq_ok h
    cases h
    exact ⟨_, hget, rfl⟩

theorem ofExcept_ok {β : Type} {α : Type} {r : Except Err α} {s s' : Store β} {a : α}
    (h : (ofExcept r : LedgerM β α) s = .ok a s') : r = .ok a ∧ s' = s := by
  cases r with
  | error e => cases h
  | ok b =>
    cases h
    exact ⟨rfl, rfl⟩

/-- What `OpenLatest` went through when it returned a handle. -/
theorem openLatestM_ok {n s' : Store MemBackend} (h : openLatestM C n = .ok () s') :
    ∃ record root v flags c n₁, OrdMap.get n.backend checkpointRecordKey = some record ∧
      openCheckpoint C n record = .ok (root, v, flags) ∧
      loadRootChild C root v { n with root := root, version := v } = .ok c n₁ ∧
      initHistory C true (flags &&& ckptFlagHistory != 0) { n₁ with rootChild := c } = .ok () s' := by
  obtain ⟨found, n₀, hget, h⟩ := bind_eq_ok h
  cases (show Result.ok (OrdMap.get n.backend checkpointRecordKey) n = .ok found n₀ from hget)
  cases hrec : OrdMap.get n.backend checkpointRecordKey with
  | none =>
    rw [hrec] at h
    cases h
  | some record =>
    rw [hrec] at h
    obtain ⟨n', n₁, hn, h₁⟩ := bind_eq_ok h
    cases hn
    obtain ⟨⟨root, v, flags⟩, n₂, hof, h₂⟩ := bind_eq_ok h₁
    obtain ⟨hckpt, rfl⟩ := ofExcept_ok hof
    obtain ⟨_, n₃, hset, h₃⟩ := bind_eq_ok h₂
    cases hset
    obtain ⟨c, n₄, hload, h₄⟩ := bind_eq_ok h₃
    obtain ⟨_, n₅, hset, h₅⟩ := bind_eq_ok h₄
    cases hset
    exact ⟨record, root, v, flags, c, n₄, rfl, hckpt, hload, h₅⟩

/-- **A handle opened at the checkpoint is grounded**: its version is the one the records go up to. -/
theorem Grounded.openLatest (hC : C.GcmOk) (h : Grounded C s) {entropy : ℕ → Nonce} {s' : Store MemBackend}
    (hopen : openLatest C s.backend s.ck { sk := s.cipher, history := s.wantHistory } entropy = .ok () s') :
    Grounded C s' := by
  obtain ⟨record, root, v, flags, c, n₁, hrec, hckpt, hload, hinit⟩ := openLatestM_ok hopen
  set n := newStore C s.backend s.ck { sk := s.cipher, history := s.wantHistory } entropy with hn
  have hversion : v = s.version := by
    have hmac : n.ckptMAC = s.ckptMAC := (h.based.marked hC).mac.symm
    have hcipher : n.cipher = s.cipher := rfl
    have hsame : openCheckpoint C n record = openCheckpoint C s record := openCheckpoint_congr hcipher hmac record
    exact (h.based.marked hC).ckpt record root v flags hrec (hsame.symm.trans hckpt)
  subst hversion
  -- the handle before the root is loaded, and with it
  have hb : ∀ c : Option Child, (∀ x ∈ c, x.version = s.version) →
      Based C { n with root := root, version := s.version, rootChild := c } := by
    refine fun c hc => ⟨h.based.nodes, hc, fun _ => ⟨rfl, fun record' root' v' flags' hrec' hckpt' => ?_⟩⟩
    rw [show OrdMap.get _ checkpointRecordKey = some record from hrec] at hrec'
    cases hrec'
    have hsame := hckpt.symm.trans hckpt'
    cases hsame
    rfl
  have hb₀ : Based C { n with root := root, version := s.version } := hb none fun c hc => (by cases hc)
  have htwin : Twin Disabled { n with root := root, version := s.version } { n with root := root, version := s.version }
      { n with root := root, version := s.version, cache := n.cache.setCapacity 0 } :=
    ⟨n.cache, n.cache.setCapacity 0, n.entropy, fun nk m hm => (by cases hm),
      ⟨fun nk m hm => (by cases hm), rfl, fun _ => rfl⟩, rfl, rfl⟩
  obtain ⟨t₁, -, ⟨c₁, c₁', e₁, hc₁, hc₁', rfl, -⟩, -, hchild⟩ :=
    (mirrors_loadRootChild (C := C) hb₀.linked root s.version).returned htwin (fun _ _ hcut => hcut) hload
  have hb₁ := hb c hchild
  obtain ⟨val, n₂, on, head, hget, rfl⟩ := initHistory_ok hinit
  obtain ⟨t₂, -, ⟨c₂, c₂', e₂, hc₂, -, rfl, -⟩, -, -⟩ := (mirrors_storeGet hb₁.linked historyKey).returned
    ⟨c₁, c₁', e₁, hc₁, hc₁', rfl, rfl⟩ (fun _ _ hcut => hcut) hget
  exact ⟨⟨hb₁.nodes, hb₁.root, fun hC => ⟨(hb₁.marked hC).mac, (hb₁.marked hC).ckpt⟩⟩, hc₂⟩

theorem Grounded.move (hC : C.GcmOk) (h : Grounded C s) (hmax : s.version < 0xFFFFFFFFFFFFFFFF) (a : Move) :
    Grounded C (s.move C a).2 := by
  cases a with
  | call c => exact h.call hmax c
  | resume =>
    unfold Store.move
    cases hopen : ImmutableLedger.openLatest C s.backend s.ck { sk := s.cipher, history := s.wantHistory } s.entropy with
    | ok _ s' =>
      dsimp only
      exact h.openLatest hC hopen
    | error e s' =>
      exact h

/-- **Every handle reached by calls and resumptions is grounded**, whatever the hashes do. -/
theorem moves_grounded (hC : C.GcmOk) (ck : Bytes) (o : StoreOptions) (entropy : ℕ → Nonce) {ms : List Move}
    (hmax : ∀ s ∈ trace (Store.move C) (created C ck o entropy) ms, s.version < 0xFFFFFFFFFFFFFFFF) :
    Grounded C (run (Store.move C) (created C ck o entropy) ms).2 :=
  invariant (I := Grounded C) (fun _ a hs hv => hs.move hC hv.1 a) (created_twins ck o entropy).grounded (along_of_trace hmax)

end ImmutableLedger
