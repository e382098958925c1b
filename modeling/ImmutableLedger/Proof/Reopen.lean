import ImmutableLedger.Refine.Reopen
import ImmutableLedger.Proof.Retention

/-!
# Pruning after a store was opened again

Opening at a version older than the newest one leaves behind the stale entries of the versions given up. A
commit then reuses their version numbers, and a prune deletes a record that such an entry names although the
current version uses it (`reopened_prune_loses_key`). Where every `Open` finds no stale entry marked after
the version it opens, a prune loses nothing (`reopened_prune_safe`).
-/

namespace ImmutableLedger

open EStateM Machine

variable {C : Crypto} {ck : Bytes}

/-- The values an act writes, with their paths. -/
def Act.pairs (C : Crypto) (ck : Bytes) : Act → List (Hash × Bytes)
  | .call c => c.pairs C ck
  | .reopen _ _ => []

/-- The store holds the model's state, and can be opened again. -/
def Resumable (C : Crypto) (ck : Bytes) (W : Set (Hash × Bytes)) (s : Store MemBackend) (m : Model) : Prop :=
  s.ck = ck ∧ Reopenable C s ∧ ∃ g, Refines C W s m g

theorem Resumable.step {W : Set (Hash × Bytes)} (hC : C.GcmOk) (hW : VhInj C ck W) {s : Store MemBackend} {m : Model}
    {c : Call} (hc : ∀ v, c ≠ .stampVersion v) (h : Resumable C ck W s m) (hok : StepOk C ck W m c) :
    (s.step C c).1 = (m.step C ck c).1 ∧ Resumable C ck W (s.step C c).2 (m.step C ck c).2 := by
  obtain ⟨rfl, hr, g, hR⟩ := h
  obtain ⟨hreply, hF, g', hR'⟩ : Answers C W s m c := by
    cases c with
    | putBatch ops => exact (hR.putBatch hC hW hok).answers
    | restoreLeaves leaves => exact (hR.restoreLeaves hC hW hok).answers
    | stampVersion version => exact absurd rfl (hc version)
    | pinVersion version => exact hR.pinVersion version
    | prune b => exact hR.prune b
    | retainRecent window => exact hR.retainRecent window
    | _ => exact hR.answers_read hW trivial
  exact ⟨hreply, hF.ck, hF.reopenable hr, g', hR'⟩

/-- The act is an `Open` at a readable version with its root, or a call other than a stamp. -/
def ActOk (C : Crypto) (ck : Bytes) (m : Model) : Act → Prop
  | .call c => ∀ v, c ≠ .stampVersion v
  | .reopen root v => ∃ vals, m.past v = some vals ∧ root = contentRoot C ck vals

/-- The act is not an `Open` at a version some stale entry was marked after. -/
def NoLaterStale (s : Store MemBackend) : Act → Prop
  | .call _ => True
  | .reopen _ v => StaleUpTo s.backend v

/-- **A run with openings answers as the versioned map does**, when no `Open` finds later stale entries. -/
theorem act_run_tracks (hC : C.GcmOk) (o : StoreOptions) (entropy : ℕ → Nonce) (acts : List Act)
    (hacts : Along (Model.act C ck) (ActOk C ck) (Model.init o.history) acts)
    (hstale : Along (Store.act C) NoLaterStale (created C ck o entropy) acts)
    (hcol : NoCollisionIn C ck (Model.act C ck) (Act.pairs C ck) (Model.init o.history) acts)
    (hmax : ∀ m ∈ trace (Model.act C ck) (Model.init o.history) acts, m.version < 0xFFFFFFFFFFFFFFFF) :
    (run (Store.act C) (created C ck o entropy) acts).1 = (run (Model.act C ck) (Model.init o.history) acts).1 ∧
      Resumable C ck {e | e ∈ runPairs C ck (Model.act C ck) (Act.pairs C ck) (Model.init o.history) acts}
        (run (Store.act C) (created C ck o entropy) acts).2 (run (Model.act C ck) (Model.init o.history) acts).2 := by
  set W := {e | e ∈ runPairs C ck (Model.act C ck) (Act.pairs C ck) (Model.init o.history) acts} with hWdef
  have hstep : ∀ (s : Store MemBackend) (m : Model) (a : Act), Resumable C ck W s m → NoLaterStale s a →
      (ActOk C ck m a ∧ m.version < 0xFFFFFFFFFFFFFFFF ∧ (∀ e ∈ a.pairs C ck, e ∈ W) ∧
        (historyPath C ck, (m.nextHead C ck).bytes) ∈ W ∧
        ((m.act C ck a).2.cur ≠ OrdMap.empty → (m.act C ck a).2.root C ck ≠ placeholderHash C)) →
      (s.act C a).1 = (m.act C ck a).1 ∧ Resumable C ck W (s.act C a).2 (m.act C ck a).2 := by
    rintro s m a h hst ⟨hact, hlt, hpairs, hhead, hroot⟩
    cases a with
    | call c => exact h.step hC hcol.values hact ⟨hlt, hpairs, fun _ => hhead, hroot⟩
    | reopen root v =>
      obtain ⟨rfl, hr, g, hR⟩ := h
      obtain ⟨vals, hv, rfl⟩ := hact
      exact hR.reopen hr hcol.values hv hst
  obtain ⟨hR, -⟩ := @created_refines C ck hC o entropy W
  exact simulation hstep ⟨created_ck hC o entropy, created_reopenable hC ck o entropy, _, hR⟩ hstale
    (hacts.and (hcol.along hmax))

/-- **Pruning is safe after openings that find no later stale entries.** In every run of calls and openings at
readable versions in which no `Open` finds a stale entry marked after the version it opens, every successful
prune leaves every key of the current map readable with its value. -/
theorem reopened_prune_safe (hC : C.GcmOk) (o : StoreOptions) (entropy : ℕ → Nonce) (acts : List Act)
    (hacts : Along (Model.act C ck) (ActOk C ck) (Model.init o.history) acts)
    (hstale : Along (Store.act C) NoLaterStale (created C ck o entropy) acts)
    (hcol : NoCollisionIn C ck (Model.act C ck) (Act.pairs C ck) (Model.init o.history) acts)
    (hmax : ∀ m ∈ trace (Model.act C ck) (Model.init o.history) acts, m.version < 0xFFFFFFFFFFFFFFFF)
    (s : Store MemBackend) (hs : s = (run (Store.act C) (created C ck o entropy) acts).2) (b : UInt64)
    (hprune : (s.step C (.prune b)).1 = .ok .done) (k : Bytes) :
    ((s.step C (.prune b)).2.step C (.get k)).1 =
      .ok (.value ((run (Model.act C ck) (Model.init o.history) acts).2.cur.get (pathOf C ck k))) := by
  subst hs
  obtain ⟨-, hck, -, g, hR⟩ := act_run_tracks hC o entropy acts hacts hstale hcol hmax
  generalize (run (Store.act C) (created C ck o entropy) acts).2 = s at hck hR hprune ⊢
  subst hck
  obtain ⟨hreply, hF, g', hR'⟩ := hR.prune b
  rw [hprune] at hreply
  obtain ⟨-, hm'⟩ := Model.step_prune_ok hreply.symm
  rw [hm'] at hR'
  have hread := (hR'.answers_read (c := .get k) (by rw [hF.ck]; exact hcol.values) trivial).1
  rw [hread, hF.ck]
  rfl

/-- A key put, the store opened again at that version, and the key overwritten. -/
def resumedAtLast : List Act :=
  [.call (.putBatch [.put [1] [10]]),
   .reopen (contentRoot quickCrypto [] (applyOps quickCrypto [] OrdMap.empty [.put [1] [10]])) 1,
   .call (.putBatch [.put [1] [11]])]

/-- The store these acts leave. -/
def resumedAtLastStore : Store MemBackend :=
  (run (Store.act quickCrypto) (created quickCrypto [] {} fun _ => Nonce.zero) resumedAtLast).2

theorem reopened_prune_safe_at_last :
    ((resumedAtLastStore.step quickCrypto (.prune 2)).2.step quickCrypto (.get [1])).1 =
      .ok (.value ((run (Model.act quickCrypto []) (Model.init false) resumedAtLast).2.cur.get
        (pathOf quickCrypto [] [1]))) := by
  have hpast : ((Model.init false).act quickCrypto [] (.call (.putBatch [.put [1] [10]]))).2.past 1 =
      some (applyOps quickCrypto [] OrdMap.empty [.put [1] [10]]) := by decide +kernel
  have hacts : Along (Model.act quickCrypto []) (ActOk quickCrypto []) (Model.init false) resumedAtLast :=
    ⟨(fun v h => by cases h), ⟨_, hpast, rfl⟩, (fun v h => by cases h), trivial⟩
  have hstale : Along (Store.act quickCrypto) NoLaterStale (created quickCrypto [] {} fun _ => Nonce.zero) resumedAtLast :=
    ⟨trivial, staleUpTo_of_entries (by decide +kernel), trivial, trivial⟩
  have hcol : NoCollisionIn quickCrypto [] (Model.act quickCrypto []) (Act.pairs quickCrypto []) (Model.init false)
      resumedAtLast := ⟨vhInj_of_nodup (by decide +kernel), by decide +kernel⟩
  have hmax : ∀ m ∈ trace (Model.act quickCrypto []) (Model.init false) resumedAtLast,
      m.version < 0xFFFFFFFFFFFFFFFF := by decide +kernel
  have hprune : (resumedAtLastStore.step quickCrypto (.prune 2)).1 = .ok .done := by decide +kernel
  have h := reopened_prune_safe quickCrypto_gcmOk {} (fun _ => Nonce.zero) resumedAtLast hacts hstale hcol hmax
    resumedAtLastStore rfl 2 hprune [1]
  dsimp only at h
  exact h

/-! ## A key lost -/

/-- Two keys, then one of them overwritten; the store is opened again at the first version, and the other key
overwritten. -/
def firstStore : Store MemBackend :=
  (((created plainCrypto [] {} fun _ => Nonce.zero).act plainCrypto (.call (.putBatch [.put [97] [1], .put [98] [2]]))).2)

def resumedActs : List Act :=
  [.call (.putBatch [.put [97] [9]]), .reopen firstStore.root firstStore.version, .call (.putBatch [.put [98] [7]])]

def resumedStore : Store MemBackend := (run (Store.act plainCrypto) firstStore resumedActs).2

/-- The key not touched since the opening reads before the prune, and is missing after it. -/
theorem reopened_prune_loses_key :
    firstStore.version = 1 ∧ resumedStore.version = 2 ∧
    (resumedStore.step plainCrypto (.get [97])).1 = .ok (.value (some [1])) ∧
    (resumedStore.step plainCrypto (.prune 2)).1 = .ok .done ∧
    ((resumedStore.step plainCrypto (.prune 2)).2.step plainCrypto (.get [97])).1 =
      .error (errMissingf "node %v" [.node 1 [nibble (pathOf plainCrypto [] [97]) 0]]) := by
  decide +kernel

end ImmutableLedger
