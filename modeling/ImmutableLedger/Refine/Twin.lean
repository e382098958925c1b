import ImmutableLedger.Refine.Linked
import ImmutableLedger.Tree.Read

/-!
# Handles that differ in their caches

`Twin P b s t`: the handles `s` and `t` are `b` with two caches, both coherent with the backend, and the same nonces to
draw; the cache of `t` also keeps `P`, for a property that lookups and insertions preserve. Twins are linked: a cached
node is the decoded record under its key, checked against the expected hash like a loaded one.

Nothing is assumed of the records: hashes may collide, trees may be malformed.

* `loadNode_faithful`: a node load returns what the backend has, whatever is cached.
* `twins_linked`: every read has one outcome on twins, and leaves twins.
-/

namespace ImmutableLedger

open EStateM

variable {C : Crypto} {P : NodeCache → Prop} {b s t : Store MemBackend}

/-- The node records of the backend are of versions the store has reached. -/
def NodesBelow (s : Store MemBackend) : Prop :=
  ∀ nk : NodeKey, (OrdMap.get s.backend (nodeRecordKey nk)).isSome → nk.version ≤ s.version

/-- A property of caches that lookups and insertions keep. -/
structure CacheStable (P : NodeCache → Prop) : Prop where
  get : ∀ c nk, P c → P (c.get nk).2
  put : ∀ c nk n, P c → P (c.put nk n)

/-- The handle `b` with two coherent caches, the second one in `P`. -/
def Twin (P : NodeCache → Prop) (b s t : Store MemBackend) : Prop :=
  ∃ c c' e, CacheOk b c ∧ (CacheOk b c' ∧ P c') ∧ s = { b with cache := c, entropy := e } ∧
    t = { b with cache := c', entropy := e }

/-- Twins in step. -/
def twins (P : NodeCache → Prop) (b : Store MemBackend) : Link (Store MemBackend) (Store MemBackend) where
  rel := Twin P b

/-! ## Nodes -/

variable {nk : NodeKey} {n : Node} {h : Hash} {rec : Bytes}

/-- What a load returns without a cache. -/
def loadedNode (C : Crypto) (b : Store MemBackend) (nk : NodeKey) (h : Hash) : Except Err Node :=
  readNode C nk h (OrdMap.get b.backend (nodeRecordKey nk))

theorem loadedNode_some (hrec : OrdMap.get b.backend (nodeRecordKey nk) = some rec) (hdec : decodeNode rec = .ok n) :
    loadedNode C b nk h = checkedNode C nk h n := by
  unfold loadedNode
  rw [hrec, readNode_some hdec]

/-- Every cached node is the stored record of its key. -/
def Faithful (B : MemBackend) (c : NodeCache) : Prop :=
  ∀ nk n, c.node nk = some n → ∃ rec, OrdMap.get B (nodeRecordKey nk) = some rec ∧ decodeNode rec = .ok n

/-- The cache after a load: looked up, and the node put in when it came from the backend. -/
def Fetched (B : MemBackend) (c : NodeCache) (nk : NodeKey) (c' : NodeCache) : Prop :=
  c' = (c.get nk).2 ∨ ∃ n rec, OrdMap.get B (nodeRecordKey nk) = some rec ∧ decodeNode rec = .ok n ∧
    c' = (c.get nk).2.put nk n

theorem fetched_fetchedCache (B : MemBackend) (c : NodeCache) (nk : NodeKey) (h : Hash) : Fetched B c nk
    (fetchedCache nk (readNode C nk h (OrdMap.get B (nodeRecordKey nk))) (c.get nk).2) := by
  cases hr : readNode C nk h (OrdMap.get B (nodeRecordKey nk)) with
  | error err => exact .inl rfl
  | ok n =>
    obtain ⟨rec, hrec, hdec⟩ := ok_of_readNode hr
    exact .inr ⟨n, rec, hrec, hdec, rfl⟩

theorem Fetched.node {B : MemBackend} {c c' : NodeCache} {nk nk' : NodeKey} {n : Node} (h : Fetched B c nk c')
    (hn : c'.node nk' = some n) : c.node nk' = some n ∨
      nk' = nk ∧ ∃ rec, OrdMap.get B (nodeRecordKey nk') = some rec ∧ decodeNode rec = .ok n := by
  rcases h with rfl | ⟨m, rec, hrec, hdec, rfl⟩
  · rw [NodeCache.node_get] at hn
    exact .inl hn
  · rcases NodeCache.node_put hn with ⟨rfl, rfl⟩ | hn
    · exact .inr ⟨rfl, rec, hrec, hdec⟩
    · rw [NodeCache.node_get] at hn
      exact .inl hn

theorem Fetched.faithful {B : MemBackend} {c c' : NodeCache} (h : Fetched B c nk c')
    (hc : Faithful B c) : Faithful B c' := by
  intro nk' n hn
  rcases h.node hn with hold | ⟨-, hnew⟩
  · exact hc nk' n hold
  · exact hnew

/-- **A load returns what the backend has**, whatever is cached. -/
theorem loadNode_faithful (nk : NodeKey) (h : Hash) {c : NodeCache} (hc : Faithful b.backend c) (e : ℕ → Nonce) :
    ∃ c', Fetched b.backend c nk c' ∧
      loadNode C nk h { b with cache := c, entropy := e } =
        outcome (loadedNode C b nk h) { b with cache := c', entropy := e } := by
  cases hcase : c.node nk with
  | some m =>
    obtain ⟨rec, hrec, hdec⟩ := hc nk m hcase
    refine ⟨(c.get nk).2, .inl rfl, ?_⟩
    rw [loadNode_hit h (s := { b with cache := c, entropy := e }) hcase, loadedNode_some hrec hdec]
  | none =>
    refine ⟨_, fetched_fetchedCache (C := C) b.backend c nk h, ?_⟩
    rw [loadNode_miss h (s := { b with cache := c, entropy := e }) hcase rfl]
    rfl

/-- A load from a coherent cache leaves one, when the records are of reached versions. -/
theorem loadNode_run (hb : NodesBelow b) (nk : NodeKey) (h : Hash) {c : NodeCache} (hc : CacheOk b c) (e : ℕ → Nonce) :
    ∃ c', CacheOk b c' ∧ Fetched b.backend c nk c' ∧
      loadNode C nk h { b with cache := c, entropy := e } =
        outcome (loadedNode C b nk h) { b with cache := c', entropy := e } := by
  obtain ⟨c', hc', hrun⟩ := loadNode_faithful (C := C) nk h (fun nk n hn => (hc nk n hn).2) e
  refine ⟨c', fun nk' n hn => ?_, hc', hrun⟩
  rcases hc'.node hn with hold | ⟨-, rec, hrec, hdec⟩
  · exact hc nk' n hold
  · exact ⟨hb nk' (by rw [hrec]; rfl), rec, hrec, hdec⟩

/-- The decoded children are those of the set bits. -/
theorem isSome_decodeChildren {bm : ℕ} : ∀ {is : List Nib} {data : Bytes} {ch : Children},
    decodeChildren bm is data = .ok ch → ∀ i ∈ is, bm.testBit i.val = true → (ch i).isSome := by
  intro is
  induction is with
  | nil => intro data ch _ i hi; cases hi
  | cons j is ih =>
    intro data ch h i hi hbit
    unfold decodeChildren at h
    -- the slot itself, or one of those after it
    have hstep : ∀ {rest : Bytes} {ch₀ : Children} {c : Child}, decodeChildren bm is rest = .ok ch₀ →
        ch = Function.update ch₀ j (some c) → (ch i).isSome := by
      intro rest ch₀ c h₀ hch
      rw [hch]
      by_cases hij : i = j
      · rw [hij, Function.update_self]
        rfl
      · rw [Function.update_of_ne hij]
        exact ih h₀ i ((List.mem_cons.1 hi).resolve_left hij) hbit
    by_cases hj : bm.testBit j.val = true
    · rw [if_pos hj] at h
      dsimp only at h
      split at h
      · cases hrest : decodeChildren bm is (data.drop 41) with
        | error e =>
          rw [hrest] at h
          cases h
        | ok ch₀ =>
          rw [hrest] at h
          cases h
          exact hstep hrest rfl
      · split at h
        · cases hrest : decodeChildren bm is (data.drop 41) with
          | error e =>
            rw [hrest] at h
            cases h
          | ok ch₀ =>
            rw [hrest] at h
            cases h
            exact hstep hrest rfl
        · cases h
    · rw [if_neg hj] at h
      have hij : i ≠ j := by
        rintro rfl
        exact hj hbit
      exact ih h i ((List.mem_cons.1 hi).resolve_left hij) hbit

/-- A decoded node is one the codec can represent. -/
theorem ok_of_decodeNode (h : decodeNode rec = .ok n) : n.Ok := by
  unfold decodeNode at h
  cases rec with
  | nil => cases h
  | cons tag body =>
    dsimp only at h
    split at h
    · split at h
      · cases h
      · cases h
        trivial
    · split at h
      · split at h
        · cases h
        · split at h
          · cases h
          · rename_i hcount
            split at h
            · cases h
            · cases hch : decodeChildren ((body.getD 0 0).toNat + 256 * (body.getD 1 0).toNat) (List.finRange 16)
                  (body.drop 2) with
              | error e =>
                rw [hch] at h
                cases h
              | ok ch =>
                rw [hch] at h
                cases h
                obtain ⟨i, hi, hbit⟩ := List.countP_pos_iff.1 (Nat.pos_of_ne_zero hcount)
                exact ⟨i, isSome_decodeChildren hch i hi hbit⟩
      · cases h

/-- **Twins load the same nodes.** -/
theorem twins_loadNode (hP : CacheStable P) (hb : NodesBelow b) (nk : NodeKey) (h : Hash) :
    Mirrors (twins P b) (loadNode C nk h) (loadNode C nk h) fun n =>
      ∃ rec, OrdMap.get b.backend (nodeRecordKey nk) = some rec ∧ decodeNode rec = .ok n := by
  rintro s t ⟨c, c', e, hc, ⟨hc', hp⟩, rfl, rfl⟩
  obtain ⟨c₁, hc₁, -, hs⟩ := loadNode_run (C := C) hb nk h hc e
  obtain ⟨c₂, hc₂, hstep, ht⟩ := loadNode_run (C := C) hb nk h hc' e
  have hp₂ : P c₂ := by
    rcases hstep with rfl | ⟨n, -, -, -, rfl⟩
    · exact hP.get c' nk hp
    · exact hP.put _ nk n (hP.get c' nk hp)
  exact ⟨_, _, ht, trivial, fun n hn => ok_of_readNode hn, .inl ⟨_, hs, ⟨c₁, c₂, e, hc₁, ⟨hc₂, hp₂⟩, rfl, rfl⟩, trivial⟩⟩

theorem twins_linked (hP : CacheStable P) (hb : NodesBelow b) : Linked C (twins P b) where
  same := by
    rintro s t ⟨c, c', e, -, -, rfl, rfl⟩
    exact ⟨rfl, rfl, rfl, rfl, rfl, rfl, rfl, rfl, rfl⟩
  get key := by
    rintro s t ⟨c, c', e, hc, hc', rfl, rfl⟩
    exact ⟨.ok (OrdMap.get b.backend key), _, rfl, trivial, fun _ _ => trivial,
      .inl ⟨_, rfl, ⟨c, c', e, hc, hc', rfl, rfl⟩, trivial⟩⟩
  load nk h := (twins_loadNode hP hb nk h).mono fun _ _ => trivial
  draw := by
    rintro s t ⟨c, c', e, hc, hc', rfl, rfl⟩
    exact ⟨.ok (e 0), _, rfl, trivial, fun _ _ => trivial,
      .inl ⟨_, rfl, ⟨c, c', fun n => e (n + 1), hc, hc', rfl, rfl⟩, trivial⟩⟩

end ImmutableLedger
