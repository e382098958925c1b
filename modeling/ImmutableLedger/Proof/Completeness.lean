import ImmutableLedger.Security.Prover
import ImmutableLedger.Proof.Content

/-!
# Proofs are complete and agree with reads

The proof of a map is accepted against the root of the map, whatever the hashes, and states what the map holds
(`verify_proofOf`). So in every state a run of batches leaves, every key has a proof that agrees with its read, at
the current version and at every earlier one (`proofs_agree_with_reads`).
-/

namespace ImmutableLedger

open EStateM Machine SparseMerkle

variable {C : Crypto} {ck : Bytes}

/-! ## The proof of a map -/

section
variable (M : OrdMap Hash Hash) (p : Hash)

theorem terminal_proofOf :
    (proofOf C M p).terminal = terminal (descent bitAt (nodeHash C) p 256 0 M.entries).1 := by
  unfold proofOf Proof.terminal
  dsimp only
  cases (descent bitAt (nodeHash C) p 256 0 M.entries).1 <;> rfl

theorem length_proofOf : (proofOf C M p).siblings.length ≤ maxDepth := by
  have h : (descent bitAt (nodeHash C) p 256 0 M.entries).2.length ≤ 256 := length_descent p 256 0 M.entries
  unfold proofOf
  rw [List.length_reverse]
  exact h

theorem fold_proofOf :
    foldSiblings C p (proofOf C M p).siblings (nodeHash C (proofOf C M p).terminal) = rootOf C M := by
  rw [foldSiblings_eq_climb, terminal_proofOf, rootOf_eq_digest]
  unfold proofOf
  rw [List.reverse_reverse]
  exact climb_descent p (sep_entries M)

/-- The leaf of the proof is an entry of the map under the bits folded. -/
theorem leaf_proofOf {q vh : Hash} (ht : (proofOf C M p).terminal = .leaf q vh) :
    M.get q = some vh ∧ (proofOf C M p).siblings.length ≤ commonPrefixBits q p := by
  have hlen := length_proofOf (C := C) M p
  rw [terminal_proofOf] at ht
  unfold proofOf at hlen ⊢
  rw [List.length_reverse] at hlen ⊢
  cases hd : (descent bitAt (nodeHash C) p 256 0 M.entries).1 with
  | none => rw [hd] at ht; cases ht
  | some e =>
    rw [hd] at ht
    cases ht
    obtain ⟨hmem, hbits⟩ := descent_agrees hd
    refine ⟨OrdMap.mem_entries.1 hmem, le_commonPrefixBits hlen fun i hi => hbits i (Nat.zero_le _) ?_⟩
    omega

/-- **The proof of a map is accepted** against its root and states what the map holds at the path. -/
theorem verify_proofOf : verify C (rootOf C M) p (proofOf C M p) = .ok (statementOf M p) := by
  obtain ⟨st, hst, hcase⟩ := verify_of_fold (length_proofOf M p) (fold_proofOf M p)
    fun q vh ht => (leaf_proofOf M p ht).2
  rw [hst]
  unfold statementOf
  cases hget : M.get p with
  | none =>
    rcases hcase with rfl | ⟨vh, ht, -⟩
    · rfl
    · rw [(leaf_proofOf M p ht).1] at hget
      cases hget
  | some vh =>
    -- the descent ends in the entry of the path
    have hend : (descent bitAt (nodeHash C) p 256 0 M.entries).1 = some (p, vh) :=
      descent_of_mem (sep_entries M) (OrdMap.mem_entries.2 hget) fun _ _ _ => rfl
    have ht : (proofOf C M p).terminal = .leaf p vh := by rw [terminal_proofOf, hend]; rfl
    rcases hcase with rfl | ⟨vh', ht', rfl⟩
    · -- an accepted proof with that leaf states presence
      obtain ⟨-, ⟨hp, -⟩ | ⟨-, habs⟩⟩ := verify_ok hst
      · cases hp
      · exact absurd ht (habs vh)
    · rw [ht] at ht'
      cases ht'
      rfl

end

/-! ## Reads and proofs -/

/-- What a proof of `path` states when the path reads as `v`. -/
def readStatement (C : Crypto) (ck : Bytes) (path : Hash) : Option Bytes → Verified
  | some v => ⟨true, vhOf C ck path v⟩
  | none => ⟨false, Hash.zero⟩

/-- The read succeeds, the proof succeeds, is accepted against `root` with the statement of the value read, and has
at most 256 siblings. -/
def ProofAgrees (C : Crypto) (ck : Bytes) (root : Hash) (key : Bytes) (read proved : Except Err Reply) : Prop :=
  ∃ v proof, read = .ok (.value v) ∧ proved = .ok (.proof proof) ∧
    verify C root (pathOf C ck key) proof = .ok (readStatement C ck (pathOf C ck key) v) ∧
    proof.siblings.length ≤ 256

theorem statementOf_commitments (vals : OrdMap Hash Bytes) (p : Hash) :
    statementOf (commitments C ck vals) p = readStatement C ck p (vals.get p) := by
  unfold statementOf commitments readStatement
  rw [OrdMap.get_mapVal]
  cases vals.get p <;> rfl

/-- The read and the proof of one map. -/
theorem proofAgrees_map (vals : OrdMap Hash Bytes) (key : Bytes) :
    ProofAgrees C ck (contentRoot C ck vals) key (.ok (.value (vals.get (pathOf C ck key))))
      (.ok (.proof (proofOf C (commitments C ck vals) (pathOf C ck key)))) :=
  ⟨_, _, rfl, rfl, by rw [← statementOf_commitments]; exact verify_proofOf _ _, length_proofOf _ _⟩

/-- **Proofs are complete and agree with reads.** After any batches, `Prove` and `ProveAt` at every version up to
the current one return a proof accepted against the root the store had at that version; it states presence with
the commitment of the value exactly when the read returns that value, and absence exactly when it reports it. -/
theorem proofs_agree_with_reads (hC : C.GcmOk) (o : StoreOptions) (entropy : ℕ → Nonce) (batches : List (List Op))
    (hlen : batches.length < 2 ^ 64 - 1) (hcol : NoCollision C ck (Model.init o.history) (batches.map .putBatch))
    (s : Store MemBackend) (hs : s = (run (Store.step C) (created C ck o entropy) (batches.map .putBatch)).2)
    (k : Bytes) :
    ProofAgrees C ck s.root k (s.step C (.get k)).1 (s.step C (.prove k)).1 ∧
    ∀ v, v ≤ s.version → ∃ pre post, batches = pre ++ post ∧
      (run (Store.step C) (created C ck o entropy) (pre.map .putBatch)).2.version = v ∧
      ProofAgrees C ck (run (Store.step C) (created C ck o entropy) (pre.map .putBatch)).2.root k
        (s.step C (.getAt v k)).1 (s.step C (.proveAt v k)).1 := by
  have htracks := fun pre post he => (@batches_track C ck batches hC o entropy hlen hcol pre post he).2
  have hone := htracks batches [] (by rw [List.append_nil])
  rw [← hs] at hone
  have hread := fun c hc => hone.read hcol.values (c := c) hc
  obtain ⟨hck, -, g, hR⟩ := hone
  constructor
  · rw [hread (.get k) trivial, hread (.prove k) trivial, hR.root, hck]
    exact proofAgrees_map _ k
  · intro v hv
    rw [hR.version] at hv
    obtain ⟨pre, post, he, hver⟩ := exists_batches_of_version v hv
    obtain ⟨hck', -, g', hR'⟩ := htracks pre post he
    refine ⟨pre, post, he, by rw [hR'.version, hver], ?_⟩
    have hat := @mapAt_run C ck o.history pre post (by rw [← he]; exact hlen)
    rw [← he, hver] at hat
    rw [hread (.getAt v k) trivial, hread (.proveAt v k) trivial, hR'.root, hck']
    simp only [Model.step]
    rw [hat]
    exact proofAgrees_map _ k

/-- Two commits on three keys. -/
def threeBatches : List (List Op) := [[.put [1] [10], .put [2] [20]], [.put [3] [30], .del [1]]]

/-- A key that is there, and one that was there at version 1. -/
theorem proofs_agree_with_reads_three :
    let s := (run (Store.step quickCrypto) (created quickCrypto [] {} fun _ => Nonce.zero) (threeBatches.map .putBatch)).2
    ProofAgrees quickCrypto [] s.root [2] (s.step quickCrypto (.get [2])).1 (s.step quickCrypto (.prove [2])).1 ∧
    ProofAgrees quickCrypto [] s.root [1] (s.step quickCrypto (.get [1])).1 (s.step quickCrypto (.prove [1])).1 ∧
    ∃ pre post, threeBatches = pre ++ post ∧
      let s₁ := (run (Store.step quickCrypto) (created quickCrypto [] {} fun _ => Nonce.zero) (pre.map .putBatch)).2
      s₁.version = 1 ∧ ProofAgrees quickCrypto [] s₁.root [1] (s.step quickCrypto (.getAt 1 [1])).1
        (s.step quickCrypto (.proveAt 1 [1])).1 := by
  intro s
  have hagree := proofs_agree_with_reads quickCrypto_gcmOk {} (fun _ => Nonce.zero) threeBatches (by decide)
    ⟨vhInj_of_nodup (by decide +kernel), by decide +kernel⟩ s rfl
  exact ⟨(hagree [2]).1, (hagree [1]).1, (hagree [1]).2 1 (by decide +kernel)⟩

end ImmutableLedger
