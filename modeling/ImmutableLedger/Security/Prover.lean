import ImmutableLedger.Tree.Prove
import ImmutableLedger.Security.Binding

/-!
# A prover over untrusted storage

Whatever node records the storage serves, the siblings `Prove` collects climb from the terminal it reports to
the root it started from: the hash of every record is checked against its parent, and the binary descent
inside a node collects what the hash of the node is computed from. So a proof that is returned at all is
accepted, and true of the map the root commits to, short of a collision.

* `binaryDescent_climb`, `proveFrom_climb`: what the prover collects climbs back.
* `prove_tells_truth`: a proof returned over any backend is accepted, and its statement is the truth.
-/

namespace ImmutableLedger

open SparseMerkle EStateM

variable {C : Crypto} {p : Hash}

/-! ## The binary descent -/

/-- The hash a descent ends in. -/
def foundHash (C : Crypto) (o : Option (ℕ × Child)) : Hash := rootHash C (o.map Prod.snd)

/-- **The descent inside any node climbs back** to the hash of the range it started from. Only a child on the
path is left at the last level. -/
theorem binaryDescent_climb (ch : Children) (d : ℕ) : ∀ lvl, lvl ≤ 4 → ∀ start, 2 ^ lvl ∣ start →
    start ≤ (nibble p d).val → (nibble p d).val < start + 2 ^ lvl → ∀ sibs, ∃ ss,
      (binaryDescent C ch (nibble p d).val lvl start sibs).2 = sibs ++ ss ∧ ss.length ≤ lvl ∧
      climb bitAt (nodeHash C) p (4 * d + (4 - lvl)) ss
        (foundHash C (binaryDescent C ch (nibble p d).val lvl start sibs).1) = subtreeHash C ch start lvl ∧
      ∀ i c, (binaryDescent C ch (nibble p d).val lvl start sibs).1 = some (i, c) → c.isLeaf = false →
        ss.length = lvl := by
  intro lvl
  induction lvl with
  | zero =>
    intro _ start _ h1 h2 sibs
    refine ⟨[], by simp [binaryDescent], le_rfl, ?_, fun _ _ _ _ => rfl⟩
    rw [binaryDescent, climb, subtreeHash]
    cases slot ch start <;> rfl
  | succ lvl ih =>
    intro hl start ha h1 h2 sibs
    have hp : 2 ^ (lvl + 1) = 2 ^ lvl + 2 ^ lvl := by rw [pow_succ]; ring
    by_cases hne : presentAt ch start (2 ^ (lvl + 1)) = []
    · refine ⟨[], ?_, Nat.zero_le _, ?_, ?_⟩ <;> rw [binaryDescent, hne]
      · simp
      · rw [climb, subtreeHash, present_eq, hne]
        rfl
      · exact fun i c hi => by cases hi
    by_cases hlone : ∃ i c, presentAt ch start (2 ^ (lvl + 1)) = [(i, c)] ∧ c.isLeaf = true
    · obtain ⟨i, c, hP, hc⟩ := hlone
      have hrun : binaryDescent C ch (nibble p d).val (lvl + 1) start sibs = (some (i, c), sibs) := by
        rw [binaryDescent, hP]
        exact if_pos hc
      rw [hrun]
      refine ⟨[], (List.append_nil _).symm, Nat.zero_le _, ?_, fun i' c' hi hc' => by cases hi; rw [hc] at hc'; cases hc'⟩
      rw [climb, subtreeHash, present_eq, hP]
      simp [foundHash, rootHash, hc]
    -- neither empty nor a lone leaf: the half of the path, and the hash of the other
    have hleaf : ∀ i c, presentAt ch start (2 ^ (lvl + 1)) = [(i, c)] → c.isLeaf = false := fun i c hP =>
      Bool.eq_false_iff.2 fun hc => hlone ⟨i, c, hP, hc⟩
    have hbit : bitAt p (4 * d + (4 - (lvl + 1))) = !decide ((nibble p d).val < start + 2 ^ lvl) := by
      rw [show 4 - (lvl + 1) = 3 - lvl by omega]
      exact bit_lower_half (by omega) ha h1 h2
    rw [subtreeHash_halves hne hleaf, binaryDescent_halves hne hleaf]
    by_cases hlt : (nibble p d).val < start + 2 ^ lvl
    · rw [if_pos hlt]
      obtain ⟨ss, hss, hlen, hclimb, hfull⟩ := ih (by omega) start (dvd_half ha) h1 hlt
        (sibs ++ [subtreeHash C ch (start + 2 ^ lvl) lvl])
      refine ⟨subtreeHash C ch (start + 2 ^ lvl) lvl :: ss, by rw [hss]; simp, by simp; omega, ?_,
        fun i c hi hc => by rw [List.length_cons, hfull i c hi hc]⟩
      rw [climb, hbit, decide_eq_true hlt, show 4 * d + (4 - (lvl + 1)) + 1 = 4 * d + (4 - lvl) by omega, hclimb]
      simp
    · rw [if_neg hlt]
      obtain ⟨ss, hss, hlen, hclimb, hfull⟩ := ih (by omega) (start + 2 ^ lvl) (Dvd.dvd.add (dvd_half ha) dvd_rfl)
        (by omega) (by omega) (sibs ++ [subtreeHash C ch start lvl])
      refine ⟨subtreeHash C ch start lvl :: ss, by rw [hss]; simp, by simp; omega, ?_,
        fun i c hi hc => by rw [List.length_cons, hfull i c hi hc]⟩
      rw [climb, hbit, decide_eq_false hlt, show 4 * d + (4 - (lvl + 1)) + 1 = 4 * d + (4 - lvl) by omega, hclimb]
      simp

/-! ## The walk of the prover -/

section
variable {β : Type} [Backend β]

/-- A loaded node has the hash it was loaded for. -/
theorem loadNode_hash {nk : NodeKey} {h : Hash} {n : Node} {s s' : Store β} (hl : loadNode C nk h s = .ok n s') :
    n.hash C = h := by
  unfold loadNode at hl
  obtain ⟨s₁, _, hs₁, hl⟩ := bind_eq_ok hl
  cases hs₁
  obtain ⟨_, s₂, hs₂, hl⟩ := bind_eq_ok hl
  cases hs₂
  cases hc : (s.cache.get nk).1 with
  | some n' =>
    rw [hc] at hl
    dsimp only at hl
    by_cases hh : n'.hash C = h
    · simp only [hh, ne_eq, not_true_eq_false, if_false] at hl
      cases hl
      exact hh
    · simp only [hh, ne_eq, not_false_eq_true, if_true] at hl
      obtain ⟨_, _, ht, -⟩ := bind_eq_ok hl
      cases ht
  | none =>
    rw [hc] at hl
    obtain ⟨rec, s₃, -, hl⟩ := bind_eq_ok hl
    cases rec with
    | none => cases hl
    | some rec =>
      obtain ⟨n', s₄, hn, hl⟩ := bind_eq_ok hl
      by_cases hh : n'.hash C = h
      · simp only [hh, ne_eq, not_true_eq_false, if_false] at hl
        obtain ⟨_, s₅, -, hl⟩ := bind_eq_ok hl
        cases hl
        exact hh
      · simp only [hh, ne_eq, not_false_eq_true, if_true] at hl
        obtain ⟨_, _, ht, -⟩ := bind_eq_ok hl
        cases ht

/-- The leaf a walk ends in, as the input it is hashed from. -/
def terminalOf (o : Option LeafNode) : Input Hash Hash Hash := terminal (o.map fun l => (l.path, l.vh))

/-- A walk that returns has loaded a node of the expected hash: a leaf, where it stops, or an internal node,
whose slots it searches. -/
theorem proveFrom_ok {fuel : ℕ} {c : Child} {pfx : List Nib} {sibs : List Hash} {r : Option LeafNode × List Hash}
    {s s' : Store β} (h : proveFrom C p fuel c pfx sibs s = .ok r s') :
    (∃ l : LeafNode, leafHash C l.path l.vh = c.hash ∧ r = (some l, sibs)) ∨
    ∃ ch k s₁, subtreeHash C ch 0 4 = c.hash ∧ fuel = k + 1 ∧
      (match binaryDescent C ch (nibble p pfx.length).val 4 0 sibs with
        | (none, siblings) => pure (none, siblings)
        | (some (idx, cc), siblings) =>
          if cc.isLeaf then do
            let lk : NodeKey := ⟨cc.version, pfx ++ [Fin.ofNat 16 idx]⟩
            match ← loadNode C lk cc.hash with
            | .internal _ => throw (errNode "node %v kind mismatch" lk)
            | .leaf l => pure (some l, siblings)
          else proveFrom C p k cc (pfx ++ [nibble p pfx.length]) siblings : LedgerM β _) s₁ = .ok r s' := by
  unfold proveFrom at h
  obtain ⟨n, s₁, hn, h⟩ := bind_eq_ok h
  have hhash := loadNode_hash hn
  by_cases hk : n.isLeaf = c.isLeaf
  · simp only [hk, ne_eq, not_true_eq_false, if_false] at h
    cases n with
    | leaf l =>
      cases h
      exact .inl ⟨l, hhash, rfl⟩
    | internal ch =>
      cases fuel with
      | zero => cases h
      | succ fuel => exact .inr ⟨ch, fuel, s₁, hhash, rfl, h⟩
  · simp only [hk, ne_eq, not_false_eq_true, if_true] at h
    obtain ⟨_, _, ht, -⟩ := bind_eq_ok h
    cases ht

/-- **The walk over any backend climbs back** to the hash it started from. -/
theorem proveFrom_climb : ∀ {fuel : ℕ} {c : Child} {pfx : List Nib} {sibs sibs' : List Hash} {o : Option LeafNode}
    {s s' : Store β}, proveFrom C p fuel c pfx sibs s = .ok (o, sibs') s' →
    ∃ ss, sibs' = sibs ++ ss ∧ ss.length ≤ 4 * fuel ∧
      climb bitAt (nodeHash C) p (4 * pfx.length) ss (nodeHash C (terminalOf o)) = c.hash := by
  intro fuel
  -- on the nibbles left; an internal node needs one
  induction fuel with
  | zero =>
    intro c pfx sibs sibs' o s s' h
    obtain ⟨l, hl, hr⟩ | ⟨ch, k, s₁, -, hk, -⟩ := proveFrom_ok h
    · cases hr
      exact ⟨[], by simp, by simp, by rw [climb, ← hl]; simp [terminalOf, terminal]⟩
    · omega
  | succ fuel ih =>
    intro c pfx sibs sibs' o s s' h
    obtain ⟨l, hl, hr⟩ | ⟨ch, k, s₁, hch, hk, h⟩ := proveFrom_ok h
    · cases hr
      exact ⟨[], by simp, by simp, by rw [climb, ← hl]; simp [terminalOf, terminal]⟩
    obtain rfl : fuel = k := by omega
    obtain ⟨ss, hss, hlen, hclimb, hfull⟩ := @binaryDescent_climb C p ch pfx.length 4 le_rfl 0 (by simp)
      (by omega) (by simp) sibs
    rw [hch, show 4 * pfx.length + (4 - 4) = 4 * pfx.length by omega] at hclimb
    generalize binaryDescent C ch (nibble p pfx.length).val 4 0 sibs = r at hss hclimb hfull h
    obtain ⟨found, siblings⟩ := r
    obtain rfl : siblings = sibs ++ ss := hss
    cases found with
    | none =>
      cases h
      exact ⟨ss, rfl, by omega, hclimb⟩
    | some e =>
      obtain ⟨idx, cc⟩ := e
      cases hc : cc.isLeaf with
      | true =>
        -- the range collapsed to a leaf, whose record is checked as well
        simp only [hc, if_true] at h
        obtain ⟨n, s₂, hn, h⟩ := bind_eq_ok h
        have hhash := loadNode_hash hn
        cases n with
        | internal _ => cases h
        | leaf l =>
          cases h
          refine ⟨ss, rfl, by omega, ?_⟩
          have hl : nodeHash C (terminalOf (some l)) = cc.hash := by
            rw [← hhash]; simp [terminalOf, terminal, Node.hash]
          rw [hl]
          exact hclimb
      | false =>
        simp only [hc, Bool.false_eq_true, if_false] at h
        obtain ⟨ss', rfl, hlen', hclimb'⟩ := ih h
        have h4 := hfull idx cc rfl hc
        refine ⟨ss ++ ss', by rw [List.append_assoc], by rw [List.length_append]; omega, ?_⟩
        rw [climb_append, h4, show 4 * pfx.length + 4 = 4 * (pfx ++ [nibble p pfx.length]).length by simp; omega,
          hclimb']
        exact hclimb

/-- A proof returned over any backend folds to the hash of the root reference. -/
theorem provePath_fold {c : Option Child} {proof : Proof} {s s' : Store β} (h : provePath C c p s = .ok proof s') :
    proof.siblings.length ≤ maxDepth ∧
      foldSiblings C p proof.siblings (nodeHash C proof.terminal) = rootHash C c := by
  cases c with
  | none =>
    cases h
    exact ⟨Nat.zero_le _, by simp [foldSiblings, Proof.terminal, rootHash]⟩
  | some c =>
    obtain ⟨⟨o, sibs⟩, s₁, h, hp⟩ := bind_eq_ok h
    cases hp
    obtain ⟨ss, hss, hlen, hclimb⟩ := proveFrom_climb h
    obtain rfl : sibs = ss := hss
    rw [foldSiblings_eq_climb, List.reverse_reverse]
    refine ⟨by rw [List.length_reverse]; exact hlen, ?_⟩
    have hterm : Proof.terminal ⟨o.map fun l => ⟨l.path, l.vh⟩, sibs.reverse⟩ = terminalOf o := by cases o <;> rfl
    rw [hterm]
    exact hclimb

end

/-! ## The truth of a proof -/

/-- What a proof of `path` should state about the map `M`. -/
def statementOf (M : OrdMap Hash Hash) (path : Hash) : Verified :=
  match M.get path with
  | some vh => ⟨true, vh⟩
  | none => ⟨false, Hash.zero⟩

/-- A proof that folds to the root, and whose leaf covers the path, is accepted; its statement is about its leaf. -/
theorem verify_of_fold {root : Hash} {proof : Proof} (hlen : proof.siblings.length ≤ maxDepth)
    (hfold : foldSiblings C p proof.siblings (nodeHash C proof.terminal) = root)
    (hcover : ∀ q vh, proof.terminal = .leaf q vh → proof.siblings.length ≤ commonPrefixBits q p) :
    ∃ st, verify C root p proof = .ok st ∧
      (st = ⟨false, Hash.zero⟩ ∨ ∃ vh, proof.terminal = .leaf p vh ∧ st = ⟨true, vh⟩) := by
  obtain ⟨leaf, siblings⟩ := proof
  have hrun : ∀ {acc st}, proofTerminal C p ⟨leaf, siblings⟩ = .ok (acc, st) →
      acc = nodeHash C (Proof.terminal ⟨leaf, siblings⟩) → verify C root p ⟨leaf, siblings⟩ = .ok st := by
    intro acc st ht hacc
    unfold verify
    rw [if_neg (not_lt.2 hlen), ht, hacc]
    show (if foldSiblings C p siblings _ ≠ root then _ else _) = _
    rw [if_neg (not_not.2 hfold)]
    rfl
  cases leaf with
  | none => exact ⟨_, hrun rfl (by simp [Proof.terminal]), .inl rfl⟩
  | some l =>
    by_cases hl : l.path = p
    · have ht : proofTerminal C p ⟨some l, siblings⟩ = .ok (leafHash C l.path l.vh, ⟨true, l.vh⟩) := by
        simp only [proofTerminal, if_pos hl]
      exact ⟨_, hrun ht (by simp [Proof.terminal]), .inr ⟨l.vh, by rw [← hl]; rfl, rfl⟩⟩
    · have hc : ¬ commonPrefixBits l.path p < siblings.length := not_lt.2 (hcover l.path l.vh rfl)
      have ht : proofTerminal C p ⟨some l, siblings⟩ = .ok (leafHash C l.path l.vh, ⟨false, Hash.zero⟩) := by
        simp only [proofTerminal, if_neg hl, if_neg hc]
      exact ⟨_, hrun ht (by simp [Proof.terminal]), .inl rfl⟩

/-- **A proof that folds to the root of a map** is accepted and states the truth, or the preimages hashed
collide. -/
theorem verify_statementOf (M : OrdMap Hash Hash) {proof : Proof} (hlen : proof.siblings.length ≤ maxDepth)
    (hfold : foldSiblings C p proof.siblings (nodeHash C proof.terminal) = rootOf C M) :
    verify C (rootOf C M) p proof = .ok (statementOf M p) ∨ Collision C (treeInputs C M ++ verifyInputs C p proof) := by
  by_cases hcol : Collision C (treeInputs C M ++ verifyInputs C p proof)
  · exact .inr hcol
  left
  -- the leaf of the proof is the one entry under the bits folded, so it covers the path
  have hcover : ∀ q vh, proof.terminal = .leaf q vh → proof.siblings.length ≤ commonPrefixBits q p := by
    intro q vh ht
    have hinj := injOn_of_not_collision hcol
    have hclimb := hfold
    rw [foldSiblings_eq_climb, rootOf_eq_digest] at hclimb
    obtain ⟨m, -, hsep, hin, hterm⟩ := climb_sound hinj p _ proof.siblings.reverse (sep_entries M)
      (fun x hx => List.mem_append_left _ hx)
      (fun x hx => List.mem_append_right _ (List.mem_cons_of_mem _ ((mem_foldInputs C p _ _).2 hx))) hclimb
    have hmem : proof.terminal ∈ treeInputs C M ++ verifyInputs C p proof :=
      List.mem_append_right _ List.mem_cons_self
    rw [ht] at hmem hterm
    have hone := digest_eq_leaf hinj hsep hin hmem hterm
    have hq : (q, vh) ∈ descend bitAt p 0 proof.siblings.reverse.length M.entries := by
      rw [hone]; exact List.mem_singleton_self _
    refine le_commonPrefixBits hlen fun i hi => (mem_descend.1 hq).2 i (Nat.zero_le _) ?_
    rw [List.length_reverse]; omega
  obtain ⟨st, hst, hcase⟩ := verify_of_fold hlen hfold hcover
  obtain ⟨hpres, habs⟩ := verify_true hst hcol
  rw [hst]
  unfold statementOf
  rcases hcase with rfl | ⟨vh, -, rfl⟩
  · rw [habs rfl]
  · rw [hpres rfl]

/-- **Storage cannot make `Prove` lie.** Over any backend and with any cache, a proof returned by a store whose
root is that of the map `M` is accepted against that root and states the truth about `M`; or two of the
preimages hashed collide. -/
theorem prove_tells_truth {β : Type} [Backend β] (s : Store β) (M : OrdMap Hash Hash) (hroot : s.root = rootOf C M)
    (hchild : rootHash C s.rootChild = s.root) (key : Bytes) (proof : Proof)
    (h : (Store.prove C key s).val = .ok proof) :
    verify C s.root (pathOf C s.ck key) proof = .ok (statementOf M (pathOf C s.ck key)) ∨
      Collision C (treeInputs C M ++ verifyInputs C (pathOf C s.ck key) proof) := by
  obtain ⟨s', hp⟩ := exists_of_val h
  change provePath C s.rootChild (pathOf C s.ck key) s = _ at hp
  obtain ⟨hlen, hfold⟩ := provePath_fold hp
  rw [hchild, hroot] at hfold
  rw [hroot]
  exact verify_statementOf M hlen hfold

/-- The node that wraps a leaf in slot 5. -/
def wrapLeaf (l : LeafNode) : Node :=
  .internal fun i => if i = 5 then some ⟨1, leafHash quickCrypto l.path l.vh, true⟩ else none

/-- A store of one entry, over storage that wraps its leaf in an internal node. -/
def wrappedStore : Store Hostile :=
  let l : LeafNode := ⟨pathOf quickCrypto [] [1], pathOfByte 7, 1⟩
  { newStore quickCrypto
      ⟨fun log _ => if log = [] then .ok (some (wrapLeaf l).encode) else .ok (some (Node.leaf l).encode), []⟩ [] {}
      (fun _ => Nonce.zero) with
    root := leafHash quickCrypto l.path l.vh
    version := 1
    rootChild := some ⟨1, leafHash quickCrypto l.path l.vh, false⟩ }

theorem prove_tells_truth_wrapped :
    verify quickCrypto wrappedStore.root (pathOf quickCrypto [] [1])
        ⟨some ⟨pathOf quickCrypto [] [1], pathOfByte 7⟩, []⟩ =
      .ok (statementOf (OrdMap.empty.insert (pathOf quickCrypto [] [1]) (pathOfByte 7)) (pathOf quickCrypto [] [1])) ∨
    Collision quickCrypto
      (treeInputs quickCrypto (OrdMap.empty.insert (pathOf quickCrypto [] [1]) (pathOfByte 7)) ++
        verifyInputs quickCrypto (pathOf quickCrypto [] [1]) ⟨some ⟨pathOf quickCrypto [] [1], pathOfByte 7⟩, []⟩) :=
  prove_tells_truth wrappedStore (OrdMap.empty.insert (pathOf quickCrypto [] [1]) (pathOfByte 7)) (by decide +kernel)
    (by decide +kernel) [1] ⟨some ⟨pathOf quickCrypto [] [1], pathOfByte 7⟩, []⟩ (by decide +kernel)

end ImmutableLedger
