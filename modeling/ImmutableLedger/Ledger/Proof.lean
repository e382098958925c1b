import ImmutableLedger.Ledger.Store

/-!
# Inclusion and absence proofs

The codec of proofs, the pure verifier and the store-side prover (`proof.go`).

* `foldSiblings_eq_climb`: the verifier's bottom-up fold is a climb along the path.
* `proofCodec`: the decoder accepts the encodings of proofs of at most 256 siblings, and nothing else.
-/

namespace ImmutableLedger

open SparseMerkle

def maxDepth : ℕ := 256

/-- The terminal leaf found by a proof's descent. -/
structure ProofLeaf where
  path : Hash
  vh : Hash
deriving DecidableEq

/-- Presence or absence of one path at one root; siblings bottom-up. -/
structure Proof where
  leaf : Option ProofLeaf
  siblings : List Hash
deriving DecidableEq

/-- What a valid proof establishes about the proven path. -/
structure Verified where
  present : Bool
  vh : Hash
deriving DecidableEq

/-! ## Codec -/

/-- The leaf section of `Encode`: `[flags u8 (bit0 = has_leaf)] (path ‖ vh)?`. -/
def encodeLeaf : Option ProofLeaf → Bytes
  | some l => 1 :: (l.path.bytes ++ l.vh.bytes)
  | none => [0]

/-- The rest of `Encode`: `[count u16 LE] siblings`. The count wraps at `2 ^ 16`. -/
def encodeSiblings (l : List Hash) : Bytes :=
  UInt8.ofNat l.length :: UInt8.ofNat (l.length / 256) :: l.flatMap Hash.bytes

def Proof.encode (p : Proof) : Bytes := encodeLeaf p.leaf ++ encodeSiblings p.siblings

def malformedProof : Err := errInvalid "malformed proof"

/-- The sibling loop of `DecodeProof`. -/
def decodeSiblings : ℕ → Bytes → List Hash
  | 0, _ => []
  | count + 1, data => Hash.ofBytes (data.take hashSize) :: decodeSiblings count (data.drop hashSize)

/-- `DecodeProof` after the leaf section, at offset `off`: the count and the siblings, which fill the rest. -/
def decodeProofFrom (leaf : Option ProofLeaf) (data : Bytes) (off : ℕ) : Except Err Proof :=
  if data.length < off + 2 then .error malformedProof
  else
    let count := (data.getD off 0).toNat + 256 * (data.getD (off + 1) 0).toNat
    if count > maxDepth ∨ data.length ≠ off + 2 + count * hashSize then .error malformedProof
    else .ok ⟨leaf, decodeSiblings count (data.drop (off + 2))⟩

/-- `DecodeProof`: the strict decoder of `Encode`'s format. -/
def decodeProof (data : Bytes) : Except Err Proof :=
  match data with
  | [] => .error malformedProof
  | flags :: body =>
    if flags = 0 then decodeProofFrom none data 1
    else if flags = 1 then
      if data.length < 1 + 2 * hashSize then .error malformedProof
      else decodeProofFrom (some ⟨Hash.ofBytes (body.take hashSize), Hash.ofBytes ((body.drop hashSize).take hashSize)⟩)
        data (1 + 2 * hashSize)
    else .error malformedProof

/-! ## Verifying -/

variable (C : Crypto)

/-- The fold of `Verify`: the sibling at hand pairs at the depth given by the siblings after it. -/
def foldSiblings (path : Hash) : List Hash → Hash → Hash
  | [], acc => acc
  | sib :: rest, acc =>
    foldSiblings path rest
      (if bitAt path rest.length then internalHash C sib acc else internalHash C acc sib)

/-- The terminal hash and the statement of a proof, before folding. -/
def proofTerminal (path : Hash) (proof : Proof) : Except Err (Hash × Verified) :=
  match proof.leaf with
  | some l =>
    if l.path = path then .ok (leafHash C l.path l.vh, ⟨true, l.vh⟩)
    else if commonPrefixBits l.path path < proof.siblings.length then
      .error (errInvalid "divergent leaf does not cover the proven path")
    else .ok (leafHash C l.path l.vh, ⟨false, Hash.zero⟩)
  | none => .ok (placeholderHash C, ⟨false, Hash.zero⟩)

/-- `Verify`: check a proof for `path` against `root`. -/
def verify (root path : Hash) (proof : Proof) : Except Err Verified := do
  if proof.siblings.length > maxDepth then throw (errInvalid "proof too deep")
  let (acc, statement) ← proofTerminal C path proof
  if foldSiblings C path proof.siblings acc ≠ root then throw (errInvalid "proof does not match root")
  pure statement

/-- What the terminal of a proof hashes. -/
def Proof.terminal (proof : Proof) : Input Hash Hash Hash :=
  match proof.leaf with
  | some l => .leaf l.path l.vh
  | none => .empty

/-- What the fold of `Verify` hashes. -/
def foldInputs (path : Hash) : List Hash → Hash → List (Input Hash Hash Hash)
  | [], _ => []
  | sib :: rest, acc =>
    (if bitAt path rest.length then .node sib acc else .node acc sib) ::
      foldInputs path rest (if bitAt path rest.length then internalHash C sib acc else internalHash C acc sib)

/-- Everything `Verify` hashes. -/
def verifyInputs (path : Hash) (proof : Proof) : List (Input Hash Hash Hash) :=
  proof.terminal :: foldInputs C path proof.siblings (nodeHash C proof.terminal)

/-! ## Proving -/

/-- The binary descent inside one node towards slot `target`, mirroring `subtreeHash`: the child the
range collapses to, if any, and the off-path halves collected top-down. -/
def binaryDescent (ch : Children) (target : ℕ) : ℕ → ℕ → List Hash → Option (ℕ × Child) × List Hash
  | 0, start, siblings => ((slot ch start).map (fun c => (start, c)), siblings)
  | lvl + 1, start, siblings =>
    let halve :=
      if target < start + 2 ^ lvl then
        binaryDescent ch target lvl start (siblings ++ [subtreeHash C ch (start + 2 ^ lvl) lvl])
      else binaryDescent ch target lvl (start + 2 ^ lvl) (siblings ++ [subtreeHash C ch start lvl])
    match presentAt ch start (2 ^ (lvl + 1)) with
    | [] => (none, siblings)
    | [(idx, c)] => if c.isLeaf then (some (idx, c), siblings) else halve
    | _ => halve

section
variable {β : Type} [Backend β]

/-- The walk of `provePath` from child `c` at position `pfx`: the terminal leaf and the siblings,
top-down. -/
def proveFrom (path : Hash) : ℕ → Child → List Nib → List Hash → LedgerM β (Option LeafNode × List Hash)
  | fuel, c, pfx, siblings => do
    let nk : NodeKey := ⟨c.version, pfx⟩
    let n ← loadNode C nk c.hash
    if n.isLeaf ≠ c.isLeaf then throw (errNode "node %v kind mismatch" nk)
    match n with
    | .leaf l => pure (some l, siblings)
    | .internal ch =>
      match fuel with
      | 0 => throw .panic
      | fuel + 1 =>
        match binaryDescent C ch (nibble path pfx.length).val 4 0 siblings with
        | (none, siblings) => pure (none, siblings)
        | (some (idx, cc), siblings) =>
          if cc.isLeaf then
            let lk : NodeKey := ⟨cc.version, pfx ++ [Fin.ofNat 16 idx]⟩
            match ← loadNode C lk cc.hash with
            | .internal _ => throw (errNode "node %v kind mismatch" lk)
            | .leaf l => pure (some l, siblings)
          else proveFrom path fuel cc (pfx ++ [nibble path pfx.length]) siblings

/-- Walk the tree for `path`, collecting the proof. -/
def provePath (rootChild : Option Child) (path : Hash) : LedgerM β Proof :=
  match rootChild with
  | none => pure ⟨none, []⟩
  | some c => do
    let (terminal, siblings) ← proveFrom C path nibbles c [] []
    pure ⟨terminal.map (fun l => ⟨l.path, l.vh⟩), siblings.reverse⟩

namespace Store

/-- `Prove`: prove presence or absence of a key at the current root. -/
def prove (key : Bytes) : LedgerM β Proof := do
  let s ← MonadState.get
  provePath C s.rootChild (pathOf C s.ck key)

/-- `ProveAt`: prove presence or absence of a key at a historical version. -/
def proveAt (version : UInt64) (key : Bytes) : LedgerM β Proof := do
  let s ← MonadState.get
  if version > s.version then throw (errFuture version s.version)
  let root ← loadRootRecord version
  let rootChild ← loadRootChild C root version
  provePath C rootChild (pathOf C s.ck key)

end Store

end

/-! ## The fold as a climb -/

/-- The verifier's bottom-up fold climbs along the path. -/
theorem foldSiblings_eq_climb (path : Hash) : ∀ (l : List Hash) (acc : Hash),
    foldSiblings C path l acc = climb bitAt (nodeHash C) path 0 l.reverse acc := by
  intro l
  induction l with
  | nil => intro acc; rfl
  | cons sib rest ih =>
    intro acc
    rw [foldSiblings, ih, List.reverse_cons, climb_append]
    congr 1
    simp only [climb, List.length_reverse, Nat.zero_add, nodeHash_node]

/-- The climb hashes what the fold does. -/
theorem mem_foldInputs (path : Hash) {x : Input Hash Hash Hash} : ∀ (l : List Hash) (acc : Hash),
    x ∈ foldInputs C path l acc ↔ x ∈ climbInputs bitAt (nodeHash C) path 0 l.reverse acc := by
  intro l
  induction l with
  | nil => intro acc; rfl
  | cons sib rest ih =>
    intro acc
    rw [foldInputs, List.mem_cons, ih, List.reverse_cons, climbInputs_append, List.mem_append, or_comm]
    simp only [climb, climbInputs, List.length_reverse, Nat.zero_add, nodeHash_node, List.mem_singleton]

variable {C} in
theorem proofTerminal_ok {path acc : Hash} {proof : Proof} {st : Verified}
    (h : proofTerminal C path proof = .ok (acc, st)) :
    acc = nodeHash C proof.terminal ∧ ((st.present = true ∧ proof.terminal = .leaf path st.vh) ∨
      (st.present = false ∧ ∀ vh, proof.terminal ≠ .leaf path vh)) := by
  obtain ⟨leaf, siblings⟩ := proof
  cases leaf with
  | none =>
    cases h
    exact ⟨by simp [Proof.terminal], .inr ⟨rfl, fun vh he => by cases he⟩⟩
  | some l =>
    simp only [proofTerminal] at h
    split at h
    · rename_i hp
      cases h
      exact ⟨by simp [Proof.terminal], .inl ⟨rfl, by rw [← hp]; rfl⟩⟩
    · rename_i hp
      split at h
      · cases h
      · cases h
        exact ⟨by simp [Proof.terminal], .inr ⟨rfl, fun vh he => hp (by cases he; rfl)⟩⟩

variable {C} in
/-- An accepted proof: its terminal folds to the root, and the statement is about the terminal. -/
theorem verify_ok {root path : Hash} {proof : Proof} {st : Verified} (h : verify C root path proof = .ok st) :
    foldSiblings C path proof.siblings (nodeHash C proof.terminal) = root ∧
      ((st.present = true ∧ proof.terminal = .leaf path st.vh) ∨
        (st.present = false ∧ ∀ vh, proof.terminal ≠ .leaf path vh)) := by
  unfold verify at h
  split at h
  · cases h
  cases ht : proofTerminal C path proof with
  | error e => rw [ht] at h; cases h
  | ok r =>
    obtain ⟨acc, st'⟩ := r
    obtain ⟨hacc, hst⟩ := proofTerminal_ok ht
    rw [ht] at h
    change (if foldSiblings C path proof.siblings acc ≠ root then _ else _) = _ at h
    split at h
    · cases h
    · rename_i hr
      cases h
      exact ⟨by rw [← hacc]; simpa using hr, hst⟩

/-! ## The proof code -/

theorem length_flatMap_bytes (l : List Hash) : (l.flatMap Hash.bytes).length = l.length * 32 := by
  induction l with
  | nil => rfl
  | cons h l ih =>
    rw [List.flatMap_cons, List.length_append, ih, h.size, List.length_cons]
    omega

theorem decodeSiblings_flatMap (l : List Hash) : decodeSiblings l.length (l.flatMap Hash.bytes) = l := by
  induction l with
  | nil => rfl
  | cons h l ih =>
    rw [List.flatMap_cons, List.length_cons, decodeSiblings]
    unfold hashSize
    rw [List.take_left' h.size, List.drop_left' h.size, Hash.ofBytes_bytes, ih]

theorem flatMap_decodeSiblings : ∀ {count : ℕ} {data : Bytes}, data.length = count * 32 →
    (decodeSiblings count data).length = count ∧ (decodeSiblings count data).flatMap Hash.bytes = data := by
  intro count
  induction count with
  | zero =>
    intro data h
    have hnil : data = [] := List.eq_nil_of_length_eq_zero (by omega)
    exact ⟨rfl, hnil.symm⟩
  | succ count ih =>
    intro data h
    obtain ⟨hl, hb⟩ := @ih (data.drop hashSize) (by rw [List.length_drop]; unfold hashSize; omega)
    have htake : (data.take hashSize).length = 32 := by
      rw [List.length_take]
      unfold hashSize
      omega
    refine ⟨by rw [decodeSiblings, List.length_cons, hl], ?_⟩
    rw [decodeSiblings, List.flatMap_cons, Hash.bytes_ofBytes htake, hb, List.take_append_drop]

/-- The decoder after the leaf section `front`. -/
theorem decodeProofFrom_append (leaf : Option ProofLeaf) (front rest : Bytes) (b0 b1 : UInt8) :
    decodeProofFrom leaf (front ++ b0 :: b1 :: rest) front.length =
      if b0.toNat + 256 * b1.toNat ≤ maxDepth ∧ rest.length = (b0.toNat + 256 * b1.toNat) * 32 then
        .ok ⟨leaf, decodeSiblings (b0.toNat + 256 * b1.toNat) rest⟩
      else .error malformedProof := by
  have e0 : (front ++ b0 :: b1 :: rest).getD front.length 0 = b0 := by
    rw [List.getD_append_right _ _ _ _ le_rfl, Nat.sub_self]
    rfl
  have e1 : (front ++ b0 :: b1 :: rest).getD (front.length + 1) 0 = b1 := by
    rw [List.getD_append_right _ _ _ _ (by omega), Nat.add_sub_cancel_left]
    rfl
  have e2 : (front ++ b0 :: b1 :: rest).drop (front.length + 2) = rest := by
    simp
  have hlen : (front ++ b0 :: b1 :: rest).length = front.length + 2 + rest.length := by
    simp only [List.length_append, List.length_cons]
    omega
  unfold decodeProofFrom hashSize
  dsimp only
  rw [e0, e1, e2, hlen, if_neg (by omega)]
  by_cases h : b0.toNat + 256 * b1.toNat ≤ maxDepth ∧ rest.length = (b0.toNat + 256 * b1.toNat) * 32
  · rw [if_pos h, if_neg (by omega)]
  · rw [if_neg h, if_pos (by omega)]

/-- **The decoder after the leaf section** accepts the encodings of at most 256 siblings. -/
theorem decodeProofFrom_eq_ok_iff {leaf : Option ProofLeaf} {front rest : Bytes} {p : Proof} :
    decodeProofFrom leaf (front ++ rest) front.length = .ok p ↔
      p.leaf = leaf ∧ p.siblings.length ≤ maxDepth ∧ encodeSiblings p.siblings = rest := by
  constructor
  · intro h
    rcases rest with _ | ⟨b0, _ | ⟨b1, rest⟩⟩
    · simp [decodeProofFrom] at h
    · simp [decodeProofFrom] at h
    · rw [decodeProofFrom_append] at h
      split at h
      · rename_i hcount
        obtain ⟨hle, hlen⟩ := hcount
        cases h
        have h0 := b0.toNat_lt
        have h1 := b1.toNat_lt
        obtain ⟨hsib, hbytes⟩ := flatMap_decodeSiblings hlen
        refine ⟨rfl, by rw [hsib]; exact hle, ?_⟩
        have e0 : UInt8.ofNat (b0.toNat + 256 * b1.toNat) = b0 := by
          apply UInt8.toNat_inj.1
          rw [UInt8.toNat_ofNat']
          omega
        have e1 : UInt8.ofNat ((b0.toNat + 256 * b1.toNat) / 256) = b1 := by
          apply UInt8.toNat_inj.1
          rw [UInt8.toNat_ofNat']
          omega
        unfold encodeSiblings
        rw [hsib, hbytes, e0, e1]
      · cases h
  · rintro ⟨rfl, hle, rfl⟩
    have hcount : (UInt8.ofNat p.siblings.length).toNat + 256 * (UInt8.ofNat (p.siblings.length / 256)).toNat =
        p.siblings.length := by
      unfold maxDepth at hle
      rw [UInt8.toNat_ofNat', UInt8.toNat_ofNat']
      omega
    unfold encodeSiblings
    rw [decodeProofFrom_append, hcount, if_pos ⟨hle, length_flatMap_bytes _⟩, decodeSiblings_flatMap]

theorem decodeProof_none {body : Bytes} {p : Proof} :
    decodeProof (0 :: body) = .ok p ↔ p.siblings.length ≤ maxDepth ∧ p.encode = 0 :: body := by
  have hfrom := @decodeProofFrom_eq_ok_iff none [0] body p
  rw [show decodeProof (0 :: body) = decodeProofFrom none ([0] ++ body) [(0 : UInt8)].length from rfl, hfrom,
    Proof.encode]
  cases p.leaf with
  | none => simp [encodeLeaf]
  | some l => simp [encodeLeaf]

/-- The 64 bytes of a leaf section, read and written. -/
theorem encodeLeaf_eq_iff {leaf : Option ProofLeaf} {a b : Bytes} (ha : a.length = 32) (hb : b.length = 32) :
    leaf = some ⟨Hash.ofBytes a, Hash.ofBytes b⟩ ↔ encodeLeaf leaf = 1 :: (a ++ b) := by
  constructor
  · rintro rfl
    rw [encodeLeaf, Hash.bytes_ofBytes ha, Hash.bytes_ofBytes hb]
  · intro h
    cases leaf with
    | none => simp [encodeLeaf] at h
    | some l =>
      simp only [encodeLeaf, List.cons.injEq, true_and] at h
      obtain ⟨h₁, h₂⟩ := List.append_inj h (by rw [l.path.size, ha])
      rw [← h₁, ← h₂, Hash.ofBytes_bytes, Hash.ofBytes_bytes]

theorem length_encodeLeaf (leaf : Option ProofLeaf) : (encodeLeaf leaf).length = if leaf.isSome then 65 else 1 := by
  cases leaf with
  | none => rfl
  | some l => simp [encodeLeaf, l.path.size, l.vh.size]

theorem decodeProof_some {body : Bytes} {p : Proof} :
    decodeProof (1 :: body) = .ok p ↔ p.siblings.length ≤ maxDepth ∧ p.encode = 1 :: body := by
  rw [Proof.encode]
  by_cases hlen : body.length < 64
  · have herr : decodeProof (1 :: body) = .error malformedProof := by
      unfold decodeProof
      dsimp only
      rw [if_neg (by decide), if_pos rfl, if_pos (by rw [List.length_cons]; unfold hashSize; omega)]
    rw [herr]
    refine ⟨fun h => (by cases h), ?_⟩
    rintro ⟨-, h⟩
    have hl := congrArg List.length h
    cases hleaf : p.leaf with
    | none => rw [hleaf] at h; simp [encodeLeaf] at h
    | some l => 
      rw [hleaf] at hl
      rw [List.length_append, length_encodeLeaf, List.length_cons] at hl
      simp only [Option.isSome_some, if_true] at hl
      omega
  · obtain ⟨a, b, rest, rfl, ha, hb⟩ : ∃ a b rest : Bytes, body = a ++ b ++ rest ∧ a.length = 32 ∧ b.length = 32 := by
      refine ⟨body.take 32, (body.drop 32).take 32, body.drop 64, ?_, ?_, ?_⟩
      · rw [← List.take_add, List.take_append_drop]
      · rw [List.length_take]; omega
      · rw [List.length_take, List.length_drop]; omega
    have hfront : (1 :: (a ++ b)).length = 65 := by simp [ha, hb]
    have hrun : decodeProof (1 :: (a ++ b ++ rest)) =
        decodeProofFrom (some ⟨Hash.ofBytes a, Hash.ofBytes b⟩) ((1 :: (a ++ b)) ++ rest) (1 :: (a ++ b)).length := by
      unfold decodeProof hashSize
      dsimp only
      rw [if_neg (by decide), if_pos rfl, if_neg (by rw [List.length_cons]; omega), List.append_assoc,
        List.take_left' ha, List.drop_left' ha, List.take_left' hb, hfront, List.cons_append, List.append_assoc]
    rw [hrun, decodeProofFrom_eq_ok_iff, encodeLeaf_eq_iff ha hb]
    constructor
    · rintro ⟨h₁, h₂, h₃⟩
      exact ⟨h₂, by rw [h₁, h₃, List.cons_append]⟩
    · rintro ⟨h₁, h₂⟩
      rw [← List.cons_append] at h₂
      have hleaf : (encodeLeaf p.leaf).length = (1 :: (a ++ b)).length := by
        cases hl : p.leaf with
        | none => rw [hl] at h₂; simp [encodeLeaf] at h₂
        | some l => rw [length_encodeLeaf, hfront]; rfl
      obtain ⟨h₃, h₄⟩ := List.append_inj h₂ hleaf
      exact ⟨h₃, h₁, h₄⟩

/-- **What `DecodeProof` returns**: the proof of at most 256 siblings that encodes to the input. -/
theorem decodeProof_eq_ok_iff {data : Bytes} {p : Proof} :
    decodeProof data = .ok p ↔ p.siblings.length ≤ maxDepth ∧ p.encode = data := by
  rcases data with _ | ⟨flags, body⟩
  · refine ⟨fun h => (by cases h), ?_⟩
    rintro ⟨-, h⟩
    cases hl : p.leaf <;> rw [Proof.encode, hl] at h <;> cases h
  · by_cases h0 : flags = 0
    · subst h0
      exact decodeProof_none
    · by_cases h1 : flags = 1
      · subst h1
        exact decodeProof_some
      · have herr : decodeProof (flags :: body) = .error malformedProof := by
          unfold decodeProof
          dsimp only
          rw [if_neg h0, if_neg h1]
        rw [herr]
        refine ⟨fun h => (by cases h), ?_⟩
        rintro ⟨-, h⟩
        cases hl : p.leaf <;> rw [Proof.encode, hl] at h <;> cases h
        · exact absurd rfl h0
        · exact absurd rfl h1

theorem decodeProofFrom_error {leaf : Option ProofLeaf} {data : Bytes} {off : ℕ} {e : Err}
    (h : decodeProofFrom leaf data off = .error e) : e = malformedProof := by
  unfold decodeProofFrom at h
  dsimp only at h
  split at h
  · exact (Except.error.inj h).symm
  · split at h
    · exact (Except.error.inj h).symm
    · cases h

theorem decodeProof_error {data : Bytes} {e : Err} (h : decodeProof data = .error e) : e = malformedProof := by
  unfold decodeProof at h
  split at h
  · exact (Except.error.inj h).symm
  · split at h
    · exact decodeProofFrom_error h
    · split at h
      · split at h
        · exact (Except.error.inj h).symm
        · exact decodeProofFrom_error h
      · exact (Except.error.inj h).symm

/-- Siblings that begin with others are no longer than these: the count comes first. -/
theorem encodeSiblings_append {l m : List Hash} {rest : Bytes} (hl : l.length ≤ maxDepth) (hm : m.length ≤ maxDepth)
    (h : encodeSiblings l ++ rest = encodeSiblings m) : rest = [] := by
  unfold maxDepth at hl hm
  simp only [encodeSiblings, List.cons_append, List.cons.injEq] at h
  obtain ⟨h₀, h₁, h₂⟩ := h
  have e₀ := congrArg UInt8.toNat h₀
  have e₁ := congrArg UInt8.toNat h₁
  have e₂ := congrArg List.length h₂
  simp only [UInt8.toNat_ofNat', List.length_append, length_flatMap_bytes] at e₀ e₁ e₂
  exact List.eq_nil_of_length_eq_zero (by omega)

theorem encodeLeaf_append_inj {a b : Option ProofLeaf} {r t : Bytes} (h : encodeLeaf a ++ r = encodeLeaf b ++ t) :
    r = t := by
  refine (List.append_inj h ?_).2
  cases a with
  | none =>
    cases b with
    | none => rfl
    | some m => simp [encodeLeaf] at h
  | some l =>
    cases b with
    | none => simp [encodeLeaf] at h
    | some m => rw [length_encodeLeaf, length_encodeLeaf]; rfl

/-- **`DecodeProof` is exact** for the proofs the verifier may accept. -/
theorem proofCodec : ExactCodec Proof.encode decodeProof fun p => p.siblings.length ≤ maxDepth where
  decode_encode ha := decodeProof_eq_ok_iff.2 ⟨ha, rfl⟩
  sound h := decodeProof_eq_ok_iff.1 h

theorem prefixFree_proof : ExactCodec.PrefixFree Proof.encode fun p => p.siblings.length ≤ maxDepth := by
  rintro a b ha hb ⟨rest, hrest⟩
  have hnil : rest = [] := by
    unfold Proof.encode at hrest
    rw [List.append_assoc] at hrest
    exact encodeSiblings_append ha hb (encodeLeaf_append_inj hrest)
  rw [hnil, List.append_nil] at hrest
  have hdec := proofCodec.decode_encode ha
  rw [hrest, proofCodec.decode_encode hb] at hdec
  exact (Except.ok.inj hdec).symm

end ImmutableLedger
