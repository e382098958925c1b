import ImmutableLedger.Ledger.Proof
import ImmutableLedger.Refine.Prune
import ImmutableLedger.Proof.KeySpace

/-!
# The stored formats

Nodes and proofs have exact codecs, and the ledger and the SQL layer share one backend without sharing a key.

* `node_codec_exact`, `proof_codec_exact`: the decoders accept the encodings and nothing else.
* `shared_keys_distinct`: keys of different records or entries differ, and the ranges a prune scans hold the stale and
  root records of its horizon.
-/

namespace ImmutableLedger

/-! ## Nodes -/

/-- **Node codec.** Every leaf, and every internal node with a child, survives the codec; an accepted record re-encodes to
itself, so a node has one accepted record. -/
theorem node_codec_exact :
    (∀ n : Node, n.Ok → decodeNode n.encode = .ok n) ∧
    (∀ (d : Bytes) (n : Node), decodeNode d = .ok n → n.encode = d) ∧
    ∀ (d d' : Bytes) (n : Node), decodeNode d = .ok n → decodeNode d' = .ok n → d = d' :=
  ⟨fun _ => nodeCodec.decode_encode, fun _ _ h => (nodeCodec.sound h).2, fun _ _ _ => nodeCodec.unique⟩

/-- Children in the first and the last slot. -/
def outerChildren : Children := fun i =>
  if i = 0 then some ⟨7, Hash.zero, true⟩ else if i = 15 then some ⟨0xFFFFFFFFFFFFFFFF, Hash.zero, false⟩ else none

theorem node_codec_outer : decodeNode (Node.internal outerChildren).encode = .ok (.internal outerChildren) :=
  node_codec_exact.1 _ ⟨0, rfl⟩

/-! ## Proofs -/

/-- **Proof codec.** A proof of at most 256 siblings, with or without a leaf, survives the codec; accepted bytes re-encode
to themselves and are the encoding of such a proof. All others are rejected with one error: encodings cut short,
encodings with bytes after them, and bytes framed otherwise. -/
theorem proof_codec_exact :
    (∀ p : Proof, p.siblings.length ≤ 256 → decodeProof p.encode = .ok p) ∧
    (∀ (d : Bytes) (p : Proof), decodeProof d = .ok p → p.encode = d) ∧
    (∀ d : Bytes, (∃ p, decodeProof d = .ok p) ↔ ∃ p : Proof, p.siblings.length ≤ 256 ∧ p.encode = d) ∧
    (∀ p : Proof, p.siblings.length ≤ 256 → ∀ d, d <+: p.encode → d ≠ p.encode →
      decodeProof d = .error malformedProof) ∧
    (∀ p : Proof, p.siblings.length ≤ 256 → ∀ rest, rest ≠ [] → decodeProof (p.encode ++ rest) = .error malformedProof) ∧
    ∀ d : Bytes, (∀ p : Proof, p.siblings.length ≤ 256 → p.encode ≠ d) → decodeProof d = .error malformedProof := by
  have hreject : ∀ {d : Bytes}, (∀ p, decodeProof d ≠ .ok p) → decodeProof d = .error malformedProof := by
    intro d h
    cases hd : decodeProof d with
    | ok p => exact absurd hd (h p)
    | error e => rw [decodeProof_error hd]
  refine ⟨fun p hp => proofCodec.decode_encode hp, fun d p h => (proofCodec.sound h).2, fun d => proofCodec.accepts_iff,
    fun p hp d hd hne => hreject (proofCodec.rejects_truncated prefixFree_proof hp hd hne),
    fun p hp rest hne => hreject (proofCodec.rejects_extended prefixFree_proof hp hne), fun d h => hreject fun p hp => ?_⟩
  obtain ⟨hle, he⟩ := proofCodec.sound hp
  exact h p hle he

theorem proof_codec_deepest :
    decodeProof (Proof.encode ⟨some ⟨Hash.zero, Hash.zero⟩, List.replicate 256 Hash.zero⟩) =
      .ok ⟨some ⟨Hash.zero, Hash.zero⟩, List.replicate 256 Hash.zero⟩ :=
  proof_codec_exact.1 _ List.length_replicate.le

/-! ## Keys -/

/-- The first byte of a record's key. -/
def RecKey.tag : RecKey → UInt8
  | node _ => recNode
  | value _ _ => recValue
  | stale _ _ => recStale
  | root _ => recRoot
  | checkpoint => recCheckpoint

theorem RecKey.head_bytes (k : RecKey) : k.bytes.head? = some k.tag := by cases k <;> rfl

/-- No record of the ledger has a tag of the derived keyspace. -/
theorem RecKey.tag_ne (k : RecKey) : k.tag ≠ scanPrefix ∧ k.tag ≠ scanMetaKey ∧ k.tag ≠ secondaryPrefix := by
  cases k <;> simp only [tag] <;> decide

/-- The identity of a secondary index entry: the index, the indexed columns and the primary key of a row. `indexes` is the
index behind an id. -/
@[ext]
structure SecondaryEntry (indexes : UInt64 → TableDef × IndexDef) where
  idxID : UInt64
  colsEnc : Bytes
  pkEnc : Bytes
  encodes : ∃ row hasNull, encodeIndexCols (indexes idxID).1 (indexes idxID).2 row = .ok (colsEnc, hasNull)

/-- What the ledger and the SQL layer keep in the backend they share. -/
inductive SharedKey (indexes : UInt64 → TableDef × IndexDef) where
  | record (k : RecKey)
  | scan (id : UInt64) (pkEnc : Bytes)
  | marker
  | secondary (e : SecondaryEntry indexes)

namespace SharedKey

variable {indexes : UInt64 → TableDef × IndexDef}

/-- The key in the backend. -/
def bytes : SharedKey indexes → Bytes
  | record k => k.bytes
  | scan id pkEnc => scanKey id pkEnc
  | marker => [scanMetaKey]
  | secondary e => entryKey e.idxID e.colsEnc e.pkEnc

/-- The byte that tells the kinds apart. -/
def tag : SharedKey indexes → UInt8
  | record k => k.tag
  | scan _ _ => scanPrefix
  | marker => scanMetaKey
  | secondary _ => secondaryPrefix

theorem head_bytes (k : SharedKey indexes) : k.bytes.head? = some k.tag := by
  cases k with
  | record r => exact r.head_bytes
  | _ => rfl

theorem secondary_inj {e f : SecondaryEntry indexes}
    (h : entryKey e.idxID e.colsEnc e.pkEnc = entryKey f.idxID f.colsEnc f.pkEnc) : e = f := by
  unfold entryKey secondarySpace at h
  rw [List.cons_append, List.cons_append, List.cons_append, List.cons_append, List.append_assoc, List.append_assoc] at h
  obtain ⟨hid, hrest⟩ := List.append_inj (List.cons.inj h).2 (by simp)
  have hidx := Bytes.u64_inj hid
  obtain ⟨row, n, hrow⟩ := e.encodes
  obtain ⟨row', n', hrow'⟩ := f.encodes
  rw [← hidx] at hrow'
  obtain ⟨hcols, hpk⟩ := encodeIndexCols_append_inj hrow hrow' hrest
  exact SecondaryEntry.ext hidx hcols hpk

/-- Keys of different identities differ: those of one kind by their fixed-width or self-delimiting fields, those of
different kinds by their first byte. -/
theorem bytes_inj {a b : SharedKey indexes} (h : a.bytes = b.bytes) : a = b := by
  have htag : a.tag = b.tag := by
    have hb := b.head_bytes
    rw [← h, a.head_bytes] at hb
    exact Option.some.inj hb
  cases a with
  | record r =>
    obtain ⟨hscan, hmarker, hsecondary⟩ := r.tag_ne
    cases b with
    | record r' => rw [RecKey.bytes_inj h]
    | scan => exact absurd htag hscan
    | marker => exact absurd htag hmarker
    | secondary => exact absurd htag hsecondary
  | scan id pk =>
    cases b with
    | record r => exact absurd htag.symm r.tag_ne.1
    | scan id' pk' =>
      obtain ⟨hid, hpk⟩ := List.append_inj (List.cons.inj h).2 (by simp)
      rw [Bytes.u64_inj hid, hpk]
    | marker | secondary => exact absurd htag (by simp only [tag]; decide)
  | marker =>
    cases b with
    | record r => exact absurd htag.symm r.tag_ne.2.1
    | scan => exact absurd htag (by simp only [tag]; decide)
    | marker => rfl
    | secondary => exact absurd htag (by simp only [tag]; decide)
  | secondary e =>
    cases b with
    | record r => exact absurd htag.symm r.tag_ne.2.2
    | scan | marker => exact absurd htag (by simp only [tag]; decide)
    | secondary f => rw [secondary_inj h]

/-- The only keys with the tag of stale entries. -/
theorem eq_stale {k : SharedKey indexes} (h : k.tag = recStale) : ∃ t target, k = record (.stale t target) := by
  cases k with
  | record r =>
    cases r with
    | stale t target => exact ⟨t, target, rfl⟩
    | _ => exact absurd h (by simp only [tag, RecKey.tag]; decide)
  | _ => exact absurd h (by simp only [tag]; decide)

/-- The only keys with the tag of root records. -/
theorem eq_root {k : SharedKey indexes} (h : k.tag = recRoot) : ∃ w, k = record (.root w) := by
  cases k with
  | record r =>
    cases r with
    | root w => exact ⟨w, rfl⟩
    | _ => exact absurd h (by simp only [tag, RecKey.tag]; decide)
  | _ => exact absurd h (by simp only [tag]; decide)

theorem mem_stale_range (b : UInt64) (k : SharedKey indexes) :
    ([recStale] ≤ k.bytes ∧ k.bytes < staleEnd b) ↔ ∃ t target, k = record (.stale t target) ∧ t ≤ b := by
  constructor
  · rintro ⟨hle, hlt⟩
    have hhead := head_of_stale_range hle hlt
    rw [k.head_bytes] at hhead
    obtain ⟨t, target, rfl⟩ := eq_stale (Option.some.inj hhead)
    exact ⟨t, target, rfl, staleRecordKey_mem_range.1 ⟨hle, hlt⟩⟩
  · rintro ⟨t, target, rfl, ht⟩
    exact staleRecordKey_mem_range.2 ht

theorem mem_root_range (b : UInt64) (k : SharedKey indexes) :
    ([recRoot] ≤ k.bytes ∧ k.bytes < recRoot :: Bytes.u64 b) ↔ ∃ w, k = record (.root w) ∧ w < b := by
  constructor
  · rintro ⟨hle, hlt⟩
    obtain ⟨l, hl, -⟩ := head_of_range hle hlt
    have hhead := k.head_bytes
    rw [hl] at hhead
    obtain ⟨w, rfl⟩ := eq_root (Option.some.inj hhead).symm
    exact ⟨w, rfl, rootRecordKey_mem_range.1 ⟨hle, hlt⟩⟩
  · rintro ⟨w, rfl, hw⟩
    exact rootRecordKey_mem_range.2 hw

end SharedKey

/-- **Record keys never collide.** Node keys are told apart at every depth; the keys of the ledger's records and of the SQL
layer's entries differ for different identities; a stale key gives its mark and its target; and the ranges that a prune
to horizon `b` scans hold, of all keys in the backend, the stale entries marked up to `b` and the root records below `b`,
for every 64-bit `b`. -/
theorem shared_keys_distinct (indexes : UInt64 → TableDef × IndexDef) :
    (∀ a b : NodeKey, a.encode = b.encode → a = b) ∧
    (∀ a b : SharedKey indexes, a.bytes = b.bytes → a = b) ∧
    (∀ (t t' : UInt64) (target target' : Bytes), staleRecordKey t target = staleRecordKey t' target' →
      t = t' ∧ target = target') ∧
    (∀ (b : UInt64) (m : MemBackend) (k : SharedKey indexes) (v : Bytes),
      (k.bytes, v) ∈ m.scan [recStale] (staleEnd b) 0 ↔
        m.get k.bytes = some v ∧ ∃ t target, k = .record (.stale t target) ∧ t ≤ b) ∧
    ∀ (b : UInt64) (m : MemBackend) (k : SharedKey indexes) (v : Bytes),
      (k.bytes, v) ∈ m.scan [recRoot] (recRoot :: Bytes.u64 b) 0 ↔
        m.get k.bytes = some v ∧ ∃ w, k = .record (.root w) ∧ w < b := by
  refine ⟨fun _ _ => NodeKey.encode_inj, fun _ _ => SharedKey.bytes_inj, ?_, ?_, ?_⟩
  · intro t t' target target' h
    have hkey := RecKey.bytes_inj (a := .stale t target) (b := .stale t' target') h
    exact RecKey.stale.inj hkey
  · intro b m k v
    rw [MemBackend.mem_scan, or_iff_right (staleEnd_ne_nil b), SharedKey.mem_stale_range]
  · intro b m k v
    rw [MemBackend.mem_scan, or_iff_right (List.cons_ne_nil _ _), SharedKey.mem_root_range]

end ImmutableLedger
