import ImmutableLedger.Lib.Sha256
import ImmutableLedger.Lib.SparseMerkle

/-!
# Hashes, commitments and errors

The 32-byte hashes of the ledger, the domain-separated node hashes, the keyed commitments and the
AES-256-GCM record layer (`hash.go`, `errors.go`, `aead.go`, and `pathOf`, `vhOf` of `store.go`).

SHA-256 and AES-GCM are fields of `Crypto`, on which nothing is assumed; a result that needs
collision freedom names the set of inputs it needs it on, and one that reads sealed values asks
for `Crypto.GcmOk`.

* `preimage_injective`: the tags keep leaf, internal and placeholder preimages apart, so a collision
  among node hashes is a SHA-256 collision.
-/

namespace ImmutableLedger

open SparseMerkle

/-- The bytes of an ASCII literal. -/
def ascii (s : String) : Bytes := s.toList.map (fun c => UInt8.ofNat c.toNat)

/-- The size of every hash in the tree. -/
def hashSize : ℕ := 32

/-- A 32-byte SHA-256 output, also used as a 256-bit tree path. -/
@[ext]
structure Hash where
  bytes : Bytes
  size : bytes.length = 32
deriving DecidableEq

namespace Hash

theorem bytes_injective : Function.Injective Hash.bytes := fun _ _ h => Hash.ext h

/-- Hashes compare as byte strings (`bytes.Compare`). -/
instance : LinearOrder Hash := LinearOrder.lift' Hash.bytes bytes_injective

theorem lt_iff {a b : Hash} : a < b ↔ a.bytes < b.bytes := Iff.rfl

/-- `copy(h[:], b)` for a 32-byte slice; shorter input leaves the zero bytes in place. -/
def ofBytes (b : Bytes) : Hash :=
  ⟨(b.take 32) ++ List.replicate (32 - (b.take 32).length) 0, by simp⟩

@[simp] theorem ofBytes_bytes (h : Hash) : ofBytes h.bytes = h := by
  apply Hash.ext
  have := h.size
  simp [ofBytes, this, List.take_of_length_le this.le]

theorem bytes_ofBytes {b : Bytes} (h : b.length = 32) : (ofBytes b).bytes = b := by
  simp [ofBytes, h, List.take_of_length_le h.le]

/-- The all-zero hash (`Hash{}`). -/
def zero : Hash := ⟨List.replicate 32 0, by simp⟩

instance : Inhabited Hash := ⟨zero⟩

end Hash

/-! ## Errors -/

/-- Classification of a ledger error. -/
inductive Kind where
  | backend
  | corrupted
  | missing
  | invalid
deriving DecidableEq, Repr

/-- A formatting argument of an error message. -/
inductive Arg where
  | uint (n : UInt64)
  | key (k : Bytes)
  | node (version : UInt64) (pfx : List (Fin 16))
  | text (s : String)
deriving DecidableEq

/-- How a call fails: with a ledger error (kind, message format and arguments), with an error of the
backend handed on as it is, with a run-time panic of the Go code, or by a loop that does not end. -/
inductive Err where
  | error (kind : Kind) (format : String) (args : List Arg)
  | raw (e : String)
  | panic
  | hang
deriving DecidableEq

/-- The text of an error (`Error()`), its format not filled in. -/
def Err.text : Err → String
  | .error .backend f _ => f
  | .error .corrupted f _ => "corrupted record: " ++ f
  | .error .missing f _ => "missing record: " ++ f
  | .error .invalid f _ => "invalid input: " ++ f
  | .raw e => e
  | .panic => "panic"
  | .hang => "hang"

/-- The error kind, when it is a ledger error. -/
def Err.kind : Err → Option Kind
  | .error k _ _ => some k
  | _ => none

def errBackend (e : String) : Err := .error .backend "backend error: %v" [.text e]
def errCorrupted (msg : String) : Err := .error .corrupted msg []
def errMissing (msg : String) : Err := .error .missing msg []
def errInvalid (msg : String) : Err := .error .invalid msg []
def errCorruptedf (f : String) (a : List Arg) : Err := .error .corrupted f a
def errInvalidf (f : String) (a : List Arg) : Err := .error .invalid f a
def errMissingf (f : String) (a : List Arg) : Err := .error .missing f a

/-! ## Cryptographic primitives -/

/-- The primitives of Go's `crypto` packages the ledger calls. -/
structure Crypto where
  /-- `sha256.Sum256`. -/
  sha256 : Bytes → Hash
  /-- `AEAD.Seal` of AES-256-GCM: key, nonce, plaintext, additional data. -/
  gcmSeal : Bytes → Bytes → Bytes → Bytes → Bytes
  /-- `AEAD.Open` of AES-256-GCM: key, nonce, ciphertext with tag, additional data. -/
  gcmOpen : Bytes → Bytes → Bytes → Bytes → Option Bytes

def aeadNonceSize : ℕ := 12
def aeadTagSize : ℕ := 16

/-- A GCM nonce. -/
structure Nonce where
  bytes : Bytes
  size : bytes.length = aeadNonceSize
deriving DecidableEq

/-- What GCM documents: opening undoes sealing, and sealing appends a 16-byte tag. -/
structure Crypto.GcmOk (C : Crypto) : Prop where
  open_seal : ∀ key nonce pt aad, nonce.length = aeadNonceSize →
    C.gcmOpen key nonce (C.gcmSeal key nonce pt aad) aad = some pt
  length_seal : ∀ key nonce pt aad, (C.gcmSeal key nonce pt aad).length = pt.length + aeadTagSize

variable (C : Crypto)

/-- `nonce ‖ ciphertext ‖ tag` under the given nonce. -/
def encrypt (key : Bytes) (nonce : Nonce) (plaintext aad : Bytes) : Bytes :=
  nonce.bytes ++ C.gcmSeal key nonce.bytes plaintext aad

/-- Expects `nonce ‖ ciphertext ‖ tag`. -/
def decrypt (key record aad : Bytes) : Except Err Bytes :=
  if record.length < aeadNonceSize + aeadTagSize then .error (errCorrupted "aead record too short")
  else match C.gcmOpen key (record.take aeadNonceSize) (record.drop aeadNonceSize) aad with
    | none => .error (errCorrupted "aead open failed")
    | some pt => .ok pt

variable {C} in
/-- Decryption undoes encryption. -/
theorem decrypt_encrypt (hC : C.GcmOk) (key : Bytes) (nonce : Nonce) (pt aad : Bytes) :
    decrypt C key (encrypt C key nonce pt aad) aad = .ok pt := by
  have hn := nonce.size
  unfold decrypt encrypt
  rw [if_neg (by rw [List.length_append, hC.length_seal, hn]; omega), List.take_left' hn,
    List.drop_left' hn, hC.open_seal _ _ _ _ hn]

/-- SHA-256 of the concatenation of its parts. -/
def sha256Parts (parts : List Bytes) : Hash := C.sha256 parts.flatten

/-- HMAC-SHA-256 (`crypto/hmac`): the key is hashed when longer than a 64-byte block, then
zero-padded to a block. -/
def hmac (key msg : Bytes) : Hash :=
  let k := if key.length > 64 then (C.sha256 key).bytes else key
  let k := k ++ List.replicate (64 - k.length) 0
  C.sha256 (k.map (· ^^^ 0x5c) ++ (C.sha256 (k.map (· ^^^ 0x36) ++ msg)).bytes)

/-- The primitives for runs without a storage key: SHA-256 itself, and in place of AES-GCM a seal that
only has its shape. -/
def plainCrypto : Crypto where
  sha256 msg := ⟨Sha256.sum msg, Sha256.length_sum msg⟩
  gcmSeal _ _ plaintext _ := plaintext ++ List.replicate aeadTagSize 0
  gcmOpen _ _ ciphertext _ := some (ciphertext.take (ciphertext.length - aeadTagSize))

theorem plainCrypto_gcmOk : plainCrypto.GcmOk where
  open_seal key nonce pt aad _ := by simp [plainCrypto]
  length_seal key nonce pt aad := by simp [plainCrypto]

/-- The same with a hash that is quick to evaluate, a multiple's remainder, for concrete runs of many hashes. -/
def quickCrypto : Crypto :=
  { plainCrypto with
    sha256 := fun msg => ⟨Bytes.beBytes 32 (Bytes.ofBE (1 :: msg) *
      0x9E3779B97F4A7C15F39CC0605CEDC8341082276BF3A27251F86C6A11D0C18E95 % (2 ^ 256 - 189)), Bytes.length_beBytes 32 _⟩ }

/-- A nonce for concrete runs. -/
def Nonce.zero : Nonce := ⟨List.replicate 12 0, rfl⟩

theorem quickCrypto_gcmOk : quickCrypto.GcmOk := ⟨plainCrypto_gcmOk.open_seal, plainCrypto_gcmOk.length_seal⟩

/-! ## Node hashes -/

def tagLeaf : Bytes := ascii "enclave-os-merkle:leaf:v1"
def tagInternal : Bytes := ascii "enclave-os-merkle:node:v1"
def tagPlaceholder : Bytes := ascii "ENCLAVE_OS_MERKLE_PLACEHOLDER"

/-- The hash standing in for any empty subtree, at every height. -/
def placeholderHash : Hash := sha256Parts C [tagPlaceholder]

/-- SHA-256(tag ‖ path ‖ vh). -/
def leafHash (path vh : Hash) : Hash := sha256Parts C [tagLeaf, path.bytes, vh.bytes]

/-- SHA-256(tag ‖ left ‖ right). -/
def internalHash (left right : Hash) : Hash := sha256Parts C [tagInternal, left.bytes, right.bytes]

/-- The byte string hashed for a node. -/
def preimage : Input Hash Hash Hash → Bytes
  | .empty => tagPlaceholder
  | .leaf p v => tagLeaf ++ p.bytes ++ v.bytes
  | .node l r => tagInternal ++ l.bytes ++ r.bytes

/-- The node hashes as one function of what is hashed. -/
def nodeHash (x : Input Hash Hash Hash) : Hash := C.sha256 (preimage x)

@[simp] theorem nodeHash_empty : nodeHash C .empty = placeholderHash C := by
  simp [nodeHash, preimage, placeholderHash, sha256Parts]

@[simp] theorem nodeHash_leaf (p v : Hash) : nodeHash C (.leaf p v) = leafHash C p v := by
  simp [nodeHash, preimage, leafHash, sha256Parts]

@[simp] theorem nodeHash_node (l r : Hash) : nodeHash C (.node l r) = internalHash C l r := by
  simp [nodeHash, preimage, internalHash, sha256Parts]

theorem hash_append_inj {a b c d : Hash} {t : Bytes}
    (h : t ++ a.bytes ++ b.bytes = t ++ c.bytes ++ d.bytes) : a = c ∧ b = d := by
  rw [List.append_assoc, List.append_assoc] at h
  have h := List.append_cancel_left h
  obtain ⟨h1, h2⟩ := List.append_inj h (by rw [a.size, c.size])
  exact ⟨Hash.ext h1, Hash.ext h2⟩

theorem tagLeaf_ne_tagInternal {a b : Bytes} : tagLeaf ++ a ≠ tagInternal ++ b := by
  intro h
  exact absurd (List.append_inj h (by decide)).1 (by decide)

/-- **The tags separate the node kinds**: distinct nodes have distinct preimages. -/
theorem preimage_injective : Function.Injective preimage := by
  intro x y h
  have hp : tagPlaceholder.length = 29 := by decide
  have hl : tagLeaf.length = 25 := by decide
  have hi : tagInternal.length = 25 := by decide
  cases x with
  | empty =>
    cases y with
    | empty => rfl
    | leaf p v =>
      have := congrArg List.length h
      simp [preimage, hp, hl, p.size, v.size] at this
    | node l r =>
      have := congrArg List.length h
      simp [preimage, hp, hi, l.size, r.size] at this
  | leaf p v =>
    cases y with
    | empty =>
      have := congrArg List.length h
      simp [preimage, hp, hl, p.size, v.size] at this
    | leaf q w =>
      obtain ⟨rfl, rfl⟩ := hash_append_inj h
      rfl
    | node l r =>
      simp only [preimage, List.append_assoc] at h
      exact absurd h tagLeaf_ne_tagInternal
  | node l r =>
    cases y with
    | empty =>
      have := congrArg List.length h
      simp [preimage, hp, hi, l.size, r.size] at this
    | leaf q w =>
      simp only [preimage, List.append_assoc] at h
      exact absurd h.symm tagLeaf_ne_tagInternal
    | node l' r' =>
      obtain ⟨rfl, rfl⟩ := hash_append_inj h
      rfl

/-! ## Keyed commitments -/

def hmacTagPath : Bytes := ascii "p"
def hmacTagValue : Bytes := ascii "v"

/-- The 256-bit tree position of a key: HMAC-SHA256(ck, "p" ‖ key). -/
def pathOf (ck key : Bytes) : Hash := hmac C ck (hmacTagPath ++ key)

/-- The value commitment: HMAC-SHA256(ck, "v" ‖ path ‖ plaintext). -/
def vhOf (ck : Bytes) (path : Hash) (plaintext : Bytes) : Hash :=
  hmac C ck (hmacTagValue ++ path.bytes ++ plaintext)

/-! ## History chain -/

def historyKey : Bytes := ascii "\x00immutable-ledger:history-head"

def historyChainTag : Bytes := ascii "immutable-ledger:history:v1"

/-- The chain head written by the commit that produced `version`. -/
def historyLink (prevHead prevRoot : Hash) (version : UInt64) : Hash :=
  sha256Parts C [historyChainTag, prevHead.bytes, prevRoot.bytes, Bytes.u64 version]

end ImmutableLedger
