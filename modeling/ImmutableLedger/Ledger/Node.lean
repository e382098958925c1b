import ImmutableLedger.Lib.Codec
import ImmutableLedger.Ledger.Path

/-!
# Tree nodes

Versioned node keys, internal and leaf nodes, their byte codecs and their hashes (`node.go`).
Storage is 16-ary, hashing is binary: an internal node hashes as a 4-level binary tree over its
16 child slots, in which an empty range is the placeholder and a range holding a single leaf is
that leaf's hash.

* `decodeNode_encode`: decoding undoes encoding.
* `encode_of_decodeNode`: an accepted record is the encoding of the node read from it.
* `NodeKey.encode_inj`: node keys have distinct encodings, at any depth.
-/

namespace ImmutableLedger

open SparseMerkle

/-- Where a node lives: the version that wrote it and its nibble position. -/
@[ext]
structure NodeKey where
  version : UInt64
  pfx : List Nib
deriving DecidableEq

instance : LinearOrder NodeKey :=
  LinearOrder.lift' (fun nk => toLex (nk.version, nk.pfx)) fun a b h => by
    have := toLex_inj.1 h
    simp only [Prod.mk.injEq] at this
    exact NodeKey.ext this.1 this.2

def rootNodeKey (version : UInt64) : NodeKey := ⟨version, []⟩

/-- Nibbles packed two to a byte, an odd last one in the high half. -/
def packNibbles : List Nib → Bytes
  | [] => []
  | [a] => [UInt8.ofNat a.val <<< 4]
  | a :: b :: l => (UInt8.ofNat a.val <<< 4 ||| UInt8.ofNat b.val) :: packNibbles l

/-- `version u64 BE ‖ nibble_count u8 ‖ packed nibbles`. -/
def NodeKey.encode (nk : NodeKey) : Bytes :=
  Bytes.u64 nk.version ++ [UInt8.ofNat nk.pfx.length] ++ packNibbles nk.pfx

/-- A reference to a child node held inside an internal node. -/
@[ext]
structure Child where
  version : UInt64
  hash : Hash
  isLeaf : Bool
deriving DecidableEq

/-- Up to 16 children, one per nibble value. -/
abbrev Children := Nib → Option Child

/-- A leaf: the full path, the value commitment and the version of its value record. -/
@[ext]
structure LeafNode where
  path : Hash
  vh : Hash
  valueVersion : UInt64
deriving DecidableEq

/-- Either an internal node or a leaf. -/
inductive Node where
  | internal (children : Children)
  | leaf (l : LeafNode)
deriving DecidableEq

def Node.isLeaf : Node → Bool
  | .internal _ => false
  | .leaf _ => true

/-! ## Codec -/

def nodeTagInternal : UInt8 := 1
def nodeTagLeaf : UInt8 := 2

/-- One child entry: `version u64 BE ‖ hash ‖ is_leaf u8`. -/
def Child.encode (c : Child) : Bytes :=
  Bytes.u64 c.version ++ c.hash.bytes ++ [if c.isLeaf then 1 else 0]

/-- The bitmap of the occupied slots. -/
def bitmap (ch : Children) : ℕ :=
  (List.finRange 16).foldl (fun m i => if (ch i).isSome then m ||| 1 <<< i.val else m) 0

/-- The bytes of the children in the slots `is`. -/
def encodeChildren (ch : Children) (is : List Nib) : Bytes :=
  is.flatMap (fun i => match ch i with | none => [] | some c => c.encode)

/-- The stored byte form. Leaf: `[2] path vh value_version`. Internal: `[1] bitmap u16 LE` and the
children in ascending slot order. -/
def Node.encode : Node → Bytes
  | .leaf l => nodeTagLeaf :: (l.path.bytes ++ l.vh.bytes ++ Bytes.u64 l.valueVersion)
  | .internal ch =>
    nodeTagInternal :: UInt8.ofNat (bitmap ch) :: UInt8.ofNat (bitmap ch / 256) ::
      encodeChildren ch (List.finRange 16)

/-- The child loop of `decodeNode` over the slots left, from the current offset. -/
def decodeChildren (bm : ℕ) : List Nib → Bytes → Except Err Children
  | [], _ => .ok fun _ => none
  | i :: is, data =>
    if bm.testBit i.val then
      let version := Bytes.toU64 (data.take 8)
      let hash := Hash.ofBytes ((data.drop 8).take 32)
      let flag := data.getD 40 0
      if flag = 0 then do
        let ch ← decodeChildren bm is (data.drop 41)
        pure (Function.update ch i (some ⟨version, hash, false⟩))
      else if flag = 1 then do
        let ch ← decodeChildren bm is (data.drop 41)
        pure (Function.update ch i (some ⟨version, hash, true⟩))
      else .error (errCorrupted "node decode: bad is_leaf flag")
    else decodeChildren bm is data

/-- Parse a stored record. Trailing bytes or malformed content are corruption. -/
def decodeNode (data : Bytes) : Except Err Node :=
  match data with
  | [] => .error (errCorrupted "node decode: unknown tag")
  | tag :: body =>
    if tag = nodeTagLeaf then
      if data.length ≠ 1 + 2 * hashSize + 8 then .error (errCorrupted "node decode: bad leaf length")
      else .ok (.leaf ⟨Hash.ofBytes (body.take 32), Hash.ofBytes ((body.drop 32).take 32),
        Bytes.toU64 (body.drop 64)⟩)
    else if tag = nodeTagInternal then
      if data.length < 3 then .error (errCorrupted "node decode: internal too short")
      else
        let bm := (body.getD 0 0).toNat + 256 * (body.getD 1 0).toNat
        let count := (List.finRange 16).countP (fun i => bm.testBit i.val)
        if count = 0 then .error (errCorrupted "node decode: internal with no children")
        else if data.length ≠ 3 + count * (8 + hashSize + 1) then
          .error (errCorrupted "node decode: bad internal length")
        else do
          let ch ← decodeChildren bm (List.finRange 16) (body.drop 2)
          pure (.internal ch)
    else .error (errCorrupted "node decode: unknown tag")

/-! ## Hashing -/

/-- Slot `i`, none past the last. -/
def slot (ch : Children) (i : ℕ) : Option Child := if h : i < 16 then ch ⟨i, h⟩ else none

/-- The children in `width` slots from `start`. -/
def present (ch : Children) (start width : ℕ) : List Child :=
  (List.range width).filterMap (fun i => slot ch (start + i))

/-- The children in `width` slots from `start`, with their slots. -/
def presentAt (ch : Children) (start width : ℕ) : List (ℕ × Child) :=
  (List.range width).filterMap (fun i => (slot ch (start + i)).map (fun c => (start + i, c)))

variable (C : Crypto)

/-- The binary Merkle fold over `2 ^ lvl` child slots from `start` (the source passes the width):
an empty range is the placeholder, a single slot its child's hash, a range whose only child is a leaf
that leaf's hash, any other the hash of its two halves. -/
def subtreeHash (ch : Children) : ℕ → ℕ → Hash
  | start, 0 =>
    match slot ch start with
    | none => placeholderHash C
    | some c => c.hash
  | start, lvl + 1 =>
    match present ch start (2 ^ (lvl + 1)) with
    | [] => placeholderHash C
    | [c] =>
      if c.isLeaf then c.hash
      else internalHash C (subtreeHash ch start lvl) (subtreeHash ch (start + 2 ^ lvl) lvl)
    | _ => internalHash C (subtreeHash ch start lvl) (subtreeHash ch (start + 2 ^ lvl) lvl)

/-- The node hash inputs `subtreeHash` computes. -/
def subtreeInputs (ch : Children) : ℕ → ℕ → List (Input Hash Hash Hash)
  | _, 0 => []
  | start, lvl + 1 =>
    match present ch start (2 ^ (lvl + 1)) with
    | [] => []
    | [c] =>
      if c.isLeaf then []
      else .node (subtreeHash C ch start lvl) (subtreeHash C ch (start + 2 ^ lvl) lvl) ::
        (subtreeInputs ch start lvl ++ subtreeInputs ch (start + 2 ^ lvl) lvl)
    | _ => .node (subtreeHash C ch start lvl) (subtreeHash C ch (start + 2 ^ lvl) lvl) ::
        (subtreeInputs ch start lvl ++ subtreeInputs ch (start + 2 ^ lvl) lvl)

/-- A node's hash, as committed by its parent or the root. -/
def Node.hash : Node → Hash
  | .leaf l => leafHash C l.path l.vh
  | .internal ch => subtreeHash C ch 0 4

/-- The inputs hashed for a node. -/
def Node.inputs : Node → List (Input Hash Hash Hash)
  | .leaf l => [.leaf l.path l.vh]
  | .internal ch => subtreeInputs C ch 0 4

theorem slot_map {γ : Type} (g : Child → γ) {ch ch' : Children} (h : ∀ i, (ch i).map g = (ch' i).map g) (i : ℕ) :
    (slot ch i).map g = (slot ch' i).map g := by
  unfold slot
  split
  · exact h _
  · rfl

theorem present_map {γ : Type} (g : Child → γ) {ch ch' : Children} (h : ∀ i, (ch i).map g = (ch' i).map g)
    (start width : ℕ) : (present ch start width).map g = (present ch' start width).map g := by
  unfold present
  rw [List.map_filterMap, List.map_filterMap]
  congr 1
  funext i
  exact slot_map g h _

/-- A node's hash reads only the hashes and kinds of its children. -/
theorem subtreeHash_congr {ch ch' : Children}
    (h : ∀ i, (ch i).map (fun c => (c.hash, c.isLeaf)) = (ch' i).map (fun c => (c.hash, c.isLeaf))) :
    ∀ lvl start, subtreeHash C ch start lvl = subtreeHash C ch' start lvl := by
  intro lvl
  induction lvl with
  | zero =>
    intro start
    have hs := slot_map _ h start
    unfold subtreeHash
    generalize slot ch start = c at hs ⊢
    generalize slot ch' start = c' at hs ⊢
    cases c <;> cases c' <;> simp at hs
    · rfl
    · exact hs.1
  | succ lvl ih =>
    intro start
    have hp := present_map _ h start (2 ^ (lvl + 1))
    unfold subtreeHash
    rw [ih start, ih (start + 2 ^ lvl)]
    generalize present ch start (2 ^ (lvl + 1)) = P at hp ⊢
    generalize present ch' start (2 ^ (lvl + 1)) = P' at hp ⊢
    rcases P with _ | ⟨c, _ | ⟨d, l⟩⟩ <;> rcases P' with _ | ⟨c', _ | ⟨d', l'⟩⟩ <;> simp at hp
    · rfl
    · simp only [hp.1, hp.2]
    · rfl

variable {ch : Children}

theorem mem_presentAt {start width i : ℕ} {c : Child} :
    (i, c) ∈ presentAt ch start width ↔ start ≤ i ∧ i < start + width ∧ slot ch i = some c := by
  unfold presentAt
  rw [List.mem_filterMap]
  constructor
  · rintro ⟨k, hk, h⟩
    rw [Option.map_eq_some_iff] at h
    obtain ⟨d, hd, he⟩ := h
    cases he
    have := List.mem_range.1 hk
    exact ⟨by omega, by omega, hd⟩
  · rintro ⟨h1, h2, h3⟩
    refine ⟨i - start, List.mem_range.2 (by omega), ?_⟩
    rw [show start + (i - start) = i by omega, h3]; rfl

theorem presentAt_pairwise (ch : Children) (start width : ℕ) :
    (presentAt ch start width).Pairwise fun a b => a.1 < b.1 := by
  unfold presentAt
  rw [List.pairwise_filterMap]
  refine List.pairwise_lt_range.imp fun {a b} hab x hx y hy => ?_
  rw [Option.map_eq_some_iff] at hx hy
  obtain ⟨_, -, rfl⟩ := hx
  obtain ⟨_, -, rfl⟩ := hy
  exact Nat.add_lt_add_left hab start

theorem present_eq (ch : Children) (start width : ℕ) :
    present ch start width = (presentAt ch start width).map Prod.snd := by
  unfold present presentAt
  rw [List.map_filterMap]
  congr 1
  funext i
  cases slot ch (start + i) <;> rfl

/-! ## The node key code -/

theorem packNibbles_inj : ∀ {a b : List Nib}, a.length = b.length → packNibbles a = packNibbles b → a = b
  | [], [], _, _ => rfl
  | [], _ :: _, h, _ => by simp at h
  | _ :: _, [], h, _ => by simp at h
  | [x], [y], _, h => by
    simp only [packNibbles, List.cons.injEq, and_true] at h
    have := congrArg UInt8.toNat h
    simp only [UInt8.toNat_shiftLeft, UInt8.toNat_ofNat', Nat.shiftLeft_eq] at this
    congr 1
    apply Fin.ext
    have h1 := x.isLt
    have h2 := y.isLt
    simp at this
    omega
  | [_], _ :: _ :: _, h, _ => by simp at h
  | _ :: _ :: _, [_], h, _ => by simp at h
  | x :: x' :: a, y :: y' :: b, hl, h => by
    simp only [packNibbles, List.cons.injEq] at h
    obtain ⟨h1, h2⟩ := h
    rw [packNibbles_inj (by simpa using hl) h2]
    have hb : ∀ x y : Nib, (UInt8.ofNat x.val <<< 4 ||| UInt8.ofNat y.val).toNat = 16 * x.val + y.val := by
      decide
    have := congrArg UInt8.toNat h1
    rw [hb, hb] at this
    have e1 : x = y := Fin.ext (by omega)
    have e2 : x' = y' := Fin.ext (by omega)
    rw [e1, e2]

theorem length_packNibbles : ∀ l : List Nib, (packNibbles l).length = (l.length + 1) / 2
  | [] => by simp [packNibbles]
  | [_] => by simp [packNibbles]
  | _ :: _ :: l => by
    rw [packNibbles, List.length_cons, length_packNibbles l, List.length_cons, List.length_cons]
    omega

/-- The count wraps at 256 nibbles, but the packed nibbles give the depth up to its parity. -/
theorem NodeKey.encode_inj {a b : NodeKey} (h : a.encode = b.encode) : a = b := by
  unfold NodeKey.encode at h
  rw [List.append_assoc, List.append_assoc] at h
  obtain ⟨h1, h2⟩ := List.append_inj h (by simp)
  simp only [List.singleton_append, List.cons.injEq] at h2
  have hl : a.pfx.length = b.pfx.length := by
    have hcount := congrArg UInt8.toNat h2.1
    have hpacked := congrArg List.length h2.2
    simp only [UInt8.toNat_ofNat', length_packNibbles] at hcount hpacked
    omega
  exact NodeKey.ext (Bytes.u64_inj h1) (packNibbles_inj hl h2.2)

/-! ## The node code -/

theorem Child.length_encode (c : Child) : c.encode.length = 41 := by
  simp [Child.encode, c.hash.size]

theorem testBit_foldl_bitmap (ch : Children) (j : ℕ) : ∀ (l : List Nib) (m : ℕ),
    (l.foldl (fun m i => if (ch i).isSome then m ||| 1 <<< i.val else m) m).testBit j =
      (m.testBit j || l.any (fun i => (ch i).isSome && decide (i.val = j))) := by
  intro l
  induction l with
  | nil => intro m; simp
  | cons i l ih =>
    intro m
    rw [List.foldl_cons, ih, List.any_cons]
    cases hi : (ch i).isSome
    · simp
    · simp only [if_true, Nat.testBit_or, Bool.true_and]
      rw [Nat.one_shiftLeft, Nat.testBit_two_pow, Bool.or_assoc]

theorem testBit_bitmap (ch : Children) (i : Nib) : (bitmap ch).testBit i.val = (ch i).isSome := by
  unfold bitmap
  rw [testBit_foldl_bitmap]
  simp only [Nat.zero_testBit, Bool.false_or]
  cases hi : (ch i).isSome
  · rw [List.any_eq_false]
    intro x _
    by_cases hx : x = i
    · subst hx; simp [hi]
    · simp [Fin.val_inj, hx]
  · rw [List.any_eq_true]
    exact ⟨i, List.mem_finRange i, by simp [hi]⟩

theorem bitmap_lt (ch : Children) : bitmap ch < 2 ^ 16 := by
  apply Nat.lt_pow_two_of_testBit
  intro j hj
  unfold bitmap
  rw [testBit_foldl_bitmap]
  simp only [Nat.zero_testBit, Bool.false_or, List.any_eq_false]
  intro i _
  have := i.isLt
  simp; omega

theorem length_encodeChildren (ch : Children) (is : List Nib) :
    (encodeChildren ch is).length = is.countP (fun i => (ch i).isSome) * 41 := by
  induction is with
  | nil => rfl
  | cons i is ih =>
    unfold encodeChildren at *
    rw [List.flatMap_cons, List.length_append, ih]
    cases h : ch i with
    | none => simp [h]
    | some c => simp [h, Child.length_encode]; omega

/-- Decoding the child section restores the children of the slots it covers. -/
theorem decodeChildren_encode (ch : Children) : ∀ (is : List Nib), is.Nodup →
    decodeChildren (bitmap ch) is (encodeChildren ch is) = .ok (fun i => if i ∈ is then ch i else none) := by
  intro is
  induction is with
  | nil => intro _; rfl
  | cons i is ih =>
    intro hn
    rw [List.nodup_cons] at hn
    have hrest := ih hn.2
    unfold encodeChildren at *
    cases h : ch i with
    | none =>
      rw [decodeChildren, List.flatMap_cons, h]
      rw [if_neg (by rw [testBit_bitmap, h]; simp), List.nil_append, hrest]
      congr 1
      funext j
      by_cases hj : j = i
      · subst hj; simp [hn.1, h]
      · simp [hj]
    | some c =>
      rw [decodeChildren, List.flatMap_cons, h]
      rw [if_pos (by rw [testBit_bitmap, h]; rfl)]
      have h8 : (Bytes.u64 c.version).length = 8 := Bytes.length_u64 _
      have h32 := c.hash.size
      set rest := is.flatMap (fun i => match ch i with | none => [] | some c => c.encode) with hrest'
      have e1 : (c.encode ++ rest).take 8 = Bytes.u64 c.version := by
        simp only [Child.encode, List.append_assoc]; exact List.take_left' h8
      have e2 : ((c.encode ++ rest).drop 8).take 32 = c.hash.bytes := by
        simp only [Child.encode, List.append_assoc]
        rw [List.drop_left' h8]; exact List.take_left' h32
      have e3 : (c.encode ++ rest).getD 40 0 = if c.isLeaf then 1 else 0 := by
        simp only [Child.encode, List.append_assoc]
        rw [List.getD_append_right _ _ _ _ (by omega), List.getD_append_right _ _ _ _ (by omega)]
        simp [h32]
      have e4 : (c.encode ++ rest).drop 41 = rest := List.drop_left' c.length_encode
      simp only [e1, e2, e3, e4, Bytes.toU64_u64, Hash.ofBytes_bytes, hrest]
      have hfun : ∀ b, c.isLeaf = b → Function.update (fun j => if j ∈ is then ch j else none) i
          (some ⟨c.version, c.hash, b⟩) = fun j => if j ∈ i :: is then ch j else none := by
        rintro b rfl
        funext j
        by_cases hj : j = i
        · subst hj; simp [h]
        · simp [hj]
      cases hl : c.isLeaf
      · simp only [Bool.false_eq_true, if_false, if_true]
        exact congrArg Except.ok (hfun false hl)
      · simp only [if_true, show ¬ ((1 : UInt8) = 0) by decide, if_false]
        exact congrArg Except.ok (hfun true hl)

/-- Nodes the codec can represent: an internal node has a child. -/
def Node.Ok : Node → Prop
  | .leaf _ => True
  | .internal ch => ∃ i, (ch i).isSome

/-- An internal record: the bitmap, its child count, the length, then the children. -/
theorem decodeNode_internal (b0 b1 : UInt8) (rest : Bytes) {bm : ℕ} (hbm : b0.toNat + 256 * b1.toNat = bm)
    (hc : (List.finRange 16).countP (fun i => bm.testBit i.val) ≠ 0)
    (hl : rest.length = (List.finRange 16).countP (fun i => bm.testBit i.val) * 41) :
    decodeNode (nodeTagInternal :: b0 :: b1 :: rest) =
      (decodeChildren bm (List.finRange 16) rest).map Node.internal := by
  subst hbm
  unfold decodeNode
  have e0 : (b0 :: b1 :: rest).getD 0 0 = b0 := rfl
  have e1 : (b0 :: b1 :: rest).getD 1 0 = b1 := rfl
  have e2 : (b0 :: b1 :: rest).drop 2 = rest := rfl
  dsimp only
  rw [e0, e1, e2]
  rw [if_neg (by decide), if_pos rfl, if_neg (by simp), if_neg hc,
    if_neg (by rw [List.length_cons, List.length_cons, List.length_cons, hl]; unfold hashSize; omega)]
  cases decodeChildren _ _ rest <;> rfl

/-- **Decoding undoes encoding.** -/
theorem decodeNode_encode {n : Node} (hn : n.Ok) : decodeNode n.encode = .ok n := by
  cases n with
  | leaf l =>
    have h1 := l.path.size
    have h2 := l.vh.size
    unfold Node.encode decodeNode
    simp only [if_true]
    rw [if_neg (by simp [h1, h2, hashSize])]
    rw [List.append_assoc, List.take_left' h1, List.drop_left' h1, List.take_left' h2,
      ← List.append_assoc, List.drop_left' (by simp [h1, h2])]
    simp
  | internal ch =>
    have hbm := bitmap_lt ch
    have hcount : (List.finRange 16).countP (fun i => (bitmap ch).testBit i.val) =
        (List.finRange 16).countP (fun i => (ch i).isSome) := by
      congr 1; funext i; exact testBit_bitmap ch i
    rw [Node.encode, @decodeNode_internal _ _ _ (bitmap ch)]
    · rw [decodeChildren_encode ch (List.finRange 16) (List.nodup_finRange 16)]
      simp [Except.map]
    · simp only [UInt8.toNat_ofNat']; omega
    · rw [hcount, Ne, List.countP_eq_zero]
      obtain ⟨i, hi⟩ := hn
      intro h
      exact h i (List.mem_finRange i) hi
    · rw [hcount, length_encodeChildren]

/-! ## Accepted records -/

/-- An entry of 41 bytes with a valid flag is the encoding of the child read from it. -/
theorem Child.encode_of_entry {data : Bytes} (hlen : 41 ≤ data.length) {b : Bool}
    (hflag : data.getD 40 0 = if b then 1 else 0) :
    (⟨Bytes.toU64 (data.take 8), Hash.ofBytes ((data.drop 8).take 32), b⟩ : Child).encode = data.take 41 := by
  have h8 : (data.take 8).length = 8 := by
    rw [List.length_take]
    omega
  have h32 : ((data.drop 8).take 32).length = 32 := by
    rw [List.length_take, List.length_drop]
    omega
  have h40 : data.getD 40 0 = data[40] := List.getD_eq_getElem data 0 (by omega)
  unfold Child.encode
  rw [Bytes.u64_toU64 h8, Hash.bytes_ofBytes h32, ← hflag, h40, ← List.take_add, List.take_append_getElem]

/-- The entry of one child, and what follows it. -/
theorem decodeChildren_cons_ok {bm : ℕ} {i : Nib} {is : List Nib} {data : Bytes}
    (hbit : bm.testBit i.val = true) (hlen : 41 ≤ data.length) (h : decodeChildren bm (i :: is) data = .ok ch) :
    ∃ (c : Child) (rest : Children), c.encode = data.take 41 ∧
      decodeChildren bm is (data.drop 41) = .ok rest ∧ ch = Function.update rest i (some c) := by
  rw [decodeChildren, if_pos hbit] at h
  dsimp only at h
  split at h
  · rename_i hflag
    cases hrest : decodeChildren bm is (data.drop 41) with
    | error e => rw [hrest] at h; cases h
    | ok rest =>
      rw [hrest] at h
      cases h
      exact ⟨_, rest, Child.encode_of_entry hlen (by rw [hflag]; rfl), rfl, rfl⟩
  · split at h
    · rename_i hflag
      cases hrest : decodeChildren bm is (data.drop 41) with
      | error e => rw [hrest] at h; cases h
      | ok rest =>
        rw [hrest] at h
        cases h
        exact ⟨_, rest, Child.encode_of_entry hlen (by rw [hflag]; rfl), rfl, rfl⟩
    · cases h

theorem encodeChildren_cons (ch : Children) (i : Nib) (is : List Nib) :
    encodeChildren ch (i :: is) = ((ch i).elim [] Child.encode) ++ encodeChildren ch is := by
  unfold encodeChildren
  rw [List.flatMap_cons]
  cases ch i <;> rfl

theorem encodeChildren_update {i : Nib} {is : List Nib} (hi : i ∉ is) (c : Option Child) :
    encodeChildren (Function.update ch i c) is = encodeChildren ch is := by
  unfold encodeChildren
  refine List.flatMap_congr fun j hj => ?_
  have hji : j ≠ i := fun h => hi (h ▸ hj)
  rw [Function.update_of_ne hji]

/-- A child section of the right length encodes the children read from it, which sit in the slots of the bitmap. -/
theorem encode_of_decodeChildren (bm : ℕ) : ∀ {is : List Nib} {data : Bytes} {ch : Children}, is.Nodup →
    data.length = is.countP (fun i => bm.testBit i.val) * 41 → decodeChildren bm is data = .ok ch →
    encodeChildren ch is = data ∧ ∀ i, (ch i).isSome = (decide (i ∈ is) && bm.testBit i.val) := by
  intro is
  induction is with
  | nil =>
    intro data ch _ hlen h
    cases h
    have hdata : data = [] := List.eq_nil_of_length_eq_zero (by simpa using hlen)
    exact ⟨hdata.symm, fun i => by simp⟩
  | cons i is ih =>
    intro data ch hn hlen h
    obtain ⟨hi, hn⟩ := List.nodup_cons.1 hn
    by_cases hbit : bm.testBit i.val = true
    · rw [List.countP_cons, if_pos hbit] at hlen
      obtain ⟨c, rest, hc, hrest, rfl⟩ := decodeChildren_cons_ok hbit (by omega) h
      obtain ⟨henc, hsome⟩ := ih hn (by rw [List.length_drop]; omega) hrest
      refine ⟨?_, fun j => ?_⟩
      · rw [encodeChildren_cons, encodeChildren_update hi, Function.update_self, henc, Option.elim_some, hc,
          List.take_append_drop]
      · by_cases hj : j = i
        · subst hj
          simp [hbit]
        · rw [Function.update_of_ne hj, hsome j]
          simp [hj]
    · rw [decodeChildren, if_neg hbit] at h
      rw [List.countP_cons, if_neg hbit] at hlen
      obtain ⟨henc, hsome⟩ := ih hn hlen h
      have hnone : ch i = none := by
        have := hsome i
        simp only [hi, decide_false, Bool.false_and, Option.isSome_eq_false_iff, Option.isNone_iff_eq_none] at this
        exact this
      refine ⟨by rw [encodeChildren_cons, hnone, henc]; rfl, fun j => ?_⟩
      rw [hsome j]
      by_cases hj : j = i
      · subst hj
        simp [hi, hbit]
      · simp [hj]

/-- The bitmap of the children in the slots of `bm`. -/
theorem bitmap_eq {bm : ℕ} (hbm : bm < 2 ^ 16) (h : ∀ i, (ch i).isSome = bm.testBit i.val) :
    bitmap ch = bm := by
  apply Nat.eq_of_testBit_eq
  intro j
  by_cases hj : j < 16
  · rw [← h ⟨j, hj⟩]
    exact testBit_bitmap ch ⟨j, hj⟩
  · have hpow : 2 ^ 16 ≤ 2 ^ j := Nat.pow_le_pow_right (by decide) (by omega)
    have hlt := bitmap_lt ch
    rw [Nat.testBit_lt_two_pow (by omega), Nat.testBit_lt_two_pow (by omega)]

theorem decodeNode_leaf_ok {body : Bytes} {n : Node} (h : decodeNode (nodeTagLeaf :: body) = .ok n) :
    body.length = 72 ∧ n = .leaf ⟨Hash.ofBytes (body.take 32), Hash.ofBytes ((body.drop 32).take 32),
      Bytes.toU64 (body.drop 64)⟩ := by
  unfold decodeNode at h
  dsimp only at h
  rw [if_pos rfl] at h
  split at h
  · cases h
  · rename_i hlen
    cases h
    simp only [List.length_cons, hashSize, not_not] at hlen
    exact ⟨by omega, rfl⟩

theorem decodeNode_internal_ok {body : Bytes} {n : Node} (h : decodeNode (nodeTagInternal :: body) = .ok n) :
    ∃ (b0 b1 : UInt8) (rest : Bytes) (ch : Children), body = b0 :: b1 :: rest ∧ n = .internal ch ∧
      (List.finRange 16).countP (fun i => (b0.toNat + 256 * b1.toNat).testBit i.val) ≠ 0 ∧
      rest.length = (List.finRange 16).countP (fun i => (b0.toNat + 256 * b1.toNat).testBit i.val) * 41 ∧
      decodeChildren (b0.toNat + 256 * b1.toNat) (List.finRange 16) rest = .ok ch := by
  rcases body with _ | ⟨b0, _ | ⟨b1, rest⟩⟩
  · cases h
  · cases h
  · unfold decodeNode at h
    dsimp only at h
    rw [if_neg (by decide), if_pos rfl, if_neg (by simp)] at h
    split at h
    · cases h
    · rename_i hcount
      split at h
      · cases h
      · rename_i hlen
        simp only [List.length_cons, hashSize, not_not] at hlen
        have hrest : rest.length =
            (List.finRange 16).countP (fun i => (b0.toNat + 256 * b1.toNat).testBit i.val) * 41 := by
          simp only [List.getD_cons_zero, List.getD_cons_succ] at hlen
          omega
        cases hch : decodeChildren (b0.toNat + 256 * b1.toNat) (List.finRange 16) rest with
        | error e =>
          change (decodeChildren (b0.toNat + 256 * b1.toNat) (List.finRange 16) rest >>= _) = _ at h
          rw [hch] at h
          cases h
        | ok ch =>
          change (decodeChildren (b0.toNat + 256 * b1.toNat) (List.finRange 16) rest >>= _) = _ at h
          rw [hch] at h
          cases h
          exact ⟨b0, b1, rest, ch, rfl, rfl, hcount, hrest, hch⟩

/-- **An accepted record is the encoding of the node read from it.** -/
theorem encode_of_decodeNode {data : Bytes} {n : Node} (h : decodeNode data = .ok n) : n.Ok ∧ n.encode = data := by
  cases data with
  | nil => cases h
  | cons tag body =>
    by_cases hleaf : tag = nodeTagLeaf
    · subst hleaf
      obtain ⟨hlen, rfl⟩ := decodeNode_leaf_ok h
      refine ⟨trivial, ?_⟩
      have hpath : (body.take 32).length = 32 := by rw [List.length_take]; omega
      have hvh : ((body.drop 32).take 32).length = 32 := by rw [List.length_take, List.length_drop]; omega
      have hversion : (body.drop 64).length = 8 := by rw [List.length_drop]; omega
      rw [Node.encode, Hash.bytes_ofBytes hpath, Hash.bytes_ofBytes hvh, Bytes.u64_toU64 hversion, ← List.take_add,
        List.take_append_drop]
    · by_cases hint : tag = nodeTagInternal
      · subst hint
        obtain ⟨b0, b1, rest, ch, rfl, rfl, hcount, hlen, hch⟩ := decodeNode_internal_ok h
        have h0 := b0.toNat_lt
        have h1 := b1.toNat_lt
        obtain ⟨henc, hsome⟩ := encode_of_decodeChildren _ (List.nodup_finRange 16) hlen hch
        have hbm : bitmap ch = b0.toNat + 256 * b1.toNat :=
          bitmap_eq (by omega) fun i => by rw [hsome i]; simp
        have e0 : UInt8.ofNat (bitmap ch) = b0 := by
          apply UInt8.toNat_inj.1
          rw [UInt8.toNat_ofNat', hbm]
          omega
        have e1 : UInt8.ofNat (bitmap ch / 256) = b1 := by
          apply UInt8.toNat_inj.1
          rw [UInt8.toNat_ofNat', hbm]
          omega
        refine ⟨?_, by rw [Node.encode, e0, e1, henc]⟩
        obtain ⟨i, -, hi⟩ := List.countP_pos_iff.1 (Nat.pos_of_ne_zero hcount)
        exact ⟨i, by rw [hsome i]; simpa using hi⟩
      · unfold decodeNode at h
        dsimp only at h
        rw [if_neg hleaf, if_neg hint] at h
        cases h

theorem nodeCodec : ExactCodec Node.encode decodeNode Node.Ok where
  decode_encode := decodeNode_encode
  sound := encode_of_decodeNode

end ImmutableLedger
