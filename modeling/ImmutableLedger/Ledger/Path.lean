import Mathlib.Data.List.GetD
import Mathlib.Data.Nat.Bitwise
import ImmutableLedger.Ledger.Hash

/-!
# Tree paths

The nibbles (`nibble`, `node.go`) and bits (`bitAt`, `commonPrefixBits`, `proof.go`) of a 256-bit path.

* `nibble_ext`, `bitAt_ext`: a path is determined by its 64 nibbles, and by its 256 bits.
* `bitAt_nibble`: the bits of nibble `d` are bits `4d .. 4d + 3`.
* `nibble_le_of_lt`: among paths that agree on their first `d` nibbles, byte order orders nibble `d`.
-/

namespace ImmutableLedger

/-- The total nibble count of a full path (256 bits, 4 bits each). -/
def nibbles : ℕ := 64

/-- A nibble value. -/
abbrev Nib := Fin 16

instance (priority := 2000) nibNeZero : NeZero 16 := ⟨by decide⟩

/-- Nibble `i` of a path, most significant first. The source indexes past the path for `i ≥ 64`;
callers guard on that. -/
def nibble (path : Hash) (i : ℕ) : Nib :=
  let b := path.bytes.getD (i / 2) 0
  if i % 2 = 0 then Fin.ofNat 16 (b >>> 4).toNat else Fin.ofNat 16 (b &&& 0x0F).toNat

/-- Bit `i` of a path, most significant first. -/
def bitAt (path : Hash) (i : ℕ) : Bool := path.bytes.getD (i / 8) 0 &&& (0x80 >>> UInt8.ofNat (i % 8)) != 0

/-- The leading bits shared by two bytes whose exclusive or is `x`: the shift loop of
`commonPrefixBits`, at most 8 rounds. -/
def leadingZeros : ℕ → UInt8 → ℕ
  | 0, _ => 0
  | fuel + 1, x => if x &&& 0x80 = 0 then leadingZeros fuel (x <<< 1) + 1 else 0

/-- The leading bits shared by two byte strings. -/
def commonPrefixBytes : Bytes → Bytes → ℕ
  | a :: as, b :: bs => if a ^^^ b ≠ 0 then leadingZeros 8 (a ^^^ b) else 8 + commonPrefixBytes as bs
  | _, _ => 0

/-- The leading bits shared by two paths. -/
def commonPrefixBits (a b : Hash) : ℕ := commonPrefixBytes a.bytes b.bytes

/-! ## Nibbles -/

theorem byte_hi (b : UInt8) : (b >>> 4).toNat = b.toNat / 16 := by
  simp [UInt8.toNat_shiftRight, Nat.shiftRight_eq_div_pow]

theorem byte_lo (b : UInt8) : (b &&& 0x0F).toNat = b.toNat % 16 := by
  rw [UInt8.toNat_and]
  exact Nat.and_two_pow_sub_one_eq_mod b.toNat 4

theorem nibble_even (p : Hash) (i : ℕ) : (nibble p (2 * i)).val = (p.bytes.getD i 0).toNat / 16 := by
  have := (p.bytes.getD i 0).toNat_lt
  unfold nibble
  simp only [Nat.mul_mod_right, if_true, Nat.mul_div_cancel_left i (by omega : 0 < 2), byte_hi,
    Fin.val_ofNat]
  omega

theorem nibble_odd (p : Hash) (i : ℕ) : (nibble p (2 * i + 1)).val = (p.bytes.getD i 0).toNat % 16 := by
  unfold nibble
  rw [show (2 * i + 1) / 2 = i by omega, show (2 * i + 1) % 2 = 1 by omega]
  simp only [Nat.one_ne_zero, if_false, byte_lo, Fin.val_ofNat]
  omega

variable {p q : Hash}

/-- Two equal nibbles make equal bytes. -/
theorem byte_eq_of_nibble {i : ℕ} (h0 : nibble p (2 * i) = nibble q (2 * i))
    (h1 : nibble p (2 * i + 1) = nibble q (2 * i + 1)) : p.bytes.getD i 0 = q.bytes.getD i 0 := by
  have e0 := congrArg Fin.val h0
  have e1 := congrArg Fin.val h1
  rw [nibble_even, nibble_even] at e0
  rw [nibble_odd, nibble_odd] at e1
  apply UInt8.toNat_inj.1
  omega

theorem hash_ext_getD (h : ∀ i < 32, p.bytes.getD i 0 = q.bytes.getD i 0) : p = q := by
  apply Hash.ext
  apply List.ext_getElem (by rw [p.size, q.size])
  intro i h1 h2
  have := h i (by rw [← p.size]; exact h1)
  rwa [List.getD_eq_getElem _ _ h1, List.getD_eq_getElem _ _ h2] at this

/-- **A path is its 64 nibbles.** -/
theorem nibble_ext (h : ∀ i < 64, nibble p i = nibble q i) : p = q :=
  hash_ext_getD fun i hi => byte_eq_of_nibble (h _ (by omega)) (h _ (by omega))

/-- **Byte order orders the next nibble**: for paths that agree on their first `d` nibbles. -/
theorem nibble_le_of_lt (hpq : p < q) {d : ℕ} (hd : d < 64)
    (h : ∀ i < d, nibble p i = nibble q i) : nibble p d ≤ nibble q d := by
  rw [Hash.lt_iff, List.lt_iff_exists] at hpq
  rcases hpq with ⟨h1, h2⟩ | ⟨i, h1, h2, h3, h4⟩
  · rw [p.size, q.size] at h2; omega
  have hb : (p.bytes.getD i 0).toNat < (q.bytes.getD i 0).toNat := by
    rw [List.getD_eq_getElem _ _ h1, List.getD_eq_getElem _ _ h2]
    exact UInt8.lt_iff_toNat_lt.1 h4
  have heq : ∀ j < i, p.bytes.getD j 0 = q.bytes.getD j 0 := by
    intro j hj
    rw [List.getD_eq_getElem _ _ (by omega), List.getD_eq_getElem _ _ (by omega)]
    exact h3 j hj
  rw [Fin.le_def]
  obtain ⟨e, rfl | rfl⟩ : ∃ e, d = 2 * e ∨ d = 2 * e + 1 := ⟨d / 2, by omega⟩
  · rw [nibble_even, nibble_even]
    rcases lt_trichotomy e i with hei | hei | hei
    · rw [heq e hei]
    · subst hei; omega
    · have := byte_eq_of_nibble (h (2 * i) (by omega)) (h (2 * i + 1) (by omega))
      rw [this] at hb; omega
  · rw [nibble_odd, nibble_odd]
    rcases lt_trichotomy e i with hei | hei | hei
    · rw [heq e hei]
    · subst hei
      -- the high nibbles agree, so the bytes compare by their low nibbles
      have e0 := congrArg Fin.val (h (2 * e) (by omega))
      rw [nibble_even, nibble_even] at e0
      omega
    · have := byte_eq_of_nibble (h (2 * i) (by omega)) (h (2 * i + 1) (by omega))
      rw [this] at hb; omega

/-! ## Bits -/

theorem byte_bit (b : UInt8) {j : ℕ} (hj : j < 8) :
    (b &&& (0x80 >>> UInt8.ofNat j) != 0) = b.toNat.testBit (7 - j) := by
  have hmask : (0x80 >>> UInt8.ofNat j : UInt8).toNat = 2 ^ (7 - j) := by
    interval_cases j <;> rfl
  have key : (b &&& (0x80 >>> UInt8.ofNat j) = 0) ↔ b.toNat.testBit (7 - j) = false := by
    rw [← UInt8.toNat_inj, UInt8.toNat_and, hmask, Nat.and_two_pow]
    simp
  cases hb : b.toNat.testBit (7 - j)
  · rw [hb] at key; simpa using key.2 rfl
  · rw [hb] at key; simpa using key

theorem bitAt_byte (p : Hash) (i : ℕ) : bitAt p i = (p.bytes.getD (i / 8) 0).toNat.testBit (7 - i % 8) :=
  byte_bit _ (Nat.mod_lt _ (by omega))

/-- **The bits of nibble `d` are bits `4d .. 4d + 3` of the path.** -/
theorem bitAt_nibble (p : Hash) (d : ℕ) {j : ℕ} (hj : j < 4) :
    bitAt p (4 * d + j) = (nibble p d).val.testBit (3 - j) := by
  rw [bitAt_byte]
  obtain ⟨e, rfl | rfl⟩ : ∃ e, d = 2 * e ∨ d = 2 * e + 1 := ⟨d / 2, by omega⟩
  · rw [nibble_even, show (4 * (2 * e) + j) / 8 = e by omega, show (4 * (2 * e) + j) % 8 = j by omega,
      show (16 : ℕ) = 2 ^ 4 by rfl, Nat.testBit_div_two_pow]
    congr 1; omega
  · rw [nibble_odd, show (4 * (2 * e + 1) + j) / 8 = e by omega,
      show (4 * (2 * e + 1) + j) % 8 = 4 + j by omega, show (16 : ℕ) = 2 ^ 4 by rfl, Nat.testBit_mod_two_pow]
    rw [show 7 - (4 + j) = 3 - j by omega]
    simp; omega

/-- A nibble is its four bits. -/
theorem nib_ext {a b : Nib} (h : ∀ j < 4, a.val.testBit j = b.val.testBit j) : a = b := by
  apply Fin.ext
  apply Nat.eq_of_testBit_eq
  intro i
  by_cases hi : i < 4
  · exact h i hi
  · have hp : 2 ^ 4 ≤ 2 ^ i := Nat.pow_le_pow_right (by omega) (by omega)
    rw [Nat.testBit_lt_two_pow (lt_of_lt_of_le a.isLt hp), Nat.testBit_lt_two_pow (lt_of_lt_of_le b.isLt hp)]

/-- Paths agree on nibble `d` exactly when they agree on its four bits. -/
theorem nibble_eq_iff_bits {d : ℕ} :
    nibble p d = nibble q d ↔ ∀ j < 4, bitAt p (4 * d + j) = bitAt q (4 * d + j) := by
  constructor
  · intro h j hj; rw [bitAt_nibble p d hj, bitAt_nibble q d hj, h]
  · intro h
    apply nib_ext
    intro j hj
    have := h (3 - j) (by omega)
    rw [bitAt_nibble p d (by omega), bitAt_nibble q d (by omega)] at this
    rwa [show 3 - (3 - j) = j by omega] at this

/-- **A path is its 256 bits.** -/
theorem bitAt_ext (h : ∀ i < 256, bitAt p i = bitAt q i) : p = q :=
  nibble_ext fun _ hi => nibble_eq_iff_bits.2 fun _ hj => h _ (by omega)

/-! ## Shared leading bits -/

/-- The shift loop counts the leading zero bits, at least. -/
theorem le_leadingZeros : ∀ {fuel k : ℕ} {x : UInt8}, k ≤ fuel → k ≤ 8 →
    (∀ i < k, x.toNat.testBit (7 - i) = false) → k ≤ leadingZeros fuel x := by
  intro fuel
  induction fuel with
  | zero => intro k x hk _ _; omega
  | succ fuel ih =>
    intro k x hk hk8 hx
    cases k with
    | zero => exact Nat.zero_le _
    | succ k =>
      have htop : x &&& 0x80 = 0 := by
        have hb := byte_bit x (show 0 < 8 by omega)
        rw [hx 0 (by omega)] at hb
        simpa using hb
      rw [leadingZeros, if_pos htop]
      refine Nat.succ_le_succ (ih (by omega) (by omega) fun i hi => ?_)
      have hshift : (x <<< 1).toNat = 2 * x.toNat % 2 ^ 8 := by
        rw [UInt8.toNat_shiftLeft, Nat.shiftLeft_eq]
        simp [Nat.mul_comm]
      have hbit := hx (i + 1) (by omega)
      rw [hshift, Nat.testBit_mod_two_pow, show 7 - i = (7 - (i + 1)) + 1 by omega, Nat.testBit_succ,
        Nat.mul_div_cancel_left _ (by omega : 0 < 2), hbit, Bool.and_false]

/-- Byte strings that agree on their first `k` bits share them. -/
theorem le_commonPrefixBytes : ∀ {a b : Bytes} {k : ℕ}, k ≤ 8 * a.length → a.length = b.length →
    (∀ i < k, (a.getD (i / 8) 0).toNat.testBit (7 - i % 8) = (b.getD (i / 8) 0).toNat.testBit (7 - i % 8)) →
    k ≤ commonPrefixBytes a b := by
  intro a
  induction a with
  | nil => intro b k hk _ _; exact le_trans hk (Nat.zero_le _)
  | cons x a ih =>
    intro b k hk hlen hbits
    rcases b with _ | ⟨y, b⟩
    · simp at hlen
    rw [commonPrefixBytes]
    -- the first byte decides unless the two are equal
    have hfirst : ∀ i < min k 8, (x ^^^ y).toNat.testBit (7 - i) = false := by
      intro i hi
      have h := hbits i (by omega)
      rw [show i / 8 = 0 by omega, show i % 8 = i by omega] at h
      simp only [List.getD_cons_zero] at h
      rw [UInt8.toNat_xor, Nat.testBit_xor, h, Bool.xor_self]
    by_cases hxy : x ^^^ y ≠ 0
    · rw [if_pos hxy]
      have hle := @le_leadingZeros 8 _ _ (by omega) (by omega) hfirst
      have hk8 : k < 8 := by
        by_contra hge
        refine hxy (UInt8.toNat_inj.1 (Nat.eq_of_testBit_eq fun j => ?_))
        by_cases hj : j < 8
        · have := hfirst (7 - j) (by omega)
          rw [show 7 - (7 - j) = j by omega] at this
          simpa using this
        · have hlt : (x ^^^ y).toNat < 2 ^ j :=
            lt_of_lt_of_le (x ^^^ y).toNat_lt (Nat.pow_le_pow_right (by omega) (by omega))
          rw [Nat.testBit_lt_two_pow hlt]
          simp
      omega
    · rw [if_neg hxy]
      by_cases hk8 : k ≤ 8
      · omega
      · have hrest : k - 8 ≤ commonPrefixBytes a b := by
          refine ih (by rw [List.length_cons] at hk; omega) (by simpa using hlen) fun i hi => ?_
          have h := hbits (i + 8) (by omega)
          rw [show (i + 8) / 8 = i / 8 + 1 by omega, show (i + 8) % 8 = i % 8 by omega] at h
          simpa using h
        omega

/-- **Paths that agree on their first `k` bits share them.** -/
theorem le_commonPrefixBits {k : ℕ} (hk : k ≤ 256) (h : ∀ i < k, bitAt p i = bitAt q i) :
    k ≤ commonPrefixBits p q := by
  refine le_commonPrefixBytes (by rw [p.size]; exact hk) (by rw [p.size, q.size]) fun i hi => ?_
  rw [← bitAt_byte, ← bitAt_byte]
  exact h i hi

end ImmutableLedger
