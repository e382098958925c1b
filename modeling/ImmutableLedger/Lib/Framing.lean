import ImmutableLedger.Lib.Bytes

/-!
# Framed byte strings

Two ways to put a byte string into a longer one so that it can be taken out again: behind its length, written as a
base-128 number with the least significant group first, and escaped up to a terminator.

* `uvarint_putUvarint`: a length is read back, whatever follows it.
* `escape_append_inj`: escaped strings are prefix free.
-/

namespace Bytes

/-! ## Base-128 numbers -/

/-- The base-128 digits of `n`, least significant first, in at most `k + 1` bytes; all but the last carry the
continuation bit. -/
def putUvarintFrom : ℕ → ℕ → Bytes
  | 0, n => [UInt8.ofNat n]
  | k + 1, n => if n < 128 then [UInt8.ofNat n] else UInt8.ofNat (n % 128 + 128) :: putUvarintFrom k (n / 128)

/-- `binary.AppendUvarint` of a 64-bit number. -/
def putUvarint (n : UInt64) : Bytes := putUvarintFrom 9 n.toNat

/-- The loop of `binary.Uvarint` at index `i` with `x` read so far: the number and how many bytes it took. None when the
input ends, or when the number does not fit into 64 bits. -/
def uvarintFrom : ℕ → ℕ → Bytes → Option (ℕ × ℕ)
  | _, _, [] => none
  | i, x, b :: rest =>
    if i = 10 then none
    else if b.toNat < 128 then
      if i = 9 ∧ 1 < b.toNat then none else some (x + b.toNat * 2 ^ (7 * i), i + 1)
    else uvarintFrom (i + 1) (x + b.toNat % 128 * 2 ^ (7 * i)) rest

/-- `binary.Uvarint`. -/
def uvarint (data : Bytes) : Option (ℕ × ℕ) := uvarintFrom 0 0 data

/-- The loop reads what was written from the same index on. -/
theorem uvarintFrom_putUvarintFrom (rest : Bytes) : ∀ (k i x n : ℕ), i + k = 9 → n * 2 ^ (7 * i) < 2 ^ 64 →
    uvarintFrom i x (putUvarintFrom k n ++ rest) =
      some (x + n * 2 ^ (7 * i), i + (putUvarintFrom k n).length) := by
  intro k
  induction k with
  | zero =>
    intro i x n hi hn
    -- the tenth byte has one bit left
    have hi9 : i = 9 := by omega
    subst hi9
    have hn1 : n ≤ 1 := by
      by_contra h
      have : 2 * 2 ^ 63 ≤ n * 2 ^ 63 := Nat.mul_le_mul_right _ (by omega)
      omega
    have hb : (UInt8.ofNat n).toNat = n := by
      rw [UInt8.toNat_ofNat']
      omega
    simp only [putUvarintFrom, List.cons_append, List.nil_append, uvarintFrom, hb, List.length_singleton]
    rw [if_neg (by omega), if_pos (by omega), if_neg (by omega)]
  | succ k ih =>
    intro i x n hi hn
    unfold putUvarintFrom
    by_cases hlt : n < 128
    · have hb : (UInt8.ofNat n).toNat = n := by
        rw [UInt8.toNat_ofNat']
        omega
      rw [if_pos hlt]
      simp only [List.cons_append, List.nil_append, uvarintFrom, hb, List.length_singleton]
      rw [if_neg (by omega), if_pos hlt, if_neg (by omega)]
    · have hb : (UInt8.ofNat (n % 128 + 128)).toNat = n % 128 + 128 := by
        rw [UInt8.toNat_ofNat']
        omega
      have hsplit : n * 2 ^ (7 * i) = n % 128 * 2 ^ (7 * i) + n / 128 * 2 ^ (7 * (i + 1)) := by
        have hpow : 2 ^ (7 * (i + 1)) = 128 * 2 ^ (7 * i) := by
          rw [show 7 * (i + 1) = 7 + 7 * i by omega, Nat.pow_add]
        have hdiv := Nat.div_add_mod n 128
        rw [hpow]
        nth_rewrite 1 [← hdiv]
        ring
      have hnext : n / 128 * 2 ^ (7 * (i + 1)) < 2 ^ 64 := by omega
      rw [if_neg hlt]
      simp only [List.cons_append, uvarintFrom, hb]
      rw [if_neg (by omega), if_neg (by omega), ih (i + 1) _ (n / 128) (by omega) hnext,
        show (n % 128 + 128) % 128 = n % 128 by omega, hsplit, List.length_cons]
      congr 1
      ext
      · simp only
        omega
      · simp only
        omega

/-- **A number is read back**, with the number of bytes it took, whatever follows. -/
theorem uvarint_putUvarint (n : UInt64) (rest : Bytes) :
    uvarint (putUvarint n ++ rest) = some (n.toNat, (putUvarint n).length) := by
  have hlt := n.toNat_lt
  have h := uvarintFrom_putUvarintFrom rest 9 0 0 n.toNat rfl (by omega)
  simpa [uvarint, putUvarint] using h

/-- What the loop returns: the bytes it took were there, and the number fits into 64 bits. -/
theorem uvarintFrom_bounds : ∀ {data : Bytes} {i x n sz : ℕ}, i ≤ 10 → x < 2 ^ min (7 * i) 64 →
    uvarintFrom i x data = some (n, sz) → i < sz ∧ sz ≤ i + data.length ∧ n < 2 ^ 64 := by
  intro data
  induction data with
  | nil => intro i x n sz _ _ h; cases h
  | cons b rest ih =>
    intro i x n sz hi hx h
    unfold uvarintFrom at h
    split at h
    · cases h
    · have hb := b.toNat_lt
      rw [List.length_cons]
      split at h
      · split at h
        · cases h
        · rename_i hlast
          cases h
          refine ⟨by omega, by omega, ?_⟩
          interval_cases i <;> simp at hx ⊢ <;> omega
      · by_cases h9 : i = 9
        · -- an eleventh byte is never read
          subst h9
          cases rest <;> cases h
        · have hnext : x + b.toNat % 128 * 2 ^ (7 * i) < 2 ^ min (7 * (i + 1)) 64 := by
            interval_cases i <;> simp at hx h9 ⊢ <;> omega
          obtain ⟨h₁, h₂, h₃⟩ := ih (by omega) hnext h
          exact ⟨by omega, by omega, h₃⟩

theorem uvarint_bounds {data : Bytes} {n sz : ℕ} (h : uvarint data = some (n, sz)) :
    0 < sz ∧ sz ≤ data.length ∧ n < 2 ^ 64 := by
  have hb := uvarintFrom_bounds (Nat.zero_le 10) (by decide) h
  rwa [Nat.zero_add] at hb

/-! ## Escaped strings -/

/-- The escaped form of a byte: 0 becomes `0 255`. -/
def escapeByte (b : UInt8) : Bytes := if b = 0 then [0, 255] else [b]

/-- The escaped form of a string, with its terminator `0 0`. -/
def escape (data : Bytes) : Bytes := data.flatMap escapeByte ++ [0, 0]

theorem escape_nil : escape [] = [0, 0] := rfl

theorem escape_cons (b : UInt8) (data : Bytes) : escape (b :: data) = escapeByte b ++ escape data := by
  unfold escape
  rw [List.flatMap_cons, List.append_assoc]

/-- **Escaped strings are prefix free.** -/
theorem escape_append_inj : ∀ {a b r t : Bytes}, escape a ++ r = escape b ++ t → a = b ∧ r = t := by
  intro a
  induction a with
  | nil =>
    intro b r t h
    cases b with
    | nil =>
      simp only [escape_nil, List.cons_append, List.nil_append, List.cons.injEq, true_and] at h
      exact ⟨rfl, h⟩
    | cons y b =>
      rw [escape_nil, escape_cons] at h
      unfold escapeByte at h
      split at h
      · simp at h
      · rename_i hy
        simp only [List.cons_append, List.nil_append, List.cons.injEq] at h
        exact absurd h.1.symm hy
  | cons x a ih =>
    intro b r t h
    cases b with
    | nil =>
      rw [escape_nil, escape_cons] at h
      unfold escapeByte at h
      split at h
      · simp at h
      · rename_i hx
        simp only [List.cons_append, List.nil_append, List.cons.injEq] at h
        exact absurd h.1 hx
    | cons y b =>
      rw [escape_cons, escape_cons, List.append_assoc, List.append_assoc] at h
      -- the first bytes agree, and so do their escapes
      have hxy : x = y := by
        unfold escapeByte at h
        by_cases hx : x = 0 <;> by_cases hy : y = 0
        · rw [hx, hy]
        · rw [if_pos hx, if_neg hy] at h
          simp only [List.cons_append, List.nil_append, List.cons.injEq] at h
          exact absurd h.1.symm hy
        · rw [if_neg hx, if_pos hy] at h
          simp only [List.cons_append, List.nil_append, List.cons.injEq] at h
          exact absurd h.1 hx
        · rw [if_neg hx, if_neg hy] at h
          simp only [List.cons_append, List.nil_append, List.cons.injEq] at h
          exact h.1
      subst hxy
      obtain ⟨hab, hrt⟩ := ih (List.append_cancel_left h)
      exact ⟨by rw [hab], hrt⟩

end Bytes
