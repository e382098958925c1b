import Mathlib.Order.Lattice
import Mathlib.Data.List.Lex
import Mathlib.Data.List.Induction
import Mathlib.Tactic

/-!
# Byte strings

Byte strings with their lexicographic order, and fixed-width big-endian integers.

* `ofBE_beBytes`, `beBytes_ofBE`: the width-`k` big-endian code is a bijection between
  the numbers below `256 ^ k` and the byte strings of length `k`.
* `append_lt_append`: strings with heads of equal length compare by head, then by tail.
* `ofBE_lt_ofBE`: strings of equal length compare as the numbers they encode.
-/

/-- A byte string. -/
abbrev Bytes := List UInt8

instance byteLinearOrder : LinearOrder UInt8 where
  le_refl := UInt8.le_refl
  le_trans := fun _ _ _ => UInt8.le_trans
  lt_iff_le_not_ge := fun a b => by
    rw [UInt8.lt_iff_toNat_lt, UInt8.le_iff_toNat_le, UInt8.le_iff_toNat_le]; omega
  le_antisymm := fun _ _ => UInt8.le_antisymm
  le_total := UInt8.le_total
  toDecidableLE := inferInstance

instance wordLinearOrder : LinearOrder UInt64 where
  le_refl := UInt64.le_refl
  le_trans := fun _ _ _ => UInt64.le_trans
  lt_iff_le_not_ge := fun a b => by
    rw [UInt64.lt_iff_toNat_lt, UInt64.le_iff_toNat_le, UInt64.le_iff_toNat_le]; omega
  le_antisymm := fun _ _ => UInt64.le_antisymm
  le_total := UInt64.le_total
  toDecidableLE := inferInstance

namespace Bytes

/-- The `k` low base-256 digits of `n`, most significant first. -/
def beBytes : ℕ → ℕ → Bytes
  | 0, _ => []
  | k + 1, n => beBytes k (n / 256) ++ [UInt8.ofNat n]

/-- The number whose base-256 digits are `b`, most significant first. -/
def ofBE (b : Bytes) : ℕ := b.foldl (fun a x => a * 256 + x.toNat) 0

@[simp] theorem length_beBytes (k n : ℕ) : (beBytes k n).length = k := by
  induction k generalizing n with
  | zero => rfl
  | succ k ih => simp [beBytes, ih]

theorem ofBE_append_singleton (b : Bytes) (x : UInt8) : ofBE (b ++ [x]) = ofBE b * 256 + x.toNat := by
  simp [ofBE]

theorem ofBE_lt (b : Bytes) : ofBE b < 256 ^ b.length := by
  induction b using List.reverseRecOn with
  | nil => simp [ofBE]
  | append_singleton b x ih =>
    rw [ofBE_append_singleton, List.length_append, List.length_singleton, pow_succ]
    have := x.toNat_lt
    omega

theorem ofBE_beBytes (k n : ℕ) (h : n < 256 ^ k) : ofBE (beBytes k n) = n := by
  induction k generalizing n with
  | zero => simp [beBytes, ofBE] at *; omega
  | succ k ih =>
    rw [beBytes, ofBE_append_singleton, ih (n / 256) (by rw [pow_succ] at h; omega)]
    simp only [UInt8.toNat_ofNat']
    omega

theorem beBytes_ofBE (b : Bytes) : beBytes b.length (ofBE b) = b := by
  induction b using List.reverseRecOn with
  | nil => rfl
  | append_singleton b x ih =>
    rw [List.length_append, List.length_singleton, beBytes, ofBE_append_singleton]
    have hx := x.toNat_lt
    rw [show (ofBE b * 256 + x.toNat) / 256 = ofBE b by omega, ih]
    congr 2
    apply UInt8.toNat_inj.1
    rw [UInt8.toNat_ofNat']
    omega

/-! ## Order -/

/-- Strings with heads of equal length compare by head, then by tail. -/
theorem append_lt_append {x y u v : Bytes} (h : x.length = y.length) :
    x ++ u < y ++ v ↔ x < y ∨ x = y ∧ u < v := by
  induction x generalizing y with
  | nil =>
    cases y with
    | nil => simp
    | cons b y => simp at h
  | cons a x ih =>
    cases y with
    | nil => simp at h
    | cons b y =>
      simp only [List.cons_append, List.cons_lt_cons_iff, List.cons.injEq]
      rw [ih (by simpa using h)]
      tauto

theorem ofBE_cons (a : UInt8) (b : Bytes) : ofBE (a :: b) = a.toNat * 256 ^ b.length + ofBE b := by
  induction b using List.reverseRecOn with
  | nil => simp [ofBE]
  | append_singleton b x ih =>
    rw [← List.cons_append, ofBE_append_singleton, ih, ofBE_append_singleton, List.length_append,
      List.length_singleton, pow_succ]
    ring

/-- Strings of equal length compare as the numbers they encode. -/
theorem ofBE_lt_ofBE {x y : Bytes} (h : x.length = y.length) : x < y ↔ ofBE x < ofBE y := by
  induction x generalizing y with
  | nil =>
    cases y with
    | nil => simp
    | cons b y => simp at h
  | cons a x ih =>
    cases y with
    | nil => simp at h
    | cons b y =>
      have hl : x.length = y.length := by simpa using h
      rw [List.cons_lt_cons_iff, ih hl, ofBE_cons, ofBE_cons, UInt8.lt_iff_toNat_lt, ← UInt8.toNat_inj,
        ← hl]
      have hx := ofBE_lt x
      have hy := ofBE_lt y
      rw [← hl] at hy
      constructor
      · rintro (hab | ⟨hab, hxy⟩)
        · calc a.toNat * 256 ^ x.length + ofBE x < (a.toNat + 1) * 256 ^ x.length := by
                rw [Nat.add_mul]; omega
            _ ≤ b.toNat * 256 ^ x.length := Nat.mul_le_mul_right _ hab
            _ ≤ _ := Nat.le_add_right _ _
        · rw [hab]; omega
      · intro hlt
        rcases Nat.lt_trichotomy a.toNat b.toNat with hab | hab | hab
        · exact .inl hab
        · rw [hab] at hlt; exact .inr ⟨hab, by omega⟩
        · exfalso
          have : (b.toNat + 1) * 256 ^ x.length ≤ a.toNat * 256 ^ x.length := Nat.mul_le_mul_right _ hab
          rw [Nat.add_mul] at this
          omega

theorem beBytes_lt_beBytes {k m n : ℕ} (hm : m < 256 ^ k) (hn : n < 256 ^ k) :
    beBytes k m < beBytes k n ↔ m < n := by
  rw [ofBE_lt_ofBE (by simp), ofBE_beBytes k m hm, ofBE_beBytes k n hn]

/-! ## 64-bit words -/

/-- `binary.BigEndian.AppendUint64`: the eight bytes of a word, most significant first. -/
def u64 (v : UInt64) : Bytes := beBytes 8 v.toNat

/-- `binary.BigEndian.Uint64`. -/
def toU64 (b : Bytes) : UInt64 := UInt64.ofNat (ofBE b)

@[simp] theorem length_u64 (v : UInt64) : (u64 v).length = 8 := length_beBytes 8 _

theorem u64_bound (v : UInt64) : v.toNat < 256 ^ 8 := lt_of_lt_of_eq v.toNat_lt (by norm_num)

@[simp] theorem toU64_u64 (v : UInt64) : toU64 (u64 v) = v := by
  unfold toU64 u64
  rw [ofBE_beBytes 8 _ (u64_bound v)]
  simp

theorem u64_toU64 {b : Bytes} (h : b.length = 8) : u64 (toU64 b) = b := by
  unfold toU64 u64
  have hlt := ofBE_lt b
  rw [h] at hlt
  rw [UInt64.toNat_ofNat_of_lt' (by norm_num at hlt ⊢; exact hlt)]
  have := beBytes_ofBE b
  rwa [h] at this

theorem u64_inj {v w : UInt64} (h : u64 v = u64 w) : v = w := by
  rw [← toU64_u64 v, h, toU64_u64]

theorem u64_lt_u64 {v w : UInt64} : u64 v < u64 w ↔ v < w := by
  unfold u64
  rw [beBytes_lt_beBytes (u64_bound v) (u64_bound w), UInt64.lt_iff_toNat_lt]

end Bytes
