import ImmutableLedger.Lib.Framing

/-!
# Codes that keep an order

A code keeps an order when comparing two codes byte by byte, whatever follows them, compares the values. That one
property makes the code injective and prefix free, and it passes to optional values and to tuples.

* `Keeps.append_lt_iff`: comparing codes with what follows them.
* `Keeps.append_inj`, `Keeps.prefix_eq`: the code can be taken off again.
* `toNat_flipSign`, `Keeps.escape`, `Keeps.option`, `Keeps.tuple`: signed integers, escaped strings, marked optional
  values, tuples.
-/

namespace Bytes

theorem append_left_lt {p a b : Bytes} : p ++ a < p ++ b ↔ a < b := by
  rw [append_lt_append rfl]
  exact ⟨fun h => h.elim (fun h => absurd h (lt_irrefl _)) And.right, fun h => .inr ⟨rfl, h⟩⟩

theorem le_append (p a : Bytes) : p ≤ p ++ a := by
  have hnot : ¬ p ++ a < p ++ [] := by
    rw [append_left_lt]
    exact List.not_lt_nil a
  rw [List.append_nil] at hnot
  exact not_lt.1 hnot

end Bytes

namespace KeyOrder

variable {α : Type} {S : α → Prop} {lt : α → α → Prop} {put : α → Bytes}

/-- `lt` orders the values in `S`, and `put` keeps the order in front of any two strings. -/
structure Keeps (S : α → Prop) (lt : α → α → Prop) (put : α → Bytes) : Prop where
  total : ∀ {a b : α}, S a → S b → lt a b ∨ a = b ∨ lt b a
  append_lt : ∀ {a b : α}, S a → S b → lt a b → ∀ r t : Bytes, put a ++ r < put b ++ t

namespace Keeps

variable (h : Keeps S lt put) {a b : α} (ha : S a) (hb : S b) {r t : Bytes}

include h ha hb

/-- **Comparing codes** compares the values, and what follows when they are equal. -/
theorem append_lt_iff : put a ++ r < put b ++ t ↔ lt a b ∨ a = b ∧ r < t := by
  constructor
  · intro hlt
    rcases h.total ha hb with hab | rfl | hba
    · exact .inl hab
    · exact .inr ⟨rfl, Bytes.append_left_lt.1 hlt⟩
    · exact absurd hlt (h.append_lt hb ha hba t r).asymm
  · rintro (hab | ⟨rfl, hrt⟩)
    · exact h.append_lt ha hb hab r t
    · exact Bytes.append_left_lt.2 hrt

theorem put_lt_iff : put a < put b ↔ lt a b := by
  have happ := h.append_lt_iff ha hb (r := []) (t := [])
  rw [List.append_nil, List.append_nil] at happ
  rw [happ]
  constructor
  · rintro (hab | ⟨-, hnil⟩)
    · exact hab
    · exact absurd hnil (lt_irrefl _)
  · exact .inl

/-- **A code can be taken off**, whatever follows it. -/
theorem append_inj (heq : put a ++ r = put b ++ t) : a = b ∧ r = t := by
  rcases h.total ha hb with hab | rfl | hba
  · exact absurd heq (h.append_lt ha hb hab r t).ne
  · exact ⟨rfl, List.append_cancel_left heq⟩
  · exact absurd heq.symm (h.append_lt hb ha hba t r).ne

theorem inj (heq : put a = put b) : a = b :=
  (h.append_inj ha hb (r := []) (t := []) (by rw [List.append_nil, List.append_nil]; exact heq)).1

/-- No code is a proper prefix of another. -/
theorem prefix_eq (hpre : put a <+: put b) : a = b := by
  obtain ⟨r, hr⟩ := hpre
  exact (h.append_inj ha hb (r := r) (t := []) (by rw [List.append_nil]; exact hr)).1

end Keeps

/-! ## Codes -/

theorem xor_two_pow_of_lt {k x : ℕ} (h : x < 2 ^ k) : x ^^^ 2 ^ k = x + 2 ^ k := by
  have hor := Nat.two_pow_add_eq_or_of_lt h 1
  rw [Nat.mul_one] at hor
  rw [Nat.add_comm, hor]
  refine Nat.eq_of_testBit_eq fun i => ?_
  rw [Nat.testBit_xor, Nat.testBit_or, Nat.testBit_two_pow]
  by_cases hi : k = i
  · subst hi
    simp [Nat.testBit_lt_two_pow h]
  · simp [hi]

/-- **Signed integers**: flipping the sign bit turns the signed order into the unsigned one. -/
theorem toNat_flipSign (v : Int64) : ((v.toUInt64 ^^^ 0x8000000000000000).toNat : ℤ) = v.toInt + 2 ^ 63 := by
  have hsign : (0x8000000000000000 : UInt64).toNat = 2 ^ 63 := rfl
  have hv := v.toUInt64.toNat_lt
  have hint : v.toInt = if 2 * v.toUInt64.toNat < 2 ^ 64 then (v.toUInt64.toNat : ℤ) else v.toUInt64.toNat - 2 ^ 64 :=
    BitVec.toInt_eq_toNat_cond _
  rw [UInt64.toNat_xor, hsign]
  by_cases h : v.toUInt64.toNat < 2 ^ 63
  · rw [xor_two_pow_of_lt h, hint, if_pos (by omega)]
    push_cast
    rfl
  · -- a negative number has the bit set already
    obtain ⟨y, hy⟩ := Nat.exists_eq_add_of_le (not_lt.1 h)
    have hlt : y < 2 ^ 63 := by omega
    rw [hint, if_neg (by omega), hy, Nat.add_comm, ← xor_two_pow_of_lt hlt, Nat.xor_assoc, Nat.xor_self, Nat.xor_zero,
      xor_two_pow_of_lt hlt]
    push_cast
    ring

theorem escapeByte_lt {x y : UInt8} (h : x < y) (r t : Bytes) : Bytes.escapeByte x ++ r < Bytes.escapeByte y ++ t := by
  have hy : y ≠ 0 := by
    rintro rfl
    exact absurd h (not_lt.2 (UInt8.zero_le))
  unfold Bytes.escapeByte
  rw [if_neg hy]
  split
  · rename_i hx
    exact List.cons_lt_cons_iff.2 (.inl (hx ▸ h))
  · exact List.cons_lt_cons_iff.2 (.inl h)

/-- **Escaped strings** compare as the strings do. -/
theorem Keeps.escape : Keeps (fun _ : Bytes => True) (· < ·) Bytes.escape where
  total _ _ := lt_trichotomy _ _
  append_lt := by
    intro a b _ _ hab r t
    induction a generalizing b with
    | nil =>
      cases b with
      | nil => exact absurd hab (lt_irrefl _)
      | cons y b =>
        rw [Bytes.escape_nil, Bytes.escape_cons]
        unfold Bytes.escapeByte
        split
        · exact List.cons_lt_cons_iff.2 (.inr ⟨rfl, List.cons_lt_cons_iff.2 (.inl (by decide))⟩)
        · rename_i hy
          exact List.cons_lt_cons_iff.2 (.inl (UInt8.pos_iff_ne_zero.2 hy))
    | cons x a ih =>
      cases b with
      | nil => exact absurd hab (List.not_lt_nil _)
      | cons y b =>
        rw [Bytes.escape_cons, Bytes.escape_cons, List.append_assoc, List.append_assoc]
        rcases List.cons_lt_cons_iff.1 hab with hxy | ⟨rfl, hlt⟩
        · exact escapeByte_lt hxy _ _
        · exact Bytes.append_left_lt.2 (ih hlt)

/-- The code of an optional value: a marker, then the value if there is one. -/
def putOption (put : α → Bytes) : Option α → Bytes
  | none => [0]
  | some a => 1 :: put a

/-- An absent value comes first. -/
theorem Keeps.option (h : Keeps S lt put) : Keeps (fun o => ∀ a ∈ o, S a) (Option.lt lt) (putOption put) where
  total := by
    intro o p ho hp
    cases o with
    | none =>
      cases p with
      | none => exact .inr (.inl rfl)
      | some b => exact .inl trivial
    | some a =>
      cases p with
      | none => exact .inr (.inr trivial)
      | some b =>
        rcases h.total (ho a rfl) (hp b rfl) with hab | rfl | hba
        · exact .inl hab
        · exact .inr (.inl rfl)
        · exact .inr (.inr hba)
  append_lt := by
    intro o p ho hp hlt r t
    cases o with
    | none =>
      cases p with
      | none => exact absurd hlt not_false
      | some b => exact List.cons_lt_cons_iff.2 (.inl (by decide))
    | some a =>
      cases p with
      | none => exact absurd hlt not_false
      | some b => exact List.cons_lt_cons_iff.2 (.inr ⟨rfl, h.append_lt (ho a rfl) (hp b rfl) hlt r t⟩)

/-- **Tuples**: column by column, each column with its own set of values. -/
theorem Keeps.tuple : ∀ {Ss : List (α → Prop)}, (∀ S ∈ Ss, Keeps S lt put) →
    Keeps (fun xs => List.Forall₂ (fun S a => S a) Ss xs) (List.Lex lt) (fun xs => xs.flatMap put) := by
  intro Ss
  induction Ss with
  | nil =>
    intro _
    refine ⟨fun ha hb => ?_, fun ha hb hab => ?_⟩
    · cases ha
      cases hb
      exact .inr (.inl rfl)
    · cases ha
      cases hb
      cases hab
  | cons S Ss ih =>
    intro hS
    have hhead := hS S List.mem_cons_self
    have htail := ih fun S' hS' => hS S' (List.mem_cons_of_mem _ hS')
    refine ⟨fun ha hb => ?_, fun ha hb hab r t => ?_⟩
    · rcases ha with _ | ⟨hx, hxs⟩
      rcases hb with _ | ⟨hy, hys⟩
      rcases hhead.total hx hy with hxy | rfl | hyx
      · exact .inl (.rel hxy)
      · rcases htail.total hxs hys with hlt | rfl | hgt
        · exact .inl (.cons hlt)
        · exact .inr (.inl rfl)
        · exact .inr (.inr (.cons hgt))
      · exact .inr (.inr (.rel hyx))
    · rcases ha with _ | ⟨hx, hxs⟩
      rcases hb with _ | ⟨hy, hys⟩
      rw [List.flatMap_cons, List.flatMap_cons, List.append_assoc, List.append_assoc]
      rcases hab with _ | hxy | hlt
      · exact hhead.append_lt hx hy hxy _ _
      · exact Bytes.append_left_lt.2 (htail.append_lt hxs hys hlt r t)

end KeyOrder
