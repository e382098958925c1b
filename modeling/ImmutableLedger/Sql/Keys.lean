import ImmutableLedger.Sql.Database

/-!
# The logical keys of the SQL layer

The SQL layer writes four kinds of ledger keys: the catalog root, the table definitions, the counters and the rows.

* `SqlKey.bytes_inj`: keys of different kinds or identities are different.
* `SqlKey.not_reserved`, `SqlKey.bytes_ne_history`: no SQL key is a system key of the ledger.
* `mem_range_iff`: the range the scans of the derived keyspace use.
-/

namespace ImmutableLedger

/-- A logical key of the SQL layer. -/
inductive SqlKey where
  | catalog
  | table (lower : Bytes)
  | counter (id : UInt64)
  | row (id : UInt64) (pkEnc : Bytes)
deriving DecidableEq

namespace SqlKey

/-- The logical key as bytes. -/
def bytes : SqlKey → Bytes
  | catalog => metaKey
  | table lower => ascii "sql/c/t/" ++ lower
  | counter id => autoIncKey id
  | row id pkEnc => rowKey id pkEnc

/-- The bytes that tell the kinds apart: the fifth, and in the catalog the seventh. -/
def kind : SqlKey → UInt8 × UInt8
  | catalog => (99, 109) -- 'c', 'm'
  | table _ => (99, 116) -- 'c', 't'
  | counter _ => (99, 97) -- 'c', 'a'
  | row _ _ => (114, 0) -- 'r'

theorem fifth_bytes (k : SqlKey) : k.bytes[4]? = some k.kind.1 := by cases k <;> rfl

theorem seventh_bytes (k : SqlKey) (h : k.kind.1 = 99) : k.bytes[6]? = some k.kind.2 := by
  cases k with
  | row id pkEnc => simp [kind] at h
  | _ => rfl

theorem kind_eq {a b : SqlKey} (h : a.bytes = b.bytes) : a.kind = b.kind := by
  have h1 : a.kind.1 = b.kind.1 := by
    have hb := b.fifth_bytes
    rw [← h, a.fifth_bytes] at hb
    exact Option.some.inj hb
  by_cases hc : a.kind.1 = 99
  · have hb := b.seventh_bytes (h1 ▸ hc)
    rw [← h, a.seventh_bytes hc] at hb
    exact Prod.ext h1 (Option.some.inj hb)
  · cases a <;> cases b <;> simp [kind] at hc h1 ⊢

/-- **The keys of the SQL layer do not collide.** -/
theorem bytes_inj {a b : SqlKey} (h : a.bytes = b.bytes) : a = b := by
  have hk := kind_eq h
  cases a <;> cases b <;> first | (simp [kind] at hk; done) | skip
  case catalog.catalog => rfl
  case table.table => rw [List.append_cancel_left h]
  case counter.counter => rw [Bytes.u64_inj (List.append_cancel_left h)]
  case row.row i p j q =>
    have happ : ascii "sql/r/" ++ (Bytes.u64 i ++ p) = ascii "sql/r/" ++ (Bytes.u64 j ++ q) := by
      rw [← List.append_assoc, ← List.append_assoc]; exact h
    obtain ⟨h1, h2⟩ := List.append_inj (List.append_cancel_left happ) (by simp)
    rw [Bytes.u64_inj h1, h2]

theorem bytes_eq_iff {a b : SqlKey} : a.bytes = b.bytes ↔ a = b := ⟨bytes_inj, fun h => h ▸ rfl⟩

theorem not_reserved (k : SqlKey) : reservedKeyPrefix.isPrefixOf k.bytes = false := by cases k <;> rfl

theorem bytes_ne_history (k : SqlKey) : k.bytes ≠ historyKey := by
  intro h
  have hhead : k.bytes.head? = some 115 := by cases k <;> rfl
  rw [h] at hhead
  exact absurd hhead (by decide)

end SqlKey

/-! ## Ranges -/

theorem incBytes_cons (a : UInt8) (p : Bytes) : incBytes (a :: p) =
    ((incBytes p).map (a :: ·)).or (if a = 0xFF then none else some [a + 1]) := by
  unfold incBytes
  rw [List.reverse_cons, List.dropWhile_append]
  cases h : p.reverse.dropWhile (fun x => decide (x = 0xFF)) with
  | nil =>
    by_cases ha : a = 0xFF <;> simp [ha]
  | cons x xs => simp

theorem cons_le_iff {a b : UInt8} {p k : Bytes} : a :: p ≤ b :: k ↔ a < b ∨ a = b ∧ p ≤ k := by
  rw [← not_lt, List.cons_lt_cons_iff, not_or, not_and, not_lt, le_iff_lt_or_eq, ← not_lt]
  constructor
  · rintro ⟨hlt | rfl, h⟩
    · exact .inl hlt
    · exact .inr ⟨rfl, h rfl⟩
  · rintro (hlt | ⟨rfl, h⟩)
    · exact ⟨.inl hlt, fun he => absurd hlt (by rw [he]; exact lt_irrefl _)⟩
    · exact ⟨.inr rfl, fun _ => h⟩

/-- The next string after `a` is `a` with a zero byte. -/
theorem lt_iff_append_zero_le : ∀ {a k : Bytes}, a < k ↔ a ++ [0x00] ≤ k := by
  intro a
  induction a with
  | nil =>
    intro k
    cases k with
    | nil => exact ⟨fun h => absurd h (lt_irrefl _), fun h => absurd (List.nil_lt_cons _ _) (not_lt.2 h)⟩
    | cons b k =>
      refine ⟨fun _ => cons_le_iff.2 ?_, fun _ => List.nil_lt_cons b k⟩
      have hnil : ([] : Bytes) ≤ k := not_lt.1 (List.not_lt_nil k)
      rcases eq_or_lt_of_le (UInt8.zero_le (a := b)) with hb | hb
      · exact .inr ⟨hb, hnil⟩
      · exact .inl hb
  | cons x a ih =>
    intro k
    cases k with
    | nil => exact ⟨fun h => absurd h (List.not_lt_nil _), fun h => absurd (List.nil_lt_cons _ _) (not_lt.2 h)⟩
    | cons b k => rw [List.cons_lt_cons_iff, List.cons_append, cons_le_iff, ih]

/-- From a string of `0xFF` on there are only the strings that start with it. -/
theorem le_iff_of_incBytes_none : ∀ {p k : Bytes}, incBytes p = none → (p ≤ k ↔ p <+: k) := by
  intro p
  induction p with
  | nil => intro k _; exact ⟨fun _ => List.nil_prefix, fun _ => not_lt.1 (List.not_lt_nil k)⟩
  | cons a p ih =>
    intro k h
    rw [incBytes_cons] at h
    cases hp : incBytes p with
    | some q => rw [hp] at h; cases h
    | none =>
      rw [hp] at h
      have ha : a = 0xFF := by
        by_contra ha
        rw [Option.map_none, Option.none_or, if_neg ha] at h
        cases h
      cases k with
      | nil => exact ⟨fun hle => absurd (List.nil_lt_cons a p) (not_lt.2 hle), fun hpre => absurd hpre (by simp)⟩
      | cons b k =>
        rw [cons_le_iff, List.cons_prefix_cons, ih hp, ha]
        constructor
        · rintro (hlt | h)
          · exact absurd hlt (not_lt.2 (UInt8.le_iff_toNat_le.2 (by have := b.toNat_lt; simp; omega)))
          · exact h
        · exact .inr

/-- **A range from a string to its successor holds exactly the strings that start with it.** -/
theorem mem_range_iff : ∀ {p q k : Bytes}, incBytes p = some q → (p ≤ k ∧ k < q ↔ p <+: k) := by
  intro p
  induction p with
  | nil => intro q k h; cases h
  | cons a p ih =>
    intro q k h
    rw [incBytes_cons] at h
    cases k with
    | nil => exact ⟨fun hle => absurd (List.nil_lt_cons a p) (not_lt.2 hle.1), fun hpre => absurd hpre (by simp)⟩
    | cons b k =>
      cases hp : incBytes p with
      | some q' =>
        rw [hp] at h
        obtain rfl := Option.some.inj h
        rw [cons_le_iff, List.cons_lt_cons_iff, List.cons_prefix_cons, ← ih hp]
        constructor
        · rintro ⟨hlt | ⟨rfl, hle⟩, hgt | ⟨he, hlt'⟩⟩
          · exact absurd hlt hgt.asymm
          · exact absurd hlt (by rw [he]; exact lt_irrefl _)
          · exact absurd hgt (lt_irrefl _)
          · exact ⟨rfl, hle, hlt'⟩
        · rintro ⟨rfl, hle, hlt⟩
          exact ⟨.inr ⟨rfl, hle⟩, .inr ⟨rfl, hlt⟩⟩
      | none =>
        rw [hp] at h
        rw [Option.map_none, Option.none_or] at h
        by_cases ha : a = 0xFF
        · rw [if_pos ha] at h
          cases h
        · rw [if_neg ha] at h
          obtain rfl := Option.some.inj h
          have hsucc : b < a + 1 ↔ b ≤ a := by
            rw [UInt8.lt_iff_toNat_lt, UInt8.le_iff_toNat_le, UInt8.toNat_add]
            have h1 : a.toNat ≠ 255 := fun he => ha (UInt8.toNat_inj.1 he)
            have h2 := a.toNat_lt
            have h3 : (1 : UInt8).toNat = 1 := rfl
            omega
          rw [cons_le_iff, List.cons_lt_cons_iff, List.cons_prefix_cons, ← le_iff_of_incBytes_none hp, hsucc]
          simp only [List.not_lt_nil, and_false, or_false]
          constructor
          · rintro ⟨hlt | h, hle⟩
            · exact absurd hlt (not_lt.2 hle)
            · exact h
          · rintro ⟨rfl, h⟩
            exact ⟨.inr ⟨rfl, h⟩, le_rfl⟩

end ImmutableLedger
