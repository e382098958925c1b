import ImmutableLedger.Sql.Catalog
import ImmutableLedger.Lib.KeyOrder

/-!
# The order of keys

The key form of a column value keeps the order of the values, for every kind but the floats: signed integers by their
value, strings and byte strings byte by byte, times by the instant as long as its nanoseconds fit into 64 bits. So do
tuples of them (`encodePK`) and tuples with NULLs (`encodeIndexCols`).

* `keeps_key`: one column.
* `encodePK_of_values`, `encodeIndexCols_of_values`: the encodings of a row as tuples.
* `key_order`: keys of rows and index entries compare as their tuples do.
-/

namespace ImmutableLedger

open KeyOrder

/-! ## Values -/

/-- The order of the values of one kind. -/
def Scalar.lt : Scalar → Scalar → Prop
  | .int a, .int b => a < b
  | .uint a, .uint b => a < b
  | .str a, .str b => a < b
  | .time a, .time b => a < b
  | _, _ => False

/-- The instant is one `UnixNano` can give: its nanoseconds fit into 64 bits. -/
def InNanos (ns : ℤ) : Prop := -2 ^ 63 ≤ ns ∧ ns < 2 ^ 63

instance (ns : ℤ) : Decidable (InNanos ns) := inferInstanceAs (Decidable (_ ∧ _))

/-- The values of a kind: none of the float kinds, instants that `UnixNano` can give. -/
def Scalar.OfKind : ColKind → Scalar → Prop
  | .int, .int _ => True
  | .uint, .uint _ => True
  | .string, .str _ => True
  | .bytes, .str _ => True
  | .datetime, .time ns => InNanos ns
  | _, _ => False

theorem toInt_unixNano {ns : ℤ} (h : InNanos ns) : (unixNano ns).toInt = ns := Int64.toInt_ofInt_of_le h.1 h.2

theorem encInt64_lt {a b : Int64} (h : a < b) : encInt64 a < encInt64 b := by
  have ha := toNat_flipSign a
  have hb := toNat_flipSign b
  have hlt := Int64.lt_iff_toInt_lt.1 h
  unfold encInt64 signBit
  rw [Bytes.u64_lt_u64, UInt64.lt_iff_toNat_lt]
  omega

theorem unixNano_lt {m n : ℤ} (hm : InNanos m) (hn : InNanos n) (h : m < n) : unixNano m < unixNano n := by
  rw [Int64.lt_iff_toInt_lt, toInt_unixNano hm, toInt_unixNano hn]
  exact h

theorem int64_trichotomy (a b : Int64) : a < b ∨ a = b ∨ b < a := by
  rw [Int64.lt_iff_toInt_lt, Int64.lt_iff_toInt_lt, ← Int64.toInt_inj]
  exact lt_trichotomy _ _

/-- Two values of a kind compare. -/
theorem Scalar.total {kind : ColKind} {a b : Scalar} (ha : a.OfKind kind) (hb : b.OfKind kind) :
    a.lt b ∨ a = b ∨ b.lt a := by
  cases kind <;> cases a <;> try (exact absurd ha not_false)
  all_goals cases b <;> try (exact absurd hb not_false)
  all_goals simp only [Scalar.lt, Scalar.int.injEq, Scalar.uint.injEq, Scalar.str.injEq, Scalar.time.injEq]
  case int.int.int a b => exact int64_trichotomy a b
  all_goals exact lt_trichotomy _ _

/-- **The key form of one column keeps the order of its values.** -/
theorem keeps_key (kind : ColKind) : Keeps (Scalar.OfKind kind) Scalar.lt Scalar.key where
  total := Scalar.total
  append_lt := by
    intro a b ha hb hab r t
    have hfixed : ∀ {x y : Bytes}, x.length = y.length → x < y → x ++ r < y ++ t :=
      fun hlen hlt => (Bytes.append_lt_append hlen).2 (.inl hlt)
    cases a <;> cases b <;> try (exact absurd hab not_false)
    case int.int a b => exact hfixed (by simp [Scalar.key, encInt64]) (encInt64_lt hab)
    case uint.uint a b => exact hfixed (by simp [Scalar.key, encUint64]) (Bytes.u64_lt_u64.2 hab)
    case str.str a b => exact Keeps.escape.append_lt trivial trivial hab r t
    case time.time m n =>
      cases kind <;> try (exact absurd ha not_false)
      exact hfixed (by simp [Scalar.key, encInt64]) (encInt64_lt (unixNano_lt ha hb hab))

/-! ## Rows -/

/-- A value of the column `ord` of the table. -/
def TableDef.InCol (d : TableDef) (ord : ℕ) (x : Scalar) : Prop :=
  ∃ c kind, d.columns[ord]? = some c ∧ c.kind = .ok kind ∧ x.OfKind kind

theorem keeps_col (d : TableDef) (ord : ℕ) : Keeps (d.InCol ord) Scalar.lt Scalar.key where
  total := by
    rintro a b ⟨c, kind, hc, hk, ha⟩ ⟨c', kind', hc', hk', hb⟩
    rw [hc] at hc'
    cases hc'
    rw [hk] at hk'
    cases hk'
    exact (keeps_key kind).total ha hb
  append_lt := by
    rintro a b ⟨c, kind, hc, hk, ha⟩ ⟨c', kind', hc', hk', hb⟩
    rw [hc] at hc'
    cases hc'
    rw [hk] at hk'
    cases hk'
    exact (keeps_key kind).append_lt ha hb

/-- The value of the row in the column `ord`, as the key forms read it: none for NULL. -/
inductive ColValue (d : TableDef) (row : Row) (ord : ℕ) : Option Scalar → Prop
  | null (hv : row[ord]? = some none) : ColValue d row ord none
  | value {c : ColDef} {kind : ColKind} {v : GoVal} {x : Scalar} (hc : d.columns[ord]? = some c) (hk : c.kind = .ok kind)
      (hv : row[ord]? = some (some v)) (hx : coerce kind v = .ok x) (hkind : x.OfKind kind) :
    ColValue d row ord (some x)

/-- The primary-key columns of the row hold `xs`. -/
def PKValues (d : TableDef) (row : Row) (xs : List Scalar) : Prop :=
  List.Forall₂ (fun ord x => ColValue d row ord (some x)) d.pkOrds xs

/-- The indexed columns of the row hold `ys`. -/
def IndexValues (d : TableDef) (idx : IndexDef) (row : Row) (ys : List (Option Scalar)) : Prop :=
  List.Forall₂ (ColValue d row) idx.colOrds ys

variable {d : TableDef} {idx : IndexDef} {row : Row} {ords : List ℕ} {xs : List Scalar} {ys : List (Option Scalar)}

theorem ColValue.inCol {ord : ℕ} {o : Option Scalar} (h : ColValue d row ord o) : ∀ x ∈ o, d.InCol ord x := by
  intro x hx
  cases h with
  | null hv => cases hx
  | value hc hk hv hcoerce hkind =>
    cases hx
    exact ⟨_, _, hc, hk, hkind⟩

theorem encodePKCols_of_values (h : List.Forall₂ (fun ord x => ColValue d row ord (some x)) ords xs) :
    encodePKCols d row ords = .ok (xs.flatMap Scalar.key) := by
  induction h with
  | nil => rfl
  | cons hcol _ ih =>
    cases hcol with
    | value hc hk hv hx _ =>
      unfold encodePKCols
      simp only [rowAt, hv, TableDef.columnAt, hc, bind, Except.bind, hk, encodeKeyCol, hx, ih, wrapWith, List.flatMap_cons]
      rfl

/-- **The primary-key bytes of a row** are those of its tuple. -/
theorem encodePK_of_values (h : PKValues d row xs) : encodePK d row = .ok (xs.flatMap Scalar.key) :=
  encodePKCols_of_values h

theorem encodeIndexOrds_of_values (h : List.Forall₂ (ColValue d row) ords ys) :
    encodeIndexOrds d idx row ords = .ok (ys.flatMap (putOption Scalar.key), ys.any Option.isNone) := by
  induction h with
  | nil => rfl
  | cons hcol _ ih =>
    unfold encodeIndexOrds
    cases hcol with
    | null hv =>
      simp only [rowAt, hv, ih, List.flatMap_cons]
      rfl
    | value hc hk hv hx _ =>
      simp only [rowAt, hv, TableDef.columnAt, hc, bind, Except.bind, hk, encodeKeyCol, hx, ih, wrapWith, List.flatMap_cons]
      rfl

/-- **The encoding of the indexed columns** is that of their tuple with NULL markers. -/
theorem encodeIndexCols_of_values (h : IndexValues d idx row ys) :
    encodeIndexCols d idx row = .ok (ys.flatMap (putOption Scalar.key), ys.any Option.isNone) :=
  encodeIndexOrds_of_values h

/-- Tuples of the columns `ords`, keyed one after the other. -/
theorem keeps_cols (d : TableDef) (ords : List ℕ) :
    Keeps (fun xs => List.Forall₂ (fun S x => S x) (ords.map d.InCol) xs) (List.Lex Scalar.lt)
      (fun xs => xs.flatMap Scalar.key) := by
  refine Keeps.tuple fun S hS => ?_
  obtain ⟨ord, -, rfl⟩ := List.mem_map.1 hS
  exact keeps_col d ord

/-- Tuples with NULLs of the columns `ords`. -/
theorem keeps_optionCols (d : TableDef) (ords : List ℕ) :
    Keeps (fun ys => List.Forall₂ (fun S o => S o) (ords.map fun ord o => ∀ x ∈ o, d.InCol ord x) ys)
      (List.Lex (Option.lt Scalar.lt)) (fun ys => ys.flatMap (putOption Scalar.key)) := by
  refine Keeps.tuple fun S hS => ?_
  obtain ⟨ord, -, rfl⟩ := List.mem_map.1 hS
  exact (keeps_col d ord).option

theorem PKValues.inCols (h : PKValues d row xs) : List.Forall₂ (fun S x => S x) (d.pkOrds.map d.InCol) xs := by
  rw [List.forall₂_map_left_iff]
  exact h.imp fun ord x hx => hx.inCol x rfl

theorem IndexValues.inCols (h : IndexValues d idx row ys) :
    List.Forall₂ (fun S o => S o) (idx.colOrds.map fun ord o => ∀ x ∈ o, d.InCol ord x) ys := by
  rw [List.forall₂_map_left_iff]
  exact h.imp fun ord o ho => ho.inCol

/-! ## Keys of rows and entries -/

/-- **The order of keys.** Primary-key bytes and index-column bytes of rows compare as their tuples do (NULL lowest), none
is a proper prefix of another, and equal ones come from equal tuples. An index entry followed by any primary key
compares by its columns first, so that distinct pairs have distinct entries and the entries with the same columns
stand together. -/
theorem key_order {q₁ q₂ r₁ r₂ : Row} {x₁ x₂ : List Scalar} {y₁ y₂ : List (Option Scalar)}
    (hx₁ : PKValues d q₁ x₁) (hx₂ : PKValues d q₂ x₂) (hy₁ : IndexValues d idx r₁ y₁) (hy₂ : IndexValues d idx r₂ y₂) :
    ∃ p₁ p₂ c₁ c₂ n₁ n₂, encodePK d q₁ = .ok p₁ ∧ encodePK d q₂ = .ok p₂ ∧
      encodeIndexCols d idx r₁ = .ok (c₁, n₁) ∧ encodeIndexCols d idx r₂ = .ok (c₂, n₂) ∧
      ((p₁ < p₂ ↔ List.Lex Scalar.lt x₁ x₂) ∧ (p₁ <+: p₂ → p₁ = p₂) ∧ (p₁ = p₂ → x₁ = x₂)) ∧
      ((c₁ < c₂ ↔ List.Lex (Option.lt Scalar.lt) y₁ y₂) ∧ (c₁ <+: c₂ → c₁ = c₂) ∧ (c₁ = c₂ → y₁ = y₂)) ∧
      (entryKey idx.id c₁ p₁ = entryKey idx.id c₂ p₂ → y₁ = y₂ ∧ x₁ = x₂) ∧
      (entryKey idx.id c₁ p₁ < entryKey idx.id c₂ p₂ ↔
        List.Lex (Option.lt Scalar.lt) y₁ y₂ ∨ y₁ = y₂ ∧ List.Lex Scalar.lt x₁ x₂) := by
  have hpk := keeps_cols d d.pkOrds
  have hcols := keeps_optionCols d idx.colOrds
  have hentry : ∀ c p, entryKey idx.id c p = secondarySpace idx.id ++ (c ++ p) := fun c p => List.append_assoc _ _ _
  refine ⟨_, _, _, _, _, _, encodePK_of_values hx₁, encodePK_of_values hx₂, encodeIndexCols_of_values hy₁,
    encodeIndexCols_of_values hy₂, ⟨hpk.put_lt_iff hx₁.inCols hx₂.inCols, fun hpre => ?_,
    hpk.inj hx₁.inCols hx₂.inCols⟩, ⟨hcols.put_lt_iff hy₁.inCols hy₂.inCols, fun hpre => ?_,
    hcols.inj hy₁.inCols hy₂.inCols⟩, fun heq => ?_, ?_⟩
  · rw [hpk.prefix_eq hx₁.inCols hx₂.inCols hpre]
  · rw [hcols.prefix_eq hy₁.inCols hy₂.inCols hpre]
  · rw [hentry, hentry] at heq
    obtain ⟨hy, hp⟩ := hcols.append_inj hy₁.inCols hy₂.inCols (List.append_cancel_left heq)
    exact ⟨hy, hpk.inj hx₁.inCols hx₂.inCols hp⟩
  · rw [hentry, hentry, Bytes.append_left_lt, hcols.append_lt_iff hy₁.inCols hy₂.inCols, hpk.put_lt_iff hx₁.inCols hx₂.inCols]

/-- A table of people: a number (the primary key), a name with an index on it, and a time. -/
def peopleDef : TableDef where
  id := 1
  name := ascii "people"
  columns := [{ name := ascii "id", qtype := .int32 }, { name := ascii "name", qtype := .varchar, nullable := true },
    { name := ascii "born", qtype := .datetime, nullable := true }]
  pkOrds := [0]
  indexes := [⟨1, ascii "name_born", false, [1, 2]⟩]

/-- The entries of a person without a name and of one named `a\x00`, in this order. -/
theorem key_order_people : ∃ p₁ p₂ c₁ c₂ n₁ n₂,
    encodePK peopleDef [some (.int32 7), none, some (.time 5)] = .ok p₁ ∧
    encodePK peopleDef [some (.int32 (-1)), some (.string [97, 0]), none] = .ok p₂ ∧
    encodeIndexCols peopleDef ⟨1, ascii "name_born", false, [1, 2]⟩ [some (.int32 7), none, some (.time 5)] =
      .ok (c₁, n₁) ∧
    encodeIndexCols peopleDef ⟨1, ascii "name_born", false, [1, 2]⟩ [some (.int32 (-1)), some (.string [97, 0]), none] =
      .ok (c₂, n₂) ∧ ¬ p₁ < p₂ ∧ entryKey 1 c₁ p₁ < entryKey 1 c₂ p₂ := by
  obtain ⟨p₁, p₂, c₁, c₂, n₁, n₂, h₁, h₂, h₃, h₄, ⟨hp, -, -⟩, -, -, he⟩ := @key_order peopleDef
    ⟨1, ascii "name_born", false, [1, 2]⟩ [some (.int32 7), none, some (.time 5)]
    [some (.int32 (-1)), some (.string [97, 0]), none] [some (.int32 7), none, some (.time 5)]
    [some (.int32 (-1)), some (.string [97, 0]), none] [.int 7] [.int (-1)] [none, some (.time 5)]
    [some (.str [97, 0]), none]
    (.cons (.value rfl rfl rfl rfl trivial) .nil) (.cons (.value rfl rfl rfl rfl trivial) .nil)
    (.cons (.null rfl) (.cons (.value rfl rfl rfl rfl (show InNanos 5 from by decide)) .nil))
    (.cons (.value rfl rfl rfl rfl trivial) (.cons (.null rfl) .nil))
  refine ⟨p₁, p₂, c₁, c₂, n₁, n₂, h₁, h₂, h₃, h₄, fun hlt => ?_, he.2 (.inl (.rel trivial))⟩
  rcases hp.1 hlt with _ | h | h
  exact absurd h (show ¬ (7 : Int64) < -1 from by decide)

end ImmutableLedger
