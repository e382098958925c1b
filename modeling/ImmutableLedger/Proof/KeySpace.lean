import ImmutableLedger.Proof.IndexRange
import ImmutableLedger.Sql.Scan

/-!
# Keyspaces of a table

The primary keyspace of a table and the keyspaces of its indexes: the key of a row under its primary-key bytes, and the
partitions that scan a part of a keyspace.

* `encodeIndexCols_append_inj`: the columns of an index entry can be told from the primary key after them, for values of
  every kind.
* `LedgerIndex.keyAt_inj`: a key belongs to one primary key.
* `Partition.Scans`: a partition that scans a part of a keyspace.
-/

namespace ImmutableLedger

/-! ## Columns in keys -/

/-- Whether a value is a string is up to the kind. -/
theorem coerce_str_iff {kind : ColKind} {v : GoVal} {x : Scalar} (h : coerce kind v = .ok x) :
    (∃ s, x = .str s) ↔ kind = .string ∨ kind = .bytes := by
  cases kind <;> cases v <;> cases h <;> simp

/-- All key forms but those of strings have one width. -/
theorem length_key {x : Scalar} (h : ¬ ∃ s, x = .str s) : x.key.length = 8 := by
  cases x with
  | str s => exact absurd ⟨s, rfl⟩ h
  | _ => exact Bytes.length_u64 _

/-- **The key form of a column can be taken off**, whatever follows it. -/
theorem encodeKeyCol_append_inj {kind : ColKind} {v w : GoVal} {a b r t : Bytes} (ha : encodeKeyCol kind v = .ok a)
    (hb : encodeKeyCol kind w = .ok b) (h : a ++ r = b ++ t) : a = b ∧ r = t := by
  obtain ⟨x, hx, hxa⟩ := Except.ok_of_bind ha
  obtain ⟨y, hy, hyb⟩ := Except.ok_of_bind hb
  cases hxa
  cases hyb
  have hsame : (∃ s, x = .str s) ↔ ∃ s, y = .str s := (coerce_str_iff hx).trans (coerce_str_iff hy).symm
  by_cases hstr : ∃ s, x = .str s
  · obtain ⟨p, rfl⟩ := hstr
    obtain ⟨q, rfl⟩ := hsame.1 ⟨p, rfl⟩
    obtain ⟨rfl, hrt⟩ := Bytes.escape_append_inj h
    exact ⟨rfl, hrt⟩
  · exact List.append_inj h (by rw [length_key hstr, length_key (mt hsame.2 hstr)])

theorem wrapWith_eq_ok {α : Type} {format : String} {args : List Arg} {r : Except SqlErr α} {a : α}
    (h : wrapWith format args r = .ok a) : r = .ok a := by
  cases r with
  | ok b => exact h
  | error e => cases h

variable {d : TableDef} {idx : IndexDef}

/-- The encoding of one more column: a marker for NULL, or a marker and the key form of the value. -/
theorem encodeIndexOrds_cons {row : Row} {ord : ℕ} {ords : List ℕ} {r : Bytes × Bool} :
    encodeIndexOrds d idx row (ord :: ords) = .ok r ↔ ∃ rest, encodeIndexOrds d idx row ords = .ok rest ∧
      (rowAt row ord = .ok none ∧ r = (0x00 :: rest.1, true) ∨ ∃ v c kind enc, rowAt row ord = .ok (some v) ∧
        d.columnAt ord = .ok c ∧ c.kind = .ok kind ∧ encodeKeyCol kind v = .ok enc ∧
        r = (0x01 :: (enc ++ rest.1), rest.2)) := by
  constructor
  · intro h
    obtain ⟨v, hv, h₁⟩ := Except.ok_of_bind h
    cases v with
    | none =>
      obtain ⟨rest, hrest, h₂⟩ := Except.ok_of_bind h₁
      exact ⟨rest, hrest, .inl ⟨hv, (Except.ok.inj h₂).symm⟩⟩
    | some v =>
      obtain ⟨c, hc, h₂⟩ := Except.ok_of_bind h₁
      obtain ⟨kind, hk, h₃⟩ := Except.ok_of_bind h₂
      obtain ⟨enc, henc, h₄⟩ := Except.ok_of_bind h₃
      obtain ⟨rest, hrest, h₅⟩ := Except.ok_of_bind h₄
      exact ⟨rest, hrest, .inr ⟨v, c, kind, enc, hv, hc, hk, wrapWith_eq_ok henc, (Except.ok.inj h₅).symm⟩⟩
  · rintro ⟨rest, hrest, ⟨hv, rfl⟩ | ⟨v, c, kind, enc, hv, hc, hk, henc, rfl⟩⟩
    · simp only [encodeIndexOrds, hv, hrest]
      rfl
    · simp only [encodeIndexOrds, hv, hc, hk, henc, hrest, wrapWith, bind, Except.bind]
      rfl

theorem encodeIndexOrds_append_inj {row row' : Row} : ∀ {ords : List ℕ} {a b : Bytes × Bool} {r t : Bytes},
    encodeIndexOrds d idx row ords = .ok a → encodeIndexOrds d idx row' ords = .ok b → a.1 ++ r = b.1 ++ t →
    a.1 = b.1 ∧ r = t := by
  intro ords
  induction ords with
  | nil =>
    intro a b r t ha hb h
    cases ha
    cases hb
    exact ⟨rfl, h⟩
  | cons ord ords ih =>
    intro a b r t ha hb h
    obtain ⟨resta, hresta, ha'⟩ := encodeIndexOrds_cons.1 ha
    obtain ⟨restb, hrestb, hb'⟩ := encodeIndexOrds_cons.1 hb
    rcases ha' with ⟨-, rfl⟩ | ⟨v, c, kind, enc, -, hc, hk, henc, rfl⟩ <;>
      rcases hb' with ⟨-, rfl⟩ | ⟨w, c', kind', enc', -, hc', hk', henc', rfl⟩ <;>
      obtain ⟨hmark, htail⟩ := List.cons.inj h
    · obtain ⟨h₁, h₂⟩ := ih hresta hrestb htail
      exact ⟨congrArg (0x00 :: ·) h₁, h₂⟩
    · exact absurd hmark (by decide)
    · exact absurd hmark (by decide)
    · rw [hc] at hc'
      cases hc'
      rw [hk] at hk'
      cases hk'
      rw [List.append_eq, List.append_eq, List.append_assoc, List.append_assoc] at htail
      obtain ⟨h₁, h₂⟩ := encodeKeyCol_append_inj henc henc' htail
      obtain ⟨h₃, h₄⟩ := ih hresta hrestb h₂
      exact ⟨by rw [h₁, h₃], h₄⟩

/-- **The columns of an index entry can be taken off**, whatever follows them. -/
theorem encodeIndexCols_append_inj {row row' : Row} {a b : Bytes × Bool} {r t : Bytes}
    (ha : encodeIndexCols d idx row = .ok a) (hb : encodeIndexCols d idx row' = .ok b) (h : a.1 ++ r = b.1 ++ t) :
    a.1 = b.1 ∧ r = t := encodeIndexOrds_append_inj ha hb h

/-! ## Keys of a keyspace -/

namespace LedgerIndex

/-- The key of a row under its primary-key bytes. -/
def keyAt (x : LedgerIndex) (pkEnc : Bytes) (row : Row) : Except SqlErr Bytes :=
  match x.idx with
  | none => .ok (scanKey x.tdef.id pkEnc)
  | some idx => do
    let (colsEnc, _) ← encodeIndexCols x.tdef idx row
    pure (entryKey idx.id colsEnc pkEnc)

/-- The value under a key: the primary-key bytes in an index, nothing in the primary keyspace. -/
def valueAt (x : LedgerIndex) (pkEnc : Bytes) : Bytes := if x.idx.isSome then pkEnc else []

/-- The primary-key bytes of an entry. -/
def pkOf (x : LedgerIndex) (kv : Bytes × Bytes) : Bytes := if x.idx.isSome then kv.2 else kv.1.drop 9

variable {x : LedgerIndex} {pk pk' k : Bytes} {row row' : Row}

/-- The keys of a keyspace. -/
theorem keyAt_cases (h : x.keyAt pk row = .ok k) : (x.idx = none ∧ k = scanKey x.tdef.id pk) ∨
    ∃ idx cols, x.idx = some idx ∧ encodeIndexCols x.tdef idx row = .ok cols ∧ k = entryKey idx.id cols.1 pk := by
  unfold keyAt at h
  cases hidx : x.idx with
  | none =>
    rw [hidx] at h
    cases h
    exact .inl ⟨rfl, rfl⟩
  | some idx =>
    rw [hidx] at h
    obtain ⟨cols, hcols, h₁⟩ := Except.ok_of_bind h
    cases h₁
    exact .inr ⟨idx, cols, rfl, hcols, rfl⟩

theorem scanKey_append (id : UInt64) (pk : Bytes) : scanKey id pk = scanKey id [] ++ pk := by
  unfold scanKey
  rw [List.append_nil, List.cons_append]

theorem length_scanKey (id : UInt64) : (scanKey id []).length = 9 := by simp [scanKey]

/-- The keys of a keyspace start with it. -/
theorem starts_space (h : x.keyAt pk row = .ok k) : x.space <+: k := by
  unfold space
  rcases keyAt_cases h with ⟨hidx, rfl⟩ | ⟨idx, cols, hidx, -, rfl⟩
  · rw [hidx, scanKey_append]
    exact List.prefix_append _ _
  · rw [hidx]
    unfold entryKey
    rw [List.append_assoc]
    exact List.prefix_append _ _

/-- **A key belongs to one primary key.** -/
theorem keyAt_inj (h : x.keyAt pk row = .ok k) (h' : x.keyAt pk' row' = .ok k) : pk = pk' := by
  rcases keyAt_cases h with ⟨hidx, rfl⟩ | ⟨idx, cols, hidx, hcols, rfl⟩
  · rcases keyAt_cases h' with ⟨-, heq⟩ | ⟨idx, cols, hidx', -, -⟩
    · rw [scanKey_append, scanKey_append _ pk'] at heq
      exact List.append_cancel_left heq
    · rw [hidx] at hidx'
      cases hidx'
  · rcases keyAt_cases h' with ⟨hidx', -⟩ | ⟨idx', cols', hidx', hcols', heq⟩
    · rw [hidx] at hidx'
      cases hidx'
    · rw [hidx] at hidx'
      cases hidx'
      unfold entryKey at heq
      rw [List.append_assoc, List.append_assoc] at heq
      exact (encodeIndexCols_append_inj hcols hcols' (List.append_cancel_left heq)).2

/-- The primary key of an entry, which the transaction's own entries hold as value in every keyspace. -/
theorem pkOf_entry (h : x.keyAt pk row = .ok k) {v : Bytes} (hv : v = pk ∨ v = x.valueAt pk) : x.pkOf (k, v) = pk := by
  unfold pkOf
  rcases keyAt_cases h with ⟨hidx, rfl⟩ | ⟨idx, cols, hidx, -, rfl⟩
  · rw [hidx, scanKey_append]
    exact List.drop_left' (length_scanKey _)
  · unfold valueAt at hv
    rw [hidx] at hv ⊢
    exact hv.elim id id

theorem entryPK_eq {kv : Bytes × Bytes} (h : x.space <+: kv.1) : entryPK x.idx.isSome kv = .ok (x.pkOf kv) := by
  unfold entryPK pkOf
  cases hidx : x.idx with
  | some idx => rfl
  | none =>
    unfold space at h
    rw [hidx] at h
    have hlen := h.length_le
    rw [length_scanKey] at hlen
    have hnot : ¬ kv.1.length < 9 := not_lt.2 hlen
    simp only [Option.isSome_none, Bool.false_eq_true, if_false, if_neg hnot]

/-! ## Bounds within a keyspace -/

/-- `[start, stop)` holds only strings that start with `pre`. -/
def Within (pre start stop : Bytes) : Prop := stop ≠ [] ∧ ∀ k, start ≤ k → k < stop → pre <+: k

theorem within_inc {pre stop : Bytes} (h : incBytes pre = some stop) : Within pre pre stop := by
  refine ⟨fun hnil => ?_, fun k hle hlt => (mem_range_iff h).1 ⟨hle, hlt⟩⟩
  have hlt := lt_incBytes h []
  rw [hnil] at hlt
  exact List.not_lt_nil _ hlt

end LedgerIndex

/-! ## Partitions -/

open LedgerIndex

/-- The partition scans `[start, stop)` of a keyspace: all of the primary one, or a range within any. -/
inductive Partition.Scans (x : LedgerIndex) : Partition → Bytes → Bytes → Bool → Prop
  | full {stop : Bytes} (hidx : x.idx = none) (hstop : incBytes (scanKey x.tdef.id []) = some stop) :
    Scans x (tablePartition x.tdef) (scanKey x.tdef.id []) stop false
  | range {start stop : Bytes} {reverse : Bool} (hidx : ∀ idx, x.idx = some idx → x.tdef.indexByID idx.id = some idx)
      (hwithin : Within x.space start stop) :
    Scans x (.indexRange ⟨start, stop, x.idx.map IndexDef.id, reverse⟩) start stop reverse

variable {x : LedgerIndex}

/-- What scans a keyspace stays within it. -/
theorem Partition.Scans.within {part : Partition} {reverse : Bool}
    (h : part.Scans x start stop reverse) : Within x.space start stop := by
  cases h with
  | full hidx hstop =>
    have hspace : x.space = scanKey x.tdef.id [] := by unfold space; rw [hidx]
    rw [hspace]
    exact within_inc hstop
  | range hidx hwithin => exact hwithin

theorem partitionRows_eq {L μ : Type} [LedgerApi L μ] {part : Partition} {reverse : Bool}
    (h : part.Scans x start stop reverse) (tt : TableTxn) :
    (partitionRows x.tdef tt part : SqlM L RowIter) = scanRows x.tdef tt x.idx start stop reverse := by
  cases h with
  | full hidx hstop =>
    simp only [tablePartition, partitionRows, hstop, hidx]
  | range hidx hwithin =>
    unfold partitionRows
    cases hx : x.idx with
    | none => rfl
    | some idx => simp only [Option.map_some, hidx idx hx]

end ImmutableLedger
