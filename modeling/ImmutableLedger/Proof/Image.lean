import ImmutableLedger.Proof.Catalog
import ImmutableLedger.Proof.KeySpace
import ImmutableLedger.Proof.Rebuild

/-!
# The derived image

What the derived keyspace should hold: one scan entry for every stored row of a catalogued table, and one entry for every
such row and index of its table.

* `InImage`: the entries, as a relation between keys and values.
* `EntryOf.unique`: an index key has one primary key, whatever row it was made for.
* `DerivedExact`: the two derived keyspaces hold the image and nothing else.
-/

namespace ImmutableLedger

variable {C : Crypto} {ck : Bytes} {G : GoLib} {s s' : MapSql C ck} {k : ℕ}

/-! ## Catalogued tables -/

/-- The table is catalogued. -/
theorem tableByID_iff {id : UInt64} {d : TableDef} :
    s.tableByID id = some d ↔ (∃ lower, s.tables.get lower = some id) ∧ s.defs.get id = some d := by
  have hany : (s.tables.entries.any fun e => decide (e.2 = id)) = true ↔ ∃ lower, s.tables.get lower = some id := by
    rw [List.any_eq_true]
    constructor
    · rintro ⟨⟨lower, id'⟩, he, hid⟩
      obtain rfl : id' = id := of_decide_eq_true hid
      exact ⟨lower, OrdMap.mem_entries.1 he⟩
    · rintro ⟨lower, hl⟩
      exact ⟨(lower, id), OrdMap.mem_entries.2 hl, decide_eq_true rfl⟩
  unfold SqlStore.tableByID
  by_cases h : (s.tables.entries.any fun e => decide (e.2 = id)) = true
  · rw [if_pos h]
    exact ⟨fun hd => ⟨hany.1 h, hd⟩, And.right⟩
  · rw [if_neg h]
    exact ⟨fun hd => (by cases hd), fun hd => absurd (hany.2 hd.1) h⟩

/-- The id of an index belongs to one table, and to one index of it. -/
def IndexesApart (s : MapSql C ck) : Prop :=
  ∀ {id id' : UInt64} {d d' : TableDef} {x x' : IndexDef}, s.tableByID id = some d → s.tableByID id' = some d' →
    x ∈ d.indexes → x' ∈ d'.indexes → x.id = x'.id → id = id' ∧ x = x'

theorem CatInv.indexesApart (h : CatInv G k s) : IndexesApart s := by
  intro id id' d d' x x' hd hd' hx hx' hid
  obtain ⟨⟨lower, hl⟩, hget⟩ := tableByID_iff.1 hd
  obtain ⟨⟨lower', hl'⟩, hget'⟩ := tableByID_iff.1 hd'
  have hname := h.indexOwner lower lower' id id' d d' hl hl' hget hget' x hx x' hx' hid
  rw [hname] at hl
  obtain rfl : id = id' := Option.some.inj (hl.symm.trans hl')
  obtain rfl : d = d' := Option.some.inj (hget.symm.trans hget')
  exact ⟨rfl, List.inj_on_of_nodup_map (h.indexIds lower' id d hl hget).1 hx hx' hid⟩

/-! ## Entries -/

/-- The row that is stored for a primary key of a catalogued table. -/
def StoredRow (G : GoLib) (s : MapSql C ck) (id : UInt64) (pk : Bytes) (d : TableDef) (row : Row) : Prop :=
  s.tableByID id = some d ∧ ∃ data, s.led.vals.get (rowKey id pk) = some (rowPayload id data) ∧
    decodeRow G.round32 d.columns data = .ok row

/-- A key of the index keyspace. -/
def IsIndexKey (key : Bytes) : Prop := key.head? = some secondaryPrefix

/-- The key is one that an index of a catalogued table has for the primary key and some row. -/
def EntryOf (s : MapSql C ck) (key pk : Bytes) : Prop :=
  ∃ id d idx row cols, s.tableByID id = some d ∧ idx ∈ d.indexes ∧ encodeIndexCols d idx row = .ok cols ∧
    key = entryKey idx.id cols.1 pk

/-- The entries of the derived keyspace. -/
def InImage (G : GoLib) (s : MapSql C ck) (key value : Bytes) : Prop :=
  (value = [] ∧ ∃ id pk d row, StoredRow G s id pk d row ∧ key = scanKey id pk) ∨
    ∃ id d row idx cols, StoredRow G s id value d row ∧ idx ∈ d.indexes ∧ encodeIndexCols d idx row = .ok cols ∧
      key = entryKey idx.id cols.1 value

/-- **The derived keyspace is exact**: the scan keyspace and the index keyspace hold the image and nothing else. -/
def DerivedExact (G : GoLib) (s : MapSql C ck) : Prop :=
  ∀ key value, IsScanKey key ∨ IsIndexKey key → (s.led.derived.get key = some value ↔ InImage G s key value)

theorem isScanKey_scanKey (id : UInt64) (pk : Bytes) : IsScanKey (scanKey id pk) := rfl

theorem isIndexKey_entryKey (id : UInt64) (cols pk : Bytes) : IsIndexKey (entryKey id cols pk) := rfl

theorem not_isIndexKey_of_isScanKey {key : Bytes} (h : IsScanKey key) : ¬ IsIndexKey key := by
  intro hx
  have := h.symm.trans hx
  cases this

theorem scanKey_inj {id id' : UInt64} {pk pk' : Bytes} (h : scanKey id pk = scanKey id' pk') : id = id' ∧ pk = pk' := by
  have htail : Bytes.u64 id ++ pk = Bytes.u64 id' ++ pk' := (List.cons.inj h).2
  obtain ⟨hid, hpk⟩ := List.append_inj htail (by rw [Bytes.length_u64, Bytes.length_u64])
  exact ⟨Bytes.u64_inj hid, hpk⟩

theorem entryKey_inj_id {id id' : UInt64} {a b : Bytes} {pk pk' : Bytes} (h : entryKey id a pk = entryKey id' b pk') :
    id = id' ∧ a ++ pk = b ++ pk' := by
  have happ : secondarySpace id ++ (a ++ pk) = secondarySpace id' ++ (b ++ pk') := by
    rw [← List.append_assoc, ← List.append_assoc]
    exact h
  have hlen : (secondarySpace id).length = (secondarySpace id').length := by
    unfold secondarySpace
    rw [List.length_cons, List.length_cons, Bytes.length_u64, Bytes.length_u64]
  obtain ⟨hspace, hrest⟩ := List.append_inj happ hlen
  exact ⟨Bytes.u64_inj (List.cons.inj hspace).2, hrest⟩

/-- **An index key names one primary key.** -/
theorem EntryOf.unique (h : IndexesApart s) {key pk pk' : Bytes} (he : EntryOf s key pk) (he' : EntryOf s key pk') :
    pk = pk' := by
  obtain ⟨id, d, idx, row, cols, hd, hidx, hcols, rfl⟩ := he
  obtain ⟨id', d', idx', row', cols', hd', hidx', hcols', hkey⟩ := he'
  obtain ⟨hid, hrest⟩ := entryKey_inj_id hkey
  obtain ⟨rfl, rfl⟩ := h hd hd' hidx hidx' hid
  obtain rfl : d = d' := Option.some.inj (hd.symm.trans hd')
  exact (encodeIndexCols_append_inj hcols hcols' hrest).2

theorem InImage.key {key value : Bytes} (h : InImage G s key value) : IsScanKey key ∨ IsIndexKey key := by
  rcases h with ⟨-, id, pk, d, row, -, rfl⟩ | ⟨id, d, row, idx, cols, -, -, -, rfl⟩
  · exact .inl (isScanKey_scanKey id pk)
  · exact .inr (isIndexKey_entryKey idx.id cols.1 value)

theorem InImage.entryOf {key value : Bytes} (h : InImage G s key value) (hkey : IsIndexKey key) : EntryOf s key value := by
  rcases h with ⟨-, id, pk, d, row, -, rfl⟩ | ⟨id, d, row, idx, cols, hrow, hidx, hcols, hk⟩
  · exact absurd hkey (not_isIndexKey_of_isScanKey (isScanKey_scanKey id pk))
  · exact ⟨id, d, idx, row, cols, hrow.1, hidx, hcols, hk⟩

theorem InImage.scan {key value : Bytes} (h : InImage G s key value) (hkey : IsScanKey key) : value = [] := by
  rcases h with ⟨rfl, -⟩ | ⟨id, d, row, idx, cols, -, -, -, rfl⟩
  · rfl
  · exact absurd (isIndexKey_entryKey _ _ _) (not_isIndexKey_of_isScanKey hkey)

/-- The image has one value for a key. -/
theorem InImage.unique (h : IndexesApart s) {key value value' : Bytes} (hv : InImage G s key value)
    (hv' : InImage G s key value') : value = value' := by
  rcases hv.key with hkey | hkey
  · rw [hv.scan hkey, hv'.scan hkey]
  · exact (hv.entryOf hkey).unique h (hv'.entryOf hkey)

/-! ## Index operations -/

theorem indexOpsOf_ok {d : TableDef} {row : Row} {pk : Bytes} {remove : Bool} : ∀ {idxs : List IndexDef} {ops : List BatchOp},
    indexOpsOf d row pk remove idxs = .ok ops → (∀ op ∈ ops, ∃ idx ∈ idxs, ∃ cols,
      encodeIndexCols d idx row = .ok cols ∧ op = entryOp idx.id cols.1 pk remove) ∧
    ∀ idx ∈ idxs, ∃ cols, encodeIndexCols d idx row = .ok cols ∧ entryOp idx.id cols.1 pk remove ∈ ops := by
  intro idxs
  induction idxs with
  | nil =>
    intro ops h
    cases h
    exact ⟨fun op hop => absurd hop List.not_mem_nil, fun idx hidx => absurd hidx List.not_mem_nil⟩
  | cons x idxs ih =>
    intro ops h
    obtain ⟨cols, hcols, h₁⟩ := Except.ok_of_bind h
    obtain ⟨rest, hrest, h₂⟩ := Except.ok_of_bind h₁
    cases h₂
    obtain ⟨honly, hall⟩ := ih hrest
    refine ⟨fun op hop => ?_, fun idx hidx => ?_⟩
    · rcases List.mem_cons.1 hop with rfl | hop
      · exact ⟨x, List.mem_cons_self, cols, hcols, rfl⟩
      · obtain ⟨idx, hidx, hrow⟩ := honly op hop
        exact ⟨idx, List.mem_cons_of_mem _ hidx, hrow⟩
    · rcases List.mem_cons.1 hidx with rfl | hidx
      · exact ⟨cols, hcols, List.mem_cons_self⟩
      · obtain ⟨cols', hcols', hmem⟩ := hall idx hidx
        exact ⟨cols', hcols', List.mem_cons_of_mem _ hmem⟩

end ImmutableLedger
