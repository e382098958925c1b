import ImmutableLedger.Lib.View
import ImmutableLedger.Proof.Scan
import ImmutableLedger.Proof.StoreInv

/-!
# Upkeep of the derived keyspaces

The scan keyspace and the index keyspace are a view of the stored rows and the catalog. A commit writes the rows and, in its
second batch, the entries that change with them.

* `moves_of_rowOps`: the operations of a pending row bring its entries from the old row to the new one.
* `BuildsTables.chain`: so do the operations of a transaction, row by row.
* `deleteRowOps_built`: the loop over the rows of a table issues the operations of pending deletes.
* `buildIndex_mem`, `indexEntries_mem`: the entries that are made for a new index, and removed with an index.
-/

namespace ImmutableLedger

open EStateM

variable {C : Crypto} {ck : Bytes} {G : GoLib} {s s' : MapSql C ck}

/-! ## The view -/

/-- The rows of a map by logical keys, by table and primary key. -/
def rowsIn (vals : OrdMap Bytes Bytes) (k : UInt64 × Bytes) : Option Bytes := vals.get (rowKey k.1 k.2)

/-- The entries of a stored row. -/
def EntryFor (G : GoLib) (s : MapSql C ck) (k : UInt64 × Bytes) (raw key value : Bytes) : Prop :=
  ∃ d data row, s.tableByID k.1 = some d ∧ raw = rowPayload k.1 data ∧ decodeRow G.round32 d.columns data = .ok row ∧
    ((value = [] ∧ key = scanKey k.1 k.2) ∨
      (value = k.2 ∧ ∃ idx ∈ d.indexes, ∃ cols, encodeIndexCols d idx row = .ok cols ∧ key = entryKey idx.id cols.1 k.2))

theorem scanKey_ne_entryKey {id id' : UInt64} {pk cols pk' : Bytes} : scanKey id pk ≠ entryKey id' cols pk' := fun h =>
  not_isIndexKey_of_isScanKey (isScanKey_scanKey id pk) (h ▸ isIndexKey_entryKey id' cols pk')

theorem EntryFor.owner (h : IndexesApart s) {k k' : UInt64 × Bytes} {raw raw' key value value' : Bytes}
    (he : EntryFor G s k raw key value) (he' : EntryFor G s k' raw' key value') : k = k' ∧ value = value' := by
  obtain ⟨d, data, row, hd, -, -, hkey⟩ := he
  obtain ⟨d', data', row', hd', -, -, hkey'⟩ := he'
  rcases hkey with ⟨rfl, hk⟩ | ⟨rfl, idx, hidx, cols, hcols, hk⟩
  · rcases hkey' with ⟨rfl, hk'⟩ | ⟨-, idx', -, cols', -, hk'⟩
    · obtain ⟨h₁, h₂⟩ := scanKey_inj (hk.symm.trans hk')
      exact ⟨Prod.ext h₁ h₂, rfl⟩
    · exact absurd (hk.symm.trans hk') scanKey_ne_entryKey
  · rcases hkey' with ⟨-, hk'⟩ | ⟨rfl, idx', hidx', cols', hcols', hk'⟩
    · exact absurd (hk'.symm.trans hk) scanKey_ne_entryKey
    · -- the index is the same, so the columns can be taken off
      obtain ⟨hid, hrest⟩ := entryKey_inj_id (hk.symm.trans hk')
      obtain ⟨h₁, rfl⟩ := h hd hd' hidx hidx' hid
      rw [h₁] at hd
      obtain rfl : d = d' := Option.some.inj (hd.symm.trans hd')
      have h₂ := (encodeIndexCols_append_inj hcols hcols' hrest).2
      exact ⟨Prod.ext h₁ h₂, h₂⟩

/-- The derived keyspaces as a view of the rows. -/
def imageView (G : GoLib) (s : MapSql C ck) (h : IndexesApart s) : View (UInt64 × Bytes) Bytes Bytes Bytes where
  entries := EntryFor G s
  owner he he' := (he.owner h he').1
  single he he' := (he.owner h he').2

/-- What the view has of the rows of a store with the same catalog is its image. -/
theorem holds_iff (h : IndexesApart s) (htables : s'.tables = s.tables) (hdefs : s'.defs = s.defs) {key value : Bytes} :
    (imageView G s h).Holds (rowsIn s'.led.vals) key value ↔ InImage G s' key value := by
  have hid : ∀ id, s'.tableByID id = s.tableByID id := fun id => tableByID_congr htables hdefs
  constructor
  · rintro ⟨⟨id, pk⟩, raw, hraw, d, data, row, hd, rfl, hdec, hkey⟩
    have hrow : StoredRow G s' id pk d row := ⟨(hid id).trans hd, data, hraw, hdec⟩
    rcases hkey with ⟨hv, hk⟩ | ⟨hv, idx, hidx, cols, hcols, hk⟩
    · exact .inl ⟨hv, id, pk, d, row, hrow, hk⟩
    · subst hv
      exact .inr ⟨id, d, row, idx, cols, hrow, hidx, hcols, hk⟩
  · rintro (⟨hv, id, pk, d, row, ⟨hd, data, hraw, hdec⟩, hk⟩ | ⟨id, d, row, idx, cols, ⟨hd, data, hraw, hdec⟩, hidx, hcols, hk⟩)
    · exact ⟨(id, pk), _, hraw, d, data, row, (hid id).symm.trans hd, rfl, hdec, .inl ⟨hv, hk⟩⟩
    · exact ⟨(id, value), _, hraw, d, data, row, (hid id).symm.trans hd, rfl, hdec, .inr ⟨rfl, idx, hidx, cols, hcols, hk⟩⟩

/-- The derived keyspaces hold for the key what the image has. -/
def ExactAt (G : GoLib) (s : MapSql C ck) (key : Bytes) : Prop :=
  ∀ value, s.led.derived.get key = some value ↔ InImage G s key value

theorem derivedExact_iff : DerivedExact G s ↔ ∀ key, IsScanKey key ∨ IsIndexKey key → ExactAt G s key :=
  ⟨fun h key hkey value => h key value hkey, fun h key value hkey => h key hkey value⟩

theorem at_iff_exactAt (h : IndexesApart s) (htables : s'.tables = s.tables) (hdefs : s'.defs = s.defs) {key : Bytes} :
    (imageView G s h).At (rowsIn s'.led.vals) s'.led.derived.get key ↔ ExactAt G s' key := by
  unfold View.At ExactAt
  simp only [holds_iff h htables hdefs]

theorem Shape.indexesApart (h : Shape s) : IndexesApart s := by
  intro id id' d d' x x' hd hd' hx hx' hid
  have hget := tableByID_eq_some hd
  have hget' := tableByID_eq_some hd'
  obtain rfl := h.defs.owner id id' d d' hget hget' x hx x' hx' hid
  obtain rfl : d = d' := Option.some.inj (hget.symm.trans hget')
  exact ⟨rfl, List.inj_on_of_nodup_map (h.defs.indexIds id d hget).1 hx hx' hid⟩

/-! ## One pending row -/

/-- The stored form of a row. -/
def rawOf (d : TableDef) (o : Option Row) : Option Bytes :=
  o.bind fun row => (encodeRow d.columns row).toOption.map (rowPayload d.id)

variable {d : TableDef}

theorem rawOf_some {row : Row} {data : Bytes} (h : encodeRow d.columns row = .ok data) :
    rawOf d (some row) = some (rowPayload d.id data) := by
  unfold rawOf
  rw [Option.bind_some, h]
  rfl

theorem Matches.rawOf_eq {raw : Option Bytes} {old : Option Row} (h : Matches d raw old) : rawOf d old = raw := by
  cases h with
  | absent => rfl
  | row henc => exact rawOf_some henc

variable {q : List Op × List BatchOp}

section
variable {id : UInt64} {d : TableDef} {pk key value : Bytes} {row : Row}

/-- The entries of a row of the engine. -/
theorem entryFor_iff (hd : s.tableByID id = some d) (hid : d.id = id) (hrow : GoodRow G d pk row) {raw : Bytes}
    (hraw : rawOf d (some row) = some raw) : EntryFor G s (id, pk) raw key value ↔
      (value = [] ∧ key = scanKey id pk) ∨
        (value = pk ∧ ∃ idx ∈ d.indexes, ∃ cols, encodeIndexCols d idx row = .ok cols ∧ key = entryKey idx.id cols.1 pk) := by
  obtain ⟨data, henc, hdec⟩ := hrow.engine.decodes
  rw [rawOf_some henc, hid] at hraw
  obtain rfl := Option.some.inj hraw
  -- the row that is read back has the same index columns
  have hcols : ∀ idx, encodeIndexCols d idx (Row.stored row) = encodeIndexCols d idx row :=
    fun idx => (hrow.engine.alike.encodeIndexCols idx).symm
  constructor
  · rintro ⟨d', data', row', hd', hdata, hdec', hkey⟩
    obtain rfl : d = d' := Option.some.inj (hd.symm.trans hd')
    have hdata' : data = data' := by
      rw [← drop_payload id data, hdata, drop_payload]
    rw [← hdata', hdec] at hdec'
    obtain rfl := Except.ok.inj hdec'
    simp only [hcols] at hkey
    exact hkey
  · intro hkey
    refine ⟨d, data, _, hd, rfl, hdec, ?_⟩
    simp only [hcols]
    exact hkey

/-- The keys of the index entries of a row, if there is one. -/
def IndexKeyFor (d : TableDef) (pk : Bytes) (o : Option Row) (key : Bytes) : Prop :=
  ∃ row, o = some row ∧ ∃ idx ∈ d.indexes, ∃ cols, encodeIndexCols d idx row = .ok cols ∧ key = entryKey idx.id cols.1 pk

/-- The derived operations of a pending row: its scan entry, then the index entries of the old row go and those of the new
row come. -/
structure ScanOpsOf (d : TableDef) (pk : Bytes) (p : PendingRow) (removed added : List BatchOp) : Prop where
  removes : ∀ op ∈ removed, (if op.delete then none else some op.value) = none ∧ IndexKeyFor d pk p.old op.key
  allRemoved : ∀ key, IndexKeyFor d pk p.old key → ∃ op ∈ removed, op.key = key
  adds : ∀ op ∈ added, (if op.delete then none else some op.value) = some pk ∧ IndexKeyFor d pk p.new op.key
  allAdded : ∀ key, IndexKeyFor d pk p.new key → ∃ op ∈ added, op.key = key

theorem keys_of_indexOps {remove : Bool} {ops : List BatchOp} (h : indexOps d row pk remove = .ok ops) :
    (∀ op ∈ ops, (if op.delete then none else some op.value) = (if remove then none else some pk) ∧
        IndexKeyFor d pk (some row) op.key) ∧
      ∀ key, IndexKeyFor d pk (some row) key → ∃ op ∈ ops, op.key = key := by
  obtain ⟨honly, hall⟩ := indexOpsOf_ok h
  have hkey : ∀ idxID cols, (entryOp idxID cols pk remove).key = entryKey idxID cols pk := by
    intro idxID cols
    cases remove <;> rfl
  refine ⟨fun op hop => ?_, fun key hk => ?_⟩
  · obtain ⟨idx, hidx, cols, hcols, rfl⟩ := honly op hop
    refine ⟨?_, row, rfl, idx, hidx, cols, hcols, hkey idx.id cols.1⟩
    cases remove <;> rfl
  · obtain ⟨row', hrow', idx, hidx, cols, hcols, rfl⟩ := hk
    obtain rfl := Option.some.inj hrow'
    obtain ⟨cols', hcols', hmem⟩ := hall idx hidx
    obtain rfl := Except.ok.inj (hcols.symm.trans hcols')
    exact ⟨_, hmem, hkey idx.id cols.1⟩

theorem not_indexKeyFor_none : ¬ IndexKeyFor d pk none key := by
  rintro ⟨row, hrow, -⟩
  cases hrow

/-- **The derived operations of a pending row.** -/
theorem RowOps.scanOpsOf {p : PendingRow} (h : RowOps d pk p q) (hne : ¬ p.Noop) :
    ∃ removed added, q.2 = ⟨scanKey d.id pk, [], p.new.isNone⟩ :: (removed ++ added) ∧ ScanOpsOf d pk p removed added := by
  cases h with
  | noop => exact absurd ⟨rfl, rfl⟩ hne
  | @delete old removed hr =>
    obtain ⟨hremoves, hall⟩ := keys_of_indexOps hr
    refine ⟨removed, [], by rw [List.append_nil]; rfl, hremoves, hall, fun op hop => absurd hop List.not_mem_nil,
      fun key hkey => ?_⟩
    exact absurd hkey not_indexKeyFor_none
  | @insert new value added hv ha =>
    obtain ⟨hadds, hall⟩ := keys_of_indexOps ha
    refine ⟨[], added, rfl, fun op hop => absurd hop List.not_mem_nil, fun key hkey => ?_, hadds, hall⟩
    exact absurd hkey not_indexKeyFor_none
  | @update old new value removed added hv hr ha =>
    obtain ⟨hremoves, hall⟩ := keys_of_indexOps hr
    obtain ⟨hadds, hall'⟩ := keys_of_indexOps ha
    exact ⟨removed, added, rfl, hremoves, hall, hadds, hall'⟩

section
variable {p : PendingRow} {removed added : List BatchOp} {D : MemBackend}

theorem not_indexKeyFor_scanKey {o : Option Row} {id : UInt64} {pk' : Bytes} : ¬ IndexKeyFor d pk o (scanKey id pk') := by
  rintro ⟨row, -, idx, -, cols, -, hk⟩
  exact scanKey_ne_entryKey hk

theorem ScanOpsOf.get_added (h : ScanOpsOf d pk p removed added) (op : BatchOp) (hkey : IndexKeyFor d pk p.new key) :
    (D.writeBatch (op :: (removed ++ added))).get key = some pk := by
  rw [← List.cons_append, writeBatch_append]
  exact MemBackend.get_writeBatch (h.allAdded key hkey) (fun op' hop' _ => (h.adds op' hop').1) _

theorem ScanOpsOf.get_removed (h : ScanOpsOf d pk p removed added) (op : BatchOp) (hold : IndexKeyFor d pk p.old key)
    (hnew : ¬ IndexKeyFor d pk p.new key) : (D.writeBatch (op :: (removed ++ added))).get key = none := by
  have hnot : ∀ op' ∈ added, op'.key ≠ key := fun op' hop' hk => hnew (hk ▸ (h.adds op' hop').2)
  rw [← List.cons_append, writeBatch_append, MemBackend.get_writeBatch_of_notin hnot]
  have hcons : D.writeBatch (op :: removed) = (D.applyOp op).writeBatch removed := rfl
  rw [hcons]
  exact MemBackend.get_writeBatch (h.allRemoved key hold) (fun op' hop' _ => (h.removes op' hop').1) _

theorem ScanOpsOf.get_rest (h : ScanOpsOf d pk p removed added) (op : BatchOp) (hold : ¬ IndexKeyFor d pk p.old key)
    (hnew : ¬ IndexKeyFor d pk p.new key) : (D.writeBatch (op :: (removed ++ added))).get key = (D.applyOp op).get key := by
  have hcons : D.writeBatch (op :: (removed ++ added)) = (D.applyOp op).writeBatch (removed ++ added) := rfl
  rw [hcons]
  refine MemBackend.get_writeBatch_of_notin (fun op' hop' hk => ?_) _
  rcases List.mem_append.1 hop' with hop' | hop'
  · exact hold (hk ▸ (h.removes op' hop').2)
  · exact hnew (hk ▸ (h.adds op' hop').2)

/-- Whether a pending row's side has entries. -/
theorem owns_rawOf (hapart : IndexesApart s) (hd : s.tableByID id = some d) (hid : d.id = id) {o : Option Row}
    (hrow : ∀ row, o = some row → GoodRow G d pk row) : (imageView G s hapart).Owns (id, pk) (rawOf d o) key ↔
      (o ≠ none ∧ key = scanKey id pk) ∨ IndexKeyFor d pk o key := by
  cases o with
  | none =>
    constructor
    · rintro ⟨raw, v, hraw, -⟩
      cases hraw
    · rintro (⟨hne, -⟩ | hkey)
      · exact absurd rfl hne
      · exact absurd hkey not_indexKeyFor_none
  | some row =>
    obtain ⟨data, henc, -⟩ := (hrow row rfl).engine.decodes
    have hraw := rawOf_some henc
    have hentry : ∀ v, EntryFor G s (id, pk) _ key v ↔ _ := fun _ => entryFor_iff hd hid (hrow row rfl) hraw
    constructor
    · rintro ⟨raw, v, hraw', hent⟩
      rcases (entryFor_iff hd hid (hrow row rfl) hraw').1 hent with ⟨-, hk⟩ | ⟨-, hk⟩
      · exact .inl ⟨by simp, hk⟩
      · exact .inr ⟨row, rfl, hk⟩
    · rintro (⟨-, hk⟩ | ⟨row', hrow', hk⟩)
      · exact ⟨_, [], hraw, (hentry []).2 (.inl ⟨rfl, hk⟩)⟩
      · obtain rfl := Option.some.inj hrow'
        exact ⟨_, pk, hraw, (hentry pk).2 (.inr ⟨rfl, hk⟩)⟩

/-- **The operations of a pending row** bring the entries of its key from the old row to the new one. -/
theorem moves_of_rowOps (hapart : IndexesApart s) (hd : s.tableByID id = some d) (hid : d.id = id)
    (hgood : GoodPending G d pk p) (hne : ¬ p.Noop) (hq : buildRowOps d pk p = .ok q) :
    (imageView G s hapart).Moves (id, pk) (rawOf d p.old) (rawOf d p.new) D.get (D.writeBatch q.2).get ∧
      ∀ key, (∃ op ∈ q.2, op.key = key) ↔ (imageView G s hapart).Owns (id, pk) (rawOf d p.old) key ∨
        (imageView G s hapart).Owns (id, pk) (rawOf d p.new) key := by
  obtain ⟨removed, added, hops, hof⟩ := (rowOps_of_ok hq).scanOpsOf hne
  have hold : ∀ key, (imageView G s hapart).Owns (id, pk) (rawOf d p.old) key ↔ _ :=
    fun key => owns_rawOf hapart hd hid hgood.old
  have hnew : ∀ key, (imageView G s hapart).Owns (id, pk) (rawOf d p.new) key ↔ _ :=
    fun key => owns_rawOf hapart hd hid hgood.new
  have hscan : (D.writeBatch q.2).get (scanKey id pk) = if p.new.isNone then none else some [] := by
    rw [hops, hof.get_rest _ not_indexKeyFor_scanKey not_indexKeyFor_scanKey, MemBackend.get_applyOp, hid, if_pos rfl]
  refine ⟨⟨fun raw hraw key v hent => ?_, fun key ho hn => ?_, fun key ho hn => ?_⟩, fun key => ⟨?_, ?_⟩⟩
  · -- an entry of the new row has been put
    obtain ⟨row, hrow⟩ : ∃ row, p.new = some row := by
      cases hp : p.new with
      | none =>
        rw [hp] at hraw
        cases hraw
      | some row => exact ⟨row, rfl⟩
    rw [hrow] at hraw
    rcases (entryFor_iff hd hid (hgood.new row hrow) hraw).1 hent with ⟨rfl, rfl⟩ | ⟨rfl, hk⟩
    · rw [hscan, hrow]
      rfl
    · rw [hops]
      exact hof.get_added _ ⟨row, hrow, hk⟩
  · rw [hold] at ho
    rw [hnew, not_or] at hn
    rcases ho with ⟨-, rfl⟩ | hk
    · have hnone : p.new = none := by
        by_contra hsome
        exact hn.1 ⟨hsome, rfl⟩
      rw [hscan, hnone]
      rfl
    · rw [hops]
      exact hof.get_removed _ hk hn.2
  · rw [hold, not_or] at ho
    rw [hnew, not_or] at hn
    -- the scan key belongs to one of the two rows
    have hkey : key ≠ scanKey id pk := by
      rintro rfl
      refine hne ⟨?_, ?_⟩
      · by_contra hsome
        exact ho.1 ⟨hsome, rfl⟩
      · by_contra hsome
        exact hn.1 ⟨hsome, rfl⟩
    rw [hops, hof.get_rest _ ho.2 hn.2, MemBackend.get_applyOp, hid, if_neg hkey]
  · rintro ⟨op, hop, rfl⟩
    rw [hold, hnew]
    rw [hops] at hop
    rcases List.mem_cons.1 hop with rfl | hop
    · by_cases hn : p.new = none
      · refine .inl (.inl ⟨fun ho => hne ⟨ho, hn⟩, by rw [hid]⟩)
      · exact .inr (.inl ⟨hn, by rw [hid]⟩)
    · rcases List.mem_append.1 hop with hop | hop
      · exact .inl (.inr (hof.removes op hop).2)
      · exact .inr (.inr (hof.adds op hop).2)
  · rw [hold, hnew, hops]
    -- the scan entry comes first, then the entries of the old row, then those of the new one
    rintro ((⟨-, rfl⟩ | hkey) | (⟨-, rfl⟩ | hkey))
    · exact ⟨_, List.mem_cons_self, by rw [hid]⟩
    · obtain ⟨op, hop, hk⟩ := hof.allRemoved key hkey
      exact ⟨op, List.mem_cons_of_mem _ (List.mem_append_left _ hop), hk⟩
    · exact ⟨_, List.mem_cons_self, by rw [hid]⟩
    · obtain ⟨op, hop, hk⟩ := hof.allAdded key hkey
      exact ⟨op, List.mem_cons_of_mem _ (List.mem_append_right _ hop), hk⟩

end

end

/-! ## The rows of a transaction -/

theorem writeOps_append (vals : OrdMap Bytes Bytes) (ops ops' : List Op) :
    writeOps vals (ops ++ ops') = writeOps (writeOps vals ops) ops' := by
  unfold writeOps
  rw [List.map_append, writeBatch_append]

theorem rowKey_inj {id id' : UInt64} {pk pk' : Bytes} (h : rowKey id pk = rowKey id' pk') : id = id' ∧ pk = pk' :=
  SqlKey.row.inj (SqlKey.bytes_inj (a := .row id pk) (b := .row id' pk') h)

theorem rowsIn_of_notin {vals : OrdMap Bytes Bytes} {ops : List Op} {k : UInt64 × Bytes}
    (h : ∀ op ∈ ops, op.key ≠ rowKey k.1 k.2) : rowsIn (writeOps vals ops) k = rowsIn vals k := get_writeOps_of_notin h

theorem exists_mem_append {ops ops' : List BatchOp} {key : Bytes} :
    (∃ op ∈ ops ++ ops', op.key = key) ↔ (∃ op ∈ ops, op.key = key) ∨ ∃ op ∈ ops', op.key = key := by
  simp only [List.mem_append, or_and_right, exists_or]

variable {scanOps : List BatchOp} {ledOps : List Op}

section
variable {id : UInt64} {d : TableDef} {pk : Bytes} {p : PendingRow}

/-- The ledger operation of a pending row. -/
theorem rowsIn_rowOps (hid : d.id = id) (hne : ¬ p.Noop) (hq : buildRowOps d pk p = .ok q) (vals : OrdMap Bytes Bytes) :
    rowsIn (writeOps vals q.1) = Function.update (rowsIn vals) (id, pk) (rawOf d p.new) := by
  -- there is one operation, on the key of the row
  obtain ⟨op, hone, hkey, hval⟩ : ∃ op, q.1 = [op] ∧ op.key = rowKey id pk ∧
      (if op.delete then none else some op.value) = rawOf d p.new := by
    have hrow := rowOps_of_ok hq
    subst hid
    cases hrow with
    | noop => exact absurd ⟨rfl, rfl⟩ hne
    | delete hr => exact ⟨_, rfl, rfl, rfl⟩
    | insert hv ha | update hv hr ha => exact ⟨_, rfl, rfl, (rawOf_some hv).symm⟩
  funext k
  by_cases hk : k = (id, pk)
  · subst hk
    rw [Function.update_self, hone]
    refine get_writeOps ⟨op, List.mem_singleton_self op, hkey⟩ fun op' hop' _ => ?_
    rw [List.mem_singleton.1 hop']
    exact hval
  · rw [Function.update_of_ne hk, hone]
    refine rowsIn_of_notin fun op' hop' he => hk ?_
    rw [List.mem_singleton.1 hop', hkey] at he
    obtain ⟨h₁, h₂⟩ := rowKey_inj he
    exact Prod.ext h₁.symm h₂.symm

/-- **The rows of a table**, one after the other. -/
theorem BuildsRows.chain (hapart : IndexesApart s) (hd : s.tableByID id = some d) (hid : d.id = id)
    {ps : List (Bytes × PendingRow)} (h : BuildsRows d ps ledOps scanOps) :
    ∀ (vals : OrdMap Bytes Bytes) (D : MemBackend), (ps.map Prod.fst).Nodup → (∀ e ∈ ps, GoodPending G d e.1 e.2) →
      (∀ e ∈ ps, ¬ e.2.Noop → Matches d (rowsIn vals (id, e.1)) e.2.old) →
      ∃ cs, (imageView G s hapart).Chain (rowsIn vals) D.get cs (rowsIn (writeOps vals ledOps)) (D.writeBatch scanOps).get ∧
        ∀ key, (imageView G s hapart).Touched (rowsIn vals) cs key ↔ ∃ op ∈ scanOps, op.key = key := by
  induction h with
  | nil => exact fun vals D _ _ _ => ⟨[], .nil, fun key => by simp [View.Touched]⟩
  | @cons pk p q ps ledOps scanOps hq _ ih =>
    intro vals D hnodup hgood hbased
    obtain ⟨hnot, hnodup⟩ := List.nodup_cons.1 hnodup
    have hgood' : ∀ e ∈ ps, GoodPending G d e.1 e.2 := fun e he => hgood e (List.mem_cons_of_mem _ he)
    by_cases hne : p.Noop
    · obtain rfl := Except.ok.inj ((buildRowOps_noop hne).symm.trans hq)
      exact ih vals D hnodup hgood' fun e he => hbased e (List.mem_cons_of_mem _ he)
    · have hnext := rowsIn_rowOps hid hne hq vals
      obtain ⟨hmove, htouch⟩ := moves_of_rowOps (D := D) hapart hd hid (hgood _ List.mem_cons_self) hne hq
      have hM : rawOf d p.old = rowsIn vals (id, pk) := (hbased _ List.mem_cons_self hne).rawOf_eq
      rw [hM] at hmove htouch
      -- the other rows are not touched by this one
      obtain ⟨cs, hchain, hrest⟩ := ih (writeOps vals q.1) (D.writeBatch q.2) hnodup hgood' fun e he hn => by
        have hk : ((id, e.1) : UInt64 × Bytes) ≠ (id, pk) := by
          intro heq
          have hpk : e.1 = pk := (Prod.mk.inj heq).2
          have hmem : e.1 ∈ ps.map Prod.fst := List.mem_map_of_mem he
          rw [hpk] at hmem
          exact hnot hmem
        rw [hnext, Function.update_of_ne hk]
        exact hbased e (List.mem_cons_of_mem _ he) hn
      rw [hnext] at hchain hrest
      refine ⟨((id, pk), rawOf d p.new) :: cs, ?_, fun key => ?_⟩
      · rw [writeOps_append, writeBatch_append]
        exact .cons hmove hchain
      · rw [exists_mem_append, htouch key, ← hrest key]
        exact or_assoc.symm

/-- The operations of a table leave the rows of the others. -/
theorem BuildsRows.rowsIn_other {ps : List (Bytes × PendingRow)}
    (h : BuildsRows d ps ledOps scanOps) (vals : OrdMap Bytes Bytes) {k : UInt64 × Bytes} (hk : k.1 ≠ d.id) :
    rowsIn (writeOps vals ledOps) k = rowsIn vals k := by
  refine rowsIn_of_notin fun op hop he => hk ?_
  obtain ⟨e, -, hkey⟩ := h.opsOf.keys op hop
  exact (rowKey_inj (he.symm.trans hkey)).1

theorem rowsIn_counterOps (vals : OrdMap Bytes Bytes) (d : TableDef) : rowsIn (writeOps vals (counterOps d)) = rowsIn vals := by
  funext k
  refine rowsIn_of_notin fun op hop he => ?_
  unfold counterOps at hop
  split at hop
  · obtain rfl := List.mem_singleton.1 hop
    exact absurd (SqlKey.bytes_inj (a := .counter d.id) (b := .row k.1 k.2) he) (by simp)
  · cases hop

end

/-- **The buffers of a transaction**, one after the other. -/
theorem BuildsTables.chain (hs : Shape s) {tts : List (UInt64 × TableTxn)} (h : BuildsTables s tts ledOps scanOps) :
    ∀ (vals : OrdMap Bytes Bytes) (D : MemBackend), (tts.map Prod.fst).Nodup →
      (∀ e ∈ tts, ∀ d, s.tableByID e.1 = some d → ∀ pk p, e.2.get pk = some p → GoodPending G d pk p) →
      (∀ e ∈ tts, ∀ d, s.tableByID e.1 = some d → ∀ pk p, e.2.get pk = some p → ¬ p.Noop →
        Matches d (rowsIn vals (e.1, pk)) p.old) →
      ∃ cs, (imageView G s hs.indexesApart).Chain (rowsIn vals) D.get cs (rowsIn (writeOps vals ledOps))
          (D.writeBatch scanOps).get ∧
        ∀ key, (imageView G s hs.indexesApart).Touched (rowsIn vals) cs key ↔ ∃ op ∈ scanOps, op.key = key := by
  induction h with
  | nil => exact fun vals D _ _ _ => ⟨[], .nil, fun key => by simp [View.Touched]⟩
  | @cons id tt d rowOps ledOps rowScan scanOps tts hd hrows _ ih =>
    intro vals D hnodup hgood hbased
    obtain ⟨hnot, hnodup⟩ := List.nodup_cons.1 hnodup
    have hid : d.id = id := hs.ownIds id d (tableByID_eq_some hd)
    obtain ⟨cs, hchain, htouch⟩ := hrows.chain hs.indexesApart hd hid vals D tt.nodup_keys
      (fun e he => hgood _ List.mem_cons_self d hd e.1 e.2 (OrdMap.mem_entries.1 he))
      fun e he hn => hbased _ List.mem_cons_self d hd e.1 e.2 (OrdMap.mem_entries.1 he) hn
    -- the rows of the other tables stay
    obtain ⟨cs', hchain', htouch'⟩ := ih (writeOps (writeOps vals rowOps) (counterOps d)) (D.writeBatch rowScan) hnodup
      (fun e he => hgood e (List.mem_cons_of_mem _ he)) fun e he d' hd' pk p hp hn => by
        have hne : e.1 ≠ d.id := by
          intro heq
          have hmem : e.1 ∈ tts.map Prod.fst := List.mem_map_of_mem he
          rw [heq, hid] at hmem
          exact hnot hmem
        rw [rowsIn_counterOps, hrows.rowsIn_other vals (k := (e.1, pk)) hne]
        exact hbased e (List.mem_cons_of_mem _ he) d' hd' pk p hp hn
    rw [rowsIn_counterOps] at hchain' htouch'
    refine ⟨cs ++ cs', ?_, fun key => ?_⟩
    · rw [writeOps_append, writeOps_append, writeBatch_append]
      exact hchain.append hchain'
    · rw [exists_mem_append, hchain.touched_append, htouch key, htouch' key]

/-! ## Scans of a whole space -/

/-- A scan from a string to its successor reads what starts with the string. -/
theorem mem_scan_space {D : MemBackend} {space stop : Bytes} (hinc : incBytes space = some stop) {e : Bytes × Bytes} :
    e ∈ D.scan space stop 0 ↔ D.get e.1 = some e.2 ∧ space <+: e.1 := by
  have hstop : stop ≠ [] := (LedgerIndex.within_inc hinc).1
  rw [MemBackend.mem_scan]
  constructor
  · rintro ⟨hget, hle, hlt⟩
    exact ⟨hget, (mem_range_iff hinc).1 ⟨hle, hlt.resolve_left hstop⟩⟩
  · rintro ⟨hget, hpre⟩
    obtain ⟨hle, hlt⟩ := (mem_range_iff hinc).2 hpre
    exact ⟨hget, hle, .inr hlt⟩

theorem incBytes_of_head {a : UInt8} (ha : a ≠ 0xFF) (p : Bytes) : ∃ stop, incBytes (a :: p) = some stop := by
  rw [incBytes_cons, if_neg ha]
  cases incBytes p with
  | none => exact ⟨_, rfl⟩
  | some q => exact ⟨_, rfl⟩

theorem scanSpace_stop (id : UInt64) : ∃ stop, incBytes (scanKey id []) = some stop := incBytes_of_head (by decide) _

theorem secondarySpace_stop (id : UInt64) : ∃ stop, incBytes (secondarySpace id) = some stop := incBytes_of_head (by decide) _

variable {id : UInt64}

theorem starts_scanSpace {key : Bytes} (h : scanKey id [] <+: key) : key = scanKey id (key.drop 9) := by
  obtain ⟨pk, rfl⟩ := h
  rw [List.drop_left' (LedgerIndex.length_scanKey id), ← LedgerIndex.scanKey_append]

/-- The entries of a table that a scan of its keyspace reads. -/
theorem mem_scanPage {kv : Bytes × Bytes} (h : kv ∈ scanPage s id) :
    s.led.derived.get kv.1 = some kv.2 ∧ kv.1 = scanKey id (kv.1.drop 9) := by
  obtain ⟨stop, hstop⟩ := scanSpace_stop id
  unfold scanPage at h
  rw [hstop, Option.getD_some, MemBackend.scan_eq_take (by decide)] at h
  obtain ⟨hget, hpre⟩ := (mem_scan_space hstop).1 (List.mem_of_mem_take h)
  exact ⟨hget, starts_scanSpace hpre⟩

theorem nodup_scanPage (s : MapSql C ck) (id : UInt64) :
    ((scanPage s id).map fun kv => kv.1.drop 9).Nodup := by
  have hkeys : ((scanPage s id).map Prod.fst).Nodup := by
    unfold scanPage
    rw [MemBackend.scan_eq_take (by decide)]
    exact (MemBackend.asc_scan _ _ _).nodup_keys.sublist ((List.take_sublist _ _).map _)
  refine List.Nodup.of_map (f := scanKey id) ?_
  rw [List.map_map]
  have hsame : (scanPage s id).map (scanKey id ∘ fun kv => kv.1.drop 9) = (scanPage s id).map Prod.fst :=
    List.map_congr_left fun kv hkv => (mem_scanPage hkv).2.symm
  rw [hsame]
  exact hkeys

theorem scanPage_eq_nil (h : scanPage s id = []) (pk : Bytes) : s.led.derived.get (scanKey id pk) = none := by
  obtain ⟨stop, hstop⟩ := scanSpace_stop id
  cases hget : s.led.derived.get (scanKey id pk) with
  | none => rfl
  | some v =>
    unfold scanPage at h
    have hpre : scanKey id [] <+: scanKey id pk := by
      rw [LedgerIndex.scanKey_append id pk]
      exact List.prefix_append _ _
    have hmem : (scanKey id pk, v) ∈ s.led.derived.scan (scanKey id []) stop 0 := (mem_scan_space hstop).2 ⟨hget, hpre⟩
    rw [hstop, Option.getD_some, MemBackend.scan_eq_take (by decide), List.take_eq_nil_iff] at h
    rw [h.resolve_left (by decide)] at hmem
    cases hmem

/-! ## The loops over the rows of a table -/

theorem readRowLocked_ok {pk : Bytes} {row : Row} (h : readRowLocked G d pk s = .ok row s') :
    s' = s ∧ ∃ raw, s.led.vals.get (rowKey d.id pk) = some raw ∧ decodeRow G.round32 d.columns (raw.drop 9) = .ok row := by
  unfold readRowLocked at h
  rw [run_bind_ok (ledgerGet_run s _)] at h
  cases hraw : s.led.vals.get (rowKey d.id pk) with
  | none =>
    rw [hraw] at h
    cases h
  | some raw =>
    rw [hraw] at h
    dsimp only at h
    split at h
    · cases h
    · obtain ⟨hdec, rfl⟩ := ofSql_eq_ok h
      exact ⟨rfl, raw, rfl, hdec⟩

/-- A row that a loop over the table reads. -/
theorem readRowLocked_good (hk : Intact G s) (hd : s.tableByID id = some d) {pk : Bytes} {row : Row}
    (h : readRowLocked G d pk s = .ok row s') :
    s' = s ∧ GoodRow G d pk row ∧ Matches d (rowsIn s.led.vals (id, pk)) (some row) ∧ StoredRow G s id pk d row := by
  obtain ⟨rfl, raw, hraw, hdec⟩ := readRowLocked_ok h
  have hget := tableByID_eq_some hd
  have hid : d.id = id := hk.shape.ownIds id d hget
  rw [hid] at hraw
  have hat := hk.rows.stored id d pk raw hget hraw
  obtain ⟨hgood, hmatch⟩ := hat.decoded hdec
  obtain ⟨-, data, -, -, rfl⟩ := hat
  rw [drop_payload] at hdec
  rw [hid] at hraw hmatch
  refine ⟨rfl, hgood, ?_, hd, data, hraw, hdec⟩
  unfold rowsIn
  rw [hraw]
  exact hmatch

/-- **The loop that deletes the rows of a page** issues the operations of pending deletes. -/
theorem deleteRowOps_built (hk : Intact G s) (hd : s.tableByID id = some d) :
    ∀ {kvs : List (Bytes × Bytes)} {r : List Op × List BatchOp} {s' : MapSql C ck},
      (∀ kv ∈ kvs, kv.1 = scanKey d.id (kv.1.drop 9)) → deleteRowOps G d kvs s = .ok r s' →
      ∃ ps, BuildsRows d ps r.1 r.2 ∧ ps.map Prod.fst = kvs.map (fun kv => kv.1.drop 9) ∧
        ∀ e ∈ ps, GoodPending G d e.1 e.2 ∧ Matches d (rowsIn s.led.vals (id, e.1)) e.2.old := by
  intro kvs
  induction kvs with
  | nil =>
    intro r s' _ h
    cases h
    exact ⟨[], .nil, rfl, fun e he => absurd he List.not_mem_nil⟩
  | cons kv kvs ih =>
    intro r s' hkeys h
    obtain ⟨row, s₁, hrow, h₁⟩ := bind_eq_ok h
    obtain ⟨rfl, hgood, hmatch, -⟩ := readRowLocked_good hk hd hrow
    obtain ⟨ops, s₂, hops, h₂⟩ := bind_eq_ok h₁
    obtain ⟨hidx, rfl⟩ := ofSql_eq_ok hops
    obtain ⟨rest, s₃, hrest, h₃⟩ := bind_eq_ok h₂
    cases h₃
    obtain ⟨ps, hbuilt, hfst, hall⟩ := ih (fun kv' hkv' => hkeys kv' (List.mem_cons_of_mem _ hkv')) hrest
    have hbuild : buildRowOps d (kv.1.drop 9) { old := some row } =
        .ok ([Op.del (rowKey d.id (kv.1.drop 9))], { key := kv.1, delete := true } :: ops) := by
      show (indexOps d row (kv.1.drop 9) true >>= fun ops => _) = _
      rw [hidx, hkeys kv List.mem_cons_self]
      rfl
    refine ⟨(kv.1.drop 9, { old := some row }) :: ps, .cons hbuild hbuilt, ?_, fun e he => ?_⟩
    · rw [List.map_cons, List.map_cons, hfst]
    · rcases List.mem_cons.1 he with rfl | he
      · refine ⟨⟨fun r hr => ?_, fun r hr => ?_⟩, hmatch⟩
        · obtain rfl := Option.some.inj hr
          exact hgood
        · cases hr
      · exact hall e he

theorem StoredRow.unique {pk : Bytes} {d d' : TableDef} {row row' : Row} (h : StoredRow G s id pk d row)
    (h' : StoredRow G s id pk d' row') : d = d' ∧ row = row' := by
  obtain ⟨hd, data, hraw, hdec⟩ := h
  obtain ⟨hd', data', hraw', hdec'⟩ := h'
  obtain rfl : d = d' := Option.some.inj (hd.symm.trans hd')
  have hdata : data = data' := by
    rw [← drop_payload id data, Option.some.inj (hraw.symm.trans hraw'), drop_payload]
  rw [hdata] at hdec
  exact ⟨rfl, Except.ok.inj (hdec.symm.trans hdec')⟩

/-- The operation puts the entry of a row of the table, under the scan entry `kv`. -/
def EntryOpOf (G : GoLib) (s : MapSql C ck) (id : UInt64) (d : TableDef) (idx : IndexDef) (kv : Bytes × Bytes)
    (op : BatchOp) : Prop :=
  ∃ row cols, StoredRow G s id (kv.1.drop 9) d row ∧ encodeIndexCols d idx row = .ok cols ∧
    op = entryOp idx.id cols.1 (kv.1.drop 9) false

theorem buildEntries_mem (hk : Intact G s) (hd : s.tableByID id = some d) (idx : IndexDef) :
    ∀ {kvs : List (Bytes × Bytes)} {seen : OrdMap Bytes Bytes} {entries : List BatchOp}
      {r : OrdMap Bytes Bytes × List BatchOp} {s' : MapSql C ck},
      buildEntries G d idx kvs seen entries s = .ok r s' →
      s' = s ∧ ∀ op, op ∈ r.2 ↔ op ∈ entries ∨ ∃ kv ∈ kvs, EntryOpOf G s id d idx kv op := by
  intro kvs
  induction kvs with
  | nil =>
    intro seen entries r s' h
    cases h
    exact ⟨rfl, fun op => ⟨.inl, fun hop => hop.elim (fun h => h) fun ⟨kv, hkv, _⟩ => absurd hkv List.not_mem_nil⟩⟩
  | cons kv kvs ih =>
    intro seen entries r s' h
    obtain ⟨row, s₁, hrow, h₁⟩ := bind_eq_ok h
    obtain ⟨rfl, -, -, hstored⟩ := readRowLocked_good hk hd hrow
    obtain ⟨cols, s₂, hcols, h₂⟩ := bind_eq_ok h₁
    obtain ⟨hidx, rfl⟩ := ofSql_eq_ok hcols
    -- the rest of the page, with the entry of this row
    have hrest : ∃ seen', buildEntries G d idx kvs seen' (entries ++ [entryOp idx.id cols.1 (kv.1.drop 9) false]) s₂ =
        .ok r s' := by
      dsimp only at h₂
      split at h₂
      · split at h₂
        · cases h₂
        · exact ⟨_, h₂⟩
      · exact ⟨_, h₂⟩
    obtain ⟨seen', hrun⟩ := hrest
    obtain ⟨hstate, hmem⟩ := ih hrun
    refine ⟨hstate, fun op => ?_⟩
    rw [hmem, List.mem_append, List.mem_singleton]
    constructor
    · rintro ((hop | rfl) | ⟨kv', hkv', hop⟩)
      · exact .inl hop
      · exact .inr ⟨kv, List.mem_cons_self, row, cols, hstored, hidx, rfl⟩
      · exact .inr ⟨kv', List.mem_cons_of_mem _ hkv', hop⟩
    · rintro (hop | ⟨kv', hkv', hop⟩)
      · exact .inl (.inl hop)
      · rcases List.mem_cons.1 hkv' with rfl | hkv'
        · obtain ⟨row', cols', hstored', hidx', rfl⟩ := hop
          obtain ⟨-, rfl⟩ := hstored.unique hstored'
          obtain rfl := Except.ok.inj (hidx.symm.trans hidx')
          exact .inl (.inr rfl)
        · exact .inr ⟨kv', hkv', hop⟩

section
variable {D : MemBackend} {next stop : Bytes} {last : Bytes × Bytes}

/-- A pass in chunks ends with a chunk that is not full. -/
theorem scan_of_getLast_none (h : (D.scan next stop scanChunkSize).getLast? = none) : D.scan next stop 0 = [] := by
  have hnil := List.getLast?_eq_none_iff.1 h
  rw [MemBackend.scan_eq_take (by decide), List.take_eq_nil_iff] at hnil
  exact hnil.resolve_left (by decide)

/-- A full chunk is followed by what a scan from behind its last key reads. -/
theorem exists_mem_scan (h : (D.scan next stop scanChunkSize).getLast? = some last) {P : Bytes × Bytes → Prop} :
    (∃ kv ∈ D.scan next stop 0, P kv) ↔
      (∃ kv ∈ D.scan next stop scanChunkSize, P kv) ∨ ∃ kv ∈ D.scan (last.1 ++ [0x00]) stop 0, P kv := by
  have hchunk : D.scan next stop scanChunkSize = (D.scan next stop 0).take scanChunkSize := MemBackend.scan_eq_take (by decide)
  have hmem : ∀ kv, kv ∈ D.scan next stop 0 ↔
      kv ∈ D.scan next stop scanChunkSize ∨ kv ∈ D.scan (last.1 ++ [0x00]) stop 0 := fun kv => by
    rw [MemBackend.scan_resume (by decide) h, hchunk, ← List.mem_append, List.take_append_drop]
  simp only [hmem, or_and_right, exists_or]

end

/-- **The entries of a new index**: those of the rows that have a scan entry. -/
theorem buildIndex_mem (hk : Intact G s) (hd : s.tableByID id = some d) (idx : IndexDef) :
    ∀ {rounds : ℕ} {next : Bytes} {seen : OrdMap Bytes Bytes} {entries all : List BatchOp} {s' : MapSql C ck},
      buildIndex G d idx rounds next seen entries s = .ok all s' →
      ∀ op, op ∈ all ↔ op ∈ entries ∨
        ∃ kv ∈ s.led.derived.scan next ((incBytes (scanKey d.id [])).getD []) 0, EntryOpOf G s id d idx kv op := by
  intro rounds
  induction rounds with
  | zero =>
    intro next seen entries all s' h
    cases h
  | succ rounds ih =>
    intro next seen entries all s' h op
    unfold buildIndex at h
    rw [run_bind_ok (backendScan_run s _ _ _)] at h
    cases hlast : (s.led.derived.scan next ((incBytes (scanKey d.id [])).getD []) scanChunkSize).getLast? with
    | none =>
      rw [hlast] at h
      cases h
      rw [scan_of_getLast_none hlast]
      exact ⟨.inl, fun hop => hop.elim (fun h => h) fun ⟨kv, hkv, _⟩ => absurd hkv List.not_mem_nil⟩
    | some last =>
      rw [hlast] at h
      obtain ⟨r, s₁, hpage, h₁⟩ := bind_eq_ok h
      obtain ⟨rfl, hmem⟩ := buildEntries_mem hk hd idx hpage
      dsimp only at h₁
      split at h₁
      · rename_i hshort
        cases h₁
        rw [hmem, MemBackend.scan_short hshort]
      · rw [ih h₁ op, hmem, exists_mem_scan hlast, or_assoc]

/-- **The entries removed with an index**: all that its keyspace holds. -/
theorem indexEntries_mem (idxID : UInt64) : ∀ {rounds : ℕ} {next : Bytes} {all : List BatchOp}
    {s' : MapSql C ck}, indexEntries idxID rounds next s = .ok all s' →
      ∀ op, op ∈ all ↔ ∃ kv ∈ s.led.derived.scan next ((incBytes (secondarySpace idxID)).getD []) 0,
        op = { key := kv.1, delete := true } := by
  intro rounds
  induction rounds with
  | zero =>
    intro next all s' h
    cases h
  | succ rounds ih =>
    intro next all s' h op
    unfold indexEntries at h
    rw [run_bind_ok (backendScan_run s _ _ _)] at h
    have hchunk : op ∈ (s.led.derived.scan next ((incBytes (secondarySpace idxID)).getD []) scanChunkSize).map
        (fun kv => ({ key := kv.1, delete := true } : BatchOp)) ↔
        ∃ kv ∈ s.led.derived.scan next ((incBytes (secondarySpace idxID)).getD []) scanChunkSize,
          op = { key := kv.1, delete := true } := by
      rw [List.mem_map]
      exact ⟨fun ⟨kv, hkv, he⟩ => ⟨kv, hkv, he.symm⟩, fun ⟨kv, hkv, he⟩ => ⟨kv, hkv, he.symm⟩⟩
    cases hlast : (s.led.derived.scan next ((incBytes (secondarySpace idxID)).getD []) scanChunkSize).getLast? with
    | none =>
      rw [hlast] at h
      cases h
      rw [List.getLast?_eq_none_iff.1 hlast, scan_of_getLast_none hlast]
      exact ⟨fun hop => absurd hop List.not_mem_nil, fun ⟨kv, hkv, _⟩ => absurd hkv List.not_mem_nil⟩
    | some last =>
      rw [hlast] at h
      dsimp only at h
      split at h
      · rename_i hshort
        cases h
        rw [hchunk, MemBackend.scan_short hshort]
      · obtain ⟨rest, s₁, hrest, h₁⟩ := bind_eq_ok h
        cases h₁
        rw [List.mem_append, hchunk, ih hrest op, exists_mem_scan hlast]

end ImmutableLedger
