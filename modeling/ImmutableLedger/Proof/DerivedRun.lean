import ImmutableLedger.Proof.Upkeep
import ImmutableLedger.Proof.LostUpdate

/-!
# The derived keyspaces over whole runs

Every commit writes the rows and, in its second batch, the derived entries. When no write of the backend fails, the two
derived keyspaces are the image of the rows and of the catalog after every request of every session, whatever was created,
renamed, dropped or truncated in between.

* `Issued.exact`: one commit, by what was handed to it.
* `serve_steps`, `kept_run`: a request is a chain of commits, so a run keeps what every commit keeps.
* `derived_exact_run`: any run of the service.
-/

namespace ImmutableLedger

open EStateM

variable {C : Crypto} {ck : Bytes} {G : GoLib} {s s' t : MapSql C ck}

/-! ## Definitions with the same entries -/

section
variable {d d' : TableDef} {idx idx' : IndexDef} {row : Row}

/-- The columns decide what is encoded; the names show in errors only. -/
theorem encodeIndexOrds_congr (hcolumns : d'.columns = d.columns) : ∀ {ords : List ℕ} {r : Bytes × Bool},
    encodeIndexOrds d idx row ords = .ok r → encodeIndexOrds d' idx' row ords = .ok r := by
  intro ords
  induction ords with
  | nil => exact fun h => h
  | cons ord ords ih =>
    intro r h
    obtain ⟨rest, hrest, hcol⟩ := encodeIndexOrds_cons.1 h
    refine encodeIndexOrds_cons.2 ⟨rest, ih hrest, ?_⟩
    unfold TableDef.columnAt at hcol ⊢
    rw [hcolumns]
    exact hcol

theorem encodeIndexCols_congr (hcolumns : d'.columns = d.columns) (hords : idx'.colOrds = idx.colOrds) {cols : Bytes × Bool}
    (h : encodeIndexCols d idx row = .ok cols) : encodeIndexCols d' idx' row = .ok cols := by
  unfold encodeIndexCols at h ⊢
  rw [hords]
  exact encodeIndexOrds_congr hcolumns h

/-- A row has in `d'` all the entries that it has in `d`. -/
structure Covers (d d' : TableDef) : Prop where
  columns : d'.columns = d.columns
  indexes : ∀ idx ∈ d.indexes, ∃ idx' ∈ d'.indexes, idx'.id = idx.id ∧ idx'.colOrds = idx.colOrds

theorem covers_of_indexes (hcolumns : d'.columns = d.columns) (hsub : ∀ idx ∈ d.indexes, idx ∈ d'.indexes) : Covers d d' :=
  ⟨hcolumns, fun idx hidx => ⟨idx, hsub idx hidx, rfl, rfl⟩⟩

end

/-- The rows of `s` are those of `s'`, and their tables have the same entries there. -/
structure Carries (s s' : MapSql C ck) : Prop where
  rows : rowsIn s'.led.vals = rowsIn s.led.vals
  tables : ∀ id d pk raw, s.tableByID id = some d → rowsIn s.led.vals (id, pk) = some raw →
    ∃ d', s'.tableByID id = some d' ∧ Covers d d'

theorem Carries.storedRow (h : Carries s s') {id : UInt64} {pk : Bytes} {d : TableDef} {row : Row}
    (hrow : StoredRow G s id pk d row) : ∃ d', StoredRow G s' id pk d' row ∧ Covers d d' := by
  obtain ⟨hd, data, hraw, hdec⟩ := hrow
  obtain ⟨d', hd', hcov⟩ := h.tables id d pk _ hd hraw
  refine ⟨d', ⟨hd', data, (congrFun h.rows (id, pk)).trans hraw, ?_⟩, hcov⟩
  rw [hcov.columns]
  exact hdec

theorem Carries.inImage (h : Carries s s') {key value : Bytes} (hv : InImage G s key value) : InImage G s' key value := by
  rcases hv with ⟨hv, id, pk, d, row, hrow, hk⟩ | ⟨id, d, row, idx, cols, hrow, hidx, hcols, hk⟩
  · obtain ⟨d', hrow', -⟩ := h.storedRow hrow
    exact .inl ⟨hv, id, pk, d', row, hrow', hk⟩
  · obtain ⟨d', hrow', hcov⟩ := h.storedRow hrow
    obtain ⟨idx', hidx', hid, hords⟩ := hcov.indexes idx hidx
    refine .inr ⟨id, d', row, idx', cols, hrow', hidx', encodeIndexCols_congr hcov.columns hords hcols, ?_⟩
    rw [hid]
    exact hk

/-- The stores hold the same rows and the same derived entries. -/
structure SameStored (s s' : MapSql C ck) : Prop where
  rows : rowsIn s'.led.vals = rowsIn s.led.vals
  derived : ∀ key, IsScanKey key ∨ IsIndexKey key → s'.led.derived.get key = s.led.derived.get key

/-- **What carries over both ways leaves the derived keyspaces exact.** -/
theorem DerivedExact.carried (h : DerivedExact G s) (hsame : SameStored s s') (hto : Carries s s') (hback : Carries s' s) :
    DerivedExact G s' := by
  intro key value hkey
  rw [hsame.derived key hkey, h key value hkey]
  exact ⟨hto.inImage, hback.inImage⟩

/-! ## What a commit leaves -/

/-- The store after a commit that returned, before the catalog in memory is changed. -/
structure CommitDone (s t : MapSql C ck) (ledOps : List Op) (scanOps : List BatchOp) : Prop where
  rows : rowsIn t.led.vals = rowsIn (writeOps s.led.vals ledOps)
  derived : ∀ key, IsScanKey key ∨ IsIndexKey key → t.led.derived.get key = (s.led.derived.writeBatch scanOps).get key
  catMeta : t.catMeta = s.catMeta
  tables : t.tables = s.tables
  defs : t.defs = s.defs
  plan : s.led.plan = [] → t.led.plan = []

theorem not_scanMetaKey {key : Bytes} (h : IsScanKey key ∨ IsIndexKey key) : [scanMetaKey] ≠ key := by
  rintro rfl
  rcases h with h | h
  · exact absurd h (by unfold IsScanKey; decide)
  · exact absurd h (by unfold IsIndexKey; decide)

variable {scanOps : List BatchOp} {ledOps : List Op}

theorem commitDone_of_ok (h : commit ledOps scanOps s = .ok () t) : CommitDone s t ledOps scanOps := by
  obtain rfl := commit_ok h
  refine ⟨?_, fun key hkey => ?_, rfl, rfl, rfl, fun hplan => ?_⟩
  · funext k
    exact MapLedger.put_get s.led ledOps (SqlKey.bytes_ne_history (.row k.1 k.2))
  · show (MemBackend.writeBatch (s.led.put ledOps).derived (scanOps ++ [markerOp (s.led.put ledOps).version])).get key = _
    rw [MapLedger.put_derived, writeBatch_append]
    refine MemBackend.get_writeBatch_of_notin (fun op hop => ?_) _
    obtain rfl := List.mem_singleton.1 hop
    exact not_scanMetaKey hkey
  · show (s.led.put ledOps).plan.tail = []
    rw [s.led.put_plan ledOps hplan]
    rfl

theorem CommitDone.tableByID (h : CommitDone s t ledOps scanOps) (id : UInt64) :
    t.tableByID id = s.tableByID id := tableByID_congr h.tables h.defs

/-- A commit that writes no rows. -/
theorem CommitDone.rows_same (h : CommitDone s t ledOps scanOps) (hkeys : OffRows ledOps) :
    rowsIn t.led.vals = rowsIn s.led.vals := by
  rw [h.rows]
  funext k
  refine rowsIn_of_notin fun op hop he => ?_
  obtain ⟨key, hkey, hne⟩ := hkeys op hop
  exact hne k.1 k.2 (SqlKey.bytes_inj (hkey.symm.trans he))

/-- **Changes of rows, one after the other**: an entry is right afterwards if a change has touched it, or it was right. -/
theorem CommitDone.exactAt_iff (h : CommitDone s t ledOps scanOps)
    (hapart : IndexesApart s) {cs : List ((UInt64 × Bytes) × Option Bytes)}
    (hchain : (imageView G s hapart).Chain (rowsIn s.led.vals) s.led.derived.get cs (rowsIn (writeOps s.led.vals ledOps))
      (s.led.derived.writeBatch scanOps).get) {key : Bytes} (hkey : IsScanKey key ∨ IsIndexKey key) :
    ExactAt G t key ↔ (imageView G s hapart).Touched (rowsIn s.led.vals) cs key ∨ ExactAt G s key := by
  have hafter : (imageView G s hapart).At (rowsIn t.led.vals) t.led.derived.get key ↔
      (imageView G s hapart).At (rowsIn (writeOps s.led.vals ledOps)) (s.led.derived.writeBatch scanOps).get key := by
    unfold View.At
    rw [h.derived key hkey, h.rows]
  rw [← at_iff_exactAt hapart h.tables h.defs, hafter, hchain.at_iff, at_iff_exactAt hapart rfl rfl]

theorem CommitDone.exact_of_chain (h : CommitDone s t ledOps scanOps)
    (hapart : IndexesApart s) {cs : List ((UInt64 × Bytes) × Option Bytes)}
    (hchain : (imageView G s hapart).Chain (rowsIn s.led.vals) s.led.derived.get cs (rowsIn (writeOps s.led.vals ledOps))
      (s.led.derived.writeBatch scanOps).get) (hexact : DerivedExact G s) : DerivedExact G t := by
  rw [derivedExact_iff] at hexact ⊢
  intro key hkey
  rw [h.exactAt_iff hapart hchain hkey]
  exact .inr (hexact key hkey)

/-! ## Changes of the catalog -/

/-- A definition replaced in memory. -/
theorem tableByID_setDef {id : UInt64} {d d' : TableDef} (hd : s.tableByID id = some d) (htables : s'.tables = s.tables)
    (hdefs : s'.defs = s.defs.insert id d') :
    s'.tableByID id = some d' ∧ ∀ j, j ≠ id → s'.tableByID j = s.tableByID j := by
  obtain ⟨hnamed, -⟩ := tableByID_iff.1 hd
  constructor
  · rw [tableByID_iff, htables, hdefs]
    exact ⟨hnamed, by rw [OrdMap.get_insert, if_pos rfl]⟩
  · intro j hj
    ext e
    rw [tableByID_iff, tableByID_iff, htables, hdefs, OrdMap.get_insert, if_neg hj]

/-- The names of the other tables are the same. -/
theorem tableByID_other {id : UInt64} (hnames : ∀ lower j, j ≠ id → (s'.tables.get lower = some j ↔ s.tables.get lower = some j))
    (hdefs : ∀ j, j ≠ id → s'.defs.get j = s.defs.get j) (j : UInt64) (hj : j ≠ id) : s'.tableByID j = s.tableByID j := by
  ext e
  rw [tableByID_iff, tableByID_iff, hdefs j hj]
  exact and_congr_left fun _ => exists_congr fun lower => hnames lower j hj

section
variable {id : UInt64} {d d' : TableDef}

/-- The tables differ in one place only, and what stands there has no rows, or has its entries in `s'` too. -/
theorem carries_of_other (hrows : rowsIn s'.led.vals = rowsIn s.led.vals)
    (hother : ∀ j, j ≠ id → s'.tableByID j = s.tableByID j)
    (hat : (∀ pk, rowsIn s.led.vals (id, pk) = none) ∨
      ∃ d d', s.tableByID id = some d ∧ s'.tableByID id = some d' ∧ Covers d d') : Carries s s' := by
  refine ⟨hrows, fun j e pk raw he hraw => ?_⟩
  by_cases hj : j = id
  · rw [hj] at he hraw ⊢
    rcases hat with hnone | ⟨d, d', hd, hd', hcov⟩
    · rw [hnone pk] at hraw
      cases hraw
    · obtain rfl : d = e := Option.some.inj (hd.symm.trans he)
      exact ⟨d', hd', hcov⟩
  · exact ⟨e, (hother j hj).trans he, covers_of_indexes rfl fun _ h => h⟩

/-- **Tables that differ where there are no rows** have the same entries. -/
theorem DerivedExact.of_rowless (h : DerivedExact G s) (hsame : SameStored s s')
    (hother : ∀ j, j ≠ id → s'.tableByID j = s.tableByID j) (hnone : ∀ pk, rowsIn s.led.vals (id, pk) = none) :
    DerivedExact G s' := by
  refine h.carried hsame (carries_of_other hsame.rows hother (.inl hnone)) ?_
  refine carries_of_other hsame.rows.symm (fun j hj => (hother j hj).symm) (.inl ?_)
  rw [hsame.rows]
  exact hnone

/-- **A table under another definition** with the same columns and indexes has the same entries. -/
theorem DerivedExact.of_covers (h : DerivedExact G s) (hsame : SameStored s s')
    (hother : ∀ j, j ≠ id → s'.tableByID j = s.tableByID j) (hd : s.tableByID id = some d) (hd' : s'.tableByID id = some d')
    (hto : Covers d d') (hback : Covers d' d) : DerivedExact G s' := by
  refine h.carried hsame (carries_of_other hsame.rows hother (.inr ⟨d, d', hd, hd', hto⟩)) ?_
  exact carries_of_other hsame.rows.symm (fun j hj => (hother j hj).symm) (.inr ⟨d', d, hd', hd, hback⟩)

/-- A stored row of a catalogued table is one that is read back. -/
theorem Intact.storedRow (h : Intact G s) {pk raw : Bytes} (hd : s.tableByID id = some d)
    (hraw : s.led.vals.get (rowKey id pk) = some raw) : ∃ row, StoredRow G s id pk d row := by
  have hget := tableByID_eq_some hd
  obtain ⟨row, data, hgood, henc, rfl⟩ := h.rows.stored id d pk raw hget hraw
  obtain ⟨data', henc', hdec⟩ := hgood.engine.decodes
  obtain rfl : data = data' := Except.ok.inj (henc.symm.trans henc')
  rw [h.shape.ownIds id d hget] at hraw
  exact ⟨_, hd, data, hraw, hdec⟩

/-- A table without scan entries has no rows. -/
theorem no_rows_of_scanPage (h : Intact G s) (hexact : DerivedExact G s) (hd : s.tableByID id = some d)
    (hempty : scanPage s d.id = []) (pk : Bytes) : rowsIn s.led.vals (id, pk) = none := by
  cases hraw : rowsIn s.led.vals (id, pk) with
  | none => rfl
  | some raw =>
    obtain ⟨row, hrow⟩ := h.storedRow hd hraw
    have himage : InImage G s (scanKey id pk) [] := .inl ⟨rfl, id, pk, d, row, hrow, rfl⟩
    have hentry := (hexact _ _ (.inl (isScanKey_scanKey id pk))).2 himage
    rw [h.shape.ownIds id d (tableByID_eq_some hd)] at hempty
    rw [scanPage_eq_nil hempty pk] at hentry
    cases hentry

end

/-! ## A new index -/

variable {idxs : List IndexDef} {pos : ℕ}

section
variable {id : UInt64} {d : TableDef} {idx : IndexDef}

/-- The entries of the rows of a table in an index. -/
def NewEntry (G : GoLib) (s : MapSql C ck) (id : UInt64) (d : TableDef) (idx : IndexDef) (key value : Bytes) : Prop :=
  ∃ row cols, StoredRow G s id value d row ∧ encodeIndexCols d idx row = .ok cols ∧ key = entryKey idx.id cols.1 value

/-- **One index more or less**: `s'` has the entries of `s`, and those of the index. -/
theorem inImage_indexed {d' : TableDef} (hd : s.tableByID id = some d) (hd' : s'.tableByID id = some d')
    (hother : ∀ j, j ≠ id → s'.tableByID j = s.tableByID j) (hcolumns : d'.columns = d.columns)
    (hindexes : ∀ x, x ∈ d'.indexes ↔ x ∈ d.indexes ∨ x = idx)
    (hrows : rowsIn s'.led.vals = rowsIn s.led.vals) {key value : Bytes} :
    InImage G s' key value ↔ InImage G s key value ∨ NewEntry G s id d idx key value := by
  -- a row is read the same in both
  have hback : ∀ {j pk e row}, StoredRow G s' j pk e row →
      (j = id ∧ e = d' ∧ StoredRow G s id pk d row) ∨ StoredRow G s j pk e row := by
    intro j pk e row hrow
    obtain ⟨he, data, hraw, hdec⟩ := hrow
    rw [show s'.led.vals.get _ = _ from congrFun hrows (j, pk)] at hraw
    by_cases hj : j = id
    · rw [hj] at he hraw
      obtain rfl : d' = e := Option.some.inj (hd'.symm.trans he)
      rw [hcolumns] at hdec
      exact .inl ⟨hj, rfl, hd, data, hraw, hdec⟩
    · exact .inr ⟨(hother j hj).symm.trans he, data, hraw, hdec⟩
  constructor
  · rintro (⟨hv, j, pk, e, row, hrow, hk⟩ | ⟨j, e, row, x, cols, hrow, hx, hcols, hk⟩)
    · rcases hback hrow with ⟨rfl, -, hrow'⟩ | hrow'
      · exact .inl (.inl ⟨hv, _, pk, d, row, hrow', hk⟩)
      · exact .inl (.inl ⟨hv, j, pk, e, row, hrow', hk⟩)
    · rcases hback hrow with ⟨rfl, rfl, hrow'⟩ | hrow'
      · have hcols' : encodeIndexCols d x row = .ok cols := encodeIndexCols_congr hcolumns.symm (by rfl) hcols
        rcases (hindexes x).1 hx with hx | rfl
        · exact .inl (.inr ⟨_, d, row, x, cols, hrow', hx, hcols', hk⟩)
        · exact .inr ⟨row, cols, hrow', hcols', hk⟩
      · exact .inl (.inr ⟨j, e, row, x, cols, hrow', hx, hcols, hk⟩)
  · have hcov : Covers d d' := covers_of_indexes hcolumns fun x hx => (hindexes x).2 (.inl hx)
    rintro (hv | ⟨row, cols, ⟨-, data, hraw, hdec⟩, hcols, hk⟩)
    · exact (carries_of_other hrows hother (.inr ⟨d, d', hd, hd', hcov⟩)).inImage hv
    · rw [← hcolumns] at hdec
      exact .inr ⟨id, d', row, idx, cols, ⟨hd', data, (congrFun hrows (id, value)).trans hraw, hdec⟩, (hindexes idx).2 (.inr rfl),
        encodeIndexCols_congr hcolumns (by rfl) hcols, hk⟩

/-- The entries that are made for a new index are those of all rows of the table. -/
theorem mem_buildIndex_iff (h : Intact G s) (hexact : DerivedExact G s) (hd : s.tableByID id = some d) {rounds : ℕ}
    {entries : List BatchOp} (hbuild : buildIndex G d idx rounds (scanKey d.id []) OrdMap.empty [] s = .ok entries s)
    {op : BatchOp} : op ∈ entries ↔ ∃ pk row cols, StoredRow G s id pk d row ∧ encodeIndexCols d idx row = .ok cols ∧
      op = entryOp idx.id cols.1 pk false := by
  have hid : d.id = id := h.shape.ownIds id d (tableByID_eq_some hd)
  obtain ⟨stop, hstop⟩ := scanSpace_stop d.id
  have hmem := buildIndex_mem h hd idx hbuild op
  rw [hstop, Option.getD_some] at hmem
  rw [hmem]
  constructor
  · rintro (hop | ⟨kv, -, row, cols, hrow, hcols, hop⟩)
    · exact absurd hop List.not_mem_nil
    · exact ⟨kv.1.drop 9, row, cols, hrow, hcols, hop⟩
  · rintro ⟨pk, row, cols, hrow, hcols, hop⟩
    -- the row has a scan entry, so the pass over the table has come to it
    have himage : InImage G s (scanKey id pk) [] := .inl ⟨rfl, id, pk, d, row, hrow, rfl⟩
    have hentry := (hexact _ _ (.inl (isScanKey_scanKey id pk))).2 himage
    have hkey : scanKey id pk = scanKey id [] ++ pk := LedgerIndex.scanKey_append id pk
    have hdrop : (scanKey id pk).drop 9 = pk := by
      rw [hkey, List.drop_left' (LedgerIndex.length_scanKey id)]
    have hscan : (scanKey id pk, []) ∈ s.led.derived.scan (scanKey d.id []) stop 0 := by
      refine (mem_scan_space hstop).2 ⟨hentry, ?_⟩
      rw [hid, hkey]
      exact List.prefix_append _ _
    refine .inr ⟨_, hscan, row, cols, ?_, hcols, ?_⟩
    · rw [hdrop]
      exact hrow
    · rw [hdrop]
      exact hop

/-- **A new index**: its entries come, and the others stay. -/
theorem exact_createIndex (h : Intact G s) (hapart : IndexesApart s') (hexact : DerivedExact G s)
    (hd : s.tableByID id = some d) {rounds : ℕ} {entries : List BatchOp}
    (hbuild : buildIndex G d idx rounds (scanKey d.id []) OrdMap.empty [] s = .ok entries s)
    (htables : s'.tables = s.tables) (hdefs : s'.defs = s.defs.insert id { d with indexes := d.indexes ++ [idx] })
    (hrows : rowsIn s'.led.vals = rowsIn s.led.vals)
    (hderived : ∀ key, IsScanKey key ∨ IsIndexKey key → s'.led.derived.get key = (s.led.derived.writeBatch entries).get key) :
    DerivedExact G s' := by
  intro key value hkey
  have hmem : ∀ op, op ∈ entries ↔ _ := fun _ => mem_buildIndex_iff h hexact hd hbuild
  obtain ⟨hd', hother⟩ := tableByID_setDef hd htables hdefs
  have himages : ∀ v, InImage G s' key v ↔ InImage G s key v ∨ NewEntry G s id d idx key v :=
    fun _ => inImage_indexed hd hd' hother rfl (fun x => by simp) hrows
  rw [hderived key hkey]
  by_cases hnew : ∃ pk, NewEntry G s id d idx key pk
  · obtain ⟨pk, hentry⟩ := hnew
    have himage : InImage G s' key pk := (himages pk).2 (.inr hentry)
    obtain ⟨row, cols, hrow, hcols, hk⟩ := hentry
    -- whatever is written under the key is the entry of this row
    have hget : (s.led.derived.writeBatch entries).get key = some pk := by
      refine MemBackend.get_writeBatch ⟨_, (hmem _).2 ⟨pk, row, cols, hrow, hcols, rfl⟩, hk.symm⟩ (fun op hop hopk => ?_) _
      obtain ⟨pk', row', cols', -, hcols', rfl⟩ := (hmem op).1 hop
      have hsame : entryKey idx.id cols'.1 pk' = entryKey idx.id cols.1 pk := hopk.trans hk
      have hpk := (encodeIndexCols_append_inj hcols' hcols (entryKey_inj_id hsame).2).2
      rw [hpk]
      rfl
    rw [hget]
    constructor
    · intro hv
      rw [← Option.some.inj hv]
      exact himage
    · intro hv
      rw [himage.unique hapart hv]
  · have hnot : ∀ op ∈ entries, op.key ≠ key := by
      intro op hop hopk
      obtain ⟨pk, row, cols, hrow, hcols, rfl⟩ := (hmem op).1 hop
      exact hnew ⟨pk, row, cols, hrow, hcols, hopk.symm⟩
    rw [MemBackend.get_writeBatch_of_notin hnot, hexact key value hkey, himages]
    constructor
    · exact .inl
    · rintro (hv | hv)
      · exact hv
      · exact absurd ⟨value, hv⟩ hnew

/-! ## An index that goes -/

theorem starts_entryKey (idxID : UInt64) (cols pk : Bytes) : secondarySpace idxID <+: entryKey idxID cols pk := by
  unfold entryKey
  rw [List.append_assoc]
  exact List.prefix_append _ _

theorem entryKey_id {idxID idxID' : UInt64} {cols pk : Bytes} (h : secondarySpace idxID <+: entryKey idxID' cols pk) :
    idxID' = idxID := by
  obtain ⟨rest, hrest⟩ := h
  have hsame : entryKey idxID rest [] = entryKey idxID' cols pk := by
    rw [← hrest]
    unfold entryKey
    rw [List.append_nil]
  exact (entryKey_inj_id hsame).1.symm

theorem mem_iff_eraseIdx {idx : IndexDef} (hpos : idxs[pos]? = some idx) (x : IndexDef) :
    x ∈ idxs ↔ x ∈ idxs.eraseIdx pos ∨ x = idx := by
  constructor
  · intro hx
    obtain ⟨i, hi⟩ := List.mem_iff_getElem?.1 hx
    by_cases hip : i = pos
    · rw [hip, hpos] at hi
      exact .inr (Option.some.inj hi).symm
    · exact .inl (List.mem_eraseIdx_iff_getElem?.2 ⟨i, hip, hi⟩)
  · rintro (hx | rfl)
    · exact List.eraseIdx_subset hx
    · exact List.mem_of_getElem? hpos

theorem ne_of_mem_eraseIdx {x idx : IndexDef} (hnodup : (idxs.map IndexDef.id).Nodup)
    (hpos : idxs[pos]? = some idx) (hx : x ∈ idxs.eraseIdx pos) : x.id ≠ idx.id := by
  obtain ⟨i, hip, hi⟩ := List.mem_eraseIdx_iff_getElem?.1 hx
  intro hid
  have hi' : (idxs.map IndexDef.id)[i]? = some idx.id := by
    rw [List.getElem?_map, hi, ← hid]
    rfl
  have hpos' : (idxs.map IndexDef.id)[pos]? = some idx.id := by
    rw [List.getElem?_map, hpos]
    rfl
  obtain ⟨hlt, -⟩ := List.getElem?_eq_some_iff.1 hi'
  exact hip ((List.getElem?_inj hlt hnodup).1 (hi'.trans hpos'.symm))

/-- **An index that goes**: its entries go with it, and the others stay. -/
theorem exact_dropIndex (hshape : Shape s) (hexact : DerivedExact G s) (hd : s.tableByID id = some d)
    (hpos : d.indexes[pos]? = some idx) {rounds : ℕ}
    (hscan : indexEntries idx.id rounds (secondarySpace idx.id) s = .ok scanOps s)
    (htables : s'.tables = s.tables) (hdefs : s'.defs = s.defs.insert id { d with indexes := d.indexes.eraseIdx pos })
    (hrows : rowsIn s'.led.vals = rowsIn s.led.vals)
    (hderived : ∀ key, IsScanKey key ∨ IsIndexKey key → s'.led.derived.get key = (s.led.derived.writeBatch scanOps).get key) :
    DerivedExact G s' := by
  intro key value hkey
  have hget := tableByID_eq_some hd
  obtain ⟨stop, hstop⟩ := secondarySpace_stop idx.id
  have hmem := fun op => indexEntries_mem idx.id hscan op
  rw [hstop, Option.getD_some] at hmem
  obtain ⟨hd', hother⟩ := tableByID_setDef hd htables hdefs
  have himages : InImage G s key value ↔ InImage G s' key value ∨ NewEntry G s' id _ idx key value :=
    inImage_indexed hd' hd (fun j hj => (hother j hj).symm) rfl (mem_iff_eraseIdx hpos) hrows.symm
  rw [hderived key hkey]
  by_cases hspace : secondarySpace idx.id <+: key
  · -- every entry of the index has been deleted
    have hnone : (s.led.derived.writeBatch scanOps).get key = none := by
      cases hold : s.led.derived.get key with
      | none =>
        have hnot : ∀ op ∈ scanOps, op.key ≠ key := by
          intro op hop hopk
          obtain ⟨kv, hkv, rfl⟩ := (hmem op).1 hop
          have hstored := ((mem_scan_space hstop).1 hkv).1
          have hkv' : kv.1 = key := hopk
          rw [hkv', hold] at hstored
          cases hstored
        rw [MemBackend.get_writeBatch_of_notin hnot, hold]
      | some v =>
        have hop : ({ key, delete := true } : BatchOp) ∈ scanOps :=
          (hmem _).2 ⟨(key, v), (mem_scan_space hstop).2 ⟨hold, hspace⟩, rfl⟩
        refine MemBackend.get_writeBatch ⟨_, hop, rfl⟩ (fun op hop' _ => ?_) _
        obtain ⟨kv, -, rfl⟩ := (hmem op).1 hop'
        rfl
    rw [hnone]
    constructor
    · intro hv
      cases hv
    · intro himage
      rcases himage with ⟨-, j, pk, e, row, -, rfl⟩ | ⟨j, e, row, x, cols, ⟨he, -⟩, hx, -, rfl⟩
      · have hidx : IsIndexKey (scanKey j pk) := by
          obtain ⟨rest, hrest⟩ := hspace
          rw [← hrest]
          rfl
        exact absurd hidx (not_isIndexKey_of_isScanKey (isScanKey_scanKey j pk))
      · -- no index that is left has this id
        have hid : x.id = idx.id := entryKey_id hspace
        by_cases hj : j = id
        · rw [hj, hd'] at he
          obtain rfl := Option.some.inj he
          exact absurd hid (ne_of_mem_eraseIdx (hshape.defs.indexIds id d hget).1 hpos hx)
        · rw [hother j hj] at he
          have howner := hshape.defs.owner j id e d (tableByID_eq_some he) hget x hx idx (List.mem_of_getElem? hpos) hid
          exact absurd howner hj
  · have hnot : ∀ op ∈ scanOps, op.key ≠ key := by
      intro op hop hopk
      obtain ⟨kv, hkv, rfl⟩ := (hmem op).1 hop
      have hpre := ((mem_scan_space hstop).1 hkv).2
      have hkv' : kv.1 = key := hopk
      rw [hkv'] at hpre
      exact hspace hpre
    rw [MemBackend.get_writeBatch_of_notin hnot, hexact key value hkey, himages]
    refine ⟨fun himage => himage.resolve_right ?_, .inl⟩
    rintro ⟨row, cols, -, -, rfl⟩
    exact hspace (starts_entryKey idx.id cols.1 value)

/-- An index under another name is the same index for its entries. -/
theorem mem_renamed_of_mem {new : Bytes} {idx : IndexDef} (h : idx ∈ idxs) :
    ∃ idx' ∈ idxs.modify pos (fun x => { x with name := new }), idx'.id = idx.id ∧ idx'.colOrds = idx.colOrds := by
  obtain ⟨i, hi⟩ := List.mem_iff_getElem?.1 h
  by_cases hip : pos = i
  · refine ⟨{ idx with name := new }, List.mem_iff_getElem?.2 ⟨i, ?_⟩, rfl, rfl⟩
    rw [List.getElem?_modify, hi]
    exact congrArg some (if_pos hip)
  · refine ⟨idx, List.mem_iff_getElem?.2 ⟨i, ?_⟩, rfl, rfl⟩
    rw [List.getElem?_modify, hi]
    exact congrArg some (if_neg hip)

theorem mem_of_mem_renamed {new : Bytes} {idx : IndexDef} (h : idx ∈ idxs.modify pos fun x => { x with name := new }) :
    ∃ idx' ∈ idxs, idx'.id = idx.id ∧ idx'.colOrds = idx.colOrds := by
  obtain ⟨i, hi⟩ := List.mem_iff_getElem?.1 h
  rw [List.getElem?_modify] at hi
  obtain ⟨x, hx, hxi⟩ := Option.map_eq_some_iff.1 hi
  refine ⟨x, List.mem_of_getElem? hx, ?_⟩
  split at hxi
  · rw [← hxi]
    exact ⟨rfl, rfl⟩
  · rw [← hxi]
    exact ⟨rfl, rfl⟩

end

/-! ## One commit -/

section
variable {ledOps : List Op} {scanOps : List BatchOp} {id : UInt64} {d : TableDef} {name newName : Bytes}

theorem get_named_insert {names : OrdMap Bytes UInt64} (hnew : names.get name = none) (lower : Bytes) (j : UInt64)
    (hj : j ≠ id) : (names.insert name id).get lower = some j ↔ names.get lower = some j := by
  rw [OrdMap.get_insert]
  split
  · rename_i hl
    rw [hl, hnew]
    exact ⟨fun hx => absurd (Option.some.inj hx).symm hj, fun hx => by cases hx⟩
  · exact Iff.rfl

theorem get_named_erase {names : OrdMap Bytes UInt64} (hid : names.get name = some id) (lower : Bytes) (j : UInt64)
    (hj : j ≠ id) : (names.erase name).get lower = some j ↔ names.get lower = some j := by
  rw [OrdMap.get_erase]
  split
  · rename_i hl
    rw [hl, hid]
    exact ⟨fun hx => (by cases hx), fun hx => absurd (Option.some.inj hx).symm hj⟩
  · exact Iff.rfl

/-- A new table has no rows. -/
theorem exact_createTable (h : Intact G s) (hexact : DerivedExact G s) (hsame : SameStored s s')
    (hnew : s.tables.get name = none) (hid : d.id = s.catMeta.nextTableID)
    (htables : s'.tables = s.tables.insert name d.id) (hdefs : s'.defs = s.defs.insert d.id d) : DerivedExact G s' := by
  have hfresh : ∀ pk, rowsIn s.led.vals (d.id, pk) = none := by
    intro pk
    refine h.rows.fresh d.id pk ?_
    cases he : s.defs.get d.id with
    | none => rfl
    | some e =>
      have hlt := h.shape.defs.ids _ e he
      rw [hid] at hlt
      exact absurd hlt (lt_irrefl _)
  refine hexact.of_rowless hsame (tableByID_other ?_ fun j hj => ?_) hfresh
  · rw [htables]
    exact get_named_insert hnew
  · rw [hdefs, OrdMap.get_insert, if_neg hj]

/-- A table goes when it has no rows left. -/
theorem exact_dropTable (h : Intact G s) (hexact : DerivedExact G s) (hsame : SameStored s s')
    (hid : s.tables.get name = some id) (hd : s.defs.get id = some d) (hempty : scanPage s d.id = [])
    (htables : s'.tables = s.tables.erase name) (hdefs : s'.defs = s.defs) : DerivedExact G s' := by
  have hnone := no_rows_of_scanPage h hexact (tableByID_iff.2 ⟨⟨_, hid⟩, hd⟩) hempty
  refine hexact.of_rowless hsame (tableByID_other ?_ fun j _ => by rw [hdefs]) hnone
  rw [htables]
  exact get_named_erase hid

/-- A table has the same entries under its new name. -/
theorem exact_renameTable (hexact : DerivedExact G s) (hsame : SameStored s s') (hid : s.tables.get name = some id)
    (hnew : s.tables.get newName = none) (hd : s.defs.get id = some d)
    (htables : s'.tables = (s.tables.erase name).insert newName id) {d' : TableDef} (hdefs : s'.defs = s.defs.insert id d')
    (hcolumns : d'.columns = d.columns) (hindexes : d'.indexes = d.indexes) : DerivedExact G s' := by
  have hself : s'.tableByID id = some d' := by
    rw [tableByID_iff, htables, hdefs]
    exact ⟨⟨newName, by rw [OrdMap.get_insert, if_pos rfl]⟩, by rw [OrdMap.get_insert, if_pos rfl]⟩
  have hfree : (s.tables.erase name).get newName = none := by
    rw [OrdMap.get_erase, hnew, ite_self]
  refine hexact.of_covers hsame (tableByID_other (fun lower j hj => ?_) fun j hj => ?_) (tableByID_iff.2 ⟨⟨_, hid⟩, hd⟩) hself
    (covers_of_indexes hcolumns fun x hx => hindexes ▸ hx) (covers_of_indexes hcolumns.symm fun x hx => hindexes ▸ hx)
  · rw [htables, get_named_insert hfree lower j hj]
    exact get_named_erase hid lower j hj
  · rw [hdefs, OrdMap.get_insert, if_neg hj]

/-- **A commit that returns** keeps the derived keyspaces exact. -/
theorem Issued.exact {f : MapSql C ck → MapSql C ck} (hi : Issued G s ledOps scanOps f)
    (h : Intact G s) (hroom : Room 1 s) (hexact : DerivedExact G s) (hrun : commit ledOps scanOps s = .ok () t) :
    DerivedExact G (f t) := by
  have hdone := commitDone_of_ok hrun
  have hapart : IndexesApart (f t) := (h.shape.step hroom (.done hi hrun)).indexesApart
  cases hi with
  | rows hb =>
    obtain ⟨cs, hchain, -⟩ := hb.built.chain h.shape s.led.vals s.led.derived hb.nodup hb.good hb.based
    exact hdone.exact_of_chain h.shape.indexesApart hchain hexact
  | counter i v =>
    have hrows := hdone.rows_same (offRows_counter i _)
    refine hexact.carried ⟨hrows, hdone.derived⟩ ⟨hrows, fun j e pk raw he _ => ?_⟩ ⟨hrows.symm, fun j e pk raw he _ => ?_⟩
    · exact ⟨e, (hdone.tableByID j).trans he, covers_of_indexes rfl fun _ hx => hx⟩
    · exact ⟨e, (hdone.tableByID j).symm.trans he, covers_of_indexes rfl fun _ hx => hx⟩
  | createTable hnew hd =>
    exact exact_createTable h hexact ⟨hdone.rows_same offRows_catalogOps, hdone.derived⟩ hnew (newTableDef_ok hd).1
      (congrArg (OrdMap.insert · _ _) hdone.tables) (congrArg (OrdMap.insert · _ _) hdone.defs)
  | @deleteRows id d r hd hops =>
    have hid : d.id = id := h.shape.ownIds id d (tableByID_eq_some hd)
    obtain ⟨ps, hbuilt, hfst, hall⟩ := deleteRowOps_built h hd (fun kv hkv => (mem_scanPage hkv).2) hops
    have hnodup : (ps.map Prod.fst).Nodup := by
      rw [hfst]
      exact nodup_scanPage s d.id
    obtain ⟨cs, hchain, -⟩ := hbuilt.chain h.shape.indexesApart hd hid s.led.vals s.led.derived hnodup
      (fun e he => (hall e he).1) fun e he _ => (hall e he).2
    exact hdone.exact_of_chain h.shape.indexesApart hchain hexact
  | @dropTable name id d m hid hd hm hempty =>
    exact exact_dropTable h hexact ⟨hdone.rows_same (offRows_dropTable m d), hdone.derived⟩ hid hd hempty
      (congrArg (OrdMap.erase · _) hdone.tables) hdone.defs
  | @renameTable oldName newName id d hid hnew hd =>
    exact exact_renameTable hexact ⟨hdone.rows_same (offRows_renameTable oldName), hdone.derived⟩ hid hnew hd
      (congrArg (fun names => (OrdMap.erase names _).insert _ _) hdone.tables) (congrArg (OrdMap.insert · _ _) hdone.defs) rfl rfl
  | createIndex hd hidx hbuild =>
    refine exact_createIndex h hapart hexact hd hbuild hdone.tables ?_ (hdone.rows_same offRows_catalogOps) hdone.derived
    dsimp only
    rw [hdone.defs]
  | dropIndex hd hpos hscan =>
    refine exact_dropIndex h.shape hexact hd hpos hscan hdone.tables ?_ (hdone.rows_same offRows_catalogOps) hdone.derived
    dsimp only
    rw [hdone.defs]
  | @renameIndex id d pos new hd =>
    have htables : SqlStore.tables { t with
        defs := t.defs.insert id { d with indexes := d.indexes.modify pos fun idx => { idx with name := new } } } =
        s.tables := hdone.tables
    obtain ⟨hd', hother⟩ := tableByID_setDef hd htables (by dsimp only; rw [hdone.defs])
    exact hexact.of_covers ⟨hdone.rows_same offRows_catalogOps, hdone.derived⟩ hother hd hd'
      ⟨rfl, fun idx hidx => mem_renamed_of_mem hidx⟩ ⟨rfl, fun idx hidx => mem_of_mem_renamed hidx⟩

end

/-! ## Counters -/

/-- The stores differ in the counters of their tables only. -/
structure OnlyCounters (s s' : MapSql C ck) : Prop where
  led : s'.led = s.led
  tables : s'.tables = s.tables
  defs : ∀ id, (s'.defs.get id).map (fun d => { d with autoIncNext := 0 }) =
    (s.defs.get id).map fun d => { d with autoIncNext := 0 }

theorem OnlyCounters.symm (h : OnlyCounters s s') : OnlyCounters s' s :=
  ⟨h.led.symm, h.tables.symm, fun id => (h.defs id).symm⟩

theorem onlyCounters_setCounter {id : UInt64} {d : TableDef} (hd : s.defs.get id = some d) (next : UInt64) :
    OnlyCounters s { s with defs := s.defs.insert id { d with autoIncNext := next } } := by
  refine ⟨rfl, rfl, fun j => ?_⟩
  dsimp only
  rw [OrdMap.get_insert]
  by_cases hj : j = id
  · rw [if_pos hj, hj, hd]
    rfl
  · rw [if_neg hj]

theorem OnlyCounters.tableByID (h : OnlyCounters s s') {id : UInt64} {d : TableDef} (hd : s.tableByID id = some d) :
    ∃ d', s'.tableByID id = some d' ∧ d'.columns = d.columns ∧ d'.indexes = d.indexes := by
  obtain ⟨hnamed, hget⟩ := tableByID_iff.1 hd
  have hdef := h.defs id
  rw [hget] at hdef
  obtain ⟨d', hd', hsame⟩ := Option.map_eq_some_iff.1 hdef
  obtain ⟨-, -, hcolumns, -, -, hindexes, -⟩ := TableDef.mk.inj hsame
  refine ⟨d', tableByID_iff.2 ⟨?_, hd'⟩, hcolumns, hindexes⟩
  rw [h.tables]
  exact hnamed

/-- A counter in memory is no part of the image. -/
theorem OnlyCounters.derivedExact (h : OnlyCounters s s') (hexact : DerivedExact G s) : DerivedExact G s' := by
  have hcarries : ∀ {u u' : MapSql C ck}, OnlyCounters u u' → Carries u u' := by
    intro u u' hu
    refine ⟨by rw [hu.led], fun _ d _ _ hd _ => ?_⟩
    obtain ⟨d', hd', hcolumns, hindexes⟩ := hu.tableByID hd
    exact ⟨d', hd', covers_of_indexes hcolumns fun x hx => hindexes ▸ hx⟩
  exact hexact.carried ⟨by rw [h.led], fun _ _ => by rw [h.led]⟩ (hcarries h) (hcarries h.symm)

/-! ## Steps and runs -/

/-- The derived keyspaces are exact, and no write of the backend is going to fail. -/
structure InSync (G : GoLib) (s : MapSql C ck) : Prop where
  derived : DerivedExact G s
  plan : s.led.plan = []

theorem InSync.step (hx : InSync G s) (h : Intact G s) (hroom : Room 1 s) (hstep : SqlStep G s s') : InSync G s' := by
  cases hstep with
  | @counted id d next hd =>
    exact ⟨(onlyCounters_setCounter hd next).derivedExact hx.derived, hx.plan⟩
  | @failed ledOps scanOps f e _ hi hrun =>
    -- without a failing write only a refused batch is answered with an error
    have hc := commit_cases ledOps scanOps s
    rw [hrun] at hc
    cases hc with
    | refused _ => exact hx
    | failed _ _ hf => exact absurd hf (s.led.not_fails hx.plan)
    | torn _ _ hf => exact absurd hf (MapLedger.not_fails _ (s.led.put_plan ledOps hx.plan))
  | @done ledOps scanOps f t hi hrun =>
    refine ⟨hi.exact h hroom hx.derived hrun, ?_⟩
    rw [hi.led t]
    exact (commitDone_of_ok hrun).plan hx.plan

/-! ## Requests -/

theorem Inserted.bumped {row : Row} {es es' : EditState (MapLedger C ck)} (h : Inserted row es es') :
    Bumped es.store es'.store := by
  cases h with
  | refused => exact .inl rfl
  | counted hd _ | filed _ hd _ _ _ => exact .inr ⟨_, _, _, hd, rfl⟩

theorem update_bumped (old new : Row) (es : EditState (MapLedger C ck)) :
    Bumped es.store (Editor.update old new es).state.store := by
  rcases update_cases old new es with hst | ⟨d, oldPK, newPK, -, -, -, -, ⟨-, hst⟩ | ⟨-, hins⟩⟩
  · exact .inl (congrArg EditState.store hst)
  · rw [hst]
    exact .inl rfl
  · exact hins.bumped

theorem delete_store (row : Row) (es : EditState (MapLedger C ck)) : (Editor.delete row es).state.store = es.store := by
  rcases delete_cases row es with hst | ⟨d, pk, -, -, -, hst⟩
  · rw [hst]
  · rw [hst]
    rfl

section
variable {w : World (MapLedger C ck)} {seen : Seen} {i : ℕ}

/-- Inside a transaction the end of a statement writes nothing. -/
theorem WorldOk.close_store (h : WorldOk G (w, seen)) (table : UInt64) : (w.close i table).2.store = w.store := by
  show (Editor.close (w.editState i table)).state.store = w.store
  cases ht : (w.sessions i).txn with
  | none =>
    rw [h.close_idle ht]
    rfl
  | some t =>
    have hcases := close_cases (w.editState i table)
    generalize (Editor.close (w.editState i table)).state = es at hcases ⊢
    cases hcases with
    | idle => rfl
    | folded _ => rfl
    | committed hnone _ _ _ => cases ht.symm.trans hnone

theorem beforeDdl_store (w : World (MapLedger C ck)) (i : ℕ) (c : Ddl) : (w.beforeDdl G i c).store = w.store := by
  unfold World.beforeDdl
  split
  · rfl
  · unfold World.forget
    split
    · rfl
    · rfl

theorem onTxn_store (w : World (MapLedger C ck)) (i : ℕ) (name : Bytes) (f : StoreTxn → Except SqlErr StoreTxn) :
    (w.onTxn i name f).2.store = w.store := by
  rcases onTxn_cases w i name f with heq | ⟨t, t', -, -, heq⟩
  · rw [heq]
  · rw [heq]
    rfl

/-- A request that may commit. -/
def SqlRequest.Commits : SqlRequest → Prop
  | .ddl _ => True
  | .call .commit => True
  | .call (.setValue _ _) => True
  | _ => False

/-- Any other request leaves the store, or counts. -/
theorem serve_bumped {c : ℕ × SqlRequest} (h : WorldOk G (w, seen)) (hc : InContract G (w, seen) c) (hq : ¬ c.2.Commits) :
    Bumped w.store (w.serve G c).2.store := by
  obtain ⟨i, q⟩ := c
  cases q with
  | ddl c => exact absurd trivial hq
  | call e =>
    cases e with
    | start readOnly => exact .inl rfl
    | read table pk => exact .inl (reads_worldReadRow w i table pk w.store)
    | insert table row => exact (insert_cases row (w.editState i table)).bumped
    | update table old new => exact update_bumped old new (w.editState i table)
    | delete table row => exact .inl (delete_store row (w.editState i table))
    | discard table => exact .inl rfl
    | close table => exact .inl (h.close_store table)
    | commit => exact absurd trivial hq
    | rollback =>
      show Bumped w.store (w.rollback i).store
      unfold World.rollback
      cases (w.sessions i).txn with
      | none => exact .inl rfl
      | some t => exact .inl rfl
    | createSavepoint name | rollbackToSavepoint name | releaseSavepoint name => exact .inl (onTxn_store w i name _)
    | nextValue table insertVal => exact nextValue_bumped table insertVal
    | setValue table v => exact absurd trivial hq
    | reopen => cases hc

/-- **A request is a chain of commits.** -/
theorem serve_steps {c : ℕ × SqlRequest} (h : WorldOk G (w, seen)) (hc : InContract G (w, seen) c) :
    SqlSteps G (LedgerApi.size w.store.led + 2) w.store (w.serve G c).2.store := by
  by_cases hq : c.2.Commits
  swap
  · exact (serve_bumped h hc hq).steps.mono (by omega)
  obtain ⟨i, q⟩ := c
  cases q with
  | ddl c =>
    have hstore := beforeDdl_store (G := G) w i c
    show SqlSteps G _ w.store (c.exec G (w.beforeDdl G i c).store).state
    rw [hstore]
    exact ddl_steps c
  | call e =>
    cases e with
    | commit =>
      show SqlSteps G _ w.store (w.commit i).2.store
      unfold World.commit
      cases ht : (w.sessions i).txn with
      | none => exact .refl
      | some t => exact (h.commit_steps ht).mono (by omega)
    | setValue table v => exact (setValue_steps table v).mono (by omega)
    | _ => exact hq.elim

end

section
variable {P : MapSql C ck → Prop}

/-- **What every step keeps, any number of steps keep.** -/
theorem kept_steps (hP : ∀ {s s'}, P s → Intact G s → Room 1 s → SqlStep G s s' → P s') {n : ℕ} (h : P s)
    (hintact : Intact G s) (hroom : Room n s) (hsteps : SqlSteps G n s s') : P s' := by
  induction hsteps with
  | refl => exact h
  | step hstep _ _ ih =>
    have hone := hroom.mono (Nat.le_add_left 1 _)
    have hintact' : Intact G _ := ⟨hintact.shape.step hone hstep, hintact.rows.step hintact.shape hstep⟩
    exact ih (hP h hintact hone hstep) hintact' (hroom.step hintact.shape hstep)

/-- **What every step keeps, every run of the service keeps.** -/
theorem kept_run (hP : ∀ {s s'}, P s → Intact G s → Room 1 s → SqlStep G s s' → P s') {store : MapSql C ck}
    (h : P store) (hintact : Intact G store) {cs : List (ℕ × SqlRequest)}
    (hcs : Machine.Along (observed G) (fun s c => InContract G s c ∧ RoomFor s) (⟨store, fun _ => {}⟩, fun _ => []) cs) :
    P (Machine.run (observed G) (⟨store, fun _ => {}⟩, fun _ => []) cs).2.1.store := by
  have hstep : ∀ (s : World (MapLedger C ck) × Seen) c, WorldOk G s ∧ P s.1.store → InContract G s c ∧ RoomFor s →
      WorldOk G (observed G s c).2 ∧ P (observed G s c).2.1.store := by
    intro s c hs hc
    obtain ⟨hworld, hp⟩ := hs
    exact ⟨hworld.serve hc.1 hc.2, kept_steps hP hp hworld.kept hc.2 (serve_steps hworld hc.1)⟩
  exact (Machine.invariant hstep ⟨worldOk_fresh hintact, h⟩ hcs).2

end

/-- **The derived keyspaces over any run.** From a store whose catalog, rows and derived keyspaces are in order, and with no
write of the backend failing, the scan keyspace and the index keyspace are the image of the rows and of the catalog after
every request, however the transactions of the sessions and the statements on the catalog are interleaved. -/
theorem derived_exact_run {store : MapSql C ck} (hintact : Intact G store) (hexact : DerivedExact G store)
    (hplan : store.led.plan = []) {cs : List (ℕ × SqlRequest)}
    (hcs : Machine.Along (observed G) (fun s c => InContract G s c ∧ RoomFor s) (⟨store, fun _ => {}⟩, fun _ => []) cs) :
    DerivedExact G (Machine.run (observed G) (⟨store, fun _ => {}⟩, fun _ => []) cs).2.1.store := by
  have hx : InSync G store := ⟨hexact, hplan⟩
  exact (kept_run (fun hx h hroom hstep => hx.step h hroom hstep) hx hintact hcs).derived

theorem derivedExact_empty : DerivedExact G (emptySql C ck) := by
  intro key value _
  constructor
  · intro h
    cases h
  · rintro (⟨-, id, pk, d, row, ⟨hd, -⟩, -⟩ | ⟨id, d, row, idx, cols, ⟨hd, -⟩, -⟩)
    · cases hd
    · cases hd

theorem rowFor_account {st : SqlStore (MapLedger quickCrypto [])} (hst : st.defs.get 1 = some accountsDef) (id v : Int64) :
    RowFor sampleLib st 1 (account id v) := by
  intro d hd
  obtain rfl := Option.some.inj (hst.symm.trans hd)
  exact engineRow_account id v

/-- Session 0 inserts an account; before it commits, session 1 creates an index of the table. -/
def indexedRun : List (ℕ × SqlRequest) :=
  [(0, .ddl (.createTable (ascii "accounts") accountsSchema [])), (0, .call (.start false)),
    (0, .call (.insert 1 (account 1 10))), (0, .call (.close 1)),
    (1, .ddl (.createIndex (ascii "accounts") (ascii "byV") ⟨true, [⟨ascii "v", 0⟩]⟩)), (0, .call .commit)]

theorem derived_exact_run_indexed :
    let s := (Machine.run (observed sampleLib) (⟨emptySql quickCrypto [], fun _ => {}⟩, fun _ => []) indexedRun).2.1.store
    DerivedExact sampleLib s ∧ s.led.derived.get (entryKey 1 (0x01 :: encInt64 10) (encInt64 1)) = some (encInt64 1) := by
  intro s
  have hroom : Machine.Along (observed sampleLib) (fun s _ => RoomFor s)
      (⟨emptySql quickCrypto [], fun _ => {}⟩, fun _ => []) indexedRun := by decide
  refine ⟨derived_exact_run intact_empty derivedExact_empty rfl (Machine.Along.and ⟨fun _ _ => rfl, trivial,
    ⟨?_, rowFor_account (by decide) 1 10⟩, trivial, fun _ _ => rfl, trivial, trivial⟩ hroom), by decide⟩
  exact Option.isSome_iff_ne_none.1 (by decide)

end ImmutableLedger
