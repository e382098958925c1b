import ImmutableLedger.Proof.Issued

/-!
# What every commit keeps

Three things hold of a store through all its steps, whether commits return or fail: the ids of the catalog in memory are
distinct and below the next ones (`Shape`), every stored row of a table is the encoding of a row of the engine under its own
primary key (`RowsOk`), and between two states the version tells whether a row may have changed (`Since`).

* `Shape.step`, `RowsOk.step`, `Since.step`: one step.
* `Intact.steps`: any number of them.
-/

namespace ImmutableLedger

open EStateM

variable {C : Crypto} {ck : Bytes} {G : GoLib} {s s' : MapSql C ck}

/-! ## The catalog in memory -/

/-- The definitions are filed under their ids, which are below the next one; the ids of indexes are distinct. -/
structure DefsOk (m : CatalogMeta) (defs : OrdMap UInt64 TableDef) : Prop where
  own : ∀ id d, defs.get id = some d → d.id = id
  ids : ∀ id d, defs.get id = some d → id < m.nextTableID
  indexIds : ∀ id d, defs.get id = some d → (d.indexes.map IndexDef.id).Nodup ∧ ∀ x ∈ d.indexes, x.id < m.nextIndexID
  owner : ∀ i j d e, defs.get i = some d → defs.get j = some e → ∀ x ∈ d.indexes, ∀ y ∈ e.indexes, x.id = y.id → i = j

/-- Every name has a definition, and a table has one name. -/
structure NamesOk (tables : OrdMap Bytes UInt64) (defs : OrdMap UInt64 TableDef) : Prop where
  named : ∀ lower id, tables.get lower = some id → ∃ d, defs.get id = some d
  once : ∀ a b id, tables.get a = some id → tables.get b = some id → a = b

/-- The catalog in memory is in order. -/
structure Shape (s : MapSql C ck) : Prop where
  defs : DefsOk s.catMeta s.defs
  names : NamesOk s.tables s.defs

theorem Shape.ownIds (h : Shape s) : OwnIds s := h.defs.own

theorem Shape.congr (h : Shape s) (hmeta : s'.catMeta = s.catMeta) (htables : s'.tables = s.tables)
    (hdefs : s'.defs = s.defs) : Shape s' := by
  obtain ⟨hd, hn⟩ := h
  rw [← hmeta, ← hdefs] at hd
  rw [← htables, ← hdefs] at hn
  exact ⟨hd, hn⟩

variable {m m' : CatalogMeta}

theorem DefsOk.congr {defs : OrdMap UInt64 TableDef} (h : DefsOk m defs)
    (htable : m'.nextTableID = m.nextTableID) (hindex : m'.nextIndexID = m.nextIndexID) : DefsOk m' defs := by
  obtain ⟨own, ids, indexIds, owner⟩ := h
  rw [← htable] at ids
  rw [← hindex] at indexIds
  exact ⟨own, ids, indexIds, owner⟩

variable {tables : OrdMap Bytes UInt64}

theorem NamesOk.defs {defs defs' : OrdMap UInt64 TableDef} (h : NamesOk tables defs)
    (hdefs : ∀ id d, defs.get id = some d → ∃ d', defs'.get id = some d') : NamesOk tables defs' := by
  refine ⟨fun lower id hl => ?_, h.once⟩
  obtain ⟨d, hd⟩ := h.named lower id hl
  exact hdefs id d hd

variable {d d' : TableDef}

/-- A definition replaced: its indexes are old ones and at most the next one. -/
theorem DefsOk.setDef {defs : OrdMap UInt64 TableDef} (h : DefsOk m defs) {id : UInt64}
    (hd : defs.get id = some d) (hid : d'.id = d.id) (hnodup : (d'.indexes.map IndexDef.id).Nodup)
    (hfrom : ∀ x ∈ d'.indexes, x.id ∈ d.indexes.map IndexDef.id ∨ (x.id = m.nextIndexID ∧ x.id < m'.nextIndexID))
    (htable : m'.nextTableID = m.nextTableID) (hindex : m.nextIndexID ≤ m'.nextIndexID) :
    DefsOk m' (defs.insert id d') := by
  have hlt : ∀ {x : UInt64}, x < m.nextIndexID → x < m'.nextIndexID := fun hx => lt_of_lt_of_le hx hindex
  have hget : ∀ {j : UInt64} {e : TableDef}, (defs.insert id d').get j = some e →
      (j = id ∧ e = d') ∨ (j ≠ id ∧ defs.get j = some e) := by
    intro j e he
    rw [OrdMap.get_insert] at he
    split at he
    · rename_i hj
      exact .inl ⟨hj, (Option.some.inj he).symm⟩
    · rename_i hj
      exact .inr ⟨hj, he⟩
  -- an index of the new definition is none of another table
  have hother : ∀ j e, j ≠ id → defs.get j = some e → ∀ x ∈ d'.indexes, ∀ y ∈ e.indexes, x.id ≠ y.id := by
    intro j e hj he x hx y hy hxy
    rcases hfrom x hx with hold | ⟨hnew, -⟩
    · obtain ⟨z, hz, hzx⟩ := List.mem_map.1 hold
      exact hj (h.owner id j d e hd he z hz y hy (hzx.trans hxy)).symm
    · have hy' := (h.indexIds j e he).2 y hy
      rw [← hxy, hnew] at hy'
      exact absurd hy' (lt_irrefl _)
  refine ⟨?_, ?_, ?_, ?_⟩
  · intro j e he
    rcases hget he with ⟨rfl, rfl⟩ | ⟨-, he'⟩
    · rw [hid]
      exact h.own _ d hd
    · exact h.own j e he'
  · intro j e he
    rw [htable]
    rcases hget he with ⟨rfl, rfl⟩ | ⟨-, he'⟩
    · exact h.ids _ d hd
    · exact h.ids j e he'
  · intro j e he
    rcases hget he with ⟨rfl, rfl⟩ | ⟨-, he'⟩
    · refine ⟨hnodup, fun x hx => ?_⟩
      rcases hfrom x hx with hold | ⟨-, hnew⟩
      · obtain ⟨z, hz, hzx⟩ := List.mem_map.1 hold
        rw [← hzx]
        exact hlt ((h.indexIds _ d hd).2 z hz)
      · exact hnew
    · obtain ⟨h₁, h₂⟩ := h.indexIds j e he'
      exact ⟨h₁, fun x hx => hlt (h₂ x hx)⟩
  · intro i j e e' he he' x hx y hy hxy
    rcases hget he with ⟨rfl, rfl⟩ | ⟨hi, hei⟩
    · rcases hget he' with ⟨rfl, -⟩ | ⟨hj, hej⟩
      · rfl
      · exact absurd hxy (hother j e' hj hej x hx y hy)
    · rcases hget he' with ⟨rfl, rfl⟩ | ⟨hj, hej⟩
      · exact absurd hxy.symm (hother i e hi hei y hy x hx)
      · exact h.owner i j e e' hei hej x hx y hy hxy

/-- A definition with other fields than its indexes replaced. -/
theorem DefsOk.setFields {defs : OrdMap UInt64 TableDef} (h : DefsOk m defs) {id : UInt64}
    (hd : defs.get id = some d) (hid : d'.id = d.id) (hidx : d'.indexes = d.indexes)
    (htable : m'.nextTableID = m.nextTableID) (hindex : m'.nextIndexID = m.nextIndexID) :
    DefsOk m' (defs.insert id d') := by
  refine h.setDef hd hid (hidx ▸ (h.indexIds id d hd).1) (fun x hx => .inl ?_) htable (le_of_eq hindex.symm)
  rw [hidx] at hx
  exact List.mem_map_of_mem hx

theorem get_insert_ne_none {defs : OrdMap UInt64 TableDef} {i : UInt64} {d' : TableDef} :
    ∀ id d, defs.get id = some d → ∃ e, (defs.insert i d').get id = some e := by
  intro id d hd
  rw [OrdMap.get_insert]
  split
  · exact ⟨d', rfl⟩
  · exact ⟨d, hd⟩

/-- A new table. -/
theorem Shape.created (h : Shape s) (hroom : s.catMeta.nextTableID.toNat + 1 < 2 ^ 64) {lower : Bytes} {d : TableDef}
    {m : CatalogMeta} (hid : d.id = s.catMeta.nextTableID) (hidx : d.indexes = [])
    (htable : m.nextTableID = s.catMeta.nextTableID + 1) (hindex : m.nextIndexID = s.catMeta.nextIndexID)
    (hmeta : s'.catMeta = m) (htables : s'.tables = s.tables.insert lower d.id) (hdefs : s'.defs = s.defs.insert d.id d) :
    Shape s' := by
  have hnext : s.catMeta.nextTableID < s.catMeta.nextTableID + 1 :=
    lt_add_one_of_toNat hroom
  have hget : ∀ {j : UInt64} {e : TableDef}, s'.defs.get j = some e → (j = d.id ∧ e = d) ∨ s.defs.get j = some e := by
    intro j e he
    rw [hdefs, OrdMap.get_insert] at he
    split at he
    · rename_i hj
      exact .inl ⟨hj, (Option.some.inj he).symm⟩
    · exact .inr he
  refine ⟨⟨?_, ?_, ?_, ?_⟩, ?_, ?_⟩
  · intro j e he
    rcases hget he with ⟨rfl, rfl⟩ | he'
    · rfl
    · exact h.defs.own j e he'
  · intro j e he
    rw [hmeta, htable]
    rcases hget he with ⟨rfl, -⟩ | he'
    · rw [hid]
      exact hnext
    · exact lt_trans (h.defs.ids j e he') hnext
  · intro j e he
    rw [hmeta, hindex]
    rcases hget he with ⟨-, rfl⟩ | he'
    · rw [hidx]
      exact ⟨List.nodup_nil, fun x hx => absurd hx List.not_mem_nil⟩
    · exact h.defs.indexIds j e he'
  · intro i j e e' he he' x hx y hy hxy
    rcases hget he with ⟨-, rfl⟩ | hei
    · rw [hidx] at hx
      cases hx
    · rcases hget he' with ⟨-, rfl⟩ | hej
      · rw [hidx] at hy
        cases hy
      · exact h.defs.owner i j e e' hei hej x hx y hy hxy
  · intro a id ha
    rw [htables, OrdMap.get_insert] at ha
    rw [hdefs, OrdMap.get_insert]
    split at ha
    · cases ha
      exact ⟨d, if_pos rfl⟩
    · obtain ⟨e, he⟩ := h.names.named a id ha
      split
      · exact ⟨d, rfl⟩
      · exact ⟨e, he⟩
  · intro a b id ha hb
    -- the new id names no other table
    have hfresh : ∀ c, s.tables.get c ≠ some d.id := by
      intro c hc
      obtain ⟨e, he⟩ := h.names.named c _ hc
      have hlt := h.defs.ids _ e he
      rw [hid] at hlt
      exact absurd hlt (lt_irrefl _)
    rw [htables, OrdMap.get_insert] at ha hb
    split at ha
    · rename_i hal
      cases ha
      split at hb
      · rename_i hbl
        rw [hal, hbl]
      · exact absurd hb (hfresh b)
    · split at hb
      · cases hb
        exact absurd ha (hfresh a)
      · exact h.names.once a b id ha hb

/-- A table under another name. -/
theorem NamesOk.renamed {defs : OrdMap UInt64 TableDef} (h : NamesOk tables defs)
    {old new : Bytes} {id : UInt64} (hold : tables.get old = some id) :
    NamesOk ((tables.erase old).insert new id) defs := by
  have hget : ∀ {a j}, ((tables.erase old).insert new id).get a = some j →
      (a = new ∧ j = id) ∨ (a ≠ old ∧ tables.get a = some j) := by
    intro a j ha
    rw [OrdMap.get_insert] at ha
    split at ha
    · rename_i han
      exact .inl ⟨han, (Option.some.inj ha).symm⟩
    · rw [OrdMap.get_erase] at ha
      split at ha
      · cases ha
      · rename_i hao
        exact .inr ⟨hao, ha⟩
  refine ⟨fun a j ha => ?_, fun a b j ha hb => ?_⟩
  · rcases hget ha with ⟨-, rfl⟩ | ⟨-, ha'⟩
    · exact h.named old _ hold
    · exact h.named a j ha'
  · -- the old name is gone, so the id has the new one only
    have hgone : ∀ c, c ≠ old → tables.get c ≠ some id := fun c hc hget' => hc (h.once c old id hget' hold)
    rcases hget ha with ⟨rfl, rfl⟩ | ⟨hao, ha'⟩
    · rcases hget hb with ⟨rfl, -⟩ | ⟨hbo, hb'⟩
      · rfl
      · exact absurd hb' (hgone b hbo)
    · rcases hget hb with ⟨rfl, rfl⟩ | ⟨-, hb'⟩
      · exact absurd ha' (hgone a hao)
      · exact h.once a b j ha' hb'

theorem NamesOk.erase {defs : OrdMap UInt64 TableDef} (h : NamesOk tables defs)
    (lower : Bytes) : NamesOk (tables.erase lower) defs := by
  have hget : ∀ {a j}, (tables.erase lower).get a = some j → tables.get a = some j := by
    intro a j ha
    rw [OrdMap.get_erase] at ha
    split at ha
    · cases ha
    · exact ha
  exact ⟨fun a j ha => h.named a j (hget ha), fun a b j ha hb => h.once a b j (hget ha) (hget hb)⟩

/-- The ids and the version stay within 64 bits for `n` more steps. -/
structure Room (n : ℕ) (s : MapSql C ck) : Prop where
  table : s.catMeta.nextTableID.toNat + n < 2 ^ 64
  index : s.catMeta.nextIndexID.toNat + n < 2 ^ 64
  version : s.led.version.toNat + n < 2 ^ 64

/-- **The catalog in memory stays in order.** -/
theorem Shape.step (h : Shape s) (hroom : Room 1 s) (hstep : SqlStep G s s') : Shape s' := by
  cases hstep with
  | counted next hd =>
    exact ⟨h.defs.setFields hd rfl rfl rfl rfl, h.names.defs get_insert_ne_none⟩
  | @failed ledOps scanOps f e _ hi hrun =>
    have hcat := hrun ▸ commit_landed ledOps scanOps s
    exact h.congr hcat.catMeta hcat.tables hcat.defs
  | @done ledOps scanOps f t hi hrun =>
    have hcat := hrun ▸ commit_landed ledOps scanOps s
    have hmeta : t.catMeta = s.catMeta := hcat.catMeta
    have htables : t.tables = s.tables := hcat.tables
    have hdefs : t.defs = s.defs := hcat.defs
    have ht : Shape t := h.congr hmeta htables hdefs
    cases hi with
    | rows _ => exact ht
    | counter _ _ => exact ht
    | deleteRows _ _ => exact ht
    | createTable hnew hd =>
      obtain ⟨hid, -, hidx⟩ := newTableDef_ok hd
      exact ht.created (by rw [hmeta]; exact hroom.table) (by rw [hmeta]; exact hid) hidx (by rw [hmeta]) (by rw [hmeta])
        rfl rfl rfl
    | @dropTable name id d m hid hd hm _ =>
      subst hm
      exact ⟨ht.defs.congr (by rw [hmeta]; rfl) (by rw [hmeta]; rfl), ht.names.erase _⟩
    | @renameTable oldName newName id d hid hnew hd =>
      have hget : t.defs.get id = some d := by
        rw [hdefs]
        exact hd
      have hold : t.tables.get (G.toLower oldName) = some id := by
        rw [htables]
        exact hid
      refine ⟨?_, (ht.names.renamed hold).defs get_insert_ne_none⟩
      exact ht.defs.setFields hget rfl rfl (by rw [hmeta]; rfl) (by rw [hmeta]; rfl)
    | @createIndex id d idx rounds entries hd hidx hbuild =>
      have hget : t.defs.get id = some d := by
        rw [hdefs]
        exact tableByID_eq_some hd
      have hnext : s.catMeta.nextIndexID < s.catMeta.nextIndexID + 1 :=
        lt_add_one_of_toNat hroom.index
      refine ⟨ht.defs.setDef hget rfl ?_ ?_ (by rw [hmeta]) (by rw [hmeta]; exact hnext.le),
        ht.names.defs get_insert_ne_none⟩
      · obtain ⟨hnodup, hbelow⟩ := ht.defs.indexIds id d hget
        rw [List.map_append, List.nodup_append]
        refine ⟨hnodup, List.nodup_singleton _, fun x hx y hy hxy => ?_⟩
        obtain ⟨z, hz, rfl⟩ := List.mem_map.1 hx
        have hy' : y = idx.id := List.mem_singleton.1 hy
        have hlt := hbelow z hz
        rw [hxy, hy', hidx, hmeta] at hlt
        exact absurd hlt (lt_irrefl _)
      · intro x hx
        rcases List.mem_append.1 hx with hx | hx
        · exact .inl (List.mem_map_of_mem hx)
        · obtain rfl := List.mem_singleton.1 hx
          refine .inr ⟨by rw [hidx, hmeta], ?_⟩
          rw [hidx]
          exact hnext
    | @dropIndex id d pos idx rounds scanOps hd hidx hscan =>
      have hget : t.defs.get id = some d := by
        rw [hdefs]
        exact tableByID_eq_some hd
      have hsub : (d.indexes.eraseIdx pos).Sublist d.indexes := List.eraseIdx_sublist _ _
      refine ⟨ht.defs.setDef hget rfl ?_ (fun x hx => .inl ?_) rfl le_rfl, ht.names.defs get_insert_ne_none⟩
      · exact (ht.defs.indexIds id d hget).1.sublist (hsub.map _)
      · exact List.mem_map_of_mem (hsub.subset hx)
    | @renameIndex id d pos new hd =>
      have hget : t.defs.get id = some d := by
        rw [hdefs]
        exact tableByID_eq_some hd
      refine ⟨ht.defs.setDef hget rfl ?_ (fun x hx => .inl ?_) rfl le_rfl, ht.names.defs get_insert_ne_none⟩
      · show ((d.indexes.modify pos _).map IndexDef.id).Nodup
        rw [map_id_modify]
        exact (ht.defs.indexIds id d hget).1
      · have hx' := List.mem_map_of_mem (f := IndexDef.id) hx
        show x.id ∈ _
        rw [← map_id_modify new d.indexes pos]
        exact hx'

/-! ## Stored rows -/

/-- The stored value is a row of the engine under its own primary key. -/
def RowAt (G : GoLib) (d : TableDef) (pk raw : Bytes) : Prop :=
  ∃ row data, GoodRow G d pk row ∧ encodeRow d.columns row = .ok data ∧ raw = rowPayload d.id data

/-- What is read back of a stored row: a row under the same key that encodes to the stored bytes. -/
theorem RowAt.decoded {d : TableDef} {pk raw : Bytes} {row : Row} (h : RowAt G d pk raw)
    (hdec : decodeRow G.round32 d.columns (raw.drop 9) = .ok row) : GoodRow G d pk row ∧ Matches d (some raw) (some row) := by
  obtain ⟨row₀, data, hgood, henc, rfl⟩ := h
  obtain ⟨data', henc', hdec'⟩ := hgood.engine.decodes
  obtain rfl : data = data' := Except.ok.inj (henc.symm.trans henc')
  rw [drop_payload, hdec'] at hdec
  obtain rfl := Except.ok.inj hdec
  have halike := hgood.engine.alike
  refine ⟨⟨hgood.engine.storedRow, ?_⟩, .row ?_⟩
  · rw [← halike.encodePK]
    exact hgood.filed
  · rw [← halike.encodeRow]
    exact henc

/-- The stored rows of the tables; a table that does not exist has none. -/
structure RowsOk (G : GoLib) (s : MapSql C ck) : Prop where
  stored : ∀ id d pk raw, s.defs.get id = some d → s.led.vals.get (rowKey id pk) = some raw → RowAt G d pk raw
  fresh : ∀ id pk, s.defs.get id = none → s.led.vals.get (rowKey id pk) = none

/-- Two definitions of one table: what is said of rows is the same. -/
structure SameCols (d d' : TableDef) : Prop where
  id : d'.id = d.id
  columns : d'.columns = d.columns
  pkOrds : d'.pkOrds = d.pkOrds

theorem SameCols.refl (d : TableDef) : SameCols d d := ⟨rfl, rfl, rfl⟩

theorem SameCols.trans {d₁ d₂ d₃ : TableDef} (h : SameCols d₁ d₂) (h' : SameCols d₂ d₃) : SameCols d₁ d₃ :=
  ⟨h'.id.trans h.id, h'.columns.trans h.columns, h'.pkOrds.trans h.pkOrds⟩

theorem SameCols.encodePK (h : SameCols d d') (row : Row) :
    ImmutableLedger.encodePK d' row = ImmutableLedger.encodePK d row := by
  have hcols : ∀ ords, encodePKCols d' row ords = encodePKCols d row ords := by
    intro ords
    induction ords with
    | nil => rfl
    | cons ord ords ih =>
      unfold encodePKCols TableDef.columnAt
      rw [ih, h.columns]
  unfold ImmutableLedger.encodePK
  rw [hcols, h.pkOrds]

theorem GoodRow.congr {pk : Bytes} {row : Row} (h : GoodRow G d pk row) (hc : SameCols d d') :
    GoodRow G d' pk row := by
  refine ⟨?_, by rw [hc.encodePK]; exact h.filed⟩
  rw [hc.columns]
  exact h.engine

theorem RowAt.congr {pk raw : Bytes} (h : RowAt G d pk raw) (hc : SameCols d d') : RowAt G d' pk raw := by
  obtain ⟨row, data, hrow, henc, rfl⟩ := h
  refine ⟨row, data, hrow.congr hc, ?_, ?_⟩
  · rw [hc.columns]
    exact henc
  · rw [hc.id]

theorem Matches.congr {raw : Option Bytes} {old : Option Row} (h : Matches d raw old)
    (hc : SameCols d d') : Matches d' raw old := by
  cases h with
  | absent => exact .absent
  | row h =>
    rw [← hc.columns] at h
    rw [← hc.id]
    exact .row h

/-! ## What a commit does to the rows -/

/-- A row before and after a commit: it stays, it goes, or it is a row of a catalogued table. -/
inductive RowChange (G : GoLib) (s : MapSql C ck) (id : UInt64) (pk : Bytes) (before : Option Bytes) :
    Option Bytes → Prop
  | kept : RowChange G s id pk before before
  | gone : RowChange G s id pk before none
  | written {d : TableDef} {raw : Bytes} (hd : s.tableByID id = some d) (h : RowAt G d pk raw) :
    RowChange G s id pk before (some raw)

variable {scanOps : List BatchOp} {ledOps : List Op}

theorem RowBatch.rowChange {tts : List (UInt64 × TableTxn)}
    (h : RowBatch G s tts ledOps scanOps) (hown : OwnIds s) (id : UInt64) (pk : Bytes) :
    RowChange G s id pk (s.led.vals.get (rowKey id pk)) ((writeOps s.led.vals ledOps).get (rowKey id pk)) := by
  have hbatch := h.built.batchOf
  by_cases hmem : ∃ tt p, (id, tt) ∈ tts ∧ tt.get pk = some p
  · obtain ⟨tt, p, htt, hp⟩ := hmem
    obtain ⟨d, hd⟩ := h.built.table _ htt
    have hw := hbatch.get_row s.led.vals hown h.nodup htt hp (tableByID_eq_some hd)
    have hgood := h.good _ htt d hd pk p hp
    obtain ⟨old, new⟩ := p
    cases new with
    | none =>
      cases old with
      | none =>
        have hsame : (writeOps s.led.vals ledOps).get (rowKey id pk) = s.led.vals.get (rowKey id pk) := hw
        rw [hsame]
        exact .kept
      | some old =>
        have hgone : (writeOps s.led.vals ledOps).get (rowKey id pk) = none := hw
        rw [hgone]
        exact .gone
    | some row =>
      obtain ⟨data, henc, hget⟩ :
          ∃ data, encodeRow d.columns row = .ok data ∧
            (writeOps s.led.vals ledOps).get (rowKey id pk) = some (rowPayload d.id data) := by
        cases old with
        | none => exact hw
        | some old => exact hw
      rw [hget]
      exact .written hd ⟨row, data, hgood.new row rfl, henc, rfl⟩
  · have hnot : ∀ tt, (id, tt) ∈ tts → tt.get pk = none := by
      intro tt htt
      cases hp : tt.get pk with
      | none => rfl
      | some p => exact absurd ⟨tt, p, htt, hp⟩ hmem
    have hkeep : (writeOps s.led.vals ledOps).get (rowKey id pk) = s.led.vals.get (rowKey id pk) :=
      hbatch.get_row_of_notin s.led.vals hown hnot
    rw [hkeep]
    exact .kept

/-- No operation is on the key of a row. -/
def OffRows (ops : List Op) : Prop := ∀ op ∈ ops, ∃ key : SqlKey, op.key = key.bytes ∧ ∀ id pk, key ≠ .row id pk

theorem offRows_nil : OffRows [] := fun _ hop => by cases hop

theorem OffRows.cons {op : Op} {ops : List Op} (key : SqlKey) (hkey : op.key = key.bytes) (hne : ∀ id pk, key ≠ .row id pk)
    (h : OffRows ops) : OffRows (op :: ops) :=
  List.forall_mem_cons.2 ⟨⟨key, hkey, hne⟩, h⟩

theorem offRows_catalogOps {m : CatalogMeta} {d : TableDef} : OffRows (catalogOps G m [d]) :=
  .cons .catalog rfl (by simp) (.cons (.table _) rfl (by simp) offRows_nil)

theorem offRows_counter (id : UInt64) (v : Bytes) : OffRows [Op.put (autoIncKey id) v] :=
  .cons (.counter id) rfl (by simp) offRows_nil

theorem offRows_dropTable (m : CatalogMeta) (d : TableDef) :
    OffRows [Op.put metaKey (tagCatalogMeta :: G.marshalMeta m), Op.del (tableKey G d.name), Op.del (autoIncKey d.id)] :=
  .cons .catalog rfl (by simp) (.cons (.table _) rfl (by simp) (.cons (.counter _) rfl (by simp) offRows_nil))

theorem offRows_renameTable {m : CatalogMeta} {d : TableDef} (oldName : Bytes) :
    OffRows (catalogOps G m [d] ++ [Op.del (tableKey G oldName)]) :=
  List.forall_mem_append.2 ⟨offRows_catalogOps, OffRows.cons (.table _) rfl (by simp) offRows_nil⟩

/-- Operations on other keys than rows. -/
theorem rowChange_of_offRows {id : UInt64} {pk : Bytes} (h : OffRows ledOps) :
    RowChange G s id pk (s.led.vals.get (rowKey id pk)) ((writeOps s.led.vals ledOps).get (rowKey id pk)) := by
  have hsame : (writeOps s.led.vals ledOps).get (rowKey id pk) = s.led.vals.get (rowKey id pk) := by
    refine get_writeOps_of_notin fun op hop he => ?_
    obtain ⟨key, hkey, hne⟩ := h op hop
    exact hne id pk (SqlKey.bytes_inj (hkey.symm.trans he))
  rw [hsame]
  exact .kept

variable {f : MapSql C ck → MapSql C ck}

/-- **What a commit does to a row.** -/
theorem Issued.rowChange
    (h : Issued G s ledOps scanOps f) (hown : OwnIds s)
    (id : UInt64) (pk : Bytes) :
    RowChange G s id pk (s.led.vals.get (rowKey id pk)) ((writeOps s.led.vals ledOps).get (rowKey id pk)) := by
  cases h with
  | rows h => exact h.rowChange hown id pk
  | counter i v => exact rowChange_of_offRows (offRows_counter i _)
  | createTable _ _ => exact rowChange_of_offRows offRows_catalogOps
  | @deleteRows i d r hd hops =>
    -- every operation deletes a row
    have hdel : ∀ op ∈ r.1, op.delete = true := by
      intro op hop
      rw [deleteRowOps_keys d hops] at hop
      obtain ⟨kv, -, rfl⟩ := List.mem_map.1 hop
      rfl
    by_cases hmem : ∃ op ∈ r.1, op.key = rowKey id pk
    · have hgone : (writeOps s.led.vals r.1).get (rowKey id pk) = none :=
        get_writeOps hmem fun op hop _ => if_pos (hdel op hop)
      rw [hgone]
      exact .gone
    · have hsame : (writeOps s.led.vals r.1).get (rowKey id pk) = s.led.vals.get (rowKey id pk) :=
        get_writeOps_of_notin fun op hop he => hmem ⟨op, hop, he⟩
      rw [hsame]
      exact .kept
  | dropTable _ _ _ _ => exact rowChange_of_offRows (offRows_dropTable _ _)
  | renameTable _ _ _ => exact rowChange_of_offRows (offRows_renameTable _)
  | createIndex _ _ _ | dropIndex _ _ _ | renameIndex _ _ _ => exact rowChange_of_offRows offRows_catalogOps

/-- What a commit leaves of the ledger: the map and the version as they were, or the next version. -/
theorem commit_led (ledOps : List Op) (scanOps : List BatchOp) (s : MapSql C ck) :
    ((commit ledOps scanOps s).state.led.vals = s.led.vals ∧ (commit ledOps scanOps s).state.led.version = s.led.version) ∨
      ((commit ledOps scanOps s).state.led.vals = (s.led.put ledOps).vals ∧
        (commit ledOps scanOps s).state.led.version = s.led.version + 1) := by
  have hput : ((s.led.put ledOps).vals = s.led.vals ∧ (s.led.put ledOps).version = s.led.version) ∨
      (s.led.put ledOps).version = s.led.version + 1 := by
    unfold MapLedger.put
    split
    · exact .inr (by rw [MapLedger.spend_version, MapLedger.advance_version])
    · exact .inl ⟨rfl, rfl⟩
  have hc := commit_cases ledOps scanOps s
  generalize commit ledOps scanOps s = r at hc ⊢
  cases hc with
  | refused _ | failed _ _ _ => exact .inl ⟨rfl, rfl⟩
  | torn _ _ _ | done _ _ _ =>
    rcases hput with ⟨hv, hver⟩ | hver
    · exact .inl ⟨hv, hver⟩
    · exact .inr ⟨rfl, hver⟩

/-! ## Between two states -/

/-- What is known of a later state: tables keep their columns, and rows that changed show in the version. -/
structure Since (s s' : MapSql C ck) : Prop where
  defs : ∀ id d, s.defs.get id = some d → ∃ d', s'.defs.get id = some d' ∧ SameCols d d'
  forward : s.led.version.toNat ≤ s'.led.version.toNat
  quiet : s'.led.version = s.led.version → ∀ id pk, s'.led.vals.get (rowKey id pk) = s.led.vals.get (rowKey id pk)

theorem Since.refl (s : MapSql C ck) : Since s s :=
  ⟨fun _ d hd => ⟨d, hd, SameCols.refl d⟩, le_rfl, fun _ _ _ => rfl⟩

theorem Since.trans {s₁ s₂ s₃ : MapSql C ck} (h : Since s₁ s₂) (h' : Since s₂ s₃) : Since s₁ s₃ := by
  refine ⟨fun id d hd => ?_, h.forward.trans h'.forward, fun hv id pk => ?_⟩
  · obtain ⟨d₂, hd₂, hc₂⟩ := h.defs id d hd
    obtain ⟨d₃, hd₃, hc₃⟩ := h'.defs id d₂ hd₂
    exact ⟨d₃, hd₃, hc₂.trans hc₃⟩
  · -- the version in between is the same
    have hback : s₃.led.version.toNat = s₁.led.version.toNat := congrArg UInt64.toNat hv
    have h₁ := h.forward
    have h₂ := h'.forward
    have hmid : s₂.led.version = s₁.led.version := UInt64.toNat_inj.1 (by omega)
    rw [h'.quiet (hv.trans hmid.symm), h.quiet hmid]

/-- The definitions after a step: those before it with the same columns, and possibly a new one. -/
structure SameDefs (defs defs' : OrdMap UInt64 TableDef) : Prop where
  keeps : ∀ id d, defs.get id = some d → ∃ d', defs'.get id = some d' ∧ SameCols d d'
  from' : ∀ id d', defs'.get id = some d' → (∃ d, defs.get id = some d ∧ SameCols d d') ∨ defs.get id = none

theorem SameDefs.refl (defs : OrdMap UInt64 TableDef) : SameDefs defs defs :=
  ⟨fun _ d hd => ⟨d, hd, SameCols.refl d⟩, fun _ d hd => .inl ⟨d, hd, SameCols.refl d⟩⟩

theorem SameDefs.insert {defs : OrdMap UInt64 TableDef} {id : UInt64} {d' : TableDef}
    (h : ∀ d, defs.get id = some d → SameCols d d') : SameDefs defs (defs.insert id d') := by
  refine ⟨fun j d hd => ?_, fun j e he => ?_⟩
  · rw [OrdMap.get_insert]
    split
    · rename_i hj
      rw [hj] at hd
      exact ⟨d', rfl, h d hd⟩
    · exact ⟨d, hd, SameCols.refl d⟩
  · rw [OrdMap.get_insert] at he
    split at he
    · rename_i hj
      cases he
      rw [hj]
      cases hd : defs.get id with
      | none => exact .inr rfl
      | some d => exact .inl ⟨d, rfl, h d hd⟩
    · exact .inl ⟨e, he, SameCols.refl e⟩

theorem SameDefs.set {defs : OrdMap UInt64 TableDef} {id : UInt64} (hd : defs.get id = some d)
    (h : SameCols d d') : SameDefs defs (defs.insert id d') :=
  SameDefs.insert fun e he => by
    obtain rfl : d = e := Option.some.inj (hd.symm.trans he)
    exact h

theorem Issued.sameDefs
    (h : Issued G s ledOps scanOps f) (hs : Shape s)
    {t : MapSql C ck} (ht : t.defs = s.defs) : SameDefs s.defs (f t).defs := by
  cases h with
  | rows _ | counter _ _ | deleteRows _ _ | dropTable _ _ _ _ =>
    show SameDefs s.defs t.defs
    rw [ht]
    exact SameDefs.refl _
  | createTable _ hd =>
    obtain ⟨hid, -, -⟩ := newTableDef_ok hd
    dsimp only
    rw [ht]
    -- the id is new
    refine SameDefs.insert fun e he => ?_
    have hlt := hs.defs.ids _ e he
    rw [hid] at hlt
    exact absurd hlt (lt_irrefl _)
  | renameTable _ _ hd =>
    dsimp only
    rw [ht]
    exact SameDefs.set hd ⟨rfl, rfl, rfl⟩
  | createIndex hd _ _ | dropIndex hd _ _ | renameIndex _ _ hd =>
    dsimp only
    rw [ht]
    exact SameDefs.set (tableByID_eq_some hd) ⟨rfl, rfl, rfl⟩

/-- The ledger that is left is the one of the commit. -/
theorem Issued.led
    (h : Issued G s ledOps scanOps f) (t : MapSql C ck) : (f t).led = t.led := by cases h <;> rfl

/-- **What a step leaves**: the definitions, and each row. -/
theorem SqlStep.effect (h : SqlStep G s s') (hs : Shape s) : SameDefs s.defs s'.defs ∧
    (∀ id pk, RowChange G s id pk (s.led.vals.get (rowKey id pk)) (s'.led.vals.get (rowKey id pk))) ∧
    ((s'.led.vals = s.led.vals ∧ s'.led.version = s.led.version) ∨ s'.led.version = s.led.version + 1) := by
  -- the rows after a commit
  have hrows : ∀ {ledOps scanOps f} {t : MapSql C ck}, Issued G s ledOps scanOps f →
      (commit ledOps scanOps s).state = t →
      (∀ id pk, RowChange G s id pk (s.led.vals.get (rowKey id pk)) (t.led.vals.get (rowKey id pk))) ∧
      ((t.led.vals = s.led.vals ∧ t.led.version = s.led.version) ∨ t.led.version = s.led.version + 1) := by
    intro ledOps scanOps f t hi hstate
    rw [← hstate]
    rcases commit_led ledOps scanOps s with ⟨hv, hver⟩ | ⟨hv, hver⟩
    · exact ⟨fun id pk => by rw [hv]; exact .kept, .inl ⟨hv, hver⟩⟩
    · refine ⟨fun id pk => ?_, .inr hver⟩
      have hput := MapLedger.put_get s.led ledOps (k := rowKey id pk) (SqlKey.bytes_ne_history (.row id pk))
      rw [hv, hput]
      exact hi.rowChange hs.ownIds id pk
  cases h with
  | counted next hd => exact ⟨SameDefs.set hd ⟨rfl, rfl, rfl⟩, fun _ _ => .kept, .inl ⟨rfl, rfl⟩⟩
  | @failed ledOps scanOps f e _ hi hrun =>
    have hcat := hrun ▸ commit_landed ledOps scanOps s
    have hstate : (commit ledOps scanOps s).state = s' := by rw [hrun]; rfl
    have hdefs : s'.defs = s.defs := hcat.defs
    rw [hdefs]
    exact ⟨SameDefs.refl _, hrows hi hstate⟩
  | @done ledOps scanOps f t hi hrun =>
    have hcat := hrun ▸ commit_landed ledOps scanOps s
    have hstate : (commit ledOps scanOps s).state = t := by rw [hrun]; rfl
    have hdefs : t.defs = s.defs := hcat.defs
    rw [hi.led t]
    exact ⟨hi.sameDefs hs hdefs, hrows hi hstate⟩

theorem RowsOk.step (h : RowsOk G s) (hs : Shape s) (hstep : SqlStep G s s') : RowsOk G s' := by
  obtain ⟨hdefs, hrows, -⟩ := hstep.effect hs
  refine ⟨fun id d' pk raw hd' hraw => ?_, fun id pk hnone => ?_⟩
  · have hc := hrows id pk
    rw [hraw] at hc
    generalize hb : s.led.vals.get (rowKey id pk) = before at hc
    rcases hdefs.from' id d' hd' with ⟨d, hd, hsame⟩ | hnone
    · cases hc with
      | kept => exact (h.stored id d pk raw hd hb).congr hsame
      | written hd₁ hat =>
        obtain rfl := Option.some.inj (hd.symm.trans (tableByID_eq_some hd₁))
        exact hat.congr hsame
    · -- a new table has no rows
      cases hc with
      | kept =>
        rw [h.fresh id pk hnone] at hb
        cases hb
      | written hd₁ _ =>
        rw [tableByID_eq_some hd₁] at hnone
        cases hnone
  · have hnone' : s.defs.get id = none := by
      cases hd : s.defs.get id with
      | none => rfl
      | some d =>
        obtain ⟨d', hd', -⟩ := hdefs.keeps id d hd
        rw [hd'] at hnone
        cases hnone
    have hc := hrows id pk
    rw [h.fresh id pk hnone'] at hc
    generalize s'.led.vals.get (rowKey id pk) = after at hc ⊢
    cases hc with
    | kept => rfl
    | gone => rfl
    | written hd₁ _ =>
      rw [tableByID_eq_some hd₁] at hnone'
      cases hnone'

theorem Since.step (hs : Shape s) (hroom : Room 1 s) (hstep : SqlStep G s s') : Since s s' := by
  obtain ⟨hdefs, -, hled⟩ := hstep.effect hs
  have hone : (1 : UInt64).toNat = 1 := rfl
  have hver := hroom.version
  refine ⟨hdefs.keeps, ?_, fun hv id pk => ?_⟩
  · rcases hled with ⟨-, hver'⟩ | hver'
    · rw [hver']
    · rw [hver', UInt64.toNat_add]
      omega
  · rcases hled with ⟨hvals, -⟩ | hver'
    · rw [hvals]
    · rw [hver'] at hv
      exact absurd (congrArg UInt64.toNat hv) (by rw [UInt64.toNat_add]; omega)

/-! ## Any number of steps -/

/-- The next ids after a commit. -/
theorem Issued.nextIds (h : Issued G s ledOps scanOps f)
    {t : MapSql C ck} (ht : t.catMeta = s.catMeta) :
    ((f t).catMeta.nextTableID = s.catMeta.nextTableID ∨ (f t).catMeta.nextTableID = s.catMeta.nextTableID + 1) ∧
    ((f t).catMeta.nextIndexID = s.catMeta.nextIndexID ∨ (f t).catMeta.nextIndexID = s.catMeta.nextIndexID + 1) := by
  cases h with
  | rows _ | counter _ _ | deleteRows _ _ => exact ⟨.inl (congrArg _ ht), .inl (congrArg _ ht)⟩
  | createTable _ _ => exact ⟨.inr rfl, .inl rfl⟩
  | dropTable _ _ hm _ =>
    subst hm
    exact ⟨.inl rfl, .inl rfl⟩
  | renameTable _ _ _ => exact ⟨.inl rfl, .inl rfl⟩
  | createIndex _ _ _ => exact ⟨.inl rfl, .inr rfl⟩
  | dropIndex _ _ _ | renameIndex _ _ _ => exact ⟨.inl (congrArg _ ht), .inl (congrArg _ ht)⟩

theorem Room.mono {m n : ℕ} (h : Room n s) (hmn : m ≤ n) : Room m s := by
  obtain ⟨ht, hi, hv⟩ := h
  exact ⟨by omega, by omega, by omega⟩

theorem Room.step {n : ℕ} (h : Room (n + 1) s) (hs : Shape s) (hstep : SqlStep G s s') : Room n s' := by
  obtain ⟨htab, hidx, hver⟩ := h
  have hone : (1 : UInt64).toNat = 1 := rfl
  -- a number that stays or is advanced
  have hnext : ∀ {a b : UInt64}, b = a ∨ b = a + 1 → a.toNat + (n + 1) < 2 ^ 64 → b.toNat + n < 2 ^ 64 := by
    intro a b hab ha
    rcases hab with rfl | rfl
    · omega
    · rw [UInt64.toNat_add]
      omega
  obtain ⟨-, -, hled⟩ := hstep.effect hs
  have hv : s'.led.version.toNat + n < 2 ^ 64 := hnext (hled.imp_left And.right) hver
  cases hstep with
  | counted _ _ => exact ⟨hnext (.inl rfl) htab, hnext (.inl rfl) hidx, hv⟩
  | @failed ledOps scanOps f e _ hi hrun =>
    have hcat := hrun ▸ commit_landed ledOps scanOps s
    have hmeta : s'.catMeta = s.catMeta := hcat.catMeta
    exact ⟨hnext (.inl (congrArg _ hmeta)) htab, hnext (.inl (congrArg _ hmeta)) hidx, hv⟩
  | @done ledOps scanOps f t hi hrun =>
    have hcat := hrun ▸ commit_landed ledOps scanOps s
    obtain ⟨htable, hindex⟩ := hi.nextIds (t := t) hcat.catMeta
    exact ⟨hnext htable htab, hnext hindex hidx, hv⟩

/-- What every step keeps. -/
structure Intact (G : GoLib) (s : MapSql C ck) : Prop where
  shape : Shape s
  rows : RowsOk G s

/-- **What any number of steps keeps.** -/
theorem Intact.steps {n : ℕ} (h : Intact G s) (hroom : Room n s) (hsteps : SqlSteps G n s s') :
    Intact G s' ∧ Since s s' := by
  induction hsteps with
  | refl => exact ⟨h, Since.refl _⟩
  | step hstep _ _ ih =>
    have hone := hroom.mono (Nat.le_add_left 1 _)
    obtain ⟨h', hsince⟩ := ih ⟨h.shape.step hone hstep, h.rows.step h.shape hstep⟩ (hroom.step h.shape hstep)
    exact ⟨h', (Since.step h.shape hone hstep).trans hsince⟩

end ImmutableLedger
