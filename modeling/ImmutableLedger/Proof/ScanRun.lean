import ImmutableLedger.Proof.ScanExact
import ImmutableLedger.Proof.DerivedRun
import ImmutableLedger.Proof.OpenExact

/-!
# Scans in the states that sessions reach

After any interleaving of sessions, the keyspaces of a table hold the entries of its committed rows, and the rows of each
transaction have keys and are filed under their own.

* `exactSpace_of_derived`: an exact derived keyspace is exact for each keyspace of a table.
* `scan_wellformed_run`: when a scan in a session's transaction fails or returns a primary key twice.
-/

namespace ImmutableLedger

open EStateM LedgerIndex

variable {C : Crypto} {ck : Bytes} {G : GoLib} {s : MapSql C ck} {x : LedgerIndex} {id : UInt64} {pk : Bytes}
  {row : Row} {d : TableDef}

/-! ## Committed rows -/

theorem storedRow_payload (data : Bytes) :
    storedRow G d (some (rowPayload d.id data)) = decodeRow G.round32 d.columns data := by
  unfold storedRow
  dsimp only
  rw [drop_payload, if_neg]
  rintro (hlen | htag | hid)
  · rw [rowPayload, List.length_cons, List.length_append, Bytes.length_u64] at hlen
    omega
  · exact htag rfl
  · exact hid (rowId_payload d.id data)

/-- The committed rows of a table, by their primary-key bytes. -/
def committedRows (G : GoLib) (s : MapSql C ck) (d : TableDef) (pk : Bytes) : Option Row :=
  (storedRow G d (s.led.vals.get (rowKey d.id pk))).toOption

theorem committedRows_eq_some :
    committedRows G s d pk = some row ↔ storedRow G d (s.led.vals.get (rowKey d.id pk)) = .ok row := by
  unfold committedRows
  cases storedRow G d (s.led.vals.get (rowKey d.id pk)) <;> simp [Except.toOption]

theorem committedRows_iff (h : Intact G s) (hd : s.tableByID d.id = some d) :
    committedRows G s d pk = some row ↔ StoredRow G s d.id pk d row := by
  rw [committedRows_eq_some]
  constructor
  · intro hrow
    cases hraw : s.led.vals.get (rowKey d.id pk) with
    | none =>
      rw [hraw] at hrow
      cases hrow
    | some raw =>
      obtain ⟨row₀, data, -, -, rfl⟩ := h.rows.stored d.id d pk raw (tableByID_eq_some hd) hraw
      rw [hraw, storedRow_payload] at hrow
      exact ⟨hd, data, hraw, hrow⟩
  · rintro ⟨-, data, hraw, hdec⟩
    rw [hraw, storedRow_payload]
    exact hdec

/-- **A keyspace of a table holds exactly the entries of the committed rows.** -/
theorem exactSpace_of_derived (h : Intact G s) (hexact : DerivedExact G s) (hd : s.tableByID d.id = some d)
    {o : Option IndexDef} (hidx : ∀ idx ∈ o, idx ∈ d.indexes) :
    ExactSpace G ⟨d, o⟩ s.led.vals.get s.led.derived (committedRows G s d) := by
  have hto : ∀ {pk d' row}, StoredRow G s d.id pk d' row → d' = d ∧ committedRows G s d pk = some row := by
    intro pk d' row hrow
    obtain rfl := Option.some.inj (hrow.1.symm.trans hd)
    exact ⟨rfl, (committedRows_iff h hd).2 hrow⟩
  refine ⟨fun pk row hrow => committedRows_eq_some.1 hrow, fun k v hk => ?_⟩
  obtain ⟨rest, rfl⟩ := hk
  cases o with
  | none =>
    rw [hexact _ _ (Or.inl (by rfl))]
    constructor
    · rintro (⟨rfl, id, pk, d', row, hrow, hkey⟩ | ⟨id, d', row, idx, cols, -, -, -, hkey⟩)
      · obtain ⟨rfl, rfl⟩ := scanKey_inj ((scanKey_append _ rest).trans hkey)
        exact ⟨rest, row, (hto hrow).2, congrArg Except.ok hkey.symm, rfl⟩
      · cases hkey
    · rintro ⟨pk, row, hrow, hkey, rfl⟩
      exact .inl ⟨rfl, _, pk, d, row, (committedRows_iff h hd).1 hrow, (Except.ok.inj hkey).symm⟩
  | some idx =>
    rw [hexact _ _ (Or.inr (by rfl))]
    constructor
    · rintro (⟨-, id, pk, d', row, -, hkey⟩ | ⟨id, d', row, idx', cols, hrow, hmem, hcols, hkey⟩)
      · cases hkey
      · have hk : entryKey idx.id rest [] = entryKey idx'.id cols.1 v := (List.append_nil _).trans hkey
        obtain ⟨rfl, rfl⟩ := h.shape.indexesApart hd hrow.1 (hidx idx rfl) hmem (entryKey_inj_id hk).1
        obtain ⟨rfl, hrow'⟩ := hto hrow
        refine ⟨v, row, hrow', ?_, rfl⟩
        rw [hkey]
        unfold keyAt
        dsimp only
        rw [hcols]
        rfl
    · rintro ⟨pk, row, hrow, hkey, rfl⟩
      obtain ⟨cols, hcols, hk⟩ := Except.ok_of_bind hkey
      exact .inr ⟨_, d, row, idx, cols, (committedRows_iff h hd).1 hrow, hidx idx rfl, hcols, (Except.ok.inj hk).symm⟩

/-! ## Rows with keys -/

theorem EngineRow.indexOrds (h : EngineRow G d.columns row) (idx : IndexDef) : ∀ {ords : List ℕ},
    (∀ ord ∈ ords, ord < d.columns.length) → ∃ r, encodeIndexOrds d idx row ords = .ok r := by
  intro ords
  induction ords with
  | nil => exact fun _ => ⟨_, rfl⟩
  | cons ord ords ih =>
    intro hords
    obtain ⟨rest, hrest⟩ := ih fun o ho => hords o (List.mem_cons_of_mem _ ho)
    rcases h.alike.get ord with ⟨hnone, -⟩ | ⟨c, o, o', hc, hrow, -, hv⟩
    · exact absurd (hords ord List.mem_cons_self) (by simpa using hnone)
    · have hat : ∀ {v}, row[ord]? = some v → rowAt row ord = .ok v := fun hv => by rw [rowAt, hv]
      cases hv with
      | null => exact ⟨_, encodeIndexOrds_cons.2 ⟨rest, hrest, .inl ⟨hat hrow, rfl⟩⟩⟩
      | value hv =>
        obtain ⟨kind, y, -, hkind, hy, -⟩ := hv
        have hcol : d.columnAt ord = .ok c := by rw [TableDef.columnAt, hc]
        refine ⟨_, encodeIndexOrds_cons.2 ⟨rest, hrest, .inr ⟨_, c, kind, y.key, hat hrow, hcol, hkind, ?_, rfl⟩⟩⟩
        rw [encodeKeyCol, hy]
        rfl

/-- The keyspace is one of the table: its primary keyspace, or one of an index on its columns. -/
def OfTable (x : LedgerIndex) : Prop :=
  ∀ idx ∈ x.idx, idx ∈ x.tdef.indexes ∧ ∀ ord ∈ idx.colOrds, ord < x.tdef.columns.length

theorem EngineRow.hasKey (h : EngineRow G x.tdef.columns row) (hx : OfTable x) (pk : Bytes) :
    ∃ k, x.keyAt pk row = .ok k := by
  unfold keyAt
  cases hidx : x.idx with
  | none => exact ⟨_, rfl⟩
  | some idx =>
    obtain ⟨cols, hcols⟩ := h.indexOrds idx (hx idx hidx).2
    dsimp only
    rw [show encodeIndexCols x.tdef idx row = .ok cols from hcols]
    exact ⟨_, rfl⟩

/-! ## Scans -/

section
variable {w : World (MapLedger C ck)} {seen : Seen}

theorem WorldOk.good (h : WorldOk G (w, seen)) {i : ℕ} {p : PendingRow} (hd : w.store.tableByID id = some d)
    (hp : (txnView (w.sessions i).txn id).get pk = some p) : GoodPending G d pk p := by
  unfold txnView at hp
  cases ht : (w.sessions i).txn with
  | none =>
    rw [ht] at hp
    cases hp
  | some t =>
    rw [ht] at hp
    obtain ⟨d', hd', hgood, -⟩ := ((h.sessions i).txn t ht).buffer id pk p hp
    obtain rfl := Option.some.inj (hd'.symm.trans (tableByID_eq_some hd))
    exact hgood

/-- The rows a session sees are filed under their own primary keys. -/
theorem WorldOk.filed (h : WorldOk G (w, seen)) (i : ℕ) (hd : w.store.tableByID d.id = some d) :
    Filed d (overridden (committedRows G w.store d) (txnView (w.sessions i).txn d.id)) := by
  intro pk row hrow
  unfold overridden at hrow
  cases hp : (txnView (w.sessions i).txn d.id).get pk with
  | some p =>
    rw [hp] at hrow
    exact ((h.good hd hp).new row hrow).filed
  | none =>
    rw [hp] at hrow
    obtain ⟨-, data, hraw, hdec⟩ := (committedRows_iff h.kept hd).1 hrow
    have hat := h.kept.rows.stored d.id d pk _ (tableByID_eq_some hd) hraw
    exact (hat.decoded ((drop_payload d.id data).symm ▸ hdec)).1.filed

end

/-- **In-transaction scans, whatever sessions have done.** From a store in order, after any interleaving of sessions: a
scan in a session's transaction returns without error and with no primary key twice exactly when what is committed has
not disturbed its range. -/
theorem scan_wellformed_run {store : MapSql C ck} (hintact : Intact G store) (hexact : DerivedExact G store)
    (hplan : store.led.plan = []) {cs : List (ℕ × SqlRequest)}
    (hcs : Machine.Along (observed G) (fun s c => InContract G s c ∧ RoomFor s) (⟨store, fun _ => {}⟩, fun _ => []) cs)
    {w : World (MapLedger C ck)} (hw : w = (Machine.run (observed G) (⟨store, fun _ => {}⟩, fun _ => []) cs).2.1) (i : ℕ)
    (hx : OfTable x) (hd : w.store.tableByID x.tdef.id = some x.tdef) {part : Partition} {start stop : Bytes}
    {reverse : Bool} (hpart : part.Scans x start stop reverse) :
    let tt := txnView (w.sessions i).txn x.tdef.id
    ∃ len r, (∀ n, len < n → Yields (· = w.store) (iterateRows G n x.tdef tt part) r) ∧
      ((∃ rows, r = .ok rows ∧ (rows.map (encodePK x.tdef)).Nodup) ↔
        Undisturbed x (committedRows G w.store x.tdef) tt start stop) := by
  intro tt
  subst hw
  have hok := (worldOk_fresh hintact).run hcs
  have hsync : InSync G store := ⟨hexact, hplan⟩
  have hderived := (kept_run (fun hx h hroom hstep => hx.step h hroom hstep) hsync hintact hcs).derived
  have hex := exactSpace_of_derived hok.kept hderived hd fun idx hidx => (hx idx hidx).1
  have hkeys : ∀ pk p, tt.get pk = some p → HasKeys x pk p := by
    rintro pk p hp row (hold | hnew)
    · exact ((hok.good hd hp).old row hold).engine.hasKey hx pk
    · exact ((hok.good hd hp).new row hnew).engine.hasKey hx pk
  obtain ⟨ps, hasc, hmem, hrows⟩ := iterateRows_spec (mapLedger_readsAs _) hex hpart hkeys
  exact ⟨ps.length, _, hrows, rows_wellformed_iff hex (hok.filed i hd) hasc hmem reverse⟩

end ImmutableLedger
