import ImmutableLedger.Sql.Session
import ImmutableLedger.Proof.Editor
import ImmutableLedger.Proof.Rebuild

/-!
# What a call of a session can do

The calls of the session machine over the ledger by logical keys, in closed form: everything a later proof needs about
a call is one of these statements.

* `insert_cases`, `delete_cases`, `update_cases`, `close_cases`: the calls on an editor.
* `commit_landed`, `commitTxn_landed`: a commit writes its operations or nothing.
-/

namespace ImmutableLedger

open EStateM

variable {C : Crypto} {ck : Bytes} {G : GoLib} {s : EditState (MapLedger C ck)} {d : TableDef} {row : Row} {pk : Bytes}

/-! ## Checks only read -/

theorem reads_onStore {α : Type} {x : SqlM (MapLedger C ck) α} (hx : Reads x) :
    Reads (onStore x : EditM (MapLedger C ck) α) := by
  intro s
  have hs := hx s.store
  cases h : x s.store with
  | ok a st =>
    rw [h] at hs
    obtain rfl : st = s.store := hs
    rw [onStore_ok h]
    rfl
  | error e st =>
    rw [h] at hs
    obtain rfl : st = s.store := hs
    rw [onStore_error h]
    rfl

theorem reads_uniqueConflict (idx : IndexDef) (colsEnc pkEnc : Bytes) :
    Reads (uniqueConflict idx colsEnc pkEnc : SqlM (MapLedger C ck) _) := by
  unfold uniqueConflict
  dsimp only
  cases incBytes (secondarySpace idx.id ++ colsEnc) with
  | none => exact Reads.throw _
  | some stop => exact (reads_backendScan _ _ _).bind fun kvs => Reads.pure _

theorem reads_checkUniqueOf (d : TableDef) (row : Row) (pkEnc : Bytes) (pendings : List (Bytes × PendingRow)) :
    ∀ idxs : List IndexDef, Reads (checkUniqueOf d row pkEnc pendings idxs : SqlM (MapLedger C ck) _) := by
  intro idxs
  induction idxs with
  | nil => exact Reads.pure _
  | cons idx idxs ih =>
    refine Reads.ite ih ((reads_ofSql _).bind fun r => Reads.ite ih ?_)
    have hlast : ∀ conflict : Bool, Reads (if conflict = true then (throw (.uniqueKey idx.name) >>= fun _ : PUnit =>
        checkUniqueOf d row pkEnc pendings idxs) else (checkUniqueOf d row pkEnc pendings idxs : SqlM (MapLedger C ck) _)) :=
      fun conflict => Reads.ite ((Reads.throw _).bind fun _ => ih) ih
    refine (reads_uniqueConflict idx _ _).bind fun committed => Reads.ite ?_ ?_
    · exact (reads_ofSql _).bind fun freed => (Reads.pure _).bind hlast
    · exact (reads_ofSql _).bind hlast

theorem reads_checkUnique (d : TableDef) (row : Row) (pkEnc : Bytes) :
    Reads (checkUnique d row pkEnc : EditM (MapLedger C ck) _) :=
  Reads.get_bind fun _ => reads_onStore (reads_checkUniqueOf d row pkEnc _ _)

theorem reads_existsFor (d : TableDef) (pkEnc : Bytes) : Reads (Editor.existsFor d pkEnc : EditM (MapLedger C ck) _) := by
  refine Reads.get_bind fun s => ?_
  cases (txnView s.txn s.editor.table).get pkEnc with
  | some tp => exact Reads.pure _
  | none => exact reads_onStore ((reads_ledgerGet _).bind fun raw => Reads.pure _)

theorem reads_readRow (d : TableDef) (pkEnc : Bytes) :
    Reads (ImmutableLedger.readRow G d pkEnc : SqlM (MapLedger C ck) _) := by
  refine (reads_ledgerGet _).bind fun raw => ?_
  cases raw with
  | none => exact Reads.throw _
  | some raw => exact Reads.ite ((Reads.throw _).bind fun _ => reads_ofSql _) (reads_ofSql _)

theorem reads_readRowTxn (tt : TableTxn) (d : TableDef) (pkEnc : Bytes) :
    Reads (readRowTxn G tt d pkEnc : SqlM (MapLedger C ck) _) := by
  unfold readRowTxn
  cases tt.get pkEnc with
  | none => exact reads_readRow d pkEnc
  | some p =>
    dsimp only
    cases p.new with
    | none => exact Reads.throw _
    | some row => exact Reads.pure row

theorem reads_worldReadRow (w : World (MapLedger C ck)) (j : ℕ) (table : UInt64) (pkEnc : Bytes) :
    Reads (World.readRow G w j table pkEnc) := (reads_defAt table).bind fun d => reads_readRowTxn _ d pkEnc

/-! ## Inserts -/

/-- What an insert files under its key. -/
def insertedRow (t : TableTxn) (pk : Bytes) (row : Row) : PendingRow := { (t.get pk).getD {} with new := some row }

/-- What an insert leaves: nothing, an advanced counter, or a filed row as well. -/
inductive Inserted (row : Row) (s : EditState (MapLedger C ck)) : EditState (MapLedger C ck) → Prop
  | refused : Inserted row s s
  | counted {d : TableDef} {next : UInt64} (hd : s.store.defs.get s.editor.table = some d)
      (hb : bumpAutoInc row 0 d.columns d.autoIncNext = .ok next) :
    Inserted row s (s.counted { d with autoIncNext := next })
  | filed {d : TableDef} {next : UInt64} {pk : Bytes} (hw : ¬ s.ReadOnly)
      (hd : s.store.defs.get s.editor.table = some d) (hb : bumpAutoInc row 0 d.columns d.autoIncNext = .ok next)
      (hpk : encodePK d row = .ok pk) (hfree : KeyFree d pk s) :
    Inserted row s ((s.counted { d with autoIncNext := next }).filed pk (insertedRow s.editor.pending pk row))

/-- Filing a row: the key is free and takes it, or nothing changes. -/
theorem fileNew_cases (d : TableDef) (row : Row) (pk : Bytes) (s : EditState (MapLedger C ck)) :
    (Editor.fileNew d row pk s).state = s ∨
      (KeyFree d pk s ∧ (Editor.fileNew d row pk s).state = s.filed pk (insertedRow s.editor.pending pk row)) := by
  unfold Editor.fileNew insertedRow
  rw [run_get_bind]
  cases hp : s.editor.pending.get pk with
  | some p =>
    dsimp only
    cases hnew : p.new with
    | some r => exact .inl rfl
    | none =>
      refine .inr ⟨?_, reads_checkUnique d row pk (s.filed pk { p with new := some row })⟩
      unfold KeyFree
      rw [hp]
      exact hnew
  | none =>
    dsimp only
    rcases existsFor_run (d := d) hp with ⟨hfree, st, hrun⟩ | ⟨-, ⟨st, hrun⟩ | ⟨e, st, hrun⟩⟩
    · have hst : { s with store := st } = s := (reads_existsFor d pk).of_ok hrun
      rw [run_bind_ok hrun, hst]
      exact .inr ⟨hfree, reads_checkUnique d row pk (s.filed pk { new := some row })⟩
    · have hst : { s with store := st } = s := (reads_existsFor d pk).of_ok hrun
      rw [run_bind_ok hrun, hst]
      exact .inl rfl
    · have hst : { s with store := st } = s := (reads_existsFor d pk).of_error hrun
      rw [run_bind_error hrun, hst]
      exact .inl rfl

/-- **What an insert leaves.** -/
theorem insert_cases (row : Row) (s : EditState (MapLedger C ck)) : Inserted row s (Editor.insert row s).state := by
  by_cases hw : s.ReadOnly
  · obtain ⟨e, he⟩ := writable_readOnly hw
    have hrun : Editor.insert row s = .error e s := run_bind_error he
    rw [hrun]
    exact .refused
  cases hd : s.store.defs.get s.editor.table with
  | none =>
    have hrun : Editor.insert row s = .error .panic s := by
      unfold Editor.insert
      rw [run_bind_ok (writable_run hw), run_bind_error (tableDef_none hd)]
    rw [hrun]
    exact .refused
  | some d =>
    cases hpk : encodePK d row with
    | error e =>
      have hrun : Editor.insert row s = .error e s := by
        unfold Editor.insert
        rw [run_bind_ok (writable_run hw), run_bind_ok (tableDef_run hd), run_bind_error (ofSql_failed hpk)]
      rw [hrun]
      exact .refused
    | ok pk =>
      cases hb : bumpAutoInc row 0 d.columns d.autoIncNext with
      | error e =>
        have hrun : Editor.insert row s = .error e s := by
          unfold Editor.insert
          rw [run_bind_ok (writable_run hw), run_bind_ok (tableDef_run hd), run_bind_ok (ofSql_run hpk),
            run_bind_error (ofSql_failed hb)]
        rw [hrun]
        exact .refused
      | ok next =>
        rw [insert_eq hw hd hpk hb]
        rcases fileNew_cases { d with autoIncNext := next } row pk (s.counted { d with autoIncNext := next }) with
          hst | ⟨hfree, hst⟩
        · rw [hst]
          exact .counted hd hb
        · rw [hst]
          exact .filed hw hd hb hpk hfree

/-! ## Deletes and updates -/

/-- What a delete leaves. -/
theorem delete_cases (row : Row) (s : EditState (MapLedger C ck)) : (Editor.delete row s).state = s ∨
    ∃ d pk, ¬ s.ReadOnly ∧ s.store.defs.get s.editor.table = some d ∧ encodePK d row = .ok pk ∧
      (Editor.delete row s).state = s.filed pk (deletedRow s.editor.pending pk row) := by
  by_cases hw : s.ReadOnly
  · obtain ⟨e, he⟩ := writable_readOnly hw
    have hrun : Editor.delete row s = .error e s := run_bind_error he
    exact .inl (by rw [hrun]; rfl)
  cases hd : s.store.defs.get s.editor.table with
  | none =>
    left
    unfold Editor.delete
    rw [run_bind_ok (writable_run hw), run_bind_error (tableDef_none hd)]
    rfl
  | some d =>
    cases hpk : encodePK d row with
    | error e =>
      left
      unfold Editor.delete
      rw [run_bind_ok (writable_run hw), run_bind_ok (tableDef_run hd), run_bind_error (ofSql_failed hpk)]
      rfl
    | ok pk => exact .inr ⟨d, pk, hw, rfl, hpk, by rw [delete_run hw hd hpk]; rfl⟩

/-- What an update leaves: nothing, a row filed under its key, or a delete and what the insert of the new row leaves. -/
theorem update_cases (old new : Row) (s : EditState (MapLedger C ck)) : (Editor.update old new s).state = s ∨
    ∃ d oldPK newPK, ¬ s.ReadOnly ∧ s.store.defs.get s.editor.table = some d ∧ encodePK d old = .ok oldPK ∧
      encodePK d new = .ok newPK ∧
      ((oldPK = newPK ∧ (Editor.update old new s).state = s.filed oldPK (updatedRow s.editor.pending oldPK old new)) ∨
        (oldPK ≠ newPK ∧
          Inserted new (s.filed oldPK (deletedRow s.editor.pending oldPK old)) (Editor.update old new s).state)) := by
  by_cases hw : s.ReadOnly
  · obtain ⟨e, he⟩ := writable_readOnly hw
    have hrun : Editor.update old new s = .error e s := run_bind_error he
    exact .inl (by rw [hrun]; rfl)
  cases hd : s.store.defs.get s.editor.table with
  | none =>
    left
    unfold Editor.update
    rw [run_bind_ok (writable_run hw), run_bind_error (tableDef_none hd)]
    rfl
  | some d =>
    cases hold : encodePK d old with
    | error e =>
      left
      unfold Editor.update
      rw [run_bind_ok (writable_run hw), run_bind_ok (tableDef_run hd), run_bind_error (ofSql_failed hold)]
      rfl
    | ok oldPK =>
      cases hnew : encodePK d new with
      | error e =>
        left
        unfold Editor.update
        rw [run_bind_ok (writable_run hw), run_bind_ok (tableDef_run hd), run_bind_ok (ofSql_run hold),
          run_bind_error (ofSql_failed hnew)]
        rfl
      | ok newPK =>
        refine .inr ⟨d, oldPK, newPK, hw, rfl, hold, hnew, ?_⟩
        rw [update_run hw hd hold hnew]
        by_cases hk : oldPK = newPK
        · rw [if_pos hk]
          exact .inl ⟨hk, reads_checkUnique d new oldPK _⟩
        · rw [if_neg hk]
          exact .inr ⟨hk, insert_cases new _⟩

/-! ## Buffers -/

/-- The pending row of a key, in buffers by table. -/
def entryAt (tables : OrdMap UInt64 TableTxn) (id : UInt64) (pk : Bytes) : Option PendingRow :=
  ((tables.get id).getD OrdMap.empty).get pk

theorem entryAt_empty (id : UInt64) (pk : Bytes) : entryAt OrdMap.empty id pk = none := rfl

theorem entryAt_insert (tables : OrdMap UInt64 TableTxn) (i : UInt64) (tt : TableTxn) (id : UInt64) (pk : Bytes) :
    entryAt (tables.insert i tt) id pk = if id = i then tt.get pk else entryAt tables id pk := by
  unfold entryAt
  rw [OrdMap.get_insert]
  split <;> rfl

theorem entryAt_erase (tables : OrdMap UInt64 TableTxn) (i id : UInt64) (pk : Bytes) :
    entryAt (tables.erase i) id pk = if id = i then none else entryAt tables id pk := by
  unfold entryAt
  rw [OrdMap.get_erase]
  split <;> rfl

/-- A statement row over the transaction's. -/
def foldedRow (q p : Option PendingRow) : Option PendingRow :=
  match q, p with
  | q, none => q
  | some q, some p => some { q with new := p.new }
  | none, some p => some p

theorem get_foldRow (rows : TableTxn) (e : Bytes × PendingRow) (pk : Bytes) :
    (foldRow rows e).get pk = if pk = e.1 then foldedRow (rows.get pk) (some e.2) else rows.get pk := by
  unfold foldRow
  by_cases hpk : pk = e.1
  · rw [if_pos hpk, hpk]
    cases rows.get e.1 with
    | some q | none => exact (OrdMap.get_insert _ _ _ _).trans (if_pos rfl)
  · rw [if_neg hpk]
    cases rows.get e.1 with
    | some q | none => exact (OrdMap.get_insert _ _ _ _).trans (if_neg hpk)

theorem get_foldl_foldRow (pk : Bytes) : ∀ (es : List (Bytes × PendingRow)) (rows : TableTxn), (es.map Prod.fst).Nodup →
    (es.foldl foldRow rows).get pk = foldedRow (rows.get pk) (OrdMap.lookup es pk) := by
  intro es
  induction es with
  | nil =>
    intro rows _
    show rows.get pk = foldedRow (rows.get pk) none
    cases rows.get pk <;> rfl
  | cons e es ih =>
    intro rows hnodup
    obtain ⟨hnot, hnodup⟩ := List.nodup_cons.1 hnodup
    rw [List.foldl_cons, ih _ hnodup, get_foldRow]
    by_cases hpk : pk = e.1
    · have hrest : OrdMap.lookup es pk = none := by
        refine OrdMap.lookup_eq_none.2 fun e' he' hk => hnot ?_
        rw [← hpk, ← hk]
        exact List.mem_map_of_mem he'
      have hfirst : OrdMap.lookup (e :: es) pk = some e.2 := if_pos hpk
      rw [if_pos hpk, hrest, hfirst]
      cases rows.get pk <;> rfl
    · have hfirst : OrdMap.lookup (e :: es) pk = OrdMap.lookup es pk := if_neg hpk
      rw [if_neg hpk, hfirst]

/-- **The buffer after `Close`**, key by key. -/
theorem get_foldPending (rows pending : TableTxn) (pk : Bytes) :
    (foldPending rows pending).get pk = foldedRow (rows.get pk) (pending.get pk) :=
  get_foldl_foldRow pk pending.entries rows pending.nodup_keys

@[simp] theorem World.withSession_self (w : World (MapLedger C ck)) (i : ℕ) (sess : Session) :
    (w.withSession i sess).sessions i = sess := Function.update_self ..

theorem World.withSession_of_ne (w : World (MapLedger C ck)) {i j : ℕ} (sess : Session) (h : j ≠ i) :
    (w.withSession i sess).sessions j = w.sessions j := Function.update_of_ne h ..

/-! ## Savepoints -/

theorem mem_dropSavepoint {name : Bytes} {sp : Savepoint} : ∀ {sps : List Savepoint},
    sp ∈ dropSavepoint G name sps → sp ∈ sps := by
  intro sps
  induction sps with
  | nil => exact fun h => h
  | cons sp' sps ih =>
    intro h
    unfold dropSavepoint at h
    split at h
    · exact List.mem_cons_of_mem _ h
    · rcases List.mem_cons.1 h with rfl | h
      · exact List.mem_cons_self
      · exact List.mem_cons_of_mem _ (ih h)

theorem mem_savepointsUpTo {name : Bytes} {sp : Savepoint} {sps : List Savepoint} (h : sp ∈ savepointsUpTo G name sps) :
    sp ∈ sps := by
  unfold savepointsUpTo at h
  rw [List.mem_reverse] at h
  exact List.mem_reverse.1 (List.dropWhile_sublist _ |>.subset h)

/-! ## Commits -/

/-- What a commit leaves of the store: the operations are written, or nothing of the map has changed. -/
structure Landed (ops : List Op) (s s' : MapSql C ck) : Prop where
  catMeta : s'.catMeta = s.catMeta
  tables : s'.tables = s.tables
  defs : s'.defs = s.defs
  vals : s'.led.vals = s.led.vals ∨ s'.led.vals = (s.led.put ops).vals

theorem commit_landed (ledOps : List Op) (scanOps : List BatchOp) (s : MapSql C ck) :
    Landed ledOps s (commit ledOps scanOps s).state := by
  cases h : commit ledOps scanOps s with
  | ok u s' =>
    rw [commit_ok h]
    exact ⟨rfl, rfl, rfl, .inr rfl⟩
  | error e s' =>
    have hc := commit_cases ledOps scanOps s
    rw [h] at hc
    cases hc with
    | refused | failed => exact ⟨rfl, rfl, rfl, .inl rfl⟩
    | torn => exact ⟨rfl, rfl, rfl, .inr rfl⟩

/-- **What the commit of a transaction leaves.** -/
theorem commitTxn_landed (txn : StoreTxn) (s : MapSql C ck) : (commitTxn txn s).state = s ∨
    ∃ r, commitOps txn s = .ok r ∧ Landed r.1 s (commitTxn txn s).state := by
  rcases commitTxn_cases txn s with hok | ⟨e, -, herr⟩ | ⟨r, -, hops, -, -, hrun⟩
  · exact .inl (by rw [hok]; rfl)
  · exact .inl (by rw [herr]; rfl)
  · rw [hrun]
    exact .inr ⟨r, hops, commit_landed r.1 r.2 s⟩

/-! ## What a batch of buffers writes -/

section
variable {st : MapSql C ck} {tts : List (UInt64 × TableTxn)} {ops : List Op} (vals : OrdMap Bytes Bytes)

/-- Every definition is filed under its own id. -/
def OwnIds (st : MapSql C ck) : Prop := ∀ id d, st.defs.get id = some d → d.id = id

/-- A key that is neither a row's nor a counter's keeps its value. -/
theorem BatchOf.get_catalog (h : BatchOf st tts ops) {k : SqlKey} (hc : ∀ id, k ≠ .counter id)
    (hr : ∀ id pk, k ≠ .row id pk) : (writeOps vals ops).get k.bytes = vals.get k.bytes := by
  refine get_writeOps_of_notin fun op hop he => ?_
  obtain ⟨e, -, d, -, hk | ⟨f, -, hk⟩⟩ := h.keys op hop
  · exact hc _ (SqlKey.bytes_inj (he.symm.trans hk))
  · exact hr _ _ (SqlKey.bytes_inj (he.symm.trans hk))

/-- The counter of a table: written with the buffer of the table. -/
theorem BatchOf.get_counter (h : BatchOf st tts ops) (hown : OwnIds st) {id : UInt64} {d : TableDef}
    (hd : st.defs.get id = some d) (ha : d.hasAutoInc = true) : (writeOps vals ops).get (SqlKey.counter id).bytes =
      if id ∈ tts.map Prod.fst then some (counterPayload d.autoIncNext) else vals.get (SqlKey.counter id).bytes := by
  -- an operation on the counter comes with the buffer of the table
  have hfrom : ∀ op ∈ ops, op.key = (SqlKey.counter id).bytes →
      id ∈ tts.map Prod.fst ∧ op = Op.put (autoIncKey d.id) (counterPayload d.autoIncNext) := by
    intro op hop hk
    obtain ⟨e, he, d', rows, hd', hrows, hmem⟩ := h.only op hop
    rcases List.mem_append.1 hmem with hmem | hmem
    · obtain ⟨f, -, hf⟩ := hrows.keys op hmem
      exact absurd (SqlKey.bytes_inj (hk.symm.trans hf)) (by simp)
    · unfold counterOps at hmem
      split at hmem
      · obtain rfl := List.mem_singleton.1 hmem
        have hid : id = d'.id := SqlKey.counter.inj (SqlKey.bytes_inj hk.symm)
        have hid' : e.1 = id := by rw [hid, hown _ _ hd']
        rw [hid', hd] at hd'
        cases hd'
        exact ⟨hid' ▸ List.mem_map_of_mem he, rfl⟩
      · cases hmem
  by_cases hid : id ∈ tts.map Prod.fst
  · rw [if_pos hid]
    obtain ⟨e, he, rfl⟩ := List.mem_map.1 hid
    obtain ⟨d', rows, hd', -, hall⟩ := h.built e he
    rw [hd] at hd'
    cases hd'
    have hmem : Op.put (autoIncKey d.id) (counterPayload d.autoIncNext) ∈ ops := by
      refine hall _ (List.mem_append_right _ ?_)
      unfold counterOps
      rw [if_pos ha]
      exact List.mem_singleton_self _
    refine get_writeOps ⟨_, hmem, by rw [hown _ _ hd]; rfl⟩ fun op hop hk => ?_
    rw [(hfrom op hop hk).2]
    rfl
  · rw [if_neg hid]
    exact get_writeOps_of_notin fun op hop hk => hid (hfrom op hop hk).1

/-- What the pending row of a key makes of the stored one. -/
def PendingRow.Writes (d : TableDef) (p : PendingRow) (before after : Option Bytes) : Prop :=
  match p.new, p.old with
  | none, none => after = before
  | none, some _ => after = none
  | some row, _ => ∃ data, encodeRow d.columns row = .ok data ∧ after = some (rowPayload d.id data)

theorem RowOps.writes {p : PendingRow} {q : List Op × List BatchOp} (h : RowOps d pk p q) (before : Option Bytes) :
    (q.1 = [] ∧ p.Writes d before before) ∨
      ∃ op, q.1 = [op] ∧ op.key = (SqlKey.row d.id pk).bytes ∧
        p.Writes d before (if op.delete then none else some op.value) := by
  cases h with
  | noop => exact .inl ⟨rfl, rfl⟩
  | delete hr => exact .inr ⟨_, rfl, rfl, rfl⟩
  | insert hv ha | update hv hr ha => exact .inr ⟨_, rfl, rfl, _, hv, rfl⟩

/-- The row of a key no buffer holds stays. -/
theorem BatchOf.get_row_of_notin (h : BatchOf st tts ops) (hown : OwnIds st) {id : UInt64} {pk : Bytes}
    (hnot : ∀ tt, (id, tt) ∈ tts → tt.get pk = none) :
    (writeOps vals ops).get (SqlKey.row id pk).bytes = vals.get (SqlKey.row id pk).bytes := by
  refine get_writeOps_of_notin fun op hop he => ?_
  obtain ⟨e, hmem, d, hd, hk | ⟨f, hf, hk⟩⟩ := h.keys op hop
  · exact absurd (SqlKey.bytes_inj (he.symm.trans hk)) (by simp)
  · obtain ⟨hid, hpk⟩ := SqlKey.row.inj (SqlKey.bytes_inj (he.symm.trans hk))
    rw [hown _ _ hd] at hid
    have hnone := hnot e.2 (by rw [hid]; exact hmem)
    rw [hpk, OrdMap.mem_entries.1 hf] at hnone
    cases hnone

/-- **The row of a key a buffer holds** is what the pending row makes of it. -/
theorem BatchOf.get_row (h : BatchOf st tts ops) (hown : OwnIds st) (hnodup : (tts.map Prod.fst).Nodup) {id : UInt64}
    {tt : TableTxn} {pk : Bytes} {p : PendingRow} {d : TableDef} (hmem : (id, tt) ∈ tts) (hp : tt.get pk = some p)
    (hd : st.defs.get id = some d) :
    p.Writes d (vals.get (SqlKey.row id pk).bytes) ((writeOps vals ops).get (SqlKey.row id pk).bytes) := by
  obtain ⟨d', rows, hd', hrows, hall⟩ := h.built _ hmem
  rw [hd] at hd'
  cases hd'
  have hid : d.id = id := hown _ _ hd
  obtain ⟨q, hq, hqall⟩ := hrows.built (pk, p) (OrdMap.mem_entries.2 hp)
  -- every operation on the key is one of this pending row
  have hfrom : ∀ op ∈ ops, op.key = (SqlKey.row id pk).bytes → op ∈ q.1 := by
    intro op hop hk
    obtain ⟨e, he, d', rows', hd', hrows', hmem'⟩ := h.only op hop
    rcases List.mem_append.1 hmem' with hmem' | hmem'
    · obtain ⟨f, hf, q', hq', hopq⟩ := hrows'.only op hmem'
      have hkey := (rowOps_of_ok hq').keys op hopq
      obtain ⟨h₁, h₂⟩ := SqlKey.row.inj (SqlKey.bytes_inj (hk.symm.trans hkey))
      rw [hown _ _ hd'] at h₁
      have htt : e.2 = tt := by
        have := List.inj_on_of_nodup_map hnodup he hmem h₁.symm
        rw [this]
      have hfp : f = (pk, p) := by
        have hget := OrdMap.mem_entries.1 hf
        rw [htt, ← h₂, hp] at hget
        exact Prod.ext h₂.symm (Option.some.inj hget).symm
      rw [← h₁, hd] at hd'
      cases hd'
      rw [hfp] at hq'
      have hqq : q = q' := Except.ok.inj (hq.symm.trans hq')
      rw [hqq]
      exact hopq
    · unfold counterOps at hmem'
      split at hmem'
      · obtain rfl := List.mem_singleton.1 hmem'
        exact absurd (SqlKey.bytes_inj hk.symm : SqlKey.row id pk = .counter d'.id) (by simp)
      · cases hmem'
  rcases (rowOps_of_ok hq).writes (vals.get (SqlKey.row id pk).bytes) with ⟨hnil, hw⟩ | ⟨op, hone, hkey, hw⟩
  · rw [get_writeOps_of_notin fun op hop hk => by
      have := hfrom op hop hk
      rw [hnil] at this
      cases this]
    exact hw
  · have hopmem : op ∈ ops := hall op (List.mem_append_left _ (hqall op (by rw [hone]; exact List.mem_singleton_self _)))
    rw [get_writeOps ⟨op, hopmem, by rw [hkey, hid]⟩ fun op' hop' hk' => by
      have := hfrom op' hop' hk'
      rw [hone] at this
      rw [List.mem_singleton.1 this]]
    exact hw

end

/-- The transaction with a statement buffer folded in. -/
def StoreTxn.folded (t : StoreTxn) (table : UInt64) (pending : TableTxn) : StoreTxn :=
  { t with tables := t.tables.insert table (foldPending (txnView (some t) table) pending) }

/-- What `Close` leaves: nothing, the statement buffer folded into the transaction, or a commit. -/
inductive Closed (s : EditState (MapLedger C ck)) : EditState (MapLedger C ck) → Prop
  | idle : Closed s s
  | folded {t : StoreTxn} (ht : s.txn = some t) :
    Closed s { s with txn := some (t.folded s.editor.table s.editor.pending)
                      editor := { s.editor with pending := OrdMap.empty } }
  | committed {d : TableDef} {r : List Op × List BatchOp} {st : MapSql C ck} (ht : s.txn = none)
      (hd : s.store.defs.get s.editor.table = some d) (hops : buildAllOps d s.editor.pending.entries = .ok r)
      (hl : Landed (r.1 ++ counterOps d) s.store st) : Closed s { s with store := st }

theorem close_cases (s : EditState (MapLedger C ck)) : Closed s (Editor.close s).state := by
  unfold Editor.close
  rw [run_get_bind]
  split
  · exact .idle
  · cases ht : s.txn with
    | some t =>
      exact .folded ht
    | none =>
      dsimp only
      cases hd : s.store.defs.get s.editor.table with
      | none =>
        rw [run_bind_error (tableDef_none hd)]
        exact .idle
      | some d =>
        rw [run_bind_ok (tableDef_run hd)]
        cases hops : buildAllOps d s.editor.pending.entries with
        | error e =>
          rw [run_bind_error (ofSql_failed rfl)]
          exact .idle
        | ok r =>
          rw [run_bind_ok (ofSql_run rfl)]
          have hl := commit_landed (r.1 ++ counterOps d) r.2 s.store
          cases hc : commit (r.1 ++ counterOps d) r.2 s.store with
          | ok u st =>
            rw [hc] at hl
            rw [onStore_ok hc]
            exact .committed ht hd hops hl
          | error e st =>
            rw [hc] at hl
            rw [onStore_error hc]
            exact .committed ht hd hops hl

end ImmutableLedger
