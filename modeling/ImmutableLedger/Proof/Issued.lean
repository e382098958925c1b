import ImmutableLedger.Proof.EngineRow
import ImmutableLedger.Proof.Image
import ImmutableLedger.Proof.Sessions

/-!
# The commits of the SQL layer

Every change that a transaction or a statement on the catalog makes to the store is a chain of commits. `Issued` lists what is
handed to `commit` and what the catalog in memory becomes when it returns; `SqlStep` is one such commit, whether it returns
or fails, and the programs are chains of them.

* `ddl_steps`: a statement on the catalog is a chain of commits.
* `commitTxn_steps`: the commit of a transaction is at most one commit.
-/

namespace ImmutableLedger

open EStateM

variable {C : Crypto} {ck : Bytes} {G : GoLib} {s s' : MapSql C ck}

/-! ## Rows and buffers that fit the store -/

/-- The stored value is what the buffer took it for. -/
inductive Matches (d : TableDef) : Option Bytes → Option Row → Prop
  | absent : Matches d none none
  | row {old : Row} {data : Bytes} (h : encodeRow d.columns old = .ok data) :
    Matches d (some (rowPayload d.id data)) (some old)

/-- A row of the table under its own primary key. -/
structure GoodRow (G : GoLib) (d : TableDef) (pk : Bytes) (row : Row) : Prop where
  engine : EngineRow G d.columns row
  filed : encodePK d row = .ok pk

structure GoodPending (G : GoLib) (d : TableDef) (pk : Bytes) (p : PendingRow) : Prop where
  old : ∀ row, p.old = some row → GoodRow G d pk row
  new : ∀ row, p.new = some row → GoodRow G d pk row

/-- Buffers with their operations, based on what is stored. -/
structure RowBatch (G : GoLib) (s : MapSql C ck) (tts : List (UInt64 × TableTxn)) (ledOps : List Op)
    (scanOps : List BatchOp) : Prop where
  nodup : (tts.map Prod.fst).Nodup
  built : BuildsTables s tts ledOps scanOps
  good : ∀ e ∈ tts, ∀ d, s.tableByID e.1 = some d → ∀ pk p, e.2.get pk = some p → GoodPending G d pk p
  based : ∀ e ∈ tts, ∀ d, s.tableByID e.1 = some d → ∀ pk p, e.2.get pk = some p → ¬ p.Noop →
    Matches d (s.led.vals.get (rowKey e.1 pk)) p.old

/-! ## What is handed to `commit` -/

/-- The scan entries of a table that one round of a loop over them reads. -/
def scanPage (s : MapSql C ck) (id : UInt64) : List (Bytes × Bytes) :=
  MemBackend.scan s.led.derived (scanKey id []) ((incBytes (scanKey id [])).getD []) scanChunkSize

/-- The operations that a transaction or a statement commits, and the store that is left when the commit returns. -/
inductive Issued (G : GoLib) (s : MapSql C ck) :
    List Op → List BatchOp → (MapSql C ck → MapSql C ck) → Prop
  | rows {tts : List (UInt64 × TableTxn)} {ledOps : List Op} {scanOps : List BatchOp}
      (h : RowBatch G s tts ledOps scanOps) : Issued G s ledOps scanOps id
  | counter (id : UInt64) (v : UInt64) : Issued G s [Op.put (autoIncKey id) (counterPayload v)] [] fun t => t
  | createTable {name comment : Bytes} {schema : PrimaryKeySchema} {d : TableDef}
      (hnew : s.tables.get (G.toLower name) = none)
      (hd : newTableDef s.catMeta.nextTableID name schema comment = .ok d) :
    Issued G s (catalogOps G { s.catMeta with
        nextTableID := s.catMeta.nextTableID + 1, tables := s.catMeta.tables ++ [name] } [d]) [] fun t =>
      { t with
        catMeta := { s.catMeta with nextTableID := s.catMeta.nextTableID + 1, tables := s.catMeta.tables ++ [name] }
        tables := t.tables.insert (G.toLower name) d.id
        defs := t.defs.insert d.id d }
  | deleteRows {id : UInt64} {d : TableDef} {r : List Op × List BatchOp} (hd : s.tableByID id = some d)
      (hops : deleteRowOps G d (scanPage s d.id) s = .ok r s) : Issued G s r.1 r.2 fun t => t
  | dropTable {name : Bytes} {id : UInt64} {d : TableDef} {m : CatalogMeta} (hid : s.tables.get (G.toLower name) = some id)
      (hd : s.defs.get id = some d) (hm : m = s.catMeta.without G name) (hempty : scanPage s d.id = []) :
    Issued G s [Op.put metaKey (tagCatalogMeta :: G.marshalMeta m), Op.del (tableKey G d.name),
        Op.del (autoIncKey d.id)] [] fun t =>
      { t with catMeta := m, tables := t.tables.erase (G.toLower name) }
  | renameTable {oldName newName : Bytes} {id : UInt64} {d : TableDef}
      (hid : s.tables.get (G.toLower oldName) = some id) (hnew : s.tables.get (G.toLower newName) = none)
      (hd : s.defs.get id = some d) :
    Issued G s (catalogOps G (s.catMeta.renamed G oldName newName) [{ d with name := newName }] ++
        [Op.del (tableKey G oldName)]) [] fun t =>
      { t with
        catMeta := s.catMeta.renamed G oldName newName
        tables := (t.tables.erase (G.toLower oldName)).insert (G.toLower newName) id
        defs := t.defs.insert id { d with name := newName } }
  | createIndex {id : UInt64} {d : TableDef} {idx : IndexDef} {rounds : ℕ} {entries : List BatchOp}
      (hd : s.tableByID id = some d) (hidx : idx.id = s.catMeta.nextIndexID)
      (hbuild : buildIndex G d idx rounds (scanKey d.id []) OrdMap.empty [] s = .ok entries s) :
    Issued G s (catalogOps G { s.catMeta with nextIndexID := s.catMeta.nextIndexID + 1 }
        [{ d with indexes := d.indexes ++ [idx] }]) entries fun t =>
      { t with
        catMeta := { s.catMeta with nextIndexID := s.catMeta.nextIndexID + 1 }
        defs := t.defs.insert id { d with indexes := d.indexes ++ [idx] } }
  | dropIndex {id : UInt64} {d : TableDef} {pos : ℕ} {idx : IndexDef} {rounds : ℕ} {scanOps : List BatchOp}
      (hd : s.tableByID id = some d) (hidx : d.indexes[pos]? = some idx)
      (hscan : indexEntries idx.id rounds (secondarySpace idx.id) s = .ok scanOps s) :
    Issued G s (catalogOps G s.catMeta [{ d with indexes := d.indexes.eraseIdx pos }]) scanOps fun t =>
      { t with defs := t.defs.insert id { d with indexes := d.indexes.eraseIdx pos } }
  | renameIndex {id : UInt64} {d : TableDef} (pos : ℕ) (new : Bytes) (hd : s.tableByID id = some d) :
    Issued G s (catalogOps G s.catMeta [{ d with indexes := d.indexes.modify pos fun idx => { idx with name := new } }]) []
      fun t => { t with
        defs := t.defs.insert id { d with indexes := d.indexes.modify pos fun idx => { idx with name := new } } }

/-- One step of the store: a counter that is advanced in memory, or a commit that returns or fails. -/
inductive SqlStep (G : GoLib) (s : MapSql C ck) : MapSql C ck → Prop
  | counted {id : UInt64} {d : TableDef} (next : UInt64) (hd : s.defs.get id = some d) :
    SqlStep G s { s with defs := s.defs.insert id { d with autoIncNext := next } }
  | done {ledOps : List Op} {scanOps : List BatchOp} {f : MapSql C ck → MapSql C ck}
      {t : MapSql C ck} (h : Issued G s ledOps scanOps f) (hrun : commit ledOps scanOps s = .ok () t) :
    SqlStep G s (f t)
  | failed {ledOps : List Op} {scanOps : List BatchOp} {f : MapSql C ck → MapSql C ck}
      {e : SqlErr} {t : MapSql C ck} (h : Issued G s ledOps scanOps f)
      (hrun : commit ledOps scanOps s = .error e t) : SqlStep G s t

/-- A commit that returns marks its version. -/
theorem marker_of_commit {ledOps : List Op} {scanOps : List BatchOp} (h : commit ledOps scanOps s = .ok () s') :
    s'.led.derived.get [scanMetaKey] = some (Bytes.u64 s'.led.version) := by
  obtain rfl := commit_ok h
  show (MemBackend.writeBatch (s.led.put ledOps).derived (scanOps ++ [markerOp (s.led.put ledOps).version])).get [scanMetaKey] = _
  rw [writeBatch_append]
  exact MemBackend.get_writeBatch ⟨_, List.mem_singleton_self _, rfl⟩ (fun op hop _ => by rw [List.mem_singleton.1 hop]; rfl) _

/-- A step after which a program goes on: a counter in memory, or a commit that returned. -/
def GoesOn (s s' : MapSql C ck) : Prop :=
  s'.led = s.led ∨ s'.led.derived.get [scanMetaKey] = some (Bytes.u64 s'.led.version)

/-- At most `n` steps; a commit that fails is the last one. -/
inductive SqlSteps (G : GoLib) : ℕ → MapSql C ck → MapSql C ck → Prop
  | refl {n : ℕ} {s : MapSql C ck} : SqlSteps G n s s
  | step {n : ℕ} {s t u : MapSql C ck} (h : SqlStep G s t) (rest : SqlSteps G n t u)
      (hon : GoesOn s t ∨ u = t) : SqlSteps G (n + 1) s u

theorem SqlSteps.one (h : SqlStep G s s') : SqlSteps G 1 s s' := .step h .refl (.inr rfl)

theorem SqlSteps.mono {m n : ℕ} (h : SqlSteps G m s s') (hmn : m ≤ n) : SqlSteps G n s s' := by
  induction h generalizing n with
  | refl => exact .refl
  | step hstep _ hon ih =>
    obtain ⟨n, rfl⟩ : ∃ n', n = n' + 1 := ⟨n - 1, by omega⟩
    exact .step hstep (ih (by omega)) hon

/-- No step, or a counter in memory. -/
def Bumped (s s' : MapSql C ck) : Prop :=
  s' = s ∨ ∃ id d next, s.defs.get id = some d ∧ s' = { s with defs := s.defs.insert id { d with autoIncNext := next } }

theorem Bumped.steps (h : Bumped s s') : SqlSteps G 1 s s' := by
  rcases h with rfl | ⟨id, d, next, hd, rfl⟩
  · exact .refl
  · exact .one (.counted next hd)

/-- A commit and the change of the catalog in memory. -/
theorem sqlStep_of_commit {ledOps : List Op} {scanOps : List BatchOp}
    {f : MapSql C ck → MapSql C ck} (h : Issued G s ledOps scanOps f) :
    SqlStep G s ((commit ledOps scanOps >>= fun _ => modify f) s).state := by
  cases hrun : commit ledOps scanOps s with
  | ok u t =>
    rw [run_bind_ok hrun]
    exact .done h hrun
  | error e t =>
    rw [run_bind_error hrun]
    exact .failed h hrun

/-- A statement that commits at most once. -/
theorem OneCommit.steps {x : SqlM (MapLedger C ck) Unit}
    {P : List Op → List BatchOp → (MapSql C ck → MapSql C ck) → Prop} (hx : OneCommit x s P)
    (hP : ∀ ledOps scanOps f, P ledOps scanOps f → Issued G s ledOps scanOps f) : SqlSteps G 1 s (x s).state := by
  rcases hx with ⟨e, he⟩ | ⟨ledOps, scanOps, f, h, hrun⟩
  · rw [he]
    exact .refl
  · rw [hrun]
    exact .one (sqlStep_of_commit (hP _ _ _ h))

/-! ## Statements on the catalog -/

theorem createTable_steps (name comment : Bytes) (schema : PrimaryKeySchema) :
    SqlSteps G 1 s (createTable G name schema comment s).state := by
  refine (createTable_run name comment schema).steps ?_
  rintro _ _ _ ⟨hnew, d, hd, rfl, rfl, rfl⟩
  exact .createTable hnew hd

theorem getTableInsensitive_none {name : Bytes} (h : s.tables.get (G.toLower name) = none) :
    getTableInsensitive G name s = .error (.tableNotFound name) s := by
  unfold getTableInsensitive
  rw [run_get_bind, h]
  rfl

variable {id : UInt64}

theorem getTableInsensitive_run {name : Bytes} (h : s.tables.get (G.toLower name) = some id) :
    getTableInsensitive G name s = .ok id s := by
  unfold getTableInsensitive
  rw [run_get_bind, h]
  rfl

variable {d : TableDef}

theorem defAt_run (h : s.defs.get id = some d) : defAt id s = .ok d s := by
  unfold defAt
  rw [run_get_bind, h]
  rfl

theorem defAt_none (h : s.defs.get id = none) : defAt id s = .error .panic s := by
  unfold defAt
  rw [run_get_bind, h]
  rfl

theorem renameTable_steps (oldName newName : Bytes) : SqlSteps G 1 s (renameTable G oldName newName s).state := by
  refine (renameTable_run oldName newName).steps ?_
  rintro _ _ _ ⟨id, d, hid, hnew, hd, rfl, rfl, rfl⟩
  exact .renameTable hid hnew hd

/-- A commit leaves the catalog in memory alone. -/
theorem commit_catalog (ledOps : List Op) (scanOps : List BatchOp) (s : MapSql C ck) :
    (commit ledOps scanOps s).state.catMeta = s.catMeta ∧ (commit ledOps scanOps s).state.tables = s.tables ∧
      (commit ledOps scanOps s).state.defs = s.defs := by
  have h := commit_landed ledOps scanOps s
  exact ⟨h.catMeta, h.tables, h.defs⟩

theorem tableByID_congr (htables : s'.tables = s.tables) (hdefs : s'.defs = s.defs) :
    s'.tableByID id = s.tableByID id := by
  unfold SqlStore.tableByID
  rw [htables, hdefs]

/-- What the loop over the rows of a table leaves: the rows of some pages deleted, and none left when it returns. -/
theorem deleteRows_steps : ∀ {rounds count : ℕ} {s : MapSql C ck},
    s.tableByID id = some d → SqlSteps G rounds s (deleteRows G d rounds count s).state ∧
      (deleteRows G d rounds count s).state.catMeta = s.catMeta ∧
      (deleteRows G d rounds count s).state.tables = s.tables ∧ (deleteRows G d rounds count s).state.defs = s.defs ∧
      ∀ n t, deleteRows G d rounds count s = .ok n t → scanPage t d.id = [] ∧
        ∀ {m u}, SqlSteps G m t u → SqlSteps G (rounds + m) s u := by
  intro rounds
  induction rounds with
  | zero => exact fun _ => ⟨.refl, rfl, rfl, rfl, fun n t h => (by cases h)⟩
  | succ rounds ih =>
    intro count s hd
    have hscan : onLedger (LedgerApi.backendScan (scanKey d.id []) ((incBytes (scanKey d.id [])).getD []) scanChunkSize) s =
        .ok (scanPage s d.id) s := rfl
    rw [deleteRows, run_bind_ok hscan]
    by_cases hnil : scanPage s d.id = []
    · rw [if_pos hnil]
      exact ⟨.refl, rfl, rfl, rfl, fun n t h => (by cases h; exact ⟨hnil, fun hrest => hrest.mono (by omega)⟩)⟩
    rw [if_neg hnil]
    cases hops : deleteRowOps G d (scanPage s d.id) s with
    | error e t =>
      obtain rfl := (reads_deleteRowOps d _).of_error hops
      rw [run_bind_error hops]
      exact ⟨.refl, rfl, rfl, rfl, fun n t h => (by cases h)⟩
    | ok r t =>
      obtain rfl := (reads_deleteRowOps d _).of_ok hops
      rw [run_bind_ok hops]
      dsimp only
      have hcat := commit_catalog r.1 r.2 t
      cases hrun : commit r.1 r.2 t with
      | error e t' =>
        rw [hrun] at hcat
        rw [run_bind_error hrun]
        refine ⟨.step (.failed (.deleteRows hd hops) hrun) .refl (.inr rfl), hcat.1, hcat.2.1, hcat.2.2, ?_⟩
        exact fun n t h => by cases h
      | ok u t' =>
        rw [hrun] at hcat
        rw [run_bind_ok hrun]
        have hd' : t'.tableByID id = some d := (tableByID_congr hcat.2.1 hcat.2.2).trans hd
        obtain ⟨hsteps, hmeta, htables, hdefs, hend⟩ := @ih (count + (scanPage t d.id).length) t' hd'
        have hstep : SqlStep G t t' := .done (.deleteRows hd hops) hrun
        have hon : GoesOn t t' := .inr (marker_of_commit hrun)
        refine ⟨.step hstep hsteps (.inl hon), hmeta.trans hcat.1, htables.trans hcat.2.1, hdefs.trans hcat.2.2, ?_⟩
        intro n u hok
        obtain ⟨hempty, hthen⟩ := hend n u hok
        exact ⟨hempty, fun hrest => (SqlSteps.step hstep (hthen hrest) (.inl hon)).mono (by omega)⟩

theorem dropTable_steps (name : Bytes) : SqlSteps G (LedgerApi.size s.led + 2) s (dropTable G name s).state := by
  cases hid : s.tables.get (G.toLower name) with
  | none =>
    have hstate : (dropTable G name s).state = s := by
      unfold dropTable
      rw [run_get_bind, hid]
      rfl
    rw [hstate]
    exact .refl
  | some id =>
    cases hd : s.defs.get id with
    | none =>
      have hstate : (dropTable G name s).state = s := by
        unfold dropTable
        rw [run_get_bind, hid]
        dsimp only
        rw [run_bind_error (defAt_none hd)]
        rfl
      rw [hstate]
      exact .refl
    | some d =>
      have hby : s.tableByID id = some d := tableByID_iff.2 ⟨⟨_, hid⟩, hd⟩
      obtain ⟨hsteps, hmeta, htables, hdefs, hend⟩ := @deleteRows_steps C ck G id d (LedgerApi.size s.led + 1) 0 s hby
      unfold dropTable
      rw [run_get_bind, hid]
      dsimp only
      rw [run_bind_ok (defAt_run hd)]
      cases hrows : deleteRows G d (LedgerApi.size s.led + 1) 0 s with
      | error e t =>
        rw [hrows] at hsteps
        rw [run_bind_error hrows]
        exact hsteps.mono (by omega)
      | ok n t =>
        rw [hrows] at hsteps hmeta htables hdefs
        rw [run_bind_ok hrows]
        have hmeta' : s.catMeta.without G name = t.catMeta.without G name := congrArg (CatalogMeta.without G · name) hmeta.symm
        have hid' : t.tables.get (G.toLower name) = some id := (congrArg (OrdMap.get · _) htables).trans hid
        have hd' : t.defs.get id = some d := (congrArg (OrdMap.get · _) hdefs).trans hd
        obtain ⟨hempty, hthen⟩ := hend n t hrows
        have hissued := Issued.dropTable (G := G) hid' hd' hmeta' hempty
        exact hthen (.one (sqlStep_of_commit hissued))

theorem truncate_steps (id : UInt64) (h : ∃ lower, s.tables.get lower = some id) :
    SqlSteps G (LedgerApi.size s.led + 2) s (truncate G id s).state := by
  unfold truncate
  rw [run_get_bind]
  cases hd : s.defs.get id with
  | none =>
    rw [run_bind_error (defAt_none hd)]
    exact .refl
  | some d =>
    rw [run_bind_ok (defAt_run hd)]
    exact (deleteRows_steps (tableByID_iff.2 ⟨h, hd⟩)).1.mono (by omega)

theorem createIndex_steps (id : UInt64) (name : Bytes) (indexDefn : NewIndex) (h : ∃ lower, s.tables.get lower = some id) :
    SqlSteps G 1 s (createIndex G id name indexDefn s).state := by
  refine (createIndex_run id name indexDefn).steps ?_
  rintro _ entries _ ⟨d, idx, rounds, hd, hidx, hbuild, rfl, rfl⟩
  exact .createIndex (tableByID_iff.2 ⟨h, hd⟩) hidx hbuild

theorem dropIndex_steps (id : UInt64) (name : Bytes) (h : ∃ lower, s.tables.get lower = some id) :
    SqlSteps G 1 s (dropIndex G id name s).state := by
  refine (dropIndex_run id name).steps ?_
  rintro _ scanOps _ ⟨d, pos, idx, rounds, hd, hidx, hscan, rfl, rfl⟩
  exact .dropIndex (tableByID_iff.2 ⟨h, hd⟩) hidx hscan

theorem renameIndex_steps (id : UInt64) (old new : Bytes) (h : ∃ lower, s.tables.get lower = some id) :
    SqlSteps G 1 s (renameIndex G id old new s).state := by
  refine (renameIndex_run id old new).steps ?_
  rintro _ _ _ ⟨d, pos, hd, rfl, rfl, rfl⟩
  exact .renameIndex pos new (tableByID_iff.2 ⟨h, hd⟩)

/-- A statement on a table that is looked up by its name. -/
theorem steps_onTable {α : Type} {n : ℕ} {table : Bytes} {f : UInt64 → SqlM (MapLedger C ck) α}
    (hf : ∀ id, (∃ lower, s.tables.get lower = some id) → SqlSteps G n s (f id s).state) :
    SqlSteps G n s ((getTableInsensitive G table >>= f) s).state := by
  cases hid : s.tables.get (G.toLower table) with
  | none =>
    rw [run_bind_error (getTableInsensitive_none hid)]
    exact .refl
  | some id =>
    rw [run_bind_ok (getTableInsensitive_run hid)]
    exact hf id ⟨_, hid⟩

/-- **A statement on the catalog is a chain of commits.** -/
theorem ddl_steps (c : Ddl) : SqlSteps G (LedgerApi.size s.led + 2) s (c.exec G s).state := by
  cases c with
  | createTable name schema comment => exact (createTable_steps name comment schema).mono (by omega)
  | renameTable oldName newName => exact (renameTable_steps oldName newName).mono (by omega)
  | dropTable name => exact dropTable_steps name
  | truncate table =>
    refine steps_onTable fun id h => ?_
    have hsteps := truncate_steps (G := G) id h
    cases hrun : truncate G id s with
    | ok n t =>
      rw [hrun] at hsteps
      rw [run_bind_ok hrun]
      exact hsteps
    | error e t =>
      rw [hrun] at hsteps
      rw [run_bind_error hrun]
      exact hsteps
  | createIndex table name indexDefn =>
    exact steps_onTable fun id h => (createIndex_steps id name indexDefn h).mono (by omega)
  | renameIndex table old new => exact steps_onTable fun id h => (renameIndex_steps id old new h).mono (by omega)
  | dropIndex table name => exact steps_onTable fun id h => (dropIndex_steps id name h).mono (by omega)

/-! ## Counters and transactions -/

theorem setCounter_run (next : UInt64) :
    setCounter id d next s = .ok () { s with defs := s.defs.insert id { d with autoIncNext := next } } := rfl

theorem nextValue_bumped (id : UInt64) (insertVal : Option GoVal) :
    Bumped s (getNextAutoIncrementValue id insertVal s).state := by
  unfold getNextAutoIncrementValue
  cases hd : s.defs.get id with
  | none =>
    rw [run_bind_error (defAt_none hd)]
    exact .inl rfl
  | some d =>
    rw [run_bind_ok (defAt_run hd)]
    dsimp only
    split
    · rw [run_bind_ok (setCounter_run _)]
      exact .inr ⟨id, d, _, hd, rfl⟩
    · split
      · rw [run_bind_ok (setCounter_run _)]
        exact .inr ⟨id, d, _, hd, rfl⟩
      · exact .inl rfl

theorem setValue_steps (id v : UInt64) : SqlSteps G 2 s (setAutoIncrementValue id v s).state := by
  unfold setAutoIncrementValue
  cases hd : s.defs.get id with
  | none =>
    rw [run_bind_error (defAt_none hd)]
    exact .refl
  | some d =>
    rw [run_bind_ok (defAt_run hd), run_bind_ok (setCounter_run v)]
    refine .step (.counted v hd) (.one ?_) (.inl (.inl rfl))
    cases hrun : commit [Op.put (autoIncKey d.id) (counterPayload v)] []
        { s with defs := s.defs.insert id { d with autoIncNext := v } } with
    | ok u t => exact .done (.counter d.id v) hrun
    | error e t => exact .failed (.counter d.id v) hrun

/-- **The commit of a transaction is at most one commit.** -/
theorem commitTxn_steps {txn : StoreTxn}
    (h : ∀ r, commitOps txn s = .ok r → RowBatch G s txn.tables.entries r.1 r.2) :
    SqlSteps G 1 s (commitTxn txn s).state := by
  rcases commitTxn_cases txn s with hok | ⟨e, -, herr⟩ | ⟨r, -, hops, -, -, hrun⟩
  · rw [hok]
    exact .refl
  · rw [herr]
    exact .refl
  · rw [hrun]
    cases hcommit : commit r.1 r.2 s with
    | ok u t => exact .one (.done (.rows (h r hops)) hcommit)
    | error e t => exact .one (.failed (.rows (h r hops)) hcommit)

end ImmutableLedger
