import ImmutableLedger.Sql.Keys
import ImmutableLedger.Sql.Txn
import ImmutableLedger.Model.MapLedger

/-!
# The SQL programs over a map

What the programs of the SQL layer do to a ledger given as a map from logical keys: which of them only read, and for the
statements on the catalog, what a statement that returned has done.

* `OneCommit`: what a statement commits (`createTable_run`, `renameTable_run`, `createIndex_run`, `dropIndex_run`,
  `renameIndex_run`); `dropTable_ok`, `truncate_ok`: those that delete rows before.
* `deleteRows_ok`: deleting the rows of a table writes row keys only.
* `commitTxn_cases`: how a commit ends.
-/

namespace ImmutableLedger

open EStateM

variable {C : Crypto} {ck : Bytes} {G : GoLib} {s s' : MapSql C ck}

/-! ## Reads -/

theorem reads_ledgerGet (key : Bytes) : Reads (onLedger (LedgerApi.get key) : SqlM (MapLedger C ck) _) := fun _ => rfl

theorem reads_backendScan (start stop : Bytes) (limit : ℕ) :
    Reads (onLedger (LedgerApi.backendScan start stop limit) : SqlM (MapLedger C ck) _) := fun _ => rfl

theorem reads_ofSql {α : Type} (r : Except SqlErr α) : Reads (ofSql r : SqlM (MapLedger C ck) α) := by
  cases r with
  | ok a => exact Reads.pure a
  | error e => exact Reads.throw e

theorem ofSql_eq_ok {α : Type} {r : Except SqlErr α} {a : α} (h : ofSql r s = .ok a s') : r = .ok a ∧ s' = s := by
  cases r with
  | ok b => cases h; exact ⟨rfl, rfl⟩
  | error e => cases h

theorem reads_defAt (id : UInt64) : Reads (defAt id : SqlM (MapLedger C ck) _) := by
  refine Reads.get_bind fun s => ?_
  cases s.defs.get id with
  | some d => exact Reads.pure d
  | none => exact Reads.throw _

variable {d : TableDef}

theorem defAt_ok {id : UInt64} (h : defAt id s = .ok d s') : s.defs.get id = some d ∧ s' = s := by
  refine ⟨?_, (reads_defAt id).of_ok h⟩
  unfold defAt at h
  rw [run_get_bind] at h
  cases hd : s.defs.get id with
  | some d' => rw [hd] at h; cases h; rfl
  | none => rw [hd] at h; cases h

theorem reads_readRowLocked (d : TableDef) (pkEnc : Bytes) : Reads (readRowLocked G d pkEnc : SqlM (MapLedger C ck) _) := by
  refine (reads_ledgerGet _).bind fun raw => ?_
  cases raw with
  | none => exact Reads.throw _
  | some raw => exact Reads.ite ((Reads.throw _).bind fun _ => reads_ofSql _) (reads_ofSql _)

theorem reads_deleteRowOps (d : TableDef) : ∀ kvs : List (Bytes × Bytes),
    Reads (deleteRowOps G d kvs : SqlM (MapLedger C ck) _) := by
  intro kvs
  induction kvs with
  | nil => exact Reads.pure _
  | cons kv kvs ih =>
    exact (reads_readRowLocked d _).bind fun row => (reads_ofSql _).bind fun ops => ih.bind fun r => Reads.pure _

theorem reads_buildEntries (d : TableDef) (idx : IndexDef) : ∀ (kvs : List (Bytes × Bytes)) (seen : OrdMap Bytes Bytes)
    (entries : List BatchOp), Reads (buildEntries G d idx kvs seen entries : SqlM (MapLedger C ck) _) := by
  intro kvs
  induction kvs with
  | nil => intro seen entries; exact Reads.pure _
  | cons kv kvs ih =>
    intro seen entries
    refine (reads_readRowLocked d _).bind fun row => (reads_ofSql _).bind fun r => ?_
    exact Reads.ite (Reads.ite ((Reads.throw _).bind fun _ => ih _ _) (ih _ _)) (ih _ _)

theorem reads_buildIndex (d : TableDef) (idx : IndexDef) : ∀ (rounds : ℕ) (next : Bytes) (seen : OrdMap Bytes Bytes)
    (entries : List BatchOp), Reads (buildIndex G d idx rounds next seen entries : SqlM (MapLedger C ck) _) := by
  intro rounds
  induction rounds with
  | zero => intro next seen entries; exact Reads.throw _
  | succ rounds ih =>
    intro next seen entries
    refine (reads_backendScan _ _ _).bind fun kvs => ?_
    cases kvs.getLast? with
    | none => exact Reads.pure _
    | some last => exact (reads_buildEntries d idx kvs seen entries).bind fun r => Reads.ite (Reads.pure _) (ih _ _ _)

theorem reads_indexEntries (idxID : UInt64) : ∀ (rounds : ℕ) (next : Bytes),
    Reads (indexEntries idxID rounds next : SqlM (MapLedger C ck) _) := by
  intro rounds
  induction rounds with
  | zero => intro next; exact Reads.throw _
  | succ rounds ih =>
    intro next
    refine (reads_backendScan _ _ _).bind fun kvs => ?_
    cases kvs.getLast? with
    | none => exact Reads.pure _
    | some last => exact Reads.ite (Reads.pure _) ((ih _).bind fun _ => Reads.pure _)

theorem reads_loadCounter (id : UInt64) : Reads (loadCounter id : SqlM (MapLedger C ck) _) := by
  refine (reads_ledgerGet _).bind fun raw => ?_
  cases raw with
  | none | some raw => exact Reads.pure _

theorem reads_loadTable (name : Bytes) : Reads (loadTable G name : SqlM (MapLedger C ck) _) := by
  refine (reads_ledgerGet _).bind fun raw => ?_
  cases raw with
  | none => exact Reads.throw _
  | some raw =>
    refine Reads.ite ((Reads.throw _).bind fun _ => ?_) ?_
    all_goals
      cases G.unmarshalTable (raw.drop 1) with
      | error e => exact Reads.throw _
      | ok d => exact Reads.ite ((reads_loadCounter _).bind fun _ => Reads.pure _) (Reads.pure _)

theorem reads_validatePendingLocked (d : TableDef) (pkEnc : Bytes) (p : PendingRow) :
    Reads (validatePendingLocked d pkEnc p : SqlM (MapLedger C ck) _) := by
  refine (reads_ledgerGet _).bind fun raw => ?_
  cases p.old with
  | none =>
    cases raw with
    | none => exact Reads.pure _
    | some raw => exact Reads.throw _
  | some old =>
    cases raw with
    | none => exact Reads.throw _
    | some raw => exact (reads_ofSql _).bind fun oldEnc => Reads.ite (Reads.throw _) (Reads.pure _)

theorem reads_revalidateIndex (d : TableDef) (idx : IndexDef) (tt : TableTxn) : ∀ ps : List (Bytes × PendingRow),
    Reads (revalidateIndex d idx tt ps : SqlM (MapLedger C ck) _) := by
  intro ps
  induction ps with
  | nil => exact Reads.pure _
  | cons e ps ih =>
    obtain ⟨k, ⟨old, new⟩⟩ := e
    cases new with
    | none => exact ih
    | some row =>
      refine (reads_ofSql _).bind fun r => Reads.ite ih ?_
      dsimp only
      cases incBytes (secondarySpace idx.id ++ r.1) with
      | none => exact Reads.throw _
      | some stop =>
        refine (reads_backendScan _ _ _).bind fun kvs => (reads_ofSql _).bind fun freed => ?_
        exact Reads.ite ((Reads.throw _).bind fun _ => ih) ih

theorem reads_revalidateUniqueOf (d : TableDef) (tt : TableTxn) : ∀ idxs : List IndexDef,
    Reads (revalidateUniqueOf d tt idxs : SqlM (MapLedger C ck) _) := by
  intro idxs
  induction idxs with
  | nil => exact Reads.pure _
  | cons idx idxs ih => exact Reads.ite ((reads_revalidateIndex d idx tt _).bind fun _ => ih) ih

theorem reads_commitRows (d : TableDef) (moved : Bool) : ∀ ps : List (Bytes × PendingRow),
    Reads (commitRows d moved ps : SqlM (MapLedger C ck) _) := by
  intro ps
  induction ps with
  | nil => exact Reads.pure _
  | cons e ps ih =>
    obtain ⟨k, p⟩ := e
    have hrest : Reads (ofSql (buildRowOps d k p) >>= fun r => commitRows d moved ps >>= fun q =>
        (pure (r.1 ++ q.1, r.2 ++ q.2) : SqlM (MapLedger C ck) _)) :=
      (reads_ofSql _).bind fun r => ih.bind fun q => Reads.pure _
    exact Reads.ite ih (Reads.ite ((reads_validatePendingLocked d k p).bind fun _ => hrest) hrest)

theorem reads_commitTables (moved : Bool) : ∀ tts : List (UInt64 × TableTxn),
    Reads (commitTables moved tts : SqlM (MapLedger C ck) _) := by
  intro tts
  induction tts with
  | nil => exact Reads.pure _
  | cons e tts ih =>
    obtain ⟨id, tt⟩ := e
    refine Reads.get_bind fun s => ?_
    cases s.tableByID id with
    | none => exact Reads.throw _
    | some d =>
      refine (reads_commitRows d moved _).bind fun r => ?_
      exact Reads.ite ((reads_revalidateUniqueOf d tt _).bind fun _ => ih.bind fun q => Reads.pure _)
        (ih.bind fun q => Reads.pure _)

/-! ## Batches of SQL keys -/

theorem get_writeOps_concat (vals : OrdMap Bytes Bytes) (ops : List Op) (op : Op) (k : Bytes) :
    (writeOps vals (ops ++ [op])).get k =
      if k = op.key then (if op.delete then none else some op.value) else (writeOps vals ops).get k := by
  unfold writeOps MemBackend.writeBatch
  rw [List.map_append, List.foldl_append]
  exact MemBackend.get_applyOp _ op.record k

theorem get_writeOps_put (vals : OrdMap Bytes Bytes) (ops : List Op) (k k' : SqlKey) (v : Bytes) :
    (writeOps vals (ops ++ [Op.put k'.bytes v])).get k.bytes =
      if k = k' then some v else (writeOps vals ops).get k.bytes := by
  rw [get_writeOps_concat]
  exact if_congr SqlKey.bytes_eq_iff rfl rfl

theorem get_writeOps_del (vals : OrdMap Bytes Bytes) (ops : List Op) (k k' : SqlKey) :
    (writeOps vals (ops ++ [Op.del k'.bytes])).get k.bytes = if k = k' then none else (writeOps vals ops).get k.bytes := by
  rw [get_writeOps_concat]
  exact if_congr SqlKey.bytes_eq_iff rfl rfl

/-! ## Rows of a table deleted -/

/-- The statement changed nothing but rows, counters and the derived keyspace. -/
structure SameCatalog (s s' : MapSql C ck) : Prop where
  catMeta : s'.catMeta = s.catMeta
  tables : s'.tables = s.tables
  defs : s'.defs = s.defs
  root : s'.led.vals.get SqlKey.catalog.bytes = s.led.vals.get SqlKey.catalog.bytes
  table : ∀ lower, s'.led.vals.get (SqlKey.table lower).bytes = s.led.vals.get (SqlKey.table lower).bytes

theorem SameCatalog.refl (s : MapSql C ck) : SameCatalog s s := ⟨rfl, rfl, rfl, rfl, fun _ => rfl⟩

theorem SameCatalog.trans {s₁ s₂ s₃ : MapSql C ck} (h : SameCatalog s₁ s₂) (h' : SameCatalog s₂ s₃) :
    SameCatalog s₁ s₃ :=
  ⟨h'.catMeta.trans h.catMeta, h'.tables.trans h.tables, h'.defs.trans h.defs, h'.root.trans h.root,
    fun lower => (h'.table lower).trans (h.table lower)⟩

variable {scanOps : List BatchOp} {ledOps : List Op}

/-- What a key holds after a commit that returned. -/
theorem commit_get (h : commit ledOps scanOps s = .ok () s') (k : SqlKey) :
    s'.led.vals.get k.bytes = (writeOps s.led.vals ledOps).get k.bytes := by
  rw [commit_ok h]
  exact MapLedger.put_get _ _ k.bytes_ne_history

/-- A commit of row operations. -/
theorem SameCatalog.of_commit (hops : ∀ op ∈ ledOps, ∃ id pkEnc, op.key = (SqlKey.row id pkEnc).bytes)
    (h : commit ledOps scanOps s = .ok () s') : SameCatalog s s' := by
  have hkeep : ∀ k : SqlKey, (∀ id pkEnc, k ≠ .row id pkEnc) → s'.led.vals.get k.bytes = s.led.vals.get k.bytes := by
    intro k hk
    rw [commit_get h k]
    refine get_writeOps_of_notin fun op hop he => ?_
    obtain ⟨id, pkEnc, hkey⟩ := hops op hop
    exact hk id pkEnc (SqlKey.bytes_inj (he.symm.trans hkey))
  refine ⟨?_, ?_, ?_, hkeep _ (by simp), fun lower => hkeep _ (by simp)⟩
  all_goals rw [commit_ok h]

theorem deleteRowOps_keys (d : TableDef) : ∀ {kvs : List (Bytes × Bytes)} {r : List Op × List BatchOp}
    {s s' : MapSql C ck}, deleteRowOps G d kvs s = .ok r s' →
    r.1 = kvs.map fun kv => Op.del (rowKey d.id (kv.1.drop 9)) := by
  intro kvs
  induction kvs with
  | nil => intro r s s' h; cases h; rfl
  | cons kv kvs ih =>
    intro r s s' h
    obtain ⟨row, s₁, -, h⟩ := bind_eq_ok h
    obtain ⟨ops, s₂, -, h⟩ := bind_eq_ok h
    obtain ⟨rest, s₃, hrest, h⟩ := bind_eq_ok h
    cases h
    exact congrArg _ (ih hrest)

/-- **Deleting the rows of a table leaves the catalog alone.** -/
theorem deleteRows_ok (d : TableDef) : ∀ {rounds count n : ℕ} {s s' : MapSql C ck},
    deleteRows G d rounds count s = .ok n s' → SameCatalog s s' := by
  intro rounds
  induction rounds with
  | zero => intro count n s s' h; cases h
  | succ rounds ih =>
    intro count n s s' h
    obtain ⟨kvs, s₁, hscan, hrun⟩ := bind_eq_ok h
    obtain rfl := (reads_backendScan _ _ _).of_ok hscan
    by_cases hnil : kvs = []
    · rw [if_pos hnil] at hrun
      cases hrun
      exact SameCatalog.refl _
    · rw [if_neg hnil] at hrun
      obtain ⟨r, s₂, hops, hrun'⟩ := bind_eq_ok hrun
      obtain rfl := (reads_deleteRowOps d kvs).of_ok hops
      obtain ⟨u, s₃, hcommit, hrest⟩ := bind_eq_ok hrun'
      refine SameCatalog.trans (SameCatalog.of_commit ?_ hcommit) (ih hrest)
      intro op hop
      rw [deleteRowOps_keys d hops] at hop
      obtain ⟨kv, -, rfl⟩ := List.mem_map.1 hop
      exact ⟨d.id, _, rfl⟩

/-! ## Statements with one commit -/

/-- How a statement ends that commits at most once: refused without an effect, or with a commit and a change of the catalog
in memory that are as `P` says. -/
def OneCommit (x : SqlM (MapLedger C ck) Unit) (s : MapSql C ck)
    (P : List Op → List BatchOp → (MapSql C ck → MapSql C ck) → Prop) : Prop :=
  (∃ e, x s = .error e s) ∨ ∃ ledOps scanOps f, P ledOps scanOps f ∧ x s = (commit ledOps scanOps >>= fun _ => modify f) s

section
variable {α : Type} {x y : SqlM (MapLedger C ck) Unit}
  {P : List Op → List BatchOp → (MapSql C ck → MapSql C ck) → Prop}

theorem OneCommit.commit {ledOps : List Op} {scanOps : List BatchOp} {f : MapSql C ck → MapSql C ck}
    (h : P ledOps scanOps f) : OneCommit (commit ledOps scanOps >>= fun _ => modify f) s P := .inr ⟨_, _, _, h, rfl⟩

theorem OneCommit.get_bind {f : MapSql C ck → SqlM (MapLedger C ck) Unit} (h : OneCommit (f s) s P) :
    OneCommit (get >>= f) s P := h

theorem OneCommit.guard {c : Prop} [Decidable c] {e : SqlErr} {f : α → SqlM (MapLedger C ck) Unit}
    (h : ¬ c → OneCommit y s P) : OneCommit (if c then (throw e : SqlM (MapLedger C ck) α) >>= f else y) s P := by
  by_cases hc : c
  · rw [if_pos hc]
    exact .inl ⟨e, rfl⟩
  · rw [if_neg hc]
    exact h hc

theorem OneCommit.reads {r : SqlM (MapLedger C ck) α} {f : α → SqlM (MapLedger C ck) Unit} (hr : Reads r)
    (h : ∀ a, r s = .ok a s → OneCommit (f a) s P) : OneCommit (r >>= f) s P := by
  have hs := hr s
  cases hrun : r s with
  | error e s₁ =>
    rw [hrun] at hs
    obtain rfl : s₁ = s := hs
    exact .inl ⟨e, run_bind_error hrun⟩
  | ok a s₁ =>
    rw [hrun] at hs
    obtain rfl : s₁ = s := hs
    unfold OneCommit
    rw [run_bind_ok hrun]
    exact h a hrun

/-- A statement that returned has committed. -/
theorem OneCommit.ok (h : OneCommit x s P) (hx : x s = .ok () s') :
    ∃ ledOps scanOps f s₁, P ledOps scanOps f ∧ ImmutableLedger.commit ledOps scanOps s = .ok () s₁ ∧ s' = f s₁ := by
  rcases h with ⟨e, he⟩ | ⟨ledOps, scanOps, f, hP, hrun⟩
  · cases he.symm.trans hx
  · obtain ⟨u, s₁, hcommit, hlast⟩ := bind_eq_ok (hrun.symm.trans hx)
    cases hlast
    exact ⟨ledOps, scanOps, f, s₁, hP, hcommit, rfl⟩

end

theorem createTable_run (name comment : Bytes) (schema : PrimaryKeySchema) :
    OneCommit (createTable G name schema comment) s fun ledOps scanOps f =>
      s.tables.get (G.toLower name) = none ∧ ∃ d, newTableDef s.catMeta.nextTableID name schema comment = .ok d ∧
        ledOps = catalogOps G { s.catMeta with
          nextTableID := s.catMeta.nextTableID + 1, tables := s.catMeta.tables ++ [name] } [d] ∧ scanOps = [] ∧
        f = fun t => { t with
          catMeta := { s.catMeta with nextTableID := s.catMeta.nextTableID + 1, tables := s.catMeta.tables ++ [name] }
          tables := t.tables.insert (G.toLower name) d.id
          defs := t.defs.insert d.id d } := by
  refine .get_bind (.guard fun hnew => .guard fun _ => .reads (reads_ofSql _) fun d hd => .commit ?_)
  exact ⟨by simpa using hnew, d, (ofSql_eq_ok hd).1, rfl, rfl, rfl⟩

theorem getTableInsensitive_ok {name : Bytes} {id : UInt64} (h : getTableInsensitive G name s = .ok id s') :
    s.tables.get (G.toLower name) = some id ∧ s' = s := by
  unfold getTableInsensitive at h
  rw [run_get_bind] at h
  cases hid : s.tables.get (G.toLower name) with
  | some id' => rw [hid] at h; cases h; exact ⟨rfl, rfl⟩
  | none => rw [hid] at h; cases h

/-- The catalog root after a drop. -/
def CatalogMeta.without (G : GoLib) (m : CatalogMeta) (name : Bytes) : CatalogMeta :=
  { m with tables := m.tables.filter fun n => !G.equalFold n name }

/-- The catalog root after a rename. -/
def CatalogMeta.renamed (G : GoLib) (m : CatalogMeta) (oldName newName : Bytes) : CatalogMeta :=
  { m with tables := m.tables.map fun n => if G.equalFold n oldName then newName else n }

theorem dropTable_ok {name : Bytes} (h : dropTable G name s = .ok () s') :
    ∃ id d s₁ s₂, s.tables.get (G.toLower name) = some id ∧ s.defs.get id = some d ∧ SameCatalog s s₁ ∧
      commit [Op.put metaKey (tagCatalogMeta :: G.marshalMeta (s.catMeta.without G name)), Op.del (tableKey G d.name),
        Op.del (autoIncKey d.id)] [] s₁ = .ok () s₂ ∧
      s' = { s₂ with catMeta := s.catMeta.without G name, tables := s.tables.erase (G.toLower name) } := by
  unfold dropTable at h
  rw [run_get_bind] at h
  cases hid : s.tables.get (G.toLower name) with
  | none => rw [hid] at h; cases h
  | some id =>
    rw [hid] at h
    obtain ⟨d, s₁, hd, h₁⟩ := bind_eq_ok h
    obtain ⟨hd, rfl⟩ := defAt_ok hd
    obtain ⟨n, s₂, hrows, h₂⟩ := bind_eq_ok h₁
    have hsame := deleteRows_ok d hrows
    obtain ⟨u, s₃, hcommit, h₃⟩ := bind_eq_ok h₂
    cases h₃
    refine ⟨id, d, s₂, s₃, rfl, hd, hsame, hcommit, ?_⟩
    rw [commit_ok hcommit, hsame.tables]
    rfl

theorem renameTable_run (oldName newName : Bytes) :
    OneCommit (renameTable G oldName newName) s fun ledOps scanOps f =>
      ∃ id d, s.tables.get (G.toLower oldName) = some id ∧ s.tables.get (G.toLower newName) = none ∧
        s.defs.get id = some d ∧
        ledOps = catalogOps G (s.catMeta.renamed G oldName newName) [{ d with name := newName }] ++
          [Op.del (tableKey G oldName)] ∧ scanOps = [] ∧
        f = fun t => { t with
          catMeta := s.catMeta.renamed G oldName newName
          tables := (t.tables.erase (G.toLower oldName)).insert (G.toLower newName) id
          defs := t.defs.insert id { d with name := newName } } := by
  refine .get_bind ?_
  cases hid : s.tables.get (G.toLower oldName) with
  | none => exact .inl ⟨_, rfl⟩
  | some id =>
    refine .guard fun hnew => .reads (reads_defAt id) fun d hd => .commit ?_
    exact ⟨id, d, rfl, by simpa using hnew, (defAt_ok hd).1, rfl, rfl, rfl⟩

theorem truncate_ok {id : UInt64} {n : ℕ} (h : truncate G id s = .ok n s') : SameCatalog s s' := by
  unfold truncate at h
  rw [run_get_bind] at h
  obtain ⟨d, s₁, hd, h₁⟩ := bind_eq_ok h
  obtain ⟨-, rfl⟩ := defAt_ok hd
  exact deleteRows_ok d h₁

theorem createIndex_run (id : UInt64) (name : Bytes) (indexDefn : NewIndex) :
    OneCommit (createIndex G id name indexDefn) s fun ledOps entries f => ∃ d idx rounds, s.defs.get id = some d ∧
      idx.id = s.catMeta.nextIndexID ∧ buildIndex G d idx rounds (scanKey d.id []) OrdMap.empty [] s = .ok entries s ∧
      ledOps = catalogOps G { s.catMeta with nextIndexID := s.catMeta.nextIndexID + 1 }
        [{ d with indexes := d.indexes ++ [idx] }] ∧
      f = fun t => { t with
        catMeta := { s.catMeta with nextIndexID := s.catMeta.nextIndexID + 1 }
        defs := t.defs.insert id { d with indexes := d.indexes ++ [idx] } } := by
  refine .get_bind (.reads (reads_defAt id) fun d hd => .guard fun _ => .reads (reads_ofSql _) fun ords _ => ?_)
  exact .reads (reads_buildIndex _ _ _ _ _ _) fun entries hbuild => .commit ⟨d, _, _, (defAt_ok hd).1, rfl, hbuild, rfl, rfl⟩

theorem dropIndex_run (id : UInt64) (name : Bytes) :
    OneCommit (dropIndex G id name) s fun ledOps scanOps f => ∃ d pos idx rounds, s.defs.get id = some d ∧
      d.indexes[pos]? = some idx ∧ indexEntries idx.id rounds (secondarySpace idx.id) s = .ok scanOps s ∧
      ledOps = catalogOps G s.catMeta [{ d with indexes := d.indexes.eraseIdx pos }] ∧
      f = fun t => { t with defs := t.defs.insert id { d with indexes := d.indexes.eraseIdx pos } } := by
  refine .get_bind (.reads (reads_defAt id) fun d hd => ?_)
  cases d.indexes.findIdx? fun idx => G.equalFold idx.name name with
  | none => exact .inl ⟨_, rfl⟩
  | some pos =>
    dsimp only
    cases hidx : d.indexes[pos]? with
    | none => exact .inl ⟨_, rfl⟩
    | some idx =>
      exact .reads (reads_indexEntries _ _ _) fun scanOps hscan =>
        .commit ⟨d, pos, idx, _, (defAt_ok hd).1, hidx, hscan, rfl, rfl⟩

theorem renameIndex_run (id : UInt64) (old new : Bytes) :
    OneCommit (renameIndex G id old new) s fun ledOps scanOps f => ∃ d pos, s.defs.get id = some d ∧
      ledOps = catalogOps G s.catMeta [{ d with indexes := d.indexes.modify pos fun idx => { idx with name := new } }] ∧
      scanOps = [] ∧ f = fun t => { t with
        defs := t.defs.insert id { d with indexes := d.indexes.modify pos fun idx => { idx with name := new } } } := by
  refine .get_bind (.reads (reads_defAt id) fun d hd => ?_)
  cases d.indexes.findIdx? fun idx => G.equalFold idx.name old with
  | none => exact .inl ⟨_, rfl⟩
  | some pos => exact .commit ⟨d, pos, (defAt_ok hd).1, rfl, rfl, rfl⟩

/-! ## Commits of transactions -/

/-- The operations of a pending row. -/
inductive RowOps (d : TableDef) (pkEnc : Bytes) : PendingRow → List Op × List BatchOp → Prop
  | noop : RowOps d pkEnc ⟨none, none⟩ ([], [])
  | delete {old : Row} {removed : List BatchOp} (hr : indexOps d old pkEnc true = .ok removed) :
    RowOps d pkEnc ⟨some old, none⟩
      ([Op.del (rowKey d.id pkEnc)], { key := scanKey d.id pkEnc, delete := true } :: removed)
  | insert {new : Row} {value : Bytes} {added : List BatchOp} (hv : encodeRow d.columns new = .ok value)
      (ha : indexOps d new pkEnc false = .ok added) :
    RowOps d pkEnc ⟨none, some new⟩
      ([Op.put (rowKey d.id pkEnc) (rowPayload d.id value)], { key := scanKey d.id pkEnc } :: added)
  | update {old new : Row} {value : Bytes} {removed added : List BatchOp} (hv : encodeRow d.columns new = .ok value)
      (hr : indexOps d old pkEnc true = .ok removed) (ha : indexOps d new pkEnc false = .ok added) :
    RowOps d pkEnc ⟨some old, some new⟩
      ([Op.put (rowKey d.id pkEnc) (rowPayload d.id value)], { key := scanKey d.id pkEnc } :: (removed ++ added))

variable {r : List Op × List BatchOp}

theorem rowOps_of_ok {pkEnc : Bytes} {p : PendingRow} (h : buildRowOps d pkEnc p = .ok r) : RowOps d pkEnc p r := by
  obtain ⟨old, new⟩ := p
  cases new with
  | none =>
    cases old with
    | none =>
      cases h
      exact .noop
    | some old =>
      obtain ⟨removed, hr, h⟩ := Except.ok_of_bind h
      cases h
      exact .delete hr
  | some new =>
    obtain ⟨value, hv, h⟩ := Except.ok_of_bind h
    cases old with
    | none =>
      obtain ⟨removed, hr, h⟩ := Except.ok_of_bind h
      cases hr
      obtain ⟨added, ha, h⟩ := Except.ok_of_bind h
      cases h
      exact .insert hv ha
    | some old =>
      obtain ⟨removed, hr, h⟩ := Except.ok_of_bind h
      obtain ⟨added, ha, h⟩ := Except.ok_of_bind h
      cases h
      exact .update hv hr ha

/-- The operation of a pending row writes its row key. -/
theorem RowOps.keys {pkEnc : Bytes} {p : PendingRow} (h : RowOps d pkEnc p r) :
    ∀ op ∈ r.1, op.key = (SqlKey.row d.id pkEnc).bytes := by
  intro op hop
  cases h with
  | noop => cases hop
  | _ => rw [List.mem_singleton.1 hop]; rfl

/-- `ops` are the ledger operations of the pending rows `ps`. -/
structure OpsOf (d : TableDef) (ps : List (Bytes × PendingRow)) (ops : List Op) : Prop where
  built : ∀ e ∈ ps, ∃ q, buildRowOps d e.1 e.2 = .ok q ∧ ∀ op ∈ q.1, op ∈ ops
  only : ∀ op ∈ ops, ∃ e ∈ ps, ∃ q, buildRowOps d e.1 e.2 = .ok q ∧ op ∈ q.1

theorem OpsOf.nil (d : TableDef) : OpsOf d [] [] :=
  ⟨fun _ he => absurd he List.not_mem_nil, fun _ hop => absurd hop List.not_mem_nil⟩

variable {ps : List (Bytes × PendingRow)}

theorem OpsOf.cons {d : TableDef} {e : Bytes × PendingRow} {ops : List Op}
    {q : List Op × List BatchOp} (hq : buildRowOps d e.1 e.2 = .ok q) (h : OpsOf d ps ops) :
    OpsOf d (e :: ps) (q.1 ++ ops) := by
  refine ⟨fun e' he => ?_, fun op hop => ?_⟩
  · rcases List.mem_cons.1 he with rfl | he
    · exact ⟨q, hq, fun op hop => List.mem_append_left _ hop⟩
    · obtain ⟨q', hq', hmem⟩ := h.built e' he
      exact ⟨q', hq', fun op hop => List.mem_append_right _ (hmem op hop)⟩
  · rcases List.mem_append.1 hop with hop | hop
    · exact ⟨e, List.mem_cons_self, q, hq, hop⟩
    · obtain ⟨e', he', hrest⟩ := h.only op hop
      exact ⟨e', List.mem_cons_of_mem _ he', hrest⟩

theorem OpsOf.keys {ops : List Op} (h : OpsOf d ps ops) :
    ∀ op ∈ ops, ∃ e ∈ ps, op.key = (SqlKey.row d.id e.1).bytes := by
  intro op hop
  obtain ⟨e, he, q, hq, hmem⟩ := h.only op hop
  exact ⟨e, he, (rowOps_of_ok hq).keys op hmem⟩

theorem buildAllOps_ops : ∀ {ps : List (Bytes × PendingRow)} {r : List Op × List BatchOp},
    buildAllOps d ps = .ok r → OpsOf d ps r.1 := by
  intro ps
  induction ps with
  | nil =>
    intro r h
    cases h
    exact OpsOf.nil d
  | cons e ps ih =>
    intro r h
    obtain ⟨q, hq, h₁⟩ := Except.ok_of_bind h
    obtain ⟨rest, hrest, h₂⟩ := Except.ok_of_bind h₁
    cases h₂
    exact (ih hrest).cons hq

/-- `ops` are the ledger operations of the buffers `tts`: those of the rows, and the counters. -/
structure BatchOf (s : MapSql C ck) (tts : List (UInt64 × TableTxn)) (ops : List Op) : Prop where
  built : ∀ e ∈ tts, ∃ d rows, s.defs.get e.1 = some d ∧ OpsOf d e.2.entries rows ∧ ∀ op ∈ rows ++ counterOps d, op ∈ ops
  only : ∀ op ∈ ops, ∃ e ∈ tts, ∃ d rows, s.defs.get e.1 = some d ∧ OpsOf d e.2.entries rows ∧ op ∈ rows ++ counterOps d

theorem BatchOf.cons {e : UInt64 × TableTxn} {tts : List (UInt64 × TableTxn)} {ops rows : List Op} {d : TableDef}
    (hd : s.defs.get e.1 = some d) (hrows : OpsOf d e.2.entries rows) (h : BatchOf s tts ops) :
    BatchOf s (e :: tts) (rows ++ counterOps d ++ ops) := by
  refine ⟨fun e' he => ?_, fun op hop => ?_⟩
  · rcases List.mem_cons.1 he with rfl | he
    · exact ⟨d, rows, hd, hrows, fun op hop => List.mem_append_left _ hop⟩
    · obtain ⟨d', rows', hd', hrows', hmem⟩ := h.built e' he
      exact ⟨d', rows', hd', hrows', fun op hop => List.mem_append_right _ (hmem op hop)⟩
  · rcases List.mem_append.1 hop with hop | hop
    · exact ⟨e, List.mem_cons_self, d, rows, hd, hrows, hop⟩
    · obtain ⟨e', he', hrest⟩ := h.only op hop
      exact ⟨e', List.mem_cons_of_mem _ he', hrest⟩

theorem tableByID_eq_some {L : Type} {s : SqlStore L} {id : UInt64} (h : s.tableByID id = some d) :
    s.defs.get id = some d := by
  unfold SqlStore.tableByID at h
  split at h
  · exact h
  · cases h

/-- The operations of the pending rows of a table. -/
inductive BuildsRows (d : TableDef) : List (Bytes × PendingRow) → List Op → List BatchOp → Prop
  | nil : BuildsRows d [] [] []
  | cons {pk : Bytes} {p : PendingRow} {q : List Op × List BatchOp} {ps : List (Bytes × PendingRow)} {ledOps : List Op}
      {scanOps : List BatchOp} (hq : buildRowOps d pk p = .ok q) (h : BuildsRows d ps ledOps scanOps) :
    BuildsRows d ((pk, p) :: ps) (q.1 ++ ledOps) (q.2 ++ scanOps)

/-- The operations of the buffers of a transaction. -/
inductive BuildsTables (s : MapSql C ck) : List (UInt64 × TableTxn) → List Op → List BatchOp → Prop
  | nil : BuildsTables s [] [] []
  | cons {id : UInt64} {tt : TableTxn} {d : TableDef} {rowOps ledOps : List Op} {rowScan scanOps : List BatchOp}
      {tts : List (UInt64 × TableTxn)} (hd : s.tableByID id = some d) (hrows : BuildsRows d tt.entries rowOps rowScan)
      (h : BuildsTables s tts ledOps scanOps) :
    BuildsTables s ((id, tt) :: tts) (rowOps ++ counterOps d ++ ledOps) (rowScan ++ scanOps)

/-- The pending row changes nothing. -/
def PendingRow.Noop (p : PendingRow) : Prop := p.old = none ∧ p.new = none

instance (p : PendingRow) : Decidable p.Noop := inferInstanceAs (Decidable (_ ∧ _))

theorem buildRowOps_noop {pk : Bytes} {p : PendingRow} (h : p.Noop) : buildRowOps d pk p = .ok ([], []) := by
  obtain ⟨old, new⟩ := p
  obtain ⟨rfl, rfl⟩ : old = none ∧ new = none := h
  rfl

theorem commitRows_built {moved : Bool} : ∀ {ps : List (Bytes × PendingRow)} {r : List Op × List BatchOp}
    {s s' : MapSql C ck}, commitRows d moved ps s = .ok r s' → BuildsRows d ps r.1 r.2 ∧
      (moved = true → ∀ e ∈ ps, ¬ e.2.Noop → validatePendingLocked d e.1 e.2 s = .ok () s) := by
  intro ps
  induction ps with
  | nil =>
    intro r s s' h
    cases h
    exact ⟨.nil, fun _ e he => absurd he List.not_mem_nil⟩
  | cons e ps ih =>
    intro r s s' h
    obtain ⟨k, p⟩ := e
    -- what follows the check of the row
    have hrest : (ofSql (buildRowOps d k p) >>= fun r =>
        commitRows d moved ps >>= fun q => (pure (r.1 ++ q.1, r.2 ++ q.2) : SqlM (MapLedger C ck) _)) s = .ok r s' →
        BuildsRows d ((k, p) :: ps) r.1 r.2 ∧
          (moved = true → ∀ e ∈ ps, ¬ e.2.Noop → validatePendingLocked d e.1 e.2 s = .ok () s) := by
      intro hrun
      obtain ⟨q, s₁, hq, hrun₁⟩ := bind_eq_ok hrun
      obtain ⟨hrow, rfl⟩ := ofSql_eq_ok hq
      obtain ⟨rest, s₂, hps, hrun₂⟩ := bind_eq_ok hrun₁
      cases hrun₂
      obtain ⟨hbuilt, hvalid⟩ := ih hps
      exact ⟨.cons hrow hbuilt, hvalid⟩
    by_cases hskip : p.Noop
    · have hrun : commitRows d moved ps s = .ok r s' := by
        rw [← h]
        exact congrFun (if_pos hskip).symm s
      obtain ⟨hbuilt, hvalid⟩ := ih hrun
      refine ⟨.cons (buildRowOps_noop hskip) hbuilt, fun hm e he hne => ?_⟩
      rcases List.mem_cons.1 he with rfl | he
      · exact absurd hskip hne
      · exact hvalid hm e he hne
    · have hrun := (congrFun (if_neg hskip) s).symm.trans h
      cases moved with
      | false =>
        obtain ⟨hbuilt, -⟩ := hrest hrun
        exact ⟨hbuilt, fun hm => by cases hm⟩
      | true =>
        obtain ⟨u, s₁, hv, hrun₁⟩ := bind_eq_ok hrun
        obtain rfl := (reads_validatePendingLocked d k p).of_ok hv
        obtain ⟨hbuilt, hvalid⟩ := hrest hrun₁
        refine ⟨hbuilt, fun hm e he hne => ?_⟩
        rcases List.mem_cons.1 he with rfl | he
        · exact hv
        · exact hvalid hm e he hne

/-- What a commit that finds the store moved has checked of a buffer. -/
structure Validated (s : MapSql C ck) (d : TableDef) (tt : TableTxn) : Prop where
  rows : ∀ e ∈ tt.entries, ¬ e.2.Noop → validatePendingLocked d e.1 e.2 s = .ok () s
  unique : revalidateUniqueLocked d tt s = .ok () s

theorem commitTables_built {moved : Bool} : ∀ {tts : List (UInt64 × TableTxn)} {r : List Op × List BatchOp}
    {s s' : MapSql C ck}, commitTables moved tts s = .ok r s' → BuildsTables s tts r.1 r.2 ∧
      (moved = true → ∀ e ∈ tts, ∀ d, s.tableByID e.1 = some d → Validated s d e.2) := by
  intro tts
  induction tts with
  | nil =>
    intro r s s' h
    cases h
    exact ⟨.nil, fun _ e he => absurd he List.not_mem_nil⟩
  | cons e tts ih =>
    intro r s s' h
    obtain ⟨id, tt⟩ := e
    rw [commitTables, run_get_bind] at h
    cases hd : s.tableByID id with
    | none =>
      rw [hd] at h
      cases h
    | some d =>
      rw [hd] at h
      obtain ⟨q, s₁, hq, hrun⟩ := bind_eq_ok h
      obtain rfl := (reads_commitRows d moved _).of_ok hq
      obtain ⟨hrows, hvalid⟩ := commitRows_built hq
      have hrest : (commitTables moved tts >>= fun w =>
          (pure (q.1 ++ counterOps d ++ w.1, q.2 ++ w.2) : SqlM (MapLedger C ck) _)) s₁ = .ok r s' →
          BuildsTables s₁ ((id, tt) :: tts) r.1 r.2 ∧
            (moved = true → ∀ e ∈ tts, ∀ d, s₁.tableByID e.1 = some d → Validated s₁ d e.2) := by
        intro hrun
        obtain ⟨w, s₂, hw, hrun₂⟩ := bind_eq_ok hrun
        cases hrun₂
        obtain ⟨hbuilt, hall⟩ := ih hw
        exact ⟨.cons hd hrows hbuilt, hall⟩
      cases moved with
      | false =>
        obtain ⟨hbuilt, -⟩ := hrest hrun
        exact ⟨hbuilt, fun hm => by cases hm⟩
      | true =>
        obtain ⟨u, s₂, hu, hrun₂⟩ := bind_eq_ok hrun
        obtain rfl := (reads_revalidateUniqueOf d tt _).of_ok hu
        obtain ⟨hbuilt, hall⟩ := hrest hrun₂
        refine ⟨hbuilt, fun hm e he d' hd' => ?_⟩
        rcases List.mem_cons.1 he with rfl | he
        · obtain rfl : d = d' := Option.some.inj (hd.symm.trans hd')
          exact ⟨hvalid rfl, hu⟩
        · exact hall hm e he d' hd'

variable {tts : List (UInt64 × TableTxn)}

theorem BuildsTables.table (h : BuildsTables s tts ledOps scanOps) : ∀ e ∈ tts, ∃ d, s.tableByID e.1 = some d := by
  induction h with
  | nil => exact fun e he => absurd he List.not_mem_nil
  | cons hd _ _ ih =>
    intro e he
    rcases List.mem_cons.1 he with rfl | he
    · exact ⟨_, hd⟩
    · exact ih e he

theorem BuildsRows.opsOf (h : BuildsRows d ps ledOps scanOps) : OpsOf d ps ledOps := by
  induction h with
  | nil => exact OpsOf.nil d
  | cons hq _ ih => exact ih.cons (e := (_, _)) hq

theorem BuildsTables.batchOf (h : BuildsTables s tts ledOps scanOps) : BatchOf s tts ledOps := by
  induction h with
  | nil => exact ⟨fun _ he => absurd he List.not_mem_nil, fun _ hop => absurd hop List.not_mem_nil⟩
  | cons hd hrows _ ih => exact ih.cons (e := (_, _)) (tableByID_eq_some hd) hrows.opsOf

/-- The operations of buffers write row and counter keys. -/
theorem BatchOf.keys {ops : List Op} (h : BatchOf s tts ops) :
    ∀ op ∈ ops, ∃ e ∈ tts, ∃ d, s.defs.get e.1 = some d ∧
      (op.key = (SqlKey.counter d.id).bytes ∨ ∃ f ∈ e.2.entries, op.key = (SqlKey.row d.id f.1).bytes) := by
  intro op hop
  obtain ⟨e, he, d, rows, hd, hrows, hmem⟩ := h.only op hop
  refine ⟨e, he, d, hd, ?_⟩
  rcases List.mem_append.1 hmem with hmem | hmem
  · exact .inr (hrows.keys op hmem)
  · unfold counterOps at hmem
    split at hmem
    · rw [List.mem_singleton.1 hmem]
      exact .inl rfl
    · cases hmem

/-- No operation of a transaction is on a system key. -/
theorem commitTables_reserved {moved : Bool} (h : commitTables moved tts s = .ok r s') : Model.reservedOp r.1 = none :=
  reservedOp_eq_none fun op hop => by
    obtain ⟨e, -, d, -, hk | ⟨f, -, hk⟩⟩ := (commitTables_built h).1.batchOf.keys op hop
    · rw [hk]
      exact SqlKey.not_reserved _
    · rw [hk]
      exact SqlKey.not_reserved _

/-! ## Commits -/

/-- The operations of a transaction, or the error of the checks before them. -/
def commitOps (txn : StoreTxn) (s : MapSql C ck) : Except SqlErr (List Op × List BatchOp) :=
  (commitTables (decide (s.led.version ≠ txn.baseVersion)) txn.tables.entries s).val

theorem commitOps_built {txn : StoreTxn} (h : commitOps txn s = .ok r) :
    BuildsTables s txn.tables.entries r.1 r.2 ∧ (s.led.version ≠ txn.baseVersion →
      ∀ e ∈ txn.tables.entries, ∀ d, s.tableByID e.1 = some d → Validated s d e.2) := by
  unfold commitOps at h
  cases hops : commitTables (decide (s.led.version ≠ txn.baseVersion)) txn.tables.entries s with
  | error e st =>
    rw [hops] at h
    cases h
  | ok q st =>
    rw [hops] at h
    cases h
    obtain ⟨hbuilt, hvalid⟩ := commitTables_built hops
    exact ⟨hbuilt, fun hm => hvalid (decide_eq_true hm)⟩

/-- How the commit of a transaction ends: with nothing to write, with an error of its checks, or as the commit of its
operations does. -/
theorem commitTxn_cases (txn : StoreTxn) (s : MapSql C ck) :
    (commitTxn txn s = .ok () s) ∨ (∃ e, commitOps txn s = .error e ∧ commitTxn txn s = .error e s) ∨
      ∃ r, txn.tables.entries ≠ [] ∧ commitOps txn s = .ok r ∧ r.1 ≠ [] ∧ Model.reservedOp r.1 = none ∧
        commitTxn txn s = commit r.1 r.2 s := by
  by_cases hempty : txn.tables.entries = []
  · exact .inl (congrFun (if_pos hempty) s)
  · have hrun : commitTxn txn s = (commitTables (decide (s.led.version ≠ txn.baseVersion)) txn.tables.entries >>= fun r =>
        if r.1 = [] then pure () else commit r.1 r.2) s := by
      refine (congrFun (if_neg hempty) s).trans ?_
      rw [run_bind_ok (ledgerVersion_run s)]
    cases hops : commitTables (decide (s.led.version ≠ txn.baseVersion)) txn.tables.entries s with
    | error e t =>
      obtain rfl := (reads_commitTables _ _).of_error hops
      refine .inr (.inl ⟨e, by unfold commitOps; rw [hops]; rfl, ?_⟩)
      rw [hrun, run_bind_error hops]
    | ok r t =>
      have hres := commitTables_reserved hops
      obtain rfl := (reads_commitTables _ _).of_ok hops
      rw [run_bind_ok hops] at hrun
      by_cases hnil : r.1 = []
      · rw [if_pos hnil] at hrun
        exact .inl hrun
      · rw [if_neg hnil] at hrun
        exact .inr (.inr ⟨r, hempty, by unfold commitOps; rw [hops]; rfl, hnil, hres, hrun⟩)

end ImmutableLedger
