import ImmutableLedger.Sql.SampleLib
import ImmutableLedger.Proof.Catalog
import ImmutableLedger.Proof.Transaction

/-!
# No lost update

`no_lost_update`: in any interleaving of sessions that run transactions and statements on the catalog, a transaction that
commits rewrites rows that still are the ones it recorded. The commit makes at most one version, and writes the rows of its
buffer and no others.
-/

namespace ImmutableLedger

open EStateM

variable {C : Crypto} {ck : Bytes} {G : GoLib} {s s' : MapSql C ck} {t : StoreTxn}

/-- How the store `s'` comes from the store `s` by the commit of the transaction. -/
structure CommitsExactly (t : StoreTxn) (s s' : MapSql C ck) : Prop where
  /-- The rows that are rewritten are those that were recorded. -/
  based : ∀ id pk p, entryAt t.tables id pk = some p → ¬ p.Noop →
    ∃ d, s.tableByID id = some d ∧ Matches d (s.led.vals.get (rowKey id pk)) p.old
  version : s'.led.version = s.led.version ∨ s'.led.version = s.led.version + 1
  written : ∀ id pk p, entryAt t.tables id pk = some p →
    ∃ d, s.tableByID id = some d ∧ p.Writes d (s.led.vals.get (rowKey id pk)) (s'.led.vals.get (rowKey id pk))
  others : ∀ id pk, entryAt t.tables id pk = none → s'.led.vals.get (rowKey id pk) = s.led.vals.get (rowKey id pk)

/-- A commit that returned had nothing to write, or wrote its operations. -/
theorem commitTxn_ok (h : commitTxn t s = .ok () s') :
    ∃ r, commitOps t s = .ok r ∧ ((r.1 = [] ∧ s' = s) ∨ commit r.1 r.2 s = .ok () s') := by
  by_cases hempty : t.tables.entries = []
  · refine ⟨([], []), ?_, .inl ⟨rfl, ?_⟩⟩
    · unfold commitOps
      rw [hempty]
      rfl
    · have hrun : commitTxn t s = .ok () s := congrFun (if_pos hempty) s
      cases hrun.symm.trans h
      rfl
  · have hrun : commitTxn t s = (commitTables (decide (s.led.version ≠ t.baseVersion)) t.tables.entries >>= fun r =>
        if r.1 = [] then pure () else commit r.1 r.2) s := by
      refine (congrFun (if_neg hempty) s).trans ?_
      rw [run_bind_ok (ledgerVersion_run s)]
    obtain ⟨r, s₁, hops, hrest⟩ := bind_eq_ok (hrun.symm.trans h)
    obtain rfl := (reads_commitTables _ _).of_ok hops
    refine ⟨r, by unfold commitOps; rw [hops]; rfl, ?_⟩
    by_cases hnil : r.1 = []
    · rw [if_pos hnil] at hrest
      cases hrest
      exact .inl ⟨hnil, rfl⟩
    · rw [if_neg hnil] at hrest
      exact .inr hrest

theorem exists_of_entryAt {tables : OrdMap UInt64 TableTxn} {id : UInt64} {pk : Bytes} {p : PendingRow}
    (h : entryAt tables id pk = some p) : ∃ tt, (id, tt) ∈ tables.entries ∧ tt.get pk = some p := by
  unfold entryAt at h
  cases htt : tables.get id with
  | none =>
    rw [htt] at h
    cases h
  | some tt =>
    rw [htt] at h
    exact ⟨tt, OrdMap.mem_entries.2 htt, h⟩

/-- **The commit of a transaction** that is in order. -/
theorem TxnOk.commitsExactly {editors : OrdMap UInt64 TableTxn} {seen : List (UInt64 × Row)} (h : TxnOk G s t editors seen)
    (hk : Intact G s) (hok : commitTxn t s = .ok () s') : CommitsExactly t s s' := by
  obtain ⟨r, hops, hend⟩ := commitTxn_ok hok
  have hbatch := h.rowBatch hk hops
  have hof := hbatch.built.batchOf
  have hown : OwnIds s := hk.shape.ownIds
  -- the rows afterwards are those of the operations
  have hrows : ∀ id pk, s'.led.vals.get (rowKey id pk) = (writeOps s.led.vals r.1).get (rowKey id pk) := by
    intro id pk
    rcases hend with ⟨hnil, rfl⟩ | hcommit
    · rw [hnil]
      rfl
    · rw [commit_ok hcommit]
      exact MapLedger.put_get s.led r.1 (SqlKey.bytes_ne_history (.row id pk))
  have htable : ∀ id pk p, entryAt t.tables id pk = some p →
      ∃ tt d, (id, tt) ∈ t.tables.entries ∧ tt.get pk = some p ∧ s.tableByID id = some d := by
    intro id pk p hp
    obtain ⟨tt, htt, hget⟩ := exists_of_entryAt hp
    obtain ⟨d, hd⟩ := hbatch.built.table _ htt
    exact ⟨tt, d, htt, hget, hd⟩
  refine ⟨fun id pk p hp hne => ?_, ?_, fun id pk p hp => ?_, fun id pk hnone => ?_⟩
  · obtain ⟨tt, d, htt, hget, hd⟩ := htable id pk p hp
    exact ⟨d, hd, hbatch.based _ htt d hd pk p hget hne⟩
  · rcases hend with ⟨-, rfl⟩ | hcommit
    · exact .inl rfl
    · have hled := commit_led r.1 r.2 s
      rw [hcommit] at hled
      exact hled.imp And.right And.right
  · obtain ⟨tt, d, htt, hget, hd⟩ := htable id pk p hp
    refine ⟨d, hd, ?_⟩
    rw [hrows]
    exact hof.get_row s.led.vals hown t.tables.nodup_keys htt hget (tableByID_eq_some hd)
  · rw [hrows]
    refine hof.get_row_of_notin s.led.vals hown fun tt htt => ?_
    cases hget : tt.get pk with
    | none => rfl
    | some p => exact absurd (entryAt_of_mem htt hget) (by rw [hnone]; simp)

/-- What a commit of session `i` answers and leaves. -/
theorem serve_commit {w : World (MapLedger C ck)} {i : ℕ} (ht : (w.sessions i).txn = some t)
    (hok : (w.serve G (i, .call .commit)).1 = .ok .done) :
    commitTxn t w.store = .ok () (w.serve G (i, .call .commit)).2.store := by
  have hserve : w.serve G (i, .call .commit) = (w.withSession i {}).call (commitTxn t) fun _ => .done := by
    show w.commit i = _
    unfold World.commit
    rw [ht]
  rw [hserve] at hok ⊢
  have hval : (commitTxn t w.store).val.map (fun _ => SessionReply.done) = .ok .done := hok
  show commitTxn t w.store = .ok () (commitTxn t w.store).state
  cases hrun : commitTxn t w.store with
  | ok u st => rfl
  | error e st =>
    rw [hrun] at hval
    cases hval

/-- **No lost update.** Whatever the sessions have done, a transaction whose commit returns finds every row that it rewrites as
it recorded it, makes at most one version, and writes its rows and no others. -/
theorem no_lost_update {store : MapSql C ck} (hkept : Intact G store) {cs : List (ℕ × SqlRequest)}
    (hcs : Machine.Along (observed G) (fun s c => InContract G s c ∧ RoomFor s) (⟨store, fun _ => {}⟩, fun _ => []) cs)
    {i : ℕ} :
    let w := (Machine.run (observed G) (⟨store, fun _ => {}⟩, fun _ => []) cs).2.1
    (w.sessions i).txn = some t → (w.serve G (i, .call .commit)).1 = .ok .done →
      CommitsExactly t w.store (w.serve G (i, .call .commit)).2.store := by
  intro w ht hok
  have hw : WorldOk G (Machine.run (observed G) (⟨store, fun _ => {}⟩, fun _ => []) cs).2 := (worldOk_fresh hkept).run hcs
  exact ((hw.sessions i).txn t ht).commitsExactly hw.kept (serve_commit ht hok)

/-! ## Two sessions on one row -/

theorem intact_empty : Intact G (emptySql C ck) := by
  refine ⟨⟨⟨?_, ?_, ?_, ?_⟩, ?_, ?_⟩, ?_, fun _ _ _ => rfl⟩
  · exact fun id d hd => by cases hd
  · exact fun id d hd => by cases hd
  · exact fun id d hd => by cases hd
  · exact fun i j d e hd => by cases hd
  · exact fun lower id hl => by cases hl
  · exact fun a b id ha => by cases ha
  · exact fun id d pk raw hd => by cases hd

/-- A table of accounts: a number, its primary key, and an amount. -/
def accountsSchema : PrimaryKeySchema := ⟨[{ name := ascii "id", qtype := .int64 }, { name := ascii "v", qtype := .int64 }], [0]⟩

def accountsDef : TableDef where
  id := 1
  name := ascii "accounts"
  columns := [{ name := ascii "id", qtype := .int64 }, { name := ascii "v", qtype := .int64 }]
  pkOrds := [0]

def account (id v : Int64) : Row := [some (.int64 id), some (.int64 v)]

theorem engineRow_account (id v : Int64) : EngineRow G accountsDef.columns (account id v) := by
  refine ⟨.cons (fun w hw => ?_) (.cons (fun w hw => ?_) .nil), fun data hdata => ?_⟩
  · obtain rfl := Option.some.inj hw
    exact .inl trivial
  · obtain rfl := Option.some.inj hw
    exact .inl trivial
  · have henc : encodeRow accountsDef.columns (account id v) = .ok (1 :: encInt64 id ++ (1 :: encInt64 v)) := rfl
    obtain rfl := Except.ok.inj (henc.symm.trans hdata)
    simp [encInt64]

/-- Session 0 creates the table and commits an account, which session 1 reads and rewrites. Before session 1 commits, session
0 commits another account. -/
def accountsRun : List (ℕ × SqlRequest) :=
  [(0, .ddl (.createTable (ascii "accounts") accountsSchema [])), (0, .call (.start false)),
    (0, .call (.insert 1 (account 1 10))), (0, .call (.close 1)), (0, .call .commit), (1, .call (.start false)),
    (1, .call (.read 1 (encInt64 1))), (1, .call (.update 1 (account 1 10) (account 1 20))), (1, .call (.close 1)),
    (0, .call (.start false)), (0, .call (.insert 1 (account 2 30))), (0, .call (.close 1)), (0, .call .commit)]

instance (s : World (MapLedger C ck) × Seen) : Decidable (RoomFor s) :=
  decidable_of_iff (_ ∧ _ ∧ _) ⟨fun h => ⟨h.1, h.2.1, h.2.2⟩, fun h => ⟨h.table, h.index, h.version⟩⟩

theorem accountsRun_inContract : Machine.Along (observed sampleLib) (fun s c => InContract sampleLib s c ∧ RoomFor s)
    (⟨emptySql quickCrypto [], fun _ => {}⟩, fun _ => []) accountsRun := by
  have hroom : Machine.Along (observed sampleLib) (fun s _ => RoomFor s)
      (⟨emptySql quickCrypto [], fun _ => {}⟩, fun _ => []) accountsRun := by decide
  have hrow : ∀ {st : SqlStore (MapLedger quickCrypto [])} (id v : Int64), st.defs.get 1 = some accountsDef →
      RowFor sampleLib st 1 (account id v) := by
    intro st id v hst d hd
    obtain rfl := Option.some.inj (hst.symm.trans hd)
    exact engineRow_account id v
  refine Machine.Along.and ⟨fun _ _ => rfl, trivial, ⟨?_, hrow 1 10 (by decide)⟩, trivial, trivial, trivial, trivial,
    ⟨?_, by decide, hrow 1 20 (by decide)⟩, trivial, trivial, ⟨?_, hrow 2 30 (by decide)⟩, trivial, trivial, trivial⟩ hroom
  · exact Option.isSome_iff_ne_none.1 (by decide)
  · exact Option.isSome_iff_ne_none.1 (by decide)
  · exact Option.isSome_iff_ne_none.1 (by decide)

/-- The world before session 1 commits. -/
def accountsWorld : World (MapLedger quickCrypto []) :=
  (Machine.run (observed sampleLib) (⟨emptySql quickCrypto [], fun _ => {}⟩, fun _ => []) accountsRun).2.1

/-- The commit of session 1 rewrites the row that it has read, though the version has moved. -/
theorem no_lost_update_accounts : ∃ t, (accountsWorld.sessions 1).txn = some t ∧
    t.baseVersion ≠ accountsWorld.store.led.version ∧
    entryAt t.tables 1 (encInt64 1) = some { old := some (account 1 10), new := some (account 1 20) } ∧
    CommitsExactly t accountsWorld.store (accountsWorld.serve sampleLib (1, .call .commit)).2.store := by
  have hentry : ((accountsWorld.sessions 1).txn.map fun t => (decide (t.baseVersion ≠ accountsWorld.store.led.version),
      entryAt t.tables 1 (encInt64 1))) = some (true, some { old := some (account 1 10), new := some (account 1 20) }) := by
    decide +kernel
  obtain ⟨t, ht, hp⟩ := Option.map_eq_some_iff.1 hentry
  obtain ⟨hmoved, hold⟩ := Prod.mk.inj hp
  have hdone : (accountsWorld.serve sampleLib (1, .call .commit)).1.toOption = some .done := by decide +kernel
  have hok : (accountsWorld.serve sampleLib (1, .call .commit)).1 = .ok .done := by
    cases hreply : (accountsWorld.serve sampleLib (1, .call .commit)).1 with
    | error e =>
      rw [hreply] at hdone
      cases hdone
    | ok r =>
      rw [hreply] at hdone
      exact congrArg _ (Option.some.inj hdone)
  have hexact := no_lost_update intact_empty accountsRun_inContract (i := 1) (t := t)
  rw [← accountsWorld] at hexact
  exact ⟨t, ht, of_decide_eq_true hmoved, hold, hexact ht hok⟩

end ImmutableLedger
