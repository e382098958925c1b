import ImmutableLedger.Sql.Service
import ImmutableLedger.Proof.Scan
import ImmutableLedger.Proof.StoreInv

/-!
# What the buffers of a transaction are based on

A transaction records, with every row it rewrites, the row it takes for the committed one. As long as no other work is
committed after it began this is the committed row, by the way the buffers are filled; afterwards it may differ, and the commit
compares. `TxnOk` is the invariant, and `WorldOk.serve` says that every request keeps it for every session.

The engine hands over typed rows, and to `Update` and `Delete` rows that the session has read in its transaction
(`InContract`).
-/

namespace ImmutableLedger

open EStateM

variable {C : Crypto} {ck : Bytes} {G : GoLib} {s s' : MapSql C ck}

/-! ## What the engine keeps to -/

/-- The rows that each session has been returned in its transaction, with their tables. -/
abbrev Seen := ℕ → List (UInt64 × Row)

/-- What a session has seen after a request. Rows seen before a return to a savepoint or before a statement on the catalog do
not count. -/
def seenAfter (seen : List (UInt64 × Row)) (q : SqlRequest) (reply : Except SqlErr SessionReply) : List (UInt64 × Row) :=
  match q, reply with
  | .call (.read table _), .ok (.row row) => (table, row) :: seen
  | .call (.start _), _ => []
  | .call (.rollbackToSavepoint _), _ => []
  | .ddl _, _ => []
  | _, _ => seen

/-- The service and what its sessions have seen, as a machine. -/
def observed (G : GoLib) (s : World (MapLedger C ck) × Seen) (c : ℕ × SqlRequest) :
    Except SqlErr SessionReply × World (MapLedger C ck) × Seen :=
  ((s.1.serve G c).1, (s.1.serve G c).2,
    Function.update s.2 c.1 (seenAfter (s.2 c.1) c.2 (s.1.serve G c).1))

/-- No statement of the session has rows pending. -/
def Session.Quiet (sess : Session) : Prop := ∀ id pk, entryAt sess.editors id pk = none

/-- The row fits the columns of the table. -/
def RowFor (G : GoLib) (s : MapSql C ck) (table : UInt64) (row : Row) : Prop :=
  ∀ d, s.defs.get table = some d → EngineRow G d.columns row

/-- What the engine keeps to. Rows are written in a transaction and fit their table, and the rows that are rewritten have been
seen. A statement on the catalog, and the return to a savepoint, are statements of their own. -/
def InContract (G : GoLib) (s : World (MapLedger C ck) × Seen) (c : ℕ × SqlRequest) : Prop :=
  match c.2 with
  | .call (.insert table row) => (s.1.sessions c.1).txn ≠ none ∧ RowFor G s.1.store table row
  | .call (.update table old new) =>
    (s.1.sessions c.1).txn ≠ none ∧ (table, old) ∈ s.2 c.1 ∧ RowFor G s.1.store table new
  | .call (.delete table row) => (s.1.sessions c.1).txn ≠ none ∧ (table, row) ∈ s.2 c.1
  | .call (.rollbackToSavepoint _) => (s.1.sessions c.1).Quiet
  | .ddl _ => (s.1.sessions c.1).Quiet
  | .call .reopen => False
  | _ => True

/-! ## The invariant of a session -/

/-- A pending row that the commit can rely on. -/
def EntryOk (G : GoLib) (s : MapSql C ck) (base : UInt64) (id : UInt64) (pk : Bytes) (p : PendingRow) : Prop :=
  ∃ d, s.defs.get id = some d ∧ GoodPending G d pk p ∧
    (s.led.version = base → Matches d (s.led.vals.get (rowKey id pk)) p.old)

def BufferOk (G : GoLib) (s : MapSql C ck) (base : UInt64) (tables : OrdMap UInt64 TableTxn) : Prop :=
  ∀ id pk p, entryAt tables id pk = some p → EntryOk G s base id pk p

/-- A pending row of a statement. Where the transaction has a row of the same key, `Close` keeps that one's `old`. -/
def PendingOk (G : GoLib) (s : MapSql C ck) (t : StoreTxn) (id : UInt64) (pk : Bytes) (p : PendingRow) : Prop :=
  ∃ d, s.defs.get id = some d ∧ GoodPending G d pk p ∧
    (s.led.version = t.baseVersion → entryAt t.tables id pk = none → Matches d (s.led.vals.get (rowKey id pk)) p.old)

/-- A row the session has been returned. -/
def SeenOk (G : GoLib) (s : MapSql C ck) (t : StoreTxn) (id : UInt64) (row : Row) : Prop :=
  ∃ d pk, s.defs.get id = some d ∧ GoodRow G d pk row ∧
    (s.led.version = t.baseVersion → entryAt t.tables id pk = none →
      Matches d (s.led.vals.get (rowKey id pk)) (some row))

structure TxnOk (G : GoLib) (s : MapSql C ck) (t : StoreTxn) (editors : OrdMap UInt64 TableTxn)
    (seen : List (UInt64 × Row)) : Prop where
  begun : t.baseVersion.toNat ≤ s.led.version.toNat
  buffer : BufferOk G s t.baseVersion t.tables
  saved : ∀ sp ∈ t.savepoints, BufferOk G s t.baseVersion sp.tables
  pending : ∀ id pk p, entryAt editors id pk = some p → PendingOk G s t id pk p
  seen : ∀ e ∈ seen, SeenOk G s t e.1 e.2

structure SessionOk (G : GoLib) (s : MapSql C ck) (sess : Session) (seen : List (UInt64 × Row)) : Prop where
  idle : sess.txn = none → sess.Quiet
  txn : ∀ t, sess.txn = some t → TxnOk G s t sess.editors seen

structure WorldOk (G : GoLib) (s : World (MapLedger C ck) × Seen) : Prop where
  kept : Intact G s.1.store
  sessions : ∀ i, SessionOk G s.1.store (s.1.sessions i) (s.2 i)

/-! ## Sessions that a request does not touch -/

section
variable {t : StoreTxn} {editors : OrdMap UInt64 TableTxn} {seen : List (UInt64 × Row)} {base : UInt64} {id : UInt64}
  {pk : Bytes} {p : PendingRow}

/-- The version is the one the transaction began with, so the rows are those of the state before. -/
theorem Since.back (h : Since s s') (hb : base.toNat ≤ s.led.version.toNat) (hv : s'.led.version = base) :
    s.led.version = base ∧ ∀ id pk, s'.led.vals.get (rowKey id pk) = s.led.vals.get (rowKey id pk) := by
  have hfwd := h.forward
  rw [hv] at hfwd
  have hver : s.led.version = base := UInt64.toNat_inj.1 (by omega)
  exact ⟨hver, h.quiet (hv.trans hver.symm)⟩

theorem GoodPending.congr {d d' : TableDef} (h : GoodPending G d pk p) (hc : SameCols d d') : GoodPending G d' pk p :=
  ⟨fun row hrow => (h.old row hrow).congr hc, fun row hrow => (h.new row hrow).congr hc⟩

theorem EntryOk.since (h : EntryOk G s base id pk p) (hb : base.toNat ≤ s.led.version.toNat) (hs : Since s s') :
    EntryOk G s' base id pk p := by
  obtain ⟨d, hd, hgood, hbased⟩ := h
  obtain ⟨d', hd', hc⟩ := hs.defs id d hd
  refine ⟨d', hd', hgood.congr hc, fun hv => ?_⟩
  obtain ⟨hver, hrows⟩ := hs.back hb hv
  rw [hrows]
  exact (hbased hver).congr hc

/-- **What others commit does not hurt a transaction.** -/
theorem TxnOk.since (h : TxnOk G s t editors seen) (hs : Since s s') : TxnOk G s' t editors seen := by
  refine ⟨h.begun.trans hs.forward, fun id pk p hp => (h.buffer id pk p hp).since h.begun hs,
    fun sp hsp id pk p hp => (h.saved sp hsp id pk p hp).since h.begun hs, fun id pk p hp => ?_, fun e he => ?_⟩
  · obtain ⟨d, hd, hgood, hbased⟩ := h.pending id pk p hp
    obtain ⟨d', hd', hc⟩ := hs.defs id d hd
    refine ⟨d', hd', hgood.congr hc, fun hv hnone => ?_⟩
    obtain ⟨hver, hrows⟩ := hs.back h.begun hv
    rw [hrows]
    exact (hbased hver hnone).congr hc
  · obtain ⟨d, pk, hd, hgood, hbased⟩ := h.seen e he
    obtain ⟨d', hd', hc⟩ := hs.defs e.1 d hd
    refine ⟨d', pk, hd', hgood.congr hc, fun hv hnone => ?_⟩
    obtain ⟨hver, hrows⟩ := hs.back h.begun hv
    rw [hrows]
    exact (hbased hver hnone).congr hc

theorem SessionOk.since {sess : Session} (h : SessionOk G s sess seen) (hs : Since s s') : SessionOk G s' sess seen :=
  ⟨h.idle, fun t ht => (h.txn t ht).since hs⟩

end

/-! ## Editor calls -/

section
variable {editors : OrdMap UInt64 TableTxn} {seen : List (UInt64 × Row)} {t : StoreTxn} {id : UInt64} {pk : Bytes}
  {p : PendingRow} {d : TableDef} {row : Row}

/-- A row filed in the buffer of a statement. -/
theorem TxnOk.filed {pending : TableTxn} (h : TxnOk G s t (editors.insert id pending) seen) (hp : PendingOk G s t id pk p) :
    TxnOk G s t (editors.insert id (pending.insert pk p)) seen := by
  refine ⟨h.begun, h.buffer, h.saved, fun id' pk' p' hp' => ?_, h.seen⟩
  have hold := h.pending id' pk'
  rw [entryAt_insert] at hp' hold
  split at hp'
  · rename_i hid
    rw [if_pos hid] at hold
    rw [OrdMap.get_insert] at hp'
    split at hp'
    · rename_i hpk
      cases hp'
      rw [hid, hpk]
      exact hp
    · exact hold p' hp'
  · rename_i hid
    rw [if_neg hid] at hold
    exact hold p' hp'

/-- What stands in the buffer keeps its `old`. -/
theorem PendingOk.setNew (h : PendingOk G s t id pk p) (hd : s.defs.get id = some d) {new : Option Row}
    (hnew : ∀ row, new = some row → GoodRow G d pk row) : PendingOk G s t id pk { p with new := new } := by
  obtain ⟨d', hd', hgood, hbased⟩ := h
  obtain rfl : d = d' := Option.some.inj (hd.symm.trans hd')
  exact ⟨d, hd, ⟨hgood.old, hnew⟩, hbased⟩

theorem TxnOk.pending_editor {pending : TableTxn} (h : TxnOk G s t (editors.insert id pending) seen)
    (hp : pending.get pk = some p) : PendingOk G s t id pk p := by
  refine h.pending id pk p ?_
  rw [entryAt_insert, if_pos rfl]
  exact hp

/-- A row that was seen is rewritten: by the row `new`, or by none. -/
theorem TxnOk.rewritten {pending : TableTxn} (h : TxnOk G s t (editors.insert id pending) seen)
    (hd : s.defs.get id = some d) (hseen : (id, row) ∈ seen) (hpk : encodePK d row = .ok pk) {new : Option Row}
    (hnew : ∀ row, new = some row → GoodRow G d pk row) :
    PendingOk G s t id pk { (pending.get pk).getD { old := some row } with new := new } := by
  cases hp : pending.get pk with
  | some p => exact (h.pending_editor hp).setNew hd hnew
  | none =>
    obtain ⟨d', pk', hd', hgood, hbased⟩ := h.seen _ hseen
    obtain rfl : d = d' := Option.some.inj (hd.symm.trans hd')
    obtain rfl : pk = pk' := Except.ok.inj (hpk.symm.trans hgood.filed)
    refine ⟨d, hd, ⟨fun r hr => ?_, hnew⟩, hbased⟩
    obtain rfl : row = r := Option.some.inj hr
    exact hgood

theorem deletedRow_eq (pending : TableTxn) (pk : Bytes) (row : Row) :
    deletedRow pending pk row = { (pending.get pk).getD { old := some row } with new := none } := by
  unfold deletedRow
  cases pending.get pk <;> rfl

theorem updatedRow_eq (pending : TableTxn) (pk : Bytes) (old new : Row) :
    updatedRow pending pk old new = { (pending.get pk).getD { old := some old } with new := some new } := by
  unfold updatedRow
  cases pending.get pk <;> rfl

/-- The editor of a transaction on its way through a call; `st` is the store before the call. -/
structure EditOk (G : GoLib) (st : MapSql C ck) (t : StoreTxn) (editors : OrdMap UInt64 TableTxn)
    (seen : List (UInt64 × Row)) (id : UInt64) (es : EditState (MapLedger C ck)) : Prop where
  kept : Intact G es.store
  since : Since st es.store
  open_txn : es.txn = some t
  table : es.editor.table = id
  txn : TxnOk G es.store t (editors.insert id es.editor.pending) seen

variable {st : MapSql C ck} {es es' : EditState (MapLedger C ck)}

theorem EditOk.filed (h : EditOk G st t editors seen id es) (hp : PendingOk G es.store t id pk p) :
    EditOk G st t editors seen id (es.filed pk p) := ⟨h.kept, h.since, h.open_txn, h.table, h.txn.filed hp⟩

theorem EditOk.counted (h : EditOk G st t editors seen id es) (hroom : Room 1 es.store) (hd : es.store.defs.get id = some d)
    (next : UInt64) : EditOk G st t editors seen id (es.counted { d with autoIncNext := next }) := by
  have hstep : SqlSteps G 1 es.store (es.counted { d with autoIncNext := next }).store := by
    unfold EditState.counted
    rw [h.table]
    exact .one (.counted next hd)
  obtain ⟨hkept, hsince⟩ := h.kept.steps hroom hstep
  exact ⟨hkept, h.since.trans hsince, h.open_txn, h.table, h.txn.since hsince⟩

/-- **An insert.** -/
theorem EditOk.inserted (h : EditOk G st t editors seen id es) (hroom : Room 1 es.store) (hrow : RowFor G es.store id row)
    (hins : Inserted row es es') : EditOk G st t editors seen id es' := by
  cases hins with
  | refused => exact h
  | @counted d next hd _ =>
    rw [h.table] at hd
    exact h.counted hroom hd next
  | @filed d next pk _ hd _ hpk hfree =>
    rw [h.table] at hd
    have hgood : GoodRow G d pk row := ⟨hrow d hd, hpk⟩
    -- what is filed is in order before the counter is advanced
    have hpend : PendingOk G es.store t id pk (insertedRow es.editor.pending pk row) := by
      unfold insertedRow
      unfold KeyFree at hfree
      cases hp : es.editor.pending.get pk with
      | some p => exact (h.txn.pending_editor hp).setNew hd fun r hr => Option.some.inj hr ▸ hgood
      | none =>
        have hpending : GoodPending G d pk { new := some row } := by
          refine ⟨fun r hr => ?_, fun r hr => Option.some.inj hr ▸ hgood⟩
          cases hr
        refine ⟨d, hd, hpending, fun _ hnone => ?_⟩
        have htxn : (txnView es.txn es.editor.table).get pk = none := by
          rw [h.open_txn, h.table]
          exact hnone
        rw [hp, htxn] at hfree
        obtain ⟨l, hl⟩ := hfree
        have habs : es.store.led.vals.get (rowKey d.id pk) = none := (Result.ok.inj hl).1
        rw [h.kept.shape.ownIds id d hd] at habs
        rw [habs]
        exact .absent
    have hcounted := h.counted hroom hd next
    refine hcounted.filed ?_
    -- and after it
    have hfiled := (h.filed hpend).counted hroom hd next
    exact hfiled.txn.pending_editor ((OrdMap.get_insert _ _ _ _).trans (if_pos rfl))

theorem EditOk.delete (h : EditOk G st t editors seen id es) (hseen : (id, row) ∈ seen) :
    EditOk G st t editors seen id (Editor.delete row es).state := by
  rcases delete_cases row es with hst | ⟨d, pk, -, hd, hpk, hst⟩
  · rw [hst]
    exact h
  · rw [hst, deletedRow_eq]
    rw [h.table] at hd
    exact h.filed (h.txn.rewritten hd hseen hpk fun r hr => by cases hr)

theorem EditOk.update {old new : Row} (h : EditOk G st t editors seen id es) (hroom : Room 1 es.store)
    (hseen : (id, old) ∈ seen) (hrow : RowFor G es.store id new) :
    EditOk G st t editors seen id (Editor.update old new es).state := by
  rcases update_cases old new es with hst | ⟨d, oldPK, newPK, -, hd, hold, hnew, hcase⟩
  · rw [hst]
    exact h
  · rw [h.table] at hd
    rcases hcase with ⟨rfl, hst⟩ | ⟨-, hins⟩
    · rw [hst, updatedRow_eq]
      refine h.filed (h.txn.rewritten hd hseen hold fun r hr => ?_)
      obtain rfl := Option.some.inj hr
      exact ⟨hrow d hd, hnew⟩
    · rw [deletedRow_eq] at hins
      exact (h.filed (h.txn.rewritten hd hseen hold fun r hr => by cases hr)).inserted hroom hrow hins

end

/-! ## Commits -/

section
variable {t : StoreTxn} {editors : OrdMap UInt64 TableTxn} {seen : List (UInt64 × Row)} {d : TableDef} {pk : Bytes}
  {p : PendingRow}

/-- A pending row that passes the check of the commit. -/
theorem matches_of_validated (hk : Intact G s) {id : UInt64} (hd : s.defs.get id = some d)
    (h : validatePendingLocked d pk p s = .ok () s) : Matches d (s.led.vals.get (rowKey id pk)) p.old := by
  have hid : d.id = id := hk.shape.ownIds id d hd
  unfold validatePendingLocked at h
  rw [run_bind_ok (ledgerGet_run s _), hid] at h
  generalize hraw : s.led.vals.get (rowKey id pk) = raw at h ⊢
  generalize p.old = old at h ⊢
  cases raw with
  | none =>
    cases old with
    | none => exact .absent
    | some old => cases h
  | some raw =>
    cases old with
    | none => cases h
    | some old =>
      obtain ⟨oldEnc, s₁, henc, hrun⟩ := bind_eq_ok h
      obtain ⟨hold, rfl⟩ := ofSql_eq_ok henc
      by_cases hc : raw.length < 9 ∨ raw.drop 9 ≠ oldEnc
      · cases (congrFun (if_pos hc) s₁).symm.trans hrun
      · obtain ⟨row, data, -, -, rfl⟩ := hk.rows.stored id d pk raw hd hraw
        have hdata : data = oldEnc := by
          rw [not_or, not_not, drop_payload] at hc
          exact hc.2
        rw [hdata]
        exact .row hold

theorem entryAt_of_mem {tables : OrdMap UInt64 TableTxn} {e : UInt64 × TableTxn} (he : e ∈ tables.entries)
    (hp : e.2.get pk = some p) : entryAt tables e.1 pk = some p := by
  have hget : tables.get e.1 = some e.2 := OrdMap.mem_entries.1 he
  unfold entryAt
  rw [hget]
  exact hp

/-- **The operations of a transaction are based on what is stored.** -/
theorem TxnOk.rowBatch (h : TxnOk G s t editors seen) (hk : Intact G s) {r : List Op × List BatchOp}
    (hops : commitOps t s = .ok r) : RowBatch G s t.tables.entries r.1 r.2 := by
  obtain ⟨hbuilt, hvalid⟩ := commitOps_built hops
  -- the entry of a buffer, with the definition the commit uses
  have hentry : ∀ e ∈ t.tables.entries, ∀ d, s.tableByID e.1 = some d → ∀ pk p, e.2.get pk = some p →
      GoodPending G d pk p ∧ (s.led.version = t.baseVersion → Matches d (s.led.vals.get (rowKey e.1 pk)) p.old) := by
    intro e he d hd pk p hp
    obtain ⟨d', hd', hgood, hbased⟩ := h.buffer e.1 pk p (entryAt_of_mem he hp)
    obtain rfl : d = d' := Option.some.inj ((tableByID_eq_some hd).symm.trans hd')
    exact ⟨hgood, hbased⟩
  refine ⟨t.tables.nodup_keys, hbuilt, fun e he d hd pk p hp => (hentry e he d hd pk p hp).1,
    fun e he d hd pk p hp hne => ?_⟩
  by_cases hv : s.led.version = t.baseVersion
  · exact (hentry e he d hd pk p hp).2 hv
  · -- other work was committed, so the row has been compared
    have hrow := (hvalid hv e he d hd).rows (pk, p) (OrdMap.mem_entries.2 hp) hne
    exact matches_of_validated hk (tableByID_eq_some hd) hrow

end

/-! ## Reads -/

/-- A row that is read: it stands in the buffer, or it is the committed one. -/
theorem TxnOk.read {t : StoreTxn} {editors : OrdMap UInt64 TableTxn} {seen : List (UInt64 × Row)}
    (h : TxnOk G s t editors seen) (hk : Intact G s) {id : UInt64} {d : TableDef} {pk : Bytes} {row : Row}
    (hd : s.defs.get id = some d)
    (hread : resolved G (txnView (some t) id) d s.led.vals.get pk = .ok row) : SeenOk G s t id row := by
  unfold resolved at hread
  cases hp : (txnView (some t) id).get pk with
  | some p =>
    rw [hp] at hread
    dsimp only at hread
    cases hnew : p.new with
    | none =>
      rw [hnew] at hread
      cases hread
    | some new =>
      rw [hnew] at hread
      cases hread
      obtain ⟨d', hd', hgood, -⟩ := h.buffer id pk p hp
      obtain rfl : d = d' := Option.some.inj (hd.symm.trans hd')
      refine ⟨d, pk, hd, hgood.new row hnew, fun _ hnone => ?_⟩
      cases hp.symm.trans hnone
  | none =>
    rw [hp] at hread
    dsimp only at hread
    rw [hk.shape.ownIds id d hd] at hread
    unfold storedRow at hread
    cases hraw : s.led.vals.get (rowKey id pk) with
    | none =>
      rw [hraw] at hread
      cases hread
    | some raw =>
      rw [hraw] at hread
      dsimp only at hread
      split at hread
      · cases hread
      · obtain ⟨hgood, hmatch⟩ := (hk.rows.stored id d pk raw hd hraw).decoded hread
        refine ⟨d, pk, hd, hgood, fun _ _ => ?_⟩
        rw [hraw]
        exact hmatch

/-- A row that a session is returned. -/
theorem readRow_reply {w : World (MapLedger C ck)} {i : ℕ} {id : UInt64} {pk : Bytes} {row : Row}
    {st : MapSql C ck} (h : World.readRow G w i id pk w.store = .ok row st) :
    ∃ d, w.store.defs.get id = some d ∧
      resolved G (txnView (w.sessions i).txn id) d w.store.led.vals.get pk = .ok row := by
  unfold World.readRow at h
  cases hd : w.store.defs.get id with
  | none =>
    rw [run_bind_error (defAt_none hd)] at h
    cases h
  | some d =>
    rw [run_bind_ok (defAt_run hd)] at h
    refine ⟨d, rfl, ?_⟩
    obtain ⟨st', -, hrun⟩ := yields_readRowTxn G (mapLedger_readsAs w.store) (txnView (w.sessions i).txn id) d pk w.store rfl
    generalize resolved G (txnView (w.sessions i).txn id) d w.store.led.vals.get pk = r at hrun ⊢
    cases r with
    | error e => cases hrun.symm.trans h
    | ok row' =>
      cases hrun.symm.trans h
      rfl

/-! ## Requests -/

variable {l : List (UInt64 × Row)}

section
variable {w w' : World (MapLedger C ck)} {seen : Seen} {i : ℕ}

/-- A request of session `i`: its own session is in order, and the others see what was committed. -/
theorem WorldOk.frame (h : WorldOk G (w, seen)) (hkept : Intact G w'.store)
    (hsince : Since w.store w'.store) (hother : ∀ j, j ≠ i → w'.sessions j = w.sessions j)
    (hi : SessionOk G w'.store (w'.sessions i) l) : WorldOk G (w', Function.update seen i l) := by
  refine ⟨hkept, fun j => ?_⟩
  show SessionOk G w'.store (w'.sessions j) (Function.update seen i l j)
  by_cases hj : j = i
  · subst hj
    rw [Function.update_self]
    exact hi
  · rw [Function.update_of_ne hj, hother j hj]
    exact (h.sessions j).since hsince

/-- The store took steps, and the sessions are as before. -/
theorem WorldOk.steps (h : WorldOk G (w, seen)) {n : ℕ} (hroom : Room n w.store) (hsteps : SqlSteps G n w.store w'.store)
    (hsessions : w'.sessions = w.sessions) : WorldOk G (w', seen) := by
  obtain ⟨hkept, hsince⟩ := h.kept.steps hroom hsteps
  refine ⟨hkept, fun j => ?_⟩
  show SessionOk G w'.store (w'.sessions j) (seen j)
  rw [hsessions]
  exact (h.sessions j).since hsince

/-- Session `i` has changed, and nothing else. -/
theorem WorldOk.session (h : WorldOk G (w, seen)) {sess : Session}
    (hi : SessionOk G w.store sess l) : WorldOk G (w.withSession i sess, Function.update seen i l) :=
  h.frame h.kept (Since.refl _) (fun _ hj => w.withSession_of_ne sess hj) (by rw [World.withSession_self]; exact hi)

theorem sessionOk_empty (l : List (UInt64 × Row)) : SessionOk G s {} l :=
  ⟨fun _ id pk => entryAt_empty id pk, fun t ht => by cases ht⟩

/-- The entries of the editors are those of the edited table, as its buffer has them, and of the others. -/
theorem entryAt_pending (sess : Session) (table id : UInt64) (pk : Bytes) :
    entryAt (sess.editors.insert table (sess.pending table)) id pk = entryAt sess.editors id pk := by
  rw [entryAt_insert]
  split
  · rename_i hid
    rw [hid]
    rfl
  · rfl

/-- A call on an editor in a transaction. -/
theorem WorldOk.edit (h : WorldOk G (w, seen)) {table : UInt64} {x : EditM (MapLedger C ck) Unit}
    (htxn : (w.sessions i).txn ≠ none)
    (hx : ∀ t es, EditOk G w.store t (w.sessions i).editors (seen i) table es → es.store = w.store →
      EditOk G w.store t (w.sessions i).editors (seen i) table (x es).state) :
    WorldOk G ((w.edit i table x).2, Function.update seen i (seen i)) := by
  obtain ⟨t, ht⟩ := Option.ne_none_iff_exists'.1 htxn
  have hi := (h.sessions i).txn t ht
  have hstart : EditOk G w.store t (w.sessions i).editors (seen i) table (w.editState i table) := by
    refine ⟨h.kept, Since.refl _, ht, rfl, hi.begun, hi.buffer, hi.saved, fun id pk p hp => ?_, hi.seen⟩
    have hp' := entryAt_pending (w.sessions i) table id pk
    exact hi.pending id pk p (hp'.symm.trans hp)
  obtain ⟨hkept, hsince, htx, htable, htxnOk⟩ := hx t _ hstart rfl
  refine h.frame hkept hsince (fun j hj => World.withSession_of_ne _ _ hj) ?_
  have hself : (w.edit i table x).2.sessions i =
      { txn := some t, editors := (w.sessions i).editors.insert table (x (w.editState i table)).state.editor.pending } := by
    refine (World.withSession_self _ _ _).trans ?_
    rw [htx, htable]
  rw [hself]
  refine ⟨fun hnone => ?_, fun t' ht' => ?_⟩
  · cases hnone
  · cases ht'
    exact htxnOk

/-- Fewer pending rows. -/
theorem TxnOk.fewer {t : StoreTxn} {editors editors' : OrdMap UInt64 TableTxn}
    (h : TxnOk G s t editors l) (hsub : ∀ id pk p, entryAt editors' id pk = some p → entryAt editors id pk = some p) :
    TxnOk G s t editors' l :=
  ⟨h.begun, h.buffer, h.saved, fun id pk p hp => h.pending id pk p (hsub id pk p hp), h.seen⟩

theorem SessionOk.fewer {txn : Option StoreTxn} {editors editors' : OrdMap UInt64 TableTxn}
    (h : SessionOk G s { txn, editors } l)
    (hsub : ∀ id pk p, entryAt editors' id pk = some p → entryAt editors id pk = some p) :
    SessionOk G s { txn, editors := editors' } l := by
  refine ⟨fun hnone id pk => ?_, fun t ht => (h.txn t ht).fewer hsub⟩
  cases hp : entryAt editors' id pk with
  | none => rfl
  | some p =>
    have hold := hsub id pk p hp
    rw [show entryAt editors id pk = none from h.idle hnone id pk] at hold
    cases hold

/-- A buffer folded into the transaction. -/
theorem TxnOk.folded {t : StoreTxn} {editors : OrdMap UInt64 TableTxn} {l : List (UInt64 × Row)}
    (h : TxnOk G s t editors l) {table : UInt64} {pending : TableTxn}
    (hp : ∀ pk, pending.get pk = entryAt editors table pk) :
    TxnOk G s (t.folded table pending) (editors.erase table) l := by
  have hentry : ∀ id pk, entryAt (t.folded table pending).tables id pk =
      if id = table then foldedRow (entryAt t.tables table pk) (entryAt editors table pk) else entryAt t.tables id pk := by
    intro id pk
    have hins := entryAt_insert t.tables table (foldPending (txnView (some t) table) pending) id pk
    rw [get_foldPending, hp] at hins
    exact hins
  -- a key without a row in the new buffer has none in the old one
  have hnone : ∀ id pk, entryAt (t.folded table pending).tables id pk = none → entryAt t.tables id pk = none := by
    intro id pk hn
    rw [hentry] at hn
    split at hn
    · rename_i hid
      rw [hid]
      generalize entryAt t.tables table pk = q at hn ⊢
      generalize entryAt editors table pk = p at hn
      cases q with
      | none => rfl
      | some q => cases p <;> cases hn
    · exact hn
  refine ⟨h.begun, fun id pk p hget => ?_, h.saved, fun id pk p hget => ?_, fun e he => ?_⟩
  · rw [hentry] at hget
    split at hget
    · rename_i hid
      subst hid
      cases hq : entryAt t.tables id pk with
      | none =>
        rw [hq] at hget
        cases hpend : entryAt editors id pk with
        | none =>
          rw [hpend] at hget
          cases hget
        | some p' =>
          rw [hpend] at hget
          cases hget
          obtain ⟨d, hd, hgood, hbased⟩ := h.pending id pk p hpend
          exact ⟨d, hd, hgood, fun hv => hbased hv hq⟩
      | some q =>
        rw [hq] at hget
        obtain ⟨d, hd, hgood, hbased⟩ := h.buffer id pk q hq
        cases hpend : entryAt editors id pk with
        | none =>
          rw [hpend] at hget
          cases hget
          exact ⟨d, hd, hgood, hbased⟩
        | some p' =>
          rw [hpend] at hget
          cases hget
          obtain ⟨d', hd', hgood', -⟩ := h.pending id pk p' hpend
          obtain rfl : d = d' := Option.some.inj (hd.symm.trans hd')
          exact ⟨d, hd, ⟨hgood.old, hgood'.new⟩, hbased⟩
    · exact h.buffer id pk p hget
  · rw [entryAt_erase] at hget
    split at hget
    · cases hget
    · obtain ⟨d, hd, hgood, hbased⟩ := h.pending id pk p hget
      exact ⟨d, hd, hgood, fun hv hn => hbased hv (hnone id pk hn)⟩
  · obtain ⟨d, pk, hd, hgood, hbased⟩ := h.seen e he
    exact ⟨d, pk, hd, hgood, fun hv hn => hbased hv (hnone e.1 pk hn)⟩

/-- A change of the transaction that keeps what it is based on. -/
theorem TxnOk.reset {t t' : StoreTxn} {editors : OrdMap UInt64 TableTxn}
    (h : TxnOk G s t editors l) (hbase : t'.baseVersion = t.baseVersion) (hbuffer : BufferOk G s t.baseVersion t'.tables)
    (hsaved : ∀ sp ∈ t'.savepoints, BufferOk G s t.baseVersion sp.tables)
    (hquiet : ∀ id pk, entryAt editors id pk = none) : TxnOk G s t' editors [] := by
  refine ⟨?_, ?_, ?_, fun id pk p hp => ?_, fun e he => absurd he List.not_mem_nil⟩
  · rw [hbase]
    exact h.begun
  · rw [hbase]
    exact hbuffer
  · rw [hbase]
    exact hsaved
  · rw [hquiet id pk] at hp
    cases hp

/-- What was seen does not matter to the buffers. -/
theorem SessionOk.unseen {sess : Session} (h : SessionOk G s sess l) : SessionOk G s sess [] := by
  refine ⟨h.idle, fun t ht => ?_⟩
  obtain ⟨hbegun, hbuffer, hsaved, hpending, -⟩ := h.txn t ht
  exact ⟨hbegun, hbuffer, hsaved, hpending, fun e he => absurd he List.not_mem_nil⟩

theorem sessionOk_started (readOnly : Bool) : SessionOk G s { txn := some (startTransaction s readOnly) } [] := by
  refine ⟨fun hnone => ?_, fun t ht => ?_⟩
  · cases hnone
  · cases ht
    exact ⟨le_rfl, fun id pk p hp => (by cases hp), fun sp hsp => absurd hsp List.not_mem_nil, fun id pk p hp => (by cases hp),
      fun e he => absurd he List.not_mem_nil⟩

/-- A call on the open transaction: it changes, or nothing does. -/
theorem onTxn_cases (w : World (MapLedger C ck)) (i : ℕ) (name : Bytes) (f : StoreTxn → Except SqlErr StoreTxn) :
    (w.onTxn i name f).2 = w ∨ ∃ t t', (w.sessions i).txn = some t ∧ f t = .ok t' ∧
      (w.onTxn i name f).2 = w.withSession i { w.sessions i with txn := some t' } := by
  unfold World.onTxn
  cases ht : (w.sessions i).txn with
  | none => exact .inl rfl
  | some t =>
    dsimp only
    cases hf : f t with
    | error e => exact .inl rfl
    | ok t' => exact .inr ⟨t, t', rfl, hf, rfl⟩

/-- Another transaction in session `i`, with the same statement buffers. -/
theorem WorldOk.setTxn (h : WorldOk G (w, seen)) {t : StoreTxn} (ht : TxnOk G w.store t (w.sessions i).editors l) :
    WorldOk G (w.withSession i { w.sessions i with txn := some t }, Function.update seen i l) := by
  refine h.session ⟨fun hnone => ?_, fun t' ht' => ?_⟩
  · cases hnone
  · cases ht'
    exact ht

/-- Outside a transaction nothing is pending when a statement ends. -/
theorem WorldOk.close_idle (h : WorldOk G (w, seen)) (ht : (w.sessions i).txn = none) (table : UInt64) :
    (Editor.close (w.editState i table)).state = w.editState i table := by
  have hempty : (w.editState i table).editor.pending.entries = [] := by
    refine List.eq_nil_iff_forall_not_mem.2 fun e he => ?_
    have hget : entryAt (w.sessions i).editors table e.1 = some e.2 := OrdMap.mem_entries.1 he
    have hquiet : entryAt (w.sessions i).editors table e.1 = none := (h.sessions i).idle ht table e.1
    rw [hquiet] at hget
    cases hget
  unfold Editor.close
  rw [run_get_bind, if_pos hempty]
  rfl

theorem WorldOk.close (h : WorldOk G (w, seen)) (table : UInt64) : WorldOk G ((w.close i table).2, seen) := by
  -- nothing was pending, or the transaction has taken it in
  have hsub : ∀ id pk p, entryAt ((w.sessions i).editors.erase table) id pk = some p →
      entryAt (w.sessions i).editors id pk = some p := by
    intro id pk p hp
    rw [entryAt_erase] at hp
    split at hp
    · cases hp
    · exact hp
  have hidle : (Editor.close (w.editState i table)).state = w.editState i table →
      WorldOk G ((w.close i table).2, seen) := by
    intro hst
    have hworld : (w.close i table).2 =
        w.withSession i { txn := (w.sessions i).txn, editors := (w.sessions i).editors.erase table } := by
      unfold World.close
      dsimp only
      rw [hst]
      rfl
    rw [hworld, ← Function.update_eq_self i seen]
    exact h.session ((h.sessions i).fewer hsub)
  cases ht : (w.sessions i).txn with
  | none => exact hidle (h.close_idle ht table)
  | some t =>
    have hcases := close_cases (w.editState i table)
    generalize hst : (Editor.close (w.editState i table)).state = es at hcases
    cases hcases with
    | idle => exact hidle hst
    | @folded t' ht' =>
      obtain rfl : t = t' := Option.some.inj (ht.symm.trans ht')
      have hworld : (w.close i table).2 = w.withSession i
          { txn := some (t.folded table ((w.sessions i).pending table)), editors := (w.sessions i).editors.erase table } := by
        unfold World.close
        dsimp only
        rw [hst]
        rfl
      rw [hworld, ← Function.update_eq_self i seen]
      refine h.session ⟨fun hnone => ?_, fun t' ht' => ?_⟩
      · cases hnone
      · cases ht'
        exact ((h.sessions i).txn t ht).folded fun pk => rfl
    | committed hnone _ _ _ => cases ht.symm.trans hnone

theorem WorldOk.commit_steps (h : WorldOk G (w, seen)) {t : StoreTxn} (ht : (w.sessions i).txn = some t) :
    SqlSteps G 1 w.store (commitTxn t w.store).state :=
  commitTxn_steps fun _ hr => ((h.sessions i).txn t ht).rowBatch h.kept hr

theorem WorldOk.commit (h : WorldOk G (w, seen)) (hroom : Room 1 w.store) : WorldOk G ((w.commit i).2, seen) := by
  unfold World.commit
  cases ht : (w.sessions i).txn with
  | none => exact h
  | some t =>
    obtain ⟨hkept, hsince⟩ := h.kept.steps hroom (h.commit_steps ht)
    rw [← Function.update_eq_self i seen]
    refine h.frame hkept hsince (fun j hj => w.withSession_of_ne _ hj) ?_
    show SessionOk G _ ((w.withSession i {}).sessions i) _
    rw [World.withSession_self]
    exact sessionOk_empty _

theorem WorldOk.rollback (h : WorldOk G (w, seen)) : WorldOk G (w.rollback i, seen) := by
  unfold World.rollback
  cases (w.sessions i).txn with
  | none => exact h
  | some t =>
    rw [← Function.update_eq_self i seen]
    exact h.session (sessionOk_empty _)

theorem WorldOk.read (h : WorldOk G (w, seen)) (table : UInt64) (pk : Bytes) :
    WorldOk G (observed G (w, seen) (i, .call (.read table pk))).2 := by
  have hstate : (World.readRow G w i table pk w.store).state = w.store := reads_worldReadRow w i table pk w.store
  have hserve : w.serve G (i, .call (.read table pk)) =
      ((World.readRow G w i table pk w.store).val.map SessionReply.row, w) := by
    show ((World.readRow G w i table pk w.store).val.map SessionReply.row,
      { w with store := (World.readRow G w i table pk w.store).state }) = _
    rw [hstate]
  unfold observed
  dsimp only
  rw [hserve]
  dsimp only
  cases hrun : World.readRow G w i table pk w.store with
  | error e st =>
    show WorldOk G (w, Function.update seen i (seen i))
    rw [Function.update_eq_self]
    exact h
  | ok row st =>
    show WorldOk G (w, Function.update seen i ((table, row) :: seen i))
    refine h.frame h.kept (Since.refl _) (fun _ _ => rfl) ⟨(h.sessions i).idle, fun t ht => ?_⟩
    have hi := (h.sessions i).txn t ht
    obtain ⟨d, hd, hres⟩ := readRow_reply hrun
    rw [show (w.sessions i).txn = some t from ht] at hres
    refine ⟨hi.begun, hi.buffer, hi.saved, hi.pending, fun e he => ?_⟩
    rcases List.mem_cons.1 he with rfl | he
    · exact hi.read h.kept hd hres
    · exact hi.seen e he

theorem WorldOk.savepoint (h : WorldOk G (w, seen)) (name : Bytes) :
    WorldOk G ((w.onTxn i name fun t => .ok (createSavepoint G name t)).2, seen) ∧
      WorldOk G ((w.onTxn i name (releaseSavepoint G name)).2, seen) := by
  constructor
  · rcases onTxn_cases w i name fun t => .ok (createSavepoint G name t) with heq | ⟨t, t', ht, hf, heq⟩
    · rw [heq]
      exact h
    · rw [heq, ← Function.update_eq_self i seen]
      cases hf
      have hi := (h.sessions i).txn t ht
      refine h.setTxn ⟨hi.begun, hi.buffer, fun sp hsp => ?_, hi.pending, hi.seen⟩
      rcases List.mem_append.1 hsp with hsp | hsp
      · exact hi.saved sp (mem_dropSavepoint hsp)
      · obtain rfl := List.mem_singleton.1 hsp
        exact hi.buffer
  · rcases onTxn_cases w i name (releaseSavepoint G name) with heq | ⟨t, t', ht, hf, heq⟩
    · rw [heq]
      exact h
    · rw [heq, ← Function.update_eq_self i seen]
      have hi := (h.sessions i).txn t ht
      unfold releaseSavepoint at hf
      split at hf
      · cases hf
      · cases hf
        refine h.setTxn ⟨hi.begun, hi.buffer, fun sp hsp => ?_, hi.pending, hi.seen⟩
        exact hi.saved sp (mem_savepointsUpTo (List.dropLast_subset _ hsp))

theorem WorldOk.rollbackTo (h : WorldOk G (w, seen)) (name : Bytes) (hquiet : (w.sessions i).Quiet) :
    WorldOk G ((w.onTxn i name (rollbackToSavepoint G name)).2, Function.update seen i []) := by
  rcases onTxn_cases w i name (rollbackToSavepoint G name) with heq | ⟨t, t', ht, hf, heq⟩
  · rw [heq]
    exact h.frame h.kept (Since.refl _) (fun _ _ => rfl) (h.sessions i).unseen
  · rw [heq]
    have hi := (h.sessions i).txn t ht
    unfold rollbackToSavepoint at hf
    split at hf
    · cases hf
    · rename_i sp hlast
      cases hf
      refine h.setTxn (hi.reset rfl ?_ (fun sp hsp => hi.saved sp (mem_savepointsUpTo hsp)) hquiet)
      exact hi.saved sp (mem_savepointsUpTo (List.mem_of_getLast? hlast))

theorem WorldOk.ddl (h : WorldOk G (w, seen)) (c : Ddl) (hquiet : (w.sessions i).Quiet)
    (hroom : Room (LedgerApi.size w.store.led + 2) w.store) : WorldOk G ((w.ddl G i c).2, Function.update seen i []) := by
  -- what is dropped before the statement
  have hbefore : WorldOk G (w.beforeDdl G i c, Function.update seen i []) ∧ (w.beforeDdl G i c).store = w.store := by
    have hsame : WorldOk G (w, Function.update seen i []) :=
      h.frame h.kept (Since.refl _) (fun _ _ => rfl) (h.sessions i).unseen
    unfold World.beforeDdl
    split
    · exact ⟨hsame, rfl⟩
    · rename_i id _
      unfold World.forget
      cases ht : (w.sessions i).txn with
      | none => exact ⟨hsame, rfl⟩
      | some t =>
        have hi := (h.sessions i).txn t ht
        refine ⟨h.setTxn (hi.reset rfl (fun id' pk p hp => ?_) hi.saved hquiet), rfl⟩
        rw [entryAt_erase] at hp
        split at hp
        · cases hp
        · exact hi.buffer id' pk p hp
  obtain ⟨hok, hstore⟩ := hbefore
  refine hok.steps (n := LedgerApi.size w.store.led + 2) (by rw [hstore]; exact hroom) ?_ rfl
  rw [hstore]
  show SqlSteps G _ w.store (c.exec G (w.beforeDdl G i c).store).state
  rw [hstore]
  exact ddl_steps c

/-- The request fits into 64 bits: ids and version stay below the bound through all the commits it may issue. -/
def RoomFor (s : World (MapLedger C ck) × Seen) : Prop := Room (LedgerApi.size s.1.store.led + 2) s.1.store

/-- **Every request keeps the invariant.** -/
theorem WorldOk.serve {s : World (MapLedger C ck) × Seen} {c : ℕ × SqlRequest} (h : WorldOk G s) (hc : InContract G s c)
    (hroom : RoomFor s) : WorldOk G (observed G s c).2 := by
  obtain ⟨w, seen⟩ := s
  obtain ⟨i, q⟩ := c
  have hone : Room 1 w.store := Room.mono hroom (by omega)
  have htwo : Room 2 w.store := Room.mono hroom (by omega)
  -- what the session has seen is as before
  have hsame : ∀ {w' : World (MapLedger C ck)}, WorldOk G (w', seen) → WorldOk G (w', Function.update seen i (seen i)) := by
    intro w' hw'
    rw [Function.update_eq_self]
    exact hw'
  cases q with
  | ddl c => exact h.ddl c hc hroom
  | call e =>
    cases e with
    | start readOnly => exact h.session (sessionOk_started readOnly)
    | read table pk => exact h.read table pk
    | insert table row =>
      obtain ⟨htxn, hrow⟩ : (w.sessions i).txn ≠ none ∧ RowFor G w.store table row := hc
      refine h.edit htxn fun t es hes hst => hes.inserted ?_ ?_ (insert_cases row es)
      · rw [hst]
        exact hone
      · rw [hst]
        exact hrow
    | update table old new =>
      obtain ⟨htxn, hseen, hrow⟩ : (w.sessions i).txn ≠ none ∧ (table, old) ∈ seen i ∧ RowFor G w.store table new := hc
      refine h.edit htxn fun t es hes hst => hes.update ?_ hseen ?_
      · rw [hst]
        exact hone
      · rw [hst]
        exact hrow
    | delete table row =>
      obtain ⟨htxn, hseen⟩ : (w.sessions i).txn ≠ none ∧ (table, row) ∈ seen i := hc
      exact h.edit htxn fun t es hes _ => hes.delete hseen
    | discard table =>
      refine h.session ((h.sessions i).fewer fun id pk p hp => ?_)
      rw [entryAt_insert] at hp
      split at hp
      · cases hp
      · exact hp
    | close table => exact hsame (h.close table)
    | commit => exact hsame (h.commit hone)
    | rollback => exact hsame h.rollback
    | createSavepoint name => exact hsame (h.savepoint name).1
    | rollbackToSavepoint name => exact h.rollbackTo name hc
    | releaseSavepoint name => exact hsame (h.savepoint name).2
    | nextValue table insertVal => exact hsame (h.steps hone (nextValue_bumped table insertVal).steps rfl)
    | setValue table v => exact hsame (h.steps htwo (setValue_steps table v) rfl)
    | reopen => cases hc

/-- **Every run keeps it.** -/
theorem WorldOk.run {s : World (MapLedger C ck) × Seen} {cs : List (ℕ × SqlRequest)} (h : WorldOk G s)
    (hcs : Machine.Along (observed G) (fun s c => InContract G s c ∧ RoomFor s) s cs) :
    WorldOk G (Machine.run (observed G) s cs).2 :=
  Machine.invariant (fun _ _ hs hc => hs.serve hc.1 hc.2) h hcs

/-- No session has begun anything. -/
theorem worldOk_fresh {store : MapSql C ck} (h : Intact G store) : WorldOk G (⟨store, fun _ => {}⟩, fun _ => []) :=
  ⟨h, fun _ => sessionOk_empty _⟩

end

end ImmutableLedger
