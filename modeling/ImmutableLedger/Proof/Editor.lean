import ImmutableLedger.Proof.Catalog

/-!
# What a rejected row leaves in the editor

`Insert` and `Update` file the row in the statement buffer before they check the unique indexes, and an `Update` that
changes the key deletes the old one before it inserts the new one. A rejected call therefore leaves the buffer as it was
only when it is rejected before.

The lemmas hold over any ledger.

* `insert_filed`, `insert_refused`: an insert in closed form.
* `rejected_clean_iff`: a rejected call leaves the buffer as it was exactly when it is refused before anything is filed.
-/

namespace ImmutableLedger

open EStateM

variable {L μ : Type} [LedgerApi L μ] {s s' : EditState L} {d : TableDef} {row : Row} {pk : Bytes}

/-! ## Calls of an editor -/

/-- The transaction of the session is read only. -/
def EditState.ReadOnly (s : EditState L) : Prop := ∃ t, s.txn = some t ∧ t.readOnly = true

theorem writable_run (h : ¬ s.ReadOnly) : Editor.writable s = .ok () s := by
  unfold Editor.writable
  rw [run_get_bind]
  cases ht : s.txn with
  | none => rfl
  | some t =>
    have hr : t.readOnly = false := by
      cases hr : t.readOnly with
      | false => rfl
      | true => exact absurd ⟨t, ht, hr⟩ h
    dsimp only
    rw [hr]
    rfl

theorem writable_readOnly (h : s.ReadOnly) : ∃ e, Editor.writable s = .error e s := by
  obtain ⟨t, ht, hr⟩ := h
  unfold Editor.writable
  rw [run_get_bind, ht]
  dsimp only
  rw [hr]
  exact ⟨_, rfl⟩

variable {α : Type}

theorem onStore_ok {x : SqlM L α} {a : α} {st : SqlStore L} (h : x s.store = .ok a st) :
    onStore x s = .ok a { s with store := st } := by
  simp only [onStore, h]

theorem onStore_error {x : SqlM L α} {e : SqlErr} {st : SqlStore L} (h : x s.store = .error e st) :
    onStore x s = .error e { s with store := st } := by
  simp only [onStore, h]

theorem ofSql_run {r : Except SqlErr α} {a : α} (h : r = .ok a) : onStore (ofSql r) s = .ok a s := by
  rw [h]
  rfl

theorem ofSql_failed {r : Except SqlErr α} {e : SqlErr} (h : r = .error e) :
    onStore (ofSql r) s = .error e s := by
  rw [h]
  rfl

/-- A call on the store leaves the buffers. -/
theorem onStore_state (x : SqlM L α) (s : EditState L) :
    (onStore x s).state.editor = s.editor ∧ (onStore x s).state.txn = s.txn := by
  cases h : x s.store with
  | ok a st => rw [onStore_ok h]; exact ⟨rfl, rfl⟩
  | error e st => rw [onStore_error h]; exact ⟨rfl, rfl⟩

theorem tableDef_run (h : s.store.defs.get s.editor.table = some d) : Editor.tableDef s = .ok d s := by
  have hdef : defAt s.editor.table s.store = .ok d s.store := by
    unfold defAt
    rw [run_get_bind, h]
    rfl
  unfold Editor.tableDef
  rw [run_get_bind, onStore_ok hdef]

theorem tableDef_none (h : s.store.defs.get s.editor.table = none) : Editor.tableDef s = .error .panic s := by
  have hdef : defAt s.editor.table s.store = .error .panic s.store := by
    unfold defAt
    rw [run_get_bind, h]
    rfl
  unfold Editor.tableDef
  rw [run_get_bind, onStore_error hdef]

theorem checkUnique_state (d : TableDef) (row : Row) (pk : Bytes) (s : EditState L) :
    (checkUnique d row pk s).state.editor = s.editor := by
  unfold checkUnique
  rw [run_get_bind]
  exact (onStore_state _ _).1

/-- The buffer with another row filed. -/
def EditState.filed (s : EditState L) (pk : Bytes) (p : PendingRow) : EditState L :=
  { s with editor := { s.editor with pending := s.editor.pending.insert pk p } }

/-! ## Inserts -/

/-- No row has this key: neither for the statement, nor for the transaction, nor in the ledger. -/
def KeyFree (d : TableDef) (pk : Bytes) (s : EditState L) : Prop :=
  match s.editor.pending.get pk, (txnView s.txn s.editor.table).get pk with
  | some p, _ => p.new = none
  | none, some tp => tp.new = none
  | none, none => ∃ l, LedgerApi.get (rowKey d.id pk) s.store.led = .ok none l

/-- The statement takes the row in: it may write, the row has a key, and the key is free. -/
def Admits (row : Row) (s : EditState L) : Prop :=
  ¬ s.ReadOnly ∧ ∃ d pk next, s.store.defs.get s.editor.table = some d ∧ encodePK d row = .ok pk ∧
    bumpAutoInc row 0 d.columns d.autoIncNext = .ok next ∧ KeyFree d pk s

/-- The store with the counter of the table advanced. -/
def EditState.counted (s : EditState L) (d : TableDef) : EditState L :=
  { s with store := { s.store with defs := s.store.defs.insert s.editor.table d } }

/-- The insert after its checks of the row: file it if the key is free. -/
def Editor.fileNew (d : TableDef) (row : Row) (pkEnc : Bytes) : EditM L Unit := do
  let s ← get
  match s.editor.pending.get pkEnc with
  | some p =>
    if p.new.isSome then throw .primaryKeyViolation
    Editor.setPending pkEnc { p with new := some row }
  | none =>
    if ← Editor.existsFor d pkEnc then throw .primaryKeyViolation
    Editor.setPending pkEnc { new := some row }
  checkUnique d row pkEnc

theorem insert_eq {next : UInt64} (hw : ¬ s.ReadOnly) (hd : s.store.defs.get s.editor.table = some d)
    (hpk : encodePK d row = .ok pk) (hb : bumpAutoInc row 0 d.columns d.autoIncNext = .ok next) :
    Editor.insert row s =
      Editor.fileNew { d with autoIncNext := next } row pk (s.counted { d with autoIncNext := next }) := by
  unfold Editor.insert
  rw [run_bind_ok (writable_run hw), run_bind_ok (tableDef_run hd), run_bind_ok (ofSql_run hpk),
    run_bind_ok (ofSql_run hb)]
  rfl

/-- Whether the key is taken, in closed form. -/
theorem existsFor_run (hp : s.editor.pending.get pk = none) :
    (KeyFree d pk s ∧ ∃ st, Editor.existsFor d pk s = .ok false { s with store := st }) ∨
      (¬ KeyFree d pk s ∧ ((∃ st, Editor.existsFor d pk s = .ok true { s with store := st }) ∨
        ∃ e st, Editor.existsFor d pk s = .error e { s with store := st })) := by
  unfold Editor.existsFor KeyFree
  rw [run_get_bind, hp]
  cases ht : (txnView s.txn s.editor.table).get pk with
  | some tp =>
    dsimp only
    cases hn : tp.new with
    | none => exact .inl ⟨rfl, s.store, rfl⟩
    | some r => exact .inr ⟨Option.some_ne_none r, .inl ⟨s.store, rfl⟩⟩
  | none =>
    dsimp only
    cases hg : (LedgerApi.get (rowKey d.id pk) : EStateM Err L (Option Bytes)) s.store.led with
    | ok raw l =>
      have hrun : rowExists d pk s.store = .ok raw.isSome { s.store with led := l } := by
        unfold rowExists
        have hon : onLedger (LedgerApi.get (rowKey d.id pk)) s.store = .ok raw { s.store with led := l } := by
          simp only [onLedger, hg]
        rw [run_bind_ok hon]
        rfl
      rw [onStore_ok hrun]
      cases raw with
      | none => exact .inl ⟨⟨l, rfl⟩, _, rfl⟩
      | some r =>
        refine .inr ⟨?_, .inl ⟨_, rfl⟩⟩
        rintro ⟨l', h⟩
        cases h
    | error e l =>
      have hrun : rowExists d pk s.store = .error (.ledger e) { s.store with led := l } := by
        unfold rowExists
        have hon : onLedger (LedgerApi.get (rowKey d.id pk)) s.store = .error (.ledger e) { s.store with led := l } := by
          simp only [onLedger, hg]
        rw [run_bind_error hon]
      rw [onStore_error hrun]
      refine .inr ⟨?_, .inr ⟨_, _, rfl⟩⟩
      rintro ⟨l', h⟩
      cases h

/-- A free key: the row is filed, then the unique indexes are checked. -/
theorem fileNew_free (row : Row) (h : KeyFree d pk s) : ∃ st p, p.new = some row ∧
    Editor.fileNew d row pk s = checkUnique d row pk (EditState.filed { s with store := st } pk p) := by
  unfold Editor.fileNew
  rw [run_get_bind]
  cases hp : s.editor.pending.get pk with
  | some p =>
    have hnone : p.new = none := by
      unfold KeyFree at h
      rw [hp] at h
      exact h
    refine ⟨s.store, { p with new := some row }, rfl, ?_⟩
    dsimp only
    rw [hnone]
    rfl
  | none =>
    rcases existsFor_run (d := d) hp with ⟨-, st, hrun⟩ | ⟨hnot, -⟩
    · refine ⟨st, { new := some row }, rfl, ?_⟩
      dsimp only
      rw [run_bind_ok hrun]
      rfl
    · exact absurd h hnot

/-- A taken key: the buffers stay. -/
theorem fileNew_taken (row : Row) (h : ¬ KeyFree d pk s) : ∃ e st, Editor.fileNew d row pk s = .error e { s with store := st } := by
  unfold Editor.fileNew
  rw [run_get_bind]
  cases hp : s.editor.pending.get pk with
  | some p =>
    have hsome : p.new.isSome := by
      unfold KeyFree at h
      rw [hp] at h
      exact Option.isSome_iff_ne_none.2 h
    dsimp only
    rw [if_pos hsome]
    exact ⟨_, s.store, rfl⟩
  | none =>
    dsimp only
    rcases existsFor_run (d := d) hp with ⟨hfree, -⟩ | ⟨-, ⟨st, hrun⟩ | ⟨e, st, hrun⟩⟩
    · exact absurd hfree h
    · rw [run_bind_ok hrun]
      exact ⟨_, st, rfl⟩
    · rw [run_bind_error hrun]
      exact ⟨_, st, rfl⟩

/-- **An insert that the statement takes in** is filed, then checked. -/
theorem insert_filed (h : Admits row s) : ∃ d pk p, s.store.defs.get s.editor.table = some d ∧
    encodePK d row = .ok pk ∧ KeyFree d pk s ∧ p.new = some row ∧
    (Editor.insert row s).state.editor = (s.filed pk p).editor := by
  obtain ⟨hw, d, pk, next, hd, hpk, hb, hfree⟩ := h
  have hfree' : KeyFree { d with autoIncNext := next } pk (s.counted { d with autoIncNext := next }) := hfree
  obtain ⟨st, p, hp, hrun⟩ := fileNew_free row hfree'
  refine ⟨d, pk, p, hd, hpk, hfree, hp, ?_⟩
  rw [insert_eq hw hd hpk hb, hrun, checkUnique_state]
  rfl

/-- **An insert that the statement does not take in** fails and leaves the buffers. -/
theorem insert_refused (h : ¬ Admits row s) : ∃ e s', Editor.insert row s = .error e s' ∧ s'.editor = s.editor := by
  by_cases hw : s.ReadOnly
  · obtain ⟨e, he⟩ := writable_readOnly hw
    exact ⟨e, s, run_bind_error he, rfl⟩
  cases hd : s.store.defs.get s.editor.table with
  | none =>
    refine ⟨.panic, s, ?_, rfl⟩
    unfold Editor.insert
    rw [run_bind_ok (writable_run hw), run_bind_error (tableDef_none hd)]
  | some d =>
    cases hpk : encodePK d row with
    | error e =>
      refine ⟨e, s, ?_, rfl⟩
      unfold Editor.insert
      rw [run_bind_ok (writable_run hw), run_bind_ok (tableDef_run hd), run_bind_error (ofSql_failed hpk)]
    | ok pk =>
      cases hb : bumpAutoInc row 0 d.columns d.autoIncNext with
      | error e =>
        refine ⟨e, s, ?_, rfl⟩
        unfold Editor.insert
        rw [run_bind_ok (writable_run hw), run_bind_ok (tableDef_run hd), run_bind_ok (ofSql_run hpk),
          run_bind_error (ofSql_failed hb)]
      | ok next =>
        have htaken : ¬ KeyFree { d with autoIncNext := next } pk (s.counted { d with autoIncNext := next }) :=
          fun hfree => h ⟨hw, d, pk, next, hd, hpk, hb, hfree⟩
        obtain ⟨e, st, hrun⟩ := fileNew_taken row htaken
        rw [insert_eq hw hd hpk hb]
        exact ⟨e, _, hrun, rfl⟩

variable {p : PendingRow}

/-- A filed row changes the buffer where the key was free. -/
theorem filed_ne {t : TableTxn} {r : Row} (hfree : ∀ q, t.get pk = some q → q.new = none)
    (hp : p.new = some r) : t.insert pk p ≠ t := by
  intro he
  have hget : t.get pk = some p := by
    rw [← he, OrdMap.get_insert, if_pos rfl]
  have hnone := hfree p hget
  rw [hp] at hnone
  cases hnone

theorem KeyFree.pending (h : KeyFree d pk s) : ∀ q, s.editor.pending.get pk = some q → q.new = none := by
  intro q hq
  unfold KeyFree at h
  rw [hq] at h
  exact h

/-! ## Updates -/

/-- What a delete files under a key. -/
def deletedRow (t : TableTxn) (pk : Bytes) (row : Row) : PendingRow :=
  match t.get pk with
  | some p => { p with new := none }
  | none => { old := some row }

theorem delete_run (hw : ¬ s.ReadOnly) (hd : s.store.defs.get s.editor.table = some d) (hpk : encodePK d row = .ok pk) :
    Editor.delete row s = .ok () (s.filed pk (deletedRow s.editor.pending pk row)) := by
  unfold Editor.delete deletedRow
  rw [run_bind_ok (writable_run hw), run_bind_ok (tableDef_run hd), run_bind_ok (ofSql_run hpk), run_get_bind]
  cases s.editor.pending.get pk with
  | some p => rfl
  | none => rfl

/-- What an update in place files under its key. -/
def updatedRow (t : TableTxn) (pk : Bytes) (old new : Row) : PendingRow :=
  match t.get pk with
  | some p => { p with new := some new }
  | none => { old := some old, new := some new }

theorem update_run {old new : Row} {oldPK newPK : Bytes} (hw : ¬ s.ReadOnly)
    (hd : s.store.defs.get s.editor.table = some d) (hold : encodePK d old = .ok oldPK) (hnew : encodePK d new = .ok newPK) :
    Editor.update old new s =
      if oldPK = newPK then checkUnique d new oldPK (s.filed oldPK (updatedRow s.editor.pending oldPK old new))
      else Editor.insert new (s.filed oldPK (deletedRow s.editor.pending oldPK old)) := by
  unfold Editor.update
  rw [run_bind_ok (writable_run hw), run_bind_ok (tableDef_run hd), run_bind_ok (ofSql_run hold),
    run_bind_ok (ofSql_run hnew)]
  by_cases hk : oldPK = newPK
  · rw [if_pos hk, if_pos hk, run_get_bind]
    unfold updatedRow
    cases s.editor.pending.get oldPK with
    | some p => rfl
    | none => rfl
  · rw [if_neg hk, if_neg hk, run_bind_ok (delete_run hw hd hold)]

/-- Whether a row is taken in does not depend on what is filed under another key. -/
theorem admits_filed {new : Row} {key : Bytes} (hd : s.store.defs.get s.editor.table = some d)
    (hpk : encodePK d new = .ok pk) (hne : key ≠ pk) : Admits new (s.filed key p) ↔ Admits new s := by
  have hget : (s.filed key p).editor.pending.get pk = s.editor.pending.get pk :=
    (OrdMap.get_insert _ _ _ _).trans (if_neg hne.symm)
  have hfree : ∀ e : TableDef, KeyFree e pk (s.filed key p) ↔ KeyFree e pk s := by
    intro e
    unfold KeyFree
    rw [hget]
    rfl
  constructor
  · rintro ⟨hw, e, k, next, he, hk, hb, hf⟩
    rw [show s.store.defs.get s.editor.table = some e from he] at hd
    cases hd
    rw [hpk] at hk
    cases hk
    exact ⟨hw, d, pk, next, he, hpk, hb, (hfree d).1 hf⟩
  · rintro ⟨hw, e, k, next, he, hk, hb, hf⟩
    rw [he] at hd
    cases hd
    rw [hpk] at hk
    cases hk
    exact ⟨hw, d, pk, next, he, hpk, hb, (hfree d).2 hf⟩

/-! ## Rejected calls -/

/-- A call that hands a row to the editor. -/
inductive EditOp where
  | insert (row : Row)
  | update (old new : Row)

def EditOp.run : EditOp → EditM L Unit
  | .insert row => Editor.insert row
  | .update old new => Editor.update old new

/-- The call changes nothing in the buffer before it can be rejected: an insert is not taken in; an update in place files
what is there already; an update of the key deletes a row that is deleted already and its new row is not taken in. -/
def EditOp.Clean : EditOp → EditState L → Prop
  | .insert row, s => ¬ Admits row s
  | .update old new, s => ∀ d oldPK newPK, ¬ s.ReadOnly → s.store.defs.get s.editor.table = some d →
      encodePK d old = .ok oldPK → encodePK d new = .ok newPK →
        if oldPK = newPK then ∃ p, s.editor.pending.get oldPK = some p ∧ p.new = some new
        else (∃ p, s.editor.pending.get oldPK = some p ∧ p.new = none) ∧ ¬ Admits new s

theorem insert_self_iff {t : TableTxn} : t.insert pk p = t ↔ t.get pk = some p := by
  constructor
  · intro h
    rw [← h, OrdMap.get_insert, if_pos rfl]
  · intro h
    refine OrdMap.ext_get fun k => ?_
    rw [OrdMap.get_insert]
    split
    · rename_i hk
      rw [hk, h]
    · rfl

/-- The editor is as before when its buffer is. -/
theorem filed_editor_iff : (s.filed pk p).editor = s.editor ↔ s.editor.pending.get pk = some p := by
  rw [← insert_self_iff]
  exact ⟨fun h => congrArg Editor.pending h, fun h => by unfold EditState.filed; dsimp only; rw [h]⟩

theorem update_early {old new : Row} {e : SqlErr} (h : Editor.update old new s = .error e s')
    (hearly : ¬ ∃ d oldPK newPK, ¬ s.ReadOnly ∧ s.store.defs.get s.editor.table = some d ∧ encodePK d old = .ok oldPK ∧
      encodePK d new = .ok newPK) : s'.editor = s.editor := by
  unfold Editor.update at h
  by_cases hw : s.ReadOnly
  · obtain ⟨e', he⟩ := writable_readOnly hw
    rw [run_bind_error he] at h
    cases h
    rfl
  rw [run_bind_ok (writable_run hw)] at h
  cases hd : s.store.defs.get s.editor.table with
  | none =>
    rw [run_bind_error (tableDef_none hd)] at h
    cases h
    rfl
  | some d =>
    rw [run_bind_ok (tableDef_run hd)] at h
    cases hold : encodePK d old with
    | error e' =>
      rw [run_bind_error (ofSql_failed hold)] at h
      cases h
      rfl
    | ok oldPK =>
      rw [run_bind_ok (ofSql_run hold)] at h
      cases hnew : encodePK d new with
      | error e' =>
        rw [run_bind_error (ofSql_failed hnew)] at h
        cases h
        rfl
      | ok newPK => exact absurd ⟨d, oldPK, newPK, hw, hd, hold, hnew⟩ hearly

/-- **A rejected row operation** leaves the statement buffer as it was exactly when nothing was filed before. -/
theorem rejected_clean_iff {op : EditOp} {e : SqlErr} (h : op.run s = .error e s') :
    s'.editor = s.editor ↔ op.Clean s := by
  have hstate : (op.run s).state = s' := by rw [h]; rfl
  cases op with
  | insert row =>
    by_cases ha : Admits row s
    · obtain ⟨d, pk, p, hd, hpk, hfree, hp, heq⟩ := insert_filed ha
      rw [← hstate]
      refine ⟨fun hsame => ?_, fun hc => absurd ha hc⟩
      have hpend := congrArg Editor.pending (heq.symm.trans hsame)
      exact absurd hpend (filed_ne hfree.pending hp)
    · obtain ⟨e', s₁, hrun, hed⟩ := insert_refused ha
      rw [show EditOp.run (.insert row) s = _ from hrun] at hstate
      rw [← hstate]
      exact ⟨fun _ => ha, fun _ => hed⟩
  | update old new =>
    by_cases hearly : ∃ d oldPK newPK, ¬ s.ReadOnly ∧ s.store.defs.get s.editor.table = some d ∧
        encodePK d old = .ok oldPK ∧ encodePK d new = .ok newPK
    · obtain ⟨d, oldPK, newPK, hw, hd, hold, hnew⟩ := hearly
      have hclean : EditOp.Clean (.update old new) s ↔
          if oldPK = newPK then ∃ p, s.editor.pending.get oldPK = some p ∧ p.new = some new
          else (∃ p, s.editor.pending.get oldPK = some p ∧ p.new = none) ∧ ¬ Admits new s := by
        refine ⟨fun hc => hc d oldPK newPK hw hd hold hnew, fun hc d' o' n' _ hd' ho' hn' => ?_⟩
        rw [hd] at hd'
        cases hd'
        rw [hold] at ho'
        rw [hnew] at hn'
        cases ho'
        cases hn'
        exact hc
      rw [hclean, ← hstate, show EditOp.run (.update old new) s = _ from update_run hw hd hold hnew]
      by_cases hk : oldPK = newPK
      · -- in place
        rw [if_pos hk, if_pos hk, checkUnique_state, filed_editor_iff]
        unfold updatedRow
        cases hp : s.editor.pending.get oldPK with
        | none => simp
        | some p =>
          obtain ⟨po, pn⟩ := p
          simp [eq_comm]
      · -- the key changes: a delete, then an insert
        rw [if_neg hk, if_neg hk]
        set q := deletedRow s.editor.pending oldPK old with hq
        have hdel : (s.filed oldPK q).editor = s.editor ↔ ∃ p, s.editor.pending.get oldPK = some p ∧ p.new = none := by
          rw [filed_editor_iff, hq]
          unfold deletedRow
          cases hp : s.editor.pending.get oldPK with
          | none => simp
          | some p =>
            obtain ⟨po, pn⟩ := p
            simp [eq_comm]
        by_cases ha : Admits new (s.filed oldPK q)
        · obtain ⟨d', pk', p, hd', hpk', hfree, hp, heq⟩ := insert_filed ha
          rw [show s.store.defs.get s.editor.table = some d' from hd'] at hd
          cases hd
          rw [hnew] at hpk'
          cases hpk'
          refine ⟨fun hsame => ?_, fun hc => absurd ((admits_filed (s := s) hd' hnew hk).1 ha) hc.2⟩
          have hget : s.editor.pending.get newPK = some p := by
            have hself := OrdMap.get_insert (s.filed oldPK q).editor.pending newPK p newPK
            rw [if_pos rfl] at hself
            have hpend := congrArg (fun e => OrdMap.get (Editor.pending e) newPK) (heq.symm.trans hsame)
            exact hpend.symm.trans hself
          have hnone : p.new = none := by
            refine hfree.pending p ?_
            exact ((OrdMap.get_insert _ _ _ _).trans (if_neg (Ne.symm hk))).trans hget
          rw [hp] at hnone
          cases hnone
        · obtain ⟨e', s₁, hrun, hed⟩ := insert_refused ha
          rw [hrun]
          show s₁.editor = s.editor ↔ _
          rw [hed, hdel]
          exact ⟨fun hdeleted => ⟨hdeleted, fun ha' => ha ((admits_filed hd hnew hk).2 ha')⟩, And.left⟩
    · have hed := update_early h hearly
      refine ⟨fun _ d oldPK newPK hw hd hold hnew => absurd ⟨d, oldPK, newPK, hw, hd, hold, hnew⟩ hearly, fun _ => hed⟩

/-! ## Runs -/

/-- A table of names that must differ: a number (the primary key) and a name with a unique index. -/
def namesDdl : List Ddl :=
  [.createTable (ascii "names")
    ⟨[{ name := ascii "id", qtype := .int64 }, { name := ascii "name", qtype := .varchar, nullable := true }], [0]⟩ [],
   .createIndex (ascii "names") (ascii "name") ⟨true, [{ name := ascii "name" }]⟩]

/-- The definition they leave. -/
def namesDef : TableDef where
  id := 1
  name := ascii "names"
  columns := [{ name := ascii "id", qtype := .int64 }, { name := ascii "name", qtype := .varchar, nullable := true }]
  pkOrds := [0]
  indexes := [⟨1, ascii "name", true, [1]⟩]

/-- A new editor, outside a transaction, on the table of names that holds the row `(1, 'x')`. -/
def namesEditor : EditState (MapLedger plainCrypto []) :=
  let store := (Machine.run (SqlStore.ddl sampleLib) (emptySql plainCrypto []) namesDdl).2
  let s₁ := (Editor.insert [some (.int64 1), some (.string [120])] ⟨store, none, ⟨1, OrdMap.empty⟩⟩).state
  ⟨(Editor.close s₁).state.store, none, ⟨1, OrdMap.empty⟩⟩

/-- A row whose key exists is rejected and leaves no trace. -/
theorem rejected_duplicate : ∃ e s', EditOp.run (.insert [some (.int64 1), none]) namesEditor = .error e s' ∧
    s'.editor = namesEditor.editor := by
  have hfail : (EditOp.run (.insert [some (.int64 1), none]) namesEditor).val.toOption = none := by decide +kernel
  obtain ⟨e, s', h⟩ := exists_of_failed hfail
  refine ⟨e, s', h, (rejected_clean_iff h).2 ?_⟩
  rintro ⟨-, d, pk, next, hd, hpk, -, hfree⟩
  have hdef : namesEditor.store.defs.get namesEditor.editor.table = some namesDef := by decide +kernel
  rw [hdef] at hd
  cases hd
  cases hpk
  obtain ⟨l, hget⟩ := hfree
  have hnone : namesEditor.store.led.vals.get (rowKey 1 (encInt64 1)) = none :=
    (EStateM.Result.ok.inj hget).1
  exact absurd hnone (by decide +kernel)

/-- **A rejected row is committed.** The row `(2, 'x')` violates the unique index; `Close` then commits it. -/
theorem rejected_row_commits :
    let s₁ := (Editor.insert [some (.int64 2), some (.string [120])] namesEditor).state
    (Editor.insert [some (.int64 2), some (.string [120])] namesEditor).val = .error (.uniqueKey (ascii "name")) ∧
      s₁.editor.pending ≠ namesEditor.editor.pending ∧ (Editor.close s₁).val.toOption = some () ∧
      namesEditor.store.led.vals.get (rowKey 1 (encInt64 2)) = none ∧
      (Editor.close s₁).state.store.led.vals.get (rowKey 1 (encInt64 2)) ≠ none := by
  refine ⟨?_, ?_, ?_, ?_, ?_⟩ <;> decide +kernel

end ImmutableLedger
