import ImmutableLedger.Proof.Backing
import ImmutableLedger.Proof.Torn
import ImmutableLedger.Sql.Linked

/-!
# A commit that fails

A commit is two writes of the backend: the ledger's batch, then the derived batch with the marker. When the first goes
through and the second fails, `COMMIT` returns an error though the ledger has moved on. Here the SQL layer runs over the
ledger's store, and any call of the backend may fail.

* `Grounded.ledgerStep`: what a reachable store keeps through the calls of the SQL layer.
* `commitTxn_tears`: a commit that fails has written nothing and kept the store, or its first write went through.
* `failed_commit_iff`: a failed commit leaves the ledger as it was exactly when no write of it went through.
-/

namespace ImmutableLedger

open EStateM Machine

variable {C : Crypto} {ck : Bytes} {o : StoreOptions} {entropy : ℕ → Nonce}

/-! ## Stores behind the SQL layer -/

/-- The call writes derived keys of the backend only. -/
def LedgerCall.WritesDerived : LedgerCall → Prop
  | backendWriteBatch ops => ∀ op ∈ ops, IsDerived op.key
  | _ => True

section
variable {s : Store MemBackend}

/-- A call that only reads keeps what a reachable handle keeps. -/
theorem Grounded.read {α : Type} {c : LedgerCall} {x : LedgerM Flaky α} {y : LedgerM MemBackend α} {f : α → LedgerReply}
    (h : Grounded C s) (hxy : Mirrors flaky x y fun _ => True)
    (hc : (c.exec : EStateM Err (LedgerStore C MemBackend) _) = (y >>= fun a => pure (f a) : LedgerM MemBackend _)) :
    Grounded C (ledgerStep (L := LedgerStore C MemBackend) s c).2 := by
  obtain ⟨r, cache, e, hrun, hfaithful, -⟩ := quiet_of_mirrors hxy s
  have hstate : (ImmutableLedger.ledgerStep (L := LedgerStore C MemBackend) s c).2 = (y s).state := by
    unfold ImmutableLedger.ledgerStep
    rw [hc]
    exact state_map y f s
  rw [hstate, hrun, state_outcome]
  have hcache : Faithful s.backend cache := hfaithful fun nk n hn => (h.cache nk n hn).2
  exact ⟨h.based.touched cache e, CacheOk.of_faithful h.based.nodes hcache⟩

/-- Writes of derived keys leave the records. -/
theorem Grounded.derived (h : Grounded C s) {ops : List BatchOp} (hops : ∀ op ∈ ops, IsDerived op.key) :
    Grounded C { s with backend := MemBackend.writeBatch s.backend ops } := by
  have hrec : ∀ x : RecKey, (MemBackend.writeBatch s.backend ops).get x.bytes = OrdMap.get s.backend x.bytes :=
    fun x => MemBackend.get_writeBatch_of_notin (fun op hop (he : op.key = x.bytes) => x.not_derived (he ▸ hops op hop)) _
  refine ⟨⟨fun nk hnk => h.based.nodes nk ?_, h.based.root, fun hC => ⟨(h.based.marked hC).mac, ?_⟩⟩, fun nk n hn => ?_⟩
  · rw [← show _ = OrdMap.get s.backend (nodeRecordKey nk) from hrec (.node nk)]
    exact hnk
  · exact fun rec root v flags hget =>
      (h.based.marked hC).ckpt rec root v flags ((hrec .checkpoint).symm.trans hget)
  · obtain ⟨hv, rec, hget, hdec⟩ := h.cache nk n hn
    exact ⟨hv, rec, (hrec (.node nk)).trans hget, hdec⟩

/-- **A call of the SQL layer keeps what a reachable handle keeps.** -/
theorem Grounded.ledgerStep (h : Grounded C s) {c : LedgerCall}
    (hc : s.version < 0xFFFFFFFFFFFFFFFF ∧ c.WritesDerived) :
    Grounded C (ImmutableLedger.ledgerStep (L := LedgerStore C MemBackend) s c).2 := by
  cases c with
  | root => exact h
  | get key => exact h.read (mirrors_storeGet flaky_linked key) rfl
  | putBatch ops =>
    have hput := h.call hc.1 (.putBatch ops)
    have hstate : (s.step C (.putBatch ops)).2 = (Store.putBatch C ops s).state :=
      state_map (Store.putBatch C ops) (fun r => Reply.committed r.1 r.2) s
    rw [hstate, ← state_map (Store.putBatch C ops) LedgerReply.root] at hput
    exact hput
  | snapshotLeaves version startAfter max =>
    refine h.read (x := LedgerApi.snapshotLeaves (L := LedgerStore C Flaky) version startAfter max)
      ((mirrors_snapshotLeaves flaky_linked version startAfter max).bind fun p _ => ?_) rfl
    obtain ⟨leaves, done⟩ := p
    exact Mirrors.pure trivial
  | backendGet key => exact h
  | backendScan start stop limit => exact h
  | backendWriteBatch ops => exact h.derived hc.2

end

/-! ## The calls of a commit -/

theorem oneRead_scan (start stop : Bytes) (limit : ℕ) :
    OneRead (rawCall fun b => Backend.scan b start stop limit) (fun m => m.scan start stop limit) .raw where
  goes t h := by
    unfold rawCall Store.ticked
    simp only [Backend.scan, h]
  fails t e h := by
    unfold rawCall Store.ticked
    simp only [Backend.scan, h]

/-- What a commit reads goes as with every call going through, up to a call that fails. -/
theorem taped_sqlLinked (v : UInt64) :
    SqlLinked (L := LedgerStore C Flaky) (N := LedgerStore C Flaky) (taped v) fun _ => True where
  root := by
    rintro s _ ⟨-, rfl⟩
    rfl
  get key _ := mirrors_storeGet (taped_linked v) key
  scan id colsEnc stop limit _ := (oneRead_scan (secondarySpace id ++ colsEnc) stop limit).taped v

theorem taped_sql (v : UInt64) (b : SqlStore Unit) :
    Taped (sqlLink (L := LedgerStore C Flaky) (N := LedgerStore C Flaky) (taped v) b) SqlStore.led where
  tape h := (taped_taped v).tape h.1
  kept h := h
  cut h := h.1

theorem rawCall_writeBatch (ops : List BatchOp) :
    (rawCall fun b => Backend.writeBatch b ops : LedgerM Flaky Unit) = backendWriteBatch Err.raw ops := by
  funext t
  unfold rawCall backendWriteBatch
  dsimp only
  rcases Backend.writeBatch t.backend ops with ⟨_ | _, b⟩ <;> rfl

/-- One write. -/
theorem Tears.write {P : Store Flaky → Prop} {s : Store Flaky} {v : UInt64} (ops : List BatchOp) :
    Tears (taped v) id P (rawCall fun b => Backend.writeBatch b ops) s := by
  rw [rawCall_writeBatch]
  rintro _ ⟨⟨hs, -⟩, rfl⟩
  refine ⟨[true], ?_, fun e s' h => ?_⟩
  · show (backendWriteBatch Err.raw ops s.healthy).state.backend.tape = _
    rw [backendWriteBatch_goes s.healthy _ ops (Flaky.fate_nil rfl true)]
    rfl
  · cases hfate : s.backend.fate true with
    | none =>
      rw [backendWriteBatch_goes s _ ops hfate] at h
      cases h
    | some msg =>
      rw [backendWriteBatch_fails s _ ops hfate] at h
      cases h
      refine .inl ⟨?_, Kept.failed hs hfate s.entropy⟩
      show true ∉ Flaky.through s.backend.fates [true]
      rw [Flaky.through_fails hs hfate]
      exact List.not_mem_nil

/-- The two writes of a commit, on the ledger's store. -/
def commitWrites (C : Crypto) (ledOps : List Op) (scanOps : List BatchOp) : LedgerM Flaky Unit :=
  Store.putBatch C ledOps >>= fun _ => get >>= fun t =>
    rawCall fun b => Backend.writeBatch b (scanOps ++ [markerOp t.version])

theorem commit_eq (ledOps : List Op) (scanOps : List BatchOp) :
    (commit ledOps scanOps : SqlM (LedgerStore C Flaky) Unit) = onLedger (commitWrites C ledOps scanOps) := by
  funext s
  cases h : Store.putBatch C ledOps s.led with
  | error e t =>
    exact (run_bind_error (onLedger_outcome (r := .error e) h)).trans
      (onLedger_outcome (r := .error e) (run_bind_error h)).symm
  | ok a t =>
    refine (run_bind_ok (onLedger_outcome (r := .ok a) h)).trans ?_
    have hrest : commitWrites C ledOps scanOps s.led = _ := run_bind_ok h
    unfold onLedger
    rw [hrest]
    rfl

theorem commitWrites_tears (ledOps : List Op) (scanOps : List BatchOp) (v : UInt64) (s : Store Flaky) :
    Tears (taped v) id (fun s' => s'.version ≠ v) (commitWrites C ledOps scanOps) s := by
  have hT := taped_taped v
  have hwrite : ∀ {w : UInt64} {P : Store Flaky → Prop} {u : Store Flaky}, Tears (taped w) id P
      (get >>= fun t => rawCall fun b => Backend.writeBatch b (scanOps ++ [markerOp t.version]) : LedgerM Flaky Unit) u :=
    Tears.get_bind (by rintro _ ⟨-, rfl⟩; rfl) (Tears.write _)
  unfold commitWrites Store.putBatch
  rw [bind_assoc]
  refine Tears.after hT (mirrors_computeBatch (taped_linked v) ledOps) fun r u hr => ?_
  have hprepared : Prepared (v + 1) r := hr v fun s t h => by obtain ⟨⟨-, rfl⟩, rfl⟩ := h; rfl
  cases r with
  | none => exact hwrite
  | some q =>
    obtain ⟨acc, c, root⟩ := q
    obtain ⟨hver, -⟩ := hprepared _ rfl
    refine Tears.commit (fun t ht => ?_) fun t e t' ht _ hnew h => ?_
    · obtain ⟨T, htape, -⟩ := hwrite (P := fun _ => False) t.healthy ⟨⟨ht, rfl⟩, rfl⟩
      exact ⟨T, htape.symm⟩
    · obtain ⟨T, -, hfail⟩ := hwrite (P := fun _ => False) t.healthy ⟨⟨ht, rfl⟩, rfl⟩
      rcases hfail e t' h with ⟨-, -, -, -, -, -, -, rfl⟩ | ⟨-, hfalse⟩
      · show t.version ≠ v
        rw [hnew, hver]
        simp
      · exact hfalse.elim

/-- A call on the ledger. -/
theorem Tears.onLedger {α : Type} {v : UInt64} {b : SqlStore Unit} {P : Store Flaky → Prop} {x : LedgerM Flaky α}
    {s : SqlStore (LedgerStore C Flaky)} (h : Tears (taped v) id P x s.led) :
    Tears (sqlLink (L := LedgerStore C Flaky) (N := LedgerStore C Flaky) (taped v) b) SqlStore.led (fun s => P s.led)
      (ImmutableLedger.onLedger x) s := by
  rintro t ⟨hst, -⟩
  obtain ⟨T, htape, hfail⟩ := h t.led hst
  have hrun : ∀ u : SqlStore (LedgerStore C Flaky), (ImmutableLedger.onLedger x u).state.led = (x u.led).state := by
    intro u
    unfold ImmutableLedger.onLedger
    cases x u.led <;> rfl
  refine ⟨T, (congrArg (fun l : Store Flaky => l.backend.tape) (hrun t)).trans htape, fun e s' he => ?_⟩
  cases hx : x s.led with
  | ok a l =>
    rw [onLedger_outcome (r := .ok a) hx] at he
    cases he
  | error e' l =>
    rw [onLedger_outcome (r := .error e') hx] at he
    cases he
    exact hfail e' l hx

/-- **A commit that fails** has written nothing and kept the store, or its first write went through and the version moved. -/
theorem commitTxn_tears (txn : StoreTxn) (s : SqlStore (LedgerStore C Flaky)) :
    Tears (sqlLink (L := LedgerStore C Flaky) (N := LedgerStore C Flaky) (taped (Store.version s.led)) { s with led := () })
      SqlStore.led (fun s' => Store.version s'.led ≠ Store.version s.led) (commitTxn txn) s := by
  have hT := taped_sql (C := C) (Store.version s.led) { s with led := () }
  have hM := taped_sqlLinked (C := C) (Store.version s.led)
  refine Tears.ite (fun _ => Tears.pure hT _) fun _ => ?_
  refine Tears.after hT (mirrors_ledgerVersion hM) fun version u _ => ?_
  refine Tears.after hT (mirrors_commitTables hM _ _ fun _ _ _ _ _ _ => trivial) fun r u _ => ?_
  refine Tears.ite (fun _ => Tears.pure hT _) fun _ => ?_
  rw [commit_eq]
  exact (commitWrites_tears r.1 r.2 _ _).onLedger

/-! ## Failed commits -/

/-- The SQL store over a backend whose calls have the given fates. -/
def SqlStore.over (s : SqlStore (LedgerStore C MemBackend)) (fates : List (Option String)) :
    SqlStore (LedgerStore C Flaky) :=
  { s with led := Store.over s.led fates [] }

/-- The calls of the backend in a commit when every one goes through: a write, or a read. -/
def commitTape (txn : StoreTxn) (s : SqlStore (LedgerStore C MemBackend)) : List Bool :=
  (Store.backend (commitTxn txn (s.over [])).state.led).tape

/-- **A failed commit left the ledger as it was exactly when no write of it went through.** For every ledger reached by
calls of the SQL layer, every catalog, every transaction and every placement of failing backend calls. -/
theorem failed_commit_iff {cs : List LedgerCall} {s : SqlStore (LedgerStore C MemBackend)}
    (hcs : Along (ledgerStep (L := LedgerStore C MemBackend))
      (fun l c => Store.version l < 0xFFFFFFFFFFFFFFFF ∧ c.WritesDerived) (created C ck o entropy) cs)
    (hs : s.led = (run (ledgerStep (L := LedgerStore C MemBackend)) (created C ck o entropy) cs).2) {txn : StoreTxn}
    {fates : List (Option String)} {e : SqlErr} {s' : SqlStore (LedgerStore C Flaky)}
    (h : commitTxn txn (s.over fates) = .error e s') :
    (Unmoved s.led s'.led ∧ ServesAs C s.led s'.led) ↔ true ∉ Flaky.through fates (commitTape txn s) := by
  have hgrounded : Grounded C s.led := by
    rw [hs]
    exact invariant (I := Grounded C) (fun l c hl hc => hl.ledgerStep hc) (created_twins ck o entropy).grounded hcs
  obtain ⟨T, htape, hfail⟩ := commitTxn_tears txn (s.over fates) (s.over []) ⟨⟨⟨rfl, rfl⟩, rfl⟩, rfl, rfl⟩
  have hcalls : commitTape txn s = T := htape
  rw [hcalls]
  rcases hfail e s' h with ⟨hnone, hk⟩ | ⟨hsome, hmoved⟩
  · exact ⟨fun _ => hnone, fun _ => hgrounded.of_kept hk⟩
  · exact ⟨fun hsame => absurd hsame.1.2.1 hmoved, fun hnot => absurd hsome hnot⟩

/-- A row of the first table, which has one integer column. -/
def sampleRow (n : Int64) : Op := Op.put (rowKey 1 (encInt64 n)) (rowPayload 1 (1 :: encInt64 n))

/-- Three rows are committed, the middle one is deleted. -/
def sampleRows : List LedgerCall :=
  [.putBatch [sampleRow 3, sampleRow 4, sampleRow 5],
    .backendWriteBatch [{ key := scanKey 1 (encInt64 3) }, { key := scanKey 1 (encInt64 5) }, markerOp 1],
    .putBatch [.del (rowKey 1 (encInt64 4))], .backendWriteBatch [markerOp 2]]

/-- The SQL store of a table `t` with these rows. -/
def sampleSql : SqlStore (LedgerStore quickCrypto MemBackend) where
  led := (run (ledgerStep (L := LedgerStore quickCrypto MemBackend))
    (created quickCrypto [] { history := true } fun _ => Nonce.zero) sampleRows).2
  catMeta := ⟨2, 1, [ascii "t"]⟩
  tables := OrdMap.empty.insert (ascii "t") 1
  defs := OrdMap.empty.insert 1 { id := 1, name := ascii "t", columns := [{ name := ascii "id", qtype := .int64 }], pkOrds := [0] }

/-- A transaction that inserts the row 7 into the table and deletes the row 3. -/
def sampleTxn : StoreTxn where
  baseVersion := 2
  tables := OrdMap.empty.insert 1 ((OrdMap.empty.insert (encInt64 7) { new := some [some (.int64 7)] }).insert
    (encInt64 3) { old := some [some (.int64 3)] })

theorem failed_commit_first_write : ∃ e s', commitTxn sampleTxn (sampleSql.over [some "disk full"]) = .error e s' ∧
    Unmoved sampleSql.led s'.led ∧ ServesAs quickCrypto sampleSql.led s'.led := by
  have hcs : Along (ledgerStep (L := LedgerStore quickCrypto MemBackend))
      (fun l c => Store.version l < 0xFFFFFFFFFFFFFFFF ∧ c.WritesDerived)
      (created quickCrypto [] { history := true } fun _ => Nonce.zero) sampleRows := by
    refine ⟨⟨by decide +kernel, trivial⟩, ⟨by decide +kernel, ?_⟩, ⟨by decide +kernel, trivial⟩, ⟨by decide +kernel, ?_⟩, trivial⟩
    · unfold LedgerCall.WritesDerived IsDerived
      decide
    · unfold LedgerCall.WritesDerived IsDerived
      decide
  have hfail : (commitTxn sampleTxn (sampleSql.over [some "disk full"])).val.toOption = none := by decide +kernel
  obtain ⟨e, s', h⟩ := exists_of_failed hfail
  have hs : sampleSql.led = (run (ledgerStep (L := LedgerStore quickCrypto MemBackend))
      (created quickCrypto [] { history := true } fun _ => Nonce.zero) sampleRows).2 := by rw [sampleSql]
  have htape : commitTape sampleTxn sampleSql = [true, true] := by decide +kernel
  refine ⟨e, s', h, (failed_commit_iff hcs hs h).2 ?_⟩
  rw [htape]
  decide

/-- The commit of this transaction when its first write goes through and the second fails. -/
def tornCommit : EStateM.Result SqlErr (SqlStore (LedgerStore quickCrypto Flaky)) Unit :=
  commitTxn sampleTxn (sampleSql.over [none, some "disk full"])

/-- **A commit that returns an error and is durable**: the version has moved, and the inserted row is there. -/
theorem torn_commit_durable : tornCommit.val.toOption = none ∧ Store.version sampleSql.led = 2 ∧
    Store.version tornCommit.state.led = 3 ∧
    (Store.get quickCrypto (rowKey 1 (encInt64 7)) sampleSql.led).val.toOption = some none ∧
    (Store.get quickCrypto (rowKey 1 (encInt64 7)) (Store.plain tornCommit.state.led)).val.toOption =
      some (some (rowPayload 1 (1 :: encInt64 7))) := by
  decide +kernel

end ImmutableLedger
