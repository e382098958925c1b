import ImmutableLedger.Proof.Backing
import ImmutableLedger.Proof.FailedCommit

/-!
# The ledger's store under failing writes

The map by logical keys has a plan of the writes that fail. The ledger's store over a backend whose writes fail by the same
plan answers every call of the SQL layer as the map does, and so a commit of a transaction, checks and both writes.

* `Follows`: the store and the map hold the same, and their next writes fail alike.
* `Follows.putBatch`: a batch that changes nothing makes no write; one that does takes full effect or none.
* `Follows.commitTxn`: so does `COMMIT`, with its checks and its two writes.
* `store_answers_as_planned`: any run of calls, and a commit after it.
-/

namespace ImmutableLedger

open EStateM Machine

variable {C : Crypto} {ck : Bytes} {K : Set Bytes} {W : Set (Hash × Bytes)}

theorem oneRead_rawGet (key : Bytes) :
    OneRead (rawCall fun b => Backend.get b key) (fun m => OrdMap.get m key) .raw where
  goes t h := by
    unfold rawCall Store.ticked
    simp only [Backend.get, h]
  fails t e h := by
    unfold rawCall Store.ticked
    simp only [Backend.get, h]

/-- The fates of the writes of a plan. -/
def fatesOf (plan : List Bool) : List (Option String) := plan.map fun ok => if ok then none else some "write failed"

/-- The handle over a backend whose writes fail by the plan. -/
def Store.planned (s : Store MemBackend) (plan : List Bool) : Store Flaky :=
  s.onto { mem := s.backend, fates := fatesOf plan, sparing := true }

/-- The map with no failure to come. -/
def MapLedger.calm (l : MapLedger C ck) : MapLedger C ck := { l with plan := [] }

theorem MapLedger.put_calm (l : MapLedger C ck) (ops : List Op) : l.calm.put ops = (l.put ops).calm := by
  unfold MapLedger.put
  by_cases hc : l.Changes ops
  · rw [if_pos hc, if_pos (show l.calm.Changes ops from hc)]
    unfold MapLedger.advance
    by_cases hh : l.history = true
    · rw [if_pos hh, if_pos (show l.calm.history = true from hh)]
      rfl
    · rw [if_neg hh, if_neg (show ¬ l.calm.history = true from hh)]
      rfl
  · rw [if_neg hc, if_neg (show ¬ l.calm.Changes ops from hc)]

/-- The store holds what the map does, and their next writes fail alike. -/
structure Follows (C : Crypto) (ck : Bytes) (K : Set Bytes) (W : Set (Hash × Bytes)) (t : Store Flaky)
    (l : MapLedger C ck) : Prop where
  backs : Backs C ck K W t.plain l.calm
  sparing : t.backend.sparing = true
  fates : t.backend.fates = fatesOf l.plan

section
variable {t : Store Flaky} {l : MapLedger C ck} (h : Follows C ck K W t l)
include h

theorem Follows.not_cut (t' : Store Flaky) (s : Store MemBackend) : ¬ flaky.cut t t' s := by
  rintro ⟨-, hs, -⟩
  rw [h.sparing] at hs
  cases hs

theorem Follows.kept {t' : Store Flaky} (hk : Kept t t') (hb : Backs C ck K W t'.plain l.calm) : Follows C ck K W t' l := by
  obtain ⟨c, e, f, w, -, rfl | ⟨hs, -⟩, rfl⟩ := hk
  · exact ⟨hb, h.sparing, h.fates⟩
  · rw [h.sparing] at hs
    cases hs

/-- The next write fails for both, or for neither. -/
theorem Follows.fate : t.backend.fate true = if l.Fails then some "write failed" else none := by
  have hfate : t.backend.fate true = (fatesOf l.plan).head?.join := congrArg (fun f => f.head?.join) h.fates
  rw [hfate, fatesOf, List.head?_map]
  by_cases hl : l.Fails
  · rw [if_pos hl, show l.plan.head? = some false from hl]
    rfl
  · rw [if_neg hl]
    cases hp : l.plan.head? with
    | none => rfl
    | some ok =>
      cases ok with
      | false => exact absurd hp hl
      | true => rfl

theorem Follows.spent : (t.backend.ticked true).fates = fatesOf l.plan.tail := by
  show t.backend.fates.tail = _
  rw [h.fates]
  exact List.map_tail.symm

/-- A read. -/
theorem Follows.read {α : Type} {x : LedgerM Flaky α} {x' : LedgerM MemBackend α} {y : EStateM Err (MapLedger C ck) α}
    {a : α} (hxx : Mirrors flaky x x' fun _ => True) (hx : Agree (Backs C ck K W) x' y t.plain l.calm)
    (hcalm : y l.calm = .ok a l.calm) (hy : y l = .ok a l) : Agree (Follows C ck K W) x y t l := by
  obtain ⟨r, t', _, hrun, hplain, rfl, hk, -⟩ := hxx.runs (s := t) rfl h.not_cut
  obtain ⟨rfl, hbacks⟩ := hx.outcomes (q := .ok a) hplain hcalm
  exact Agree.of_outcome (r := .ok a) hrun hy (h.kept hk hbacks)

variable (hK : Set.InjOn (pathOf C ck) K) (hhistory : historyKey ∈ K) (hW : VhInj C ck W) (hC : C.GcmOk)
include hK hhistory hW hC

/-- **A batch** makes no write when it changes nothing, and else takes full effect or none. -/
theorem Follows.putBatch {ops : List Op} (hask : Asks C ck K W l.calm (.putBatch ops)) :
    Agree (Follows C ck K W) (LedgerApi.putBatch (L := LedgerStore C Flaky) ops) (LedgerApi.putBatch ops) t l := by
  obtain ⟨m, ⟨rfl, hfresh, g, hR⟩, hm⟩ := h.backs.handle
  have hok := h.backs.stepOk hK hhistory hask hm
  cases hres : Model.reservedOp ops with
  | some op =>
    refine Agree.of_outcome (r := .error _) (run_bind_error ?_) (putBatch_refused hres) h
    show ((ofExcept (dedupe C t.ck ops OrdMap.empty) >>= _ : LedgerM Flaky _) t) = _
    rw [dedupe_reserved hres]
    rfl
  | none =>
    obtain ⟨q, _, hrun, hnear, hq⟩ :=
      hR.returns_computeBatch hC hW hok.max hres hok.pairs hok.head _ (Near.refl hR.cache)
    obtain ⟨t₁, ht₁, rfl, hk, -⟩ := (mirrors_computeBatch flaky_linked ops).returns (s := t) rfl h.not_cut hrun
    have h₁ := h.kept hk (h.backs.near hnear)
    have hsame : _ ↔ ¬ l.Changes ops := hm.same_iff hK h.backs.keys hask.1
    rcases hq with ⟨rfl, heq⟩ | ⟨hne, acc, rc, root, x, rfl, hcomp⟩
    · have hc := hsame.1 heq
      have hput : l.put ops = l := if_neg hc
      have hmap := putBatch_run hres fun hf : l.Changes ops ∧ l.Fails => hc hf.1
      rw [hput] at hmap
      have hstore : Store.putBatch C ops t = .ok (t₁.root, t₁.version) t₁ := run_bind_ok ht₁
      rw [show (t₁.root, t₁.version) = l.root from h₁.backs.rootOf] at hstore
      exact Agree.of_outcome (r := .ok _) hstore hmap h₁
    · have hc : l.Changes ops := not_not.1 (mt hsame.2 hne)
      rcases commitAcc_flaky (C := C) acc rc root t₁ with
        ⟨msg, e, -, hfate, hput, -⟩ | ⟨ckpt, t', hfate, hput, hplain, -, hback, -⟩
      · rw [h₁.fate] at hfate
        split at hfate
        · rename_i hf
          cases hfate
          obtain ⟨c, e', hcache, heq⟩ := hnear
          refine Agree.of_outcome (r := .error _) ((run_bind_ok ht₁).trans hput) (putBatch_fails hres ⟨hc, hf⟩)
            ⟨?_, h₁.sparing, h₁.spent⟩
          exact h.backs.near ⟨c, e, hcache, congrArg (fun s : Store MemBackend => { s with entropy := e }) heq⟩
        · cases hfate
      · rw [h₁.fate] at hfate
        split at hfate
        · cases hfate
        · rename_i hf
          have hstore : Store.putBatch C ops t.plain = .ok (root, acc.newVersion) t'.plain := (run_bind_ok hrun).trans hplain
          obtain ⟨hr, hbacks⟩ := (h.backs.putBatch hC hK hhistory hW hask).outcomes (r := .ok _) (q := .ok _) hstore
            (putBatch_run hres fun hf => l.calm.not_fails rfl hf.2)
          rw [l.put_calm] at hr hbacks
          rw [Except.ok.inj hr] at hput
          have hplan : (l.put ops).plan = l.plan.tail := by
            unfold MapLedger.put
            rw [if_pos hc]
            exact congrArg List.tail (l.advance_plan _)
          refine Agree.of_outcome (r := .ok _) ((run_bind_ok ht₁).trans hput) (putBatch_run hres fun h => hf h.2)
            ⟨hbacks, ?_, ?_⟩
          · rw [hback]
            exact h₁.sparing
          · rw [hback, hplan]
            exact h₁.spent

omit hK hhistory hW hC in
/-- **A derived write** takes full effect or none. -/
theorem Follows.writeBatch {ops : List BatchOp} (hask : ∀ op ∈ ops, IsDerived op.key) :
    Agree (Follows C ck K W) (LedgerApi.backendWriteBatch (L := LedgerStore C Flaky) ops) (LedgerApi.backendWriteBatch ops)
      t l := by
  have hbacks := h.backs.writeBatch hask
  have hfate := h.fate
  show Agree (Follows C ck K W) (rawCall fun b => Backend.writeBatch b ops) _ t l
  rw [rawCall_writeBatch]
  by_cases hf : l.Fails
  · rw [if_pos hf] at hfate
    exact Agree.of_outcome (r := .error _) (backendWriteBatch_fails t _ ops hfate) (if_pos hf) ⟨h.backs, h.sparing, h.spent⟩
  · rw [if_neg hf] at hfate
    exact Agree.of_outcome (r := .ok ()) (backendWriteBatch_goes t _ ops hfate) (if_neg hf) ⟨hbacks, h.sparing, h.spent⟩

/-- **Every call of the SQL layer goes as planned.** -/
theorem Follows.step {c : LedgerCall} (hask : Asks C ck K W l.calm c) :
    Agree (Follows C ck K W) (c.exec (L := LedgerStore C Flaky)) c.exec t l := by
  cases c with
  | root => exact ⟨congrArg (fun r => Except.ok (LedgerReply.root r)) h.backs.rootOf, h⟩
  | get key => exact (h.read (mirrors_storeGet flaky_linked key) (h.backs.get hK hW hask) rfl rfl).map _
  | putBatch ops => exact (h.putBatch hK hhistory hW hC hask).map _
  | snapshotLeaves version startAfter max =>
    obtain ⟨rfl, hmax⟩ := hask
    refine (h.read (x := LedgerApi.snapshotLeaves (L := LedgerStore C Flaky) l.calm.version startAfter max)
      ((mirrors_snapshotLeaves flaky_linked _ startAfter max).bind fun p _ => ?_) (h.backs.snapshotLeaves hW hmax startAfter)
      (if_pos rfl) (if_pos rfl)).map _
    obtain ⟨leaves, done⟩ := p
    exact Mirrors.pure trivial
  | backendGet key =>
    exact (h.read ((oneRead_rawGet key).flaky fun _ => rfl) (h.backs.backendGet hask) rfl rfl).map _
  | backendScan start stop limit =>
    exact (h.read ((oneRead_scan start stop limit).flaky fun _ => rfl) (h.backs.scan hask limit) rfl rfl).map _
  | backendWriteBatch ops => exact (h.writeBatch hask).map _

end

theorem Follows.created (hC : C.GcmOk) (o : StoreOptions) (entropy : ℕ → Nonce) (plan : List Bool) :
    Follows C ck K W ((created C ck o entropy).planned plan) { history := o.history, plan } :=
  ⟨Backs.created hC o entropy, rfl, rfl⟩

/-! ## Commits -/

/-- Stores that follow maps. -/
def planned (C : Crypto) (ck : Bytes) (K : Set Bytes) (W : Set (Hash × Bytes)) :
    Link (LedgerStore C Flaky) (MapLedger C ck) where
  rel := Follows C ck K W

/-- What `COMMIT` asks of the ledger: the rows it reads again, and its two writes. -/
structure CommitAsks (C : Crypto) (ck : Bytes) (K : Set Bytes) (W : Set (Hash × Bytes)) (b : SqlStore Unit)
    (l : MapLedger C ck) (txn : StoreTxn) : Prop where
  rows : ∀ e ∈ txn.tables.entries, ∀ d, b.tableByID e.1 = some d → ∀ q ∈ e.2.entries, rowKey d.id q.1 ∈ K
  writes : ∀ r, commitOps txn { b with led := l } = .ok r →
    Asks C ck K W l.calm (.putBatch r.1) ∧ Asks C ck K W l.calm (.backendWriteBatch r.2)

section
variable (hC : C.GcmOk) (hK : Set.InjOn (pathOf C ck) K) (hhistory : historyKey ∈ K) (hW : VhInj C ck W)
include hK hW

theorem planned_sqlLinked : SqlLinked (planned C ck K W) (· ∈ K) where
  root t l h := h.backs.rootOf
  get key hk := Mirrors.of_agree fun t l h => h.read (mirrors_storeGet flaky_linked key) (h.backs.get hK hW hk) rfl rfl
  scan id colsEnc stop limit hinc := Mirrors.of_agree fun t l h => by
    refine h.read ((oneRead_scan _ stop limit).flaky fun _ => rfl) (h.backs.scan (fun k hle hlt => ?_) limit) rfl rfl
    obtain ⟨hne, hin⟩ := LedgerIndex.within_inc hinc
    obtain ⟨rest, rfl⟩ := hin k hle (hlt.resolve_left hne)
    exact .inr (.inr rfl)

variable {b : SqlStore Unit} {t : LedgerStore C Flaky} {l : MapLedger C ck} (h : Follows C ck K W t l)
include hC hhistory h

/-- The two writes of a commit. -/
theorem Follows.commit {ledOps : List Op} {scanOps : List BatchOp} (hput : Asks C ck K W l.calm (.putBatch ledOps))
    (hscan : Asks C ck K W l.calm (.backendWriteBatch scanOps)) : ∃ r t' l',
    ImmutableLedger.commit ledOps scanOps { b with led := t } = outcome r { b with led := t' } ∧
      ImmutableLedger.commit ledOps scanOps { b with led := l } = outcome r { b with led := l' } ∧
      Follows C ck K W t' l' := by
  obtain ⟨r, t₁, l₁, hx, hy, h₁⟩ := (h.putBatch hK hhistory hW hC hput).runs
  have hx' := onLedger_outcome (s := { b with led := t }) hx
  have hy' := onLedger_outcome (s := { b with led := l }) hy
  unfold ImmutableLedger.commit
  cases r with
  | error e => exact ⟨.error (.ledger e), t₁, l₁, run_bind_error hx', run_bind_error hy', h₁⟩
  | ok a =>
    rw [run_bind_ok hx', run_bind_ok hy']
    have hversion : Store.version t₁ = l₁.version := congrArg Prod.snd h₁.backs.rootOf
    have hderived : ∀ op ∈ scanOps ++ [markerOp l₁.version], IsDerived op.key := by
      intro op hop
      rcases List.mem_append.1 hop with hop | hop
      · exact hscan op hop
      · rw [List.mem_singleton.1 hop]
        exact .inr (.inl rfl)
    obtain ⟨r, t₂, l₂, hx₂, hy₂, h₂⟩ := (h₁.writeBatch hderived).runs
    refine ⟨_, t₂, l₂, ?_, onLedger_outcome hy₂, h₂⟩
    show onLedger (LedgerApi.backendWriteBatch (scanOps ++ [markerOp (Store.version t₁)])) _ = _
    rw [hversion]
    exact onLedger_outcome hx₂

/-- **`COMMIT` goes as planned**: the checks, the ledger's write and the derived write. -/
theorem Follows.commitTxn {txn : StoreTxn} (hasks : CommitAsks C ck K W b l txn) : ∃ r t' l',
    ImmutableLedger.commitTxn txn { b with led := t } = outcome r { b with led := t' } ∧
      ImmutableLedger.commitTxn txn { b with led := l } = outcome r { b with led := l' } ∧ Follows C ck K W t' l' := by
  unfold ImmutableLedger.commitTxn
  by_cases hnil : txn.tables.entries = []
  · rw [if_pos hnil, if_pos hnil]
    exact ⟨.ok (), t, l, rfl, rfl, h⟩
  rw [if_neg hnil, if_neg hnil, run_bind_ok (ledgerVersion_run _)]
  have hversion : Store.version t = l.version := congrArg Prod.snd h.backs.rootOf
  have hread : (ledgerVersion : SqlM (LedgerStore C Flaky) UInt64) { b with led := t } =
      .ok l.version { b with led := t } := by
    rw [← hversion]
    rfl
  rw [run_bind_ok hread]
  obtain ⟨r, s', u, hx, hy, ⟨h', hs', hu⟩, -⟩ := (mirrors_commitTables (planned_sqlLinked hK hW)
    (decide (l.version ≠ txn.baseVersion)) txn.tables.entries hasks.rows).runs (s := { b with led := t })
    (t := { b with led := l }) ⟨h, rfl, rfl⟩ fun _ _ hcut => hcut.1
  have hops : commitOps txn { b with led := l } = r := by
    unfold commitOps
    rw [show commitTables (decide (l.version ≠ txn.baseVersion)) _ _ = _ from hy, val_outcome]
  rw [hs'] at hx
  cases r with
  | error e => exact ⟨.error e, s'.led, u.led, run_bind_error hx, run_bind_error (by rw [hy, hu]; rfl), h'⟩
  | ok q =>
    obtain rfl := (reads_commitTables _ _).of_ok hy
    obtain ⟨ledOps, scanOps⟩ := q
    obtain ⟨hput, hscan⟩ := hasks.writes _ hops
    rw [run_bind_ok hx, run_bind_ok hy]
    dsimp only
    by_cases hnone : ledOps = []
    · rw [if_pos hnone, if_pos hnone]
      exact ⟨.ok (), s'.led, l, rfl, rfl, h'⟩
    · rw [if_neg hnone, if_neg hnone]
      exact h'.commit hC hK hhistory hW hput hscan

end

/-- **The ledger's store over a backend with failing writes answers as the map with the same plan**, whatever the SQL layer
asks of the ledger and of the backend underneath, in any order; and a commit of any transaction then ends in the same way,
also where one of its writes fails. -/
theorem store_answers_as_planned (hC : C.GcmOk) (hK : Set.InjOn (pathOf C ck) K) (hhistory : historyKey ∈ K)
    (hW : VhInj C ck W) (o : StoreOptions) (entropy : ℕ → Nonce) (plan : List Bool) {cs : List LedgerCall}
    (hasks : Along ledgerStep (fun (l : MapLedger C ck) c => Asks C ck K W l.calm c) { history := o.history, plan } cs) :
    (run (ledgerStep (L := LedgerStore C Flaky)) ((created C ck o entropy).planned plan) cs).1 =
      (run ledgerStep ({ history := o.history, plan } : MapLedger C ck) cs).1 ∧
    ∀ (b : SqlStore Unit) (txn : StoreTxn),
      CommitAsks C ck K W b (run ledgerStep ({ history := o.history, plan } : MapLedger C ck) cs).2 txn →
      (commitTxn txn { b with led :=
        (run (ledgerStep (L := LedgerStore C Flaky)) ((created C ck o entropy).planned plan) cs).2 }).val =
      (commitTxn txn { b with led := (run ledgerStep ({ history := o.history, plan } : MapLedger C ck) cs).2 }).val := by
  have hstep : ∀ (t : Store Flaky) (l : MapLedger C ck) (c : LedgerCall), Follows C ck K W t l → True →
      Asks C ck K W l.calm c → Agree (Follows C ck K W) (c.exec (L := LedgerStore C Flaky)) c.exec t l :=
    fun t l c h _ hask => h.step hK hhistory hW hC hask
  refine And.imp_right (fun hend b txn hcommit => ?_)
    (simulation hstep (Follows.created hC o entropy plan) (along_true _ _) hasks)
  obtain ⟨r, t', l', hx, hy, -⟩ := hend.commitTxn hC hK hhistory hW hcommit
  rw [hx, hy, val_outcome, val_outcome]

/-- A transaction that inserts the row 7. -/
def insertTxn : StoreTxn where
  baseVersion := 1
  tables := OrdMap.empty.insert 1 (OrdMap.empty.insert (encInt64 7) { new := some [some (.int64 7)] })

/-- The third write fails, that of the derived keys of a commit: the commit fails on the store as on the map. -/
theorem store_answers_as_planned_torn : (commitTxn insertTxn { sampleSql with led :=
    (run (ledgerStep (L := LedgerStore quickCrypto Flaky))
      ((created quickCrypto [] {} fun _ => Nonce.zero).planned [true, true, false]) [.putBatch [sampleRow 3]]).2 }).val.toOption =
      none := by
  have hpaths : Set.InjOn (pathOf quickCrypto []) {k | k ∈ [(sampleRow 3).key, (sampleRow 7).key, historyKey]} :=
    fun a ha b hb => List.inj_on_of_nodup_map (by decide +kernel) ha hb
  have hvalues : VhInj quickCrypto [] {e | e ∈ [(pathOf quickCrypto [] (sampleRow 3).key, (sampleRow 3).value),
      (pathOf quickCrypto [] (sampleRow 7).key, (sampleRow 7).value)]} := vhInj_of_nodup (by decide +kernel)
  obtain ⟨-, hcommit⟩ := store_answers_as_planned quickCrypto_gcmOk hpaths (by simp) hvalues {} (fun _ => Nonce.zero)
    [true, true, false] (show Along ledgerStep _ _ [.putBatch [sampleRow 3]] from
      ⟨⟨by simp, by decide +kernel, by decide, by decide +kernel, by decide +kernel⟩, trivial⟩)
  have hops : (commitOps insertTxn { sampleSql with led := (run ledgerStep
      ({ plan := [true, true, false] } : MapLedger quickCrypto []) [.putBatch [sampleRow 3]]).2 }).toOption =
      some ([sampleRow 7], [{ key := scanKey 1 (encInt64 7) }]) := by decide +kernel
  refine (congrArg Except.toOption (hcommit { sampleSql with led := () } insertTxn ⟨?_, ?_⟩)).trans (by decide +kernel)
  · intro e he d hd q hq
    obtain rfl := List.mem_singleton.1 he
    obtain rfl := List.mem_singleton.1 hq
    cases hd
    exact List.mem_cons_of_mem _ List.mem_cons_self
  · intro r hr
    rw [show commitOps insertTxn _ = .ok r from hr] at hops
    cases hops
    refine ⟨⟨by simp, by decide +kernel, by decide +kernel, by decide +kernel, by decide +kernel⟩, fun op hop => ?_⟩
    rw [List.mem_singleton.1 hop]
    exact .inl rfl

end ImmutableLedger
