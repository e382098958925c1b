import ImmutableLedger.Lib.Mirror
import ImmutableLedger.Sql.Txn

/-!
# SQL stores over linked ledgers

The SQL layer over two ledgers that stay in step: what `COMMIT` reads before it writes keeps the two stores in step.

* `mirrors_onLedger`: a call on the ledger.
* `mirrors_commitTables`: the checks and operations of a transaction.
-/

namespace ImmutableLedger

open EStateM

variable {L N μ μ' : Type} [LedgerApi L μ] [LedgerApi N μ']

/-- The stores with the catalog of `b` over linked ledgers. -/
def sqlLink (M : Link L N) (b : SqlStore Unit) : Link (SqlStore L) (SqlStore N) where
  rel s t := M.rel s.led t.led ∧ s = { b with led := s.led } ∧ t = { b with led := t.led }
  kept s u := M.kept s.led u.led
  grown t u := M.grown t.led u.led
  cut s s' t := M.cut s.led s'.led t.led ∧ s' = { b with led := s'.led }
  kept_refl s := M.kept_refl s.led
  kept_trans h h' := M.kept_trans h h'
  grown_refl t := M.grown_refl t.led
  grown_trans h h' := M.grown_trans h h'
  cut_later h hc := ⟨M.cut_later h hc.1, hc.2⟩
  cut_grown hc h := ⟨M.cut_grown hc.1 h, hc.2⟩

section
variable {M : Link L N} {b : SqlStore Unit} {α : Type} {Q : α → Prop}

omit [LedgerApi L μ] in
/-- A call on the ledger ends as the ledger's own does. -/
theorem onLedger_outcome {x : EStateM Err L α} {s : SqlStore L} {r : Except Err α} {l : L} (h : x s.led = outcome r l) :
    onLedger x s = outcome (r.mapError SqlErr.ledger) { s with led := l } := by
  unfold onLedger
  rw [h]
  cases r <;> rfl

omit [LedgerApi L μ] [LedgerApi N μ'] in
theorem mirrors_onLedger {x : EStateM Err L α} {y : EStateM Err N α} (h : Mirrors M x y Q) :
    Mirrors (sqlLink M b) (onLedger x) (onLedger y) Q := by
  rintro s t ⟨hst, hs, ht⟩
  obtain ⟨r, l', hy, hgrown, hQ, hcase⟩ := h s.led t.led hst
  refine ⟨_, _, onLedger_outcome hy, hgrown, fun a ha => ?_, ?_⟩
  · cases r with
    | error e => cases ha
    | ok a' =>
      cases ha
      exact hQ a rfl
  · rw [hs, ht]
    rcases hcase with ⟨l, hx, hrel, hk⟩ | ⟨e, l, u, hx, hcut, hu⟩
    · exact .inl ⟨{ b with led := l }, onLedger_outcome hx, ⟨hrel, rfl, rfl⟩, hk⟩
    · exact .inr ⟨.ledger e, { b with led := l }, { b with led := u }, onLedger_outcome (r := .error e) hx, ⟨hcut, rfl⟩,
        hu, rfl, rfl⟩

omit [LedgerApi L μ] [LedgerApi N μ'] in
theorem mirrors_ofSql {r : Except SqlErr α} (h : ∀ a, r = .ok a → Q a) :
    Mirrors (sqlLink M b) (ofSql r) (ofSql r) Q := by
  cases r with
  | ok a => exact Mirrors.pure (h a rfl)
  | error e => exact Mirrors.throw e

end

/-- Linked ledgers stay in step over what a commit reads: the keys in `K`, and the index keyspaces. -/
structure SqlLinked (M : Link L N) (K : Bytes → Prop) : Prop where
  root : ∀ s t, M.rel s t → LedgerApi.root s = LedgerApi.root t
  get : ∀ key, K key → Mirrors M (LedgerApi.get key) (LedgerApi.get key) fun _ => True
  scan : ∀ id colsEnc stop limit, incBytes (secondarySpace id ++ colsEnc) = some stop →
    Mirrors M (LedgerApi.backendScan (secondarySpace id ++ colsEnc) stop limit)
      (LedgerApi.backendScan (secondarySpace id ++ colsEnc) stop limit) fun _ => True

section
variable {M : Link L N} {K : Bytes → Prop} {b : SqlStore Unit} (hM : SqlLinked M K)
include hM

theorem mirrors_ledgerVersion : Mirrors (sqlLink M b) ledgerVersion ledgerVersion fun _ => True := by
  refine Mirrors.get_bind fun s t h => ?_
  rw [hM.root s.led t.led h.1]
  exact Mirrors.pure trivial

theorem mirrors_validatePendingLocked {d : TableDef} {pkEnc : Bytes} (hK : K (rowKey d.id pkEnc)) (p : PendingRow) :
    Mirrors (sqlLink M b) (validatePendingLocked d pkEnc p) (validatePendingLocked d pkEnc p) fun _ => True := by
  refine (mirrors_onLedger (hM.get _ hK)).bind fun raw _ => ?_
  obtain ⟨_ | old, new⟩ := p
  · cases raw with
    | none => exact Mirrors.pure trivial
    | some raw => exact Mirrors.throw _
  · cases raw with
    | none => exact Mirrors.throw _
    | some raw =>
      refine (mirrors_ofSql fun _ _ => trivial).bind fun oldEnc (_ : True) => ?_
      exact Mirrors.ite (fun _ => Mirrors.throw _) fun _ => Mirrors.pure trivial

theorem mirrors_revalidateIndex (d : TableDef) (idx : IndexDef) (tt : TableTxn) : ∀ ps : List (Bytes × PendingRow),
    Mirrors (sqlLink M b) (revalidateIndex d idx tt ps) (revalidateIndex d idx tt ps) fun _ => True := by
  intro ps
  induction ps with
  | nil => exact Mirrors.pure trivial
  | cons e ps ih =>
    obtain ⟨k, old, _ | row⟩ := e
    · exact ih
    unfold revalidateIndex
    refine (mirrors_ofSql fun _ _ => trivial).bind fun q (_ : True) => ?_
    obtain ⟨colsEnc, hasNull⟩ := q
    refine Mirrors.ite (fun _ => ih) fun _ => ?_
    dsimp only
    cases hstop : incBytes (secondarySpace idx.id ++ colsEnc) with
    | none => exact Mirrors.throw _
    | some stop =>
      refine (mirrors_onLedger (hM.scan _ _ _ _ hstop)).bind fun kvs _ => ?_
      refine (mirrors_ofSql fun _ _ => trivial).bind fun freed (_ : True) => ?_
      exact Mirrors.ite (fun _ => Mirrors.throw_bind) fun _ => ih

theorem mirrors_revalidateUniqueOf (d : TableDef) (tt : TableTxn) : ∀ idxs : List IndexDef,
    Mirrors (sqlLink M b) (revalidateUniqueOf d tt idxs) (revalidateUniqueOf d tt idxs) fun _ => True := by
  intro idxs
  induction idxs with
  | nil => exact Mirrors.pure trivial
  | cons idx idxs ih =>
    exact Mirrors.ite (fun _ => (mirrors_revalidateIndex hM d idx tt _).bind fun _ _ => ih) fun _ => ih

theorem mirrors_commitRows (d : TableDef) (moved : Bool) : ∀ ps : List (Bytes × PendingRow),
    (∀ e ∈ ps, K (rowKey d.id e.1)) →
    Mirrors (sqlLink M b) (commitRows d moved ps) (commitRows d moved ps) fun _ => True := by
  intro ps
  induction ps with
  | nil => exact fun _ => Mirrors.pure trivial
  | cons e ps ih =>
    intro hK
    obtain ⟨k, p⟩ := e
    have hrest := ih fun e he => hK e (List.mem_cons_of_mem _ he)
    unfold commitRows
    refine Mirrors.ite (fun _ => hrest) fun _ => Mirrors.ite (fun _ => ?_) fun _ => ?_
    · refine (mirrors_validatePendingLocked hM (hK (k, p) List.mem_cons_self) p).bind fun _ _ => ?_
      refine (mirrors_ofSql fun _ _ => trivial).bind fun q (_ : True) => ?_
      exact hrest.bind fun q' _ => Mirrors.pure trivial
    · refine (mirrors_ofSql fun _ _ => trivial).bind fun q (_ : True) => ?_
      exact hrest.bind fun q' _ => Mirrors.pure trivial

/-- **What a commit reads before it writes**, for a transaction on the keys in `K`. -/
theorem mirrors_commitTables (moved : Bool) : ∀ tts : List (UInt64 × TableTxn),
    (∀ e ∈ tts, ∀ d, b.tableByID e.1 = some d → ∀ q ∈ e.2.entries, K (rowKey d.id q.1)) →
    Mirrors (sqlLink M b) (commitTables moved tts) (commitTables moved tts) fun _ => True := by
  intro tts
  induction tts with
  | nil => exact fun _ => Mirrors.pure trivial
  | cons e tts ih =>
    intro hK
    obtain ⟨id, tt⟩ := e
    have hrest := ih fun e he => hK e (List.mem_cons_of_mem _ he)
    refine Mirrors.get_bind fun s t h => ?_
    have hs : s.tableByID id = b.tableByID id := by rw [h.2.1]; rfl
    have ht : t.tableByID id = b.tableByID id := by rw [h.2.2]; rfl
    rw [hs, ht]
    cases hd : b.tableByID id with
    | none => exact Mirrors.throw _
    | some d =>
      refine (mirrors_commitRows hM d moved tt.entries (hK (id, tt) List.mem_cons_self d hd)).bind fun q _ => ?_
      refine Mirrors.ite (fun _ => ?_) fun _ => hrest.bind fun q' _ => Mirrors.pure trivial
      exact (mirrors_revalidateUniqueOf hM d tt d.indexes).bind fun _ _ => hrest.bind fun q' _ => Mirrors.pure trivial

end

end ImmutableLedger
