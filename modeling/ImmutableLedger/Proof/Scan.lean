import ImmutableLedger.Sql.Scan
import ImmutableLedger.Sql.Keys
import ImmutableLedger.Model.MapLedger
import ImmutableLedger.Refine.Invariant

/-!
# What a scan returns

A scan, forward or reverse, returns the rows of one list of entries: the committed entries of the range merged with the
overlay. The chunks it reads them in cannot be told from the result.

* `scan_eq_take`, `scan_resume`: a range in chunks.
* `ScanIter.committed_filled`, `ScanIter.seek_spec`: one step of a forward scan takes the head of what is to come.
* `rows_forward`, `rows_reverse`: all rows of a scan.
-/

namespace ImmutableLedger

open EStateM SortedMerge

/-! ## A range in chunks -/

namespace MemBackend

variable {m : MemBackend} {start stop : Bytes} {n : ℕ}

theorem asc_scan (m : MemBackend) (start stop : Bytes) : Asc (m.scan start stop 0) := m.sorted.filter _

theorem length_scan_le (m : MemBackend) (start stop : Bytes) : (m.scan start stop 0).length ≤ m.size :=
  List.length_filter_le _ _

theorem scan_eq_take (hn : n ≠ 0) : m.scan start stop n = (m.scan start stop 0).take n := by
  unfold scan
  rw [if_neg hn, if_pos rfl]

/-- **What is left after a chunk** is the range from the string after its last key on. -/
theorem scan_resume (hn : n ≠ 0) {last : Bytes × Bytes} (hlast : (m.scan start stop n).getLast? = some last) :
    m.scan (last.1 ++ [0x00]) stop 0 = (m.scan start stop 0).drop n := by
  rw [scan_eq_take hn] at hlast
  have hasc := asc_scan m start stop
  have hmem : last ∈ m.scan start stop 0 := List.mem_of_mem_take (List.mem_of_getLast? hlast)
  have hstart : start ≤ last.1 := (mem_scan.1 hmem).2.1
  rw [← List.take_append_drop n (m.scan start stop 0)] at hasc
  have hdrop := hasc.drop_eq_filter hlast
  rw [List.take_append_drop] at hdrop
  rw [hdrop]
  unfold scan
  rw [if_pos rfl, if_pos rfl, List.filter_filter]
  refine List.filter_congr fun e _ => ?_
  by_cases hlt : last.1 < e.1
  · have hle : start ≤ e.1 := hstart.trans hlt.le
    simp [hlt, hle, lt_iff_append_zero_le.1 hlt]
  · have hnot : ¬ last.1 ++ [0x00] ≤ e.1 := fun h => hlt (lt_iff_append_zero_le.2 h)
    simp [hlt, hnot]

/-- A short chunk is all of the range. -/
theorem scan_short (h : (m.scan start stop scanChunkSize).length < scanChunkSize) :
    m.scan start stop scanChunkSize = m.scan start stop 0 := by
  rw [scan_eq_take (by decide)] at h ⊢
  rw [List.length_take] at h
  exact List.take_of_length_le (by omega)

/-- The range after a full chunk. -/
theorem scan_resumeAfter (h : ¬ (m.scan start stop scanChunkSize).length < scanChunkSize) :
    m.scan (ScanIter.resumeAfter start (m.scan start stop scanChunkSize)) stop 0 =
      (m.scan start stop 0).drop scanChunkSize := by
  have hne : m.scan start stop scanChunkSize ≠ [] := by
    intro hnil
    rw [hnil] at h
    exact h (by decide)
  obtain ⟨last, hlast⟩ := Option.ne_none_iff_exists'.1 (mt List.getLast?_eq_none_iff.1 hne)
  have hnext : ScanIter.resumeAfter start (m.scan start stop scanChunkSize) = last.1 ++ [0x00] := by
    unfold ScanIter.resumeAfter
    rw [hlast]
  rw [hnext, scan_resume (by decide) hlast]

/-- A full chunk and what is left after it are the range. -/
theorem scan_append (h : ¬ (m.scan start stop scanChunkSize).length < scanChunkSize) :
    m.scan start stop scanChunkSize ++ m.scan (ScanIter.resumeAfter start (m.scan start stop scanChunkSize)) stop 0 =
      m.scan start stop 0 := by
  rw [scan_resumeAfter h, scan_eq_take (by decide), List.take_append_drop]

end MemBackend

/-! ## What a scan reads -/

section
variable {L μ : Type} [LedgerApi L μ] (G : GoLib)

/-- In every state of `I` the store reads as the values `vals` and the derived keyspace `derived`. -/
structure ReadsAs (I : SqlStore L → Prop) (vals : Bytes → Option Bytes) (derived : MemBackend) : Prop where
  get : ∀ key, Yields I (onLedger (LedgerApi.get key)) (.ok (vals key))
  scan : ∀ start stop limit,
    Yields I (onLedger (LedgerApi.backendScan start stop limit)) (.ok (derived.scan start stop limit))
  size : ∀ s, I s → derived.size ≤ LedgerApi.size s.led

/-- The row of a ledger value. -/
def storedRow (d : TableDef) : Option Bytes → Except SqlErr Row
  | none => .error (.text "table %s: scan entry without a ledger row" [.key d.name])
  | some raw =>
    if raw.length < 9 ∨ raw.head? ≠ some tagRow ∨ Bytes.toU64 ((raw.drop 1).take 8) ≠ d.id then
      .error (.text "table %s: row entry is corrupt" [.key d.name])
    else decodeRow G.round32 d.columns (raw.drop 9)

/-- The row of a primary key through a transaction buffer. -/
def resolved (tt : TableTxn) (d : TableDef) (vals : Bytes → Option Bytes) (pkEnc : Bytes) : Except SqlErr Row :=
  match tt.get pkEnc with
  | some p =>
    match p.new with
    | none => .error (.text "table %s: scan resolved a row deleted in this transaction" [.key d.name])
    | some row => .ok row
  | none => storedRow G d (vals (rowKey d.id pkEnc))

/-- The row of an entry. -/
def entryRow (tt : TableTxn) (d : TableDef) (vals : Bytes → Option Bytes) (secondary : Bool) (kv : Bytes × Bytes) :
    Except SqlErr Row := do
  let pkEnc ← entryPK secondary kv
  resolved G tt d vals pkEnc

variable {I : SqlStore L → Prop} {vals : Bytes → Option Bytes} {derived : MemBackend}

theorem yields_ofSql {α : Type} (r : Except SqlErr α) : Yields I (ofSql r : SqlM L α) r := by
  cases r with
  | ok a => exact Yields.pure a
  | error e => exact Yields.throw e

theorem yields_get_bind {α : Type} {f : SqlStore L → SqlM L α} {r : Except SqlErr α}
    (h : ∀ s, I s → Yields I (f s) r) : Yields I (get >>= f) r := fun s hs => h s hs s hs

theorem yields_readRow (hr : ReadsAs I vals derived) (d : TableDef) (pkEnc : Bytes) :
    Yields I (readRow G d pkEnc) (storedRow G d (vals (rowKey d.id pkEnc))) := by
  unfold readRow storedRow
  refine (hr.get _).bind ?_
  cases vals (rowKey d.id pkEnc) with
  | none => exact Yields.throw _
  | some raw =>
    by_cases hc : raw.length < 9 ∨ raw.head? ≠ some tagRow ∨ Bytes.toU64 ((raw.drop 1).take 8) ≠ d.id
    · simp only [if_pos hc]
      exact (Yields.throw _).bind_error
    · simp only [if_neg hc]
      exact yields_ofSql _

theorem yields_readRowTxn (hr : ReadsAs I vals derived) (tt : TableTxn) (d : TableDef) (pkEnc : Bytes) :
    Yields I (readRowTxn G tt d pkEnc) (resolved G tt d vals pkEnc) := by
  unfold readRowTxn resolved
  cases tt.get pkEnc with
  | none => exact yields_readRow G hr d pkEnc
  | some p =>
    cases hnew : p.new with
    | none =>
      simp only [hnew]
      exact Yields.throw _
    | some row =>
      simp only [hnew]
      exact Yields.pure row

/-- The ledger by its logical keys reads as its map. -/
theorem mapLedger_readsAs {C : Crypto} {ck : Bytes} (s : MapSql C ck) :
    ReadsAs (· = s) s.led.vals.get s.led.derived where
  get key := by
    rintro _ rfl
    exact ⟨_, rfl, ledgerGet_run _ key⟩
  scan start stop limit := by
    rintro _ rfl
    exact ⟨_, rfl, backendScan_run _ start stop limit⟩
  size := by
    rintro _ rfl
    exact Nat.le_add_left _ _

/-! ## Forward scans -/

namespace ScanIter

/-- The committed entries still to come. -/
def committed (derived : MemBackend) (it : ScanIter) : List (Bytes × Bytes) :=
  it.buf ++ if it.done then [] else derived.scan it.next it.stop 0

/-- The entries still to come. -/
def todo (derived : MemBackend) (it : ScanIter) : List (Bytes × Bytes) :=
  merge it.ov.masked (it.committed derived) it.ov.adds

/-- The iterator with a chunk at hand, unless the range has ended. -/
def filled (derived : MemBackend) (it : ScanIter) : ScanIter :=
  if it.buf = [] ∧ ¬ it.done then
    let kvs := derived.scan it.next it.stop scanChunkSize
    { it with next := resumeAfter it.next kvs, buf := kvs, done := decide (kvs.length < scanChunkSize) }
  else it

/-- `it'` goes on with the scan of `it`. -/
structure Continues (derived : MemBackend) (it it' : ScanIter) : Prop where
  tdef : it'.tdef = it.tdef
  tt : it'.tt = it.tt
  secondary : it'.secondary = it.secondary
  length_le : (it'.committed derived).length ≤ (it.committed derived).length

theorem Continues.trans {it₁ it₂ it₃ : ScanIter} (h₁ : Continues derived it₁ it₂) (h₂ : Continues derived it₂ it₃) :
    Continues derived it₁ it₃ :=
  ⟨h₂.tdef.trans h₁.tdef, h₂.tt.trans h₁.tt, h₂.secondary.trans h₁.secondary, h₂.length_le.trans h₁.length_le⟩

theorem yields_fill (hr : ReadsAs I vals derived) (it : ScanIter) : Yields I it.fill (.ok (it.filled derived)) := by
  unfold fill filled
  by_cases hc : it.buf = [] ∧ ¬ it.done
  · rw [if_pos hc, if_pos hc]
    exact (hr.scan _ _ _).bind (Yields.pure _)
  · rw [if_neg hc, if_neg hc]
    exact Yields.pure it

/-- Reading a chunk does not change what is to come. -/
theorem committed_filled (derived : MemBackend) (it : ScanIter) :
    (it.filled derived).committed derived = it.committed derived := by
  unfold filled
  split
  · rename_i hc
    obtain ⟨hbuf, hdone⟩ := hc
    unfold committed
    rw [hbuf, if_neg hdone, List.nil_append]
    by_cases hshort : (derived.scan it.next it.stop scanChunkSize).length < scanChunkSize
    · simp only [decide_eq_true hshort, if_true, List.append_nil]
      exact MemBackend.scan_short hshort
    · simp only [decide_eq_false hshort, Bool.false_eq_true, if_false]
      exact MemBackend.scan_append hshort
  · rfl

theorem filled_ov (derived : MemBackend) (it : ScanIter) : (it.filled derived).ov = it.ov := by
  unfold filled
  split <;> rfl

theorem continues_filled (derived : MemBackend) (it : ScanIter) : Continues derived it (it.filled derived) := by
  refine ⟨?_, ?_, ?_, (congrArg List.length (committed_filled derived it)).le⟩ <;> unfold filled <;> split <;> rfl

theorem todo_filled (derived : MemBackend) (it : ScanIter) : (it.filled derived).todo derived = it.todo derived := by
  unfold todo
  rw [committed_filled, filled_ov]

/-- After reading a chunk there is an entry at hand, or the range has ended. -/
theorem filled_ready (derived : MemBackend) (it : ScanIter) :
    (it.filled derived).buf ≠ [] ∨ (it.filled derived).done = true := by
  unfold filled
  split
  · by_cases hshort : (derived.scan it.next it.stop scanChunkSize).length < scanChunkSize
    · exact .inr (decide_eq_true hshort)
    · refine .inl fun h => hshort ?_
      simp only at h
      rw [h]
      decide
  · rename_i hc
    by_cases hbuf : it.buf = []
    · exact .inr (not_not.1 fun h => hc ⟨hbuf, h⟩)
    · exact .inl hbuf

/-- What `pick` says of an iterator with a chunk at hand. -/
inductive Picked (derived : MemBackend) (it : ScanIter) : Pick → Prop
  | emit {kv : Bytes × Bytes} {it' : ScanIter} (h : it.todo derived = kv :: it'.todo derived)
      (hc : Continues derived it it') : Picked derived it (.emit kv it')
  | skip {it' : ScanIter} (h : it.todo derived = it'.todo derived)
      (hlt : (it'.committed derived).length < (it.committed derived).length)
      (hc : Continues derived it it') : Picked derived it (.skip it')
  | eof (h : it.todo derived = []) : Picked derived it .eof

/-- **One step** takes the head of what is to come, or passes a hidden entry. -/
theorem picked (derived : MemBackend) (it : ScanIter) (hready : it.buf ≠ [] ∨ it.done = true) :
    Picked derived it it.pick := by
  obtain ⟨d, next, stop, secondary, tt, ⟨adds, masks⟩, buf, done⟩ := it
  cases buf with
  | nil =>
    have hdone : done = true := hready.resolve_left (not_not.2 rfl)
    subst hdone
    cases adds with
    | nil => exact .eof rfl
    | cons a adds => exact .emit rfl ⟨rfl, rfl, rfl, le_rfl⟩
  | cons b buf =>
    -- the head of the chunk comes next or is passed, unless an entry to add comes first
    have htake : ∀ {adds : List (Bytes × Bytes)}, (∀ rest, merge (ScanOverlay.masked ⟨adds, masks⟩) (b :: rest) adds =
          if ScanOverlay.masked ⟨adds, masks⟩ b.1 then merge (ScanOverlay.masked ⟨adds, masks⟩) rest adds
          else b :: merge (ScanOverlay.masked ⟨adds, masks⟩) rest adds) →
        Picked derived ⟨d, next, stop, secondary, tt, ⟨adds, masks⟩, b :: buf, done⟩
          (if ScanOverlay.masked ⟨adds, masks⟩ b.1 then .skip ⟨d, next, stop, secondary, tt, ⟨adds, masks⟩, buf, done⟩
            else .emit b ⟨d, next, stop, secondary, tt, ⟨adds, masks⟩, buf, done⟩) := by
      intro adds hmerge
      by_cases hm : ScanOverlay.masked ⟨adds, masks⟩ b.1 = true
      · rw [if_pos hm]
        exact .skip ((hmerge _).trans (if_pos hm)) (Nat.lt_succ_self _) ⟨rfl, rfl, rfl, Nat.le_succ _⟩
      · rw [if_neg hm]
        exact .emit ((hmerge _).trans (if_neg hm)) ⟨rfl, rfl, rfl, Nat.le_succ _⟩
    cases adds with
    | nil => exact htake fun rest => merge_cons_nil
    | cons a adds =>
      unfold pick
      rcases lt_trichotomy a.1 b.1 with hlt | heq | hgt
      · simp only [if_pos hlt]
        exact .emit (merge_cons_lt hlt) ⟨rfl, rfl, rfl, le_rfl⟩
      · simp only [if_neg heq.not_lt, if_pos heq]
        exact .emit (merge_cons_eq heq) ⟨rfl, rfl, rfl, Nat.le_succ _⟩
      · simp only [if_neg hgt.asymm, if_neg hgt.ne']
        exact htake fun rest => merge_cons_gt hgt

/-- **The loop of `Next`** finds the head of what is to come, in any number of rounds that is enough. Each round before
the last passes one committed entry. -/
theorem seek_spec (hr : ReadsAs I vals derived) (it : ScanIter) : ∃ it',
    (∀ n, (it.committed derived).length < n → Yields I (it.seek n) (.ok ((it.todo derived).head?, it'))) ∧
      it'.todo derived = (it.todo derived).tail ∧ Continues derived it it' := by
  induction hm : (it.committed derived).length using Nat.strong_induction_on generalizing it with
  | _ m ih =>
    subst hm
    have hfill := continues_filled derived it
    have hpick := picked derived (it.filled derived) (filled_ready derived it)
    have hlen := congrArg List.length (committed_filled derived it)
    rw [← todo_filled derived it]
    cases hp : (it.filled derived).pick with
    | emit kv it' =>
      rw [hp] at hpick
      obtain ⟨h, hc⟩ | _ | _ := hpick
      refine ⟨it', fun n hn => ?_, by rw [h, List.tail_cons], hfill.trans hc⟩
      obtain ⟨n, rfl⟩ := Nat.exists_eq_add_one_of_ne_zero (Nat.ne_zero_of_lt hn)
      refine (yields_fill hr it).bind ?_
      simp only [hp, h, List.head?_cons]
      exact Yields.pure _
    | skip it' =>
      rw [hp] at hpick
      obtain _ | ⟨h, hlt, hc⟩ | _ := hpick
      obtain ⟨it₁, hy, htail, hc₁⟩ := ih _ (hlen ▸ hlt) it' rfl
      refine ⟨it₁, fun n hn => ?_, by rw [h, htail], (hfill.trans hc).trans hc₁⟩
      obtain ⟨n, rfl⟩ := Nat.exists_eq_add_one_of_ne_zero (Nat.ne_zero_of_lt hn)
      refine (yields_fill hr it).bind ?_
      simp only [hp, h]
      exact hy n (by omega)
    | eof =>
      rw [hp] at hpick
      obtain _ | _ | h := hpick
      refine ⟨it.filled derived, fun n hn => ?_, by rw [h, List.tail_nil], hfill⟩
      obtain ⟨n, rfl⟩ := Nat.exists_eq_add_one_of_ne_zero (Nat.ne_zero_of_lt hn)
      refine (yields_fill hr it).bind ?_
      simp only [hp, h, List.head?_nil]
      exact Yields.pure _

/-- `Next` with nothing to come. -/
theorem nextRow_nil (hr : ReadsAs I vals derived) {it : ScanIter} (hsize : (it.committed derived).length ≤ derived.size)
    (h : it.todo derived = []) : ∃ it', Yields I (it.nextRow G) (.ok (none, it')) := by
  obtain ⟨it', hy, -⟩ := seek_spec hr it
  refine ⟨it', yields_get_bind fun s hs => (hy _ ?_).bind ?_⟩
  · have := hr.size s hs
    omega
  · rw [h]
    exact Yields.pure _

/-- `Next` with an entry to come. -/
theorem nextRow_cons (hr : ReadsAs I vals derived) {it : ScanIter}
    (hsize : (it.committed derived).length ≤ derived.size) {kv : Bytes × Bytes} {kvs : List (Bytes × Bytes)} (h : it.todo derived = kv :: kvs) : ∃ it',
    it'.todo derived = kvs ∧ Continues derived it it' ∧
      Yields I (it.nextRow G) (entryRow G it.tt it.tdef vals it.secondary kv >>= fun row => .ok (some row, it')) := by
  obtain ⟨it', hy, htail, hc⟩ := seek_spec hr it
  refine ⟨it', by rw [htail, h, List.tail_cons], hc, yields_get_bind fun s hs => (hy _ ?_).bind ?_⟩
  · have := hr.size s hs
    omega
  · rw [h]
    unfold entryRow
    simp only [List.head?_cons, bind_assoc]
    rw [← hc.tdef, ← hc.tt, ← hc.secondary]
    exact (yields_ofSql _).seq fun pk _ => (yields_readRowTxn G hr _ _ pk).seq fun row _ => Yields.pure _

end ScanIter

/-- **All rows of a forward scan**: those of the entries to come. -/
theorem rows_forward (hr : ReadsAs I vals derived) : ∀ {n : ℕ} {it : ScanIter},
    (it.committed derived).length ≤ derived.size → (it.todo derived).length < n →
    Yields I ((RowIter.forward it).rows G n) ((it.todo derived).mapM (entryRow G it.tt it.tdef vals it.secondary)) := by
  intro n
  induction n with
  | zero => intro it _ h; exact absurd h (Nat.not_lt_zero _)
  | succ n ih =>
    intro it hsize hn
    cases htodo : it.todo derived with
    | nil =>
      obtain ⟨it', hy⟩ := ScanIter.nextRow_nil G hr hsize htodo
      exact (hy.bind (Yields.pure (none, RowIter.forward it'))).bind (Yields.pure [])
    | cons kv kvs =>
      obtain ⟨it', htail, hc, hy⟩ := ScanIter.nextRow_cons G hr hsize htodo
      have hrest := ih (hc.length_le.trans hsize) (by rw [htail]; rw [htodo] at hn; simpa using hn)
      rw [htail, hc.tdef, hc.tt, hc.secondary] at hrest
      rw [List.mapM_cons]
      cases hrow : entryRow G it.tt it.tdef vals it.secondary kv with
      | error e =>
        rw [hrow] at hy
        exact hy.bind_error.bind_error
      | ok row =>
        rw [hrow] at hy
        refine (hy.bind (Yields.pure (some row, RowIter.forward it'))).bind ?_
        exact hrest.seq fun rows _ => Yields.pure _

/-! ## Reverse scans -/

theorem readChunks_spec (hr : ReadsAs I vals derived) (stop : Bytes) : ∀ {n : ℕ} {start : Bytes},
    (derived.scan start stop 0).length < n → Yields I (readChunks stop n start) (.ok (derived.scan start stop 0)) := by
  intro n
  induction n with
  | zero => intro start h; exact absurd h (Nat.not_lt_zero _)
  | succ n ih =>
    intro start hn
    refine (hr.scan _ _ _).bind ?_
    by_cases hshort : (derived.scan start stop scanChunkSize).length < scanChunkSize
    · rw [if_pos hshort, MemBackend.scan_short hshort]
      exact Yields.pure _
    · rw [if_neg hshort]
      have happ := MemBackend.scan_append hshort
      have hlen := congrArg List.length happ
      have hpos : 0 < scanChunkSize := by decide
      rw [List.length_append] at hlen
      have hrest := @ih (ScanIter.resumeAfter start (derived.scan start stop scanChunkSize)) (by omega)
      rw [← happ]
      exact hrest.bind (Yields.pure _)

theorem entryPKs_eq (secondary : Bool) (kvs : List (Bytes × Bytes)) :
    entryPKs secondary kvs = kvs.mapM (entryPK secondary) := by
  induction kvs with
  | nil => rfl
  | cons kv kvs ih => rw [List.mapM_cons, ← ih]; rfl

/-- **The keys of a reverse scan**: those of the merged entries, backwards. -/
theorem newReverse_spec (hr : ReadsAs I vals derived) (d : TableDef) (start stop : Bytes) (secondary : Bool)
    (tt : TableTxn) (ov : Option ScanOverlay) :
    Yields I (newReverseScanIter d start stop secondary tt ov) (do
      let pks ← (mergeOverlay (derived.scan start stop 0) ov).mapM (entryPK secondary)
      .ok ⟨d, tt, pks.reverse⟩) := by
  refine yields_get_bind fun s hs => ?_
  have hlen : (derived.scan start stop 0).length < LedgerApi.size s.led + 1 := by
    have h₁ := MemBackend.length_scan_le derived start stop
    have h₂ := hr.size s hs
    omega
  refine (readChunks_spec hr stop hlen).bind ?_
  rw [← entryPKs_eq]
  exact (yields_ofSql _).seq fun pks _ => Yields.pure _

/-- **All rows of a reverse scan.** -/
theorem rows_reverse (hr : ReadsAs I vals derived) (d : TableDef) (tt : TableTxn) : ∀ {n : ℕ} {pks : List Bytes},
    pks.length < n → Yields I ((RowIter.reverse ⟨d, tt, pks⟩).rows G n) (pks.mapM (resolved G tt d vals)) := by
  intro n
  induction n with
  | zero => intro pks h; exact absurd h (Nat.not_lt_zero _)
  | succ n ih =>
    intro pks hn
    cases pks with
    | nil => exact ((Yields.pure _).bind (Yields.pure (none, RowIter.reverse ⟨d, tt, []⟩))).bind (Yields.pure [])
    | cons pk pks =>
      have hy : Yields I (ReverseIter.nextRow G ⟨d, tt, pk :: pks⟩)
          (resolved G tt d vals pk >>= fun row => .ok (some row, ⟨d, tt, pks⟩)) :=
        (yields_readRowTxn G hr tt d pk).seq fun row _ => Yields.pure _
      have hrest := @ih pks (Nat.lt_of_succ_lt_succ hn)
      rw [List.mapM_cons]
      cases hrow : resolved G tt d vals pk with
      | error e =>
        rw [hrow] at hy
        exact hy.bind_error.bind_error
      | ok row =>
        rw [hrow] at hy
        refine (hy.bind (Yields.pure (some row, RowIter.reverse ⟨d, tt, pks⟩))).bind ?_
        exact hrest.seq fun rows _ => Yields.pure _

end

end ImmutableLedger
