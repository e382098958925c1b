import ImmutableLedger.Proof.Overlay
import ImmutableLedger.Proof.Editor

/-!
# In-transaction scans

A scan in a transaction against the committed rows overridden by the transaction's buffer.

* `scanRows_spec`: the rows of a scan are those of the primary keys of the merged entries.
* `iterateRows_spec`: the primary keys a scan meets, whatever the buffer remembers.
* `scan_exact`: with a buffer that knows the committed rows, exactly the overridden rows of the range, in key order.
* `scan_wellformed_iff`: with any buffer, when a scan fails or returns a primary key twice.
-/

namespace ImmutableLedger

open EStateM SortedMerge ScanOverlay LedgerIndex

variable {x : LedgerIndex} {start stop : Bytes}

/-! ## The rows of a scan -/

theorem mergeOverlay_eq (es : List (Bytes × Bytes)) (ov : Option ScanOverlay) :
    mergeOverlay es ov = merge (ov.getD {}).masked es (ov.getD {}).adds := by
  cases ov with
  | some ov => rfl
  | none =>
    induction es with
    | nil => rfl
    | cons e es ih => exact congrArg (e :: ·) ih

/-- In scan order: backwards for a reverse scan. -/
def inOrder {α : Type} (reverse : Bool) (l : List α) : List α := if reverse then l.reverse else l

theorem mapM_ok {ε α β : Type} {f : α → Except ε β} {g : α → β} : ∀ {l : List α}, (∀ a ∈ l, f a = .ok (g a)) →
    l.mapM f = .ok (l.map g) := by
  intro l
  induction l with
  | nil => intro _; rfl
  | cons a l ih =>
    intro h
    rw [List.mapM_cons, h a List.mem_cons_self, ih fun b hb => h b (List.mem_cons_of_mem _ hb)]
    rfl

theorem mapM_bind_ok {ε α β γ : Type} {f : α → Except ε β} {g : β → Except ε γ} {h : α → β} : ∀ {l : List α},
    (∀ a ∈ l, f a = .ok (h a)) → (l.mapM fun a => f a >>= g) = (l.map h).mapM g := by
  intro l
  induction l with
  | nil => intro _; rfl
  | cons a l ih =>
    intro hf
    rw [List.mapM_cons, List.map_cons, List.mapM_cons, hf a List.mem_cons_self,
      ih fun b hb => hf b (List.mem_cons_of_mem _ hb)]
    rfl

variable {pk k : Bytes}

section
variable {L μ : Type} [LedgerApi L μ] (G : GoLib) {I : SqlStore L → Prop} {vals : Bytes → Option Bytes}
  {derived : MemBackend} {tt : TableTxn}

/-- **The rows of a scan** are those of the primary keys of the merged entries, in scan order. -/
theorem scanRows_spec (hr : ReadsAs I vals derived) (hwithin : Within x.space start stop)
    (hkeys : ∀ pk p, tt.get pk = some p → HasKeys x pk p) (reverse : Bool) : ∃ ov it, Asc ov.adds ∧
    OverlayOf x start stop tt.entries ov ∧ Yields I (scanRows x.tdef tt x.idx start stop reverse) (.ok it) ∧
    ∀ n, (merge ov.masked (derived.scan start stop 0) ov.adds).length < n →
      Yields I (it.rows G n) ((inOrder reverse ((merge ov.masked (derived.scan start stop 0) ov.adds).map x.pkOf)).mapM
        (resolved G tt x.tdef vals)) := by
  obtain ⟨ov, hov, hasc, hspec⟩ := buildOverlay_spec hkeys start stop
  have hbuild : Yields I (ofSql (buildOverlay x.tdef tt x.idx start stop) : SqlM L _) (.ok ov) := by
    rw [hov]
    exact yields_ofSql _
  set es := merge (ov.getD {}).masked (derived.scan start stop 0) (ov.getD {}).adds with hes
  have hpk : ∀ kv ∈ es, entryPK x.idx.isSome kv = .ok (x.pkOf kv) := by
    intro kv hkv
    refine entryPK_eq ?_
    rcases (mem_merge (MemBackend.asc_scan derived start stop) hasc).1 hkv with hadd | ⟨hscan, -⟩
    · obtain ⟨p, -, -, row, -, hkey⟩ := (hspec.mem_adds kv).1 hadd
      exact starts_space hkey
    · obtain ⟨-, hle, hlt⟩ := MemBackend.mem_scan.1 hscan
      exact hwithin.2 _ hle (hlt.resolve_left hwithin.1)
  cases reverse with
  | false =>
    refine ⟨ov.getD {}, .forward (newScanIter x.tdef start stop x.idx.isSome tt ov), hasc, hspec,
      hbuild.bind (Yields.pure _), fun n hn => ?_⟩
    have hrows := @rows_forward _ _ _ G _ _ _ hr n (newScanIter x.tdef start stop x.idx.isSome tt ov)
      (MemBackend.length_scan_le derived start stop) hn
    rw [show inOrder false (es.map x.pkOf) = es.map x.pkOf from rfl, ← mapM_bind_ok hpk]
    exact hrows
  | true =>
    have hpks := newReverse_spec hr x.tdef start stop x.idx.isSome tt ov
    rw [mergeOverlay_eq, ← hes, mapM_ok hpk] at hpks
    refine ⟨ov.getD {}, .reverse ⟨x.tdef, tt, (es.map x.pkOf).reverse⟩, hasc, hspec,
      hbuild.bind (hpks.bind (Yields.pure _)), fun n hn => ?_⟩
    exact rows_reverse G hr x.tdef tt (by rwa [List.length_reverse, List.length_map])

/-! ## The primary keys of a scan -/

/-- The rows `R`, by their primary-key bytes, are stored, and the keyspace holds exactly their entries. -/
structure ExactSpace (x : LedgerIndex) (vals : Bytes → Option Bytes) (derived : MemBackend) (R : Bytes → Option Row) :
    Prop where
  stored : ∀ pk row, R pk = some row → storedRow G x.tdef (vals (rowKey x.tdef.id pk)) = .ok row
  entries : ∀ k v, x.space <+: k → (OrdMap.get derived k = some v ↔
    ∃ pk row, R pk = some row ∧ x.keyAt pk row = .ok k ∧ v = x.valueAt pk)

/-- A scan comes to the primary key at `k`: there is the transaction's own row, or a committed row whose entry the
transaction neither hides nor replaces. -/
def Meets (x : LedgerIndex) (R : Bytes → Option Row) (tt : TableTxn) (start stop pk k : Bytes) : Prop :=
  (∃ p, tt.get pk = some p ∧ Keyed x start stop pk p.new k) ∨
    Keyed x start stop pk (R pk) k ∧
      ∀ p, tt.get pk = some p → ¬ Keyed x start stop pk p.old k ∧ ¬ Keyed x start stop pk p.new k

variable {G} {R : Bytes → Option Row}

/-- A keyspace with one entry. -/
theorem exactSpace_of_one {pk₀ k : Bytes} {row : Row}
    (hstored : storedRow G x.tdef (vals (rowKey x.tdef.id pk₀)) = .ok row) (hkey : x.keyAt pk₀ row = .ok k)
    (hentries : (derived.entries.filter fun e => x.space.isPrefixOf e.1) = [(k, x.valueAt pk₀)]) :
    ExactSpace G x vals derived fun pk => if pk = pk₀ then some row else none := by
  have hR : ∀ {pk row'}, (if pk = pk₀ then some row else none) = some row' → pk = pk₀ ∧ row' = row := by
    intro pk row' h
    split at h
    · rename_i hpk
      exact ⟨hpk, (Option.some.inj h).symm⟩
    · cases h
  refine ⟨fun pk row' h => ?_, fun k' v hk => ?_⟩
  · obtain ⟨rfl, rfl⟩ := hR h
    exact hstored
  · have hmem : OrdMap.get derived k' = some v ↔ (k', v) = (k, x.valueAt pk₀) := by
      rw [← OrdMap.mem_entries, ← List.mem_singleton, ← hentries, List.mem_filter,
        and_iff_left (List.isPrefixOf_iff_prefix.2 hk)]
    rw [hmem]
    constructor
    · rintro ⟨⟩
      exact ⟨pk₀, row, if_pos rfl, hkey, rfl⟩
    · rintro ⟨pk, row', h, hkey', rfl⟩
      obtain ⟨rfl, rfl⟩ := hR h
      rw [Except.ok.inj (hkey'.symm.trans hkey)]

/-- The committed entries of the range. -/
theorem ExactSpace.mem_scan (hex : ExactSpace G x vals derived R) (hwithin : Within x.space start stop)
    {kv : Bytes × Bytes} : kv ∈ derived.scan start stop 0 ↔
      ∃ pk, Keyed x start stop pk (R pk) kv.1 ∧ kv.2 = x.valueAt pk := by
  rw [MemBackend.mem_scan, or_iff_right hwithin.1]
  constructor
  · rintro ⟨hget, hr⟩
    obtain ⟨pk, row, hrow, hkey, hv⟩ := (hex.entries _ _ (hwithin.2 _ hr.1 hr.2)).1 hget
    exact ⟨pk, ⟨hr, row, hrow, hkey⟩, hv⟩
  · rintro ⟨pk, ⟨hr, row, hrow, hkey⟩, hv⟩
    exact ⟨(hex.entries _ _ (hwithin.2 _ hr.1 hr.2)).2 ⟨pk, row, hrow, hkey, hv⟩, hr⟩

/-- What is left of a committed entry under the overlay. -/
theorem OverlayOf.shown_iff {ov : ScanOverlay} (h : OverlayOf x start stop tt.entries ov)
    {o : Option Row} (hk : Keyed x start stop pk o k) : (ov.masked k = false ∧ ∀ kv ∈ ov.adds, kv.1 ≠ k) ↔
      ∀ p, tt.get pk = some p → ¬ Keyed x start stop pk p.old k ∧ ¬ Keyed x start stop pk p.new k := by
  constructor
  · rintro ⟨hm, hadds⟩ p hp
    have hmem := OrdMap.mem_entries.2 hp
    have hnew : ¬ Keyed x start stop pk p.new k := fun hput => hadds (k, pk) ((h.mem_adds _).2 ⟨p, hmem, hput⟩) rfl
    refine ⟨fun hold => ?_, hnew⟩
    rcases h.hidden k ⟨(pk, p), hmem, hold⟩ with hmask | ⟨v, hv⟩
    · rw [hm] at hmask
      cases hmask
    · exact hadds _ hv rfl
  · intro hall
    constructor
    · by_contra hm
      obtain ⟨e, he, hold⟩ := h.hides k (by simpa using hm)
      have hpk : pk = e.1 := hk.pk_eq hold
      exact (hall e.2 (hpk ▸ OrdMap.mem_entries.1 he)).1 (hpk ▸ hold)
    · rintro kv hkv rfl
      obtain ⟨p, hp, hput⟩ := (h.mem_adds kv).1 hkv
      have hpk : pk = kv.2 := hk.pk_eq hput
      exact (hall p (hpk ▸ OrdMap.mem_entries.1 hp)).2 (hpk ▸ hput)

/-- **Where a scan meets a primary key.** -/
theorem mem_merged_iff (hex : ExactSpace G x vals derived R) (hwithin : Within x.space start stop) {ov : ScanOverlay}
    (hasc : Asc ov.adds) (h : OverlayOf x start stop tt.entries ov) {k pk : Bytes} :
    (∃ kv ∈ merge ov.masked (derived.scan start stop 0) ov.adds, kv.1 = k ∧ x.pkOf kv = pk) ↔
      Meets x R tt start stop pk k := by
  constructor
  · rintro ⟨kv, hkv, rfl, rfl⟩
    rcases (mem_merge (MemBackend.asc_scan derived start stop) hasc).1 hkv with hadd | ⟨hscan, hshown⟩
    · obtain ⟨p, hp, hput⟩ := (h.mem_adds kv).1 hadd
      obtain ⟨-, row, -, hkey⟩ := id hput
      rw [show x.pkOf kv = kv.2 from pkOf_entry hkey (.inl rfl)]
      exact .inl ⟨p, OrdMap.mem_entries.1 hp, hput⟩
    · obtain ⟨pk, hk, hv⟩ := (hex.mem_scan hwithin).1 hscan
      obtain ⟨-, row, -, hkey⟩ := id hk
      rw [show x.pkOf kv = pk from pkOf_entry hkey (.inr hv)]
      exact .inr ⟨hk, (h.shown_iff hk).1 hshown⟩
  · rintro (⟨p, hp, hput⟩ | ⟨hk, hall⟩)
    · obtain ⟨-, row, -, hkey⟩ := id hput
      refine ⟨(k, pk), (mem_merge (MemBackend.asc_scan derived start stop) hasc).2 (.inl ?_), rfl,
        pkOf_entry hkey (.inl rfl)⟩
      exact (h.mem_adds _).2 ⟨p, OrdMap.mem_entries.2 hp, hput⟩
    · obtain ⟨-, row, -, hkey⟩ := id hk
      refine ⟨(k, x.valueAt pk), (mem_merge (MemBackend.asc_scan derived start stop) hasc).2 (.inr ?_), rfl,
        pkOf_entry hkey (.inr rfl)⟩
      exact ⟨(hex.mem_scan hwithin).2 ⟨pk, hk, rfl⟩, (h.shown_iff hk).2 hall⟩

/-- **The primary keys of a scan**, with any buffer: those it meets, in key order. -/
theorem iterateRows_spec (hr : ReadsAs I vals derived) (hex : ExactSpace G x vals derived R) {part : Partition}
    {reverse : Bool} (hpart : part.Scans x start stop reverse) (hkeys : ∀ pk p, tt.get pk = some p → HasKeys x pk p) :
    ∃ ps, Asc ps ∧ (∀ k pk, (k, pk) ∈ ps ↔ Meets x R tt start stop pk k) ∧ ∀ n, ps.length < n →
      Yields I (iterateRows G n x.tdef tt part)
        ((inOrder reverse (ps.map Prod.snd)).mapM (resolved G tt x.tdef vals)) := by
  obtain ⟨ov, it, hasc, hov, hit, hrows⟩ := scanRows_spec G hr hpart.within hkeys reverse
  set es := merge ov.masked (derived.scan start stop 0) ov.adds
  have hes : Asc es := asc_merge (MemBackend.asc_scan derived start stop) hasc
  refine ⟨es.map fun kv : Bytes × Bytes => (kv.1, x.pkOf kv), List.pairwise_map.2 hes, fun k pk => ?_, fun n hn => ?_⟩
  · rw [← mem_merged_iff hex hpart.within hasc hov]
    simp [es]
  · rw [List.length_map] at hn
    rw [List.map_map]
    unfold iterateRows
    rw [partitionRows_eq hpart]
    exact hit.bind (hrows n hn)

/-! ## Exact scans -/

/-- The committed rows overridden by a buffer: its new rows, without the rows it deletes. -/
def overridden (R : Bytes → Option Row) (tt : TableTxn) (pk : Bytes) : Option Row :=
  match tt.get pk with
  | some p => p.new
  | none => R pk

/-- Each entry's old row is the committed row of its key, and the rows of the buffer have keys. -/
structure KnowsRows (x : LedgerIndex) (R : Bytes → Option Row) (tt : TableTxn) : Prop where
  old : ∀ pk p, tt.get pk = some p → p.old = R pk
  keys : ∀ pk p, tt.get pk = some p → HasKeys x pk p

/-- `es` lists the rows of `M` with a key in `[start, stop)`, each with its key and its primary key, in key order. -/
structure ListsRows (x : LedgerIndex) (M : Bytes → Option Row) (start stop : Bytes)
    (es : List (Bytes × Bytes × Row)) : Prop where
  asc : es.Pairwise fun a b => a.1 < b.1
  mem : ∀ k pk row, (k, pk, row) ∈ es ↔ M pk = some row ∧ x.keyAt pk row = .ok k ∧ start ≤ k ∧ k < stop

theorem meets_iff (h : KnowsRows x R tt) :
    Meets x R tt start stop pk k ↔ Keyed x start stop pk (overridden R tt pk) k := by
  unfold Meets overridden
  cases hp : tt.get pk with
  | none =>
    constructor
    · rintro (⟨p, hp', -⟩ | ⟨hk, -⟩)
      · cases hp'
      · exact hk
    · exact fun hk => .inr ⟨hk, fun p hp' => (by cases hp')⟩
  | some p =>
    constructor
    · rintro (⟨q, hq, hput⟩ | ⟨hk, hall⟩)
      · cases hq
        exact hput
      · -- the committed entry is the one of the old row
        have hhid := (hall p rfl).1
        rw [h.old pk p hp] at hhid
        exact absurd hk hhid
    · exact fun hput => .inl ⟨p, rfl, hput⟩

theorem resolved_overridden (hex : ExactSpace G x vals derived R) {pk : Bytes} {row : Row}
    (h : overridden R tt pk = some row) : resolved G tt x.tdef vals pk = .ok row := by
  unfold overridden at h
  unfold resolved
  cases hp : tt.get pk with
  | none =>
    rw [hp] at h
    exact hex.stored pk row h
  | some p =>
    rw [hp] at h
    simp only [h]

/-- **In-transaction scans are exact.** A scan of a range, of the primary keyspace or of an index, forward or reverse,
returns the committed rows overridden by the transaction's buffer, those with a key in the range, each once and in key
order. -/
theorem scan_exact (hr : ReadsAs I vals derived) (hex : ExactSpace G x vals derived R) (hB : KnowsRows x R tt)
    {part : Partition} {reverse : Bool} (hpart : part.Scans x start stop reverse) :
    ∃ es, ListsRows x (overridden R tt) start stop es ∧ ∀ n, es.length < n →
      Yields I (iterateRows G n x.tdef tt part) (.ok ((inOrder reverse es).map fun e => e.2.2)) := by
  obtain ⟨ps, hasc, hmem, hrows⟩ := iterateRows_spec hr hex hpart hB.keys
  -- the row of each primary key that the scan meets
  set rowOf : Bytes → Row := fun pk => (overridden R tt pk).getD [] with hrowOf
  have hrow : ∀ kp ∈ ps, overridden R tt kp.2 = some (rowOf kp.2) ∧ x.keyAt kp.2 (rowOf kp.2) = .ok kp.1 ∧
      ScanOverlay.inRange start stop kp.1 := by
    intro kp hkp
    obtain ⟨hr, row, ho, hkey⟩ := (meets_iff hB).1 ((hmem kp.1 kp.2).1 hkp)
    rw [hrowOf]
    simp only [ho, Option.getD_some]
    exact ⟨trivial, hkey, hr⟩
  refine ⟨ps.map fun kp : Bytes × Bytes => (kp.1, kp.2, rowOf kp.2), ⟨List.pairwise_map.2 hasc, fun k pk row => ?_⟩,
    fun n hn => ?_⟩
  · constructor
    · intro h
      obtain ⟨kp, hkp, he⟩ := List.mem_map.1 h
      cases he
      obtain ⟨ho, hkey, hr⟩ := hrow kp hkp
      exact ⟨ho, hkey, hr⟩
    · rintro ⟨ho, hkey, hr⟩
      refine List.mem_map.2 ⟨(k, pk), (hmem k pk).2 ((meets_iff hB).2 ⟨hr, row, ho, hkey⟩), ?_⟩
      simp only [hrowOf, ho, Option.getD_some]
  · rw [List.length_map] at hn
    have hall : ∀ pk ∈ inOrder reverse (ps.map Prod.snd), resolved G tt x.tdef vals pk = .ok (rowOf pk) := by
      intro pk hpk
      obtain ⟨kp, hkp, rfl⟩ : ∃ kp ∈ ps, kp.2 = pk := by
        unfold inOrder at hpk
        cases reverse <;> simpa using hpk
      exact resolved_overridden hex (hrow kp hkp).1
    have hresult := hrows n hn
    rw [mapM_ok hall] at hresult
    have heq : (inOrder reverse (ps.map Prod.snd)).map rowOf =
        (inOrder reverse (ps.map fun kp : Bytes × Bytes => (kp.1, kp.2, rowOf kp.2))).map fun e => e.2.2 := by
      unfold inOrder
      cases reverse <;> simp [List.map_reverse, Function.comp_def]
    rw [← heq]
    exact hresult

end

/-- The index on the names. -/
def byName : LedgerIndex := ⟨namesDef, some ⟨1, ascii "name", true, [1]⟩⟩

/-- The committed rows of the table of names. -/
def namesRows (pk : Bytes) : Option Row :=
  if pk = encInt64 1 then some [some (.int64 1), some (.string [120])] else none

/-- A buffer that renames the row and inserts another. -/
def renameTxn : TableTxn :=
  (OrdMap.empty.insert (encInt64 1)
    { old := some [some (.int64 1), some (.string [120])], new := some [some (.int64 1), some (.string [121])] }).insert
    (encInt64 2) { new := some [some (.int64 2), some (.string [119])] }

theorem names_exact :
    ExactSpace sampleLib byName namesEditor.store.led.vals.get namesEditor.store.led.derived namesRows := by
  have hraw : namesEditor.store.led.vals.get (rowKey 1 (encInt64 1)) =
      some (rowPayload 1 ([1] ++ encInt64 1 ++ [1, 1, 120])) := by
    decide +kernel
  refine exactSpace_of_one (k := entryKey 1 [1, 120, 0, 0] (encInt64 1)) ?_ rfl (by decide +kernel)
  rw [show namesEditor.store.led.vals.get (rowKey byName.tdef.id (encInt64 1)) = _ from hraw]
  rfl

/-- The whole index, backwards. -/
def namesBackwards : Partition := .indexRange ⟨byName.space, [120, 0, 0, 0, 0, 0, 0, 0, 2], some 1, true⟩

theorem renameTxn_knows : KnowsRows byName namesRows renameTxn := by
  refine ⟨fun pk p hp => ?_, fun pk p hp => ?_⟩ <;>
    simp only [renameTxn, OrdMap.get_insert, OrdMap.get_empty] at hp <;> split_ifs at hp with h₂ h₁ <;> cases hp
  · rw [h₂]
    rfl
  · rw [h₁]
    rfl
  · rintro row (h | h) <;> cases h
    exact ⟨_, rfl⟩
  · rintro row (h | h) <;> cases h <;> exact ⟨_, rfl⟩

theorem namesBackwards_scans : namesBackwards.Scans byName byName.space [120, 0, 0, 0, 0, 0, 0, 0, 2] true :=
  .range (fun idx h => by cases h; rfl) (within_inc rfl)

theorem scan_exact_names : ∃ es,
    ListsRows byName (overridden namesRows renameTxn) byName.space [120, 0, 0, 0, 0, 0, 0, 0, 2] es ∧
    ∀ n, es.length < n → Yields (· = namesEditor.store) (iterateRows sampleLib n namesDef renameTxn namesBackwards)
        (.ok (es.reverse.map fun e => e.2.2)) :=
  scan_exact (mapLedger_readsAs namesEditor.store) names_exact renameTxn_knows namesBackwards_scans

section
variable {L μ : Type} [LedgerApi L μ] {G : GoLib} {I : SqlStore L → Prop} {vals : Bytes → Option Bytes}
  {derived : MemBackend} {tt : TableTxn} {R : Bytes → Option Row}

/-! ## Scans under concurrent commits -/

/-- Every row is filed under its own primary key. -/
def Filed (d : TableDef) (M : Bytes → Option Row) : Prop := ∀ pk row, M pk = some row → encodePK d row = .ok pk

/-- Wherever a row the buffer mentions is committed in the range, it is where the buffer's old row was, or the buffer has
a new row for it, there or out of the range. -/
def Undisturbed (x : LedgerIndex) (R : Bytes → Option Row) (tt : TableTxn) (start stop : Bytes) : Prop :=
  ∀ pk p k, tt.get pk = some p → Keyed x start stop pk (R pk) k →
    Keyed x start stop pk p.old k ∨ p.new ≠ none ∧ ∀ k', Keyed x start stop pk p.new k' → k' = k

theorem Keyed.key_eq {pk k k' : Bytes} {o : Option Row} (h : Keyed x start stop pk o k)
    (h' : Keyed x start stop pk o k') : k = k' := by
  obtain ⟨-, row, rfl, hk⟩ := h
  obtain ⟨-, row', hrow, hk'⟩ := h'
  cases hrow
  rw [hk] at hk'
  exact Except.ok.inj hk'

theorem Keyed.ne_none {o : Option Row} (h : Keyed x start stop pk o k) : o ≠ none := by
  obtain ⟨-, row, rfl, -⟩ := h
  exact Option.some_ne_none row

/-- The range is undisturbed exactly when a scan has a row for each primary key it meets and meets none twice. -/
theorem undisturbed_iff : Undisturbed x R tt start stop ↔
    (∀ pk k, Meets x R tt start stop pk k → overridden R tt pk ≠ none) ∧
      ∀ pk k k', Meets x R tt start stop pk k → Meets x R tt start stop pk k' → k = k' := by
  have hsome : ∀ {pk p}, tt.get pk = some p → overridden R tt pk = p.new := by
    intro pk p hp
    unfold overridden
    rw [hp]
  have hnone : ∀ {pk}, tt.get pk = none → overridden R tt pk = R pk := by
    intro pk hp
    unfold overridden
    rw [hp]
  constructor
  · intro h
    -- a new row is met where the committed row is
    have hcross : ∀ {pk k k' p}, tt.get pk = some p → Keyed x start stop pk p.new k → Keyed x start stop pk (R pk) k' →
        ¬ Keyed x start stop pk p.old k' → k = k' := fun hp hput hk hold =>
      ((h _ _ _ hp hk).resolve_left hold).2 _ hput
    refine ⟨fun pk k hm => ?_, fun pk k k' hm hm' => ?_⟩
    · rcases hm with ⟨p, hp, hput⟩ | ⟨hk, hall⟩
      · rw [hsome hp]
        exact hput.ne_none
      · cases hp : tt.get pk with
        | none =>
          rw [hnone hp]
          exact hk.ne_none
        | some p =>
          rw [hsome hp]
          exact ((h pk p k hp hk).resolve_left (hall p hp).1).1
    · rcases hm with ⟨p, hp, hput⟩ | ⟨hk, hall⟩ <;> rcases hm' with ⟨p', hp', hput'⟩ | ⟨hk', hall'⟩
      · rw [hp] at hp'
        cases hp'
        exact hput.key_eq hput'
      · exact hcross hp hput hk' (hall' p hp).1
      · exact (hcross hp' hput' hk (hall p' hp').1).symm
      · exact hk.key_eq hk'
  · rintro ⟨hrow, huniq⟩ pk p k hp hk
    by_cases hold : Keyed x start stop pk p.old k
    · exact .inl hold
    · refine .inr ?_
      by_cases hput : Keyed x start stop pk p.new k
      · exact ⟨hput.ne_none, fun k' hput' => hput'.key_eq hput⟩
      · have hm : Meets x R tt start stop pk k := .inr ⟨hk, fun q hq => by
          rw [hp] at hq
          cases hq
          exact ⟨hold, hput⟩⟩
        refine ⟨hsome hp ▸ hrow pk k hm, fun k' hput' => huniq pk k' k (.inl ⟨p, hp, hput'⟩) hm⟩

/-- A row is found for each primary key that is met, or the scan fails. -/
theorem overridden_of_resolved {row : Row} (hm : Meets x R tt start stop pk k)
    (h : resolved G tt x.tdef vals pk = .ok row) : overridden R tt pk ≠ none := by
  unfold resolved at h
  unfold overridden
  cases hp : tt.get pk with
  | none =>
    rcases hm with ⟨p, hp', -⟩ | ⟨hk, -⟩
    · rw [hp] at hp'
      cases hp'
    · exact hk.ne_none
  | some p =>
    rw [hp] at h
    cases hnew : p.new with
    | none =>
      simp only [hnew] at h
      cases h
    | some row' =>
      simp only [hnew]
      exact Option.some_ne_none row'

theorem mapM_eq_ok {ε α β : Type} {f : α → Except ε β} : ∀ {l : List α} {bs : List β}, l.mapM f = .ok bs →
    ∀ a ∈ l, ∃ b, f a = .ok b := by
  intro l
  induction l with
  | nil => intro bs _ a ha; cases ha
  | cons a l ih =>
    intro bs h b hb
    rw [List.mapM_cons] at h
    obtain ⟨c, hc, h₁⟩ := Except.ok_of_bind h
    obtain ⟨cs, hcs, -⟩ := Except.ok_of_bind h₁
    rcases List.mem_cons.1 hb with rfl | hb
    · exact ⟨c, hc⟩
    · exact ih hcs b hb

theorem mem_inOrder {α : Type} {reverse : Bool} {l : List α} {a : α} : a ∈ inOrder reverse l ↔ a ∈ l := by
  unfold inOrder
  cases reverse <;> simp

theorem nodup_inOrder {α : Type} {reverse : Bool} {l : List α} : (inOrder reverse l).Nodup ↔ l.Nodup := by
  unfold inOrder
  cases reverse <;> simp

/-- What a scan makes of the primary keys it meets: rows with distinct primary keys exactly when the range is
undisturbed. -/
theorem rows_wellformed_iff (hex : ExactSpace G x vals derived R) (hfiled : Filed x.tdef (overridden R tt))
    {ps : List (Bytes × Bytes)} (hasc : Asc ps) (hmem : ∀ k pk, (k, pk) ∈ ps ↔ Meets x R tt start stop pk k)
    (reverse : Bool) :
    (∃ rows, (inOrder reverse (ps.map Prod.snd)).mapM (resolved G tt x.tdef vals) = .ok rows ∧
      (rows.map (encodePK x.tdef)).Nodup) ↔ Undisturbed x R tt start stop := by
  rw [undisturbed_iff]
  set pks := inOrder reverse (ps.map Prod.snd) with hpks
  have hmet : ∀ {pk}, pk ∈ pks ↔ ∃ k, Meets x R tt start stop pk k := by
    intro pk
    rw [hpks, mem_inOrder]
    constructor
    · intro h
      obtain ⟨kp, hkp, rfl⟩ := List.mem_map.1 h
      exact ⟨kp.1, (hmem _ _).1 hkp⟩
    · rintro ⟨k, hm⟩
      exact List.mem_map.2 ⟨(k, pk), (hmem k pk).2 hm, rfl⟩
  -- when there is a row for each key, these are the rows, and they are distinct when the keys are
  have hgood : (∀ pk k, Meets x R tt start stop pk k → overridden R tt pk ≠ none) →
      pks.mapM (resolved G tt x.tdef vals) = .ok (pks.map fun pk => (overridden R tt pk).getD []) ∧
        ((pks.map fun pk => (overridden R tt pk).getD []).map (encodePK x.tdef)) = pks.map Except.ok := by
    intro hrow
    have hfound : ∀ pk ∈ pks, overridden R tt pk = some ((overridden R tt pk).getD []) := by
      intro pk hpk
      obtain ⟨k, hm⟩ := hmet.1 hpk
      obtain ⟨row, ho⟩ := Option.ne_none_iff_exists'.1 (hrow pk k hm)
      rw [ho, Option.getD_some]
    refine ⟨mapM_ok fun pk hpk => resolved_overridden hex (hfound pk hpk), ?_⟩
    rw [List.map_map]
    exact List.map_congr_left fun pk hpk => hfiled pk _ (hfound pk hpk)
  have hnodup : pks.Nodup ↔ ∀ pk k k', Meets x R tt start stop pk k → Meets x R tt start stop pk k' → k = k' := by
    rw [hpks, nodup_inOrder]
    constructor
    · intro hnd pk k k' hm hm'
      exact congrArg Prod.fst (List.inj_on_of_nodup_map hnd ((hmem k pk).2 hm) ((hmem k' pk).2 hm') rfl)
    · intro huniq
      have hps : ps.Nodup := hasc.imp fun hlt he => hlt.ne (congrArg Prod.fst he)
      refine hps.map_on fun a ha b hb hab => Prod.ext ?_ hab
      exact huniq a.2 a.1 b.1 ((hmem _ _).1 ha) ((hmem _ _).1 (by rw [hab]; exact hb))
  have hinj : Function.Injective (Except.ok : Bytes → Except SqlErr Bytes) := fun a b h => Except.ok.inj h
  constructor
  · rintro ⟨rows, hok, hnd⟩
    have hrow : ∀ pk k, Meets x R tt start stop pk k → overridden R tt pk ≠ none := by
      intro pk k hm
      obtain ⟨row, hres⟩ := mapM_eq_ok hok pk (hmet.2 ⟨k, hm⟩)
      exact overridden_of_resolved hm hres
    obtain ⟨hok', hkeys'⟩ := hgood hrow
    rw [hok'] at hok
    obtain rfl := Except.ok.inj hok
    rw [hkeys', List.nodup_map_iff hinj] at hnd
    exact ⟨hrow, hnodup.1 hnd⟩
  · rintro ⟨hrow, huniq⟩
    obtain ⟨hok, hkeys'⟩ := hgood hrow
    exact ⟨_, hok, by rw [hkeys', List.nodup_map_iff hinj]; exact hnodup.2 huniq⟩

/-- **In-transaction scans under concurrent commits.** Whatever the buffer remembers and whatever is committed by now, a
scan returns without error and with no primary key twice exactly when its range is undisturbed. -/
theorem scan_wellformed_iff (hr : ReadsAs I vals derived) (hex : ExactSpace G x vals derived R)
    (hkeys : ∀ pk p, tt.get pk = some p → HasKeys x pk p) (hfiled : Filed x.tdef (overridden R tt))
    {part : Partition} {reverse : Bool} (hpart : part.Scans x start stop reverse) :
    ∃ len r, (∀ n, len < n → Yields I (iterateRows G n x.tdef tt part) r) ∧
      ((∃ rows, r = .ok rows ∧ (rows.map (encodePK x.tdef)).Nodup) ↔ Undisturbed x R tt start stop) := by
  obtain ⟨ps, hasc, hmem, hrows⟩ := iterateRows_spec hr hex hpart hkeys
  exact ⟨ps.length, _, hrows, rows_wellformed_iff hex hfiled hasc hmem reverse⟩

end

/-- A transaction on the table of names after statements of one call each. -/
def namesTxn (calls : List (EditM (MapLedger plainCrypto []) Unit)) : EditState (MapLedger plainCrypto []) :=
  calls.foldl (fun s call => (Editor.close (call s).state).state)
    ⟨namesEditor.store, some (startTransaction namesEditor.store false), ⟨1, OrdMap.empty⟩⟩

/-- The store after another session's transaction. -/
def namesAfter (calls : List (EditM (MapLedger plainCrypto []) Unit)) : SqlStore (MapLedger plainCrypto []) :=
  (commitTxn ((namesTxn calls).txn.getD ⟨0, false, OrdMap.empty, []⟩) namesEditor.store).state

/-- The rows after another session renamed the row. -/
def renamedRows (pk : Bytes) : Option Row :=
  if pk = encInt64 1 then some [some (.int64 1), some (.string [122])] else none

/-- The store after that. -/
def namesRenamed : MapSql plainCrypto [] :=
  namesAfter [Editor.update [some (.int64 1), some (.string [120])] [some (.int64 1), some (.string [122])]]

/-- The buffer renames the row as well and does not know of the change; a scan of the table meets the row once. -/
theorem scan_wellformed_names : renamedRows (encInt64 1) ≠ namesRows (encInt64 1) ∧
    ∃ len r, (∀ n, len < n → Yields (· = namesRenamed) (iterateRows sampleLib n namesDef renameTxn (tablePartition namesDef)) r) ∧
      ∃ rows, r = .ok rows ∧ (rows.map (encodePK namesDef)).Nodup := by
  let x : LedgerIndex := ⟨namesDef, none⟩
  have hraw : namesRenamed.led.vals.get (rowKey 1 (encInt64 1)) =
      some (rowPayload 1 ([1] ++ encInt64 1 ++ [1, 1, 122])) := by
    decide +kernel
  have hexact : ExactSpace sampleLib x namesRenamed.led.vals.get namesRenamed.led.derived renamedRows := by
    refine exactSpace_of_one (k := scanKey 1 (encInt64 1)) ?_ rfl (by decide +kernel)
    rw [show namesRenamed.led.vals.get (rowKey x.tdef.id (encInt64 1)) = _ from hraw]
    rfl
  have hfiled : Filed namesDef (overridden renamedRows renameTxn) := by
    intro pk row h
    simp only [overridden, renameTxn, OrdMap.get_insert, OrdMap.get_empty, renamedRows] at h
    by_cases h₂ : pk = encInt64 2
    · rw [if_pos h₂] at h
      cases h
      rw [h₂]
      rfl
    · by_cases h₁ : pk = encInt64 1
      · rw [if_neg h₂, if_pos h₁] at h
        cases h
        rw [h₁]
        rfl
      · simp only [if_neg h₂, if_neg h₁] at h
        cases h
  obtain ⟨len, r, hy, hiff⟩ := scan_wellformed_iff (mapLedger_readsAs namesRenamed) hexact
    (fun pk p _ row _ => ⟨_, rfl⟩) hfiled (.full rfl rfl)
  refine ⟨by decide, len, r, hy, hiff.2 fun pk p k hp hk => .inl ?_⟩
  -- the committed row is where the buffer's old row is
  obtain ⟨hr, row, hrow, hkey⟩ := hk
  unfold renamedRows at hrow
  split at hrow
  · rename_i hpk
    rw [hpk] at hp
    cases hp
    exact ⟨hr, _, rfl, hkey⟩
  · cases hrow

/-- **Scans disturbed by another session.** A transaction inserts a row and deletes it again, another one inserts it and
commits: a scan of the table in the first fails. A transaction renames a row, another one renames it differently and
commits: a scan of the index in the first returns it twice. -/
theorem scan_disturbed :
    (iterateRows sampleLib 5 namesDef
      (txnView (namesTxn [Editor.insert [some (.int64 2), none], Editor.delete [some (.int64 2), none]]).txn 1)
      (tablePartition namesDef) (namesAfter [Editor.insert [some (.int64 2), none]])).val =
      .error (.text "table %s: scan resolved a row deleted in this transaction" [.key (ascii "names")]) ∧
    (iterateRows sampleLib 5 namesDef
      (txnView (namesTxn
        [Editor.update [some (.int64 1), some (.string [120])] [some (.int64 1), some (.string [121])]]).txn 1)
      namesBackwards namesRenamed).val =
      .ok [[some (.int64 1), some (.string [121])], [some (.int64 1), some (.string [121])]] := by
  constructor <;> decide +kernel

end ImmutableLedger
