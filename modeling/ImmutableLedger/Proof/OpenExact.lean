import ImmutableLedger.Proof.Image
import ImmutableLedger.Proof.Sessions

/-!
# What Open leaves in the derived keyspace

A rebuild sees the values of the ledger and not their keys: a value that starts as a row of a catalogued table does is taken
for one. It drops the scan keyspace and leaves the index keyspace, where it only adds.

* `coexists_iff`: `Open` on a ledger that also holds other values.
* `rebuilt_exact_iff`: the derived keyspace after a rebuild over leftovers.
-/

namespace ImmutableLedger

open EStateM

variable {C : Crypto} {ck : Bytes} {G : GoLib} {s s' : MapSql C ck} {k : ℕ}

/-! ## Values taken for rows -/

/-- The table id in a value that starts as a row does. -/
def rowId (v : Bytes) : UInt64 := Bytes.toU64 ((v.drop 1).take 8)

/-- The rebuild takes the value for a row of the catalogued table. -/
def TakenFor (s : MapSql C ck) (v : Bytes) (d : TableDef) : Prop :=
  9 ≤ v.length ∧ v.head? = some tagRow ∧ s.tableByID (rowId v) = some d

variable {d : TableDef} {v : Bytes}

/-- The operations of a value, when there are any. -/
theorem leafOps_taken (h : TakenFor s v d) : leafOps G s v = (do
    let row ← wrapWith "rebuild: table %s: %w" [.key d.name] (decodeRow G.round32 d.columns (v.drop 9))
    let pkEnc ← encodePK d row
    pure ({ key := scanKey (rowId v) pkEnc } :: indexInsertOps d row pkEnc)) := by
  obtain ⟨hlen, hhead, hd⟩ := h
  have hid : s.tableByID (Bytes.toU64 ((v.drop 1).take 8)) = some d := hd
  unfold leafOps
  rw [if_neg (by rw [not_or, not_lt, not_not]; exact ⟨hlen, hhead⟩), hid]
  rfl

theorem leafOps_other (h : ∀ d, ¬ TakenFor s v d) : leafOps G s v = .ok [] := by
  unfold leafOps
  split
  · rfl
  · rename_i hshape
    rw [not_or, not_lt, not_not] at hshape
    cases hd : s.tableByID (Bytes.toU64 ((v.drop 1).take 8)) with
    | none => rfl
    | some d => exact absurd ⟨hshape.1, hshape.2, hd⟩ (h d)

variable {ops : List BatchOp}

/-- **What the operations of a value are.** -/
theorem leafOps_ok (h : leafOps G s v = .ok ops) :
    (ops = [] ∧ ∀ d, ¬ TakenFor s v d) ∨ ∃ d row pk, TakenFor s v d ∧
      decodeRow G.round32 d.columns (v.drop 9) = .ok row ∧ encodePK d row = .ok pk ∧
      ops = { key := scanKey (rowId v) pk } :: indexInsertOps d row pk := by
  by_cases htaken : ∃ d, TakenFor s v d
  · obtain ⟨d, hd⟩ := htaken
    rw [leafOps_taken hd] at h
    obtain ⟨row, hrow, h₁⟩ := Except.ok_of_bind h
    obtain ⟨pk, hpk, h₂⟩ := Except.ok_of_bind h₁
    exact .inr ⟨d, row, pk, hd, wrapWith_eq_ok hrow, hpk, (Except.ok.inj h₂).symm⟩
  · have hnot : ∀ d, ¬ TakenFor s v d := fun d hd => htaken ⟨d, hd⟩
    rw [leafOps_other hnot] at h
    exact .inl ⟨(Except.ok.inj h).symm, hnot⟩

theorem rowId_payload (id : UInt64) (data : Bytes) : rowId (rowPayload id data) = id := by
  unfold rowId rowPayload
  rw [List.drop_one, List.tail_cons, ← Bytes.length_u64 id, List.take_left, Bytes.toU64_u64]

theorem takenFor_payload {id : UInt64} {data : Bytes} (hd : s.tableByID id = some d) :
    TakenFor s (rowPayload id data) d := by
  refine ⟨?_, rfl, by rw [rowId_payload]; exact hd⟩
  unfold rowPayload
  rw [List.length_cons, List.length_append, Bytes.length_u64]
  omega

/-- All values have operations exactly when each one has. -/
theorem allOps_ok_iff {vs : List Bytes} : (∃ all, allOps G s vs = .ok all) ↔ ∀ v ∈ vs, ∃ ops, leafOps G s v = .ok ops := by
  induction vs with
  | nil => exact ⟨fun _ v hv => absurd hv List.not_mem_nil, fun _ => ⟨[], rfl⟩⟩
  | cons v vs ih =>
    constructor
    · rintro ⟨all, hall⟩ v' hv'
      obtain ⟨ops, hops, h₁⟩ := Except.ok_of_bind hall
      obtain ⟨rest, hrest, -⟩ := Except.ok_of_bind h₁
      rcases List.mem_cons.1 hv' with rfl | hv'
      · exact ⟨ops, hops⟩
      · exact ih.1 ⟨rest, hrest⟩ v' hv'
    · intro hall
      obtain ⟨ops, hops⟩ := hall v List.mem_cons_self
      obtain ⟨rest, hrest⟩ := ih.2 fun v' hv' => hall v' (List.mem_cons_of_mem _ hv')
      exact ⟨ops ++ rest, by rw [allOps, hops, hrest]; rfl⟩

variable {op : BatchOp}

theorem mem_allOps {vs : List Bytes} : ∀ {all : List BatchOp}, allOps G s vs = .ok all →
    (op ∈ all ↔ ∃ v ∈ vs, ∃ ops, leafOps G s v = .ok ops ∧ op ∈ ops) := by
  induction vs with
  | nil =>
    intro all hall
    cases hall
    exact ⟨fun h => absurd h List.not_mem_nil, by rintro ⟨v, hv, -⟩; cases hv⟩
  | cons v vs ih =>
    intro all hall
    obtain ⟨ops, hops, h₁⟩ := Except.ok_of_bind hall
    obtain ⟨rest, hrest, h₂⟩ := Except.ok_of_bind h₁
    cases h₂
    rw [List.mem_append, ih hrest]
    constructor
    · rintro (hop | ⟨v', hv', hrow⟩)
      · exact ⟨v, List.mem_cons_self, ops, hops, hop⟩
      · exact ⟨v', List.mem_cons_of_mem _ hv', hrow⟩
    · rintro ⟨v', hv', ops', hops', hop⟩
      rcases List.mem_cons.1 hv' with rfl | hv'
      · rw [hops] at hops'
        cases hops'
        exact .inl hop
      · exact .inr ⟨v', hv', ops', hops', hop⟩

/-! ## Index operations -/

/-- The operations of a rebuild for a row put the entries of its indexes. -/
theorem mem_indexInsertOps {row : Row} {pk : Bytes} (h : op ∈ indexInsertOps d row pk) :
    ∃ idx ∈ d.indexes, ∃ cols, encodeIndexCols d idx row = .ok cols ∧ op = ⟨entryKey idx.id cols.1 pk, pk, false⟩ := by
  unfold indexInsertOps at h
  cases hops : indexOps d row pk false with
  | error e =>
    rw [hops] at h
    cases h
  | ok ops =>
    rw [hops] at h
    exact (indexOpsOf_ok hops).1 op h

/-! ## Ledgers -/

/-- A store whose catalog has just been loaded from its ledger, which the SQL layer wrote. -/
structure Loaded (G : GoLib) (k : ℕ) (s : MapSql C ck) : Prop where
  cat : CatInv G k s
  loads : loadCatalog G (newSqlStore s.led) = .ok () s
  paths : PathsDistinct C ck s.led.vals

/-- The rows are what the SQL layer writes: under a row key stands the payload of a row that decodes, has the primary key of
its key and is taken by every index. No other value of the layer has the tag of a row. -/
structure SqlRows (G : GoLib) (s : MapSql C ck) : Prop where
  payload : ∀ id pk raw, s.led.vals.get (rowKey id pk) = some raw → ∃ data, raw = rowPayload id data
  decodes : ∀ id pk d data, s.tableByID id = some d → s.led.vals.get (rowKey id pk) = some (rowPayload id data) →
    ∃ row ops, decodeRow G.round32 d.columns data = .ok row ∧ encodePK d row = .ok pk ∧ indexOps d row pk false = .ok ops
  tags : ∀ key : SqlKey, (∀ id pk, key ≠ .row id pk) → ∀ v, s.led.vals.get key.bytes = some v → v.head? ≠ some tagRow

/-- Every stored row has its operations. -/
theorem SqlRows.leafOps (h : SqlRows G s) {id : UInt64} {pk raw : Bytes} (hraw : s.led.vals.get (rowKey id pk) = some raw)
    (hd : s.tableByID id = some d) : ∃ data row ops, raw = rowPayload id data ∧ StoredRow G s id pk d row ∧
      indexOps d row pk false = .ok ops ∧ ImmutableLedger.leafOps G s raw = .ok ({ key := scanKey id pk } :: ops) := by
  obtain ⟨data, rfl⟩ := h.payload id pk raw hraw
  obtain ⟨row, ops, hrow, hpk, hops⟩ := h.decodes id pk d data hd hraw
  refine ⟨data, row, ops, rfl, ⟨hd, data, hraw, hrow⟩, hops, ?_⟩
  rw [leafOps_taken (takenFor_payload hd), drop_payload, hrow, rowId_payload]
  show (encodePK d row >>= fun pkEnc => Except.ok ({ key := scanKey id pkEnc } :: indexInsertOps d row pkEnc)) = _
  rw [hpk]
  show Except.ok _ = _
  unfold indexInsertOps
  rw [hops]

/-- A value of the SQL layer that is taken for a row is that row. -/
theorem SqlRows.taken (h : SqlRows G s) {key : SqlKey}
    (hv : s.led.vals.get key.bytes = some v) (htaken : TakenFor s v d) : ∃ pk row,
      StoredRow G s (rowId v) pk d row ∧ decodeRow G.round32 d.columns (v.drop 9) = .ok row ∧ encodePK d row = .ok pk := by
  cases key with
  | row id pk =>
    obtain ⟨data, rfl⟩ := h.payload id pk v hv
    have hd := htaken.2.2
    rw [rowId_payload] at hd ⊢
    obtain ⟨row, -, hrow, hpk, -⟩ := h.decodes id pk d data hd hv
    exact ⟨pk, row, ⟨hd, data, hv, hrow⟩, by rw [drop_payload]; exact hrow, hpk⟩
  | catalog => exact absurd htaken.2.1 (h.tags .catalog (by simp) v hv)
  | table lower => exact absurd htaken.2.1 (h.tags (.table lower) (by simp) v hv)
  | counter id => exact absurd htaken.2.1 (h.tags (.counter id) (by simp) v hv)

/-- **The operations of a stored row are image entries**, and those of the other values of the SQL layer are none. -/
theorem SqlRows.inImage (h : SqlRows G s) {key : SqlKey} (hv : s.led.vals.get key.bytes = some v)
    (hops : ImmutableLedger.leafOps G s v = .ok ops) (hop : op ∈ ops) :
    op.delete = false ∧ InImage G s op.key op.value := by
  rcases leafOps_ok hops with ⟨rfl, -⟩ | ⟨d, row, pk, htaken, hrow, hpk, rfl⟩
  · cases hop
  · obtain ⟨pk', row', hstored, hrow', hpk'⟩ := h.taken hv htaken
    rw [hrow] at hrow'
    cases hrow'
    obtain rfl : pk = pk' := Except.ok.inj (hpk.symm.trans hpk')
    rcases List.mem_cons.1 hop with rfl | hop
    · exact ⟨rfl, .inl ⟨rfl, rowId v, pk, d, row, hstored, rfl⟩⟩
    · obtain ⟨idx, hidx, cols, hcols, rfl⟩ := mem_indexInsertOps hop
      exact ⟨rfl, .inr ⟨rowId v, d, row, idx, cols, hstored, hidx, hcols, rfl⟩⟩

variable {key value : Bytes}

/-- Every image entry is written for the value of its row. -/
theorem SqlRows.written (h : SqlRows G s) (himg : InImage G s key value) :
    ∃ rk v ops, s.led.vals.get rk = some v ∧ ImmutableLedger.leafOps G s v = .ok ops ∧
      (⟨key, value, false⟩ : BatchOp) ∈ ops := by
  rcases himg with ⟨rfl, id, pk, d, row, ⟨hd, data, hraw, -⟩, rfl⟩ | ⟨id, d, row, idx, cols, ⟨hd, data, hraw, hrow⟩, hidx,
    hcols, rfl⟩
  · obtain ⟨-, -, ops, -, -, -, hops⟩ := h.leafOps hraw hd
    exact ⟨_, _, _, hraw, hops, List.mem_cons_self⟩
  · obtain ⟨data', row', ops, hpay, ⟨-, data'', hraw', hrow'⟩, hidxOps, hops⟩ := h.leafOps hraw hd
    -- both decode the same stored bytes
    rw [hraw] at hraw'
    have hdata : data = data'' := by
      rw [← drop_payload id data, Option.some.inj hraw', drop_payload]
    rw [← hdata, hrow] at hrow'
    cases hrow'
    obtain ⟨cols', hcols', hmem⟩ := (indexOpsOf_ok hidxOps).2 idx hidx
    rw [hcols] at hcols'
    cases hcols'
    exact ⟨_, _, _, hraw, hops, List.mem_cons_of_mem _ hmem⟩

/-! ## After a rebuild -/

/-- The operations of a value put keys of the derived keyspace; those on index keys are entries of their primary key. -/
theorem put_of_leafOps (hops : leafOps G s v = .ok ops) (hop : op ∈ ops) :
    op.delete = false ∧ ((IsScanKey op.key ∧ op.value = []) ∨ (IsIndexKey op.key ∧ EntryOf s op.key op.value)) := by
  rcases leafOps_ok hops with ⟨rfl, -⟩ | ⟨d, row, pk, htaken, hrow, hpk, rfl⟩
  · cases hop
  · rcases List.mem_cons.1 hop with rfl | hop
    · exact ⟨rfl, .inl ⟨isScanKey_scanKey _ _, rfl⟩⟩
    · obtain ⟨idx, hidx, cols, hcols, rfl⟩ := mem_indexInsertOps hop
      exact ⟨rfl, .inr ⟨isIndexKey_entryKey _ _ _, rowId v, d, idx, row, cols, htaken.2.2, hidx, hcols, rfl⟩⟩

theorem markerOp_key_ne {key : Bytes} (hkey : IsScanKey key ∨ IsIndexKey key) (version : UInt64) :
    (markerOp version).key ≠ key := by
  rintro rfl
  rcases hkey with hscan | hidx
  · exact absurd hscan (show some scanMetaKey ≠ some scanPrefix by decide)
  · exact absurd hidx (show some scanMetaKey ≠ some secondaryPrefix by decide)

section
variable {all : List BatchOp} (hs : Loaded G k s) (hall : allOps G s (leafValues s.led) = .ok all)
include hs hall

/-- The record of a derived key after the rebuild: what some value puts there, or what was there. -/
theorem get_rebuilt_put (hop : op ∈ all) (d : MemBackend) (version : UInt64) :
    (MemBackend.writeBatch d (all ++ [markerOp version])).get op.key = some op.value := by
  obtain ⟨v, -, ops, hops, hmem⟩ := (mem_allOps hall).1 hop
  obtain ⟨-, hkey⟩ := put_of_leafOps hops hmem
  refine MemBackend.get_writeBatch ⟨op, List.mem_append_left _ hop, rfl⟩ (fun op' hop' hk => ?_) d
  rcases List.mem_append.1 hop' with hop' | hop'
  · obtain ⟨v', -, ops', hops', hmem'⟩ := (mem_allOps hall).1 hop'
    obtain ⟨hdel, hkey'⟩ := put_of_leafOps hops' hmem'
    rw [hdel]
    refine congrArg some ?_
    rw [hk] at hkey'
    -- two operations on one key put one value
    rcases hkey with ⟨hscan, hval⟩ | ⟨hidx, hentry⟩
    · rcases hkey' with ⟨-, hval'⟩ | ⟨hidx', -⟩
      · rw [hval, hval']
      · exact absurd hidx' (not_isIndexKey_of_isScanKey hscan)
    · rcases hkey' with ⟨hscan', -⟩ | ⟨-, hentry'⟩
      · exact absurd hidx (not_isIndexKey_of_isScanKey hscan')
      · exact hentry'.unique hs.cat.indexesApart hentry
  · obtain rfl := List.mem_singleton.1 hop'
    exact absurd hk (markerOp_key_ne (hkey.imp And.left And.left) version)

omit hs hall in
theorem get_rebuilt_other {key : Bytes} (hkey : IsScanKey key ∨ IsIndexKey key) (hnone : ∀ op ∈ all, op.key ≠ key)
    (d : MemBackend) (version : UInt64) :
    (MemBackend.writeBatch d (all ++ [markerOp version])).get key = d.get key := by
  refine MemBackend.get_writeBatch_of_notin (fun op hop hk => ?_) d
  rcases List.mem_append.1 hop with hop | hop
  · exact hnone op hop hk
  · obtain rfl := List.mem_singleton.1 hop
    exact markerOp_key_ne hkey version hk

/-- An image entry is among the operations. -/
theorem SqlRows.mem_all (hrows : SqlRows G s) (himg : InImage G s key value) :
    (⟨key, value, false⟩ : BatchOp) ∈ all := by
  obtain ⟨rk, v, ops, hv, hops, hmem⟩ := hrows.written himg
  exact (mem_allOps hall).2 ⟨v, (mem_leaves hs.paths).2 ⟨rk, hv⟩, ops, hops, hmem⟩

end

/-- `Open` on a loaded store is the rebuild. -/
theorem Loaded.open_eq (hs : Loaded G k s) : openSql G s.led = reconcileScanSpace G s := by
  unfold openSql openSqlM
  rw [run_bind_ok hs.loads]

/-! ## Plain values beside the tables -/

/-- A value that does no harm: if it is taken for a row, it decodes, and its primary key is that of a stored row. -/
def Harmless (G : GoLib) (s : MapSql C ck) (v : Bytes) : Prop :=
  ∀ d, TakenFor s v d → ∃ row pk, decodeRow G.round32 d.columns (v.drop 9) = .ok row ∧ encodePK d row = .ok pk ∧
    s.led.vals.get (rowKey (rowId v) pk) ≠ none

/-- The scan keyspace has an entry exactly for each stored row of a catalogued table. -/
def ScanExact (s s' : MapSql C ck) : Prop :=
  ∀ key, IsScanKey key → (s'.led.derived.get key ≠ none ↔
    ∃ id pk d, s.tableByID id = some d ∧ s.led.vals.get (rowKey id pk) ≠ none ∧ key = scanKey id pk)

theorem SqlRows.image_of_stored (h : SqlRows G s) {id : UInt64} {pk : Bytes} (hd : s.tableByID id = some d)
    (hraw : s.led.vals.get (rowKey id pk) ≠ none) : InImage G s (scanKey id pk) [] := by
  obtain ⟨raw, hraw⟩ := Option.ne_none_iff_exists'.1 hraw
  obtain ⟨-, row, -, -, hstored, -⟩ := h.leafOps hraw hd
  exact .inl ⟨rfl, id, pk, d, row, hstored, rfl⟩

/-- A harmless value has operations. -/
theorem Harmless.leafOps (h : Harmless G s v) : ∃ ops, ImmutableLedger.leafOps G s v = .ok ops := by
  by_cases htaken : ∃ d, TakenFor s v d
  · obtain ⟨d, hd⟩ := htaken
    obtain ⟨row, pk, hrow, hpk, -⟩ := h d hd
    rw [leafOps_taken hd, hrow]
    show ∃ ops, (encodePK d row >>= fun pkEnc => Except.ok ({ key := scanKey (rowId v) pkEnc } :: indexInsertOps d row pkEnc)) =
      .ok ops
    rw [hpk]
    exact ⟨_, rfl⟩
  · exact ⟨[], leafOps_other fun d hd => htaken ⟨d, hd⟩⟩

/-- A value of the SQL layer is harmless. -/
theorem SqlRows.harmless (h : SqlRows G s) {key : SqlKey} (hv : s.led.vals.get key.bytes = some v) :
    Harmless G s v := by
  intro d htaken
  obtain ⟨pk, row, ⟨-, data, hraw, -⟩, hrow, hpk⟩ := h.taken hv htaken
  exact ⟨row, pk, hrow, hpk, hraw ▸ Option.some_ne_none _⟩

/-- **Plain values beside the tables.** On a ledger whose rows are those of the SQL layer and whose other keys hold arbitrary
values, with empty derived keyspaces, `Open` succeeds and rebuilds the scan keyspace of the stored rows exactly when none of
the other values is harmful. (A ledger at version 0 holds nothing.) -/
theorem coexists_iff (hs : Loaded G k s) (hrows : SqlRows G s) (hplan : s.led.plan = [])
    (hempty : s.led.derived = OrdMap.empty) (hversion : s.led.version = 0 → ∀ key, s.led.vals.get key = none) :
    (∃ s', openSql G s.led = .ok () s' ∧ ScanExact s s') ↔
      ∀ key v, (∀ sk : SqlKey, key ≠ sk.bytes) → s.led.vals.get key = some v → Harmless G s v := by
  rw [hs.open_eq]
  by_cases hv : s.led.version = 0
  · -- nothing is stored, and nothing is rebuilt
    have hnone := hversion hv
    have hcur : reconcileScanSpace G s = .ok () s := by
      refine reconcile_current ?_
      rw [hempty, hv]
      rfl
    refine ⟨fun _ key v _ hkv => ?_, fun _ => ⟨s, hcur, fun key _ => ?_⟩⟩
    · rw [hnone key] at hkv
      cases hkv
    · rw [hempty]
      refine ⟨fun h => absurd rfl h, ?_⟩
      rintro ⟨id, pk, d, -, hraw, -⟩
      exact absurd (hnone _) hraw
  have hmarker : appliedOf s.led.derived ≠ s.led.version := by
    rw [hempty]
    exact fun h => hv h.symm
  constructor
  · rintro ⟨s', hopen, hexact⟩ key v - hkv d htaken
    -- the rebuild went through every leaf
    obtain ⟨D, n, ⟨u, hrun, all, hres, hD⟩ | ⟨e, hrun, -⟩⟩ := derives_reconcile (G := G) hmarker
    · rw [hrun] at hopen
      cases hopen
      have hleaf : v ∈ leafValues s.led := (mem_leaves hs.paths).2 ⟨key, hkv⟩
      obtain ⟨ops, hops⟩ := allOps_ok_iff.1 ⟨all, hres⟩ v hleaf
      rcases leafOps_ok hops with ⟨-, hnot⟩ | ⟨d', row, pk, htaken', hrow, hpk, rfl⟩
      · exact absurd htaken (hnot d)
      obtain rfl : d = d' := Option.some.inj (htaken.2.2.symm.trans htaken'.2.2)
      have hput := get_rebuilt_put hs hres ((mem_allOps hres).2 ⟨v, hleaf, _, hops, List.mem_cons_self⟩)
        (unscanned s.led.derived) s.led.version
      rw [← hD] at hput
      have hentry := (hexact (scanKey (rowId v) pk) (isScanKey_scanKey _ _)).1 (hput ▸ Option.some_ne_none _)
      obtain ⟨id, pk', d', -, hraw, hkey⟩ := hentry
      obtain ⟨hid, rfl⟩ := scanKey_inj hkey
      rw [← hid] at hraw
      exact ⟨row, pk, hrow, hpk, hraw⟩
    · rw [hrun] at hopen
      cases hopen
  · intro hharm
    have hall : ∀ v ∈ leafValues s.led, Harmless G s v := by
      intro v hleaf
      obtain ⟨key, hkv⟩ := (mem_leaves hs.paths).1 hleaf
      by_cases hsql : ∃ sk : SqlKey, key = sk.bytes
      · obtain ⟨sk, rfl⟩ := hsql
        exact hrows.harmless hkv
      · exact hharm key v (fun sk hsk => hsql ⟨sk, hsk⟩) hkv
    obtain ⟨all, hres⟩ := allOps_ok_iff.2 fun v hv => (hall v hv).leafOps
    obtain ⟨D, n, ⟨u, hrun, all', hres', hD⟩ | ⟨e, -, he⟩⟩ := derives_reconcile (G := G) hmarker
    swap
    · cases (he hplan).symm.trans hres
    obtain rfl : all = all' := Except.ok.inj (hres.symm.trans hres')
    refine ⟨_, hrun, fun key hkey => ?_⟩
    show D.get key ≠ none ↔ _
    rw [hD]
    constructor
    · intro hsome
      -- nothing was there before, so some value put the entry
      by_cases hop : ∃ op ∈ all, op.key = key
      · obtain ⟨op, hop, rfl⟩ := hop
        obtain ⟨v, hleaf, ops, hops, hmem⟩ := (mem_allOps hres).1 hop
        rcases leafOps_ok hops with ⟨rfl, -⟩ | ⟨d, row, pk, htaken, hrow, hpk, rfl⟩
        · cases hmem
        · rcases List.mem_cons.1 hmem with rfl | hmem
          · obtain ⟨row', pk', hrow', hpk', hraw⟩ := hall v hleaf d htaken
            rw [hrow] at hrow'
            cases hrow'
            rw [hpk] at hpk'
            cases hpk'
            exact ⟨rowId v, pk, d, htaken.2.2, hraw, rfl⟩
          · obtain ⟨idx, -, cols, -, rfl⟩ := mem_indexInsertOps hmem
            exact absurd (isIndexKey_entryKey _ _ _) (not_isIndexKey_of_isScanKey hkey)
      · rw [get_rebuilt_other (.inl hkey) (fun op h he => hop ⟨op, h, he⟩), get_unscanned, if_pos hkey] at hsome
        exact absurd rfl hsome
    · rintro ⟨id, pk, d, hd, hraw, rfl⟩
      have hmem := hrows.mem_all hs hres (hrows.image_of_stored hd hraw)
      have hput := get_rebuilt_put hs hres hmem (unscanned s.led.derived) s.led.version
      exact fun hnone => by cases hnone.symm.trans hput

/-! ## Leftovers in the derived keyspace -/

theorem storedRow_congr (ht : s'.tables = s.tables) (hd : s'.defs = s.defs) (hv : s'.led.vals = s.led.vals) {id : UInt64}
    {pk : Bytes} {row : Row} : StoredRow G s' id pk d row ↔ StoredRow G s id pk d row := by
  unfold StoredRow SqlStore.tableByID
  rw [ht, hd, hv]

theorem inImage_congr (ht : s'.tables = s.tables) (hd : s'.defs = s.defs) (hv : s'.led.vals = s.led.vals) : InImage G s' key value ↔ InImage G s key value := by
  unfold InImage
  simp only [storedRow_congr ht hd hv]

/-- The entries that the rebuild makes for the chain head are image entries. -/
def HeadHarmless (G : GoLib) (s : MapSql C ck) : Prop :=
  ∀ v ops, s.led.vals.get historyKey = some v → leafOps G s v = .ok ops → ∀ op ∈ ops, ∃ value, InImage G s op.key value

/-- **A rebuild over leftovers.** On a ledger that holds values of the SQL layer and possibly the chain head, with any content
of the derived keyspaces under a marker that is not the ledger's version: after `Open` succeeds the derived keyspaces are
exact exactly when every index entry that was there has a key of the image, and the chain head is not taken for a row that
would add another entry. -/
theorem rebuilt_exact_iff (hs : Loaded G k s) (hrows : SqlRows G s)
    (honly : ∀ key v, s.led.vals.get key = some v → key = historyKey ∨ ∃ sk : SqlKey, key = sk.bytes)
    (hmarker : appliedOf s.led.derived ≠ s.led.version) (hopen : openSql G s.led = .ok () s') :
    DerivedExact G s' ↔ (∀ key v, IsIndexKey key → s.led.derived.get key = some v → ∃ value, InImage G s key value) ∧
      HeadHarmless G s := by
  rw [hs.open_eq] at hopen
  -- the rebuild went through every leaf
  obtain ⟨D, n, ⟨u, hrun, all, hall, hD⟩ | ⟨e, hrun, -⟩⟩ := derives_reconcile (G := G) hmarker
  swap
  · rw [hrun] at hopen
    cases hopen
  rw [hrun] at hopen
  obtain rfl := (EStateM.Result.ok.inj hopen).2
  have hderived : (s.withDerived D n).led.derived = D := rfl
  have hcongr : ∀ {key value}, InImage G (s.withDerived D n) key value ↔ InImage G s key value := inImage_congr rfl rfl rfl
  unfold DerivedExact
  simp only [hderived, hcongr]
  constructor
  · intro hexact
    -- an entry of a key that the rebuild leaves is an entry afterwards
    refine ⟨fun key v hkey hv => ?_, fun v ops hv hops op hop => ?_⟩
    · by_cases hop : ∃ op ∈ all, op.key = key
      · obtain ⟨op, hop, rfl⟩ := hop
        exact ⟨op.value, (hexact _ _ (.inr hkey)).1 (hD ▸ get_rebuilt_put hs hall hop _ _)⟩
      · refine ⟨v, (hexact _ _ (.inr hkey)).1 ?_⟩
        rw [hD, get_rebuilt_other (.inr hkey) fun op h he => hop ⟨op, h, he⟩, get_unscanned,
          if_neg fun hscan => not_isIndexKey_of_isScanKey hscan hkey]
        exact hv
    · have hmem : op ∈ all := (mem_allOps hall).2 ⟨v, (mem_leaves hs.paths).2 ⟨_, hv⟩, ops, hops, hop⟩
      have hkey : IsScanKey op.key ∨ IsIndexKey op.key := (put_of_leafOps hops hop).2.imp And.left And.left
      exact ⟨op.value, (hexact _ _ hkey).1 (hD ▸ get_rebuilt_put hs hall hmem _ _)⟩
  · rintro ⟨hleft, hhead⟩ key value hkey
    by_cases hop : ∃ op ∈ all, op.key = key
    · obtain ⟨op, hop, rfl⟩ := hop
      obtain ⟨v, hleaf, ops, hops, hmem⟩ := (mem_allOps hall).1 hop
      -- every operation is on a key of the image, with the value of the image
      have himg : InImage G s op.key op.value := by
        obtain ⟨rk, hv⟩ := (mem_leaves hs.paths).1 hleaf
        rcases honly rk v hv with rfl | ⟨sk, rfl⟩
        · obtain ⟨value', himg⟩ := hhead v ops hv hops op hmem
          have hval : op.value = value' := by
            rcases (put_of_leafOps hops hmem).2 with ⟨hscan, hnil⟩ | ⟨hidx, hentry⟩
            · rw [hnil, himg.scan hscan]
            · exact hentry.unique hs.cat.indexesApart (himg.entryOf hidx)
          rw [hval]
          exact himg
        · exact (hrows.inImage hv hops hmem).2
      rw [hD, get_rebuilt_put hs hall hop]
      exact ⟨fun h => Option.some.inj h ▸ himg, fun h => congrArg some (himg.unique hs.cat.indexesApart h)⟩
    · have hnot : ∀ value, ¬ InImage G s key value := fun value himg => hop ⟨_, hrows.mem_all hs hall himg, rfl⟩
      rw [hD, get_rebuilt_other hkey fun op h he => hop ⟨op, h, he⟩, get_unscanned]
      refine ⟨fun h => ?_, fun h => absurd h (hnot value)⟩
      split at h
      · cases h
      · rename_i hscan
        obtain ⟨value', himg⟩ := hleft key value (hkey.resolve_left hscan) h
        exact absurd himg (hnot value')

/-! ## A table of names -/

theorem pathsDistinct_of_nodup {vals : OrdMap Bytes Bytes} (h : (vals.entries.map fun e => pathOf C ck e.1).Nodup) :
    PathsDistinct C ck vals := by
  intro a ha b hb hab
  obtain ⟨v, hv⟩ := Option.isSome_iff_exists.1 ha
  obtain ⟨v', hv'⟩ := Option.isSome_iff_exists.1 hb
  exact congrArg Prod.fst (List.inj_on_of_nodup_map h (OrdMap.mem_entries.2 hv) (OrdMap.mem_entries.2 hv') hab)

/-- What `loadCatalog` makes of a ledger that the SQL layer wrote. -/
theorem CatInv.loaded {st : MapSql C ck} (h : CatInv G k st) (hpaths : PathsDistinct C ck st.led.vals) :
    Loaded G k (loadCatalog G (newSqlStore st.led)).state ∧ (loadCatalog G (newSqlStore st.led)).state.led = st.led := by
  obtain ⟨s₁, hload, hled, hmeta, htables, hdefs, -⟩ := h.loads
  rw [hload]
  refine ⟨⟨h.shape ⟨hmeta, htables, fun lower id d hid hd => ?_, ?_, fun lower => ?_⟩, ?_, ?_⟩, hled⟩
  · obtain ⟨d', hd', hper, -⟩ := hdefs lower id d hid hd
    exact ⟨d', hd', hper⟩
  · show s₁.led.vals.get _ = _
    rw [hled]
  · show s₁.led.vals.get _ = _
    rw [hled]
  · show loadCatalog G (newSqlStore s₁.led) = _
    rw [hled]
    exact hload
  · show PathsDistinct C ck s₁.led.vals
    rw [hled]
    exact hpaths

/-- The store after the statements that create the table of names. -/
def namesCreated : SqlStore (MapLedger quickCrypto []) :=
  (Machine.run (SqlStore.ddl sampleLib) (emptySql quickCrypto []) namesDdl).2

/-- The bytes of the row `(1, 'y')`. -/
def namesRow : Bytes := rowPresent :: encInt64 1 ++ [rowPresent, 1, 121]

/-- The ledger with that row. Another key may hold a plain value, and the derived keyspace is what it happens to be. -/
def namesLedger (plain : Option Bytes) (derived : MemBackend) : SqlStore (MapLedger quickCrypto []) :=
  let rows := namesCreated.led.vals.insert (rowKey 1 (encInt64 1)) (rowPayload 1 namesRow)
  { namesCreated with led := { namesCreated.led with
      vals := match plain with
        | none => rows
        | some v => rows.insert (ascii "app") v
      version := 3
      derived := derived
      plan := [] } }

/-- The store that `Open` loads from it. -/
def namesLoaded (plain : Option Bytes) (derived : MemBackend) : SqlStore (MapLedger quickCrypto []) :=
  (loadCatalog sampleLib (newSqlStore (namesLedger plain derived).led)).state

theorem ascii_app_ne (key : SqlKey) : key.bytes ≠ ascii "app" := by
  intro h
  have hhead : key.bytes.head? = some 115 := by cases key <;> rfl
  rw [h] at hhead
  exact absurd hhead (by decide)

section
variable (plain : Option Bytes) (derived : MemBackend)

theorem namesLedger_get (key : SqlKey) : (namesLedger plain derived).led.vals.get key.bytes =
    if key = .row 1 (encInt64 1) then some (rowPayload 1 namesRow) else namesCreated.led.vals.get key.bytes := by
  have hrow : (namesCreated.led.vals.insert (rowKey 1 (encInt64 1)) (rowPayload 1 namesRow)).get key.bytes =
      if key = .row 1 (encInt64 1) then some (rowPayload 1 namesRow) else namesCreated.led.vals.get key.bytes := by
    rw [OrdMap.get_insert]
    have hkey : key.bytes = rowKey 1 (encInt64 1) ↔ key = .row 1 (encInt64 1) :=
      SqlKey.bytes_eq_iff (b := .row 1 (encInt64 1))
    by_cases h : key = .row 1 (encInt64 1)
    · rw [if_pos (hkey.2 h), if_pos h]
    · rw [if_neg fun he => h (hkey.1 he), if_neg h]
  cases plain with
  | none => exact hrow
  | some v =>
    refine Eq.trans ?_ hrow
    exact (OrdMap.get_insert _ _ _ _).trans (if_neg (ascii_app_ne key))

/-- The catalog records. -/
theorem namesCreated_get {key : SqlKey} {v : Bytes} (h : namesCreated.led.vals.get key.bytes = some v) :
    (∀ id pk, key ≠ .row id pk) ∧ v.head? ≠ some tagRow := by
  have hall : ∀ e ∈ namesCreated.led.vals.entries, (e.1 = SqlKey.catalog.bytes ∨ e.1 = (SqlKey.table (ascii "names")).bytes) ∧
      e.2.head? ≠ some tagRow := by decide
  obtain ⟨hkey, hhead⟩ := hall _ (OrdMap.mem_entries.2 h)
  refine ⟨fun id pk hrow => ?_, hhead⟩
  rcases hkey with hkey | hkey
  · rw [SqlKey.bytes_inj hkey] at hrow
    cases hrow
  · rw [SqlKey.bytes_inj hkey] at hrow
    cases hrow

theorem namesLedger_cat : CatInv sampleLib 3 (namesLedger plain derived) := by
  have h₁ : CatInv sampleLib 1 (emptySql quickCrypto []) := Uncatalogued.catInv ⟨rfl, rfl, rfl⟩
  have h₂ := h₁.step sampleLib_ok (by decide) (c := namesDdl.head (by decide)) (by decide) trivial
  have h₃ := h₂.step sampleLib_ok (by decide) (c := namesDdl.getLast (by decide)) (by decide) trivial
  have hcreated : CatInv sampleLib 3 namesCreated := h₃
  refine hcreated.shape ⟨rfl, fun _ => rfl, fun _ _ d _ hd => ⟨d, hd, rfl⟩, ?_, fun lower => ?_⟩
  · rw [namesLedger_get, if_neg (by simp)]
  · rw [namesLedger_get, if_neg (by simp)]

variable {plain derived}

theorem namesLoaded_loaded
    (h : (((namesLedger plain derived).led.vals.entries).map fun e => pathOf quickCrypto [] e.1).Nodup) :
    Loaded sampleLib 3 (namesLoaded plain derived) ∧ (namesLoaded plain derived).led = (namesLedger plain derived).led :=
  (namesLedger_cat plain derived).loaded (pathsDistinct_of_nodup h)

/-- The catalog of the loaded store. -/
theorem namesLoaded_catalog :
    (∀ lower, (namesLoaded plain derived).tables.get lower = namesCreated.tables.get lower) ∧
      ∃ next, (namesLoaded plain derived).defs.get 1 = some { namesDef with autoIncNext := next } := by
  obtain ⟨s₁, hload, -, -, htables, hdefs, -⟩ := (namesLedger_cat plain derived).loads
  unfold namesLoaded
  rw [hload]
  have hl : namesCreated.tables.get (ascii "names") = some 1 := by decide
  have hdef : namesCreated.defs.get 1 = some namesDef := by decide
  obtain ⟨d, hd, hper, -⟩ := hdefs (ascii "names") 1 namesDef hl hdef
  have hback : d = { d.persistent with autoIncNext := d.autoIncNext } := rfl
  rw [hper] at hback
  exact ⟨htables, d.autoIncNext, hd.trans (congrArg some hback)⟩

/-- The only table. -/
theorem namesLoaded_table {id : UInt64} (h : (namesLoaded plain derived).tableByID id = some d) :
    id = 1 ∧ ∃ next, d = { namesDef with autoIncNext := next } := by
  obtain ⟨htables, next, hdef⟩ := @namesLoaded_catalog plain derived
  obtain ⟨⟨lower, hl⟩, hget⟩ := tableByID_iff.1 h
  rw [htables] at hl
  have hentries : ∀ e ∈ namesCreated.tables.entries, e.2 = 1 := by decide
  obtain rfl : id = 1 := hentries _ (OrdMap.mem_entries.2 hl)
  exact ⟨rfl, next, Option.some.inj (hget.symm.trans hdef)⟩

theorem namesLoaded_has : ∃ next, (namesLoaded plain derived).tableByID 1 = some { namesDef with autoIncNext := next } := by
  obtain ⟨htables, next, hdef⟩ := @namesLoaded_catalog plain derived
  exact ⟨next, tableByID_iff.2 ⟨⟨ascii "names", (htables _).trans (by decide)⟩, hdef⟩⟩

theorem namesLoaded_rows (hled : (namesLoaded plain derived).led = (namesLedger plain derived).led) :
    SqlRows sampleLib (namesLoaded plain derived) := by
  have hrow : ∀ {id pk raw}, (namesLoaded plain derived).led.vals.get (rowKey id pk) = some raw →
      id = 1 ∧ pk = encInt64 1 ∧ raw = rowPayload 1 namesRow := by
    intro id pk raw h
    rw [hled] at h
    have hget := namesLedger_get plain derived (.row id pk)
    rw [show (SqlKey.row id pk).bytes = rowKey id pk from rfl, h] at hget
    by_cases hk : SqlKey.row id pk = .row 1 (encInt64 1)
    · rw [if_pos hk] at hget
      obtain ⟨rfl, rfl⟩ := SqlKey.row.inj hk
      exact ⟨rfl, rfl, Option.some.inj hget⟩
    · rw [if_neg hk] at hget
      exact absurd rfl ((@namesCreated_get (.row id pk) raw hget.symm).1 id pk)
  refine ⟨fun id pk raw h => ?_, fun id pk d data hd h => ?_, fun key hkey v h => ?_⟩
  · obtain ⟨rfl, -, rfl⟩ := hrow h
    exact ⟨namesRow, rfl⟩
  · obtain ⟨rfl, rfl, hraw⟩ := hrow h
    obtain ⟨-, next, rfl⟩ := namesLoaded_table hd
    obtain rfl : data = namesRow := by
      rw [← drop_payload 1 data, hraw, drop_payload]
    exact ⟨[some (.int64 1), some (.string [121])], _, rfl, rfl, rfl⟩
  · rw [hled, namesLedger_get, if_neg (hkey _ _)] at h
    exact (namesCreated_get h).2

end

/-- What an application may store: nine bytes that start as a row of the table of names does. -/
def rowLike : Bytes := tagRow :: Bytes.u64 1

/-- **A plain value that breaks `Open`.** It is taken for a row of the table, and is none. -/
theorem open_fails_plain : Loaded sampleLib 3 (namesLoaded (some rowLike) OrdMap.empty) ∧
    SqlRows sampleLib (namesLoaded (some rowLike) OrdMap.empty) ∧
    (namesLoaded (some rowLike) OrdMap.empty).led.plan = [] ∧
    (namesLoaded (some rowLike) OrdMap.empty).led.derived = OrdMap.empty ∧
    (namesLoaded (some rowLike) OrdMap.empty).led.version = 3 ∧
    (openSql sampleLib (namesLoaded (some rowLike) OrdMap.empty).led).val.toOption = none := by
  obtain ⟨hloaded, hled⟩ := @namesLoaded_loaded (some rowLike) OrdMap.empty (by decide +kernel)
  exact ⟨hloaded, namesLoaded_rows hled, by rw [hled]; rfl, by rw [hled]; rfl, by rw [hled]; rfl, by decide +kernel⟩

/-- A plain value that is not taken for a row. -/
theorem coexists_hello : ∃ s', openSql sampleLib (namesLoaded (some (ascii "hello")) OrdMap.empty).led = .ok () s' ∧
    ScanExact (namesLoaded (some (ascii "hello")) OrdMap.empty) s' := by
  obtain ⟨hloaded, hled⟩ := @namesLoaded_loaded (some (ascii "hello")) OrdMap.empty (by decide +kernel)
  have hversion : (namesLoaded (some (ascii "hello")) OrdMap.empty).led.version = 3 := by rw [hled]; rfl
  refine (coexists_iff hloaded (namesLoaded_rows hled) (by rw [hled]; rfl) (by rw [hled]; rfl) fun h => ?_).2 ?_
  · rw [hversion] at h
    exact absurd h (by decide)
  · intro key v hkey hv d htaken
    -- the one other key holds the plain value
    have hall : ∀ e ∈ (namesLedger (some (ascii "hello")) OrdMap.empty).led.vals.entries,
        e.1 = SqlKey.catalog.bytes ∨ e.1 = (SqlKey.table (ascii "names")).bytes ∨
          e.1 = (SqlKey.row 1 (encInt64 1)).bytes ∨ e.2 = ascii "hello" := by decide +kernel
    rw [hled] at hv
    rcases hall _ (OrdMap.mem_entries.2 hv) with h | h | h | rfl
    · exact absurd h (hkey _)
    · exact absurd h (hkey _)
    · exact absurd h (hkey _)
    · exact absurd htaken.2.1 (by decide)

/-- What a crash between the ledger commit and the derived write leaves, when the row had another name before. -/
def leftovers (name : UInt8) : MemBackend :=
  ((OrdMap.empty.insert [scanMetaKey] (Bytes.u64 2)).insert (scanKey 1 (encInt64 1)) []).insert
    (entryKey 1 [1, name, 0, 0] (encInt64 1)) (encInt64 1)

theorem namesLoaded_only {derived : MemBackend}
    (hled : (namesLoaded none derived).led = (namesLedger none derived).led) :
    ∀ key v, (namesLoaded none derived).led.vals.get key = some v → key = historyKey ∨ ∃ sk : SqlKey, key = sk.bytes := by
  intro key v hv
  have hcreated : ∀ e ∈ namesCreated.led.vals.entries, e.1 = SqlKey.catalog.bytes ∨
      e.1 = (SqlKey.table (ascii "names")).bytes := by decide
  rw [hled] at hv
  have hget : (namesCreated.led.vals.insert (rowKey 1 (encInt64 1)) (rowPayload 1 namesRow)).get key = some v := hv
  rw [OrdMap.get_insert] at hget
  split at hget
  · rename_i hk
    exact .inr ⟨.row 1 (encInt64 1), hk⟩
  · rcases hcreated _ (OrdMap.mem_entries.2 hget) with h | h
    · exact .inr ⟨_, h⟩
    · exact .inr ⟨_, h⟩

/-- The image of the table of names has one index key, that of the name `y`. -/
theorem namesLoaded_image {plain : Option Bytes} {derived : MemBackend}
    (hled : (namesLoaded plain derived).led = (namesLedger plain derived).led)
    (h : InImage sampleLib (namesLoaded plain derived) key value) (hkey : IsIndexKey key) :
    key = entryKey 1 [1, 121, 0, 0] (encInt64 1) := by
  rcases h with ⟨-, id, pk, d, row, -, rfl⟩ | ⟨id, d, row, idx, cols, ⟨hd, data, hraw, hrow⟩, hidx, hcols, rfl⟩
  · exact absurd hkey (not_isIndexKey_of_isScanKey (isScanKey_scanKey id pk))
  · obtain ⟨rfl, next, rfl⟩ := namesLoaded_table hd
    have hget := namesLedger_get plain derived (.row 1 value)
    rw [hled] at hraw
    rw [show (SqlKey.row 1 value).bytes = rowKey 1 value from rfl, hraw] at hget
    by_cases hk : SqlKey.row 1 value = .row 1 (encInt64 1)
    · rw [if_pos hk] at hget
      obtain ⟨-, rfl⟩ := SqlKey.row.inj hk
      obtain rfl : data = namesRow := by
        rw [← drop_payload 1 data, Option.some.inj hget, drop_payload]
      cases hrow
      obtain rfl := List.mem_singleton.1 hidx
      cases hcols
      rfl
    · rw [if_neg hk] at hget
      exact absurd rfl ((@namesCreated_get (.row 1 value) _ hget.symm).1 1 value)

/-- **A stale index entry survives.** The row has the name `y`, and after `Open` the index still has an entry for `x`. -/
theorem open_keeps_stale : ∃ s', Loaded sampleLib 3 (namesLoaded none (leftovers 120)) ∧
    SqlRows sampleLib (namesLoaded none (leftovers 120)) ∧
    (∀ key v, (namesLoaded none (leftovers 120)).led.vals.get key = some v →
      key = historyKey ∨ ∃ sk : SqlKey, key = sk.bytes) ∧
    appliedOf (namesLoaded none (leftovers 120)).led.derived ≠ (namesLoaded none (leftovers 120)).led.version ∧
    openSql sampleLib (namesLoaded none (leftovers 120)).led = .ok () s' ∧ ¬ DerivedExact sampleLib s' := by
  obtain ⟨hloaded, hled⟩ := @namesLoaded_loaded none (leftovers 120) (by decide +kernel)
  have hok : (openSql sampleLib (namesLoaded none (leftovers 120)).led).val.toOption = some () := by decide +kernel
  have hstale : (openSql sampleLib (namesLoaded none (leftovers 120)).led).state.led.derived.get
      (entryKey 1 [1, 120, 0, 0] (encInt64 1)) = some (encInt64 1) := by decide +kernel
  cases hopen : openSql sampleLib (namesLoaded none (leftovers 120)).led with
  | error e s' =>
    rw [hopen] at hok
    cases hok
  | ok u s' =>
    rw [hopen] at hstale
    refine ⟨s', hloaded, namesLoaded_rows hled, namesLoaded_only hled, by decide +kernel, rfl, fun hexact => ?_⟩
    have himg := (hexact _ _ (.inr (isIndexKey_entryKey _ _ _))).1 hstale
    -- the catalog and the map are those that were loaded
    have hsame : SameMap (namesLoaded none (leftovers 120)) s' := by
      have hstay := reconcile_same (G := sampleLib) (namesLoaded none (leftovers 120))
      rw [← hloaded.open_eq, hopen] at hstay
      exact hstay
    obtain ⟨-, htables, hdefs, hvals⟩ := hsame
    have hkey := namesLoaded_image hled ((inImage_congr htables hdefs hvals).1 himg) (isIndexKey_entryKey _ _ _)
    exact absurd hkey (by decide)

/-- Leftovers that are entries of the row. -/
theorem rebuilt_exact_names : ∃ s', openSql sampleLib (namesLoaded none (leftovers 121)).led = .ok () s' ∧
    DerivedExact sampleLib s' := by
  obtain ⟨hloaded, hled⟩ := @namesLoaded_loaded none (leftovers 121) (by decide +kernel)
  have hok : (openSql sampleLib (namesLoaded none (leftovers 121)).led).val.toOption = some () := by decide +kernel
  cases hopen : openSql sampleLib (namesLoaded none (leftovers 121)).led with
  | error e s' =>
    rw [hopen] at hok
    cases hok
  | ok u s' =>
    refine ⟨s', rfl, (rebuilt_exact_iff hloaded (namesLoaded_rows hled) (namesLoaded_only hled) (by decide +kernel) hopen).2
      ⟨fun key v hkey hv => ?_, fun v ops hv => ?_⟩⟩
    · -- the one index entry is the entry of the row
      have hall : ∀ e ∈ (leftovers 121).entries, e.1.head? = some secondaryPrefix →
          e.1 = entryKey 1 [1, 121, 0, 0] (encInt64 1) := by decide +kernel
      have hderived : (namesLoaded none (leftovers 121)).led.derived = leftovers 121 := by rw [hled]; rfl
      rw [hderived] at hv
      obtain ⟨next, htable⟩ := @namesLoaded_has none (leftovers 121)
      refine ⟨encInt64 1, .inr ⟨1, _, [some (.int64 1), some (.string [121])], ⟨1, ascii "name", true, [1]⟩,
        ([1, 121, 0, 0], false), ⟨htable, namesRow, ?_, rfl⟩, List.mem_singleton_self _, rfl,
        hall _ (OrdMap.mem_entries.2 hv) hkey⟩⟩
      rw [hled]
      have hget := namesLedger_get none (leftovers 121) (.row 1 (encInt64 1))
      rw [if_pos rfl] at hget
      exact hget
    · have hnone : (namesLedger none (leftovers 121)).led.vals.get historyKey = none := by decide +kernel
      rw [hled, hnone] at hv
      cases hv

end ImmutableLedger
