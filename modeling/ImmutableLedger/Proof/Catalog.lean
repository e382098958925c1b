import ImmutableLedger.Sql.Programs
import ImmutableLedger.Sql.SampleLib
import ImmutableLedger.Lib.Machine

/-!
# The catalog survives a restart

The catalog lives in memory and, spread over several ledger keys, in the ledger. `Persisted` says that loading it from
the ledger gives the catalog in memory; `CatInv` is the invariant behind it.

A drop or a rename finds the table by `strings.ToLower` of its name and edits the persisted list by `strings.EqualFold`.
The two disagree on some names (`ſ` folds to `s` but is lower case; `İ` has the lower case `i` but folds to nothing
else), and then the list is wrong.

* `loadCatalog_run`: a catalog that satisfies the invariant loads back.
* `CatInv.step`: a statement keeps the invariant when folding and lower case agree on the listed names.
* `catalog_persisted_iff`: along a run of statements, the catalog is persisted throughout exactly when they do.
-/

namespace ImmutableLedger

open EStateM Machine

variable {C : Crypto} {ck : Bytes} {G : GoLib} {s s' : MapSql C ck}

/-! ## What persistence means -/

/-- The definition without the cached counter, which is persisted under a key of its own. -/
def TableDef.persistent (d : TableDef) : TableDef := { d with autoIncNext := 0 }

theorem TableDef.persistent_fields {d e : TableDef} (h : d.persistent = e.persistent) :
    d.id = e.id ∧ d.name = e.name ∧ d.columns = e.columns ∧ d.pkOrds = e.pkOrds ∧ d.indexes = e.indexes := by
  simp only [persistent, TableDef.mk.injEq] at h
  obtain ⟨hid, hname, hcols, hpk, -, hidx, -⟩ := h
  exact ⟨hid, hname, hcols, hpk, hidx⟩

/-- The definition catalogued under a lower-case name. -/
def SqlStore.defOf {L : Type} (s : SqlStore L) (lower : Bytes) : Option TableDef :=
  ((s.tables.get lower).bind s.defs.get).map TableDef.persistent

/-- Loading the catalog from the ledger gives the catalog in memory, and its ids are distinct. -/
structure Persisted (G : GoLib) (s : MapSql C ck) : Prop where
  loads : ∃ s', loadCatalog G (newSqlStore s.led) = .ok () s' ∧ s'.catMeta.nextTableID = s.catMeta.nextTableID ∧
    s'.catMeta.nextIndexID = s.catMeta.nextIndexID ∧ ∀ lower, s'.defOf lower = s.defOf lower
  tableIds : ∀ a b d e, s.defOf a = some d → s.defOf b = some e → d.id = e.id → a = b
  indexIds : ∀ a d, s.defOf a = some d → (d.indexes.map IndexDef.id).Nodup
  indexOwner : ∀ a b d e, s.defOf a = some d → s.defOf b = some e → ∀ x ∈ d.indexes, ∀ y ∈ e.indexes,
    x.id = y.id → a = b

/-- The ledger holds the catalog root `m`; before the first statement it holds none. -/
def RootStored (G : GoLib) (vals : OrdMap Bytes Bytes) (m : CatalogMeta) : Prop :=
  (vals.get SqlKey.catalog.bytes = none ∧ m = ⟨1, 1, []⟩) ∨
    ∃ raw, vals.get SqlKey.catalog.bytes = some (tagCatalogMeta :: raw) ∧ G.unmarshalMeta raw = .ok m

/-- The ledger holds the definition `d` under a lower-case name. -/
def TableStored (G : GoLib) (vals : OrdMap Bytes Bytes) (lower : Bytes) (d : TableDef) : Prop :=
  ∃ raw, vals.get (SqlKey.table lower).bytes = some (tagCatalogTable :: raw) ∧
    G.unmarshalTable raw = .ok d.persistent

/-- The catalog in memory is the one in the ledger; the ids handed out so far are below the next ones, which are at
most `k`. -/
structure CatInv (G : GoLib) (k : ℕ) (s : MapSql C ck) : Prop where
  root : RootStored G s.led.vals s.catMeta
  nodup : (s.catMeta.tables.map G.toLower).Nodup
  listed : ∀ lower, lower ∈ s.catMeta.tables.map G.toLower ↔ ∃ id, s.tables.get lower = some id
  defs : ∀ lower id, s.tables.get lower = some id →
    ∃ d, s.defs.get id = some d ∧ d.id = id ∧ G.toLower d.name = lower ∧ TableStored G s.led.vals lower d
  ids : ∀ a b id, s.tables.get a = some id → s.tables.get b = some id → a = b
  below : ∀ a id, s.tables.get a = some id → id < s.catMeta.nextTableID
  indexIds : ∀ a id d, s.tables.get a = some id → s.defs.get id = some d →
    (d.indexes.map IndexDef.id).Nodup ∧ ∀ x ∈ d.indexes, x.id < s.catMeta.nextIndexID
  indexOwner : ∀ a b i j d e, s.tables.get a = some i → s.tables.get b = some j → s.defs.get i = some d →
    s.defs.get j = some e → ∀ x ∈ d.indexes, ∀ y ∈ e.indexes, x.id = y.id → a = b
  nextTable : s.catMeta.nextTableID.toNat ≤ k
  nextIndex : s.catMeta.nextIndexID.toNat ≤ k

variable {lower : Bytes} {d : TableDef}

theorem defOf_eq_some {L : Type} {s : SqlStore L} (h : s.defOf lower = some d) :
    ∃ id e, s.tables.get lower = some id ∧ s.defs.get id = some e ∧ e.persistent = d := by
  unfold SqlStore.defOf at h
  obtain ⟨e, he, hd⟩ := Option.map_eq_some_iff.1 h
  obtain ⟨id, hid, he⟩ := Option.bind_eq_some_iff.1 he
  exact ⟨id, e, hid, he, hd⟩

variable {id : UInt64}

theorem defOf_of_get {L : Type} {s : SqlStore L}
    (hid : s.tables.get lower = some id) (hd : s.defs.get id = some d) : s.defOf lower = some d.persistent := by
  unfold SqlStore.defOf
  rw [hid, Option.bind_some, hd, Option.map_some]

/-! ## Loading -/

/-- The counter a load finds. -/
def storedCounter (vals : OrdMap Bytes Bytes) (id : UInt64) : UInt64 :=
  match vals.get (SqlKey.counter id).bytes with
  | none => 1
  | some craw =>
    let next := if craw.length = 9 ∧ craw.head? = some tagAutoInc then Bytes.toU64 (craw.drop 1) else 0
    if next = 0 then 1 else next

theorem loadCounter_run (id : UInt64) (s : MapSql C ck) :
    loadCounter id s = .ok (storedCounter s.led.vals id) s := by
  unfold loadCounter storedCounter
  rw [run_bind_ok (ledgerGet_run s _)]
  have hkey : (SqlKey.counter id).bytes = autoIncKey id := rfl
  rw [hkey]
  cases s.led.vals.get (autoIncKey id) with
  | none => rfl
  | some craw => rfl

theorem loadTable_run {name : Bytes} {d : TableDef} (h : TableStored G s.led.vals (G.toLower name) d) :
    ∃ d', loadTable G name s = .ok d' s ∧ d'.persistent = d.persistent ∧
      (d.hasAutoInc = true → d'.autoIncNext = storedCounter s.led.vals d.id) := by
  obtain ⟨raw, hget, hun⟩ := h
  have hget' : onLedger (LedgerApi.get (tableKey G name)) s = .ok (some (tagCatalogTable :: raw)) s := by
    rw [ledgerGet_run]
    exact congrArg (fun v => EStateM.Result.ok v s) hget
  unfold loadTable
  rw [run_bind_ok hget']
  dsimp only
  rw [if_neg (fun hne => hne rfl), List.drop_one, List.tail_cons, hun]
  dsimp only
  split
  · rw [run_bind_ok (loadCounter_run d.persistent.id s)]
    exact ⟨_, rfl, rfl, fun _ => rfl⟩
  · rename_i ha
    exact ⟨_, rfl, rfl, fun h => absurd h ha⟩

variable {name : Bytes}

/-- A table that loads is stored. -/
theorem loadTable_ok (h : loadTable G name s = .ok d s') :
    s' = s ∧ s.led.vals.get (SqlKey.table (G.toLower name)).bytes ≠ none := by
  refine ⟨(reads_loadTable name).of_ok h, fun hnone => ?_⟩
  obtain ⟨raw, s₁, hget, hrun⟩ := bind_eq_ok h
  have hraw : raw = none := by
    cases hget
    exact hnone
  rw [hraw] at hrun
  cases hrun

/-- What a load that returned has read: every listed table was stored, and no other name was added. -/
theorem loadTables_ok : ∀ {names : List Bytes} {s s' : MapSql C ck}, loadTables G names s = .ok () s' →
    (∀ n ∈ names, s.led.vals.get (SqlKey.table (G.toLower n)).bytes ≠ none) ∧
    (∀ lower, lower ∉ names.map G.toLower → s'.tables.get lower = s.tables.get lower) := by
  intro names
  induction names with
  | nil =>
    intro s s' h
    cases h
    exact ⟨fun n hn => absurd hn List.not_mem_nil, fun _ _ => rfl⟩
  | cons name names ih =>
    intro s s' h
    obtain ⟨d, s₁, hload, hrun⟩ := bind_eq_ok h
    obtain ⟨rfl, hname⟩ := loadTable_ok hload
    obtain ⟨u, s₂, hmod, hrest⟩ := bind_eq_ok hrun
    cases hmod
    obtain ⟨hstored, htables⟩ := ih hrest
    refine ⟨fun n hn => ?_, fun lower hl => ?_⟩
    · rcases List.mem_cons.1 hn with rfl | hn
      · exact hname
      · exact hstored n hn
    · rw [List.map_cons, List.mem_cons, not_or] at hl
      rw [htables lower hl.2]
      exact (OrdMap.get_insert _ _ _ _).trans (if_neg hl.1)

/-- Loading a list of stored tables. `f` gives the definition stored under each lower-case name. -/
theorem loadTables_run {vals : OrdMap Bytes Bytes} {f : Bytes → TableDef} : ∀ {names : List Bytes}
    {s : MapSql C ck}, s.led.vals = vals →
    (∀ n ∈ names, TableStored G vals (G.toLower n) (f (G.toLower n))) →
    (∀ n ∈ names, ∀ n' ∈ names, (f (G.toLower n)).id = (f (G.toLower n')).id → G.toLower n = G.toLower n') →
    ∃ s', loadTables G names s = .ok () s' ∧ s'.led = s.led ∧ s'.catMeta = s.catMeta ∧
      (∀ lower, s'.tables.get lower =
        if lower ∈ names.map G.toLower then some (f lower).id else s.tables.get lower) ∧
      (∀ n ∈ names, ∃ d, s'.defs.get (f (G.toLower n)).id = some d ∧ d.persistent = (f (G.toLower n)).persistent ∧
        ((f (G.toLower n)).hasAutoInc = true → d.autoIncNext = storedCounter vals (f (G.toLower n)).id)) ∧
      ∀ id, (∀ n ∈ names, (f (G.toLower n)).id ≠ id) → s'.defs.get id = s.defs.get id := by
  intro names
  induction names with
  | nil =>
    intro s _ _ _
    exact ⟨s, rfl, rfl, rfl, fun _ => rfl, fun n hn => absurd hn List.not_mem_nil, fun _ _ => rfl⟩
  | cons name names ih =>
    intro s hvals hst hinj
    obtain ⟨d, hload, hd⟩ := @loadTable_run C ck G s name (f (G.toLower name))
      (hvals ▸ hst name List.mem_cons_self)
    have hid : d.persistent.id = (f (G.toLower name)).persistent.id := congrArg TableDef.id hd.1
    change d.id = (f (G.toLower name)).id at hid
    set s₁ : MapSql C ck :=
      { s with tables := s.tables.insert (G.toLower name) d.id, defs := s.defs.insert d.id d } with hs₁
    obtain ⟨s', hrun, hled, hmeta, htables, hdefs, hother⟩ := ih (s := s₁) hvals
      (fun n hn => hst n (List.mem_cons_of_mem _ hn))
      (fun n hn n' hn' => hinj n (List.mem_cons_of_mem _ hn) n' (List.mem_cons_of_mem _ hn'))
    refine ⟨s', ?_, hled, hmeta, fun lower => ?_, fun n hn => ?_, fun id hne => ?_⟩
    · unfold loadTables
      rw [run_bind_ok hload]
      exact hrun
    · rw [htables lower, List.map_cons]
      by_cases hl : lower ∈ names.map G.toLower
      · rw [if_pos hl, if_pos (List.mem_cons_of_mem _ hl)]
      · rw [if_neg hl]
        show (s.tables.insert (G.toLower name) d.id).get lower = _
        rw [OrdMap.get_insert]
        by_cases he : lower = G.toLower name
        · rw [if_pos he, if_pos (by rw [he]; exact List.mem_cons_self), he, hid]
        · rw [if_neg he, if_neg fun hmem => (List.mem_cons.1 hmem).elim he hl]
    · by_cases hmem : ∃ n' ∈ names, (f (G.toLower n')).id = (f (G.toLower n)).id
      · -- a later name with this id has the same lower case, and loads the same definition
        obtain ⟨n', hn', he⟩ := hmem
        have hlow := hinj n' (List.mem_cons_of_mem _ hn') n hn he
        rw [← hlow]
        exact hdefs n' hn'
      · have hn : n = name := (List.mem_cons.1 hn).resolve_right fun h => hmem ⟨n, h, rfl⟩
        subst hn
        rw [hother _ fun n' hn' he => hmem ⟨n', hn', he⟩]
        rw [hvals] at hd
        refine ⟨d, ?_, hd⟩
        show (s.defs.insert d.id d).get _ = _
        rw [OrdMap.get_insert, if_pos hid.symm]
    · rw [hother id fun n hn => hne n (List.mem_cons_of_mem _ hn)]
      show (s.defs.insert d.id d).get id = _
      rw [OrdMap.get_insert, if_neg fun he => hne name List.mem_cons_self (hid.symm.trans he.symm)]

theorem loadCatalog_none (h : s.led.vals.get SqlKey.catalog.bytes = none) :
    loadCatalog G s = .ok () { s with catMeta := ⟨1, 1, []⟩ } := by
  have hget : onLedger (LedgerApi.get metaKey) s = .ok none s := by
    rw [ledgerGet_run]
    exact congrArg (fun v => EStateM.Result.ok v s) h
  unfold loadCatalog
  rw [run_bind_ok hget]
  rfl

variable {m : CatalogMeta}

theorem loadCatalog_some {raw : Bytes}
    (h : s.led.vals.get SqlKey.catalog.bytes = some (tagCatalogMeta :: raw)) (hm : G.unmarshalMeta raw = .ok m) :
    loadCatalog G s = loadTables G m.tables { s with catMeta := m } := by
  have hget : onLedger (LedgerApi.get metaKey) s = .ok (some (tagCatalogMeta :: raw)) s := by
    rw [ledgerGet_run]
    exact congrArg (fun v => EStateM.Result.ok v s) h
  unfold loadCatalog
  rw [run_bind_ok hget]
  dsimp only
  rw [if_neg (fun hne => hne rfl), List.drop_one, List.tail_cons, hm]
  rfl

variable {k : ℕ}

/-- **A catalog that satisfies the invariant loads back**, with the counters the ledger holds. -/
theorem CatInv.loads (h : CatInv G k s) : ∃ s', loadCatalog G (newSqlStore s.led) = .ok () s' ∧
    s'.led = s.led ∧ s'.catMeta = s.catMeta ∧ (∀ lower, s'.tables.get lower = s.tables.get lower) ∧
    (∀ lower id d, s.tables.get lower = some id → s.defs.get id = some d → ∃ d', s'.defs.get id = some d' ∧
      d'.persistent = d.persistent ∧ (d.hasAutoInc = true → d'.autoIncNext = storedCounter s.led.vals id)) ∧
    ∀ id, (∀ lower, s.tables.get lower ≠ some id) → s'.defs.get id = none := by
  rcases h.root with ⟨hnone, hm⟩ | ⟨raw, hget, hun⟩
  · have hempty : ∀ lower, s.tables.get lower = none := by
      intro lower
      refine Option.eq_none_iff_forall_ne_some.2 fun id hid => ?_
      have := (h.listed lower).2 ⟨id, hid⟩
      rw [hm] at this
      cases this
    refine ⟨_, loadCatalog_none hnone, rfl, hm.symm, fun lower => (hempty lower).symm, ?_, fun _ _ => rfl⟩
    intro lower id d hid _
    rw [hempty lower] at hid
    cases hid
  · -- the definition behind each listed name
    have hlist : ∀ lower ∈ s.catMeta.tables.map G.toLower, ∃ d, s.tables.get lower = some d.id ∧
        s.defs.get d.id = some d ∧ TableStored G s.led.vals lower d := by
      intro lower hl
      obtain ⟨id, hid⟩ := (h.listed lower).1 hl
      obtain ⟨d, hd, rfl, -, hst⟩ := h.defs lower id hid
      exact ⟨d, hid, hd, hst⟩
    choose! f hf using hlist
    obtain ⟨s', hrun, hled, hmeta, htables, hdefs, hother⟩ := @loadTables_run C ck G s.led.vals f s.catMeta.tables
      { newSqlStore s.led with catMeta := s.catMeta } rfl
      (fun n hn => (hf _ (List.mem_map_of_mem hn)).2.2)
      (fun n hn n' hn' he => by
        have h1 := (hf _ (List.mem_map_of_mem hn)).1
        have h2 := (hf _ (List.mem_map_of_mem hn')).1
        rw [← he] at h2
        exact h.ids _ _ _ h1 h2)
    refine ⟨s', (loadCatalog_some (s := newSqlStore s.led) hget hun).trans hrun, hled, hmeta, fun lower => ?_, ?_, ?_⟩
    · rw [htables lower]
      by_cases hl : lower ∈ s.catMeta.tables.map G.toLower
      · rw [if_pos hl, (hf _ hl).1]
      · rw [if_neg hl]
        exact (Option.eq_none_iff_forall_ne_some.2 fun id hid => hl ((h.listed lower).2 ⟨id, hid⟩)).symm
    · intro lower id d hid hd
      obtain ⟨n, hn, rfl⟩ := List.mem_map.1 ((h.listed lower).2 ⟨id, hid⟩)
      obtain ⟨hfid, hfd, -⟩ := hf _ (List.mem_map_of_mem hn)
      rw [hid] at hfid
      cases hfid
      rw [hd] at hfd
      cases hfd
      exact hdefs n hn
    · intro id hid
      refine (hother id fun n hn he => ?_).trans rfl
      exact hid _ (he ▸ (hf _ (List.mem_map_of_mem hn)).1)

theorem CatInv.persisted (h : CatInv G k s) : Persisted G s := by
  have hdefOf : ∀ {a d}, s.defOf a = some d → ∃ id e, s.tables.get a = some id ∧ s.defs.get id = some e ∧
      e.persistent = d ∧ e.id = id := by
    intro a d ha
    obtain ⟨id, e, hid, he, hp⟩ := defOf_eq_some ha
    obtain ⟨e', he', hid', -⟩ := h.defs a id hid
    rw [he] at he'
    cases he'
    exact ⟨id, e, hid, he, hp, hid'⟩
  refine ⟨?_, ?_, ?_, ?_⟩
  · obtain ⟨s', hrun, -, hmeta, htables, hdefs, -⟩ := h.loads
    refine ⟨s', hrun, by rw [hmeta], by rw [hmeta], fun lower => ?_⟩
    cases hid : s.tables.get lower with
    | none =>
      unfold SqlStore.defOf
      rw [htables, hid]
      rfl
    | some id =>
      obtain ⟨d, hd, -⟩ := h.defs lower id hid
      obtain ⟨d', hd', hp, -⟩ := hdefs lower id d hid hd
      rw [defOf_of_get (by rw [htables, hid]) hd', hp, defOf_of_get hid hd]
  · intro a b d e ha hb hde
    obtain ⟨i, x, hi, -, rfl, rfl⟩ := hdefOf ha
    obtain ⟨j, y, hj, -, rfl, rfl⟩ := hdefOf hb
    have hxy : x.id = y.id := hde
    rw [← hxy] at hj
    exact h.ids a b x.id hi hj
  · intro a d ha
    obtain ⟨i, x, hi, hx, rfl, -⟩ := hdefOf ha
    exact (h.indexIds a i x hi hx).1
  · intro a b d e ha hb
    obtain ⟨i, x, hi, hx, rfl, -⟩ := hdefOf ha
    obtain ⟨j, y, hj, hy, rfl, -⟩ := hdefOf hb
    exact h.indexOwner a b i j x y hi hj hx hy

/-! ## Statements -/

theorem rootStored_marshal (hG : G.Ok) {vals : OrdMap Bytes Bytes}
    (h : vals.get SqlKey.catalog.bytes = some (tagCatalogMeta :: G.marshalMeta m)) : RootStored G vals m :=
  .inr ⟨_, h, hG.unmarshal_meta m⟩

theorem tableStored_marshal (hG : G.Ok) {vals : OrdMap Bytes Bytes}
    (h : vals.get (SqlKey.table lower).bytes = some (tagCatalogTable :: G.marshalTable d)) : TableStored G vals lower d :=
  ⟨_, h, hG.unmarshal_table d⟩

theorem TableStored.congr {vals vals' : OrdMap Bytes Bytes} (h : TableStored G vals lower d)
    (hv : vals'.get (SqlKey.table lower).bytes = vals.get (SqlKey.table lower).bytes) : TableStored G vals' lower d := by
  obtain ⟨raw, hget, hun⟩ := h
  exact ⟨raw, hv.trans hget, hun⟩

/-- What the keys of the SQL layer hold after one catalog write: the root, one definition, nothing else. -/
theorem get_catalogOps (vals : OrdMap Bytes Bytes) (m : CatalogMeta) (d : TableDef) (k : SqlKey) :
    (writeOps vals (catalogOps G m [d])).get k.bytes =
      if k = .table (G.toLower d.name) then some (tagCatalogTable :: G.marshalTable d)
      else if k = .catalog then some (tagCatalogMeta :: G.marshalMeta m) else vals.get k.bytes := by
  have hops : catalogOps G m [d] = [] ++ [Op.put SqlKey.catalog.bytes (tagCatalogMeta :: G.marshalMeta m)] ++
      [Op.put (SqlKey.table (G.toLower d.name)).bytes (tagCatalogTable :: G.marshalTable d)] := rfl
  rw [hops, get_writeOps_put, get_writeOps_put]
  rfl

/-- The catalogs agree, in memory up to the counters and in the ledger. -/
structure SameShape (s s' : MapSql C ck) : Prop where
  catMeta : s'.catMeta = s.catMeta
  tables : ∀ lower, s'.tables.get lower = s.tables.get lower
  defs : ∀ lower id d, s.tables.get lower = some id → s.defs.get id = some d →
    ∃ d', s'.defs.get id = some d' ∧ d'.persistent = d.persistent
  root : s'.led.vals.get SqlKey.catalog.bytes = s.led.vals.get SqlKey.catalog.bytes
  table : ∀ lower, s'.led.vals.get (SqlKey.table lower).bytes = s.led.vals.get (SqlKey.table lower).bytes

/-- The invariant does not read the counters. -/
theorem CatInv.shape (h : CatInv G k s) (hs : SameShape s s') : CatInv G k s' := by
  obtain ⟨hm, ht, hd, hroot, htable⟩ := hs
  -- the definition in `s` behind one in `s'`
  have hback : ∀ {lower id d'}, s'.tables.get lower = some id → s'.defs.get id = some d' →
      ∃ d, s.tables.get lower = some id ∧ s.defs.get id = some d ∧ d'.persistent = d.persistent := by
    intro lower id d' hid hd'
    rw [ht] at hid
    obtain ⟨d, hget, -⟩ := h.defs lower id hid
    obtain ⟨e, he, hp⟩ := hd lower id d hid hget
    rw [he] at hd'
    cases hd'
    exact ⟨d, hid, hget, hp⟩
  refine ⟨?_, hm ▸ h.nodup, ?_, ?_, ?_, ?_, ?_, ?_, hm ▸ h.nextTable, hm ▸ h.nextIndex⟩
  · rw [hm]
    unfold RootStored
    rw [hroot]
    exact h.root
  · intro lower
    rw [hm, ht]
    exact h.listed lower
  · intro lower id hid
    rw [ht] at hid
    obtain ⟨d, hget, hid', hname, hst⟩ := h.defs lower id hid
    obtain ⟨d', hd', hp⟩ := hd lower id d hid hget
    obtain ⟨hpid, hpname, -⟩ := TableDef.persistent_fields hp
    obtain ⟨raw, hraw, hun⟩ := hst.congr (htable lower)
    exact ⟨d', hd', hpid.trans hid', by rw [hpname, hname], raw, hraw, by rw [hp, hun]⟩
  · intro a b id ha hb
    rw [ht] at ha hb
    exact h.ids a b id ha hb
  · intro a id ha
    rw [ht] at ha
    rw [hm]
    exact h.below a id ha
  · intro a id d' ha hd'
    obtain ⟨d, hid, hget, hp⟩ := hback ha hd'
    obtain ⟨-, -, -, -, hidx⟩ := TableDef.persistent_fields hp
    rw [hm, hidx]
    exact h.indexIds a id d hid hget
  · intro a b i j d' e' ha hb hd' he'
    obtain ⟨d, hi, hget, hp⟩ := hback ha hd'
    obtain ⟨e, hj, hget', hp'⟩ := hback hb he'
    obtain ⟨-, -, -, -, hidx⟩ := TableDef.persistent_fields hp
    obtain ⟨-, -, -, -, hidx'⟩ := TableDef.persistent_fields hp'
    rw [hidx, hidx']
    exact h.indexOwner a b i j d e hi hj hget hget'

theorem SameCatalog.shape (h : SameCatalog s s') : SameShape s s' :=
  ⟨h.catMeta, fun lower => by rw [h.tables], fun _ _ d _ hd => ⟨d, by rw [h.defs]; exact hd, rfl⟩, h.root, h.table⟩

/-- A statement that changes neither the catalog in memory nor its keys. -/
theorem CatInv.same (h : CatInv G k s) (hs : SameCatalog s s') : CatInv G k s' := h.shape hs.shape

theorem lt_add_one_of_toNat {n : UInt64} (h : n.toNat + 1 < 2 ^ 64) : n < n + 1 := by
  rw [UInt64.lt_iff_toNat_lt, UInt64.toNat_add]
  have : (1 : UInt64).toNat = 1 := rfl
  omega

theorem toNat_add_one_le {n : UInt64} (h : n.toNat ≤ k) : (n + 1).toNat ≤ k + 1 := by
  rw [UInt64.toNat_add]
  have : (1 : UInt64).toNat = 1 := rfl
  omega

theorem newTableDef_ok {name comment : Bytes} {schema : PrimaryKeySchema}
    (h : newTableDef id name schema comment = .ok d) : d.id = id ∧ d.name = name ∧ d.indexes = [] := by
  unfold newTableDef at h
  cases hcols : schema.schema.mapM fun col => wrapWith "table %s: %w" [.key name] (colDefOf col) with
  | error e => rw [hcols] at h; cases h
  | ok columns =>
    rw [hcols] at h
    obtain rfl := Except.ok.inj h
    split <;> exact ⟨rfl, rfl, rfl⟩

/-- A statement changes the table under one lower-case name, if any: what the others keep. -/
structure OneTable (G : GoLib) (lower : Bytes) (d : TableDef) (s s' : MapSql C ck) : Prop where
  root : s'.led.vals.get SqlKey.catalog.bytes = some (tagCatalogMeta :: G.marshalMeta s'.catMeta)
  nextTable : s.catMeta.nextTableID ≤ s'.catMeta.nextTableID
  nextIndex : s.catMeta.nextIndexID ≤ s'.catMeta.nextIndexID
  old : ∀ {a i}, s'.tables.get a = some i → a ≠ lower → s.tables.get a = some i ∧ i ≠ d.id ∧
    s'.defs.get i = s.defs.get i ∧
    s'.led.vals.get (SqlKey.table a).bytes = s.led.vals.get (SqlKey.table a).bytes

/-- The definition a statement leaves under that name: its ids are below the next ones and of no other table. -/
structure NewDef (G : GoLib) (lower : Bytes) (d : TableDef) (s s' : MapSql C ck) : Prop where
  name : G.toLower d.name = lower
  defn : s'.defs.get d.id = some d
  stored : s'.led.vals.get (SqlKey.table lower).bytes = some (tagCatalogTable :: G.marshalTable d)
  below : d.id < s'.catMeta.nextTableID
  indexIds : (d.indexes.map IndexDef.id).Nodup ∧ ∀ x ∈ d.indexes, x.id < s'.catMeta.nextIndexID
  indexOwner : ∀ {a i e}, s.tables.get a = some i → i ≠ d.id → s.defs.get i = some e →
    ∀ x ∈ d.indexes, ∀ y ∈ e.indexes, x.id ≠ y.id

/-- **A statement that changes one table keeps the invariant** when it keeps the list of names. -/
theorem CatInv.update {k k' : ℕ} (hG : G.Ok) (h : CatInv G k s) (lower : Bytes) (d : TableDef)
    (hs : OneTable G lower d s s') (hnodup : (s'.catMeta.tables.map G.toLower).Nodup)
    (hlisted : ∀ a, a ∈ s'.catMeta.tables.map G.toLower ↔ ∃ id, s'.tables.get a = some id)
    (hnew : ∀ i, s'.tables.get lower = some i → i = d.id ∧ NewDef G lower d s s')
    (hkt : s'.catMeta.nextTableID.toNat ≤ k') (hki : s'.catMeta.nextIndexID.toNat ≤ k') : CatInv G k' s' := by
  refine ⟨rootStored_marshal hG hs.root, hnodup, hlisted, ?_, ?_, ?_, ?_, ?_, hkt, hki⟩
  · intro a i ha
    by_cases hl : a = lower
    · subst hl
      obtain ⟨rfl, hn⟩ := hnew i ha
      exact ⟨d, hn.defn, rfl, hn.name, tableStored_marshal hG hn.stored⟩
    · obtain ⟨ha, -, hdef, hval⟩ := hs.old ha hl
      obtain ⟨e, h1, h2, h3, h4⟩ := h.defs a i ha
      exact ⟨e, hdef.trans h1, h2, h3, h4.congr hval⟩
  · intro a b i ha hb
    by_cases hla : a = lower <;> by_cases hlb : b = lower
    · rw [hla, hlb]
    · exact absurd (hnew i (hla ▸ ha)).1 (hs.old hb hlb).2.1
    · exact absurd (hnew i (hlb ▸ hb)).1 (hs.old ha hla).2.1
    · exact h.ids a b i (hs.old ha hla).1 (hs.old hb hlb).1
  · intro a i ha
    by_cases hl : a = lower
    · obtain ⟨rfl, hn⟩ := hnew i (hl ▸ ha)
      exact hn.below
    · exact lt_of_lt_of_le (h.below a i (hs.old ha hl).1) hs.nextTable
  · intro a i e ha he
    by_cases hl : a = lower
    · obtain ⟨rfl, hn⟩ := hnew i (hl ▸ ha)
      rw [hn.defn] at he
      exact Option.some.inj he ▸ hn.indexIds
    · obtain ⟨ha, -, hdef, -⟩ := hs.old ha hl
      obtain ⟨h1, h2⟩ := h.indexIds a i e ha (hdef ▸ he)
      exact ⟨h1, fun x hx => lt_of_lt_of_le (h2 x hx) hs.nextIndex⟩
  · -- an index id of the changed table is not one of another table
    have hcross : ∀ {a b i j e f}, a = lower → b ≠ lower → s'.tables.get a = some i → s'.tables.get b = some j →
        s'.defs.get i = some e → s'.defs.get j = some f → ∀ x ∈ e.indexes, ∀ y ∈ f.indexes, x.id ≠ y.id := by
      intro a b i j e f hla hlb ha hb he hf
      obtain ⟨rfl, hn⟩ := hnew i (hla ▸ ha)
      obtain ⟨hb, hne, hdef, -⟩ := hs.old hb hlb
      rw [hn.defn] at he
      exact Option.some.inj he ▸ hn.indexOwner hb hne (hdef ▸ hf)
    intro a b i j e f ha hb he hf x hx y hy hxy
    by_cases hla : a = lower <;> by_cases hlb : b = lower
    · rw [hla, hlb]
    · exact absurd hxy (hcross hla hlb ha hb he hf x hx y hy)
    · exact absurd hxy.symm (hcross hlb hla hb ha hf he y hy x hx)
    · obtain ⟨ha, -, hde, -⟩ := hs.old ha hla
      obtain ⟨hb, -, hdf, -⟩ := hs.old hb hlb
      exact h.indexOwner a b i j e f ha hb (hde ▸ he) (hdf ▸ hf) x hx y hy hxy

theorem CatInv.after_createTable (hG : G.Ok) (hk : k + 1 < 2 ^ 64) (h : CatInv G k s) {name comment : Bytes}
    {schema : PrimaryKeySchema} (hrun : createTable G name schema comment s = .ok () s') : CatInv G (k + 1) s' := by
  obtain ⟨_, _, _, s₁, ⟨hnew, d, hd, rfl, rfl, rfl⟩, hcommit, rfl⟩ := (createTable_run name comment schema).ok hrun
  obtain ⟨hid, rfl, hidx⟩ := newTableDef_ok hd
  have hnext := lt_add_one_of_toNat (n := s.catMeta.nextTableID) (by have := h.nextTable; omega)
  -- the new id is no old one
  have hfresh : ∀ {a i}, s.tables.get a = some i → i ≠ d.id := by
    intro a i hi he
    have := h.below a i hi
    rw [he, hid] at this
    exact lt_irrefl _ this
  have hget := fun key => (commit_get hcommit key).trans (get_catalogOps _ _ _ key)
  obtain rfl := commit_ok hcommit
  have hins := OrdMap.get_insert s.tables (G.toLower d.name) d.id
  refine h.update hG (G.toLower d.name) d ⟨?_, hnext.le, le_rfl, ?_⟩ ?_ ?_ ?_
    (toNat_add_one_le h.nextTable) (h.nextIndex.trans (Nat.le_succ k))
  · exact (hget .catalog).trans (by rw [if_neg (by simp), if_pos rfl])
  · intro a i ha hne
    have ha : s.tables.get a = some i := ((hins a).trans (if_neg hne)).symm.trans ha
    refine ⟨ha, hfresh ha, (OrdMap.get_insert _ _ _ _).trans (if_neg (hfresh ha)), (hget (.table a)).trans ?_⟩
    rw [if_neg (by simpa using hne), if_neg (by simp)]
  · show ((s.catMeta.tables ++ [d.name]).map G.toLower).Nodup
    rw [List.map_append, List.nodup_append]
    refine ⟨h.nodup, List.nodup_singleton _, fun a ha b hb he => ?_⟩
    rw [List.map_singleton, List.mem_singleton] at hb
    obtain ⟨i, hi⟩ := (h.listed a).1 ha
    rw [he, hb, hnew] at hi
    cases hi
  · intro a
    show a ∈ (s.catMeta.tables ++ [d.name]).map G.toLower ↔ ∃ id, (s.tables.insert (G.toLower d.name) d.id).get a = some id
    rw [List.map_append, List.mem_append, List.map_singleton, List.mem_singleton, h.listed, hins]
    by_cases he : a = G.toLower d.name <;> simp [he]
  · intro i hi
    refine ⟨(Option.some.inj (((hins _).trans (if_pos rfl)).symm.trans hi)).symm, rfl,
      (OrdMap.get_insert _ _ _ _).trans (if_pos rfl), (hget _).trans (if_pos rfl), hid ▸ hnext, ?_, ?_⟩
    · rw [hidx]
      exact ⟨List.nodup_nil, fun x hx => absurd hx List.not_mem_nil⟩
    · intro a i e _ _ _ x hx
      rw [hidx] at hx
      cases hx

/-- A statement that gives one table new indexes: their ids are those of old indexes of the table, or new ones. -/
theorem CatInv.setIndexes {k k' : ℕ} (hG : G.Ok) (h : CatInv G k s)
    (hid : s.tables.get lower = some id) (hd : s.defs.get id = some d) {next : UInt64} {ixs : List IndexDef}
    {scanOps : List BatchOp} {s₁ : MapSql C ck} (hnext : s.catMeta.nextIndexID ≤ next)
    (hk : next.toNat ≤ k') (hkk : k ≤ k') (hnodup : (ixs.map IndexDef.id).Nodup)
    (hixs : ∀ x ∈ ixs, x.id < next ∧ (s.catMeta.nextIndexID ≤ x.id ∨ ∃ y ∈ d.indexes, y.id = x.id))
    (hcommit : commit (catalogOps G { s.catMeta with nextIndexID := next } [{ d with indexes := ixs }]) scanOps s =
      .ok () s₁) :
    CatInv G k' { s₁ with
      catMeta := { s.catMeta with nextIndexID := next }, defs := s₁.defs.insert id { d with indexes := ixs } } := by
  obtain ⟨e, he, rfl, hname, -⟩ := h.defs lower id hid
  rw [hd] at he
  cases he
  have hget := fun key => (commit_get hcommit key).trans (get_catalogOps _ _ _ key)
  obtain rfl := commit_ok hcommit
  refine h.update hG lower { d with indexes := ixs } ⟨?_, le_rfl, hnext, ?_⟩ h.nodup h.listed ?_
    (h.nextTable.trans hkk) hk
  · exact (hget .catalog).trans (by rw [if_neg (by simp), if_pos rfl])
  · intro a i ha hne
    have ha : s.tables.get a = some i := ha
    have hi : i ≠ d.id := fun he => hne (h.ids a lower d.id (he ▸ ha) hid)
    refine ⟨ha, hi, (OrdMap.get_insert _ _ _ _).trans (if_neg hi), (hget (.table a)).trans ?_⟩
    rw [if_neg (by rw [hname]; simpa using hne), if_neg (by simp)]
  · intro i hi
    have hi : s.tables.get lower = some i := hi
    rw [hid] at hi
    refine ⟨(Option.some.inj hi).symm, hname, (OrdMap.get_insert _ _ _ _).trans (if_pos rfl),
      (hget (.table lower)).trans (if_pos (by rw [hname])), h.below lower d.id hid,
      ⟨hnodup, fun x hx => (hixs x hx).1⟩, ?_⟩
    intro b j g hj hne hg x hx y hy hxy
    rcases (hixs x hx).2 with hge | ⟨z, hz, hzx⟩
    · have := (h.indexIds b j g hj hg).2 y hy
      rw [← hxy] at this
      exact absurd this (not_lt.2 hge)
    · have hb := h.indexOwner b lower j d.id g d hj hid hg hd y hy z hz (hxy.symm.trans hzx.symm)
      rw [hb, hid] at hj
      exact hne (Option.some.inj hj).symm

theorem CatInv.after_createIndex (hG : G.Ok) (hk : k + 1 < 2 ^ 64) (h : CatInv G k s)
    (hid : s.tables.get lower = some id) {indexDefn : NewIndex}
    (hrun : createIndex G id name indexDefn s = .ok () s') : CatInv G (k + 1) s' := by
  obtain ⟨_, entries, _, s₁, ⟨d, idx, rounds, hd, hidx, -, rfl, rfl⟩, hcommit, rfl⟩ :=
    (createIndex_run id name indexDefn).ok hrun
  have hnext := lt_add_one_of_toNat (n := s.catMeta.nextIndexID) (by have := h.nextIndex; omega)
  obtain ⟨hnodup, hlt⟩ := h.indexIds lower id d hid hd
  refine h.setIndexes hG hid hd hnext.le (toNat_add_one_le h.nextIndex) (Nat.le_succ k) ?_ ?_ hcommit
  · rw [List.map_append, List.nodup_append]
    refine ⟨hnodup, List.nodup_singleton _, fun a ha b hb he => ?_⟩
    rw [List.map_singleton, List.mem_singleton] at hb
    obtain ⟨x, hx, rfl⟩ := List.mem_map.1 ha
    have := hlt x hx
    rw [he, hb, hidx] at this
    exact lt_irrefl _ this
  · intro x hx
    rcases List.mem_append.1 hx with hx | hx
    · exact ⟨(hlt x hx).trans hnext, .inr ⟨x, hx, rfl⟩⟩
    · rw [List.mem_singleton.1 hx, hidx]
      exact ⟨hnext, .inl le_rfl⟩

/-- A statement that gives one table indexes with ids it had. -/
theorem CatInv.keepIndexes (hG : G.Ok) (h : CatInv G k s)
    (hid : s.tables.get lower = some id) (hd : s.defs.get id = some d) {ixs : List IndexDef}
    {scanOps : List BatchOp} {s₁ : MapSql C ck}
    (hsub : (ixs.map IndexDef.id).Sublist (d.indexes.map IndexDef.id))
    (hcommit : commit (catalogOps G s.catMeta [{ d with indexes := ixs }]) scanOps s = .ok () s₁) :
    CatInv G (k + 1) { s₁ with defs := s₁.defs.insert id { d with indexes := ixs } } := by
  obtain ⟨hnodup, hlt⟩ := h.indexIds lower id d hid hd
  have hold : ∀ x ∈ ixs, x.id < s.catMeta.nextIndexID ∧
      (s.catMeta.nextIndexID ≤ x.id ∨ ∃ y ∈ d.indexes, y.id = x.id) := by
    intro x hx
    obtain ⟨y, hy, hyx⟩ := List.mem_map.1 (hsub.subset (List.mem_map_of_mem hx))
    exact ⟨hyx ▸ hlt y hy, .inr ⟨y, hy, hyx⟩⟩
  have hs := h.setIndexes hG hid hd le_rfl (h.nextIndex.trans (Nat.le_succ k)) (Nat.le_succ k)
    (hnodup.sublist hsub) hold hcommit
  have hmeta : s₁.catMeta = s.catMeta := by rw [commit_ok hcommit]
  rw [← hmeta] at hs
  exact hs

theorem CatInv.after_dropIndex (hG : G.Ok) (h : CatInv G k s)
    (hid : s.tables.get lower = some id) (hrun : dropIndex G id name s = .ok () s') :
    CatInv G (k + 1) s' := by
  obtain ⟨_, _, _, s₁, ⟨d, pos, idx, rounds, hd, -, -, rfl, rfl⟩, hcommit, rfl⟩ := (dropIndex_run id name).ok hrun
  exact h.keepIndexes hG hid hd ((List.eraseIdx_sublist _ _).map _) hcommit

theorem map_id_modify (new : Bytes) : ∀ (ixs : List IndexDef) (pos : ℕ),
    (ixs.modify pos fun idx => { idx with name := new }).map IndexDef.id = ixs.map IndexDef.id := by
  intro ixs
  induction ixs with
  | nil => intro pos; simp
  | cons x ixs ih =>
    intro pos
    cases pos with
    | zero => rfl
    | succ pos => rw [List.modify_succ_cons, List.map_cons, ih, List.map_cons]

theorem CatInv.after_renameIndex (hG : G.Ok) (h : CatInv G k s)
    (hid : s.tables.get lower = some id) {old new : Bytes} (hrun : renameIndex G id old new s = .ok () s') :
    CatInv G (k + 1) s' := by
  obtain ⟨_, _, _, s₁, ⟨d, pos, hd, rfl, rfl, rfl⟩, hcommit, rfl⟩ := (renameIndex_run id old new).ok hrun
  exact h.keepIndexes hG hid hd (map_id_modify new d.indexes pos ▸ List.Sublist.refl _) hcommit

/-! ## Folding and lower case -/

/-- Folding and lower case agree on the listed names: a name folds to the given one exactly when it has its lower case. -/
def FoldsAs (G : GoLib) (m : CatalogMeta) (name : Bytes) : Prop :=
  ∀ n ∈ m.tables, G.equalFold n name = true ↔ G.toLower n = G.toLower name

instance (G : GoLib) (m : CatalogMeta) (name : Bytes) : Decidable (FoldsAs G m name) :=
  inferInstanceAs (Decidable (∀ n ∈ m.tables, _ ↔ _))

/-- What a statement needs of folding: a drop and a rename that it agrees with lower case. -/
def Ddl.Folds (G : GoLib) (m : CatalogMeta) : Ddl → Prop
  | .dropTable name => FoldsAs G m name
  | .renameTable oldName _ => FoldsAs G m oldName
  | _ => True

instance (G : GoLib) (m : CatalogMeta) : (c : Ddl) → Decidable (c.Folds G m)
  | .dropTable name => inferInstanceAs (Decidable (FoldsAs G m name))
  | .renameTable oldName _ => inferInstanceAs (Decidable (FoldsAs G m oldName))
  | .createTable .. | .truncate _ | .createIndex .. | .renameIndex .. | .dropIndex .. =>
    inferInstanceAs (Decidable True)

theorem CatInv.mono {k k' : ℕ} (h : CatInv G k s) (hk : k ≤ k') : CatInv G k' s :=
  { h with nextTable := h.nextTable.trans hk, nextIndex := h.nextIndex.trans hk }

/-- Two listed names with one lower case are the same. -/
theorem CatInv.listed_inj (h : CatInv G k s) {n n' : Bytes} (hn : n ∈ s.catMeta.tables)
    (hn' : n' ∈ s.catMeta.tables) (he : G.toLower n = G.toLower n') : n = n' :=
  List.inj_on_of_nodup_map h.nodup hn hn' he

/-- A name whose lower case is free is not listed. -/
theorem CatInv.not_listed (h : CatInv G k s) (hfree : s.tables.get lower = none) :
    ∀ n ∈ s.catMeta.tables, G.toLower n ≠ lower := by
  rintro n hn rfl
  obtain ⟨i, hi⟩ := (h.listed _).1 (List.mem_map_of_mem hn)
  rw [hfree] at hi
  cases hi

/-- What the keys of the SQL layer hold after the last write of a drop. -/
theorem get_dropOps (vals : OrdMap Bytes Bytes) (m : CatalogMeta) (d : TableDef) (k : SqlKey) :
    (writeOps vals [Op.put metaKey (tagCatalogMeta :: G.marshalMeta m), Op.del (tableKey G d.name),
      Op.del (autoIncKey d.id)]).get k.bytes =
      if k = .counter d.id then none else if k = .table (G.toLower d.name) then none
      else if k = .catalog then some (tagCatalogMeta :: G.marshalMeta m) else vals.get k.bytes := by
  have hops : [Op.put metaKey (tagCatalogMeta :: G.marshalMeta m), Op.del (tableKey G d.name), Op.del (autoIncKey d.id)] =
      [] ++ [Op.put SqlKey.catalog.bytes (tagCatalogMeta :: G.marshalMeta m)] ++
        [Op.del (SqlKey.table (G.toLower d.name)).bytes] ++ [Op.del (SqlKey.counter d.id).bytes] := rfl
  rw [hops, get_writeOps_del, get_writeOps_del, get_writeOps_put]
  rfl

/-- What the keys of the SQL layer hold after a rename. -/
theorem get_renameOps (vals : OrdMap Bytes Bytes) (m : CatalogMeta) (d : TableDef) (oldName : Bytes) (k : SqlKey) :
    (writeOps vals (catalogOps G m [d] ++ [Op.del (tableKey G oldName)])).get k.bytes =
      if k = .table (G.toLower oldName) then none
      else if k = .table (G.toLower d.name) then some (tagCatalogTable :: G.marshalTable d)
      else if k = .catalog then some (tagCatalogMeta :: G.marshalMeta m) else vals.get k.bytes := by
  rw [← get_catalogOps]
  exact get_writeOps_del vals _ k (.table (G.toLower oldName))

/-- A dropped table, and the state the drop leaves. -/
structure Dropped (G : GoLib) (name : Bytes) (d : TableDef) (s s' : MapSql C ck) : Prop where
  found : s.tables.get (G.toLower name) = some d.id
  defn : s.defs.get d.id = some d
  lower : G.toLower d.name = G.toLower name
  catMeta : s'.catMeta = s.catMeta.without G name
  tables : s'.tables = s.tables.erase (G.toLower name)
  defs : s'.defs = s.defs
  root : s'.led.vals.get SqlKey.catalog.bytes = some (tagCatalogMeta :: G.marshalMeta (s.catMeta.without G name))
  gone : s'.led.vals.get (SqlKey.table (G.toLower name)).bytes = none
  kept : ∀ lower, lower ≠ G.toLower name →
    s'.led.vals.get (SqlKey.table lower).bytes = s.led.vals.get (SqlKey.table lower).bytes

theorem CatInv.dropped (h : CatInv G k s) (hrun : dropTable G name s = .ok () s') :
    ∃ d, Dropped G name d s s' := by
  obtain ⟨id, d, s₁, s₂, hid, hd, hsame, hcommit, rfl⟩ := dropTable_ok hrun
  obtain ⟨e, he, rfl, hname, -⟩ := h.defs _ id hid
  rw [hd] at he
  cases he
  have hget : ∀ k : SqlKey, s₂.led.vals.get k.bytes = _ := fun k =>
    (commit_get hcommit k).trans (get_dropOps s₁.led.vals _ d k)
  refine ⟨d, hid, hd, hname, rfl, rfl, ?_, ?_, ?_, fun lower hne => ?_⟩
  · show s₂.defs = s.defs
    rw [commit_ok hcommit, hsame.defs]
  · show s₂.led.vals.get _ = _
    rw [hget, if_neg (by simp), if_neg (by simp), if_pos rfl]
  · show s₂.led.vals.get _ = _
    rw [hget, if_neg (by simp), if_pos (by rw [hname])]
  · show s₂.led.vals.get _ = _
    rw [hget, if_neg (by simp), if_neg (by rw [hname]; simpa using hne), if_neg (by simp), hsame.table]

theorem CatInv.after_dropTable (hG : G.Ok) (h : CatInv G k s)
    (hrun : dropTable G name s = .ok () s') (hf : FoldsAs G s.catMeta name) : CatInv G (k + 1) s' := by
  obtain ⟨d, hD⟩ := h.dropped hrun
  have htab : ∀ {a i}, s'.tables.get a = some i ↔ a ≠ G.toLower name ∧ s.tables.get a = some i := by
    intro a i
    rw [hD.tables, OrdMap.get_erase]
    by_cases ha : a = G.toLower name <;> simp [ha]
  have hm := hD.catMeta
  refine CatInv.mono (k := k) (h.update hG (G.toLower name) d ⟨hm ▸ hD.root, hm ▸ le_rfl, hm ▸ le_rfl, ?_⟩
    ?_ ?_ (fun i hi => absurd rfl (htab.1 hi).1) (hm ▸ h.nextTable) (hm ▸ h.nextIndex)) (Nat.le_succ k)
  · intro a i ha hne
    have ha := (htab.1 ha).2
    exact ⟨ha, fun he => hne (h.ids a _ d.id (he ▸ ha) hD.found), by rw [hD.defs], hD.kept a hne⟩
  · rw [hm]
    exact h.nodup.sublist (List.filter_sublist.map _)
  · intro lower
    rw [hm]
    constructor
    · intro hl
      obtain ⟨n, hn, rfl⟩ := List.mem_map.1 hl
      obtain ⟨hn, hfold⟩ := List.mem_filter.1 hn
      obtain ⟨id, hid⟩ := (h.listed _).1 (List.mem_map_of_mem hn)
      refine ⟨id, htab.2 ⟨fun he => ?_, hid⟩⟩
      rw [(hf n hn).2 he] at hfold
      cases hfold
    · rintro ⟨id, hid⟩
      obtain ⟨hne, hid⟩ := htab.1 hid
      obtain ⟨n, hn, rfl⟩ := List.mem_map.1 ((h.listed lower).2 ⟨id, hid⟩)
      refine List.mem_map_of_mem (List.mem_filter.2 ⟨hn, ?_⟩)
      rw [Bool.not_eq_true', Bool.eq_false_iff]
      exact fun hfold => hne ((hf n hn).1 hfold)

/-- A statement that leaves a persisted catalog edited the list by lower case: it took the definition under `name`, and
of the listed names those that fold to `name`. -/
theorem CatInv.folds_of (hG : G.Ok) (h : CatInv G k s) (hp : Persisted G s')
    (hroot : s'.led.vals.get SqlKey.catalog.bytes = some (tagCatalogMeta :: G.marshalMeta m))
    (hgone : s'.led.vals.get (SqlKey.table (G.toLower name)).bytes = none)
    (hkept : ∀ {a i e}, s.tables.get a = some i → s.defs.get i = some e → a ≠ G.toLower name →
      s'.tables.get a = some i ∧ s'.defs.get i = some e)
    (hmem : ∀ n ∈ s.catMeta.tables, G.equalFold n name = false → n ∈ m.tables)
    (hnot : ∀ n ∈ s.catMeta.tables, G.toLower n ∈ m.tables.map G.toLower → G.equalFold n name = false) :
    FoldsAs G s.catMeta name := by
  obtain ⟨t, hload, -, -, hdefs⟩ := hp.loads
  rw [loadCatalog_some (s := newSqlStore s'.led) hroot (hG.unmarshal_meta _)] at hload
  obtain ⟨hstored, htables⟩ := loadTables_ok hload
  intro n hn
  constructor
  · -- a name that folds but has another lower case is in memory, and no longer listed
    intro hfold
    by_contra hne
    obtain ⟨id, hid⟩ := (h.listed _).1 (List.mem_map_of_mem hn)
    obtain ⟨e, he, -⟩ := h.defs _ id hid
    obtain ⟨hid', he'⟩ := hkept hid he hne
    have hdef := (hdefs (G.toLower n)).trans (defOf_of_get hid' he')
    obtain ⟨i, f, hi, -⟩ := defOf_eq_some hdef
    have hin : G.toLower n ∈ m.tables.map G.toLower := by
      by_contra hout
      rw [htables _ hout] at hi
      cases hi
    rw [hnot n hn hin] at hfold
    cases hfold
  · -- a name with this lower case that does not fold stays listed, without a definition
    intro hlow
    by_contra hfold
    exact hstored n (hmem n hn (Bool.eq_false_iff.2 hfold)) (by rw [hlow]; exact hgone)

theorem CatInv.folds_of_dropTable (hG : G.Ok) (h : CatInv G k s)
    (hrun : dropTable G name s = .ok () s') (hp : Persisted G s') : FoldsAs G s.catMeta name := by
  obtain ⟨d, hD⟩ := h.dropped hrun
  refine h.folds_of hG hp hD.root hD.gone ?_ ?_ ?_
  · intro a i e hi he hne
    rw [hD.tables, OrdMap.get_erase, if_neg hne, hD.defs]
    exact ⟨hi, he⟩
  · intro n hn hfold
    exact List.mem_filter.2 ⟨hn, by simp [hfold]⟩
  · intro n hn hin
    obtain ⟨n', hn', hlow⟩ := List.mem_map.1 hin
    obtain ⟨hn', hfold⟩ := List.mem_filter.1 hn'
    rw [h.listed_inj hn' hn hlow] at hfold
    simpa using hfold

/-- A renamed table, and the state the rename leaves. -/
structure Renamed (G : GoLib) (oldName newName : Bytes) (d : TableDef) (s s' : MapSql C ck) : Prop where
  found : s.tables.get (G.toLower oldName) = some d.id
  free : s.tables.get (G.toLower newName) = none
  defn : s.defs.get d.id = some d
  catMeta : s'.catMeta = s.catMeta.renamed G oldName newName
  tables : s'.tables = (s.tables.erase (G.toLower oldName)).insert (G.toLower newName) d.id
  defs : s'.defs = s.defs.insert d.id { d with name := newName }
  root : s'.led.vals.get SqlKey.catalog.bytes =
    some (tagCatalogMeta :: G.marshalMeta (s.catMeta.renamed G oldName newName))
  gone : s'.led.vals.get (SqlKey.table (G.toLower oldName)).bytes = none
  moved : s'.led.vals.get (SqlKey.table (G.toLower newName)).bytes =
    some (tagCatalogTable :: G.marshalTable { d with name := newName })
  kept : ∀ lower, lower ≠ G.toLower oldName → lower ≠ G.toLower newName →
    s'.led.vals.get (SqlKey.table lower).bytes = s.led.vals.get (SqlKey.table lower).bytes

variable {oldName newName : Bytes}

theorem CatInv.renamed (h : CatInv G k s)
    (hrun : renameTable G oldName newName s = .ok () s') : ∃ d, Renamed G oldName newName d s s' := by
  obtain ⟨_, _, _, s₁, ⟨id, d, hid, hnew, hd, rfl, rfl, rfl⟩, hcommit, rfl⟩ := (renameTable_run oldName newName).ok hrun
  obtain ⟨e, he, rfl, -, -⟩ := h.defs _ id hid
  rw [hd] at he
  cases he
  have hne : G.toLower newName ≠ G.toLower oldName := by
    intro he
    rw [he, hid] at hnew
    cases hnew
  have hget : ∀ k : SqlKey, s₁.led.vals.get k.bytes = _ := fun k =>
    (commit_get hcommit k).trans (get_renameOps s.led.vals _ { d with name := newName } oldName k)
  have hs₁ := commit_ok hcommit
  refine ⟨d, hid, hnew, hd, rfl, ?_, ?_, ?_, ?_, ?_, fun lower hlo hln => ?_⟩
  · rw [hs₁]
  · rw [hs₁]
  · show s₁.led.vals.get _ = _
    rw [hget, if_neg (by simp), if_neg (by simp), if_pos rfl]
  · show s₁.led.vals.get _ = _
    rw [hget, if_pos rfl]
  · show s₁.led.vals.get _ = _
    rw [hget, if_neg (by simpa using hne), if_pos rfl]
  · show s₁.led.vals.get _ = _
    rw [hget, if_neg (by simpa using hlo), if_neg (by simpa using hln), if_neg (by simp)]

/-- The lower-case names after a rename: those before it, without the old and with the new one. -/
theorem Renamed.get_tables (h : Renamed G oldName newName d s s') {a : Bytes} {i : UInt64} : s'.tables.get a = some i ↔
      (a = G.toLower newName ∧ i = d.id) ∨ (a ≠ G.toLower newName ∧ a ≠ G.toLower oldName ∧ s.tables.get a = some i) := by
  rw [h.tables, OrdMap.get_insert]
  by_cases hn : a = G.toLower newName
  · simp [hn, eq_comm]
  · rw [if_neg hn, OrdMap.get_erase]
    by_cases ho : a = G.toLower oldName
    · rw [if_pos ho]
      refine ⟨fun h => (by cases h), ?_⟩
      rintro (⟨h, -⟩ | ⟨-, h, -⟩)
      · exact absurd h hn
      · exact absurd ho h
    · simp [hn, ho]

theorem CatInv.after_renameTable (hG : G.Ok) (h : CatInv G k s)
    (hrun : renameTable G oldName newName s = .ok () s') (hf : FoldsAs G s.catMeta oldName) : CatInv G (k + 1) s' := by
  obtain ⟨d, hR⟩ := h.renamed hrun
  have hm := hR.catMeta
  have hnew := h.not_listed hR.free
  refine CatInv.mono (k := k) (h.update hG (G.toLower newName) { d with name := newName }
    ⟨hm ▸ hR.root, hm ▸ le_rfl, hm ▸ le_rfl, ?_⟩ ?_ ?_ ?_ (hm ▸ h.nextTable) (hm ▸ h.nextIndex)) (Nat.le_succ k)
  · intro a i ha hne
    obtain ⟨ho, ha⟩ := ((hR.get_tables.1 ha).resolve_left fun hc => hne hc.1).2
    have hi : i ≠ d.id := fun he => ho (h.ids a _ d.id (he ▸ ha) hR.found)
    exact ⟨ha, hi, by rw [hR.defs, OrdMap.get_insert, if_neg hi], hR.kept a ho hne⟩
  · rw [hm]
    show ((s.catMeta.tables.map fun n => if G.equalFold n oldName then newName else n).map G.toLower).Nodup
    rw [List.map_map, List.Nodup, List.pairwise_map]
    refine (List.pairwise_map.1 h.nodup).imp_of_mem fun {n n'} hn hn' hne => ?_
    simp only [Function.comp_apply]
    by_cases h1 : G.equalFold n oldName = true <;> by_cases h2 : G.equalFold n' oldName = true
    · exact absurd (((hf n hn).1 h1).trans ((hf n' hn').1 h2).symm) hne
    · rw [if_pos h1, if_neg h2]
      exact (hnew n' hn').symm
    · rw [if_neg h1, if_pos h2]
      exact hnew n hn
    · rw [if_neg h1, if_neg h2]
      exact hne
  · intro lower
    rw [hm]
    constructor
    · intro hl
      obtain ⟨n', hn', rfl⟩ := List.mem_map.1 hl
      obtain ⟨n, hn, rfl⟩ := List.mem_map.1 hn'
      by_cases hfold : G.equalFold n oldName = true
      · rw [if_pos hfold]
        exact ⟨d.id, hR.get_tables.2 (.inl ⟨rfl, rfl⟩)⟩
      · rw [if_neg hfold]
        obtain ⟨i, hi⟩ := (h.listed _).1 (List.mem_map_of_mem hn)
        exact ⟨i, hR.get_tables.2 (.inr ⟨hnew n hn, fun he => hfold ((hf n hn).2 he), hi⟩)⟩
    · rintro ⟨i, hi⟩
      rcases hR.get_tables.1 hi with ⟨rfl, -⟩ | ⟨-, ho, hi⟩
      · obtain ⟨n, hn, hlow⟩ := List.mem_map.1 ((h.listed _).2 ⟨_, hR.found⟩)
        refine List.mem_map_of_mem (List.mem_map.2 ⟨n, hn, ?_⟩)
        rw [if_pos ((hf n hn).2 hlow)]
      · obtain ⟨n, hn, rfl⟩ := List.mem_map.1 ((h.listed lower).2 ⟨i, hi⟩)
        refine List.mem_map_of_mem (List.mem_map.2 ⟨n, hn, ?_⟩)
        rw [if_neg fun hfold => ho ((hf n hn).1 hfold)]
  · intro i hi
    have hdefn : s'.defs.get d.id = some { d with name := newName } := by rw [hR.defs, OrdMap.get_insert, if_pos rfl]
    refine ⟨((hR.get_tables.1 hi).resolve_right fun hc => hc.1 rfl).2, rfl, hdefn, hR.moved,
      hm ▸ h.below _ d.id hR.found, hm ▸ h.indexIds _ d.id d hR.found hR.defn, ?_⟩
    intro a j e ha hne he x hx y hy hxy
    have hold := h.indexOwner _ a d.id j d e hR.found ha hR.defn he x hx y hy hxy
    rw [← hold, hR.found] at ha
    exact hne (Option.some.inj ha).symm

theorem CatInv.folds_of_renameTable (hG : G.Ok) (h : CatInv G k s)
    (hrun : renameTable G oldName newName s = .ok () s') (hp : Persisted G s') : FoldsAs G s.catMeta oldName := by
  obtain ⟨d, hR⟩ := h.renamed hrun
  refine h.folds_of hG hp hR.root hR.gone ?_ ?_ ?_
  · intro a i e hi he hne
    have hidne : i ≠ d.id := fun hid => hne (h.ids a _ d.id (hid ▸ hi) hR.found)
    refine ⟨hR.get_tables.2 (.inr ⟨fun hn => ?_, hne, hi⟩), by rw [hR.defs, OrdMap.get_insert, if_neg hidne]; exact he⟩
    rw [hn, hR.free] at hi
    cases hi
  · intro n hn hfold
    exact List.mem_map.2 ⟨n, hn, by simp [hfold]⟩
  · intro n hn hin
    obtain ⟨m', hm', hlow⟩ := List.mem_map.1 hin
    obtain ⟨n', hn', rfl⟩ := List.mem_map.1 hm'
    by_cases hfold : G.equalFold n' oldName = true
    · rw [if_pos hfold] at hlow
      exact absurd hlow.symm (h.not_listed hR.free n hn)
    · rw [if_neg hfold] at hlow
      rw [h.listed_inj hn' hn hlow] at hfold
      exact Bool.eq_false_iff.2 hfold

/-! ## Runs -/

/-- **One statement.** It keeps the invariant when folding and lower case agree on what it looks for. -/
theorem CatInv.step (hG : G.Ok) (hk : k + 1 < 2 ^ 64) (h : CatInv G k s) {c : Ddl}
    (hok : (s.ddl G c).1 = .ok ()) (hf : c.Folds G s.catMeta) : CatInv G (k + 1) (s.ddl G c).2 := by
  obtain ⟨s', hrun⟩ := exists_of_val hok
  show CatInv G (k + 1) (c.exec G s).state
  rw [hrun]
  show CatInv G (k + 1) s'
  cases c with
  | createTable name schema comment => exact h.after_createTable hG hk hrun
  | renameTable oldName newName => exact h.after_renameTable hG hrun hf
  | dropTable name => exact h.after_dropTable hG hrun hf
  | truncate table =>
    obtain ⟨id, s₁, hid, hrest⟩ := bind_eq_ok hrun
    obtain ⟨-, rfl⟩ := getTableInsensitive_ok hid
    obtain ⟨n, s₂, htrunc, hlast⟩ := bind_eq_ok hrest
    cases hlast
    exact (h.same (truncate_ok htrunc)).mono (Nat.le_succ k)
  | createIndex table name indexDefn =>
    obtain ⟨id, s₁, hid, hrest⟩ := bind_eq_ok hrun
    obtain ⟨hid, rfl⟩ := getTableInsensitive_ok hid
    exact h.after_createIndex hG hk hid hrest
  | renameIndex table old new =>
    obtain ⟨id, s₁, hid, hrest⟩ := bind_eq_ok hrun
    obtain ⟨hid, rfl⟩ := getTableInsensitive_ok hid
    exact h.after_renameIndex hG hid hrest
  | dropIndex table name =>
    obtain ⟨id, s₁, hid, hrest⟩ := bind_eq_ok hrun
    obtain ⟨hid, rfl⟩ := getTableInsensitive_ok hid
    exact h.after_dropIndex hG hid hrest

/-- A statement that leaves a persisted catalog edited the list by lower case. -/
theorem CatInv.folds (hG : G.Ok) (h : CatInv G k s) {c : Ddl} (hok : (s.ddl G c).1 = .ok ())
    (hp : Persisted G (s.ddl G c).2) : c.Folds G s.catMeta := by
  obtain ⟨s', hrun⟩ := exists_of_val hok
  have hs : (s.ddl G c).2 = s' := congrArg EStateM.Result.state hrun
  rw [hs] at hp
  cases c with
  | dropTable name => exact h.folds_of_dropTable hG hrun hp
  | renameTable oldName newName => exact h.folds_of_renameTable hG hrun hp
  | _ => trivial

/-- A store opened on a ledger that has no catalog yet. -/
structure Uncatalogued (s : MapSql C ck) : Prop where
  catMeta : s.catMeta = ⟨1, 1, []⟩
  tables : s.tables = OrdMap.empty
  root : s.led.vals.get metaKey = none

theorem Uncatalogued.catInv (h : Uncatalogued s) : CatInv G 1 s := by
  have hnone : ∀ a, s.tables.get a = none := fun a => by rw [h.tables]; rfl
  have habsurd : ∀ {a i}, s.tables.get a ≠ some i := fun {a i} hi => by rw [hnone a] at hi; cases hi
  refine ⟨.inl ⟨h.root, h.catMeta⟩, ?_, fun lower => ?_, fun a i hi => absurd hi habsurd,
    fun a b i hi => absurd hi habsurd, fun a i hi => absurd hi habsurd, fun a i d hi => absurd hi habsurd,
    fun a b i j d e hi => absurd hi habsurd, ?_, ?_⟩
  · rw [h.catMeta]
    exact List.nodup_nil
  · rw [h.catMeta]
    exact ⟨fun hl => (by cases hl), fun ⟨i, hi⟩ => absurd hi habsurd⟩
  · rw [h.catMeta]; exact le_rfl
  · rw [h.catMeta]; exact le_rfl

/-- From a state of a run on, `k` ids being enough so far. -/
theorem persisted_iff_of_catInv (hG : G.Ok) {cs : List Ddl} : ∀ {k : ℕ} {s : MapSql C ck}, CatInv G k s →
    k + cs.length < 2 ^ 64 → (∀ r ∈ (run (SqlStore.ddl G) s cs).1, r = .ok ()) →
    ((∀ s' ∈ trace (SqlStore.ddl G) s cs, Persisted G s') ↔
      Along (SqlStore.ddl G) (fun s c => c.Folds G s.catMeta) s cs) := by
  induction cs with
  | nil =>
    intro k s h _ _
    refine ⟨fun _ => trivial, fun _ s' hs' => ?_⟩
    rw [List.mem_singleton.1 hs']
    exact h.persisted
  | cons c cs ih =>
    intro k s h hk hok
    rw [List.length_cons] at hk
    have hc : (s.ddl G c).1 = .ok () := hok _ List.mem_cons_self
    have hcs : ∀ r ∈ (run (SqlStore.ddl G) (s.ddl G c).2 cs).1, r = .ok () := fun r hr =>
      hok r (List.mem_cons_of_mem _ hr)
    constructor
    · intro hp
      have hf := h.folds hG hc (hp _ (List.mem_cons_of_mem _ (self_mem_trace _ _)))
      have h' := h.step hG (by omega) hc hf
      exact ⟨hf, (ih h' (by omega) hcs).1 fun s' hs' => hp s' (List.mem_cons_of_mem _ hs')⟩
    · rintro ⟨hf, hrest⟩ s' hs'
      have h' := h.step hG (by omega) hc hf
      rcases List.mem_cons.1 hs' with rfl | hs'
      · exact h.persisted
      · exact (ih h' (by omega) hcs).2 hrest s' hs'

/-- **Catalog persistence.** Along a run of statements that all returned, from a ledger without a catalog, loading the
catalog gives the one in memory after every statement exactly when, at each drop and rename, folding and lower case agree
on the listed names. -/
theorem catalog_persisted_iff (hG : G.Ok) {s : MapSql C ck} (hs : Uncatalogued s) {cs : List Ddl}
    (hlen : cs.length + 1 < 2 ^ 64) (hok : ∀ r ∈ (run (SqlStore.ddl G) s cs).1, r = .ok ()) :
    (∀ s' ∈ trace (SqlStore.ddl G) s cs, Persisted G s') ↔
      Along (SqlStore.ddl G) (fun s c => c.Folds G s.catMeta) s cs :=
  persisted_iff_of_catInv hG hs.catInv (by omega) hok

/-- A new store on an empty ledger. -/
def emptySql (C : Crypto) (ck : Bytes) : MapSql C ck where
  led := {}
  catMeta := ⟨1, 1, []⟩
  tables := OrdMap.empty
  defs := OrdMap.empty

/-- A table with one integer column, its primary key. -/
def idSchema : PrimaryKeySchema := ⟨[{ name := ascii "id", qtype := .int64 }], [0]⟩

/-- A table created, indexed, renamed and dropped under names that differ in case. -/
def asciiRun : List Ddl :=
  [.createTable (ascii "T") idSchema [], .createIndex (ascii "t") (ascii "x") ⟨true, [⟨ascii "ID", 0⟩]⟩,
    .renameTable (ascii "t") (ascii "U"), .createTable (ascii "V") idSchema [], .dropTable (ascii "u")]

theorem catalog_persisted_ascii : (∀ r ∈ (run (SqlStore.ddl sampleLib) (emptySql plainCrypto []) asciiRun).1, r = .ok ()) ∧
    ∀ s' ∈ trace (SqlStore.ddl sampleLib) (emptySql plainCrypto []) asciiRun, Persisted sampleLib s' := by
  have hok : ∀ r ∈ (run (SqlStore.ddl sampleLib) (emptySql plainCrypto []) asciiRun).1, r = .ok () := by decide +kernel
  exact ⟨hok, (catalog_persisted_iff sampleLib_ok ⟨rfl, rfl, rfl⟩ (by decide) hok).2 (by decide +kernel)⟩

/-- The name `ſ`. -/
def longS : Bytes := [0xC5, 0xBF]

/-- The tables `s` and `ſ`, of which `s` is dropped. -/
def foldedRun : List Ddl :=
  [.createTable (ascii "s") idSchema [], .createTable longS idSchema [], .dropTable (ascii "s")]

/-- **Dropping `s` loses `ſ`**: the table stays in memory, and is gone after a restart. -/
theorem catalog_lost_folded : (∀ r ∈ (run (SqlStore.ddl sampleLib) (emptySql plainCrypto []) foldedRun).1, r = .ok ()) ∧
    ¬ Persisted sampleLib (run (SqlStore.ddl sampleLib) (emptySql plainCrypto []) foldedRun).2 := by
  refine ⟨by decide +kernel, fun hp => ?_⟩
  obtain ⟨s', hload, -, -, hdefs⟩ := hp.loads
  have hmem : ((run (SqlStore.ddl sampleLib) (emptySql plainCrypto []) foldedRun).2.defOf longS).isSome = true := by
    decide +kernel
  have hgone : ((loadCatalog sampleLib
      (newSqlStore (run (SqlStore.ddl sampleLib) (emptySql plainCrypto []) foldedRun).2.led)).state.defOf longS).isSome =
      false := by decide +kernel
  rw [hload] at hgone
  rw [← hdefs longS] at hmem
  exact absurd (hmem.symm.trans hgone) (by decide)

end ImmutableLedger
