import ImmutableLedger.Proof.Catalog
import ImmutableLedger.Refine.Export

/-!
# Rebuilding the derived keyspace

`Open` rebuilds the derived keyspace when its marker is not the ledger's version: it drops the scan keyspace, walks the
leaves of the current version page by page, and writes the operations of every leaf that looks like a row of a catalogued
table, in chunks.

The backend may fail at any of the writes. `Derives` says how a program that writes derived records only ends.

* `derives_dropScanSpace`: the first loop leaves the keyspace without its scan entries.
* `derives_rebuildPages`: the second loop writes the operations of all leaves, or stops at the first leaf that fails.
* `derives_reconcile`: the rebuild in closed form.
-/

namespace ImmutableLedger

open EStateM

variable {C : Crypto} {ck : Bytes} {G : GoLib} {s s' : MapSql C ck}

/-! ## Leaves -/

section
variable {l : List (Bytes × Bytes)} {m : OrdMap Hash Bytes}

theorem get_foldl_insert_of_notin {p : Hash} (h : ∀ e ∈ l, pathOf C ck e.1 ≠ p) :
    ∀ m : OrdMap Hash Bytes, (l.foldl (fun m e => m.insert (pathOf C ck e.1) e.2) m).get p = m.get p := by
  induction l with
  | nil => intro m; rfl
  | cons e l ih =>
    intro m
    rw [List.foldl_cons, ih fun e' he' => h e' (List.mem_cons_of_mem _ he'), OrdMap.get_insert,
      if_neg (h e List.mem_cons_self).symm]

theorem get_foldl_insert_of_mem (hl : (l.map fun e => pathOf C ck e.1).Nodup) {e : Bytes × Bytes} (he : e ∈ l) :
    ∀ m : OrdMap Hash Bytes,
      (l.foldl (fun m e => m.insert (pathOf C ck e.1) e.2) m).get (pathOf C ck e.1) = some e.2 := by
  induction l with
  | nil => cases he
  | cons a l ih =>
    intro m
    obtain ⟨hnot, hnodup⟩ := List.nodup_cons.1 hl
    rw [List.foldl_cons]
    rcases List.mem_cons.1 he with rfl | he
    · rw [get_foldl_insert_of_notin, OrdMap.get_insert, if_pos rfl]
      exact fun e' he' heq => hnot (List.mem_map.2 ⟨e', he', heq⟩)
    · exact ih hnodup he _

end

/-- The stored keys have different paths. -/
def PathsDistinct (C : Crypto) (ck : Bytes) (vals : OrdMap Bytes Bytes) : Prop :=
  Set.InjOn (pathOf C ck) {k | (vals.get k).isSome}

theorem PathsDistinct.nodup {vals : OrdMap Bytes Bytes} (h : PathsDistinct C ck vals) :
    (vals.entries.map fun e => pathOf C ck e.1).Nodup := by
  have hkeys := vals.nodup_keys
  have hmap : (vals.entries.map fun e => pathOf C ck e.1) = (vals.entries.map Prod.fst).map (pathOf C ck) := by
    rw [List.map_map]
    rfl
  rw [hmap]
  have hstored : ∀ {k}, k ∈ vals.entries.map Prod.fst → (vals.get k).isSome := by
    intro k hk
    obtain ⟨e, he, rfl⟩ := List.mem_map.1 hk
    exact Option.isSome_iff_exists.2 ⟨e.2, OrdMap.mem_entries.1 he⟩
  exact hkeys.map_on fun a ha b hb hab => h (hstored ha) (hstored hb) hab

/-- **The leaves of the current version** are the stored values. -/
theorem mem_leaves {vals : OrdMap Bytes Bytes} (h : PathsDistinct C ck vals) {v : Bytes} :
    v ∈ (byPath C ck vals).entries.map Prod.snd ↔ ∃ k, vals.get k = some v := by
  constructor
  · intro hv
    obtain ⟨⟨p, v⟩, he, rfl⟩ := List.mem_map.1 hv
    have hget := OrdMap.mem_entries.1 he
    by_cases hp : ∃ e ∈ vals.entries, pathOf C ck e.1 = p
    · obtain ⟨e, hmem, rfl⟩ := hp
      have he2 := get_foldl_insert_of_mem h.nodup hmem OrdMap.empty
      unfold byPath at hget
      rw [he2] at hget
      cases hget
      exact ⟨e.1, OrdMap.mem_entries.1 hmem⟩
    · unfold byPath at hget
      rw [get_foldl_insert_of_notin fun e he hep => hp ⟨e, he, hep⟩] at hget
      cases hget
  · rintro ⟨k, hk⟩
    have hmem : (k, v) ∈ vals.entries := OrdMap.mem_entries.2 hk
    have hget := get_foldl_insert_of_mem h.nodup hmem OrdMap.empty
    exact List.mem_map.2 ⟨(pathOf C ck k, v), OrdMap.mem_entries.2 hget, rfl⟩

/-! ## Derived records -/

/-- The store with another derived keyspace, after `n` writes. -/
def SqlStore.withDerived (s : MapSql C ck) (d : MemBackend) (n : ℕ) : MapSql C ck :=
  { s with led := { s.led with derived := d, plan := s.led.plan.drop n } }

theorem withDerived_withDerived (d e : MemBackend) (n m : ℕ) :
    (s.withDerived d n).withDerived e m = s.withDerived e (n + m) := by
  unfold SqlStore.withDerived
  rw [List.drop_drop]

/-- How a program that writes derived records only ends from `s`: it returns, as `P` says, or it fails, for the reason `F`
unless the backend failed. -/
def Derives {α : Type} (s : MapSql C ck) (res : Result SqlErr (MapSql C ck) α)
    (P : α → MemBackend → Prop) (F : SqlErr → Prop) : Prop :=
  ∃ d n, (∃ a, res = .ok a (s.withDerived d n) ∧ P a d) ∨
    ∃ e, res = .error e (s.withDerived d n) ∧ (s.led.plan = [] → F e)

section
variable {α β : Type} {P Q : α → MemBackend → Prop} {F : SqlErr → Prop}

theorem Derives.done {a : α} (h : P a s.led.derived) : Derives s (.ok a s) P F := ⟨_, 0, .inl ⟨a, rfl, h⟩⟩

theorem Derives.mono {res : Result SqlErr (MapSql C ck) α} (h : Derives s res P F)
    (hPQ : ∀ a d, P a d → Q a d) : Derives s res Q F := by
  obtain ⟨d, n, ⟨a, hres, hP⟩ | h⟩ := h
  · exact ⟨d, n, .inl ⟨a, hres, hPQ a d hP⟩⟩
  · exact ⟨d, n, .inr h⟩

/-- What ends so from a state after some writes ends so from before them. -/
theorem Derives.later {F' : SqlErr → Prop} {d : MemBackend} {n : ℕ}
    {res : Result SqlErr (MapSql C ck) α} (h : Derives (s.withDerived d n) res P F)
    (hF : ∀ e, F e → F' e) : Derives s res P F' := by
  obtain ⟨d', m, h⟩ := h
  rw [withDerived_withDerived] at h
  refine ⟨d', n + m, h.imp id ?_⟩
  rintro ⟨e, hres, he⟩
  refine ⟨e, hres, fun hplan => hF e (he ?_)⟩
  show s.led.plan.drop n = []
  rw [hplan, List.drop_nil]

theorem Derives.bind {x : SqlM (MapLedger C ck) α} {f : α → SqlM (MapLedger C ck) β} {Q : β → MemBackend → Prop}
    (hx : Derives s (x s) P F) (hf : ∀ a d n, P a d → Derives (s.withDerived d n) (f a (s.withDerived d n)) Q F) :
    Derives s ((x >>= f) s) Q F := by
  obtain ⟨d, n, ⟨a, hres, hP⟩ | ⟨e, hres, he⟩⟩ := hx
  · rw [run_bind_ok hres]
    exact (hf a d n hP).later fun _ he => he
  · exact ⟨d, n, .inr ⟨e, run_bind_error hres, he⟩⟩

theorem derives_writeBatch (ops : List BatchOp) : Derives s (onLedger (LedgerApi.backendWriteBatch ops) s)
    (fun _ d => d = MemBackend.writeBatch s.led.derived ops) F := by
  have hw : (LedgerApi.backendWriteBatch ops : EStateM Err (MapLedger C ck) Unit) s.led =
      if s.led.Fails then .error (.raw "write failed") s.led.spend else .ok () (s.led.derive ops) := rfl
  have hspend : s.led.spend = { s.led with plan := s.led.plan.drop 1 } := by rw [List.drop_one]; rfl
  unfold MapLedger.derive at hw
  rw [hspend] at hw
  by_cases hf : s.led.Fails
  · rw [if_pos hf] at hw
    exact ⟨s.led.derived, 1, .inr ⟨_, onLedger_error s hw, fun hplan => absurd hf (MapLedger.not_fails _ hplan)⟩⟩
  · rw [if_neg hf] at hw
    exact ⟨_, 1, .inl ⟨(), onLedger_ok s hw, rfl⟩⟩

end

theorem writeBatch_append (d : MemBackend) (ops ops' : List BatchOp) :
    MemBackend.writeBatch d (ops ++ ops') = MemBackend.writeBatch (MemBackend.writeBatch d ops) ops' := List.foldl_append

/-- Deleting a list of records. -/
theorem get_deleteAll (d : MemBackend) (kvs : List (Bytes × Bytes)) (k : Bytes) :
    (MemBackend.writeBatch d (kvs.map fun kv => { key := kv.1, delete := true })).get k =
      if k ∈ kvs.map Prod.fst then none else d.get k := by
  by_cases hk : k ∈ kvs.map Prod.fst
  · rw [if_pos hk]
    obtain ⟨kv, hkv, rfl⟩ := List.mem_map.1 hk
    refine MemBackend.get_writeBatch ⟨_, List.mem_map_of_mem hkv, rfl⟩ ?_ d
    intro op hop _
    obtain ⟨kv', -, rfl⟩ := List.mem_map.1 hop
    rfl
  · rw [if_neg hk]
    refine MemBackend.get_writeBatch_of_notin (fun op hop he => hk ?_) d
    obtain ⟨kv, hkv, rfl⟩ := List.mem_map.1 hop
    exact List.mem_map.2 ⟨kv, hkv, he⟩

/-! ## Dropping the scan keyspace -/

/-- A key of the scan keyspace. -/
def IsScanKey (k : Bytes) : Prop := k.head? = some scanPrefix

instance (k : Bytes) : Decidable (IsScanKey k) := inferInstanceAs (Decidable (_ = _))

theorem scanRange_iff {k : Bytes} : [scanPrefix] ≤ k ∧ k < [scanPrefix + 1] ↔ IsScanKey k := by
  rw [mem_range_iff (show incBytes [scanPrefix] = some [scanPrefix + 1] from by decide)]
  cases k with
  | nil => simp [IsScanKey]
  | cons a k => simp [IsScanKey, List.cons_prefix_cons, eq_comm]

/-- The derived keyspace without its scan keyspace. -/
def unscanned (d : MemBackend) : MemBackend := d.filter fun e => decide (¬ IsScanKey e.1)

/-- The records of the scan keyspace. -/
def scanned (d : MemBackend) : MemBackend := d.filter fun e => decide (IsScanKey e.1)

theorem get_unscanned (d : MemBackend) (k : Bytes) : (unscanned d).get k = if IsScanKey k then none else d.get k := by
  unfold unscanned
  rw [OrdMap.get_filter]
  by_cases hk : IsScanKey k <;> cases d.get k <;> simp [hk]

theorem get_scanned (d : MemBackend) (k : Bytes) : (scanned d).get k = if IsScanKey k then d.get k else none := by
  unfold scanned
  rw [OrdMap.get_filter]
  by_cases hk : IsScanKey k <;> cases d.get k <;> simp [hk]

theorem scan_scanRange (d : MemBackend) :
    MemBackend.scan d [scanPrefix] [scanPrefix + 1] scanChunkSize = (scanned d).entries.take scanChunkSize := by
  unfold MemBackend.scan scanned
  rw [if_neg (by decide)]
  show List.take _ (List.filter _ d.entries) = List.take _ (List.filter _ d.entries)
  congr 1
  refine List.filter_congr fun e _ => ?_
  rw [Bool.eq_iff_iff]
  simpa using scanRange_iff (k := e.1)

/-- **The scan keyspace is dropped**, in enough rounds. -/
theorem derives_dropScanSpace {F : SqlErr → Prop} : ∀ {rounds : ℕ} {s : MapSql C ck},
    (scanned s.led.derived).size < rounds →
    Derives s (dropScanSpace rounds s) (fun _ d => d = unscanned s.led.derived) F := by
  intro rounds
  induction rounds with
  | zero => intro s h; omega
  | succ rounds ih =>
    intro s hsize
    unfold dropScanSpace
    rw [run_bind_ok (backendScan_run s _ _ _), scan_scanRange]
    set kvs := (scanned s.led.derived).entries.take scanChunkSize with hkvs
    have hmem : ∀ {k}, k ∈ kvs.map Prod.fst → (scanned s.led.derived).get k ≠ none := by
      intro k hk
      obtain ⟨e, he, rfl⟩ := List.mem_map.1 hk
      rw [OrdMap.mem_entries.1 (List.mem_of_mem_take he)]
      exact Option.some_ne_none _
    by_cases hnil : kvs = []
    · have hnone : ∀ k, (scanned s.led.derived).get k = none := by
        have hentries : (scanned s.led.derived).entries = [] := by
          rcases List.take_eq_nil_iff.1 (hkvs ▸ hnil) with h | h
          · exact absurd h (by decide)
          · exact h
        exact fun k => OrdMap.get_eq_none.2 (by rw [hentries]; exact fun e he => by cases he)
      have hall : unscanned s.led.derived = s.led.derived := by
        refine OrdMap.ext_get fun k => ?_
        rw [get_unscanned]
        split
        · rename_i hk
          have := hnone k
          rw [get_scanned, if_pos hk] at this
          exact this.symm
        · rfl
      rw [if_pos hnil]
      exact Derives.done hall.symm
    · rw [if_neg hnil]
      refine (derives_writeBatch _).bind fun _ d₁ n hd₁ => ?_
      have hget : ∀ k, d₁.get k = if k ∈ kvs.map Prod.fst then none else s.led.derived.get k := fun k => by
        rw [hd₁, get_deleteAll]
      have hkey : ∀ {k}, k ∈ kvs.map Prod.fst → IsScanKey k := by
        intro k hk
        by_contra hnot
        exact hmem hk (by rw [get_scanned, if_neg hnot])
      -- the records outside the scan keyspace stay
      have hun : unscanned d₁ = unscanned s.led.derived := by
        refine OrdMap.ext_get fun k => ?_
        rw [get_unscanned, get_unscanned, hget]
        split
        · rfl
        · rename_i hk
          rw [if_neg fun h => hk (hkey h)]
      by_cases hfull : kvs.length < scanChunkSize
      · rw [if_pos hfull]
        have hlast : kvs = (scanned s.led.derived).entries := by
          rw [hkvs]
          refine List.take_of_length_le ?_
          rw [hkvs, List.length_take] at hfull
          omega
        have hd : d₁ = unscanned s.led.derived := by
          refine OrdMap.ext_get fun k => ?_
          rw [hget, get_unscanned, hlast]
          by_cases hk : IsScanKey k
          · rw [if_pos hk]
            split
            · rfl
            · rename_i hnot
              have hnone : (scanned s.led.derived).get k = none :=
                OrdMap.get_eq_none.2 fun e he hek => hnot (List.mem_map.2 ⟨e, he, hek⟩)
              rwa [get_scanned, if_pos hk] at hnone
          · rw [if_neg hk, if_neg fun h => hk (hkey (hlast ▸ h))]
        exact Derives.done hd
      · rw [if_neg hfull]
        -- a full chunk leaves fewer scan records
        obtain ⟨e, he⟩ := List.exists_mem_of_ne_nil kvs hnil
        have hek : e.1 ∈ kvs.map Prod.fst := List.mem_map_of_mem he
        have hlt : (scanned d₁).size < (scanned s.led.derived).size := by
          refine OrdMap.size_lt (fun k v hk => ?_) (k := e.1) (v := e.2) ?_ ?_
          · rw [get_scanned, hget] at hk
            rw [get_scanned]
            split at hk
            · rename_i hs
              rw [if_pos hs]
              split at hk
              · cases hk
              · exact hk
            · cases hk
          · exact OrdMap.mem_entries.1 (List.mem_of_mem_take he)
          · rw [get_scanned, if_pos (hkey hek), hget, if_pos hek]
        have hrest : (scanned (s.withDerived d₁ n).led.derived).size < rounds := by
          show (scanned d₁).size < rounds
          omega
        exact (ih hrest).mono fun _ d hd => hd.trans hun

/-! ## The operations of the leaves -/

/-- The derived operations of a list of ledger values, in order; the first failure if there is one. -/
def allOps (G : GoLib) {L : Type} (s : SqlStore L) : List Bytes → Except SqlErr (List BatchOp)
  | [] => .ok []
  | v :: vs => do
    let ops ← leafOps G s v
    let rest ← allOps G s vs
    pure (ops ++ rest)

theorem allOps_append (vs ws : List Bytes) : allOps G s (vs ++ ws) = (do
    let ops ← allOps G s vs
    let rest ← allOps G s ws
    pure (ops ++ rest)) := by
  induction vs with
  | nil =>
    show allOps G s ws = (allOps G s ws >>= fun rest => pure rest)
    exact (bind_pure _).symm
  | cons v vs ih =>
    rw [List.cons_append, allOps, allOps, ih]
    cases leafOps G s v with
    | error e => rfl
    | ok ops =>
      cases allOps G s vs with
      | error e => rfl
      | ok mid =>
        cases allOps G s ws with
        | error e => rfl
        | ok rest => exact congrArg Except.ok (List.append_assoc ops mid rest).symm

theorem allOps_withDerived (d : MemBackend) (n : ℕ) (vs : List Bytes) :
    allOps G (s.withDerived d n) vs = allOps G s vs := by
  induction vs with
  | nil => rfl
  | cons v vs ih =>
    rw [allOps, allOps, ih]
    rfl

/-- What a loop over leaves with the operations `r` has done from `d₀`, with `ops` left over from before: a part of them
is written, and `rest` is not yet. -/
def Flushed (r : Except SqlErr (List BatchOp)) (ops : List BatchOp) (d₀ : MemBackend) (rest : List BatchOp)
    (d : MemBackend) : Prop :=
  ∃ all flushed, r = .ok all ∧ flushed ++ rest = ops ++ all ∧ d = MemBackend.writeBatch d₀ flushed

/-- The loop after its first operations `new`. -/
theorem Derives.flush {r : Except SqlErr (List BatchOp)} {ops new flushed left : List BatchOp} {n : ℕ}
    {res : Result SqlErr (MapSql C ck) (List BatchOp)} (heq : flushed ++ left = ops ++ new)
    (h : Derives (s.withDerived (MemBackend.writeBatch s.led.derived flushed) n) res
      (Flushed r left (MemBackend.writeBatch s.led.derived flushed)) fun e => r = .error e) :
    Derives s res (Flushed (do let rest ← r; pure (new ++ rest)) ops s.led.derived)
      fun e => (do let rest ← r; pure (new ++ rest)) = .error e := by
  refine (h.later fun e he => by rw [he]; rfl).mono ?_
  rintro rest d ⟨all, flushed', rfl, heq', rfl⟩
  refine ⟨new ++ all, flushed ++ flushed', rfl, ?_, (writeBatch_append _ _ _).symm⟩
  rw [List.append_assoc, heq', ← List.append_assoc, heq, List.append_assoc]

/-- **The loop over the leaves of a page.** -/
theorem derives_rebuildPage : ∀ {vs : List Bytes} (ops : List BatchOp) {s : MapSql C ck},
    Derives s (rebuildPage G vs ops s) (Flushed (allOps G s vs) ops s.led.derived) fun e => allOps G s vs = .error e := by
  intro vs
  induction vs with
  | nil => exact fun ops s => Derives.done ⟨[], [], rfl, (List.append_nil ops).symm, rfl⟩
  | cons v vs ih =>
    intro ops s
    unfold rebuildPage
    rw [run_get_bind, allOps]
    cases leafOps G s v with
    | error e => exact ⟨_, 0, .inr ⟨e, rfl, fun _ => rfl⟩⟩
    | ok new =>
      rw [ofSql_ok, pure_bind]
      split
      · -- the chunk is written, and the loop goes on with nothing left over
        obtain ⟨d, n, ⟨u, hrun, rfl⟩ | ⟨e, hrun, he⟩⟩ := derives_writeBatch (s := s) (F := fun _ => False) (ops ++ new)
        · rw [run_bind_ok hrun]
          refine Derives.flush (n := n) (List.append_nil _) ?_
          rw [← allOps_withDerived (MemBackend.writeBatch s.led.derived (ops ++ new)) n]
          exact ih []
        · exact ⟨d, n, .inr ⟨e, run_bind_error hrun, fun hplan => (he hplan).elim⟩⟩
      · exact Derives.flush (n := 0) (List.nil_append (ops ++ new)) (ih (ops ++ new))

/-! ## The pages -/

/-- A page of the leaves. -/
theorem snapshotLeaves_run (startAfter : Option Hash) (max : ℕ) :
    onLedger (LedgerApi.snapshotLeaves s.led.version startAfter max) s =
      .ok ((remaining startAfter (byPath C ck s.led.vals).entries).take max,
        decide ((remaining startAfter (byPath C ck s.led.vals).entries).length ≤ max)) s := by
  have hpage : (LedgerApi.snapshotLeaves s.led.version startAfter max : EStateM Err (MapLedger C ck) _) s.led =
      .ok ((remaining startAfter (byPath C ck s.led.vals).entries).take max,
        decide ((remaining startAfter (byPath C ck s.led.vals).entries).length ≤ max)) s.led := if_pos rfl
  rw [onLedger_ok s hpage]

/-- A page that is not the last one ends in a leaf, and the pages after that leaf are shorter. -/
theorem page_last {startAfter : Option Hash} {L : List (Hash × Bytes)} (hL : L.Pairwise fun a b => a.1 < b.1)
    (hmore : ¬ (remaining startAfter L).length ≤ scanChunkSize) :
    ∃ e, ((remaining startAfter L).take scanChunkSize).getLast? = some e ∧
      remaining (some e.1) L = (remaining startAfter L).drop scanChunkSize ∧
      (remaining (some e.1) L).length < (remaining startAfter L).length := by
  have hchunk : scanChunkSize = 512 := rfl
  have hne : (remaining startAfter L).take scanChunkSize ≠ [] := by
    intro h
    have hlen := congrArg List.length h
    rw [List.length_take, List.length_nil] at hlen
    omega
  have hlast := List.getLast?_eq_some_getLast hne
  have hafter := remaining_after hL hlast
  refine ⟨_, hlast, hafter, ?_⟩
  rw [hafter, List.length_drop]
  omega

/-- **The rebuild walks every leaf**: the operations of all leaves after `startAfter` are written or left over. -/
theorem derives_rebuildPages : ∀ {rounds : ℕ} {startAfter : Option Hash} (ops : List BatchOp)
    {s : MapSql C ck}, (remaining startAfter (byPath C ck s.led.vals).entries).length < rounds →
    Derives s (rebuildPages G s.led.version rounds startAfter ops s)
      (Flushed (allOps G s ((remaining startAfter (byPath C ck s.led.vals).entries).map Prod.snd)) ops s.led.derived)
      fun e => allOps G s ((remaining startAfter (byPath C ck s.led.vals).entries).map Prod.snd) = .error e := by
  intro rounds
  induction rounds with
  | zero => intro _ _ _ h; omega
  | succ rounds ih =>
    intro startAfter ops s hlen
    unfold rebuildPages
    rw [run_bind_ok (snapshotLeaves_run _ _)]
    dsimp only
    set R := remaining startAfter (byPath C ck s.led.vals).entries with hR
    by_cases hdone : R.length ≤ scanChunkSize
    · rw [List.take_of_length_le hdone, decide_eq_true hdone]
      exact (derives_rebuildPage ops).bind fun rest d n hP => Derives.done hP
    · obtain ⟨last, hlast, hafter, hshort⟩ := page_last (byPath C ck s.led.vals).sorted hdone
      rw [← hR] at hlast hafter hshort
      -- the page, then the rest
      have hsplit := @allOps_append C ck G s ((R.take scanChunkSize).map Prod.snd) ((R.drop scanChunkSize).map Prod.snd)
      rw [← List.map_append, List.take_append_drop] at hsplit
      rw [hsplit]
      obtain ⟨d, n, ⟨rest, hrun, page, flushed, hpage, heq, rfl⟩ | ⟨e, hrun, he⟩⟩ :=
        @derives_rebuildPage C ck G ((R.take scanChunkSize).map Prod.snd) ops s
      · rw [run_bind_ok hrun, decide_eq_false hdone, hlast, hpage]
        refine Derives.flush (n := n) heq ?_
        have hrest := @ih (some last.1) rest (s.withDerived (MemBackend.writeBatch s.led.derived flushed) n)
          (by show (remaining _ (byPath C ck s.led.vals).entries).length < _; omega)
        rw [allOps_withDerived] at hrest
        change Derives _ _ (Flushed (allOps G s ((remaining (some last.1) (byPath C ck s.led.vals).entries).map _)) _ _)
          (fun e => allOps G s ((remaining (some last.1) (byPath C ck s.led.vals).entries).map _) = _) at hrest
        rw [hafter] at hrest
        exact hrest
      · exact ⟨d, n, .inr ⟨e, run_bind_error hrun, fun hplan => by rw [he hplan]; rfl⟩⟩

/-! ## Open -/

/-- The version that the marker of a derived keyspace names. -/
def appliedOf (d : MemBackend) : UInt64 :=
  match d.get [scanMetaKey] with
  | none => 0
  | some raw => if raw.length ≠ 8 then 0 else Bytes.toU64 raw

theorem appliedVersion_run (s : MapSql C ck) : appliedVersion s = .ok (appliedOf s.led.derived) s := by
  unfold appliedVersion appliedOf
  rw [run_bind_ok (backendGet_run s _)]
  cases OrdMap.get s.led.derived [scanMetaKey] with
  | none => rfl
  | some raw => rfl

theorem length_byPath_le (vals : OrdMap Bytes Bytes) : (byPath C ck vals).entries.length ≤ vals.size := by
  have hfold : ∀ (l : List (Bytes × Bytes)) (m : OrdMap Hash Bytes),
      (l.foldl (fun m e => m.insert (pathOf C ck e.1) e.2) m).size ≤ m.size + l.length := by
    intro l
    induction l with
    | nil => exact fun m => le_rfl
    | cons e l ih =>
      intro m
      have hinsert := OrdMap.size_insert_le m (pathOf C ck e.1) e.2
      have hrest := ih (m.insert (pathOf C ck e.1) e.2)
      rw [List.foldl_cons, List.length_cons]
      omega
  have hall := hfold vals.entries OrdMap.empty
  have hempty : (OrdMap.empty : OrdMap Hash Bytes).size = 0 := rfl
  have hsize : vals.size = vals.entries.length := rfl
  have hpath : (byPath C ck vals).entries.length =
      (vals.entries.foldl (fun m e => m.insert (pathOf C ck e.1) e.2) (OrdMap.empty : OrdMap Hash Bytes)).size := rfl
  omega

/-- The values of the leaves, in the order of their paths. -/
def leafValues (l : MapLedger C ck) : List Bytes := (byPath C ck l.vals).entries.map Prod.snd

/-- The marker is current: nothing happens. -/
theorem reconcile_current (h : appliedOf s.led.derived = s.led.version) : reconcileScanSpace G s = .ok () s := by
  unfold reconcileScanSpace
  rw [run_bind_ok (ledgerVersion_run s), run_bind_ok (appliedVersion_run s), if_pos h]
  rfl

/-- **The rebuild** drops the scan keyspace and writes the operations of all leaves. -/
theorem derives_reconcile (hmarker : appliedOf s.led.derived ≠ s.led.version) : Derives s (reconcileScanSpace G s)
    (fun _ d => ∃ all, allOps G s (leafValues s.led) = .ok all ∧
      d = MemBackend.writeBatch (unscanned s.led.derived) (all ++ [markerOp s.led.version]))
    fun e => allOps G s (leafValues s.led) = .error e := by
  unfold reconcileScanSpace
  rw [run_bind_ok (ledgerVersion_run s), run_bind_ok (appliedVersion_run s), if_neg hmarker, run_get_bind]
  have hsize : (scanned s.led.derived).size < LedgerApi.size s.led + 1 := by
    have hsize : LedgerApi.size s.led = s.led.vals.size + s.led.derived.size := rfl
    have hle : (scanned s.led.derived).size ≤ s.led.derived.size := by
      refine OrdMap.size_le fun k v hk => ?_
      rw [get_scanned] at hk
      split at hk
      · exact hk
      · cases hk
    omega
  refine (derives_dropScanSpace hsize).bind ?_
  rintro - _ n rfl
  rw [run_get_bind]
  -- enough rounds for the pages
  have hrounds : (remaining none (byPath C ck (s.withDerived (unscanned s.led.derived) n).led.vals).entries).length <
      LedgerApi.size (s.withDerived (unscanned s.led.derived) n).led + 1 := by
    have hsize : LedgerApi.size (s.withDerived (unscanned s.led.derived) n).led =
      s.led.vals.size + (unscanned s.led.derived).size := rfl
    have hle := @length_byPath_le C ck s.led.vals
    rw [remaining_none]
    show (byPath C ck s.led.vals).entries.length < _
    omega
  have hpages := derives_rebuildPages (G := G) [] hrounds
  rw [allOps_withDerived, remaining_none] at hpages
  refine hpages.bind ?_
  rintro rest _ m ⟨all, flushed, hall, heq, rfl⟩
  refine (derives_writeBatch _).mono fun _ d hd => ⟨all, hall, hd.trans ?_⟩
  show MemBackend.writeBatch (MemBackend.writeBatch _ flushed) (rest ++ [markerOp s.led.version]) = _
  rw [← writeBatch_append, ← List.append_assoc, heq, List.nil_append]
  rfl

/-- The store has the catalog and the map of `st`; the derived keyspace may differ. -/
def SameMap (st t : MapSql C ck) : Prop :=
  t.catMeta = st.catMeta ∧ t.tables = st.tables ∧ t.defs = st.defs ∧ t.led.vals = st.led.vals

/-- **Rebuilding the derived keyspace** changes nothing else. -/
theorem reconcile_same (s : MapSql C ck) : SameMap s (reconcileScanSpace G s).state := by
  by_cases hmarker : appliedOf s.led.derived = s.led.version
  · rw [reconcile_current hmarker]
    exact ⟨rfl, rfl, rfl, rfl⟩
  · obtain ⟨d, n, ⟨u, hrun, -⟩ | ⟨e, hrun, -⟩⟩ := derives_reconcile (G := G) hmarker <;> rw [hrun] <;>
      exact ⟨rfl, rfl, rfl, rfl⟩

/-- **Opening the store** loads the catalog; whether the rebuild then succeeds or not, the map stays. -/
theorem CatInv.opens {k : ℕ} (h : CatInv G k s) :
    ∃ s₁, loadCatalog G (newSqlStore s.led) = .ok () s₁ ∧ SameMap s₁ (openSql G s.led).state := by
  obtain ⟨s₁, hload, -⟩ := h.loads
  refine ⟨s₁, hload, ?_⟩
  have hrun : openSql G s.led = reconcileScanSpace G s₁ := by
    unfold openSql openSqlM
    rw [run_bind_ok hload]
  rw [hrun]
  exact reconcile_same s₁

end ImmutableLedger
