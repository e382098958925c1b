import ImmutableLedger.Lib.Mirror
import ImmutableLedger.Proof.Formats
import ImmutableLedger.Proof.Rebuild
import ImmutableLedger.Proof.Scan
import ImmutableLedger.Refine.Run

/-!
# The ledger's store behind the SQL layer

The SQL layer is verified over a ledger given as a map from logical keys, with the derived keyspaces beside it. In a process
it runs over a ledger's store: one backend holds the records of the trees and the derived keyspaces together. Whatever the
SQL layer asks of the two, in any order, the replies are the same.

* `Backs`: the store holds the map by paths, and its backend holds the derived keyspaces.
* `Backs.putBatch`: a batch by logical keys is the batch by paths, and writes no derived key.
* `Backs.writeBatch`: a derived write leaves the records of the ledger alone.
* `store_answers_as_map`: any run of calls.
-/

namespace ImmutableLedger

open EStateM Machine

variable {C : Crypto} {ck : Bytes} {K : Set Bytes} {W : Set (Hash × Bytes)}

/-! ## Calls -/

/-- A call of the SQL layer on the ledger, or on the backend underneath. -/
inductive LedgerCall where
  | root
  | get (key : Bytes)
  | putBatch (ops : List Op)
  | snapshotLeaves (version : UInt64) (startAfter : Option Hash) (max : ℕ)
  | backendGet (key : Bytes)
  | backendScan (start stop : Bytes) (limit : ℕ)
  | backendWriteBatch (ops : List BatchOp)

inductive LedgerReply where
  | root (r : Hash × UInt64)
  | value (v : Option Bytes)
  | leaves (page : List (Hash × Bytes) × Bool)
  | entries (kvs : List (Bytes × Bytes))
  | done
deriving DecidableEq

section
variable {L : Type} [LedgerApi L Hash]

def LedgerCall.exec : LedgerCall → EStateM Err L LedgerReply
  | root => do let l ← MonadState.get; pure (.root (LedgerApi.root l))
  | get key => do let v ← LedgerApi.get key; pure (.value v)
  | putBatch ops => do let r ← LedgerApi.putBatch ops; pure (.root r)
  | snapshotLeaves version startAfter max => do
    let page ← LedgerApi.snapshotLeaves version startAfter max
    pure (.leaves page)
  | backendGet key => do let v ← LedgerApi.backendGet key; pure (.value v)
  | backendScan start stop limit => do let kvs ← LedgerApi.backendScan start stop limit; pure (.entries kvs)
  | backendWriteBatch ops => do LedgerApi.backendWriteBatch ops; pure .done

/-- A ledger as a machine of these calls. -/
def ledgerStep (l : L) (c : LedgerCall) : Except Err LedgerReply × L := ((c.exec l).val, (c.exec l).state)

end

/-- A key of the derived keyspaces: a scan entry, the marker or an index entry. -/
def IsDerived (k : Bytes) : Prop :=
  k.head? = some scanPrefix ∨ k.head? = some scanMetaKey ∨ k.head? = some secondaryPrefix

/-- What the SQL layer keeps to: of the backend it asks for derived keys only, and leaves are those of the current version.
The keys are among `K` and the values written among `W`, which have no collisions. -/
def Asks (C : Crypto) (ck : Bytes) (K : Set Bytes) (W : Set (Hash × Bytes)) (l : MapLedger C ck) : LedgerCall → Prop
  | .root => True
  | .get key => key ∈ K
  | .putBatch ops => (∀ op ∈ ops, op.key ∈ K) ∧ (∀ e ∈ opPairs C ck ops, e ∈ W) ∧ l.version < 0xFFFFFFFFFFFFFFFF ∧
      (l.history = true → (historyPath C ck, (historyLink C l.head l.root.1 (l.version + 1)).bytes) ∈ W) ∧
      ((ledgerStep l (.putBatch ops)).2.vals ≠ OrdMap.empty → (ledgerStep l (.putBatch ops)).2.root.1 ≠ placeholderHash C)
  | .snapshotLeaves version _ max => version = l.version ∧ 1 ≤ max
  | .backendGet key => IsDerived key
  | .backendScan start stop _ => ∀ k, start ≤ k → (stop = [] ∨ k < stop) → IsDerived k
  | .backendWriteBatch ops => ∀ op ∈ ops, IsDerived op.key

/-! ## Maps by logical keys and by paths -/

section
variable (hK : Set.InjOn (pathOf C ck) K) {vals : OrdMap Bytes Bytes} (hvals : ∀ k, (vals.get k).isSome → k ∈ K)
include hvals

theorem get_byPath_of_notin {p : Hash} (hp : ∀ k ∈ K, pathOf C ck k ≠ p) : (byPath C ck vals).get p = none := by
  unfold byPath
  rw [get_foldl_insert_of_notin fun e he => hp e.1 (hvals e.1 (Option.isSome_iff_exists.2 ⟨e.2, OrdMap.mem_entries.1 he⟩))]
  rfl

include hK

theorem get_byPath {k : Bytes} (hk : k ∈ K) : (byPath C ck vals).get (pathOf C ck k) = vals.get k := by
  have hdistinct : PathsDistinct C ck vals := hK.mono fun k hk => hvals k hk
  unfold byPath
  cases hget : vals.get k with
  | some v => exact get_foldl_insert_of_mem hdistinct.nodup (OrdMap.mem_entries.2 hget) _
  | none =>
    rw [get_foldl_insert_of_notin, OrdMap.get_empty]
    intro e he hpath
    have hentry := OrdMap.mem_entries.1 (show (e.1, e.2) ∈ vals.entries from he)
    rw [hK (hvals e.1 (by rw [hentry]; rfl)) hk hpath, hget] at hentry
    cases hentry

theorem byPath_ext {m : OrdMap Hash Bytes} (hin : ∀ k ∈ K, m.get (pathOf C ck k) = vals.get k)
    (hout : ∀ p, (∀ k ∈ K, pathOf C ck k ≠ p) → m.get p = none) : m = byPath C ck vals := by
  refine OrdMap.ext_get fun p => ?_
  by_cases hp : ∃ k ∈ K, pathOf C ck k = p
  · obtain ⟨k, hk, rfl⟩ := hp
    rw [hin k hk, get_byPath hK hvals hk]
  · have hnot : ∀ k ∈ K, pathOf C ck k ≠ p := fun k hk he => hp ⟨k, hk, he⟩
    rw [hout p hnot, get_byPath_of_notin hvals hnot]

/-- One operation by its logical key is the operation by its path. -/
theorem applyOp_byPath {op : Op} (hop : op.key ∈ K) :
    applyOp C ck (byPath C ck vals) op = byPath C ck (MemBackend.applyOp vals op.record) ∧
      ∀ k, ((MemBackend.applyOp vals op.record).get k).isSome → k ∈ K := by
  have hkeys : ∀ k, ((MemBackend.applyOp vals op.record).get k).isSome → k ∈ K := by
    intro k hk
    rw [MemBackend.get_applyOp] at hk
    split at hk
    · rename_i heq
      rw [heq]
      exact hop
    · exact hvals k hk
  have hget : ∀ p, (applyOp C ck (byPath C ck vals) op).get p =
      if p = pathOf C ck op.key then (if op.delete then none else some op.value) else (byPath C ck vals).get p := by
    intro p
    unfold applyOp
    cases op.delete <;> simp
  refine ⟨byPath_ext hK hkeys (fun k hk => ?_) fun p hp => ?_, hkeys⟩
  · rw [hget, MemBackend.get_applyOp, get_byPath hK hvals hk]
    exact if_congr ⟨fun he => hK hk hop he, fun he => congrArg _ he⟩ rfl rfl
  · rw [hget, if_neg fun he => hp op.key hop he.symm, get_byPath_of_notin hvals hp]

theorem byPath_inj {vals' : OrdMap Bytes Bytes} (hvals' : ∀ k, (vals'.get k).isSome → k ∈ K)
    (h : byPath C ck vals = byPath C ck vals') : vals = vals' := by
  refine OrdMap.ext_get fun k => ?_
  by_cases hk : k ∈ K
  · rw [← get_byPath hK hvals hk, h, get_byPath hK hvals' hk]
  · rw [Option.not_isSome_iff_eq_none.1 fun hs => hk (hvals k hs), Option.not_isSome_iff_eq_none.1 fun hs => hk (hvals' k hs)]

end

/-- **A batch by logical keys is the batch by paths.** -/
theorem applyOps_byPath (hK : Set.InjOn (pathOf C ck) K) : ∀ {ops : List Op} {vals : OrdMap Bytes Bytes},
    (∀ k, (vals.get k).isSome → k ∈ K) → (∀ op ∈ ops, op.key ∈ K) →
    applyOps C ck (byPath C ck vals) ops = byPath C ck (writeOps vals ops) ∧
      ∀ k, ((writeOps vals ops).get k).isSome → k ∈ K := by
  intro ops
  induction ops with
  | nil => exact fun hvals _ => ⟨rfl, hvals⟩
  | cons op ops ih =>
    intro vals hvals hops
    obtain ⟨hone, hkeys⟩ := applyOp_byPath hK hvals (hops op List.mem_cons_self)
    have hrest := ih hkeys fun op' hop' => hops op' (List.mem_cons_of_mem _ hop')
    rw [← hone] at hrest
    exact hrest

/-- The versioned map is the map by logical keys. -/
structure MapOf (m : Model) (l : MapLedger C ck) : Prop where
  version : m.version = l.version
  cur : m.cur = byPath C ck l.vals
  history : m.history = l.history
  head : m.head = l.head

theorem MapOf.root {m : Model} {l : MapLedger C ck} (h : MapOf m l) : m.root C ck = l.root.1 := by
  unfold Model.root MapLedger.root
  rw [h.cur]

section
variable (hK : Set.InjOn (pathOf C ck) K) {m : Model} {l : MapLedger C ck} (hkeys : ∀ k, (l.vals.get k).isSome → k ∈ K)
  {ops : List Op} (hops : ∀ op ∈ ops, op.key ∈ K)
include hK hkeys hops

/-- A batch changes nothing for the one exactly when it changes nothing for the other. -/
theorem MapOf.same_iff (h : MapOf m l) : applyOps C ck m.cur ops = m.cur ↔ ¬ l.Changes ops := by
  obtain ⟨happly, hafter⟩ := applyOps_byPath hK hkeys hops
  rw [h.cur, happly]
  unfold MapLedger.Changes
  rw [not_not]
  exact ⟨fun he => byPath_inj hK hafter hkeys he, fun he => congrArg _ he⟩

/-- **A commit of the one is a commit of the other.** -/
theorem MapOf.put (hhistory : historyKey ∈ K) (h : MapOf m l) :
    MapOf (if applyOps C ck m.cur ops = m.cur then m else m.commitLinked C ck (applyOps C ck m.cur ops)) (l.put ops) ∧
      ∀ k, ((l.put ops).vals.get k).isSome → k ∈ K := by
  have hsame := h.same_iff hK hkeys hops
  obtain ⟨happly, hafter⟩ := applyOps_byPath hK hkeys hops
  rw [← h.cur] at happly
  unfold MapLedger.put
  by_cases hc : l.Changes ops
  · rw [if_neg fun he => hsame.1 he hc, if_pos hc, happly]
    unfold Model.commitLinked MapLedger.advance
    rw [h.history]
    by_cases hl : l.history = true
    · have hnext : m.nextHead C ck = historyLink C l.head l.root.1 (l.version + 1) := by
        unfold Model.nextHead
        rw [h.head, h.root, h.version]
      have hop : (Op.put historyKey (m.nextHead C ck).bytes).key ∈ K := hhistory
      obtain ⟨hbind, hbound⟩ := applyOp_byPath hK hafter hop
      rw [if_pos hl, if_pos hl]
      rw [hnext] at hbind hbound ⊢
      exact ⟨⟨congrArg (· + 1) h.version, hbind, h.history, rfl⟩, hbound⟩
    · rw [if_neg hl, if_neg hl]
      exact ⟨⟨congrArg (· + 1) h.version, rfl, h.history, h.head⟩, hafter⟩
  · rw [if_pos (hsame.2 hc), if_neg hc]
    exact ⟨h, hkeys⟩

end

/-! ## The two keyspaces of the backend -/

theorem RecKey.not_derived (x : RecKey) : ¬ IsDerived x.bytes := by
  unfold IsDerived
  rw [x.head_bytes]
  obtain ⟨h₁, h₂, h₃⟩ := x.tag_ne
  simp only [Option.some.injEq, h₁, h₂, h₃, or_self, not_false_eq_true]

/-- A commit of the ledger writes no derived key. -/
theorem Advance.derived {s s' : Store MemBackend} {m m' : Model} {g g' : UInt64 → Snap} (h : Advance C W s m g s' m' g')
    {k : Bytes} (hk : IsDerived k) : OrdMap.get s'.backend k = OrdMap.get s.backend k := by
  cases h with
  | same hb _ _ _ => rw [hb]
  | commit _ hb _ _ _ =>
    rw [hb]
    refine MemBackend.get_writeBatch_of_notin (fun op hop he => ?_) _
    obtain ⟨x, v, -, rfl⟩ := mem_commitBatch.1 hop
    have hkey : x.bytes = k := he
    exact x.not_derived (hkey ▸ hk)

/-- **A derived write leaves what the ledger holds.** -/
theorem Refines.rebacked {s : Store MemBackend} {m : Model} {g : UInt64 → Snap} (h : Refines C W s m g) {b : MemBackend}
    (hb : ∀ k, ¬ IsDerived k → b.get k = OrdMap.get s.backend k) : Refines C W { s with backend := b } m g := by
  have hrec : ∀ x : RecKey, b.get x.bytes = OrdMap.get s.backend x.bytes := fun x => hb _ x.not_derived
  have hhead : ∀ {k : Bytes} {t : UInt8}, k.head? = some t → t = recRoot ∨ t = recStale → ¬ IsDerived k := by
    intro k t hk ht hd
    unfold IsDerived at hd
    rw [hk] at hd
    rcases ht with rfl | rfl <;> revert hd <;> decide
  refine ⟨h.version, h.root, h.child, h.history, h.head, h.pin, h.cur, fun w vals hw => ?_, fun w hw => ?_,
    fun k r hk hh => ?_, fun k r hk hh => ?_, fun nk n hn => ?_⟩
  · obtain ⟨hle, hx⟩ := h.snaps w vals hw
    exact ⟨hle, hx.transfer rfl rfl (hle.trans_eq h.version.symm) fun r _ => hrec r.key⟩
  · exact (hrec (.root w)).trans (h.roots w hw)
  · exact h.rootKeys k r ((hb k (hhead hh (.inl rfl))).symm.trans hk) hh
  · exact h.stale k r ((hb k (hhead hh (.inr rfl))).symm.trans hk) hh
  · obtain ⟨hv, rec, hget, hdec⟩ := h.cache nk n hn
    exact ⟨hv, rec, (hrec (.node nk)).trans hget, hdec⟩

/-- What a key holds after a batch depends on what that key held. -/
theorem get_writeBatch_congr {k : Bytes} (ops : List BatchOp) {b d : MemBackend} (h : b.get k = d.get k) :
    (b.writeBatch ops).get k = (d.writeBatch ops).get k := by
  induction ops generalizing b d with
  | nil => exact h
  | cons op ops ih =>
    refine ih ?_
    rw [MemBackend.get_applyOp, MemBackend.get_applyOp, h]

/-- A scan of derived keys reads the derived keyspaces. -/
theorem scan_eq_of_derived {b d : MemBackend} (h : ∀ k, IsDerived k → b.get k = d.get k) {start stop : Bytes}
    (hrange : ∀ k, start ≤ k → (stop = [] ∨ k < stop) → IsDerived k) (limit : ℕ) :
    b.scan start stop limit = d.scan start stop limit := by
  have hall : b.scan start stop 0 = d.scan start stop 0 := by
    refine OrdMap.eq_of_mem_iff (MemBackend.asc_scan b start stop) (MemBackend.asc_scan d start stop) fun e => ?_
    rw [MemBackend.mem_scan, MemBackend.mem_scan]
    exact and_congr_left fun he => by rw [h e.1 (hrange e.1 he.1 he.2)]
  by_cases hlimit : limit = 0
  · rw [hlimit, hall]
  · rw [MemBackend.scan_eq_take hlimit, MemBackend.scan_eq_take hlimit, hall]

/-! ## Calls answered alike -/

/-- The store holds the map by its paths, and its backend holds the derived keyspaces. -/
structure Backs (C : Crypto) (ck : Bytes) (K : Set Bytes) (W : Set (Hash × Bytes)) (s : Store MemBackend)
    (l : MapLedger C ck) : Prop where
  handle : ∃ m, OneHandle C ck W s m ∧ MapOf m l
  keys : ∀ k, (l.vals.get k).isSome → k ∈ K
  derived : ∀ k, IsDerived k → OrdMap.get s.backend k = l.derived.get k
  plan : l.plan = []

section
variable {s s' : Store MemBackend} {l : MapLedger C ck}

theorem Backs.near (h : Backs C ck K W s l) (hs : Near s s') : Backs C ck K W s' l := by
  obtain ⟨m, ⟨hck, hfresh, g, hR⟩, hm⟩ := h.handle
  have hR' := hR.near hs
  obtain ⟨c, e, hc, rfl⟩ := hs
  exact ⟨⟨m, ⟨hck, hfresh, g, hR'⟩, hm⟩, h.keys, h.derived, h.plan⟩

/-- A read of the store that returns what the map holds. -/
theorem Backs.read {α : Type} {x : LedgerM MemBackend α} {y : EStateM Err (MapLedger C ck) α} {a : α}
    (h : Backs C ck K W s l) (hrun : Yields (Around s) x (.ok a)) (hmap : y l = .ok a l) :
    Agree (Backs C ck K W) x y s l := by
  obtain ⟨m, ⟨-, -, g, hR⟩, -⟩ := h.handle
  obtain ⟨_, ⟨c, hc, rfl⟩, hrun'⟩ := hrun s (around_self hR.cache)
  exact Agree.of_outcome hrun' hmap (h.near ⟨c, s.entropy, hc, rfl⟩)

theorem Backs.rootOf (h : Backs C ck K W s l) : (s.root, s.version) = l.root := by
  obtain ⟨m, ⟨rfl, -, g, hR⟩, hm⟩ := h.handle
  rw [hR.root, hR.version, hm.version, hm.root]
  rfl

/-- A batch on the versioned map, and on the map by logical keys. -/
theorem MapOf.putBatch (hK : Set.InjOn (pathOf C ck) K) (hhistory : historyKey ∈ K) {m : Model} (hm : MapOf m l)
    (hkeys : ∀ k, (l.vals.get k).isSome → k ∈ K) (hplan : l.plan = []) {ops : List Op} (hops : ∀ op ∈ ops, op.key ∈ K) :
    ∃ r l', (m.putBatch C ck ops).1 = Except.map (fun r => .committed r.1 r.2) r ∧
      (LedgerApi.putBatch ops : EStateM Err (MapLedger C ck) _) l = outcome r l' ∧ MapOf (m.putBatch C ck ops).2 l' ∧
      (∀ k, (l'.vals.get k).isSome → k ∈ K) ∧ l'.derived = l.derived ∧ l'.plan = [] := by
  unfold Model.putBatch
  cases hres : Model.reservedOp ops with
  | some op => exact ⟨.error _, l, rfl, putBatch_refused hres, hm, hkeys, rfl, hplan⟩
  | none =>
    obtain ⟨hm', hkeys'⟩ := hm.put hK hkeys hops hhistory
    have hmap := putBatch_run hres fun hf => l.not_fails hplan hf.2
    have hroot : (l.put ops).root = (_, _) := Prod.ext hm'.root.symm hm'.version.symm
    refine ⟨.ok _, l.put ops, ?_, hmap, hm', hkeys', l.put_derived ops, l.put_plan ops hplan⟩
    rw [hroot]
    rfl

/-- A batch that is asked for is one the versioned map takes. -/
theorem Backs.stepOk (hK : Set.InjOn (pathOf C ck) K) (hhistory : historyKey ∈ K) {ops : List Op}
    (h : Backs C ck K W s l) (hask : Asks C ck K W l (.putBatch ops)) {m : Model} (hm : MapOf m l) :
    StepOk C ck W m (.putBatch ops) := by
  obtain ⟨hops, hpairs, hmax, hhead, hroot⟩ := hask
  obtain ⟨r, l', -, hmap, hm', -⟩ := hm.putBatch hK hhistory h.keys h.plan hops
  have hstate : (ledgerStep l (.putBatch ops)).2 = l' :=
    (state_map (LedgerApi.putBatch ops) LedgerReply.root l).trans (by rw [hmap, state_outcome])
  rw [hstate] at hroot
  refine ⟨by rw [hm.version]; exact hmax, hpairs, fun hhist => ?_, fun hne => ?_⟩
  · unfold Model.nextHead
    rw [hm.head, hm.root, hm.version]
    exact hhead (hm.history ▸ hhist)
  · rw [show (m.step C ck (.putBatch ops)).2 = (m.putBatch C ck ops).2 from rfl] at hne ⊢
    rw [hm'.root]
    refine hroot fun hempty => hne ?_
    rw [hm'.cur, hempty]
    rfl

/-- **A batch by logical keys.** -/
theorem Backs.putBatch (hC : C.GcmOk) (hK : Set.InjOn (pathOf C ck) K) (hhistory : historyKey ∈ K) (hW : VhInj C ck W)
    {ops : List Op} (h : Backs C ck K W s l) (hask : Asks C ck K W l (.putBatch ops)) :
    Agree (Backs C ck K W) (LedgerApi.putBatch (L := LedgerStore C MemBackend) ops) (LedgerApi.putBatch ops) s l := by
  obtain ⟨m, ⟨rfl, hfresh, g, hR⟩, hm⟩ := h.handle
  obtain ⟨r, l', hmodel, hmap, hm', hkeys, hderived, hplan⟩ := hm.putBatch hK hhistory h.keys h.plan hask.1
  obtain ⟨hreply, hF, g', hR', hadv⟩ := hR.putBatch hC hW (h.stepOk hK hhistory hask hm)
  -- the call of the store is the operation with its reply framed
  have hstate : (s.step C (.putBatch ops)).2 = (Store.putBatch C ops s).state :=
    state_map (Store.putBatch C ops) (fun r => Reply.committed r.1 r.2) s
  have hval : (Store.putBatch C ops s).val = r := by
    have hframed := (val_map _ _ s).symm.trans (hreply.trans hmodel)
    cases hv : (Store.putBatch C ops s).val <;> cases r <;> simp_all [Except.map, Prod.ext_iff]
  rw [hstate] at hF hR' hadv
  unfold Agree
  rw [hmap, val_outcome, state_outcome]
  refine ⟨hval, ⟨_, ⟨hF.ck, hF.fresh hfresh, g', hR'⟩, hm'⟩, hkeys, fun k hk => ?_, hplan⟩
  rw [hderived, ← h.derived k hk]
  exact hadv.derived hk

/-- **A derived write.** -/
theorem Backs.writeBatch {ops : List BatchOp} (h : Backs C ck K W s l) (hask : ∀ op ∈ ops, IsDerived op.key) :
    Backs C ck K W { s with backend := MemBackend.writeBatch s.backend ops } (l.derive ops) := by
  obtain ⟨m, ⟨rfl, hfresh, g, hR⟩, hm⟩ := h.handle
  have hrecords : ∀ k, ¬ IsDerived k → (MemBackend.writeBatch s.backend ops).get k = OrdMap.get s.backend k :=
    fun k hk => MemBackend.get_writeBatch_of_notin (fun op hop (he : op.key = k) => hk (he ▸ hask op hop)) _
  refine ⟨⟨m, ⟨rfl, fun w hw => ?_, g, hR.rebacked hrecords⟩, ⟨hm.version, hm.cur, hm.history, hm.head⟩⟩, h.keys,
    fun k hk => ?_, ?_⟩
  · exact (hrecords _ (RecKey.root w).not_derived).trans (hfresh w hw)
  · exact get_writeBatch_congr ops (h.derived k hk)
  · show l.plan.tail = []
    rw [h.plan]
    rfl

section
variable (hC : C.GcmOk) (hK : Set.InjOn (pathOf C ck) K) (hhistory : historyKey ∈ K) (hW : VhInj C ck W)
  (h : Backs C ck K W s l)
include h

include hK hW in
theorem Backs.get {key : Bytes} (hask : key ∈ K) :
    Agree (Backs C ck K W) (LedgerApi.get (L := LedgerStore C MemBackend) key) (LedgerApi.get key) s l := by
  obtain ⟨m, ⟨rfl, -, g, hR⟩, hm⟩ := h.handle
  refine h.read (hR.yields_get hW key) ?_
  rw [hm.cur, get_byPath hK h.keys hask]
  rfl

include hW in
theorem Backs.snapshotLeaves {max : ℕ} (hmax : 1 ≤ max) (startAfter : Option Hash) :
    Agree (Backs C ck K W) (LedgerApi.snapshotLeaves (L := LedgerStore C MemBackend) l.version startAfter max)
      (LedgerApi.snapshotLeaves l.version startAfter max) s l := by
  obtain ⟨m, ⟨rfl, -, g, hR⟩, hm⟩ := h.handle
  have hcur := hR.cur
  rw [hm.version] at hcur
  refine h.read ((hR.yields_snapshotLeaves hW hcur hmax startAfter).bind (.pure _)) ?_
  show MapLedger.snapshotLeaves l.version startAfter max l = _
  unfold MapLedger.snapshotLeaves page leafOf
  rw [if_pos rfl, ← hm.cur]
  simp [Function.comp_def]

theorem Backs.backendGet {key : Bytes} (hask : IsDerived key) :
    Agree (Backs C ck K W) (LedgerApi.backendGet (L := LedgerStore C MemBackend) key) (LedgerApi.backendGet key) s l :=
  ⟨congrArg Except.ok (h.derived key hask), h⟩

theorem Backs.scan {start stop : Bytes} (hask : ∀ k, start ≤ k → (stop = [] ∨ k < stop) → IsDerived k) (limit : ℕ) :
    Agree (Backs C ck K W) (LedgerApi.backendScan (L := LedgerStore C MemBackend) start stop limit)
      (LedgerApi.backendScan start stop limit) s l :=
  ⟨congrArg Except.ok (scan_eq_of_derived h.derived hask limit), h⟩

include hC hK hhistory hW

/-- **Every call the SQL layer makes is answered alike.** -/
theorem Backs.step {c : LedgerCall} (hask : Asks C ck K W l c) :
    Agree (Backs C ck K W) (c.exec (L := LedgerStore C MemBackend)) c.exec s l := by
  cases c with
  | root =>
    refine ⟨?_, h⟩
    show Except.ok (LedgerReply.root (s.root, s.version)) = .ok (.root l.root)
    rw [h.rootOf]
  | get key => exact (h.get hK hW hask).map _
  | putBatch ops => exact (h.putBatch hC hK hhistory hW hask).map _
  | snapshotLeaves version startAfter max =>
    obtain ⟨rfl, hmax⟩ := hask
    exact (h.snapshotLeaves hW hmax startAfter).map _
  | backendGet key => exact (h.backendGet hask).map _
  | backendScan start stop limit => exact (h.scan hask limit).map _
  | backendWriteBatch ops =>
    have hmap : MapLedger.writeBatch ops l = outcome (.ok ()) (l.derive ops) := if_neg (l.not_fails h.plan)
    exact (Agree.of_outcome (x := LedgerApi.backendWriteBatch (L := LedgerStore C MemBackend) ops) (r := .ok ()) rfl hmap
      (h.writeBatch hask)).map _

end

end

theorem Backs.created (hC : C.GcmOk) (o : StoreOptions) (entropy : ℕ → Nonce) :
    Backs C ck K W (created C ck o entropy) { history := o.history } := by
  obtain ⟨hR, hfresh⟩ := @created_refines C ck hC o entropy W
  refine ⟨⟨_, ⟨created_ck hC o entropy, hfresh, _, hR⟩, rfl, rfl, rfl, rfl⟩, fun k hk => ?_, fun k hk => ?_, rfl⟩
  · cases hk
  · obtain ⟨ckpt, e, -, hrun⟩ := @create_run C ck hC o entropy
    unfold ImmutableLedger.created
    rw [hrun]
    refine Option.eq_none_iff_forall_not_mem.2 fun r hr => ?_
    rcases exists_of_get_stamped hr with rfl | rfl | rfl | hempty
    · exact (RecKey.root 0).not_derived hk
    · exact RecKey.checkpoint.not_derived hk
    · exact (RecKey.node (rootNodeKey 0)).not_derived hk
    · cases hempty

/-- **The ledger's store answers as the map by logical keys**, whatever the SQL layer asks of the ledger and of the backend
underneath, in any order. -/
theorem store_answers_as_map (hC : C.GcmOk) (hK : Set.InjOn (pathOf C ck) K) (hhistory : historyKey ∈ K)
    (hW : VhInj C ck W) (o : StoreOptions) (entropy : ℕ → Nonce) {cs : List LedgerCall}
    (hasks : Along ledgerStep (Asks C ck K W) { history := o.history } cs) :
    (run (ledgerStep (L := LedgerStore C MemBackend)) (created C ck o entropy) cs).1 =
      (run ledgerStep ({ history := o.history } : MapLedger C ck) cs).1 := by
  have hstep : ∀ (s : Store MemBackend) (l : MapLedger C ck) (c : LedgerCall), Backs C ck K W s l → True →
      Asks C ck K W l c → Agree (Backs C ck K W) (c.exec (L := LedgerStore C MemBackend)) c.exec s l :=
    fun s l c h _ hask => h.step hC hK hhistory hW hask
  exact (simulation hstep (Backs.created hC o entropy) (along_true _ _) hasks).1

/-- A row is put, its scan entry is written, and both are read back. -/
def putAndScan : List LedgerCall :=
  [.putBatch [.put [1] [10]], .backendWriteBatch [⟨[scanPrefix, 1], [10], false⟩], .get [1], .backendGet [scanPrefix, 1],
    .snapshotLeaves 1 none 4]

theorem store_answers_as_map_scanned :
    (run (ledgerStep (L := LedgerStore quickCrypto MemBackend))
        (created quickCrypto [] { history := true } fun _ => Nonce.zero) putAndScan).1 =
      (run ledgerStep ({ history := true } : MapLedger quickCrypto []) putAndScan).1 := by
  have hpaths : Set.InjOn (pathOf quickCrypto []) {[1], historyKey} := Set.injOn_pair.2 (by decide +kernel)
  have hvalues : VhInj quickCrypto [] {e | e ∈ [(pathOf quickCrypto [] [1], [10]), (historyPath quickCrypto [],
      (historyLink quickCrypto Hash.zero (contentRoot quickCrypto [] OrdMap.empty) 1).bytes)]} :=
    vhInj_of_nodup (by decide +kernel)
  refine store_answers_as_map quickCrypto_gcmOk hpaths (.inr rfl) hvalues { history := true } (fun _ => Nonce.zero)
    ⟨⟨?_, ?_, by decide, ?_, by decide +kernel⟩, ?_, .inl rfl, .inl rfl, ⟨?_, by decide⟩, trivial⟩
  · simp [Op.put]
  · decide +kernel
  · decide +kernel
  · intro op hop
    rw [List.mem_singleton.1 hop]
    exact .inl rfl
  · decide +kernel

end ImmutableLedger
