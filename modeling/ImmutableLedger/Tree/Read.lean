import ImmutableLedger.Tree.Canonical

/-!
# Reads over an honest backend

`Around s` is the set of handles that differ from `s` only in a coherent node cache: what a read may
leave behind. A read of a canonical tree whose records are stored yields what the tree holds, from any
of these handles, so the cache never shows in a result.

* `loadNode_hit`, `loadNode_miss`, `loadNode_failed`: a node load, over any backend.
* `yields_loadNode`: a stored node loads.
* `yields_walk`: a walk returns the value the tree holds at the path, or absence.
-/

namespace ImmutableLedger

open EStateM

variable {C : Crypto}

/-- Every cached node is the stored record of its key, of a version the store has reached. -/
def CacheOk (s : Store MemBackend) (c : NodeCache) : Prop :=
  ∀ nk n, c.node nk = some n → nk.version ≤ s.version ∧
    ∃ rec, OrdMap.get s.backend (nodeRecordKey nk) = some rec ∧ decodeNode rec = .ok n

theorem cacheOk_clear (s : Store MemBackend) (c : NodeCache) : CacheOk s c.clear := by
  intro nk n hn
  cases hn

/-- The handle `s`, up to a coherent cache. -/
def Around (s s' : Store MemBackend) : Prop := ∃ c, CacheOk s c ∧ s' = { s with cache := c }

theorem around_self {s : Store MemBackend} (h : CacheOk s s.cache) : Around s s := ⟨s.cache, h, rfl⟩

/-- A record is in the backend: a node under its key, a value in a form good for its commitment. -/
def Stored (G : Hash → Hash → Bytes → Prop) (s : Store MemBackend) : Record → Prop
  | .node nk n => nk.version ≤ s.version ∧
      OrdMap.get s.backend (nodeRecordKey nk) = some n.encode ∧ n.Ok
  | .value p vh v => ∃ ct, OrdMap.get s.backend (valueRecordKey vh v) = some ct ∧ G p vh ct

/-- The stored bytes of a value open to a sealed plaintext with that commitment. -/
def Sealed (C : Crypto) (s : Store MemBackend) (W : Set (Hash × Bytes)) (p vh : Hash) (ct : Bytes) : Prop :=
  ∃ pt, (p, pt) ∈ W ∧ openValue C s.cipher p ct = .ok pt ∧ vhOf C s.ck p pt = vh

variable {s : Store MemBackend} {G : Hash → Hash → Bytes → Prop}

theorem backendGet_mem (key : Bytes) (s : Store MemBackend) :
    backendGet key s = .ok (OrdMap.get s.backend key) s := rfl

theorem yields_backendGet (key : Bytes) :
    Yields (Around s) (backendGet key) (.ok (OrdMap.get s.backend key)) := by
  rintro s' ⟨c, hc, rfl⟩
  exact ⟨_, ⟨c, hc, rfl⟩, rfl⟩

/-- `loadNode` by the cached node. -/
theorem loadNode_eq {β : Type} [Backend β] (nk : NodeKey) (h : Hash) (s : Store β) :
    loadNode C nk h s = (match s.cache.node nk with
      | some n => do
        if n.hash C ≠ h then throw (errNode "node %v hash mismatch" nk)
        pure n
      | none => do
        match ← backendGet (nodeRecordKey nk) with
        | none => throw (errMissingf "node %v" [.node nk.version nk.pfx])
        | some record =>
          let n ← ofExcept (decodeNode record)
          if n.hash C ≠ h then throw (errNode "node %v hash mismatch" nk)
          modify fun s => { s with cache := s.cache.put nk n }
          pure n : LedgerM β Node) { s with cache := (s.cache.get nk).2 } := by
  rw [← NodeCache.fst_get]
  rfl

/-- A node against the hash the caller expects. -/
def checkedNode (C : Crypto) (nk : NodeKey) (h : Hash) (n : Node) : Except Err Node :=
  if n.hash C ≠ h then .error (errNode "node %v hash mismatch" nk) else .ok n

variable {nk : NodeKey} {n : Node} {h : Hash} {rec : Bytes}

theorem checkedNode_of_eq (hh : ¬ n.hash C ≠ h) : checkedNode C nk h n = .ok n :=
  if_neg hh

theorem checkedNode_of_ne (hh : n.hash C ≠ h) :
    checkedNode C nk h n = .error (errNode "node %v hash mismatch" nk) :=
  if_pos hh

/-- What a load makes of the record it read. -/
def readNode (C : Crypto) (nk : NodeKey) (h : Hash) : Option Bytes → Except Err Node
  | none => .error (errMissingf "node %v" [.node nk.version nk.pfx])
  | some rec => decodeNode rec >>= checkedNode C nk h

theorem readNode_some (hdec : decodeNode rec = .ok n) :
    readNode C nk h (some rec) = checkedNode C nk h n := by
  show decodeNode rec >>= _ = _
  rw [hdec]
  rfl

theorem readNode_error {e : Err} (hdec : decodeNode rec = .error e) :
    readNode C nk h (some rec) = .error e := by
  show decodeNode rec >>= _ = _
  rw [hdec]
  rfl

theorem ok_of_readNode {r : Option Bytes} (hn : readNode C nk h r = .ok n) :
    ∃ rec, r = some rec ∧ decodeNode rec = .ok n := by
  cases r with
  | none => cases hn
  | some rec =>
    obtain ⟨m, hdec, hcheck⟩ := Except.ok_of_bind hn
    unfold checkedNode at hcheck
    split at hcheck
    · cases hcheck
    · cases hcheck
      exact ⟨rec, rfl, hdec⟩

/-- The cache after a load read its record: a good node is put in. -/
def fetchedCache (nk : NodeKey) (r : Except Err Node) (c : NodeCache) : NodeCache :=
  match r with
  | .ok n => c.put nk n
  | .error _ => c

/-- **A load of a node that is not cached**, once the backend has returned the record. -/
theorem loadNode_miss {β : Type} [Backend β] {s s₁ : Store β} (h : Hash) {record : Option Bytes}
    (hmiss : s.cache.node nk = none)
    (hread : backendGet (nodeRecordKey nk) { s with cache := (s.cache.get nk).2 } = .ok record s₁) :
    loadNode C nk h s =
      outcome (readNode C nk h record) { s₁ with cache := fetchedCache nk (readNode C nk h record) s₁.cache } := by
  rw [loadNode_eq, hmiss]
  refine (run_bind_ok hread).trans ?_
  cases record with
  | none => rfl
  | some rec =>
    cases hdec : decodeNode rec with
    | error err =>
      have hof : (ofExcept (decodeNode rec) : LedgerM β Node) s₁ = .error err s₁ := by rw [hdec]; rfl
      rw [readNode_error hdec]
      exact run_bind_error hof
    | ok n =>
      have hof : (ofExcept (decodeNode rec) : LedgerM β Node) s₁ = .ok n s₁ := by rw [hdec]; rfl
      rw [readNode_some hdec]
      refine (run_bind_ok hof).trans ?_
      by_cases hh : n.hash C ≠ h
      · rw [checkedNode_of_ne hh]
        exact congrFun (if_pos hh) _
      · rw [checkedNode_of_eq hh]
        exact congrFun (if_neg hh) _

/-- **A load whose read fails.** -/
theorem loadNode_failed {β : Type} [Backend β] {s s₁ : Store β} (h : Hash) {e : Err} (hmiss : s.cache.node nk = none)
    (hread : backendGet (nodeRecordKey nk) { s with cache := (s.cache.get nk).2 } = .error e s₁) :
    loadNode C nk h s = .error e s₁ := by
  rw [loadNode_eq, hmiss]
  exact run_bind_error hread

/-- **A load of a cached node.** -/
theorem loadNode_hit {β : Type} [Backend β] {s : Store β} (h : Hash) (hhit : s.cache.node nk = some n) :
    loadNode C nk h s = outcome (checkedNode C nk h n) { s with cache := (s.cache.get nk).2 } := by
  rw [loadNode_eq, hhit]
  by_cases hh : n.hash C ≠ h
  · rw [checkedNode_of_ne hh]
    exact congrFun (if_pos hh) _
  · rw [checkedNode_of_eq hh]
    exact congrFun (if_neg hh) _

/-- What `loadNode` yields over an honest backend, whatever is cached. -/
theorem yields_loadNode (hst : Stored G s (.node nk n)) (hh : n.hash C = h) :
    Yields (Around s) (loadNode C nk h) (.ok n) := by
  obtain ⟨hv, hrec, hok⟩ := hst
  have hdec := decodeNode_encode hok
  have hcheck : checkedNode C nk h n = .ok n := checkedNode_of_eq (not_not.2 hh)
  rintro s' ⟨c, hc, rfl⟩
  have hget : CacheOk s (c.get nk).2 := fun nk' n' h' => hc nk' n' (by simpa using h')
  cases hcase : c.node nk with
  | some m =>
    obtain ⟨-, rec, hr, hd⟩ := hc nk m hcase
    rw [hrec] at hr
    cases hr
    rw [hdec] at hd
    cases hd
    refine ⟨_, ⟨_, hget, rfl⟩, (loadNode_hit (s := { s with cache := c }) h hcase).trans ?_⟩
    rw [hcheck]
  | none =>
    refine ⟨{ s with cache := (c.get nk).2.put nk n }, ⟨_, fun nk' n' h' => ?_, rfl⟩, ?_⟩
    · rcases NodeCache.node_put h' with ⟨rfl, rfl⟩ | h''
      · exact ⟨hv, _, hrec, hdec⟩
      · exact hget nk' n' h''
    · rw [loadNode_miss (s := { s with cache := c }) h hcase (backendGet_mem _ _), hrec, readNode_some hdec, hcheck]
      rfl

theorem yields_ofExcept {α : Type} (r : Except Err α) : Yields (Around s) (ofExcept r) r := by
  cases r with
  | ok a => exact Yields.pure a
  | error e => exact Yields.throw e

theorem yields_get_store {α : Type} {f : Store MemBackend → LedgerM MemBackend α} {r : Except Err α}
    (h : ∀ c, CacheOk s c → Yields (Around s) (f { s with cache := c }) r) : Yields (Around s) (get >>= f) r := by
  rintro s' ⟨c, hc, rfl⟩
  exact h c hc _ ⟨c, hc, rfl⟩

theorem yields_readValue {p vh : Hash} {v : UInt64} {ct pt : Bytes}
    (hget : OrdMap.get s.backend (valueRecordKey vh v) = some ct) (hopen : openValue C s.cipher p ct = .ok pt)
    (hvh : vhOf C s.ck p pt = vh) : Yields (Around s) (readValue C p vh v) (.ok pt) := by
  unfold readValue
  refine (yields_backendGet _).bind ?_
  rw [hget]
  refine yields_get_store fun c _ => ?_
  show Yields _ (ofExcept (openValue C s.cipher p ct) >>= _) _
  rw [hopen]
  refine (yields_ofExcept (.ok pt)).bind ?_
  simp only [hvh, ne_eq, not_true_eq_false, if_false]
  exact Yields.pure pt

/-! ## Walks -/

/-- The entries of the tree are the commitments of the logical values `vals`, which were all sealed. -/
structure Content (C : Crypto) (ck : Bytes) (W : Set (Hash × Bytes)) (f : Hash → Option (Hash × UInt64))
    (vals : Hash → Option Bytes) : Prop where
  vh : ∀ p, (f p).map Prod.fst = (vals p).map (vhOf C ck p)
  mem : ∀ p pt, vals p = some pt → (p, pt) ∈ W

/-- The value commitment has no collision among the sealed values. -/
def VhInj (C : Crypto) (ck : Bytes) (W : Set (Hash × Bytes)) : Prop := Set.InjOn (fun e => vhOf C ck e.1 e.2) W

variable {W : Set (Hash × Bytes)} {f : Hash → Option (Hash × UInt64)} {vals : Hash → Option Bytes}

/-- The stored value of an entry reads as its logical value. -/
theorem yields_readValue_entry (hW : VhInj C s.ck W) (hc : Content C s.ck W f vals) {p vh : Hash} {v : UInt64}
    (hf : f p = some (vh, v)) (hst : Stored (Sealed C s W) s (.value p vh v)) :
    ∃ pt, vals p = some pt ∧ Yields (Around s) (readValue C p vh v) (.ok pt) := by
  obtain ⟨ct, hget, pt, hm, hopen, hvh⟩ := hst
  have h := hc.vh p
  rw [hf, Option.map_some] at h
  obtain ⟨pt', hpt', hvh'⟩ := Option.map_eq_some_iff.1 h.symm
  -- the plaintext stored under the commitment is the logical one
  have : (p, pt) = (p, pt') := hW hm (hc.mem p pt' hpt') (hvh.trans hvh'.symm)
  cases this
  exact ⟨pt, hpt', yields_readValue hget hopen hvh⟩

/-- **A walk over a stored canonical tree** returns the value at the path, or absence. -/
theorem yields_walkFrom (hW : VhInj C s.ck W) (hc : Content C s.ck W f vals) {p : Hash} {t : Tree} :
    ∀ {pfx : List Nib} {fuel : ℕ} {c : Child}, t.Holds f pfx →
    (∀ x ∈ t.recs C pfx, Stored (Sealed C s W) s x) → Under pfx p → pfx.length + fuel = 64 → t.ref C = some c →
    Yields (Around s) (walkFrom C p fuel c pfx) (.ok (vals p)) := by
  have hnone : f p = none → vals p = none := by
    intro hf
    have := hc.vh p
    rw [hf] at this
    simpa using this.symm
  induction t with
  | nil => intro pfx fuel c _ _ _ _ hr; cases hr
  | leaf v l =>
    intro pfx fuel c hH hst hp _ hr
    cases hr
    obtain ⟨hl, hfl, hno⟩ := hH
    unfold walkFrom
    refine (yields_loadNode (n := .leaf l) (hst (.node ⟨v, pfx⟩ (.leaf l)) (.inl rfl)) rfl).bind ?_
    simp only [Node.isLeaf, ne_eq, not_true_eq_false, if_false]
    by_cases hpl : l.path = p
    · subst hpl
      obtain ⟨pt, hpt, hy⟩ := yields_readValue_entry hW hc hfl (hst (.value l.path l.vh l.valueVersion) (.inr rfl))
      rw [if_pos rfl, hpt]
      exact hy.bind (Yields.pure _)
    · rw [if_neg hpl, hnone (hno p hp (Ne.symm hpl))]
      exact Yields.pure none
  | node v ch ih =>
    intro pfx fuel c hH hst hp hlen hr
    cases hr
    have hd := hH.depth_lt
    obtain ⟨fuel, rfl⟩ : ∃ k, fuel = k + 1 := ⟨fuel - 1, by omega⟩
    unfold walkFrom
    refine (yields_loadNode (n := .internal (Tree.refs C ch)) (hst _ (.inl rfl)) rfl).bind ?_
    simp only [Node.isLeaf, ne_eq, not_true_eq_false, if_false]
    have hchild := hH.2 (nibble p pfx.length)
    cases hcase : (ch (nibble p pfx.length)).ref C with
    | none =>
      rw [show Tree.refs C ch (nibble p pfx.length) = none from hcase]
      rw [Tree.ref_eq_none.1 hcase] at hchild
      rw [hnone (hchild p hp.extend)]
      exact Yields.pure none
    | some next =>
      rw [show Tree.refs C ch (nibble p pfx.length) = some next from hcase]
      exact ih _ hchild (fun x hx => hst x (.inr ⟨_, hx⟩)) hp.extend (by simp; omega) hcase

theorem yields_walk (hW : VhInj C s.ck W) (hc : Content C s.ck W f vals) {t : Tree} (hH : t.Holds f [])
    (hst : ∀ x ∈ t.recs C [], Stored (Sealed C s W) s x) (p : Hash) :
    Yields (Around s) (walk C (t.ref C) p) (.ok (vals p)) := by
  cases hr : t.ref C with
  | none =>
    have := hH
    rw [Tree.ref_eq_none.1 hr] at this
    have hv := hc.vh p
    rw [this p (under_nil p)] at hv
    rw [show vals p = none by simpa using hv.symm]
    exact Yields.pure none
  | some c => exact yields_walkFrom hW hc hH hst (under_nil p) rfl hr

end ImmutableLedger
