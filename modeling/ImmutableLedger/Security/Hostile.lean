import ImmutableLedger.Tree.Root
import ImmutableLedger.Tree.Prove
import ImmutableLedger.Security.Binding

/-!
# Reads over hostile storage

The walk of `Get` over a backend that answers every read as it likes. Each record loaded has the hash its
parent commits to, so along the path the adversary is held to the digests of the committed map; but the hash of
a node binds neither the slot of a lone leaf nor, at the last bit of a nibble, the kind of a child.

* `Pinned`: what a child reached along a path is still held to.
* `loadNode_hostile`, `readValue_hostile`, `walkFrom_hostile`: what a call over hostile storage can do.
-/

namespace ImmutableLedger

open SparseMerkle EStateM

variable {C : Crypto}

/-- An error that is returned: neither a panic nor an endless loop. -/
def Err.Returned (e : Err) : Prop := e ≠ .panic ∧ e ≠ .hang

/-! ## The transcript -/

/-- The nodes a hostile backend served in answer to node reads. -/
def servedNodes (log : List (Bytes × Answer)) : List Node :=
  log.filterMap fun e =>
    match e with
    | (k, .ok (some rec)) => if k.head? = some recNode then (decodeNode rec).toOption else none
    | _ => none

theorem servedNodes_append (l l' : List (Bytes × Answer)) :
    servedNodes (l ++ l') = servedNodes l ++ servedNodes l' := List.filterMap_append

/-- The store `s` after some reads: the backend has a longer transcript, and the cache may differ. -/
def Later (s s' : Store Hostile) : Prop :=
  ∃ b c, s' = { s with backend := b, cache := c } ∧ s.backend.log <+: b.log

theorem Later.refl (s : Store Hostile) : Later s s := ⟨s.backend, s.cache, rfl, List.prefix_rfl⟩

theorem Later.trans {s₁ s₂ s₃ : Store Hostile} (h : Later s₁ s₂) (h' : Later s₂ s₃) : Later s₁ s₃ := by
  obtain ⟨b, c, rfl, hl⟩ := h
  obtain ⟨b', c', rfl, hl'⟩ := h'
  exact ⟨b', c', rfl, hl.trans hl'⟩

theorem Later.served {s s' : Store Hostile} (h : Later s s') {n : Node} (hn : n ∈ servedNodes s.backend.log) :
    n ∈ servedNodes s'.backend.log := by
  obtain ⟨b, c, rfl, l, hl⟩ := h
  rw [← hl, servedNodes_append]
  exact List.mem_append_left _ hn

theorem Later.ck {s s' : Store Hostile} (h : Later s s') : s'.ck = s.ck := by
  obtain ⟨b, c, rfl, -⟩ := h
  rfl

/-- Every cached node was served. -/
def Saw (s : Store Hostile) : Prop := ∀ nk n, s.cache.node nk = some n → n ∈ servedNodes s.backend.log

/-- What the nodes served hash to is computed from inputs in `S`. -/
def HashedIn (C : Crypto) (S : Set (Input Hash Hash Hash)) (s : Store Hostile) : Prop :=
  ∀ n ∈ servedNodes s.backend.log, ∀ x ∈ n.inputs C, x ∈ S

/-! ## Loads -/

theorem decodeChildren_error {bm : ℕ} {e : Err} : ∀ {is : List Nib} {data : Bytes},
    decodeChildren bm is data = .error e → e = errCorrupted "node decode: bad is_leaf flag" := by
  intro is
  induction is with
  | nil => intro data h; cases h
  | cons i is ih =>
    intro data h
    rw [decodeChildren] at h
    have hbind : ∀ {g : Children → Children}, (do let ch ← decodeChildren bm is (data.drop 41); pure (g ch)) =
        (.error e : Except Err Children) → e = errCorrupted "node decode: bad is_leaf flag" := by
      intro g hg
      cases hd : decodeChildren bm is (data.drop 41) with
      | error e' => rw [hd] at hg; cases hg; exact ih hd
      | ok ch => rw [hd] at hg; cases hg
    by_cases hbit : bm.testBit i.val = true
    · simp only [if_pos hbit] at h
      by_cases h0 : data.getD 40 0 = 0
      · rw [if_pos h0] at h; exact hbind h
      · rw [if_neg h0] at h
        by_cases h1 : data.getD 40 0 = 1
        · rw [if_pos h1] at h; exact hbind h
        · rw [if_neg h1] at h; cases h; rfl
    · rw [if_neg hbit] at h
      exact ih h

/-- A record that does not decode is a corruption. -/
theorem decodeNode_error {data : Bytes} {e : Err} (h : decodeNode data = .error e) : e.Returned := by
  have hret : ∀ msg, (errCorrupted msg).Returned := fun msg => ⟨by unfold errCorrupted; simp, by unfold errCorrupted; simp⟩
  unfold decodeNode at h
  cases data with
  | nil => cases h; exact hret _
  | cons tag body =>
    dsimp only at h
    by_cases h1 : tag = nodeTagLeaf
    · rw [if_pos h1] at h
      split at h
      · cases h; exact hret _
      · cases h
    rw [if_neg h1] at h
    by_cases h2 : tag = nodeTagInternal
    · rw [if_pos h2] at h
      split at h
      · cases h; exact hret _
      split at h
      · cases h; exact hret _
      split at h
      · cases h; exact hret _
      -- only the flags of the children are left to fail
      generalize hd : decodeChildren _ _ _ = r at h
      cases r with
      | error e' => cases h; rw [decodeChildren_error hd]; exact hret _
      | ok ch => cases h
    · rw [if_neg h2] at h
      cases h; exact hret _

theorem errCorruptedf_returned (f : String) (args : List Arg) : (errCorruptedf f args).Returned :=
  ⟨by unfold errCorruptedf; simp, by unfold errCorruptedf; simp⟩

/-- A read over hostile storage is answered as the strategy likes, and logged. -/
theorem backendGet_hostile (k : Bytes) (s : Store Hostile) :
    ∃ a : Answer, (match a with
      | .ok v => backendGet k s = .ok v { s with backend := { s.backend with log := s.backend.log ++ [(k, a)] } }
      | .error e => backendGet k s =
          .error (errBackend e) { s with backend := { s.backend with log := s.backend.log ++ [(k, a)] } }) := by
  refine ⟨s.backend.strategy s.backend.log k, ?_⟩
  unfold backendGet
  show match s.backend.strategy s.backend.log k with | .ok v => _ | .error e => _
  cases ha : s.backend.strategy s.backend.log k with
  | ok v | error e => simp only [Backend.get, ha]

/-- A step that only logs a read and keeps the cache is a later store, of which the same was seen. -/
theorem later_logged {s : Store Hostile} (c : NodeCache) (e : Bytes × Answer) :
    Later s { s with backend := { s.backend with log := s.backend.log ++ [e] }, cache := c } :=
  ⟨_, c, rfl, List.prefix_append _ _⟩

/-- **A load over hostile storage** fails, or returns a node of the expected hash that was served. -/
theorem loadNode_hostile {s : Store Hostile} (hsaw : Saw s) (nk : NodeKey) (h : Hash) : ∃ s', Later s s' ∧ Saw s' ∧
    ((∃ e, loadNode C nk h s = .error e s' ∧ e.Returned) ∨
      ∃ n, loadNode C nk h s = .ok n s' ∧ n.hash C = h ∧ n ∈ servedNodes s'.backend.log) := by
  set s₁ : Store Hostile := { s with cache := (s.cache.get nk).2 } with hs₁
  have hlater : Later s s₁ := ⟨s.backend, _, rfl, List.prefix_rfl⟩
  have hsaw₁ : Saw s₁ := fun nk' n hn => hsaw nk' n (by rw [← hn, hs₁]; simp)
  cases hc : s.cache.node nk with
  | some n =>
    rw [loadNode_hit h hc]
    by_cases hh : n.hash C = h
    · rw [checkedNode_of_eq (not_not.2 hh)]
      exact ⟨s₁, hlater, hsaw₁, .inr ⟨n, rfl, hh, hlater.served (hsaw nk n hc)⟩⟩
    · rw [checkedNode_of_ne hh]
      exact ⟨s₁, hlater, hsaw₁, .inl ⟨_, rfl, errCorruptedf_returned _ _⟩⟩
  | none =>
    obtain ⟨a, ha⟩ := backendGet_hostile (nodeRecordKey nk) s₁
    -- whatever was answered is logged, and the cache has not changed yet
    set s₂ : Store Hostile :=
      { s₁ with backend := { s₁.backend with log := s₁.backend.log ++ [(nodeRecordKey nk, a)] } } with hs₂
    have hlater₂ : Later s s₂ := hlater.trans (later_logged _ _)
    have hsaw₂ : Saw s₂ := fun nk' n hn => (show Later s₁ s₂ from later_logged _ _).served (hsaw₁ nk' n hn)
    cases a with
    | error e =>
      refine ⟨s₂, hlater₂, hsaw₂, .inl ⟨_, loadNode_failed h hc ha, ?_, ?_⟩⟩ <;> simp [errBackend]
    | ok v =>
      rw [loadNode_miss h hc ha]
      cases v with
      | none =>
        refine ⟨s₂, hlater₂, hsaw₂, .inl ⟨_, rfl, ?_, ?_⟩⟩ <;> simp [errMissingf]
      | some rec =>
        cases hd : decodeNode rec with
        | error e =>
          rw [readNode_error hd]
          exact ⟨s₂, hlater₂, hsaw₂, .inl ⟨e, rfl, decodeNode_error hd⟩⟩
        | ok n =>
          have hserved : n ∈ servedNodes s₂.backend.log := by
            show n ∈ servedNodes (s₁.backend.log ++ [(nodeRecordKey nk, .ok (some rec))])
            rw [servedNodes_append]
            refine List.mem_append_right _ ?_
            simp [servedNodes, nodeRecordKey, hd, Except.toOption]
          rw [readNode_some hd]
          by_cases hh : n.hash C = h
          · rw [checkedNode_of_eq (not_not.2 hh)]
            refine ⟨{ s₂ with cache := s₂.cache.put nk n }, hlater₂.trans ⟨s₂.backend, _, rfl, List.prefix_rfl⟩,
              fun nk' n' hn' => ?_, .inr ⟨n, rfl, hh, hserved⟩⟩
            rcases NodeCache.node_put hn' with ⟨-, rfl⟩ | hn'
            · exact hserved
            · exact hsaw₂ nk' n' hn'
          · rw [checkedNode_of_ne hh]
            exact ⟨s₂, hlater₂, hsaw₂, .inl ⟨_, rfl, errCorruptedf_returned _ _⟩⟩

/-- **A value read over hostile storage** fails, or returns a value of the expected commitment. -/
theorem readValue_hostile {s : Store Hostile} (hsaw : Saw s) (path vh : Hash) (vv : UInt64) : ∃ s', Later s s' ∧ Saw s' ∧
    ((∃ e, readValue C path vh vv s = .error e s' ∧ e.Returned) ∨
      ∃ v, readValue C path vh vv s = .ok v s' ∧ vhOf C s.ck path v = vh) := by
  obtain ⟨a, ha⟩ := backendGet_hostile (valueRecordKey vh vv) s
  set s₁ : Store Hostile :=
    { s with backend := { s.backend with log := s.backend.log ++ [(valueRecordKey vh vv, a)] } } with hs₁
  have hlater : Later s s₁ := later_logged _ _
  have hsaw₁ : Saw s₁ := fun nk n hn => hlater.served (hsaw nk n hn)
  refine ⟨s₁, hlater, hsaw₁, ?_⟩
  cases a with
  | error e => exact .inl ⟨_, run_bind_error ha, by unfold errBackend; simp, by unfold errBackend; simp⟩
  | ok r =>
    cases r with
    | none =>
      refine .inl ⟨errMissing "value record", run_bind_ok ha, ?_, ?_⟩ <;> simp [errMissing]
    | some ct =>
      cases ho : openValue C s.cipher path ct with
      | error e =>
        have hopen : (ofExcept (openValue C s.cipher path ct) : LedgerM Hostile Bytes) s₁ = .error e s₁ := by rw [ho]; rfl
        refine .inl ⟨e, (run_bind_ok ha).trans ((run_bind_ok rfl).trans (run_bind_error hopen)), ?_⟩
        unfold openValue at ho
        split at ho
        · split at ho
          · cases ho
          · cases ho; exact errCorruptedf_returned _ _
        · cases ho
      | ok v =>
        have hopen : (ofExcept (openValue C s.cipher path ct) : LedgerM Hostile Bytes) s₁ = .ok v s₁ := by rw [ho]; rfl
        have hrun : readValue C path vh vv s = (if vhOf C s.ck path v ≠ vh then do
            let u ← throw (errCorrupted "value commitment mismatch")
            (fun _ => pure v : Unit → LedgerM Hostile Bytes) u
          else (pure v : LedgerM Hostile Bytes)) s₁ :=
          (run_bind_ok ha).trans ((run_bind_ok rfl).trans (run_bind_ok hopen))
        rw [hrun]
        by_cases hv : vhOf C s.ck path v = vh
        · rw [if_neg (not_not.2 hv)]
          exact .inr ⟨v, rfl, hv⟩
        · rw [if_pos hv]
          refine .inl ⟨errCorrupted "value commitment mismatch", rfl, ?_, ?_⟩ <;> simp [errCorrupted]

/-! ## What the path is held to -/

variable {c : Child}

section
variable {S : Set (Input Hash Hash Hash)} {L : List (Hash × Hash)} {p : Hash}

/-- **What a child at depth `d` of the path `p` is held to**, in a tree that commits to the entries `L`. A leaf
child has the digest of some position on the path; an internal one that of the position it stands at, and below
the root at least two entries share all bits of the path but the last one down to it. -/
inductive Pinned (C : Crypto) (S : Set (Input Hash Hash Hash)) (L : List (Hash × Hash)) (p : Hash) (c : Child) (d : ℕ) :
    Prop
  | leaf {n k : ℕ} {L' : List (Hash × Hash)} (hk : c.isLeaf = true)
      (hpos : Position bitAt (nodeHash C) S L p 256 n k L') (hh : c.hash = digest bitAt (nodeHash C) n k L')
  | node {n : ℕ} {L' : List (Hash × Hash)} (hk : c.isLeaf = false)
      (hpos : Position bitAt (nodeHash C) S L p 256 n (4 * d) L') (hh : c.hash = digest bitAt (nodeHash C) n (4 * d) L')
      (hdeep : 0 < d → ∃ n' L'', Position bitAt (nodeHash C) S L p 256 n' (4 * d - 1) L'' ∧ 2 ≤ L''.length)

/-- A child of any kind that has the digest of the position it stands at, two entries sharing the bits above. -/
theorem pinned_of_position {d n : ℕ} {L' : List (Hash × Hash)}
    (hpos : Position bitAt (nodeHash C) S L p 256 n (4 * d) L') (hh : c.hash = digest bitAt (nodeHash C) n (4 * d) L')
    (hdeep : 0 < d → ∃ n' L'', Position bitAt (nodeHash C) S L p 256 n' (4 * d - 1) L'' ∧ 2 ≤ L''.length) :
    Pinned C S L p c d := by
  cases hk : c.isLeaf with
  | true => exact .leaf hk hpos hh
  | false => exact .node hk hpos hh hdeep

/-- A reference to the root of a map is pinned by it. -/
theorem pinned_root {M : OrdMap Hash Hash} (hS : ∀ x ∈ treeInputs C M, x ∈ S) (hh : c.hash = rootOf C M) :
    Pinned C S M.entries p c 0 := by
  refine pinned_of_position (Position.start (sep_entries M) hS) ?_ fun h0 => absurd h0 (lt_irrefl 0)
  rw [hh, rootOf_eq_digest, Nat.mul_zero]

/-- The inputs of both halves of a range are inputs of the range. -/
theorem subtreeInputs_halves {ch : Children} {start lvl : ℕ} (hne : presentAt ch start (2 ^ (lvl + 1)) ≠ [])
    (hleaf : ∀ i c, presentAt ch start (2 ^ (lvl + 1)) = [(i, c)] → c.isLeaf = false) :
    subtreeInputs C ch start (lvl + 1) =
      .node (subtreeHash C ch start lvl) (subtreeHash C ch (start + 2 ^ lvl) lvl) ::
        (subtreeInputs C ch start lvl ++ subtreeInputs C ch (start + 2 ^ lvl) lvl) := by
  rw [subtreeInputs, present_eq]
  rcases hP : presentAt ch start (2 ^ (lvl + 1)) with _ | ⟨⟨i, c⟩, _ | ⟨e, rest⟩⟩
  · exact absurd hP hne
  · simp [hleaf i c hP]
  · rfl

/-- **The slots of a node hold the path to the digests below**: of a node whose hash is the digest of the
position it stands at, the child on the path is pinned. -/
theorem pinned_of_range (hinj : Set.InjOn (nodeHash C) S) {ch : Children} {d : ℕ}
    (hc : ch (nibble p d) = some c) : ∀ lvl, lvl ≤ 4 → ∀ start, 2 ^ lvl ∣ start → start ≤ (nibble p d).val →
    (nibble p d).val < start + 2 ^ lvl → (∀ x ∈ subtreeInputs C ch start lvl, x ∈ S) → ∀ n L',
    Position bitAt (nodeHash C) S L p 256 n (4 * d + (4 - lvl)) L' →
    subtreeHash C ch start lvl = digest bitAt (nodeHash C) n (4 * d + (4 - lvl)) L' →
    (lvl < 4 → ∃ n' L'', Position bitAt (nodeHash C) S L p 256 n' (4 * d + (3 - lvl)) L'' ∧ 2 ≤ L''.length) →
    Pinned C S L p c (d + 1) := by
  intro lvl
  induction lvl with
  | zero =>
    intro _ start _ h1 h2 _ n L' hpos hh hdeep
    obtain rfl : start = (nibble p d).val := by omega
    have hslot : slot ch (nibble p d).val = some c := by
      unfold slot; rw [dif_pos (nibble p d).isLt]; exact hc
    rw [subtreeHash, hslot] at hh
    exact pinned_of_position hpos hh fun _ => hdeep (by omega)
  | succ lvl ih =>
    intro hl start ha h1 h2 hin n L' hpos hh _
    have hp : 2 ^ (lvl + 1) = 2 ^ lvl + 2 ^ lvl := by rw [pow_succ]; ring
    have hmem : ((nibble p d).val, c) ∈ presentAt ch start (2 ^ (lvl + 1)) := by
      refine mem_presentAt.2 ⟨h1, h2, ?_⟩
      unfold slot; rw [dif_pos (nibble p d).isLt]; exact hc
    by_cases hlone : ∃ i c', presentAt ch start (2 ^ (lvl + 1)) = [(i, c')] ∧ c'.isLeaf = true
    · -- a lone leaf: the range has its hash, wherever in the range it stands
      obtain ⟨i, c', hP, hc'⟩ := hlone
      rw [hP, List.mem_singleton] at hmem
      obtain ⟨-, rfl⟩ := Prod.mk.inj hmem
      rw [subtreeHash, present_eq, hP] at hh
      simp only [List.map_cons, List.map_nil, hc', if_true] at hh
      exact .leaf hc' hpos hh
    · -- the range hashes by its halves, as the digest does
      have hne : presentAt ch start (2 ^ (lvl + 1)) ≠ [] := List.ne_nil_of_mem hmem
      have hleaf : ∀ i c', presentAt ch start (2 ^ (lvl + 1)) = [(i, c')] → c'.isLeaf = false := fun i c' hP =>
        Bool.eq_false_iff.2 fun hc' => hlone ⟨i, c', hP, hc'⟩
      rw [subtreeInputs_halves hne hleaf] at hin
      rw [subtreeHash_halves hne hleaf, ← nodeHash_node] at hh
      obtain ⟨htwo, m, hdown, hdig⟩ := hpos.down hinj (hin _ List.mem_cons_self) hh
      rw [show 4 * d + (4 - (lvl + 1)) + 1 = 4 * d + (4 - lvl) by omega] at hdown hdig
      have hbit : bitAt p (4 * d + (4 - (lvl + 1))) = !decide ((nibble p d).val < start + 2 ^ lvl) := by
        rw [show 4 - (lvl + 1) = 3 - lvl by omega]
        exact bit_lower_half (by omega) ha h1 h2
      have hdeep : lvl < 4 → ∃ n' L'', Position bitAt (nodeHash C) S L p 256 n' (4 * d + (3 - lvl)) L'' ∧ 2 ≤ L''.length := by
        intro _
        refine ⟨n, L', ?_, htwo⟩
        rw [show 4 * d + (3 - lvl) = 4 * d + (4 - (lvl + 1)) by omega]
        exact hpos
      by_cases hlt : (nibble p d).val < start + 2 ^ lvl
      · rw [hbit, decide_eq_true hlt] at hdig
        rw [hbit, decide_eq_true hlt] at hdown
        exact ih (by omega) start (dvd_half ha) h1 hlt
          (fun x hx => hin x (List.mem_cons_of_mem _ (List.mem_append_left _ hx))) m _ hdown hdig hdeep
      · rw [hbit, decide_eq_false hlt] at hdig
        rw [hbit, decide_eq_false hlt] at hdown
        exact ih (by omega) (start + 2 ^ lvl) (Dvd.dvd.add (dvd_half ha) dvd_rfl) (by omega) (by omega)
          (fun x hx => hin x (List.mem_cons_of_mem _ (List.mem_append_right _ hx))) m _ hdown hdig hdeep

/-- The child an honest node is searched for on the path. -/
theorem Pinned.next (hinj : Set.InjOn (nodeHash C) S) {ch : Children} {c c' : Child} {d : ℕ} (h : Pinned C S L p c d)
    (hk : c.isLeaf = false) (hh : subtreeHash C ch 0 4 = c.hash) (hin : ∀ x ∈ subtreeInputs C ch 0 4, x ∈ S)
    (hc : ch (nibble p d) = some c') : Pinned C S L p c' (d + 1) := by
  cases h with
  | leaf hk' => rw [hk] at hk'; cases hk'
  | @node n L' _ hpos hd _ =>
    exact pinned_of_range hinj hc 4 le_rfl 0 (by simp) (by omega) (by simp) hin n L' hpos (hh.trans hd)
      fun h => absurd h (lt_irrefl 4)

/-- A leaf record in a pinned place is an entry, and the only one of its position. -/
theorem Pinned.entry (hinj : Set.InjOn (nodeHash C) S) {d : ℕ} (h : Pinned C S L p c d) {l : LeafNode}
    (hh : leafHash C l.path l.vh = c.hash) (hin : .leaf l.path l.vh ∈ S) : (l.path, l.vh) ∈ L := by
  have hpos : ∃ n k L', Position bitAt (nodeHash C) S L p 256 n k L' ∧ c.hash = digest bitAt (nodeHash C) n k L' := by
    cases h with
    | @leaf n k L' _ hpos hd => exact ⟨n, k, L', hpos, hd⟩
    | @node n L' _ hpos hd _ => exact ⟨n, _, L', hpos, hd⟩
  obtain ⟨n, k, L', hpos, hd⟩ := hpos
  have hone := digest_eq_leaf hinj hpos.sep hpos.hashed hin (by rw [nodeHash_leaf, hh, hd])
  exact (hpos.mem (l.path, l.vh) (by rw [hone]; exact List.mem_singleton_self _)).1

/-- An internal child past the last nibble: the path itself is an entry, and so is a path that differs from it
in the last bit. -/
theorem Pinned.deepest (h : Pinned C S L p c 64) (hk : c.isLeaf = false) :
    (∃ vh, (p, vh) ∈ L) ∧ 2 ≤ L.length := by
  cases h with
  | leaf hk' => rw [hk] at hk'; cases hk'
  | node _ _ _ hdeep =>
    obtain ⟨n', L'', hpos, htwo⟩ := hdeep (by omega)
    obtain ⟨a, ha, b, hb, j, h1, h2, hne⟩ := hpos.two htwo
    obtain rfl : j = 255 := by omega
    have hagree : ∀ e ∈ L'', bitAt e.1 255 = bitAt p 255 → e.1 = p := by
      intro e he h255
      refine bitAt_ext fun i hi => ?_
      by_cases hlt : i < 255
      · exact (hpos.mem e he).2 i hlt
      · obtain rfl : i = 255 := by omega
        exact h255
    refine ⟨?_, two_le_length (hpos.mem a ha).1 (hpos.mem b hb).1 fun hab => hne (by rw [hab])⟩
    -- of two different bits one is the path's
    by_cases hap : bitAt a.1 255 = bitAt p 255
    · exact ⟨a.2, by rw [← hagree a ha hap]; exact (hpos.mem a ha).1⟩
    · have hbp : bitAt b.1 255 = bitAt p 255 := by
        cases h3 : bitAt a.1 255 <;> cases h4 : bitAt b.1 255 <;> cases h5 : bitAt p 255 <;> simp_all
      exact ⟨b.2, by rw [← hagree b hb hbp]; exact (hpos.mem b hb).1⟩

/-! ## The walk -/

/-- What a walk for `p` from the child `c` may end in: a value only of the entry's commitment; from a leaf, and with
one entry at most, absence only of an absent path; and a crash only on a path that is present. -/
def Sound (C : Crypto) (ck : Bytes) (L : List (Hash × Hash)) (p : Hash) (c : Child) : Except Err (Option Bytes) → Prop
  | .ok (some v) => (p, vhOf C ck p v) ∈ L
  | .ok none => c.isLeaf = true → L.length ≤ 1 → ∀ vh, (p, vh) ∉ L
  | .error e => e.Returned ∨ (∃ vh, (p, vh) ∈ L) ∧ 2 ≤ L.length

/-- What the walk does with the node it has loaded. -/
theorem walkFrom_loaded {β : Type} [Backend β] (p : Hash) (fuel : ℕ) (c : Child) (pfx : List Nib) {n : Node}
    {s s₁ : Store β} : loadNode C ⟨c.version, pfx⟩ c.hash s = .ok n s₁ → walkFrom C p fuel c pfx s = (
      if n.isLeaf ≠ c.isLeaf then throw (errNode "node %v kind mismatch" ⟨c.version, pfx⟩)
      else match n with
        | .leaf l =>
          if l.path = p then do
            let v ← readValue C p l.vh l.valueVersion
            pure (some v)
          else pure none
        | .internal ch =>
          match fuel with
          | 0 => throw .panic
          | fuel + 1 =>
            match ch (nibble p pfx.length) with
            | none => pure none
            | some next => walkFrom C p fuel next (pfx ++ [nibble p pfx.length]) : LedgerM β (Option Bytes)) s₁ := by
  intro h
  conv_lhs => unfold walkFrom
  refine (run_bind_ok h).trans ?_
  obtain ⟨v, hash, leaf⟩ := c
  cases n <;> cases leaf <;> rfl

/-- From an internal node, nothing is said of absence. -/
theorem Sound.of_internal {ck : Bytes} {c c' : Child} {o : Except Err (Option Bytes)} (h : Sound C ck L p c o)
    (hk : c'.isLeaf = false) : Sound C ck L p c' o := by
  rcases o with e | _ | v
  · exact h
  · intro hl
    rw [hk] at hl
    cases hl
  · exact h

/-- A walk that ends in a leaf record of the expected hash. -/
theorem walkLeaf_hostile (hinj : Set.InjOn (nodeHash C) S) {c : Child} {d : ℕ} {s : Store Hostile} (hsaw : Saw s)
    {l : LeafNode} (hh : leafHash C l.path l.vh = c.hash) : ∃ o s',
      (if l.path = p then do
        let v ← readValue C p l.vh l.valueVersion
        pure (some v)
      else pure none : LedgerM Hostile (Option Bytes)) s = outcome o s' ∧ Later s s' ∧ Saw s' ∧
      (.leaf l.path l.vh ∈ S → Pinned C S L p c d → Sound C s.ck L p c o) := by
  by_cases hp : l.path = p
  · rw [if_pos hp]
    obtain ⟨s', hlater, hsaw', ⟨e, hrun, he⟩ | ⟨v, hrun, hv⟩⟩ := @readValue_hostile C s hsaw p l.vh l.valueVersion
    · exact ⟨.error e, s', run_bind_error hrun, hlater, hsaw', fun _ _ => .inl he⟩
    · refine ⟨.ok (some v), s', run_bind_ok hrun, hlater, hsaw', fun hin hpin => ?_⟩
      have hmem := hpin.entry hinj hh hin
      rw [hp] at hmem
      show (p, vhOf C s.ck p v) ∈ L
      rw [hv]
      exact hmem
  · rw [if_neg hp]
    refine ⟨.ok none, s, rfl, Later.refl s, hsaw, fun hin hpin _ hone vh hvh => hp ?_⟩
    -- the leaf served is the only entry there is
    have hmem := hpin.entry hinj hh hin
    by_contra hne
    have := two_le_length hmem hvh fun he => hne (Prod.mk.inj he).1
    omega

/-- One step of the walk: it fails, ends in a leaf, or goes on from an internal node that was served. -/
theorem walkFrom_step_hostile (hinj : Set.InjOn (nodeHash C) S) {fuel : ℕ} {pfx : List Nib}
    {s : Store Hostile} (hsaw : Saw s)
    (hnode : ∀ ch s₁, Later s s₁ → Saw s₁ → subtreeHash C ch 0 4 = c.hash → c.isLeaf = false →
      ∃ o s', (match fuel with
        | 0 => throw .panic
        | fuel + 1 =>
          match ch (nibble p pfx.length) with
          | none => pure none
          | some next => walkFrom C p fuel next (pfx ++ [nibble p pfx.length]) : LedgerM Hostile (Option Bytes)) s₁ =
            outcome o s' ∧ Later s₁ s' ∧ Saw s' ∧
        (HashedIn C S s' → (∀ x ∈ subtreeInputs C ch 0 4, x ∈ S) → Pinned C S L p c pfx.length →
          Sound C s.ck L p c o)) :
    ∃ o s', walkFrom C p fuel c pfx s = outcome o s' ∧ Later s s' ∧ Saw s' ∧
      (HashedIn C S s' → Pinned C S L p c pfx.length → Sound C s.ck L p c o) := by
  obtain ⟨s₁, hlater, hsaw₁, ⟨e, hrun, he⟩ | ⟨n, hrun, hh, hserved⟩⟩ := @loadNode_hostile C s hsaw ⟨c.version, pfx⟩ c.hash
  · exact ⟨.error e, s₁, by unfold walkFrom; exact run_bind_error hrun, hlater, hsaw₁, fun _ _ => .inl he⟩
  rw [walkFrom_loaded p fuel c pfx hrun]
  by_cases hk : n.isLeaf = c.isLeaf
  · rw [if_neg (not_not.2 hk)]
    cases n with
    | leaf l =>
      obtain ⟨o, s', hrun', hlater', hsaw', hsound⟩ := @walkLeaf_hostile C S L p hinj c pfx.length s₁ hsaw₁ l hh
      refine ⟨o, s', hrun', hlater.trans hlater', hsaw', fun hin hpin => ?_⟩
      rw [hlater.ck] at hsound
      exact hsound (hin _ (hlater'.served hserved) _ (List.mem_singleton_self _)) hpin
    | internal ch =>
      obtain ⟨o, s', hrun', hlater', hsaw', hsound⟩ := hnode ch s₁ hlater hsaw₁ hh hk.symm
      exact ⟨o, s', hrun', hlater.trans hlater', hsaw', fun hin => hsound hin (hin _ (hlater'.served hserved))⟩
  · rw [if_pos hk]
    exact ⟨.error (errNode "node %v kind mismatch" ⟨c.version, pfx⟩), s₁, rfl, hlater, hsaw₁,
      fun _ _ => .inl (errCorruptedf_returned _ _)⟩

/-- **The walk over hostile storage** ends soundly, if the nodes it was served do not collide with the tree. -/
theorem walkFrom_hostile (hinj : Set.InjOn (nodeHash C) S) : ∀ {fuel : ℕ} {c : Child} {pfx : List Nib} {s : Store Hostile},
    Saw s → pfx.length + fuel = 64 → ∃ o s', walkFrom C p fuel c pfx s = outcome o s' ∧ Later s s' ∧ Saw s' ∧
      (HashedIn C S s' → Pinned C S L p c pfx.length → Sound C s.ck L p c o) := by
  intro fuel
  -- on the nibbles left; an internal node with none left makes the source index past the path
  induction fuel with
  | zero =>
    intro c pfx s hsaw hlen
    refine walkFrom_step_hostile hinj hsaw fun ch s₁ hlater hsaw₁ _ hkind => ?_
    refine ⟨.error .panic, s₁, rfl, Later.refl s₁, hsaw₁, fun _ _ hpin => .inr ?_⟩
    rw [show pfx.length = 64 by omega] at hpin
    exact hpin.deepest hkind
  | succ fuel ih =>
    intro c pfx s hsaw hlen
    refine walkFrom_step_hostile hinj hsaw fun ch s₁ hlater hsaw₁ hh hkind => ?_
    cases hc : ch (nibble p pfx.length) with
    | none =>
      refine ⟨.ok none, s₁, rfl, Later.refl s₁, hsaw₁, fun _ _ _ hl => ?_⟩
      rw [hkind] at hl
      cases hl
    | some next =>
      obtain ⟨o, s', hrun', hlater', hsaw', hsound⟩ := @ih next (pfx ++ [nibble p pfx.length]) s₁ hsaw₁
        (by rw [List.length_append, List.length_singleton]; omega)
      refine ⟨o, s', hrun', hlater', hsaw', fun hin hch hpin => ?_⟩
      have hnext : Pinned C S L p next (pfx.length + 1) := hpin.next hinj hkind hh hch hc
      rw [List.length_append, List.length_singleton, hlater.ck] at hsound
      exact (hsound hin hnext).of_internal hkind

end

/-! ## Forgeries -/

/-- The children of a node with the one child `c`, in slot `j`. -/
def lone (j : Nib) (c : Child) : Children := fun i => if i = j then some c else none

theorem presentAt_lone (j : Nib) (c : Child) : presentAt (lone j c) 0 (2 ^ 4) = [(j.val, c)] := by
  fin_cases j <;> rfl

/-- **A lone leaf hides its slot**: the node has the hash of its leaf, and nothing is hashed for it. -/
theorem hash_lone (j : Nib) (hc : c.isLeaf = true) :
    (Node.internal (lone j c)).hash C = c.hash ∧ (Node.internal (lone j c)).inputs C = [] := by
  constructor
  · rw [Node.hash, subtreeHash, present_eq, presentAt_lone]
    simp [hc]
  · rw [Node.inputs, subtreeInputs, present_eq, presentAt_lone]
    simp [hc]

/-- A node that claims to be the one of hash `h`, with nothing on the path `p`. -/
def forged (p h : Hash) : Node := .internal (lone (nibble p 0 + 1) ⟨0, h, true⟩)

theorem forged_hash (p h : Hash) : (forged p h).hash C = h := (hash_lone _ rfl).1

theorem forged_inputs (p h : Hash) : (forged p h).inputs C = [] := (hash_lone _ rfl).2

theorem forged_ok (p h : Hash) : (forged p h).Ok := ⟨nibble p 0 + 1, by simp [lone]⟩

theorem lone_ne (p : Hash) (c : Child) : lone (nibble p 0 + 1) c (nibble p 0) = none := by
  unfold lone
  refine if_neg ?_
  generalize nibble p 0 = j
  revert j
  decide

/-- A node that is not cached is read, decoded and checked. -/
theorem loadNode_read {β : Type} [Backend β] {nk : NodeKey} {h : Hash} {rec : Bytes} {n : Node} {s : Store β} {b : β}
    (hc : s.cache.node nk = none) (hb : Backend.get s.backend (nodeRecordKey nk) = (.ok (some rec), b))
    (hd : decodeNode rec = .ok n) (hh : n.hash C = h) :
    loadNode C nk h s = .ok n { s with backend := b, cache := (s.cache.get nk).2.put nk n } := by
  have hget : backendGet (nodeRecordKey nk) { s with cache := (s.cache.get nk).2 } =
      .ok (some rec) { s with backend := b, cache := (s.cache.get nk).2 } := by
    unfold backendGet
    simp only [hb]
  have hdec : ∀ s' : Store β, (ofExcept (decodeNode rec) : LedgerM β Node) s' = .ok n s' := by
    intro s'; rw [hd]; rfl
  unfold loadNode
  refine (run_bind_ok rfl).trans ((run_bind_ok rfl).trans ?_)
  rw [NodeCache.fst_get, hc]
  refine (run_bind_ok hget).trans ((run_bind_ok (hdec _)).trans ?_)
  rw [if_neg (not_not.2 hh)]
  rfl

end ImmutableLedger
