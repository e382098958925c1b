import ImmutableLedger.Tree.Build
import ImmutableLedger.Tree.Read

/-!
# Applying updates to a subtree

`applySubtree` never fails on a canonical tree whose records are stored, and turns it into the canonical
tree of the updated entries (`applySubtree_spec`), whether the node at hand is stored or pending in
the same commit.
-/

namespace ImmutableLedger

open EStateM

/-! ## Updated entries -/

/-- An entry after a change: an identical overwrite keeps the old value record. -/
def updAt (nv : UInt64) : Option (Option Hash) → Option (Hash × UInt64) → Option (Hash × UInt64)
  | none, e => e
  | some none, _ => none
  | some (some vh), none => some (vh, nv)
  | some (some vh), some e => if vh = e.1 then some e else some (vh, nv)

/-- The change the updates make at a path. -/
def findVh (us : List Update) (p : Hash) : Option (Option Hash) := (us.find? fun u => u.path = p).map Update.vh

/-- The entries after the updates. -/
def upd (nv : UInt64) (us : List Update) (f : Hash → Option (Hash × UInt64)) (p : Hash) : Option (Hash × UInt64) :=
  updAt nv (findVh us p) (f p)

variable {nv : UInt64} {us : List Update} {f : Hash → Option (Hash × UInt64)} {p : Hash}

theorem findVh_eq_none : findVh us p = none ↔ ∀ u ∈ us, u.path ≠ p := by simp [findVh]

theorem findVh_cons (u : Update) (us : List Update) (p : Hash) :
    findVh (u :: us) p = if u.path = p then some u.vh else findVh us p := by
  unfold findVh
  by_cases h : u.path = p
  · rw [List.find?_cons_of_pos (by simpa using h), if_pos h]; rfl
  · rw [List.find?_cons_of_neg (by simpa using h), if_neg h]

theorem mem_of_findVh {o : Option Hash} (h : findVh us p = some o) : ∃ u ∈ us, u.path = p ∧ u.vh = o := by
  induction us with
  | nil => simp [findVh] at h
  | cons u us ih =>
    rw [findVh_cons] at h
    split at h
    · rename_i hu; cases h; exact ⟨u, by simp, hu, rfl⟩
    · obtain ⟨v, hv, h1, h2⟩ := ih h
      exact ⟨v, List.mem_cons_of_mem _ hv, h1, h2⟩

theorem findVh_of_mem (hs : us.Pairwise fun a b => a.path < b.path) {u : Update} (hu : u ∈ us) :
    findVh us u.path = some u.vh := by
  induction us with
  | nil => simp at hu
  | cons v us ih =>
    rw [List.pairwise_cons] at hs
    rw [findVh_cons]
    rcases List.mem_cons.1 hu with rfl | hu
    · rw [if_pos rfl]
    · rw [if_neg (hs.1 u hu).ne, ih hs.2 hu]

theorem upd_of_notin (h : ∀ u ∈ us, u.path ≠ p) : upd nv us f p = f p := by
  unfold upd; rw [findVh_eq_none.2 h]; rfl

theorem upd_nil : upd nv [] f = f := by funext p; exact upd_of_notin (by simp)

/-- Updates of disjoint paths apply one after the other. -/
theorem upd_append {a b : List Update} (h : ∀ u ∈ a, ∀ v ∈ b, u.path ≠ v.path) :
    upd nv (a ++ b) f = upd nv b (upd nv a f) := by
  funext p
  by_cases ha : ∃ u ∈ a, u.path = p
  · obtain ⟨u, hu, rfl⟩ := ha
    have hb : upd nv b (upd nv a f) u.path = upd nv a f u.path := upd_of_notin fun v hv => (h u hu v hv).symm
    rw [hb]
    unfold upd findVh
    rw [List.find?_append]
    cases hfind : a.find? (fun v => v.path = u.path) with
    | none => rw [List.find?_eq_none] at hfind; simpa using hfind u hu
    | some x => rfl
  · have hno : ∀ u ∈ a, u.path ≠ p := fun u hu he => ha ⟨u, hu, he⟩
    unfold upd
    rw [findVh_eq_none.2 hno]
    unfold findVh
    rw [List.find?_append, List.find?_eq_none.2 (by simpa using hno)]
    rfl

/-- An entry after the updates is an old one, or one of this version that an update wrote. -/
theorem upd_eq_some {vh : Hash} {vv : UInt64} (h : upd nv us f p = some (vh, vv)) :
    f p = some (vh, vv) ∨ vv = nv ∧ ∃ u ∈ us, u.path = p ∧ u.vh = some vh := by
  unfold upd at h
  cases hfind : findVh us p with
  | none => rw [hfind] at h; exact .inl h
  | some o =>
    rw [hfind] at h
    obtain ⟨u, hu, hp, hvh⟩ := mem_of_findVh hfind
    cases o with
    | none => cases h
    | some w =>
      cases hf : f p with
      | none => rw [hf] at h; cases h; exact .inr ⟨rfl, u, hu, hp, hvh⟩
      | some e =>
        rw [hf] at h
        simp only [updAt] at h
        split at h
        · exact .inl h
        · cases h; exact .inr ⟨rfl, u, hu, hp, hvh⟩

/-! ## The leaf lists of the two base cases -/

theorem insertPairs_sorted (hs : us.Pairwise fun a b => a.path < b.path) :
    (insertPairs nv us).Pairwise fun a b => a.path < b.path := by
  unfold insertPairs
  rw [List.pairwise_filterMap]
  refine hs.imp fun {a b} hab x hx y hy => ?_
  rw [Option.map_eq_some_iff] at hx hy
  obtain ⟨_, -, rfl⟩ := hx
  obtain ⟨_, -, rfl⟩ := hy
  exact hab

variable {l : LeafNode}

theorem mem_insertPairs :
    l ∈ insertPairs nv us ↔ l.valueVersion = nv ∧ ∃ u ∈ us, u.path = l.path ∧ u.vh = some l.vh := by
  unfold insertPairs
  rw [List.mem_filterMap]
  constructor
  · rintro ⟨u, hu, h⟩
    rw [Option.map_eq_some_iff] at h
    obtain ⟨vh, hvh, rfl⟩ := h
    exact ⟨rfl, u, hu, rfl, hvh⟩
  · rintro ⟨h1, u, hu, h2, h3⟩
    exact ⟨u, hu, by rw [h3, h2, ← h1]; rfl⟩

/-- On an empty subtree the updates leave their inserts. -/
theorem leafMap_insertPairs (hs : us.Pairwise fun a b => a.path < b.path) (hf : f p = none) :
    leafMap (insertPairs nv us) p = upd nv us f p := by
  apply Option.ext
  rintro ⟨vh, vv⟩
  rw [leafMap_eq_some (insertPairs_sorted hs), mem_insertPairs]
  constructor
  · rintro ⟨rfl, u, hu, rfl, hvh⟩
    simp only at hvh hf
    unfold upd
    rw [findVh_of_mem hs hu, hvh, hf]
    rfl
  · intro h
    rcases upd_eq_some h with h | ⟨h1, h2⟩
    · rw [hf] at h; cases h
    · exact ⟨h1, h2⟩

/-- The merge of a resident leaf with the updates holds the updated entries. -/
theorem get_mergeLeaf (hs : us.Pairwise fun a b => a.path < b.path) (l : LeafNode) (p : Hash) :
    (mergeLeaf nv l us).get p = upd nv us (leafMap [l]) p := by
  -- the fold, from any map that still has the leaf's entries at the paths to come
  have key : ∀ (us : List Update), us.Pairwise (fun a b => a.path < b.path) →
      ∀ m : OrdMap Hash (Hash × UInt64), (∀ u ∈ us, m.get u.path = leafMap [l] u.path) →
      (us.foldl (mergeUpdate nv l) m).get p = updAt nv (findVh us p) (m.get p) := by
    intro us
    induction us with
    | nil => intro _ m _; rfl
    | cons u us ih =>
      intro hs m hm
      rw [List.pairwise_cons] at hs
      rw [List.foldl_cons]
      have hne : ∀ v ∈ us, v.path ≠ u.path := fun v hv => (hs.1 v hv).ne'
      rw [ih hs.2 _ fun v hv => ?_, findVh_cons]
      · have hmu := hm u (by simp)
        by_cases hp : u.path = p
        · subst hp
          rw [if_pos rfl, findVh_eq_none.2 hne, hmu]
          unfold leafMap mergeUpdate
          cases hvh : u.vh with
          | none => simp [updAt]
          | some vh =>
            by_cases hl : l.path = u.path
            · by_cases hv : vh = l.vh
              · simp [updAt, hl, hv]
              · simp [updAt, hl, hv]
            · simp [updAt, hl, Ne.symm hl]
        · rw [if_neg hp]
          unfold mergeUpdate
          cases u.vh <;> simp [Ne.symm hp]
      · have := hm v (List.mem_cons_of_mem _ hv)
        unfold mergeUpdate
        cases u.vh <;> simp [hne v hv, this]
  have h0 : ∀ q, (OrdMap.empty.insert l.path (l.vh, l.valueVersion)).get q = leafMap [l] q := by
    intro q
    unfold leafMap
    by_cases hq : l.path = q
    · simp [hq]
    · simp [hq, Ne.symm hq]
  unfold mergeLeaf upd
  rw [key us hs _ fun u _ => h0 u.path, h0]

theorem mergedPairs_sorted (m : OrdMap Hash (Hash × UInt64)) :
    (mergedPairs m).Pairwise fun a b => a.path < b.path := by
  unfold mergedPairs; rw [List.pairwise_map]; exact m.sorted

theorem leafMap_mergedPairs (m : OrdMap Hash (Hash × UInt64)) (p : Hash) : leafMap (mergedPairs m) p = m.get p := by
  apply Option.ext
  rintro ⟨vh, vv⟩
  rw [leafMap_eq_some (mergedPairs_sorted m), ← OrdMap.mem_entries]
  unfold mergedPairs
  rw [List.mem_map]
  constructor
  · rintro ⟨⟨q, w, x⟩, hm, he⟩; cases he; exact hm
  · intro hm; exact ⟨_, hm, rfl⟩

/-! ## Applying -/

variable {C : Crypto} {owner : Hash → Hash} {G : Hash → Hash → Bytes → Prop} {s : Store MemBackend}

/-- The subtree `t` at `pfx` is the canonical tree of `f`, its older records are stored, and its
commitments belong to their paths. -/
structure TreeOk (C : Crypto) (owner : Hash → Hash) (G : Hash → Hash → Bytes → Prop) (s : Store MemBackend)
    (nv : UInt64) (pfx : List Nib) (f : Hash → Option (Hash × UInt64)) (t : Tree) : Prop where
  holds : t.Holds f pfx
  mono : t.Mono
  ver_le : ∀ w ∈ t.ver, w ≤ nv
  owned : ∀ p vh vv, Under pfx p → f p = some (vh, vv) → owner vh = p
  stored : ∀ x ∈ t.recs C pfx, x.version ≠ nv → Stored G s x

/-- The updates are sorted, lie under `pfx`, and bring the stored form of what they insert. -/
structure UpdatesOk (owner : Hash → Hash) (G : Hash → Hash → Bytes → Prop) (cts : OrdMap Hash Bytes)
    (pfx : List Nib) (us : List Update) : Prop where
  sorted : us.Pairwise fun a b => a.path < b.path
  under : ∀ u ∈ us, Under pfx u.path
  ready : ∀ u ∈ us, ∀ vh, u.vh = some vh → owner vh = u.path ∧ ∃ ct, cts.get u.path = some ct ∧ G u.path vh ct

variable {pfx : List Nib} {cts : OrdMap Hash Bytes}

theorem UpdatesOk.owned_upd (hU : UpdatesOk owner G cts pfx us)
    (nv : UInt64) (ho : ∀ p vh vv, Under pfx p → f p = some (vh, vv) → owner vh = p) :
    ∀ p vh vv, Under pfx p → upd nv us f p = some (vh, vv) → owner vh = p := by
  intro p vh vv hp h
  rcases upd_eq_some h with h | ⟨-, u, hu, rfl, hvh⟩
  · exact ho p vh vv hp h
  · exact (hU.ready u hu vh hvh).1

/-- Older records of the new tree are records of the old one, hence stored. -/
theorem Step.stored {acc acc' : CommitAcc} {R R' : Set Record}
    (hS : Step owner G acc acc' pfx R R') (h : ∀ x ∈ R, x.version ≠ acc.newVersion → Stored G s x) :
    ∀ x ∈ R', x.version ≠ acc.newVersion → Stored G s x :=
  fun x hx hv => h x (hS.old x hx hv) hv

variable {acc : CommitAcc}

/-- A node of the subtree resolves, from the pending set or from the backend. -/
theorem yields_resolveNode {R : Set Record} (hT : Tracks owner G acc pfx R)
    {nk : NodeKey} {n : Node} (hx : .node nk n ∈ R) (hst : nk.version ≠ acc.newVersion → Stored G s (.node nk n))
    {h : Hash} (hh : n.hash C = h) : Yields (Around s) (resolveNode C acc nk h) (.ok n) := by
  unfold resolveNode
  by_cases hv : nk.version = acc.newVersion
  · rw [if_pos hv, (hT.pend nk n (hT.region _ hx) hv).2 hx]
    exact Yields.pure n
  · rw [if_neg hv]
    exact yields_loadNode (hst hv) hh

/-- A leaf without its node record is its value record. -/
theorem recs_leaf_diff (v : UInt64) (l : LeafNode) (pfx : List Nib) :
    (Tree.leaf v l).recs C pfx \ {.node ⟨v, pfx⟩ (.leaf l)} = {.value l.path l.vh l.valueVersion} := by
  ext x
  constructor
  · rintro ⟨rfl | hx, hne⟩
    · exact absurd rfl hne
    · exact hx
  · rintro rfl; exact ⟨.inr rfl, fun he => by cases he⟩

/-- **The leaf case.** -/
theorem applyLeaf_spec {fuel : ℕ} {v : UInt64}
    (hlen : pfx.length + fuel = 64) (hok : TreeOk C owner G s acc.newVersion pfx f (.leaf v l))
    (hT : Tracks owner G acc pfx ((Tree.leaf v l).recs C pfx)) (hU : UpdatesOk owner G acc.insertCTs pfx us) :
    ∃ acc' t', applyLeaf C fuel acc ⟨v, leafHash C l.path l.vh, true⟩ ⟨v, pfx⟩ l us = .ok (acc', Tree.ref C t') ∧
      Step owner G acc acc' pfx ((Tree.leaf v l).recs C pfx) (t'.recs C pfx) ∧
      t'.Holds (upd acc.newVersion us f) pfx ∧ t'.Mono ∧
      (t' = .leaf v l ∨ ∀ w ∈ t'.ver, w = acc.newVersion) ∧
      ((∀ p, Under pfx p → upd acc.newVersion us f p = f p) → t' = .leaf v l) := by
  obtain ⟨hl, hfl, hno⟩ := hok.holds
  set merged := mergeLeaf acc.newVersion l us with hmerged
  have ho : owner l.vh = l.path := hok.owned _ _ _ hl hfl
  have hf1 : ∀ p, Under pfx p → leafMap [l] p = f p := by
    intro p hp
    by_cases hpl : p = l.path
    · subst hpl; rw [hfl]; simp [leafMap]
    · rw [hno p hp hpl]; exact leafMap_eq_none.2 (by simpa using Ne.symm hpl)
  have hget : ∀ p, Under pfx p → merged.get p = upd acc.newVersion us f p := by
    intro p hp
    rw [hmerged, get_mergeLeaf hU.sorted]
    unfold upd; rw [hf1 p hp]
  have hunder : ∀ p e, merged.get p = some e → Under pfx p := by
    intro p e he
    rw [hmerged, get_mergeLeaf hU.sorted] at he
    rcases upd_eq_some he with h | ⟨-, u, hu, rfl, -⟩
    · rw [leafMap_eq_some (by simp), List.mem_singleton] at h
      rw [← h] at hl; exact hl
    · exact hU.under u hu
  unfold applyLeaf
  simp only [← hmerged]
  split
  · -- the entries are unchanged
    rename_i hsame
    refine ⟨acc, .leaf v l, rfl, Step.refl hT, ⟨hl, by rw [← hget _ hl]; exact hsame.2, ?_⟩, hok.mono, .inl rfl,
      fun _ => rfl⟩
    intro p hp hpl
    rw [← hget p hp]
    obtain ⟨e, he⟩ := List.length_eq_one_iff.1 hsame.1
    cases hm : merged.get p with
    | none => rfl
    | some w =>
      have h1 := OrdMap.mem_entries.2 hm
      have h2 := OrdMap.mem_entries.2 hsame.2
      rw [he, List.mem_singleton] at h1 h2
      exact absurd (Prod.mk.inj (h1.trans h2.symm)).1 hpl
  · -- the leaf node goes, its value record stays only if the leaf keeps its value
    rename_i hdiff
    have h1 := step_staleNode hT ⟨v, pfx⟩ (n := .leaf l) (.inl rfl)
    set acc₁ := acc.staleNode ⟨v, pfx⟩ with hacc₁
    rw [recs_leaf_diff] at h1
    set acc₂ := (if (merged.get l.path).map Prod.fst = some l.vh then acc₁ else acc₁.staleValue l) with hacc₂
    obtain ⟨R₂, h2, hkeep⟩ : ∃ R₂, Step owner G acc acc₂ pfx ((Tree.leaf v l).recs C pfx) R₂ ∧
        (∀ x, x ∈ R₂ ↔ x = .value l.path l.vh l.valueVersion ∧ (merged.get l.path).map Prod.fst = some l.vh) := by
      by_cases hk : (merged.get l.path).map Prod.fst = some l.vh
      · rw [hacc₂, if_pos hk]
        exact ⟨_, h1, fun x => ⟨fun hx => ⟨hx, hk⟩, fun hx => hx.1⟩⟩
      · rw [hacc₂, if_neg hk]
        exact ⟨_, h1.trans (step_staleValue h1.tracks ho rfl), fun x =>
          ⟨fun hx => absurd hx.1 hx.2, fun hx => absurd hx.2 hk⟩⟩
    have hready : Ready owner G acc₂ (mergedPairs merged) R₂ := by
      have hmem : ∀ q : LeafNode, q ∈ mergedPairs merged ↔ merged.get q.path = some (q.vh, q.valueVersion) := by
        intro q
        rw [← leafMap_mergedPairs, leafMap_eq_some (mergedPairs_sorted merged)]
      have hcase : ∀ q ∈ mergedPairs merged, (q = l ∧ (merged.get l.path).map Prod.fst = some l.vh) ∨
          q.valueVersion = acc.newVersion ∧ ∃ u ∈ us, u.path = q.path ∧ u.vh = some q.vh := by
        intro q hq
        have hgq := (hmem q).1 hq
        have hu := hunder _ _ hgq
        rcases upd_eq_some (hget _ hu ▸ hgq) with h | h
        · rw [← hf1 _ hu, leafMap_eq_some (by simp), List.mem_singleton] at h
          have hql : q = l := h
          exact .inl ⟨hql, by rw [← hql, hgq]; rfl⟩
        · exact .inr h
      refine ⟨fun x hx => ?_, fun q hq _ => ?_, fun q hq => ?_, fun q hq hne => ?_, fun q hq he => ?_⟩
      · obtain ⟨rfl, hk⟩ := (hkeep x).1 hx
        obtain ⟨⟨vh, vv⟩, hg, hvh⟩ := Option.map_eq_some_iff.1 hk
        simp only at hvh
        subst hvh
        refine ⟨l, (hmem l).2 ?_, rfl⟩
        -- the same commitment is merged with the leaf's own value version
        rw [hmerged, get_mergeLeaf hU.sorted] at hg ⊢
        unfold upd at hg ⊢
        rw [hf1 _ hl, hfl] at hg ⊢
        cases hfind : findVh us l.path with
        | none => rfl
        | some o =>
          rw [hfind] at hg
          cases o with
          | none => cases hg
          | some w =>
            simp only [updAt] at hg ⊢
            split
            · rfl
            · rename_i hne
              rw [if_neg hne] at hg
              cases hg
              exact absurd rfl hne
      · rcases hcase q hq with ⟨rfl, -⟩ | ⟨-, u, hu, h1, h2⟩
        · exact ho
        · rw [← h1]; exact (hU.ready u hu _ h2).1
      · rw [h2.version]
        rcases hcase q hq with ⟨rfl, -⟩ | ⟨h, -⟩
        · exact le_trans hok.mono (hok.ver_le v rfl)
        · exact h.le
      · rw [h2.version] at hne
        rcases hcase q hq with ⟨rfl, hk⟩ | ⟨h, -⟩
        · exact (hkeep _).2 ⟨rfl, hk⟩
        · exact absurd h hne
      · rcases hcase q hq with ⟨rfl, hk⟩ | ⟨-, u, hu, h3, h4⟩
        · exact .inl ((hkeep _).2 ⟨rfl, hk⟩)
        · right
          rw [h2.cts, ← h3]
          exact (hU.ready u hu _ h4).2
    obtain ⟨acc', t', he, hstep, hH, hM, hver⟩ := buildFromPairs_spec (C := C) fuel acc₂ pfx (mergedPairs merged) R₂ hlen
      h2.tracks hready (mergedPairs_sorted merged) (by
        intro q hq
        refine hunder q.path (q.vh, q.valueVersion) ?_
        rw [← leafMap_mergedPairs, leafMap_eq_some (mergedPairs_sorted merged)]; exact hq)
    refine ⟨acc', t', he, h2.trans hstep, hH.congr fun p hp => by rw [leafMap_mergedPairs, hget p hp], hM, .inr ?_,
      fun hnoop => absurd ⟨?_, ?_⟩ hdiff⟩
    · intro w hw
      rw [hver w hw, h2.version]
    · refine OrdMap.size_eq_one (k := l.path) (v := (l.vh, l.valueVersion)) (by rw [hget _ hl, hnoop _ hl, hfl]) ?_
      intro p e he
      have hp := hunder p e he
      by_contra hne
      rw [hget p hp, hnoop p hp, hno p hp hne] at he
      cases he
    · rw [hget _ hl, hnoop _ hl, hfl]

/-! ### Internal nodes -/

section
variable {acc : CommitAcc} {pfx : List Nib} {ch : Nib → Tree} {nk : NodeKey} {n₀ : Node}

/-- The node's own record is in no child's subtree. -/
theorem node_notin_fam (hch : ∀ i, (ch i).Holds f (pfx ++ [i])) (v : UInt64) (n : Node) :
    .node ⟨v, pfx⟩ n ∉ Tree.famRecs C pfx ch := by
  rintro ⟨i, hi⟩
  exact not_snoc_isPrefix pfx i (Tree.recs_in (hch i) _ hi)

theorem slice_fam (hch : ∀ i, (ch i).Holds f (pfx ++ [i])) (v : UInt64) (n : Node) (i : Nib) :
    slice pfx (insert (.node ⟨v, pfx⟩ n) (Tree.famRecs C pfx ch)) i = (ch i).recs C (pfx ++ [i]) := by
  ext x
  constructor
  · rintro ⟨rfl | ⟨j, hj⟩, hi⟩
    · exact absurd hi (not_snoc_isPrefix pfx i)
    · rw [hi.inj (Tree.recs_in (hch j) x hj)]; exact hj
  · intro hx; exact ⟨.inr ⟨i, hx⟩, Tree.recs_in (hch i) x hx⟩

theorem splice_fam (hch : ∀ i, (ch i).Holds f (pfx ++ [i])) (v : UInt64) (n : Node) (i : Nib) (t : Tree) :
    splice pfx (insert (.node ⟨v, pfx⟩ n) (Tree.famRecs C pfx ch)) i (t.recs C (pfx ++ [i])) =
      insert (.node ⟨v, pfx⟩ n) (Tree.famRecs C pfx (Function.update ch i t)) := by
  ext x
  constructor
  · rintro (hx | ⟨rfl | ⟨j, hj⟩, hi⟩)
    · exact .inr ⟨i, by rw [Function.update_self]; exact hx⟩
    · exact .inl rfl
    · have hji : j ≠ i := by
        rintro rfl; exact hi (Tree.recs_in (hch j) x hj)
      exact .inr ⟨j, by rw [Function.update_of_ne hji]; exact hj⟩
  · rintro (rfl | ⟨j, hj⟩)
    · exact .inr ⟨.inl rfl, not_snoc_isPrefix pfx i⟩
    · by_cases hji : j = i
      · subst hji; rw [Function.update_self] at hj; exact .inl hj
      · rw [Function.update_of_ne hji] at hj
        exact .inr ⟨.inr ⟨j, hj⟩, fun hi => hji ((Tree.recs_in (hch j) x hj).inj hi)⟩

/-- Taking a leaf retires its node record and returns the leaf. -/
theorem yields_takeLeaf {R : Set Record} (hT : Tracks owner G acc pfx R) {w : UInt64} {q : List Nib}
    (hx : .node ⟨w, q⟩ (.leaf l) ∈ R) (hst : w ≠ acc.newVersion → Stored G s (.node ⟨w, q⟩ (.leaf l))) :
    Yields (Around s) (takeLeaf C acc ⟨w, leafHash C l.path l.vh, true⟩ q) (.ok (acc.staleNode ⟨w, q⟩, l)) := by
  unfold takeLeaf CommitAcc.staleNode
  by_cases hv : w = acc.newVersion
  · simp only [hv, if_true]
    have := (hT.pend ⟨w, q⟩ (.leaf l) (hT.region _ hx) hv).2 hx
    rw [hv] at this
    rw [this]
    exact Yields.pure _
  · simp only [hv, if_false]
    exact (yields_loadNode (hst hv) rfl).bind (Yields.pure _)

/-- **The rebuild of a node with changed children**: it vanishes, a lone leaf rises, or it is written
again. -/
theorem rebuildNode_spec {v : UInt64} (hch : ∀ i, TreeOk C owner G s acc.newVersion (pfx ++ [i]) f (ch i))
    (hT : Tracks owner G acc pfx (insert (.node ⟨v, pfx⟩ n₀) (Tree.famRecs C pfx ch))) :
    ∃ acc' t', Yields (Around s) (rebuildNode C acc ⟨v, pfx⟩ (Tree.refs C ch)) (.ok (acc', Tree.ref C t')) ∧
      Step owner G acc acc' pfx (insert (.node ⟨v, pfx⟩ n₀) (Tree.famRecs C pfx ch)) (t'.recs C pfx) ∧
      t'.Holds f pfx ∧ t'.Mono ∧ ∀ w ∈ t'.ver, w = acc.newVersion := by
  have hhold : ∀ i, (ch i).Holds f (pfx ++ [i]) := fun i => (hch i).holds
  have h1 := step_staleNode hT ⟨v, pfx⟩ (n := n₀) (.inl rfl)
  rw [Set.insert_sdiff_self_of_notMem (node_notin_fam hhold v n₀)] at h1
  unfold rebuildNode
  cases ho : occupied (Tree.refs C ch) with
  | nil =>
    have hnil : ∀ i, ch i = .nil := by
      intro i
      by_contra hne
      obtain ⟨c, hc⟩ := Option.ne_none_iff_exists'.1 (mt Tree.ref_eq_none.1 hne : (ch i).ref C ≠ none)
      have := Tree.mem_occupied.2 (show Tree.refs C ch i = some c from hc)
      rw [ho] at this; simp at this
    have hfam : Tree.famRecs C pfx ch = ∅ := by
      ext x
      refine ⟨fun ⟨i, hi⟩ => ?_, fun hx => hx.elim⟩
      rw [hnil i] at hi; exact hi
    rw [hfam] at h1
    refine ⟨_, .nil, Yields.pure _, hfam ▸ h1, fun p hp => ?_, trivial, fun w hw => by cases hw⟩
    have := hhold (nibble p pfx.length)
    rw [hnil] at this
    exact this p hp.extend
  | cons e rest =>
    obtain ⟨i, c⟩ := e
    have hi : (ch i).ref C = some c :=
      Tree.mem_occupied.1 (show (i, c) ∈ occupied (Tree.refs C ch) by rw [ho]; exact List.mem_cons_self)
    simp only
    by_cases hk : rest = [] ∧ c.isLeaf = true
    · rw [if_pos hk]
      obtain ⟨rfl, hleaf⟩ := hk
      have hothers : ∀ j, j ≠ i → ch j = .nil := by
        intro j hj
        by_contra hne
        obtain ⟨d, hd⟩ := Option.ne_none_iff_exists'.1 (mt Tree.ref_eq_none.1 hne : (ch j).ref C ≠ none)
        have := Tree.mem_occupied.2 (show Tree.refs C ch j = some d from hd)
        rw [ho, List.mem_singleton] at this
        exact hj (Prod.mk.inj this).1
      have hoki := hch i
      cases ht : ch i with
      | nil => rw [ht] at hi; cases hi
      | node w ch' =>
        rw [ht] at hi
        cases hi; cases hleaf
      | leaf w l =>
        rw [ht] at hi hoki
        cases hi
        have hfam : Tree.famRecs C pfx ch = (Tree.leaf w l).recs C (pfx ++ [i]) := by
          ext x
          constructor
          · rintro ⟨j, hj⟩
            by_cases hji : j = i
            · subst hji; rwa [ht] at hj
            · rw [hothers j hji] at hj; exact hj.elim
          · intro hx; exact ⟨i, by rw [ht]; exact hx⟩
        rw [hfam] at h1
        have hx : .node ⟨w, pfx ++ [i]⟩ (.leaf l) ∈ (Tree.leaf w l).recs C (pfx ++ [i]) := .inl rfl
        have htake := yields_takeLeaf (C := C) (s := s) h1.tracks hx fun hw =>
          hoki.stored _ hx (by rw [← h1.version]; exact hw)
        have h2 := step_staleNode h1.tracks _ hx
        rw [recs_leaf_diff] at h2
        obtain ⟨hl, hfl, hno⟩ := hoki.holds
        have hver : l.valueVersion ≤ acc.newVersion := le_trans hoki.mono (hoki.ver_le w rfl)
        obtain ⟨acc', he, hput⟩ := putLeaf_spec (C := C) (l := l) h2.tracks
          ⟨fun x hx => ⟨l, by simp, hx⟩, fun q hq _ => by
              rw [List.mem_singleton.1 hq]; exact hoki.owned _ _ _ hl hfl,
            fun q hq => by rw [List.mem_singleton.1 hq, h2.version, h1.version]; exact hver,
            fun q hq _ => by rw [List.mem_singleton.1 hq]; rfl,
            fun q hq _ => .inl (by rw [List.mem_singleton.1 hq]; rfl)⟩ hl.of_snoc
        have hv2 : ((acc.staleNode ⟨v, pfx⟩).staleNode ⟨w, pfx ++ [i]⟩).newVersion = acc.newVersion :=
          h2.version.trans h1.version
        rw [hv2] at he hput
        refine ⟨acc', .leaf acc.newVersion l, ?_, ?_, ⟨hl.of_snoc, hfl, fun p hp hpl => ?_⟩, hver,
          fun w' hw' => by cases hw'; rfl⟩
        · refine htake.bind ?_
          rw [← he]
          exact yields_ofExcept _
        · rw [hfam]; exact (h1.trans h2).trans hput
        · by_cases hpi : nibble p pfx.length = i
          · exact hno p (under_snoc.2 ⟨hp, hpi⟩) hpl
          · have := hhold (nibble p pfx.length)
            rw [hothers _ hpi] at this
            exact this p hp.extend
    · rw [if_neg hk]
      have hkeeps : Tree.Keeps (Tree.refs C ch) := ⟨(i, c), rest, ho, hk⟩
      have hnew := h1.version
      have h2 := step_addNode h1.tracks (.internal (Tree.refs C ch)) (fun n' => by
        exact node_notin_fam hhold _ n')
      rw [hnew] at h2
      refine ⟨_, .node acc.newVersion ch, ?_, h1.trans h2, Tree.holds_node_of_children hhold hkeeps _,
        fun j => ⟨(hch j).mono, (hch j).ver_le⟩, fun w hw => by cases hw; rfl⟩
      rw [Tree.ref_node, ← hnew]
      exact Yields.pure _

end

/-- What applying updates to a subtree comes to: the call succeeds, the records move as `Step` says, the
tree becomes the canonical tree of the updated entries, it is new unless nothing changed, and it is the
same when the updates change no entry. -/
def Applies (C : Crypto) (owner : Hash → Hash) (G : Hash → Hash → Bytes → Prop) (s : Store MemBackend)
    (x : LedgerM MemBackend (CommitAcc × Option Child)) (acc : CommitAcc) (pfx : List Nib) (us : List Update)
    (f : Hash → Option (Hash × UInt64)) (t : Tree) : Prop :=
  ∃ acc' t', Yields (Around s) x (.ok (acc', Tree.ref C t')) ∧
    Step owner G acc acc' pfx (t.recs C pfx) (t'.recs C pfx) ∧
    TreeOk C owner G s acc.newVersion pfx (upd acc.newVersion us f) t' ∧
    (t' = t ∨ ∀ w ∈ t'.ver, w = acc.newVersion) ∧
    ((∀ p, Under pfx p → upd acc.newVersion us f p = f p) → t' = t)

theorem UpdatesOk.group {nib : Nib} {g : List Update}
    (hU : UpdatesOk owner G cts pfx us) (hg : (nib, g) ∈ nibbleGroups Update.path pfx.length us) :
    UpdatesOk owner G cts (pfx ++ [nib]) g where
  sorted := pairwise_of_mem_group hU.sorted hg
  under u hu := under_snoc.2 ⟨hU.under u (mem_of_mem_group hg hu), (nibble_of_mem_group hg).2 u hu⟩
  ready u hu := hU.ready u (mem_of_mem_group hg hu)

theorem TreeOk.congr {g : Hash → Option (Hash × UInt64)} {t : Tree}
    (h : TreeOk C owner G s nv pfx f t) (hfg : ∀ p, Under pfx p → f p = g p) : TreeOk C owner G s nv pfx g t where
  holds := h.holds.congr hfg
  mono := h.mono
  ver_le := h.ver_le
  owned p vh vv hp hg := h.owned p vh vv hp (by rw [hfg p hp]; exact hg)
  stored := h.stored

/-- The empty subtree: the inserts are built. -/
theorem applySubtree_nil_spec {fuel : ℕ} (hlen : pfx.length + fuel = 64)
    (hok : TreeOk C owner G s acc.newVersion pfx f .nil) (hT : Tracks owner G acc pfx (Tree.nil.recs C pfx))
    (hU : UpdatesOk owner G acc.insertCTs pfx us) :
    Applies C owner G s (applySubtree C fuel acc (Tree.nil.ref C) pfx us) acc pfx us f .nil := by
  cases us with
  | nil =>
    exact ⟨acc, .nil, by cases fuel <;> exact Yields.pure _, Step.refl hT, by rw [upd_nil]; exact hok, .inl rfl,
      fun _ => rfl⟩
  | cons u us =>
    set vs := u :: us with hvs
    have hins : ∀ l ∈ insertPairs acc.newVersion vs, l.valueVersion = acc.newVersion ∧ owner l.vh = l.path ∧
        Under pfx l.path ∧ ∃ ct, acc.insertCTs.get l.path = some ct ∧ G l.path l.vh ct := by
      intro l hl
      obtain ⟨h1, w, hw, h2, h3⟩ := mem_insertPairs.1 hl
      have := hU.ready w hw _ h3
      rw [h2] at this
      exact ⟨h1, this.1, h2 ▸ hU.under w hw, this.2⟩
    obtain ⟨acc', t', he, hstep, hH, hM, hver⟩ := buildFromPairs_spec (C := C) fuel acc pfx
      (insertPairs acc.newVersion vs) _ hlen hT
      ⟨fun x hx => hx.elim, fun l hl _ => (hins l hl).2.1, fun l hl => (hins l hl).1.le,
        fun l hl hne => absurd (hins l hl).1 hne, fun l hl _ => .inr (hins l hl).2.2.2⟩
      (insertPairs_sorted hU.sorted) (fun l hl => (hins l hl).2.2.1)
    have hHu : t'.Holds (upd acc.newVersion vs f) pfx :=
      hH.congr fun p hp => leafMap_insertPairs hU.sorted (hok.holds p hp)
    refine ⟨acc', t', ?_, hstep, ⟨hHu, hM, fun w hw => (hver w hw).le, hU.owned_upd _ hok.owned,
      hstep.stored hok.stored⟩, .inr hver, fun hnoop => hHu.eq_nil fun p hp => ?_⟩
    · rw [← he]
      cases fuel <;> exact yields_ofExcept _
    · rw [hnoop p hp]; exact hok.holds p hp

/-- A leaf: it is resolved and merged with the updates. -/
theorem applySubtree_leaf_spec {fuel : ℕ} {v : UInt64}
    (hlen : pfx.length + fuel = 64) (hok : TreeOk C owner G s acc.newVersion pfx f (.leaf v l))
    (hT : Tracks owner G acc pfx ((Tree.leaf v l).recs C pfx)) (hU : UpdatesOk owner G acc.insertCTs pfx us) :
    Applies C owner G s (applySubtree C fuel acc ((Tree.leaf v l).ref C) pfx us) acc pfx us f (.leaf v l) := by
  cases us with
  | nil =>
    exact ⟨acc, .leaf v l, by cases fuel <;> exact Yields.pure _, Step.refl hT, by rw [upd_nil]; exact hok, .inl rfl,
      fun _ => rfl⟩
  | cons u us =>
    obtain ⟨acc', t', he, hstep, hH, hM, hnew, hsame⟩ := applyLeaf_spec hlen hok hT hU
    have hres : Yields (Around s) (resolveNode C acc ⟨v, pfx⟩ (leafHash C l.path l.vh)) (.ok (.leaf l)) :=
      yields_resolveNode hT (.inl rfl) (fun hv => hok.stored _ (.inl rfl) hv) rfl
    refine ⟨acc', t', ?_, hstep, ⟨hH, hM, ?_, hU.owned_upd _ hok.owned, hstep.stored hok.stored⟩, hnew, hsame⟩
    · rw [Tree.ref, applySubtree]
      refine hres.bind ?_
      simp only [Node.isLeaf, ne_eq, not_true_eq_false, if_false]
      rw [he]
      exact yields_ofExcept _
    · rcases hnew with rfl | h
      · exact hok.ver_le
      · exact fun w hw => (h w hw).le

/-- **The group loop of an update.** -/
theorem applyGroups_spec (sub : CommitAcc → Option Child → Nib → List Update → LedgerM MemBackend (CommitAcc × Option Child))
    (v : UInt64) (n₀ : Node)
    (hsub : ∀ (acc : CommitAcc) (t : Tree) (i : Nib) (g : List Update) (f : Hash → Option (Hash × UInt64)),
      acc.newVersion = nv → acc.insertCTs = cts → TreeOk C owner G s nv (pfx ++ [i]) f t →
      Tracks owner G acc (pfx ++ [i]) (t.recs C (pfx ++ [i])) → UpdatesOk owner G cts (pfx ++ [i]) g →
      Applies C owner G s (sub acc (Tree.ref C t) i g) acc (pfx ++ [i]) g f t) :
    ∀ (gs : List (Nib × List Update)) (acc : CommitAcc) (ch : Nib → Tree) (changed : Bool)
      (f : Hash → Option (Hash × UInt64)), acc.newVersion = nv → acc.insertCTs = cts →
    (∀ e ∈ gs, UpdatesOk owner G cts (pfx ++ [e.1]) e.2) →
    (gs.flatMap Prod.snd).Pairwise (fun a b => a.path < b.path) →
    (∀ i, TreeOk C owner G s nv (pfx ++ [i]) f (ch i)) →
    Tracks owner G acc pfx (insert (.node ⟨v, pfx⟩ n₀) (Tree.famRecs C pfx ch)) →
    ∃ acc' ch' changed', Yields (Around s) (applyGroups sub gs acc (Tree.refs C ch) changed)
        (.ok (acc', Tree.refs C ch', changed')) ∧
      Step owner G acc acc' pfx (insert (.node ⟨v, pfx⟩ n₀) (Tree.famRecs C pfx ch))
        (insert (.node ⟨v, pfx⟩ n₀) (Tree.famRecs C pfx ch')) ∧
      (∀ i, TreeOk C owner G s nv (pfx ++ [i]) (upd nv (gs.flatMap Prod.snd) f) (ch' i)) ∧
      (∀ i, ch' i = ch i ∨ ∀ w ∈ (ch' i).ver, w = nv) ∧
      (changed' = false → changed = false ∧ Tree.refs C ch' = Tree.refs C ch) ∧
      ((∀ e ∈ gs, ∀ p, Under (pfx ++ [e.1]) p → upd nv e.2 f p = f p) → ch' = ch ∧ changed' = changed) := by
  intro gs
  induction gs with
  | nil =>
    intro acc ch changed f _ _ _ _ hch hT
    exact ⟨acc, ch, changed, Yields.pure _, Step.refl hT, by simpa [upd_nil] using hch, fun _ => .inl rfl,
      fun h => ⟨h, rfl⟩, fun _ => ⟨rfl, rfl⟩⟩
  | cons e gs ih =>
    obtain ⟨nib, g⟩ := e
    intro acc ch changed f hnv hcts hU hsorted hch hT
    have hhold : ∀ i, (ch i).Holds f (pfx ++ [i]) := fun i => (hch i).holds
    rw [List.flatMap_cons] at hsorted
    obtain ⟨-, hs2, hcross⟩ := List.pairwise_append.1 hsorted
    have hUg := hU (nib, g) List.mem_cons_self
    have hTc := hT.slice nib
    rw [slice_fam hhold] at hTc
    obtain ⟨acc₁, t, hy, hstep, hok, hnew, hnoop⟩ := hsub acc (ch nib) nib g f hnv hcts (hch nib) hTc hUg
    rw [hnv] at hok hnew hnoop
    rw [← slice_fam (C := C) hhold v n₀] at hstep
    have hstep' := hstep.splice hT
    rw [splice_fam hhold] at hstep'
    -- the other children see the same entries
    have hch₁ : ∀ i, TreeOk C owner G s nv (pfx ++ [i]) (upd nv g f) (Function.update ch nib t i) := by
      intro i
      by_cases hi : i = nib
      · subst hi; rw [Function.update_self]; exact hok
      · rw [Function.update_of_ne hi]
        refine (hch i).congr fun p hp => (upd_of_notin fun u hu hup => hi ?_).symm
        exact under_ne hp (hup ▸ hUg.under u hu)
    have hrefs : (if t.ref C = Tree.refs C ch nib then Tree.refs C ch
        else Function.update (Tree.refs C ch) nib (t.ref C)) = Tree.refs C (Function.update ch nib t) := by
      rw [Tree.refs_update]
      split
      · rename_i he; rw [he, Function.update_eq_self]
      · rfl
    obtain ⟨acc', ch', changed', hy', hstep₂, hch', hnew', hsame, hnoop'⟩ := ih acc₁ (Function.update ch nib t)
      (if t.ref C = Tree.refs C ch nib then changed else true) (upd nv g f) (hstep.version.trans hnv)
      (hstep.cts.trans hcts) (fun e he => hU e (List.mem_cons_of_mem _ he)) hs2 hch₁ hstep'.tracks
    refine ⟨acc', ch', changed', ?_, hstep'.trans hstep₂, ?_, fun i => ?_, fun hc => ?_, fun hn => ?_⟩
    · unfold applyGroups
      refine hy.bind ?_
      simp only
      rw [← hrefs] at hy'
      split
      · rename_i he; rw [if_pos he, if_pos he] at hy'; exact hy'
      · rename_i he; rw [if_neg he, if_neg he] at hy'; exact hy'
    · rw [List.flatMap_cons, upd_append fun u hu w hw => (hcross u hu w hw).ne]
      exact hch'
    · rcases hnew' i with h | h
      · rw [h]
        by_cases hi : i = nib
        · subst hi
          rw [Function.update_self]
          exact hnew
        · rw [Function.update_of_ne hi]; exact .inl rfl
      · exact .inr h
    · obtain ⟨h1, h2⟩ := hsame hc
      rw [← hrefs] at h2
      by_cases he : t.ref C = Tree.refs C ch nib
      · rw [if_pos he] at h1 h2; exact ⟨h1, h2⟩
      · rw [if_neg he] at h1; cases h1
    · -- the group at hand changes no entry anywhere, so the others start from the same entries
      have hg := hn (nib, g) List.mem_cons_self
      have hf : upd nv g f = f := by
        funext p
        by_cases hp : ∃ u ∈ g, u.path = p
        · obtain ⟨u, hu, rfl⟩ := hp
          exact hg _ (hUg.under u hu)
        · exact upd_of_notin fun u hu he => hp ⟨u, hu, he⟩
      have ht : t = ch nib := hnoop hg
      have href : (if t.ref C = Tree.refs C ch nib then changed else true) = changed := if_pos (by rw [ht]; rfl)
      rw [hf, href, ht, Function.update_eq_self] at hnoop'
      exact hnoop' fun e he => hn e (List.mem_cons_of_mem _ he)

/-- A group makes the changes of the whole list at its own paths. -/
theorem findVh_group {nib : Nib} {g : List Update} (hs : us.Pairwise fun a b => a.path < b.path)
    (hu : ∀ u ∈ us, Under pfx u.path) (hlen : pfx.length < 64)
    (hg : (nib, g) ∈ nibbleGroups Update.path pfx.length us) {p : Hash} (hp : nibble p pfx.length = nib) :
    findVh g p = findVh us p := by
  by_cases hm : ∃ u ∈ us, u.path = p
  · obtain ⟨u, hum, rfl⟩ := hm
    have hug := mem_group (nibbleGroups_pairwise (nibble_sorted hs hu hlen)) hg hum hp
    rw [findVh_of_mem hs hum, findVh_of_mem (pairwise_of_mem_group hs hg) hug]
  · rw [findVh_eq_none.2 fun u hum he => hm ⟨u, hum, he⟩,
      findVh_eq_none.2 fun u hug he => hm ⟨u, mem_of_mem_group hg hug, he⟩]

/-- **Updates apply.** On a canonical tree whose older records are stored and whose new ones are
pending, `applySubtree` succeeds and leaves the canonical tree of the updated entries. -/
theorem applySubtree_spec : ∀ (fuel : ℕ) (acc : CommitAcc) (t : Tree) (pfx : List Nib) (us : List Update)
    (f : Hash → Option (Hash × UInt64)), pfx.length + fuel = 64 → TreeOk C owner G s acc.newVersion pfx f t →
    Tracks owner G acc pfx (t.recs C pfx) → UpdatesOk owner G acc.insertCTs pfx us →
    Applies C owner G s (applySubtree C fuel acc (t.ref C) pfx us) acc pfx us f t := by
  intro fuel
  induction fuel with
  | zero =>
    intro acc t pfx us f hlen hok hT hU
    cases t with
    | nil => exact applySubtree_nil_spec hlen hok hT hU
    | leaf v l => exact applySubtree_leaf_spec hlen hok hT hU
    | node v ch => have := hok.holds.depth_lt; omega
  | succ fuel ih =>
    intro acc t pfx us f hlen hok hT hU
    cases t with
    | nil => exact applySubtree_nil_spec hlen hok hT hU
    | leaf v l => exact applySubtree_leaf_spec hlen hok hT hU
    | node v ch =>
      cases us with
      | nil => exact ⟨acc, _, Yields.pure _, Step.refl hT, by rw [upd_nil]; exact hok, .inl rfl, fun _ => rfl⟩
      | cons u us =>
        set vs := u :: us with hvs
        have hchild : ∀ i, TreeOk C owner G s acc.newVersion (pfx ++ [i]) f (ch i) := fun i =>
          ⟨hok.holds.2 i, (hok.mono i).1, fun w hw => le_trans ((hok.mono i).2 w hw) (hok.ver_le v rfl),
            fun p vh vv hp => hok.owned p vh vv hp.of_snoc, fun x hx => hok.stored x (.inr ⟨i, hx⟩)⟩
        have hflat := flatMap_nibbleGroups Update.path pfx.length vs
        obtain ⟨acc₁, ch', changed, hy, hstep, hch', hnew, hsame, hnoop⟩ := applyGroups_spec (C := C) (s := s)
          (fun acc c nib g => applySubtree C fuel acc c (pfx ++ [nib]) g) v (.internal (Tree.refs C ch))
          (fun acc' t i g f' hnv hcts hok' hT' hU' =>
            ih acc' t (pfx ++ [i]) g f' (by simp; omega) (hnv ▸ hok') hT' (hcts ▸ hU'))
          (nibbleGroups Update.path pfx.length vs) acc ch false f rfl rfl
          (fun e he => hU.group he) (by rw [hflat]; exact hU.sorted) hchild hT
        rw [hflat] at hch'
        have hdepth := hok.holds.depth_lt
        have hgroups : (∀ p, Under pfx p → upd acc.newVersion vs f p = f p) →
            ∀ e ∈ nibbleGroups Update.path pfx.length vs, ∀ p, Under (pfx ++ [e.1]) p →
              upd acc.newVersion e.2 f p = f p := by
          intro hn e he p hp
          obtain ⟨hp1, hp2⟩ := under_snoc.1 hp
          rw [← hn p hp1]
          unfold upd
          rw [findVh_group hU.sorted hU.under hdepth he hp2]
        have hhold : ∀ i, (ch' i).Holds (upd acc.newVersion vs f) (pfx ++ [i]) := fun i => (hch' i).holds
        have howned := hU.owned_upd acc.newVersion hok.owned
        have hres : Yields (Around s) (resolveNode C acc ⟨v, pfx⟩ (Node.hash C (.internal (Tree.refs C ch))))
            (.ok (.internal (Tree.refs C ch))) :=
          yields_resolveNode hT (.inl rfl) (fun hv => hok.stored _ (.inl rfl) hv) rfl
        -- the descent down to the rebuild or the unchanged return
        have hrun : ∀ {r}, Yields (Around s) (if changed then rebuildNode C acc₁ ⟨v, pfx⟩ (Tree.refs C ch')
            else pure (acc₁, (Tree.node v ch).ref C)) r →
            Yields (Around s) (applySubtree C (fuel + 1) acc ((Tree.node v ch).ref C) pfx vs) r := by
          intro r hr
          rw [hvs, Tree.ref_node, applySubtree, ← hvs]
          refine hres.bind ?_
          simp only [Node.isLeaf, ne_eq, not_true_eq_false, if_false]
          exact hy.bind hr
        cases changed with
        | true =>
          have hch₁ : ∀ i, TreeOk C owner G s acc₁.newVersion (pfx ++ [i]) (upd acc.newVersion vs f) (ch' i) := by
            rw [hstep.version]; exact hch'
          obtain ⟨acc', t', hy', hstep', hH, hM, hver⟩ := rebuildNode_spec hch₁ hstep.tracks
          rw [hstep.version] at hver
          have hall := hstep.trans hstep'
          exact ⟨acc', t', hrun hy', hall, ⟨hH, hM, fun w hw => (hver w hw).le, howned, hall.stored hok.stored⟩,
            .inr hver, fun hn => by cases (hnoop (hgroups hn)).2⟩
        | false =>
          obtain ⟨-, hrefs⟩ := hsame rfl
          -- below an older node nothing changed; below a new one the references did not
          have hdown : v ≠ acc.newVersion → ch' = ch := by
            intro hv
            funext i
            rcases hnew i with h | h
            · exact h
            · have href : (ch' i).ref C = (ch i).ref C := congrFun hrefs i
              cases hr : (ch i).ref C with
              | none => rw [hr] at href; rw [Tree.ref_eq_none.1 href, Tree.ref_eq_none.1 hr]
              | some c =>
                rw [hr] at href
                have hc := h c.version (by rw [Tree.ref_version href]; rfl)
                have hle := (hok.mono i).2 c.version (by rw [Tree.ref_version hr]; rfl)
                exact absurd (le_antisymm (hok.ver_le v rfl) (hc ▸ hle)) hv
          have hkeeps : Tree.Keeps (Tree.refs C ch') := by rw [hrefs]; exact hok.holds.keeps
          have hrecs : insert (.node ⟨v, pfx⟩ (.internal (Tree.refs C ch))) (Tree.famRecs C pfx ch') =
              (Tree.node v ch').recs C pfx := by rw [Tree.recs_node, hrefs]
          rw [hrecs] at hstep
          refine ⟨acc₁, .node v ch', ?_, hstep, ⟨Tree.holds_node_of_children hhold hkeeps v, fun i => ⟨(hch' i).mono, ?_⟩,
            fun w hw => hok.ver_le w hw, howned, hstep.stored hok.stored⟩, ?_, fun hn => by rw [(hnoop (hgroups hn)).1]⟩
          · refine hrun ?_
            rw [Tree.ref_node, Tree.ref_node, hrefs]
            exact Yields.pure _
          · by_cases hv : v = acc.newVersion
            · rw [hv]; exact (hch' i).ver_le
            · rw [hdown hv]; exact (hok.mono i).2
          · by_cases hv : v = acc.newVersion
            · right; intro w hw; cases hw; exact hv
            · left; rw [hdown hv]

end ImmutableLedger
