import ImmutableLedger.Tree.Delta

/-!
# Building a subtree from sorted leaves

`buildFromPairs` always succeeds on sorted leaves whose values are at hand, and builds the canonical
tree of the leaves (`buildFromPairs_spec`).
-/

namespace ImmutableLedger

/-! ## Nibble groups -/

variable {pfx : List Nib} {nib : Nib}

section
variable {α : Type} {path : α → Hash} {d : ℕ}

variable (path d) in
theorem flatMap_nibbleGroups (l : List α) : (nibbleGroups path d l).flatMap Prod.snd = l := by
  induction l with
  | nil => rfl
  | cons x xs ih =>
    unfold nibbleGroups
    cases h : nibbleGroups path d xs with
    | nil => rw [h] at ih; simp at ih; simp [← ih]
    | cons e gs =>
      obtain ⟨nib, g⟩ := e
      rw [h] at ih
      simp only
      split
      · simp only [List.flatMap_cons, List.cons_append] at ih ⊢; rw [ih]
      · simp only [List.flatMap_cons, List.cons_append, List.nil_append] at ih ⊢; rw [ih]

variable {l : List α}

theorem nibble_of_mem_group {g : List α} (h : (nib, g) ∈ nibbleGroups path d l) :
    g ≠ [] ∧ ∀ x ∈ g, nibble (path x) d = nib := by
  induction l generalizing nib g with
  | nil => simp [nibbleGroups] at h
  | cons x xs ih =>
    unfold nibbleGroups at h
    cases hg : nibbleGroups path d xs with
    | nil =>
      rw [hg] at h
      simp only [List.mem_singleton, Prod.mk.injEq] at h
      obtain ⟨rfl, rfl⟩ := h
      simp
    | cons e gs =>
      obtain ⟨nib', g'⟩ := e
      rw [hg] at h ih
      simp only at h
      split at h
      · rename_i hx
        rcases List.mem_cons.1 h with h | h
        · cases h
          refine ⟨by simp, fun y hy => ?_⟩
          rcases List.mem_cons.1 hy with rfl | hy
          · exact hx
          · exact (ih List.mem_cons_self).2 y hy
        · exact ih (List.mem_cons_of_mem _ h)
      · rcases List.mem_cons.1 h with h | h
        · cases h; simp
        · exact ih h

theorem mem_of_mem_group {g : List α} (h : (nib, g) ∈ nibbleGroups path d l)
    {x : α} (hx : x ∈ g) : x ∈ l := by
  rw [← flatMap_nibbleGroups path d l]
  exact List.mem_flatMap.2 ⟨_, h, hx⟩

variable (path d) in
theorem exists_group {x : α} (hx : x ∈ l) :
    ∃ g, (nibble (path x) d, g) ∈ nibbleGroups path d l ∧ x ∈ g := by
  rw [← flatMap_nibbleGroups path d l] at hx
  obtain ⟨⟨nib, g⟩, hg, hxg⟩ := List.mem_flatMap.1 hx
  rw [(nibble_of_mem_group hg).2 x hxg]
  exact ⟨g, hg, hxg⟩

/-- Groups inherit what pairwise holds in the list. -/
theorem pairwise_of_mem_group {r : α → α → Prop} (hl : l.Pairwise r) {g : List α}
    (h : (nib, g) ∈ nibbleGroups path d l) : g.Pairwise r := by
  rw [← flatMap_nibbleGroups path d l, List.pairwise_flatMap] at hl
  exact hl.1 _ h

/-- In a list sorted by the nibble, the groups are in strictly ascending order. -/
theorem nibbleGroups_pairwise (hl : l.Pairwise fun a b => nibble (path a) d ≤ nibble (path b) d) :
    (nibbleGroups path d l).Pairwise fun a b => a.1 < b.1 := by
  induction l with
  | nil => exact List.Pairwise.nil
  | cons x xs ih =>
    rw [List.pairwise_cons] at hl
    have ih := ih hl.2
    unfold nibbleGroups
    cases hg : nibbleGroups path d xs with
    | nil => simp
    | cons e gs =>
      obtain ⟨nib, g⟩ := e
      rw [hg, List.pairwise_cons] at ih
      simp only
      split
      · exact List.pairwise_cons.2 ⟨ih.1, ih.2⟩
      · rename_i hne
        have hmem : (nib, g) ∈ nibbleGroups path d xs := by rw [hg]; exact List.mem_cons_self
        obtain ⟨hgne, hgn⟩ := nibble_of_mem_group hmem
        obtain ⟨y, hy⟩ := List.exists_mem_of_ne_nil g hgne
        have hle := hl.1 y (mem_of_mem_group hmem hy)
        rw [hgn y hy] at hle
        have hlt := lt_of_le_of_ne hle hne
        refine List.pairwise_cons.2 ⟨fun b hb => ?_, List.pairwise_cons.2 ih⟩
        rcases List.mem_cons.1 hb with rfl | hb
        · exact hlt
        · exact hlt.trans (ih.1 b hb)

theorem group_unique {gs : List (Nib × List α)} (hp : gs.Pairwise fun a b => a.1 < b.1)
    {g g' : List α} (h : (nib, g) ∈ gs) (h' : (nib, g') ∈ gs) : g = g' := by
  induction gs with
  | nil => simp at h
  | cons e gs ih =>
    rw [List.pairwise_cons] at hp
    rcases List.mem_cons.1 h with h1 | h1 <;> rcases List.mem_cons.1 h' with h2 | h2
    · exact (Prod.mk.inj (h1.trans h2.symm)).2
    · rw [← h1] at hp; exact absurd (hp.1 _ h2) (lt_irrefl _)
    · rw [← h2] at hp; exact absurd (hp.1 _ h1) (lt_irrefl _)
    · exact ih hp.2 h1 h2

/-- In ascending groups, an element is in the group of its nibble. -/
theorem mem_group (hp : (nibbleGroups path d l).Pairwise fun a b => a.1 < b.1)
    {g : List α} (h : (nib, g) ∈ nibbleGroups path d l) {x : α} (hx : x ∈ l) (hn : nibble (path x) d = nib) :
    x ∈ g := by
  obtain ⟨g', hg', hxg⟩ := exists_group path d hx
  rw [hn] at hg'
  rwa [group_unique hp h hg']

theorem nibble_sorted (hl : l.Pairwise fun a b => path a < path b)
    (hu : ∀ x ∈ l, Under pfx (path x)) (hlen : pfx.length < 64) :
    l.Pairwise fun a b => nibble (path a) pfx.length ≤ nibble (path b) pfx.length := by
  refine hl.imp_of_mem fun {a b} ha hb hab => ?_
  exact nibble_le_of_lt hab hlen fun i hi => (hu a ha).nibble_eq (hu b hb) hi

end

/-! ## The entries of a list of leaves -/

/-- What a list of leaves says about a path. -/
def leafMap (ps : List LeafNode) (p : Hash) : Option (Hash × UInt64) :=
  (ps.find? fun l => l.path = p).map fun l => (l.vh, l.valueVersion)

variable {ps : List LeafNode}

theorem leafMap_eq_some (hs : ps.Pairwise fun a b => a.path < b.path) {p vh : Hash}
    {vv : UInt64} : leafMap ps p = some (vh, vv) ↔ ⟨p, vh, vv⟩ ∈ ps := by
  induction ps with
  | nil => simp [leafMap]
  | cons l ps ih =>
    rw [List.pairwise_cons] at hs
    have ih := ih hs.2
    unfold leafMap at *
    by_cases hl : l.path = p
    · subst hl
      simp only [List.find?_cons_of_pos, Option.map_some, Option.some.injEq, Prod.mk.injEq, List.mem_cons, decide_true]
      constructor
      · rintro ⟨rfl, rfl⟩; exact .inl rfl
      · rintro (h | h)
        · rw [← h]; exact ⟨rfl, rfl⟩
        · exact absurd (hs.1 _ h) (lt_irrefl _)
    · rw [List.find?_cons_of_neg (by simpa using hl), ih, List.mem_cons]
      exact ⟨.inr, fun h => h.resolve_left fun he => hl (by rw [← he])⟩

theorem leafMap_eq_none {p : Hash} : leafMap ps p = none ↔ ∀ l ∈ ps, l.path ≠ p := by
  simp [leafMap]

theorem leafMap_isSome {l : LeafNode} (hl : l ∈ ps) : (leafMap ps l.path).isSome := by
  rw [← Option.ne_none_iff_isSome]
  exact fun h => leafMap_eq_none.1 h l hl rfl

/-- Lists with the same leaves at a path say the same about it. -/
theorem leafMap_congr {ps qs : List LeafNode} (hp : ps.Pairwise fun a b => a.path < b.path)
    (hq : qs.Pairwise fun a b => a.path < b.path) {p : Hash} (h : ∀ l, l.path = p → (l ∈ ps ↔ l ∈ qs)) :
    leafMap ps p = leafMap qs p := by
  apply Option.ext
  rintro ⟨vh, vv⟩
  rw [leafMap_eq_some hp, leafMap_eq_some hq]
  exact h _ rfl

/-! ## Building -/

variable {C : Crypto} {owner : Hash → Hash} {G : Hash → Hash → Bytes → Prop}

/-- The leaves `ps` can be placed: `R` holds value records of theirs, all the older ones among them, and
the stored form of a new value is at hand. -/
structure Ready (owner : Hash → Hash) (G : Hash → Hash → Bytes → Prop) (acc : CommitAcc) (ps : List LeafNode)
    (R : Set Record) : Prop where
  kept : ∀ x ∈ R, ∃ l ∈ ps, x = .value l.path l.vh l.valueVersion
  owned : ∀ l ∈ ps, l.valueVersion = acc.newVersion → owner l.vh = l.path
  le : ∀ l ∈ ps, l.valueVersion ≤ acc.newVersion
  old : ∀ l ∈ ps, l.valueVersion ≠ acc.newVersion → .value l.path l.vh l.valueVersion ∈ R
  fresh : ∀ l ∈ ps, l.valueVersion = acc.newVersion →
    .value l.path l.vh l.valueVersion ∈ R ∨ ∃ ct, acc.insertCTs.get l.path = some ct ∧ G l.path l.vh ct

variable {R : Set Record} {acc : CommitAcc}

theorem step_addValue (h : Tracks owner G acc pfx R)
    {l : LeafNode} {ct : Bytes} (hu : Under pfx l.path) (ho : owner l.vh = l.path)
    (hv : l.valueVersion = acc.newVersion) (hg : G l.path l.vh ct) :
    Step owner G acc { acc with values := acc.values.insert l.vh ct } pfx R
      (insert (.value l.path l.vh l.valueVersion) R) where
  tracks := {
    region := by
      rintro x (rfl | hx)
      · exact hu
      · exact h.region x hx
    pend := by
      intro nk n hp hnv
      rw [h.pend nk n hp hnv]
      exact ⟨.inr, fun hx => hx.resolve_left fun he => by cases he⟩
    val_in := by
      intro vh hx
      simp only [OrdMap.get_insert]
      by_cases hvh : vh = l.vh
      · subst hvh; rw [if_pos rfl, ho]; exact ⟨ct, rfl, hg⟩
      · rw [if_neg hvh]
        exact h.val_in vh (hx.resolve_left fun he => hvh (Record.value.inj he).2.1)
    val_out := by
      intro vh hu' hx
      have hvh : vh ≠ l.vh := by
        rintro rfl; exact hx (.inl (by rw [ho, hv]))
      simp only [OrdMap.get_insert, if_neg hvh]
      exact h.val_out vh hu' fun hm => hx (.inr hm) }
  version := rfl
  cts := rfl
  head := rfl
  pend _ _ := rfl
  vals vh hn := by
    have hvh : vh ≠ l.vh := by
      rintro rfl; exact hn (ho ▸ hu)
    simp only [OrdMap.get_insert, if_neg hvh]
  stale := ⟨[], by simp, by simp, fun x => by
    simp only [List.not_mem_nil, false_iff, not_and, not_not]
    intro hx _; exact .inr hx⟩
  old := by
    rintro x (rfl | hx) hxv
    · exact absurd hv hxv
    · exact hx

/-- **A leaf is placed**, with its value record. -/
theorem putLeaf_spec {l : LeafNode}
    (h : Tracks owner G acc pfx R) (hr : Ready owner G acc [l] R) (hu : Under pfx l.path) :
    ∃ acc', putLeaf C acc pfx l = .ok (acc', (Tree.leaf acc.newVersion l).ref C) ∧
      Step owner G acc acc' pfx R ((Tree.leaf acc.newVersion l).recs C pfx) := by
  have hR : .value l.path l.vh l.valueVersion ∈ R → R = {.value l.path l.vh l.valueVersion} := by
    intro hm
    ext x
    refine ⟨fun hx => ?_, fun hx => hx ▸ hm⟩
    obtain ⟨l', hl', rfl⟩ := hr.kept x hx
    rw [List.mem_singleton.1 hl']; rfl
  -- the leaf node goes on top of its value record
  have hnode : ∀ acc₁, Step owner G acc acc₁ pfx R {.value l.path l.vh l.valueVersion} →
      Step owner G acc (acc₁.addNode pfx (.leaf l)) pfx R ((Tree.leaf acc.newVersion l).recs C pfx) := by
    intro acc₁ h₁
    have h₂ := step_addNode h₁.tracks (.leaf l) (fun n' hn => by cases hn)
    rw [h₁.version] at h₂
    exact h₁.trans h₂
  unfold putLeaf
  by_cases hv : l.valueVersion = acc.newVersion
  · rw [if_pos hv]
    have ho := hr.owned l (by simp) hv
    rcases hr.fresh l (by simp) hv with hm | ⟨ct, hct, hg⟩
    · obtain ⟨ct, hget, -⟩ := h.val_in l.vh (by rw [ho, ← hv]; exact hm)
      rw [hget]
      refine ⟨_, rfl, hnode acc ?_⟩
      rw [← hR hm]
      exact Step.refl h
    · by_cases hm : .value l.path l.vh l.valueVersion ∈ R
      · obtain ⟨ct, hget, -⟩ := h.val_in l.vh (by rw [ho, ← hv]; exact hm)
        rw [hget]
        refine ⟨_, rfl, hnode acc ?_⟩
        rw [← hR hm]
        exact Step.refl h
      · have hget := h.val_out l.vh (by rw [ho]; exact hu) (by rw [ho, ← hv]; exact hm)
        rw [hget, hct]
        refine ⟨_, rfl, hnode { acc with values := acc.values.insert l.vh ct } ?_⟩
        have h₁ := step_addValue h hu ho hv hg
        have hempty : R = ∅ := by
          ext x
          refine ⟨fun hx => hm ?_, fun hx => hx.elim⟩
          obtain ⟨l', hl', rfl⟩ := hr.kept x hx
          rw [List.mem_singleton.1 hl'] at hx; exact hx
        rw [hempty] at h₁ ⊢
        simpa using h₁
  · rw [if_neg hv]
    refine ⟨_, rfl, hnode acc ?_⟩
    rw [← hR (hr.old l (by simp) hv)]
    exact Step.refl h

namespace Tree

theorem refs_update (ch : Nib → Tree) (i : Nib) (t : Tree) :
    refs C (Function.update ch i t) = Function.update (refs C ch) i (t.ref C) := by
  funext j
  by_cases h : j = i
  · subst h; simp [refs]
  · simp [refs, h]

end Tree

theorem Ready.slice {acc acc' : CommitAcc} {ps g : List LeafNode}
    (hr : Ready owner G acc ps R) (hu : ∀ l ∈ ps, Under pfx l.path)
    (hg : (nib, g) ∈ nibbleGroups LeafNode.path pfx.length ps)
    (hnib : (nibbleGroups LeafNode.path pfx.length ps).Pairwise fun a b => a.1 < b.1)
    (hv : acc'.newVersion = acc.newVersion) (hc : acc'.insertCTs = acc.insertCTs) :
    Ready owner G acc' g (slice pfx R nib) := by
  have hsub : ∀ l ∈ g, l ∈ ps := fun l hl => mem_of_mem_group hg hl
  have hin : ∀ l ∈ g, Under (pfx ++ [nib]) l.path := fun l hl =>
    under_snoc.2 ⟨hu l (hsub l hl), (nibble_of_mem_group hg).2 l hl⟩
  refine ⟨fun x hx => ?_, fun l hl he => hr.owned l (hsub l hl) (he.trans hv),
    fun l hl => by rw [hv]; exact hr.le l (hsub l hl),
    fun l hl hne => ⟨hr.old l (hsub l hl) (by rwa [hv] at hne), hin l hl⟩, fun l hl he => ?_⟩
  · obtain ⟨l, hl, rfl⟩ := hr.kept x hx.1
    exact ⟨l, mem_group hnib hg hl (under_snoc.1 hx.2).2, rfl⟩
  · rcases hr.fresh l (hsub l hl) (by rwa [hv] at he) with h | h
    · exact .inl ⟨h, hin l hl⟩
    · exact .inr (by rw [hc]; exact h)

/-- **The group loop of a build**, when each remaining group's subtree can be built. -/
theorem buildGroups_spec (sub : CommitAcc → Nib → List LeafNode → Except Err (CommitAcc × Option Child))
    {nv : UInt64} {cts : OrdMap Hash Bytes} (R₀ : Set Record) :
    ∀ (gs : List (Nib × List LeafNode)) (acc : CommitAcc) (ch : Nib → Tree) (R : Set Record),
    (∀ nib g, (nib, g) ∈ gs → ∀ acc : CommitAcc, acc.newVersion = nv → acc.insertCTs = cts →
      Tracks owner G acc (pfx ++ [nib]) (slice pfx R₀ nib) →
      ∃ acc' t, sub acc nib g = .ok (acc', Tree.ref C t) ∧
        Step owner G acc acc' (pfx ++ [nib]) (slice pfx R₀ nib) (t.recs C (pfx ++ [nib])) ∧
        t.Holds (leafMap g) (pfx ++ [nib]) ∧ t.Mono ∧ ∀ w ∈ t.ver, w = nv) →
    gs.Pairwise (fun a b => a.1 < b.1) → acc.newVersion = nv → acc.insertCTs = cts → Tracks owner G acc pfx R →
    (∀ e ∈ gs, slice pfx R e.1 = slice pfx R₀ e.1) →
    (∀ j, j ∉ gs.map Prod.fst → slice pfx R j = (ch j).recs C (pfx ++ [j])) →
    (∀ x ∈ R, ∃ j, x.In (pfx ++ [j])) →
    ∃ acc' ch', buildGroups sub gs acc (Tree.refs C ch) = .ok (acc', Tree.refs C ch') ∧
      Step owner G acc acc' pfx R (Tree.famRecs C pfx ch') ∧
      (∀ j, j ∉ gs.map Prod.fst → ch' j = ch j) ∧
      ∀ nib g, (nib, g) ∈ gs → (ch' nib).Holds (leafMap g) (pfx ++ [nib]) ∧ (ch' nib).Mono ∧
        ∀ w ∈ (ch' nib).ver, w = nv := by
  intro gs
  induction gs with
  | nil =>
    intro acc ch R _ _ _ _ hT _ hcov hin
    have hR : R = Tree.famRecs C pfx ch := by
      ext x
      constructor
      · intro hx
        obtain ⟨j, hj⟩ := hin x hx
        have : x ∈ slice pfx R j := ⟨hx, hj⟩
        rw [hcov j (by simp)] at this
        exact ⟨j, this⟩
      · rintro ⟨j, hj⟩
        rw [← hcov j (by simp)] at hj
        exact hj.1
    exact ⟨acc, ch, rfl, hR ▸ Step.refl hT, fun _ _ => rfl, fun _ _ h => by simp at h⟩
  | cons e gs ih =>
    obtain ⟨nib, g⟩ := e
    intro acc ch R hsub hpw hnv hcts hT hs hcov hin
    rw [List.pairwise_cons] at hpw
    have hsl : slice pfx R nib = slice pfx R₀ nib := hs (nib, g) List.mem_cons_self
    obtain ⟨acc₁, t, he, hstep, hH, hM, hver⟩ :=
      hsub nib g List.mem_cons_self acc hnv hcts (hsl ▸ hT.slice nib)
    rw [← hsl] at hstep
    have hstep' := hstep.splice hT
    have hreg : ∀ x ∈ t.recs C (pfx ++ [nib]), x.In (pfx ++ [nib]) := fun x hx => Tree.recs_in hH x hx
    have hlt : ∀ e ∈ gs, e.1 ≠ nib := fun e he => (hpw.1 e he).ne'
    obtain ⟨acc', ch', he', hstep₂, hkeep, hgs⟩ := ih acc₁ (Function.update ch nib t)
      (splice pfx R nib (t.recs C (pfx ++ [nib])))
      (fun n g' h' => hsub n g' (List.mem_cons_of_mem _ h')) hpw.2 (hstep.version.trans hnv)
      (hstep.cts.trans hcts) hstep'.tracks
      (fun e he => by rw [slice_splice_ne hreg (hlt e he)]; exact hs e (List.mem_cons_of_mem _ he))
      (fun j hj => by
        by_cases hjn : j = nib
        · subst hjn; rw [slice_splice_self hreg, Function.update_self]
        · rw [slice_splice_ne hreg hjn, Function.update_of_ne hjn]
          exact hcov j (by simpa [hjn] using hj))
      (by
        rintro x (hx | hx)
        · exact ⟨nib, hreg x hx⟩
        · exact hin x hx.1)
    have hnot : nib ∉ gs.map Prod.fst := by
      intro hm
      obtain ⟨e, hmem, hnib⟩ := List.mem_map.1 hm
      exact hlt e hmem hnib
    refine ⟨acc', ch', ?_, hstep'.trans hstep₂, fun j hj => ?_, fun n g' hm => ?_⟩
    · rw [buildGroups, he]
      show buildGroups sub gs acc₁ (Function.update (Tree.refs C ch) nib (t.ref C)) = _
      rw [← Tree.refs_update]; exact he'
    · simp only [List.map_cons, List.mem_cons, not_or] at hj
      rw [hkeep j hj.2, Function.update_of_ne hj.1]
    · rcases List.mem_cons.1 hm with hm | hm
      · cases hm
        rw [hkeep nib hnot, Function.update_self]
        exact ⟨hH, hM, hver⟩
      · exact hgs n g' hm

/-- At most one leaf: nothing is built, or the leaf is placed. -/
theorem buildFromPairs_spec_le_one (fuel : ℕ) (hT : Tracks owner G acc pfx R) (hr : Ready owner G acc ps R)
    (hu : ∀ l ∈ ps, Under pfx l.path) (hlen : ps.length ≤ 1) :
    ∃ acc' t, buildFromPairs C fuel acc pfx ps = .ok (acc', Tree.ref C t) ∧
      Step owner G acc acc' pfx R (t.recs C pfx) ∧ t.Holds (leafMap ps) pfx ∧ t.Mono ∧
      ∀ w ∈ t.ver, w = acc.newVersion := by
  rcases ps with _ | ⟨a, _ | ⟨b, ps⟩⟩
  · have hR : R = ∅ := by
      ext x
      refine ⟨fun hx => ?_, fun hx => hx.elim⟩
      obtain ⟨l, hl, -⟩ := hr.kept x hx; simp at hl
    subst hR
    exact ⟨acc, .nil, by cases fuel <;> rfl, Step.refl hT, fun p _ => rfl, trivial, fun w hw => by cases hw⟩
  · obtain ⟨acc', he, hstep⟩ := putLeaf_spec (C := C) hT hr (hu a (by simp))
    exact ⟨acc', _, by cases fuel <;> exact he, hstep, ⟨hu a (by simp), by simp [leafMap],
      fun p _ hne => leafMap_eq_none.2 (by simpa using hne.symm)⟩, hr.le a (by simp), fun w hw => by cases hw; rfl⟩
  · simp at hlen

/-- **Building never fails, and builds the canonical tree of the leaves.** -/
theorem buildFromPairs_spec : ∀ (fuel : ℕ) (acc : CommitAcc) (pfx : List Nib) (ps : List LeafNode) (R : Set Record),
    pfx.length + fuel = 64 → Tracks owner G acc pfx R → Ready owner G acc ps R →
    ps.Pairwise (fun a b => a.path < b.path) → (∀ l ∈ ps, Under pfx l.path) →
    ∃ acc' t, buildFromPairs C fuel acc pfx ps = .ok (acc', Tree.ref C t) ∧
      Step owner G acc acc' pfx R (t.recs C pfx) ∧ t.Holds (leafMap ps) pfx ∧ t.Mono ∧
      ∀ w ∈ t.ver, w = acc.newVersion := by
  intro fuel
  induction fuel with
  | zero =>
    intro acc pfx ps R hlen hT hr hs hu
    refine buildFromPairs_spec_le_one 0 hT hr hu ?_
    rcases ps with _ | ⟨a, _ | ⟨b, ps⟩⟩
    · simp
    · simp
    · -- two leaves at full depth would be one path
      have := (hu a (by simp)).eq_of_full (hu b (by simp)) (by omega)
      rw [List.pairwise_cons] at hs
      exact absurd this (hs.1 b (by simp)).ne
  | succ fuel ih =>
    intro acc pfx ps R hlen hT hr hs hu
    rcases ps with _ | ⟨a, _ | ⟨b, ps⟩⟩
    · exact buildFromPairs_spec_le_one _ hT hr hu (by simp)
    · exact buildFromPairs_spec_le_one _ hT hr hu (by simp)
    · set qs := a :: b :: ps with hqs
      have hnib := nibbleGroups_pairwise (nibble_sorted hs hu (by omega))
      obtain ⟨acc₁, ch, he, hstep, hkeep, hgs⟩ := buildGroups_spec (C := C)
        (fun acc nib g => buildFromPairs C fuel acc (pfx ++ [nib]) g) R
        (nibbleGroups LeafNode.path pfx.length qs) acc (fun _ => .nil) R
        (fun nib g hg acc' hv hc hT' => by
          obtain ⟨acc'', t, h1, h2, h3, h4, h5⟩ := ih acc' (pfx ++ [nib]) g (slice pfx R nib) (by simp; omega) hT'
            (hr.slice hu hg hnib hv hc) (pairwise_of_mem_group hs hg)
            (fun l hl => under_snoc.2 ⟨hu l (mem_of_mem_group hg hl), (nibble_of_mem_group hg).2 l hl⟩)
          exact ⟨acc'', t, h1, h2, h3, h4, fun w hw => (h5 w hw).trans hv⟩)
        hnib rfl rfl hT (fun _ _ => rfl)
        (fun j hj => by
          -- a value record in this slice would put the slot's group in the list
          ext x
          refine ⟨fun hx => ?_, fun hx => hx.elim⟩
          obtain ⟨l, hl, rfl⟩ := hr.kept x hx.1
          obtain ⟨g, hg, -⟩ := exists_group LeafNode.path pfx.length hl
          rw [(under_snoc.1 hx.2).2] at hg
          exact hj (List.mem_map.2 ⟨_, hg, rfl⟩))
        (fun x hx => by
          obtain ⟨l, hl, rfl⟩ := hr.kept x hx
          exact ⟨_, (hu l hl).extend⟩)
      -- every child is the canonical tree of the leaves in its slot
      have hch : ∀ j, (ch j).Holds (leafMap qs) (pfx ++ [j]) ∧ (ch j).Mono ∧ ∀ w ∈ (ch j).ver, w = acc.newVersion := by
        intro j
        by_cases hj : j ∈ (nibbleGroups LeafNode.path pfx.length qs).map Prod.fst
        · obtain ⟨⟨nib, g⟩, hg, rfl⟩ := List.mem_map.1 hj
          obtain ⟨h1, h2, h3⟩ := hgs nib g hg
          refine ⟨h1.congr fun p hp => leafMap_congr (pairwise_of_mem_group hs hg) hs fun l hl => ?_, h2, h3⟩
          exact ⟨fun h => mem_of_mem_group hg h, fun h => mem_group hnib hg h (hl ▸ (under_snoc.1 hp).2)⟩
        · rw [hkeep j hj]
          refine ⟨fun p hp => leafMap_eq_none.2 fun l hl hlp => ?_, trivial, fun w hw => by cases hw⟩
          subst hlp
          obtain ⟨g, hg, -⟩ := exists_group LeafNode.path pfx.length hl
          rw [(under_snoc.1 hp).2] at hg
          exact hj (List.mem_map.2 ⟨_, hg, rfl⟩)
      have hadd := step_addNode hstep.tracks (.internal (Tree.refs C ch)) (by
        rintro n' ⟨i, hi⟩
        exact not_snoc_isPrefix pfx i (Tree.recs_in (hch i).1 _ hi))
      rw [hstep.version] at hadd
      refine ⟨acc₁.addNode pfx (.internal (Tree.refs C ch)), .node acc.newVersion ch, ?_, hstep.trans hadd,
        ⟨⟨a.path, b.path, ?_, hu a (by simp [hqs]), hu b (by simp [hqs]), leafMap_isSome (by simp [hqs]),
          leafMap_isSome (by simp [hqs])⟩, fun j => (hch j).1⟩,
        fun j => ⟨(hch j).2.1, fun w hw => ((hch j).2.2 w hw).le⟩, fun w hw => by cases hw; rfl⟩
      · rw [hqs, buildFromPairs, ← hqs, show (fun _ => none : Children) = Tree.refs C (fun _ => .nil) from rfl, he,
          Tree.ref_node, ← hstep.version]
        rfl
      · rw [hqs, List.pairwise_cons] at hs
        exact (hs.1 b (by simp)).ne

end ImmutableLedger
