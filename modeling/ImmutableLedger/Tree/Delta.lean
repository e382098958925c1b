import ImmutableLedger.Tree.Canonical

/-!
# What a commit writes and retires

While a batch is applied, the accumulator is read as a set of records: those of the subtree under work.
`Tracks` says that the pending nodes and values are exactly the new-version records of the set, and
`Step` that going from one set to another retired exactly the older records that left it.

Value records are addressed by their commitment alone. `owner` names the path a commitment belongs to,
and `G` what makes stored bytes good for it; both are fixed by the values the store has sealed.

* `Step.trans`, `Step.splice`: steps compose in sequence, and a step of a child is one of its parent.
* `step_staleNode`, `step_staleValue`, `step_addNode`, `putLeaf_spec`: the primitive steps.
-/

namespace ImmutableLedger

variable (owner : Hash → Hash) (G : Hash → Hash → Bytes → Prop)

/-- The accumulator holds exactly the new-version records of `R`, the records of the subtree at `pfx`. -/
structure Tracks (acc : CommitAcc) (pfx : List Nib) (R : Set Record) : Prop where
  region : ∀ x ∈ R, x.In pfx
  pend : ∀ nk n, pfx <+: nk.pfx → nk.version = acc.newVersion → (acc.pending.get nk = some n ↔ .node nk n ∈ R)
  val_in : ∀ vh, .value (owner vh) vh acc.newVersion ∈ R →
    ∃ ct, acc.values.get vh = some ct ∧ G (owner vh) vh ct
  val_out : ∀ vh, Under pfx (owner vh) → .value (owner vh) vh acc.newVersion ∉ R → acc.values.get vh = none

/-- The records of the subtree at `pfx` went from `R` to `R'`: nothing outside the subtree changed, older
records were only removed, and those removed were marked stale, once each. -/
structure Step (acc acc' : CommitAcc) (pfx : List Nib) (R R' : Set Record) : Prop where
  tracks : Tracks owner G acc' pfx R'
  version : acc'.newVersion = acc.newVersion
  cts : acc'.insertCTs = acc.insertCTs
  head : acc'.newHead = acc.newHead
  pend : ∀ nk, ¬ (pfx <+: nk.pfx ∧ nk.version = acc.newVersion) → acc'.pending.get nk = acc.pending.get nk
  vals : ∀ vh, ¬ Under pfx (owner vh) → acc'.values.get vh = acc.values.get vh
  stale : ∃ σ : List Record, acc'.stale = acc.stale ++ σ.map (fun x => x.key.bytes) ∧ σ.Nodup ∧
    ∀ x, x ∈ σ ↔ x ∈ R ∧ x.version ≠ acc.newVersion ∧ x ∉ R'
  old : ∀ x ∈ R', x.version ≠ acc.newVersion → x ∈ R

variable {owner G} {acc acc' acc₁ acc₂ : CommitAcc} {pfx : List Nib} {R R' R₁ R₂ : Set Record}

theorem Step.refl (h : Tracks owner G acc pfx R) : Step owner G acc acc pfx R R where
  tracks := h
  version := rfl
  cts := rfl
  head := rfl
  pend _ _ := rfl
  vals _ _ := rfl
  stale := ⟨[], by simp, by simp, fun x => by
    simp only [List.not_mem_nil, false_iff, not_and, not_not]
    intro hx _; exact hx⟩
  old x hx _ := hx

/-- **Steps compose.** -/
theorem Step.trans (h₁ : Step owner G acc acc₁ pfx R R₁) (h₂ : Step owner G acc₁ acc₂ pfx R₁ R₂) :
    Step owner G acc acc₂ pfx R R₂ where
  tracks := h₂.tracks
  version := h₂.version.trans h₁.version
  cts := h₂.cts.trans h₁.cts
  head := h₂.head.trans h₁.head
  pend nk h := (h₂.pend nk (by rw [h₁.version]; exact h)).trans (h₁.pend nk h)
  vals vh h := (h₂.vals vh h).trans (h₁.vals vh h)
  stale := by
    obtain ⟨σ₁, e₁, n₁, m₁⟩ := h₁.stale
    obtain ⟨σ₂, e₂, n₂, m₂⟩ := h₂.stale
    rw [h₁.version] at m₂
    refine ⟨σ₁ ++ σ₂, by rw [e₂, e₁]; simp, ?_, fun x => ?_⟩
    · refine List.nodup_append'.2 ⟨n₁, n₂, fun x hx₁ hx₂ => ?_⟩
      exact ((m₁ x).1 hx₁).2.2 ((m₂ x).1 hx₂).1
    · rw [List.mem_append, m₁, m₂]
      have hold := h₂.old x
      rw [h₁.version] at hold
      constructor
      · rintro (⟨h1, h2, h3⟩ | ⟨h1, h2, h3⟩)
        · exact ⟨h1, h2, fun h => h3 (hold h h2)⟩
        · exact ⟨h₁.old x h1 h2, h2, h3⟩
      · rintro ⟨h1, h2, h3⟩
        by_cases hx : x ∈ R₁
        · exact .inr ⟨hx, h2, h3⟩
        · exact .inl ⟨h1, h2, hx⟩
  old x hx hv := h₁.old x (h₂.old x hx (by rw [h₁.version]; exact hv)) hv

/-- The stored forms and the chain head at hand play no part in a step. -/
theorem Step.retag (h : Step owner G acc acc' pfx R R') (cts : OrdMap Hash Bytes) (head : Option Hash) :
    Step owner G { acc with insertCTs := cts, newHead := head } { acc' with insertCTs := cts, newHead := head } pfx R R' :=
  ⟨⟨h.tracks.region, h.tracks.pend, h.tracks.val_in, h.tracks.val_out⟩, h.version, rfl, rfl, h.pend, h.vals, h.stale,
    h.old⟩

/-! ## Children -/

/-- The records in child `i`'s subtree. -/
def slice (pfx : List Nib) (R : Set Record) (i : Nib) : Set Record := {x ∈ R | x.In (pfx ++ [i])}

/-- Replace the records in child `i`'s subtree. -/
def splice (pfx : List Nib) (R : Set Record) (i : Nib) (A : Set Record) : Set Record :=
  A ∪ {x ∈ R | ¬ x.In (pfx ++ [i])}

theorem Tracks.slice (h : Tracks owner G acc pfx R) (i : Nib) :
    Tracks owner G acc (pfx ++ [i]) (slice pfx R i) where
  region x hx := hx.2
  pend nk n hp hv := by
    rw [h.pend nk n ((List.prefix_append pfx [i]).trans hp) hv]
    exact ⟨fun hx => ⟨hx, hp⟩, fun hx => hx.1⟩
  val_in vh hx := h.val_in vh hx.1
  val_out vh hu hx := h.val_out vh hu.of_snoc fun hm => hx ⟨hm, hu⟩

/-- **A step of a child is a step of its parent.** -/
theorem Step.splice {A : Set Record} {i : Nib} (hI : Tracks owner G acc pfx R)
    (h : Step owner G acc acc' (pfx ++ [i]) (slice pfx R i) A) :
    Step owner G acc acc' pfx R (splice pfx R i A) where
  tracks := {
    region := by
      rintro x (hx | hx)
      · exact (h.tracks.region x hx).of_snoc
      · exact hI.region x hx.1
    pend := by
      intro nk n hp hv
      by_cases hi : pfx ++ [i] <+: nk.pfx
      · rw [h.tracks.pend nk n hi hv]
        exact ⟨fun hx => .inl hx, fun hx => hx.resolve_right fun hr => hr.2 hi⟩
      · rw [h.pend nk (fun hc => hi hc.1), hI.pend nk n hp (hv.trans h.version)]
        exact ⟨fun hx => .inr ⟨hx, hi⟩, fun hx => (hx.resolve_left fun hl => hi (h.tracks.region _ hl)).1⟩
    val_in := by
      rintro vh (hx | hx)
      · exact h.tracks.val_in vh hx
      · rw [h.vals vh hx.2]
        exact hI.val_in vh (h.version ▸ hx.1)
    val_out := by
      intro vh hu hx
      by_cases hi : Under (pfx ++ [i]) (owner vh)
      · exact h.tracks.val_out vh hi fun hm => hx (.inl hm)
      · rw [h.vals vh hi]
        exact hI.val_out vh hu fun hm => hx (.inr ⟨h.version.symm ▸ hm, hi⟩) }
  version := h.version
  cts := h.cts
  head := h.head
  pend nk hn := h.pend nk fun hc => hn ⟨(List.prefix_append pfx [i]).trans hc.1, hc.2⟩
  vals vh hn := h.vals vh fun hc => hn hc.of_snoc
  stale := by
    obtain ⟨σ, e, hnd, hm⟩ := h.stale
    refine ⟨σ, e, hnd, fun x => ?_⟩
    rw [hm]
    constructor
    · rintro ⟨hx, hv, hnA⟩
      exact ⟨hx.1, hv, fun hs => hs.elim hnA fun hr => hr.2 hx.2⟩
    · rintro ⟨hx, hv, hns⟩
      have hi : x.In (pfx ++ [i]) := by
        by_contra hc; exact hns (.inr ⟨hx, hc⟩)
      exact ⟨⟨hx, hi⟩, hv, fun hA => hns (.inl hA)⟩
  old := by
    rintro x (hx | hx) hv
    · exact (h.old x hx hv).1
    · exact hx.1

theorem slice_splice_self {A : Set Record} {i : Nib} (hA : ∀ x ∈ A, x.In (pfx ++ [i])) :
    slice pfx (splice pfx R i A) i = A := by
  ext x
  exact ⟨fun h => h.1.resolve_right fun hr => hr.2 h.2, fun h => ⟨.inl h, hA x h⟩⟩

theorem slice_splice_ne {A : Set Record} {i j : Nib} (hA : ∀ x ∈ A, x.In (pfx ++ [i])) (hij : j ≠ i) :
    slice pfx (splice pfx R i A) j = slice pfx R j := by
  ext x
  constructor
  · rintro ⟨hx | hx, hj⟩
    · exact absurd ((hA x hx).inj hj).symm hij
    · exact ⟨hx.1, hj⟩
  · rintro ⟨hx, hj⟩
    exact ⟨.inr ⟨hx, fun hi => hij (hj.inj hi)⟩, hj⟩

/-! ## Primitive steps -/

theorem step_addNode (h : Tracks owner G acc pfx R) (n : Node)
    (hn : ∀ n', .node ⟨acc.newVersion, pfx⟩ n' ∉ R) :
    Step owner G acc (acc.addNode pfx n) pfx R (insert (.node ⟨acc.newVersion, pfx⟩ n) R) where
  tracks := {
    region := by
      rintro x (rfl | hx)
      · exact List.prefix_rfl
      · exact h.region x hx
    pend := by
      intro nk n' hp hv
      simp only [CommitAcc.addNode, OrdMap.get_insert]
      by_cases hk : nk = ⟨acc.newVersion, pfx⟩
      · subst hk
        rw [if_pos rfl]
        constructor
        · intro he; cases he; exact .inl rfl
        · rintro (he | hx)
          · cases he; rfl
          · exact absurd hx (hn n')
      · rw [if_neg hk, h.pend nk n' hp hv]
        refine ⟨.inr, fun hx => hx.resolve_left fun he => hk ?_⟩
        cases he; rfl
    val_in := by
      rintro vh (he | hx)
      · cases he
      · exact h.val_in vh hx
    val_out := fun vh hu hx => h.val_out vh hu fun hm => hx (.inr hm) }
  version := rfl
  cts := rfl
  head := rfl
  pend nk hnk := by
    simp only [CommitAcc.addNode, OrdMap.get_insert]
    rw [if_neg]
    rintro rfl
    exact hnk ⟨List.prefix_rfl, rfl⟩
  vals _ _ := rfl
  stale := ⟨[], by simp [CommitAcc.addNode], by simp, fun x => by
    simp only [List.not_mem_nil, false_iff, not_and, not_not]
    intro hx _; exact .inr hx⟩
  old := by
    rintro x (rfl | hx) hv
    · exact absurd rfl hv
    · exact hx

/-- An older record that goes is marked stale. -/
theorem step_mark (h : Tracks owner G acc pfx R) {x : Record} (hx : x ∈ R) (hv : x.version ≠ acc.newVersion) :
    Step owner G acc { acc with stale := acc.stale ++ [x.key.bytes] } pfx R (R \ {x}) := by
  refine ⟨⟨fun y hy => h.region y hy.1, ?_, fun vh hm => h.val_in vh hm.1, ?_⟩, rfl, rfl, rfl, fun _ _ => rfl,
    fun _ _ => rfl, ⟨[x], rfl, by simp, ?_⟩, fun y hy _ => hy.1⟩
  · intro nk n hp hn
    rw [h.pend nk n hp hn]
    exact ⟨fun hm => ⟨hm, fun he => hv (Set.mem_singleton_iff.1 he ▸ hn)⟩, fun hm => hm.1⟩
  · exact fun vh hu hm => h.val_out vh hu fun hR => hm ⟨hR, fun he => hv (Set.mem_singleton_iff.1 he ▸ rfl)⟩
  · intro y
    rw [List.mem_singleton]
    constructor
    · rintro rfl
      exact ⟨hx, hv, fun hm => hm.2 rfl⟩
    · rintro ⟨hR, -, hm⟩
      by_contra hne
      exact hm ⟨hR, hne⟩

theorem step_staleNode (h : Tracks owner G acc pfx R) (nk : NodeKey) {n : Node} (hx : .node nk n ∈ R) :
    Step owner G acc (acc.staleNode nk) pfx R (R \ {.node nk n}) := by
  have hp : pfx <+: nk.pfx := h.region _ hx
  unfold CommitAcc.staleNode
  by_cases hv : nk.version = acc.newVersion
  · rw [if_pos hv]
    have hget := (h.pend nk n hp hv).2 hx
    refine ⟨⟨fun x hx => h.region x hx.1, ?_, fun vh hm => h.val_in vh hm.1, ?_⟩, rfl, rfl, rfl, ?_, fun _ _ => rfl,
      ⟨[], by simp, by simp, ?_⟩, fun x hx _ => hx.1⟩
    · intro nk' n' hp' hv'
      simp only [OrdMap.get_erase]
      by_cases hk : nk' = nk
      · subst hk
        rw [if_pos rfl]
        refine ⟨fun he => (by cases he), fun hm => absurd ?_ hm.2⟩
        have := (h.pend nk' n' hp' hv').2 hm.1
        rw [hget] at this
        cases this; rfl
      · rw [if_neg hk, h.pend nk' n' hp' hv']
        exact ⟨fun hm => ⟨hm, fun he => hk (by cases he; rfl)⟩, fun hm => hm.1⟩
    · exact fun vh hu hm => h.val_out vh hu fun hR => hm ⟨hR, fun he => by cases he⟩
    · intro nk' hnk'
      simp only [OrdMap.get_erase]
      rw [if_neg]
      rintro rfl
      exact hnk' ⟨hp, hv⟩
    · intro x
      simp only [List.not_mem_nil, false_iff, not_and, not_not]
      intro hR hxv
      exact ⟨hR, fun he => hxv (by cases he; exact hv)⟩
  · rw [if_neg hv]
    exact step_mark h hx hv

theorem step_staleValue (h : Tracks owner G acc pfx R) {l : LeafNode} (ho : owner l.vh = l.path)
    (hx : .value l.path l.vh l.valueVersion ∈ R) :
    Step owner G acc (acc.staleValue l) pfx R (R \ {.value l.path l.vh l.valueVersion}) := by
  have hp : Under pfx l.path := h.region _ hx
  unfold CommitAcc.staleValue
  by_cases hv : l.valueVersion = acc.newVersion
  · rw [if_pos hv]
    refine ⟨⟨fun x hx => h.region x hx.1, ?_, ?_, ?_⟩, rfl, rfl, rfl, fun _ _ => rfl, ?_,
      ⟨[], by simp, by simp, ?_⟩, fun x hx _ => hx.1⟩
    · intro nk' n' hp' hv'
      rw [h.pend nk' n' hp' hv']
      exact ⟨fun hm => ⟨hm, fun he => by cases he⟩, fun hm => hm.1⟩
    · intro vh hm
      have hne : vh ≠ l.vh := by
        rintro rfl; exact hm.2 (by rw [ho, hv]; rfl)
      simp only [OrdMap.get_erase, hne, if_false]
      exact h.val_in vh hm.1
    · intro vh hu hm
      simp only [OrdMap.get_erase]
      by_cases hvh : vh = l.vh
      · rw [if_pos hvh]
      · rw [if_neg hvh]
        exact h.val_out vh hu fun hR => hm ⟨hR, fun he => hvh (Record.value.inj he).2.1⟩
    · intro vh hu
      simp only [OrdMap.get_erase]
      rw [if_neg]
      rintro rfl
      exact hu (ho ▸ hp)
    · intro x
      simp only [List.not_mem_nil, false_iff, not_and, not_not]
      intro hR hxv
      exact ⟨hR, fun he => hxv (by cases he; exact hv)⟩
  · rw [if_neg hv]
    exact step_mark h hx hv

end ImmutableLedger
