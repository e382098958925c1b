import ImmutableLedger.Ledger.Apply

/-!
# Canonical trees

The tree a root reference stands for, as one value: every node with the version that wrote it and its
children in place. `Holds f pfx t` says that `t` is the canonical tree of the entries of `f` under
the position `pfx`: nothing for no entry, a leaf for one, an internal node for two or more. `recs` is
the set of the records the tree is made of.

* `Holds.hash_eq`: the hash is a function of the committed entries.
* `Holds.exists_of_ne_nil`, `Holds.depth_lt`: a subtree has an entry; two entries part above the last nibble.
* `holds_node_of_children`: children that do not collapse make a canonical node.
-/

namespace ImmutableLedger

/-! ## Positions -/

/-- The path lies under the position: it starts with these nibbles. -/
def Under (pfx : List Nib) (p : Hash) : Prop := ∀ i x, pfx[i]? = some x → nibble p i = x

@[simp] theorem under_nil (p : Hash) : Under [] p := fun i x h => by simp at h

variable {pfx : List Nib} {p : Hash}

theorem under_snoc {i : Nib} : Under (pfx ++ [i]) p ↔ Under pfx p ∧ nibble p pfx.length = i := by
  constructor
  · intro h
    refine ⟨fun j x hj => h j x ?_, h pfx.length i (by simp)⟩
    rw [List.getElem?_append_left (List.getElem?_eq_some_iff.1 hj).1]; exact hj
  · rintro ⟨h1, h2⟩ j x hj
    rcases Nat.lt_trichotomy j pfx.length with hlt | heq | hgt
    · rw [List.getElem?_append_left hlt] at hj; exact h1 j x hj
    · subst heq; simp at hj; rw [h2, hj]
    · rw [List.getElem?_eq_none (by simp; omega)] at hj; cases hj

theorem Under.of_snoc {i : Nib} (h : Under (pfx ++ [i]) p) : Under pfx p :=
  (under_snoc.1 h).1

theorem Under.nibble_eq {p q : Hash} (hp : Under pfx p) (hq : Under pfx q) {i : ℕ}
    (hi : i < pfx.length) : nibble p i = nibble q i := by
  have h := List.getElem?_eq_getElem hi
  rw [hp i _ h, hq i _ h]

theorem Under.extend (h : Under pfx p) : Under (pfx ++ [nibble p pfx.length]) p :=
  under_snoc.2 ⟨h, rfl⟩

/-- At full depth a position holds one path. -/
theorem Under.eq_of_full {p q : Hash} (hp : Under pfx p) (hq : Under pfx q) (hl : 64 ≤ pfx.length) : p = q :=
  nibble_ext fun _ hi => hp.nibble_eq hq (by omega)

theorem under_ne {i j : Nib} (hi : Under (pfx ++ [i]) p) (hj : Under (pfx ++ [j]) p) : i = j :=
  (under_snoc.1 hi).2.symm.trans (under_snoc.1 hj).2

theorem isPrefix_snoc_inj {pfx l : List Nib} {i j : Nib} (hi : pfx ++ [i] <+: l) (hj : pfx ++ [j] <+: l) :
    i = j := by
  obtain ⟨t, rfl⟩ := hi
  obtain ⟨t', h⟩ := hj
  simp at h
  exact h.1.symm

theorem not_snoc_isPrefix (pfx : List Nib) (i : Nib) : ¬ pfx ++ [i] <+: pfx := by
  intro h
  have := h.length_le
  simp at this

/-! ## Trees -/

/-- A tree with the versions of its nodes. -/
inductive Tree where
  | nil
  | leaf (version : UInt64) (l : LeafNode)
  | node (version : UInt64) (ch : Nib → Tree)

/-- A stored record of a tree: a node under its key, or the value record of the leaf at a path. -/
inductive Record where
  | node (nk : NodeKey) (n : Node)
  | value (path vh : Hash) (valueVersion : UInt64)

namespace Record

def version : Record → UInt64
  | node nk _ => nk.version
  | value _ _ v => v

/-- The identity a record is stored under. -/
def key : Record → RecKey
  | node nk _ => .node nk
  | value _ vh v => .value vh v

/-- The record belongs to the subtree at a position. -/
def In (pfx : List Nib) : Record → Prop
  | node nk _ => pfx <+: nk.pfx
  | value p _ _ => Under pfx p

theorem In.of_snoc {i : Nib} {x : Record} (h : x.In (pfx ++ [i])) : x.In pfx := by
  cases x with
  | node nk n => exact (List.prefix_append pfx [i]).trans h
  | value p vh v => exact Under.of_snoc h

theorem In.inj {i j : Nib} {x : Record} (hi : x.In (pfx ++ [i])) (hj : x.In (pfx ++ [j])) : i = j := by
  cases x with
  | node nk n => exact isPrefix_snoc_inj hi hj
  | value p vh v => exact under_ne hi hj

end Record

namespace Tree

variable (C : Crypto)

/-- The reference a parent keeps of a subtree. -/
def ref : Tree → Option Child
  | nil => none
  | leaf v l => some ⟨v, leafHash C l.path l.vh, true⟩
  | node v ch => some ⟨v, subtreeHash C (fun i => (ch i).ref) 0 4, false⟩

/-- The references of a family of subtrees. -/
def refs (ch : Nib → Tree) : Children := fun i => (ch i).ref C

/-- The version of the top node. -/
def ver : Tree → Option UInt64
  | nil => none
  | leaf v _ => some v
  | node v _ => some v

/-- The records of the subtree at `pfx`. -/
def recs : List Nib → Tree → Set Record
  | _, nil => ∅
  | pfx, leaf v l => {.node ⟨v, pfx⟩ (.leaf l), .value l.path l.vh l.valueVersion}
  | pfx, node v ch =>
    {x | x = .node ⟨v, pfx⟩ (.internal fun i => (ch i).ref C) ∨ ∃ i, x ∈ recs (pfx ++ [i]) (ch i)}

/-- The records of a family of subtrees. -/
def famRecs (pfx : List Nib) (ch : Nib → Tree) : Set Record := {x | ∃ i, x ∈ recs C (pfx ++ [i]) (ch i)}

/-- Versions grow towards the root. -/
def Mono : Tree → Prop
  | nil => True
  | leaf v l => l.valueVersion ≤ v
  | node v ch => ∀ i, (ch i).Mono ∧ ∀ w ∈ (ch i).ver, w ≤ v

/-- The tree is the canonical tree of the entries of `f` under `pfx`. -/
def Holds (f : Hash → Option (Hash × UInt64)) : List Nib → Tree → Prop
  | pfx, nil => ∀ p, Under pfx p → f p = none
  | pfx, leaf _ l => Under pfx l.path ∧ f l.path = some (l.vh, l.valueVersion) ∧
      ∀ p, Under pfx p → p ≠ l.path → f p = none
  | pfx, node _ ch => (∃ p q, p ≠ q ∧ Under pfx p ∧ Under pfx q ∧ (f p).isSome ∧ (f q).isSome) ∧
      ∀ i, Holds f (pfx ++ [i]) (ch i)

variable {C}

@[simp] theorem ref_nil : (nil : Tree).ref C = none := rfl

variable {t : Tree}

theorem ref_eq_none : t.ref C = none ↔ t = nil := by cases t <;> simp [ref]

theorem ref_version {c : Child} (h : t.ref C = some c) : t.ver = some c.version := by
  cases t <;> simp [ref, ver] at h ⊢ <;> rw [← h]

theorem ref_node (v : UInt64) (ch : Nib → Tree) :
    (node v ch).ref C = some ⟨v, Node.hash C (.internal (refs C ch)), false⟩ := rfl

theorem recs_node (pfx : List Nib) (v : UInt64) (ch : Nib → Tree) :
    (node v ch).recs C pfx = insert (.node ⟨v, pfx⟩ (.internal (refs C ch))) (famRecs C pfx ch) := rfl

variable {f : Hash → Option (Hash × UInt64)}

theorem recs_in : ∀ {pfx : List Nib}, t.Holds f pfx →
    ∀ x ∈ t.recs C pfx, x.In pfx := by
  induction t with
  | nil => intro pfx _ x hx; cases hx
  | leaf v l =>
    intro pfx h x hx
    rcases hx with rfl | rfl
    · exact List.prefix_rfl
    · exact h.1
  | node v ch ih =>
    intro pfx h x hx
    rcases hx with rfl | ⟨i, hi⟩
    · exact List.prefix_rfl
    · exact (ih i (h.2 i) x hi).of_snoc

/-- Versions below a node are at most its own. -/
theorem Mono.version_le : ∀ {v : UInt64} {pfx : List Nib}, t.Mono → (∀ w ∈ t.ver, w ≤ v) →
    ∀ x ∈ t.recs C pfx, x.version ≤ v := by
  induction t with
  | nil => intro v pfx _ _ x hx; cases hx
  | leaf w l =>
    intro v pfx hm hv x hx
    have hw := hv w rfl
    rcases hx with rfl | rfl
    · exact hw
    · exact le_trans hm hw
  | node w ch ih =>
    intro v pfx hm hv x hx
    have hw := hv w rfl
    rcases hx with rfl | ⟨i, hi⟩
    · exact hw
    · exact le_trans (ih i (hm i).1 (hm i).2 x hi) hw

/-- The top node of a tree. -/
def top (C : Crypto) : Tree → Option Node
  | .nil => none
  | .leaf _ l => some (.leaf l)
  | .node _ ch => some (.internal (Tree.refs C ch))

theorem exists_top (h : t ≠ .nil) : ∃ v n, t.top C = some n ∧ t.ver = some v ∧
    .node (rootNodeKey v) n ∈ t.recs C [] ∧ t.ref C = some ⟨v, n.hash C, n.isLeaf⟩ := by
  cases t with
  | nil => exact absurd rfl h
  | leaf v l => exact ⟨v, .leaf l, rfl, rfl, .inl rfl, rfl⟩
  | node v ch => exact ⟨v, .internal (Tree.refs C ch), rfl, rfl, .inl rfl, rfl⟩

/-! ## Canonical shape -/

theorem Holds.congr {f g : Hash → Option (Hash × UInt64)} : ∀ {pfx : List Nib},
    (∀ p, Under pfx p → f p = g p) → t.Holds f pfx → t.Holds g pfx := by
  induction t with
  | nil => intro pfx hfg h p hp; rw [← hfg p hp]; exact h p hp
  | leaf v l =>
    intro pfx hfg h
    exact ⟨h.1, by rw [← hfg _ h.1]; exact h.2.1, fun p hp hne => by rw [← hfg p hp]; exact h.2.2 p hp hne⟩
  | node v ch ih =>
    intro pfx hfg h
    obtain ⟨⟨p, q, hpq, hp, hq, hfp, hfq⟩, hch⟩ := h
    exact ⟨⟨p, q, hpq, hp, hq, by rwa [← hfg p hp], by rwa [← hfg q hq]⟩,
      fun i => ih i (fun p hp => hfg p hp.of_snoc) (hch i)⟩

theorem Holds.exists_of_ne_nil
    (h : t.Holds f pfx) (hne : t ≠ nil) : ∃ p, Under pfx p ∧ (f p).isSome := by
  cases t with
  | nil => exact absurd rfl hne
  | leaf v l => exact ⟨l.path, h.1, by rw [h.2.1]; rfl⟩
  | node v ch =>
    obtain ⟨⟨p, q, -, hp, -, hfp, -⟩, -⟩ := h
    exact ⟨p, hp, hfp⟩

theorem Holds.eq_nil
    (h : t.Holds f pfx) (hf : ∀ p, Under pfx p → f p = none) : t = nil := by
  by_contra hne
  obtain ⟨p, hp, hs⟩ := h.exists_of_ne_nil hne
  rw [hf p hp] at hs; cases hs

/-- Two entries part above the last nibble. -/
theorem Holds.depth_lt {v : UInt64} {ch : Nib → Tree}
    (h : (node v ch).Holds f pfx) : pfx.length < 64 := by
  obtain ⟨⟨p, q, hpq, hp, hq, -, -⟩, -⟩ := h
  by_contra hlen
  exact hpq (hp.eq_of_full hq (by omega))

/-- **The hash is a function of the committed entries.** -/
theorem Holds.hash_eq {g : Hash → Option (Hash × UInt64)} :
    ∀ {t' : Tree} {pfx : List Nib}, t.Holds f pfx → t'.Holds g pfx →
    (∀ p, Under pfx p → (f p).map Prod.fst = (g p).map Prod.fst) →
    (t.ref C).map (fun c => (c.hash, c.isLeaf)) = (t'.ref C).map (fun c => (c.hash, c.isLeaf)) := by
  have hsome : ∀ {p : Hash}, (f p).map Prod.fst = (g p).map Prod.fst → ((f p).isSome ↔ (g p).isSome) := by
    intro p h; rw [← Option.isSome_map (x := f p) (f := Prod.fst), h, Option.isSome_map]
  induction t with
  | nil =>
    intro t' pfx h h' hfg
    rw [h'.eq_nil fun p hp => ?_]
    have := hfg p hp
    rw [h p hp] at this
    simpa using this.symm
  | leaf v l =>
    intro t' pfx h h' hfg
    obtain ⟨hl, hfl, hno⟩ := h
    have hgl : (g l.path).map Prod.fst = some l.vh := by rw [← hfg _ hl, hfl]; rfl
    have hgno : ∀ p, Under pfx p → p ≠ l.path → g p = none := by
      intro p hp hne
      have := hfg p hp
      rw [hno p hp hne] at this
      simpa using this.symm
    cases t' with
    | nil => rw [h' _ hl] at hgl; cases hgl
    | leaf v' l' =>
      obtain ⟨hl', hgl', -⟩ := h'
      have hp : l'.path = l.path := by
        by_contra hne
        rw [hgno _ hl' hne] at hgl'; cases hgl'
      rw [← hp, hgl'] at hgl
      simp only [Option.map_some, Option.some.injEq] at hgl
      simp [ref, hp, hgl]
    | node v' ch' =>
      obtain ⟨⟨p, q, hpq, hp, hq, hgp, hgq⟩, -⟩ := h'
      by_cases hpl : p = l.path
      · rw [hgno q hq (by rw [← hpl]; exact hpq.symm)] at hgq; cases hgq
      · rw [hgno p hp hpl] at hgp; cases hgp
  | node v ch ih =>
    intro t' pfx h h' hfg
    obtain ⟨⟨p, q, hpq, hp, hq, hfp, hfq⟩, hch⟩ := h
    have hgp := (hsome (hfg p hp)).1 hfp
    have hgq := (hsome (hfg q hq)).1 hfq
    cases t' with
    | nil => rw [h' p hp] at hgp; cases hgp
    | leaf v' l' =>
      obtain ⟨-, -, hno⟩ := h'
      by_cases hpl : p = l'.path
      · rw [hno q hq (by rw [← hpl]; exact hpq.symm)] at hgq; cases hgq
      · rw [hno p hp hpl] at hgp; cases hgp
    | node v' ch' =>
      have hc : ∀ i, ((ch i).ref C).map (fun c => (c.hash, c.isLeaf)) =
          ((ch' i).ref C).map (fun c => (c.hash, c.isLeaf)) :=
        fun i => ih i (hch i) (h'.2 i) fun p hp => hfg p hp.of_snoc
      simp only [ref, Option.map_some]
      rw [subtreeHash_congr C hc]

/-- A tree determines its entries. -/
theorem Holds.unique {f g : Hash → Option (Hash × UInt64)} : ∀ {pfx : List Nib}, t.Holds f pfx →
    t.Holds g pfx → ∀ p, Under pfx p → f p = g p := by
  induction t with
  | nil => intro pfx hf hg p hp; rw [hf p hp, hg p hp]
  | leaf v l =>
    intro pfx hf hg p hp
    by_cases hpl : p = l.path
    · rw [hpl, hf.2.1, hg.2.1]
    · rw [hf.2.2 p hp hpl, hg.2.2 p hp hpl]
  | node v ch ih => intro pfx hf hg p hp; exact ih _ (hf.2 _) (hg.2 _) p hp.extend

/-- The value records of a tree are those of its entries. -/
theorem Holds.value_mem : ∀ {pfx : List Nib}, t.Holds f pfx →
    ∀ {p vh vv}, Record.value p vh vv ∈ t.recs C pfx → f p = some (vh, vv) := by
  induction t with
  | nil => intro pfx _ p vh vv hx; cases hx
  | leaf v l =>
    intro pfx h p vh vv hx
    rcases hx with hx | hx
    · cases hx
    · cases hx; exact h.2.1
  | node v ch ih =>
    intro pfx h p vh vv hx
    rcases hx with hx | ⟨i, hi⟩
    · cases hx
    · exact ih i (h.2 i) hi

/-- A position holds at most one node. -/
theorem Holds.node_unique : ∀ {pfx : List Nib}, t.Holds f pfx →
    ∀ {v v' q n n'}, Record.node ⟨v, q⟩ n ∈ t.recs C pfx → Record.node ⟨v', q⟩ n' ∈ t.recs C pfx → v = v' ∧ n = n' := by
  induction t with
  | nil => intro pfx _ v v' q n n' hx; cases hx
  | leaf w l =>
    intro pfx _ v v' q n n' hx hx'
    rcases hx with hx | hx
    · rcases hx' with hx' | hx'
      · cases hx; cases hx'; exact ⟨rfl, rfl⟩
      · cases hx'
    · cases hx
  | node w ch ih =>
    intro pfx h v v' q n n' hx hx'
    rcases hx with hx | ⟨i, hi⟩
    · rcases hx' with hx' | ⟨j, hj⟩
      · cases hx; cases hx'; exact ⟨rfl, rfl⟩
      · cases hx; exact absurd (recs_in (h.2 j) _ hj) (not_snoc_isPrefix _ j)
    · rcases hx' with hx' | ⟨j, hj⟩
      · cases hx'; exact absurd (recs_in (h.2 i) _ hi) (not_snoc_isPrefix _ i)
      · obtain rfl := isPrefix_snoc_inj (recs_in (h.2 i) _ hi) (recs_in (h.2 j) _ hj)
        exact ih i (h.2 i) hi hj

/-- **The records of a tree have distinct keys**, when a commitment belongs to one path. -/
theorem Holds.key_inj (h : t.Holds f pfx)
    {owner : Hash → Hash} (ho : ∀ p vh vv, f p = some (vh, vv) → owner vh = p) {x y : Record}
    (hx : x ∈ t.recs C pfx) (hy : y ∈ t.recs C pfx) (hk : x.key = y.key) : x = y := by
  cases x with
  | node nk n =>
    cases y with
    | node nk' n' =>
      obtain rfl := RecKey.node.inj hk
      rw [(h.node_unique hx hy).2]
    | value p vh v => cases hk
  | value p vh v =>
    cases y with
    | node nk' n' => cases hk
    | value p' vh' v' =>
      obtain ⟨rfl, rfl⟩ := RecKey.value.inj hk
      rw [← ho _ _ _ (h.value_mem hx), ← ho _ _ _ (h.value_mem hy)]

/-! ## Collapse -/

theorem mem_occupied {ch : Children} {i : Nib} {c : Child} : (i, c) ∈ occupied ch ↔ ch i = some c := by
  unfold occupied
  rw [List.mem_filterMap]
  constructor
  · rintro ⟨j, -, hj⟩
    rw [Option.map_eq_some_iff] at hj
    obtain ⟨d, hd, he⟩ := hj
    cases he; exact hd
  · intro h; exact ⟨i, List.mem_finRange i, by rw [h]; rfl⟩

theorem occupied_pairwise (ch : Children) : (occupied ch).Pairwise (fun a b => a.1 ≠ b.1) := by
  unfold occupied
  rw [List.pairwise_filterMap]
  refine (List.nodup_finRange 16).imp fun {a b} hab x hx y hy => ?_
  rw [Option.map_eq_some_iff] at hx hy
  obtain ⟨_, -, rfl⟩ := hx
  obtain ⟨_, -, rfl⟩ := hy
  exact hab

/-- The children of a node do not collapse to a leaf that rises, nor to nothing. -/
def Keeps (ch : Children) : Prop := ∃ e rest, occupied ch = e :: rest ∧ ¬ (rest = [] ∧ e.2.isLeaf = true)

variable {f : Hash → Option (Hash × UInt64)} {pfx : List Nib} {ch : Nib → Tree}

theorem Holds.child_ne_nil (hch : ∀ i, (ch i).Holds f (pfx ++ [i])) (hp : Under pfx p)
    (hf : (f p).isSome) : ∃ c, refs C ch (nibble p pfx.length) = some c := by
  rw [← Option.ne_none_iff_exists']
  intro h
  have hnil : ch (nibble p pfx.length) = nil := ref_eq_none.1 h
  have := hch (nibble p pfx.length)
  rw [hnil] at this
  rw [this p hp.extend] at hf
  cases hf

/-- **Two entries, no collapse.** -/
theorem two_paths_iff (hch : ∀ i, (ch i).Holds f (pfx ++ [i])) :
    (∃ p q, p ≠ q ∧ Under pfx p ∧ Under pfx q ∧ (f p).isSome ∧ (f q).isSome) ↔ Keeps (refs C ch) := by
  constructor
  · rintro ⟨p, q, hpq, hp, hq, hfp, hfq⟩
    obtain ⟨c, hc⟩ := Holds.child_ne_nil (C := C) hch hp hfp
    obtain ⟨d, hd⟩ := Holds.child_ne_nil (C := C) hch hq hfq
    have hcm := mem_occupied.2 hc
    have hdm := mem_occupied.2 hd
    cases ho : occupied (refs C ch) with
    | nil => rw [ho] at hcm; simp at hcm
    | cons e rest =>
      refine ⟨e, rest, ho ▸ rfl, ?_⟩
      rintro ⟨rfl, hleaf⟩
      rw [ho, List.mem_singleton] at hcm hdm
      -- both paths sit in the one slot, which is a leaf and holds one path
      have hi : nibble q pfx.length = nibble p pfx.length := by
        have := hdm.trans hcm.symm; exact (Prod.mk.inj this).1
      have hhold := hch (nibble p pfx.length)
      have hq' : Under (pfx ++ [nibble p pfx.length]) q := hi ▸ hq.extend
      rw [← hcm] at hleaf
      cases ht : ch (nibble p pfx.length) with
      | nil => simp [refs, ht] at hc
      | node v ch' => simp only [refs, ht, ref, Option.some.injEq] at hc; rw [← hc] at hleaf; cases hleaf
      | leaf v l =>
        rw [ht] at hhold
        obtain ⟨-, -, hno⟩ := hhold
        have hp1 : p = l.path := by
          by_contra hne; rw [hno p hp.extend hne] at hfp; cases hfp
        have hq1 : q = l.path := by
          by_contra hne; rw [hno q hq' hne] at hfq; cases hfq
        exact hpq (hp1.trans hq1.symm)
  · rintro ⟨⟨i, c⟩, rest, ho, hk⟩
    have hi : refs C ch i = some c := mem_occupied.1 (by rw [ho]; exact List.mem_cons_self)
    have hne : ∀ {j d}, refs C ch j = some d → ch j ≠ nil := by
      intro j d hj hn; simp [refs, hn] at hj
    cases rest with
    | cons e' rest =>
      obtain ⟨j, d⟩ := e'
      have hj : refs C ch j = some d := mem_occupied.1 (by rw [ho]; simp)
      have hij : i ≠ j := by
        have := occupied_pairwise (refs C ch)
        rw [ho, List.pairwise_cons] at this
        exact this.1 (j, d) (by simp)
      obtain ⟨p, hp, hfp⟩ := (hch i).exists_of_ne_nil (hne hi)
      obtain ⟨q, hq, hfq⟩ := (hch j).exists_of_ne_nil (hne hj)
      refine ⟨p, q, ?_, hp.of_snoc, hq.of_snoc, hfp, hfq⟩
      rintro rfl
      exact hij (under_ne hp hq)
    | nil =>
      have hnl : c.isLeaf ≠ true := fun h => hk ⟨rfl, h⟩
      have hhold := hch i
      cases ht : ch i with
      | nil => exact absurd ht (hne hi)
      | leaf v l => simp only [refs, ht, ref, Option.some.injEq] at hi; rw [← hi] at hnl; simp at hnl
      | node v ch' =>
        rw [ht] at hhold
        obtain ⟨⟨p, q, hpq, hp, hq, hfp, hfq⟩, -⟩ := hhold
        exact ⟨p, q, hpq, hp.of_snoc, hq.of_snoc, hfp, hfq⟩

theorem Holds.keeps {v : UInt64} (h : (node v ch).Holds f pfx) : Keeps (refs C ch) := (two_paths_iff h.2).1 h.1

/-- Children that do not collapse make a canonical node. -/
theorem holds_node_of_children (hch : ∀ i, (ch i).Holds f (pfx ++ [i])) (hk : Keeps (refs C ch)) (v : UInt64) :
    (node v ch).Holds f pfx := ⟨(two_paths_iff hch).2 hk, hch⟩

/-- A node of the tree has a child. -/
theorem Holds.node_ok {v : UInt64} (h : (node v ch).Holds f pfx) : (Node.internal (refs C ch)).Ok := by
  obtain ⟨⟨i, c⟩, rest, ho, -⟩ := h.keeps (C := C)
  have hi : refs C ch i = some c := mem_occupied.1 (by rw [ho]; exact List.mem_cons_self)
  exact ⟨i, by rw [hi]; rfl⟩

/-- Every node record of a canonical tree is one the codec can represent. -/
theorem Holds.recs_ok : ∀ {pfx : List Nib}, t.Holds f pfx → ∀ {nk n},
    Record.node nk n ∈ t.recs C pfx → n.Ok := by
  induction t with
  | nil => intro pfx _ nk n hx; cases hx
  | leaf v l =>
    intro pfx _ nk n hx
    rcases hx with hx | hx
    · cases hx; trivial
    · cases hx
  | node v ch ih =>
    intro pfx h nk n hx
    rcases hx with hx | ⟨i, hi⟩
    · cases hx; exact h.node_ok
    · exact ih i (h.2 i) hi

end Tree

end ImmutableLedger
