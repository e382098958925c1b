import ImmutableLedger.Tree.Build
import ImmutableLedger.Ledger.Commit

/-!
# Roots of logical maps

`rootOf M` is the root the store builds from scratch for the map `M` from paths to value commitments.
Storage is 16-ary and hashing binary: a node's hash is the digest of the entries below it along the bits
of their paths, so `rootOf` is the digest of the whole map (`rootOf_eq_digest`).

* `Holds.rootHash_eq`: any canonical tree of the entries of `M` has the root `rootOf M`.
* `Holds.rootHash_digest`: the hash of a canonical tree is the digest of its entries.
-/

namespace ImmutableLedger

open SparseMerkle

variable (C : Crypto)

/-- The leaves of a map, as older than the build. -/
def mapLeaves (M : OrdMap Hash Hash) : List LeafNode := M.entries.map fun e => ⟨e.1, e.2, 0⟩

/-- The root of the tree the store builds for a logical map (path to value commitment). -/
def rootOf (M : OrdMap Hash Hash) : Hash :=
  match buildFromPairs C nibbles { newVersion := 1 } [] (mapLeaves M) with
  | .ok (_, c) => rootHash C c
  | .error _ => placeholderHash C

/-- The node hash inputs of the tree of a map. -/
def treeInputs (M : OrdMap Hash Hash) : List (Input Hash Hash Hash) := inputs bitAt (nodeHash C) 256 0 M.entries

variable {C}

theorem mapLeaves_sorted (M : OrdMap Hash Hash) : (mapLeaves M).Pairwise fun a b => a.path < b.path := by
  unfold mapLeaves; rw [List.pairwise_map]; exact M.sorted

theorem leafMap_mapLeaves (M : OrdMap Hash Hash) (p : Hash) :
    leafMap (mapLeaves M) p = (M.get p).map fun vh => (vh, 0) := by
  apply Option.ext
  rintro ⟨vh, vv⟩
  rw [leafMap_eq_some (mapLeaves_sorted M), Option.map_eq_some_iff]
  unfold mapLeaves
  rw [List.mem_map]
  constructor
  · rintro ⟨e, hm, he⟩
    cases he
    exact ⟨e.2, OrdMap.mem_entries.1 hm, rfl⟩
  · rintro ⟨w, hm, he⟩
    exact ⟨(p, w), OrdMap.mem_entries.2 hm, by rw [← (Prod.mk.inj he).1, ← (Prod.mk.inj he).2]⟩

/-- The build behind `rootOf` succeeds, with a canonical tree of the map. -/
theorem exists_tree_rootOf (M : OrdMap Hash Hash) :
    ∃ t : Tree, t.Holds (fun p => (M.get p).map fun vh => (vh, 0)) [] ∧ rootOf C M = rootHash C (t.ref C) := by
  set R : Set Record := {x | ∃ l ∈ mapLeaves M, x = .value l.path l.vh l.valueVersion} with hR
  have hver : ∀ l ∈ mapLeaves M, l.valueVersion = 0 := by
    intro l hl
    obtain ⟨e, -, rfl⟩ := List.mem_map.1 hl; rfl
  have hT : Tracks (fun x => x) (fun _ _ _ => True) { newVersion := 1 } [] R := {
    region := by rintro x ⟨l, -, rfl⟩; exact under_nil _
    pend := by
      intro nk n _ _
      constructor
      · intro h; cases h
      · rintro ⟨l, -, h⟩; cases h
    val_in := by
      rintro vh ⟨l, hl, h⟩
      have := (Record.value.inj h).2.2
      rw [hver l hl] at this; cases this
    val_out := fun vh _ _ => rfl }
  obtain ⟨acc', t, he, -, hH, -, -⟩ := buildFromPairs_spec (C := C) nibbles { newVersion := 1 } [] (mapLeaves M) R rfl hT
    ⟨fun x hx => hx, fun l hl hv => (by rw [hver l hl] at hv; cases hv), fun l hl => by rw [hver l hl]; decide,
      fun l hl _ => ⟨l, hl, rfl⟩, fun l hl hv => (by rw [hver l hl] at hv; cases hv)⟩
    (mapLeaves_sorted M) (fun l _ => under_nil _)
  refine ⟨t, hH.congr fun p _ => leafMap_mapLeaves M p, ?_⟩
  unfold rootOf
  rw [he]

theorem rootHash_congr {c d : Option Child} (h : c.map (fun c => (c.hash, c.isLeaf)) = d.map (fun c => (c.hash, c.isLeaf))) :
    rootHash C c = rootHash C d := by
  cases c <;> cases d <;> simp [rootHash] at h ⊢
  exact h.1

/-- **The root is a function of the logical map**: any canonical tree of its entries has it. -/
theorem Tree.Holds.rootHash_eq {t : Tree} {f : Hash → Option (Hash × UInt64)} {M : OrdMap Hash Hash}
    (hH : t.Holds f []) (hf : ∀ p, (f p).map Prod.fst = M.get p) : rootHash C (t.ref C) = rootOf C M := by
  obtain ⟨t', hH', hr⟩ := exists_tree_rootOf (C := C) M
  rw [hr]
  refine rootHash_congr (hH.hash_eq hH' fun p _ => ?_)
  rw [hf p, Option.map_map]
  cases M.get p <;> rfl

/-! ## Nodes as digests -/

/-- The entries whose nibble at depth `d` is among the `2 ^ lvl` from `start`. -/
def inRange (d start lvl : ℕ) (L : List (Hash × Hash)) : List (Hash × Hash) :=
  L.filter fun e => decide (start ≤ (nibble e.1 d).val) && decide ((nibble e.1 d).val < start + 2 ^ lvl)

theorem mem_inRange {d start lvl : ℕ} {L : List (Hash × Hash)} {e : Hash × Hash} :
    e ∈ inRange d start lvl L ↔ e ∈ L ∧ start ≤ (nibble e.1 d).val ∧ (nibble e.1 d).val < start + 2 ^ lvl := by
  simp [inRange]

/-- Bit `3 - lvl` of nibble `d` halves an aligned range of `2 ^ (lvl + 1)` slots. -/
theorem side_inRange {d start lvl : ℕ} (hl : lvl < 4) (ha : 2 ^ (lvl + 1) ∣ start) (L : List (Hash × Hash)) (b : Bool) :
    side bitAt (4 * d + (3 - lvl)) b (inRange d start (lvl + 1) L) =
      inRange d (if b then start + 2 ^ lvl else start) lvl L := by
  unfold side inRange
  rw [List.filter_filter]
  congr 1
  funext e
  rw [bitAt_nibble e.1 d (by omega), show 3 - (3 - lvl) = lvl by omega]
  generalize (nibble e.1 d).val = x
  obtain ⟨k, rfl⟩ := ha
  have hp : 0 < 2 ^ lvl := Nat.pow_pos (by omega)
  rw [Nat.testBit_eq_decide_div_mod_eq, show 2 ^ (lvl + 1) = 2 * 2 ^ lvl by rw [pow_succ]; ring]
  generalize 2 ^ lvl = w at hp
  -- all bounds in terms of the quotient by the half width
  have hle : ∀ q, q * w ≤ x ↔ q ≤ x / w := fun q => (Nat.le_div_iff_mul_le hp).symm
  have hlt : ∀ q, x < q * w ↔ x / w < q := fun q => (Nat.div_lt_iff_lt_mul hp).symm
  have a1 : 2 * w * k ≤ x ↔ 2 * k ≤ x / w := by rw [← hle]; ring_nf
  have a2 : x < 2 * w * k + 2 * w ↔ x / w < 2 * k + 2 := by rw [← hlt]; ring_nf
  have a3 : 2 * w * k + w ≤ x ↔ 2 * k + 1 ≤ x / w := by rw [← hle]; ring_nf
  have a4 : x < 2 * w * k + w ↔ x / w < 2 * k + 1 := by rw [← hlt]; ring_nf
  have a5 : x < 2 * w * k + w + w ↔ x / w < 2 * k + 2 := by rw [← hlt]; ring_nf
  rw [Bool.eq_iff_iff]
  cases b
  · simp only [Bool.false_eq_true, if_false, Bool.and_eq_true, decide_eq_true_eq, a1, a2, a4, beq_false,
      Bool.not_eq_true', decide_eq_false_iff_not]
    omega
  · simp only [if_true, Bool.and_eq_true, decide_eq_true_eq, a1, a2, a3, a5, beq_true]
    omega

/-- `L` lists the committed entries of `f` under `pfx`. -/
structure Lists (f : Hash → Option (Hash × UInt64)) (pfx : List Nib) (L : List (Hash × Hash)) : Prop where
  nodup : (L.map Prod.fst).Nodup
  mem : ∀ e, e ∈ L ↔ Under pfx e.1 ∧ (f e.1).map Prod.fst = some e.2

section
variable {f : Hash → Option (Hash × UInt64)} {pfx : List Nib} {L : List (Hash × Hash)} {ch : Nib → Tree}

theorem Lists.sublist {L' : List (Hash × Hash)} (hL : Lists f pfx L) (h : L'.Sublist L) : L'.Nodup :=
  List.Nodup.of_map _ ((h.map Prod.fst).nodup hL.nodup)

theorem Lists.child (hL : Lists f pfx L) (i : Nib) : Lists f (pfx ++ [i]) (inRange pfx.length i.val 0 L) where
  nodup := (List.filter_sublist.map Prod.fst).nodup hL.nodup
  mem e := by
    rw [mem_inRange, hL.mem, under_snoc, Fin.ext_iff]
    constructor
    · rintro ⟨⟨h1, h2⟩, h3, h4⟩; exact ⟨⟨h1, by omega⟩, h2⟩
    · rintro ⟨⟨h1, h2⟩, h3⟩; exact ⟨⟨h1, h3⟩, by omega, by omega⟩

theorem Lists.isSome (hL : Lists f pfx L) {e : Hash × Hash} (he : e ∈ L) : (f e.1).isSome := by
  have := ((hL.mem e).1 he).2
  rw [← Option.isSome_map (x := f e.1) (f := Prod.fst), this]; rfl

/-- An entry of `f` is listed. -/
theorem Lists.exists_mem (hL : Lists f pfx L) {p : Hash} (hp : Under pfx p) (hf : (f p).isSome) :
    ∃ vh, (p, vh) ∈ L := by
  obtain ⟨e, he⟩ := Option.isSome_iff_exists.1 hf
  exact ⟨e.1, (hL.mem _).2 ⟨hp, by rw [he]; rfl⟩⟩

theorem eq_singleton_of_nodup {α : Type} {l : List α} {a : α} (hn : l.Nodup) (ha : a ∈ l) (h : ∀ b ∈ l, b = a) :
    l = [a] := by
  rcases l with _ | ⟨b, _ | ⟨c, l⟩⟩
  · simp at ha
  · rw [h b (by simp)]
  · have hb := h b (by simp)
    have hc := h c (by simp)
    simp [hb, hc] at hn

theorem two_le_length {α : Type} {l : List α} {a b : α} (ha : a ∈ l) (hb : b ∈ l) (hne : a ≠ b) : 2 ≤ l.length := by
  rcases l with _ | ⟨c, _ | ⟨d, l⟩⟩
  · simp at ha
  · simp at ha hb; exact absurd (ha.trans hb.symm) hne
  · simp

/-- A lone entry: the leaf of the one occupied slot. -/
theorem Lists.eq_of_leaf (hL : Lists f pfx L) {v : UInt64} {l : LeafNode} (hH : (Tree.leaf v l).Holds f pfx) :
    L = [(l.path, l.vh)] := by
  obtain ⟨hl, hfl, hno⟩ := hH
  refine eq_singleton_of_nodup (List.Nodup.of_map _ hL.nodup) ((hL.mem _).2 ⟨hl, by rw [hfl]; rfl⟩) fun e he => ?_
  obtain ⟨hu, hv⟩ := (hL.mem e).1 he
  have hp : e.1 = l.path := by
    by_contra hne
    rw [hno e.1 hu hne] at hv; cases hv
  rw [hp, hfl] at hv
  exact Prod.ext hp (Option.some.inj hv).symm

theorem slot_refs {i : ℕ} {c : Child} (h : slot (Tree.refs C ch) i = some c) :
    ∃ j : Nib, j.val = i ∧ (ch j).ref C = some c := by
  unfold slot at h
  split at h
  · rename_i hi; exact ⟨⟨i, hi⟩, rfl, h⟩
  · cases h

/-- An entry in a range has its slot occupied. -/
theorem Lists.presentAt (hL : Lists f pfx L) (hch : ∀ i, (ch i).Holds f (pfx ++ [i])) {start lvl : ℕ}
    {e : Hash × Hash} (he : e ∈ inRange pfx.length start lvl L) :
    ∃ c, ((nibble e.1 pfx.length).val, c) ∈ ImmutableLedger.presentAt (Tree.refs C ch) start (2 ^ lvl) := by
  obtain ⟨hm, h1, h2⟩ := mem_inRange.1 he
  obtain ⟨c, hc⟩ := Tree.Holds.child_ne_nil (C := C) hch ((hL.mem e).1 hm).1 (hL.isSome hm)
  refine ⟨c, mem_presentAt.2 ⟨h1, h2, ?_⟩⟩
  unfold slot
  rw [dif_pos (nibble e.1 pfx.length).isLt]
  exact hc

/-- **A range of slots and its entries**: both empty, one leaf and its entry, or two entries and no lone
leaf. -/
theorem range_cases (hch : ∀ i, (ch i).Holds f (pfx ++ [i])) (hL : Lists f pfx L) (start lvl : ℕ) :
    (presentAt (Tree.refs C ch) start (2 ^ lvl) = [] ∧ inRange pfx.length start lvl L = []) ∨
    (∃ (j : Nib) (v : UInt64) (l : LeafNode), ch j = .leaf v l ∧ inRange pfx.length start lvl L = [(l.path, l.vh)] ∧
      presentAt (Tree.refs C ch) start (2 ^ lvl) = [(j.val, ⟨v, leafHash C l.path l.vh, true⟩)]) ∨
    (2 ≤ (inRange pfx.length start lvl L).length ∧ presentAt (Tree.refs C ch) start (2 ^ lvl) ≠ [] ∧
      ∀ i c, presentAt (Tree.refs C ch) start (2 ^ lvl) = [(i, c)] → c.isLeaf = false) := by
  have hmem : ∀ {i c}, (i, c) ∈ presentAt (Tree.refs C ch) start (2 ^ lvl) →
      ∃ j : Nib, j.val = i ∧ (ch j).ref C = some c ∧
        ∀ e ∈ inRange pfx.length j.val 0 L, e ∈ inRange pfx.length start lvl L := by
    intro i c hm
    obtain ⟨h1, h2, h3⟩ := mem_presentAt.1 hm
    obtain ⟨j, hj, hc⟩ := slot_refs h3
    refine ⟨j, hj, hc, fun e he => ?_⟩
    obtain ⟨he1, he2, he3⟩ := mem_inRange.1 he
    exact mem_inRange.2 ⟨he1, by omega, by omega⟩
  have hsome : ∀ {j : Nib} {c}, (ch j).ref C = some c → ∃ e, e ∈ inRange pfx.length j.val 0 L := by
    intro j c hc
    have hne : ch j ≠ .nil := by
      intro hn; rw [hn] at hc; cases hc
    obtain ⟨p, hp, hf⟩ := (hch j).exists_of_ne_nil hne
    obtain ⟨vh, hvh⟩ := (hL.child j).exists_mem hp hf
    exact ⟨_, hvh⟩
  rcases hP : presentAt (Tree.refs C ch) start (2 ^ lvl) with _ | ⟨⟨i, c⟩, _ | ⟨⟨i', c'⟩, rest⟩⟩
  · refine .inl ⟨rfl, ?_⟩
    rw [List.eq_nil_iff_forall_not_mem]
    intro e he
    obtain ⟨c, hc⟩ := hL.presentAt (C := C) hch he
    rw [hP] at hc; simp at hc
  · obtain ⟨j, hj, hc, hsub⟩ := hmem (i := i) (c := c) (by rw [hP]; simp)
    have hjL := hL.child j
    have hHj := hch j
    cases ht : ch j with
    | nil => rw [ht] at hc; cases hc
    | leaf v l =>
      rw [ht] at hc hHj
      cases hc
      have hone := hjL.eq_of_leaf hHj
      refine .inr (.inl ⟨j, v, l, ht, ?_, by rw [hj]⟩)
      refine eq_singleton_of_nodup (hL.sublist List.filter_sublist) (hsub _ (by rw [hone]; simp)) fun e he => ?_
      obtain ⟨d, hd'⟩ := hL.presentAt (C := C) hch he
      rw [hP, List.mem_singleton] at hd'
      have hnib := (Prod.mk.inj hd').1
      have : e ∈ inRange pfx.length j.val 0 L := mem_inRange.2 ⟨(mem_inRange.1 he).1, by omega, by omega⟩
      rw [hone] at this
      exact List.mem_singleton.1 this
    | node v ch' =>
      rw [ht] at hc hHj
      cases hc
      obtain ⟨⟨p, q, hpq, hp', hq', hfp, hfq⟩, -⟩ := hHj
      obtain ⟨vp, hvp⟩ := hjL.exists_mem hp' hfp
      obtain ⟨vq, hvq⟩ := hjL.exists_mem hq' hfq
      refine .inr (.inr ⟨two_le_length (hsub _ hvp) (hsub _ hvq) fun he => hpq (Prod.mk.inj he).1, by simp, ?_⟩)
      intro i' c' he
      cases he; rfl
  · obtain ⟨j, hj, hc, hsub⟩ := hmem (i := i) (c := c) (by rw [hP]; simp)
    obtain ⟨j', hj', hc', hsub'⟩ := hmem (i := i') (c := c') (by rw [hP]; simp)
    have hlt : i < i' := by
      have := presentAt_pairwise (Tree.refs C ch) start (2 ^ lvl)
      rw [hP, List.pairwise_cons] at this
      exact this.1 (i', c') (by simp)
    obtain ⟨e, he⟩ := hsome hc
    obtain ⟨e', he'⟩ := hsome hc'
    refine .inr (.inr ⟨two_le_length (hsub e he) (hsub' e' he') ?_, by simp, fun _ _ h => by cases h⟩)
    rintro rfl
    have h1 := (mem_inRange.1 he).2
    have h2 := (mem_inRange.1 he').2
    omega

/-- A range that is not empty and not a lone leaf hashes by its halves. -/
theorem subtreeHash_halves {ch : Children} {start lvl : ℕ} (hne : presentAt ch start (2 ^ (lvl + 1)) ≠ [])
    (hleaf : ∀ i c, presentAt ch start (2 ^ (lvl + 1)) = [(i, c)] → c.isLeaf = false) :
    subtreeHash C ch start (lvl + 1) =
      internalHash C (subtreeHash C ch start lvl) (subtreeHash C ch (start + 2 ^ lvl) lvl) := by
  rw [subtreeHash, present_eq]
  rcases hP : presentAt ch start (2 ^ (lvl + 1)) with _ | ⟨⟨i, c⟩, _ | ⟨e, rest⟩⟩
  · exact absurd hP hne
  · simp [hleaf i c hP]
  · rfl

/-- Half of an aligned range. -/
theorem dvd_half {lvl start : ℕ} (ha : 2 ^ (lvl + 1) ∣ start) : 2 ^ lvl ∣ start :=
  dvd_trans ⟨2, by rw [pow_succ]⟩ ha

/-- **The 16 slots of a node hash as four levels of binary digests.** -/
theorem subtreeHash_digest (hch : ∀ i, (ch i).Holds f (pfx ++ [i])) (hL : Lists f pfx L)
    (ih : ∀ i : Nib, rootHash C ((ch i).ref C) =
      digest bitAt (nodeHash C) (252 - 4 * pfx.length) (4 * pfx.length + 4) (inRange pfx.length i.val 0 L)) :
    ∀ lvl, lvl ≤ 4 → ∀ start, 2 ^ lvl ∣ start → start + 2 ^ lvl ≤ 16 →
      subtreeHash C (Tree.refs C ch) start lvl =
        digest bitAt (nodeHash C) (252 - 4 * pfx.length + lvl) (4 * pfx.length + (4 - lvl))
          (inRange pfx.length start lvl L) := by
  intro lvl
  induction lvl with
  | zero =>
    intro _ start _ hs
    have h := ih ⟨start, by omega⟩
    rw [subtreeHash]
    unfold slot
    rw [dif_pos (by omega : start < 16)]
    exact h
  | succ lvl hrec =>
    intro hl start ha hs
    have hp : 2 ^ (lvl + 1) = 2 ^ lvl + 2 ^ lvl := by rw [pow_succ]; ring
    obtain ⟨hP, hnil⟩ | ⟨j, v, l, -, hone, hP⟩ | ⟨h2, hne, hleaf⟩ := range_cases (C := C) hch hL start (lvl + 1)
    · rw [subtreeHash, present_eq, hP, hnil]
      simp [digest]
    · rw [subtreeHash, present_eq, hP, hone]
      simp [digest]
    · rw [subtreeHash_halves hne hleaf, hrec (by omega) start (dvd_half ha) (by omega),
        hrec (by omega) (start + 2 ^ lvl) (Dvd.dvd.add (dvd_half ha) dvd_rfl) (by omega),
        show 4 - (lvl + 1) = 3 - lvl by omega, ← add_assoc, digest_node h2, nodeHash_node,
        side_inRange (by omega) ha L false, side_inRange (by omega) ha L true,
        show 4 * pfx.length + (3 - lvl) + 1 = 4 * pfx.length + (4 - lvl) by omega]
      rfl

/-- **The hash of a canonical tree is the digest of its entries.** -/
theorem Tree.Holds.rootHash_digest {t : Tree} : ∀ {pfx : List Nib} {L : List (Hash × Hash)}, t.Holds f pfx →
    pfx.length ≤ 64 → Lists f pfx L →
    rootHash C (t.ref C) = digest bitAt (nodeHash C) (256 - 4 * pfx.length) (4 * pfx.length) L := by
  induction t with
  | nil =>
    intro pfx L hH _ hL
    have : L = [] := by
      rw [List.eq_nil_iff_forall_not_mem]
      intro e he
      obtain ⟨hu, hv⟩ := (hL.mem e).1 he
      rw [hH e.1 hu] at hv; cases hv
    rw [this]
    simp [digest, rootHash]
  | leaf v l =>
    intro pfx L hH _ hL
    rw [hL.eq_of_leaf hH]
    simp [digest, rootHash, Tree.ref]
  | node v ch ih =>
    intro pfx L hH hlen hL
    have hd := hH.depth_lt
    have h := subtreeHash_digest (C := C) hH.2 hL (fun i => by
      have := ih i (hH.2 i) (by simp; omega) (hL.child i)
      rw [this]
      simp only [List.length_append, List.length_singleton]
      congr 1
      omega) 4 le_rfl 0 (by simp) (by norm_num)
    have hall : inRange pfx.length 0 4 L = L := by
      unfold inRange
      rw [List.filter_eq_self]
      intro e _
      simp
    rw [hall] at h
    show subtreeHash C (Tree.refs C ch) 0 4 = _
    rw [h]
    congr 1
    omega

end

/-! ## The root as a digest -/

theorem lists_entries (M : OrdMap Hash Hash) (w : UInt64) : Lists (fun p => (M.get p).map fun vh => (vh, w)) [] M.entries where
  nodup := M.nodup_keys
  mem e := by
    rw [show e = (e.1, e.2) from rfl, OrdMap.mem_entries, Option.map_map]
    simp only [under_nil, true_and]
    cases M.get e.1 <;> simp

theorem sep_entries (M : OrdMap Hash Hash) : Sep bitAt 256 0 M.entries := by
  refine M.sorted.imp fun {a b} hab => ?_
  by_contra hne
  refine hab.ne (bitAt_ext fun i hi => ?_)
  by_contra hb
  exact hne ⟨i, by omega, by omega, hb⟩

/-- **The root of a logical map is the digest of its entries.** -/
theorem rootOf_eq_digest (M : OrdMap Hash Hash) : rootOf C M = digest bitAt (nodeHash C) 256 0 M.entries := by
  obtain ⟨t, hH, hr⟩ := exists_tree_rootOf (C := C) M
  rw [hr]
  exact hH.rootHash_digest (by simp) (lists_entries M 0)

end ImmutableLedger
