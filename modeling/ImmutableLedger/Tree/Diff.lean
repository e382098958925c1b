import ImmutableLedger.Ledger.Audit
import ImmutableLedger.Tree.Read
import ImmutableLedger.Tree.Root

/-!
# The lockstep walk of two trees

The walk of `ChangesAt` over two stored canonical trees. Where the hashes of two subtrees are equal the walk skips
them, and the entries below have the same commitments; everywhere else it collects the leaves of both.

* `Located`: the entries under a position, with the inputs their digest hashes; kept from a node to its children.
* `Located.same_of_hash`: equal hashes at one position, equal commitments below it.
* `Diffed`: what the walk has done to the collected leaves; `yields_diffChildren` shows that it does.
-/

namespace ImmutableLedger

open EStateM SparseMerkle

variable {C : Crypto}

/-! ## Subtrees with equal hashes -/

/-- `L` lists the committed entries of `f` under `pfx`, and what their digest hashes is in `S`. -/
structure Located (C : Crypto) (S : Set (Input Hash Hash Hash)) (f : Hash → Option (Hash × UInt64)) (pfx : List Nib)
    (L : List (Hash × Hash)) : Prop where
  lists : Lists f pfx L
  sep : Sep bitAt (256 - 4 * pfx.length) (4 * pfx.length) L
  hashed : L ≠ [] → ∀ x ∈ inputs bitAt (nodeHash C) (256 - 4 * pfx.length) (4 * pfx.length) L, x ∈ S

section
variable {S : Set (Input Hash Hash Hash)} {f f' : Hash → Option (Hash × UInt64)} {pfx : List Nib}
  {L L' : List (Hash × Hash)}

theorem located_none : Located C S (fun _ => none) pfx [] :=
  ⟨⟨List.nodup_nil, fun e => ⟨fun h => (by cases h), fun h => (by cases h.2)⟩⟩, List.Pairwise.nil, fun h => absurd rfl h⟩

/-- **The slots of a node narrow down bit by bit**: the entries of an aligned range are told apart by the bits left,
and what they hash is hashed for the node. -/
theorem Located.range (h : Located C S f pfx L) (hd : pfx.length < 64) (i : Nib) : ∀ j, j ≤ 4 →
    ∃ start, 2 ^ (4 - j) ∣ start ∧ start ≤ i.val ∧ i.val < start + 2 ^ (4 - j) ∧
      Sep bitAt (252 - 4 * pfx.length + (4 - j)) (4 * pfx.length + j) (inRange pfx.length start (4 - j) L) ∧
      (inRange pfx.length start (4 - j) L ≠ [] → ∀ x ∈ inputs bitAt (nodeHash C) (252 - 4 * pfx.length + (4 - j))
        (4 * pfx.length + j) (inRange pfx.length start (4 - j) L), x ∈ S) := by
  intro j
  induction j with
  | zero =>
    intro _
    have hall : inRange pfx.length 0 4 L = L := by
      unfold inRange
      rw [List.filter_eq_self]
      intro e _
      simp
    have hbits : 252 - 4 * pfx.length + 4 = 256 - 4 * pfx.length := by omega
    refine ⟨0, by simp, Nat.zero_le _, by simp, ?_, ?_⟩
    · show Sep bitAt (252 - 4 * pfx.length + 4) (4 * pfx.length) (inRange pfx.length 0 4 L)
      rw [hall, hbits]
      exact h.sep
    · show inRange pfx.length 0 4 L ≠ [] → ∀ x ∈ inputs bitAt (nodeHash C) (252 - 4 * pfx.length + 4) (4 * pfx.length)
        (inRange pfx.length 0 4 L), x ∈ S
      rw [hall, hbits]
      exact h.hashed
  | succ j ih =>
    intro hj
    obtain ⟨start, hdvd, hlo, hhi, hsep, hin⟩ := ih (by omega)
    obtain ⟨lvl, hlvl⟩ : ∃ lvl, 4 - j = lvl + 1 := ⟨3 - j, by omega⟩
    have hlvl' : 4 - (j + 1) = lvl := by omega
    rw [hlvl] at hdvd hhi hsep hin
    rw [hlvl']
    have hpow : 2 ^ (lvl + 1) = 2 ^ lvl + 2 ^ lvl := by rw [pow_succ]; ring
    -- the half that has the slot
    set b : Bool := decide (start + 2 ^ lvl ≤ i.val) with hb
    have hside := @side_inRange pfx.length start lvl (by omega) hdvd L b
    rw [show 3 - lvl = j by omega] at hside
    have hsep' := hsep.side b
    rw [hside] at hsep'
    refine ⟨if b then start + 2 ^ lvl else start, ?_, ?_, ?_, hsep', ?_⟩
    · split
      · exact Dvd.dvd.add (dvd_half hdvd) dvd_rfl
      · exact dvd_half hdvd
    · split
      · rename_i hcase
        exact of_decide_eq_true hcase
      · exact hlo
    · split
      · omega
      · rename_i hcase
        have hlt : ¬ start + 2 ^ lvl ≤ i.val := fun hle => hcase (decide_eq_true hle)
        omega
    · intro hne x hx
      rw [← hside] at hne hx
      have hwhole : inRange pfx.length start (lvl + 1) L ≠ [] := by
        intro hnil
        rw [hnil] at hne
        exact hne rfl
      exact hin hwhole x (inputs_side_of_ne_nil hne x hx)

/-- **The children of a node are located.** -/
theorem Located.child (h : Located C S f pfx L) (hd : pfx.length < 64) (i : Nib) :
    Located C S f (pfx ++ [i]) (inRange pfx.length i.val 0 L) := by
  obtain ⟨start, -, hlo, hhi, hsep, hin⟩ := h.range hd i 4 le_rfl
  have hstart : start = i.val := by
    simp only [Nat.sub_self, pow_zero] at hhi
    omega
  subst hstart
  have hlen : (pfx ++ [i]).length = pfx.length + 1 := by simp
  have hbits : 256 - 4 * (pfx.length + 1) = 252 - 4 * pfx.length := by omega
  have hpos : 4 * (pfx.length + 1) = 4 * pfx.length + 4 := by ring
  refine ⟨h.lists.child i, ?_, ?_⟩
  · rw [hlen, hbits, hpos]
    exact hsep
  · rw [hlen, hbits, hpos]
    exact hin

/-- **Equal hashes at one position, equal commitments below it.** -/
theorem Located.same_of_hash (hinj : Set.InjOn (nodeHash C) S) (h : Located C S f pfx L) (h' : Located C S f' pfx L')
    {t t' : Tree} (hH : t.Holds f pfx) (hH' : t'.Holds f' pfx) (hne : t ≠ .nil) (hne' : t' ≠ .nil)
    (hlen : pfx.length ≤ 64) (heq : rootHash C (t.ref C) = rootHash C (t'.ref C)) {p : Hash} (hp : Under pfx p) :
    (f p).map Prod.fst = (f' p).map Prod.fst := by
  have hfull : ∀ {f : Hash → Option (Hash × UInt64)} {L : List (Hash × Hash)} {t : Tree}, Lists f pfx L →
      t.Holds f pfx → t ≠ .nil → L ≠ [] := by
    intro f L t hL hH hne
    obtain ⟨q, hq, hf⟩ := hH.exists_of_ne_nil hne
    obtain ⟨vh, hm⟩ := hL.exists_mem hq hf
    exact List.ne_nil_of_mem hm
  rw [hH.rootHash_digest hlen h.lists, hH'.rootHash_digest hlen h'.lists] at heq
  have hsame := digest_binding hinj h.sep h'.sep (h.hashed (hfull h.lists hH hne)) (h'.hashed (hfull h'.lists hH' hne')) heq
  apply Option.ext
  intro vh
  have hm := h.lists.mem (p, vh)
  have hm' := h'.lists.mem (p, vh)
  have hpq := hsame (p, vh)
  constructor
  · intro hv
    exact (hm'.1 (hpq.1 (hm.2 ⟨hp, hv⟩))).2
  · intro hv
    exact (hm.1 (hpq.2 (hm'.2 ⟨hp, hv⟩))).2

/-- The whole of a map, whose tree hashes only what is in `S`. -/
theorem located_map {M : OrdMap Hash Hash} (hf : ∀ p, (f p).map Prod.fst = M.get p)
    (hS : ∀ x ∈ treeInputs C M, x ∈ S) : Located C S f [] M.entries where
  lists := by
    refine ⟨M.nodup_keys, fun e => ?_⟩
    rw [hf e.1, show e = (e.1, e.2) from rfl, OrdMap.mem_entries]
    simp
  sep := sep_entries M
  hashed _ := hS

end

/-! ## The top of a tree -/

/-- The leaf of an entry. -/
def entryLeaf (p : Hash) (e : Hash × UInt64) : LeafNode := ⟨p, e.1, e.2⟩

namespace Tree

/-- The child of the top node at a slot. -/
def kid : Tree → Nib → Tree
  | node _ ch, i => ch i
  | _, _ => nil

/-- The entries below the top node, when it is not a leaf. -/
def lower (f : Hash → Option (Hash × UInt64)) : Tree → Hash → Option (Hash × UInt64)
  | node _ _ => f
  | _ => fun _ => none

variable {t : Tree} {f : Hash → Option (Hash × UInt64)} {pfx : List Nib}

theorem Holds.kid (h : t.Holds f pfx) (i : Nib) : (t.kid i).Holds (t.lower f) (pfx ++ [i]) := by
  cases t with
  | nil | leaf v l => exact fun _ _ => rfl
  | node v ch => exact h.2 i

theorem mem_recs_kid {i : Nib} {x : Record} (hx : x ∈ (t.kid i).recs C (pfx ++ [i])) : x ∈ t.recs C pfx := by
  cases t with
  | nil => cases hx
  | leaf v l => cases hx
  | node v ch => exact .inr ⟨i, hx⟩

theorem slots_top (i : Nib) : ((slotsOf (t.top C)).getD fun _ => none) i = (t.kid i).ref C := by cases t <;> rfl

theorem slotsOf_top_none (h : slotsOf (t.top C) = none) (p : Hash) : t.lower f p = none := by
  cases t with
  | nil => rfl
  | leaf v l => rfl
  | node v ch => cases h

/-- A leaf at the top is collected, and what is not at the top is below it. -/
theorem Holds.collectLeaf_top (h : t.Holds f pfx) (out : LeafMap) {p : Hash} (hp : Under pfx p) :
    ((t.lower f p).map (entryLeaf p)).or ((collectLeaf (t.top C) out).get p) =
      ((f p).map (entryLeaf p)).or (out.get p) := by
  cases t with
  | nil =>
    rw [h p hp]
    rfl
  | leaf v l =>
    obtain ⟨hl, hfl, hno⟩ := h
    show (out.insert l.path l).get p = _
    rw [OrdMap.get_insert]
    by_cases hpl : p = l.path
    · rw [if_pos hpl, hpl, hfl]
      rfl
    · rw [if_neg hpl, hno p hp hpl]
      rfl
  | node v ch => rfl

theorem Holds.collectLeaf_other (h : t.Holds f pfx) (out : LeafMap) {p : Hash} (hp : ¬ Under pfx p) :
    (collectLeaf (t.top C) out).get p = out.get p := by
  cases t with
  | nil => rfl
  | leaf v l =>
    show (out.insert l.path l).get p = _
    rw [OrdMap.get_insert, if_neg]
    rintro rfl
    exact hp h.1
  | node v ch => rfl

end Tree

variable {S : Set (Input Hash Hash Hash)}

/-- The entries below the top of a located tree are located. -/
theorem Located.lower {f : Hash → Option (Hash × UInt64)} {pfx : List Nib}
    {L : List (Hash × Hash)} {t : Tree} (h : Located C S f pfx L) (hd : pfx.length < 64) (i : Nib) :
    ∃ K, Located C S (t.lower f) (pfx ++ [i]) K := by
  cases t with
  | node v ch => exact ⟨_, h.child hd i⟩
  | _ => exact ⟨[], located_none⟩

/-! ## The walk -/

variable {s : Store MemBackend} {G : Hash → Hash → Bytes → Prop}

/-- The node of a stored subtree. -/
theorem yields_diffLoad {t : Tree} {pfx : List Nib} (hst : ∀ x ∈ t.recs C pfx, Stored G s x) :
    Yields (Around s) (diffLoad C (t.ref C) pfx) (.ok (t.top C)) := by
  cases t with
  | nil => exact Yields.pure _
  | leaf v l | node v ch => exact (yields_loadNode (hst _ (.inl rfl)) rfl).bind (Yields.pure _)

/-- What the walk did about a path: it collected the entries of both trees, or neither, and then their commitments
are the same. -/
def DiffedAt (f f' : Hash → Option (Hash × UInt64)) (out out' : LeafMap × LeafMap) (p : Hash) : Prop :=
  (out'.1.get p = ((f p).map (entryLeaf p)).or (out.1.get p) ∧
    out'.2.get p = ((f' p).map (entryLeaf p)).or (out.2.get p)) ∨
  (out'.1.get p = out.1.get p ∧ out'.2.get p = out.2.get p ∧ (f p).map Prod.fst = (f' p).map Prod.fst)

/-- The walk at `pfx` did its work on the paths below, and left the others alone. -/
structure Diffed (f f' : Hash → Option (Hash × UInt64)) (pfx : List Nib) (out out' : LeafMap × LeafMap) : Prop where
  under : ∀ p, Under pfx p → DiffedAt f f' out out' p
  other : ∀ p, ¬ Under pfx p → out'.1.get p = out.1.get p ∧ out'.2.get p = out.2.get p

/-- Nothing collected where nothing is. -/
theorem diffedAt_none {f f' : Hash → Option (Hash × UInt64)} {out : LeafMap × LeafMap} {p : Hash} (hf : f p = none)
    (hf' : f' p = none) : DiffedAt f f' out out p := .inl ⟨by rw [hf]; rfl, by rw [hf']; rfl⟩

section
variable {f f' : Hash → Option (Hash × UInt64)} {pfx : List Nib}

/-- **The loop over the slots** does the work of every slot. -/
theorem yields_diffSlots {ca cb : Children}
    {sub : Nib → Option Child → Option Child → LeafMap × LeafMap → LedgerM MemBackend (LeafMap × LeafMap)}
    (hsub : ∀ i out, ∃ out', Yields (Around s) (sub i (ca i) (cb i) out) (.ok out') ∧
      Diffed f f' (pfx ++ [i]) out out') :
    ∀ {is : List Nib} (out : LeafMap × LeafMap), is.Nodup →
      ∃ out', Yields (Around s) (diffSlots ca cb sub is out) (.ok out') ∧
        (∀ p, Under pfx p → nibble p pfx.length ∈ is → DiffedAt f f' out out' p) ∧
        ∀ p, (Under pfx p → nibble p pfx.length ∉ is) → out'.1.get p = out.1.get p ∧ out'.2.get p = out.2.get p := by
  intro is
  induction is with
  | nil =>
    intro out _
    exact ⟨out, Yields.pure _, fun p _ h => (by cases h), fun p _ => ⟨rfl, rfl⟩⟩
  | cons i is ih =>
    intro out hnd
    obtain ⟨hi, hnd⟩ := List.nodup_cons.1 hnd
    obtain ⟨out₁, hy₁, hd₁⟩ := hsub i out
    obtain ⟨out₂, hy₂, hin, hout⟩ := ih out₁ hnd
    refine ⟨out₂, hy₁.bind hy₂, fun p hp hmem => ?_, fun p hp => ?_⟩
    · rcases List.mem_cons.1 hmem with hpi | hmem
      · -- the path is below this slot, and no later one
        have hkeep := hout p fun _ h => hi (hpi ▸ h)
        have hat := hd₁.under p (under_snoc.2 ⟨hp, hpi⟩)
        unfold DiffedAt at hat ⊢
        rw [hkeep.1, hkeep.2]
        exact hat
      · have hother := hd₁.other p fun hu => hi ((under_snoc.1 hu).2 ▸ hmem)
        have hat := hin p hp hmem
        unfold DiffedAt at hat ⊢
        rw [hother.1, hother.2] at hat
        exact hat
    · have hkeep := hout p fun hu h => hp hu (List.mem_cons_of_mem _ h)
      have hother := hd₁.other p fun hu => hp hu.of_snoc ((under_snoc.1 hu).2 ▸ List.mem_cons_self)
      exact ⟨hkeep.1.trans hother.1, hkeep.2.trans hother.2⟩

/-- One node of the walk: the tops are loaded and their leaves collected, then the slots are walked. -/
theorem yields_diffChildren_step (hinj : Set.InjOn (nodeHash C) S) {fuel : ℕ} {t t' : Tree}
    {L L' : List (Hash × Hash)} (out : LeafMap × LeafMap) (hlen : pfx.length + fuel = 64) (hH : t.Holds f pfx)
    (hH' : t'.Holds f' pfx) (hst : ∀ x ∈ t.recs C pfx, Stored G s x) (hst' : ∀ x ∈ t'.recs C pfx, Stored G s x)
    (hL : Located C S f pfx L) (hL' : Located C S f' pfx L')
    (hrec : ∀ k, fuel = k + 1 → ∀ i out, ∃ out',
      Yields (Around s) (diffChildren C k ((t.kid i).ref C) ((t'.kid i).ref C) (pfx ++ [i]) out) (.ok out') ∧
        Diffed (t.lower f) (t'.lower f') (pfx ++ [i]) out out') :
    ∃ out', Yields (Around s) (diffChildren C fuel (t.ref C) (t'.ref C) pfx out) (.ok out') ∧ Diffed f f' pfx out out' := by
  unfold diffChildren
  by_cases hnone : t.ref C = none ∧ t'.ref C = none
  · rw [if_pos hnone]
    rw [Tree.ref_eq_none.1 hnone.1] at hH
    rw [Tree.ref_eq_none.1 hnone.2] at hH'
    exact ⟨out, Yields.pure _, fun p hp => diffedAt_none (hH p hp) (hH' p hp), fun p _ => ⟨rfl, rfl⟩⟩
  rw [if_neg hnone]
  by_cases hhash : ∃ x ∈ t.ref C, ∃ y ∈ t'.ref C, x.hash = y.hash
  · rw [if_pos hhash]
    obtain ⟨x, hx, y, hy, heq⟩ := hhash
    have hne : t ≠ .nil := fun h => by rw [h] at hx; cases hx
    have hne' : t' ≠ .nil := fun h => by rw [h] at hy; cases hy
    have hroot : rootHash C (t.ref C) = rootHash C (t'.ref C) := by
      rw [show t.ref C = some x from hx, show t'.ref C = some y from hy]
      exact heq
    refine ⟨out, Yields.pure _, fun p hp => .inr ⟨rfl, rfl, ?_⟩, fun p _ => ⟨rfl, rfl⟩⟩
    exact hL.same_of_hash hinj hL' hH hH' hne hne' (by omega) hroot hp
  rw [if_neg hhash]
  -- the entries at the tops are collected; what is left is below them
  have hmerge : ∀ {out' : LeafMap × LeafMap} {p : Hash}, Under pfx p →
      DiffedAt (t.lower f) (t'.lower f') (collectLeaf (t.top C) out.1, collectLeaf (t'.top C) out.2) out' p →
      DiffedAt f f' out out' p := by
    intro out' p hp hat
    have h₁ := hH.collectLeaf_top (C := C) out.1 hp
    have h₂ := hH'.collectLeaf_top (C := C) out.2 hp
    rcases hat with ⟨he, he'⟩ | ⟨he, he', hsame⟩
    · exact .inl ⟨he.trans h₁, he'.trans h₂⟩
    · by_cases hl : t.lower f p = none
      · -- nothing below the tops: what was at the tops is all there is
        have hl' : t'.lower f' p = none := by
          rw [hl] at hsame
          exact Option.map_eq_none_iff.1 hsame.symm
        rw [hl] at h₁
        rw [hl'] at h₂
        exact .inl ⟨he.trans h₁, he'.trans h₂⟩
      · have hl' : t'.lower f' p ≠ none := by
          intro hn
          rw [hn] at hsame
          exact hl (Option.map_eq_none_iff.1 hsame)
        cases t with
        | node v ch =>
          cases t' with
          | node v' ch' => exact .inr ⟨he, he', hsame⟩
          | _ => exact absurd rfl hl'
        | _ => exact absurd rfl hl
  have hload := yields_diffLoad hst
  have hload' := yields_diffLoad hst'
  by_cases hslots : slotsOf (t.top C) = none ∧ slotsOf (t'.top C) = none
  · refine ⟨(collectLeaf (t.top C) out.1, collectLeaf (t'.top C) out.2), hload.bind (hload'.bind ?_), fun p hp => ?_,
      fun p hp => ⟨hH.collectLeaf_other _ hp, hH'.collectLeaf_other _ hp⟩⟩
    · rw [if_pos hslots]
      exact Yields.pure _
    · exact hmerge hp (diffedAt_none (Tree.slotsOf_top_none hslots.1 p) (Tree.slotsOf_top_none hslots.2 p))
  · have hd : pfx.length < 64 := by
      by_contra hge
      refine hslots ⟨?_, ?_⟩
      · cases t with
        | node v ch => exact absurd hH.depth_lt hge
        | _ => rfl
      · cases t' with
        | node v ch => exact absurd hH'.depth_lt hge
        | _ => rfl
    obtain ⟨k, rfl⟩ : ∃ k, fuel = k + 1 := ⟨fuel - 1, by omega⟩
    have hsub : ∀ i out, ∃ out', Yields (Around s) (diffChildren C k (((slotsOf (t.top C)).getD fun _ => none) i)
        (((slotsOf (t'.top C)).getD fun _ => none) i) (pfx ++ [i]) out) (.ok out') ∧
          Diffed (t.lower f) (t'.lower f') (pfx ++ [i]) out out' := by
      intro i out
      rw [Tree.slots_top, Tree.slots_top]
      exact hrec k rfl i out
    obtain ⟨out', hy, hin, hother⟩ := @yields_diffSlots s (t.lower f) (t'.lower f') pfx _ _
      (fun nib a b out => diffChildren C k a b (pfx ++ [nib]) out) hsub _
      (collectLeaf (t.top C) out.1, collectLeaf (t'.top C) out.2) (List.nodup_finRange 16)
    refine ⟨out', hload.bind (hload'.bind ?_), fun p hp => hmerge hp (hin p hp (List.mem_finRange _)), fun p hp => ?_⟩
    · rw [if_neg hslots]
      exact hy
    · have hkeep := hother p fun hu => absurd hu hp
      exact ⟨hkeep.1.trans (hH.collectLeaf_other _ hp), hkeep.2.trans (hH'.collectLeaf_other _ hp)⟩

/-- **The lockstep walk over two stored canonical trees.** -/
theorem yields_diffChildren (hinj : Set.InjOn (nodeHash C) S) :
    ∀ (fuel : ℕ) {t t' : Tree} {f f' : Hash → Option (Hash × UInt64)} {pfx : List Nib} {L L' : List (Hash × Hash)}
      (out : LeafMap × LeafMap), pfx.length + fuel = 64 → t.Holds f pfx → t'.Holds f' pfx →
      (∀ x ∈ t.recs C pfx, Stored G s x) → (∀ x ∈ t'.recs C pfx, Stored G s x) →
      Located C S f pfx L → Located C S f' pfx L' →
      ∃ out', Yields (Around s) (diffChildren C fuel (t.ref C) (t'.ref C) pfx out) (.ok out') ∧
        Diffed f f' pfx out out' := by
  intro fuel
  induction fuel with
  | zero =>
    intro t t' f f' pfx L L' out hlen hH hH' hst hst' hL hL'
    exact yields_diffChildren_step hinj out hlen hH hH' hst hst' hL hL' fun k hk => (by cases hk)
  | succ fuel ih =>
    intro t t' f f' pfx L L' out hlen hH hH' hst hst' hL hL'
    refine yields_diffChildren_step hinj out hlen hH hH' hst hst' hL hL' fun k hk i out => ?_
    cases hk
    obtain ⟨K, hK⟩ := hL.lower (t := t) (by omega) i
    obtain ⟨K', hK'⟩ := hL'.lower (t := t') (by omega) i
    exact ih out (by simp; omega) (hH.kid i) (hH'.kid i) (fun x hx => hst x (Tree.mem_recs_kid hx))
      (fun x hx => hst' x (Tree.mem_recs_kid hx)) hK hK'

end

end ImmutableLedger
