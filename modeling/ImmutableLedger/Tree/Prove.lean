import ImmutableLedger.Tree.Read
import ImmutableLedger.Tree.Root
import ImmutableLedger.Ledger.Proof

/-!
# Proofs over an honest backend

The proof the store makes for a path depends on nothing but the logical map: it is the descent along the
bits of the path through the digest of the map (`proofOf`), the binary descents inside the 16-ary nodes
joined end to end.

* `binaryDescent_spec`: the descent inside one node is four levels of the map's descent.
* `yields_provePath`: the prover returns `proofOf`.
-/

namespace ImmutableLedger

open SparseMerkle EStateM

variable (C : Crypto)

/-- The proof for a path in a logical map (path to value commitment). -/
def proofOf (M : OrdMap Hash Hash) (path : Hash) : Proof :=
  let r := descent bitAt (nodeHash C) path 256 0 M.entries
  ⟨r.1.map fun e => ⟨e.1, e.2⟩, r.2.reverse⟩

variable {C}
variable {f : Hash → Option (Hash × UInt64)} {pfx : List Nib} {L : List (Hash × Hash)} {ch : Nib → Tree} {p : Hash}

/-- Every range of slots of a canonical node has the digest of its entries. -/
theorem subtreeHash_range (hch : ∀ i, (ch i).Holds f (pfx ++ [i])) (hL : Lists f pfx L) (hlen : pfx.length < 64)
    {lvl start : ℕ} (hl : lvl ≤ 4) (ha : 2 ^ lvl ∣ start) (hs : start + 2 ^ lvl ≤ 16) :
    subtreeHash C (Tree.refs C ch) start lvl =
      digest bitAt (nodeHash C) (252 - 4 * pfx.length + lvl) (4 * pfx.length + (4 - lvl))
        (inRange pfx.length start lvl L) := by
  refine subtreeHash_digest hch hL (fun i => ?_) lvl hl start ha hs
  rw [(hch i).rootHash_digest (by simp; omega) (hL.child i)]
  simp only [List.length_append, List.length_singleton]
  congr 1
  omega

/-- What a binary descent inside a node comes to: nothing, a leaf, or the internal child on the path. In
each case the siblings collected are those of the map's descent `r` down to there. -/
inductive Descends (C : Crypto) (ch : Nib → Tree) (nib : Nib) (below : Option (Hash × Hash) × List Hash)
    (sibs : List Hash) : Option (Hash × Hash) × List Hash → Option (ℕ × Child) × List Hash → Prop
  | empty (ss : List Hash) : Descends C ch nib below sibs (none, ss) (none, sibs ++ ss)
  | leaf (ss : List Hash) (j : Nib) (v : UInt64) (l : LeafNode) (ht : ch j = .leaf v l) :
    Descends C ch nib below sibs (some (l.path, l.vh), ss)
      (some (j.val, ⟨v, leafHash C l.path l.vh, true⟩), sibs ++ ss)
  | node (ss : List Hash) (v : UInt64) (ch' : Nib → Tree) (ht : ch nib = .node v ch') :
    Descends C ch nib below sibs (below.1, ss ++ below.2)
      (some (nib.val, ⟨v, Node.hash C (.internal (Tree.refs C ch')), false⟩), sibs ++ ss)

theorem Descends.cons {nib : Nib} {below r : Option (Hash × Hash) × List Hash} {sibs : List Hash} {s : Hash}
    {o : Option (ℕ × Child) × List Hash} (h : Descends C ch nib below (sibs ++ [s]) r o) :
    Descends C ch nib below sibs (r.1, s :: r.2) o := by
  cases h with
  | empty ss => rw [List.append_assoc]; exact .empty (s :: ss)
  | leaf ss j v l ht => rw [List.append_assoc]; exact .leaf (s :: ss) j v l ht
  | node ss v ch' ht => rw [List.append_assoc]; exact .node (s :: ss) v ch' ht

/-- The lower half of an aligned range is the side of the unset bit. -/
theorem bit_lower_half {d start lvl : ℕ} (hl : lvl < 4) (ha : 2 ^ (lvl + 1) ∣ start)
    (h1 : start ≤ (nibble p d).val) (h2 : (nibble p d).val < start + 2 ^ (lvl + 1)) :
    bitAt p (4 * d + (3 - lvl)) = !decide ((nibble p d).val < start + 2 ^ lvl) := by
  have hin : (p, p) ∈ inRange d start (lvl + 1) [(p, p)] := mem_inRange.2 ⟨by simp, h1, h2⟩
  have hlow : bitAt p (4 * d + (3 - lvl)) = false ↔ (nibble p d).val < start + 2 ^ lvl := by
    have hside := side_inRange (d := d) hl ha [(p, p)] false
    have hmem : (p, p) ∈ side bitAt (4 * d + (3 - lvl)) false (inRange d start (lvl + 1) [(p, p)]) ↔
        (p, p) ∈ inRange d start lvl [(p, p)] := by rw [hside]; rfl
    constructor
    · intro hb; exact (mem_inRange.1 (hmem.1 (mem_side.2 ⟨hin, hb⟩))).2.2
    · intro hlt; exact (mem_side.1 (hmem.2 (mem_inRange.2 ⟨by simp, h1, hlt⟩))).2
  by_cases hlt : (nibble p d).val < start + 2 ^ lvl
  · rw [hlow.2 hlt, decide_eq_true hlt]; rfl
  · rw [decide_eq_false hlt, Bool.not_false, ← Bool.not_eq_false]
    exact fun hb => hlt (hlow.1 hb)

/-- In a range that is not empty and not a lone leaf the descent takes the half of its target. -/
theorem binaryDescent_halves {ch : Children} {target start lvl : ℕ} (hne : presentAt ch start (2 ^ (lvl + 1)) ≠ [])
    (hleaf : ∀ i c, presentAt ch start (2 ^ (lvl + 1)) = [(i, c)] → c.isLeaf = false) (sibs : List Hash) :
    binaryDescent C ch target (lvl + 1) start sibs = if target < start + 2 ^ lvl then
        binaryDescent C ch target lvl start (sibs ++ [subtreeHash C ch (start + 2 ^ lvl) lvl])
      else binaryDescent C ch target lvl (start + 2 ^ lvl) (sibs ++ [subtreeHash C ch start lvl]) := by
  rw [binaryDescent]
  rcases hP : presentAt ch start (2 ^ (lvl + 1)) with _ | ⟨⟨i, c⟩, _ | ⟨e, rest⟩⟩
  · exact absurd hP hne
  · simp [hleaf i c hP]
  · rfl

/-- **The descent inside one node** is the map's descent over the entries in its slots. -/
theorem binaryDescent_spec (hch : ∀ i, (ch i).Holds f (pfx ++ [i])) (hL : Lists f pfx L) (hlen : pfx.length < 64) :
    ∀ lvl, lvl ≤ 4 → ∀ start, 2 ^ lvl ∣ start → start + 2 ^ lvl ≤ 16 → start ≤ (nibble p pfx.length).val →
      (nibble p pfx.length).val < start + 2 ^ lvl → ∀ sibs,
      Descends C ch (nibble p pfx.length)
        (descent bitAt (nodeHash C) p (252 - 4 * pfx.length) (4 * pfx.length + 4)
          (inRange pfx.length (nibble p pfx.length).val 0 L)) sibs
        (descent bitAt (nodeHash C) p (252 - 4 * pfx.length + lvl) (4 * pfx.length + (4 - lvl))
          (inRange pfx.length start lvl L))
        (binaryDescent C (Tree.refs C ch) (nibble p pfx.length).val lvl start sibs) := by
  set nib := nibble p pfx.length with hnib
  intro lvl
  induction lvl with
  | zero =>
    intro _ start _ _ h1 h2 sibs
    obtain rfl : start = nib.val := by omega
    have hslot : slot (Tree.refs C ch) nib.val = (ch nib).ref C := by
      unfold slot; rw [dif_pos nib.isLt]; rfl
    rw [binaryDescent, hslot]
    have hHc := hch nib
    have hLc := hL.child nib
    cases ht : ch nib with
    | nil =>
      rw [ht] at hHc
      have hnil : inRange pfx.length nib.val 0 L = [] := by
        rw [List.eq_nil_iff_forall_not_mem]
        intro e he
        obtain ⟨hu, hv⟩ := (hLc.mem e).1 he
        rw [hHc e.1 hu] at hv; cases hv
      rw [hnil]
      simpa [descent] using (Descends.empty [] : Descends C ch nib _ sibs _ _)
    | leaf v l =>
      rw [ht] at hHc
      rw [hLc.eq_of_leaf hHc]
      simpa [descent, Tree.ref] using (Descends.leaf [] nib v l ht : Descends C ch nib _ sibs _ _)
    | node v ch' =>
      rw [Nat.sub_zero, Nat.add_zero, Tree.ref_node]
      have hnode : Descends C ch nib (descent bitAt (nodeHash C) p (252 - 4 * pfx.length) (4 * pfx.length + 4)
        (inRange pfx.length nib.val 0 L)) sibs _ _ := .node [] v ch' ht
      simpa using hnode
  | succ lvl ih =>
    intro hl start ha hs h1 h2 sibs
    have hp : 2 ^ (lvl + 1) = 2 ^ lvl + 2 ^ lvl := by rw [pow_succ]; ring
    obtain ⟨hP, hnil⟩ | ⟨j, v, l, ht, hone, hP⟩ | ⟨h2', hne, hleaf⟩ := range_cases (C := C) hch hL start (lvl + 1)
    · rw [binaryDescent, hP, hnil]
      simpa [descent] using (Descends.empty [] : Descends C ch nib _ sibs _ _)
    · rw [binaryDescent, hP, hone]
      simpa [descent] using (Descends.leaf [] j v l ht : Descends C ch nib _ sibs _ _)
    · -- two entries: the half of the path, and the digest of the other
      have hbit : bitAt p (4 * pfx.length + (3 - lvl)) = !decide (nib.val < start + 2 ^ lvl) :=
        bit_lower_half (by omega) ha h1 h2
      have hd : ∀ b, side bitAt (4 * pfx.length + (3 - lvl)) b (inRange pfx.length start (lvl + 1) L) =
          inRange pfx.length (if b then start + 2 ^ lvl else start) lvl L := fun b => side_inRange (by omega) ha L b
      rw [binaryDescent_halves hne hleaf, show 4 - (lvl + 1) = 3 - lvl by omega, ← add_assoc, descent_node h2', hbit, hd, hd,
        show 4 * pfx.length + (3 - lvl) + 1 = 4 * pfx.length + (4 - lvl) by omega]
      by_cases hlt : nib.val < start + 2 ^ lvl
      · rw [if_pos hlt, decide_eq_true hlt]
        simp only [Bool.not_true, Bool.not_false, Bool.false_eq_true, if_false, if_true]
        rw [← subtreeHash_range (C := C) hch hL hlen (by omega) (Dvd.dvd.add (dvd_half ha) dvd_rfl) (by omega)]
        exact (ih (by omega) start (dvd_half ha) (by omega) h1 hlt _).cons
      · rw [if_neg hlt, decide_eq_false hlt]
        simp only [Bool.not_true, Bool.not_false, Bool.false_eq_true, if_false, if_true]
        rw [← subtreeHash_range (C := C) hch hL hlen (by omega) (dvd_half ha) (by omega)]
        exact (ih (by omega) (start + 2 ^ lvl) (Dvd.dvd.add (dvd_half ha) dvd_rfl) (by omega) (by omega) (by omega) _).cons

/-! ## The prover -/

variable {s : Store MemBackend} {G : Hash → Hash → Bytes → Prop}

/-- The prover at an internal node, up to the binary descent. -/
theorem yields_proveFrom_internal {v : UInt64} {h : Hash} {ch : Children} {pfx : List Nib} {fuel : ℕ} {sibs : List Hash}
    {r : Except Err (Option LeafNode × List Hash)}
    (hload : Yields (Around s) (loadNode C ⟨v, pfx⟩ h) (.ok (.internal ch)))
    (hr : Yields (Around s) (match binaryDescent C ch (nibble p pfx.length).val 4 0 sibs with
      | (none, siblings) => pure (none, siblings)
      | (some (idx, cc), siblings) =>
        if cc.isLeaf then do
          let lk : NodeKey := ⟨cc.version, pfx ++ [Fin.ofNat 16 idx]⟩
          match ← loadNode C lk cc.hash with
          | .internal _ => throw (errNode "node %v kind mismatch" lk)
          | .leaf l => pure (some l, siblings)
        else proveFrom C p fuel cc (pfx ++ [nibble p pfx.length]) siblings) r) :
    Yields (Around s) (proveFrom C p (fuel + 1) ⟨v, h, false⟩ pfx sibs) r := by
  unfold proveFrom
  exact hload.bind hr

/-- **The walk of the prover** collects the map's descent. -/
theorem yields_proveFrom {t : Tree} : ∀ {pfx : List Nib} {fuel : ℕ} {c : Child} {L : List (Hash × Hash)} (sibs : List Hash),
    t.Holds f pfx → (∀ x ∈ t.recs C pfx, Stored G s x) → Under pfx p → pfx.length + fuel = 64 → t.ref C = some c →
    Lists f pfx L →
    ∃ o : Option LeafNode, Yields (Around s) (proveFrom C p fuel c pfx sibs)
        (.ok (o, sibs ++ (descent bitAt (nodeHash C) p (256 - 4 * pfx.length) (4 * pfx.length) L).2)) ∧
      o.map (fun l => (l.path, l.vh)) = (descent bitAt (nodeHash C) p (256 - 4 * pfx.length) (4 * pfx.length) L).1 := by
  induction t with
  | nil => intro pfx fuel c L sibs _ _ _ _ hr _; cases hr
  | leaf v l =>
    intro pfx fuel c L sibs hH hst _ _ hr hL
    cases hr
    rw [hL.eq_of_leaf hH]
    refine ⟨some l, ?_, by simp [descent]⟩
    have hload := yields_loadNode (C := C) (s := s) (G := G) (n := .leaf l) (hst _ (.inl rfl)) rfl
    unfold proveFrom
    refine hload.bind ?_
    simpa [descent, Node.isLeaf] using Yields.pure (some l, sibs)
  | node v ch ih =>
    intro pfx fuel c L sibs hH hst hp hlen hr hL
    cases hr
    have hd := hH.depth_lt
    obtain ⟨fuel, rfl⟩ : ∃ k, fuel = k + 1 := ⟨fuel - 1, by omega⟩
    set nib := nibble p pfx.length with hnib
    have hspec := binaryDescent_spec (C := C) (p := p) hH.2 hL hd 4 le_rfl 0 (by simp) (by norm_num) (by omega)
      (by simp) sibs
    have hall : inRange pfx.length 0 4 L = L := by
      unfold inRange
      rw [List.filter_eq_self]
      intro e _
      simp
    rw [hall, show 252 - 4 * pfx.length + 4 = 256 - 4 * pfx.length by omega,
      show 4 * pfx.length + (4 - 4) = 4 * pfx.length by omega, ← hnib] at hspec
    have hload := yields_loadNode (C := C) (s := s) (G := G) (n := .internal (Tree.refs C ch)) (hst _ (.inl rfl)) rfl
    generalize hdesc : descent bitAt (nodeHash C) p (256 - 4 * pfx.length) (4 * pfx.length) L = r at hspec ⊢
    generalize hbd : binaryDescent C (Tree.refs C ch) nib.val 4 0 sibs = o at hspec
    cases hspec with
    | empty ss =>
      refine ⟨none, yields_proveFrom_internal hload ?_, rfl⟩
      rw [hbd]
      exact Yields.pure _
    | leaf ss j w l ht =>
      refine ⟨some l, yields_proveFrom_internal hload ?_, rfl⟩
      rw [hbd]
      have hj : Fin.ofNat 16 j.val = j := by apply Fin.ext; simp
      simp only [if_true, hj]
      refine (yields_loadNode (G := G) (n := .leaf l) (hst _ (.inr ⟨j, ?_⟩)) rfl).bind (Yields.pure _)
      rw [ht]; exact .inl rfl
    | node ss w ch' ht =>
      have hchild := hH.2 nib
      obtain ⟨o, hy, ho⟩ := @ih nib _ fuel _ _ (sibs ++ ss) hchild (fun x hx => hst x (.inr ⟨nib, hx⟩)) hp.extend
        (by simp; omega) (by rw [ht]; rfl) (hL.child nib)
      rw [List.length_append, List.length_singleton, show 256 - 4 * (pfx.length + 1) = 252 - 4 * pfx.length by omega,
        show 4 * (pfx.length + 1) = 4 * pfx.length + 4 by omega] at hy ho
      refine ⟨o, yields_proveFrom_internal hload ?_, ho⟩
      rw [hbd, ← List.append_assoc]
      exact hy

/-- **The prover returns the proof of the logical map.** -/
theorem yields_provePath {t : Tree} {M : OrdMap Hash Hash} (hH : t.Holds f []) (hf : ∀ p, (f p).map Prod.fst = M.get p)
    (hst : ∀ x ∈ t.recs C [], Stored G s x) (p : Hash) :
    Yields (Around s) (provePath C (t.ref C) p) (.ok (proofOf C M p)) := by
  have hL : Lists f [] M.entries := ⟨M.nodup_keys, fun e => by
    rw [show e = (e.1, e.2) from rfl, OrdMap.mem_entries, hf]; simp⟩
  cases hr : t.ref C with
  | none =>
    rw [Tree.ref_eq_none.1 hr] at hH
    have hnil : M.entries = [] := by
      rw [List.eq_nil_iff_forall_not_mem]
      intro e he
      have := ((hL.mem e).1 he).2
      rw [hH e.1 (under_nil _)] at this; cases this
    have : proofOf C M p = ⟨none, []⟩ := by simp [proofOf, hnil, descent]
    rw [this]
    exact Yields.pure _
  | some c =>
    obtain ⟨o, hy, ho⟩ := yields_proveFrom (C := C) [] hH hst (under_nil p) (show 0 + nibbles = 64 from rfl) hr hL
    simp only [List.length_nil, Nat.mul_zero, Nat.sub_zero, List.nil_append] at hy ho
    have hproof : proofOf C M p = ⟨o.map fun l => ⟨l.path, l.vh⟩,
        (descent bitAt (nodeHash C) p 256 0 M.entries).2.reverse⟩ := by
      simp only [proofOf]
      rw [← ho, Option.map_map]
      rfl
    rw [hproof]
    exact hy.bind (Yields.pure _)

end ImmutableLedger
