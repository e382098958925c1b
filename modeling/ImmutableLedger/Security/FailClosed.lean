import ImmutableLedger.Security.Hostile
import ImmutableLedger.Proof.Content

/-!
# Live reads over hostile storage

A store reached by commits reads on over storage that has turned hostile, with an empty node cache. A value it
returns is the committed one. But the node of a tree with two entries or more can be exchanged for one that
hides a lone leaf in a wrong slot, since the hash of a lone leaf does not depend on its slot: then a present
key reads as absent.

* `Refines.get_hostile`: what `Get` can return.
* `Refines.get_forged`: the forgery that hides every key of a path's first nibble.
* `get_fails_closed_iff`: `Get` fails closed exactly for absent keys and in maps of at most one entry.
-/

namespace ImmutableLedger

open SparseMerkle EStateM Machine

/-- The handle over hostile storage, its node cache empty. -/
def Store.hostile (s : Store MemBackend) (strategy : List (Bytes × Answer) → Bytes → Answer) : Store Hostile :=
  { s with backend := ⟨strategy, []⟩, cache := newNodeCache s.cache.capacity }

/-- A read that fails closed returns an error or the truth. -/
def FailsClosed (truth : Option Bytes) : Except Err (Option Bytes) → Prop
  | .error e => e.Returned
  | .ok v => v = truth

/-- The read `r` of the path `p` met no collision: not among the nodes it was served and those of the committed
tree, and not between the value it returned and the committed one. -/
structure Collisionless (C : Crypto) (ck : Bytes) (vals : OrdMap Hash Bytes) (p : Hash)
    (r : Result Err (Store Hostile) (Option Bytes)) : Prop where
  nodes : ¬ Collision C (treeInputs C (commitments C ck vals) ++
    (servedNodes r.state.backend.log).flatMap (Node.inputs C))
  value : ∀ v w, r.val = .ok (some v) → vals.get p = some w → vhOf C ck p v = vhOf C ck p w → v = w

variable {C : Crypto} {W : Set (Hash × Bytes)} {s : Store MemBackend} {m : Model} {g : UInt64 → Snap}

section
variable (h : Refines C W s m g)
include h

/-- The reference of a tree of one entry at most is to a leaf. -/
theorem Refines.leaf_of_size (hone : m.cur.size ≤ 1) {c : Child} (hc : s.rootChild = some c) : c.isLeaf = true := by
  have hx := h.snap_cur
  rw [h.child] at hc
  cases ht : (g m.version).tree with
  | nil => rw [ht] at hc; cases hc
  | leaf v l => rw [ht] at hc; cases hc; rfl
  | node v ch =>
    have hH := hx.holds
    rw [ht] at hH
    obtain ⟨⟨p, q, hne, -, -, hp, hq⟩, -⟩ := hH
    have hin : ∀ r, ((g m.version).f r).isSome → ∃ vh, (r, vh) ∈ (commitments C s.ck m.cur).entries := by
      intro r hr
      obtain ⟨e, he⟩ := Option.isSome_iff_exists.1 hr
      refine ⟨e.1, OrdMap.mem_entries.2 ?_⟩
      rw [← hx.commitments, he]
      rfl
    obtain ⟨vp, hvp⟩ := hin p hp
    obtain ⟨vq, hvq⟩ := hin q hq
    have h2 := two_le_length hvp hvq fun he => hne (Prod.mk.inj he).1
    rw [length_commitments] at h2
    omega

/-- **What `Get` returns over hostile storage**: a value is the committed one; absence is true of a map of at
most one entry; and it crashes on no absent key, and in no such map. -/
theorem Refines.get_hostile (key : Bytes) (strategy : List (Bytes × Answer) → Bytes → Answer)
    (hcol : Collisionless C s.ck m.cur (pathOf C s.ck key) (Store.get C key (s.hostile strategy)))
    (hwhen : m.cur.get (pathOf C s.ck key) = none ∨ m.cur.size ≤ 1) :
    FailsClosed (m.cur.get (pathOf C s.ck key)) (Store.get C key (s.hostile strategy)).val := by
  set p := pathOf C s.ck key with hp
  have hget : Store.get C key (s.hostile strategy) = walk C s.rootChild p (s.hostile strategy) := rfl
  rw [hget] at hcol ⊢
  cases hc : s.rootChild with
  | none =>
    -- no root reference: the map is empty
    have hx := h.snap_cur
    rw [h.child] at hc
    have hH := hx.holds
    rw [Tree.ref_eq_none.1 hc] at hH
    have hnone : (commitments C s.ck m.cur).get p = none := by
      rw [← hx.commitments, hH p (under_nil _)]; rfl
    unfold commitments at hnone
    rw [OrdMap.get_mapVal, Option.map_eq_none_iff] at hnone
    rw [hnone]
    rfl
  | some c =>
    rw [hc] at hcol
    have hinj := injOn_of_not_collision hcol.nodes
    have hsaw : Saw (s.hostile strategy) := fun nk n hn => by cases hn
    obtain ⟨o, s', hrun, -, -, hsound⟩ :=
      @walkFrom_hostile C _ (commitments C s.ck m.cur).entries p hinj nibbles c [] (s.hostile strategy) hsaw rfl
    have hwalk : walk C (some c) p (s.hostile strategy) = outcome o s' := hrun
    have hroot := h.snap_cur.rootHash
    rw [← h.child, hc] at hroot
    have hs := hsound ?_ (pinned_root (fun x hx => List.mem_append_left _ hx) hroot)
    · rw [hwalk] at hcol ⊢
      rw [val_outcome]
      rcases o with e | _ | v
      · rcases hs with he | ⟨⟨vh, hvh⟩, h2⟩
        · exact he
        · rcases hwhen with hnone | hone
          · obtain ⟨v, hv, -⟩ := mem_commitments.1 hvh
            rw [hnone] at hv; cases hv
          · rw [length_commitments] at h2; omega
      · rcases hwhen with hnone | hone
        · exact hnone.symm
        · have habs := hs (h.leaf_of_size hone hc) (by rw [length_commitments]; exact hone)
          cases hv : m.cur.get p with
          | none => rfl
          | some v => exact absurd (mem_commitments.2 ⟨v, hv, rfl⟩) (habs _)
      · obtain ⟨w, hw, hvw⟩ := mem_commitments.1 hs
        rw [hw, hcol.value v w (by rw [val_outcome]) hw hvw.symm]
        rfl
    · intro n hn x hx
      refine List.mem_append_right _ (List.mem_flatMap.2 ⟨n, ?_, hx⟩)
      rw [hwalk, state_outcome]
      exact hn

/-- **The forgery**: served for the root, it makes every key with the path's first nibble read as absent. -/
theorem Refines.get_forged (key : Bytes) (h2 : 2 ≤ m.cur.size) :
    (Store.get C key (s.hostile fun _ _ => .ok (some (forged (pathOf C s.ck key) s.root).encode))).val = .ok none ∧
      (servedNodes (Store.get C key
        (s.hostile fun _ _ => .ok (some (forged (pathOf C s.ck key) s.root).encode))).state.backend.log).flatMap
          (Node.inputs C) = [] := by
  set p := pathOf C s.ck key with hp
  set strategy : List (Bytes × Answer) → Bytes → Answer := fun _ _ => .ok (some (forged p s.root).encode) with hst
  -- two entries: the root reference is to an internal node
  have hchild : ∃ v, s.rootChild = some ⟨v, s.root, false⟩ := by
    have hx := h.snap_cur
    have hroot := hx.rootHash
    have hL : Lists (g m.version).f [] (commitments C s.ck m.cur).entries := ⟨OrdMap.nodup_keys _, fun e => by
      rw [show e = (e.1, e.2) from rfl, OrdMap.mem_entries, ← hx.commitments]; simp⟩
    have hH := hx.holds
    rw [h.child, h.root]
    unfold Model.root
    rw [← hroot]
    cases ht : (g m.version).tree with
    | nil =>
      rw [ht] at hH
      have hlen : (commitments C s.ck m.cur).entries.length ≤ 0 := by
        rw [List.length_eq_zero_iff.2]
        exact List.eq_nil_iff_forall_not_mem.2 fun e he => by
          have := ((hL.mem e).1 he).2
          rw [hH e.1 (under_nil _)] at this; cases this
      rw [length_commitments] at hlen
      omega
    | leaf v l =>
      rw [ht] at hH
      have hlen := congrArg List.length (hL.eq_of_leaf hH)
      rw [length_commitments, List.length_singleton] at hlen
      omega
    | node v ch => exact ⟨v, rfl⟩
  obtain ⟨v, hc⟩ := hchild
  have hload := @loadNode_read C Hostile _ ⟨v, []⟩ s.root _ (forged p s.root) (s.hostile strategy) _ rfl rfl
    (decodeNode_encode (forged_ok p s.root)) (forged_hash p s.root)
  have hrun : Store.get C key (s.hostile strategy) =
      .ok none { s.hostile strategy with
        backend := ⟨strategy, [(nodeRecordKey ⟨v, []⟩, .ok (some (forged p s.root).encode))]⟩
        cache := ((s.hostile strategy).cache.get ⟨v, []⟩).2.put ⟨v, []⟩ (forged p s.root) } := by
    show walk C s.rootChild p (s.hostile strategy) = _
    rw [hc]
    refine (walkFrom_loaded p 64 ⟨v, s.root, false⟩ [] hload).trans ?_
    rw [if_neg (by simp [forged, Node.isLeaf])]
    simp only [forged, List.length_nil, lone_ne]
    rfl
  rw [hrun]
  refine ⟨rfl, ?_⟩
  simp [servedNodes, nodeRecordKey, decodeNode_encode (forged_ok p s.root), Except.toOption, forged_inputs, Result.state]

end

/-! ## The states reached by commits -/

variable {ck : Bytes}

/-- The values of the run, by path. -/
def CommitRun.vals (r : CommitRun C ck) : OrdMap Hash Bytes :=
  (run (Model.step C ck) (Model.init r.o.history) r.calls).2.cur

/-- **Fail-closed reads.** In the state reached by any commits, whose tree has no collision in itself, `Get` of a
key fails closed over every hostile storage, short of a collision, exactly when the key is absent or the map
has at most one entry. -/
theorem get_fails_closed_iff (hC : C.GcmOk) (r : CommitRun C ck) (htree : ¬ Collision C (treeInputs C r.map))
    (key : Bytes) :
    (∀ strategy : List (Bytes × Answer) → Bytes → Answer,
      Collisionless C ck r.vals (pathOf C ck key) (Store.get C key (r.store.hostile strategy)) →
      FailsClosed (r.vals.get (pathOf C ck key)) (Store.get C key (r.store.hostile strategy)).val) ↔
    (r.vals.get (pathOf C ck key) = none ∨ r.vals.size ≤ 1) := by
  obtain ⟨hck, -, g, hR⟩ := r.tracks hC
  constructor
  · intro hall
    by_contra hnot
    obtain ⟨hpres, hsize⟩ := not_or.1 hnot
    obtain ⟨hnone, hinputs⟩ := hR.get_forged key (not_le.1 hsize)
    rw [hck] at hnone hinputs
    have hclosed := hall _ ⟨by rw [hinputs, List.append_nil]; exact htree, fun v w hv => by rw [hnone] at hv; cases hv⟩
    rw [hnone] at hclosed
    exact hpres hclosed.symm
  · intro hwhen strategy hcol
    have hclosed := hR.get_hostile key strategy
    rw [hck] at hclosed
    exact hclosed hcol hwhen

/-- With one entry, `Get` of its key fails closed. -/
theorem get_fails_closed_iff_put :
    ¬ Collision quickCrypto (treeInputs quickCrypto putRun.map) ∧
    ((∀ strategy : List (Bytes × Answer) → Bytes → Answer,
      Collisionless quickCrypto [] putRun.vals (pathOf quickCrypto [] [1])
        (Store.get quickCrypto [1] (putRun.store.hostile strategy)) →
      FailsClosed (putRun.vals.get (pathOf quickCrypto [] [1]))
        (Store.get quickCrypto [1] (putRun.store.hostile strategy)).val) ↔
    (putRun.vals.get (pathOf quickCrypto [] [1]) = none ∨ putRun.vals.size ≤ 1)) :=
  have htree : ¬ Collision quickCrypto (treeInputs quickCrypto putRun.map) := by decide +kernel
  ⟨htree, get_fails_closed_iff quickCrypto_gcmOk putRun htree [1]⟩

/-- A store of two keys. -/
def twoKeyStore : Store MemBackend :=
  ((created plainCrypto [] {} fun _ => Nonce.zero).step plainCrypto (.putBatch [.put [97] [1], .put [98] [2]])).2

/-- The map of the two keys. -/
def twoKeyVals : OrdMap Hash Bytes := applyOps plainCrypto [] OrdMap.empty [.put [97] [1], .put [98] [2]]

/-- A storage that answers every read with one forged node. -/
def hidingStrategy : List (Bytes × Answer) → Bytes → Answer :=
  fun _ _ => .ok (some (forged (pathOf plainCrypto [] [97]) twoKeyStore.root).encode)

/-- **A present key read as absent**: the first key reads over honest storage, and as absent over the hiding one,
though nothing collides. -/
theorem get_hides_present_key :
    twoKeyStore.root = rootOf plainCrypto (commitments plainCrypto [] twoKeyVals) ∧
    (Store.get plainCrypto [97] twoKeyStore).val = .ok (some [1]) ∧
    (Store.get plainCrypto [97] (twoKeyStore.hostile hidingStrategy)).val = .ok none ∧
    ¬ Collision plainCrypto (treeInputs plainCrypto (commitments plainCrypto [] twoKeyVals) ++
      (servedNodes (Store.get plainCrypto [97] (twoKeyStore.hostile hidingStrategy)).state.backend.log).flatMap
        (Node.inputs plainCrypto)) := by
  refine ⟨by decide +kernel, by decide +kernel, by decide +kernel, ?_⟩
  unfold Collision
  decide +kernel

end ImmutableLedger
