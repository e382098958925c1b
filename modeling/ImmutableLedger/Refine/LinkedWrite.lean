import ImmutableLedger.Refine.Linked
import ImmutableLedger.Refine.Records

/-!
# Batches of handles in step

The batch computation of `Ledger/Apply` and `Ledger/Commit` on linked handles. The nodes it leaves pending are of the new
version and such that the codec can represent them, so that the written records decode to the nodes the commit puts into
the cache.

* `mirrors_applySubtree`: applying updates.
* `mirrors_computeBatch`: the batch computation.
-/

namespace ImmutableLedger

open EStateM

variable {C : Crypto}

/-- The pending nodes are ones of the new version that the codec can represent. -/
def PendOk (acc : CommitAcc) : Prop :=
  ∀ nk n, acc.pending.get nk = some n → nk.version = acc.newVersion ∧ n.Ok

theorem pendOk_empty (nv : UInt64) : PendOk { newVersion := nv } := fun nk n hn => by cases hn

/-- What a step of the commit at `nv` leaves: good pending nodes, and the old reference or one of `nv`. -/
structure Grown (nv : UInt64) (old : Option Child) (r : CommitAcc × Option Child) : Prop where
  version : r.1.newVersion = nv
  pend : PendOk r.1
  child : r.2 = old ∨ ∀ c ∈ r.2, c.version = nv

section
variable {acc : CommitAcc}

theorem PendOk.staleNode (h : PendOk acc) (nk : NodeKey) : PendOk (acc.staleNode nk) := by
  unfold CommitAcc.staleNode
  split
  · intro nk' n hn
    simp only [OrdMap.get_erase] at hn
    split at hn
    · cases hn
    · exact h nk' n hn
  · exact h

theorem newVersion_staleNode (nk : NodeKey) : (acc.staleNode nk).newVersion = acc.newVersion := by
  unfold CommitAcc.staleNode
  split <;> rfl

theorem PendOk.staleValue (h : PendOk acc) (l : LeafNode) : PendOk (acc.staleValue l) := by
  unfold CommitAcc.staleValue
  split <;> exact h

theorem newVersion_staleValue (l : LeafNode) : (acc.staleValue l).newVersion = acc.newVersion := by
  unfold CommitAcc.staleValue
  split <;> rfl

theorem PendOk.addNode (h : PendOk acc) (pfx : List Nib) {n : Node} (hn : n.Ok) :
    PendOk (acc.addNode pfx n) := by
  intro nk m hm
  simp only [CommitAcc.addNode, OrdMap.get_insert] at hm
  split at hm
  · rename_i hk
    cases hm
    rw [hk]
    exact ⟨rfl, hn⟩
  · exact h nk m hm

/-! ## Building -/

/-- What building leaves: good pending nodes and, for some leaves, a reference of the new version. -/
structure Raised (nv : UInt64) (filled : Prop) (r : CommitAcc × Option Child) : Prop where
  version : r.1.newVersion = nv
  pend : PendOk r.1
  child : ∀ c ∈ r.2, c.version = nv
  isSome : filled → r.2.isSome

theorem raised_putLeaf (h : PendOk acc) {pfx : List Nib} {leaf : LeafNode} {r : CommitAcc × Option Child} (hr : putLeaf C acc pfx leaf = .ok r) : Raised acc.newVersion True r := by
  have hadd : ∀ acc' : CommitAcc, PendOk acc' → acc'.newVersion = acc.newVersion →
      Raised acc.newVersion True
        (acc'.addNode pfx (.leaf leaf), some ⟨acc'.newVersion, Node.hash C (.leaf leaf), true⟩) := by
    intro acc' h' hv
    refine ⟨hv, h'.addNode pfx trivial, fun c hc => ?_, fun _ => rfl⟩
    cases hc
    exact hv
  unfold putLeaf at hr
  split at hr
  · split at hr
    · cases hr
      exact hadd acc h rfl
    · split at hr
      · cases hr
      · cases hr
        exact hadd _ h rfl
  · cases hr
    exact hadd acc h rfl

/-- The loop over the groups: one child at least, since no group is empty. -/
theorem raised_buildGroups {sub : CommitAcc → Nib → List LeafNode → Except Err (CommitAcc × Option Child)}
    (hsub : ∀ acc nib g r, PendOk acc → sub acc nib g = .ok r → Raised acc.newVersion (g ≠ []) r) :
    ∀ (gs : List (Nib × List LeafNode)) (acc : CommitAcc) (ch : Children) (r : CommitAcc × Children),
    (∀ e ∈ gs, e.2 ≠ []) → PendOk acc → buildGroups sub gs acc ch = .ok r →
    r.1.newVersion = acc.newVersion ∧ PendOk r.1 ∧
      (gs ≠ [] ∨ (∃ i, (ch i).isSome) → ∃ i, (r.2 i).isSome) := by
  intro gs
  induction gs with
  | nil =>
    intro acc ch r _ hp hr
    cases hr
    exact ⟨rfl, hp, fun h => h.resolve_left fun hne => hne rfl⟩
  | cons e gs ih =>
    obtain ⟨nib, g⟩ := e
    intro acc ch r hne hp hr
    unfold buildGroups at hr
    cases hg : sub acc nib g with
    | error err =>
      rw [hg] at hr
      cases hr
    | ok q =>
      rw [hg] at hr
      have hq := hsub acc nib g q hp hg
      obtain ⟨hv, hp', hch⟩ := ih q.1 _ r (fun e he => hne e (List.mem_cons_of_mem _ he)) hq.pend hr
      have hfilled : (Function.update ch nib q.2 nib).isSome := by
        rw [Function.update_self]
        exact hq.isSome (hne (nib, g) List.mem_cons_self)
      exact ⟨hv.trans hq.version, hp', fun _ => hch (.inr ⟨nib, hfilled⟩)⟩

theorem raised_buildFromPairs : ∀ (fuel : ℕ) (acc : CommitAcc) (pfx : List Nib) (pairs : List LeafNode)
    (r : CommitAcc × Option Child), PendOk acc →
    buildFromPairs C fuel acc pfx pairs = .ok r → Raised acc.newVersion (pairs ≠ []) r := by
  intro fuel
  induction fuel using Nat.strong_induction_on with
  | h fuel ih =>
    intro acc pfx pairs r hp hr
    rcases pairs with _ | ⟨l, _ | ⟨l', pairs⟩⟩
    · unfold buildFromPairs at hr
      cases hr
      exact ⟨rfl, hp, fun c hc => (by cases hc), fun hne => absurd rfl hne⟩
    · unfold buildFromPairs at hr
      have h := raised_putLeaf hp hr
      exact ⟨h.version, h.pend, h.child, fun _ => h.isSome trivial⟩
    · cases fuel with
      | zero => cases hr
      | succ fuel =>
        unfold buildFromPairs at hr
        have hsub : ∀ acc nib g r, PendOk acc → buildFromPairs C fuel acc (pfx ++ [nib]) g = .ok r →
            Raised acc.newVersion (g ≠ []) r := by
          intro acc nib g r hp hr
          exact ih fuel (by omega) acc _ g r hp hr
        cases hg : buildGroups (fun acc nib g => buildFromPairs C fuel acc (pfx ++ [nib]) g)
            (nibbleGroups LeafNode.path pfx.length (l :: l' :: pairs)) acc (fun _ => none) with
        | error err =>
          rw [hg] at hr
          cases hr
        | ok q =>
          rw [hg] at hr
          cases hr
          have hgroups : nibbleGroups LeafNode.path pfx.length (l :: l' :: pairs) ≠ [] := by
            obtain ⟨g, hg, -⟩ := exists_group LeafNode.path pfx.length (List.mem_cons_self : l ∈ l :: l' :: pairs)
            exact List.ne_nil_of_mem hg
          obtain ⟨hv, hp', hch⟩ :=
            raised_buildGroups hsub _ acc _ q (fun e he => (nibble_of_mem_group he).1) hp hg
          refine ⟨hv, hp'.addNode pfx (hch (.inl hgroups)), fun c hc => ?_, fun _ => rfl⟩
          cases hc
          exact hv

theorem grown_applyLeaf {fuel : ℕ} {nk : NodeKey} (h : PendOk acc) {old : Child} {leaf : LeafNode} {us : List Update} {r : CommitAcc × Option Child}
    (hr : applyLeaf C fuel acc old nk leaf us = .ok r) : Grown acc.newVersion (some old) r := by
  unfold applyLeaf at hr
  dsimp only at hr
  split at hr
  · cases hr
    exact ⟨rfl, h, .inl rfl⟩
  · split at hr
    · have hb := raised_buildFromPairs fuel _ nk.pfx _ r (h.staleNode nk) hr
      rw [newVersion_staleNode] at hb
      exact ⟨hb.version, hb.pend, .inr hb.child⟩
    · have hb := raised_buildFromPairs fuel _ nk.pfx _ r ((h.staleNode nk).staleValue leaf) hr
      rw [newVersion_staleValue, newVersion_staleNode] at hb
      exact ⟨hb.version, hb.pend, .inr hb.child⟩

end

/-! ## Applying -/

section
variable {β γ : Type} [Backend β] [Backend γ] {M : Link (Store β) (Store γ)} {acc : CommitAcc} (hL : Linked C M)
include hL

theorem mirrors_resolveNode (nk : NodeKey) (h : Hash) :
    Mirrors M (resolveNode C acc nk h) (resolveNode C acc nk h) fun _ => True := by
  unfold resolveNode
  refine Mirrors.ite (fun _ => ?_) fun _ => hL.load nk h
  cases acc.pending.get nk with
  | none => exact Mirrors.throw _
  | some n => exact Mirrors.pure trivial

theorem mirrors_takeLeaf (hp : PendOk acc) (c : Child) (pfx : List Nib) :
    Mirrors M (takeLeaf C acc c pfx) (takeLeaf C acc c pfx) fun r => r.1.newVersion = acc.newVersion ∧ PendOk r.1 := by
  unfold takeLeaf
  refine Mirrors.ite (fun hv => ?_) fun _ => ?_
  · cases hn : acc.pending.get ⟨c.version, pfx⟩ with
    | none => exact Mirrors.throw _
    | some n =>
      cases n with
      | internal ch => exact Mirrors.throw _
      | leaf l =>
        have hstale := hp.staleNode ⟨c.version, pfx⟩
        unfold CommitAcc.staleNode at hstale
        rw [if_pos hv] at hstale
        exact Mirrors.pure ⟨rfl, hstale⟩
  · refine (hL.load _ c.hash).bind fun n _ => ?_
    cases n with
    | internal ch => exact Mirrors.throw _
    | leaf l => exact Mirrors.pure ⟨rfl, hp⟩

theorem mirrors_rebuildNode (hp : PendOk acc) (nk : NodeKey) (ch : Children) (old : Option Child) :
    Mirrors M (rebuildNode C acc nk ch) (rebuildNode C acc nk ch) (Grown acc.newVersion old) := by
  have hp' := hp.staleNode nk
  have hv : (acc.staleNode nk).newVersion = acc.newVersion := newVersion_staleNode nk
  unfold rebuildNode
  dsimp only
  cases hocc : occupied ch with
  | nil => exact Mirrors.pure ⟨hv, hp', .inr fun c hc => by cases hc⟩
  | cons e rest =>
    obtain ⟨nib, only⟩ := e
    refine Mirrors.ite (fun _ => ?_) fun _ => Mirrors.pure ?_
    · refine (mirrors_takeLeaf hL hp' only _).bind fun q hq => mirrors_ofExcept fun r hr => ?_
      have hleaf := raised_putLeaf hq.2 hr
      rw [hq.1, hv] at hleaf
      exact ⟨hleaf.version, hleaf.pend, .inr hleaf.child⟩
    · -- the node stays internal: it has a child
      have hmem : (nib, only) ∈ occupied ch := by
        rw [hocc]
        exact List.mem_cons_self
      obtain ⟨i, -, hi⟩ := List.mem_filterMap.1 hmem
      obtain ⟨c, hc, -⟩ := Option.map_eq_some_iff.1 hi
      refine ⟨hv, hp'.addNode nk.pfx ⟨i, by rw [hc]; rfl⟩, .inr fun c hc => ?_⟩
      cases hc
      exact hv

omit hL [Backend β] [Backend γ] in
theorem mirrors_applyGroups {nv : UInt64}
    {sub : CommitAcc → Option Child → Nib → List Update → LedgerM β (CommitAcc × Option Child)}
    {sub' : CommitAcc → Option Child → Nib → List Update → LedgerM γ (CommitAcc × Option Child)}
    (hsub : ∀ acc c nib g, acc.newVersion = nv → PendOk acc → Mirrors M (sub acc c nib g) (sub' acc c nib g) (Grown nv c)) :
    ∀ (gs : List (Nib × List Update)) (acc : CommitAcc) (ch : Children) (changed : Bool),
    acc.newVersion = nv → PendOk acc →
    Mirrors M (applyGroups sub gs acc ch changed) (applyGroups sub' gs acc ch changed)
      fun r => r.1.newVersion = nv ∧ PendOk r.1 := by
  intro gs
  induction gs with
  | nil => intro acc ch changed hv hp; exact Mirrors.pure ⟨hv, hp⟩
  | cons e gs ih =>
    obtain ⟨nib, us⟩ := e
    intro acc ch changed hv hp
    refine (hsub acc (ch nib) nib us hv hp).bind fun r hr => ?_
    exact Mirrors.ite (fun _ => ih _ _ _ hr.version hr.pend) fun _ => ih _ _ _ hr.version hr.pend

/-- **Applying updates to a subtree.** -/
theorem mirrors_applySubtree : ∀ (fuel : ℕ) (acc : CommitAcc) (old : Option Child) (pfx : List Nib) (us : List Update),
    PendOk acc → Mirrors M (applySubtree C fuel acc old pfx us) (applySubtree C fuel acc old pfx us)
      (Grown acc.newVersion old) := by
  intro fuel
  induction fuel using Nat.strong_induction_on with
  | h fuel ih =>
    intro acc old pfx us hp
    rcases us with _ | ⟨u, us⟩
    · unfold applySubtree
      exact Mirrors.pure ⟨rfl, hp, .inl rfl⟩
    cases old with
    | none =>
      unfold applySubtree
      refine mirrors_ofExcept fun r hr => ?_
      have h := raised_buildFromPairs fuel acc pfx _ r hp hr
      exact ⟨h.version, h.pend, .inr h.child⟩
    | some old =>
      unfold applySubtree
      refine (mirrors_resolveNode hL _ old.hash).bind fun n _ => ?_
      refine Mirrors.ite (fun _ => Mirrors.throw_bind) fun _ => ?_
      cases n with
      | leaf l => exact mirrors_ofExcept fun r hr => grown_applyLeaf hp hr
      | internal ch =>
        cases fuel with
        | zero => exact Mirrors.throw _
        | succ fuel =>
          have hsub : ∀ acc' c nib g, acc'.newVersion = acc.newVersion → PendOk acc' →
              Mirrors M (applySubtree C fuel acc' c (pfx ++ [nib]) g) (applySubtree C fuel acc' c (pfx ++ [nib]) g)
                (Grown acc.newVersion c) := by
            intro acc' c nib g hv hp'
            have h := ih fuel (by omega) acc' c (pfx ++ [nib]) g hp'
            rwa [hv] at h
          refine (mirrors_applyGroups hsub _ acc ch false rfl hp).bind fun r hr => ?_
          obtain ⟨acc', ch', changed⟩ := r
          obtain ⟨hv, hp'⟩ : acc'.newVersion = acc.newVersion ∧ PendOk acc' := hr
          refine Mirrors.ite (fun _ => ?_) fun _ => Mirrors.pure ⟨hv, hp', .inl rfl⟩
          have h := mirrors_rebuildNode hL hp' ⟨old.version, pfx⟩ ch' (some old)
          rwa [hv] at h

theorem mirrors_sealUpdates {nv : UInt64} : ∀ (l : List (Hash × Option Bytes)) (acc : CommitAcc),
    acc.newVersion = nv → PendOk acc →
    Mirrors M (sealUpdates C l acc) (sealUpdates C l acc) fun r => r.1.newVersion = nv ∧ PendOk r.1 := by
  intro l
  induction l with
  | nil => intro acc hv hp; exact Mirrors.pure ⟨hv, hp⟩
  | cons e l ih =>
    obtain ⟨path, o⟩ := e
    intro acc hv hp
    cases o with
    | none => exact (ih acc hv hp).bind fun r hr => Mirrors.pure hr
    | some value =>
      refine Mirrors.get_bind fun s t h => ?_
      rw [(hL.same s t h).ck]
      refine (mirrors_sealValue hL path value).bind fun ct _ => ?_
      exact (ih { acc with insertCTs := acc.insertCTs.insert path ct } hv hp).bind fun r hr => Mirrors.pure hr

theorem mirrors_appendHistoryLink (hp : PendOk acc) (c : Option Child) :
    Mirrors M (appendHistoryLink C acc c) (appendHistoryLink C acc c) (Grown acc.newVersion c) := by
  refine Mirrors.get_bind fun s t h => ?_
  have hs := hL.same s t h
  rw [hs.ck, hs.historyHead, hs.root]
  refine (mirrors_sealValue hL _ _).bind fun ct _ => ?_
  exact mirrors_applySubtree hL nibbles { acc with insertCTs := _, newHead := _ } c [] _ hp

/-- What a batch computation leaves for the commit of version `nv`. -/
def Prepared (nv : UInt64) (r : Option (CommitAcc × Option Child × Hash)) : Prop :=
  ∀ q ∈ r, q.1.newVersion = nv ∧ PendOk q.1 ∧ ∀ c ∈ q.2.1, c.version = nv

/-- **The batch computation**, where the link fixes the version of its handles. -/
theorem mirrors_computeBatch (ops : List Op) : Mirrors M (computeBatch C ops) (computeBatch C ops)
    fun r => ∀ v, (∀ s t, M.rel s t → t.version = v) → Prepared (v + 1) r := by
  refine Mirrors.get_bind fun s t h => ?_
  have hs := hL.same s t h
  suffices hbatch : Mirrors M _ _ (Prepared (t.version + 1)) from
    hbatch.mono fun r hr v hv => by rwa [← hv s t h]
  rw [hs.ck, hs.rootChild, hs.version, hs.history]
  have hnone : Prepared (t.version + 1) none := fun q hq => by cases hq
  refine (mirrors_ofExcept fun _ _ => trivial).bind fun deduped (_ : True) => ?_
  refine Mirrors.ite (fun _ => Mirrors.pure hnone) fun _ => ?_
  refine (mirrors_sealUpdates hL _ _ rfl (pendOk_empty _)).bind fun q hq => ?_
  obtain ⟨acc, us⟩ := q
  obtain ⟨hv, hp⟩ := hq
  refine (mirrors_applySubtree hL nibbles acc t.rootChild [] us hp).bind fun q hq => ?_
  obtain ⟨acc', c⟩ := q
  refine Mirrors.ite (fun _ => Mirrors.pure hnone) fun hne => ?_
  have hchild : ∀ c' ∈ c, c'.version = acc.newVersion := hq.child.resolve_left hne
  have hv' : acc'.newVersion = acc.newVersion := hq.version
  refine Mirrors.ite (fun _ => ?_) fun _ => Mirrors.pure ?_
  · -- the head leaf goes on top, in a second pass
    refine (mirrors_appendHistoryLink hL hq.pend c).bind fun q hq' => Mirrors.pure ?_
    rintro _ ⟨⟩
    refine ⟨(hq'.version.trans hv').trans hv, hq'.pend, fun c' hc' => ?_⟩
    rcases hq'.child with heq | h
    · rw [heq] at hc'
      exact (hchild c' hc').trans hv
    · exact ((h c' hc').trans hv').trans hv
  · rintro _ ⟨⟩
    exact ⟨hv'.trans hv, hq.pend, fun c' hc' => (hchild c' hc').trans hv⟩

end

end ImmutableLedger
