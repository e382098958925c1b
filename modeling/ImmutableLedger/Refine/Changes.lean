import ImmutableLedger.Tree.Diff
import ImmutableLedger.Refine.Invariant
import ImmutableLedger.Security.Binding

/-!
# The changes of a version

`ChangesAt` on a store that holds a versioned map: when the trees of a version and of its predecessor meet no
collision, it returns the difference of the two maps, outside the path of the chain head.

* `IsDiff`: the difference of two maps, as a list of changes.
* `DiffLeaves`: what the lockstep walk has collected of two versions, by their values.
* `Refines.yields_changesAt`: `ChangesAt` returns the difference.
-/

namespace ImmutableLedger

open EStateM SparseMerkle

variable {C : Crypto} {W : Set (Hash × Bytes)} {s : Store MemBackend} {m : Model} {g : UInt64 → Snap}

/-- The changes `l` are the difference of two maps outside the path `hp`, strictly by path: a put with the new value
where the value is not the old one, a delete where no value is left. -/
structure IsDiff (hp : Hash) (old new : OrdMap Hash Bytes) (l : List Change) : Prop where
  sorted : l.Pairwise fun a b => a.path < b.path
  mem : ∀ c, c ∈ l ↔ c.path ≠ hp ∧
    ((c.deleted = false ∧ new.get c.path = some c.value ∧ old.get c.path ≠ some c.value) ∨
      (c.deleted = true ∧ c.value = [] ∧ (old.get c.path).isSome ∧ new.get c.path = none))

/-! ## The record of an entry -/

/-- The value record of an entry is one of its tree. -/
theorem Tree.Holds.mem_value {t : Tree} {f : Hash → Option (Hash × UInt64)} : ∀ {pfx : List Nib}, t.Holds f pfx →
    ∀ {p vh vv}, Under pfx p → f p = some (vh, vv) → Record.value p vh vv ∈ t.recs C pfx := by
  induction t with
  | nil =>
    intro pfx h p vh vv hp hf
    rw [h p hp] at hf
    cases hf
  | leaf v l =>
    intro pfx h p vh vv hp hf
    obtain ⟨hl, hfl, hno⟩ := h
    by_cases hpl : p = l.path
    · subst hpl
      rw [hfl] at hf
      cases hf
      exact .inr rfl
    · rw [hno p hp hpl] at hf
      cases hf
  | node v ch ih =>
    intro pfx h p vh vv hp hf
    exact .inr ⟨_, ih _ (h.2 _) hp.extend hf⟩

/-- The value of an entry of a readable version. -/
theorem SnapOk.yields_readValue {w : UInt64} {vals : OrdMap Hash Bytes} {x : Snap} (hW : VhInj C s.ck W)
    (hx : SnapOk C W s w vals x) {p vh : Hash} {vv : UInt64} (hf : x.f p = some (vh, vv)) :
    ∃ pt, vals.get p = some pt ∧ Yields (Around s) (readValue C p vh vv) (.ok pt) :=
  yields_readValue_entry hW hx.content hf (hx.stored _ (hx.holds.mem_value (under_nil p) hf))

variable {old new : OrdMap Hash Bytes} {w w' : UInt64}

/-- Versions have the same commitment at a path when they have the same value there. -/
theorem SnapOk.same_value {x x' : Snap} (hW : VhInj C s.ck W)
    (hx : SnapOk C W s w old x) (hx' : SnapOk C W s w' new x') (p : Hash) :
    (x.f p).map Prod.fst = (x'.f p).map Prod.fst ↔ old.get p = new.get p := by
  rw [hx.content.vh p, hx'.content.vh p]
  refine ⟨fun h => ?_, fun h => by rw [h]⟩
  cases ho : old.get p with
  | none =>
    rw [ho] at h
    exact (Option.map_eq_none_iff.1 h.symm).symm
  | some a =>
    rw [ho, Option.map_some] at h
    obtain ⟨b, hb, hvh⟩ := Option.map_eq_some_iff.1 h.symm
    have hab : (p, b) = (p, a) := hW (hx'.content.mem p b hb) (hx.content.mem p a ho) hvh
    cases hab
    exact hb.symm

/-! ## What the walk collects -/

/-- The leaves collected of two versions: where their values differ, both are collected, and what is collected is
the leaf of the entry. -/
structure DiffLeaves (x x' : Snap) (old new : OrdMap Hash Bytes) (out : LeafMap × LeafMap) : Prop where
  old_leaf : ∀ p l, out.1.get p = some l → ∃ e, x.f p = some e ∧ l = entryLeaf p e
  new_leaf : ∀ p l, out.2.get p = some l → ∃ e, x'.f p = some e ∧ l = entryLeaf p e
  both : ∀ p, (out.1.get p = (x.f p).map (entryLeaf p) ∧ out.2.get p = (x'.f p).map (entryLeaf p)) ∨
    (out.1.get p = none ∧ out.2.get p = none ∧ old.get p = new.get p)

theorem DiffLeaves.of_diffed {x x' : Snap} (hW : VhInj C s.ck W)
    (hx : SnapOk C W s w old x) (hx' : SnapOk C W s w' new x') {out : LeafMap × LeafMap}
    (h : Diffed x.f x'.f [] (OrdMap.empty, OrdMap.empty) out) : DiffLeaves x x' old new out := by
  have hboth : ∀ p, (out.1.get p = (x.f p).map (entryLeaf p) ∧ out.2.get p = (x'.f p).map (entryLeaf p)) ∨
      (out.1.get p = none ∧ out.2.get p = none ∧ old.get p = new.get p) := by
    intro p
    rcases h.under p (under_nil p) with ⟨h₁, h₂⟩ | ⟨h₁, h₂, hsame⟩
    · rw [OrdMap.get_empty, Option.or_none] at h₁ h₂
      exact .inl ⟨h₁, h₂⟩
    · rw [OrdMap.get_empty] at h₁ h₂
      exact .inr ⟨h₁, h₂, (hx.same_value hW hx' p).1 hsame⟩
  refine ⟨fun p l hl => ?_, fun p l hl => ?_, hboth⟩
  · rcases hboth p with ⟨h₁, -⟩ | ⟨h₁, -⟩
    · rw [h₁, Option.map_eq_some_iff] at hl
      obtain ⟨e, he, rfl⟩ := hl
      exact ⟨e, he, rfl⟩
    · rw [h₁] at hl
      cases hl
  · rcases hboth p with ⟨-, h₂⟩ | ⟨-, h₂, -⟩
    · rw [h₂, Option.map_eq_some_iff] at hl
      obtain ⟨e, he, rfl⟩ := hl
      exact ⟨e, he, rfl⟩
    · rw [h₂] at hl
      cases hl

/-- The puts of a list of collected leaves: the values read are those of the version. -/
theorem SnapOk.yields_changedPuts {w : UInt64} {new : OrdMap Hash Bytes} {x : Snap} (hW : VhInj C s.ck W)
    (hx : SnapOk C W s w new x) {hp : Hash} {old : LeafMap} : ∀ {E : List (Hash × LeafNode)},
    (∀ e ∈ E, ∃ en, x.f e.1 = some en ∧ e.2 = entryLeaf e.1 en) →
    ∃ puts, Yields (Around s) (changedPuts C hp old E) (.ok puts) ∧
      (puts.map Change.path).Sublist (E.map Prod.fst) ∧
      ∀ c, c ∈ puts ↔ c.deleted = false ∧ c.path ≠ hp ∧ new.get c.path = some c.value ∧
        ∃ l, (c.path, l) ∈ E ∧ ¬ ∃ o ∈ old.get c.path, o.vh = l.vh := by
  intro E
  induction E with
  | nil =>
    intro _
    refine ⟨[], Yields.pure _, List.Sublist.refl _, fun c => ⟨fun h => (by cases h), ?_⟩⟩
    rintro ⟨-, -, -, l, hl, -⟩
    cases hl
  | cons e E ih =>
    intro hE
    obtain ⟨p, leaf⟩ := e
    obtain ⟨puts, hy, hsub, hmem⟩ := ih fun e he => hE e (List.mem_cons_of_mem _ he)
    have hhead : ∃ en, x.f p = some en ∧ leaf = entryLeaf p en := hE (p, leaf) List.mem_cons_self
    obtain ⟨⟨vh, vv⟩, hf, rfl⟩ := hhead
    unfold changedPuts
    by_cases hskip : p = hp ∨ ∃ o ∈ old.get p, o.vh = (entryLeaf p (vh, vv)).vh
    · rw [if_pos hskip]
      refine ⟨puts, hy, hsub.cons _, fun c => ?_⟩
      rw [hmem c]
      constructor
      · rintro ⟨hd, hne, hv, l, hl, hno⟩
        exact ⟨hd, hne, hv, l, List.mem_cons_of_mem _ hl, hno⟩
      · rintro ⟨hd, hne, hv, l, hl, hno⟩
        refine ⟨hd, hne, hv, l, (List.mem_cons.1 hl).resolve_left fun heq => ?_, hno⟩
        -- the skipped leaf is not a put
        cases heq
        exact hskip.elim hne hno
    · rw [if_neg hskip]
      obtain ⟨hne, hno⟩ := not_or.1 hskip
      obtain ⟨pt, hpt, hread⟩ := hx.yields_readValue hW hf
      refine ⟨{ path := p, value := pt } :: puts, hread.bind (hy.bind (Yields.pure _)), hsub.cons_cons _, fun c => ?_⟩
      rw [List.mem_cons, hmem c]
      constructor
      · rintro (rfl | ⟨hd, hne', hv, l, hl, hno'⟩)
        · exact ⟨rfl, hne, hpt, _, List.mem_cons_self, hno⟩
        · exact ⟨hd, hne', hv, l, List.mem_cons_of_mem _ hl, hno'⟩
      · rintro ⟨hd, hne', hv, l, hl, hno'⟩
        rcases List.mem_cons.1 hl with heq | hl
        · left
          obtain ⟨path, value, deleted⟩ := c
          cases heq
          rw [hpt] at hv
          cases hv
          cases hd
          rfl
        · exact .inr ⟨hd, hne', hv, l, hl, hno'⟩

/-! ## The changes -/

section
variable {x x' : Snap} {old new : OrdMap Hash Bytes} {out : LeafMap × LeafMap} {hp : Hash}

/-- A collected new leaf whose value is not the old one. -/
theorem DiffLeaves.put_iff (h : DiffLeaves x x' old new out) (hW : VhInj C s.ck W)
    (hx : SnapOk C W s w old x) (hx' : SnapOk C W s w' new x') {p : Hash} {v : Bytes} (hv : new.get p = some v) :
    (∃ l, (p, l) ∈ out.2.entries ∧ ¬ ∃ o ∈ out.1.get p, o.vh = l.vh) ↔ old.get p ≠ some v := by
  have hsame := hx.same_value hW hx' p
  -- the new value has an entry
  have hentry : ∃ e, x'.f p = some e := by
    have hvh := hx'.content.vh p
    rw [hv, Option.map_some] at hvh
    obtain ⟨e, he, -⟩ := Option.map_eq_some_iff.1 hvh
    exact ⟨e, he⟩
  obtain ⟨e, he⟩ := hentry
  rw [hv] at hsame
  constructor
  · rintro ⟨l, hl, hno⟩ hold
    rw [OrdMap.mem_entries] at hl
    obtain ⟨e', he', rfl⟩ := h.new_leaf p l hl
    have hfst := hsame.2 hold
    rcases h.both p with ⟨h₁, -⟩ | ⟨-, h₂, -⟩
    · rw [he', Option.map_some] at hfst
      obtain ⟨e₀, he₀, hvh⟩ := Option.map_eq_some_iff.1 hfst
      exact hno ⟨entryLeaf p e₀, by rw [h₁, he₀]; rfl, hvh⟩
    · rw [h₂] at hl
      cases hl
  · intro hold
    rcases h.both p with ⟨h₁, h₂⟩ | ⟨-, -, heq⟩
    · refine ⟨entryLeaf p e, OrdMap.mem_entries.2 (by rw [h₂, he]; rfl), ?_⟩
      rintro ⟨o, ho, hvh⟩
      rw [h₁] at ho
      obtain ⟨e₀, he₀, rfl⟩ := Option.map_eq_some_iff.1 ho
      refine hold (hsame.1 ?_)
      rw [he₀, he]
      exact congrArg some hvh
    · exact absurd (heq.trans hv) hold

/-- The deletes are the paths with an old value and no new one. -/
theorem DiffLeaves.mem_deletes (h : DiffLeaves x x' old new out) (hx : SnapOk C W s w old x)
    (hx' : SnapOk C W s w' new x') (c : Change) : c ∈ changedDeletes hp out.1 out.2 ↔
      c.path ≠ hp ∧ c.deleted = true ∧ c.value = [] ∧ (old.get c.path).isSome ∧ new.get c.path = none := by
  have hval : ∀ {w : UInt64} {vals : OrdMap Hash Bytes} {x : Snap}, SnapOk C W s w vals x → ∀ p,
      (vals.get p).isSome = (x.f p).isSome := by
    intro w vals x hx p
    have hvh := congrArg Option.isSome (hx.content.vh p)
    rw [Option.isSome_map, Option.isSome_map] at hvh
    exact hvh.symm
  unfold changedDeletes
  rw [List.mem_map]
  constructor
  · rintro ⟨e, he, rfl⟩
    obtain ⟨hin, hcond⟩ := List.mem_filter.1 he
    rw [Bool.and_eq_true, decide_eq_true_eq, Option.isNone_iff_eq_none] at hcond
    have hget : out.1.get e.1 = some e.2 := OrdMap.mem_entries.1 hin
    obtain ⟨en, hf, -⟩ := h.old_leaf _ _ hget
    refine ⟨hcond.1, rfl, rfl, ?_, ?_⟩
    · show (old.get e.1).isSome
      rw [hval hx, hf]
      rfl
    · show new.get e.1 = none
      rcases h.both e.1 with ⟨-, h₂⟩ | ⟨h₁, -⟩
      · have hnone : (x'.f e.1).isSome = false := by
          rw [hcond.2] at h₂
          rw [Option.map_eq_none_iff.1 h₂.symm]
          rfl
        rw [← Option.not_isSome_iff_eq_none, hval hx', hnone]
        exact Bool.false_ne_true
      · rw [hget] at h₁
        cases h₁
  · rintro ⟨hne, hd, hv, hold, hnew⟩
    rcases h.both c.path with ⟨h₁, h₂⟩ | ⟨-, -, heq⟩
    · rw [hval hx] at hold
      obtain ⟨en, hf⟩ := Option.isSome_iff_exists.1 hold
      have hf' : x'.f c.path = none := by
        rw [← Option.not_isSome_iff_eq_none, ← hval hx', hnew]
        exact Bool.false_ne_true
      rw [hf, Option.map_some] at h₁
      rw [hf', Option.map_none] at h₂
      refine ⟨(c.path, entryLeaf c.path en), List.mem_filter.2 ⟨OrdMap.mem_entries.2 h₁, ?_⟩, ?_⟩
      · rw [h₂, decide_eq_true hne]
        rfl
      · obtain ⟨path, value, deleted⟩ := c
        cases hd
        cases hv
        rfl
    · rw [heq, hnew] at hold
      cases hold

/-- The paths of the deletes are those of collected old leaves, in order. -/
theorem deletes_sublist (lo ln : LeafMap) :
    ((changedDeletes hp lo ln).map Change.path).Sublist (lo.entries.map Prod.fst) := by
  unfold changedDeletes
  rw [List.map_map]
  exact (List.filter_sublist).map _

end

/-- Changes at different paths, sorted by path, are strictly sorted. -/
theorem sorted_changes {l : List Change} (hnd : (l.map Change.path).Nodup) :
    (l.insertionSort fun a b => a.path ≤ b.path).Pairwise fun a b => a.path < b.path := by
  have : IsTrans Change fun a b => a.path ≤ b.path := ⟨fun _ _ _ => le_trans⟩
  have : @Std.Total Change fun a b => a.path ≤ b.path := ⟨fun a b => le_total a.path b.path⟩
  have hle := List.pairwise_insertionSort (fun a b : Change => a.path ≤ b.path) l
  have hperm := List.perm_insertionSort (fun a b : Change => a.path ≤ b.path) l
  have hne : (l.insertionSort fun a b => a.path ≤ b.path).Pairwise fun a b => a.path ≠ b.path :=
    List.pairwise_map.1 ((hperm.map Change.path).nodup_iff.2 hnd)
  exact hle.imp₂ (fun a b h₁ h₂ => lt_of_le_of_ne h₁ h₂) hne

/-- **`ChangesAt` returns the difference of a version and its predecessor**, when both are readable and their trees
meet no collision. -/
theorem Refines.yields_changesAt (h : Refines C W s m g) (hW : VhInj C s.ck W) {v : UInt64}
    (hv : v ≠ 0) (hold : m.past (v - 1) = some old) (hnew : m.past v = some new)
    (hcol : ¬ Collision C (treeInputs C (commitments C s.ck old) ++ treeInputs C (commitments C s.ck new))) :
    ∃ l, Yields (Around s) (Store.changesAt C v) (.ok l) ∧ IsDiff (historyPath C s.ck) old new l := by
  obtain ⟨-, hx⟩ := h.snaps (v - 1) old hold
  obtain ⟨hle, hx'⟩ := h.snaps v new hnew
  -- the walk
  have hL := @located_map C _ (g (v - 1)).f _ hx.commitments fun x hx => List.mem_append_left
    (treeInputs C (commitments C s.ck new)) hx
  have hL' := @located_map C _ (g v).f _ hx'.commitments fun x hx => List.mem_append_right
    (treeInputs C (commitments C s.ck old)) hx
  obtain ⟨out, hwalk, hdiffed⟩ := yields_diffChildren (injOn_of_not_collision hcol) nibbles
    (OrdMap.empty, OrdMap.empty) rfl hx.holds hx'.holds hx.stored hx'.stored hL hL'
  have hout := DiffLeaves.of_diffed hW hx hx' hdiffed
  obtain ⟨puts, hputs, hsub, hmem⟩ := @SnapOk.yields_changedPuts _ _ _ _ _ _ hW hx' (historyPath C s.ck) out.1
    out.2.entries fun e he => hout.new_leaf e.1 e.2 (OrdMap.mem_entries.1 he)
  have hmem' : ∀ c, c ∈ puts ++ changedDeletes (historyPath C s.ck) out.1 out.2 ↔ c.path ≠ historyPath C s.ck ∧
      ((c.deleted = false ∧ new.get c.path = some c.value ∧ old.get c.path ≠ some c.value) ∨
        (c.deleted = true ∧ c.value = [] ∧ (old.get c.path).isSome ∧ new.get c.path = none)) := by
    intro c
    rw [List.mem_append, hmem c, hout.mem_deletes hx hx' c]
    constructor
    · rintro (⟨hd, hne, hval, hput⟩ | ⟨hne, hdel⟩)
      · exact ⟨hne, .inl ⟨hd, hval, (hout.put_iff hW hx hx' hval).1 hput⟩⟩
      · exact ⟨hne, .inr hdel⟩
    · rintro ⟨hne, ⟨hd, hval, hother⟩ | hdel⟩
      · exact .inl ⟨hd, hne, hval, (hout.put_iff hW hx hx' hval).2 hother⟩
      · exact .inr ⟨hne, hdel⟩
  -- a path is put or deleted, not both
  have hnd : ((puts ++ changedDeletes (historyPath C s.ck) out.1 out.2).map Change.path).Nodup := by
    rw [List.map_append]
    refine List.nodup_append.2 ⟨hsub.nodup out.2.nodup_keys, (deletes_sublist _ _).nodup out.1.nodup_keys, ?_⟩
    intro p hp q hq hpq
    obtain ⟨a, ha, rfl⟩ := List.mem_map.1 hp
    obtain ⟨b, hb, rfl⟩ := List.mem_map.1 hq
    obtain ⟨-, -, hval, -⟩ := (hmem a).1 ha
    obtain ⟨-, -, -, -, hnone⟩ := (hout.mem_deletes hx hx' b).1 hb
    rw [← hpq, hval] at hnone
    cases hnone
  refine ⟨_, ?_, sorted_changes hnd, fun c => ?_⟩
  · unfold Store.changesAt
    refine yields_get_store fun c _ => ?_
    have hrange : ¬ (v = 0 ∨ v > s.version) := by
      rw [h.version, not_or]
      exact ⟨hv, not_lt.2 hle⟩
    show Yields _ (if v = 0 ∨ v > s.version then _ else _) _
    rw [if_neg hrange]
    refine (h.yields_loadRootRecord hold).bind ((h.yields_loadRootRecord hnew).bind ?_)
    refine hx.yields_loadRootChild.bind (hx'.yields_loadRootChild.bind ?_)
    exact hwalk.bind (hputs.bind (Yields.pure _))
  · rw [List.mem_insertionSort]
    exact hmem' c

end ImmutableLedger
