import ImmutableLedger.Refine.Records

/-!
# Computing a commit

The batch calls of the store up to the write: the changes are deduplicated, committed to and sealed, and
applied to the tree of the current version, for a chained store in two passes. The result is `Built`: a
tree of the updated map, with its records in the accumulator.

`Near s` is the set of handles that differ from `s` in a coherent cache and in the nonces drawn.

* `Built.start`, `Built.apply`: the current tree is built, and applying changes to a built tree builds.
* `Refines.returns_computeBatch`: a batch is a no-op exactly when it leaves the map as it is; otherwise its
  commit is built.
-/

namespace ImmutableLedger

open EStateM

variable {C : Crypto} {W : Set (Hash × Bytes)} {s : Store MemBackend} {m : Model} {g : UInt64 → Snap}

/-- The handle `s`, up to a coherent cache and the nonces drawn. -/
def Near (s s' : Store MemBackend) : Prop := ∃ c e, CacheOk s c ∧ s' = { s with cache := c, entropy := e }

theorem Near.refl (h : CacheOk s s.cache) : Near s s := ⟨s.cache, s.entropy, h, rfl⟩

section
variable {α : Type} {x : LedgerM MemBackend α} {Q : α → Prop}

/-- An outcome that does not depend on the cache, for any nonces. -/
theorem returns_of_yields (h : ∀ e, ∃ a, Yields (Around { s with entropy := e }) x (.ok a) ∧ Q a) :
    Returns (Near s) x Q := by
  rintro _ ⟨c, e, hc, rfl⟩
  obtain ⟨a, hy, hQ⟩ := h e
  obtain ⟨_, ⟨c', hc', rfl⟩, hrun⟩ := hy { s with cache := c, entropy := e } ⟨c, hc, rfl⟩
  exact ⟨a, _, hrun, ⟨c', e, hc', rfl⟩, hQ⟩

theorem returns_get {f : Store MemBackend → LedgerM MemBackend α}
    (h : ∀ c e, Returns (Near s) (f { s with cache := c, entropy := e }) Q) : Returns (Near s) (get >>= f) Q := by
  rintro _ ⟨c, e, hc, rfl⟩
  exact h c e _ ⟨c, e, hc, rfl⟩

end

/-! ## Sealing -/

theorem returns_sealValue (hC : C.GcmOk) (p : Hash) (pt : Bytes) :
    Returns (Near s) (sealValue C p pt) fun ct => openValue C s.cipher p ct = .ok pt := by
  unfold sealValue
  refine returns_get fun c e => ?_
  cases hs : s.cipher with
  | none => exact Returns.pure rfl
  | some sk =>
    rintro _ ⟨c', e', hc', rfl⟩
    refine ⟨_, _, rfl, ⟨c', fun n => e' (n + 1), hc', rfl⟩, ?_⟩
    simp only [openValue, decrypt_encrypt hC]

/-- The update of a change: the commitment to its value. -/
def toUpdate (C : Crypto) (ck : Bytes) (e : Hash × Option Bytes) : Update := ⟨e.1, e.2.map (vhOf C ck e.1)⟩

/-- The stored forms at hand for the values of the changes `l`. -/
def SealedIn (C : Crypto) (s : Store MemBackend) (cts : OrdMap Hash Bytes) (l : List (Hash × Option Bytes)) : Prop :=
  ∀ p v, (p, some v) ∈ l → ∃ ct, cts.get p = some ct ∧ openValue C s.cipher p ct = .ok v

/-- **The sealing loop** commits to the changes and keeps a stored form for each. -/
theorem returns_sealUpdates (hC : C.GcmOk) : ∀ (l : List (Hash × Option Bytes)) (acc : CommitAcc),
    l.Pairwise (fun a b => a.1 < b.1) →
    Returns (Near s) (sealUpdates C l acc) fun r => r.2 = l.map (toUpdate C s.ck) ∧
      ∃ cts, r.1 = { acc with insertCTs := cts } ∧ SealedIn C s cts l ∧
        ∀ p, (∀ e ∈ l, e.1 ≠ p) → cts.get p = acc.insertCTs.get p := by
  intro l
  induction l with
  | nil =>
    intro acc _
    exact Returns.pure ⟨rfl, acc.insertCTs, rfl, fun p v hm => by simp at hm, fun _ _ => rfl⟩
  | cons e l ih =>
    obtain ⟨p, o⟩ := e
    intro acc hs
    rw [List.pairwise_cons] at hs
    have hnotin : ∀ e ∈ l, e.1 ≠ p := fun e he => (hs.1 e he).ne'
    cases o with
    | none =>
      unfold sealUpdates
      refine (ih acc hs.2).bind fun r hr => ?_
      obtain ⟨acc', us⟩ := r
      obtain ⟨rfl, cts, rfl, hsealed, hother⟩ := hr
      refine Returns.pure ⟨rfl, cts, rfl, fun q v hm => ?_, fun q hq => hother q fun e he => hq e (by simp [he])⟩
      rcases List.mem_cons.1 hm with h | h
      · cases h
      · exact hsealed q v h
    | some value =>
      unfold sealUpdates
      refine returns_get fun c e => ?_
      refine (returns_sealValue hC p value).bind fun ct hct => ?_
      refine (ih _ hs.2).bind fun r hr => ?_
      obtain ⟨acc', us⟩ := r
      obtain ⟨rfl, cts, rfl, hsealed, hother⟩ := hr
      refine Returns.pure ⟨rfl, cts, rfl, fun q v hm => ?_, fun q hq => ?_⟩
      · rcases List.mem_cons.1 hm with h | h
        · cases h
          exact ⟨ct, by rw [hother p hnotin]; simp, hct⟩
        · exact hsealed q v h
      · rw [hother q fun e he => hq e (by simp [he])]
        simp [(hq (p, some value) (by simp)).symm]

/-! ## Changes -/

section
variable {d : OrdMap Hash (Option Bytes)} {ck : Bytes}

theorem toUpdate_sorted : (d.entries.map (toUpdate C ck)).Pairwise fun a b => a.path < b.path := by
  rw [List.pairwise_map]; exact d.sorted

theorem findVh_toUpdate (p : Hash) :
    findVh (d.entries.map (toUpdate C ck)) p = (d.get p).map (Option.map (vhOf C ck p)) := by
  cases h : d.get p with
  | none =>
    refine findVh_eq_none.2 fun u hu hp => ?_
    obtain ⟨e, he, rfl⟩ := List.mem_map.1 hu
    exact OrdMap.get_eq_none.1 h e he hp
  | some o =>
    exact findVh_of_mem (u := toUpdate C ck (p, o)) toUpdate_sorted
      (List.mem_map.2 ⟨_, OrdMap.mem_entries.2 h, rfl⟩)

variable {f : Hash → Option (Hash × UInt64)} {vals vals' : OrdMap Hash Bytes}

/-- **The updated tree holds the updated map.** -/
theorem Content.updated (h : Content C ck W f vals.get) (hd : ∀ p v, d.get p = some (some v) → (p, v) ∈ W)
    (hvals : ∀ p, vals'.get p = (d.get p).getD (vals.get p)) (nv : UInt64) :
    Content C ck W (upd nv (d.entries.map (toUpdate C ck)) f) vals'.get where
  vh p := by
    rw [hvals p]
    unfold upd
    rw [findVh_toUpdate]
    rcases d.get p with _ | _ | v
    · exact h.vh p
    · rfl
    · simp only [Option.map_some, Option.getD_some]
      cases f p with
      | none => rfl
      | some e =>
        simp only [updAt]
        split
        · rename_i heq; rw [Option.map_some, heq]
        · rfl
  mem p pt hp := by
    rw [hvals p] at hp
    cases hdp : d.get p with
    | none => rw [hdp] at hp; exact h.mem p pt hp
    | some o => rw [hdp] at hp; exact hd p pt (by rw [hdp]; exact congrArg some hp)

/-- Changes that leave the map as it is change no entry. -/
theorem Content.unchanged (h : Content C ck W f vals.get) (hvals : ∀ p, vals.get p = (d.get p).getD (vals.get p))
    (nv : UInt64) (p : Hash) : upd nv (d.entries.map (toUpdate C ck)) f p = f p := by
  have hvh := h.vh p
  have hp := hvals p
  unfold upd
  rw [findVh_toUpdate]
  cases hd : d.get p with
  | none => rfl
  | some o =>
    rw [hd, Option.getD_some] at hp
    rw [hp] at hvh
    cases o with
    | none =>
      rw [Option.map_none, Option.map_eq_none_iff] at hvh
      rw [hvh]; rfl
    | some v =>
      rw [Option.map_some] at hvh
      obtain ⟨e, he, hev⟩ := Option.map_eq_some_iff.1 hvh
      rw [he]
      simp [updAt, hev]

/-- Two maps of sealed values with the same entries are equal. -/
theorem Content.unique (hW : VhInj C ck W) (h : Content C ck W f vals.get) (h' : Content C ck W f vals'.get) :
    vals = vals' := by
  refine OrdMap.ext_get fun p => ?_
  have hvh := (h.vh p).symm.trans (h'.vh p)
  cases hp : vals.get p with
  | none => rw [hp] at hvh; cases hp' : vals'.get p <;> simp [hp'] at hvh ⊢
  | some v =>
    rw [hp] at hvh
    cases hp' : vals'.get p with
    | none => simp [hp'] at hvh
    | some v' =>
      rw [hp', Option.map_some, Option.map_some] at hvh
      have := hW (h.mem p v hp) (h'.mem p v' hp') (Option.some.inj hvh)
      rw [(Prod.mk.inj this).2]

end

/-! ## Building -/

section
variable {acc : CommitAcc} {R : Set Record} {vals vals' : OrdMap Hash Bytes} {x : Snap} {d : OrdMap Hash (Option Bytes)}
  {cts : OrdMap Hash Bytes}

/-- The tree of the current version, at the start of a commit. -/
theorem Built.start (h : Refines C W s m g) (hW : VhInj C s.ck W) (hmax : m.version < 0xFFFFFFFFFFFFFFFF)
    (cts : OrdMap Hash Bytes) :
    Built C W s ((g m.version).tree.recs C []) { newVersion := s.version + 1, insertCTs := cts } m.cur (g m.version) where
  version := rfl
  step := by
    have hx := h.snap_cur
    have hnew : ∀ r ∈ (g m.version).tree.recs C [], r.version ≠ s.version + 1 := by
      intro r hr
      have hle := hx.mono.version_le (fun v hv => (hx.ver v hv).le) r hr
      rw [h.version]
      exact (lt_of_le_of_lt hle (lt_add_one_of_lt_max hmax)).ne
    refine ⟨cts, none, Step.refl ⟨Tree.recs_in hx.holds, fun nk n _ hv => ?_, fun vh hm => ?_, fun _ _ _ => rfl⟩⟩
    · exact ⟨fun hn => (by cases hn), fun hn => absurd hv (hnew _ hn)⟩
    · exact absurd rfl (hnew _ hm)
  tree := by
    have hx := h.snap_cur
    refine ⟨hx.holds, hx.mono, fun v hv => ?_, fun p vh vv _ hf => hx.content.owned hW hf, fun r hr _ => hx.stored r hr⟩
    rw [hx.ver v hv, ← h.version]
    exact (lt_add_one_of_lt_max (by rw [h.version]; exact hmax)).le
  content := h.snap_cur.content

theorem Built.rootHash (hB : Built C W s R acc vals x) : rootHash C (x.tree.ref C) = contentRoot C s.ck vals :=
  hB.tree.holds.rootHash_eq fun p => by rw [hB.content.vh p]; unfold commitments; rw [OrdMap.get_mapVal]

/-- The updates of sealed changes can be applied. -/
theorem updatesOk_of_sealed (hW : VhInj C s.ck W) (hd : ∀ p v, d.get p = some (some v) → (p, v) ∈ W)
    (hcts : SealedIn C s cts d.entries) :
    UpdatesOk (ownerOf C s.ck W) (Sealed C s W) cts [] (d.entries.map (toUpdate C s.ck)) where
  sorted := toUpdate_sorted
  under u _ := under_nil _
  ready := by
    intro u hu vh hvh
    obtain ⟨⟨p, o⟩, he, rfl⟩ := List.mem_map.1 hu
    obtain ⟨v, rfl, rfl⟩ := Option.map_eq_some_iff.1 hvh
    have hpv := hd p v (OrdMap.mem_entries.1 he)
    obtain ⟨ct, hct, hopen⟩ := hcts p v he
    exact ⟨ownerOf_vhOf hW hpv, ct, hct, v, hpv, hopen, rfl⟩

/-- **Applying changes to a built tree builds.** The tree is new, or nothing changed; and nothing changed
when the map did not. -/
theorem Built.apply (hB : Built C W s R acc vals x) (hW : VhInj C s.ck W)
    (hd : ∀ p v, d.get p = some (some v) → (p, v) ∈ W) (hcts : SealedIn C s cts d.entries)
    (hvals : ∀ p, vals'.get p = (d.get p).getD (vals.get p)) (head : Option Hash) :
    Returns (Near s) (applySubtree C nibbles { acc with insertCTs := cts, newHead := head } (x.tree.ref C) []
        (d.entries.map (toUpdate C s.ck))) fun r =>
      ∃ y : Snap, r.2 = y.tree.ref C ∧ r.1.newHead = head ∧ r.1.newVersion = acc.newVersion ∧
        Built C W s R r.1 vals' y ∧ (y.tree = x.tree ∨ ∀ v ∈ y.tree.ver, v = acc.newVersion) ∧
        (vals' = vals → y.tree = x.tree) := by
  obtain ⟨cts₀, head₀, hstep⟩ := hB.step
  have hstep := hstep.retag cts head
  have hU := updatesOk_of_sealed hW hd hcts
  refine returns_of_yields fun e => ?_
  have htree : TreeOk C (ownerOf C s.ck W) (Sealed C s W) { s with entropy := e } acc.newVersion [] x.f x.tree :=
    ⟨hB.tree.holds, hB.tree.mono, hB.tree.ver_le, hB.tree.owned, hB.tree.stored⟩
  obtain ⟨acc', t', hy, hstep', htree', hnew, hnoop⟩ := applySubtree_spec nibbles
    { acc with insertCTs := cts, newHead := head } x.tree [] (d.entries.map (toUpdate C s.ck)) x.f rfl htree
    hstep.tracks hU
  have hcontent := hB.content.updated hd hvals acc.newVersion
  have hall := hstep.trans hstep'
  refine ⟨_, hy, ⟨t', upd acc.newVersion (d.entries.map (toUpdate C s.ck)) x.f⟩, rfl, hall.head, hall.version,
    ⟨hall.version.trans hB.version, ⟨cts, head, by rw [hall.version]; exact hall⟩, ?_, hcontent⟩, hnew,
    fun hv => hnoop fun p _ => ?_⟩
  · rw [hall.version]
    exact ⟨htree'.holds, htree'.mono, htree'.ver_le, htree'.owned, htree'.stored⟩
  · exact hB.content.unchanged (fun q => by rw [← hvals q, hv]) acc.newVersion p

/-- **The root reference is unchanged exactly when the map is.** -/
theorem Built.ref_eq_iff (h : Refines C W s m g) (hmax : m.version < 0xFFFFFFFFFFFFFFFF) (hW : VhInj C s.ck W)
    (hB : Built C W s R acc vals x) (hnew : x.tree = (g m.version).tree ∨ ∀ v ∈ x.tree.ver, v = acc.newVersion)
    (hnoop : vals = m.cur → x.tree = (g m.version).tree) : x.tree.ref C = s.rootChild ↔ vals = m.cur := by
  rw [h.child]
  constructor
  · intro href
    have hx := h.snap_cur
    have htree : x.tree = (g m.version).tree := by
      rcases hnew with heq | hver
      · exact heq
      · cases hr : (g m.version).tree.ref C with
        | none => rw [hr] at href; rw [Tree.ref_eq_none.1 href, Tree.ref_eq_none.1 hr]
        | some c =>
          rw [hr] at href
          have h1 := hver c.version (Tree.ref_version href)
          have h2 := hx.ver c.version (Tree.ref_version hr)
          rw [hB.version, h2, h.version] at h1
          exact absurd h1 (lt_add_one_of_lt_max hmax).ne
    have hH := hB.tree.holds
    rw [htree] at hH
    have hf : x.f = (g m.version).f := funext fun p => hH.unique hx.holds p (under_nil p)
    have hc := hB.content
    rw [hf] at hc
    exact Content.unique hW hc hx.content
  · intro hv; rw [hnoop hv]

end

/-! ## Batches -/

section
variable {ck : Bytes}

/-- **The dedupe loop**: the last operation on a path wins. -/
theorem dedupe_ok {ops : List Op} (hres : Model.reservedOp ops = none) : ∀ d₀ : OrdMap Hash (Option Bytes),
    ∃ d, dedupe C ck ops d₀ = .ok d ∧
      (∀ vals₀ vals : OrdMap Hash Bytes, (∀ p, vals.get p = (d₀.get p).getD (vals₀.get p)) →
        ∀ p, (applyOps C ck vals ops).get p = (d.get p).getD (vals₀.get p)) ∧
      ∀ p v, d.get p = some (some v) → d₀.get p = some (some v) ∨ (p, v) ∈ opPairs C ck ops := by
  induction ops with
  | nil => intro d₀; exact ⟨d₀, rfl, fun _ _ h => h, fun p v h => .inl h⟩
  | cons op ops ih =>
    intro d₀
    unfold Model.reservedOp at hres ih
    rw [List.find?_eq_none] at hres
    have hop : ¬ reservedKeyPrefix.isPrefixOf op.key = true := hres op List.mem_cons_self
    obtain ⟨d, hd, hvals, hpairs⟩ := ih (List.find?_eq_none.2 fun o ho => hres o (List.mem_cons_of_mem _ ho))
      (d₀.insert (pathOf C ck op.key) (if op.delete then none else some op.value))
    refine ⟨d, by rw [dedupe, if_neg hop, hd], fun vals₀ vals h => ?_, fun p v hp => ?_⟩
    · refine hvals vals₀ (applyOp C ck vals op) fun p => ?_
      unfold applyOp
      by_cases hp : p = pathOf C ck op.key
      · cases op.delete <;> simp [hp]
      · cases op.delete <;> simp [hp, h p]
    · rcases hpairs p v hp with h | h
      · rw [OrdMap.get_insert] at h
        split at h
        · rename_i hpk
          right
          cases hdel : op.delete with
          | true => simp [hdel] at h
          | false =>
            simp only [hdel, Bool.false_eq_true, if_false, Option.some.injEq] at h
            exact List.mem_filterMap.2 ⟨op, List.mem_cons_self, by simp [hdel, hpk, h]⟩
        · exact .inl h
      · exact .inr (by
          obtain ⟨o, ho, he⟩ := List.mem_filterMap.1 h
          exact List.mem_filterMap.2 ⟨o, List.mem_cons_of_mem _ ho, he⟩)

/-- A batch with a reserved key is refused. -/
theorem dedupe_reserved {ops : List Op} {op : Op} (hres : Model.reservedOp ops = some op) :
    ∀ d₀ : OrdMap Hash (Option Bytes), dedupe C ck ops d₀ =
      .error (errInvalidf "key %q uses the reserved system prefix" [.key op.key]) := by
  induction ops with
  | nil => cases hres
  | cons o ops ih =>
    intro d₀
    unfold Model.reservedOp at hres ih
    rw [dedupe]
    by_cases ho : reservedKeyPrefix.isPrefixOf o.key = true
    · rw [List.find?_cons_of_pos (by simpa using ho)] at hres
      cases hres
      rw [if_pos ho]
    · rw [List.find?_cons_of_neg (by simpa using ho)] at hres
      rw [if_neg ho]
      exact ih hres _

end

/-- A commit of the model `m'`, computed: its tree is built, and the root reference and root are its. -/
structure Computed (C : Crypto) (W : Set (Hash × Bytes)) (s : Store MemBackend) (m : Model) (g : UInt64 → Snap)
    (acc : CommitAcc) (rootChild : Option Child) (root : Hash) (m' : Model) (x : Snap) : Prop where
  built : Built C W s ((g m.version).tree.recs C []) acc m'.cur x
  ver : ∀ v ∈ x.tree.ver, v = acc.newVersion
  child : rootChild = x.tree.ref C
  root : root = contentRoot C s.ck m'.cur
  commit : m' = m.commit m'.cur (acc.newHead.getD m.head)

section
variable (h : Refines C W s m g) (hC : C.GcmOk) (hW : VhInj C s.ck W) (hmax : m.version < 0xFFFFFFFFFFFFFFFF)
include h hC hW hmax

omit hC in
/-- Sealed changes applied to the current tree. -/
theorem Refines.returns_apply {d : OrdMap Hash (Option Bytes)} {vals : OrdMap Hash Bytes} {cts : OrdMap Hash Bytes}
    (hd : ∀ p v, d.get p = some (some v) → (p, v) ∈ W) (hcts : SealedIn C s cts d.entries)
    (hvals : ∀ p, vals.get p = (d.get p).getD (m.cur.get p)) :
    Returns (Near s) (applySubtree C nibbles { newVersion := s.version + 1, insertCTs := cts } s.rootChild []
        (d.entries.map (toUpdate C s.ck))) fun r =>
      ∃ x : Snap, r.2 = x.tree.ref C ∧ r.1.newHead = none ∧
        Built C W s ((g m.version).tree.recs C []) r.1 vals x ∧
        (r.2 = s.rootChild ↔ vals = m.cur) ∧ (vals ≠ m.cur → ∀ v ∈ x.tree.ver, v = r.1.newVersion) := by
  have hstart := Built.start h hW hmax cts
  have happ := hstart.apply hW hd hcts hvals none
  rw [← h.child] at happ
  intro s₀ hs₀
  obtain ⟨r, s', hrun, hs', x, hx, hhead, hv, hB, hnew, hnoop⟩ := happ s₀ hs₀
  rw [← hv] at hnew
  have hiff := hB.ref_eq_iff h hmax hW hnew hnoop
  refine ⟨r, s', hrun, hs', x, hx, hhead, hB, by rw [hx]; exact hiff, fun hne => ?_⟩
  rcases hnew with heq | hver
  · exact absurd (hiff.1 (by rw [heq, h.child])) hne
  · exact hver

omit hmax in
/-- The history link on top of a built tree. -/
theorem Built.returns_link {acc : CommitAcc} {vals : OrdMap Hash Bytes} {x : Snap}
    (hB : Built C W s ((g m.version).tree.recs C []) acc vals x) (hver : ∀ v ∈ x.tree.ver, v = acc.newVersion)
    (hhead : (historyPath C s.ck, (m.nextHead C s.ck).bytes) ∈ W) :
    Returns (Near s) (appendHistoryLink C acc (x.tree.ref C)) fun r =>
      r.1.newHead = some (m.nextHead C s.ck) ∧
      ∃ y : Snap, r.2 = y.tree.ref C ∧ (∀ v ∈ y.tree.ver, v = r.1.newVersion) ∧
        Built C W s ((g m.version).tree.recs C []) r.1
          (vals.insert (historyPath C s.ck) (m.nextHead C s.ck).bytes) y := by
  unfold appendHistoryLink
  refine returns_get fun c e => ?_
  have hlink : historyLink C s.historyHead s.root acc.newVersion = m.nextHead C s.ck := by
    rw [h.head, h.root, hB.version, h.version]; rfl
  simp only [hlink]
  refine (returns_sealValue hC _ _).bind fun ct hct => ?_
  set d : OrdMap Hash (Option Bytes) := OrdMap.empty.insert (historyPath C s.ck) (some (m.nextHead C s.ck).bytes) with hd
  have hget : ∀ p, d.get p = if p = historyPath C s.ck then some (some (m.nextHead C s.ck).bytes) else none := by
    intro p; rw [hd]; simp
  have hmem : ∀ p v, d.get p = some (some v) → (p, v) ∈ W := by
    intro p v hp
    rw [hget] at hp
    split at hp
    · rename_i hpe; cases hp; rw [hpe]; exact hhead
    · cases hp
  have hcts : SealedIn C s (acc.insertCTs.insert (historyPath C s.ck) ct) d.entries := by
    intro p v hp
    have hp := OrdMap.mem_entries.1 hp
    rw [hget] at hp
    split at hp
    · rename_i hpe; cases hp; exact ⟨ct, by simp [hpe], by rw [hpe]; exact hct⟩
    · cases hp
  have hvals : ∀ p, (vals.insert (historyPath C s.ck) (m.nextHead C s.ck).bytes).get p =
      (d.get p).getD (vals.get p) := by
    intro p
    rw [OrdMap.get_insert, hget]
    split <;> rfl
  have happ := hB.apply hW hmem hcts hvals (some (m.nextHead C s.ck))
  intro s₀ hs₀
  obtain ⟨r, s', hrun, hs', y, hy, hh, hv, hB', hnew, -⟩ := happ s₀ hs₀
  refine ⟨r, s', hrun, hs', hh, y, hy, ?_, hB'⟩
  rw [hv]
  rcases hnew with heq | hn
  · rw [heq]; exact hver
  · exact hn

/-- **The computation of a batch**: nothing when the map stays as it is, else the commit of the model. -/
theorem Refines.returns_computeBatch {ops : List Op} (hres : Model.reservedOp ops = none)
    (hpairs : ∀ e ∈ opPairs C s.ck ops, e ∈ W)
    (hhead : m.history = true → (historyPath C s.ck, (m.nextHead C s.ck).bytes) ∈ W) :
    Returns (Near s) (computeBatch C ops) fun r =>
      (r = none ∧ applyOps C s.ck m.cur ops = m.cur) ∨
      (applyOps C s.ck m.cur ops ≠ m.cur ∧ ∃ acc rootChild root x, r = some (acc, rootChild, root) ∧
        Computed C W s m g acc rootChild root (m.commitLinked C s.ck (applyOps C s.ck m.cur ops)) x) := by
  obtain ⟨d, hd, hvals, hdp⟩ := @dedupe_ok C s.ck ops hres OrdMap.empty
  have hvals := hvals m.cur m.cur fun p => rfl
  set vals := applyOps C s.ck m.cur ops with hv
  unfold computeBatch
  refine returns_get fun c e => ?_
  simp only [hd]
  refine (Returns.pure (Q := (· = d)) rfl).bind fun d' hd' => ?_
  subst hd'
  by_cases hempty : d'.entries = []
  · rw [if_pos hempty]
    refine Returns.pure (.inl ⟨rfl, OrdMap.ext_get fun p => ?_⟩)
    rw [hvals p, OrdMap.get_eq_none.2 (by rw [hempty]; simp)]; rfl
  · rw [if_neg hempty]
    have hpairs' : ∀ p v, d'.get p = some (some v) → (p, v) ∈ W :=
      fun p v hp => hpairs _ ((hdp p v hp).resolve_left (by simp))
    refine (returns_sealUpdates hC d'.entries _ d'.sorted).bind fun r hr => ?_
    obtain ⟨acc, us⟩ := r
    obtain ⟨rfl, cts, rfl, hsealed, -⟩ := hr
    refine (h.returns_apply hW hmax hpairs' hsealed hvals).bind fun r hr => ?_
    obtain ⟨acc, child⟩ := r
    obtain ⟨x, rfl, hnone, hB, hiff, hver⟩ := hr
    simp only at hnone hB hiff hver ⊢
    by_cases hsame : x.tree.ref C = s.rootChild
    · rw [if_pos hsame]
      exact Returns.pure (.inl ⟨rfl, hiff.1 hsame⟩)
    · rw [if_neg hsame]
      have hne : vals ≠ m.cur := mt hiff.2 hsame
      have hver := hver hne
      rw [h.history]
      unfold Model.commitLinked
      by_cases hhist : m.history = true
      · rw [if_pos hhist, if_pos hhist]
        refine (hB.returns_link h hC hW hver (hhead hhist)).bind fun r hr => ?_
        obtain ⟨acc', child'⟩ := r
        obtain ⟨hnh, y, rfl, hvy, hBy⟩ := hr
        simp only at hnh hvy hBy ⊢
        refine Returns.pure (.inr ⟨hne, acc', _, _, y, rfl, hBy, hvy, rfl, ?_, ?_⟩)
        · exact hBy.rootHash
        · rw [hnh]; rfl
      · rw [if_neg hhist, if_neg hhist]
        refine Returns.pure (.inr ⟨hne, acc, _, _, x, rfl, hB, hver, rfl, ?_, ?_⟩)
        · exact hB.rootHash
        · rw [hnone]; rfl

end

end ImmutableLedger
