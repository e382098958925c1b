import ImmutableLedger.Refine.Twin
import ImmutableLedger.Security.Hostile

/-!
# Deep trees and readers

A reader descends as long as the records it loads are internal nodes with the hashes their references ask for, and
reads one nibble of a path at every level. The path has 64. Nothing bounds the descent but the hashes, and these a
storage can compute bottom-up: for a historical read it supplies the root as well.

* `LinkedDown`: a chain of internal nodes along a path.
* `walkFrom_falls`, `proveFrom_falls`, `collectLeaves_falls`: a descent indexes past the path exactly when the chain
  goes on below its last nibble.
* `lookup_safe_iff`: a read ends in a result or an error exactly when the storage has no such chain for it.
* `deepStore_deep`: whatever the hash function, a storage can have one.
-/

namespace ImmutableLedger

open EStateM

variable {C : Crypto} {b : Store MemBackend}

/-! ## Outcomes -/

/-- An outcome that is not a crash. -/
def Calm {α : Type} (r : Except Err α) : Prop := ∀ e, r = .error e → e ≠ .panic ∧ e ≠ .hang

/-- A panic when `D`, and no crash otherwise. -/
def Falls {α : Type} (D : Prop) (r : Except Err α) : Prop := (D → r = .error .panic) ∧ (¬ D → Calm r)

variable {α : Type}

theorem calm_ok (a : α) : Calm (.ok a) := fun _ h => by cases h

theorem calm_error {kind : Kind} {f : String} {args : List Arg} :
    Calm (.error (.error kind f args) : Except Err α) := by
  intro e h
  cases h
  exact ⟨fun h => (by cases h), fun h => (by cases h)⟩

theorem Calm.cast {α γ : Type} {e : Err} (h : Calm (.error e : Except Err α)) : Calm (.error e : Except Err γ) := by
  intro e' he
  cases he
  exact h e rfl

variable {D : Prop} {r : Except Err α}

theorem Calm.falls (h : Calm r) (hD : ¬ D) : Falls D r :=
  ⟨fun hd => absurd hd hD, fun _ => h⟩

theorem falls_panic (hD : D) : Falls D (.error .panic : Except Err α) :=
  ⟨fun _ => rfl, fun h => absurd hD h⟩

theorem Falls.cast {α γ : Type} {e : Err} (h : Falls D (.error e : Except Err α)) :
    Falls D (.error e : Except Err γ) := by
  refine ⟨fun hD => ?_, fun hD => (h.2 hD).cast⟩
  cases h.1 hD
  rfl

theorem Falls.congr {D D' : Prop} (h : Falls D r) (hD : D ↔ D') : Falls D' r := by
  rwa [← propext hD]

/-- The outcome crashes exactly when `D`. -/
theorem Falls.calm_iff (h : Falls D r) : Calm r ↔ ¬ D := by
  refine ⟨fun hc hD => ?_, h.2⟩
  exact (hc .panic (h.1 hD)).1 rfl

/-! ## Loads -/

/-- The handle `b` with a cache of its own records. -/
def Held (b s : Store MemBackend) : Prop := ∃ c, Faithful b.backend c ∧ s = { b with cache := c }

theorem yields_held_loadNode (nk : NodeKey) (h : Hash) : Yields (Held b) (loadNode C nk h) (loadedNode C b nk h) := by
  rintro s ⟨c, hc, rfl⟩
  obtain ⟨c', hc', hrun⟩ := loadNode_faithful (C := C) nk h hc b.entropy
  exact ⟨_, ⟨c', hc'.faithful hc, rfl⟩, hrun⟩

theorem yields_held_backendGet (key : Bytes) : Yields (Held b) (backendGet key) (.ok (OrdMap.get b.backend key)) := by
  rintro s ⟨c, hc, rfl⟩
  exact ⟨_, ⟨c, hc, rfl⟩, rfl⟩

/-- A program that reads the handle but not its cache. -/
theorem ends_held_get {f : Store MemBackend → LedgerM MemBackend α} {P : Except Err α → Prop}
    (hf : ∀ c, f { b with cache := c } = f b) (h : Ends (Held b) (f b) P) : Ends (Held b) (get >>= f) P := by
  rintro s ⟨c, hc, rfl⟩
  obtain ⟨r, s', hrun, hs', hr⟩ := h _ ⟨c, hc, rfl⟩
  exact ⟨r, s', (congrFun (hf c) _).trans hrun, hs', hr⟩

theorem calm_loadedNode (nk : NodeKey) (h : Hash) : Calm (loadedNode C b nk h) := by
  unfold loadedNode
  cases OrdMap.get b.backend (nodeRecordKey nk) with
  | none => exact calm_error
  | some rec =>
    cases hn : decodeNode rec with
    | error e =>
      rw [readNode_error hn]
      intro e' he
      cases he
      exact decodeNode_error hn
    | ok n =>
      rw [readNode_some hn]
      unfold checkedNode
      split
      · exact calm_error
      · exact calm_ok _

theorem calm_openValue (cipher : Option Bytes) (path : Hash) (record : Bytes) :
    Calm (openValue C cipher path record) := by
  cases cipher with
  | none => exact calm_ok _
  | some sk =>
    unfold openValue
    dsimp only
    split
    · exact calm_ok _
    · exact calm_error

theorem ends_readValue (path vh : Hash) (v : UInt64) : Ends (Held b) (readValue C path vh v) Calm := by
  unfold readValue
  refine (yields_held_backendGet _).ends.bind (fun e he => by cases he) fun r _ => ?_
  cases r with
  | none => exact Ends.throw calm_error
  | some ct =>
    refine ends_held_get (fun _ => rfl) ?_
    have hopen := calm_openValue (C := C) b.cipher path ct
    cases hpt : openValue C b.cipher path ct with
    | error e =>
      rw [hpt] at hopen
      exact Ends.throw_bind hopen.cast
    | ok pt => exact Ends.ite (fun _ => Ends.throw_bind calm_error) fun _ => Ends.pure (calm_ok _)

/-- The root recorded for a version. -/
def recordedHash (b : Store MemBackend) (v : UInt64) : Except Err Hash :=
  match OrdMap.get b.backend (rootRecordKey v) with
  | none => .error (errMissingf "root record v%d" [.uint v])
  | some rec =>
    if rec.length ≠ hashSize then .error (errCorruptedf "root record v%d bad length" [.uint v])
    else .ok (Hash.ofBytes rec)

theorem calm_recordedHash (v : UInt64) : Calm (recordedHash b v) := by
  unfold recordedHash
  split
  · exact calm_error
  · split
    · exact calm_error
    · exact calm_ok _

theorem yields_held_loadRootRecord (v : UInt64) : Yields (Held b) (loadRootRecord v) (recordedHash b v) := by
  unfold loadRootRecord recordedHash
  refine (yields_held_backendGet _).bind ?_
  cases OrdMap.get b.backend (rootRecordKey v) with
  | none => exact Yields.throw _
  | some rec =>
    by_cases hlen : rec.length ≠ hashSize
    · dsimp only
      rw [if_pos hlen, if_pos hlen]
      exact (Yields.throw _).bind_error
    · dsimp only
      rw [if_neg hlen, if_neg hlen]
      exact Yields.pure _

/-! ## Descents -/

/-- The record `c` refers to at `pfx` is an internal node with the children `ch`. -/
def InternalAt (C : Crypto) (b : Store MemBackend) (c : Child) (pfx : List Nib) (ch : Children) : Prop :=
  loadedNode C b ⟨c.version, pfx⟩ c.hash = .ok (.internal ch)

/-- An internal node at `c`, and `n` more below it along `path`. A `strict` descent takes references to leaves for
what they say. -/
def LinkedDown (C : Crypto) (b : Store MemBackend) (path : Hash) (strict : Bool) : ℕ → Child → List Nib → Prop
  | 0, c, pfx => (strict = true → c.isLeaf = false) ∧ ∃ ch, InternalAt C b c pfx ch
  | n + 1, c, pfx => (strict = true → c.isLeaf = false) ∧ ∃ ch, InternalAt C b c pfx ch ∧
      ∃ next, ch (nibble path pfx.length) = some next ∧
        LinkedDown C b path strict n next (pfx ++ [nibble path pfx.length])

variable {ch : Children}

section
variable {path : Hash} {strict : Bool} {n : ℕ} {c : Child} {pfx : List Nib}

theorem LinkedDown.top (h : LinkedDown C b path strict n c pfx) :
    (strict = true → c.isLeaf = false) ∧ ∃ ch, InternalAt C b c pfx ch := by
  cases n with
  | zero => exact h
  | succ n => exact ⟨h.1, h.2.imp fun ch hch => hch.1⟩

theorem LinkedDown.loaded (h : LinkedDown C b path strict n c pfx) :
    ∃ ch, loadedNode C b ⟨c.version, pfx⟩ c.hash = .ok (.internal ch) := h.top.2

variable (path strict n) in
theorem linkedDown_succ (hch : InternalAt C b c pfx ch) (hs : strict = true → c.isLeaf = false) :
    LinkedDown C b path strict (n + 1) c pfx ↔ ∃ next, ch (nibble path pfx.length) = some next ∧
      LinkedDown C b path strict n next (pfx ++ [nibble path pfx.length]) := by
  constructor
  · rintro ⟨-, ch', hch', hnext⟩
    obtain rfl : ch = ch' := by
      unfold InternalAt at hch hch'
      rw [hch] at hch'
      cases hch'
      rfl
    exact hnext
  · exact fun hnext => ⟨hs, ch, hch, hnext⟩

end

/-- A load, before a descent that falls at internal nodes only. -/
theorem falls_of_loadNode {nk : NodeKey} {h : Hash} {f : Node → LedgerM MemBackend α}
    (hD : D → ∃ ch, loadedNode C b nk h = .ok (.internal ch))
    (hleaf : ∀ l, loadedNode C b nk h = .ok (.leaf l) → Ends (Held b) (f (.leaf l)) Calm)
    (hnode : ∀ ch, loadedNode C b nk h = .ok (.internal ch) → Ends (Held b) (f (.internal ch)) (Falls D)) :
    Ends (Held b) (loadNode C nk h >>= f) (Falls D) := by
  have hload := yields_held_loadNode (C := C) (b := b) nk h
  have hcalm := calm_loadedNode (C := C) (b := b) nk h
  cases hn : loadedNode C b nk h with
  | error e =>
    rw [hn] at hload hcalm hD
    refine hload.bind_error.ends.mono fun r hr => ?_
    rw [hr]
    exact hcalm.cast.falls fun hd => by obtain ⟨ch, hch⟩ := hD hd; cases hch
  | ok m =>
    rw [hn] at hload hD
    refine hload.ends.bind (fun e h => by cases h) fun m' hm' => ?_
    cases hm'
    cases m with
    | internal ch => exact hnode ch hn
    | leaf l => exact (hleaf l hn).mono fun r hr => hr.falls fun hd => by obtain ⟨ch, hch⟩ := hD hd; cases hch

variable {c : Child}

/-- What a strict descent does with a loaded node: it ends without a crash at an error, a wrong kind or a leaf, and
goes on at an internal node. -/
theorem falls_of_load {path : Hash} {n : ℕ} {pfx : List Nib}
    {f : Node → LedgerM MemBackend α} {e : Err} (he : Calm (.error e : Except Err α))
    (hleaf : ∀ l, c.isLeaf = true → Ends (Held b) (f (.leaf l)) Calm)
    (hnode : ∀ ch, InternalAt C b c pfx ch → c.isLeaf = false →
      Ends (Held b) (f (.internal ch)) (Falls (LinkedDown C b path true n c pfx))) :
    Ends (Held b) (do
      let n ← loadNode C ⟨c.version, pfx⟩ c.hash
      if n.isLeaf ≠ c.isLeaf then throw e
      f n) (Falls (LinkedDown C b path true n c pfx)) := by
  refine falls_of_loadNode LinkedDown.loaded (fun l hl => ?_) fun ch hch => ?_
  · exact Ends.ite (fun _ => Ends.throw_bind he) fun hkind => hleaf l (not_not.1 hkind).symm
  · refine Ends.ite (fun hkind => Ends.throw_bind (he.falls fun hD => ?_)) fun hkind => hnode ch hch (not_not.1 hkind).symm
    exact hkind (hD.top.1 rfl).symm

/-- **A walk indexes past the path** exactly when the chain of internal nodes goes on below it. -/
theorem walkFrom_falls (path : Hash) : ∀ (fuel : ℕ) (c : Child) (pfx : List Nib),
    Ends (Held b) (walkFrom C path fuel c pfx) (Falls (LinkedDown C b path true fuel c pfx)) := by
  have hleaf : ∀ l : LeafNode, Ends (Held b) (readValue C path l.vh l.valueVersion >>= fun v => pure (some v)) Calm :=
    fun l => (ends_readValue path l.vh l.valueVersion).bind (fun e he => he.cast) fun v _ => Ends.pure (calm_ok _)
  intro fuel
  induction fuel with
  | zero =>
    intro c pfx
    unfold walkFrom
    refine falls_of_load calm_error (fun l _ => Ends.ite (fun _ => hleaf l) fun _ => Ends.pure (calm_ok _)) fun ch hch hc => ?_
    exact Ends.throw (falls_panic ⟨fun _ => hc, ch, hch⟩)
  | succ fuel ih =>
    intro c pfx
    unfold walkFrom
    refine falls_of_load calm_error (fun l _ => Ends.ite (fun _ => hleaf l) fun _ => Ends.pure (calm_ok _)) fun ch hch hc => ?_
    have hiff := linkedDown_succ path true fuel hch fun _ => hc
    dsimp only
    cases hnext : ch (nibble path pfx.length) with
    | none =>
      refine Ends.pure ((calm_ok _).falls fun hD => ?_)
      obtain ⟨next, hsome, -⟩ := hiff.1 hD
      rw [hnext] at hsome
      cases hsome
    | some next =>
      refine (ih next _).mono fun r hr => hr.congr ?_
      rw [hiff, hnext]
      simp

/-- The descent inside one node ends at a child that is not a leaf exactly when that child is in the slot. -/
theorem binaryDescent_inner {t : ℕ} (hc : c.isLeaf = false) : ∀ (lvl start : ℕ)
    (sibs : List Hash), start ≤ t → t < start + 2 ^ lvl →
    ((∃ i, (binaryDescent C ch t lvl start sibs).1 = some (i, c)) ↔ slot ch t = some c) := by
  intro lvl
  induction lvl with
  | zero =>
    intro start sibs h₁ h₂
    obtain rfl : t = start := by omega
    rw [binaryDescent]
    cases slot ch t with
    | none => simp
    | some d => simp
  | succ lvl ih =>
    intro start sibs h₁ h₂
    have hp : 2 ^ (lvl + 1) = 2 ^ lvl + 2 ^ lvl := by rw [pow_succ]; ring
    have hhalf : (∃ i, (if t < start + 2 ^ lvl then
        binaryDescent C ch t lvl start (sibs ++ [subtreeHash C ch (start + 2 ^ lvl) lvl])
        else binaryDescent C ch t lvl (start + 2 ^ lvl) (sibs ++ [subtreeHash C ch start lvl])).1 = some (i, c)) ↔
        slot ch t = some c := by
      by_cases hlt : t < start + 2 ^ lvl
      · rw [if_pos hlt]
        exact ih start _ h₁ hlt
      · rw [if_neg hlt]
        exact ih _ _ (by omega) (by omega)
    have hmem : slot ch t = some c → (t, c) ∈ presentAt ch start (2 ^ (lvl + 1)) :=
      fun hs => mem_presentAt.2 ⟨h₁, h₂, hs⟩
    rw [binaryDescent]
    rcases hP : presentAt ch start (2 ^ (lvl + 1)) with _ | ⟨⟨i, d⟩, _ | ⟨e, rest⟩⟩
    · rw [hP] at hmem
      constructor
      · rintro ⟨j, hj⟩
        cases hj
      · intro hs
        cases hmem hs
    · dsimp only
      by_cases hd : d.isLeaf = true
      · rw [if_pos hd]
        rw [hP] at hmem
        constructor
        · rintro ⟨j, hj⟩
          cases hj
          rw [hd] at hc
          cases hc
        · intro hs
          cases List.mem_singleton.1 (hmem hs)
          rw [hd] at hc
          cases hc
      · rw [if_neg hd]
        exact hhalf
    · exact hhalf

/-- **The prover indexes past the path** exactly when the chain of internal nodes goes on below it. -/
theorem proveFrom_falls (path : Hash) : ∀ (fuel : ℕ) (c : Child) (pfx : List Nib) (siblings : List Hash),
    Ends (Held b) (proveFrom C path fuel c pfx siblings) (Falls (LinkedDown C b path true fuel c pfx)) := by
  intro fuel
  induction fuel with
  | zero =>
    intro c pfx siblings
    unfold proveFrom
    refine falls_of_load calm_error (fun l _ => Ends.pure (calm_ok _)) fun ch hch hc => ?_
    exact Ends.throw (falls_panic ⟨fun _ => hc, ch, hch⟩)
  | succ fuel ih =>
    intro c pfx siblings
    unfold proveFrom
    refine falls_of_load calm_error (fun l _ => Ends.pure (calm_ok _)) fun ch hch hc => ?_
    have hiff := linkedDown_succ path true fuel hch fun _ => hc
    have hslot : slot ch (nibble path pfx.length).val = ch (nibble path pfx.length) := dif_pos (Fin.isLt _)
    have hinner : ∀ {cc : Child}, cc.isLeaf = false →
        ((∃ i, (binaryDescent C ch (nibble path pfx.length).val 4 0 siblings).1 = some (i, cc)) ↔
          ch (nibble path pfx.length) = some cc) := by
      intro cc hcc
      rw [← hslot]
      exact binaryDescent_inner hcc 4 0 siblings (Nat.zero_le _) (by have := (nibble path pfx.length).isLt; omega)
    dsimp only
    generalize binaryDescent C ch (nibble path pfx.length).val 4 0 siblings = q at hinner
    obtain ⟨found, siblings'⟩ := q
    cases found with
    | none =>
      refine Ends.pure ((calm_ok _).falls fun hD => ?_)
      obtain ⟨next, hnext, hdown⟩ := hiff.1 hD
      obtain ⟨i, hi⟩ := (hinner (hdown.top.1 rfl)).2 hnext
      cases hi
    | some e =>
      obtain ⟨idx, cc⟩ := e
      refine Ends.ite (fun hleaf => ?_) fun hleaf => ?_
      · have hD : ¬ LinkedDown C b path true (fuel + 1) c pfx := by
          intro hD
          obtain ⟨next, hnext, hdown⟩ := hiff.1 hD
          obtain ⟨i, hi⟩ := (hinner (hdown.top.1 rfl)).2 hnext
          cases hi
          rw [hdown.top.1 rfl] at hleaf
          cases hleaf
        exact falls_of_loadNode (fun h => absurd h hD) (fun l _ => Ends.pure (calm_ok _))
          fun ch' _ => Ends.throw (calm_error.falls hD)
      · have hcc := Bool.eq_false_iff.2 hleaf
        refine (ih cc _ siblings').mono fun r hr => hr.congr ?_
        have hchild : ch (nibble path pfx.length) = some cc := (hinner hcc).1 ⟨idx, rfl⟩
        rw [hiff, hchild]
        simp

/-! ## Exports -/

theorem collectChildren_calm {resumeNib : Option Nib}
    {sub : Nib → Child → List Leaf → LedgerM MemBackend (Bool × List Leaf)} : ∀ (nibs : List Nib) (out : List Leaf),
    (∀ nib ∈ nibs, ∀ cc out, Ends (Held b) (sub nib cc out) Calm) →
    Ends (Held b) (collectChildren ch resumeNib sub nibs out) Calm := by
  intro nibs
  induction nibs with
  | nil => intro out _; exact Ends.pure (calm_ok _)
  | cons nib nibs ih =>
    intro out hsub
    have hrest : ∀ out, Ends (Held b) (collectChildren ch resumeNib sub nibs out) Calm :=
      fun out => ih out fun i hi => hsub i (List.mem_cons_of_mem _ hi)
    unfold collectChildren
    refine Ends.ite (fun _ => hrest out) fun _ => ?_
    cases ch nib with
    | none => exact hrest out
    | some cc =>
      refine (hsub nib List.mem_cons_self cc out).bind (fun e he => he.cast) fun r _ => ?_
      exact Ends.ite (fun _ => hrest r.2) fun _ => Ends.pure (calm_ok _)

/-- The loop over the children of a node falls when the resume child does: it is the first one visited. -/
theorem collectChildren_falls {r : Nib} {out : List Leaf} {D : Child → Prop}
    {sub : Nib → Child → List Leaf → LedgerM MemBackend (Bool × List Leaf)}
    (hr : ∀ cc, Ends (Held b) (sub r cc out) (Falls (D cc)))
    (hsub : ∀ nib, nib ≠ r → ∀ cc out, Ends (Held b) (sub nib cc out) Calm) :
    ∀ nibs : List Nib, nibs.Pairwise (· < ·) →
    Ends (Held b) (collectChildren ch (some r) sub nibs out) (Falls (r ∈ nibs ∧ ∃ cc, ch r = some cc ∧ D cc)) := by
  intro nibs
  induction nibs with
  | nil => intro _; exact Ends.pure ((calm_ok _).falls fun hD => by cases hD.1)
  | cons nib nibs ih =>
    intro hsort
    obtain ⟨habove, hsort⟩ := List.pairwise_cons.1 hsort
    rcases lt_trichotomy nib r with hlt | rfl | hgt
    · have hskip : ∃ r' ∈ some r, nib < r' := ⟨r, rfl, hlt⟩
      unfold collectChildren
      rw [if_pos hskip]
      refine (ih hsort).mono fun o ho => ho.congr ?_
      rw [List.mem_cons, or_iff_right hlt.ne']
    · have hkeep : ¬ ∃ r' ∈ some nib, nib < r' := by
        rintro ⟨r', hr', hlt⟩
        cases hr'
        exact lt_irrefl nib hlt
      have hlater : ∀ out, Ends (Held b) (collectChildren ch (some nib) sub nibs out) Calm :=
        fun out => collectChildren_calm nibs out fun i hi => hsub i (habove i hi).ne'
      unfold collectChildren
      rw [if_neg hkeep]
      cases hch : ch nib with
      | none => exact (hlater out).mono fun o ho => ho.falls (by rintro ⟨_, cc, hcc, _⟩; cases hcc)
      | some cc =>
        have hiff : D cc ↔ nib ∈ nib :: nibs ∧ ∃ cc', some cc = some cc' ∧ D cc' := by simp
        rw [← propext hiff]
        refine (hr cc).bind (fun e he => he.cast) fun q hq => ?_
        have hD : ¬ D cc := fun hD => by cases hq.1 hD
        refine Ends.ite (fun _ => (hlater q.2).mono fun o ho => ho.falls hD) fun _ => Ends.pure ((calm_ok _).falls hD)
    · -- the resume child is not among the rest
      have hne : ∀ i ∈ nib :: nibs, i ≠ r := by
        intro i hi
        rcases List.mem_cons.1 hi with rfl | hi
        · exact hgt.ne'
        · exact (hgt.trans (habove i hi)).ne'
      refine (collectChildren_calm (nib :: nibs) out fun i hi => hsub i (hne i hi)).mono fun o ho => ho.falls ?_
      exact fun hD => hne r hD.1 rfl

/-- The nodes above a position are stored. -/
def Trail (b : Store MemBackend) (pfx : List Nib) : Prop :=
  ∀ k < pfx.length, ∃ v, (OrdMap.get b.backend (nodeRecordKey ⟨v, pfx.take k⟩)).isSome

/-- Every level is a record of its own. -/
theorem Trail.length_lt {pfx : List Nib} {n : Node} {h : Hash} (ht : Trail b pfx)
    (hn : loadedNode C b ⟨c.version, pfx⟩ h = .ok n) : pfx.length < b.backend.size := by
  obtain ⟨rec, hrec, -⟩ := ok_of_readNode hn
  have hall : ∀ k : Fin (pfx.length + 1), ∃ v, (OrdMap.get b.backend (nodeRecordKey ⟨v, pfx.take k⟩)).isSome := by
    intro k
    rcases Nat.lt_or_ge k.val pfx.length with hk | hk
    · exact ht k hk
    · rw [List.take_of_length_le hk]
      exact ⟨c.version, by rw [hrec]; rfl⟩
  choose v hv using hall
  refine OrdMap.le_size_of_injective (fun k => nodeRecordKey ⟨v k, pfx.take k⟩) (fun i j hij => ?_) hv
  have hkey : RecKey.node ⟨v i, pfx.take i⟩ = .node ⟨v j, pfx.take j⟩ := RecKey.bytes_inj hij
  have hlen := congrArg List.length (congrArg NodeKey.pfx (RecKey.node.inj hkey))
  simp only [List.length_take] at hlen
  exact Fin.ext (by have := i.isLt; have := j.isLt; omega)

theorem Trail.child {pfx : List Nib} {n : Node} {h : Hash} (ht : Trail b pfx)
    (hn : loadedNode C b ⟨c.version, pfx⟩ h = .ok n) (nib : Nib) : Trail b (pfx ++ [nib]) := by
  obtain ⟨rec, hrec, -⟩ := ok_of_readNode hn
  intro k hk
  rw [List.length_append, List.length_singleton] at hk
  rw [List.take_append_of_le_length (by omega)]
  rcases Nat.lt_or_ge k pfx.length with hlt | hge
  · exact ht k hlt
  · rw [List.take_of_length_le hge]
    exact ⟨c.version, by rw [hrec]; rfl⟩

/-- **An export indexes past the path it resumes after** exactly when it has room, and the chain of internal nodes
along that path goes on below it; without a resume path it never does. -/
theorem collectLeaves_falls (max : ℕ) : ∀ (fuel : ℕ) (c : Child) (pfx : List Nib) (startAfter : Option Hash)
    (out : List Leaf), nibbles + b.backend.size ≤ fuel + pfx.length → Trail b pfx →
    (startAfter.isSome → pfx.length ≤ nibbles) →
    Ends (Held b) (collectLeaves C max fuel c pfx startAfter out)
      (Falls (out.length < max ∧ ∃ a ∈ startAfter, LinkedDown C b a false (nibbles - pfx.length) c pfx)) := by
  intro fuel
  induction fuel using Nat.strong_induction_on with
  | h fuel ih =>
    intro c pfx startAfter out hfuel ht hlen
    unfold collectLeaves
    refine Ends.ite (fun hfull => Ends.pure ((calm_ok _).falls fun hD => ?_)) fun hroom => ?_
    · exact absurd hD.1 (not_lt.2 hfull)
    refine falls_of_loadNode (fun hD => ?_) (fun l _ => ?_) fun ch hn => ?_
    · obtain ⟨-, a, -, hD⟩ := hD
      exact hD.loaded
    · refine Ends.ite (fun _ => Ends.pure (calm_ok _)) fun _ => ?_
      exact (ends_readValue l.path l.vh l.valueVersion).bind (fun e he => he.cast) fun v _ => Ends.pure (calm_ok _)
    · have hch : InternalAt C b c pfx ch := hn
      have hdeep := ht.length_lt hn
      have hfree : (false = true → c.isLeaf = false) := fun h => by cases h
      refine Ends.ite (fun hpast => Ends.throw_bind (falls_panic ?_)) fun hpast => ?_
      · obtain ⟨a, ha⟩ := Option.isSome_iff_exists.1 hpast.1
        have hzero : nibbles - pfx.length = 0 := Nat.sub_eq_zero_of_le hpast.2
        refine ⟨not_le.1 hroom, a, ha, ?_⟩
        rw [hzero]
        exact ⟨hfree, ch, hch⟩
      cases fuel with
      | zero => omega
      | succ fuel =>
        have hnext : ∀ nib : Nib, nibbles + b.backend.size ≤ fuel + (pfx ++ [nib]).length := by
          intro nib
          rw [List.length_append, List.length_singleton]
          omega
        have hfresh : ∀ nib cc out, Ends (Held b) (collectLeaves C max fuel cc (pfx ++ [nib]) none out) Calm := by
          intro nib cc out
          refine (ih fuel (by omega) cc _ none out (hnext nib) (ht.child hn nib) (fun h => by cases h)).mono
            fun r hr => hr.2 ?_
          rintro ⟨-, a, ha, -⟩
          cases ha
        cases startAfter with
        | none =>
          refine (collectChildren_calm _ out fun nib _ cc out => ?_).mono fun r hr => hr.falls ?_
          · exact hfresh nib cc out
          · rintro ⟨-, a, ha, -⟩
            cases ha
        | some a =>
          have hlt : pfx.length < nibbles := not_le.1 fun h => hpast ⟨rfl, h⟩
          have hsucc : nibbles - pfx.length = nibbles - (pfx.length + 1) + 1 := by omega
          refine (collectChildren_falls (r := nibble a pfx.length)
            (D := fun cc => LinkedDown C b a false (nibbles - (pfx.length + 1)) cc (pfx ++ [nibble a pfx.length]))
            (fun cc => ?_) (fun nib hne cc out => ?_) _ (List.pairwise_lt_finRange 16)).mono fun r hr => hr.congr ?_
          · have hself : (some a).map (fun a => nibble a pfx.length) = some (nibble a pfx.length) := rfl
            have hdepth : nibbles - (pfx ++ [nibble a pfx.length]).length = nibbles - (pfx.length + 1) := by
              rw [List.length_append, List.length_singleton]
            rw [if_pos hself]
            refine (ih fuel (by omega) cc _ (some a) out (hnext _) (ht.child hn _) fun _ => ?_).mono
              fun r hr => hr.congr ?_
            · rw [List.length_append, List.length_singleton]
              exact hlt
            · rw [hdepth]
              exact ⟨by rintro ⟨_, a', ha', hD⟩; exact Option.some.inj ha' ▸ hD, fun hD => ⟨not_le.1 hroom, a, rfl, hD⟩⟩
          · rw [Option.map_some, if_neg fun h => hne (Option.some.inj h).symm]
            exact hfresh nib cc out
          · rw [hsucc]
            have hiff := linkedDown_succ a false (nibbles - (pfx.length + 1)) hch hfree
            constructor
            · rintro ⟨-, cc, hcc, hD⟩
              exact ⟨not_le.1 hroom, a, rfl, hiff.2 ⟨cc, hcc, hD⟩⟩
            · rintro ⟨-, a', ha', hD⟩
              cases ha'
              exact ⟨List.mem_finRange _, hiff.1 hD⟩

/-! ## Reads -/

/-- The reads of a store. -/
inductive Lookup where
  | get (key : Bytes)
  | getAt (version : UInt64) (key : Bytes)
  | prove (key : Bytes)
  | proveAt (version : UInt64) (key : Bytes)
  | snapshotLeaves (version : UInt64) (startAfter : Option Hash) (max : ℕ)

namespace Lookup

/-- The read, its result left aside. -/
def exec (C : Crypto) : Lookup → LedgerM MemBackend Unit
  | get key => do let _ ← Store.get C key
  | getAt version key => do let _ ← Store.getAt C version key
  | prove key => do let _ ← Store.prove C key
  | proveAt version key => do let _ ← Store.proveAt C version key
  | snapshotLeaves version startAfter max => do let _ ← Store.snapshotLeaves C version startAfter max

/-- Below the root recorded for the version there are internal nodes at all positions of `path`, down to the 65th. -/
def DeepAt (C : Crypto) (s : Store MemBackend) (version : UInt64) (path : Hash) (strict : Bool) : Prop :=
  ∃ root, recordedHash s version = .ok root ∧ root ≠ placeholderHash C ∧
    LinkedDown C s path strict nibbles ⟨version, root, false⟩ []

/-- The storage has a chain of 65 linked internal nodes along the path the read follows. -/
def Deep (C : Crypto) (s : Store MemBackend) : Lookup → Prop
  | get key | prove key => ∃ c ∈ s.rootChild, LinkedDown C s (pathOf C s.ck key) true nibbles c []
  | getAt version key | proveAt version key => version ≤ s.version ∧ DeepAt C s version (pathOf C s.ck key) true
  | snapshotLeaves version startAfter max => 0 < max ∧ ∃ a ∈ startAfter, DeepAt C s version a false

end Lookup

theorem walk_falls (rootChild : Option Child) (path : Hash) : Ends (Held b) (walk C rootChild path)
    (Falls (∃ c ∈ rootChild, LinkedDown C b path true nibbles c [])) := by
  cases rootChild with
  | none => exact Ends.pure ((calm_ok _).falls (by rintro ⟨_, hc, _⟩; cases hc))
  | some c =>
    refine (walkFrom_falls path nibbles c []).mono fun r hr => hr.congr ?_
    simp

theorem provePath_falls (rootChild : Option Child) (path : Hash) : Ends (Held b) (provePath C rootChild path)
    (Falls (∃ c ∈ rootChild, LinkedDown C b path true nibbles c [])) := by
  cases rootChild with
  | none => exact Ends.pure ((calm_ok _).falls (by rintro ⟨_, hc, _⟩; cases hc))
  | some c =>
    have hiff : LinkedDown C b path true nibbles c [] ↔ ∃ c' ∈ some c, LinkedDown C b path true nibbles c' [] := by simp
    rw [← propext hiff]
    refine (proveFrom_falls path nibbles c [] []).bind (fun e he => he.cast) fun q hq => ?_
    exact Ends.pure ((calm_ok _).falls fun hD => by cases hq.1 hD)

/-- A read from the root recorded for a version falls when the descent from that root does. -/
theorem falls_of_root {α : Type} {version : UInt64} {path : Hash} {strict : Bool} {P : Prop}
    {f : Option Child → LedgerM MemBackend α}
    (hf : ∀ c, Ends (Held b) (f c) (Falls (P ∧ ∃ c' ∈ c, LinkedDown C b path strict nibbles c' []))) :
    Ends (Held b) (do
      let root ← loadRootRecord version
      let c ← loadRootChild C root version
      f c) (Falls (P ∧ Lookup.DeepAt C b version path strict)) := by
  have hcalm := calm_recordedHash (b := b) version
  refine (yields_held_loadRootRecord version).ends.bind (fun e he => ?_) fun root hroot => ?_
  · rw [← he] at hcalm
    refine hcalm.cast.falls ?_
    rintro ⟨_, root, hroot, _⟩
    rw [← he] at hroot
    cases hroot
  unfold loadRootChild
  by_cases hempty : root = placeholderHash C
  · rw [if_pos hempty]
    refine (hf none).mono fun r hr => hr.congr
      ⟨(by rintro ⟨_, c, hc, _⟩; cases hc), ?_⟩
    rintro ⟨_, root', hroot', hne, _⟩
    rw [← hroot] at hroot'
    exact absurd ((Except.ok.inj hroot').symm.trans hempty) hne
  rw [if_neg hempty]
  -- the only root the version can have
  have hiff : Lookup.DeepAt C b version path strict ↔ LinkedDown C b path strict nibbles ⟨version, root, false⟩ [] := by
    refine ⟨?_, fun hD => ⟨root, hroot.symm, hempty, hD⟩⟩
    rintro ⟨root', hroot', _, hD⟩
    rw [← hroot] at hroot'
    cases hroot'
    exact hD
  rw [propext hiff, bind_assoc]
  refine falls_of_loadNode (fun hD => hD.2.loaded) (fun l hl => ?_) fun ch _ => ?_
  · refine (hf (some ⟨version, root, true⟩)).mono fun r hr => hr.2 ?_
    rintro ⟨-, c', hc', hD⟩
    cases hc'
    obtain ⟨ch, hch⟩ := hD.loaded
    cases hl.symm.trans hch
  · refine (hf (some ⟨version, root, false⟩)).mono fun r hr => hr.congr (and_congr_right fun _ => ?_)
    simp

/-- The pages of an export: only one that resumes after a path follows one. -/
theorem snapshotLeaves_falls (version : UInt64) (startAfter : Option Hash) (max : ℕ) :
    Ends (Held b) (Store.snapshotLeaves C version startAfter max)
      (Falls (0 < max ∧ ∃ a ∈ startAfter, Lookup.DeepAt C b version a false)) := by
  unfold Store.snapshotLeaves
  -- one root child, with any resume path
  have hchild : ∀ c : Child, Ends (Held b)
      (do
        let s ← get
        let walk ← collectLeaves C max (nibbles + Backend.len s.backend) c [] startAfter []
        pure (walk.2, walk.1))
      (Falls (0 < max ∧ ∃ a ∈ startAfter, LinkedDown C b a false nibbles c [])) := by
    intro c
    refine ends_held_get (fun _ => rfl) ?_
    have hfuel : nibbles + b.backend.size ≤ nibbles + Backend.len b.backend + ([] : List Nib).length := le_rfl
    have htop : Trail b [] := fun k hk => absurd hk (Nat.not_lt_zero k)
    have hwalk := collectLeaves_falls (C := C) max _ c [] startAfter [] hfuel htop fun _ => Nat.zero_le _
    exact hwalk.bind (fun e he => he.cast) fun q hq => Ends.pure ((calm_ok _).falls fun hD => by cases hq.1 hD)
  cases startAfter with
  | none =>
    refine (@falls_of_root C b _ _ Hash.zero false False _ fun c => ?_).mono
      fun r hr => hr.congr ⟨fun h => h.1.elim, by rintro ⟨_, a, ha, _⟩; cases ha⟩
    cases c with
    | none => exact Ends.pure ((calm_ok _).falls fun h => h.1)
    | some c => exact (hchild c).mono fun r hr => hr.congr ⟨(by rintro ⟨_, a, ha, _⟩; cases ha), fun h => h.1.elim⟩
  | some a =>
    refine (@falls_of_root C b _ _ a false (0 < max) _ fun c => ?_).mono fun r hr => hr.congr ?_
    · cases c with
      | none => exact Ends.pure ((calm_ok _).falls (by rintro ⟨_, c, hc, _⟩; cases hc))
      | some c =>
        refine (hchild c).mono fun r hr => hr.congr ?_
        simp
    · simp

/-- A read at an earlier version falls when the descent from its root does. -/
theorem falls_of_version {version : UInt64} {key : Bytes} {e : Err} (he : Calm (.error e : Except Err α))
    {f : Option Child → Hash → LedgerM MemBackend α}
    (hf : ∀ c path, Ends (Held b) (f c path) (Falls (∃ c' ∈ c, LinkedDown C b path true nibbles c' []))) :
    Ends (Held b) (do
      if version > b.version then throw e
      let root ← loadRootRecord version
      let c ← loadRootChild C root version
      f c (pathOf C b.ck key))
      (Falls (version ≤ b.version ∧ Lookup.DeepAt C b version (pathOf C b.ck key) true)) := by
  refine Ends.ite (fun hfut => Ends.throw_bind (he.falls fun hD => absurd hD.1 (not_le.2 hfut))) fun hpast => ?_
  refine falls_of_root fun c => (hf c _).mono fun r hr => hr.congr ?_
  exact ⟨fun hD => ⟨not_lt.1 hpast, hD⟩, fun hD => hD.2⟩

theorem lookup_falls (q : Lookup) : Ends (Held b) (q.exec C) (Falls (q.Deep C b)) := by
  have hdrop : ∀ {α : Type} {D : Prop} {x : LedgerM MemBackend α}, Ends (Held b) x (Falls D) →
      Ends (Held b) (do let _ ← x) (Falls D) := by
    intro α D x hx
    exact hx.bind (fun e he => he.cast) fun a ha => Ends.pure ((calm_ok _).falls fun hD => by cases ha.1 hD)
  cases q with
  | get key => exact hdrop (ends_held_get (fun _ => rfl) (walk_falls b.rootChild _))
  | prove key => exact hdrop (ends_held_get (fun _ => rfl) (provePath_falls b.rootChild _))
  | getAt version key =>
    exact hdrop (ends_held_get (fun _ => rfl) (falls_of_version calm_error fun c path => walk_falls c path))
  | proveAt version key =>
    exact hdrop (ends_held_get (fun _ => rfl) (falls_of_version calm_error fun c path => provePath_falls c path))
  | snapshotLeaves version startAfter max => exact hdrop (snapshotLeaves_falls version startAfter max)

/-- **A read ends in a result or an error** exactly when the storage has no chain of 65 linked internal nodes along the
path it follows. The storage is any, and the cache holds nodes of it. -/
theorem lookup_safe_iff (s : Store MemBackend) (hc : Faithful s.backend s.cache) (q : Lookup) :
    (∀ e s', q.exec C s = .error e s' → e ≠ .panic ∧ e ≠ .hang) ↔ ¬ q.Deep C s := by
  obtain ⟨r, s', hrun, -, hr⟩ := lookup_falls (C := C) (b := s) q s ⟨s.cache, hc, rfl⟩
  rw [← hr.calm_iff, hrun]
  constructor
  · intro h e he
    exact h e s' (by rw [he]; rfl)
  · intro h e s'' he
    cases r with
    | ok a => cases he
    | error e' =>
      cases he
      exact h e rfl

/-- A store with two commits on three keys, its cache turned off. -/
def threeKeys : Store MemBackend :=
  let new := (create quickCrypto (OrdMap.empty : MemBackend) [] {} fun _ => Nonce.zero).state
  let s := (Store.putBatch quickCrypto [.put [1] [10], .put [2] [20]] new).state
  let s := (Store.putBatch quickCrypto [.put [3] [30], .del [1]] s).state
  { s with cache := s.cache.setCapacity 0 }

/-- Reads of keys that are there, gone or never were, of both versions. -/
def threeLookups : List Lookup :=
  [.get [2], .get [1], .prove [3], .prove [4], .getAt 1 [1], .proveAt 1 [3], .getAt 9 [2],
    .snapshotLeaves 1 (some (pathOf quickCrypto [] [2])) 3]

/-- None of them crashes, and none has a chain of 65 nodes to follow. -/
theorem three_keys_safe : threeKeys.version = 2 ∧ ∀ q ∈ threeLookups, ¬ q.Deep quickCrypto threeKeys := by
  have hcalm : ∀ q ∈ threeLookups, (q.exec quickCrypto threeKeys).val ≠ .error .panic ∧
      (q.exec quickCrypto threeKeys).val ≠ .error .hang := by decide +kernel
  refine ⟨by decide +kernel, fun q hq => (lookup_safe_iff threeKeys (fun _ _ h => by cases h) q).1 fun e s' hrun => ?_⟩
  obtain ⟨hpanic, hhang⟩ := hcalm q hq
  rw [hrun] at hpanic hhang
  exact ⟨fun h => hpanic (congrArg _ h), fun h => hhang (congrArg _ h)⟩

/-! ## A deep storage -/

/-- A chain of `k + 1` internal nodes down `path` from the position `pfx`: the hash of the topmost, and the records.
The hashes are computed bottom-up. -/
def deepNodes (C : Crypto) (path : Hash) : ℕ → List Nib → Hash × MemBackend
  | 0, pfx =>
    let n : Node := .internal (lone 0 ⟨0, Hash.zero, true⟩)
    (n.hash C, OrdMap.empty.insert (nodeRecordKey ⟨0, pfx⟩) n.encode)
  | k + 1, pfx =>
    let below := deepNodes C path k (pfx ++ [nibble path pfx.length])
    let n : Node := .internal (lone (nibble path pfx.length) ⟨0, below.1, false⟩)
    (n.hash C, below.2.insert (nodeRecordKey ⟨0, pfx⟩) n.encode)

theorem lone_ok (i : Nib) (c : Child) : (Node.internal (lone i c)).Ok := ⟨i, by simp [lone]⟩

/-- The records of a chain are at its own positions. -/
theorem key_of_deepNodes (path : Hash) : ∀ (k : ℕ) (pfx : List Nib) {key rec : Bytes},
    (deepNodes C path k pfx).2.get key = some rec → ∃ p, pfx.length ≤ p.length ∧ key = nodeRecordKey ⟨0, p⟩ := by
  intro k
  induction k with
  | zero =>
    intro pfx key rec h
    simp only [deepNodes, OrdMap.get_insert] at h
    by_cases hk : key = nodeRecordKey ⟨0, pfx⟩
    · exact ⟨pfx, le_rfl, hk⟩
    · rw [if_neg hk] at h
      cases h
  | succ k ih =>
    intro pfx key rec h
    simp only [deepNodes, OrdMap.get_insert] at h
    by_cases hk : key = nodeRecordKey ⟨0, pfx⟩
    · exact ⟨pfx, le_rfl, hk⟩
    · rw [if_neg hk] at h
      obtain ⟨p, hp, he⟩ := ih _ h
      rw [List.length_append, List.length_singleton] at hp
      exact ⟨p, by omega, he⟩

/-- A storage with the records of the chain has the chain. -/
theorem linkedDown_deepNodes (path : Hash) (strict : Bool) : ∀ (k : ℕ) (pfx : List Nib),
    (∀ key rec, (deepNodes C path k pfx).2.get key = some rec → OrdMap.get b.backend key = some rec) →
    LinkedDown C b path strict k ⟨0, (deepNodes C path k pfx).1, false⟩ pfx := by
  -- the topmost node of a chain
  have htop : ∀ {i : Nib} {c : Child} {pfx : List Nib},
      OrdMap.get b.backend (nodeRecordKey ⟨0, pfx⟩) = some (Node.internal (lone i c)).encode →
      InternalAt C b ⟨0, (Node.internal (lone i c)).hash C, false⟩ pfx (lone i c) := by
    intro i c pfx hrec
    unfold InternalAt
    rw [loadedNode_some hrec (decodeNode_encode (lone_ok i c))]
    exact checkedNode_of_eq (not_not.2 rfl)
  intro k
  induction k with
  | zero =>
    intro pfx hB
    have hrec : OrdMap.get b.backend (nodeRecordKey ⟨0, pfx⟩) = some (Node.internal (lone 0 ⟨0, Hash.zero, true⟩)).encode :=
      hB _ _ (by simp [deepNodes])
    exact ⟨fun _ => rfl, _, htop hrec⟩
  | succ k ih =>
    intro pfx hB
    refine ⟨fun _ => rfl, _, htop (hB _ _ (by simp [deepNodes])), ⟨0, _, false⟩, by simp [lone], ih _ fun key rec h => ?_⟩
    -- no node below has the key of this one
    have hne : key ≠ nodeRecordKey ⟨0, pfx⟩ := by
      intro he
      obtain ⟨p, hp, hkey⟩ := key_of_deepNodes path k _ h
      have hsame : RecKey.node ⟨0, p⟩ = .node ⟨0, pfx⟩ := RecKey.bytes_inj (hkey.symm.trans he)
      have hlen := congrArg List.length (congrArg NodeKey.pfx (RecKey.node.inj hsame))
      rw [List.length_append, List.length_singleton] at hp
      simp only at hlen
      omega
    refine hB key rec ?_
    simp only [deepNodes, OrdMap.get_insert]
    rw [if_neg hne]
    exact h

/-- A new handle on a storage that recorded the hash of a deep chain as the root of version 0. -/
def deepStore (C : Crypto) (path : Hash) : Store MemBackend :=
  newStore C ((deepNodes C path nibbles []).2.insert (rootRecordKey 0) (deepNodes C path nibbles []).1.bytes) [] {}
    fun _ => Nonce.zero

/-- **Whatever the hash function, a storage can have a deep chain** below the root of an earlier version, unless that
root is the one of the empty tree. -/
theorem deepStore_deep (path : Hash) (hne : (deepNodes C path nibbles []).1 ≠ placeholderHash C) (strict : Bool) :
    Lookup.DeepAt C (deepStore C path) 0 path strict := by
  refine ⟨(deepNodes C path nibbles []).1, ?_, hne, linkedDown_deepNodes path strict nibbles [] fun key rec h => ?_⟩
  · have hget : OrdMap.get (deepStore C path).backend (rootRecordKey 0) = some (deepNodes C path nibbles []).1.bytes := by
      simp [deepStore, newStore]
    unfold recordedHash
    rw [hget]
    have hlen : ¬ (deepNodes C path nibbles []).1.bytes.length ≠ hashSize := not_not.2 (Hash.size _)
    show (if _ then _ else _) = _
    rw [if_neg hlen, Hash.ofBytes_bytes]
  · have hkey : key ≠ rootRecordKey 0 := by
      intro he
      obtain ⟨p, -, hp⟩ := key_of_deepNodes path nibbles [] h
      cases RecKey.bytes_inj (a := .node ⟨0, p⟩) (b := .root 0) (hp.symm.trans he)
    simp only [deepStore, newStore, OrdMap.get_insert]
    rw [if_neg hkey]
    exact h

/-- **A storage crashes its readers**: the reads of the version follow the chain past the end of the path. -/
theorem deep_storage_crashes :
    ((Lookup.getAt 0 [1]).exec quickCrypto (deepStore quickCrypto (pathOf quickCrypto [] [1]))).val = .error .panic ∧
    ((Lookup.proveAt 0 [1]).exec quickCrypto (deepStore quickCrypto (pathOf quickCrypto [] [1]))).val = .error .panic ∧
    ((Lookup.snapshotLeaves 0 (some (pathOf quickCrypto [] [1])) 1).exec quickCrypto
      (deepStore quickCrypto (pathOf quickCrypto [] [1]))).val = .error .panic := by
  have hne : (deepNodes quickCrypto (pathOf quickCrypto [] [1]) nibbles []).1 ≠ placeholderHash quickCrypto := by
    decide +kernel
  have hheld : Held (deepStore quickCrypto (pathOf quickCrypto [] [1])) (deepStore quickCrypto (pathOf quickCrypto [] [1])) :=
    ⟨_, fun _ _ h => (by cases h), rfl⟩
  have hfalls : ∀ q : Lookup, q.Deep quickCrypto (deepStore quickCrypto (pathOf quickCrypto [] [1])) →
      (q.exec quickCrypto (deepStore quickCrypto (pathOf quickCrypto [] [1]))).val = .error .panic := by
    intro q hD
    obtain ⟨r, s', hrun, -, hr⟩ := lookup_falls (C := quickCrypto) q _ hheld
    rw [hrun, val_outcome]
    exact hr.1 hD
  refine ⟨hfalls _ ⟨le_rfl, deepStore_deep _ hne true⟩, hfalls _ ⟨le_rfl, deepStore_deep _ hne true⟩,
    hfalls _ ⟨Nat.one_pos, _, rfl, deepStore_deep _ hne false⟩⟩

end ImmutableLedger
