import ImmutableLedger.Lib.Mirror
import ImmutableLedger.Ledger.Audit
import ImmutableLedger.Ledger.Proof
import ImmutableLedger.Ledger.Snapshot

/-!
# Reads of handles in step

Two handles of the ledger, over the same backend or over two, are linked when a lookup in the backend, a node load and a
draw of a nonce keep them in step. Then every read does, at the current and at earlier versions.

* `mirrors_walk`, `mirrors_provePath`, `mirrors_snapshotLeaves`, `mirrors_changesAt`: the reads.
-/

namespace ImmutableLedger

open EStateM

variable {C : Crypto} {β γ : Type} [Backend β] [Backend γ]

/-- The handles differ at most in their backends, caches and nonces. -/
structure SameHandle (s : Store β) (t : Store γ) : Prop where
  len : Backend.len s.backend = Backend.len t.backend
  ck : s.ck = t.ck
  cipher : s.cipher = t.cipher
  ckptMAC : s.ckptMAC = t.ckptMAC
  root : s.root = t.root
  version : s.version = t.version
  rootChild : s.rootChild = t.rootChild
  history : s.history = t.history
  historyHead : s.historyHead = t.historyHead

/-- Related handles stay in step over what every read is made of. -/
structure Linked (C : Crypto) (M : Link (Store β) (Store γ)) : Prop where
  same : ∀ s t, M.rel s t → SameHandle s t
  get : ∀ key, Mirrors M (backendGet key) (backendGet key) fun _ => True
  load : ∀ nk h, Mirrors M (loadNode C nk h) (loadNode C nk h) fun _ => True
  draw : Mirrors M drawNonce drawNonce fun _ => True

section
variable {M : Link (Store β) (Store γ)} {α : Type}

omit [Backend β] [Backend γ] in
theorem mirrors_ofExcept {r : Except Err α} {Q : α → Prop} (h : ∀ a, r = .ok a → Q a) :
    Mirrors M (ofExcept r) (ofExcept r) Q := by
  cases r with
  | ok a => exact Mirrors.pure (h a rfl)
  | error e => exact Mirrors.throw e

variable (hL : Linked C M)
include hL

/-! ## Records -/

theorem mirrors_sealValue (path : Hash) (pt : Bytes) :
    Mirrors M (sealValue C path pt) (sealValue C path pt) fun _ => True := by
  refine Mirrors.get_bind fun s t h => ?_
  rw [(hL.same s t h).cipher]
  cases t.cipher with
  | none => exact Mirrors.pure trivial
  | some sk => exact hL.draw.bind fun _ _ => Mirrors.pure trivial

theorem mirrors_sealCheckpoint (root : Hash) (v : UInt64) :
    Mirrors M (sealCheckpoint C root v) (sealCheckpoint C root v) fun _ => True := by
  refine Mirrors.get_bind fun s t h => ?_
  have hs := hL.same s t h
  rw [hs.cipher, hs.history, hs.ckptMAC]
  dsimp only
  cases t.cipher with
  | none => exact Mirrors.pure trivial
  | some sk => exact hL.draw.bind fun _ _ => Mirrors.pure trivial

theorem mirrors_readValue (path vh : Hash) (v : UInt64) :
    Mirrors M (readValue C path vh v) (readValue C path vh v) fun _ => True := by
  refine (hL.get _).bind fun r _ => ?_
  cases r with
  | none => exact Mirrors.throw _
  | some ct =>
    refine Mirrors.get_bind fun s t h => ?_
    have hs := hL.same s t h
    rw [hs.cipher, hs.ck]
    refine (mirrors_ofExcept fun _ _ => trivial).bind fun pt (_ : True) => ?_
    exact Mirrors.ite (fun _ => Mirrors.throw_bind) fun _ => Mirrors.pure trivial

theorem mirrors_loadRootRecord (v : UInt64) :
    Mirrors M (loadRootRecord v) (loadRootRecord v) fun _ => True := by
  refine (hL.get _).bind fun r _ => ?_
  cases r with
  | none => exact Mirrors.throw _
  | some rec => exact Mirrors.ite (fun _ => Mirrors.throw_bind) fun _ => Mirrors.pure trivial

theorem mirrors_loadRootChild (root : Hash) (v : UInt64) :
    Mirrors M (loadRootChild C root v) (loadRootChild C root v) fun r => ∀ c ∈ r, c.version = v := by
  unfold loadRootChild
  refine Mirrors.ite (fun _ => Mirrors.pure fun c hc => by cases hc) fun _ => ?_
  refine (hL.load _ root).bind fun n _ => Mirrors.pure fun c hc => ?_
  cases hc
  rfl

/-! ## Point reads -/

theorem mirrors_walkFrom (path : Hash) : ∀ (fuel : ℕ) (c : Child) (pfx : List Nib),
    Mirrors M (walkFrom C path fuel c pfx) (walkFrom C path fuel c pfx) fun _ => True := by
  intro fuel
  induction fuel using Nat.strong_induction_on with
  | h fuel ih =>
    intro c pfx
    unfold walkFrom
    refine (hL.load _ c.hash).bind fun n _ => ?_
    refine Mirrors.ite (fun _ => Mirrors.throw_bind) fun _ => ?_
    cases n with
    | leaf l =>
      refine Mirrors.ite (fun _ => ?_) fun _ => Mirrors.pure trivial
      exact (mirrors_readValue hL path l.vh l.valueVersion).bind fun v _ => Mirrors.pure trivial
    | internal ch =>
      cases fuel with
      | zero => exact Mirrors.throw _
      | succ fuel =>
        dsimp only
        cases ch (nibble path pfx.length) with
        | none => exact Mirrors.pure trivial
        | some next => exact ih fuel (by omega) next _

theorem mirrors_walk (rootChild : Option Child) (path : Hash) :
    Mirrors M (walk C rootChild path) (walk C rootChild path) fun _ => True := by
  cases rootChild with
  | none => exact Mirrors.pure trivial
  | some c => exact mirrors_walkFrom hL path nibbles c []

theorem mirrors_proveFrom (path : Hash) : ∀ (fuel : ℕ) (c : Child) (pfx : List Nib) (siblings : List Hash),
    Mirrors M (proveFrom C path fuel c pfx siblings) (proveFrom C path fuel c pfx siblings) fun _ => True := by
  intro fuel
  induction fuel using Nat.strong_induction_on with
  | h fuel ih =>
    intro c pfx siblings
    unfold proveFrom
    refine (hL.load _ c.hash).bind fun n _ => ?_
    refine Mirrors.ite (fun _ => Mirrors.throw_bind) fun _ => ?_
    cases n with
    | leaf l => exact Mirrors.pure trivial
    | internal ch =>
      cases fuel with
      | zero => exact Mirrors.throw _
      | succ fuel =>
        dsimp only
        obtain ⟨found, siblings'⟩ := binaryDescent C ch (nibble path pfx.length).val 4 0 siblings
        cases found with
        | none => exact Mirrors.pure trivial
        | some e =>
          obtain ⟨idx, cc⟩ := e
          refine Mirrors.ite (fun _ => ?_) fun _ => ih fuel (by omega) cc _ siblings'
          refine (hL.load _ cc.hash).bind fun n _ => ?_
          cases n with
          | leaf l => exact Mirrors.pure trivial
          | internal ch' => exact Mirrors.throw _

theorem mirrors_provePath (rootChild : Option Child) (path : Hash) :
    Mirrors M (provePath C rootChild path) (provePath C rootChild path) fun _ => True := by
  cases rootChild with
  | none => exact Mirrors.pure trivial
  | some c => exact (mirrors_proveFrom hL path nibbles c [] []).bind fun r _ => Mirrors.pure trivial

theorem mirrors_storeGet (key : Bytes) : Mirrors M (Store.get C key) (Store.get C key) fun _ => True := by
  refine Mirrors.get_bind fun s t h => ?_
  rw [(hL.same s t h).rootChild, (hL.same s t h).ck]
  exact mirrors_walk hL t.rootChild (pathOf C t.ck key)

theorem mirrors_prove (key : Bytes) : Mirrors M (Store.prove C key) (Store.prove C key) fun _ => True := by
  refine Mirrors.get_bind fun s t h => ?_
  rw [(hL.same s t h).rootChild, (hL.same s t h).ck]
  exact mirrors_provePath hL t.rootChild (pathOf C t.ck key)

/-- A read at a version: the root that was recorded, then a read from its child. -/
theorem mirrors_at {f : LedgerM β α} {g : LedgerM γ α} {read : Option Child → LedgerM β α}
    {read' : Option Child → LedgerM γ α} {Q : α → Prop} (v : UInt64)
    (hread : ∀ c, Mirrors M (read c) (read' c) Q) (hf : f = loadRootRecord v >>= fun root => loadRootChild C root v >>= read)
    (hg : g = loadRootRecord v >>= fun root => loadRootChild C root v >>= read') : Mirrors M f g Q := by
  rw [hf, hg]
  exact (mirrors_loadRootRecord hL v).bind fun root _ => (mirrors_loadRootChild hL root v).bind fun c _ => hread c

theorem mirrors_getAt (v : UInt64) (key : Bytes) :
    Mirrors M (Store.getAt C v key) (Store.getAt C v key) fun _ => True := by
  refine Mirrors.get_bind fun s t h => ?_
  rw [(hL.same s t h).version, (hL.same s t h).ck]
  refine Mirrors.ite (fun _ => Mirrors.throw_bind) fun _ => ?_
  exact mirrors_at hL v (fun c => mirrors_walk hL c _) rfl rfl

theorem mirrors_proveAt (v : UInt64) (key : Bytes) :
    Mirrors M (Store.proveAt C v key) (Store.proveAt C v key) fun _ => True := by
  refine Mirrors.get_bind fun s t h => ?_
  rw [(hL.same s t h).version, (hL.same s t h).ck]
  refine Mirrors.ite (fun _ => Mirrors.throw_bind) fun _ => ?_
  exact mirrors_at hL v (fun c => mirrors_provePath hL c _) rfl rfl

/-! ## Walks of whole trees -/

omit hL [Backend β] [Backend γ] in
theorem mirrors_collectChildren {ch : Children} {resumeNib : Option Nib}
    {sub : Nib → Child → List Leaf → LedgerM β (Bool × List Leaf)}
    {sub' : Nib → Child → List Leaf → LedgerM γ (Bool × List Leaf)}
    (hsub : ∀ nib c out, Mirrors M (sub nib c out) (sub' nib c out) fun _ => True) : ∀ (nibs : List Nib)
    (out : List Leaf), Mirrors M (collectChildren ch resumeNib sub nibs out) (collectChildren ch resumeNib sub' nibs out)
      fun _ => True := by
  intro nibs
  induction nibs with
  | nil => intro out; exact Mirrors.pure trivial
  | cons nib nibs ih =>
    intro out
    unfold collectChildren
    refine Mirrors.ite (fun _ => ih out) fun _ => ?_
    cases ch nib with
    | none => exact ih out
    | some c =>
      refine (hsub nib c out).bind fun r _ => ?_
      obtain ⟨exhausted, out'⟩ := r
      exact Mirrors.ite (fun _ => ih out') fun _ => Mirrors.pure trivial

theorem mirrors_collectLeaves (max : ℕ) : ∀ (fuel : ℕ) (c : Child) (pfx : List Nib) (startAfter : Option Hash)
    (out : List Leaf), Mirrors M (collectLeaves C max fuel c pfx startAfter out)
      (collectLeaves C max fuel c pfx startAfter out) fun _ => True := by
  intro fuel
  induction fuel using Nat.strong_induction_on with
  | h fuel ih =>
    intro c pfx startAfter out
    unfold collectLeaves
    refine Mirrors.ite (fun _ => Mirrors.pure trivial) fun _ => ?_
    refine (hL.load _ c.hash).bind fun n _ => ?_
    cases n with
    | leaf l =>
      refine Mirrors.ite (fun _ => Mirrors.pure trivial) fun _ => ?_
      exact (mirrors_readValue hL l.path l.vh l.valueVersion).bind fun v _ => Mirrors.pure trivial
    | internal ch =>
      refine Mirrors.ite (fun _ => Mirrors.throw_bind) fun _ => ?_
      cases fuel with
      | zero => exact Mirrors.throw _
      | succ fuel => exact mirrors_collectChildren (fun nib cc out => ih fuel (by omega) cc _ _ out) (List.finRange 16) out

theorem mirrors_snapshotLeaves (v : UInt64) (startAfter : Option Hash) (max : ℕ) :
    Mirrors M (Store.snapshotLeaves C v startAfter max) (Store.snapshotLeaves C v startAfter max) fun _ => True := by
  refine mirrors_at hL v (fun c => ?_) rfl rfl
  cases c with
  | none => exact Mirrors.pure trivial
  | some c =>
    refine Mirrors.get_bind fun s t h => ?_
    rw [(hL.same s t h).len]
    exact (mirrors_collectLeaves hL max _ c [] startAfter []).bind fun r _ => Mirrors.pure trivial

theorem mirrors_diffLoad (c : Option Child) (pfx : List Nib) :
    Mirrors M (diffLoad C c pfx) (diffLoad C c pfx) fun _ => True := by
  cases c with
  | none => exact Mirrors.pure trivial
  | some c => exact (hL.load _ c.hash).bind fun n _ => Mirrors.pure trivial

omit hL [Backend β] [Backend γ] in
theorem mirrors_diffSlots {ca cb : Children}
    {sub : Nib → Option Child → Option Child → LeafMap × LeafMap → LedgerM β (LeafMap × LeafMap)}
    {sub' : Nib → Option Child → Option Child → LeafMap × LeafMap → LedgerM γ (LeafMap × LeafMap)}
    (hsub : ∀ nib x y out, Mirrors M (sub nib x y out) (sub' nib x y out) fun _ => True) : ∀ (nibs : List Nib)
    (out : LeafMap × LeafMap), Mirrors M (diffSlots ca cb sub nibs out) (diffSlots ca cb sub' nibs out) fun _ => True := by
  intro nibs
  induction nibs with
  | nil => intro out; exact Mirrors.pure trivial
  | cons nib nibs ih =>
    intro out
    exact (hsub nib (ca nib) (cb nib) out).bind fun out' _ => ih out'

theorem mirrors_diffChildren : ∀ (fuel : ℕ) (x y : Option Child) (pfx : List Nib) (out : LeafMap × LeafMap),
    Mirrors M (diffChildren C fuel x y pfx out) (diffChildren C fuel x y pfx out) fun _ => True := by
  intro fuel
  induction fuel using Nat.strong_induction_on with
  | h fuel ih =>
    intro x y pfx out
    unfold diffChildren
    refine Mirrors.ite (fun _ => Mirrors.pure trivial) fun _ => Mirrors.ite (fun _ => Mirrors.pure trivial) fun _ => ?_
    refine (mirrors_diffLoad hL x pfx).bind fun nx _ => (mirrors_diffLoad hL y pfx).bind fun ny _ => ?_
    refine Mirrors.ite (fun _ => Mirrors.pure trivial) fun _ => ?_
    cases fuel with
    | zero => exact Mirrors.throw _
    | succ fuel => exact mirrors_diffSlots (fun nib x y out => ih fuel (by omega) x y _ out) (List.finRange 16) _

theorem mirrors_changedPuts (historyPath : Hash) (old : LeafMap) : ∀ (new : List (Hash × LeafNode)),
    Mirrors M (changedPuts C historyPath old new) (changedPuts C historyPath old new) fun _ => True := by
  intro new
  induction new with
  | nil => exact Mirrors.pure trivial
  | cons e new ih =>
    obtain ⟨path, leaf⟩ := e
    unfold changedPuts
    refine Mirrors.ite (fun _ => ih) fun _ => ?_
    refine (mirrors_readValue hL leaf.path leaf.vh leaf.valueVersion).bind fun v _ => ?_
    exact ih.bind fun rest _ => Mirrors.pure trivial

theorem mirrors_changesAt (v : UInt64) : Mirrors M (Store.changesAt C v) (Store.changesAt C v) fun _ => True := by
  refine Mirrors.get_bind fun s t h => ?_
  rw [(hL.same s t h).version, (hL.same s t h).ck]
  refine Mirrors.ite (fun _ => Mirrors.throw_bind) fun _ => ?_
  refine (mirrors_loadRootRecord hL (v - 1)).bind fun oldRoot _ => (mirrors_loadRootRecord hL v).bind fun newRoot _ => ?_
  refine (mirrors_loadRootChild hL oldRoot (v - 1)).bind fun oldChild _ => ?_
  refine (mirrors_loadRootChild hL newRoot v).bind fun newChild _ => ?_
  refine (mirrors_diffChildren hL nibbles oldChild newChild [] _).bind fun leaves _ => ?_
  exact (mirrors_changedPuts hL _ leaves.1 leaves.2.entries).bind fun puts _ => Mirrors.pure trivial

end

end ImmutableLedger
