import ImmutableLedger.Refine.Resume
import ImmutableLedger.Proof.Content
import ImmutableLedger.Security.Binding

/-!
# Restarting between calls

Whether a process that stops between two calls can go on from the backend it left. The checkpoint always opens; what
`OpenLatest` then checks is the reserved leaf, which a snapshot restore writes as data like any other leaf and in
whichever chunk it comes.

* `HeadLeafOk`: the reserved leaf as an open expects it.
* `HeadTracked`: the chain head of a running store is that of its reserved leaf; every move keeps it.
* `Move.KeepsHead`: the moves that leave the reserved leaf as an open expects it.
* `openLatest_same_iff`: `OpenLatest` returns the state of the running store exactly when the reserved leaf is as
  expected.
-/

namespace ImmutableLedger

open EStateM Machine

variable {C : Crypto} {ck : Bytes} {m : Model}

/-- The reserved leaf of a store at a version: none without the chain, and with it a leaf of the size of a hash, which
may be missing at version 0 only. -/
def HeadLeafOk (history : Bool) (version : UInt64) (leaf : Option Bytes) : Prop :=
  (leaf = none ∧ (history = true → version = 0)) ∨ ∃ v, leaf = some v ∧ history = true ∧ v.length = hashSize

/-- With any other leaf an open fails. -/
theorem chainHead_error {history : Bool} {version : UInt64} {leaf : Option Bytes}
    (hbad : ¬ HeadLeafOk history version leaf) :
    ∃ e, Model.chainHead history version leaf = .error e := by
  cases leaf with
  | none =>
    have hcond : history = true ∧ version > 0 := by
      by_contra hcond
      refine hbad (.inl ⟨rfl, fun hhist => ?_⟩)
      by_contra hne
      exact hcond ⟨hhist, UInt64.pos_iff_ne_zero.2 hne⟩
    exact ⟨_, if_pos hcond⟩
  | some v =>
    cases history with
    | false => exact ⟨_, rfl⟩
    | true =>
      have hlen : v.length ≠ hashSize := fun hlen => hbad (.inr ⟨v, rfl, rfl, hlen⟩)
      exact ⟨_, if_pos hlen⟩

/-! ## The chain head of a running store -/

/-- The chain head at hand is that of the reserved leaf. -/
structure HeadTracked (C : Crypto) (ck : Bytes) (m : Model) : Prop where
  off : m.history = false → m.head = Hash.zero
  zero : m.version = 0 → m.head = Hash.zero
  leaf : m.history = true → ∀ v, m.cur.get (historyPath C ck) = some v → v.length = hashSize → m.head = Hash.ofBytes v

/-- The head an open reads is the one at hand. -/
theorem HeadTracked.chainHead_ok (h : HeadTracked C ck m)
    (hok : HeadLeafOk m.history m.version (m.cur.get (historyPath C ck))) :
    Model.chainHead m.history m.version (m.cur.get (historyPath C ck)) = .ok m.head := by
  rcases hok with ⟨hnone, hzero⟩ | ⟨v, hv, hhist, hlen⟩
  · have hcond : ¬ (m.history = true ∧ m.version > 0) := by
      rintro ⟨hhist, hpos⟩
      rw [hzero hhist] at hpos
      exact lt_irrefl _ hpos
    have hhead : m.head = Hash.zero := by
      cases hm : m.history with
      | false => exact h.off hm
      | true => exact h.zero (hzero hm)
    rw [hnone, hhead]
    exact if_neg hcond
  · rw [hv, h.leaf hhist v hv hlen]
    simp only [Model.chainHead, if_pos hhist, hlen, ne_eq, not_true_eq_false, if_false]

theorem add_one_ne_zero_of_lt_max {v : UInt64} (h : v < 0xFFFFFFFFFFFFFFFF) : v + 1 ≠ 0 := by
  have hlt := lt_add_one_of_lt_max h
  intro heq
  rw [heq] at hlt
  exact absurd hlt (UInt64.not_lt.2 UInt64.zero_le)

/-- A call that changes neither the map nor the version nor the head. -/
theorem HeadTracked.of_same {m' : Model} (h : HeadTracked C ck m) (hhist : m'.history = m.history)
    (hversion : m'.version = m.version) (hcur : m'.cur = m.cur) (hhead : m'.head = m.head) : HeadTracked C ck m' := by
  refine ⟨fun hoff => ?_, fun hz => ?_, fun hon v hv hlen => ?_⟩
  · rw [hhead]
    exact h.off (hhist.symm.trans hoff)
  · rw [hhead]
    exact h.zero (hversion.symm.trans hz)
  · rw [hhead]
    rw [hcur] at hv
    exact h.leaf (hhist.symm.trans hon) v hv hlen

theorem Model.prune_same (m : Model) (b : UInt64) : (m.prune b).2.history = m.history ∧
    (m.prune b).2.version = m.version ∧ (m.prune b).2.cur = m.cur ∧ (m.prune b).2.head = m.head := by
  unfold Model.prune
  dsimp only
  split <;> exact ⟨rfl, rfl, rfl, rfl⟩

/-- **Every move keeps the head at hand that of the reserved leaf.** -/
theorem HeadTracked.move (h : HeadTracked C ck m) (hmax : m.version < 0xFFFFFFFFFFFFFFFF) (mv : Move) :
    HeadTracked C ck (m.move C ck mv).2 := by
  have hnew := add_one_ne_zero_of_lt_max hmax
  cases mv with
  | resume =>
    simp only [Model.move, Model.resume]
    cases hhead : Model.chainHead m.history m.version (m.cur.get (historyPath C ck)) with
    | error e => exact h
    | ok head =>
      -- an open reads the head at hand
      have hok : HeadLeafOk m.history m.version (m.cur.get (historyPath C ck)) := by
        by_contra hbad
        obtain ⟨e, he⟩ := chainHead_error hbad
        rw [hhead] at he
        cases he
      rw [h.chainHead_ok hok] at hhead
      cases hhead
      exact h.of_same rfl rfl rfl rfl
  | call c =>
    cases c with
    | putBatch ops =>
      show HeadTracked C ck (m.putBatch C ck ops).2
      rcases @Model.putBatch_cases C ck m ops with he | he <;> rw [he]
      · exact h
      · unfold Model.commitLinked
        by_cases hhist : m.history = true
        · rw [if_pos hhist]
          refine ⟨fun hoff => ?_, fun hz => absurd hz hnew, fun _ v hv _ => ?_⟩
          · exact absurd (hhist.symm.trans hoff) (by decide)
          · simp only [Model.commit, OrdMap.get_insert, if_pos] at hv
            cases hv
            exact (Hash.ofBytes_bytes _).symm
        · rw [if_neg hhist]
          exact ⟨fun hoff => h.off hoff, fun hz => absurd hz hnew, fun hon => absurd hon hhist⟩
    | restoreLeaves leaves =>
      simp only [Model.move, Model.step, Model.restoreLeaves]
      by_cases hsame : applyLeaves m.cur leaves = m.cur
      · rw [if_pos hsame]
        exact h
      · rw [if_neg hsame]
        refine ⟨fun hoff => ?_, fun hz => absurd hz hnew, fun hon v hv hlen => ?_⟩
        · have hhist : m.history = false := hoff
          simp only [Model.commit, Model.restoredHead, hhist]
          cases (applyLeaves m.cur leaves).get (historyPath C ck) <;> exact h.off hhist
        · have hhist : m.history = true := hon
          have hleaf : (applyLeaves m.cur leaves).get (historyPath C ck) = some v := hv
          simp only [Model.commit, Model.restoredHead, hleaf, hhist, hlen, and_self, if_true]
    | stampVersion v =>
      simp only [Model.move, Model.step, Model.stampVersion]
      by_cases hlow : v < m.version
      · rw [if_pos hlow]
        exact h
      · rw [if_neg hlow]
        refine ⟨fun hoff => h.off hoff, fun hz => h.zero ?_, fun hon => h.leaf hon⟩
        have hv : v = 0 := hz
        rw [hv] at hlow
        by_contra hne
        exact hlow (UInt64.pos_iff_ne_zero.2 hne)
    | prune b =>
      obtain ⟨h₁, h₂, h₃, h₄⟩ := m.prune_same b
      exact h.of_same h₁ h₂ h₃ h₄
    | retainRecent w =>
      obtain ⟨h₁, h₂, h₃, h₄⟩ := m.prune_same (if w > m.version then 0 else m.version - w)
      exact h.of_same h₁ h₂ h₃ h₄
    | _ => exact h.of_same rfl rfl rfl rfl

theorem headTracked_init (history : Bool) : HeadTracked C ck (Model.init history) :=
  ⟨fun _ => rfl, fun _ => rfl, fun _ v hv => by cases hv⟩

/-! ## The reserved leaf of a running store -/

/-- The moves that leave the reserved leaf as an open expects it, by the state before them. Batches write the leaf of
a chained store themselves; a restore into a chained store has to bring it, if it is not there yet, before the version
moves. -/
def Move.KeepsHead (C : Crypto) (ck : Bytes) (m : Model) : Move → Prop
  | .call (.putBatch ops) =>
    m.history = false → ∀ op ∈ ops, op.delete = false → pathOf C ck op.key ≠ historyPath C ck
  | .call (.restoreLeaves leaves) =>
    if m.history then
      (∀ l ∈ leaves, l.path = historyPath C ck → l.value.length = hashSize) ∧
        (leaves = [] ∨ (m.cur.get (historyPath C ck)).isSome ∨ ∃ l ∈ leaves, l.path = historyPath C ck)
    else ∀ l ∈ leaves, l.path ≠ historyPath C ck
  | .call (.stampVersion v) => m.history = true → v = 0 ∨ (m.cur.get (historyPath C ck)).isSome
  | _ => True

/-- A batch puts nothing at a path that none of its puts has. -/
theorem get_applyOps_none {p : Hash} : ∀ {ops : List Op} {vals : OrdMap Hash Bytes}, vals.get p = none →
    (∀ op ∈ ops, op.delete = false → pathOf C ck op.key ≠ p) → (applyOps C ck vals ops).get p = none := by
  intro ops
  induction ops with
  | nil => intro vals h _; exact h
  | cons op ops ih =>
    intro vals h hops
    refine ih ?_ fun o ho => hops o (List.mem_cons_of_mem _ ho)
    unfold applyOp
    cases hdel : op.delete with
    | true =>
      rw [if_pos rfl, OrdMap.get_erase]
      split
      · rfl
      · exact h
    | false =>
      have hne := hops op List.mem_cons_self hdel
      rw [if_neg Bool.false_ne_true, OrdMap.get_insert, if_neg hne.symm]
      exact h

/-- The reserved leaf of the model is as an open expects it. -/
def Model.HeadOk (C : Crypto) (ck : Bytes) (m : Model) : Prop :=
  HeadLeafOk m.history m.version (m.cur.get (historyPath C ck))

/-- A restore that brings the head in time. -/
theorem headOk_restore {leaves : List Leaf} {head : Hash} (h : m.HeadOk C ck)
    (hkeep : Move.KeepsHead C ck m (.call (.restoreLeaves leaves))) (hne : applyLeaves m.cur leaves ≠ m.cur) :
    (m.commit (applyLeaves m.cur leaves) head).HeadOk C ck := by
  unfold Model.HeadOk Model.commit
  dsimp only
  simp only [Move.KeepsHead] at hkeep
  rcases get_applyLeaves_cases (historyPath C ck) leaves m.cur with ⟨l, hl, hp, hget⟩ | ⟨hno, hget⟩
  · rw [hget]
    by_cases hhist : m.history = true
    · rw [if_pos hhist] at hkeep
      exact .inr ⟨l.value, rfl, hhist, hkeep.1 l hl hp⟩
    · rw [if_neg hhist] at hkeep
      exact absurd hp (hkeep l hl)
  · rw [hget]
    rcases h with ⟨hnone, -⟩ | hsome
    · rw [hnone]
      refine .inl ⟨rfl, fun hhist => ?_⟩
      rw [if_pos hhist, hnone] at hkeep
      rcases hkeep.2 with hnil | hsome | ⟨l, hl, hp⟩
      · exact absurd (by rw [hnil]; rfl) hne
      · cases hsome
      · exact absurd hp (hno l hl)
    · exact .inr hsome

/-- **A move that keeps the head keeps the reserved leaf as expected.** -/
theorem headOk_move (h : m.HeadOk C ck) (mv : Move) (hkeep : mv.KeepsHead C ck m) : (m.move C ck mv).2.HeadOk C ck := by
  cases mv with
  | resume =>
    simp only [Model.move, Model.resume]
    cases Model.chainHead m.history m.version (m.cur.get (historyPath C ck)) <;> exact h
  | call c =>
    cases c with
    | putBatch ops =>
      show (m.putBatch C ck ops).2.HeadOk C ck
      rcases @Model.putBatch_cases C ck m ops with he | he <;> rw [he]
      · exact h
      · unfold Model.commitLinked
        by_cases hhist : m.history = true
        · rw [if_pos hhist]
          refine .inr ⟨(m.nextHead C ck).bytes, ?_, hhist, Hash.size _⟩
          simp only [Model.commit, OrdMap.get_insert, if_pos]
        · rw [if_neg hhist]
          have hoff : m.history = false := Bool.not_eq_true _ ▸ hhist
          have hnone : m.cur.get (historyPath C ck) = none := by
            rcases h with ⟨hnone, -⟩ | ⟨v, -, hon, -⟩
            · exact hnone
            · exact absurd hon hhist
          exact .inl ⟨get_applyOps_none hnone (hkeep hoff), fun hon => absurd hon hhist⟩
    | restoreLeaves leaves =>
      simp only [Model.move, Model.step, Model.restoreLeaves]
      by_cases hsame : applyLeaves m.cur leaves = m.cur
      · rw [if_pos hsame]
        exact h
      · rw [if_neg hsame]
        exact headOk_restore h hkeep hsame
    | stampVersion v =>
      simp only [Model.move, Model.step, Model.stampVersion]
      by_cases hlow : v < m.version
      · rw [if_pos hlow]
        exact h
      · rw [if_neg hlow]
        rcases h with ⟨hnone, -⟩ | hsome
        · refine .inl ⟨hnone, fun hhist => ?_⟩
          rcases hkeep hhist with hv | hsome
          · exact hv
          · rw [hnone] at hsome
            cases hsome
        · exact .inr hsome
    | prune b =>
      obtain ⟨h₁, h₂, h₃, -⟩ := m.prune_same b
      show HeadLeafOk (m.prune b).2.history (m.prune b).2.version ((m.prune b).2.cur.get _)
      rw [h₁, h₂, h₃]
      exact h
    | retainRecent w =>
      obtain ⟨h₁, h₂, h₃, -⟩ := m.prune_same (if w > m.version then 0 else m.version - w)
      show HeadLeafOk (m.prune _).2.history (m.prune _).2.version ((m.prune _).2.cur.get _)
      rw [h₁, h₂, h₃]
      exact h
    | _ => exact h

/-! ## Restarts -/

section
variable {o : StoreOptions} {entropy entropy' : ℕ → Nonce} {ms : List Move} {s : Store MemBackend} {want : Bool}

/-- `OpenLatest` on the backend of `s` returns a handle in the state of `s`. -/
def ResumesSame (C : Crypto) (ck : Bytes) (o : StoreOptions) (want : Bool) (entropy : ℕ → Nonce) (s : Store MemBackend) :
    Prop :=
  ∃ s', openLatest C s.backend ck { sk := o.sk, history := want } entropy = .ok () s' ∧ s'.root = s.root ∧
    s'.version = s.version ∧ s'.history = s.history ∧ s'.historyHead = s.historyHead

theorem Reached.headTracked (h : Reached C ck o entropy ms s m) : HeadTracked C ck m := by
  have hmax := along_of_trace h.max
  rw [h.model]
  exact invariant (fun m mv hm hlt => hm.move hlt.1 mv) (headTracked_init o.history) hmax

/-- **Restarts between calls.** On every store a process reaches by batches, restores of any leaves, stamps and any
other calls, chained or not, `OpenLatest` on its backend returns a handle with the root, the version, the chain mode
and the chain head of the running store, exactly when the reserved leaf of its map is as an open expects it. That is so
after every run of moves that keep the head. -/
theorem openLatest_same_iff (hC : C.GcmOk) (h : Reached C ck o entropy ms s m) (hwant : want = true → o.history = true) :
    (ResumesSame C ck o want entropy' s ↔ HeadLeafOk o.history s.version (m.cur.get (historyPath C ck))) ∧
      (Along (Model.move C ck) (fun m mv => mv.KeepsHead C ck m) (Model.init o.history) ms →
        ResumesSame C ck o want entropy' s) := by
  have htracked := h.tracked hC
  obtain ⟨hok, herr⟩ := htracked.openLatest h.noCollision.values entropy' hwant
  obtain ⟨⟨rfl, -, g, hR⟩, ha⟩ := htracked
  have hhist : m.history = o.history := hR.history.symm.trans ha.history
  have hiff : ResumesSame C s.ck o want entropy' s ↔
      HeadLeafOk o.history s.version (m.cur.get (historyPath C s.ck)) := by
    rw [hR.version]
    constructor
    · rintro ⟨s', hs', -⟩
      by_contra hbad
      obtain ⟨e, he⟩ := chainHead_error hbad
      obtain ⟨s'', hs''⟩ := herr e he
      rw [hs'] at hs''
      cases hs''
    · intro hleaf
      rw [← hhist] at hleaf
      have hhead := h.headTracked.chainHead_ok hleaf
      rw [hhist] at hhead
      obtain ⟨s', hs', hroot, hversion, hmode, hcached, -⟩ := hok m.head hhead
      exact ⟨s', hs', hroot, hversion, hmode, hcached.trans hR.head.symm⟩
  refine ⟨hiff, fun hkeeps => hiff.2 ?_⟩
  have hinit : (Model.init o.history).HeadOk C s.ck := .inl ⟨rfl, fun _ => rfl⟩
  have hstep : ∀ (m : Model) (mv : Move), m.HeadOk C s.ck → mv.KeepsHead C s.ck m → (m.move C s.ck mv).2.HeadOk C s.ck :=
    fun m mv hm hkeep => headOk_move hm mv hkeep
  have hend := invariant hstep hinit hkeeps
  rw [← h.model] at hend
  unfold Model.HeadOk at hend
  rw [hhist, ← hR.version] at hend
  exact hend

/-- A chained store into which a chunk without the head is restored. -/
def headlessMoves : List Move := [.call (.restoreLeaves [⟨pathOfByte 1, [10]⟩])]

def headlessStore : Store MemBackend :=
  (run (Store.move plainCrypto) (created plainCrypto [] { history := true } fun _ => Nonce.zero) headlessMoves).2

/-- The restore succeeds, and its backend does not open again. -/
theorem headless_chunk_stuck :
    (run (Store.move plainCrypto) (created plainCrypto [] { history := true } fun _ => Nonce.zero) headlessMoves).1 =
      [.ok (.committed headlessStore.root headlessStore.version)] ∧
    (openLatest plainCrypto headlessStore.backend [] { history := true } fun _ => Nonce.zero).val =
      .error (errCorrupted "history chain enabled but the head leaf is missing") := by
  decide +kernel

/-- The head restored first, then stamped. -/
def headFirstMoves : List Move :=
  [.call (.restoreLeaves [⟨historyPath quickCrypto [], Hash.zero.bytes⟩]), .call (.stampVersion 7)]

theorem openLatest_same_iff_headFirst :
    (run (Model.move quickCrypto []) (Model.init true) headFirstMoves).2.version = 7 ∧
    ResumesSame quickCrypto [] { history := true } true (fun _ => Nonce.zero)
      (run (Store.move quickCrypto) (created quickCrypto [] { history := true } fun _ => Nonce.zero) headFirstMoves).2 := by
  have hreached : Reached quickCrypto [] { history := true } (fun _ => Nonce.zero) headFirstMoves _ _ :=
    ⟨⟨vhInj_of_nodup (by decide +kernel), by decide +kernel⟩, by decide +kernel, rfl, rfl⟩
  have hkeeps : Along (Model.move quickCrypto []) (fun m mv => mv.KeepsHead quickCrypto [] m) (Model.init true)
      headFirstMoves := by
    refine ⟨⟨fun l hl _ => ?_, .inr (.inr ⟨_, List.mem_cons_self, rfl⟩)⟩, fun _ => .inr (by decide +kernel), trivial⟩
    rw [List.mem_singleton.1 hl]
    rfl
  exact ⟨by decide +kernel, (openLatest_same_iff quickCrypto_gcmOk hreached fun _ => rfl).2 hkeeps⟩

end

end ImmutableLedger
