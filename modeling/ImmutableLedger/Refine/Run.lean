import ImmutableLedger.Refine.Stamp

/-!
# Runs of a store

A store made by `Create`, then driven by any calls on its one handle, answers every call as the versioned map
does (`run_tracks`), as long as no collision occurs among the values the run writes and no tree with an entry
hashes to the placeholder (`NoCollisionIn`).
-/

namespace ImmutableLedger

open EStateM Machine

variable {C : Crypto} {ck : Bytes}

/-! ## Creating a store -/

/-- The handle `Create` returns on an empty in-memory backend. -/
def created (C : Crypto) (ck : Bytes) (o : StoreOptions) (entropy : ℕ → Nonce) : Store MemBackend :=
  (create C (OrdMap.empty : MemBackend) ck o entropy).state

/-- The new store has the records of version 0 and nothing else. -/
theorem create_run (hC : C.GcmOk) (o : StoreOptions) (entropy : ℕ → Nonce) :
    ∃ ckpt e, openCheckpoint C (newStore C (OrdMap.empty : MemBackend) ck o entropy) ckpt =
        .ok (placeholderHash C, 0, ckptFlags o.history) ∧
      create C (OrdMap.empty : MemBackend) ck o entropy = .ok () { newStore C (OrdMap.empty : MemBackend) ck o entropy with
        backend := stampBackend OrdMap.empty 0 (placeholderHash C) ckpt none
        history := o.history
        entropy := e } := by
  obtain ⟨ckpt, e, hseal, hopen⟩ := sealCheckpoint_run hC (placeholderHash C) 0
    { newStore C (OrdMap.empty : MemBackend) ck o entropy with history := o.history }
  refine ⟨ckpt, e, hopen, ?_⟩
  show (sealCheckpoint C (placeholderHash C) 0 >>= _ : LedgerM MemBackend Unit)
    { newStore C (OrdMap.empty : MemBackend) ck o entropy with history := o.history } = _
  rw [run_bind_ok hseal]
  rfl

theorem created_ck (hC : C.GcmOk) (o : StoreOptions) (entropy : ℕ → Nonce) : (created C ck o entropy).ck = ck := by
  obtain ⟨ckpt, e, -, hrun⟩ := @create_run C ck hC o entropy
  unfold created
  rw [hrun]
  rfl

theorem contentRoot_empty : contentRoot C ck OrdMap.empty = placeholderHash C := by
  have hnil : Tree.nil.Holds (fun _ => none) [] := fun _ _ => rfl
  exact (hnil.rootHash_eq (M := commitments C ck OrdMap.empty) fun _ => rfl).symm

/-- **A new store holds the empty map at version 0.** -/
theorem created_refines (hC : C.GcmOk) (o : StoreOptions) (entropy : ℕ → Nonce) (W : Set (Hash × Bytes)) :
    Refines C W (created C ck o entropy) (Model.init o.history) (fun _ => ⟨.nil, fun _ => none⟩) ∧
      Fresh (created C ck o entropy) := by
  obtain ⟨ckpt, e, -, hrun⟩ := @create_run C ck hC o entropy
  unfold created
  rw [hrun]
  have hroot : ∀ w, (stampBackend OrdMap.empty 0 (placeholderHash C) ckpt none).get (rootRecordKey w) =
      if w = 0 then some (placeholderHash C).bytes else none := by
    intro w
    by_cases hw : w = 0
    · rw [if_pos hw, hw]; exact get_stamped_root
    · rw [if_neg hw]
      refine (get_stamped_of_ne (x := .root w) ?_ ?_ fun h => (by cases h)).trans rfl
      · intro he; exact hw (RecKey.root.inj he)
      · intro he; cases he
  refine ⟨⟨rfl, contentRoot_empty.symm, rfl, rfl, rfl, rfl, rfl, ?_, ?_, ?_, ?_, ?_⟩, ?_⟩
  · intro w vals hw
    simp only [Model.init] at hw ⊢
    split at hw
    · rename_i h0
      cases hw
      refine ⟨h0.le, fun p _ => rfl, trivial, fun v hv => (by cases hv), ⟨fun p => rfl, fun p pt hp => (by cases hp)⟩,
        fun r hr => (by cases hr), fun h => absurd rfl h⟩
    · cases hw
  · intro w _
    refine (hroot w).trans ?_
    simp only [Model.init]
    split
    · rw [Option.map_some, contentRoot_empty]
    · rfl
  · intro k r hk hh
    rcases exists_of_get_stamped hk with rfl | rfl | rfl | hk
    · exact ⟨0, rfl⟩
    · cases hh
    · cases hh
    · cases hk
  · intro k r hk hh
    rcases exists_of_get_stamped hk with rfl | rfl | rfl | hk
    · cases hh
    · cases hh
    · cases hh
    · cases hk
  · intro nk n hn
    cases hn
  · intro w hw
    exact (hroot w).trans (if_neg (by rintro rfl; exact lt_irrefl _ hw))

/-! ## Runs -/

section
variable (C ck) {κ ρ : Type} (step : Model → κ → ρ × Model) (pairs : κ → List (Hash × Bytes))

/-- The values a run writes, with their paths: those of its calls, and the chain heads. -/
def runPairs (m : Model) (cs : List κ) : List (Hash × Bytes) :=
  cs.flatMap pairs ++ (trace step m cs).map fun m' => (historyPath C ck, (m'.nextHead C ck).bytes)

/-- The run meets no collision: the values it writes have different commitments, and no tree with an entry
has the hash of the placeholder, whose preimage is not that of a node. -/
structure NoCollisionIn (m : Model) (cs : List κ) : Prop where
  values : VhInj C ck {e | e ∈ runPairs C ck step pairs m cs}
  roots : ∀ m' ∈ trace step m cs, m'.cur ≠ OrdMap.empty → m'.root C ck ≠ placeholderHash C

variable {C ck step pairs} {m : Model}

/-- The first part of a run without collision has none. -/
theorem NoCollisionIn.left {cs ds : List κ} (h : NoCollisionIn C ck step pairs m (cs ++ ds)) :
    NoCollisionIn C ck step pairs m cs where
  values := h.values.mono fun e he => by
    rcases List.mem_append.1 he with he | he
    · obtain ⟨c, hc, he⟩ := List.mem_flatMap.1 he
      exact List.mem_append_left _ (List.mem_flatMap.2 ⟨c, List.mem_append_left _ hc, he⟩)
    · obtain ⟨m', hm, rfl⟩ := List.mem_map.1 he
      exact List.mem_append_right _ (List.mem_map.2 ⟨m', mem_trace_append hm, rfl⟩)
  roots m' hm := h.roots m' (mem_trace_append hm)

/-- What the run writes, and the roots it makes, at every step. -/
theorem NoCollisionIn.steps {cs : List κ} (h : NoCollisionIn C ck step pairs m cs) :
    Along step (fun m' c => (∀ e ∈ pairs c, e ∈ runPairs C ck step pairs m cs) ∧
      (historyPath C ck, (m'.nextHead C ck).bytes) ∈ runPairs C ck step pairs m cs ∧
      ((step m' c).2.cur ≠ OrdMap.empty → (step m' c).2.root C ck ≠ placeholderHash C)) m cs := by
  have hQ : ∀ m' ∈ trace step m cs, (historyPath C ck, (m'.nextHead C ck).bytes) ∈ runPairs C ck step pairs m cs ∧
      (m'.cur ≠ OrdMap.empty → m'.root C ck ≠ placeholderHash C) := fun m' hm =>
    ⟨List.mem_append_right _ (List.mem_map.2 ⟨m', hm, rfl⟩), h.roots m' hm⟩
  refine (along_of_trace hQ).mono fun m' c hc hm => ⟨fun e he => ?_, hm.1.1, hm.2.2⟩
  exact List.mem_append_left _ (List.mem_flatMap.2 ⟨c, hc, he⟩)

/-- What the run's hypotheses give at every step. -/
theorem NoCollisionIn.along {cs : List κ} (h : NoCollisionIn C ck step pairs m cs)
    (hmax : ∀ m' ∈ trace step m cs, m'.version < 0xFFFFFFFFFFFFFFFF) :
    Along step (fun m' c => m'.version < 0xFFFFFFFFFFFFFFFF ∧
      (∀ e ∈ pairs c, e ∈ runPairs C ck step pairs m cs) ∧
      (historyPath C ck, (m'.nextHead C ck).bytes) ∈ runPairs C ck step pairs m cs ∧
      ((step m' c).2.cur ≠ OrdMap.empty → (step m' c).2.root C ck ≠ placeholderHash C)) m cs :=
  ((along_of_trace hmax).mono fun _ _ _ hm => hm.1).and h.steps

end

/-- A run of calls meets no collision. -/
abbrev NoCollision (C : Crypto) (ck : Bytes) (m : Model) (cs : List Call) : Prop :=
  NoCollisionIn C ck (Model.step C ck) (Call.pairs C ck) m cs

/-- The values a run of calls writes. -/
abbrev callPairs (C : Crypto) (ck : Bytes) (m : Model) (cs : List Call) : Set (Hash × Bytes) :=
  {e | e ∈ runPairs C ck (Model.step C ck) (Call.pairs C ck) m cs}

variable {m : Model} {cs : List Call}

theorem vhInj_of_nodup {l : List (Hash × Bytes)} (h : (l.dedup.map fun e => vhOf C ck e.1 e.2).Nodup) :
    VhInj C ck {e | e ∈ l} :=
  fun _ ha _ hb => List.inj_on_of_nodup_map h (List.mem_dedup.2 ha) (List.mem_dedup.2 hb)

/-- The store holds the model's state, on its one handle. -/
def OneHandle (C : Crypto) (ck : Bytes) (W : Set (Hash × Bytes)) (s : Store MemBackend) (m : Model) : Prop :=
  s.ck = ck ∧ Fresh s ∧ ∃ g, Refines C W s m g

theorem OneHandle.step {W : Set (Hash × Bytes)} (hC : C.GcmOk) (hW : VhInj C ck W) {s : Store MemBackend} {m : Model}
    {c : Call} (h : OneHandle C ck W s m) (hok : StepOk C ck W m c) :
    (s.step C c).1 = (m.step C ck c).1 ∧ Frame C s (s.step C c).2 ∧ OneHandle C ck W (s.step C c).2 (m.step C ck c).2 := by
  obtain ⟨rfl, hfresh, g, hR⟩ := h
  obtain ⟨hreply, hF, g', hR'⟩ := hR.answers hC hW hfresh hok
  exact ⟨hreply, hF, hF.ck, hF.fresh hfresh, g', hR'⟩

theorem OneHandle.read {W : Set (Hash × Bytes)} (hW : VhInj C ck W) {s : Store MemBackend} {m : Model} {c : Call}
    (h : OneHandle C ck W s m) (hc : c.IsRead) : (s.step C c).1 = (m.step C ck c).1 := by
  obtain ⟨rfl, -, g, hR⟩ := h
  exact (hR.answers_read hW hc).1

/-- **A run from `Create` answers as the versioned map does**, call by call, and ends in a store that holds it and
has every property that calls keep. -/
theorem run_keeps {I : Store MemBackend → Prop} (hI : ∀ s s', Frame C s s' → I s → I s') (hC : C.GcmOk) (o : StoreOptions)
    (entropy : ℕ → Nonce) (h0 : I (created C ck o entropy)) (h : NoCollision C ck (Model.init o.history) cs)
    (hmax : ∀ m' ∈ trace (Model.step C ck) (Model.init o.history) cs, m'.version < 0xFFFFFFFFFFFFFFFF) :
    (run (Store.step C) (created C ck o entropy) cs).1 = (run (Model.step C ck) (Model.init o.history) cs).1 ∧
      OneHandle C ck (callPairs C ck (Model.init o.history) cs)
        (run (Store.step C) (created C ck o entropy) cs).2 (run (Model.step C ck) (Model.init o.history) cs).2 ∧
      I (run (Store.step C) (created C ck o entropy) cs).2 := by
  obtain ⟨hR, hfresh⟩ := @created_refines C ck hC o entropy (callPairs C ck (Model.init o.history) cs)
  have hstep : ∀ (s : Store MemBackend) (m : Model) (c : Call),
      OneHandle C ck (callPairs C ck (Model.init o.history) cs) s m ∧ I s → True →
      StepOk C ck (callPairs C ck (Model.init o.history) cs) m c →
      (s.step C c).1 = (m.step C ck c).1 ∧
        OneHandle C ck (callPairs C ck (Model.init o.history) cs) (s.step C c).2 (m.step C ck c).2 ∧
        I (s.step C c).2 := by
    intro s m c hs _ hok
    obtain ⟨hreply, hF, hs'⟩ := hs.1.step hC h.values hok
    exact ⟨hreply, hs', hI _ _ hF hs.2⟩
  refine simulation hstep ⟨⟨created_ck hC o entropy, hfresh, _, hR⟩, h0⟩ (along_true _ _) ((h.along hmax).mono ?_)
  exact fun m c _ hm => ⟨hm.1, hm.2.1, fun _ => hm.2.2.1, hm.2.2.2⟩

theorem run_tracks (hC : C.GcmOk) (o : StoreOptions) (entropy : ℕ → Nonce)
    (h : NoCollision C ck (Model.init o.history) cs)
    (hmax : ∀ m' ∈ trace (Model.step C ck) (Model.init o.history) cs, m'.version < 0xFFFFFFFFFFFFFFFF) :
    (run (Store.step C) (created C ck o entropy) cs).1 = (run (Model.step C ck) (Model.init o.history) cs).1 ∧
      OneHandle C ck (callPairs C ck (Model.init o.history) cs)
        (run (Store.step C) (created C ck o entropy) cs).2 (run (Model.step C ck) (Model.init o.history) cs).2 := by
  obtain ⟨hreply, hs, -⟩ := @run_keeps C ck cs (fun _ => True) (fun _ _ _ _ => trivial) hC o entropy trivial h hmax
  exact ⟨hreply, hs⟩

end ImmutableLedger
