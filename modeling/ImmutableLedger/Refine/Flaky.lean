import ImmutableLedger.Ledger.Flaky
import ImmutableLedger.Refine.LinkedWrite
import ImmutableLedger.Refine.Twin

/-!
# Reads and batch computations over a backend that may fail

A handle over the failing backend is linked to the same handle over the records (`flaky`): a program ends in the same way
on both, unless a call of the backend failed. What it changes before its first write is the cache, which goes on holding
records of the backend, and the nonces it drew. It is also linked to itself with every call going through (`taped`): the
calls of that run tell at which call it was interrupted.

* `flaky_linked`, `taped_linked`: the links.
* `commitAcc_flaky`: the write of a commit takes full effect or none.
-/

namespace ImmutableLedger

open EStateM

variable {C : Crypto}

/-- A read can still fail. -/
def Armed (t : Store Flaky) : Prop := t.backend.sparing = false ∧ t.backend.fates ≠ []

/-- The handles that differ in nonces, calls and fates to come, and a cache of the records. -/
def Kept (t t' : Store Flaky) : Prop :=
  ∃ c e f w, (Faithful t.backend.mem t.cache → Faithful t.backend.mem c) ∧ (f = t.backend.fates ∨ Armed t) ∧
    t' = { t with cache := c, entropy := e, backend := { t.backend with fates := f, tape := w } }

theorem Kept.refl (t : Store Flaky) : Kept t t :=
  ⟨t.cache, t.entropy, t.backend.fates, t.backend.tape, id, .inl rfl, rfl⟩

theorem Kept.armed {t u : Store Flaky} (h : Kept t u) (hu : Armed u) : Armed t := by
  obtain ⟨c, e, f, w, -, hf | hf, rfl⟩ := h
  · exact ⟨hu.1, fun hnil => hu.2 (hf.trans hnil)⟩
  · exact hf

theorem Kept.trans {t u v : Store Flaky} (h : Kept t u) (h' : Kept u v) : Kept t v := by
  have harmed := h.armed
  obtain ⟨c, e, f, w, hc, hf, rfl⟩ := h
  obtain ⟨c', e', f', w', hc', hf', rfl⟩ := h'
  refine ⟨c', e', f', w', fun h => hc' (hc h), ?_, rfl⟩
  rcases hf' with rfl | hu
  · exact hf
  · exact .inr (harmed hu)

theorem armed_of_fate {t : Store Flaky} {e : String} (h : t.backend.fate false = some e) : Armed t := by
  unfold Flaky.fate at h
  refine ⟨?_, fun hnil => ?_⟩
  · cases hs : t.backend.sparing with
    | false => rfl
    | true =>
      rw [hs] at h
      cases h
  · rw [hnil] at h
    split at h <;> cases h

/-- A read changes the calls and fates alone. -/
theorem Kept.ticked (t : Store Flaky) : Kept t (t.ticked false) := by
  refine ⟨t.cache, t.entropy, _, _, id, ?_, rfl⟩
  cases hs : t.backend.sparing with
  | true => exact .inl rfl
  | false =>
    by_cases hnil : t.backend.fates = []
    · left
      rw [hnil]
      rfl
    · exact .inr ⟨hs, hnil⟩

theorem Kept.cached (t : Store Flaky) (nk : NodeKey) : Kept t { t with cache := (t.cache.get nk).2 } :=
  ⟨_, t.entropy, t.backend.fates, t.backend.tape, fun hc => Fetched.faithful (.inl rfl) hc, .inl rfl, rfl⟩

theorem Kept.drawn (t : Store Flaky) (e : ℕ → Nonce) : Kept t { t with entropy := e } :=
  ⟨t.cache, e, t.backend.fates, t.backend.tape, id, .inl rfl, rfl⟩

/-- A load that went to the backend and got the record. -/
theorem Kept.fetched (t : Store Flaky) (nk : NodeKey) (h : Hash) : Kept t { t.ticked false with
    cache := fetchedCache nk (readNode C nk h (OrdMap.get t.backend.mem (nodeRecordKey nk))) (t.cache.get nk).2 } :=
  (Kept.ticked t).trans ⟨_, t.entropy, _, _,
    fun hc => (fetched_fetchedCache (C := C) t.backend.mem t.cache nk h).faithful hc, .inl rfl, rfl⟩

/-! ## Against the records -/

/-- The failing backend against its records. -/
def flaky : Link (Store Flaky) (Store MemBackend) where
  rel s t := t = s.plain
  kept := Kept
  cut s s' _ := Kept s s' ∧ Armed s
  kept_refl := Kept.refl
  kept_trans := Kept.trans
  cut_later h hc := ⟨h.trans hc.1, h.armed hc.2⟩

theorem flaky_over (s : Store MemBackend) : flaky.rel (s.over [] []) s := rfl

/-- A program that is one read of the backend. -/
structure OneRead {α : Type} (x : LedgerM Flaky α) (f : MemBackend → α) (wrap : String → Err) : Prop where
  goes : ∀ t, t.backend.fate false = none → x t = .ok (f t.backend.mem) (t.ticked false)
  fails : ∀ t e, t.backend.fate false = some e → x t = .error (wrap e) (t.ticked false)

theorem oneRead_get (key : Bytes) : OneRead (backendGet key) (fun m => OrdMap.get m key) errBackend :=
  ⟨fun t => backendGet_goes t key, fun t _ => backendGet_fails t key⟩

theorem OneRead.flaky {α : Type} {x : LedgerM Flaky α} {y : LedgerM MemBackend α} {f : MemBackend → α}
    {wrap : String → Err} (h : OneRead x f wrap) (hy : ∀ s, y s = .ok (f s.backend) s) :
    Mirrors flaky x y fun _ => True := by
  rintro s _ rfl
  refine ⟨.ok (f s.backend.mem), s.plain, hy s.plain, trivial, fun _ _ => trivial, ?_⟩
  cases hfate : s.backend.fate false with
  | none => exact .inl ⟨_, h.goes s hfate, rfl, Kept.ticked s⟩
  | some e => exact .inr ⟨_, _, s, h.fails s e hfate, ⟨Kept.ticked s, armed_of_fate hfate⟩, rfl⟩

theorem flaky_linked : Linked C flaky where
  same := by
    rintro s _ rfl
    exact ⟨rfl, rfl, rfl, rfl, rfl, rfl, rfl, rfl, rfl⟩
  get key := (oneRead_get key).flaky fun _ => rfl
  load nk h := by
    rintro s _ rfl
    cases hcase : s.cache.node nk with
    | some n =>
      exact ⟨_, _, loadNode_hit h (s := s.plain) hcase, trivial, fun _ _ => trivial,
        .inl ⟨_, loadNode_hit h hcase, rfl, Kept.cached s nk⟩⟩
    | none =>
      refine ⟨_, _, loadNode_miss h (s := s.plain) hcase rfl, trivial, fun _ _ => trivial, ?_⟩
      cases hfate : s.backend.fate false with
      | none =>
        have hread := backendGet_goes { s with cache := (s.cache.get nk).2 } (nodeRecordKey nk) hfate
        exact .inl ⟨_, loadNode_miss h hcase hread, rfl, Kept.fetched s nk h⟩
      | some e =>
        have hread := backendGet_fails { s with cache := (s.cache.get nk).2 } (nodeRecordKey nk) hfate
        exact .inr ⟨_, _, _, loadNode_failed h hcase hread,
          ⟨(Kept.cached s nk).trans (Kept.ticked _), armed_of_fate hfate⟩, flaky_over _⟩
  draw := by
    rintro s _ rfl
    exact ⟨.ok (s.entropy 0), _, rfl, trivial, fun _ _ => trivial, .inl ⟨_, rfl, rfl, Kept.drawn s _⟩⟩

/-- A linked program over the records changes the nonces alone, and the cache, which goes on holding records. -/
theorem quiet_of_mirrors {α : Type} {x : LedgerM Flaky α} {y : LedgerM MemBackend α} {Q : α → Prop}
    (h : Mirrors flaky x y Q) (s : Store MemBackend) :
    ∃ r c e, y s = outcome r { s with cache := c, entropy := e } ∧
      (Faithful s.backend s.cache → Faithful s.backend c) ∧ ∀ a, r = .ok a → Q a := by
  obtain ⟨r, t, _, -, hrun, rfl, ⟨c, e, f, w, hc, -, rfl⟩, hQ⟩ :=
    h.runs (s := s.over [] []) rfl fun _ _ hcut => hcut.2.2 rfl
  exact ⟨r, c, e, hrun, hc, hQ⟩

/-! ## Against the same handle with every call going through -/

theorem Flaky.fate_nil {b : Flaky} (h : b.fates = []) (write : Bool) : b.fate write = none := by
  unfold Flaky.fate
  rw [h]
  split <;> rfl

theorem healthy_ticked (t : Store Flaky) (write : Bool) : t.healthy.ticked write = (t.ticked write).healthy := by
  unfold Store.ticked Store.healthy Flaky.ticked
  dsimp only
  split <;> rfl

/-- The calls from `s` to `u` were reads that went through. -/
def Went (s u : Store Flaky) : Prop :=
  ∃ R, true ∉ R ∧ u.backend.tape = s.backend.tape ++ R ∧
    ∀ T, Flaky.through s.backend.fates (R ++ T) = R ++ Flaky.through u.backend.fates T

/-- Of the calls up to `t` one fails when they are made from `s`; it is a read, after reads. -/
def Stopped (s t : Store Flaky) : Prop :=
  ∃ T, t.backend.tape = s.backend.tape ++ T ∧ true ∉ Flaky.through s.backend.fates T ∧
    Flaky.failing s.backend.fates T = some false

theorem Went.of_same {s u : Store Flaky} (h : u.backend = s.backend) : Went s u :=
  ⟨[], List.not_mem_nil, by rw [h, List.append_nil], fun T => by rw [h]; rfl⟩

theorem Went.trans {s u v : Store Flaky} (h : Went s u) (h' : Went u v) : Went s v := by
  obtain ⟨R, hR, htape, hthrough⟩ := h
  obtain ⟨R', hR', htape', hthrough'⟩ := h'
  refine ⟨R ++ R', ?_, by rw [htape', htape, List.append_assoc], fun T => ?_⟩
  · rw [List.mem_append]
    exact fun h => h.elim hR hR'
  · rw [List.append_assoc, hthrough, hthrough', List.append_assoc]

theorem Went.ticked {s : Store Flaky} (hs : s.backend.sparing = false) (h : s.backend.fate false = none) :
    Went s (s.ticked false) :=
  ⟨[false], by decide, rfl, fun T => Flaky.through_goes hs h T⟩

theorem Stopped.later {s u t : Store Flaky} (h : Went s u) (ht : Stopped u t) : Stopped s t := by
  obtain ⟨R, hR, htape, hthrough⟩ := h
  obtain ⟨T, htape', hreads, hstop⟩ := ht
  refine ⟨R ++ T, by rw [htape', htape, List.append_assoc], ?_, ?_⟩
  · rw [hthrough, List.mem_append]
    exact fun h => h.elim hR hreads
  · unfold Flaky.failing
    rw [hthrough, List.length_append, List.getElem?_append_right (Nat.le_add_right _ _), Nat.add_sub_cancel_left]
    exact hstop

theorem Stopped.grown {s t u : Store Flaky} (h : Stopped s t) (hu : t.backend.tape <+: u.backend.tape) :
    Stopped s u := by
  obtain ⟨T, htape, hreads, hstop⟩ := h
  obtain ⟨more, hmore⟩ := hu
  have hlt : (Flaky.through s.backend.fates T).length < T.length := (List.getElem?_eq_some_iff.1 hstop).1
  refine ⟨T ++ more, by rw [← hmore, htape, List.append_assoc], ?_, ?_⟩
  · rw [Flaky.through_append hlt]
    exact hreads
  · unfold Flaky.failing
    rw [Flaky.through_append hlt, List.getElem?_append_left hlt]
    exact hstop

theorem Stopped.ticked {s t : Store Flaky} {e : String} (hs : s.backend.sparing = false)
    (h : s.backend.fate false = some e) (ht : t.backend.tape = s.backend.tape ++ [false]) : Stopped s t := by
  have hnone := Flaky.through_fails hs h []
  exact ⟨[false], ht, by rw [hnone]; exact List.not_mem_nil, by unfold Flaky.failing; rw [hnone]; rfl⟩

/-- The handle at a version against itself with every call going through. -/
def taped (v : UInt64) : Link (Store Flaky) (Store Flaky) where
  rel s t := (s.backend.sparing = false ∧ s.version = v) ∧ t = s.healthy
  kept s u := Kept s u ∧ Went s u
  grown t u := t.backend.tape <+: u.backend.tape
  cut s s' t := Kept s s' ∧ Stopped s t
  kept_refl s := ⟨Kept.refl s, Went.of_same rfl⟩
  kept_trans h h' := ⟨h.1.trans h'.1, h.2.trans h'.2⟩
  grown_refl _ := List.prefix_rfl
  grown_trans := List.IsPrefix.trans
  cut_later h hc := ⟨h.1.trans hc.1, hc.2.later h.2⟩
  cut_grown hc h := ⟨hc.1, hc.2.grown h⟩

theorem OneRead.taped {α : Type} {x : LedgerM Flaky α} {f : MemBackend → α} {wrap : String → Err}
    (h : OneRead x f wrap) (v : UInt64) : Mirrors (taped v) x x fun _ => True := by
  rintro s _ ⟨hs, rfl⟩
  refine ⟨.ok (f s.backend.mem), (s.ticked false).healthy, ?_, List.prefix_append _ _, fun _ _ => trivial, ?_⟩
  · rw [← healthy_ticked]
    exact h.goes s.healthy (Flaky.fate_nil rfl false)
  cases hfate : s.backend.fate false with
  | none => exact .inl ⟨_, h.goes s hfate, ⟨hs, rfl⟩, Kept.ticked s, Went.ticked hs.1 hfate⟩
  | some e =>
    exact .inr ⟨_, _, s.ticked false, h.fails s e hfate, ⟨Kept.ticked s, Stopped.ticked hs.1 hfate rfl⟩, hs, rfl⟩

theorem taped_linked (v : UInt64) : Linked C (taped v) where
  same := by
    rintro s _ ⟨-, rfl⟩
    exact ⟨rfl, rfl, rfl, rfl, rfl, rfl, rfl, rfl, rfl⟩
  get key := (oneRead_get key).taped v
  load nk h := by
    rintro s _ ⟨hs, rfl⟩
    cases hcase : s.cache.node nk with
    | some n =>
      exact ⟨_, _, loadNode_hit h (s := s.healthy) hcase, List.prefix_rfl, fun _ _ => trivial,
        .inl ⟨_, loadNode_hit h hcase, ⟨hs, rfl⟩, Kept.cached s nk, Went.of_same rfl⟩⟩
    | none =>
      have hfine := backendGet_goes { s.healthy with cache := (s.cache.get nk).2 } (nodeRecordKey nk)
        (Flaky.fate_nil rfl false)
      refine ⟨_, _, loadNode_miss h (s := s.healthy) hcase hfine, List.prefix_append _ _, fun _ _ => trivial, ?_⟩
      have hrel : ∀ c, (taped v).rel { s.ticked false with cache := c } { s.healthy.ticked false with cache := c } := by
        intro c
        rw [healthy_ticked]
        exact ⟨hs, rfl⟩
      cases hfate : s.backend.fate false with
      | none =>
        have hread := backendGet_goes { s with cache := (s.cache.get nk).2 } (nodeRecordKey nk) hfate
        exact .inl ⟨_, loadNode_miss h hcase hread, hrel _, Kept.fetched s nk h, Went.ticked hs.1 hfate⟩
      | some e =>
        have hread := backendGet_fails { s with cache := (s.cache.get nk).2 } (nodeRecordKey nk) hfate
        exact .inr ⟨_, _, _, loadNode_failed h hcase hread,
          ⟨(Kept.cached s nk).trans (Kept.ticked _), Stopped.ticked hs.1 hfate rfl⟩, hrel _⟩
  draw := by
    rintro s _ ⟨hs, rfl⟩
    exact ⟨.ok (s.entropy 0), _, rfl, List.prefix_rfl, fun _ _ => trivial,
      .inl ⟨_, rfl, ⟨hs, rfl⟩, Kept.drawn s _, Went.of_same rfl⟩⟩

/-! ## The write of a commit -/

/-- A checkpoint is sealed without a call of the backend. -/
theorem sealCheckpoint_quiet (root : Hash) (v : UInt64) (t : Store Flaky) :
    ∃ ckpt e, sealCheckpoint C root v t = .ok ckpt { t with entropy := e } ∧
      sealCheckpoint C root v t.plain = .ok ckpt { t.plain with entropy := e } ∧
      sealCheckpoint C root v t.healthy = .ok ckpt { t.healthy with entropy := e } := by
  obtain ⟨b, ck, cipher, mac, r, w, c, cache, pin, hist, want, head, entropy⟩ := t
  cases cipher with
  | none => exact ⟨_, entropy, rfl, rfl, rfl⟩
  | some sk => exact ⟨_, fun n => entropy (n + 1), rfl, rfl, rfl⟩

/-- **The tail of a commit** fails with no effect when its write does, or writes one batch and moves the handle as it
does over the records. -/
theorem commitAcc_flaky (acc : CommitAcc) (c : Option Child) (root : Hash) (t : Store Flaky) :
    (∃ msg e, ∃ t' : Store Flaky, t.backend.fate true = some msg ∧
      commitAcc C acc c root t = .error (errBackend msg) { t.ticked true with entropy := e } ∧
      commitAcc C acc c root t.healthy = .ok (root, acc.newVersion) t' ∧
      (t.backend.sparing = false → (taped acc.newVersion).rel t' t') ∧ t'.backend.tape = t.backend.tape ++ [true]) ∨
    ∃ ckpt t', t.backend.fate true = none ∧ commitAcc C acc c root t = .ok (root, acc.newVersion) t' ∧
      commitAcc C acc c root t.plain = .ok (root, acc.newVersion) t'.plain ∧
      commitAcc C acc c root t.healthy = .ok (root, acc.newVersion) t'.healthy ∧
      t'.backend = (t.backend.ticked true).written (commitBatch acc root ckpt) ∧ t'.root = root ∧
      t'.version = acc.newVersion ∧ t'.rootChild = c := by
  obtain ⟨ckpt, e, hseal, hseal', hseal''⟩ := sealCheckpoint_quiet (C := C) root acc.newVersion t
  have hfine := backendWriteBatch_goes { t.healthy with entropy := e } errBackend (commitBatch acc root ckpt)
    (Flaky.fate_nil rfl true)
  cases hfate : t.backend.fate true with
  | some msg =>
    have hwrite := backendWriteBatch_fails { t with entropy := e } errBackend (commitBatch acc root ckpt) hfate
    exact .inl ⟨msg, e, _, rfl, (run_bind_ok hseal).trans (run_bind_error hwrite),
      (run_bind_ok hseal'').trans (run_bind_ok hfine), fun hs => ⟨⟨hs, rfl⟩, rfl⟩, rfl⟩
  | none =>
    have hwrite := backendWriteBatch_goes { t with entropy := e } errBackend (commitBatch acc root ckpt) hfate
    refine .inr ⟨ckpt, _, rfl, (run_bind_ok hseal).trans (run_bind_ok hwrite), ?_, ?_, rfl, rfl, rfl, rfl⟩
    · exact run_bind_ok hseal'
    · exact (run_bind_ok hseal'').trans (run_bind_ok hfine)

/-! ## Runs that fail -/

/-- Related states hold handles that are linked as `taped` links them. -/
structure Taped {σ : Type} (M : Link σ σ) (led : σ → Store Flaky) : Prop where
  tape : ∀ {s t}, M.rel s t → (led t).backend.tape = (led s).backend.tape
  kept : ∀ {s u}, M.kept s u → Kept (led s) (led u) ∧ Went (led s) (led u)
  cut : ∀ {s s' t}, M.cut s s' t → Kept (led s) (led s') ∧ Stopped (led s) (led t)

/-- A run of `x` from `s` that fails has written nothing and kept the handle, or a write of it went through and it left a
state in `P`. Its calls are those of the run in which every call goes through. -/
def Tears {ε σ α : Type} (M : Link σ σ) (led : σ → Store Flaky) (P : σ → Prop) (x : EStateM ε σ α) (s : σ) : Prop :=
  ∀ t, M.rel s t → ∃ T, (led (x t).state).backend.tape = (led s).backend.tape ++ T ∧ ∀ e s', x s = .error e s' →
    (true ∉ Flaky.through (led s).backend.fates T ∧ Kept (led s) (led s')) ∨
      (true ∈ Flaky.through (led s).backend.fates T ∧ P s')

section
variable {ε σ α γ : Type} {M : Link σ σ} {led : σ → Store Flaky} {P : σ → Prop} {Q : α → Prop} {x : EStateM ε σ α}
  {f : α → EStateM ε σ γ} {s : σ} (hM : Taped M led)
include hM

theorem Tears.pure (a : α) : Tears M led P (Pure.pure a : EStateM ε σ α) s :=
  fun t h => ⟨[], (hM.tape h).trans (List.append_nil _).symm, fun e s' h => by cases h⟩

omit hM in
theorem Tears.ite {p : Prop} [Decidable p] {y : EStateM ε σ α} (hx : p → Tears M led P x s)
    (hy : ¬ p → Tears M led P y s) : Tears M led P (if p then x else y) s := by
  by_cases hp : p
  · rw [if_pos hp]
    exact hx hp
  · rw [if_neg hp]
    exact hy hp

omit hM in
theorem Tears.get_bind {f : σ → EStateM ε σ α} (hf : ∀ t, M.rel s t → f t = f s) (h : Tears M led P (f s) s) :
    Tears M led P (get >>= f) s := by
  intro t hst
  obtain ⟨T, htape, hfail⟩ := h t hst
  refine ⟨T, ?_, hfail⟩
  rw [run_get_bind, hf t hst]
  exact htape

/-- Reads before the rest. -/
theorem Tears.after (hx : Mirrors M x x Q) (hf : ∀ a u, Q a → Tears M led P (f a) u) : Tears M led P (x >>= f) s := by
  intro t hst
  obtain ⟨r, t₁, hy, -, hQ, hcase⟩ := hx s t hst
  cases r with
  | error e =>
    have hfine : ((x >>= f) t).state = t₁ := by rw [run_bind_error hy]; rfl
    rw [hfine]
    rcases hcase with ⟨s₁, hrun, hst₁, hk⟩ | ⟨e', s₁, u, hrun, hcut, -⟩
    · obtain ⟨hk, R, hR, htape, hthrough⟩ := hM.kept hk
      refine ⟨R, (hM.tape hst₁).trans htape, fun e' s' h => .inl ⟨?_, ?_⟩⟩
      · have hall := hthrough []
        rw [List.append_nil, Flaky.through_nil, List.append_nil] at hall
        rw [hall]
        exact hR
      · rw [run_bind_error hrun] at h
        cases h
        exact hk
    · obtain ⟨hk, T, htape, hreads, -⟩ := hM.cut hcut
      refine ⟨T, htape, fun e'' s' h => .inl ⟨hreads, ?_⟩⟩
      rw [run_bind_error hrun] at h
      cases h
      exact hk
  | ok a =>
    rw [run_bind_ok hy]
    rcases hcase with ⟨s₁, hrun, hst₁, hk⟩ | ⟨e', s₁, u, hrun, hcut, hu⟩
    · obtain ⟨hk, R, hR, htape, hthrough⟩ := hM.kept hk
      obtain ⟨T, htape', hfail⟩ := hf a s₁ (hQ a rfl) t₁ hst₁
      refine ⟨R ++ T, by rw [htape', htape, List.append_assoc], fun e s' h => ?_⟩
      rw [run_bind_ok hrun] at h
      rw [hthrough, List.mem_append]
      exact (hfail e s' h).imp (fun hc => ⟨fun hm => hm.elim hR hc.1, hk.trans hc.2⟩) fun hc => ⟨.inr hc.1, hc.2⟩
    · -- the run with every call going through goes on after the call that fails
      obtain ⟨hk, hstop⟩ := hM.cut hcut
      obtain ⟨T, htape, -⟩ := hf a u (hQ a rfl) t₁ hu
      obtain ⟨T', htape', hreads, -⟩ := hstop.grown (u := led (f a t₁).state) ⟨T, by rw [hM.tape hu]; exact htape.symm⟩
      refine ⟨T', htape', fun e s' h => .inl ⟨hreads, ?_⟩⟩
      rw [run_bind_error hrun] at h
      cases h
      exact hk

end

theorem taped_taped (v : UInt64) : Taped (taped v) id where
  tape := by
    rintro s _ ⟨-, rfl⟩
    rfl
  kept h := h
  cut h := h

section
variable {γ : Type} {P : Store Flaky → Prop} {s : Store Flaky} {v : UInt64}

/-- A write that fails keeps the handle. -/
theorem Kept.failed {e : String} (hs : s.backend.sparing = false) (h : s.backend.fate true = some e) (n : ℕ → Nonce) :
    Kept s { s.ticked true with entropy := n } := by
  refine ⟨s.cache, n, _, _, id, .inr ⟨hs, fun hnil => ?_⟩, rfl⟩
  rw [Flaky.fate_nil hnil] at h
  cases h

/-- A commit before the rest, which leaves a handle in `P` when it fails. -/
theorem Tears.commit {acc : CommitAcc} {c : Option Child} {root : Hash} {f : Hash × UInt64 → LedgerM Flaky γ}
    (hgrown : ∀ t : Store Flaky, t.backend.sparing = false →
      t.backend.tape <+: (f (root, acc.newVersion) t.healthy).state.backend.tape)
    (hP : ∀ t e t', t.backend.sparing = false → t.rootChild = c → t.version = acc.newVersion →
      f (root, acc.newVersion) t = .error e t' → P t') :
    Tears (taped v) id P (commitAcc C acc c root >>= f) s := by
  rintro _ ⟨⟨hs, -⟩, rfl⟩
  rcases commitAcc_flaky (C := C) acc c root s with
    ⟨msg, e, t', hfate, hrun, hfine, hrel, htape⟩ | ⟨ckpt, t', hfate, hrun, -, hfine, hback, -, hver, hchild⟩
  · obtain ⟨⟨hs', -⟩, heq⟩ := hrel hs
    obtain ⟨more, hmore⟩ := hgrown t' hs'
    rw [← heq] at hmore
    refine ⟨true :: more, ?_, fun e' s' h => .inl ?_⟩
    · show ((commitAcc C acc c root >>= f) s.healthy).state.backend.tape = _
      rw [run_bind_ok hfine, ← hmore, htape, List.append_assoc]
      rfl
    · rw [run_bind_error hrun] at h
      cases h
      refine ⟨?_, Kept.failed hs hfate e⟩
      show true ∉ Flaky.through s.backend.fates _
      rw [Flaky.through_fails hs hfate]
      exact List.not_mem_nil
  · have hs' : t'.backend.sparing = false := by rw [hback]; exact hs
    obtain ⟨more, hmore⟩ := hgrown t' hs'
    have htape : t'.backend.tape = s.backend.tape ++ [true] := by rw [hback]; rfl
    refine ⟨true :: more, ?_, fun e' s' h => .inr ⟨?_, ?_⟩⟩
    · show ((commitAcc C acc c root >>= f) s.healthy).state.backend.tape = _
      rw [run_bind_ok hfine, ← hmore, htape, List.append_assoc]
      rfl
    · show true ∈ Flaky.through s.backend.fates _
      rw [Flaky.through_goes hs hfate]
      exact List.mem_cons_self
    · rw [run_bind_ok hrun] at h
      exact hP t' e' s' hs' hchild hver h

end

end ImmutableLedger
