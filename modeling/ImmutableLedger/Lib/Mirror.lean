import ImmutableLedger.Lib.Yields

/-!
# Programs in step

Two state types and a relation between their states. `Mirrors M x y Q` relates a program on the first to its counterpart
on the second: from related states `x` has the outcome of `y`, what they return satisfies `Q`, and they leave related
states; or `x` was interrupted for no reason of the program while `y` went on. The states may differ in whatever the
relation hides; the outcome does not show it.

* `Mirrors.bind`, `Mirrors.get_bind`: composition; a program may read its state.
* `Mirrors.runs`: where nothing can interrupt, the two runs have one outcome.
* `Agree`: two runs from given states.
-/

namespace EStateM

variable {ε σ τ α β : Type}

/-- How the states of two machines correspond. -/
structure Link (σ τ : Type) where
  rel : σ → τ → Prop
  /-- What a run that goes through may do to the first state. -/
  kept : σ → σ → Prop := fun _ _ => True
  /-- What a run may do to the second state. -/
  grown : τ → τ → Prop := fun _ _ => True
  /-- A run from the first state was interrupted in the second, where the counterpart comes to the third. -/
  cut : σ → σ → τ → Prop := fun _ _ _ => False
  kept_refl : ∀ s, kept s s := by exact fun _ => trivial
  kept_trans : ∀ {s u v}, kept s u → kept u v → kept s v := by exact fun _ _ => trivial
  grown_refl : ∀ t, grown t t := by exact fun _ => trivial
  grown_trans : ∀ {t u v}, grown t u → grown u v → grown t v := by exact fun _ _ => trivial
  cut_later : ∀ {s u s' t}, kept s u → cut u s' t → cut s s' t := by exact fun _ h => h
  cut_grown : ∀ {s s' t u}, cut s s' t → grown t u → cut s s' u := by exact fun h _ => h

/-- From related states `x` has the outcome of `y`, or was interrupted. -/
def Mirrors (M : Link σ τ) (x : EStateM ε σ α) (y : EStateM ε τ α) (Q : α → Prop) : Prop :=
  ∀ s t, M.rel s t → ∃ r t', y t = outcome r t' ∧ M.grown t t' ∧ (∀ a, r = .ok a → Q a) ∧
    ((∃ s', x s = outcome r s' ∧ M.rel s' t' ∧ M.kept s s') ∨
      ∃ e s' u, x s = .error e s' ∧ M.cut s s' t' ∧ M.rel u t')

variable {M : Link σ τ} {x : EStateM ε σ α} {y : EStateM ε τ α} {P Q : α → Prop}

theorem Mirrors.pure {a : α} (h : Q a) : Mirrors M (Pure.pure a : EStateM ε σ α) (Pure.pure a) Q := by
  intro s t hst
  refine ⟨.ok a, t, rfl, M.grown_refl t, fun b hb => ?_, .inl ⟨s, rfl, hst, M.kept_refl s⟩⟩
  cases hb
  exact h

theorem Mirrors.throw (e : ε) : Mirrors M (MonadExcept.throw e : EStateM ε σ α) (MonadExcept.throw e) Q :=
  fun s t hst => ⟨.error e, t, rfl, M.grown_refl t, fun _ h => (by cases h), .inl ⟨s, rfl, hst, M.kept_refl s⟩⟩

variable {f : α → EStateM ε σ β} {g : α → EStateM ε τ β}

theorem Mirrors.bind {Q : β → Prop} (hx : Mirrors M x y P)
    (hf : ∀ a, P a → Mirrors M (f a) (g a) Q) : Mirrors M (x >>= f) (y >>= g) Q := by
  intro s t hst
  obtain ⟨r, t₁, hy, hgrown, hP, hcase⟩ := hx s t hst
  cases r with
  | error e =>
    refine ⟨.error e, t₁, run_bind_error hy, hgrown, fun _ h => (by cases h), ?_⟩
    rcases hcase with ⟨s₁, hx, hst₁, hk⟩ | ⟨e', s₁, u, hx, hcut, hu⟩
    · exact .inl ⟨s₁, run_bind_error hx, hst₁, hk⟩
    · exact .inr ⟨e', s₁, u, run_bind_error hx, hcut, hu⟩
  | ok a =>
    rcases hcase with ⟨s₁, hx, hst₁, hk⟩ | ⟨e', s₁, u, hx, hcut, hu⟩
    · obtain ⟨r, t₂, hg, hgrown', hQ, hcase⟩ := hf a (hP a rfl) s₁ t₁ hst₁
      refine ⟨r, t₂, by rw [run_bind_ok hy, hg], M.grown_trans hgrown hgrown', hQ, ?_⟩
      rcases hcase with ⟨s₂, hx', hst₂, hk'⟩ | ⟨e, s₂, u, hx', hcut, hu⟩
      · exact .inl ⟨s₂, by rw [run_bind_ok hx, hx'], hst₂, M.kept_trans hk hk'⟩
      · exact .inr ⟨e, s₂, u, by rw [run_bind_ok hx, hx'], M.cut_later hk hcut, hu⟩
    · -- the counterpart goes on from a state that some other state is related to
      obtain ⟨r, t₂, hg, hgrown', hQ, hcase⟩ := hf a (hP a rfl) u t₁ hu
      refine ⟨r, t₂, by rw [run_bind_ok hy, hg], M.grown_trans hgrown hgrown', hQ, .inr ⟨e', s₁, ?_⟩⟩
      rcases hcase with ⟨u', -, hu', -⟩ | ⟨-, -, u', -, -, hu'⟩ <;>
        exact ⟨u', run_bind_error hx, M.cut_grown hcut hgrown', hu'⟩

theorem Mirrors.throw_bind {Q : β → Prop} {e : ε} :
    Mirrors M ((MonadExcept.throw e : EStateM ε σ α) >>= f) ((MonadExcept.throw e : EStateM ε τ α) >>= g) Q :=
  fun s t hst => ⟨.error e, t, rfl, M.grown_refl t, fun _ h => (by cases h), .inl ⟨s, rfl, hst, M.kept_refl s⟩⟩

/-- A test that related states share. -/
theorem Mirrors.ite {c : Prop} [Decidable c] {x' : EStateM ε σ α} {y' : EStateM ε τ α} (hx : c → Mirrors M x y Q)
    (hx' : ¬ c → Mirrors M x' y' Q) : Mirrors M (if c then x else x') (if c then y else y') Q := by
  by_cases hc : c
  · rw [if_pos hc, if_pos hc]
    exact hx hc
  · rw [if_neg hc, if_neg hc]
    exact hx' hc

theorem Mirrors.mono (hx : Mirrors M x y P) (h : ∀ a, P a → Q a) : Mirrors M x y Q := by
  intro s t hst
  obtain ⟨r, t', hy, hgrown, hP, hcase⟩ := hx s t hst
  exact ⟨r, t', hy, hgrown, fun a ha => h a (hP a ha), hcase⟩

/-- A program that reads its state goes on as its counterpart does with what it reads. -/
theorem Mirrors.get_bind {f : σ → EStateM ε σ α} {g : τ → EStateM ε τ α}
    (h : ∀ s t, M.rel s t → Mirrors M (f s) (g t) Q) : Mirrors M (get >>= f) (get >>= g) Q :=
  fun s t hst => h s t hst s t hst

/-- Where nothing can interrupt, the two runs have one outcome. -/
theorem Mirrors.runs (h : Mirrors M x y Q) {s : σ} {t : τ} (hst : M.rel s t) (hcut : ∀ s' t', ¬ M.cut s s' t') :
    ∃ r s' t', x s = outcome r s' ∧ y t = outcome r t' ∧ M.rel s' t' ∧ M.kept s s' ∧ ∀ a, r = .ok a → Q a := by
  obtain ⟨r, t', hy, -, hQ, ⟨s', hx, hst', hk⟩ | ⟨e, s', u, -, hc, -⟩⟩ := h s t hst
  · exact ⟨r, s', t', hx, hy, hst', hk, hQ⟩
  · exact absurd hc (hcut s' t')

/-- Where nothing can interrupt, a program returns what its counterpart returns. -/
theorem Mirrors.returns (h : Mirrors M x y Q) {s : σ} {t t' : τ} (hst : M.rel s t) (hcut : ∀ s' t', ¬ M.cut s s' t')
    {a : α} (hy : y t = .ok a t') : ∃ s', x s = .ok a s' ∧ M.rel s' t' ∧ M.kept s s' ∧ Q a := by
  obtain ⟨r, s', t₁, hx, hy', hst', hk, hQ⟩ := h.runs hst hcut
  rw [hy] at hy'
  cases r with
  | error e => cases hy'
  | ok b =>
    cases hy'
    exact ⟨s', hx, hst', hk, hQ a rfl⟩

/-- Where nothing can interrupt, what a program returned its counterpart returns. -/
theorem Mirrors.returned (h : Mirrors M x y Q) {s s' : σ} {t : τ} (hst : M.rel s t) (hcut : ∀ s' t', ¬ M.cut s s' t')
    {a : α} (hx : x s = .ok a s') : ∃ t', y t = .ok a t' ∧ M.rel s' t' ∧ M.kept s s' ∧ Q a := by
  obtain ⟨r, s₁, t', hx', hy, hst', hk, hQ⟩ := h.runs hst hcut
  rw [hx] at hx'
  cases r with
  | error e => cases hx'
  | ok b =>
    cases hx'
    exact ⟨t', hy, hst', hk, hQ a rfl⟩

/-- From `s` and `t` the programs have one outcome and leave states related by `R`. -/
def Agree (R : σ → τ → Prop) (x : EStateM ε σ α) (y : EStateM ε τ α) (s : σ) (t : τ) : Prop :=
  (x s).val = (y t).val ∧ R (x s).state (y t).state

section
variable {R : σ → τ → Prop} {s s' : σ} {t t' : τ} {r q : Except ε α}

theorem Agree.of_outcome (hx : x s = outcome r s') (hy : y t = outcome r t') (h : R s' t') : Agree R x y s t := by
  unfold Agree
  rw [hx, hy, val_outcome, val_outcome, state_outcome, state_outcome]
  exact ⟨rfl, h⟩

theorem Agree.outcomes (h : Agree R x y s t) (hx : x s = outcome r s') (hy : y t = outcome q t') : r = q ∧ R s' t' := by
  unfold Agree at h
  rw [hx, hy, val_outcome, val_outcome, state_outcome, state_outcome] at h
  exact h

theorem Agree.runs (h : Agree R x y s t) : ∃ r s' t', x s = outcome r s' ∧ y t = outcome r t' ∧ R s' t' := by
  obtain ⟨hval, hR⟩ := h
  have heta : ∀ {υ : Type} (r : Result ε υ α), r = outcome r.val r.state := fun r => by cases r <;> rfl
  exact ⟨(y t).val, (x s).state, (y t).state, by rw [← hval]; exact heta _, heta _, hR⟩

/-- Programs that agree from all related states. -/
theorem Mirrors.of_agree (h : ∀ s t, R s t → Agree R x y s t) : Mirrors { rel := R } x y fun _ => True := by
  intro s t hst
  obtain ⟨r, s', t', hx, hy, hst'⟩ := (h s t hst).runs
  exact ⟨r, t', hy, trivial, fun _ _ => trivial, .inl ⟨s', hx, hst', trivial⟩⟩

theorem val_map (x : EStateM ε σ α) (f : α → β) (s : σ) :
    ((x >>= fun a => Pure.pure (f a)) s).val = (x s).val.map f := by
  cases hx : x s with
  | ok a t => rw [run_bind_ok hx]; rfl
  | error e t => rw [run_bind_error hx]; rfl

theorem Agree.bind {R' : σ → τ → Prop} (h : Agree R x y s t)
    (herr : ∀ s' t', R s' t' → R' s' t') (hf : ∀ a s' t', R s' t' → Agree R' (f a) (g a) s' t') :
    Agree R' (x >>= f) (y >>= g) s t := by
  obtain ⟨r, s', t', hx, hy, hst⟩ := h.runs
  cases r with
  | error e => exact Agree.of_outcome (r := .error e) (run_bind_error hx) (run_bind_error hy) (herr s' t' hst)
  | ok a =>
    unfold Agree
    rw [run_bind_ok hx, run_bind_ok hy]
    exact hf a s' t' hst

theorem Agree.map (h : Agree R x y s t) (f : α → β) :
    Agree R (x >>= fun a => Pure.pure (f a)) (y >>= fun a => Pure.pure (f a)) s t :=
  h.bind (fun _ _ h => h) fun _ _ _ h => ⟨rfl, h⟩

end

end EStateM
