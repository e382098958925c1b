import Mathlib.Tactic.Common

/-!
# Computations with a state-independent outcome

Rules for programs over a state that may also fail, the state surviving a failure (`EStateM`).
`Yields I x r` says that `x`, started in any state satisfying `I`, has the outcome `r`, the same for
all of them, and leaves a state satisfying `I`: what `x` does to the state is hidden by `I`, and
what it returns does not depend on it.

`Returns I x Q` says less: from any state satisfying `I`, `x` returns a value satisfying `Q`, and leaves a
state satisfying `I`. `Ends I x P` speaks of errors too: the outcome, a value or an error, satisfies `P`.

`Reads x` says that `x` leaves the state as it is.

* `run_bind_ok`, `run_bind_error`: a bind runs its first part, then the rest.
* `Yields.bind`, `Returns.bind`, `Ends.bind`: outcomes compose.
-/

namespace EStateM

variable {ε σ α β : Type}

variable {x : EStateM ε σ α} {s s' : σ} {a : α} {f : α → EStateM ε σ β}

theorem run_bind_ok (h : x s = .ok a s') : (x >>= f) s = f a s' := by
  show EStateM.bind x f s = _
  simp only [EStateM.bind, h]

theorem run_bind_error {e : ε} (h : x s = .error e s') : (x >>= f) s = .error e s' := by
  show EStateM.bind x f s = _
  simp only [EStateM.bind, h]

/-- A bind returns when both its parts do. -/
theorem bind_eq_ok {b : β}
    (h : (x >>= f) s = .ok b s') : ∃ a s₁, x s = .ok a s₁ ∧ f a s₁ = .ok b s' := by
  cases hx : x s with
  | ok a s₁ => exact ⟨a, s₁, rfl, by rw [run_bind_ok hx] at h; exact h⟩
  | error e s₁ => rw [run_bind_error hx] at h; cases h

theorem run_get_bind (f : σ → EStateM ε σ β) (s : σ) : (get >>= f) s = f s s := rfl

/-- A program that returned passed its guard. -/
theorem guard_eq_ok {c : Prop} [Decidable c] {e : ε} {y : EStateM ε σ β} {b : β}
    (h : (if c then (MonadExcept.throw e : EStateM ε σ α) >>= f else y) s = .ok b s') : ¬ c ∧ y s = .ok b s' := by
  by_cases hc : c
  · rw [if_pos hc] at h
    cases h
  · rw [if_neg hc] at h
    exact ⟨hc, h⟩

/-- A program fails exactly when it does before its result is mapped. -/
theorem map_eq_error {f : α → β} {e : ε} :
    (x >>= fun a => Pure.pure (f a)) s = .error e s' ↔ x s = .error e s' := by
  cases hx : x s with
  | ok a s₁ =>
    rw [run_bind_ok hx]
    exact ⟨fun h => (by cases h), fun h => (by cases h)⟩
  | error e' s₁ =>
    rw [run_bind_error hx]
    constructor
    · intro h
      cases h
      rfl
    · intro h
      cases h
      rfl

/-- The outcome and the state of a finished run. -/
def outcome (r : Except ε α) (s : σ) : Result ε σ α :=
  match r with
  | .ok a => .ok a s
  | .error e => .error e s

/-- The outcome of a finished run. -/
def Result.val : Result ε σ α → Except ε α
  | .ok a _ => .ok a
  | .error e _ => .error e

/-- The state a run leaves. -/
def Result.state : Result ε σ α → σ
  | .ok _ s => s
  | .error _ s => s

@[simp] theorem val_outcome (r : Except ε α) (s : σ) : (outcome r s).val = r := by cases r <;> rfl

@[simp] theorem state_outcome (r : Except ε α) (s : σ) : (outcome r s).state = s := by cases r <;> rfl

theorem state_map (x : EStateM ε σ α) (f : α → β) (s : σ) : ((x >>= fun a => Pure.pure (f a)) s).state = (x s).state := by
  cases hx : x s with
  | ok a t => rw [run_bind_ok hx]; rfl
  | error e t => rw [run_bind_error hx]; rfl

/-- A run with a value ended in some state. -/
theorem exists_of_val {r : Result ε σ α} (h : r.val = .ok a) : ∃ s, r = .ok a s := by
  cases r with
  | ok b s => cases h; exact ⟨s, rfl⟩
  | error e s => cases h

/-- A run without a value failed in some state. -/
theorem exists_of_failed {r : Result ε σ α} (h : r.val.toOption = none) : ∃ e s, r = .error e s := by
  cases r with
  | ok b s => cases h
  | error e s => exact ⟨e, s, rfl⟩

/-- From every state in `I`, `x` has the outcome `r` and stays in `I`. -/
def Yields (I : σ → Prop) (x : EStateM ε σ α) (r : Except ε α) : Prop :=
  ∀ s, I s → ∃ s', I s' ∧ x s = outcome r s'

variable {I : σ → Prop}

theorem Yields.pure (a : α) : Yields I (Pure.pure a : EStateM ε σ α) (.ok a) := fun s hs => ⟨s, hs, rfl⟩

theorem Yields.throw (e : ε) : Yields I (MonadExcept.throw e : EStateM ε σ α) (.error e) :=
  fun s hs => ⟨s, hs, rfl⟩

theorem Yields.bind {r : Except ε β}
    (hx : Yields I x (.ok a)) (hf : Yields I (f a) r) : Yields I (x >>= f) r := by
  intro s hs
  obtain ⟨s₁, h₁, e₁⟩ := hx s hs
  obtain ⟨s₂, h₂, e₂⟩ := hf s₁ h₁
  exact ⟨s₂, h₂, by rw [run_bind_ok e₁, e₂]⟩

theorem Yields.bind_error {e : ε}
    (hx : Yields I x (.error e)) : Yields I (x >>= f) (.error e) := by
  intro s hs
  obtain ⟨s₁, h₁, e₁⟩ := hx s hs
  exact ⟨s₁, h₁, run_bind_error e₁⟩

variable {r : Except ε α}

/-- Outcomes compose as `Except` computations do. -/
theorem Yields.seq {g : α → Except ε β}
    (hx : Yields I x r) (hf : ∀ a, r = .ok a → Yields I (f a) (g a)) : Yields I (x >>= f) (r >>= g) := by
  cases r with
  | ok a => exact hx.bind (hf a rfl)
  | error e => exact hx.bind_error

/-- The outcome from a state in `I`. -/
theorem Yields.val (hx : Yields I x r) {s : σ} (hs : I s) : (x s).val = r := by
  obtain ⟨s', -, h⟩ := hx s hs
  rw [h, val_outcome]

theorem Yields.state (hx : Yields I x r) {s : σ} (hs : I s) : I (x s).state := by
  obtain ⟨s', hs', h⟩ := hx s hs
  rwa [h, state_outcome]

/-- From every state in `I`, `x` returns a value in `Q` and stays in `I`. -/
def Returns (I : σ → Prop) (x : EStateM ε σ α) (Q : α → Prop) : Prop :=
  ∀ s, I s → ∃ a s', x s = .ok a s' ∧ I s' ∧ Q a

theorem Returns.pure {Q : α → Prop} (h : Q a) : Returns I (Pure.pure a : EStateM ε σ α) Q :=
  fun s hs => ⟨a, s, rfl, hs, h⟩

theorem Returns.bind {P : α → Prop} {Q : β → Prop}
    (hx : Returns I x P) (hf : ∀ a, P a → Returns I (f a) Q) : Returns I (x >>= f) Q := by
  intro s hs
  obtain ⟨a, s₁, e₁, h₁, ha⟩ := hx s hs
  obtain ⟨b, s₂, e₂, h₂, hb⟩ := hf a ha s₁ h₁
  exact ⟨b, s₂, by rw [run_bind_ok e₁, e₂], h₂, hb⟩

/-- From every state in `I`, `x` ends with an outcome in `P` and stays in `I`. -/
def Ends (I : σ → Prop) (x : EStateM ε σ α) (P : Except ε α → Prop) : Prop :=
  ∀ s, I s → ∃ r s', x s = outcome r s' ∧ I s' ∧ P r

variable {P : Except ε α → Prop}

theorem Ends.pure (h : P (.ok a)) : Ends I (Pure.pure a : EStateM ε σ α) P :=
  fun s hs => ⟨.ok a, s, rfl, hs, h⟩

theorem Ends.throw {e : ε} (h : P (.error e)) : Ends I (MonadExcept.throw e : EStateM ε σ α) P :=
  fun s hs => ⟨.error e, s, rfl, hs, h⟩

theorem Ends.throw_bind {P : Except ε β → Prop} {e : ε} (h : P (.error e)) :
    Ends I ((MonadExcept.throw e : EStateM ε σ α) >>= f) P :=
  fun s hs => ⟨.error e, s, rfl, hs, h⟩

theorem Ends.bind {Q : Except ε β → Prop}
    (hx : Ends I x P) (herr : ∀ e, P (.error e) → Q (.error e)) (hf : ∀ a, P (.ok a) → Ends I (f a) Q) :
    Ends I (x >>= f) Q := by
  intro s hs
  obtain ⟨r, s₁, e₁, h₁, hr⟩ := hx s hs
  cases r with
  | error e => exact ⟨.error e, s₁, run_bind_error e₁, h₁, herr e hr⟩
  | ok a =>
    obtain ⟨r, s₂, e₂, h₂, hr₂⟩ := hf a hr s₁ h₁
    exact ⟨r, s₂, by rw [run_bind_ok e₁, e₂], h₂, hr₂⟩

theorem Ends.ite {c : Prop} [Decidable c] {x y : EStateM ε σ α} (hx : c → Ends I x P)
    (hy : ¬ c → Ends I y P) : Ends I (if c then x else y) P := by
  by_cases hc : c
  · rw [if_pos hc]
    exact hx hc
  · rw [if_neg hc]
    exact hy hc

theorem Ends.mono {P Q : Except ε α → Prop} (hx : Ends I x P) (h : ∀ r, P r → Q r) : Ends I x Q := by
  intro s hs
  obtain ⟨r, s', e, hs', hr⟩ := hx s hs
  exact ⟨r, s', e, hs', h r hr⟩

theorem Yields.ends (hx : Yields I x r) : Ends I x fun r' => r' = r := by
  intro s hs
  obtain ⟨s', hs', h⟩ := hx s hs
  exact ⟨r, s', h, hs', rfl⟩

/-! ## Programs that only read -/

/-- `x` leaves every state as it is. -/
def Reads (x : EStateM ε σ α) : Prop := ∀ s, (x s).state = s

theorem Reads.pure (a : α) : Reads (Pure.pure a : EStateM ε σ α) := fun _ => rfl

theorem Reads.throw (e : ε) : Reads (MonadExcept.throw e : EStateM ε σ α) := fun _ => rfl

theorem Reads.bind (hx : Reads x) (hf : ∀ a, Reads (f a)) : Reads (x >>= f) := by
  intro s
  have hs := hx s
  cases hr : x s with
  | ok a s₁ =>
    rw [hr] at hs
    obtain rfl : s₁ = s := hs
    rw [run_bind_ok hr]
    exact hf a s₁
  | error e s₁ =>
    rw [hr] at hs
    rw [run_bind_error hr]
    exact hs

theorem Reads.get_bind {f : σ → EStateM ε σ β} (hf : ∀ s, Reads (f s)) : Reads (get >>= f) := fun s => hf s s

theorem Reads.ite {c : Prop} [Decidable c] {x y : EStateM ε σ α} (hx : Reads x) (hy : Reads y) :
    Reads (if c then x else y) := by
  split
  · exact hx
  · exact hy

theorem Reads.of_ok (hx : Reads x) (h : x s = .ok a s') : s' = s := by
  have hs := hx s
  rw [h] at hs
  exact hs

theorem Reads.of_error (hx : Reads x) {e : ε} (h : x s = .error e s') : s' = s := by
  have hs := hx s
  rw [h] at hs
  exact hs

end EStateM

/-- A bind returns when both its parts do. -/
theorem Except.ok_of_bind {ε α β : Type} {x : Except ε α} {f : α → Except ε β} {b : β} (h : x >>= f = .ok b) :
    ∃ a, x = .ok a ∧ f a = .ok b := by
  cases x with
  | ok a => exact ⟨a, rfl, h⟩
  | error e => cases h
