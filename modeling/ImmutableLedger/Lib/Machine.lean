import Mathlib.Tactic.Common

/-!
# Machines driven by calls

A machine replies to a call and moves to its next state. `run` is a whole run, `trace` the states it
passes through, and `Along P` says that `P` holds of the state and the call at every step.

* `invariant`: what every step keeps, a run keeps.
* `simulation`: a machine that answers every call as an abstract one does, from related states to related
  states, answers every run as the abstract one does.
-/

namespace Machine

universe u v w x

variable {σ : Type u} {τ : Type v} {κ : Type w} {ρ : Type x}

/-- The replies of a run, and the state it ends in. -/
def run (step : σ → κ → ρ × σ) : σ → List κ → List ρ × σ
  | s, [] => ([], s)
  | s, c :: cs => ((step s c).1 :: (run step (step s c).2 cs).1, (run step (step s c).2 cs).2)

/-- The states of a run, the first and the last included. -/
def trace (step : σ → κ → ρ × σ) : σ → List κ → List σ
  | s, [] => [s]
  | s, c :: cs => s :: trace step (step s c).2 cs

/-- `P` holds at every step of a run, of the state before it and the call. -/
def Along (step : σ → κ → ρ × σ) (P : σ → κ → Prop) : σ → List κ → Prop
  | _, [] => True
  | s, c :: cs => P s c ∧ Along step P (step s c).2 cs

variable {step : σ → κ → ρ × σ} {P : σ → κ → Prop}

instance decidableAlong [∀ s c, Decidable (P s c)] : ∀ (s : σ) (cs : List κ), Decidable (Along step P s cs)
  | _, [] => inferInstanceAs (Decidable True)
  | s, c :: cs => @instDecidableAnd _ _ _ (decidableAlong (step s c).2 cs)

theorem self_mem_trace (s : σ) (cs : List κ) : s ∈ trace step s cs := by cases cs <;> simp [trace]

theorem last_mem_trace (s : σ) (cs : List κ) : (run step s cs).2 ∈ trace step s cs := by
  induction cs generalizing s with
  | nil => simp [run, trace]
  | cons c cs ih => exact List.mem_cons_of_mem _ (ih _)

/-- The states of the first part of a run are states of the run. -/
theorem mem_trace_append {s t : σ} {cs ds : List κ} (h : t ∈ trace step s cs) : t ∈ trace step s (cs ++ ds) := by
  induction cs generalizing s with
  | nil =>
    obtain rfl := List.mem_singleton.1 h
    exact self_mem_trace _ _
  | cons c cs ih =>
    rcases List.mem_cons.1 h with rfl | h
    · exact List.mem_cons_self
    · exact List.mem_cons_of_mem _ (ih h)

/-- A state of a run is one of its first part, or of the rest. -/
theorem trace_append {s t : σ} {cs ds : List κ} (h : t ∈ trace step s (cs ++ ds)) :
    t ∈ trace step s cs ∨ t ∈ trace step (run step s cs).2 ds := by
  induction cs generalizing s with
  | nil => exact .inr h
  | cons c cs ih =>
    rcases List.mem_cons.1 h with rfl | h
    · exact .inl List.mem_cons_self
    · rcases ih h with h | h
      · exact .inl (List.mem_cons_of_mem _ h)
      · exact .inr h

theorem run_append (s : σ) (cs ds : List κ) :
    run step s (cs ++ ds) =
      ((run step s cs).1 ++ (run step (run step s cs).2 ds).1, (run step (run step s cs).2 ds).2) := by
  induction cs generalizing s with
  | nil => rfl
  | cons c cs ih => simp [run, ih]

theorem length_run (s : σ) (cs : List κ) : (run step s cs).1.length = cs.length := by
  induction cs generalizing s with
  | nil => rfl
  | cons c cs ih => exact congrArg (· + 1) (ih _)

variable {s : σ}

/-- Two runs with the same replies have the same replies in their first part, and in the rest. -/
theorem run_split {step' : τ → κ → ρ × τ} {t : τ} {cs ds : List κ}
    (h : (run step s (cs ++ ds)).1 = (run step' t (cs ++ ds)).1) : (run step s cs).1 = (run step' t cs).1 ∧
      (run step (run step s cs).2 ds).1 = (run step' (run step' t cs).2 ds).1 := by
  rw [run_append, run_append] at h
  exact List.append_inj h ((length_run s cs).trans (length_run t cs).symm)

variable {cs : List κ}

/-- A reply of a run is the reply to one of its calls. -/
theorem mem_replies {r : ρ} (h : r ∈ (run step s cs).1) : ∃ s' c, c ∈ cs ∧ r = (step s' c).1 := by
  induction cs generalizing s with
  | nil => cases h
  | cons c cs ih =>
    rcases List.mem_cons.1 h with rfl | h
    · exact ⟨s, c, List.mem_cons_self, rfl⟩
    · obtain ⟨s', c', hc, hr⟩ := ih h
      exact ⟨s', c', List.mem_cons_of_mem _ hc, hr⟩

theorem Along.mono {Q : σ → κ → Prop} (h : Along step P s cs)
    (hPQ : ∀ s c, c ∈ cs → P s c → Q s c) : Along step Q s cs := by
  induction cs generalizing s with
  | nil => trivial
  | cons c cs ih =>
    exact ⟨hPQ s c List.mem_cons_self h.1, ih h.2 fun s c hc => hPQ s c (List.mem_cons_of_mem _ hc)⟩

theorem Along.and {Q : σ → κ → Prop} (h : Along step P s cs) (h' : Along step Q s cs) :
    Along step (fun s c => P s c ∧ Q s c) s cs := by
  induction cs generalizing s with
  | nil => trivial
  | cons c cs ih => exact ⟨⟨h.1, h'.1⟩, ih h.2 h'.2⟩

/-- A run in two parts. -/
theorem along_append {cs ds : List κ} :
    Along step P s (cs ++ ds) ↔ Along step P s cs ∧ Along step P (run step s cs).2 ds := by
  induction cs generalizing s with
  | nil => exact ⟨fun h => ⟨trivial, h⟩, fun h => h.2⟩
  | cons c cs ih =>
    constructor
    · rintro ⟨hc, h⟩
      exact ⟨⟨hc, (ih.1 h).1⟩, (ih.1 h).2⟩
    · rintro ⟨⟨hc, h⟩, h'⟩
      exact ⟨hc, ih.2 ⟨h, h'⟩⟩

/-- What holds of every state of a run holds before and after each of its steps. -/
theorem along_of_trace {Q : σ → Prop} (h : ∀ s' ∈ trace step s cs, Q s') :
    Along step (fun s c => Q s ∧ Q (step s c).2) s cs := by
  induction cs generalizing s with
  | nil => trivial
  | cons c cs ih =>
    have htail : ∀ s' ∈ trace step (step s c).2 cs, Q s' := fun s' hs => h s' (List.mem_cons_of_mem _ hs)
    exact ⟨⟨h s List.mem_cons_self, htail _ (self_mem_trace _ cs)⟩, ih htail⟩

/-- **What every step keeps, a run keeps.** -/
theorem invariant {I : σ → Prop} (hstep : ∀ s c, I s → P s c → I (step s c).2) (hs : I s)
    (h : Along step P s cs) : I (run step s cs).2 := by
  induction cs generalizing s with
  | nil => exact hs
  | cons c cs ih => exact ih (hstep s c hs h.1) h.2

theorem along_true (s : σ) (cs : List κ) : Along step (fun _ _ => True) s cs := by
  induction cs generalizing s with
  | nil => trivial
  | cons c cs ih => exact ⟨trivial, ih _⟩

/-- **Simulation**: equal replies from related states to related states, step by step, give equal replies
along a run and related states at its end. -/
theorem simulation {step' : τ → κ → ρ × τ} {R : σ → τ → Prop} {P : σ → κ → Prop} {Q : τ → κ → Prop}
    (hstep : ∀ s t c, R s t → P s c → Q t c → (step s c).1 = (step' t c).1 ∧ R (step s c).2 (step' t c).2)
    {t : τ} (hst : R s t) (h : Along step P s cs) (h' : Along step' Q t cs) :
    (run step s cs).1 = (run step' t cs).1 ∧ R (run step s cs).2 (run step' t cs).2 := by
  induction cs generalizing s t with
  | nil => exact ⟨rfl, hst⟩
  | cons c cs ih =>
    obtain ⟨h1, h2⟩ := hstep s t c hst h.1 h'.1
    obtain ⟨h3, h4⟩ := ih h2 h.2 h'.2
    exact ⟨by simp only [run, h1, h3], h4⟩

end Machine
