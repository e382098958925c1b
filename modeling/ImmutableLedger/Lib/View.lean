import Mathlib.Logic.Function.Basic
import Mathlib.Tactic.Common

/-!
# Views kept up to date

A map from keys to records, and a second keyspace that is derived from it: every record gives rise to entries, and an entry
belongs to one record only. When a record changes, the derived keyspace loses the entries of the old record and gets those
of the new one. What that does to the derived keyspace is said entry by entry, so that it can be used when the keyspace was
not right before.

* `View.Moves.at_touched`: an entry that the change touches is right afterwards, whatever it was before.
* `View.Moves.at_iff`: any other entry is right afterwards exactly when it was before.
* `View.Chain`: a list of changes. `Chain.keeps` says that what is right stays right, and `Chain.at_iff` that an entry is
  right at the end exactly when a change has touched it or it was right before.
-/

universe u

/-- The entries that records give rise to. -/
structure View (κ ρ ε ν : Type u) where
  entries : κ → ρ → ε → ν → Prop
  owner : ∀ {k k' : κ} {r r' : ρ} {e : ε} {v v' : ν}, entries k r e v → entries k' r' e v' → k = k'
  single : ∀ {k : κ} {r : ρ} {e : ε} {v v' : ν}, entries k r e v → entries k r e v' → v = v'

namespace View

variable {κ ρ ε ν : Type u} (V : View κ ρ ε ν) {M M' : κ → Option ρ} {D D' : ε → Option ν} {k : κ} {new : Option ρ} {e : ε}

/-- The entries of a map. -/
def Holds (M : κ → Option ρ) (e : ε) (v : ν) : Prop := ∃ k r, M k = some r ∧ V.entries k r e v

/-- The derived keyspace has for `e` what the map says. -/
def At (M : κ → Option ρ) (D : ε → Option ν) (e : ε) : Prop := ∀ v, D e = some v ↔ V.Holds M e v

/-- The entry belongs to the record. -/
def Owns (k : κ) (o : Option ρ) (e : ε) : Prop := ∃ r v, o = some r ∧ V.entries k r e v

/-- The entries of one key are brought from the record `old` to the record `new`. -/
structure Moves (k : κ) (old new : Option ρ) (D D' : ε → Option ν) : Prop where
  added : ∀ r, new = some r → ∀ e v, V.entries k r e v → D' e = some v
  removed : ∀ e, V.Owns k old e → ¬ V.Owns k new e → D' e = none
  other : ∀ e, ¬ V.Owns k old e → ¬ V.Owns k new e → D' e = D e

section
variable {V} [DecidableEq κ]

/-- **An entry the change touches is right afterwards.** -/
theorem Moves.at_touched (h : V.Moves k (M k) new D D') (he : V.Owns k (M k) e ∨ V.Owns k new e) :
    V.At (Function.update M k new) D' e := by
  intro v
  -- whoever has the entry afterwards is the key that changed
  have howner : ∀ {k' r'}, V.entries k' r' e v → k' = k := by
    intro k' r' hent
    rcases he with ⟨r, w, -, hr⟩ | ⟨r, w, -, hr⟩
    · exact V.owner hent hr
    · exact V.owner hent hr
  constructor
  · intro hv
    by_cases hnew : V.Owns k new e
    · obtain ⟨r, w, hr, hent⟩ := hnew
      have hw := h.added r hr e w hent
      obtain rfl : v = w := Option.some.inj (hv.symm.trans hw)
      exact ⟨k, r, by rw [Function.update_self, hr], hent⟩
    · have hold : V.Owns k (M k) e := he.resolve_right hnew
      rw [h.removed e hold hnew] at hv
      cases hv
  · rintro ⟨k', r', hget, hent⟩
    obtain rfl := howner hent
    rw [Function.update_self] at hget
    exact h.added r' hget e v hent

/-- **Any other entry is right afterwards exactly when it was before.** -/
theorem Moves.at_iff (h : V.Moves k (M k) new D D') (hold : ¬ V.Owns k (M k) e) (hnew : ¬ V.Owns k new e) :
    V.At (Function.update M k new) D' e ↔ V.At M D e := by
  have hholds : ∀ v, V.Holds (Function.update M k new) e v ↔ V.Holds M e v := by
    intro v
    constructor
    · rintro ⟨k', r, hget, hent⟩
      have hne : k' ≠ k := by
        rintro rfl
        rw [Function.update_self] at hget
        exact hnew ⟨r, v, hget, hent⟩
      rw [Function.update_of_ne hne] at hget
      exact ⟨k', r, hget, hent⟩
    · rintro ⟨k', r, hget, hent⟩
      have hne : k' ≠ k := by
        rintro rfl
        exact hold ⟨r, v, hget, hent⟩
      exact ⟨k', r, by rw [Function.update_of_ne hne, hget], hent⟩
  unfold At
  simp only [h.other e hold hnew, hholds]

variable (V)

/-- The changes of a list, one after the other. -/
inductive Chain : (κ → Option ρ) → (ε → Option ν) → List (κ × Option ρ) → (κ → Option ρ) → (ε → Option ν) → Prop
  | nil {M : κ → Option ρ} {D : ε → Option ν} : Chain M D [] M D
  | cons {M M' : κ → Option ρ} {D D₁ D' : ε → Option ν} {k : κ} {new : Option ρ} {cs : List (κ × Option ρ)}
      (h : V.Moves k (M k) new D D₁) (rest : Chain (Function.update M k new) D₁ cs M' D') : Chain M D ((k, new) :: cs) M' D'

/-- The entry belongs to a record that a change of the list replaces or writes. -/
def Touched : (κ → Option ρ) → List (κ × Option ρ) → ε → Prop
  | _, [], _ => False
  | M, (k, new) :: cs, e => V.Owns k (M k) e ∨ V.Owns k new e ∨ Touched (Function.update M k new) cs e

variable {V} {cs : List (κ × Option ρ)}

/-- One change after the other. -/
theorem Chain.append {M₁ : κ → Option ρ} {D₁ : ε → Option ν} {cs' : List (κ × Option ρ)} (h : V.Chain M D cs M₁ D₁)
    (h' : V.Chain M₁ D₁ cs' M' D') : V.Chain M D (cs ++ cs') M' D' := by
  induction h with
  | nil => exact h'
  | cons hmove _ ih => exact .cons hmove (ih h')

theorem Chain.touched_append {M₁ : κ → Option ρ} {D₁ : ε → Option ν} {cs' : List (κ × Option ρ)}
    (h : V.Chain M D cs M₁ D₁) : V.Touched M (cs ++ cs') e ↔ V.Touched M cs e ∨ V.Touched M₁ cs' e := by
  induction h with
  | nil => simp only [List.nil_append, Touched, false_or]
  | cons _ _ ih =>
    simp only [List.cons_append, Touched, ih, or_assoc]

/-- What is right stays right. -/
theorem Chain.keeps (h : V.Chain M D cs M' D') (he : V.At M D e) : V.At M' D' e := by
  induction h with
  | nil => exact he
  | @cons M M' D D₁ D' k new cs hmove rest ih =>
    apply ih
    by_cases hold : V.Owns k (M k) e
    · exact hmove.at_touched (.inl hold)
    · by_cases hnew : V.Owns k new e
      · exact hmove.at_touched (.inr hnew)
      · exact (hmove.at_iff hold hnew).2 he

theorem Chain.at_touched (h : V.Chain M D cs M' D') (he : V.Touched M cs e) : V.At M' D' e := by
  induction h with
  | nil => exact absurd he not_false
  | cons hmove rest ih =>
    rcases he with hold | hnew | he
    · exact rest.keeps (hmove.at_touched (.inl hold))
    · exact rest.keeps (hmove.at_touched (.inr hnew))
    · exact ih he

/-- **An entry at the end of a chain** is right exactly when it was touched or was right before. -/
theorem Chain.at_iff (h : V.Chain M D cs M' D') : V.At M' D' e ↔ V.Touched M cs e ∨ V.At M D e := by
  refine ⟨fun hat => ?_, fun he => he.elim h.at_touched h.keeps⟩
  by_contra hnot
  obtain ⟨htouch, hbefore⟩ := not_or.1 hnot
  clear hnot
  induction h with
  | nil => exact hbefore hat
  | cons hmove _ ih =>
    have huntouched := not_or.1 htouch
    obtain ⟨hnew, hrest⟩ := not_or.1 huntouched.2
    exact ih hat hrest fun hmid => hbefore ((hmove.at_iff huntouched.1 hnew).1 hmid)

end

end View
