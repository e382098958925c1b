import Mathlib.Order.Lattice
import Mathlib.Data.List.FinRange
import Mathlib.Data.List.Perm.Subperm
import Mathlib.Tactic.Common

/-!
# Ordered finite maps

A finite map as the list of its entries in strictly ascending key order. The
representation is canonical: two maps with the same lookups are equal (`OrdMap.ext`),
so map equality is decidable and the entry list is the sorted enumeration.

* `get_insert`, `get_erase`, `get_filter`, `get_mapVal`: lookups after each operation.
* `mem_entries`: the entries are exactly the successful lookups.
* `ext_get`: maps with equal lookups are equal.
-/

universe u v w

/-- A finite map, its entries in strictly ascending key order. -/
@[ext]
structure OrdMap (K : Type u) (V : Type v) [LinearOrder K] where
  entries : List (K × V)
  sorted : entries.Pairwise (fun a b => a.1 < b.1)

namespace OrdMap

variable {K : Type u} {V : Type v} {W : Type w} [LinearOrder K]

instance [DecidableEq V] : DecidableEq (OrdMap K V) := fun m m' =>
  decidable_of_iff (m.entries = m'.entries) OrdMap.ext_iff.symm

/-! ## Entry lists -/

/-- The first entry for `k`. -/
def lookup : List (K × V) → K → Option V
  | [], _ => none
  | (k', v) :: l, k => if k = k' then some v else lookup l k

/-- Sorted insertion, replacing the entry for `k`. -/
def insertE (k : K) (v : V) : List (K × V) → List (K × V)
  | [] => [(k, v)]
  | (k', v') :: l =>
    if k < k' then (k, v) :: (k', v') :: l
    else if k = k' then (k, v) :: l
    else (k', v') :: insertE k v l

variable {l : List (K × V)} {k : K}

theorem lookup_eq_none : lookup l k = none ↔ ∀ e ∈ l, e.1 ≠ k := by
  induction l with
  | nil => simp [lookup]
  | cons e l ih =>
    obtain ⟨k', v⟩ := e
    by_cases h : k = k'
    · simp [lookup, h]
    · simp [lookup, h, ih, Ne.symm h]

variable {v : V}

theorem mem_of_lookup (h : lookup l k = some v) : (k, v) ∈ l := by
  induction l with
  | nil => simp [lookup] at h
  | cons e l ih =>
    obtain ⟨k', v'⟩ := e
    by_cases hk : k = k'
    · simp [lookup, hk] at h; simp [hk, h]
    · simp [lookup, hk] at h; exact List.mem_cons_of_mem _ (ih h)

theorem lookup_of_mem (hs : l.Pairwise (fun a b => a.1 < b.1)) (h : (k, v) ∈ l) : lookup l k = some v := by
  induction l with
  | nil => simp at h
  | cons e l ih =>
    obtain ⟨k', v'⟩ := e
    rw [List.pairwise_cons] at hs
    rcases List.mem_cons.1 h with h | h
    · cases h; simp [lookup]
    · have : k' < k := hs.1 _ h
      simp [lookup, this.ne', ih hs.2 h]

theorem lookup_insertE (k : K) (v : V) (l : List (K × V)) (k' : K) :
    lookup (insertE k v l) k' = if k' = k then some v else lookup l k' := by
  induction l with
  | nil => simp [insertE, lookup]
  | cons e l ih =>
    obtain ⟨a, b⟩ := e
    by_cases h1 : k < a
    · simp [insertE, lookup, h1]
    · by_cases h2 : k = a
      · subst h2
        by_cases h3 : k' = k <;> simp [insertE, lookup, h3]
      · by_cases h3 : k' = a
        · subst h3; simp [insertE, lookup, h1, h2, Ne.symm h2]
        · simp [insertE, lookup, h1, h2, h3, ih]

theorem mem_insertE {e : K × V} (h : e ∈ insertE k v l) : e = (k, v) ∨ e ∈ l := by
  induction l with
  | nil => simpa [insertE] using h
  | cons a l ih =>
    obtain ⟨k', v'⟩ := a
    unfold insertE at h
    split_ifs at h
    · simpa using h
    · rcases List.mem_cons.1 h with h | h
      · exact .inl h
      · exact .inr (List.mem_cons_of_mem _ h)
    · rcases List.mem_cons.1 h with h | h
      · exact .inr (h ▸ List.mem_cons_self)
      · exact (ih h).imp_right (List.mem_cons_of_mem _)

theorem insertE_sorted (k : K) (v : V)
    (hs : l.Pairwise (fun a b => a.1 < b.1)) : (insertE k v l).Pairwise (fun a b => a.1 < b.1) := by
  induction l with
  | nil => simp [insertE]
  | cons e l ih =>
    obtain ⟨k', v'⟩ := e
    have hs' := List.pairwise_cons.1 hs
    unfold insertE
    split_ifs with h1 h2
    · refine List.pairwise_cons.2 ⟨fun a ha => ?_, hs⟩
      rcases List.mem_cons.1 ha with ha | ha
      · rw [ha]; exact h1
      · exact h1.trans (hs'.1 a ha)
    · subst h2; exact List.pairwise_cons.2 ⟨hs'.1, hs'.2⟩
    · refine List.pairwise_cons.2 ⟨fun a ha => ?_, ih hs'.2⟩
      rcases mem_insertE ha with ha | ha
      · rw [ha]; exact lt_of_le_of_ne (not_lt.1 h1) (Ne.symm h2)
      · exact hs'.1 a ha

/-- Sorted lists with the same lookups are equal. -/
theorem eq_of_lookup : ∀ {l l' : List (K × V)}, l.Pairwise (fun a b => a.1 < b.1) →
    l'.Pairwise (fun a b => a.1 < b.1) → (∀ k, lookup l k = lookup l' k) → l = l' := by
  intro l
  induction l with
  | nil =>
    intro l' _ _ h
    cases l' with
    | nil => rfl
    | cons e l' => have := h e.1; simp [lookup] at this
  | cons e l ih =>
    intro l' hs hs' h
    obtain ⟨k, v⟩ := e
    cases l' with
    | nil => have := h k; simp [lookup] at this
    | cons e' l' =>
      obtain ⟨k', v'⟩ := e'
      have h1 := List.pairwise_cons.1 hs
      have h2 := List.pairwise_cons.1 hs'
      -- the smallest keys agree: each is bound on the other side
      have hk : k = k' := by
        rcases lt_trichotomy k k' with hlt | heq | hgt
        · have := h k
          rw [show lookup ((k', v') :: l') k = none from lookup_eq_none.2 (by
            intro a ha
            rcases List.mem_cons.1 ha with ha | ha
            · rw [ha]; exact hlt.ne'
            · exact (hlt.trans (h2.1 a ha)).ne')] at this
          simp [lookup] at this
        · exact heq
        · have := h k'
          rw [show lookup ((k, v) :: l) k' = none from lookup_eq_none.2 (by
            intro a ha
            rcases List.mem_cons.1 ha with ha | ha
            · rw [ha]; exact hgt.ne'
            · exact (hgt.trans (h1.1 a ha)).ne')] at this
          simp [lookup] at this
      subst hk
      have hv : v = v' := by have := h k; simpa [lookup] using this
      subst hv
      rw [ih h1.2 h2.2 fun q => ?_]
      by_cases hq : q = k
      · subst hq
        rw [lookup_eq_none.2 fun a ha => (h1.1 a ha).ne', lookup_eq_none.2 fun a ha => (h2.1 a ha).ne']
      · have := h q; simpa [lookup, hq] using this

/-- Sorted lists with the same entries are equal. -/
theorem eq_of_mem_iff {l l' : List (K × V)} (hs : l.Pairwise fun a b => a.1 < b.1)
    (hs' : l'.Pairwise fun a b => a.1 < b.1) (h : ∀ e, e ∈ l ↔ e ∈ l') : l = l' := by
  have hnodup : ∀ {l : List (K × V)}, l.Pairwise (fun a b => a.1 < b.1) → l.Nodup := fun hs =>
    hs.imp fun hlt he => hlt.ne (congrArg Prod.fst he)
  refine List.Perm.eq_of_pairwise (fun a b _ _ hab hba => absurd hab hba.asymm) hs hs' ?_
  exact (List.perm_ext_iff_of_nodup (hnodup hs) (hnodup hs')).2 h

/-! ## Maps -/

/-- The empty map. -/
def empty : OrdMap K V := ⟨[], List.Pairwise.nil⟩

/-- The value at `k`. -/
def get (m : OrdMap K V) (k : K) : Option V := lookup m.entries k

/-- Bind `k` to `v`, replacing an earlier binding. -/
def insert (m : OrdMap K V) (k : K) (v : V) : OrdMap K V :=
  ⟨insertE k v m.entries, insertE_sorted k v m.sorted⟩

/-- Keep the entries satisfying `p`. -/
def filter (m : OrdMap K V) (p : K × V → Bool) : OrdMap K V :=
  ⟨m.entries.filter p, m.sorted.filter p⟩

/-- Remove the binding of `k`. -/
def erase (m : OrdMap K V) (k : K) : OrdMap K V := m.filter (fun e => decide (e.1 ≠ k))

/-- Replace every value by a function of its entry. -/
def mapVal (m : OrdMap K V) (f : K → V → W) : OrdMap K W :=
  ⟨m.entries.map (fun e => (e.1, f e.1 e.2)), by
    rw [List.pairwise_map]; exact m.sorted⟩

/-- The number of bindings. -/
def size (m : OrdMap K V) : ℕ := m.entries.length

@[simp] theorem get_empty (k : K) : (empty : OrdMap K V).get k = none := rfl

@[simp] theorem get_insert (m : OrdMap K V) (k : K) (v : V) (k' : K) :
    (m.insert k v).get k' = if k' = k then some v else m.get k' := lookup_insertE k v m.entries k'

variable {m : OrdMap K V}

theorem mem_entries : (k, v) ∈ m.entries ↔ m.get k = some v :=
  ⟨lookup_of_mem m.sorted, mem_of_lookup⟩

theorem get_eq_none : m.get k = none ↔ ∀ e ∈ m.entries, e.1 ≠ k :=
  lookup_eq_none

/-- **Maps with the same lookups are equal.** -/
theorem ext_get {m m' : OrdMap K V} (h : ∀ k, m.get k = m'.get k) : m = m' :=
  OrdMap.ext (eq_of_lookup m.sorted m'.sorted h)

theorem get_filter (m : OrdMap K V) (p : K × V → Bool) (k : K) :
    (m.filter p).get k = (m.get k).filter (fun v => p (k, v)) := by
  cases h : m.get k with
  | none =>
    rw [get_eq_none] at h
    simp only [Option.filter_none]
    exact get_eq_none.2 fun e he => h e (List.mem_filter.1 he).1
  | some v =>
    have hm := mem_entries.2 h
    by_cases hp : p (k, v) = true
    · simp only [Option.filter_some, hp, if_true]
      exact mem_entries.1 (List.mem_filter.2 ⟨hm, hp⟩)
    · simp only [Option.filter_some, hp, if_false, Bool.false_eq_true]
      refine get_eq_none.2 fun e he hek => hp ?_
      obtain ⟨he1, he2⟩ := List.mem_filter.1 he
      obtain ⟨a, b⟩ := e
      simp only at hek
      subst hek
      have := mem_entries.1 he1
      rw [h] at this
      cases this; exact he2

@[simp] theorem get_erase (m : OrdMap K V) (k k' : K) :
    (m.erase k).get k' = if k' = k then none else m.get k' := by
  unfold erase
  rw [get_filter]
  by_cases h : k' = k
  · subst h; cases m.get k' <;> simp
  · cases m.get k' <;> simp [h]

@[simp] theorem get_mapVal (m : OrdMap K V) (f : K → V → W) (k : K) :
    (m.mapVal f).get k = (m.get k).map (f k) := by
  cases h : m.get k with
  | none =>
    rw [get_eq_none] at h
    refine get_eq_none.2 fun e he => ?_
    obtain ⟨a, ha, rfl⟩ := List.mem_map.1 he
    exact h a ha
  | some v => exact mem_entries.1 (List.mem_map.2 ⟨(k, v), mem_entries.2 h, rfl⟩)

/-- A map with one binding has size one. -/
theorem size_eq_one (h : m.get k = some v) (huniq : ∀ k' v', m.get k' = some v' → k' = k) : m.size = 1 := by
  have hm : m = empty.insert k v := by
    refine ext_get fun k' => ?_
    rw [get_insert]
    split
    · rename_i hk; rw [hk, h]
    · rename_i hk
      cases hg : m.get k' with
      | none => rfl
      | some v' => exact absurd (huniq k' v' hg) hk
  rw [hm]; rfl

theorem length_insertE_le (k : K) (v : V) (l : List (K × V)) : (insertE k v l).length ≤ l.length + 1 := by
  induction l with
  | nil => exact le_rfl
  | cons e l ih =>
    unfold insertE
    split
    · exact le_rfl
    · split
      · exact Nat.le_succ _
      · exact Nat.succ_le_succ ih

theorem size_insert_le (m : OrdMap K V) (k : K) (v : V) : (m.insert k v).size ≤ m.size + 1 :=
  length_insertE_le k v m.entries

/-- A map with some of the bindings of another is no larger. -/
theorem size_le {m m' : OrdMap K V} (h : ∀ k v, m'.get k = some v → m.get k = some v) : m'.size ≤ m.size := by
  have hnodup : m'.entries.Nodup := m'.sorted.imp fun {a b} hab he => hab.ne (congrArg Prod.fst he)
  exact (List.subperm_of_subset hnodup fun e he => mem_entries.2 (h e.1 e.2 (mem_entries.1 he))).length_le

/-- A map with some but not all of the bindings of another is smaller. -/
theorem size_lt {m m' : OrdMap K V} (h : ∀ k v, m'.get k = some v → m.get k = some v)
    (hk : m.get k = some v) (hk' : m'.get k = none) : m'.size < m.size := by
  have hle : m'.size ≤ (m.erase k).size := size_le fun k₁ v₁ h₁ => by
    have hne : k₁ ≠ k := by rintro rfl; rw [hk'] at h₁; cases h₁
    rw [get_erase, if_neg hne]; exact h k₁ v₁ h₁
  refine lt_of_le_of_lt hle (List.length_filter_lt_length_iff_exists.2 ⟨(k, v), mem_entries.2 hk, ?_⟩)
  simp

theorem nodup_keys (m : OrdMap K V) : (m.entries.map Prod.fst).Nodup := by
  rw [List.Nodup, List.pairwise_map]
  exact m.sorted.imp fun h => h.ne

/-- A map is no smaller than the number of distinct keys it binds. -/
theorem le_size_of_injective {n : ℕ} (f : Fin n → K) (hf : Function.Injective f)
    (h : ∀ i, (m.get (f i)).isSome) : n ≤ m.size := by
  have hsub : List.ofFn f ⊆ m.entries.map Prod.fst := by
    intro k hk
    obtain ⟨i, rfl⟩ := List.mem_ofFn.1 hk
    obtain ⟨v, hv⟩ := Option.isSome_iff_exists.1 (h i)
    exact List.mem_map.2 ⟨(f i, v), mem_entries.2 hv, rfl⟩
  have hle := (List.subperm_of_subset (List.nodup_ofFn.2 hf) hsub).length_le
  rwa [List.length_ofFn, List.length_map] at hle

end OrdMap
