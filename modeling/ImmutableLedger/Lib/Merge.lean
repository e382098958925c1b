import Mathlib.Order.Lattice
import Mathlib.Tactic.Common

/-!
# Merging ascending lists

Two lists of entries, ascending by key. `merge hidden es adds` walks both: the entries of `adds` come with theirs, one
of `es` is left out when its key is hidden or among those of `adds`.

* `merge_cons_lt`, `merge_cons_eq`, `merge_cons_gt`, `merge_cons_nil`: one step.
* `mem_merge`, `asc_merge`: what is merged, in ascending order.
* `Asc.drop_eq_filter`: the rest of an ascending list is what lies above its first part.
-/

namespace SortedMerge

variable {K V : Type} [LinearOrder K]

/-- Ascending by key. -/
def Asc (l : List (K × V)) : Prop := l.Pairwise fun a b => a.1 < b.1

variable {l : List (K × V)}

theorem Asc.tail {a : K × V} (h : Asc (a :: l)) : Asc l := (List.pairwise_cons.1 h).2

theorem Asc.head_lt {a : K × V} (h : Asc (a :: l)) : ∀ b ∈ l, a.1 < b.1 := (List.pairwise_cons.1 h).1

theorem Asc.cons {a : K × V} {l : List (K × V)} (ha : ∀ b ∈ l, a.1 < b.1) (h : Asc l) : Asc (a :: l) :=
  List.pairwise_cons.2 ⟨ha, h⟩

theorem Asc.nodup_keys (h : Asc l) : (l.map Prod.fst).Nodup :=
  List.pairwise_map.2 (h.imp fun hab => hab.ne)

/-- The rest of an ascending list is what lies above the last entry of its first part. -/
theorem Asc.drop_eq_filter {xs ys : List (K × V)} {last : K × V} (h : Asc (xs ++ ys)) (hlast : xs.getLast? = some last) :
    ys = (xs ++ ys).filter fun e => decide (last.1 < e.1) := by
  obtain ⟨hxs, hys, hlt⟩ := List.pairwise_append.1 h
  obtain ⟨init, rfl⟩ := List.getLast?_eq_some_iff.1 hlast
  have hmem : last ∈ init ++ [last] := by simp
  have hlow : (init ++ [last]).filter (fun e => decide (last.1 < e.1)) = [] := by
    rw [List.filter_eq_nil_iff]
    intro e he
    rcases List.mem_append.1 he with he | he
    · have hle := (List.pairwise_append.1 hxs).2.2 e he last (by simp)
      simpa using hle.le
    · rw [List.mem_singleton.1 he]
      simp
  have hhigh : ys.filter (fun e => decide (last.1 < e.1)) = ys := by
    rw [List.filter_eq_self]
    intro e he
    simpa using hlt last hmem e he
  rw [List.filter_append, hlow, hhigh, List.nil_append]

/-! ## The merge -/

section
variable (hidden : K → Bool)

/-- The merge at the head `e` of the one list, given how it goes on after it. -/
def mergeHead (rest : List (K × V) → List (K × V)) (e : K × V) : List (K × V) → List (K × V)
  | [] => if hidden e.1 then rest [] else e :: rest []
  | a :: adds =>
    if a.1 < e.1 then a :: mergeHead rest e adds
    else if a.1 = e.1 then a :: rest adds
    else if hidden e.1 then rest (a :: adds) else e :: rest (a :: adds)

/-- The entries of `es` that are not hidden, and those of `adds` in front of or in place of them. -/
def merge : List (K × V) → List (K × V) → List (K × V)
  | [], adds => adds
  | e :: es, adds => mergeHead hidden (merge es) e adds

variable {hidden} {e a : K × V} {es adds : List (K × V)}

theorem merge_cons_nil : merge hidden (e :: es) [] =
    if hidden e.1 then merge hidden es [] else e :: merge hidden es [] := rfl

theorem merge_cons_lt (h : a.1 < e.1) :
    merge hidden (e :: es) (a :: adds) = a :: merge hidden (e :: es) adds := if_pos h

theorem merge_cons_eq (h : a.1 = e.1) : merge hidden (e :: es) (a :: adds) = a :: merge hidden es adds :=
  (if_neg h.not_lt).trans (if_pos h)

theorem merge_cons_gt (h : e.1 < a.1) : merge hidden (e :: es) (a :: adds) =
    if hidden e.1 then merge hidden es (a :: adds) else e :: merge hidden es (a :: adds) :=
  (if_neg h.asymm).trans (if_neg h.ne')

/-- **What is merged**: all of `adds`, and the entries of `es` whose key is neither hidden nor among theirs. -/
theorem mem_merge {x : K × V} (hes : Asc es) (hadds : Asc adds) : x ∈ merge hidden es adds ↔
    x ∈ adds ∨ x ∈ es ∧ hidden x.1 = false ∧ ∀ b ∈ adds, b.1 ≠ x.1 := by
  induction es generalizing adds with
  | nil => simp [merge]
  | cons e es ih =>
    induction adds with
    | nil =>
      rw [merge_cons_nil]
      cases hh : hidden e.1 with
      | true =>
        rw [if_pos rfl, ih hes.tail hadds]
        grind
      | false =>
        rw [if_neg Bool.false_ne_true, List.mem_cons, ih hes.tail hadds]
        grind
    | cons a adds ih' =>
      have hbelow := hes.head_lt
      have habove := hadds.head_lt
      rcases lt_trichotomy a.1 e.1 with hlt | heq | hgt
      · have hne : ∀ x ∈ e :: es, a.1 ≠ x.1 := by
          intro x hx
          rcases List.mem_cons.1 hx with rfl | hx
          · exact hlt.ne
          · exact (hlt.trans (hbelow x hx)).ne
        rw [merge_cons_lt hlt, List.mem_cons, ih' hadds.tail]
        grind
      · have hne : ∀ x ∈ es, a.1 ≠ x.1 := fun x hx => heq ▸ (hbelow x hx).ne
        rw [merge_cons_eq heq, List.mem_cons, ih hes.tail hadds.tail]
        grind
      · have hne : ∀ b ∈ a :: adds, b.1 ≠ e.1 := by
          intro b hb
          rcases List.mem_cons.1 hb with rfl | hb
          · exact hgt.ne'
          · exact (hgt.trans (habove b hb)).ne'
        rw [merge_cons_gt hgt]
        cases hh : hidden e.1 with
        | true =>
          rw [if_pos rfl, ih hes.tail hadds]
          grind
        | false =>
          rw [if_neg Bool.false_ne_true, List.mem_cons, ih hes.tail hadds]
          grind

/-- **The merge is ascending.** -/
theorem asc_merge (hes : Asc es) (hadds : Asc adds) : Asc (merge hidden es adds) := by
  induction es generalizing adds with
  | nil => exact hadds
  | cons e es ih =>
    -- an entry that is put in front is below all that follow it
    have hfront : ∀ {b : K × V} {es' adds' : List (K × V)}, Asc es' → Asc adds' → (∀ x ∈ es', b.1 < x.1) →
        (∀ x ∈ adds', b.1 < x.1) → ∀ x ∈ merge hidden es' adds', b.1 < x.1 := by
      intro b es' adds' hes' hadds' hb hb' x hx
      rcases (mem_merge hes' hadds').1 hx with hx | ⟨hx, -⟩
      · exact hb' x hx
      · exact hb x hx
    induction adds with
    | nil =>
      rw [merge_cons_nil]
      split
      · exact ih hes.tail hadds
      · exact (ih hes.tail hadds).cons (hfront hes.tail hadds hes.head_lt fun x hx => by cases hx)
    | cons a adds ih' =>
      rcases lt_trichotomy a.1 e.1 with hlt | heq | hgt
      · rw [merge_cons_lt hlt]
        refine (ih' hadds.tail).cons (hfront hes hadds.tail (fun x hx => ?_) hadds.head_lt)
        rcases List.mem_cons.1 hx with rfl | hx
        · exact hlt
        · exact hlt.trans (hes.head_lt x hx)
      · rw [merge_cons_eq heq]
        exact (ih hes.tail hadds.tail).cons
          (hfront hes.tail hadds.tail (fun x hx => heq ▸ hes.head_lt x hx) hadds.head_lt)
      · rw [merge_cons_gt hgt]
        split
        · exact ih hes.tail hadds
        · refine (ih hes.tail hadds).cons (hfront hes.tail hadds hes.head_lt fun x hx => ?_)
          rcases List.mem_cons.1 hx with rfl | hx
          · exact hgt
          · exact hgt.trans (hadds.head_lt x hx)

end

end SortedMerge
