import Mathlib.Data.Set.Function
import Mathlib.Tactic.Common

/-!
# Hash chains

A chain head is linked to the next by an entry: `link n h x` is the head after position `n`, from the head `h` and
the entry `x`. Nothing is assumed of `link`: the results say what holds when it has no collision on the
links at hand.

* `chain_succ`: one more link, at the end.
* `chain_inj`: chains of equal length that end in the same head start in the same head and have the same
  entries.
-/

namespace HashChain

universe u v

variable {H : Type u} {X : Type v} (link : ℕ → H → X → H)

/-- The head after `k` links from position `n` on, the entries given by position. -/
def chain (xs : ℕ → X) : ℕ → ℕ → H → H
  | 0, _, h => h
  | k + 1, n, h => chain xs k (n + 1) (link n h (xs n))

/-- The links a chain computes. -/
def links (xs : ℕ → X) : ℕ → ℕ → H → List (ℕ × H × X)
  | 0, _, _ => []
  | k + 1, n, h => (n, h, xs n) :: links xs k (n + 1) (link n h (xs n))

variable {link} {xs ys : ℕ → X}

/-- One more link, at the end. -/
theorem chain_succ (k n : ℕ) (h : H) :
    chain link xs (k + 1) n h = link (n + k) (chain link xs k n h) (xs (n + k)) := by
  induction k generalizing n h with
  | zero => rfl
  | succ k ih =>
    rw [chain, ih, chain, show n + 1 + k = n + (k + 1) by omega]

/-- Two stretches of a chain. -/
theorem chain_add (k j n : ℕ) (h : H) :
    chain link xs (k + j) n h = chain link xs j (n + k) (chain link xs k n h) := by
  induction k generalizing n h with
  | zero => simp [chain]
  | succ k ih => rw [show k + 1 + j = (k + j) + 1 by omega, chain, chain, ih, show n + 1 + k = n + (k + 1) by omega]

theorem chain_congr {k n : ℕ} (h : H) (hxy : ∀ i, n ≤ i → i < n + k → xs i = ys i) :
    chain link xs k n h = chain link ys k n h := by
  induction k generalizing n h with
  | zero => rfl
  | succ k ih =>
    rw [chain, chain, hxy n le_rfl (by omega)]
    exact ih _ fun i h1 h2 => hxy i (by omega) (by omega)

/-- The links of the second stretch are links of the chain. -/
theorem links_add (k j n : ℕ) (h : H) :
    links link xs (k + j) n h = links link xs k n h ++ links link xs j (n + k) (chain link xs k n h) := by
  induction k generalizing n h with
  | zero => simp [chain, links]
  | succ k ih =>
    rw [show k + 1 + j = (k + j) + 1 by omega, links, links, chain, ih, show n + 1 + k = n + (k + 1) by omega]
    rfl

/-- **A chain commits to its entries**: of two chains of equal length with the same last head, the first heads
and all entries agree, when the links computed do not collide. -/
theorem chain_inj {S : Set (ℕ × H × X)} (hinj : Set.InjOn (fun t : ℕ × H × X => link t.1 t.2.1 t.2.2) S) {k n : ℕ} {h g : H}
    (hx : ∀ t ∈ links link xs k n h, t ∈ S) (hy : ∀ t ∈ links link ys k n g, t ∈ S)
    (heq : chain link xs k n h = chain link ys k n g) : h = g ∧ ∀ i, n ≤ i → i < n + k → xs i = ys i := by
  induction k generalizing n h g with
  | zero => exact ⟨heq, fun i h1 h2 => absurd h2 (by omega)⟩
  | succ k ih =>
    obtain ⟨hlink, hrest⟩ := ih (fun t ht => hx t (List.mem_cons_of_mem _ ht))
      (fun t ht => hy t (List.mem_cons_of_mem _ ht)) heq
    -- the first links agree, so what they link does
    have hfirst := hinj (hx _ List.mem_cons_self) (hy _ List.mem_cons_self) hlink
    simp only [Prod.mk.injEq, true_and] at hfirst
    refine ⟨hfirst.1, fun i h1 h2 => ?_⟩
    rcases Nat.eq_or_lt_of_le h1 with rfl | hlt
    · exact hfirst.2
    · exact hrest i hlt (by omega)

end HashChain
