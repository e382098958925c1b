import Mathlib.Data.Set.Function
import Mathlib.Data.List.Basic
import Mathlib.Tactic.Common

/-!
# Collapsed sparse Merkle maps

A finite set of entries `(path, value)` is digested along the bits of its paths: no entry
gives the empty digest, a single entry the digest of a leaf wherever it sits, anything
else the digest of the two halves split by the next bit. `digest n k L` digests the
entries `L`, which agree below bit `k` and are told apart by the `n` bits from there
(`Sep`).

The digest function is a parameter `h` on `Input`, and nothing is assumed of it: the results
say what holds when `h` has no collision on an explicit set of inputs, those hashed in the
computations at hand (`inputs`, `climbInputs`).

* `digest_eq_empty`, `digest_eq_leaf`, `digest_eq_node`: inversion of a digest.
* `digest_binding`: equal digests, equal entries.
* `climb_sound`: a terminal that climbs to the digest of `L` along a path, with any
  siblings, is what the entries under the path's prefix reduce to.
* `climb_descent`, `descent_of_mem`: an honest descent climbs back, and ends in the entry of its path.
* `Position.down`: a node with the digest of a position leads to the position one bit down.
-/

universe u v w

namespace SparseMerkle

/-- What a digest is computed from. -/
inductive Input (P : Type u) (V : Type v) (D : Type w) where
  | empty
  | leaf (p : P) (v : V)
  | node (l r : D)
deriving DecidableEq

variable {P : Type u} {V : Type v} {D : Type w}

/-- Two different inputs of `S` with one digest. -/
def Collides (h : Input P V D → D) (S : Set (Input P V D)) : Prop :=
  ∃ x ∈ S, ∃ y ∈ S, x ≠ y ∧ h x = h y

variable {S : Set (Input P V D)}

theorem injOn_of_not_collides {h : Input P V D → D} (hS : ¬ Collides h S) : Set.InjOn h S := by
  intro x hx y hy hxy
  by_contra hne
  exact hS ⟨x, hx, y, hy, hne, hxy⟩

variable (bit : P → ℕ → Bool) (h : Input P V D → D)

/-- The entries whose bit `k` is `b`. -/
def side (k : ℕ) (b : Bool) (L : List (P × V)) : List (P × V) := L.filter (fun e => bit e.1 k == b)

/-- The digest of the entries `L` from bit `k` on, with `n` bits left. -/
def digest : ℕ → ℕ → List (P × V) → D
  | _, _, [] => h .empty
  | _, _, [e] => h (.leaf e.1 e.2)
  | 0, _, _ :: _ :: _ => h .empty
  | n + 1, k, a :: b :: L =>
    h (.node (digest n (k + 1) (side bit k false (a :: b :: L)))
      (digest n (k + 1) (side bit k true (a :: b :: L))))

/-- The inputs hashed by `digest`, its own first. -/
def inputs : ℕ → ℕ → List (P × V) → List (Input P V D)
  | _, _, [] => [.empty]
  | _, _, [e] => [.leaf e.1 e.2]
  | 0, _, _ :: _ :: _ => [.empty]
  | n + 1, k, a :: b :: L =>
    .node (digest bit h n (k + 1) (side bit k false (a :: b :: L)))
        (digest bit h n (k + 1) (side bit k true (a :: b :: L))) ::
      (inputs n (k + 1) (side bit k false (a :: b :: L)) ++
        inputs n (k + 1) (side bit k true (a :: b :: L)))

/-- The entries are told apart by the `n` bits from `k` on. -/
def Sep (n k : ℕ) (L : List (P × V)) : Prop :=
  L.Pairwise fun a b => ∃ j, k ≤ j ∧ j < k + n ∧ bit a.1 j ≠ bit b.1 j

variable {bit h}

@[simp] theorem mem_side {k : ℕ} {b : Bool} {L : List (P × V)} {e : P × V} :
    e ∈ side bit k b L ↔ e ∈ L ∧ bit e.1 k = b := by simp [side]

variable {L : List (P × V)} {n k : ℕ}

theorem Sep.side (hL : Sep bit (n + 1) k L) (b : Bool) : Sep bit n (k + 1) (side bit k b L) := by
  unfold Sep SparseMerkle.side
  rw [List.pairwise_filter]
  refine hL.imp fun {x y} hxy hx hy => ?_
  obtain ⟨j, h1, h2, h3⟩ := hxy
  simp only [beq_iff_eq] at hx hy
  rcases Nat.eq_or_lt_of_le h1 with hj | hj
  · subst hj; exact absurd (hx.trans hy.symm) h3
  · exact ⟨j, hj, by omega, h3⟩

theorem Sep.length_le {k : ℕ} (hL : Sep bit 0 k L) : L.length ≤ 1 := by
  rcases L with _ | ⟨a, _ | ⟨b, L⟩⟩
  · simp
  · simp
  · obtain ⟨j, h1, h2, -⟩ := (List.pairwise_cons.1 hL).1 b (by simp)
    omega

/-- Two entries or more and a bit left: the digest is that of the two halves. -/
theorem digest_node (h2 : 2 ≤ L.length) :
    digest bit h (n + 1) k L =
      h (.node (digest bit h n (k + 1) (side bit k false L)) (digest bit h n (k + 1) (side bit k true L))) := by
  rcases L with _ | ⟨a, _ | ⟨b, L⟩⟩
  · simp at h2
  · simp at h2
  · rfl

theorem inputs_node (h2 : 2 ≤ L.length) :
    inputs bit h (n + 1) k L =
      .node (digest bit h n (k + 1) (side bit k false L)) (digest bit h n (k + 1) (side bit k true L)) ::
        (inputs bit h n (k + 1) (side bit k false L) ++ inputs bit h n (k + 1) (side bit k true L)) := by
  rcases L with _ | ⟨a, _ | ⟨b, L⟩⟩
  · simp at h2
  · simp at h2
  · rfl

/-- The inputs of a half are among the inputs of the whole. -/
theorem inputs_side (h2 : 2 ≤ L.length) (b : Bool) :
    ∀ x ∈ inputs bit h n (k + 1) (side bit k b L), x ∈ inputs bit h (n + 1) k L := by
  intro x hx
  rw [inputs_node h2]
  cases b <;> simp [hx]

/-- The inputs of a half with entries are among the inputs of the whole, also when the whole is one entry. -/
theorem inputs_side_of_ne_nil {b : Bool} (hne : side bit k b L ≠ []) :
    ∀ x ∈ inputs bit h n (k + 1) (side bit k b L), x ∈ inputs bit h (n + 1) k L := by
  rcases L with _ | ⟨a, _ | ⟨c, L⟩⟩
  · exact absurd rfl hne
  · -- a lone entry is its own half
    obtain ⟨e, he⟩ := List.exists_mem_of_ne_nil _ hne
    have hb : bit a.1 k = b := by
      obtain ⟨hm, hb⟩ := mem_side.1 he
      rw [List.mem_singleton.1 hm] at hb
      exact hb
    have hside : side bit k b [a] = [a] := by
      unfold side
      rw [List.filter_eq_self]
      intro x hx
      rw [List.mem_singleton.1 hx, hb]
      exact beq_self_eq_true b
    rw [hside]
    intro x hx
    simpa only [inputs] using hx
  · exact inputs_side (by simp) b

/-- **What a digest can be**: empty, a leaf, or a node over the halves; and its input is listed. -/
theorem digest_cases (n k : ℕ) (L : List (P × V)) (hL : Sep bit n k L) :
    (L = [] ∧ digest bit h n k L = h .empty ∧ .empty ∈ inputs bit h n k L) ∨
    (∃ e, L = [e] ∧ digest bit h n k L = h (.leaf e.1 e.2) ∧ .leaf e.1 e.2 ∈ inputs bit h n k L) ∨
    (∃ m, n = m + 1 ∧ 2 ≤ L.length ∧
      digest bit h n k L =
        h (.node (digest bit h m (k + 1) (side bit k false L)) (digest bit h m (k + 1) (side bit k true L))) ∧
      .node (digest bit h m (k + 1) (side bit k false L)) (digest bit h m (k + 1) (side bit k true L)) ∈
        inputs bit h n k L) := by
  rcases L with _ | ⟨a, _ | ⟨b, L⟩⟩
  · exact .inl ⟨rfl, by simp [digest], by simp [inputs]⟩
  · exact .inr (.inl ⟨a, rfl, by simp [digest], by simp [inputs]⟩)
  · right; right
    cases n with
    | zero => have := hL.length_le; simp at this
    | succ n => exact ⟨n, rfl, by simp, digest_node (by simp), by rw [inputs_node (by simp)]; simp⟩

/-! ## Inversion -/

section
variable {S : Set (Input P V D)} (hinj : Set.InjOn h S) {n k : ℕ} {L : List (P × V)}
  (hL : Sep bit n k L) (hS : ∀ x ∈ inputs bit h n k L, x ∈ S)
include hinj hL hS

theorem digest_eq_empty (he : .empty ∈ S) (heq : h .empty = digest bit h n k L) : L = [] := by
  rcases digest_cases (h := h) n k L hL with ⟨h0, -⟩ | ⟨e, -, hd, hm⟩ | ⟨m, -, -, hd, hm⟩
  · exact h0
  · cases hinj he (hS _ hm) (heq.trans hd)
  · cases hinj he (hS _ hm) (heq.trans hd)

theorem digest_eq_leaf {q : P} {v : V} (hm : .leaf q v ∈ S) (heq : h (.leaf q v) = digest bit h n k L) :
    L = [(q, v)] := by
  rcases digest_cases (h := h) n k L hL with ⟨-, hd, hx⟩ | ⟨e, h1, hd, hx⟩ | ⟨m, -, -, hd, hx⟩
  · cases hinj hm (hS _ hx) (heq.trans hd)
  · cases hinj hm (hS _ hx) (heq.trans hd); exact h1
  · cases hinj hm (hS _ hx) (heq.trans hd)

theorem digest_eq_node {l r : D} (hm : .node l r ∈ S) (heq : h (.node l r) = digest bit h n k L) :
    ∃ m, n = m + 1 ∧ 2 ≤ L.length ∧ l = digest bit h m (k + 1) (side bit k false L) ∧
      r = digest bit h m (k + 1) (side bit k true L) := by
  rcases digest_cases (h := h) n k L hL with ⟨-, hd, hx⟩ | ⟨e, -, hd, hx⟩ | ⟨m, h1, h2, hd, hx⟩
  · cases hinj hm (hS _ hx) (heq.trans hd)
  · cases hinj hm (hS _ hx) (heq.trans hd)
  · have := hinj hm (hS _ hx) (heq.trans hd)
    simp only [Input.node.injEq] at this
    exact ⟨m, h1, h2, this.1, this.2⟩

/-- A node that has the digest of `L` has, on the side of `p`, the digest of the entries on that side. -/
theorem digest_eq_node_side (p : P) {l r : D} (hm : .node l r ∈ S) (heq : h (.node l r) = digest bit h n k L) :
    ∃ m, n = m + 1 ∧ 2 ≤ L.length ∧
      (if bit p k then r else l) = digest bit h m (k + 1) (side bit k (bit p k) L) := by
  obtain ⟨m, h1, h2, h3, h4⟩ := digest_eq_node hinj hL hS hm heq
  refine ⟨m, h1, h2, ?_⟩
  cases bit p k
  · exact h3
  · exact h4

end

/-! ## Binding -/

/-- **Equal digests, equal entries**, when the inputs hashed on both sides do not collide. -/
theorem digest_binding (hinj : Set.InjOn h S) : ∀ {n k : ℕ} {L L' : List (P × V)},
    Sep bit n k L → Sep bit n k L' → (∀ x ∈ inputs bit h n k L, x ∈ S) →
    (∀ x ∈ inputs bit h n k L', x ∈ S) → digest bit h n k L = digest bit h n k L' →
    ∀ e, e ∈ L ↔ e ∈ L' := by
  intro n
  induction n with
  | zero =>
    intro k L L' hL hL' hS hS' heq
    rcases digest_cases (h := h) 0 k L hL with ⟨h0, hd, hm⟩ | ⟨e, h0, hd, hm⟩ | ⟨m, hm, -⟩
    · rw [h0, digest_eq_empty hinj hL' hS' (hS _ hm) (hd.symm.trans heq)]; simp
    · rw [h0, digest_eq_leaf hinj hL' hS' (hS _ hm) (hd.symm.trans heq)]; simp
    · omega
  | succ n ih =>
    intro k L L' hL hL' hS hS' heq
    rcases digest_cases (h := h) (n + 1) k L hL with ⟨h0, hd, hm⟩ | ⟨e, h0, hd, hm⟩ | ⟨m, hnm, h2, hd, hm⟩
    · rw [h0, digest_eq_empty hinj hL' hS' (hS _ hm) (hd.symm.trans heq)]; simp
    · rw [h0, digest_eq_leaf hinj hL' hS' (hS _ hm) (hd.symm.trans heq)]; simp
    · obtain ⟨m', hnm', h2', hl, hr⟩ := digest_eq_node hinj hL' hS' (hS _ hm) (hd.symm.trans heq)
      obtain rfl : n = m := by omega
      obtain rfl : n = m' := by omega
      intro e
      -- an entry lies on the side its bit `k` names, and both sides agree by induction
      have key : ∀ b, e ∈ side bit k b L ↔ e ∈ side bit k b L' := by
        intro b
        refine ih (hL.side b) (hL'.side b) (fun x hx => hS x (inputs_side h2 b x hx))
          (fun x hx => hS' x (inputs_side h2' b x hx)) ?_ e
        cases b
        · exact hl
        · exact hr
      have := key (bit e.1 k)
      simpa using this

/-! ## Descending -/

variable (bit h) in
/-- The descent along `p`: the entry it ends in, if any, and the digests passed by, top first. -/
def descent (p : P) : ℕ → ℕ → List (P × V) → Option (P × V) × List D
  | _, _, [] => (none, [])
  | _, _, [e] => (some e, [])
  | 0, _, _ :: _ :: _ => (none, [])
  | n + 1, k, a :: b :: L =>
    ((descent p n (k + 1) (side bit k (bit p k) (a :: b :: L))).1,
      digest bit h n (k + 1) (side bit k (!bit p k) (a :: b :: L)) ::
        (descent p n (k + 1) (side bit k (bit p k) (a :: b :: L))).2)

theorem descent_node {p : P} (h2 : 2 ≤ L.length) :
    descent bit h p (n + 1) k L =
      ((descent bit h p n (k + 1) (side bit k (bit p k) L)).1,
        digest bit h n (k + 1) (side bit k (!bit p k) L) :: (descent bit h p n (k + 1) (side bit k (bit p k) L)).2) := by
  rcases L with _ | ⟨a, _ | ⟨b, L⟩⟩
  · simp at h2
  · simp at h2
  · rfl

/-! ## Climbing -/

variable (bit) in
/-- The entries of `L` that agree with `p` on the `m` bits from `k` on. -/
def descend (p : P) : ℕ → ℕ → List (P × V) → List (P × V)
  | _, 0, L => L
  | k, m + 1, L => descend p (k + 1) m (side bit k (bit p k) L)

theorem mem_descend {p : P} {e : P × V} : ∀ {k m : ℕ} {L : List (P × V)},
    e ∈ descend bit p k m L ↔ e ∈ L ∧ ∀ j, k ≤ j → j < k + m → bit e.1 j = bit p j := by
  intro k m
  induction m generalizing k with
  | zero => intro L; simp only [descend]; exact ⟨fun he => ⟨he, fun j h1 h2 => by omega⟩, fun he => he.1⟩
  | succ m ih =>
    intro L
    rw [descend, ih, mem_side]
    constructor
    · rintro ⟨⟨h1, h2⟩, h3⟩
      refine ⟨h1, fun j hj hj' => ?_⟩
      rcases Nat.eq_or_lt_of_le hj with h | h
      · exact h ▸ h2
      · exact h3 j h (by omega)
    · rintro ⟨h1, h2⟩
      exact ⟨⟨h1, h2 k le_rfl (by omega)⟩, fun j hj hj' => h2 j (by omega) (by omega)⟩

variable (bit h) in
/-- Climb from a terminal digest to bit `k` along the bits of `p`; siblings top first. -/
def climb (p : P) : ℕ → List D → D → D
  | _, [], t => t
  | k, s :: ss, t =>
    if bit p k then h (.node s (climb p (k + 1) ss t)) else h (.node (climb p (k + 1) ss t) s)

variable (bit h) in
/-- The inputs hashed by `climb`. -/
def climbInputs (p : P) : ℕ → List D → D → List (Input P V D)
  | _, [], _ => []
  | k, s :: ss, t =>
    (if bit p k then .node s (climb bit h p (k + 1) ss t) else .node (climb bit h p (k + 1) ss t) s) ::
      climbInputs p (k + 1) ss t

theorem climb_append (p : P) : ∀ (l l' : List D) (k : ℕ) (t : D),
    climb bit h p k (l ++ l') t = climb bit h p k l (climb bit h p (k + l.length) l' t) := by
  intro l
  induction l with
  | nil => intro l' k t; rfl
  | cons s l ih =>
    intro l' k t
    simp only [List.cons_append, climb, ih, List.length_cons]
    rw [show k + 1 + l.length = k + (l.length + 1) by omega]

theorem climbInputs_append (p : P) : ∀ (l l' : List D) (k : ℕ) (t : D),
    climbInputs bit h p k (l ++ l') t =
      climbInputs bit h p k l (climb bit h p (k + l.length) l' t) ++ climbInputs bit h p (k + l.length) l' t := by
  intro l
  induction l with
  | nil => intro l' k t; rfl
  | cons s l ih =>
    intro l' k t
    simp only [List.cons_append, climbInputs, climb_append, ih, List.length_cons]
    rw [show k + 1 + l.length = k + (l.length + 1) by omega]

/-- The input a descent ends in. -/
def terminal : Option (P × V) → Input P V D
  | none => .empty
  | some e => .leaf e.1 e.2

/-- **A descent climbs back**: its end and the digests it passed by give the digest it started from. -/
theorem climb_descent (p : P) : ∀ {n k : ℕ} {L : List (P × V)}, Sep bit n k L →
    climb bit h p k (descent bit h p n k L).2 (h (terminal (descent bit h p n k L).1)) = digest bit h n k L := by
  intro n
  induction n with
  | zero =>
    intro k L hL
    rcases L with _ | ⟨a, _ | ⟨b, L⟩⟩
    · simp [descent, climb, terminal, digest]
    · simp [descent, climb, terminal, digest]
    · have := hL.length_le; simp at this
  | succ n ih =>
    intro k L hL
    rcases L with _ | ⟨a, _ | ⟨b, L⟩⟩
    · simp [descent, climb, terminal, digest]
    · simp [descent, climb, terminal, digest]
    · have h2 : 2 ≤ (a :: b :: L).length := by simp
      rw [descent_node h2, digest_node h2]
      simp only [climb]
      rw [ih (hL.side (bit p k))]
      cases bit p k <;> rfl

/-- The entry a descent ends in agrees with the path on every bit descended. -/
theorem descent_agrees {p : P} {e : P × V} : ∀ {n k : ℕ} {L : List (P × V)}, (descent bit h p n k L).1 = some e →
    e ∈ L ∧ ∀ j, k ≤ j → j < k + (descent bit h p n k L).2.length → bit e.1 j = bit p j := by
  intro n
  induction n with
  | zero =>
    intro k L he
    rcases L with _ | ⟨a, _ | ⟨b, L⟩⟩
    · simp [descent] at he
    · simp only [descent, Option.some.injEq] at he
      exact ⟨by simp [he], fun j h1 h2 => absurd h2 (by simp [descent]; omega)⟩
    · simp [descent] at he
  | succ n ih =>
    intro k L he
    rcases L with _ | ⟨a, _ | ⟨b, L⟩⟩
    · simp [descent] at he
    · simp only [descent, Option.some.injEq] at he
      exact ⟨by simp [he], fun j h1 h2 => absurd h2 (by simp [descent]; omega)⟩
    · have h2 : 2 ≤ (a :: b :: L).length := by simp
      rw [descent_node h2] at he ⊢
      obtain ⟨hm, hbits⟩ := ih he
      obtain ⟨hm, hb⟩ := mem_side.1 hm
      refine ⟨hm, fun j h1 h3 => ?_⟩
      rcases Nat.eq_or_lt_of_le h1 with hj | hj
      · exact hj ▸ hb
      · simp only [List.length_cons] at h3
        exact hbits j hj (by omega)

/-- An entry that agrees with the path on all bits is where its descent ends. -/
theorem descent_of_mem {p : P} {e : P × V} : ∀ {n k : ℕ} {L : List (P × V)}, Sep bit n k L → e ∈ L →
    (∀ j, k ≤ j → j < k + n → bit e.1 j = bit p j) → (descent bit h p n k L).1 = some e := by
  intro n
  induction n with
  | zero =>
    intro k L hL he _
    rcases L with _ | ⟨a, _ | ⟨b, L⟩⟩
    · simp at he
    · simp only [List.mem_singleton] at he
      simp [descent, he]
    · have := hL.length_le; simp at this
  | succ n ih =>
    intro k L hL he hbits
    rcases L with _ | ⟨a, _ | ⟨b, L⟩⟩
    · simp at he
    · simp only [List.mem_singleton] at he
      simp [descent, he]
    · rw [descent_node (by simp)]
      exact ih (hL.side _) (mem_side.2 ⟨he, hbits k le_rfl (by omega)⟩) fun j h1 h2 => hbits j (by omega) (by omega)

theorem length_descent (p : P) : ∀ (n k : ℕ) (L : List (P × V)), (descent bit h p n k L).2.length ≤ n := by
  intro n
  induction n with
  | zero =>
    intro k L
    rcases L with _ | ⟨a, _ | ⟨b, L⟩⟩ <;> simp [descent]
  | succ n ih =>
    intro k L
    rcases L with _ | ⟨a, _ | ⟨b, L⟩⟩
    · simp [descent]
    · simp [descent]
    · rw [descent_node (by simp), List.length_cons]
      exact Nat.succ_le_succ (ih _ _)

/-- **Climb soundness.** A terminal that climbs along `p` to the digest of `L`, whatever the
siblings, has the digest of the entries under the prefix of `p` it was climbed from. -/
theorem climb_sound (hinj : Set.InjOn h S) (p : P) (t : D) :
    ∀ (ss : List D) {n k : ℕ} {L : List (P × V)}, Sep bit n k L → (∀ x ∈ inputs bit h n k L, x ∈ S) →
      (∀ x ∈ climbInputs bit h p k ss t, x ∈ S) → climb bit h p k ss t = digest bit h n k L →
      ∃ m, n = m + ss.length ∧ Sep bit m (k + ss.length) (descend bit p k ss.length L) ∧
        (∀ x ∈ inputs bit h m (k + ss.length) (descend bit p k ss.length L), x ∈ S) ∧
        t = digest bit h m (k + ss.length) (descend bit p k ss.length L) := by
  intro ss
  induction ss with
  | nil => intro n k L hL hS _ heq; exact ⟨n, rfl, hL, hS, heq⟩
  | cons s ss ih =>
    intro n k L hL hS hC heq
    have hC' : ∀ x ∈ climbInputs bit h p (k + 1) ss t, x ∈ S :=
      fun x hx => hC x (by simp [climbInputs, hx])
    have key : ∃ m, n = m + 1 ∧ 2 ≤ L.length ∧
        climb bit h p (k + 1) ss t = digest bit h m (k + 1) (side bit k (bit p k) L) := by
      have hside := fun l r => digest_eq_node_side (l := l) (r := r) hinj hL hS p
      cases hb : bit p k
      · simp only [hb, Bool.false_eq_true, if_false] at hside
        simp only [climb, hb, Bool.false_eq_true, if_false] at heq
        exact hside _ _ (hC _ (by simp [climbInputs, hb])) heq
      · simp only [hb, if_true] at hside
        simp only [climb, hb, if_true] at heq
        exact hside _ _ (hC _ (by simp [climbInputs, hb])) heq
    obtain ⟨m, rfl, h2, hm⟩ := key
    obtain ⟨m', h3, h4, h5, h6⟩ := ih (hL.side (bit p k))
      (fun x hx => hS x (inputs_side h2 _ x hx)) hC' hm
    refine ⟨m', by simp only [List.length_cons]; omega, ?_, ?_, ?_⟩
    all_goals
      simp only [List.length_cons, descend]
      rw [show k + (ss.length + 1) = k + 1 + ss.length by omega]
      assumption

/-! ## Positions on a path -/

variable (bit h) in
/-- `L'` are entries of `L` under the first `k` of the `N` bits of `p`, told apart by the `n` bits left; what
their digest hashes is in `S`. -/
structure Position (S : Set (Input P V D)) (L : List (P × V)) (p : P) (N n k : ℕ) (L' : List (P × V)) : Prop where
  total : k + n = N
  sep : Sep bit n k L'
  hashed : ∀ x ∈ inputs bit h n k L', x ∈ S
  mem : ∀ e ∈ L', e ∈ L ∧ ∀ j < k, bit e.1 j = bit p j

section
variable {S : Set (Input P V D)} {L L' : List (P × V)} {p : P} {N n k : ℕ}

/-- The whole of `L`, before the first bit. -/
theorem Position.start (hL : Sep bit N 0 L) (hS : ∀ x ∈ inputs bit h N 0 L, x ∈ S) : Position bit h S L p N N 0 L :=
  ⟨Nat.zero_add N, hL, hS, fun _ he => ⟨he, fun _ hj => absurd hj (Nat.not_lt_zero _)⟩⟩

/-- **One bit down**: a node with the digest of a position leads to the position below it. -/
theorem Position.down (hinj : Set.InjOn h S) (hP : Position bit h S L p N n k L') {l r : D} (hm : .node l r ∈ S)
    (heq : h (.node l r) = digest bit h n k L') :
    2 ≤ L'.length ∧ ∃ m, Position bit h S L p N m (k + 1) (side bit k (bit p k) L') ∧
      (if bit p k then r else l) = digest bit h m (k + 1) (side bit k (bit p k) L') := by
  obtain ⟨m, rfl, h2, hd⟩ := digest_eq_node_side hinj hP.sep hP.hashed p hm heq
  refine ⟨h2, m, ⟨by have := hP.total; omega, hP.sep.side _, fun x hx => hP.hashed x (inputs_side h2 _ x hx), ?_⟩, hd⟩
  intro e he
  obtain ⟨he, hb⟩ := mem_side.1 he
  refine ⟨(hP.mem e he).1, fun j hj => ?_⟩
  rcases Nat.lt_succ_iff_lt_or_eq.1 hj with hj | rfl
  · exact (hP.mem e he).2 j hj
  · exact hb

/-- Two entries of a position part at one of the bits left. -/
theorem Position.two (hP : Position bit h S L p N n k L') (h2 : 2 ≤ L'.length) :
    ∃ a ∈ L', ∃ b ∈ L', ∃ j, k ≤ j ∧ j < N ∧ bit a.1 j ≠ bit b.1 j := by
  rcases L' with _ | ⟨a, _ | ⟨b, L'⟩⟩
  · simp at h2
  · simp at h2
  · obtain ⟨j, h1, h3, h4⟩ := (List.pairwise_cons.1 hP.sep).1 b (by simp)
    exact ⟨a, by simp, b, by simp, j, h1, by have := hP.total; omega, h4⟩

end

end SparseMerkle
