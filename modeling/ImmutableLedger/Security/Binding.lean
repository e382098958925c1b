import ImmutableLedger.Tree.Root
import ImmutableLedger.Ledger.Proof

/-!
# What a root commits to

Against a root, an adversary can neither exchange the logical map nor prove a false statement about it,
short of a SHA-256 collision among the node preimages actually hashed (`Collision`).

* `root_binding`: equal roots, equal maps.
* `verify_sound`: a proof accepted against the root of a map, with any leaf and any siblings, tells the truth.
-/

namespace ImmutableLedger

open SparseMerkle

/-- Two different node preimages among `S` with one SHA-256 hash. -/
def Collision (C : Crypto) (S : List (Input Hash Hash Hash)) : Prop :=
  ∃ x ∈ S, ∃ y ∈ S, preimage x ≠ preimage y ∧ C.sha256 (preimage x) = C.sha256 (preimage y)

variable {C : Crypto}

instance (S : List (Input Hash Hash Hash)) : Decidable (Collision C S) :=
  inferInstanceAs (Decidable (∃ x ∈ S, ∃ y ∈ S, preimage x ≠ preimage y ∧ C.sha256 (preimage x) = C.sha256 (preimage y)))

theorem collision_iff {S : List (Input Hash Hash Hash)} : Collision C S ↔ Collides (nodeHash C) {x | x ∈ S} := by
  constructor
  · rintro ⟨x, hx, y, hy, hne, heq⟩
    exact ⟨x, hx, y, hy, fun h => hne (h ▸ rfl), heq⟩
  · rintro ⟨x, hx, y, hy, hne, heq⟩
    exact ⟨x, hx, y, hy, fun h => hne (preimage_injective h), heq⟩

/-- Without a collision among them, the node hashes of `S` tell its inputs apart. -/
theorem injOn_of_not_collision {S : List (Input Hash Hash Hash)} (h : ¬ Collision C S) :
    Set.InjOn (nodeHash C) {x | x ∈ S} := injOn_of_not_collides (mt collision_iff.2 h)

/-- **Root binding.** Logical maps with the same root are equal, or two of the preimages hashed in their
trees collide. -/
theorem root_binding (M₁ M₂ : OrdMap Hash Hash) (h : rootOf C M₁ = rootOf C M₂) :
    M₁ = M₂ ∨ Collision C (treeInputs C M₁ ++ treeInputs C M₂) := by
  by_cases hcol : Collision C (treeInputs C M₁ ++ treeInputs C M₂)
  · exact .inr hcol
  left
  rw [rootOf_eq_digest, rootOf_eq_digest] at h
  have hsame := digest_binding (injOn_of_not_collision hcol) (sep_entries M₁) (sep_entries M₂)
    (fun x hx => List.mem_append_left _ hx) (fun x hx => List.mem_append_right _ hx) h
  refine OrdMap.ext_get fun p => Option.ext fun vh => ?_
  rw [← OrdMap.mem_entries, ← OrdMap.mem_entries]
  exact hsame (p, vh)

/-- A path whose first byte is `b`, the others zero. -/
def pathOfByte (b : UInt8) : Hash := ⟨b :: List.replicate 31 0, by simp⟩

theorem root_binding_insert_comm :
    rootOf plainCrypto ((OrdMap.empty.insert (pathOfByte 1) Hash.zero).insert (pathOfByte 128) (pathOfByte 7)) =
      rootOf plainCrypto ((OrdMap.empty.insert (pathOfByte 128) (pathOfByte 7)).insert (pathOfByte 1) Hash.zero) ∧
    ((OrdMap.empty.insert (pathOfByte 1) Hash.zero).insert (pathOfByte 128) (pathOfByte 7) =
        (OrdMap.empty.insert (pathOfByte 128) (pathOfByte 7)).insert (pathOfByte 1) Hash.zero ∨
      Collision plainCrypto
        (treeInputs plainCrypto ((OrdMap.empty.insert (pathOfByte 1) Hash.zero).insert (pathOfByte 128) (pathOfByte 7)) ++
         treeInputs plainCrypto ((OrdMap.empty.insert (pathOfByte 128) (pathOfByte 7)).insert (pathOfByte 1) Hash.zero))) :=
  have h : rootOf plainCrypto ((OrdMap.empty.insert (pathOfByte 1) Hash.zero).insert (pathOfByte 128) (pathOfByte 7)) =
      rootOf plainCrypto ((OrdMap.empty.insert (pathOfByte 128) (pathOfByte 7)).insert (pathOfByte 1) Hash.zero) := by
    decide +kernel
  ⟨h, root_binding _ _ h⟩

/-- An accepted proof states the commitment of the path, or its absence, when the preimages hashed do not
collide. -/
theorem verify_true {M : OrdMap Hash Hash} {path : Hash} {proof : Proof} {st : Verified}
    (h : verify C (rootOf C M) path proof = .ok st)
    (hcol : ¬ Collision C (treeInputs C M ++ verifyInputs C path proof)) :
    (st.present = true → M.get path = some st.vh) ∧ (st.present = false → M.get path = none) := by
  have hinj := injOn_of_not_collision hcol
  obtain ⟨hfold, hst⟩ := verify_ok h
  rw [foldSiblings_eq_climb, rootOf_eq_digest] at hfold
  -- the terminal has the digest of the entries that share the path's first bits
  obtain ⟨m, -, hsep, hin, hterm⟩ := climb_sound hinj path _ proof.siblings.reverse (sep_entries M)
    (fun x hx => List.mem_append_left _ hx)
    (fun x hx => List.mem_append_right _ (List.mem_cons_of_mem _ ((mem_foldInputs C path _ _).2 hx))) hfold
  have hmem : proof.terminal ∈ treeInputs C M ++ verifyInputs C path proof :=
    List.mem_append_right _ List.mem_cons_self
  have hdown : ∀ vh, M.get path = some vh →
      (path, vh) ∈ descend bitAt path 0 proof.siblings.reverse.length M.entries := fun vh hvh =>
    mem_descend.2 ⟨OrdMap.mem_entries.2 hvh, fun _ _ _ => rfl⟩
  refine ⟨fun hpres => ?_, fun habs => ?_⟩
  · obtain ⟨-, ht⟩ | ⟨hf, -⟩ := hst
    · rw [ht] at hmem hterm
      have hone := digest_eq_leaf hinj hsep hin hmem hterm
      have hin' : (path, st.vh) ∈ descend bitAt path 0 proof.siblings.reverse.length M.entries := by
        rw [hone]; exact List.mem_singleton_self _
      exact OrdMap.mem_entries.1 (mem_descend.1 hin').1
    · rw [hpres] at hf; cases hf
  · obtain ⟨ht, -⟩ | ⟨-, hne⟩ := hst
    · rw [habs] at ht; cases ht
    -- an entry of the path would be the terminal itself
    rw [Option.eq_none_iff_forall_ne_some]
    intro vh hvh
    have hin' := hdown vh hvh
    cases ht : proof.terminal with
    | empty =>
      rw [ht] at hmem hterm
      rw [digest_eq_empty hinj hsep hin hmem hterm] at hin'
      simp at hin'
    | leaf q w =>
      rw [ht] at hmem hterm
      rw [digest_eq_leaf hinj hsep hin hmem hterm, List.mem_singleton] at hin'
      obtain ⟨rfl, rfl⟩ := Prod.mk.inj hin'
      exact hne vh ht
    | node l r =>
      unfold Proof.terminal at ht
      split at ht <;> cases ht

/-- **Proof soundness.** Whatever its leaf and siblings, a proof that `Verify` accepts against the root of
`M` states the commitment of the path in `M`, or its absence; or two of the preimages hashed collide. -/
theorem verify_sound (M : OrdMap Hash Hash) (path : Hash) (proof : Proof) (st : Verified)
    (h : verify C (rootOf C M) path proof = .ok st) :
    ((st.present = true → M.get path = some st.vh) ∧ (st.present = false → M.get path = none)) ∨
      Collision C (treeInputs C M ++ verifyInputs C path proof) := by
  by_cases hcol : Collision C (treeInputs C M ++ verifyInputs C path proof)
  · exact .inr hcol
  · exact .inl (verify_true h hcol)

/-- A tree of two leaves. -/
def twoEntries : OrdMap Hash Hash := (OrdMap.empty.insert (pathOfByte 1) Hash.zero).insert (pathOfByte 128) (pathOfByte 7)

/-- The proof of the first leaf. -/
def firstProof : Proof := ⟨some ⟨pathOfByte 1, Hash.zero⟩, [leafHash plainCrypto (pathOfByte 128) (pathOfByte 7)]⟩

theorem verify_sound_two_entries :
    verify plainCrypto (rootOf plainCrypto twoEntries) (pathOfByte 1) firstProof = .ok ⟨true, Hash.zero⟩ ∧
    (((true = true → twoEntries.get (pathOfByte 1) = some Hash.zero) ∧
        (true = false → twoEntries.get (pathOfByte 1) = none)) ∨
      Collision plainCrypto (treeInputs plainCrypto twoEntries ++ verifyInputs plainCrypto (pathOfByte 1) firstProof)) := by
  have h : verify plainCrypto (rootOf plainCrypto twoEntries) (pathOfByte 1) firstProof = .ok ⟨true, Hash.zero⟩ := by
    decide +kernel
  exact ⟨h, verify_sound _ _ _ _ h⟩

end ImmutableLedger
