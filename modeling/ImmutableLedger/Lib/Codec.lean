import Mathlib.Data.List.Basic
import Mathlib.Tactic.Common

/-!
# Exact codecs

A decoder is exact for an encoder when it reads back what the encoder writes and accepts nothing else. Then every value
has one accepted encoding, and the decoder decides membership in the image of the encoder.

* `ExactCodec.accepts_iff`: what the decoder accepts.
* `ExactCodec.rejects_truncated`, `ExactCodec.rejects_extended`: with a prefix-free encoder, bytes may neither be cut off
  nor added.
-/

/-- `decode` reads back what `encode` writes of the values in `P`, and accepts nothing else. -/
structure ExactCodec {α ε δ : Type} (encode : α → δ) (decode : δ → Except ε α) (P : α → Prop) : Prop where
  decode_encode : ∀ {a}, P a → decode (encode a) = .ok a
  sound : ∀ {d a}, decode d = .ok a → P a ∧ encode a = d

namespace ExactCodec

variable {α ε δ : Type} {encode : α → δ} {decode : δ → Except ε α} {P : α → Prop}

theorem decode_eq_ok_iff (h : ExactCodec encode decode P) {d : δ} {a : α} : decode d = .ok a ↔ P a ∧ encode a = d := by
  refine ⟨h.sound, ?_⟩
  rintro ⟨ha, rfl⟩
  exact h.decode_encode ha

/-- **What is accepted** is what the encoder writes. -/
theorem accepts_iff (h : ExactCodec encode decode P) {d : δ} : (∃ a, decode d = .ok a) ↔ ∃ a, P a ∧ encode a = d :=
  exists_congr fun _ => h.decode_eq_ok_iff

/-- A value has one accepted encoding. -/
theorem unique (h : ExactCodec encode decode P) {d d' : δ} {a : α} (hd : decode d = .ok a) (hd' : decode d' = .ok a) :
    d = d' := by
  rw [← (h.sound hd).2, ← (h.sound hd').2]

section
variable {β : Type} {encode : α → List β} {decode : List β → Except ε α}

/-- No encoding of a value in `P` begins that of another. -/
def PrefixFree (encode : α → List β) (P : α → Prop) : Prop := ∀ {a b}, P a → P b → encode a <+: encode b → a = b

/-- An encoding that was cut short is rejected. -/
theorem rejects_truncated (h : ExactCodec encode decode P) (hfree : PrefixFree encode P) {a : α} (ha : P a) {d : List β}
    (hd : d <+: encode a) (hne : d ≠ encode a) (b : α) : decode d ≠ .ok b := by
  intro hok
  obtain ⟨hb, rfl⟩ := h.sound hok
  exact hne (congrArg encode (hfree hb ha hd))

/-- An encoding with bytes after it is rejected. -/
theorem rejects_extended (h : ExactCodec encode decode P) (hfree : PrefixFree encode P) {a : α} (ha : P a) {rest : List β}
    (hne : rest ≠ []) (b : α) : decode (encode a ++ rest) ≠ .ok b := by
  intro hok
  obtain ⟨hb, heq⟩ := h.sound hok
  have hab : a = b := hfree ha hb (heq ▸ List.prefix_append (encode a) rest)
  rw [hab] at heq
  exact hne (List.self_eq_append_right.1 heq)

end

end ExactCodec
