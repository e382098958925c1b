import Mathlib.Data.List.Basic
import Mathlib.Tactic.Common
import ImmutableLedger.Lib.Bytes

/-!
# Self-delimiting encodings

A `Wire α` writes values of `α` so that they read back in front of any bytes. Lists are framed by continuation bytes, so
that no length has to be bounded.

* `Wire.both`, `Wire.many`, `Wire.via`: pairs, lists, and values of a type that embeds in another.
-/

/-- An encoding that reads back in front of any bytes. -/
structure Wire (α : Type) where
  put : α → List UInt8
  get : List UInt8 → Option (α × List UInt8)
  get_put : ∀ a rest, get (put a ++ rest) = some (a, rest)

namespace Wire

variable {α β : Type}

/-- Eight bytes, big endian. -/
def word : Wire UInt64 where
  put := Bytes.u64
  get bs := some (Bytes.toU64 (bs.take 8), bs.drop 8)
  get_put a rest := by
    rw [List.take_left' (Bytes.length_u64 a), List.drop_left' (Bytes.length_u64 a), Bytes.toU64_u64]

def both (x : Wire α) (y : Wire β) : Wire (α × β) where
  put p := x.put p.1 ++ y.put p.2
  get bs :=
    match x.get bs with
    | none => none
    | some (a, bs) =>
      match y.get bs with
      | none => none
      | some (b, bs) => some ((a, b), bs)
  get_put p rest := by simp only [List.append_assoc, x.get_put, y.get_put]

/-- The values of a type that embeds in another. -/
def via (x : Wire α) (f : α → β) (g : β → α) (h : ∀ b, f (g b) = b) : Wire β where
  put b := x.put (g b)
  get bs := (x.get bs).map fun r => (f r.1, r.2)
  get_put b rest := by rw [x.get_put, Option.map_some, h]

/-- Elements, each after a byte 1, up to a byte 0; at most `n` of them. -/
def getMany (x : Wire α) : ℕ → List UInt8 → Option (List α × List UInt8)
  | _, [] => none
  | 0, _ :: bs => some ([], bs)
  | n + 1, b :: bs =>
    if b = 0 then some ([], bs)
    else match x.get bs with
      | none => none
      | some (a, bs) => (getMany x n bs).map fun r => (a :: r.1, r.2)

/-- The elements of a list, each after a byte 1, and a byte 0. -/
def putMany (x : Wire α) : List α → List UInt8
  | [] => [0]
  | a :: l => 1 :: (x.put a ++ putMany x l)

theorem length_putMany (x : Wire α) (l : List α) : l.length < (x.putMany l).length := by
  induction l with
  | nil => simp [putMany]
  | cons a l ih => simp only [putMany, List.length_cons, List.length_append]; omega

theorem getMany_putMany (x : Wire α) (rest : List UInt8) : ∀ {l : List α} {n : ℕ}, l.length ≤ n →
    x.getMany n (x.putMany l ++ rest) = some (l, rest) := by
  intro l
  induction l with
  | nil =>
    intro n _
    cases n with
    | zero => rfl
    | succ n => rfl
  | cons a l ih =>
    intro n hn
    obtain ⟨n, rfl⟩ : ∃ m, n = m + 1 := ⟨n - 1, by simp only [List.length_cons] at hn; omega⟩
    have hl : l.length ≤ n := by simpa using hn
    show x.getMany (n + 1) (1 :: (x.put a ++ putMany x l ++ rest)) = _
    unfold getMany
    rw [if_neg (by decide), List.append_assoc, x.get_put]
    dsimp only
    rw [ih hl]
    rfl

def many (x : Wire α) : Wire (List α) where
  put := x.putMany
  get bs := x.getMany bs.length bs
  get_put l rest := x.getMany_putMany rest (by
    have := x.length_putMany l
    rw [List.length_append]
    omega)

/-- No bytes. -/
def unit : Wire Unit where
  put _ := []
  get bs := some ((), bs)
  get_put _ _ := rfl

/-- A number as that many continuation bytes. -/
def nat : Wire ℕ := unit.many.via List.length (fun n => List.replicate n ()) fun _ => List.length_replicate

/-- An integer by its positive and its negative part. -/
def int : Wire ℤ := (nat.both nat).via (fun p => p.1 - p.2) (fun z => (z.toNat, (-z).toNat)) Int.toNat_sub_toNat_neg

def byte : Wire UInt8 where
  put b := [b]
  get
    | [] => none
    | b :: bs => some (b, bs)
  get_put _ _ := rfl

def bool : Wire Bool := byte.via (fun b => b = 1) (fun b => if b then 1 else 0) fun b => by cases b <;> rfl

/-- A value alone. -/
def decode (x : Wire α) (bs : List UInt8) : Option α := (x.get bs).map Prod.fst

theorem decode_put (x : Wire α) (a : α) : x.decode (x.put a) = some a := by
  have h := x.get_put a []
  rw [List.append_nil] at h
  rw [decode, h, Option.map_some]

end Wire
