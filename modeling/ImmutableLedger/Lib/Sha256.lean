import ImmutableLedger.Lib.Bytes

/-!
# SHA-256

The SHA-256 hash (FIPS 180-4) on byte strings, over natural numbers below `2 ^ 32`, so that it evaluates in
the kernel.
-/

namespace Sha256

/-- Addition of words. -/
def add (x y : ℕ) : ℕ := (x + y) % 4294967296

/-- Rotation of a word to the right. -/
def rotr (n x : ℕ) : ℕ := (x >>> n) ||| ((x <<< (32 - n)) % 4294967296)

def bigSigma0 (x : ℕ) : ℕ := rotr 2 x ^^^ rotr 13 x ^^^ rotr 22 x
def bigSigma1 (x : ℕ) : ℕ := rotr 6 x ^^^ rotr 11 x ^^^ rotr 25 x
def smallSigma0 (x : ℕ) : ℕ := rotr 7 x ^^^ rotr 18 x ^^^ (x >>> 3)
def smallSigma1 (x : ℕ) : ℕ := rotr 17 x ^^^ rotr 19 x ^^^ (x >>> 10)

/-- `ch x y z`: bits of `y` where `x` has one, of `z` elsewhere. -/
def ch (x y z : ℕ) : ℕ := (x &&& y) ^^^ ((4294967295 ^^^ x) &&& z)

def maj (x y z : ℕ) : ℕ := (x &&& y) ^^^ (x &&& z) ^^^ (y &&& z)

/-- The round constants: the first 32 bits of the fractional parts of the cube roots of the first 64 primes. -/
def roundConstants : List ℕ :=
  [0x428a2f98, 0x71374491, 0xb5c0fbcf, 0xe9b5dba5, 0x3956c25b, 0x59f111f1, 0x923f82a4, 0xab1c5ed5,
   0xd807aa98, 0x12835b01, 0x243185be, 0x550c7dc3, 0x72be5d74, 0x80deb1fe, 0x9bdc06a7, 0xc19bf174,
   0xe49b69c1, 0xefbe4786, 0x0fc19dc6, 0x240ca1cc, 0x2de92c6f, 0x4a7484aa, 0x5cb0a9dc, 0x76f988da,
   0x983e5152, 0xa831c66d, 0xb00327c8, 0xbf597fc7, 0xc6e00bf3, 0xd5a79147, 0x06ca6351, 0x14292967,
   0x27b70a85, 0x2e1b2138, 0x4d2c6dfc, 0x53380d13, 0x650a7354, 0x766a0abb, 0x81c2c92e, 0x92722c85,
   0xa2bfe8a1, 0xa81a664b, 0xc24b8b70, 0xc76c51a3, 0xd192e819, 0xd6990624, 0xf40e3585, 0x106aa070,
   0x19a4c116, 0x1e376c08, 0x2748774c, 0x34b0bcb5, 0x391c0cb3, 0x4ed8aa4a, 0x5b9cca4f, 0x682e6ff3,
   0x748f82ee, 0x78a5636f, 0x84c87814, 0x8cc70208, 0x90befffa, 0xa4506ceb, 0xbef9a3f7, 0xc67178f2]

/-- The working variables. -/
structure State where
  a : ℕ
  b : ℕ
  c : ℕ
  d : ℕ
  e : ℕ
  f : ℕ
  g : ℕ
  h : ℕ

/-- The initial hash value: the square roots of the first 8 primes. -/
def initial : State :=
  ⟨0x6a09e667, 0xbb67ae85, 0x3c6ef372, 0xa54ff53a, 0x510e527f, 0x9b05688c, 0x1f83d9ab, 0x5be0cd19⟩

/-- Evaluate a number before going on with it. -/
def force {α : Type} (n : ℕ) (k : ℕ → α) : α :=
  match n with
  | 0 => k 0
  | n + 1 => k (n + 1)

/-- One round with constant `k` and message word `w`. -/
def round (s : State) (k w : ℕ) : State :=
  force (add (add (add s.h (bigSigma1 s.e)) (ch s.e s.f s.g)) (add k w)) fun t1 =>
  force (add t1 (add (bigSigma0 s.a) (maj s.a s.b s.c))) fun a =>
  force (add s.d t1) fun e => ⟨a, s.a, s.b, s.c, e, s.e, s.f, s.g⟩

/-- The rounds left: the constants, and the last 16 message words, oldest first. -/
def rounds : List ℕ → List ℕ → State → State
  | k :: ks, w0 :: w1 :: w2 :: w3 :: w4 :: w5 :: w6 :: w7 :: w8 :: w9 :: w10 :: w11 :: w12 :: w13 :: w14 :: w15 :: _, s =>
    force (add (add (smallSigma1 w14) w9) (add (smallSigma0 w1) w0)) fun w16 =>
      rounds ks [w1, w2, w3, w4, w5, w6, w7, w8, w9, w10, w11, w12, w13, w14, w15, w16] (round s k w0)
  | _, _, s => s

/-- The big-endian words of a block. -/
def words : Bytes → List ℕ
  | b0 :: b1 :: b2 :: b3 :: l =>
    force (((b0.toNat * 256 + b1.toNat) * 256 + b2.toNat) * 256 + b3.toNat) fun w => w :: words l
  | _ => []

/-- Process one block. -/
def compress (s : State) (block : Bytes) : State :=
  let r := rounds roundConstants (words block) s
  force (add s.a r.a) fun a => force (add s.b r.b) fun b => force (add s.c r.c) fun c => force (add s.d r.d) fun d =>
  force (add s.e r.e) fun e => force (add s.f r.f) fun f => force (add s.g r.g) fun g => force (add s.h r.h) fun h =>
    ⟨a, b, c, d, e, f, g, h⟩

/-- The message padded with a one bit, zeros and its length in bits, to whole blocks. -/
def pad (msg : Bytes) : Bytes :=
  msg ++ 0x80 :: List.replicate ((119 - msg.length % 64) % 64) 0 ++ Bytes.beBytes 8 (8 * msg.length)

/-- The blocks left, at most `n`. -/
def process : ℕ → Bytes → State → State
  | 0, _, s => s
  | n + 1, l, s => process n (l.drop 64) (compress s (l.take 64))

def State.bytes (s : State) : Bytes :=
  Bytes.beBytes 4 s.a ++ Bytes.beBytes 4 s.b ++ Bytes.beBytes 4 s.c ++ Bytes.beBytes 4 s.d ++ Bytes.beBytes 4 s.e ++
    Bytes.beBytes 4 s.f ++ Bytes.beBytes 4 s.g ++ Bytes.beBytes 4 s.h

/-- The SHA-256 of a message. -/
def sum (msg : Bytes) : Bytes := (process ((msg.length + 72) / 64) (pad msg) initial).bytes

theorem length_sum (msg : Bytes) : (sum msg).length = 32 := by simp [sum, State.bytes]

end Sha256
