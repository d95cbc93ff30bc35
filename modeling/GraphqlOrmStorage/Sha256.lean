import GraphqlOrmStorage.FileTree

/-!
# Streaming SHA-256

The code hashes incrementally: a hasher is created, fed chunk by chunk and
finalized once. `Digest` is what it relies on, namely that feeding two chunks in
turn is feeding their concatenation. `Digest.sha256` is the function of
FIPS 180-4 itself, with the absorbed message as the hasher state.
-/
namespace GraphqlOrmStorage

open Text

/-- An incremental digest over byte chunks. -/
structure Digest where
  Hasher : Type
  new : Hasher
  update : Hasher → Bytes → Hasher
  finalize : Hasher → Bytes
  update_update : ∀ h a b, update (update h a) b = update h (a ++ b)
  finalize_update_nil : finalize (update new []) = finalize new

namespace Digest

/-- Feeding any chunking of a message is feeding the message. -/
theorem foldl_update (D : Digest) (h : D.Hasher) (a : Bytes) (chunks : List Bytes) :
    chunks.foldl D.update (D.update h a) = D.update h (a ++ chunks.flatten) := by
  induction chunks generalizing a with
  | nil => simp
  | cons c cs ih =>
    rw [List.foldl_cons, D.update_update, ih, List.flatten_cons, List.append_assoc]

theorem finalize_foldl (D : Digest) (chunks : List Bytes) :
    D.finalize (chunks.foldl D.update D.new) = D.finalize (D.update D.new chunks.flatten) := by
  cases chunks with
  | nil => exact D.finalize_update_nil.symm
  | cons c cs => rw [List.foldl_cons, foldl_update, List.flatten_cons]

end Digest

/-- One hexadecimal digit, lower case. -/
def hexDigit (n : ℕ) : Char := if n < 10 then Char.ofNat (48 + n) else Char.ofNat (87 + n)

/-- The two digits of a byte, high digit first. -/
def hexByte (b : UInt8) : Str := [hexDigit (b.toNat / 16), hexDigit (b.toNat % 16)]

/-- `format!("{:x}", bytes)`. -/
def lowerHex (b : Bytes) : Str := b.flatMap hexByte

/-- `sha256_hex` of the crate: the digest of one buffer in lower-case hexadecimal. -/
def sha256Hex (D : Digest) (b : Bytes) : Str := lowerHex (D.finalize (D.update D.new b))

namespace Sha256

def roundConstants : List UInt32 := [
  0x428a2f98, 0x71374491, 0xb5c0fbcf, 0xe9b5dba5, 0x3956c25b, 0x59f111f1, 0x923f82a4, 0xab1c5ed5,
  0xd807aa98, 0x12835b01, 0x243185be, 0x550c7dc3, 0x72be5d74, 0x80deb1fe, 0x9bdc06a7, 0xc19bf174,
  0xe49b69c1, 0xefbe4786, 0x0fc19dc6, 0x240ca1cc, 0x2de92c6f, 0x4a7484aa, 0x5cb0a9dc, 0x76f988da,
  0x983e5152, 0xa831c66d, 0xb00327c8, 0xbf597fc7, 0xc6e00bf3, 0xd5a79147, 0x06ca6351, 0x14292967,
  0x27b70a85, 0x2e1b2138, 0x4d2c6dfc, 0x53380d13, 0x650a7354, 0x766a0abb, 0x81c2c92e, 0x92722c85,
  0xa2bfe8a1, 0xa81a664b, 0xc24b8b70, 0xc76c51a3, 0xd192e819, 0xd6990624, 0xf40e3585, 0x106aa070,
  0x19a4c116, 0x1e376c08, 0x2748774c, 0x34b0bcb5, 0x391c0cb3, 0x4ed8aa4a, 0x5b9cca4f, 0x682e6ff3,
  0x748f82ee, 0x78a5636f, 0x84c87814, 0x8cc70208, 0x90befffa, 0xa4506ceb, 0xbef9a3f7, 0xc67178f2]

/-- The eight working words. -/
structure Words where
  (a b c d e f g h : UInt32)

def initial : Words :=
  ⟨0x6a09e667, 0xbb67ae85, 0x3c6ef372, 0xa54ff53a, 0x510e527f, 0x9b05688c, 0x1f83d9ab, 0x5be0cd19⟩

def rotr (x n : UInt32) : UInt32 := (x >>> n) ||| (x <<< (32 - n))

/-- Extend the message schedule by `n` words; the newest word is at the head. -/
def schedule : ℕ → List UInt32 → List UInt32
  | 0, w => w
  | n + 1, w =>
    let x := w.getD 1 0
    let y := w.getD 14 0
    let s1 := rotr x 17 ^^^ rotr x 19 ^^^ (x >>> 10)
    let s0 := rotr y 7 ^^^ rotr y 18 ^^^ (y >>> 3)
    schedule n ((s1 + w.getD 6 0 + s0 + w.getD 15 0) :: w)

def round (s : Words) (kw : UInt32 × UInt32) : Words :=
  let t1 := s.h + (rotr s.e 6 ^^^ rotr s.e 11 ^^^ rotr s.e 25) +
    ((s.e &&& s.f) ^^^ (~~~s.e &&& s.g)) + kw.1 + kw.2
  let t2 := (rotr s.a 2 ^^^ rotr s.a 13 ^^^ rotr s.a 22) +
    ((s.a &&& s.b) ^^^ (s.a &&& s.c) ^^^ (s.b &&& s.c))
  ⟨t1 + t2, s.a, s.b, s.c, s.d + t1, s.e, s.f, s.g⟩

/-- Big-endian words of a block. -/
def wordsOf : Bytes → List UInt32
  | a :: b :: c :: d :: rest =>
    ((a.toUInt32 <<< 24) ||| (b.toUInt32 <<< 16) ||| (c.toUInt32 <<< 8) ||| d.toUInt32) :: wordsOf rest
  | _ => []

def compress (s : Words) (block : Bytes) : Words :=
  let w := (schedule 48 (wordsOf block).reverse).reverse
  let r := (roundConstants.zip w).foldl round s
  ⟨s.a + r.a, s.b + r.b, s.c + r.c, s.d + r.d, s.e + r.e, s.f + r.f, s.g + r.g, s.h + r.h⟩

def bigEndian (n bytes : ℕ) : Bytes :=
  (List.range bytes).reverse.map (fun i => UInt8.ofNat (n / 256 ^ i))

/-- The message, a one bit, zeros up to a block boundary less eight, and the bit length. -/
def pad (m : Bytes) : Bytes :=
  m ++ 0x80 :: List.replicate ((119 - m.length % 64) % 64) 0 ++ bigEndian (8 * m.length) 8

/-- Compress block after block; the count bounds the number of blocks. -/
def absorb : ℕ → Words → Bytes → Words
  | 0, s, _ => s
  | n + 1, s, m => absorb n (compress s (m.take 64)) (m.drop 64)

def hash (m : Bytes) : Bytes :=
  let p := pad m
  let r := absorb (p.length / 64) initial p
  [r.a, r.b, r.c, r.d, r.e, r.f, r.g, r.h].flatMap (fun x => bigEndian x.toNat 4)

end Sha256

/-- SHA-256 as an incremental digest. -/
def Digest.sha256 : Digest where
  Hasher := Bytes
  new := []
  update := (· ++ ·)
  finalize := Sha256.hash
  update_update := by simp
  finalize_update_nil := by simp

example : sha256Hex Digest.sha256 [0x61, 0x62, 0x63] =
    "ba7816bf8f01cfea414140de5dae2223b00361a396177a9cb410ff61f20015ad".toList := by
  decide +kernel

end GraphqlOrmStorage
