import Mathlib

/-!
# SHA-256 and RSASSA-PKCS1-v1_5

SHA-256 as FIPS 180-4 defines it, over octet strings, and the verification of an
RSASSA-PKCS1-v1_5 signature (RFC 8017, 8.2.2) under a public key given as the octets of its
exponent and modulus, as RFC 3110 stores them. Words are natural numbers below `2 ^ 32`, every
operation reduced modulo `2 ^ 32`; every recursion is structural, so that a digest or a
verification on given octets is computed by `decide`.
-/

namespace Sha256

/-- The round constants, FIPS 180-4 4.2.2. -/
def roundConstants : List ℕ := [
  0x428a2f98, 0x71374491, 0xb5c0fbcf, 0xe9b5dba5, 0x3956c25b, 0x59f111f1,
  0x923f82a4, 0xab1c5ed5, 0xd807aa98, 0x12835b01, 0x243185be, 0x550c7dc3,
  0x72be5d74, 0x80deb1fe, 0x9bdc06a7, 0xc19bf174, 0xe49b69c1, 0xefbe4786,
  0x0fc19dc6, 0x240ca1cc, 0x2de92c6f, 0x4a7484aa, 0x5cb0a9dc, 0x76f988da,
  0x983e5152, 0xa831c66d, 0xb00327c8, 0xbf597fc7, 0xc6e00bf3, 0xd5a79147,
  0x06ca6351, 0x14292967, 0x27b70a85, 0x2e1b2138, 0x4d2c6dfc, 0x53380d13,
  0x650a7354, 0x766a0abb, 0x81c2c92e, 0x92722c85, 0xa2bfe8a1, 0xa81a664b,
  0xc24b8b70, 0xc76c51a3, 0xd192e819, 0xd6990624, 0xf40e3585, 0x106aa070,
  0x19a4c116, 0x1e376c08, 0x2748774c, 0x34b0bcb5, 0x391c0cb3, 0x4ed8aa4a,
  0x5b9cca4f, 0x682e6ff3, 0x748f82ee, 0x78a5636f, 0x84c87814, 0x8cc70208,
  0x90befffa, 0xa4506ceb, 0xbef9a3f7, 0xc67178f2]

/-- The initial hash value, FIPS 180-4 5.3.3. -/
def initialHash : List ℕ :=
  [0x6a09e667, 0xbb67ae85, 0x3c6ef372, 0xa54ff53a, 0x510e527f, 0x9b05688c, 0x1f83d9ab,
    0x5be0cd19]

/-! ## The functions of 4.1.2 on 32-bit words -/

def rotr (n x : ℕ) : ℕ := (x >>> n ||| x <<< (32 - n)) % 2 ^ 32

def ch (x y z : ℕ) : ℕ := (x &&& y) ^^^ ((x ^^^ 0xffffffff) &&& z)

def maj (x y z : ℕ) : ℕ := (x &&& y) ^^^ (x &&& z) ^^^ (y &&& z)

def bigSigma0 (x : ℕ) : ℕ := rotr 2 x ^^^ rotr 13 x ^^^ rotr 22 x

def bigSigma1 (x : ℕ) : ℕ := rotr 6 x ^^^ rotr 11 x ^^^ rotr 25 x

def smallSigma0 (x : ℕ) : ℕ := rotr 7 x ^^^ rotr 18 x ^^^ x >>> 3

def smallSigma1 (x : ℕ) : ℕ := rotr 17 x ^^^ rotr 19 x ^^^ x >>> 10

/-! ## Blocks -/

/-- The big-endian words of four octets. -/
def words : List UInt8 → List ℕ
  | a :: b :: c :: d :: rest =>
    (((a.toNat * 256 + b.toNat) * 256 + c.toNat) * 256 + d.toNat) :: words rest
  | _ => []

/-- The message schedule of 6.2.2 step 1, newest word first: `n` more words after the block's
sixteen, each from the words 2, 7, 15 and 16 places back. -/
def scheduleRev (w : List ℕ) : ℕ → List ℕ
  | 0 => w
  | n + 1 =>
    let w' := scheduleRev w n
    (smallSigma1 (w'.getD 1 0) + w'.getD 6 0 + smallSigma0 (w'.getD 14 0) + w'.getD 15 0) % 2 ^ 32
      :: w'

/-- The working variables `a` to `h`. -/
structure Vars where
  a : ℕ
  b : ℕ
  c : ℕ
  d : ℕ
  e : ℕ
  f : ℕ
  g : ℕ
  h : ℕ

/-- One of the 64 rounds of 6.2.2 step 3, with its constant and schedule word. -/
def round (v : Vars) (kw : ℕ × ℕ) : Vars :=
  let t1 := (v.h + bigSigma1 v.e + ch v.e v.f v.g + kw.1 + kw.2) % 2 ^ 32
  let t2 := (bigSigma0 v.a + maj v.a v.b v.c) % 2 ^ 32
  ⟨(t1 + t2) % 2 ^ 32, v.a, v.b, v.c, (v.d + t1) % 2 ^ 32, v.e, v.f, v.g⟩

/-- The compression of one block of sixteen words into the hash value, 6.2.2. -/
def compress (hv block : List ℕ) : List ℕ :=
  let v := (roundConstants.zip (scheduleRev block.reverse 48).reverse).foldl round
    ⟨hv.getD 0 0, hv.getD 1 0, hv.getD 2 0, hv.getD 3 0, hv.getD 4 0, hv.getD 5 0,
      hv.getD 6 0, hv.getD 7 0⟩
  List.zipWith (fun x y => (x + y) % 2 ^ 32) hv [v.a, v.b, v.c, v.d, v.e, v.f, v.g, v.h]

/-- The padding of 5.1.1: a one bit, zeros, and the length in bits as 64 bits. -/
def padding (m : List UInt8) : List UInt8 :=
  m ++ 0x80 :: List.replicate ((64 - (m.length + 9) % 64) % 64) 0 ++
    (List.range 8).reverse.map fun i => (m.length * 8 / 256 ^ i).toUInt8

/-- The hash value after `n` blocks of 64 octets. -/
def blocks : ℕ → List ℕ → List UInt8 → List ℕ
  | 0, hv, _ => hv
  | n + 1, hv, m => blocks n (compress hv (words (m.take 64))) (m.drop 64)

/-- The digest: 32 octets. -/
def hash (m : List UInt8) : List UInt8 :=
  let p := padding m
  (blocks (p.length / 64) initialHash p).flatMap fun w =>
    [(w / 2 ^ 24).toUInt8, (w / 2 ^ 16).toUInt8, (w / 2 ^ 8).toUInt8, w.toUInt8]

example : hash [97, 98, 99] =
    [0xba, 0x78, 0x16, 0xbf, 0x8f, 0x01, 0xcf, 0xea, 0x41, 0x41, 0x40, 0xde, 0x5d, 0xae, 0x22,
      0x23, 0xb0, 0x03, 0x61, 0xa3, 0x96, 0x17, 0x7a, 0x9c, 0xb4, 0x10, 0xff, 0x61, 0xf2, 0x00,
      0x15, 0xad] := by
  decide +kernel

end Sha256

namespace Pkcs1

/-- OS2IP: the integer of big-endian octets. -/
def os2ip (s : List UInt8) : ℕ := s.foldl (fun acc x => acc * 256 + x.toNat) 0

/-- The bits of big-endian octets, most significant first. -/
def octetBits (e : List UInt8) : List Bool :=
  e.flatMap fun x => (List.range 8).reverse.map fun i => x.toNat.testBit i

/-- Left-to-right square-and-multiply modulo `n` over the bits of an exponent. -/
def powModBits (n b : ℕ) : ℕ → List Bool → ℕ
  | acc, [] => acc
  | acc, bit :: bits =>
    powModBits n b (if bit then acc * acc % n * b % n else acc * acc % n) bits

/-- `b ^ e % n`, the exponent given by its octets. -/
def powMod (n b : ℕ) (e : List UInt8) : ℕ := powModBits n (b % n) (1 % n) (octetBits e)

/-- The DER prefix of a SHA-256 `DigestInfo`, RFC 8017 9.2 note 1. -/
def sha256DigestInfo : List UInt8 :=
  [0x30, 0x31, 0x30, 0x0d, 0x06, 0x09, 0x60, 0x86, 0x48, 0x01, 0x65, 0x03, 0x04, 0x02, 0x01,
    0x05, 0x00, 0x04, 0x20]

/-- EMSA-PKCS1-v1_5 of the encoded digest `t` into `k` octets, RFC 8017 9.2 step 5. -/
def emsa (k : ℕ) (t : List UInt8) : List UInt8 :=
  [0x00, 0x01] ++ List.replicate (k - t.length - 3) 0xff ++ 0x00 :: t

/-- RSASSA-PKCS1-V1_5-VERIFY, RFC 8017 8.2.2, of a signature over a message whose encoded digest
is `t`, under the public key of exponent octets `e` and modulus octets `n`. -/
def verify (e n t sig : List UInt8) : Bool :=
  let k := n.length
  let s := os2ip sig
  sig.length == k && decide (t.length + 11 ≤ k) && decide (s < os2ip n) &&
    powMod (os2ip n) s e == os2ip (emsa k t)

end Pkcs1
