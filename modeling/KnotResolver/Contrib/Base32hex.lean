import Mathlib

/-!
# Base32hex decoding

`contrib/base32hex.c`: `base32hex_decode`, which `read_owner_hash` of `lib/dnssec/nsec3.c`
applies to the first label of an NSEC3 owner. Input is taken eight characters at a time, each
group giving five octets, fewer when it ends in padding. The padding length is one variable
of the whole loop, so that a group after a padded one is decoded with the padding length the
previous group left, as the source does.
-/

namespace KnotResolver

/-- `KO`: the table's mark of a byte outside the alphabet. -/
def base32hexKo : UInt8 := 255

/-- `PD`: the table's mark of the padding character `=`. -/
def base32hexPd : UInt8 := 32

/-- `base32hex_dec`: digits, then the letters `a`..`v` of either case, stand for 0..31. -/
def base32hexDec (c : UInt8) : UInt8 :=
  if 48 ≤ c ∧ c ≤ 57 then c - 48
  else if 97 ≤ c ∧ c ≤ 118 then c - 87
  else if 65 ≤ c ∧ c ≤ 86 then c - 55
  else if c = 61 then base32hexPd
  else base32hexKo

/-- The checks of one group of decoded characters, from the eighth to the first: the padding
length after them, or `none` where the source returns `-1`. -/
def base32hexPadding (padLen c1 c2 c3 c4 c5 c6 c7 c8 : UInt8) : Option UInt8 := do
  let pd := base32hexPd
  let p ← if c8 ≥ pd then (if c8 = pd ∧ padLen = 0 then some 1 else none) else some padLen
  -- a padded seventh character needs a padded sixth one
  let p ← if c7 ≥ pd then (if c7 = pd ∧ c6 = pd ∧ p = 1 then some 3 else none) else some p
  let p ← if c6 ≥ pd ∧ ¬ (c6 = pd ∧ p = 3) then none else some p
  let p ← if c5 ≥ pd then (if c5 = pd ∧ p = 3 then some 4 else none) else some p
  let p ← if c4 ≥ pd then (if c4 = pd ∧ c3 = pd ∧ p = 4 then some 6 else none) else some p
  let p ← if c3 ≥ pd ∧ ¬ (c3 = pd ∧ p = 6) then none else some p
  if c2 ≥ pd ∨ c1 ≥ pd then none else some p

/-- The octets one group writes: five, one fewer for each step of padding (the fall-through
`switch` of the source). -/
def base32hexOctets (padLen c1 c2 c3 c4 c5 c6 c7 c8 : UInt8) : List UInt8 :=
  let b0 := (c1 <<< 3) + (c2 >>> 2)
  let b1 := (c2 <<< 6) + (c3 <<< 1) + (c4 >>> 4)
  let b2 := (c4 <<< 4) + (c5 >>> 1)
  let b3 := (c5 <<< 7) + (c6 <<< 2) + (c7 >>> 3)
  let b4 := (c7 <<< 5) + c8
  match padLen.toNat with
  | 0 => [b0, b1, b2, b3, b4]
  | 1 => [b0, b1, b2, b3]
  | 3 => [b0, b1, b2]
  | 4 => [b0, b1]
  | 6 => [b0]
  | _ => []

/-- The decoding loop over groups of eight characters. -/
def base32hexDecodeLoop : List UInt8 → UInt8 → Option (List UInt8)
  | i1 :: i2 :: i3 :: i4 :: i5 :: i6 :: i7 :: i8 :: rest, padLen => do
    let c1 := base32hexDec i1
    let c2 := base32hexDec i2
    let c3 := base32hexDec i3
    let c4 := base32hexDec i4
    let c5 := base32hexDec i5
    let c6 := base32hexDec i6
    let c7 := base32hexDec i7
    let c8 := base32hexDec i8
    let p ← base32hexPadding padLen c1 c2 c3 c4 c5 c6 c7 c8
    let out ← base32hexDecodeLoop rest p
    pure (base32hexOctets p c1 c2 c3 c4 c5 c6 c7 c8 ++ out)
  -- `in == stop`: the length was checked to be a multiple of eight
  | _, _ => some []

/-- `base32hex_decode` into a buffer of `outLen` octets: the octets written, `none` for `-1`. -/
def base32hexDecode (input : List UInt8) (outLen : ℕ) : Option (List UInt8) :=
  if input.length > 2 ^ 31 - 1 ∨ outLen < (input.length + 7) / 8 * 5 then none
  else if input.length % 8 ≠ 0 then none
  else base32hexDecodeLoop input 0

theorem length_base32hexOctets_le (padLen c1 c2 c3 c4 c5 c6 c7 c8 : UInt8) :
    (base32hexOctets padLen c1 c2 c3 c4 c5 c6 c7 c8).length ≤ 5 := by
  unfold base32hexOctets
  split <;> simp

/-- Each group of eight characters writes at most five octets. -/
theorem length_base32hexDecodeLoop_le {input out : List UInt8} {padLen : UInt8}
    (h : base32hexDecodeLoop input padLen = some out) : out.length ≤ input.length / 8 * 5 := by
  induction input, padLen using base32hexDecodeLoop.induct generalizing out with
  | case1 i1 i2 i3 i4 i5 i6 i7 i8 rest padLen ih =>
    simp only [base32hexDecodeLoop, Option.bind_eq_bind, Option.bind_eq_some_iff,
      Option.pure_def, Option.some.injEq] at h
    obtain ⟨p, -, rout, hrest, rfl⟩ := h
    have hgroup := length_base32hexOctets_le p (base32hexDec i1) (base32hexDec i2)
      (base32hexDec i3) (base32hexDec i4) (base32hexDec i5) (base32hexDec i6)
      (base32hexDec i7) (base32hexDec i8)
    have hrest' := ih _ hrest
    simp only [List.length_append, List.length_cons]
    omega
  | case2 input padLen hnot =>
    rw [base32hexDecodeLoop.eq_2 _ _ hnot] at h
    cases h
    simp

/-- `base32hex_decode` never writes past the end of its output buffer. -/
theorem length_base32hexDecode_le {input out : List UInt8} {outLen : ℕ}
    (h : base32hexDecode input outLen = some out) : out.length ≤ outLen := by
  unfold base32hexDecode at h
  split_ifs at h with hbad hmod
  have hloop := length_base32hexDecodeLoop_le h
  have hcap : input.length / 8 * 5 ≤ (input.length + 7) / 8 * 5 :=
    Nat.mul_le_mul_right 5 (Nat.div_le_div_right (by omega))
  omega

end KnotResolver
