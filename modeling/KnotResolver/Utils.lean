import Mathlib
import KnotResolver.Lib.BitString
import KnotResolver.Dname

/-!
# Bit prefixes of addresses

`kr_bitcmp` and `kr_bitmask` of `lib/utils.c`: the comparison of two addresses on their first
bits, and the clearing of the bits past a prefix. Both are read through the bits of the octet
strings (`BitString.ofBytes`): `kr_bitcmp` is zero exactly when the prefixes agree, and
`kr_bitmask` keeps the prefix.

`kr_bitcmp` compares the last, partial octet as `*a >> shift` on a `char`, which may be signed;
that changes the sign of a nonzero result but not whether it is zero, the only use its callers
make of it, and the model shifts the octet as unsigned.
-/

namespace KnotResolver

open BitString

/-- `kr_bitcmp`: the first `bits` bits of `a` and `b`, the whole octets by `memcmp` and then
the top bits of the next octet. -/
def krBitcmp (a b : List UInt8) (bits : ℤ) : ℤ :=
  if bits ≤ 0 then 0
  else
    let chunk := bits.toNat / 8
    match memcmp a b chunk with
    | .lt => -1
    | .gt => 1
    | .eq =>
      let rest := bits.toNat - chunk * 8
      if 0 < rest then
        (((a.getD chunk 0).toNat >>> (8 - rest) : ℕ) : ℤ) -
          (((b.getD chunk 0).toNat >>> (8 - rest) : ℕ) : ℤ)
      else 0

/-- The mask of `kr_bitmask` for the octet a prefix of `bits` bits ends in; `0xFF << 8` cut to an
octet is zero, so a prefix of whole octets clears the next one. -/
def krBitmaskMask (bits : ℕ) : UInt8 := (0xFF <<< (8 - bits % 8) : ℕ).toUInt8

/-- `kr_bitmask`: the bits of `a` past the first `bits` cleared. -/
def krBitmask (a : List UInt8) (bits : ℤ) : List UInt8 :=
  if bits < 0 ∨ a = [] then a
  else
    let i := bits.toNat / 8
    a.mapIdx fun j x => if j < i then x else if j = i then x &&& krBitmaskMask bits.toNat else 0

/-! ## `memcmp` on a prefix -/

theorem memcmp_eq_eq_iff_take {n : ℕ} : ∀ {a b : List UInt8}, n ≤ a.length → n ≤ b.length →
    (memcmp a b n = .eq ↔ a.take n = b.take n) := by
  induction n with
  | zero =>
    intro a b _ _
    cases a <;> cases b <;> simp [memcmp]
  | succ n ih =>
    intro a b ha hb
    obtain ⟨x, a, rfl⟩ := List.exists_cons_of_length_pos (by omega : 0 < a.length)
    obtain ⟨y, b, rfl⟩ := List.exists_cons_of_length_pos (by omega : 0 < b.length)
    simp only [List.length_cons, Nat.add_le_add_iff_right] at ha hb
    simp only [memcmp, List.take_succ_cons, List.cons.injEq, ← UInt8.toNat_inj]
    -- the first octets decide unless they are equal
    rcases lt_trichotomy x.toNat y.toNat with h | h | h
    · simp [compare_lt_iff_lt.mpr h, h.ne]
    · simp [h, ih ha hb]
    · simp [compare_gt_iff_gt.mpr h, h.ne']

/-! ## `kr_bitcmp` compares prefixes -/

/-- `kr_bitcmp` is zero exactly when the first `bits` bits agree. -/
theorem krBitcmp_eq_zero_iff {a b : List UInt8} {bits : ℕ} (ha : bits ≤ 8 * a.length)
    (hb : bits ≤ 8 * b.length) :
    krBitcmp a b bits = 0 ↔ (ofBytes a).take bits = (ofBytes b).take bits := by
  rcases Nat.eq_zero_or_pos bits with rfl | hpos
  · simp [krBitcmp]
  -- whole octets `q`, then `r` bits of the next one
  obtain ⟨q, r, hr8, rfl⟩ : ∃ q r, r < 8 ∧ bits = 8 * q + r :=
    ⟨bits / 8, bits % 8, Nat.mod_lt _ (by norm_num), (Nat.div_add_mod bits 8).symm⟩
  have hq : (8 * q + r) / 8 = q := by omega
  have hrest : 8 * q + r - q * 8 = r := by omega
  have hmem := memcmp_eq_eq_iff_take (a := a) (b := b) (n := q) (by omega) (by omega)
  simp only [krBitcmp, Int.toNat_natCast, hq, hrest, show ¬ ((8 * q + r : ℕ) : ℤ) ≤ 0 by omega,
    if_false]
  rcases Nat.eq_zero_or_pos r with rfl | hr
  -- a prefix of whole octets: memcmp alone
  · rw [Nat.add_zero, take_ofBytes_mul, take_ofBytes_mul, ofBytes_injective.eq_iff, ← hmem]
    rcases hm : memcmp a b q <;> simp
  -- the prefix ends inside the next octet, which both strings have
  · have ha' : q < a.length := by omega
    have hb' : q < b.length := by omega
    rw [take_ofBytes_eq_iff ha' hb' (by omega), take_ofByte_eq_iff, ← hmem,
      List.getD_eq_getElem _ _ ha', List.getD_eq_getElem _ _ hb', Nat.shiftRight_eq_div_pow,
      Nat.shiftRight_eq_div_pow]
    rcases hm : memcmp a b q <;> simp only [if_pos hr, sub_eq_zero, Nat.cast_inj, true_and] <;>
      simp

/-! ## `kr_bitmask` keeps the prefix -/

/-- The mask sets the top `r` bits, so it keeps them. -/
theorem take_ofByte_and_krBitmaskMask (x : UInt8) {bits : ℕ} (hr : 0 < bits % 8) :
    (ofByte (x &&& krBitmaskMask bits)).take (bits % 8) = (ofByte x).take (bits % 8) := by
  have hidx : ∀ r ≤ 8, ∀ i ∈ ((List.range 8).reverse.take r), 8 - r ≤ i ∧ i < 8 := by decide
  simp only [ofByte, ← List.map_take]
  apply List.map_congr_left
  intro i hi
  obtain ⟨hlo, hhi⟩ := hidx _ (by omega) i hi
  have hmask : (krBitmaskMask bits).toNat.testBit i = true := by
    have htoNat : (krBitmaskMask bits).toNat = (255 <<< (8 - bits % 8)) % 2 ^ 8 := by
      simp [krBitmaskMask, Nat.toUInt8]
    rw [htoNat, Nat.testBit_mod_two_pow, Nat.testBit_shiftLeft,
      show (255 : ℕ) = 2 ^ 8 - 1 by rfl, Nat.testBit_two_pow_sub_one]
    simp only [Bool.and_eq_true, decide_eq_true_eq]
    omega
  rw [UInt8.toNat_and, Nat.testBit_and, hmask, Bool.and_true]

@[simp] theorem length_krBitmask (a : List UInt8) (bits : ℤ) :
    (krBitmask a bits).length = a.length := by
  unfold krBitmask
  split_ifs <;> simp

/-- The first `i` octets, all before the one the prefix ends in, are kept. -/
theorem take_krBitmask_of_le {a : List UInt8} {bits : ℕ} {i : ℕ} (hi : i ≤ bits / 8) :
    (krBitmask a bits).take i = a.take i := by
  unfold krBitmask
  split_ifs with h
  · rfl
  · apply List.ext_getElem (by simp)
    intro j hj _
    simp only [List.length_take, List.length_mapIdx, lt_min_iff] at hj
    simp [List.getElem_take, show j < bits / 8 by omega]

/-- `kr_bitmask` keeps the first `bits` bits. -/
theorem take_ofBytes_krBitmask {a : List UInt8} {bits : ℕ} (hbits : bits ≤ 8 * a.length) :
    (ofBytes (krBitmask a bits)).take bits = (ofBytes a).take bits := by
  -- whole octets `q`, then `r` bits of the next one
  obtain ⟨q, r, hr8, hqr⟩ : ∃ q r, r < 8 ∧ bits = 8 * q + r :=
    ⟨bits / 8, bits % 8, Nat.mod_lt _ (by norm_num), (Nat.div_add_mod bits 8).symm⟩
  have hkeep : (krBitmask a bits).take q = a.take q := take_krBitmask_of_le (by omega)
  rw [congrArg (@List.take Bool) hqr]
  rcases Nat.eq_zero_or_pos r with rfl | hr
  · rw [Nat.add_zero, take_ofBytes_mul, take_ofBytes_mul, hkeep]
  · have hi : q < a.length := by omega
    have hi' : q < (krBitmask a bits).length := by simpa using hi
    have hne : a ≠ [] := List.ne_nil_of_length_pos (by omega)
    have hlast : (krBitmask a bits)[q] = a[q] &&& krBitmaskMask bits := by
      have hcond : ¬ ((bits : ℤ) < 0 ∨ a = []) := by
        rintro (h | h)
        · omega
        · exact hne h
      simp [krBitmask, hcond, show bits / 8 = q by omega]
    have hmod : bits % 8 = r := by omega
    rw [take_ofBytes hi' hr8.le, take_ofBytes hi hr8.le, hkeep, hlast, ← hmod,
      take_ofByte_and_krBitmaskMask _ (by omega)]

end KnotResolver
