import KnotResolver.Lib.BitString
import KnotResolver.RRset

/-!
# Subnet keys of the rule database

`lib/rules/api.c`: `subnet_encode`, which turns a subnet into the key under which the rules
of views are stored, so that LMDB's lexicographic order on keys can be searched for the most
specific subnet of an address. The comment above the function gives the design: every
address bit within the prefix becomes the pair `1b`, every bit past it `00`, and the key
stops after the address octet in which the prefix ends. It promises four properties: full
addresses keep their order, equal keys mean equal subnets, an ancestor comes before its
descendants, and disjoint subnets do not interleave.

`subnetBits` is that design as a bit string. `subnetEncodeLoop_eq` shows that the loop of the
source, with its multiplication trick and its clipping mask, computes the octets of it; the
properties are proved on bit strings and carried to octets by `BitString.pack_lt_pack_iff`.
-/

namespace KnotResolver

open BitString

/-- An address as `kr_inaddr` and `kr_inaddr_len` give it: the four octets of IPv4 or the
sixteen of IPv6. -/
structure InAddr where
  bytes : List UInt8
  length_eq : bytes.length = 4 ∨ bytes.length = 16

/-! ## The source -/

/-- An address octet spread over the even bits of a 16-bit word by the multiplication trick,
with every odd bit set: the `r` of `subnet_encode` before clipping. -/
def subnetInterleave (x : UInt8) : UInt16 :=
  ((((x.toUInt64 * 0x0101010101010101) &&& 0x8040201008040201) * 0x0102040810204081) >>> 49 |||
    0xAAAA).toUInt16

/-- The mask that clears the pairs past the prefix in the last address octet:
`0xFFFFffffU << (2 * (8 - sub_len))`, cut to the `uint16_t` it is stored in. -/
def subnetClipMask (subLen : ℤ) : UInt16 :=
  ((0xFFFFFFFF : UInt32) <<< (2 * (8 - subLen)).toNat.toUInt32).toUInt16

/-- The body of the loop of `subnet_encode`: the two key octets of one address octet with
`subLen` prefix bits left. -/
def subnetEncodeOctets (x : UInt8) (subLen : ℤ) : List UInt8 :=
  let r := subnetInterleave x
  let r := if subLen < 8 then r &&& subnetClipMask subLen else r
  [(r / 256).toUInt8, (r % 256).toUInt8]

/-- The loop of `subnet_encode`, while prefix bits are left. -/
def subnetEncodeLoop : List UInt8 → ℤ → List UInt8
  | x :: rest, subLen =>
    if 0 < subLen then subnetEncodeOctets x subLen ++ subnetEncodeLoop rest (subLen - 8) else []
  | [], _ => []

/-- `subnet_encode`: the key of the subnet of `addr` with `subLen` bits of prefix, or the
error of the assertion on `subLen`. -/
def subnetEncode (addr : InAddr) (subLen : ℤ) : Except ℤ (List UInt8) :=
  if subLen < 0 ∨ 8 * (addr.bytes.length : ℤ) < subLen then .error (krError Errno.einval)
  else .ok (subnetEncodeLoop addr.bytes subLen)

/-! ## The design -/

/-- Each bit `b` of a prefix written as the pair `1b`. -/
def prefixPairs (bs : List Bool) : List Bool := bs.flatMap fun b => [true, b]

/-- The key of the subnet of `a` with `p` bits of prefix, as the design comment describes it:
the pairs of the prefix, then `00` for each remaining bit of the octet it ends in. -/
def subnetBits (a : List UInt8) (p : ℕ) : List Bool :=
  prefixPairs ((ofBytes a).take p) ++ List.replicate (2 * (8 * ((p + 7) / 8) - p)) false

/-- `x` lies in the subnet of `a` with `p` bits of prefix. -/
def InSubnet (x a : InAddr) (p : ℕ) : Prop := (ofBytes x.bytes).take p = (ofBytes a.bytes).take p

instance decidableInSubnet (x a : InAddr) (p : ℕ) : Decidable (InSubnet x a p) :=
  inferInstanceAs (Decidable (_ = _))

@[simp] theorem prefixPairs_nil : prefixPairs [] = [] := rfl

@[simp] theorem prefixPairs_cons (b : Bool) (bs : List Bool) :
    prefixPairs (b :: bs) = true :: b :: prefixPairs bs := rfl

@[simp] theorem prefixPairs_append (u v : List Bool) :
    prefixPairs (u ++ v) = prefixPairs u ++ prefixPairs v := by
  simp [prefixPairs]

@[simp] theorem length_prefixPairs (bs : List Bool) : (prefixPairs bs).length = 2 * bs.length := by
  induction bs with
  | nil => rfl
  | cons b bs ih => simp [ih]; omega

theorem length_subnetBits {a : List UInt8} {p : ℕ} (hp : p ≤ 8 * a.length) :
    (subnetBits a p).length = 16 * ((p + 7) / 8) := by
  have htake : ((ofBytes a).take p).length = p := by simp; omega
  simp only [subnetBits, List.length_append, length_prefixPairs, htake, List.length_replicate]
  omega

theorem length_subnetBits_mod {a : List UInt8} {p : ℕ} (hp : p ≤ 8 * a.length) :
    (subnetBits a p).length % 8 = 0 := by
  rw [length_subnetBits hp]
  omega

/-! ## The loop computes the design -/

/-- For one address octet and each number of prefix bits left in it, the two octets of the
loop body are those of the design. -/
theorem subnetEncodeOctets_eq_pack : ∀ x : UInt8, ∀ s : Fin 8,
    subnetEncodeOctets x ((s.val + 1 : ℕ) : ℤ) = pack (subnetBits [x] (s.val + 1)) := by
  decide +kernel

/-- With eight prefix bits or more left, nothing is clipped. -/
theorem subnetEncodeOctets_of_le (x : UInt8) {z : ℤ} (hz : 8 ≤ z) :
    subnetEncodeOctets x z = subnetEncodeOctets x ((7 + 1 : ℕ) : ℤ) := by
  simp [subnetEncodeOctets, not_lt.mpr hz]

/-- The design splits at the first address octet. -/
theorem subnetBits_cons (x : UInt8) (rest : List UInt8) {p : ℕ} (hp : 0 < p) :
    subnetBits (x :: rest) p = subnetBits [x] (min p 8) ++ subnetBits rest (p - 8) := by
  have htake : (ofBytes (x :: rest)).take p =
      (ofByte x).take p ++ (ofBytes rest).take (p - 8) := by
    rw [ofBytes_cons, List.take_append, length_ofByte]
  have hone : ofBytes [x] = ofByte x := by simp [ofBytes]
  by_cases h8 : 8 ≤ p
  · -- the whole octet is in the prefix, with no padding after it
    have hmin : min p 8 = 8 := by omega
    have hpad : 2 * (8 * ((p + 7) / 8) - p) = 2 * (8 * ((p - 8 + 7) / 8) - (p - 8)) := by omega
    rw [hmin]
    simp only [subnetBits, htake, hone, prefixPairs_append, hpad,
      List.take_of_length_le (show (ofByte x).length ≤ p by simp; omega),
      List.take_of_length_le (show (ofByte x).length ≤ 8 by simp)]
    simp
  · -- the prefix ends in this octet, and the rest of the address gives nothing
    have hmin : min p 8 = p := by omega
    have hzero : p - 8 = 0 := by omega
    rw [hmin, hzero]
    simp only [subnetBits, htake, hone, hzero]
    simp

theorem subnetEncodeLoop_of_nonpos (a : List UInt8) {z : ℤ} (hz : z ≤ 0) :
    subnetEncodeLoop a z = [] := by
  cases a with
  | nil => rfl
  | cons x rest => simp [subnetEncodeLoop, not_lt.mpr hz]

/-- The octets of the loop body for the first address octet, whatever is left after it. -/
theorem subnetEncodeOctets_eq_pack_min (x : UInt8) (p : ℕ) :
    subnetEncodeOctets x ((p + 1 : ℕ) : ℤ) = pack (subnetBits [x] (min (p + 1) 8)) := by
  by_cases h8 : p < 8
  · rw [Nat.min_eq_left (by omega)]
    exact subnetEncodeOctets_eq_pack x ⟨p, h8⟩
  · rw [Nat.min_eq_right (by omega), subnetEncodeOctets_of_le x (by omega)]
    exact subnetEncodeOctets_eq_pack x ⟨7, by omega⟩

/-- The loop of the source computes the octets of the design. -/
theorem subnetEncodeLoop_eq : ∀ (a : List UInt8) (p : ℕ), p ≤ 8 * a.length →
    subnetEncodeLoop a p = pack (subnetBits a p)
  | [], p, hp => by
    obtain rfl : p = 0 := by simpa using hp
    rfl
  | x :: rest, 0, _ => by
    rw [subnetEncodeLoop_of_nonpos _ (by simp)]
    rfl
  | x :: rest, p + 1, hp => by
    have hlen : p + 1 ≤ 8 * (rest.length + 1) := by simpa using hp
    -- the `sub_len - 8` of the next round, as a natural number
    have hsub : subnetEncodeLoop rest (((p + 1 : ℕ) : ℤ) - 8) =
        subnetEncodeLoop rest ((p + 1 - 8 : ℕ) : ℤ) := by
      by_cases h8 : 8 ≤ p + 1
      · congr 1
        omega
      · rw [subnetEncodeLoop_of_nonpos _ (by omega), subnetEncodeLoop_of_nonpos _ (by omega)]
    have hfirst : (subnetBits [x] (min (p + 1) 8)).length % 8 = 0 :=
      length_subnetBits_mod (by simp)
    rw [subnetEncodeLoop, if_pos (by omega), hsub, subnetEncodeLoop_eq rest _ (by omega),
      subnetEncodeOctets_eq_pack_min, subnetBits_cons x rest (by omega), pack_append hfirst]

theorem subnetEncode_eq_ok (a : InAddr) {p : ℕ} (hp : p ≤ 8 * a.bytes.length) :
    subnetEncode a p = .ok (pack (subnetBits a.bytes p)) := by
  rw [subnetEncode, if_neg (by omega), subnetEncodeLoop_eq a.bytes p hp]

/-! ## The key properties, on bit strings -/

section Order

/-- Pairs keep the lexicographic order of the bits they write. -/
theorem prefixPairs_lt_prefixPairs_iff : ∀ {u v : List Bool}, prefixPairs u < prefixPairs v ↔ u < v
  | [], [] => by simp
  | [], _ :: _ => by simp [List.nil_lt_cons]
  | _ :: _, [] => by simp [List.not_lt_nil]
  | b :: u, c :: v => by
    simp only [prefixPairs_cons, List.cons_lt_cons_iff, prefixPairs_lt_prefixPairs_iff]
    simp

/-- A subnet comes before the subnets its prefix is extended to: the pairs it shares with them
are followed in it by `00` or by nothing, in them by `1b`. -/
theorem prefixPairs_append_replicate_lt (u : List Bool) (k : ℕ) (b : Bool) (w s : List Bool) :
    prefixPairs u ++ List.replicate k false < prefixPairs (u ++ b :: w) ++ s := by
  rw [prefixPairs_append, List.append_assoc]
  apply List.append_left_lt
  cases k with
  | zero => exact List.nil_lt_cons ..
  | succ k =>
    rw [List.replicate_succ, prefixPairs_cons, List.cons_append, List.cons_lt_cons_iff]
    exact .inl (by decide)

/-- Where two prefixes part, the one with the zero bit comes first, whatever follows. -/
theorem prefixPairs_diverge_lt (c u v s t : List Bool) :
    prefixPairs (c ++ false :: u) ++ s < prefixPairs (c ++ true :: v) ++ t := by
  rw [prefixPairs_append, prefixPairs_append, List.append_assoc, List.append_assoc]
  apply List.append_left_lt
  simp only [prefixPairs_cons, List.cons_append]
  exact List.cons_lt_cons_iff.mpr (.inr ⟨rfl, List.cons_lt_cons_iff.mpr (.inl (by decide))⟩)

variable {a b : List UInt8} {p q : ℕ}

theorem subnetBits_eq_of_take_eq (h : (ofBytes a).take p = (ofBytes b).take p) :
    subnetBits a p = subnetBits b p := by
  rw [subnetBits, subnetBits, h]

theorem length_take_ofBytes (hp : p ≤ 8 * a.length) : ((ofBytes a).take p).length = p := by
  simp
  omega

/-- A proper prefix of the prefix bits of `b` gives a key before that of `b`. -/
theorem subnetBits_lt_of_extends {b' : Bool} {w : List Bool}
    (h : (ofBytes a).take p ++ b' :: w = (ofBytes b).take q) : subnetBits a p < subnetBits b q := by
  rw [subnetBits, subnetBits, ← h]
  exact prefixPairs_append_replicate_lt _ _ b' w _

/-- Prefix bits that part at a bit give keys in the order of that bit. -/
theorem subnetBits_lt_of_diverge {c u v : List Bool}
    (ha : (ofBytes a).take p = c ++ false :: u) (hb : (ofBytes b).take q = c ++ true :: v) :
    subnetBits a p < subnetBits b q := by
  rw [subnetBits, subnetBits, ha, hb]
  exact prefixPairs_diverge_lt c u v _ _

/-- Equal keys are equal subnets. -/
theorem subnetBits_eq_iff (hp : p ≤ 8 * a.length) (hq : q ≤ 8 * b.length) :
    subnetBits a p = subnetBits b q ↔ p = q ∧ (ofBytes a).take p = (ofBytes b).take p := by
  constructor
  · intro h
    have hne_lt : ∀ {x y : List Bool}, x < y → x = y → False := fun hlt heq =>
      List.lt_irrefl _ (heq ▸ hlt)
    rcases prefix_or_prefix_or_diverge ((ofBytes a).take p) ((ofBytes b).take q) with
      ⟨w, hw⟩ | ⟨w, hw⟩ | ⟨c, e, u, v, hu, hv⟩
    · -- the prefix of `a` extends to that of `b`: it is all of it
      cases w with
      | nil =>
        have hpq : p = q := by
          rw [← length_take_ofBytes hp, ← length_take_ofBytes hq, ← hw, List.append_nil]
        subst hpq
        exact ⟨rfl, by rw [← hw, List.append_nil]⟩
      | cons b' w => exact (hne_lt (subnetBits_lt_of_extends hw) h).elim
    · cases w with
      | nil =>
        have hpq : p = q := by
          rw [← length_take_ofBytes hp, ← length_take_ofBytes hq, ← hw, List.append_nil]
        subst hpq
        exact ⟨rfl, by rw [← hw, List.append_nil]⟩
      | cons b' w => exact (hne_lt (subnetBits_lt_of_extends hw) h.symm).elim
    · cases e with
      | false => exact (hne_lt (subnetBits_lt_of_diverge hu hv) h).elim
      | true => exact (hne_lt (subnetBits_lt_of_diverge hv hu) h.symm).elim
  · rintro ⟨rfl, h⟩
    exact subnetBits_eq_of_take_eq h

/-- The key of a full-length prefix is the pairs of all the bits of the address. -/
theorem subnetBits_full (a : List UInt8) : subnetBits a (8 * a.length) = prefixPairs (ofBytes a) := by
  have hpad : 2 * (8 * ((8 * a.length + 7) / 8) - 8 * a.length) = 0 := by omega
  rw [subnetBits, hpad, List.take_of_length_le (by simp), List.replicate_zero, List.append_nil]

end Order

/-! ## Subnets as sets of addresses -/

section Sets

variable {a b : InAddr} {p q : ℕ}

/-- A subnet that strictly contains another has the shorter prefix, and the other one's prefix
extends it. -/
theorem extends_of_strict_subset (hlen : a.bytes.length = b.bytes.length)
    (hq : q ≤ 8 * a.bytes.length)
    (hsub : ∀ x : InAddr, x.bytes.length = a.bytes.length → InSubnet x b q → InSubnet x a p)
    (hstrict : ∃ x : InAddr, x.bytes.length = a.bytes.length ∧ InSubnet x a p ∧ ¬ InSubnet x b q) :
    ∃ b' w, (ofBytes a.bytes).take p ++ b' :: w = (ofBytes b.bytes).take q := by
  have hba : InSubnet b a p := hsub b hlen.symm rfl
  obtain ⟨x, -, hxa, hxb⟩ := hstrict
  have hpq : p < q := by
    by_contra hqp
    -- with `q ≤ p`, every address of the subnet of `a` would be in that of `b`
    apply hxb
    have h := congrArg (List.take q) (hxa.trans hba.symm)
    rwa [List.take_take, List.take_take, Nat.min_eq_left (by omega)] at h
  have hsplit : (ofBytes b.bytes).take q =
      (ofBytes b.bytes).take p ++ ((ofBytes b.bytes).take q).drop p := by
    have h := List.take_append_drop p ((ofBytes b.bytes).take q)
    rw [List.take_take, Nat.min_eq_left hpq.le] at h
    exact h.symm
  have hrest : ((ofBytes b.bytes).take q).drop p ≠ [] := by
    rw [← List.length_pos_iff_ne_nil, List.length_drop, List.length_take, length_ofBytes]
    omega
  obtain ⟨b', w, hw⟩ := List.exists_cons_of_ne_nil hrest
  exact ⟨b', w, by rw [← hba, hsplit, hw]⟩

/-- Subnets with no address in common have prefixes that part at a bit. -/
theorem diverge_of_disjoint (hlen : a.bytes.length = b.bytes.length) (hp : p ≤ 8 * a.bytes.length)
    (hq : q ≤ 8 * a.bytes.length)
    (hdisj : ∀ x : InAddr, x.bytes.length = a.bytes.length → ¬ (InSubnet x a p ∧ InSubnet x b q)) :
    ∃ c e u v, (ofBytes a.bytes).take p = c ++ e :: u ∧ (ofBytes b.bytes).take q = c ++ (!e) :: v := by
  have hpa : ((ofBytes a.bytes).take p).length = p := length_take_ofBytes hp
  have hqb : ((ofBytes b.bytes).take q).length = q := length_take_ofBytes (by omega)
  rcases prefix_or_prefix_or_diverge ((ofBytes a.bytes).take p) ((ofBytes b.bytes).take q) with
    ⟨w, hw⟩ | ⟨w, hw⟩ | h
  · -- `b` itself would lie in both subnets
    have hle : p ≤ q := by rw [← hpa, ← hqb, ← hw, List.length_append]; omega
    refine absurd ⟨?_, rfl⟩ (hdisj b hlen.symm)
    have h := congrArg (List.take p) hw
    rwa [List.take_append_of_le_length (by omega), List.take_of_length_le (by omega),
      List.take_take, Nat.min_eq_left hle, eq_comm] at h
  · -- `a` itself would lie in both subnets
    have hle : q ≤ p := by rw [← hpa, ← hqb, ← hw, List.length_append]; omega
    refine absurd ⟨rfl, ?_⟩ (hdisj a rfl)
    have h := congrArg (List.take q) hw
    rwa [List.take_append_of_le_length (by omega), List.take_of_length_le (by omega),
      List.take_take, Nat.min_eq_left hle, eq_comm] at h
  · exact h

/-- The bits of an address of a subnet start with the subnet's prefix. -/
theorem ofBytes_eq_of_inSubnet {x : InAddr} (hx : InSubnet x a p) :
    ofBytes x.bytes = (ofBytes a.bytes).take p ++ (ofBytes x.bytes).drop p := by
  rw [← hx, List.take_append_drop]

end Sets

/-! ## The key properties, on keys -/

section Keys

variable {a b : InAddr} {p q : ℕ} {ka kb : List UInt8}

theorem key_eq_pack (hp : p ≤ 8 * a.bytes.length) (h : subnetEncode a p = .ok ka) :
    ka = pack (subnetBits a.bytes p) := by
  rw [subnetEncode_eq_ok a hp] at h
  exact (Except.ok.inj h).symm

/-- The key of the full-length prefix of an address: the pairs of all its bits. -/
theorem fullKey_eq_pack {x : InAddr} {k : List UInt8}
    (h : subnetEncode x (8 * x.bytes.length : ℕ) = .ok k) :
    k = pack (prefixPairs (ofBytes x.bytes)) := by
  rw [key_eq_pack le_rfl h, subnetBits_full]

theorem pack_prefixPairs_lt_iff {u v : List Bool} (hu : u.length % 4 = 0) (hv : v.length % 4 = 0) :
    pack (prefixPairs u) < pack (prefixPairs v) ↔ u < v := by
  rw [pack_lt_pack_iff (by simp; omega) (by simp; omega), prefixPairs_lt_prefixPairs_iff]

/-- Addresses in subnets whose prefixes part at a bit: all of the bits of the one in the
subnet with the zero bit come first. -/
theorem ofBytes_lt_of_diverge {x y : InAddr} {c u v : List Bool}
    (ha : (ofBytes a.bytes).take p = c ++ false :: u) (hb : (ofBytes b.bytes).take q = c ++ true :: v)
    (hx : InSubnet x a p) (hy : InSubnet y b q) : ofBytes x.bytes < ofBytes y.bytes := by
  rw [ofBytes_eq_of_inSubnet hx, ofBytes_eq_of_inSubnet hy, ha, hb, List.append_assoc,
    List.append_assoc]
  apply List.append_left_lt
  exact List.cons_lt_cons_iff.mpr (.inl (by decide))

/-- Where the prefixes of two subnets part, the subnet with the zero bit and every full
address in it come before the other subnet and every full address in that. -/
theorem keys_lt_of_diverge {c u v : List Bool} (hp : p ≤ 8 * a.bytes.length)
    (hq : q ≤ 8 * b.bytes.length) (hka : subnetEncode a p = .ok ka)
    (hkb : subnetEncode b q = .ok kb)
    (ha : (ofBytes a.bytes).take p = c ++ false :: u) (hb : (ofBytes b.bytes).take q = c ++ true :: v) :
    ka < kb ∧ ∀ x y : InAddr, ∀ kx ky : List UInt8, InSubnet x a p → InSubnet y b q →
      subnetEncode x (8 * x.bytes.length : ℕ) = .ok kx →
      subnetEncode y (8 * y.bytes.length : ℕ) = .ok ky → kx < ky := by
  constructor
  · rw [key_eq_pack hp hka, key_eq_pack hq hkb,
      pack_lt_pack_iff (length_subnetBits_mod hp) (length_subnetBits_mod hq)]
    exact subnetBits_lt_of_diverge ha hb
  · intro x y kx ky hx hy hkx hky
    rw [fullKey_eq_pack hkx, fullKey_eq_pack hky,
      pack_prefixPairs_lt_iff (by simp; omega) (by simp; omega)]
    exact ofBytes_lt_of_diverge ha hb hx hy

end Keys

/-- The four properties the comment of \"subnet_encode\" promises, for keys of any prefix
lengths the assertion admits: equal keys are equal subnets; full addresses keep their order;
an ancestor comes first; disjoint subnets do not interleave, and all of the full addresses of
the one come before all of those of the other in the order of the two subnet keys. -/
theorem subnetEncode_key_laws (a b : InAddr) (p q : ℕ) (hp : p ≤ 8 * a.bytes.length)
    (hq : q ≤ 8 * b.bytes.length) (ka kb : List UInt8) (hka : subnetEncode a p = .ok ka)
    (hkb : subnetEncode b q = .ok kb) :
    (ka = kb ↔ p = q ∧ (ofBytes a.bytes).take p = (ofBytes b.bytes).take p) ∧
    (p = 8 * a.bytes.length → q = 8 * b.bytes.length → (ka < kb ↔ a.bytes < b.bytes)) ∧
    (a.bytes.length = b.bytes.length →
      (∀ x : InAddr, x.bytes.length = a.bytes.length → InSubnet x b q → InSubnet x a p) →
      (∃ x : InAddr, x.bytes.length = a.bytes.length ∧ InSubnet x a p ∧ ¬ InSubnet x b q) →
      ka < kb) ∧
    (a.bytes.length = b.bytes.length →
      (∀ x : InAddr, x.bytes.length = a.bytes.length → ¬ (InSubnet x a p ∧ InSubnet x b q)) →
      (ka < kb ∧ ∀ x y : InAddr, ∀ kx ky : List UInt8, InSubnet x a p → InSubnet y b q →
          subnetEncode x (8 * x.bytes.length : ℕ) = .ok kx →
          subnetEncode y (8 * y.bytes.length : ℕ) = .ok ky → kx < ky) ∨
      (kb < ka ∧ ∀ x y : InAddr, ∀ kx ky : List UInt8, InSubnet x a p → InSubnet y b q →
          subnetEncode x (8 * x.bytes.length : ℕ) = .ok kx →
          subnetEncode y (8 * y.bytes.length : ℕ) = .ok ky → ky < kx)) := by
  have hkeys : ka < kb ↔ subnetBits a.bytes p < subnetBits b.bytes q := by
    rw [key_eq_pack hp hka, key_eq_pack hq hkb,
      pack_lt_pack_iff (length_subnetBits_mod hp) (length_subnetBits_mod hq)]
  refine ⟨?_, ?_, ?_, ?_⟩
  · -- equal keys: cutting into octets loses nothing on whole octets
    rw [key_eq_pack hp hka, key_eq_pack hq hkb]
    constructor
    · intro h
      apply (subnetBits_eq_iff hp hq).mp
      exact pack_injective (length_subnetBits_mod hp) (length_subnetBits_mod hq) h
    · intro h
      rw [(subnetBits_eq_iff hp hq).mpr h]
  · -- full addresses
    rintro rfl rfl
    rw [hkeys, subnetBits_full, subnetBits_full, prefixPairs_lt_prefixPairs_iff,
      ofBytes_lt_ofBytes_iff]
  · -- ancestor first
    intro hlen hsub hstrict
    obtain ⟨b', w, h⟩ := extends_of_strict_subset hlen (by omega) hsub hstrict
    exact hkeys.mpr (subnetBits_lt_of_extends h)
  · -- the prefixes part at a bit, and the subnet with the zero bit comes first
    intro hlen hdisj
    obtain ⟨c, e, u, v, hu, hv⟩ := diverge_of_disjoint hlen hp (by omega) hdisj
    cases e with
    | false => exact .inl (keys_lt_of_diverge hp hq hka hkb hu hv)
    | true =>
      obtain ⟨hlt, hall⟩ := keys_lt_of_diverge hq hp hkb hka hv hu
      exact .inr ⟨hlt, fun x y kx ky hx hy hkx hky => hall y x ky kx hy hx hky hkx⟩

/-- The IPv4 subnet 192.0.2.0/24, with 192.0.2.0 as its address. -/
def testNet : InAddr := ⟨[192, 0, 2, 0], .inl rfl⟩

/-- 192.0.2.128, the address of the upper half 192.0.2.128/25 of 192.0.2.0/24. -/
def testHalf : InAddr := ⟨[192, 0, 2, 128], .inl rfl⟩

/-- 192.0.2.0/24 and its upper half 192.0.2.128/25, whose keys are
FA AA AA AA AA AE and FA AA AA AA AA AE C0 00. -/
theorem subnetEncode_key_laws_half :
    let ka : List UInt8 := [0xFA, 0xAA, 0xAA, 0xAA, 0xAA, 0xAE]
    let kb : List UInt8 := [0xFA, 0xAA, 0xAA, 0xAA, 0xAA, 0xAE, 0xC0, 0x00]
    (ka = kb ↔ 24 = 25 ∧ (ofBytes testNet.bytes).take 24 = (ofBytes testHalf.bytes).take 24) ∧
    (24 = 8 * 4 → 25 = 8 * 4 → (ka < kb ↔ testNet.bytes < testHalf.bytes)) ∧
    (4 = 4 →
      (∀ x : InAddr, x.bytes.length = 4 → InSubnet x testHalf 25 → InSubnet x testNet 24) →
      (∃ x : InAddr, x.bytes.length = 4 ∧ InSubnet x testNet 24 ∧ ¬ InSubnet x testHalf 25) →
      ka < kb) ∧
    (4 = 4 →
      (∀ x : InAddr, x.bytes.length = 4 → ¬ (InSubnet x testNet 24 ∧ InSubnet x testHalf 25)) →
      (ka < kb ∧ ∀ x y : InAddr, ∀ kx ky : List UInt8, InSubnet x testNet 24 →
          InSubnet y testHalf 25 → subnetEncode x (8 * x.bytes.length : ℕ) = .ok kx →
          subnetEncode y (8 * y.bytes.length : ℕ) = .ok ky → kx < ky) ∨
      (kb < ka ∧ ∀ x y : InAddr, ∀ kx ky : List UInt8, InSubnet x testNet 24 →
          InSubnet y testHalf 25 → subnetEncode x (8 * x.bytes.length : ℕ) = .ok kx →
          subnetEncode y (8 * y.bytes.length : ℕ) = .ok ky → ky < kx)) :=
  subnetEncode_key_laws testNet testHalf 24 25 (by decide) (by decide) _ _ rfl rfl

end KnotResolver
