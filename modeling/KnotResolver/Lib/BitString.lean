import Mathlib

/-!
# Bit strings and octet strings

Bits taken most significant first: the bits of an octet, a bit string cut into octets, and
the lexicographic orders of the two, which agree. Nothing here is about addresses; the subnet
keys of the rule database are an instance.
-/

namespace BitString

/-! ## Lexicographic order of appended blocks -/

section Lex

variable {α : Type*} [LinearOrder α]

/-- Behind blocks of one length, the blocks are compared first and the rest only after equal
blocks. -/
theorem append_lt_append_iff {g h u v : List α} (hlen : g.length = h.length) :
    g ++ u < h ++ v ↔ g < h ∨ (g = h ∧ u < v) := by
  induction g generalizing h with
  | nil =>
    obtain rfl : h = [] := List.eq_nil_of_length_eq_zero hlen.symm
    simp
  | cons a g ih =>
    cases h with
    | nil => simp at hlen
    | cons b h =>
      simp only [List.cons_append, List.cons_lt_cons_iff, List.cons.injEq,
        ih (Nat.succ.inj hlen)]
      tauto

end Lex

/-! ## Bit strings as numbers -/

/-- The number a bit string stands for, most significant bit first. -/
def value : List Bool → ℕ
  | [] => 0
  | b :: bs => b.toNat * 2 ^ bs.length + value bs

theorem value_lt_two_pow : ∀ bs : List Bool, value bs < 2 ^ bs.length
  | [] => by simp [value]
  | b :: bs => by
    have h := value_lt_two_pow bs
    cases b <;> simp [value, pow_succ] <;> omega

/-- Among bit strings of one length, the numeric order is the lexicographic one. -/
theorem value_lt_value_iff : ∀ {u v : List Bool}, u.length = v.length →
    (value u < value v ↔ u < v)
  | [], [], _ => by simp [value]
  | b :: u, c :: v, hlen => by
    have hlen' : u.length = v.length := Nat.succ.inj hlen
    have hu := value_lt_two_pow u
    have hv := value_lt_two_pow v
    rw [hlen'] at hu
    rw [List.cons_lt_cons_iff, ← value_lt_value_iff hlen']
    simp only [value, hlen']
    cases b <;> cases c <;> simp
    · omega
    · exact iff_of_false (by omega) (by decide)

/-- The first `r` bits stand for the value with the other bits shifted out. -/
theorem value_take : ∀ (bs : List Bool) (r : ℕ), value (bs.take r) = value bs / 2 ^ (bs.length - r)
  | [], _ => by simp [value]
  | b :: bs, 0 => by
    rw [List.take_zero, Nat.sub_zero, Nat.div_eq_of_lt (value_lt_two_pow (b :: bs))]
    rfl
  | b :: bs, r + 1 => by
    rw [List.take_succ_cons, value, value, value_take bs r, List.length_take, List.length_cons,
      Nat.add_sub_add_right]
    rcases le_or_gt r bs.length with hr | hr
    · -- the leading bit moves down by the bits cut off
      have hpow : 2 ^ bs.length = 2 ^ (bs.length - r) * 2 ^ r := by
        rw [← pow_add, Nat.sub_add_cancel hr]
      rw [min_eq_left hr, hpow, show b.toNat * (2 ^ (bs.length - r) * 2 ^ r) + value bs
          = value bs + 2 ^ (bs.length - r) * (b.toNat * 2 ^ r) by ring,
        Nat.add_mul_div_left _ _ (Nat.two_pow_pos _), add_comm]
    · rw [min_eq_right hr.le, Nat.sub_eq_zero_of_le hr.le, pow_zero, Nat.div_one, Nat.div_one]

theorem value_injective {u v : List Bool} (hlen : u.length = v.length)
    (h : value u = value v) : u = v := by
  rcases lt_trichotomy u v with huv | rfl | hvu
  · exact absurd h ((value_lt_value_iff hlen).mpr huv).ne
  · rfl
  · exact absurd h ((value_lt_value_iff hlen.symm).mpr hvu).ne'

/-! ## Octets -/

/-- The bits of an octet, most significant first. -/
def ofByte (x : UInt8) : List Bool := (List.range 8).reverse.map x.toNat.testBit

@[simp] theorem length_ofByte (x : UInt8) : (ofByte x).length = 8 := by
  simp [ofByte]

theorem value_ofByte : ∀ x : UInt8, value (ofByte x) = x.toNat := by
  decide +kernel

/-- Two octets agree on their first `r` bits exactly when they agree with the other bits
shifted out. -/
theorem take_ofByte_eq_iff {x y : UInt8} {r : ℕ} :
    (ofByte x).take r = (ofByte y).take r ↔ x.toNat / 2 ^ (8 - r) = y.toNat / 2 ^ (8 - r) := by
  constructor
  · intro h
    have hv := congrArg value h
    rwa [value_take, value_take, value_ofByte, value_ofByte, length_ofByte, length_ofByte] at hv
  · intro h
    apply value_injective (by simp)
    rw [value_take, value_take, value_ofByte, value_ofByte, length_ofByte, length_ofByte]
    exact h

/-- A bit string cut into octets, eight bits each; fewer than eight bits at the end are
dropped. -/
def pack : List Bool → List UInt8
  | b0 :: b1 :: b2 :: b3 :: b4 :: b5 :: b6 :: b7 :: rest =>
    (value [b0, b1, b2, b3, b4, b5, b6, b7]).toUInt8 :: pack rest
  | _ => []

theorem pack_append_of_length_eq_eight {g : List Bool} (hg : g.length = 8) (u : List Bool) :
    pack (g ++ u) = (value g).toUInt8 :: pack u := by
  match g, hg with
  | [_, _, _, _, _, _, _, _], _ => rfl

theorem pack_of_length_lt {u : List Bool} (hu : u.length < 8) : pack u = [] := by
  match u, hu with
  | [], _ | [_], _ | [_, _], _ | [_, _, _], _ | [_, _, _, _], _ | [_, _, _, _, _], _
  | [_, _, _, _, _, _], _ | [_, _, _, _, _, _, _], _ => rfl

/-- A bit string of eight bits or more starts with an octet. -/
theorem exists_eq_append_of_length {u : List Bool} (hu : 8 ≤ u.length) :
    ∃ g w, g.length = 8 ∧ u = g ++ w :=
  ⟨u.take 8, u.drop 8, by simp; omega, (List.take_append_drop 8 u).symm⟩

theorem pack_append {u : List Bool} (hu : u.length % 8 = 0) (v : List Bool) :
    pack (u ++ v) = pack u ++ pack v := by
  induction h : u.length / 8 generalizing u with
  | zero =>
    obtain rfl : u = [] := List.eq_nil_of_length_eq_zero (by omega)
    rfl
  | succ n ih =>
    obtain ⟨g, w, hg, rfl⟩ := exists_eq_append_of_length (u := u) (by omega)
    simp only [List.length_append, hg] at hu h
    rw [List.append_assoc, pack_append_of_length_eq_eight hg, pack_append_of_length_eq_eight hg,
      ih (by omega) (by omega), List.cons_append]

theorem length_pack_of_mod_eq_zero {u : List Bool} (hu : u.length % 8 = 0) :
    (pack u).length = u.length / 8 := by
  induction h : u.length / 8 generalizing u with
  | zero =>
    obtain rfl : u = [] := List.eq_nil_of_length_eq_zero (by omega)
    rfl
  | succ n ih =>
    obtain ⟨g, w, hg, rfl⟩ := exists_eq_append_of_length (u := u) (by omega)
    simp only [List.length_append, hg] at hu h
    rw [pack_append_of_length_eq_eight hg, List.length_cons, ih (by omega) (by omega)]

theorem toNat_toUInt8_value {g : List Bool} (hg : g.length = 8) :
    (value g).toUInt8.toNat = value g := by
  have h := value_lt_two_pow g
  rw [hg] at h
  exact UInt8.toNat_ofNat_of_lt' h

theorem toUInt8_value_eq_iff {g g' : List Bool} (hg : g.length = 8) (hg' : g'.length = 8) :
    (value g).toUInt8 = (value g').toUInt8 ↔ g = g' := by
  constructor
  · intro h
    have h' := congrArg UInt8.toNat h
    rw [toNat_toUInt8_value hg, toNat_toUInt8_value hg'] at h'
    exact value_injective (hg.trans hg'.symm) h'
  · rintro rfl
    rfl

/-- Cutting into octets keeps the lexicographic order of bit strings of whole octets. -/
theorem pack_lt_pack_iff {u v : List Bool} (hu : u.length % 8 = 0) (hv : v.length % 8 = 0) :
    pack u < pack v ↔ u < v := by
  induction h : u.length / 8 generalizing u v with
  | zero =>
    obtain rfl : u = [] := List.eq_nil_of_length_eq_zero (by omega)
    by_cases hv0 : v = []
    · subst hv0
      simp [pack, List.not_lt_nil]
    · obtain ⟨g, w, hg, rfl⟩ := exists_eq_append_of_length (u := v)
        (by have := List.length_pos_of_ne_nil hv0; omega)
      match g, hg with
      | x :: g, hg =>
        rw [pack_append_of_length_eq_eight hg]
        exact ⟨fun _ => List.nil_lt_cons .., fun _ => List.nil_lt_cons ..⟩
  | succ n ih =>
    obtain ⟨g, w, hg, rfl⟩ := exists_eq_append_of_length (u := u) (by omega)
    simp only [List.length_append, hg] at hu h
    by_cases hv0 : v = []
    · subst hv0
      simp [pack_append_of_length_eq_eight hg, pack, List.not_lt_nil]
    obtain ⟨g', w', hg', rfl⟩ := exists_eq_append_of_length (u := v)
      (by have := List.length_pos_of_ne_nil hv0; omega)
    simp only [List.length_append, hg'] at hv
    -- the first octets decide, and equal ones leave it to the rest
    rw [pack_append_of_length_eq_eight hg, pack_append_of_length_eq_eight hg',
      List.cons_lt_cons_iff, append_lt_append_iff (hg.trans hg'.symm),
      UInt8.lt_iff_toNat_lt, toNat_toUInt8_value hg, toNat_toUInt8_value hg',
      value_lt_value_iff (hg.trans hg'.symm), toUInt8_value_eq_iff hg hg',
      ih (by omega) (by omega) (by omega)]

theorem pack_injective {u v : List Bool} (hu : u.length % 8 = 0) (hv : v.length % 8 = 0)
    (h : pack u = pack v) : u = v := by
  rcases lt_trichotomy u v with huv | rfl | hvu
  · exact absurd ((pack_lt_pack_iff hu hv).mpr huv) (h ▸ List.lt_irrefl _)
  · rfl
  · exact absurd ((pack_lt_pack_iff hv hu).mpr hvu) (h ▸ List.lt_irrefl _)

/-- Two bit strings either extend one another or part at a bit where they differ. -/
theorem prefix_or_prefix_or_diverge : ∀ u v : List Bool,
    u <+: v ∨ v <+: u ∨ ∃ c b u' v', u = c ++ b :: u' ∧ v = c ++ (!b) :: v'
  | [], _ => .inl List.nil_prefix
  | _ :: _, [] => .inr (.inl List.nil_prefix)
  | b :: u, c :: v => by
    by_cases hbc : b = c
    · subst hbc
      rcases prefix_or_prefix_or_diverge u v with h | h | ⟨d, e, u', v', rfl, rfl⟩
      · exact .inl (List.cons_prefix_cons.mpr ⟨rfl, h⟩)
      · exact .inr (.inl (List.cons_prefix_cons.mpr ⟨rfl, h⟩))
      · exact .inr (.inr ⟨b :: d, e, u', v', rfl, rfl⟩)
    · have hc : c = !b := by cases b <;> cases c <;> simp_all
      exact .inr (.inr ⟨[], b, u, v, rfl, by rw [hc]; rfl⟩)

/-! ## Octet strings as bit strings -/

/-- The bits of an octet string. -/
def ofBytes (a : List UInt8) : List Bool := a.flatMap ofByte

@[simp] theorem length_ofBytes (a : List UInt8) : (ofBytes a).length = 8 * a.length := by
  induction a with
  | nil => rfl
  | cons x a ih => simp [ofBytes] at ih ⊢; omega

theorem ofBytes_cons (x : UInt8) (a : List UInt8) : ofBytes (x :: a) = ofByte x ++ ofBytes a := by
  simp [ofBytes]

theorem pack_ofBytes : ∀ a : List UInt8, pack (ofBytes a) = a
  | [] => rfl
  | x :: a => by
    rw [ofBytes_cons, pack_append_of_length_eq_eight (length_ofByte x), pack_ofBytes a,
      value_ofByte, Nat.toUInt8_eq, UInt8.ofNat_toNat]

theorem ofBytes_append (a b : List UInt8) : ofBytes (a ++ b) = ofBytes a ++ ofBytes b := by
  simp [ofBytes]

theorem ofBytes_injective : Function.Injective ofBytes := fun a b h => by
  rw [← pack_ofBytes a, ← pack_ofBytes b, h]

/-- The first `8 n` bits are those of the first `n` octets. -/
theorem take_ofBytes_mul (a : List UInt8) (n : ℕ) :
    (ofBytes a).take (8 * n) = ofBytes (a.take n) := by
  induction a generalizing n with
  | nil => simp [ofBytes]
  | cons x a ih =>
    cases n with
    | zero => simp [ofBytes]
    | succ n =>
      have h8 : 8 * (n + 1) = (ofByte x).length + 8 * n := by simp; ring
      rw [ofBytes_cons, List.take_succ_cons, ofBytes_cons, h8, List.take_length_add_append, ih]

/-- The first `8 n + r` bits: those of the first `n` octets, then the first `r` of the next. -/
theorem take_ofBytes {a : List UInt8} {n : ℕ} (hn : n < a.length) {r : ℕ} (hr : r ≤ 8) :
    (ofBytes a).take (8 * n + r) = ofBytes (a.take n) ++ (ofByte a[n]).take r := by
  conv_lhs => rw [← List.take_append_drop n a, List.drop_eq_getElem_cons hn]
  have hlen : (ofBytes (a.take n)).length = 8 * n := by simp [min_eq_left hn.le]
  rw [ofBytes_append, ofBytes_cons, ← hlen, List.take_length_add_append,
    List.take_append_of_le_length (by simpa using hr)]

/-- Two octet strings agree on their first `8 n + r` bits exactly when their first `n` octets
agree and the next octets agree on their first `r` bits. -/
theorem take_ofBytes_eq_iff {a b : List UInt8} {n : ℕ} (ha : n < a.length) (hb : n < b.length)
    {r : ℕ} (hr : r ≤ 8) :
    (ofBytes a).take (8 * n + r) = (ofBytes b).take (8 * n + r) ↔
      a.take n = b.take n ∧ (ofByte a[n]).take r = (ofByte b[n]).take r := by
  rw [take_ofBytes ha hr, take_ofBytes hb hr]
  constructor
  · intro h
    have hlen : (ofBytes (a.take n)).length = (ofBytes (b.take n)).length := by
      simp [min_eq_left ha.le, min_eq_left hb.le]
    obtain ⟨h1, h2⟩ := List.append_inj h hlen
    exact ⟨ofBytes_injective h1, h2⟩
  · rintro ⟨h1, h2⟩
    rw [h1, h2]

/-- Octet strings compare as their bit strings do. -/
theorem ofBytes_lt_ofBytes_iff {a b : List UInt8} : ofBytes a < ofBytes b ↔ a < b := by
  rw [← pack_lt_pack_iff (by simp) (by simp), pack_ofBytes, pack_ofBytes]

end BitString
