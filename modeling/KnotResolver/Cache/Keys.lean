import Mathlib
import KnotResolver.Dname
import KnotResolver.RRset
import KnotResolver.Lib.CString
import KnotResolver.Lib.ListLex
import KnotResolver.Dnssec.Nsec3

/-!
# Cache keys

The keys under which `lib/cache` stores its entries (`CACHE_KEY_DEF`): an exact match is the
lookup format of the name, a zero octet, the tag `E` and the type; an NSEC record is the
lookup format of the zone, a zero octet, the tag `1` and the lookup format of the name within
the zone without its final zero. `kr_unpack_cache_key` reads the name and type back from an
exact key, and `dname_wire_reconstruct` the name from the in-zone part of an NSEC key.

The lookup format is libknot's `knot_dname_lf`: the labels from the root, each followed by a
zero octet, so that `memcmp` order on it is the order of names. Names whose labels hold a zero
octet would make it ambiguous; `check_dname_for_lf` keeps them out of the cache. The `uint16_t`
type is copied with `memcpy`, so it is laid out in host order, little-endian here.
-/

namespace KnotResolver

open CString

/-- `knot_dname_lf` of libknot: the labels from the root, each followed by a zero octet; the
root has an empty lookup format. -/
def knotDnameLf (d : Dname) : List UInt8 := d.key.flatMap fun l => l.bytes ++ [0]

/-- `kr_dname_lf`: the lookup format of `src`, optionally with the wildcard label appended
(the octets after the length octet of the buffer). -/
def krDnameLf (src : Dname) (addWildcard : Bool) : Except ℤ (List UInt8) :=
  let lf := knotDnameLf src
  if addWildcard then
    if lf.length + 2 > knotDnameMaxlen then .error (krError Errno.enospc)
    else .ok (lf ++ [42, 0])
  else .ok lf

/-- `check_dname_for_lf`: the wire form has no zero octet before its end. -/
def checkDnameForLf (n : Dname) : Bool := knotDnameSize n == strlen n.wire + 1

/-- `knot_rrtype_is_metatype` of libknot: SIG, OPT, TKEY, TSIG, IXFR, AXFR and ANY. -/
def knotRrtypeIsMetatype (type : RRType) : Bool :=
  type == 24 || type == 41 || type == 249 || type == 250 || type == 251 || type == 252 ||
    type == 255

/-- `check_rrtype`: the types the cache ignores are the meta-types and RRSIG. -/
def checkRrtype (type : RRType) : Bool := !knotRrtypeIsMetatype type && type != RRType.rrsig

/-- A `uint16_t` as `memcpy` lays it out on a little-endian host. -/
def hostBytes16 (x : UInt16) : List UInt8 := [(x.toNat % 256).toUInt8, (x.toNat / 256).toUInt8]

/-- The `uint16_t` that `memcpy` reads from two octets on a little-endian host. -/
def ofHostBytes16 (lo hi : UInt8) : UInt16 := (lo.toNat + 256 * hi.toNat).toUInt16

/-- The type an exact key is made for: CNAME and DNAME are lumped into NS. -/
def exactKeyType (type : RRType) : RRType :=
  if type = RRType.cname ∨ type = RRType.dname then RRType.ns else type

/-- `key_exact_type_maypkt` on a buffer that `kr_dname_lf` filled with `lf`. The switch's RRSIG
case is never reached, as `check_rrtype` refuses RRSIG. -/
def keyExactTypeMaypkt (lf : List UInt8) (type : RRType) : Option (List UInt8) :=
  if checkRrtype type then some (lf ++ [0, 69] ++ hostBytes16 (exactKeyType type)) else none

/-- The zone part of `struct key`. -/
structure CacheKey where
  zname : Dname
  zlfLen : ℕ

/-- The key state for zone `z`, with `zlf_len` the length of its lookup format. -/
def CacheKey.ofZone (z : Dname) : CacheKey := ⟨z, (knotDnameLf z).length⟩

@[simp] theorem CacheKey.zlfLen_ofZone (z : Dname) :
    (CacheKey.ofZone z).zlfLen = (knotDnameLf z).length := rfl

@[simp] theorem CacheKey.zname_ofZone (z : Dname) : (CacheKey.ofZone z).zname = z := rfl

/-- `key_nwz_off`: where the name within the zone starts in an NSEC key. -/
def keyNwzOff (k : CacheKey) : ℕ := k.zlfLen + 2

/-- `key_NSEC1`: the in-zone part of the lookup format is moved two octets to the right to make
room for the zero octet and the tag `1`; the key stops before its final zero. -/
def keyNsec1 (k : CacheKey) (name : Dname) (addWildcard : Bool) : Option (List UInt8) :=
  match krDnameLf name addWildcard with
  | .error _ => none
  | .ok lf =>
    if k.zlfLen < lf.length then some (lf.take k.zlfLen ++ [0, 49] ++ (lf.drop k.zlfLen).dropLast)
    -- the name is the zone itself: no final zero to drop
    else if k.zlfLen = lf.length then some (lf ++ [0, 49])
    else none

/-! ## Decoding -/

/-- One label of `knot_dname_lf2wire`: its length octet and octets, then what the rest of the
loop writes; an empty label or one over 63 octets is `EILSEQ`. -/
def lf2wireLabel (label : List UInt8) (rest : Except ℤ (List UInt8)) : Except ℤ (List UInt8) :=
  if 63 < label.length ∨ label.length = 0 then .error (krError Errno.eilseq)
  else rest.map fun wire => label.length.toUInt8 :: label ++ wire

/-- The label loop of `knot_dname_lf2wire`, reading the lookup format backwards from the zero
octet after the current label; `label` holds the octets of the current label read so far. -/
def lf2wireLoop (label : List UInt8) : List UInt8 → Except ℤ (List UInt8)
  | [] => lf2wireLabel label (.ok [])
  | x :: rev =>
    if x = 0 then lf2wireLabel label (lf2wireLoop [] rev) else lf2wireLoop (x :: label) rev

/-- `knot_dname_lf2wire`: the wire form of a lookup format whose final zero may be omitted. -/
def knotDnameLf2wire (lf : List UInt8) : Except ℤ (List UInt8) :=
  let labels : Except ℤ (List UInt8) :=
    if lf = [] then .ok []
    else if lf.getLast? = some 0 then lf2wireLoop [] lf.reverse.tail
    -- `++len` on the `uint8_t` length 255 wraps to 0, and no label is read
    else if lf.length = 255 then .ok []
    else lf2wireLoop [] lf.reverse
  labels.map (· ++ [0])

/-- `knot_dname_to_wire` of libknot: the wire form of a name, if it fits in `maxlen` octets. -/
def knotDnameToWire (src : Dname) (maxlen : ℕ) : Except ℤ (List UInt8) :=
  if knotDnameSize src > maxlen then .error knotESpace else .ok src.wire

/-- `dname_wire_reconstruct`: the name from the in-zone part of an NSEC key, with the zone name
written over the root's zero octet. -/
def dnameWireReconstruct (k : CacheKey) (kwz : List UInt8) : Except ℤ (List UInt8) := do
  let buf ← knotDnameLf2wire kwz
  if buf.getLast? ≠ some 0 then throw (krError Errno.efault)
  let zone ← knotDnameToWire k.zname (knotDnameMaxlen - kwz.length)
  if zone.length ≠ k.zlfLen + 1 then throw (krError Errno.eilseq)
  return buf.dropLast ++ zone

/-- The tag scan of `kr_unpack_cache_key`: the key split before the first zero octet that
starts the key or follows another zero octet, when an octet follows it; `prev` says whether
the octet before the head is such a zero (or the head starts the key). -/
def tagSplit (prev : Bool) : List UInt8 → Option (List UInt8 × List UInt8)
  | [] => none
  | x :: rest =>
    if x = 0 ∧ prev ∧ rest ≠ [] then some ([], rest)
    else (tagSplit (x == 0) rest).map fun p => (x :: p.1, p.2)

/-- `kr_unpack_cache_key`: the wire name and the type of an exact key. Past the end of the key
the type is read as zeros. -/
def krUnpackCacheKey (key : List UInt8) : Except ℤ (List UInt8 × RRType) :=
  match tagSplit true key with
  | none => .error (krError Errno.einval)
  | some (lf, tag) =>
    if tag.head? ≠ some 69 then .error (krError Errno.einval)
    else if lf.length > knotDnameMaxlen then .error (krError Errno.einval)
    else match knotDnameLf2wire lf with
      | .error e => .error (krError e)
      | .ok name => .ok (name, ofHostBytes16 (tag.getD 1 0) (tag.getD 2 0))

/-! ## The lookup format -/

section LookupFormat

theorem reverse_knotDnameLf (d : Dname) :
    (knotDnameLf d).reverse = d.labels.flatMap fun l => 0 :: l.bytes.reverse := by
  simp [knotDnameLf, Dname.key, List.reverse_flatMap, Function.comp_def]

theorem length_knotDnameLf (d : Dname) : (knotDnameLf d).length + 1 = knotDnameSize d := by
  simp [knotDnameLf, knotDnameSize, Dname.key, List.length_flatMap, List.sum_reverse]

theorem knotDnameLf_wildcard (d : Dname) :
    knotDnameLf d.wildcard = knotDnameLf d ++ [42, 0] := by
  simp [knotDnameLf, Dname.wildcard, Dname.key, Label.asterisk]

theorem knotDnameLf_of_key_eq {z a : Dname} {r : List Label} (h : a.key = z.key ++ r) :
    knotDnameLf a = knotDnameLf z ++ r.flatMap fun l => l.bytes ++ [0] := by
  simp [knotDnameLf, h]

/-- `check_dname_for_lf` accepts exactly the names whose labels hold no zero octet. -/
theorem checkDnameForLf_iff {n : Dname} :
    checkDnameForLf n = true ↔ ∀ l ∈ n.labels, 0 ∉ l.bytes := by
  have hsize : knotDnameSize n = (labelsWire n.labels).length + 1 := by
    rw [knotDnameSize, length_labelsWire]
  rw [checkDnameForLf, beq_iff_eq, hsize, Nat.add_right_cancel_iff, eq_comm, Dname.wire,
    strlen_append_zero_eq_iff, zero_mem_labelsWire_iff]
  simp

theorem knotDnameLf_isPrefix_of_krDnameLf {a : Dname} {w : Bool} {lf : List UInt8}
    (h : krDnameLf a w = .ok lf) : knotDnameLf a <+: lf := by
  cases w with
  | false =>
    cases h
    exact List.prefix_refl _
  | true =>
    by_cases hlen : (knotDnameLf a).length + 2 > knotDnameMaxlen
    · simp [krDnameLf, hlen] at h
    · simp only [krDnameLf, if_true, if_neg hlen, Except.ok.injEq] at h
      exact h ▸ List.prefix_append _ _

theorem knotDnameLf_isPrefix_of_isAncestorOrSelf {z a : Dname} (h : z.IsAncestorOrSelf a) :
    knotDnameLf z <+: knotDnameLf a := by
  obtain ⟨r, hr⟩ := h
  exact ⟨_, (knotDnameLf_of_key_eq hr.symm).symm⟩

theorem mem_labels_of_key_eq {z a : Dname} {r : List Label} (hr : a.key = z.key ++ r)
    {l : Label} (hl : l ∈ z.labels ∨ l ∈ r) : l ∈ a.labels := by
  rw [← List.mem_reverse]
  change l ∈ a.key
  rw [hr, List.mem_append]
  simpa [Dname.key] using hl

theorem labels_zero_free_of_isAncestorOrSelf {z a : Dname} (hza : z.IsAncestorOrSelf a)
    (ha : ∀ l ∈ a.labels, 0 ∉ l.bytes) : ∀ l ∈ z.labels, 0 ∉ l.bytes := by
  obtain ⟨r, hr⟩ := hza
  exact fun l hl => ha l (mem_labels_of_key_eq hr.symm (.inl hl))

end LookupFormat

/-! ## The tag scan -/

section TagScan

/-- An octet string with no zero passes the scan, which then goes on as after a nonzero
octet. -/
theorem tagSplit_append_of_zero_not_mem {x : List UInt8} (hx : x ≠ []) (h0 : 0 ∉ x)
    (prev : Bool) (rest : List UInt8) :
    tagSplit prev (x ++ rest) = (tagSplit false rest).map fun q => (x ++ q.1, q.2) := by
  induction x generalizing prev with
  | nil => exact absurd rfl hx
  | cons b x ih =>
    have hb : b ≠ 0 := fun h => h0 (h ▸ List.mem_cons_self)
    rw [List.cons_append, tagSplit, if_neg (fun h => hb h.1), beq_false_of_ne hb]
    cases x with
    | nil => simp
    | cons b' x =>
      rw [ih (List.cons_ne_nil _ _) (fun h => h0 (List.mem_cons_of_mem _ h)), Option.map_map]
      rfl

/-- The lookup format of labels without zero octets passes the scan: a zero octet after a
label follows a nonzero octet. -/
theorem tagSplit_flatMap {ls : List Label} (h : ∀ l ∈ ls, 0 ∉ l.bytes) (rest : List UInt8) :
    tagSplit true ((ls.flatMap fun l => l.bytes ++ [0]) ++ rest) =
      (tagSplit true rest).map fun q => ((ls.flatMap fun l => l.bytes ++ [0]) ++ q.1, q.2) := by
  induction ls with
  | nil => simp
  | cons l ls ih =>
    have ih := ih fun l' hl' => h l' (List.mem_cons_of_mem _ hl')
    rw [List.flatMap_cons, List.append_assoc, List.append_assoc,
      tagSplit_append_of_zero_not_mem l.bytes_ne_nil (h l List.mem_cons_self),
      List.singleton_append,
      tagSplit, if_neg (by simp), beq_self_eq_true, ih]
    simp [Option.map_map, Function.comp_def]

/-- The scan stops at the zero octet after the lookup format of a name whose labels hold no
zero: the first two zero octets in a row. -/
theorem tagSplit_knotDnameLf {d : Dname} (h : ∀ l ∈ d.labels, 0 ∉ l.bytes) (y : UInt8)
    (rest : List UInt8) :
    tagSplit true (knotDnameLf d ++ 0 :: y :: rest) = some (knotDnameLf d, y :: rest) := by
  have hkey : ∀ l ∈ d.key, 0 ∉ l.bytes := fun l hl => h l (List.mem_reverse.mp hl)
  rw [knotDnameLf, tagSplit_flatMap hkey]
  simp [tagSplit]

end TagScan

/-! ## Decoding the lookup format -/

section Lf2wire

theorem lf2wireLabel_bytes (l : Label) (rest : Except ℤ (List UInt8)) :
    lf2wireLabel l.bytes rest = rest.map fun wire => l.bytes.length.toUInt8 :: l.bytes ++ wire := by
  have hlen : 0 < l.bytes.length := List.length_pos_of_ne_nil l.bytes_ne_nil
  rw [lf2wireLabel, if_neg (by have := l.length_le; omega)]

/-- The loop reads a label without zero octets backwards into the current label. -/
theorem lf2wireLoop_reverse_append {x : List UInt8} (h0 : 0 ∉ x) (label rest : List UInt8) :
    lf2wireLoop label (x.reverse ++ rest) = lf2wireLoop (x ++ label) rest := by
  induction x generalizing rest with
  | nil => rfl
  | cons b x ih =>
    have hb : b ≠ 0 := fun h => h0 (h ▸ List.mem_cons_self)
    rw [List.reverse_cons, List.append_assoc, List.singleton_append,
      ih (fun h => h0 (List.mem_cons_of_mem _ h)), lf2wireLoop, if_neg hb]
    rfl

/-- The loop decodes the reversed lookup format of labels without zero octets, read from the
leftmost label, into their wire form. -/
theorem lf2wireLoop_flatMap {l : Label} {ls : List Label} (h : ∀ l' ∈ l :: ls, 0 ∉ l'.bytes) :
    lf2wireLoop [] (l.bytes.reverse ++ ls.flatMap fun l => 0 :: l.bytes.reverse) =
      .ok (labelsWire (l :: ls)) := by
  induction ls generalizing l with
  | nil =>
    rw [List.flatMap_nil, lf2wireLoop_reverse_append (h l List.mem_cons_self), List.append_nil,
      lf2wireLoop, lf2wireLabel_bytes]
    simp [Except.map]
  | cons l' ls ih =>
    have ih := ih fun l'' hl'' => h l'' (List.mem_cons_of_mem _ hl'')
    rw [List.flatMap_cons, lf2wireLoop_reverse_append (h l List.mem_cons_self), List.append_nil,
      List.cons_append, lf2wireLoop, if_pos rfl, lf2wireLabel_bytes, ih]
    simp [Except.map]

/-- The lookup format of a name without zero octets decodes to its wire form. -/
theorem knotDnameLf2wire_knotDnameLf {d : Dname} (h : ∀ l ∈ d.labels, 0 ∉ l.bytes) :
    knotDnameLf2wire (knotDnameLf d) = .ok d.wire := by
  obtain ⟨ls⟩ := d
  cases ls with
  | nil => rfl
  | cons l ls =>
    have hrev : (knotDnameLf ⟨l :: ls⟩).reverse =
        0 :: (l.bytes.reverse ++ ls.flatMap fun l => 0 :: l.bytes.reverse) := by
      simp [reverse_knotDnameLf]
    have hne : knotDnameLf ⟨l :: ls⟩ ≠ [] := fun he => by simp [he] at hrev
    have hlast : (knotDnameLf ⟨l :: ls⟩).getLast? = some 0 := by
      rw [← List.head?_reverse, hrev, List.head?_cons]
    simp only [knotDnameLf2wire, if_neg hne, if_pos hlast, hrev, List.tail_cons,
      lf2wireLoop_flatMap h]
    rfl

/-- The lookup format of labels without zero octets, its final zero dropped, decodes to their
wire form. -/
theorem knotDnameLf2wire_dropLast {r : List Label} (h : ∀ l ∈ r, 0 ∉ l.bytes)
    (hlen : ((r.flatMap fun l => l.bytes ++ [0]).dropLast).length < 255) :
    knotDnameLf2wire (r.flatMap fun l => l.bytes ++ [0]).dropLast =
      .ok (labelsWire r.reverse ++ [0]) := by
  rcases List.eq_nil_or_concat' r with rfl | ⟨ls, l, rfl⟩
  · rfl
  · have hrev : ((ls ++ [l]).flatMap fun l => l.bytes ++ [0]).dropLast.reverse =
        l.bytes.reverse ++ ls.reverse.flatMap fun l => 0 :: l.bytes.reverse := by
      rw [← List.tail_reverse, List.reverse_flatMap]
      simp [Function.comp_def]
    have hl0 : 0 ∉ l.bytes := h l (by simp)
    obtain ⟨b, bs, hb⟩ :=
      List.exists_cons_of_ne_nil (List.reverse_ne_nil_iff.mpr l.bytes_ne_nil)
    have hne : ((ls ++ [l]).flatMap fun l => l.bytes ++ [0]).dropLast ≠ [] := fun he => by
      rw [he, List.reverse_nil, hb, List.cons_append] at hrev
      exact List.cons_ne_nil _ _ hrev.symm
    have hlast : ((ls ++ [l]).flatMap fun l => l.bytes ++ [0]).dropLast.getLast? ≠ some 0 := by
      rw [← List.head?_reverse, hrev, hb]
      intro hb0
      simp only [List.cons_append, List.head?_cons, Option.some.injEq] at hb0
      exact hl0 (List.mem_reverse.mp (hb0 ▸ hb ▸ List.mem_cons_self))
    have hlabels : ∀ l' ∈ l :: ls.reverse, 0 ∉ l'.bytes := fun l' hl' =>
      h l' (by rcases List.mem_cons.mp hl' with rfl | hl' <;> simp_all)
    simp only [knotDnameLf2wire, if_neg hne, if_neg hlast, if_neg hlen.ne, hrev,
      lf2wireLoop_flatMap hlabels]
    simp [Except.map]

end Lf2wire


/-! ## Exact keys -/

section Exact

theorem ofHostBytes16_hostBytes16 (x : UInt16) :
    ofHostBytes16 (x.toNat % 256).toUInt8 (x.toNat / 256).toUInt8 = x := by
  apply UInt16.toNat_inj.mp
  have := x.toNat_lt
  simp [ofHostBytes16, Nat.toUInt8, Nat.toUInt16]
  omega

theorem keyExactTypeMaypkt_eq_some_iff {lf : List UInt8} {type : RRType} {key : List UInt8} :
    keyExactTypeMaypkt lf type = some key ↔
      checkRrtype type = true ∧ key = lf ++ 0 :: 69 :: hostBytes16 (exactKeyType type) := by
  unfold keyExactTypeMaypkt
  split_ifs with h <;> simp [h, eq_comm]

/-- An exact key of a name without zero octets unpacks to the name and the type it was made
for. -/
theorem krUnpackCacheKey_exact {n : Dname} (hn : ∀ l ∈ n.labels, 0 ∉ l.bytes)
    (hsize : knotDnameSize n ≤ knotDnameMaxlen) (type : RRType) :
    krUnpackCacheKey (knotDnameLf n ++ 0 :: 69 :: hostBytes16 type) = .ok (n.wire, type) := by
  have hlen : ¬ (knotDnameLf n).length > knotDnameMaxlen := by
    have := length_knotDnameLf n
    omega
  rw [krUnpackCacheKey, hostBytes16, tagSplit_knotDnameLf hn]
  simp [hlen, knotDnameLf2wire_knotDnameLf hn, ofHostBytes16_hostBytes16]

end Exact

/-! ## NSEC keys -/

section Nsec1

/-- What `key_NSEC1` returns: the key with the in-zone part moved behind the tag, or for the
zone itself the zone's lookup format and the tag. -/
theorem keyNsec1_eq_some_iff {k : CacheKey} {name : Dname} {w : Bool} {key : List UInt8} :
    keyNsec1 k name w = some key ↔ ∃ lf, krDnameLf name w = .ok lf ∧
      ((k.zlfLen < lf.length ∧
          key = lf.take k.zlfLen ++ [0, 49] ++ (lf.drop k.zlfLen).dropLast) ∨
        (k.zlfLen = lf.length ∧ key = lf ++ [0, 49])) := by
  unfold keyNsec1
  cases hlf : krDnameLf name w with
  | error e => simp
  | ok lf =>
    simp only [Except.ok.injEq, exists_eq_left']
    by_cases h1 : k.zlfLen < lf.length
    · simp [h1, h1.ne, eq_comm]
    · by_cases h2 : k.zlfLen = lf.length
      · simp [h2, eq_comm]
      · simp [h1, h2]

/-- Every NSEC key of a name at or below the zone starts with the zone's lookup format, a zero
octet and the tag `1`. -/
theorem keyNsec1_eq_some {z a : Dname} {w : Bool} {key : List UInt8}
    (hza : z.IsAncestorOrSelf a) (h : keyNsec1 (.ofZone z) a w = some key) :
    ∃ rest, key = knotDnameLf z ++ 0 :: 49 :: rest := by
  obtain ⟨lf, hlf, ⟨-, rfl⟩ | ⟨hlen, rfl⟩⟩ := keyNsec1_eq_some_iff.mp h
  all_goals
    have hpre : knotDnameLf z <+: lf :=
      (knotDnameLf_isPrefix_of_isAncestorOrSelf hza).trans (knotDnameLf_isPrefix_of_krDnameLf hlf)
    have htake : lf.take (CacheKey.ofZone z).zlfLen = knotDnameLf z :=
      (List.prefix_iff_eq_take.mp hpre).symm
  · rw [htake]
    exact ⟨(lf.drop (CacheKey.ofZone z).zlfLen).dropLast, by simp⟩
  · rw [← htake, hlen, List.take_length]
    exact ⟨[], by simp⟩

/-- The NSEC key of a name below the zone by the labels `r`, read from the zone down. -/
theorem keyNsec1_of_key_eq {z a : Dname} {r : List Label} (hr : a.key = z.key ++ r) :
    keyNsec1 (.ofZone z) a false =
      some (knotDnameLf z ++ [0, 49] ++ (r.flatMap fun l => l.bytes ++ [0]).dropLast) := by
  have hlf := knotDnameLf_of_key_eq hr
  refine keyNsec1_eq_some_iff.mpr ⟨knotDnameLf a, rfl, ?_⟩
  cases r with
  | nil => exact .inr ⟨by simp [hlf], by simp [hlf]⟩
  | cons l r => exact .inl ⟨by simp [hlf], by simp [hlf]⟩

/-- The wildcard key of `c` is the key of `*.c`. -/
theorem keyNsec1_wildcard (k : CacheKey) {c : Dname}
    (hc : knotDnameSize c.wildcard ≤ knotDnameMaxlen) :
    keyNsec1 k c true = keyNsec1 k c.wildcard false := by
  have hlen : ¬ (knotDnameLf c).length + 2 > knotDnameMaxlen := by
    have h1 := length_knotDnameLf c.wildcard
    rw [knotDnameLf_wildcard, List.length_append] at h1
    simp only [List.length_cons, List.length_nil] at h1
    omega
  simp only [keyNsec1, krDnameLf, if_true, if_neg hlen, Bool.false_eq_true, if_false,
    knotDnameLf_wildcard]

/-- The in-zone part of an NSEC key: the labels below the zone, from the zone down, joined by
zero octets. -/
theorem dropLast_flatMap_bytes (r : List Label) :
    (r.flatMap fun l => l.bytes ++ [0]).dropLast = [0].intercalate (r.map Label.bytes) := by
  rw [← ListLex.dropLast_flatMap_append, List.flatMap_map]

/-- Labels without zero octets, joined by zero octets, keep the order of the label lists. -/
theorem intercalate_bytes_lt {r r' : List Label} (hr' : ∀ l ∈ r', 0 ∉ l.bytes) (h : r < r') :
    [0].intercalate (r.map Label.bytes) < [0].intercalate (r'.map Label.bytes) := by
  apply ListLex.intercalate_lt_intercalate
  · simp only [List.mem_map]
    rintro _ ⟨l, -, rfl⟩
    exact l.bytes_ne_nil
  · simp only [List.mem_map]
    rintro _ ⟨l, hl, rfl⟩
    refine ⟨l.bytes_ne_nil, fun x hx => ?_⟩
    have hx0 : x ≠ 0 := fun h0 => hr' l hl (h0 ▸ hx)
    exact UInt8.lt_iff_toNat_lt.mpr (Nat.pos_of_ne_zero fun h => hx0 (UInt8.toNat_inj.mp h))
  · exact List.map_lt (fun _ _ hab => Label.bytes_lt_iff.mpr hab) h

section Below

variable {z a b : Dname} {ra rb : List Label}

/-- Below a common zone, names compare as the in-zone parts of their NSEC keys. -/
theorem intercalate_bytes_lt_iff (ha : a.key = z.key ++ ra) (hb : b.key = z.key ++ rb)
    (ha0 : ∀ l ∈ ra, 0 ∉ l.bytes) (hb0 : ∀ l ∈ rb, 0 ∉ l.bytes) :
    [0].intercalate (ra.map Label.bytes) < [0].intercalate (rb.map Label.bytes) ↔ a < b := by
  refine (ListLex.lt_iff_of_lt_imp_lt (P := fun r : List Label => ∀ l ∈ r, 0 ∉ l.bytes)
    (f := fun r => [0].intercalate (r.map Label.bytes))
    (fun _ _ _ hr' h => intercalate_bytes_lt hr' h) ha0 hb0).trans ?_
  rw [Dname.lt_iff_key_lt, ha, hb]
  exact ListLex.append_lt_append_left_iff.symm

theorem intercalate_bytes_eq_iff (ha : a.key = z.key ++ ra) (hb : b.key = z.key ++ rb)
    (ha0 : ∀ l ∈ ra, 0 ∉ l.bytes) (hb0 : ∀ l ∈ rb, 0 ∉ l.bytes) :
    [0].intercalate (ra.map Label.bytes) = [0].intercalate (rb.map Label.bytes) ↔ a = b := by
  refine (ListLex.eq_iff_of_lt_imp_lt (P := fun r : List Label => ∀ l ∈ r, 0 ∉ l.bytes)
    (f := fun r => [0].intercalate (r.map Label.bytes))
    (fun _ _ _ hr' h => intercalate_bytes_lt hr' h) ha0 hb0).trans ?_
  rw [← Dname.key_injective.eq_iff, ha, hb, List.append_cancel_left_eq]

end Below

/-- The in-zone part of the NSEC key of a name at or below the zone rebuilds the name. -/
theorem dnameWireReconstruct_of_key_eq {z a : Dname} {r : List Label} (hr : a.key = z.key ++ r)
    (h0 : ∀ l ∈ a.labels, 0 ∉ l.bytes) (hsize : knotDnameSize a ≤ knotDnameMaxlen) :
    dnameWireReconstruct (.ofZone z) (r.flatMap fun l => l.bytes ++ [0]).dropLast = .ok a.wire := by
  have hr0 : ∀ l ∈ r, 0 ∉ l.bytes := fun l hl => h0 l (mem_labels_of_key_eq hr (.inr hl))
  -- the lookup format of `a` is the zone's and then the in-zone part
  have hlen : (knotDnameLf z).length + (r.flatMap fun l => l.bytes ++ [0]).length + 1 ≤
      knotDnameMaxlen := by
    have := length_knotDnameLf a
    rw [knotDnameLf_of_key_eq hr, List.length_append] at this
    omega
  have hdrop : (r.flatMap fun l => l.bytes ++ [0]).dropLast.length =
      (r.flatMap fun l => l.bytes ++ [0]).length - 1 := List.length_dropLast
  have hbuf := knotDnameLf2wire_dropLast hr0 (by unfold knotDnameMaxlen at hlen; omega)
  set W := (r.flatMap fun l => l.bytes ++ [0]).dropLast
  -- the zone name fits where the root's zero octet was
  have hfit : ¬ knotDnameSize z > knotDnameMaxlen - W.length := by
    have := length_knotDnameLf z
    omega
  have hzone : knotDnameToWire z (knotDnameMaxlen - W.length) = .ok z.wire := by
    rw [knotDnameToWire, if_neg hfit]
  have hzlen : z.wire.length = (knotDnameLf z).length + 1 := by
    rw [length_wire, length_knotDnameLf]
  have hname : labelsWire r.reverse ++ z.wire = a.wire := by
    have hlabels : a.labels = r.reverse ++ z.labels := by
      simpa [Dname.key] using congrArg List.reverse hr
    rw [Dname.wire, Dname.wire, hlabels, labelsWire_append, List.append_assoc]
  simp [dnameWireReconstruct, hbuf, hzone, hzlen, hname, bind, Except.bind, pure, Except.pure]

/-- No key whose tag follows the lookup format of a name without zero octets starts as the NSEC
keys of a zone do, unless its tag is `1`. -/
theorem not_prefix_of_tag_ne {z n : Dname} (hz : ∀ l ∈ z.labels, 0 ∉ l.bytes)
    (hn : ∀ l ∈ n.labels, 0 ∉ l.bytes) {t : UInt8} (ht : t ≠ 49) (rest : List UInt8) :
    ¬ knotDnameLf z ++ [0, 49] <+: knotDnameLf n ++ 0 :: t :: rest := by
  rintro ⟨u, hu⟩
  have hscan := tagSplit_knotDnameLf hn t rest
  rw [← hu, List.append_assoc, List.cons_append, List.cons_append, List.nil_append,
    tagSplit_knotDnameLf hz] at hscan
  simp only [Option.some.injEq, Prod.mk.injEq, List.cons.injEq] at hscan
  exact ht hscan.2.1.symm

end Nsec1

section KeyLaws

/-- The NSEC keys of the names at or below a zone compare as the names do in canonical order;
they start with the zone's lookup format and the tag `1`, which neither an exact key nor a key
with another tag after the lookup format of a name without zero octets starts with; the
wildcard key of `c` is the key of `*.c`; and the in-zone part gives the name back. -/
theorem keyNsec1_order_embedding {z a b : Dname} (hza : z.IsAncestorOrSelf a)
    (hzb : z.IsAncestorOrSelf b) (ha : checkDnameForLf a = true) (hb : checkDnameForLf b = true)
    (hal : a.IsLower) (hbl : b.IsLower) (hsize : knotDnameSize a ≤ knotDnameMaxlen) :
    ∃ ka kb, keyNsec1 (.ofZone z) a false = some ka ∧ keyNsec1 (.ofZone z) b false = some kb ∧
      (ka < kb ↔ a.CanonicalLt b) ∧ (ka = kb ↔ a = b) ∧
      knotDnameLf z ++ [0, 49] <+: ka ∧
      (∀ n type key, checkDnameForLf n = true →
        keyExactTypeMaypkt (knotDnameLf n) type = some key → ¬ knotDnameLf z ++ [0, 49] <+: key) ∧
      (∀ n t rest, checkDnameForLf n = true → t ≠ 49 →
        ¬ knotDnameLf z ++ [0, 49] <+: knotDnameLf n ++ 0 :: t :: rest) ∧
      (∀ c, knotDnameSize c.wildcard ≤ knotDnameMaxlen →
        keyNsec1 (.ofZone z) c true = keyNsec1 (.ofZone z) c.wildcard false) ∧
      dnameWireReconstruct (.ofZone z) (ka.drop (keyNwzOff (.ofZone z))) = .ok a.wire := by
  rw [checkDnameForLf_iff] at ha hb
  have hz0 := labels_zero_free_of_isAncestorOrSelf hza ha
  obtain ⟨ra, hra⟩ := hza
  obtain ⟨rb, hrb⟩ := hzb
  have ha0 : ∀ l ∈ ra, 0 ∉ l.bytes := fun l hl =>
    ha l (mem_labels_of_key_eq hra.symm (.inr hl))
  have hb0 : ∀ l ∈ rb, 0 ∉ l.bytes := fun l hl =>
    hb l (mem_labels_of_key_eq hrb.symm (.inr hl))
  refine ⟨_, _, keyNsec1_of_key_eq hra.symm, keyNsec1_of_key_eq hrb.symm, ?_, ?_,
    List.prefix_append _ _, ?_, ?_, fun c hc => keyNsec1_wildcard _ hc, ?_⟩
  · rw [ListLex.append_lt_append_left_iff, dropLast_flatMap_bytes, dropLast_flatMap_bytes,
      intercalate_bytes_lt_iff hra.symm hrb.symm ha0 hb0, Dname.canonicalLt_iff_of_isLower hal hbl]
  · rw [List.append_cancel_left_eq, dropLast_flatMap_bytes, dropLast_flatMap_bytes,
      intercalate_bytes_eq_iff hra.symm hrb.symm ha0 hb0]
  · intro n type key hn hkey
    obtain ⟨-, rfl⟩ := keyExactTypeMaypkt_eq_some_iff.mp hkey
    exact not_prefix_of_tag_ne hz0 (checkDnameForLf_iff.mp hn) (by decide) _
  · intro n t rest hn ht
    exact not_prefix_of_tag_ne hz0 (checkDnameForLf_iff.mp hn) ht rest
  · have hwithin : (knotDnameLf z ++ [0, 49] ++
        (ra.flatMap fun (l : Label) => l.bytes ++ [0]).dropLast).drop (keyNwzOff (.ofZone z)) =
          (ra.flatMap fun (l : Label) => l.bytes ++ [0]).dropLast := by
      simp [keyNwzOff]
    rw [hwithin]
    exact dnameWireReconstruct_of_key_eq hra.symm ha hsize

theorem keyNsec1_order_embedding_wildcards :
    let z := Dname.root
    let a := Dname.root.wildcard.wildcard
    let b := Dname.root.wildcard
    ∃ ka kb, keyNsec1 (.ofZone z) a false = some ka ∧ keyNsec1 (.ofZone z) b false = some kb ∧
      (ka < kb ↔ a.CanonicalLt b) ∧ (ka = kb ↔ a = b) ∧
      knotDnameLf z ++ [0, 49] <+: ka ∧
      (∀ n type key, checkDnameForLf n = true →
        keyExactTypeMaypkt (knotDnameLf n) type = some key → ¬ knotDnameLf z ++ [0, 49] <+: key) ∧
      (∀ n t rest, checkDnameForLf n = true → t ≠ 49 →
        ¬ knotDnameLf z ++ [0, 49] <+: knotDnameLf n ++ 0 :: t :: rest) ∧
      (∀ c, knotDnameSize c.wildcard ≤ knotDnameMaxlen →
        keyNsec1 (.ofZone z) c true = keyNsec1 (.ofZone z) c.wildcard false) ∧
      dnameWireReconstruct (.ofZone z) (ka.drop (keyNwzOff (.ofZone z))) = .ok a.wire :=
  keyNsec1_order_embedding (by decide) (by decide) (by decide) (by decide) (by decide) (by decide)
    (by decide)

/-- An exact key made after `kr_dname_lf` for a name without zero octets unpacks to the name and
the type the key was made for, and every NSEC key of a name at or below its zone is refused. -/
theorem krUnpackCacheKey_decodes_exact_keys {n : Dname} {type : RRType} {lf key : List UInt8}
    (hn : checkDnameForLf n = true) (hsize : knotDnameSize n ≤ knotDnameMaxlen)
    (hlf : krDnameLf n false = .ok lf) (hkey : keyExactTypeMaypkt lf type = some key)
    {z a : Dname} {w : Bool} {nsecKey : List UInt8} (ha : checkDnameForLf a = true)
    (hza : z.IsAncestorOrSelf a) (hnsec : keyNsec1 (.ofZone z) a w = some nsecKey) :
    krUnpackCacheKey key = .ok (n.wire, exactKeyType type) ∧
      krUnpackCacheKey nsecKey = .error (krError Errno.einval) := by
  constructor
  · cases hlf
    obtain ⟨-, rfl⟩ := keyExactTypeMaypkt_eq_some_iff.mp hkey
    exact krUnpackCacheKey_exact (checkDnameForLf_iff.mp hn) hsize _
  · obtain ⟨rest, rfl⟩ := keyNsec1_eq_some hza hnsec
    have hz0 := labels_zero_free_of_isAncestorOrSelf hza (checkDnameForLf_iff.mp ha)
    rw [krUnpackCacheKey, tagSplit_knotDnameLf hz0]
    simp

theorem krUnpackCacheKey_decodes_exact_keys_wildcard :
    krUnpackCacheKey [42, 0, 0, 69, 2, 0] =
        .ok (Dname.root.wildcard.wire, exactKeyType RRType.cname) ∧
      krUnpackCacheKey [0, 49, 42] = .error (krError Errno.einval) :=
  krUnpackCacheKey_decodes_exact_keys (n := Dname.root.wildcard) (by decide) (by decide) rfl
    (by decide) (z := Dname.root) (a := Dname.root.wildcard) (w := false) (by decide) (by decide)
    (by decide)

end KeyLaws

end KnotResolver
