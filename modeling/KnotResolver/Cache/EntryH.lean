import Mathlib
import KnotResolver.Cache.Keys

/-!
# Entries of the cache: `struct entry_h` and its length

An entry (`lib/cache/impl.h`) is a 4-octet time, a 4-octet TTL, a flag octet (the rank in bits
0 to 5, `is_packet` in bit 6, `has_optout` in bit 7), a pad octet and the data: for an RRset,
its records and then its signatures as `rdataset_dematerialize` (`lib/cache/entry_rr.c`) writes
them; for a packet, a 2-octet length and the packet, padded to even. `entry_h_len`
(`lib/cache/entry_list.c`) finds the end of an entry by walking that data. Bit fields, `uint16_t`
and `uint32_t` are laid out as on a little-endian host.

The main results: `entry_h_len` measures an entry the cache writes at its length padded to
even, whatever follows it (`EntryHWf.entryStable`), and whatever it accepts it measures the same
way once cut to the measured length (`entryStable_take`).
-/

namespace KnotResolver

/-! ## Octet buffers -/

/-- The `uint16_t` that `memcpy` reads at offset `off`; octets past the end read as zero. -/
def readHost16 (buf : List UInt8) (off : ℕ) : ℕ :=
  (buf.getD off 0).toNat + 256 * (buf.getD (off + 1) 0).toNat

/-- The `uint32_t` that `memcpy` reads at offset `off`. -/
def readHost32 (buf : List UInt8) (off : ℕ) : ℕ :=
  readHost16 buf off + 65536 * readHost16 buf (off + 2)

/-- A `uint32_t` as `memcpy` lays it out on a little-endian host. -/
def hostBytes32 (x : UInt32) : List UInt8 :=
  [(x.toNat % 256).toUInt8, (x.toNat / 256 % 256).toUInt8, (x.toNat / 65536 % 256).toUInt8,
    (x.toNat / 16777216).toUInt8]

/-- `memcpy(buf + off, bytes, n)`, with `bytes` the `n` octets copied. -/
def writeBytes (buf : List UInt8) (off : ℕ) (bytes : List UInt8) : List UInt8 :=
  buf.take off ++ bytes ++ buf.drop (off + bytes.length)

/-- `to_even` -/
def toEven (n : ℕ) : ℕ := n + n % 2

/-! ## Rdatasets in the cache -/

/-- `knot_rdata_size` of libknot: the length field, the data and a pad octet after odd data. -/
def knotRdataSize (len : ℕ) : ℕ := 2 + len + len % 2

/-- A record of a `knot_rdataset_t` as libknot lays it out: the `uint16_t` length, the data
and, after odd data, the zero pad octet of `knot_rdata_init`. -/
def knotRdataBytes (r : List UInt8) : List UInt8 :=
  hostBytes16 r.length.toUInt16 ++ r ++ List.replicate (r.length % 2) 0

/-- `rdataset_dematerialize`: the `uint16_t` count, then the records as the rdataset holds
them. -/
def rdatasetDematerialize (rds : List (List UInt8)) : List UInt8 :=
  hostBytes16 rds.length.toUInt16 ++ rds.flatMap knotRdataBytes

/-- The loop of `rdataset_dematerialized_size`: `count` records from offset `p`, each its
length field and its padded data. -/
def rdataWalk (data : List UInt8) : ℕ → ℕ → ℕ
  | 0, p => p
  | count + 1, p => rdataWalk data count (p + knotRdataSize (readHost16 data p))

/-- `rdataset_dematerialized_size`: the length of the records after the count. -/
def rdatasetDematerializedSize (data : List UInt8) : ℕ :=
  rdataWalk data (readHost16 data 0) 2 - 2

/-! ## Entries -/

/-- The ten octets of `struct entry_h` before its data: `time`, `ttl`, the octet of the bit
fields `rank`, `is_packet` and `has_optout` (bits 0-5, 6 and 7), and the pad octet. -/
def entryHHeader (time ttl : UInt32) (rank : UInt8) (isPacket hasOptout : Bool) : List UInt8 :=
  hostBytes32 time ++ hostBytes32 ttl ++
    [(rank &&& 63) ||| (if isPacket then 64 else 0) ||| (if hasOptout then 128 else 0), 0]

/-- An RRset entry as `stash_rrset` writes it: the header, then the records and their
signatures dematerialized. -/
def entryRRsetBytes (time ttl : UInt32) (rank : UInt8) (rrs sigs : List (List UInt8)) :
    List UInt8 :=
  entryHHeader time ttl rank false false ++ rdatasetDematerialize rrs ++
    rdatasetDematerialize sigs

/-- A packet entry as `stash_pkt` writes it: the header, the `uint16_t` size of the packet
and the packet. -/
def entryPktBytes (time ttl : UInt32) (rank : UInt8) (hasOptout : Bool) (pkt : List UInt8) :
    List UInt8 :=
  entryHHeader time ttl rank true hasOptout ++ hostBytes16 pkt.length.toUInt16 ++ pkt

/-- The `is_packet` bit of an entry's header. -/
def entryIsPacket (eh : List UInt8) : Bool := (eh.getD 8 0).toNat.testBit 6

/-- The loop of `entry_h_len` over the rdatasets of an RRset entry, `sets` of them from
offset `d`; `none` where one overruns the value. -/
def entryHSets (val : List UInt8) : ℕ → ℕ → Option ℕ
  | 0, d => some d
  | sets + 1, d =>
    let d := d + 2 + rdatasetDematerializedSize (val.drop d)
    if d > val.length then none else entryHSets val sets d

/-- `entry_h_len`: the length of the entry at the start of `val`, up to the bound of `val`. -/
def entryHLen (val : List UInt8) : Except ℤ ℕ :=
  if val.length = 0 then .error (krError Errno.einval)
  else if 10 ≥ val.length then .error (krError Errno.eilseq)
  else
    let d : Option ℕ :=
      if !entryIsPacket val then entryHSets val 2 10
      -- a packet: its `uint16_t` length, then the packet padded to even
      else if 10 + 2 > val.length then none
      else some (10 + 2 + toEven (readHost16 val 10))
    match d with
    | none => .error (krError Errno.eilseq)
    | some d => if d > val.length then .error (krError Errno.eilseq) else .ok d

/-! ## Reading what was written -/

section Buffers

@[simp] theorem length_hostBytes16 (x : UInt16) : (hostBytes16 x).length = 2 := rfl

@[simp] theorem length_hostBytes32 (x : UInt32) : (hostBytes32 x).length = 4 := rfl

theorem getD_append_length (pre rest : List UInt8) (k : ℕ) :
    (pre ++ rest).getD (pre.length + k) 0 = rest.getD k 0 := by
  simp [List.getD_eq_getElem?_getD, List.getElem?_append_right]

theorem getD_take {val : List UInt8} {n k : ℕ} (hk : k < n) : (val.take n).getD k 0 = val.getD k 0 := by
  simp [List.getD_eq_getElem?_getD, hk]

theorem getD_drop (val : List UInt8) (p k : ℕ) : (val.drop p).getD k 0 = val.getD (p + k) 0 := by
  simp [List.getD_eq_getElem?_getD]

theorem getD_take_append {v w : List UInt8} {n j : ℕ} (hn : n ≤ v.length) (hj : j < n) :
    (v.take n ++ w).getD j 0 = v.getD j 0 := by
  rw [List.getD_append _ _ _ _ (by simp; omega), getD_take hj]

/-- The two octets of a `uint16_t` read back as it. -/
theorem readHost16_hostBytes16 (pre rest : List UInt8) (x : UInt16) :
    readHost16 (pre ++ hostBytes16 x ++ rest) pre.length = x.toNat := by
  have hx := x.toNat_lt
  have h0 := getD_append_length pre (hostBytes16 x ++ rest) 0
  have h1 := getD_append_length pre (hostBytes16 x ++ rest) 1
  rw [Nat.add_zero] at h0
  rw [readHost16, List.append_assoc, h0, h1]
  simp only [hostBytes16, List.cons_append, List.getD_cons_zero, List.getD_cons_succ]
  simp only [Nat.toUInt8, UInt8.toNat_ofNat']
  omega

theorem readHost16_congr {v v' : List UInt8} {p : ℕ} (h0 : v.getD p 0 = v'.getD p 0)
    (h1 : v.getD (p + 1) 0 = v'.getD (p + 1) 0) : readHost16 v' p = readHost16 v p := by
  rw [readHost16, readHost16, h0, h1]

theorem length_writeBytes {buf bytes : List UInt8} {off : ℕ} (h : off + bytes.length ≤ buf.length) :
    (writeBytes buf off bytes).length = buf.length := by
  simp [writeBytes]
  omega

theorem take_drop_eq_drop_take (X : List UInt8) (p n : ℕ) :
    (X.drop p).take n = (X.take (p + n)).drop p := by
  rw [List.drop_take, Nat.add_sub_cancel_left]

theorem take_take_of_le {m n : ℕ} (h : m ≤ n) (X : List UInt8) : (X.take n).take m = X.take m := by
  rw [List.take_take, Nat.min_eq_left h]

theorem take_writeBytes_of_le {buf bytes : List UInt8} {off k : ℕ} (hk : k ≤ off)
    (hoff : off ≤ buf.length) : (writeBytes buf off bytes).take k = buf.take k := by
  rw [writeBytes, List.append_assoc, List.take_append_of_le_length (by simp; omega),
    List.take_take, Nat.min_eq_left hk]

theorem drop_writeBytes_of_le {buf bytes : List UInt8} {off p : ℕ}
    (hp : off + bytes.length ≤ p) (h : off + bytes.length ≤ buf.length) :
    (writeBytes buf off bytes).drop p = buf.drop p := by
  have hpre : (buf.take off ++ bytes).length = off + bytes.length := by simp; omega
  rw [writeBytes, show p = (buf.take off ++ bytes).length + (p - (off + bytes.length)) by omega,
    ← List.drop_drop, List.drop_left, List.drop_drop, hpre]

theorem drop_take_writeBytes_self {buf bytes : List UInt8} {off : ℕ}
    (h : off + bytes.length ≤ buf.length) :
    ((writeBytes buf off bytes).drop off).take bytes.length = bytes := by
  have hpre : (buf.take off).length = off := by simp; omega
  rw [writeBytes, List.append_assoc, List.drop_left' hpre, List.take_left]

/-- A write leaves the octets before it and after it. -/
theorem drop_take_writeBytes_of_disjoint {buf bytes : List UInt8} {off p n : ℕ}
    (hdisj : p + n ≤ off ∨ off + bytes.length ≤ p) (h : off + bytes.length ≤ buf.length) :
    ((writeBytes buf off bytes).drop p).take n = (buf.drop p).take n := by
  rcases hdisj with hle | hge
  · rw [take_drop_eq_drop_take, take_drop_eq_drop_take, take_writeBytes_of_le hle (by omega)]
  · rw [drop_writeBytes_of_le hge h]

theorem le_toEven (n : ℕ) : n ≤ toEven n := Nat.le_add_right n _

theorem toEven_toEven (n : ℕ) : toEven (toEven n) = toEven n := by
  simp only [toEven]
  omega

theorem toEven_eq_self_iff {n : ℕ} : toEven n = n ↔ n % 2 = 0 := by
  simp [toEven]

end Buffers

/-! ## Rdatasets -/

section Rdataset

@[simp] theorem length_knotRdataBytes (r : List UInt8) :
    (knotRdataBytes r).length = knotRdataSize r.length := by
  simp [knotRdataBytes, knotRdataSize]
  omega

theorem length_rdatasetDematerialize (rds : List (List UInt8)) :
    (rdatasetDematerialize rds).length = 2 + (rds.flatMap knotRdataBytes).length := by
  simp [rdatasetDematerialize]

theorem length_flatMap_knotRdataBytes_mod_two (rds : List (List UInt8)) :
    (rds.flatMap knotRdataBytes).length % 2 = 0 := by
  induction rds with
  | nil => rfl
  | cons r rds ih =>
    simp only [List.flatMap_cons, List.length_append, length_knotRdataBytes, knotRdataSize]
    omega

/-- An RRset entry, with records and signatures that fit their `uint16_t` counts and lengths. -/
def RdatasetFits (rds : List (List UInt8)) : Prop :=
  rds.length < 65536 ∧ ∀ r ∈ rds, r.length < 65536

instance decidableRdatasetFits (rds : List (List UInt8)) : Decidable (RdatasetFits rds) :=
  inferInstanceAs (Decidable (_ ∧ _))

/-- The walk of `rdataset_dematerialized_size` steps over each record `rdataset_dematerialize`
laid out. -/
theorem rdataWalk_flatMap (rest : List UInt8) :
    ∀ (rds : List (List UInt8)) (pre : List UInt8), (∀ r ∈ rds, r.length < 65536) →
      rdataWalk (pre ++ rds.flatMap knotRdataBytes ++ rest) rds.length pre.length =
        pre.length + (rds.flatMap knotRdataBytes).length
  | [], pre, _ => by simp [rdataWalk]
  | r :: rds, pre, hr => by
    have hlen : (r.length.toUInt16).toNat = r.length := by
      simp only [Nat.toUInt16, UInt16.toNat_ofNat']
      exact Nat.mod_eq_of_lt (hr r List.mem_cons_self)
    have hread : readHost16 (pre ++ (r :: rds).flatMap knotRdataBytes ++ rest) pre.length =
        r.length := by
      rw [List.flatMap_cons, knotRdataBytes]
      have h := readHost16_hostBytes16 pre
        (r ++ List.replicate (r.length % 2) 0 ++ rds.flatMap knotRdataBytes ++ rest)
        r.length.toUInt16
      rw [hlen] at h
      simpa only [List.append_assoc] using h
    have ih := rdataWalk_flatMap rest rds (pre ++ knotRdataBytes r)
      (fun r' hr' => hr r' (List.mem_cons_of_mem _ hr'))
    rw [List.length_cons, rdataWalk, hread]
    simp only [List.flatMap_cons, List.length_append, length_knotRdataBytes, List.append_assoc]
      at ih ⊢
    rw [ih]
    omega

/-- `rdataset_dematerialized_size` measures the records of a dematerialized rdataset, whatever
follows them. -/
theorem rdatasetDematerializedSize_append {rds : List (List UInt8)} (hn : rds.length < 65536)
    (hr : ∀ r ∈ rds, r.length < 65536) (rest : List UInt8) :
    rdatasetDematerializedSize (rdatasetDematerialize rds ++ rest) =
      (rds.flatMap knotRdataBytes).length := by
  have hcount : (rds.length.toUInt16).toNat = rds.length := by
    simp only [Nat.toUInt16, UInt16.toNat_ofNat']
    exact Nat.mod_eq_of_lt hn
  have h0 := readHost16_hostBytes16 [] (rds.flatMap knotRdataBytes ++ rest) rds.length.toUInt16
  have hw := rdataWalk_flatMap rest rds (hostBytes16 rds.length.toUInt16) hr
  rw [hcount] at h0
  simp only [List.nil_append, List.length_nil] at h0
  simp only [length_hostBytes16, List.append_assoc] at hw
  rw [rdatasetDematerializedSize, rdatasetDematerialize, List.append_assoc, h0, hw]
  omega

theorem le_knotRdataSize (len : ℕ) : 2 ≤ knotRdataSize len := by
  simp only [knotRdataSize]
  omega

/-- The walk of `rdataset_dematerialized_size` moves by even steps of at least two. -/
theorem rdataWalk_ge (v : List UInt8) :
    ∀ c p, p + 2 * c ≤ rdataWalk v c p ∧ rdataWalk v c p % 2 = p % 2
  | 0, p => by simp [rdataWalk]
  | c + 1, p => by
    obtain ⟨hge, hmod⟩ := rdataWalk_ge v c (p + knotRdataSize (readHost16 v p))
    have h2 := le_knotRdataSize (readHost16 v p)
    have heven : knotRdataSize (readHost16 v p) % 2 = 0 := by
      simp only [knotRdataSize]
      omega
    rw [rdataWalk]
    omega

/-- The walk reads no octet at or past where it ends. -/
theorem rdataWalk_congr {v v' : List UInt8} :
    ∀ c p, (∀ j < rdataWalk v c p, v.getD j 0 = v'.getD j 0) → rdataWalk v' c p = rdataWalk v c p
  | 0, _, _ => rfl
  | c + 1, p, h => by
    have hend := (rdataWalk_ge v c (p + knotRdataSize (readHost16 v p))).1
    have h2 := le_knotRdataSize (readHost16 v p)
    simp only [rdataWalk] at h hend ⊢
    rw [readHost16_congr (h p (by omega)) (h (p + 1) (by omega))]
    exact rdataWalk_congr c _ h

/-- `rdataset_dematerialized_size` reads no octet past the records it measures. -/
theorem rdatasetDematerializedSize_congr {u u' : List UInt8}
    (h : ∀ j < 2 + rdatasetDematerializedSize u, u.getD j 0 = u'.getD j 0) :
    rdatasetDematerializedSize u' = rdatasetDematerializedSize u := by
  have hwalk := (rdataWalk_ge u (readHost16 u 0) 2).1
  have hfull : 2 + rdatasetDematerializedSize u = rdataWalk u (readHost16 u 0) 2 := by
    rw [rdatasetDematerializedSize]
    omega
  rw [hfull] at h
  have hcount : readHost16 u' 0 = readHost16 u 0 :=
    readHost16_congr (h 0 (by omega)) (h 1 (by omega))
  rw [rdatasetDematerializedSize, rdatasetDematerializedSize, hcount, rdataWalk_congr _ _ h]

end Rdataset

/-! ## The length of an entry -/

section EntryLen

@[simp] theorem length_entryHHeader (time ttl : UInt32) (rank : UInt8) (isPacket hasOptout : Bool) :
    (entryHHeader time ttl rank isPacket hasOptout).length = 10 := rfl

/-- The flag octet of the header keeps `is_packet` in bit 6. -/
theorem entryIsPacket_entryHHeader (time ttl : UInt32) (rank : UInt8) (isPacket hasOptout : Bool)
    (rest : List UInt8) :
    entryIsPacket (entryHHeader time ttl rank isPacket hasOptout ++ rest) = isPacket := by
  have h8 : (entryHHeader time ttl rank isPacket hasOptout ++ rest).getD 8 0 =
      (rank &&& 63) ||| (if isPacket then 64 else 0) ||| (if hasOptout then 128 else 0) := by
    simp [entryHHeader, hostBytes32]
  rw [entryIsPacket, h8]
  have h63 : Nat.testBit 63 6 = false := by decide
  have h64 : Nat.testBit 64 6 = true := by decide
  have h128 : Nat.testBit 128 6 = false := by decide
  cases isPacket <;> cases hasOptout <;>
    simp [UInt8.toNat_or, UInt8.toNat_and, Nat.testBit_or, Nat.testBit_and, h63, h64, h128]

/-- The two rounds of the loop of `entry_h_len` step over two rdatasets after the header, each
measured by `rdataset_dematerialized_size`. -/
theorem entryHSets_two {hdr A B rest : List UInt8} (hhdr : hdr.length = 10)
    (hA : 2 + rdatasetDematerializedSize (A ++ (B ++ rest)) = A.length)
    (hB : 2 + rdatasetDematerializedSize (B ++ rest) = B.length) :
    entryHSets (hdr ++ (A ++ (B ++ rest))) 2 10 = some (10 + A.length + B.length) := by
  have hdrop1 : (hdr ++ (A ++ (B ++ rest))).drop 10 = A ++ (B ++ rest) := List.drop_left' hhdr
  have hdrop2 : (hdr ++ (A ++ (B ++ rest))).drop (10 + A.length) = B ++ rest := by
    rw [← List.drop_drop, hdrop1, List.drop_left]
  have hd1 : 10 + 2 + rdatasetDematerializedSize (A ++ (B ++ rest)) = 10 + A.length := by omega
  simp only [entryHSets, hdrop1, hd1, hdrop2]
  rw [if_neg (by simp; omega), if_neg (by simp; omega)]
  congr 1
  omega

/-- `entry_h_len` measures an RRset entry by its two rdatasets, whatever follows it. -/
theorem entryHLen_entryRRsetBytes {rrs sigs : List (List UInt8)} (hrrs : RdatasetFits rrs)
    (hsigs : RdatasetFits sigs) (time ttl : UInt32) (rank : UInt8) (rest : List UInt8) :
    entryHLen (entryRRsetBytes time ttl rank rrs sigs ++ rest) =
      .ok (entryRRsetBytes time ttl rank rrs sigs).length := by
  have hval : entryRRsetBytes time ttl rank rrs sigs ++ rest =
      entryHHeader time ttl rank false false ++
        (rdatasetDematerialize rrs ++ (rdatasetDematerialize sigs ++ rest)) := by
    simp [entryRRsetBytes]
  have hlen : (entryRRsetBytes time ttl rank rrs sigs).length =
      10 + (rdatasetDematerialize rrs).length + (rdatasetDematerialize sigs).length := by
    simp [entryRRsetBytes]
    omega
  have hsets := @entryHSets_two _ (rdatasetDematerialize rrs) (rdatasetDematerialize sigs) rest
    (length_entryHHeader time ttl rank false false)
    (by rw [rdatasetDematerializedSize_append hrrs.1 hrrs.2, length_rdatasetDematerialize])
    (by rw [rdatasetDematerializedSize_append hsigs.1 hsigs.2, length_rdatasetDematerialize])
  rw [hval, entryHLen, if_neg (by simp), if_neg (by simp [length_rdatasetDematerialize]),
    entryIsPacket_entryHHeader]
  simp only [Bool.not_false, if_true, hsets]
  rw [if_neg (by simp; omega), hlen]

/-- `entry_h_len` measures a packet entry by the size before the packet, padded to even; the
value must hold the pad octet after an odd packet. -/
theorem entryHLen_entryPktBytes {pkt : List UInt8} (hpkt : pkt.length < 65536)
    (time ttl : UInt32) (rank : UInt8) (hasOptout : Bool) {rest : List UInt8}
    (hpad : toEven (entryPktBytes time ttl rank hasOptout pkt).length ≤
      (entryPktBytes time ttl rank hasOptout pkt).length + rest.length) :
    entryHLen (entryPktBytes time ttl rank hasOptout pkt ++ rest) =
      .ok (toEven (entryPktBytes time ttl rank hasOptout pkt).length) := by
  have hlen : (entryPktBytes time ttl rank hasOptout pkt).length = 12 + pkt.length := by
    simp [entryPktBytes]
    omega
  have hsize : readHost16 (entryPktBytes time ttl rank hasOptout pkt ++ rest) 10 = pkt.length := by
    have h := readHost16_hostBytes16 (entryHHeader time ttl rank true hasOptout) (pkt ++ rest)
      pkt.length.toUInt16
    simp only [length_entryHHeader, Nat.toUInt16, UInt16.toNat_ofNat',
      Nat.mod_eq_of_lt (show pkt.length < 2 ^ 16 by simpa using hpkt)] at h
    simpa [entryPktBytes] using h
  have hpk : entryIsPacket (entryPktBytes time ttl rank hasOptout pkt ++ rest) = true := by
    simpa [entryPktBytes] using
      entryIsPacket_entryHHeader time ttl rank true hasOptout (hostBytes16 pkt.length.toUInt16 ++ pkt ++ rest)
  have hv : (entryPktBytes time ttl rank hasOptout pkt ++ rest).length =
      12 + pkt.length + rest.length := by
    rw [List.length_append, hlen]
  have heven : toEven (12 + pkt.length) = 12 + toEven pkt.length := by
    simp only [toEven]
    omega
  rw [hlen] at hpad ⊢
  rw [entryHLen]
  simp only [hv, hpk, hsize, Bool.not_true]
  rw [if_neg (by omega), if_neg (by omega), if_neg (by simp), if_neg (by omega)]
  simp only
  rw [if_neg (by omega), heven]

theorem entryHSets_ge {v : List UInt8} :
    ∀ {s d n : ℕ}, entryHSets v s d = some n → d + 2 * s ≤ n ∧ n % 2 = d % 2 ∧ n ≤ v.length ∨
      (s = 0 ∧ n = d)
  | 0, d, n, h => by
    simp only [entryHSets, Option.some.injEq] at h
    exact .inr ⟨rfl, h.symm⟩
  | s + 1, d, n, h => by
    simp only [entryHSets] at h
    split_ifs at h with hd
    have hsize := rdataWalk_ge (v.drop d) (readHost16 (v.drop d) 0) 2
    have heven : rdatasetDematerializedSize (v.drop d) % 2 = 0 := by
      rw [rdatasetDematerializedSize]
      omega
    left
    rcases entryHSets_ge h with ⟨hge, hmod, hle⟩ | ⟨rfl, rfl⟩
    · refine ⟨by omega, by omega, hle⟩
    · refine ⟨by omega, by omega, by omega⟩

/-- The loop of `entry_h_len` reads no octet past where it ends, and checks only that end
against the bound. -/
theorem entryHSets_congr {v v' : List UInt8} :
    ∀ {s d n : ℕ}, entryHSets v s d = some n → n ≤ v'.length →
      (∀ j < n, v.getD j 0 = v'.getD j 0) → entryHSets v' s d = some n
  | 0, _, _, h, _, _ => h
  | s + 1, d, n, h, hn, hagree => by
    simp only [entryHSets] at h ⊢
    split_ifs at h with hd
    have hnext := entryHSets_ge h
    have hd' : d + 2 + rdatasetDematerializedSize (v.drop d) ≤ n := by
      rcases hnext with ⟨hge, -, -⟩ | ⟨-, rfl⟩ <;> omega
    have hsize : rdatasetDematerializedSize (v'.drop d) = rdatasetDematerializedSize (v.drop d) :=
      rdatasetDematerializedSize_congr fun j hj => by
        rw [getD_drop, getD_drop]
        exact hagree (d + j) (by omega)
    rw [hsize, if_neg (by omega)]
    exact entryHSets_congr h hn hagree

/-- What `entry_h_len` accepts: a value longer than the header, and either a packet whose
padded size ends within it or two rdatasets that do. -/
theorem entryHLen_eq_ok {v : List UInt8} {n : ℕ} :
    entryHLen v = .ok n ↔ 10 < v.length ∧ n ≤ v.length ∧
      (entryIsPacket v = true → n = 12 + toEven (readHost16 v 10)) ∧
      (entryIsPacket v = false → entryHSets v 2 10 = some n) := by
  rw [entryHLen]
  by_cases h0 : v.length = 0
  · rw [if_pos h0]
    simp [h0]
  rw [if_neg h0]
  by_cases h10 : 10 ≥ v.length
  · rw [if_pos h10]
    simp only [reduceCtorEq, false_iff]
    omega
  rw [if_neg h10]
  cases hp : entryIsPacket v
  · simp only [Bool.not_false, if_true, Bool.false_eq_true, false_implies, forall_const, true_and]
    cases hs : entryHSets v 2 10 with
    | none => simp
    | some d =>
      simp only [Option.some.injEq]
      split_ifs with hgt
      · simp only [false_iff]
        rintro ⟨-, hn, rfl⟩
        omega
      · simp only [Except.ok.injEq]
        constructor
        · rintro rfl
          exact ⟨by omega, by omega, rfl⟩
        · rintro ⟨-, -, rfl⟩
          rfl
  · simp only [Bool.not_true, Bool.false_eq_true, if_false, forall_const]
    split_ifs with h12
    · simp only [false_iff]
      rintro ⟨-, hn, rfl, -⟩
      omega
    simp only
    split_ifs with hgt
    · simp only [false_iff]
      rintro ⟨-, hn, rfl, -⟩
      omega
    · simp only [Except.ok.injEq]
      constructor
      · rintro rfl
        exact ⟨by omega, by omega, rfl, nofun⟩
      · rintro ⟨-, -, rfl, -⟩
        rfl

/-- `entry_h_len` reads no octet past the length it finds: the entry measures the same with
anything after it. -/
theorem entryHLen_take_append {v : List UInt8} {n : ℕ} (h : entryHLen v = .ok n)
    (w : List UInt8) : entryHLen (v.take n ++ w) = .ok n := by
  obtain ⟨h10, hn, hpk, hsets⟩ := entryHLen_eq_ok.mp h
  have hn12 : 12 ≤ n := by
    cases hp : entryIsPacket v
    · rcases entryHSets_ge (hsets hp) with ⟨hge, -, -⟩ | ⟨h, -⟩ <;> omega
    · rw [hpk hp]
      omega
  have hlen : n ≤ (v.take n ++ w).length := by simp; omega
  have hagree : ∀ j < n, v.getD j 0 = (v.take n ++ w).getD j 0 :=
    fun j hj => (getD_take_append hn hj).symm
  have hp' : entryIsPacket (v.take n ++ w) = entryIsPacket v := by
    rw [entryIsPacket, entryIsPacket, hagree 8 (by omega)]
  refine entryHLen_eq_ok.mpr ⟨by omega, hlen, fun hp => ?_, fun hp => ?_⟩
  · rw [readHost16_congr (hagree 10 (by omega)) (hagree 11 (by omega))]
    exact hpk (hp' ▸ hp)
  · exact entryHSets_congr (hsets (hp' ▸ hp)) hlen hagree

/-- Every length `entry_h_len` finds is even. -/
theorem entryHLen_mod_two {v : List UInt8} {n : ℕ} (h : entryHLen v = .ok n) : n % 2 = 0 := by
  obtain ⟨-, -, hpk, hsets⟩ := entryHLen_eq_ok.mp h
  cases hp : entryIsPacket v
  · rcases entryHSets_ge (hsets hp) with ⟨-, hmod, -⟩ | ⟨h, -⟩ <;> omega
  · rw [hpk hp, toEven]
    omega

end EntryLen

/-! ## Entries that keep their length -/

section Stable

/-- An entry that `entry_h_len` measures at its length padded to even, whatever follows it in
a value that holds the pad. -/
def EntryStable (e : List UInt8) : Prop :=
  ∀ w : List UInt8, toEven e.length ≤ e.length + w.length →
    entryHLen (e ++ w) = .ok (toEven e.length)

/-- An entry as the cache writes it: an RRset entry whose rdatasets fit their counts and
lengths, or a packet entry of a packet that fits its size field. -/
def EntryHWf (e : List UInt8) : Prop :=
  (∃ time ttl rank rrs sigs, RdatasetFits rrs ∧ RdatasetFits sigs ∧
    e = entryRRsetBytes time ttl rank rrs sigs) ∨
  ∃ time ttl rank hasOptout pkt, pkt.length < 65536 ∧ e = entryPktBytes time ttl rank hasOptout pkt

/-- Every entry the cache writes is measured by `entry_h_len` at its padded length. -/
theorem EntryHWf.entryStable {e : List UInt8} (h : EntryHWf e) : EntryStable e := by
  intro w hw
  rcases h with ⟨time, ttl, rank, rrs, sigs, hrrs, hsigs, rfl⟩ | ⟨time, ttl, rank, opt, pkt, hpkt, rfl⟩
  · have heven : toEven (entryRRsetBytes time ttl rank rrs sigs).length =
        (entryRRsetBytes time ttl rank rrs sigs).length := by
      rw [toEven_eq_self_iff]
      have h1 := length_flatMap_knotRdataBytes_mod_two rrs
      have h2 := length_flatMap_knotRdataBytes_mod_two sigs
      rw [entryRRsetBytes, List.length_append, List.length_append, length_entryHHeader,
        length_rdatasetDematerialize, length_rdatasetDematerialize]
      omega
    rw [heven]
    exact entryHLen_entryRRsetBytes hrrs hsigs time ttl rank w
  · exact entryHLen_entryPktBytes hpkt time ttl rank opt hw

/-- An entry `entry_h_len` accepted is stable wherever it is copied. -/
theorem entryStable_take {v : List UInt8} {n : ℕ} (h : entryHLen v = .ok n) :
    EntryStable (v.take n) := by
  intro w _
  have hn := (entryHLen_eq_ok.mp h).2.1
  have hlen : (v.take n).length = n := by simp; omega
  rw [hlen, toEven_eq_self_iff.mpr (entryHLen_mod_two h)]
  exact entryHLen_take_append h w

end Stable

end KnotResolver
