import KnotResolver.Dnssec.Nsec
import KnotResolver.Contrib.Base32hex

/-!
# NSEC3 denial of existence

`lib/dnssec/nsec3.c` and the limits of `lib/dnssec/nsec3.h`. The checks read the raw NSEC3
RRs of a packet section, in order. Each RR is hashed with its own parameters through
libdnssec's `dnssec_nsec3_hash`, which is a parameter `H` of the model; the hash of an owner is
the base32hex decoding of its first label.

The closest encloser proof (RFC 5155 7.2.1) takes the first NSEC3 whose owner hash is the hash
of an ancestor of `sname` (skipping parent-side ones and, since CVE-2023-50868, ancestors
with too many labels), rebuilds the next closer name and looks for an NSEC3 covering its hash.
A covering test is the circular interval test of `covers_name`.

`matches_closest_encloser_wildcard` ends in `kr_require`, which aborts the process; that
outcome is `none` in `krNsec3NoData`.
-/

namespace KnotResolver

/-- `dnssec_nsec3_params_t`: the parameters each NSEC3 RR repeats from NSEC3PARAM. -/
structure Nsec3Params where
  algorithm : UInt8
  flags : UInt8
  iterations : UInt16
  salt : List UInt8
  deriving DecidableEq

/-- `dnssec_nsec3_hash`: the hash of a name under a parameter set, `none` where libdnssec
fails. -/
abbrev Nsec3Hash := Nsec3Params → Dname → Option (List UInt8)

/-- `OPT_OUT_BIT`. -/
def optOutBit : UInt8 := 0x01

/-- libknot's `KNOT_ERANGE`. -/
def knotERange : ℤ := -Errno.erange

/-- libknot's `KNOT_ESPACE`. -/
def knotESpace : ℤ := -Errno.enospc

/-! ## Limits, parameters and hashes -/

/-- `kr_nsec3_price`: SHA-1 blocks hashed per name. -/
def krNsec3Price (iterations saltLen : ℕ) : ℕ :=
  let chunksPerIter := (20 + saltLen - 1) / 64 + 1
  (iterations + 1) * chunksPerIter

/-- `kr_nsec3_limited`. -/
def krNsec3Limited (iterations saltLen : ℕ) : Bool :=
  let maxIterations := 50
  krNsec3Price iterations saltLen > maxIterations + 1

/-- `kr_nsec3_limited_rdata`. -/
def krNsec3LimitedRdata : Rdata → Bool
  | .nsec3 _ _ iters salt _ _ => krNsec3Limited iters.toNat salt.length
  | _ => krNsec3Limited 0 0

/-- `kr_nsec3_limited_params`. -/
def krNsec3LimitedParams (params : Nsec3Params) : Bool :=
  krNsec3Limited params.iterations.toNat params.salt.length

/-- `kr_nsec3_max_depth`. -/
def krNsec3MaxDepth (params : Nsec3Params) : ℕ :=
  128 / krNsec3Price params.iterations.toNat params.salt.length

/-- `nsec3_parameters`: the parameters of the first RDATA. -/
def nsec3Parameters (nsec3 : RRset) : Nsec3Params :=
  ⟨knotNsec3Algorithm nsec3, knotNsec3Flags nsec3, knotNsec3Iters nsec3, knotNsec3Salt nsec3⟩

/-- `hash_name`. -/
def hashName (H : Nsec3Hash) (params : Nsec3Params) (name : Dname) : Except ℤ (List UInt8) :=
  if krNsec3LimitedParams params then .error (krError Errno.einval)
  else match H params name with
    | some hash => .ok hash
    | none => .error (krError Errno.einval)

/-- `MAX_HASH_BYTES`. -/
def maxHashBytes : ℕ := 64

/-- `read_owner_hash`: base32hex decoding of the first label of the owner. -/
def readOwnerHash (nsec3 : RRset) : Except ℤ (List UInt8) :=
  let label := (nsec3.owner.labels.head?.map Label.bytes).getD []
  match base32hexDecode label maxHashBytes with
  | some hash => .ok hash
  | none => .error (krError Errno.eilseq)

/-! ## The tests on one NSEC3 RR -/

/-- The `while` loop of `closest_encloser_match`: hash the candidate and its ancestors up to
the root, counting skipped labels, until one hash is the owner hash. -/
def encloserWalk (H : Nsec3Hash) (params : Nsec3Params) (ownerHash : List UInt8) :
    List Label → ℕ → Except ℤ (Option ℕ)
  | encloser, skipped =>
    match hashName H params ⟨encloser⟩ with
    | .error e => .error e
    | .ok nameHash =>
      if ownerHash.length = nameHash.length ∧
          memcmp ownerHash nameHash ownerHash.length = .eq then .ok (some skipped)
      else match encloser with
        | [] => .ok none
        | _ :: parent => encloserWalk H params ownerHash parent (skipped + 1)

/-- `closest_encloser_match`: the number of labels skipped from `name` to the ancestor whose
hash is the owner hash (`FLG_CLOSEST_PROVABLE_ENCLOSER`), `none` when there is none. -/
def closestEncloserMatch (H : Nsec3Hash) (nsec3 : RRset) (name : Dname) :
    Except ℤ (Option ℕ) :=
  match readOwnerHash nsec3 with
  | .error e => .error e
  | .ok ownerHash =>
    let params := nsec3Parameters nsec3
    -- the root label has no encloser
    if name.labels = [] then .error (krError Errno.enoent)
    else
      let encloser := knotDnameNextLabel name
      -- CVE-2023-50868: candidates with more labels are skipped without hashing
      let maxLabels : ℤ := (knotDnameLabels nsec3.owner : ℤ) - 1 + krNsec3MaxDepth params
      let skip := ((knotDnameLabels encloser : ℤ) - maxLabels).toNat
      -- skipping past the root leaves `encloser` NULL, and the loop does not run
      if knotDnameLabels encloser < skip then .ok none
      else encloserWalk H params ownerHash (encloser.labels.drop skip) (1 + skip)

/-- The circular interval test of `covers_name`, on hashes of the length of `next`: the
interval wraps past the greatest hash when the owner hash is not below the next hash. -/
def nsec3HashCovered (ownerHash next nameHash : List UInt8) : Bool :=
  let nextSize := next.length
  let greaterThenOwner := memcmp ownerHash nameHash nextSize == .lt
  let lessThenNext := memcmp nameHash next nextSize == .lt
  if memcmp ownerHash next nextSize == .lt then greaterThenOwner && lessThenNext
  else greaterThenOwner || lessThenNext

/-- `covers_name`: whether the hash of `name` lies in the circular interval from the owner
hash to the next hash (`FLG_NAME_COVERED`). -/
def coversName (H : Nsec3Hash) (nsec3 : RRset) (name : Dname) : Except ℤ Bool :=
  match readOwnerHash nsec3 with
  | .error e => .error e
  | .ok ownerHash =>
    match hashName H (nsec3Parameters nsec3) name with
    | .error e => .error e
    | .ok nameHash =>
      let next := knotNsec3Next nsec3
      -- all hash lengths must be the same
      if 0 < next.length ∧ ownerHash.length = next.length ∧ nameHash.length = next.length then
        if nsec3HashCovered ownerHash next nameHash then
          -- RFC 5155 3.1.2: flags other than opt-out make the RR unusable
          if knotNsec3Flags nsec3 &&& ~~~optOutBit ≠ 0 then .error (krError Errno.einval)
          else .ok true
        else .ok false
      else .ok false

/-- `has_optout`. -/
def hasOptout (nsec3 : RRset) : Bool :=
  if knotNsec3Flags nsec3 &&& ~~~optOutBit ≠ 0 then false
  else knotNsec3Flags nsec3 &&& optOutBit ≠ 0

/-- `matches_name`: `0` when the owner hash is the hash of `name`. -/
def matchesName (H : Nsec3Hash) (nsec3 : RRset) (name : Dname) : ℤ :=
  match readOwnerHash nsec3 with
  | .error e => e
  | .ok ownerHash =>
    match hashName H (nsec3Parameters nsec3) name with
    | .error e => e
    | .ok nameHash =>
      if ownerHash.length = nameHash.length ∧
          memcmp ownerHash nameHash ownerHash.length = .eq then krOk
      else Errno.enoent

/-- `prepend_asterisk`: what `knot_dname_to_wire` returns for `name` written after the
asterisk label, the size of `name` alone. -/
def prependAsterisk (maxlen : ℕ) (name : Dname) : ℤ :=
  if maxlen < 3 then krError Errno.einval
  else if maxlen - 2 < knotDnameSize name then knotESpace
  else knotDnameSize name

/-! ## The scans of a packet section -/

/-- What `closest_encloser_proof` hands back: the encloser (NULL when the next closer name is
the root) and the NSEC3 covering the next closer name. -/
structure EncloserProof where
  encloser : Option Dname
  covering : RRset

/-- The encloser `closest_encloser_proof` reports: the parent of the next closer name, NULL
when the next closer name is the root. -/
def encloserOfNextCloser (nextCloser : Dname) : Option Dname :=
  if nextCloser.labels = [] then none else some (knotDnameNextLabel nextCloser)

/-- The inner loop of `closest_encloser_proof`: the first NSEC3 covering `nextCloser`. -/
def coveringScan (H : Nsec3Hash) (nextCloser : Dname) : List RRset → Except ℤ (Option RRset)
  | [] => .ok none
  | r :: rs =>
    if r.type ≠ RRType.nsec3 then coveringScan H nextCloser rs
    else match coversName H r nextCloser with
      | .error e => .error e
      | .ok true => .ok (some r)
      | .ok false => coveringScan H nextCloser rs

/-- The outer loop of `closest_encloser_proof` over the RRs still to try. -/
def encloserProofScan (H : Nsec3Hash) (sec : List RRset) (sname : Dname) :
    List RRset → Except ℤ (Option EncloserProof)
  | [] => .ok none
  | r :: rs =>
    if r.type ≠ RRType.nsec3 then encloserProofScan H sec sname rs
    -- a parent-side NSEC3 does not show that its owner exists in this zone
    else if krNsecChildrenInZoneCheck (knotNsecBitmap r) ≠ krOk then
      encloserProofScan H sec sname rs
    else match closestEncloserMatch H r sname with
      | .error e => .error e
      | .ok none => encloserProofScan H sec sname rs
      | .ok (some skipped) =>
        if knotDnameLabels sname < skipped - 1 then .error (krError Errno.einval)
        else
          let nextCloser := knotDnameNextLabel^[skipped - 1] sname
          match coveringScan H nextCloser sec with
          | .error e => .error e
          | .ok (some covering) => .ok (some ⟨encloserOfNextCloser nextCloser, covering⟩)
          | .ok none => encloserProofScan H sec sname rs

/-- `closest_encloser_proof`. -/
def closestEncloserProof (H : Nsec3Hash) (sec : List RRset) (sname : Dname) :
    Except ℤ EncloserProof :=
  match encloserProofScan H sec sname sec with
  | .error e => .error e
  | .ok none => .error (krError Errno.enoent)
  | .ok (some proof) => .ok proof

/-- The loop shared by `covers_closest_encloser_wildcard` and
`kr_nsec3_wildcard_answer_response_check`: the first NSEC3 covering `name` decides, by its
opt-out flag. Only the second skips RRs whose iterations are over the limit. -/
def coverOptoutScan (H : Nsec3Hash) (skipLimited : Bool) (name : Dname) : List RRset → ℤ
  | [] => krError Errno.enoent
  | r :: rs =>
    if r.type ≠ RRType.nsec3 ∨ (skipLimited ∧ krNsec3LimitedRdata r.first) then
      coverOptoutScan H skipLimited name rs
    else match coversName H r name with
      | .error e => e
      | .ok true => if hasOptout r then krError knotERange else krOk
      | .ok false => coverOptoutScan H skipLimited name rs

/-- `covers_closest_encloser_wildcard`. -/
def coversClosestEncloserWildcard (H : Nsec3Hash) (sec : List RRset)
    (encloser : Option Dname) : ℤ :=
  match encloser with
  | none => krError Errno.einval
  | some encloser => coverOptoutScan H false encloser.wildcard sec

/-- `kr_nsec3_name_error_response_check`. -/
def krNsec3NameErrorResponseCheck (H : Nsec3Hash) (sec : List RRset) (sname : Dname) : ℤ :=
  match closestEncloserProof H sec sname with
  | .error e => e
  | .ok proof =>
    let ret := coversClosestEncloserWildcard H sec proof.encloser
    if ret ≠ krOk then ret
    -- the NSEC3 covering the next closer name must not be opt-out either
    else if hasOptout proof.covering then krError knotERange
    else krOk

/-- `nodata_find`: an NSEC3 matching `name` whose bitmap proves NODATA for `type`. -/
def nodataFind (H : Nsec3Hash) (name : Dname) (type : RRType) : List RRset → ℤ
  | [] => krError Errno.enoent
  | r :: rs =>
    -- records causing any errors are simply skipped
    if r.type ≠ RRType.nsec3 ∨ matchesName H r name ≠ krOk then nodataFind H name type rs
    else if krNsecBitmapNodataCheck (knotNsecBitmap r) type r.owner = krOk then krOk
    else nodataFind H name type rs

/-- `matches_closest_encloser_wildcard`; `none` where `kr_require(ret >= 3)` aborts. -/
def matchesClosestEncloserWildcard (H : Nsec3Hash) (sec : List RRset) (encloser : Dname)
    (stype : RRType) : Option ℤ :=
  let ret := prependAsterisk knotDnameMaxlen encloser
  if ret < 0 then some ret
  else if ret < 3 then none
  else some (nodataFind H encloser.wildcard stype sec)

/-- `kr_nsec3_wildcard_answer_response_check`. -/
def krNsec3WildcardAnswerResponseCheck (H : Nsec3Hash) (sec : List RRset) (sname : Dname)
    (trimToNext : ℤ) : ℤ :=
  -- the next closer name
  if knotDnameLabels sname < trimToNext.toNat then krError Errno.einval
  else coverOptoutScan H true (knotDnameNextLabel^[trimToNext.toNat] sname) sec

/-- `kr_nsec3_no_data`; `none` where the process aborts. -/
def krNsec3NoData (H : Nsec3Hash) (sec : List RRset) (sname : Dname) (stype : RRType) :
    Option ℤ :=
  -- a DS may also be matched by an existing NSEC3
  let ret := nodataFind H sname stype sec
  if ret = krOk then some ret
  else match closestEncloserProof H sec sname with
    | .error e => some e
    | .ok proof =>
      match proof.encloser with
      | none => some (krError Errno.efault)
      | some encloser =>
        match matchesClosestEncloserWildcard H sec encloser stype with
        | none => none
        | some ret =>
          -- RFC 5155 8.7, unless the covering NSEC3 is opt-out
          if ret = krOk then some (if hasOptout proof.covering then krError knotERange else ret)
          else if !hasOptout proof.covering then some (krError Errno.enoent)
          else some (krError knotERange)

/-! ## What each test establishes -/

theorem krError_knotERange_ne_zero : krError knotERange ≠ 0 := by decide

/-- Two hashes match when their lengths and their octets agree. -/
theorem length_eq_and_memcmp_eq_iff {a b : List UInt8} :
    (a.length = b.length ∧ memcmp a b a.length = .eq) ↔ a = b := by
  constructor
  · rintro ⟨hlen, hcmp⟩
    exact (memcmp_eq_eq_iff hlen).mp hcmp
  · rintro rfl
    exact ⟨rfl, (memcmp_eq_eq_iff rfl).mpr rfl⟩

theorem hashName_eq_ok {H : Nsec3Hash} {params : Nsec3Params} {name : Dname}
    {hash : List UInt8} (h : hashName H params name = .ok hash) : H params name = some hash := by
  unfold hashName at h
  by_cases hl : krNsec3LimitedParams params = true
  · simp [hl] at h
  · cases hH : H params name with
    | none => simp [hl, hH] at h
    | some hash' =>
      simp only [hl, hH, Bool.false_eq_true, if_false, Except.ok.injEq] at h
      rw [h]

theorem hashName_ne_error_zero (H : Nsec3Hash) (params : Nsec3Params) (name : Dname) :
    hashName H params name ≠ .error 0 := by
  unfold hashName
  split_ifs
  · simp [krError_einval_ne_zero]
  · split <;> simp [krError_einval_ne_zero]

theorem readOwnerHash_ne_error_zero (nsec3 : RRset) : readOwnerHash nsec3 ≠ .error 0 := by
  unfold readOwnerHash
  dsimp only
  split <;> simp [krError_eilseq_ne_zero]

/-- The walk stops at the ancestor, `j` labels up, whose hash is the owner hash. -/
theorem encloserWalk_eq_some {H : Nsec3Hash} {params : Nsec3Params} {ownerHash : List UInt8}
    {ls : List Label} {k s : ℕ} (h : encloserWalk H params ownerHash ls k = .ok (some s)) :
    ∃ j ≤ ls.length, s = k + j ∧ hashName H params ⟨ls.drop j⟩ = .ok ownerHash := by
  induction ls generalizing k with
  | nil =>
    rw [encloserWalk] at h
    split at h
    · cases h
    · rename_i nameHash hhash
      split_ifs at h with hmatch
      · cases h
        rw [length_eq_and_memcmp_eq_iff.mp hmatch]
        exact ⟨0, le_rfl, rfl, hhash⟩
      · cases h
  | cons l ls ih =>
    rw [encloserWalk] at h
    split at h
    · cases h
    · rename_i nameHash hhash
      split_ifs at h with hmatch
      · cases h
        rw [length_eq_and_memcmp_eq_iff.mp hmatch]
        exact ⟨0, Nat.zero_le _, rfl, hhash⟩
      · obtain ⟨j, hj, rfl, hjhash⟩ := ih h
        exact ⟨j + 1, by simpa using hj, by omega, by simpa using hjhash⟩

theorem closestEncloserMatch_eq_some {H : Nsec3Hash} {nsec3 : RRset} {name : Dname} {s : ℕ}
    (h : closestEncloserMatch H nsec3 name = .ok (some s)) :
    1 ≤ s ∧ s ≤ knotDnameLabels name ∧ ∃ ownerHash, readOwnerHash nsec3 = .ok ownerHash ∧
      hashName H (nsec3Parameters nsec3) ⟨name.labels.drop s⟩ = .ok ownerHash := by
  unfold closestEncloserMatch at h
  split at h
  · cases h
  · rename_i ownerHash howner
    dsimp only at h
    split_ifs at h with hroot hnull
    · simp at h
    obtain ⟨j, hj, hs, hhash⟩ := encloserWalk_eq_some h
    -- the labels skipped under the CVE-2023-50868 cap
    generalize ((knotDnameLabels (knotDnameNextLabel name) : ℤ) -
      ((knotDnameLabels nsec3.owner : ℤ) - 1 +
        krNsec3MaxDepth (nsec3Parameters nsec3))).toNat = skip at hs hj hhash hnull
    have hlen : (knotDnameNextLabel name).labels.length = knotDnameLabels name - 1 := by
      simp [knotDnameNextLabel, knotDnameLabels]
    have hskip : skip ≤ knotDnameLabels name - 1 := by
      rw [← hlen]
      exact Nat.le_of_not_lt hnull
    have hj' : j ≤ knotDnameLabels name - 1 - skip := by
      simpa [hlen] using hj
    have hpos : 0 < knotDnameLabels name := List.length_pos_iff.mpr hroot
    refine ⟨by omega, by omega, ownerHash, howner, ?_⟩
    rw [hs]
    simpa [knotDnameNextLabel, Nat.add_comm, Nat.add_left_comm] using hhash

/-! ## The circular order of hashes -/

/-- `x` lies strictly inside the circular interval from `a` to `b` of a ring that wraps from
the greatest element to the least; from `a` back to `a` it is the whole ring without `a`. -/
def InOpenArc {α : Type*} [LinearOrder α] (a b x : α) : Prop :=
  if a < b then a < x ∧ x < b else a < x ∨ x < b

instance {α : Type*} [LinearOrder α] (a b x : α) : Decidable (InOpenArc a b x) :=
  inferInstanceAs (Decidable (if a < b then a < x ∧ x < b else a < x ∨ x < b))

/-- A hash as the list of its octets' values, ordered as `memcmp` orders hashes of one
length. -/
def hashKey (hash : List UInt8) : List ℕ := hash.map UInt8.toNat

theorem nsec3HashCovered_iff {ownerHash next nameHash : List UInt8}
    (hown : ownerHash.length = next.length) (hname : nameHash.length = next.length) :
    nsec3HashCovered ownerHash next nameHash = true ↔
      InOpenArc (hashKey ownerHash) (hashKey next) (hashKey nameHash) := by
  have hon : memcmp ownerHash nameHash next.length = .lt ↔
      hashKey ownerHash < hashKey nameHash := by
    rw [← hown]
    exact memcmp_eq_lt_iff (hown.trans hname.symm)
  have hnn : memcmp nameHash next next.length = .lt ↔ hashKey nameHash < hashKey next := by
    rw [← hname]
    exact memcmp_eq_lt_iff hname
  have hoo : memcmp ownerHash next next.length = .lt ↔ hashKey ownerHash < hashKey next := by
    rw [← hown]
    exact memcmp_eq_lt_iff hown
  unfold nsec3HashCovered InOpenArc
  simp only [beq_iff_eq, hoo]
  split_ifs
  · simp only [Bool.and_eq_true, beq_iff_eq]
    exact and_congr hon hnn
  · simp only [Bool.or_eq_true, beq_iff_eq]
    exact or_congr hon hnn

theorem coversName_eq_ok_true {H : Nsec3Hash} {nsec3 : RRset} {name : Dname}
    (h : coversName H nsec3 name = .ok true) :
    knotNsec3Flags nsec3 &&& ~~~optOutBit = 0 ∧ ∃ ownerHash nameHash,
      readOwnerHash nsec3 = .ok ownerHash ∧
      hashName H (nsec3Parameters nsec3) name = .ok nameHash ∧
      InOpenArc (hashKey ownerHash) (hashKey (knotNsec3Next nsec3)) (hashKey nameHash) := by
  unfold coversName at h
  split at h
  · cases h
  · rename_i ownerHash howner
    split at h
    · cases h
    · rename_i nameHash hname
      dsimp only at h
      split_ifs at h with hsize hcov hflags
      · obtain ⟨-, hown, hnam⟩ := hsize
        exact ⟨not_not.mp hflags, ownerHash, nameHash, howner, hname,
          (nsec3HashCovered_iff hown hnam).mp hcov⟩
      · simp at h
      · simp at h

theorem coversName_ne_error_zero (H : Nsec3Hash) (nsec3 : RRset) (name : Dname) :
    coversName H nsec3 name ≠ .error 0 := by
  unfold coversName
  split
  · rename_i e he
    intro h
    exact readOwnerHash_ne_error_zero nsec3 (by rw [he, Except.error.inj h])
  · split
    · rename_i e he
      intro h
      exact hashName_ne_error_zero H _ name (by rw [he, Except.error.inj h])
    · dsimp only
      split_ifs <;> simp [krError_einval_ne_zero]

theorem matchesName_eq_ok {H : Nsec3Hash} {nsec3 : RRset} {name : Dname}
    (h : matchesName H nsec3 name = krOk) :
    ∃ ownerHash, readOwnerHash nsec3 = .ok ownerHash ∧
      hashName H (nsec3Parameters nsec3) name = .ok ownerHash := by
  unfold matchesName at h
  split at h
  · rename_i e he
    have hzero : readOwnerHash nsec3 = .error 0 := by
      rw [he, h]
      rfl
    exact absurd hzero (readOwnerHash_ne_error_zero nsec3)
  · rename_i ownerHash howner
    split at h
    · rename_i e he
      have hzero : hashName H (nsec3Parameters nsec3) name = .error 0 := by
        rw [he, h]
        rfl
      exact absurd hzero (hashName_ne_error_zero H _ name)
    · rename_i nameHash hname
      split_ifs at h with hmatch
      · rw [length_eq_and_memcmp_eq_iff.mp hmatch] at howner
        exact ⟨nameHash, howner, hname⟩
      · simp [Errno.enoent, krOk] at h

theorem encloserWalk_ne_error_zero (H : Nsec3Hash) (params : Nsec3Params)
    (ownerHash : List UInt8) (ls : List Label) (k : ℕ) :
    encloserWalk H params ownerHash ls k ≠ .error 0 := by
  induction ls generalizing k with
  | nil =>
    rw [encloserWalk]
    split
    · rename_i e he
      intro h
      exact hashName_ne_error_zero H params _ (by rw [he, Except.error.inj h])
    · split_ifs <;> simp
  | cons l ls ih =>
    rw [encloserWalk]
    split
    · rename_i e he
      intro h
      exact hashName_ne_error_zero H params _ (by rw [he, Except.error.inj h])
    · split_ifs
      · simp
      · exact ih (k + 1)

theorem closestEncloserMatch_ne_error_zero (H : Nsec3Hash) (nsec3 : RRset) (name : Dname) :
    closestEncloserMatch H nsec3 name ≠ .error 0 := by
  unfold closestEncloserMatch
  split
  · rename_i e he
    intro h
    exact readOwnerHash_ne_error_zero nsec3 (by rw [he, Except.error.inj h])
  · dsimp only
    split_ifs
    · simp [krError_enoent_ne_zero]
    · simp
    · exact encloserWalk_ne_error_zero _ _ _ _ _

/-! ## The scans -/

section Scans

variable {H : Nsec3Hash}

theorem coveringScan_ne_error_zero (name : Dname) (rs : List RRset) :
    coveringScan H name rs ≠ .error 0 := by
  induction rs with
  | nil => simp [coveringScan]
  | cons r rs ih =>
    unfold coveringScan
    split_ifs
    · exact ih
    · split
      · rename_i e he
        intro h
        exact coversName_ne_error_zero H r name (by rw [he, Except.error.inj h])
      · simp
      · exact ih

theorem coveringScan_eq_some {name : Dname} {rs : List RRset} {c : RRset}
    (h : coveringScan H name rs = .ok (some c)) :
    c ∈ rs ∧ c.type = RRType.nsec3 ∧ coversName H c name = .ok true := by
  induction rs with
  | nil => simp [coveringScan] at h
  | cons r rs ih =>
    unfold coveringScan at h
    split_ifs at h with htype
    · obtain ⟨hc, hrest⟩ := ih h
      exact ⟨List.mem_cons_of_mem r hc, hrest⟩
    · split at h
      · cases h
      · rename_i hcov
        cases h
        exact ⟨List.mem_cons_self, not_not.mp htype, hcov⟩
      · obtain ⟨hc, hrest⟩ := ih h
        exact ⟨List.mem_cons_of_mem r hc, hrest⟩

theorem encloserProofScan_ne_error_zero (sec : List RRset) (sname : Dname) (rs : List RRset) :
    encloserProofScan H sec sname rs ≠ .error 0 := by
  induction rs with
  | nil => simp [encloserProofScan]
  | cons r rs ih =>
    unfold encloserProofScan
    split_ifs
    · exact ih
    · exact ih
    · split
      · rename_i e he
        intro h
        exact closestEncloserMatch_ne_error_zero H r sname (by rw [he, Except.error.inj h])
      · exact ih
      · dsimp only
        split_ifs
        · simp [krError_einval_ne_zero]
        · split
          · rename_i e he
            intro h
            exact coveringScan_ne_error_zero _ sec (by rw [he, Except.error.inj h])
          · simp
          · exact ih

/-- A closest encloser proof found by the scan: a matching NSEC3 and, for the next closer name
it gives, a covering one. -/
theorem encloserProofScan_eq_some {sec : List RRset} {sname : Dname} {rs : List RRset}
    {proof : EncloserProof} (h : encloserProofScan H sec sname rs = .ok (some proof)) :
    ∃ m ∈ rs, m.type = RRType.nsec3 ∧ ∃ s, closestEncloserMatch H m sname = .ok (some s) ∧
      coveringScan H (knotDnameNextLabel^[s - 1] sname) sec = .ok (some proof.covering) ∧
      proof.encloser = encloserOfNextCloser (knotDnameNextLabel^[s - 1] sname) := by
  induction rs with
  | nil => simp [encloserProofScan] at h
  | cons r rs ih =>
    have hmore : ∀ m ∈ rs, m ∈ r :: rs := fun m hm => List.mem_cons_of_mem r hm
    unfold encloserProofScan at h
    split_ifs at h with htype hparent
    · obtain ⟨m, hm, hrest⟩ := ih h
      exact ⟨m, hmore m hm, hrest⟩
    · obtain ⟨m, hm, hrest⟩ := ih h
      exact ⟨m, hmore m hm, hrest⟩
    · split at h
      · cases h
      · obtain ⟨m, hm, hrest⟩ := ih h
        exact ⟨m, hmore m hm, hrest⟩
      · rename_i skipped hmatch
        dsimp only at h
        split_ifs at h with hlabels
        split at h
        · cases h
        · rename_i covering hcov
          cases h
          exact ⟨r, List.mem_cons_self, not_not.mp htype, skipped, hmatch, hcov, rfl⟩
        · obtain ⟨m, hm, hrest⟩ := ih h
          exact ⟨m, hmore m hm, hrest⟩

theorem closestEncloserProof_ne_error_zero (sec : List RRset) (sname : Dname) :
    closestEncloserProof H sec sname ≠ .error 0 := by
  unfold closestEncloserProof
  split
  · rename_i e he
    intro h
    exact encloserProofScan_ne_error_zero sec sname sec (by rw [he, Except.error.inj h])
  · simp [krError_enoent_ne_zero]
  · simp

/-- What a closest encloser proof establishes: for some `s`, the ancestor dropping `s` labels
of `sname` has the owner hash of an NSEC3 of the section, and the one dropping `s - 1` labels,
the next closer name, is covered by the NSEC3 the proof returns. -/
theorem closestEncloserProof_eq_ok {sec : List RRset} {sname : Dname} {proof : EncloserProof}
    (h : closestEncloserProof H sec sname = .ok proof) :
    ∃ s, 1 ≤ s ∧ s ≤ knotDnameLabels sname ∧
      proof.encloser = some ⟨sname.labels.drop s⟩ ∧
      (∃ m ∈ sec, m.type = RRType.nsec3 ∧ ∃ ownerHash, readOwnerHash m = .ok ownerHash ∧
        hashName H (nsec3Parameters m) ⟨sname.labels.drop s⟩ = .ok ownerHash) ∧
      proof.covering ∈ sec ∧ proof.covering.type = RRType.nsec3 ∧
      coversName H proof.covering ⟨sname.labels.drop (s - 1)⟩ = .ok true := by
  unfold closestEncloserProof at h
  split at h
  · cases h
  · cases h
  · rename_i proof' hscan
    cases h
    obtain ⟨m, hm, htype, s, hmatch, hcov, henc⟩ := encloserProofScan_eq_some hscan
    obtain ⟨hs1, hsl, ownerHash, howner, hhash⟩ := closestEncloserMatch_eq_some hmatch
    obtain ⟨hc, hctype, hccov⟩ := coveringScan_eq_some hcov
    rw [iterate_knotDnameNextLabel] at hccov henc
    have hne : (sname.labels.drop (s - 1)) ≠ [] := by
      simp only [ne_eq, List.drop_eq_nil_iff, not_le]
      simp only [knotDnameLabels] at hsl
      omega
    have htail : (knotDnameNextLabel ⟨sname.labels.drop (s - 1)⟩ : Dname) =
        ⟨sname.labels.drop s⟩ := by
      simp only [knotDnameNextLabel, List.tail_drop]
      congr 2
      omega
    refine ⟨s, hs1, hsl, ?_, ⟨m, hm, htype, ownerHash, howner, hhash⟩, hc, hctype, hccov⟩
    rw [henc, encloserOfNextCloser, if_neg hne, htail]

theorem coverOptoutScan_eq_ok {skipLimited : Bool} {name : Dname} {rs : List RRset}
    (h : coverOptoutScan H skipLimited name rs = krOk) :
    ∃ r ∈ rs, r.type = RRType.nsec3 ∧ coversName H r name = .ok true ∧ hasOptout r = false := by
  induction rs with
  | nil => simp [coverOptoutScan, krError_enoent_ne_zero, krOk] at h
  | cons r rs ih =>
    unfold coverOptoutScan at h
    by_cases hskip : r.type ≠ RRType.nsec3 ∨ (skipLimited = true ∧ krNsec3LimitedRdata r.first = true)
    · rw [if_pos hskip] at h
      obtain ⟨r', hr', hrest⟩ := ih h
      exact ⟨r', List.mem_cons_of_mem r hr', hrest⟩
    · rw [if_neg hskip] at h
      have htype : r.type = RRType.nsec3 := by
        by_contra hne
        exact hskip (Or.inl hne)
      split at h
      · rename_i e he
        have hzero : coversName H r name = .error 0 := by
          rw [he, h]
          rfl
        exact absurd hzero (coversName_ne_error_zero H r name)
      · rename_i hcov
        by_cases hopt : hasOptout r = true
        · rw [if_pos hopt] at h
          simp [krError_knotERange_ne_zero, krOk] at h
        · exact ⟨r, List.mem_cons_self, htype, hcov, by simpa using hopt⟩
      · obtain ⟨r', hr', hrest⟩ := ih h
        exact ⟨r', List.mem_cons_of_mem r hr', hrest⟩

theorem nodataFind_eq_ok {name : Dname} {type : RRType} {rs : List RRset}
    (h : nodataFind H name type rs = krOk) :
    ∃ r ∈ rs, r.type = RRType.nsec3 ∧ matchesName H r name = krOk ∧
      krNsecBitmapNodataCheck (knotNsecBitmap r) type r.owner = krOk := by
  induction rs with
  | nil => simp [nodataFind, krError_enoent_ne_zero, krOk] at h
  | cons r rs ih =>
    unfold nodataFind at h
    split_ifs at h with hskip hcheck
    · obtain ⟨r', hr', hrest⟩ := ih h
      exact ⟨r', List.mem_cons_of_mem r hr', hrest⟩
    · simp only [ne_eq, not_or, not_not] at hskip
      exact ⟨r, List.mem_cons_self, hskip.1, hskip.2, hcheck⟩
    · obtain ⟨r', hr', hrest⟩ := ih h
      exact ⟨r', List.mem_cons_of_mem r hr', hrest⟩

end Scans

theorem matchesClosestEncloserWildcard_eq_ok {H : Nsec3Hash} {sec : List RRset}
    {encloser : Dname} {stype : RRType}
    (h : matchesClosestEncloserWildcard H sec encloser stype = some krOk) :
    nodataFind H encloser.wildcard stype sec = krOk := by
  unfold matchesClosestEncloserWildcard at h
  dsimp only at h
  split_ifs at h with hneg habort
  · have h0 := Option.some.inj h
    simp only [krOk] at h0
    omega
  · exact Option.some.inj h

/-! ## Soundness against a zone -/

/-- An NSEC3 RR consistent with `Z` under the hash `h`: an owner hash that is the hash of a
name puts that name in the zone with exactly the bitmap's types, and no name of the zone
hashes strictly inside the interval from the owner hash to the next hash, except names at or
below an insecure delegation when the RR has the opt-out flag. -/
def Nsec3Consistent (Z : Zone) (h : Dname → List UInt8) (r : RRset) : Prop :=
  (∀ n, readOwnerHash r = .ok (h n) → n ∈ Z.names ∧ Z.types n = (knotNsecBitmap r).toFinset) ∧
  ∀ n ∈ Z.names, ∀ ownerHash, readOwnerHash r = .ok ownerHash →
    InOpenArc (hashKey ownerHash) (hashKey (knotNsec3Next r)) (hashKey (h n)) →
    knotNsec3Flags r &&& optOutBit ≠ 0 ∧ ∃ d, Z.IsInsecureDelegation d ∧ d.IsAncestorOrSelf n

/-- The NSEC3 RRs of a section all carry the parameter set `p`, under which libdnssec hashes
names by `h`, and each is consistent with `Z`. -/
structure SectionConsistent (H : Nsec3Hash) (Z : Zone) (h : Dname → List UInt8)
    (p : Nsec3Params) (sec : List RRset) : Prop where
  hash_eq : ∀ n, H p n = some (h n)
  params_eq : ∀ r ∈ sec, r.type = RRType.nsec3 → nsec3Parameters r = p
  consistent : ∀ r ∈ sec, r.type = RRType.nsec3 → Nsec3Consistent Z h r

theorem not_owns_of_types {Z : Zone} {x : Dname} {bm : List RRType} {t : RRType}
    (htypes : Z.types x = bm.toFinset) (ht : t ∉ bm) : ¬ Z.Owns x t :=
  fun ho => ht (by simpa [htypes] using ho.2)

section Soundness

variable {H : Nsec3Hash} {Z : Zone} {h : Dname → List UInt8} {p : Nsec3Params}
  {sec : List RRset}

theorem SectionConsistent.hash_of_hashName (hc : SectionConsistent H Z h p sec) {r : RRset}
    (hr : r ∈ sec) (ht : r.type = RRType.nsec3) {x : Dname} {hash : List UInt8}
    (hx : hashName H (nsec3Parameters r) x = .ok hash) : hash = h x := by
  have hsome := hashName_eq_ok hx
  rw [hc.params_eq r hr ht, hc.hash_eq x] at hsome
  exact (Option.some.inj hsome).symm

/-- A name whose hash is the owner hash of an NSEC3 of the section is in the zone, with the
bitmap's types. -/
theorem SectionConsistent.mem_of_match (hc : SectionConsistent H Z h p sec) {r : RRset}
    (hr : r ∈ sec) (ht : r.type = RRType.nsec3) {x : Dname} {ownerHash : List UInt8}
    (ho : readOwnerHash r = .ok ownerHash)
    (hx : hashName H (nsec3Parameters r) x = .ok ownerHash) :
    x ∈ Z.names ∧ Z.types x = (knotNsecBitmap r).toFinset := by
  obtain rfl := hc.hash_of_hashName hr ht hx
  exact (hc.consistent r hr ht).1 x ho

/-- A name covered by an NSEC3 of the section without opt-out is not in the zone. -/
theorem SectionConsistent.not_mem_of_covers (hc : SectionConsistent H Z h p sec) {r : RRset}
    (hr : r ∈ sec) (ht : r.type = RRType.nsec3) {x : Dname}
    (hcov : coversName H r x = .ok true) (hopt : hasOptout r = false) : x ∉ Z.names := by
  obtain ⟨hflags, ownerHash, nameHash, ho, hx, harc⟩ := coversName_eq_ok_true hcov
  obtain rfl := hc.hash_of_hashName hr ht hx
  intro hmem
  obtain ⟨hset, -⟩ := (hc.consistent r hr ht).2 x hmem ownerHash ho harc
  -- with the other flags clear, `has_optout` reads the opt-out bit
  have hopt' : hasOptout r = true := by simp [hasOptout, hflags, hset]
  rw [hopt] at hopt'
  exact Bool.false_ne_true hopt'

variable {sname : Dname}

/-- A closest encloser proof whose covering NSEC3 is not opt-out: `sname` is absent and its
closest encloser is the name the proof reports. -/
theorem SectionConsistent.closestEncloser_of_proof (hc : SectionConsistent H Z h p sec)
    {proof : EncloserProof} (hproof : closestEncloserProof H sec sname = .ok proof)
    (hopt : hasOptout proof.covering = false) :
    ∃ e, proof.encloser = some e ∧ Z.closestEncloser sname = e ∧ sname ∉ Z.names := by
  obtain ⟨s, hs1, hsl, henc, ⟨m, hm, hmt, ownerHash, ho, hh⟩, hcr, hct, hcov⟩ :=
    closestEncloserProof_eq_ok hproof
  have hemem := (hc.mem_of_match hm hmt ho hh).1
  have hnext := hc.not_mem_of_covers hcr hct hcov hopt
  simp only [knotDnameLabels] at hsl
  -- the encloser drops `s` labels of `sname`, the next closer name `s - 1`
  have he : sname.suffix (sname.labels.length - s) = ⟨sname.labels.drop s⟩ :=
    sname.suffix_sub hsl
  have hn : sname.suffix (sname.labels.length - s + 1) = ⟨sname.labels.drop (s - 1)⟩ := by
    rw [show sname.labels.length - s + 1 = sname.labels.length - (s - 1) by omega]
    exact sname.suffix_sub (by omega)
  obtain ⟨hce, hnot⟩ := Zone.closestEncloser_of_nextCloser (by omega) (he ▸ hemem) (hn ▸ hnext)
  exact ⟨_, henc, hce.trans he, hnot⟩

theorem krNsec3NameErrorResponseCheck_eq_ok (hc : SectionConsistent H Z h p sec)
    (hres : krNsec3NameErrorResponseCheck H sec sname = krOk) : Z.NxdomainHolds sname := by
  unfold krNsec3NameErrorResponseCheck at hres
  split at hres
  · rename_i e he
    have hzero : closestEncloserProof H sec sname = .error 0 := by
      rw [he, hres]
      rfl
    exact absurd hzero (closestEncloserProof_ne_error_zero sec sname)
  · rename_i proof hproof
    dsimp only at hres
    by_cases hwild : coversClosestEncloserWildcard H sec proof.encloser = krOk
    · rw [if_neg (not_not.mpr hwild)] at hres
      by_cases hopt : hasOptout proof.covering = true
      · rw [if_pos hopt] at hres
        exact absurd hres krError_knotERange_ne_zero
      · obtain ⟨e, henc, hce, hnot⟩ :=
          hc.closestEncloser_of_proof hproof (by simpa using hopt)
        rw [henc] at hwild
        -- the wildcard at the closest encloser is covered, without opt-out
        obtain ⟨w, hw, hwt, hwcov, hwopt⟩ := coverOptoutScan_eq_ok hwild
        exact ⟨hnot, hce ▸ hc.not_mem_of_covers hw hwt hwcov hwopt⟩
    · rw [if_pos hwild] at hres
      exact absurd hres hwild

theorem krNsec3NoData_eq_ok {stype : RRType} (hc : SectionConsistent H Z h p sec)
    (hres : krNsec3NoData H sec sname stype = some krOk) : Z.NodataHolds sname stype := by
  unfold krNsec3NoData at hres
  dsimp only at hres
  by_cases hfind : nodataFind H sname stype sec = krOk
  · -- an NSEC3 matching `sname` with a NODATA bitmap
    obtain ⟨r, hr, hrt, hmatch, hcheck⟩ := nodataFind_eq_ok hfind
    obtain ⟨ownerHash, ho, hh⟩ := matchesName_eq_ok hmatch
    obtain ⟨hmem, htypes⟩ := hc.mem_of_match hr hrt ho hh
    obtain ⟨hty, hcn, -⟩ := krNsecBitmapNodataCheck_eq_ok hcheck
    exact ⟨not_owns_of_types htypes hty, not_owns_of_types htypes hcn,
      fun hnot => absurd hmem hnot⟩
  · rw [if_neg hfind] at hres
    split at hres
    · rename_i e he
      have hzero : closestEncloserProof H sec sname = .error 0 := by
        rw [he, Option.some.inj hres]
        rfl
      exact absurd hzero (closestEncloserProof_ne_error_zero sec sname)
    · rename_i proof hproof
      split at hres
      · simp [krError, Errno.efault, krOk] at hres
      · rename_i e henc
        split at hres
        · cases hres
        · rename_i ret hret
          by_cases hr0 : ret = krOk
          · rw [if_pos hr0] at hres
            by_cases hopt : hasOptout proof.covering = true
            · rw [if_pos hopt] at hres
              exact absurd (Option.some.inj hres) krError_knotERange_ne_zero
            · obtain ⟨e', henc', hce, hnot⟩ :=
                hc.closestEncloser_of_proof hproof (by simpa using hopt)
              obtain rfl : e = e' := Option.some.inj (henc.symm.trans henc')
              -- the source of synthesis has an NSEC3 with a NODATA bitmap
              obtain ⟨r, hr, hrt, hmatch, hcheck⟩ :=
                nodataFind_eq_ok (matchesClosestEncloserWildcard_eq_ok (hr0 ▸ hret))
              obtain ⟨ownerHash, ho, hh⟩ := matchesName_eq_ok hmatch
              obtain ⟨-, htypes⟩ := hc.mem_of_match hr hrt ho hh
              obtain ⟨hty, hcn, -⟩ := krNsecBitmapNodataCheck_eq_ok hcheck
              refine ⟨fun ho' => hnot ho'.1, fun ho' => hnot ho'.1, fun _ => ?_⟩
              rw [hce]
              exact ⟨not_owns_of_types htypes hty, not_owns_of_types htypes hcn⟩
          · rw [if_neg hr0] at hres
            split_ifs at hres <;>
              simp [krError_enoent_ne_zero, krError_knotERange_ne_zero, krOk] at hres

theorem krNsec3WildcardAnswerResponseCheck_eq_ok {trimToNext : ℤ}
    (hc : SectionConsistent H Z h p sec)
    (hres : krNsec3WildcardAnswerResponseCheck H sec sname trimToNext = krOk) :
    (⟨sname.labels.drop trimToNext.toNat⟩ : Dname) ∉ Z.names := by
  unfold krNsec3WildcardAnswerResponseCheck at hres
  by_cases htrim : knotDnameLabels sname < trimToNext.toNat
  · rw [if_pos htrim] at hres
    exact absurd hres krError_einval_ne_zero
  · rw [if_neg htrim] at hres
    obtain ⟨r, hr, hrt, hcov, hopt⟩ := coverOptoutScan_eq_ok hres
    rw [iterate_knotDnameNextLabel] at hcov
    exact hc.not_mem_of_covers hr hrt hcov hopt

/-- NSEC3 denial is sound for a section whose NSEC3 RRs are consistent with the zone. -/
theorem nsec3_denial_sound (hc : SectionConsistent H Z h p sec) :
    (krNsec3NameErrorResponseCheck H sec sname = krOk → Z.NxdomainHolds sname) ∧
    (∀ stype, krNsec3NoData H sec sname stype = some krOk → Z.NodataHolds sname stype) ∧
    (∀ trimToNext : ℤ, krNsec3WildcardAnswerResponseCheck H sec sname trimToNext = krOk →
      (⟨sname.labels.drop trimToNext.toNat⟩ : Dname) ∉ Z.names) :=
  ⟨krNsec3NameErrorResponseCheck_eq_ok hc, fun _ => krNsec3NoData_eq_ok hc,
    fun _ => krNsec3WildcardAnswerResponseCheck_eq_ok hc⟩

end Soundness

/-! ## A run on a small zone -/

/-- An NSEC3 RR whose interval holds the hash of no name of the zone is consistent with it
once the names its owner hash matches are in the zone with the bitmap's types. -/
theorem nsec3Consistent_of_empty_interval {Z : Zone} {h : Dname → List UInt8} {r : RRset}
    {ownerHash : List UInt8} (ho : readOwnerHash r = .ok ownerHash)
    (hmatch : ∀ n, h n = ownerHash → n ∈ Z.names ∧ Z.types n = (knotNsecBitmap r).toFinset)
    (hempty : ∀ n ∈ Z.names,
      ¬ InOpenArc (hashKey ownerHash) (hashKey (knotNsec3Next r)) (hashKey (h n))) :
    Nsec3Consistent Z h r := by
  refine ⟨fun n hn => hmatch n ?_, fun n hn oh hoh harc => ?_⟩
  · rw [ho] at hn
    exact (Except.ok.inj hn).symm
  · rw [ho] at hoh
    obtain rfl := Except.ok.inj hoh
    exact absurd harc (hempty n hn)

-- the NSEC3 owner labels `00000001` and `00000003`, base32hex for the hashes 1 and 3
def label00000001 : Label := ⟨[48, 48, 48, 48, 48, 48, 48, 49], by decide, by decide⟩
def label00000003 : Label := ⟨[48, 48, 48, 48, 48, 48, 48, 51], by decide, by decide⟩

/-- A hash of five octets giving `ex` the value 1, `a.ex` the value 3 and any other name 2. -/
def hashEx (n : Dname) : List UInt8 :=
  if n = nameEx then [0, 0, 0, 0, 1] else if n = nameAEx then [0, 0, 0, 0, 3]
  else [0, 0, 0, 0, 2]

theorem hashEx_eq_one {n : Dname} (h : hashEx n = [0, 0, 0, 0, 1]) : n = nameEx := by
  unfold hashEx at h
  by_cases hex : n = nameEx
  · exact hex
  · by_cases hax : n = nameAEx
    · simp [hax, show nameAEx ≠ nameEx by decide] at h
    · simp [hex, hax] at h

theorem hashEx_eq_three {n : Dname} (h : hashEx n = [0, 0, 0, 0, 3]) : n = nameAEx := by
  unfold hashEx at h
  by_cases hex : n = nameEx
  · simp [hex] at h
  · by_cases hax : n = nameAEx
    · exact hax
    · simp [hex, hax] at h

/-- The parameters of the NSEC3 RRs below: SHA-1, no flags, no extra iterations, no salt. -/
def paramsEx : Nsec3Params := ⟨1, 0, 0, []⟩

/-- An NSEC3 RRset of the zone `ex` under `paramsEx`. -/
def nsec3RRset (owner : Label) (next : List UInt8) (bm : List RRType) : RRset where
  owner := ⟨owner :: nameEx.labels⟩
  type := RRType.nsec3
  rclass := classIn
  ttl := 3600
  rdata := [.nsec3 1 0 0 [] next bm]
  rdata_ne_nil := by simp
  rdata_fit := by simp [Rdata.Fits]

-- The names of `ex` as a zone: named, so that the zone below does not share the proofs of
-- another zone over the same names.
theorem exNames_apex_mem : nameEx ∈ ({nameEx, nameAEx} : Finset Dname) := by decide

theorem exNames_lower : ∀ x ∈ ({nameEx, nameAEx} : Finset Dname), x.IsLower := by decide

theorem exNames_below_apex :
    ∀ x ∈ ({nameEx, nameAEx} : Finset Dname), nameEx.IsAncestorOrSelf x := by decide

theorem exNames_ancestor_closed : ∀ x ∈ ({nameEx, nameAEx} : Finset Dname),
    ∀ k ≤ x.labels.length, nameEx.IsAncestorOrSelf (x.suffix k) →
      x.suffix k ∈ ({nameEx, nameAEx} : Finset Dname) := by decide

/-- The zone `ex` holding `a.ex`, signed with NSEC3. -/
def hashedZone : Zone where
  apex := nameEx
  names := {nameEx, nameAEx}
  types x := if x = nameEx then {RRType.ns, RRType.soa} else if x = nameAEx then {RRType.a}
    else ∅
  apex_mem := exNames_apex_mem
  lower := exNames_lower
  below_apex := exNames_below_apex
  ancestor_closed := exNames_ancestor_closed
  nothing_below_delegation := by decide

/-- Its chain of two NSEC3 RRs, from hash 1 to 3 and from 3 round to 1. -/
def hashedSection : List RRset :=
  [nsec3RRset label00000001 [0, 0, 0, 0, 3] [RRType.ns, RRType.soa],
    nsec3RRset label00000003 [0, 0, 0, 0, 1] [RRType.a]]

theorem hashedSection_consistent :
    SectionConsistent (fun _ n => some (hashEx n)) hashedZone hashEx paramsEx hashedSection := by
  refine ⟨fun _ => rfl, by decide, fun r hr _ => ?_⟩
  simp only [hashedSection, List.mem_cons, List.not_mem_nil, or_false] at hr
  rcases hr with rfl | rfl
  · refine nsec3Consistent_of_empty_interval
      (show _ = Except.ok [0, 0, 0, 0, 1] by decide)
      (fun n hn => ?_) (by decide)
    obtain rfl := hashEx_eq_one hn
    decide
  · refine nsec3Consistent_of_empty_interval
      (show _ = Except.ok [0, 0, 0, 0, 3] by decide)
      (fun n hn => ?_) (by decide)
    obtain rfl := hashEx_eq_three hn
    decide

theorem nsec3_denial_sound_hashed :
    krNsec3NameErrorResponseCheck (fun _ n => some (hashEx n)) hashedSection nameBEx = krOk ∧
      hashedZone.NxdomainHolds nameBEx := by
  have hres : krNsec3NameErrorResponseCheck (fun _ n => some (hashEx n)) hashedSection
      nameBEx = krOk := by decide
  exact ⟨hres, (nsec3_denial_sound hashedSection_consistent).1 hres⟩

end KnotResolver
