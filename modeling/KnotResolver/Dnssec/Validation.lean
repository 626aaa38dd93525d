import KnotResolver.Dnssec.Nsec3
import KnotResolver.Lib.RsaSha256

/-!
# RRSIG validation

`lib/dnssec.c`. `kr_rrset_validate` tries the keys of `vctx->keys` in order; with each one,
`kr_rrset_validate_with_key` tries every RRSIG RDATA of the query's RRSIG RRsets owned by the
covered name: the checks of `validate_rrsig_rr` (RFC 4035 5.3.1), the crypto limit, the
signature and, for a wildcard expansion, the proof that the next closer name does not exist.
`kr_dnskeys_trusted` validates a DNSKEY RRset against a DS RRset through
`kr_svldr_rrset_with_key`, with only the keys that `kr_dnssec_key_usable` admits.

libdnssec is a parameter: key construction from DNSKEY RDATA, key tags, DS digests, the
verification of a signature over the data `kr_check_signature` assembles, and the NSEC3 hash.
For RSASHA256 keys it is given in full at the end: the RFC 4034 key tag, the RFC 3110 key, the
signed data of `sign_ctx_add_data` and RSASSA-PKCS1-v1_5 with SHA-256.
-/

namespace KnotResolver

/-- What the validator uses of libdnssec. -/
structure Libdnssec where
  /-- the error of `dnssec_key_set_rdata` for DNSKEY RDATA, `0` when the key is built -/
  keySetRdata : Rdata → ℤ
  /-- `dnssec_key_get_keytag` -/
  keytag : Rdata → UInt16
  /-- `dnssec_sign_verify` of an RRSIG RDATA with a DNSKEY over the covered RRset whose owner
  is cut by the given number of wildcard labels -/
  signVerify : Rdata → Rdata → RRset → ℕ → Bool
  /-- `dnssec_key_create_ds`: the DS RDATA of a key for a digest type, or the error -/
  createDs : Rdata → UInt8 → Except ℤ Rdata
  /-- `dnssec_algorithm_digest_support` -/
  digestSupport : UInt8 → Bool
  /-- `dnssec_nsec3_hash` -/
  nsec3Hash : Nsec3Hash

/-- `KR_DNSSEC_VFLG_WEXPAND` and `KR_DNSSEC_VFLG_OPTOUT`. -/
def vflgWexpand : UInt32 := 0x01
def vflgOptout : UInt32 := 0x02

/-- `DNSSEC_KEY_DIGEST_SHA1`. -/
def digestSha1 : UInt8 := 1

/-- The counters of `rrs_counters`. -/
inductive RrsCounter
  | matchingNameType | expired | notyet | expiredBeforeInception | signerInvalid
  | labelsInvalid | keyInvalid | cryptoInvalid | nsecInvalid
  deriving DecidableEq

/-- `kr_rrset_validation_ctx_t` without its logging fields. -/
structure ValidationCtx where
  /-- the AUTHORITY section of `vctx->pkt`, where the wildcard proofs look -/
  authority : List RRset
  rrs : List RankedEntry
  keys : RRset
  zoneName : Dname
  timestamp : UInt32
  ttlMin : UInt32
  hasNsec3 : Bool
  qryUid : UInt32
  flags : UInt32
  errCnt : ℕ
  cnameNorrsigCnt : ℕ
  /-- `*limit_crypto_remains`, `none` for the NULL pointer that sets no limit -/
  limitCryptoRemains : Option ℕ
  result : ℤ
  rrsCounters : RrsCounter → ℕ

namespace ValidationCtx

def bump (vctx : ValidationCtx) (c : RrsCounter) : ValidationCtx :=
  { vctx with rrsCounters := Function.update vctx.rrsCounters c (vctx.rrsCounters c + 1) }

/-- `kr_rank_set` on the rank of the `i`-th entry of `vctx->rrs`. -/
def setRank (vctx : ValidationCtx) (i : ℕ) (rank : UInt8) : ValidationCtx :=
  { vctx with rrs := vctx.rrs.modify i fun e => { e with rank := krRankSet e.rank rank } }

@[simp] theorem bump_rrs (vctx : ValidationCtx) (c : RrsCounter) :
    (vctx.bump c).rrs = vctx.rrs := rfl

@[simp] theorem bump_keys (vctx : ValidationCtx) (c : RrsCounter) :
    (vctx.bump c).keys = vctx.keys := rfl

@[simp] theorem bump_zoneName (vctx : ValidationCtx) (c : RrsCounter) :
    (vctx.bump c).zoneName = vctx.zoneName := rfl

@[simp] theorem bump_timestamp (vctx : ValidationCtx) (c : RrsCounter) :
    (vctx.bump c).timestamp = vctx.timestamp := rfl

@[simp] theorem bump_qryUid (vctx : ValidationCtx) (c : RrsCounter) :
    (vctx.bump c).qryUid = vctx.qryUid := rfl

@[simp] theorem setRank_keys (vctx : ValidationCtx) (i : ℕ) (rank : UInt8) :
    (vctx.setRank i rank).keys = vctx.keys := rfl

@[simp] theorem setRank_zoneName (vctx : ValidationCtx) (i : ℕ) (rank : UInt8) :
    (vctx.setRank i rank).zoneName = vctx.zoneName := rfl

@[simp] theorem setRank_timestamp (vctx : ValidationCtx) (i : ℕ) (rank : UInt8) :
    (vctx.setRank i rank).timestamp = vctx.timestamp := rfl

@[simp] theorem setRank_qryUid (vctx : ValidationCtx) (i : ℕ) (rank : UInt8) :
    (vctx.setRank i rank).qryUid = vctx.qryUid := rfl

end ValidationCtx

/-! ## The checks on one RRSIG RDATA -/

/-- `validate_rrsig_rr`: the checks of RFC 4035 5.3.1 that need no key material, and whether
the RRSIG's label count shows a wildcard expansion (`FLG_WILDCARD_EXPANSION`). -/
def validateRrsigRr (covLabels : ℕ) (rrsig : Rdata) (keyAlg : UInt8) (keytag : UInt16)
    (vctx : ValidationCtx) : ℤ × Bool × ValidationCtx :=
  if knotRrsigSigExpiration rrsig < knotRrsigSigInception rrsig then
    (krError Errno.einval, false, vctx.bump .expiredBeforeInception)
  -- bullet 5
  else if knotRrsigSigExpiration rrsig < vctx.timestamp then
    (krError Errno.einval, false, vctx.bump .expired)
  -- bullet 6
  else if knotRrsigSigInception rrsig > vctx.timestamp then
    (krError Errno.einval, false, vctx.bump .notyet)
  -- bullet 2
  else if knotRrsigSignerName rrsig ≠ vctx.zoneName then
    (krError Errno.eagain, false, vctx.bump .signerInvalid)
  -- bullet 4
  else if covLabels < (knotRrsigLabels rrsig).toNat then
    (krError Errno.einval, false, vctx.bump .labelsInvalid)
  else
    let wildcard := decide ((knotRrsigLabels rrsig).toNat < covLabels)
    -- bullet 7; the key owner is the caller's to check, and bullet 8 is left to "somewhere
    -- else"
    if keyAlg ≠ knotRrsigAlg rrsig ∨ keytag ≠ knotRrsigKeyTag rrsig then
      (krError Errno.einval, wildcard, vctx.bump .keyInvalid)
    else (krOk, wildcard, vctx)

/-- `wildcard_radix_len_diff`: the labels a wildcard expansion added to the owner. -/
def wildcardRadixLenDiff (expanded : Dname) (rrsig : Rdata) : ℤ :=
  (knotDnameLabels expanded : ℤ) - (knotRrsigLabels rrsig).toNat

/-- `account_crypto_limit`: whether one more signature may be checked, and the counter after
the check (CVE-2023-50387). -/
def accountCryptoLimit : Option ℕ → Bool × Option ℕ
  | none => (true, none)
  | some 0 => (false, some 0)
  | some (n + 1) => (true, some n)

/-- `kr_check_signature`. -/
def krCheckSignature (lib : Libdnssec) (rrsig key : Rdata) (covered : RRset)
    (trimLabels : ℕ) : ℤ :=
  if knotRrsigSignature rrsig = [] then krError Errno.einval
  else if lib.signVerify rrsig key covered trimLabels then krOk
  else krError Errno.ebadmsg

/-- `trim_ttl`: the TTL of a validated RRset is cut to the RRSIG's original TTL (raised to
`ttl_min`) and to the time left before the signature expires. -/
def trimTtl (rrs : RRset) (sig : Rdata) (vctx : ValidationCtx) : RRset :=
  let ttlMax := min (max (knotRrsigOriginalTtl sig) vctx.ttlMin)
    (knotRrsigSigExpiration sig - vctx.timestamp)
  if rrs.ttl ≤ ttlMax then rrs else { rrs with ttl := ttlMax }

/-- The DNSKEY flags `kr_dnssec_key_zonekey_flag` and `kr_dnssec_key_revoked` read from the
first two RDATA octets, and `kr_dnssec_key_usable`. -/
def krDnssecKeyZonekeyFlag (key : Rdata) : Bool := (knotDnskeyFlags key >>> 8) &&& 0x01 ≠ 0

def krDnssecKeyRevoked (key : Rdata) : Bool := knotDnskeyFlags key &&& 0x80 ≠ 0

def krDnssecKeyUsable (key : Rdata) : Bool := krDnssecKeyZonekeyFlag key && !krDnssecKeyRevoked key

/-! ## `kr_rrset_validate` -/

section WithKey

variable (lib : Libdnssec) (key : Rdata) (keyAlg : UInt8) (keytag : UInt16) (covLabels : ℕ)

/-- The non-existence proof `kr_rrset_validate_with_key` asks of a wildcard expansion that
added `trimLabels` labels, with the flags after it: an NSEC3 proof that fails only for
opt-out is accepted with `KR_DNSSEC_VFLG_OPTOUT`. -/
def wildcardProof (vctx : ValidationCtx) (owner : Dname) (trimLabels : ℤ) : ℤ × UInt32 :=
  if !vctx.hasNsec3 then (krNsecWildcardAnswerResponseCheck vctx.authority owner, vctx.flags)
  else
    let ret := krNsec3WildcardAnswerResponseCheck lib.nsec3Hash vctx.authority owner
      (trimLabels - 1)
    if ret = krError knotERange then (krOk, vctx.flags ||| vflgOptout) else (ret, vctx.flags)

/-- The end of `kr_rrset_validate_with_key` for a verified signature: the covered TTL is
trimmed and the RRSIG entry upgraded from BOGUS to SECURE. -/
def validatedWith (i : ℕ) (rd : Rdata) (vctx : ValidationCtx) (covered : RRset) :
    Option ℤ × ValidationCtx × RRset :=
  (some krOk, { vctx.setRank i Rank.secure with result := krOk }, trimTtl covered rd vctx)

/-- The loop over the RDATA of the `i`-th RRSIG RRset of `vctx->rrs`: `some` result where it
jumps to `finish`, `none` where it runs out or breaks. -/
def validateWithKeyRdata (i : ℕ) :
    List Rdata → ValidationCtx → RRset → Option ℤ × ValidationCtx × RRset
  | [], vctx, covered => (none, vctx, covered)
  | rd :: rds, vctx, covered =>
    if knotRrsigTypeCovered rd ≠ covered.type then validateWithKeyRdata i rds vctx covered
    else
      -- defensive style: BOGUS until a signature verifies
      let vctx := (vctx.setRank i Rank.bogus).bump .matchingNameType
      match validateRrsigRr covLabels rd keyAlg keytag vctx with
      | (retv, wildcard, vctx) =>
        if retv = krError Errno.eagain then (some retv, { vctx with result := retv }, covered)
        else if retv ≠ krOk then validateWithKeyRdata i rds vctx covered
        else
          let trimLabels := if wildcard then wildcardRadixLenDiff covered.owner rd else 0
          if trimLabels < 0 then (none, vctx, covered)
          else
            match accountCryptoLimit vctx.limitCryptoRemains with
            | (false, remains) =>
              (some (krError Errno.e2big),
                { vctx with limitCryptoRemains := remains, result := krError Errno.e2big },
                covered)
            | (true, remains) =>
              let vctx := { vctx with limitCryptoRemains := remains }
              if krCheckSignature lib rd key covered trimLabels.toNat ≠ krOk then
                validateWithKeyRdata i rds (vctx.bump .cryptoInvalid) covered
              else if wildcard then
                match wildcardProof lib vctx covered.owner trimLabels with
                | (ret, flags) =>
                  if ret ≠ krOk then
                    validateWithKeyRdata i rds ({ vctx with flags }.bump .nsecInvalid) covered
                  else validatedWith i rd { vctx with flags := flags ||| vflgWexpand } covered
              else validatedWith i rd vctx covered

/-- The loop over the entries of `vctx->rrs`, from the `i`-th: the RRSIG RRsets of the query
owned by the covered name, in its class. -/
def validateWithKeyEntries :
    ℕ → List RankedEntry → ValidationCtx → RRset → Option ℤ × ValidationCtx × RRset
  | _, [], vctx, covered => (none, vctx, covered)
  | i, e :: es, vctx, covered =>
    if e.qryUid = vctx.qryUid ∧ e.rr.type = RRType.rrsig ∧ e.rr.rclass = covered.rclass ∧
        e.rr.owner = covered.owner then
      match validateWithKeyRdata lib key keyAlg keytag covLabels i e.rr.rdata vctx covered with
      | (some ret, vctx, covered) => (some ret, vctx, covered)
      | (none, vctx, covered) => validateWithKeyEntries (i + 1) es vctx covered
    else validateWithKeyEntries (i + 1) es vctx covered

end WithKey

/-- `kr_rrset_validate_with_key` with the key `knot_rdataset_at(&keys->rrs, key_pos)`. -/
def krRrsetValidateWithKey (lib : Libdnssec) (vctx : ValidationCtx) (covered : RRset)
    (keyRdata : Rdata) : ℤ × ValidationCtx × RRset :=
  -- the RR must lie in the zone of the keys: zones must not sign out-of-bailiwick records
  if vctx.keys.owner ≠ vctx.zoneName ∨ knotDnameInBailiwick covered.owner vctx.zoneName < 0 then
    (krError Errno.enoent, { vctx with result := krError Errno.enoent }, covered)
  else
    let ret := lib.keySetRdata keyRdata
    if ret ≠ 0 then (ret, { vctx with result := ret }, covered)
    else
      let keytag := lib.keytag keyRdata
      let keyAlg := knotDnskeyAlg keyRdata
      -- the asterisk does not count, RFC 4034 3.1.3
      let covLabels := knotDnameLabels covered.owner -
        (if knotDnameIsWildcard covered.owner then 1 else 0)
      match validateWithKeyEntries lib keyRdata keyAlg keytag covLabels 0 vctx.rrs vctx covered with
      | (some ret, vctx, covered) => (ret, vctx, covered)
      | (none, vctx, covered) =>
        (krError Errno.enoent, { vctx with result := krError Errno.enoent }, covered)

/-- The loop of `kr_rrset_validate` over the keys. -/
def krRrsetValidateKeys (lib : Libdnssec) :
    List Rdata → ValidationCtx → RRset → ℤ × ValidationCtx × RRset
  | [], vctx, covered => (krError Errno.enoent, vctx, covered)
  | k :: ks, vctx, covered =>
    match krRrsetValidateWithKey lib vctx covered k with
    | (ret, vctx, covered) =>
      if ret = krOk ∨ ret = krError Errno.e2big then (ret, vctx, covered)
      else krRrsetValidateKeys lib ks vctx covered

/-- `kr_rrset_validate`: `0` with the TTL of `covered` trimmed, or the error. -/
def krRrsetValidate (lib : Libdnssec) (vctx : ValidationCtx) (covered : RRset) :
    ℤ × ValidationCtx × RRset :=
  krRrsetValidateKeys lib vctx.keys.rdata { vctx with rrsCounters := fun _ => 0 } covered

/-! ## `kr_dnskeys_trusted` -/

/-- `authenticate_ds`: the DS RDATA computed from the key is the given one. -/
def authenticateDs (lib : Libdnssec) (key ds : Rdata) : ℤ :=
  match lib.createDs key (knotDsDigestType ds) with
  | .error e => krError e
  | .ok computed => if computed = ds then krOk else krError Errno.enoent

/-- The loop of `kr_authenticate_referral` over the DS RDATA; `ret` is the last result. -/
def authenticateReferralLoop (lib : Libdnssec) (key : Rdata) (skipSha1 : Bool) :
    List Rdata → ℤ → ℤ
  | [], ret => krError ret
  | ds :: dss, ret =>
    if skipSha1 ∧ knotDsDigestType ds = digestSha1 then
      authenticateReferralLoop lib key skipSha1 dss ret
    else
      let ret := authenticateDs lib key ds
      if ret = krOk then krOk else authenticateReferralLoop lib key skipSha1 dss ret

/-- `kr_authenticate_referral`: some DS of `ref` is a digest of the key; SHA-1 digests are
ignored when a supported stronger one is present (RFC 4509 3). -/
def krAuthenticateReferral (lib : Libdnssec) (ref : RRset) (key : Rdata) : ℤ :=
  if ref.type ≠ RRType.ds then krError Errno.einval
  else
    let skipSha1 := ref.rdata.any fun ds =>
      knotDsDigestType ds ≠ digestSha1 && lib.digestSupport (knotDsDigestType ds)
    authenticateReferralLoop lib key skipSha1 ref.rdata 0

/-- The loop of `kr_svldr_rrset_with_key` over the RRSIG RDATA: a key of the DNSKEY set
validates the set itself, with no wildcard proof. -/
def svldrRrsetWithKeyLoop (lib : Libdnssec) (key : Rdata) (keyAlg : UInt8) (keytag : UInt16)
    (covLabels : ℕ) : List Rdata → ValidationCtx → RRset → ℤ × ValidationCtx × RRset
  | [], vctx, rrs => (krError Errno.enoent, { vctx with result := krError Errno.enoent }, rrs)
  | rd :: rds, vctx, rrs =>
    if knotRrsigTypeCovered rd ≠ rrs.type then
      svldrRrsetWithKeyLoop lib key keyAlg keytag covLabels rds vctx rrs
    else
      match validateRrsigRr covLabels rd keyAlg keytag vctx with
      | (retv, wildcard, vctx) =>
        if retv = krError Errno.eagain then (retv, { vctx with result := retv }, rrs)
        else if retv ≠ krOk then svldrRrsetWithKeyLoop lib key keyAlg keytag covLabels rds vctx rrs
        else
          match accountCryptoLimit vctx.limitCryptoRemains with
          | (false, remains) =>
            (krError Errno.e2big,
              { vctx with limitCryptoRemains := remains, result := krError Errno.e2big }, rrs)
          | (true, remains) =>
            let vctx := { vctx with limitCryptoRemains := remains }
            let trimLabels := if wildcard then 1 else 0
            if krCheckSignature lib rd key rrs trimLabels = krOk then
              (krOk, { vctx with result := krOk }, trimTtl rrs rd vctx)
            else svldrRrsetWithKeyLoop lib key keyAlg keytag covLabels rds
              (vctx.bump .cryptoInvalid) rrs

/-- `kr_svldr_rrset_with_key`. -/
def krSvldrRrsetWithKey (lib : Libdnssec) (rrs : RRset) (rrsigs : List Rdata)
    (vctx : ValidationCtx) (key : Rdata) : ℤ × ValidationCtx × RRset :=
  let covLabels := knotDnameLabels rrs.owner - (if knotDnameIsWildcard rrs.owner then 1 else 0)
  svldrRrsetWithKeyLoop lib key (knotDnskeyAlg key) (lib.keytag key) covLabels rrsigs vctx rrs

/-- The loop of `kr_dnskeys_trusted` over the keys, last one first: only a usable key whose
digest is in the DS set may validate the DNSKEY set. -/
def dnskeysTrustedLoop (lib : Libdnssec) (sigs : List Rdata) (ta : RRset) :
    List Rdata → ValidationCtx → ℤ × ValidationCtx
  | [], vctx => (krError Errno.enoent, { vctx with result := krError Errno.enoent })
  | krr :: krrs, vctx =>
    -- RFC 4035 5.3.1, bullet 8 requires the Zone Flag bit
    if !krDnssecKeyUsable krr then dnskeysTrustedLoop lib sigs ta krrs vctx
    -- a key that libdnssec cannot build is skipped
    else if lib.keySetRdata krr ≠ 0 then dnskeysTrustedLoop lib sigs ta krrs vctx
    else
      let ret := krAuthenticateReferral lib ta krr
      let (ret, vctx) := if ret = krOk then
          match krSvldrRrsetWithKey lib vctx.keys sigs vctx krr with
          | (ret, vctx, keys) => (ret, { vctx with keys })
        else (ret, vctx)
      if ret = krOk ∨ ret = krError Errno.e2big then (vctx.result, vctx)
      else dnskeysTrustedLoop lib sigs ta krrs vctx

/-- `kr_dnskeys_trusted`: `vctx->keys`, validated by its RRSIGs `sigs` with a key that the DS
set `ta` authenticates. -/
def krDnskeysTrusted (lib : Libdnssec) (vctx : ValidationCtx) (sigs : List Rdata)
    (ta : RRset) : ℤ × ValidationCtx :=
  if ta.type ≠ RRType.ds ∨ ta.owner ≠ vctx.keys.owner then (krError Errno.einval, vctx)
  else dnskeysTrustedLoop lib sigs ta vctx.keys.rdata.reverse vctx

/-! ## What validation changes of the covered RRset -/

/-- `c'` is `c` with another TTL: all that `trim_ttl` may change. -/
def RRset.SameButTtl (c c' : RRset) : Prop := ∃ ttl, c' = { c with ttl }

theorem RRset.SameButTtl.refl (c : RRset) : c.SameButTtl c := ⟨c.ttl, rfl⟩

theorem RRset.SameButTtl.trans {a b c : RRset} (hab : a.SameButTtl b) (hbc : b.SameButTtl c) :
    a.SameButTtl c := by
  obtain ⟨t, rfl⟩ := hab
  obtain ⟨t', rfl⟩ := hbc
  exact ⟨t', rfl⟩

theorem trimTtl_sameButTtl (rrs : RRset) (sig : Rdata) (vctx : ValidationCtx) :
    rrs.SameButTtl (trimTtl rrs sig vctx) := by
  unfold trimTtl
  dsimp only
  split
  · exact RRset.SameButTtl.refl rrs
  · exact ⟨_, rfl⟩

section Frame

variable {lib : Libdnssec} {key : Rdata} {keyAlg : UInt8} {keytag : UInt16} {covLabels : ℕ}

theorem validateWithKeyRdata_sameButTtl (i : ℕ) (rds : List Rdata) (vctx : ValidationCtx)
    (c : RRset) :
    c.SameButTtl (validateWithKeyRdata lib key keyAlg keytag covLabels i rds vctx c).2.2 := by
  induction rds generalizing vctx with
  | nil => exact RRset.SameButTtl.refl c
  | cons rd rds ih =>
    unfold validateWithKeyRdata
    -- every exit keeps `c` or trims its TTL; every other branch is the next RDATA
    repeat' (first | dsimp only | split | exact ih _ | exact RRset.SameButTtl.refl c |
      exact trimTtl_sameButTtl _ _ _)

theorem validateWithKeyEntries_sameButTtl (i : ℕ) (es : List RankedEntry) (vctx : ValidationCtx)
    (c : RRset) :
    c.SameButTtl (validateWithKeyEntries lib key keyAlg keytag covLabels i es vctx c).2.2 := by
  induction es generalizing i vctx c with
  | nil => exact RRset.SameButTtl.refl c
  | cons e es ih =>
    unfold validateWithKeyEntries
    split
    · have hrd :=
        @validateWithKeyRdata_sameButTtl lib key keyAlg keytag covLabels i e.rr.rdata vctx c
      split <;> rename_i h <;> rw [h] at hrd
      · exact hrd
      · exact hrd.trans (ih _ _ _)
    · exact ih _ _ _

end Frame

theorem krRrsetValidateWithKey_sameButTtl (lib : Libdnssec) (vctx : ValidationCtx) (c : RRset)
    (k : Rdata) : c.SameButTtl (krRrsetValidateWithKey lib vctx c k).2.2 := by
  unfold krRrsetValidateWithKey
  dsimp only
  by_cases hzone : vctx.keys.owner ≠ vctx.zoneName ∨
      knotDnameInBailiwick c.owner vctx.zoneName < 0
  · rw [if_pos hzone]
    exact RRset.SameButTtl.refl c
  rw [if_neg hzone]
  by_cases hret : lib.keySetRdata k ≠ 0
  · rw [if_pos hret]
    exact RRset.SameButTtl.refl c
  rw [if_neg hret]
  have hent := @validateWithKeyEntries_sameButTtl lib k (knotDnskeyAlg k) (lib.keytag k)
    (knotDnameLabels c.owner - if knotDnameIsWildcard c.owner then 1 else 0) 0 vctx.rrs vctx c
  revert hent
  rcases validateWithKeyEntries lib k (knotDnskeyAlg k) (lib.keytag k)
    (knotDnameLabels c.owner - if knotDnameIsWildcard c.owner then 1 else 0) 0 vctx.rrs vctx c
    with ⟨_ | ret, v, c'⟩ <;> exact id

theorem krRrsetValidateKeys_sameButTtl (lib : Libdnssec) (ks : List Rdata)
    (vctx : ValidationCtx) (c : RRset) : c.SameButTtl (krRrsetValidateKeys lib ks vctx c).2.2 := by
  induction ks generalizing vctx c with
  | nil => exact RRset.SameButTtl.refl c
  | cons k ks ih =>
    unfold krRrsetValidateKeys
    have hkey := krRrsetValidateWithKey_sameButTtl lib vctx c k
    revert hkey
    rcases krRrsetValidateWithKey lib vctx c k with ⟨ret, v, c'⟩
    intro hkey
    dsimp only
    split
    · exact hkey
    · exact hkey.trans (ih _ _)

/-- `kr_rrset_validate` changes nothing of the covered RRset but its TTL. -/
theorem krRrsetValidate_sameButTtl (lib : Libdnssec) (vctx : ValidationCtx) (c : RRset) :
    c.SameButTtl (krRrsetValidate lib vctx c).2.2 :=
  krRrsetValidateKeys_sameButTtl lib _ _ c

/-! ## libdnssec for RSASHA256 keys -/

/-- Two and four octets in network order. -/
def wireU16 (x : UInt16) : List UInt8 := [(x >>> 8).toUInt8, x.toUInt8]

def wireU32 (x : UInt32) : List UInt8 :=
  [(x >>> 24).toUInt8, (x >>> 16).toUInt8, (x >>> 8).toUInt8, x.toUInt8]

/-- The wire form of DNSKEY RDATA. -/
def dnskeyRdataWire : Rdata → List UInt8
  | .dnskey flags protocol algorithm publicKey => wireU16 flags ++ [protocol, algorithm] ++ publicKey
  | _ => []

/-- The sum of RFC 4034 Appendix B: the octets at even places count 256 times. -/
def keytagSum : List UInt8 → ℕ
  | a :: b :: rest => a.toNat * 256 + b.toNat + keytagSum rest
  | [a] => a.toNat * 256
  | [] => 0

/-- `dnssec_keytag`, RFC 4034 Appendix B: for RSAMD5 the two octets before the last one of the
modulus, for the other algorithms the sum with its carry folded in. -/
def dnssecKeytag (key : Rdata) : UInt16 :=
  let w := dnskeyRdataWire key
  if knotDnskeyAlg key = 1 then
    ((w.getD (w.length - 3) 0).toNat * 256 + (w.getD (w.length - 2) 0).toNat).toUInt16
  else
    let ac := keytagSum w
    (ac + ac / 65536).toUInt16

/-- An RSA public key in DNSKEY RDATA, RFC 3110 2: the exponent behind its length (one octet,
or two after a zero octet), then the modulus, which must not be empty. -/
def rsaPublicKey : List UInt8 → Option (List UInt8 × List UInt8)
  | 0 :: hi :: lo :: rest =>
    let len := hi.toNat * 256 + lo.toNat
    if 0 < len ∧ len < rest.length then some (rest.take len, rest.drop len) else none
  | l :: rest =>
    if l.toNat < rest.length then some (rest.take l.toNat, rest.drop l.toNat) else none
  | [] => none

/-- The wire form of RDATA whose octets the resolver signs as it holds them: addresses and other
raw RDATA, and single names. NSEC, NSEC3 and RRSIG RDATA are not written out here. -/
def rdataWire : Rdata → Option (List UInt8)
  | .raw data => some data
  | .name target => some target.wire
  | .dnskey flags protocol algorithm publicKey =>
    some (wireU16 flags ++ [protocol, algorithm] ++ publicKey)
  | .ds keyTag algorithm digestType digest => some (wireU16 keyTag ++ [algorithm, digestType] ++ digest)
  | _ => none

/-- `sign_ctx_add_self`: the RRSIG RDATA up to the signer's name, then that name. -/
def signCtxAddSelf : Rdata → List UInt8
  | .rrsig typeCovered algorithm labels originalTtl expiration inception keyTag signer _ =>
    wireU16 typeCovered ++ [algorithm, labels] ++ wireU32 originalTtl ++ wireU32 expiration ++
      wireU32 inception ++ wireU16 keyTag ++ signer.wire
  | _ => []

/-- `sign_ctx_add_records`: every RR of the covered RRset in its order, with the original TTL
and, for a wildcard expansion, the owner cut by `trimLabels` labels behind an asterisk. -/
def signCtxAddRecords (covered : RRset) (origTtl : UInt32) (trimLabels : ℕ) :
    Option (List UInt8) :=
  if covered.owner.labels.length < trimLabels then none
  else
    let owner := if trimLabels = 0 then covered.owner.wire
      else (Dname.mk (covered.owner.labels.drop trimLabels)).wildcard.wire
    (covered.rdata.mapM rdataWire).map fun rds => rds.flatMap fun rd =>
      owner ++ wireU16 covered.type ++ wireU16 covered.rclass ++ wireU32 origTtl ++
        wireU16 rd.length.toUInt16 ++ rd

/-- `sign_ctx_add_data`: the data an RRSIG signs. -/
def signCtxAddData (rrsig : Rdata) (covered : RRset) (trimLabels : ℕ) : Option (List UInt8) :=
  (signCtxAddRecords covered (knotRrsigOriginalTtl rrsig) trimLabels).map (signCtxAddSelf rrsig ++ ·)

/-- libdnssec with keys of algorithm 8 (RSASHA256) only: such a key is built from RDATA that
holds an RFC 3110 key, and a signature verifies when it is an RSASSA-PKCS1-v1_5 signature with
SHA-256 of the data `kr_check_signature` assembles. The DS digests and NSEC3 hashes are not
computed here. -/
def libdnssecRsaSha256 : Libdnssec where
  keySetRdata
    | .dnskey _ _ 8 publicKey => if (rsaPublicKey publicKey).isSome then 0 else -1
    | _ => -1
  keytag := dnssecKeytag
  signVerify sig key covered trimLabels :=
    match key, rsaPublicKey (match key with | .dnskey _ _ _ pk => pk | _ => []),
        signCtxAddData sig covered trimLabels with
    | .dnskey _ _ 8 _, some (e, n), some data =>
      Pkcs1.verify e n (Pkcs1.sha256DigestInfo ++ Sha256.hash data) (knotRrsigSignature sig)
    | _, _, _ => false
  createDs _ _ := .error (-1)
  digestSupport d := d = 1 ∨ d = 2 ∨ d = 4
  nsec3Hash _ _ := none

/-! ## A signature by a revoked key -/

/-- A revoked key signing key of `ex`: flags 0x0181 (Zone Key, Revoke, SEP), algorithm 8, an
RSA key of 2048 bits with exponent 65537. Its key tag is 28795. -/
def revokedKey : Rdata := .dnskey 0x0181 3 8 ([3, 0x01, 0x00, 0x01] ++ [
    0xdf, 0xd5, 0x5d, 0xff, 0x80, 0x16, 0x48, 0x5b, 0xa3, 0x83, 0x53, 0xbb, 0xce, 0x2a,
    0xd9, 0x46, 0xdc, 0xbf, 0x37, 0x29, 0x8a, 0x2a, 0x80, 0xc8, 0x6f, 0xa0, 0x87, 0x79,
    0xf1, 0x94, 0xdf, 0x43, 0x90, 0x71, 0xce, 0xe8, 0xb3, 0x08, 0x82, 0x05, 0x17, 0x58,
    0x0f, 0xb3, 0xd2, 0x1c, 0xe8, 0xdc, 0x6a, 0x8f, 0xc0, 0x21, 0x3e, 0x20, 0xbc, 0x1f,
    0x2f, 0x2c, 0xa4, 0xf4, 0xc3, 0xf1, 0x7f, 0x26, 0xa5, 0xb8, 0x6c, 0xe5, 0x9b, 0x78,
    0x3a, 0x23, 0x5f, 0xa4, 0xb3, 0xce, 0xdd, 0x14, 0x9e, 0xd8, 0xf8, 0x73, 0x81, 0x39,
    0x31, 0x16, 0x66, 0x70, 0x36, 0x4b, 0xef, 0x4e, 0xbc, 0x55, 0xc4, 0x02, 0xd0, 0xc4,
    0x2a, 0xfe, 0x00, 0x36, 0x03, 0xbe, 0x8a, 0xd4, 0x83, 0xb9, 0xca, 0xee, 0x7a, 0x33,
    0xa3, 0x37, 0xce, 0x6b, 0x3e, 0xe8, 0x8f, 0xc7, 0x6f, 0x52, 0x20, 0x26, 0x14, 0x5a,
    0x6f, 0x02, 0xb7, 0xea, 0x35, 0x8a, 0x2a, 0xe9, 0x71, 0x60, 0x20, 0x6d, 0x16, 0x78,
    0x68, 0x30, 0xc0, 0xaf, 0xf5, 0x84, 0x19, 0xe9, 0x64, 0x16, 0x86, 0x89, 0xe4, 0x6b,
    0x2b, 0x7e, 0xd6, 0x99, 0x0b, 0xe6, 0xd6, 0xdd, 0xea, 0x66, 0x2b, 0x34, 0x12, 0xb6,
    0xd3, 0xdc, 0xb4, 0xaf, 0xf1, 0x04, 0xc8, 0x9f, 0x36, 0x7f, 0x6b, 0x62, 0xc1, 0xc0,
    0xd8, 0xbd, 0x34, 0x84, 0x90, 0x2a, 0x82, 0xc8, 0xf1, 0xbc, 0x83, 0x70, 0xda, 0x61,
    0x86, 0xab, 0x08, 0x6e, 0x24, 0xee, 0x42, 0xa8, 0x86, 0xc2, 0x89, 0x2d, 0x35, 0xfa,
    0xf4, 0x7f, 0xc6, 0x68, 0x66, 0x3b, 0x5e, 0x68, 0x72, 0x29, 0x67, 0x20, 0xc4, 0x8f,
    0xa2, 0x64, 0xc0, 0x50, 0xd2, 0xa6, 0x60, 0x83, 0x73, 0xb5, 0xcc, 0x2f, 0x65, 0xfe,
    0x1a, 0xb6, 0xbb, 0x76, 0x82, 0x69, 0x1d, 0x5a, 0xea, 0x48, 0xaf, 0x12, 0x6c, 0xd4,
    0x36, 0x3b, 0x22, 0x5f]) 

def revokedKeys : RRset where
  owner := nameEx
  type := RRType.dnskey
  rclass := classIn
  ttl := 3600
  rdata := [revokedKey]
  rdata_ne_nil := by simp
  rdata_fit := by decide

/-- The A RRset of `a.ex`. -/
def aRRset : RRset where
  owner := nameAEx
  type := RRType.a
  rclass := classIn
  ttl := 3600
  rdata := [.raw [192, 0, 2, 1]]
  rdata_ne_nil := by simp
  rdata_fit := by decide

/-- Its RRSIG made with the private half of the revoked key, valid from 1000 to 2000. -/
def revokedSig : Rdata := .rrsig RRType.a 8 2 3600 2000 1000 28795 nameEx [
    0x56, 0x94, 0x1e, 0xe3, 0xe3, 0x9a, 0xfa, 0x5e, 0xc4, 0x85, 0x14, 0x0a, 0xf0, 0x43,
    0xf9, 0x4d, 0xee, 0xda, 0xb9, 0xfd, 0x2a, 0x3c, 0xab, 0x60, 0x5d, 0x5b, 0xd8, 0x9f,
    0x08, 0xd7, 0x64, 0x6a, 0x4c, 0x87, 0x19, 0x43, 0x44, 0xb5, 0x87, 0x93, 0x8f, 0x2c,
    0x75, 0x92, 0x5a, 0x20, 0xc2, 0x77, 0xc5, 0x2a, 0x8c, 0x6c, 0x82, 0x93, 0xe8, 0x9d,
    0x84, 0xf5, 0x1c, 0x28, 0x5f, 0xc4, 0x36, 0x19, 0x7d, 0x03, 0x44, 0x5d, 0x83, 0xf5,
    0xe3, 0x16, 0xbe, 0xbf, 0x6c, 0x06, 0xd9, 0x02, 0xe9, 0xa0, 0xae, 0xf0, 0xa9, 0x0a,
    0xa7, 0xfc, 0x41, 0x32, 0xba, 0x74, 0x2d, 0x3e, 0xbd, 0xfa, 0xd4, 0x08, 0xcf, 0x1a,
    0xb9, 0xf5, 0xe2, 0xa8, 0x79, 0xad, 0x86, 0xe1, 0x3d, 0xd8, 0x24, 0x1b, 0xe0, 0x7a,
    0xb1, 0xa2, 0x01, 0x18, 0x97, 0x0c, 0xdd, 0x26, 0x06, 0xe4, 0x4a, 0x8c, 0x25, 0xc0,
    0xc1, 0x93, 0x5e, 0xa7, 0xe5, 0xca, 0xcc, 0xb1, 0x4d, 0xb0, 0x79, 0xb7, 0x34, 0xb7,
    0x20, 0x55, 0xa7, 0x94, 0xec, 0x4f, 0xe8, 0x10, 0x89, 0xe1, 0xd1, 0xd8, 0x5a, 0xee,
    0x04, 0xee, 0x7c, 0x0a, 0xdc, 0x8b, 0x7d, 0xb0, 0xad, 0x0e, 0xd3, 0x82, 0xf2, 0x40,
    0x90, 0xf1, 0x58, 0x73, 0x1e, 0xe5, 0xbd, 0x69, 0x65, 0xc9, 0xed, 0xae, 0x7c, 0xfa,
    0x8e, 0x00, 0x1d, 0x4a, 0xc9, 0xfd, 0x31, 0x88, 0x6e, 0x85, 0x7a, 0x4e, 0x31, 0x62,
    0xa2, 0x25, 0x33, 0xa5, 0x0e, 0x66, 0x9b, 0x37, 0x0e, 0x7e, 0xb1, 0x1d, 0x9b, 0xdf,
    0xb5, 0x07, 0x5d, 0xe3, 0x01, 0x7d, 0x94, 0x10, 0x8c, 0xa8, 0xfd, 0x40, 0x2f, 0x93,
    0x7a, 0x3f, 0xf4, 0x66, 0xe6, 0xe5, 0xcc, 0xd4, 0x4a, 0xb3, 0x6e, 0x0f, 0xa6, 0xc6,
    0xfa, 0xc6, 0x2a, 0xa4, 0xe8, 0x0c, 0x05, 0x37, 0xe5, 0x33, 0x4b, 0x21, 0x0f, 0xd6,
    0xa0, 0x4e, 0x96, 0x7a]

def revokedSigRRset : RRset where
  owner := nameAEx
  type := RRType.rrsig
  rclass := classIn
  ttl := 3600
  rdata := [revokedSig]
  rdata_ne_nil := by simp
  rdata_fit := by decide

/-- Validation of `a.ex` in the zone `ex` at time 1500 for query 1. -/
def revokedCtx : ValidationCtx where
  authority := []
  rrs := [{ rr := revokedSigRRset, rank := Rank.initial, qryUid := 1 }]
  keys := revokedKeys
  zoneName := nameEx
  timestamp := 1500
  ttlMin := 0
  hasNsec3 := false
  qryUid := 1
  flags := 0
  errCnt := 0
  cnameNorrsigCnt := 0
  limitCryptoRemains := none
  result := 0
  rrsCounters := fun _ => 0

/-- With any libdnssec that builds the revoked key, gives it its key tag and verifies its
signature, `kr_rrset_validate` accepts the RRset although no key of `vctx->keys` is usable. -/
theorem krRrsetValidate_accepts_revoked_key (lib : Libdnssec)
    (hbuild : lib.keySetRdata revokedKey = 0) (htag : lib.keytag revokedKey = 28795)
    (hverify : lib.signVerify revokedSig revokedKey aRRset 0 = true) :
    (krRrsetValidate lib revokedCtx aRRset).1 = krOk ∧
      ∀ k ∈ revokedCtx.keys.rdata, krDnssecKeyUsable k = false := by
  refine ⟨?_, by decide⟩
  have hsig : krCheckSignature lib revokedSig revokedKey aRRset 0 = krOk := by
    rw [krCheckSignature, if_neg (by decide), hverify, if_pos rfl]
  -- the one key and the one RRSIG: every check but the signature is on concrete data
  simp +decide [krRrsetValidate, krRrsetValidateKeys, krRrsetValidateWithKey, revokedCtx,
    revokedKeys, hbuild, htag, validateWithKeyEntries, validateWithKeyRdata, hsig,
    revokedSigRRset, validateRrsigRr, validatedWith, accountCryptoLimit]

theorem krRrsetValidate_accepts_revoked_key_ex :
    libdnssecRsaSha256.keySetRdata revokedKey = 0 ∧
      libdnssecRsaSha256.keytag revokedKey = 28795 ∧
      libdnssecRsaSha256.signVerify revokedSig revokedKey aRRset 0 = true ∧
      (krRrsetValidate libdnssecRsaSha256 revokedCtx aRRset).1 = krOk ∧
      ∀ k ∈ revokedCtx.keys.rdata, krDnssecKeyUsable k = false :=
  -- the key of 260 octets is beyond what the elaborator's evaluation reaches
  have hbuild : libdnssecRsaSha256.keySetRdata revokedKey = 0 := by decide +kernel
  have htag : libdnssecRsaSha256.keytag revokedKey = 28795 := by decide +kernel
  have hverify : libdnssecRsaSha256.signVerify revokedSig revokedKey aRRset 0 = true := by
    decide +kernel
  ⟨hbuild, htag, hverify,
    krRrsetValidate_accepts_revoked_key libdnssecRsaSha256 hbuild htag hverify⟩

end KnotResolver
