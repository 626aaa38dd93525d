import KnotResolver.Dnssec.Validation
import KnotResolver.Lib.CString

/-!
# The validator layer: ranking the selected records

`lib/layer/validate.c`. `validate_section` walks one selected array of the request (the
answer or the authority records) and ranks each entry of the current query: entries already
OMIT or SECURE are kept, an entry under a negative trust anchor becomes INSECURE, an RRSIG is
checked for its signer only, and every other RRset is validated by `kr_rrset_validate`. An
unsigned CNAME counts as validated when a SECURE DNAME of the array could have produced it
(`cname_matches_dname`). `validate_records` runs this over the answer, again when every
failure was an unsigned CNAME, and over the authority records.

A SECURE NSEC3 over the iteration limit downgrades the query (`maybe_downgrade_nsec3`): its
records in the signer's zone become INSECURE in both arrays, so the state of
`validate_section` carries the array it is not walking.
-/

namespace KnotResolver

open CString

/-! ## Queries and trust anchors -/

/-- A query up the chain `qry->parent`, as `mark_insecure_parents` sees it. -/
structure ParentQuery where
  stype : RRType
  awaitIpv4 : Bool
  awaitIpv6 : Bool
  dnssecWant : Bool
  dnssecInsecure : Bool

/-- The fields of `struct kr_query` that the validator reads and writes. -/
structure ValidatorQuery where
  uid : UInt32
  sname : Dname
  zoneCutName : Dname
  /-- `zone_cut.key`, the DNSKEY RRset of the zone cut -/
  zoneCutKey : Option RRset
  timestamp : UInt32
  vldLimitCryptoRemains : ℕ
  dnssecWant : Bool
  dnssecInsecure : Bool
  dnssecWexpand : Bool
  dnssecOptout : Bool
  parents : List ParentQuery

/-- The trust anchors and negative trust anchors of `struct kr_context`, by the names they
were added under. -/
structure TrustAnchors where
  trustAnchors : List Dname
  negativeAnchors : List Dname

/-- `kr_ta_get`: the tries are keyed by `strlen` of the wire name, so a name is found by its
wire form up to the first zero octet. -/
def krTaGet (anchors : List Dname) (name : Dname) : Bool :=
  anchors.any fun ta => ta.wire.takeWhile (· ≠ 0) == name.wire.takeWhile (· ≠ 0)

/-- The loop of `kr_ta_closest`, from the name with these labels up to the root. -/
def taClosestFrom (tas : TrustAnchors) : List Label → Option Dname
  | [] => if krTaGet tas.trustAnchors Dname.root then some Dname.root else none
  | l :: parent =>
    if krTaGet tas.trustAnchors ⟨l :: parent⟩ then some ⟨l :: parent⟩
    else if krTaGet tas.negativeAnchors ⟨l :: parent⟩ then none
    else taClosestFrom tas parent

/-- `kr_ta_closest`: the closest trust anchor at or above `name`, none where a negative
anchor comes first. A DS is a parent-side record, looked up from the parent. -/
def krTaClosest (tas : TrustAnchors) (name : Dname) (type : RRType) : Option Dname :=
  let name := if type = RRType.ds ∧ name.labels ≠ [] then knotDnameNextLabel name else name
  taClosestFrom tas name.labels

/-! ## CNAMEs synthesized from DNAMEs -/

/-- `cname_matches_dname`: the CNAME could be the DNAME's substitution, judged without DNSSEC
on the first record of each RRset. The owner lies strictly below the DNAME owner, the target
below the DNAME target by as many labels, and the carried-over labels compare equal under
`strncmp` over the owner's wire form. -/
def cnameMatchesDname (rrCn rrDn : RRset) : Bool :=
  if rrCn.type ≠ RRType.cname ∨ rrDn.type ≠ RRType.dname then false
  else
    let prefixLabels := knotDnameInBailiwick rrCn.owner rrDn.owner
    if prefixLabels < 1 then false
    else
      let cnTarget := knotCnameName rrCn
      let dnTarget := knotDnameTarget rrDn
      if knotDnameInBailiwick cnTarget dnTarget ≠ prefixLabels then false
      else
        -- the end of the carried-over labels: a length octet and the label for each
        let cnSe :=
          ((rrCn.owner.labels.take prefixLabels.toNat).map fun l => l.bytes.length + 1).sum
        strncmp rrCn.owner.wire cnTarget.wire cnSe = 0

/-- The search of `validate_section` for a SECURE DNAME of the array that the CNAME could
come from. -/
def dnameSynthesized (rr : RRset) (rrs : List RankedEntry) : Bool :=
  rrs.any fun e =>
    e.rr.type = RRType.dname && krRankTest e.rank Rank.secure && cnameMatchesDname rr e.rr

/-- The DNAME fallback: an unsigned CNAME that a SECURE DNAME could have produced counts as
validated. -/
def cnameFallback (validationResult : ℤ) (rr : RRset) (rrs : List RankedEntry) : ℤ :=
  if rr.type = RRType.cname ∧ validationResult = krError Errno.enoent ∧ dnameSynthesized rr rrs
  then krOk
  else validationResult

/-! ## Downgrading a query -/

/-- `rank_records` on one array: the entries of query `uid` at or below `bailiwick` (all of
them without one) get `rankToSet`; with `anyRank` false only those INITIAL, TRY or
MISSING. -/
def rankRecords (uid : UInt32) (anyRank : Bool) (rankToSet : UInt8) (bailiwick : Option Dname)
    (arr : List RankedEntry) : List RankedEntry :=
  arr.map fun e =>
    let outside := match bailiwick with
      | some b => decide (knotDnameInBailiwick e.rr.owner b < 0)
      | none => false
    if e.qryUid ≠ uid ∨ outside = true then e
    else if anyRank ∨ krRankTest e.rank Rank.initial ∨ krRankTest e.rank Rank.try_ ∨
        krRankTest e.rank Rank.missing then { e with rank := krRankSet e.rank rankToSet }
    else e

/-- `mark_insecure_parents`: the chain of DS (or RRSIG) queries above, and the first other
parent, stop wanting DNSSEC; a parent waiting for an address stops the walk. -/
def markInsecureParents : List ParentQuery → List ParentQuery
  | [] => []
  | p :: ps =>
    if p.awaitIpv4 ∨ p.awaitIpv6 then p :: ps
    else
      let p' := { p with dnssecWant := false, dnssecInsecure := true }
      if p.stype ≠ RRType.ds ∧ p.stype ≠ RRType.rrsig then p' :: ps
      else p' :: markInsecureParents ps

/-- The test of `maybe_downgrade_nsec3`: a SECURE NSEC3 entry, with `sname` in the signer's
zone, one of whose RDATA is over the iteration limit. -/
def downgradeNsec3Needed (e : RankedEntry) (qry : ValidatorQuery) (vctx : ValidationCtx) :
    Bool :=
  e.rr.type = RRType.nsec3 && krRankTest e.rank Rank.secure &&
    decide (0 ≤ knotDnameInBailiwick qry.sname vctx.zoneName) &&
    e.rr.rdata.any krNsec3LimitedRdata

/-- libknot's `KNOT_ERROR_MIN`, and the validator's `KNOT_EDOWNGRADED` below it. -/
def knotErrorMin : ℤ := -1000
def knotEDowngraded : ℤ := knotErrorMin - 1

/-! ## `validate_section` -/

/-- What `validate_section` works on: the validation context, whose `rrs` is the array being
walked, the query, and the request's other selected array. -/
structure SectionState where
  vctx : ValidationCtx
  qry : ValidatorQuery
  other : List RankedEntry

namespace SectionState

def setRank (st : SectionState) (i : ℕ) (rank : UInt8) : SectionState :=
  { st with vctx := st.vctx.setRank i rank }

def incErr (st : SectionState) : SectionState :=
  { st with vctx := { st.vctx with errCnt := st.vctx.errCnt + 1 } }

/-- What `maybe_downgrade_nsec3` does once it downgrades: the query and its parents stop
wanting DNSSEC, and the records of both arrays in the signer's zone become INSECURE. -/
def downgrade (st : SectionState) : SectionState :=
  let rank := rankRecords st.qry.uid true Rank.insecure (some st.vctx.zoneName)
  { vctx := { st.vctx with rrs := rank st.vctx.rrs },
    qry := { st.qry with
      dnssecWant := false, dnssecInsecure := true, parents := markInsecureParents st.qry.parents },
    other := rank st.other }

@[simp] theorem setRank_rrs (st : SectionState) (i : ℕ) (rank : UInt8) :
    (st.setRank i rank).vctx.rrs =
      st.vctx.rrs.modify i fun e => { e with rank := krRankSet e.rank rank } := rfl

@[simp] theorem incErr_rrs (st : SectionState) : st.incErr.vctx.rrs = st.vctx.rrs := rfl

end SectionState

/-- How `validate_section` leaves one entry: on to the next, or out of the loop with a
result (`break` gives `0`). -/
inductive EntryOutcome
  | next (st : SectionState)
  | stop (ret : ℤ) (st : SectionState)

def EntryOutcome.state : EntryOutcome → SectionState
  | .next st => st
  | .stop _ st => st

/-- The rank the validation result earns the `i`-th entry: SECURE (then perhaps the NSEC3
downgrade), TRY for data that was only TRY before, MISSING for an RRset with no RRSIG at all,
and BOGUS otherwise. -/
def rankByResult (i : ℕ) (rankOrig : UInt8) (validationResult : ℤ) (st : SectionState) :
    EntryOutcome :=
  if validationResult = krOk then
    let st := st.setRank i Rank.secure
    let downgrade := match st.vctx.rrs[i]? with
      | some e => downgradeNsec3Needed e st.qry st.vctx
      | none => false
    if downgrade then .stop (krError knotEDowngraded) st.downgrade else .next st
  -- RFC 4035 2.2: NS RRsets at delegation points are not signed
  else if krRankTest rankOrig Rank.try_ then
    .next ({ st with vctx := { st.vctx with result := krOk } }.setRank i Rank.try_)
  else if validationResult = krError Errno.enoent ∧
      st.vctx.rrsCounters .matchingNameType = 0 then
    .next (st.setRank i Rank.missing).incErr
  else .next (st.setRank i Rank.bogus).incErr

/-- `validate_section` on the `i`-th entry once it is to be validated: `kr_rrset_validate`,
the DNAME fallback for an unsigned CNAME, and the rank. -/
def validateEntry (lib : Libdnssec) (i : ℕ) (entry : RankedEntry) (st : SectionState) :
    EntryOutcome :=
  match krRrsetValidate lib st.vctx entry.rr with
  | (validationResult, vctx, covered) =>
    -- `covered` is the entry's own RRset, whose TTL the validation may have lowered
    let vctx := { vctx with rrs := vctx.rrs.modify i fun e => { e with rr := covered } }
    let result := cnameFallback validationResult covered vctx.rrs
    let unsignedCname := covered.type = RRType.cname ∧
      validationResult = krError Errno.enoent ∧ result ≠ krOk
    let vctx := if unsignedCname then { vctx with cnameNorrsigCnt := vctx.cnameNorrsigCnt + 1 }
      else vctx
    rankByResult i entry.rank result { st with vctx }

/-- The body of the loop of `validate_section` for the `i`-th entry. -/
def validateSectionEntry (lib : Libdnssec) (tas : TrustAnchors) (i : ℕ) (st : SectionState) :
    EntryOutcome :=
  match st.vctx.rrs[i]? with
  | none => .next st
  | some entry =>
    let rr := entry.rr
    if entry.yielded ∨ st.vctx.qryUid ≠ entry.qryUid then .next st
    -- these are already OK
    else if krRankTest entry.rank Rank.omit_ ∨ krRankTest entry.rank Rank.secure then .next st
    -- a negative trust anchor between the (perceived) zone cut and the RR
    else if st.qry.zoneCutName ≠ rr.owner ∧ krTaClosest tas rr.owner rr.type = none then
      .next (st.setRank i Rank.insecure)
    else if rr.type = RRType.rrsig then
      if st.vctx.zoneName ≠ knotRrsigSignerName rr.first then
        .stop krOk (st.setRank i Rank.mismatch).incErr
      else if !krRankTest entry.rank Rank.bogus then .next (st.setRank i Rank.omit_)
      else .next st
    else validateEntry lib i entry st

/-- The loop of `validate_section` over the given positions. -/
def validateSectionLoop (lib : Libdnssec) (tas : TrustAnchors) :
    List ℕ → SectionState → ℤ × SectionState
  | [], st => (krOk, st)
  | i :: is, st =>
    match validateSectionEntry lib tas i st with
    | .next st => validateSectionLoop lib tas is st
    | .stop ret st => (ret, st)

/-- `validate_section`; the signer is the owner of the keys. -/
def validateSection (lib : Libdnssec) (tas : TrustAnchors) (st : SectionState) :
    ℤ × SectionState :=
  let st := { st with vctx := { st.vctx with zoneName := st.vctx.keys.owner } }
  validateSectionLoop lib tas (List.range st.vctx.rrs.length) st

/-! ## `validate_records` -/

/-- The fields of `struct kr_request` that `validate_records` reads and writes. -/
structure ValidatorRequest where
  answSelected : List RankedEntry
  authSelected : List RankedEntry
  answValidated : Bool
  authValidated : Bool
  /-- `ctx->cache.ttl_min` -/
  ttlMin : UInt32

/-- The query after a section: `vctx.limit_crypto_remains` points into it. -/
def SectionState.commit (st : SectionState) : ValidatorQuery :=
  { st.qry with
    vldLimitCryptoRemains := st.vctx.limitCryptoRemains.getD st.qry.vldLimitCryptoRemains }

/-- `validate_records`: the answer, a second time when every failure was an unsigned CNAME
(in hope of DNAMEs), then the authority records; the flags of the answer go to the query. -/
def validateRecords (lib : Libdnssec) (tas : TrustAnchors) (req : ValidatorRequest)
    (qry : ValidatorQuery) (authority : List RRset) (hasNsec3 : Bool) :
    ℤ × ValidatorRequest × ValidatorQuery :=
  match qry.zoneCutKey with
  | none => (krError Errno.ebadmsg, req, qry)
  | some keys =>
    let vctx : ValidationCtx :=
      { authority, rrs := req.answSelected, keys, zoneName := qry.zoneCutName,
        timestamp := qry.timestamp, ttlMin := req.ttlMin, hasNsec3, qryUid := qry.uid,
        flags := 0, errCnt := 0, cnameNorrsigCnt := 0,
        limitCryptoRemains := some qry.vldLimitCryptoRemains, result := 0,
        rrsCounters := fun _ => 0 }
    match validateSection lib tas ⟨vctx, qry, req.authSelected⟩ with
    | (ret, st) =>
      let (ret, st) :=
        if st.vctx.errCnt ≠ 0 ∧ st.vctx.errCnt = st.vctx.cnameNorrsigCnt then
          validateSection lib tas
            { st with vctx := { st.vctx with errCnt := 0, cnameNorrsigCnt := 0, result := 0 } }
        else (ret, st)
      let req := { req with
        answSelected := st.vctx.rrs, authSelected := st.other, answValidated := st.vctx.errCnt = 0 }
      if ret ≠ krOk then (ret, req, st.commit)
      else
        let anFlags := st.vctx.flags
        let st : SectionState :=
          ⟨{ st.vctx with rrs := st.other, flags := 0, errCnt := 0, result := 0 }, st.commit,
            st.vctx.rrs⟩
        match validateSection lib tas st with
        | (ret, st) =>
          let req := { req with
            answSelected := st.other, authSelected := st.vctx.rrs,
            authValidated := st.vctx.errCnt = 0 }
          let qry := st.commit
          if ret ≠ krOk then (ret, req, qry)
          else (krOk, req, { qry with
            dnssecWexpand := qry.dnssecWexpand || anFlags &&& vflgWexpand ≠ 0,
            dnssecOptout := qry.dnssecOptout || anFlags &&& vflgOptout ≠ 0 })

/-! ## The substitution a DNAME makes -/

/-- RFC 6672 2.2: the name that the DNAME from `owner` to `target` substitutes for `o`, when
`o` lies strictly below `owner`. -/
def dnameSubstitution (o owner target : Dname) : Option Dname :=
  if owner.IsAncestorOrSelf o ∧ owner ≠ o then
    some ⟨o.labels.take (o.labels.length - owner.labels.length) ++ target.labels⟩
  else none

theorem dnameSubstitution_of_labels {o owner target : Dname} {pre : List Label}
    (ho : o.labels = pre ++ owner.labels) (hpre : pre ≠ []) :
    dnameSubstitution o owner target = some ⟨pre ++ target.labels⟩ := by
  have hanc : owner.IsAncestorOrSelf o := by
    rw [Dname.IsAncestorOrSelf, Dname.key, Dname.key, ho, List.reverse_append]
    exact List.prefix_append _ _
  have hne : owner ≠ o := by
    intro heq
    have hlen := congrArg List.length ho
    rw [← heq, List.length_append] at hlen
    exact hpre (List.length_eq_zero_iff.mp (by omega))
  have htake : o.labels.take (o.labels.length - owner.labels.length) = pre := by
    rw [ho, List.length_append, Nat.add_sub_cancel]
    exact List.take_left' rfl
  rw [dnameSubstitution, if_pos ⟨hanc, hne⟩, htake]

/-! ## What the DNAME fallback establishes -/

/-- What `cname_matches_dname` establishes: the owner lies `pre` labels strictly below the
DNAME owner, the first CNAME target as many labels `tpre` below the first DNAME target, and
the carried-over labels are the owner's wherever these hold no zero octet (where `strncmp`
stops comparing). -/
theorem cnameMatchesDname_spec {cn dn : RRset} (h : cnameMatchesDname cn dn = true) :
    cn.type = RRType.cname ∧ dn.type = RRType.dname ∧
      ∃ pre tpre : List Label, pre ≠ [] ∧ cn.owner.labels = pre ++ dn.owner.labels ∧
        (knotCnameName cn).labels = tpre ++ (knotDnameTarget dn).labels ∧
        tpre.length = pre.length ∧ ((∀ l ∈ pre, 0 ∉ l.bytes) → tpre = pre) := by
  unfold cnameMatchesDname at h
  dsimp only at h
  split_ifs at h with htype hpre htarget
  simp only [ne_eq, not_or, not_not] at htype
  obtain ⟨pre, hown, hprelen⟩ :=
    exists_prefix_of_knotDnameInBailiwick
      (show knotDnameInBailiwick cn.owner dn.owner = _ from rfl) (by omega)
  obtain ⟨tpre, htgt, htprelen⟩ := exists_prefix_of_knotDnameInBailiwick (not_not.mp htarget)
    (by omega)
  have hlen : tpre.length = pre.length := by omega
  refine ⟨htype.1, htype.2, pre, tpre, ?_, hown, htgt, hlen, fun hz => ?_⟩
  · intro hnil
    rw [hnil] at hprelen
    simp at hprelen
    omega
  -- `strncmp` ran over the wire form of `pre`, which holds no zero octet
  have htake : cn.owner.labels.take (knotDnameInBailiwick cn.owner dn.owner).toNat = pre := by
    rw [hown]
    exact List.take_left' (by omega)
  rw [htake, ← length_labelsWire] at h
  have hwo : cn.owner.wire = labelsWire pre ++ (labelsWire dn.owner.labels ++ [0]) := by
    simp [Dname.wire, hown]
  have hsame := take_eq_of_strncmp_eq_zero (of_decide_eq_true h)
    (by rw [hwo, List.take_left]; exact zero_not_mem_labelsWire hz)
    (by rw [hwo]; simp)
  rw [hwo, List.take_left] at hsame
  have hpfx : labelsWire pre <+: labelsWire (tpre ++ (knotDnameTarget dn).labels) ++ [0] := by
    rw [← htgt, ← Dname.wire, ← hsame]
    exact List.take_prefix _ _
  have hpre' := prefix_of_labelsWire_prefix hpfx
  rw [List.prefix_iff_eq_take, List.take_left' hlen] at hpre'
  exact hpre'.symm

theorem dnameSynthesized_spec {rr : RRset} {rrs : List RankedEntry}
    (h : dnameSynthesized rr rrs = true) :
    ∃ d ∈ rrs, d.rr.type = RRType.dname ∧ krRankTest d.rank Rank.secure = true ∧
      cnameMatchesDname rr d.rr = true := by
  obtain ⟨d, hd, hp⟩ := List.any_eq_true.mp h
  simp only [Bool.and_eq_true, decide_eq_true_eq] at hp
  exact ⟨d, hd, hp.1.1, hp.1.2, hp.2⟩

theorem mem_of_mem_modify {α : Type*} {l : List α} {i : ℕ} {f : α → α} {x : α}
    (h : x ∈ l.modify i f) : x ∈ l ∨ ∃ y ∈ l, x = f y := by
  rw [List.modify_eq_set_getElem?] at h
  cases hi : l[i]? with
  | none => simp only [hi, Option.map_eq_map, Option.map_none, Option.getD_none] at h; exact .inl h
  | some y =>
    simp only [hi, Option.map_eq_map, Option.map_some, Option.getD_some] at h
    rcases List.mem_or_eq_of_mem_set h with hx | rfl
    · exact .inl hx
    · exact .inr ⟨y, List.mem_of_getElem? hi, rfl⟩

/-- Setting a rank other than SECURE leaves no SECURE entry at that position. -/
theorem setRank_getElem?_not_secure {st : SectionState} {i : ℕ} {f : UInt8} {e' : RankedEntry}
    (hf : f ∈ [Rank.omit_, Rank.try_, Rank.bogus, Rank.mismatch, Rank.missing, Rank.insecure])
    (h : (st.setRank i f).vctx.rrs[i]? = some e') : krRankTest e'.rank Rank.secure = false := by
  rw [SectionState.setRank_rrs, List.getElem?_modify_eq] at h
  obtain ⟨e, -, rfl⟩ := Option.map_eq_some_iff.mp h
  exact krRankTest_krRankSet_secure hf e.rank

@[simp] theorem EntryOutcome.state_next (st : SectionState) : (EntryOutcome.next st).state = st :=
  rfl

/-- Only a validated entry is ranked SECURE. -/
theorem rankByResult_secure {i : ℕ} {rankOrig : UInt8} {validationResult : ℤ}
    {st : SectionState} {e' : RankedEntry}
    (h : (rankByResult i rankOrig validationResult st).state.vctx.rrs[i]? = some e')
    (hsec : krRankTest e'.rank Rank.secure = true) : validationResult = krOk := by
  unfold rankByResult at h
  split_ifs at h with hok htry hmiss
  · exact hok
  all_goals
    rw [EntryOutcome.state_next] at h
    first
    | rw [SectionState.incErr_rrs] at h
    | skip
    have := setRank_getElem?_not_secure (by simp) h
    rw [hsec] at this
    cases this

/-- An unsigned CNAME that `validate_entry` ranks SECURE was matched to a SECURE DNAME of the
array as `kr_rrset_validate` left it. -/
theorem validateEntry_secure {lib : Libdnssec} {i : ℕ} {e e' : RankedEntry} {st : SectionState}
    (hval : (krRrsetValidate lib st.vctx e.rr).1 = krError Errno.enoent)
    (h : (validateEntry lib i e st).state.vctx.rrs[i]? = some e')
    (hsec : krRankTest e'.rank Rank.secure = true) :
    ∃ d ∈ (krRrsetValidate lib st.vctx e.rr).2.1.rrs, d.rr.type = RRType.dname ∧
      krRankTest d.rank Rank.secure = true ∧ cnameMatchesDname e.rr d.rr = true := by
  have hsame := krRrsetValidate_sameButTtl lib st.vctx e.rr
  unfold validateEntry at h
  generalize krRrsetValidate lib st.vctx e.rr = res at hval hsame h ⊢
  obtain ⟨vr, vctx', cov⟩ := res
  dsimp only at hval hsame h ⊢
  obtain ⟨ttl, hcov⟩ := hsame
  subst hval
  have hres := rankByResult_secure h hsec
  unfold cnameFallback at hres
  split_ifs at hres with hfb
  · -- the fallback found a DNAME; it is not the entry itself, which is a CNAME
    obtain ⟨htype, -, hsyn⟩ := hfb
    obtain ⟨d, hd, hdt, hds, hm⟩ := dnameSynthesized_spec hsyn
    rcases mem_of_mem_modify hd with hd | ⟨y, -, rfl⟩
    · -- only the TTL of the covered RRset changed, which the match does not read
      rw [hcov] at hm
      exact ⟨d, hd, hdt, hds, hm⟩
    · rw [htype] at hdt
      exact absurd hdt (by decide)
  · exact absurd hres (by decide)

/-- An unsigned CNAME is ranked SECURE by `validate_section` only through a SECURE DNAME
whose substitution of the CNAME owner gives the target of the CNAME's first record, when the
carried-over labels hold no zero octet; with zero octets the targets agree only in their label
count and their suffix. -/
theorem validateSectionEntry_cname_secure {lib : Libdnssec} {tas : TrustAnchors} {i : ℕ}
    {st : SectionState} {e e' : RankedEntry} (hget : st.vctx.rrs[i]? = some e)
    (hcn : e.rr.type = RRType.cname) (hprev : krRankTest e.rank Rank.secure = false)
    (hval : (krRrsetValidate lib st.vctx e.rr).1 = krError Errno.enoent)
    (hnew : (validateSectionEntry lib tas i st).state.vctx.rrs[i]? = some e')
    (hsec : krRankTest e'.rank Rank.secure = true) :
    ∃ d ∈ (krRrsetValidate lib st.vctx e.rr).2.1.rrs,
      d.rr.type = RRType.dname ∧ krRankTest d.rank Rank.secure = true ∧
      ∃ pre tpre : List Label, pre ≠ [] ∧ e.rr.owner.labels = pre ++ d.rr.owner.labels ∧
        (knotCnameName e.rr).labels = tpre ++ (knotDnameTarget d.rr).labels ∧
        tpre.length = pre.length ∧
        ((∀ l ∈ pre, 0 ∉ l.bytes) →
          dnameSubstitution e.rr.owner d.rr.owner (knotDnameTarget d.rr) =
            some (knotCnameName e.rr)) := by
  -- the guards before `kr_rrset_validate` keep the rank, or set one other than SECURE
  have hkept : (EntryOutcome.next st).state.vctx.rrs[i]? ≠ some e' := by
    rw [EntryOutcome.state_next, hget]
    intro heq
    cases heq
    rw [hprev] at hsec
    cases hsec
  unfold validateSectionEntry at hnew
  rw [hget] at hnew
  dsimp only at hnew
  by_cases hskip : e.yielded = true ∨ st.vctx.qryUid ≠ e.qryUid
  · rw [if_pos hskip] at hnew
    exact absurd hnew hkept
  rw [if_neg hskip] at hnew
  by_cases hdone : krRankTest e.rank Rank.omit_ = true ∨ krRankTest e.rank Rank.secure = true
  · rw [if_pos hdone] at hnew
    exact absurd hnew hkept
  rw [if_neg hdone] at hnew
  by_cases hnta : st.qry.zoneCutName ≠ e.rr.owner ∧ krTaClosest tas e.rr.owner e.rr.type = none
  · rw [if_pos hnta, EntryOutcome.state_next] at hnew
    have := setRank_getElem?_not_secure (by simp) hnew
    rw [hsec] at this
    cases this
  rw [if_neg hnta, if_neg (by rw [hcn]; decide)] at hnew
  obtain ⟨d, hd, hdt, hds, hm⟩ := validateEntry_secure hval hnew hsec
  obtain ⟨-, -, pre, tpre, hpre, hown, htgt, hlen, hz⟩ := cnameMatchesDname_spec hm
  refine ⟨d, hd, hdt, hds, pre, tpre, hpre, hown, htgt, hlen, fun hz' => ?_⟩
  rw [dnameSubstitution_of_labels hown hpre, ← hz hz', ← htgt]

/-! ## Runs on a DNAME from `a.ex` to `b.ex` -/

def labelX : Label := ⟨[120], by decide, by decide⟩
-- the labels `\000x` and `\000y`, each with a zero octet
def labelZeroX : Label := ⟨[0, 120], by decide, by decide⟩
def labelZeroY : Label := ⟨[0, 121], by decide, by decide⟩

/-- A CNAME or DNAME RRset of class IN. -/
def nameRRset (owner : Dname) (type : RRType) (targets : List Dname)
    (htype : type = RRType.cname ∨ type = RRType.dname) (h : targets ≠ []) : RRset where
  owner := owner
  type := type
  rclass := classIn
  ttl := 3600
  rdata := targets.map .name
  rdata_ne_nil := by simpa using h
  rdata_fit := by
    intro r hr
    obtain ⟨t, -, rfl⟩ := List.mem_map.mp hr
    rcases htype with rfl | rfl <;> simp [Rdata.Fits]

def dnameAB : RRset := nameRRset nameAEx RRType.dname [nameBEx] (by decide) (by simp)

/-- `\000x.a.ex` to `\000y.b.ex`. -/
def cnameZero : RRset :=
  nameRRset ⟨[labelZeroX, labelA, labelEx]⟩ RRType.cname [⟨[labelZeroY, labelB, labelEx]⟩]
    (by decide) (by simp)

/-- Query 1 with its zone cut at `ex`. -/
def queryEx : ValidatorQuery where
  uid := 1
  sname := nameEx
  zoneCutName := nameEx
  zoneCutKey := some revokedKeys
  timestamp := 1500
  vldLimitCryptoRemains := 10
  dnssecWant := true
  dnssecInsecure := false
  dnssecWexpand := false
  dnssecOptout := false
  parents := []

/-- The answer of query 1: the SECURE DNAME, then the unsigned CNAME `cn`. -/
def dnameSection (cn : RRset) : SectionState where
  vctx := { revokedCtx with
    rrs := [{ rr := dnameAB, rank := Rank.secure, qryUid := 1 },
      { rr := cn, rank := Rank.initial, qryUid := 1 }] }
  qry := queryEx
  other := []

def rootAnchor : TrustAnchors := ⟨[Dname.root], []⟩

/-- `strncmp` stops at the zero octet that opens the carried-over label `\000x`: the unsigned
CNAME `\000x.a.ex` to `\000y.b.ex` is ranked SECURE through the DNAME `a.ex` to `b.ex`, whose
substitution of the owner is `\000x.b.ex`. -/
theorem validateSectionEntry_zero_octet_secure :
    (krRrsetValidate libdnssecRsaSha256 (dnameSection cnameZero).vctx cnameZero).1 = krError Errno.enoent ∧
      ((validateSectionEntry libdnssecRsaSha256 rootAnchor 1 (dnameSection cnameZero)).state.vctx.rrs[1]?.map
        fun e => krRankTest e.rank Rank.secure) = some true ∧
      ∀ d ∈ (krRrsetValidate libdnssecRsaSha256 (dnameSection cnameZero).vctx cnameZero).2.1.rrs,
        d.rr.type = RRType.dname → krRankTest d.rank Rank.secure = true →
          dnameSubstitution cnameZero.owner d.rr.owner (knotDnameTarget d.rr) ≠
            some (knotCnameName cnameZero) := by
  -- the section's DNSKEY is a key of 2048 bits, whose parsing the kernel evaluates
  refine ⟨?_, ?_, ?_⟩ <;> decide +kernel

end KnotResolver
