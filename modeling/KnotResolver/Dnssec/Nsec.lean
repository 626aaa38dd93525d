import KnotResolver.Zone

/-!
# NSEC denial of existence

`lib/dnssec/nsec.c`: the covering test `nsec_covers`, the bitmap tests
`kr_nsec_children_in_zone_check` and `kr_nsec_bitmap_nodata_check`, and `kr_nsec_negative`,
which proves NXDOMAIN or NODATA from the SECURE NSEC entries of one query. Both loops of
`kr_nsec_negative` walk the ranked array from its end, so they are modelled as scans of the
reversed list; the first one stops at a matching NSEC that proves NODATA or at the first
covering NSEC, from which it reads the closest encloser's label count.

Soundness is stated against `Zone`: each outcome of a scan is traced back to one entry, and
what that entry proves is taken from the lemmas of `KnotResolver.Zone`.
-/

namespace KnotResolver

/-- `kr_nsec_children_in_zone_check`: `ENOENT` for a parent-side bitmap (DNAME, or NS without
SOA), whose NSEC does not speak for the names below its owner. -/
def krNsecChildrenInZoneCheck (bm : List RRType) : ℤ :=
  let parentSide := dnssecNsecBitmapContains bm RRType.dname ||
    (dnssecNsecBitmapContains bm RRType.ns && !dnssecNsecBitmapContains bm RRType.soa)
  if parentSide then Errno.enoent else krOk

/-- `nsec_covers`: `0` when the NSEC proves there is no closer match for `sname`, `ENOENT`
when it does not, `EEXIST` when its owner is `sname`. -/
def nsecCovers (nsec : RRset) (sname : Dname) : ℤ :=
  let cmp := dnameCmp sname nsec.owner
  if cmp = .lt then Errno.enoent
  else if cmp = .eq then Errno.eexist
  else
    -- the next name is lower-cased first (RFC 6840 5.1)
    let next := (knotNsecNext nsec).toLower
    let isLastNsec := dnameCmp nsec.owner next != .lt
    let inRange := isLastNsec || dnameCmp sname next == .lt
    if !inRange then Errno.enoent
    else if knotDnameInBailiwick sname nsec.owner ≤ 0 then krOk
    else krNsecChildrenInZoneCheck (knotNsecBitmap nsec)

/-- `kr_nsec_bitmap_nodata_check`: `0` when the bitmap proves that `owner` has no RRset of
`type`. -/
def krNsecBitmapNodataCheck (bm : List RRType) (type : RRType) (owner : Dname) : ℤ :=
  let noProof := Errno.enoent
  if dnssecNsecBitmapContains bm type then noProof
  else if type ≠ RRType.cname ∧ dnssecNsecBitmapContains bm RRType.cname then noProof
  -- special behaviour around zone cuts
  else if type = RRType.ds then
    if owner ≠ Dname.root ∧ dnssecNsecBitmapContains bm RRType.soa then noProof else krOk
  else if type = RRType.cname then krOk
  else if dnssecNsecBitmapContains bm RRType.ns ∧ !dnssecNsecBitmapContains bm RRType.soa then
    noProof
  else krOk

/-- `no_data_response_check_rrtype`. -/
def noDataResponseCheckRrtype (nsec : RRset) (type : RRType) : ℤ :=
  krNsecBitmapNodataCheck (knotNsecBitmap nsec) type nsec.owner

/-- The test `ok` both loops of `kr_nsec_negative` make on an entry. -/
def nsecEntryOk (qryUid : UInt32) (e : RankedEntry) : Bool :=
  e.qryUid == qryUid && e.rr.type == RRType.nsec && krRankTest e.rank Rank.secure

/-- Where the first loop of `kr_nsec_negative` stops. -/
inductive EncloserScan
  | nodata
  | encloser (clenclLabels : ℕ)
  | notFound
  deriving DecidableEq

/-- The first loop of `kr_nsec_negative`: a matching NSEC proving NODATA, or the label count
of the closest encloser read off the first covering NSEC. -/
def encloserScan (qryUid : UInt32) (sname : Dname) (stype : RRType) :
    List RankedEntry → EncloserScan
  | [] => .notFound
  | e :: es =>
    if !nsecEntryOk qryUid e then encloserScan qryUid sname stype es
    else if nsecCovers e.rr sname = Errno.eexist ∧ noDataResponseCheckRrtype e.rr stype = krOk
    then .nodata
    else if nsecCovers e.rr sname ≠ krOk then encloserScan qryUid sname stype es
    else .encloser (max (knotDnameMatchedLabels e.rr.owner sname)
      (knotDnameMatchedLabels sname (knotNsecNext e.rr).toLower))

/-- The second loop of `kr_nsec_negative`, on the source of synthesis `ssynth`. -/
def synthesisScan (qryUid : UInt32) (ssynth : Dname) (stype : RRType) :
    List RankedEntry → ℤ
  | [] => krError Errno.enoent
  | e :: es =>
    if !nsecEntryOk qryUid e then synthesisScan qryUid ssynth stype es
    else if nsecCovers e.rr ssynth = Errno.eexist then
      if noDataResponseCheckRrtype e.rr stype = krOk then (Pkt.nodata : ℤ)
      else synthesisScan qryUid ssynth stype es
    else if nsecCovers e.rr ssynth = krOk then ((Pkt.nxdomain ||| Pkt.nodata : ℕ) : ℤ)
    else synthesisScan qryUid ssynth stype es

/-- `kr_nsec_negative`. -/
def krNsecNegative (rrrs : List RankedEntry) (qryUid : UInt32) (sname : Dname)
    (stype : RRType) : ℤ :=
  match encloserScan qryUid sname stype rrrs.reverse with
  | .nodata => Pkt.nodata
  | .notFound => krError Errno.enoent
  | .encloser clenclLabels =>
    let snameLabels := knotDnameLabels sname
    -- `sname` is an empty non-terminal
    if snameLabels = clenclLabels then Pkt.nodata
    else
      let clencl := knotDnameNextLabel^[snameLabels - clenclLabels] sname
      synthesisScan qryUid clencl.wildcard stype rrrs.reverse

/-- `kr_nsec_wildcard_answer_response_check` on the RRsets of a packet section: some NSEC
covers `sname`. -/
def krNsecWildcardAnswerResponseCheck : List RRset → Dname → ℤ
  | [], _ => krError Errno.enoent
  | rr :: rs, sname =>
    if rr.type ≠ RRType.nsec then krNsecWildcardAnswerResponseCheck rs sname
    else if nsecCovers rr sname = krOk then krOk
    else krNsecWildcardAnswerResponseCheck rs sname

/-! ## What each test proves -/

theorem krNsecChildrenInZoneCheck_ne_eexist (bm : List RRType) :
    krNsecChildrenInZoneCheck bm ≠ Errno.eexist := by
  unfold krNsecChildrenInZoneCheck
  dsimp only
  split_ifs <;> simp [Errno.enoent, Errno.eexist, krOk]

/-- For a name after the owner, `nsec_covers` is the span test followed by the bailiwick
test. -/
theorem nsecCovers_of_owner_lt {nsec : RRset} {sname : Dname} (h : nsec.owner < sname) :
    nsecCovers nsec sname = if NsecSpans nsec sname then
      (if knotDnameInBailiwick sname nsec.owner ≤ 0 then krOk
        else krNsecChildrenInZoneCheck (knotNsecBitmap nsec))
    else Errno.enoent := by
  have hgt : dnameCmp sname nsec.owner = .gt := dnameCmp_eq_gt_iff.mpr h
  have hrange : ((dnameCmp nsec.owner (knotNsecNext nsec).toLower != .lt) ||
      dnameCmp sname (knotNsecNext nsec).toLower == .lt) = decide (NsecSpans nsec sname) := by
    rw [Bool.eq_iff_iff, decide_eq_true_iff]
    simp only [NsecSpans, Bool.or_eq_true, bne_iff_ne, ne_eq, beq_iff_eq, dnameCmp_eq_lt_iff]
    tauto
  unfold nsecCovers
  simp only [hgt, reduceCtorEq, if_false, hrange]
  by_cases hs : NsecSpans nsec sname <;> simp [hs]

theorem nsecCovers_eq_eexist {nsec : RRset} {sname : Dname}
    (h : nsecCovers nsec sname = Errno.eexist) : sname = nsec.owner := by
  rcases lt_trichotomy sname nsec.owner with hlt | heq | hgt
  · have hc : dnameCmp sname nsec.owner = .lt := dnameCmp_eq_lt_iff.mpr hlt
    simp [nsecCovers, hc, Errno.enoent, Errno.eexist] at h
  · exact heq
  · rw [nsecCovers_of_owner_lt hgt] at h
    split_ifs at h
    · simp [krOk, Errno.eexist] at h
    · exact absurd h (krNsecChildrenInZoneCheck_ne_eexist _)
    · simp [Errno.enoent, Errno.eexist] at h

/-- A covering NSEC spans the name. -/
theorem nsecSpans_of_nsecCovers {nsec : RRset} {sname : Dname}
    (h : nsecCovers nsec sname = krOk) : NsecSpans nsec sname := by
  rcases lt_trichotomy sname nsec.owner with hlt | heq | hgt
  · have hc : dnameCmp sname nsec.owner = .lt := dnameCmp_eq_lt_iff.mpr hlt
    simp [nsecCovers, hc, Errno.enoent, krOk] at h
  · have hc : dnameCmp sname nsec.owner = .eq := dnameCmp_eq_eq_iff.mpr heq
    simp [nsecCovers, hc, Errno.eexist, krOk] at h
  · rw [nsecCovers_of_owner_lt hgt] at h
    by_contra hs
    simp [hs, Errno.enoent, krOk] at h

/-- The bitmap test passes exactly for a bitmap that is not parent-side. -/
theorem krNsecChildrenInZoneCheck_eq_ok_iff {bm : List RRType} :
    krNsecChildrenInZoneCheck bm = krOk ↔
      ¬ (RRType.dname ∈ bm ∨ (RRType.ns ∈ bm ∧ RRType.soa ∉ bm)) := by
  have hne : Errno.enoent ≠ krOk := by decide
  unfold krNsecChildrenInZoneCheck
  dsimp only
  split_ifs with h <;> simp_all

/-- `dname_cmp` decides the order of names (labels from the root, each an unsigned octet
string with a proper prefix first), and `nsec_covers` answers `EEXIST` exactly for the owner and
`0` exactly for a name the NSEC spans that is not a proper descendant of a parent-side owner. -/
theorem dnameCmp_order_nsecCovers_spec (a b : Dname) (nsec : RRset) (s : Dname) :
    (dnameCmp a b = .lt ↔ a < b) ∧ (dnameCmp a b = .eq ↔ a = b) ∧
      (dnameCmp a b = .gt ↔ b < a) ∧
    (nsecCovers nsec s = Errno.eexist ↔ s = nsec.owner) ∧
    (nsecCovers nsec s = krOk ↔ nsec.owner < s ∧
      (s < (knotNsecNext nsec).toLower ∨ (knotNsecNext nsec).toLower ≤ nsec.owner) ∧
      ¬ (nsec.owner.IsAncestorOrSelf s ∧ s ≠ nsec.owner ∧
        (RRType.dname ∈ knotNsecBitmap nsec ∨
          (RRType.ns ∈ knotNsecBitmap nsec ∧ RRType.soa ∉ knotNsecBitmap nsec)))) := by
  refine ⟨dnameCmp_eq_lt_iff, dnameCmp_eq_eq_iff, dnameCmp_eq_gt_iff, ?_, ?_⟩
  -- the owner itself
  · refine ⟨nsecCovers_eq_eexist, ?_⟩
    rintro rfl
    have hc : dnameCmp nsec.owner nsec.owner = .eq := dnameCmp_eq_eq_iff.mpr rfl
    simp [nsecCovers, hc]
  -- a covered name
  · constructor
    · intro h
      obtain ⟨hlt, hspan⟩ := nsecSpans_of_nsecCovers h
      refine ⟨hlt, hspan.imp_right not_lt.mp, ?_⟩
      rintro ⟨hanc, hne, hparent⟩
      have hpos : 0 < knotDnameInBailiwick s nsec.owner := knotDnameInBailiwick_pos_iff.mpr ⟨hanc, hne⟩
      rw [nsecCovers_of_owner_lt hlt, if_pos ⟨hlt, hspan⟩, if_neg (by omega)] at h
      exact krNsecChildrenInZoneCheck_eq_ok_iff.mp h hparent
    · rintro ⟨hlt, hspan, hnot⟩
      rw [nsecCovers_of_owner_lt hlt, if_pos ⟨hlt, hspan.imp_right not_lt.mpr⟩]
      split_ifs with hb
      · rfl
      -- a proper descendant: the bitmap decides
      · have hdesc := knotDnameInBailiwick_pos_iff.mp (lt_of_not_ge hb)
        exact krNsecChildrenInZoneCheck_eq_ok_iff.mpr fun hp => hnot ⟨hdesc.1, hdesc.2, hp⟩

/-- What a bitmap that passes the NODATA check says about its types. -/
theorem krNsecBitmapNodataCheck_eq_ok {bm : List RRType} {type : RRType} {owner : Dname}
    (h : krNsecBitmapNodataCheck bm type owner = krOk) :
    type ∉ bm ∧ RRType.cname ∉ bm ∧
      (type ≠ RRType.ds → type ≠ RRType.cname → RRType.ns ∈ bm → RRType.soa ∈ bm) := by
  unfold krNsecBitmapNodataCheck at h
  have hne : Errno.enoent ≠ krOk := by simp [Errno.enoent, krOk]
  have hdc : RRType.ds ≠ RRType.cname := by decide
  split_ifs at h with h1 h2 h3 h4 h5 h6 <;> simp_all

/-! ## The two scans -/

section Scans

variable {qryUid : UInt32} {stype : RRType}

theorem encloserScan_eq_nodata {sname : Dname} {es : List RankedEntry}
    (h : encloserScan qryUid sname stype es = .nodata) :
    ∃ e ∈ es, nsecEntryOk qryUid e ∧ nsecCovers e.rr sname = Errno.eexist ∧
      noDataResponseCheckRrtype e.rr stype = krOk := by
  induction es with
  | nil => simp [encloserScan] at h
  | cons e es ih =>
    unfold encloserScan at h
    split_ifs at h with hok hmatch hcov
    · obtain ⟨e', he', hrest⟩ := ih h
      exact ⟨e', List.mem_cons_of_mem e he', hrest⟩
    · exact ⟨e, List.mem_cons_self, by simpa using hok, hmatch⟩
    · obtain ⟨e', he', hrest⟩ := ih h
      exact ⟨e', List.mem_cons_of_mem e he', hrest⟩

theorem encloserScan_eq_encloser {sname : Dname} {es : List RankedEntry} {c : ℕ}
    (h : encloserScan qryUid sname stype es = .encloser c) :
    ∃ e ∈ es, nsecEntryOk qryUid e ∧ nsecCovers e.rr sname = krOk ∧
      c = max (knotDnameMatchedLabels e.rr.owner sname)
        (knotDnameMatchedLabels sname (knotNsecNext e.rr).toLower) := by
  induction es with
  | nil => simp [encloserScan] at h
  | cons e es ih =>
    unfold encloserScan at h
    split_ifs at h with hok hmatch hcov
    · obtain ⟨e', he', hrest⟩ := ih h
      exact ⟨e', List.mem_cons_of_mem e he', hrest⟩
    · obtain ⟨e', he', hrest⟩ := ih h
      exact ⟨e', List.mem_cons_of_mem e he', hrest⟩
    · refine ⟨e, List.mem_cons_self, by simpa using hok, not_not.mp hcov, ?_⟩
      injection h with h
      exact h.symm

theorem synthesisScan_eq_nodata {ssynth : Dname} {es : List RankedEntry}
    (h : synthesisScan qryUid ssynth stype es = Pkt.nodata) :
    ∃ e ∈ es, nsecEntryOk qryUid e ∧ nsecCovers e.rr ssynth = Errno.eexist ∧
      noDataResponseCheckRrtype e.rr stype = krOk := by
  induction es with
  | nil => simp [synthesisScan, krError, Errno.enoent, Pkt.nodata] at h
  | cons e es ih =>
    unfold synthesisScan at h
    split_ifs at h with hok hmatch hcheck hcov
    · obtain ⟨e', he', hrest⟩ := ih h
      exact ⟨e', List.mem_cons_of_mem e he', hrest⟩
    · exact ⟨e, List.mem_cons_self, by simpa using hok, hmatch, hcheck⟩
    · obtain ⟨e', he', hrest⟩ := ih h
      exact ⟨e', List.mem_cons_of_mem e he', hrest⟩
    · simp [Pkt.nodata, Pkt.nxdomain] at h
    · obtain ⟨e', he', hrest⟩ := ih h
      exact ⟨e', List.mem_cons_of_mem e he', hrest⟩

theorem synthesisScan_eq_nxdomain {ssynth : Dname} {es : List RankedEntry}
    (h : synthesisScan qryUid ssynth stype es = ((Pkt.nxdomain ||| Pkt.nodata : ℕ) : ℤ)) :
    ∃ e ∈ es, nsecEntryOk qryUid e ∧ nsecCovers e.rr ssynth = krOk := by
  induction es with
  | nil => simp [synthesisScan, krError, Errno.enoent] at h
  | cons e es ih =>
    unfold synthesisScan at h
    split_ifs at h with hok hmatch hcheck hcov
    · obtain ⟨e', he', hrest⟩ := ih h
      exact ⟨e', List.mem_cons_of_mem e he', hrest⟩
    · simp [Pkt.nodata, Pkt.nxdomain] at h
    · obtain ⟨e', he', hrest⟩ := ih h
      exact ⟨e', List.mem_cons_of_mem e he', hrest⟩
    · exact ⟨e, List.mem_cons_self, by simpa using hok, hcov⟩
    · obtain ⟨e', he', hrest⟩ := ih h
      exact ⟨e', List.mem_cons_of_mem e he', hrest⟩

end Scans

theorem iterate_knotDnameNextLabel (n : ℕ) (d : Dname) :
    knotDnameNextLabel^[n] d = ⟨d.labels.drop n⟩ := by
  induction n generalizing d with
  | zero => rfl
  | succ n ih =>
    rw [Function.iterate_succ_apply, ih]
    simp [knotDnameNextLabel]

/-- The loop of `kr_nsec_negative` that strips labels off `sname` stops at the ancestor with
`k` labels. -/
theorem iterate_knotDnameNextLabel_eq_suffix (d : Dname) (k : ℕ) :
    knotDnameNextLabel^[knotDnameLabels d - k] d = d.suffix k :=
  iterate_knotDnameNextLabel _ d

/-! ## Soundness against a zone -/

section Soundness

variable {Z : Zone} {stype : RRType}

/-- An NSEC matching `x` that passes the NODATA check: `x` is in the zone without `stype` and
without CNAME, and owns SOA beside NS unless the question is for DS or CNAME. -/
theorem owns_of_nodata_proof {rr : RRset} {x : Dname} (hc : Z.NsecConsistent rr)
    (hcov : nsecCovers rr x = Errno.eexist) (hcheck : noDataResponseCheckRrtype rr stype = krOk) :
    x ∈ Z.names ∧ ¬ Z.Owns x stype ∧ ¬ Z.Owns x RRType.cname ∧
      (stype ≠ RRType.ds → stype ≠ RRType.cname → Z.Owns x RRType.ns → Z.Owns x RRType.soa) := by
  obtain rfl := nsecCovers_eq_eexist hcov
  obtain ⟨hty, hcn, hdel⟩ := krNsecBitmapNodataCheck_eq_ok hcheck
  simp only [Zone.owns_iff_of_nsecConsistent hc]
  exact ⟨hc.1, hty, hcn, hdel⟩

/-- A matching NSEC whose owner holds SOA only at the apex rules out a delegation point. -/
theorem not_isDelegation_of_nodata_proof {rr : RRset} {x : Dname} (hsoa : Z.SoaAtApex)
    (hc : Z.NsecConsistent rr) (hcov : nsecCovers rr x = Errno.eexist)
    (hcheck : noDataResponseCheckRrtype rr stype = krOk) (hds : stype ≠ RRType.ds)
    (hcname : stype ≠ RRType.cname) : ¬ Z.IsDelegation x := by
  rintro ⟨hapex, hns⟩
  obtain ⟨-, -, -, hdel⟩ := owns_of_nodata_proof hc hcov hcheck
  have hsoaX : Z.Owns x RRType.soa := hdel hds hcname hns
  exact hapex (hsoa x hsoaX.1 hsoaX.2)

/-- A chained NSEC covering `sname` proves it absent and gives its closest encloser, which has
fewer labels than `sname`: the empty non-terminal shortcut is never taken on it. -/
theorem encloser_of_covering_nsec {rr : RRset} {sname : Dname} {c : ℕ} (hc : Z.NsecChained rr)
    (hapex : Z.apex.IsAncestorOrSelf sname) (hcov : nsecCovers rr sname = krOk)
    (hcl : c = max (knotDnameMatchedLabels rr.owner sname)
      (knotDnameMatchedLabels sname (knotNsecNext rr).toLower)) :
    sname ∉ Z.names ∧ Z.closestEncloser sname = sname.suffix c ∧ c < knotDnameLabels sname := by
  have hspan := nsecSpans_of_nsecCovers hcov
  have hnot := Zone.not_mem_of_nsecSpans hc.1 hspan
  obtain ⟨hce, hmem⟩ := Zone.closestEncloser_of_nsecSpans hc hapex hspan
  rw [← hcl] at hce hmem
  have hle : c ≤ knotDnameLabels sname := by
    rw [hcl]
    exact max_le (knotDnameMatchedLabels_le_right _ _) (knotDnameMatchedLabels_le_left _ _)
  have hne : c ≠ knotDnameLabels sname := by
    rintro rfl
    exact hnot (by simpa [knotDnameLabels] using hmem)
  exact ⟨hnot, hce, lt_of_le_of_ne hle hne⟩

variable {rrrs : List RankedEntry} {qryUid : UInt32} {sname : Dname}

theorem krNsecNegative_eq_nodata (hsoa : Z.SoaAtApex)
    (hZ : ∀ e ∈ rrrs, nsecEntryOk qryUid e = true → Z.NsecChained e.rr)
    (hapex : Z.apex.IsAncestorOrSelf sname)
    (h : krNsecNegative rrrs qryUid sname stype = Pkt.nodata) :
    Z.NodataHolds sname stype ∧
      (stype ≠ RRType.ds → stype ≠ RRType.cname → ¬ Z.IsDelegation sname) := by
  unfold krNsecNegative at h
  split at h
  · -- an NSEC matching `sname`
    rename_i hscan
    obtain ⟨e, he, hok, hcov, hcheck⟩ := encloserScan_eq_nodata hscan
    have hc := hZ e (List.mem_reverse.mp he) hok
    obtain ⟨hmem, hty, hcn, -⟩ := owns_of_nodata_proof hc.1 hcov hcheck
    exact ⟨⟨hty, hcn, fun hn => absurd hmem hn⟩,
      not_isDelegation_of_nodata_proof hsoa hc.1 hcov hcheck⟩
  · simp [krError, Errno.enoent, Pkt.nodata] at h
  · -- an NSEC covering `sname`, then one matching the source of synthesis
    rename_i c hscan
    obtain ⟨e, he, hok, hcov, hcl⟩ := encloserScan_eq_encloser hscan
    obtain ⟨hnot, hce, hlt⟩ :=
      encloser_of_covering_nsec (hZ e (List.mem_reverse.mp he) hok) hapex hcov hcl
    dsimp only at h
    rw [if_neg (Nat.ne_of_gt hlt), iterate_knotDnameNextLabel_eq_suffix] at h
    obtain ⟨e', he', hok', hcov', hcheck'⟩ := synthesisScan_eq_nodata h
    obtain ⟨-, hty, hcn, -⟩ :=
      owns_of_nodata_proof (hZ e' (List.mem_reverse.mp he') hok').1 hcov' hcheck'
    refine ⟨⟨fun ho => hnot ho.1, fun ho => hnot ho.1, fun _ => ?_⟩, fun _ _ hd => hnot hd.2.1⟩
    rw [hce]
    exact ⟨hty, hcn⟩

theorem krNsecNegative_eq_nxdomain
    (hZ : ∀ e ∈ rrrs, nsecEntryOk qryUid e = true → Z.NsecChained e.rr)
    (hapex : Z.apex.IsAncestorOrSelf sname)
    (h : krNsecNegative rrrs qryUid sname stype = ((Pkt.nxdomain ||| Pkt.nodata : ℕ) : ℤ)) :
    Z.NxdomainHolds sname := by
  unfold krNsecNegative at h
  split at h
  · simp [Pkt.nodata, Pkt.nxdomain] at h
  · simp [krError, Errno.enoent] at h
  · rename_i c hscan
    obtain ⟨e, he, hok, hcov, hcl⟩ := encloserScan_eq_encloser hscan
    obtain ⟨hnot, hce, hlt⟩ :=
      encloser_of_covering_nsec (hZ e (List.mem_reverse.mp he) hok) hapex hcov hcl
    dsimp only at h
    rw [if_neg (Nat.ne_of_gt hlt), iterate_knotDnameNextLabel_eq_suffix] at h
    obtain ⟨e', he', hok', hcov'⟩ := synthesisScan_eq_nxdomain h
    have hspan := nsecSpans_of_nsecCovers hcov'
    refine ⟨hnot, ?_⟩
    rw [hce]
    exact Zone.not_mem_of_nsecSpans (hZ e' (List.mem_reverse.mp he') hok').1 hspan

/-- NSEC denial is sound for a zone whose NSEC chain the SECURE entries follow. -/
theorem krNsecNegative_denial_sound (hsoa : Z.SoaAtApex)
    (hZ : ∀ e ∈ rrrs, nsecEntryOk qryUid e = true → Z.NsecChained e.rr)
    (hapex : Z.apex.IsAncestorOrSelf sname) :
    (krNsecNegative rrrs qryUid sname stype = Pkt.nodata →
      Z.NodataHolds sname stype ∧
        (stype ≠ RRType.ds → stype ≠ RRType.cname → ¬ Z.IsDelegation sname)) ∧
    (krNsecNegative rrrs qryUid sname stype = ((Pkt.nxdomain ||| Pkt.nodata : ℕ) : ℤ) →
      Z.NxdomainHolds sname) :=
  ⟨krNsecNegative_eq_nodata hsoa hZ hapex, krNsecNegative_eq_nxdomain hZ hapex⟩

end Soundness

/-! ## Runs on small zones -/

-- the lower-case names `ex`, `a.ex`, `b.ex`, `sub.ex`, `*.ex` and `b.a.ex`
def labelEx : Label := ⟨[101, 120], by decide, by decide⟩
def labelA : Label := ⟨[97], by decide, by decide⟩
def labelB : Label := ⟨[98], by decide, by decide⟩
def labelSub : Label := ⟨[115, 117, 98], by decide, by decide⟩

def nameEx : Dname := ⟨[labelEx]⟩
def nameAEx : Dname := ⟨[labelA, labelEx]⟩
def nameBEx : Dname := ⟨[labelB, labelEx]⟩
def nameSubEx : Dname := ⟨[labelSub, labelEx]⟩
def nameBAEx : Dname := ⟨[labelB, labelA, labelEx]⟩

/-- A signed NSEC RRset of class IN. -/
def nsecRRset (owner next : Dname) (bm : List RRType) : RRset where
  owner := owner
  type := RRType.nsec
  rclass := classIn
  ttl := 3600
  rdata := [.nsec next bm]
  rdata_ne_nil := by simp
  rdata_fit := by simp [Rdata.Fits]

/-- A SECURE entry of query 1. -/
def secureEntry (rr : RRset) : RankedEntry := { rr, rank := Rank.secure, qryUid := 1 }

/-- The zone `ex` holding `a.ex`, with its two-NSEC chain. -/
def chainZone : Zone where
  apex := nameEx
  names := {nameEx, nameAEx}
  types x := if x = nameEx then {RRType.ns, RRType.soa, RRType.nsec}
    else if x = nameAEx then {RRType.a, RRType.nsec} else ∅
  apex_mem := by decide
  lower := by decide
  below_apex := by decide
  ancestor_closed := by decide
  nothing_below_delegation := by decide

def chainArray : List RankedEntry :=
  [secureEntry (nsecRRset nameEx nameAEx [RRType.ns, RRType.soa, RRType.nsec]),
    secureEntry (nsecRRset nameAEx nameEx [RRType.a, RRType.nsec])]

theorem krNsecNegative_denial_sound_chain :
    krNsecNegative chainArray 1 nameBEx RRType.a = ((Pkt.nxdomain ||| Pkt.nodata : ℕ) : ℤ) ∧
      chainZone.NxdomainHolds nameBEx := by
  have hres : krNsecNegative chainArray 1 nameBEx RRType.a =
      ((Pkt.nxdomain ||| Pkt.nodata : ℕ) : ℤ) := by decide
  exact ⟨hres, (krNsecNegative_denial_sound (Z := chainZone) (by decide) (by decide)
    (by decide)).2 hres⟩

/-- `ex` delegating `sub.ex`. -/
def delegationZone : Zone where
  apex := nameEx
  names := {nameEx, nameSubEx}
  types x := if x = nameEx then {RRType.ns, RRType.soa} else if x = nameSubEx then {RRType.ns}
    else ∅
  apex_mem := by decide
  lower := by decide
  below_apex := by decide
  ancestor_closed := by decide
  nothing_below_delegation := by decide

/-- `sub.ex` owning SOA beside NS below the apex `ex`. -/
def soaBelowApexZone : Zone where
  apex := nameEx
  names := {nameEx, nameSubEx}
  types x := if x = nameEx then {RRType.ns, RRType.soa}
    else if x = nameSubEx then {RRType.ns, RRType.soa} else ∅
  apex_mem := by decide
  lower := by decide
  below_apex := by decide
  ancestor_closed := by decide
  nothing_below_delegation := by decide

/-- The zone `ex` holding the wildcard `*.ex` with an A RRset. -/
def wildcardZone : Zone where
  apex := nameEx
  names := {nameEx, nameEx.wildcard}
  types x := if x = nameEx then {RRType.ns, RRType.soa}
    else if x = nameEx.wildcard then {RRType.a} else ∅
  apex_mem := by decide
  lower := by decide
  below_apex := by decide
  ancestor_closed := by decide
  nothing_below_delegation := by decide

/-- Without the next names in the zone, without CNAME in the delegation exception and without
SOA confined to the apex, NODATA is proved where the zone contradicts it: a CNAME query at a
delegation point, an NSEC from `*.ex` to `b.a.ex` taking `a.ex` for an empty non-terminal
while `*.ex` owns A, and a query below the apex at a name owning NS and SOA. -/
theorem krNsecNegative_nodata_contradicted :
    ((∀ e ∈ [secureEntry (nsecRRset nameSubEx nameEx [RRType.ns])],
        nsecEntryOk 1 e = true → delegationZone.NsecConsistent e.rr) ∧
      delegationZone.apex.IsAncestorOrSelf nameSubEx ∧
      krNsecNegative [secureEntry (nsecRRset nameSubEx nameEx [RRType.ns])] 1 nameSubEx
        RRType.cname = Pkt.nodata ∧
      RRType.cname ≠ RRType.ds ∧ delegationZone.IsDelegation nameSubEx) ∧
    ((∀ e ∈ [secureEntry (nsecRRset nameEx.wildcard nameBAEx [RRType.a])],
        nsecEntryOk 1 e = true → wildcardZone.NsecConsistent e.rr) ∧
      wildcardZone.apex.IsAncestorOrSelf nameAEx ∧
      krNsecNegative [secureEntry (nsecRRset nameEx.wildcard nameBAEx [RRType.a])] 1 nameAEx
        RRType.a = Pkt.nodata ∧
      ¬ wildcardZone.NodataHolds nameAEx RRType.a) ∧
    ((∀ e ∈ [secureEntry (nsecRRset nameSubEx nameEx [RRType.ns, RRType.soa])],
        nsecEntryOk 1 e = true → soaBelowApexZone.NsecConsistent e.rr) ∧
      soaBelowApexZone.apex.IsAncestorOrSelf nameSubEx ∧
      krNsecNegative [secureEntry (nsecRRset nameSubEx nameEx [RRType.ns, RRType.soa])] 1
        nameSubEx RRType.a = Pkt.nodata ∧
      RRType.a ≠ RRType.ds ∧ soaBelowApexZone.IsDelegation nameSubEx) := by
  refine ⟨?_, ?_, ?_⟩ <;> decide

end KnotResolver
