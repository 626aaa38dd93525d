import KnotResolver.Layer.Iterate

/-!
# The iterator's bailiwick discipline

One `resolve` call on a query whose zone cut is `C` when it starts. The records the iterator
ranks for validation, that is with any rank but OMIT, must lie at or below `C`: a server is
trusted only for its own zone. Every selection filters by `knot_dname_in_bailiwick`, against
the cut before the packet, the cut `process_authority` moved to, or, for a referral, the cut's
`parent`.

`Bailiwick` is the invariant: the ranked entries of the query, the cut and its parent all lie
at or below `C`. Each function of `lib/layer/iterate.c` keeps it, so `resolve` does, provided
the parent the cut starts with lies at or below `C` (`resolve_bailiwick`). That proviso is not
a formality: after a referral that leaves the cut where it was, `pick_authority` still reads
the `parent` an earlier packet left, and selects records above `C`
(`resolve_lame_referral_out_of_bailiwick`).
-/

namespace KnotResolver

/-! ## What the discipline reads of an entry -/

/-- An entry's owner, rank and query: all the discipline reads, and all that merging records,
setting flags or bounding TTLs leaves alone. -/
def RankedEntry.tag (e : RankedEntry) : Dname × UInt8 × UInt32 := (e.rr.owner, e.rank, e.qryUid)

/-- A tag of query `uid`, unless omitted, is at or below `C`. -/
def TagBelow (C : Dname) (uid : UInt32) (t : Dname × UInt8 × UInt32) : Prop :=
  t.2.2 = uid → t.2.1 ≠ Rank.omit_ → C.IsAncestorOrSelf t.1

/-- The entries of query `uid` ranked for validation lie at or below `C`. -/
def SelectedBelow (C : Dname) (uid : UInt32) (arr : List RankedEntry) : Prop :=
  ∀ t ∈ arr.map RankedEntry.tag, TagBelow C uid t

theorem SelectedBelow.mono {C : Dname} {uid : UInt32} {arr arr' : List RankedEntry}
    (h : SelectedBelow C uid arr) (hsub : arr'.map RankedEntry.tag ⊆ arr.map RankedEntry.tag) :
    SelectedBelow C uid arr' :=
  fun t ht => h t (hsub ht)

theorem SelectedBelow.cons {C : Dname} {uid : UInt32} {arr arr' : List RankedEntry}
    {t : Dname × UInt8 × UInt32} (h : SelectedBelow C uid arr) (ht : TagBelow C uid t)
    (hsub : arr'.map RankedEntry.tag ⊆ t :: arr.map RankedEntry.tag) :
    SelectedBelow C uid arr' := by
  intro t' ht'
  rcases List.mem_cons.mp (hsub ht') with rfl | hmem
  · exact ht
  · exact h t' hmem

/-! ## The ranked arrays keep their tags -/

@[simp] theorem RRset.owner_addRdata (a b : RRset) : (a.addRdata b).owner = a.owner := by
  unfold RRset.addRdata
  split <;> rfl

theorem map_tag_toWireEnsureUnique (arr : List RankedEntry) (i : ℕ) :
    (toWireEnsureUnique arr i).map RankedEntry.tag = arr.map RankedEntry.tag := by
  unfold toWireEnsureUnique
  split
  · rfl
  · split
    · rfl
    · rw [List.map_map]
      congr 1
      funext ei
      simp only [Function.comp_apply]
      split_ifs <;> rfl

theorem mem_of_mergeCandidate {rr : RRset} {uid : UInt32} :
    ∀ {l : List (RankedEntry × ℕ)} {p : RankedEntry × ℕ}, mergeCandidate rr uid l = some p →
      p ∈ l
  | [], _, h => by simp [mergeCandidate] at h
  | (e, i) :: rest, p, h => by
    unfold mergeCandidate at h
    split_ifs at h
    · simp only [Option.some.injEq] at h
      exact h ▸ List.mem_cons_self
    · exact List.mem_cons_of_mem _ (mem_of_mergeCandidate h)

/-- Adding to a ranked array leaves the tags it had and adds at most the new record's. -/
theorem map_tag_krRankedRrarrayAdd (arr : List RankedEntry) (rr : RRset) (rank : UInt8)
    (toWire : Bool) (uid : UInt32) :
    (krRankedRrarrayAdd arr rr rank toWire uid).2.map RankedEntry.tag ⊆
      (rr.owner, rank, uid) :: arr.map RankedEntry.tag := by
  unfold krRankedRrarrayAdd
  split
  · next e i hcand =>
    -- the merged entry is an old one with more records
    have he : e ∈ arr := by
      have hmem := mem_of_mergeCandidate hcand
      rw [List.mem_reverse, List.mem_zipIdx_iff_getElem?] at hmem
      exact List.mem_of_getElem? hmem
    split
    · exact List.subset_cons_of_subset _ (List.Subset.refl _)
    · intro t ht
      rw [List.map_set] at ht
      rcases List.mem_or_eq_of_mem_set ht with ht | rfl
      · exact List.mem_cons_of_mem _ ht
      · exact List.mem_cons_of_mem _ (List.mem_map.mpr ⟨e, he, by simp [RankedEntry.tag]⟩)
  · intro t ht
    rw [map_tag_toWireEnsureUnique, List.map_append] at ht
    rcases List.mem_append.mp ht with ht | ht
    · exact List.mem_cons_of_mem _ ht
    · simp only [List.map_cons, List.map_nil, List.mem_singleton] at ht
      exact ht ▸ List.mem_cons_self

theorem map_tag_krRankedRrarrayFinalize (arr : List RankedEntry) (uid : UInt32) :
    (krRankedRrarrayFinalize arr uid).map RankedEntry.tag = arr.map RankedEntry.tag := by
  simp only [krRankedRrarrayFinalize, List.map_map]
  congr 1
  funext e
  simp only [Function.comp_apply]
  split_ifs <;> rfl

theorem map_tag_boundTtls (arr : List RankedEntry) (uid : UInt32) (ttlMin ttlMax : UInt32) :
    (boundTtls arr uid ttlMin ttlMax).map RankedEntry.tag = arr.map RankedEntry.tag := by
  simp only [boundTtls, List.map_map]
  congr 1
  funext e
  simp only [Function.comp_apply]
  split_ifs <;> rfl

theorem map_tag_setDontCache (arr : List RankedEntry) (i : Option ℕ) :
    (setDontCache arr i).map RankedEntry.tag ⊆ arr.map RankedEntry.tag := by
  intro t ht
  obtain ⟨e, he, rfl⟩ := List.mem_map.mp ht
  cases i with
  | none => exact List.mem_map_of_mem he
  | some i =>
    rcases mem_of_mem_modify he with he | ⟨y, hy, rfl⟩
    · exact List.mem_map_of_mem he
    · exact List.mem_map.mpr ⟨y, hy, rfl⟩

theorem map_tag_relocateToWire {arr : List RankedEntry} {i : ℕ} {e : RankedEntry}
    (he : arr[i]? = some e) :
    (relocateToWire arr i e).map RankedEntry.tag ⊆ arr.map RankedEntry.tag := by
  intro t ht
  simp only [relocateToWire, List.map_append, List.map_cons, List.map_nil, List.mem_append,
    List.mem_singleton] at ht
  rcases ht with ht | rfl
  · obtain ⟨e', he', rfl⟩ := List.mem_map.mp ht
    exact List.mem_map_of_mem (List.mem_of_mem_eraseIdx he')
  · exact List.mem_map.mpr ⟨e, List.mem_of_getElem? he, rfl⟩

/-! ## The invariant -/

/-- The bailiwick discipline within one `resolve` call on query `uid`, whose cut was `C`: the
query's entries ranked for validation lie at or below `C`, and so do the cut and the cut it
left. -/
structure Bailiwick (C : Dname) (uid : UInt32) (st : IterState) : Prop where
  selected : ∀ sec, SelectedBelow C uid (st.selected sec)
  cut : C.IsAncestorOrSelf st.qry.zoneCut.name
  parent : ∀ p, st.qry.zoneCut.parent = some p → C.IsAncestorOrSelf p.name
  uid_eq : st.qry.uid = uid

section Invariant

variable {C : Dname} {uid : UInt32} {st : IterState}

/-- A step that keeps the tags, the cut and its parent keeps the invariant. -/
theorem Bailiwick.frame {st' : IterState} (h : Bailiwick C uid st)
    (hsel : ∀ sec, (st'.selected sec).map RankedEntry.tag ⊆ (st.selected sec).map RankedEntry.tag)
    (hcut : st'.qry.zoneCut.name = st.qry.zoneCut.name)
    (hpar : st'.qry.zoneCut.parent = st.qry.zoneCut.parent) (huid : st'.qry.uid = st.qry.uid) :
    Bailiwick C uid st' where
  selected sec := (h.selected sec).mono (hsel sec)
  cut := hcut ▸ h.cut
  parent := hpar ▸ h.parent
  uid_eq := huid.trans h.uid_eq

theorem Bailiwick.setFlags (h : Bailiwick C uid st) (flags : QueryFlags) :
    Bailiwick C uid (st.setFlags flags) :=
  h.frame (by simp) rfl rfl rfl

theorem Bailiwick.setAa (h : Bailiwick C uid st) (aa : Bool) : Bailiwick C uid (st.setAa aa) :=
  h.frame (by simp) rfl rfl rfl

/-- The cut moves below `C`, its parent staying at or below `C`. -/
theorem Bailiwick.setZoneCut (h : Bailiwick C uid st) {cut : ZoneCut}
    (hcut : C.IsAncestorOrSelf cut.name)
    (hpar : ∀ p, cut.parent = some p → C.IsAncestorOrSelf p.name) :
    Bailiwick C uid (st.setZoneCut cut) where
  selected sec := by simpa using h.selected sec
  cut := hcut
  parent := hpar
  uid_eq := h.uid_eq

/-- Adding a record to one of the arrays: it must be omitted or lie at or below `C`. -/
theorem Bailiwick.addRr (h : Bailiwick C uid st) {sec : Section} {rr : RRset} {rank : UInt8}
    (toWire : Bool) (hrr : rank = Rank.omit_ ∨ C.IsAncestorOrSelf rr.owner) :
    Bailiwick C uid (st.addRr sec rr rank toWire).2 where
  selected sec' := by
    by_cases hs : sec' = sec
    · subst hs
      simp only [IterState.addRr, IterState.selected_setSelected_self]
      refine (h.selected sec').cons ?_ (map_tag_krRankedRrarrayAdd _ _ _ _ _)
      intro _ hrank
      exact hrr.resolve_left hrank
    · simpa [IterState.addRr, IterState.selected_setSelected_of_ne _ hs] using h.selected sec'
  cut := by simpa using h.cut
  parent := by simpa using h.parent
  uid_eq := by simpa using h.uid_eq

theorem Bailiwick.addRr_eq (h : Bailiwick C uid st) {sec : Section} {rr : RRset} {rank : UInt8}
    {toWire : Bool} {ret : ℤ} {st' : IterState} (heq : st.addRr sec rr rank toWire = (ret, st'))
    (hrr : rank = Rank.omit_ ∨ C.IsAncestorOrSelf rr.owner) : Bailiwick C uid st' := by
  have hadd : Bailiwick C uid (st.addRr sec rr rank toWire).2 := h.addRr toWire hrr
  rw [heq] at hadd
  exact hadd

/-! ### Glue and the cut -/

theorem updateNsaddr_cut (rr : RRset) (cut : ZoneCut) (allowLocal : Bool) (glueCnt : ℕ) :
    (updateNsaddr rr cut allowLocal glueCnt).2.1.name = cut.name ∧
      (updateNsaddr rr cut allowLocal glueCnt).2.1.parent = cut.parent := by
  unfold updateNsaddr
  dsimp only
  split_ifs <;> exact ⟨rfl, rfl⟩

/-- An address for a name server changes neither the cut's name nor its parent. -/
theorem Bailiwick.updateNsaddr (h : Bailiwick C uid st) (rr : RRset) (glueCnt : ℕ) :
    Bailiwick C uid (st.setZoneCut
      (updateNsaddr rr st.qry.zoneCut st.qry.flags.allowLocal glueCnt).2.1) := by
  obtain ⟨hname, hpar⟩ := updateNsaddr_cut rr st.qry.zoneCut st.qry.flags.allowLocal glueCnt
  exact h.setZoneCut (hname ▸ h.cut) (hpar ▸ h.parent)

theorem Bailiwick.krZonecutAdd (h : Bailiwick C uid st) (ns : Dname)
    (addr : Option (List UInt8)) :
    Bailiwick C uid (st.setZoneCut (KnotResolver.krZonecutAdd st.qry.zoneCut ns addr)) :=
  h.setZoneCut h.cut h.parent

/-- `fetch_glue` ranks a record for validation only for a name server in bailiwick. -/
theorem Bailiwick.fetchGlueSection (ctx : IterCtx) (sec : Section) {ns : Dname}
    {inBailiwick : Bool} (hns : inBailiwick = true → C.IsAncestorOrSelf ns) :
    ∀ (rrs : List RRset) (acc : IterState × ℕ), Bailiwick C uid acc.1 →
      Bailiwick C uid (KnotResolver.fetchGlueSection ctx sec ns inBailiwick rrs acc).1
  | [], _, h => h
  | rr :: rrs, (st, glueCnt), h => by
    have ih := Bailiwick.fetchGlueSection ctx sec hns rrs
    unfold KnotResolver.fetchGlueSection
    by_cases hown : rr.owner ≠ ns
    · rw [if_pos hown]
      exact ih _ h
    rw [if_neg hown]
    by_cases htype : rr.type ≠ RRType.a ∧ rr.type ≠ RRType.aaaa
    · rw [if_pos htype]
      exact ih _ h
    rw [if_neg htype]
    dsimp only
    -- the record goes to the section's array, omitted unless its owner is in bailiwick
    generalize hrank : (if inBailiwick = true ∧ sec = .answer then Rank.initial ||| Rank.auth
      else Rank.omit_) = rank
    have hadd : Bailiwick C uid (st.addRr sec rr rank false).2 := by
      refine h.addRr false ?_
      rw [← hrank]
      split_ifs with hb
      · exact .inr ((not_not.mp hown) ▸ hns hb.1)
      · exact .inl rfl
    generalize (st.addRr sec rr rank false).2 = st at hadd ⊢
    by_cases hv4 : rr.type = RRType.a ∧ ctx.noIpv4 = true
    · rw [if_pos hv4]
      exact ih _ hadd
    rw [if_neg hv4]
    by_cases hv6 : rr.type = RRType.aaaa ∧ ctx.noIpv6 = true
    · rw [if_pos hv6]
      exact ih _ hadd
    rw [if_neg hv6]
    have hcut := hadd.updateNsaddr rr glueCnt
    revert hcut
    generalize KnotResolver.updateNsaddr rr st.qry.zoneCut st.qry.flags.allowLocal glueCnt = res
    obtain ⟨-, cut, glueCnt⟩ := res
    intro hcut
    dsimp only at hcut ⊢
    split_ifs
    · exact hcut
    · exact ih _ hcut

theorem Bailiwick.fetchGlue (ctx : IterCtx) (pkt : Packet) {ns : Dname} {inBailiwick : Bool}
    (hns : inBailiwick = true → C.IsAncestorOrSelf ns) {acc : IterState × ℕ}
    (h : Bailiwick C uid acc.1) :
    Bailiwick C uid (KnotResolver.fetchGlue ctx pkt ns inBailiwick acc).1 := by
  unfold KnotResolver.fetchGlue
  apply Bailiwick.fetchGlueSection ctx _ hns
  apply Bailiwick.fetchGlueSection ctx _ hns
  exact Bailiwick.fetchGlueSection ctx _ hns _ _ h

/-- `update_cut` adds name servers; their glue is ranked against the cut before the packet. -/
theorem Bailiwick.updateCutNs (ctx : IterCtx) (rr : RRset) {currentCut : Dname}
    (hcur : C.IsAncestorOrSelf currentCut) :
    ∀ (rds : List Rdata) (acc : IterState × ℕ), Bailiwick C uid acc.1 →
      Bailiwick C uid (KnotResolver.updateCutNs ctx rr currentCut rds acc).1
  | [], _, h => h
  | rd :: rds, (st, glueCnt), h => by
    have ih := Bailiwick.updateCutNs ctx rr hcur rds
    unfold KnotResolver.updateCutNs
    dsimp only
    by_cases hglue : knotDnameInBailiwick (knotNsName rd) rr.owner ≥ 0 ∧
        (!hasGlue st.pkt (knotNsName rd)) = true
    · rw [if_pos hglue]
      exact ih _ h
    rw [if_neg hglue]
    apply ih
    have hadd := h.krZonecutAdd (knotNsName rd) none
    have hns : decide (knotDnameInBailiwick (knotNsName rd) currentCut ≥ 0) = true →
        C.IsAncestorOrSelf (knotNsName rd) := fun hb =>
      hcur.trans (knotDnameInBailiwick_nonneg_iff.mp (of_decide_eq_true hb))
    -- with or without the glue
    split_ifs <;> first | exact hadd.fetchGlue ctx _ hns | exact hadd

/-- `update_cut` moves the cut only to an NS owner at or below the cut before the packet, and
keeps the cut it leaves as the parent. -/
theorem Bailiwick.updateCut (ctx : IterCtx) (rr : RRset) {currentCut : Dname}
    (hcur : C.IsAncestorOrSelf currentCut) (glueCnt : ℕ) (h : Bailiwick C uid st) :
    Bailiwick C uid (KnotResolver.updateCut ctx rr currentCut st glueCnt).2.1 := by
  unfold KnotResolver.updateCut
  by_cases hok : knotDnameInBailiwick rr.owner currentCut ≥ 0 ∧
      knotDnameInBailiwick st.qry.sname rr.owner ≥ 0
  · rw [if_neg (not_not.mpr hok)]
    have howner : C.IsAncestorOrSelf rr.owner :=
      hcur.trans (knotDnameInBailiwick_nonneg_iff.mp hok.1)
    dsimp only
    apply Bailiwick.updateCutNs ctx rr hcur
    split_ifs
    · refine h.setZoneCut howner ?_
      rintro p ⟨⟩
      exact h.cut
    · exact h
  · rw [if_pos hok]
    exact h

/-! ### `process_authority` and `pick_authority` -/

/-- The state the authority loop of `process_authority` ends in, by either exit. -/
def authorityLoopState : Except IterState (ℤ × Bool × IterState) → IterState
  | .error st => st
  | .ok (_, _, st) => st

/-- Every cut the authority loop moves to, by an NS RRset or an SOA below the cut, lies at or
below the cut it started from. -/
theorem Bailiwick.processAuthorityLoop (ctx : IterCtx) {currentZoneCut : Dname}
    (hcur : C.IsAncestorOrSelf currentZoneCut) :
    ∀ (rrs : List RRset) (result : ℤ) (nsRecordExists : Bool) (glueCnt nsCount : ℕ)
      (st : IterState), Bailiwick C uid st →
      Bailiwick C uid (authorityLoopState (KnotResolver.processAuthorityLoop ctx currentZoneCut
        rrs result nsRecordExists glueCnt nsCount st))
  | [], _, _, _, _, _, h => h
  | rr :: rrs, result, nsRecordExists, glueCnt, nsCount, st, h => by
    have ih := Bailiwick.processAuthorityLoop ctx hcur rrs
    unfold KnotResolver.processAuthorityLoop
    by_cases hns : rr.type = RRType.ns
    · rw [if_pos hns]
      have hcut := h.updateCut ctx rr hcur glueCnt
      rcases hu : KnotResolver.updateCut ctx rr currentZoneCut st glueCnt with
        ⟨state, st', glueCnt'⟩
      rw [hu] at hcut
      dsimp only at hcut ⊢
      split_ifs <;> first | exact hcut | exact ih _ _ _ _ _ hcut
    rw [if_neg hns]
    by_cases hsoa : rr.type = RRType.soa ∧ knotDnameInBailiwick rr.owner st.qry.zoneCut.name > 0
    · rw [if_pos hsoa]
      -- an SOA below the cut moves it down
      exact ih _ _ _ _ _ (h.setZoneCut
        (h.cut.trans (knotDnameInBailiwick_nonneg_iff.mp hsoa.2.le)) h.parent)
    · rw [if_neg hsoa]
      exact ih _ _ _ _ _ h

theorem isAncestorOrSelf_answerNsCut (sname : Dname) :
    ∀ (rrs : List RRset) {cut : Dname}, C.IsAncestorOrSelf cut →
      C.IsAncestorOrSelf (answerNsCut sname rrs cut)
  | [], _, h => h
  | rr :: rrs, cut, h => by
    unfold answerNsCut
    split_ifs with hns
    · exact isAncestorOrSelf_answerNsCut sname rrs
        (h.trans (knotDnameInBailiwick_nonneg_iff.mp hns.2.1.le))
    · exact isAncestorOrSelf_answerNsCut sname rrs h

theorem Bailiwick.processAuthority (ctx : IterCtx) (h : Bailiwick C uid st) :
    Bailiwick C uid (KnotResolver.processAuthority ctx st).2 := by
  unfold KnotResolver.processAuthority
  split_ifs
  · exact h
  · exact h
  · exact h
  have hloop := Bailiwick.processAuthorityLoop ctx h.cut st.pkt.authority LayerState.consume
    false 0 0 st h
  split
  next st' heq =>
    rw [heq] at hloop
    exact hloop
  next result nsRecordExists st' heq =>
    rw [heq] at hloop
    dsimp only
    split_ifs
    · exact hloop.setZoneCut (isAncestorOrSelf_answerNsCut _ _ hloop.cut) hloop.parent
    · exact hloop

/-- `pick_authority` selects only records at or below the name it judges them by. -/
theorem Bailiwick.pickAuthorityLoop {zonecutName : Dname}
    (hz : C.IsAncestorOrSelf zonecutName) (referral toWire : Bool) :
    ∀ (rrs : List RRset) (st : IterState), Bailiwick C uid st →
      Bailiwick C uid (KnotResolver.pickAuthorityLoop zonecutName referral toWire rrs st).2
  | [], _, h => h
  | rr :: rrs, st, h => by
    have ih := Bailiwick.pickAuthorityLoop hz referral toWire rrs
    unfold KnotResolver.pickAuthorityLoop
    by_cases hskip : rr.rclass ≠ classIn ∨ knotDnameInBailiwick rr.owner zonecutName < 0
    · rw [if_pos hskip]
      exact ih _ h
    rw [if_neg hskip]
    have hin : C.IsAncestorOrSelf rr.owner :=
      hz.trans (knotDnameInBailiwick_nonneg_iff.mp (by omega))
    dsimp only
    rcases ha : st.addRr .authority rr
      (getInitialRank st.pkt rr st.qry false (st.qry.flags.forward || referral)) toWire with
      ⟨ret, st'⟩
    have hadd := h.addRr_eq ha (.inr hin)
    dsimp only
    split_ifs
    · exact hadd
    · exact ih _ hadd

/-- The name `pick_authority` judges by: the cut, or for a referral the cut's parent. -/
theorem Bailiwick.pickAuthority (h : Bailiwick C uid st) (toWire : Bool) :
    Bailiwick C uid (KnotResolver.pickAuthority st toWire).2 := by
  unfold KnotResolver.pickAuthority
  apply Bailiwick.pickAuthorityLoop _ _ _ _ _ h
  split_ifs
  · cases hp : st.qry.zoneCut.parent with
    | none => exact h.cut
    | some p => exact h.parent p hp
  · exact h.cut

/-! ### `unroll_cname` -/

/-- The state an answer scan of `unroll_cname` ends in, by either exit. -/
def scanState : Except (ℤ × IterState) UnrollScan → IterState
  | .error (_, st) => st
  | .ok acc => acc.st

theorem Bailiwick.unrollDname {referral toWire : Bool} {cname : Dname} {rr : RRset}
    {allOK : Bool} {acc : UnrollScan} (hin : C.IsAncestorOrSelf rr.owner)
    (h : Bailiwick C uid acc.st) :
    Bailiwick C uid (scanState (KnotResolver.unrollDname referral toWire cname rr allOK acc)) := by
  unfold KnotResolver.unrollDname
  split_ifs
  · dsimp only
    rcases ha : acc.st.addRr .answer rr (getInitialRank acc.st.pkt rr acc.st.qry true
      (acc.st.qry.flags.forward || referral)) toWire with ⟨ret, st'⟩
    have hadd := h.addRr_eq ha (.inr hin)
    dsimp only
    split_ifs <;> exact hadd
  · exact h

theorem Bailiwick.unrollSelect {referral toWire : Bool} {rr : RRset} {acc : UnrollScan}
    (hin : C.IsAncestorOrSelf rr.owner) (h : Bailiwick C uid acc.st) :
    Bailiwick C uid (scanState (KnotResolver.unrollSelect referral toWire rr acc)) := by
  unfold KnotResolver.unrollSelect
  dsimp only
  -- the parent's cut takes the address; the query's cut is untouched
  split
  next e heq =>
    split at heq
    · cases heq
    · split_ifs at heq
      cases heq
      exact h
  next st' heq =>
    have hst' : Bailiwick C uid st' := by
      split at heq
      · cases heq
        exact h
      · split_ifs at heq
        cases heq
        exact h.frame (fun _ => List.Subset.refl _) rfl rfl rfl
    rcases ha : st'.addRr .answer rr (getInitialRank st'.pkt rr st'.qry true
      (st'.qry.flags.forward || referral)) toWire with ⟨ret, st''⟩
    have hadd := hst'.addRr_eq ha (.inr hin)
    dsimp only
    split_ifs <;> exact hadd

/-- The answer scan selects only records at or below the cut. -/
theorem Bailiwick.unrollCnameScan (referral : Bool) (cname : Dname) (cnameLabels : ℕ) :
    ∀ (rrs : List RRset) (acc : UnrollScan), Bailiwick C uid acc.st →
      Bailiwick C uid (scanState (KnotResolver.unrollCnameScan referral cname cnameLabels rrs acc))
  | [], _, h => h
  | rr :: rrs, acc, h => by
    have ih := Bailiwick.unrollCnameScan referral cname cnameLabels rrs
    unfold KnotResolver.unrollCnameScan
    dsimp only
    by_cases hskip : rr.rclass ≠ classIn ∨ knotDnameInBailiwick rr.owner acc.st.qry.zoneCut.name < 0
    · rw [if_pos hskip]
      exact ih _ h
    rw [if_neg hskip]
    have hin : C.IsAncestorOrSelf rr.owner :=
      h.cut.trans (knotDnameInBailiwick_nonneg_iff.mp (by omega))
    have hd : Bailiwick C uid (scanState (KnotResolver.unrollDname referral
        (acc.st.parent.isNone && !referral) cname rr (decide
          ((rr.type = acc.st.qry.stype ∨ krRrsetTypeMaysig rr = acc.st.qry.stype ∨
            krRrsetTypeMaysig rr = RRType.cname) ∧ rr.owner = cname)) acc)) :=
      h.unrollDname hin
    split
    next e heq =>
      rw [heq] at hd
      exact hd
    next acc' heq =>
      rw [heq] at hd
      -- a record of the current name, perhaps an RRSIG that marks a wildcard expansion
      split_ifs
      · exact ih _ hd
      · exact ih _ hd
      · have hs : Bailiwick C uid (scanState (KnotResolver.unrollSelect referral
            (acc.st.parent.isNone && !referral) rr
              { acc' with st := acc'.st.setFlags { acc'.st.qry.flags with dnssecWexpand := true } })) :=
          (hd.setFlags _).unrollSelect hin
        split
        next e heq' =>
          rw [heq'] at hs
          exact hs
        next a heq' =>
          rw [heq'] at hs
          exact ih _ hs
      · have hs : Bailiwick C uid (scanState (KnotResolver.unrollSelect referral
            (acc.st.parent.isNone && !referral) rr acc')) := hd.unrollSelect hin
        split
        next e heq' =>
          rw [heq'] at hs
          exact hs
        next a heq' =>
          rw [heq'] at hs
          exact ih _ hs

theorem Bailiwick.markOccluded {acc : UnrollScan} (h : Bailiwick C uid acc.st) :
    Bailiwick C uid acc.markOccluded := by
  unfold UnrollScan.markOccluded
  split_ifs
  · refine h.frame (fun sec => ?_) rfl rfl rfl
    cases sec
    · exact map_tag_setDontCache _ _
    · exact List.Subset.refl _
    · exact List.Subset.refl _
  · exact h

theorem Bailiwick.setCnameDepth (h : Bailiwick C uid st) (d : ℕ) :
    Bailiwick C uid (st.setCnameDepth d) :=
  h.frame (fun sec => by cases sec <;> exact List.Subset.refl _) rfl rfl rfl

theorem Bailiwick.unrollCnameLoop (referral : Bool) :
    ∀ (fuel : ℕ) (cname : Dname) (st : IterState), Bailiwick C uid st →
      Bailiwick C uid (KnotResolver.unrollCnameLoop referral fuel cname st).2.2
  | 0, _, _, h => h
  | fuel + 1, cname, st, h => by
    unfold KnotResolver.unrollCnameLoop
    have hscan := Bailiwick.unrollCnameScan referral cname (knotDnameLabels cname) st.pkt.answer
      { st } h
    dsimp only
    split
    next ret st' heq =>
      rw [heq] at hscan
      exact hscan
    next acc heq =>
      rw [heq] at hscan
      split
      · exact hscan
      · have hstep := (Bailiwick.markOccluded hscan).setCnameDepth
          (acc.markOccluded.qry.cnameDepth + 1)
        split_ifs <;> first | exact hstep | exact Bailiwick.unrollCnameLoop referral fuel _ _ hstep

theorem Bailiwick.unrollCname (h : Bailiwick C uid st) (referral : Bool) :
    Bailiwick C uid (KnotResolver.unrollCname st referral).2.2 := by
  unfold KnotResolver.unrollCname
  split_ifs
  · exact h
  · exact Bailiwick.unrollCnameLoop referral _ _ _ (h.setCnameDepth _)

/-! ### Answers and referrals -/

/-- A step that touches neither the query nor the ranked arrays. -/
theorem Bailiwick.of_qry_selected {st' : IterState} (h : Bailiwick C uid st)
    (hq : st'.qry = st.qry) (hs : ∀ sec, st'.selected sec = st.selected sec) :
    Bailiwick C uid st' :=
  h.frame (fun sec => hs sec ▸ List.Subset.refl _) (by rw [hq]) (by rw [hq]) (by rw [hq])

theorem Bailiwick.finalizeAnswer (h : Bailiwick C uid st) :
    Bailiwick C uid (KnotResolver.finalizeAnswer st).2 :=
  h.of_qry_selected rfl (fun sec => by cases sec <;> rfl)

theorem Bailiwick.relocateToWire (h : Bailiwick C uid st) {i : ℕ} {e : RankedEntry}
    (he : st.answSelected[i]? = some e) :
    Bailiwick C uid { st with answSelected := KnotResolver.relocateToWire st.answSelected i e } := by
  refine h.frame (fun sec => ?_) rfl rfl rfl
  cases sec
  · exact map_tag_relocateToWire he
  · exact List.Subset.refl _
  · exact List.Subset.refl _

theorem Bailiwick.processReferralAnswer (h : Bailiwick C uid st) :
    Bailiwick C uid (KnotResolver.processReferralAnswer st).2 := by
  unfold KnotResolver.processReferralAnswer
  have hu := h.unrollCname true
  dsimp only
  split_ifs <;> dsimp only
  · exact hu
  all_goals first | exact (hu.setAa false).pickAuthority false | exact hu.pickAuthority false

theorem Bailiwick.processFinal (h : Bailiwick C uid st) (cname : Dname) :
    Bailiwick C uid (KnotResolver.processFinal st cname).2 := by
  unfold KnotResolver.processFinal
  dsimp only
  split
  · exact h
  · have hp := h.pickAuthority
      (decide (krResponseClassify st.pkt &&& (Pkt.nxdomain ||| Pkt.nodata) ≠ 0))
    split_ifs
    · exact hp
    · split
      next e he =>
        split_ifs
        · exact (hp.relocateToWire he).finalizeAnswer
        · exact hp.finalizeAnswer
      next => exact hp.finalizeAnswer

theorem Bailiwick.followCname (ctx : IterCtx) (cname : Dname) (h : Bailiwick C uid st) :
    Bailiwick C uid (KnotResolver.followCname ctx cname st).2 := by
  unfold KnotResolver.followCname
  dsimp only
  -- the planned query is not this query's state
  have hpush : ∀ q : List PlannedQuery, Bailiwick C uid { st with pushed := q } :=
    fun _ => h.of_qry_selected rfl (fun sec => by cases sec <;> rfl)
  split_ifs <;> dsimp only
  · exact h
  all_goals first | exact (hpush _).pickAuthority false | exact hpush _

theorem Bailiwick.processAnswer (ctx : IterCtx) (h : Bailiwick C uid st) :
    Bailiwick C uid (KnotResolver.processAnswer ctx st).2 := by
  unfold KnotResolver.processAnswer
  rcases hun : KnotResolver.unrollCname st false with ⟨state, cname, st'⟩
  have hu : Bailiwick C uid st' := by
    have h' := h.unrollCname false
    rwa [hun] at h'
  -- the unrolled answer is marked authoritative and resolving, and perhaps a CNAME
  have hres : ∀ f, Bailiwick C uid ((st'.setAa true).setFlags f) :=
    fun f => (hu.setAa true).setFlags f
  have hcn : ∀ f g, Bailiwick C uid (((st'.setAa true).setFlags f).setFlags g) :=
    fun f g => (hres f).setFlags g
  dsimp only
  split_ifs
  -- a response to a minimized name
  · exact h
  · exact h.setFlags _
  -- a negative answer from a server not authoritative for it
  · exact h
  -- the CNAME chain could not be unrolled
  · exact hu
  -- a CNAME to follow, for the final query and for a sub-query
  · exact (hcn _ _).processFinal _
  · exact ((hcn _ _).processFinal _).followCname ctx _
  · exact hcn _ _
  · exact (hcn _ _).followCname ctx _
  -- the answer itself
  · exact (hres _).pickAuthority _
  · exact ((hres _).pickAuthority _).finalizeAnswer
  · exact (hres _).pickAuthority _
  · exact (hres _).pickAuthority _
  · exact hres _

/-! ### `resolve` -/

theorem Bailiwick.processResponse (ctx : IterCtx) (h : Bailiwick C uid st) :
    Bailiwick C uid (KnotResolver.processResponse ctx st).2 := by
  unfold KnotResolver.processResponse
  rcases hauth : KnotResolver.processAuthority ctx st with ⟨state, st'⟩
  have ha : Bailiwick C uid st' := by
    have h' := h.processAuthority ctx
    rwa [hauth] at h'
  dsimp only
  split_ifs
  · exact ha.processAnswer ctx
  -- a referral, whose glue may already answer the query
  · exact ha.processReferralAnswer.setFlags _
  · exact ha.processReferralAnswer
  · exact ha

theorem Bailiwick.finalizeSelected (ctx : IterCtx) (h : Bailiwick C uid st) :
    Bailiwick C uid (KnotResolver.finalizeSelected ctx st) := by
  refine h.frame (fun sec => ?_) rfl rfl rfl
  -- finishing an RRset and bounding its TTL leave its tag
  cases sec <;> dsimp only [KnotResolver.finalizeSelected, IterState.selected] <;> split_ifs <;>
    simp only [map_tag_boundTtls, map_tag_krRankedRrarrayFinalize, List.Subset.refl]

@[simp] theorem rcodeCheck_qry (st : IterState) : (rcodeCheck st).2.qry = st.qry := by
  unfold rcodeCheck
  dsimp only
  split_ifs <;> rfl

theorem Bailiwick.rcodeCheck (h : Bailiwick C uid st) :
    Bailiwick C uid (KnotResolver.rcodeCheck st).2 := by
  unfold KnotResolver.rcodeCheck
  dsimp only
  split_ifs <;> exact h.of_qry_selected rfl (fun sec => by cases sec <;> rfl)

theorem Bailiwick.resolve (ctx : IterCtx) (layerState : ℤ) (h : Bailiwick C uid st)
    (hstub : st.qry.flags.stub = false) :
    Bailiwick C uid (KnotResolver.resolve ctx layerState st).2 := by
  unfold KnotResolver.resolve
  have h0 := h.setFlags { st.qry.flags with pktIsSane := false }
  have hr := (h0.setFlags { (st.setFlags { st.qry.flags with pktIsSane := false }).qry.flags with
    pktIsSane := true }).rcodeCheck
  dsimp only
  split_ifs <;> try dsimp only
  all_goals first
    | exact h0
    | exact hr
    | exact (hr.processResponse ctx).finalizeSelected ctx
    | simp_all

end Invariant

/-- The bailiwick discipline of the iterator for a query that is not a stub's. When its cut
starts at `C` with a parent at or below `C`, every record of the query that `resolve` ranks
for validation lies at or below `C`, and so does the cut it leaves. -/
theorem resolve_bailiwick (ctx : IterCtx) (layerState : ℤ) (st : IterState) (C : Dname)
    (hcut : st.qry.zoneCut.name = C) (hstub : st.qry.flags.stub = false)
    (hparent : ∀ p, st.qry.zoneCut.parent = some p → C.IsAncestorOrSelf p.name)
    (hsel : ∀ sec, SelectedBelow C st.qry.uid (st.selected sec)) :
    (∀ sec, SelectedBelow C st.qry.uid ((resolve ctx layerState st).2.selected sec)) ∧
      C.IsAncestorOrSelf (resolve ctx layerState st).2.qry.zoneCut.name := by
  have hinv : Bailiwick C st.qry.uid st :=
    ⟨hsel, hcut ▸ List.prefix_refl _, hparent, rfl⟩
  have hres := hinv.resolve ctx layerState hstub
  exact ⟨hres.selected, hres.cut⟩

/-! ## A referral that leaves the cut where it was -/

/-- An NS RRset of class IN. -/
def nsRRset (owner target : Dname) : RRset where
  owner := owner
  type := RRType.ns
  rclass := classIn
  ttl := 3600
  rdata := [.name target]
  rdata_ne_nil := by simp
  rdata_fit := by simp [Rdata.Fits]

/-- An A RRset of class IN. -/
def addrRRset (owner : Dname) (addr : List UInt8) : RRset where
  owner := owner
  type := RRType.a
  rclass := classIn
  ttl := 3600
  rdata := [.raw addr]
  rdata_ne_nil := by simp
  rdata_fit := by
    simp only [List.mem_singleton, forall_eq, Rdata.Fits]
    decide

def nameXSubEx : Dname := ⟨[labelX, labelSub, labelEx]⟩

/-- Query 1 for `x.sub.ex`, whose cut moved from `ex` to `sub.ex` on an earlier referral. -/
def staleCutQuery : KrQuery where
  uid := 1
  id := 7
  sname := nameXSubEx
  stype := RRType.a
  sclass := classIn
  flags := { dnssecWant := true }
  zoneCut := { name := nameSubEx, parent := some { name := nameEx } }

/-- The servers of `sub.ex` answer with a referral to `sub.ex` itself, and add an A record for
`b.ex`, outside their zone. -/
def lameReferral : Packet where
  id := 7
  qdcount := 1
  qname := nameXSubEx
  qclass := classIn
  qtype := RRType.a
  aa := false
  tc := false
  rcode := Rcode.noerror
  parsed := 100
  size := 100
  answer := []
  authority := [nsRRset nameSubEx nameAEx, addrRRset nameBEx [192, 0, 2, 1]]
  additional := []

def iterCtxEx : IterCtx where
  options := {}
  noIpv4 := false
  noIpv6 := false
  tas := rootAnchor
  ttlMin := 5
  ttlMax := 86400
  transportUdp := true

def staleCutState : IterState where
  qry := staleCutQuery
  parent := none
  answSelected := []
  authSelected := []
  addSelected := []
  pkt := lameReferral

/-- With DNSSEC wanted, `process_authority` takes the NS RRset at the cut for an unhelpful
referral and returns DONE; `pick_authority` then judges the authority section by the parent
`ex` of an earlier packet, and ranks the A record of `b.ex` for validation. -/
theorem resolve_lame_referral_out_of_bailiwick :
    (resolve iterCtxEx LayerState.consume staleCutState).1 = LayerState.done ∧
    (resolve iterCtxEx LayerState.consume staleCutState).2.qry.zoneCut.name = nameSubEx ∧
    ∃ e ∈ (resolve iterCtxEx LayerState.consume staleCutState).2.authSelected,
      e.qryUid = staleCutQuery.uid ∧ e.rank ≠ Rank.omit_ ∧
        ¬ nameSubEx.IsAncestorOrSelf e.rr.owner := by
  decide

end KnotResolver
