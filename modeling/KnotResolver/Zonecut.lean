import Mathlib
import KnotResolver.Dname
import KnotResolver.RRset

/-!
# Zone cuts from the cache

lib/zonecut.c: kr_zonecut_find_cached climbs from a name towards the root and takes the first
name with a fresh cached NS RRset whose name servers are not all bad (fetch_ns). For each of the
first 13 name servers fetch_ns asks fetch_addr for cached A and AAAA addresses, under a budget
shared by all of them, and marks an address set it knows nothing about as cycled (AI_CYCLED)
when an ancestor query is waiting for a zone cut or address that this name server might be
needed for.

The cache is seen through what kr_cache_peek_exact, kr_cache_ttl and kr_cache_materialize give
for a name and type: the rank, whether the TTL is still positive for the query, and the RDATA.
-/

namespace KnotResolver

namespace Errno

def eloop : ℤ := 40
def estale : ℤ := 116

end Errno

/-- addrset_info_t, in the order of its values. -/
inductive AddrsetInfo
  | uninited
  | disabled
  | cycled
  | unknown
  | empty
  | ok
  deriving DecidableEq, Repr

/-- The bad states, those up to AI_LAST_BAD. -/
def AddrsetInfo.isBad : AddrsetInfo → Bool
  | .uninited | .disabled | .cycled => true
  | _ => false

/-- A cached RRset as the zone cut code reads it. -/
structure CachedEntry (ρ : Type) where
  rank : UInt8
  fresh : Bool
  rdata : List ρ

/-- The cache as fetch_ns and fetch_addr read it: the NS targets of a name, and the address
RDATA of a name and type. -/
structure ZonecutCache where
  ns : Dname → Option (CachedEntry Dname)
  addr : Dname → RRType → Option (CachedEntry (List UInt8))

/-- The switches of fetch_addr: the query's NO_IPV4 and NO_IPV6, and no6_is_bad(). -/
structure AddrFlags where
  noIpv4 : Bool
  noIpv6 : Bool
  no6IsBad : Bool

/-- One step up the query's ancestry in the cycle check: for aq = qry, qry->parent, ... while aq
has a parent, aq->stype, the AWAIT flags of aq->parent and aq->parent->zone_cut.name. -/
structure AncestorLink where
  stype : RRType
  awaitCut : Bool
  awaitIpv4 : Bool
  awaitIpv6 : Bool
  cutName : Dname

/-- fetch_addr: the state of the name server's addresses of one type, the budget left, and the
addresses pushed into its pack. Past the first address of each set the budget is spent, and a
set is cut short when it runs out. -/
def fetchAddr (cache : ZonecutCache) (flags : AddrFlags) (ns : Dname) (rrtype : RRType)
    (budget : ℤ) : AddrsetInfo × ℤ × List (List UInt8) :=
  if rrtype = RRType.a ∧ flags.noIpv4 then (.disabled, budget, [])
  else if rrtype = RRType.aaaa ∧ (flags.noIpv6 || flags.no6IsBad) then (.disabled, budget, [])
  else
    let rdlen := if rrtype = RRType.a then 4 else 16
    match cache.addr ns rrtype with
    | none => (.unknown, budget, [])
    | some e =>
      if !e.fresh then (.unknown, budget, [])
      else
        let budget := budget - ((e.rdata.length : ℤ) - 1)
        let count := if budget < 0 then (e.rdata.length : ℤ) + budget else e.rdata.length
        let budget := if budget < 0 then 0 else budget
        let usable := (e.rdata.take count.toNat).filter fun rd => rd.length = rdlen
        (if usable = [] then .empty else .ok, budget, usable)

/-- An address set nothing is known about becomes cycled. -/
def AddrsetInfo.cycleUnknown (i : AddrsetInfo) : AddrsetInfo :=
  if i = .unknown then .cycled else i

/-- The parent of aq waits for a zone cut or for addresses of a name server: AWAIT_CUT with aq
asking for NS, AWAIT_IPV4 with A, AWAIT_IPV6 with AAAA. -/
def AncestorLink.awaitsNs (aq : AncestorLink) : Bool :=
  (aq.awaitCut && aq.stype == RRType.ns) || (aq.awaitIpv4 && aq.stype == RRType.a) ||
    (aq.awaitIpv6 && aq.stype == RRType.aaaa)

/-- The AI_CYCLED loop of fetch_ns over the query's ancestry. knot_dname_in_bailiwick is
negative for a name out of the cut and is taken as a truth value, as the source does. -/
def markCycled (nsName : Dname) : List AncestorLink → AddrsetInfo × AddrsetInfo →
    AddrsetInfo × AddrsetInfo
  | [], infos => infos
  | aq :: rest, infos =>
    if aq.awaitsNs then
      if knotDnameInBailiwick nsName aq.cutName ≠ 0 then (infos.1.cycleUnknown, infos.2.cycleUnknown)
      else markCycled nsName rest infos
    -- this ancestor waits for something else: no direct cycle
    else infos

/-- What the loop of fetch_ns carries from one name server to the next. -/
structure NsLoop where
  budget : ℤ
  allBad : Bool
  nsset : List (Dname × List (List UInt8))

/-- One round of the loop of fetch_ns: the name server's pack of addresses, and whether it
keeps all name servers bad. -/
def fetchNsRound (cache : ZonecutCache) (flags : AddrFlags) (links : List AncestorLink)
    (st : NsLoop) (nsName : Dname) : NsLoop :=
  let a := fetchAddr cache flags nsName RRType.a st.budget
  let aaaa := fetchAddr cache flags nsName RRType.aaaa a.2.1
  let nsset := st.nsset ++ [(nsName, a.2.2 ++ aaaa.2.2)]
  if a.1 ≠ .unknown ∧ aaaa.1 ≠ .unknown then { budget := aaaa.2.1, allBad := false, nsset }
  else
    let infos := markCycled nsName links (a.1, aaaa.1)
    { budget := aaaa.2.1, allBad := st.allBad && infos.1.isBad && infos.2.isBad, nsset }

/-- fetch_ns: the code and the name servers with their addresses. At most the first 13 name
servers are taken, with 8 addresses beyond the first of each set to share. -/
def fetchNs (cache : ZonecutCache) (flags : AddrFlags) (links : List AncestorLink) (name : Dname) :
    ℤ × List (Dname × List (List UInt8)) :=
  match cache.ns name with
  | none => (krError Errno.enoent, [])
  | some e =>
    if !e.fresh then (krError Errno.estale, [])
    else
      let r := (e.rdata.take 13).foldl (fetchNsRound cache flags links) ⟨8, true, []⟩
      (if r.allBad then Errno.eloop else krOk, r.nsset)

/-- The climb of kr_zonecut_find_cached from a name, given by its labels: the first name with an
answer from fetch_ns, with its name servers, or ENOENT past the root. -/
def findCachedLoop (cache : ZonecutCache) (flags : AddrFlags) (links : List AncestorLink) :
    List Label → Except ℤ (Dname × List (Dname × List (List UInt8)))
  | [] =>
    let r := fetchNs cache flags links Dname.root
    if r.1 = 0 then .ok (Dname.root, r.2) else .error (krError Errno.enoent)
  | l :: rest =>
    let r := fetchNs cache flags links ⟨l :: rest⟩
    if r.1 = 0 then .ok (⟨l :: rest⟩, r.2) else findCachedLoop cache flags links rest

/-- kr_zonecut_find_cached: the cut's name and name servers. -/
def krZonecutFindCached (cache : ZonecutCache) (flags : AddrFlags) (links : List AncestorLink)
    (name : Dname) : Except ℤ (Dname × List (Dname × List (List UInt8))) :=
  findCachedLoop cache flags links name.labels



/-! ## fetch_addr -/

section FetchAddr

variable {cache : ZonecutCache} {flags : AddrFlags} {ns : Dname} {rrtype : RRType} {budget : ℤ}

/-- The budget stays non-negative, and a set adds at most one address beyond what it takes
from the budget. -/
theorem fetchAddr_budget (hb : 0 ≤ budget) :
    0 ≤ (fetchAddr cache flags ns rrtype budget).2.1 ∧
      ((fetchAddr cache flags ns rrtype budget).2.2.length : ℤ) ≤
        1 + budget - (fetchAddr cache flags ns rrtype budget).2.1 := by
  unfold fetchAddr
  by_cases h1 : rrtype = RRType.a ∧ flags.noIpv4 = true
  · simp [h1, hb]
  by_cases h2 : rrtype = RRType.aaaa ∧ (flags.noIpv6 || flags.no6IsBad) = true
  · simp [h2, hb]
  simp only [h1, h2, if_false]
  cases he : cache.addr ns rrtype with
  | none => simp [hb]
  | some e =>
    by_cases hf : e.fresh
    · simp only [hf, Bool.not_true, Bool.false_eq_true, if_false]
      -- the addresses kept are at most the ones the clipped count lets through
      have htake : ∀ (c : ℤ) (p : List UInt8 → Bool),
          (((e.rdata.take c.toNat).filter p).length : ℤ) ≤ max c 0 := by
        intro c p
        have h1 := List.length_filter_le p (e.rdata.take c.toNat)
        have h2 := List.length_take_le c.toNat e.rdata
        omega
      by_cases hneg : budget - ((e.rdata.length : ℤ) - 1) < 0
      · simp only [hneg, if_true]
        refine ⟨le_rfl, ?_⟩
        have := htake ((e.rdata.length : ℤ) + (budget - ((e.rdata.length : ℤ) - 1)))
          (fun rd => decide (rd.length = if rrtype = RRType.a then 4 else 16))
        omega
      · simp only [hneg, if_false]
        refine ⟨by omega, ?_⟩
        have := htake (e.rdata.length : ℤ)
          (fun rd => decide (rd.length = if rrtype = RRType.a then 4 else 16))
        omega
    · simp [hf, hb]

/-- Every address fetch_addr pushes is an RDATA of the right length of a fresh cached RRset of
that name and type. -/
theorem mem_fetchAddr {x : List UInt8} (hx : x ∈ (fetchAddr cache flags ns rrtype budget).2.2) :
    ∃ e, cache.addr ns rrtype = some e ∧ e.fresh = true ∧ x ∈ e.rdata ∧
      x.length = if rrtype = RRType.a then 4 else 16 := by
  unfold fetchAddr at hx
  by_cases h1 : rrtype = RRType.a ∧ flags.noIpv4 = true
  · simp [h1] at hx
  by_cases h2 : rrtype = RRType.aaaa ∧ (flags.noIpv6 || flags.no6IsBad) = true
  · simp [h2] at hx
  simp only [h1, h2, if_false] at hx
  cases he : cache.addr ns rrtype with
  | none => simp [he] at hx
  | some e =>
    by_cases hf : e.fresh
    · simp only [he, hf, Bool.not_true, Bool.false_eq_true, if_false, List.mem_filter,
        decide_eq_true_eq] at hx
      exact ⟨e, rfl, hf, List.mem_of_mem_take hx.1, hx.2⟩
    · simp [he, hf] at hx

end FetchAddr


/-! ## The cycle check -/

/-- The test of the cycle check holds for every name but the cut itself: for a name below the
cut, as the comment of fetch_ns intends, and for a name outside it, whose
knot_dname_in_bailiwick is -1. -/
theorem knotDnameInBailiwick_ne_zero_iff {name cut : Dname} :
    knotDnameInBailiwick name cut ≠ 0 ↔ name ≠ cut := by
  constructor
  · rintro h rfl
    have hself : name.IsAncestorOrSelf name := List.prefix_refl _
    apply h
    rw [knotDnameInBailiwick_eq, if_pos hself, Nat.sub_self, Nat.cast_zero]
  · intro h
    by_cases hanc : cut.IsAncestorOrSelf name
    · exact (knotDnameInBailiwick_pos_iff.mpr ⟨hanc, h⟩).ne'
    · have hneg := mt knotDnameInBailiwick_nonneg_iff.mp hanc
      omega

/-- What the cycle check does to a name server's address sets: it turns the unknown ones into
cycled exactly when one of the ancestors met before the first that waits for something else
has a zone cut other than the name itself. -/
theorem markCycled_eq (nsName : Dname) (links : List AncestorLink) (infos : AddrsetInfo × AddrsetInfo) :
    markCycled nsName links infos =
      if ∃ aq ∈ links.takeWhile AncestorLink.awaitsNs, aq.cutName ≠ nsName then
        (infos.1.cycleUnknown, infos.2.cycleUnknown)
      else infos := by
  induction links with
  | nil => simp [markCycled]
  | cons aq rest ih =>
    by_cases hw : aq.awaitsNs
    · by_cases hc : nsName = aq.cutName
      · -- the name is the cut itself: the loop goes on up the ancestry
        have hbw : knotDnameInBailiwick nsName aq.cutName = 0 := by
          by_contra hne
          exact knotDnameInBailiwick_ne_zero_iff.mp hne hc
        have hiff : (∃ x ∈ (aq :: rest).takeWhile AncestorLink.awaitsNs, x.cutName ≠ nsName) ↔
            ∃ x ∈ rest.takeWhile AncestorLink.awaitsNs, x.cutName ≠ nsName := by
          simp [List.takeWhile_cons_of_pos hw, hc]
        rw [markCycled, if_pos hw, if_neg (not_not.mpr hbw), ih]
        exact if_congr hiff.symm rfl rfl
      · have hbw := knotDnameInBailiwick_ne_zero_iff.mpr hc
        have hex : ∃ x ∈ (aq :: rest).takeWhile AncestorLink.awaitsNs, x.cutName ≠ nsName :=
          ⟨aq, by simp [List.takeWhile_cons_of_pos hw], Ne.symm hc⟩
        rw [markCycled, if_pos hw, if_pos hbw, if_pos hex]
    · simp [markCycled, hw, List.takeWhile_cons_of_neg hw]

/-! ## fetch_ns -/

/-- The number of addresses in the name servers' packs. -/
def addrCount (nsset : List (Dname × List (List UInt8))) : ℕ := (nsset.map fun p => p.2.length).sum

/-- An address as fetch_addr stores it for a name server: an RDATA of a fresh cached A RRset of
4 octets, or of a fresh cached AAAA RRset of 16. -/
def CachedAddr (cache : ZonecutCache) (ns : Dname) (x : List UInt8) : Prop :=
  ∃ t e, cache.addr ns t = some e ∧ e.fresh = true ∧ x ∈ e.rdata ∧
    ((t = RRType.a ∧ x.length = 4) ∨ (t = RRType.aaaa ∧ x.length = 16))

section FetchNs

variable {cache : ZonecutCache} {flags : AddrFlags} {links : List AncestorLink}

theorem cachedAddr_of_mem_fetchAddr {ns : Dname} {t : RRType} {b : ℤ} {x : List UInt8}
    (ht : t = RRType.a ∨ t = RRType.aaaa) (hx : x ∈ (fetchAddr cache flags ns t b).2.2) :
    CachedAddr cache ns x := by
  obtain ⟨e, he, hf, hmem, hlen⟩ := mem_fetchAddr hx
  refine ⟨t, e, he, hf, hmem, ?_⟩
  rcases ht with rfl | rfl
  · exact Or.inl ⟨rfl, by simpa using hlen⟩
  · exact Or.inr ⟨rfl, by rwa [if_neg (by decide)] at hlen⟩

/-- One round: the budget stays non-negative, the name server joins the packs with at most two
addresses beyond what it takes from the budget, all of them cached addresses of it. -/
theorem fetchNsRound_spec (st : NsLoop) (n : Dname) (hb : 0 ≤ st.budget) :
    let r := fetchNsRound cache flags links st n
    0 ≤ r.budget ∧ (addrCount r.nsset : ℤ) + r.budget ≤ addrCount st.nsset + st.budget + 2 ∧
      r.nsset.map Prod.fst = st.nsset.map Prod.fst ++ [n] ∧
      ∀ p ∈ r.nsset, p ∈ st.nsset ∨ (p.1 = n ∧ ∀ x ∈ p.2, CachedAddr cache n x) := by
  intro r
  obtain ⟨hb1, hl1⟩ := @fetchAddr_budget cache flags n RRType.a _ hb
  obtain ⟨hb2, hl2⟩ := @fetchAddr_budget cache flags n RRType.aaaa _ hb1
  -- every field but allBad is the same in both branches of the round
  have hfields : r.budget = (fetchAddr cache flags n RRType.aaaa
        (fetchAddr cache flags n RRType.a st.budget).2.1).2.1 ∧
      r.nsset = st.nsset ++ [(n, (fetchAddr cache flags n RRType.a st.budget).2.2 ++
        (fetchAddr cache flags n RRType.aaaa (fetchAddr cache flags n RRType.a st.budget).2.1).2.2)] := by
    simp only [r, fetchNsRound]
    split_ifs <;> exact ⟨rfl, rfl⟩
  rw [hfields.1, hfields.2]
  refine ⟨hb2, ?_, by simp, ?_⟩
  · simp only [addrCount, List.map_append, List.map_singleton, List.sum_append,
      List.sum_singleton, List.length_append]
    push_cast
    omega
  · intro p hp
    rcases List.mem_append.mp hp with hp | hp
    · exact Or.inl hp
    · right
      rw [List.mem_singleton.mp hp]
      refine ⟨rfl, fun x hx => ?_⟩
      rcases List.mem_append.mp hx with hx | hx
      · exact cachedAddr_of_mem_fetchAddr (Or.inl rfl) hx
      · exact cachedAddr_of_mem_fetchAddr (Or.inr rfl) hx

/-- The loop over the name servers: the run lemma of fetchNsRound_spec. -/
theorem foldl_fetchNsRound_spec (names : List Dname) (st : NsLoop) (hb : 0 ≤ st.budget) :
    let r := names.foldl (fetchNsRound cache flags links) st
    0 ≤ r.budget ∧ (addrCount r.nsset : ℤ) + r.budget ≤ addrCount st.nsset + st.budget + 2 * names.length ∧
      r.nsset.map Prod.fst = st.nsset.map Prod.fst ++ names ∧
      ∀ p ∈ r.nsset, p ∈ st.nsset ∨ ∀ x ∈ p.2, CachedAddr cache p.1 x := by
  induction names generalizing st with
  | nil => exact ⟨hb, by simp, by simp, fun p hp => Or.inl hp⟩
  | cons n names ih =>
    obtain ⟨hb1, hc1, hn1, hm1⟩ := @fetchNsRound_spec cache flags links st n hb
    obtain ⟨hb2, hc2, hn2, hm2⟩ := ih _ hb1
    refine ⟨hb2, ?_, ?_, ?_⟩
    · simp only [List.foldl_cons, List.length_cons] at hc2 ⊢
      push_cast
      omega
    · rw [List.foldl_cons, hn2, hn1, List.append_assoc, List.singleton_append]
    · intro p hp
      rw [List.foldl_cons] at hp
      rcases hm2 p hp with hp | hp
      · rcases hm1 p hp with hp | ⟨hpn, hx⟩
        · exact Or.inl hp
        · exact Or.inr (hpn ▸ hx)
      · exact Or.inr hp

end FetchNs


section FindCached

variable {cache : ZonecutCache} {flags : AddrFlags} {links : List AncestorLink}

/-- What fetch_ns keeps of a fresh cached NS RRset: its first 13 names, in order, each with
cached addresses only, at most two per name server plus the shared 8. -/
theorem fetchNs_nsset {name : Dname} {e : CachedEntry Dname} (he : cache.ns name = some e)
    (hf : e.fresh = true) :
    let r := fetchNs cache flags links name
    r.2.map Prod.fst = e.rdata.take 13 ∧ addrCount r.2 ≤ 2 * min 13 e.rdata.length + 8 ∧
      ∀ p ∈ r.2, ∀ x ∈ p.2, CachedAddr cache p.1 x := by
  intro r
  obtain ⟨hb, hc, hn, hm⟩ := @foldl_fetchNsRound_spec cache flags links (e.rdata.take 13)
    ⟨8, true, []⟩ (by decide)
  have hr : r.2 = ((e.rdata.take 13).foldl (fetchNsRound cache flags links) ⟨8, true, []⟩).nsset := by
    simp [r, fetchNs, he, hf]
  rw [hr]
  refine ⟨by simpa using hn, ?_, fun p hp => (hm p hp).resolve_left (by simp)⟩
  have h0 : addrCount [] = 0 := rfl
  simp only [h0, Nat.cast_zero, List.length_take] at hc
  omega

/-- fetch_ns answers 0 only for a name with a fresh cached NS RRset. -/
theorem cachedNs_of_fetchNs {name : Dname} (h : (fetchNs cache flags links name).1 = 0) :
    ∃ e, cache.ns name = some e ∧ e.fresh = true := by
  unfold fetchNs at h
  cases he : cache.ns name with
  | none => simp [he, krError, Errno.enoent] at h
  | some e =>
    by_cases hf : e.fresh
    · exact ⟨e, rfl, hf⟩
    · simp [he, hf, krError, Errno.estale] at h

/-- The climb: a result is the first name from the start, one label shorter each time, that
fetch_ns accepts; ENOENT comes when fetch_ns accepts none of them. -/
theorem findCachedLoop_spec (labels : List Label) :
    (∀ L ns, findCachedLoop cache flags links labels = .ok (L, ns) →
      ∃ k ≤ labels.length, L = ⟨labels.drop k⟩ ∧ fetchNs cache flags links L = (0, ns) ∧
        ∀ j < k, (fetchNs cache flags links ⟨labels.drop j⟩).1 ≠ 0) ∧
    (∀ e, findCachedLoop cache flags links labels = .error e →
      e = krError Errno.enoent ∧ ∀ j ≤ labels.length, (fetchNs cache flags links ⟨labels.drop j⟩).1 ≠ 0) := by
  induction labels with
  | nil =>
    refine ⟨fun L ns h => ⟨0, le_rfl, ?_⟩, fun e h => ?_⟩
    · simp only [findCachedLoop] at h
      split_ifs at h with h0
      cases h
      exact ⟨rfl, Prod.ext h0 rfl, fun j hj => absurd hj (Nat.not_lt_zero j)⟩
    · simp only [findCachedLoop] at h
      split_ifs at h with h0
      cases h
      refine ⟨rfl, fun j hj => ?_⟩
      rw [Nat.le_zero.mp hj]
      exact h0
  | cons l rest ih =>
    obtain ⟨ihok, iherr⟩ := ih
    refine ⟨fun L ns h => ?_, fun e h => ?_⟩
    · simp only [findCachedLoop] at h
      split_ifs at h with h0
      · cases h
        exact ⟨0, Nat.zero_le _, rfl, Prod.ext h0 rfl, fun j hj => absurd hj (Nat.not_lt_zero j)⟩
      · -- the name fails: the result comes from one label up
        obtain ⟨k, hk, rfl, hL, hbefore⟩ := ihok L ns h
        refine ⟨k + 1, by simp; omega, rfl, hL, fun j hj => ?_⟩
        cases j with
        | zero => exact h0
        | succ j => exact hbefore j (by omega)
    · simp only [findCachedLoop] at h
      split_ifs at h with h0
      obtain ⟨he, hall⟩ := iherr e h
      refine ⟨he, fun j hj => ?_⟩
      cases j with
      | zero => exact h0
      | succ j => exact hall j (by simp at hj; omega)

/-- kr_zonecut_find_cached: on success the cut is the deepest ancestor-or-self of the name that
fetch_ns accepts, a fresh cached NS RRset, with its first 13 name servers and their cached
addresses; otherwise ENOENT, and fetch_ns accepts no ancestor-or-self. -/
theorem krZonecutFindCached_spec (name : Dname) :
    (∀ L ns, krZonecutFindCached cache flags links name = .ok (L, ns) →
      ∃ k ≤ name.labels.length, L = ⟨name.labels.drop k⟩ ∧ L.IsAncestorOrSelf name ∧
        (∀ j < k, (fetchNs cache flags links ⟨name.labels.drop j⟩).1 ≠ 0) ∧
        ∃ e, cache.ns L = some e ∧ e.fresh = true ∧ ns.map Prod.fst = e.rdata.take 13 ∧
          addrCount ns ≤ 2 * min 13 e.rdata.length + 8 ∧
          ∀ p ∈ ns, ∀ x ∈ p.2, CachedAddr cache p.1 x) ∧
    (∀ err, krZonecutFindCached cache flags links name = .error err →
      err = krError Errno.enoent ∧
        ∀ j ≤ name.labels.length, (fetchNs cache flags links ⟨name.labels.drop j⟩).1 ≠ 0) := by
  obtain ⟨hok, herr⟩ := @findCachedLoop_spec cache flags links name.labels
  refine ⟨fun L ns h => ?_, herr⟩
  obtain ⟨k, hk, rfl, hfetch, hbefore⟩ := hok L ns h
  obtain ⟨e, he, hf⟩ := cachedNs_of_fetchNs (congrArg Prod.fst hfetch)
  obtain ⟨hnames, hcount, hcached⟩ := @fetchNs_nsset cache flags links _ e he hf
  rw [hfetch] at hnames hcount hcached
  exact ⟨k, hk, rfl, Dname.mk_drop_isAncestorOrSelf name k, hbefore, e, he, hf, hnames, hcount,
    hcached⟩

end FindCached


/-- The cut of "c." is served by "b." alone, with no cached addresses, while the parent query
waits for its own zone cut "a." (AWAIT_CUT, the query asking for NS). "b." is not below "a.",
yet knot_dname_in_bailiwick's -1 is taken as true: both address sets of "b." become AI_CYCLED,
fetch_ns answers ELOOP, and kr_zonecut_find_cached passes over the cut of "c." to the root,
where nothing is cached. -/
theorem fetchNs_cycles_outside_cut :
    let a : Dname := ⟨[⟨[97], by simp, by simp⟩]⟩
    let b : Dname := ⟨[⟨[98], by simp, by simp⟩]⟩
    let c : Dname := ⟨[⟨[99], by simp, by simp⟩]⟩
    let cache : ZonecutCache :=
      ⟨fun n => if n = c then some ⟨0, true, [b]⟩ else none, fun _ _ => none⟩
    let flags : AddrFlags := ⟨false, false, false⟩
    let links : List AncestorLink := [⟨RRType.ns, true, false, false, a⟩]
    ¬ a.IsAncestorOrSelf b ∧ markCycled b links (.unknown, .unknown) = (.cycled, .cycled) ∧
      fetchNs cache flags links c = (Errno.eloop, [(b, [])]) ∧
      krZonecutFindCached cache flags links c = .error (krError Errno.enoent) := by
  decide

end KnotResolver
