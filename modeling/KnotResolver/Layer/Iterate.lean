import KnotResolver.Layer.Validate

/-!
# The iterator layer

`lib/layer/iterate.c`, the consume side: how the iterator reads one upstream response.
`resolve` checks the packet; `process_authority` follows a referral by moving the query's zone
cut (`update_cut`, with the glue of `fetch_glue`); `unroll_cname` selects the answer along the
CNAME chain and `pick_authority` the authority section, into the request's three ranked
arrays that the validator and the cache read next.

The response is read-only but for its AA bit, which the iterator sets and clears to tell the
later layers how it judged the packet. A zone cut keeps the cut it was entered from as
`parent`, the pointer `update_cut` sets.
-/

namespace KnotResolver

/-! ## Constants -/

-- `enum kr_layer_state`. The iterator's functions return these, `kr_ok()` and error codes in
-- one `int`.
namespace LayerState

def consume : ℤ := 1
def produce : ℤ := 2
def done : ℤ := 4
def fail : ℤ := 8

end LayerState

namespace Rcode

def noerror : UInt16 := 0
def formerr : UInt16 := 1
def servfail : UInt16 := 2
def nxdomain : UInt16 := 3
def notimpl : UInt16 := 4
def refused : UInt16 := 5
def yxdomain : UInt16 := 6

end Rcode

namespace Pkt

def refused : ℕ := 8
def error : ℕ := 16

end Pkt

/-- `KNOT_WIRE_HEADER_SIZE`. -/
def knotWireHeaderSize : ℕ := 12

/-- `KR_CNAME_CHAIN_LIMIT`. -/
def krCnameChainLimit : ℕ := 13

/-- `GLUE_COUNT_THROTTLE`. -/
def glueCountThrottle : ℕ := 26

/-! ## Packets, zone cuts and queries -/

/-- A response as the iterator reads it: the header fields it tests, the question, and the
sections with their RRs as the packet parser gives them. `cachedRank` is the rank that a packet
built from the cache attaches to an RR (`rr->additional`). -/
structure Packet where
  id : UInt16
  qdcount : ℕ
  qname : Dname
  qclass : UInt16
  qtype : RRType
  aa : Bool
  tc : Bool
  rcode : UInt16
  parsed : ℕ
  size : ℕ
  answer : List RRset
  authority : List RRset
  additional : List RRset
  cachedRank : RRset → Option UInt8 := fun _ => none

/-- `knot_section_t`, in the order `kr_request_selected` lists the ranked arrays. -/
inductive Section
  | answer
  | authority
  | additional
  deriving DecidableEq

/-- `knot_pkt_section`. -/
def Packet.section (pkt : Packet) : Section → List RRset
  | .answer => pkt.answer
  | .authority => pkt.authority
  | .additional => pkt.additional

/-- `kr_response_classify`. -/
def krResponseClassify (pkt : Packet) : ℕ :=
  if pkt.rcode = Rcode.noerror then (if pkt.answer.length = 0 then Pkt.nodata else Pkt.noerror)
  else if pkt.rcode = Rcode.nxdomain then Pkt.nxdomain
  else if pkt.rcode = Rcode.refused then Pkt.refused
  else Pkt.error

/-- `struct kr_zonecut`: the cut's name, its DNSKEY and trust anchor, the cut it was entered
from, and the name servers with the addresses known for each (`nsset`). -/
structure ZoneCut where
  name : Dname
  key : Option RRset := none
  trustAnchor : Option RRset := none
  parent : Option ZoneCut := none
  nsset : List (Dname × List (List UInt8)) := []

/-- The flags of `struct kr_qflags` that the iterator reads or sets. -/
structure QueryFlags where
  stub : Bool := false
  forward : Bool := false
  cached : Bool := false
  strict : Bool := false
  permissive : Bool := false
  dnssecWant : Bool := false
  dnssecWexpand : Bool := false
  resolved : Bool := false
  badcookieAgain : Bool := false
  pktIsSane : Bool := false
  noMinimize : Bool := false
  cname : Bool := false
  allowLocal : Bool := false
  nonauth : Bool := false
  cacheTried : Bool := false
  awaitCut : Bool := false
  trace : Bool := false
  alwaysCut : Bool := false
  deriving DecidableEq

/-- A query of a CNAME chain as its followers see it through `cname_parent`. -/
structure CnameLink where
  sclass : UInt16
  stype : RRType
  sname : Dname
  cnameDepth : ℕ

/-- `struct kr_query`, the fields the iterator uses. `cnameParents` is the `cname_parent`
chain, nearest first. -/
structure KrQuery where
  uid : UInt32
  id : UInt16
  sname : Dname
  stype : RRType
  sclass : UInt16
  flags : QueryFlags
  zoneCut : ZoneCut
  cnameDepth : ℕ := 0
  cnameParents : List CnameLink := []

/-- The query's `parent`, for the addresses that a sub-query's answer gives its zone cut. -/
structure IterParent where
  zoneCut : ZoneCut
  allowLocal : Bool

/-- A query `kr_rplan_push` adds to follow a CNAME. -/
structure PlannedQuery where
  sname : Dname
  sclass : UInt16
  stype : RRType
  flags : QueryFlags
  cnameParents : List CnameLink
  forwardCname : Bool

/-- What the iterator reads from the resolver context and the request: the flags a new query
starts with (`req->options`), the address families switched off, the trust anchors, the cache's
TTL bounds, and whether the response came over UDP. -/
structure IterCtx where
  options : QueryFlags
  noIpv4 : Bool
  noIpv6 : Bool
  tas : TrustAnchors
  ttlMin : UInt32
  ttlMax : UInt32
  transportUdp : Bool

/-- The state one `resolve` call works on: the current query and its parent, the request's
ranked arrays, the answer's RCODE once the request has an answer, the request's state, the
queries planned, and the response. -/
structure IterState where
  qry : KrQuery
  parent : Option IterParent
  answSelected : List RankedEntry
  authSelected : List RankedEntry
  addSelected : List RankedEntry
  answerRcode : Option UInt16 := none
  reqState : ℤ := 0
  pushed : List PlannedQuery := []
  pkt : Packet

namespace IterState

/-- `kr_request_selected(req)[sec]`. -/
def selected (st : IterState) : Section → List RankedEntry
  | .answer => st.answSelected
  | .authority => st.authSelected
  | .additional => st.addSelected

def setSelected (st : IterState) : Section → List RankedEntry → IterState
  | .answer, arr => { st with answSelected := arr }
  | .authority, arr => { st with authSelected := arr }
  | .additional, arr => { st with addSelected := arr }

def setFlags (st : IterState) (flags : QueryFlags) : IterState :=
  { st with qry := { st.qry with flags } }

def setZoneCut (st : IterState) (zoneCut : ZoneCut) : IterState :=
  { st with qry := { st.qry with zoneCut } }

def setAa (st : IterState) (aa : Bool) : IterState :=
  { st with pkt := { st.pkt with aa } }

@[simp] theorem selected_setSelected_self (st : IterState) (sec : Section)
    (arr : List RankedEntry) : (st.setSelected sec arr).selected sec = arr := by
  cases sec <;> rfl

@[simp] theorem selected_setSelected_of_ne (st : IterState) {sec sec' : Section}
    (h : sec' ≠ sec) (arr : List RankedEntry) : (st.setSelected sec arr).selected sec' =
      st.selected sec' := by
  cases sec <;> cases sec' <;> first | rfl | exact absurd rfl h

@[simp] theorem qry_setSelected (st : IterState) (sec : Section) (arr : List RankedEntry) :
    (st.setSelected sec arr).qry = st.qry := by
  cases sec <;> rfl

@[simp] theorem pkt_setSelected (st : IterState) (sec : Section) (arr : List RankedEntry) :
    (st.setSelected sec arr).pkt = st.pkt := by
  cases sec <;> rfl

@[simp] theorem parent_setSelected (st : IterState) (sec : Section) (arr : List RankedEntry) :
    (st.setSelected sec arr).parent = st.parent := by
  cases sec <;> rfl

@[simp] theorem qry_setFlags (st : IterState) (flags : QueryFlags) :
    (st.setFlags flags).qry = { st.qry with flags } := rfl

@[simp] theorem selected_setFlags (st : IterState) (flags : QueryFlags) (sec : Section) :
    (st.setFlags flags).selected sec = st.selected sec := by
  cases sec <;> rfl

@[simp] theorem pkt_setFlags (st : IterState) (flags : QueryFlags) :
    (st.setFlags flags).pkt = st.pkt := rfl

@[simp] theorem qry_setZoneCut (st : IterState) (zoneCut : ZoneCut) :
    (st.setZoneCut zoneCut).qry = { st.qry with zoneCut } := rfl

@[simp] theorem selected_setZoneCut (st : IterState) (zoneCut : ZoneCut) (sec : Section) :
    (st.setZoneCut zoneCut).selected sec = st.selected sec := by
  cases sec <;> rfl

@[simp] theorem pkt_setZoneCut (st : IterState) (zoneCut : ZoneCut) :
    (st.setZoneCut zoneCut).pkt = st.pkt := rfl

@[simp] theorem selected_setAa (st : IterState) (aa : Bool) (sec : Section) :
    (st.setAa aa).selected sec = st.selected sec := by
  cases sec <;> rfl

@[simp] theorem qry_setAa (st : IterState) (aa : Bool) : (st.setAa aa).qry = st.qry := rfl

end IterState

/-! ## Ranked arrays: `kr_ranked_rrarray_add` of `lib/utils.c` -/

/-- `kr_rrset_type_maysig`: the type an RRSIG covers, otherwise the RR's own type. -/
def krRrsetTypeMaysig (rr : RRset) : RRType :=
  if rr.type = RRType.rrsig then knotRrsigTypeCovered rr.first else rr.type

/-- `rrsets_match`: one RRset by owner, class and type, RRSIGs also by the type covered. -/
def rrsetsMatch (rr1 rr2 : RRset) : Bool :=
  rr1.type == rr2.type && rr1.rclass == rr2.rclass &&
    (rr2.type != RRType.rrsig ||
      knotRrsigTypeCovered rr1.first == knotRrsigTypeCovered rr2.first) &&
    rr1.owner == rr2.owner

/-- The records of `b` appended to `a`, which the array's entry collects until
`kr_ranked_rrarray_finalize`; `rrsets_match` has checked the types agree. -/
def RRset.addRdata (a b : RRset) : RRset :=
  if h : b.type = a.type then
    { a with
      rdata := a.rdata ++ b.rdata
      rdata_ne_nil := by simp [a.rdata_ne_nil]
      rdata_fit := by
        intro r hr
        rcases List.mem_append.mp hr with hr | hr
        · exact a.rdata_fit r hr
        · exact h ▸ b.rdata_fit r hr }
  else a

/-- `to_wire_ensure_unique`: entries of other queries that would form the same RRset on the
wire lose their `to_wire`. -/
def toWireEnsureUnique (array : List RankedEntry) (index : ℕ) : List RankedEntry :=
  match array[index]? with
  | none => array
  | some e0 =>
    if !e0.toWire then array
    else array.map fun ei =>
      if ei.qryUid = e0.qryUid ∨ !ei.toWire then ei
      else if rrsetsMatch ei.rr e0.rr then { ei with toWire := false } else ei

/-- The backward search of `kr_ranked_rrarray_add` over the indexed entries, last first: the
entry of query `qryUid` to merge `rr` into. It stops at a yielded entry or at another query's. -/
def mergeCandidate (rr : RRset) (qryUid : UInt32) :
    List (RankedEntry × ℕ) → Option (RankedEntry × ℕ)
  | [] => none
  | (e, i) :: rest =>
    if e.yielded then none
    else if e.qryUid ≠ qryUid then none
    else if rrsetsMatch e.rr rr then some (e, i)
    else mergeCandidate rr qryUid rest

/-- `kr_ranked_rrarray_add`: merge `rr` into the matching entry of the same query, which must
carry the same rank and still be in progress, or append a new entry. Returns the index of the
entry, or `kr_error(EEXIST)`. -/
def krRankedRrarrayAdd (array : List RankedEntry) (rr : RRset) (rank : UInt8) (toWire : Bool)
    (qryUid : UInt32) : ℤ × List RankedEntry :=
  match mergeCandidate rr qryUid array.zipIdx.reverse with
  | some (e, i) =>
    if ¬(e.rank = rank ∧ e.cached = false ∧ e.inProgress = true) then
      (krError Errno.eexist, array)
    else (i, array.set i { e with toWire := e.toWire || toWire, rr := e.rr.addRdata rr })
  | none =>
    let entry : RankedEntry := { rr, rank, qryUid, toWire, inProgress := true }
    (array.length, toWireEnsureUnique (array ++ [entry]) array.length)

/-- `kr_ranked_rrarray_finalize`: the query's entries stop collecting records. The canonical
sort of their records, and the removal of duplicates, are not modelled. -/
def krRankedRrarrayFinalize (array : List RankedEntry) (qryUid : UInt32) : List RankedEntry :=
  array.map fun e =>
    if e.qryUid = qryUid ∧ e.inProgress = true then { e with inProgress := false } else e

/-- `bound_ttls`: the query's RRsets get TTLs within the cache's bounds. -/
def boundTtls (array : List RankedEntry) (qryUid : UInt32) (ttlMin ttlMax : UInt32) :
    List RankedEntry :=
  array.map fun e =>
    if e.qryUid ≠ qryUid then e
    else
      let ttl := if e.rr.ttl < ttlMin then ttlMin else if e.rr.ttl > ttlMax then ttlMax
        else e.rr.ttl
      { e with rr := { e.rr with ttl } }

namespace IterState

/-- `kr_ranked_rrarray_add` on one of the request's arrays, for the current query. -/
def addRr (st : IterState) (sec : Section) (rr : RRset) (rank : UInt8) (toWire : Bool) :
    ℤ × IterState :=
  let (ret, arr) := krRankedRrarrayAdd (st.selected sec) rr rank toWire st.qry.uid
  (ret, st.setSelected sec arr)

@[simp] theorem qry_addRr (st : IterState) (sec : Section) (rr : RRset) (rank : UInt8)
    (toWire : Bool) : (st.addRr sec rr rank toWire).2.qry = st.qry := by
  simp [addRr]

@[simp] theorem pkt_addRr (st : IterState) (sec : Section) (rr : RRset) (rank : UInt8)
    (toWire : Bool) : (st.addRr sec rr rank toWire).2.pkt = st.pkt := by
  simp [addRr]

@[simp] theorem parent_addRr (st : IterState) (sec : Section) (rr : RRset) (rank : UInt8)
    (toWire : Bool) : (st.addRr sec rr rank toWire).2.parent = st.parent := by
  simp [addRr]

end IterState

/-! ## Name servers and glue -/

/-- `kr_zonecut_add`: the name server, with the address if one is given and new. -/
def nssetAdd (ns : Dname) (addr : Option (List UInt8)) :
    List (Dname × List (List UInt8)) → List (Dname × List (List UInt8))
  | [] => [(ns, addr.toList)]
  | (n, pack) :: rest =>
    if n = ns then
      (n, match addr with
        | some a => if a ∈ pack then pack else pack ++ [a]
        | none => pack) :: rest
    else (n, pack) :: nssetAdd ns addr rest

def krZonecutAdd (cut : ZoneCut) (ns : Dname) (addr : Option (List UInt8)) : ZoneCut :=
  { cut with nsset := nssetAdd ns addr cut.nsset }

/-- `knot_ns_name`. -/
def knotNsName : Rdata → Dname
  | .name target => target
  | _ => Dname.root

/-- The octets of an A or AAAA record. -/
def rdataRaw : Rdata → List UInt8
  | .raw data => data
  | _ => []

/-- `is_valid_addr`: neither the unspecified address nor a loopback one. -/
def isValidAddr (addr : List UInt8) : Bool :=
  if addr.length = 4 then !(addr.all (· == 0) || addr.head? == some 0x7f)
  else if addr.length = 16 then
    if (addr.take 15).all (· == 0) then decide (addr.getD 15 0 > 1) else true
  else true

/-- `update_nsaddr`: an A or AAAA record gives its owner's name server an address. Returns the
state and the glue count. -/
def updateNsaddr (rr : RRset) (cut : ZoneCut) (allowLocal : Bool) (glueCnt : ℕ) :
    ℤ × ZoneCut × ℕ :=
  if rr.type = RRType.a ∨ rr.type = RRType.aaaa then
    let data := rdataRaw rr.first
    let aLen := if rr.type = RRType.a then 4 else 16
    if aLen ≠ data.length then (LayerState.fail, cut, glueCnt)
    else if !allowLocal && !isValidAddr data then (LayerState.consume, cut, glueCnt)
    else (LayerState.consume, krZonecutAdd cut rr.owner (some data), glueCnt + 1)
  else (LayerState.consume, cut, glueCnt)

/-- One section of `fetch_glue`: the A and AAAA records of `ns` go to the section's array,
ranked for validation only when the name server is in bailiwick and the record answers. -/
def fetchGlueSection (ctx : IterCtx) (sec : Section) (ns : Dname) (inBailiwick : Bool) :
    List RRset → IterState × ℕ → IterState × ℕ
  | [], acc => acc
  | rr :: rrs, (st, glueCnt) =>
    if rr.owner ≠ ns then fetchGlueSection ctx sec ns inBailiwick rrs (st, glueCnt)
    else if rr.type ≠ RRType.a ∧ rr.type ≠ RRType.aaaa then
      fetchGlueSection ctx sec ns inBailiwick rrs (st, glueCnt)
    else
      let rank := if inBailiwick ∧ sec = .answer then Rank.initial ||| Rank.auth else Rank.omit_
      let st := (st.addRr sec rr rank false).2
      if rr.type = RRType.a ∧ ctx.noIpv4 then
        fetchGlueSection ctx sec ns inBailiwick rrs (st, glueCnt)
      else if rr.type = RRType.aaaa ∧ ctx.noIpv6 then
        fetchGlueSection ctx sec ns inBailiwick rrs (st, glueCnt)
      else
        let (_, cut, glueCnt) := updateNsaddr rr st.qry.zoneCut st.qry.flags.allowLocal glueCnt
        let st := st.setZoneCut cut
        -- past the limit only the first address of each name server is loaded
        if glueCnt > glueCountThrottle then (st, glueCnt)
        else fetchGlueSection ctx sec ns inBailiwick rrs (st, glueCnt)

/-- `fetch_glue`: the glue for `ns` from the answer, authority and additional sections. -/
def fetchGlue (ctx : IterCtx) (pkt : Packet) (ns : Dname) (inBailiwick : Bool)
    (acc : IterState × ℕ) : IterState × ℕ :=
  let acc := fetchGlueSection ctx .answer ns inBailiwick pkt.answer acc
  let acc := fetchGlueSection ctx .authority ns inBailiwick pkt.authority acc
  fetchGlueSection ctx .additional ns inBailiwick pkt.additional acc

/-- `has_glue`. -/
def hasGlue (pkt : Packet) (ns : Dname) : Bool :=
  (pkt.answer ++ pkt.authority ++ pkt.additional).any fun rr =>
    rr.owner = ns ∧ (rr.type = RRType.a ∨ rr.type = RRType.aaaa)

/-- The name server loop of `update_cut`. -/
def updateCutNs (ctx : IterCtx) (rr : RRset) (currentCut : Dname) :
    List Rdata → IterState × ℕ → IterState × ℕ
  | [], acc => acc
  | rd :: rds, (st, glueCnt) =>
    let nsName := knotNsName rd
    -- glue is mandatory for a name server below the zone
    if knotDnameInBailiwick nsName rr.owner ≥ 0 ∧ !hasGlue st.pkt nsName then
      updateCutNs ctx rr currentCut rds (st, glueCnt)
    else
      let st := st.setZoneCut (krZonecutAdd st.qry.zoneCut nsName none)
      let inBailiwick := decide (knotDnameInBailiwick nsName currentCut ≥ 0)
      let doFetch :=
        if st.qry.flags.permissive then true
        else if st.qry.flags.strict then
          decide (knotDnameInBailiwick nsName st.qry.zoneCut.name ≥ 0)
        else inBailiwick
      let acc := if doFetch then fetchGlue ctx st.pkt nsName inBailiwick (st, glueCnt)
        else (st, glueCnt)
      updateCutNs ctx rr currentCut rds acc

/-- `update_cut`: an NS RRset at or below the cut before the packet, and at or above the query
name, becomes the cut, which remembers the one it left as `parent`. Returns `KR_STATE_DONE`
when the cut's name changes. -/
def updateCut (ctx : IterCtx) (rr : RRset) (currentCut : Dname) (st : IterState)
    (glueCnt : ℕ) : ℤ × IterState × ℕ :=
  if ¬(knotDnameInBailiwick rr.owner currentCut ≥ 0 ∧
      knotDnameInBailiwick st.qry.sname rr.owner ≥ 0) then
    -- out of bailiwick: ignored in an authoritative answer, a failure in a referral
    (if st.pkt.answer.length = 0 then LayerState.fail else LayerState.consume, st, glueCnt)
  else
    let cut := st.qry.zoneCut
    let (state, st) :=
      if rr.owner ≠ cut.name then
        (LayerState.done, st.setZoneCut
          { name := rr.owner, key := cut.key, trustAnchor := cut.trustAnchor, parent := some cut })
      else (LayerState.consume, st)
    let (st, glueCnt) := updateCutNs ctx rr currentCut rr.rdata (st, glueCnt)
    (state, st, glueCnt)

/-! ## The authority section -/

/-- `get_initial_rank`. Its last argument, whether the records come from a referral or a
forwarder, is not read. -/
def getInitialRank (pkt : Packet) (rr : RRset) (qry : KrQuery) (answer : Bool)
    (_isNonauth : Bool) : UInt8 :=
  let type := krRrsetTypeMaysig rr
  if qry.flags.cached then (pkt.cachedRank rr).getD Rank.omit_
  else if answer ∨ type = RRType.ds ∨ type = RRType.soa ∨ type = RRType.nsec ∨
      type = RRType.nsec3 then Rank.initial ||| Rank.auth
  else Rank.try_

/-- The loop of `pick_authority` over the authority section. -/
def pickAuthorityLoop (zonecutName : Dname) (referral toWire : Bool) :
    List RRset → IterState → ℤ × IterState
  | [], st => (krOk, st)
  | rr :: rrs, st =>
    if rr.rclass ≠ classIn ∨ knotDnameInBailiwick rr.owner zonecutName < 0 then
      pickAuthorityLoop zonecutName referral toWire rrs st
    else
      let rank := getInitialRank st.pkt rr st.qry false (st.qry.flags.forward || referral)
      let (ret, st) := st.addRr .authority rr rank toWire
      if ret < 0 then (ret, st) else pickAuthorityLoop zonecutName referral toWire rrs st

/-- `pick_authority`: the authority records in bailiwick go to `auth_selected`. For a referral,
whose cut `process_authority` has already moved, the bailiwick is the parent cut's name. -/
def pickAuthority (st : IterState) (toWire : Bool) : ℤ × IterState :=
  let referral := !st.pkt.aa
  let zonecutName :=
    if referral then (st.qry.zoneCut.parent.map ZoneCut.name).getD st.qry.zoneCut.name
    else st.qry.zoneCut.name
  pickAuthorityLoop zonecutName referral (if referral then false else toWire) st.pkt.authority st

/-- The two workarounds at the start of `process_authority`: servers that send a CNAME with
another delegation and no AA, and servers authoritative for both parent and child that mix the
two zones in one answer. -/
def skipsAuthority (pkt : Packet) (qry : KrQuery) : Bool :=
  match pkt.answer with
  | rr :: _ => pkt.authority ≠ [] ∧
      (rr.type = RRType.cname ∨ (pkt.aa ∧ rr.type = qry.stype ∧ rr.owner = qry.sname))
  | [] => false

/-- The authority loop of `process_authority`: `.error` is its early return of
`KR_STATE_FAIL`; otherwise the result, whether an NS RRset was seen, and the state. -/
def processAuthorityLoop (ctx : IterCtx) (currentZoneCut : Dname) :
    List RRset → ℤ → Bool → ℕ → ℕ → IterState → Except IterState (ℤ × Bool × IterState)
  | [], result, nsRecordExists, _, _, st => .ok (result, nsRecordExists, st)
  | rr :: rrs, result, nsRecordExists, glueCnt, nsCount, st =>
    if rr.type = RRType.ns then
      let (state, st, glueCnt) := updateCut ctx rr currentZoneCut st glueCnt
      if state = LayerState.fail then .error st
      else
        let result := if state = LayerState.done then state else result
        if nsCount + 1 ≥ 13 then .ok (result, true, st)
        else processAuthorityLoop ctx currentZoneCut rrs result true glueCnt (nsCount + 1) st
    -- an SOA below the cut: another authority with the same NS set
    else if rr.type = RRType.soa ∧ knotDnameInBailiwick rr.owner st.qry.zoneCut.name > 0 then
      processAuthorityLoop ctx currentZoneCut rrs result nsRecordExists glueCnt nsCount
        (st.setZoneCut { st.qry.zoneCut with name := rr.owner })
    else processAuthorityLoop ctx currentZoneCut rrs result nsRecordExists glueCnt nsCount st

/-- The cut name after the answer-section NS workaround of `process_authority`: a server
authoritative for both sides of a delegation answers with the child's NS. -/
def answerNsCut (sname : Dname) : List RRset → Dname → Dname
  | [], cut => cut
  | rr :: rrs, cut =>
    if rr.type = RRType.ns ∧ knotDnameInBailiwick rr.owner cut > 0 ∧
        knotDnameInBailiwick sname rr.owner ≥ 0 then answerNsCut sname rrs rr.owner
    else answerNsCut sname rrs cut

/-- `process_authority`: `KR_STATE_DONE` for a referral, `KR_STATE_CONSUME` for an answer. -/
def processAuthority (ctx : IterCtx) (st : IterState) : ℤ × IterState :=
  if st.qry.flags.stub then (LayerState.fail, st)
  else if st.qry.flags.forward then (LayerState.consume, st)
  else if skipsAuthority st.pkt st.qry then (LayerState.consume, st)
  else
    match processAuthorityLoop ctx st.qry.zoneCut.name st.pkt.authority LayerState.consume
      false 0 0 st with
    | .error st => (LayerState.fail, st)
    | .ok (result, nsRecordExists, st) =>
      let st := if !nsRecordExists && st.pkt.aa then
          st.setZoneCut
            { st.qry.zoneCut with name := answerNsCut st.qry.sname st.pkt.answer st.qry.zoneCut.name }
        else st
      -- an unhelpful referral must not be validated as an authoritative answer
      let result := if st.qry.flags.dnssecWant ∧ result = LayerState.consume ∧
          st.pkt.aa = false ∧ st.pkt.answer.length = 0 ∧ nsRecordExists then LayerState.done
        else result
      (result, st)

/-! ## The answer section: `unroll_cname` -/

/-- What the scan of the answer section in one round of `unroll_cname` carries: the index of
the last record selected for the current name, whether a DNAME occludes it, and the CNAME
target found. -/
structure UnrollScan where
  st : IterState
  answSelectedI : Option ℕ := none
  occluded : Bool := false
  pending : Option Dname := none

/-- The DNAME branch of the scan: a DNAME above the current name is selected and occludes the
name's CNAME. -/
def unrollDname (referral toWire : Bool) (cname : Dname) (rr : RRset) (allOK : Bool)
    (acc : UnrollScan) : Except (ℤ × IterState) UnrollScan :=
  if !allOK ∧ krRrsetTypeMaysig rr = RRType.dname ∧ knotDnameInBailiwick cname rr.owner ≥ 1 then
    let rank := getInitialRank acc.st.pkt rr acc.st.qry true (acc.st.qry.flags.forward || referral)
    let (ret, st) := acc.st.addRr .answer rr rank toWire
    if ret < 0 then .error (LayerState.fail, st) else .ok { acc with st, occluded := true }
  else .ok acc

/-- A record of the current name is selected: a sub-query's answer also gives its parent's cut
an address, and a CNAME names the next target. -/
def unrollSelect (referral toWire : Bool) (rr : RRset) (acc : UnrollScan) :
    Except (ℤ × IterState) UnrollScan :=
  let st := acc.st
  let parentStep : Except (ℤ × IterState) IterState :=
    match st.parent with
    | none => .ok st
    | some p =>
      let (state, cut, _) := updateNsaddr rr p.zoneCut p.allowLocal 0
      -- `update_nsaddr` returns FAIL or CONSUME, so `state & KR_STATE_FAIL` is this test
      if state = LayerState.fail then .error (state, st)
      else .ok { st with parent := some { p with zoneCut := cut } }
  match parentStep with
  | .error e => .error e
  | .ok st =>
    let rank := getInitialRank st.pkt rr st.qry true (st.qry.flags.forward || referral)
    let (ret, st) := st.addRr .answer rr rank toWire
    if ret < 0 then .error (LayerState.fail, st)
    else
      let pending := if st.qry.stype ≠ RRType.cname ∧ rr.type = RRType.cname then
          some (knotCnameName rr) else acc.pending
      .ok { acc with st, answSelectedI := some ret.toNat, pending }

/-- The scan of the answer section for the records of `cname`. -/
def unrollCnameScan (referral : Bool) (cname : Dname) (cnameLabels : ℕ) :
    List RRset → UnrollScan → Except (ℤ × IterState) UnrollScan
  | [], acc => .ok acc
  | rr :: rrs, acc =>
    let query := acc.st.qry
    let type := krRrsetTypeMaysig rr
    let typeOK := rr.type = query.stype ∨ type = query.stype ∨ type = RRType.cname
    if rr.rclass ≠ classIn ∨ knotDnameInBailiwick rr.owner query.zoneCut.name < 0 then
      unrollCnameScan referral cname cnameLabels rrs acc
    else
      let allOK := decide (typeOK ∧ rr.owner = cname)
      let toWire := acc.st.parent.isNone && !referral
      match unrollDname referral toWire cname rr allOK acc with
      | .error e => .error e
      | .ok acc =>
        if !allOK then unrollCnameScan referral cname cnameLabels rrs acc
        -- an RRSIG with more labels than its owner is clearly wrong; the validator judges it
        else if rr.type = RRType.rrsig ∧ (knotRrsigLabels rr.first).toNat > cnameLabels then
          unrollCnameScan referral cname cnameLabels rrs acc
        else
          let acc := if rr.type = RRType.rrsig ∧ (knotRrsigLabels rr.first).toNat < cnameLabels
            then { acc with st := acc.st.setFlags { acc.st.qry.flags with dnssecWexpand := true } }
            else acc
          match unrollSelect referral toWire rr acc with
          | .error e => .error e
          | .ok acc => unrollCnameScan referral cname cnameLabels rrs acc

/-- `dont_cache` on the entry at `i` of `answ_selected`. -/
def setDontCache (arr : List RankedEntry) : Option ℕ → List RankedEntry
  | some i => arr.modify i fun e => { e with dontCache := true }
  | none => arr

/-- The record last selected at an occluded name is not cached: the DNAME above synthesizes
it. -/
def UnrollScan.markOccluded (acc : UnrollScan) : IterState :=
  if acc.occluded then
    { acc.st with answSelected := setDontCache acc.st.answSelected acc.answSelectedI }
  else acc.st

def IterState.setCnameDepth (st : IterState) (cnameDepth : ℕ) : IterState :=
  { st with qry := { st.qry with cnameDepth } }

/-- The rounds of `unroll_cname`, one per name of the chain. A round ends the walk unless the
next name is in bailiwick and replaces a single label. The C loop is bounded by the depth check
alone; the depth grows by one a round from at least 1, so the `KR_CNAME_CHAIN_LIMIT + 1`
rounds of fuel `unroll_cname` gives are as many as that check lets through. -/
def unrollCnameLoop (referral : Bool) : ℕ → Dname → IterState → ℤ × Dname × IterState
  | 0, cname, st => (LayerState.fail, cname, st)
  | fuel + 1, cname, st =>
    let cnameLabels := knotDnameLabels cname
    match unrollCnameScan referral cname cnameLabels st.pkt.answer { st } with
    | .error (ret, st) => (ret, cname, st)
    | .ok acc =>
      match acc.pending with
      | none => (krOk, cname, acc.st)
      | some pending =>
        let st := acc.markOccluded
        let depth := st.qry.cnameDepth + 1
        let st := st.setCnameDepth depth
        if depth > krCnameChainLimit then (LayerState.fail, cname, st)
        else if cname = pending then (LayerState.fail, cname, st)
        -- strict mode fetches each target explicitly
        else if st.qry.flags.strict then (krOk, pending, st)
        -- information outside bailiwick is not trusted
        else if knotDnameInBailiwick pending st.qry.zoneCut.name < 0 then (krOk, pending, st)
        -- the validator follows only a target that replaces a single label
        else if knotDnameLabels pending ≠ cnameLabels then (krOk, pending, st)
        else if (knotDnameMatchedLabels pending cname : ℤ) ≠ (cnameLabels : ℤ) - 1 ∨
            st.qry.flags.forward then (krOk, pending, st)
        else unrollCnameLoop referral fuel pending st

/-- `unroll_cname`: the answer records along the CNAME chain from the query name. Returns the
status and the name the walk stopped at (`cname_ret`). -/
def unrollCname (st : IterState) (referral : Bool) : ℤ × Dname × IterState :=
  if st.qry.flags.stub then (LayerState.fail, st.qry.sname, st)
  else
    let depth := match st.qry.cnameParents with
      | p :: _ => p.cnameDepth
      | [] => 1
    unrollCnameLoop referral (krCnameChainLimit + 1) st.qry.sname (st.setCnameDepth depth)

/-! ## Answers and referrals -/

/-- `finalize_answer`. -/
def finalizeAnswer (st : IterState) : ℤ × IterState :=
  (LayerState.done, { st with answerRcode := some st.pkt.rcode, reqState := LayerState.done })

/-- `process_referral_answer`. -/
def processReferralAnswer (st : IterState) : ℤ × IterState :=
  let (state, _, st) := unrollCname st true
  if state ≠ krOk then (LayerState.fail, st)
  else
    -- not an authoritative answer for the other layers, nor for the packet cache
    let st := if !st.qry.flags.cached then st.setAa false else st
    let (state, st) := pickAuthority st false
    (if state = krOk then LayerState.done else LayerState.fail, st)

/-- The entry at `i` moved to the end of the array and put on the wire. -/
def relocateToWire (arr : List RankedEntry) (i : ℕ) (e : RankedEntry) : List RankedEntry :=
  arr.eraseIdx i ++ [{ e with toWire := true }]

/-- `process_final`: the final query's answer for the CNAME target is already selected. -/
def processFinal (st : IterState) (cname : Dname) : ℤ × IterState :=
  let pktClass := krResponseClassify st.pkt
  match st.answSelected.findIdx? (fun e => e.rr.owner = cname ∧ e.rr.rclass = st.qry.sclass ∧
      e.rr.type = st.qry.stype) with
  | none => (krOk, st)
  | some i =>
    let toWire := pktClass &&& (Pkt.nxdomain ||| Pkt.nodata) ≠ 0
    let (state, st) := pickAuthority st toWire
    if state ≠ krOk then (LayerState.fail, st)
    else
      match st.answSelected[i]? with
      | some e =>
        if !e.toWire then finalizeAnswer { st with answSelected := relocateToWire st.answSelected i e }
        else finalizeAnswer st
      | none => finalizeAnswer st

/-- `is_authoritative`. -/
def isAuthoritative (pkt : Packet) (query : KrQuery) : Bool :=
  pkt.aa ||
    pkt.authority.any (fun rr => rr.type = RRType.soa ∧
      knotDnameInBailiwick rr.owner query.zoneCut.name ≥ 0) ||
    -- the zone cut is at the QNAME: a last resort for broken servers
    decide (query.zoneCut.name = pkt.qname) ||
    query.flags.permissive

/-- The CNAME target becomes a new query, unless it repeats one of the chain. -/
def followCname (ctx : IterCtx) (cname : Dname) (st : IterState) : ℤ × IterState :=
  let query := st.qry
  if query.cnameParents.any (fun q => q.sclass = query.sclass ∧ q.stype = query.stype ∧
      q.sname = cname) then (LayerState.fail, st)
  else
    let next : PlannedQuery :=
      { sname := cname
        sclass := query.sclass
        stype := query.stype
        flags := { ctx.options with
          awaitCut := true
          trace := query.flags.trace
          alwaysCut := query.flags.alwaysCut
          noMinimize := ctx.options.noMinimize
          -- DNSSEC only where a trust anchor covers the target
          dnssecWant := (krTaClosest ctx.tas cname query.stype).isSome }
        cnameParents := ⟨query.sclass, query.stype, query.sname, query.cnameDepth⟩ ::
          query.cnameParents
        forwardCname := query.flags.forward }
    let st := { st with pushed := st.pushed ++ [next] }
    if !query.flags.forward || query.flags.dnssecWexpand then
      let (state, st) := pickAuthority st false
      (if state ≠ krOk then LayerState.fail else LayerState.done, st)
    else (LayerState.done, st)

/-- `process_answer`: an answer that does not move the cut. -/
def processAnswer (ctx : IterCtx) (st : IterState) : ℤ × IterState :=
  let isFinal := st.parent.isNone
  let pktClass := krResponseClassify st.pkt
  if st.pkt.qname ≠ st.qry.sname ∧
      pktClass &&& (Pkt.noerror ||| Pkt.nxdomain ||| Pkt.refused ||| Pkt.nodata) ≠ 0 then
    -- the response to a minimized name: continue minimizing below a cut that answers for
    -- its child, otherwise retry without minimization
    if pktClass &&& Pkt.noerror ≠ 0 ∧ st.pkt.answer ≠ [] ∧ st.pkt.qname = st.qry.zoneCut.name
    then (LayerState.consume, st)
    else (LayerState.consume, st.setFlags { st.qry.flags with noMinimize := true })
  else if !isAuthoritative st.pkt st.qry ∧ !st.qry.flags.forward ∧
      pktClass &&& (Pkt.nxdomain ||| Pkt.nodata) ≠ 0 then (LayerState.fail, st)
  else
    let (state, cname, st) := unrollCname st false
    if state ≠ krOk then (state, st)
    else
      -- an authoritative answer for the other layers; it resolves the query either way
      let st := (st.setAa true).setFlags { st.qry.flags with resolved := true }
      if cname ≠ st.qry.sname then
        let st := st.setFlags { st.qry.flags with cname := true }
        if isFinal then
          let (state, st) := processFinal st cname
          if state ≠ krOk then (state, st) else followCname ctx cname st
        -- a CNAME for a DS or NS sub-query of a forwarder proves there is no cut
        else if st.qry.flags.forward ∧ (st.qry.stype = RRType.ds ∨ st.qry.stype = RRType.ns)
        then (LayerState.done, st)
        else followCname ctx cname st
      else if isFinal then
        let toWire := decide (pktClass &&& (Pkt.nxdomain ||| Pkt.nodata) ≠ 0) ||
          st.qry.flags.dnssecWexpand
        let (state, st) := pickAuthority st toWire
        if state ≠ krOk then (LayerState.fail, st) else finalizeAnswer st
      -- a sub-query's authority matters only for its NSEC and NSEC3 proofs
      else if st.pkt.authority.any (fun rr => rr.type = RRType.nsec ∨ rr.type = RRType.nsec3)
      then
        let (state, st) := pickAuthority st false
        (if state ≠ krOk then LayerState.fail else LayerState.done, st)
      else (LayerState.done, st)

/-- The answer records of `process_stub`, trusted as the server's. -/
def stubAnswerLoop : List RRset → IterState → Option IterState
  | [], st => some st
  | rr :: rrs, st =>
    let (err, st) := st.addRr .answer rr (Rank.omit_ ||| Rank.auth) true
    if err < 0 then none else stubAnswerLoop rrs st

/-- `process_stub`. -/
def processStub (st : IterState) : ℤ × IterState :=
  if !st.qry.flags.stub then (LayerState.fail, st)
  else
    match stubAnswerLoop st.pkt.answer st with
    | none => (LayerState.fail, st)
    | some st =>
      let st := (st.setAa true).setFlags { st.qry.flags with resolved := true }
      let toWire := krResponseClassify st.pkt &&& (Pkt.nxdomain ||| Pkt.nodata) ≠ 0
      let (err, st) := pickAuthority st toWire
      if err ≠ krOk then (LayerState.fail, st) else finalizeAnswer st

/-! ## `resolve` -/

/-- `minimized_qname`: the query name cut to one label below the zone cut, asked as NS. -/
def minimizedQname (query : KrQuery) : Dname × RRType :=
  if query.sname.labels = [] ∨ query.flags.noMinimize ∨ query.flags.stub then
    (query.sname, query.stype)
  else
    let qname : Dname := ⟨query.sname.labels.drop
      (knotDnameLabels query.sname - (knotDnameLabels query.zoneCut.name + 1))⟩
    (qname, if qname ≠ query.sname then RRType.ns else query.stype)

/-- `is_paired_to_query`. -/
def isPairedToQuery (pkt : Packet) (query : KrQuery) : Bool :=
  let (qname, qtype) := minimizedQname query
  query.id = pkt.id ∧ pkt.qdcount = 1 ∧ query.sclass = pkt.qclass ∧ qtype = pkt.qtype ∧
    qname = pkt.qname

/-- `satisfied_by_additional`: a non-authoritative referral brought the answer as glue. -/
def satisfiedByAdditional (st : IterState) : Bool :=
  !st.qry.flags.stub && !st.qry.flags.forward && st.qry.flags.nonauth &&
    (st.addSelected.reverse.takeWhile (·.qryUid = st.qry.uid)).any fun e =>
      e.rr.type = st.qry.stype ∧ e.rr.owner = st.qry.sname

/-- The RCODE switch of `resolve`: `0` to go on. -/
def rcodeCheck (st : IterState) : ℤ × IterState :=
  let rc := st.pkt.rcode
  if rc = Rcode.noerror ∨ rc = Rcode.nxdomain then (0, st)
  -- YXDOMAIN is a successful answer whose name does not fit
  else if rc = Rcode.yxdomain then (0, { st with answerRcode := some Rcode.yxdomain })
  else if rc = Rcode.refused ∨ rc = Rcode.servfail then
    (if st.qry.flags.stub then 0 else LayerState.fail, st)
  else (LayerState.fail, st)

/-- `process_authority`, then `process_answer` or `process_referral_answer`. -/
def processResponse (ctx : IterCtx) (st : IterState) : ℤ × IterState :=
  let (state, st) := processAuthority ctx st
  if state = LayerState.consume then processAnswer ctx st
  else if state = LayerState.done then
    let (state, st) := processReferralAnswer st
    -- the glue answers the query: the next round reads it from the cache
    (state, if satisfiedByAdditional st then
      st.setFlags { st.qry.flags with cacheTried := false } else st)
  else (state, st)

/-- The end of `resolve`: the query's entries are finished and their TTLs bounded. -/
def finalizeSelected (ctx : IterCtx) (st : IterState) : IterState :=
  let fin := fun arr =>
    let arr := krRankedRrarrayFinalize arr st.qry.uid
    if !st.qry.flags.cached then boundTtls arr st.qry.uid ctx.ttlMin ctx.ttlMax else arr
  { st with
    answSelected := fin st.answSelected
    authSelected := fin st.authSelected
    addSelected := fin st.addSelected }

/-- `resolve`, the iterator's consume function, on the layer state it is called in. -/
def resolve (ctx : IterCtx) (layerState : ℤ) (st : IterState) : ℤ × IterState :=
  let st := st.setFlags { st.qry.flags with pktIsSane := false }
  if st.qry.flags.resolved ∨ st.qry.flags.badcookieAgain then (layerState, st)
  else if st.pkt.parsed ≤ knotWireHeaderSize then (LayerState.fail, st)
  else if !st.qry.flags.cached ∧ !isPairedToQuery st.pkt st.qry then (LayerState.fail, st)
  -- a truncated response is retried over TCP
  else if st.pkt.tc then (if ctx.transportUdp then LayerState.consume else LayerState.fail, st)
  else
    let st := st.setFlags { st.qry.flags with pktIsSane := true }
    let (ret, st) := rcodeCheck st
    -- trailing bytes are checked after the RCODE, so that its failures take priority
    let ret := if ret ≠ LayerState.fail ∧ st.pkt.parsed < st.pkt.size then LayerState.fail
      else ret
    if ret ≠ 0 then (ret, st)
    else
      let (state, st) := if st.qry.flags.stub then processStub st else processResponse ctx st
      (state, finalizeSelected ctx st)

end KnotResolver
