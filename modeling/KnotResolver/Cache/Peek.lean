import Mathlib
import KnotResolver.Cache.EntryList
import KnotResolver.Zonecut
import KnotResolver.Cache.CdbLmdb

/-!
# The closest zone in the cache: `closest_NS`

`closest_NS` (`lib/cache/peek.c`) walks from the query name towards the root, one label at a
time, and reads the record under each name's NS key (`KnotResolver.Cache.EntryList`). At the
first name whose record has a slot that `check_NS_entry` accepts, it stops: the slot gives the
type in `k->type` (NS for a parameter slot) and the name is the zone `peek_nosync` works in. The
slots are tried DNAME first, then the parameter slots, NS and CNAME. The walk ends with ENOENT
at the root, or when the name has fewer labels than the rule that chose the cache as the source
of data.
-/

namespace KnotResolver

/-! ## What `entry_list_parse` leaves in the list -/

/-- The loops of `entry_list_parse`, as they write `list`: each item's pointer is set before its
checks, and its length once they pass, so a failure leaves the items before it parsed, its own
pointer set and the items after it as they were. -/
def elParseIntoLoop (val : List UInt8) : List ℕ → ℕ → List ElSlot → ℤ × List ElSlot
  | [], it, el => (if it = val.length then 0 else krError Errno.eilseq, el)
  | i :: is, it, el =>
    if i < entryApexNsecsCnt ∧ it > val.length then (krError Errno.eilseq, el)
    else
      let el := el.set i { el.getD i .empty with data := some (val.drop it) }
      match elParseItem val i it with
      | .error e => (e, el)
      | .ok len => elParseIntoLoop val is (it + toEven len) (el.set i ⟨some (val.drop it), len⟩)

/-- `entry_list_parse` with the list it writes into. -/
def entryListParseInto (val : List UInt8) (el : List ElSlot) : ℤ × List ElSlot :=
  if val.length = 0 then (krError Errno.einval, el)
  else elParseIntoLoop val (List.range elLength) 4 el

/-! ## Checking a slot -/

/-- `nsec_p_ttl`: whether a parameter slot's stamp is still valid at `timestamp`, in serial
arithmetic. -/
def nsecPTtl (entry : List UInt8) (timestamp : UInt32) : ℤ :=
  if entry.length = 0 then krError Errno.enoent
  else if entry.length < 4 then krError Errno.eilseq
  else if ((readHost32 entry 0).toUInt32 - timestamp).toInt32 < 0 then krError Errno.estale
  else krOk

/-- The rank field of an entry's flag octet. -/
def entryRank (eh : List UInt8) : UInt8 := eh.getD 8 0 &&& 63

/-- The `has_optout` bit of an entry's flag octet. -/
def entryHasOptout (eh : List UInt8) : Bool := (eh.getD 8 0).toNat.testBit 7

/-- `entry_h_consistent_E`: the header fits, a packet's data fits its length field, the rank is
valid, only packets are bogus and only packets have `has_optout`. -/
def entryHConsistentE (data : List UInt8) : Bool :=
  if data.length < 10 then false
  else if entryIsPacket data && (data.length < 12 || data.length < 12 + readHost16 data 10) then false
  else krRankCheck (entryRank data) && (!krRankTest (entryRank data) Rank.bogus || entryIsPacket data) &&
    (entryIsPacket data || !entryHasOptout data)

/-- What `closest_NS` depends on besides the cache: the time, `rule_depth` of the query's data
source, the stale-serving callback of the query and the lowest rank `get_lowest_rank` accepts. -/
structure PeekEnv where
  /-- `cache_op(cache, read, ...)` for a key -/
  cacheRead : List UInt8 → Except ℤ (List UInt8)
  /-- a read fails with a code other than 0 -/
  read_error_ne_zero : ∀ key e, cacheRead key = .error e → e ≠ 0
  timestamp : UInt32
  ruleDepth : ℕ
  staleCb : Option (Int32 → Dname → RRType → Int32)
  lowestRank : Dname → RRType → UInt8

/-- `get_new_ttl`: the TTL left at `now`, in serial arithmetic; a callback may serve an expired
entry. -/
def getNewTtl (env : PeekEnv) (eh : List UInt8) (owner : Dname) (type : RRType) : Int32 :=
  let diff := (env.timestamp - (readHost32 eh 0).toUInt32).toInt32
  let diff := if diff < 0 then 0 else diff
  let res := ((readHost32 eh 4).toUInt32 - diff.toUInt32).toInt32
  match env.staleCb with
  | some cb => if res < 0 ∧ cb res owner type ≥ 0 then cb res owner type else res
  | none => res

/-- `EL2RRTYPE` -/
def el2rrtype (i : ℕ) : RRType :=
  if i = elNs then RRType.ns else if i = elCname then RRType.cname
  else if i = elDname then RRType.dname else 0

/-- The positive code by which `check_NS_entry` passes over a slot. -/
def nsESkip : ℤ := Errno.enoent

/-- `check_NS_entry` for slot `i` holding `entry`, at `zname`: the type the slot gives, or
`ESKIP`, or an error for an inconsistent entry. -/
def checkNSEntry (env : PeekEnv) (zname : Dname) (entry : List UInt8) (i : ℕ)
    (exactMatch isDS : Bool) : Except ℤ RRType :=
  if entry.length = 0 ∨ (exactMatch && isDS) ∨ (i = elCname ∧ !exactMatch) ∨
      (i = elDname ∧ exactMatch) then .error nsESkip
  else if i < entryApexNsecsCnt then
    if nsecPTtl entry env.timestamp ≠ 0 then .error nsESkip else .ok RRType.ns
  else
    let type := el2rrtype i
    if !entryHConsistentE entry then .error (krError Errno.eilseq)
    else
      -- not a negative packet, not expired, and for CNAME and DNAME of a high enough rank
      let ok := !entryIsPacket entry && getNewTtl env entry zname type ≥ 0 &&
        (type == RRType.ns || entryRank entry ≥ env.lowestRank zname type)
      if !ok then .error nsESkip else .ok type

/-! ## The walk to the root -/

/-- `key_exact_type(k, KNOT_RRTYPE_NS)` for the zone `z`. -/
def nsKey (z : Dname) : List UInt8 := (keyExactTypeMaypkt (knotDnameLf z) RRType.ns).getD []

/-- The slots of one record in the order `closest_NS` tries them, from `is`: the first one
`check` accepts, or none when one fails or none is accepted. -/
def nsScanLoop (check : ℕ → Except ℤ RRType) : List ℕ → Option RRType
  | [] => none
  | i :: is =>
    match check i with
    | .ok type => some type
    | .error e => if e < 0 then none else nsScanLoop check is

/-- The order of the slots: DNAME (unless `only_NS`), then the others up to `EL_NS`
(`only_NS`) or all of them. -/
def nsScanOrder (onlyNS : Bool) : List ℕ :=
  (if onlyNS then [] else [elDname]) ++
    (List.range (if onlyNS then elNs + 1 else elLength)).filter (· ≠ elDname)

/-- What `closest_NS` gives: its code, the zone part of `k`, `k->type` and the list `el`. -/
structure ClosestNSOut where
  ret : ℤ
  key : CacheKey
  type : RRType
  el : List ElSlot

/-- One round of the loop of `closest_NS` at `zname`; `next` is what follows at `next_label`,
given `need_zero` and the list. The key state `k0` is the one `closest_NS` was called with; the
`key_exact_type` of the round has set `k->type` to NS before the read, and only a slot the scan
accepts changes it again. -/
def closestNSRound (env : PeekEnv) (onlyNS isDS : Bool) (k0 : CacheKey)
    (zname : Dname) (exactMatch needZero : Bool) (el : List ElSlot)
    (next : Bool → List ElSlot → ClosestNSOut) : ClosestNSOut :=
  match env.cacheRead (nsKey zname) with
  | .error e =>
    if e = krError Errno.enoent then next needZero el
    else ⟨krError e, ⟨zname, k0.zlfLen⟩, RRType.ns, if needZero then elZero else el⟩
  | .ok val =>
    let (ret, el) := entryListParseInto val el
    if ret ≠ 0 then next needZero el
    else
      match nsScanLoop (fun i => checkNSEntry env zname (el.getD i .empty).bytes i exactMatch isDS)
          (nsScanOrder onlyNS) with
      | some type => ⟨krOk, ⟨zname, (knotDnameLf zname).length⟩, type, el⟩
      | none => next false el

/-- The loop of `closest_NS` from the zone of labels `ls`: at the root it ends, otherwise it
goes on one label up unless that name has fewer labels than `rule_depth`. -/
def closestNSLoop (env : PeekEnv) (onlyNS isDS : Bool) (k0 : CacheKey) :
    List Label → Bool → Bool → List ElSlot → ClosestNSOut
  | [], exactMatch, needZero, el =>
    closestNSRound env onlyNS isDS k0 ⟨[]⟩ exactMatch needZero el fun needZero el =>
      -- no NS of the root in the cache: it is assumed to exist
      ⟨krError Errno.enoent, ⟨⟨[]⟩, 0⟩, RRType.ns, if needZero then elZero else el⟩
  | l :: ls, exactMatch, needZero, el =>
    closestNSRound env onlyNS isDS k0 ⟨l :: ls⟩ exactMatch needZero el fun needZero el =>
      if ls.length < env.ruleDepth then ⟨krError Errno.enoent, ⟨⟨ls⟩, k0.zlfLen⟩, RRType.ns, elZero⟩
      else closestNSLoop env onlyNS isDS k0 ls false needZero el

/-- `closest_NS` from the key state `k` that `kr_dname_lf` set up for `k.zname`. Every exit
writes `k->type`, so the type `k` comes with is not read. -/
def closestNS (env : PeekEnv) (k : CacheKey) (el : List ElSlot) (onlyNS isDS : Bool) :
    ClosestNSOut :=
  closestNSLoop env onlyNS isDS k k.zname.labels true true el


/-! ## `entry_list_parse` as it writes the list -/

section ParseInto

theorem take_set_succ {el : List ElSlot} {k : ℕ} (hk : k < el.length) (s : ElSlot) :
    (el.set k s).take (k + 1) = el.take k ++ [s] := by
  rw [List.take_add_one, List.take_set_of_le (le_refl k)]
  simp [hk]

/-- On a record that parses, the loops write each item they parse, in place. -/
theorem elParseIntoLoop_of_ok {val : List UInt8} :
    ∀ (m k it : ℕ) (el : List ElSlot) (items : List (ℕ × ℕ)), k + m = el.length →
      entryListParseLoop val (List.range' k m) it = .ok items →
      elParseIntoLoop val (List.range' k m) it el = (0, el.take k ++ elOfItems val items) := by
  intro m
  induction m with
  | zero =>
    intro k it el items hk h
    simp only [List.range'_zero, entryListParseLoop] at h
    split_ifs at h with hit
    cases h
    simp [elParseIntoLoop, hit, elOfItems, ← hk]
  | succ m ih =>
    intro k it el items hk h
    rw [List.range'_succ] at h ⊢
    obtain ⟨len, hlen, h⟩ := except_bind_eq_ok h
    obtain ⟨rest, hrest, h⟩ := except_bind_eq_ok h
    cases h
    -- the guard before the pointer is written is the one `elParseItem` starts with
    have hguard : ¬ (k < entryApexNsecsCnt ∧ it > val.length) := by
      rintro ⟨hk2, hit⟩
      simp [elParseItem, hk2, hit] at hlen
    have hkl : k < el.length := by omega
    rw [elParseIntoLoop, if_neg hguard]
    simp only [hlen]
    rw [List.set_set, ih (k + 1) _ _ rest (by rw [List.length_set]; omega) hrest,
      take_set_succ hkl]
    simp [elOfItems]

theorem entryListParseInto_of_ok {val : List UInt8} {items : List (ℕ × ℕ)}
    (h : entryListParse val = .ok items) {el : List ElSlot} (hel : el.length = elLength) :
    entryListParseInto val el = (0, elOfItems val items) := by
  rw [entryListParse] at h
  split_ifs at h with h0
  rw [entryListParseInto, if_neg h0, List.range_eq_range',
    elParseIntoLoop_of_ok elLength 0 4 el items (by rw [hel, Nat.zero_add]) (by rwa [← List.range_eq_range'])]
  simp

end ParseInto


/-! ## The codes of a failed parse -/

section ParseCodes

/-- The codes `entry_list_parse` fails with. -/
def ElParseErr (e : ℤ) : Prop := e = krError Errno.einval ∨ e = krError Errno.eilseq

theorem ElParseErr.ne_zero {e : ℤ} (h : ElParseErr e) : e ≠ 0 := by
  rcases h with rfl | rfl
  · exact krError_einval_ne_zero
  · exact krError_eilseq_ne_zero

theorem entryHLen_error {v : List UInt8} {e : ℤ} (h : entryHLen v = .error e) : ElParseErr e := by
  unfold entryHLen at h
  by_cases h0 : v.length = 0
  · rw [if_pos h0] at h
    cases h
    exact .inl rfl
  rw [if_neg h0] at h
  by_cases h10 : 10 ≥ v.length
  · rw [if_pos h10] at h
    cases h
    exact .inr rfl
  rw [if_neg h10] at h
  -- past the header, every failure is EILSEQ
  dsimp only at h
  split at h
  · cases h
    exact .inr rfl
  · split_ifs at h
    cases h
    exact .inr rfl

theorem elParseItem_error {val : List UInt8} {i it : ℕ} {e : ℤ} (h : elParseItem val i it = .error e) :
    ElParseErr e := by
  unfold elParseItem at h
  by_cases hi : i < entryApexNsecsCnt
  · rw [if_pos hi] at h
    by_cases hit : it > val.length
    · rw [if_pos hit] at h
      cases h
      exact .inr rfl
    rw [if_neg hit] at h
    -- the parameter codes: only code 3 and unknown codes fail
    split at h
    · cases h
    · cases h
    · split_ifs at h
      cases h
      exact .inr rfl
    · cases h
      exact .inr rfl
  · rw [if_neg hi] at h
    by_cases hty : (!apexHasType val i) = true
    · rw [if_pos hty] at h
      cases h
    rw [if_neg hty] at h
    by_cases hlt : ¬ it < val.length
    · rw [if_pos hlt] at h
      cases h
      exact .inr rfl
    rw [if_neg hlt] at h
    exact entryHLen_error h

/-- A failed parse leaves its code as the code of the loops that write the list. -/
theorem elParseIntoLoop_of_error {val : List UInt8} :
    ∀ (is : List ℕ) (it : ℕ) (el : List ElSlot) (e : ℤ),
      entryListParseLoop val is it = .error e →
      (elParseIntoLoop val is it el).1 = e ∧ ElParseErr e := by
  intro is
  induction is with
  | nil =>
    intro it el e h
    simp only [entryListParseLoop] at h
    split_ifs at h with hit
    cases h
    simp [elParseIntoLoop, hit, ElParseErr]
  | cons i is ih =>
    intro it el e h
    simp only [entryListParseLoop] at h
    cases hitem : elParseItem val i it with
    | error e' =>
      rw [hitem] at h
      cases h
      refine ⟨?_, elParseItem_error hitem⟩
      rw [elParseIntoLoop]
      split_ifs with hguard
      · -- the guard of the loop is the first test of `elParseItem`
        simp [elParseItem, hguard.1, hguard.2] at hitem
        rw [← hitem]
      · simp only [hitem]
    | ok len =>
      rw [hitem] at h
      obtain ⟨hrest, herr⟩ := ih (it + toEven len) (el.set i ⟨some (val.drop it), len⟩) e
        (by
          change (entryListParseLoop val is (it + toEven len) >>= fun rest =>
            pure ((it, len) :: rest)) = .error e at h
          cases hr : entryListParseLoop val is (it + toEven len) with
          | error e'' => rw [hr] at h; exact h
          | ok rest => rw [hr] at h; cases h)
      have hguard : ¬ (i < entryApexNsecsCnt ∧ it > val.length) := by
        rintro ⟨hi, hit⟩
        simp [elParseItem, hi, hit] at hitem
      rw [elParseIntoLoop, if_neg hguard]
      simp only [hitem, List.set_set]
      exact ⟨hrest, herr⟩

/-- `entry_list_parse` succeeds exactly when `entryListParse` does, and then fills the list
with the items. -/
theorem entryListParseInto_eq_zero_iff {val : List UInt8} {el : List ElSlot}
    (hel : el.length = elLength) :
    (entryListParseInto val el).1 = 0 ↔ ∃ items, entryListParse val = .ok items ∧
      (entryListParseInto val el).2 = elOfItems val items := by
  constructor
  · intro h0
    cases hp : entryListParse val with
    | ok items => exact ⟨items, rfl, by rw [entryListParseInto_of_ok hp hel]⟩
    | error e =>
      exfalso
      rw [entryListParse] at hp
      rw [entryListParseInto] at h0
      split_ifs at hp h0 with hv
      · cases hp
        exact krError_einval_ne_zero h0
      · obtain ⟨hcode, herr⟩ := elParseIntoLoop_of_error _ 4 el e hp
        exact herr.ne_zero (hcode ▸ h0)
  · rintro ⟨items, hp, -⟩
    rw [entryListParseInto_of_ok hp hel]

end ParseCodes


/-! ## One round of the walk -/

section Round

variable {env : PeekEnv} {onlyNS isDS : Bool} {k0 : CacheKey}

/-- The scan of the slots goes through every slot it passes over. -/
theorem nsScanLoop_eq_none_of_skip {check : ℕ → Except ℤ RRType} :
    ∀ is : List ℕ, (∀ i ∈ is, ∃ e, 0 ≤ e ∧ check i = .error e) → nsScanLoop check is = none := by
  intro is
  induction is with
  | nil => intro _; rfl
  | cons i is ih =>
    intro h
    obtain ⟨e, he, hi⟩ := h i List.mem_cons_self
    rw [nsScanLoop, hi]
    simp only [show ¬ e < 0 by omega, if_false]
    exact ih fun j hj => h j (List.mem_cons_of_mem i hj)

/-- On the name asked for, a DS query passes over every slot: the DS is in the parent zone. -/
theorem checkNSEntry_exact_ds (zname : Dname) (entry : List UInt8) (i : ℕ) :
    checkNSEntry env zname entry i true true = .error nsESkip := by
  simp [checkNSEntry]

theorem closestNSRound_of_enoent {zname : Dname} {exactMatch needZero : Bool} {el : List ElSlot}
    {next : Bool → List ElSlot → ClosestNSOut}
    (h : env.cacheRead (nsKey zname) = .error (krError Errno.enoent)) :
    closestNSRound env onlyNS isDS k0 zname exactMatch needZero el next = next needZero el := by
  simp [closestNSRound, h]

/-- A round on a record that parses and has a slot the scan accepts: the walk ends there. -/
theorem closestNSRound_of_found {zname : Dname} {exactMatch needZero : Bool} {el : List ElSlot}
    {next : Bool → List ElSlot → ClosestNSOut} {val : List UInt8} {items : List (ℕ × ℕ)}
    {type : RRType} (hread : env.cacheRead (nsKey zname) = .ok val)
    (hparse : entryListParse val = .ok items) (hel : el.length = elLength)
    (hscan : nsScanLoop (fun i => checkNSEntry env zname ((elOfItems val items).getD i .empty).bytes
      i exactMatch isDS) (nsScanOrder onlyNS) = some type) :
    closestNSRound env onlyNS isDS k0 zname exactMatch needZero el next =
      ⟨krOk, ⟨zname, (knotDnameLf zname).length⟩, type, elOfItems val items⟩ := by
  simp only [closestNSRound, hread, entryListParseInto_of_ok hparse hel, ne_eq, not_true_eq_false,
    if_false, hscan]

/-- A round on a record that parses but has no slot the scan accepts: the walk goes on with
the record's items in the list. -/
theorem closestNSRound_of_none {zname : Dname} {exactMatch needZero : Bool} {el : List ElSlot}
    {next : Bool → List ElSlot → ClosestNSOut} {val : List UInt8} {items : List (ℕ × ℕ)}
    (hread : env.cacheRead (nsKey zname) = .ok val)
    (hparse : entryListParse val = .ok items) (hel : el.length = elLength)
    (hscan : nsScanLoop (fun i => checkNSEntry env zname ((elOfItems val items).getD i .empty).bytes
      i exactMatch isDS) (nsScanOrder onlyNS) = none) :
    closestNSRound env onlyNS isDS k0 zname exactMatch needZero el next =
      next false (elOfItems val items) := by
  simp only [closestNSRound, hread, entryListParseInto_of_ok hparse hel, ne_eq, not_true_eq_false,
    if_false, hscan]

end Round


/-! ## The walk -/

section Walk

variable {env : PeekEnv} {onlyNS isDS : Bool} {k0 : CacheKey}

theorem cdbRead_error_ne_zero (db : Cdb) : ∀ key e, cdbRead db key = .error e → e ≠ 0 := by
  intro key e h
  unfold cdbRead at h
  split at h
  · cases h
  · cases h
    decide

/-- A walk over names with no record under their NS keys ends at the root with ENOENT, the
list as it came. -/
theorem closestNSLoop_of_enoent (hdepth : env.ruleDepth = 0) :
    ∀ (ls : List Label) (exactMatch needZero : Bool) (el : List ElSlot),
      (∀ k ≤ ls.length, env.cacheRead (nsKey ⟨ls.drop k⟩) = .error (krError Errno.enoent)) →
      closestNSLoop env onlyNS isDS k0 ls exactMatch needZero el =
        ⟨krError Errno.enoent, ⟨Dname.root, 0⟩, RRType.ns, if needZero then elZero else el⟩ := by
  intro ls
  induction ls with
  | nil =>
    intro exactMatch needZero el h
    have h0 : env.cacheRead (nsKey ⟨[]⟩) = .error (krError Errno.enoent) := h 0 le_rfl
    rw [closestNSLoop, closestNSRound_of_enoent h0]
    rfl
  | cons l ls ih =>
    intro exactMatch needZero el h
    have h0 : env.cacheRead (nsKey ⟨l :: ls⟩) = .error (krError Errno.enoent) := h 0 (Nat.zero_le _)
    rw [closestNSLoop, closestNSRound_of_enoent h0]
    simp only [hdepth, Nat.not_lt_zero, if_false]
    exact ih false needZero el fun k hk => h (k + 1) (by simp; omega)

/-- A DS query for a name whose NS key holds a record, under names with none: `closest_NS`
returns ENOENT for the root, but the list still holds the items of the name's record. -/
theorem closestNS_ds_keeps_child_list {s : Dname} (hs : s.labels ≠ []) {val : List UInt8}
    {items : List (ℕ × ℕ)} (hread : env.cacheRead (nsKey s) = .ok val)
    (hparse : entryListParse val = .ok items)
    (hanc : ∀ k, 0 < k → k ≤ s.labels.length →
      env.cacheRead (nsKey ⟨s.labels.drop k⟩) = .error (krError Errno.enoent))
    (hdepth : env.ruleDepth = 0) {el : List ElSlot} (hel : el.length = elLength) :
    closestNS env (CacheKey.ofZone s) el onlyNS true =
      ⟨krError Errno.enoent, ⟨Dname.root, 0⟩, RRType.ns, elOfItems val items⟩ := by
  obtain ⟨ls⟩ := s
  cases ls with
  | nil => exact absurd rfl hs
  | cons l ls =>
    -- on the name itself every slot is passed over
    have hscan : nsScanLoop (fun i => checkNSEntry env ⟨l :: ls⟩
        ((elOfItems val items).getD i .empty).bytes i true true) (nsScanOrder onlyNS) = none :=
      nsScanLoop_eq_none_of_skip _ fun i _ =>
        ⟨nsESkip, by decide, checkNSEntry_exact_ds _ ((elOfItems val items).getD i .empty).bytes i⟩
    simp only [closestNS, CacheKey.zname_ofZone]
    rw [closestNSLoop, closestNSRound_of_none hread hparse hel hscan]
    simp only [hdepth, Nat.not_lt_zero, if_false]
    rw [closestNSLoop_of_enoent hdepth ls false false _ fun k hk => hanc (k + 1) (by omega)
      (by simp; omega)]
    rfl

theorem closestNS_ds_keeps_child_list_a :
    let s : Dname := ⟨[⟨[97], by simp, by simp⟩]⟩
    let val : List UInt8 := [1, 0, 1, 0, 1, 2, 3, 4] ++ entryRRsetBytes 1 1 1 [[9]] []
    let env : PeekEnv := ⟨cdbRead [(nsKey s, val)], cdbRead_error_ne_zero _, 0, 0, none, fun _ _ => 0⟩
    closestNS env (CacheKey.ofZone s) elZero false true =
      ⟨krError Errno.enoent, ⟨Dname.root, 0⟩, RRType.ns,
        elOfItems val [(4, 4), (8, 0), (8, 18), (26, 0), (26, 0)]⟩ :=
  closestNS_ds_keeps_child_list (by simp) rfl rfl
    (fun k hk hk' => by
      have : k = 1 := by simp at hk'; omega
      subst this
      rfl)
    rfl rfl

end Walk


/-! ## Where the walk stops -/

section Spec

variable {env : PeekEnv} {onlyNS isDS : Bool} {k0 : CacheKey}

theorem length_elParseIntoLoop {val : List UInt8} :
    ∀ (is : List ℕ) (it : ℕ) (el : List ElSlot), (elParseIntoLoop val is it el).2.length = el.length := by
  intro is
  induction is with
  | nil => intro it el; rfl
  | cons i is ih =>
    intro it el
    rw [elParseIntoLoop]
    split_ifs
    · rfl
    · cases hitem : elParseItem val i it with
      | error e => simp
      | ok len => simp [ih]

theorem length_entryListParseInto (val : List UInt8) (el : List ElSlot) :
    (entryListParseInto val el).2.length = el.length := by
  rw [entryListParseInto]
  split_ifs
  · rfl
  · exact length_elParseIntoLoop _ _ _

/-- The walk passes over `zname`: no record, a record that does not parse, or one with no slot
the scan accepts. -/
def NsRoundPasses (env : PeekEnv) (onlyNS isDS exactMatch : Bool) (zname : Dname) : Prop :=
  env.cacheRead (nsKey zname) = .error (krError Errno.enoent) ∨
    ∃ val, env.cacheRead (nsKey zname) = .ok val ∧ ∀ items, entryListParse val = .ok items →
      nsScanLoop (fun i => checkNSEntry env zname ((elOfItems val items).getD i .empty).bytes i
        exactMatch isDS) (nsScanOrder onlyNS) = none

theorem krError_eq_zero_iff {x : ℤ} : krError x = 0 ↔ x = 0 := by
  unfold krError
  split_ifs <;> omega

/-- A round that does not fail either stops at its name, on a record that parses and a slot the
scan accepts, or passes over the name and goes on with a list of five items. -/
theorem closestNSRound_cases {zname : Dname} {exactMatch needZero : Bool} {el : List ElSlot}
    {next : Bool → List ElSlot → ClosestNSOut} (hel : el.length = elLength)
    (h : (closestNSRound env onlyNS isDS k0 zname exactMatch needZero el next).ret = 0) :
    (∃ val items type, env.cacheRead (nsKey zname) = .ok val ∧ entryListParse val = .ok items ∧
      nsScanLoop (fun i => checkNSEntry env zname ((elOfItems val items).getD i .empty).bytes i
        exactMatch isDS) (nsScanOrder onlyNS) = some type ∧
      closestNSRound env onlyNS isDS k0 zname exactMatch needZero el next =
        ⟨krOk, ⟨zname, (knotDnameLf zname).length⟩, type, elOfItems val items⟩) ∨
    (NsRoundPasses env onlyNS isDS exactMatch zname ∧ ∃ nz el', el'.length = elLength ∧
      closestNSRound env onlyNS isDS k0 zname exactMatch needZero el next = next nz el') := by
  cases hr : env.cacheRead (nsKey zname) with
  | error e =>
    by_cases he : e = krError Errno.enoent
    · subst he
      exact .inr ⟨.inl hr, needZero, el, hel, closestNSRound_of_enoent hr⟩
    · -- any other read error is returned
      exfalso
      simp only [closestNSRound, hr, he, if_false] at h
      exact env.read_error_ne_zero _ e hr (krError_eq_zero_iff.mp h)
  | ok val =>
    cases hp : entryListParse val with
    | error e =>
      -- the parse fails: the list is left partly written and the walk goes on
      have hcode : (entryListParseInto val el).1 ≠ 0 := fun h0 => by
        obtain ⟨items, hp', -⟩ := (entryListParseInto_eq_zero_iff hel).mp h0
        rw [hp] at hp'
        cases hp'
      refine .inr ⟨.inr ⟨val, hr, fun items hp' => by rw [hp] at hp'; cases hp'⟩, needZero,
        (entryListParseInto val el).2, by rw [length_entryListParseInto, hel], ?_⟩
      simp only [closestNSRound, hr]
      rw [if_pos hcode]
    | ok items =>
      cases hs : nsScanLoop (fun i => checkNSEntry env zname ((elOfItems val items).getD i .empty).bytes i
          exactMatch isDS) (nsScanOrder onlyNS) with
      | some type => exact .inl ⟨val, items, type, rfl, hp, hs, closestNSRound_of_found hr hp hel hs⟩
      | none =>
        refine .inr ⟨.inr ⟨val, hr, fun items' hp' => ?_⟩, false, elOfItems val items,
          by rw [length_elOfItems, length_of_entryListParse hp], closestNSRound_of_none hr hp hel hs⟩
        rw [hp] at hp'
        cases hp'
        exact hs

/-- The walk, when it succeeds, stops `k` labels up from where it started: at a name with at
least `rule_depth` labels (unless it is the first), on a record that parses, with `k->type` the
type of the first slot the scan accepts there and the list holding the record's items; the walk
passed over every name before it. -/
theorem closestNSLoop_ok :
    ∀ (ls : List Label) (exactMatch needZero : Bool) (el : List ElSlot), el.length = elLength →
      (closestNSLoop env onlyNS isDS k0 ls exactMatch needZero el).ret = 0 →
      ∃ k ≤ ls.length, (0 < k → env.ruleDepth ≤ ls.length - k) ∧
        (∀ j < k, NsRoundPasses env onlyNS isDS (exactMatch && j == 0) ⟨ls.drop j⟩) ∧
        ∃ val items type, env.cacheRead (nsKey ⟨ls.drop k⟩) = .ok val ∧
          entryListParse val = .ok items ∧
          nsScanLoop (fun i => checkNSEntry env ⟨ls.drop k⟩ ((elOfItems val items).getD i .empty).bytes
            i (exactMatch && k == 0) isDS) (nsScanOrder onlyNS) = some type ∧
          closestNSLoop env onlyNS isDS k0 ls exactMatch needZero el =
            ⟨krOk, ⟨⟨ls.drop k⟩, (knotDnameLf ⟨ls.drop k⟩).length⟩, type, elOfItems val items⟩ := by
  intro ls
  induction ls with
  | nil =>
    intro exactMatch needZero el hel h
    rw [closestNSLoop] at h ⊢
    rcases closestNSRound_cases hel h with ⟨val, items, type, hr, hp, hs, hround⟩ | ⟨-, nz, el', -, hround⟩
    · refine ⟨0, le_rfl, fun h0 => absurd h0 (Nat.lt_irrefl 0), fun j hj => absurd hj (Nat.not_lt_zero j),
        val, items, type, hr, hp, ?_, hround⟩
      simpa using hs
    · -- past the root the walk fails
      rw [hround] at h
      exact absurd h krError_enoent_ne_zero
  | cons l ls ih =>
    intro exactMatch needZero el hel h
    rw [closestNSLoop] at h ⊢
    rcases closestNSRound_cases hel h with ⟨val, items, type, hr, hp, hs, hround⟩ |
      ⟨hpass, nz, el', hel', hround⟩
    · refine ⟨0, Nat.zero_le _, fun h0 => absurd h0 (Nat.lt_irrefl 0),
        fun j hj => absurd hj (Nat.not_lt_zero j), val, items, type, hr, hp, ?_, hround⟩
      simpa using hs
    · rw [hround] at h ⊢
      by_cases hdepth : ls.length < env.ruleDepth
      · rw [if_pos hdepth] at h
        exact absurd h krError_enoent_ne_zero
      rw [if_neg hdepth] at h ⊢
      -- the rest of the walk starts one label up, no longer at the name asked for
      obtain ⟨k, hk, hkdepth, hbefore, val, items, type, hr, hp, hs, hloop⟩ :=
        ih false nz el' hel' h
      refine ⟨k + 1, by simp; omega, fun _ => ?_, fun j hj => ?_, val, items, type, hr, hp,
        by simpa using hs, hloop⟩
      · rcases Nat.eq_zero_or_pos k with rfl | hk0
        · simp; omega
        · have := hkdepth hk0
          simp; omega
      · cases j with
        | zero => simpa using hpass
        | succ j => simpa using hbefore j (by omega)

/-- `closest_NS` from the query name `s`, when it returns 0: the zone is the ancestor-or-self of
`s` that is `k` labels up, with at least `rule_depth` labels unless it is `s`; the list holds
the items of the record under its NS key, `k->type` is the type of the first slot the scan
accepts there, and `k` is set up for the zone. The walk passed over every name below it. -/
theorem closestNS_spec {s : Dname} {el : List ElSlot} (hel : el.length = elLength)
    (h : (closestNS env (CacheKey.ofZone s) el onlyNS isDS).ret = 0) :
    ∃ k ≤ s.labels.length, (Dname.mk (s.labels.drop k)).IsAncestorOrSelf s ∧
      (0 < k → env.ruleDepth ≤ knotDnameLabels ⟨s.labels.drop k⟩) ∧
      (∀ j < k, NsRoundPasses env onlyNS isDS (j == 0) ⟨s.labels.drop j⟩) ∧
      ∃ val items type, env.cacheRead (nsKey ⟨s.labels.drop k⟩) = .ok val ∧
        entryListParse val = .ok items ∧
        nsScanLoop (fun i => checkNSEntry env ⟨s.labels.drop k⟩
          ((elOfItems val items).getD i .empty).bytes i (k == 0) isDS) (nsScanOrder onlyNS) = some type ∧
        closestNS env (CacheKey.ofZone s) el onlyNS isDS =
          ⟨krOk, CacheKey.ofZone ⟨s.labels.drop k⟩, type, elOfItems val items⟩ := by
  obtain ⟨k, hk, hdepth, hbefore, val, items, type, hr, hp, hs, hout⟩ :=
    closestNSLoop_ok s.labels true true el hel h
  refine ⟨k, hk, Dname.mk_drop_isAncestorOrSelf s k, fun hk0 => ?_, fun j hj => ?_, val, items,
    type, hr, hp, by simpa using hs, hout⟩
  · simpa [knotDnameLabels] using hdepth hk0
  · simpa using hbefore j hj

theorem closestNS_spec_a :
    let s : Dname := ⟨[⟨[97], by simp, by simp⟩]⟩
    let val : List UInt8 := [1, 0, 1, 0, 1, 2, 3, 4] ++ entryRRsetBytes 1 1 1 [[9]] []
    let env : PeekEnv := ⟨cdbRead [(nsKey s, val)], cdbRead_error_ne_zero _, 0, 0, none, fun _ _ => 0⟩
    elZero.length = elLength ∧ (closestNS env (CacheKey.ofZone s) elZero false false).ret = 0 ∧
    ∃ k ≤ s.labels.length, (Dname.mk (s.labels.drop k)).IsAncestorOrSelf s ∧
      (0 < k → env.ruleDepth ≤ knotDnameLabels ⟨s.labels.drop k⟩) ∧
      (∀ j < k, NsRoundPasses env false false (j == 0) ⟨s.labels.drop j⟩) ∧
      ∃ val items type, env.cacheRead (nsKey ⟨s.labels.drop k⟩) = .ok val ∧
        entryListParse val = .ok items ∧
        nsScanLoop (fun i => checkNSEntry env ⟨s.labels.drop k⟩
          ((elOfItems val items).getD i .empty).bytes i (k == 0) false) (nsScanOrder false) =
            some type ∧
        closestNS env (CacheKey.ofZone s) elZero false false =
          ⟨krOk, CacheKey.ofZone ⟨s.labels.drop k⟩, type, elOfItems val items⟩ :=
  have hel : elZero.length = elLength := rfl
  have h : (closestNS ⟨cdbRead [(nsKey ⟨[⟨[97], by simp, by simp⟩]⟩,
      [1, 0, 1, 0, 1, 2, 3, 4] ++ entryRRsetBytes 1 1 1 [[9]] [])], cdbRead_error_ne_zero _, 0, 0,
      none, fun _ _ => 0⟩ (CacheKey.ofZone ⟨[⟨[97], by simp, by simp⟩]⟩) elZero false
      false).ret = 0 := by decide
  ⟨hel, h, closestNS_spec hel h⟩

end Spec

end KnotResolver
