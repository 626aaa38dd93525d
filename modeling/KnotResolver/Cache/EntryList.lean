import Mathlib
import KnotResolver.Cache.EntryH

/-!
# Entry lists: the record under a name's NS key

Under the NS key of a name the cache keeps one record for several things
(`lib/cache/entry_list.c`, `struct entry_apex` in `lib/cache/impl.h`): two slots of NSEC or
NSEC3 parameters and the entries of types NS, CNAME and DNAME. A 4-octet header says which
entries are present and what each parameter slot holds (codes 0, 1 and 3), and the items follow,
each padded to even. `entry_list_memcpy` writes a record from an `entry_list_t`, leaving a hole
for an item without data; `entry_list_parse` reads it back. `entry_h_splice` and `stash_nsec_p`
(`lib/cache/api.c`) rewrite a record through these two.

The main results: a record written by `entry_list_memcpy` parses back to its items
(`entryListParse_entryListMemcpy`); what `entry_list_parse` accepts is laid out as
`entry_list_memcpy` lays it out (`entryListParse_sound`); and `entry_h_splice` and
`stash_nsec_p` leave every item they do not replace as it was (`entryHSplice_keeps_items`,
`stashNsecP_keeps_items`).
-/

namespace KnotResolver

/-! ## Entry lists -/

/-- `ENTRY_APEX_NSECS_CNT` -/
def entryApexNsecsCnt : ℕ := 2

/-- `EL_NS`, `EL_CNAME`, `EL_DNAME` follow the parameter slots; `EL_LENGTH` counts them all. -/
def elNs : ℕ := entryApexNsecsCnt
def elCname : ℕ := entryApexNsecsCnt + 1
def elDname : ℕ := entryApexNsecsCnt + 2
def elLength : ℕ := entryApexNsecsCnt + 3

/-- An item of `entry_list_t`: the octets at its pointer, `none` for `NULL`, and its length. -/
structure ElSlot where
  data : Option (List UInt8)
  len : ℕ

/-- The `len` octets an item points to. -/
def ElSlot.bytes (s : ElSlot) : List UInt8 := (s.data.getD []).take s.len

/-- An empty item. -/
def ElSlot.empty : ElSlot := ⟨none, 0⟩

/-- `nsec_p_rdlen`: the length of NSEC3PARAM data, from its salt length octet. -/
def nsecPRdlen (rdata : List UInt8) : ℕ := 5 + (rdata.getD 4 0).toNat

/-- The code of `entry_apex.nsecs` for a parameter slot of length `len`. -/
def nsecCode (len : ℕ) : UInt8 := if len = 0 then 0 else if len = 4 then 1 else 3

/-- `entry_list_serial_size` -/
def entryListSerialSize (list : List ElSlot) : ℕ := 4 + ((list.map ElSlot.len).map toEven).sum

/-- Where item `i` of a record of items of lengths `lens` starts: after the header and the
items before it, each padded to even. -/
def elOffset (lens : List ℕ) (i : ℕ) : ℕ := 4 + ((lens.take i).map toEven).sum

/-- The loop of `entry_list_memcpy` over the items from offset `it`: an item with data is
copied, an item without is left as a hole of its length. -/
def elCopyLoop : List UInt8 → List ElSlot → ℕ → List UInt8
  | buf, [], _ => buf
  | buf, s :: rest, it =>
    let buf := if s.data.isSome then writeBytes buf it s.bytes else buf
    elCopyLoop buf rest (it + toEven s.len)

/-- The header `entry_list_memcpy` writes for items of lengths `lens`: the bits of the entries
present, a zero pad octet and the codes of the parameter slots. -/
def elHeader (lens : List ℕ) : List UInt8 :=
  let len i := lens.getD i 0
  [(if len elNs ≠ 0 then 1 else 0) ||| (if len elCname ≠ 0 then 2 else 0) |||
    (if len elDname ≠ 0 then 4 else 0), 0, nsecCode (len 0), nsecCode (len 1)]

/-- `entry_list_memcpy` into the buffer `ea`: the header, then the items. The holes left for
`NULL` items start at their `elOffset`. -/
def entryListMemcpy (ea : List UInt8) (list : List ElSlot) : List UInt8 :=
  elCopyLoop (writeBytes ea 0 (elHeader (list.map ElSlot.len))) list 4

/-- The bit of `entry_apex` that says entry `i` (one of `EL_NS`, `EL_CNAME`, `EL_DNAME`) is
present. -/
def apexHasType (val : List UInt8) (i : ℕ) : Bool := (val.getD 0 0).toNat.testBit (i - elNs)

/-- One item of `entry_list_parse` at offset `it`: its length. -/
def elParseItem (val : List UInt8) (i it : ℕ) : Except ℤ ℕ :=
  if i < entryApexNsecsCnt then
    if it > val.length then .error (krError Errno.eilseq)
    else match (val.getD (2 + i) 0).toNat with
      | 0 => .ok 0
      -- just the time stamp
      | 1 => .ok 4
      -- the time stamp and NSEC3PARAM data
      | 3 => if it + 4 + 4 > val.length then .error (krError Errno.eilseq)
          else .ok (4 + nsecPRdlen (val.drop (it + 4)))
      | _ => .error (krError Errno.eilseq)
  else if !apexHasType val i then .ok 0
  else if ¬ it < val.length then .error (krError Errno.eilseq)
  else entryHLen (val.drop it)

/-- The loops of `entry_list_parse` over the items `is` from offset `it`: each item's offset and
length, and the check that the last one ends the value. -/
def entryListParseLoop (val : List UInt8) : List ℕ → ℕ → Except ℤ (List (ℕ × ℕ))
  | [], it => if it = val.length then .ok [] else .error (krError Errno.eilseq)
  | i :: is, it => do
    let len ← elParseItem val i it
    let rest ← entryListParseLoop val is (it + toEven len)
    return (it, len) :: rest

/-- `entry_list_parse`: the items of the record as offsets and lengths within it. -/
def entryListParse (val : List UInt8) : Except ℤ (List (ℕ × ℕ)) :=
  if val.length = 0 then .error (krError Errno.einval)
  else entryListParseLoop val (List.range elLength) 4

/-! ## Rewriting a record -/

/-- The item of `entry_list_t` for entries of `type`: `EL_NS`, `EL_CNAME` or `EL_DNAME`, and 0
for the types that have no item. -/
def elTypeIndex (type : RRType) : ℕ :=
  if type = RRType.ns then elNs else if type = RRType.cname then elCname
  else if type = RRType.dname then elDname else 0

/-- The items of a parsed record as `entry_list_t` holds them: pointers into the value. -/
def elOfItems (val : List UInt8) (items : List (ℕ × ℕ)) : List ElSlot :=
  items.map fun p => ⟨some (val.drop p.1), p.2⟩

/-- The octets that item `j` of a parsed record points at. -/
def elItemContent (val : List UInt8) (items : List (ℕ × ℕ)) (j : ℕ) : List UInt8 :=
  (val.drop (items.getD j (0, 0)).1).take (items.getD j (0, 0)).2

/-- An `entry_list_t` cleared by `memset`. -/
def elZero : List ElSlot := List.replicate elLength .empty

/-- `entry_h_splice` for a new entry of length `valNewLen` and `type`, under a key of type
`ktype`: the value it writes and the offset at which the caller is to write the entry. The cache
is seen through `cacheRead`, what `cache_op(read)` gives for the key, and `cacheWrite`, the code
of `cache_write_or_clear`; `overwriteRefused` stands for the rank and TTL test against the old
entry (`entry_h_consistent_E`, `get_new_ttl`, `is_expiring`), and `uninit n` for the octets of
an uninitialised buffer of `n` octets. -/
def entryHSplice (valNewLen : ℕ) (rank : UInt8) (ktype type : RRType)
    (cacheRead : Except ℤ (List UInt8)) (overwriteRefused : List UInt8 → Bool)
    (uninit : ℕ → List UInt8) (cacheWrite : ℤ) : Except ℤ (List UInt8 × ℕ) :=
  if valNewLen = 0 then .error (krError Errno.einval) else
  let iType := elTypeIndex type
  -- the items of the record and the old entry, read unless a secure entry fully overwrites
  let (el, ehOrig) : List ElSlot × Option (List UInt8) :=
    if !krRankTest rank Rank.secure || ktype == RRType.ns then
      match cacheRead with
      | .error _ => (elZero, none)
      | .ok val =>
        if iType = 0 then (elZero, some val)
        else match entryListParse val with
          | .error _ => (elZero, none)
          | .ok items => (elOfItems val items, some ((elOfItems val items).getD iType .empty).bytes)
    else (elZero, none)
  if !krRankTest rank Rank.secure && ehOrig.any overwriteRefused then
    .error (krError Errno.eexist)
  else if iType = 0 then
    -- the types without an item: the new entry is the whole value
    if cacheWrite ≠ 0 then .error cacheWrite else .ok (uninit valNewLen, 0)
  else
    let el := el.set iType ⟨none, valNewLen⟩
    let val := entryListMemcpy (uninit (entryListSerialSize el)) el
    if cacheWrite ≠ 0 then .error (krError cacheWrite)
    else .ok (val, elOffset (el.map ElSlot.len) iType)

/-- What the loop of `stash_nsec_p` decides on the parameter slots. -/
inductive NsecPSlot where
  /-- the parameters are there and their validity would grow by less than the margin -/
  | skip
  /-- the slot to replace; the slots before it move one place up -/
  | replace (i : ℕ)
deriving DecidableEq

/-- `ttl_margin` of `stash_nsec_p`, in seconds. -/
def nsecPTtlMargin : Int32 := 3600

/-- The two tests by which the loop of `stash_nsec_p` goes on to the next slot fail on slot `i`:
it has the length of the new data and, for NSEC3, the same parameters. -/
def nsecPSlotMatches (val : List UInt8) (items : List (ℕ × ℕ)) (nsecP : Option (List UInt8))
    (dataStride i : ℕ) : Bool :=
  (items.getD i (0, 0)).2 == dataStride &&
    !nsecP.any fun p => p.take (dataStride - 4) !=
      (val.drop ((items.getD i (0, 0)).1 + 4)).take (dataStride - 4)

/-- The loop of `stash_nsec_p` over the parameter slots `is` of a parsed record: a slot of the
same length and parameters is refreshed unless its validity grows by less than the margin;
without one, the last slot is replaced. -/
def nsecPFindLoop (val : List UInt8) (items : List (ℕ × ℕ)) (nsecP : Option (List UInt8))
    (dataStride : ℕ) (validUntil : UInt32) : List ℕ → NsecPSlot
  | [] => .replace (entryApexNsecsCnt - 1)
  | i :: is =>
    if !nsecPSlotMatches val items nsecP dataStride i then
      nsecPFindLoop val items nsecP dataStride validUntil is
    else
      let validOrig := (readHost32 val (items.getD i (0, 0)).1).toUInt32
      if (validUntil - validOrig).toInt32 < nsecPTtlMargin then .skip else .replace i

/-- `stash_nsec_p` for the parameters `nsecP` (`NULL` for NSEC) of a zone: the value it writes
under the zone's NS key, if it writes one. The time stamp is `timestamp + ttl_max`; the cache is
seen through `cacheRead` and `cacheWrite` as in `entryHSplice`, and `uninit n` is the buffer
`mm_alloc` gives. -/
def stashNsecP (nsecP : Option (List UInt8)) (timestamp ttlMax : UInt32)
    (cacheRead : Except ℤ (List UInt8)) (uninit : ℕ → List UInt8) (cacheWrite : ℤ) :
    Option (List UInt8) :=
  let validUntil := timestamp + ttlMax
  let dataStride := 4 + (nsecP.map nsecPRdlen).getD 0
  -- the items to write, with slot 0 to be replaced
  let el : Option (List ElSlot) := match cacheRead with
    | .error e => if e = krError Errno.enoent then some elZero else none
    | .ok valOrig => match entryListParse valOrig with
      | .error _ => none
      | .ok items =>
        let el := elOfItems valOrig items
        match nsecPFindLoop valOrig items nsecP dataStride validUntil
            (List.range entryApexNsecsCnt) with
        | .skip => none
        | .replace iReplace =>
          -- memmove: the first `iReplace` items move one place up
          some (if iReplace ≠ 0 then el.take 1 ++ el.take iReplace ++ el.drop (iReplace + 1)
            else el)
  el.bind fun el =>
    let el := el.set 0 ⟨none, dataStride⟩
    let val := entryListMemcpy (uninit (entryListSerialSize el)) el
    -- the new data chunk: the time stamp, then the parameters
    let val := writeBytes val 4
      (hostBytes32 validUntil ++ (nsecP.getD []).take (dataStride - 4))
    if cacheWrite = 0 then some val else none

/-! ## Writing a record -/

section Write

/-- An item whose pointer shows at least its length of octets, as `memcpy` needs. -/
def ElSlot.Fits (s : ElSlot) : Prop := ∀ d ∈ s.data, s.len ≤ d.length

theorem ElSlot.length_bytes {s : ElSlot} (hs : s.Fits) (hd : s.data.isSome) :
    s.bytes.length = s.len := by
  obtain ⟨d, hd⟩ := Option.isSome_iff_exists.mp hd
  have := hs d hd
  simp only [ElSlot.bytes, hd, Option.getD_some, List.length_take]
  omega

/-- One round of the copy loop: an item with data is written at `it`, the rest is left. -/
theorem elCopyStep {s : ElSlot} (hs : s.Fits) {buf : List UInt8} {it : ℕ}
    (hfit : it + toEven s.len ≤ buf.length) :
    let buf' := if s.data.isSome then writeBytes buf it s.bytes else buf
    buf'.length = buf.length ∧ buf'.take it = buf.take it ∧
      (s.data.isSome → (buf'.drop it).take s.len = s.bytes) := by
  have hE := le_toEven s.len
  cases hd : s.data with
  | none => simp
  | some d =>
    have hb : s.bytes.length = s.len := ElSlot.length_bytes hs (by simp [hd])
    refine ⟨length_writeBytes (by omega), take_writeBytes_of_le le_rfl (by omega), fun _ => ?_⟩
    have h : ((writeBytes buf it s.bytes).drop it).take s.bytes.length = s.bytes :=
      drop_take_writeBytes_self (by omega)
    simpa [hb] using h

/-- `entry_list_memcpy`'s loop keeps the buffer's length and what lies before `it`, and puts
each item with data at its place. -/
theorem elCopyLoop_spec : ∀ (list : List ElSlot) (buf : List UInt8) (it : ℕ),
    (∀ s ∈ list, s.Fits) → it + ((list.map ElSlot.len).map toEven).sum ≤ buf.length →
    (elCopyLoop buf list it).length = buf.length ∧
    (elCopyLoop buf list it).take it = buf.take it ∧
    ∀ i < list.length, (list.getD i .empty).data.isSome →
      ((elCopyLoop buf list it).drop (it + (((list.map ElSlot.len).take i).map toEven).sum)).take
        (list.getD i .empty).len = (list.getD i .empty).bytes
  | [], buf, it, _, _ => by simp [elCopyLoop]
  | s :: rest, buf, it, hfits, hfit => by
    have hE := le_toEven s.len
    simp only [List.map_cons, List.sum_cons] at hfit
    obtain ⟨hlen', htake', hitem'⟩ := @elCopyStep s (hfits s List.mem_cons_self) buf it (by omega)
    set buf' := if s.data.isSome then writeBytes buf it s.bytes else buf with hbuf'
    obtain ⟨hlen, htake, hitem⟩ := elCopyLoop_spec rest buf' (it + toEven s.len)
      (fun s' hs' => hfits s' (List.mem_cons_of_mem _ hs')) (by omega)
    have hloop : elCopyLoop buf (s :: rest) it = elCopyLoop buf' rest (it + toEven s.len) := rfl
    -- what the later rounds write lies past this item
    have hfirst : (elCopyLoop buf' rest (it + toEven s.len)).take (it + s.len) = buf'.take (it + s.len) := by
      rw [← take_take_of_le (show it + s.len ≤ it + toEven s.len by omega), htake,
        take_take_of_le (by omega)]
    rw [hloop]
    refine ⟨hlen.trans hlen', ?_, fun i hi hd => ?_⟩
    · rw [← take_take_of_le (show it ≤ it + s.len by omega), hfirst,
        take_take_of_le (by omega), htake']
    · cases i with
      | zero =>
        simp only [List.getD_cons_zero, List.take_zero, List.map_nil, List.sum_nil,
          Nat.add_zero] at hd ⊢
        rw [take_drop_eq_drop_take, hfirst, ← take_drop_eq_drop_take, hitem' hd]
      | succ i =>
        simp only [List.getD_cons_succ, List.length_cons, List.map_cons, List.take_succ_cons,
          List.sum_cons] at hd hi ⊢
        rw [← Nat.add_assoc]
        exact hitem i (by omega) hd

end Write

/-! ## The layout of a record -/

section Layout

/-- The octets of item `i` in a record whose items have lengths `lens`. -/
def elItemBytes (val : List UInt8) (lens : List ℕ) (i : ℕ) : List UInt8 :=
  (val.drop (elOffset lens i)).take (lens.getD i 0)

theorem elOffset_zero (lens : List ℕ) : elOffset lens 0 = 4 := by
  simp [elOffset]

theorem elOffset_succ (lens : List ℕ) (i : ℕ) :
    elOffset lens (i + 1) = elOffset lens i + toEven (lens.getD i 0) := by
  rw [elOffset, elOffset, List.take_add_one, List.map_append, List.sum_append]
  rcases Nat.lt_or_ge i lens.length with hi | hi
  · rw [List.getElem?_eq_getElem hi, List.getD_eq_getElem _ _ hi]
    simp
    omega
  · rw [List.getElem?_eq_none hi, List.getD_eq_default _ _ hi]
    simp [toEven]

/-- An item ends before the offset of any later one. -/
theorem elOffset_add_le {lens : List ℕ} {i j : ℕ} (hij : i < j) :
    elOffset lens i + toEven (lens.getD i 0) ≤ elOffset lens j := by
  induction j with
  | zero => omega
  | succ j ih =>
    rw [elOffset_succ]
    rcases Nat.lt_or_ge i j with h | h
    · have := ih h
      omega
    · rw [show i = j by omega]

/-- The last item ends where the record does. -/
theorem elOffset_length (lens : List ℕ) :
    elOffset lens lens.length = 4 + (lens.map toEven).sum := by
  simp [elOffset]

theorem elOffset_add_le_length {lens : List ℕ} {i : ℕ} (hi : i < lens.length) :
    elOffset lens i + toEven (lens.getD i 0) ≤ 4 + (lens.map toEven).sum :=
  elOffset_length lens ▸ elOffset_add_le hi

theorem getD_map_len (list : List ElSlot) (i : ℕ) :
    (list.map ElSlot.len).getD i 0 = (list.getD i .empty).len := by
  rw [show (0 : ℕ) = ElSlot.empty.len from rfl, List.getD_map]

theorem fits_of_getD {list : List ElSlot} (h : ∀ j < list.length, (list.getD j .empty).Fits) :
    ∀ s ∈ list, s.Fits := by
  intro s hs
  obtain ⟨j, hj, rfl⟩ := List.getElem_of_mem hs
  have := h j hj
  rwa [List.getD_eq_getElem _ _ hj] at this

/-- `entry_list_memcpy` into a buffer of the record's size: the header for the items' lengths,
and each item with data in its place. -/
theorem entryListMemcpy_spec {list : List ElSlot} (hfits : ∀ s ∈ list, s.Fits) {ea : List UInt8}
    (hea : ea.length = entryListSerialSize list) :
    (entryListMemcpy ea list).length = ea.length ∧
    (entryListMemcpy ea list).take 4 = elHeader (list.map ElSlot.len) ∧
    ∀ i < list.length, (list.getD i .empty).data.isSome →
      elItemBytes (entryListMemcpy ea list) (list.map ElSlot.len) i = (list.getD i .empty).bytes := by
  have hsize : 4 ≤ ea.length := by rw [hea, entryListSerialSize]; omega
  have hhdr : (elHeader (list.map ElSlot.len)).length = 4 := rfl
  have hw : (writeBytes ea 0 (elHeader (list.map ElSlot.len))).length = ea.length :=
    length_writeBytes (by omega)
  obtain ⟨hlen, htake, hitem⟩ := elCopyLoop_spec list
    (writeBytes ea 0 (elHeader (list.map ElSlot.len))) 4 hfits
    (by rw [hw, hea, entryListSerialSize])
  refine ⟨hlen.trans hw, ?_, fun i hi hd => ?_⟩
  · rw [entryListMemcpy, htake]
    have h : ((writeBytes ea 0 (elHeader (list.map ElSlot.len))).drop 0).take
        (elHeader (list.map ElSlot.len)).length = elHeader (list.map ElSlot.len) :=
      drop_take_writeBytes_self (by omega)
    rwa [List.drop_zero, hhdr] at h
  · have hlens : (list.map ElSlot.len).getD i 0 = (list.getD i .empty).len := by
      rw [show (0 : ℕ) = ElSlot.empty.len from rfl, List.getD_map]
    rw [elItemBytes, hlens, elOffset]
    exact hitem i hi hd

/-- The caller's write into the hole of item `i` gives it its octets and leaves the header
and every other item. -/
theorem elItemBytes_writeBytes {val : List UInt8} {lens : List ℕ}
    (hval : val.length = 4 + (lens.map toEven).sum) {i : ℕ} (hi : i < lens.length)
    {e : List UInt8} (he : e.length = lens.getD i 0) (j : ℕ) :
    elItemBytes (writeBytes val (elOffset lens i) e) lens j =
      if j = i then e else elItemBytes val lens j := by
  have hfit : elOffset lens i + e.length ≤ val.length := by
    have := elOffset_add_le_length hi
    have := le_toEven (lens.getD i 0)
    omega
  rw [elItemBytes]
  split_ifs with hji
  · subst hji
    rw [← he]
    exact drop_take_writeBytes_self hfit
  · rw [elItemBytes]
    apply drop_take_writeBytes_of_disjoint _ hfit
    rcases Nat.lt_or_gt_of_ne hji with h | h
    · have := @elOffset_add_le lens _ _ h
      have := le_toEven (lens.getD j 0)
      omega
    · have := @elOffset_add_le lens _ _ h
      have := le_toEven (lens.getD i 0)
      omega

theorem take_writeBytes_elOffset {val : List UInt8} {lens : List ℕ}
    (hval : val.length = 4 + (lens.map toEven).sum) {i : ℕ} (hi : i < lens.length)
    (e : List UInt8) : (writeBytes val (elOffset lens i) e).take 4 = val.take 4 := by
  have := elOffset_add_le_length hi
  exact take_writeBytes_of_le (by simp [elOffset]) (by omega)

end Layout

/-! ## Parsing a record -/

section Parse

/-- A record of items of lengths `lens` as `entry_list_memcpy` lays it out: five items, the
size `entry_list_serial_size` gives and the header for those lengths. -/
structure ElLayout (val : List UInt8) (lens : List ℕ) : Prop where
  length_lens : lens.length = elLength
  length_val : val.length = 4 + (lens.map toEven).sum
  header : val.take 4 = elHeader lens

/-- What a parameter slot holds: nothing, the four-octet time stamp of NSEC, or the stamp and
NSEC3PARAM data, whose fifth octet (the salt length) gives its length. -/
def NsecItemWf (len : ℕ) (c : List UInt8) : Prop :=
  len = 0 ∨ len = 4 ∨ len = 4 + nsecPRdlen (c.drop 4)

/-- The items `entry_list_parse` finds in a record of items of lengths `lens`: an entry's
length comes back padded to even. -/
def elParsedItems (lens : List ℕ) : List (ℕ × ℕ) :=
  (List.range elLength).map fun i =>
    (elOffset lens i, if i < entryApexNsecsCnt then lens.getD i 0 else toEven (lens.getD i 0))

/-- The loops of `entry_list_parse` over items that each parse in place. -/
theorem entryListParseLoop_range' {val : List UInt8} {lens : List ℕ} {P : ℕ → ℕ}
    (hP : ∀ j, toEven (P j) = toEven (lens.getD j 0)) :
    ∀ m k, (∀ j, k ≤ j → j < k + m → elParseItem val j (elOffset lens j) = .ok (P j)) →
      elOffset lens (k + m) = val.length →
      entryListParseLoop val (List.range' k m) (elOffset lens k) =
        .ok ((List.range' k m).map fun j => (elOffset lens j, P j))
  | 0, k, _, hend => by
    rw [Nat.add_zero] at hend
    simp [entryListParseLoop, hend]
  | m + 1, k, hitems, hend => by
    have hk := hitems k le_rfl (by omega)
    have hnext : elOffset lens k + toEven (P k) = elOffset lens (k + 1) := by
      rw [elOffset_succ, hP]
    have ih := entryListParseLoop_range' hP m (k + 1)
      (fun j hj hjm => hitems j (by omega) (by omega)) (by rw [← hend]; congr 1; omega)
    simp only [List.range'_succ, entryListParseLoop, hk]
    change (entryListParseLoop val (List.range' (k + 1) m) (elOffset lens k + toEven (P k)) >>=
      fun rest => pure ((elOffset lens k, P k) :: rest)) = _
    rw [hnext, ih]
    rfl

/-- A parameter slot parses to the length it was written with. -/
theorem elParseItem_nsec {val : List UInt8} {lens : List ℕ} (hl : ElLayout val lens) {i : ℕ}
    (hi : i < entryApexNsecsCnt) (hwf : NsecItemWf (lens.getD i 0) (elItemBytes val lens i)) :
    elParseItem val i (elOffset lens i) = .ok (lens.getD i 0) := by
  have hil : i < lens.length := by rw [hl.length_lens]; simp [elLength, entryApexNsecsCnt] at hi ⊢; omega
  have hend := elOffset_add_le_length hil
  have hE := le_toEven (lens.getD i 0)
  rw [← hl.length_val] at hend
  -- the code of the slot is the one the header was written with
  have hcode : (val.getD (2 + i) 0) = nsecCode (lens.getD i 0) := by
    rw [← getD_take (show 2 + i < 4 by simp [entryApexNsecsCnt] at hi; omega), hl.header]
    simp [entryApexNsecsCnt] at hi
    interval_cases i <;> rfl
  rw [elParseItem, if_pos hi, if_neg (by omega), hcode]
  rcases hwf with h0 | h4 | h3
  · rw [h0]
    rfl
  · rw [h4]
    rfl
  · -- NSEC3: the salt length is read from the slot itself
    have hge : 9 ≤ lens.getD i 0 := by rw [h3, nsecPRdlen]; omega
    have hsalt : nsecPRdlen (val.drop (elOffset lens i + 4)) =
        nsecPRdlen ((elItemBytes val lens i).drop 4) := by
      rw [nsecPRdlen, nsecPRdlen, getD_drop, getD_drop, elItemBytes,
        getD_take (show 4 + 4 < lens.getD i 0 by omega), getD_drop, Nat.add_assoc]
    have hc : nsecCode (lens.getD i 0) = 3 := by
      simp only [nsecCode]
      rw [if_neg (by omega), if_neg (by omega)]
    rw [hc]
    simp only [UInt8.toNat_ofNat]
    rw [if_neg (by omega), hsalt, ← h3]

/-- The header bit of entry `i` is set exactly for an entry of non-zero length. -/
theorem apexHasType_of_header {val : List UInt8} {lens : List ℕ} (h : val.take 4 = elHeader lens)
    {i : ℕ} (hi : elNs ≤ i) (hi' : i < elLength) :
    apexHasType val i = decide (lens.getD i 0 ≠ 0) := by
  -- the three bits of the flag octet, for any lengths
  have key : ∀ a b c : ℕ, ((if a ≠ 0 then 1 else 0) ||| (if b ≠ 0 then 2 else 0) |||
      (if c ≠ 0 then 4 else 0) : UInt8).toNat.testBit 0 = decide (a ≠ 0) ∧
      ((if a ≠ 0 then 1 else 0) ||| (if b ≠ 0 then 2 else 0) |||
      (if c ≠ 0 then 4 else 0) : UInt8).toNat.testBit 1 = decide (b ≠ 0) ∧
      ((if a ≠ 0 then 1 else 0) ||| (if b ≠ 0 then 2 else 0) |||
      (if c ≠ 0 then 4 else 0) : UInt8).toNat.testBit 2 = decide (c ≠ 0) := by
    intro a b c
    by_cases ha : a = 0 <;> by_cases hb : b = 0 <;> by_cases hc : c = 0 <;> simp [ha, hb, hc] <;>
      decide
  obtain ⟨k0, k1, k2⟩ := key (lens.getD elNs 0) (lens.getD elCname 0) (lens.getD elDname 0)
  rw [apexHasType, ← getD_take (show 0 < 4 by omega), h]
  simp only [elNs, elLength, entryApexNsecsCnt] at hi hi'
  interval_cases i
  exacts [k0, k1, k2]

/-- An entry slot parses to its length padded to even. -/
theorem elParseItem_entry {val : List UInt8} {lens : List ℕ} (hl : ElLayout val lens) {i : ℕ}
    (hi : elNs ≤ i) (hi' : i < elLength)
    (hwf : lens.getD i 0 = 0 ∨ EntryStable (elItemBytes val lens i)) :
    elParseItem val i (elOffset lens i) = .ok (toEven (lens.getD i 0)) := by
  have hil : i < lens.length := hl.length_lens ▸ hi'
  have hend := elOffset_add_le_length hil
  rw [← hl.length_val] at hend
  rw [elParseItem, if_neg (by simp [elNs] at hi; omega), apexHasType_of_header hl.header hi hi']
  set L := lens.getD i 0 with hL
  have hE := le_toEven L
  by_cases h0 : L = 0
  · rw [h0]
    rfl
  · have hst := hwf.resolve_left h0
    have hc : (elItemBytes val lens i).length = L := by
      rw [elItemBytes, List.length_take, List.length_drop, ← hL]
      omega
    rw [decide_eq_true h0, Bool.not_true, if_neg (by simp), if_neg (not_not.mpr (by omega)),
      ← List.take_append_drop L (val.drop (elOffset lens i))]
    have h := hst ((val.drop (elOffset lens i)).drop L)
      (by rw [hc, List.length_drop, List.length_drop]; omega)
    rwa [hc] at h

/-- `entry_list_parse` of a record laid out as `entry_list_memcpy` does: each item at its
offset, with the length it was written with (an entry's padded to even). -/
theorem entryListParse_of_layout {val : List UInt8} {lens : List ℕ} (hl : ElLayout val lens)
    (hnsec : ∀ i < entryApexNsecsCnt, NsecItemWf (lens.getD i 0) (elItemBytes val lens i))
    (hentry : ∀ i, elNs ≤ i → i < elLength →
      lens.getD i 0 = 0 ∨ EntryStable (elItemBytes val lens i)) :
    entryListParse val = .ok (elParsedItems lens) := by
  have hval : val.length ≠ 0 := by rw [hl.length_val]; omega
  have hP : ∀ j, toEven (if j < entryApexNsecsCnt then lens.getD j 0 else toEven (lens.getD j 0)) =
      toEven (lens.getD j 0) := by
    intro j
    split_ifs
    · rfl
    · exact toEven_toEven _
  have hloop := @entryListParseLoop_range' val _ _ hP elLength 0
    (fun j _ hj => by
      split_ifs with hjn
      · exact elParseItem_nsec hl hjn (hnsec j hjn)
      · exact elParseItem_entry hl (by simp [elNs]; omega) (by omega)
          (hentry j (by simp [elNs]; omega) (by omega)))
    (by rw [Nat.zero_add, ← hl.length_lens, elOffset_length, hl.length_val])
  have hoff : elOffset lens 0 = 4 := by simp [elOffset]
  rw [hoff] at hloop
  rw [entryListParse, if_neg hval, List.range_eq_range', hloop]
  rfl

end Parse

/-! ## The round trip -/

section RoundTrip

/-- A parameter slot as `stash_nsec_p` fills it: empty, or data of the time stamp of NSEC or of
the stamp and NSEC3PARAM data. -/
def ElNsecSlotWf (s : ElSlot) : Prop := s.len = 0 ∨ (s.data.isSome ∧ s.Fits ∧ NsecItemWf s.len s.bytes)

/-- An entry slot: empty, or data of an entry as the cache writes it. -/
def ElEntrySlotWf (s : ElSlot) : Prop := s.len = 0 ∨ (s.data.isSome ∧ s.Fits ∧ EntryHWf s.bytes)

theorem bytes_of_len_eq_zero {s : ElSlot} (h : s.len = 0) : s.bytes = [] := by
  simp [ElSlot.bytes, h]

theorem ElNsecSlotWf.fits {s : ElSlot} (h : ElNsecSlotWf s) : s.Fits := by
  rcases h with h0 | ⟨-, hf, -⟩
  · intro d _
    omega
  · exact hf

theorem ElEntrySlotWf.fits {s : ElSlot} (h : ElEntrySlotWf s) : s.Fits := by
  rcases h with h0 | ⟨-, hf, -⟩
  · intro d _
    omega
  · exact hf

theorem entryListParse_entryListMemcpy {list : List ElSlot} (hlen : list.length = elLength)
    (hnsec : ∀ i < entryApexNsecsCnt, ElNsecSlotWf (list.getD i .empty))
    (hentry : ∀ i, elNs ≤ i → i < elLength → ElEntrySlotWf (list.getD i .empty))
    {ea : List UInt8} (hea : ea.length = entryListSerialSize list) :
    entryListParse (entryListMemcpy ea list) = .ok (elParsedItems (list.map ElSlot.len)) ∧
    ∀ i < elLength, elItemBytes (entryListMemcpy ea list) (list.map ElSlot.len) i =
      (list.getD i .empty).bytes := by
  -- every item of the list is one of the five the hypotheses describe
  have hfits : ∀ s ∈ list, s.Fits := by
    intro s hs
    obtain ⟨i, hi, rfl⟩ := List.getElem_of_mem hs
    rw [← List.getD_eq_getElem _ ElSlot.empty hi]
    rw [hlen] at hi
    by_cases hin : i < entryApexNsecsCnt
    · exact (hnsec i hin).fits
    · exact (hentry i (by simp [elNs]; omega) hi).fits
  obtain ⟨hvlen, hhdr, hitem⟩ := entryListMemcpy_spec hfits hea
  have hbytes : ∀ i < elLength, elItemBytes (entryListMemcpy ea list) (list.map ElSlot.len) i =
      (list.getD i .empty).bytes := by
    intro i hi
    by_cases h0 : (list.getD i .empty).len = 0
    · rw [bytes_of_len_eq_zero h0, elItemBytes, getD_map_len, h0, List.take_zero]
    · have hd : (list.getD i .empty).data.isSome := by
        by_cases hin : i < entryApexNsecsCnt
        · exact ((hnsec i hin).resolve_left h0).1
        · exact ((hentry i (by simp [elNs]; omega) hi).resolve_left h0).1
      exact hitem i (by rw [hlen]; exact hi) hd
  have hl : ElLayout (entryListMemcpy ea list) (list.map ElSlot.len) :=
    ⟨by rw [List.length_map, hlen], by rw [hvlen, hea, entryListSerialSize], hhdr⟩
  refine ⟨entryListParse_of_layout hl (fun i hi => ?_) (fun i hi hi' => ?_), hbytes⟩
  · rw [getD_map_len, hbytes i (by simp [elLength, entryApexNsecsCnt] at hi ⊢; omega)]
    rcases hnsec i hi with h0 | ⟨-, -, hwf⟩
    · exact .inl h0
    · exact hwf
  · rw [getD_map_len, hbytes i hi']
    rcases hentry i hi hi' with h0 | ⟨-, -, hwf⟩
    · exact .inl h0
    · exact .inr hwf.entryStable

theorem entryListParse_entryListMemcpy_ns :
    let list : List ElSlot :=
      [⟨some [1, 2, 3, 4], 4⟩, .empty, ⟨some (entryRRsetBytes 1 1 1 [[9]] []), 18⟩, .empty, .empty]
    let ea : List UInt8 := List.replicate 26 0
    list.length = elLength ∧ (∀ i < entryApexNsecsCnt, ElNsecSlotWf (list.getD i .empty)) ∧
      (∀ i, elNs ≤ i → i < elLength → ElEntrySlotWf (list.getD i .empty)) ∧
      ea.length = entryListSerialSize list ∧
      entryListParse (entryListMemcpy ea list) = .ok (elParsedItems (list.map ElSlot.len)) ∧
      ∀ i < elLength, elItemBytes (entryListMemcpy ea list) (list.map ElSlot.len) i =
        (list.getD i .empty).bytes :=
  have hlen : [(⟨some [1, 2, 3, 4], 4⟩ : ElSlot), .empty,
      ⟨some (entryRRsetBytes 1 1 1 [[9]] []), 18⟩, .empty, .empty].length = elLength := rfl
  have hnsec : ∀ i < entryApexNsecsCnt, ElNsecSlotWf ([(⟨some [1, 2, 3, 4], 4⟩ : ElSlot), .empty,
      ⟨some (entryRRsetBytes 1 1 1 [[9]] []), 18⟩, .empty, .empty].getD i .empty) := by
    intro i hi
    have hi : i < 2 := hi
    interval_cases i
    · exact .inr ⟨rfl, fun d hd => by cases hd; decide, .inr (.inl rfl)⟩
    · exact .inl rfl
  have hentry : ∀ i, elNs ≤ i → i < elLength → ElEntrySlotWf ([(⟨some [1, 2, 3, 4], 4⟩ : ElSlot),
      .empty, ⟨some (entryRRsetBytes 1 1 1 [[9]] []), 18⟩, .empty, .empty].getD i .empty) := by
    intro i hi hi'
    have hi : 2 ≤ i := hi
    have hi' : i < 5 := hi'
    interval_cases i
    · exact .inr ⟨rfl, fun d hd => by cases hd; decide,
        .inl ⟨1, 1, 1, [[9]], [], by decide, by decide, rfl⟩⟩
    · exact .inl rfl
    · exact .inl rfl
  have hea : (List.replicate 26 (0 : UInt8)).length = entryListSerialSize
      [(⟨some [1, 2, 3, 4], 4⟩ : ElSlot), .empty, ⟨some (entryRRsetBytes 1 1 1 [[9]] []), 18⟩,
        .empty, .empty] := rfl
  ⟨hlen, hnsec, hentry, hea, entryListParse_entryListMemcpy hlen hnsec hentry hea⟩

end RoundTrip

/-! ## What an accepted record holds -/

section Sound

theorem except_bind_eq_ok {α β : Type} {x : Except ℤ α} {f : α → Except ℤ β} {b : β}
    (h : x.bind f = .ok b) : ∃ a, x = .ok a ∧ f a = .ok b := by
  cases x with
  | error e => cases h
  | ok a => exact ⟨a, rfl, h⟩

/-- The loops of `entry_list_parse` when they succeed: an item for each index, each at the
offset after the items before it, and the last one ending the value. -/
theorem entryListParseLoop_inv {val : List UInt8} :
    ∀ (is : List ℕ) (it : ℕ) (items : List (ℕ × ℕ)), entryListParseLoop val is it = .ok items →
      items.length = is.length ∧ it + ((items.map Prod.snd).map toEven).sum = val.length ∧
      ∀ j < is.length, (items.getD j (0, 0)).1 = it + (((items.map Prod.snd).take j).map toEven).sum ∧
        elParseItem val (is.getD j 0) (items.getD j (0, 0)).1 = .ok (items.getD j (0, 0)).2
  | [], it, items, h => by
    simp only [entryListParseLoop] at h
    split_ifs at h with hit
    cases h
    simp [hit]
  | i :: is, it, items, h => by
    obtain ⟨len, hi, h⟩ := except_bind_eq_ok h
    obtain ⟨rest, hr, h⟩ := except_bind_eq_ok h
    cases h
    obtain ⟨hlen, hend, hitems⟩ := entryListParseLoop_inv is _ rest hr
    refine ⟨by simp [hlen], by simp only [List.map_cons, List.sum_cons]; omega, fun j hj => ?_⟩
    cases j with
    | zero => simp [hi]
    | succ j =>
      obtain ⟨hoff, hok⟩ := hitems j (by simpa using hj)
      simp only [List.getD_cons_succ, List.map_cons, List.take_succ_cons, List.sum_cons]
      exact ⟨by omega, hok⟩

/-- A parameter slot `entry_list_parse` accepted holds one of the three kinds of data. -/
theorem nsecItemWf_of_elParseItem {val : List UInt8} {i it len : ℕ} (hi : i < entryApexNsecsCnt)
    (h : elParseItem val i it = .ok len) (hfit : it + len ≤ val.length) :
    NsecItemWf len ((val.drop it).take len) := by
  rw [elParseItem, if_pos hi, if_neg (by omega)] at h
  -- the code of the slot: 0, 1 or 3, anything else is refused
  generalize (val.getD (2 + i) 0).toNat = c at h
  rcases c with _ | _ | _ | _ | c
  · cases h
    exact .inl rfl
  · cases h
    exact .inr (.inl rfl)
  · cases h
  · split_ifs at h with h8
    cases h
    refine .inr (.inr ?_)
    -- the salt length octet lies within the slot
    obtain ⟨L, hL⟩ : ∃ L, L = 4 + nsecPRdlen (val.drop (it + 4)) := ⟨_, rfl⟩
    rw [← hL]
    have hsalt : nsecPRdlen (((val.drop it).take L).drop 4) = nsecPRdlen (val.drop (it + 4)) := by
      rw [nsecPRdlen, nsecPRdlen, getD_drop, getD_take (by rw [hL, nsecPRdlen]; omega), getD_drop,
        getD_drop, Nat.add_assoc]
    rw [hsalt, hL]
  · cases h

/-- An entry slot `entry_list_parse` accepted is empty or an entry of even length that is
stable wherever it is copied. -/
theorem entryItem_of_elParseItem {val : List UInt8} {i it len : ℕ} (hi : ¬ i < entryApexNsecsCnt)
    (h : elParseItem val i it = .ok len) :
    len = 0 ∨ (EntryStable ((val.drop it).take len) ∧ len % 2 = 0) := by
  rw [elParseItem, if_neg hi] at h
  split_ifs at h with hty hlt
  · cases h
    exact .inl rfl
  · exact .inr ⟨entryStable_take h, entryHLen_mod_two h⟩

/-- A record `entry_list_parse` accepted: five items of lengths `lens` that end the value, with
parameter slots of the three kinds and entries of even length that are stable wherever they are
copied. -/
structure ElAccepted (val : List UInt8) (lens : List ℕ) : Prop where
  length_lens : lens.length = elLength
  length_val : val.length = 4 + (lens.map toEven).sum
  nsec : ∀ j < entryApexNsecsCnt, NsecItemWf (lens.getD j 0) (elItemBytes val lens j)
  entry : ∀ j, elNs ≤ j → j < elLength →
    lens.getD j 0 = 0 ∨ (EntryStable (elItemBytes val lens j) ∧ lens.getD j 0 % 2 = 0)

/-- The items of a record of lengths `lens`, each at its offset. -/
def elItemsAt (lens : List ℕ) : List (ℕ × ℕ) :=
  (List.range elLength).map fun j => (elOffset lens j, lens.getD j 0)

/-- What `entry_list_parse` accepts, and where it finds the items. -/
theorem entryListParse_sound {val : List UInt8} {items : List (ℕ × ℕ)}
    (h : entryListParse val = .ok items) :
    items = elItemsAt (items.map Prod.snd) ∧ ElAccepted val (items.map Prod.snd) := by
  rw [entryListParse] at h
  split_ifs at h with h0
  obtain ⟨hlen, hend, hitems⟩ := entryListParseLoop_inv _ 4 items h
  simp only [List.length_range] at hlen hitems
  set lens := items.map Prod.snd with hlens
  have hlens_len : lens.length = elLength := by rw [hlens, List.length_map, hlen]
  have hat : ∀ j < elLength, items.getD j (0, 0) = (elOffset lens j, lens.getD j 0) := by
    intro j hj
    have hoff := (hitems j hj).1
    rw [hlens, List.getD_eq_getElem _ _ (by omega : j < items.length),
      List.getD_eq_getElem _ _ (by simp; omega)] at *
    ext
    · simpa [elOffset] using hoff
    · simp
  have hok : ∀ j < elLength, elParseItem val j (elOffset lens j) = .ok (lens.getD j 0) := by
    intro j hj
    have := (hitems j hj).2
    rwa [List.getD_eq_getElem _ _ (by simp; omega), List.getElem_range, hat j hj] at this
  have hval : val.length = 4 + (lens.map toEven).sum := hend.symm
  have hfit : ∀ j < elLength, elOffset lens j + lens.getD j 0 ≤ val.length := by
    intro j hj
    have := @elOffset_add_le_length lens j (by omega)
    have := le_toEven (lens.getD j 0)
    omega
  refine ⟨?_, ⟨hlens_len, hval, fun j hj => ?_, fun j hj hj' => ?_⟩⟩
  · apply List.ext_getElem (by simp [elItemsAt, hlen])
    intro j hj _
    have := hat j (by omega)
    rw [List.getD_eq_getElem _ _ hj] at this
    simp [elItemsAt, this]
  · exact nsecItemWf_of_elParseItem hj (hok j (by simp [elLength]; omega)) (hfit j (by simp [elLength]; omega))
  · exact entryItem_of_elParseItem (by simp [elNs] at hj; omega) (hok j hj')

end Sound

/-! ## The items of a parsed record -/

section Parsed

variable {val : List UInt8} {items : List (ℕ × ℕ)}

theorem elItemContent_elItemsAt {lens : List ℕ} {j : ℕ} (hj : j < elLength) :
    elItemContent val (elItemsAt lens) j = elItemBytes val lens j := by
  simp [elItemContent, elItemsAt, elItemBytes, hj]

theorem elItemContent_elParsedItems {lens : List ℕ} {j : ℕ} (hj : j < elLength) :
    elItemContent val (elParsedItems lens) j =
      (val.drop (elOffset lens j)).take
        (if j < entryApexNsecsCnt then lens.getD j 0 else toEven (lens.getD j 0)) := by
  simp [elItemContent, elParsedItems, hj]

/-- The item as it was copied, out of what the parse finds: the parse pads an entry to even. -/
theorem take_elItemContent_elParsedItems {lens : List ℕ} {j : ℕ} (hj : j < elLength) :
    (elItemContent val (elParsedItems lens) j).take (lens.getD j 0) = elItemBytes val lens j := by
  rw [elItemContent_elParsedItems hj, List.take_take, elItemBytes]
  congr 1
  split_ifs
  · exact Nat.min_self _
  · exact Nat.min_eq_left (le_toEven _)

/-- A parameter slot or an entry of even length comes back as it was copied. -/
theorem elItemContent_elParsedItems_eq {lens : List ℕ} {j : ℕ} (hj : j < elLength)
    (h : j < entryApexNsecsCnt ∨ lens.getD j 0 % 2 = 0) :
    elItemContent val (elParsedItems lens) j = elItemBytes val lens j := by
  rw [elItemContent_elParsedItems hj, elItemBytes]
  rcases h with h | h
  · rw [if_pos h]
  · rw [toEven_eq_self_iff.mpr h, ite_self]

theorem getD_map_snd (items : List (ℕ × ℕ)) (j : ℕ) :
    (items.map Prod.snd).getD j 0 = (items.getD j (0, 0)).2 := by
  rw [show (0 : ℕ) = Prod.snd ((0 : ℕ), (0 : ℕ)) from rfl, List.getD_map]

theorem length_elOfItems (val : List UInt8) (items : List (ℕ × ℕ)) :
    (elOfItems val items).length = items.length := List.length_map _

theorem getD_elOfItems {val : List UInt8} {items : List (ℕ × ℕ)} {j : ℕ} (hj : j < items.length) :
    (elOfItems val items).getD j .empty =
      ⟨some (val.drop (items.getD j (0, 0)).1), (items.getD j (0, 0)).2⟩ := by
  simp [elOfItems, hj]

variable (h : entryListParse val = .ok items)
include h

theorem length_of_entryListParse : items.length = elLength := by
  obtain ⟨hitems, hacc⟩ := entryListParse_sound h
  rw [hitems, elItemsAt, List.length_map, List.length_range]

theorem elItemContent_of_entryListParse {j : ℕ} (hj : j < elLength) :
    elItemContent val items j = elItemBytes val (items.map Prod.snd) j := by
  obtain ⟨hitems, -⟩ := entryListParse_sound h
  rw [hitems, elItemContent_elItemsAt hj, ← hitems]

/-- Item `j` of a parsed record lies within the value. -/
theorem fit_of_entryListParse {j : ℕ} (hj : j < elLength) :
    (items.getD j (0, 0)).1 + (items.getD j (0, 0)).2 ≤ val.length := by
  obtain ⟨hitems, hacc⟩ := entryListParse_sound h
  have hlen := length_of_entryListParse h
  have hat : items.getD j (0, 0) = (elOffset (items.map Prod.snd) j, (items.map Prod.snd).getD j 0) := by
    conv_lhs => rw [hitems]
    simp [elItemsAt, hj]
  have := @elOffset_add_le_length (items.map Prod.snd) j (by simp; omega)
  have := le_toEven ((items.map Prod.snd).getD j 0)
  rw [hat, hacc.length_val]
  dsimp only
  omega

/-- Item `j` of a parsed record as `entry_list_t` holds it: data in the value, that fits. -/
theorem elOfItems_slot {j : ℕ} (hj : j < elLength) :
    ((elOfItems val items).getD j .empty).data.isSome ∧ ((elOfItems val items).getD j .empty).Fits ∧
      ((elOfItems val items).getD j .empty).len = (items.getD j (0, 0)).2 ∧
      ((elOfItems val items).getD j .empty).bytes = elItemContent val items j := by
  have hlen := length_of_entryListParse h
  rw [getD_elOfItems (by omega)]
  refine ⟨rfl, ?_, rfl, rfl⟩
  intro d hd
  cases hd
  have := fit_of_entryListParse h hj
  rw [List.length_drop]
  dsimp only
  omega

theorem nsecItemWf_of_entryListParse {j : ℕ} (hj : j < entryApexNsecsCnt) :
    NsecItemWf (items.getD j (0, 0)).2 (elItemContent val items j) := by
  obtain ⟨-, hacc⟩ := entryListParse_sound h
  rw [elItemContent_of_entryListParse h (by simp [elLength, entryApexNsecsCnt] at hj ⊢; omega)]
  simpa only [getD_map_snd] using hacc.nsec j hj

theorem entry_of_entryListParse {j : ℕ} (hj : elNs ≤ j) (hj' : j < elLength) :
    (items.getD j (0, 0)).2 = 0 ∨
      (EntryStable (elItemContent val items j) ∧ (items.getD j (0, 0)).2 % 2 = 0) := by
  obtain ⟨-, hacc⟩ := entryListParse_sound h
  rw [elItemContent_of_entryListParse h hj']
  simpa only [getD_map_snd] using hacc.entry j hj hj'

theorem nsec_or_even_of_entryListParse {j : ℕ} (hj : j < elLength) :
    j < entryApexNsecsCnt ∨ (items.getD j (0, 0)).2 % 2 = 0 := by
  by_cases hn : j < entryApexNsecsCnt
  · exact .inl hn
  · rcases entry_of_entryListParse h (by simp [elNs]; omega) hj with h0 | ⟨-, heven⟩
    · exact .inr (by rw [h0])
    · exact .inr heven

end Parsed

/-! ## Rewriting a record keeps its other items -/

section Rewrite

/-- A record written by `entry_list_memcpy` with one hole, once the caller fills the hole:
it parses to the items' lengths, each holding what was copied or filled in. -/
theorem entryListParse_memcpy_fill {list : List ElSlot} (hlen : list.length = elLength)
    (hfits : ∀ j < elLength, (list.getD j .empty).Fits) {ea : List UInt8} (hea : ea.length = entryListSerialSize list)
    {i : ℕ} (hi : i < elLength) (e : List UInt8) (he : e.length = (list.getD i .empty).len)
    (hdata : ∀ j < elLength, j ≠ i → (list.getD j .empty).len ≠ 0 →
      (list.getD j .empty).data.isSome)
    (hnsec : ∀ j < entryApexNsecsCnt, NsecItemWf (list.getD j .empty).len
      (if j = i then e else (list.getD j .empty).bytes))
    (hentry : ∀ j, elNs ≤ j → j < elLength → (list.getD j .empty).len = 0 ∨
      EntryStable (if j = i then e else (list.getD j .empty).bytes)) :
    entryListParse (writeBytes (entryListMemcpy ea list) (elOffset (list.map ElSlot.len) i) e) =
        .ok (elParsedItems (list.map ElSlot.len)) ∧
      ∀ j < elLength, elItemBytes (writeBytes (entryListMemcpy ea list)
        (elOffset (list.map ElSlot.len) i) e) (list.map ElSlot.len) j =
          if j = i then e else (list.getD j .empty).bytes := by
  obtain ⟨hvlen, hhdr, hitem⟩ := entryListMemcpy_spec (fits_of_getD (hlen ▸ hfits)) hea
  have hval : (entryListMemcpy ea list).length = 4 + ((list.map ElSlot.len).map toEven).sum := by
    rw [hvlen, hea, entryListSerialSize]
  have hil : i < (list.map ElSlot.len).length := by simp [hlen, hi]
  have he' : e.length = (list.map ElSlot.len).getD i 0 := by rw [getD_map_len, he]
  have hbytes : ∀ j < elLength, elItemBytes (writeBytes (entryListMemcpy ea list)
      (elOffset (list.map ElSlot.len) i) e) (list.map ElSlot.len) j =
        if j = i then e else (list.getD j .empty).bytes := by
    intro j hj
    rw [elItemBytes_writeBytes hval hil he' j]
    split_ifs with hji
    · rfl
    · by_cases h0 : (list.getD j .empty).len = 0
      · rw [bytes_of_len_eq_zero h0, elItemBytes, getD_map_len, h0, List.take_zero]
      · exact hitem j (by omega) (hdata j hj hji h0)
  have hfill : elOffset (list.map ElSlot.len) i + e.length ≤ (entryListMemcpy ea list).length := by
    have := elOffset_add_le_length hil
    have := le_toEven ((list.map ElSlot.len).getD i 0)
    omega
  have hl : ElLayout (writeBytes (entryListMemcpy ea list) (elOffset (list.map ElSlot.len) i) e)
      (list.map ElSlot.len) :=
    ⟨by rw [List.length_map, hlen], by rw [length_writeBytes hfill, hval],
      by rw [take_writeBytes_elOffset hval hil, hhdr]⟩
  refine ⟨entryListParse_of_layout hl (fun j hj => ?_) (fun j hj hj' => ?_), hbytes⟩
  · rw [getD_map_len, hbytes j (by simp [elLength, entryApexNsecsCnt] at hj ⊢; omega)]
    exact hnsec j hj
  · rw [getD_map_len, hbytes j hj']
    exact hentry j hj hj'

end Rewrite

/-! ## `entry_h_splice` -/

section Splice

theorem elTypeIndex_lt (type : RRType) : elTypeIndex type < elLength := by
  unfold elTypeIndex
  split_ifs <;> decide

theorem elNs_le_elTypeIndex {type : RRType} (h : elTypeIndex type ≠ 0) : elNs ≤ elTypeIndex type := by
  unfold elTypeIndex at h ⊢
  split_ifs at h ⊢ <;> first | decide | exact absurd rfl h

theorem exactKeyType_of_elTypeIndex {type : RRType} (h : elTypeIndex type ≠ 0) :
    exactKeyType type = RRType.ns := by
  unfold elTypeIndex at h
  unfold exactKeyType
  split_ifs at h with h1 h2 h3 <;> simp_all

/-- What a successful `entry_h_splice` of a list type writes over a record it could parse. -/
theorem entryHSplice_eq_ok {n : ℕ} {rank : UInt8} {type : RRType} {valOrig : List UInt8}
    {items : List (ℕ × ℕ)} {refused : List UInt8 → Bool} {uninit : ℕ → List UInt8} {cw : ℤ}
    {val : List UInt8} {off : ℕ} (htype : elTypeIndex type ≠ 0)
    (hparse : entryListParse valOrig = .ok items)
    (h : entryHSplice n rank (exactKeyType type) type (.ok valOrig) refused uninit cw =
      .ok (val, off)) :
    let el := (elOfItems valOrig items).set (elTypeIndex type) ⟨none, n⟩
    val = entryListMemcpy (uninit (entryListSerialSize el)) el ∧
      off = elOffset (el.map ElSlot.len) (elTypeIndex type) := by
  rw [entryHSplice, exactKeyType_of_elTypeIndex htype] at h
  simp only [htype, hparse] at h
  split_ifs at h <;> simp_all

/-- `entry_h_splice` for NS, CNAME or DNAME over a record it could parse, once the caller has
written the new entry at the offset it returns: the record parses, finds the entry there, and
every other item is as it was. -/
theorem entryHSplice_keeps_items {e : List UInt8} {rank : UInt8} {type : RRType}
    {valOrig : List UInt8} {items : List (ℕ × ℕ)} {refused : List UInt8 → Bool}
    {uninit : ℕ → List UInt8} {cw : ℤ} {val : List UInt8} {off : ℕ}
    (hparse : entryListParse valOrig = .ok items) (huninit : ∀ n, (uninit n).length = n)
    (htype : elTypeIndex type ≠ 0) (he : EntryHWf e)
    (h : entryHSplice e.length rank (exactKeyType type) type (.ok valOrig) refused uninit cw =
      .ok (val, off)) :
    ∃ items', entryListParse (writeBytes val off e) = .ok items' ∧
      (items'.getD (elTypeIndex type) (0, 0)).1 = off ∧
      (∀ j < elLength, j ≠ elTypeIndex type →
        elItemContent (writeBytes val off e) items' j = elItemContent valOrig items j) ∧
      (elItemContent (writeBytes val off e) items' (elTypeIndex type)).take e.length = e := by
  obtain ⟨hval, hoff⟩ := entryHSplice_eq_ok htype hparse h
  have hi := elTypeIndex_lt type
  have hi2 := elNs_le_elTypeIndex htype
  have hlen := length_of_entryListParse hparse
  set i := elTypeIndex type
  set el := (elOfItems valOrig items).set i ⟨none, e.length⟩ with hel
  -- the hole at the entry's item, the parsed items elsewhere
  have hslot : ∀ j, j ≠ i → el.getD j .empty = (elOfItems valOrig items).getD j .empty := by
    intro j hj
    simp [hel, List.getD_eq_getElem?_getD, List.getElem?_set_ne (Ne.symm hj)]
  have hhole : el.getD i .empty = ⟨none, e.length⟩ := by
    simp [hel, List.getD_eq_getElem?_getD, length_elOfItems, hlen, hi]
  have hfits : ∀ j < elLength, (el.getD j .empty).Fits := by
    intro j hj
    by_cases hji : j = i
    · rw [hji, hhole]
      intro d hd
      cases hd
    · rw [hslot j hji]
      exact (elOfItems_slot hparse hj).2.1
  obtain ⟨hparse', hbytes⟩ := entryListParse_memcpy_fill
    (by rw [hel, List.length_set, length_elOfItems, hlen]) hfits
    (huninit (entryListSerialSize el)) hi e (by rw [hhole])
    (fun j hj hji _ => by rw [hslot j hji]; exact (elOfItems_slot hparse hj).1)
    (fun j hj => by
      have hji : j ≠ i := by simp [elNs, entryApexNsecsCnt] at hj hi2; omega
      have hj5 : j < elLength := by simp [elLength] at hj ⊢; omega
      obtain ⟨-, -, hl, hb⟩ := elOfItems_slot hparse hj5
      rw [if_neg hji, hslot j hji, hl, hb]
      exact nsecItemWf_of_entryListParse hparse hj)
    (fun j hj hj' => by
      by_cases hji : j = i
      · exact .inr (by rw [if_pos hji]; exact he.entryStable)
      · obtain ⟨-, -, hl, hb⟩ := elOfItems_slot hparse hj'
        rw [if_neg hji, hslot j hji, hl, hb]
        exact (entry_of_entryListParse hparse hj hj').imp_right And.left)
  rw [← hval, ← hoff] at hparse' hbytes
  -- the lengths of the rewritten record: those of the parsed one, and the entry's at the hole
  have hlens : ∀ j, j ≠ i → (el.map ElSlot.len).getD j 0 = (items.getD j (0, 0)).2 := by
    intro j hj
    by_cases hj5 : j < elLength
    · rw [getD_map_len, hslot j hj, (elOfItems_slot hparse hj5).2.2.1]
    · rw [List.getD_eq_default _ _ (by simp [hel, length_elOfItems, hlen]; omega),
        List.getD_eq_default _ _ (by omega)]
  refine ⟨_, hparse', ?_, fun j hj hji => ?_, ?_⟩
  · rw [hoff]
    simp [elParsedItems, List.getD_eq_getElem?_getD, hi]
  · rw [elItemContent_elParsedItems_eq hj (by rw [hlens j hji]; exact nsec_or_even_of_entryListParse hparse hj),
      hbytes j hj, if_neg hji, hslot j hji, (elOfItems_slot hparse hj).2.2.2]
  · have hlen_i : (el.map ElSlot.len).getD i 0 = e.length := by rw [getD_map_len, hhole]
    rw [← hlen_i, take_elItemContent_elParsedItems hi, hbytes i hi, if_pos rfl]

end Splice

/-! ## `stash_nsec_p` -/

section Stash

/-- Two parameter slots hold the same parameters: both are present and agree past the time
stamp. -/
def SameNsecP (c c' : List UInt8) : Prop := c ≠ [] ∧ c' ≠ [] ∧ c.drop 4 = c'.drop 4

instance decidableSameNsecP (c c' : List UInt8) : Decidable (SameNsecP c c') :=
  inferInstanceAs (Decidable (_ ∧ _ ∧ _))

theorem SameNsecP.symm {c c' : List UInt8} (h : SameNsecP c c') : SameNsecP c' c :=
  ⟨h.2.1, h.1, h.2.2.symm⟩

theorem SameNsecP.trans {c c' c'' : List UInt8} (h : SameNsecP c c') (h' : SameNsecP c' c'') :
    SameNsecP c c'' :=
  ⟨h.1, h'.2.1, h.2.2.trans h'.2.2⟩

theorem five_le_nsecPRdlen (p : List UInt8) : 5 ≤ nsecPRdlen p := Nat.le_add_right 5 _

theorem nsecPRdlen_take {p : List UInt8} {n : ℕ} (h : 4 < n) : nsecPRdlen (p.take n) = nsecPRdlen p := by
  simp [nsecPRdlen, List.getD_eq_getElem?_getD, List.getElem?_take_of_lt h]

/-- What a successful `stash_nsec_p` writes over a record it could parse: the loop chose a slot
`k`, the slots before it moved one place up, and slot 0 holds the new data. -/
theorem stashNsecP_eq_some {nsecP : Option (List UInt8)} {timestamp ttlMax : UInt32}
    {valOrig : List UInt8} {items : List (ℕ × ℕ)} {uninit : ℕ → List UInt8} {cw : ℤ}
    {val : List UInt8} (hparse : entryListParse valOrig = .ok items)
    (h : stashNsecP nsecP timestamp ttlMax (.ok valOrig) uninit cw = some val) :
    ∃ k, nsecPFindLoop valOrig items nsecP (4 + (nsecP.map nsecPRdlen).getD 0)
        (timestamp + ttlMax) (List.range entryApexNsecsCnt) = .replace k ∧
      let el := elOfItems valOrig items
      let el := if k ≠ 0 then el.take 1 ++ el.take k ++ el.drop (k + 1) else el
      let el := el.set 0 ⟨none, 4 + (nsecP.map nsecPRdlen).getD 0⟩
      val = writeBytes (entryListMemcpy (uninit (entryListSerialSize el)) el) 4
        (hostBytes32 (timestamp + ttlMax) ++ (nsecP.getD []).take ((nsecP.map nsecPRdlen).getD 0)) := by
  rw [stashNsecP] at h
  simp only [hparse] at h
  generalize hfind : nsecPFindLoop valOrig items nsecP _ _ _ = r at h
  cases r with
  | skip => simp at h
  | replace k =>
    refine ⟨k, rfl, ?_⟩
    simp only [Option.bind_some, Nat.add_sub_cancel_left] at h
    split_ifs at h ⊢ <;> simp_all

/-- The loop of `stash_nsec_p` over the two slots: slot 0 if it matches, else slot 1, unless
it skips. -/
theorem nsecPFindLoop_eq_replace {val : List UInt8} {items : List (ℕ × ℕ)}
    {nsecP : Option (List UInt8)} {stride : ℕ} {validUntil : UInt32} {k : ℕ}
    (h : nsecPFindLoop val items nsecP stride validUntil (List.range entryApexNsecsCnt) =
      .replace k) :
    k = if nsecPSlotMatches val items nsecP stride 0 then 0 else 1 := by
  have hr : List.range entryApexNsecsCnt = [0, 1] := rfl
  rw [hr] at h
  by_cases h0 : nsecPSlotMatches val items nsecP stride 0 = true
  · simp only [nsecPFindLoop, h0, Bool.not_true, Bool.false_eq_true, if_false] at h
    split_ifs at h
    cases h
    rw [if_pos h0]
  · simp only [nsecPFindLoop, h0, Bool.not_false, if_true] at h
    split_ifs at h
    · -- no slot matched: the last one is replaced
      cases h
      rw [if_neg h0]
      rfl
    · -- slot 1 matched and is refreshed
      cases h
      rw [if_neg h0]

/-- The new data of `stash_nsec_p` for well-formed parameters: the stride long, and a
parameter slot. -/
theorem nsecPData_wf {nsecP : Option (List UInt8)} (hp : ∀ p ∈ nsecP, nsecPRdlen p ≤ p.length)
    (validUntil : UInt32) :
    (hostBytes32 validUntil ++ (nsecP.getD []).take ((nsecP.map nsecPRdlen).getD 0)).length =
        4 + (nsecP.map nsecPRdlen).getD 0 ∧
      NsecItemWf (4 + (nsecP.map nsecPRdlen).getD 0)
        (hostBytes32 validUntil ++ (nsecP.getD []).take ((nsecP.map nsecPRdlen).getD 0)) := by
  cases nsecP with
  | none => exact ⟨by simp [length_hostBytes32], .inr (.inl rfl)⟩
  | some p =>
    have hr := hp p rfl
    have h5 : 5 ≤ nsecPRdlen p := by simp [nsecPRdlen]
    refine ⟨by simp [length_hostBytes32]; omega, .inr (.inr ?_)⟩
    simp only [Option.map_some, Option.getD_some]
    rw [List.drop_left' (length_hostBytes32 _), nsecPRdlen_take (by omega)]

/-- The test of the loop of `stash_nsec_p` on a parameter slot says that it holds the same
parameters as the new data. -/
theorem nsecPSlotMatches_iff {val : List UInt8} {items : List (ℕ × ℕ)}
    {nsecP : Option (List UInt8)} (hp : ∀ p ∈ nsecP, nsecPRdlen p ≤ p.length)
    (validUntil : UInt32) {j : ℕ}
    (hfit : (items.getD j (0, 0)).2 ≤ (val.drop (items.getD j (0, 0)).1).length)
    (hwf : NsecItemWf (items.getD j (0, 0)).2 (elItemContent val items j)) :
    nsecPSlotMatches val items nsecP (4 + (nsecP.map nsecPRdlen).getD 0) j = true ↔
      SameNsecP (elItemContent val items j)
        (hostBytes32 validUntil ++ (nsecP.getD []).take ((nsecP.map nsecPRdlen).getD 0)) := by
  unfold nsecPSlotMatches SameNsecP
  set off := (items.getD j (0, 0)).1
  set len := (items.getD j (0, 0)).2
  have hc : elItemContent val items j = (val.drop off).take len := rfl
  have hlen_c : ((val.drop (off + 4)).take (len - 4)).length = len - 4 := by
    simp only [List.length_take, List.length_drop] at hfit ⊢
    omega
  have hcdrop : (elItemContent val items j).drop 4 = (val.drop (off + 4)).take (len - 4) := by
    rw [hc, List.drop_take, List.drop_drop, Nat.add_comm]
  have hne : elItemContent val items j ≠ [] ↔ len ≠ 0 := by
    rw [Ne, ← List.length_eq_zero_iff, hc, List.length_take]
    omega
  have hh : hostBytes32 validUntil ++ (nsecP.getD []).take ((nsecP.map nsecPRdlen).getD 0) ≠ [] := by
    simp [List.ne_nil_iff_length_pos, length_hostBytes32]
  have h5 := five_le_nsecPRdlen ((elItemContent val items j).drop 4)
  rw [List.drop_left' (length_hostBytes32 _), hne, hcdrop]
  simp only [hh, ne_eq, not_false_eq_true, true_and, Bool.and_eq_true, beq_iff_eq]
  cases nsecP with
  | none =>
    -- NSEC: the slot matches when it holds only a time stamp
    have hnil : (val.drop (off + 4)).take (len - 4) = [] ↔ len ≤ 4 := by
      rw [← List.length_eq_zero_iff, hlen_c]
      omega
    simp only [Option.map_none, Option.getD_none, Nat.add_zero, Option.any_none, Bool.not_false,
      and_true, List.take_zero, hnil]
    rcases hwf with h | h | h <;> omega
  | some p =>
    -- NSEC3: the slot matches when it has the stride's length and the same parameters
    have hr := hp p rfl
    have hr5 := five_le_nsecPRdlen p
    have hlen_p : (p.take (nsecPRdlen p)).length = nsecPRdlen p := by
      rw [List.length_take]
      omega
    simp only [Option.map_some, Option.getD_some, Option.any_some, Bool.not_eq_true',
      bne_eq_false_iff_eq, Nat.add_sub_cancel_left]
    constructor
    · rintro ⟨hlen, hbytes⟩
      refine ⟨by omega, ?_⟩
      rw [hlen, Nat.add_sub_cancel_left, hbytes]
    · rintro ⟨h0, hbytes⟩
      have : len - 4 = nsecPRdlen p := by rw [← hlen_c, hbytes, hlen_p]
      have hlen : len = 4 + nsecPRdlen p := by
        rcases hwf with h | h | h <;> omega
      refine ⟨hlen, ?_⟩
      rw [← hbytes, hlen, Nat.add_sub_cancel_left]

/-- The memmove of `stash_nsec_p` when it replaces slot `k` of the two: slot 1 takes slot 0 when
`k` is 1. -/
theorem getD_nsecPMove {el : List ElSlot} {k : ℕ} (hk : k = 0 ∨ k = 1) (h2 : 2 ≤ el.length)
    (j : ℕ) :
    (if k ≠ 0 then el.take 1 ++ el.take k ++ el.drop (k + 1) else el).getD j .empty =
      el.getD (if j = 1 ∧ k ≠ 0 then 0 else j) .empty := by
  rcases hk with rfl | rfl
  · simp
  · rcases el with _ | ⟨a, _ | ⟨b, rest⟩⟩
    · simp at h2
    · simp at h2
    · rcases j with _ | _ | j <;> simp

/-- `stash_nsec_p` over a record it could parse: the record it writes parses, holds the new data
in slot 0, the entries as they were, and in slot 1 the slot the new data did not refresh. -/
theorem stashNsecP_keeps_items {nsecP : Option (List UInt8)} {timestamp ttlMax : UInt32}
    {valOrig : List UInt8} {items : List (ℕ × ℕ)} {uninit : ℕ → List UInt8} {cw : ℤ}
    {val : List UInt8} (hparse : entryListParse valOrig = .ok items)
    (huninit : ∀ n, (uninit n).length = n) (hp : ∀ p ∈ nsecP, nsecPRdlen p ≤ p.length)
    (h : stashNsecP nsecP timestamp ttlMax (.ok valOrig) uninit cw = some val) :
    ∃ items', entryListParse val = .ok items' ∧
      (∀ j, entryApexNsecsCnt ≤ j → j < elLength →
        elItemContent val items' j = elItemContent valOrig items j) ∧
      elItemContent val items' 0 = hostBytes32 (timestamp + ttlMax) ++
        (nsecP.getD []).take ((nsecP.map nsecPRdlen).getD 0) ∧
      elItemContent val items' 1 =
        if SameNsecP (elItemContent valOrig items 0) (elItemContent val items' 0)
        then elItemContent valOrig items 1 else elItemContent valOrig items 0 := by
  obtain ⟨k, hfind, hval⟩ := stashNsecP_eq_some hparse h
  have hk := nsecPFindLoop_eq_replace hfind
  have hk01 : k = 0 ∨ k = 1 := by split_ifs at hk <;> simp [hk]
  have hlen := length_of_entryListParse hparse
  obtain ⟨hdlen, hdwf⟩ := nsecPData_wf hp (timestamp + ttlMax)
  set r := (nsecP.map nsecPRdlen).getD 0
  set data := hostBytes32 (timestamp + ttlMax) ++ (nsecP.getD []).take r
  set el0 := elOfItems valOrig items with hel0
  have hel0_len : el0.length = elLength := by rw [hel0, length_elOfItems, hlen]
  set el1 := if k ≠ 0 then el0.take 1 ++ el0.take k ++ el0.drop (k + 1) else el0 with hel1
  have hel1_len : el1.length = elLength := by
    rcases hk01 with rfl | rfl
    · simp [hel1, hel0_len]
    · simp [hel1, hel0_len, elLength, entryApexNsecsCnt]
  set el := el1.set 0 ⟨none, 4 + r⟩ with hel
  -- where each slot of the new record comes from: the hole at 0, else the parsed slot `src j`
  set src := fun j => if j = 1 ∧ k ≠ 0 then 0 else j with hsrc
  have hslot : ∀ j, j ≠ 0 → el.getD j .empty = el0.getD (src j) .empty := by
    intro j hj
    rw [hel, List.getD_eq_getElem?_getD, List.getElem?_set_ne (Ne.symm hj),
      ← List.getD_eq_getElem?_getD, hel1, getD_nsecPMove hk01 (by rw [hel0_len]; decide)]
  have hhole : el.getD 0 .empty = ⟨none, 4 + r⟩ := by
    simp [hel, List.getD_eq_getElem?_getD, hel1_len, elLength]
  have hsrc_lt : ∀ j < elLength, src j < elLength := by
    intro j hj
    simp only [hsrc]
    split_ifs <;> simp only [elLength, entryApexNsecsCnt] at hj ⊢ <;> omega
  have hfits : ∀ j < elLength, (el.getD j .empty).Fits := by
    intro j hj
    by_cases hj0 : j = 0
    · rw [hj0, hhole]
      intro d hd
      cases hd
    · rw [hslot j hj0]
      exact (elOfItems_slot hparse (hsrc_lt j hj)).2.1
  obtain ⟨hparse', hbytes⟩ := entryListParse_memcpy_fill
    (by rw [hel, List.length_set, hel1_len]) hfits
    (huninit (entryListSerialSize el)) (by decide : 0 < elLength) data
    (by rw [hhole, hdlen])
    (fun j hj hj0 _ => by rw [hslot j hj0]; exact (elOfItems_slot hparse (hsrc_lt j hj)).1)
    (fun j hj => by
      by_cases hj0 : j = 0
      · rw [if_pos hj0, hj0, hhole]
        exact hdwf
      · have hs : src j < entryApexNsecsCnt := by
          simp only [hsrc]
          split_ifs <;> simp only [entryApexNsecsCnt] at hj ⊢ <;> omega
        obtain ⟨-, -, hl, hb⟩ := elOfItems_slot hparse (hsrc_lt j (by simp [elLength, entryApexNsecsCnt] at hj ⊢; omega))
        rw [if_neg hj0, hslot j hj0, hl, hb]
        exact nsecItemWf_of_entryListParse hparse hs)
    (fun j hj hj' => by
      have hj0 : j ≠ 0 := by simp [elNs, entryApexNsecsCnt] at hj; omega
      have hs : src j = j := by simp only [hsrc]; split_ifs <;> simp_all [elNs, entryApexNsecsCnt]
      obtain ⟨-, -, hl, hb⟩ := elOfItems_slot hparse hj'
      rw [if_neg hj0, hslot j hj0, hs, hl, hb]
      exact (entry_of_entryListParse hparse hj hj').imp_right And.left)
  have hval' : val = writeBytes (entryListMemcpy (uninit (entryListSerialSize el)) el)
      (elOffset (el.map ElSlot.len) 0) data := by
    rw [elOffset_zero]
    exact hval
  rw [← hval'] at hparse' hbytes
  -- the content of a slot of the new record other than 0
  have hcontent : ∀ j, j ≠ 0 → j < elLength →
      elItemContent val (elParsedItems (el.map ElSlot.len)) j = elItemContent valOrig items (src j) := by
    intro j hj0 hj
    obtain ⟨-, -, hl, hb⟩ := elOfItems_slot hparse (hsrc_lt j hj)
    have hlens : (el.map ElSlot.len).getD j 0 = (items.getD (src j) (0, 0)).2 := by
      rw [getD_map_len, hslot j hj0, hl]
    rw [elItemContent_elParsedItems_eq hj ?_, hbytes j hj, if_neg hj0, hslot j hj0, hb]
    rw [hlens]
    rcases nsec_or_even_of_entryListParse hparse (hsrc_lt j hj) with h | h
    · by_cases hj2 : j < entryApexNsecsCnt
      · exact .inl hj2
      · have : src j = j := by simp only [hsrc]; split_ifs <;> simp_all [entryApexNsecsCnt]
        rw [this] at h
        exact absurd h hj2
    · exact .inr h
  have hc0 : elItemContent val (elParsedItems (el.map ElSlot.len)) 0 = data := by
    rw [elItemContent_elParsedItems_eq (by decide) (.inl (by decide)), hbytes 0 (by decide), if_pos rfl]
  refine ⟨_, hparse', fun j hj hj' => ?_, hc0, ?_⟩
  · have hs : src j = j := by simp only [hsrc]; split_ifs <;> simp_all [entryApexNsecsCnt]
    rw [hcontent j (by simp [entryApexNsecsCnt] at hj; omega) hj', hs]
  · -- slot 1 takes slot 0 exactly when slot 0 did not hold the new parameters
    have hfit0 := fit_of_entryListParse hparse (by decide : 0 < elLength)
    have hmatch := nsecPSlotMatches_iff hp (timestamp + ttlMax)
      (by rw [List.length_drop]; omega)
      (nsecItemWf_of_entryListParse hparse (by decide : 0 < entryApexNsecsCnt))
    rw [hcontent 1 (by decide) (by decide), hc0]
    by_cases hm : nsecPSlotMatches valOrig items nsecP (4 + r) 0 = true
    · have hk0 : k = 0 := by rw [hk, if_pos hm]
      rw [if_pos (hmatch.mp hm)]
      simp [hsrc, hk0]
    · have hk1 : k = 1 := by rw [hk, if_neg hm]
      rw [if_neg (mt hmatch.mpr hm)]
      simp [hsrc, hk1]

end Stash

/-! ## Updating a record -/

section Update

/-- Updating one item of a record keeps the others. Over a record that `entry_list_parse`
accepts, a successful `entry_h_splice` of NS, CNAME or DNAME (once the caller has written the
entry where it says) and a successful `stash_nsec_p` each write a record that parses, with every
item they do not replace as it was. `stash_nsec_p` puts the new parameters in slot 0 and keeps in
slot 1 the old slot they did not refresh, so two slots of different parameters never become two
of the same. -/
theorem entryHSplice_stashNsecP_keep_other_items {valOrig : List UInt8} {items : List (ℕ × ℕ)}
    (hparse : entryListParse valOrig = .ok items) {uninit : ℕ → List UInt8}
    (huninit : ∀ n, (uninit n).length = n) :
    (∀ (e : List UInt8) (rank : UInt8) (type : RRType) (refused : List UInt8 → Bool) (cw : ℤ)
        (val : List UInt8) (off : ℕ),
      (type = RRType.ns ∨ type = RRType.cname ∨ type = RRType.dname) → EntryHWf e →
      entryHSplice e.length rank (exactKeyType type) type (.ok valOrig) refused uninit cw =
        .ok (val, off) →
      ∃ items', entryListParse (writeBytes val off e) = .ok items' ∧
        (items'.getD (elTypeIndex type) (0, 0)).1 = off ∧
        (∀ j < elLength, j ≠ elTypeIndex type →
          elItemContent (writeBytes val off e) items' j = elItemContent valOrig items j) ∧
        (elItemContent (writeBytes val off e) items' (elTypeIndex type)).take e.length = e) ∧
    (∀ (nsecP : Option (List UInt8)) (timestamp ttlMax : UInt32) (cw : ℤ) (val : List UInt8),
      (∀ p ∈ nsecP, nsecPRdlen p ≤ p.length) →
      stashNsecP nsecP timestamp ttlMax (.ok valOrig) uninit cw = some val →
      ∃ items', entryListParse val = .ok items' ∧
        (∀ j, entryApexNsecsCnt ≤ j → j < elLength →
          elItemContent val items' j = elItemContent valOrig items j) ∧
        elItemContent val items' 0 =
          hostBytes32 (timestamp + ttlMax) ++ (nsecP.getD []).take ((nsecP.map nsecPRdlen).getD 0) ∧
        elItemContent val items' 1 =
          (if SameNsecP (elItemContent valOrig items 0) (elItemContent val items' 0)
            then elItemContent valOrig items 1 else elItemContent valOrig items 0) ∧
        (¬ SameNsecP (elItemContent valOrig items 0) (elItemContent valOrig items 1) →
          ¬ SameNsecP (elItemContent val items' 0) (elItemContent val items' 1))) := by
  refine ⟨fun e rank type refused cw val off htype he h => ?_,
    fun nsecP timestamp ttlMax cw val hp h => ?_⟩
  · have htype' : elTypeIndex type ≠ 0 := by
      rcases htype with rfl | rfl | rfl <;> decide
    exact entryHSplice_keeps_items hparse huninit htype' he h
  · obtain ⟨items', hparse', hentries, h0, h1⟩ := stashNsecP_keeps_items hparse huninit hp h
    refine ⟨items', hparse', hentries, h0, h1, fun hdiff hsame => ?_⟩
    -- slot 1 holds the old slot 1 after a refresh of slot 0, and the old slot 0 otherwise
    rw [h1] at hsame
    split_ifs at hsame with hrefresh
    · exact hdiff (hrefresh.trans hsame)
    · exact hrefresh hsame.symm

theorem entryHSplice_stashNsecP_keep_other_items_ns :
    let valOrig : List UInt8 := [1, 0, 1, 0, 1, 2, 3, 4] ++ entryRRsetBytes 1 1 1 [[9]] []
    let items : List (ℕ × ℕ) := [(4, 4), (8, 0), (8, 18), (26, 0), (26, 0)]
    entryListParse valOrig = .ok items ∧ (∀ n, (List.replicate n (0 : UInt8)).length = n) ∧
    (∀ (e : List UInt8) (rank : UInt8) (type : RRType) (refused : List UInt8 → Bool) (cw : ℤ)
        (val : List UInt8) (off : ℕ),
      (type = RRType.ns ∨ type = RRType.cname ∨ type = RRType.dname) → EntryHWf e →
      entryHSplice e.length rank (exactKeyType type) type (.ok valOrig) refused (List.replicate · 0) cw =
        .ok (val, off) →
      ∃ items', entryListParse (writeBytes val off e) = .ok items' ∧
        (items'.getD (elTypeIndex type) (0, 0)).1 = off ∧
        (∀ j < elLength, j ≠ elTypeIndex type →
          elItemContent (writeBytes val off e) items' j = elItemContent valOrig items j) ∧
        (elItemContent (writeBytes val off e) items' (elTypeIndex type)).take e.length = e) ∧
    (∀ (nsecP : Option (List UInt8)) (timestamp ttlMax : UInt32) (cw : ℤ) (val : List UInt8),
      (∀ p ∈ nsecP, nsecPRdlen p ≤ p.length) →
      stashNsecP nsecP timestamp ttlMax (.ok valOrig) (List.replicate · 0) cw = some val →
      ∃ items', entryListParse val = .ok items' ∧
        (∀ j, entryApexNsecsCnt ≤ j → j < elLength →
          elItemContent val items' j = elItemContent valOrig items j) ∧
        elItemContent val items' 0 =
          hostBytes32 (timestamp + ttlMax) ++ (nsecP.getD []).take ((nsecP.map nsecPRdlen).getD 0) ∧
        elItemContent val items' 1 =
          (if SameNsecP (elItemContent valOrig items 0) (elItemContent val items' 0)
            then elItemContent valOrig items 1 else elItemContent valOrig items 0) ∧
        (¬ SameNsecP (elItemContent valOrig items 0) (elItemContent valOrig items 1) →
          ¬ SameNsecP (elItemContent val items' 0) (elItemContent val items' 1))) :=
  have hparse : entryListParse ([1, 0, 1, 0, 1, 2, 3, 4] ++ entryRRsetBytes 1 1 1 [[9]] []) =
      .ok [(4, 4), (8, 0), (8, 18), (26, 0), (26, 0)] := rfl
  have huninit : ∀ n, (List.replicate n (0 : UInt8)).length = n := fun _ => List.length_replicate
  ⟨hparse, huninit, entryHSplice_stashNsecP_keep_other_items hparse huninit⟩

end Update

end KnotResolver
