import Mathlib
import KnotResolver.Cache.CdbLmdb
import KnotResolver.Rules.Subnet
import KnotResolver.Utils

/-!
# Views: the action for a request's addresses

`lib/rules/api.c`: `kr_view_insert_action` stores a rule under the key of its source subnet
(the ruleset, "4" or "6" for the family, then `subnet_encode` of the subnet), with the protocol
set, the destination subnet and the action as its value; a key may carry several such values.
`kr_view_select_action` reads the rulesets listed under "\0rulesets" and, for each, walks the
keys downward from the full-length key of the request's source address: `cdb_read_leq`, then
`cdb_read_less` from the cursor. A key below the search key whose subnet holds the address
(`subnet_is_prefix` on the first octet where the two keys differ) has its values tried in
order; the first whose protocol and destination conditions pass gives the action.

The walk finds the most specific subnet because of the order of subnet keys
(`subnetEncode_key_laws`): the subnets that hold an address are ordered by their prefix
lengths, all of them at or below the address's own key. What the walk needs from the store is
that some key lies above the search key, for `cdb_read_leq` misses above the last key
(`cdbReadLeq_above_all`); `kr_rules_init`, which `kr_view_insert_action` runs first through
ENSURE_the_rules, writes the default rules, whose keys ("da", "de") lie above every view key.
-/

namespace KnotResolver

open SortedStore BitString

/-! ## The source -/

/-- RULESET_DEFAULT, "d". -/
def rulesetDefault : List UInt8 := [100]

/-- KEY_VIEW_SRC4, "4". -/
def keyViewSrc4 : UInt8 := 52

/-- KEY_VIEW_SRC6, "6". -/
def keyViewSrc6 : UInt8 := 54

/-- The kind octet of a view key for the family of an address. -/
def keyViewSrc (a : InAddr) : UInt8 := if a.bytes.length = 4 then keyViewSrc4 else keyViewSrc6

/-- The key "\0rulesets", with the terminating zero that sizeof counts. -/
def keyRulesets : List UInt8 := [0, 114, 117, 108, 101, 115, 101, 116, 115, 0]

/-- enum kr_proto. -/
inductive KrProto
  | internal
  | udp53
  | tcp53
  | dot
  | doh
  | doq
  deriving DecidableEq, Repr

/-- The value of an enum kr_proto constant. -/
def KrProto.toNat : KrProto → ℕ
  | .internal => 0
  | .udp53 => 1
  | .tcp53 => 2
  | .dot => 3
  | .doh => 4
  | .doq => 5

/-- What kr_view_select_action reads of a request: req->qsource.addr (none for an internal
request), the address of req->qsource.dst_addr, of the same family, and the transport flags. -/
structure ViewRequest where
  src : Option InAddr
  dst : InAddr
  tcp : Bool
  tls : Bool
  http : Bool
  dst_family : ∀ a ∈ src, a.bytes.length = dst.bytes.length

/-- req_proto. -/
def reqProto (req : ViewRequest) : KrProto :=
  if req.src.isNone then .internal
  else if req.http then .doh
  else if req.tcp then (if req.tls then .dot else .tcp53)
  else if req.tls then .doq else .udp53

/-- req_proto_matches: the empty set matches every protocol; the mask 1 << proto is cut to the
octet of kr_proto_set. -/
def reqProtoMatches (req : ViewRequest) (protoSet : UInt8) : Bool :=
  protoSet = 0 || ((2 ^ (reqProto req).toNat).toUInt8 &&& protoSet) ≠ 0

/-- subnet_is_prefix, on the pairs of bits of two key octets from the top: a pair 00 of a ends
its subnet, a pair that differs is a mismatch. After four rounds a is zero, where the loop of
the source returns true. -/
def subnetIsPrefixLoop : ℕ → UInt8 → UInt8 → Bool
  | 0, _, _ => true
  | n + 1, a, b =>
    if a >>> 6 = 0 then true
    else if a >>> 6 ≠ b >>> 6 then false
    else subnetIsPrefixLoop n (a <<< 2) (b <<< 2)

/-- subnet_is_prefix: whether the subnet octet a is a prefix of the address octet b. -/
def subnetIsPrefix (a b : UInt8) : Bool := subnetIsPrefixLoop 4 a b

/-- key_common_prefix. -/
def keyCommonPrefix (k1 k2 : List UInt8) : ℕ := ListLex.commonPrefixLen k1 k2

/-- What kr_straddr_subnet gives for a subnet string: the address and a prefix length of at
most its bits. -/
structure ParsedSubnet where
  addr : InAddr
  len : ℕ
  len_le : len ≤ 8 * addr.bytes.length

/-- The arguments of kr_view_insert_action once its strings are parsed; an empty destination
string is none. -/
structure ViewInsertArgs where
  subnet : ParsedSubnet
  dstSubnet : Option ParsedSubnet
  protos : UInt8
  action : List UInt8

/-- The key kr_view_insert_action writes: RULESET_DEFAULT, the family, the subnet key. -/
def viewKey (args : ViewInsertArgs) : List UInt8 :=
  rulesetDefault ++ keyViewSrc args.subnet.addr :: pack (subnetBits args.subnet.addr.bytes args.subnet.len)

/-- The value kr_view_insert_action writes: the protocol set, the destination prefix length,
the destination address only when that length is not zero, then the action. -/
def viewValue (args : ViewInsertArgs) : List UInt8 :=
  args.protos :: (match args.dstSubnet with
    | some d => if d.len.toUInt8 = 0 then [0] else d.len.toUInt8 :: d.addr.bytes
    | none => [0]) ++ args.action

/-- kr_view_insert_action: a destination of the other family is refused with EINVAL; otherwise
the rule is written. -/
def krViewInsertAction (db : Cdb) (args : ViewInsertArgs) : Except ℤ Cdb :=
  match subnetEncode args.subnet.addr args.subnet.len with
  | .error e => .error e
  | .ok k =>
    let key := rulesetDefault ++ keyViewSrc args.subnet.addr :: k
    match args.dstSubnet with
    | some d =>
      if d.addr.bytes.length ≠ args.subnet.addr.bytes.length then .error (krError Errno.einval)
      else .ok (cdbWrite db key (viewValue args))
    | none => .ok (cdbWrite db key (viewValue args))

/-- The checks of one value of a matching key: its protocol set, then its destination subnet
on abytes address octets; what is left is the action. -/
def viewVariantAction (req : ViewRequest) (abytes : ℕ) (val : List UInt8) : Option (List UInt8) :=
  match val with
  | protos :: rest =>
    if !reqProtoMatches req protos then none
    else match rest with
      | dstBitlen :: rest =>
        if dstBitlen = 0 then some rest
        else if rest.length < abytes then none
        else if krBitcmp rest req.dst.bytes dstBitlen.toNat ≠ 0 then none
        else some (rest.drop abytes)
      | [] => none
  | [] => none

/-- The loop over the values of one key from the cursor on (cdb_it_next): the action of the
first value that passes, or none with the cursor left on the key's last value. -/
def viewVariantsLoop (db : Cdb) (req : ViewRequest) (abytes : ℕ) : ℕ → ℕ → Option (List UInt8) × ℕ
  | 0, cur => (none, cur)
  | fuel + 1, cur =>
    match (db[cur]?).bind fun e => viewVariantAction req abytes e.2 with
    | some act => (some act, cur)
    | none =>
      match cdbItNext db cur with
      | (0, some nxt) => viewVariantsLoop db req abytes fuel nxt
      | _ => (none, cur)

/-- How the walk treats a key kl found below the search key: it stops, skips kl, or tries its
values. -/
inductive ViewKeyStep
  | stop
  | skip
  | look
  deriving DecidableEq

/-- The tests of the walk on a key found below the search key: a common prefix shorter than the
ruleset and family ends the walk; a key that is a prefix of the search key matches; otherwise
subnet_is_prefix on the first octet where they differ decides, after the assertion that both
keys go on there. -/
def viewKeyStep (key kl : List UInt8) (addrStart : ℕ) : ViewKeyStep :=
  let i := keyCommonPrefix key kl
  if i < addrStart then .stop
  else if i = kl.length then .look
  else if ¬ (i < key.length ∧ i < kl.length) then .stop
  else if subnetIsPrefix (kl.getD i 0) (key.getD i 0) then .look
  else .skip

/-- The walk of kr_view_select_action over the keys of one ruleset, from the code and cursor of
the last read_leq or read_less. The truncation of key_leq to i + 1 octets before read_less is
left out: cdb_read_less moves the cursor and does not read the key. -/
def viewWalk (db : Cdb) (req : ViewRequest) (abytes : ℕ) (key : List UInt8) (addrStart : ℕ) :
    ℕ → ℤ × Option ℕ → Except ℤ (Option (List UInt8))
  | 0, _ => .ok none
  | fuel + 1, (ret, cur) =>
    if ret = krError Errno.enoent then .ok none
    else if ret < 0 then .error ret
    else match cur with
      | none => .ok none
      | some c =>
        let kl := (db.getD c ([], [])).1
        match (if ret = 0 then ViewKeyStep.look else viewKeyStep key kl addrStart) with
        | .stop => .ok none
        | .skip => viewWalk db req abytes key addrStart fuel (cdbReadLess db c)
        | .look =>
          match cdbItFirst db kl with
          | (0, some first) =>
            match viewVariantsLoop db req abytes db.length first with
            | (some act, _) => .ok (some act)
            | (none, last) => viewWalk db req abytes key addrStart fuel (cdbReadLess db last)
          | _ => viewWalk db req abytes key addrStart fuel (cdbReadLess db c)

/-- The ruleset names of the "\0rulesets" value, each ended by a zero (strnlen, then one octet
more); a last name with no zero ends the list. -/
def rulesetNames : List UInt8 → List UInt8 → List (List UInt8)
  | [], acc => if acc = [] then [] else [acc.reverse]
  | 0 :: rest, acc => acc.reverse :: rulesetNames rest []
  | b :: rest, acc => rulesetNames rest (b :: acc)

/-- The loop of kr_view_select_action over the rulesets, with the search key's address part k:
the first ruleset whose walk selects an action. -/
def viewRulesetsLoop (db : Cdb) (req : ViewRequest) (addr : InAddr) (k : List UInt8) :
    List (List UInt8) → Except ℤ (List UInt8)
  | [] => .error (krError Errno.enoent)
  | rs :: rest =>
    let key := rs ++ keyViewSrc addr :: k
    match viewWalk db req addr.bytes.length key (rs.length + 1) (db.length + 1) (cdbReadLeq db key) with
    | .error e => .error e
    | .ok (some act) => .ok act
    | .ok none => viewRulesetsLoop db req addr k rest

/-- kr_view_select_action. -/
def krViewSelectAction (db : Cdb) (req : ViewRequest) : Except ℤ (List UInt8) :=
  match req.src with
  | none => .error (krError Errno.enoent)
  | some addr =>
    match subnetEncode addr (8 * addr.bytes.length : ℕ) with
    | .error e => .error e
    | .ok k =>
      match cdbRead db keyRulesets with
      | .error e => .error e
      | .ok rulesets => viewRulesetsLoop db req addr k (rulesetNames rulesets [])

/-! ## subnet_is_prefix on bits -/

/-- subnet_is_prefix on bit strings, pair by pair from the top: a pair 00 of the first string
ends its subnet, a pair that differs is a mismatch, and running out is a match. -/
def pairsPrefix : List Bool → List Bool → Bool
  | a1 :: a2 :: as, b1 :: b2 :: bs =>
    if !a1 && !a2 then true else if a1 != b1 || a2 != b2 then false else pairsPrefix as bs
  | _, _ => true

theorem ofByte_shiftLeft_two : ∀ x : UInt8, ofByte (x <<< 2) = (ofByte x).drop 2 ++ [false, false] := by
  decide +kernel

theorem shiftRight_six_eq_iff {x y : UInt8} :
    x >>> 6 = y >>> 6 ↔ (ofByte x).take 2 = (ofByte y).take 2 := by
  rw [take_ofByte_eq_iff, ← UInt8.toNat_inj, UInt8.toNat_shiftRight, UInt8.toNat_shiftRight]
  simp [Nat.shiftRight_eq_div_pow]

theorem shiftRight_six_eq_zero_iff {x : UInt8} : x >>> 6 = 0 ↔ (ofByte x).take 2 = [false, false] := by
  have h0 : (0 : UInt8) >>> 6 = 0 := by decide
  have hbits : (ofByte 0).take 2 = [false, false] := by decide
  rw [← h0, shiftRight_six_eq_iff, hbits]

/-- The octets of a key split into their top pair and the rest. -/
theorem ofByte_eq_cons_cons (x : UInt8) :
    ∃ b1 b2 r, r.length = 6 ∧ ofByte x = b1 :: b2 :: r := by
  match h : ofByte x, length_ofByte x with
  | b1 :: b2 :: r, hl => exact ⟨b1, b2, r, by simpa using hl, rfl⟩

/-- Each round of subnet_is_prefix reads one pair of bits of both octets. -/
theorem subnetIsPrefixLoop_eq : ∀ n, n ≤ 4 → ∀ a b : UInt8,
    subnetIsPrefixLoop n a b = pairsPrefix ((ofByte a).take (2 * n)) ((ofByte b).take (2 * n))
  | 0, _, a, b => by simp [subnetIsPrefixLoop, pairsPrefix]
  | n + 1, hn, a, b => by
    obtain ⟨a1, a2, ra, hra, ha⟩ := ofByte_eq_cons_cons a
    obtain ⟨b1, b2, rb, hrb, hb⟩ := ofByte_eq_cons_cons b
    -- the shifted octets hold the remaining pairs, with 00 shifted in
    have hta : (ofByte (a <<< 2)).take (2 * n) = ra.take (2 * n) := by
      rw [ofByte_shiftLeft_two, ha, show (a1 :: a2 :: ra).drop 2 = ra from rfl,
        List.take_append_of_le_length (by omega)]
    have htb : (ofByte (b <<< 2)).take (2 * n) = rb.take (2 * n) := by
      rw [ofByte_shiftLeft_two, hb, show (b1 :: b2 :: rb).drop 2 = rb from rfl,
        List.take_append_of_le_length (by omega)]
    have htake : ∀ (c1 c2 : Bool) (r : List Bool), (c1 :: c2 :: r).take (2 * (n + 1)) =
        c1 :: c2 :: r.take (2 * n) := fun c1 c2 r => by
      rw [show 2 * (n + 1) = 2 * n + 1 + 1 by omega, List.take_succ_cons, List.take_succ_cons]
    simp only [subnetIsPrefixLoop, ne_eq, shiftRight_six_eq_zero_iff, shiftRight_six_eq_iff,
      subnetIsPrefixLoop_eq n (by omega), hta, htb, ha, hb, htake, pairsPrefix]
    cases a1 <;> cases a2 <;> cases b1 <;> cases b2 <;> simp

theorem subnetIsPrefix_eq (a b : UInt8) : subnetIsPrefix a b = pairsPrefix (ofByte a) (ofByte b) := by
  rw [subnetIsPrefix, subnetIsPrefixLoop_eq 4 le_rfl,
    List.take_of_length_le (by simp), List.take_of_length_le (by simp)]

/-- Equal pairs of a full address are read past. -/
theorem pairsPrefix_prefixPairs_append (t : List Bool) (u v : List Bool) :
    pairsPrefix (prefixPairs t ++ u) (prefixPairs t ++ v) = pairsPrefix u v := by
  induction t with
  | nil => rfl
  | cons b t ih => simp [pairsPrefix, ih]

/-- Blocks of pairs that differ decide the test. -/
theorem pairsPrefix_append_of_ne : ∀ {g h : List Bool}, g ≠ h → g.length = h.length →
    g.length % 2 = 0 → ∀ u v, pairsPrefix (g ++ u) (h ++ v) = pairsPrefix g h
  | [], [], hne, _, _, _, _ => absurd rfl hne
  | [_], [_], _, _, hev, _, _ => by simp at hev
  | a1 :: a2 :: g, b1 :: b2 :: h, hne, hlen, hev, u, v => by
    simp only [List.cons_append, pairsPrefix]
    by_cases hpair : a1 = b1 ∧ a2 = b2
    · obtain ⟨rfl, rfl⟩ := hpair
      have hgh : g ≠ h := fun heq => hne (heq ▸ rfl)
      simp only [bne_self_eq_false, Bool.or_false]
      rw [pairsPrefix_append_of_ne hgh (by simpa using hlen) (by simp at hev; omega)]
    · have hd : (a1 != b1 || a2 != b2) = true := by
        cases a1 <;> cases a2 <;> cases b1 <;> cases b2 <;> simp_all
      simp [hd]
  | [], _ :: _, _, hlen, _, _, _ | _ :: _, [], _, hlen, _, _, _ => by simp at hlen
  | [_], _ :: _ :: _, _, hlen, _, _, _ | _ :: _ :: _, [_], _, hlen, _, _, _ => by simp at hlen

/-- The pairs of a subnet key against those of a full address: a match exactly when the
subnet's prefix bits begin the address. -/
theorem pairsPrefix_subnet (m : ℕ) : ∀ {u s : List Bool}, u.length ≤ s.length →
    pairsPrefix (prefixPairs u ++ List.replicate (2 * m) false) (prefixPairs s) = decide (u <+: s)
  | [], s, _ => by
    cases m with
    | zero => simp [pairsPrefix]
    | succ m =>
      cases s with
      | nil => simp [pairsPrefix]
      | cons c s =>
        rw [show 2 * (m + 1) = 2 * m + 1 + 1 by omega]
        simp [List.replicate_succ, pairsPrefix]
  | b :: u, c :: s, hlen => by
    simp only [prefixPairs_cons, List.cons_append, pairsPrefix, List.cons_prefix_cons]
    rw [pairsPrefix_subnet m (by simpa using hlen)]
    cases b <;> cases c <;> simp
  | _ :: _, [], hlen => by simp at hlen

theorem ofByte_toUInt8_value {g : List Bool} (hg : g.length = 8) : ofByte (value g).toUInt8 = g :=
  value_injective (by simp [hg]) (by rw [value_ofByte, toNat_toUInt8_value hg])

/-- The octet test of the walk on the tails of the two keys after their common part: the key
of a subnet against the full key of an address. It matches, at the first octet where the two
keys differ or by ending first, exactly when the test on pairs does. -/
theorem subnetMatch_pack (m : ℕ) : ∀ {A s : List Bool}, A.length = 8 * m → s.length % 4 = 0 →
    A.length ≤ 2 * s.length →
    ((ListLex.commonPrefixLen (pack (prefixPairs s)) (pack A) = (pack A).length ∨
      subnetIsPrefix ((pack A).getD (ListLex.commonPrefixLen (pack (prefixPairs s)) (pack A)) 0)
        ((pack (prefixPairs s)).getD (ListLex.commonPrefixLen (pack (prefixPairs s)) (pack A)) 0)) ↔
      pairsPrefix A (prefixPairs s) = true) := by
  induction m with
  | zero =>
    intro A s hA _ _
    obtain rfl : A = [] := List.eq_nil_of_length_eq_zero hA
    have hnil : pack [] = [] := rfl
    have hpp : pairsPrefix [] (prefixPairs s) = true := by cases prefixPairs s <;> rfl
    simp only [hnil, ListLex.commonPrefixLen_nil_right, List.length_nil, hpp, true_or]
  | succ m ih =>
    intro A s hA hs hle
    obtain ⟨g, A', hg, rfl⟩ := exists_eq_append_of_length (u := A) (by omega)
    -- the first four address bits give the first octet of the full key
    have hs4 : 4 ≤ s.length := by simp at hA hle; omega
    have hsplit : s = s.take 4 ++ s.drop 4 := (List.take_append_drop 4 s).symm
    set t := s.take 4 with ht
    set s' := s.drop 4 with hs'
    have htl : (prefixPairs t).length = 8 := by simp [ht]; omega
    have hX : prefixPairs s = prefixPairs t ++ prefixPairs s' := by
      rw [hsplit, prefixPairs_append]
    simp only [List.length_append, hg] at hA hle
    rw [hX, pack_append_of_length_eq_eight htl, pack_append_of_length_eq_eight hg]
    by_cases hgh : g = prefixPairs t
    · -- equal first octets: the test moves on to the rest of both keys
      subst hgh
      have hrest := ih (A := A') (s := s') (by omega) (by simp [hs']; omega) (by simp [hs']; omega)
      simp only [ListLex.commonPrefixLen_cons_self, List.length_cons, List.getD_cons_succ,
        Nat.add_right_cancel_iff]
      rw [hrest, pairsPrefix_prefixPairs_append]
    · have hne : (value g).toUInt8 ≠ (value (prefixPairs t)).toUInt8 := fun h =>
        hgh ((toUInt8_value_eq_iff hg htl).mp h)
      rw [ListLex.commonPrefixLen_cons_of_ne hne.symm, List.getD_cons_zero, List.getD_cons_zero,
        subnetIsPrefix_eq, ofByte_toUInt8_value hg, ofByte_toUInt8_value htl,
        pairsPrefix_append_of_ne hgh (by rw [hg, htl]) (by rw [hg])]
      simp

/-- The test of the walk on a key of the same ruleset and family: it looks at the values of a
subnet that holds the address and skips any other. -/
theorem viewKeyStep_subnet (rs : List UInt8) (fam : UInt8) {x a : InAddr} {p : ℕ}
    (hp : p ≤ 8 * a.bytes.length) (hlen : a.bytes.length = x.bytes.length) :
    viewKeyStep (rs ++ fam :: pack (prefixPairs (ofBytes x.bytes)))
        (rs ++ fam :: pack (subnetBits a.bytes p)) (rs.length + 1) =
      if InSubnet x a p then ViewKeyStep.look else ViewKeyStep.skip := by
  have hA := length_subnetBits hp
  have htest := subnetMatch_pack ((p + 7) / 8 * 2) (A := subnetBits a.bytes p) (s := ofBytes x.bytes)
    (by rw [hA]; ring) (by simp; omega) (by rw [hA]; simp; omega)
  -- the pairs of the subnet begin those of the address exactly when the address is in it
  have hin : pairsPrefix (subnetBits a.bytes p) (prefixPairs (ofBytes x.bytes)) = true ↔
      InSubnet x a p := by
    rw [subnetBits, pairsPrefix_subnet _ (by simp; omega), decide_eq_true_eq,
      List.prefix_iff_eq_take, length_take_ofBytes hp, InSubnet, eq_comm]
  rw [hin] at htest
  have hVU : (pack (subnetBits a.bytes p)).length ≤ (pack (prefixPairs (ofBytes x.bytes))).length := by
    rw [length_pack_of_mod_eq_zero (length_subnetBits_mod hp),
      length_pack_of_mod_eq_zero (by simp; omega), hA]
    simp
    omega
  generalize pack (prefixPairs (ofBytes x.bytes)) = U at htest hVU ⊢
  generalize pack (subnetBits a.bytes p) = V at htest hVU ⊢
  have hcp : keyCommonPrefix (rs ++ fam :: U) (rs ++ fam :: V) =
      rs.length + 1 + ListLex.commonPrefixLen U V := by
    rw [keyCommonPrefix, show rs ++ fam :: U = (rs ++ [fam]) ++ U by simp,
      show rs ++ fam :: V = (rs ++ [fam]) ++ V by simp, ListLex.commonPrefixLen_append_self,
      List.length_append, List.length_singleton]
  have hget : ∀ W : List UInt8,
      (rs ++ fam :: W).getD (rs.length + 1 + ListLex.commonPrefixLen U V) 0 =
        W.getD (ListLex.commonPrefixLen U V) 0 := by
    intro W
    rw [show rs ++ fam :: W = (rs ++ [fam]) ++ W by simp, List.getD_append_right _ _ _ _ (by simp)]
    congr 1
    simp
  have hlenV : (rs ++ fam :: V).length = rs.length + 1 + V.length := by simp; omega
  have hlenU : (rs ++ fam :: U).length = rs.length + 1 + U.length := by simp; omega
  unfold viewKeyStep
  simp only [hcp, hlenU, hlenV, hget]
  rw [if_neg (by omega)]
  by_cases hc : ListLex.commonPrefixLen U V = V.length
  · rw [if_pos (by omega), if_pos (htest.mp (.inl hc))]
  · -- the keys part before either ends, at an octet where the test decides
    have hcV : ListLex.commonPrefixLen U V < V.length :=
      lt_of_le_of_ne (ListLex.commonPrefixLen_le_right U V) hc
    have hcU : ListLex.commonPrefixLen U V < U.length :=
      lt_of_lt_of_le hcV hVU
    rw [if_neg (by omega), if_neg (by omega)]
    have hsub : subnetIsPrefix (V.getD (ListLex.commonPrefixLen U V) 0)
        (U.getD (ListLex.commonPrefixLen U V) 0) = true ↔ InSubnet x a p := by
      rw [← htest]
      simp [hc]
    by_cases hs : InSubnet x a p
    · rw [if_pos (hsub.mpr hs), if_pos hs]
    · rw [if_neg (mt hsub.mp hs), if_neg hs]

/-! ## Subnet keys around an address's key -/

section KeyOrder

variable {x a b : InAddr} {p q : ℕ}

/-- A key under a common prefix compares as its tail. -/
theorem append_cons_le_append_cons_iff (rs : List UInt8) (fam : UInt8) {u v : List UInt8} :
    rs ++ fam :: u ≤ rs ++ fam :: v ↔ u ≤ v := by
  rw [← not_lt, ← not_lt, show rs ++ fam :: v = (rs ++ [fam]) ++ v by simp,
    show rs ++ fam :: u = (rs ++ [fam]) ++ u by simp, ListLex.append_lt_append_left_iff]

theorem append_cons_lt_append_cons_iff (rs : List UInt8) (fam : UInt8) {u v : List UInt8} :
    rs ++ fam :: u < rs ++ fam :: v ↔ u < v := by
  rw [show rs ++ fam :: v = (rs ++ [fam]) ++ v by simp,
    show rs ++ fam :: u = (rs ++ [fam]) ++ u by simp, ListLex.append_lt_append_left_iff]

/-- The key of a subnet holding an address lies at or below the address's own key. -/
theorem subnetBits_le_of_inSubnet (hp : p ≤ 8 * a.bytes.length)
    (hlen : a.bytes.length = x.bytes.length) (hx : InSubnet x a p) :
    subnetBits a.bytes p ≤ prefixPairs (ofBytes x.bytes) := by
  have hsplit := ofBytes_eq_of_inSubnet hx
  cases hw : (ofBytes x.bytes).drop p with
  | nil =>
    -- the prefix is the whole address
    have hfull : p = 8 * a.bytes.length := by
      have h := congrArg List.length hsplit
      simp only [length_ofBytes, List.length_append, hw, List.length_nil, Nat.add_zero,
        List.length_take] at h
      omega
    subst hfull
    rw [hw, List.append_nil] at hsplit
    rw [subnetBits_full, hsplit, List.take_of_length_le (by simp)]
  | cons c w =>
    rw [hw] at hsplit
    apply le_of_lt
    conv_rhs => rw [hsplit]
    have h := prefixPairs_append_replicate_lt ((ofBytes a.bytes).take p)
      (2 * (8 * ((p + 7) / 8) - p)) c w []
    rwa [List.append_nil] at h

/-- Of two subnets holding an address, the one with the longer prefix has the greater key. -/
theorem subnetBits_lt_of_inSubnet (hq : q ≤ 8 * x.bytes.length) (hpq : p < q)
    (ha : InSubnet x a p) (hb : InSubnet x b q) : subnetBits a.bytes p < subnetBits b.bytes q := by
  -- the longer prefix is the shorter one, the address's next bit and the rest
  have hext : (ofBytes a.bytes).take p ++ ((ofBytes x.bytes).take q).getD p false ::
      ((ofBytes x.bytes).take q).drop (p + 1) = (ofBytes b.bytes).take q := by
    rw [← ha, ← hb]
    have hlen : p < ((ofBytes x.bytes).take q).length := by simp; omega
    have htake : (ofBytes x.bytes).take p = ((ofBytes x.bytes).take q).take p := by
      rw [List.take_take, Nat.min_eq_left hpq.le]
    rw [List.getD_eq_getElem _ _ hlen, ← List.drop_eq_getElem_cons hlen, htake,
      List.take_append_drop]
  exact subnetBits_lt_of_extends hext

end KeyOrder

/-! ## The walk -/

/-- The full-length key of an address under ruleset rs: where the walk starts. -/
def viewSearchKey (rs : List UInt8) (x : InAddr) : List UInt8 :=
  rs ++ keyViewSrc x :: pack (prefixPairs (ofBytes x.bytes))

/-- k is the key, under the ruleset rs and the family of x, of a subnet that holds x. -/
def ViewKeyHolds (x : InAddr) (rs k : List UInt8) : Prop :=
  ∃ a : InAddr, ∃ p ≤ 8 * a.bytes.length, a.bytes.length = x.bytes.length ∧
    k = rs ++ keyViewSrc x :: pack (subnetBits a.bytes p) ∧ InSubnet x a p

/-- An entry applies to a request from x: its key holds x and its value passes the checks. -/
def ViewEntryApplies (req : ViewRequest) (x : InAddr) (rs : List UInt8)
    (e : List UInt8 × List UInt8) : Prop :=
  ViewKeyHolds x rs e.1 ∧ (viewVariantAction req x.bytes.length e.2).isSome

/-- Every key under the ruleset rs and the family of x is the key of a subnet of that family. -/
def ViewKeysWellFormed (db : Cdb) (rs : List UInt8) (x : InAddr) : Prop :=
  ∀ e ∈ db, rs ++ [keyViewSrc x] <+: e.1 → ∃ a : InAddr, ∃ p ≤ 8 * a.bytes.length,
    a.bytes.length = x.bytes.length ∧ e.1 = rs ++ keyViewSrc x :: pack (subnetBits a.bytes p)

section Walk

variable {db : Cdb} {req : ViewRequest} {x : InAddr} {rs : List UInt8}

theorem le_viewSearchKey_of_holds {k : List UInt8} (h : ViewKeyHolds x rs k) : k ≤ viewSearchKey rs x := by
  obtain ⟨a, p, hp, hlen, rfl, hx⟩ := h
  rw [viewSearchKey, append_cons_le_append_cons_iff]
  rcases (subnetBits_le_of_inSubnet hp hlen hx).lt_or_eq with hlt | heq
  · exact le_of_lt ((pack_lt_pack_iff (length_subnetBits_mod hp) (by simp; omega)).mpr hlt)
  · rw [heq]

/-- A key of a subnet that does not hold x is no key that holds it. -/
theorem not_holds_of_not_inSubnet {a : InAddr} {p : ℕ} (hp : p ≤ 8 * a.bytes.length)
    (hx : ¬ InSubnet x a p) : ¬ ViewKeyHolds x rs (rs ++ keyViewSrc x :: pack (subnetBits a.bytes p)) := by
  rintro ⟨b, q, hq, -, hkey, hbx⟩
  rw [List.append_cancel_left_eq, List.cons.injEq] at hkey
  have hbits := pack_injective (length_subnetBits_mod hp) (length_subnetBits_mod hq) hkey.2
  obtain ⟨rfl, htake⟩ := (subnetBits_eq_iff hp hq).mp hbits
  exact hx (hbx.trans htake.symm)

/-- What the walk does with a key below the search key: it stops at a key below every key
that holds x, skips a key that does not hold x, and looks at one that does. -/
theorem viewKeyStep_cases (hwf : ViewKeysWellFormed db rs x) {e : List UInt8 × List UInt8}
    (he : e ∈ db) (hlt : e.1 < viewSearchKey rs x) :
    (viewKeyStep (viewSearchKey rs x) e.1 (rs.length + 1) = .stop ∧
        ∀ k, ViewKeyHolds x rs k → e.1 < k) ∨
      (viewKeyStep (viewSearchKey rs x) e.1 (rs.length + 1) = .skip ∧ ¬ ViewKeyHolds x rs e.1) ∨
      (viewKeyStep (viewSearchKey rs x) e.1 (rs.length + 1) = .look ∧ ViewKeyHolds x rs e.1) := by
  have hR : rs ++ [keyViewSrc x] <+: viewSearchKey rs x :=
    ⟨pack (prefixPairs (ofBytes x.bytes)), by simp [viewSearchKey]⟩
  by_cases hreg : rs ++ [keyViewSrc x] <+: e.1
  · obtain ⟨a, p, hp, hlen, hkey⟩ := hwf e he hreg
    rw [hkey, viewSearchKey, viewKeyStep_subnet rs _ hp hlen]
    by_cases hx : InSubnet x a p
    · exact .inr (.inr ⟨if_pos hx, a, p, hp, hlen, rfl, hx⟩)
    · exact .inr (.inl ⟨if_neg hx, not_holds_of_not_inSubnet hp hx⟩)
  · -- the key parts from the search key before the family octet, below all of the ruleset's keys
    have hcp : keyCommonPrefix (viewSearchKey rs x) e.1 < rs.length + 1 := by
      by_contra hge
      apply hreg
      have h := ListLex.take_commonPrefixLen_prefix (viewSearchKey rs x) e.1
      refine List.IsPrefix.trans ?_ h
      rw [List.prefix_iff_eq_take, List.take_take,
        Nat.min_eq_left (by simpa [keyCommonPrefix] using not_lt.mp hge)]
      simpa using (List.prefix_iff_eq_take.mp hR)
    refine .inl ⟨by simp [viewKeyStep, hcp], fun k hk => ?_⟩
    have hbelow : e.1 < rs ++ [keyViewSrc x] :=
      ListLex.lt_of_prefix_of_commonPrefixLen_lt_left hlt hR
        (by rw [ListLex.commonPrefixLen_comm]; simpa [keyCommonPrefix] using hcp)
    obtain ⟨a, p, -, -, rfl, -⟩ := hk
    exact lt_of_lt_of_le hbelow
      (not_lt.mp (ListLex.not_lt_of_prefix ⟨pack (subnetBits a.bytes p), by simp⟩))

/-- The loop over the values of a key, started at or before its first value that passes: it
gives the action of a value of the key, or none with the cursor on a value of the key, when no
value of the key passes. -/
theorem viewVariantsLoop_spec (hs : Sorted db) (ab : ℕ) (kl : List UInt8) :
    ∀ fuel c (hc : c < db.length), db[c].1 = kl → db.length ≤ c + fuel →
      (∀ j (hj : j < c), db[j].1 = kl → viewVariantAction req ab db[j].2 = none) →
      (∀ act last, viewVariantsLoop db req ab fuel c = (some act, last) →
        ∃ e ∈ db, e.1 = kl ∧ viewVariantAction req ab e.2 = some act) ∧
      (∀ last, viewVariantsLoop db req ab fuel c = (none, last) →
        ∃ hl : last < db.length, db[last].1 = kl ∧
          ∀ e ∈ db, e.1 = kl → viewVariantAction req ab e.2 = none) := by
  intro fuel
  induction fuel with
  | zero => intro c hc _ hfuel; omega
  | succ fuel ih =>
    intro c hc hkey hfuel hbefore
    cases hv : viewVariantAction req ab db[c].2 with
    | some act =>
      have hloop : viewVariantsLoop db req ab (fuel + 1) c = (some act, c) := by
        simp [viewVariantsLoop, List.getElem?_eq_getElem hc, hv]
      rw [hloop]
      refine ⟨fun act' last h => ?_, fun last h => by cases h⟩
      have hact : act = act' := Option.some.inj (Prod.mk.inj h).1
      subst hact
      exact ⟨db[c], List.getElem_mem hc, hkey, hv⟩
    | none =>
      cases hn : nextDup db c with
      | some j =>
        -- the next value of the same key: the loop goes on there
        obtain ⟨rfl, hc1, hk1⟩ := nextDup_spec hn
        have hloop : viewVariantsLoop db req ab (fuel + 1) c = viewVariantsLoop db req ab fuel (c + 1) := by
          simp [viewVariantsLoop, List.getElem?_eq_getElem hc, hv, cdbItNext, hn, krOk]
        rw [hloop]
        refine ih (c + 1) hc1 (hk1.trans hkey) (by omega) fun j hj hjk => ?_
        rcases Nat.lt_succ_iff_lt_or_eq.mp hj with hj | rfl
        · exact hbefore j hj hjk
        · exact hv
      | none =>
        have hloop : viewVariantsLoop db req ab (fuel + 1) c = (none, c) := by
          simp [viewVariantsLoop, List.getElem?_eq_getElem hc, hv, cdbItNext, hn, krError, Errno.enoent]
        rw [hloop]
        refine ⟨fun act last h => (by cases h), fun last h => ?_⟩
        obtain ⟨-, rfl⟩ := Prod.mk.inj h
        refine ⟨hc, hkey, fun e he hek => ?_⟩
        obtain ⟨j, hj, rfl⟩ := List.getElem_of_mem he
        rcases lt_trichotomy j c with hjc | rfl | hcj
        · exact hbefore j hjc hek
        · exact hv
        · -- past the key's last value the keys are greater
          have hc1 : c + 1 < db.length := by omega
          have hne := nextDup_eq_none hc hn hc1
          have hgt : kl < db[c + 1].1 :=
            lt_of_le_of_ne (hkey ▸ hs.le_of_le hc hc1 (by omega)) (hkey ▸ hne.symm)
          exact absurd hek (ne_of_gt (lt_of_lt_of_le hgt (hs.le_of_le hc1 hj (by omega))))

/-- Where the walk may stand: after a miss with nothing that applies, or on an entry at the
search key (code 0) or below it (code 1), with no entry above it that applies and with fuel
beyond the cursor. -/
def ViewWalkPre (db : Cdb) (req : ViewRequest) (x : InAddr) (rs : List UInt8) (fuel : ℕ)
    (st : ℤ × Option ℕ) : Prop :=
  (st.1 = krError Errno.enoent ∧ ∀ e ∈ db, ¬ ViewEntryApplies req x rs e) ∨
    ∃ c, st.2 = some c ∧ ∃ hc : c < db.length, c < fuel ∧
      (st.1 = 0 ∧ db[c].1 = viewSearchKey rs x ∨ st.1 = 1 ∧ db[c].1 < viewSearchKey rs x) ∧
      ∀ e ∈ db, db[c].1 < e.1 → ¬ ViewEntryApplies req x rs e

/-- What the walk of one ruleset ends with: no action when nothing applies, otherwise the
action of an entry that applies and has the greatest key of all that apply. -/
def ViewWalkResult (db : Cdb) (req : ViewRequest) (x : InAddr) (rs : List UInt8) :
    Except ℤ (Option (List UInt8)) → Prop
  | .ok none => ∀ e ∈ db, ¬ ViewEntryApplies req x rs e
  | .ok (some act) => ∃ e ∈ db, ViewEntryApplies req x rs e ∧
      viewVariantAction req x.bytes.length e.2 = some act ∧
      ∀ e' ∈ db, ViewEntryApplies req x rs e' → e'.1 ≤ e.1
  | .error _ => False

/-- After a key all of whose entries are done, read_less from any of its entries leaves the
walk where it may stand. -/
theorem viewWalkPre_readLess (hs : Sorted db) {fuel c c' : ℕ} (hc : c < db.length)
    (hc' : c' < db.length) (hkey : db[c'].1 = db[c].1) (hK : db[c].1 ≤ viewSearchKey rs x)
    (hfuel : c < fuel + 1) (hdone : ∀ e ∈ db, db[c].1 ≤ e.1 → ¬ ViewEntryApplies req x rs e) :
    ViewWalkPre db req x rs fuel (cdbReadLess db c') := by
  unfold cdbReadLess
  cases hp : prevNodup db c' with
  | some j =>
    obtain ⟨hj, hjlt, -, hgreatest⟩ := prevNodup_spec hs hc' hp
    rw [hkey] at hjlt hgreatest
    -- the entry found is below the key, so below the cursor
    have hjc : j < c := not_le.mp fun hcj => absurd (hs.le_of_le hc hj hcj) (not_le.mpr hjlt)
    refine .inr ⟨j, rfl, hj, by omega, .inr ⟨rfl, lt_of_lt_of_le hjlt hK⟩, fun e he hlt => ?_⟩
    exact hdone e he (not_lt.mp fun h => absurd (hgreatest e he h) (not_le.mpr hlt))
  | none =>
    refine .inl ⟨rfl, fun e he => hdone e he ?_⟩
    rw [← hkey]
    exact le_of_prevNodup_eq_none hs hc' hp e he

/-- The first read of the walk: with a key above the search key in the store, read_leq leaves
the walk where it may stand. -/
theorem viewWalkPre_readLeq (hs : Sorted db) (habove : ∃ e ∈ db, viewSearchKey rs x < e.1) :
    ViewWalkPre db req x rs (db.length + 1) (cdbReadLeq db (viewSearchKey rs x)) := by
  have hle : ∀ e ∈ db, ViewEntryApplies req x rs e → e.1 ≤ viewSearchKey rs x :=
    fun e _ h => le_viewSearchKey_of_holds h.1
  by_cases hk : ∃ e ∈ db, e.1 = viewSearchKey rs x
  · obtain ⟨i, hr, hi, hki⟩ := cdbReadLeq_of_mem hs hk
    rw [hr]
    exact .inr ⟨i, rfl, hi, by omega, .inl ⟨rfl, hki⟩, fun e he hlt h =>
      absurd (hle e he h) (not_le.mpr (hki ▸ hlt))⟩
  push Not at hk
  by_cases hlo : ∃ e ∈ db, e.1 < viewSearchKey rs x
  · obtain ⟨j, hr, hj, hjlt, hgreatest⟩ := cdbReadLeq_of_between hs hk hlo habove
    rw [hr]
    refine .inr ⟨j, rfl, hj, by omega, .inr ⟨rfl, hjlt⟩, fun e he hlt h => ?_⟩
    have heK := lt_of_le_of_ne (hle e he h) (hk e he)
    exact absurd (hgreatest e he heK) (not_le.mpr hlt)
  · push Not at hlo
    rw [cdbReadLeq_below_all fun e he => lt_of_le_of_ne (hlo e he) (hk e he).symm]
    exact .inl ⟨rfl, fun e he h => absurd (hle e he h) (not_le.mpr
      (lt_of_le_of_ne (hlo e he) (hk e he).symm))⟩

/-- The address's own key holds it. -/
theorem holds_viewSearchKey : ViewKeyHolds x rs (viewSearchKey rs x) :=
  ⟨x, 8 * x.bytes.length, le_rfl, rfl, by rw [viewSearchKey, subnetBits_full], rfl⟩

/-- The step of the walk on the entry under the cursor, the exact key (code 0) looked at
without a test: it stops when nothing applies, skips a key that does not hold x, and looks at
one that does. -/
theorem viewWalkStep_cases (hwf : ViewKeysWellFormed db rs x) {ret : ℤ} {c : ℕ} (hc : c < db.length)
    (hcode : ret = 0 ∧ db[c].1 = viewSearchKey rs x ∨ ret = 1 ∧ db[c].1 < viewSearchKey rs x)
    (habove : ∀ e ∈ db, db[c].1 < e.1 → ¬ ViewEntryApplies req x rs e) :
    ((if ret = 0 then ViewKeyStep.look else viewKeyStep (viewSearchKey rs x) db[c].1 (rs.length + 1)) =
        .stop ∧ ∀ e ∈ db, ¬ ViewEntryApplies req x rs e) ∨
      ((if ret = 0 then ViewKeyStep.look else viewKeyStep (viewSearchKey rs x) db[c].1 (rs.length + 1)) =
        .skip ∧ ¬ ViewKeyHolds x rs db[c].1) ∨
      ((if ret = 0 then ViewKeyStep.look else viewKeyStep (viewSearchKey rs x) db[c].1 (rs.length + 1)) =
        .look ∧ ViewKeyHolds x rs db[c].1) := by
  rcases hcode with ⟨rfl, hK⟩ | ⟨rfl, hlt⟩
  · exact .inr (.inr ⟨if_pos rfl, hK ▸ holds_viewSearchKey⟩)
  · rw [if_neg one_ne_zero]
    rcases viewKeyStep_cases hwf (List.getElem_mem hc) hlt with ⟨hst, hbelow⟩ | h | h
    · exact .inl ⟨hst, fun e he happ => habove e he (hbelow e.1 happ.1) happ⟩
    · exact .inr (.inl h)
    · exact .inr (.inr h)

/-- The walk of one ruleset: from where it may stand it selects the action of an entry that
applies and has the greatest key of all that apply, or nothing when nothing applies. -/
theorem viewWalk_spec (hs : Sorted db) (hwf : ViewKeysWellFormed db rs x) :
    ∀ fuel st, ViewWalkPre db req x rs fuel st →
      ViewWalkResult db req x rs
        (viewWalk db req x.bytes.length (viewSearchKey rs x) (rs.length + 1) fuel st) := by
  intro fuel
  induction fuel with
  | zero =>
    rintro ⟨ret, cur⟩ (⟨-, hnone⟩ | ⟨c, -, hc, hc0, -⟩)
    · exact hnone
    · omega
  | succ fuel ih =>
    rintro ⟨ret, cur⟩ (⟨hret, hnone⟩ | ⟨c, hcur, hc, hcf, hcode, habove⟩)
    · simp only at hret
      subst hret
      simp only [viewWalk, if_true]
      exact hnone
    simp only at hcur hcode habove
    subst hcur
    have hcodes : ret ≠ krError Errno.enoent ∧ ¬ ret < 0 := by
      rcases hcode with ⟨rfl, -⟩ | ⟨rfl, -⟩ <;> decide
    have hK : db[c].1 ≤ viewSearchKey rs x := by
      rcases hcode with ⟨-, h⟩ | ⟨-, h⟩
      · exact h.le
      · exact h.le
    have hkl : (db.getD c ([], [])).1 = db[c].1 := by rw [List.getD_eq_getElem _ _ hc]
    simp only [viewWalk, if_neg hcodes.1, if_neg hcodes.2, hkl]
    rcases viewWalkStep_cases hwf hc hcode habove with ⟨hst, hnone⟩ | ⟨hst, hnot⟩ | ⟨hst, hholds⟩
    · rw [hst]
      exact hnone
    · -- the key does not hold x: on to the key below
      rw [hst]
      refine ih _ (viewWalkPre_readLess hs hc hc rfl hK (by omega) fun e he hle happ => ?_)
      rcases hle.lt_or_eq with hlt | heq
      · exact habove e he hlt happ
      · exact hnot (heq ▸ happ.1)
    · -- the key holds x: its values, and on below when none passes
      rw [hst]
      obtain ⟨first, hfirst⟩ := setKey_isSome hs (List.getElem_mem hc)
      obtain ⟨hf, hkf, hbefore⟩ := setKey_spec hfirst
      have hit : cdbItFirst db db[c].1 = (0, some first) := by simp [cdbItFirst, hfirst, krOk]
      obtain ⟨hsome, hnone⟩ := @viewVariantsLoop_spec db req hs x.bytes.length db[c].1
        db.length first hf hkf (by omega) fun j hj hjk => absurd hjk (hbefore j hj).ne
      rw [hit]
      simp only
      cases hv : viewVariantsLoop db req x.bytes.length db.length first with
      | mk found last =>
        cases found with
        | some act =>
          obtain ⟨e, he, hek, hact⟩ := hsome act last hv
          refine ⟨e, he, ⟨hek ▸ hholds, by simp [hact]⟩, hact, fun e' he' happ => ?_⟩
          rw [hek]
          exact not_lt.mp fun hlt => habove e' he' hlt happ
        | none =>
          obtain ⟨hl, hkl', hall⟩ := hnone last hv
          refine ih _ (viewWalkPre_readLess hs hc hl hkl' hK (by omega) fun e he hle happ => ?_)
          rcases hle.lt_or_eq with hlt | heq
          · exact habove e he hlt happ
          · exact absurd happ.2 (by simp [hall e he heq.symm])

end Walk

/-! ## Rules as kr_view_insert_action writes them -/

/-- The protocol set admits the protocol: it holds the protocol's bit, or it is empty and admits
every protocol. -/
def ProtoAdmits (protos : UInt8) (p : KrProto) : Prop :=
  protos = 0 ∨ protos.toNat.testBit p.toNat = true

instance decidableProtoAdmits (protos : UInt8) (p : KrProto) : Decidable (ProtoAdmits protos p) :=
  inferInstanceAs (Decidable (_ ∨ _))

theorem reqProtoMatches_iff (req : ViewRequest) (protos : UInt8) :
    reqProtoMatches req protos = true ↔ ProtoAdmits protos (reqProto req) := by
  unfold reqProtoMatches
  generalize reqProto req = p
  revert protos
  cases p <;> decide +kernel

/-- A call whose destination, if it has one, is of the family of its source: the calls that
write their rule. -/
def ViewArgsOk (args : ViewInsertArgs) : Prop :=
  ∀ d ∈ args.dstSubnet, d.addr.bytes.length = args.subnet.addr.bytes.length

/-- The rule of a call applies to a request from x: the call wrote it, its source subnet is of
x's family and holds x, its protocol set admits the request's protocol, and its destination
subnet, if it has one, holds the request's destination address. -/
def ViewRuleApplies (req : ViewRequest) (x : InAddr) (args : ViewInsertArgs) : Prop :=
  ViewArgsOk args ∧ args.subnet.addr.bytes.length = x.bytes.length ∧
    InSubnet x args.subnet.addr args.subnet.len ∧ ProtoAdmits args.protos (reqProto req) ∧
    ∀ d ∈ args.dstSubnet, InSubnet req.dst d.addr d.len

/-- The checks of the select loop on a value written by kr_view_insert_action: they pass exactly
when the protocol and destination conditions hold, and leave the action. -/
theorem viewVariantAction_viewValue {req : ViewRequest} {x : InAddr} (hx : req.src = some x)
    {args : ViewInsertArgs} (hok : ViewArgsOk args) (hlen : args.subnet.addr.bytes.length = x.bytes.length)
    (act : List UInt8) :
    viewVariantAction req x.bytes.length (viewValue args) = some act ↔
      (ProtoAdmits args.protos (reqProto req) ∧ ∀ d ∈ args.dstSubnet, InSubnet req.dst d.addr d.len) ∧
        act = args.action := by
  have hdst := req.dst_family x (by simp [hx])
  have hproto := reqProtoMatches_iff req args.protos
  -- no destination: the value goes on with a zero length and the action
  have hnone : viewVariantAction req x.bytes.length (args.protos :: 0 :: args.action) = some act ↔
      ProtoAdmits args.protos (reqProto req) ∧ act = args.action := by
    by_cases hp : reqProtoMatches req args.protos = true
    · simp [viewVariantAction, hp, hproto.mp hp, eq_comm]
    · simp [viewVariantAction, hp, mt hproto.mpr hp]
  unfold viewValue
  cases hd : args.dstSubnet with
  | none => simpa using hnone
  | some d =>
    have hdlen : d.addr.bytes.length = x.bytes.length := (hok d (by simp [hd])).trans hlen
    have hle := d.len_le
    have hsmall : d.len < 256 := by rcases d.addr.length_eq with h | h <;> omega
    have htoNat : d.len.toUInt8.toNat = d.len := UInt8.toNat_ofNat_of_lt' hsmall
    by_cases hz : d.len.toUInt8 = 0
    · -- a destination of length zero is written as none is, and holds every address
      have hd0 : d.len = 0 := by rw [← htoNat, hz]; rfl
      simp only [hz, if_true, List.cons_append, List.nil_append]
      rw [hnone]
      simp [InSubnet, hd0]
    · simp only [hz, if_false, List.cons_append]
      -- the prefix of the destination on its whole address, then the action
      have hcmp : krBitcmp (d.addr.bytes ++ args.action) req.dst.bytes (d.len.toUInt8.toNat : ℕ) = 0 ↔
          InSubnet req.dst d.addr d.len := by
        rw [htoNat, krBitcmp_eq_zero_iff (by simp; omega) (by omega), ofBytes_append,
          List.take_append_of_le_length (by simp; omega), InSubnet, eq_comm]
      have hdrop : (d.addr.bytes ++ args.action).drop x.bytes.length = args.action := by
        rw [← hdlen, List.drop_left]
      by_cases hp : reqProtoMatches req args.protos = true
      · have hlong : ¬ (d.addr.bytes ++ args.action).length < x.bytes.length := by simp; omega
        simp only [viewVariantAction, hp, Bool.not_true, Bool.false_eq_true, if_false, hz, hlong]
        by_cases hin : InSubnet req.dst d.addr d.len
        · rw [if_neg (not_not.mpr (hcmp.mpr hin)), hdrop]
          simp [hproto.mp hp, hin, eq_comm]
        · rw [if_pos (mt hcmp.mp hin)]
          simp [hin]
      · simp [viewVariantAction, hp, mt hproto.mpr hp]

/-! ## Runs of kr_view_insert_action -/

/-- The rule database after calls of kr_view_insert_action, one after another; a call that
fails leaves it as it was. -/
def viewInsertRun (db : Cdb) : List ViewInsertArgs → Cdb
  | [] => db
  | args :: rest =>
    viewInsertRun (match krViewInsertAction db args with
      | .ok db' => db'
      | .error _ => db) rest

theorem krViewInsertAction_of_ok {db : Cdb} {args : ViewInsertArgs} (hok : ViewArgsOk args) :
    krViewInsertAction db args = .ok (cdbWrite db (viewKey args) (viewValue args)) := by
  unfold krViewInsertAction
  rw [subnetEncode_eq_ok _ args.subnet.len_le]
  cases hd : args.dstSubnet with
  | none => rfl
  | some d => simp [hok d (by simp [hd]), viewKey]

theorem krViewInsertAction_of_not_ok {db : Cdb} {args : ViewInsertArgs} (hok : ¬ ViewArgsOk args) :
    krViewInsertAction db args = .error (krError Errno.einval) := by
  unfold krViewInsertAction
  rw [subnetEncode_eq_ok _ args.subnet.len_le]
  cases hd : args.dstSubnet with
  | none => exact absurd (fun d hd' => by simp [hd] at hd') hok
  | some d =>
    have hne : d.addr.bytes.length ≠ args.subnet.addr.bytes.length := fun h =>
      hok fun d' hd' => by
        obtain rfl : d = d' := by simpa [hd] using hd'
        exact h
    simp [hne]

/-- What kr_rules_init leaves for the views: the store in key order, the list of rulesets "d",
a default rule under "da" (the key of a zone-like apex) and no key of a view. -/
structure ViewInitDb (db : Cdb) : Prop where
  sorted : Sorted db
  rulesets : cdbRead db keyRulesets = .ok [100, 0]
  above : ∃ e ∈ db, [100, 97] <+: e.1
  no_views : ∀ e ∈ db, ¬ [100, keyViewSrc4] <+: e.1 ∧ ¬ [100, keyViewSrc6] <+: e.1

/-- The rule database after kr_rules_init and the calls ops: what kr_rules_init wrote, under the
keys of views the rules of the calls that wrote, and all of those. -/
structure ViewDbInv (db : Cdb) (ops : List ViewInsertArgs) : Prop where
  sorted : Sorted db
  rulesets : cdbRead db keyRulesets = .ok [100, 0]
  above : ∃ e ∈ db, [100, 97] <+: e.1
  views : ∀ e ∈ db, ([100, keyViewSrc4] <+: e.1 ∨ [100, keyViewSrc6] <+: e.1) →
    ∃ args ∈ ops, ViewArgsOk args ∧ e = (viewKey args, viewValue args)
  written : ∀ args ∈ ops, ViewArgsOk args → (viewKey args, viewValue args) ∈ db

theorem ViewInitDb.inv {db : Cdb} (h : ViewInitDb db) : ViewDbInv db [] where
  sorted := h.sorted
  rulesets := h.rulesets
  above := h.above
  views e he hview := absurd hview (by simpa using h.no_views e he)
  written _ hargs := absurd hargs List.not_mem_nil

/-- One call keeps the invariant, with the call added. -/
theorem ViewDbInv.insert {db : Cdb} {ops : List ViewInsertArgs} (h : ViewDbInv db ops)
    (args : ViewInsertArgs) :
    ViewDbInv (match krViewInsertAction db args with
      | .ok db' => db'
      | .error _ => db) (ops ++ [args]) := by
  by_cases hok : ViewArgsOk args
  · rw [krViewInsertAction_of_ok hok]
    have hkey : viewKey args ≠ keyRulesets := by simp [viewKey, rulesetDefault, keyRulesets]
    refine ⟨sorted_cdbWrite h.sorted, by rw [cdbRead_cdbWrite_of_ne h.sorted hkey, h.rulesets], ?_,
      fun e he hview => ?_, fun args' hargs' hok' => ?_⟩
    · obtain ⟨e, he, hpre⟩ := h.above
      exact ⟨e, mem_cdbWrite.mpr (.inl he), hpre⟩
    · rcases mem_cdbWrite.mp he with he | rfl
      · obtain ⟨args', hargs', hok', rfl⟩ := h.views e he hview
        exact ⟨args', List.mem_append_left _ hargs', hok', rfl⟩
      · exact ⟨args, by simp, hok, rfl⟩
    · rcases List.mem_append.mp hargs' with hargs' | hargs'
      · exact mem_cdbWrite.mpr (.inl (h.written args' hargs' hok'))
      · obtain rfl := List.mem_singleton.mp hargs'
        exact mem_cdbWrite.mpr (.inr rfl)
  · rw [krViewInsertAction_of_not_ok hok]
    refine ⟨h.sorted, h.rulesets, h.above, fun e he hview => ?_, fun args' hargs' hok' => ?_⟩
    · obtain ⟨args', hargs', hok', rfl⟩ := h.views e he hview
      exact ⟨args', List.mem_append_left _ hargs', hok', rfl⟩
    · rcases List.mem_append.mp hargs' with hargs' | hargs'
      · exact h.written args' hargs' hok'
      · exact absurd (List.mem_singleton.mp hargs' ▸ hok') hok

/-- Every run keeps the invariant. -/
theorem ViewDbInv.run {db : Cdb} {ops : List ViewInsertArgs} (h : ViewDbInv db ops) :
    ∀ rest, ViewDbInv (viewInsertRun db rest) (ops ++ rest) := by
  intro rest
  induction rest generalizing db ops with
  | nil => simpa [viewInsertRun] using h
  | cons args rest ih =>
    have h' := ih (h.insert args)
    rwa [List.append_assoc, List.singleton_append] at h'

/-! ## The selection -/

theorem keyViewSrc_eq_iff {a b : InAddr} : keyViewSrc a = keyViewSrc b ↔ a.bytes.length = b.bytes.length := by
  rcases a.length_eq with ha | ha <;> rcases b.length_eq with hb | hb <;>
    simp [keyViewSrc, keyViewSrc4, keyViewSrc6, ha, hb]

section Select

variable {db : Cdb} {req : ViewRequest} {x : InAddr}

/-- The loop over the rulesets: an action comes from the first ruleset with an entry that
applies, as its walk selects it; otherwise the result is ENOENT and nothing applies. -/
theorem viewRulesetsLoop_spec (hs : Sorted db) : ∀ L : List (List UInt8),
    (∀ rs ∈ L, ViewKeysWellFormed db rs x ∧ ∃ e ∈ db, viewSearchKey rs x < e.1) →
    (∀ act, viewRulesetsLoop db req x (pack (prefixPairs (ofBytes x.bytes))) L = .ok act →
      ∃ pre rs post, L = pre ++ rs :: post ∧ (∀ rs' ∈ pre, ∀ e ∈ db, ¬ ViewEntryApplies req x rs' e) ∧
        ViewWalkResult db req x rs (.ok (some act))) ∧
    (∀ err, viewRulesetsLoop db req x (pack (prefixPairs (ofBytes x.bytes))) L = .error err →
      err = krError Errno.enoent ∧ ∀ rs ∈ L, ∀ e ∈ db, ¬ ViewEntryApplies req x rs e)
  | [], _ => ⟨fun act h => (by cases h), fun err h => ⟨(by cases h; rfl), fun rs h => absurd h List.not_mem_nil⟩⟩
  | rs :: rest, hL => by
    obtain ⟨hwf, habove⟩ := hL rs List.mem_cons_self
    have hwalk := @viewWalk_spec db req x rs hs hwf (db.length + 1) _ (viewWalkPre_readLeq hs habove)
    obtain ⟨ihok, iherr⟩ := viewRulesetsLoop_spec hs rest fun rs' h => hL rs' (List.mem_cons_of_mem _ h)
    have hloop : viewRulesetsLoop db req x (pack (prefixPairs (ofBytes x.bytes))) (rs :: rest) =
        match viewWalk db req x.bytes.length (viewSearchKey rs x) (rs.length + 1) (db.length + 1)
          (cdbReadLeq db (viewSearchKey rs x)) with
        | .error e => .error e
        | .ok (some act) => .ok act
        | .ok none => viewRulesetsLoop db req x (pack (prefixPairs (ofBytes x.bytes))) rest := rfl
    rw [hloop]
    revert hwalk
    cases viewWalk db req x.bytes.length (viewSearchKey rs x) (rs.length + 1) (db.length + 1)
      (cdbReadLeq db (viewSearchKey rs x)) with
    | error e => intro hwalk; exact hwalk.elim
    | ok r =>
      cases r with
      | some act =>
        intro hwalk
        refine ⟨fun act' h => ?_, fun err h => by cases h⟩
        cases h
        exact ⟨[], rs, rest, rfl, fun rs' h => absurd h List.not_mem_nil, hwalk⟩
      | none =>
        -- nothing applies in this ruleset: the next one decides
        intro hnone
        refine ⟨fun act h => ?_, fun err h => ?_⟩
        · obtain ⟨pre, rs', post, hrest, hpre, hres⟩ := ihok act h
          refine ⟨rs :: pre, rs', post, by rw [hrest]; rfl, fun rs'' h'' => ?_, hres⟩
          rcases List.mem_cons.mp h'' with rfl | h''
          · exact hnone
          · exact hpre rs'' h''
        · obtain ⟨herr, hall⟩ := iherr err h
          refine ⟨herr, fun rs'' h'' => ?_⟩
          rcases List.mem_cons.mp h'' with rfl | h''
          · exact hnone
          · exact hall rs'' h''

variable {ops : List ViewInsertArgs}

/-- Under the default ruleset the keys of x's family are those of the rules written. -/
theorem ViewDbInv.keysWellFormed (h : ViewDbInv db ops) : ViewKeysWellFormed db rulesetDefault x := by
  intro e he hpre
  have hview : [100, keyViewSrc4] <+: e.1 ∨ [100, keyViewSrc6] <+: e.1 := by
    unfold keyViewSrc at hpre
    split_ifs at hpre
    · exact .inl hpre
    · exact .inr hpre
  obtain ⟨args, -, -, rfl⟩ := h.views e he hview
  have hfam : keyViewSrc args.subnet.addr = keyViewSrc x := by
    obtain ⟨t, ht⟩ := hpre
    simp only [viewKey, rulesetDefault, List.cons_append, List.nil_append, List.cons.injEq,
      true_and] at ht
    exact ht.1.symm
  refine ⟨args.subnet.addr, args.subnet.len, args.subnet.len_le, keyViewSrc_eq_iff.mp hfam, ?_⟩
  rw [viewKey, hfam]

/-- The default rule under "da" lies above the search key of every address. -/
theorem ViewDbInv.above_viewSearchKey (h : ViewDbInv db ops) :
    ∃ e ∈ db, viewSearchKey rulesetDefault x < e.1 := by
  obtain ⟨e, he, t, ht⟩ := h.above
  refine ⟨e, he, ?_⟩
  rw [← ht, viewSearchKey, rulesetDefault]
  have hfam : keyViewSrc x < 97 := by unfold keyViewSrc; split_ifs <;> decide
  exact List.cons_lt_cons_iff.mpr (.inr ⟨rfl, List.cons_lt_cons_iff.mpr (.inl hfam)⟩)

/-- An entry of the database applies exactly when it is the rule of a call that applies. -/
theorem ViewDbInv.entryApplies_iff (h : ViewDbInv db ops) (hx : req.src = some x)
    {e : List UInt8 × List UInt8} (he : e ∈ db) :
    ViewEntryApplies req x rulesetDefault e ↔
      ∃ args ∈ ops, e = (viewKey args, viewValue args) ∧ ViewRuleApplies req x args := by
  constructor
  · rintro ⟨⟨a, p, hp, hlen, hkey, hax⟩, hvar⟩
    have hview : [100, keyViewSrc4] <+: e.1 ∨ [100, keyViewSrc6] <+: e.1 := by
      rw [hkey]
      unfold keyViewSrc
      split_ifs
      · exact .inl ⟨_, rfl⟩
      · exact .inr ⟨_, rfl⟩
    obtain ⟨args, hargs, hok, rfl⟩ := h.views e he hview
    simp only [viewKey, rulesetDefault, List.singleton_append, List.cons.injEq, true_and] at hkey
    have hlen' : args.subnet.addr.bytes.length = x.bytes.length := keyViewSrc_eq_iff.mp hkey.1
    -- the same key is the same subnet
    obtain ⟨hpq, htake⟩ := (subnetBits_eq_iff args.subnet.len_le hp).mp
      (pack_injective (length_subnetBits_mod args.subnet.len_le) (length_subnetBits_mod hp) hkey.2)
    obtain ⟨act, hact⟩ := Option.isSome_iff_exists.mp hvar
    obtain ⟨⟨hproto, hdst⟩, -⟩ := (viewVariantAction_viewValue hx hok hlen' act).mp hact
    subst hpq
    exact ⟨args, hargs, rfl, hok, hlen', hax.trans htake.symm, hproto, hdst⟩
  · rintro ⟨args, -, rfl, hok, hlen, hin, hproto, hdst⟩
    have hfam : keyViewSrc args.subnet.addr = keyViewSrc x := keyViewSrc_eq_iff.mpr hlen
    refine ⟨⟨args.subnet.addr, args.subnet.len, args.subnet.len_le, hlen, by rw [viewKey, hfam], hin⟩, ?_⟩
    rw [(viewVariantAction_viewValue hx hok hlen args.action).mpr ⟨⟨hproto, hdst⟩, rfl⟩]
    rfl

end Select

/-- kr_view_select_action after kr_rules_init and any calls of kr_view_insert_action, for a
request with a source address: an action it returns is that of a call whose rule applies (its
source subnet holds the address, its protocols and destination match), and no rule that
applies has a longer source prefix; it fails only with ENOENT, and exactly when no rule applies. -/
theorem krViewSelectAction_most_specific {db0 : Cdb} (h0 : ViewInitDb db0) (ops : List ViewInsertArgs)
    {req : ViewRequest} {x : InAddr} (hx : req.src = some x) :
    (∀ act, krViewSelectAction (viewInsertRun db0 ops) req = .ok act →
      ∃ args ∈ ops, ViewRuleApplies req x args ∧ args.action = act ∧
        ∀ args' ∈ ops, ViewRuleApplies req x args' → args'.subnet.len ≤ args.subnet.len) ∧
    (∀ err, krViewSelectAction (viewInsertRun db0 ops) req = .error err → err = krError Errno.enoent) ∧
    (krViewSelectAction (viewInsertRun db0 ops) req = .error (krError Errno.enoent) ↔
      ∀ args ∈ ops, ¬ ViewRuleApplies req x args) := by
  have hinv : ViewDbInv (viewInsertRun db0 ops) ops := by simpa using h0.inv.run ops
  generalize viewInsertRun db0 ops = db at hinv
  -- the search key, the list of rulesets, and the walk of the one ruleset "d"
  have hsel : krViewSelectAction db req =
      viewRulesetsLoop db req x (pack (prefixPairs (ofBytes x.bytes))) [rulesetDefault] := by
    rw [krViewSelectAction, hx]
    simp only
    rw [subnetEncode_eq_ok x le_rfl, subnetBits_full, hinv.rulesets]
    rfl
  obtain ⟨hok, herr⟩ := @viewRulesetsLoop_spec db req x hinv.sorted [rulesetDefault]
    fun rs hrs => by
      obtain rfl := List.mem_singleton.mp hrs
      exact ⟨hinv.keysWellFormed, hinv.above_viewSearchKey⟩
  rw [hsel]
  refine ⟨fun act h => ?_, fun err h => (herr err h).1, ⟨fun h args hargs happ => ?_, fun hnone => ?_⟩⟩
  · obtain ⟨pre, rs, post, hL, -, e, he, happ, hact, hgreatest⟩ := hok act h
    obtain rfl : rs = rulesetDefault := List.mem_singleton.mp (by rw [hL]; simp)
    obtain ⟨args, hargs, rfl, hrule⟩ := (hinv.entryApplies_iff hx he).mp happ
    have hok' := hrule.1
    refine ⟨args, hargs, hrule, ((viewVariantAction_viewValue hx hok' hrule.2.1 act).mp hact).2.symm,
      fun args' hargs' hrule' => ?_⟩
    -- a longer prefix that applies would have a greater key
    by_contra hlt
    have happ' := (hinv.entryApplies_iff hx (hinv.written args' hargs' hrule'.1)).mpr
      ⟨args', hargs', rfl, hrule'⟩
    have hle := hgreatest _ (hinv.written args' hargs' hrule'.1) happ'
    have hlt' := subnetBits_lt_of_inSubnet (hrule'.2.1 ▸ args'.subnet.len_le) (not_le.mp hlt)
      hrule.2.2.1 hrule'.2.2.1
    have hkeys : viewKey args < viewKey args' := by
      rw [viewKey, viewKey, keyViewSrc_eq_iff.mpr (hrule.2.1.trans hrule'.2.1.symm),
        append_cons_lt_append_cons_iff]
      exact (pack_lt_pack_iff (length_subnetBits_mod args.subnet.len_le)
        (length_subnetBits_mod args'.subnet.len_le)).mpr hlt'
    exact absurd hle (not_le.mpr hkeys)
  · obtain ⟨-, hall⟩ := herr _ h
    exact hall rulesetDefault List.mem_cons_self _ (hinv.written args hargs happ.1)
      ((hinv.entryApplies_iff hx (hinv.written args hargs happ.1)).mpr ⟨args, hargs, rfl, happ⟩)
  · -- nothing applies, so the walk selects nothing and the loop ends with ENOENT
    cases hres : viewRulesetsLoop db req x (pack (prefixPairs (ofBytes x.bytes))) [rulesetDefault] with
    | error err => exact congrArg Except.error (herr err hres).1
    | ok act =>
      obtain ⟨pre, rs, post, hL, -, e, he, happ, -⟩ := hok act hres
      obtain rfl : rs = rulesetDefault := List.mem_singleton.mp (by rw [hL]; simp)
      obtain ⟨args, hargs, -, hrule⟩ := (hinv.entryApplies_iff hx he).mp happ
      exact absurd hrule (hnone args hargs)

theorem krViewSelectAction_most_specific_half :
    let db0 : Cdb := [(keyRulesets, [100, 0]), ([100, 97], [])]
    let ops : List ViewInsertArgs := [⟨⟨testNet, 24, by decide⟩, none, 0, [97]⟩]
    let req : ViewRequest :=
      ⟨some testHalf, testNet, false, false, false, fun a ha => by cases ha; rfl⟩
    ViewInitDb db0 ∧ req.src = some testHalf ∧
    (∀ act, krViewSelectAction (viewInsertRun db0 ops) req = .ok act →
      ∃ args ∈ ops, ViewRuleApplies req testHalf args ∧ args.action = act ∧
        ∀ args' ∈ ops, ViewRuleApplies req testHalf args' → args'.subnet.len ≤ args.subnet.len) ∧
    (∀ err, krViewSelectAction (viewInsertRun db0 ops) req = .error err → err = krError Errno.enoent) ∧
    (krViewSelectAction (viewInsertRun db0 ops) req = .error (krError Errno.enoent) ↔
      ∀ args ∈ ops, ¬ ViewRuleApplies req testHalf args) :=
  have h0 : ViewInitDb [(keyRulesets, [100, 0]), ([100, 97], [])] :=
    ⟨by unfold Sorted; decide, by decide,
      ⟨_, List.mem_cons_of_mem _ List.mem_cons_self, List.prefix_refl _⟩, by decide⟩
  ⟨h0, rfl, krViewSelectAction_most_specific h0 _ rfl⟩

/-- A run that selects: the action of the rule for 192.0.2.0/24, for 192.0.2.128. -/
example :
    krViewSelectAction
      (viewInsertRun [(keyRulesets, [100, 0]), ([100, 97], [])] [⟨⟨testNet, 24, by decide⟩, none, 0, [97]⟩])
      ⟨some testHalf, testNet, false, false, false, fun a ha => by cases ha; rfl⟩ = .ok [97] := by
  decide

end KnotResolver
