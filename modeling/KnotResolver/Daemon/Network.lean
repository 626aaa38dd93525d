import Mathlib
import KnotResolver.Lib.SortedStore
import KnotResolver.Utils
import KnotResolver.Rules.Subnet

/-!
# The PROXYv2 allow-list

`network_proxy_allow` of `daemon/network.c` records the networks allowed to send PROXYv2
headers, per address family: a netmask of 0 sets the family's allow-all flag, any other one
stores the network in a trie keyed by the masked address, one entry per key that keeps the
widest netmask given for it. `proxy_allowed` of `daemon/proxyv2.c` then looks a peer up: it is
allowed by its family's flag, or when it lies in the network stored at the greatest key not
above its address (`trie_get_leq`), compared on the netmask's bits by `kr_bitcmp`.

The tries are taken by their map semantics (a store in key order, `trie_get_ins` inserting a
missing key, `trie_get_leq` finding the greatest key at most the one searched), and a call is
taken from the address and netmask `kr_straddr_subnet` parsed.

Every peer `proxy_allowed` accepts lies in a configured network (`proxyAllowed_sound`); the
converse fails for nested networks, where the predecessor key belongs to the inner network.
-/

namespace KnotResolver

open SortedStore BitString

/-- `struct net_proxy_data`. -/
structure NetProxyData where
  addr : List UInt8
  netmask : ℕ
  deriving DecidableEq

/-- The PROXYv2 fields of `struct network`. -/
structure ProxyNetwork where
  proxyAll4 : Bool
  proxyAll6 : Bool
  proxyAddrs4 : List (List UInt8 × NetProxyData)
  proxyAddrs6 : List (List UInt8 × NetProxyData)

/-- `network_init`: no flag set, both tries empty. -/
def proxyNetworkInit : ProxyNetwork := ⟨false, false, [], []⟩

/-- `AF_INET`: an address of four octets. -/
def InAddr.isV4 (a : InAddr) : Bool := a.bytes.length == 4

/-- The entry of `network_proxy_allow`: a new one (netmask 0) takes the address and the netmask,
an existing one keeps its address and a netmask wider than the one it has. -/
def netProxyDataUpdate (ia : List UInt8) (netmask : ℕ) (data : NetProxyData) : NetProxyData :=
  if data.netmask = 0 then { addr := ia, netmask := netmask }
  else if data.netmask > netmask then { data with netmask := netmask }
  else data

/-- `network_proxy_allow` on the address and netmask of its argument. -/
def networkProxyAllow (net : ProxyNetwork) (ia : InAddr) (netmask : ℕ) : ProxyNetwork :=
  if netmask = 0 then
    if ia.isV4 then { net with proxyAll4 := true } else { net with proxyAll6 := true }
  else
    let key := krBitmask ia.bytes netmask
    -- `trie_get_ins` leaves a new entry empty, and the code allocates it with netmask 0
    let upd (old : Option NetProxyData) := netProxyDataUpdate key netmask (old.getD ⟨key, 0⟩)
    if ia.isV4 then { net with proxyAddrs4 := upsert key upd net.proxyAddrs4 }
    else { net with proxyAddrs6 := upsert key upd net.proxyAddrs6 }

/-- The trie lookup of `proxy_allowed`: the network stored at the greatest key at most the
address (`trie_get_leq` answering 0 or 1), compared with the address on its netmask. -/
def proxyTrieAllowed (trie : List (List UInt8 × NetProxyData)) (addr : List UInt8) : Bool :=
  match getLeq trie addr with
  | some found => krBitcmp addr found.2.addr found.2.netmask = 0
  | none => false

/-- `proxy_allowed`. -/
def proxyAllowed (net : ProxyNetwork) (saddr : InAddr) : Bool :=
  if saddr.isV4 then net.proxyAll4 || proxyTrieAllowed net.proxyAddrs4 saddr.bytes
  else net.proxyAll6 || proxyTrieAllowed net.proxyAddrs6 saddr.bytes

/-- The allow-list after a sequence of `network_proxy_allow` calls from `network_init`. -/
def proxyAllowRun (calls : List (InAddr × ℕ)) : ProxyNetwork :=
  calls.foldl (fun net c => networkProxyAllow net c.1 c.2) proxyNetworkInit

/-! ## What the allow-list holds -/

/-- A call of the family and netmask given: `kr_straddr_subnet` bounds the netmask by the
address length. -/
def ProxyCall (calls : List (InAddr × ℕ)) (v4 : Bool) (netmask : ℕ) (c : InAddr × ℕ) : Prop :=
  c ∈ calls ∧ c.1.isV4 = v4 ∧ c.2 = netmask ∧ c.2 ≤ 8 * c.1.bytes.length

/-- Every stored network: its address is its key, the masked address of a call with its netmask. -/
def ProxyEntriesOk (calls : List (InAddr × ℕ)) (v4 : Bool)
    (trie : List (List UInt8 × NetProxyData)) : Prop :=
  ∀ e ∈ trie, e.2.addr = e.1 ∧
    ∃ c, ProxyCall calls v4 e.2.netmask c ∧ e.1 = krBitmask c.1.bytes c.2

/-- The invariant of the allow-list: each flag and each entry comes from a call. -/
structure ProxyInv (calls : List (InAddr × ℕ)) (net : ProxyNetwork) : Prop where
  all4 : net.proxyAll4 = true → ∃ c, ProxyCall calls true 0 c
  all6 : net.proxyAll6 = true → ∃ c, ProxyCall calls false 0 c
  addrs4 : ProxyEntriesOk calls true net.proxyAddrs4
  addrs6 : ProxyEntriesOk calls false net.proxyAddrs6

section Inv

variable {calls : List (InAddr × ℕ)}

theorem ProxyCall.mono {v4 : Bool} {m : ℕ} {c : InAddr × ℕ} (h : ProxyCall calls v4 m c)
    (c' : InAddr × ℕ) : ProxyCall (calls ++ [c']) v4 m c :=
  ⟨List.mem_append_left _ h.1, h.2⟩

theorem ProxyEntriesOk.mono {v4 : Bool} {trie : List (List UInt8 × NetProxyData)}
    (h : ProxyEntriesOk calls v4 trie) (c' : InAddr × ℕ) : ProxyEntriesOk (calls ++ [c']) v4 trie :=
  fun e he => ⟨(h e he).1, (h e he).2.imp fun _ hc => ⟨hc.1.mono c', hc.2⟩⟩

/-- An upsert by the call `(ia, netmask)` keeps the entries of its family's trie right. -/
theorem ProxyEntriesOk.upsert {ia : InAddr} {netmask : ℕ} (hm : netmask ≤ 8 * ia.bytes.length)
    {trie : List (List UInt8 × NetProxyData)} (h : ProxyEntriesOk calls ia.isV4 trie) :
    ProxyEntriesOk (calls ++ [(ia, netmask)]) ia.isV4
      (SortedStore.upsert (krBitmask ia.bytes netmask)
        (fun old => netProxyDataUpdate (krBitmask ia.bytes netmask) netmask
          (old.getD ⟨krBitmask ia.bytes netmask, 0⟩)) trie) := by
  have hnew : ProxyCall (calls ++ [(ia, netmask)]) ia.isV4 netmask (ia, netmask) :=
    ⟨List.mem_append_right _ (List.mem_singleton_self _), rfl, rfl, hm⟩
  intro e he
  rcases mem_upsert he with he | ⟨hk, hv | ⟨v, hv, hfv⟩⟩
  · exact (h.mono _) e he
  -- a new entry takes the call's masked address and netmask
  · rw [hv, Option.getD_none, netProxyDataUpdate, if_pos rfl, hk]
    exact ⟨rfl, _, hnew, rfl⟩
  -- an existing entry keeps its address and takes this call's netmask, or stays as it is
  · obtain ⟨haddr, c, hc, hkey⟩ := (h.mono (ia, netmask)) _ hv
    rw [hfv, Option.getD_some, hk]
    unfold netProxyDataUpdate
    split_ifs
    · exact ⟨rfl, _, hnew, rfl⟩
    · exact ⟨haddr, _, hnew, rfl⟩
    · exact ⟨haddr, c, hc, hkey⟩

theorem proxyInv_init : ProxyInv [] proxyNetworkInit :=
  ⟨(fun h => nomatch h), (fun h => nomatch h), (fun _ h => nomatch h), (fun _ h => nomatch h)⟩

/-- One call keeps the invariant. -/
theorem ProxyInv.networkProxyAllow {net : ProxyNetwork} (h : ProxyInv calls net) {ia : InAddr}
    {netmask : ℕ} (hm : netmask ≤ 8 * ia.bytes.length) :
    ProxyInv (calls ++ [(ia, netmask)]) (KnotResolver.networkProxyAllow net ia netmask) := by
  have hcall : ProxyCall (calls ++ [(ia, netmask)]) ia.isV4 netmask (ia, netmask) :=
    ⟨List.mem_append_right _ (List.mem_singleton_self _), rfl, rfl, hm⟩
  have hold : ProxyInv (calls ++ [(ia, netmask)]) net :=
    ⟨fun h4 => (h.all4 h4).imp fun _ hc => hc.mono _,
      fun h6 => (h.all6 h6).imp fun _ hc => hc.mono _, h.addrs4.mono _, h.addrs6.mono _⟩
  unfold KnotResolver.networkProxyAllow
  by_cases h0 : netmask = 0
  -- netmask 0 sets the flag of the call's family
  · subst h0
    by_cases h4 : ia.isV4
    · rw [if_pos rfl, if_pos h4]
      exact ⟨fun _ => ⟨_, h4 ▸ hcall⟩, hold.all6, hold.addrs4, hold.addrs6⟩
    · rw [if_pos rfl, if_neg h4]
      exact ⟨hold.all4, fun _ => ⟨_, (Bool.eq_false_iff.mpr h4) ▸ hcall⟩, hold.addrs4, hold.addrs6⟩
  · rw [if_neg h0]
    by_cases h4 : ia.isV4
    · rw [if_pos h4]
      exact ⟨hold.all4, hold.all6, h4 ▸ (h4.symm ▸ h.addrs4).upsert hm, hold.addrs6⟩
    · rw [if_neg h4]
      have h6 : ia.isV4 = false := Bool.eq_false_iff.mpr h4
      exact ⟨hold.all4, hold.all6, hold.addrs4, h6 ▸ (h6.symm ▸ h.addrs6).upsert hm⟩

/-- Every run of calls keeps the invariant. -/
theorem proxyInv_foldl (hcalls : ∀ c ∈ calls, c.2 ≤ 8 * c.1.bytes.length) :
    ∀ (pre : List (InAddr × ℕ)) (net : ProxyNetwork), ProxyInv pre net →
      ProxyInv (pre ++ calls)
        (calls.foldl (fun net c => KnotResolver.networkProxyAllow net c.1 c.2) net) := by
  induction calls with
  | nil => intro pre net h; simpa using h
  | cons c calls ih =>
    intro pre net h
    have hstep := h.networkProxyAllow (hcalls c List.mem_cons_self)
    have hrest := ih (fun c' hc' => hcalls c' (List.mem_cons_of_mem _ hc')) _ _ hstep
    simpa using hrest

theorem proxyInv_run (hcalls : ∀ c ∈ calls, c.2 ≤ 8 * c.1.bytes.length) :
    ProxyInv calls (proxyAllowRun calls) := by
  simpa [proxyAllowRun] using proxyInv_foldl hcalls [] proxyNetworkInit proxyInv_init

end Inv

/-! ## What `proxy_allowed` accepts -/

theorem length_eq_of_isV4_eq {a b : InAddr} (h : a.isV4 = b.isV4) :
    a.bytes.length = b.bytes.length := by
  rcases a.length_eq with ha | ha <;> rcases b.length_eq with hb | hb <;>
    simp_all [InAddr.isV4]

/-- A peer the trie accepts lies in a configured network of its family. -/
theorem proxyTrieAllowed_sound {calls : List (InAddr × ℕ)} {trie : List (List UInt8 × NetProxyData)}
    {a : InAddr} (htrie : ProxyEntriesOk calls a.isV4 trie)
    (h : proxyTrieAllowed trie a.bytes = true) :
    ∃ c ∈ calls, c.1.isV4 = a.isV4 ∧ InSubnet a c.1 c.2 := by
  unfold proxyTrieAllowed at h
  split at h
  · rename_i found hfound
    obtain ⟨hmem, -⟩ := mem_of_getLeq hfound
    obtain ⟨haddr, c, ⟨hc, hv4, hmask, hbound⟩, hkey⟩ := htrie found hmem
    have hlen : c.1.bytes.length = a.bytes.length := length_eq_of_isV4_eq hv4
    have hlen' : found.2.addr.length = a.bytes.length := by rw [haddr, hkey, length_krBitmask, hlen]
    rw [← hmask, decide_eq_true_eq, krBitcmp_eq_zero_iff (by omega) (by omega), haddr, hkey,
      take_ofBytes_krBitmask hbound] at h
    exact ⟨c, hc, hv4, h⟩
  · exact absurd h (by decide)

/-- Every peer `proxy_allowed` accepts, after any run of `network_proxy_allow` calls, lies in a
network one of the calls configured for its family (netmask 0 standing for all addresses). -/
theorem proxyAllowed_sound {calls : List (InAddr × ℕ)}
    (hcalls : ∀ c ∈ calls, c.2 ≤ 8 * c.1.bytes.length) {a : InAddr}
    (h : proxyAllowed (proxyAllowRun calls) a = true) :
    ∃ c ∈ calls, c.1.isV4 = a.isV4 ∧ InSubnet a c.1 c.2 := by
  have hinv := proxyInv_run hcalls
  have hall : ∀ {v4 : Bool}, (∃ c, ProxyCall calls v4 0 c) → v4 = a.isV4 →
      ∃ c ∈ calls, c.1.isV4 = a.isV4 ∧ InSubnet a c.1 c.2 := by
    rintro v4 ⟨c, hc, hv4, h0, -⟩ rfl
    exact ⟨c, hc, hv4, by simp [InSubnet, h0]⟩
  unfold proxyAllowed at h
  by_cases h4 : a.isV4
  · rw [if_pos h4, Bool.or_eq_true] at h
    rcases h with h | h
    · exact hall (hinv.all4 h) h4.symm
    · exact proxyTrieAllowed_sound (h4 ▸ hinv.addrs4) h
  · have h6 : a.isV4 = false := Bool.eq_false_iff.mpr h4
    rw [if_neg h4, Bool.or_eq_true] at h
    rcases h with h | h
    · exact hall (hinv.all6 h) h6.symm
    · exact proxyTrieAllowed_sound (h6 ▸ hinv.addrs6) h

/-! ## Nested networks -/

/-- `10.0.0.0`, `10.1.0.0` and `10.2.0.0`. -/
def addr10 : InAddr := ⟨[10, 0, 0, 0], .inl rfl⟩
def addr10x1 : InAddr := ⟨[10, 1, 0, 0], .inl rfl⟩
def addr10x2 : InAddr := ⟨[10, 2, 0, 0], .inl rfl⟩

/-- With `10.0.0.0/8` and `10.1.0.0/16` allowed, the peer `10.2.0.0` lies in the first network
but is refused: the greatest key not above it is `10.1.0.0`, whose network does not hold it. -/
theorem proxyAllowed_nested_refused :
    InSubnet addr10x2 addr10 8 ∧
      proxyAllowed (proxyAllowRun [(addr10, 8), (addr10x1, 16)]) addr10x2 = false := by
  refine ⟨?_, ?_⟩
  · unfold InSubnet
    decide
  · decide

end KnotResolver
