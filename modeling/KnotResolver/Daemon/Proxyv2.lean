import Mathlib

/-!
# PROXYv2 headers

`daemon/proxyv2.c`: `proxy_process_header`, which reads the PROXY protocol version 2 header
that a proxy puts before the client's data. The header is sixteen octets (signature,
version and command, family and protocol, and the length of what follows), then an address
block whose size the family fixes, then TLVs up to the end that the length field gives.

The buffer is a list of octets; a read past its end gives zero. `nread` is separate, as in the
source, and only compared with the header length. The TLV walk of the source moves a pointer
and checks it against the header end with `has_tlv`; it is related here to a reading of the
TLV area as a list (`parseTlvs`), with the TLV length as a parameter: `proxy2_tlv_length`
shifts `length_hi` by sixteen instead of eight, so the source reads one-octet lengths.
-/

namespace KnotResolver.Proxyv2

/-- `PROXY2_SIGNATURE`. -/
def proxy2Signature : List UInt8 :=
  [0x0D, 0x0A, 0x0D, 0x0A, 0x00, 0x0D, 0x0A, 0x51, 0x55, 0x49, 0x54, 0x0A]

/-- `PROXY2_MIN_SIZE`, the size of `struct proxy2_header`. -/
def proxy2MinSize : ℕ := 16

/-- `TLV_TYPE_SSL`. -/
def tlvTypeSsl : UInt8 := 0x20

/-- libknot's `KNOT_EMALF`, which `kr_error` passes on unchanged. -/
def knotEMalf : ℤ := -995

/-! ## Reading the buffer -/

/-- The octet at offset `i`. -/
def byteAt (buf : List UInt8) (i : ℕ) : UInt8 := buf.getD i 0

/-- A 16-bit field in network order, as `ntohs` reads it. -/
def be16 (buf : List UInt8) (i : ℕ) : ℕ := (byteAt buf i).toNat * 256 + (byteAt buf (i + 1)).toNat

/-- The octets from offset `pos` up to offset `stop`. -/
def headerBytes (buf : List UInt8) (pos stop : ℕ) : List UInt8 :=
  (List.range' pos (stop - pos)).map (byteAt buf)

@[simp] theorem length_headerBytes (buf : List UInt8) (pos stop : ℕ) :
    (headerBytes buf pos stop).length = stop - pos := by
  simp [headerBytes]

theorem headerBytes_eq_cons {buf : List UInt8} {pos stop : ℕ} (h : pos < stop) :
    headerBytes buf pos stop = byteAt buf pos :: headerBytes buf (pos + 1) stop := by
  obtain ⟨n, hn⟩ : ∃ n, stop - pos = n + 1 := ⟨stop - pos - 1, by omega⟩
  have hn' : stop - (pos + 1) = n := by omega
  simp only [headerBytes, hn, hn', List.range'_succ, List.map_cons]

theorem drop_headerBytes (buf : List UInt8) (pos stop k : ℕ) :
    (headerBytes buf pos stop).drop k = headerBytes buf (pos + k) stop := by
  simp only [headerBytes, ← List.map_drop, List.drop_range', Nat.mul_one, Nat.sub_sub]

/-! ## The TLV area as a list -/

/-- A PROXYv2 TLV: its type and its value. -/
structure Tlv where
  type : UInt8
  value : List UInt8
  deriving DecidableEq

/-- The TLVs that fill `area` one after the other, each value as long as `len` reads from the
two length octets, up to the first TLV that does not fit. -/
def parseTlvs (len : UInt8 → UInt8 → ℕ) (area : List UInt8) : List Tlv :=
  match area with
  | type :: hi :: lo :: rest =>
    if len hi lo ≤ rest.length then
      ⟨type, rest.take (len hi lo)⟩ :: parseTlvs len (rest.drop (len hi lo))
    else []
  | _ => []
termination_by area.length
decreasing_by simp only [List.length_drop, List.length_cons]; omega

/-- The TLV length of the PROXYv2 format: `length_hi * 256 + length_lo`. -/
def tlvLength16 (lengthHi lengthLo : UInt8) : ℕ := lengthHi.toNat * 256 + lengthLo.toNat

/-! ## The source -/

/-- `proxy2_tlv_length`: `length_hi` shifted by sixteen in an `int`, then cut to the `uint16_t`
the function returns. -/
def proxy2TlvLength (lengthHi lengthLo : UInt8) : ℕ :=
  (lengthHi.toNat <<< 16 ||| lengthLo.toNat) % 2 ^ 16

/-- The shift leaves only `length_lo`. -/
theorem proxy2TlvLength_eq (lengthHi lengthLo : UInt8) :
    proxy2TlvLength lengthHi lengthLo = lengthLo.toNat := by
  have hlo : lengthLo.toNat < 2 ^ 16 := by
    have := lengthLo.toNat_lt
    omega
  rw [proxy2TlvLength, ← Nat.shiftLeft_add_eq_or_of_lt hlo, Nat.shiftLeft_eq,
    Nat.mul_add_mod_self_right, Nat.mod_eq_of_lt hlo]

/-- `has_tlv` for a TLV at offset `pos` of a header `hdrLen` octets long: the TLV header and
then its value end within the header. -/
def hasTlv (buf : List UInt8) (hdrLen pos : ℕ) : Prop :=
  pos + 3 ≤ hdrLen ∧ pos + 3 + proxy2TlvLength (byteAt buf (pos + 1)) (byteAt buf (pos + 2)) ≤ hdrLen

instance (buf : List UInt8) (hdrLen pos : ℕ) : Decidable (hasTlv buf hdrLen pos) :=
  inferInstanceAs (Decidable (_ ∧ _))

/-- The TLV loop of `proxy_process_header`, from the TLV at `pos`, with `next_tlv` as the step
and `hasTls` as `out->has_tls` so far. -/
def tlvLoop (buf : List UInt8) (hdrLen pos : ℕ) (hasTls : Bool) : Bool :=
  if h : hasTlv buf hdrLen pos then
    tlvLoop buf hdrLen (pos + 3 + proxy2TlvLength (byteAt buf (pos + 1)) (byteAt buf (pos + 2)))
      (hasTls || byteAt buf pos == tlvTypeSsl)
  else hasTls
termination_by hdrLen - pos
decreasing_by have := h.2; omega

theorem headerBytes_eq_cons3 {buf : List UInt8} {pos stop : ℕ} (h : pos + 3 ≤ stop) :
    headerBytes buf pos stop =
      byteAt buf pos :: byteAt buf (pos + 1) :: byteAt buf (pos + 2) :: headerBytes buf (pos + 3) stop := by
  rw [headerBytes_eq_cons (by omega), headerBytes_eq_cons (by omega), headerBytes_eq_cons (by omega)]

theorem parseTlvs_of_length_lt {len : UInt8 → UInt8 → ℕ} {area : List UInt8} (h : area.length < 3) :
    parseTlvs len area = [] := by
  match area, h with
  | [], _ | [_], _ | [_, _], _ => simp [parseTlvs]

section Area

variable {len : UInt8 → UInt8 → ℕ} {buf : List UInt8} {pos stop : ℕ}

/-- A TLV that fits before `stop` is the head of the reading, which goes on after its value. -/
theorem parseTlvs_headerBytes_of_fits
    (h : pos + 3 + len (byteAt buf (pos + 1)) (byteAt buf (pos + 2)) ≤ stop) :
    parseTlvs len (headerBytes buf pos stop) =
      ⟨byteAt buf pos, (headerBytes buf (pos + 3) stop).take (len (byteAt buf (pos + 1))
        (byteAt buf (pos + 2)))⟩ ::
      parseTlvs len (headerBytes buf (pos + 3 + len (byteAt buf (pos + 1)) (byteAt buf (pos + 2)))
        stop) := by
  have hfit : len (byteAt buf (pos + 1)) (byteAt buf (pos + 2)) ≤
      (headerBytes buf (pos + 3) stop).length := by
    rw [length_headerBytes]
    omega
  rw [headerBytes_eq_cons3 (by omega), parseTlvs, if_pos hfit, drop_headerBytes]

/-- The reading stops at a TLV whose header or value would run past `stop`. -/
theorem parseTlvs_headerBytes_of_not_fits
    (h : ¬ pos + 3 + len (byteAt buf (pos + 1)) (byteAt buf (pos + 2)) ≤ stop) :
    parseTlvs len (headerBytes buf pos stop) = [] := by
  by_cases hhdr : pos + 3 ≤ stop
  · have hlong : ¬ len (byteAt buf (pos + 1)) (byteAt buf (pos + 2)) ≤
        (headerBytes buf (pos + 3) stop).length := by
      rw [length_headerBytes]
      omega
    rw [headerBytes_eq_cons3 hhdr, parseTlvs, if_neg hlong]
  · exact parseTlvs_of_length_lt (by rw [length_headerBytes]; omega)

end Area

/-- The walk of the source is the one-octet-length reading of the TLV area: `has_tls` ends up set
exactly when it was set before or one of those TLVs has type `TLV_TYPE_SSL`. -/
theorem tlvLoop_eq (buf : List UInt8) (hdrLen pos : ℕ) (hasTls : Bool) :
    tlvLoop buf hdrLen pos hasTls = (hasTls ||
      (parseTlvs proxy2TlvLength (headerBytes buf pos hdrLen)).any (·.type == tlvTypeSsl)) := by
  induction pos, hasTls using tlvLoop.induct buf hdrLen with
  | case1 pos hasTls h ih =>
    rw [tlvLoop, dif_pos h, ih, parseTlvs_headerBytes_of_fits h.2, List.any_cons, Bool.or_assoc]
  | case2 pos hasTls h =>
    -- `has_tlv` fails exactly where the reading stops
    rw [tlvLoop, dif_neg h, parseTlvs_headerBytes_of_not_fits (fun hfit => h ⟨by omega, hfit⟩),
      List.any_nil, Bool.or_false]

/-- `enum proxy2_command`. -/
inductive Proxy2Command
  | local
  | proxy
  deriving DecidableEq

/-- The address families the result names: `AF_UNSPEC`, `AF_INET` and `AF_INET6`. -/
inductive AddrFamily
  | unspec
  | inet
  | inet6
  deriving DecidableEq

/-- `SOCK_STREAM` and `SOCK_DGRAM`. -/
inductive SockType
  | stream
  | dgram
  deriving DecidableEq

/-- `union kr_sockaddr` as the parser fills it: left zero, or an address and a port, both in
network order as the address block holds them. -/
inductive SockAddr
  | none
  | ip4 (addr port : List UInt8)
  | ip6 (addr port : List UInt8)
  deriving DecidableEq

/-- `struct proxy_result`; what `(struct proxy_result){ .command = .. }` leaves zero is the
default. -/
structure ProxyResult where
  command : Proxy2Command
  family : AddrFamily := .unspec
  protocol : Option SockType := none
  srcAddr : SockAddr := .none
  dstAddr : SockAddr := .none
  hasTls : Bool := false
  deriving DecidableEq

/-- `count` octets of the buffer from offset `pos`. -/
def slice (buf : List UInt8) (pos count : ℕ) : List UInt8 := headerBytes buf pos (pos + count)

/-- The family switch: UNIX falls back to `AF_UNSPEC`, an unknown value is malformed. -/
def proxy2Family (family : UInt8) : Option AddrFamily :=
  if family = 0 ∨ family = 3 then some .unspec
  else if family = 1 then some .inet
  else if family = 2 then some .inet6
  else none

/-- The protocol switch. -/
def proxy2Protocol (protocol : UInt8) : Option SockType :=
  if protocol = 2 then some .dgram
  else if protocol = 1 then some .stream
  else none

/-- The address switch: the size of the address block, and the source and destination of
`union proxy2_address` (ports after the two addresses). -/
def proxy2Address (buf : List UInt8) : AddrFamily → ℕ × SockAddr × SockAddr
  | .inet => (12, .ip4 (slice buf 16 4) (slice buf 24 2), .ip4 (slice buf 20 4) (slice buf 26 2))
  | .inet6 =>
    (36, .ip6 (slice buf 16 16) (slice buf 48 2), .ip6 (slice buf 32 16) (slice buf 50 2))
  | .unspec => (0, .none, .none)

/-- `proxy_process_header`: the header length and the result, or `KNOT_EMALF`. -/
def proxyProcessHeader (buf : List UInt8) (nread : ℤ) : Except ℤ (ℕ × ProxyResult) :=
  let contentLength := be16 buf 14
  let hdrLen := proxy2MinSize + contentLength
  -- PROXYv2 requires the header to be received all at once
  if nread < hdrLen then .error knotEMalf
  else if (byteAt buf 12 &&& 0xF0) >>> 4 ≠ 2 then .error knotEMalf
  else if byteAt buf 12 &&& 0x0F = 0 then .ok (hdrLen, { command := .local })
  else if byteAt buf 12 &&& 0x0F ≠ 1 then .error knotEMalf
  else
    match proxy2Family ((byteAt buf 13 &&& 0xF0) >>> 4), proxy2Protocol (byteAt buf 13 &&& 0x0F) with
    | some family, some protocol =>
      let (addrLength, srcAddr, dstAddr) := proxy2Address buf family
      if contentLength < addrLength then .error knotEMalf
      else
        let out : ProxyResult :=
          { command := .proxy, family := family, protocol := some protocol, srcAddr := srcAddr,
            dstAddr := dstAddr, hasTls := tlvLoop buf hdrLen (proxy2MinSize + addrLength) false }
        .ok (hdrLen, out)
    | _, _ => .error knotEMalf

/-! ## What the source returns -/

/-- An accepted header: the length returned is the one the length field gives, and it was
all received. -/
theorem proxyProcessHeader_ok {buf : List UInt8} {nread : ℤ} {n : ℕ} {out : ProxyResult}
    (h : proxyProcessHeader buf nread = .ok (n, out)) :
    n = proxy2MinSize + be16 buf 14 ∧ (n : ℤ) ≤ nread := by
  unfold proxyProcessHeader at h
  dsimp only at h
  split_ifs at h with hlen
  · obtain ⟨rfl, -⟩ := Prod.mk.inj (Except.ok.inj h)
    exact ⟨rfl, by omega⟩
  · split at h
    · split_ifs at h
      obtain ⟨rfl, -⟩ := Prod.mk.inj (Except.ok.inj h)
      exact ⟨rfl, by omega⟩
    · cases h

/-- Every refusal is `KNOT_EMALF`. -/
theorem proxyProcessHeader_error {buf : List UInt8} {nread : ℤ} {e : ℤ}
    (h : proxyProcessHeader buf nread = .error e) : e = knotEMalf := by
  unfold proxyProcessHeader at h
  dsimp only at h
  split_ifs at h
  · exact (Except.error.inj h).symm
  · exact (Except.error.inj h).symm
  · exact (Except.error.inj h).symm
  · -- the family, protocol and address checks
    split at h
    · split_ifs at h
      exact (Except.error.inj h).symm
    · exact (Except.error.inj h).symm

/-- A LOCAL header gives nothing but the command. -/
theorem proxyProcessHeader_local {buf : List UInt8} {nread : ℤ} {n : ℕ} {out : ProxyResult}
    (h : proxyProcessHeader buf nread = .ok (n, out)) (hcmd : out.command = .local) :
    out = { command := .local } := by
  unfold proxyProcessHeader at h
  dsimp only at h
  split_ifs at h
  · exact (Prod.mk.inj (Except.ok.inj h)).2.symm
  · split at h
    · split_ifs at h
      rw [← (Prod.mk.inj (Except.ok.inj h)).2] at hcmd
      cases hcmd
    · cases h

/-- A PROXY header: its family and protocol are ones the source knows, the address block fits
in the length, the result has the addresses and ports of the block, and `has_tls` is read off
the TLVs after the block, with one-octet lengths, up to the header end. -/
theorem proxyProcessHeader_proxy {buf : List UInt8} {nread : ℤ} {n : ℕ} {out : ProxyResult}
    (h : proxyProcessHeader buf nread = .ok (n, out)) (hcmd : out.command = .proxy) :
    ∃ family protocol, proxy2Family ((byteAt buf 13 &&& 0xF0) >>> 4) = some family ∧
      proxy2Protocol (byteAt buf 13 &&& 0x0F) = some protocol ∧
      (proxy2Address buf family).1 ≤ be16 buf 14 ∧
      out =
        { command := .proxy, family := family, protocol := some protocol,
          srcAddr := (proxy2Address buf family).2.1, dstAddr := (proxy2Address buf family).2.2,
          hasTls := (parseTlvs proxy2TlvLength
            (headerBytes buf (proxy2MinSize + (proxy2Address buf family).1) n)).any
              (·.type == tlvTypeSsl) } := by
  have hn := (proxyProcessHeader_ok h).1
  unfold proxyProcessHeader at h
  dsimp only at h
  split_ifs at h
  · rw [← (Prod.mk.inj (Except.ok.inj h)).2] at hcmd
    cases hcmd
  · split at h
    next family protocol hfamily hprotocol =>
      rcases haddr : proxy2Address buf family with ⟨addrLength, srcAddr, dstAddr⟩
      rw [haddr] at h
      dsimp only at h
      split_ifs at h with hfit
      refine ⟨family, protocol, hfamily, hprotocol, by rw [haddr]; omega, ?_⟩
      rw [← (Prod.mk.inj (Except.ok.inj h)).2, haddr, tlvLoop_eq, Bool.false_or, hn]
    · cases h

/-- A complete PROXY header of a known family and protocol whose address block fits is
accepted. -/
theorem proxyProcessHeader_of_proxy {buf : List UInt8} {nread : ℤ} {family : AddrFamily}
    {protocol : SockType} (hlen : ((proxy2MinSize + be16 buf 14 : ℕ) : ℤ) ≤ nread)
    (hversion : (byteAt buf 12 &&& 0xF0) >>> 4 = 2) (hcommand : byteAt buf 12 &&& 0x0F = 1)
    (hfamily : proxy2Family ((byteAt buf 13 &&& 0xF0) >>> 4) = some family)
    (hprotocol : proxy2Protocol (byteAt buf 13 &&& 0x0F) = some protocol)
    (hfit : (proxy2Address buf family).1 ≤ be16 buf 14) :
    proxyProcessHeader buf nread = .ok (proxy2MinSize + be16 buf 14,
      { command := .proxy, family := family, protocol := some protocol,
        srcAddr := (proxy2Address buf family).2.1, dstAddr := (proxy2Address buf family).2.2,
        hasTls := tlvLoop buf (proxy2MinSize + be16 buf 14)
          (proxy2MinSize + (proxy2Address buf family).1) false }) := by
  have hcmd0 : byteAt buf 12 &&& 0x0F ≠ 0 := by rw [hcommand]; decide
  unfold proxyProcessHeader
  dsimp only
  rw [if_neg (by omega), if_neg (not_not.mpr hversion), if_neg hcmd0, if_neg (not_not.mpr hcommand),
    hfamily, hprotocol]
  dsimp only
  rw [if_neg (by omega)]

/-! ## TLVs of 256 octets or more -/

/-- A PROXY header over TCP and IPv4, from 192.0.2.1 port 12345 to 192.0.2.2 port 53, whose one
TLV (type 1, `length_hi` 1, `length_lo` 0) fills the 256 octets up to the header end, with a
value that starts like an SSL TLV of length zero. -/
def longTlvHeader : List UInt8 :=
  proxy2Signature ++ [0x21, 0x11, 0x01, 0x0F] ++
    [192, 0, 2, 1, 192, 0, 2, 2, 0x30, 0x39, 0x00, 0x35] ++
    [0x01, 0x01, 0x00] ++ [0x20, 0x00, 0x00] ++ List.replicate 253 0

theorem proxyProcessHeader_long_tlv_has_tls :
    (∃ out, proxyProcessHeader longTlvHeader 287 = .ok (287, out) ∧ out.hasTls = true) ∧
      (parseTlvs tlvLength16 (headerBytes longTlvHeader 28 287)).any
        (·.type == tlvTypeSsl) = false := by
  have hversion : (byteAt longTlvHeader 12 &&& 0xF0) >>> 4 = 2 := rfl
  have hcommand : byteAt longTlvHeader 12 &&& 0x0F = 1 := rfl
  have hfamily : proxy2Family ((byteAt longTlvHeader 13 &&& 0xF0) >>> 4) = some .inet := rfl
  have hprotocol : proxy2Protocol (byteAt longTlvHeader 13 &&& 0x0F) = some .stream := rfl
  constructor
  · -- the source reads a TLV of length 0, then the SSL TLV inside its value
    refine ⟨_, proxyProcessHeader_of_proxy (by decide) hversion hcommand hfamily hprotocol
      (by decide), ?_⟩
    rw [tlvLoop_eq, Bool.false_or, parseTlvs_headerBytes_of_fits (by decide), List.any_cons,
      parseTlvs_headerBytes_of_fits (by decide), List.any_cons]
    decide
  · -- the format reads one TLV of 256 octets, of type 1, and nothing after it
    rw [parseTlvs_headerBytes_of_fits (by decide), List.any_cons,
      parseTlvs_of_length_lt (by decide)]
    decide

end KnotResolver.Proxyv2
