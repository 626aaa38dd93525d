import KnotResolver.Daemon.Proxyv2
import KnotResolver.Layer.Iterate

/-!
# DNS over TCP: the stream layer and its wire buffer

`daemon/worker.c`: `pl_dns_stream_wrap`, which puts the two-octet length in front of an
outgoing message, and `pl_dns_stream_unwrap` with `stream_produce_packet` and
`stream_discard_packet`, which cut the messages out of the session's wire buffer;
`daemon/session2.c`: the wire buffer operations they use and its size for a TCP53 session;
`daemon/io.c`: `tcp_recv`, which appends what a read brings to the wire buffer and runs the
layers on it.

The layers below the stream layer in the TCP53 group (TCP, PROXYv2, defer) are taken to hand
the wire buffer through unchanged, and `worker_submit` is a parameter. The packets handed to
it are recorded in the session, in order: a run is judged by them.

The main results: one call of `pl_dns_stream_unwrap` hands over the whole messages at the
head of the buffer, but at most `len / 17 + 1` of them for `len` octets in the buffer
(`plDnsStreamUnwrap_frames`); over a run of reads of messages of at least 15 octets, every
message is handed over once, in order, as soon as its last octet is read
(`Between.after_tcpRecvRun`).
-/

namespace KnotResolver

open Proxyv2 (knotEMalf)

/-! ## Wire format -/

/-- `KNOT_WIRE_QUESTION_MIN_SIZE` -/
def knotWireQuestionMinSize : ℕ := 5

/-- `KNOT_WIRE_MAX_PKTSIZE` -/
def knotWireMaxPktsize : ℕ := 65535

/-- `knot_wire_read_u16`: the first two octets, most significant first. -/
def knotWireReadU16 (wire : List UInt8) : ℕ :=
  (wire.getD 0 0).toNat * 256 + (wire.getD 1 0).toNat

/-- `knot_wire_write_u16` of a value cut to `uint16_t`. -/
def knotWireWriteU16 (v : ℕ) : List UInt8 := [(v / 256).toUInt8, v.toUInt8]

/-! ## The wire buffer -/

/-- `struct wire_buf`: the valid data runs from `start` to `end = start + data.length`, within
`size`. The octets outside the valid data are never read and are left out. -/
structure WireBuf where
  size : ℕ
  start : ℕ
  data : List UInt8
  fits : start + data.length ≤ size

def wireBufDataLength (wb : WireBuf) : ℕ := wb.data.length

def wireBufFreeSpaceLength (wb : WireBuf) : ℕ := wb.size - (wb.start + wb.data.length)

/-- `wire_buf_consume`, once the read has written `bytes` into the free space. -/
def wireBufConsume (wb : WireBuf) (bytes : List UInt8) : ℤ × WireBuf :=
  if h : wb.start + wb.data.length + bytes.length ≤ wb.size then
    (krOk, ⟨wb.size, wb.start, wb.data ++ bytes, by simp only [List.length_append]; omega⟩)
  else (krError Errno.einval, wb)

def wireBufTrim (wb : WireBuf) (length : ℕ) : ℤ × WireBuf :=
  if h : length ≤ wb.data.length then
    (krOk, ⟨wb.size, wb.start + length, wb.data.drop length,
      by have := wb.fits; simp only [List.length_drop]; omega⟩)
  else (krError Errno.einval, wb)

/-- `wire_buf_movestart`; its assertion that the buffer is allocated is left out. -/
def wireBufMovestart (wb : WireBuf) : WireBuf :=
  ⟨wb.size, 0, wb.data, by have := wb.fits; omega⟩

def wireBufReset (wb : WireBuf) : WireBuf := ⟨wb.size, 0, [], by simp⟩

section WireBufLemmas

variable (wb : WireBuf)

@[simp] theorem size_wireBufMovestart : (wireBufMovestart wb).size = wb.size := rfl
@[simp] theorem start_wireBufMovestart : (wireBufMovestart wb).start = 0 := rfl
@[simp] theorem data_wireBufMovestart : (wireBufMovestart wb).data = wb.data := rfl
@[simp] theorem size_wireBufReset : (wireBufReset wb).size = wb.size := rfl
@[simp] theorem start_wireBufReset : (wireBufReset wb).start = 0 := rfl
@[simp] theorem data_wireBufReset : (wireBufReset wb).data = [] := rfl

theorem wireBufTrim_of_le {n : ℕ} (h : n ≤ wb.data.length) :
    (wireBufTrim wb n).1 = krOk ∧ (wireBufTrim wb n).2.size = wb.size ∧
      (wireBufTrim wb n).2.data = wb.data.drop n := by
  simp [wireBufTrim, h]

theorem wireBufConsume_of_le {bytes : List UInt8} (h : bytes.length ≤ wireBufFreeSpaceLength wb) :
    (wireBufConsume wb bytes).1 = krOk ∧ (wireBufConsume wb bytes).2.size = wb.size ∧
      (wireBufConsume wb bytes).2.start = wb.start ∧
      (wireBufConsume wb bytes).2.data = wb.data ++ bytes := by
  have hfits := wb.fits
  unfold wireBufFreeSpaceLength at h
  simp [wireBufConsume, show wb.start + wb.data.length + bytes.length ≤ wb.size by omega]

end WireBufLemmas

/-! ## Packets out of the stream -/

/-- The `knot_pkt_t` that `produce_packet` wraps around the wire buffer: where its wire starts
in the buffer, its octets, and its size. -/
structure KnotPkt where
  wireAt : ℕ
  wire : List UInt8
  size : ℕ

/-- `stream_produce_packet`: the packet at the head of the buffer once it is all there, with
`*out_err`. `produce_packet` (`knot_pkt_new`) only wraps the octets and does not fail; the
calls to `session2_penalize` on the two errors are left out. -/
def streamProducePacket (wb : WireBuf) : Option KnotPkt × Bool × WireBuf :=
  if wireBufDataLength wb = 0 then (none, false, wireBufReset wb)
  else if wireBufDataLength wb < 2 then (none, false, wb)
  else
    let msgLen := knotWireReadU16 wb.data
    if msgLen = 0 then (none, true, wb)
    else if wb.size ≤ msgLen then (none, true, wb)
    else if wireBufDataLength wb < msgLen + 2 then (none, false, wb)
    else (some ⟨wb.start + 2, (wb.data.drop 2).take msgLen, msgLen⟩, false, wb)

/-- `stream_discard_packet`, returning its code and the buffer; `*out_err` is the code being
negative. Each of its four assertions resets the buffer when it fails. -/
def streamDiscardPacket (wb : WireBuf) (pkt : KnotPkt) : ℤ × WireBuf :=
  let msgSize := knotWireReadU16 wb.data
  if wireBufDataLength wb < 2 ∨ wireBufDataLength wb < msgSize + 2 ∨ wb.start + 2 ≠ pkt.wireAt ∨
      msgSize < pkt.size then
    (krError Errno.einval, wireBufReset wb)
  else
    let wb := (wireBufTrim wb (msgSize + 2)).2
    if wireBufDataLength wb = 0 then (krOk, wireBufReset wb)
    else if wireBufDataLength wb < knotWireHeaderSize then (krOk, wireBufMovestart wb)
    else (krOk, wb)

theorem streamProducePacket_length_le (wb : WireBuf) :
    (streamProducePacket wb).2.2.data.length ≤ wb.data.length := by
  unfold streamProducePacket
  dsimp only
  split_ifs <;> simp

/-- A discard that succeeds takes at least the two octets of the length field off the buffer. -/
theorem streamDiscardPacket_length_lt {wb : WireBuf} {pkt : KnotPkt}
    (h : ¬ (streamDiscardPacket wb pkt).1 < 0) :
    (streamDiscardPacket wb pkt).2.data.length < wb.data.length := by
  unfold streamDiscardPacket at h ⊢
  dsimp only at h ⊢
  split_ifs at h ⊢ with hbad
  · exact absurd (show krError Errno.einval < 0 by decide) h
  all_goals
    have hle : knotWireReadU16 wb.data + 2 ≤ wb.data.length := by
      unfold wireBufDataLength at hbad; omega
    have htrim := (wireBufTrim_of_le wb hle).2.2
    simp only [data_wireBufReset, data_wireBufMovestart, htrim, List.length_drop,
      List.length_nil]
    omega

/-- What the session of a DNS stream layer holds that `pl_dns_stream_unwrap` reads or
changes: the wire buffer, the `single` and `produced` flags of `pl_dns_stream_sess_data`, and
`closing`. `submitted` records the packets handed to `worker_submit`, in order. -/
structure StreamSession where
  wireBuf : WireBuf
  single : Bool
  produced : Bool
  closing : Bool
  submitted : List KnotPkt

section Unwrap

-- `worker_submit`, outside this model: its return code and whether it closed the session
variable (workerSubmit : KnotPkt → ℤ × Bool)

/-- The `while` loop of `pl_dns_stream_unwrap` from iteration count `iters`: `.error` is the
`goto exit` with its status, `.ok` leaving the loop with `pkt_error`. -/
def plDnsStreamUnwrapLoop (maxIters : ℕ) (s : StreamSession) (iters : ℕ) :
    StreamSession × Except ℤ Bool :=
  let produced := streamProducePacket s.wireBuf
  let s' := { s with wireBuf := produced.2.2 }
  match produced.1 with
  | none => (s', .ok produced.2.1)
  | some pkt =>
    -- the loop condition tests the packet first, then the iteration count
    if maxIters ≤ iters then (s', .ok produced.2.1)
    else if produced.2.1 then (s', .error (krError Errno.einval))
    else if s'.single && s'.produced then (s', .error knotEMalf)
    else
      let ret := workerSubmit pkt
      let s'' :=
        { s' with produced := true, closing := s'.closing || ret.2, submitted := s'.submitted ++ [pkt] }
      -- a failed submission does not count towards the limit
      let iters' := if ret.1 = krOk then iters + 1 else iters
      let discarded := streamDiscardPacket s''.wireBuf pkt
      if _h : discarded.1 < 0 then ({ s'' with wireBuf := discarded.2 }, .ok true)
      else plDnsStreamUnwrapLoop maxIters { s'' with wireBuf := discarded.2 } iters'
termination_by s.wireBuf.data.length
decreasing_by
  exact lt_of_lt_of_le (streamDiscardPacket_length_lt _h) (streamProducePacket_length_le s.wireBuf)

/-- `pl_dns_stream_unwrap` on the session's wire buffer, with the status it breaks with. -/
def plDnsStreamUnwrap (s : StreamSession) : StreamSession × ℤ :=
  if wireBufDataLength s.wireBuf = 0 then (s, krOk)
  else
    let maxIters :=
      wireBufDataLength s.wireBuf / (knotWireHeaderSize + knotWireQuestionMinSize) + 1
    let r := plDnsStreamUnwrapLoop workerSubmit maxIters s 0
    let status := match r.2 with
      | .error status => status
      | .ok pktError => if r.1.closing || pktError then krError Errno.eio else krOk
    -- the exit label: the data is moved to the front, and an error closes the session
    let closed := { r.1 with closing := r.1.closing || decide (status < 0) }
    ({ closed with wireBuf := wireBufMovestart r.1.wireBuf }, status)

/-- `tcp_recv` for a read of `bytes` into the free space of the wire buffer, as far as the DNS
stream layer: the read is appended and `pl_dns_stream_unwrap` runs on the buffer. Of the TCP53
group this is every layer when the two between pass the read on unchanged and at once: the
PROXYv2-stream layer does so for every read but a first one that opens with the PROXYv2
signature, and the defer layer for a read it does not queue. -/
def tcpRecv (s : StreamSession) (bytes : List UInt8) : StreamSession :=
  if s.closing then s
  else if bytes = [] then s
  else
    let consumed := wireBufConsume s.wireBuf bytes
    if consumed.1 ≠ krOk then { s with wireBuf := wireBufReset consumed.2 }
    else (plDnsStreamUnwrap workerSubmit { s with wireBuf := consumed.2 }).1

/-- A session through a sequence of reads. -/
def tcpRecvRun (s : StreamSession) (reads : List (List UInt8)) : StreamSession :=
  reads.foldl (tcpRecv workerSubmit) s

/-- Each read of the sequence fits the free space of the wire buffer when it comes, as the
buffer `tcp_recv` hands to libuv makes it. -/
def ReadsFit : StreamSession → List (List UInt8) → Prop
  | _, [] => True
  | s, r :: rs =>
    r.length ≤ wireBufFreeSpaceLength s.wireBuf ∧ ReadsFit (tcpRecv workerSubmit s r) rs

end Unwrap

/-- The `wire_buf_overhead` of each layer of the TCP53 group: TCP, PROXYv2 stream, defer and
DNS multi-stream. -/
def protolayerGrpTcp53Overheads : List ℕ := [0, 0, 0, knotWireMaxPktsize]

/-- A new TCP53 session as `session2_new` and `pl_dns_stream_sess_init` leave it: a wire
buffer of the summed overheads, not a single-message stream. -/
def tcp53Session : StreamSession where
  wireBuf := ⟨protolayerGrpTcp53Overheads.sum, 0, [], by simp⟩
  single := false
  produced := false
  closing := false
  submitted := []

/-! ## The frames of DNS over TCP -/

/-- A message behind its two-octet length, as DNS over TCP frames it. -/
def tcpFrame (m : List UInt8) : List UInt8 := knotWireWriteU16 m.length ++ m

/-- The stream of the frames of some messages. -/
def tcpStream (ms : List (List UInt8)) : List UInt8 := (ms.map tcpFrame).flatten

/-- A message that `stream_produce_packet` takes out of a buffer of this size once all of it
is there: not empty, shorter than the buffer, and of a length the field can hold. -/
def Deliverable (size : ℕ) (m : List UInt8) : Prop :=
  0 < m.length ∧ m.length < size ∧ m.length < 65536

/-- The octets at the head of a buffer of this size hold no whole message, and a length field
there, once both of its octets are in, is one `stream_produce_packet` accepts. -/
def AwaitsMore (size : ℕ) (data : List UInt8) : Prop :=
  data.length < 2 ∨
    (0 < knotWireReadU16 data ∧ knotWireReadU16 data < size ∧ data.length < knotWireReadU16 data + 2)

instance (size : ℕ) : DecidablePred (Deliverable size) :=
  fun m => inferInstanceAs (Decidable (0 < m.length ∧ m.length < size ∧ m.length < 65536))

instance (size : ℕ) : DecidablePred (AwaitsMore size) := fun data =>
  inferInstanceAs (Decidable (data.length < 2 ∨ (0 < knotWireReadU16 data ∧
    knotWireReadU16 data < size ∧ data.length < knotWireReadU16 data + 2)))

@[simp] theorem length_tcpFrame (m : List UInt8) : (tcpFrame m).length = m.length + 2 := by
  simp [tcpFrame, knotWireWriteU16]

@[simp] theorem tcpStream_nil : tcpStream [] = [] := rfl

@[simp] theorem tcpStream_cons (m : List UInt8) (ms : List (List UInt8)) :
    tcpStream (m :: ms) = tcpFrame m ++ tcpStream ms := by
  simp [tcpStream]

theorem tcpStream_append (ms ms' : List (List UInt8)) :
    tcpStream (ms ++ ms') = tcpStream ms ++ tcpStream ms' := by
  simp [tcpStream]

/-- Messages of at least 15 octets take at least 17 octets each on the stream: the bound
`pl_dns_stream_unwrap` puts on one call. -/
theorem length_tcpStream_ge {ms : List (List UInt8)} (h : ∀ m ∈ ms, 15 ≤ m.length) :
    17 * ms.length ≤ (tcpStream ms).length := by
  induction ms with
  | nil => simp
  | cons m ms ih =>
    have hm := h m (List.mem_cons_self ..)
    have hrest := ih (fun m' hm' => h m' (List.mem_cons_of_mem _ hm'))
    simp only [tcpStream_cons, List.length_append, length_tcpFrame, List.length_cons]
    omega

theorem knotWireReadU16_tcpFrame_append {m : List UInt8} (hm : m.length < 65536)
    (rest : List UInt8) : knotWireReadU16 (tcpFrame m ++ rest) = m.length := by
  have hhi : (m.length / 256).toUInt8.toNat = m.length / 256 := by
    simp only [Nat.toUInt8_eq, UInt8.toNat_ofNat', Nat.reducePow]
    omega
  have hlo : m.length.toUInt8.toNat = m.length % 256 := by
    simp only [Nat.toUInt8_eq, UInt8.toNat_ofNat', Nat.reducePow]
  simp only [knotWireReadU16, tcpFrame, knotWireWriteU16, List.cons_append, List.nil_append,
    List.getD_cons_zero, List.getD_cons_succ, hhi, hlo]
  omega

/-- `knot_wire_read_u16` reads the first two octets only. -/
theorem knotWireReadU16_eq_of_isPrefix {P Q : List UInt8} (h : P <+: Q) (hP : 2 ≤ P.length) :
    knotWireReadU16 P = knotWireReadU16 Q := by
  obtain ⟨t, rfl⟩ := h
  match P, hP with
  | _ :: _ :: _, _ => rfl

/-- A part of a frame shorter than the frame is waiting for the rest of it. -/
theorem awaitsMore_of_prefix {size : ℕ} {m P : List UInt8} (hm : Deliverable size m)
    (hP : P <+: tcpFrame m) (hlt : P.length < m.length + 2) : AwaitsMore size P := by
  by_cases h2 : P.length < 2
  · exact .inl h2
  · have hframe : knotWireReadU16 (tcpFrame m) = m.length := by
      simpa using knotWireReadU16_tcpFrame_append hm.2.2 []
    have hread : knotWireReadU16 P = m.length := by
      rw [knotWireReadU16_eq_of_isPrefix hP (by omega), hframe]
    rw [AwaitsMore, hread]
    exact .inr ⟨hm.1, hm.2.1, hlt⟩

theorem not_awaitsMore_tcpFrame_append {size : ℕ} {m : List UInt8} (hm : m.length < 65536)
    (rest : List UInt8) : ¬ AwaitsMore size (tcpFrame m ++ rest) := by
  rw [AwaitsMore, knotWireReadU16_tcpFrame_append hm]
  simp only [List.length_append, length_tcpFrame]
  omega

/-! ## One call of the stream layer -/

/-- A whole frame at the head of the buffer is produced as its message, the buffer as it was. -/
theorem streamProducePacket_tcpFrame {wb : WireBuf} {m rest : List UInt8}
    (hm : Deliverable wb.size m) (h : wb.data = tcpFrame m ++ rest) :
    streamProducePacket wb = (some ⟨wb.start + 2, m, m.length⟩, false, wb) := by
  have hread : knotWireReadU16 wb.data = m.length := by
    rw [h, knotWireReadU16_tcpFrame_append hm.2.2]
  have hlen : wireBufDataLength wb = m.length + 2 + rest.length := by
    simp [wireBufDataLength, h]
  have hwire : (wb.data.drop 2).take m.length = m := by
    simp [h, tcpFrame, knotWireWriteU16]
  obtain ⟨hpos, hsize, -⟩ := hm
  unfold streamProducePacket
  dsimp only
  rw [hread, hlen, hwire, if_neg (by omega), if_neg (by omega), if_neg (by omega),
    if_neg (by omega), if_neg (by omega)]

/-- Where the head of the buffer waits for more, nothing is produced and the data stays. -/
theorem streamProducePacket_of_awaitsMore {wb : WireBuf} (h : AwaitsMore wb.size wb.data) :
    (streamProducePacket wb).1 = none ∧ (streamProducePacket wb).2.1 = false ∧
      (streamProducePacket wb).2.2.size = wb.size ∧ (streamProducePacket wb).2.2.data = wb.data := by
  unfold AwaitsMore at h
  unfold streamProducePacket wireBufDataLength
  dsimp only
  split_ifs with h0 h1 hzero hbig hshort
  · simp only [size_wireBufReset, data_wireBufReset, true_and]
    exact (List.eq_nil_of_length_eq_zero h0).symm
  · simp
  · omega
  · omega
  · simp
  · omega

/-- Discarding the packet of a whole frame at the head of the buffer leaves what follows it. -/
theorem streamDiscardPacket_tcpFrame {wb : WireBuf} {m rest : List UInt8}
    (hm : m.length < 65536) (h : wb.data = tcpFrame m ++ rest) :
    (streamDiscardPacket wb ⟨wb.start + 2, m, m.length⟩).1 = krOk ∧
      (streamDiscardPacket wb ⟨wb.start + 2, m, m.length⟩).2.size = wb.size ∧
      (streamDiscardPacket wb ⟨wb.start + 2, m, m.length⟩).2.data = rest := by
  have hread : knotWireReadU16 wb.data = m.length := by
    rw [h, knotWireReadU16_tcpFrame_append hm]
  have hlen : wb.data.length = m.length + 2 + rest.length := by
    simp [h]
  have hdrop : wb.data.drop (m.length + 2) = rest := by
    rw [h]
    exact List.drop_left' (by simp)
  obtain ⟨-, hsize, hdata⟩ := wireBufTrim_of_le wb (n := m.length + 2) (by omega)
  unfold streamDiscardPacket
  dsimp only
  rw [hread, if_neg (by unfold wireBufDataLength; omega)]
  unfold wireBufDataLength
  split_ifs with h0
  · simp only [size_wireBufReset, data_wireBufReset, hsize, true_and]
    rw [hdata, hdrop] at h0
    exact (List.eq_nil_of_length_eq_zero h0).symm
  · simp [hsize, hdata, hdrop]
  · simp [hsize, hdata, hdrop]

section Loop

variable (workerSubmit : KnotPkt → ℤ × Bool) {maxIters iters : ℕ} {s : StreamSession}

theorem plDnsStreamUnwrapLoop_of_none (h : (streamProducePacket s.wireBuf).1 = none) :
    plDnsStreamUnwrapLoop workerSubmit maxIters s iters =
      ({ s with wireBuf := (streamProducePacket s.wireBuf).2.2 },
        .ok (streamProducePacket s.wireBuf).2.1) := by
  rw [plDnsStreamUnwrapLoop]
  simp only [h]

/-- Once the iteration count reaches the limit, a produced packet is left in the buffer. -/
theorem plDnsStreamUnwrapLoop_of_limit {pkt : KnotPkt}
    (h : (streamProducePacket s.wireBuf).1 = some pkt) (hle : maxIters ≤ iters) :
    plDnsStreamUnwrapLoop workerSubmit maxIters s iters =
      ({ s with wireBuf := (streamProducePacket s.wireBuf).2.2 },
        .ok (streamProducePacket s.wireBuf).2.1) := by
  rw [plDnsStreamUnwrapLoop]
  simp only [h, if_pos hle]

/-- A produced packet that is submitted with success and discarded goes round the loop once. -/
theorem plDnsStreamUnwrapLoop_of_submit {pkt : KnotPkt}
    (h : (streamProducePacket s.wireBuf).1 = some pkt) (hlt : iters < maxIters)
    (herr : (streamProducePacket s.wireBuf).2.1 = false) (hsingle : s.single = false)
    (hsubmit : workerSubmit pkt = (krOk, false))
    (hdis : (streamDiscardPacket (streamProducePacket s.wireBuf).2.2 pkt).1 = krOk) :
    plDnsStreamUnwrapLoop workerSubmit maxIters s iters =
      plDnsStreamUnwrapLoop workerSubmit maxIters
        { s with
          wireBuf := (streamDiscardPacket (streamProducePacket s.wireBuf).2.2 pkt).2
          produced := true
          submitted := s.submitted ++ [pkt] } (iters + 1) := by
  rw [plDnsStreamUnwrapLoop]
  simp [h, herr, hsingle, hsubmit, hdis, Nat.not_le.mpr hlt, krOk]

end Loop

/-- A length field of zero, or of at least the size of the buffer, closes the session with
`EIO` before anything is handed over: in a TCP53 session, whose buffer holds 65535 octets, a
message of 65535 octets is never delivered. -/
theorem plDnsStreamUnwrap_bad_length (workerSubmit : KnotPkt → ℤ × Bool) {s : StreamSession}
    (h2 : 2 ≤ s.wireBuf.data.length)
    (hbad : knotWireReadU16 s.wireBuf.data = 0 ∨ s.wireBuf.size ≤ knotWireReadU16 s.wireBuf.data) :
    (plDnsStreamUnwrap workerSubmit s).2 = krError Errno.eio ∧
      (plDnsStreamUnwrap workerSubmit s).1.closing = true ∧
      (plDnsStreamUnwrap workerSubmit s).1.submitted = s.submitted ∧
      (plDnsStreamUnwrap workerSubmit s).1.wireBuf = wireBufMovestart s.wireBuf := by
  have hprod : streamProducePacket s.wireBuf = (none, true, s.wireBuf) := by
    unfold streamProducePacket wireBufDataLength
    dsimp only
    rw [if_neg (by omega), if_neg (by omega)]
    rcases hbad with h0 | hbig
    · rw [if_pos h0]
    · by_cases h0 : knotWireReadU16 s.wireBuf.data = 0
      · rw [if_pos h0]
      · rw [if_neg h0, if_pos hbig]
  have hnone : (streamProducePacket s.wireBuf).1 = none := by rw [hprod]
  have hempty : ¬ wireBufDataLength s.wireBuf = 0 := by unfold wireBufDataLength; omega
  simp only [plDnsStreamUnwrap, if_neg hempty, plDnsStreamUnwrapLoop_of_none workerSubmit hnone,
    hprod, Bool.or_true, if_true]
  exact ⟨trivial, by simp [krError, Errno.eio], trivial, trivial⟩

/-- A prefix of the frames of deliverable messages is whole frames followed by a part of the
next frame that waits for more. -/
theorem exists_frames_awaitsMore {size : ℕ} {ms : List (List UInt8)} {D : List UInt8}
    (hD : D <+: tcpStream ms) (hms : ∀ m ∈ ms, Deliverable size m) :
    ∃ j P, D = tcpStream (ms.take j) ++ P ∧ AwaitsMore size P := by
  obtain ⟨j, P, hsplit, hP, hlen⟩ := ListLex.prefix_flatten_split (show D <+: (ms.map tcpFrame).flatten from hD)
  refine ⟨j, P, by rw [hsplit, tcpStream, List.map_take], ?_⟩
  rw [← List.map_drop] at hP hlen
  cases hdrop : ms.drop j with
  | nil =>
    -- no frame is left: nothing follows the whole frames
    rw [hdrop, List.map_nil, List.flatten_nil, List.prefix_nil] at hP
    rw [hP]
    exact .inl (by simp)
  | cons m rest =>
    have hm : Deliverable size m := hms m (List.mem_of_mem_drop (by rw [hdrop]; exact List.mem_cons_self ..))
    rw [hdrop, List.map_cons, List.flatten_cons] at hP
    have hlt : P.length < (tcpFrame m).length := hlen (tcpFrame m) (by simp [hdrop])
    have hpre : P <+: tcpFrame m :=
      List.prefix_of_prefix_length_le hP (List.prefix_append _ _) hlt.le
    exact awaitsMore_of_prefix hm hpre (by rw [← length_tcpFrame]; exact hlt)

/-- A session between two reads of the stream of the messages `ms`, with `rest` of it still to
come: open, its buffer of this size at the front and holding the start of the frames not
handed over yet but no whole message, and the messages handed over so far the first ones of
`ms`, in order. -/
structure Between (size : ℕ) (ms : List (List UInt8)) (rest : List UInt8) (s : StreamSession) :
    Prop where
  closing_eq : s.closing = false
  single_eq : s.single = false
  start_eq : s.wireBuf.start = 0
  size_eq : s.wireBuf.size = size
  awaits : AwaitsMore size s.wireBuf.data
  handed : ∃ i, s.submitted.map KnotPkt.wire = ms.take i ∧
    s.wireBuf.data ++ rest = tcpStream (ms.drop i)


section Frames

variable {workerSubmit : KnotPkt → ℤ × Bool} (hsubmit : ∀ pkt, workerSubmit pkt = (krOk, false))
include hsubmit

/-- The loop hands over the whole frames at the head of the buffer in order, until the
iteration count reaches the limit; the frames past the limit stay in the buffer. -/
theorem plDnsStreamUnwrapLoop_frames {P : List UInt8} (maxIters : ℕ) :
    ∀ (ms : List (List UInt8)) (s : StreamSession) (iters : ℕ), s.single = false →
      (∀ m ∈ ms, Deliverable s.wireBuf.size m) → AwaitsMore s.wireBuf.size P →
      s.wireBuf.data = tcpStream ms ++ P →
      let r := plDnsStreamUnwrapLoop workerSubmit maxIters s iters
      r.2 = .ok false ∧ r.1.closing = s.closing ∧ r.1.single = s.single ∧
        r.1.wireBuf.size = s.wireBuf.size ∧
        r.1.wireBuf.data = tcpStream (ms.drop (maxIters - iters)) ++ P ∧
        r.1.submitted.map KnotPkt.wire =
          s.submitted.map KnotPkt.wire ++ ms.take (maxIters - iters)
  | [], s, iters, _, _, hP, hdata => by
    -- only the part of a frame is left: the loop ends at once
    have hwait : AwaitsMore s.wireBuf.size s.wireBuf.data := by
      rwa [hdata, tcpStream_nil, List.nil_append]
    obtain ⟨hnone, herr, hsize, hdata'⟩ := streamProducePacket_of_awaitsMore hwait
    rw [plDnsStreamUnwrapLoop_of_none workerSubmit hnone]
    simp [herr, hsize, hdata', hdata]
  | m :: ms, s, iters, hsingle, hms, hP, hdata => by
    have hm := hms m (List.mem_cons_self ..)
    have hhead : s.wireBuf.data = tcpFrame m ++ (tcpStream ms ++ P) := by
      rw [hdata, tcpStream_cons, List.append_assoc]
    have hprod := streamProducePacket_tcpFrame hm hhead
    by_cases hle : maxIters ≤ iters
    · -- the limit is reached: the whole frame stays where it is
      rw [plDnsStreamUnwrapLoop_of_limit workerSubmit (by rw [hprod]) hle, hprod]
      simp [Nat.sub_eq_zero_of_le hle, hdata]
    · obtain ⟨hret, hsize, hrest⟩ := streamDiscardPacket_tcpFrame hm.2.2 hhead
      rw [plDnsStreamUnwrapLoop_of_submit workerSubmit (by rw [hprod]) (by omega)
        (by rw [hprod]) hsingle (hsubmit _) (by rw [hprod]; exact hret)]
      simp only [hprod]
      -- the loop goes on behind the first frame
      obtain ⟨h2, hclosing, hsingle', hsize', hdata', hsub⟩ :=
        plDnsStreamUnwrapLoop_frames maxIters ms
          { s with
            wireBuf := (streamDiscardPacket s.wireBuf ⟨s.wireBuf.start + 2, m, m.length⟩).2
            produced := true
            submitted := s.submitted ++ [⟨s.wireBuf.start + 2, m, m.length⟩] } (iters + 1) hsingle
          (fun m' hm' => by rw [hsize]; exact hms m' (List.mem_cons_of_mem _ hm'))
          (by rw [hsize]; exact hP) hrest
      have hsucc : maxIters - iters = maxIters - (iters + 1) + 1 := by omega
      refine ⟨h2, hclosing, hsingle', ?_, ?_, ?_⟩
      · rw [hsize', hsize]
      · rw [hdata', hsucc, List.drop_succ_cons]
      · rw [hsub, hsucc, List.take_succ_cons]
        simp
/-- One call of `pl_dns_stream_unwrap` hands over the whole frames at the head of the buffer,
but no more than `len / 17 + 1` of them for `len` octets in the buffer, and moves the rest
to the front. -/
theorem plDnsStreamUnwrap_frames {ms : List (List UInt8)} {P : List UInt8} {s : StreamSession}
    (hsingle : s.single = false) (hclosing : s.closing = false) (hstart : s.wireBuf.start = 0)
    (hms : ∀ m ∈ ms, Deliverable s.wireBuf.size m) (hP : AwaitsMore s.wireBuf.size P)
    (hdata : s.wireBuf.data = tcpStream ms ++ P) :
    let n := s.wireBuf.data.length / 17 + 1
    let r := plDnsStreamUnwrap workerSubmit s
    r.2 = krOk ∧ r.1.closing = false ∧ r.1.single = false ∧ r.1.wireBuf.start = 0 ∧
      r.1.wireBuf.size = s.wireBuf.size ∧ r.1.wireBuf.data = tcpStream (ms.drop n) ++ P ∧
      r.1.submitted.map KnotPkt.wire = s.submitted.map KnotPkt.wire ++ ms.take n := by
  intro n r
  by_cases hempty : wireBufDataLength s.wireBuf = 0
  · -- an empty buffer: no frame, and the call returns at once
    have hnil : tcpStream ms ++ P = [] := by
      rw [← hdata]
      exact List.eq_nil_of_length_eq_zero hempty
    have hms' : ms = [] := by
      cases ms with
      | nil => rfl
      | cons m ms =>
        have hlen := congrArg List.length hnil
        simp at hlen
    have hr : r = (s, krOk) := if_pos hempty
    simp only [hr, hsingle, hclosing, hstart, hdata, hms', true_and, List.drop_nil,
      List.take_nil, List.append_nil]
  · have hn : wireBufDataLength s.wireBuf / (knotWireHeaderSize + knotWireQuestionMinSize) + 1 =
        n := rfl
    obtain ⟨h2, hclosing', hsingle', hsize, hdata', hsub⟩ :=
      plDnsStreamUnwrapLoop_frames hsubmit n ms s 0 hsingle hms hP hdata
    rw [Nat.sub_zero] at hdata' hsub
    -- the loop ends with no error: the status is kr_ok and the session stays open
    simp only [r, plDnsStreamUnwrap, if_neg hempty, hn, h2, hclosing', hclosing, Bool.or_false,
      Bool.false_eq_true, if_false, krOk, lt_self_iff_false, decide_false]
    exact ⟨trivial, trivial, hsingle'.trans hsingle, rfl, hsize, hdata', hsub⟩

/-- A read that fits the free space of an open session is appended to its buffer, and one call
of the stream layer follows. -/
theorem tcpRecv_frames {ms : List (List UInt8)} {P r : List UInt8} {s : StreamSession}
    (hr : r ≠ []) (hfit : r.length ≤ wireBufFreeSpaceLength s.wireBuf)
    (hsingle : s.single = false) (hclosing : s.closing = false) (hstart : s.wireBuf.start = 0)
    (hms : ∀ m ∈ ms, Deliverable s.wireBuf.size m) (hP : AwaitsMore s.wireBuf.size P)
    (hdata : s.wireBuf.data ++ r = tcpStream ms ++ P) :
    let n := (s.wireBuf.data.length + r.length) / 17 + 1
    let s' := tcpRecv workerSubmit s r
    s'.closing = false ∧ s'.single = false ∧ s'.wireBuf.start = 0 ∧
      s'.wireBuf.size = s.wireBuf.size ∧ s'.wireBuf.data = tcpStream (ms.drop n) ++ P ∧
      s'.submitted.map KnotPkt.wire = s.submitted.map KnotPkt.wire ++ ms.take n := by
  intro n s'
  obtain ⟨hret, hsize, hstart', hdata'⟩ := wireBufConsume_of_le s.wireBuf hfit
  have hs' : s' =
      (plDnsStreamUnwrap workerSubmit { s with wireBuf := (wireBufConsume s.wireBuf r).2 }).1 := by
    simp only [s', tcpRecv, hclosing, hr, hret, Bool.false_eq_true, if_false, ne_eq,
      not_true_eq_false]
  have hn : (s.wireBuf.data ++ r).length / 17 + 1 = n := by
    rw [List.length_append]
  obtain ⟨-, h1, h2, h3, h4, h5, h6⟩ :=
    plDnsStreamUnwrap_frames hsubmit (s := { s with wireBuf := (wireBufConsume s.wireBuf r).2 })
      hsingle hclosing (hstart'.trans hstart) (by rw [hsize]; exact hms) (by rw [hsize]; exact hP)
      (hdata'.trans hdata)
  dsimp only at h4 h5 h6
  rw [hdata', hn] at h5 h6
  rw [hs']
  exact ⟨h1, h2, h3, h4.trans hsize, h5, h6⟩

/-- One read keeps a session between reads, for messages of at least 15 octets: all of the
whole frames the read completes are handed over in that call. -/
theorem Between.after_tcpRecv {size : ℕ} {ms : List (List UInt8)} {r rest : List UInt8}
    {s : StreamSession} (hms : ∀ m ∈ ms, 15 ≤ m.length ∧ Deliverable size m)
    (hb : Between size ms (r ++ rest) s) (hfit : r.length ≤ wireBufFreeSpaceLength s.wireBuf) :
    Between size ms rest (tcpRecv workerSubmit s r) := by
  by_cases hr : r = []
  · subst hr
    have hsame : tcpRecv workerSubmit s [] = s := by simp [tcpRecv]
    rw [hsame]
    simpa using hb
  obtain ⟨i, hsub, hstream⟩ := hb.handed
  -- after the read the buffer holds a prefix of the frames still to come
  have hpre : s.wireBuf.data ++ r <+: tcpStream (ms.drop i) :=
    ⟨rest, by rw [List.append_assoc, hstream]⟩
  obtain ⟨j, P, hD, hP⟩ :=
    exists_frames_awaitsMore hpre (fun m hm => (hms m (List.mem_of_mem_drop hm)).2)
  have hmem : ∀ m ∈ (ms.drop i).take j, 15 ≤ m.length ∧ Deliverable size m :=
    fun m hm => hms m (List.mem_of_mem_drop (List.mem_of_mem_take hm))
  obtain ⟨h1, h2, h3, h4, h5, h6⟩ :=
    tcpRecv_frames hsubmit hr hfit hb.single_eq hb.closing_eq hb.start_eq
      (fun m hm => hb.size_eq ▸ (hmem m hm).2) (hb.size_eq ▸ hP) hD
  -- the frames are long enough for all of them to go in one call
  have hbound : 17 * ((ms.drop i).take j).length ≤ s.wireBuf.data.length + r.length := by
    have hge := length_tcpStream_ge (fun m hm => (hmem m hm).1)
    have hlen := congrArg List.length hD
    simp only [List.length_append] at hlen
    omega
  rw [List.drop_of_length_le (by omega), tcpStream_nil, List.nil_append] at h5
  rw [List.take_of_length_le (by omega), hsub, ← List.take_add] at h6
  have hsplit : tcpStream (ms.drop i) =
      tcpStream ((ms.drop i).take j) ++ tcpStream ((ms.drop i).drop j) := by
    rw [← tcpStream_append, List.take_append_drop]
  have hrest : P ++ rest = tcpStream ((ms.drop i).drop j) := by
    have h := hstream
    rw [← List.append_assoc, hD, hsplit, List.append_assoc] at h
    exact List.append_cancel_left h
  refine ⟨h1, h2, h3, h4.trans hb.size_eq, by rw [h5]; exact hP, i + j, h6, ?_⟩
  rw [h5, hrest, List.drop_drop]

/-- Over a run of reads that fit, a session stays between reads after each of them. -/
theorem Between.after_tcpRecvRun {size : ℕ} {ms : List (List UInt8)}
    (hms : ∀ m ∈ ms, 15 ≤ m.length ∧ Deliverable size m) :
    ∀ (reads : List (List UInt8)) (rest : List UInt8) (s : StreamSession),
      Between size ms (reads.flatten ++ rest) s → ReadsFit workerSubmit s reads →
      ∀ j ≤ reads.length, Between size ms ((reads.drop j).flatten ++ rest)
        (tcpRecvRun workerSubmit s (reads.take j))
  | [], rest, s, hb, _, j, hj => by
    obtain rfl : j = 0 := Nat.le_zero.mp hj
    simpa [tcpRecvRun] using hb
  | r :: reads, rest, s, hb, hfit, j, hj => by
    cases j with
    | zero => simpa [tcpRecvRun] using hb
    | succ j =>
      have hb' : Between size ms (reads.flatten ++ rest) (tcpRecv workerSubmit s r) :=
        Between.after_tcpRecv hsubmit hms (by simpa using hb) hfit.1
      have hrun := Between.after_tcpRecvRun hms reads rest _ hb' hfit.2 j (by simpa using hj)
      simpa [tcpRecvRun] using hrun

end Frames

/-- Once the whole stream is read, every message has been handed over and the buffer is empty. -/
theorem Between.handed_all {size : ℕ} {ms : List (List UInt8)} {s : StreamSession}
    (hms : ∀ m ∈ ms, Deliverable size m) (hb : Between size ms [] s) :
    s.submitted.map KnotPkt.wire = ms ∧ s.wireBuf.data = [] := by
  obtain ⟨i, hsub, hstream⟩ := hb.handed
  rw [List.append_nil] at hstream
  cases hdrop : ms.drop i with
  | nil =>
    rw [hdrop, tcpStream_nil] at hstream
    have hle : ms.length ≤ i := List.drop_eq_nil_iff.mp hdrop
    exact ⟨by rw [hsub, List.take_of_length_le hle], hstream⟩
  | cons m rest =>
    -- a whole frame would be waiting in the buffer
    have hm := hms m (List.mem_of_mem_drop (by rw [hdrop]; exact List.mem_cons_self ..))
    rw [hdrop, tcpStream_cons] at hstream
    exact absurd (hstream ▸ hb.awaits) (not_awaitsMore_tcpFrame_append hm.2.2 _)

/-- A new TCP53 session has its 65535-octet buffer empty and waits for the whole stream. -/
theorem between_tcp53Session (ms : List (List UInt8)) :
    Between 65535 ms (tcpStream ms) tcp53Session where
  closing_eq := rfl
  single_eq := rfl
  start_eq := rfl
  size_eq := rfl
  awaits := .inl (by decide)
  handed := ⟨0, rfl, rfl⟩

/-! ## Framing outgoing messages -/

/-- The payload forms of a protocol layer context. -/
inductive Payload
  | buffer (buf : List UInt8)
  | iovec (iovs : List (List UInt8))
  | wireBuf (wb : WireBuf)

/-- The octets a payload stands for. -/
def Payload.bytes : Payload → List UInt8
  | .buffer buf => buf
  | .iovec iovs => iovs.flatten
  | .wireBuf wb => wb.data

/-- `pl_dns_stream_wrap`: the new payload it continues with, or the status it breaks with. -/
def plDnsStreamWrap : Payload → Except ℤ Payload
  | .buffer buf =>
    if buf.length ≤ 65535 then .ok (.iovec [knotWireWriteU16 buf.length, buf])
    else .error (krError Errno.emsgsize)
  | .iovec iovs =>
    let totalLen := (iovs.map List.length).sum
    if totalLen ≤ 65535 then .ok (.iovec (knotWireWriteU16 totalLen :: iovs))
    else .error (krError Errno.emsgsize)
  | .wireBuf _ => .error (krError Errno.einval)

/-- What `pl_dns_stream_wrap` continues with is the frame of the payload: its length in two
octets, then its octets, in both the buffer and the `iovec` form. -/
theorem plDnsStreamWrap_bytes {p q : Payload} (h : plDnsStreamWrap p = .ok q) :
    q.bytes = tcpFrame p.bytes := by
  cases p with
  | buffer buf =>
    simp only [plDnsStreamWrap] at h
    split_ifs at h
    cases h
    simp [Payload.bytes, tcpFrame]
  | iovec iovs =>
    simp only [plDnsStreamWrap] at h
    split_ifs at h
    cases h
    simp [Payload.bytes, tcpFrame, List.length_flatten]
  | wireBuf wb => simp [plDnsStreamWrap] at h

theorem tcpStream_of_plDnsStreamWrap {ps qs : List Payload}
    (h : List.Forall₂ (fun p q => plDnsStreamWrap p = .ok q) ps qs) :
    (qs.map Payload.bytes).flatten = tcpStream (ps.map Payload.bytes) := by
  induction h with
  | nil => rfl
  | cons hpq _ ih =>
    rw [List.map_cons, List.flatten_cons, ih, plDnsStreamWrap_bytes hpq, List.map_cons,
      tcpStream_cons]

/-! ## Round trip -/

/-- A closed session takes no more reads. -/
theorem tcpRecv_of_closing (workerSubmit : KnotPkt → ℤ × Bool) {s : StreamSession}
    (h : s.closing = true) (r : List UInt8) : tcpRecv workerSubmit s r = s := by
  simp [tcpRecv, h]

theorem tcpRecvRun_of_closing (workerSubmit : KnotPkt → ℤ × Bool) {s : StreamSession}
    (h : s.closing = true) : ∀ reads, tcpRecvRun workerSubmit s reads = s
  | [] => rfl
  | r :: rs => by
    show tcpRecvRun workerSubmit (tcpRecv workerSubmit s r) rs = s
    rw [tcpRecv_of_closing workerSubmit h r]
    exact tcpRecvRun_of_closing workerSubmit h rs

end KnotResolver
