import Mathlib

/-!
# Defer: the priority queues of deferred requests

`daemon/defer.c`: requests that arrive while others wait are deferred into priority queues and
processed later, in idle time (`defer_queues_idle`) or when the memory they take is over the
limit (`process_deferred_over_size_limit`). A stream session keeps its deferred requests in
order in a queue of its own, of which only the head sits in a priority queue; an EOF event that
arrives behind deferred data waits in that queue as a `NULL` entry.

The priority of a request comes from `classify`, which asks the KRU table; here it is an input
of each step, as are the time stamps and the size estimates of `session2.c`. The layers around
the defer layer (`protolayer_continue`, `protolayer_break`, the events handed on) are outside
the model, which keeps only what the defer layer records.

The main result: over every run from empty queues, `waiting_requests` counts the priority
queues, the queues below `queue_ix` are empty, a stream session's head and only its head is
queued, once, `waiting_requests_size` is the size of what waits, and `pop_query` does not fail
while requests wait (`defer_invariants`).
-/

namespace KnotResolver

/-! ## The state -/

/-- `QUEUES_CNT`: three load levels of eight subpriorities, priority 0 and the unverified. -/
def queuesCnt : ℕ := (4 - 1) * 8 + 2

/-- `PRIORITY_UDP`, the last queue. -/
def priorityUdp : ℕ := queuesCnt - 1

/-- `REQ_TIMEOUT`, in ns: older deferred requests are dropped. -/
def reqTimeout : UInt64 := 1000000000

/-- `MAX_WAITING_REQS_SIZE`, in bytes. -/
def maxWaitingReqsSize : ℤ := 64 * 1024 * 1024

/-- `enum phase` -/
inductive Phase where
  | none
  | udp
  | nonUdp
deriving DecidableEq, Repr

/-- `phase_limits`, in ns. -/
def phaseLimits : Phase → UInt64
  | .none => 0
  | .udp => 400000
  | .nonUdp => 400000

/-- A deferred request: the context and its `pl_defer_iter_data`. -/
structure DeferCtx where
  id : ℕ
  session : ℕ
  reqStamp : UInt64
  size : ℕ
deriving DecidableEq

/-- A session as the defer layer sees it: the flags of `session2` it reads and its
`pl_defer_sess_data`, whose queue holds `none` for a deferred EOF event. -/
structure DeferSession where
  stream : Bool
  closing : Bool
  queue : List (Option DeferCtx)
  size : ℕ

/-- The globals of `defer.c` with the sessions. -/
structure DeferState where
  queues : ℕ → List DeferCtx
  waitingRequests : ℤ
  waitingRequestsSize : ℤ
  queueIx : ℕ
  phase : Phase
  phaseElapsed : Phase → UInt64
  phaseStamp : UInt64
  sessions : ℕ → DeferSession

/-- The state after `defer_init`, with sessions whose queues `pl_defer_sess_init` left empty. -/
def deferInit (sessions : ℕ → DeferSession) : DeferState :=
  { queues := fun _ => [], waitingRequests := 0, waitingRequestsSize := 0, queueIx := queuesCnt
    phase := .none, phaseElapsed := fun _ => 0, phaseStamp := 0, sessions }

/-- The state with session `n` changed. -/
def DeferState.setSession (s : DeferState) (n : ℕ) (d : DeferSession) : DeferState :=
  { s with sessions := Function.update s.sessions n d }

/-! ## Phases -/

/-- `phase_over_limit` -/
def phaseOverLimit (s : DeferState) (p : Phase) : Bool :=
  s.phaseElapsed p ≥ phaseLimits p

/-- `phase_reset` -/
def phaseReset (s : DeferState) (stamp : UInt64) (p : Phase) : DeferState :=
  { s with
    phaseElapsed := fun q => if q = .none then s.phaseElapsed .none else 0
    phaseStamp := stamp
    phase := p }

/-- `phase_try_set` -/
def phaseTrySet (s : DeferState) (stamp : UInt64) (p : Phase) : Bool × DeferState :=
  let s := { s with
    phaseElapsed := Function.update s.phaseElapsed s.phase
      (s.phaseElapsed s.phase + (stamp - s.phaseStamp))
    phaseStamp := stamp }
  if !phaseOverLimit s p then (true, { s with phase := p })
  else if phaseOverLimit s .udp && phaseOverLimit s .nonUdp then (true, phaseReset s stamp p)
  else (false, s)

/-! ## The priority queues -/

/-- `push_query` -/
def pushQuery (s : DeferState) (ctx : DeferCtx) (priority : ℕ) (toHeadEnd : Bool) :
    DeferState :=
  { s with
    queues := Function.update s.queues priority
      (if toHeadEnd then ctx :: s.queues priority else s.queues priority ++ [ctx])
    queueIx := min s.queueIx priority
    waitingRequests := s.waitingRequests + 1 }

/-- `pop_query_queue`; `none` where one of its assertions fails. -/
def popQueryQueue (s : DeferState) (priority : ℕ) : Option (DeferCtx × DeferState) :=
  match s.queues priority with
  | [] => none
  | ctx :: rest =>
    if s.waitingRequests - 1 < 0 then none
    else some (ctx, { s with
      queues := Function.update s.queues priority rest
      waitingRequests := s.waitingRequests - 1 })

/-- The loop of `pop_query` that moves `queue_ix` past empty queues. -/
def scanQueueIx (queues : ℕ → List DeferCtx) (ix : ℕ) : ℕ :=
  if h : ix < queuesCnt ∧ queues ix = [] then scanQueueIx queues (ix + 1) else ix
termination_by queuesCnt - ix
decreasing_by omega

/-- `pop_query`: from the first non-empty queue in the non-UDP phase, else from the UDP queue;
`none` where one of its assertions fails. -/
def popQuery (s : DeferState) (stamp : UInt64) : Option (DeferCtx × DeferState) :=
  let waitingUdp : ℤ := (s.queues priorityUdp).length
  let waitingNonUdp := s.waitingRequests - waitingUdp
  -- the phase: non-UDP if it may go on, else UDP if it may, else reset to what waits
  let r1 := if waitingNonUdp > 0 then phaseTrySet s stamp .nonUdp else (false, s)
  let r2 := if !r1.1 && waitingUdp > 0 then phaseTrySet r1.2 stamp .udp else (false, r1.2)
  let s := if !r1.1 && !r2.1 then
      phaseReset r2.2 stamp (if waitingNonUdp > 0 then .nonUdp else .udp)
    else r2.2
  if s.phase = .nonUdp then
    let s := { s with queueIx := scanQueueIx s.queues s.queueIx }
    if s.queueIx < priorityUdp then popQueryQueue s s.queueIx else none
  else popQueryQueue s priorityUdp

/-- The loop of `break_query` over a stream session's queue: every request in it is broken and
its size no longer counted. -/
def breakSessionQueue (size : ℤ) : List (Option DeferCtx) → ℤ
  | [] => size
  | none :: q => breakSessionQueue size q
  | some ctx :: q => breakSessionQueue (size - ctx.size) q

/-- `break_query`: a datagram is dropped; for a stream, the session is closed and every request
in its queue dropped. -/
def breakQuery (s : DeferState) (ctx : DeferCtx) : DeferState :=
  let sess := s.sessions ctx.session
  if sess.stream then
    let s := { s with waitingRequestsSize := s.waitingRequestsSize - sess.size }
    { s.setSession ctx.session { sess with closing := true, queue := [] } with
      waitingRequestsSize := breakSessionQueue s.waitingRequestsSize sess.queue }
  else { s with waitingRequestsSize := s.waitingRequestsSize - ctx.size }

/-- `process_single_deferred`, with `priority` what `classify` gives for a stream. -/
def processSingleDeferred (s : DeferState) (stamp : UInt64) (priority : ℕ) : DeferState :=
  match popQuery s stamp with
  | none => s
  | some (ctx, s) =>
    let sess := s.sessions ctx.session
    if sess.closing then breakQuery s ctx
    else if stamp - ctx.reqStamp ≥ reqTimeout then breakQuery s ctx
    else if sess.stream then
      if priority > s.queueIx then pushQuery s ctx priority false
      else
        -- the request leaves its session's queue, and EOF events behind it with it
        let q := sess.queue.tail.dropWhile Option.isNone
        let s := s.setSession ctx.session { sess with queue := q }
        let s := match q with
          | some next :: _ => pushQuery s next priority true
          | _ => { s with waitingRequestsSize := s.waitingRequestsSize - sess.size }
        { s with waitingRequestsSize := s.waitingRequestsSize - ctx.size }
    else { s with waitingRequestsSize := s.waitingRequestsSize - ctx.size }

/-- The loop of `cleanup_queues` over one queue: expired requests at its head are broken. The
fuel is the length of the queue, of which each round pops one. -/
def cleanupQueue (stamp : UInt64) (i : ℕ) : ℕ → DeferState → DeferState
  | 0, s => s
  | fuel + 1, s =>
    match s.queues i with
    | [] => s
    | ctx :: _ =>
      if stamp - ctx.reqStamp < reqTimeout then s
      else match popQueryQueue s i with
        | none => s
        | some (ctx, s) => cleanupQueue stamp i fuel (breakQuery s ctx)

/-- `cleanup_queues` -/
def cleanupQueues (s : DeferState) (stamp : UInt64) : DeferState :=
  (List.range queuesCnt).foldl (fun s i => cleanupQueue stamp i (s.queues i).length s) s

/-- `process_deferred_over_size_limit`: deferred requests are processed while their size is over
the limit, a round for each time stamp and priority `classify` gives, which bound the rounds. -/
def processDeferredOverSizeLimit (s : DeferState) : List (UInt64 × ℕ) → DeferState
  | [] => s
  | (stamp, priority) :: rounds =>
    if s.waitingRequestsSize > maxWaitingReqsSize then
      processDeferredOverSizeLimit (processSingleDeferred s stamp priority) rounds
    else s

/-- The loop of `defer_queues_idle`: a deferred request is processed, and more while requests
wait, a round for each time stamp and priority given before the idle timeout. -/
def processIdleRounds (s : DeferState) (stamp : UInt64) (priority : ℕ) :
    List (UInt64 × ℕ) → DeferState
  | [] => processSingleDeferred s stamp priority
  | (stamp', priority') :: rounds =>
    let s := processSingleDeferred s stamp priority
    if s.waitingRequests > 0 then processIdleRounds s stamp' priority' rounds else s

/-- `defer_queues_idle`, with `stamp` the time stamp at its end. -/
def deferQueuesIdle (s : DeferState) (stamp : UInt64) (first : UInt64 × ℕ)
    (rounds : List (UInt64 × ℕ)) : DeferState :=
  let s := if s.waitingRequests > 0 then
      cleanupQueues (processIdleRounds s first.1 first.2 rounds) stamp
    else s
  if s.waitingRequests > 0 then s else phaseReset s stamp .none

/-! ## The layer's callbacks -/

/-- What `pl_defer_unwrap` learns of a new request from outside the layer: its context and
session, the priority `classify` gives it, and the size estimates of `session2.c`
(`protolayer_iter_size_est` without the payload, the payload, `protolayer_sess_size_est`). -/
structure Arrival where
  id : ℕ
  session : ℕ
  priority : ℕ
  iterSize : ℕ
  payloadSize : ℕ
  sessSize : ℕ

/-- The deferring part of `pl_defer_unwrap`. -/
def deferArrival (s : DeferState) (stamp : UInt64) (a : Arrival) : DeferState :=
  let sess := s.sessions a.session
  -- for a stream, the payload is counted in the session's wire buffer
  let size := if sess.stream then a.iterSize else a.iterSize + a.payloadSize
  let ctx : DeferCtx := ⟨a.id, a.session, stamp, size⟩
  -- a stream's request opens its session's queue, and the session's size is counted
  let s := if sess.stream then
      let s := s.setSession a.session { sess with queue := sess.queue ++ [some ctx], size := a.sessSize }
      { s with waitingRequestsSize := s.waitingRequestsSize + a.sessSize }
    else s
  let s := pushQuery s ctx a.priority false
  { s with waitingRequestsSize := s.waitingRequestsSize + size }

/-- `pl_defer_unwrap`: whether the request goes on at once, and the state it leaves; a deferred
request is followed by the rounds of `process_deferred_over_size_limit`. -/
def plDeferUnwrap (s : DeferState) (stamp : UInt64) (a : Arrival) (rounds : List (UInt64 × ℕ)) :
    Bool × DeferState :=
  let sess := s.sessions a.session
  if sess.queue ≠ [] then
    -- a stream with a preceding packet already deferred: a follow-up
    let ctx : DeferCtx := ⟨a.id, a.session, stamp, a.iterSize⟩
    let s := { s.setSession a.session { sess with queue := sess.queue ++ [some ctx] } with
      waitingRequestsSize := s.waitingRequestsSize + ctx.size }
    (false, processDeferredOverSizeLimit s rounds)
  else
    -- processed at once unless requests may wait that come first
    let r := if (a.priority = 0 ∨ a.priority = priorityUdp) ∧ s.queues a.priority = [] then
        phaseTrySet s stamp (if a.priority = priorityUdp then .udp else .nonUdp)
      else (false, s)
    if r.1 then (true, r.2)
    else (false, processDeferredOverSizeLimit (deferArrival r.2 stamp a) rounds)

/-- `pl_defer_event_unwrap` for an EOF event: deferred behind the data of its stream. -/
def plDeferEventUnwrapEof (s : DeferState) (n : ℕ) : DeferState :=
  let sess := s.sessions n
  if sess.stream ∧ sess.queue ≠ [] then s.setSession n { sess with queue := sess.queue ++ [none] }
  else s

/-- A session starts closing, from outside the layer. -/
def DeferState.closeSession (s : DeferState) (n : ℕ) : DeferState :=
  s.setSession n { s.sessions n with closing := true }

/-! ## Runs -/

/-- A request context not yet known to the layer. -/
def Arrival.Fresh (a : Arrival) (s : DeferState) : Prop :=
  (∀ i, ∀ ctx ∈ s.queues i, ctx.id ≠ a.id) ∧
    ∀ n, ∀ ctx, some ctx ∈ (s.sessions n).queue → ctx.id ≠ a.id

/-- An arrival as `classify` and `session2.c` give it: a stream's priority below the UDP one, a
datagram's the UDP one, and sizes of the allocated structures, which are positive. -/
def Arrival.Valid (a : Arrival) (s : DeferState) : Prop :=
  (if (s.sessions a.session).stream then a.priority < priorityUdp else a.priority = priorityUdp) ∧
    0 < a.iterSize ∧ 0 < a.sessSize

/-- The steps of a run: the layer's callbacks on the events they handle, with the priorities
`classify` gives a stream below the UDP one; the processing of one deferred request, the cleanup
of expired requests and the phase reset of `defer_queues_idle` as steps of their own, of which a
whole idle callback is a run; and a session that starts closing. -/
inductive DeferStep : DeferState → DeferState → Prop
  | unwrap {s : DeferState} (stamp : UInt64) (a : Arrival) (rounds : List (UInt64 × ℕ)) :
      a.Fresh s → a.Valid s → (∀ r ∈ rounds, r.2 < priorityUdp) →
      DeferStep s (plDeferUnwrap s stamp a rounds).2
  | eof {s : DeferState} (n : ℕ) : DeferStep s (plDeferEventUnwrapEof s n)
  | process {s : DeferState} (stamp : UInt64) (priority : ℕ) :
      priority < priorityUdp → DeferStep s (processSingleDeferred s stamp priority)
  | cleanup {s : DeferState} (stamp : UInt64) : DeferStep s (cleanupQueues s stamp)
  | idleStop {s : DeferState} (stamp : UInt64) :
      s.waitingRequests ≤ 0 → DeferStep s (phaseReset s stamp .none)
  | close {s : DeferState} (n : ℕ) : DeferStep s (s.closeSession n)

/-! ## What waits -/

/-- The requests in the priority queues. -/
def queued (s : DeferState) : Multiset DeferCtx :=
  ∑ i ∈ Finset.range queuesCnt, (s.queues i : Multiset DeferCtx)

section Queued

variable {s s' : DeferState} {c : DeferCtx}

theorem mem_queued : c ∈ queued s ↔ ∃ i < queuesCnt, c ∈ s.queues i := by
  simp [queued, Multiset.mem_sum]

theorem card_queued (s : DeferState) :
    Multiset.card (queued s) = ∑ i ∈ Finset.range queuesCnt, (s.queues i).length := by
  simp [queued, Multiset.card_sum]

theorem count_queued (s : DeferState) (c : DeferCtx) :
    (queued s).count c = ∑ i ∈ Finset.range queuesCnt, (s.queues i).count c := by
  simp [queued, Multiset.count_sum']

theorem queued_congr (h : ∀ i < queuesCnt, s'.queues i = s.queues i) : queued s' = queued s :=
  Finset.sum_congr rfl fun i hi => by rw [h i (Finset.mem_range.mp hi)]

theorem mem_queued_of_mem (hout : ∀ i, queuesCnt ≤ i → s.queues i = []) {i : ℕ}
    (hc : c ∈ s.queues i) : c ∈ queued s := by
  refine mem_queued.mpr ⟨i, ?_, hc⟩
  by_contra hi
  rw [hout i (by omega)] at hc
  cases hc

/-- Changing one queue changes the queued requests by as much. -/
theorem queued_update {p : ℕ} {l : List DeferCtx} (hp : p < queuesCnt)
    (h : s'.queues = Function.update s.queues p l) :
    queued s' + (s.queues p : Multiset DeferCtx) = queued s + (l : Multiset DeferCtx) := by
  have hmem := Finset.mem_range.mpr hp
  have hrest : ∀ i ∈ (Finset.range queuesCnt).erase p,
      (s'.queues i : Multiset DeferCtx) = s.queues i := by
    intro i hi
    rw [h, Function.update_of_ne (Finset.ne_of_mem_erase hi)]
  unfold queued
  rw [← Finset.add_sum_erase _ _ hmem, ← Finset.add_sum_erase _ _ hmem, Finset.sum_congr rfl hrest, h,
    Function.update_self, add_comm _ (s.queues p : Multiset DeferCtx), add_comm (l : Multiset DeferCtx),
    add_assoc]

end Queued

/-- The sizes of the requests in a session's queue. -/
def queueSize (q : List (Option DeferCtx)) : ℕ := ((q.filterMap id).map DeferCtx.size).sum

/-- What a request in a priority queue accounts for in `waiting_requests_size`: a datagram its
own size; the head of a stream its session's size and the sizes of all requests in the session's
queue. -/
def weight (s : DeferState) (c : DeferCtx) : ℕ :=
  let sess := s.sessions c.session
  if sess.stream then sess.size + queueSize sess.queue else c.size

section QueueSize

variable (q : List (Option DeferCtx)) (c : DeferCtx)

@[simp] theorem queueSize_nil : queueSize [] = 0 := rfl

@[simp] theorem queueSize_cons_none : queueSize (none :: q) = queueSize q := rfl

@[simp] theorem queueSize_cons_some : queueSize (some c :: q) = c.size + queueSize q := by
  simp [queueSize]

@[simp] theorem queueSize_append : ∀ q' : List (Option DeferCtx),
    queueSize (q ++ q') = queueSize q + queueSize q' := by
  induction q with
  | nil => simp
  | cons x q ih =>
    intro q'
    cases x <;> simp [ih, Nat.add_assoc]

/-- EOF markers count nothing. -/
theorem queueSize_dropWhile_isNone : queueSize (q.dropWhile Option.isNone) = queueSize q := by
  induction q with
  | nil => rfl
  | cons x q ih => cases x <;> simp [ih]

/-- The queue left after its head and the EOF markers behind it starts with a request. -/
theorem dropWhile_isNone_ne_none_cons (r : List (Option DeferCtx)) :
    q.dropWhile Option.isNone ≠ none :: r := by
  induction q with
  | nil => simp
  | cons x q ih => cases x <;> simp [ih]

theorem breakSessionQueue_eq (size : ℤ) : breakSessionQueue size q = size - queueSize q := by
  induction q generalizing size with
  | nil => simp [breakSessionQueue]
  | cons x q ih =>
    cases x with
    | none => simp [breakSessionQueue, ih]
    | some c =>
      simp only [breakSessionQueue, ih, queueSize_cons_some, Int.natCast_add]
      omega

end QueueSize

/-! ## The invariant -/

/-- A stream session's queue with head `c`: a request of the session that waits once in the
priority queues, followed by requests of the session that wait in none, all distinct. -/
structure HeadOk (s : DeferState) (n : ℕ) (c : DeferCtx) (rest : List (Option DeferCtx)) :
    Prop where
  stream : (s.sessions n).stream = true
  size_pos : 0 < (s.sessions n).size
  session : c.session = n
  count_head : (queued s).count c = 1
  follow : ∀ c', some c' ∈ rest → c'.session = n ∧ (queued s).count c' = 0
  nodup : ((some c :: rest).filterMap id).Nodup

/-- A session's head keeps its standing where its session is the same and its requests are
queued as often as before. -/
theorem HeadOk.transport {s s' : DeferState} {n : ℕ} {c : DeferCtx} {rest : List (Option DeferCtx)}
    (h : HeadOk s n c rest)
    (hsess : s'.sessions n = s.sessions n)
    (hcount : ∀ x, some x ∈ some c :: rest → (queued s').count x = (queued s).count x) :
    HeadOk s' n c rest where
  stream := hsess ▸ h.stream
  size_pos := hsess ▸ h.size_pos
  session := h.session
  count_head := (hcount c List.mem_cons_self).trans h.count_head
  follow c' hc' := by
    rw [hcount c' (List.mem_cons_of_mem _ hc')]
    exact h.follow c' hc'
  nodup := h.nodup

/-- The requests of a session's queue are of that session. -/
theorem HeadOk.session_of_mem {s : DeferState} {n : ℕ} {c y : DeferCtx}
    {rest : List (Option DeferCtx)} (h : HeadOk s n c rest) (hy : some y ∈ some c :: rest) :
    y.session = n := by
  rcases List.mem_cons.mp hy with hy | hy
  · cases hy
    exact h.session
  · exact (h.follow y hy).1

/-- The invariant of the scheduler. -/
structure DeferInv (s : DeferState) : Prop where
  outside : ∀ i, queuesCnt ≤ i → s.queues i = []
  queueIx_le : s.queueIx ≤ queuesCnt
  below : ∀ i < s.queueIx, s.queues i = []
  waiting : s.waitingRequests = Multiset.card (queued s)
  placed : ∀ i, ∀ c ∈ s.queues i, ((s.sessions c.session).stream = true ↔ i ≠ priorityUdp)
  head : ∀ c ∈ queued s, (s.sessions c.session).stream = true →
    ∃ rest, (s.sessions c.session).queue = some c :: rest
  notEof : ∀ n rest, (s.sessions n).queue ≠ none :: rest
  heads : ∀ n c rest, (s.sessions n).queue = some c :: rest → HeadOk s n c rest
  size : s.waitingRequestsSize = ((queued s).map (weight s)).sum
  udpPos : ∀ c ∈ queued s, (s.sessions c.session).stream = false → 0 < c.size

theorem deferInv_deferInit (sessions : ℕ → DeferSession) (h : ∀ n, (sessions n).queue = []) :
    DeferInv (deferInit sessions) := by
  have hq : queued (deferInit sessions) = 0 := by simp [queued, deferInit]
  refine ⟨fun _ _ => rfl, le_rfl, fun _ _ => rfl, by rw [hq]; rfl, ?_, ?_, ?_, ?_,
    by rw [hq]; rfl, ?_⟩
  · intro i c hc
    simp [deferInit] at hc
  · intro c hc
    simp [hq] at hc
  · intro n rest
    simp [deferInit, h n]
  · intro n c rest hn
    simp [deferInit, h n] at hn
  · intro c hc
    simp [hq] at hc

section Frame

variable {s t u : DeferState}

/-- `t` is `s` with at most the phase and its times changed. -/
structure PhaseOnly (s t : DeferState) : Prop where
  queues : t.queues = s.queues
  queueIx : t.queueIx = s.queueIx
  waiting : t.waitingRequests = s.waitingRequests
  size : t.waitingRequestsSize = s.waitingRequestsSize
  sessions : t.sessions = s.sessions

theorem PhaseOnly.refl (s : DeferState) : PhaseOnly s s := ⟨rfl, rfl, rfl, rfl, rfl⟩

theorem PhaseOnly.trans (h1 : PhaseOnly s t) (h2 : PhaseOnly t u) : PhaseOnly s u :=
  ⟨h2.queues.trans h1.queues, h2.queueIx.trans h1.queueIx, h2.waiting.trans h1.waiting,
    h2.size.trans h1.size, h2.sessions.trans h1.sessions⟩

theorem phaseOnly_phaseReset (stamp : UInt64) (p : Phase) : PhaseOnly s (phaseReset s stamp p) :=
  ⟨rfl, rfl, rfl, rfl, rfl⟩

theorem phaseOnly_phaseTrySet (stamp : UInt64) (p : Phase) :
    PhaseOnly s (phaseTrySet s stamp p).2 := by
  unfold phaseTrySet
  dsimp only
  split_ifs <;> exact ⟨rfl, rfl, rfl, rfl, rfl⟩

theorem phaseTrySet_phase (stamp : UInt64) (p : Phase) (h : (phaseTrySet s stamp p).1 = true) :
    (phaseTrySet s stamp p).2.phase = p := by
  unfold phaseTrySet at h ⊢
  dsimp only at h ⊢
  split_ifs at h ⊢ <;> rfl

/-- The invariant reads only the queues, `queue_ix`, the counters and the sessions. -/
theorem DeferInv.of_phaseOnly (h : DeferInv s) (ht : PhaseOnly s t) : DeferInv t := by
  have hqd : queued t = queued s := by simp [queued, ht.queues]
  have hwt : weight t = weight s := by
    funext c
    simp [weight, ht.sessions]
  refine ⟨?_, ?_, ?_, ?_, ?_, ?_, ?_, ?_, ?_, ?_⟩
  · rw [ht.queues]; exact h.outside
  · rw [ht.queueIx]; exact h.queueIx_le
  · rw [ht.queueIx, ht.queues]; exact h.below
  · rw [ht.waiting, hqd]; exact h.waiting
  · rw [ht.queues, ht.sessions]; exact h.placed
  · rw [hqd, ht.sessions]; exact h.head
  · rw [ht.sessions]; exact h.notEof
  · intro n c rest hn
    rw [ht.sessions] at hn
    exact (h.heads n c rest hn).transport (by rw [ht.sessions]) fun x _ => by rw [hqd]
  · rw [ht.size, hqd, hwt]; exact h.size
  · rw [hqd, ht.sessions]; exact h.udpPos

end Frame

/-! ## Pushing and popping -/

section PushPop

variable {s s' : DeferState} {c : DeferCtx}

/-- `push_query` adds the request to what waits. -/
theorem queued_pushQuery {p : ℕ} (hp : p < queuesCnt) (b : Bool) :
    queued (pushQuery s c p b) = c ::ₘ queued s := by
  have h := @queued_update s (pushQuery s c p b) p _ hp rfl
  have hl : ((if b then c :: s.queues p else s.queues p ++ [c] : List DeferCtx) : Multiset DeferCtx) =
      c ::ₘ (s.queues p : Multiset DeferCtx) := by
    cases b
    · simp [← Multiset.coe_add, add_comm]
    · simp
  rw [hl, Multiset.add_cons, ← Multiset.cons_add] at h
  exact add_right_cancel h

/-- `push_query` into a real queue keeps the queues beyond the last one and those below
`queue_ix` empty. -/
theorem pushQuery_queuesOk (hout : ∀ i, queuesCnt ≤ i → s.queues i = [])
    (hle : s.queueIx ≤ queuesCnt) (hbelow : ∀ i < s.queueIx, s.queues i = []) {p : ℕ}
    (hp : p < queuesCnt) (b : Bool) :
    (∀ i, queuesCnt ≤ i → (pushQuery s c p b).queues i = []) ∧
      (pushQuery s c p b).queueIx ≤ queuesCnt ∧
      ∀ i < (pushQuery s c p b).queueIx, (pushQuery s c p b).queues i = [] := by
  refine ⟨fun i hi => ?_, (min_le_left _ _).trans hle, fun i hi => ?_⟩
  · have hne : i ≠ p := by omega
    simp [pushQuery, Function.update_of_ne hne, hout i hi]
  · have hi' : i < s.queueIx ∧ i < p := by simpa [pushQuery] using hi
    have hne : i ≠ p := by omega
    simp [pushQuery, Function.update_of_ne hne, hbelow i hi'.1]

theorem mem_pushQuery {p i : ℕ} {b : Bool} {x : DeferCtx} (hx : x ∈ (pushQuery s c p b).queues i) :
    (i = p ∧ x = c) ∨ x ∈ s.queues i := by
  by_cases hi : i = p
  · subst hi
    cases b <;> simp [pushQuery] at hx <;> tauto
  · right
    simpa [pushQuery, Function.update_of_ne hi] using hx

theorem popQueryQueue_eq_some {p : ℕ} (h : popQueryQueue s p = some (c, s')) :
    ∃ rest, s.queues p = c :: rest ∧ 0 ≤ s.waitingRequests - 1 ∧
      s' = { s with
        queues := Function.update s.queues p rest
        waitingRequests := s.waitingRequests - 1 } := by
  unfold popQueryQueue at h
  split at h
  · cases h
  · rename_i ctx rest hq
    split at h
    · cases h
    · rename_i hw
      cases h
      exact ⟨rest, hq, by omega, rfl⟩

end PushPop

/-- `s'` is `s` with `c` taken out of a priority queue, and nothing else changed but the phase
and a `queue_ix` moved past empty queues: what `pop_query` leaves before the request is
handled. -/
structure Popped (s : DeferState) (c : DeferCtx) (s' : DeferState) : Prop where
  queued_eq : queued s = c ::ₘ queued s'
  waiting : s'.waitingRequests = s.waitingRequests - 1
  sessions : s'.sessions = s.sessions
  size : s'.waitingRequestsSize = s.waitingRequestsSize
  outside : ∀ i, queuesCnt ≤ i → s'.queues i = []
  queueIx_le : s'.queueIx ≤ queuesCnt
  below : ∀ i < s'.queueIx, s'.queues i = []
  sub : ∀ i, ∀ x ∈ s'.queues i, x ∈ s.queues i

section Popped

variable {s s' : DeferState} {c : DeferCtx}

theorem DeferInv.popped_of_popQueryQueue (h : DeferInv s) {p : ℕ}
    (hpop : popQueryQueue s p = some (c, s')) : Popped s c s' := by
  obtain ⟨rest, hq, -, hs'⟩ := popQueryQueue_eq_some hpop
  -- the queue popped from is a real one, at or above queue_ix
  have hp : p < queuesCnt := by
    by_contra hp
    rw [h.outside p (by omega)] at hq
    cases hq
  have hix : s.queueIx ≤ p := by
    by_contra hix
    rw [h.below p (by omega)] at hq
    cases hq
  have hqd := @queued_update s s' p rest hp (by rw [hs'])
  rw [hq, ← Multiset.cons_coe, Multiset.add_cons, ← Multiset.cons_add] at hqd
  subst hs'
  refine ⟨(add_right_cancel hqd).symm, rfl, rfl, rfl, ?_, h.queueIx_le, ?_, ?_⟩
  · intro i hi
    have hne : i ≠ p := by omega
    simp [Function.update_of_ne hne, h.outside i hi]
  · intro i hi
    have hi' : i < s.queueIx := hi
    have hne : i ≠ p := by omega
    simp [Function.update_of_ne hne, h.below i hi']
  · intro i x hx
    by_cases hi : i = p
    · subst hi
      simp only [Function.update_self] at hx
      rw [hq]
      exact List.mem_cons_of_mem _ hx
    · simpa [Function.update_of_ne hi] using hx

theorem Popped.mem (hp : Popped s c s') : c ∈ queued s := by
  rw [hp.queued_eq]
  exact Multiset.mem_cons_self _ _

theorem Popped.mem_of_mem (hp : Popped s c s') {x : DeferCtx} (hx : x ∈ queued s') :
    x ∈ queued s := by
  rw [hp.queued_eq]
  exact Multiset.mem_cons_of_mem hx

theorem Popped.count_of_ne (hp : Popped s c s') {x : DeferCtx} (hx : x ≠ c) :
    (queued s').count x = (queued s).count x := by
  rw [hp.queued_eq, Multiset.count_cons_of_ne hx]

/-- Once the head of a stream is out of the queues, no request of its session is queued. -/
theorem Popped.session_ne (h : DeferInv s) (hp : Popped s c s')
    (hc : (s.sessions c.session).stream = true) {x : DeferCtx} (hx : x ∈ queued s')
    (hxs : (s.sessions x.session).stream = true) : x.session ≠ c.session := by
  intro hsess
  obtain ⟨r, hr⟩ := h.head c hp.mem hc
  obtain ⟨r', hr'⟩ := h.head x (hp.mem_of_mem hx) hxs
  rw [hsess, hr] at hr'
  have hxc : x = c := (Option.some.inj (List.cons.inj hr').1).symm
  have hcount := (h.heads c.session c r hr).count_head
  rw [hp.queued_eq, Multiset.count_cons_self] at hcount
  have hzero : (queued s').count c = 0 := by omega
  exact Multiset.count_eq_zero.mp hzero (hxc ▸ hx)

theorem Popped.waiting_card (h : DeferInv s) (hp : Popped s c s') :
    s'.waitingRequests = Multiset.card (queued s') := by
  have hcard := congrArg Multiset.card hp.queued_eq
  rw [Multiset.card_cons] at hcard
  rw [hp.waiting, h.waiting, hcard]
  omega

theorem Popped.sum_weight (hp : Popped s c s') (w : DeferCtx → ℕ) :
    ((queued s).map w).sum = w c + ((queued s').map w).sum := by
  rw [hp.queued_eq, Multiset.map_cons, Multiset.sum_cons]

/-- Once the head of a stream is out of the queues, no queued request is of its session. -/
theorem Popped.session_ne_of_stream (h : DeferInv s) (hp : Popped s c s')
    (hc : (s.sessions c.session).stream = true) {x : DeferCtx} (hx : x ∈ queued s') :
    x.session ≠ c.session := by
  by_cases hxs : (s.sessions x.session).stream = true
  · exact hp.session_ne h hc hx hxs
  · intro heq
    rw [heq] at hxs
    exact hxs hc

end Popped

/-! ## The choice of a queue -/

section Scan

variable {queues : ℕ → List DeferCtx} {ix i : ℕ}

theorem le_scanQueueIx : ix ≤ scanQueueIx queues ix := by
  fun_induction scanQueueIx queues ix with
  | case1 ix _ ih => omega
  | case2 ix _ => exact le_rfl

theorem scanQueueIx_le (hix : ix ≤ queuesCnt) : scanQueueIx queues ix ≤ queuesCnt := by
  fun_induction scanQueueIx queues ix with
  | case1 ix h ih => exact ih (by omega)
  | case2 ix _ => exact hix

/-- The queues the scan moves past are empty. -/
theorem eq_nil_of_lt_scanQueueIx (hi : ix ≤ i) (hlt : i < scanQueueIx queues ix) :
    queues i = [] := by
  fun_induction scanQueueIx queues ix with
  | case1 ix h ih =>
    by_cases hix : i = ix
    · subst hix
      exact h.2
    · exact ih (by omega) hlt
  | case2 ix _ => omega

/-- The scan stops at a non-empty queue, unless it runs past the last one. -/
theorem scanQueueIx_ne_nil (hlt : scanQueueIx queues ix < queuesCnt) :
    queues (scanQueueIx queues ix) ≠ [] := by
  fun_induction scanQueueIx queues ix with
  | case1 ix _ ih => exact ih hlt
  | case2 ix h =>
    intro hnil
    exact h ⟨hlt, hnil⟩

/-- The scan stops at or before any non-empty queue at or above where it starts. -/
theorem scanQueueIx_le_of_ne_nil (hi : ix ≤ i) (hne : queues i ≠ []) : scanQueueIx queues ix ≤ i := by
  by_contra hlt
  exact hne (eq_nil_of_lt_scanQueueIx hi (by omega))

end Scan

section Pop

variable {s t s' : DeferState} {c : DeferCtx}

/-- Moving `queue_ix` past empty queues keeps the invariant. -/
theorem DeferInv.scan (h : DeferInv s) :
    DeferInv { s with queueIx := scanQueueIx s.queues s.queueIx } :=
  { h with
    queueIx_le := scanQueueIx_le h.queueIx_le
    below := fun i hi => by
      by_cases hix : i < s.queueIx
      · exact h.below i hix
      · exact eq_nil_of_lt_scanQueueIx (by omega) hi
    heads := fun n c rest hn => (h.heads n c rest hn).transport rfl fun _ _ => rfl }

/-- What is popped from a state with the queues, counters and sessions of `s` is popped from
`s`. -/
theorem Popped.of_same (hp : Popped t c s') (hq : t.queues = s.queues)
    (hw : t.waitingRequests = s.waitingRequests) (hsize : t.waitingRequestsSize = s.waitingRequestsSize)
    (hsess : t.sessions = s.sessions) : Popped s c s' := by
  have hqd : queued t = queued s := by simp [queued, hq]
  exact ⟨hqd ▸ hp.queued_eq, hw ▸ hp.waiting, hsess ▸ hp.sessions, hsize ▸ hp.size, hp.outside,
    hp.queueIx_le, hp.below, fun i x hx => hq ▸ hp.sub i x hx⟩

theorem popQueryQueue_isSome {p : ℕ} (hne : s.queues p ≠ []) (hw : 0 < s.waitingRequests) :
    (popQueryQueue s p).isSome := by
  unfold popQueryQueue
  split
  · contradiction
  · rw [if_neg (by omega)]
    rfl

/-- `pop_query` first chooses a phase, which changes nothing but the phase and its times, and
then pops: in the non-UDP phase, which it chooses only while non-UDP requests wait, from the
first non-empty queue at or above `queue_ix`; else from the UDP queue, which it chooses only
while requests wait there or none wait at all. -/
theorem popQuery_eq (s : DeferState) (stamp : UInt64) :
    ∃ t, PhaseOnly s t ∧
      (t.phase = .nonUdp → 0 < s.waitingRequests - (s.queues priorityUdp).length) ∧
      (t.phase ≠ .nonUdp → 0 < s.waitingRequests → s.queues priorityUdp ≠ []) ∧
      popQuery s stamp = if t.phase = .nonUdp then
        (if scanQueueIx t.queues t.queueIx < priorityUdp then
          popQueryQueue { t with queueIx := scanQueueIx t.queues t.queueIx }
            (scanQueueIx t.queues t.queueIx)
        else none)
      else popQueryQueue t priorityUdp := by
  set wUdp : ℤ := ((s.queues priorityUdp).length : ℤ) with hwUdp
  -- the non-UDP phase is tried first, while non-UDP requests wait
  set r1 := if s.waitingRequests - wUdp > 0 then phaseTrySet s stamp .nonUdp else (false, s)
    with hr1
  have h1 : PhaseOnly s r1.2 ∧ (r1.1 = true → r1.2.phase = .nonUdp ∧ 0 < s.waitingRequests - wUdp) := by
    rw [hr1]
    split_ifs with hw
    · exact ⟨phaseOnly_phaseTrySet stamp _, fun h => ⟨phaseTrySet_phase stamp _ h, hw⟩⟩
    · exact ⟨PhaseOnly.refl s, fun h => by cases h⟩
  -- then the UDP phase, while UDP requests wait
  set r2 := if !r1.1 && wUdp > 0 then phaseTrySet r1.2 stamp .udp else (false, r1.2) with hr2
  have h2 : PhaseOnly s r2.2 ∧ (r2.1 = true → r2.2.phase = .udp ∧ 0 < wUdp) := by
    rw [hr2]
    split_ifs with hw
    · exact ⟨h1.1.trans (phaseOnly_phaseTrySet stamp _),
        fun h => ⟨phaseTrySet_phase stamp _ h, by simp at hw; exact hw.2⟩⟩
    · exact ⟨h1.1, fun h => by cases h⟩
  -- and if neither may go on, both are reset
  set pr : Phase := if s.waitingRequests - wUdp > 0 then .nonUdp else .udp with hpr
  set t := if !r1.1 && !r2.1 then phaseReset r2.2 stamp pr else r2.2 with ht
  -- the phase chosen, and what waits for it
  have hph : (t.phase = .nonUdp → 0 < s.waitingRequests - wUdp) ∧
      (t.phase ≠ .nonUdp → 0 < s.waitingRequests → 0 < wUdp) := by
    by_cases hboth : (!r1.1 && !r2.1) = true
    · rw [ht, if_pos hboth]
      show (pr = .nonUdp → _) ∧ (pr ≠ .nonUdp → _)
      rw [hpr]
      split_ifs with hw
      · exact ⟨fun _ => hw, fun h => absurd rfl h⟩
      · exact ⟨(fun h => nomatch h), fun _ _ => by omega⟩
    · rw [ht, if_neg hboth]
      cases hr : r1.1
      · have hr' : r2.1 = true := by simpa [hr] using hboth
        rw [(h2.2 hr').1]
        exact ⟨(fun h => nomatch h), fun _ _ => (h2.2 hr').2⟩
      · have hr2' : r2 = (false, r1.2) := by rw [hr2, hr]; rfl
        rw [hr2']
        dsimp only
        rw [(h1.2 hr).1]
        exact ⟨fun _ => (h1.2 hr).2, fun h => absurd rfl h⟩
  refine ⟨t, ?_, hph.1, fun hne hpos hnil => ?_, rfl⟩
  · rw [ht]
    split_ifs
    · exact h2.1.trans (phaseOnly_phaseReset stamp _)
    · exact h2.1
  · have hudp := hph.2 hne hpos
    rw [hwUdp, hnil] at hudp
    simp at hudp

/-- What `pop_query` returns has been taken out of a queue. -/
theorem DeferInv.popped_of_popQuery (h : DeferInv s) {stamp : UInt64}
    (hpop : popQuery s stamp = some (c, s')) : Popped s c s' := by
  obtain ⟨t, ht, -, -, heq⟩ := popQuery_eq s stamp
  have htinv := h.of_phaseOnly ht
  rw [heq] at hpop
  split_ifs at hpop
  · exact (htinv.scan.popped_of_popQueryQueue hpop).of_same ht.queues ht.waiting ht.size
      ht.sessions
  · exact (htinv.popped_of_popQueryQueue hpop).of_same ht.queues ht.waiting ht.size ht.sessions

/-- While requests wait, a non-UDP queue is non-empty if the UDP queue holds fewer. -/
theorem DeferInv.exists_ne_nil (h : DeferInv s)
    (hw : 0 < s.waitingRequests - (s.queues priorityUdp).length) :
    ∃ i < priorityUdp, s.queues i ≠ [] := by
  by_contra hex
  have hall : ∀ i < priorityUdp, s.queues i = [] := fun i hi => by
    by_contra hne
    exact hex ⟨i, hi, hne⟩
  have hsum : ∑ i ∈ Finset.range priorityUdp, (s.queues i).length = 0 :=
    Finset.sum_eq_zero fun i hi => by rw [hall i (Finset.mem_range.mp hi), List.length_nil]
  have hcnt : queuesCnt = priorityUdp + 1 := rfl
  have hcard := card_queued s
  rw [hcnt, Finset.sum_range_succ, hsum, Nat.zero_add] at hcard
  rw [h.waiting, hcard] at hw
  omega

/-- `pop_query` does not fail its assertions while requests wait. -/
theorem DeferInv.popQuery_isSome (h : DeferInv s) (stamp : UInt64) (hw : 0 < s.waitingRequests) :
    (popQuery s stamp).isSome := by
  obtain ⟨t, ht, hnon, hudp, heq⟩ := popQuery_eq s stamp
  rw [heq]
  split_ifs with hph hscan
  · -- the scan stops at a non-empty non-UDP queue
    refine popQueryQueue_isSome ?_ (by rw [ht.waiting]; exact hw)
    exact scanQueueIx_ne_nil (by unfold priorityUdp at hscan; omega)
  · obtain ⟨i, hi, hne⟩ := h.exists_ne_nil (hnon hph)
    have hix : s.queueIx ≤ i := by
      by_contra hix
      exact hne (h.below i (by omega))
    rw [← ht.queues] at hne
    rw [← ht.queueIx] at hix
    exact absurd (scanQueueIx_le_of_ne_nil hix hne) (by omega)
  · refine popQueryQueue_isSome ?_ (by rw [ht.waiting]; exact hw)
    rw [ht.queues]
    exact hudp hph hw

end Pop

/-! ## Sessions -/

section Sessions

variable {s s' : DeferState} {n m : ℕ} {d : DeferSession}

@[simp] theorem sessions_setSession_self : (s.setSession n d).sessions n = d := by
  simp [DeferState.setSession]

theorem sessions_setSession_of_ne (h : m ≠ n) : (s.setSession n d).sessions m = s.sessions m := by
  simp [DeferState.setSession, h]

@[simp] theorem queues_setSession : (s.setSession n d).queues = s.queues := rfl

@[simp] theorem queueIx_setSession : (s.setSession n d).queueIx = s.queueIx := rfl

@[simp] theorem waitingRequests_setSession :
    (s.setSession n d).waitingRequests = s.waitingRequests := rfl

@[simp] theorem waitingRequestsSize_setSession :
    (s.setSession n d).waitingRequestsSize = s.waitingRequestsSize := rfl

@[simp] theorem queued_setSession : queued (s.setSession n d) = queued s := rfl

@[simp] theorem queued_withSize (z : ℤ) : queued { s with waitingRequestsSize := z } = queued s :=
  rfl

@[simp] theorem weight_withSize (z : ℤ) : weight { s with waitingRequestsSize := z } = weight s :=
  rfl

theorem weight_congr {x : DeferCtx} (h : s'.sessions x.session = s.sessions x.session) :
    weight s' x = weight s x := by
  simp [weight, h]

/-- Requests of sessions other than the changed ones keep their weights. -/
theorem sum_weight_congr {Q : Multiset DeferCtx}
    (h : ∀ x ∈ Q, s'.sessions x.session = s.sessions x.session) :
    (Q.map (weight s')).sum = (Q.map (weight s)).sum := by
  rw [Multiset.map_congr rfl fun x hx => weight_congr (h x hx)]

end Sessions

/-- `break_query` of a stream's request: the session closes and its queue is emptied. -/
theorem breakQuery_of_stream {s : DeferState} {c : DeferCtx}
    (hs : (s.sessions c.session).stream = true) :
    breakQuery s c = { s.setSession c.session
        { s.sessions c.session with closing := true, queue := [] } with
      waitingRequestsSize := s.waitingRequestsSize - (s.sessions c.session).size -
        queueSize (s.sessions c.session).queue } := by
  simp [breakQuery, hs, breakSessionQueue_eq, DeferState.setSession]

/-- `break_query` of a datagram. -/
theorem breakQuery_of_datagram {s : DeferState} {c : DeferCtx}
    (hs : (s.sessions c.session).stream = false) :
    breakQuery s c = { s with waitingRequestsSize := s.waitingRequestsSize - c.size } := by
  simp [breakQuery, hs]

/-! ## Opening a session's queue -/

/-- A request that waits nowhere, pushed as the head of a stream session of which nothing waits,
with the session's queue and size set: the session's weight joins the count. Deferring a stream's
first request, and handing a stream's head on to the next request, are instances. -/
theorem DeferInv.openSession {s : DeferState} {n : ℕ} (h : DeferInv s) {d : DeferSession} {x : DeferCtx}
    {r : List (Option DeferCtx)} (hnone : ∀ y ∈ queued s, y.session ≠ n)
    (hstream : d.stream = true) (hpos : 0 < d.size) (hd : d.queue = some x :: r)
    (hxs : x.session = n)
    (hfresh : ∀ y, some y ∈ d.queue → y.session = n ∧ (queued s).count y = 0)
    (hnodup : (d.queue.filterMap id).Nodup) {p : ℕ} (hp : p < priorityUdp) (b : Bool) {z : ℤ}
    (hz : z = s.waitingRequestsSize + d.size + queueSize d.queue) :
    DeferInv { pushQuery (s.setSession n d) x p b with waitingRequestsSize := z } := by
  have hlt : p < queuesCnt := by unfold priorityUdp at hp; omega
  set t := { pushQuery (s.setSession n d) x p b with waitingRequestsSize := z } with ht
  have hqd : queued t = x ::ₘ queued s := queued_pushQuery hlt b
  have hsess_n : t.sessions n = d := sessions_setSession_self
  have hsess_m : ∀ m, m ≠ n → t.sessions m = s.sessions m := fun m hm =>
    sessions_setSession_of_ne hm
  have hx_count : (queued s).count x = 0 := (hfresh x (by rw [hd]; exact List.mem_cons_self)).2
  have hcount : ∀ y, y ≠ x → (queued t).count y = (queued s).count y := fun y hy => by
    rw [hqd, Multiset.count_cons_of_ne hy]
  have hqok := pushQuery_queuesOk (s := s.setSession n d) (c := x) h.outside h.queueIx_le h.below
    hlt b
  refine ⟨hqok.1, hqok.2.1, hqok.2.2, ?_, ?_, ?_, ?_, ?_, ?_, ?_⟩
  · rw [hqd, Multiset.card_cons]
    show s.waitingRequests + 1 = _
    rw [h.waiting]
    omega
  · intro i y hy
    rcases mem_pushQuery hy with ⟨rfl, rfl⟩ | hy
    · rw [hxs, hsess_n, hstream]
      exact ⟨fun _ => by omega, fun _ => rfl⟩
    · have hyn := hnone y (mem_queued_of_mem h.outside hy)
      rw [hsess_m _ hyn]
      exact h.placed i y hy
  · intro y hy hys
    rw [hqd] at hy
    rcases Multiset.mem_cons.mp hy with rfl | hy
    · rw [hxs, hsess_n, hd]
      exact ⟨r, rfl⟩
    · rw [hsess_m _ (hnone y hy)] at hys ⊢
      exact h.head y hy hys
  · intro m r'
    by_cases hm : m = n
    · subst hm
      rw [hsess_n, hd]
      simp
    · rw [hsess_m m hm]
      exact h.notEof m r'
  · intro m y r' hm
    by_cases hmn : m = n
    · subst hmn
      rw [hsess_n, hd] at hm
      obtain ⟨rfl, rfl⟩ : x = y ∧ r = r' := by simpa using hm
      refine ⟨by rw [hsess_n]; exact hstream, by rw [hsess_n]; exact hpos, hxs, ?_, ?_, ?_⟩
      · rw [hqd, Multiset.count_cons_self, hx_count]
      · intro y' hy'
        have hy'd : some y' ∈ d.queue := by rw [hd]; exact List.mem_cons_of_mem _ hy'
        have hy'x : y' ≠ x := by
          rintro rfl
          rw [hd] at hnodup
          exact (List.nodup_cons.mp hnodup).1 (List.mem_filterMap.mpr ⟨some y', hy', rfl⟩)
        rw [hcount y' hy'x]
        exact hfresh y' hy'd
      · rw [← hd]
        exact hnodup
    · rw [hsess_m m hmn] at hm
      have hm' := h.heads m y r' hm
      refine hm'.transport (hsess_m m hmn) fun y' hy' => hcount y' ?_
      -- the requests of another session are not the new head
      rintro rfl
      exact hmn ((hm'.session_of_mem hy').symm.trans hxs)
  · -- the new head carries the session's weight
    have hwx : weight t x = d.size + queueSize d.queue := by
      simp [weight, hxs, hsess_n, hstream]
    have hcongr : ((queued s).map (weight t)).sum = ((queued s).map (weight s)).sum :=
      sum_weight_congr fun y hy => hsess_m _ (hnone y hy)
    show z = _
    rw [hqd, Multiset.map_cons, Multiset.sum_cons, hcongr, hwx, hz, h.size]
    omega
  · intro y hy hys
    rw [hqd] at hy
    rcases Multiset.mem_cons.mp hy with rfl | hy
    · rw [hxs, hsess_n, hstream] at hys
      cases hys
    · rw [hsess_m _ (hnone y hy)] at hys
      exact h.udpPos y hy hys

/-! ## Handling a popped request -/

section Handle

variable {s s' : DeferState} {c : DeferCtx}

/-- A popped datagram, dropped or handed on: only its size leaves the count. -/
theorem DeferInv.datagram_of_popped (h : DeferInv s) (hp : Popped s c s')
    (hs : (s.sessions c.session).stream = false) :
    DeferInv { s' with waitingRequestsSize := s'.waitingRequestsSize - c.size } := by
  have hwc : weight s c = c.size := by simp [weight, hs]
  have hwt : weight s' = weight s := by
    funext x
    exact weight_congr (by rw [hp.sessions])
  refine ⟨hp.outside, hp.queueIx_le, hp.below, ?_, ?_, ?_, ?_, ?_, ?_, ?_⟩
  · show s'.waitingRequests = (Multiset.card (queued s') : ℤ)
    exact hp.waiting_card h
  · intro i x hx
    simpa [hp.sessions] using h.placed i x (hp.sub i x hx)
  · intro x hx hxs
    simp only [queued_withSize] at hx
    simpa [hp.sessions] using h.head x (hp.mem_of_mem hx) (by simpa [hp.sessions] using hxs)
  · simpa [hp.sessions] using h.notEof
  · intro n x rest hn
    simp only [hp.sessions] at hn
    -- a datagram is no session's head
    have hne : ∀ y, some y ∈ some x :: rest → y ≠ c := by
      intro y hy hyc
      subst hyc
      have hhead := h.heads n x rest hn
      rw [hhead.session_of_mem hy] at hs
      exact Bool.false_ne_true (hs.symm.trans hhead.stream)
    exact (h.heads n x rest hn).transport (by simp [hp.sessions])
      fun y hy => hp.count_of_ne (hne y hy)
  · -- the datagram's weight is its size
    have hsum := hp.sum_weight (weight s)
    simp only [queued_withSize, weight_withSize, hwt, hp.size, h.size, hsum, hwc]
    omega
  · intro x hx hxs
    exact h.udpPos x (hp.mem_of_mem hx) (by simpa [hp.sessions] using hxs)

/-- A popped stream head whose session's queue is emptied, whatever else the session then
records: the head's weight leaves the count. -/
theorem DeferInv.clear_session_of_popped (h : DeferInv s) (hp : Popped s c s')
    (hs : (s.sessions c.session).stream = true) {d : DeferSession} (hd : d.queue = []) {z : ℤ}
    (hz : z + weight s c = s'.waitingRequestsSize) :
    DeferInv { s'.setSession c.session d with waitingRequestsSize := z } := by
  -- no request left in the queues is of the session
  have hne := fun x (hx : x ∈ queued s') => hp.session_ne_of_stream h hs hx
  have hsess : ∀ x ∈ queued s', (s'.setSession c.session d).sessions x.session =
      s.sessions x.session := fun x hx => by
    rw [sessions_setSession_of_ne (hne x hx), hp.sessions]
  refine ⟨hp.outside, hp.queueIx_le, hp.below, ?_, ?_, ?_, ?_, ?_, ?_, ?_⟩
  · show s'.waitingRequests = (Multiset.card (queued s') : ℤ)
    exact hp.waiting_card h
  · intro i x hx
    have hx' : x ∈ queued s' := mem_queued_of_mem hp.outside hx
    show ((s'.setSession c.session d).sessions x.session).stream = true ↔ i ≠ priorityUdp
    rw [hsess x hx']
    exact h.placed i x (hp.sub i x hx)
  · intro x hx hxs
    have hx' : x ∈ queued s' := hx
    simp only [hsess x hx'] at hxs ⊢
    exact h.head x (hp.mem_of_mem hx') hxs
  · intro m r
    by_cases hmn : m = c.session
    · subst hmn
      simp [hd]
    · simpa [sessions_setSession_of_ne hmn, hp.sessions] using h.notEof m r
  · intro m x r hm
    by_cases hmn : m = c.session
    · subst hmn
      simp [hd] at hm
    · simp only [sessions_setSession_of_ne hmn, hp.sessions] at hm
      have hm' := h.heads m x r hm
      refine hm'.transport (by simp [sessions_setSession_of_ne hmn, hp.sessions]) fun y hy => ?_
      -- the requests of another session are not the popped head
      have hys := hm'.session_of_mem hy
      exact hp.count_of_ne fun hyc => hmn (hys ▸ hyc ▸ rfl)
  · have hsum := hp.sum_weight (weight s)
    have hcongr := sum_weight_congr hsess
    simp only [queued_withSize, weight_withSize, queued_setSession, hcongr]
    rw [hp.size, h.size, hsum] at hz
    omega
  · intro x hx hxs
    have hx' : x ∈ queued s' := hx
    simp only [hsess x hx'] at hxs
    exact h.udpPos x (hp.mem_of_mem hx') hxs

/-- A popped stream request whose session is broken: the session's queue is emptied and its sizes
leave the count. -/
theorem DeferInv.stream_break_of_popped (h : DeferInv s) (hp : Popped s c s')
    (hs : (s.sessions c.session).stream = true) : DeferInv (breakQuery s' c) := by
  have hs' : (s'.sessions c.session).stream = true := by rw [hp.sessions]; exact hs
  have hwc : weight s c = (s.sessions c.session).size + queueSize (s.sessions c.session).queue := by
    simp [weight, hs]
  rw [breakQuery_of_stream hs', hp.sessions]
  apply h.clear_session_of_popped hp hs rfl
  rw [hwc, hp.size]
  omega

/-- `break_query` of a popped request keeps the invariant. -/
theorem DeferInv.breakQuery_of_popped (h : DeferInv s) (hp : Popped s c s') :
    DeferInv (breakQuery s' c) := by
  cases hs : (s.sessions c.session).stream
  · have hs' : (s'.sessions c.session).stream = false := by rw [hp.sessions]; exact hs
    rw [breakQuery_of_datagram hs']
    exact h.datagram_of_popped hp hs
  · exact h.stream_break_of_popped hp hs

/-- A popped stream request pushed back to a worse priority. -/
theorem DeferInv.repush_of_popped (h : DeferInv s) (hp : Popped s c s')
    (hs : (s.sessions c.session).stream = true) {priority : ℕ} (hprio : priority < priorityUdp) :
    DeferInv (pushQuery s' c priority false) := by
  have hlt : priority < queuesCnt := by unfold priorityUdp at hprio; omega
  have hqd : queued (pushQuery s' c priority false) = queued s := by
    rw [queued_pushQuery hlt, hp.queued_eq]
  have hsess : (pushQuery s' c priority false).sessions = s.sessions := hp.sessions
  have hwt : weight (pushQuery s' c priority false) = weight s := by
    funext x
    exact weight_congr (by rw [hsess])
  have hqok := pushQuery_queuesOk (c := c) hp.outside hp.queueIx_le hp.below hlt false
  refine ⟨hqok.1, hqok.2.1, hqok.2.2, ?_, ?_, ?_, ?_, ?_, ?_, ?_⟩
  · rw [hqd]
    show s'.waitingRequests + 1 = _
    rw [hp.waiting, h.waiting]
    omega
  · intro i x hx
    rw [hsess]
    rcases mem_pushQuery hx with ⟨rfl, rfl⟩ | hx
    · exact ⟨fun _ => by omega, fun _ => hs⟩
    · exact h.placed i x (hp.sub i x hx)
  · rw [hqd, hsess]
    exact h.head
  · rw [hsess]
    exact h.notEof
  · intro m x r hm
    rw [hsess] at hm
    exact (h.heads m x r hm).transport (by rw [hsess]) fun y _ => by rw [hqd]
  · rw [hwt, hqd]
    show s'.waitingRequestsSize = _
    rw [hp.size]
    exact h.size
  · rw [hqd, hsess]
    exact h.udpPos

/-- The head of a stream handed on, with the next request of its session pushed to the head end
of a queue: the next request becomes the head and carries the session's weight. -/
theorem DeferInv.advance_of_popped (h : DeferInv s) (hp : Popped s c s')
    (hs : (s.sessions c.session).stream = true) {priority : ℕ} (hprio : priority < priorityUdp)
    {next : DeferCtx} {r : List (Option DeferCtx)}
    (hq : (s.sessions c.session).queue.tail.dropWhile Option.isNone = some next :: r) {z : ℤ}
    (hz : z + c.size = s'.waitingRequestsSize) :
    DeferInv { pushQuery (s'.setSession c.session
        { s.sessions c.session with queue := some next :: r }) next priority true with
      waitingRequestsSize := z } := by
  obtain ⟨rest, hrest⟩ := h.head c hp.mem hs
  have hho := h.heads c.session c rest hrest
  rw [hrest, List.tail_cons] at hq
  -- the next request comes from the session's queue behind the head
  have hsub : (some next :: r).Sublist rest := hq ▸ List.dropWhile_sublist _
  have hwc : weight s c = (s.sessions c.session).size + (c.size + queueSize rest) := by
    simp [weight, hs, hrest]
  -- the session's queue is emptied, and then opened again with the next request at its head
  have hclear := h.clear_session_of_popped hp hs (d := { s.sessions c.session with queue := [] })
    rfl (z := s'.waitingRequestsSize - weight s c) (by omega)
  have hopen := hclear.openSession (n := c.session)
    (d := { s.sessions c.session with queue := some next :: r })
    (fun y hy => hp.session_ne_of_stream h hs hy) hs hho.size_pos rfl
    (hho.follow next (hsub.subset List.mem_cons_self)).1 (fun y hy => ?_)
    ((hsub.filterMap id).nodup (List.nodup_cons.mp hho.nodup).2) hprio true (z := z) ?_
  · have hstate : (s'.setSession c.session { s.sessions c.session with queue := [] }).setSession
        c.session { s.sessions c.session with queue := some next :: r } =
        s'.setSession c.session { s.sessions c.session with queue := some next :: r } := by
      simp [DeferState.setSession, Function.update_idem]
    simpa [DeferState.setSession, pushQuery, hstate] using hopen
  · -- what follows the head waits nowhere
    have hfollow := hho.follow y (hsub.subset hy)
    have hle : (queued s').count y ≤ (queued s).count y := by
      rw [hp.queued_eq]
      exact Multiset.count_le_of_le y (Multiset.le_cons_self _ c)
    show y.session = c.session ∧ (queued s').count y = 0
    exact ⟨hfollow.1, by omega⟩
  · -- the next request carries what is left of the session's weight
    have hnext : queueSize (some next :: r) = queueSize rest := by
      rw [← hq, queueSize_dropWhile_isNone]
    show z = s'.waitingRequestsSize - weight s c + (s.sessions c.session).size +
      queueSize (some next :: r)
    rw [hnext, hwc]
    omega

/-- The head of a stream handed on with nothing behind it in its session's queue: the session's
weight leaves the count. -/
theorem DeferInv.drain_of_popped (h : DeferInv s) (hp : Popped s c s')
    (hs : (s.sessions c.session).stream = true)
    (hq : (s.sessions c.session).queue.tail.dropWhile Option.isNone = []) :
    DeferInv { s'.setSession c.session { s.sessions c.session with queue := [] } with
      waitingRequestsSize := s'.waitingRequestsSize - (s.sessions c.session).size - c.size } := by
  obtain ⟨rest, hrest⟩ := h.head c hp.mem hs
  rw [hrest, List.tail_cons] at hq
  have hrest0 : queueSize rest = 0 := by
    rw [← queueSize_dropWhile_isNone rest, hq, queueSize_nil]
  have hwc : weight s c = (s.sessions c.session).size + c.size := by
    simp [weight, hs, hrest, hrest0]
  apply h.clear_session_of_popped hp hs rfl
  rw [hwc]
  omega

/-- `process_single_deferred` keeps the invariant: the popped request is broken, deferred again,
or handed on with the next request of its stream pushed in its place. -/
theorem DeferInv.processSingleDeferred (h : DeferInv s) (stamp : UInt64) {priority : ℕ}
    (hprio : priority < priorityUdp) : DeferInv (processSingleDeferred s stamp priority) := by
  unfold KnotResolver.processSingleDeferred
  split
  · exact h
  · rename_i c s' hpop
    have hp := h.popped_of_popQuery hpop
    dsimp only
    rw [hp.sessions]
    have hbreak := h.breakQuery_of_popped hp
    split_ifs with hclose htime hs hpr
    · exact hbreak
    · exact hbreak
    · exact h.repush_of_popped hp hs hprio
    · -- the request leaves its session's queue
      have hne := dropWhile_isNone_ne_none_cons (s.sessions c.session).queue.tail
      rcases hq : (s.sessions c.session).queue.tail.dropWhile Option.isNone with _ | ⟨_ | next, r⟩
      · exact h.drain_of_popped hp hs hq
      · exact absurd hq (hne _)
      · exact h.advance_of_popped hp hs hprio hq (by simp [pushQuery])
    · -- a datagram is handed on
      rw [← hp.sessions]
      exact h.datagram_of_popped hp (by simpa using hs)

/-- `process_deferred_over_size_limit` keeps the invariant, round by round. -/
theorem DeferInv.processDeferredOverSizeLimit (h : DeferInv s) {rounds : List (UInt64 × ℕ)}
    (hrounds : ∀ r ∈ rounds, r.2 < priorityUdp) :
    DeferInv (processDeferredOverSizeLimit s rounds) := by
  induction rounds generalizing s with
  | nil => exact h
  | cons r rounds ih =>
    obtain ⟨stamp, priority⟩ := r
    unfold KnotResolver.processDeferredOverSizeLimit
    split_ifs
    · exact ih (h.processSingleDeferred stamp (hrounds _ List.mem_cons_self))
        fun r hr => hrounds r (List.mem_cons_of_mem _ hr)
    · exact h

/-- The loop of `cleanup_queues` over one queue keeps the invariant, round by round. -/
theorem DeferInv.cleanupQueue (h : DeferInv s) (stamp : UInt64) (i fuel : ℕ) :
    DeferInv (cleanupQueue stamp i fuel s) := by
  induction fuel generalizing s with
  | zero => exact h
  | succ fuel ih =>
    unfold KnotResolver.cleanupQueue
    split
    · exact h
    · split_ifs
      · exact h
      · split
        · exact h
        · rename_i c s' hpop
          exact ih (h.breakQuery_of_popped (h.popped_of_popQueryQueue hpop))

/-- `cleanup_queues` keeps the invariant, queue by queue. -/
theorem DeferInv.cleanupQueues (h : DeferInv s) (stamp : UInt64) :
    DeferInv (cleanupQueues s stamp) := by
  unfold KnotResolver.cleanupQueues
  -- the fold over the queues, with the invariant carried from each queue to the next
  induction List.range queuesCnt generalizing s with
  | nil => exact h
  | cons i l ih => exact ih (h.cleanupQueue stamp i _)

end Handle

/-! ## Changing a session -/

section Arrive

variable {s : DeferState} {n : ℕ}

/-- With only session `n` changed, of the weights of what waits only its head's changes. -/
theorem DeferInv.sum_weight_of_head (h : DeferInv s) {c : DeferCtx} {rest : List (Option DeferCtx)}
    (hq : (s.sessions n).queue = some c :: rest) {t : DeferState}
    (ht : ∀ m, m ≠ n → t.sessions m = s.sessions m) :
    ((queued s).map (weight t)).sum + weight s c = ((queued s).map (weight s)).sum + weight t c := by
  have hho := h.heads n c rest hq
  have hmem : c ∈ queued s := Multiset.count_pos.mp (by rw [hho.count_head]; exact one_pos)
  have hR : queued s = c ::ₘ (queued s).erase c := (Multiset.cons_erase hmem).symm
  -- the rest of what waits holds no request of the session: the head waits only once
  have hnotin : ∀ x ∈ (queued s).erase c, x.session ≠ n := by
    intro x hx hxn
    have hxs : (s.sessions x.session).stream = true := by rw [hxn]; exact hho.stream
    obtain ⟨r, hr⟩ := h.head x (Multiset.mem_of_mem_erase hx) hxs
    rw [hxn, hq] at hr
    have hxc : c = x := Option.some.inj (List.cons.inj hr).1
    have hcount := hho.count_head
    rw [hR, Multiset.count_cons_self] at hcount
    have hzero : ((queued s).erase c).count c = 0 := by omega
    exact Multiset.count_eq_zero.mp hzero (hxc ▸ hx)
  have hcongr : (((queued s).erase c).map (weight t)).sum = (((queued s).erase c).map (weight s)).sum :=
    sum_weight_congr fun x hx => ht _ (hnotin x hx)
  rw [hR, Multiset.map_cons, Multiset.map_cons, Multiset.sum_cons, Multiset.sum_cons, hcongr]
  omega

/-- A session's queue extended at its tail end by `extra`, requests of the session that wait
nowhere else and EOF markers, with their sizes counted: the invariant holds on. Closing a
session, deferring an EOF event and deferring a follow-up request are instances. -/
theorem DeferInv.appendSession (h : DeferInv s) {d : DeferSession} {extra : List (Option DeferCtx)}
    (hstream : d.stream = (s.sessions n).stream) (hsize : d.size = (s.sessions n).size)
    (hqueue : d.queue = (s.sessions n).queue ++ extra)
    (hnil : (s.sessions n).queue = [] → extra = [])
    (hextra : ∀ y, some y ∈ extra → y.session = n ∧ (queued s).count y = 0 ∧
      some y ∉ (s.sessions n).queue)
    (hnodup : (extra.filterMap id).Nodup) {z : ℤ}
    (hz : z = s.waitingRequestsSize + queueSize extra) :
    DeferInv { s.setSession n d with waitingRequestsSize := z } := by
  set t := { s.setSession n d with waitingRequestsSize := z } with ht
  have hsess_n : t.sessions n = d := sessions_setSession_self
  have hsess_m : ∀ m, m ≠ n → t.sessions m = s.sessions m := fun m hm =>
    sessions_setSession_of_ne hm
  have hstreamAll : ∀ m, (t.sessions m).stream = (s.sessions m).stream := by
    intro m
    by_cases hm : m = n
    · subst hm
      rw [hsess_n, hstream]
    · rw [hsess_m m hm]
  have hqd : queued t = queued s := rfl
  -- the session's queue keeps its head
  have hd_of : ∀ x r, (s.sessions n).queue = some x :: r → d.queue = some x :: (r ++ extra) := by
    intro x r hq
    rw [hqueue, hq, List.cons_append]
  have hd_to : ∀ x r, d.queue = some x :: r →
      ∃ r0, (s.sessions n).queue = some x :: r0 ∧ r = r0 ++ extra := by
    intro x r hd
    rw [hqueue] at hd
    cases hq : (s.sessions n).queue with
    | nil =>
      rw [hq, hnil hq] at hd
      cases hd
    | cons o r0 =>
      rw [hq, List.cons_append] at hd
      obtain ⟨rfl, rfl⟩ := List.cons.inj hd
      exact ⟨r0, rfl, rfl⟩
  have hd_eof : ∀ r, d.queue ≠ none :: r := by
    intro r hd
    rw [hqueue] at hd
    cases hq : (s.sessions n).queue with
    | nil =>
      rw [hq, hnil hq] at hd
      cases hd
    | cons o r0 =>
      rw [hq, List.cons_append] at hd
      obtain ⟨rfl, -⟩ := List.cons.inj hd
      exact h.notEof n r0 hq
  -- what the session accounts for grows by the sizes of what is appended
  have hsum : ((queued s).map (weight t)).sum = ((queued s).map (weight s)).sum + queueSize extra := by
    cases hq : (s.sessions n).queue with
    | nil =>
      have hwt : weight t = weight s := by
        funext x
        by_cases hx : x.session = n
        · simp [weight, hx, hsess_n, hstream, hsize, hqueue, hq, hnil hq]
        · exact weight_congr (hsess_m _ hx)
      rw [hwt, hnil hq, queueSize_nil, Nat.add_zero]
    | cons o r0 =>
      cases o with
      | none => exact absurd hq (h.notEof n r0)
      | some c =>
        have hho := h.heads n c r0 hq
        have hkey := h.sum_weight_of_head hq hsess_m
        have hwc : weight t c = weight s c + queueSize extra := by
          simp [weight, hho.session, hsess_n, hstream, hsize, hqueue, hq, hho.stream, Nat.add_assoc]
        omega
  refine ⟨h.outside, h.queueIx_le, h.below, h.waiting, ?_, ?_, ?_, ?_, ?_, ?_⟩
  · intro i x hx
    rw [hstreamAll]
    exact h.placed i x hx
  · intro x hx hxs
    rw [hstreamAll] at hxs
    obtain ⟨r, hr⟩ := h.head x hx hxs
    by_cases hxn : x.session = n
    · rw [hxn, hsess_n]
      rw [hxn] at hr
      exact ⟨_, hd_of x r hr⟩
    · rw [hsess_m _ hxn]
      exact ⟨r, hr⟩
  · intro m r
    by_cases hm : m = n
    · subst hm
      rw [hsess_n]
      exact hd_eof r
    · rw [hsess_m m hm]
      exact h.notEof m r
  · intro m x r hm
    by_cases hmn : m = n
    · subst hmn
      rw [hsess_n] at hm
      obtain ⟨r0, hq, rfl⟩ := hd_to x r hm
      have hho := h.heads m x r0 hq
      refine ⟨by rw [hstreamAll]; exact hho.stream, by rw [hsess_n, hsize]; exact hho.size_pos,
        hho.session, hho.count_head, ?_, ?_⟩
      · intro y hy
        rcases List.mem_append.mp hy with hy | hy
        · exact hho.follow y hy
        · exact ⟨(hextra y hy).1, (hextra y hy).2.1⟩
      · -- nothing appended is in the queue already
        rw [← List.cons_append, List.filterMap_append, List.nodup_append]
        refine ⟨hho.nodup, hnodup, ?_⟩
        intro y hy y' hy' hyy
        subst hyy
        rw [List.mem_filterMap] at hy hy'
        obtain ⟨o, ho, rfl⟩ := hy
        obtain ⟨o', ho', ho'eq⟩ := hy'
        simp only [id] at ho'eq
        subst ho'eq
        exact (hextra _ ho').2.2 (hq ▸ ho)
    · rw [hsess_m m hmn] at hm
      exact (h.heads m x r hm).transport (hsess_m m hmn) fun _ _ => rfl
  · show z = (((queued s).map (weight t)).sum : ℤ)
    rw [hsum, hz, h.size]
    omega
  · intro x hx hxs
    rw [hstreamAll] at hxs
    exact h.udpPos x hx hxs

theorem DeferInv.closeSession (h : DeferInv s) (n : ℕ) : DeferInv (s.closeSession n) :=
  h.appendSession (d := { s.sessions n with closing := true }) rfl rfl (List.append_nil _).symm
    (fun _ => rfl) (by simp) (by simp) (by simp)

/-- An EOF event deferred behind the data of its stream. -/
theorem DeferInv.plDeferEventUnwrapEof (h : DeferInv s) (n : ℕ) :
    DeferInv (plDeferEventUnwrapEof s n) := by
  unfold KnotResolver.plDeferEventUnwrapEof
  dsimp only
  split_ifs with hq
  · exact h.appendSession (d := { s.sessions n with queue := (s.sessions n).queue ++ [none] }) rfl
      rfl rfl (fun hnil => absurd hnil hq.2) (by simp) (by simp) (by simp)
  · exact h

/-- A datagram that waits nowhere, pushed into the UDP queue: its size joins the count. -/
theorem DeferInv.pushDatagram (h : DeferInv s) {x : DeferCtx}
    (hs : (s.sessions x.session).stream = false) (hpos : 0 < x.size)
    (hfresh : ∀ m y, some y ∈ (s.sessions m).queue → y ≠ x) (b : Bool) {z : ℤ}
    (hz : z = s.waitingRequestsSize + x.size) :
    DeferInv { pushQuery s x priorityUdp b with waitingRequestsSize := z } := by
  have hlt : priorityUdp < queuesCnt := by decide
  set t := { pushQuery s x priorityUdp b with waitingRequestsSize := z } with ht
  have hqd : queued t = x ::ₘ queued s := queued_pushQuery hlt b
  have hsess : t.sessions = s.sessions := rfl
  have hwt : weight t = weight s := rfl
  have hqok := pushQuery_queuesOk (c := x) h.outside h.queueIx_le h.below hlt b
  refine ⟨hqok.1, hqok.2.1, hqok.2.2, ?_, ?_, ?_, h.notEof, ?_, ?_, ?_⟩
  · rw [hqd, Multiset.card_cons]
    show s.waitingRequests + 1 = _
    rw [h.waiting]
    omega
  · intro i y hy
    rcases mem_pushQuery hy with ⟨rfl, rfl⟩ | hy
    · rw [hsess, hs]
      simp
    · exact h.placed i y hy
  · intro y hy hys
    rw [hqd] at hy
    rcases Multiset.mem_cons.mp hy with rfl | hy
    · rw [hsess, hs] at hys
      cases hys
    · exact h.head y hy hys
  · intro m y r hm
    exact (h.heads m y r hm).transport rfl fun y' hy' => by
      rw [hqd, Multiset.count_cons_of_ne (hfresh m y' (hm ▸ hy'))]
  · show z = _
    rw [hqd, hwt, Multiset.map_cons, Multiset.sum_cons, hz, h.size]
    simp [weight, hs]
    omega
  · intro y hy hys
    rw [hqd] at hy
    rcases Multiset.mem_cons.mp hy with rfl | hy
    · exact hpos
    · exact h.udpPos y hy hys

/-- A request context of a fresh arrival waits nowhere. -/
theorem Arrival.Fresh.count_eq_zero {a : Arrival} (hf : a.Fresh s) {x : DeferCtx} (hx : x.id = a.id) :
    (queued s).count x = 0 := by
  refine Multiset.count_eq_zero.mpr fun hmem => ?_
  obtain ⟨i, -, hi⟩ := mem_queued.mp hmem
  exact hf.1 i x hi hx

theorem Arrival.Fresh.ne {a : Arrival} (hf : a.Fresh s) {m : ℕ} {x y : DeferCtx}
    (hy : some y ∈ (s.sessions m).queue) (hx : x.id = a.id) : y ≠ x := by
  rintro rfl
  exact hf.2 m y hy hx

/-- The deferring part of `pl_defer_unwrap` keeps the invariant: a stream's request opens its
session's queue, a datagram joins the UDP queue. -/
theorem DeferInv.deferArrival (h : DeferInv s) (stamp : UInt64) {a : Arrival} (hfresh : a.Fresh s)
    (hvalid : a.Valid s) (hnil : (s.sessions a.session).queue = []) :
    DeferInv (deferArrival s stamp a) := by
  unfold KnotResolver.deferArrival
  dsimp only
  cases hs : (s.sessions a.session).stream
  · -- a datagram goes to the UDP queue
    have hprio : a.priority = priorityUdp := by simpa [Arrival.Valid, hs] using hvalid.1
    simp only [Bool.false_eq_true, if_false]
    rw [hprio]
    exact h.pushDatagram (x := ⟨a.id, a.session, stamp, a.iterSize + a.payloadSize⟩) hs
      (show 0 < a.iterSize + a.payloadSize by have := hvalid.2.1; omega)
      (fun m y hy => hfresh.ne hy rfl) false (by simp [pushQuery])
  · -- a stream's request becomes the head of its session's queue
    have hprio : a.priority < priorityUdp := by simpa [Arrival.Valid, hs] using hvalid.1
    have hnone : ∀ y ∈ queued s, y.session ≠ a.session := by
      intro y hy hyn
      obtain ⟨r, hr⟩ := h.head y hy (by rw [hyn]; exact hs)
      rw [hyn, hnil] at hr
      cases hr
    simp only [if_true]
    refine h.openSession
      (d := { stream := true, closing := (s.sessions a.session).closing, size := a.sessSize,
              queue := (s.sessions a.session).queue ++ [some ⟨a.id, a.session, stamp, a.iterSize⟩] })
      hnone rfl hvalid.2.2 (by rw [hnil]; rfl) rfl ?_ (by rw [hnil]; simp) hprio false (by simp [pushQuery, DeferState.setSession, hnil])
    intro y hy
    rw [hnil] at hy
    obtain rfl : y = ⟨a.id, a.session, stamp, a.iterSize⟩ := by simpa using hy
    exact ⟨rfl, hfresh.count_eq_zero rfl⟩

theorem Arrival.Fresh.of_phaseOnly {a : Arrival} {t : DeferState} (hf : a.Fresh s)
    (ht : PhaseOnly s t) : a.Fresh t := by
  unfold Arrival.Fresh
  rw [ht.queues, ht.sessions]
  exact hf

theorem Arrival.Valid.of_phaseOnly {a : Arrival} {t : DeferState} (hv : a.Valid s)
    (ht : PhaseOnly s t) : a.Valid t := by
  unfold Arrival.Valid
  rw [ht.sessions]
  exact hv

/-- `pl_defer_unwrap` keeps the invariant: a follow-up joins its session's queue, a request
goes on at once, or it is deferred. -/
theorem DeferInv.plDeferUnwrap (h : DeferInv s) (stamp : UInt64) {a : Arrival} (hfresh : a.Fresh s)
    (hvalid : a.Valid s) {rounds : List (UInt64 × ℕ)} (hrounds : ∀ r ∈ rounds, r.2 < priorityUdp) :
    DeferInv (plDeferUnwrap s stamp a rounds).2 := by
  unfold KnotResolver.plDeferUnwrap
  dsimp only
  by_cases hq : (s.sessions a.session).queue ≠ []
  · -- the follow-up of a deferred request of its stream
    rw [if_pos hq]
    refine DeferInv.processDeferredOverSizeLimit ?_ hrounds
    refine h.appendSession (d := { s.sessions a.session with
      queue := (s.sessions a.session).queue ++ [some ⟨a.id, a.session, stamp, a.iterSize⟩] })
      rfl rfl rfl (fun hnil => absurd hnil hq) ?_ (by simp) (by simp)
    intro y hy
    obtain rfl : y = ⟨a.id, a.session, stamp, a.iterSize⟩ := by simpa using hy
    exact ⟨rfl, hfresh.count_eq_zero rfl, fun hmem => hfresh.ne hmem rfl rfl⟩
  · -- the phase may change, and then the request goes on or is deferred
    rw [if_neg hq]
    generalize hr : (if (a.priority = 0 ∨ a.priority = priorityUdp) ∧ s.queues a.priority = [] then
        phaseTrySet s stamp (if a.priority = priorityUdp then .udp else .nonUdp)
      else (false, s)) = r
    have hronly : PhaseOnly s r.2 := by
      rw [← hr]
      by_cases hc : (a.priority = 0 ∨ a.priority = priorityUdp) ∧ s.queues a.priority = []
      · rw [if_pos hc]
        exact phaseOnly_phaseTrySet stamp _
      · rw [if_neg hc]
        exact PhaseOnly.refl s
    have hrinv := h.of_phaseOnly hronly
    by_cases hr1 : r.1 = true
    · rw [if_pos hr1]
      exact hrinv
    · rw [if_neg hr1]
      refine DeferInv.processDeferredOverSizeLimit ?_ hrounds
      refine hrinv.deferArrival stamp (hfresh.of_phaseOnly hronly) (hvalid.of_phaseOnly hronly) ?_
      rw [hronly.sessions]
      exact not_not.mp hq

end Arrive

/-! ## Runs -/

section Run

variable {s t : DeferState}

/-- Every step of a run keeps the invariant. -/
theorem DeferInv.step (h : DeferInv s) (hstep : DeferStep s t) : DeferInv t := by
  cases hstep with
  | unwrap stamp a rounds hfresh hvalid hrounds => exact h.plDeferUnwrap stamp hfresh hvalid hrounds
  | eof n => exact h.plDeferEventUnwrapEof n
  | process stamp priority hprio => exact h.processSingleDeferred stamp hprio
  | cleanup stamp => exact h.cleanupQueues stamp
  | idleStop stamp _ => exact h.of_phaseOnly (phaseOnly_phaseReset stamp _)
  | close n => exact h.closeSession n

/-- Every state a run reaches from a state with the invariant keeps it. -/
theorem DeferInv.run (h : DeferInv s) (hrun : Relation.ReflTransGen DeferStep s t) : DeferInv t := by
  induction hrun with
  | refl => exact h
  | tail _ hstep ih => exact ih.step hstep

/-- Every state of a run from empty queues keeps the invariant. -/
theorem deferInv_of_reachable {sessions : ℕ → DeferSession} (hinit : ∀ n, (sessions n).queue = [])
    (hrun : Relation.ReflTransGen DeferStep (deferInit sessions) s) : DeferInv s :=
  (deferInv_deferInit sessions hinit).run hrun

/-- The rounds of `defer_queues_idle` are a run of processing steps. -/
theorem processIdleRounds_run (stamp : UInt64) {priority : ℕ} (hprio : priority < priorityUdp)
    {rounds : List (UInt64 × ℕ)} (hrounds : ∀ r ∈ rounds, r.2 < priorityUdp) :
    Relation.ReflTransGen DeferStep s (processIdleRounds s stamp priority rounds) := by
  induction rounds generalizing s stamp priority with
  | nil => exact .single (.process stamp priority hprio)
  | cons r rounds ih =>
    obtain ⟨stamp', priority'⟩ := r
    unfold processIdleRounds
    dsimp only
    split_ifs
    · exact .head (.process stamp priority hprio) (ih stamp' (hrounds _ List.mem_cons_self)
        fun r hr => hrounds r (List.mem_cons_of_mem _ hr))
    · exact .single (.process stamp priority hprio)

/-- `defer_queues_idle` is a run: rounds of processing and the cleanup while requests wait, and
the phase reset once none waits. -/
theorem deferQueuesIdle_run (stamp : UInt64) {first : UInt64 × ℕ} {rounds : List (UInt64 × ℕ)}
    (hfirst : first.2 < priorityUdp) (hrounds : ∀ r ∈ rounds, r.2 < priorityUdp) :
    Relation.ReflTransGen DeferStep s (deferQueuesIdle s stamp first rounds) := by
  have hbusy : Relation.ReflTransGen DeferStep s (if s.waitingRequests > 0 then
      cleanupQueues (processIdleRounds s first.1 first.2 rounds) stamp else s) := by
    split_ifs
    · exact (processIdleRounds_run first.1 hfirst hrounds).tail (.cleanup stamp)
    · exact .refl
  unfold deferQueuesIdle
  dsimp only
  generalize (if s.waitingRequests > 0 then
      cleanupQueues (processIdleRounds s first.1 first.2 rounds) stamp else s) = u at hbusy ⊢
  by_cases hw : u.waitingRequests > 0
  · rw [if_pos hw]
    exact hbusy
  · rw [if_neg hw]
    exact hbusy.tail (.idleStop stamp (by omega))

end Run

/-! ## What the invariant says -/

section Spec

variable {s : DeferState}

theorem DeferInv.weight_pos (h : DeferInv s) {x : DeferCtx} (hx : x ∈ queued s) :
    0 < weight s x := by
  cases hs : (s.sessions x.session).stream
  · have hpos := h.udpPos x hx hs
    simpa [weight, hs] using hpos
  · obtain ⟨r, hr⟩ := h.head x hx hs
    have hpos := (h.heads _ x r hr).size_pos
    simp only [weight, hs, if_true]
    omega

/-- Nothing waits exactly when no size is counted. -/
theorem DeferInv.size_eq_zero_iff (h : DeferInv s) :
    s.waitingRequestsSize = 0 ↔ s.waitingRequests = 0 := by
  rw [h.size, h.waiting, Int.natCast_eq_zero, Int.natCast_eq_zero, Multiset.card_eq_zero]
  constructor
  · intro hsum
    refine Multiset.eq_zero_of_forall_notMem fun x hx => ?_
    rw [← Multiset.cons_erase hx, Multiset.map_cons, Multiset.sum_cons] at hsum
    have hpos := h.weight_pos hx
    omega
  · intro hq
    rw [hq]
    rfl

/-- The assertion of `process_single_deferred` on the counters:
`waiting_requests ? waiting_requests_size > 0 : waiting_requests_size == 0`. -/
theorem DeferInv.size_pos_iff (h : DeferInv s) :
    0 < s.waitingRequestsSize ↔ 0 < s.waitingRequests := by
  have hsize : 0 ≤ s.waitingRequestsSize := by rw [h.size]; exact Int.natCast_nonneg _
  have hwait : 0 ≤ s.waitingRequests := by rw [h.waiting]; exact Int.natCast_nonneg _
  have hzero := h.size_eq_zero_iff
  omega

/-- The assertion of `process_single_deferred` that a popped request of a stream is the head of
its session's queue. -/
theorem DeferInv.popQuery_head (h : DeferInv s) {stamp : UInt64} {c : DeferCtx} {s' : DeferState}
    (hpop : popQuery s stamp = some (c, s')) (hs : (s'.sessions c.session).stream = true) :
    (s'.sessions c.session).queue.head? = some (some c) := by
  have hp := h.popped_of_popQuery hpop
  rw [hp.sessions] at hs ⊢
  obtain ⟨rest, hrest⟩ := h.head c hp.mem hs
  rw [hrest]
  rfl

/-- The streams' requests in the priority queues are the heads of the non-empty session queues,
one for each. -/
theorem DeferInv.map_session_streams (h : DeferInv s) {S : Finset ℕ}
    (hS : ∀ n, (s.sessions n).queue ≠ [] → n ∈ S) :
    ((queued s).filter fun x => (s.sessions x.session).stream = true).map DeferCtx.session =
      (S.filter fun n => (s.sessions n).queue ≠ []).val := by
  -- a stream's request is queued at most once
  have hnodup : ((queued s).filter fun x => (s.sessions x.session).stream = true).Nodup := by
    rw [Multiset.nodup_iff_count_le_one]
    intro x
    rw [Multiset.count_filter]
    split_ifs with hxs
    · by_cases hx : x ∈ queued s
      · obtain ⟨r, hr⟩ := h.head x hx hxs
        rw [(h.heads _ x r hr).count_head]
      · rw [Multiset.count_eq_zero.mpr hx]
        omega
    · omega
  refine (Multiset.Nodup.ext (hnodup.map_on ?_) (S.filter _).nodup).mpr ?_
  · -- two requests of one stream in the priority queues are both its head
    intro x hx y hy hxy
    rw [Multiset.mem_filter] at hx hy
    obtain ⟨r, hr⟩ := h.head x hx.1 hx.2
    obtain ⟨r', hr'⟩ := h.head y hy.1 hy.2
    rw [hxy, hr'] at hr
    exact (Option.some.inj (List.cons.inj hr).1).symm
  · intro n
    rw [Multiset.mem_map, Finset.mem_val, Finset.mem_filter]
    constructor
    · rintro ⟨x, hx, rfl⟩
      rw [Multiset.mem_filter] at hx
      obtain ⟨r, hr⟩ := h.head x hx.1 hx.2
      have hne : (s.sessions x.session).queue ≠ [] := by rw [hr]; exact List.cons_ne_nil _ _
      exact ⟨hS _ hne, hne⟩
    · rintro ⟨-, hne⟩
      -- the head of a non-empty queue is a request, queued once
      obtain ⟨o, r, hq⟩ := List.exists_cons_of_ne_nil hne
      cases o with
      | none => exact absurd hq (h.notEof n r)
      | some c =>
        have hho := h.heads n c r hq
        have hmem : c ∈ queued s := Multiset.count_pos.mp (by rw [hho.count_head]; exact one_pos)
        refine ⟨c, Multiset.mem_filter.mpr ⟨hmem, ?_⟩, hho.session⟩
        rw [hho.session]
        exact hho.stream

/-- `waiting_requests_size` is the size of the datagrams in the priority queues, of the
requests in the sessions' queues, and of the sessions whose queues are not empty. -/
theorem DeferInv.size_eq_sum (h : DeferInv s) {S : Finset ℕ}
    (hS : ∀ n, (s.sessions n).queue ≠ [] → n ∈ S) :
    s.waitingRequestsSize =
      ((((queued s).filter fun x => (s.sessions x.session).stream = false).map DeferCtx.size).sum +
        ∑ n ∈ S, queueSize (s.sessions n).queue +
        ∑ n ∈ S.filter (fun n => (s.sessions n).queue ≠ []), (s.sessions n).size : ℕ) := by
  set streamP := fun x : DeferCtx => (s.sessions x.session).stream = true
  -- the datagrams weigh their sizes
  have hdgram : (((queued s).filter fun x => ¬ streamP x).map (weight s)).sum =
      (((queued s).filter fun x => (s.sessions x.session).stream = false).map DeferCtx.size).sum := by
    rw [Multiset.filter_congr fun x _ => (show ¬ streamP x ↔ (s.sessions x.session).stream = false
      by simp [streamP])]
    congr 1
    refine Multiset.map_congr rfl fun x hx => ?_
    simp [weight, (Multiset.mem_filter.mp hx).2]
  -- the heads of the streams weigh their sessions
  have hstreams : (((queued s).filter streamP).map (weight s)).sum =
      ∑ n ∈ S.filter (fun n => (s.sessions n).queue ≠ []),
        ((s.sessions n).size + queueSize (s.sessions n).queue) := by
    have hw : ((queued s).filter streamP).map (weight s) =
        (((queued s).filter streamP).map DeferCtx.session).map
          fun n => (s.sessions n).size + queueSize (s.sessions n).queue := by
      rw [Multiset.map_map]
      refine Multiset.map_congr rfl fun x hx => ?_
      have hxs : (s.sessions x.session).stream = true := (Multiset.mem_filter.mp hx).2
      simp [weight, hxs]
    rw [hw, h.map_session_streams hS]
    rfl
  -- an empty queue holds no size
  have hqs : ∑ n ∈ S.filter (fun n => (s.sessions n).queue ≠ []), queueSize (s.sessions n).queue =
      ∑ n ∈ S, queueSize (s.sessions n).queue :=
    Finset.sum_filter_of_ne fun n _ hn hq => hn (by rw [hq, queueSize_nil])
  have hsum : ((queued s).map (weight s)).sum =
      (((queued s).filter fun x => ¬ streamP x).map (weight s)).sum +
        (((queued s).filter streamP).map (weight s)).sum := by
    conv_lhs => rw [← Multiset.filter_add_not streamP (queued s)]
    rw [Multiset.map_add, Multiset.sum_add, add_comm]
  rw [h.size, hsum, hdgram, hstreams, Finset.sum_add_distrib, hqs]
  congr 1
  omega

/-- What the scheduler keeps over every run, in the terms of `defer.c`: `waiting_requests` counts
the priority queues, the queues below `queue_ix` are empty, a stream session waits in the priority
queues by the head of its queue alone, once, `waiting_requests_size` is the size of what waits, and
`pop_query` finds a request while any waits. -/
structure DeferSpec (s : DeferState) : Prop where
  waiting : s.waitingRequests = ((∑ i ∈ Finset.range queuesCnt, (s.queues i).length : ℕ) : ℤ)
  below : ∀ i < s.queueIx, s.queues i = []
  queuedHead : ∀ i, ∀ c ∈ s.queues i, (s.sessions c.session).stream = true →
    ∃ rest, (s.sessions c.session).queue = some c :: rest
  head : ∀ n c rest, (s.sessions n).queue = some c :: rest →
    (s.sessions n).stream = true ∧ ∑ i ∈ Finset.range queuesCnt, (s.queues i).count c = 1 ∧
      ∀ c', some c' ∈ rest → ∑ i ∈ Finset.range queuesCnt, (s.queues i).count c' = 0
  notEof : ∀ n rest, (s.sessions n).queue ≠ none :: rest
  size : ∀ S : Finset ℕ, (∀ n, (s.sessions n).queue ≠ [] → n ∈ S) →
    s.waitingRequestsSize =
      ((((queued s).filter fun x => (s.sessions x.session).stream = false).map DeferCtx.size).sum +
        ∑ n ∈ S, queueSize (s.sessions n).queue +
        ∑ n ∈ S.filter (fun n => (s.sessions n).queue ≠ []), (s.sessions n).size : ℕ)
  size_eq_zero : s.waitingRequestsSize = 0 ↔ s.waitingRequests = 0
  popQuery_isSome : ∀ stamp, 0 < s.waitingRequests → (popQuery s stamp).isSome

theorem DeferInv.spec (h : DeferInv s) : DeferSpec s where
  waiting := by rw [h.waiting, card_queued]
  below := h.below
  queuedHead _ c hc := h.head c (mem_queued_of_mem h.outside hc)
  head n c rest hq := by
    have hho := h.heads n c rest hq
    refine ⟨hho.stream, ?_, fun c' hc' => ?_⟩
    · rw [← count_queued]
      exact hho.count_head
    · rw [← count_queued]
      exact (hho.follow c' hc').2
  notEof := h.notEof
  size _ hS := h.size_eq_sum hS
  size_eq_zero := h.size_eq_zero_iff
  popQuery_isSome stamp hw := h.popQuery_isSome stamp hw

/-- The scheduler's invariants hold in every state of every run from empty queues. -/
theorem defer_invariants {sessions : ℕ → DeferSession} (hinit : ∀ n, (sessions n).queue = [])
    {s : DeferState} (hrun : Relation.ReflTransGen DeferStep (deferInit sessions) s) :
    DeferSpec s :=
  (deferInv_of_reachable hinit hrun).spec

theorem defer_invariants_unwrap :
    DeferSpec (plDeferUnwrap (deferInit fun _ => ⟨true, false, [], 0⟩) 0 ⟨7, 0, 1, 1, 0, 1⟩ []).2 :=
  defer_invariants (fun _ => rfl) (Relation.ReflTransGen.single (DeferStep.unwrap 0 _ []
    ⟨fun _ _ hc => by simp [deferInit] at hc, fun _ _ hc => by simp [deferInit] at hc⟩
    (by simp [Arrival.Valid, deferInit, priorityUdp, queuesCnt]) (by simp)))

end Spec

end KnotResolver
