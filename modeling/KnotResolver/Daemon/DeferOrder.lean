import Mathlib
import KnotResolver.Daemon.Defer
import KnotResolver.Lib.Simulation

/-!
# Defer: the order of a stream's requests

What the defer layer of `daemon/defer.c` hands on to the layers above it: `protolayer_continue`
or `protolayer_break` of a request, and an EOF event, passed on by `pl_defer_event_unwrap` or
delivered by `process_single_deferred` after the request deferred before it. Each callback of
the layer is given here with what it hands on, next to the state function of
`KnotResolver.Daemon.Defer` that it reads; a traced run (`DeferTraceRun`) is a run of
`DeferStep` with all it received and all it handed on.

The main result (`deferTraceRun_stream_order`): for a stream session, over every run from empty
queues, the requests continued or broken, followed by those still waiting in the session's
queue, are the requests unwrapped, in order and each once; and an EOF event is handed on only
after every request received before it. The argument is a thinning of traces
(`Simulation.Thins`): every step keeps, for each stream, what was handed on followed by the
session's queue a thinning of what was received.
-/

namespace KnotResolver

/-! ## What the layer receives and hands on -/

/-- What reaches the defer layer from below: a request unwrapped, or an EOF event of a session. -/
inductive DeferIn where
  | req (id session : ℕ)
  | eof (session : ℕ)

/-- What the defer layer hands on: `protolayer_continue` or `protolayer_break` of a request, or
an EOF event, passed on or delivered after the data deferred before it. -/
inductive DeferOut where
  | cont (id session : ℕ)
  | brk (id session : ℕ)
  | eof (session : ℕ)

/-- What session `n` receives: a request by its id, or `none` for an EOF event. -/
def DeferIn.ofSession (n : ℕ) : DeferIn → Option (Option ℕ)
  | .req id m => if m = n then some (some id) else none
  | .eof m => if m = n then some none else none

/-- What the layer hands on for session `n`: a request continued or broken by its id, or `none`
for an EOF event. -/
def DeferOut.ofSession (n : ℕ) : DeferOut → Option (Option ℕ)
  | .cont id m => if m = n then some (some id) else none
  | .brk id m => if m = n then some (some id) else none
  | .eof m => if m = n then some none else none

/-- The queue of session `n` by its requests' ids, `none` for a deferred EOF event. -/
def sessionPending (s : DeferState) (n : ℕ) : List (Option ℕ) :=
  (s.sessions n).queue.map (Option.map DeferCtx.id)

/-- What `break_query` hands on: the request, and for a stream every request behind it in its
session's queue, each with `protolayer_break`; the EOF markers there are dropped. -/
def breakQueryOut (s : DeferState) (ctx : DeferCtx) : List DeferOut :=
  let sess := s.sessions ctx.session
  if sess.stream then
    .brk ctx.id ctx.session :: sess.queue.tail.filterMap (Option.map fun c => .brk c.id c.session)
  else [.brk ctx.id ctx.session]

/-- What `process_single_deferred` hands on: the popped request broken, continued, or nothing
when it is deferred again; a continued stream request is followed by one EOF event when EOF
markers stand right behind it in its session's queue. -/
def processSingleDeferredOut (s : DeferState) (stamp : UInt64) (priority : ℕ) : List DeferOut :=
  match popQuery s stamp with
  | none => []
  | some (ctx, s) =>
    let sess := s.sessions ctx.session
    if sess.closing then breakQueryOut s ctx
    else if stamp - ctx.reqStamp ≥ reqTimeout then breakQueryOut s ctx
    else if sess.stream then
      if priority > s.queueIx then []
      else .cont ctx.id ctx.session ::
        if sess.queue.tail.head?.any Option.isNone then [.eof ctx.session] else []
    else [.cont ctx.id ctx.session]

/-- What the loop of `cleanup_queues` over one queue hands on. -/
def cleanupQueueOut (stamp : UInt64) (i : ℕ) : ℕ → DeferState → List DeferOut
  | 0, _ => []
  | fuel + 1, s =>
    match s.queues i with
    | [] => []
    | ctx :: _ =>
      if stamp - ctx.reqStamp < reqTimeout then []
      else match popQueryQueue s i with
        | none => []
        | some (ctx, s) => breakQueryOut s ctx ++ cleanupQueueOut stamp i fuel (breakQuery s ctx)

/-- What `cleanup_queues` hands on over the queues `is`, from state `s`. -/
def cleanupQueuesFrom (stamp : UInt64) : List ℕ → DeferState → List DeferOut
  | [], _ => []
  | i :: is, s => cleanupQueueOut stamp i (s.queues i).length s ++
      cleanupQueuesFrom stamp is (cleanupQueue stamp i (s.queues i).length s)

/-- What `cleanup_queues` hands on. -/
def cleanupQueuesOut (s : DeferState) (stamp : UInt64) : List DeferOut :=
  cleanupQueuesFrom stamp (List.range queuesCnt) s

/-- What `process_deferred_over_size_limit` hands on. -/
def processDeferredOverSizeLimitOut (s : DeferState) : List (UInt64 × ℕ) → List DeferOut
  | [] => []
  | (stamp, priority) :: rounds =>
    if s.waitingRequestsSize > maxWaitingReqsSize then
      processSingleDeferredOut s stamp priority ++
        processDeferredOverSizeLimitOut (processSingleDeferred s stamp priority) rounds
    else []

/-- What `pl_defer_unwrap` hands on: the request at once, or what the rounds of
`process_deferred_over_size_limit` hand on after the request is deferred. -/
def plDeferUnwrapOut (s : DeferState) (stamp : UInt64) (a : Arrival) (rounds : List (UInt64 × ℕ)) :
    List DeferOut :=
  let sess := s.sessions a.session
  if sess.queue ≠ [] then
    let ctx : DeferCtx := ⟨a.id, a.session, stamp, a.iterSize⟩
    let s := { s.setSession a.session { sess with queue := sess.queue ++ [some ctx] } with
      waitingRequestsSize := s.waitingRequestsSize + ctx.size }
    processDeferredOverSizeLimitOut s rounds
  else
    let r := if (a.priority = 0 ∨ a.priority = priorityUdp) ∧ s.queues a.priority = [] then
        phaseTrySet s stamp (if a.priority = priorityUdp then .udp else .nonUdp)
      else (false, s)
    if r.1 then [.cont a.id a.session]
    else processDeferredOverSizeLimitOut (deferArrival r.2 stamp a) rounds

/-- What `pl_defer_event_unwrap` hands on for an EOF event: the event, unless it is deferred
behind the data of its stream. -/
def plDeferEventUnwrapEofOut (s : DeferState) (n : ℕ) : List DeferOut :=
  let sess := s.sessions n
  if sess.stream ∧ sess.queue ≠ [] then [] else [.eof n]

/-- The steps of a run as `DeferStep` has them, with what each receives and hands on. -/
inductive DeferTrace : DeferState → List DeferIn → List DeferOut → DeferState → Prop
  | unwrap {s : DeferState} (stamp : UInt64) (a : Arrival) (rounds : List (UInt64 × ℕ)) :
      a.Fresh s → a.Valid s → (∀ r ∈ rounds, r.2 < priorityUdp) →
      DeferTrace s [.req a.id a.session] (plDeferUnwrapOut s stamp a rounds)
        (plDeferUnwrap s stamp a rounds).2
  | eof {s : DeferState} (n : ℕ) :
      DeferTrace s [.eof n] (plDeferEventUnwrapEofOut s n) (plDeferEventUnwrapEof s n)
  | process {s : DeferState} (stamp : UInt64) (priority : ℕ) : priority < priorityUdp →
      DeferTrace s [] (processSingleDeferredOut s stamp priority)
        (processSingleDeferred s stamp priority)
  | cleanup {s : DeferState} (stamp : UInt64) :
      DeferTrace s [] (cleanupQueuesOut s stamp) (cleanupQueues s stamp)
  | idleStop {s : DeferState} (stamp : UInt64) :
      s.waitingRequests ≤ 0 → DeferTrace s [] [] (phaseReset s stamp .none)
  | close {s : DeferState} (n : ℕ) : DeferTrace s [] [] (s.closeSession n)

/-- A run, with all it received and all it handed on. -/
inductive DeferTraceRun : DeferState → List DeferIn → List DeferOut → DeferState → Prop
  | refl (s : DeferState) : DeferTraceRun s [] [] s
  | tail {s t u : DeferState} {I i : List DeferIn} {O o : List DeferOut} :
      DeferTraceRun s I O t → DeferTrace t i o u → DeferTraceRun s (I ++ i) (O ++ o) u

theorem DeferTrace.step {s t : DeferState} {i : List DeferIn} {o : List DeferOut}
    (h : DeferTrace s i o t) : DeferStep s t := by
  cases h with
  | unwrap stamp a rounds hf hv hr => exact .unwrap stamp a rounds hf hv hr
  | eof n => exact .eof n
  | process stamp priority hp => exact .process stamp priority hp
  | cleanup stamp => exact .cleanup stamp
  | idleStop stamp hw => exact .idleStop stamp hw
  | close n => exact .close n

/-- Every step of `DeferStep` is one of a traced run. -/
theorem DeferStep.trace {s t : DeferState} (h : DeferStep s t) :
    ∃ i o, DeferTrace s i o t := by
  cases h with
  | unwrap stamp a rounds hf hv hr => exact ⟨_, _, .unwrap stamp a rounds hf hv hr⟩
  | eof n => exact ⟨_, _, .eof n⟩
  | process stamp priority hp => exact ⟨_, _, .process stamp priority hp⟩
  | cleanup stamp => exact ⟨_, _, .cleanup stamp⟩
  | idleStop stamp hw => exact ⟨_, _, .idleStop stamp hw⟩
  | close n => exact ⟨_, _, .close n⟩

theorem DeferTraceRun.reflTransGen {s t : DeferState} {I : List DeferIn} {O : List DeferOut}
    (h : DeferTraceRun s I O t) : Relation.ReflTransGen DeferStep s t := by
  induction h with
  | refl => exact .refl
  | tail _ hstep ih => exact ih.tail hstep.step

/-! ## Handing on from the front of the queues -/

section Drains

variable {s s' t u : DeferState} {c : DeferCtx} {o o₁ o₂ : List DeferOut}

@[simp] theorem DeferOut.ofSession_cont (id m n : ℕ) :
    (DeferOut.cont id m).ofSession n = if m = n then some (some id) else none := rfl

@[simp] theorem DeferOut.ofSession_brk (id m n : ℕ) :
    (DeferOut.brk id m).ofSession n = if m = n then some (some id) else none := rfl

@[simp] theorem DeferOut.ofSession_eof (m n : ℕ) :
    (DeferOut.eof m).ofSession n = if m = n then some none else none := rfl

/-- `t` with the events `o` comes from `s` by handing on requests from the front of its
sessions' queues: no session changes between stream and datagram, and a stream's events followed
by its queue afterwards thin its queue before. -/
structure Drains (s : DeferState) (o : List DeferOut) (t : DeferState) : Prop where
  stream : ∀ n, (t.sessions n).stream = (s.sessions n).stream
  thins : ∀ n, (s.sessions n).stream = true →
    Simulation.Thins (o.filterMap (DeferOut.ofSession n) ++ sessionPending t n) (sessionPending s n)

/-- Events of datagram sessions only, with the sessions unchanged. -/
theorem Drains.of_sessions (h : t.sessions = s.sessions)
    (ho : ∀ n, (s.sessions n).stream = true → o.filterMap (DeferOut.ofSession n) = []) :
    Drains s o t where
  stream n := by rw [h]
  thins n hn := by
    rw [ho n hn, List.nil_append, sessionPending, h]
    exact Simulation.Thins.refl _

theorem Drains.trans (h₁ : Drains s o₁ t) (h₂ : Drains t o₂ u) : Drains s (o₁ ++ o₂) u where
  stream n := (h₂.stream n).trans (h₁.stream n)
  thins n hn := by
    rw [List.filterMap_append, List.append_assoc]
    exact ((h₂.thins n (by rw [h₁.stream n]; exact hn)).append_left _).trans (h₁.thins n hn)

/-- Session `m` alone changes, to a session of the same kind. -/
theorem Drains.of_update {m : ℕ} {d : DeferSession}
    (hsess : t.sessions = Function.update s.sessions m d) (hd : d.stream = (s.sessions m).stream)
    (hm : (s.sessions m).stream = true →
      Simulation.Thins (o.filterMap (DeferOut.ofSession m) ++ d.queue.map (Option.map DeferCtx.id))
        (sessionPending s m))
    (ho : ∀ n, n ≠ m → o.filterMap (DeferOut.ofSession n) = []) : Drains s o t where
  stream n := by
    by_cases hn : n = m
    · rw [hsess, hn, Function.update_self, hd]
    · rw [hsess, Function.update_of_ne hn]
  thins n hn := by
    by_cases hnm : n = m
    · subst hnm
      rw [sessionPending, hsess, Function.update_self]
      exact hm hn
    · rw [ho n hnm, List.nil_append, sessionPending, hsess, Function.update_of_ne hnm]
      exact Simulation.Thins.refl _

/-- The breaks of the requests behind a stream's head, all of the head's session. -/
theorem filterMap_brk_ofSession {m : ℕ} (rest : List (Option DeferCtx))
    (hrest : ∀ x, some x ∈ rest → x.session = m) (n : ℕ) :
    (rest.filterMap (Option.map fun x => DeferOut.brk x.id x.session)).filterMap
        (DeferOut.ofSession n) =
      if m = n then (rest.map (Option.map DeferCtx.id)).reduceOption.map some else [] := by
  induction rest with
  | nil => split_ifs <;> rfl
  | cons x rest ih =>
    have ih' := ih fun y hy => hrest y (List.mem_cons_of_mem _ hy)
    cases x with
    | none => simpa using ih'
    | some x =>
      have hx : x.session = m := hrest x List.mem_cons_self
      rw [List.filterMap_cons, Option.map_some, List.map_cons, Option.map_some,
        List.reduceOption_cons_of_some]
      by_cases hmn : m = n
      · simp only [List.filterMap_cons, DeferOut.ofSession_brk, hx, if_pos hmn, ih', List.map_cons]
      · simp only [List.filterMap_cons, DeferOut.ofSession_brk, hx, if_neg hmn, ih']

end Drains

section DrainsOps

variable {s s' : DeferState} {c : DeferCtx}

/-- `break_query` of a popped request: a stream's head with every request behind it, or a
datagram. -/
theorem DeferInv.drains_breakQuery (h : DeferInv s) (hp : Popped s c s') :
    Drains s (breakQueryOut s' c) (breakQuery s' c) := by
  by_cases hs : (s.sessions c.session).stream = true
  · -- the head of its stream's queue: the queue is broken in order and emptied
    obtain ⟨rest, hrest⟩ := h.head c hp.mem hs
    have hfollow : ∀ x, some x ∈ rest → x.session = c.session :=
      fun x hx => ((h.heads _ c rest hrest).follow x hx).1
    have hout : breakQueryOut s' c =
        .brk c.id c.session :: rest.filterMap (Option.map fun x => .brk x.id x.session) := by
      simp [breakQueryOut, hp.sessions, hs, hrest]
    rw [hout]
    refine Drains.of_update (m := c.session)
      (d := { s.sessions c.session with closing := true, queue := [] }) ?_ rfl (fun _ => ?_)
      (fun n hn => ?_)
    · rw [breakQuery_of_stream (by rwa [hp.sessions])]
      simp [DeferState.setSession, hp.sessions]
    · rw [List.filterMap_cons_some (by rw [DeferOut.ofSession_brk, if_pos rfl]),
        filterMap_brk_ofSession rest hfollow, if_pos rfl, sessionPending, hrest, List.map_cons,
        Option.map_some, List.map_nil, List.append_nil]
      exact (Simulation.Thins.reduceOption_map_some _).cons _
    · rw [List.filterMap_cons, DeferOut.ofSession_brk, if_neg (Ne.symm hn),
        filterMap_brk_ofSession rest hfollow, if_neg (Ne.symm hn)]
  · -- a datagram: nothing of a stream is handed on
    have hd : (s'.sessions c.session).stream = false := by rw [hp.sessions]; simpa using hs
    refine Drains.of_sessions (by rw [breakQuery_of_datagram hd]; exact hp.sessions) fun n hn => ?_
    have hne : c.session ≠ n := fun hcn => hs (hcn ▸ hn)
    simp [breakQueryOut, hd, hne]

end DrainsOps

section DrainsProcess

variable {s s' t : DeferState} {c : DeferCtx}

/-- A stream's head continued: it leaves its session's queue with the EOF markers right behind
it, which become one EOF event after it. -/
theorem DeferInv.drains_continue (h : DeferInv s) (hp : Popped s c s')
    (hs : (s.sessions c.session).stream = true)
    (ht : t.sessions = Function.update s.sessions c.session
      { s.sessions c.session with
        queue := (s.sessions c.session).queue.tail.dropWhile Option.isNone }) :
    Drains s (.cont c.id c.session ::
      if (s.sessions c.session).queue.tail.head?.any Option.isNone then [.eof c.session] else [])
      t := by
  obtain ⟨rest, hrest⟩ := h.head c hp.mem hs
  rw [hrest, List.tail_cons] at ht ⊢
  refine Drains.of_update ht rfl (fun _ => ?_) (fun n hn => ?_)
  · -- the head, then the markers merged, then what is left of the queue
    have hev : (DeferOut.cont c.id c.session ::
        if rest.head?.any Option.isNone then [.eof c.session] else []).filterMap
          (DeferOut.ofSession c.session) =
        some c.id :: if rest.head?.any Option.isNone then [none] else [] := by
      split_ifs <;> simp
    rw [hev, sessionPending, hrest, List.map_cons, Option.map_some, List.cons_append]
    exact (Simulation.Thins.merge_front DeferCtx.id rest).cons (some c.id)
  · have hne : c.session ≠ n := Ne.symm hn
    split_ifs <;> simp [hne]

/-- `process_single_deferred` hands on from the front of the queues: the popped request is
broken, deferred again, or continued. -/
theorem DeferInv.drains_processSingleDeferred (h : DeferInv s) (stamp : UInt64) (priority : ℕ) :
    Drains s (processSingleDeferredOut s stamp priority)
      (KnotResolver.processSingleDeferred s stamp priority) := by
  cases hpop : popQuery s stamp with
  | none =>
    simp only [processSingleDeferredOut, KnotResolver.processSingleDeferred, hpop]
    exact Drains.of_sessions rfl fun _ _ => rfl
  | some r =>
    obtain ⟨c, s'⟩ := r
    have hp := h.popped_of_popQuery hpop
    simp only [processSingleDeferredOut, KnotResolver.processSingleDeferred, hpop]
    rw [hp.sessions]
    by_cases hclose : (s.sessions c.session).closing = true
    · rw [if_pos hclose, if_pos hclose]
      exact h.drains_breakQuery hp
    rw [if_neg hclose, if_neg hclose]
    by_cases htime : stamp - c.reqStamp ≥ reqTimeout
    · rw [if_pos htime, if_pos htime]
      exact h.drains_breakQuery hp
    rw [if_neg htime, if_neg htime]
    by_cases hs : (s.sessions c.session).stream = true
    · rw [if_pos hs, if_pos hs]
      by_cases hpr : priority > s'.queueIx
      · -- deferred again at a lower priority
        rw [if_pos hpr, if_pos hpr]
        exact Drains.of_sessions hp.sessions fun _ _ => rfl
      · rw [if_neg hpr, if_neg hpr]
        refine h.drains_continue hp hs ?_
        split <;> simp [DeferState.setSession, pushQuery, hp.sessions]
    · -- a datagram: nothing of a stream is handed on
      rw [if_neg hs, if_neg hs]
      refine Drains.of_sessions rfl fun n hn => ?_
      have hne : c.session ≠ n := fun hcn => hs (hcn ▸ hn)
      simp [hne]

end DrainsProcess

section DrainsLoops

variable {s : DeferState}

/-- The loop of `cleanup_queues` over one queue breaks popped requests, round by round. -/
theorem DeferInv.drains_cleanupQueue (h : DeferInv s) (stamp : UInt64) (i fuel : ℕ) :
    Drains s (cleanupQueueOut stamp i fuel s) (KnotResolver.cleanupQueue stamp i fuel s) := by
  induction fuel generalizing s with
  | zero => exact Drains.of_sessions rfl fun _ _ => rfl
  | succ fuel ih =>
    cases hq : s.queues i with
    | nil =>
      simp only [cleanupQueueOut, KnotResolver.cleanupQueue, hq]
      exact Drains.of_sessions rfl fun _ _ => rfl
    | cons c0 rest =>
      simp only [cleanupQueueOut, KnotResolver.cleanupQueue, hq]
      by_cases ht : stamp - c0.reqStamp < reqTimeout
      · rw [if_pos ht, if_pos ht]
        exact Drains.of_sessions rfl fun _ _ => rfl
      rw [if_neg ht, if_neg ht]
      cases hpop : popQueryQueue s i with
      | none => exact Drains.of_sessions rfl fun _ _ => rfl
      | some r =>
        obtain ⟨c, s'⟩ := r
        have hp := h.popped_of_popQueryQueue hpop
        exact (h.drains_breakQuery hp).trans (ih (h.breakQuery_of_popped hp))

/-- `cleanup_queues` over the queues `is`, queue by queue. -/
theorem DeferInv.drains_cleanupQueuesFrom (stamp : UInt64) (is : List ℕ) (h : DeferInv s) :
    Drains s (cleanupQueuesFrom stamp is s)
      (is.foldl (fun s i => KnotResolver.cleanupQueue stamp i (s.queues i).length s) s) := by
  induction is generalizing s with
  | nil => exact Drains.of_sessions rfl fun _ _ => rfl
  | cons i is ih =>
    exact (h.drains_cleanupQueue stamp i _).trans (ih (h.cleanupQueue stamp i _))

theorem DeferInv.drains_cleanupQueues (h : DeferInv s) (stamp : UInt64) :
    Drains s (cleanupQueuesOut s stamp) (KnotResolver.cleanupQueues s stamp) :=
  h.drains_cleanupQueuesFrom stamp _

/-- `process_deferred_over_size_limit`, round by round. -/
theorem DeferInv.drains_processDeferredOverSizeLimit (h : DeferInv s)
    {rounds : List (UInt64 × ℕ)} (hrounds : ∀ r ∈ rounds, r.2 < priorityUdp) :
    Drains s (processDeferredOverSizeLimitOut s rounds)
      (KnotResolver.processDeferredOverSizeLimit s rounds) := by
  induction rounds generalizing s with
  | nil => exact Drains.of_sessions rfl fun _ _ => rfl
  | cons r rounds ih =>
    obtain ⟨stamp, priority⟩ := r
    simp only [processDeferredOverSizeLimitOut, KnotResolver.processDeferredOverSizeLimit]
    split_ifs
    · have hprio := hrounds _ List.mem_cons_self
      exact (h.drains_processSingleDeferred stamp priority).trans
        (ih (h.processSingleDeferred stamp hprio) fun r hr => hrounds r (List.mem_cons_of_mem _ hr))
    · exact Drains.of_sessions rfl fun _ _ => rfl

end DrainsLoops

/-! ## The order of a stream -/

section Ordered

variable {s t : DeferState} {I : List DeferIn} {O : List DeferOut}

/-- For every stream session, what the layer handed on followed by what waits in the session's
queue is what the session received, with some EOF events left out. -/
def DeferOrdered (s : DeferState) (I : List DeferIn) (O : List DeferOut) : Prop :=
  ∀ n, (s.sessions n).stream = true →
    Simulation.Thins (O.filterMap (DeferOut.ofSession n) ++ sessionPending s n)
      (I.filterMap (DeferIn.ofSession n))

theorem DeferOrdered.drains (h : DeferOrdered s I O) {o : List DeferOut} (hd : Drains s o t) :
    DeferOrdered t I (O ++ o) := by
  intro n hn
  have hn' : (s.sessions n).stream = true := by rw [← hd.stream n]; exact hn
  rw [List.filterMap_append, List.append_assoc]
  exact ((hd.thins n hn').append_left _).trans (h n hn')

/-- An event received: for every stream session, what is handed on of it followed by the queue
afterwards is the queue before followed by the event. -/
theorem DeferOrdered.receive (h : DeferOrdered s I O) (i : DeferIn) {o : List DeferOut}
    (hstream : ∀ n, (t.sessions n).stream = (s.sessions n).stream)
    (hq : ∀ n, (s.sessions n).stream = true →
      o.filterMap (DeferOut.ofSession n) ++ sessionPending t n =
        sessionPending s n ++ (i.ofSession n).toList) :
    DeferOrdered t (I ++ [i]) (O ++ o) := by
  intro n hn
  have hn' : (s.sessions n).stream = true := by rw [← hstream n]; exact hn
  rw [List.filterMap_append, List.append_assoc, hq n hn', ← List.append_assoc,
    List.filterMap_append]
  have hi : [i].filterMap (DeferIn.ofSession n) = (i.ofSession n).toList := by
    cases hx : i.ofSession n <;> simp [hx]
  rw [hi]
  exact (h n hn').append_right _

end Ordered

section Steps

variable {s : DeferState} {I : List DeferIn} {O : List DeferOut}

@[simp] theorem DeferIn.ofSession_req (id m n : ℕ) :
    (DeferIn.req id m).ofSession n = if m = n then some (some id) else none := rfl

@[simp] theorem DeferIn.ofSession_eof (m n : ℕ) :
    (DeferIn.eof m).ofSession n = if m = n then some none else none := rfl

/-- An EOF event: deferred behind the data of its stream, or handed on when none waits. -/
theorem DeferOrdered.eof (h : DeferOrdered s I O) (n : ℕ) :
    DeferOrdered (plDeferEventUnwrapEof s n) (I ++ [.eof n]) (O ++ plDeferEventUnwrapEofOut s n) ∧
      ∀ m, ((plDeferEventUnwrapEof s n).sessions m).stream = (s.sessions m).stream := by
  unfold plDeferEventUnwrapEof plDeferEventUnwrapEofOut
  dsimp only
  by_cases hq : (s.sessions n).stream ∧ (s.sessions n).queue ≠ []
  · -- deferred: a marker at the end of the session's queue
    rw [if_pos hq, if_pos hq]
    have hstr : ∀ m, ((s.setSession n { s.sessions n with
        queue := (s.sessions n).queue ++ [none] }).sessions m).stream = (s.sessions m).stream := by
      intro m
      by_cases hmn : m = n
      · rw [hmn, sessions_setSession_self]
      · rw [sessions_setSession_of_ne hmn]
    refine ⟨h.receive _ hstr fun m _ => ?_, hstr⟩
    by_cases hmn : m = n
    · subst hmn
      simp [sessionPending]
    · simp [sessionPending, sessions_setSession_of_ne hmn, Ne.symm hmn]
  · -- handed on: nothing of the stream waits
    rw [if_neg hq, if_neg hq]
    refine ⟨h.receive _ (fun _ => rfl) fun m hm => ?_, fun _ => rfl⟩
    by_cases hmn : m = n
    · subst hmn
      have hnil : (s.sessions m).queue = [] := by
        by_contra hne
        exact hq ⟨hm, hne⟩
      simp [sessionPending, hnil]
    · simp [Ne.symm hmn]

/-- The sessions after `deferArrival`: a stream's queue, empty before, holds the request. -/
theorem deferArrival_sessions (stamp : UInt64) (a : Arrival) (m : ℕ) :
    ((deferArrival s stamp a).sessions m).stream = (s.sessions m).stream ∧
      ((s.sessions m).stream = true → (s.sessions a.session).queue = [] →
        sessionPending (deferArrival s stamp a) m =
          sessionPending s m ++ if a.session = m then [some a.id] else []) := by
  unfold deferArrival
  dsimp only
  by_cases hs : (s.sessions a.session).stream = true
  · rw [if_pos hs, if_pos hs]
    by_cases hm : m = a.session
    · subst hm
      refine ⟨by simp [pushQuery], fun _ hnil => ?_⟩
      simp [sessionPending, pushQuery, hnil]
    · refine ⟨by simp [pushQuery, sessions_setSession_of_ne hm], fun _ _ => ?_⟩
      simp [sessionPending, pushQuery, sessions_setSession_of_ne hm, Ne.symm hm]
  · rw [if_neg hs, if_neg hs]
    refine ⟨by simp [pushQuery], fun hm _ => ?_⟩
    have hne : a.session ≠ m := fun h => hs (h ▸ hm)
    simp [sessionPending, pushQuery, hne]

end Steps

section Unwrap

variable {s : DeferState} {I : List DeferIn} {O : List DeferOut}

/-- The rounds of `process_deferred_over_size_limit` after an event is received keep the order
of every stream. -/
theorem DeferInv.ordered_rounds {s₀ s₁ : DeferState} {I' : List DeferIn} (hinv1 : DeferInv s₁)
    (hord1 : DeferOrdered s₁ I' O) (hstr1 : ∀ m, (s₁.sessions m).stream = (s₀.sessions m).stream)
    {rounds : List (UInt64 × ℕ)} (hrounds : ∀ r ∈ rounds, r.2 < priorityUdp) :
    DeferOrdered (KnotResolver.processDeferredOverSizeLimit s₁ rounds) I'
        (O ++ processDeferredOverSizeLimitOut s₁ rounds) ∧
      ∀ m, ((KnotResolver.processDeferredOverSizeLimit s₁ rounds).sessions m).stream =
        (s₀.sessions m).stream :=
  have hd := hinv1.drains_processDeferredOverSizeLimit hrounds
  ⟨hord1.drains hd, fun m => (hd.stream m).trans (hstr1 m)⟩

/-- `pl_defer_unwrap`: a follow-up joins its stream's queue, a request goes on at once when none
of its stream waits, or it is deferred; the rounds after it hand on from the front of the
queues. -/
theorem DeferInv.ordered_plDeferUnwrap (hinv : DeferInv s) (h : DeferOrdered s I O)
    (stamp : UInt64) {a : Arrival} (hfresh : a.Fresh s) (hvalid : a.Valid s)
    {rounds : List (UInt64 × ℕ)} (hrounds : ∀ r ∈ rounds, r.2 < priorityUdp) :
    DeferOrdered (KnotResolver.plDeferUnwrap s stamp a rounds).2 (I ++ [.req a.id a.session])
        (O ++ plDeferUnwrapOut s stamp a rounds) ∧
      ∀ m, ((KnotResolver.plDeferUnwrap s stamp a rounds).2.sessions m).stream =
        (s.sessions m).stream := by
  unfold KnotResolver.plDeferUnwrap plDeferUnwrapOut
  dsimp only
  by_cases hq : (s.sessions a.session).queue ≠ []
  · -- a follow-up at the end of its stream's queue
    rw [if_pos hq, if_pos hq]
    set d : DeferSession := { s.sessions a.session with
      queue := (s.sessions a.session).queue ++ [some ⟨a.id, a.session, stamp, a.iterSize⟩] }
    have hinv1 : DeferInv { s.setSession a.session d with
        waitingRequestsSize := s.waitingRequestsSize + a.iterSize } := by
      refine hinv.appendSession (d := d) rfl rfl rfl (fun hnil => absurd hnil hq) ?_ (by simp)
        (by simp)
      intro y hy
      obtain rfl : y = ⟨a.id, a.session, stamp, a.iterSize⟩ := by simpa using hy
      exact ⟨rfl, hfresh.count_eq_zero rfl, fun hmem => hfresh.ne hmem rfl rfl⟩
    have hstr1 : ∀ m, (({ s.setSession a.session d with
        waitingRequestsSize := s.waitingRequestsSize + a.iterSize }).sessions m).stream =
          (s.sessions m).stream := by
      intro m
      by_cases hm : m = a.session
      · rw [hm]
        exact sessions_setSession_self ▸ rfl
      · exact congrArg DeferSession.stream (sessions_setSession_of_ne hm)
    have hord1 := h.receive (.req a.id a.session) (o := []) hstr1 fun m _ => by
      by_cases hm : m = a.session
      · subst hm
        simp [sessionPending, d]
      · simp [sessionPending, sessions_setSession_of_ne hm, Ne.symm hm]
    rw [List.append_nil] at hord1
    exact hinv1.ordered_rounds hord1 hstr1 hrounds
  · rw [if_neg hq, if_neg hq]
    have hnil : (s.sessions a.session).queue = [] := not_not.mp hq
    generalize hr : (if (a.priority = 0 ∨ a.priority = priorityUdp) ∧ s.queues a.priority = [] then
        phaseTrySet s stamp (if a.priority = priorityUdp then .udp else .nonUdp)
      else (false, s)) = r
    have hronly : PhaseOnly s r.2 := by
      rw [← hr]
      by_cases hc : (a.priority = 0 ∨ a.priority = priorityUdp) ∧ s.queues a.priority = []
      · rw [if_pos hc]
        exact phaseOnly_phaseTrySet stamp _
      · rw [if_neg hc]
        exact PhaseOnly.refl s
    have hord0 : DeferOrdered r.2 I O := fun n hn => by
      rw [sessionPending, hronly.sessions]
      exact h n (by rw [← hronly.sessions]; exact hn)
    by_cases hr1 : r.1 = true
    · -- handed on at once: nothing of its stream waits
      rw [if_pos hr1, if_pos hr1]
      refine ⟨hord0.receive _ (fun _ => rfl) fun m hm => ?_, fun m => by rw [hronly.sessions]⟩
      by_cases hmn : m = a.session
      · subst hmn
        simp [sessionPending, hronly.sessions, hnil]
      · simp [Ne.symm hmn]
    · -- deferred at the end of its stream's queue
      rw [if_neg hr1, if_neg hr1]
      have hinv1 := (hinv.of_phaseOnly hronly).deferArrival stamp (hfresh.of_phaseOnly hronly)
        (hvalid.of_phaseOnly hronly) (by rw [hronly.sessions]; exact hnil)
      have hstr1 : ∀ m, ((KnotResolver.deferArrival r.2 stamp a).sessions m).stream =
          (s.sessions m).stream :=
        fun m => (deferArrival_sessions stamp a m).1.trans (by rw [hronly.sessions])
      have hord1 := hord0.receive (.req a.id a.session) (o := []) (fun m => by
          rw [(deferArrival_sessions stamp a m).1]) fun m hm => by
        rw [List.filterMap_nil, List.nil_append, (deferArrival_sessions stamp a m).2 hm
          (by rw [hronly.sessions]; exact hnil)]
        by_cases hmn : a.session = m <;> simp [hmn]
      rw [List.append_nil] at hord1
      exact hinv1.ordered_rounds hord1 hstr1 hrounds

end Unwrap

section Run

variable {s t : DeferState} {I : List DeferIn} {O : List DeferOut}

/-- A step that receives nothing and hands on from the front of the queues. -/
theorem DeferOrdered.step_of_drains (h : DeferOrdered s I O) {o : List DeferOut}
    (hd : Drains s o t) :
    DeferOrdered t (I ++ []) (O ++ o) ∧ ∀ m, (t.sessions m).stream = (s.sessions m).stream :=
  ⟨by simpa using h.drains hd, hd.stream⟩

/-- The step lemma: every traced step keeps the order of every stream and the kind of every
session. -/
theorem DeferOrdered.step (hinv : DeferInv s) (h : DeferOrdered s I O) {i : List DeferIn}
    {o : List DeferOut} (hstep : DeferTrace s i o t) :
    DeferOrdered t (I ++ i) (O ++ o) ∧ ∀ m, (t.sessions m).stream = (s.sessions m).stream := by
  cases hstep with
  | unwrap stamp a rounds hfresh hvalid hrounds =>
    exact hinv.ordered_plDeferUnwrap h stamp hfresh hvalid hrounds
  | eof n => exact h.eof n
  | process stamp priority _ =>
    exact h.step_of_drains (hinv.drains_processSingleDeferred stamp priority)
  | cleanup stamp => exact h.step_of_drains (hinv.drains_cleanupQueues stamp)
  | idleStop stamp _ => exact h.step_of_drains (Drains.of_sessions rfl fun _ _ => rfl)
  | close n =>
    -- the session only starts closing: its queue stays
    exact h.step_of_drains (Drains.of_update (m := n) (d := { s.sessions n with closing := true })
      (by simp [DeferState.closeSession, DeferState.setSession]) rfl
      (fun _ => Simulation.Thins.refl _) fun _ _ => rfl)

/-- The run lemma: from empty session queues, every traced run keeps the invariant of the
scheduler, the order of every stream and the kind of every session. -/
theorem DeferTraceRun.ordered (hrun : DeferTraceRun s I O t) (hinv : DeferInv s)
    (hnil : ∀ n, (s.sessions n).queue = []) :
    DeferInv t ∧ DeferOrdered t I O ∧ ∀ m, (t.sessions m).stream = (s.sessions m).stream := by
  induction hrun with
  | refl =>
    refine ⟨hinv, fun n _ => ?_, fun _ => rfl⟩
    rw [sessionPending, hnil n]
    exact Simulation.Thins.refl []
  | tail _ hstep ih =>
    obtain ⟨hinv', hord, hstr⟩ := ih
    obtain ⟨hord', hstr'⟩ := hord.step hinv' hstep
    exact ⟨hinv'.step hstep.step, hord', fun m => (hstr' m).trans (hstr m)⟩

end Run

/-- What the layer did with the events of stream session `n`, given what it received `I` and
handed on `O` on the way to `t`: the requests it continued or broke, followed by those still in
the session's queue, are the requests it received, in order and each once; and an EOF event it
handed on is one it received after exactly the requests continued or broken before it. -/
structure StreamOrder (I : List DeferIn) (O : List DeferOut) (t : DeferState) (n : ℕ) : Prop where
  requests : (O.filterMap (DeferOut.ofSession n)).reduceOption ++
    (sessionPending t n).reduceOption = (I.filterMap (DeferIn.ofSession n)).reduceOption
  eof_after : ∀ O₁ O₂, O.filterMap (DeferOut.ofSession n) = O₁ ++ none :: O₂ →
    ∃ I₁ I₂, I.filterMap (DeferIn.ofSession n) = I₁ ++ none :: I₂ ∧
      I₁.reduceOption = O₁.reduceOption

theorem deferTraceRun_stream_order {sessions : ℕ → DeferSession}
    (hinit : ∀ n, (sessions n).queue = []) {I : List DeferIn} {O : List DeferOut} {t : DeferState}
    (hrun : DeferTraceRun (deferInit sessions) I O t) {n : ℕ} (hn : (sessions n).stream = true) :
    StreamOrder I O t n := by
  obtain ⟨-, hord, hstr⟩ := hrun.ordered (deferInv_deferInit sessions hinit) hinit
  have hth := hord n (by rw [hstr n]; exact hn)
  refine ⟨by rw [← List.reduceOption_append]; exact hth.2, fun O₁ O₂ hO => ?_⟩
  rw [hO, List.append_assoc, List.cons_append] at hth
  exact hth.split_none

theorem deferTraceRun_stream_order_eof :
    StreamOrder ([] ++ [.req 7 0] ++ [.eof 0])
      ([] ++ plDeferUnwrapOut (deferInit fun _ => ⟨true, false, [], 1⟩) 0 ⟨7, 0, 1, 1, 0, 1⟩ [] ++
        plDeferEventUnwrapEofOut
          (plDeferUnwrap (deferInit fun _ => ⟨true, false, [], 1⟩) 0 ⟨7, 0, 1, 1, 0, 1⟩ []).2 0)
      (plDeferEventUnwrapEof
        (plDeferUnwrap (deferInit fun _ => ⟨true, false, [], 1⟩) 0 ⟨7, 0, 1, 1, 0, 1⟩ []).2 0) 0 :=
  deferTraceRun_stream_order (fun _ => rfl)
    ((DeferTraceRun.refl (deferInit fun _ => ⟨true, false, [], 1⟩)).tail
      (DeferTrace.unwrap 0 ⟨7, 0, 1, 1, 0, 1⟩ []
      ⟨fun _ _ hc => by simp [deferInit] at hc, fun _ _ hc => by simp [deferInit] at hc⟩
      (by simp [Arrival.Valid, deferInit, priorityUdp, queuesCnt]) (by simp)) |>.tail
      (DeferTrace.eof 0)) rfl

end KnotResolver
