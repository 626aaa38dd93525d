import Mathlib
import KnotResolver.Lib.Simulation

/-!
# The chunked double-ended queue

lib/generic/queue.c and queue.h: a queue of fixed-size items kept in a chain of chunks of
chunk_cap slots each, from q->head to q->tail, a chunk holding its items in the slots
[begin, end). queue_push fills the tail chunk from its end and queue_push_head the head chunk
from its begin; when a chunk is full they shift its items if it is at most half used, and chain a
new chunk otherwise. queue_pop drops the first item and frees the head chunk with its last one.
A kr_require that fails aborts; here the operation returns none. A slot holds none until an item
is written to it, as memory from malloc is uninitialised.

The chain is a list of chunks, head first, so q->tail is its last element and the next pointers
its order. queue_refines_deque is the refinement: from queue_init, every run of pushes and pops of
a non-empty queue succeeds and implements the double-ended list of the run
(Simulation.foldlM_of_step over Queue.Refines, kept by each operation).
-/

namespace KnotResolver

/-! ## The chunks -/

/-- struct queue_chunk: the indices begin and end of its items, its capacity, and its slots,
none where nothing was written since malloc. -/
structure QueueChunk (α : Type) where
  beginIx : ℕ
  endIx : ℕ
  cap : ℕ
  data : ℕ → Option α

/-- struct queue, with the chain of chunks from q->head to q->tail. -/
structure Queue (α : Type) where
  len : ℕ
  chunkCap : ℕ
  chunks : List (QueueChunk α)

variable {α : Type}

namespace QueueChunk

/-- The items of a chunk, in order: the slots [begin, end). -/
def items (c : QueueChunk α) : List (Option α) :=
  (List.range' c.beginIx (c.endIx - c.beginIx)).map c.data

/-- The write of queue_push: the item in the slot at end, which moves past it. -/
def pushBack (t : QueueChunk α) (x : α) : QueueChunk α :=
  { t with endIx := t.endIx + 1, data := Function.update t.data t.endIx (some x) }

/-- The write of queue_push_head: begin moves back by one and the item goes there. -/
def pushFront (h : QueueChunk α) (x : α) : QueueChunk α :=
  { h with beginIx := h.beginIx - 1, data := Function.update h.data (h.beginIx - 1) (some x) }

/-- The shift of queue_push_impl: the items copied to the start of the chunk. -/
def shiftDown (t : QueueChunk α) : QueueChunk α :=
  { t with
    beginIx := 0
    endIx := t.endIx - t.beginIx
    data := fun k => if k < t.endIx - t.beginIx then t.data (k + t.beginIx) else t.data k }

/-- The shift of queue_push_head_impl, on a chunk whose begin is zero: the items copied to the
end of the chunk. -/
def shiftUp (h : QueueChunk α) : QueueChunk α :=
  { h with
    beginIx := h.cap - h.endIx
    endIx := h.cap
    data := fun k => if h.cap - h.endIx ≤ k ∧ k < h.cap then h.data (k - (h.cap - h.endIx))
      else h.data k }

end QueueChunk

/-- The items of a queue, head first. -/
def Queue.items (q : Queue α) : List (Option α) := q.chunks.flatMap QueueChunk.items

/-! ## The operations -/

/-- queue_init_impl, with 64-bit pointers: a chunk takes 128 bytes less its 16-byte header and
8 bytes left to the allocator. -/
def queueInit (itemSize : ℕ) : Queue α :=
  let cap := (128 - 16 - 8) / itemSize
  { len := 0, chunkCap := if cap = 0 then 1 else cap, chunks := [] }

/-- queue_chunk_new -/
def queueChunkNew (q : Queue α) : QueueChunk α :=
  { beginIx := 0, endIx := 0, cap := q.chunkCap, data := fun _ => none }

/-- queue_push: queue_push_impl and the write through the pointer it returns. -/
def queuePush (q : Queue α) (x : α) : Option (Queue α) := do
  -- the chunks before the one that takes the item, and that chunk
  let (pre, t) ← match q.chunks.getLast? with
    | none => if q.len = 0 then some ([], queueChunkNew q) else none
    | some t =>
      if t.endIx = t.cap then
        if t.beginIx * 2 ≥ t.cap then some (q.chunks.dropLast, t.shiftDown)
        else some (q.chunks, queueChunkNew q)
      else some (q.chunks.dropLast, t)
  if t.endIx < t.cap then some { q with len := q.len + 1, chunks := pre ++ [t.pushBack x] }
  else none

/-- queue_push_head: queue_push_head_impl and the write through the pointer it returns. A new
chunk is filled from its tail end. -/
def queuePushHead (q : Queue α) (x : α) : Option (Queue α) := do
  -- the chunk that takes the item, and the chunks after it
  let (h, post) ← match q.chunks with
    | [] =>
      if q.len = 0 then some ({ queueChunkNew q with beginIx := q.chunkCap, endIx := q.chunkCap }, [])
      else none
    | h :: hs =>
      if h.beginIx = 0 then
        if h.endIx * 2 ≤ h.cap then some (h.shiftUp, hs)
        else some ({ queueChunkNew q with beginIx := q.chunkCap, endIx := q.chunkCap }, h :: hs)
      else some (h, hs)
  if 0 < h.beginIx then some { q with len := q.len + 1, chunks := h.pushFront x :: post }
  else none

/-- queue_pop_impl: the head chunk loses its first item, and is freed with its last one. -/
def queuePop (q : Queue α) : Option (Queue α) :=
  match q.chunks with
  | [] => none
  | h :: hs =>
    if h.beginIx < h.endIx then
      if h.endIx - h.beginIx = 1 then
        -- kr_require((q->len == 1) == (q->head == q->tail))
        if (q.len == 1) == hs.isEmpty then some { q with len := q.len - 1, chunks := hs } else none
      else some { q with len := q.len - 1, chunks := { h with beginIx := h.beginIx + 1 } :: hs }
    else none

/-- queue_head -/
def queueHead (q : Queue α) : Option α :=
  match q.chunks with
  | h :: _ => if h.beginIx < h.endIx then h.data h.beginIx else none
  | [] => none

/-- queue_tail -/
def queueTail (q : Queue α) : Option α :=
  match q.chunks.getLast? with
  | some t => if t.beginIx < t.endIx then t.data (t.endIx - 1) else none
  | none => none

/-! ## Iteration -/

/-- struct queue_it: the chunk it->chunk and those after it, and the position in it (pos is -1
without a chunk, and then never read). -/
structure QueueIt (α : Type) where
  chunks : List (QueueChunk α)
  pos : ℕ

/-- An iterator at the first item of a chain of chunks. -/
def queueItAt (cs : List (QueueChunk α)) : QueueIt α :=
  { chunks := cs, pos := match cs with | d :: _ => d.beginIx | [] => 0 }

/-- queue_it_begin -/
def queueItBegin (q : Queue α) : QueueIt α := queueItAt q.chunks

/-- queue_it_finished -/
def queueItFinished (it : QueueIt α) : Bool :=
  match it.chunks with
  | [] => true
  | c :: _ => it.pos ≥ c.endIx

/-- queue_it_val -/
def queueItVal (it : QueueIt α) : Option α :=
  match it.chunks with
  | c :: _ => if it.pos < c.endIx then c.data it.pos else none
  | [] => none

/-- queue_it_next, called only on an iterator that is not finished. -/
def queueItNext (it : QueueIt α) : QueueIt α :=
  match it.chunks with
  | [] => it
  | c :: cs =>
    if it.pos + 1 < c.endIx then { it with pos := it.pos + 1 }
    else queueItAt cs

/-- The loop for (it = queue_it_begin(q); !queue_it_finished(it); queue_it_next(it)), for at
most n rounds: the values queue_it_val reads. -/
def queueItValues : ℕ → QueueIt α → List (Option α)
  | 0, _ => []
  | n + 1, it => if queueItFinished it then [] else queueItVal it :: queueItValues n (queueItNext it)

namespace QueueChunk

variable (c : QueueChunk α)

@[simp] theorem length_items : c.items.length = c.endIx - c.beginIx := by
  simp [items]

/-- The slots of a chunk's items: a write outside them leaves its items. -/
theorem items_congr {d : ℕ → Option α} (h : ∀ k, c.beginIx ≤ k → k < c.endIx → d k = c.data k) :
    (List.range' c.beginIx (c.endIx - c.beginIx)).map d = c.items := by
  unfold items
  apply List.map_congr_left
  intro k hk
  rw [List.mem_range'_1] at hk
  exact h k hk.1 (by omega)

theorem items_pushBack (x : α) (h : c.beginIx ≤ c.endIx) :
    (c.pushBack x).items = c.items ++ [some x] := by
  have hlen : c.endIx + 1 - c.beginIx = (c.endIx - c.beginIx) + 1 := by omega
  simp only [items, pushBack, hlen, List.range'_concat, List.map_append, List.map_cons,
    List.map_nil]
  congr 1
  · apply items_congr
    intro k _ hk
    exact Function.update_of_ne (by omega) _ _
  · have hk : c.beginIx + 1 * (c.endIx - c.beginIx) = c.endIx := by omega
    rw [hk, Function.update_self]

theorem items_pushFront (x : α) (h0 : 0 < c.beginIx) (h : c.beginIx ≤ c.endIx) :
    (c.pushFront x).items = some x :: c.items := by
  have hlen : c.endIx - (c.beginIx - 1) = (c.endIx - c.beginIx) + 1 := by omega
  have hb : c.beginIx - 1 + 1 = c.beginIx := by omega
  simp only [items, pushFront, hlen, List.range'_succ, List.map_cons, hb, Function.update_self]
  congr 1
  apply items_congr
  intro k hk _
  exact Function.update_of_ne (by omega) _ _

theorem items_shiftDown : c.shiftDown.items = c.items := by
  unfold items shiftDown
  dsimp only
  rw [Nat.sub_zero, List.range'_eq_map_range, List.range'_eq_map_range, List.map_map,
    List.map_map]
  apply List.map_congr_left
  intro k hk
  rw [List.mem_range] at hk
  simp [hk, Nat.add_comm]

theorem items_shiftUp (h0 : c.beginIx = 0) (h : c.endIx ≤ c.cap) : c.shiftUp.items = c.items := by
  unfold items shiftUp
  dsimp only
  have hlen : c.cap - (c.cap - c.endIx) = c.endIx := by omega
  rw [hlen, h0, Nat.sub_zero, List.range'_eq_map_range, List.range'_eq_map_range, List.map_map,
    List.map_map]
  apply List.map_congr_left
  intro k hk
  rw [List.mem_range] at hk
  have hle : c.cap - c.endIx ≤ c.cap - c.endIx + k ∧ c.cap - c.endIx + k < c.cap := by omega
  simp only [Function.comp_apply, if_pos hle, Nat.zero_add]
  congr 1
  omega

theorem items_popFront (h : c.beginIx < c.endIx) :
    { c with beginIx := c.beginIx + 1 }.items = c.items.tail := by
  have hlen : c.endIx - c.beginIx = (c.endIx - (c.beginIx + 1)) + 1 := by omega
  simp only [items, hlen, List.range'_succ, List.map_cons, List.tail_cons]

end QueueChunk

/-! ## The invariant -/

/-- A chunk as struct queue_chunk documents it: of the queue's capacity, and
0 <= begin < end <= cap, so never empty. -/
structure QueueChunk.Valid (cap : ℕ) (c : QueueChunk α) : Prop where
  cap_eq : c.cap = cap
  begin_lt_end : c.beginIx < c.endIx
  end_le_cap : c.endIx ≤ c.cap

/-- A queue that holds the list l: a chain of valid chunks whose items are those of l, len
their number, and a capacity within the range of the int16 indices. -/
structure Queue.Refines (q : Queue α) (l : List α) : Prop where
  cap_pos : 0 < q.chunkCap
  cap_le : q.chunkCap ≤ 104
  valid : ∀ c ∈ q.chunks, c.Valid q.chunkCap
  len_eq : q.len = l.length
  items_eq : q.items = l.map some

theorem QueueChunk.Valid.items_ne_nil {cap : ℕ} {c : QueueChunk α} (h : c.Valid cap) :
    c.items ≠ [] := by
  rw [← List.length_pos_iff, QueueChunk.length_items]
  have := h.begin_lt_end
  omega

theorem Queue.length_items (q : Queue α) :
    q.items.length = (q.chunks.map fun c => c.endIx - c.beginIx).sum := by
  simp [Queue.items, List.length_flatMap]

theorem queueInit_refines (itemSize : ℕ) : (queueInit itemSize : Queue α).Refines [] := by
  have hcap : (if (128 - 16 - 8) / itemSize = 0 then 1 else (128 - 16 - 8) / itemSize) ≤ 104 := by
    split
    · omega
    · exact Nat.div_le_self _ _
  refine ⟨?_, hcap, by simp [queueInit], rfl, rfl⟩
  show 0 < if (128 - 16 - 8) / itemSize = 0 then 1 else (128 - 16 - 8) / itemSize
  split
  · exact Nat.one_pos
  · exact Nat.pos_of_ne_zero (by assumption)

section Steps

variable {q : Queue α} {l : List α}

/-- What queue_push does: the item goes past the end of a chunk t with room for it, appended to
the other chunks pre, where t is the tail chunk, the tail chunk shifted, or a new chunk. -/
theorem queuePush_spec (hq : q.Refines l) (x : α) : ∃ (pre : List (QueueChunk α)) (t : QueueChunk α),
    queuePush q x = some { q with len := q.len + 1, chunks := pre ++ [t.pushBack x] } ∧
      pre.flatMap QueueChunk.items ++ t.items = q.items ∧ (∀ c ∈ pre, c.Valid q.chunkCap) ∧
      t.cap = q.chunkCap ∧ t.beginIx ≤ t.endIx ∧ t.endIx < t.cap := by
  cases ht : q.chunks.getLast? with
  | none =>
    have hc : q.chunks = [] := List.getLast?_eq_none_iff.mp ht
    have hlen : q.len = 0 := by
      have h := hq.items_eq
      rw [Queue.items, hc, List.flatMap_nil, eq_comm, List.map_eq_nil_iff] at h
      rw [hq.len_eq, h, List.length_nil]
    refine ⟨[], queueChunkNew q, ?_, ?_, by simp, rfl, le_rfl, hq.cap_pos⟩
    · simp [queuePush, ht, hlen, queueChunkNew, hq.cap_pos]
    · simp [Queue.items, hc, queueChunkNew, QueueChunk.items]
  | some t =>
    have hsplit : q.chunks.dropLast ++ [t] = q.chunks := List.dropLast_append_getLast? t ht
    have htv : t.Valid q.chunkCap := hq.valid t (List.mem_of_getLast? ht)
    have hpre : ∀ c ∈ q.chunks.dropLast, c.Valid q.chunkCap :=
      fun c hc => hq.valid c (List.mem_of_mem_dropLast hc)
    have hitems : q.chunks.dropLast.flatMap QueueChunk.items ++ t.items = q.items := by
      have h := congrArg (List.flatMap QueueChunk.items) hsplit
      rwa [List.flatMap_append, List.flatMap_singleton] at h
    by_cases hfull : t.endIx = t.cap
    · by_cases hshift : t.beginIx * 2 ≥ t.cap
      · -- under half full: the items move to the start of the tail chunk
        refine ⟨q.chunks.dropLast, t.shiftDown, ?_, by rw [QueueChunk.items_shiftDown, hitems],
          hpre, htv.cap_eq, by simp [QueueChunk.shiftDown], ?_⟩
        · have hcap : 0 < t.cap := htv.cap_eq ▸ hq.cap_pos
          have hb : t.beginIx ≠ 0 := by omega
          simp [queuePush, ht, hfull, hshift, QueueChunk.shiftDown, hcap, hb]
        · have := htv.begin_lt_end
          have := hq.cap_pos
          have := htv.cap_eq
          simp only [QueueChunk.shiftDown]
          omega
      · -- the tail grows by a new chunk
        refine ⟨q.chunks, queueChunkNew q, ?_, ?_, hq.valid, rfl, le_rfl, hq.cap_pos⟩
        · simp [queuePush, ht, hfull, hshift, queueChunkNew, hq.cap_pos]
        · simp [Queue.items, queueChunkNew, QueueChunk.items]
    · have hlt : t.endIx < t.cap := lt_of_le_of_ne htv.end_le_cap hfull
      refine ⟨q.chunks.dropLast, t, ?_, hitems, hpre, htv.cap_eq, htv.begin_lt_end.le, hlt⟩
      simp [queuePush, ht, hfull, hlt]

theorem Queue.Refines.push (hq : q.Refines l) (x : α) :
    ∃ q', queuePush q x = some q' ∧ q'.Refines (l ++ [x]) := by
  obtain ⟨pre, t, hpush, hitems, hpre, hcap, hle, hlt⟩ := queuePush_spec hq x
  refine ⟨_, hpush, hq.cap_pos, hq.cap_le, ?_, ?_, ?_⟩
  · intro c hc
    rcases List.mem_append.mp hc with hc | hc
    · exact hpre c hc
    · rw [List.mem_singleton.mp hc]
      exact ⟨hcap, by simp [QueueChunk.pushBack]; omega, by simp [QueueChunk.pushBack]; omega⟩
  · simp [hq.len_eq]
  · rw [Queue.items, List.flatMap_append, List.flatMap_singleton,
      QueueChunk.items_pushBack _ _ hle, ← List.append_assoc, hitems, hq.items_eq]
    simp

/-- What queue_push_head does: the item goes before the begin of a chunk h with room for it,
in front of the other chunks post, where h is the head chunk, the head chunk shifted, or a new
chunk filled from its end. -/
theorem queuePushHead_spec (hq : q.Refines l) (x : α) :
    ∃ (h : QueueChunk α) (post : List (QueueChunk α)),
      queuePushHead q x = some { q with len := q.len + 1, chunks := h.pushFront x :: post } ∧
      h.items ++ post.flatMap QueueChunk.items = q.items ∧ (∀ c ∈ post, c.Valid q.chunkCap) ∧
      h.cap = q.chunkCap ∧ 0 < h.beginIx ∧ h.beginIx ≤ h.endIx ∧ h.endIx ≤ h.cap := by
  -- a new chunk, its begin and end at its capacity
  have hnew : ({ queueChunkNew q with beginIx := q.chunkCap, endIx := q.chunkCap } : QueueChunk α).items
      = [] := by
    simp [QueueChunk.items]
  cases hc : q.chunks with
  | nil =>
    have hlen : q.len = 0 := by
      have h := hq.items_eq
      rw [Queue.items, hc, List.flatMap_nil, eq_comm, List.map_eq_nil_iff] at h
      rw [hq.len_eq, h, List.length_nil]
    refine ⟨{ queueChunkNew q with beginIx := q.chunkCap, endIx := q.chunkCap }, [], ?_, ?_,
      by simp, rfl, hq.cap_pos, le_rfl, le_rfl⟩
    · simp [queuePushHead, hc, hlen, hq.cap_pos]
    · simp [Queue.items, hc, hnew]
  | cons h hs =>
    have hv : h.Valid q.chunkCap := hq.valid h (by simp [hc])
    have hpost : ∀ c ∈ hs, c.Valid q.chunkCap := fun c hm => hq.valid c (by simp [hc, hm])
    have hitems : h.items ++ hs.flatMap QueueChunk.items = q.items := by
      rw [Queue.items, hc, List.flatMap_cons]
    by_cases hb : h.beginIx = 0
    · by_cases hshift : h.endIx * 2 ≤ h.cap
      · -- under half full: the items move to the end of the head chunk
        have hlt : h.endIx < h.cap := by
          have := hv.begin_lt_end
          omega
        refine ⟨h.shiftUp, hs, ?_, by rw [QueueChunk.items_shiftUp _ hb hv.end_le_cap, hitems],
          hpost, hv.cap_eq, by simp [QueueChunk.shiftUp]; omega, by simp [QueueChunk.shiftUp],
          by simp [QueueChunk.shiftUp]⟩
        simp [queuePushHead, hc, hb, hshift, QueueChunk.shiftUp, hlt]
      · -- the head grows by a new chunk
        refine ⟨{ queueChunkNew q with beginIx := q.chunkCap, endIx := q.chunkCap }, h :: hs, ?_,
          ?_, by rw [← hc]; exact hq.valid, rfl, hq.cap_pos, le_rfl, le_rfl⟩
        · simp [queuePushHead, hc, hb, hshift, hq.cap_pos]
        · rw [hnew, List.nil_append, ← hc]
          rfl
    · refine ⟨h, hs, ?_, hitems, hpost, hv.cap_eq, Nat.pos_of_ne_zero hb, hv.begin_lt_end.le,
        hv.end_le_cap⟩
      simp [queuePushHead, hc, hb, Nat.pos_of_ne_zero hb]

theorem Queue.Refines.pushHead (hq : q.Refines l) (x : α) :
    ∃ q', queuePushHead q x = some q' ∧ q'.Refines (x :: l) := by
  obtain ⟨h, post, hpush, hitems, hpost, hcap, hpos, hle, hend⟩ := queuePushHead_spec hq x
  refine ⟨_, hpush, hq.cap_pos, hq.cap_le, ?_, ?_, ?_⟩
  · intro c hc
    rcases List.mem_cons.mp hc with hc | hc
    · rw [hc]
      exact ⟨hcap, by simp [QueueChunk.pushFront]; omega, by simp [QueueChunk.pushFront]; omega⟩
    · exact hpost c hc
  · simp [hq.len_eq]
  · rw [Queue.items, List.flatMap_cons, QueueChunk.items_pushFront _ _ hpos hle, List.cons_append,
      hitems, hq.items_eq, List.map_cons]

theorem Queue.Refines.pop {y : α} (hq : q.Refines (y :: l)) :
    ∃ q', queuePop q = some q' ∧ q'.Refines l := by
  cases hc : q.chunks with
  | nil =>
    have h := hq.items_eq
    rw [Queue.items, hc, List.flatMap_nil] at h
    exact absurd h.symm (by simp)
  | cons h hs =>
    have hv : h.Valid q.chunkCap := hq.valid h (by simp [hc])
    have hpost : ∀ c ∈ hs, c.Valid q.chunkCap := fun c hm => hq.valid c (by simp [hc, hm])
    have hitems : h.items ++ hs.flatMap QueueChunk.items = some y :: l.map some := by
      rw [← List.map_cons, ← hq.items_eq, Queue.items, hc, List.flatMap_cons]
    by_cases h1 : h.endIx - h.beginIx = 1
    · -- the head chunk holds the popped item alone and is freed
      have hone : h.items = [some y] := by
        have hlen : h.items.length = 1 := by rw [QueueChunk.length_items, h1]
        obtain ⟨a, ha⟩ := List.length_eq_one_iff.mp hlen
        rw [ha, List.singleton_append, List.cons.injEq] at hitems
        rw [ha, hitems.1]
      have hrest : hs.flatMap QueueChunk.items = l.map some := by
        rw [hone, List.singleton_append, List.cons.injEq] at hitems
        exact hitems.2
      -- one item in the queue exactly when the head chunk is the tail chunk
      have hlast : (q.len == 1) == hs.isEmpty := by
        have hnil : hs = [] ↔ l = [] := by
          constructor
          · rintro rfl
            rw [List.flatMap_nil, eq_comm, List.map_eq_nil_iff] at hrest
            exact hrest
          · intro hl
            rw [hl, List.map_nil, List.flatMap_eq_nil_iff] at hrest
            cases hs with
            | nil => rfl
            | cons c cs => exact absurd (hrest c List.mem_cons_self) (hpost c List.mem_cons_self).items_ne_nil
        rw [hq.len_eq]
        cases l with
        | nil => simp [hnil.mpr rfl]
        | cons z zs =>
          have : hs ≠ [] := fun h' => by simp at hnil; exact hnil h'
          simp [this]
      refine ⟨{ q with len := q.len - 1, chunks := hs }, ?_, hq.cap_pos, hq.cap_le, hpost,
        by simp [hq.len_eq], hrest⟩
      simp [queuePop, hc, hv.begin_lt_end, h1, hlast]
    · refine ⟨{ q with len := q.len - 1, chunks := { h with beginIx := h.beginIx + 1 } :: hs }, ?_,
        hq.cap_pos, hq.cap_le, ?_, by simp [hq.len_eq], ?_⟩
      · simp [queuePop, hc, hv.begin_lt_end, h1]
      · intro c hm
        rcases List.mem_cons.mp hm with rfl | hm
        · exact ⟨hv.cap_eq, by have := hv.begin_lt_end; dsimp only; omega, hv.end_le_cap⟩
        · exact hpost c hm
      · have htail := congrArg List.tail hitems
        rw [List.tail_append_of_ne_nil hv.items_ne_nil, List.tail_cons] at htail
        rw [Queue.items, List.flatMap_cons, QueueChunk.items_popFront _ hv.begin_lt_end, htail]

end Steps

/-! ## What the queue shows -/

section Observations

variable {q : Queue α} {l : List α}

theorem QueueChunk.head?_items {c : QueueChunk α} (h : c.beginIx < c.endIx) :
    c.items.head? = some (c.data c.beginIx) := by
  have hlen : c.endIx - c.beginIx = (c.endIx - c.beginIx - 1) + 1 := by omega
  rw [QueueChunk.items, hlen, List.range'_succ, List.map_cons, List.head?_cons]

theorem QueueChunk.getLast?_items {c : QueueChunk α} (h : c.beginIx < c.endIx) :
    c.items.getLast? = some (c.data (c.endIx - 1)) := by
  have hlen : c.endIx - c.beginIx = (c.endIx - c.beginIx - 1) + 1 := by omega
  have hk : c.beginIx + 1 * (c.endIx - c.beginIx - 1) = c.endIx - 1 := by omega
  rw [QueueChunk.items, hlen, List.range'_concat, List.map_append, List.map_singleton,
    List.getLast?_append, List.getLast?_singleton, hk]
  rfl

/-- queue_len -/
theorem Queue.Refines.len_eq_sum (hq : q.Refines l) :
    q.len = (q.chunks.map fun c => c.endIx - c.beginIx).sum := by
  rw [← Queue.length_items, hq.items_eq, List.length_map, hq.len_eq]

theorem Queue.Refines.queueHead_eq (hq : q.Refines l) : queueHead q = l.head? := by
  cases hc : q.chunks with
  | nil =>
    have h := hq.items_eq
    rw [Queue.items, hc, List.flatMap_nil, eq_comm, List.map_eq_nil_iff] at h
    simp [queueHead, hc, h]
  | cons h hs =>
    have hv : h.Valid q.chunkCap := hq.valid h (by simp [hc])
    have hhead : (l.map some).head? = some (h.data h.beginIx) := by
      rw [← hq.items_eq, Queue.items, hc, List.flatMap_cons,
        List.head?_append_of_ne_nil _ hv.items_ne_nil, QueueChunk.head?_items hv.begin_lt_end]
    simp only [queueHead, hc, if_pos hv.begin_lt_end]
    cases l with
    | nil => simp at hhead
    | cons y ys => simpa [eq_comm] using hhead

theorem Queue.Refines.queueTail_eq (hq : q.Refines l) : queueTail q = l.getLast? := by
  cases ht : q.chunks.getLast? with
  | none =>
    have h := hq.items_eq
    rw [Queue.items, List.getLast?_eq_none_iff.mp ht, List.flatMap_nil, eq_comm,
      List.map_eq_nil_iff] at h
    simp [queueTail, ht, h]
  | some t =>
    have hv : t.Valid q.chunkCap := hq.valid t (List.mem_of_getLast? ht)
    have hsplit : q.chunks.dropLast ++ [t] = q.chunks := List.dropLast_append_getLast? t ht
    have hlast : (l.map some).getLast? = some (t.data (t.endIx - 1)) := by
      rw [← hq.items_eq, Queue.items, ← hsplit, List.flatMap_append, List.flatMap_singleton,
        List.getLast?_append_of_ne_nil _ hv.items_ne_nil, QueueChunk.getLast?_items hv.begin_lt_end]
    simp only [queueTail, ht, if_pos hv.begin_lt_end]
    rw [List.getLast?_map] at hlast
    cases hl : l.getLast? with
    | none => simp [hl] at hlast
    | some y => simpa [hl, eq_comm] using hlast

end Observations

/-! ## Iteration -/

/-- The items an iterator has still to visit: the rest of its chunk and the chunks after it. -/
def QueueIt.rest (it : QueueIt α) : List (Option α) :=
  match it.chunks with
  | [] => []
  | c :: cs => (List.range' it.pos (c.endIx - it.pos)).map c.data ++ cs.flatMap QueueChunk.items

/-- An iterator over valid chunks, at an item of its chunk. -/
def QueueIt.Valid (cap : ℕ) (it : QueueIt α) : Prop :=
  (∀ c ∈ it.chunks, c.Valid cap) ∧
    ∀ c cs, it.chunks = c :: cs → c.beginIx ≤ it.pos ∧ it.pos < c.endIx

section Iteration

variable {cap : ℕ} {it : QueueIt α}

theorem rest_queueItAt (cs : List (QueueChunk α)) :
    (queueItAt cs).rest = cs.flatMap QueueChunk.items := by
  cases cs with
  | nil => rfl
  | cons d ds => rfl

theorem valid_queueItAt {cs : List (QueueChunk α)} (h : ∀ c ∈ cs, c.Valid cap) :
    (queueItAt cs).Valid cap := by
  refine ⟨h, fun c ds hcs => ?_⟩
  cases cs with
  | nil => cases hcs
  | cons d ds' =>
    simp only [queueItAt, List.cons.injEq] at hcs ⊢
    obtain ⟨rfl, rfl⟩ := hcs
    exact ⟨le_rfl, (h _ List.mem_cons_self).begin_lt_end⟩

theorem QueueIt.Valid.finished_iff (hv : it.Valid cap) :
    queueItFinished it = true ↔ it.chunks = [] := by
  cases hc : it.chunks with
  | nil => simp [queueItFinished, hc]
  | cons c cs =>
    have hpos := (hv.2 c cs hc).2
    simp [queueItFinished, hc, hpos]

/-- One round of the loop: the value read is the first item still to visit, and the iterator
moves on to the others. -/
theorem QueueIt.Valid.rest_eq (hv : it.Valid cap) (hc : it.chunks ≠ []) :
    it.rest = queueItVal it :: (queueItNext it).rest ∧ (queueItNext it).Valid cap := by
  obtain ⟨c, cs, hcs⟩ := List.exists_cons_of_ne_nil hc
  obtain ⟨hb, hpos⟩ := hv.2 c cs hcs
  have hvc : ∀ d ∈ cs, d.Valid cap := fun d hd => hv.1 d (by simp [hcs, hd])
  have hlen : c.endIx - it.pos = (c.endIx - (it.pos + 1)) + 1 := by omega
  have hrest : it.rest = c.data it.pos ::
      ((List.range' (it.pos + 1) (c.endIx - (it.pos + 1))).map c.data ++
        cs.flatMap QueueChunk.items) := by
    simp only [QueueIt.rest, hcs]
    rw [hlen, List.range'_succ, List.map_cons, List.cons_append]
  have hval : queueItVal it = c.data it.pos := by simp [queueItVal, hcs, hpos]
  by_cases hnext : it.pos + 1 < c.endIx
  · -- the next item of the same chunk
    have hit : queueItNext it = { it with pos := it.pos + 1 } := by simp [queueItNext, hcs, hnext]
    refine ⟨by rw [hrest, hval, hit, QueueIt.rest, hcs], ?_⟩
    rw [hit]
    refine ⟨hv.1, fun d ds hd => ?_⟩
    rw [hcs, List.cons.injEq] at hd
    obtain ⟨rfl, rfl⟩ := hd
    exact ⟨by dsimp only; omega, hnext⟩
  · -- the chunk is done: the first item of the next chunk
    have hend : c.endIx - (it.pos + 1) = 0 := by omega
    have hit : queueItNext it = queueItAt cs := by simp [queueItNext, hcs, hnext]
    rw [hit, rest_queueItAt]
    refine ⟨?_, valid_queueItAt hvc⟩
    rw [hrest, hval, hend, List.range'_zero, List.map_nil, List.nil_append]

/-- The loop over a valid iterator reads exactly the items it has still to visit, and stops by
itself: more rounds change nothing. -/
theorem QueueIt.Valid.queueItValues_eq (hv : it.Valid cap) (k : ℕ) :
    queueItValues (it.rest.length + k) it = it.rest := by
  induction hn : it.rest.length generalizing it with
  | zero =>
    have hnil : it.chunks = [] := by
      by_contra hc
      rw [(hv.rest_eq hc).1] at hn
      simp at hn
    have hfin : queueItFinished it = true := hv.finished_iff.mpr hnil
    have hrest : it.rest = [] := by simp [QueueIt.rest, hnil]
    cases k with
    | zero => simp [queueItValues, hrest]
    | succ k => simp [queueItValues, hfin, hrest]
  | succ n ih =>
    have hc : it.chunks ≠ [] := by
      intro hnil
      simp [QueueIt.rest, hnil] at hn
    obtain ⟨hrest, hnext⟩ := hv.rest_eq hc
    have hfin : queueItFinished it = false := by
      simpa using mt hv.finished_iff.mp hc
    have hn' : (queueItNext it).rest.length = n := by
      rw [hrest, List.length_cons] at hn
      omega
    rw [Nat.add_right_comm, queueItValues, hfin, if_neg Bool.false_ne_true, ih hnext hn', ← hrest]

theorem Queue.Refines.queueItBegin_valid {q : Queue α} {l : List α} (hq : q.Refines l) :
    (queueItBegin q).Valid q.chunkCap ∧ (queueItBegin q).rest = l.map some :=
  ⟨valid_queueItAt hq.valid, by rw [queueItBegin, rest_queueItAt, ← hq.items_eq, Queue.items]⟩

/-- Iterating from queue_it_begin reads the list in order, and stops after queue_len rounds. -/
theorem Queue.Refines.queueItValues_eq {q : Queue α} {l : List α} (hq : q.Refines l) (k : ℕ) :
    queueItValues (q.len + k) (queueItBegin q) = l.map some := by
  obtain ⟨hv, hrest⟩ := hq.queueItBegin_valid
  have hlen : q.len = (queueItBegin q).rest.length := by rw [hrest, List.length_map, hq.len_eq]
  rw [hlen, hv.queueItValues_eq, hrest]

end Iteration

/-! ## Runs -/

/-- The calls of a run on the queue. -/
inductive QueueOp (α : Type)
  | push (x : α)
  | pushHead (x : α)
  | pop

/-- One call on the queue. -/
def queueStep (q : Queue α) : QueueOp α → Option (Queue α)
  | .push x => queuePush q x
  | .pushHead x => queuePushHead q x
  | .pop => queuePop q

/-- The double-ended list the queue stands for: append, prepend and remove-first. -/
def dequeStep (l : List α) : QueueOp α → List α
  | .push x => l ++ [x]
  | .pushHead x => x :: l
  | .pop => l.tail

/-- queue_pop is called on a non-empty queue only. -/
def DequeAccepts (l : List α) : QueueOp α → Prop
  | .pop => l ≠ []
  | _ => True

theorem Queue.Refines.step {q : Queue α} {l : List α} (hq : q.Refines l) (o : QueueOp α)
    (ho : DequeAccepts l o) : ∃ q', queueStep q o = some q' ∧ q'.Refines (dequeStep l o) := by
  cases o with
  | push x => exact hq.push x
  | pushHead x => exact hq.pushHead x
  | pop =>
    cases l with
    | nil => exact absurd rfl ho
    | cons y l => exact hq.pop

/-- From queue_init, every run of pushes at either end and pops of a non-empty queue succeeds
(no kr_require fails) and leaves a queue that implements the double-ended list of the same
run: queue_len is its length, queue_head and queue_tail its first and last element, the
iteration from queue_it_begin reads it in order and stops after queue_len rounds, and the chain
of chunks is well formed, with len the sum of end - begin and the int16 indices in range. -/
theorem queue_refines_deque (itemSize : ℕ) (ops : List (QueueOp α))
    (h : Simulation.Admissible DequeAccepts dequeStep [] ops) :
    ∃ q, ops.foldlM queueStep (queueInit itemSize) = some q ∧
      q.len = (ops.foldl dequeStep []).length ∧
      queueHead q = (ops.foldl dequeStep []).head? ∧
      queueTail q = (ops.foldl dequeStep []).getLast? ∧
      (∀ k, queueItValues (q.len + k) (queueItBegin q) = (ops.foldl dequeStep []).map some) ∧
      (∀ c ∈ q.chunks, c.cap = q.chunkCap ∧ c.beginIx < c.endIx ∧ c.endIx ≤ c.cap) ∧
      q.len = (q.chunks.map fun c => c.endIx - c.beginIx).sum ∧ q.chunkCap ≤ 104 := by
  obtain ⟨q, hrun, hq⟩ := Simulation.foldlM_of_step Queue.Refines
    (fun _ _ o hq ho => hq.step o ho) ops (queueInit itemSize) [] (queueInit_refines itemSize) h
  refine ⟨q, hrun, hq.len_eq, hq.queueHead_eq, hq.queueTail_eq, hq.queueItValues_eq, ?_,
    hq.len_eq_sum, hq.cap_le⟩
  intro c hc
  have hv := hq.valid c hc
  exact ⟨hv.cap_eq, hv.begin_lt_end, hv.end_le_cap⟩

theorem queue_refines_deque_both_ends :
    let ops : List (QueueOp ℕ) := [.push 1, .pushHead 0, .pop, .push 2]
    Simulation.Admissible DequeAccepts dequeStep [] ops ∧
    ∃ q, ops.foldlM queueStep (queueInit 8) = some q ∧
      q.len = (ops.foldl dequeStep []).length ∧
      queueHead q = (ops.foldl dequeStep []).head? ∧
      queueTail q = (ops.foldl dequeStep []).getLast? ∧
      (∀ k, queueItValues (q.len + k) (queueItBegin q) = (ops.foldl dequeStep []).map some) ∧
      (∀ c ∈ q.chunks, c.cap = q.chunkCap ∧ c.beginIx < c.endIx ∧ c.endIx ≤ c.cap) ∧
      q.len = (q.chunks.map fun c => c.endIx - c.beginIx).sum ∧ q.chunkCap ≤ 104 :=
  have hadm : Simulation.Admissible DequeAccepts dequeStep []
      [QueueOp.push 1, .pushHead 0, .pop, .push (2 : ℕ)] :=
    ⟨trivial, trivial, List.cons_ne_nil _ _, trivial, trivial⟩
  ⟨hadm, queue_refines_deque 8 _ hadm⟩

end KnotResolver
