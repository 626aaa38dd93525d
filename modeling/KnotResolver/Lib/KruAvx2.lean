import Mathlib
import KnotResolver.Lib.Kru
import KnotResolver.Lib.ListLex

/-!
# KRU: the AVX2 build

kru-avx2.c compiles lib/kru.inc.c with USE_AVX2 and USE_SSE41 (and USE_AES, whose hash is a
parameter of every query here as SipHash is in the generic build). Two searches then differ from
the loops of the generic build: the id search of kru_limited_fetch takes the last matching slot
of the first line with a match, and the minimum search of kru_limited_update runs
_mm_minpos_epu16 over the loads read from one lane early, so that its ties go to the upper half
of a line.

Both minimum searches end at a slot of least load over the two lines (minSlot_le,
minSlotSse41_le), and where no line holds the query's id twice the two fetches are the same
(kruLimitedFetchWith_findIdAvx2). Two queries of one key in one kru_limited_multi_or both miss
in the fetch phase and both take a slot, and after that the builds answer differently.
-/

namespace KnotResolver

/-! ## The searches of each build -/

/-- The id search of the generic build of kru_limited_fetch: the first matching slot. -/
def findIdGeneric (kru : Kru) (ctx : QueryCtx) : Option (Fin tableCount × Fin loadsLen) :=
  kruSlots.find? fun x => (kru.line ctx x.1).ids x.2 == ctx.id

/-- The id search of the AVX2 build of kru_limited_fetch: in the first line with a match, the
last matching slot, as the bit scan of the match mask runs from the top. Lane 0 of the mask
reads the upper half of the line's time; a match there alone gives index -1, and the search goes
on to the next line as if nothing had matched. -/
def findIdAvx2 (kru : Kru) (ctx : QueryCtx) : Option (Fin tableCount × Fin loadsLen) :=
  (List.finRange tableCount).findSome? fun li =>
    ((List.finRange loadsLen).reverse.find? fun i => (kru.line ctx li).ids i == ctx.id).map (li, ·)

/-- _mm_minpos_epu16: the least of eight lanes and the first lane that holds it. -/
def minposEpu16 (v : Fin 8 → UInt16) : UInt16 × Fin 8 :=
  let k := (List.finRange 8).foldl (fun m k => if v k < v m then k else m) 0
  (v k, k)

/-- The first eight lanes the SSE4.1 search of kru_limited_update reads of a line: one lane
before loads[0] (the last id), set to 0xFFFF, then loads[0..6]. -/
def sse41Lanes0 (l : LoadCl) (k : Fin 8) : UInt16 :=
  if k.val = 0 then 65535 else l.loads ⟨k.val - 1, by unfold loadsLen; omega⟩

/-- The other eight lanes: loads[7..14]. -/
def sse41Lanes1 (l : LoadCl) (k : Fin 8) : UInt16 :=
  l.loads ⟨k.val + 7, by unfold loadsLen; omega⟩

/-- The minimum search of one line in the SSE4.1 build: the least load and an index one past
its slot. -/
def sse41LineMin (l : LoadCl) : UInt16 × Fin 16 :=
  let mp0 := minposEpu16 (sse41Lanes0 l)
  let mp1 := minposEpu16 (sse41Lanes1 l)
  if mp0.1 < mp1.1 then (mp0.1, ⟨mp0.2.val, by omega⟩) else (mp1.1, ⟨8 + mp1.2.val, by omega⟩)

/-- The sixteen lanes of the two halves of a line. -/
theorem sse41Lanes_pos : 0 < 16 := by decide

/-- The index of the SSE4.1 search, one past the slot, stepped back unless it is zero. -/
theorem sse41Index_lt (n : Fin 16) : (if n.val ≠ 0 then n.val - 1 else n.val) < loadsLen := by
  unfold loadsLen
  split <;> omega

/-- The minimum search of kru_limited_update in the SSE4.1 build. -/
def minSlotSse41 (kru : Kru) (ctx : QueryCtx) : Fin tableCount × Fin loadsLen :=
  let best := (List.finRange tableCount).foldl (fun (acc : Fin tableCount × Fin 16 × UInt16) li =>
      let m := sse41LineMin (kru.line ctx li)
      if li.val = 0 ∨ m.1 < acc.2.2 then (li, m.2, m.1) else acc)
    (⟨0, Nat.two_pos⟩, ⟨0, sse41Lanes_pos⟩, 0)
  -- the index is one past the slot, as the loads were read from one lane early
  (best.1, ⟨if best.2.1.val ≠ 0 then best.2.1.val - 1 else best.2.1.val, sse41Index_lt best.2.1⟩)

/-! ## The builds -/

/-- kru_limited_fetch with the id search of a build. -/
def kruLimitedFetchWith (findId : Kru → QueryCtx → Option (Fin tableCount × Fin loadsLen))
    (s : KruState) (ctx : QueryCtx) : Bool × KruState × QueryCtx :=
  let p := kruPrice16 ctx.price s.rand
  let u := updateLines s.kru ctx p.2.2
  let ctx := { ctx with price16 := p.1, limit16 := p.2.1 }
  match findId u.1 ctx with
  | none => (false, ⟨u.1, u.2⟩, { ctx with load := none, finalLoadValue := 0 })
  | some x =>
    let v := (u.1.line ctx x.1).loads x.2
    (decide (ctx.limit16 ≤ v.toUInt32), ⟨u.1, u.2⟩,
      { ctx with load := some x, finalLoadValue := v })

/-- kru_limited_update with the minimum search of a build. -/
def kruLimitedUpdateWith (findMin : Kru → QueryCtx → Fin tableCount × Fin loadsLen)
    (s : KruState) (ctx : QueryCtx) (overflowUpdate : Bool) : Bool × KruState × QueryCtx :=
  let x := ctx.load.getD (findMin s.kru ctx)
  let kru := if ctx.load.isNone then s.kru.modifyLine ctx x.1 (·.setId x.2 ctx.id) else s.kru
  let loadOrig := (kru.line ctx x.1).loads x.2
  if ctx.limit16 ≤ loadOrig.toUInt32 then
    if overflowUpdate then
      (false, ⟨kru.modifyLine ctx x.1 (·.setLoad x.2 65535), s.rand⟩,
        { ctx with finalLoadValue := 65535 })
    else (true, ⟨kru, s.rand⟩, ctx)
  else
    let loadNew := loadOrig + ctx.price16
    (false, ⟨kru.modifyLine ctx x.1 (·.setLoad x.2 loadNew), s.rand⟩,
      { ctx with finalLoadValue := loadNew })

/-- The fetch loop of the multi-queries with the fetch of a build. -/
def kruFetchLoopWith (fetch : KruState → QueryCtx → Bool × KruState × QueryCtx) (s : KruState) :
    List QueryCtx → Option ℕ × KruState × List QueryCtx
  | [] => (none, s, [])
  | ctx :: ctxs =>
    let r := fetch s ctx
    if r.1 then (some 0, r.2.1, r.2.2 :: ctxs)
    else
      let rest := kruFetchLoopWith fetch r.2.1 ctxs
      (rest.1.map (· + 1), rest.2.1, r.2.2 :: rest.2.2)

/-- The update loop of kru_limited_multi_or with the update of a build. -/
def kruUpdateAllWith (update : KruState → QueryCtx → Bool → Bool × KruState × QueryCtx)
    (s : KruState) : List QueryCtx → Bool × KruState
  | [] => (false, s)
  | ctx :: ctxs =>
    let r := update s ctx false
    let rest := kruUpdateAllWith update r.2.1 ctxs
    (r.1 || rest.1, rest.2)

/-- kru_limited_multi_or of a build. -/
def kruLimitedMultiOrWith (fetch : KruState → QueryCtx → Bool × KruState × QueryCtx)
    (update : KruState → QueryCtx → Bool → Bool × KruState × QueryCtx) (s : KruState)
    (timeNow : UInt32) (hashes : List UInt64) (prices : List UInt32) : Bool × KruState :=
  let ctxs := (hashes.zip prices).map fun q => kruLimitedPrefetch s.kru timeNow q.1 q.2
  let f := kruFetchLoopWith fetch s ctxs
  if f.1.isSome then (true, f.2.1) else kruUpdateAllWith update f.2.1 f.2.2

/-- kru_limited_multi_or of the AVX2 build (kru-avx2.c). -/
def kruLimitedMultiOrAvx2 (s : KruState) (timeNow : UInt32) (hashes : List UInt64)
    (prices : List UInt32) : Bool × KruState :=
  kruLimitedMultiOrWith (kruLimitedFetchWith findIdAvx2) (kruLimitedUpdateWith minSlotSse41) s
    timeNow hashes prices

/-- kru_limited of the AVX2 build. -/
def kruLimitedAvx2 (s : KruState) (timeNow : UInt32) (hash : UInt64) (price : UInt32) :
    Bool × KruState :=
  kruLimitedMultiOrAvx2 s timeNow [hash] [price]

section Generic

variable (s : KruState) (ctx : QueryCtx)

theorem kruLimitedFetchWith_findIdGeneric :
    kruLimitedFetchWith findIdGeneric s ctx = kruLimitedFetch s ctx :=
  rfl

theorem kruLimitedUpdateWith_minSlot (o : Bool) :
    kruLimitedUpdateWith minSlot s ctx o = kruLimitedUpdate s ctx o :=
  rfl

theorem kruFetchLoopWith_kruLimitedFetch (ctxs : List QueryCtx) :
    kruFetchLoopWith kruLimitedFetch s ctxs = kruFetchLoop s ctxs := by
  induction ctxs generalizing s with
  | nil => rfl
  | cons ctx ctxs ih => simp only [kruFetchLoopWith, kruFetchLoop, ih]

theorem kruUpdateAllWith_kruLimitedUpdate (ctxs : List QueryCtx) :
    kruUpdateAllWith kruLimitedUpdate s ctxs = kruUpdateAll s ctxs := by
  induction ctxs generalizing s with
  | nil => rfl
  | cons ctx ctxs ih => simp only [kruUpdateAllWith, kruUpdateAll, ih]

/-- The generic build is kru_limited_multi_or as modelled for the generic code paths. -/
theorem kruLimitedMultiOrWith_generic (timeNow : UInt32) (hashes : List UInt64)
    (prices : List UInt32) :
    kruLimitedMultiOrWith (kruLimitedFetchWith findIdGeneric) (kruLimitedUpdateWith minSlot) s
      timeNow hashes prices = kruLimitedMultiOr s timeNow hashes prices := by
  have hf : kruLimitedFetchWith findIdGeneric = kruLimitedFetch := rfl
  have hu : kruLimitedUpdateWith minSlot = kruLimitedUpdate := rfl
  rw [hf, hu]
  unfold kruLimitedMultiOrWith kruLimitedMultiOr
  simp only [kruFetchLoopWith_kruLimitedFetch, kruUpdateAllWith_kruLimitedUpdate]

end Generic

/-! ## Both minimum searches find a least load -/

theorem mem_kruSlots (x : Fin tableCount × Fin loadsLen) : x ∈ kruSlots := by
  simp [kruSlots]

/-- The loop of the generic build ends at a slot of least load over both lines. -/
theorem minSlot_le (kru : Kru) (ctx : QueryCtx) (lj : Fin tableCount) (j : Fin loadsLen) :
    (kru.line ctx (minSlot kru ctx).1).loads (minSlot kru ctx).2 ≤ (kru.line ctx lj).loads j :=
  (ListLex.foldl_argmin_le (fun x => (kru.line ctx x.1).loads x.2) _ _).2 (lj, j) (mem_kruSlots _)

theorem minposEpu16_spec (v : Fin 8 → UInt16) :
    (minposEpu16 v).1 = v (minposEpu16 v).2 ∧ ∀ k, (minposEpu16 v).1 ≤ v k :=
  ⟨rfl, fun k => (ListLex.foldl_argmin_le v _ _).2 k (List.mem_finRange k)⟩

theorem sse41Lanes0_succ (l : LoadCl) (j : Fin loadsLen) (hj : j.val < 7) :
    sse41Lanes0 l ⟨j.val + 1, by omega⟩ = l.loads j := by
  simp [sse41Lanes0]

theorem sse41Lanes1_sub (l : LoadCl) (j : Fin loadsLen) (hj : 7 ≤ j.val) :
    sse41Lanes1 l ⟨j.val - 7, by have : j.val < 15 := j.isLt; omega⟩ = l.loads j := by
  unfold sse41Lanes1
  congr 1
  ext
  simp only
  omega

/-- The choice between the two halves of a line, for any results of the two searches that
are least lanes. -/
theorem sse41Choice_spec (l : LoadCl) (mp0 mp1 : UInt16 × Fin 8)
    (he0 : mp0.1 = sse41Lanes0 l mp0.2) (hle0 : ∀ k, mp0.1 ≤ sse41Lanes0 l k)
    (hle1 : ∀ k, mp1.1 ≤ sse41Lanes1 l k) (he1 : mp1.1 = sse41Lanes1 l mp1.2) :
    let r : UInt16 × Fin 16 :=
      if mp0.1 < mp1.1 then (mp0.1, ⟨mp0.2.val, by omega⟩) else (mp1.1, ⟨8 + mp1.2.val, by omega⟩)
    ∃ i : Fin loadsLen, r.2.val = i.val + 1 ∧ r.1 = l.loads i ∧ ∀ j, r.1 ≤ l.loads j := by
  have hlo : ∀ j : Fin loadsLen, j.val < 7 → mp0.1 ≤ l.loads j := fun j hj => by
    rw [← sse41Lanes0_succ l j hj]
    exact hle0 _
  have hhi : ∀ j : Fin loadsLen, 7 ≤ j.val → mp1.1 ≤ l.loads j := fun j hj => by
    rw [← sse41Lanes1_sub l j hj]
    exact hle1 _
  dsimp only
  split_ifs with h
  · -- lane 0 holds 0xFFFF, which is not below the other half's minimum
    have hk : mp0.2.val ≠ 0 := fun hk => by
      have h65535 : mp0.1 = 65535 := by
        rw [he0, sse41Lanes0, if_pos hk]
      rw [h65535, UInt16.lt_iff_toNat_lt] at h
      have := mp1.1.toNat_lt
      simp only [UInt16.reduceToNat] at h
      omega
    refine ⟨⟨mp0.2.val - 1, by have := mp0.2.isLt; unfold loadsLen; omega⟩, by dsimp only; omega,
      ?_, ?_⟩
    · rw [he0, sse41Lanes0, if_neg hk]
    · intro j
      by_cases hj : j.val < 7
      · exact hlo j hj
      · exact UInt16.le_of_lt (UInt16.lt_of_lt_of_le h (hhi j (by omega)))
  · refine ⟨⟨mp1.2.val + 7, by have := mp1.2.isLt; unfold loadsLen; omega⟩, by dsimp only; omega,
      he1, ?_⟩
    intro j
    by_cases hj : j.val < 7
    · exact UInt16.le_trans (UInt16.not_lt.mp h) (hlo j hj)
    · exact hhi j (by omega)

/-- The search of one line finds a least load of the line, and an index one past its slot. -/
theorem sse41LineMin_spec (l : LoadCl) : ∃ i : Fin loadsLen,
    (sse41LineMin l).2.val = i.val + 1 ∧ (sse41LineMin l).1 = l.loads i ∧
      ∀ j, (sse41LineMin l).1 ≤ l.loads j :=
  sse41Choice_spec l _ _ (minposEpu16_spec _).1 (minposEpu16_spec _).2 (minposEpu16_spec _).2
    (minposEpu16_spec _).1

/-- The loop over the two lines keeps the first line unless the second one's least load is
strictly smaller. -/
theorem sse41Fold_spec (m : Fin tableCount → UInt16 × Fin 16)
    (init : Fin tableCount × Fin 16 × UInt16) :
    let best := (List.finRange tableCount).foldl (fun (acc : Fin tableCount × Fin 16 × UInt16) li =>
      if li.val = 0 ∨ (m li).1 < acc.2.2 then (li, (m li).2, (m li).1) else acc) init
    best.2.1 = (m best.1).2 ∧ best.2.2 = (m best.1).1 ∧ ∀ lj, best.2.2 ≤ (m lj).1 := by
  have hr : List.finRange tableCount = [0, 1] := rfl
  simp only [hr, List.foldl_cons, List.foldl_nil, Fin.val_zero, true_or, if_true, Fin.val_one,
    one_ne_zero, false_or]
  split_ifs with h
  · refine ⟨rfl, rfl, fun lj => ?_⟩
    fin_cases lj
    · exact UInt16.le_of_lt h
    · exact UInt16.le_refl _
  · refine ⟨rfl, rfl, fun lj => ?_⟩
    fin_cases lj
    · exact UInt16.le_refl _
    · exact UInt16.not_lt.mp h

/-- The search of the SSE4.1 build ends at a slot of least load over both lines. -/
theorem minSlotSse41_le (kru : Kru) (ctx : QueryCtx) (lj : Fin tableCount) (j : Fin loadsLen) :
    (kru.line ctx (minSlotSse41 kru ctx).1).loads (minSlotSse41 kru ctx).2 ≤
      (kru.line ctx lj).loads j := by
  obtain ⟨hix, hval, hle⟩ := sse41Fold_spec (fun li => sse41LineMin (kru.line ctx li))
    (⟨0, Nat.two_pos⟩, ⟨0, sse41Lanes_pos⟩, 0)
  generalize hbest : (List.finRange tableCount).foldl _
    ((⟨0, Nat.two_pos⟩, ⟨0, sse41Lanes_pos⟩, 0) : Fin tableCount × Fin 16 × UInt16) =
    best at hix hval hle
  obtain ⟨i, hi, hmin, -⟩ := sse41LineMin_spec (kru.line ctx best.1)
  -- the index found is one past the slot, and the source steps back by one
  have hslot : minSlotSse41 kru ctx = (best.1, i) := by
    have h1 : (minSlotSse41 kru ctx).1 = best.1 := by rw [← hbest]; rfl
    have h2 : (minSlotSse41 kru ctx).2.val =
        if best.2.1.val ≠ 0 then best.2.1.val - 1 else best.2.1.val := by rw [← hbest]; rfl
    refine Prod.ext h1 (Fin.ext ?_)
    rw [h2, hix, hi]
    simp
  rw [hslot, ← hmin, ← hval]
  obtain ⟨i', -, -, hle'⟩ := sse41LineMin_spec (kru.line ctx lj)
  exact UInt16.le_trans (hle lj) (hle' j)

/-- Ties apart, the two builds pick slots of the same load. -/
theorem loads_minSlotSse41_eq (kru : Kru) (ctx : QueryCtx) :
    (kru.line ctx (minSlotSse41 kru ctx).1).loads (minSlotSse41 kru ctx).2 =
      (kru.line ctx (minSlot kru ctx).1).loads (minSlot kru ctx).2 :=
  UInt16.le_antisymm (minSlotSse41_le kru ctx _ _) (minSlot_le kru ctx _ _)

/-! ## The id searches agree on lines without a repeated id -/

/-- At most one slot of each line of the query holds its id. -/
def IdUnique (kru : Kru) (ctx : QueryCtx) : Prop :=
  ∀ li i j, (kru.line ctx li).ids i = ctx.id → (kru.line ctx li).ids j = ctx.id → i = j

theorem findIdAvx2_eq_of_unique {kru : Kru} {ctx : QueryCtx} (h : IdUnique kru ctx) :
    findIdAvx2 kru ctx = findIdGeneric kru ctx := by
  unfold findIdAvx2 findIdGeneric kruSlots
  rw [List.find?_flatMap]
  congr 1
  funext li
  rw [List.find?_map, ListLex.find?_reverse_of_unique]
  · rfl
  · intro a _ b _ ha hb
    exact h li a b (by simpa using ha) (by simpa using hb)

/-- Where no line of the query holds its id twice, the fetch of the AVX2 build is the generic
one. -/
theorem kruLimitedFetchWith_findIdAvx2 {s : KruState} {ctx : QueryCtx} (h : IdUnique s.kru ctx) :
    kruLimitedFetchWith findIdAvx2 s ctx = kruLimitedFetch s ctx := by
  unfold kruLimitedFetchWith
  dsimp only
  rw [findIdAvx2_eq_of_unique]
  · rfl
  · -- the lines are read after update_time, which keeps every id
    intro li i j hi hj
    have hl := congrFun (@ids_line_updateLines s.kru ctx (kruPrice16 ctx.price s.rand).2.2 li)
    exact h li i j ((hl i).symm.trans hi) ((hl j).symm.trans hj)

/-! ## Two queries of one key in one call -/

/-- kru_limited_multi_or with one key twice on a fresh table: both queries miss in the fetch
phase, so both take a slot of line 0, the generic build slots 0 and 1, the AVX2 build (whose
minimum search prefers the upper half on ties) slots 7 and 8. A later kru_limited of the key
then reads the first of them in the generic build and the last in the AVX2 build, and only the
AVX2 build answers limited. -/
theorem kruLimited_builds_diverge :
    let s0 : KruState := ⟨freshKru ⟨0, fun _ => 0, fun _ => 0⟩ 1, 0⟩
    let s := (kruLimitedMultiOr s0 0 [4, 4] [65536, 6553600]).2
    let sAvx2 := (kruLimitedMultiOrAvx2 s0 0 [4, 4] [65536, 6553600]).2
    (s.kru.loadCls 0 0).ids 0 = 1 ∧ (s.kru.loadCls 0 0).ids 1 = 1 ∧
      (sAvx2.kru.loadCls 0 0).ids 7 = 1 ∧ (sAvx2.kru.loadCls 0 0).ids 8 = 1 ∧
      (kruLimited s 0 4 4291690496).1 = false ∧ (kruLimitedAvx2 sAvx2 0 4 4291690496).1 = true := by
  refine ⟨by decide +kernel, by decide +kernel, by decide +kernel, by decide +kernel,
    by decide +kernel, by decide +kernel⟩

end KnotResolver
