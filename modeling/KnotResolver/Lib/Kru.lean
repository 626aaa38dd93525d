import Mathlib

/-!
# KRU: the table of recently pricey keys

`lib/kru.inc.c`, along its generic code paths (no AVX2, SSE4.1 or AES). A key's hash picks one
cache line in each of the two tables; a line holds fifteen 16-bit ids and loads that share one
time and decay as it advances. A query fetches the key's load and compares it with the limit,
and only when no query of a call is blocked are the loads raised by the prices.

The hash of a key (SipHash under the table's secret) and the multipliers of the decay
configuration (computed in floating point by `decay_initialize`) are parameters. The calls run
on one thread, so every compare-and-swap loop of the source succeeds the first time.

The main results: for one key on a fresh table at one time, a price that is a multiple of 2^16
lets through exactly the calls whose prices sum up to at most `KRU_LIMIT`
(`kruLimitedRun_fresh`); a call blocked in the fetch phase changes the table only by the decay
of the touched lines (`kruFetchLoop_decays`), but a call blocked in the update phase has already
given a slot to the key (`kruLimitedUpdate_takes_slot`).
-/

namespace KnotResolver

/-! ## The table -/

/-- `TABLE_COUNT` -/
abbrev tableCount : ℕ := 2

/-- `LOADS_LEN` -/
abbrev loadsLen : ℕ := 15

/-- `KRU_LIMIT`: the largest sum of prices a key may reach without being limited. -/
def kruLimit : ℕ := (2 ^ 32 - 1) - 2 ^ 16 + 1

/-- `struct load_cl`: one cache line. -/
structure LoadCl where
  time : UInt32
  ids : Fin loadsLen → UInt16
  loads : Fin loadsLen → UInt16

/-- `struct decay_config`; `multFar ticks` is what `update_time` computes in floating point for
ticks beyond the cache. -/
structure DecayConfig where
  maxTicks : UInt32
  multCache : Fin 32 → UInt32
  multFar : UInt32 → UInt32

/-- `struct kru` without its hashing secret: the lines are indexed by row and table. -/
structure Kru where
  decay : DecayConfig
  loadsBits : UInt32
  loadCls : ℕ → Fin tableCount → LoadCl

/-- The table with the calling thread's state of `rand_bits`. -/
structure KruState where
  kru : Kru
  rand : UInt64

/-- A table as `kru_initialize` leaves the zeroed memory it is given. -/
def freshKru (decay : DecayConfig) (loadsBits : UInt32) : Kru :=
  { decay, loadsBits, loadCls := fun _ _ => ⟨0, fun _ => 0, fun _ => 0⟩ }

/-- `rand_bits`: a step of the thread's linear congruential generator, its top `bits` bits. -/
def randBits (bits : ℕ) (state : UInt64) : UInt64 × UInt64 :=
  let state := 11737314301796036329 * state + 3107264277052274849
  (state >>> (64 - bits).toUInt64, state)

/-! ## Time decay -/

/-- The body of the loop of `update_time`: a load scaled by `mult / 2^32`, rounded at random by
`rnd`. -/
def decayLoad (mult : UInt32) (loadOrig rnd : UInt16) : UInt16 :=
  let m : UInt64 := (loadOrig.toUInt64 <<< 16) * mult.toUInt64
  let m := (m >>> 32) + ((m >>> 31) &&& 1)
  ((m >>> 16) + (if rnd < m.toUInt16 then 1 else 0)).toUInt16

/-- One round of the loop of `update_time`: the load of slot `i` decayed with a fresh draw of
`rand_bits 16`. -/
def decayRound (mult : UInt32) (acc : (Fin loadsLen → UInt16) × UInt64) (i : Fin loadsLen) :
    (Fin loadsLen → UInt16) × UInt64 :=
  let r := randBits 16 acc.2
  (Function.update acc.1 i (decayLoad mult (acc.1 i) r.1.toUInt16), r.2)

/-- The loop of `update_time` over the loads of a line. -/
def decayLoads (mult : UInt32) (loads : Fin loadsLen → UInt16) (rand : UInt64) :
    (Fin loadsLen → UInt16) × UInt64 :=
  (List.finRange loadsLen).foldl (decayRound mult) (loads, rand)

/-- The multiplier of `update_time` for a number of ticks: from the cache, or computed. -/
def decayMult (decay : DecayConfig) (ticks : UInt32) : UInt32 :=
  if h : ticks.toNat < 32 then decay.multCache ⟨ticks.toNat, h⟩ else decay.multFar ticks

/-- `update_time` -/
def updateTime (decay : DecayConfig) (timeNow : UInt32) (l : LoadCl) (rand : UInt64) :
    LoadCl × UInt64 :=
  let ticks := timeNow - l.time
  if ticks = 0 then (l, rand)
  -- the time of another thread may run behind
  else if ticks > -1024 then (l, rand)
  else if ticks > decay.maxTicks then ({ l with time := timeNow, loads := fun _ => 0 }, rand)
  else
    let r := decayLoads (decayMult decay ticks) l.loads rand
    ({ l with time := timeNow, loads := r.1 }, r.2)

/-- A line that `update_time` leaves alone at `timeNow`. -/
def Settled (timeNow : UInt32) (l : LoadCl) : Prop :=
  l.time = timeNow ∨ timeNow - l.time > -1024

/-! ## Queries -/

/-- `struct query_ctx`; the lines `l[li]` are given by their rows, `load` by its slot. -/
structure QueryCtx where
  rows : Fin tableCount → ℕ
  timeNow : UInt32
  price : UInt32
  price16 : UInt16
  limit16 : UInt32
  id : UInt16
  finalLoadValue : UInt16
  load : Option (Fin tableCount × Fin loadsLen)

/-- The line `ctx->l[li]` of a query. -/
def Kru.line (kru : Kru) (ctx : QueryCtx) (li : Fin tableCount) : LoadCl :=
  kru.loadCls (ctx.rows li) li

/-- The line `ctx->l[li]` changed by `f`. -/
def Kru.modifyLine (kru : Kru) (ctx : QueryCtx) (li : Fin tableCount) (f : LoadCl → LoadCl) :
    Kru :=
  { kru with
    loadCls := Function.update kru.loadCls (ctx.rows li)
      (Function.update (kru.loadCls (ctx.rows li)) li (f (kru.line ctx li))) }

section Lines

variable {kru : Kru} {ctx : QueryCtx} {li lj : Fin tableCount} {f : LoadCl → LoadCl}

@[simp] theorem Kru.decay_modifyLine : (kru.modifyLine ctx li f).decay = kru.decay := rfl

@[simp] theorem Kru.loadsBits_modifyLine : (kru.modifyLine ctx li f).loadsBits = kru.loadsBits :=
  rfl

@[simp] theorem Kru.line_modifyLine_self :
    (kru.modifyLine ctx li f).line ctx li = f (kru.line ctx li) := by
  simp [Kru.modifyLine, Kru.line]

theorem Kru.line_modifyLine_of_ne (h : li ≠ lj) :
    (kru.modifyLine ctx li f).line ctx lj = kru.line ctx lj := by
  by_cases hr : ctx.rows lj = ctx.rows li
  · simp [Kru.modifyLine, Kru.line, hr, Function.update_of_ne (Ne.symm h)]
  · simp [Kru.modifyLine, Kru.line, hr]

/-- Every line of the table after one line of a query is changed. -/
theorem Kru.loadCls_modifyLine (r : ℕ) (lj : Fin tableCount) :
    (kru.modifyLine ctx li f).loadCls r lj =
      if r = ctx.rows li ∧ lj = li then f (kru.line ctx li) else kru.loadCls r lj := by
  by_cases hr : r = ctx.rows li
  · subst hr
    by_cases hl : lj = li
    · subst hl
      simp [Kru.modifyLine, Kru.line]
    · simp [Kru.modifyLine, hl]
  · simp [Kru.modifyLine, hr]

@[simp] theorem Kru.modifyLine_line_self : kru.modifyLine ctx li (fun _ => kru.line ctx li) = kru := by
  simp [Kru.modifyLine, Kru.line, Function.update_eq_self]

theorem Kru.modifyLine_modifyLine {g : LoadCl → LoadCl} :
    (kru.modifyLine ctx li f).modifyLine ctx li g = kru.modifyLine ctx li (g ∘ f) := by
  simp [Kru.modifyLine, Kru.line]

end Lines

/-- The slots of a query's two lines in the order the loops of the source visit them. -/
def kruSlots : List (Fin tableCount × Fin loadsLen) :=
  (List.finRange tableCount).flatMap fun li => (List.finRange loadsLen).map (li, ·)

/-- `kru_limited_prefetch` from the key's hash. -/
def kruLimitedPrefetch (kru : Kru) (timeNow : UInt32) (hash : UInt64) (price : UInt32) :
    QueryCtx :=
  let loadsMask : UInt32 := (1 <<< kru.loadsBits) - 1
  let row (h : UInt64) : ℕ := (h &&& loadsMask.toUInt64).toNat
  let shift := kru.loadsBits.toUInt64
  -- price16, limit16, final_load_value and load are set by the fetch
  { rows := ![row hash, row (hash >>> shift)], timeNow, price
    price16 := 0, limit16 := 0, id := (hash >>> shift >>> shift).toUInt16
    finalLoadValue := 0, load := none }

section Prefetch

variable (kru : Kru) (timeNow : UInt32) (hash : UInt64) (price : UInt32)

@[simp] theorem price_kruLimitedPrefetch : (kruLimitedPrefetch kru timeNow hash price).price = price :=
  rfl

@[simp] theorem timeNow_kruLimitedPrefetch :
    (kruLimitedPrefetch kru timeNow hash price).timeNow = timeNow := rfl

end Prefetch

/-- The 16-bit price and limit of `kru_limited_fetch`: the top half of the price rounded up
for the limit, and at random for the price. -/
def kruPrice16 (price : UInt32) (rand : UInt64) : UInt16 × UInt32 × UInt64 :=
  let fract := price &&& (((1 : UInt32) <<< 16) - 1)
  let price16 := (price >>> 16).toUInt16
  let limit16 : UInt32 := 65536 - price16.toUInt32
  if fract > 0 then
    let r := randBits 16 rand
    (price16 + (if r.1 < fract.toUInt64 then 1 else 0), limit16 - 1, r.2)
  else (price16, limit16, rand)

/-- The loop of `kru_limited_fetch` that calls `update_time` on both lines. -/
def updateLines (kru : Kru) (ctx : QueryCtx) (rand : UInt64) : Kru × UInt64 :=
  (List.finRange tableCount).foldl (fun acc li =>
    let r := updateTime acc.1.decay ctx.timeNow (acc.1.line ctx li) acc.2
    (acc.1.modifyLine ctx li fun _ => r.1, r.2)) (kru, rand)

/-- `kru_limited_fetch`: the answer, and no change to the table but the decay. -/
def kruLimitedFetch (s : KruState) (ctx : QueryCtx) : Bool × KruState × QueryCtx :=
  let p := kruPrice16 ctx.price s.rand
  let u := updateLines s.kru ctx p.2.2
  let ctx := { ctx with price16 := p.1, limit16 := p.2.1 }
  match kruSlots.find? fun x => (u.1.line ctx x.1).ids x.2 == ctx.id with
  | none => (false, ⟨u.1, u.2⟩, { ctx with load := none, finalLoadValue := 0 })
  | some x =>
    let v := (u.1.line ctx x.1).loads x.2
    (decide (ctx.limit16 ≤ v.toUInt32), ⟨u.1, u.2⟩,
      { ctx with load := some x, finalLoadValue := v })

/-- The slot of the smallest load, the first one among equals (the loop of
`kru_limited_update`). -/
def minSlot (kru : Kru) (ctx : QueryCtx) : Fin tableCount × Fin loadsLen :=
  kruSlots.foldl (fun m x =>
    if (kru.line ctx x.1).loads x.2 < (kru.line ctx m.1).loads m.2 then x else m) (0, 0)

/-- The line with slot `i` given to `id`. -/
def LoadCl.setId (l : LoadCl) (i : Fin loadsLen) (id : UInt16) : LoadCl :=
  { l with ids := Function.update l.ids i id }

/-- The line with load `v` in slot `i`. -/
def LoadCl.setLoad (l : LoadCl) (i : Fin loadsLen) (v : UInt16) : LoadCl :=
  { l with loads := Function.update l.loads i v }

section SetSlot

variable (l : LoadCl) (i : Fin loadsLen) (v : UInt16)

@[simp] theorem LoadCl.time_setId : (l.setId i v).time = l.time := rfl
@[simp] theorem LoadCl.loads_setId : (l.setId i v).loads = l.loads := rfl
@[simp] theorem LoadCl.ids_setId_self : (l.setId i v).ids i = v := by simp [LoadCl.setId]
@[simp] theorem LoadCl.time_setLoad : (l.setLoad i v).time = l.time := rfl
@[simp] theorem LoadCl.ids_setLoad : (l.setLoad i v).ids = l.ids := rfl
@[simp] theorem LoadCl.loads_setLoad_self : (l.setLoad i v).loads i = v := by simp [LoadCl.setLoad]

end SetSlot

/-- `kru_limited_update`: the load of the key's slot is raised by the price unless it is at the
limit. -/
def kruLimitedUpdate (s : KruState) (ctx : QueryCtx) (overflowUpdate : Bool) :
    Bool × KruState × QueryCtx :=
  -- without a match the key takes over the slot of the smallest load
  let x := ctx.load.getD (minSlot s.kru ctx)
  let kru := if ctx.load.isNone then s.kru.modifyLine ctx x.1 (·.setId x.2 ctx.id) else s.kru
  let loadOrig := (kru.line ctx x.1).loads x.2
  if ctx.limit16 ≤ loadOrig.toUInt32 then
    if overflowUpdate then
      (false, ⟨kru.modifyLine ctx x.1 (·.setLoad x.2 65535), s.rand⟩,
        { ctx with finalLoadValue := 65535 })
    else (true, ⟨kru, s.rand⟩, ctx)
  else
    let loadNew := loadOrig + ctx.price16
    (false, ⟨kru.modifyLine ctx x.1 (·.setLoad x.2 loadNew), s.rand⟩,
      { ctx with finalLoadValue := loadNew })

/-- The fetch loop of the multi-queries: the index of the first blocked query, if any, with the
state and the queries it leaves. -/
def kruFetchLoop (s : KruState) : List QueryCtx → Option ℕ × KruState × List QueryCtx
  | [] => (none, s, [])
  | ctx :: ctxs =>
    let r := kruLimitedFetch s ctx
    if r.1 then (some 0, r.2.1, r.2.2 :: ctxs)
    else
      let rest := kruFetchLoop r.2.1 ctxs
      (rest.1.map (· + 1), rest.2.1, r.2.2 :: rest.2.2)

/-- The update loop of `kru_limited_multi_or`: every query is updated, the answers or-ed. -/
def kruUpdateAll (s : KruState) : List QueryCtx → Bool × KruState
  | [] => (false, s)
  | ctx :: ctxs =>
    let r := kruLimitedUpdate s ctx false
    let rest := kruUpdateAll r.2.1 ctxs
    (r.1 || rest.1, rest.2)

/-- The update loop of `kru_limited_multi_prefix_or`, run on the queries last first: it stops
at the first blocked one. -/
def kruUpdateUntil (s : KruState) : List QueryCtx → Option ℕ × KruState × List QueryCtx
  | [] => (none, s, [])
  | ctx :: ctxs =>
    let r := kruLimitedUpdate s ctx false
    if r.1 then (some 0, r.2.1, r.2.2 :: ctxs)
    else
      let rest := kruUpdateUntil r.2.1 ctxs
      (rest.1.map (· + 1), rest.2.1, r.2.2 :: rest.2.2)

/-- `kru_limited_multi_or` for keys given by their hashes. -/
def kruLimitedMultiOr (s : KruState) (timeNow : UInt32) (hashes : List UInt64)
    (prices : List UInt32) : Bool × KruState :=
  let ctxs := (hashes.zip prices).map fun q => kruLimitedPrefetch s.kru timeNow q.1 q.2
  let f := kruFetchLoop s ctxs
  if f.1.isSome then (true, f.2.1) else kruUpdateAll f.2.1 f.2.2

/-- `kru_limited_multi_prefix_or`; `hash prefix` is the hash of the key's first `prefix` bits
with the prefix and the namespace, and `maxLoadOut` the value of `*max_load_out` before the
call. -/
def kruLimitedMultiPrefixOr (s : KruState) (timeNow : UInt32) (hash : UInt8 → UInt64)
    (prefixes : List UInt8) (prices : List UInt32) (maxLoadOut : UInt16) :
    UInt8 × KruState × UInt16 :=
  let ctxs := (prefixes.zip prices).map fun q => kruLimitedPrefetch s.kru timeNow (hash q.1) q.2
  match kruFetchLoop s ctxs with
  | (some i, s, _) => (prefixes.getD i 0, s, maxLoadOut)
  | (none, s, ctxs) =>
    match kruUpdateUntil s ctxs.reverse with
    | (some j, s, _) => (prefixes.getD (ctxs.length - 1 - j) 0, s, maxLoadOut)
    | (none, s, ctxs') =>
      (0, s, (ctxs'.map QueryCtx.finalLoadValue).foldl max 0)

/-- `kru_limited`: a multi-query of one key. -/
def kruLimited (s : KruState) (timeNow : UInt32) (hash : UInt64) (price : UInt32) :
    Bool × KruState :=
  kruLimitedMultiOr s timeNow [hash] [price]

/-- A run of `m` calls of `kru_limited` for one key at one time, and their answers. -/
def kruLimitedRun (s : KruState) (timeNow : UInt32) (hash : UInt64) (price : UInt32) :
    ℕ → List Bool × KruState
  | 0 => ([], s)
  | m + 1 =>
    let r := kruLimited s timeNow hash price
    let rest := kruLimitedRun r.2 timeNow hash price m
    (r.1 :: rest.1, rest.2)

/-! ## Time decay -/

section Decay

variable {decay : DecayConfig} {timeNow : UInt32} {l : LoadCl} {rand : UInt64}

theorem decayLoad_zero (mult : UInt32) (rnd : UInt16) : decayLoad mult 0 rnd = 0 := by
  simp [decayLoad]

/-- Unloaded slots stay unloaded through the decay loop. -/
theorem decayLoads_zero (mult : UInt32) (rand : UInt64) :
    (decayLoads mult (fun _ => 0) rand).1 = fun _ => 0 := by
  suffices h : ∀ (is : List (Fin loadsLen)) rand,
      (is.foldl (decayRound mult) ((fun _ => 0), rand)).1 = fun _ => 0 from h _ rand
  intro is
  induction is with
  | nil => intro _; rfl
  | cons i is ih =>
    intro rand
    have hround : decayRound mult ((fun _ => 0), rand) i = ((fun _ => 0), (randBits 16 rand).2) := by
      simp [decayRound, decayLoad_zero]
    rw [List.foldl_cons, hround, ih]

@[simp] theorem updateTime_ids : (updateTime decay timeNow l rand).1.ids = l.ids := by
  unfold updateTime
  dsimp only
  split_ifs <;> rfl

theorem updateTime_of_settled (h : Settled timeNow l) : updateTime decay timeNow l rand = (l, rand) := by
  unfold updateTime
  rcases h with h | h
  · simp [h]
  · by_cases h0 : timeNow - l.time = 0 <;> simp [h0, h]

/-- After update_time a line is settled at the time it was given. -/
theorem settled_updateTime : Settled timeNow (updateTime decay timeNow l rand).1 := by
  unfold updateTime Settled
  dsimp only
  split_ifs with h0 h1
  · left
    grind
  · right
    exact h1
  · left
    rfl
  · left
    rfl

theorem updateTime_loads_of_zero (hl : l.loads = fun _ => 0) :
    (updateTime decay timeNow l rand).1.loads = fun _ => 0 := by
  unfold updateTime
  dsimp only
  split_ifs
  · exact hl
  · exact hl
  · rfl
  · simp only [hl, decayLoads_zero]

end Decay

/-! ## Bounds of the decay -/

section DecayBounds

/-- The 64-bit product of `update_time`: the load shifted up by 16 bits times the multiplier,
which never wraps. -/
theorem toNat_decayProduct (mult : UInt32) (load : UInt16) :
    ((load.toUInt64 <<< 16) * mult.toUInt64).toNat = load.toNat * 65536 * mult.toNat := by
  have ha := load.toNat_lt
  have hb := mult.toNat_lt
  have hprod : load.toNat * 65536 * mult.toNat < 2 ^ 64 := by
    calc load.toNat * 65536 * mult.toNat < 65536 * 65536 * 4294967296 := by
          apply Nat.mul_lt_mul_of_lt_of_lt (Nat.mul_lt_mul_of_pos_right ha (by norm_num)) hb
      _ = 2 ^ 64 := by norm_num
  rw [UInt64.toNat_mul, UInt64.toNat_shiftLeft, UInt16.toNat_toUInt64, UInt32.toNat_toUInt64]
  simp only [Nat.shiftLeft_eq]
  have h16 : (16 : UInt64).toNat % 64 = 16 := rfl
  rw [h16, Nat.mod_eq_of_lt (by omega : load.toNat * 2 ^ 16 < 2 ^ 64)]
  norm_num at hprod ⊢
  exact hprod

/-- The product rounded to 32 bits below the point. -/
theorem toNat_decayRounded (m : UInt64) :
    ((m >>> 32) + ((m >>> 31) &&& 1)).toNat = m.toNat / 2 ^ 32 + m.toNat / 2 ^ 31 % 2 := by
  have h1 : (m >>> 32).toNat = m.toNat / 2 ^ 32 := by
    rw [UInt64.toNat_shiftRight, Nat.shiftRight_eq_div_pow]
    rfl
  have h2 : ((m >>> 31) &&& 1).toNat = m.toNat / 2 ^ 31 % 2 := by
    rw [UInt64.toNat_and, UInt64.toNat_shiftRight, Nat.shiftRight_eq_div_pow]
    exact Nat.and_one_is_mod _
  rw [UInt64.toNat_add, h1, h2]
  apply Nat.mod_eq_of_lt
  have hm := m.toNat_lt
  have : m.toNat / 2 ^ 32 < 2 ^ 32 := by omega
  have : m.toNat / 2 ^ 31 % 2 < 2 := Nat.mod_lt _ (by norm_num)
  omega

/-- One load through the decay of `update_time`: never above the load, and never below the load
scaled down by `mult / 2^32`. -/
theorem decayLoad_bounds (mult : UInt32) (load rnd : UInt16) :
    load.toNat * mult.toNat / 2 ^ 32 ≤ (decayLoad mult load rnd).toNat ∧
      (decayLoad mult load rnd).toNat ≤ load.toNat := by
  obtain ⟨P, hP⟩ : ∃ P, load.toNat * mult.toNat = P := ⟨_, rfl⟩
  have hPle : P ≤ load.toNat * 4294967295 := by
    rw [← hP]
    exact Nat.mul_le_mul_left _ (Nat.le_of_lt_succ mult.toNat_lt)
  have hm0 : load.toNat * 65536 * mult.toNat = P * 65536 := by
    rw [← hP]
    ring
  -- the product rounded below the point: at most the load in 16.16 fixed point
  obtain ⟨m1, hm1, hdecay⟩ : ∃ m1 : UInt64, m1.toNat = P * 65536 / 2 ^ 32 + P * 65536 / 2 ^ 31 % 2 ∧
      decayLoad mult load rnd = ((m1 >>> 16) + (if rnd < m1.toUInt16 then 1 else 0)).toUInt16 :=
    ⟨_, by rw [toNat_decayRounded, toNat_decayProduct, hm0], rfl⟩
  have hm1le : m1.toNat ≤ load.toNat * 65536 := by omega
  have hla := load.toNat_lt
  -- the random rounding adds one only to a fraction
  have hbit : (if rnd < m1.toUInt16 then (1 : UInt64) else 0).toNat ≤ 1 ∧
      ((if rnd < m1.toUInt16 then (1 : UInt64) else 0).toNat = 1 → 0 < m1.toNat % 65536) := by
    split_ifs with h
    · refine ⟨le_rfl, fun _ => ?_⟩
      have h0 : m1.toUInt16 ≠ 0 := fun h0 => by simp [h0] at h
      have : m1.toUInt16.toNat = m1.toNat % 65536 := UInt64.toNat_toUInt16 m1
      by_contra hz
      exact h0 (UInt16.toNat_inj.mp (by simp only [UInt16.toNat_zero]; omega))
    · simp
  have hval : (decayLoad mult load rnd).toNat =
      m1.toNat / 65536 + (if rnd < m1.toUInt16 then (1 : UInt64) else 0).toNat := by
    rw [hdecay, UInt64.toNat_toUInt16, UInt64.toNat_add, UInt64.toNat_shiftRight,
      Nat.shiftRight_eq_div_pow]
    have : m1.toNat / 2 ^ ((16 : UInt64).toNat % 64) = m1.toNat / 65536 := rfl
    rw [this]
    omega
  rw [hval]
  constructor <;> omega

/-- The loop of update_time decays every slot once, each with a draw of its own. -/
theorem decayLoads_slot (mult : UInt32) (loads : Fin loadsLen → UInt16) (rand : UInt64)
    (i : Fin loadsLen) : ∃ rnd, (decayLoads mult loads rand).1 i = decayLoad mult (loads i) rnd := by
  -- over the slots still to go: those in the list are decayed once, the others untouched
  suffices h : ∀ (is : List (Fin loadsLen)) (acc : (Fin loadsLen → UInt16) × UInt64), is.Nodup →
      (i ∈ is → ∃ rnd, (is.foldl (decayRound mult) acc).1 i = decayLoad mult (acc.1 i) rnd) ∧
      (i ∉ is → (is.foldl (decayRound mult) acc).1 i = acc.1 i) from
    (h _ (loads, rand) (List.nodup_finRange _)).1 (List.mem_finRange i)
  intro is
  induction is with
  | nil => simp
  | cons j is ih =>
    intro acc hnd
    obtain ⟨hj, hnd⟩ := List.nodup_cons.mp hnd
    obtain ⟨hin, hout⟩ := ih (decayRound mult acc j) hnd
    rw [List.foldl_cons]
    by_cases hij : i = j
    · subst hij
      refine ⟨fun _ => ⟨(randBits 16 acc.2).1.toUInt16, ?_⟩, fun h => absurd List.mem_cons_self h⟩
      rw [hout hj]
      simp [decayRound]
    · have hupd : (decayRound mult acc j).1 i = acc.1 i := by
        simp [decayRound, hij]
      refine ⟨fun h => ?_, fun h => ?_⟩
      · rw [← hupd]
        exact hin (List.mem_of_ne_of_mem hij h)
      · rw [hout (fun h' => h (List.mem_cons_of_mem _ h')), hupd]

/-- A time that lags the line's by less than 1024 ticks is one update_time leaves alone. -/
theorem settled_of_lag (l : LoadCl) {d : UInt32} (hd : d < 1024) : Settled (l.time - d) l := by
  unfold Settled
  by_cases h0 : d = 0
  · left
    simp [h0]
  · right
    have : l.time - d - l.time = -d := by grind
    rw [this, gt_iff_lt, UInt32.lt_iff_toNat_lt]
    rw [UInt32.lt_iff_toNat_lt] at hd
    have hd0 : d.toNat ≠ 0 := fun h => h0 (UInt32.toNat_inj.mp (by simpa using h))
    have h1024 : UInt32.toNat 1024 = 1024 := rfl
    simp only [UInt32.toNat_neg, UInt32.size, h1024] at hd ⊢
    omega

/-- What update_time does to the loads of a line: nothing, the memset past max_ticks, or the
decay of every slot by the multiplier of the ticks that passed. -/
theorem updateTime_loads_cases (decay : DecayConfig) (timeNow : UInt32) (l : LoadCl)
    (rand : UInt64) :
    (updateTime decay timeNow l rand).1.loads = l.loads ∨
      (decay.maxTicks < timeNow - l.time ∧ (updateTime decay timeNow l rand).1.loads = fun _ => 0) ∨
      (timeNow - l.time ≤ decay.maxTicks ∧ ∀ i, ∃ rnd,
        (updateTime decay timeNow l rand).1.loads i =
          decayLoad (decayMult decay (timeNow - l.time)) (l.loads i) rnd) := by
  unfold updateTime
  dsimp only
  split_ifs with h0 h1 h2
  · left; rfl
  · left; rfl
  · right; left; exact ⟨h2, rfl⟩
  · right; right; exact ⟨UInt32.not_lt.mp h2, decayLoads_slot _ _ _⟩

theorem toNat_loads_updateTime_le (decay : DecayConfig) (timeNow : UInt32) (l : LoadCl)
    (rand : UInt64) (i : Fin loadsLen) :
    ((updateTime decay timeNow l rand).1.loads i).toNat ≤ (l.loads i).toNat := by
  rcases updateTime_loads_cases decay timeNow l rand with h | ⟨_, h⟩ | ⟨_, h⟩
  · rw [h]
  · simp [h]
  · obtain ⟨rnd, hi⟩ := h i
    rw [hi]
    exact (decayLoad_bounds _ _ _).2

theorem updateTime_decays_within_bounds (decay : DecayConfig) (timeNow : UInt32) (l : LoadCl)
    (rand : UInt64) :
    (∀ (mult : UInt32) (load rnd : UInt16),
      load.toNat * mult.toNat / 2 ^ 32 ≤ (decayLoad mult load rnd).toNat ∧
        (decayLoad mult load rnd).toNat ≤ load.toNat) ∧
    (∀ i, ((updateTime decay timeNow l rand).1.loads i).toNat ≤ (l.loads i).toNat) ∧
    ((updateTime decay timeNow l rand).1.loads = l.loads ∨
      (decay.maxTicks < timeNow - l.time ∧ (updateTime decay timeNow l rand).1.loads = fun _ => 0) ∨
      (timeNow - l.time ≤ decay.maxTicks ∧ ∀ i, ∃ rnd,
        (updateTime decay timeNow l rand).1.loads i =
          decayLoad (decayMult decay (timeNow - l.time)) (l.loads i) rnd)) ∧
    (∀ d : UInt32, d < 1024 → updateTime decay (l.time - d) l rand = (l, rand)) := by
  refine ⟨decayLoad_bounds, toNat_loads_updateTime_le decay timeNow l rand,
    updateTime_loads_cases decay timeNow l rand, fun d hd => ?_⟩
  exact updateTime_of_settled (settled_of_lag l hd)

end DecayBounds

/-! ## The fetch phase -/

/-- The table with one line of a query brought to the query's time, as `update_time` does. -/
def LineDecay (kru kru' : Kru) : Prop :=
  ∃ ctx li rand, kru' = kru.modifyLine ctx li fun _ =>
    (updateTime kru.decay ctx.timeNow (kru.line ctx li) rand).1

section Fetch

variable {kru : Kru} {ctx : QueryCtx} {rand : UInt64}

/-- The loop over the two lines, written out. -/
theorem updateLines_eq : updateLines kru ctx rand =
    let r0 := updateTime kru.decay ctx.timeNow (kru.line ctx 0) rand
    let k0 := kru.modifyLine ctx 0 fun _ => r0.1
    let r1 := updateTime kru.decay ctx.timeNow (k0.line ctx 1) r0.2
    (k0.modifyLine ctx 1 fun _ => r1.1, r1.2) := rfl

theorem updateLines_of_settled (h : ∀ li, Settled ctx.timeNow (kru.line ctx li)) :
    updateLines kru ctx rand = (kru, rand) := by
  rw [updateLines_eq]
  simp only [updateTime_of_settled (h 0), Kru.modifyLine_line_self, updateTime_of_settled (h 1)]

/-- Each of the two lines is brought to the query's time once. -/
theorem line_updateLines (li : Fin tableCount) : ∃ rand',
    (updateLines kru ctx rand).1.line ctx li =
      (updateTime kru.decay ctx.timeNow (kru.line ctx li) rand').1 := by
  rw [updateLines_eq]
  fin_cases li
  · exact ⟨rand, by simp [Kru.line_modifyLine_of_ne]⟩
  · exact ⟨(updateTime kru.decay ctx.timeNow (kru.line ctx 0) rand).2,
      by simp [Kru.line_modifyLine_of_ne]⟩

theorem ids_line_updateLines (li : Fin tableCount) :
    ((updateLines kru ctx rand).1.line ctx li).ids = (kru.line ctx li).ids := by
  obtain ⟨rand', h⟩ := @line_updateLines kru ctx rand li
  rw [h, updateTime_ids]

@[simp] theorem loadsBits_updateLines : (updateLines kru ctx rand).1.loadsBits = kru.loadsBits := by
  rw [updateLines_eq]
  rfl

/-- The lines of a fresh table after `update_time`: settled, with zero ids and loads. -/
theorem updateLines_freshKru (decay : DecayConfig) (loadsBits : UInt32) (li : Fin tableCount) :
    let l := (updateLines (freshKru decay loadsBits) ctx rand).1.line ctx li
    Settled ctx.timeNow l ∧ l.ids = (fun _ => 0) ∧ l.loads = fun _ => 0 := by
  intro l
  obtain ⟨rand', hl⟩ := @line_updateLines (freshKru decay loadsBits) ctx rand li
  have hl' : l = _ := hl
  rw [hl']
  exact ⟨settled_updateTime, updateTime_ids, updateTime_loads_of_zero rfl⟩

theorem updateLines_decays : Relation.ReflTransGen LineDecay kru (updateLines kru ctx rand).1 := by
  rw [updateLines_eq]
  apply Relation.ReflTransGen.tail (Relation.ReflTransGen.single ⟨ctx, 0, rand, rfl⟩)
  exact ⟨ctx, 1, _, rfl⟩

end Fetch

theorem LineDecay.ids {kru kru' : Kru} (h : LineDecay kru kru') (r : ℕ) (lj : Fin tableCount) :
    (kru'.loadCls r lj).ids = (kru.loadCls r lj).ids := by
  obtain ⟨ctx, li, rand, rfl⟩ := h
  rw [Kru.loadCls_modifyLine]
  split_ifs with hr
  · obtain ⟨rfl, rfl⟩ := hr
    simp [Kru.line]
  · rfl

/-- Time decay never changes an id. -/
theorem ids_of_decays {kru kru' : Kru} (h : Relation.ReflTransGen LineDecay kru kru') (r : ℕ)
    (lj : Fin tableCount) : (kru'.loadCls r lj).ids = (kru.loadCls r lj).ids := by
  induction h with
  | refl => rfl
  | tail _ hstep ih => rw [hstep.ids, ih]

theorem kruLimitedFetch_decays (s : KruState) (ctx : QueryCtx) :
    Relation.ReflTransGen LineDecay s.kru (kruLimitedFetch s ctx).2.1.kru := by
  unfold kruLimitedFetch
  dsimp only
  split
  · exact updateLines_decays
  · exact updateLines_decays

/-- The fetch phase of a multi-query changes the table only by time decay, whether a query is
blocked in it or not. -/
theorem kruFetchLoop_decays (s : KruState) (ctxs : List QueryCtx) :
    Relation.ReflTransGen LineDecay s.kru (kruFetchLoop s ctxs).2.1.kru := by
  induction ctxs generalizing s with
  | nil => exact Relation.ReflTransGen.refl
  | cons ctx ctxs ih =>
    unfold kruFetchLoop
    dsimp only
    split
    · exact kruLimitedFetch_decays s ctx
    · exact (kruLimitedFetch_decays s ctx).trans (ih _)

theorem kruSlots_find?_of_first {p : Fin tableCount × Fin loadsLen → Bool} (h : p (0, 0) = true) :
    kruSlots.find? p = some (0, 0) := by
  have hslots : kruSlots = (0, 0) :: kruSlots.tail := rfl
  rw [hslots, List.find?_cons_of_pos h]

section FetchSpec

variable {s : KruState} {ctx : QueryCtx} {kru' : Kru} {rand' : UInt64}

/-- `kru_limited_fetch` when, after the decay of the two lines, the key holds the first slot. -/
theorem kruLimitedFetch_of_first
    (hu : updateLines s.kru ctx (kruPrice16 ctx.price s.rand).2.2 = (kru', rand'))
    (hid : (kru'.line ctx 0).ids 0 = ctx.id) :
    let p := kruPrice16 ctx.price s.rand
    let v := (kru'.line ctx 0).loads 0
    kruLimitedFetch s ctx = (decide (p.2.1 ≤ v.toUInt32), ⟨kru', rand'⟩,
      { ctx with price16 := p.1, limit16 := p.2.1, load := some (0, 0), finalLoadValue := v }) := by
  unfold kruLimitedFetch
  dsimp only
  rw [hu, kruSlots_find?_of_first]
  · rfl
  · simpa [Kru.line] using hid

/-- `kru_limited_fetch` when, after the decay of the two lines, no slot holds the key. -/
theorem kruLimitedFetch_of_absent
    (hu : updateLines s.kru ctx (kruPrice16 ctx.price s.rand).2.2 = (kru', rand'))
    (hnone : ∀ li i, (kru'.line ctx li).ids i ≠ ctx.id) :
    let p := kruPrice16 ctx.price s.rand
    kruLimitedFetch s ctx = (false, ⟨kru', rand'⟩,
      { ctx with price16 := p.1, limit16 := p.2.1, load := none, finalLoadValue := 0 }) := by
  have hfind : ∀ c : QueryCtx, c.rows = ctx.rows →
      kruSlots.find? (fun x => (kru'.line c x.1).ids x.2 == ctx.id) = none := by
    intro c hc
    rw [List.find?_eq_none]
    intro x _
    simpa [Kru.line, hc] using hnone x.1 x.2
  unfold kruLimitedFetch
  dsimp only
  rw [hu]
  dsimp only
  rw [hfind]
  rfl

end FetchSpec

/-! ## The update phase -/

section Update

variable {s : KruState} {ctx : QueryCtx}

/-- Among equal loads the first slot is the smallest. -/
theorem minSlot_of_loads_eq {kru : Kru}
    (h : ∀ li i, (kru.line ctx li).loads i = (kru.line ctx 0).loads 0) : minSlot kru ctx = (0, 0) :=
  List.foldl_fixed' (fun x => if_neg (by rw [h x.1 x.2]; exact UInt16.lt_irrefl _)) _

section Slot

variable {x : Fin tableCount × Fin loadsLen} {v : UInt16}

/-- `kru_limited_update` of a match at the limit: blocked, nothing changed. -/
theorem kruLimitedUpdate_of_some_of_le (hx : ctx.load = some x)
    (hv : (s.kru.line ctx x.1).loads x.2 = v) (hle : ctx.limit16 ≤ v.toUInt32) :
    kruLimitedUpdate s ctx false = (true, s, ctx) := by
  subst hv
  simp [kruLimitedUpdate, hx, hle]

/-- `kru_limited_update` of a match below the limit: its load raised by the price. -/
theorem kruLimitedUpdate_of_some_of_lt (hx : ctx.load = some x)
    (hv : (s.kru.line ctx x.1).loads x.2 = v) (hlt : ¬ ctx.limit16 ≤ v.toUInt32) :
    kruLimitedUpdate s ctx false =
      (false, ⟨s.kru.modifyLine ctx x.1 (·.setLoad x.2 (v + ctx.price16)), s.rand⟩,
        { ctx with finalLoadValue := v + ctx.price16 }) := by
  subst hv
  simp [kruLimitedUpdate, hx, hlt]

/-- `kru_limited_update` without a match, the smallest load below the limit: the key takes the
slot and its load is raised by the price. -/
theorem kruLimitedUpdate_of_none_of_lt (hx : ctx.load = none) (hmin : minSlot s.kru ctx = x)
    (hv : (s.kru.line ctx x.1).loads x.2 = v) (hlt : ¬ ctx.limit16 ≤ v.toUInt32) :
    kruLimitedUpdate s ctx false =
      (false, ⟨(s.kru.modifyLine ctx x.1 (·.setId x.2 ctx.id)).modifyLine ctx x.1
          (·.setLoad x.2 (v + ctx.price16)), s.rand⟩,
        { ctx with finalLoadValue := v + ctx.price16 }) := by
  subst hv hmin
  simp [kruLimitedUpdate, hx, hlt]

end Slot

/-- Without a match, `kru_limited_update` gives the slot of the smallest load to the key before
it looks at the limit: the id is written even when the query is then blocked. -/
theorem kruLimitedUpdate_takes_slot (hx : ctx.load = none) (o : Bool) :
    let x := minSlot s.kru ctx
    ((kruLimitedUpdate s ctx o).2.1.kru.line ctx x.1).ids x.2 = ctx.id := by
  unfold kruLimitedUpdate
  simp only [hx, Option.getD_none, Option.isNone_none, if_true]
  split_ifs <;> simp

end Update

/-- `kru_limited`: the fetch, then the update unless the fetch blocked. -/
theorem kruLimited_eq (s : KruState) (timeNow : UInt32) (hash : UInt64) (price : UInt32) :
    let f := kruLimitedFetch s (kruLimitedPrefetch s.kru timeNow hash price)
    kruLimited s timeNow hash price = if f.1 then (true, f.2.1)
      else ((kruLimitedUpdate f.2.1 f.2.2 false).1, (kruLimitedUpdate f.2.1 f.2.2 false).2.1) := by
  unfold kruLimited kruLimitedMultiOr
  simp only [List.zip_cons_cons, List.zip_nil_left, List.map_cons, List.map_nil, kruFetchLoop]
  split
  · rfl
  · simp [kruUpdateAll]

/-- A table whose lines all belong to other keys, with load 1 in every slot. -/
def takenKru : Kru :=
  { decay := ⟨0, fun _ => 0, fun _ => 0⟩, loadsBits := 1
    loadCls := fun _ li => ⟨0, fun i => 1 + 15 * li.val.toUInt16 + i.val.toUInt16, fun _ => 1⟩ }

theorem kruLimited_blocked_takes_slot :
    (kruLimited ⟨takenKru, 0⟩ 0 0 kruLimit.toUInt32).1 = true ∧
      ¬ Relation.ReflTransGen LineDecay takenKru
        (kruLimited ⟨takenKru, 0⟩ 0 0 kruLimit.toUInt32).2.kru := by
  refine ⟨by decide +kernel, fun h => ?_⟩
  -- time decay keeps the id of the first slot, which the blocked call has overwritten
  have hid := congrFun (ids_of_decays h 0 0) 0
  revert hid
  decide +kernel

/-! ## One key at one time -/

section Price

variable {price : UInt32}

/-- The fraction of a price below 2^16, as the mask of kru_limited_fetch takes it. -/
theorem toNat_fract : (price &&& (((1 : UInt32) <<< 16) - 1)).toNat = price.toNat % 65536 := by
  have hmask : (((1 : UInt32) <<< 16) - 1).toNat = 2 ^ 16 - 1 := rfl
  rw [UInt32.toNat_and, hmask, Nat.and_two_pow_sub_one_eq_mod]

/-- A price of whole multiples of 2^16 is charged without random rounding: its 16-bit price is
the multiple, and its limit what remains of 2^16. -/
theorem kruPrice16_of_mod (h : price.toNat % 65536 = 0) (rand : UInt64) :
    kruPrice16 price rand =
      ((price >>> 16).toUInt16, (65536 : UInt32) - (price >>> 16).toUInt16.toUInt32, rand) := by
  have hfract : price &&& (((1 : UInt32) <<< 16) - 1) = 0 := by
    apply UInt32.toNat_inj.mp
    rw [toNat_fract]
    simpa using h
  simp [kruPrice16, hfract]

theorem toNat_price16 : (price >>> 16).toUInt16.toNat = price.toNat / 65536 := by
  have := price.toNat_lt
  simp [Nat.shiftRight_eq_div_pow]
  omega

theorem toNat_limit16 :
    ((65536 : UInt32) - (price >>> 16).toUInt16.toUInt32).toNat = 65536 - price.toNat / 65536 := by
  have h := @toNat_price16 price
  have hlt := price.toNat_lt
  simp only [UInt32.toNat_sub, UInt16.toNat_toUInt32, h]
  simp
  omega

/-- The 16-bit limit is what remains of 2^16 after the price rounded up, and below the limit
the 16-bit price is the price rounded down or up, without wrapping. -/
theorem kruPrice16_spec (rand : UInt64) :
    let p := kruPrice16 price rand
    p.2.1.toNat + (price.toNat + 65535) / 65536 = 65536 ∧
      (0 < p.2.1.toNat →
        p.1.toNat = price.toNat / 65536 ∨ p.1.toNat = (price.toNat + 65535) / 65536) := by
  have hlt := price.toNat_lt
  have hp16 := @toNat_price16 price
  have hfract := @toNat_fract price
  unfold kruPrice16
  by_cases hf : price &&& (((1 : UInt32) <<< 16) - 1) > 0
  · -- a fraction: the limit is lowered by one and the price rounded at random
    have hf' : 0 < price.toNat % 65536 := by
      rw [← hfract]
      exact UInt32.lt_iff_toNat_lt.mp hf
    have hlim : ((65536 : UInt32) - (price >>> 16).toUInt16.toUInt32 - 1).toNat =
        65535 - price.toNat / 65536 := by
      simp only [UInt32.toNat_sub, UInt16.toNat_toUInt32, hp16]
      simp
      omega
    simp only [if_pos hf, hlim]
    refine ⟨by omega, fun hpos => ?_⟩
    split_ifs with hr
    · right
      rw [UInt16.toNat_add, hp16]
      simp
      omega
    · left
      simpa using hp16
  · have hf' : price.toNat % 65536 = 0 := by
      have := UInt32.lt_iff_toNat_lt.not.mp hf
      simp only [UInt32.toNat_zero] at this
      omega
    simp only [if_neg hf, toNat_limit16, hp16]
    omega

end Price

/-! ## The counters of one query -/

section Counters

/-- What the fetch hands on to the update: the 16-bit price and limit, and, where the key holds
a slot, that slot's load after the decay, compared with the limit. -/
theorem kruLimitedFetch_spec (s : KruState) (ctx : QueryCtx) :
    let r := kruLimitedFetch s ctx
    r.2.2.price16 = (kruPrice16 ctx.price s.rand).1 ∧
      r.2.2.limit16 = (kruPrice16 ctx.price s.rand).2.1 ∧ r.2.2.price = ctx.price ∧
      (∀ x, r.2.2.load = some x →
        r.2.2.finalLoadValue = (r.2.1.kru.line r.2.2 x.1).loads x.2 ∧
          r.1 = decide (r.2.2.limit16 ≤ r.2.2.finalLoadValue.toUInt32)) ∧
      (r.2.2.load = none → r.1 = false) := by
  unfold kruLimitedFetch
  dsimp only
  split
  · simp
  · simp [Kru.line]

/-- The slot `kru_limited_update` works on, the answer, and the load it leaves there. -/
theorem kruLimitedUpdate_slot (s : KruState) (ctx : QueryCtx) (o : Bool) :
    let x := ctx.load.getD (minSlot s.kru ctx)
    let L := (s.kru.line ctx x.1).loads x.2
    let r := kruLimitedUpdate s ctx o
    r.1 = (decide (ctx.limit16 ≤ L.toUInt32) && !o) ∧
      (r.2.1.kru.line ctx x.1).loads x.2 =
        if ctx.limit16 ≤ L.toUInt32 then (if o then 65535 else L) else L + ctx.price16 := by
  dsimp only
  unfold kruLimitedUpdate
  -- without a match the key is first given the slot of the smallest load, which keeps its load
  cases hl : ctx.load with
  | none =>
    simp only [Option.getD_none, Option.isNone_none, if_true, Kru.line_modifyLine_self,
      LoadCl.loads_setId]
    split_ifs <;> simp_all
  | some y =>
    simp only [Option.getD_some, Option.isNone_some, Bool.false_eq_true, if_false]
    split_ifs <;> simp_all

/-- The fetch reports a key limited exactly when its counter and the price rounded up reach
2^16, and the update on the same counter agrees with it: without `overflow_update` it blocks
under the same condition and leaves the counter, or else adds the price rounded down or up with
no wrap; with `overflow_update` it never lowers the counter and saturates it at 65535. -/
theorem kruLimited_counter_arithmetic (s : KruState) (ctx : QueryCtx) (s' : KruState) :
    let f := kruLimitedFetch s ctx
    let c := f.2.2
    let ceil16 := (ctx.price.toNat + 65535) / 65536
    ((∀ x, c.load = some x → c.finalLoadValue = (f.2.1.kru.line c x.1).loads x.2 ∧
        (f.1 = true ↔ 65536 ≤ c.finalLoadValue.toNat + ceil16)) ∧ (c.load = none → f.1 = false)) ∧
    let x := c.load.getD (minSlot s'.kru c)
    let L := (s'.kru.line c x.1).loads x.2
    let r := kruLimitedUpdate s' c false
    let L' := (r.2.1.kru.line c x.1).loads x.2
    let ro := kruLimitedUpdate s' c true
    let Lo := (ro.2.1.kru.line c x.1).loads x.2
    ((r.1 = true ↔ 65536 ≤ L.toNat + ceil16) ∧ (r.1 = true → L' = L) ∧
      (r.1 = false →
        L'.toNat = L.toNat + ctx.price.toNat / 65536 ∨ L'.toNat = L.toNat + ceil16)) ∧
    (ro.1 = false ∧ L.toNat ≤ Lo.toNat ∧ (65536 ≤ L.toNat + ceil16 → Lo = 65535)) := by
  intro f c ceil16
  obtain ⟨hp16, hlim, -, hsome, hnone⟩ := kruLimitedFetch_spec s ctx
  obtain ⟨hlimit, hprice⟩ := @kruPrice16_spec ctx.price s.rand
  -- the limit compared as a natural number
  have hle : ∀ v : UInt16, c.limit16 ≤ v.toUInt32 ↔ 65536 ≤ v.toNat + ceil16 := by
    intro v
    rw [UInt32.le_iff_toNat_le, UInt16.toNat_toUInt32, hlim]
    omega
  refine ⟨⟨fun x hx => ?_, hnone⟩, ?_⟩
  · obtain ⟨hval, hans⟩ := hsome x hx
    refine ⟨hval, ?_⟩
    rw [hans, decide_eq_true_iff, hle]
  intro x L r L' ro Lo
  have hr : r.1 = decide (c.limit16 ≤ L.toUInt32) := by
    simpa using (kruLimitedUpdate_slot s' c false).1
  have hL' : L' = if c.limit16 ≤ L.toUInt32 then L else L + c.price16 := by
    simpa using (kruLimitedUpdate_slot s' c false).2
  have hro : ro.1 = false := by simpa using (kruLimitedUpdate_slot s' c true).1
  have hLo : Lo = if c.limit16 ≤ L.toUInt32 then 65535 else L + c.price16 := by
    simpa using (kruLimitedUpdate_slot s' c true).2
  -- below the limit the 16-bit price is the price rounded down or up, and the sum fits
  have hadd : ¬ c.limit16 ≤ L.toUInt32 → L.toNat + ceil16 < 65536 ∧
      ((L + c.price16).toNat = L.toNat + ctx.price.toNat / 65536 ∨
        (L + c.price16).toNat = L.toNat + ceil16) := by
    intro hb
    have hbelow : L.toNat + ceil16 < 65536 := by
      have := (hle L).not.mp hb
      omega
    have hpos : 0 < (kruPrice16 ctx.price s.rand).2.1.toNat := by omega
    refine ⟨hbelow, ?_⟩
    rw [UInt16.toNat_add, hp16]
    rcases hprice hpos with h | h <;> rw [h] <;> [left; right] <;> omega
  refine ⟨⟨by rw [hr, decide_eq_true_iff, hle], fun h => ?_, fun h => ?_⟩, hro, ?_, fun h => ?_⟩
  · have hb : c.limit16 ≤ L.toUInt32 := by simpa [hr] using h
    rw [hL', if_pos hb]
  · have hb : ¬ c.limit16 ≤ L.toUInt32 := by simpa [hr] using h
    rw [hL', if_neg hb]
    exact (hadd hb).2
  · by_cases hb : c.limit16 ≤ L.toUInt32
    · rw [hLo, if_pos hb]
      exact Nat.le_of_lt_succ L.toNat_lt
    · rw [hLo, if_neg hb]
      rcases (hadd hb).2 with h | h <;> omega
  · rw [hLo, if_pos ((hle L).mpr h)]

end Counters

/-- The lines of a query after accepted calls of its key alone: both settled at the query's
time, and the key in the first slot with load `load`. -/
structure Charged (kru : Kru) (ctx : QueryCtx) (load : UInt16) : Prop where
  settled : ∀ li, Settled ctx.timeNow (kru.line ctx li)
  id : (kru.line ctx 0).ids 0 = ctx.id
  first : (kru.line ctx 0).loads 0 = load

section Charged

variable {kru : Kru} {ctx : QueryCtx} {load : UInt16}

/-- Changing the first line of settled lines, its time kept, gives a charged key. -/
theorem charged_modifyLine {f : LoadCl → LoadCl} (hset : ∀ li, Settled ctx.timeNow (kru.line ctx li))
    (htime : (f (kru.line ctx 0)).time = (kru.line ctx 0).time)
    (hid : (f (kru.line ctx 0)).ids 0 = ctx.id) (hload : (f (kru.line ctx 0)).loads 0 = load) :
    Charged (kru.modifyLine ctx 0 f) ctx load where
  settled li := by
    fin_cases li
    · have h := hset 0
      unfold Settled at h ⊢
      simpa [htime] using h
    · simpa [Kru.line_modifyLine_of_ne] using hset 1
  id := by simpa using hid
  first := by simpa using hload

theorem Charged.setLoad (hc : Charged kru ctx load) (v : UInt16) :
    Charged (kru.modifyLine ctx 0 (·.setLoad 0 v)) ctx v :=
  charged_modifyLine hc.settled rfl (by simpa using hc.id) (by simp)

/-- The query of the key depends on the table only through its `loads_bits`. -/
theorem kruLimitedPrefetch_of_loadsBits {kru' : Kru} (h : kru'.loadsBits = kru.loadsBits) :
    kruLimitedPrefetch kru' = kruLimitedPrefetch kru := by
  unfold kruLimitedPrefetch
  rw [h]

end Charged

section SingleKey

variable {s : KruState} {timeNow : UInt32} {hash : UInt64} {price : UInt32} {load : UInt16}

/-- A call of `kru_limited` for a charged key: blocked with the table unchanged when the load
has reached the limit, and else charged with the price. -/
theorem Charged.kruLimited (hc : Charged s.kru (kruLimitedPrefetch s.kru timeNow hash price) load)
    (hmod : price.toNat % 65536 = 0) :
    let p16 := (price >>> 16).toUInt16
    let blocked := decide ((65536 : UInt32) - p16.toUInt32 ≤ load.toUInt32)
    ∃ s', kruLimited s timeNow hash price = (blocked, s') ∧ s'.kru.loadsBits = s.kru.loadsBits ∧
      Charged s'.kru (kruLimitedPrefetch s.kru timeNow hash price)
        (if blocked then load else load + p16) := by
  intro p16 blocked
  have hfetch := kruLimitedFetch_of_first (updateLines_of_settled hc.settled) hc.id
  simp only [price_kruLimitedPrefetch, kruPrice16_of_mod hmod, hc.first] at hfetch
  rw [kruLimited_eq]
  rw [hfetch]
  by_cases hb : (65536 : UInt32) - p16.toUInt32 ≤ load.toUInt32
  · -- blocked in the fetch phase
    have hblocked : blocked = true := decide_eq_true hb
    refine ⟨⟨s.kru, s.rand⟩, ?_, rfl, ?_⟩
    · rw [if_pos (decide_eq_true hb), hblocked]
    · rw [hblocked, if_pos rfl]
      exact hc
  · -- the update raises the load of the first slot
    have hpass : blocked = false := decide_eq_false hb
    refine ⟨⟨s.kru.modifyLine (kruLimitedPrefetch s.kru timeNow hash price) 0
      (·.setLoad 0 (load + p16)), s.rand⟩, ?_, rfl, ?_⟩
    · rw [if_neg (fun h => hb (of_decide_eq_true h)),
        kruLimitedUpdate_of_some_of_lt (x := (0, 0)) (v := load), hpass]
      · rfl
      · rfl
      · exact hc.first
      · exact hb
    · rw [hpass, if_neg Bool.false_ne_true]
      exact hc.setLoad (load + p16)

/-- The first call of a key on a fresh table passes and charges the first slot of the key's
first line with the price. -/
theorem kruLimited_freshKru (decay : DecayConfig) (loadsBits : UInt32) (rand : UInt64)
    (hmod : price.toNat % 65536 = 0) :
    ∃ s', kruLimited ⟨freshKru decay loadsBits, rand⟩ timeNow hash price = (false, s') ∧
      s'.kru.loadsBits = loadsBits ∧
      Charged s'.kru (kruLimitedPrefetch (freshKru decay loadsBits) timeNow hash price)
        (price >>> 16).toUInt16 := by
  set ctx := kruLimitedPrefetch (freshKru decay loadsBits) timeNow hash price with hctx
  obtain ⟨kru', rand', hu⟩ : ∃ kru' rand', updateLines (freshKru decay loadsBits) ctx rand =
      (kru', rand') := ⟨_, _, rfl⟩
  have hline := fun li => @updateLines_freshKru ctx rand decay loadsBits li
  rw [hu] at hline
  dsimp only at hline
  have hp16 : kruPrice16 ctx.price rand =
      ((price >>> 16).toUInt16, (65536 : UInt32) - (price >>> 16).toUInt16.toUInt32, rand) :=
    kruPrice16_of_mod hmod rand
  have hu' : updateLines (freshKru decay loadsBits) ctx (kruPrice16 ctx.price rand).2.2 =
      (kru', rand') := by
    rw [hp16]
    exact hu
  -- an unloaded slot is below the limit of any price
  have hlimit : ¬ (65536 : UInt32) - (price >>> 16).toUInt16.toUInt32 ≤ (0 : UInt16).toUInt32 := by
    have := price.toNat_lt
    rw [UInt32.le_iff_toNat_le, toNat_limit16]
    simp
    omega
  have hzero : ∀ li i, (kru'.line ctx li).loads i = 0 := fun li i => congrFun (hline li).2.2 i
  have hbits : kru'.loadsBits = loadsBits := by
    have h := congrArg (fun u => u.1.loadsBits) hu
    rw [loadsBits_updateLines] at h
    exact h.symm
  rw [kruLimited_eq]
  by_cases hid : ctx.id = 0
  · -- the key's id is zero and matches the first slot
    have hfetch := kruLimitedFetch_of_first (s := ⟨freshKru decay loadsBits, rand⟩) hu'
      (by rw [(hline 0).2.1, hid])
    simp only [hp16] at hfetch
    rw [hfetch, hzero, decide_eq_false hlimit, if_neg Bool.false_ne_true,
      kruLimitedUpdate_of_some_of_lt (x := (0, 0)) (v := 0)]
    · refine ⟨⟨kru'.modifyLine ctx 0 (·.setLoad 0 ((0 : UInt16) + (price >>> 16).toUInt16)), rand'⟩,
        rfl, hbits, ?_⟩
      dsimp only
      refine charged_modifyLine (fun li => (hline li).1) rfl ?_ ?_
      · simp [(hline 0).2.1, hid]
      · simp
    · rfl
    · exact hzero 0 0
    · exact hlimit
  · -- no slot holds the key, which takes over the first one
    have hfetch := kruLimitedFetch_of_absent (s := ⟨freshKru decay loadsBits, rand⟩) hu'
      (fun li i => by rw [(hline li).2.1]; exact Ne.symm hid)
    simp only [hp16] at hfetch
    rw [hfetch, if_neg Bool.false_ne_true,
      kruLimitedUpdate_of_none_of_lt (x := (0, 0)) (v := 0)]
    · refine ⟨⟨(kru'.modifyLine ctx 0 (·.setId 0 ctx.id)).modifyLine ctx 0
        (·.setLoad 0 ((0 : UInt16) + (price >>> 16).toUInt16)), rand'⟩, rfl, hbits, ?_⟩
      dsimp only
      rw [Kru.modifyLine_modifyLine]
      refine charged_modifyLine (fun li => (hline li).1) rfl ?_ ?_
      · simp
      · simp
    · rfl
    · exact minSlot_of_loads_eq fun li i => (hzero li i).trans (hzero 0 0).symm
    · exact hzero 0 0
    · exact hlimit

/-- A passed call in front of the answers of the calls after it. -/
theorem false_cons_answers (m r : ℕ) :
    false :: (List.replicate (min m r) false ++ List.replicate (m - r) true) =
      List.replicate (min (m + 1) (r + 1)) false ++ List.replicate (m + 1 - (r + 1)) true := by
  rw [Nat.add_sub_add_right, Nat.succ_min_succ, List.replicate_succ, List.cons_append]

/-- The answers of a run of calls for a charged key: with the prices of `j` calls charged and
room for `n`, the next `n - j` calls pass and every later one is blocked. -/
theorem kruLimitedRun_charged {n : ℕ} (hmod : price.toNat % 65536 = 0)
    (hn : n * (price.toNat / 65536) ≤ 65535 ∧ 65535 < (n + 1) * (price.toNat / 65536)) (m : ℕ) :
    ∀ (j : ℕ) (s : KruState) (load : UInt16),
      Charged s.kru (kruLimitedPrefetch s.kru timeNow hash price) load →
      load.toNat = j * (price.toNat / 65536) → j ≤ n →
      (kruLimitedRun s timeNow hash price m).1 =
        List.replicate (min m (n - j)) false ++ List.replicate (m - (n - j)) true := by
  -- induction over the run, the key's charge carried by Charged
  induction m with
  | zero =>
    intro j s load _ _ _
    simp [kruLimitedRun]
  | succ m ih =>
    intro j s load hc hload hj
    obtain ⟨s', hcall, hbits, hc'⟩ := hc.kruLimited hmod
    rw [← kruLimitedPrefetch_of_loadsBits hbits] at hc'
    simp only [kruLimitedRun, hcall]
    obtain ⟨k, hk⟩ : ∃ k, price.toNat / 65536 = k := ⟨_, rfl⟩
    rw [hk] at hn hload
    have hjk := Nat.add_one_mul j k
    have hnk := Nat.add_one_mul n k
    -- the call is blocked exactly when the room is used up
    have hlimit : (65536 : UInt32) - (price >>> 16).toUInt16.toUInt32 ≤ load.toUInt32 ↔ n ≤ j := by
      rw [UInt32.le_iff_toNat_le, toNat_limit16, UInt16.toNat_toUInt32, hload, hk]
      constructor
      · intro h
        by_contra hjn
        have := Nat.mul_le_mul_right k (show j + 1 ≤ n by omega)
        omega
      · intro h
        have := Nat.mul_le_mul_right k (show n + 1 ≤ j + 1 by omega)
        omega
    by_cases hjn : n ≤ j
    · -- blocked: the charge stays, and so do the answers
      have hjn' : j = n := le_antisymm hj hjn
      subst hjn'
      rw [decide_eq_true (hlimit.mpr hjn), if_pos rfl] at hc'
      rw [decide_eq_true (hlimit.mpr hjn), ih j s' load hc' (by rw [hk]; exact hload) hj]
      simp [List.replicate_succ]
    · -- passes: the price is added to the charge
      have hpass := decide_eq_false (mt hlimit.mp hjn)
      rw [hpass, if_neg Bool.false_ne_true] at hc'
      have hroom := Nat.mul_le_mul_right k (show j + 1 ≤ n by omega)
      have hload' : (load + (price >>> 16).toUInt16).toNat = (j + 1) * (price.toNat / 65536) := by
        rw [UInt16.toNat_add, hload, toNat_price16, hk]
        omega
      rw [hpass, ih (j + 1) s' _ hc' hload' (by omega), false_cons_answers,
        show n - (j + 1) + 1 = n - j by omega]

end SingleKey

/-- For one key on a fresh table at one time, with a price that is a multiple of 2^16, exactly
the first `n` calls pass, for the largest `n` whose prices sum up to at most `KRU_LIMIT`, and
every later call is limited. (A largest `n` exists only for a positive price.) -/
theorem kruLimitedRun_fresh (decay : DecayConfig) (loadsBits : UInt32) (rand : UInt64)
    (timeNow : UInt32) (hash : UInt64) (price : UInt32) (hmul : price.toNat % 2 ^ 16 = 0) (n : ℕ) (hn : IsGreatest {n | n * price.toNat ≤ kruLimit} n)
    (m : ℕ) :
    (kruLimitedRun ⟨freshKru decay loadsBits, rand⟩ timeNow hash price m).1 =
      List.replicate (min m n) false ++ List.replicate (m - n) true := by
  have hmod : price.toNat % 65536 = 0 := hmul
  have hlt := price.toNat_lt
  have hprice : price.toNat = price.toNat / 65536 * 65536 := by omega
  have hkru : kruLimit = 65535 * 65536 := rfl
  -- the largest n is the one with n * k ≤ 65535 < (n + 1) * k, for the 16-bit price k
  have hle : n * (price.toNat / 65536) ≤ 65535 := by
    have h : n * price.toNat ≤ kruLimit := hn.1
    rw [hprice, hkru, ← Nat.mul_assoc] at h
    exact Nat.le_of_mul_le_mul_right h (by decide)
  have hgt : 65535 < (n + 1) * (price.toNat / 65536) := by
    by_contra hcon
    have hmem : n + 1 ∈ {n | n * price.toNat ≤ kruLimit} := by
      show (n + 1) * price.toNat ≤ kruLimit
      rw [hprice, hkru, ← Nat.mul_assoc]
      exact Nat.mul_le_mul_right 65536 (by omega)
    exact absurd (hn.2 hmem) (by omega)
  have hn1 : 1 ≤ n := by
    rcases Nat.eq_zero_or_pos n with rfl | h
    · simp at hgt
      omega
    · exact h
  cases m with
  | zero => simp [kruLimitedRun]
  | succ m =>
    obtain ⟨s', hcall, hbits, hc⟩ := @kruLimited_freshKru timeNow hash price decay loadsBits rand hmod
    rw [← kruLimitedPrefetch_of_loadsBits (show s'.kru.loadsBits = (freshKru decay loadsBits).loadsBits
      from hbits)] at hc
    simp only [kruLimitedRun, hcall]
    rw [kruLimitedRun_charged hmod ⟨hle, hgt⟩ m 1 s' _ hc (by rw [toNat_price16, Nat.one_mul]) hn1,
      false_cons_answers, Nat.sub_add_cancel hn1]

theorem kruLimitedRun_fresh_three :
    (kruLimitedRun ⟨freshKru ⟨0, fun _ => 0, fun _ => 0⟩ 1, 0⟩ 0 0 1431633920 5).1 =
      [false, false, false, true, true] :=
  kruLimitedRun_fresh ⟨0, fun _ => 0, fun _ => 0⟩ 1 0 0 0 1431633920 (by decide) 3
    ⟨(by decide : 3 * 1431633920 ≤ kruLimit), fun x (hx : x * 1431633920 ≤ kruLimit) => by
      rw [show kruLimit = 4294901760 from rfl] at hx
      omega⟩ 5


end KnotResolver
