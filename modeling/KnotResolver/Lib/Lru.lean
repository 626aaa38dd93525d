import Mathlib
import KnotResolver.Lib.Simulation

/-!
# The lossy cache: `lib/generic/lru.c`

An LRU is split into `2 ^ log_groups` groups by the low bits of a key's hash. A group stores
`LRU_ASSOC` items, each a key and a value, and keeps a 16-bit counter and the top half of the
hash for `LRU_TRACKED` slots: the stored items' and some more keys', tracked without being
stored. A lookup compares the top half of the hash and then the whole key. `lru_get_new`
inserts into an empty or counted-out slot, or evicts a stored key whose count a tracked key
exceeds; otherwise it refuses. The hash (`hash` of `contrib/murmurhash3`) is a parameter: the
results hold for every hash function. `LRU_ASSOC` is 3 and `LRU_TRACKED` 9, as on a 64-bit host.
-/

namespace KnotResolver

/-- `LRU_ASSOC` where `size_t` has 64 bits. -/
def lruAssoc : ℕ := 3

/-- `LRU_TRACKED`: the counters and hashes of a group fill a cache line with its item pointers. -/
def lruTracked : ℕ := (64 - 8 * lruAssoc) / 4 - 1

/-- `struct lru_item`: the key and the value, of `val_len` octets. -/
structure LruItem where
  key : List UInt8
  valLen : ℕ
  val : List UInt8

/-- `struct lru_group`: `counts` and `hashes` are read at indices up to `LRU_TRACKED`, `items`
below `LRU_ASSOC`. -/
structure LruGroup where
  counts : ℕ → UInt16
  hashes : ℕ → UInt16
  items : ℕ → Option LruItem

/-- `struct lru`. -/
structure Lru where
  logGroups : ℕ
  valAlignment : ℕ
  groups : ℕ → LruGroup

/-- A group as `lru_create` leaves it: zero counters and hashes, no items. -/
def LruGroup.zero : LruGroup := ⟨fun _ => 0, fun _ => 0, fun _ => none⟩

/-- The loop of `lru_create_impl` that counts the halvings of `s` down to zero. -/
def lruLogGroups (s : ℕ) : ℕ :=
  if s = 0 then 0 else lruLogGroups (s / 2) + 1
termination_by s
decreasing_by omega

/-- `lru_create_impl`: `log_groups` is the least with `2 ^ log_groups * LRU_ASSOC` slots at least
`max_slots`, and the groups start empty; `val_alignment` must be a power of two. Its arguments
and `group_count` are `uint`s, so the products of its size assertion wrap modulo `2 ^ 32`.
`mmArrayOk` says whether `mm_array` (or the default one for `NULL`) passes its assertion, an
allocator other than `mp_alloc`; `allocOk` whether `mm_alloc` of the table succeeds. -/
def lruCreate (maxSlots valAlignment : UInt32) (mmArrayOk allocOk : Bool) : Option Lru :=
  if maxSlots = 0 ∨ valAlignment = 0 ∨ valAlignment &&& (valAlignment - 1) ≠ 0 then none
  else
    let logGroups := lruLogGroups ((maxSlots.toNat - 1) / lruAssoc + 1 - 1)
    let groupCount := 2 ^ logGroups % 2 ^ 32
    if ¬ (maxSlots.toNat ≤ groupCount * lruAssoc % 2 ^ 32 ∧
        groupCount * lruAssoc % 2 ^ 32 < 2 * maxSlots.toNat % 2 ^ 32) then none
    else if !mmArrayOk || !allocOk then none
    else some ⟨logGroups, valAlignment.toNat, fun _ => LruGroup.zero⟩

/-- `lru_capacity_impl` -/
def lruCapacity (lru : Lru) : ℕ := 2 ^ lru.logGroups * lruAssoc

/-- The group of a hash: its low `log_groups` bits. -/
def lruGroupOf (lru : Lru) (khash : UInt32) : ℕ := khash.toNat % 2 ^ lru.logGroups

/-- `khash_top`: the top half of the hash. -/
def hashTop (khash : UInt32) : UInt16 := (khash >>> 16).toUInt16

/-- `item_size`: the two lengths, the key, the worst padding before the value and the value. -/
def lruItemSize (lru : Lru) (keyLen valLen : ℕ) : ℕ := 4 + keyLen + (lru.valAlignment - 1) + valLen

/-! ## One group -/

/-- `group_dec_counts`: the special counter restarts at `LRU_TRACKED`, and every counter that is
not zero goes down by one. -/
def groupDecCounts (g : LruGroup) : LruGroup :=
  let c := Function.update g.counts lruTracked lruTracked.toUInt16
  { g with counts := fun i => if i ≤ lruTracked ∧ c i ≠ 0 then c i - 1 else c i }

/-- `group_inc_count`: a counter that would wrap stays at its maximum. -/
def groupIncCount (g : LruGroup) (i : ℕ) : LruGroup :=
  { g with
    counts := Function.update g.counts i (if g.counts i + 1 = 0 then 65535 else g.counts i + 1) }

/-- The `found` label: the counter of slot `i` goes up; the slot and whether it is new are
returned. -/
def lruGroupFound (g : LruGroup) (i : ℕ) (isNew : Bool) : LruGroup × Option (ℕ × Bool) :=
  (groupIncCount g i, some (i, isNew))

/-- The `insert` label: slot `i` takes the key's hash and the key with a zeroed value of
`valLen` octets. The item is reallocated unless one of the same size is there; a failed
allocation leaves the slot empty and returns `NULL`. -/
def lruGroupInsert (lru : Lru) (g : LruGroup) (i : ℕ) (top : UInt16) (key : List UInt8)
    (valLen : ℕ) (allocOk : Bool) : LruGroup × Option (ℕ × Bool) :=
  let g := { g with hashes := Function.update g.hashes i top }
  let realloc := match g.items i with
    | none => true
    | some it => lruItemSize lru key.length valLen != lruItemSize lru it.key.length it.valLen
  if realloc && !allocOk then ({ g with items := Function.update g.items i none }, none)
  else
    let fresh : LruItem := ⟨key, valLen, List.replicate valLen 0⟩
    let g := { g with items := Function.update g.items i (some fresh) }
    lruGroupFound g i true

/-- `swap` of two counters and two hashes, the tracked slot `i`'s counter one lower first. -/
def lruGroupTrump (g : LruGroup) (i j : ℕ) : LruGroup :=
  let ci := g.counts i - 1
  { g with
    counts := Function.update (Function.update g.counts i (g.counts j)) j ci
    hashes := Function.update (Function.update g.hashes i (g.hashes j)) j (g.hashes i) }

/-- The search of `lru_get_impl` within the group of the key, from the scan of the stored items
to the insertion, the refusal or the decay of the counters. -/
def lruGroupGet (lru : Lru) (g : LruGroup) (top : UInt16) (key : List UInt8) (valLen : ℕ)
    (doInsert allocOk : Bool) : LruGroup × Option (ℕ × Bool) :=
  -- the stored items: the hash first, then the whole key
  match (List.range lruAssoc).find? fun i =>
      g.hashes i == top && (g.items i).any fun it => it.key == key with
  | some i =>
    if doInsert && (g.items i).any fun it => valLen > it.valLen then
      -- a larger value than the item holds: insert again in place
      lruGroupInsert lru g i top key valLen allocOk
    else lruGroupFound g i false
  | none =>
    -- an empty or counted-out slot
    match (if doInsert then
        (List.range lruAssoc).find? fun i => (g.items i).isNone || g.counts i == 0
      else none) with
    | some i => lruGroupInsert lru g i top key valLen allocOk
    | none =>
      -- a tracked hash: count it, and let it evict a stored key of a lower count
      match (List.range' lruAssoc (lruTracked - lruAssoc)).find? fun i => g.hashes i == top with
      | some i =>
        let g := groupIncCount g i
        if !doInsert then (g, none)
        else match (List.range lruAssoc).find? fun j => g.counts i > g.counts j with
          | some j => lruGroupInsert lru (lruGroupTrump g i j) j top key valLen allocOk
          | none => (g, none)
      | none =>
        -- not tracked: the counters decay on every `LRU_TRACKED`-th such miss
        if g.counts lruTracked ≠ 0 then
          ({ g with counts := Function.update g.counts lruTracked (g.counts lruTracked - 1) }, none)
        else (groupDecCounts g, none)

/-- `lru_get_impl` for `key` under `hash`: the group the key hashes to and the slot returned
(`NULL` is none), with whether it is new. `allocOk` says whether `mm_alloc` of a new item
succeeds. -/
def lruGetImpl (hash : List UInt8 → UInt32) (lru : Lru) (key : List UInt8) (valLen : ℕ)
    (doInsert allocOk : Bool) : Lru × Option (ℕ × ℕ × Bool) :=
  if ¬ (key.length ≤ 65535 ∧ (!doInsert || valLen ≤ 65535)) then (lru, none)
  else
    let khash := hash key
    let gi := lruGroupOf lru khash
    let (g, r) := lruGroupGet lru (lru.groups gi) (hashTop khash) key valLen doInsert allocOk
    ({ lru with groups := Function.update lru.groups gi g }, r.map fun p => (gi, p.1, p.2))

/-- `enum lru_apply_do`: what the callback of `lru_apply` asks for an item. -/
inductive LruApplyDo
  | doNothing
  | doEvict
  deriving DecidableEq

/-- Slot `j` of group `gi` as `LRU_APPLY_DO_EVICT` leaves it: the item freed, its counter and
hash cleared. -/
def lruClearSlot (lru : Lru) (gi j : ℕ) : Lru :=
  let g := lru.groups gi
  let g' : LruGroup :=
    ⟨Function.update g.counts j 0, Function.update g.hashes j 0, Function.update g.items j none⟩
  { lru with groups := Function.update lru.groups gi g' }

/-- The body of the inner loop of `lru_apply_impl` at slot `j` of group `gi`: the callback `f`
gets the key and value of the item there, if any, with the baton, and answers. -/
def lruApplySlot {σ : Type*} (f : σ → List UInt8 → List UInt8 → LruApplyDo × σ) (gi j : ℕ)
    (p : Lru × σ) : Lru × σ :=
  match (p.1.groups gi).items j with
  | none => p
  | some it =>
    match f p.2 it.key it.val with
    | (.doEvict, baton) => (lruClearSlot p.1 gi j, baton)
    | (.doNothing, baton) => (p.1, baton)

/-- `lru_apply_impl`: the slots below `LRU_ASSOC` of every group, in order, with the baton
threaded through the callback. -/
def lruApplyImpl {σ : Type*} (lru : Lru) (f : σ → List UInt8 → List UInt8 → LruApplyDo × σ)
    (baton : σ) : Lru × σ :=
  (List.range (2 ^ lru.logGroups)).foldl
    (fun p gi => (List.range lruAssoc).foldl (fun p j => lruApplySlot f gi j p) p) (lru, baton)

/-- A callback that decides by key and value and folds each item it sees into its baton, as
`dump_value` of the `stats` module appends each one to its JSON array. -/
def lruApplyDecide {σ : Type*} (evict : List UInt8 → List UInt8 → Bool)
    (step : σ → List UInt8 → List UInt8 → σ) (baton : σ) (key val : List UInt8) :
    LruApplyDo × σ :=
  (if evict key val then .doEvict else .doNothing, step baton key val)

/-- What `lru_apply_impl` computes with a callback that decides by key and value
(`lruApplyImpl_decide`): every item it asks for is evicted, its counter and hash cleared. -/
def lruApply (lru : Lru) (evict : List UInt8 → List UInt8 → Bool) : Lru :=
  { lru with groups := fun gi =>
      let g := lru.groups gi
      if gi < 2 ^ lru.logGroups then
        let ev := fun j => j < lruAssoc && (g.items j).any fun it => evict it.key it.val
        ⟨fun j => if ev j then 0 else g.counts j, fun j => if ev j then 0 else g.hashes j,
          fun j => if ev j then none else g.items j⟩
      else g }

/-! ## Runs -/

/-- What a caller does with the cache. -/
inductive LruOp where
  /-- `lru_get_try` -/
  | getTry (key : List UInt8)
  /-- `lru_get_new` for values of `valLen` octets -/
  | getNew (key : List UInt8) (valLen : ℕ) (allocOk : Bool)
  /-- `lru_get_new` for values of the length of `val`, then `val` copied to the value -/
  | set (key : List UInt8) (val : List UInt8) (allocOk : Bool)
  /-- `lru_apply` with a callback that evicts what `evict` picks -/
  | apply (evict : List UInt8 → List UInt8 → Bool)

/-- The value of the item a slot returned by `lru_get_impl` points at, and whether it is new. -/
def lruSlotVal (lru : Lru) : Option (ℕ × ℕ × Bool) → Option (List UInt8 × Bool)
  | none => none
  | some (gi, i, isNew) => ((lru.groups gi).items i).map fun it => (it.val, isNew)

/-- `memcpy` of `v` to the value of an item. -/
def LruItem.writeVal (it : LruItem) (v : List UInt8) : LruItem :=
  { it with val := v ++ it.val.drop v.length }

/-- `memcpy` of `v` to the value of the item in slot `i` of group `gi`. -/
def lruWriteVal (lru : Lru) (gi i : ℕ) (v : List UInt8) : Lru :=
  let g := lru.groups gi
  let items := Function.update g.items i ((g.items i).map fun it => it.writeVal v)
  { lru with groups := Function.update lru.groups gi { g with items := items } }

/-- One operation: the cache after it, and what the caller sees through the pointer it gets. -/
def lruStep (hash : List UInt8 → UInt32) (lru : Lru) : LruOp → Lru × Option (List UInt8 × Bool)
  | .getTry key =>
    -- `lru_get_try` passes `(uint)-1` as the length of the value, unused when not inserting
    let (lru, r) := lruGetImpl hash lru key 4294967295 false true
    (lru, lruSlotVal lru r)
  | .getNew key valLen allocOk =>
    let (lru, r) := lruGetImpl hash lru key valLen true allocOk
    (lru, lruSlotVal lru r)
  | .set key val allocOk =>
    let (lru, r) := lruGetImpl hash lru key val.length true allocOk
    match r with
    | none => (lru, none)
    | some (gi, i, isNew) =>
      let lru := lruWriteVal lru gi i val
      (lru, lruSlotVal lru (some (gi, i, isNew)))
  | .apply evict => ((lruApplyImpl lru (lruApplyDecide evict fun b _ _ => b) ()).1, none)

/-! ## What the group operations touch -/

section GroupOps

@[simp] theorem groupIncCount_items (g : LruGroup) (i : ℕ) :
    (groupIncCount g i).items = g.items := rfl

@[simp] theorem groupIncCount_hashes (g : LruGroup) (i : ℕ) :
    (groupIncCount g i).hashes = g.hashes := rfl

@[simp] theorem groupDecCounts_items (g : LruGroup) : (groupDecCounts g).items = g.items := rfl

@[simp] theorem groupDecCounts_hashes (g : LruGroup) : (groupDecCounts g).hashes = g.hashes := rfl

@[simp] theorem lruGroupTrump_items (g : LruGroup) (i j : ℕ) :
    (lruGroupTrump g i j).items = g.items := rfl

/-- The swap with a tracked slot changes no stored slot's hash but the evicted one's. -/
theorem lruGroupTrump_hashes_of_ne {g : LruGroup} {i j k : ℕ} (hi : lruAssoc ≤ i)
    (hk : k < lruAssoc) (hkj : k ≠ j) : (lruGroupTrump g i j).hashes k = g.hashes k := by
  simp [lruGroupTrump, Function.update_of_ne hkj, Function.update_of_ne (show k ≠ i by omega)]

theorem lruGroupFound_fst (g : LruGroup) (i : ℕ) (isNew : Bool) :
    (lruGroupFound g i isNew).1.items = g.items ∧ (lruGroupFound g i isNew).1.hashes = g.hashes :=
  ⟨rfl, rfl⟩

/-- `insert`: the slot takes the key's hash, and the key with a zeroed value, or nothing when
the allocation fails. -/
theorem lruGroupInsert_spec (lru : Lru) (g : LruGroup) (i : ℕ) (top : UInt16) (key : List UInt8)
    (valLen : ℕ) (allocOk : Bool) :
    (lruGroupInsert lru g i top key valLen allocOk).1.hashes = Function.update g.hashes i top ∧
      (((lruGroupInsert lru g i top key valLen allocOk).1.items =
          Function.update g.items i (some ⟨key, valLen, List.replicate valLen 0⟩) ∧
        (lruGroupInsert lru g i top key valLen allocOk).2 = some (i, true)) ∨
      ((lruGroupInsert lru g i top key valLen allocOk).1.items = Function.update g.items i none ∧
        (lruGroupInsert lru g i top key valLen allocOk).2 = none)) := by
  dsimp only [lruGroupInsert]
  split_ifs
  · exact ⟨rfl, .inr ⟨rfl, rfl⟩⟩
  · exact ⟨rfl, .inl ⟨rfl, rfl⟩⟩

end GroupOps

/-! ## What a search in a group can do -/

section GroupGet

/-- Slot `i` of a group holds the key, under its hash. -/
def LruSlotHolds (g : LruGroup) (top : UInt16) (key : List UInt8) (i : ℕ) : Prop :=
  g.hashes i = top ∧ ∃ it, g.items i = some it ∧ it.key = key

/-- A search that keeps the items: it returns no slot, or a slot that holds the key, with room
for the value when inserting; the stored slots keep their hashes. -/
def LruGroupKept (g : LruGroup) (top : UInt16) (key : List UInt8) (valLen : ℕ) (doInsert : Bool)
    (r : LruGroup × Option (ℕ × Bool)) : Prop :=
  r.1.items = g.items ∧ (∀ j < lruAssoc, r.1.hashes j = g.hashes j) ∧
    (r.2 = none ∨ ∃ i < lruAssoc, ∃ it, g.items i = some it ∧ it.key = key ∧ g.hashes i = top ∧
      (doInsert = true → valLen ≤ it.valLen) ∧ r.2 = some (i, false))

/-- A search that inserts into slot `i`, which held the key or where no slot held it: the slot
takes the key's hash, the other stored slots keep theirs, and the slot holds the key with a
zeroed value, or nothing when the allocation fails. -/
def LruGroupInserted (g : LruGroup) (top : UInt16) (key : List UInt8) (valLen : ℕ)
    (r : LruGroup × Option (ℕ × Bool)) : Prop :=
  ∃ i < lruAssoc, (LruSlotHolds g top key i ∨ ∀ j < lruAssoc, ¬ LruSlotHolds g top key j) ∧
    (∀ j < lruAssoc, j ≠ i → r.1.hashes j = g.hashes j) ∧ r.1.hashes i = top ∧
    ((r.1.items = Function.update g.items i (some ⟨key, valLen, List.replicate valLen 0⟩) ∧
        r.2 = some (i, true)) ∨
      (r.1.items = Function.update g.items i none ∧ r.2 = none))

theorem lruGroupInserted_insert {lru : Lru} {g g' : LruGroup} {i : ℕ} {top : UInt16}
    {key : List UInt8} {valLen : ℕ} (allocOk : Bool) (hi : i < lruAssoc)
    (hold : LruSlotHolds g top key i ∨ ∀ j < lruAssoc, ¬ LruSlotHolds g top key j)
    (hitems : g'.items = g.items) (hhash : ∀ j < lruAssoc, j ≠ i → g'.hashes j = g.hashes j) :
    LruGroupInserted g top key valLen (lruGroupInsert lru g' i top key valLen allocOk) := by
  obtain ⟨hh, hr⟩ := lruGroupInsert_spec lru g' i top key valLen allocOk
  refine ⟨i, hi, hold, fun j hj hji => ?_, by rw [hh, Function.update_self], ?_⟩
  · rw [hh, Function.update_of_ne hji, hhash j hj hji]
  · rwa [hitems] at hr

theorem lruSlotHolds_of_find {g : LruGroup} {top : UInt16} {key : List UInt8} {i : ℕ}
    (h : (g.hashes i == top && (g.items i).any fun it => it.key == key) = true) :
    LruSlotHolds g top key i := by
  simp only [Bool.and_eq_true, beq_iff_eq, Option.any_eq_true] at h
  obtain ⟨hh, it, hit, hkey⟩ := h
  exact ⟨hh, it, hit, by simpa using hkey⟩

/-- Every way `lru_get_impl` can leave the group of the key. -/
theorem lruGroupGet_cases (lru : Lru) (g : LruGroup) (top : UInt16) (key : List UInt8)
    (valLen : ℕ) (doInsert allocOk : Bool) :
    LruGroupKept g top key valLen doInsert (lruGroupGet lru g top key valLen doInsert allocOk) ∨
      LruGroupInserted g top key valLen (lruGroupGet lru g top key valLen doInsert allocOk) := by
  unfold lruGroupGet
  split
  · -- a stored slot holds the key: found, or inserted again in place for a larger value
    rename_i i hfind
    have hi : i < lruAssoc := List.mem_range.mp (List.mem_of_find?_eq_some hfind)
    have hold : LruSlotHolds g top key i := by
      have hp := List.find?_some hfind
      exact lruSlotHolds_of_find hp
    split_ifs with hbig
    · exact .inr (lruGroupInserted_insert allocOk hi (.inl hold) rfl fun _ _ _ => rfl)
    · obtain ⟨hh, it, hit, hkey⟩ := hold
      refine .inl ⟨rfl, fun _ _ => rfl, .inr ⟨i, hi, it, hit, hkey, hh, fun hins => ?_, rfl⟩⟩
      simp only [hins, Bool.true_and, hit, Option.any_some, decide_eq_true_eq] at hbig
      omega
  · rename_i hnone
    have hno : ∀ j < lruAssoc, ¬ LruSlotHolds g top key j := by
      intro j hj ⟨hh, it, hit, hkey⟩
      refine List.find?_eq_none.mp hnone j (List.mem_range.mpr hj) ?_
      simp [hh, hit, hkey]
    split
    · -- an empty or counted-out slot
      rename_i i hfind
      have hi : i < lruAssoc := by
        split at hfind
        · exact List.mem_range.mp (List.mem_of_find?_eq_some hfind)
        · cases hfind
      exact .inr (lruGroupInserted_insert allocOk hi (.inr hno) rfl fun _ _ _ => rfl)
    · split
      · -- a tracked hash
        rename_i i hfind
        have hi : lruAssoc ≤ i := (List.mem_range'_1.mp (List.mem_of_find?_eq_some hfind)).1
        dsimp only
        split_ifs
        · exact .inl ⟨rfl, fun _ _ => rfl, .inl rfl⟩
        · split
          · -- it evicts the stored slot `j`
            rename_i j hfindj
            have hj : j < lruAssoc := List.mem_range.mp (List.mem_of_find?_eq_some hfindj)
            exact .inr (lruGroupInserted_insert allocOk hj (.inr hno) rfl
              fun k hk hkj => lruGroupTrump_hashes_of_ne hi hk hkj)
          · exact .inl ⟨rfl, fun _ _ => rfl, .inl rfl⟩
      · -- not tracked: the counters decay
        split_ifs
        · exact .inl ⟨rfl, fun _ _ => rfl, .inl rfl⟩
        · exact .inl ⟨rfl, fun _ _ => rfl, .inl rfl⟩

end GroupGet

/-! ## The invariant of a group -/

section GroupInv

variable {hash : List UInt8 → UInt32} {logGroups gi : ℕ}

/-- What `lru.c` keeps true of the group `gi`: a stored item sits in the group of its key's hash
under the top half of that hash, no two stored items have one key, the lengths fit their
`uint16_t` fields and the value has its length, and nothing is stored past `LRU_ASSOC`. -/
structure LruGroupInv (hash : List UInt8 → UInt32) (logGroups gi : ℕ) (g : LruGroup) : Prop where
  hashed : ∀ i it, i < lruAssoc → g.items i = some it →
    (hash it.key).toNat % 2 ^ logGroups = gi ∧ g.hashes i = hashTop (hash it.key)
  unique : ∀ i j a b, i < lruAssoc → j < lruAssoc → g.items i = some a → g.items j = some b →
    a.key = b.key → i = j
  sized : ∀ i it, g.items i = some it →
    it.val.length = it.valLen ∧ it.key.length ≤ 65535 ∧ it.valLen ≤ 65535
  outside : ∀ i, lruAssoc ≤ i → g.items i = none

theorem LruGroupInv.zero (hash : List UInt8 → UInt32) (logGroups gi : ℕ) :
    LruGroupInv hash logGroups gi LruGroup.zero where
  hashed _ _ _ h := by cases h
  unique _ _ _ _ _ _ h := by cases h
  sized _ _ h := by cases h
  outside _ _ := rfl

/-- A slot that holds a key in a group of the invariant: it is the only slot with that key. -/
theorem LruGroupInv.not_holds {g : LruGroup} (hinv : LruGroupInv hash logGroups gi g)
    {key : List UInt8} {i j : ℕ} (hi : i < lruAssoc) (hj : j < lruAssoc) (hji : j ≠ i)
    (hold : ∃ it, g.items i = some it ∧ it.key = key) :
    ∀ it, g.items j = some it → it.key ≠ key := by
  obtain ⟨a, ha, hak⟩ := hold
  intro b hb hbk
  exact hji (hinv.unique j i b a hj hi hb ha (hbk.trans hak.symm))

/-- Where no slot holds the key under its hash, no slot holds the key at all. -/
theorem LruGroupInv.not_key {g : LruGroup} (hinv : LruGroupInv hash logGroups gi g)
    {key : List UInt8} (hno : ∀ j < lruAssoc, ¬ LruSlotHolds g (hashTop (hash key)) key j) :
    ∀ j < lruAssoc, ∀ it, g.items j = some it → it.key ≠ key := by
  intro j hj it hit hkey
  refine hno j hj ⟨?_, it, hit, hkey⟩
  rw [(hinv.hashed j it hj hit).2, hkey]

/-- Slot `i` takes an item of the key and its hash; the other stored slots stay: the invariant
holds when no other slot has the key. -/
theorem LruGroupInv.update {g g' : LruGroup} (hinv : LruGroupInv hash logGroups gi g) {i : ℕ}
    (hi : i < lruAssoc) {new : Option LruItem}
    (hitems : g'.items = Function.update g.items i new)
    (hhash : ∀ j < lruAssoc, j ≠ i → g'.hashes j = g.hashes j)
    (hnew : ∀ it, new = some it → (hash it.key).toNat % 2 ^ logGroups = gi ∧
      g'.hashes i = hashTop (hash it.key) ∧
      (it.val.length = it.valLen ∧ it.key.length ≤ 65535 ∧ it.valLen ≤ 65535) ∧
      ∀ j < lruAssoc, j ≠ i → ∀ b, g.items j = some b → b.key ≠ it.key) :
    LruGroupInv hash logGroups gi g' := by
  constructor
  · intro j it hj hit
    by_cases hji : j = i
    · subst hji
      rw [hitems, Function.update_self] at hit
      obtain ⟨hg, hh, -⟩ := hnew it hit
      exact ⟨hg, hh⟩
    · rw [hitems, Function.update_of_ne hji] at hit
      rw [hhash j hj hji]
      exact hinv.hashed j it hj hit
  · intro j k a b hj hk ha hb hab
    rw [hitems] at ha hb
    by_cases hji : j = i <;> by_cases hki : k = i
    · rw [hji, hki]
    · -- the new item against another stored item
      rw [hji, Function.update_self] at ha
      rw [Function.update_of_ne hki] at hb
      exact absurd hab.symm ((hnew a ha).2.2.2 k hk hki b hb)
    · rw [Function.update_of_ne hji] at ha
      rw [hki, Function.update_self] at hb
      exact absurd hab ((hnew b hb).2.2.2 j hj hji a ha)
    · rw [Function.update_of_ne hji] at ha
      rw [Function.update_of_ne hki] at hb
      exact hinv.unique j k a b hj hk ha hb hab
  · intro j it hit
    rw [hitems] at hit
    by_cases hji : j = i
    · rw [hji, Function.update_self] at hit
      exact (hnew it hit).2.2.1
    · rw [Function.update_of_ne hji] at hit
      exact hinv.sized j it hit
  · intro j hj
    rw [hitems, Function.update_of_ne (show j ≠ i by omega)]
    exact hinv.outside j hj

end GroupInv

/-! ## A search keeps the invariant -/

section GroupGetInv

variable {hash : List UInt8 → UInt32} {logGroups gi : ℕ}

theorem LruGroupInv.kept {g : LruGroup} (hinv : LruGroupInv hash logGroups gi g) {top : UInt16}
    {key : List UInt8} {valLen : ℕ} {doInsert : Bool} {r : LruGroup × Option (ℕ × Bool)}
    (h : LruGroupKept g top key valLen doInsert r) : LruGroupInv hash logGroups gi r.1 := by
  obtain ⟨hitems, hhash, -⟩ := h
  constructor
  · intro i it hi hit
    rw [hitems] at hit
    rw [hhash i hi]
    exact hinv.hashed i it hi hit
  · intro i j a b hi hj ha hb
    rw [hitems] at ha hb
    exact hinv.unique i j a b hi hj ha hb
  · intro i it hit
    rw [hitems] at hit
    exact hinv.sized i it hit
  · intro i hi
    rw [hitems]
    exact hinv.outside i hi

theorem LruGroupInv.inserted {g : LruGroup} (hinv : LruGroupInv hash logGroups gi g)
    {key : List UInt8} (hgi : (hash key).toNat % 2 ^ logGroups = gi) (hkey : key.length ≤ 65535)
    {valLen : ℕ} (hval : valLen ≤ 65535) {r : LruGroup × Option (ℕ × Bool)}
    (h : LruGroupInserted g (hashTop (hash key)) key valLen r) :
    LruGroupInv hash logGroups gi r.1 := by
  obtain ⟨i, hi, hold, hhash, htop, hres⟩ := h
  -- no other slot holds the key: it was in slot `i`, or nowhere
  have hother : ∀ j < lruAssoc, j ≠ i → ∀ b, g.items j = some b → b.key ≠ key := by
    rcases hold with ⟨-, hold⟩ | hno
    · exact fun j hj hji => hinv.not_holds hi hj hji hold
    · exact fun j hj _ => hinv.not_key hno j hj
  rcases hres with ⟨hitems, -⟩ | ⟨hitems, -⟩
  · refine hinv.update hi hitems hhash fun it hit => ?_
    cases hit
    exact ⟨hgi, htop, ⟨List.length_replicate, hkey, hval⟩, hother⟩
  · exact hinv.update hi hitems hhash fun it hit => by cases hit

/-- Without inserting, the search keeps the items. -/
theorem lruGroupGet_kept_of_lookup (lru : Lru) (g : LruGroup) (top : UInt16) (key : List UInt8)
    (valLen : ℕ) (allocOk : Bool) :
    LruGroupKept g top key valLen false (lruGroupGet lru g top key valLen false allocOk) := by
  unfold lruGroupGet
  split
  · rename_i i hfind
    have hi : i < lruAssoc := List.mem_range.mp (List.mem_of_find?_eq_some hfind)
    have hold : LruSlotHolds g top key i := by
      have hp := List.find?_some hfind
      exact lruSlotHolds_of_find hp
    obtain ⟨hh, it, hit, hkey⟩ := hold
    exact ⟨rfl, fun _ _ => rfl,
      .inr ⟨i, hi, it, hit, hkey, hh, fun h => absurd h Bool.false_ne_true, rfl⟩⟩
  · simp only [Bool.false_eq_true, if_false]
    split
    · exact ⟨rfl, fun _ _ => rfl, .inl rfl⟩
    · split_ifs
      · exact ⟨rfl, fun _ _ => rfl, .inl rfl⟩
      · exact ⟨rfl, fun _ _ => rfl, .inl rfl⟩

/-- A search in the key's group keeps the invariant of the group. -/
theorem LruGroupInv.groupGet {g : LruGroup} (hinv : LruGroupInv hash logGroups gi g) (lru : Lru)
    {key : List UInt8} (hgi : (hash key).toNat % 2 ^ logGroups = gi) (hkey : key.length ≤ 65535)
    {valLen : ℕ} {doInsert : Bool} (hval : doInsert = true → valLen ≤ 65535) (allocOk : Bool) :
    LruGroupInv hash logGroups gi
      (lruGroupGet lru g (hashTop (hash key)) key valLen doInsert allocOk).1 := by
  cases doInsert with
  | false => exact hinv.kept (lruGroupGet_kept_of_lookup lru g _ key valLen allocOk)
  | true =>
    rcases lruGroupGet_cases lru g (hashTop (hash key)) key valLen true allocOk with hk | hins
    · exact hinv.kept hk
    · exact hinv.inserted hgi hkey (hval rfl) hins

end GroupGetInv

/-! ## The whole cache -/

section Cache

variable {hash : List UInt8 → UInt32}

/-- The invariant of every group. -/
def LruInv (hash : List UInt8 → UInt32) (lru : Lru) : Prop :=
  ∀ gi, LruGroupInv hash lru.logGroups gi (lru.groups gi)

/-- The loop of `lru_create_impl` counts the bits of `s`: `2 ^ log_groups` is above `s` and at
most twice it. -/
theorem lruLogGroups_bounds (s : ℕ) :
    s < 2 ^ lruLogGroups s ∧ 2 ^ lruLogGroups s ≤ max 1 (2 * s) := by
  induction s using Nat.strong_induction_on with
  | _ s ih =>
    rw [lruLogGroups]
    split_ifs with hs
    · subst hs
      simp
    · obtain ⟨hlt, hle⟩ := ih (s / 2) (by omega)
      rw [pow_succ]
      constructor <;> omega

/-- In whole numbers the groups `lru_create_impl` picks hold at least `max_slots` and fewer than
twice as many slots from two slots up. -/
theorem lruCreate_capacity_bounds {maxSlots : ℕ} (hm : 2 ≤ maxSlots) :
    maxSlots ≤ 2 ^ lruLogGroups ((maxSlots - 1) / lruAssoc + 1 - 1) * lruAssoc ∧
      2 ^ lruLogGroups ((maxSlots - 1) / lruAssoc + 1 - 1) * lruAssoc < 2 * maxSlots := by
  obtain ⟨hlt, hle⟩ := lruLogGroups_bounds ((maxSlots - 1) / lruAssoc + 1 - 1)
  have h3 : lruAssoc = 3 := rfl
  rw [h3] at hlt hle ⊢
  omega

/-- The size assertion of `lru_create_impl` in `uint` arithmetic holds exactly from two slots up
to `2 ^ 31`, where `2 * max_slots` wraps. -/
theorem lruCreate_assert_iff {maxSlots : ℕ} (hm : maxSlots < 2 ^ 32) :
    (maxSlots ≤ 2 ^ lruLogGroups ((maxSlots - 1) / lruAssoc + 1 - 1) % 2 ^ 32 * lruAssoc % 2 ^ 32 ∧
      2 ^ lruLogGroups ((maxSlots - 1) / lruAssoc + 1 - 1) % 2 ^ 32 * lruAssoc % 2 ^ 32 <
        2 * maxSlots % 2 ^ 32) ↔
      2 ≤ maxSlots ∧ maxSlots < 2 ^ 31 := by
  obtain ⟨hlt, hle⟩ := lruLogGroups_bounds ((maxSlots - 1) / lruAssoc + 1 - 1)
  have h3 : lruAssoc = 3 := rfl
  rw [h3] at hlt hle ⊢
  generalize 2 ^ lruLogGroups ((maxSlots - 1) / 3 + 1 - 1) = g at hlt hle ⊢
  have h32 : (2 : ℕ) ^ 32 = 4294967296 := by norm_num
  have h31 : (2 : ℕ) ^ 31 = 2147483648 := by norm_num
  rw [h32] at hm ⊢
  rw [h31]
  -- `group_count` itself never wraps: it is at most twice `(max_slots - 1) / 3`
  have hle' := le_max_iff.mp hle
  have hg : g < 4294967296 := by omega
  rw [Nat.mod_eq_of_lt hg]
  -- `2 * max_slots` wraps from `2 ^ 31` on; `3 * group_count` only where it is large
  have h2m : 2 * maxSlots % 4294967296 =
      if maxSlots < 2147483648 then 2 * maxSlots else 2 * maxSlots - 4294967296 := by
    split_ifs with h
    · exact Nat.mod_eq_of_lt (by omega)
    · rw [Nat.mod_eq_sub_mod (by omega), Nat.mod_eq_of_lt (by omega)]
  have hr1 : g * 3 % 4294967296 ≤ g * 3 := Nat.mod_le _ _
  have hr2 : g * 3 < 4294967296 → g * 3 % 4294967296 = g * 3 := Nat.mod_eq_of_lt
  rw [h2m]
  generalize g * 3 % 4294967296 = r at hr1 hr2 ⊢
  split_ifs with hsmall
  · constructor
    · rintro ⟨hlo, hhi⟩
      omega
    · rintro ⟨hm2, -⟩
      omega
  · constructor
    · rintro ⟨hlo, hhi⟩
      omega
    · rintro ⟨-, hm31⟩
      omega

/-- `lru_create_impl` returns a table exactly for two slots up to `2 ^ 31`, a power-of-two
alignment, an `mm_array` that passes its assertion and an allocation that succeeds; its capacity
is then at least `max_slots` and below twice it. -/
theorem lruCreate_eq_some_iff (maxSlots valAlignment : UInt32) (mmArrayOk allocOk : Bool) :
    ((lruCreate maxSlots valAlignment mmArrayOk allocOk).isSome ↔
      2 ≤ maxSlots.toNat ∧ maxSlots.toNat < 2 ^ 31 ∧ valAlignment ≠ 0 ∧
        valAlignment &&& (valAlignment - 1) = 0 ∧ mmArrayOk = true ∧ allocOk = true) ∧
    ∀ lru, lruCreate maxSlots valAlignment mmArrayOk allocOk = some lru →
      maxSlots.toNat ≤ lruCapacity lru ∧ lruCapacity lru < 2 * maxSlots.toNat := by
  have hassert := lruCreate_assert_iff maxSlots.toNat_lt
  unfold lruCreate
  dsimp only
  refine ⟨⟨fun h => ?_, fun ⟨hm2, hm31, ha, hpow, hmm, hal⟩ => ?_⟩, fun lru h => ?_⟩
  · split_ifs at h with h1 h2 h3
    all_goals try simp at h
    simp only [not_or, not_not] at h1 h2
    simp only [Bool.or_eq_true, Bool.not_eq_eq_eq_not, Bool.not_true, not_or,
      Bool.not_eq_false] at h3
    obtain ⟨hm2, hm31⟩ := hassert.mp h2
    exact ⟨hm2, hm31, h1.2.1, h1.2.2, h3.1, h3.2⟩
  · have hne : maxSlots ≠ 0 := by
      rintro rfl
      exact absurd hm2 (by decide)
    rw [if_neg (by simp only [not_or, not_not]; exact ⟨hne, ha, hpow⟩),
      if_neg (not_not.mpr (hassert.mpr ⟨hm2, hm31⟩)), if_neg (by simp [hmm, hal])]
    rfl
  · split_ifs at h with h1 h2 h3
    cases h
    simp only [not_or] at h1
    exact lruCreate_capacity_bounds (hassert.mp h2).1

example : lruCreate 1 8 true true = none := by
  unfold lruCreate
  rw [lruLogGroups]
  rfl

/-- Three slots make one group. -/
theorem lruCreate_three : lruCreate 3 8 true true = some ⟨0, 8, fun _ => LruGroup.zero⟩ := by
  unfold lruCreate
  rw [lruLogGroups]
  rfl

theorem lruInv_of_lruCreate {maxSlots valAlignment : UInt32} {mmArrayOk allocOk : Bool} {lru : Lru}
    (h : lruCreate maxSlots valAlignment mmArrayOk allocOk = some lru) : LruInv hash lru := by
  unfold lruCreate at h
  dsimp only at h
  split_ifs at h
  cases h
  exact fun gi => LruGroupInv.zero hash _ gi

@[simp] theorem lruGetImpl_logGroups (lru : Lru) (key : List UInt8) (valLen : ℕ)
    (doInsert allocOk : Bool) :
    (lruGetImpl hash lru key valLen doInsert allocOk).1.logGroups = lru.logGroups := by
  unfold lruGetImpl
  split_ifs <;> rfl

/-- `lru_get_impl` changes only the group of the key, as `lruGroupGet` does. -/
theorem lruGetImpl_groups (hash : List UInt8 → UInt32) (lru : Lru) (key : List UInt8)
    (valLen : ℕ) (doInsert allocOk : Bool)
    (hok : key.length ≤ 65535 ∧ (!doInsert || valLen ≤ 65535)) :
    (lruGetImpl hash lru key valLen doInsert allocOk).1.groups =
        Function.update lru.groups (lruGroupOf lru (hash key))
          (lruGroupGet lru (lru.groups (lruGroupOf lru (hash key))) (hashTop (hash key)) key valLen
            doInsert allocOk).1 ∧
      (lruGetImpl hash lru key valLen doInsert allocOk).2 =
        (lruGroupGet lru (lru.groups (lruGroupOf lru (hash key))) (hashTop (hash key)) key valLen
          doInsert allocOk).2.map fun p => (lruGroupOf lru (hash key), p.1, p.2) := by
  unfold lruGetImpl
  rw [if_neg (not_not.mpr hok)]
  exact ⟨rfl, rfl⟩

theorem LruInv.getImpl {lru : Lru} (hinv : LruInv hash lru) (key : List UInt8) (valLen : ℕ)
    (doInsert allocOk : Bool) :
    LruInv hash (lruGetImpl hash lru key valLen doInsert allocOk).1 := by
  by_cases hok : key.length ≤ 65535 ∧ (!doInsert || valLen ≤ 65535)
  · intro gi
    rw [lruGetImpl_logGroups, (lruGetImpl_groups hash lru key valLen doInsert allocOk hok).1]
    by_cases hgi : gi = lruGroupOf lru (hash key)
    · subst hgi
      rw [Function.update_self]
      exact (hinv _).groupGet lru rfl hok.1 (fun hd => by simpa [hd] using hok.2) allocOk
    · rw [Function.update_of_ne hgi]
      exact hinv gi
  · unfold lruGetImpl
    rw [if_pos hok]
    exact hinv

/-- A stored item sits in a slot below `LRU_ASSOC` of the group its hash picks. -/
theorem LruInv.slot_of_item {lru : Lru} (hinv : LruInv hash lru) {gi i : ℕ} {it : LruItem}
    (hit : (lru.groups gi).items i = some it) :
    i < lruAssoc ∧ (hash it.key).toNat % 2 ^ lru.logGroups = gi := by
  have hi : i < lruAssoc := by
    by_contra hi
    rw [(hinv gi).outside i (not_lt.mp hi)] at hit
    cases hit
  exact ⟨hi, ((hinv gi).hashed i it hi hit).1⟩

/-- No key is stored in two slots of the cache. -/
theorem LruInv.slot_unique {lru : Lru} (hinv : LruInv hash lru) {gi gi' i i' : ℕ} {a b : LruItem}
    (ha : (lru.groups gi).items i = some a) (hb : (lru.groups gi').items i' = some b)
    (hab : a.key = b.key) : (gi, i) = (gi', i') := by
  obtain ⟨hi, hga⟩ := hinv.slot_of_item ha
  obtain ⟨hi', hgb⟩ := hinv.slot_of_item hb
  have hgi : gi = gi' := by rw [← hga, ← hgb, hab]
  subst hgi
  rw [(hinv gi).unique i i' a b hi hi' ha hb hab]

end Cache

/-! ## What `lru_get_impl` can do to the cache -/

section GetImpl

variable {hash : List UInt8 → UInt32}

/-- A call that keeps every item: it returns no slot, or the slot of the key's group that holds
the key, with room for the value when inserting. -/
def LruKept (hash : List UInt8 → UInt32) (lru lru' : Lru) (key : List UInt8) (valLen : ℕ)
    (doInsert : Bool) (r : Option (ℕ × ℕ × Bool)) : Prop :=
  (∀ gi, (lru'.groups gi).items = (lru.groups gi).items) ∧
    (r = none ∨ ∃ i it, (lru.groups (lruGroupOf lru (hash key))).items i = some it ∧ it.key = key ∧
      (doInsert = true → valLen ≤ it.valLen) ∧ r = some (lruGroupOf lru (hash key), i, false))

/-- A call that (re)inserts the key into slot `i` of its group: every other slot keeps its item,
and the slot holds the key with a zeroed value, or nothing when the allocation fails. -/
def LruInserted (hash : List UInt8 → UInt32) (lru lru' : Lru) (key : List UInt8) (valLen : ℕ)
    (r : Option (ℕ × ℕ × Bool)) : Prop :=
  ∃ i, (∀ gi j, (gi, j) ≠ (lruGroupOf lru (hash key), i) →
      (lru'.groups gi).items j = (lru.groups gi).items j) ∧
    (((lru'.groups (lruGroupOf lru (hash key))).items i =
          some ⟨key, valLen, List.replicate valLen 0⟩ ∧
        r = some (lruGroupOf lru (hash key), i, true)) ∨
      ((lru'.groups (lruGroupOf lru (hash key))).items i = none ∧ r = none))

/-- A search that keeps the items of the key's group keeps every item of the cache. -/
theorem lruKept_of_groupKept {lru : Lru} {key : List UInt8} {valLen : ℕ} {doInsert : Bool}
    (allocOk : Bool) (hok : key.length ≤ 65535 ∧ (!doInsert || valLen ≤ 65535))
    (hk : LruGroupKept (lru.groups (lruGroupOf lru (hash key))) (hashTop (hash key)) key valLen
      doInsert (lruGroupGet lru (lru.groups (lruGroupOf lru (hash key))) (hashTop (hash key)) key
        valLen doInsert allocOk)) :
    LruKept hash lru (lruGetImpl hash lru key valLen doInsert allocOk).1 key valLen doInsert
      (lruGetImpl hash lru key valLen doInsert allocOk).2 := by
  obtain ⟨hgroups, hr⟩ := lruGetImpl_groups hash lru key valLen doInsert allocOk hok
  unfold LruKept
  rw [hgroups, hr]
  obtain ⟨hitems, -, hres⟩ := hk
  refine ⟨fun gi => ?_, ?_⟩
  · by_cases hgi : gi = lruGroupOf lru (hash key)
    · rw [hgi, Function.update_self, hitems]
    · rw [Function.update_of_ne hgi]
  · rcases hres with hnone | ⟨i, -, it, hit, hkey, -, hval, hsome⟩
    · exact .inl (by rw [hnone, Option.map_none])
    · exact .inr ⟨i, it, hit, hkey, hval, by rw [hsome, Option.map_some]⟩

/-- A call that fails its assertion changes nothing and returns no slot. -/
theorem lruKept_of_not_ok {lru : Lru} {key : List UInt8} {valLen : ℕ} {doInsert : Bool}
    (allocOk : Bool) (hok : ¬ (key.length ≤ 65535 ∧ (!doInsert || valLen ≤ 65535))) :
    LruKept hash lru (lruGetImpl hash lru key valLen doInsert allocOk).1 key valLen doInsert
      (lruGetImpl hash lru key valLen doInsert allocOk).2 := by
  unfold lruGetImpl
  rw [if_pos hok]
  exact ⟨fun _ => rfl, .inl rfl⟩

theorem lruGetImpl_cases (hash : List UInt8 → UInt32) (lru : Lru) (key : List UInt8) (valLen : ℕ)
    (doInsert allocOk : Bool) :
    LruKept hash lru (lruGetImpl hash lru key valLen doInsert allocOk).1 key valLen doInsert
        (lruGetImpl hash lru key valLen doInsert allocOk).2 ∨
      LruInserted hash lru (lruGetImpl hash lru key valLen doInsert allocOk).1 key valLen
        (lruGetImpl hash lru key valLen doInsert allocOk).2 := by
  by_cases hok : key.length ≤ 65535 ∧ (!doInsert || valLen ≤ 65535)
  · rcases lruGroupGet_cases lru (lru.groups (lruGroupOf lru (hash key))) (hashTop (hash key)) key
      valLen doInsert allocOk with hk | ⟨i, -, -, -, -, hres⟩
    · exact .inl (lruKept_of_groupKept allocOk hok hk)
    -- (re)inserted into slot `i` of the key's group: every other slot keeps its item
    obtain ⟨hgroups, hr⟩ := lruGetImpl_groups hash lru key valLen doInsert allocOk hok
    unfold LruInserted
    rw [hgroups, hr]
    set gi0 := lruGroupOf lru (hash key)
    refine .inr ⟨i, fun gi j hne => ?_, ?_⟩
    · by_cases hgi : gi = gi0
      · have hji : j ≠ i := fun hji => hne (by rw [hgi, hji])
        rcases hres with ⟨hitems, -⟩ | ⟨hitems, -⟩ <;>
          rw [hgi, Function.update_self, hitems, Function.update_of_ne hji]
      · rw [Function.update_of_ne hgi]
    · rw [Function.update_self]
      rcases hres with ⟨hitems, hsome⟩ | ⟨hitems, hnone⟩
      · exact .inl ⟨by rw [hitems, Function.update_self], by rw [hsome, Option.map_some]⟩
      · exact .inr ⟨by rw [hitems, Function.update_self], by rw [hnone, Option.map_none]⟩
  · exact .inl (lruKept_of_not_ok allocOk hok)

/-- A lookup that does not insert keeps every item. -/
theorem lruGetImpl_kept_of_lookup (hash : List UInt8 → UInt32) (lru : Lru) (key : List UInt8)
    (valLen : ℕ) (allocOk : Bool) :
    LruKept hash lru (lruGetImpl hash lru key valLen false allocOk).1 key valLen false
      (lruGetImpl hash lru key valLen false allocOk).2 := by
  by_cases hok : key.length ≤ 65535 ∧ (!false || valLen ≤ 65535)
  · exact lruKept_of_groupKept allocOk hok
      (lruGroupGet_kept_of_lookup lru _ (hashTop (hash key)) key valLen allocOk)
  · exact lruKept_of_not_ok allocOk hok

end GetImpl

/-! ## Writes through the returned pointer, evictions -/

section Writes

variable {hash : List UInt8 → UInt32}

@[simp] theorem lruWriteVal_logGroups (lru : Lru) (gi i : ℕ) (v : List UInt8) :
    (lruWriteVal lru gi i v).logGroups = lru.logGroups := rfl

theorem lruWriteVal_items_self (lru : Lru) (gi i : ℕ) (v : List UInt8) :
    ((lruWriteVal lru gi i v).groups gi).items i =
      ((lru.groups gi).items i).map (·.writeVal v) := by
  simp [lruWriteVal]

theorem lruWriteVal_items_of_ne (lru : Lru) {gi i gi' j : ℕ} (v : List UInt8)
    (hne : (gi', j) ≠ (gi, i)) :
    ((lruWriteVal lru gi i v).groups gi').items j = (lru.groups gi').items j := by
  by_cases hgi : gi' = gi
  · have hji : j ≠ i := fun hji => hne (by rw [hgi, hji])
    simp [lruWriteVal, hgi, Function.update_of_ne hji]
  · simp [lruWriteVal, Function.update_of_ne hgi]

@[simp] theorem LruItem.writeVal_key (it : LruItem) (v : List UInt8) :
    (it.writeVal v).key = it.key := rfl

@[simp] theorem LruItem.writeVal_valLen (it : LruItem) (v : List UInt8) :
    (it.writeVal v).valLen = it.valLen := rfl

/-- A write of at most the value's length keeps the length of the value. -/
theorem LruItem.writeVal_val_length {it : LruItem} {v : List UInt8}
    (hv : v.length ≤ it.val.length) :
    (it.writeVal v).val.length = it.val.length := by
  simp only [LruItem.writeVal, List.length_append, List.length_drop]
  omega

/-- A write into a fresh item is the value written. -/
theorem LruItem.writeVal_fresh (key v : List UInt8) :
    (LruItem.mk key v.length (List.replicate v.length 0)).writeVal v = ⟨key, v.length, v⟩ := by
  simp [LruItem.writeVal]

theorem LruInv.writeVal {lru : Lru} (hinv : LruInv hash lru) {gi i : ℕ} {it : LruItem}
    (hit : (lru.groups gi).items i = some it) {v : List UInt8} (hv : v.length ≤ it.valLen) :
    LruInv hash (lruWriteVal lru gi i v) := by
  intro gi'
  rw [lruWriteVal_logGroups]
  by_cases hgi : gi' = gi
  · subst hgi
    have hi : i < lruAssoc := by
      by_contra hi
      rw [(hinv gi').outside i (not_lt.mp hi)] at hit
      cases hit
    obtain ⟨hlen, hkey, hval⟩ := (hinv gi').sized i it hit
    have hitems : ((lruWriteVal lru gi' i v).groups gi').items =
        Function.update (lru.groups gi').items i (some (it.writeVal v)) := by
      funext j
      by_cases hji : j = i
      · rw [hji, Function.update_self, lruWriteVal_items_self, hit, Option.map_some]
      · rw [Function.update_of_ne hji, lruWriteVal_items_of_ne lru v (by simp [hji])]
    refine (hinv gi').update hi hitems (fun j _ hji => ?_) fun b hb => ?_
    · simp [lruWriteVal]
    · cases hb
      obtain ⟨hg, hh⟩ := (hinv gi').hashed i it hi hit
      refine ⟨hg, by simpa [lruWriteVal] using hh, ⟨?_, hkey, hval⟩, ?_⟩
      · rw [LruItem.writeVal_val_length (hlen ▸ hv), hlen, LruItem.writeVal_valLen]
      · exact fun j hj hji b hb => (hinv gi').not_holds hi hj hji ⟨it, hit, rfl⟩ b hb
  · have hsame : (lruWriteVal lru gi i v).groups gi' = lru.groups gi' := by
      simp [lruWriteVal, Function.update_of_ne hgi]
    rw [hsame]
    exact hinv gi'

/-- `lru_apply` evicts items: every item left was there before, under the same hash. -/
theorem lruApply_items (lru : Lru) (evict : List UInt8 → List UInt8 → Bool) {gi j : ℕ}
    {it : LruItem} (h : ((lruApply lru evict).groups gi).items j = some it) :
    (lru.groups gi).items j = some it ∧
      ((lruApply lru evict).groups gi).hashes j = (lru.groups gi).hashes j := by
  unfold lruApply at h ⊢
  dsimp only at h ⊢
  by_cases hgi : gi < 2 ^ lru.logGroups
  · rw [if_pos hgi] at h ⊢
    dsimp only at h ⊢
    by_cases hev :
      (decide (j < lruAssoc) && ((lru.groups gi).items j).any fun it => evict it.key it.val) = true
    · rw [if_pos hev] at h
      cases h
    · rw [if_neg hev] at h ⊢
      exact ⟨h, rfl⟩
  · rw [if_neg hgi] at h ⊢
    exact ⟨h, rfl⟩

/-- A group whose items are among an invariant group's, each under the same hash, keeps the
invariant. -/
theorem LruGroupInv.mono {logGroups gi : ℕ} {g g' : LruGroup}
    (hinv : LruGroupInv hash logGroups gi g)
    (hsub : ∀ j it, g'.items j = some it → g.items j = some it ∧ g'.hashes j = g.hashes j) :
    LruGroupInv hash logGroups gi g' where
  hashed j it hj hit := by
    obtain ⟨hold, hh⟩ := hsub j it hit
    rw [hh]
    exact hinv.hashed j it hj hold
  unique j k a b hj hk ha hb := hinv.unique j k a b hj hk (hsub j a ha).1 (hsub k b hb).1
  sized j it hit := hinv.sized j it (hsub j it hit).1
  outside j hj := by
    cases hit : g'.items j with
    | none => rfl
    | some it =>
      have hold := (hsub j it hit).1
      rw [hinv.outside j hj] at hold
      cases hold

theorem LruInv.apply {lru : Lru} (hinv : LruInv hash lru) (evict : List UInt8 → List UInt8 → Bool) :
    LruInv hash (lruApply lru evict) :=
  fun gi => (hinv gi).mono fun _ _ h => lruApply_items lru evict h

/-! ### The loop of `lru_apply_impl` -/

/-- A cache whose items are among those of `lru`, in the same slots and under the same hashes:
what evictions leave. -/
def LruEvicts (lru lru' : Lru) : Prop :=
  lru'.logGroups = lru.logGroups ∧ ∀ gi j it, (lru'.groups gi).items j = some it →
    (lru.groups gi).items j = some it ∧ (lru'.groups gi).hashes j = (lru.groups gi).hashes j

theorem LruEvicts.refl (lru : Lru) : LruEvicts lru lru := ⟨rfl, fun _ _ _ h => ⟨h, rfl⟩⟩

theorem LruEvicts.trans {a b c : Lru} (hab : LruEvicts a b) (hbc : LruEvicts b c) :
    LruEvicts a c := by
  refine ⟨hbc.1.trans hab.1, fun gi j it h => ?_⟩
  obtain ⟨hb, hhb⟩ := hbc.2 gi j it h
  obtain ⟨ha, hha⟩ := hab.2 gi j it hb
  exact ⟨ha, hhb.trans hha⟩

theorem lruEvicts_lruClearSlot (lru : Lru) (gi j : ℕ) : LruEvicts lru (lruClearSlot lru gi j) := by
  refine ⟨rfl, fun gi' j' it h => ?_⟩
  by_cases hg : gi' = gi
  · subst hg
    by_cases hj : j' = j
    · subst hj
      simp [lruClearSlot] at h
    · simp [lruClearSlot, hj] at h ⊢
      exact h
  · simp [lruClearSlot, hg] at h ⊢
    exact h

/-- One pass of the inner loop evicts at most, whatever the callback and its baton. -/
theorem lruEvicts_lruApplySlot {σ : Type*} (f : σ → List UInt8 → List UInt8 → LruApplyDo × σ)
    (gi j : ℕ) (p : Lru × σ) : LruEvicts p.1 (lruApplySlot f gi j p).1 := by
  unfold lruApplySlot
  split
  · exact LruEvicts.refl _
  · split
    · exact lruEvicts_lruClearSlot _ _ _
    · exact LruEvicts.refl _

/-- The run lemma of the two loops. -/
theorem lruEvicts_lruApplyImpl {σ : Type*} (lru : Lru)
    (f : σ → List UInt8 → List UInt8 → LruApplyDo × σ) (baton : σ) :
    LruEvicts lru (lruApplyImpl lru f baton).1 := by
  unfold lruApplyImpl
  -- both loops keep `LruEvicts lru` of the cache so far, whatever the baton
  refine List.foldlRecOn (motive := fun p : Lru × σ => LruEvicts lru p.1) _ _
    (LruEvicts.refl lru) ?_
  intro p hp gi _
  exact List.foldlRecOn (motive := fun p : Lru × σ => LruEvicts lru p.1) _ _ hp
    fun q hq j _ => hq.trans (lruEvicts_lruApplySlot f gi j q)

/-- `lru_apply` keeps the invariant with any callback, whatever it does with its baton. -/
theorem LruInv.applyImpl {σ : Type*} {lru : Lru} (hinv : LruInv hash lru)
    (f : σ → List UInt8 → List UInt8 → LruApplyDo × σ) (baton : σ) :
    LruInv hash (lruApplyImpl lru f baton).1 := by
  obtain ⟨hlog, hsub⟩ := lruEvicts_lruApplyImpl lru f baton
  intro gi
  rw [hlog]
  exact (hinv gi).mono fun j it h => hsub gi j it h

/-- The slots `lru_apply_impl` visits, in its order: group by group, `LRU_ASSOC` slots each. -/
def lruSlots (lru : Lru) : List (ℕ × ℕ) :=
  (List.range (2 ^ lru.logGroups)).flatMap fun gi => (List.range lruAssoc).map (gi, ·)

/-- The stored items in the order `lru_apply_impl` visits them. -/
def lruItemsInOrder (lru : Lru) : List LruItem :=
  (lruSlots lru).filterMap fun p => (lru.groups p.1).items p.2

/-- `lru` with the items `evict` picks evicted from the slots listed in `S`. -/
def lruEvicted (lru : Lru) (evict : List UInt8 → List UInt8 → Bool) (S : List (ℕ × ℕ)) : Lru :=
  { lru with groups := fun gi =>
      let g := lru.groups gi
      let ev := fun j => decide ((gi, j) ∈ S) && (g.items j).any fun it => evict it.key it.val
      ⟨fun j => if ev j then 0 else g.counts j, fun j => if ev j then 0 else g.hashes j,
        fun j => if ev j then none else g.items j⟩ }

/-- Only the slots that hold an item `evict` picks matter. -/
theorem lruEvicted_congr {lru : Lru} {evict : List UInt8 → List UInt8 → Bool}
    {S T : List (ℕ × ℕ)}
    (h : ∀ gi j, ((lru.groups gi).items j).any (fun it => evict it.key it.val) = true →
      ((gi, j) ∈ S ↔ (gi, j) ∈ T)) :
    lruEvicted lru evict S = lruEvicted lru evict T := by
  unfold lruEvicted
  congr 1
  funext gi
  have hev : ∀ j, (decide ((gi, j) ∈ S) &&
      ((lru.groups gi).items j).any fun it => evict it.key it.val) =
      (decide ((gi, j) ∈ T) && ((lru.groups gi).items j).any fun it => evict it.key it.val) := by
    intro j
    cases hany : ((lru.groups gi).items j).any fun it => evict it.key it.val
    · simp
    · simp [h gi j hany]
  simp only [hev]

theorem lruEvicted_nil (lru : Lru) (evict : List UInt8 → List UInt8 → Bool) :
    lruEvicted lru evict [] = lru := by
  simp [lruEvicted]

theorem lruEvicted_items_of_not_mem (lru : Lru) (evict : List UInt8 → List UInt8 → Bool)
    {S : List (ℕ × ℕ)} {gi j : ℕ} (hS : (gi, j) ∉ S) :
    ((lruEvicted lru evict S).groups gi).items j = (lru.groups gi).items j := by
  simp [lruEvicted, hS]

/-- Evicting the item of slot `j` of group `gi` is adding the slot to those evicted from. -/
theorem lruClearSlot_evicted {lru : Lru} {evict : List UInt8 → List UInt8 → Bool}
    {S : List (ℕ × ℕ)} {gi j : ℕ} {it : LruItem} (hS : (gi, j) ∉ S)
    (hit : (lru.groups gi).items j = some it) (hev : evict it.key it.val = true) :
    lruClearSlot (lruEvicted lru evict S) gi j = lruEvicted lru evict (S ++ [(gi, j)]) := by
  unfold lruClearSlot lruEvicted
  dsimp only
  congr 1
  funext gi'
  by_cases hg : gi' = gi
  · subst hg
    rw [Function.update_self]
    congr 1 <;> funext j' <;> by_cases hj : j' = j
    all_goals first
      | (subst hj; simp [hS, hit, hev])
      | simp [hj]
  · rw [Function.update_of_ne hg]
    simp [hg]

/-- What the callback's baton becomes at a slot of `lru`: the callback sees the item there. -/
def lruVisit {σ : Type*} (lru : Lru) (step : σ → List UInt8 → List UInt8 → σ) (b : σ)
    (p : ℕ × ℕ) : σ :=
  match (lru.groups p.1).items p.2 with
  | some it => step b it.key it.val
  | none => b

/-- The step lemma: one pass of the inner loop, at a slot not visited before, adds the slot to
those evicted from and folds its item into the baton. -/
theorem lruApplySlot_evicted {σ : Type*} (lru : Lru) (evict : List UInt8 → List UInt8 → Bool)
    (step : σ → List UInt8 → List UInt8 → σ) {S : List (ℕ × ℕ)} {gi j : ℕ} (b : σ)
    (hS : (gi, j) ∉ S) :
    lruApplySlot (lruApplyDecide evict step) gi j (lruEvicted lru evict S, b) =
      (lruEvicted lru evict (S ++ [(gi, j)]), lruVisit lru step b (gi, j)) := by
  -- where the slot holds nothing `evict` picks, adding it changes nothing
  have hsame : ((lru.groups gi).items j).any (fun it => evict it.key it.val) = false →
      lruEvicted lru evict S = lruEvicted lru evict (S ++ [(gi, j)]) := fun h =>
    lruEvicted_congr fun gi' j' hany => by
      simp only [List.mem_append, List.mem_singleton, Prod.mk.injEq]
      constructor
      · exact .inl
      · rintro (hm | ⟨rfl, rfl⟩)
        · exact hm
        · simp [h] at hany
  unfold lruApplySlot lruVisit
  dsimp only
  rw [lruEvicted_items_of_not_mem lru evict hS]
  cases hit : (lru.groups gi).items j with
  | none => exact congrArg (·, b) (hsame (by simp [hit]))
  | some it =>
    cases hev : evict it.key it.val
    · simp only [lruApplyDecide, hev, Bool.false_eq_true, if_false]
      exact congrArg (·, _) (hsame (by simp [hit, hev]))
    · simp only [lruApplyDecide, hev, if_true]
      rw [lruClearSlot_evicted hS hit hev]

/-- The inner loop over the slots `js` of group `gi`, none of them visited before. -/
theorem lruApplyGroup_evicted {σ : Type*} (lru : Lru) (evict : List UInt8 → List UInt8 → Bool)
    (step : σ → List UInt8 → List UInt8 → σ) (gi : ℕ) (js : List ℕ) (hnd : js.Nodup)
    (S : List (ℕ × ℕ)) (b : σ) (hS : ∀ j ∈ js, (gi, j) ∉ S) :
    js.foldl (fun p j => lruApplySlot (lruApplyDecide evict step) gi j p)
        (lruEvicted lru evict S, b) =
      (lruEvicted lru evict (S ++ js.map (gi, ·)),
        (js.map (gi, ·)).foldl (lruVisit lru step) b) := by
  induction js generalizing S b with
  | nil => simp
  | cons j js ih =>
    obtain ⟨hj, hnd⟩ := List.nodup_cons.mp hnd
    -- the slots still to come are not the one just visited
    have hS' : ∀ j' ∈ js, (gi, j') ∉ S ++ [(gi, j)] := by
      intro j' hj' hm
      rcases List.mem_append.mp hm with hm | hm
      · exact hS j' (List.mem_cons_of_mem _ hj') hm
      · exact hj (by simp at hm; exact hm ▸ hj')
    rw [List.foldl_cons, lruApplySlot_evicted lru evict step b (hS j List.mem_cons_self),
      ih hnd _ _ hS', List.append_assoc]
    rfl

/-- The outer loop over the groups `gis`, none of them visited before. -/
theorem lruApplyGroups_evicted {σ : Type*} (lru : Lru) (evict : List UInt8 → List UInt8 → Bool)
    (step : σ → List UInt8 → List UInt8 → σ) (gis : List ℕ) (hnd : gis.Nodup)
    (S : List (ℕ × ℕ)) (b : σ) (hS : ∀ gi ∈ gis, ∀ j, (gi, j) ∉ S) :
    gis.foldl (fun p gi => (List.range lruAssoc).foldl
        (fun p j => lruApplySlot (lruApplyDecide evict step) gi j p) p)
        (lruEvicted lru evict S, b) =
      (lruEvicted lru evict (S ++ gis.flatMap fun gi => (List.range lruAssoc).map (gi, ·)),
        (gis.flatMap fun gi => (List.range lruAssoc).map (gi, ·)).foldl (lruVisit lru step) b) := by
  induction gis generalizing S b with
  | nil => simp
  | cons gi gis ih =>
    obtain ⟨hgi, hnd⟩ := List.nodup_cons.mp hnd
    -- the groups still to come are not the one just visited
    have hS' : ∀ gi' ∈ gis, ∀ j, (gi', j) ∉ S ++ (List.range lruAssoc).map (gi, ·) := by
      intro gi' hgi' j hm
      rcases List.mem_append.mp hm with hm | hm
      · exact hS gi' (List.mem_cons_of_mem _ hgi') j hm
      · exact hgi (by simp at hm; exact hm.2 ▸ hgi')
    rw [List.foldl_cons, lruApplyGroup_evicted lru evict step gi _ List.nodup_range S b
      fun j _ => hS gi List.mem_cons_self j, ih hnd _ _ hS', List.flatMap_cons,
      List.append_assoc, List.foldl_append]

/-- The slots the loops visit are those of `lruApply`. -/
theorem lruEvicted_lruSlots (lru : Lru) (evict : List UInt8 → List UInt8 → Bool) :
    lruEvicted lru evict (lruSlots lru) = lruApply lru evict := by
  unfold lruEvicted lruApply lruSlots
  congr 1
  funext gi
  by_cases hgi : gi < 2 ^ lru.logGroups
  · simp [hgi]
  · simp [hgi]

/-- The baton visits the stored items in order. -/
theorem lruVisit_lruSlots {σ : Type*} (lru : Lru) (step : σ → List UInt8 → List UInt8 → σ)
    (b : σ) :
    (lruSlots lru).foldl (lruVisit lru step) b =
      (lruItemsInOrder lru).foldl (fun b it => step b it.key it.val) b := by
  rw [lruItemsInOrder, List.foldl_filterMap]
  congr 1
  funext x p
  unfold lruVisit
  cases (lru.groups p.1).items p.2 <;> rfl

/-- `lru_apply_impl` with a callback that decides by key and value: it computes `lruApply`, and
the baton has seen every stored item once, group by group and slot by slot. -/
theorem lruApplyImpl_decide {σ : Type*} (lru : Lru) (evict : List UInt8 → List UInt8 → Bool)
    (step : σ → List UInt8 → List UInt8 → σ) (b : σ) :
    lruApplyImpl lru (lruApplyDecide evict step) b =
      (lruApply lru evict, (lruItemsInOrder lru).foldl (fun b it => step b it.key it.val) b) := by
  have h0 : (lru, b) = (lruEvicted lru evict [], b) := by rw [lruEvicted_nil]
  unfold lruApplyImpl
  rw [h0, lruApplyGroups_evicted lru evict step _ List.nodup_range [] b (by simp),
    List.nil_append]
  rw [← lruVisit_lruSlots, ← lruEvicted_lruSlots]
  rfl

theorem lruSlots_nodup (lru : Lru) : (lruSlots lru).Nodup :=
  List.nodup_range.product List.nodup_range

/-- The items the loops visit are the stored ones. -/
theorem LruInv.mem_lruItemsInOrder {lru : Lru} (hinv : LruInv hash lru) {it : LruItem} :
    it ∈ lruItemsInOrder lru ↔ ∃ gi i, (lru.groups gi).items i = some it := by
  simp only [lruItemsInOrder, lruSlots, List.mem_filterMap, List.mem_flatMap, List.mem_map,
    List.mem_range, Prod.exists]
  constructor
  · rintro ⟨gi, i, -, hit⟩
    exact ⟨gi, i, hit⟩
  · rintro ⟨gi, i, hit⟩
    obtain ⟨hi, hgi⟩ := hinv.slot_of_item hit
    exact ⟨gi, i, ⟨gi, hgi ▸ Nat.mod_lt _ (Nat.two_pow_pos _), i, hi, rfl⟩, hit⟩

/-- The loops visit every stored key once. -/
theorem LruInv.keys_nodup {lru : Lru} (hinv : LruInv hash lru) :
    ((lruItemsInOrder lru).map LruItem.key).Nodup := by
  rw [lruItemsInOrder, List.map_filterMap]
  refine (lruSlots_nodup lru).filterMap fun p p' k hk hk' => ?_
  simp only [Option.mem_def, Option.map_eq_some_iff] at hk hk'
  obtain ⟨a, ha, rfl⟩ := hk
  obtain ⟨b, hb, hab⟩ := hk'
  exact hinv.slot_unique ha hb hab.symm

end Writes

/-! ## Runs: what a caller reads is what it last wrote -/

section Runs

variable {hash : List UInt8 → UInt32}

/-- The key is stored: a slot of the cache holds an item of it. -/
def LruStored (lru : Lru) (key : List UInt8) : Prop :=
  ∃ gi i it, (lru.groups gi).items i = some it ∧ it.key = key

/-- What the caller last wrote through a pointer to the value of each key, since the key was
last (re)inserted: the value `lru_get_new` clears on insertion, then each `memcpy`. -/
def lruHistStep (H : List UInt8 → Option (List UInt8)) :
    LruOp → Option (List UInt8 × Bool) → List UInt8 → Option (List UInt8)
  | .getNew key valLen _, some (_, true) => Function.update H key (some (List.replicate valLen 0))
  | .set key val _, some (_, true) => Function.update H key (some val)
  | .set key val _, some (_, false) =>
    Function.update H key ((H key).map fun old => val ++ old.drop val.length)
  | _, _ => H

/-- The cache and the history after a run of operations. -/
def lruRun (hash : List UInt8 → UInt32) :
    Lru × (List UInt8 → Option (List UInt8)) → List LruOp →
      Lru × (List UInt8 → Option (List UInt8)) :=
  Simulation.runObserved (lruStep hash) lruHistStep

/-- Every stored item holds what the history says of its key. -/
def LruHistInv (lru : Lru) (H : List UInt8 → Option (List UInt8)) : Prop :=
  ∀ gi i it, (lru.groups gi).items i = some it → H it.key = some it.val

/-- Items taken from the cache keep the history. -/
theorem LruHistInv.mono {lru lru' : Lru} {H : List UInt8 → Option (List UInt8)}
    (hH : LruHistInv lru H)
    (hsub : ∀ gi i it, (lru'.groups gi).items i = some it → (lru.groups gi).items i = some it) :
    LruHistInv lru' H :=
  fun gi i it hit => hH gi i it (hsub gi i it hit)

/-- One slot takes an item, the others keep theirs: the history records the item's value. -/
theorem LruHistInv.update {lru lru' : Lru} {H : List UInt8 → Option (List UInt8)}
    (hH : LruHistInv lru H) (hinv' : LruInv hash lru') {gi0 i0 : ℕ} {it0 : LruItem}
    (hslot : (lru'.groups gi0).items i0 = some it0)
    (hother : ∀ gi i, (gi, i) ≠ (gi0, i0) → (lru'.groups gi).items i = (lru.groups gi).items i) :
    LruHistInv lru' (Function.update H it0.key (some it0.val)) := by
  intro gi i it hit
  by_cases hslot' : (gi, i) = (gi0, i0)
  · obtain ⟨rfl, rfl⟩ := Prod.mk.inj hslot'
    rw [hslot] at hit
    cases hit
    exact Function.update_self ..
  · -- another slot: its key is not the new item's, as no key is stored twice
    have hne : it.key ≠ it0.key := fun hkey =>
      hslot' (hinv'.slot_unique hit hslot hkey)
    rw [Function.update_of_ne hne]
    exact hH gi i it (by rw [← hother gi i hslot', hit])

end Runs

/-! ## Each operation keeps the invariant and the history -/

section Step

variable {hash : List UInt8 → UInt32}

theorem lruStep_getTry (lru : Lru) (key : List UInt8) :
    lruStep hash lru (.getTry key) =
      ((lruGetImpl hash lru key 4294967295 false true).1,
        lruSlotVal (lruGetImpl hash lru key 4294967295 false true).1
          (lruGetImpl hash lru key 4294967295 false true).2) := rfl

theorem lruStep_getNew (lru : Lru) (key : List UInt8) (valLen : ℕ) (allocOk : Bool) :
    lruStep hash lru (.getNew key valLen allocOk) =
      ((lruGetImpl hash lru key valLen true allocOk).1,
        lruSlotVal (lruGetImpl hash lru key valLen true allocOk).1
          (lruGetImpl hash lru key valLen true allocOk).2) := rfl

theorem lruStep_set_none {lru : Lru} {key val : List UInt8} {allocOk : Bool}
    (h : (lruGetImpl hash lru key val.length true allocOk).2 = none) :
    lruStep hash lru (.set key val allocOk) =
      ((lruGetImpl hash lru key val.length true allocOk).1, none) := by
  simp only [lruStep, h]

theorem lruStep_set_some {lru : Lru} {key val : List UInt8} {allocOk : Bool} {gi i : ℕ}
    {isNew : Bool}
    (h : (lruGetImpl hash lru key val.length true allocOk).2 = some (gi, i, isNew)) :
    lruStep hash lru (.set key val allocOk) =
      (lruWriteVal (lruGetImpl hash lru key val.length true allocOk).1 gi i val,
        lruSlotVal (lruWriteVal (lruGetImpl hash lru key val.length true allocOk).1 gi i val)
          (some (gi, i, isNew))) := by
  simp only [lruStep, h]

end Step

section StepInv

variable {hash : List UInt8 → UInt32}

/-- The invariant of a run: every group keeps its invariant, and every stored value is the one
the history has for its key. -/
structure LruSound (hash : List UInt8 → UInt32) (lru : Lru) (H : List UInt8 → Option (List UInt8)) :
    Prop where
  inv : LruInv hash lru
  hist : LruHistInv lru H

/-- A call that keeps the items and returns no new slot leaves nothing for the history. -/
theorem LruSound.of_kept {lru lru' : Lru} {H : List UInt8 → Option (List UInt8)}
    (hs : LruSound hash lru H) (hinv' : LruInv hash lru')
    (hitems : ∀ gi, (lru'.groups gi).items = (lru.groups gi).items) : LruSound hash lru' H :=
  ⟨hinv', hs.hist.mono fun gi _ _ h => by rwa [hitems gi] at h⟩

/-- A failed insertion empties one slot and keeps the others. -/
theorem LruSound.of_emptied {lru lru' : Lru} {H : List UInt8 → Option (List UInt8)}
    (hs : LruSound hash lru H) (hinv' : LruInv hash lru') {gi0 i0 : ℕ}
    (hother : ∀ gi i, (gi, i) ≠ (gi0, i0) → (lru'.groups gi).items i = (lru.groups gi).items i)
    (hslot : (lru'.groups gi0).items i0 = none) : LruSound hash lru' H := by
  refine ⟨hinv', hs.hist.mono fun gi i it h => ?_⟩
  by_cases hne : (gi, i) = (gi0, i0)
  · obtain ⟨rfl, rfl⟩ := Prod.mk.inj hne
    rw [hslot] at h
    cases h
  · rwa [hother gi i hne] at h

theorem LruSound.getTry {lru : Lru} {H : List UInt8 → Option (List UInt8)}
    (hs : LruSound hash lru H)
    (key : List UInt8) :
    LruSound hash (lruStep hash lru (.getTry key)).1
      (lruHistStep H (.getTry key) (lruStep hash lru (.getTry key)).2) :=
  hs.of_kept (hs.inv.getImpl key _ false true)
    (lruGetImpl_kept_of_lookup hash lru key 4294967295 true).1

theorem LruSound.getNew {lru : Lru} {H : List UInt8 → Option (List UInt8)}
    (hs : LruSound hash lru H)
    (key : List UInt8) (valLen : ℕ) (allocOk : Bool) :
    LruSound hash (lruStep hash lru (.getNew key valLen allocOk)).1
      (lruHistStep H (.getNew key valLen allocOk)
        (lruStep hash lru (.getNew key valLen allocOk)).2) := by
  have hinv' := hs.inv.getImpl key valLen true allocOk
  rw [lruStep_getNew]
  rcases lruGetImpl_cases hash lru key valLen true allocOk with ⟨hitems, hr⟩ | ⟨i, hother, hres⟩
  · -- found: the history stays
    rcases hr with hnone | ⟨i, it, hit, -, -, hsome⟩
    · rw [hnone]
      exact hs.of_kept hinv' hitems
    · rw [hsome, lruSlotVal, hitems, hit]
      exact hs.of_kept hinv' hitems
  · rcases hres with ⟨hslot, hsome⟩ | ⟨hslot, hnone⟩
    · -- inserted: the value is cleared
      rw [hsome, lruSlotVal, hslot]
      exact ⟨hinv', hs.hist.update hinv' hslot hother⟩
    · rw [hnone]
      exact hs.of_emptied hinv' hother hslot

theorem LruSound.set {lru : Lru} {H : List UInt8 → Option (List UInt8)} (hs : LruSound hash lru H)
    (key val : List UInt8) (allocOk : Bool) :
    LruSound hash (lruStep hash lru (.set key val allocOk)).1
      (lruHistStep H (.set key val allocOk) (lruStep hash lru (.set key val allocOk)).2) := by
  have hinv' := hs.inv.getImpl key val.length true allocOk
  rcases lruGetImpl_cases hash lru key val.length true allocOk with ⟨hitems, hr⟩ | ⟨i, hother, hres⟩
  · rcases hr with hnone | ⟨i, it, hit, hkey, hval, hsome⟩
    · rw [lruStep_set_none hnone]
      exact hs.of_kept hinv' hitems
    · -- found: the write goes over the old value
      have hit' : ((lruGetImpl hash lru key val.length true allocOk).1.groups
          (lruGroupOf lru (hash key))).items i = some it := by rw [hitems, hit]
      have hslot := lruWriteVal_items_self (lruGetImpl hash lru key val.length true allocOk).1
        (lruGroupOf lru (hash key)) i val
      rw [hit', Option.map_some] at hslot
      rw [lruStep_set_some hsome, lruSlotVal, hslot, Option.map_some]
      dsimp only
      have hold : H key = some it.val := hkey ▸ hs.hist _ _ it hit
      have hH : lruHistStep H (.set key val allocOk) (some ((it.writeVal val).val, false)) =
          Function.update H (it.writeVal val).key (some (it.writeVal val).val) := by
        rw [LruItem.writeVal_key, hkey]
        simp [lruHistStep, hold, LruItem.writeVal]
      rw [hH]
      have hinv'' := hinv'.writeVal hit' (hval rfl)
      refine ⟨hinv'', hs.hist.update hinv'' hslot fun gi j hne => ?_⟩
      rw [lruWriteVal_items_of_ne _ val hne, hitems]
  · rcases hres with ⟨hslot, hsome⟩ | ⟨hslot, hnone⟩
    · -- inserted: the write fills the cleared value
      have hslot' := lruWriteVal_items_self (lruGetImpl hash lru key val.length true allocOk).1
        (lruGroupOf lru (hash key)) i val
      rw [hslot, Option.map_some, LruItem.writeVal_fresh] at hslot'
      rw [lruStep_set_some hsome, lruSlotVal, hslot']
      have hinv'' := hinv'.writeVal hslot le_rfl
      exact ⟨hinv'', hs.hist.update hinv'' hslot' fun gi j hne => by
        rw [lruWriteVal_items_of_ne _ val hne, hother gi j hne]⟩
    · rw [lruStep_set_none hnone]
      exact hs.of_emptied hinv' hother hslot

theorem LruSound.apply {lru : Lru} {H : List UInt8 → Option (List UInt8)} (hs : LruSound hash lru H)
    (evict : List UInt8 → List UInt8 → Bool) :
    LruSound hash (lruStep hash lru (.apply evict)).1
      (lruHistStep H (.apply evict) (lruStep hash lru (.apply evict)).2) := by
  rw [show (lruStep hash lru (.apply evict)).1 = lruApply lru evict from
    congrArg Prod.fst (lruApplyImpl_decide lru evict _ ())]
  exact ⟨hs.inv.apply evict, hs.hist.mono fun _ _ _ h => (lruApply_items lru evict h).1⟩

/-- The step lemma: every operation keeps the invariant of a run. -/
theorem LruSound.step {lru : Lru} {H : List UInt8 → Option (List UInt8)}
    (hs : LruSound hash lru H) :
    ∀ op, LruSound hash (lruStep hash lru op).1 (lruHistStep H op (lruStep hash lru op).2)
  | .getTry key => hs.getTry key
  | .getNew key valLen allocOk => hs.getNew key valLen allocOk
  | .set key val allocOk => hs.set key val allocOk
  | .apply evict => hs.apply evict

end StepInv

section Run

variable {hash : List UInt8 → UInt32}

theorem lruCreate_groups {maxSlots valAlignment : UInt32} {mmArrayOk allocOk : Bool} {lru : Lru}
    (h : lruCreate maxSlots valAlignment mmArrayOk allocOk = some lru) :
    lru.groups = fun _ => LruGroup.zero := by
  unfold lruCreate at h
  dsimp only at h
  split_ifs at h
  cases h
  rfl

theorem lruSound_of_lruCreate {maxSlots valAlignment : UInt32} {mmArrayOk allocOk : Bool}
    {lru : Lru} (h : lruCreate maxSlots valAlignment mmArrayOk allocOk = some lru) :
    LruSound hash lru fun _ => none := by
  refine ⟨lruInv_of_lruCreate h, fun gi i it hit => ?_⟩
  rw [lruCreate_groups h] at hit
  cases hit

/-- The run lemma: the invariant holds after every run. -/
theorem LruSound.run {p : Lru × (List UInt8 → Option (List UInt8))} (hs : LruSound hash p.1 p.2)
    (ops : List LruOp) : LruSound hash (lruRun hash p ops).1 (lruRun hash p ops).2 :=
  Simulation.runObserved_of_step (LruSound hash) (fun _ _ o h => h.step o) ops p hs

/-- A lookup that returns a value returns the stored one, and not as new. -/
theorem LruSound.getTry_some {lru : Lru} {H : List UInt8 → Option (List UInt8)}
    (hs : LruSound hash lru H) {key v : List UInt8} {isNew : Bool}
    (h : (lruStep hash lru (.getTry key)).2 = some (v, isNew)) :
    isNew = false ∧ LruStored lru key ∧ H key = some v := by
  rw [lruStep_getTry] at h
  obtain ⟨hitems, hr⟩ := lruGetImpl_kept_of_lookup hash lru key 4294967295 true
  rcases hr with hnone | ⟨i, it, hit, hkey, -, hsome⟩
  · rw [hnone] at h
    cases h
  · rw [hsome, lruSlotVal, hitems, hit, Option.map_some] at h
    obtain ⟨rfl, rfl⟩ := Prod.mk.inj (Option.some.inj h)
    exact ⟨rfl, ⟨_, i, it, hit, hkey⟩, hkey ▸ hs.hist _ _ it hit⟩

/-- `lru_get_new` returns a zeroed value when it (re)inserts the key, and otherwise the stored
value of the key, which has room for `val_len` octets. -/
theorem LruSound.getNew_some {lru : Lru} {H : List UInt8 → Option (List UInt8)}
    (hs : LruSound hash lru H) {key : List UInt8} {valLen : ℕ} {allocOk : Bool}
    {v : List UInt8} {isNew : Bool}
    (h : (lruStep hash lru (.getNew key valLen allocOk)).2 = some (v, isNew)) :
    (isNew = true → v = List.replicate valLen 0) ∧
      (isNew = false → LruStored lru key ∧ H key = some v ∧ valLen ≤ v.length) := by
  rw [lruStep_getNew] at h
  rcases lruGetImpl_cases hash lru key valLen true allocOk with ⟨hitems, hr⟩ | ⟨i, -, hres⟩
  · rcases hr with hnone | ⟨i, it, hit, hkey, hval, hsome⟩
    · rw [hnone] at h
      cases h
    · -- found: the stored item, at least as large as asked
      rw [hsome, lruSlotVal, hitems, hit, Option.map_some] at h
      obtain ⟨rfl, rfl⟩ := Prod.mk.inj (Option.some.inj h)
      have hlen := ((hs.inv _).sized i it hit).1
      refine ⟨fun h => absurd h Bool.false_ne_true, fun _ => ⟨⟨_, i, it, hit, hkey⟩,
        hkey ▸ hs.hist _ _ it hit, ?_⟩⟩
      rw [hlen]
      exact hval rfl
  · rcases hres with ⟨hslot, hsome⟩ | ⟨-, hnone⟩
    · -- (re)inserted: the value is cleared
      rw [hsome, lruSlotVal, hslot, Option.map_some] at h
      obtain ⟨rfl, rfl⟩ := Prod.mk.inj (Option.some.inj h)
      exact ⟨fun _ => rfl, fun h => absurd h.symm Bool.false_ne_true⟩
    · rw [hnone] at h
      cases h

theorem LruSound.getNew_some_fresh :
    LruSound (fun _ => 0) ⟨0, 8, fun _ => LruGroup.zero⟩ (fun _ => none) ∧
      (lruStep (fun _ => 0) ⟨0, 8, fun _ => LruGroup.zero⟩ (.getNew [1] 2 true)).2 =
        some ([0, 0], true) ∧
      (true = true → [0, 0] = List.replicate 2 (0 : UInt8)) ∧
      (true = false → LruStored ⟨0, 8, fun _ => LruGroup.zero⟩ [1] ∧
        (fun _ => none : List UInt8 → Option (List UInt8)) [1] = some [0, 0] ∧
        2 ≤ [(0 : UInt8), 0].length) :=
  have hs : LruSound (fun _ => 0) ⟨0, 8, fun _ => LruGroup.zero⟩ (fun _ => none) :=
    lruSound_of_lruCreate lruCreate_three
  have h : (lruStep (fun _ => 0) ⟨0, 8, fun _ => LruGroup.zero⟩ (.getNew [1] 2 true)).2 =
      some ([0, 0], true) := rfl
  ⟨hs, h, hs.getNew_some h⟩

/-- The items of a group `lru_apply` visits: the loop clears a slot the callback picks. -/
theorem lruApply_items_of_lt (lru : Lru) (evict : List UInt8 → List UInt8 → Bool) {gi : ℕ}
    (hgi : gi < 2 ^ lru.logGroups) (j : ℕ) :
    ((lruApply lru evict).groups gi).items j =
      if (decide (j < lruAssoc) && ((lru.groups gi).items j).any fun it => evict it.key it.val)
      then none else (lru.groups gi).items j := by
  unfold lruApply
  dsimp only
  rw [if_pos hgi]

/-- A stored item survives `lru_apply` exactly when the callback spares it: its group and slot
are in the range the loop visits. -/
theorem LruInv.apply_item_iff {lru : Lru} (hinv : LruInv hash lru)
    (evict : List UInt8 → List UInt8 → Bool) {gi i : ℕ} {it : LruItem}
    (hold : (lru.groups gi).items i = some it) :
    ((lruApply lru evict).groups gi).items i = some it ↔ evict it.key it.val = false := by
  obtain ⟨hi, hgi⟩ := hinv.slot_of_item hold
  have hlt : gi < 2 ^ lru.logGroups := hgi ▸ Nat.mod_lt _ (Nat.two_pow_pos _)
  rw [lruApply_items_of_lt lru evict hlt]
  cases hev : evict it.key it.val
  · simp [hold, hev]
  · simp [hi, hold, hev]

/-- `lru_apply` evicts exactly the stored items the callback picks: every stored item sits in a
group and a slot the loop visits. -/
theorem LruInv.apply_items {lru : Lru} (hinv : LruInv hash lru)
    (evict : List UInt8 → List UInt8 → Bool) (gi i : ℕ) (it : LruItem) :
    ((lruApply lru evict).groups gi).items i = some it ↔
      (lru.groups gi).items i = some it ∧ evict it.key it.val = false := by
  constructor
  · intro h
    have hold := (lruApply_items lru evict h).1
    exact ⟨hold, (hinv.apply_item_iff evict hold).mp h⟩
  · rintro ⟨hold, hev⟩
    exact (hinv.apply_item_iff evict hold).mpr hev

theorem LruInv.stored_iff_mem_keys {lru : Lru} (hinv : LruInv hash lru) (k : List UInt8) :
    LruStored lru k ↔ k ∈ (lruItemsInOrder lru).map LruItem.key := by
  simp only [List.mem_map, hinv.mem_lruItemsInOrder, LruStored]
  constructor
  · rintro ⟨gi, i, it, hit, rfl⟩
    exact ⟨it, ⟨gi, i, hit⟩, rfl⟩
  · rintro ⟨it, ⟨gi, i, hit⟩, rfl⟩
    exact ⟨gi, i, it, hit, rfl⟩

/-- `lru_apply` with a callback that decides by key and value and folds what it sees into its
baton: a stored item survives exactly when the callback spares it, and the baton has seen every
stored key once, in the order of the loops. -/
theorem LruInv.applyImpl_items {σ : Type*} {lru : Lru} (hinv : LruInv hash lru)
    (evict : List UInt8 → List UInt8 → Bool) (step : σ → List UInt8 → List UInt8 → σ) (b : σ)
    (gi i : ℕ) (it : LruItem) :
    (((lruApplyImpl lru (lruApplyDecide evict step) b).1.groups gi).items i = some it ↔
        (lru.groups gi).items i = some it ∧ evict it.key it.val = false) ∧
      (lruApplyImpl lru (lruApplyDecide evict step) b).2 =
        (lruItemsInOrder lru).foldl (fun b it => step b it.key it.val) b ∧
      ((lruItemsInOrder lru).map LruItem.key).Nodup ∧
      ∀ k, LruStored lru k ↔ k ∈ (lruItemsInOrder lru).map LruItem.key := by
  rw [lruApplyImpl_decide]
  exact ⟨hinv.apply_items evict gi i it, rfl, hinv.keys_nodup, hinv.stored_iff_mem_keys⟩

/-- A callback that keeps every item and collects its key, as `dump_value` does, over the cache
that one `set` of key `[1]` leaves. -/
theorem LruInv.applyImpl_items_collect :
    lruItemsInOrder (lruRun (fun _ => 0) (⟨0, 8, fun _ => LruGroup.zero⟩, fun _ => none)
        [.set [1] [7] true]).1 = [⟨[1], 1, [7]⟩] ∧
      LruInv (fun _ => 0) (lruRun (fun _ => 0) (⟨0, 8, fun _ => LruGroup.zero⟩, fun _ => none)
        [.set [1] [7] true]).1 ∧
      ((((lruApplyImpl (lruRun (fun _ => 0) (⟨0, 8, fun _ => LruGroup.zero⟩, fun _ => none)
          [.set [1] [7] true]).1 (lruApplyDecide (fun _ _ => false) fun ks k _ => ks ++ [k])
          []).1.groups 0).items 0 = some ⟨[1], 1, [7]⟩ ↔
        ((lruRun (fun _ => 0) (⟨0, 8, fun _ => LruGroup.zero⟩, fun _ => none)
          [.set [1] [7] true]).1.groups 0).items 0 = some ⟨[1], 1, [7]⟩ ∧ false = false) ∧
        (lruApplyImpl (lruRun (fun _ => 0) (⟨0, 8, fun _ => LruGroup.zero⟩, fun _ => none)
          [.set [1] [7] true]).1 (lruApplyDecide (fun _ _ => false) fun ks k _ => ks ++ [k])
          []).2 =
          (lruItemsInOrder (lruRun (fun _ => 0) (⟨0, 8, fun _ => LruGroup.zero⟩, fun _ => none)
            [.set [1] [7] true]).1).foldl (fun b it => b ++ [it.key]) [] ∧
        ((lruItemsInOrder (lruRun (fun _ => 0) (⟨0, 8, fun _ => LruGroup.zero⟩, fun _ => none)
            [.set [1] [7] true]).1).map LruItem.key).Nodup ∧
        ∀ k, LruStored (lruRun (fun _ => 0) (⟨0, 8, fun _ => LruGroup.zero⟩, fun _ => none)
            [.set [1] [7] true]).1 k ↔
          k ∈ (lruItemsInOrder (lruRun (fun _ => 0) (⟨0, 8, fun _ => LruGroup.zero⟩,
            fun _ => none) [.set [1] [7] true]).1).map LruItem.key) :=
  have hs : LruSound (fun _ => 0)
      ((⟨0, 8, fun _ => LruGroup.zero⟩, fun _ => none) :
        Lru × (List UInt8 → Option (List UInt8))).1
      ((⟨0, 8, fun _ => LruGroup.zero⟩, fun _ => none) :
        Lru × (List UInt8 → Option (List UInt8))).2 :=
    lruSound_of_lruCreate lruCreate_three
  have hinv := (hs.run [.set [1] [7] true]).inv
  ⟨rfl, hinv, hinv.applyImpl_items (fun _ _ => false) (fun ks k _ => ks ++ [k]) [] 0 0
    ⟨[1], 1, [7]⟩⟩

/-- The stored keys are at most `lru_capacity`: they sit in the slots below `LRU_ASSOC` of the
`2 ^ log_groups` groups, each key in one. -/
theorem LruInv.stored_card {lru : Lru} (hinv : LruInv hash lru) :
    ∃ s : Finset (List UInt8), s.card ≤ lruCapacity lru ∧ ∀ k, LruStored lru k ↔ k ∈ s := by
  let slots := (Finset.range (2 ^ lru.logGroups) ×ˢ Finset.range lruAssoc).filter
    fun p => ((lru.groups p.1).items p.2).isSome
  refine ⟨slots.image fun p => (((lru.groups p.1).items p.2).map LruItem.key).getD [], ?_,
    fun k => ?_⟩
  · calc (slots.image _).card
        ≤ slots.card := Finset.card_image_le
      _ ≤ (Finset.range (2 ^ lru.logGroups) ×ˢ Finset.range lruAssoc).card :=
        Finset.card_filter_le _ _
      _ = lruCapacity lru := by simp [lruCapacity]
  · simp only [Finset.mem_image, Finset.mem_filter, Finset.mem_product, Finset.mem_range, slots,
      Prod.exists]
    constructor
    · rintro ⟨gi, i, it, hit, rfl⟩
      obtain ⟨hi, hgi⟩ := hinv.slot_of_item hit
      refine ⟨gi, i, ⟨⟨?_, hi⟩, by simp [hit]⟩, by simp [hit]⟩
      rw [← hgi]
      exact Nat.mod_lt _ (Nat.two_pow_pos _)
    · rintro ⟨gi, i, ⟨-, hsome⟩, rfl⟩
      obtain ⟨it, hit⟩ := Option.isSome_iff_exists.mp hsome
      exact ⟨gi, i, it, hit, by simp [hit]⟩

/-- What a caller of a cache sees: no key in two slots, at most `lru_capacity` keys, and a lookup
that returns a value returns the stored value of the key, the last one written since the key was
last (re)inserted. -/
structure LruCallerView (hash : List UInt8 → UInt32) (lru : Lru)
    (H : List UInt8 → Option (List UInt8)) : Prop where
  slot_unique : ∀ gi gi' i i' a b, (lru.groups gi).items i = some a →
    (lru.groups gi').items i' = some b → a.key = b.key → (gi, i) = (gi', i')
  stored_card : ∃ s : Finset (List UInt8), s.card ≤ lruCapacity lru ∧ ∀ k, LruStored lru k ↔ k ∈ s
  getTry_some : ∀ key v isNew, (lruStep hash lru (.getTry key)).2 = some (v, isNew) →
    isNew = false ∧ LruStored lru key ∧ H key = some v

theorem LruSound.callerView {lru : Lru} {H : List UInt8 → Option (List UInt8)}
    (hs : LruSound hash lru H) : LruCallerView hash lru H where
  slot_unique _ _ _ _ _ _ ha hb hab := hs.inv.slot_unique ha hb hab
  stored_card := hs.inv.stored_card
  getTry_some _ _ _ h := hs.getTry_some h

theorem lruRun_callerView (hash : List UInt8 → UInt32) {maxSlots valAlignment : UInt32}
    {mmArrayOk allocOk : Bool} {lru0 : Lru}
    (hcreate : lruCreate maxSlots valAlignment mmArrayOk allocOk = some lru0) (ops : List LruOp) :
    LruCallerView hash (lruRun hash (lru0, fun _ => none) ops).1
      (lruRun hash (lru0, fun _ => none) ops).2 :=
  (LruSound.run (lruSound_of_lruCreate hcreate) ops).callerView

theorem lruRun_callerView_collide :
    lruCreate 3 8 true true = some ⟨0, 8, fun _ => LruGroup.zero⟩ ∧
      LruCallerView (fun _ => 0)
        (lruRun (fun _ => 0) (⟨0, 8, fun _ => LruGroup.zero⟩, fun _ => none)
          [.set [1] [7] true, .set [2] [8] true, .getTry [1]]).1
        (lruRun (fun _ => 0) (⟨0, 8, fun _ => LruGroup.zero⟩, fun _ => none)
          [.set [1] [7] true, .set [2] [8] true, .getTry [1]]).2 :=
  have h : lruCreate 3 8 true true = some ⟨0, 8, fun _ => LruGroup.zero⟩ := by
    unfold lruCreate
    rw [lruLogGroups]
    rfl
  ⟨h, lruRun_callerView _ h _⟩

end Run

end KnotResolver
