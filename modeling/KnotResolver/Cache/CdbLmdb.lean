import KnotResolver.Lib.SortedStore
import KnotResolver.RRset

/-!
# The LMDB database of the cache and of the rules

`lib/cache/cdb_lmdb.c`: the searches by key order (`cdb_read_leq`, `cdb_read_less`) and the
walk over the values of one key (`cdb_it_first`, `cdb_it_next`), all on the read cursor of the
transaction, and the read and write of one key (`cdb_readv`, `cdb_write`). The database is a
sorted store of byte-string keys and values, in `memcmp` order with a proper prefix first; the rule database is opened with `MDB_DUPSORT`, so one key may
carry several values, next to each other. A read returns its code and the cursor it leaves:
the entry under the cursor is the key and value it hands back.

`lmdb_error` turns `MDB_NOTFOUND` into `kr_error(ENOENT)`; no other LMDB error is modelled.
-/

namespace KnotResolver

open SortedStore

/-- The content of a database: its entries in key order. -/
abbrev Cdb := List (List UInt8 × List UInt8)

/-- `cdb_read_leq`: the entry of `key` itself, code 0, or else the entry before the first one
above `key`, code 1. -/
def cdbReadLeq (db : Cdb) (key : List UInt8) : ℤ × Option ℕ :=
  match setRange db key with
  | none => (krError Errno.enoent, none)
  | some i =>
    -- the equality test on the entry that MDB_SET_RANGE found
    if (db[i]?.map Prod.fst) = some key then (0, some i)
    else match prev i with
      | some j => (1, some j)
      | none => (krError Errno.enoent, none)

/-- `cdb_read_less`: the last entry of the key before the one under the cursor, code 1. -/
def cdbReadLess (db : Cdb) (cursor : ℕ) : ℤ × Option ℕ :=
  match prevNodup db cursor with
  | some j => (1, some j)
  | none => (krError Errno.enoent, none)

/-- `cdb_it_first`: the first value of `key`. -/
def cdbItFirst (db : Cdb) (key : List UInt8) : ℤ × Option ℕ :=
  match setKey db key with
  | some i => (krOk, some i)
  | none => (krError Errno.enoent, none)

/-- `cdb_it_next`: the next value of the key under the cursor; at the last one the cursor
stays where it is. -/
def cdbItNext (db : Cdb) (cursor : ℕ) : ℤ × Option ℕ :=
  match nextDup db cursor with
  | some j => (krOk, some j)
  | none => (krError Errno.enoent, some cursor)

/-- cdb_readv of one key: its first value, as mdb_get gives it on a MDB_DUPSORT database. -/
def cdbRead (db : Cdb) (key : List UInt8) : Except ℤ (List UInt8) :=
  match setKey db key with
  | some i => .ok (db.getD i ([], [])).2
  | none => .error (krError Errno.enoent)

/-- cdb_write on the rule database, opened with MDB_DUPSORT and written with MDB_NODUPDATA: the
pair joins the values of its key in value order, and a pair already there is not added again. -/
def cdbWrite (db : Cdb) (key val : List UInt8) : Cdb :=
  if (key, val) ∈ db then db
  else
    let before : List UInt8 × List UInt8 → Bool := fun e => decide (e.1 < key ∨ (e.1 = key ∧ e.2 < val))
    db.takeWhile before ++ (key, val) :: db.dropWhile before

section ReadLeq

variable {db : Cdb} {key : List UInt8}

theorem krError_enoent_ne_one : krError Errno.enoent ≠ 1 := by decide

/-- A key that is present is found, with code 0, at its first entry. -/
theorem cdbReadLeq_of_mem (hs : Sorted db) (hk : ∃ e ∈ db, e.1 = key) :
    ∃ i, cdbReadLeq db key = (0, some i) ∧ ∃ h : i < db.length, db[i].1 = key := by
  obtain ⟨e, he, rfl⟩ := hk
  obtain ⟨j, hj, rfl⟩ := List.getElem_of_mem he
  obtain ⟨i, hi⟩ : ∃ i, setRange db db[j].1 = some i := by
    refine Option.ne_none_iff_exists'.mp fun h => ?_
    exact lt_irrefl _ (setRange_eq_none_iff.mp h _ he)
  have hil := lt_length_of_setRange hi
  -- the entry found is at most the key: the key's own entry is not below it
  have hij : i ≤ j := not_lt.mp fun hji => lt_irrefl _ (lt_of_lt_setRange hi hji hj)
  have heq : db[i].1 = db[j].1 := le_antisymm
    (hs.le_of_le hil hj hij) (le_of_setRange hi hil)
  refine ⟨i, ?_, hil, heq⟩
  simp [cdbReadLeq, hi, List.getElem?_eq_getElem hil, heq]

/-- An absent key between two keys of the store is answered, with code 1, by the last entry
below it, which carries the greatest key below `key`. -/
theorem cdbReadLeq_of_between (hs : Sorted db) (hk : ∀ e ∈ db, e.1 ≠ key)
    (hlo : ∃ e ∈ db, e.1 < key) (hhi : ∃ e ∈ db, key < e.1) :
    ∃ j, cdbReadLeq db key = (1, some j) ∧ ∃ h : j < db.length,
      db[j].1 < key ∧ ∀ e ∈ db, e.1 < key → e.1 ≤ db[j].1 := by
  obtain ⟨i, hi⟩ : ∃ i, setRange db key = some i := by
    obtain ⟨e, he, hlt⟩ := hhi
    refine Option.ne_none_iff_exists'.mp fun h => ?_
    exact lt_asymm hlt (setRange_eq_none_iff.mp h _ he)
  have hil := lt_length_of_setRange hi
  have hne : db[i].1 ≠ key := hk _ (List.getElem_mem hil)
  -- a key below `key` sits below the entry found, so that entry is not the first one
  obtain ⟨j, rfl⟩ : ∃ j, i = j + 1 := by
    obtain ⟨e, he, hlt⟩ := hlo
    obtain ⟨m, hm, rfl⟩ := List.getElem_of_mem he
    exact Nat.exists_eq_add_one.mpr (Nat.lt_of_le_of_lt (Nat.zero_le m)
      (lt_setRange_of_lt hs hi hm hlt))
  have hjl : j < db.length := by omega
  refine ⟨j, ?_, hjl, lt_of_lt_setRange hi (Nat.lt_succ_self j) hjl, fun e he hlt => ?_⟩
  · simp [cdbReadLeq, hi, List.getElem?_eq_getElem hil, hne, prev]
  · exact (le_of_lt_of_setRange hs hi he hlt).2

/-- A search above every key of the store misses, whatever keys lie below it. -/
theorem cdbReadLeq_above_all (hall : ∀ e ∈ db, e.1 < key) :
    cdbReadLeq db key = (krError Errno.enoent, none) := by
  simp [cdbReadLeq, setRange_eq_none_iff.mpr hall]

theorem cdbReadLeq_above_all_one_key :
    cdbReadLeq [([1], [])] [2] = (krError Errno.enoent, none) :=
  cdbReadLeq_above_all (by decide)

/-- A search below every key of the store misses. -/
theorem cdbReadLeq_below_all (hall : ∀ e ∈ db, key < e.1) :
    cdbReadLeq db key = (krError Errno.enoent, none) := by
  cases db with
  | nil => rfl
  | cons e es =>
    have h0 : setRange (e :: es) key = some 0 :=
      setRange_eq_some_iff.mpr ⟨by simp, le_of_lt (hall e (by simp)), fun j hj => by omega⟩
    simp [cdbReadLeq, h0, (hall e (by simp)).ne', prev]

/-- In a sorted store the search misses exactly when every key is below `key` or every key is
above it. -/
theorem cdbReadLeq_fst_eq_enoent_iff (hs : Sorted db) :
    (cdbReadLeq db key).1 = krError Errno.enoent ↔
      (∀ e ∈ db, e.1 < key) ∨ (∀ e ∈ db, key < e.1) := by
  by_cases hk : ∃ e ∈ db, e.1 = key
  · obtain ⟨i, hr, -⟩ := cdbReadLeq_of_mem hs hk
    obtain ⟨e, he, rfl⟩ := hk
    rw [hr]
    refine iff_of_false (fun h => krError_enoent_ne_zero h.symm) ?_
    rintro (h | h) <;> exact lt_irrefl _ (h e he)
  push Not at hk
  by_cases hhi : ∃ e ∈ db, key < e.1
  · by_cases hlo : ∃ e ∈ db, e.1 < key
    · obtain ⟨j, hr, -⟩ := cdbReadLeq_of_between hs hk hlo hhi
      rw [hr]
      refine iff_of_false (fun h => krError_enoent_ne_one h.symm) ?_
      obtain ⟨e, he, hlt⟩ := hlo
      obtain ⟨e', he', hgt⟩ := hhi
      rintro (h | h)
      · exact lt_asymm hgt (h e' he')
      · exact lt_asymm hlt (h e he)
    -- no key below and none equal: every key is above
    · push Not at hlo
      have hall : ∀ e ∈ db, key < e.1 := fun e he => lt_of_le_of_ne (hlo e he) (hk e he).symm
      rw [cdbReadLeq_below_all hall]
      exact iff_of_true rfl (.inr hall)
  -- no key above and none equal: every key is below
  · push Not at hhi
    have hall : ∀ e ∈ db, e.1 < key := fun e he => lt_of_le_of_ne (hhi e he) (hk e he)
    rw [cdbReadLeq_above_all hall]
    exact iff_of_true rfl (.inl hall)

end ReadLeq

section Write

variable {db : Cdb} {key val : List UInt8}

theorem mem_cdbWrite {e : List UInt8 × List UInt8} :
    e ∈ cdbWrite db key val ↔ e ∈ db ∨ e = (key, val) := by
  unfold cdbWrite
  split_ifs with hmem
  · exact ⟨.inl, fun h => h.elim id fun he => he ▸ hmem⟩
  · -- the entries around the new one are those of the store, split where it goes
    have hsplit := List.takeWhile_append_dropWhile (p := fun e : List UInt8 × List UInt8 =>
      decide (e.1 < key ∨ (e.1 = key ∧ e.2 < val))) (l := db)
    conv_rhs => rw [← hsplit]
    simp only [List.mem_append, List.mem_cons]
    tauto

/-- Writing keeps the store in key order. -/
theorem sorted_cdbWrite (hs : Sorted db) : Sorted (cdbWrite db key val) := by
  unfold cdbWrite
  split_ifs with hmem
  · exact hs
  set before : List UInt8 × List UInt8 → Bool := fun e => decide (e.1 < key ∨ (e.1 = key ∧ e.2 < val))
  have hsplit := List.takeWhile_append_dropWhile (p := before) (l := db)
  have hs' : Sorted (db.takeWhile before ++ db.dropWhile before) := by rwa [hsplit]
  unfold Sorted at hs' ⊢
  rw [List.pairwise_append] at hs'
  obtain ⟨hlo, hhi, hcross⟩ := hs'
  -- what comes before the new entry has a key up to it, what comes after one at least it
  have hle : ∀ a ∈ db.takeWhile before, a.1 ≤ key := by
    intro a ha
    have h := List.mem_takeWhile_imp ha
    simp only [before, decide_eq_true_eq] at h
    rcases h with h | ⟨h, -⟩
    · exact le_of_lt h
    · exact le_of_eq h
  have hge : ∀ b ∈ db.dropWhile before, key ≤ b.1 := by
    intro b hb
    obtain ⟨h0, t, ht⟩ : ∃ h0 t, db.dropWhile before = h0 :: t := by
      cases hd : db.dropWhile before with
      | nil => rw [hd] at hb; cases hb
      | cons h0 t => exact ⟨h0, t, rfl⟩
    have hh0 : ¬ (h0.1 < key ∨ (h0.1 = key ∧ h0.2 < val)) := by
      have h := List.head?_dropWhile_not before db
      rw [ht, List.head?_cons] at h
      simpa [before] using h
    have hkey : key ≤ h0.1 := by
      by_contra hlt
      exact hh0 (.inl (lt_of_not_ge hlt))
    rw [ht] at hb hhi
    rcases List.mem_cons.mp hb with rfl | hb
    · exact hkey
    · exact hkey.trans ((List.pairwise_cons.mp hhi).1 b hb)
  rw [List.pairwise_append, List.pairwise_cons]
  refine ⟨hlo, ⟨hge, hhi⟩, fun a ha b hb => ?_⟩
  rcases List.mem_cons.mp hb with rfl | hb
  · exact hle a ha
  · exact hcross a ha b hb

end Write

section Read

variable {db : Cdb} {key : List UInt8}

/-- In a sorted store a read finds the first entry of the key. -/
theorem cdbRead_eq_find? (hs : Sorted db) :
    cdbRead db key = match db.find? (fun e => e.1 = key) with
      | some e => .ok e.2
      | none => .error (krError Errno.enoent) := by
  unfold cdbRead
  cases hk : setKey db key with
  | some i =>
    obtain ⟨hi, hki, hbefore⟩ := setKey_spec hk
    have hfind : db.find? (fun e => e.1 = key) = some db[i] := by
      rw [List.find?_eq_some_iff_getElem]
      refine ⟨by simpa using hki, i, hi, rfl, fun j hj => ?_⟩
      simpa using (hbefore j hj).ne
    simp [hfind, List.getD_eq_getElem?_getD, List.getElem?_eq_getElem hi]
  | none =>
    have hfind : db.find? (fun e => e.1 = key) = none := by
      rw [List.find?_eq_none]
      intro e he hek
      obtain ⟨i, hi⟩ := setKey_isSome hs he
      rw [show e.1 = key by simpa using hek, hk] at hi
      cases hi
    simp [hfind]

/-- A write leaves what a read of another key finds. -/
theorem cdbRead_cdbWrite_of_ne (hs : Sorted db) {k val : List UInt8} (hne : k ≠ key) :
    cdbRead (cdbWrite db k val) key = cdbRead db key := by
  rw [cdbRead_eq_find? (sorted_cdbWrite hs), cdbRead_eq_find? hs]
  unfold cdbWrite
  split_ifs with hmem
  · rfl
  · have hsplit := List.takeWhile_append_dropWhile (p := fun e : List UInt8 × List UInt8 =>
      decide (e.1 < k ∨ (e.1 = k ∧ e.2 < val))) (l := db)
    conv_rhs => rw [← hsplit]
    simp only [List.find?_append, List.find?_cons, hne, decide_false]

end Read

end KnotResolver
