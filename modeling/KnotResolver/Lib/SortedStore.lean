import Mathlib

/-!
# A sorted store with a cursor

A store of key–value entries kept in key order, the entries of one key next to each other, and
a cursor on one of them: the database and cursor of LMDB, with its positioning operations as
LMDB documents them (`MDB_SET_RANGE`, `MDB_SET`, `MDB_PREV`, `MDB_PREV_NODUP`,
`MDB_NEXT_DUP`). A position is an index into the entries. What the operations find is stated
through the order of the keys: the first entry at or above a key, the last one below it.

Byte strings are ordered as lists of unsigned octets, the order of `memcmp` with a proper
prefix first.
-/

namespace SortedStore

/-- Octets ordered as unsigned values, with the `≤` and `<` of the octets themselves; scoped, so
that only a module that opens the store orders octets through it. -/
scoped instance uint8LinearOrder : LinearOrder UInt8 where
  le_refl := UInt8.le_refl
  le_trans _ _ _ := UInt8.le_trans
  lt_iff_le_not_ge a b := by
    rw [UInt8.not_le]
    exact ⟨fun h => ⟨UInt8.le_of_lt h, h⟩, fun h => h.2⟩
  le_antisymm _ _ := UInt8.le_antisymm
  le_total := UInt8.le_total
  toDecidableLE := inferInstance
  toDecidableEq := inferInstance
  toDecidableLT := inferInstance
  min_def a b := by simp [min]
  max_def a b := by simp [max]

variable {κ ν : Type*} [LinearOrder κ]

/-- Entries in key order. -/
def Sorted (es : List (κ × ν)) : Prop := es.Pairwise fun a b => a.1 ≤ b.1

/-- Entries in strict key order: a map, each key once. -/
def StrictlySorted (es : List (κ × ν)) : Prop := es.Pairwise fun a b => a.1 < b.1

theorem StrictlySorted.sorted {es : List (κ × ν)} (h : StrictlySorted es) : Sorted es :=
  h.imp le_of_lt

/-- `MDB_SET_RANGE`: the first entry whose key is at least `k`. -/
def setRange (es : List (κ × ν)) (k : κ) : Option ℕ := es.findIdx? fun e => decide (k ≤ e.1)

/-- `MDB_PREV`: the entry before the cursor. -/
def prev : ℕ → Option ℕ
  | 0 => none
  | i + 1 => some i

/-- `MDB_PREV_NODUP`: the last entry of the key before the one at the cursor. -/
def prevNodup (es : List (κ × ν)) (i : ℕ) : Option ℕ :=
  match es[i]? with
  | some e => (setRange es e.1).bind prev
  | none => none

/-- `MDB_SET` and `MDB_FIRST_DUP`: the first entry of key `k`. -/
def setKey (es : List (κ × ν)) (k : κ) : Option ℕ :=
  match setRange es k with
  | some i => if (es[i]?.map Prod.fst) = some k then some i else none
  | none => none

/-- `MDB_NEXT_DUP`: the next entry of the key at the cursor. -/
def nextDup (es : List (κ × ν)) (i : ℕ) : Option ℕ :=
  match es[i]?, es[i + 1]? with
  | some e, some e' => if e'.1 = e.1 then some (i + 1) else none
  | _, _ => none

/-- In a sorted store the keys rise with the index. -/
theorem Sorted.le_of_le {es : List (κ × ν)} (hs : Sorted es) {i j : ℕ} (hi : i < es.length)
    (hj : j < es.length) (hij : i ≤ j) : es[i].1 ≤ es[j].1 := by
  rcases hij.lt_or_eq with hlt | rfl
  · exact List.pairwise_iff_getElem.mp hs i j hi hj hlt
  · exact le_rfl

/-! ## The first entry at or above a key -/

section SetRange

variable {es : List (κ × ν)} {k : κ} {i : ℕ}

theorem setRange_eq_none_iff : setRange es k = none ↔ ∀ e ∈ es, e.1 < k := by
  simp [setRange]

theorem setRange_eq_some_iff : setRange es k = some i ↔
    ∃ h : i < es.length, k ≤ es[i].1 ∧ ∀ j (hj : j < i), es[j].1 < k := by
  unfold setRange
  rw [List.findIdx?_eq_some_iff_getElem]
  simp only [decide_eq_true_eq, not_le]

theorem lt_length_of_setRange (h : setRange es k = some i) : i < es.length :=
  (setRange_eq_some_iff.mp h).1

theorem le_of_setRange (h : setRange es k = some i) (hi : i < es.length) : k ≤ es[i].1 :=
  (setRange_eq_some_iff.mp h).2.1

/-- Below the entry found every key is below `k`. -/
theorem lt_of_lt_setRange (h : setRange es k = some i) {j : ℕ} (hj : j < i)
    (hjl : j < es.length) : es[j].1 < k :=
  (setRange_eq_some_iff.mp h).2.2 j hj

/-- In a sorted store, from the entry found on every key is at least `k`. -/
theorem le_of_setRange_le (hs : Sorted es) (h : setRange es k = some i) {j : ℕ}
    (hij : i ≤ j) (hj : j < es.length) : k ≤ es[j].1 := by
  have hi := lt_length_of_setRange h
  exact (le_of_setRange h hi).trans (hs.le_of_le hi hj hij)

/-- In a sorted store, a key below `k` sits below the entry found. -/
theorem lt_setRange_of_lt (hs : Sorted es) (h : setRange es k = some i) {j : ℕ}
    (hj : j < es.length) (hlt : es[j].1 < k) : j < i := by
  by_contra hij
  exact absurd (le_of_setRange_le hs h (not_lt.mp hij) hj) (not_le.mpr hlt)

end SetRange

/-! ## The last entry below a key -/

section Below

variable {es : List (κ × ν)} {k : κ} {i : ℕ}

/-- In a sorted store, the entry before the first one at or above `k` carries the greatest key
below `k`. -/
theorem le_of_lt_of_setRange (hs : Sorted es) (h : setRange es k = some (i + 1)) {e : κ × ν}
    (he : e ∈ es) (hlt : e.1 < k) : ∃ hi : i < es.length, e.1 ≤ es[i].1 := by
  have hlen := lt_length_of_setRange h
  obtain ⟨j, hj, rfl⟩ := List.getElem_of_mem he
  have hji : j < i + 1 := lt_setRange_of_lt hs h hj hlt
  have hil : i < es.length := by omega
  exact ⟨hil, hs.le_of_le hj hil (by omega)⟩

end Below

/-! ## The store as a map -/

section Map

/-- The entry of `k` set to `f` of its value, or inserted in key order where `k` is missing. -/
def upsert (k : κ) (f : Option ν → ν) : List (κ × ν) → List (κ × ν)
  | [] => [(k, f none)]
  | e :: es =>
    if k < e.1 then (k, f none) :: e :: es
    else if k = e.1 then (k, f (some e.2)) :: es
    else e :: upsert k f es

/-- The entry of the greatest key at most `k`. -/
def getLeq (es : List (κ × ν)) (k : κ) : Option (κ × ν) := (es.filter fun e => e.1 ≤ k).getLast?

variable {k : κ} {f : Option ν → ν}

/-- An entry after an upsert is one that was there, or the one of `k`, made by `f` from nothing
or from a value `k` had. -/
theorem mem_upsert {e : κ × ν} : ∀ {es : List (κ × ν)}, e ∈ upsert k f es →
    e ∈ es ∨ (e.1 = k ∧ (e.2 = f none ∨ ∃ v, (k, v) ∈ es ∧ e.2 = f (some v)))
  | [], h => by
    simp only [upsert, List.mem_singleton] at h
    exact .inr ⟨by rw [h], .inl (by rw [h])⟩
  | e' :: es, h => by
    unfold upsert at h
    split_ifs at h with hlt heq
    · rcases List.mem_cons.mp h with rfl | h
      · exact .inr ⟨rfl, .inl rfl⟩
      · exact .inl h
    · rcases List.mem_cons.mp h with rfl | h
      · exact .inr ⟨rfl, .inr ⟨e'.2, by rw [heq]; exact List.mem_cons_self, rfl⟩⟩
      · exact .inl (List.mem_cons_of_mem _ h)
    · rcases List.mem_cons.mp h with rfl | h
      · exact .inl List.mem_cons_self
      · rcases mem_upsert h with h | ⟨hk, hv | ⟨v, hv, hfv⟩⟩
        · exact .inl (List.mem_cons_of_mem _ h)
        · exact .inr ⟨hk, .inl hv⟩
        · exact .inr ⟨hk, .inr ⟨v, List.mem_cons_of_mem _ hv, hfv⟩⟩

theorem mem_of_getLeq {es : List (κ × ν)} {e : κ × ν} (h : getLeq es k = some e) :
    e ∈ es ∧ e.1 ≤ k := by
  have hmem := List.mem_of_getLast? h
  simp only [List.mem_filter, decide_eq_true_eq] at hmem
  exact hmem

end Map

/-! ## Moving between keys -/

section Moves

variable {es : List (κ × ν)} {k : κ} {i j : ℕ}

/-- MDB_PREV_NODUP lands below the first entry of the key at the cursor, on the greatest key
below it. -/
theorem prevNodup_spec (hs : Sorted es) (hi : i < es.length) (h : prevNodup es i = some j) :
    ∃ hj : j < es.length, es[j].1 < es[i].1 ∧ j < i ∧
      ∀ e ∈ es, e.1 < es[i].1 → e.1 ≤ es[j].1 := by
  rw [prevNodup, List.getElem?_eq_getElem hi] at h
  obtain ⟨m, hm, hprev⟩ := Option.bind_eq_some_iff.mp h
  obtain ⟨m, rfl⟩ : ∃ m', m = m' + 1 := by
    cases m with
    | zero => simp [prev] at hprev
    | succ m' => exact ⟨m', rfl⟩
  obtain rfl : m = j := by simpa [prev] using hprev
  have hml := lt_length_of_setRange hm
  -- the entry found is at or below the cursor, whose key is at least its own
  have hle : m + 1 ≤ i := not_lt.mp fun hlt =>
    lt_irrefl _ (lt_of_lt_setRange hm hlt hi)
  refine ⟨by omega, lt_of_lt_setRange hm (Nat.lt_succ_self m) (by omega), by omega,
    fun e he hlt => (le_of_lt_of_setRange hs hm he hlt).2⟩

/-- MDB_PREV_NODUP fails only at the least key. -/
theorem le_of_prevNodup_eq_none (hs : Sorted es) (hi : i < es.length) (h : prevNodup es i = none) :
    ∀ e ∈ es, es[i].1 ≤ e.1 := by
  obtain ⟨m, hm⟩ : ∃ m, setRange es es[i].1 = some m :=
    Option.ne_none_iff_exists'.mp fun h0 => lt_irrefl _ (setRange_eq_none_iff.mp h0 _ (List.getElem_mem hi))
  simp only [prevNodup, List.getElem?_eq_getElem hi, hm, Option.bind_some] at h
  obtain rfl : m = 0 := by
    cases m with
    | zero => rfl
    | succ m => simp [prev] at h
  intro e he
  obtain ⟨n, hn, rfl⟩ := List.getElem_of_mem he
  exact le_of_setRange_le hs hm (Nat.zero_le n) hn

/-- MDB_SET finds the first entry of its key. -/
theorem setKey_spec (h : setKey es k = some i) :
    ∃ hi : i < es.length, es[i].1 = k ∧ ∀ j (hj : j < i), es[j].1 < k := by
  unfold setKey at h
  split at h
  · rename_i m hm
    split_ifs at h with hk
    cases h
    have hml := lt_length_of_setRange hm
    rw [List.getElem?_eq_getElem hml, Option.map_some, Option.some_inj] at hk
    exact ⟨hml, hk, fun j hj => lt_of_lt_setRange hm hj (by omega)⟩
  · cases h

/-- MDB_SET finds a key that is present. -/
theorem setKey_isSome (hs : Sorted es) {e : κ × ν} (he : e ∈ es) : ∃ i, setKey es e.1 = some i := by
  obtain ⟨m, hm⟩ : ∃ m, setRange es e.1 = some m :=
    Option.ne_none_iff_exists'.mp fun h0 => lt_irrefl _ (setRange_eq_none_iff.mp h0 _ he)
  have hml := lt_length_of_setRange hm
  obtain ⟨n, hn, rfl⟩ := List.getElem_of_mem he
  -- the entry found is not above the key's own entry, so it carries the key
  have hmn : m ≤ n := not_lt.mp fun hlt => lt_irrefl _ (lt_of_lt_setRange hm hlt hn)
  have heq : es[m].1 = es[n].1 := le_antisymm (hs.le_of_le hml hn hmn) (le_of_setRange hm hml)
  exact ⟨m, by simp [setKey, hm, List.getElem?_eq_getElem hml, heq]⟩

/-- MDB_NEXT_DUP moves one entry on, within the key. -/
theorem nextDup_spec (h : nextDup es i = some j) :
    j = i + 1 ∧ ∃ hi : i + 1 < es.length, es[i + 1].1 = es[i].1 := by
  cases he : es[i]? with
  | none => simp [nextDup, he] at h
  | some e =>
    cases he' : es[i + 1]? with
    | none => simp [nextDup, he, he'] at h
    | some e' =>
      simp only [nextDup, he, he', Option.ite_none_right_eq_some, Option.some_inj] at h
      obtain ⟨hk, rfl⟩ := h
      obtain ⟨hl, rfl⟩ := List.getElem?_eq_some_iff.mp he'
      obtain ⟨_, rfl⟩ := List.getElem?_eq_some_iff.mp he
      exact ⟨rfl, hl, hk⟩

/-- MDB_NEXT_DUP fails at the last entry of the key. -/
theorem nextDup_eq_none (hi : i < es.length) (h : nextDup es i = none) (hi' : i + 1 < es.length) :
    es[i + 1].1 ≠ es[i].1 := by
  intro heq
  simp [nextDup, List.getElem?_eq_getElem hi, List.getElem?_eq_getElem hi', heq] at h

end Moves

end SortedStore
