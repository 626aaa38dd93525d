import KnotResolver.Lib.ListLex

/-!
# Domain names

A wire-format domain name is modelled by its labels, leftmost first, with the root label
left implicit; a label carries the wire-format bounds (one to 63 octets). The libknot
functions on names that the resolver calls (`knot_dname_labels`, `knot_dname_next_label`,
`knot_dname_matched_labels`, `knot_dname_in_bailiwick`, `knot_dname_to_lower`,
`knot_dname_is_wildcard`) follow their documented behaviour; labels are compared
octet by octet, as libknot's `label_is_equal` does.

Names are ordered by their labels read from the root, each label as an octet string
(`memcmp`, then length). On lower-case names this is the canonical order of RFC 4034
section 6.1; `dname_cmp` of `lib/dnssec/nsec.c` computes it.
-/

namespace KnotResolver

/-- A label of a wire-format name: one to 63 octets. -/
structure Label where
  bytes : List UInt8
  bytes_ne_nil : bytes ≠ []
  length_le : bytes.length ≤ 63
  deriving DecidableEq

namespace Label

/-- The octets as unsigned values, the order `memcmp` compares them in. -/
def values (l : Label) : List ℕ := l.bytes.map UInt8.toNat

theorem values_injective : Function.Injective values := by
  intro a b h
  have hb : a.bytes = b.bytes :=
    List.map_injective_iff.mpr (fun _ _ h => UInt8.toNat_inj.mp h) h
  cases a
  cases b
  simp_all

instance : LinearOrder Label := LinearOrder.lift' values values_injective

theorem lt_iff_values_lt {a b : Label} : a < b ↔ a.values < b.values := Iff.rfl

/-- Labels compare as their octet strings do under `memcmp`. -/
theorem bytes_lt_iff {a b : Label} : a.bytes < b.bytes ↔ a < b :=
  (ListLex.map_lt_map_iff (fun _ _ => UInt8.lt_iff_toNat_lt.symm)
    (fun _ _ h => UInt8.toNat_inj.mp h)).symm.trans lt_iff_values_lt.symm

/-- The label `*` of a wildcard owner. -/
def asterisk : Label := ⟨[42], by simp, by simp⟩

/-- ASCII lower-casing of one octet. -/
def lowerByte (b : UInt8) : UInt8 := if 65 ≤ b ∧ b ≤ 90 then b + 32 else b

def toLower (l : Label) : Label :=
  ⟨l.bytes.map lowerByte, by simpa using l.bytes_ne_nil, by simpa using l.length_le⟩

end Label

/-- A wire-format domain name, by its labels from the leftmost one. -/
structure Dname where
  labels : List Label
  deriving DecidableEq

namespace Dname

def root : Dname := ⟨[]⟩

/-- The labels read from the root: the order in which names are compared. -/
def key (d : Dname) : List Label := d.labels.reverse

theorem key_injective : Function.Injective key := by
  intro a b h
  cases a
  cases b
  simpa [key] using h

instance : LinearOrder Dname := LinearOrder.lift' key key_injective

theorem lt_iff_key_lt {a b : Dname} : a < b ↔ a.key < b.key := Iff.rfl

def toLower (d : Dname) : Dname := ⟨d.labels.map Label.toLower⟩

/-- A name all of whose octets are already lower case. -/
def IsLower (d : Dname) : Prop := d.toLower = d

instance : DecidablePred IsLower := fun d => inferInstanceAs (Decidable (d.toLower = d))

/-- The canonical order of RFC 4034 section 6.1. -/
def CanonicalLt (a b : Dname) : Prop := a.toLower < b.toLower

instance : DecidableRel CanonicalLt := fun a b => inferInstanceAs (Decidable (a.toLower < b.toLower))

theorem canonicalLt_iff_of_isLower {a b : Dname} (ha : a.IsLower) (hb : b.IsLower) :
    CanonicalLt a b ↔ a < b := by
  rw [CanonicalLt, ha, hb]

/-- `a` is `d` itself or one of its ancestors. -/
def IsAncestorOrSelf (a d : Dname) : Prop := a.key <+: d.key

instance : DecidableRel IsAncestorOrSelf := fun a d => inferInstanceAs (Decidable (a.key <+: d.key))

theorem IsAncestorOrSelf.trans {a b c : Dname} (hab : a.IsAncestorOrSelf b)
    (hbc : b.IsAncestorOrSelf c) : a.IsAncestorOrSelf c :=
  List.IsPrefix.trans hab hbc

/-- The name `*.d`. -/
def wildcard (d : Dname) : Dname := ⟨Label.asterisk :: d.labels⟩

/-- The ancestor-or-self of `d` with `k` labels (all of `d` when `k` is larger). -/
def suffix (d : Dname) (k : ℕ) : Dname := ⟨d.labels.drop (d.labels.length - k)⟩

theorem key_suffix (d : Dname) (k : ℕ) : (d.suffix k).key = d.key.take k := by
  simp only [key, suffix, List.reverse_drop]
  rcases le_or_gt k d.labels.length with h | h
  · congr 1
    omega
  · rw [List.take_of_length_le (by simp; omega), List.take_of_length_le (by simp; omega)]

theorem mk_drop_isAncestorOrSelf (d : Dname) (k : ℕ) :
    (⟨d.labels.drop k⟩ : Dname).IsAncestorOrSelf d := by
  simp only [IsAncestorOrSelf, key, List.reverse_drop]
  exact List.take_prefix _ _

theorem suffix_isAncestorOrSelf (d : Dname) (k : ℕ) : (d.suffix k).IsAncestorOrSelf d := by
  rw [IsAncestorOrSelf, key_suffix]
  exact List.take_prefix k d.key

/-- The ancestor that drops `n` labels. -/
theorem suffix_sub (d : Dname) {n : ℕ} (h : n ≤ d.labels.length) :
    d.suffix (d.labels.length - n) = ⟨d.labels.drop n⟩ := by
  simp [suffix, Nat.sub_sub_self h]

theorem length_labels_suffix {d : Dname} {k : ℕ} (hk : k ≤ d.labels.length) :
    (d.suffix k).labels.length = k := by
  simp [suffix]
  omega

@[simp] theorem suffix_length (d : Dname) : d.suffix d.labels.length = d := by
  simp [suffix]

theorem suffix_isAncestorOrSelf_suffix (d : Dname) {a b : ℕ} (h : a ≤ b) :
    (d.suffix a).IsAncestorOrSelf (d.suffix b) := by
  rw [IsAncestorOrSelf, key_suffix, key_suffix]
  exact List.take_prefix_take_left h

/-- An ancestor-or-self is determined by its label count. -/
theorem eq_suffix_of_isAncestorOrSelf {a d : Dname} (h : a.IsAncestorOrSelf d) :
    a = d.suffix a.labels.length := by
  apply key_injective
  rw [key_suffix]
  have hlen : a.key.length = a.labels.length := by simp [key]
  rw [← hlen]
  exact List.prefix_iff_eq_take.mp h

end Dname

/-! ## Wire form -/

/-- The wire form of a sequence of labels: each label after its length octet. -/
def labelsWire (ls : List Label) : List UInt8 :=
  ls.flatMap fun l => l.bytes.length.toUInt8 :: l.bytes

/-- The wire form of a name, as a `knot_dname_t` holds it: its labels, then the root's zero
octet. -/
def Dname.wire (d : Dname) : List UInt8 := labelsWire d.labels ++ [0]

namespace Label

theorem ext_bytes {a b : Label} (h : a.bytes = b.bytes) : a = b := by
  cases a
  cases b
  simp_all

theorem toNat_length_toUInt8 (l : Label) : l.bytes.length.toUInt8.toNat = l.bytes.length :=
  UInt8.toNat_ofNat_of_lt' (lt_of_le_of_lt l.length_le (by decide))

/-- A length octet is never the zero octet that ends a name. -/
theorem length_toUInt8_ne_zero (l : Label) : l.bytes.length.toUInt8 ≠ 0 := by
  intro h
  have h0 := congrArg UInt8.toNat h
  rw [toNat_length_toUInt8] at h0
  exact l.bytes_ne_nil (List.length_eq_zero_iff.mp h0)

end Label

@[simp] theorem labelsWire_nil : labelsWire [] = [] := rfl

@[simp] theorem labelsWire_cons (l : Label) (ls : List Label) :
    labelsWire (l :: ls) = l.bytes.length.toUInt8 :: l.bytes ++ labelsWire ls := by
  simp [labelsWire]

@[simp] theorem labelsWire_append (ls ls' : List Label) :
    labelsWire (ls ++ ls') = labelsWire ls ++ labelsWire ls' := by
  simp [labelsWire]

theorem length_labelsWire (ls : List Label) :
    (labelsWire ls).length = (ls.map fun l => l.bytes.length + 1).sum := by
  induction ls with
  | nil => rfl
  | cons l ls ih => simp [ih]; omega

theorem zero_not_mem_labelsWire {ls : List Label} (h : ∀ l ∈ ls, 0 ∉ l.bytes) :
    0 ∉ labelsWire ls := by
  induction ls with
  | nil => simp
  | cons l ls ih =>
    simp only [labelsWire_cons, List.cons_append, List.mem_cons, List.mem_append, not_or]
    exact ⟨fun h0 => l.length_toUInt8_ne_zero h0.symm, h l (by simp),
      ih fun l' hl' => h l' (by simp [hl'])⟩

theorem zero_mem_labelsWire_iff {ls : List Label} :
    0 ∈ labelsWire ls ↔ ∃ l ∈ ls, 0 ∈ l.bytes := by
  constructor
  · intro h
    by_contra hne
    push Not at hne
    exact zero_not_mem_labelsWire hne h
  · rintro ⟨l, hl, h0⟩
    obtain ⟨s, t, rfl⟩ := List.append_of_mem hl
    simp [h0]

/-- The wire form parses back: labels whose wire form starts the wire form of a name start
its labels. -/
theorem prefix_of_labelsWire_prefix :
    ∀ {ps ts : List Label}, labelsWire ps <+: labelsWire ts ++ [0] → ps <+: ts
  | [], _, _ => List.nil_prefix
  | p :: ps, [], h => by
    -- a length octet would have to be the root's zero octet
    simp only [labelsWire_cons, labelsWire_nil, List.nil_append, List.cons_append] at h
    exact absurd (List.cons_prefix_cons.mp h).1 p.length_toUInt8_ne_zero
  | p :: ps, t :: ts, h => by
    simp only [labelsWire_cons, List.cons_append, List.append_assoc] at h
    obtain ⟨hlen, h⟩ := List.cons_prefix_cons.mp h
    have hlen' : p.bytes.length = t.bytes.length := by
      rw [← p.toNat_length_toUInt8, ← t.toNat_length_toUInt8, hlen]
    obtain ⟨u, hu⟩ := h
    rw [List.append_assoc] at hu
    obtain ⟨hbytes, hrest⟩ := List.append_inj hu hlen'
    obtain rfl := Label.ext_bytes hbytes
    exact List.cons_prefix_cons.mpr ⟨rfl, prefix_of_labelsWire_prefix ⟨u, hrest⟩⟩

/-! ## The libknot name functions -/

/-- `knot_dname_labels`: the number of labels, the root not counted. -/
def knotDnameLabels (d : Dname) : ℕ := d.labels.length

/-- `KNOT_DNAME_MAXLEN`. -/
def knotDnameMaxlen : ℕ := 255

/-- `knot_dname_size`: the wire length, a length octet per label and the root octet. -/
def knotDnameSize (d : Dname) : ℕ := (d.labels.map fun l => l.bytes.length + 1).sum + 1

theorem length_wire (d : Dname) : d.wire.length = knotDnameSize d := by
  rw [Dname.wire, List.length_append, length_labelsWire, knotDnameSize, List.length_singleton]

/-- `knot_dname_next_label`: the name without its leftmost label. -/
def knotDnameNextLabel (d : Dname) : Dname := ⟨d.labels.tail⟩

/-- `knot_dname_matched_labels`: how many labels the names share, counted from the root. -/
def knotDnameMatchedLabels (a b : Dname) : ℕ := ListLex.commonPrefixLen a.key b.key

/-- libknot's `KNOT_EOUTOFZONE`; only its sign is ever looked at. -/
def knotEOutOfZone : ℤ := -1

/-- `knot_dname_in_bailiwick`: how many labels `name` lies below `bailiwick`, or
`KNOT_EOUTOFZONE` when it is not at or below it. -/
def knotDnameInBailiwick (name bailiwick : Dname) : ℤ :=
  let labelDiff : ℤ := (knotDnameLabels name : ℤ) - knotDnameLabels bailiwick
  if labelDiff < 0 then knotEOutOfZone
  else if (⟨name.labels.drop labelDiff.toNat⟩ : Dname) = bailiwick then labelDiff
  else knotEOutOfZone

/-- `knot_dname_is_wildcard`: the leftmost label is `*`. -/
def knotDnameIsWildcard (d : Dname) : Bool :=
  match d.labels with
  | l :: _ => l.bytes == [42]
  | [] => false

theorem knotDnameMatchedLabels_le_left (a b : Dname) :
    knotDnameMatchedLabels a b ≤ knotDnameLabels a := by
  have h := ListLex.commonPrefixLen_le_left a.key b.key
  simpa [knotDnameMatchedLabels, knotDnameLabels, Dname.key] using h

theorem knotDnameMatchedLabels_le_right (a b : Dname) :
    knotDnameMatchedLabels a b ≤ knotDnameLabels b := by
  have h := ListLex.commonPrefixLen_le_right a.key b.key
  simpa [knotDnameMatchedLabels, knotDnameLabels, Dname.key] using h

theorem knotDnameMatchedLabels_comm (a b : Dname) :
    knotDnameMatchedLabels a b = knotDnameMatchedLabels b a :=
  ListLex.commonPrefixLen_comm a.key b.key

/-- The matched labels of `a` and `b`, taken from `b`, are an ancestor-or-self of `a`. -/
theorem suffix_matchedLabels_isAncestorOrSelf (a b : Dname) :
    (b.suffix (knotDnameMatchedLabels a b)).IsAncestorOrSelf a := by
  rw [Dname.IsAncestorOrSelf, Dname.key_suffix, knotDnameMatchedLabels,
    ListLex.commonPrefixLen_comm]
  exact ListLex.take_commonPrefixLen_prefix b.key a.key

/-- A common ancestor-or-self has at most as many labels as are matched. -/
theorem labels_le_matchedLabels {c a b : Dname} (ha : c.IsAncestorOrSelf a)
    (hb : c.IsAncestorOrSelf b) : knotDnameLabels c ≤ knotDnameMatchedLabels a b := by
  have h := ListLex.length_le_commonPrefixLen ha hb
  simpa [knotDnameLabels, knotDnameMatchedLabels, Dname.key] using h

theorem knotDnameInBailiwick_eq (name bailiwick : Dname) :
    knotDnameInBailiwick name bailiwick =
      if bailiwick.IsAncestorOrSelf name then
        ((knotDnameLabels name - knotDnameLabels bailiwick : ℕ) : ℤ)
      else knotEOutOfZone := by
  unfold knotDnameInBailiwick
  by_cases h : bailiwick.IsAncestorOrSelf name
  · have hlen : knotDnameLabels bailiwick ≤ knotDnameLabels name := by
      simpa [knotDnameLabels, Dname.key] using h.length_le
    have hcast : ((knotDnameLabels name : ℤ) - knotDnameLabels bailiwick).toNat =
        knotDnameLabels name - knotDnameLabels bailiwick := by omega
    have hb : (⟨name.labels.drop (knotDnameLabels name - knotDnameLabels bailiwick)⟩ : Dname) =
        bailiwick := by
      conv_rhs => rw [Dname.eq_suffix_of_isAncestorOrSelf h]
      rfl
    rw [if_pos h, if_neg (by omega), hcast, if_pos hb]
    omega
  · rw [if_neg h]
    dsimp only
    split_ifs with hneg heq
    · rfl
    · exact absurd (heq ▸ Dname.mk_drop_isAncestorOrSelf name _) h
    · rfl

theorem knotDnameInBailiwick_nonneg_iff {name bailiwick : Dname} :
    0 ≤ knotDnameInBailiwick name bailiwick ↔ bailiwick.IsAncestorOrSelf name := by
  rw [knotDnameInBailiwick_eq]
  split_ifs with h
  · simp [h]
  · simp [h, knotEOutOfZone]

/-- `knot_dname_in_bailiwick` is positive exactly for a proper descendant. -/
theorem knotDnameInBailiwick_pos_iff {name bailiwick : Dname} :
    0 < knotDnameInBailiwick name bailiwick ↔
      bailiwick.IsAncestorOrSelf name ∧ name ≠ bailiwick := by
  rw [knotDnameInBailiwick_eq]
  split_ifs with h
  · have hlen : knotDnameLabels bailiwick ≤ knotDnameLabels name := by
      simpa [knotDnameLabels, Dname.key] using h.length_le
    -- a prefix of the same length is the whole key
    have heq : knotDnameLabels name = knotDnameLabels bailiwick ↔ name = bailiwick := by
      constructor
      · intro hl
        apply Dname.key_injective
        exact (h.eq_of_length (by simpa [knotDnameLabels, Dname.key] using hl.symm)).symm
      · rintro rfl
        rfl
    simp only [h, true_and]
    rw [Nat.cast_pos, ne_eq, ← heq]
    omega
  · simp [h, knotEOutOfZone]

/-- A name `k` labels below `bailiwick` is those labels followed by the bailiwick's. -/
theorem exists_prefix_of_knotDnameInBailiwick {name bailiwick : Dname} {k : ℤ}
    (h : knotDnameInBailiwick name bailiwick = k) (hk : 0 ≤ k) :
    ∃ pre, name.labels = pre ++ bailiwick.labels ∧ (pre.length : ℤ) = k := by
  unfold knotDnameInBailiwick at h
  dsimp only at h
  split_ifs at h with hneg hdrop
  · simp [knotEOutOfZone] at h
    omega
  · refine ⟨name.labels.take ((knotDnameLabels name : ℤ) - knotDnameLabels bailiwick).toNat,
      ?_, ?_⟩
    · have hb : bailiwick.labels =
          name.labels.drop ((knotDnameLabels name : ℤ) - knotDnameLabels bailiwick).toNat :=
        (congrArg Dname.labels hdrop).symm
      rw [hb, List.take_append_drop]
    · simp only [List.length_take, knotDnameLabels] at h ⊢
      omega
  · simp [knotEOutOfZone] at h
    omega

/-! ## `dname_cmp` of `lib/dnssec/nsec.c` -/

/-- `memcmp` on the first `n` octets, as an ordering. -/
def memcmp : List UInt8 → List UInt8 → ℕ → Ordering
  | x :: xs, y :: ys, n + 1 =>
    match compare x.toNat y.toNat with
    | .eq => memcmp xs ys n
    | res => res
  | _, _, _ => .eq

/-- `lf_cmp`: the common part octet by octet, then the lengths. -/
def lfCmp (lf1 lf2 : List UInt8) : Ordering :=
  match memcmp lf1 lf2 (min lf1.length lf2.length) with
  | .eq => compare lf1.length lf2.length
  | res => res

/-- The current label of a reversed name, the root label (no octets) once it is used up. -/
def labelOrRoot : List Label → List UInt8
  | l :: _ => l.bytes
  | [] => []

/-- The loop of `dname_cmp` over the two reversed names: it stops at the first difference or
when the first name reaches its root label. -/
def dnameCmpLoop : List Label → List Label → Ordering
  | [], d2 => lfCmp [] (labelOrRoot d2)
  | l :: d1, d2 =>
    match lfCmp l.bytes (labelOrRoot d2) with
    | .eq => dnameCmpLoop d1 d2.tail
    | res => res

/-- `dname_cmp`: reverse both names and compare them label by label. -/
def dnameCmp (d1 d2 : Dname) : Ordering := dnameCmpLoop d1.key d2.key

theorem memcmp_isComparison (xs ys : List UInt8) :
    ListLex.IsComparison (lfCmp xs ys) (xs.map UInt8.toNat) (ys.map UInt8.toNat) := by
  induction xs generalizing ys with
  | nil =>
    cases ys with
    | nil => simpa [lfCmp, memcmp] using ListLex.isComparison_nil_nil
    | cons y ys =>
      have h : lfCmp [] (y :: ys) = .lt := by
        simp only [lfCmp, memcmp, List.length_nil, List.length_cons]
        exact compare_lt_iff_lt.mpr (by omega)
      simpa [h] using ListLex.isComparison_nil_cons y.toNat (ys.map _)
  | cons x xs ih =>
    cases ys with
    | nil =>
      have h : lfCmp (x :: xs) [] = .gt := by
        simp only [lfCmp, memcmp, List.length_nil, List.length_cons]
        exact compare_gt_iff_gt.mpr (by omega)
      simpa [h] using ListLex.isComparison_cons_nil x.toNat (xs.map _)
    | cons y ys =>
      have hcons := (ListLex.isComparison_compare x.toNat y.toNat).cons (ih ys)
      have hmin : min (xs.length + 1) (ys.length + 1) = min xs.length ys.length + 1 := by omega
      have hstep : lfCmp (x :: xs) (y :: ys) = (compare x.toNat y.toNat).then (lfCmp xs ys) := by
        simp only [lfCmp, memcmp, List.length_cons, hmin]
        cases compare x.toNat y.toNat with
        | eq =>
          simp only [Ordering.then]
          cases memcmp xs ys (min xs.length ys.length) <;>
            simp [ListLex.compare_add_one_add_one]
        | lt => rfl
        | gt => rfl
      simpa [hstep] using hcons

/-- On octet strings of one length `memcmp` over that length is `lf_cmp`. -/
theorem memcmp_eq_lfCmp {xs ys : List UInt8} (h : xs.length = ys.length) :
    memcmp xs ys xs.length = lfCmp xs ys := by
  unfold lfCmp
  rw [← h, min_self]
  split
  · rename_i heq
    rw [heq, compare_eq_iff_eq.mpr rfl]
  · rfl

theorem memcmp_eq_lt_iff {xs ys : List UInt8} (h : xs.length = ys.length) :
    memcmp xs ys xs.length = .lt ↔ xs.map UInt8.toNat < ys.map UInt8.toNat := by
  rw [memcmp_eq_lfCmp h]
  exact (memcmp_isComparison xs ys).1

theorem memcmp_eq_eq_iff {xs ys : List UInt8} (h : xs.length = ys.length) :
    memcmp xs ys xs.length = .eq ↔ xs = ys := by
  rw [memcmp_eq_lfCmp h, (memcmp_isComparison xs ys).2]
  exact (List.map_injective_iff.mpr fun _ _ => UInt8.toNat_inj.mp).eq_iff

theorem lfCmp_isComparison (a b : Label) : ListLex.IsComparison (lfCmp a.bytes b.bytes) a b := by
  have h := memcmp_isComparison a.bytes b.bytes
  exact ⟨h.1.trans Label.lt_iff_values_lt.symm, h.2.trans Label.values_injective.eq_iff⟩

theorem dnameCmpLoop_isComparison (d1 d2 : List Label) :
    ListLex.IsComparison (dnameCmpLoop d1 d2) d1 d2 := by
  induction d1 generalizing d2 with
  | nil =>
    cases d2 with
    | nil => simpa [dnameCmpLoop, labelOrRoot, lfCmp, memcmp] using ListLex.isComparison_nil_nil
    | cons b d2 =>
      have hb : lfCmp [] b.bytes = .lt := by
        have h := (memcmp_isComparison [] b.bytes).1
        have hne : b.bytes.map UInt8.toNat ≠ [] := by simpa using b.bytes_ne_nil
        obtain ⟨v, vs, hv⟩ := List.exists_cons_of_ne_nil hne
        exact h.mpr (by simp [hv])
      simpa [dnameCmpLoop, labelOrRoot, hb] using ListLex.isComparison_nil_cons b d2
  | cons a d1 ih =>
    cases d2 with
    | nil =>
      have ha : lfCmp a.bytes [] = .gt := by
        have h := (memcmp_isComparison a.bytes []).gt_iff
        have hne : a.bytes.map UInt8.toNat ≠ [] := by simpa using a.bytes_ne_nil
        obtain ⟨v, vs, hv⟩ := List.exists_cons_of_ne_nil hne
        exact h.mpr (by simp [hv])
      simpa [dnameCmpLoop, labelOrRoot, ha] using ListLex.isComparison_cons_nil a d1
    | cons b d2 =>
      have hcons := (lfCmp_isComparison a b).cons (ih d2)
      have hstep : dnameCmpLoop (a :: d1) (b :: d2) =
          (lfCmp a.bytes b.bytes).then (dnameCmpLoop d1 d2) := by
        simp only [dnameCmpLoop, labelOrRoot, List.tail_cons]
        cases lfCmp a.bytes b.bytes <;> rfl
      simpa [hstep] using hcons

/-- `dname_cmp` computes the order of names: the canonical order on lower-case names. -/
theorem dnameCmp_isComparison (d1 d2 : Dname) : ListLex.IsComparison (dnameCmp d1 d2) d1 d2 := by
  have h := dnameCmpLoop_isComparison d1.key d2.key
  exact ⟨h.1.trans Dname.lt_iff_key_lt.symm, h.2.trans Dname.key_injective.eq_iff⟩

@[simp] theorem dnameCmp_eq_lt_iff {d1 d2 : Dname} : dnameCmp d1 d2 = .lt ↔ d1 < d2 :=
  (dnameCmp_isComparison d1 d2).1

@[simp] theorem dnameCmp_eq_eq_iff {d1 d2 : Dname} : dnameCmp d1 d2 = .eq ↔ d1 = d2 :=
  (dnameCmp_isComparison d1 d2).2

@[simp] theorem dnameCmp_eq_gt_iff {d1 d2 : Dname} : dnameCmp d1 d2 = .gt ↔ d2 < d1 :=
  (dnameCmp_isComparison d1 d2).gt_iff

end KnotResolver
