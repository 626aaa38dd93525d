import Mathlib
import KnotResolver.RRset

/-!
# Signed zones and authenticated denial

The abstract side of the NSEC proofs: a zone is a finite set of lower-case owner names with
their types, rooted at its apex and closed under ancestors up to the apex (empty
non-terminals are members without types), with nothing below a delegation point. An NSEC RR
is consistent with a zone when its owner is in the zone with exactly the bitmap's types and
no name of the zone lies strictly between the owner and the next name in canonical order.

What a consistent NSEC proves is stated here once, in terms of the order of names: a name
strictly between owner and next is absent, and the closest encloser of an absent name is
read off the labels it shares with the owner and the next name.
-/

namespace KnotResolver

/-- An NSEC RR spans `x`: `x` lies after the owner and before the lower-cased next name, or
after the owner of the last NSEC of the chain. -/
def NsecSpans (rr : RRset) (x : Dname) : Prop :=
  rr.owner < x ∧ (x < (knotNsecNext rr).toLower ∨ ¬ rr.owner < (knotNsecNext rr).toLower)

instance (rr : RRset) (x : Dname) : Decidable (NsecSpans rr x) :=
  inferInstanceAs (Decidable (rr.owner < x ∧
    (x < (knotNsecNext rr).toLower ∨ ¬ rr.owner < (knotNsecNext rr).toLower)))

/-- A signed zone as the denial proofs see it. -/
structure Zone where
  apex : Dname
  names : Finset Dname
  types : Dname → Finset RRType
  apex_mem : apex ∈ names
  lower : ∀ x ∈ names, x.IsLower
  below_apex : ∀ x ∈ names, apex.IsAncestorOrSelf x
  ancestor_closed : ∀ x ∈ names, ∀ k ≤ x.labels.length,
    apex.IsAncestorOrSelf (x.suffix k) → x.suffix k ∈ names
  nothing_below_delegation : ∀ d ∈ names, d ≠ apex → RRType.ns ∈ types d →
    ∀ x ∈ names, d.IsAncestorOrSelf x → x = d

namespace Zone

variable (Z : Zone)

/-- `x` owns an RRset of type `t`. -/
def Owns (x : Dname) (t : RRType) : Prop := x ∈ Z.names ∧ t ∈ Z.types x

/-- A delegation point: a name other than the apex that owns NS. -/
def IsDelegation (x : Dname) : Prop := x ≠ Z.apex ∧ Z.Owns x RRType.ns

/-- A delegation point without DS: its child zone is unsigned. -/
def IsInsecureDelegation (x : Dname) : Prop := Z.IsDelegation x ∧ ¬ Z.Owns x RRType.ds

/-- The longest ancestor-or-self of a name (given by its labels) in the zone. -/
def longestAncestorIn : List Label → Dname
  | [] => Dname.root
  | l :: ls => if (⟨l :: ls⟩ : Dname) ∈ Z.names then ⟨l :: ls⟩ else longestAncestorIn ls

/-- The closest encloser of `s`: its longest ancestor-or-self in the zone. -/
def closestEncloser (s : Dname) : Dname := Z.longestAncestorIn s.labels

/-- Consistency of an NSEC RR with the zone: its owner is a name of the zone with the types of
its bitmap, and no name of the zone lies between the owner and the next name (or after the
owner, for the NSEC that wraps round to the apex). -/
def NsecConsistent (rr : RRset) : Prop :=
  rr.owner ∈ Z.names ∧ Z.types rr.owner = (knotNsecBitmap rr).toFinset ∧
  (rr.owner.CanonicalLt (knotNsecNext rr) →
    ∀ x ∈ Z.names, ¬ (rr.owner.CanonicalLt x ∧ x.CanonicalLt (knotNsecNext rr))) ∧
  (¬ rr.owner.CanonicalLt (knotNsecNext rr) → ∀ x ∈ Z.names, ¬ rr.owner.CanonicalLt x)

/-- SOA is owned at the apex only. -/
def SoaAtApex : Prop := ∀ x ∈ Z.names, RRType.soa ∈ Z.types x → x = Z.apex

/-- A consistent NSEC whose next name is an owner of the zone, as it is in an NSEC chain. -/
def NsecChained (rr : RRset) : Prop :=
  Z.NsecConsistent rr ∧ (knotNsecNext rr).toLower ∈ Z.names

/-- What a NODATA answer for `s` and `t` asserts: neither `s` nor, when `s` is absent, the
source of synthesis at its closest encloser owns `t` or a CNAME. -/
def NodataHolds (s : Dname) (t : RRType) : Prop :=
  ¬ Z.Owns s t ∧ ¬ Z.Owns s RRType.cname ∧
    (s ∉ Z.names → ¬ Z.Owns (Z.closestEncloser s).wildcard t ∧
      ¬ Z.Owns (Z.closestEncloser s).wildcard RRType.cname)

/-- What an NXDOMAIN answer for `s` asserts: neither `s` nor the source of synthesis at its
closest encloser is in the zone. -/
def NxdomainHolds (s : Dname) : Prop :=
  s ∉ Z.names ∧ (Z.closestEncloser s).wildcard ∉ Z.names

instance (x : Dname) (t : RRType) : Decidable (Z.Owns x t) :=
  inferInstanceAs (Decidable (x ∈ Z.names ∧ t ∈ Z.types x))

instance (x : Dname) : Decidable (Z.IsDelegation x) :=
  inferInstanceAs (Decidable (x ≠ Z.apex ∧ Z.Owns x RRType.ns))

instance (rr : RRset) : Decidable (Z.NsecConsistent rr) := by
  unfold NsecConsistent
  infer_instance

instance (rr : RRset) : Decidable (Z.NsecChained rr) :=
  inferInstanceAs (Decidable (Z.NsecConsistent rr ∧ (knotNsecNext rr).toLower ∈ Z.names))

instance : Decidable Z.SoaAtApex := by
  unfold SoaAtApex
  infer_instance

instance (s : Dname) (t : RRType) : Decidable (Z.NodataHolds s t) := by
  unfold NodataHolds
  infer_instance

instance (s : Dname) : Decidable (Z.NxdomainHolds s) := by
  unfold NxdomainHolds
  infer_instance

variable {Z}

theorem mem_of_isAncestorOrSelf {x y : Dname} (hx : x ∈ Z.names) (hyx : y.IsAncestorOrSelf x)
    (hay : Z.apex.IsAncestorOrSelf y) : y ∈ Z.names := by
  have hlen : y.labels.length ≤ x.labels.length := by
    simpa [Dname.IsAncestorOrSelf, Dname.key] using hyx.length_le
  rw [Dname.eq_suffix_of_isAncestorOrSelf hyx] at hay ⊢
  exact Z.ancestor_closed x hx _ hlen hay

/-- A covered name is not in the zone. -/
theorem not_mem_of_nsecSpans {rr : RRset} {x : Dname} (hc : Z.NsecConsistent rr)
    (hcov : NsecSpans rr x) : x ∉ Z.names := by
  obtain ⟨howner, -, hbetween, hlast⟩ := hc
  obtain ⟨hox, hxn⟩ := hcov
  intro hx
  have hol : rr.owner.IsLower := Z.lower _ howner
  have hxl : x.IsLower := Z.lower _ hx
  have hcox : rr.owner.CanonicalLt x := (Dname.canonicalLt_iff_of_isLower hol hxl).mpr hox
  have hcn : ∀ y : Dname, y.IsLower → (y.CanonicalLt (knotNsecNext rr) ↔
      y < (knotNsecNext rr).toLower) := by
    intro y hy
    rw [Dname.CanonicalLt, hy]
  by_cases hon : rr.owner < (knotNsecNext rr).toLower
  · have hxn' : x < (knotNsecNext rr).toLower := hxn.resolve_right (not_not.mpr hon)
    exact hbetween ((hcn _ hol).mpr hon) x hx ⟨hcox, (hcn _ hxl).mpr hxn'⟩
  · exact hlast (fun h => hon ((hcn _ hol).mp h)) x hx hcox

/-- The owner of a consistent NSEC is in the zone with exactly the bitmap's types. -/
theorem owns_iff_of_nsecConsistent {rr : RRset} (hc : Z.NsecConsistent rr) (t : RRType) :
    Z.Owns rr.owner t ↔ t ∈ knotNsecBitmap rr :=
  ⟨fun h => by simpa [hc.2.1] using h.2, fun h => ⟨hc.1, by simpa [hc.2.1] using h⟩⟩

theorem longestAncestorIn_of_mem {ls : List Label} (hmem : (⟨ls⟩ : Dname) ∈ Z.names) :
    Z.longestAncestorIn ls = ⟨ls⟩ := by
  cases ls with
  | nil => rfl
  | cons l ls => exact if_pos hmem

/-- The search of `longestAncestorIn` stops at the first member. -/
theorem longestAncestorIn_eq_drop {ls : List Label} {i : ℕ} (hi : i ≤ ls.length)
    (hmem : (⟨ls.drop i⟩ : Dname) ∈ Z.names)
    (hlonger : ∀ j < i, (⟨ls.drop j⟩ : Dname) ∉ Z.names) :
    Z.longestAncestorIn ls = ⟨ls.drop i⟩ := by
  induction ls generalizing i with
  | nil => simpa using longestAncestorIn_of_mem hmem
  | cons l ls ih =>
    cases i with
    | zero => exact longestAncestorIn_of_mem hmem
    | succ i =>
      have hnot : (⟨l :: ls⟩ : Dname) ∉ Z.names := by simpa using hlonger 0 (by omega)
      rw [longestAncestorIn, if_neg hnot]
      exact ih (by simpa using hi) (by simpa using hmem)
        (fun j hj => by simpa using hlonger (j + 1) (by omega))

/-- The closest encloser is the ancestor-or-self with `k` labels as soon as that one is in the
zone and no longer one is. -/
theorem closestEncloser_eq_suffix {s : Dname} {k : ℕ} (hk : k ≤ s.labels.length)
    (hmem : s.suffix k ∈ Z.names)
    (hlonger : ∀ j, k < j → j ≤ s.labels.length → s.suffix j ∉ Z.names) :
    Z.closestEncloser s = s.suffix k := by
  -- `suffix k` drops `length - k` labels; a longer suffix drops fewer
  have hfewer : ∀ j < s.labels.length - k, (⟨s.labels.drop j⟩ : Dname) ∉ Z.names := by
    intro j hj
    have h := hlonger (s.labels.length - j) (by omega) (by omega)
    rwa [Dname.suffix, Nat.sub_sub_self (by omega)] at h
  exact longestAncestorIn_eq_drop (by omega) hmem hfewer

/-- A name of the zone whose child towards `s` is absent is the closest encloser of `s`, and `s`
itself is absent. -/
theorem closestEncloser_of_nextCloser {s : Dname} {k : ℕ} (hk : k < s.labels.length)
    (hmem : s.suffix k ∈ Z.names) (hnext : s.suffix (k + 1) ∉ Z.names) :
    Z.closestEncloser s = s.suffix k ∧ s ∉ Z.names := by
  have hapex : Z.apex.IsAncestorOrSelf (s.suffix (k + 1)) :=
    (Z.below_apex _ hmem).trans (s.suffix_isAncestorOrSelf_suffix (Nat.le_succ k))
  -- a longer ancestor in the zone would bring the next closer name in with it
  have hlonger : ∀ j, k < j → j ≤ s.labels.length → s.suffix j ∉ Z.names := by
    intro j hkj _ hmemj
    exact hnext (mem_of_isAncestorOrSelf hmemj (s.suffix_isAncestorOrSelf_suffix hkj) hapex)
  refine ⟨closestEncloser_eq_suffix hk.le hmem hlonger, ?_⟩
  simpa using hlonger s.labels.length hk le_rfl

/-- The ancestor-or-self of `s` with as many labels as it shares with a name of the zone is in
the zone. -/
theorem suffix_matchedLabels_mem {s x : Dname} (hx : x ∈ Z.names)
    (hs : Z.apex.IsAncestorOrSelf s) : s.suffix (knotDnameMatchedLabels x s) ∈ Z.names := by
  have hle : knotDnameLabels Z.apex ≤ knotDnameMatchedLabels x s :=
    labels_le_matchedLabels (Z.below_apex x hx) hs
  apply mem_of_isAncestorOrSelf hx (suffix_matchedLabels_isAncestorOrSelf x s)
  rw [Dname.eq_suffix_of_isAncestorOrSelf hs]
  exact s.suffix_isAncestorOrSelf_suffix hle

/-- An ancestor of `s` with more labels than `s` shares with the owner lies after the owner. -/
theorem owner_lt_suffix {rr : RRset} {s : Dname} {j : ℕ} (hspan : NsecSpans rr s)
    (hj : knotDnameMatchedLabels rr.owner s < j) (hjs : j ≤ s.labels.length) :
    rr.owner < s.suffix j := by
  have hlen : (s.suffix j).key.length = j := by
    simpa [Dname.key] using Dname.length_labels_suffix hjs
  have hj' : ListLex.commonPrefixLen rr.owner.key s.key < (s.suffix j).key.length := by
    rw [hlen]
    exact hj
  exact ListLex.lt_of_prefix_of_commonPrefixLen_lt_left hspan.1 (s.suffix_isAncestorOrSelf j) hj'

/-- An ancestor of `s` with more labels than `s` shares with a name after it lies before it. -/
theorem suffix_lt_of_lt {s n : Dname} {j : ℕ} (hsn : s < n)
    (hj : knotDnameMatchedLabels s n < j) (hjs : j ≤ s.labels.length) : s.suffix j < n := by
  have hlen : (s.suffix j).key.length = j := by
    simpa [Dname.key] using Dname.length_labels_suffix hjs
  have hj' : ListLex.commonPrefixLen s.key n.key < (s.suffix j).key.length := by
    rw [hlen]
    exact hj
  exact ListLex.lt_of_prefix_of_commonPrefixLen_lt_right hsn (s.suffix_isAncestorOrSelf j) hj'

/-- Every ancestor of a spanned name with more labels than it shares with the owner and the
next name is spanned as well. -/
theorem nsecSpans_suffix {rr : RRset} {s : Dname} {j : ℕ} (hspan : NsecSpans rr s)
    (hj : max (knotDnameMatchedLabels rr.owner s)
      (knotDnameMatchedLabels s (knotNsecNext rr).toLower) < j)
    (hjs : j ≤ s.labels.length) : NsecSpans rr (s.suffix j) := by
  refine ⟨owner_lt_suffix hspan (lt_of_le_of_lt (le_max_left _ _) hj) hjs, ?_⟩
  rcases hspan.2 with hsn | hlast
  · exact Or.inl (suffix_lt_of_lt hsn (lt_of_le_of_lt (le_max_right _ _) hj) hjs)
  · exact Or.inr hlast

/-- The closest encloser of a name spanned by a chained NSEC: the ancestor with as many
labels as the name shares with the owner or with the next name, whichever is more. -/
theorem closestEncloser_of_nsecSpans {rr : RRset} {s : Dname} (hc : Z.NsecChained rr)
    (hs : Z.apex.IsAncestorOrSelf s) (hspan : NsecSpans rr s) :
    Z.closestEncloser s = s.suffix (max (knotDnameMatchedLabels rr.owner s)
      (knotDnameMatchedLabels s (knotNsecNext rr).toLower)) ∧
    s.suffix (max (knotDnameMatchedLabels rr.owner s)
      (knotDnameMatchedLabels s (knotNsecNext rr).toLower)) ∈ Z.names := by
  have hmem : s.suffix (max (knotDnameMatchedLabels rr.owner s)
      (knotDnameMatchedLabels s (knotNsecNext rr).toLower)) ∈ Z.names := by
    rcases le_total (knotDnameMatchedLabels rr.owner s)
      (knotDnameMatchedLabels s (knotNsecNext rr).toLower) with h | h
    · rw [max_eq_right h, knotDnameMatchedLabels_comm]
      exact suffix_matchedLabels_mem hc.2 hs
    · rw [max_eq_left h]
      exact suffix_matchedLabels_mem hc.1.1 hs
  refine ⟨closestEncloser_eq_suffix ?_ hmem ?_, hmem⟩
  · exact max_le (knotDnameMatchedLabels_le_right _ _) (knotDnameMatchedLabels_le_left _ _)
  · intro j hj hjs
    exact not_mem_of_nsecSpans hc.1 (nsecSpans_suffix hspan hj hjs)

end Zone

end KnotResolver
