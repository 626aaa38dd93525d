import Mathlib

/-!
# Lexicographic order and common prefixes

The lexicographic order on lists over a linear order, described through the longest
common prefix of two lists, and how a prefix of a concatenation of blocks splits. Everything here is about lists and orders only; the
comparisons of byte strings and of label sequences in the rest of the development are
instances of it. Two searches close the file: the left fold that keeps the first least element,
and a search from the back, which finds what a search from the front finds when at most one
element matches.
-/

namespace ListLex

variable {α : Type*}

section Prefix

variable [DecidableEq α]

/-- The length of the longest common prefix of two lists. -/
def commonPrefixLen : List α → List α → ℕ
  | a :: l, b :: l' => if a = b then commonPrefixLen l l' + 1 else 0
  | _, _ => 0

@[simp] theorem commonPrefixLen_nil_left (l : List α) : commonPrefixLen [] l = 0 := rfl

@[simp] theorem commonPrefixLen_nil_right (l : List α) : commonPrefixLen l [] = 0 := by
  cases l <;> rfl

@[simp] theorem commonPrefixLen_cons_self (a : α) (l l' : List α) :
    commonPrefixLen (a :: l) (a :: l') = commonPrefixLen l l' + 1 := by
  simp [commonPrefixLen]

theorem commonPrefixLen_cons_of_ne {a b : α} (h : a ≠ b) (l l' : List α) :
    commonPrefixLen (a :: l) (b :: l') = 0 := by
  simp [commonPrefixLen, h]

theorem commonPrefixLen_comm (l l' : List α) : commonPrefixLen l l' = commonPrefixLen l' l := by
  induction l generalizing l' with
  | nil => simp
  | cons a l ih =>
    cases l' with
    | nil => simp
    | cons b l' =>
      by_cases h : a = b
      · subst h
        simp [ih]
      · rw [commonPrefixLen_cons_of_ne h, commonPrefixLen_cons_of_ne (Ne.symm h)]

theorem commonPrefixLen_le_left (l l' : List α) : commonPrefixLen l l' ≤ l.length := by
  induction l generalizing l' with
  | nil => simp
  | cons a l ih =>
    cases l' with
    | nil => simp
    | cons b l' =>
      by_cases h : a = b
      · subst h
        simpa using ih l'
      · simp [commonPrefixLen_cons_of_ne h]

theorem commonPrefixLen_le_right (l l' : List α) : commonPrefixLen l l' ≤ l'.length := by
  rw [commonPrefixLen_comm]
  exact commonPrefixLen_le_left l' l

/-- A common prefix is never longer than the longest one. -/
theorem length_le_commonPrefixLen {p l l' : List α} (h : p <+: l) (h' : p <+: l') :
    p.length ≤ commonPrefixLen l l' := by
  induction p generalizing l l' with
  | nil => simp
  | cons a p ih =>
    obtain ⟨t, rfl⟩ := h
    obtain ⟨t', rfl⟩ := h'
    simpa using ih (List.prefix_append p t) (List.prefix_append p t')

/-- The first `commonPrefixLen l l'` entries of `l` are a prefix of `l'`. -/
theorem take_commonPrefixLen_prefix (l l' : List α) : l.take (commonPrefixLen l l') <+: l' := by
  induction l generalizing l' with
  | nil => simp
  | cons a l ih =>
    cases l' with
    | nil => simp
    | cons b l' =>
      by_cases h : a = b
      · subst h
        simpa using ih l'
      · simp [commonPrefixLen_cons_of_ne h]

theorem commonPrefixLen_eq_length_iff {l l' : List α} :
    commonPrefixLen l l' = l.length ↔ l <+: l' := by
  constructor
  · intro h
    have hp := take_commonPrefixLen_prefix l l'
    rwa [h, List.take_length] at hp
  · intro h
    exact le_antisymm (commonPrefixLen_le_left l l') (length_le_commonPrefixLen (List.prefix_refl l) h)

theorem commonPrefixLen_append_self (p u v : List α) :
    commonPrefixLen (p ++ u) (p ++ v) = p.length + commonPrefixLen u v := by
  induction p with
  | nil => simp
  | cons a p ih => simp [ih]; omega

end Prefix

section Order

variable [LinearOrder α]

/-- `o` is the outcome of comparing `a` with `b`: the specification of a hand-written
three-way comparison. -/
def IsComparison {β : Type*} [LinearOrder β] (o : Ordering) (a b : β) : Prop :=
  (o = .lt ↔ a < b) ∧ (o = .eq ↔ a = b)

theorem IsComparison.gt_iff {β : Type*} [LinearOrder β] {o : Ordering} {a b : β}
    (h : IsComparison o a b) : o = .gt ↔ b < a := by
  cases o with
  | lt => simpa using (le_of_lt (h.1.mp rfl))
  | eq => simpa using (h.2.mp rfl).le
  | gt =>
    have hnlt : ¬ a < b := fun hab => by simpa using h.1.mpr hab
    have hne : a ≠ b := fun hab => by simpa using h.2.mpr hab
    simpa using lt_of_le_of_ne (not_lt.mp hnlt) hne.symm

theorem isComparison_compare {β : Type*} [LinearOrder β] (a b : β) :
    IsComparison (compare a b) a b :=
  ⟨compare_lt_iff_lt, compare_eq_iff_eq⟩

theorem isComparison_nil_nil : IsComparison .eq ([] : List α) [] := by
  simp [IsComparison]

theorem isComparison_nil_cons (a : α) (l : List α) : IsComparison .lt [] (a :: l) := by
  simp [IsComparison]

theorem isComparison_cons_nil (a : α) (l : List α) : IsComparison .gt (a :: l) [] := by
  simp [IsComparison]

/-- Lists compare by their heads first, then by their tails. -/
theorem IsComparison.cons {o o' : Ordering} {a b : α} {l l' : List α}
    (h : IsComparison o a b) (h' : IsComparison o' l l') :
    IsComparison (o.then o') (a :: l) (b :: l') := by
  rcases lt_trichotomy a b with hab | rfl | hab
  · have ho : o = .lt := h.1.mpr hab
    subst ho
    simp [IsComparison, List.cons_lt_cons_iff, hab, hab.ne]
  · have ho : o = .eq := h.2.mpr rfl
    subst ho
    simpa [IsComparison, List.cons_lt_cons_iff] using h'
  · have ho : o = .gt := h.gt_iff.mpr hab
    subst ho
    simp [IsComparison, List.cons_lt_cons_iff, hab.not_gt, hab.ne']

theorem compare_add_one_add_one (a b : ℕ) : compare (a + 1) (b + 1) = compare a b := by
  rcases lt_trichotomy a b with h | rfl | h
  · rw [compare_lt_iff_lt.mpr h, compare_lt_iff_lt.mpr (by omega)]
  · simp
  · rw [compare_gt_iff_gt.mpr h, compare_gt_iff_gt.mpr (by omega)]

/-- A list never comes after one of its extensions. -/
theorem not_lt_of_prefix {p l : List α} (h : p <+: l) : ¬ l < p := by
  induction p generalizing l with
  | nil => exact List.not_lt_nil l
  | cons a p ih =>
    obtain ⟨t, rfl⟩ := h
    intro hlt
    rcases List.cons_lt_cons_iff.mp hlt with haa | ⟨-, hpt⟩
    · exact lt_irrefl a haa
    · exact ih (List.prefix_append p t) hpt

/-- Shortening the larger list of a strict comparison keeps the comparison as long as the
shortened list still reaches past the common prefix. -/
theorem lt_of_prefix_of_commonPrefixLen_lt_right [DecidableEq α] {s n d : List α} (h : s < n) (hd : d <+: s)
    (hlen : commonPrefixLen s n < d.length) : d < n := by
  induction s generalizing n d with
  | nil =>
    obtain rfl := List.prefix_nil.mp hd
    simp at hlen
  | cons a s ih =>
    cases n with
    | nil => exact absurd h (List.not_lt_nil _)
    | cons b n =>
      cases d with
      | nil => simp at hlen
      | cons c d =>
        obtain ⟨rfl, hd'⟩ := List.cons_prefix_cons.mp hd
        rcases List.cons_lt_cons_iff.mp h with hab | ⟨rfl, hsn⟩
        · exact List.cons_lt_cons_iff.mpr (Or.inl hab)
        · simp only [commonPrefixLen_cons_self, List.length_cons] at hlen
          exact List.cons_lt_cons_iff.mpr (Or.inr ⟨rfl, ih hsn hd' (by omega)⟩)

/-- Shortening the larger list of a strict comparison keeps it above the smaller one as long
as the shortened list still reaches past their common prefix. -/
theorem lt_of_prefix_of_commonPrefixLen_lt_left [DecidableEq α] {o s d : List α} (h : o < s) (hd : d <+: s)
    (hlen : commonPrefixLen o s < d.length) : o < d := by
  induction s generalizing o d with
  | nil => exact absurd h (List.not_lt_nil _)
  | cons a s ih =>
    cases d with
    | nil => simp at hlen
    | cons c d =>
      obtain ⟨rfl, hd'⟩ := List.cons_prefix_cons.mp hd
      cases o with
      | nil => exact List.nil_lt_cons c d
      | cons b o =>
        rcases List.cons_lt_cons_iff.mp h with hba | ⟨rfl, hos⟩
        · exact List.cons_lt_cons_iff.mpr (Or.inl hba)
        · simp only [commonPrefixLen_cons_self, List.length_cons] at hlen
          exact List.cons_lt_cons_iff.mpr (Or.inr ⟨rfl, ih hos hd' (by omega)⟩)

end Order

/-! ## Prefixes of a concatenation -/

section Blocks

/-- A prefix of a concatenation of blocks is some whole blocks followed by a part of the next
block shorter than that block, or by nothing once the blocks run out. -/
theorem prefix_flatten_split : ∀ {ls : List (List α)} {D : List α}, D <+: ls.flatten →
    ∃ j P, D = (ls.take j).flatten ++ P ∧ P <+: (ls.drop j).flatten ∧
      ∀ l ∈ (ls.drop j).head?, P.length < l.length
  | [], D, h => ⟨0, D, by simp, by simpa using h, by simp⟩
  | c :: ls, D, h => by
    rw [List.flatten_cons] at h
    by_cases hlt : D.length < c.length
    · exact ⟨0, D, by simp, by simpa using h, by simpa using hlt⟩
    · -- the first block lies wholly inside the prefix
      have hc : c <+: D := List.prefix_of_prefix_length_le (List.prefix_append c _) h (by omega)
      obtain ⟨D', rfl⟩ := hc
      have h' : D' <+: ls.flatten := (List.prefix_append_right_inj c).mp h
      obtain ⟨j, P, hD, hP, hlen⟩ := prefix_flatten_split h'
      refine ⟨j + 1, P, ?_, by simpa using hP, by simpa using hlen⟩
      rw [List.take_succ_cons, List.flatten_cons, hD, List.append_assoc]

end Blocks

/-! ## Blocks joined by a separator

A list of blocks closed by a separator that sits below every element of the blocks is ordered
as the list of blocks is: a block that is a proper prefix of another meets the separator where
the other goes on with a larger element. -/

section Separated

variable {s : α}

/-- With a one-element separator, every block after the first one starts with it. -/
theorem intercalate_singleton_cons (l : List α) (L : List (List α)) :
    [s].intercalate (l :: L) = l ++ L.flatMap (s :: ·) := by
  induction L generalizing l with
  | nil => simp
  | cons l' L ih =>
    rw [List.intercalate_cons_cons, ih]
    simp

theorem cons_flatMap_append (L : List (List α)) :
    s :: L.flatMap (· ++ [s]) = L.flatMap (s :: ·) ++ [s] := by
  induction L with
  | nil => rfl
  | cons l L ih => simp [ih]

/-- Closing every block with the separator and then dropping the last octet joins them. -/
theorem dropLast_flatMap_append (L : List (List α)) :
    (L.flatMap (· ++ [s])).dropLast = [s].intercalate L := by
  cases L with
  | nil => rfl
  | cons l L =>
    rw [intercalate_singleton_cons, List.flatMap_cons, List.append_assoc, List.singleton_append,
      cons_flatMap_append, ← List.append_assoc, List.dropLast_concat]

variable [LT α]

theorem append_lt_append_left_iff [Std.Irrefl (· < · : α → α → Prop)] {p l l' : List α} :
    p ++ l < p ++ l' ↔ l < l' := by
  induction p with
  | nil => rfl
  | cons a p ih => simpa using ih

/-- A map that reflects the order and is injective keeps the lexicographic order. -/
theorem map_lt_map_iff {β : Type*} [LT β] {f : α → β} (hf : ∀ x y, f x < f y ↔ x < y)
    (hinj : Function.Injective f) : ∀ {l l' : List α}, l.map f < l'.map f ↔ l < l'
  | [], [] => by simp
  | [], _ :: _ => by simp
  | _ :: _, [] => by simp
  | a :: l, b :: l' => by
    simp only [List.map_cons, List.cons_lt_cons_iff, hf, hinj.eq_iff, map_lt_map_iff hf hinj]

/-- A list below another stays below it when it goes on with nothing or with the separator,
the separator being below every element of the larger list. -/
theorem append_lt_append_of_lt {l m X Y : List α} (h : l < m) (hm : ∀ x ∈ m, s < x)
    (hX : ∀ x ∈ X.head?, x = s) : l ++ X < m ++ Y := by
  induction h with
  | nil =>
    cases X with
    | nil => exact List.nil_lt_cons _ _
    | cons x X =>
      obtain rfl : x = s := hX x rfl
      exact List.Lex.rel (hm _ List.mem_cons_self)
  | cons _ ih => exact List.Lex.cons (ih fun x hx => hm x (List.mem_cons_of_mem _ hx))
  | rel h => exact List.Lex.rel h

/-- Joining non-empty blocks with a separator below all their elements is strictly monotone. -/
theorem intercalate_lt_intercalate {L M : List (List α)} (hL : ∀ l ∈ L, l ≠ [])
    (hM : ∀ m ∈ M, m ≠ [] ∧ ∀ x ∈ m, s < x) (h : L < M) :
    [s].intercalate L < [s].intercalate M := by
  induction h with
  | nil =>
    obtain ⟨x, m, rfl⟩ := List.exists_cons_of_ne_nil (hM _ List.mem_cons_self).1
    rw [intercalate_singleton_cons]
    exact List.nil_lt_cons _ _
  | @cons l L M hLM ih =>
    rw [intercalate_singleton_cons, intercalate_singleton_cons]
    -- the larger tail goes on, so it starts with the separator
    have hM' : M ≠ [] := by
      rintro rfl
      exact List.not_lt_nil _ hLM
    obtain ⟨m, M, rfl⟩ := List.exists_cons_of_ne_nil hM'
    cases L with
    | nil => simpa using @List.append_left_lt _ _ l [] _ (List.nil_lt_cons s _)
    | cons l' L =>
      have ih := ih (fun x hx => hL x (List.mem_cons_of_mem _ hx))
        (fun x hx => hM x (List.mem_cons_of_mem _ hx))
      rw [intercalate_singleton_cons, intercalate_singleton_cons] at ih
      apply List.append_left_lt
      simpa [List.cons_lt_cons_iff] using Or.inr ih
  | @rel l L m M hlm =>
    rw [intercalate_singleton_cons, intercalate_singleton_cons]
    apply append_lt_append_of_lt hlm (hM m List.mem_cons_self).2
    cases L <;> simp

end Separated

/-! ## Order embeddings -/

section Embedding

variable {β : Type*} [LinearOrder α] [LT β] [Std.Asymm (· < · : β → β → Prop)]
  {P : α → Prop} {f : α → β}

/-- On a linear order, a map that keeps the strict order on a set also reflects it there. -/
theorem lt_iff_of_lt_imp_lt (hf : ∀ a b, P a → P b → a < b → f a < f b) {a b : α}
    (ha : P a) (hb : P b) : f a < f b ↔ a < b := by
  refine ⟨fun h => ?_, hf a b ha hb⟩
  rcases lt_trichotomy a b with hab | rfl | hab
  · exact hab
  · exact absurd h (Std.Irrefl.irrefl _)
  · exact absurd (hf b a hb ha hab) (Std.Asymm.asymm _ _ h)

/-- A map that keeps the strict order on a set is injective there. -/
theorem eq_iff_of_lt_imp_lt (hf : ∀ a b, P a → P b → a < b → f a < f b) {a b : α}
    (ha : P a) (hb : P b) : f a = f b ↔ a = b := by
  refine ⟨fun h => ?_, congrArg f⟩
  rcases lt_trichotomy a b with hab | hab | hab
  · exact absurd (h ▸ hf a b ha hb hab) (Std.Irrefl.irrefl _)
  · exact hab
  · exact absurd (h ▸ hf b a hb ha hab) (Std.Irrefl.irrefl _)

end Embedding

/-! ## Searches -/

section FoldMin

variable {β : Type*} [LT β] [LE β] [Std.IsLinearOrder β] [Std.LawfulOrderLT β]
  [DecidableLT β] (f : α → β)

/-- A left fold that keeps the element found so far unless a later one is strictly smaller
ends at an element no larger than its start and than every element it passed. -/
theorem foldl_argmin_le (l : List α) (m : α) :
    f (l.foldl (fun m x => if f x < f m then x else m) m) ≤ f m ∧
      ∀ x ∈ l, f (l.foldl (fun m x => if f x < f m then x else m) m) ≤ f x := by
  induction l generalizing m with
  | nil => simp
  | cons y l ih =>
    rw [List.foldl_cons]
    obtain ⟨hm, hl⟩ := ih (if f y < f m then y else m)
    have hstep : f (if f y < f m then y else m) ≤ f m ∧ f (if f y < f m then y else m) ≤ f y := by
      split_ifs with h
      · exact ⟨Std.le_of_lt h, Std.le_refl _⟩
      · exact ⟨Std.le_refl _, Std.not_lt.mp h⟩
    refine ⟨Std.le_trans hm hstep.1, fun x hx => ?_⟩
    rcases List.mem_cons.mp hx with rfl | hx
    · exact Std.le_trans hm hstep.2
    · exact hl x hx

end FoldMin

section Search

/-- A search from the back finds what a search from the front finds when at most one element
matches. -/
theorem find?_reverse_of_unique {p : α → Bool} {l : List α}
    (h : ∀ a ∈ l, ∀ b ∈ l, p a → p b → a = b) : l.reverse.find? p = l.find? p := by
  cases hf : l.find? p with
  | none =>
    rw [List.find?_eq_none] at hf ⊢
    intro x hx
    exact hf x (List.mem_reverse.mp hx)
  | some a =>
    obtain ⟨b, hb⟩ : ∃ b, l.reverse.find? p = some b := by
      apply Option.isSome_iff_exists.mp
      rw [List.find?_isSome]
      exact ⟨a, List.mem_reverse.mpr (List.mem_of_find?_eq_some hf), List.find?_some hf⟩
    have hbl : b ∈ l := List.mem_reverse.mp (List.mem_of_find?_eq_some hb)
    rw [hb, h b hbl a (List.mem_of_find?_eq_some hf) (List.find?_some hb) (List.find?_some hf)]

end Search

end ListLex
