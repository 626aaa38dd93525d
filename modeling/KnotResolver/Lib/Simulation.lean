import Mathlib

/-!
# Forward simulation of a partial machine by a total one

An implementation whose steps may fail (an assertion that aborts returns none) is run over a
list of operations next to an abstract machine that never fails but accepts only some operations
in some states. When every accepted operation lets the implementation step and keeps a relation
between the two states, every run of accepted operations succeeds and ends in related states.

A machine whose steps return an output to the caller is run next to a ghost state that records
what the caller has seen; a relation between the two that every step keeps holds after every run.

A trace of events some of which are silent (`none`) may be thinned: silent events left out or
merged, the others kept in order. What stands before a silent event of the thinned trace stood
before one of the original trace.
-/

namespace Simulation

variable {σ τ ο ρ α : Type*}

/-- The operations of a run that the abstract machine accepts, each in the state that the ones
before it reach. -/
def Admissible (ok : τ → ο → Prop) (astep : τ → ο → τ) : τ → List ο → Prop
  | _, [] => True
  | a, o :: os => ok a o ∧ Admissible ok astep (astep a o) os

@[simp] theorem admissible_nil (ok : τ → ο → Prop) (astep : τ → ο → τ) (a : τ) :
    Admissible ok astep a [] := trivial

@[simp] theorem admissible_cons (ok : τ → ο → Prop) (astep : τ → ο → τ) (a : τ) (o : ο)
    (os : List ο) :
    Admissible ok astep a (o :: os) ↔ ok a o ∧ Admissible ok astep (astep a o) os := Iff.rfl

/-- The run lemma: a relation kept by every accepted step is kept by every accepted run. -/
theorem foldlM_of_step (R : σ → τ → Prop) {step : σ → ο → Option σ} {astep : τ → ο → τ}
    {ok : τ → ο → Prop}
    (h : ∀ s a o, R s a → ok a o → ∃ s', step s o = some s' ∧ R s' (astep a o)) :
    ∀ (os : List ο) (s : σ) (a : τ), R s a → Admissible ok astep a os →
      ∃ s', os.foldlM step s = some s' ∧ R s' (os.foldl astep a) := by
  intro os
  induction os with
  | nil => exact fun s a hR _ => ⟨s, rfl, hR⟩
  | cons o os ih =>
    intro s a hR hadm
    obtain ⟨hok, hrest⟩ := hadm
    obtain ⟨s', hs', hR'⟩ := h s a o hR hok
    obtain ⟨s'', hs'', hR''⟩ := ih s' (astep a o) hR' hrest
    refine ⟨s'', ?_, hR''⟩
    rw [List.foldlM_cons, hs']
    exact hs''

/-! ## Machines with outputs -/

/-- A machine whose steps also return an output, run next to a ghost state that each input and
its output update. -/
def runObserved (step : σ → ο → σ × ρ) (observe : τ → ο → ρ → τ) : σ × τ → List ο → σ × τ
  | p, [] => p
  | p, o :: os => runObserved step observe ((step p.1 o).1, observe p.2 o (step p.1 o).2) os

/-- The run lemma: a relation between the state and the ghost that every step keeps holds after
every run. -/
theorem runObserved_of_step (I : σ → τ → Prop) {step : σ → ο → σ × ρ} {observe : τ → ο → ρ → τ}
    (h : ∀ s a o, I s a → I (step s o).1 (observe a o (step s o).2)) :
    ∀ (os : List ο) (p : σ × τ), I p.1 p.2 →
      I (runObserved step observe p os).1 (runObserved step observe p os).2 := by
  intro os
  induction os with
  | nil => exact fun p hp => hp
  | cons o os ih => exact fun p hp => ih _ (h p.1 p.2 o hp)

/-! ## Traces with silent events -/

/-- `l₁` is `l₂` with some silent events (`none`) left out: the events that say something are
the same, in the same order, and no silent event has moved across one of them. -/
def Thins (l₁ l₂ : List (Option α)) : Prop :=
  l₁.Sublist l₂ ∧ l₁.reduceOption = l₂.reduceOption

namespace Thins

variable {l l₁ l₂ l₃ : List (Option α)}

@[refl] theorem refl (l : List (Option α)) : Thins l l := ⟨List.Sublist.refl l, rfl⟩

theorem trans (h₁ : Thins l₁ l₂) (h₂ : Thins l₂ l₃) : Thins l₁ l₃ :=
  ⟨h₁.1.trans h₂.1, h₁.2.trans h₂.2⟩

theorem append_left (h : Thins l₁ l₂) (p : List (Option α)) : Thins (p ++ l₁) (p ++ l₂) :=
  ⟨h.1.append_left p, by rw [List.reduceOption_append, List.reduceOption_append, h.2]⟩

theorem append_right (h : Thins l₁ l₂) (p : List (Option α)) : Thins (l₁ ++ p) (l₂ ++ p) :=
  ⟨h.1.append_right p, by rw [List.reduceOption_append, List.reduceOption_append, h.2]⟩

theorem cons (h : Thins l₁ l₂) (x : Option α) : Thins (x :: l₁) (x :: l₂) :=
  h.append_left [x]

/-- A silent event left out. -/
theorem drop_none (h : Thins l₁ l₂) : Thins l₁ (none :: l₂) :=
  ⟨h.1.cons none, by rw [List.reduceOption_cons_of_none, h.2]⟩

/-- The events that say something, each on its own, thin the trace. -/
theorem reduceOption_map_some (l : List (Option α)) : Thins (l.reduceOption.map some) l := by
  induction l with
  | nil => exact refl []
  | cons x l ih =>
    cases x with
    | none =>
      rw [List.reduceOption_cons_of_none]
      exact ih.drop_none
    | some a =>
      rw [List.reduceOption_cons_of_some, List.map_cons]
      exact ih.cons (some a)

/-- The silent events at the front left out, under a map of the events. -/
theorem dropWhile_isNone {β : Type*} (f : α → β) (l : List (Option α)) :
    Thins ((l.dropWhile Option.isNone).map (Option.map f)) (l.map (Option.map f)) := by
  induction l with
  | nil => exact refl []
  | cons x l ih =>
    cases x with
    | none =>
      rw [List.dropWhile_cons_of_pos rfl]
      exact ih.drop_none
    | some a => rw [List.dropWhile_cons_of_neg (by simp)]

/-- The silent events at the front merged into one, under a map of the events. -/
theorem merge_front {β : Type*} (f : α → β) (l : List (Option α)) :
    Thins ((if l.head?.any Option.isNone then [none] else []) ++
      (l.dropWhile Option.isNone).map (Option.map f)) (l.map (Option.map f)) := by
  cases l with
  | nil => exact refl []
  | cons x l =>
    cases x with
    | none =>
      rw [List.dropWhile_cons_of_pos rfl]
      exact (dropWhile_isNone f l).cons none
    | some a => rw [List.dropWhile_cons_of_neg (by simp)]; exact refl _

/-- A silent event of `l₁` stands for one of `l₂` that comes after exactly the events that say
something before it. -/
theorem split_none (h : Thins (l₁ ++ none :: l₂) l) :
    ∃ m₁ m₂, l = m₁ ++ none :: m₂ ∧ m₁.reduceOption = l₁.reduceOption := by
  obtain ⟨hsub, hred⟩ := h
  obtain ⟨r₁, r₂, rfl, h₁, h₂⟩ := List.append_sublist_iff.mp hsub
  obtain ⟨k₁, k₂, rfl, hmem, h₃⟩ := List.cons_sublist_iff.mp h₂
  obtain ⟨j, k, rfl⟩ := List.append_of_mem hmem
  refine ⟨r₁ ++ j, k ++ k₂, by simp, ?_⟩
  -- the events of `l₁` are among those of `r₁`, those of `l₂` among those of `k₂`, and there are
  -- as many on both sides: `j` has none
  have s₁ : l₁.reduceOption.Sublist r₁.reduceOption := h₁.filterMap id
  have s₂ : l₂.reduceOption.Sublist k₂.reduceOption := h₃.filterMap id
  have hlen := congrArg List.length hred
  simp only [List.reduceOption_append, List.reduceOption_cons_of_none, List.length_append] at hlen
  have e₁ := s₁.length_le
  have e₂ := s₂.length_le
  have hj : j.reduceOption = [] := List.length_eq_zero_iff.mp (by omega)
  rw [List.reduceOption_append, hj, List.append_nil]
  exact (s₁.eq_of_length (by omega)).symm

end Thins

end Simulation
