import Mathlib

/-!
# C strings

The `<string.h>` comparisons that C code applies to byte buffers. A buffer read as a C string
ends at its first zero octet; past the end of the list the model reads zeros, which is what
a zero-terminated buffer holds there.
-/

namespace CString

/-- `strncmp`: compares at most `n` octets as unsigned chars, and stops after a zero octet
common to both strings. -/
def strncmp : List UInt8 → List UInt8 → ℕ → ℤ
  | _, _, 0 => 0
  | s1, s2, n + 1 =>
    let c1 := s1.headD 0
    let c2 := s2.headD 0
    if c1 ≠ c2 then (c1.toNat : ℤ) - c2.toNat
    else if c1 = 0 then 0
    else strncmp s1.tail s2.tail n

/-- `strlen`: the octets before the first zero. -/
def strlen (s : List UInt8) : ℕ := (s.takeWhile (· ≠ 0)).length

/-- A string ends at a zero appended to it exactly when it holds no zero itself. -/
theorem strlen_append_zero_eq_iff {s : List UInt8} : strlen (s ++ [0]) = s.length ↔ 0 ∉ s := by
  induction s with
  | nil => simp [strlen]
  | cons c s ih =>
    by_cases hc : c = 0
    · simp [strlen, hc]
    · rw [strlen, List.cons_append, List.takeWhile_cons_of_pos (by simpa using hc),
        List.length_cons, List.length_cons, Nat.add_right_cancel_iff, ← strlen, ih]
      simp [Ne.symm hc]

theorem strncmp_succ (s1 s2 : List UInt8) (n : ℕ) :
    strncmp s1 s2 (n + 1) =
      if s1.headD 0 ≠ s2.headD 0 then ((s1.headD 0).toNat : ℤ) - (s2.headD 0).toNat
      else if s1.headD 0 = 0 then 0
      else strncmp s1.tail s2.tail n := rfl

theorem strncmp_cons_cons (c : UInt8) (s1 s2 : List UInt8) (n : ℕ) (hc : c ≠ 0) :
    strncmp (c :: s1) (c :: s2) (n + 1) = strncmp s1 s2 n := by
  simp [strncmp, hc]

/-- Where the first string has no zero octet among the compared ones, `strncmp` returns `0`
only for equal prefixes. -/
theorem take_eq_of_strncmp_eq_zero {s1 s2 : List UInt8} {n : ℕ} (h : strncmp s1 s2 n = 0)
    (hz : 0 ∉ s1.take n) (hn : n ≤ s1.length) : s2.take n = s1.take n := by
  induction n generalizing s1 s2 with
  | zero => simp
  | succ n ih =>
    obtain ⟨c, s1, rfl⟩ : ∃ c s, s1 = c :: s := List.exists_cons_of_length_pos (by omega)
    have hc : c ≠ 0 := fun h0 => hz (by simp [h0])
    -- the octets differ nowhere: a difference would be returned
    have hhead : s2.headD 0 = c := by
      by_contra hne
      have hdiff : ((c.toNat : ℤ) - (s2.headD 0).toNat) ≠ 0 := by
        have : c.toNat ≠ (s2.headD 0).toNat := fun h' => hne (UInt8.toNat_inj.mp h').symm
        omega
      rw [strncmp_succ, List.headD_cons, if_pos (Ne.symm hne)] at h
      exact hdiff h
    obtain ⟨s2, rfl⟩ : ∃ s, s2 = c :: s := by
      cases s2 with
      | nil => exact absurd hhead.symm (by simpa using hc)
      | cons c' s => exact ⟨s, by simp_all⟩
    rw [strncmp_cons_cons c s1 s2 n hc] at h
    have hrest := ih h (fun h0 => hz (by simp [h0])) (by simpa using hn)
    simp [hrest]

end CString
