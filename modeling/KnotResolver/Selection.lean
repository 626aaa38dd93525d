import Mathlib

/-!
# Round-trip time estimates of server addresses

The RTT state of `lib/selection.c`, kept per address in the cache: `update_rtt` folds a
measured round-trip time in with `calc_rtt_state` (RFC 6298, section 2), `server_timeout`
counts a timeout, and `calc_timeout` turns the state into the timeout of the next attempt,
backed off by the timeouts in a row.

For samples bounded by `R` (at most 1 000 000 ms) the state stays bounded over every run
(`RttInv`), and the timeout stays between 20 ms and 10 s, grows with the timeouts in a row and
never wraps. The first sample after a timeout is not taken as a first sample: `no_rtt_info`
also asks for no timeouts, so the sample is averaged with the zero estimate of an unmeasured
address.
-/

namespace KnotResolver

/-- `struct rtt_state`: three `int32_t` and a `uint64_t` timestamp. -/
structure RttState where
  srtt : ℤ
  variance : ℤ
  consecutiveTimeouts : ℤ
  deadSince : ℕ
  deriving DecidableEq

def defaultTimeout : ℤ := 400
def maxTimeout : ℕ := 10000
def maxBackoff : ℤ := 8
def minimalTimeoutAddition : ℤ := 20
def nsTimeoutRowDead : ℤ := 4
def nsTimeoutMinDeadTimeout : ℕ := 800

/-- `default_rtt_state`: its first timeout is `DEFAULT_TIMEOUT`. -/
def defaultRttState : RttState := ⟨0, defaultTimeout / 4, 0, 0⟩

/-- `no_rtt_info`. -/
def noRttInfo (s : RttState) : Bool := s.srtt == 0 && s.consecutiveTimeouts == 0

/-- `back_off_timeout`: `to << MIN(pow, MAX_BACKOFF)` on a `uint32_t`, capped at
`MAX_TIMEOUT`; the count is never negative, where a shift by it would be undefined. -/
def backOffTimeout (timeout : ℕ) (pow : ℤ) : ℕ :=
  let pow := min pow maxBackoff
  min ((timeout <<< pow.toNat) % 2 ^ 32) maxTimeout

/-- `calc_timeout`: the `int32_t` sum handed to `back_off_timeout` as a `uint32_t`. -/
def calcTimeout (state : RttState) : ℕ :=
  let timeout := state.srtt + max (4 * state.variance) minimalTimeoutAddition
  backOffTimeout (timeout % 2 ^ 32).toNat state.consecutiveTimeouts

/-- `calc_rtt_state`: the sample `newRtt` (an `unsigned`) folded into the estimate; the sum of
the new `srtt` is taken in `unsigned`. -/
def calcRttState (old : RttState) (newRtt : ℕ) : RttState :=
  if noRttInfo old then ⟨newRtt, (newRtt / 2 : ℕ), 0, 0⟩
  else
    { srtt := (((7 * old.srtt + newRtt + 4) % 2 ^ 32).toNat / 8 : ℕ)
      variance := (3 * old.variance + |old.srtt - newRtt| + 2) / 4
      consecutiveTimeouts := 0
      deadSince := 0 }

/-- `server_timeout` on the state read back from the cache, for an attempt with the timeout
`transportTimeout` that was not capped, at the time `now`. -/
def serverTimeout (state : RttState) (transportTimeout now : ℕ) : RttState :=
  let consecutiveTimeouts := min 64 (state.consecutiveTimeouts + 1)
  { state with
    consecutiveTimeouts
    deadSince :=
      if consecutiveTimeouts ≥ nsTimeoutRowDead ∧ transportTimeout ≥ nsTimeoutMinDeadTimeout then
        now
      else state.deadSince }

/-- What the cache keeps for one address changes by a sample of at most `R` ms or by a
timeout. -/
inductive RttStep (R : ℕ) : RttState → RttState → Prop
  | sample (s : RttState) (r : ℕ) (hr : r ≤ R) : RttStep R s (calcRttState s r)
  | timeout (s : RttState) (transportTimeout now : ℕ) :
      RttStep R s (serverTimeout s transportTimeout now)

/-! ## The bounds of the estimate -/

/-- The bounds every state reached keeps. -/
structure RttInv (R : ℕ) (s : RttState) : Prop where
  srtt_nonneg : 0 ≤ s.srtt
  srtt_le : s.srtt ≤ R
  variance_nonneg : 0 ≤ s.variance
  variance_le : s.variance ≤ max (R : ℤ) (defaultTimeout / 4)
  timeouts_nonneg : 0 ≤ s.consecutiveTimeouts
  timeouts_le : s.consecutiveTimeouts ≤ 64

section Bounds

variable {R : ℕ}

theorem rttInv_default : RttInv R defaultRttState where
  srtt_nonneg := le_rfl
  srtt_le := Int.natCast_nonneg R
  variance_nonneg := by decide
  variance_le := le_max_right _ _
  timeouts_nonneg := le_rfl
  timeouts_le := by decide

/-- A sample of at most `R` keeps the bounds: both averages stay below the largest of their
terms. -/
theorem RttInv.calcRttState {s : RttState} (h : RttInv R s) (hR : R ≤ 1000000) {r : ℕ}
    (hr : r ≤ R) : RttInv R (KnotResolver.calcRttState s r) := by
  have hd : defaultTimeout / 4 = 100 := by decide
  unfold KnotResolver.calcRttState
  split_ifs
  -- the first sample
  · refine ⟨?_, ?_, ?_, ?_, ?_, ?_⟩ <;> dsimp only
    · positivity
    · exact_mod_cast hr
    · positivity
    · exact le_max_of_le_left (by exact_mod_cast (Nat.div_le_self r 2).trans hr)
    · exact le_rfl
    · decide
  -- a later sample
  · obtain ⟨hs0, hsR, hv0, hvR, -, -⟩ := h
    rw [hd] at hvR
    -- the unsigned sum does not wrap, so it is the sum itself
    have hsum : (7 * s.srtt + r + 4) % 2 ^ 32 = 7 * s.srtt + r + 4 :=
      Int.emod_eq_of_lt (by omega) (by omega)
    have habs : |s.srtt - r| ≤ max (R : ℤ) 100 := by
      rw [abs_le]
      constructor <;> omega
    have habs0 := abs_nonneg (s.srtt - r)
    refine ⟨?_, ?_, ?_, ?_, ?_, ?_⟩ <;> dsimp only
    · positivity
    · rw [hsum]
      omega
    · omega
    · rw [hd]
      omega
    · exact le_rfl
    · decide

/-- A timeout keeps the bounds: the count is capped at 64. -/
theorem RttInv.serverTimeout {s : RttState} (h : RttInv R s) (transportTimeout now : ℕ) :
    RttInv R (KnotResolver.serverTimeout s transportTimeout now) :=
  ⟨h.srtt_nonneg, h.srtt_le, h.variance_nonneg, h.variance_le,
    le_min (by decide) (by linarith [h.timeouts_nonneg]), min_le_left _ _⟩

theorem RttInv.step (hR : R ≤ 1000000) {s s' : RttState} (hstep : RttStep R s s')
    (h : RttInv R s) : RttInv R s' := by
  cases hstep with
  | sample r hr => exact h.calcRttState hR hr
  | timeout transportTimeout now => exact h.serverTimeout transportTimeout now

/-- Every state reached from `default_rtt_state` keeps the bounds. -/
theorem rttInv_of_reachable (hR : R ≤ 1000000) {s : RttState}
    (hrun : Relation.ReflTransGen (RttStep R) defaultRttState s) : RttInv R s := by
  induction hrun with
  | refl => exact rttInv_default
  | tail _ hstep ih => exact ih.step hR hstep

end Bounds

/-! ## The timeout -/

section Timeout

variable {R : ℕ}

/-- The base of `calc_timeout` before the back-off: at least 20 ms and, under the bounds, at most
`5 000 000`. -/
theorem calcTimeout_base {s : RttState} (h : RttInv R s) (hR : R ≤ 1000000) :
    20 ≤ s.srtt + max (4 * s.variance) minimalTimeoutAddition ∧
      s.srtt + max (4 * s.variance) minimalTimeoutAddition ≤ 5000000 := by
  obtain ⟨hs0, hsR, hv0, hvR, -, -⟩ := h
  have hmax : max (R : ℤ) (defaultTimeout / 4) ≤ 1000000 := max_le (by omega) (by decide)
  constructor
  · have := le_max_right (4 * s.variance) minimalTimeoutAddition
    have : minimalTimeoutAddition = 20 := rfl
    omega
  · have : max (4 * s.variance) minimalTimeoutAddition ≤ 4000000 :=
      max_le (by omega) (by decide)
    omega

/-- A base below `2 ^ 23` shifted by at most `MAX_BACKOFF` stays below `2 ^ 31`: the `uint32_t`
shift never wraps. -/
theorem shiftLeft_backoff_lt {base : ℕ} (hbase : base ≤ 5000000) (pow : ℤ) :
    base <<< (min pow maxBackoff).toNat < 2 ^ 32 := by
  have hpow : (min pow maxBackoff).toNat ≤ 8 := by
    have : min pow maxBackoff ≤ 8 := min_le_right _ _
    omega
  rw [Nat.shiftLeft_eq]
  calc base * 2 ^ (min pow maxBackoff).toNat ≤ 5000000 * 2 ^ 8 :=
        Nat.mul_le_mul hbase (Nat.pow_le_pow_right (by norm_num) hpow)
    _ < 2 ^ 32 := by norm_num

/-- Under the bounds, `calc_timeout` is the backed-off base, with no wrap, capped at 10 s. -/
theorem calcTimeout_eq {s : RttState} (h : RttInv R s) (hR : R ≤ 1000000) :
    calcTimeout s = min ((s.srtt + max (4 * s.variance) minimalTimeoutAddition).toNat <<<
      (min s.consecutiveTimeouts maxBackoff).toNat) maxTimeout := by
  obtain ⟨hlo, hhi⟩ := calcTimeout_base h hR
  have hbase : (s.srtt + max (4 * s.variance) minimalTimeoutAddition) % 2 ^ 32 =
      s.srtt + max (4 * s.variance) minimalTimeoutAddition :=
    Int.emod_eq_of_lt (by omega) (by omega)
  unfold calcTimeout backOffTimeout
  simp only
  rw [hbase, Nat.mod_eq_of_lt (shiftLeft_backoff_lt (by omega) _)]

/-- The timeout of every state reached lies between 20 ms and `MAX_TIMEOUT`. -/
theorem calcTimeout_mem_Icc {s : RttState} (h : RttInv R s) (hR : R ≤ 1000000) :
    20 ≤ calcTimeout s ∧ calcTimeout s ≤ maxTimeout := by
  obtain ⟨hlo, -⟩ := calcTimeout_base h hR
  rw [calcTimeout_eq h hR]
  refine ⟨le_min ?_ (by decide), min_le_right _ _⟩
  rw [Nat.shiftLeft_eq]
  calc 20 ≤ (s.srtt + max (4 * s.variance) minimalTimeoutAddition).toNat := by omega
    _ ≤ _ := Nat.le_mul_of_pos_right _ (Nat.two_pow_pos _)

/-- More timeouts in a row never shorten the timeout. -/
theorem calcTimeout_mono {s : RttState} (h : RttInv R s) (hR : R ≤ 1000000) {n : ℤ}
    (hn : s.consecutiveTimeouts ≤ n) (hn64 : n ≤ 64) :
    calcTimeout s ≤ calcTimeout { s with consecutiveTimeouts := n } := by
  have h' : RttInv R { s with consecutiveTimeouts := n } :=
    ⟨h.srtt_nonneg, h.srtt_le, h.variance_nonneg, h.variance_le,
      h.timeouts_nonneg.trans hn, hn64⟩
  rw [calcTimeout_eq h hR, calcTimeout_eq h' hR]
  apply min_le_min_right
  rw [Nat.shiftLeft_eq, Nat.shiftLeft_eq]
  apply Nat.mul_le_mul_left
  apply Nat.pow_le_pow_right (by norm_num)
  -- the back-off count grows with the timeouts in a row
  have hmin := min_le_min_right maxBackoff hn
  show (min s.consecutiveTimeouts maxBackoff).toNat ≤ (min n maxBackoff).toNat
  omega

end Timeout

/-! ## The first sample after a timeout -/

/-- After a timeout of an address never measured, the first sample `r` is averaged with the
zero estimate: `srtt` becomes `(r + 4) / 8`, below `r`, where RFC 6298 (2.2) sets it to `r`. -/
theorem calcRttState_after_timeout {r : ℕ} (hr : 0 < r) (hR : r ≤ 1000000)
    (transportTimeout now : ℕ) :
    (calcRttState (serverTimeout defaultRttState transportTimeout now) r).srtt = ((r + 4) / 8 : ℕ) ∧
      (calcRttState (serverTimeout defaultRttState transportTimeout now) r).srtt < r := by
  -- the timeout counted makes the state look measured
  have hinfo : ¬ noRttInfo (serverTimeout defaultRttState transportTimeout now) := by
    simp [noRttInfo, serverTimeout, defaultRttState]
  have hsum : (7 * (0 : ℤ) + r + 4) % 2 ^ 32 = r + 4 := by
    rw [Int.emod_eq_of_lt] <;> omega
  have hsrtt : (calcRttState (serverTimeout defaultRttState transportTimeout now) r).srtt =
      ((r + 4) / 8 : ℕ) := by
    rw [calcRttState, if_neg hinfo]
    simp only [serverTimeout, defaultRttState]
    rw [hsum]
    congr 1
  refine ⟨hsrtt, ?_⟩
  rw [hsrtt]
  omega

theorem calcRttState_after_timeout_hundred :
    (0 < 100 ∧ 100 ≤ 1000000) ∧
      (calcRttState (serverTimeout defaultRttState 400 0) 100).srtt = ((100 + 4) / 8 : ℕ) ∧
        (calcRttState (serverTimeout defaultRttState 400 0) 100).srtt < 100 :=
  ⟨⟨by decide, by decide⟩, calcRttState_after_timeout (by decide) (by decide) 400 0⟩

end KnotResolver
