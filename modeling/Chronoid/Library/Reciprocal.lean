import Mathlib.Tactic.Ring
import Mathlib.Tactic.Linarith

/-! Division by a constant through a rounded-down reciprocal. The quotient it
gives is never too large and at most one too small, so one correction step makes
it exact. -/

namespace Reciprocal

theorem mul_floor_div_le {n d v : ℕ} (hd : 0 < d) (hn : 0 < n) : v * (n / d) / n ≤ v / d := by
  rw [Nat.le_div_iff_mul_le hd]
  refine Nat.le_of_mul_le_mul_right ?_ hn
  calc v * (n / d) / n * d * n = v * (n / d) / n * n * d := by ring
    _ ≤ v * (n / d) * d := Nat.mul_le_mul_right d (Nat.div_mul_le_self _ n)
    _ = v * (n / d * d) := by ring
    _ ≤ v * n := Nat.mul_le_mul_left v (Nat.div_mul_le_self n d)

theorem div_le_mul_floor_div {n d v : ℕ} (hd : 0 < d) (hv : v < n) :
    v / d ≤ v * (n / d) / n + 1 := by
  have hn : 0 < n := by omega
  refine Nat.le_of_lt_succ ((Nat.div_lt_iff_lt_mul hd).mpr (Nat.lt_of_mul_lt_mul_right (a := n) ?_))
  have hq : v * (n / d) < (v * (n / d) / n + 1) * n := Nat.lt_mul_of_div_lt (Nat.lt_succ_self _) hn
  have hr : v * (n % d) ≤ v * d := Nat.mul_le_mul_left v (Nat.mod_lt n hd).le
  calc v * n = v * (n / d) * d + v * (n % d) := by
        conv_lhs => rw [← Nat.div_add_mod n d]
        ring
    _ ≤ v * (n / d) * d + v * d := by omega
    _ < (v * (n / d) / n + 1) * n * d + n * d := by
        have h₁ := Nat.mul_le_mul_right d hq.le
        have h₂ := Nat.mul_lt_mul_of_pos_right hv hd
        omega
    _ = (v * (n / d) / n + 1 + 1) * d * n := by ring

/-- The remainder left by the estimate tells whether it is one too small. -/
theorem corrected {d v q : ℕ} (hd : 0 < d) (hlow : q ≤ v / d) (hhigh : v / d ≤ q + 1) :
    q * d ≤ v ∧ v - q * d < 2 * d ∧
      (if d ≤ v - q * d then q + 1 else q) = v / d ∧
      (if d ≤ v - q * d then v - q * d - d else v - q * d) = v % d := by
  have hv := Nat.div_add_mod v d
  have hr := Nat.mod_lt v hd
  have hqd : q * d ≤ d * (v / d) := by
    rw [Nat.mul_comm d]
    exact Nat.mul_le_mul_right d hlow
  rcases Nat.lt_or_ge q (v / d) with h | h
  · have he : v / d = q + 1 := by omega
    have hd' : d * (v / d) = q * d + d := by rw [he]; ring
    rw [if_pos (by omega), if_pos (by omega)]
    omega
  · have he : v / d = q := by omega
    have hd' : d * (v / d) = q * d := by rw [he]; ring
    rw [if_neg (by omega), if_neg (by omega)]
    omega

theorem mul_high {n : ℕ} (hn : 0 < n) (a b c d : ℕ) :
    (a * n + b) * (c * n + d) / (n * n) =
      a * c + b * c / n + a * d / n + (b * c % n + a * d % n + b * d / n) / n := by
  have hlow : (a * n + b) * (c * n + d) = n * (a * c * n + b * c + a * d) + b * d := by ring
  have hmid : a * c * n + b * c + a * d + b * d / n =
      n * (a * c + b * c / n + a * d / n) + (b * c % n + a * d % n + b * d / n) := by
    conv_lhs => rw [← Nat.div_add_mod (b * c) n, ← Nat.div_add_mod (a * d) n]
    ring
  rw [← Nat.div_div_eq_div_mul, hlow, Nat.mul_add_div hn, hmid, Nat.mul_add_div hn]

end Reciprocal
