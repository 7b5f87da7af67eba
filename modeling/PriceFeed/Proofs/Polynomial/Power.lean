/-
  PriceFeed — polynomials and exponentials.

  From zero to one, the terms of the exponential series up to a degree, and a last one for
  all that follow them, enclose `exp (c · t)` between two polynomials (`Poly.expBelow_le`,
  `Poly.le_expAbove`).  That makes it decidable whether a polynomial is found to stay below,
  or above, a multiple of an exponential; `logBelow` and `logAbove` stand for `log 2`.

  * `Poly.Below.le_exp`: a polynomial found below is at most that multiple;
  * `Poly.Above.exp_le`: a polynomial found above is at least that multiple.
-/
import PriceFeed.Proofs.Polynomial.Unit

namespace PriceFeed.Poly

/-! ## The exponential series -/

/-- The first `n` terms of the series of `exp (c · t)`. -/
def expTerms (c : ℚ) (n : Nat) : Poly :=
  (List.range n).map fun m => c ^ m / m.factorial

/-- All further terms together are no larger than this multiple of `t ^ n`. -/
def expRest (c : ℚ) (n : Nat) : ℚ :=
  |c| ^ n * (n.succ / (n.factorial * n))

def expBelow (c : ℚ) (n : Nat) : Poly :=
  expTerms c n ++ [-expRest c n]

def expAbove (c : ℚ) (n : Nat) : Poly :=
  expTerms c n ++ [expRest c n]

theorem length_expTerms (c : ℚ) (n : Nat) : (expTerms c n).length = n := by
  rw [expTerms, List.length_map, List.length_range]

theorem eval_expTerms_concat (c r : ℚ) (n : Nat) (t : ℚ) :
    eval (expTerms c n ++ [r]) t = eval (expTerms c n) t + t ^ n * r := by
  rw [eval_append, length_expTerms, eval_cons, eval_nil, mul_zero, add_zero]

theorem eval_expTerms (c : ℚ) (n : Nat) (t : ℚ) :
    eval (expTerms c n) t = ∑ m ∈ Finset.range n, (c * t) ^ m / m.factorial := by
  induction n with
  | zero => rfl
  | succ n ih =>
    have hlast : expTerms c (n + 1) = expTerms c n ++ [c ^ n / n.factorial] := by
      rw [expTerms, List.range_succ, List.map_append]
      rfl
    rw [hlast, eval_expTerms_concat, ih, Finset.sum_range_succ]
    ring

section
variable {c t : ℚ} {n : Nat} (hc : |c| ≤ 1) (hn : 0 < n) (h₀ : 0 ≤ t) (h₁ : t ≤ 1)
include hc hn h₀ h₁

theorem abs_exp_sub_le :
    |Real.exp ((c : ℝ) * t) - (eval (expTerms c n) t : ℚ)| ≤ (t ^ n * expRest c n : ℚ) := by
  have habs : |c * t| ≤ 1 := by
    rw [abs_mul, abs_of_nonneg h₀]
    exact mul_le_one₀ hc h₀ h₁
  have hbound := Real.exp_bound (x := (c : ℝ) * t) (by exact_mod_cast habs) hn
  have hrest : ((t ^ n * expRest c n : ℚ) : ℝ) =
      |(c : ℝ) * t| ^ n * (n.succ / (n.factorial * n)) := by
    rw [abs_mul, abs_of_nonneg (by exact_mod_cast h₀ : (0 : ℝ) ≤ t), expRest]
    push_cast
    ring
  rw [hrest, eval_expTerms]
  push_cast at hbound ⊢
  exact hbound

theorem expBelow_le : (eval (expBelow c n) t : ℝ) ≤ Real.exp ((c : ℝ) * t) := by
  have hdist := (abs_le.1 (abs_exp_sub_le hc hn h₀ h₁)).1
  rw [expBelow, eval_expTerms_concat]
  push_cast at hdist ⊢
  linarith

theorem le_expAbove : Real.exp ((c : ℝ) * t) ≤ eval (expAbove c n) t := by
  have hdist := (abs_le.1 (abs_exp_sub_le hc hn h₀ h₁)).2
  rw [expAbove, eval_expTerms_concat]
  push_cast at hdist ⊢
  linarith

end

/-! ## Powers of two -/

/-- A number below the logarithm of two. -/
def logBelow : ℚ := 287209 / 414355 - 1 / 10 ^ 10

/-- A number above the logarithm of two. -/
def logAbove : ℚ := 287209 / 414355 + 1 / 10 ^ 10

theorem logBelow_le : (logBelow : ℝ) ≤ Real.log 2 := by
  have h := (abs_le.1 Real.log_two_near_10).1
  rw [logBelow]
  push_cast
  linarith

theorem le_logAbove : Real.log 2 ≤ logAbove := by
  have h := (abs_le.1 Real.log_two_near_10).2
  rw [logAbove]
  push_cast
  linarith

/-- The polynomial is found to be at most `k` times `exp (c · t)`. -/
def Below (q : Poly) (k c : ℚ) : Prop :=
  0 ≤ k ∧ |c| ≤ 1 ∧ Nonneg 8 (add (scale k (expBelow c 12)) (scale (-1) q))

/-- The polynomial is found to be at least `k` times `exp (c · t)`. -/
def Above (q : Poly) (k c : ℚ) : Prop :=
  0 ≤ k ∧ |c| ≤ 1 ∧ Nonneg 8 (add q (scale (-k) (expAbove c 12)))

instance (q : Poly) (k c : ℚ) : Decidable (Below q k c) :=
  inferInstanceAs (Decidable (_ ∧ _ ∧ _))

instance (q : Poly) (k c : ℚ) : Decidable (Above q k c) :=
  inferInstanceAs (Decidable (_ ∧ _ ∧ _))

section
variable {q : Poly} {k c t : ℚ} {a : ℝ} (h₀ : 0 ≤ t) (h₁ : t ≤ 1)
include h₀ h₁

theorem Below.le_exp (h : Below q k c) (hc : c ≤ a) : (eval q t : ℝ) ≤ k * Real.exp (a * t) := by
  obtain ⟨hk, habs, hnonneg⟩ := h
  have hgap := hnonneg.eval h₀ h₁
  rw [eval_add, eval_scale, eval_scale] at hgap
  have hk' : (0 : ℝ) ≤ k := by exact_mod_cast hk
  have h₀' : (0 : ℝ) ≤ t := by exact_mod_cast h₀
  calc (eval q t : ℝ) ≤ (k * eval (expBelow c 12) t : ℚ) := by exact_mod_cast (by linarith)
    _ = k * (eval (expBelow c 12) t : ℝ) := by push_cast; rfl
    _ ≤ k * Real.exp (c * t) :=
      mul_le_mul_of_nonneg_left (expBelow_le habs (by decide) h₀ h₁) hk'
    _ ≤ k * Real.exp (a * t) := mul_le_mul_of_nonneg_left
      (Real.exp_le_exp.2 (mul_le_mul_of_nonneg_right hc h₀')) hk'

theorem Above.exp_le (h : Above q k c) (hc : a ≤ c) : k * Real.exp (a * t) ≤ eval q t := by
  obtain ⟨hk, habs, hnonneg⟩ := h
  have hgap := hnonneg.eval h₀ h₁
  rw [eval_add, eval_scale] at hgap
  have hk' : (0 : ℝ) ≤ k := by exact_mod_cast hk
  have h₀' : (0 : ℝ) ≤ t := by exact_mod_cast h₀
  calc k * Real.exp (a * t) ≤ k * Real.exp (c * t) := mul_le_mul_of_nonneg_left
        (Real.exp_le_exp.2 (mul_le_mul_of_nonneg_right hc h₀')) hk'
    _ ≤ k * (eval (expAbove c 12) t : ℝ) :=
      mul_le_mul_of_nonneg_left (le_expAbove habs (by decide) h₀ h₁) hk'
    _ = (k * eval (expAbove c 12) t : ℚ) := by push_cast; rfl
    _ ≤ eval q t := by exact_mod_cast (by linarith)

end

end PriceFeed.Poly
