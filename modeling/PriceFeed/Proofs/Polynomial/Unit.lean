/-
  PriceFeed — polynomials that are not negative from zero to one.

  A polynomial is the list of its coefficients.  Where a tail of it may be negative, it counts
  in full, and else not at all: that gives a bound from below for all arguments from zero to one
  (`Poly.lower`).  If the bound is negative, the polynomial is looked at on either half of
  the interval, stretched to the whole of it (`Poly.halve`, `Poly.shift`), and so on to a
  given depth.  So whether a polynomial is found not to be negative (`Poly.Nonneg`) is
  decidable, and `Poly.Nonneg.eval` says that it is not.
-/
import Mathlib

namespace PriceFeed

/-- A polynomial with rational coefficients, the constant one first. -/
abbrev Poly := List ℚ

namespace Poly

def eval : Poly → ℚ → ℚ
  | [], _ => 0
  | c :: q, t => c + t * eval q t

@[simp] theorem eval_nil (t : ℚ) : eval [] t = 0 :=
  rfl

@[simp] theorem eval_cons (c : ℚ) (q : Poly) (t : ℚ) : eval (c :: q) t = c + t * eval q t :=
  rfl

theorem eval_append (p q : Poly) (t : ℚ) :
    eval (p ++ q) t = eval p t + t ^ p.length * eval q t := by
  induction p with
  | nil => simp
  | cons c p ih =>
    rw [List.cons_append, eval_cons, eval_cons, ih, List.length_cons, pow_succ]
    ring

/-! ## Sums and multiples -/

def scale (k : ℚ) (q : Poly) : Poly :=
  q.map (k * ·)

@[simp] theorem eval_scale (k : ℚ) (q : Poly) (t : ℚ) : eval (scale k q) t = k * eval q t := by
  induction q with
  | nil => simp [scale]
  | cons c q ih =>
    show k * c + t * eval (scale k q) t = k * (c + t * eval q t)
    rw [ih]
    ring

def add : Poly → Poly → Poly
  | [], q => q
  | p, [] => p
  | b :: p, c :: q => (b + c) :: add p q

@[simp] theorem eval_add (p q : Poly) (t : ℚ) : eval (add p q) t = eval p t + eval q t := by
  fun_induction add p q with
  | case1 q => simp
  | case2 p => simp
  | case3 b p c q ih =>
    rw [eval_cons, eval_cons, eval_cons, ih]
    ring

/-! ## Other arguments -/

/-- The polynomial `k` times that of half the argument. -/
def halveFrom (k : ℚ) : Poly → Poly
  | [] => []
  | c :: q => k * c :: halveFrom (k / 2) q

theorem eval_halveFrom (k : ℚ) (q : Poly) (t : ℚ) :
    eval (halveFrom k q) t = k * eval q (t / 2) := by
  induction q generalizing k with
  | nil => exact (mul_zero k).symm
  | cons c q ih =>
    rw [halveFrom, eval_cons, eval_cons, ih]
    ring

/-- The polynomial of half the argument. -/
def halve (q : Poly) : Poly :=
  halveFrom 1 q

theorem eval_halve (q : Poly) (t : ℚ) : eval (halve q) t = eval q (t / 2) := by
  rw [halve, eval_halveFrom, one_mul]

/-- The polynomial `c + (1 + t) · q`. -/
def carry (c : ℚ) : Poly → Poly
  | [] => [c]
  | b :: q => (c + b) :: carry b q

theorem eval_carry (c : ℚ) (q : Poly) (t : ℚ) : eval (carry c q) t = c + (1 + t) * eval q t := by
  induction q generalizing c with
  | nil => simp [carry]
  | cons b q ih =>
    rw [carry, eval_cons, eval_cons, ih]
    ring

/-- The polynomial of the argument and one more. -/
def shift : Poly → Poly
  | [] => []
  | c :: q => carry c (shift q)

theorem eval_shift (q : Poly) (t : ℚ) : eval (shift q) t = eval q (1 + t) := by
  induction q with
  | nil => rfl
  | cons c q ih => rw [shift, eval_carry, eval_cons, ih]

/-! ## From zero to one -/

/-- A bound from below, for all arguments from zero to one. -/
def lower : Poly → ℚ
  | [] => 0
  | c :: q => c + min 0 (lower q)

theorem lower_le_eval (q : Poly) {t : ℚ} (h₀ : 0 ≤ t) (h₁ : t ≤ 1) : lower q ≤ eval q t := by
  induction q with
  | nil => exact le_rfl
  | cons c q ih =>
    refine add_le_add_right ?_ c
    calc min 0 (lower q) ≤ t * min 0 (lower q) :=
          le_mul_of_le_one_left (min_le_left _ _) h₁
      _ ≤ t * eval q t := mul_le_mul_of_nonneg_left ((min_le_right _ _).trans ih) h₀

/-- The polynomial is found not to be negative from zero to one, on intervals that are halved no
    more than the given number of times. -/
def Nonneg : Nat → Poly → Prop
  | 0, q => 0 ≤ lower q
  | depth + 1, q => 0 ≤ lower q ∨ Nonneg depth (halve q) ∧ Nonneg depth (shift (halve q))

instance decidableNonneg : (depth : Nat) → (q : Poly) → Decidable (Nonneg depth q)
  | 0, _ => inferInstanceAs (Decidable (0 ≤ _))
  | depth + 1, q =>
    have := decidableNonneg depth (halve q)
    have := decidableNonneg depth (shift (halve q))
    inferInstanceAs (Decidable (_ ∨ _ ∧ _))

/-- **A polynomial that is found not to be negative is not.** -/
theorem Nonneg.eval {depth : Nat} {q : Poly} (h : Nonneg depth q) {t : ℚ} (h₀ : 0 ≤ t)
    (h₁ : t ≤ 1) : 0 ≤ eval q t := by
  induction depth generalizing q t with
  | zero => exact le_trans h (lower_le_eval q h₀ h₁)
  | succ depth ih =>
    obtain h | ⟨hleft, hright⟩ := h
    · exact h.trans (lower_le_eval q h₀ h₁)
    by_cases hhalf : 2 * t ≤ 1
    · have := ih hleft (t := 2 * t) (by linarith) hhalf
      rwa [eval_halve, show 2 * t / 2 = t by ring] at this
    · have := ih hright (t := 2 * t - 1) (by linarith) (by linarith)
      rwa [eval_shift, eval_halve, show (1 + (2 * t - 1)) / 2 = t by ring] at this

end Poly

end PriceFeed
