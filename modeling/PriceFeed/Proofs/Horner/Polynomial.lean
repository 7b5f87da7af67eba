/-
  PriceFeed — the polynomial of a chain.

  A chain without floors is a polynomial in its argument.  Its coefficients are those for the
  argument as a fraction `t = d / 2 ^ 30`: a step multiplies the polynomial so far by
  `2 ^ 30 · t / 2 ^ shift` and puts its own coefficient before it, added to or, with the sign
  of the product turned, subtracted from (`eval_risingPoly`, `eval_fallingPoly`).
-/
import PriceFeed.Horner.Exact
import PriceFeed.Proofs.Polynomial.Unit

namespace PriceFeed.Horner

/-- The polynomial after a step, the product taken `k` times. -/
def Step.poly (s : Step) (k : ℚ) (q : Poly) : Poly :=
  (s.coeff.toNat : ℚ) :: q.scale (k * 2 ^ 30 / 2 ^ s.shift)

/-- The polynomial of a chain, the product of each step taken `k` times. -/
def poly (h : Horner) (k : ℚ) : Poly :=
  h.steps.foldl (fun q s => s.poly k q) [(h.lead.toNat : ℚ)]

def risingPoly (h : Horner) : Poly :=
  h.poly 1

def fallingPoly (h : Horner) : Poly :=
  h.poly (-1)

theorem eval_poly (h : Horner) (k t : ℚ) :
    (h.poly k).eval t = h.steps.foldl
      (fun v s => (s.coeff.toNat : ℚ) + k * (v * (2 ^ 30 * t) / 2 ^ s.shift)) h.lead.toNat := by
  obtain ⟨lead, steps⟩ := h
  suffices key : ∀ q : Poly, (steps.foldl (fun q s => s.poly k q) q).eval t = steps.foldl
      (fun v s => (s.coeff.toNat : ℚ) + k * (v * (2 ^ 30 * t) / 2 ^ s.shift)) (q.eval t) by
    have hlead : Poly.eval [(lead.toNat : ℚ)] t = lead.toNat := by simp
    exact (key _).trans (by rw [hlead])
  intro q
  induction steps generalizing q with
  | nil => rfl
  | cons s steps ih =>
    rw [List.foldl_cons, List.foldl_cons, ih, Step.poly, Poly.eval_cons, Poly.eval_scale]
    congr 1
    ring

theorem eval_risingPoly (h : Horner) (t : ℚ) : h.risingPoly.eval t = h.risingExact (2 ^ 30 * t) := by
  simp only [risingPoly, eval_poly, one_mul, risingExact, Step.riseExact]

theorem eval_fallingPoly (h : Horner) (t : ℚ) :
    h.fallingPoly.eval t = h.fallingExact (2 ^ 30 * t) := by
  simp only [fallingPoly, eval_poly, neg_one_mul, ← sub_eq_add_neg, fallingExact, Step.fallExact]

end PriceFeed.Horner
