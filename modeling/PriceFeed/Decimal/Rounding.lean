/-
  PriceFeed — powers of ten, and quotients rounded to the nearest integer.

  * `halfEven a b` is the integer nearest to `a / b`; a tie goes to the even
    one of its two neighbours (`halfEven_lower`, `halfEven_upper`,
    `halfEven_tie`), and an integer less than a half away is the one it is
    (`halfEven_eq_of_near`); together, `halfEven_eq_iff`;
  * `halfUp a b` is the integer nearest to `a / b`; a tie goes up.
-/

namespace PriceFeed

def tenPow (k : Nat) : Nat :=
  Nat.pow 10 k

theorem tenPow_pos (k : Nat) : 0 < tenPow k :=
  Nat.pow_pos (by decide)

@[simp] theorem tenPow_zero : tenPow 0 = 1 :=
  rfl

theorem tenPow_succ (k : Nat) : tenPow (k + 1) = 10 * tenPow k :=
  Nat.mul_comm _ _

theorem tenPow_add (j k : Nat) : tenPow (j + k) = tenPow j * tenPow k :=
  Nat.pow_add 10 j k

theorem tenPow_le_tenPow {j k : Nat} (h : j ≤ k) : tenPow j ≤ tenPow k :=
  Nat.pow_le_pow_right (by decide) h

/-! ## Quotients -/

section
variable {a b c d : Nat} (hb : 0 < b) (hd : 0 < d) (h : a * d = c * b)
include hb hd h

theorem div_eq_div_of_mul_eq_mul : a / b = c / d := by
  rw [← Nat.mul_div_mul_right a b hd, h, Nat.mul_comm b d, Nat.mul_div_mul_right c d hb]

theorem mod_eq_zero_iff_of_mul_eq_mul : a % b = 0 ↔ c % d = 0 := by
  rw [← Nat.dvd_iff_mod_eq_zero, ← Nat.dvd_iff_mod_eq_zero, ← Nat.mul_dvd_mul_iff_right hd, h,
    Nat.mul_comm b d, Nat.mul_dvd_mul_iff_right hb]

end

/-- The integer nearest to `a / b`, a tie going to the even neighbour. -/
def halfEven (a b : Nat) : Nat :=
  if 2 * (a % b) < b ∨ 2 * (a % b) = b ∧ a / b % 2 = 0 then a / b else a / b + 1

/-- The integer nearest to `a / b`, a tie going to the greater neighbour. -/
def halfUp (a b : Nat) : Nat :=
  (a + b / 2) / b

/-- The rounded quotient is one of the two integers next to the quotient. -/
theorem halfEven_eq_or (a b : Nat) : halfEven a b = a / b ∨ halfEven a b = a / b + 1 := by
  unfold halfEven; split <;> simp

/-- The rounded quotient exceeds the quotient by at most a half. -/
theorem halfEven_upper (a b : Nat) : 2 * (b * halfEven a b) ≤ 2 * a + b := by
  have hd := Nat.div_add_mod a b
  unfold halfEven
  split
  · omega
  · rw [Nat.mul_add, Nat.mul_one]; omega

/-- The rounded quotient falls short of the quotient by at most a half. -/
theorem halfEven_lower {a b : Nat} (hb : 0 < b) : 2 * a ≤ 2 * (b * halfEven a b) + b := by
  have hd := Nat.div_add_mod a b
  have hr := Nat.mod_lt a hb
  unfold halfEven
  split
  · omega
  · rw [Nat.mul_add, Nat.mul_one]; omega

/-- An integer less than a half away from the quotient is the rounded quotient. -/
theorem halfEven_eq_of_near {a b n : Nat} (hlow : 2 * (b * n) < 2 * a + b)
    (hhigh : 2 * a < 2 * (b * n) + b) : halfEven a b = n := by
  have hb : 0 < b := by omega
  have hupper := halfEven_upper a b
  have hlower := halfEven_lower (a := a) hb
  have hle : b * halfEven a b < b * (n + 1) := by rw [Nat.mul_add]; omega
  have hge : b * n < b * (halfEven a b + 1) := by rw [Nat.mul_add]; omega
  have := Nat.lt_of_mul_lt_mul_left hle
  have := Nat.lt_of_mul_lt_mul_left hge
  omega

/-- A tie goes to the even neighbour. -/
theorem halfEven_tie {a b : Nat} (h : 2 * (a % b) = b) : halfEven a b % 2 = 0 := by
  unfold halfEven
  split <;> omega

/-- The integer nearest to a quotient: no more than a half away, and even if that is a tie. -/
theorem halfEven_eq_iff {a b n : Nat} (hb : 0 < b) :
    halfEven a b = n ↔ 2 * a ≤ 2 * (b * n) + b ∧ 2 * (b * n) ≤ 2 * a + b ∧
      (2 * a = 2 * (b * n) + b ∨ 2 * (b * n) = 2 * a + b → n % 2 = 0) := by
  have hlower := halfEven_lower (a := a) hb
  have hupper := halfEven_upper a b
  have htie : 2 * a = 2 * (b * halfEven a b) + b ∨ 2 * (b * halfEven a b) = 2 * a + b →
      halfEven a b % 2 = 0 := by
    have hd := Nat.div_add_mod a b
    have hr := Nat.mod_lt a hb
    intro h
    refine halfEven_tie ?_
    rcases halfEven_eq_or a b with he | he <;> rw [he] at h
    · omega
    · rw [Nat.mul_add] at h; omega
  constructor
  · rintro rfl
    exact ⟨hlower, hupper, htie⟩
  · rintro ⟨hlow, hhigh, heven⟩
    -- two such integers are neighbours at most, and if they are, one of them is odd
    have hle : b * halfEven a b ≤ b * (n + 1) := by rw [Nat.mul_add]; omega
    have hge : b * n ≤ b * (halfEven a b + 1) := by rw [Nat.mul_add]; omega
    have hle := Nat.le_of_mul_le_mul_left hle hb
    have hge := Nat.le_of_mul_le_mul_left hge hb
    rcases Nat.lt_trichotomy (halfEven a b) n with hlt | heq | hlt
    · obtain rfl : n = halfEven a b + 1 := by omega
      rw [Nat.mul_add] at hlow hhigh heven
      omega
    · exact heq
    · have heq : halfEven a b = n + 1 := by omega
      rw [heq, Nat.mul_add] at hlower hupper htie
      omega

/-- An even integer is not above the rounded quotient exactly if it is no more than a half above
    the quotient. -/
theorem le_halfEven_iff {a b n : Nat} (hb : 0 < b) (hn : n % 2 = 0) :
    n ≤ halfEven a b ↔ 2 * (b * n) ≤ 2 * a + b := by
  obtain ⟨hlow, hhigh, heven⟩ := (halfEven_eq_iff hb).1 (Eq.refl (halfEven a b))
  constructor
  · intro h
    have := Nat.mul_le_mul_left b h
    omega
  · intro h
    rw [← Nat.not_lt]
    intro hlt
    have hle := Nat.mul_le_mul_left b hlt
    rw [Nat.succ_eq_add_one, Nat.mul_add] at hle
    have heq : n = halfEven a b + 1 := by
      have : b * n ≤ b * (halfEven a b + 1) := by rw [Nat.mul_add]; omega
      have := Nat.le_of_mul_le_mul_left this hb
      omega
    omega

theorem halfEven_mul_right (a b : Nat) {c : Nat} (hc : 0 < c) :
    halfEven (a * c) (b * c) = halfEven a b := by
  unfold halfEven
  rw [Nat.mul_mod_mul_right, Nat.mul_div_mul_right _ _ hc, ← Nat.mul_assoc]
  simp only [Nat.mul_lt_mul_right hc, Nat.mul_left_inj (Nat.ne_of_gt hc)]

theorem halfEven_le_of_le {a a' b : Nat} (hb : 0 < b) (h : a ≤ a') :
    halfEven a b ≤ halfEven a' b := by
  rw [← Nat.not_lt]
  intro hlt
  -- two numbers that round apart, the smaller one up, would be one tie
  have hupper := halfEven_upper a b
  have hlower := halfEven_lower (a := a') hb
  have hstep := Nat.mul_le_mul_left b hlt
  rw [Nat.succ_eq_add_one, Nat.mul_add] at hstep
  obtain rfl : a = a' := by omega
  exact Nat.lt_irrefl _ hlt

/-- A greater quotient is not rounded to a smaller integer. -/
theorem halfEven_le_halfEven {a b c d : Nat} (hb : 0 < b) (hd : 0 < d) (h : a * d ≤ c * b) :
    halfEven a b ≤ halfEven c d := by
  rw [← halfEven_mul_right a b hd, ← halfEven_mul_right c d hb, Nat.mul_comm d b]
  exact halfEven_le_of_le (Nat.mul_pos hb hd) h

/-- Equal quotients are rounded to the same integer. -/
theorem halfEven_eq_halfEven {a b c d : Nat} (hb : 0 < b) (hd : 0 < d) (h : a * d = c * b) :
    halfEven a b = halfEven c d := by
  rw [← halfEven_mul_right a b hd, h, Nat.mul_comm b d, halfEven_mul_right c d hb]

/-- A quotient that is an integer is not changed. -/
theorem halfEven_of_dvd {a b : Nat} (hb : 0 < b) (h : b ∣ a) : halfEven a b = a / b := by
  have := Nat.mod_eq_zero_of_dvd h
  unfold halfEven
  rw [if_pos (by omega)]

theorem halfEven_mul_cancel (n : Nat) {b : Nat} (hb : 0 < b) : halfEven (n * b) b = n := by
  rw [halfEven_of_dvd hb (Nat.dvd_mul_left b n), Nat.mul_div_cancel n hb]

@[simp] theorem halfEven_one (a : Nat) : halfEven a 1 = a := by
  rw [halfEven_of_dvd Nat.one_pos (Nat.one_dvd a), Nat.div_one]

end PriceFeed
