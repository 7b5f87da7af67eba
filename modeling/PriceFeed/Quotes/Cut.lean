/-
  PriceFeed — cutting a window of quotes at a pivot (`quick_select`, its inner loop).

  Two marks walk towards each other from the ends of the window `[left, right)`.
  The left one passes quotes below the pivot, the right one quotes above it;
  where both stop, their quotes change places and both go on.  So quotes equal
  to the pivot change places too, and a run of equal quotes is cut in the middle.

  * `cut_right_lt`: a quote that is not below the pivot keeps the right mark from
    staying at its end;
  * `lt_cut_right`: a quote after the first that is not above the pivot keeps
    it from reaching the other end.
-/
import PriceFeed.Quotes.Basic

namespace PriceFeed

/-- A buffer after a cut, and where the marks stand. -/
structure Cut (n : Nat) where
  quotes : Vector Quote n
  left : Nat
  right : Nat

variable {n : Nat}

/-- Cuts the window `[left, right)` of a buffer at a pivot. -/
def cut (pivot : Quote) (quotes : Vector Quote n) (left right : Nat) (h : right ≤ n) : Cut n :=
  if hlt : left < right then
    if quotes[left] < pivot then cut pivot quotes (left + 1) right h
    else if pivot < quotes[right - 1] then cut pivot quotes left (right - 1) (by omega)
    else
      cut pivot (quotes.swap left (right - 1) (by omega) (by omega)) (left + 1) (right - 1)
        (by omega)
  else ⟨quotes, left, right⟩
termination_by right - left

/-- The right mark only moves down. -/
theorem cut_right_le (pivot : Quote) (quotes : Vector Quote n) (left right : Nat) (h : right ≤ n) :
    (cut pivot quotes left right h).right ≤ right := by
  fun_induction cut pivot quotes left right h with
  | case1 _ _ _ _ _ _ ih => exact ih
  | case2 _ _ _ _ _ _ _ ih => omega
  | case3 _ _ _ _ _ _ _ ih => omega
  | case4 => exact Nat.le_refl _

/-- The right mark does not pass the left end of the window. -/
theorem min_le_cut_right (pivot : Quote) (quotes : Vector Quote n) (left right : Nat)
    (h : right ≤ n) : min left right ≤ (cut pivot quotes left right h).right := by
  fun_induction cut pivot quotes left right h with
  | case1 _ _ _ _ _ _ ih => omega
  | case2 _ _ _ _ _ _ _ ih => omega
  | case3 _ _ _ _ _ _ _ ih => omega
  | case4 => exact Nat.min_le_right _ _

/-- A quote of the window that is not below the pivot moves the right mark. -/
theorem cut_right_lt (pivot : Quote) (quotes : Vector Quote n) (left right : Nat) (h : right ≤ n)
    {q : Nat} (hl : left ≤ q) (hr : q < right) (hq : pivot ≤ quotes[q]) :
    (cut pivot quotes left right h).right < right := by
  fun_induction cut pivot quotes left right h with
  | case1 quotes left right h hlt hlow ih =>
    have hne : left ≠ q := by
      rintro rfl
      exact absurd hlow (Int64.not_lt.2 hq)
    exact ih (by omega) hr hq
  | case2 quotes left right h hlt _ _ ih =>
    have := cut_right_le pivot quotes left (right - 1) (by omega)
    omega
  | case3 quotes left right h hlt _ _ ih =>
    have := cut_right_le pivot (quotes.swap left (right - 1) (by omega) (by omega)) (left + 1)
      (right - 1) (by omega)
    omega
  | case4 => omega

/-- A quote of the window, not its first, that is not above the pivot stops the
    right mark before it reaches the left end. -/
theorem lt_cut_right (pivot : Quote) (quotes : Vector Quote n) (left right : Nat) (h : right ≤ n)
    {q : Nat} (hl : left < q) (hr : q < right) (hq : quotes[q] ≤ pivot) :
    left < (cut pivot quotes left right h).right := by
  fun_induction cut pivot quotes left right h with
  | case1 quotes left right h hlt _ ih =>
    have := min_le_cut_right pivot quotes (left + 1) right h
    omega
  | case2 quotes left right h hlt _ hhigh ih =>
    have hne : q ≠ right - 1 := by
      rintro rfl
      exact absurd hhigh (Int64.not_lt.2 hq)
    exact ih hl (by omega) hq
  | case3 quotes left right h hlt _ _ ih =>
    have := min_le_cut_right pivot (quotes.swap left (right - 1) (by omega) (by omega)) (left + 1)
      (right - 1) (by omega)
    omega
  | case4 => omega

end PriceFeed
