/-
  PriceFeed — cuts and splits.

  A cut only exchanges quotes, and never across a split (`Split.cut`).  Where it ends, it has divided
  its window (`cut_divides`).  So a window between two splits gets a split at either mark
  (`split_cut_right`, `split_cut_left`).
-/
import PriceFeed.Proofs.Quotes.Split
import PriceFeed.Proofs.Quotes.Turns

namespace PriceFeed

variable {n : Nat}

/-- **A cut keeps every split.** -/
theorem Split.cut {quotes : Vector Quote n} {j : Nat} (hs : Split quotes j) (pivot : Quote)
    (left right : Nat) (h : right ≤ n) : Split (cut pivot quotes left right h).quotes j := by
  fun_induction PriceFeed.cut pivot quotes left right h with
  | case1 _ _ _ _ _ _ ih => exact ih hs
  | case2 _ _ _ _ _ _ _ ih => exact ih hs
  | case3 quotes left right h hlt hlow hhigh ih =>
    have hle : quotes[right - 1] ≤ quotes[left] :=
      Int64.le_trans (Int64.not_lt.1 hhigh) (Int64.not_lt.1 hlow)
    exact ih (hs.swap (by omega) _ _ hle)
  | case4 => exact hs

/-! ## New splits -/

section
variable {pivot : Quote} {quotes : Vector Quote n} {left right : Nat} {h : right ≤ n}
  (hle : left ≤ right) (hleft : Split quotes left) (hright : Split quotes right)
include hle hleft hright

/-- Any place between the marks of a cut splits a window that has a split at either end. -/
theorem split_cut {j : Nat} (hrj : (cut pivot quotes left right h).right ≤ j)
    (hjl : j ≤ (cut pivot quotes left right h).left) :
    Split (cut pivot quotes left right h).quotes j := by
  have hdivides := cut_divides pivot quotes hle h
  have hmarks := hdivides.marks
  intro a b ha hb haj hjb
  by_cases hla : a < left
  · exact hleft.cut pivot left right h a b ha hb hla (by omega)
  by_cases hbr : right ≤ b
  · exact hright.cut pivot left right h a b ha hb (by omega) hbr
  exact Int64.le_trans (hdivides.le_pivot a ha (by omega) (by omega))
    (hdivides.pivot_le b hb (by omega) (by omega))

theorem split_cut_right :
    Split (cut pivot quotes left right h).quotes (cut pivot quotes left right h).right :=
  split_cut hle hleft hright le_rfl (cut_right_le_left pivot quotes left right h)

theorem split_cut_left :
    Split (cut pivot quotes left right h).quotes (cut pivot quotes left right h).left :=
  split_cut hle hleft hright (cut_right_le_left pivot quotes left right h) le_rfl

end

end PriceFeed
