/-
  PriceFeed — quotes in order.

  `ranked` lists quotes from the least to the greatest, so its entry `k` is the
  quote of rank `k`.  It is the only ascending list of those quotes
  (`eq_ranked`), whatever order they came in (`ranked_eq_of_perm`).
-/
import Mathlib
import PriceFeed.Quotes.Basic

namespace PriceFeed

/-- The quotes of a list, the least first. -/
def ranked (quotes : List Quote) : List Quote :=
  quotes.mergeSort fun a b => decide (a ≤ b)

theorem ranked_perm (quotes : List Quote) : (ranked quotes).Perm quotes :=
  List.mergeSort_perm quotes _

@[simp] theorem length_ranked (quotes : List Quote) : (ranked quotes).length = quotes.length :=
  (ranked_perm quotes).length_eq

theorem ranked_pairwise (quotes : List Quote) : (ranked quotes).Pairwise (· ≤ ·) := by
  have h : (ranked quotes).Pairwise fun a b => decide (a ≤ b) = true := by
    refine List.pairwise_mergeSort (fun a b c hab hbc => ?_) (fun a b => ?_) quotes
    · simp only [decide_eq_true_eq] at *
      exact Int64.le_trans hab hbc
    · simp only [Bool.or_eq_true, decide_eq_true_eq]
      exact Int64.le_total a b
  exact h.imp fun hab => of_decide_eq_true hab

/-- There is one ascending list of given quotes. -/
theorem eq_ranked {quotes sorted : List Quote} (hs : sorted.Pairwise (· ≤ ·))
    (hp : sorted.Perm quotes) : sorted = ranked quotes :=
  List.Perm.eq_of_pairwise (fun _ _ _ _ hab hba => Int64.le_antisymm hab hba) hs
    (ranked_pairwise quotes) (hp.trans (ranked_perm quotes).symm)

theorem ranked_eq_of_perm {a b : List Quote} (h : a.Perm b) : ranked a = ranked b :=
  eq_ranked (ranked_pairwise a) ((ranked_perm a).trans h)

end PriceFeed
