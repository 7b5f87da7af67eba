/-
  PriceFeed — the quote of a given rank (`quick_select`, its outer loop).

  Quick select with a pivot of three quotes.  A round of `search` cuts the window at
  the median of its first, middle and last quote and goes on in the part that holds
  the wanted rank, until one quote is left or the rank falls between the parts.  Each
  part is shorter than the window and not empty (`lt_right_of_two_le`,
  `right_lt_of_two_le`), so the rounds end.
-/
import PriceFeed.Quotes.Cut

namespace PriceFeed

variable {n : Nat}

/-- The quote at which the window `[lo, hi)` is cut. -/
def pivot (quotes : Vector Quote n) (lo hi : Nat) (hlt : lo < hi) (hn : hi ≤ n) : Quote :=
  Quote.medianOfThree quotes[lo] quotes[lo + (hi - lo) / 2] quotes[hi - 1]

theorem pivot_mem (quotes : Vector Quote n) {lo hi : Nat} (hlt : lo < hi) (hn : hi ≤ n) :
    pivot quotes lo hi hlt hn ∈ quotes := by
  unfold pivot
  rcases Quote.medianOfThree_eq_or quotes[lo] quotes[lo + (hi - lo) / 2] quotes[hi - 1] with h | h | h
  all_goals
    rw [h]
    exact Vector.getElem_mem _

/-- The cut of the window `[lo, hi)` at its pivot. -/
def cutWindow (quotes : Vector Quote n) (lo hi : Nat) (hlt : lo < hi) (hn : hi ≤ n) : Cut n :=
  cut (pivot quotes lo hi hlt hn) quotes lo hi hn

/-- The part before the cut is not empty. -/
theorem lt_right_of_two_le {quotes : Vector Quote n} {lo hi : Nat} (hlt : lo < hi) (hn : hi ≤ n)
    (htwo : lo + 2 ≤ hi) : lo < (cutWindow quotes lo hi hlt hn).right := by
  rcases Quote.le_medianOfThree_or quotes[lo] quotes[lo + (hi - lo) / 2] quotes[hi - 1] with h | h
  · exact lt_cut_right _ quotes lo hi hn (by omega) (by omega) h
  · exact lt_cut_right _ quotes lo hi hn (by omega) (by omega) h

/-- The part from the cut on is not empty. -/
theorem right_lt_of_two_le {quotes : Vector Quote n} {lo hi : Nat} (hlt : lo < hi) (hn : hi ≤ n) :
    (cutWindow quotes lo hi hlt hn).right < hi := by
  rcases Quote.medianOfThree_le_or quotes[lo] quotes[lo + (hi - lo) / 2] quotes[hi - 1] with h | h
  · exact cut_right_lt _ quotes lo hi hn (by omega) (by omega) h
  · exact cut_right_lt _ quotes lo hi hn (by omega) (by omega) h

/-- A quote found, the buffer as the search left it, and how many rounds it took. -/
structure Selection (n : Nat) where
  quotes : Vector Quote n
  value : Quote
  rounds : Nat

/-- Searches the window `[lo, hi)` for the quote of rank `k` of the buffer. -/
def search (quotes : Vector Quote n) (lo hi k : Nat) (hlo : lo ≤ k) (hk : k < hi) (hn : hi ≤ n) :
    Selection n :=
  if hone : hi = lo + 1 then ⟨quotes, quotes[lo], 1⟩
  else
    have hlt : lo < hi := by omega
    match hc : cutWindow quotes lo hi hlt hn with
    | c =>
      have hleft : lo < c.right := hc ▸ lt_right_of_two_le hlt hn (by omega)
      have hright : c.right < hi := hc ▸ right_lt_of_two_le hlt hn
      if hin : k < c.right then
        let s := search c.quotes lo c.right k hlo hin (by omega)
        { s with rounds := s.rounds + 1 }
      else if c.left = c.right + 1 ∧ k = c.right then ⟨c.quotes, pivot quotes lo hi hlt hn, 1⟩
      else
        let s := search c.quotes c.right hi k (by omega) hk hn
        { s with rounds := s.rounds + 1 }
termination_by hi - lo

section
variable {quotes : Vector Quote n} {lo hi k : Nat} {hlo : lo ≤ k} {hk : k < hi} {hn : hi ≤ n}
  (hone : hi ≠ lo + 1) (hlt : lo < hi) {c : Cut n} (hc : cutWindow quotes lo hi hlt hn = c)
include hone hc

/-- A rank before the cut. -/
theorem search_low (hright : c.right ≤ n) (hin : k < c.right) :
    search quotes lo hi k hlo hk hn =
      { search c.quotes lo c.right k hlo hin hright with
        rounds := (search c.quotes lo c.right k hlo hin hright).rounds + 1 } := by
  subst hc
  rw [search, dif_neg hone]
  exact dif_pos hin

/-- A rank between the marks. -/
theorem search_between (hcross : c.left = c.right + 1 ∧ k = c.right) :
    search quotes lo hi k hlo hk hn = ⟨c.quotes, pivot quotes lo hi hlt hn, 1⟩ := by
  subst hc
  rw [search, dif_neg hone]
  exact (dif_neg (by omega)).trans (if_pos hcross)

/-- A rank from the cut on. -/
theorem search_high (hin : c.right ≤ k) (hcross : ¬ (c.left = c.right + 1 ∧ k = c.right)) :
    search quotes lo hi k hlo hk hn =
      { search c.quotes c.right hi k hin hk hn with
        rounds := (search c.quotes c.right hi k hin hk hn).rounds + 1 } := by
  subst hc
  rw [search, dif_neg hone]
  exact (dif_neg (Nat.not_lt.2 hin)).trans (if_neg hcross)

end

/-- The quote of rank `k`, counted from zero, and the buffer reordered. -/
def select (quotes : Vector Quote n) (k : Nat) (hk : k < n) : Selection n :=
  search quotes 0 n k (Nat.zero_le k) hk (Nat.le_refl n)

end PriceFeed
