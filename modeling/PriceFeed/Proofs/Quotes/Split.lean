/-
  PriceFeed — buffers split by size.

  A buffer is split at `j` if no quote before `j` is above a quote from `j` on.

  * `Split.swap`: a quote may change places with a later one that is not above it,
    and every split stays: across a split, the two are equal;
  * `Split.getElem?_ranked`: an index with a split on either side holds the quote
    of that rank.
-/
import Mathlib
import PriceFeed.Quotes.Ranks

namespace PriceFeed

variable {n : Nat}

/-- No quote before `j` is above a quote from `j` on. -/
def Split (quotes : Vector Quote n) (j : Nat) : Prop :=
  ∀ a b (ha : a < n) (hb : b < n), a < j → j ≤ b → quotes[a] ≤ quotes[b]

theorem split_zero (quotes : Vector Quote n) : Split quotes 0 := by
  intro a b ha hb haj hjb
  simp at haj

theorem split_size (quotes : Vector Quote n) : Split quotes n := by
  intro a b ha hb haj hjb
  omega

/-- Equal quotes may change places. -/
theorem swap_eq_self {quotes : Vector Quote n} {i k : Nat} (hi : i < n) (hk : k < n)
    (h : quotes[i] = quotes[k]) : quotes.swap i k hi hk = quotes := by
  ext a ha
  rw [Vector.getElem_swap]
  split_ifs with h₁ h₂
  · subst h₁; rw [h]
  · subst h₂; rw [h]
  · rfl

/-- **Splits outlive exchanges.**  A quote that changes places with a later one that is
    not above it keeps every split. -/
theorem Split.swap {quotes : Vector Quote n} {i k j : Nat} (h : Split quotes j) (hik : i ≤ k)
    (hi : i < n) (hk : k < n) (hle : quotes[k] ≤ quotes[i]) :
    Split (quotes.swap i k hi hk) j := by
  by_cases hacross : i < j ∧ j ≤ k
  · rwa [swap_eq_self hi hk (Int64.le_antisymm (h i k hi hk hacross.1 hacross.2) hle)]
  · -- both places are on one side of `j`
    intro a b ha hb haj hjb
    rw [Vector.getElem_swap, Vector.getElem_swap]
    split_ifs
    all_goals first
      | omega
      | exact h _ _ _ _ (by omega) (by omega)

/-- The quotes on either side of an index, put in order, and the one at the index between
    them are all quotes in order, if there is a split before the index and one after it. -/
theorem Split.ranked_toList {quotes : Vector Quote n} {k : Nat} (hk : k < n)
    (hbefore : Split quotes k) (hafter : Split quotes (k + 1)) :
    ranked quotes.toList =
      ranked (quotes.toList.take k) ++ quotes[k] :: ranked (quotes.toList.drop (k + 1)) := by
  have hlow : ∀ a ∈ ranked (quotes.toList.take k), ∀ b (hb : b < n), k ≤ b → a ≤ quotes[b] := by
    intro a ha b hb hkb
    obtain ⟨i, hi, rfl⟩ := List.mem_take_iff_getElem.1 ((ranked_perm _).mem_iff.1 ha)
    have hi := Nat.lt_min.1 hi
    rw [Vector.getElem_toList]
    exact hbefore _ _ _ hb hi.1 hkb
  have hhigh : ∀ b ∈ ranked (quotes.toList.drop (k + 1)), ∀ a (ha : a < n), a ≤ k →
      quotes[a] ≤ b := by
    intro b hb a ha hak
    obtain ⟨i, hi, rfl⟩ := List.mem_drop_iff_getElem.1 ((ranked_perm _).mem_iff.1 hb)
    rw [Vector.getElem_toList]
    exact hafter _ _ ha _ (by omega) (by omega)
  refine (eq_ranked ?_ ?_).symm
  · refine List.pairwise_append.2 ⟨ranked_pairwise _, List.pairwise_cons.2
      ⟨fun b hb => hhigh b hb k hk le_rfl, ranked_pairwise _⟩, fun a ha b hb => ?_⟩
    rcases List.mem_cons.1 hb with rfl | hb
    · exact hlow a ha k hk le_rfl
    · exact Int64.le_trans (hlow a ha k hk le_rfl) (hhigh b hb k hk le_rfl)
  · have hcut : quotes.toList = quotes.toList.take k ++ quotes[k] :: quotes.toList.drop (k + 1) := by
      rw [← Vector.getElem_toList (by simpa using hk), List.getElem_cons_drop, List.take_append_drop]
    conv_rhs => rw [hcut]
    exact (ranked_perm _).append ((ranked_perm _).cons _)

/-- **An index with a split on either side holds the quote of its rank.** -/
theorem Split.getElem?_ranked {quotes : Vector Quote n} {k : Nat} (hk : k < n)
    (hbefore : Split quotes k) (hafter : Split quotes (k + 1)) :
    (ranked quotes.toList)[k]? = some quotes[k] := by
  have hlen : (ranked (quotes.toList.take k)).length = k := by
    rw [length_ranked, List.length_take, Vector.length_toList, Nat.min_eq_left hk.le]
  rw [Split.ranked_toList hk hbefore hafter, List.getElem?_append_right hlen.le, hlen, Nat.sub_self,
    List.getElem?_cons_zero]

/-- Ranks are in order. -/
theorem ranked_le {quotes : List Quote} {i j : Nat} {x y : Quote} (hij : i ≤ j)
    (hx : (ranked quotes)[i]? = some x) (hy : (ranked quotes)[j]? = some y) : x ≤ y := by
  obtain ⟨hi, rfl⟩ := List.getElem?_eq_some_iff.1 hx
  obtain ⟨hj, rfl⟩ := List.getElem?_eq_some_iff.1 hy
  rcases Nat.eq_or_lt_of_le hij with rfl | hlt
  · exact Int64.le_refl _
  · exact List.pairwise_iff_getElem.1 (ranked_pairwise quotes) i j hi hj hlt

end PriceFeed
