/-
  PriceFeed — quartiles of quotes of which some are forged.

  Some quotes are replaced by any others.  A rank that has more quotes on either side, itself
  included, than were forged, has an honest one among them; so its quote lies between two honest
  quotes (`bracketed_of_rank`), however the forged ones were chosen.  On either side of the middle
  there are more than `(n - 1) / 2` quotes, on either side of an outer quartile more than `n / 4`.

  * `Desk.quartiles_robust`: which quartiles the honest quotes bracket.
-/
import PriceFeed.Proofs.Quotes.Counting
import PriceFeed.Proofs.Quotes.Quartiles

namespace PriceFeed

variable {n : Nat}

/-- The quote lies between two quotes from other places than the forged ones, and so between the
    least and the greatest of all these. -/
structure Bracketed (quotes : Vector Quote n) (forged : Finset (Fin n)) (v : Quote) : Prop where
  exists_le : ∃ i ∉ forged, quotes.get i ≤ v
  exists_ge : ∃ i ∉ forged, v ≤ quotes.get i

section
variable {quotes seen : Vector Quote n} {forged : Finset (Fin n)}
  (hseen : ∀ i ∉ forged, seen.get i = quotes.get i)
include hseen

/-! ## Ranks -/

section
variable {k : Nat} {v : Quote} (hv : (ranked seen.toList)[k]? = some v)
include hv

theorem exists_honest_le (hlow : forged.card ≤ k) : ∃ i ∉ forged, quotes.get i ≤ v := by
  obtain ⟨i, hi, hle⟩ := exists_of_card_lt (Nat.lt_of_le_of_lt hlow (lt_countP_of_rank hv))
  exact ⟨i, hi, hseen i hi ▸ hle⟩

theorem exists_honest_ge (hhigh : forged.card + k < n) : ∃ i ∉ forged, v ≤ quotes.get i := by
  have hcount := length_le_countP_of_rank hv
  rw [Vector.length_toList] at hcount
  have hmore : forged.card < seen.toList.countP (v ≤ ·) := by omega
  obtain ⟨i, hi, hge⟩ := exists_of_card_lt hmore
  exact ⟨i, hi, hseen i hi ▸ hge⟩

theorem bracketed_of_rank (hlow : forged.card ≤ k) (hhigh : forged.card + k < n) :
    Bracketed quotes forged v :=
  ⟨exists_honest_le hseen hv hlow, exists_honest_ge hseen hv hhigh⟩

end

/-! ## Quartiles -/

section
variable {q : Quartiles} (h : q.Of seen.toList) (hn : 0 < n)
include h hn

theorem bracketed_outer (hfew : forged.card ≤ n / 4) :
    Bracketed quotes forged q.p25 ∧ Bracketed quotes forged q.p75 := by
  have h25 := h.p25
  have h75 := h.p75
  rw [Vector.length_toList] at h25 h75
  exact ⟨bracketed_of_rank hseen h25 (by omega) (by omega),
    bracketed_of_rank hseen h75 (by omega) (by omega)⟩

theorem bracketed_median (hfew : forged.card ≤ (n - 1) / 2) : Bracketed quotes forged q.p50 := by
  have hodd := h.p50_odd
  have heven := h.p50_even
  rw [Vector.length_toList] at hodd heven
  rcases Nat.mod_two_eq_zero_or_one n with hparity | hparity
  · -- the mean is not below what bounds the lower of the two, nor above what bounds the upper
    obtain ⟨below, above, hbelow, habove, hmean⟩ := heven hparity
    have hle := ranked_le (Nat.sub_le _ 1) hbelow habove
    obtain ⟨i, hi, hlow⟩ := exists_honest_le hseen hbelow (by omega)
    obtain ⟨j, hj, hhigh⟩ := exists_honest_ge hseen habove (by omega)
    rw [Int64.le_iff_toInt_le] at hle hlow hhigh
    exact ⟨⟨i, hi, Int64.le_iff_toInt_le.2 (by omega)⟩, j, hj, Int64.le_iff_toInt_le.2 (by omega)⟩
  · exact bracketed_of_rank hseen (hodd hparity) (by omega) (by omega)

end

end

namespace Desk

/-- **The quartiles are robust.**  If less than half of the quotes are forged, the median lies
    between two honest ones; if at most a quarter are, all quartiles do. -/
theorem quartiles_robust (hn : 0 < n) {quotes seen : Vector Quote n} {forged : Finset (Fin n)}
    (hseen : ∀ i ∉ forged, seen.get i = quotes.get i) (journal : Journal) :
    ∃ q desk', ask quartiles ⟨seen.toArray, journal⟩ = (.ok q, desk') ∧
      (forged.card ≤ (n - 1) / 2 → Bracketed quotes forged q.p50) ∧
      (forged.card ≤ n / 4 → Bracketed quotes forged q.p25 ∧ Bracketed quotes forged q.p50 ∧
        Bracketed quotes forged q.p75) := by
  obtain ⟨q, desk', hanswer, hq⟩ := exists_ask_quartiles hn seen journal
  refine ⟨q, desk', hanswer, bracketed_median hseen hq hn, fun hfew => ?_⟩
  obtain ⟨h25, h75⟩ := bracketed_outer hseen hq hn hfew
  exact ⟨h25, bracketed_median hseen hq hn (by omega), h75⟩

/-- One quote of four, and it is the greatest there is. -/
theorem quartiles_robust_greatest :
    ∃ q desk', ask quartiles ⟨#[100, Int64.maxValue, 104, 102], []⟩ = (.ok q, desk') ∧
      Bracketed #v[100, 103, 104, 102] {1} q.p25 ∧ Bracketed #v[100, 103, 104, 102] {1} q.p50 ∧
        Bracketed #v[100, 103, 104, 102] {1} q.p75 := by
  obtain ⟨q, desk', hask, -, hall⟩ := @quartiles_robust 4 (by decide) #v[100, 103, 104, 102]
    #v[100, Int64.maxValue, 104, 102] {1} (by decide) []
  exact ⟨q, desk', hask, hall (by decide)⟩

end Desk

end PriceFeed
