/-
  PriceFeed — quartiles of quotes that are raised.

  Raising quotes where they stand raises none of their ranks: at most `k` places hold a quote below
  the one of rank `k`, and more than `k` hold a raised quote that is not above the raised one of
  rank `k`, so at some place the one is a lower bound and the other an upper bound
  (`rank_le_rank`).  How the selections get at these ranks does not matter.

  * `Desk.quartiles_mono`: raised quotes have no lower quartiles.
-/
import PriceFeed.Proofs.Quotes.Counting
import PriceFeed.Proofs.Quotes.Quartiles

namespace PriceFeed

variable {n : Nat} {quotes raised : Vector Quote n}

theorem card_below_rank_le {k : Nat} {v : Quote} (hv : (ranked quotes.toList)[k]? = some v) :
    (Finset.univ.filter fun i => ¬ v ≤ quotes.get i).card ≤ k := by
  have hcount := length_le_countP_of_rank hv
  have hbelow := countP_toList (p := fun a => ¬ v ≤ a) quotes
  rw [List.length_eq_countP_add_countP (v ≤ ·)] at hcount
  simp only [decide_eq_true_eq] at hcount
  omega

/-- **Ranks rise with the quotes.** -/
theorem rank_le_rank {k : Nat} {v w : Quote} (hle : ∀ i, quotes.get i ≤ raised.get i)
    (hv : (ranked quotes.toList)[k]? = some v) (hw : (ranked raised.toList)[k]? = some w) :
    v ≤ w := by
  have hmore := (card_below_rank_le hv).trans_lt (lt_countP_of_rank hw)
  obtain ⟨i, hi, hupper⟩ := exists_of_card_lt hmore
  have hlower : v ≤ quotes.get i := by
    by_contra hlt
    exact hi (Finset.mem_filter.2 ⟨Finset.mem_univ i, hlt⟩)
  exact Int64.le_trans hlower (Int64.le_trans (hle i) hupper)

/-- So do quartiles, as the mean of two quotes rises with both. -/
theorem Quartiles.Of.mono {q r : Quartiles} (hle : ∀ i, quotes.get i ≤ raised.get i)
    (hq : q.Of quotes.toList) (hr : r.Of raised.toList) :
    q.p25 ≤ r.p25 ∧ q.p50 ≤ r.p50 ∧ q.p75 ≤ r.p75 := by
  obtain ⟨hq25, hq75, hqodd, hqeven⟩ := hq
  obtain ⟨hr25, hr75, hrodd, hreven⟩ := hr
  rw [Vector.length_toList] at *
  refine ⟨rank_le_rank hle hq25 hr25, ?_, rank_le_rank hle hq75 hr75⟩
  rcases Nat.mod_two_eq_zero_or_one n with heven | hodd
  · obtain ⟨below, above, hbelow, habove, hmean⟩ := hqeven heven
    obtain ⟨below', above', hbelow', habove', hmean'⟩ := hreven heven
    have h₁ := rank_le_rank hle hbelow hbelow'
    have h₂ := rank_le_rank hle habove habove'
    rw [Int64.le_iff_toInt_le] at h₁ h₂ ⊢
    omega
  · exact rank_le_rank hle (hqodd hodd) (hrodd hodd)

namespace Desk

/-- **Raised quotes have no lower quartiles**, whichever of them are raised, and by how much. -/
theorem quartiles_mono (hn : 0 < n) (hle : ∀ i, quotes.get i ≤ raised.get i)
    (journal journal' : Journal) :
    ∃ q desk r desk', ask quartiles ⟨quotes.toArray, journal⟩ = (.ok q, desk) ∧
      ask quartiles ⟨raised.toArray, journal'⟩ = (.ok r, desk') ∧
      q.p25 ≤ r.p25 ∧ q.p50 ≤ r.p50 ∧ q.p75 ≤ r.p75 := by
  obtain ⟨q, desk, hask, hq⟩ := exists_ask_quartiles hn quotes journal
  obtain ⟨r, desk', hask', hr⟩ := exists_ask_quartiles hn raised journal'
  exact ⟨q, desk, r, desk', hask, hask', hq.mono hle hr⟩

/-- The least quote of four becomes the greatest, so that each rank is another's. -/
theorem quartiles_mono_least :
    ∃ q desk r desk', ask quartiles ⟨#[7, Int64.minValue, 5, 6], []⟩ = (.ok q, desk) ∧
      ask quartiles ⟨#[7, Int64.maxValue, 5, 6], []⟩ = (.ok r, desk') ∧
      q.p25 ≤ r.p25 ∧ q.p50 ≤ r.p50 ∧ q.p75 ≤ r.p75 :=
  @quartiles_mono 4 #v[7, Int64.minValue, 5, 6] #v[7, Int64.maxValue, 5, 6] (by decide) (by decide)
    [] []

end Desk

end PriceFeed
