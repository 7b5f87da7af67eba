/-
  PriceFeed — the quartiles of some quotes.

  Each quartile is told by one or two selections from quotes that the selections before
  have left in another order.  As a selection tells the quote of its rank in any order
  (`Desk.tells_select`), the quartiles depend on the quotes alone.

  * `Quartiles.Of`: which ranks the quartiles are;
  * `Desk.ask_quartiles`: quotes have such quartiles, and every desk that holds the
    quotes tells them;
  * `Desk.after_perm`: whatever calls were made before, the quotes are the same.
-/
import PriceFeed.Proofs.Quotes.Desk

namespace PriceFeed

/-- These are the quartiles of the quotes: the quotes a quarter of the way from either end, and
    the middle one, or the mean of the middle two rounded down. -/
structure Quartiles.Of (q : Quartiles) (quotes : List Quote) : Prop where
  p25 : (ranked quotes)[quotes.length / 4]? = some q.p25
  p75 : (ranked quotes)[quotes.length - 1 - quotes.length / 4]? = some q.p75
  p50_odd : quotes.length % 2 = 1 → (ranked quotes)[quotes.length / 2]? = some q.p50
  p50_even : quotes.length % 2 = 0 → ∃ below above,
    (ranked quotes)[quotes.length / 2 - 1]? = some below ∧
      (ranked quotes)[quotes.length / 2]? = some above ∧
      q.p50.toInt = (below.toInt + above.toInt) / 2

/-- The quartiles are in order. -/
theorem Quartiles.Of.le {q : Quartiles} {quotes : List Quote} (h : q.Of quotes) :
    q.p25 ≤ q.p50 ∧ q.p50 ≤ q.p75 := by
  have hlen : quotes.length / 4 < quotes.length := by
    have := (List.getElem?_eq_some_iff.1 h.p25).1
    rwa [length_ranked] at this
  rcases Nat.mod_two_eq_zero_or_one quotes.length with heven | hodd
  · obtain ⟨below, above, hbelow, habove, hmean⟩ := h.p50_even heven
    have h₁ := ranked_le (by omega) h.p25 hbelow
    have h₂ := ranked_le (by omega) hbelow habove
    have h₃ := ranked_le (by omega) habove h.p75
    simp only [Int64.le_iff_toInt_le] at h₁ h₂ h₃ ⊢
    omega
  · exact ⟨ranked_le (by omega) h.p25 (h.p50_odd hodd), ranked_le (by omega) (h.p50_odd hodd) h.p75⟩

namespace Desk

/-- The median told of some quotes is the middle one, or the mean of the middle two. -/
theorem tells_median_odd {quotes : List Quote} {v : Quote} (hodd : quotes.length % 2 = 1)
    (h : (ranked quotes)[quotes.length / 2]? = some v) : Tells (median quotes.length) quotes v := by
  rw [median, if_pos hodd]
  exact tells_select h

theorem tells_median_even {quotes : List Quote} {below above : Quote}
    (heven : quotes.length % 2 = 0) (hbelow : (ranked quotes)[quotes.length / 2 - 1]? = some below)
    (habove : (ranked quotes)[quotes.length / 2]? = some above) :
    Tells (median quotes.length) quotes (Quote.average below above) := by
  rw [median, if_neg (by omega)]
  exact (tells_select hbelow).bind ((tells_select habove).bind (tells_pure _ _))

/-- Some quotes have quartiles, and what is asked for them tells these. -/
theorem exists_tells_quartiles {quotes : List Quote} (hne : quotes ≠ []) :
    ∃ q : Quartiles, q.Of quotes ∧ Tells (median quotes.length) quotes q.p50 ∧
      Tells (select (quotes.length / 4)) quotes q.p25 ∧
      Tells (select (quotes.length - 1 - quotes.length / 4)) quotes q.p75 := by
  have hlen := List.length_pos_iff.2 hne
  have hrank : ∀ k < quotes.length, ∃ v, (ranked quotes)[k]? = some v := by
    intro k hk
    rw [← length_ranked quotes] at hk
    exact ⟨_, List.getElem?_eq_getElem hk⟩
  obtain ⟨p25, h25⟩ := hrank (quotes.length / 4) (by omega)
  obtain ⟨p75, h75⟩ := hrank (quotes.length - 1 - quotes.length / 4) (by omega)
  obtain ⟨above, habove⟩ := hrank (quotes.length / 2) (by omega)
  rcases Nat.mod_two_eq_zero_or_one quotes.length with heven | hodd
  · obtain ⟨below, hbelow⟩ := hrank (quotes.length / 2 - 1) (by omega)
    refine ⟨⟨p25, Quote.average below above, p75⟩, ⟨h25, h75, fun h => by omega, fun _ =>
      ⟨below, above, hbelow, habove, Quote.toInt_average below above⟩⟩,
      tells_median_even heven hbelow habove, tells_select h25, tells_select h75⟩
  · exact ⟨⟨p25, above, p75⟩, ⟨h25, h75, fun _ => habove, fun h => by omega⟩,
      tells_median_odd hodd habove, tells_select h25, tells_select h75⟩

theorem ask_quartiles_of_eq_zero (desk : Desk) (h : desk.quotes.size = 0) :
    ask quartiles desk = (.error .empty, desk) := by
  show ask (if desk.quotes.size = 0 then throw .empty else _) desk = _
  rw [if_pos h]
  rfl

/-- **Quotes have quartiles, and every desk that holds them tells these**, records that it did,
    and holds the same quotes afterwards. -/
theorem ask_quartiles {quotes : List Quote} (hne : quotes ≠ []) :
    ∃ q : Quartiles, q.Of quotes ∧ ∀ desk : Desk, desk.quotes.toList.Perm quotes →
      ∃ desk' : Desk, ask quartiles desk = (.ok q, desk') ∧ desk'.quotes.toList.Perm quotes ∧
        desk'.journal = desk.journal ++ [.quotesAggregated quotes.length q] := by
  obtain ⟨q, hq, h50, h25, h75⟩ := exists_tells_quartiles hne
  refine ⟨q, hq, fun desk hp => ?_⟩
  have hsize : desk.quotes.size = quotes.length := hp.length_eq
  have hpos := List.length_pos_iff.2 hne
  obtain ⟨desk₁, hask₁, hp₁, hj₁⟩ := h50 desk hp
  obtain ⟨desk₂, hask₂, hp₂, hj₂⟩ := h25 desk₁ hp₁
  obtain ⟨desk₃, hask₃, hp₃, hj₃⟩ := h75 desk₂ hp₂
  refine ⟨{ desk₃ with journal := desk₃.journal ++ [.quotesAggregated quotes.length q] }, ?_, hp₃,
    by rw [hj₃, hj₂, hj₁]⟩
  show ask (if desk.quotes.size = 0 then throw .empty else _) desk = _
  rw [if_neg (by omega), hsize, ask_bind, hask₁]
  simp only
  rw [ask_bind, hask₂]
  simp only
  rw [ask_bind, hask₃]
  rfl

theorem exists_ask_quartiles {n : Nat} (hn : 0 < n) (quotes : Vector Quote n) (journal : Journal) :
    ∃ q desk', ask quartiles ⟨quotes.toArray, journal⟩ = (.ok q, desk') ∧ q.Of quotes.toList := by
  have hne : quotes.toList ≠ [] := List.ne_nil_of_length_pos (by rwa [Vector.length_toList])
  obtain ⟨q, hq, hask⟩ := ask_quartiles hne
  obtain ⟨desk', hanswer, -⟩ := hask ⟨quotes.toArray, journal⟩ (.refl _)
  exact ⟨q, desk', hanswer, hq⟩

theorem quartiles_perm (desk : Desk) : (ask quartiles desk).2.quotes.Perm desk.quotes := by
  by_cases h : desk.quotes.toList = []
  · rw [ask_quartiles_of_eq_zero desk (by simpa using h)]
  · obtain ⟨q, -, hq⟩ := ask_quartiles h
    obtain ⟨desk', hask, hp, -⟩ := hq desk (.refl _)
    rw [hask]
    exact Array.perm_iff_toList_perm.2 hp

/-! ## Runs -/

/-- A call at a desk. -/
inductive Call where
  | select (k : Nat)
  | quartiles

/-- The desk after a call, whatever it answered. -/
def next (desk : Desk) : Call → Desk
  | .select k => (ask (select k) desk).2
  | .quartiles => (ask quartiles desk).2

/-- The desk after some calls, the first one first. -/
def after (desk : Desk) (calls : List Call) : Desk :=
  calls.foldl next desk

theorem next_perm (desk : Desk) (call : Call) : (desk.next call).quotes.Perm desk.quotes := by
  cases call with
  | select k => exact select_perm k desk
  | quartiles => exact quartiles_perm desk

/-- Calls at most reorder the quotes. -/
theorem after_perm (desk : Desk) (calls : List Call) :
    (desk.after calls).quotes.Perm desk.quotes := by
  induction calls generalizing desk with
  | nil => exact .rfl
  | cons call calls ih => exact (ih (desk.next call)).trans (next_perm desk call)

/-- **The quartiles are those of the quotes.**  Whatever order the quotes are in, and whatever was
    asked before, the answer is the same; it is never refused, and nothing is recorded but the
    answer. -/
theorem quartiles_eq {quotes : Array Quote} (hne : quotes ≠ #[]) :
    ∃ q : Quartiles, q.Of quotes.toList ∧ q.p25 ≤ q.p50 ∧ q.p50 ≤ q.p75 ∧
      ∀ (desk : Desk) (calls : List Call), desk.quotes.Perm quotes →
        ∃ desk' : Desk, ask quartiles (desk.after calls) = (.ok q, desk') ∧
          desk'.quotes.Perm quotes ∧
          desk'.journal = (desk.after calls).journal ++ [.quotesAggregated quotes.size q] := by
  obtain ⟨q, hq, hask⟩ := @ask_quartiles quotes.toList (by simpa using hne)
  refine ⟨q, hq, hq.le.1, hq.le.2, fun desk calls hp => ?_⟩
  obtain ⟨desk', hask', hp', hj'⟩ :=
    hask (desk.after calls) (Array.perm_iff_toList_perm.1 ((after_perm desk calls).trans hp))
  exact ⟨desk', hask', Array.perm_iff_toList_perm.2 hp', hj'⟩

/-- The two extreme quotes, asked after calls of which two are refused: their mean is not zero
    but, rounded down, one below it. -/
theorem quartiles_eq_extremes : ∃ desk' : Desk,
    ask quartiles (after ⟨#[Int64.minValue, Int64.maxValue], []⟩
      [.select 2, .quartiles, .select 0, .select 7]) =
      (.ok ⟨Int64.minValue, -1, Int64.maxValue⟩, desk') := by
  have hranked : ranked [Int64.maxValue, Int64.minValue] = [Int64.minValue, Int64.maxValue] :=
    (eq_ranked (by decide) (by decide)).symm
  obtain ⟨q, hq, -, -, hask⟩ := @quartiles_eq #[Int64.maxValue, Int64.minValue] (by decide)
  obtain ⟨desk', hask', -⟩ := hask ⟨#[Int64.minValue, Int64.maxValue], []⟩
    [.select 2, .quartiles, .select 0, .select 7] (Array.perm_iff_toList_perm.2 (by decide))
  have h25 := hq.p25
  have h75 := hq.p75
  obtain ⟨below, above, hbelow, habove, h50⟩ := hq.p50_even rfl
  rw [hranked] at h25 h75 hbelow habove
  obtain ⟨p25, p50, p75⟩ := q
  cases h25; cases h75; cases hbelow; cases habove
  obtain rfl : p50 = -1 := Int64.toInt_inj.1 h50
  exact ⟨desk', hask'⟩

end Desk

end PriceFeed
