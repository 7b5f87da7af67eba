/-
  PriceFeed — the quote that a search finds.

  A round cuts a window that has a split at either end, and goes on in a part that
  has one too.  So when one quote is left, or the wanted rank falls between the marks,
  there is a split on either side of that rank (`search_selects`), and the quote found
  is the one of that rank (`select_value`).
-/
import PriceFeed.Proofs.Quotes.Cut
import PriceFeed.Quotes.Selection

namespace PriceFeed

variable {n : Nat}

/-- What a search for the quote of rank `k` promises: it only exchanges quotes and keeps
    every split, and the quote that it found stands at `k`, with a split on either side. -/
structure Selection.Selects (s : Selection n) (quotes : Vector Quote n) (k : Nat) (hk : k < n) :
    Prop where
  perm : s.quotes.Perm quotes
  split : ∀ j, Split quotes j → Split s.quotes j
  split_before : Split s.quotes k
  split_after : Split s.quotes (k + 1)
  getElem_eq : s.quotes[k] = s.value

/-- A search that goes on after a cut keeps its promise also for the buffer before the cut,
    however many rounds it counts. -/
theorem Selection.Selects.of_cut {s : Selection n} {pivot : Quote} {quotes : Vector Quote n}
    {lo hi k : Nat} {hn : hi ≤ n} {hk : k < n} (h : s.Selects (cut pivot quotes lo hi hn).quotes k hk)
    (hle : lo ≤ hi) (rounds : Nat) :
    ({ s with rounds := rounds } : Selection n).Selects quotes k hk where
  perm := h.perm.trans (cut_divides pivot quotes hle hn).perm
  split := fun j hj => h.split j (hj.cut pivot lo hi hn)
  split_before := h.split_before
  split_after := h.split_after
  getElem_eq := h.getElem_eq

/-- **A search keeps its promise** in a window that has a split at either end. -/
theorem search_selects {quotes : Vector Quote n} {lo hi k : Nat} (hlo : lo ≤ k) (hk : k < hi)
    (hn : hi ≤ n) (hsl : Split quotes lo) (hsr : Split quotes hi) :
    (search quotes lo hi k hlo hk hn).Selects quotes k (by omega) := by
  fun_induction search quotes lo hi k hlo hk hn with
  | case1 quotes lo hlo hk hn =>
    obtain rfl : lo = k := by omega
    exact ⟨.rfl, fun _ hj => hj, hsl, hsr, rfl⟩
  | case2 quotes lo hi hlo hk hn hone hlt hleft hright hin s ih =>
    exact (ih (hsl.cut _ lo hi hn) (split_cut_right hlt.le hsl hsr)).of_cut hlt.le _
  | case3 quotes lo hi hlo hk hn hone hlt hleft hright hin hcross =>
    obtain ⟨hcross, rfl⟩ := hcross
    have hdivides := cut_divides (pivot quotes lo hi hlt hn) quotes hlt.le hn
    refine ⟨hdivides.perm, fun j hj => hj.cut _ lo hi hn, split_cut_right hlt.le hsl hsr, ?_,
      hdivides.getElem_right hcross _⟩
    rw [← hcross]
    exact split_cut_left hlt.le hsl hsr
  | case4 quotes lo hi hlo hk hn hone hlt hleft hright hin hcross s ih =>
    exact (ih (split_cut_right hlt.le hsl hsr) (hsr.cut _ lo hi hn)).of_cut hlt.le _

theorem select_selects (quotes : Vector Quote n) {k : Nat} (hk : k < n) :
    (select quotes k hk).Selects quotes k hk :=
  search_selects (Nat.zero_le k) hk (Nat.le_refl n) (split_zero quotes) (split_size quotes)

/-- **A selection finds the quote of its rank.** -/
theorem select_value (quotes : Vector Quote n) {k : Nat} (hk : k < n) :
    (ranked quotes.toList)[k]? = some (select quotes k hk).value := by
  have hs := select_selects quotes hk
  rw [← ranked_eq_of_perm hs.perm.toList, hs.split_before.getElem?_ranked hk hs.split_after,
    hs.getElem_eq]

end PriceFeed
