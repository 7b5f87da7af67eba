/-
  PriceFeed — what calls at a desk leave in order.

  A selection keeps every split of a buffer (`SplitAt.select`) and adds those on either side of the
  place of its rank (`settled_select`).  So no call undoes what one before it has put in order.

  * `Desk.calls_keep_splits`: splits outlive any calls, quotes in order stay where they are, and
    when the quartiles have been told, every quote that was selected for them is at its place.
-/
import PriceFeed.Proofs.Quotes.Arrangement

namespace PriceFeed

/-- No quote of a buffer before `j` is above a quote from `j` on. -/
def SplitAt (quotes : Array Quote) (j : Nat) : Prop :=
  Split quotes.toVector j

instance {n : Nat} (quotes : Vector Quote n) (j : Nat) : Decidable (Split quotes j) :=
  decidable_of_iff (∀ a b : Fin n, a < j → j ≤ b → quotes[a] ≤ quotes[b])
    ⟨fun h a b ha hb => h ⟨a, ha⟩ ⟨b, hb⟩, fun h a b => h a b a.isLt b.isLt⟩

instance (quotes : Array Quote) (j : Nat) : Decidable (SplitAt quotes j) :=
  inferInstanceAs (Decidable (Split quotes.toVector j))

theorem splitAt_toArray {n : Nat} {quotes : Vector Quote n} {j : Nat} :
    SplitAt quotes.toArray j ↔ Split quotes j := by
  obtain ⟨quotes, rfl⟩ := quotes
  exact .rfl

/-! ## Quotes in order -/

theorem splitAt_of_pairwise {quotes : Array Quote} (h : quotes.toList.Pairwise (· ≤ ·)) (j : Nat) :
    SplitAt quotes j :=
  fun a b ha hb haj hjb => List.pairwise_iff_getElem.1 h a b ha hb (by omega)

theorem pairwise_of_splitAt {quotes : Array Quote} (h : ∀ j, SplitAt quotes j) :
    quotes.toList.Pairwise (· ≤ ·) :=
  List.pairwise_iff_getElem.2 fun a b ha hb hab => h b a b ha hb hab le_rfl

/-- There is one ascending buffer of given quotes. -/
theorem eq_of_pairwise_of_perm {a b : Array Quote} (ha : a.toList.Pairwise (· ≤ ·))
    (hb : b.toList.Pairwise (· ≤ ·)) (h : a.Perm b) : a = b :=
  Array.toList_inj.1
    ((eq_ranked ha (Array.perm_iff_toList_perm.1 h)).trans (eq_ranked hb (.refl _)).symm)

/-! ## Selections -/

theorem SplitAt.select {quotes : Array Quote} {j : Nat} (h : SplitAt quotes j) (k : Nat) :
    SplitAt (afterSelect quotes k) j := by
  unfold afterSelect
  split
  · next hk => exact splitAt_toArray.2 ((select_selects quotes.toVector hk).split j h)
  · exact h

/-- There is a split on either side of the place of a rank, so the quote there is the one of
    that rank (`Settled.getElem?_eq`). -/
structure Settled (quotes : Array Quote) (k : Nat) : Prop where
  before : SplitAt quotes k
  after : SplitAt quotes (k + 1)

theorem Settled.select {quotes : Array Quote} {k : Nat} (h : Settled quotes k) (l : Nat) :
    Settled (afterSelect quotes l) k :=
  ⟨h.before.select l, h.after.select l⟩

theorem settled_select {quotes : Array Quote} {k : Nat} (hk : k < quotes.size) :
    Settled (afterSelect quotes k) k := by
  have hs := select_selects quotes.toVector hk
  rw [afterSelect, dif_pos hk]
  exact ⟨splitAt_toArray.2 hs.split_before, splitAt_toArray.2 hs.split_after⟩

/-- **A row of selections settles every rank of the row**, the first ones too. -/
theorem settled_of_mem {quotes : Array Quote} {ks : List Nat} {k : Nat} (hk : k ∈ ks)
    (hsize : k < quotes.size) : Settled (ks.foldl afterSelect quotes) k := by
  induction ks generalizing quotes with
  | nil => exact absurd hk List.not_mem_nil
  | cons l ks ih =>
    rcases List.mem_cons.1 hk with rfl | hk
    · exact Desk.foldl_afterSelect_induction (P := (Settled · k)) (fun _ l h => h.select l)
        (settled_select hsize) ks
    · exact ih hk (by rwa [size_afterSelect])

theorem Settled.getElem?_eq {quotes : Array Quote} {k : Nat} (h : Settled quotes k)
    (hk : k < quotes.size) : quotes[k]? = (ranked quotes.toList)[k]? := by
  rw [Array.getElem?_eq_getElem hk]
  exact (h.before.getElem?_ranked hk h.after).symm

/-- A buffer that reorders the quotes has their quartiles where the ranks of these are, and at the
    middle, or on both sides of it, the quotes of the ranks there. -/
structure Quartiles.StandIn (q : Quartiles) (quotes after : Array Quote) : Prop where
  p25 : after[quotes.size / 4]? = some q.p25
  p75 : after[quotes.size - 1 - quotes.size / 4]? = some q.p75
  middle : ∃ v, (ranked quotes.toList)[quotes.size / 2]? = some v ∧ after[quotes.size / 2]? = some v
  below_middle : quotes.size % 2 = 0 → ∃ v,
    (ranked quotes.toList)[quotes.size / 2 - 1]? = some v ∧ after[quotes.size / 2 - 1]? = some v

namespace Desk

/-- Telling the quartiles leaves each quote that is selected for them at the place of its rank. -/
theorem getElem?_ask_quartiles {desk : Desk} {k : Nat} (hk : k ∈ quartileRanks desk.quotes.size)
    (hsize : k < desk.quotes.size) :
    (ask quartiles desk).2.quotes[k]? = (ranked desk.quotes.toList)[k]? := by
  have hperm := quartiles_perm desk
  have hsettled : Settled (ask quartiles desk).2.quotes k := by
    rw [quotes_ask_quartiles]
    exact settled_of_mem hk hsize
  rw [hsettled.getElem?_eq (by rwa [hperm.size_eq]),
    ranked_eq_of_perm (Array.perm_iff_toList_perm.1 hperm)]

theorem quartiles_stand {desk : Desk} (h : desk.quotes ≠ #[]) :
    ∃ q desk', ask quartiles desk = (.ok q, desk') ∧ q.StandIn desk.quotes desk'.quotes := by
  have hpos : desk.quotes.size ≠ 0 := fun h0 => h (Array.eq_empty_of_size_eq_zero h0)
  obtain ⟨q, hq, hask⟩ := @ask_quartiles desk.quotes.toList (by simpa using h)
  obtain ⟨desk', hanswer, -⟩ := hask desk (.refl _)
  have hplace : ∀ k ∈ quartileRanks desk.quotes.size,
      desk'.quotes[k]? = (ranked desk.quotes.toList)[k]? := by
    intro k hmem
    have hplaced := getElem?_ask_quartiles hmem (lt_of_mem_quartileRanks hpos hmem)
    rwa [hanswer] at hplaced
  have hrank : ∀ k ∈ quartileRanks desk.quotes.size, ∃ v,
      (ranked desk.quotes.toList)[k]? = some v ∧ desk'.quotes[k]? = some v := by
    intro k hmem
    have hk : k < (ranked desk.quotes.toList).length := by
      rw [length_ranked]
      exact lt_of_mem_quartileRanks hpos hmem
    exact ⟨_, List.getElem?_eq_getElem hk, (hplace k hmem).trans (List.getElem?_eq_getElem hk)⟩
  refine ⟨q, desk', hanswer, ?_, ?_, hrank _ (half_mem_quartileRanks _), fun heven => ?_⟩
  · exact (hplace _ (by simp [quartileRanks])).trans hq.p25
  · exact (hplace _ (by simp [quartileRanks])).trans hq.p75
  · exact hrank _ (by simp [quartileRanks, medianRanks, heven])

/-- **Calls never undo a split.**  What is in order before them is in order after them; in particular
    they leave quotes that are all in order where they are, and the last of the selections that
    quartiles are made from leaves the quotes of the others at their places. -/
theorem calls_keep_splits (desk : Desk) (calls : List Call) :
    (∀ j, SplitAt desk.quotes j → SplitAt (desk.after calls).quotes j) ∧
    (desk.quotes.toList.Pairwise (· ≤ ·) → (desk.after calls).quotes = desk.quotes) ∧
    (desk.quotes ≠ #[] →
      ∃ q desk', ask quartiles desk = (.ok q, desk') ∧ q.StandIn desk.quotes desk'.quotes) := by
  have hsplit : ∀ j, SplitAt desk.quotes j → SplitAt (desk.after calls).quotes j := fun j h =>
    after_induction (P := (SplitAt · j)) (fun _ k h => h.select k) h calls
  refine ⟨hsplit, fun hsorted => ?_, quartiles_stand⟩
  have hafter := pairwise_of_splitAt fun j => hsplit j (splitAt_of_pairwise hsorted j)
  exact eq_of_pairwise_of_perm hafter hsorted (after_perm desk calls)

/-- A split before a rank that is asked for, quotes in order with a tie among them, and the quartiles
    of four quotes. -/
theorem calls_keep_splits_tie :
    SplitAt (after ⟨#[2, 1, 5, 4, 3], []⟩ [.select 4, .select 9, .quartiles]).quotes 2 ∧
    (after ⟨#[Int64.minValue, 2, 2, Int64.maxValue], []⟩ [.quartiles, .select 0]).quotes =
      #[Int64.minValue, 2, 2, Int64.maxValue] ∧
    ∃ q desk', ask quartiles ⟨#[4, 1, 3, 2], []⟩ = (.ok q, desk') ∧
      q.StandIn #[4, 1, 3, 2] desk'.quotes :=
  ⟨(calls_keep_splits ⟨#[2, 1, 5, 4, 3], []⟩ _).1 2 (by decide),
    (calls_keep_splits ⟨#[Int64.minValue, 2, 2, Int64.maxValue], []⟩ _).2.1 (by decide),
    (calls_keep_splits ⟨#[4, 1, 3, 2], []⟩ []).2.2 (by decide)⟩

end Desk

end PriceFeed
