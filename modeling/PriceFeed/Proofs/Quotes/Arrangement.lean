/-
  PriceFeed — the order in which calls leave a buffer.

  What a call does to the buffer of a desk does not depend on the journal.  A selection reorders it
  as `afterSelect` says, and telling the quartiles does what a row of selections does
  (`Desk.quotes_ask_quartiles`).  So what every selection keeps of a buffer, any calls keep
  (`Desk.after_induction`).
-/
import PriceFeed.Proofs.Quotes.Quartiles

namespace PriceFeed

/-- A buffer after the selection of a rank.  A rank that there is not leaves it as it is. -/
def afterSelect (quotes : Array Quote) (k : Nat) : Array Quote :=
  if hk : k < quotes.size then (select quotes.toVector k hk).quotes.toArray else quotes

theorem afterSelect_perm (quotes : Array Quote) (k : Nat) : (afterSelect quotes k).Perm quotes := by
  unfold afterSelect
  split
  · next hk => exact (select_selects quotes.toVector hk).perm.toArray
  · exact .rfl

@[simp] theorem size_afterSelect (quotes : Array Quote) (k : Nat) :
    (afterSelect quotes k).size = quotes.size :=
  (afterSelect_perm quotes k).size_eq

@[simp] theorem size_foldl_afterSelect (quotes : Array Quote) (ks : List Nat) :
    (ks.foldl afterSelect quotes).size = quotes.size := by
  induction ks generalizing quotes with
  | nil => rfl
  | cons k ks ih => rw [List.foldl_cons, ih, size_afterSelect]

namespace Desk

variable {α β : Type}

theorem quotes_ask_select (desk : Desk) (k : Nat) :
    (ask (select k) desk).2.quotes = afterSelect desk.quotes k := by
  unfold afterSelect
  split
  · next hk => rw [ask_select_of_lt desk hk]
  · next hk =>
    by_cases h : desk.quotes.size = 0
    · rw [ask_select_of_eq_zero desk k h]
    · rw [ask_select_of_le desk h (by omega)]

/-! ## Rows of selections -/

/-- Every desk with `size` quotes answers, and its buffer is then as the selection of these ranks, the
    first one first, leaves it. -/
def Leaves (call : AtDesk α) (size : Nat) (ks : List Nat) : Prop :=
  ∀ desk : Desk, desk.quotes.size = size →
    ∃ a desk', ask call desk = (.ok a, desk') ∧ desk'.quotes = ks.foldl afterSelect desk.quotes

theorem leaves_pure (a : α) (size : Nat) : Leaves (pure a) size [] :=
  fun desk _ => ⟨a, desk, ask_pure a desk, rfl⟩

theorem leaves_record (e : Event) (size : Nat) : Leaves (record e) size [] :=
  fun desk _ => ⟨(), { desk with journal := desk.journal ++ [e] }, rfl, rfl⟩

theorem leaves_select {k size : Nat} (hk : k < size) : Leaves (select k) size [k] := by
  rintro desk rfl
  refine ⟨_, _, ask_select_of_lt desk hk, ?_⟩
  rw [List.foldl_cons, List.foldl_nil, afterSelect, dif_pos hk]

theorem Leaves.bind {call : AtDesk α} {next : α → AtDesk β} {size : Nat} {ks ls : List Nat}
    (h : Leaves call size ks) (h' : ∀ a, Leaves (next a) size ls) :
    Leaves (call >>= next) size (ks ++ ls) := by
  intro desk hsize
  obtain ⟨a, desk₁, hask₁, hquotes₁⟩ := h desk hsize
  obtain ⟨b, desk₂, hask₂, hquotes₂⟩ := h' a desk₁ (by rw [hquotes₁, size_foldl_afterSelect, hsize])
  refine ⟨b, desk₂, ?_, by rw [hquotes₂, hquotes₁, List.foldl_append]⟩
  rw [ask_bind, hask₁]
  exact hask₂

/-- The ranks that the median of `n` quotes is made from, in the order of their selection. -/
def medianRanks (n : Nat) : List Nat :=
  if n % 2 = 1 then [n / 2] else [n / 2 - 1, n / 2]

/-- The ranks that the quartiles of `n` quotes are made from, in the order of their selection. -/
def quartileRanks (n : Nat) : List Nat :=
  medianRanks n ++ [n / 4, n - 1 - n / 4]

theorem half_mem_quartileRanks (n : Nat) : n / 2 ∈ quartileRanks n := by
  unfold quartileRanks medianRanks
  split <;> simp

theorem lt_of_mem_quartileRanks {n k : Nat} (hn : n ≠ 0) (hk : k ∈ quartileRanks n) : k < n := by
  unfold quartileRanks medianRanks at hk
  split at hk <;> simp at hk <;> omega

theorem leaves_median {size : Nat} (h : size ≠ 0) : Leaves (median size) size (medianRanks size) := by
  unfold median medianRanks
  split
  · exact leaves_select (by omega)
  · exact (leaves_select (by omega)).bind fun _ => (leaves_select (by omega)).bind fun _ =>
      leaves_pure _ _

/-- **To the buffer, telling the quartiles is a row of selections.** -/
theorem quotes_ask_quartiles (desk : Desk) :
    (ask quartiles desk).2.quotes = (quartileRanks desk.quotes.size).foldl afterSelect desk.quotes := by
  by_cases h : desk.quotes.size = 0
  · rw [ask_quartiles_of_eq_zero desk h, Array.eq_empty_of_size_eq_zero h]
    exact (Array.eq_empty_of_size_eq_zero (size_foldl_afterSelect _ _)).symm
  · have hrow : Leaves (median desk.quotes.size >>= fun p50 => select (desk.quotes.size / 4) >>=
        fun p25 => select (desk.quotes.size - 1 - desk.quotes.size / 4) >>= fun p75 =>
          record (.quotesAggregated desk.quotes.size ⟨p25, p50, p75⟩) >>= fun _ =>
            pure (⟨p25, p50, p75⟩ : Quartiles)) desk.quotes.size (quartileRanks desk.quotes.size) :=
      (leaves_median h).bind fun _ => (leaves_select (by omega)).bind fun _ =>
        (leaves_select (by omega)).bind fun _ => (leaves_record _ _).bind fun _ => leaves_pure _ _
    obtain ⟨q, desk', hask, hquotes⟩ := hrow desk rfl
    have hasked : ask quartiles desk = (.ok q, desk') := by
      show ask (if desk.quotes.size = 0 then throw .empty else _) desk = _
      rw [if_neg h]
      exact hask
    rw [hasked, hquotes]

/-! ## Runs -/

section
variable {P : Array Quote → Prop} (hstep : ∀ quotes k, P quotes → P (afterSelect quotes k))
include hstep

theorem foldl_afterSelect_induction {quotes : Array Quote} (h : P quotes) (ks : List Nat) :
    P (ks.foldl afterSelect quotes) := by
  induction ks generalizing quotes with
  | nil => exact h
  | cons k ks ih => exact ih (hstep quotes k h)

theorem next_induction {desk : Desk} (h : P desk.quotes) (call : Call) : P (desk.next call).quotes := by
  cases call with
  | select k =>
    rw [next, quotes_ask_select]
    exact hstep _ k h
  | quartiles =>
    rw [next, quotes_ask_quartiles]
    exact foldl_afterSelect_induction hstep h _

/-- **What selections keep, all calls keep.** -/
theorem after_induction {desk : Desk} (h : P desk.quotes) (calls : List Call) :
    P (desk.after calls).quotes := by
  induction calls generalizing desk with
  | nil => exact h
  | cons call calls ih => exact ih (next_induction hstep h call)

end

end Desk

end PriceFeed
