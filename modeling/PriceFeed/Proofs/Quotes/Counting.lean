/-
  PriceFeed — ranks by counting.

  More than `k` quotes are not above the quote of rank `k`, and all but `k` are not below it
  (`lt_countP_of_rank`, `length_le_countP_of_rank`).  Quotes of a list are counted by the places
  that hold them (`countP_toList`), so quotes of some kind that outnumber some places are not all
  at these (`exists_of_card_lt`).
-/
import PriceFeed.Proofs.Quotes.Split

namespace PriceFeed

/-! ## On either side of a rank -/

section
variable {quotes : List Quote} {k : Nat} {v : Quote} (h : (ranked quotes)[k]? = some v)
include h

theorem lt_countP_of_rank : k < quotes.countP (· ≤ v) := by
  have hk := (List.getElem?_eq_some_iff.1 h).1
  have hlow : ∀ a ∈ (ranked quotes).take (k + 1), a ≤ v := by
    intro a ha
    obtain ⟨i, hi, rfl⟩ := List.mem_take_iff_getElem.1 ha
    exact ranked_le (by omega) (List.getElem?_eq_getElem _) h
  calc k < ((ranked quotes).take (k + 1)).length := by rw [List.length_take]; omega
    _ = ((ranked quotes).take (k + 1)).countP (· ≤ v) :=
        (List.countP_eq_length.2 fun a ha => decide_eq_true (hlow a ha)).symm
    _ ≤ (ranked quotes).countP (· ≤ v) := (List.take_sublist _ _).countP_le
    _ = quotes.countP (· ≤ v) := (ranked_perm quotes).countP_eq _

theorem length_le_countP_of_rank : quotes.length ≤ quotes.countP (v ≤ ·) + k := by
  have hk := (List.getElem?_eq_some_iff.1 h).1
  have hhigh : ∀ a ∈ (ranked quotes).drop k, v ≤ a := by
    intro a ha
    obtain ⟨i, hi, rfl⟩ := List.mem_drop_iff_getElem.1 ha
    exact ranked_le (by omega) h (List.getElem?_eq_getElem _)
  calc quotes.length = ((ranked quotes).drop k).length + k := by
        rw [List.length_drop, Nat.sub_add_cancel hk.le, length_ranked]
    _ = ((ranked quotes).drop k).countP (v ≤ ·) + k := by
        rw [List.countP_eq_length.2 fun a ha => decide_eq_true (hhigh a ha)]
    _ ≤ (ranked quotes).countP (v ≤ ·) + k :=
        Nat.add_le_add_right (List.drop_sublist _ _).countP_le k
    _ = quotes.countP (v ≤ ·) + k := by rw [(ranked_perm quotes).countP_eq]

end

/-! ## Places -/

section
variable {n : Nat} {p : Quote → Prop} [DecidablePred p]

theorem countP_toList (quotes : Vector Quote n) :
    quotes.toList.countP p = (Finset.univ.filter fun i => p (quotes.get i)).card := by
  have hlist : quotes.toList = (List.finRange n).map quotes.get := by
    refine List.ext_getElem (by simp) fun i h₁ h₂ => ?_
    simp [Vector.get_eq_getElem]
  rw [hlist, List.countP_map, ← List.toFinset_finRange]
  exact ((List.nodup_finRange n).card_eq_countP (P := fun i => p (quotes.get i))).symm

theorem exists_of_card_lt {quotes : Vector Quote n} {places : Finset (Fin n)}
    (h : places.card < quotes.toList.countP p) : ∃ i ∉ places, p (quotes.get i) := by
  rw [countP_toList] at h
  obtain ⟨i, hi, hnot⟩ := Finset.exists_mem_notMem_of_card_lt_card h
  exact ⟨i, hnot, (Finset.mem_filter.1 hi).2⟩

end

end PriceFeed
