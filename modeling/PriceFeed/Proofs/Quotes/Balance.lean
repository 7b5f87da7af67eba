/-
  PriceFeed — how a cut divides equal quotes.

  Quotes equal to the pivot are passed by the marks only where both stop, and there two quotes
  are passed at a time, one by either mark, or the last one by both.  So of `E` quotes equal to the
  pivot each mark passes at least half (`copies_le_cut`), and a window of equal quotes is halved.

  * `duplicates_balanced`: the parts of a window have room for half of the copies of the pivot each,
    and among equal quotes a selection takes no more rounds than there are halvings, and one.
-/
import PriceFeed.Proofs.Quotes.Rounds

namespace PriceFeed

variable {n : Nat}

/-- How many places of the window `[lo, hi)` hold the quote `v`. -/
def copies (quotes : Vector Quote n) (v : Quote) (lo hi : Nat) : Nat :=
  ((Finset.Ico lo hi).filter fun i => quotes[i]? = some v).card

section
variable (quotes : Vector Quote n) (v : Quote) {lo hi : Nat}

theorem copies_of_le (h : hi ≤ lo) : copies quotes v lo hi = 0 := by
  rw [copies, Finset.Ico_eq_empty (by omega)]
  rfl

theorem copies_le (lo hi : Nat) : copies quotes v lo hi ≤ hi - lo :=
  (Finset.card_filter_le _ _).trans_eq (Nat.card_Ico lo hi)

theorem copies_first (h : lo < hi) : copies quotes v lo hi =
    (if quotes[lo]? = some v then 1 else 0) + copies quotes v (lo + 1) hi := by
  unfold copies
  rw [← Finset.insert_Ico_add_one_left_eq_Ico h, Finset.filter_insert]
  split_ifs
  · rw [Finset.card_insert_of_notMem (by simp), Nat.add_comm]
  · rw [Nat.zero_add]

theorem copies_last (h : lo < hi) : copies quotes v lo hi =
    (if quotes[hi - 1]? = some v then 1 else 0) + copies quotes v lo (hi - 1) := by
  obtain ⟨m, rfl⟩ : ∃ m, hi = m + 1 := ⟨hi - 1, by omega⟩
  unfold copies
  rw [Nat.add_sub_cancel, ← Finset.insert_Ico_right_eq_Ico_add_one (by omega), Finset.filter_insert]
  split_ifs
  · rw [Finset.card_insert_of_notMem (by simp), Nat.add_comm]
  · rw [Nat.zero_add]

theorem copies_first_of_ne (h : lo < hi) (hn : lo < n) (hne : quotes[lo] ≠ v) :
    copies quotes v lo hi = copies quotes v (lo + 1) hi := by
  rw [copies_first quotes v h, Vector.getElem?_eq_getElem hn, if_neg (mt Option.some.inj hne), Nat.zero_add]

theorem copies_last_of_ne (h : lo < hi) (hn : hi - 1 < n) (hne : quotes[hi - 1] ≠ v) :
    copies quotes v lo hi = copies quotes v lo (hi - 1) := by
  rw [copies_last quotes v h, Vector.getElem?_eq_getElem hn, if_neg (mt Option.some.inj hne), Nat.zero_add]

theorem copies_ends_le (h : lo + 1 < hi) :
    copies quotes v lo hi ≤ copies quotes v (lo + 1) (hi - 1) + 2 := by
  rw [copies_first quotes v (by omega), copies_last quotes v h]
  split_ifs <;> omega

/-- An exchange of quotes outside of a window leaves its copies. -/
theorem copies_swap {i j : Nat} (hi' : i < n) (hj : j < n) (hilo : i < lo) (hjhi : hi ≤ j) :
    copies (quotes.swap i j hi' hj) v lo hi = copies quotes v lo hi := by
  unfold copies
  refine congrArg Finset.card (Finset.filter_congr fun a ha => ?_)
  obtain ⟨hla, hah⟩ := Finset.mem_Ico.1 ha
  rw [Vector.getElem?_swap, if_neg (by omega), if_neg (by omega)]

end

/-! ## Cuts -/

/-- **Each mark passes half of the copies of the pivot**, where a copy that both have passed is
    the right one's. -/
theorem copies_le_cut (pivot : Quote) (quotes : Vector Quote n) (left right : Nat) (h : right ≤ n)
    (hle : left ≤ right) :
    copies quotes pivot left right ≤ 2 * (right - (cut pivot quotes left right h).right) ∧
      copies quotes pivot left right ≤ 2 * ((cut pivot quotes left right h).right - left) + 1 := by
  fun_induction cut pivot quotes left right h with
  | case1 quotes left right h hlt hlow ih =>
    have hcopies := copies_first_of_ne quotes pivot hlt (by omega) (Int64.ne_of_lt hlow)
    have hmin := min_le_cut_right pivot quotes (left + 1) right h
    have hparts := ih (by omega)
    omega
  | case2 quotes left right h hlt hlow hhigh ih =>
    have hcopies := copies_last_of_ne quotes pivot hlt (by omega) (Int64.ne_of_lt hhigh).symm
    have hmax := cut_right_le pivot quotes left (right - 1) (by omega)
    have hparts := ih (by omega)
    omega
  | case3 quotes left right h hlt hlow hhigh ih =>
    have hswap := copies_swap quotes pivot (show left < n by omega)
      (show right - 1 < n by omega) (show left < left + 1 by omega) le_rfl
    have hmin := min_le_cut_right pivot (quotes.swap left (right - 1)) (left + 1) (right - 1) (by omega)
    have hmax := cut_right_le pivot (quotes.swap left (right - 1)) (left + 1) (right - 1) (by omega)
    by_cases hone : right = left + 1
    · -- one quote, which both marks pass
      have hcopies := copies_le quotes pivot left right
      omega
    · have hcopies := copies_ends_le quotes pivot (show left + 1 < right by omega)
      have hparts := ih (by omega)
      omega
  | case4 quotes left right h hge =>
    rw [copies_of_le quotes pivot (by omega)]
    omega

/-- The parts of a window have room for half of the copies of its pivot each, the one before the cut
    rounded down, the one from it on rounded up. -/
theorem cutWindow_balanced (quotes : Vector Quote n) {lo hi : Nat} (hlt : lo < hi) (hn : hi ≤ n) :
    copies quotes (pivot quotes lo hi hlt hn) lo hi / 2 ≤ (cutWindow quotes lo hi hlt hn).right - lo ∧
      (copies quotes (pivot quotes lo hi hlt hn) lo hi + 1) / 2 ≤
        hi - (cutWindow quotes lo hi hlt hn).right := by
  obtain ⟨hhigh, hlow⟩ := copies_le_cut (pivot quotes lo hi hlt hn) quotes lo hi hn hlt.le
  unfold cutWindow
  omega

/-! ## Equal quotes -/

/-- One halving takes one from the number of halvings. -/
theorem clog_lt_clog {m l : Nat} (hl : 2 ≤ l) (hm : m ≤ (l + 1) / 2) : Nat.clog 2 m < Nat.clog 2 l := by
  have hhalf : Nat.clog 2 l = Nat.clog 2 ((l + 1) / 2) + 1 := Nat.clog_of_two_le (by decide) hl
  exact hhalf ▸ Nat.lt_succ_of_le (Nat.clog_mono_right 2 hm)

section
variable {v : Quote} {quotes : Vector Quote n} (hv : ∀ a ∈ quotes, a = v) {lo hi : Nat}
include hv

theorem copies_of_forall_eq (hn : hi ≤ n) : copies quotes v lo hi = hi - lo := by
  unfold copies
  rw [Finset.filter_true_of_mem, Nat.card_Ico]
  intro i hi'
  have hlt : i < n := (Finset.mem_Ico.1 hi').2.trans_le hn
  rw [Vector.getElem?_eq_getElem hlt, hv _ (Vector.getElem_mem hlt)]

theorem pivot_of_forall_eq (hlt : lo < hi) (hn : hi ≤ n) : pivot quotes lo hi hlt hn = v :=
  hv _ (pivot_mem quotes hlt hn)

theorem cutWindow_forall_eq (hlt : lo < hi) (hn : hi ≤ n) :
    ∀ a ∈ (cutWindow quotes lo hi hlt hn).quotes, a = v :=
  fun a ha => hv a ((cut_divides _ quotes hlt.le hn).perm.mem_iff.1 ha)

/-- Equal quotes are cut in halves. -/
theorem cutWindow_halves (hlt : lo < hi) (hn : hi ≤ n) :
    (cutWindow quotes lo hi hlt hn).right - lo ≤ (hi - lo + 1) / 2 ∧
      hi - (cutWindow quotes lo hi hlt hn).right ≤ (hi - lo + 1) / 2 := by
  have hbalanced := cutWindow_balanced quotes hlt hn
  have hright := @right_lt_of_two_le n quotes lo hi hlt hn
  have hmin : min lo hi ≤ (cutWindow quotes lo hi hlt hn).right :=
    min_le_cut_right _ quotes lo hi hn
  rw [pivot_of_forall_eq hv hlt hn, copies_of_forall_eq hv hn] at hbalanced
  omega

end

/-- A search among equal quotes takes no more rounds than its window can be halved, and one. -/
theorem search_rounds_le_clog {v : Quote} {quotes : Vector Quote n} (hv : ∀ a ∈ quotes, a = v)
    {lo hi k : Nat} (hlo : lo ≤ k) (hk : k < hi) (hn : hi ≤ n) :
    (search quotes lo hi k hlo hk hn).rounds ≤ Nat.clog 2 (hi - lo) + 1 := by
  refine search_rounds_le_measure (fun quotes => ∀ a ∈ quotes, a = v) (Nat.clog 2)
    (fun quotes lo hi hlt hn htwo hv => ?_) hv hlo hk hn
  obtain ⟨hbefore, hafter⟩ := cutWindow_halves hv hlt hn
  exact ⟨cutWindow_forall_eq hv hlt hn, clog_lt_clog (by omega) hbefore, clog_lt_clog (by omega) hafter⟩

namespace Slice

/-- A round among equal quotes leaves half of them, and they are the same quotes. -/
theorem GoesOn.halves {v : Quote} {p q : Slice n × Nat} (h : GoesOn p q) (hp : p.2 < p.1.size)
    (hv : ∀ a ∈ p.1.quotes, a = v) :
    q.1.size ≤ (p.1.size + 1) / 2 ∧ ∀ a ∈ q.1.quotes, a = v := by
  obtain ⟨-, hlt, hpart⟩ := h.cases hp
  obtain ⟨hlow, hhigh⟩ := cutWindow_halves hv hlt p.1.le
  have hequal := cutWindow_forall_eq hv hlt p.1.le
  rcases hpart with ⟨hquotes, hstart, hstop⟩ | ⟨hquotes, hstart, hstop⟩
  all_goals exact ⟨by omega, by rwa [hquotes]⟩

theorem forall_eq_of_reaches {v : Quote} {p q : Slice n × Nat}
    (h : Relation.ReflTransGen GoesOn p q) (hp : p.2 < p.1.size) (hv : ∀ a ∈ p.1.quotes, a = v) :
    ∀ a ∈ q.1.quotes, a = v := by
  induction h with
  | refl => exact hv
  | tail hsteps hstep ih => exact (hstep.halves (rank_lt_of_reaches hsteps hp) ih).2

end Slice

/-- **A cut divides the copies of its pivot evenly**, however the quotes stand: each part has room for
    half of them.  So every round of a selection among equal quotes leaves at most half of them, and
    the rounds are at most one more than the halvings. -/
theorem duplicates_balanced (quotes : Vector Quote n) :
    (∀ (lo hi : Nat) (hlt : lo < hi) (hn : hi ≤ n),
      copies quotes (pivot quotes lo hi hlt hn) lo hi / 2 ≤ (cutWindow quotes lo hi hlt hn).right - lo ∧
      (copies quotes (pivot quotes lo hi hlt hn) lo hi + 1) / 2 ≤
        hi - (cutWindow quotes lo hi hlt hn).right) ∧
    ∀ v, (∀ a ∈ quotes, a = v) → ∀ (k : Nat) (hk : k < n),
      (∀ p q, Relation.ReflTransGen Slice.GoesOn (Slice.whole quotes, k) p → Slice.GoesOn p q →
        q.1.size ≤ (p.1.size + 1) / 2) ∧
      (select quotes k hk).rounds ≤ Nat.clog 2 n + 1 := by
  refine ⟨fun lo hi => cutWindow_balanced quotes, fun v hv k hk => ⟨fun p q hsteps hstep => ?_, ?_⟩⟩
  · have hequal := Slice.forall_eq_of_reaches hsteps hk hv
    exact (hstep.halves (Slice.rank_lt_of_reaches hsteps hk) hequal).1
  · exact search_rounds_le_clog hv (Nat.zero_le k) hk le_rfl

/-- Four of six quotes are the pivot, and three of three. -/
theorem duplicates_balanced_most :
    (copies #v[5, 5, 1, 5, 9, 5] (pivot #v[5, 5, 1, 5, 9, 5] 0 6 (by decide) (by decide)) 0 6 / 2 ≤
        (cutWindow #v[5, 5, 1, 5, 9, 5] 0 6 (by decide) (by decide)).right - 0 ∧
      (copies #v[5, 5, 1, 5, 9, 5] (pivot #v[5, 5, 1, 5, 9, 5] 0 6 (by decide) (by decide)) 0 6 + 1) / 2 ≤
        6 - (cutWindow #v[5, 5, 1, 5, 9, 5] 0 6 (by decide) (by decide)).right) ∧
    (∀ p q, Relation.ReflTransGen Slice.GoesOn (Slice.whole #v[7, 7, 7], 1) p → Slice.GoesOn p q →
      q.1.size ≤ (p.1.size + 1) / 2) ∧
    (select #v[7, 7, 7] 1 (by decide)).rounds ≤ Nat.clog 2 3 + 1 :=
  ⟨(duplicates_balanced #v[5, 5, 1, 5, 9, 5]).1 0 6 (by decide) (by decide),
    (duplicates_balanced #v[7, 7, 7]).2 7 (by simp) 1 (by decide)⟩

end PriceFeed
