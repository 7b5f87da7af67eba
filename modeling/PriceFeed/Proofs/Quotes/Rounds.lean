/-
  PriceFeed — the rounds of a search.

  A search in slices ends without an answer at any place out of range, at any negative difference,
  and if it goes on for ever (`Slice.search?`).  None of this happens: a slice is a window
  of the buffer (`Slice.Covers`), on which the checked cut is the cut (`Slice.cut?_eq`), the
  checked round goes on in the part where the search does (`round?_low`, `round?_high`), and so the
  checked search answers as the search (`Slice.search?_eq`).

  * `Slice.shrinks_of_lt`: what any round on a slice that has the wanted rank comes to;
  * `select_terminates`: every round of a selection is such a round, and there are no more of
    them than quotes.
-/
import PriceFeed.Proofs.Quotes.Cut
import PriceFeed.Proofs.Quotes.Slice

namespace PriceFeed

variable {n : Nat}

namespace Slice

theorem sizeSub?_of_le {a b : Nat} (h : b ≤ a) : sizeSub? a b = some (a - b) :=
  if_pos h

theorem get?_of_lt (s : Slice n) {i j : Nat} (hi : i < s.size) (hij : s.start + i = j) (hj : j < n) :
    s.get? i = some s.quotes[j] := by
  subst hij
  exact dif_pos hi

theorem swap?_of_lt (s : Slice n) {i i' j j' : Nat} (hi : i < s.size) (hj : j < s.size)
    (hii : s.start + i = i') (hjj : s.start + j = j') (hi' : i' < n) (hj' : j' < n) :
    s.swap? i j = some { s with quotes := s.quotes.swap i' j' } := by
  subst hii hjj
  exact dif_pos ⟨hi, hj⟩

/-- **Cutting a slice is cutting its window.**  The marks stay within the slice. -/
theorem cut?_eq (pivot : Quote) {quotes : Vector Quote n} {left right : Nat} (h : right ≤ n)
    {start size i j : Nat} (le : start + size ≤ n) (hi : start + i = left) (hj : start + j = right)
    (hsize : j ≤ size) :
    cut? pivot ⟨quotes, start, size, le⟩ i j =
      some (⟨(PriceFeed.cut pivot quotes left right h).quotes, start, size, le⟩,
        (PriceFeed.cut pivot quotes left right h).left - start,
        (PriceFeed.cut pivot quotes left right h).right - start) := by
  fun_induction PriceFeed.cut pivot quotes left right h generalizing i j with
  | case1 quotes left right h hlt hlow ih =>
    have hfirst := get?_of_lt ⟨quotes, start, size, le⟩ (show i < size by omega) hi (by omega)
    rw [cut?, if_pos (by omega), hfirst]
    simp only [Option.bind_eq_bind, Option.bind_some, hlow, if_true]
    exact ih (by omega) hj hsize
  | case2 quotes left right h hlt hlow hhigh ih =>
    have hfirst := get?_of_lt ⟨quotes, start, size, le⟩ (show i < size by omega) hi (by omega)
    have hlast := get?_of_lt ⟨quotes, start, size, le⟩ (show j - 1 < size by omega)
      (show start + (j - 1) = right - 1 by omega) (by omega)
    rw [cut?, if_pos (by omega), hfirst, sizeSub?_of_le (show 1 ≤ j by omega)]
    simp only [Option.bind_eq_bind, Option.bind_some, hlast, hlow, hhigh, if_true, if_false]
    exact ih hi (by omega) (by omega)
  | case3 quotes left right h hlt hlow hhigh ih =>
    have hfirst := get?_of_lt ⟨quotes, start, size, le⟩ (show i < size by omega) hi (by omega)
    have hlast := get?_of_lt ⟨quotes, start, size, le⟩ (show j - 1 < size by omega)
      (show start + (j - 1) = right - 1 by omega) (by omega)
    have hswap := swap?_of_lt ⟨quotes, start, size, le⟩ (show i < size by omega)
      (show j - 1 < size by omega) hi (show start + (j - 1) = right - 1 by omega) (by omega) (by omega)
    rw [cut?, if_pos (by omega), hfirst, sizeSub?_of_le (show 1 ≤ j by omega)]
    simp only [Option.bind_eq_bind, Option.bind_some, hlast, hswap, hlow, hhigh, if_false]
    exact ih (by omega) (by omega) (by omega)
  | case4 quotes left right h hge =>
    rw [cut?, if_neg (by omega)]
    subst hi hj
    simp only [Nat.add_sub_cancel_left]

/-! ## Slices and windows -/

/-- The slice is the window `[lo, hi)` of the buffer. -/
structure Covers (s : Slice n) (quotes : Vector Quote n) (lo hi : Nat) : Prop where
  quotes_eq : s.quotes = quotes
  start_eq : s.start = lo
  stop_eq : s.start + s.size = hi

theorem covers (s : Slice n) : s.Covers s.quotes s.start (s.start + s.size) :=
  ⟨rfl, rfl, rfl⟩

theorem whole_covers (quotes : Vector Quote n) : (whole quotes).Covers quotes 0 n :=
  ⟨rfl, rfl, Nat.zero_add n⟩

theorem take?_covers {s : Slice n} {quotes : Vector Quote n} {lo hi m mid : Nat}
    (h : s.Covers quotes lo hi) (hm : lo + m = mid) (hmid : mid ≤ hi) :
    ∃ s', s.take? m = some s' ∧ s'.Covers quotes lo mid := by
  obtain ⟨rfl, rfl, rfl⟩ := h
  exact ⟨_, dif_pos (by omega), rfl, rfl, hm⟩

theorem drop?_covers {s : Slice n} {quotes : Vector Quote n} {lo hi m mid : Nat}
    (h : s.Covers quotes lo hi) (hm : lo + m = mid) (hmid : mid ≤ hi) :
    ∃ s', s.drop? m = some s' ∧ s'.Covers quotes mid hi := by
  obtain ⟨rfl, rfl, rfl⟩ := h
  exact ⟨_, dif_pos (by omega), rfl, hm, by dsimp only; omega⟩

section
variable {s : Slice n} {quotes : Vector Quote n} {lo hi : Nat} (h : s.Covers quotes lo hi)
  (hlt : lo < hi) (hn : hi ≤ n)
include h

theorem pivot?_eq : s.pivot? = some (pivot quotes lo hi hlt hn) := by
  obtain ⟨rfl, rfl, rfl⟩ := h
  have hfirst := get?_of_lt s (show 0 < s.size by omega) rfl (show s.start < n by omega)
  have hmiddle := get?_of_lt s (show s.size / 2 < s.size by omega)
    (show s.start + s.size / 2 = s.start + (s.start + s.size - s.start) / 2 by omega) (by omega)
  have hlast := get?_of_lt s (show s.size - 1 < s.size by omega)
    (show s.start + (s.size - 1) = s.start + s.size - 1 by omega) (by omega)
  rw [pivot?, sizeSub?_of_le (by omega)]
  simp only [Option.bind_eq_bind, Option.bind_some, hfirst, hmiddle, hlast]
  rfl

theorem cut?_pivot_eq : ∃ s', cut? (pivot quotes lo hi hlt hn) s 0 s.size =
      some (s', (cutWindow quotes lo hi hlt hn).left - lo, (cutWindow quotes lo hi hlt hn).right - lo) ∧
    s'.Covers (cutWindow quotes lo hi hlt hn).quotes lo hi := by
  obtain ⟨rfl, rfl, rfl⟩ := h
  exact ⟨_, cut?_eq _ hn s.le rfl rfl le_rfl, rfl, rfl, rfl⟩

theorem round?_one (hone : hi = lo + 1) {k : Nat} :
    s.round? k = some (.found quotes quotes[lo]) := by
  obtain ⟨rfl, rfl, rfl⟩ := h
  rw [round?, if_pos (by omega), get?_of_lt s (show 0 < s.size by omega) rfl (show s.start < n by omega)]
  rfl

/-- A round on two or more quotes that has cut them. -/
theorem round?_eq_cut (hone : hi ≠ lo + 1) (k : Nat) : ∃ s' : Slice n,
    s'.Covers (cutWindow quotes lo hi hlt hn).quotes lo hi ∧
    s.round? k =
      let c := cutWindow quotes lo hi hlt hn
      if k < c.right - lo then return .narrowed (← s'.take? (c.right - lo)) k
      else if c.left - lo = c.right - lo + 1 ∧ k = c.right - lo then
        return .found c.quotes (pivot quotes lo hi hlt hn)
      else return .narrowed (← s'.drop? (c.right - lo)) (← sizeSub? k (c.right - lo)) := by
  obtain ⟨s', hcut, hs'⟩ := cut?_pivot_eq h hlt hn
  refine ⟨s', hs', ?_⟩
  have hsize : s.size ≠ 1 := by obtain ⟨-, rfl, rfl⟩ := h; omega
  rw [round?, if_neg hsize, pivot?_eq h hlt hn]
  simp only [Option.bind_eq_bind, Option.bind_some, hcut, hs'.quotes_eq]

/-! ## Rounds -/

section
variable (hone : hi ≠ lo + 1) {j k : Nat} (hj : lo + j = k)
include hone hj

/-- A rank before the cut. -/
theorem round?_low (hin : k < (cutWindow quotes lo hi hlt hn).right) :
    ∃ s', s.round? j = some (.narrowed s' j) ∧
      s'.Covers (cutWindow quotes lo hi hlt hn).quotes lo (cutWindow quotes lo hi hlt hn).right := by
  have hright := @right_lt_of_two_le n quotes lo hi hlt hn
  obtain ⟨s', hs', hround⟩ := round?_eq_cut h hlt hn hone j
  obtain ⟨s'', htake, hs''⟩ := take?_covers hs'
    (show lo + ((cutWindow quotes lo hi hlt hn).right - lo) = _ by omega) hright.le
  refine ⟨s'', ?_, hs''⟩
  dsimp only at hround
  rw [hround, if_pos (by omega), htake]
  rfl

/-- A rank between the marks. -/
theorem round?_between (hcross : (cutWindow quotes lo hi hlt hn).left =
      (cutWindow quotes lo hi hlt hn).right + 1 ∧ k = (cutWindow quotes lo hi hlt hn).right) :
    s.round? j = some (.found (cutWindow quotes lo hi hlt hn).quotes (pivot quotes lo hi hlt hn)) := by
  obtain ⟨s', hs', hround⟩ := round?_eq_cut h hlt hn hone j
  dsimp only at hround
  rw [hround, if_neg (by omega), if_pos (by omega)]
  rfl

/-- A rank from the cut on. -/
theorem round?_high (hin : ¬ k < (cutWindow quotes lo hi hlt hn).right)
    (hcross : ¬ ((cutWindow quotes lo hi hlt hn).left =
      (cutWindow quotes lo hi hlt hn).right + 1 ∧ k = (cutWindow quotes lo hi hlt hn).right)) :
    ∃ s' j', s.round? j = some (.narrowed s' j') ∧
      s'.Covers (cutWindow quotes lo hi hlt hn).quotes (cutWindow quotes lo hi hlt hn).right hi ∧
      (cutWindow quotes lo hi hlt hn).right + j' = k := by
  have hleft := @lt_right_of_two_le n quotes lo hi hlt hn (by omega)
  have hright := @right_lt_of_two_le n quotes lo hi hlt hn
  obtain ⟨s', hs', hround⟩ := round?_eq_cut h hlt hn hone j
  obtain ⟨s'', hdrop, hs''⟩ := drop?_covers hs'
    (show lo + ((cutWindow quotes lo hi hlt hn).right - lo) = _ by omega) hright.le
  refine ⟨s'', j - ((cutWindow quotes lo hi hlt hn).right - lo), ?_, hs'', by omega⟩
  dsimp only at hround
  rw [hround, if_neg (by omega), if_neg (by omega), hdrop, sizeSub?_of_le (by omega)]
  rfl

end

end

/-- What a round for rank `j` of the slice comes to: a quote, or a part of the cut window that has the
    rank. -/
theorem round?_cases {s : Slice n} {quotes : Vector Quote n} {lo hi j : Nat}
    (h : s.Covers quotes lo hi) (hn : hi ≤ n) (hlt : lo < hi) (hj : lo + j < hi) :
    (∃ quotes' value, s.round? j = some (.found quotes' value)) ∨
    hi ≠ lo + 1 ∧ ∃ s' j', s.round? j = some (.narrowed s' j') ∧ s'.start + j' = lo + j ∧
      lo + j < s'.start + s'.size ∧
      (s'.Covers (cutWindow quotes lo hi hlt hn).quotes lo (cutWindow quotes lo hi hlt hn).right ∨
        s'.Covers (cutWindow quotes lo hi hlt hn).quotes (cutWindow quotes lo hi hlt hn).right hi) := by
  by_cases hone : hi = lo + 1
  · exact .inl ⟨_, _, round?_one h hn hone⟩
  by_cases hin : lo + j < (cutWindow quotes lo hi hlt hn).right
  · obtain ⟨s', hround, hs'⟩ := round?_low h hlt hn hone rfl hin
    refine .inr ⟨hone, s', j, hround, ?_, ?_, .inl hs'⟩
    · rw [hs'.start_eq]
    · rwa [hs'.stop_eq]
  by_cases hcross : (cutWindow quotes lo hi hlt hn).left = (cutWindow quotes lo hi hlt hn).right + 1 ∧
      lo + j = (cutWindow quotes lo hi hlt hn).right
  · exact .inl ⟨_, _, round?_between h hlt hn hone rfl hcross⟩
  · obtain ⟨s', j', hround, hs', hj'⟩ := round?_high h hlt hn hone rfl hin hcross
    refine .inr ⟨hone, s', j', hround, ?_, ?_, .inr hs'⟩
    · rw [hs'.start_eq, hj']
    · rwa [hs'.stop_eq]

/-- **A search that takes nothing for granted answers**, as the one that knows its bounds. -/
theorem search?_eq {quotes : Vector Quote n} {lo hi k : Nat} (hlo : lo ≤ k) (hk : k < hi)
    (hn : hi ≤ n) : ∀ {s : Slice n} {j : Nat}, s.Covers quotes lo hi → lo + j = k →
      s.search? j = some (search quotes lo hi k hlo hk hn) := by
  fun_induction search quotes lo hi k hlo hk hn with
  | case1 quotes lo hlo hk hn =>
    intro s j h hj
    rw [search?, round?_one h hn rfl]
    rfl
  | case2 quotes lo hi hlo hk hn hone hlt hleft hright hin found =>
    rename_i ih
    intro s j h hj
    obtain ⟨s', hround, hs'⟩ := round?_low h hlt hn hone hj hin
    rw [search?, hround]
    simp only [Option.bind_eq_bind, Option.bind_some, ih hs' hj]
    rfl
  | case3 quotes lo hi hlo hk hn hone hlt hleft hright hin hcross =>
    intro s j h hj
    rw [search?, round?_between h hlt hn hone hj hcross]
    rfl
  | case4 quotes lo hi hlo hk hn hone hlt hleft hright hin hcross found =>
    rename_i ih
    intro s j h hj
    obtain ⟨s', j', hround, hs', hj'⟩ := round?_high h hlt hn hone hj hin hcross
    rw [search?, hround]
    simp only [Option.bind_eq_bind, Option.bind_some, ih hs' hj']
    rfl

/-- In a round for rank `k` of the slice the marks stop inside the slice, and the round finds a
    quote or goes on in a part of the slice that is shorter, not empty, and has the quote of
    that rank. -/
structure Shrinks (s : Slice n) (k : Nat) : Prop where
  rank_lt : k < s.size
  marks : 2 ≤ s.size → ∃ pivot s' left right, s.pivot? = some pivot ∧
    cut? pivot s 0 s.size = some (s', left, right) ∧ 1 ≤ right ∧ right ≤ s.size - 1
  outcome : (∃ quotes value, s.round? k = some (.found quotes value)) ∨
    ∃ s' k', s.round? k = some (.narrowed s' k') ∧ 0 < s'.size ∧ s'.size < s.size ∧
      s.start ≤ s'.start ∧ s'.start + s'.size ≤ s.start + s.size ∧
      k' < s'.size ∧ s'.start + k' = s.start + k

/-- **Any round for a rank that the slice has keeps to the slice and shrinks it.** -/
theorem shrinks_of_lt {s : Slice n} {k : Nat} (hk : k < s.size) : s.Shrinks k := by
  have h := s.covers
  have hlt : s.start < s.start + s.size := by omega
  have hright := @right_lt_of_two_le n s.quotes _ _ hlt s.le
  refine ⟨hk, fun htwo => ?_, ?_⟩
  · have hleft := @lt_right_of_two_le n s.quotes _ _ hlt s.le (by omega)
    obtain ⟨s', hcut, -⟩ := cut?_pivot_eq h hlt s.le
    exact ⟨_, s', _, _, pivot?_eq h hlt s.le, hcut, by omega, by omega⟩
  · rcases round?_cases h s.le hlt (show s.start + k < _ by omega) with
      hfound | ⟨hone, s', k', hround, hrank, hlast, hs'⟩
    · exact .inl hfound
    · have hleft := @lt_right_of_two_le n s.quotes _ _ hlt s.le (by omega)
      rcases hs' with ⟨-, hstart, hstop⟩ | ⟨-, hstart, hstop⟩ <;>
        exact .inr ⟨s', k', hround, by omega, by omega, by omega, by omega, by omega, by omega⟩

/-- A search in the slice `p.1` for its rank `p.2` goes on in `q.1` for the rank `q.2`. -/
def GoesOn (p q : Slice n × Nat) : Prop :=
  p.1.round? p.2 = some (.narrowed q.1 q.2)

theorem GoesOn.cases {p q : Slice n × Nat} (h : GoesOn p q) (hp : p.2 < p.1.size) :
    q.2 < q.1.size ∧ ∃ hlt : p.1.start < p.1.start + p.1.size,
      q.1.Covers (cutWindow p.1.quotes p.1.start (p.1.start + p.1.size) hlt p.1.le).quotes p.1.start
        (cutWindow p.1.quotes p.1.start (p.1.start + p.1.size) hlt p.1.le).right ∨
      q.1.Covers (cutWindow p.1.quotes p.1.start (p.1.start + p.1.size) hlt p.1.le).quotes
        (cutWindow p.1.quotes p.1.start (p.1.start + p.1.size) hlt p.1.le).right
        (p.1.start + p.1.size) := by
  have hlt : p.1.start < p.1.start + p.1.size := by omega
  rcases round?_cases p.1.covers p.1.le hlt (show p.1.start + p.2 < _ by omega) with
    ⟨quotes, value, hfound⟩ | ⟨-, s', k', hround, hrank, hlast, hs'⟩
  · exact nomatch hfound.symm.trans h
  · obtain ⟨rfl, rfl⟩ := Outcome.narrowed.inj (Option.some.inj (hround.symm.trans h))
    exact ⟨by omega, hlt, hs'⟩

/-- What one round keeps, all rounds of a search keep: the slice has the rank. -/
theorem rank_lt_of_reaches {p q : Slice n × Nat} (h : Relation.ReflTransGen GoesOn p q)
    (hp : p.2 < p.1.size) : q.2 < q.1.size := by
  induction h with
  | refl => exact hp
  | tail _ hstep ih => exact (hstep.cases ih).1

end Slice

/-- A search makes at most one round more than a measure of its window counts, if a cut of a buffer
    with `P` leaves one with `P`, and either part of the window measures less. -/
theorem search_rounds_le_measure (P : Vector Quote n → Prop) (measure : Nat → Nat)
    (hcut : ∀ (quotes : Vector Quote n) (lo hi : Nat) (hlt : lo < hi) (hn : hi ≤ n), lo + 2 ≤ hi →
      P quotes → P (cutWindow quotes lo hi hlt hn).quotes ∧
        measure ((cutWindow quotes lo hi hlt hn).right - lo) < measure (hi - lo) ∧
        measure (hi - (cutWindow quotes lo hi hlt hn).right) < measure (hi - lo))
    {quotes : Vector Quote n} (h : P quotes) {lo hi k : Nat} (hlo : lo ≤ k) (hk : k < hi)
    (hn : hi ≤ n) : (search quotes lo hi k hlo hk hn).rounds ≤ measure (hi - lo) + 1 := by
  fun_induction search quotes lo hi k hlo hk hn with
  | case1 => exact Nat.le_add_left _ _
  | case2 quotes lo hi hlo hk hn hone hlt hleft hright hin found ih =>
    obtain ⟨hquotes, hless, -⟩ := hcut quotes lo hi hlt hn (by omega) h
    exact Nat.succ_le_succ ((ih hquotes).trans hless)
  | case3 => exact Nat.le_add_left _ _
  | case4 quotes lo hi hlo hk hn hone hlt hleft hright hin hcross found ih =>
    obtain ⟨hquotes, -, hless⟩ := hcut quotes lo hi hlt hn (by omega) h
    exact Nat.succ_le_succ ((ih hquotes).trans hless)

/-- No round is without progress. -/
theorem search_rounds_le (quotes : Vector Quote n) {lo hi k : Nat} (hlo : lo ≤ k) (hk : k < hi)
    (hn : hi ≤ n) : (search quotes lo hi k hlo hk hn).rounds ≤ hi - lo := by
  refine Nat.le_trans (search_rounds_le_measure (fun _ => True) (· - 1)
    (fun quotes lo hi hlt hn htwo _ => ?_) trivial hlo hk hn) (by omega)
  have hleft := @lt_right_of_two_le n quotes lo hi hlt hn htwo
  have hright := @right_lt_of_two_le n quotes lo hi hlt hn
  exact ⟨trivial, by omega, by omega⟩

/-- **A selection ends, and takes nothing from outside of its window.**  The search that checks every
    place, every difference and every part answers as the selection does, in no more rounds than
    there are quotes; and in each of its rounds the marks stop inside the slice, so that it goes on
    in a shorter one that has the wanted rank. -/
theorem select_terminates (quotes : Vector Quote n) {k : Nat} (hk : k < n) :
    (Slice.whole quotes).search? k = some (select quotes k hk) ∧ (select quotes k hk).rounds ≤ n ∧
      ∀ s j, Relation.ReflTransGen Slice.GoesOn (Slice.whole quotes, k) (s, j) → s.Shrinks j := by
  refine ⟨Slice.search?_eq _ hk le_rfl (Slice.whole_covers quotes) (Nat.zero_add k), ?_, ?_⟩
  · exact search_rounds_le quotes (Nat.zero_le k) hk le_rfl
  · intro s j hreaches
    exact Slice.shrinks_of_lt (Slice.rank_lt_of_reaches hreaches hk)

/-- Two equal quotes: the shortest window in which the marks could have stopped at an end. -/
theorem select_terminates_two :
    (Slice.whole #v[(7 : Quote), 7]).search? 1 = some (select #v[(7 : Quote), 7] 1 (by decide)) ∧
      (select #v[(7 : Quote), 7] 1 (by decide)).rounds ≤ 2 ∧
      ∀ s j, Relation.ReflTransGen Slice.GoesOn (Slice.whole #v[(7 : Quote), 7], 1) (s, j) →
        s.Shrinks j :=
  select_terminates #v[7, 7] (by decide)

end PriceFeed
