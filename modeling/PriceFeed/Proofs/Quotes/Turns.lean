/-
  PriceFeed — the turns of a cut.

  A turn of a cut moves one mark past a quote that is on its side of the pivot, or has the quotes
  at both marks change places and moves both (`Cut.Turn`).  The turns from the ends of a window lead
  to its cut (`Cut.reaches_cut`), and they end nowhere else (`Cut.eq_cut_of_reaches`).

  * `Cut.Divides`: what the marks have passed is divided by the pivot, and only quotes of the window
    have changed places.  A turn keeps this (`Cut.Divides.turn`), so it holds all the way to the cut
    (`cut_divides`);
  * `turns_divide`: the same for every window and pivot, and when the turns end, the marks have met,
    or have crossed with the pivot between them.
-/
import Mathlib
import PriceFeed.Quotes.Cut

namespace PriceFeed

variable {n : Nat} {pivot : Quote}

namespace Cut

/-- One turn of a cut.  The right mark has passed the indices after `right`. -/
inductive Turn (pivot : Quote) : Cut n → Cut n → Prop
  /-- The left mark passes a quote below the pivot. -/
  | low {quotes : Vector Quote n} {left right : Nat} (hle : left ≤ right) (hn : right < n)
      (hlow : quotes[left] < pivot) :
      Turn pivot ⟨quotes, left, right + 1⟩ ⟨quotes, left + 1, right + 1⟩
  /-- The left mark has stopped, and the right one passes a quote above the pivot. -/
  | high {quotes : Vector Quote n} {left right : Nat} (hle : left ≤ right) (hn : right < n)
      (hlow : pivot ≤ quotes[left]) (hhigh : pivot < quotes[right]) :
      Turn pivot ⟨quotes, left, right + 1⟩ ⟨quotes, left, right⟩
  /-- Both marks have stopped, and their quotes change places. -/
  | exchange {quotes : Vector Quote n} {left right : Nat} (hle : left ≤ right) (hn : right < n)
      (hlow : pivot ≤ quotes[left]) (hhigh : quotes[right] ≤ pivot) :
      Turn pivot ⟨quotes, left, right + 1⟩ ⟨quotes.swap left right, left + 1, right⟩

/-- Any number of turns. -/
abbrev Reaches (pivot : Quote) : Cut n → Cut n → Prop :=
  Relation.ReflTransGen (Turn pivot)

/-! ## The end of the turns -/

theorem reaches_cut (pivot : Quote) (quotes : Vector Quote n) (left right : Nat) (h : right ≤ n) :
    Reaches pivot ⟨quotes, left, right⟩ (cut pivot quotes left right h) := by
  fun_induction cut pivot quotes left right h with
  | case1 quotes left right h hlt hlow ih =>
    obtain ⟨last, rfl⟩ := Nat.exists_eq_add_one_of_ne_zero (Nat.ne_zero_of_lt hlt)
    exact .head (.low (Nat.le_of_lt_succ hlt) h hlow) ih
  | case2 quotes left right h hlt hlow hhigh ih =>
    obtain ⟨last, rfl⟩ := Nat.exists_eq_add_one_of_ne_zero (Nat.ne_zero_of_lt hlt)
    exact .head (.high (Nat.le_of_lt_succ hlt) h (Int64.not_lt.1 hlow) hhigh) ih
  | case3 quotes left right h hlt hlow hhigh ih =>
    obtain ⟨last, rfl⟩ := Nat.exists_eq_add_one_of_ne_zero (Nat.ne_zero_of_lt hlt)
    exact .head (.exchange (Nat.le_of_lt_succ hlt) h (Int64.not_lt.1 hlow) (Int64.not_lt.1 hhigh)) ih
  | case4 => exact .refl

/-- A turn leaves the same cut to be made. -/
theorem Turn.cut_eq {c d : Cut n} (hturn : Turn pivot c d) :
    ∃ (hc : c.right ≤ n) (hd : d.right ≤ n),
      cut pivot c.quotes c.left c.right hc = cut pivot d.quotes d.left d.right hd := by
  cases hturn with
  | low hle hn hlow =>
    refine ⟨hn, hn, ?_⟩
    conv_lhs => rw [cut, dif_pos (Nat.lt_succ_of_le hle), if_pos hlow]
  | high hle hn hlow hhigh =>
    refine ⟨hn, hn.le, ?_⟩
    conv_lhs => rw [cut, dif_pos (Nat.lt_succ_of_le hle), if_neg (Int64.not_lt.2 hlow)]
    exact if_pos hhigh
  | exchange hle hn hlow hhigh =>
    refine ⟨hn, hn.le, ?_⟩
    conv_lhs => rw [cut, dif_pos (Nat.lt_succ_of_le hle), if_neg (Int64.not_lt.2 hlow)]
    exact if_neg (Int64.not_lt.2 hhigh)

theorem cut_eq_of_reaches {c d : Cut n} (h : Reaches pivot c d) (hc : c.right ≤ n) :
    ∃ hd : d.right ≤ n,
      cut pivot c.quotes c.left c.right hc = cut pivot d.quotes d.left d.right hd := by
  induction h with
  | refl => exact ⟨hc, rfl⟩
  | tail _ hturn ih =>
    obtain ⟨_, hcut⟩ := ih
    obtain ⟨_, hd, hnext⟩ := hturn.cut_eq
    exact ⟨hd, hcut.trans hnext⟩

variable {quotes : Vector Quote n} {lo hi : Nat} {c d : Cut n}

/-- The turns end at the cut only. -/
theorem eq_cut_of_reaches (hn : hi ≤ n) (h : Reaches pivot ⟨quotes, lo, hi⟩ c)
    (hmet : c.right ≤ c.left) : c = cut pivot quotes lo hi hn := by
  obtain ⟨_, hcut⟩ := cut_eq_of_reaches h hn
  rw [hcut, cut, dif_neg (Nat.not_lt.2 hmet)]

/-! ## What a turn keeps -/

/-- How far the cut of the window `[lo, hi)` of a buffer at a pivot has come.  What the left mark has
    passed is not above the pivot, what the right one has passed is not below it, and the buffer has
    the same quotes, those outside of the window in their places. -/
structure Divides (c : Cut n) (pivot : Quote) (quotes : Vector Quote n) (lo hi : Nat) : Prop where
  marks : lo ≤ c.left ∧ c.left ≤ hi ∧ lo ≤ c.right ∧ c.right ≤ hi ∧ c.left ≤ c.right + 1
  le_pivot : ∀ i (_ : i < n), lo ≤ i → i < c.left → c.quotes[i] ≤ pivot
  pivot_le : ∀ i (_ : i < n), c.right ≤ i → i < hi → pivot ≤ c.quotes[i]
  perm : c.quotes.Perm quotes
  getElem_eq : ∀ i (_ : i < n), i < lo ∨ hi ≤ i → c.quotes[i] = quotes[i]

/-- At first the marks have passed nothing. -/
theorem divides_start (hle : lo ≤ hi) : Divides ⟨quotes, lo, hi⟩ pivot quotes lo hi where
  marks := by dsimp only; omega
  le_pivot _ _ hlo hlt := absurd hlt (Nat.not_lt.2 hlo)
  pivot_le _ _ hhi hlt := absurd hlt (Nat.not_lt.2 hhi)
  perm := .rfl
  getElem_eq _ _ _ := rfl

section
variable {now : Vector Quote n} {left right : Nat}

/-- The left mark may pass a quote that is not above the pivot. -/
theorem Divides.passLeft (h : Divides ⟨now, left, right⟩ pivot quotes lo hi) (hlt : left < right)
    (hn : left < n) (hlow : now[left] ≤ pivot) :
    Divides ⟨now, left + 1, right⟩ pivot quotes lo hi where
  marks := by
    have hmarks := h.marks
    dsimp only at hmarks ⊢
    omega
  le_pivot := by
    intro i hin hloi hil
    rcases Nat.lt_succ_iff_lt_or_eq.1 hil with hil | rfl
    · exact h.le_pivot i hin hloi hil
    · exact hlow
  pivot_le := h.pivot_le
  perm := h.perm
  getElem_eq := h.getElem_eq

/-- The right mark may pass a quote that is not below the pivot. -/
theorem Divides.passRight (h : Divides ⟨now, left, right + 1⟩ pivot quotes lo hi) (hlo : lo ≤ right)
    (hle : left ≤ right + 1) (hn : right < n) (hhigh : pivot ≤ now[right]) :
    Divides ⟨now, left, right⟩ pivot quotes lo hi where
  marks := by
    have hmarks := h.marks
    dsimp only at hmarks ⊢
    omega
  le_pivot := h.le_pivot
  pivot_le := by
    intro i hin hri hir
    rcases Nat.eq_or_lt_of_le hri with rfl | hri
    · exact hhigh
    · exact h.pivot_le i hin hri hir
  perm := h.perm
  getElem_eq := h.getElem_eq

/-- Quotes that no mark has passed may change places. -/
theorem Divides.swap (h : Divides ⟨now, left, right + 1⟩ pivot quotes lo hi) (hle : left ≤ right)
    (hl : left < n) (hr : right < n) :
    Divides ⟨now.swap left right, left, right + 1⟩ pivot quotes lo hi := by
  have hmarks := h.marks
  dsimp only at hmarks
  have hother : ∀ i (_ : i < n), i < left ∨ right < i → (now.swap left right)[i] = now[i] :=
    fun i _ hi' => Vector.getElem_swap_of_ne (by omega) (by omega)
  refine ⟨hmarks, ?_, ?_, (Vector.swap_perm hl hr).trans h.perm, ?_⟩
  · intro i hin hloi hil
    rw [hother i hin (.inl hil)]
    exact h.le_pivot i hin hloi hil
  · intro i hin hri hir
    rw [hother i hin (.inr hri)]
    exact h.pivot_le i hin hri hir
  · intro i hin hout
    rw [hother i hin (by omega)]
    exact h.getElem_eq i hin hout

end

/-- **A turn keeps the window divided.** -/
theorem Divides.turn (h : c.Divides pivot quotes lo hi) (hturn : Turn pivot c d) :
    d.Divides pivot quotes lo hi := by
  have hlo : lo ≤ c.left := h.marks.1
  cases hturn with
  | low hle hn hlow => exact h.passLeft (Nat.lt_succ_of_le hle) (hle.trans_lt hn) (Int64.le_of_lt hlow)
  | high hle hn hlow hhigh =>
    exact h.passRight (hlo.trans hle) (Nat.le_succ_of_le hle) hn (Int64.le_of_lt hhigh)
  | exchange hle hn hlow hhigh =>
    -- the quotes first change places, then each mark passes the one that it has got
    have hswap := h.swap hle (hle.trans_lt hn) hn
    have hleft := hswap.passLeft (Nat.lt_succ_of_le hle) (hle.trans_lt hn)
      (by rwa [Vector.getElem_swap_left])
    exact hleft.passRight (hlo.trans hle) (Nat.succ_le_succ hle) hn
      (by rwa [Vector.getElem_swap_right])

/-- **The window is divided after any number of turns.** -/
theorem divides_of_reaches (hle : lo ≤ hi) (h : Reaches pivot ⟨quotes, lo, hi⟩ c) :
    c.Divides pivot quotes lo hi := by
  induction h with
  | refl => exact divides_start hle
  | tail _ hturn ih => exact ih.turn hturn

/-- The window has the same quotes, too. -/
theorem Divides.window_perm (h : c.Divides pivot quotes lo hi) :
    (c.quotes.extract lo hi).Perm (quotes.extract lo hi) := by
  have hsame : ∀ i, i < lo ∨ hi ≤ i → c.quotes[i]? = quotes[i]? := by
    intro i hout
    by_cases hin : i < n
    · rw [Vector.getElem?_eq_getElem hin, Vector.getElem?_eq_getElem hin, h.getElem_eq i hin hout]
    · rw [Vector.getElem?_eq_none (by omega), Vector.getElem?_eq_none (by omega)]
  exact h.perm.extract (fun i hlo => hsame i (.inl hlo)) fun i hhi => hsame i (.inr hhi)

/-- Where the marks have crossed, they leave the pivot between them. -/
theorem Divides.getElem_right (h : c.Divides pivot quotes lo hi) (hcross : c.left = c.right + 1)
    (hr : c.right < n) : c.quotes[c.right] = pivot := by
  have hmarks := h.marks
  exact Int64.le_antisymm (h.le_pivot _ hr (by omega) (by omega))
    (h.pivot_le _ hr le_rfl (by omega))

end Cut

/-! ## Cuts -/

theorem cut_divides (pivot : Quote) (quotes : Vector Quote n) {lo hi : Nat} (hle : lo ≤ hi)
    (hn : hi ≤ n) : (cut pivot quotes lo hi hn).Divides pivot quotes lo hi :=
  Cut.divides_of_reaches hle (Cut.reaches_cut pivot quotes lo hi hn)

/-- A cut does not end before the marks have met. -/
theorem cut_right_le_left (pivot : Quote) (quotes : Vector Quote n) (left right : Nat) (h : right ≤ n) :
    (cut pivot quotes left right h).right ≤ (cut pivot quotes left right h).left := by
  fun_induction cut pivot quotes left right h with
  | case1 _ _ _ _ _ _ ih => exact ih
  | case2 _ _ _ _ _ _ _ ih => exact ih
  | case3 _ _ _ _ _ _ _ ih => exact ih
  | case4 _ _ _ _ hge => exact Nat.not_lt.1 hge

/-- **Every turn of a cut keeps its window divided**, whatever the pivot: what the marks have passed
    is on the side of the pivot where it belongs, and only quotes of the window have changed
    places.  The turns end at the cut and nowhere else.  There the marks have met or have crossed
    by one, so that the right one divides the window; and where they have crossed, it stands at
    a quote equal to the pivot. -/
theorem turns_divide (pivot : Quote) (quotes : Vector Quote n) {lo hi : Nat} (hle : lo ≤ hi)
    (hn : hi ≤ n) :
    (∀ c, Cut.Reaches pivot ⟨quotes, lo, hi⟩ c →
      c.Divides pivot quotes lo hi ∧ (c.quotes.extract lo hi).Perm (quotes.extract lo hi) ∧
        (c.right ≤ c.left → c = cut pivot quotes lo hi hn)) ∧
    ∃ c, cut pivot quotes lo hi hn = c ∧ Cut.Reaches pivot ⟨quotes, lo, hi⟩ c ∧
      (c.left = c.right ∨ c.left = c.right + 1) ∧
      (∀ i (_ : i < n), lo ≤ i → i < c.right → c.quotes[i] ≤ pivot) ∧
      (∀ i (_ : i < n), c.right ≤ i → i < hi → pivot ≤ c.quotes[i]) ∧
      (c.left = c.right + 1 → ∃ hr : c.right < n, c.right < hi ∧ c.quotes[c.right] = pivot) := by
  have hdivides := cut_divides pivot quotes hle hn
  have hmarks := hdivides.marks
  have hmet := cut_right_le_left pivot quotes lo hi hn
  refine ⟨fun c hreaches => ?_, _, rfl, Cut.reaches_cut pivot quotes lo hi hn, by omega, ?_,
    hdivides.pivot_le, fun hcross => ?_⟩
  · have hc := Cut.divides_of_reaches hle hreaches
    exact ⟨hc, hc.window_perm, Cut.eq_cut_of_reaches hn hreaches⟩
  · intro i hin hloi hir
    exact hdivides.le_pivot i hin hloi (by omega)
  · exact ⟨by omega, by omega, hdivides.getElem_right hcross (by omega)⟩

/-- The greatest and the least quote of a window change places, and the marks cross at the pivot. -/
theorem turns_divide_crossed :
    (∀ c, Cut.Reaches 5 ⟨#v[9, 8, 5, 2, 0], 1, 4⟩ c →
      c.Divides 5 #v[9, 8, 5, 2, 0] 1 4 ∧
        (c.quotes.extract 1 4).Perm (#v[9, 8, 5, 2, 0].extract 1 4)) ∧
    ∃ c, cut 5 #v[9, 8, 5, 2, 0] 1 4 (by decide) = c ∧ c.left = c.right + 1 ∧
      ∃ hr : c.right < 5, c.right < 4 ∧ c.quotes[c.right] = 5 := by
  obtain ⟨hturns, c, hc, -, -, -, -, hbetween⟩ :=
    turns_divide 5 #v[9, 8, 5, 2, 0] (show 1 ≤ 4 by decide) (by decide)
  have hcross : c.left = c.right + 1 := by
    rw [← hc]
    simp [cut]
  exact ⟨fun d hd => ⟨(hturns d hd).1, (hturns d hd).2.1⟩, c, hc, hcross, hbetween hcross⟩

end PriceFeed
