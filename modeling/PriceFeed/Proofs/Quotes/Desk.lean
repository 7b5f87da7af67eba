/-
  PriceFeed — what a desk tells of its quotes.

  A call at a desk tells `a` of some quotes if every desk that holds them, in whatever
  order, answers `a`, still holds them afterwards, and has recorded nothing
  (`Desk.Tells`).  So what calls tell can be put together without looking at the order
  that each of them leaves behind (`Tells.bind`).

  * `tells_select`: a selection tells the quote of its rank;
  * `select_perm`: refused or not, it at most reorders the quotes;
  * `select_answers`: it is refused exactly for ranks that there are not, and otherwise leaves
    the quote that it tells at the place of its rank (`Placed`).
-/
import PriceFeed.Proofs.Quotes.Selection
import PriceFeed.Quotes.Desk

namespace PriceFeed.Desk

variable {α β : Type}

/-- The answer of a call at a desk, and the desk afterwards. -/
def ask (call : AtDesk α) (desk : Desk) : Except Fault α × Desk :=
  call.run.run desk

theorem ask_pure (a : α) (desk : Desk) : ask (pure a) desk = (.ok a, desk) :=
  rfl

theorem ask_bind (call : AtDesk α) (next : α → AtDesk β) (desk : Desk) :
    ask (call >>= next) desk =
      match ask call desk with
      | (.ok a, desk') => ask (next a) desk'
      | (.error fault, desk') => (.error fault, desk') := by
  unfold ask ExceptT.run StateT.run
  simp only [bind, ExceptT.bind, ExceptT.mk, StateT.bind, ExceptT.bindCont]
  cases call desk with
  | mk answer desk' => cases answer <;> rfl

/-- Every desk that holds these quotes answers `a`, holds them still, and records nothing. -/
def Tells (call : AtDesk α) (quotes : List Quote) (a : α) : Prop :=
  ∀ desk : Desk, desk.quotes.toList.Perm quotes →
    ∃ desk' : Desk, ask call desk = (.ok a, desk') ∧ desk'.quotes.toList.Perm quotes ∧
      desk'.journal = desk.journal

theorem tells_pure (a : α) (quotes : List Quote) : Tells (pure a) quotes a :=
  fun desk hp => ⟨desk, ask_pure a desk, hp, rfl⟩

theorem Tells.bind {call : AtDesk α} {next : α → AtDesk β} {quotes : List Quote} {a : α} {b : β}
    (h : Tells call quotes a) (h' : Tells (next a) quotes b) : Tells (call >>= next) quotes b := by
  intro desk hp
  obtain ⟨desk₁, hask₁, hp₁, hj₁⟩ := h desk hp
  obtain ⟨desk₂, hask₂, hp₂, hj₂⟩ := h' desk₁ hp₁
  refine ⟨desk₂, ?_, hp₂, hj₂.trans hj₁⟩
  rw [ask_bind, hask₁]
  exact hask₂

/-! ## Selections -/

theorem ask_select_of_lt (desk : Desk) {k : Nat} (hk : k < desk.quotes.size) :
    ask (select k) desk =
      (.ok (PriceFeed.select desk.quotes.toVector k hk).value,
        { desk with quotes := (PriceFeed.select desk.quotes.toVector k hk).quotes.toArray }) := by
  show ask (if desk.quotes.size = 0 then throw .empty else _) desk = _
  rw [if_neg (by omega), dif_pos hk]
  rfl

theorem ask_select_of_eq_zero (desk : Desk) (k : Nat) (h : desk.quotes.size = 0) :
    ask (select k) desk = (.error .empty, desk) := by
  show ask (if desk.quotes.size = 0 then throw .empty else _) desk = _
  rw [if_pos h]
  rfl

theorem ask_select_of_le (desk : Desk) {k : Nat} (h : desk.quotes.size ≠ 0)
    (hk : desk.quotes.size ≤ k) :
    ask (select k) desk =
      (.error .invalid,
        { desk with journal := desk.journal ++ [.rankOutOfRange k desk.quotes.size] }) := by
  show ask (if desk.quotes.size = 0 then throw .empty else _) desk = _
  rw [if_neg h, dif_neg (by omega)]
  rfl

/-- **A selection tells the quote of its rank.** -/
theorem tells_select {quotes : List Quote} {k : Nat} {v : Quote}
    (h : (ranked quotes)[k]? = some v) : Tells (select k) quotes v := by
  intro desk hp
  have hk : k < desk.quotes.size := by
    have := (List.getElem?_eq_some_iff.1 h).1
    rwa [length_ranked, ← hp.length_eq] at this
  have hv := select_value desk.quotes.toVector hk
  rw [show desk.quotes.toVector.toList = desk.quotes.toList from rfl, ranked_eq_of_perm hp, h,
    Option.some.injEq] at hv
  have hask := ask_select_of_lt desk hk
  rw [← hv] at hask
  exact ⟨_, hask, (select_selects desk.quotes.toVector hk).perm.toList.trans hp, rfl⟩

theorem select_perm (k : Nat) (desk : Desk) : (ask (select k) desk).2.quotes.Perm desk.quotes := by
  by_cases h : desk.quotes.size = 0
  · rw [ask_select_of_eq_zero desk k h]
  by_cases hk : k < desk.quotes.size
  · rw [ask_select_of_lt desk hk]
    exact (select_selects desk.quotes.toVector hk).perm.toArray
  · rw [ask_select_of_le desk h (by omega)]

/-- The quotes, reordered, with the quote `v` of rank `k` at index `k`, none above it before it and
    none below it after it. -/
structure Placed (quotes after : Array Quote) (k : Nat) (v : Quote) : Prop where
  perm : after.Perm quotes
  rank : (ranked quotes.toList)[k]? = some v
  holds : after[k]? = some v
  le : ∀ i (hi : i < after.size), i < k → after[i] ≤ v
  ge : ∀ i (hi : i < after.size), k < i → v ≤ after[i]

theorem placed_select (quotes : Array Quote) {k : Nat} (hk : k < quotes.size) :
    Placed quotes (PriceFeed.select quotes.toVector k hk).quotes.toArray k
      (PriceFeed.select quotes.toVector k hk).value := by
  have hs := select_selects quotes.toVector hk
  have hrank := select_value quotes.toVector hk
  generalize PriceFeed.select quotes.toVector k hk = s at *
  refine ⟨hs.perm.toArray, hrank, ?_, fun i hi hik => ?_, fun i hi hki => ?_⟩
  · rw [Vector.getElem?_toArray, Vector.getElem?_eq_getElem hk, hs.getElem_eq]
  · rw [Vector.getElem_toArray, ← hs.getElem_eq]
    exact hs.split_before i k _ hk hik le_rfl
  · rw [Vector.getElem_toArray, ← hs.getElem_eq]
    exact hs.split_after k i hk _ (Nat.lt_succ_self k) hki

/-- **A selection answers exactly for the ranks that there are.**  Then it only reorders the quotes,
    and what it tells stands at the place of its rank, between the quotes that are not above it
    and those that are not below it.  A refusal leaves the quotes as they are. -/
theorem select_answers (desk : Desk) (k : Nat) :
    ((∃ v, (ask (select k) desk).1 = .ok v) ↔ k < desk.quotes.size) ∧
    (desk.quotes.size = 0 → ask (select k) desk = (.error .empty, desk)) ∧
    (desk.quotes.size ≠ 0 → desk.quotes.size ≤ k → ask (select k) desk =
      (.error .invalid,
        { desk with journal := desk.journal ++ [.rankOutOfRange k desk.quotes.size] })) ∧
    (k < desk.quotes.size → ∃ v after,
      ask (select k) desk = (.ok v, { desk with quotes := after }) ∧ Placed desk.quotes after k v) := by
  refine ⟨⟨fun ⟨v, hv⟩ => ?_, fun hk => ?_⟩, ask_select_of_eq_zero desk k, ask_select_of_le desk,
    fun hk => ⟨_, _, ask_select_of_lt desk hk, placed_select desk.quotes hk⟩⟩
  · by_contra hk
    by_cases h : desk.quotes.size = 0
    · rw [ask_select_of_eq_zero desk k h] at hv; exact nomatch hv
    · rw [ask_select_of_le desk h (Nat.le_of_not_lt hk)] at hv; exact nomatch hv
  · exact ⟨_, congrArg Prod.fst (ask_select_of_lt desk hk)⟩

/-- A quote that occurs three times, between the extreme ones; a rank that there is not; and no
    quotes at all. -/
theorem select_answers_ties :
    (∃ after, ask (select 3) ⟨#[5, Int64.maxValue, 5, -1, Int64.minValue, 5], []⟩ = (.ok 5, ⟨after, []⟩) ∧
      Placed #[5, Int64.maxValue, 5, -1, Int64.minValue, 5] after 3 5) ∧
    ask (select 6) ⟨#[5, Int64.maxValue, 5, -1, Int64.minValue, 5], []⟩ =
      (.error .invalid,
        ⟨#[5, Int64.maxValue, 5, -1, Int64.minValue, 5], [.rankOutOfRange 6 6]⟩) ∧
    ask (select 0) ⟨#[], []⟩ = (.error .empty, ⟨#[], []⟩) := by
  have hranked : ranked [5, Int64.maxValue, 5, -1, Int64.minValue, 5] =
      [Int64.minValue, -1, 5, 5, 5, Int64.maxValue] := (eq_ranked (by decide) (by decide)).symm
  obtain ⟨v, after, hask, hplaced⟩ :=
    (select_answers ⟨#[5, Int64.maxValue, 5, -1, Int64.minValue, 5], []⟩ 3).2.2.2 (by decide)
  have hv := hplaced.rank
  rw [hranked] at hv
  cases hv
  exact ⟨⟨after, hask, hplaced⟩, (select_answers _ 6).2.2.1 (by decide) (by decide),
    (select_answers ⟨#[], []⟩ 0).2.1 rfl⟩

end PriceFeed.Desk
