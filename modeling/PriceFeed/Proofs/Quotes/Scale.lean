/-
  PriceFeed — quotes on another scale.

  A selection only compares quotes.  So if a map keeps the order of some quotes, it may be applied
  to them before or after: the marks stop at the same places (`cut_map`), the rounds go on in the
  same windows (`search_map`), and what is found is the image of what would have been.  The order
  is asked for between these quotes alone, as no map but the identity keeps that of all words.

  * `Desk.select_map`: selections commute with the map, refusals and the order of the buffer included;
  * `Desk.calls_map`: so do the outer quartiles, and the median where it is one of the quotes, or
    where the map adds a constant.
-/
import PriceFeed.Proofs.Quotes.Arrangement

namespace PriceFeed

variable {n : Nat} {f : Quote → Quote}

/-- The map keeps the strict order of these quotes. -/
def KeepsOrder (f : Quote → Quote) (quotes : List Quote) : Prop :=
  ∀ a ∈ quotes, ∀ b ∈ quotes, a < b → f a < f b

section
variable {quotes : List Quote} (hf : KeepsOrder f quotes)
include hf

theorem KeepsOrder.of_perm {quotes' : List Quote} (h : quotes'.Perm quotes) : KeepsOrder f quotes' :=
  fun a ha b hb => hf a (h.mem_iff.1 ha) b (h.mem_iff.1 hb)

theorem KeepsOrder.lt_iff {a b : Quote} (ha : a ∈ quotes) (hb : b ∈ quotes) : f a < f b ↔ a < b := by
  refine ⟨fun h => ?_, hf a ha b hb⟩
  by_contra hab
  rcases Int64.lt_or_eq_of_le (Int64.not_lt.1 hab) with hba | rfl
  · exact Int64.lt_asymm h (hf b hb a ha hba)
  · exact Int64.lt_irrefl h

theorem KeepsOrder.le {a b : Quote} (ha : a ∈ quotes) (hb : b ∈ quotes) (h : a ≤ b) : f a ≤ f b :=
  Int64.not_lt.1 fun hba => Int64.not_lt.2 h ((hf.lt_iff hb ha).1 hba)

/-- The ranks of the images are the images of the ranks. -/
theorem ranked_map : ranked (quotes.map f) = (ranked quotes).map f := by
  refine (eq_ranked ?_ ((ranked_perm quotes).map f)).symm
  rw [List.pairwise_map]
  refine (ranked_pairwise quotes).imp_of_mem fun ha hb h => ?_
  exact hf.le ((ranked_perm quotes).mem_iff.1 ha) ((ranked_perm quotes).mem_iff.1 hb) h

theorem medianOfThree_map {a b c : Quote} (ha : a ∈ quotes) (hb : b ∈ quotes) (hc : c ∈ quotes) :
    Quote.medianOfThree (f a) (f b) (f c) = f (Quote.medianOfThree a b c) := by
  unfold Quote.medianOfThree
  simp only [hf.lt_iff ha hb, hf.lt_iff hb hc, hf.lt_iff ha hc, hf.lt_iff hc hb, hf.lt_iff hc ha,
    apply_ite f]

end

/-! ## Cuts -/

/-- The same cut of the images. -/
def Cut.map (f : Quote → Quote) (c : Cut n) : Cut n :=
  ⟨c.quotes.map f, c.left, c.right⟩

theorem getElem_mem_toList (quotes : Vector Quote n) {i : Nat} (hi : i < n) :
    quotes[i] ∈ quotes.toList :=
  Vector.mem_toList_iff.2 (Vector.getElem_mem hi)

theorem map_swap (quotes : Vector Quote n) {i j : Nat} (hi : i < n) (hj : j < n) :
    (quotes.map f).swap i j = (quotes.swap i j).map f := by
  ext a ha
  rw [Vector.getElem_map, Vector.getElem_swap, Vector.getElem_swap]
  split_ifs <;> rw [Vector.getElem_map]

theorem cut_map {pivot : Quote} {quotes : Vector Quote n} {left right : Nat} {h : right ≤ n}
    (hf : KeepsOrder f quotes.toList) (hp : pivot ∈ quotes.toList) :
    cut (f pivot) (quotes.map f) left right h = (cut pivot quotes left right h).map f := by
  fun_induction cut pivot quotes left right h with
  | case1 quotes left right h hlt hlow ih =>
    have hfirst := hf.lt_iff (getElem_mem_toList quotes (show left < n by omega)) hp
    rw [cut, dif_pos hlt, Vector.getElem_map, if_pos (hfirst.2 hlow)]
    exact ih hf hp
  | case2 quotes left right h hlt hlow hhigh ih =>
    have hfirst := hf.lt_iff (getElem_mem_toList quotes (show left < n by omega)) hp
    have hlast := hf.lt_iff hp (getElem_mem_toList quotes (show right - 1 < n by omega))
    rw [cut, dif_pos hlt, Vector.getElem_map, if_neg (mt hfirst.1 hlow), Vector.getElem_map,
      if_pos (hlast.2 hhigh)]
    exact ih hf hp
  | case3 quotes left right h hlt hlow hhigh ih =>
    have hfirst := hf.lt_iff (getElem_mem_toList quotes (show left < n by omega)) hp
    have hlast := hf.lt_iff hp (getElem_mem_toList quotes (show right - 1 < n by omega))
    have hperm : (quotes.swap left (right - 1)).Perm quotes := Vector.swap_perm _ _
    rw [cut, dif_pos hlt, Vector.getElem_map, if_neg (mt hfirst.1 hlow), Vector.getElem_map,
      if_neg (mt hlast.1 hhigh), map_swap]
    exact ih (hf.of_perm hperm.toList) (hperm.toList.mem_iff.2 hp)
  | case4 quotes left right h hge =>
    rw [cut, dif_neg hge]
    rfl

/-! ## Searches -/

section
variable {quotes : Vector Quote n} (hf : KeepsOrder f quotes.toList) {lo hi : Nat}
include hf

theorem pivot_map (hlt : lo < hi) (hn : hi ≤ n) :
    pivot (quotes.map f) lo hi hlt hn = f (pivot quotes lo hi hlt hn) := by
  unfold pivot
  rw [Vector.getElem_map, Vector.getElem_map, Vector.getElem_map,
    medianOfThree_map hf (getElem_mem_toList _ _) (getElem_mem_toList _ _) (getElem_mem_toList _ _)]

theorem cutWindow_map (hlt : lo < hi) (hn : hi ≤ n) :
    cutWindow (quotes.map f) lo hi hlt hn = (cutWindow quotes lo hi hlt hn).map f := by
  unfold cutWindow
  rw [pivot_map hf, cut_map hf (Vector.mem_toList_iff.2 (pivot_mem quotes hlt hn))]

end

/-- The same selection from the images. -/
def Selection.map (f : Quote → Quote) (s : Selection n) : Selection n :=
  ⟨s.quotes.map f, f s.value, s.rounds⟩

/-- **Searches commute with a map that keeps the order**, round by round. -/
theorem search_map {quotes : Vector Quote n} (hf : KeepsOrder f quotes.toList) {lo hi k : Nat}
    (hlo : lo ≤ k) (hk : k < hi) (hn : hi ≤ n) :
    search (quotes.map f) lo hi k hlo hk hn = (search quotes lo hi k hlo hk hn).map f := by
  fun_induction search quotes lo hi k hlo hk hn with
  | case1 quotes lo hlo hk hn =>
    rw [search, dif_pos rfl, Vector.getElem_map]
    rfl
  | case2 quotes lo hi hlo hk hn hone hlt hleft hright hin found ih =>
    have hfound := ih (hf.of_perm (cut_divides _ quotes hlt.le hn).perm.toList)
    rw [search_low hone hlt (cutWindow_map hf hlt hn) (hright.le.trans hn) hin]
    exact congrArg (fun s : Selection n => { s with rounds := s.rounds + 1 }) hfound
  | case3 quotes lo hi hlo hk hn hone hlt hleft hright hin hcross =>
    rw [search_between hone hlt (cutWindow_map hf hlt hn) hcross, pivot_map hf]
    rfl
  | case4 quotes lo hi hlo hk hn hone hlt hleft hright hin hcross found ih =>
    have hfound := ih (hf.of_perm (cut_divides _ quotes hlt.le hn).perm.toList)
    rw [search_high hone hlt (cutWindow_map hf hlt hn) (Nat.le_of_not_lt hin) hcross]
    exact congrArg (fun s : Selection n => { s with rounds := s.rounds + 1 }) hfound

theorem select_map {quotes : Vector Quote n} (hf : KeepsOrder f quotes.toList) {k : Nat} (hk : k < n) :
    select (quotes.map f) k hk = (select quotes k hk).map f :=
  search_map hf (Nat.zero_le k) hk le_rfl

/-! ## Desks -/

theorem afterSelect_toArray (quotes : Vector Quote n) (k : Nat) :
    afterSelect quotes.toArray k =
      if hk : k < n then (select quotes k hk).quotes.toArray else quotes.toArray := by
  obtain ⟨quotes, rfl⟩ := quotes
  rfl

theorem afterSelect_map {quotes : Array Quote} (hf : KeepsOrder f quotes.toList) (k : Nat) :
    afterSelect (quotes.map f) k = (afterSelect quotes k).map f := by
  have hvector := afterSelect_toArray (quotes.toVector.map f) k
  rw [Vector.toArray_map] at hvector
  rw [afterSelect.eq_def quotes, hvector]
  split
  · rw [select_map hf, Selection.map, Vector.toArray_map]
  · rfl

theorem foldl_afterSelect_map {quotes : Array Quote} (hf : KeepsOrder f quotes.toList) (ks : List Nat) :
    ks.foldl afterSelect (quotes.map f) = (ks.foldl afterSelect quotes).map f := by
  induction ks generalizing quotes with
  | nil => rfl
  | cons k ks ih =>
    rw [List.foldl_cons, List.foldl_cons, afterSelect_map hf]
    exact ih (hf.of_perm (Array.perm_iff_toList_perm.1 (afterSelect_perm quotes k)))

/-- The map adds a constant to a quote, wherever that is a quote. -/
def Adds (f : Quote → Quote) (c : Int) : Prop :=
  ∀ a b : Quote, b.toInt = a.toInt + c → f a = b

theorem Quartiles.Of.map {q r : Quartiles} {quotes : List Quote} (hf : KeepsOrder f quotes)
    (hq : q.Of quotes) (hr : r.Of (quotes.map f)) :
    r.p25 = f q.p25 ∧ r.p75 = f q.p75 ∧ (quotes.length % 2 = 1 → r.p50 = f q.p50) ∧
      ∀ c, Adds f c → (∀ a ∈ quotes, (f a).toInt = a.toInt + c) → r.p50 = f q.p50 := by
  obtain ⟨hq25, hq75, hqodd, hqeven⟩ := hq
  obtain ⟨hr25, hr75, hrodd, hreven⟩ := hr
  have himage : ∀ {k : Nat} {v w : Quote}, (ranked quotes)[k]? = some v →
      (ranked (quotes.map f))[k]? = some w → w = f v := by
    intro k v w hv hw
    rw [ranked_map hf, List.getElem?_map, hv] at hw
    exact (Option.some.inj hw).symm
  rw [List.length_map] at *
  have hmiddle : quotes.length % 2 = 1 → r.p50 = f q.p50 := fun hodd =>
    himage (hqodd hodd) (hrodd hodd)
  refine ⟨himage hq25 hr25, himage hq75 hr75, hmiddle, fun c hadds hc => ?_⟩
  rcases Nat.mod_two_eq_zero_or_one quotes.length with heven | hodd
  · obtain ⟨below, above, hbelow, habove, hmean⟩ := hqeven heven
    obtain ⟨below', above', hbelow', habove', hmean'⟩ := hreven heven
    have hmem : ∀ {k : Nat} {v : Quote}, (ranked quotes)[k]? = some v → v ∈ quotes := fun hv =>
      (ranked_perm quotes).mem_iff.1 (List.mem_of_getElem? hv)
    have h₁ := hc below (hmem hbelow)
    have h₂ := hc above (hmem habove)
    rw [himage hbelow hbelow', himage habove habove', h₁, h₂] at hmean'
    exact (hadds _ _ (by omega)).symm
  · exact hmiddle hodd

namespace Desk

/-- The same desk with the images of its quotes. -/
def map (f : Quote → Quote) (desk : Desk) : Desk :=
  { desk with quotes := desk.quotes.map f }

theorem ask_select_toArray (quotes : Vector Quote n) (journal : Journal) {k : Nat} (hk : k < n) :
    ask (select k) ⟨quotes.toArray, journal⟩ = (.ok (PriceFeed.select quotes k hk).value,
      ⟨(PriceFeed.select quotes k hk).quotes.toArray, journal⟩) := by
  obtain ⟨quotes, rfl⟩ := quotes
  exact ask_select_of_lt ⟨quotes, journal⟩ hk

section
variable {desk : Desk} (hf : KeepsOrder f desk.quotes.toList)
include hf

/-- **Selections commute with a map that keeps the order**: the answer is the image of the answer, or
    the same refusal, and the buffer is left in the same order. -/
theorem ask_select_map (k : Nat) :
    ask (select k) (desk.map f) =
      ((ask (select k) desk).1.map f, (ask (select k) desk).2.map f) := by
  have hsize : (desk.map f).quotes.size = desk.quotes.size := Array.size_map
  by_cases h : desk.quotes.size = 0
  · rw [ask_select_of_eq_zero desk k h, ask_select_of_eq_zero (desk.map f) k (hsize.trans h)]
    rfl
  by_cases hk : k < desk.quotes.size
  · have himage := ask_select_toArray (desk.quotes.toVector.map f) desk.journal hk
    rw [select_map hf] at himage
    rw [ask_select_of_lt desk hk]
    exact himage
  · rw [ask_select_of_le desk h (by omega), ask_select_of_le (desk.map f) (by omega) (by omega), hsize]
    rfl

theorem ask_quartiles_map (h : desk.quotes ≠ #[]) : ∃ q desk₁ r desk₂,
    ask quartiles desk = (.ok q, desk₁) ∧ ask quartiles (desk.map f) = (.ok r, desk₂) ∧
      desk₂.quotes = desk₁.quotes.map f ∧ q.Of desk.quotes.toList ∧
      r.Of (desk.quotes.toList.map f) := by
  obtain ⟨q, hq, hask⟩ := @ask_quartiles desk.quotes.toList (by simpa using h)
  obtain ⟨r, hr, haskr⟩ := @ask_quartiles (desk.quotes.toList.map f) (by simpa using h)
  obtain ⟨desk₁, hanswer, -⟩ := hask desk (.refl _)
  obtain ⟨desk₂, hanswer', -⟩ := haskr (desk.map f) (by rw [map, Array.toList_map])
  refine ⟨q, desk₁, r, desk₂, hanswer, hanswer', ?_, hq, hr⟩
  have hrow := quotes_ask_quartiles desk
  have hrow' := quotes_ask_quartiles (desk.map f)
  rw [hanswer] at hrow
  rw [hanswer', map, Array.size_map, foldl_afterSelect_map hf] at hrow'
  rw [hrow, hrow']

/-- **What a desk tells does not depend on the scale of its quotes.**  A map that keeps their order may
    be applied to the quotes or to the answers: to those of a selection, refusals and the order of
    the buffer included, to the outer quartiles, to the median of an odd number of quotes, and to
    that of an even number if the map adds a constant. -/
theorem calls_map :
    (∀ k, ask (select k) (desk.map f) =
      ((ask (select k) desk).1.map f, (ask (select k) desk).2.map f)) ∧
    (desk.quotes = #[] →
      ask quartiles desk = (.error .empty, desk) ∧
        ask quartiles (desk.map f) = (.error .empty, desk.map f)) ∧
    (desk.quotes ≠ #[] → ∃ q desk₁ r desk₂,
      ask quartiles desk = (.ok q, desk₁) ∧ ask quartiles (desk.map f) = (.ok r, desk₂) ∧
        desk₂.quotes = desk₁.quotes.map f ∧ r.p25 = f q.p25 ∧ r.p75 = f q.p75 ∧
        (desk.quotes.size % 2 = 1 → r.p50 = f q.p50) ∧
        ∀ c, Adds f c → (∀ a ∈ desk.quotes, (f a).toInt = a.toInt + c) → r.p50 = f q.p50) := by
  refine ⟨ask_select_map hf, fun h => ?_, fun h => ?_⟩
  · exact ⟨ask_quartiles_of_eq_zero desk (by simp [h]),
      ask_quartiles_of_eq_zero (desk.map f) (by simp [map, h])⟩
  · obtain ⟨q, desk₁, r, desk₂, hask, hask', hquotes, hq, hr⟩ := ask_quartiles_map hf h
    obtain ⟨h25, h75, hodd, hadds⟩ := hq.map hf hr
    exact ⟨q, desk₁, r, desk₂, hask, hask', hquotes, h25, h75, hodd, fun c hc hall =>
      hadds c hc fun a ha => hall a (Array.mem_toList_iff.1 ha)⟩

end

/-- The least quote there is, moved next to the others; a desk without quotes; and the median of four
    quotes that are moved by ten. -/
theorem calls_map_shift :
    ask (select 1) (map (fun a => if a < 0 then -1 else a) ⟨#[5, Int64.minValue, 0], []⟩) =
      ((ask (select 1) ⟨#[5, Int64.minValue, 0], []⟩).1.map fun a => if a < 0 then -1 else a,
        (ask (select 1) ⟨#[5, Int64.minValue, 0], []⟩).2.map fun a => if a < 0 then -1 else a) ∧
    ask quartiles (map id ⟨#[], []⟩) = (.error .empty, map id ⟨#[], []⟩) ∧
    ∃ q desk₁ r desk₂, ask quartiles ⟨#[3, -4, 3, 8], []⟩ = (.ok q, desk₁) ∧
      ask quartiles (map (fun a => Int64.ofInt (a.toInt + 10)) ⟨#[3, -4, 3, 8], []⟩) =
        (.ok r, desk₂) ∧ r.p50 = Int64.ofInt (q.p50.toInt + 10) := by
  have hnear : KeepsOrder (fun a => if a < 0 then -1 else a) [5, Int64.minValue, 0] := by
    have hleast : Int64.minValue < 0 := by decide
    simp [KeepsOrder, hleast]
  have hshift : KeepsOrder (fun a => Int64.ofInt (a.toInt + 10)) [3, -4, 3, 8] := by
    simp [KeepsOrder]
  refine ⟨(@calls_map _ ⟨#[5, Int64.minValue, 0], []⟩ hnear).1 1,
    ((@calls_map id ⟨#[], []⟩ fun _ _ _ _ h => h).2.1 rfl).2, ?_⟩
  obtain ⟨q, desk₁, r, desk₂, hask, hask', -, -, -, -, hmedian⟩ :=
    (@calls_map _ ⟨#[3, -4, 3, 8], []⟩ hshift).2.2 (by simp)
  have hadds : Adds (fun a => Int64.ofInt (a.toInt + 10)) 10 := by
    intro a b hb
    dsimp only
    rw [← hb, Int64.ofInt_toInt]
  have hall : ∀ a ∈ [(3 : Quote), -4, 3, 8], (Int64.ofInt (a.toInt + 10)).toInt = a.toInt + 10 := by
    simp
  exact ⟨q, desk₁, r, desk₂, hask, hask',
    hmedian 10 hadds fun a ha => hall a (Array.mem_toList_iff.2 ha)⟩

end Desk

end PriceFeed
