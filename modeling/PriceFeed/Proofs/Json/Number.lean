/-
  PriceFeed — the numbers of JSON, as they are written.

  A number has one text only, since no zero may lead its whole digits: `ofChars?` reads
  exactly the texts that `toChars` writes (`ofChars?_eq_some`), where what follows the whole
  digits is a tail, and what is read as one is a `Tail` of the grammar (`isTail_iff`).  All
  characters of such a text are parts of numbers, and the first begins one.
-/
import Mathlib.Tactic
import PriceFeed.Json.Grammar

namespace PriceFeed.Json

/-- A list that goes on as long as `p` holds. -/
theorem takeWhile_dropWhile_append {α : Type} {p : α → Bool} {w cs : List α}
    (hw : ∀ c ∈ w, p c = true) (hcs : ∀ c ∈ cs.head?, p c = false) :
    (w ++ cs).takeWhile p = w ∧ (w ++ cs).dropWhile p = cs := by
  rw [List.takeWhile_append_of_pos hw, List.dropWhile_append_of_pos hw]
  cases cs with
  | nil => exact ⟨List.append_nil w, rfl⟩
  | cons c cs =>
    have hc : p c = false := hcs c rfl
    simp [hc]

namespace Number

/-! ## Whole digits -/

theorem isWhole_ofNat (n : Nat) : isWhole (Digits.ofNat n) = true := by
  have hdigits : isDigits (Digits.ofNat n) = true := by
    have hall : (Digits.ofNat n).all Char.isDigit = true :=
      List.all_eq_true.2 fun c hc => Digits.isDigit_of_mem_ofNat hc
    simp [isDigits, Digits.ofNat_ne_nil, hall]
  rw [isWhole, hdigits, Bool.true_and, Bool.or_eq_true]
  rcases Nat.eq_zero_or_pos n with rfl | hn
  · exact .inl rfl
  · exact .inr (bne_iff_ne.2 (Digits.head?_ofNat_ne hn))

theorem ofNat_of_isWhole {cs : List Char} {n : Nat} (h : isWhole cs = true)
    (hn : Digits.value? cs = some n) : Digits.ofNat n = cs := by
  obtain ⟨⟨hne, hall⟩, rfl⟩ : (cs ≠ [] ∧ ∀ c ∈ cs, c.isDigit) ∧ Nat.ofDigitChars 10 cs 0 = n := by
    simpa [Digits.value?] using hn
  obtain ⟨c, cs, rfl⟩ := List.exists_cons_of_ne_nil hne
  rw [List.forall_mem_cons] at hall
  obtain ⟨hlt, hc⟩ := Digits.digitChar_of_isDigit hall.1
  rw [Nat.ofDigitChars_cons, Nat.mul_zero, Nat.zero_add]
  rcases Nat.eq_zero_or_pos (c.toNat - '0'.toNat) with hzero | hpos
  · -- a zero that comes first is alone
    rw [hzero] at hc ⊢
    subst hc
    obtain ⟨-, rfl⟩ : isDigits ('0' :: cs) = true ∧ cs = [] := by
      simpa [isWhole, show Nat.digitChar 0 = '0' from rfl] using h
    rfl
  · rw [Digits.ofNat_ofDigitChars hall.2 hpos, Digits.ofNat, Nat.toDigits_of_lt_base hlt, hc]
    rfl

/-! ## Tails -/

section
variable {cs : List Char}

theorem Row.part (h : Row cs) : ∀ c ∈ cs, Part c :=
  fun c hc => .inl (h.2 c hc)

theorem part_of_mark {mark : Char} (h : mark = 'e' ∨ mark = 'E') : Part mark := by
  rcases h with rfl | rfl <;> simp [Part]

theorem Exponent.part (h : Exponent cs) : ∀ c ∈ cs, Part c := by
  cases h with
  | absent => exact List.forall_mem_nil _
  | bare hmark hrow =>
    rw [List.forall_mem_cons]
    exact ⟨part_of_mark hmark, hrow.part⟩
  | plus hmark hrow | minus hmark hrow =>
    rw [List.forall_mem_cons, List.forall_mem_cons]
    exact ⟨part_of_mark hmark, by simp [Part], hrow.part⟩

theorem Tail.part (h : Tail cs) : ∀ c ∈ cs, Part c := by
  cases h with
  | exponent hexp => exact hexp.part
  | fraction hrow hexp =>
    rw [List.cons_append, List.forall_mem_cons, List.forall_mem_append]
    exact ⟨by simp [Part], hrow.part, hexp.part⟩

/-- An exponent begins with its mark. -/
theorem Exponent.head (h : Exponent cs) : ∀ c ∈ cs.head?, c = 'e' ∨ c = 'E' := by
  cases h with
  | absent => rintro _ ⟨⟩
  | bare hmark | plus hmark | minus hmark =>
    rintro _ ⟨⟩
    exact hmark

theorem Exponent.isDigit_head (h : Exponent cs) : ∀ c ∈ cs.head?, c.isDigit = false := by
  intro c hc
  rcases h.head c hc with rfl | rfl <;> rfl

/-- A tail does not begin with a digit. -/
theorem Tail.isDigit_head (h : Tail cs) : ∀ c ∈ cs.head?, c.isDigit = false := by
  cases h with
  | exponent hexp => exact hexp.isDigit_head
  | fraction =>
    rintro _ ⟨⟩
    rfl

theorem isDigits_iff : isDigits cs = true ↔ Row cs := by
  simp [isDigits, Row]

theorem mark_and_isDigits_iff {mark : Char} :
    ((mark == 'e' || mark == 'E') && isDigits cs) = true ↔
      (mark = 'e' ∨ mark = 'E') ∧ Row cs := by
  simp [isDigits_iff]

/-- What is read as an exponent is one. -/
theorem isExponent_iff : isExponent cs = true ↔ Exponent cs := by
  constructor
  · fun_cases isExponent cs with
    | case1 => exact fun _ => .absent
    | case2 mark cs =>
      rw [mark_and_isDigits_iff]
      exact fun h => .plus h.1 h.2
    | case3 mark cs =>
      rw [mark_and_isDigits_iff]
      exact fun h => .minus h.1 h.2
    | case4 mark cs =>
      rw [mark_and_isDigits_iff]
      exact fun h => .bare h.1 h.2
  · intro h
    cases h with
    | absent => rfl
    | plus hmark hrow | minus hmark hrow => exact mark_and_isDigits_iff.2 ⟨hmark, hrow⟩
    | @bare mark ds hmark hrow =>
      -- a digit is no sign
      have hplus : ∀ cs, ds ≠ '+' :: cs := by
        rintro cs rfl
        exact nomatch hrow.2 '+' (.head _)
      have hminus : ∀ cs, ds ≠ '-' :: cs := by
        rintro cs rfl
        exact nomatch hrow.2 '-' (.head _)
      rw [isExponent, mark_and_isDigits_iff]
      exacts [⟨hmark, hrow⟩, hplus, hminus]

/-- **What is read as the tail of a number is one**, and every tail is read. -/
theorem isTail_iff : isTail cs = true ↔ Tail cs := by
  constructor
  · fun_cases isTail cs with
    | case1 cs =>
      intro h
      rw [Bool.and_eq_true, isDigits_iff, isExponent_iff] at h
      have htail := Tail.fraction h.1 h.2
      rwa [List.cons_append, List.takeWhile_append_dropWhile] at htail
    | case2 cs => exact fun h => .exponent (isExponent_iff.1 h)
  · intro h
    cases h with
    | @fraction ds cs hrow hexp =>
      obtain ⟨htake, hdrop⟩ := takeWhile_dropWhile_append hrow.2 hexp.isDigit_head
      rw [List.cons_append, isTail, htake, hdrop, isDigits_iff.2 hrow, isExponent_iff.2 hexp]
      rfl
    | exponent hexp =>
      have hpoint : ∀ cs', cs ≠ '.' :: cs' := by
        rintro cs' rfl
        exact absurd (hexp.head '.' rfl) (by simp)
      rw [isTail, isExponent_iff]
      exacts [hexp, hpoint]

end

/-! ## Numbers -/

theorem signed?_eq_some {negative : Bool} {cs : List Char} {n : Number} :
    signed? negative cs = some n ↔
      n.negative = negative ∧ Tail n.tail ∧ Digits.ofNat n.whole ++ n.tail = cs := by
  unfold signed?
  constructor
  · intro h
    obtain ⟨⟨hwhole, htail⟩, w, hw, rfl⟩ :
        (isWhole (cs.takeWhile Char.isDigit) = true ∧ isTail (cs.dropWhile Char.isDigit) = true) ∧
          ∃ w, Digits.value? (cs.takeWhile Char.isDigit) = some w ∧
            ⟨negative, w, cs.dropWhile Char.isDigit⟩ = n := by
      simpa using h
    refine ⟨rfl, isTail_iff.1 htail, ?_⟩
    rw [ofNat_of_isWhole hwhole hw, List.takeWhile_append_dropWhile]
  · rintro ⟨rfl, htail, rfl⟩
    obtain ⟨htake, hdrop⟩ := takeWhile_dropWhile_append
      (fun _ => Digits.isDigit_of_mem_ofNat (n := n.whole)) htail.isDigit_head
    simp [htake, hdrop, isWhole_ofNat, isTail_iff.2 htail, Digits.value?_ofNat]

/-- **A text is read as a number exactly if it is the number as it is written**, and what follows
    the whole digits is a tail. -/
theorem ofChars?_eq_some {cs : List Char} {n : Number} :
    ofChars? cs = some n ↔ Tail n.tail ∧ n.toChars = cs := by
  obtain ⟨negative, whole, tail⟩ := n
  obtain ⟨first, rest, hfirst, hdigit⟩ := Digits.exists_ofNat_eq whole
  unfold toChars
  fun_cases ofChars? cs with
  | case1 cs =>
    rw [signed?_eq_some]
    cases negative with
    | true => simp
    | false =>
      have hne : first ≠ '-' := by rintro rfl; exact nomatch hdigit
      simp [hfirst, hne]
  | case2 cs hsign =>
    rw [signed?_eq_some]
    cases negative with
    | true =>
      have hne : ∀ cs', '-' :: cs' ≠ cs := fun cs' h => hsign cs' h.symm
      simp [hne]
    | false => simp

/-- A number begins with a minus sign or a digit. -/
theorem exists_toChars_eq (n : Number) :
    ∃ c cs, n.toChars = c :: cs ∧ (c == '-' || c.isDigit) = true := by
  obtain ⟨negative, whole, tail⟩ := n
  obtain ⟨first, rest, hfirst, hdigit⟩ := Digits.exists_ofNat_eq whole
  cases negative with
  | true => exact ⟨'-', Digits.ofNat whole ++ tail, rfl, rfl⟩
  | false =>
    refine ⟨first, rest ++ tail, ?_, by rw [hdigit, Bool.or_true]⟩
    simp [toChars, hfirst]

theorem part_of_mem_toChars {n : Number} (h : Tail n.tail) : ∀ c ∈ n.toChars, Part c := by
  intro c hc
  simp only [toChars, List.mem_append] at hc
  rcases hc with (hc | hc) | hc
  · split at hc
    · rw [List.mem_singleton.1 hc]
      simp [Part]
    · exact absurd hc List.not_mem_nil
  · exact .inl (Digits.isDigit_of_mem_ofNat hc)
  · exact h.part c hc

end Number

end PriceFeed.Json
