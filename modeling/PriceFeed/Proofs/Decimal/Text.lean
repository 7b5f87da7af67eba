/-
  PriceFeed — the text of a decimal reads back.

  The reader takes digits as long as they fit a mantissa and there is room for them after
  the point; those of a decimal do, and there is, so its text is read to the end and nothing
  is rounded away.

  * `plainFrom_append`: a row of such digits is taken;
  * `plainFrom_digits`: the digits of a decimal are read as its mantissa and scale;
  * `read?_chars`: a decimal's text is read as the decimal.
-/
import Mathlib.Tactic
import PriceFeed.Decimal.Printer
import PriceFeed.Decimal.Reader
import PriceFeed.Text.Blank

namespace PriceFeed.Decimal

/-! ## One digit -/

namespace Scan

/-- What has been read after one more digit. -/
def next (s : Scan) (c : Char) : Scan where
  mantissa := 10 * s.mantissa + (c.toNat - '0'.toNat)
  scale := if s.point then s.scale + 1 else s.scale
  point := s.point
  digits := true
  wide := s.wide || decide (wideFrom ≤ 10 * s.mantissa + (c.toNat - '0'.toNat))

/-- There is room for `k` digits before `rest`: after the point there are at most 28 places,
    and nothing follows the last of them. -/
def Room (s : Scan) (k : Nat) (rest : List Char) : Prop :=
  s.point = true → s.scale + k ≤ 28 ∧ (s.scale + k = 28 → rest = [])

section
variable {s : Scan} {ds rest : List Char}

theorem Room.first (h : s.Room (ds.length + 1) rest) : s.Room 1 (ds ++ rest) := by
  intro hpoint
  obtain ⟨hle, hlast⟩ := h hpoint
  refine ⟨by omega, fun hfull => ?_⟩
  obtain rfl : ds = [] := List.length_eq_zero_iff.1 (by omega)
  exact hlast hfull

theorem Room.next (h : s.Room (ds.length + 1) rest) (c : Char) :
    (s.next c).Room ds.length rest := by
  intro hpoint
  obtain ⟨hle, hlast⟩ := h hpoint
  have hscale : (s.next c).scale = s.scale + 1 := if_pos hpoint
  rw [hscale]
  exact ⟨by omega, fun hfull => hlast (by omega)⟩

end

/-- What has been read after a row of digits. -/
theorem foldl_next (ds : List Char) (s : Scan) :
    (ds.foldl next s).mantissa = Nat.ofDigitChars 10 ds s.mantissa ∧
      (ds.foldl next s).scale = (if s.point then s.scale + ds.length else s.scale) ∧
      (ds.foldl next s).point = s.point ∧
      (ds.foldl next s).digits = (s.digits || !ds.isEmpty) := by
  induction ds generalizing s with
  | nil => simp
  | cons c ds ih =>
    obtain ⟨hmantissa, hscale, hpoint, hdigits⟩ := ih (s.next c)
    rw [List.foldl_cons, Nat.ofDigitChars_cons]
    refine ⟨hmantissa, ?_, hpoint, by rw [hdigits]; simp [next]⟩
    rw [hscale, List.length_cons]
    cases h : s.point with
    | false => simp [next, h]
    | true => simp [next, h]; omega

end Scan

/-- A digit that fits, and that there is room for, is taken. -/
theorem plainFrom_cons {s : Scan} {c : Char} {rest : List Char} (hc : c.isDigit = true)
    (hlt : (s.next c).mantissa < mantissaBound) (hroom : s.Room 1 rest) :
    plainFrom s (c :: rest) = plainFrom (s.next c) rest := by
  have hfits : ¬ mantissaBound ≤ 10 * s.mantissa + (c.toNat - '0'.toNat) := Nat.not_le.2 hlt
  rw [plainFrom, Digits.digit?_of_isDigit hc]
  simp only [hfits, decide_false, Bool.and_false, Bool.false_eq_true, if_false]
  cases hpoint : s.point with
  | false => simp [Scan.next, hpoint]
  | true =>
    obtain ⟨hle, hlast⟩ := hroom hpoint
    by_cases hfull : s.scale + 1 = 28
    · -- the last place: `cutOff` finds nothing to round away
      obtain rfl := hlast hfull
      simp [hfull, cutOff, plainFrom, Scan.next, hpoint]
    · simp [show ¬ 28 ≤ s.scale + 1 by omega, Scan.next, hpoint]

/-! ## A row of digits -/

/-- More digits do not make a number smaller. -/
theorem le_ofDigitChars (ds : List Char) (m : Nat) : m ≤ Nat.ofDigitChars 10 ds m := by
  rw [Nat.ofDigitChars_eq_ofDigitChars_zero]
  exact (Nat.le_mul_of_pos_left m (by positivity)).trans (Nat.le_add_right _ _)

/-- Digits whose number fits, and that there is room for, are taken one after another. -/
theorem plainFrom_append {ds rest : List Char} {s : Scan} (hds : ∀ c ∈ ds, c.isDigit = true)
    (hlt : Nat.ofDigitChars 10 ds s.mantissa < mantissaBound) (hroom : s.Room ds.length rest) :
    plainFrom s (ds ++ rest) = plainFrom (ds.foldl Scan.next s) rest := by
  induction ds generalizing s with
  | nil => rfl
  | cons c ds ih =>
    rw [List.forall_mem_cons] at hds
    rw [Nat.ofDigitChars_cons] at hlt
    have hfirst : (s.next c).mantissa < mantissaBound := (le_ofDigitChars ds _).trans_lt hlt
    rw [List.cons_append, List.foldl_cons, plainFrom_cons hds.1 hfirst hroom.first]
    exact ih hds.2 hlt (hroom.next c)

theorem plainFrom_nil {s : Scan} (h : s.digits = true) :
    plainFrom s [] = some (s.mantissa, s.scale) :=
  if_pos h

theorem plainFrom_point {s : Scan} (h : s.point = false) (rest : List Char) :
    plainFrom s ('.' :: rest) = plainFrom { s with point := true } rest :=
  if_pos ⟨rfl, h⟩

section
variable {whole places : List Char} (hdigit : ∀ c ∈ whole ++ places, c.isDigit = true)
  (hne : whole ≠ []) (hlt : Nat.ofDigitChars 10 (whole ++ places) 0 < mantissaBound)
include hdigit hne hlt

theorem exists_plainFrom_whole (rest : List Char) : ∃ s : Scan,
    plainFrom .start (whole ++ rest) = plainFrom s rest ∧
      s.mantissa = Nat.ofDigitChars 10 whole 0 ∧ s.scale = 0 ∧ s.point = false ∧
      s.digits = true := by
  obtain ⟨hmantissa, hscale, hpoint, hdigits⟩ := Scan.foldl_next whole .start
  rw [Nat.ofDigitChars_append] at hlt
  refine ⟨whole.foldl Scan.next .start, ?_, hmantissa, hscale, hpoint, ?_⟩
  · exact plainFrom_append (fun c hc => hdigit c (List.mem_append_left _ hc))
      ((le_ofDigitChars places _).trans_lt hlt) nofun
  · rw [hdigits, List.isEmpty_eq_false_iff.2 hne]
    rfl

theorem plainFrom_whole_point_places (hroom : places.length ≤ 28) :
    plainFrom .start (whole ++ '.' :: places) =
      some (Nat.ofDigitChars 10 (whole ++ places) 0, places.length) := by
  obtain ⟨s, hs, hmantissa, hscale, hpoint, hdigits⟩ :=
    exists_plainFrom_whole hdigit hne hlt ('.' :: places)
  obtain ⟨hmantissa', hscale', -, hdigits'⟩ := Scan.foldl_next places { s with point := true }
  rw [Nat.ofDigitChars_append, ← hmantissa] at hlt ⊢
  have hplaces : plainFrom { s with point := true } (places ++ []) =
      plainFrom (places.foldl Scan.next { s with point := true }) [] :=
    plainFrom_append (fun c hc => hdigit c (List.mem_append_right _ hc)) hlt
      (fun _ => ⟨by rw [hscale]; omega, fun _ => rfl⟩)
  rw [List.append_nil] at hplaces
  rw [hs, plainFrom_point hpoint, hplaces, plainFrom_nil (by rw [hdigits', hdigits]; rfl),
    hmantissa', hscale', if_pos rfl, hscale, Nat.zero_add]

end

/-! ## The digits of a decimal -/

/-- **The digits of a decimal** are read as its mantissa and its scale. -/
theorem plainFrom_digits {m s : Nat} (hm : m < mantissaBound) (hs : s ≤ 28) :
    plainFrom .start (digits m s) = some (m, s) := by
  have hdigit : ∀ c ∈ Digits.padded (s + 1) m, c.isDigit = true :=
    fun _ => Digits.isDigit_of_mem_padded
  have hlen := Digits.le_length_padded (s + 1) m
  have hvalue := Digits.ofDigitChars_padded (s + 1) m
  unfold digits
  generalize Digits.padded (s + 1) m = ds at hdigit hlen hvalue ⊢
  dsimp only
  split
  · next h =>
    subst h
    rw [← List.append_nil ds] at hdigit hvalue
    obtain ⟨s, hs, hmantissa, hscale, -, hdigits⟩ := exists_plainFrom_whole hdigit
      (List.ne_nil_of_length_pos hlen) (hvalue.trans_lt hm) []
    rw [List.append_nil] at hs hvalue
    rw [hs, plainFrom_nil hdigits, hmantissa, hscale, hvalue]
  · next h =>
    rw [← List.take_append_drop (ds.length - s) ds] at hdigit hvalue
    have hplaces : (ds.drop (ds.length - s)).length = s := by rw [List.length_drop]; omega
    have hwhole : ds.take (ds.length - s) ≠ [] :=
      List.ne_nil_of_length_pos (by rw [List.length_take]; omega)
    rw [plainFrom_whole_point_places hdigit hwhole (hvalue.trans_lt hm) (hplaces.trans_le hs),
      hvalue, hplaces]

theorem isDigit_or_point_of_mem {m s : Nat} {c : Char} (h : c ∈ digits m s) :
    c.isDigit = true ∨ c = '.' := by
  unfold digits at h
  dsimp only at h
  split at h
  · exact .inl (Digits.isDigit_of_mem_padded h)
  · rcases List.mem_append.1 h with h | h
    · exact .inl (Digits.isDigit_of_mem_padded (List.mem_of_mem_take h))
    · rcases List.mem_cons.1 h with h | h
      · exact .inr h
      · exact .inl (Digits.isDigit_of_mem_padded (List.mem_of_mem_drop h))

/-! ## Signs -/

theorem plain_of_unsigned {cs : List Char} (h : ∀ c ∈ cs, c ≠ '-' ∧ c ≠ '+') :
    plain cs = signed false cs := by
  unfold plain
  split
  · exact absurd rfl (h '-' List.mem_cons_self).1
  · exact absurd rfl (h '+' List.mem_cons_self).2
  · rfl

section
variable (d : Decimal) (h : d.negative = true → d.mantissa ≠ 0)
include h

theorem signed_digits : signed d.negative (digits d.mantissa d.scale) = some d := by
  have hsign : (d.negative && d.mantissa != 0) = d.negative := by
    cases hneg : d.negative with
    | false => rfl
    | true => simpa using h hneg
  rw [signed, plainFrom_digits d.mantissa_lt d.scale_le]
  show ofParts? (d.negative && d.mantissa != 0) d.mantissa d.scale = some d
  rw [hsign, ofParts?_eq d.negative d.mantissa_lt d.scale_le]

/-- **What is written reads back**, unless it is a zero with a minus sign. -/
theorem read?_chars : read? d.chars = some d := by
  have hplain : plain d.chars = some d := by
    have hsigned := signed_digits d h
    unfold chars
    split
    · next hneg => rwa [hneg] at hsigned
    · next hneg =>
      rw [plain_of_unsigned, ← hsigned, Bool.eq_false_iff.2 hneg]
      intro c hc
      rcases isDigit_or_point_of_mem hc with hc | rfl
      · constructor <;> (rintro rfl; exact absurd hc (by decide))
      · decide
  rw [read?, hplain]
  rfl

end

/-! ## Blanks -/

theorem isBlank_of_mem_chars {d : Decimal} {c : Char} (h : c ∈ d.chars) : isBlank c = false := by
  have hdigits : ∀ c ∈ digits d.mantissa d.scale, isBlank c = false := by
    intro c hc
    rcases isDigit_or_point_of_mem hc with hc | rfl
    · exact isBlank_of_isDigit hc
    · decide
  unfold chars at h
  split at h
  · rcases List.mem_cons.1 h with rfl | h
    · decide
    · exact hdigits c h
  · exact hdigits c h

/-- The text of a decimal has no blanks to be removed. -/
theorem trimBlanks_chars (d : Decimal) : trimBlanks d.chars = d.chars :=
  trimBlanks_of_forall fun _ => isBlank_of_mem_chars

end PriceFeed.Decimal
