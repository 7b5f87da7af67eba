/-
  PriceFeed — decimal digits.

  `ofNat` writes a natural number and `value?` reads one; `value?_ofNat` says
  that reading what was written gives the number back, and `ofNat_ofDigitChars` that
  writing what was read gives its digits back, those after the first that is no zero.
  `padded` writes one with zeros before it, which do not change what it stands for
  (`ofDigitChars_padded`).
-/

namespace PriceFeed.Digits

/-- The value of a decimal digit. -/
def digit? (c : Char) : Option Nat :=
  if c.isDigit then some (c.toNat - '0'.toNat) else none

/-- The number that a row of digits stands for; there is at least one digit. -/
def value? (cs : List Char) : Option Nat :=
  if cs ≠ [] ∧ cs.all Char.isDigit then some (Nat.ofDigitChars 10 cs 0) else none

/-- The digits of a number, without leading zeros. -/
def ofNat (n : Nat) : List Char :=
  Nat.toDigits 10 n

/-- At least `width` digits of a number, zeros put before them as needed. -/
def padded (width n : Nat) : List Char :=
  List.replicate (width - (ofNat n).length) '0' ++ ofNat n

/-- The digits of an integer, after a minus sign if it is negative. -/
def ofInt (n : Int) : List Char :=
  if n < 0 then '-' :: ofNat n.natAbs else ofNat n.natAbs

/-- Base sixteen, after `0x`. -/
def hex (n : Nat) : List Char :=
  '0' :: 'x' :: Nat.toDigits 16 n

def natText (n : Nat) : String :=
  String.ofList (ofNat n)

def intText (n : Int) : String :=
  String.ofList (ofInt n)

theorem isDigit_of_mem_ofNat {n : Nat} {c : Char} (h : c ∈ ofNat n) : c.isDigit = true :=
  Nat.isDigit_of_mem_toDigits (by decide) (by decide) h

theorem ofNat_ne_nil (n : Nat) : ofNat n ≠ [] := by
  intro h
  have := Nat.length_toDigits_pos (b := 10) (n := n)
  rw [show Nat.toDigits 10 n = [] from h] at this
  exact absurd this (by decide)

/-- A digit comes first. -/
theorem exists_ofNat_eq (n : Nat) : ∃ c cs, ofNat n = c :: cs ∧ c.isDigit = true := by
  obtain ⟨c, cs, h⟩ := List.exists_cons_of_ne_nil (ofNat_ne_nil n)
  exact ⟨c, cs, h, isDigit_of_mem_ofNat (h ▸ List.mem_cons_self)⟩

/-- No zero comes before the other digits. -/
theorem head?_ofNat_ne {n : Nat} (hn : 0 < n) : (ofNat n).head? ≠ some '0' := by
  induction n using Nat.strongRecOn with
  | ind n ih =>
    rcases Nat.lt_or_ge n 10 with hlt | hge
    · rw [ofNat, Nat.toDigits_of_lt_base hlt, List.head?_cons, ne_eq, Option.some.injEq,
        Nat.digitChar_eq_zero]
      omega
    · have hhead := ih (n / 10) (by omega) (by omega)
      obtain ⟨c, cs, hcs, -⟩ := exists_ofNat_eq (n / 10)
      rw [ofNat, Nat.toDigits_of_base_le (by decide) hge, ← ofNat, hcs]
      rw [hcs] at hhead
      exact hhead

/-- The written form of a number reads back as that number. -/
theorem value?_ofNat (n : Nat) : value? (ofNat n) = some n := by
  unfold value?
  rw [if_pos ⟨ofNat_ne_nil n, List.all_eq_true.2 fun _ => isDigit_of_mem_ofNat⟩, ofNat,
    Nat.ofDigitChars_toDigits (by decide) (by decide)]

theorem digit?_of_isDigit {c : Char} (h : c.isDigit = true) :
    digit? c = some (c.toNat - '0'.toNat) :=
  if_pos h

theorem digitChar_of_isDigit {c : Char} (h : c.isDigit = true) :
    c.toNat - '0'.toNat < 10 ∧ Nat.digitChar (c.toNat - '0'.toNat) = c := by
  simp only [Char.isDigit, Bool.and_eq_true, decide_eq_true_eq, UInt32.le_iff_toNat_le] at h
  have hfirst : 48 ≤ c.toNat := h.1
  have hlast : c.toNat ≤ 57 := h.2
  have hlt : c.toNat - '0'.toNat < 10 := by
    show c.toNat - 48 < 10
    omega
  refine ⟨hlt, Char.toNat_inj.1 ?_⟩
  rw [Nat.toNat_digitChar_of_lt_ten hlt]
  show 48 + (c.toNat - 48) = c.toNat
  omega

/-- Digits read on from a number become its last digits, unless it is zero. -/
theorem ofNat_ofDigitChars {cs : List Char} (hcs : ∀ c ∈ cs, c.isDigit = true) {n : Nat}
    (hn : 0 < n) : ofNat (Nat.ofDigitChars 10 cs n) = ofNat n ++ cs := by
  induction cs generalizing n with
  | nil => rw [Nat.ofDigitChars_nil, List.append_nil]
  | cons c cs ih =>
    rw [List.forall_mem_cons] at hcs
    obtain ⟨hlt, hc⟩ := digitChar_of_isDigit hcs.1
    have happend := Nat.toDigits_append_toDigits (b := 10) (by decide) hn hlt
    rw [Nat.toDigits_of_lt_base hlt, hc] at happend
    rw [Nat.ofDigitChars_cons, ih hcs.2 (by omega), ofNat, ← happend, List.append_assoc]
    rfl

theorem isDigit_of_mem_padded {width n : Nat} {c : Char} (h : c ∈ padded width n) :
    c.isDigit = true := by
  rcases List.mem_append.1 h with h | h
  · rw [List.eq_of_mem_replicate h]; decide
  · exact isDigit_of_mem_ofNat h

theorem le_length_padded (width n : Nat) : width ≤ (padded width n).length := by
  rw [padded, List.length_append, List.length_replicate]
  omega

/-- The zeros before a number do not change what it stands for. -/
theorem ofDigitChars_padded (width n : Nat) : Nat.ofDigitChars 10 (padded width n) 0 = n := by
  rw [padded, Nat.ofDigitChars_append, Nat.ofDigitChars_replicate_zero, Nat.mul_zero, ofNat,
    Nat.ofDigitChars_ten_toDigits]

end PriceFeed.Digits
