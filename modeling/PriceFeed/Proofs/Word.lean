/-
  PriceFeed — computations that answer.

  * `bind_eq_ok`: a sequence answers exactly if each of its parts does;
  * `eq_of_eq_ok`: there is one answer at most;
  * `Word.eq_of_add` and the like: an operation that answers gives the word that the
    same operation gives on words that wrap around.
-/
import Mathlib
import PriceFeed.Word

namespace PriceFeed

section
variable {ε α β : Type} {x : Except ε α}

@[simp] theorem bind_eq_ok {f : α → Except ε β} {b : β} :
    x >>= f = .ok b ↔ ∃ a, x = .ok a ∧ f a = .ok b := by
  cases x with
  | error => simp [bind, Except.bind]
  | ok a =>
    constructor
    · intro h; exact ⟨a, rfl, h⟩
    · rintro ⟨_, ha, h⟩; cases ha; exact h

@[simp] theorem pure_eq_ok {a b : α} : (pure a : Except ε α) = .ok b ↔ a = b :=
  Except.ok.injEq a b ▸ Iff.rfl

theorem eq_of_eq_ok {a b : α} (ha : x = .ok a) (hb : x = .ok b) : a = b :=
  Except.ok.inj (ha.symm.trans hb)

theorem eq_of_ite_eq_ok {c : Prop} [Decidable c] {a b : α} {e : ε}
    (h : (if c then .ok a else .error e) = Except.ok b) : b = a := by
  by_cases hc : c
  · rw [if_pos hc] at h; exact (Except.ok.inj h).symm
  · rw [if_neg hc] at h; exact nomatch h

instance decidableExistsOk (x : Except ε α) (P : α → Prop) [DecidablePred P] :
    Decidable (∃ a, x = .ok a ∧ P a) :=
  match x with
  | .ok a => decidable_of_iff (P a) (by simp)
  | .error _ => .isFalse (by simp)

end

namespace Word
variable {a b c : UInt64} {s : Nat}

theorem exists_toNat {n : Nat} (h : n < UInt64.size) : ∃ w : UInt64, w.toNat = n :=
  ⟨UInt64.ofNat n, UInt64.toNat_ofNat_of_lt' h⟩

theorem toNat_add_one (h : a.toNat + 1 < UInt64.size) : (a + 1).toNat = a.toNat + 1 := by
  rw [UInt64.toNat_add, show (1 : UInt64).toNat = 1 from rfl, Nat.mod_eq_of_lt h]

theorem eq_of_mul (h : mul a b = .ok c) : c = a * b := eq_of_ite_eq_ok h

theorem eq_of_add (h : add a b = .ok c) : c = a + b := eq_of_ite_eq_ok h

theorem eq_of_sub (h : sub a b = .ok c) : c = a - b := eq_of_ite_eq_ok h

theorem eq_of_shiftRight (h : shiftRight a s = .ok c) : c = a >>> UInt64.ofNat s :=
  eq_of_ite_eq_ok h

theorem eq_of_shiftLeft (h : shiftLeft a s = .ok c) : c = a <<< UInt64.ofNat s :=
  eq_of_ite_eq_ok h

end Word

end PriceFeed
